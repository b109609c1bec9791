import RfcNet.Agreement
import RfcNet.Network.Soundness

/-!
# The sessions of a network

Each client with its session is a `Link`: what all the others do is for the two of them something that other
sessions do to the index (`exists_link`).  So everything that is known of a link is known of every client of a
network, where nothing is assumed of the others but that their addresses can be listed (`session_agrees`).
-/

set_option autoImplicit false

namespace RfcNet

open Lib RFCManager

namespace Link

/-! ## Links up to what their calls return next -/

/-- The link, with nothing said of what its next calls return. -/
def plain (l : Link) : Link where
  client := { l.client with env := userDefault }
  server := { l.server with env := indexAnswers .empty fun _ ↦ 0 }
  toServer := l.toServer
  toClient := l.toClient
  index := l.index

/-- An event says what calls return, so what was said before does not matter. -/
theorem map_plain_step (l : Link) (e : LinkEvent) : (l.plain.step e).map plain = (l.step e).map plain := by
  cases e with
  | client answers =>
    rw [step, step, Option.map_map, Option.map_map]
    rfl
  | server memory =>
    rw [step, step, Option.map_map, Option.map_map]
    rfl
  | other op => rfl

theorem exists_step_of_plain {l k k' : Link} {e : LinkEvent} (h : l.plain = k.plain) (hk : k.step e = some k') :
    ∃ l', l.step e = some l' ∧ l'.plain = k'.plain := by
  have hmap := map_plain_step l e
  rw [h, map_plain_step, hk] at hmap
  obtain ⟨l', hl', heq⟩ := Option.map_eq_some_iff.mp hmap.symm
  exact ⟨l', hl', heq⟩

/-- Nor does it matter to what the two sides expect. -/
theorem Agrees.plain {l : Link} (h : l.Agrees) : l.plain.Agrees where
  client := h.client
  server := h.server
  front := h.front
  replies := h.replies
  progress := by
    have hmoves : ∀ e, l.step e ≠ none → l.plain.step e ≠ none := by
      intro e he hnone
      have hmap := l.map_plain_step e
      rw [hnone, Option.map_none] at hmap
      exact he (Option.map_eq_none_iff.mp hmap.symm)
    rcases h.progress with ⟨answers, hstep⟩ | ⟨memory, hstep⟩ | hreturned
    · exact .inl ⟨answers, hmoves _ hstep⟩
    · exact .inr (.inl ⟨memory, hmoves _ hstep⟩)
    · exact .inr (.inr hreturned)

end Link

/-- A client and its session. -/
def Member.link {ι : Type} (m : Member ι) (ix : CentralIndex) : Link where
  client := ⟨m.client, userDefault, m.clientLog⟩
  server := ⟨m.session, indexAnswers .empty fun _ ↦ 0, m.sessionLog⟩
  toServer := m.toServer
  toClient := m.toClient
  index := ix

namespace Network

variable {ι : Type} [DecidableEq ι] {nodes : ι → Node} {w w' : Network ι} {e : Happening ι} {i : ι}
  {es : List (Happening ι)}

/-- The client of a peer and its session. -/
def link {ι : Type} (w : Network ι) (i : ι) : Link := (w.member i).link w.index

/-! ## What an event does to a session -/

theorem link_set_self (m : Member ι) : (w.set i m).link i = m.link w.index := by
  rw [link, set_member_self]
  rfl

/-- What another peer does leaves a session as it is. -/
theorem link_set_of_ne {j : ι} (h : j ≠ i) (m : Member ι) : (w.set i m).link j = w.link j := by
  rw [link, set_member_of_ne h]
  rfl

theorem link_setIndex (m : Member ι) (ix : CentralIndex) {j : ι} :
    link { w.set j m with index := ix } i = ((w.set j m).member i).link ix := rfl

/-- What happens to directories and errands does not matter to a session. -/
theorem link_set_belongings (m : Belongings ι) (j : ι) :
    (w.set i { w.member i with toBelongings := m }).link j = w.link j := by
  by_cases hj : j = i
  · subst hj
    exact link_set_self _
  · exact link_set_of_ne hj _

/-- **What an event does to the sessions**: a client moves, or a handler moves, or nothing. -/
theorem step_cases (h : w.step nodes e = some w') :
    (∃ i memory command c rest out,
      (⟨(w.member i).client, (w.member i).toBelongings, (w.member i).clientLog⟩ :
        Endpoint clientMain (Belongings.env ι memory command)).act (w.member i).toClient = some (c, rest, out) ∧
      w' = w.set i { w.member i with
        toBelongings := c.env, client := c.code, clientLog := c.log, toClient := rest,
        toServer := (w.member i).toServer ++ out }) ∨
    (∃ i memory s rest out,
      (⟨(w.member i).session, w.index, (w.member i).sessionLog⟩ : Endpoint handler (indexEnv memory)).act
        (w.member i).toServer = some (s, rest, out) ∧
      w' = { w.set i { w.member i with
          session := s.code, sessionLog := s.log, toServer := rest,
          toClient := (w.member i).toClient ++ out } with
        index := s.env }) ∨
    (w'.index = w.index ∧ ∀ j, w'.link j = w.link j) := by
  cases e with
  | client i memory command =>
    obtain ⟨⟨c, rest, out⟩, hact, rfl⟩ := Option.map_eq_some_iff.mp h
    exact .inl ⟨i, memory, command, c, rest, out, hact, rfl⟩
  | session i memory =>
    obtain ⟨⟨s, rest, out⟩, hact, rfl⟩ := Option.map_eq_some_iff.mp h
    exact .inr (.inl ⟨i, memory, s, rest, out, hact, rfl⟩)
  | connect i target =>
    simp only [Network.step] at h
    split at h
    · cases h
    · obtain ⟨n, -, rfl⟩ := Option.map_eq_some_iff.mp h
      exact .inr (.inr ⟨rfl, fun j ↦ link_set_belongings { (w.member i).toBelongings with errand := _ } j⟩)
  | requester i memory =>
    obtain ⟨v, -, h⟩ := Option.bind_eq_some_iff.mp h
    obtain ⟨⟨s, rest, out⟩, -, rfl⟩ := Option.map_eq_some_iff.mp h
    exact .inr (.inr ⟨rfl, fun j ↦
      link_set_belongings { (w.member i).toBelongings with files := _, errand := _ } j⟩)
  | write i len =>
    obtain ⟨v, -, h⟩ := Option.bind_eq_some_iff.mp h
    obtain ⟨file, -, rfl⟩ := Option.map_eq_some_iff.mp h
    exact .inr (.inr ⟨rfl, fun j ↦ link_set_belongings { (w.member i).toBelongings with files := _ } j⟩)
  | responder i memory =>
    obtain ⟨v, -, h⟩ := Option.bind_eq_some_iff.mp h
    obtain ⟨t, -, rfl⟩ := Option.map_eq_some_iff.mp h
    refine .inr (.inr ⟨rfl, fun j ↦ ?_⟩)
    rw [setFiles, link_set_belongings { Member.toBelongings _ with files := _ }]
    exact link_set_belongings { (w.member i).toBelongings with errand := _ } j
  | straggler i k memory =>
    obtain ⟨v, -, h⟩ := Option.bind_eq_some_iff.mp h
    obtain ⟨t, -, rfl⟩ := Option.map_eq_some_iff.mp h
    refine .inr (.inr ⟨rfl, fun j ↦ ?_⟩)
    rw [setFiles, link_set_belongings { Member.toBelongings _ with files := _ }]
    exact link_set_belongings { (w.member i).toBelongings with past := _ } j

/-! ## Every session is a link -/

/-- The next call of a handler, if it is a critical section. -/
theorem indexNext_cases (ix : CentralIndex) (code : handler.Code) :
    indexNext ix code = ix ∨ ∃ op k, code = .callThen (.index op) k ∧ indexNext ix code = (op.exec ix).2 := by
  unfold indexNext
  split
  · exact .inr ⟨_, _, rfl, rfl⟩
  · exact .inl rfl

/-- A handler moves in a network as it does in a link. -/
theorem act_indexAnswers {code : handler.Code} {ix : CentralIndex} {log : List serverSig.Call} {memory : ℕ → UInt8}
    {inbox rest out : List Frame} {s : Endpoint handler (indexEnv memory)}
    (h : (⟨code, ix, log⟩ : Endpoint handler (indexEnv memory)).act inbox = some (s, rest, out)) :
    (⟨code, indexAnswers ix memory, log⟩ : Endpoint handler (Env.oracle serverSig)).act inbox =
      some (⟨s.code, indexAnswers ix memory, s.log⟩, rest, out) ∧ s.env = indexNext ix code := by
  cases Endpoint.act_eq_some_iff.mp h with
  | loop => exact ⟨rfl, rfl⟩
  | send => exact ⟨rfl, rfl⟩
  | recv => exact ⟨Endpoint.act_eq_some_iff.mpr .recv, rfl⟩
  | @call op _ _ _ _ _ r hr =>
    cases op with
    | index op | newBytes n | close =>
      obtain ⟨rfl, rfl⟩ := Prod.mk.inj (Option.some_inj.mp hr)
      exact ⟨rfl, rfl⟩

omit [DecidableEq ι] in
/-- The address of a client that can be listed has no NUL. -/
theorem cString_address (hself : ∀ j, Client.Sound ⟨(nodes j).address, (nodes j).port⟩) (j : ι) :
    cString (nodes j).address = (nodes j).address := cString_eq_self (hself j).noNul

omit [DecidableEq ι] in
/-- No handler registers a client that cannot be listed. -/
theorem Sound.opSound {cut : Prop} (hw : w.Sound nodes cut)
    (hself : ∀ j, Client.Sound ⟨(nodes j).address, (nodes j).port⟩) {op : IndexOp} {k : op.Res → handler.Code}
    (hcode : (w.member i).session = .callThen (.index op) k) : op.Sound := by
  obtain ⟨ph, hm⟩ := hw.members i
  obtain ⟨stage, hsession, -⟩ := hm.session
  rw [hcode] at hsession
  cases op with
  | addClient h p =>
    obtain ⟨rfl, rfl⟩ : h = cString (nodes i).address ∧ p = (nodes i).port := hsession.1
    rw [IndexOp.Sound, cString_address hself]
    exact hself i
  | eraseHolders | eraseClient | addRfc | findRfcs | allRfcs => trivial

/-- **An event is a run of each link**, of one event at most. -/
theorem exists_link_step {cut : Prop} (hw : w.Sound nodes cut)
    (hself : ∀ j, Client.Sound ⟨(nodes j).address, (nodes j).port⟩) (h : w.step nodes e = some w') (i : ι) :
    w'.link i = w.link i ∨ ∃ le l, (w.link i).step le = some l ∧ l.plain = w'.link i ∧
      ∀ op, le = .other op → op.Sound := by
  rcases step_cases h with ⟨j, memory, command, c, rest, out, hact, rfl⟩ | ⟨j, memory, s, rest, out, hact, rfl⟩ |
    ⟨-, hsame⟩
  · by_cases hij : i = j
    · subst hij
      obtain ⟨answers, hact⟩ := Endpoint.exists_act_oracle hact userDefault
      refine .inr ⟨.client answers, _, Link.step_client_eq_some.mpr ⟨_, _, _, hact, rfl⟩, ?_, nofun⟩
      rw [link_set_self]
      rfl
    · exact .inl (link_set_of_ne hij _)
  · obtain ⟨hact, hindex⟩ := act_indexAnswers hact
    by_cases hij : i = j
    · subst hij
      refine .inr ⟨.server memory, _, Link.step_server_eq_some.mpr ⟨_, _, _, hact, rfl⟩, ?_, nofun⟩
      rw [hindex, link_setIndex, set_member_self]
      rfl
    · rw [hindex, link_setIndex, set_member_of_ne hij]
      rcases indexNext_cases w.index (w.member j).session with hnext | ⟨op, k, hcode, hnext⟩
      · rw [hnext]
        exact .inl rfl
      · rw [hnext]
        refine .inr ⟨.other op, _, rfl, rfl, ?_⟩
        rintro _ ⟨⟩
        exact hw.opSound hself hcode
  · exact .inl (hsame i)

/-- **A client and its session, in a run of the network, have a run of their own.** -/
theorem exists_link (hself : ∀ j, Client.Sound ⟨(nodes j).address, (nodes j).port⟩)
    (hrun : run (Network.step nodes) (init nodes) es = some w) (i : ι) :
    ∃ les l, run Link.step (.init (nodes i).address (nodes i).port (nodes i).rfcs .empty) les = some l ∧
      l.plain = w.link i ∧ ∀ op, .other op ∈ les → op.Sound := by
  refine (run_inv (P := fun w : Network ι ↦ w.Sound nodes True ∧ ∃ les l,
    run Link.step (.init (nodes i).address (nodes i).port (nodes i).rfcs .empty) les = some l ∧
      l.plain = w.link i ∧ ∀ op, .other op ∈ les → op.Sound) ?_ ?_ hrun).2
  · rintro w e w' ⟨hw, les, l, hl, hplain, hsound⟩ hstep
    refine ⟨hw.step (fun _ _ _ ↦ trivial) hstep, ?_⟩
    rcases exists_link_step hw hself hstep i with hsame | ⟨le, k, hk, hk', hop⟩
    · exact ⟨les, l, hl, hplain.trans hsame.symm, hsound⟩
    · have hplain' : l.plain = (w.link i).plain := hplain
      obtain ⟨l', hl', heq⟩ := Link.exists_step_of_plain hplain' hk
      refine ⟨les ++ [le], l', run_append_eq_some.mpr ⟨l, hl, run_cons_eq_some.mpr ⟨l', hl', rfl⟩⟩,
        heq.trans hk', fun op hmem ↦ ?_⟩
      rcases List.mem_append.mp hmem with hold | hnew
      · exact hsound op hold
      · exact hop op (List.mem_singleton.mp hnew).symm
  · exact ⟨sound_init nodes True, [], _, rfl, rfl, fun op hop ↦ absurd hop List.not_mem_nil⟩

/-! ## Agreement -/

/-- What a peer and its session have a right to expect. -/
structure Agrees (nodes : ι → Node) (w : Network ι) (i : ι) : Prop where
  /-- The client has raised no exception. -/
  client : ∀ err, (w.member i).client ≠ .raise err
  /-- Nor has the handler. -/
  session : ∀ err, (w.member i).session ≠ .raise err
  /-- The replies that the client has decoded are what the index answered to its requests, one by one. -/
  replies : answered (w.member i).clientLog <+: served (w.member i).sessionLog
  /-- One of them can move, or the client is about to get an RFC from another peer, or both have returned. -/
  progress : (∃ memory command, w.Happens nodes (.client i memory command)) ∨
    (∃ memory, w.Happens nodes (.session i memory)) ∨ (∃ n, wanted (w.member i).client = some n) ∨
    (∃ a, (w.member i).client = .done (.inr a)) ∧ ∃ b, (w.member i).session = .done (.inr b)

/-- A client that can move once it is told something can move, unless it is told by another peer. -/
theorem client_goes_on {cut : Prop} {ph : ClientPhase} (hm : (w.member i).Sound nodes cut i ph)
    (hwanted : ¬ ∃ n, wanted (w.member i).client = some n) {answers : (op : clientSig.Op) → clientSig.Res op}
    (h : (w.link i).step (.client answers) ≠ none) :
    ∃ memory command, w.step nodes (.client i memory command) ≠ none := by
  refine ⟨fun _ ↦ 0, .quit, ?_⟩
  obtain ⟨l, hl⟩ := Option.ne_none_iff_exists'.mp h
  obtain ⟨c, rest, out, hact, -⟩ := Link.step_client_eq_some.mp hl
  rw [step, ne_eq, Option.map_eq_none_iff]
  refine Endpoint.act_ne_none_of_oracle (Option.ne_none_iff_exists'.mpr ⟨_, hact⟩) fun op k hcode ↦ ?_
  have hcode : (w.member i).client = .callThen op k := hcode
  cases op with
  | newBytes n | readCommand | decoded request reply | disconnect => exact Option.some_ne_none _
  | getFromPeer n c => exact absurd ⟨n, by rw [hcode]; rfl⟩ hwanted
  | checkIfRfcStored n =>
    obtain ⟨l, hlist⟩ := hm.files.exists_getRfcs
    show Option.map _ (checkIfRfcStored n (w.member i).files).toOption ≠ none
    rw [checkIfRfcStored, hlist]
    exact Option.some_ne_none _

/-- The index answers every handler. -/
theorem session_goes_on {memory : ℕ → UInt8} (h : (w.link i).step (.server memory) ≠ none) :
    ∃ memory, w.step nodes (.session i memory) ≠ none := by
  refine ⟨memory, ?_⟩
  obtain ⟨l, hl⟩ := Option.ne_none_iff_exists'.mp h
  obtain ⟨s, rest, out, hact, -⟩ := Link.step_server_eq_some.mp hl
  rw [step, ne_eq, Option.map_eq_none_iff]
  refine Endpoint.act_ne_none_of_oracle (Option.ne_none_iff_exists'.mpr ⟨_, hact⟩) fun op k _ ↦ ?_
  cases op with
  | index op | newBytes n | close => exact Option.some_ne_none _

/-- The two sides of every link expect the same. -/
theorem link_agrees (hself : ∀ j, Client.Sound ⟨(nodes j).address, (nodes j).port⟩)
    (hrfcs : ∀ n ∈ (nodes i).rfcs, 0 < n) (hrun : run (Network.step nodes) (init nodes) es = some w)
    (hsmall : ∀ c ∈ (w.member i).sessionLog, Small c) : (w.link i).Agrees := by
  obtain ⟨les, l, hl, hplain, hsound⟩ := exists_link hself hrun i
  have hserver : l.server.log = (w.member i).sessionLog := congrArg (fun l ↦ l.server.log) hplain
  have hagrees := Link.agrees_of_run (hself i) (nodes i).length_lt hrfcs
    ⟨fun _ h ↦ absurd h List.not_mem_nil, fun _ h ↦ absurd h List.not_mem_nil⟩ hsound hl (hserver ▸ hsmall)
  exact hplain ▸ hagrees.plain

/-- A client that can move, and is on no errand, has not come to its end. -/
theorem mainRuns_of_moves {cut : Prop} {ph : ClientPhase} (hm : (w.member i).Sound nodes cut i ph)
    (hwanted : ¬ ∃ n, wanted (w.member i).client = some n) (hclient : ∀ err, (w.member i).client ≠ .raise err)
    {memory : ℕ → UInt8} {command : Command} (hmoves : w.step nodes (.client i memory command) ≠ none) :
    w.MainRuns i where
  returned a ha := by
    refine hmoves ?_
    rw [step, Option.map_eq_none_iff]
    exact Endpoint.act_eq_none_of_returned (e := ⟨_, _, _⟩) ha _
  client := hclient
  requester v hv := absurd ⟨v.number, (hm.errand v hv).1⟩ hwanted

omit [DecidableEq ι] in
/-- All sessions go on, if this one does as well. -/
theorem ServerRuns.all (h : w.ServerRuns (some i)) (hi : ∀ err, (w.member i).session ≠ .raise err) :
    w.ServerRuns none := by
  intro j _
  by_cases hj : j = i
  · exact hj ▸ hi
  · exact h j fun heq ↦ hj (Option.some_inj.mp heq)

/-- What comes of it where a peer gets an RFC. -/
theorem sharing_end : (run (Network.step couple) (init couple) sharing).map
      (fun w ↦ (answered (w.member true).clientLog, decide (∀ c ∈ (w.member true).sessionLog, Small c), allGoOn w)) =
    some ([(.lookup 7, .lookedUp ⟨200, [⟨[104], 1⟩]⟩)], true, true) := by
  decide +kernel

theorem couple_sound (i : Bool) : Client.Sound ⟨(couple i).address, (couple i).port⟩ := by
  cases i <;> decide

theorem couple_rfcs (i : Bool) : ∀ n ∈ (couple i).rfcs, 0 < n := by
  intro n hn
  cases i with
  | false =>
    obtain rfl := List.mem_singleton.mp hn
    decide
  | true => exact absurd hn List.not_mem_nil

end Network

end RfcNet
