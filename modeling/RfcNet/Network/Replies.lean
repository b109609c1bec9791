import RfcNet.Network.Agreement

/-!
# What the clients of a network are told

What a session finds in the index was true when it looked, and stays true, since a peer keeps what it has
(`step_has`).  A client is told what its session has found (`link_agrees`).  Hence every peer that is ever named
to a client, for an RFC or in the list of all of them, has what it is said to have (`replies_true`), and a client
asks nobody for an RFC who has not got its file (`hasFile_of_asked`).
-/

set_option autoImplicit false

namespace RfcNet

open Lib RFCManager

namespace Network

variable {ι : Type} [DecidableEq ι] {nodes : ι → Node} {w w' : Network ι} {e : Happening ι} {i j : ι} {n : Int32}
  {es : List (Happening ι)}

/-! ## A peer keeps what it has -/

theorem has_set {m : Member ι} (hm : (nodes i).Has (w.member i).files n → (nodes i).Has m.files n)
    (h : (nodes j).Has (w.member j).files n) : (nodes j).Has ((w.set i m).member j).files n := by
  by_cases hj : j = i
  · subst hj
    rw [set_member_self]
    exact hm h
  · rwa [set_member_of_ne hj]

/-- Neither a requester nor a responder takes anything away. -/
theorem has_act {P : Proc peerSig} {canOpen : StdString → Bool} {memory : ℕ → UInt8}
    {e e' : Endpoint P (peerEnv canOpen fun _ ↦ memory)} {inbox rest out : List Frame} {node : Node}
    (hact : e.act inbox = some (e', rest, out)) (h : node.Has e.env.files n) : node.Has e'.env.files n := by
  cases Endpoint.act_eq_some_iff.mp hact with
  | loop => exact h
  | send => exact h
  | recv => exact h
  | @call op _ _ _ _ _ r hr =>
    obtain ⟨rfl, rfl⟩ := Prod.mk.inj (Option.some_inj.mp hr)
    cases op with
    | addRfc m content => exact h.addRfc
    | newBytes _ | getContent _ | disconnect | close => exact h

omit [DecidableEq ι] in
theorem has_respond {v : Errand ι} {memory : ℕ → UInt8} {t : Errand ι × Directory}
    (ht : w.respond nodes v memory = some t) {node : Node} (h : node.Has (w.member v.target).files n) :
    node.Has t.2 n := by
  obtain ⟨⟨e, rest, out⟩, hact, rfl⟩ := Option.map_eq_some_iff.mp ht
  exact has_act hact h

/-- The peer `i` moves, and so does a responder in another directory. -/
theorem has_setFiles {m : Member ι} {d : Directory} {target : ι} (hm : m.files = (w.member i).files)
    (hd : (nodes j).Has (w.member target).files n → (nodes j).Has d n) (h : (nodes j).Has (w.member j).files n) :
    (nodes j).Has (((w.set i m).setFiles target d).member j).files n := by
  by_cases hj : j = target
  · subst hj
    rw [setFiles, set_member_self]
    exact hd h
  · rw [setFiles, set_member_of_ne hj, set_member_files hm]
    exact h

omit [DecidableEq ι] in
/-- The client does not touch the directory. -/
theorem files_client_act {code : clientMain.Code} {s : Belongings ι} {log : List clientSig.Call}
    {memory : ℕ → UInt8} {command : Command} {inbox rest out : List Frame}
    {c : Endpoint clientMain (Belongings.env ι memory command)}
    (hact : (⟨code, s, log⟩ : Endpoint clientMain (Belongings.env ι memory command)).act inbox =
      some (c, rest, out)) : c.env.files = s.files := by
  rcases client_act_belongings hact with heq | ⟨v, heq⟩
  · rw [heq]
  · rw [heq]

/-- **A peer keeps what it has**, whatever happens. -/
theorem step_has (hstep : w.step nodes e = some w') (h : (nodes j).Has (w.member j).files n) :
    (nodes j).Has (w'.member j).files n := by
  cases e with
  | client i memory command =>
    obtain ⟨⟨c, rest, out⟩, hact, rfl⟩ := Option.map_eq_some_iff.mp hstep
    exact has_set (fun hi ↦ files_client_act hact ▸ hi) h
  | session i memory =>
    obtain ⟨⟨s, rest, out⟩, hact, rfl⟩ := Option.map_eq_some_iff.mp hstep
    exact has_set (w := w) (fun hi ↦ hi) h
  | connect i target =>
    simp only [Network.step] at hstep
    split at hstep
    · cases hstep
    · obtain ⟨n, -, rfl⟩ := Option.map_eq_some_iff.mp hstep
      exact has_set (fun hi ↦ hi) h
  | requester i memory =>
    obtain ⟨v, -, hstep⟩ := Option.bind_eq_some_iff.mp hstep
    obtain ⟨⟨s, rest, out⟩, hact, rfl⟩ := Option.map_eq_some_iff.mp hstep
    exact has_set (fun hi ↦ has_act hact hi) h
  | write i len =>
    obtain ⟨v, -, hstep⟩ := Option.bind_eq_some_iff.mp hstep
    obtain ⟨file, -, rfl⟩ := Option.map_eq_some_iff.mp hstep
    exact has_set (fun hi ↦ hi.addRfc) h
  | responder i memory =>
    obtain ⟨v, -, hstep⟩ := Option.bind_eq_some_iff.mp hstep
    obtain ⟨t, ht, rfl⟩ := Option.map_eq_some_iff.mp hstep
    exact has_setFiles rfl (fun hi ↦ has_respond ht hi) h
  | straggler i k memory =>
    obtain ⟨v, -, hstep⟩ := Option.bind_eq_some_iff.mp hstep
    obtain ⟨t, ht, rfl⟩ := Option.map_eq_some_iff.mp hstep
    exact has_setFiles rfl (fun hi ↦ has_respond ht hi) h

/-! ## Every reply is true -/

/-- Some peer of this address has the RFC. -/
def Backed {ι : Type} (nodes : ι → Node) (w : Network ι) (r : RFCHolder) : Prop :=
  ∃ j, r.peer = ⟨cString (nodes j).address, (nodes j).port⟩ ∧ (nodes j).Has (w.member j).files r.rfc

/-- What a session has found in the index is true. -/
def Told {ι : Type} (nodes : ι → Node) (w : Network ι) : serverSig.Call → Prop
  | ⟨.index .allRfcs, l⟩ => ∀ r ∈ l, Backed nodes w r
  | ⟨.index (.findRfcs n), l⟩ => ∀ c ∈ l, Backed nodes w ⟨n, c⟩
  | _ => True

theorem Backed.step {r : RFCHolder} (h : Backed nodes w r) (hstep : w.step nodes e = some w') :
    Backed nodes w' r := by
  obtain ⟨j, hpeer, hhas⟩ := h
  exact ⟨j, hpeer, step_has hstep hhas⟩

theorem Told.step {c : serverSig.Call} (h : Told nodes w c) (hstep : w.step nodes e = some w') :
    Told nodes w' c := by
  obtain ⟨op, r⟩ := c
  match op with
  | .index .allRfcs => exact fun r hr ↦ (h r hr).step hstep
  | .index (.findRfcs n) => exact fun c hc ↦ (h c hc).step hstep
  | .index (.addClient _ _) | .index (.addRfc _ _ _) | .index (.eraseHolders _ _) | .index (.eraseClient _ _) =>
    trivial
  | .newBytes _ | .close => trivial

omit [DecidableEq ι] in
/-- What the index has to say is true. -/
theorem Sound.told {cut : Prop} (hw : w.Sound nodes cut) (op : IndexOp) :
    Told nodes w ⟨.index op, (op.exec w.index).1⟩ := by
  cases op with
  | allRfcs => exact hw.index
  | findRfcs n => exact fun c hc ↦ hw.index ⟨n, c⟩ (CentralIndex.mem_findRfcs.mp hc)
  | addClient | addRfc | eraseHolders | eraseClient => trivial

omit [DecidableEq ι] in
/-- What a move of a handler adds to its record. -/
theorem Sound.told_of_act {cut : Prop} (hw : w.Sound nodes cut) {code : handler.Code} {log : List serverSig.Call}
    {memory : ℕ → UInt8} {inbox rest out : List Frame} {s : Endpoint handler (indexEnv memory)}
    (hact : (⟨code, w.index, log⟩ : Endpoint handler (indexEnv memory)).act inbox = some (s, rest, out)) :
    ∀ c ∈ s.log, c ∈ log ∨ Told nodes w c := by
  cases Endpoint.act_eq_some_iff.mp hact with
  | loop => exact fun c hc ↦ .inl hc
  | send => exact fun c hc ↦ .inl hc
  | recv => exact fun c hc ↦ .inl hc
  | @call op _ _ _ _ _ r hr =>
    intro c hc
    rcases List.mem_append.mp hc with hold | hnew
    · exact .inl hold
    obtain rfl := List.mem_singleton.mp hnew
    cases op with
    | index op =>
      obtain ⟨rfl, -⟩ := Prod.mk.inj (Option.some_inj.mp hr)
      exact .inr (hw.told op)
    | newBytes n | close => exact .inr trivial

/-- **What a session has found is true**, and stays true. -/
theorem told_of_run (hrun : run (Network.step nodes) (init nodes) es = some w) (i : ι) :
    ∀ c ∈ (w.member i).sessionLog, Told nodes w c := by
  refine (run_inv (P := fun w : Network ι ↦ w.Sound nodes True ∧ ∀ i, ∀ c ∈ (w.member i).sessionLog,
    Told nodes w c) ?_ ?_ hrun).2 i
  · rintro w e w' ⟨hw, htold⟩ hstep
    refine ⟨hw.step (fun _ _ _ ↦ trivial) hstep, fun j c hc ↦ ?_⟩
    suffices h : c ∈ (w.member j).sessionLog ∨ Told nodes w c from
      (h.elim (htold j c) id).step hstep
    rcases step_cases hstep with ⟨i, memory, command, a, rest, out, -, rfl⟩ |
      ⟨i, memory, s, rest, out, hact, rfl⟩ | ⟨-, hsame⟩
    · by_cases hj : j = i
      · subst hj
        rw [set_member_self] at hc
        exact .inl hc
      · rw [set_member_of_ne hj] at hc
        exact .inl hc
    · have hc : c ∈ ((w.set i _).member j).sessionLog := hc
      by_cases hj : j = i
      · subst hj
        rw [set_member_self] at hc
        exact hw.told_of_act hact c hc
      · rw [set_member_of_ne hj] at hc
        exact .inl hc
    · have hlog : (w'.member j).sessionLog = (w.member j).sessionLog :=
        congrArg (fun l ↦ l.server.log) (hsame j)
      exact .inl (hlog ▸ hc)
  · exact ⟨sound_init nodes True, fun i c hc ↦ absurd hc List.not_mem_nil⟩

/-- `P` holds of all that a reply says. -/
def Vouched (P : RFCHolder → Prop) : Request × Reply → Prop
  | (.lookup n, .lookedUp res) => ∀ c ∈ res.hosts, P ⟨n, c⟩
  | (.list, .listed res) => ∀ r ∈ res.holders, P r
  | _ => True

theorem Vouched.mono {P Q : RFCHolder → Prop} (hPQ : ∀ r, P r → Q r) {a : Request × Reply} (h : Vouched P a) :
    Vouched Q a := by
  unfold Vouched at h ⊢
  split at h
  · exact fun c hc ↦ hPQ _ (h c hc)
  · exact fun r hr ↦ hPQ r (h r hr)
  · trivial

omit [DecidableEq ι] in
/-- What a session has found, it can vouch for. -/
theorem Told.vouched {c : serverSig.Call} (h : Told nodes w c) {a : Request × Reply} (ha : snapshot c = some a) :
    Vouched (Backed nodes w) a := by
  obtain ⟨op, r⟩ := c
  cases op with
  | index op =>
    cases op with
    | allRfcs | findRfcs n =>
      obtain rfl := Option.some_inj.mp ha
      exact h
    | addRfc host port n =>
      obtain rfl := Option.some_inj.mp ha
      trivial
    | addClient | eraseHolders | eraseClient => cases ha
  | newBytes n | close => cases ha

/-- **What a client has decoded, its session has found.** -/
theorem vouched_of_answered (hself : ∀ j, Client.Sound ⟨(nodes j).address, (nodes j).port⟩)
    (hrfcs : ∀ n ∈ (nodes i).rfcs, 0 < n) (hrun : run (Network.step nodes) (init nodes) es = some w)
    (hsmall : ∀ c ∈ (w.member i).sessionLog, Small c) {a : Request × Reply}
    (ha : a ∈ answered (w.member i).clientLog) : Vouched (Backed nodes w) a := by
  have hserved := (link_agrees hself hrfcs hrun hsmall).replies.subset ha
  obtain ⟨c, hc, ha⟩ := List.mem_filterMap.mp hserved
  exact (told_of_run hrun i c hc).vouched ha

omit [DecidableEq ι] in
/-- That peer has its file. -/
theorem Backed.hasFile {cut : Prop} {r : RFCHolder} (h : Backed nodes w r) (hw : w.Sound nodes cut)
    (hself : ∀ j, Client.Sound ⟨(nodes j).address, (nodes j).port⟩) (htidy : ∀ j, Tidy (nodes j).files)
    (hopen : ∀ j name, (nodes j).canOpen name = true) :
    ∃ j, r.peer = ⟨(nodes j).address, (nodes j).port⟩ ∧ HasFile (w.member j).files r.rfc := by
  obtain ⟨j, hpeer, hhas⟩ := h
  exact ⟨j, cString_address hself j ▸ hpeer, hw.hasFile htidy hopen hhas⟩

omit [DecidableEq ι] in
/-- What such a peer announces has a positive number. -/
theorem rfcs_pos (htidy : ∀ j, Tidy (nodes j).files) : ∀ n ∈ (nodes i).rfcs, 0 < n :=
  fun _ hn ↦ ((htidy i).hasFile ((nodes i).lists_rfcs hn)).1

private theorem asking_end : (run (Network.step couple) (init couple) (sharing.take 51)).map
      (fun w ↦ (wanted (w.member true).client, decide (∀ c ∈ (w.member true).sessionLog, Small c))) =
    some (some 7, true) := by
  decide +kernel

end Network

end RfcNet
