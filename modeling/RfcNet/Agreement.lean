import Mathlib.Data.List.Induction
import RfcNet.CentralIndex
import RfcNet.Exchange

/-!
# A client and its session agree

A `Link` is one client and the handler of its session, the two channels between them, and the index,
which the other sessions use as well.  In an event, the client moves, with whatever the user or a
peer has to say, or the handler moves, with the index as it is, or some other session enters the
index.

The index stands outside of the pair, so a run of a `Link` is not a run of a `Duet`.  But it becomes
one when the results of its calls are put into two scripts (`step_scripted`), and then the one run of
`Exchange` settles what happens in every interleaving: `Link.agrees_of_run`.
-/

set_option autoImplicit false

namespace RfcNet

open Lib

/-! ## Indexes whose clients can be listed -/

/-- Every client in the index, and every client that is said to have an RFC, can be listed. -/
structure CentralIndex.Sound (ix : CentralIndex) : Prop where
  /-- Every client. -/
  clients : ∀ c ∈ ix.clients, c.Sound
  /-- Every association. -/
  rfcs : ∀ r ∈ ix.rfcs, r.peer.Sound

/-- Nobody registers a client that cannot be listed. -/
def IndexOp.Sound : IndexOp → Prop
  | .addClient h p => Client.Sound ⟨h, p⟩
  | _ => True

section
variable {ix : CentralIndex}

theorem CentralIndex.Sound.exec (h : ix.Sound) {op : IndexOp} (hop : op.Sound) :
    (op.exec ix).2.Sound where
  clients c hc := by
    rcases IndexOp.mem_clients_of_exec hc with hc | rfl
    · exact h.clients c hc
    · exact hop
  rfcs r hr := by
    rcases IndexOp.mem_rfcs_of_exec hr with hr | ⟨-, hc, -⟩
    · exact h.rfcs r hr
    · exact h.clients r.peer hc

/-- What such an index returns. -/
theorem CentralIndex.Sound.presentable (h : ix.Sound) (op : IndexOp) :
    Presentable ⟨.index op, (op.exec ix).1⟩ := by
  cases op with
  | allRfcs => exact h.rfcs
  | findRfcs n => exact fun c hc ↦ h.rfcs ⟨n, c⟩ (CentralIndex.mem_findRfcs.mp hc)
  | addClient | eraseHolders | eraseClient | addRfc => trivial

end

/-! ## The system -/

/-- A client, the handler of its session, what is in flight between them, and the index. -/
structure Link where
  /-- The client. -/
  client : Endpoint clientMain (Env.oracle clientSig)
  /-- The handler. -/
  server : Endpoint handler (Env.oracle serverSig)
  /-- Sent by the client and not yet received. -/
  toServer : List Frame
  /-- Sent by the handler and not yet received. -/
  toClient : List Frame
  /-- The index. -/
  index : CentralIndex

/-- What can happen. -/
inductive LinkEvent
  /-- The client moves, and its calls return `answers`. -/
  | client (answers : (op : clientSig.Op) → clientSig.Res op)
  /-- The handler moves, and finds `memory` in what it allocates. -/
  | server (memory : ℕ → UInt8)
  /-- Another session enters the index. -/
  | other (op : IndexOp)

/-- What the calls of a handler return. -/
def indexAnswers (ix : CentralIndex) (memory : ℕ → UInt8) : (op : serverSig.Op) → serverSig.Res op
  | .index op => (op.exec ix).1
  | .newBytes _ => memory
  | .close => ()

/-- The index after the next call of a handler. -/
def indexNext (ix : CentralIndex) : handler.Code → CentralIndex
  | .callThen (.index op) _ => (op.exec ix).2
  | _ => ix

namespace Link

/-- The client has just connected. -/
def init (address : StdString) (port : Int32) (rfcs : List Int32) (index : CentralIndex) :
    Link where
  client := ⟨clientStart address port rfcs, userDefault, []⟩
  server := ⟨clientHandler, indexAnswers index fun _ ↦ 0, []⟩
  toServer := []
  toClient := []
  index := index

/-- One event. -/
def step (w : Link) : LinkEvent → Option Link
  | .client answers =>
    (Endpoint.act { w.client with env := answers } w.toClient).map fun m ↦
      { w with client := m.1, toClient := m.2.1, toServer := w.toServer ++ m.2.2 }
  | .server memory =>
    (Endpoint.act { w.server with env := indexAnswers w.index memory } w.toServer).map fun m ↦
      { w with
        server := m.1, toServer := m.2.1, toClient := w.toClient ++ m.2.2,
        index := indexNext w.index w.server.code }
  | .other op => some { w with index := (op.exec w.index).2 }

/-- What the two sides of a session have a right to expect. -/
structure Agrees (w : Link) : Prop where
  /-- If the client receives and something is there, it has the length that is asked for; and no
  exception has been raised. -/
  client : w.client.InStep w.toClient
  /-- The same for the handler. -/
  server : w.server.InStep w.toServer
  /-- The first element of an empty list has not been asked for. -/
  front : w.client.code ≠ .raise .emptyList
  /-- The replies that the client has decoded are what the index answered to its requests, one by
  one. -/
  replies : answered w.client.log <+: served w.server.log
  /-- Somebody can move, or both sides have returned. -/
  progress : (∃ answers, w.step (.client answers) ≠ none) ∨
    (∃ memory, w.step (.server memory) ≠ none) ∨
    (∃ a, w.client.code = .done (.inr a)) ∧ ∃ b, w.server.code = .done (.inr b)

/-! ## What an event does -/

variable {w w' : Link} {e : LinkEvent}

theorem step_client_eq_some {answers : (op : clientSig.Op) → clientSig.Res op} :
    w.step (.client answers) = some w' ↔ ∃ client rest out,
      Endpoint.act { w.client with env := answers } w.toClient = some (client, rest, out) ∧
      w' = { w with client, toClient := rest, toServer := w.toServer ++ out } := by
  rw [step, Option.map_eq_some_iff]
  exact ⟨fun ⟨⟨client, rest, out⟩, h, hw⟩ ↦ ⟨client, rest, out, h, hw.symm⟩,
    fun ⟨client, rest, out, h, hw⟩ ↦ ⟨⟨client, rest, out⟩, h, hw.symm⟩⟩

theorem step_server_eq_some {memory : ℕ → UInt8} :
    w.step (.server memory) = some w' ↔ ∃ server rest out,
      Endpoint.act { w.server with env := indexAnswers w.index memory } w.toServer =
        some (server, rest, out) ∧
      w' = { w with
        server, toServer := rest, toClient := w.toClient ++ out,
        index := indexNext w.index w.server.code } := by
  rw [step, Option.map_eq_some_iff]
  exact ⟨fun ⟨⟨server, rest, out⟩, h, hw⟩ ↦ ⟨server, rest, out, h, hw.symm⟩,
    fun ⟨server, rest, out, h, hw⟩ ↦ ⟨⟨server, rest, out⟩, h, hw.symm⟩⟩

/-- **What an event does to the index and to the handler's record**: it leaves the index alone and
records nothing of it, or it is a critical section of the handler, whose result is recorded, or one
of another session. -/
theorem step_index (h : w.step e = some w') :
    (w'.index = w.index ∧
      ∃ calls, w'.server.log = w.server.log ++ calls ∧ ∀ c ∈ calls, ∀ op, c.1 ≠ .index op) ∨
    (∃ op, w'.index = (op.exec w.index).2 ∧
      w'.server.log = w.server.log ++ [⟨.index op, (op.exec w.index).1⟩]) ∨
    ∃ op, e = .other op ∧ w'.index = (op.exec w.index).2 ∧ w'.server.log = w.server.log := by
  cases e with
  | client answers =>
    obtain ⟨client, rest, out, -, rfl⟩ := step_client_eq_some.mp h
    exact .inl ⟨rfl, [], (List.append_nil _).symm, by simp⟩
  | other op =>
    obtain rfl := Option.some_inj.mp h
    exact .inr (.inr ⟨op, rfl, rfl, rfl⟩)
  | server memory =>
    obtain ⟨server, rest, out, hact, rfl⟩ := step_server_eq_some.mp h
    obtain ⟨client, ⟨code, env, log⟩, toServer, toClient, index⟩ := w
    cases Endpoint.act_eq_some_iff.mp hact with
    | loop => exact .inl ⟨rfl, [], (List.append_nil _).symm, by simp⟩
    | send => exact .inl ⟨rfl, [], (List.append_nil _).symm, by simp⟩
    | recv => exact .inl ⟨rfl, [], (List.append_nil _).symm, by simp⟩
    | @call op k _ _ _ _ r hr =>
      obtain ⟨rfl, -⟩ := Prod.mk.inj (Option.some_inj.mp hr)
      cases op with
      | index op => exact .inr (.inl ⟨op, rfl, rfl⟩)
      | newBytes n => exact .inl ⟨rfl, [_], rfl, by simp⟩
      | close => exact .inl ⟨rfl, [_], rfl, by simp⟩

/-! ## Runs as runs of a duet -/

/-- The two sides, by what their calls are going to return. -/
def scripted (w : Link) (sc : List clientSig.Call) (ss : List serverSig.Call) : Scripted :=
  ⟨w.client.scripted _ sc, w.server.scripted _ ss, w.toServer, w.toClient⟩

/-- **An event is a move of the duet**, or none, once its results are in the scripts. -/
theorem step_scripted (h : w.step e = some w') :
    ∃ cc cs, w'.client.log = w.client.log ++ cc ∧ w'.server.log = w.server.log ++ cs ∧
      ∀ sc ss, Reaches Duet.step (w.scripted (cc ++ sc) (cs ++ ss)) (w'.scripted sc ss) := by
  cases e with
  | client answers =>
    obtain ⟨client, rest, out, hact, rfl⟩ := step_client_eq_some.mp h
    obtain ⟨calls, hlog, hmove⟩ := Endpoint.act_scripted hact
    exact ⟨calls, [], hlog, (List.append_nil _).symm, fun sc ss ↦
      .head (Duet.step_left_eq_some.mpr ⟨_, _, _, hmove sc, rfl⟩) (.refl _)⟩
  | server memory =>
    obtain ⟨server, rest, out, hact, rfl⟩ := step_server_eq_some.mp h
    obtain ⟨calls, hlog, hmove⟩ := Endpoint.act_scripted hact
    exact ⟨[], calls, (List.append_nil _).symm, hlog, fun sc ss ↦
      .head (Duet.step_right_eq_some.mpr ⟨_, _, _, hmove ss, rfl⟩) (.refl _)⟩
  | other op =>
    obtain rfl := Option.some_inj.mp h
    exact ⟨[], [], (List.append_nil _).symm, (List.append_nil _).symm, fun sc ss ↦ .refl _⟩

theorem run_scripted {es : List LinkEvent} (h : run step w es = some w') :
    ∃ cc cs, w'.client.log = w.client.log ++ cc ∧ w'.server.log = w.server.log ++ cs ∧
      ∀ sc ss, Reaches Duet.step (w.scripted (cc ++ sc) (cs ++ ss)) (w'.scripted sc ss) := by
  induction es generalizing w with
  | nil =>
    obtain rfl := Option.some_inj.mp h
    exact ⟨[], [], (List.append_nil _).symm, (List.append_nil _).symm, fun sc ss ↦ .refl _⟩
  | cons e es ih =>
    obtain ⟨m, hm, hrun⟩ := run_cons_eq_some.mp h
    obtain ⟨cc, cs, hc, hs, hreach⟩ := step_scripted hm
    obtain ⟨cc', cs', hc', hs', hreach'⟩ := ih hrun
    refine ⟨cc ++ cc', cs ++ cs', by rw [hc', hc, List.append_assoc],
      by rw [hs', hs, List.append_assoc], fun sc ss ↦ ?_⟩
    rw [List.append_assoc, List.append_assoc]
    exact (hreach _ _).trans (hreach' sc ss)

/-! ## Agreement -/

variable {address : StdString} {port : Int32} {rfcs : List Int32} {index : CentralIndex}
  {es : List LinkEvent}

/-- **Every run is on its way to an orderly end**, if what the index has answered can be sent. -/
theorem concludes_of_run (hself : Client.Sound ⟨address, port⟩)
    (haddress : address.length < 2 ^ 31) (hrfcs : ∀ n ∈ rfcs, 0 < n)
    (hrun : run step (init address port rfcs index) es = some w)
    (hservable : ∀ c ∈ w.server.log, Servable c) :
    (w.scripted [] []).InStep ∧
      ∃ d, Reaches Duet.step (w.scripted [] []) d ∧ Concludes address port d := by
  obtain ⟨cc, cs, -, hlog, hreach⟩ := run_scripted hrun
  rw [show w.server.log = cs from hlog, ← List.append_nil cs] at hservable
  obtain ⟨d, hd, hend⟩ := settles_start hself haddress hrfcs (cc ++ []) hservable
  obtain ⟨hinStep, hrest⟩ := Duet.settled_all hd hend.atRest (hreach [] [])
  exact ⟨hinStep, d, hrest, hend⟩

/-- **The index stays one whose clients can be listed.**  The client's own registration is the only
one of this session, since the handler has decoded what the client announced. -/
theorem sound_of_run (hself : Client.Sound ⟨address, port⟩) (haddress : address.length < 2 ^ 31)
    (hrfcs : ∀ n ∈ rfcs, 0 < n) (hindex : index.Sound)
    (hothers : ∀ op, .other op ∈ es → op.Sound)
    (hrun : run step (init address port rfcs index) es = some w)
    (hsmall : ∀ c ∈ w.server.log, Small c) :
    w.index.Sound ∧ ∀ c ∈ w.server.log, Servable c := by
  induction es using List.reverseRecOn generalizing w with
  | nil =>
    obtain rfl := Option.some_inj.mp hrun
    exact ⟨hindex, fun c hc ↦ absurd hc List.not_mem_nil⟩
  | append_singleton es e ih =>
    obtain ⟨m, hm, hlast⟩ := run_append_eq_some.mp hrun
    obtain ⟨w', hw', hlast⟩ := run_cons_eq_some.mp hlast
    obtain rfl := Option.some_inj.mp hlast
    have ih := ih (fun op hop ↦ hothers op (List.mem_append_left _ hop)) hm
    rcases step_index hw' with ⟨hix, calls, hlog, hcalls⟩ | ⟨op, hix, hlog⟩ | ⟨op, rfl, hix, hlog⟩
    · rw [hlog] at hsmall ⊢
      obtain ⟨hsound, hservable⟩ := ih fun c hc ↦ hsmall c (List.mem_append_left _ hc)
      refine ⟨hix ▸ hsound, fun c hc ↦ ?_⟩
      rcases List.mem_append.mp hc with hold | hnew
      · exact hservable c hold
      · refine ⟨?_, hsmall c hc⟩
        obtain ⟨op, r⟩ := c
        cases op with
        | index op => exact absurd rfl (hcalls _ hnew op)
        | newBytes n => trivial
        | close => trivial
    · obtain ⟨hsound, hservable⟩ := ih fun c hc ↦ hsmall c (hlog ▸ List.mem_append_left _ hc)
      have hservable' : ∀ c ∈ w'.server.log, Servable c := by
        intro c hc
        refine ⟨?_, hsmall c hc⟩
        rw [hlog, List.mem_append, List.mem_singleton] at hc
        rcases hc with hold | rfl
        · exact (hservable c hold).1
        · exact hsound.presentable op
      refine ⟨?_, hservable'⟩
      rw [hix]
      refine hsound.exec ?_
      cases op with
      | addClient h p =>
        obtain ⟨-, d, hd, hend⟩ := concludes_of_run hself haddress hrfcs hrun hservable'
        have hmem : ⟨.index (.addClient h p), _⟩ ∈ d.right.log :=
          (Duet.log_prefix hd).2.subset (hlog ▸ List.mem_append_right _ List.mem_cons_self)
        obtain ⟨rfl, rfl⟩ := hend.agreed.announces _ hmem
        exact hself
      | eraseHolders | eraseClient | addRfc | findRfcs | allRfcs => trivial
    · rw [hlog] at hsmall ⊢
      obtain ⟨hsound, hservable⟩ := ih hsmall
      rw [hix]
      exact ⟨hsound.exec (hothers op (List.mem_append_right _ List.mem_cons_self)), hservable⟩

/-- Nothing more is served once the script of the index has come to its end. -/
theorem served_of_reaches {c d : Scripted} (h : Reaches Duet.step c d) (hscript : c.right.env = []) :
    served d.right.log = served c.right.log := by
  refine (h.inv (P := fun d ↦ d.right.env = [] ∧ served d.right.log = served c.right.log)
    (fun d s d' hd hstep ↦ ?_) ⟨hscript, rfl⟩).2
  cases s with
  | left =>
    obtain ⟨e, rest, out, -, rfl⟩ := Duet.step_left_eq_some.mp hstep
    exact hd
  | right =>
    obtain ⟨e, rest, out, hact, rfl⟩ := Duet.step_right_eq_some.mp hstep
    obtain ⟨left, ⟨code, env, log⟩, toRight, toLeft⟩ := d
    obtain ⟨rfl, hserved⟩ : env = [] ∧ served log = served c.right.log := hd
    cases Endpoint.act_eq_some_iff.mp hact with
    | loop => exact ⟨rfl, hserved⟩
    | send => exact ⟨rfl, hserved⟩
    | recv => exact ⟨rfl, hserved⟩
    | @call op k _ _ _ _ r hr =>
      rcases Env.scripted_cases hr with hcons | ⟨rfl, hd⟩
      · exact absurd hcons.symm (List.cons_ne_nil _ _)
      · refine ⟨rfl, ?_⟩
        rw [served_append, served, served, List.filterMap_cons_none (snapshot_of_indexDefault hd)]
        simpa [served] using hserved

/-- **A state that is on its way to an orderly end agrees.** -/
theorem agrees_of_concludes (hinStep : (w.scripted [] []).InStep) {d : Scripted}
    (hd : Reaches Duet.step (w.scripted [] []) d) (hend : Concludes address port d) :
    w.Agrees where
  client := hinStep.1
  server := hinStep.2
  front hraise := by
    have hclient : w.client.InStep w.toClient := hinStep.1
    rw [Endpoint.InStep, hraise] at hclient
    exact hclient
  replies := by
    have hprefix : answered w.client.log <+: answered d.left.log :=
      (Duet.log_prefix hd).1.filterMap _
    rwa [hend.agreed.replies, served_of_reaches hd rfl] at hprefix
  progress := by
    by_contra hstuck
    rw [not_or, not_or] at hstuck
    obtain ⟨hclient, hserver, hreturned⟩ := hstuck
    have hstuck : Stuck Duet.step (w.scripted [] []) := by
      intro s
      cases s with
      | left =>
        rw [Duet.step, Option.map_eq_none_iff]
        by_contra hmove
        refine hclient ⟨userDefault, ?_⟩
        rw [step, ne_eq, Option.map_eq_none_iff]
        exact Endpoint.act_oracle hmove userDefault
      | right =>
        rw [Duet.step, Option.map_eq_none_iff]
        by_contra hmove
        refine hserver ⟨fun _ ↦ 0, ?_⟩
        rw [step, ne_eq, Option.map_eq_none_iff]
        exact Endpoint.act_oracle hmove _
    obtain rfl := hstuck.eq_of_reaches hd
    rcases hend.returned with ⟨op, k, hcode⟩ | hreturned'
    · -- What the script does not answer, the index does.
      have hcode : w.server.code = .callThen op k := hcode
      refine hserver ⟨fun _ ↦ 0, ?_⟩
      simp [step, Endpoint.act, hcode, Env.oracle]
    · exact hreturned hreturned'

/-- **A client and its session agree**, whatever the user does, in whatever order the two sides
move, and whatever the other sessions do to the index in the meantime.  The address comes from the
command line, so its length is an `int`. -/
theorem agrees_of_run (hself : Client.Sound ⟨address, port⟩) (haddress : address.length < 2 ^ 31)
    (hrfcs : ∀ n ∈ rfcs, 0 < n) (hindex : index.Sound)
    (hothers : ∀ op, .other op ∈ es → op.Sound)
    (hrun : run step (init address port rfcs index) es = some w)
    (hsmall : ∀ c ∈ w.server.log, Small c) : w.Agrees := by
  obtain ⟨-, hservable⟩ := sound_of_run hself haddress hrfcs hindex hothers hrun hsmall
  obtain ⟨hinStep, d, hd, hend⟩ := concludes_of_run hself haddress hrfcs hrun hservable
  exact agrees_of_concludes hinStep hd hend

/-- A client adds RFC 5 and asks for the list, and in between another one adds RFC 7. -/
def listing : List LinkEvent :=
  let client := .client fun op ↦
    match op with
    | .readCommand => .list
    | op => userDefault op
  let server := .server fun _ ↦ 0
  [client, server] ++ List.replicate 7 client ++ List.replicate 12 server ++
    [client, client, .other (.addClient [105] 2), .other (.addRfc [105] 2 7)] ++
    List.replicate 3 client ++ List.replicate 5 server ++ [client, server, client, client]

private theorem listing_end : (run step (init [104] 1 [5] .empty) listing).map
      (fun w ↦ (answered w.client.log, decide (∀ c ∈ w.server.log, Small c))) =
    some ([(.add 5, .added ⟨200⟩),
      (.list, .listed ⟨200, [⟨5, ⟨[104], 1⟩⟩, ⟨7, ⟨[105], 2⟩⟩]⟩)], true) := by
  decide +kernel

/-- The list that the client gets has both. -/
theorem agrees_of_run_listing : ∃ w, run step (init [104] 1 [5] .empty) listing = some w ∧
    answered w.client.log = [(.add 5, .added ⟨200⟩),
      (.list, .listed ⟨200, [⟨5, ⟨[104], 1⟩⟩, ⟨7, ⟨[105], 2⟩⟩]⟩)] ∧ w.Agrees := by
  obtain ⟨w, hw, heq⟩ := Option.map_eq_some_iff.mp listing_end
  obtain ⟨hanswered, hsmall⟩ := Prod.mk.inj heq
  refine ⟨w, hw, hanswered, agrees_of_run (by decide) (by decide)
    (List.forall_mem_singleton.mpr (by decide)) ⟨by decide, by decide⟩ (fun op hop ↦ ?_) hw
    (of_decide_eq_true hsmall)⟩
  simp only [listing, List.mem_append, List.mem_cons, List.mem_replicate, List.not_mem_nil,
    reduceCtorEq, LinkEvent.other.injEq, false_or, or_false, and_false] at hop
  rcases hop with rfl | rfl
  · exact (by decide : Client.Sound ⟨[105], 2⟩)
  · trivial

end Link

end RfcNet
