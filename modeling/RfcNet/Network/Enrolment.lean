import RfcNet.Departed
import RfcNet.Integrity
import RfcNet.Network.Agreement

/-!
# What the index is for

What a session has registered and not yet taken back is a set of numbers, or nothing at all if its client is not
registered (`enrolled`).  Put together, these are the index, if no two peers announce one pair: `index_exact` says that
in every state of every run of the network the index has exactly the clients that are enrolled, and exactly their
numbers.

So a list in the index and a session on its own are two views of one thing.  That every association has its client,
and that nothing is left of a session that has gone, can be read off it.
-/

set_option autoImplicit false

namespace RfcNet

open Lib

/-! ## What a session has registered -/

/-- What is registered after a call, if that is what was registered before. -/
def enrol : Option (List Int32) → serverSig.Call → Option (List Int32)
  | _, ⟨.index (.addClient _ _), _⟩ => some []
  | s, ⟨.index (.addRfc _ _ n), ok⟩ => if ok then s.map (n :: ·) else s
  | s, ⟨.index (.eraseHolders _ _), _⟩ => s.map fun _ ↦ []
  | _, ⟨.index (.eraseClient _ _), _⟩ => none
  | s, _ => s

/-- **What a session has registered** by these calls: nothing, or its client and some numbers. -/
def enrolled (log : List serverSig.Call) : Option (List Int32) := log.foldl enrol none

@[simp] theorem enrolled_nil : enrolled [] = none := rfl

theorem enrolled_append (log : List serverSig.Call) (c : serverSig.Call) :
    enrolled (log ++ [c]) = enrol (enrolled log) c := List.foldl_append

/-- A session of the client `c` that has come to this phase has registered as much. -/
def Phase.Enrols (c : Client) : Phase → Option (List Int32) → Prop
  | .fresh, s => s = none
  | .serving h p, s => ⟨h, p⟩ = c ∧ ∃ ns, s = some ns
  | .removing h p, s => ⟨h, p⟩ = c ∧ s = some []
  | .gone, s => s = none

/-- The next critical section is one of the client `c`. -/
theorem Phase.Enrols.step {c : Client} {ph ph' : Phase} {s : Option (List Int32)} {op : IndexOp} {r : op.Res}
    (h : ph.Enrols c s) (hnext : ph.next op = some ph') (hop : ∀ d ∈ op.pair, ph = .fresh → d = c) :
    ph'.Enrols c (enrol s ⟨.index op, r⟩) ∧ ∀ d ∈ op.pair, d = c := by
  cases Phase.moves_of_next hnext with
  | addClient a p =>
    obtain rfl := hop ⟨a, p⟩ rfl rfl
    exact ⟨⟨rfl, [], rfl⟩, fun _ hd ↦ (Option.some_inj.mp hd).symm⟩
  | addRfc a p n =>
    obtain ⟨rfl, ns, rfl⟩ := h
    refine ⟨⟨rfl, ?_⟩, fun _ hd ↦ (Option.some_inj.mp hd).symm⟩
    rw [enrol]
    split
    · exact ⟨_, rfl⟩
    · exact ⟨_, rfl⟩
  | findRfcs | allRfcs => exact ⟨h, nofun⟩
  | eraseHolders a p =>
    obtain ⟨rfl, ns, rfl⟩ := h
    exact ⟨⟨rfl, rfl⟩, fun _ hd ↦ (Option.some_inj.mp hd).symm⟩
  | eraseClient a p =>
    obtain ⟨rfl, rfl⟩ := h
    exact ⟨rfl, fun _ hd ↦ (Option.some_inj.mp hd).symm⟩

/-! ## The index as all of it -/

/-- The index is what the sessions have registered, the session `i` for the client `pair i`. -/
structure CentralIndex.Exact {ι : Type} (pair : ι → Client) (s : ι → Option (List Int32)) (ix : CentralIndex) :
    Prop where
  wellFormed : ix.WellFormed
  clients : ∀ i, pair i ∈ ix.clients ↔ (s i).isSome
  rfcs : ∀ i n, ⟨n, pair i⟩ ∈ ix.rfcs ↔ ∃ ns, s i = some ns ∧ n ∈ ns
  /-- Nobody else is in it. -/
  only : ∀ c, c ∈ ix.clients ∨ (∃ r ∈ ix.rfcs, r.peer = c) → ∃ i, c = pair i

namespace CentralIndex.Exact

variable {ι : Type} {pair : ι → Client} {s : ι → Option (List Int32)} {ix : CentralIndex} {i : ι} {op : IndexOp}

theorem empty (pair : ι → Client) : Exact pair (fun _ ↦ none) .empty where
  wellFormed := wellFormed_empty
  clients i := ⟨fun h ↦ absurd h List.not_mem_nil, nofun⟩
  rfcs i n := ⟨fun h ↦ absurd h List.not_mem_nil, nofun⟩
  only c h := by
    rcases h with h | ⟨r, h, -⟩
    · exact absurd h List.not_mem_nil
    · exact absurd h List.not_mem_nil

/-- Everything in the index is there for its client. -/
theorem integral (h : ix.Exact pair s) : ix.Integral := by
  intro r hr
  obtain ⟨i, hi⟩ := h.only r.peer (.inr ⟨r, hr, rfl⟩)
  obtain ⟨ns, hns, -⟩ := (h.rfcs i r.rfc).mp (hi ▸ hr)
  rw [hi, h.clients, hns]
  rfl

/-- A critical section brings in nobody but its own client. -/
theorem only_exec (h : ix.Exact pair s) (hop : ∀ d ∈ op.pair, d = pair i) (c : Client)
    (hc : c ∈ (op.exec ix).2.clients ∨ ∃ r ∈ (op.exec ix).2.rfcs, r.peer = c) : ∃ i, c = pair i := by
  rcases hc with hc | ⟨r, hr, rfl⟩
  · rcases IndexOp.mem_clients_of_exec hc with hold | rfl
    · exact h.only c (.inl hold)
    · exact ⟨i, hop c rfl⟩
  · rcases IndexOp.mem_rfcs_of_exec hr with hold | ⟨rfl, -, -⟩
    · exact h.only r.peer (.inr ⟨r, hold, rfl⟩)
    · exact ⟨i, hop r.peer rfl⟩

/-- It leaves everybody else as he is. -/
theorem frame (hop : ∀ d ∈ op.pair, d = pair i) {c : Client} (hc : c ≠ pair i) :
    (c ∈ (op.exec ix).2.clients ↔ c ∈ ix.clients) ∧ ∀ n, ⟨n, c⟩ ∈ (op.exec ix).2.rfcs ↔ ⟨n, c⟩ ∈ ix.rfcs := by
  refine ⟨⟨fun h ↦ ?_, fun h ↦ ?_⟩, fun n ↦ ⟨fun h ↦ ?_, fun h ↦ ?_⟩⟩
  · rcases IndexOp.mem_clients_of_exec h with hold | rfl
    · exact hold
    · exact absurd (hop c rfl) hc
  · rcases IndexOp.mem_clients_exec op h with hnew | rfl
    · exact hnew
    · exact absurd (hop c rfl) hc
  · rcases IndexOp.mem_rfcs_of_exec h with hold | ⟨rfl, -, -⟩
    · exact hold
    · exact absurd (hop c rfl) hc
  · rcases IndexOp.mem_rfcs_exec op h with hnew | rfl
    · exact hnew
    · exact absurd (hop c rfl) hc

/-- What it does for its own client. -/
theorem exec_self (h : ix.Exact pair s) {ph ph' : Phase} (hph : ph.Enrols (pair i) (s i))
    (hnext : ph.next op = some ph') (hop : ∀ d ∈ op.pair, d = pair i) :
    (pair i ∈ (op.exec ix).2.clients ↔ (enrol (s i) ⟨.index op, (op.exec ix).1⟩).isSome) ∧
    ∀ n, ⟨n, pair i⟩ ∈ (op.exec ix).2.rfcs ↔
      ∃ ns, enrol (s i) ⟨.index op, (op.exec ix).1⟩ = some ns ∧ n ∈ ns := by
  have hclients := h.clients i
  have hrfcs := h.rfcs i
  cases Phase.moves_of_next hnext with
  | addClient a p =>
    have hpair : (⟨a, p⟩ : Client) = pair i := hop _ rfl
    have hnone : s i = none := hph
    refine ⟨⟨fun _ ↦ rfl, fun _ ↦ CentralIndex.mem_addClient.mpr (.inr hpair.symm)⟩, fun n ↦ ?_⟩
    show ⟨n, pair i⟩ ∈ (ix.addClient a p).2.rfcs ↔ _
    rw [addClient_rfcs, hrfcs, hnone]
    simp [enrol]
  | addRfc a p m =>
    obtain ⟨hpair, ns, hns⟩ := hph
    rw [hns] at hclients hrfcs ⊢
    have hmem : (⟨a, p⟩ : Client) ∈ ix.clients := hpair ▸ hclients.mpr rfl
    have hadd : ∀ n, ⟨n, pair i⟩ ∈ (ix.addRfc a p m).2.rfcs ↔ n ∈ ns ∨ n = m := by
      intro n
      rw [CentralIndex.mem_addRfc, hrfcs, ← hpair]
      simp [hmem]
    show (pair i ∈ (ix.addRfc a p m).2.clients ↔ (if (ix.addRfc a p m).1 then some (m :: ns) else some ns).isSome) ∧ _
    refine ⟨?_, fun n ↦ (hadd n).trans ?_⟩
    · rw [addRfc_clients, hclients]
      split <;> rfl
    · show _ ↔ ∃ l, (if (ix.addRfc a p m).1 then some (m :: ns) else some ns) = some l ∧ n ∈ l
      split
      · simp [or_comm]
      · -- It is refused only if it is there already.
        rename_i hrefused
        have hold : m ∈ ns := by
          by_contra hnew
          refine hrefused (addRfc_fst.mpr ⟨fun hr ↦ hnew ?_, hmem⟩)
          simpa using (hrfcs m).mp (hpair ▸ hr)
        simp only [Option.some_inj, exists_eq_left']
        exact or_iff_left_of_imp fun heq ↦ heq ▸ hold
  | findRfcs | allRfcs => exact ⟨hclients, hrfcs⟩
  | eraseHolders a p =>
    obtain ⟨hpair, ns, hns⟩ := hph
    rw [hns] at hclients hrfcs ⊢
    refine ⟨hclients, fun n ↦ ⟨fun hn ↦ ?_, nofun⟩⟩
    exact absurd hpair.symm (CentralIndex.mem_eraseHolders.mp hn).2
  | eraseClient a p =>
    obtain ⟨hpair, hns⟩ := hph
    rw [hns] at hclients hrfcs ⊢
    refine ⟨⟨fun hc ↦ absurd hpair.symm (h.wellFormed.mem_eraseClient.mp hc).2, nofun⟩, fun n ↦ ?_⟩
    show ⟨n, pair i⟩ ∈ ix.rfcs ↔ _
    rw [hrfcs]
    simp [enrol]

/-- **A critical section of one session** does for the index what it does for what that session has registered. -/
theorem exec [DecidableEq ι] (h : ix.Exact pair s) (hpair : Function.Injective pair) {ph ph' : Phase}
    (hph : ph.Enrols (pair i) (s i)) (hnext : ph.next op = some ph') (hop : ∀ d ∈ op.pair, d = pair i) :
    (op.exec ix).2.Exact pair (Function.update s i (enrol (s i) ⟨.index op, (op.exec ix).1⟩)) where
  wellFormed := IndexOp.exec_wellFormed h.wellFormed op
  clients j := by
    by_cases hj : j = i
    · subst hj
      rw [Function.update_self]
      exact (h.exec_self hph hnext hop).1
    · rw [Function.update_of_ne hj, (frame hop (hpair.ne hj)).1]
      exact h.clients j
  rfcs j n := by
    by_cases hj : j = i
    · subst hj
      rw [Function.update_self]
      exact (h.exec_self hph hnext hop).2 n
    · rw [Function.update_of_ne hj, (frame hop (hpair.ne hj)).2]
      exact h.rfcs j n
  only := h.only_exec hop

end CentralIndex.Exact

/-! ## In the network -/

namespace Network

variable {ι : Type} [DecidableEq ι] {nodes : ι → Node} {w w' : Network ι} {e : Happening ι} {i : ι}
  {es : List (Happening ι)}

/-- The client that the index knows a peer by. -/
def pairOf {ι : Type} (nodes : ι → Node) (i : ι) : Client := ⟨cString (nodes i).address, (nodes i).port⟩

/-- What the session of each peer has registered. -/
def enrolment {ι : Type} (w : Network ι) (i : ι) : Option (List Int32) := enrolled (w.member i).sessionLog

/-- What holds of the sessions and the index, if no two peers announce one pair. -/
structure Enlisted (nodes : ι → Node) (w : Network ι) : Prop where
  sound : w.Sound nodes True
  sessions : ∀ i, ∃ ph : Phase, ph.Typed (w.member i).session ∧ ph.Enrols (pairOf nodes i) (w.enrolment i)
  index : w.index.Exact (pairOf nodes) w.enrolment

omit [DecidableEq ι] in
theorem enlisted_init (nodes : ι → Node) : (init nodes).Enlisted nodes where
  sound := sound_init nodes True
  sessions _ := ⟨.fresh, clientHandler_typed, rfl⟩
  index := .empty _

omit [DecidableEq ι] in
/-- A handler that registers a client registers that of its peer. -/
theorem Sound.pair_of_fresh {cut : Prop} (hw : w.Sound nodes cut) {op : IndexOp} {k : op.Res → handler.Code}
    (hcode : (w.member i).session = .callThen (.index op) k) {ph ph' : Phase} (hnext : ph.next op = some ph') :
    ∀ d ∈ op.pair, ph = .fresh → d = pairOf nodes i := by
  rintro d hd rfl
  obtain ⟨_, hm⟩ := hw.members i
  obtain ⟨stage, hsession, -⟩ := hm.session
  rw [hcode] at hsession
  cases Phase.moves_of_next hnext with
  | addClient h p =>
    obtain ⟨rfl, rfl⟩ : h = cString (nodes i).address ∧ p = (nodes i).port := hsession.1
    exact (Option.some_inj.mp hd).symm

/-- A session moves. -/
theorem enrolment_set {m : Member ι} (ix : CentralIndex) :
    enrolment { w.set i m with index := ix } = Function.update w.enrolment i (enrolled m.sessionLog) := by
  funext j
  by_cases hj : j = i
  · subst hj
    rw [Function.update_self]
    exact congrArg (fun m ↦ enrolled (Member.sessionLog m)) set_member_self
  · rw [Function.update_of_ne hj]
    exact congrArg (fun m ↦ enrolled (Member.sessionLog m)) (set_member_of_ne hj)

omit [DecidableEq ι] in
/-- Sessions and an index that stay as they are. -/
theorem Enlisted.of_link (h : w.Enlisted nodes) (hw' : w'.Sound nodes True)
    (hsession : ∀ j, (w'.member j).session = (w.member j).session)
    (hlog : ∀ j, (w'.member j).sessionLog = (w.member j).sessionLog) (hindex : w'.index = w.index) :
    w'.Enlisted nodes := by
  have henrolment : w'.enrolment = w.enrolment := funext fun j ↦ congrArg enrolled (hlog j)
  refine ⟨hw', fun j ↦ ?_, ?_⟩
  · rw [hsession, henrolment]
    exact h.sessions j
  · rw [hindex, henrolment]
    exact h.index

/-- **A handler moves**, and the index with it. -/
theorem Enlisted.session_act (h : w.Enlisted nodes) (hpairs : Function.Injective (pairOf nodes))
    {code : handler.Code} {log : List serverSig.Call} {inbox rest out : List Frame} {memory : ℕ → UInt8}
    {s : Endpoint handler (indexEnv memory)} (hcode : (w.member i).session = code)
    (hlog : (w.member i).sessionLog = log)
    (hact : (⟨code, w.index, log⟩ : Endpoint handler (indexEnv memory)).act inbox = some (s, rest, out)) :
    ∃ ph' : Phase, ph'.Typed s.code ∧ ph'.Enrols (pairOf nodes i) (enrolled s.log) ∧
      s.env.Exact (pairOf nodes) (Function.update w.enrolment i (enrolled s.log)) := by
  obtain ⟨ph, htyped, henrols⟩ := h.sessions i
  have hself : w.enrolment i = enrolled log := congrArg enrolled hlog
  have hsame : w.index.Exact (pairOf nodes) (Function.update w.enrolment i (enrolled log)) := by
    rw [← hself, Function.update_eq_self]
    exact h.index
  rw [hself] at henrols
  rw [hcode] at htyped
  cases Endpoint.act_eq_some_iff.mp hact with
  | @loop v =>
    obtain rfl : ph = .serving v.host v.uploadPort := htyped
    exact ⟨_, messageLoop_typed v, henrols, hsame⟩
  | send => exact ⟨ph, htyped, henrols, hsame⟩
  | recv => exact ⟨ph, htyped.2 _ rfl trivial, henrols, hsame⟩
  | @call op _ _ _ _ _ r hr =>
    obtain ⟨ph', hnext, hk⟩ := htyped
    rw [enrolled_append]
    cases op with
    | index op =>
      obtain ⟨rfl, rfl⟩ := Prod.mk.inj (Option.some_inj.mp hr)
      obtain ⟨henrols', hop⟩ := henrols.step (r := (op.exec w.index).1) hnext
        (h.sound.pair_of_fresh hcode hnext)
      refine ⟨ph', hk _, henrols', ?_⟩
      rw [← hself] at henrols ⊢
      exact h.index.exec hpairs henrols hnext hop
    | newBytes n | close =>
      obtain ⟨-, rfl⟩ := Prod.mk.inj (Option.some_inj.mp hr)
      obtain rfl : ph = ph' := Option.some_inj.mp hnext
      exact ⟨ph, hk _, henrols, hsame⟩

/-- **One event**, if no two peers announce one pair. -/
theorem Enlisted.step (h : w.Enlisted nodes) (hpairs : Function.Injective (pairOf nodes))
    (hstep : w.step nodes e = some w') : w'.Enlisted nodes := by
  have hw' := h.sound.step (fun _ _ _ ↦ trivial) hstep
  rcases step_cases hstep with ⟨i, memory, command, c, rest, out, -, rfl⟩ | ⟨i, memory, s, rest, out, hact, rfl⟩ |
    ⟨hindex, hsame⟩
  · refine h.of_link hw' (fun j ↦ ?_) (fun j ↦ ?_) rfl
    · by_cases hj : j = i
      · subst hj
        rw [set_member_self]
      · rw [set_member_of_ne hj]
    · by_cases hj : j = i
      · subst hj
        rw [set_member_self]
      · rw [set_member_of_ne hj]
  · obtain ⟨ph', htyped, henrols, hexact⟩ := h.session_act hpairs rfl rfl hact
    refine ⟨hw', fun j ↦ ?_, by rw [enrolment_set]; exact hexact⟩
    rw [enrolment_set]
    show ∃ ph : Phase, ph.Typed ((w.set i _).member j).session ∧ _
    by_cases hj : j = i
    · subst hj
      rw [set_member_self, Function.update_self]
      exact ⟨ph', htyped, henrols⟩
    · rw [set_member_of_ne hj, Function.update_of_ne hj]
      exact h.sessions j
  · exact h.of_link hw' (fun j ↦ congrArg (fun l ↦ l.server.code) (hsame j))
      (fun j ↦ congrArg (fun l ↦ l.server.log) (hsame j)) hindex

/-- **The index is exactly what the sessions have registered**, in every state of every run, if no two peers announce
one pair: whatever the users do, and however the critical sections of the sessions are interleaved. -/
theorem index_exact (hpairs : Function.Injective (pairOf nodes)) (es : List (Happening ι)) :
    AllStates (Network.step nodes) (fun w ↦ w.index.Exact (pairOf nodes) w.enrolment) (init nodes) es :=
  AllStates.of_steps (fun _ _ _ hw _ hs ↦ hw.step hpairs hs) (fun _ hw ↦ hw.index) (enlisted_init nodes)
    (allSteps_true _ es)

/-- Both have registered the RFC in the end. -/
theorem index_exact_sharing :
    (run (Network.step couple) (init couple) sharing).map (fun w ↦ (w.enrolment false, w.enrolment true)) =
      some (some [7], some [7]) ∧
    AllStates (Network.step couple) (fun w ↦ w.index.Exact (pairOf couple) w.enrolment) (init couple) sharing := by
  refine ⟨by decide +kernel, index_exact (fun i j hij ↦ ?_) sharing⟩
  cases i <;> cases j <;> first | rfl | exact absurd hij (by decide)

end Network

end RfcNet
