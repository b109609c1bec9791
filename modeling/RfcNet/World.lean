import RfcNet.IndexRefinement
import RfcNet.Lib.Runs
import RfcNet.Server

/-!
# Any number of sessions on one index

A `World` is the central index and one handler for each connection the server ever accepts, each of
them somewhere in its code.  An event lets one session move: it receives what the event says it
receives, finds in new memory what the event says was there, and enters a critical section of the
index in one step.  Nothing is assumed of the bytes a session receives, so a session may announce any
host and port, the ones another session has announced included.

`World.log` is a record of the critical sections entered so far, by whom, and with what result.  How
far a session has come can be read off its part of the record (`phaseOf`), and what is left of its
code is always typed by that phase (`typed_of_run`).
-/

set_option autoImplicit false

namespace RfcNet

open Lib

/-- A critical section that some session entered, and what it returned. -/
structure Entry (ι : Type) where
  /-- The session. -/
  who : ι
  /-- The critical section. -/
  op : IndexOp
  /-- Its result. -/
  res : op.Res

/-- The index and the sessions. -/
structure World (ι : Type) where
  /-- The central index. -/
  index : CentralIndex
  /-- What is left of each session's handler. -/
  sess : ι → handler.Code
  /-- The critical sections entered so far. -/
  log : List (Entry ι)

/-- The session `who` moves. -/
structure Event (ι : Type) where
  /-- The session. -/
  who : ι
  /-- What it has in its buffer after a receive. -/
  bytes : Frame := []
  /-- What it finds in new memory. -/
  memory : ℕ → UInt8 := fun _ ↦ 0

namespace World

variable {ι : Type} [DecidableEq ι]

/-- Nobody has moved. -/
def init : World ι := ⟨.empty, fun _ ↦ clientHandler, []⟩

/-- The session `who` goes on with `code`. -/
def goOn (w : World ι) (who : ι) (code : handler.Code) : World ι :=
  { w with sess := Function.update w.sess who code }

/-- The session `who` goes on with the result of a critical section. -/
def enter (w : World ι) (who : ι) (op : IndexOp) (k : op.Res → handler.Code) : World ι where
  index := (op.exec w.index).2
  sess := Function.update w.sess who (k (op.exec w.index).1)
  log := w.log ++ [⟨who, op, (op.exec w.index).1⟩]

section
variable {w : World ι} {i j : ι} {code : handler.Code} {op : IndexOp} {k : op.Res → handler.Code}

@[simp] theorem goOn_index : (w.goOn i code).index = w.index := rfl
@[simp] theorem goOn_log : (w.goOn i code).log = w.log := rfl
@[simp] theorem goOn_sess_self : (w.goOn i code).sess i = code := Function.update_self ..
theorem goOn_sess_of_ne (h : j ≠ i) : (w.goOn i code).sess j = w.sess j :=
  Function.update_of_ne h ..

@[simp] theorem enter_index : (w.enter i op k).index = (op.exec w.index).2 := rfl
@[simp] theorem enter_log :
    (w.enter i op k).log = w.log ++ [⟨i, op, (op.exec w.index).1⟩] := rfl
@[simp] theorem enter_sess_self : (w.enter i op k).sess i = k (op.exec w.index).1 :=
  Function.update_self ..
theorem enter_sess_of_ne (h : j ≠ i) : (w.enter i op k).sess j = w.sess j :=
  Function.update_of_ne h ..

end

/-- One event. -/
def step (w : World ι) (e : Event ι) : Option (World ι) :=
  match w.sess e.who with
  | .done (.inl s) => some (w.goOn e.who (messageLoop s))
  | .done (.inr _) => none
  | .raise _ => none
  | .sendThen _ k => some (w.goOn e.who k)
  | .recvThen n k => if e.bytes.length = n then some (w.goOn e.who (k e.bytes)) else none
  | .callThen (.index op) k => some (w.enter e.who op k)
  | .callThen (.newBytes _) k => some (w.goOn e.who (k e.memory))
  | .callThen .close k => some (w.goOn e.who (k ()))

/-- The critical section that the session `who` is about to enter. -/
def pending (w : World ι) (who : ι) : Option IndexOp :=
  match w.sess who with
  | .callThen (.index op) _ => some op
  | _ => none

/-- The session `who` moves once for each frame, which is what it receives if it is receiving. -/
def moves {ι : Type} (who : ι) (frames : List Frame) : List (Event ι) :=
  frames.map fun f ↦ { who, bytes := f }

/-- The session `who` moves from its start to its first round of the loop, the client having
announced `host` and `port`. -/
def connects {ι : Type} (who : ι) (host : Frame) (port : Int32) : List (Event ι) :=
  moves who
    [[], wireInt protocolVersion, wireInt (Int32.ofNat host.length), host, wireInt port, [], [], []]

end World

/-! ## The record of a session -/

section
variable {ι : Type} [DecidableEq ι]

/-- The critical sections entered by one session. -/
def opsOf (log : List (Entry ι)) (i : ι) : List IndexOp :=
  (log.filter fun e ↦ e.who = i).map Entry.op

/-- How far a session has come. -/
def phaseOf (log : List (Entry ι)) (i : ι) : Option Phase :=
  (opsOf log i).foldlM Phase.next .fresh

variable {log : List (Entry ι)} {i j : ι} {e : Entry ι}

theorem opsOf_append_self (h : e.who = i) : opsOf (log ++ [e]) i = opsOf log i ++ [e.op] := by
  simp [opsOf, h]

theorem opsOf_append_of_ne (h : e.who ≠ i) : opsOf (log ++ [e]) i = opsOf log i := by
  simp [opsOf, h]

theorem phaseOf_append_self (h : e.who = i) :
    phaseOf (log ++ [e]) i = (phaseOf log i).bind fun ph ↦ ph.next e.op := by
  rw [phaseOf, opsOf_append_self h, List.foldlM_append]
  simp [phaseOf, Option.bind_eq_bind]

theorem phaseOf_append_of_ne (h : e.who ≠ i) : phaseOf (log ++ [e]) i = phaseOf log i := by
  rw [phaseOf, opsOf_append_of_ne h, phaseOf]

end

/-! ## What an event can do -/

namespace World

variable {ι : Type} [DecidableEq ι] {w w' : World ι} {e : Event ι}

/-- **Inversion of a step**: either the index and the record stay as they are, or the session enters
the critical section that was pending.  In the first case the session still follows any automaton that
minds critical sections only, and that it followed before. -/
theorem step_follows {Φ : Type} {next : Φ → ServerOp → Option Φ} {fin : Φ → Session ⊕ Bool → Prop}
    (hloop : ∀ ph s, fin ph (.inl s) → (messageLoop s).Follows (.ofCalls next) fin ph)
    (hnew : ∀ ph n, next ph (.newBytes n) = some ph) (hclose : ∀ ph, next ph .close = some ph)
    (h : w.step e = some w') :
    (w.pending e.who = none ∧ ∃ code, w' = w.goOn e.who code ∧
      ∀ ph, (w.sess e.who).Follows (.ofCalls next) fin ph → code.Follows (.ofCalls next) fin ph) ∨
    ∃ op k, w.sess e.who = .callThen (.index op) k ∧ w' = w.enter e.who op k := by
  rw [step] at h
  rw [pending]
  split at h
  · rename_i s hs
    refine .inl ⟨by rw [hs], _, (Option.some_inj.mp h).symm, fun ph hph ↦ ?_⟩
    rw [hs] at hph
    exact hloop ph s hph
  · exact absurd h (by simp)
  · exact absurd h (by simp)
  · rename_i f k hs
    refine .inl ⟨by rw [hs], _, (Option.some_inj.mp h).symm, fun ph hph ↦ ?_⟩
    rwa [hs] at hph
  · rename_i n k hs
    split at h
    · rename_i hlen
      refine .inl ⟨by rw [hs], _, (Option.some_inj.mp h).symm, fun ph hph ↦ ?_⟩
      rw [hs] at hph
      exact hph.2 _ hlen trivial
    · exact absurd h (by simp)
  · rename_i op k hs
    exact .inr ⟨op, k, hs, (Option.some_inj.mp h).symm⟩
  · rename_i n k hs
    refine .inl ⟨by rw [hs], _, (Option.some_inj.mp h).symm, fun ph hph ↦ ?_⟩
    rw [hs] at hph
    obtain ⟨ph', hnext, hk⟩ := hph
    obtain rfl : ph = ph' := Option.some_inj.mp ((hnew ph n).symm.trans hnext)
    exact hk _
  · rename_i k hs
    refine .inl ⟨by rw [hs], _, (Option.some_inj.mp h).symm, fun ph hph ↦ ?_⟩
    rw [hs] at hph
    obtain ⟨ph', hnext, hk⟩ := hph
    obtain rfl : ph = ph' := Option.some_inj.mp ((hclose ph).symm.trans hnext)
    exact hk _

/-- The same for the order of a session's critical sections. -/
theorem step_cases (h : w.step e = some w') :
    (w.pending e.who = none ∧ ∃ code, w' = w.goOn e.who code ∧
      ∀ ph : Phase, ph.Typed (w.sess e.who) → ph.Typed code) ∨
    ∃ op k, w.sess e.who = .callThen (.index op) k ∧ w' = w.enter e.who op k := by
  refine step_follows (fun ph s hph ↦ ?_) (fun _ _ ↦ rfl) (fun _ ↦ rfl) h
  obtain rfl : ph = .serving s.host s.uploadPort := hph
  exact messageLoop_typed s

/-! ## Invariants of every run -/

/-- Every session's code is typed by the phase its record shows. -/
def Typed (w : World ι) : Prop :=
  ∀ i, ∃ ph, phaseOf w.log i = some ph ∧ ph.Typed (w.sess i)

theorem typed_init : (init : World ι).Typed := fun _ ↦ ⟨.fresh, rfl, clientHandler_typed⟩

/-- A session that enters a critical section is in a phase that allows it. -/
theorem Typed.next {i : ι} {op : IndexOp} {k : op.Res → handler.Code} (h : w.Typed)
    (hs : w.sess i = .callThen (.index op) k) :
    ∃ ph ph', phaseOf w.log i = some ph ∧ ph.next op = some ph' ∧ ∀ r, ph'.Typed (k r) := by
  obtain ⟨ph, hph, htyped⟩ := h i
  rw [hs] at htyped
  obtain ⟨ph', hnext, hk⟩ := htyped
  exact ⟨ph, ph', hph, hnext, hk⟩

theorem Typed.step (h : w.Typed) (hstep : w.step e = some w') : w'.Typed := by
  intro i
  rcases step_cases hstep with ⟨-, code, rfl, hcode⟩ | ⟨op, k, hs, rfl⟩
  · obtain ⟨ph, hph, htyped⟩ := h i
    refine ⟨ph, hph, ?_⟩
    by_cases hi : i = e.who
    · subst hi
      rw [goOn_sess_self]
      exact hcode ph htyped
    · rwa [goOn_sess_of_ne hi]
  · by_cases hi : i = e.who
    · subst hi
      obtain ⟨ph, ph', hph, hnext, hk⟩ := h.next hs
      refine ⟨ph', ?_, ?_⟩
      · rw [enter_log, phaseOf_append_self rfl, hph]
        exact hnext
      · rw [enter_sess_self]
        exact hk _
    · obtain ⟨ph, hph, htyped⟩ := h i
      refine ⟨ph, ?_, ?_⟩
      · rwa [enter_log, phaseOf_append_of_ne (Ne.symm hi)]
      · rwa [enter_sess_of_ne hi]

/-- **Every session keeps to its phases**, in every run. -/
theorem typed_of_run {es : List (Event ι)} (h : run step init es = some w) : w.Typed :=
  run_inv (fun _ _ _ hw hs ↦ hw.step hs) typed_init h

/-- The index is the one that the recorded critical sections lead to. -/
def Recorded (w : World ι) : Prop := w.index = indexAfter (w.log.map Entry.op)

omit [DecidableEq ι] in
theorem recorded_init : (init : World ι).Recorded := rfl

theorem Recorded.step (h : w.Recorded) (hstep : w.step e = some w') : w'.Recorded := by
  rcases step_cases hstep with ⟨-, code, rfl, -⟩ | ⟨op, k, hs, rfl⟩
  · exact h
  · rw [Recorded, enter, List.map_append, indexAfter, List.foldl_append, ← indexAfter, ← h]
    rfl

/-- **The index of a run of sessions is that of an interleaving of critical sections**, so all
that is known of those is known of it. -/
theorem recorded_of_run {es : List (Event ι)} (h : run step init es = some w) : w.Recorded :=
  run_inv (fun _ _ _ hw hs ↦ hw.step hs) recorded_init h

theorem wellFormed_step (h : w.index.WellFormed) (hstep : w.step e = some w') :
    w'.index.WellFormed := by
  rcases step_cases hstep with ⟨-, code, rfl, -⟩ | ⟨op, k, hs, rfl⟩
  · exact h
  · exact IndexOp.exec_wellFormed h op

theorem wellFormed_of_run {es : List (Event ι)} (h : run step init es = some w) :
    w.index.WellFormed :=
  run_inv (fun _ _ _ hw hs ↦ wellFormed_step hw hs) CentralIndex.wellFormed_empty h

/-! ## Hosts -/

/-- A client is registered under a C string only. -/
def registersString : Unit → ServerOp → Option Unit
  | _, .index (.addClient h _) => if (0 : UInt8) ∈ h then none else some ()
  | _, _ => some ()

/-- A session whose remaining code registers C strings only. -/
abbrev StringHost (code : handler.Code) : Prop :=
  code.Follows (.ofCalls registersString) (fun _ _ ↦ True) ()

theorem messageLoop_stringHost (s : Session) : StringHost (messageLoop s) := by
  refine follows_recvInt fun message ↦
    (handleMessage_follows message (fun _ ↦ rfl) rfl (fun _ ↦ rfl) fun _ ↦ rfl).bind ?_
  rintro ph - rfl
  split
  · trivial
  · refine follows_atIndex rfl fun _ ↦ follows_atIndex rfl fun _ ↦ ?_
    exact ⟨_, rfl, fun _ ↦ trivial⟩

theorem clientHandler_stringHost : StringHost clientHandler := by
  rw [clientHandler]
  refine follows_sendInt (follows_recvInt fun clientVersion ↦ ?_)
  split
  · trivial
  · refine (receiveHello_follows (fun _ _ ↦ ()) (fun f p ↦ if_neg (zero_notMem_cString f))
      fun _ _ _ ↦ rfl).bind fun _ _ _ ↦ ?_
    trivial

/-- No host in the index has a NUL in it, and none will. -/
structure Stringy (w : World ι) : Prop where
  /-- Not the host of a client. -/
  clients : ∀ c ∈ w.index.clients, (0 : UInt8) ∉ c.host
  /-- Not that of a client that is said to have an RFC. -/
  rfcs : ∀ r ∈ w.index.rfcs, (0 : UInt8) ∉ r.peer.host
  /-- Nor will any session register one. -/
  sess : ∀ i, StringHost (w.sess i)

omit [DecidableEq ι] in
theorem stringy_init : (init : World ι).Stringy :=
  ⟨fun _ hc ↦ absurd hc List.not_mem_nil, fun _ hr ↦ absurd hr List.not_mem_nil,
    fun _ ↦ clientHandler_stringHost⟩

theorem Stringy.step (h : w.Stringy) (hstep : w.step e = some w') : w'.Stringy := by
  rcases step_follows (fun _ s _ ↦ messageLoop_stringHost s) (fun _ _ ↦ rfl) (fun _ ↦ rfl) hstep with
    ⟨-, code, rfl, hcode⟩ | ⟨op, k, hs, rfl⟩
  · refine ⟨h.clients, h.rfcs, fun i ↦ ?_⟩
    by_cases hi : i = e.who
    · subst hi
      rw [goOn_sess_self]
      exact hcode () (h.sess _)
    · rw [goOn_sess_of_ne hi]
      exact h.sess i
  · have hsess := h.sess e.who
    rw [hs] at hsess
    obtain ⟨_, hnext, hk⟩ := hsess
    refine ⟨fun c hc ↦ ?_, fun r hr ↦ ?_, fun i ↦ ?_⟩
    · rcases IndexOp.mem_clients_of_exec hc with hold | rfl
      · exact h.clients c hold
      · exact fun hmem ↦ absurd ((if_pos hmem).symm.trans hnext) nofun
    · rcases IndexOp.mem_rfcs_of_exec hr with hold | ⟨-, hc, -⟩
      · exact h.rfcs r hold
      · exact h.clients r.peer hc
    · by_cases hi : i = e.who
      · subst hi
        rw [enter_sess_self]
        exact hk _
      · rw [enter_sess_of_ne hi]
        exact h.sess i

/-- **Every host in the index is a C string**, in every run. -/
theorem stringy_of_run {es : List (Event ι)} (h : run step init es = some w) : w.Stringy :=
  run_inv (fun _ _ _ hw hs ↦ hw.step hs) stringy_init h

end World

end RfcNet
