import Mathlib.Data.List.Induction
import RfcNet.Forgetting
import RfcNet.Lib.Matching
import RfcNet.Serving
import RfcNet.Visibility

/-!
# A session that has left leaves no trace

If a session has disconnected, and nobody else has announced its pair, then the run in which it never was is a
run too, with the same index at its end, and with the same record of all other sessions but that no query
returned what the session had (`no_trace`).

The two runs are compared state by state.  The index of the second is that of the first without the client
(`CentralIndex.without`), and the code of every other session keeps pace with itself although it may have
been told less (`clientHandler_matches`).  A reply that is sent can be sent without some of its elements
(`matches_sendList`); one that is not sent ends its session, which then has entered its last critical section.
-/

set_option autoImplicit false

namespace RfcNet

open Lib

/-! ## Calls that return less -/

/-- The calls that correspond: critical sections are the same. -/
inductive CallsAlike : ServerOp → ServerOp → Prop
  | index (op : IndexOp) : CallsAlike (.index op) (.index op)
  | newBytes (n n' : ℕ) : CallsAlike (.newBytes n) (.newBytes n')
  | close : CallsAlike .close .close

/-- Their results: a query has not returned the client. -/
inductive ResultsAlike (c : Client) : (op op' : ServerOp) → op.Res → op'.Res → Prop
  | index (op : IndexOp) (r : op.Res) : ResultsAlike c (.index op) (.index op) r (op.without c r)
  | newBytes (n n' : ℕ) (heap : ℕ → UInt8) : ResultsAlike c (.newBytes n) (.newBytes n') heap heap
  | close : ResultsAlike c .close .close () ()

/-- **A session that is told less**, by the entries of a client. -/
def less (c : Client) : Lib.Link serverSig := ⟨CallsAlike, ResultsAlike c⟩

section
variable {c : Client} {α β : Type} {fin : α → β → Prop}

theorem matches_atIndex {op : IndexOp} {g : op.Res → Prog serverSig α} {g' : op.Res → Prog serverSig β}
    (hg : ∀ r, (g r).Matches (less c) fin (g' (op.without c r))) :
    (atIndex op >>= g).Matches (less c) fin (atIndex op >>= g') :=
  .call (.index op) fun r r' hr ↦ by
    cases hr
    exact hg r

theorem matches_allocate {n n' : ℕ} {g : (ℕ → UInt8) → Prog serverSig α}
    {g' : (ℕ → UInt8) → Prog serverSig β} (hg : ∀ heap, (g heap).Matches (less c) fin (g' heap)) :
    (allocate n >>= g).Matches (less c) fin (allocate n' >>= g') :=
  .call (.newBytes n n') fun r r' hr ↦ by
    cases hr
    exact hg r

theorem matches_sendInt {x x' : Int32} {g : Unit → Prog serverSig α} {g' : Unit → Prog serverSig β}
    (hg : (g ()).Matches (less c) fin (g' ())) :
    (sendInt x >>= g).Matches (less c) fin (sendInt x' >>= g') := .send hg

theorem matches_recvInt {g : Int32 → Prog serverSig α} {g' : Int32 → Prog serverSig β}
    (hg : ∀ x, (g x).Matches (less c) fin (g' x)) :
    (recvInt >>= g).Matches (less c) fin (recvInt >>= g') := .recv fun f ↦ hg (unwireInt f)

theorem matches_sendBuffer (buf : Option Frame) (len : ℕ) :
    (sendBuffer buf len : Prog serverSig Unit).Matches (less c) (fun _ _ ↦ True)
      (sendBuffer buf len) := by
  cases buf with
  | none => exact .spent (.raise _) _
  | some f =>
    rw [sendBuffer.eq_2]
    split
    · exact .spent (.raise _) _
    · exact .send (.done trivial)

end

/-! ## Replies with fewer elements -/

section
variable {α : Type} {put : α → Put} {ok : α → Bool} {size : α → ℕ} {bytes : α → Frame} {l l' : List α}
  {f : Frame} {messageSize : UInt32}

/-- A reply of a size that is no `int` is not sent. -/
theorem spent_sendReply (hlen : f.length = messageSize.toNat) (hlong : 2 ^ 31 ≤ f.length) :
    (sendReply (some f) messageSize).Spent := by
  rw [sendReply_long hlen hlong]
  exact .send (.raise _)

/-- **Where a list is sent, a part of it can be sent.** -/
theorem matches_sendList {c : Client} (htakes : ∀ a, (put a).Takes (size a))
    (hwrites : ∀ a, Writes (put a) (bytes a)) (hbytes : ∀ a, (bytes a).length = size a)
    (hsub : l'.Sublist l) (heap : ℕ → UInt8) :
    ((Prog.ofExcept .memory (encodeList put ok size l heap) : Prog serverSig _) >>= fun buf ↦
        sendReply buf (replySize (l.map size))).Matches (less c) (fun _ _ ↦ True)
      ((Prog.ofExcept .memory (encodeList put ok size l' heap) : Prog serverSig _) >>= fun buf ↦
        sendReply buf (replySize (l'.map size))) := by
  cases hl : encodeList put ok size l heap with
  | error e => exact .spent (.raise _) _
  | ok buf =>
    rw [Prog.ofExcept_ok, Prog.done_bind]
    cases buf with
    | none => exact .spent (.send (.raise _)) _
    | some f =>
      by_cases hnil : l = []
      · subst hnil
        obtain rfl := List.sublist_nil.mp hsub
        obtain ⟨f', hf', hlen, hshort⟩ := encodeList_of_short (l := []) hwrites hbytes
          (fun a ha ↦ absurd ha List.not_mem_nil) (by simp) heap
        obtain rfl : f = f' := Option.some_inj.mp (Except.ok.inj (hl.symm.trans hf'))
        rw [hl, Prog.ofExcept_ok, Prog.done_bind, sendReply_some hlen hshort]
        exact .send (.send (.done trivial))
      · obtain ⟨hok, hlen, hle⟩ := encodeList_eq_ok htakes hnil hl
        by_cases hshort : f.length < 2 ^ 31
        · have hsum : (l'.map size).sum ≤ (l.map size).sum := 
            (hsub.map size).sum_le_sum fun _ _ ↦ Nat.zero_le _
          obtain ⟨f', hf', hlen', hshort'⟩ := encodeList_of_short hwrites hbytes
            (fun a ha ↦ hok a (hsub.subset ha)) (by omega) heap
          rw [hf', Prog.ofExcept_ok, Prog.done_bind, sendReply_some hlen hshort,
            sendReply_some hlen' hshort']
          exact .send (.send (.done trivial))
        · exact .spent (spent_sendReply hlen (by omega)) _

end

/-! ## The handler -/

section
variable {c : Client}

theorem listRfcs_matches : listRfcs.Matches (less c) (fun _ _ ↦ True) listRfcs := by
  rw [listRfcs]
  refine matches_atIndex fun holders ↦ matches_allocate fun heap ↦ ?_
  rw [toBytes_listReply, toBytes_listReply]
  exact matches_sendList takes_putHolder writes_putHolder
    (fun it ↦ by rw [length_holderBytes]; omega) List.filter_sublist heap

theorem lookupRfc_matches : lookupRfc.Matches (less c) (fun _ _ ↦ True) lookupRfc := by
  rw [lookupRfc]
  refine Prog.matches_recv fun buf ↦ Prog.matches_ofExcept fun msg _ ↦ ?_
  refine matches_atIndex fun clients ↦ matches_allocate fun heap ↦ ?_
  rw [toBytes_lookupReply, toBytes_lookupReply]
  exact matches_sendList takes_putClient writes_putClient
    (fun it ↦ by rw [length_clientBytes]; omega) List.filter_sublist heap

theorem addRfc_matches (h : StdString) (p : Int32) :
    (addRfc h p).Matches (less c) (fun _ _ ↦ True) (addRfc h p) := by
  rw [addRfc]
  refine Prog.matches_recv fun buf ↦ Prog.matches_ofExcept fun msg _ ↦ ?_
  refine matches_atIndex fun added ↦ matches_allocate fun heap ↦ ?_
  exact Prog.matches_ofExcept fun buf _ ↦ matches_sendBuffer buf _

theorem handleMessage_matches (h : StdString) (p message : Int32) :
    (handleMessage h p message).Matches (less c) (fun _ _ ↦ True) (handleMessage h p message) := by
  rw [handleMessage]
  split
  · exact addRfc_matches h p
  · exact listRfcs_matches
  · exact lookupRfc_matches
  · exact .done trivial

/-- **One round of the loop keeps pace with itself.** -/
theorem messageLoop_matches (s : Session) :
    (messageLoop s).Matches (less c) (fun v v' ↦ v = v') (messageLoop s) := by
  refine matches_recvInt fun message ↦ (handleMessage_matches _ _ message).bind fun _ _ _ ↦ ?_
  split
  · exact .done rfl
  · refine matches_atIndex fun _ ↦ matches_atIndex fun _ ↦ .call .close fun _ _ _ ↦ ?_
    exact .done rfl

theorem receiveHello_matches :
    receiveHello.Matches (less c) (fun v v' ↦ v = v') receiveHello := by
  rw [receiveHello]
  refine matches_recvInt fun hostLen ↦ ?_
  split
  · exact .spent (.raise _) _
  · rw [receiveAddress]
    refine Prog.matches_recv fun hostC ↦ matches_recvInt fun uploadPort ↦ ?_
    exact matches_atIndex fun _ ↦ matches_allocate fun message ↦ .done rfl

/-- **So does the whole handler.** -/
theorem clientHandler_matches :
    clientHandler.Matches (less c) (fun v v' ↦ v = v') clientHandler := by
  rw [clientHandler]
  refine matches_sendInt (matches_recvInt fun clientVersion ↦ ?_)
  split
  · exact .done rfl
  · refine receiveHello_matches.bind fun s s' hs ↦ ?_
    obtain rfl := hs
    exact .done rfl

end

/-! ## Who has announced what -/

/-- The pair that a session has registered and not yet removed. -/
def Phase.pair : Phase → Option Client
  | .fresh => none
  | .serving h p => some ⟨h, p⟩
  | .removing h p => some ⟨h, p⟩
  | .gone => none

section
variable {ι : Type} [DecidableEq ι] {log : List (Entry ι)} {i s : ι} {c d : Client} {ph ph' : Phase}
  {op : IndexOp}

/-- A session registers its own pair, and then keeps to it. -/
theorem Phase.pair_of_next (h : ph.next op = some ph') :
    (∃ h p, op = .addClient h p ∧ ph = .fresh ∧ ph' = .serving h p) ∨
      ((∀ h p, op ≠ .addClient h p) ∧ ph' ≠ .fresh ∧ (∀ d ∈ op.pair, ph.pair = some d) ∧
        ∀ d ∈ ph'.pair, ph.pair = some d) := by
  cases moves_of_next h with
  | addClient host port => exact .inl ⟨host, port, rfl, rfl, rfl⟩
  | addRfc | findRfcs | allRfcs | eraseHolders | eraseClient =>
    exact .inr ⟨by simp, by simp, by simp [Phase.pair, IndexOp.pair], by simp [Phase.pair]⟩

/-- What a session has registered it has announced. -/
theorem addClient_mem_of_pair (hph : phaseOf log i = some ph) (hpair : ph.pair = some c) :
    .addClient c.host c.port ∈ opsOf log i := by
  induction log using List.reverseRecOn generalizing ph with
  | nil =>
    obtain rfl : Phase.fresh = ph := Option.some_inj.mp hph
    cases hpair
  | append_singleton log e ih =>
    by_cases he : e.who = i
    · rw [phaseOf_append_self he] at hph
      obtain ⟨before, hbefore, hnext⟩ := Option.bind_eq_some_iff.mp hph
      rw [opsOf_append_self he, List.mem_append, List.mem_singleton]
      rcases Phase.pair_of_next hnext with ⟨h, p, hop, -, rfl⟩ | ⟨-, -, -, hkeep⟩
      · obtain rfl : (⟨h, p⟩ : Client) = c := Option.some_inj.mp hpair
        exact .inr hop.symm
      · exact .inl (ih hbefore (hkeep c hpair))
    · rw [phaseOf_append_of_ne he] at hph
      rw [opsOf_append_of_ne he]
      exact ih hph hpair

/-- A session announces one pair. -/
theorem announced_unique {h h' : StdString} {p p' : Int32} (hph : phaseOf log i = some ph)
    (hmem : .addClient h p ∈ opsOf log i) (hmem' : .addClient h' p' ∈ opsOf log i) :
    (⟨h, p⟩ : Client) = ⟨h', p'⟩ := by
  induction log using List.reverseRecOn generalizing ph with
  | nil => cases hmem
  | append_singleton log e ih =>
    by_cases he : e.who = i
    · rw [phaseOf_append_self he] at hph
      obtain ⟨before, hbefore, hnext⟩ := Option.bind_eq_some_iff.mp hph
      rw [opsOf_append_self he, List.mem_append, List.mem_singleton] at hmem hmem'
      rcases Phase.pair_of_next hnext with ⟨h₀, p₀, hop, rfl, -⟩ | ⟨hop, -⟩
      · -- It is the first thing that the session does.
        rw [opsOf_eq_nil hbefore, hop] at hmem hmem'
        obtain ⟨rfl, rfl⟩ := IndexOp.addClient.inj (hmem.resolve_left List.not_mem_nil)
        obtain ⟨rfl, rfl⟩ := IndexOp.addClient.inj (hmem'.resolve_left List.not_mem_nil)
        rfl
      · exact ih hbefore (hmem.resolve_right fun h ↦ hop _ _ h.symm)
          (hmem'.resolve_right fun h ↦ hop _ _ h.symm)
    · rw [phaseOf_append_of_ne he] at hph
      rw [opsOf_append_of_ne he] at hmem hmem'
      exact ih hph hmem hmem'

/-- The session `s` is the one that announces the client `c`, and announces nothing else. -/
def Sole (s : ι) (c : Client) (log : List (Entry ι)) : Prop :=
  ∀ i h p, .addClient h p ∈ opsOf log i → ((⟨h, p⟩ : Client) = c ↔ i = s)

theorem Sole.of_append {e : Entry ι} (h : Sole s c (log ++ [e])) : Sole s c log := by
  intro i a p hmem
  refine h i a p ?_
  rw [opsOf, List.filter_append, List.map_append]
  exact List.mem_append_left _ hmem

/-- A critical section is about the client exactly if the session enters it. -/
theorem Sole.pair_iff {r : op.Res} (h : Sole s c (log ++ [⟨i, op, r⟩])) (hph : phaseOf log i = some ph)
    (hnext : ph.next op = some ph') : ∀ d ∈ op.pair, (d = c ↔ i = s) := by
  intro d hd
  refine h i d.host d.port ?_
  rw [opsOf_append_self rfl, List.mem_append, List.mem_singleton]
  rcases Phase.pair_of_next hnext with ⟨a, p, rfl, -, -⟩ | ⟨-, -, hkeep, -⟩
  · obtain rfl : (⟨a, p⟩ : Client) = d := Option.some_inj.mp hd
    exact .inr rfl
  · exact .inl (addClient_mem_of_pair hph (hkeep d hd))

/-- A pair stays registered until its client is erased. -/
theorem Phase.pair_next (hpair : ph.pair = some c) (h : ph.next op = some ph') :
    ph'.pair = some c ∨ op = .eraseClient c.host c.port := by
  cases moves_of_next h with
  | addClient => cases hpair
  | addRfc | findRfcs | allRfcs | eraseHolders => exact .inl hpair
  | eraseClient =>
    obtain rfl := Option.some_inj.mp hpair
    exact .inr rfl

/-- It is served until its associations are erased. -/
theorem Phase.serving_next {h : StdString} {p : Int32} (hnext : (Phase.serving h p).next op = some ph') :
    ph' = .serving h p ∨ op = .eraseHolders h p := by
  cases moves_of_next hnext with
  | addRfc | findRfcs | allRfcs => exact .inl rfl
  | eraseHolders => exact .inr rfl

end

namespace World

variable {ι : Type} [DecidableEq ι] {s : ι} {c : Client} {w w' : World ι} {e : Event ι}

/-- What the index has of the client it has from the session `s`, in its present phase. -/
structure Owned (s : ι) (c : Client) (w : World ι) : Prop where
  /-- The client is registered if the session has registered it. -/
  clients : c ∈ w.index.clients → ∃ ph, phaseOf w.log s = some ph ∧ ph.pair = some c
  /-- Its associations are there while the session serves it. -/
  rfcs : ∀ r ∈ w.index.rfcs, r.peer = c → phaseOf w.log s = some (.serving c.host c.port)

theorem owned_init : Owned s c init where
  clients hc := absurd hc List.not_mem_nil
  rfcs _ hr := absurd hr List.not_mem_nil

theorem Owned.step (hw : Owned s c w) (hok : w.Typed ∧ w.index.WellFormed) (hstep : w.step e = some w')
    (hsole : Sole s c w'.log) : Owned s c w' := by
  rcases step_cases hstep with ⟨-, code, rfl, -⟩ | ⟨op, k, hs, rfl⟩
  · exact ⟨hw.clients, hw.rfcs⟩
  obtain ⟨ph, ph', hph, hnext, -⟩ := hok.1.next hs
  have hpair := hsole.pair_iff hph hnext
  by_cases hi : e.who = s
  · obtain rfl := hi
    have hphase : phaseOf (w.enter e.who op k).log e.who = some ph' := by
      rw [enter_log, phaseOf_append_self rfl, hph]
      exact hnext
    refine ⟨fun hc ↦ ⟨ph', hphase, ?_⟩, fun r hr hpeer ↦ hphase.trans (congrArg some ?_)⟩
    · rcases IndexOp.mem_clients_of_exec hc with hold | rfl
      · obtain ⟨ph₀, hph₀, hold⟩ := hw.clients hold
        obtain rfl : ph₀ = ph := Option.some_inj.mp (hph₀.symm.trans hph)
        rcases Phase.pair_next hold hnext with hnew | rfl
        · exact hnew
        · exact absurd rfl (hok.2.mem_eraseClient.mp hc).2
      · rcases Phase.pair_of_next hnext with ⟨h, p, hop, -, rfl⟩ | ⟨hop, -⟩
        · obtain ⟨rfl, rfl⟩ := IndexOp.addClient.inj hop
          rfl
        · exact absurd rfl (hop _ _)
    · obtain rfl := hpeer
      rcases IndexOp.mem_rfcs_of_exec hr with hold | ⟨rfl, -, -⟩
      · obtain rfl : ph = .serving r.peer.host r.peer.port :=
          Option.some_inj.mp (hph.symm.trans (hw.rfcs r hold rfl))
        rcases Phase.serving_next hnext with hnew | rfl
        · exact hnew
        · exact absurd rfl (CentralIndex.mem_eraseHolders.mp hr).2
      · exact (serving_of_addRfc hnext).2
  · have hphase : phaseOf (w.enter e.who op k).log s = phaseOf w.log s := by
      rw [enter_log, phaseOf_append_of_ne hi]
    refine ⟨fun hc ↦ ?_, fun r hr hpeer ↦ ?_⟩
    · rw [hphase]
      rcases IndexOp.mem_clients_of_exec hc with hold | rfl
      · exact hw.clients hold
      · exact absurd ((hpair c rfl).mp rfl) hi
    · rw [hphase]
      rcases IndexOp.mem_rfcs_of_exec hr with hold | ⟨rfl, -, -⟩
      · exact hw.rfcs r hold hpeer
      · exact absurd ((hpair r.peer rfl).mp hpeer) hi

/-- **Once the session is gone, the index does not know its client.** -/
theorem Owned.without_eq_self (hw : Owned s c w) (hgone : phaseOf w.log s = some .gone) :
    w.index.without c = w.index := by
  refine CentralIndex.without_eq_self (fun hc ↦ ?_) fun r hr hpeer ↦ ?_
  · obtain ⟨ph, hph, hpair⟩ := hw.clients hc
    rw [hgone] at hph
    obtain rfl : Phase.gone = ph := Option.some_inj.mp hph
    cases hpair
  · have hserving := hw.rfcs r hr hpeer
    rw [hgone] at hserving
    cases hserving

/-! ## The run without the session -/

/-- The record of the other sessions, with the entries of the client left out of what their queries have
returned. -/
def recordWithout (s : ι) (c : Client) (log : List (Entry ι)) : List (Entry ι) :=
  (log.filter (·.who ≠ s)).map fun e ↦ ⟨e.who, e.op, e.op.without c e.res⟩

theorem recordWithout_append_self {log : List (Entry ι)} {op : IndexOp} {r : op.Res} :
    recordWithout s c (log ++ [⟨s, op, r⟩]) = recordWithout s c log := by
  simp [recordWithout]

theorem recordWithout_append_of_ne {log : List (Entry ι)} {i : ι} {op : IndexOp} {r : op.Res}
    (hi : i ≠ s) : recordWithout s c (log ++ [⟨i, op, r⟩]) =
      recordWithout s c log ++ [⟨i, op, op.without c r⟩] := by
  simp [recordWithout, hi]

/-- `w'` is `w` without the session `s` and its client. -/
structure Lacks (s : ι) (c : Client) (w w' : World ι) : Prop where
  index : w'.index = w.index.without c
  sess : ∀ j ≠ s, (w.sess j).Matches (less c) (fun v v' ↦ v = v') (w'.sess j)
  log : w'.log = recordWithout s c w.log

theorem lacks_init : Lacks s c init init :=
  ⟨rfl, fun _ _ ↦ clientHandler_matches, rfl⟩

/-- The session itself moves, and the run without it does not. -/
theorem Lacks.step_self {w₁ : World ι} (h : Lacks s c w w') (hok : w.Typed ∧ w.index.WellFormed)
    (hstep : w.step e = some w₁) (hsole : Sole s c w₁.log) (he : e.who = s) : Lacks s c w₁ w' := by
  obtain rfl := he
  rcases step_cases hstep with ⟨-, code, rfl, -⟩ | ⟨op, k, hs, rfl⟩
  · exact ⟨h.index, fun j hj ↦ by rw [goOn_sess_of_ne hj]; exact h.sess j hj, h.log⟩
  · obtain ⟨ph, ph', hph, hnext, -⟩ := hok.1.next hs
    refine ⟨?_, fun j hj ↦ ?_, ?_⟩
    · rw [enter_index, IndexOp.without_exec hok.2 fun d hd ↦ (hsole.pair_iff hph hnext d hd).mpr rfl]
      exact h.index
    · rw [enter_sess_of_ne hj]
      exact h.sess j hj
    · rw [enter_log, recordWithout_append_self]
      exact h.log

/-- Another session moves outside of the critical sections. -/
theorem Lacks.goOn {j : ι} {code code' : handler.Code} (h : Lacks s c w w')
    (hcode : code.Matches (less c) (fun v v' ↦ v = v') code') :
    Lacks s c (w.goOn j code) (w'.goOn j code') := by
  refine ⟨h.index, fun i hi ↦ ?_, h.log⟩
  by_cases hij : i = j
  · subst hij
    rw [goOn_sess_self, goOn_sess_self]
    exact hcode
  · rw [goOn_sess_of_ne hij, goOn_sess_of_ne hij]
    exact h.sess i hi

/-- It moves although in the run without `s` it does not have to any more. -/
theorem Lacks.goOn_left {j : ι} {code : handler.Code} (h : Lacks s c w w') (hcode : code.Spent) :
    Lacks s c (w.goOn j code) w' := by
  refine ⟨h.index, fun i hi ↦ ?_, h.log⟩
  by_cases hij : i = j
  · subst hij
    rw [goOn_sess_self]
    exact .spent hcode _
  · rw [goOn_sess_of_ne hij]
    exact h.sess i hi

/-- It enters a critical section, in which it is told less. -/
theorem Lacks.enter {j : ι} {op : IndexOp} {k k' : op.Res → handler.Code} (h : Lacks s c w w')
    (hix : w.index.WellFormed) (hj : j ≠ s) (hop : ∀ d ∈ op.pair, d ≠ c)
    (hk : ∀ r, (k r).Matches (less c) (fun v v' ↦ v = v') (k' (op.without c r))) :
    Lacks s c (w.enter j op k) (w'.enter j op k') := by
  have hexec : op.exec w'.index = (op.without c (op.exec w.index).1, (op.exec w.index).2.without c) := by
    rw [h.index, IndexOp.exec_without hix hop]
  refine ⟨?_, fun i hi ↦ ?_, ?_⟩
  · rw [enter_index, enter_index, hexec]
  · by_cases hij : i = j
    · subst hij
      rw [enter_sess_self, enter_sess_self, hexec]
      exact hk _
    · rw [enter_sess_of_ne hij, enter_sess_of_ne hij]
      exact h.sess i hi
  · rw [enter_log, enter_log, hexec, recordWithout_append_of_ne hj, h.log]

/-- **Another session moves** in both runs, unless it is at its end in the one and need not go on in the
other. -/
theorem Lacks.step_other {w₁ : World ι} (h : Lacks s c w w') (hok : w.Typed ∧ w.index.WellFormed)
    (hstep : w.step e = some w₁) (hsole : Sole s c w₁.log) (he : e.who ≠ s) :
    Lacks s c w₁ w' ∨ ∃ w₁', w'.step e = some w₁' ∧ Lacks s c w₁ w₁' := by
  have hcode := h.sess e.who he
  have hpair : ∀ op k, w.sess e.who = .callThen (.index op) k → ∀ d ∈ op.pair, d ≠ c := by
    intro op k hs d hd hdc
    obtain ⟨ph, ph', hph, hnext, -⟩ := hok.1.next hs
    rw [step, hs] at hstep
    obtain rfl := Option.some_inj.mp hstep
    exact he ((hsole.pair_iff hph hnext d hd).mp hdc)
  rw [step] at hstep
  rw [step]
  generalize w.sess e.who = p at *
  generalize w'.sess e.who = q at *
  cases hcode with
  | spent hspent =>
    cases hspent with
    | raise => cases hstep
    | send hk =>
      obtain rfl := Option.some_inj.mp hstep
      exact .inl (h.goOn_left hk)
  | @done a b hab =>
    obtain rfl := hab
    cases a with
    | inl v =>
      obtain rfl := Option.some_inj.mp hstep
      exact .inr ⟨_, rfl, h.goOn (messageLoop_matches v)⟩
    | inr => cases hstep
  | send hk =>
    obtain rfl := Option.some_inj.mp hstep
    exact .inr ⟨_, rfl, h.goOn hk⟩
  | @recv n k k' hk =>
    by_cases hlen : e.bytes.length = n
    · simp only [hlen, if_true] at hstep ⊢
      obtain rfl := Option.some_inj.mp hstep
      exact .inr ⟨_, rfl, h.goOn (hk e.bytes)⟩
    · simp [hlen] at hstep
  | call hop hk =>
    cases hop with
    | index op =>
      obtain rfl := Option.some_inj.mp hstep
      exact .inr ⟨_, rfl, h.enter hok.2 he (hpair op _ rfl) fun r ↦ hk r _ (.index op r)⟩
    | newBytes n n' =>
      obtain rfl := Option.some_inj.mp hstep
      exact .inr ⟨_, rfl, h.goOn (hk _ _ (.newBytes n n' e.memory))⟩
    | close =>
      obtain rfl := Option.some_inj.mp hstep
      exact .inr ⟨_, rfl, h.goOn (hk _ _ .close)⟩

theorem sole_of_step (hstep : w.step e = some w') (h : Sole s c w'.log) : Sole s c w.log := by
  rcases step_cases hstep with ⟨-, code, rfl, -⟩ | ⟨op, k, -, rfl⟩
  · exact h
  · exact h.of_append

/-- **A run and the run without the session**, state by state. -/
theorem exists_lacks {es : List (Event ι)} (hrun : run step init es = some w) (hsole : Sole s c w.log) :
    Owned s c w ∧ ∃ es' w', es'.Sublist (es.filter (·.who ≠ s)) ∧ run step init es' = some w' ∧
      Lacks s c w w' := by
  induction es using List.reverseRecOn generalizing w with
  | nil =>
    obtain rfl : init = w := Option.some_inj.mp hrun
    exact ⟨owned_init, [], init, .refl _, rfl, lacks_init⟩
  | append_singleton es e ih =>
    obtain ⟨v, hv, hlast⟩ := run_append_eq_some.mp hrun
    obtain ⟨w₁, hstep, heq⟩ := run_cons_eq_some.mp hlast
    obtain rfl : w₁ = w := Option.some_inj.mp heq
    have hok : v.Typed ∧ v.index.WellFormed := ⟨typed_of_run hv, wellFormed_of_run hv⟩
    obtain ⟨howned, es', w', hsub, hrun', hlacks⟩ := ih hv (sole_of_step hstep hsole)
    refine ⟨howned.step hok hstep hsole, ?_⟩
    rw [List.filter_append]
    by_cases he : e.who = s
    · exact ⟨es', w', hsub.trans (List.sublist_append_left _ _), hrun',
        hlacks.step_self hok hstep hsole he⟩
    · have hkeep : [e].filter (·.who ≠ s) = [e] := by simp [he]
      rw [hkeep]
      rcases hlacks.step_other hok hstep hsole he with hsame | ⟨w₁', hstep', hnew⟩
      · exact ⟨es', w', hsub.trans (List.sublist_append_left _ _), hrun', hsame⟩
      · exact ⟨es' ++ [e], w₁', hsub.append (.refl _), run_append_eq_some.mpr
          ⟨w', hrun', run_cons_eq_some.mpr ⟨w₁', hstep', rfl⟩⟩, hnew⟩

/-- **A session that has left leaves no trace**: if no other session has announced its pair, then the others
alone can come to the same index, through the same critical sections in the same order.  Each of these has the
result that it had, but that a query does not return what the session had registered.

The moves of the others in between are the same too.  But one whose reply was too long to be sent may be left
where it would otherwise have sent the size of that reply. -/
theorem no_trace {es : List (Event ι)} {h : StdString} {p : Int32} (hrun : run step init es = some w)
    (hgone : phaseOf w.log s = some .gone) (hpair : .addClient h p ∈ opsOf w.log s)
    (hother : ∀ j ≠ s, .addClient h p ∉ opsOf w.log j) :
    ∃ es' w', es'.Sublist (es.filter (·.who ≠ s)) ∧ run step init es' = some w' ∧
      w'.index = w.index ∧ w'.log = recordWithout s ⟨h, p⟩ w.log := by
  have hsole : Sole s ⟨h, p⟩ w.log := by
    intro i a q hmem
    constructor
    · intro heq
      obtain ⟨rfl, rfl⟩ := Client.mk.inj heq
      exact by_contra fun hi ↦ hother i hi hmem
    · rintro rfl
      exact announced_unique hgone hmem hpair
  obtain ⟨howned, es', w', hsub, hrun', hlacks⟩ := exists_lacks hrun hsole
  exact ⟨es', w', hsub, hrun', hlacks.index.trans (howned.without_eq_self hgone), hlacks.log⟩

/-- Two clients connect.  One of them adds RFC 5 and disconnects; the other one asks for a list before that. -/
def departingRun : List (Event Bool) :=
  connects false [104] 1 ++ connects true [105] 1 ++
    moves false [wireInt P2SMessage.add.toInt, wireInt 5, [], [], []] ++
    moves true [wireInt P2SMessage.list.toInt, []] ++
    moves false [[], wireInt P2SMessage.disconnect.toInt, [], []]

/-- What the sessions have done in it. -/
private theorem departingRun_end :
    (run step init departingRun).map (fun w ↦ (opsOf w.log false, opsOf w.log true)) =
      some ([.addClient [104] 1, .addRfc [104] 1 5, .eraseHolders [104] 1, .eraseClient [104] 1],
        [.addClient [105] 1, .allRfcs]) := by
  decide +kernel

theorem no_trace_departingRun : ∃ w, run step init departingRun = some w ∧ ∃ es' w',
    es'.Sublist (departingRun.filter (·.who ≠ false)) ∧ run step init es' = some w' ∧
      w'.index = w.index ∧ w'.log = recordWithout false ⟨[104], 1⟩ w.log := by
  obtain ⟨w, hw, heq⟩ := Option.map_eq_some_iff.mp departingRun_end
  obtain ⟨hfalse, htrue⟩ := Prod.mk.inj heq
  refine ⟨w, hw, no_trace hw ?_ (by rw [hfalse]; simp) fun j hj ↦ ?_⟩
  · rw [phaseOf, hfalse]
    decide
  · obtain rfl : j = true := by simpa using hj
    rw [htrue]
    simp

end World

end RfcNet
