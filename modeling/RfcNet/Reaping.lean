import Mathlib.Data.List.Range
import RfcNet.Lib.Runs
import RfcNet.Teardown

/-!
# The threads of a listener

`ServerSocketListener` and `EncryptedServerSocketListener`, which differ in the sockets only.  `listen` starts a
thread that accepts connections, each of which gets a thread of its own and an entry in `client_threads`, and another
one that goes through these entries every five seconds and frees those whose handler has set `*is_finished`.

Nothing keeps the two from using the vector at the same time.  Each operation on it is one step here.  A `push_back`
that has to move the vector leaves the iterator of a pass that is under way dangling, and what the thread that cleans
up does from then on is undefined: it is `lost` here and makes no further step.  So what is said of entries is said of
runs in which that does not happen (`Steady`).

A connection is numbered by the order in which it was accepted.  None is freed twice, or before its thread has
returned, and none is lost (`accounted`); and a pass that comes to its end frees all that had finished when it began
(`pass_reaps`).  But a client of another version is never freed (`other_version_kept`), and a listener that has
stopped accepting can neither be closed nor started again (`deaf_for_good`).
-/

set_option autoImplicit false

namespace RfcNet

open Lib

/-! ## States -/

/-- Where the thread that accepts is. -/
inductive Acceptor
  /-- It has not been started. -/
  | none
  | accepting
  /-- It has started the thread of this connection, and not yet made an entry for it. -/
  | holding (c : ℕ)
  | returned
  deriving DecidableEq, Repr

/-- Where the thread that cleans up is. -/
inductive Cleaner
  /-- It has not been started. -/
  | none
  /-- It is asleep, or about to look whether the listener listens. -/
  | top
  /-- It is about to look at this entry. -/
  | look (k : ℕ)
  /-- It has found that this entry is finished, and joins its thread. -/
  | join (k : ℕ)
  /-- Its entry has been moved, and its iterator dangles. -/
  | lost
  | returned
  deriving DecidableEq, Repr

/-- The vector has been moved. -/
def Cleaner.moved : Cleaner → Cleaner
  | .look _ => .lost
  | .join _ => .lost
  | s => s

/-- It has an iterator. -/
def Cleaner.atEntry : Cleaner → Bool
  | .look _ => true
  | .join _ => true
  | _ => false

theorem Cleaner.moved_eq_self {s : Cleaner} (h : s.atEntry = false) : s.moved = s := by
  cases s with
  | look | join => cases h
  | none | top | lost | returned => rfl

theorem Cleaner.moved_ne_join (s : Cleaner) (k : ℕ) : s.moved ≠ .join k := by
  cases s <;> nofun

theorem Cleaner.moved_ne_returned (s : Cleaner) (h : s ≠ .returned) : s.moved ≠ .returned := by
  cases s with
  | returned => exact absurd rfl h
  | none | top | look | join | lost => nofun

/-- Of these entries it still comes to so many. -/
def Cleaner.ahead (clientThreads : List ℕ) : Cleaner → List ℕ
  | .look k => clientThreads.drop k
  | .join k => clientThreads.drop k
  | .lost => clientThreads
  | _ => []

/-- A new entry is behind the others, and they are still there if the vector is moved. -/
theorem Cleaner.mem_ahead_append {s : Cleaner} {xs : List ℕ} {d : ℕ} (hd : d ∈ s.ahead xs) (c : ℕ) :
    d ∈ s.ahead (xs ++ [c]) ∧ d ∈ s.moved.ahead (xs ++ [c]) := by
  have hdrop : ∀ k, d ∈ xs.drop k → d ∈ (xs ++ [c]).drop k ∧ d ∈ xs ++ [c] := fun k hk ↦ by
    rw [List.drop_append]
    exact ⟨List.mem_append_left _ hk, List.mem_append_left _ (List.drop_subset k _ hk)⟩
  cases s with
  | look k | join k => exact hdrop k hd
  | lost => exact ⟨List.mem_append_left _ hd, List.mem_append_left _ hd⟩
  | none | top | returned => exact absurd hd List.not_mem_nil

/-- Where a call of `close` is. -/
inductive Closing
  /-- There is none. -/
  | idle
  | joinListen
  | joinCleanup
  | joinClients (k : ℕ)
  deriving DecidableEq, Repr

/-- A listener with its threads. -/
structure Listener where
  /-- `listen_thread` is not null. -/
  listening : Bool
  /-- The thread that accepts. -/
  acceptor : Acceptor
  /-- How many connections it has accepted. -/
  accepted : ℕ
  /-- The connections of `client_threads`. -/
  clientThreads : List ℕ
  /-- The capacity of that vector. -/
  capacity : ℕ
  /-- The `*is_finished` of each connection. -/
  isFinished : ℕ → Bool
  /-- Whether the thread of the connection has returned. -/
  returned : ℕ → Bool
  /-- The connections that have been freed. -/
  freed : List ℕ
  /-- The thread that cleans up. -/
  cleaner : Cleaner
  /-- How often it has begun to go through the entries. -/
  passes : ℕ
  /-- The call of `close`. -/
  closing : Closing

namespace Listener

/-- The constructor. -/
def init : Listener where
  listening := false
  acceptor := .none
  accepted := 0
  clientThreads := []
  capacity := 0
  isFinished _ := false
  returned _ := false
  freed := []
  cleaner := .none
  passes := 0
  closing := .idle

/-! ## Operations -/

/-- What the calls of `listen` return. -/
structure Calls where
  socket : Int32
  setsockopt : Int32
  bind : Int32
  listen : Int32

/-- `listen`, and whether it returns a thread. -/
def listen (l : Listener) (calls : Calls) : Bool × Listener :=
  if l.listening then (false, l)
  else if calls.socket = 0 then (false, l)
  else if calls.setsockopt ≠ 0 then (false, l)
  else if calls.bind < 0 then (false, l)
  else if calls.listen < 0 then (false, l)
  else (true, { l with listening := true, acceptor := .accepting, cleaner := .top })

/-- `client_threads.push_back`, with room for more if the vector is moved. -/
def pushBack (l : Listener) (c room : ℕ) : Listener :=
  if l.clientThreads.length < l.capacity then { l with clientThreads := l.clientThreads ++ [c] }
  else { l with
    clientThreads := l.clientThreads ++ [c], capacity := l.clientThreads.length + 1 + room,
    cleaner := l.cleaner.moved }

/-- One step of the thread that cleans up.  Nothing is said of one whose iterator dangles. -/
def clean (l : Listener) : Option Listener :=
  match l.cleaner with
  | .none | .lost | .returned => none
  | .top =>
    if l.listening then some { l with cleaner := .look 0, passes := l.passes + 1 }
    else some { l with cleaner := .returned }
  | .look k =>
    match l.clientThreads[k]? with
    | none => some { l with cleaner := .top }
    | some c => some { l with cleaner := if l.isFinished c then .join k else .look (k + 1) }
  | .join k =>
    match l.clientThreads[k]? with
    | none => none
    | some c =>
      if l.returned c then
        some { l with
          clientThreads := l.clientThreads.eraseIdx k, freed := l.freed ++ [c], cleaner := .look k }
      else none

/-- One step of `close`. -/
def close (l : Listener) : Option Listener :=
  match l.closing with
  | .idle => some (if l.listening then { l with closing := .joinListen } else l)
  | .joinListen => if l.acceptor = .returned then some { l with closing := .joinCleanup } else none
  | .joinCleanup => if l.cleaner = .returned then some { l with closing := .joinClients 0 } else none
  | .joinClients k =>
    match l.clientThreads[k]? with
    | none => some { l with closing := .idle }
    | some c => if l.returned c then some { l with closing := .joinClients (k + 1) } else none

/-- What can happen. -/
inductive Event
  /-- `listen` is called. -/
  | listen (calls : Calls)
  /-- `accept` returns, and fails or not. -/
  | accept (ok : Bool)
  /-- The new connection gets its entry. -/
  | push (room : ℕ)
  /-- A handler sets `*is_finished`. -/
  | finish (c : ℕ)
  /-- The thread of a connection returns. -/
  | leave (c : ℕ)
  /-- The thread that cleans up goes on. -/
  | clean
  /-- `close` is called, or goes on. -/
  | close

/-- The thread of a connection is running. -/
def Running (l : Listener) (c : ℕ) : Prop := c < l.accepted ∧ l.returned c = false

instance (l : Listener) (c : ℕ) : Decidable (l.Running c) := inferInstanceAs (Decidable (_ ∧ _))

/-- One event. -/
def step (l : Listener) : Event → Option Listener
  | .listen calls => if l.closing = .idle then some (l.listen calls).2 else none
  | .accept ok =>
    if l.acceptor = .accepting then
      some (if ok then { l with acceptor := .holding l.accepted, accepted := l.accepted + 1 }
        else { l with acceptor := .returned })
    else none
  | .push room =>
    match l.acceptor with
    | .holding c => some { l.pushBack c room with acceptor := .accepting }
    | _ => none
  | .finish c =>
    if l.Running c then some { l with isFinished := Function.update l.isFinished c true } else none
  | .leave c =>
    if l.Running c then some { l with returned := Function.update l.returned c true } else none
  | .clean => l.clean
  | .close => l.close

/-! ## What each event does -/

variable {l l' : Listener} {e : Event}

/-- A connection that has been accepted and has no entry yet. -/
def hand (l : Listener) : List ℕ :=
  match l.acceptor with
  | .holding c => [c]
  | _ => []

/-- **What the thread that cleans up can do.** -/
inductive Cleans (l : Listener) : Listener → Prop
  | stop (htop : l.cleaner = .top) (hlistening : l.listening = false) : Cleans l { l with cleaner := .returned }
  | begin (htop : l.cleaner = .top) (hlistening : l.listening = true) :
      Cleans l { l with cleaner := .look 0, passes := l.passes + 1 }
  | finish {k : ℕ} (hlook : l.cleaner = .look k) (hend : l.clientThreads.length ≤ k) :
      Cleans l { l with cleaner := .top }
  | pass {k c : ℕ} (hlook : l.cleaner = .look k) (hc : l.clientThreads[k]? = some c)
      (hrunning : l.isFinished c = false) : Cleans l { l with cleaner := .look (k + 1) }
  | find {k c : ℕ} (hlook : l.cleaner = .look k) (hc : l.clientThreads[k]? = some c)
      (hfinished : l.isFinished c = true) : Cleans l { l with cleaner := .join k }
  | free {k c : ℕ} (hjoin : l.cleaner = .join k) (hc : l.clientThreads[k]? = some c)
      (hreturned : l.returned c = true) :
      Cleans l { l with
        clientThreads := l.clientThreads.eraseIdx k, freed := l.freed ++ [c], cleaner := .look k }

theorem cleans_of_clean (h : l.clean = some l') : l.Cleans l' := by
  rw [clean] at h
  split at h
  · cases h
  · cases h
  · cases h
  · rename_i htop
    split at h
    · rename_i hlistening
      obtain rfl := Option.some_inj.mp h
      exact .begin htop hlistening
    · rename_i hlistening
      obtain rfl := Option.some_inj.mp h
      exact .stop htop (Bool.eq_false_of_not_eq_true hlistening)
  · rename_i k hlook
    split at h
    · rename_i hnone
      obtain rfl := Option.some_inj.mp h
      exact .finish hlook (List.getElem?_eq_none_iff.mp hnone)
    · rename_i c hc
      obtain rfl := Option.some_inj.mp h
      cases hfinished : l.isFinished c with
      | true =>
        rw [if_pos rfl]
        exact .find hlook hc hfinished
      | false =>
        rw [if_neg (by simp)]
        exact .pass hlook hc hfinished
  · rename_i k hjoin
    split at h
    · cases h
    · rename_i c hc
      obtain ⟨hreturned, h⟩ := Option.ite_none_right_eq_some.mp h
      obtain rfl := Option.some_inj.mp h
      exact .free hjoin hc hreturned

/-! ## Every connection is accounted for -/

/-- **What becomes of connections**: each that has been accepted has been freed, or has an entry, or is about to get
one. -/
structure Accounted (l : Listener) : Prop where
  /-- They are the connections accepted so far, each of them once. -/
  perm : (l.freed ++ (l.clientThreads ++ l.hand)).Perm (List.range l.accepted)
  /-- Those that are freed had finished, and their threads had returned. -/
  reaped : ∀ c ∈ l.freed, l.isFinished c = true ∧ l.returned c = true
  /-- So has the one whose thread is being joined. -/
  joins : ∀ k, l.cleaner = .join k → ∃ c, l.clientThreads[k]? = some c ∧ l.isFinished c = true
  /-- Before `listen` there is nothing. -/
  idle : l.listening = false → l.acceptor = .none ∧ l.cleaner = .none

theorem accounted_init : init.Accounted where
  perm := .refl _
  reaped _ hc := absurd hc List.not_mem_nil
  joins := nofun
  idle _ := ⟨rfl, rfl⟩

/-- Where no connection is accepted or freed, none is lost. -/
theorem Accounted.of_same (h : l.Accounted) (hfreed : l'.freed = l.freed)
    (hkept : l'.clientThreads ++ l'.hand = l.clientThreads ++ l.hand) (haccepted : l'.accepted = l.accepted)
    (hfinished : ∀ c, l.isFinished c = true → l'.isFinished c = true)
    (hreturned : ∀ c, l.returned c = true → l'.returned c = true)
    (hjoins : ∀ k, l'.cleaner = .join k → ∃ c, l'.clientThreads[k]? = some c ∧ l.isFinished c = true)
    (hidle : l'.listening = false → l'.acceptor = .none ∧ l'.cleaner = .none) : l'.Accounted where
  perm := by
    rw [hfreed, hkept, haccepted]
    exact h.perm
  reaped c hc := by
    obtain ⟨hf, hr⟩ := h.reaped c (hfreed ▸ hc)
    exact ⟨hfinished c hf, hreturned c hr⟩
  joins k hk := by
    obtain ⟨c, hc, hf⟩ := hjoins k hk
    exact ⟨c, hc, hfinished c hf⟩
  idle := hidle

/-- `listen` starts the two threads, or does nothing. -/
theorem listen_cases (l : Listener) (calls : Calls) : (l.listen calls).2 = l ∨
    l.listening = false ∧
      (l.listen calls).2 = { l with listening := true, acceptor := .accepting, cleaner := .top } := by
  rw [listen]
  split
  · exact .inl rfl
  rename_i hlistening
  split
  · exact .inl rfl
  split
  · exact .inl rfl
  split
  · exact .inl rfl
  split
  · exact .inl rfl
  · exact .inr ⟨Bool.eq_false_of_not_eq_true hlistening, rfl⟩

theorem Accounted.listen (h : l.Accounted) (calls : Calls) : (l.listen calls).2.Accounted := by
  rcases l.listen_cases calls with heq | ⟨hlistening, heq⟩
  · rwa [heq]
  · obtain ⟨hacceptor, -⟩ := h.idle hlistening
    rw [heq]
    refine h.of_same rfl ?_ rfl (fun _ hc ↦ hc) (fun _ hc ↦ hc) nofun nofun
    rw [hand, hand, hacceptor]

/-- The vector grows, and may be moved. -/
theorem pushBack_cases (l : Listener) (c room : ℕ) : ∃ capacity cleaner,
    l.pushBack c room = { l with clientThreads := l.clientThreads ++ [c], capacity, cleaner } ∧
      (cleaner = l.cleaner ∨ cleaner = l.cleaner.moved) := by
  rw [pushBack]
  split
  · exact ⟨l.capacity, l.cleaner, rfl, .inl rfl⟩
  · exact ⟨_, _, rfl, .inr rfl⟩

theorem Accounted.accept (h : l.Accounted) (hacceptor : l.acceptor = .accepting) :
    ({ l with acceptor := .holding l.accepted, accepted := l.accepted + 1 } : Listener).Accounted where
  perm := by
    have hperm := h.perm
    rw [hand, hacceptor, List.append_nil] at hperm
    rw [List.range_succ, ← List.append_assoc]
    exact hperm.append_right [l.accepted]
  reaped := h.reaped
  joins := h.joins
  idle hlistening := by
    have hnone := (h.idle hlistening).1
    rw [hacceptor] at hnone
    cases hnone

theorem Accounted.push (h : l.Accounted) {c : ℕ} (hacceptor : l.acceptor = .holding c) (room : ℕ) :
    ({ l.pushBack c room with acceptor := .accepting } : Listener).Accounted := by
  obtain ⟨capacity, cleaner, heq, hcleaner⟩ := l.pushBack_cases c room
  rw [heq]
  refine h.of_same rfl ?_ rfl (fun _ hc ↦ hc) (fun _ hc ↦ hc) (fun k hk ↦ ?_) fun hlistening ↦ ?_
  · rw [hand, hand, hacceptor, List.append_nil]
  · rcases hcleaner with rfl | rfl
    · obtain ⟨d, hd, hfinished⟩ := h.joins k hk
      exact ⟨d, List.getElem?_append_left (List.getElem?_eq_some_iff.mp hd).1 ▸ hd, hfinished⟩
    · exact absurd hk (l.cleaner.moved_ne_join k)
  · have hnone := (h.idle hlistening).1
    rw [hacceptor] at hnone
    cases hnone

/-- **A pass** frees what has finished. -/
theorem Accounted.cleans (h : l.Accounted) (hcleans : l.Cleans l') : l'.Accounted := by
  have hidle : ∀ {s}, l.cleaner = s → s ≠ .none → l.listening = true := by
    rintro s rfl hs
    by_contra hlistening
    exact hs (h.idle (Bool.eq_false_of_not_eq_true hlistening)).2
  have hnever : ∀ {s} {P : Prop}, l.cleaner = s → s ≠ .none → l.listening = false → P := by
    intro s P hs hne hlistening
    rw [hidle hs hne] at hlistening
    cases hlistening
  cases hcleans with
  | stop htop hlistening => exact hnever htop nofun hlistening
  | begin htop hlistening =>
    exact h.of_same rfl rfl rfl (fun _ hc ↦ hc) (fun _ hc ↦ hc) nofun (hnever htop nofun)
  | finish hlook hend =>
    exact h.of_same rfl rfl rfl (fun _ hc ↦ hc) (fun _ hc ↦ hc) nofun (hnever hlook nofun)
  | pass hlook hc hrunning =>
    exact h.of_same rfl rfl rfl (fun _ hc ↦ hc) (fun _ hc ↦ hc) nofun (hnever hlook nofun)
  | find hlook hc hfinished =>
    refine h.of_same rfl rfl rfl (fun _ hc ↦ hc) (fun _ hc ↦ hc) ?_ (hnever hlook nofun)
    rintro _ ⟨⟩
    exact ⟨_, hc, hfinished⟩
  | @free k c hjoin hc hreturned =>
    obtain ⟨d, hd, hfinished⟩ := h.joins k hjoin
    obtain rfl : d = c := Option.some_inj.mp (hd.symm.trans hc)
    obtain ⟨hk, hget⟩ := List.getElem?_eq_some_iff.mp hc
    refine ⟨?_, fun a ha ↦ ?_, nofun, hnever hjoin nofun⟩
    · have hperm : ([d] ++ l.clientThreads.eraseIdx k).Perm l.clientThreads :=
        hget ▸ List.getElem_cons_eraseIdx_perm hk
      refine List.Perm.trans ?_ h.perm
      show ((l.freed ++ [d]) ++ (l.clientThreads.eraseIdx k ++ l.hand)).Perm _
      rw [List.append_assoc, ← List.append_assoc [d]]
      exact (hperm.append_right _).append_left _
    · rcases List.mem_append.mp ha with hold | hnew
      · exact h.reaped a hold
      · obtain rfl := List.mem_singleton.mp hnew
        exact ⟨hfinished, hreturned⟩

/-- `close` waits, and changes nothing else. -/
theorem close_eq_some (h : l.close = some l') : ∃ closing, l' = { l with closing } := by
  rw [close] at h
  split at h
  · obtain rfl := Option.some_inj.mp h
    split
    · exact ⟨_, rfl⟩
    · exact ⟨_, rfl⟩
  · obtain ⟨-, h⟩ := Option.ite_none_right_eq_some.mp h
    exact ⟨_, (Option.some_inj.mp h).symm⟩
  · obtain ⟨-, h⟩ := Option.ite_none_right_eq_some.mp h
    exact ⟨_, (Option.some_inj.mp h).symm⟩
  · split at h
    · exact ⟨_, (Option.some_inj.mp h).symm⟩
    · obtain ⟨-, h⟩ := Option.ite_none_right_eq_some.mp h
      exact ⟨_, (Option.some_inj.mp h).symm⟩

theorem update_true {f : ℕ → Bool} {c d : ℕ} (h : f d = true) : Function.update f c true d = true := by
  by_cases hd : d = c
  · subst hd
    exact Function.update_self ..
  · rwa [Function.update_of_ne hd]

/-- **One event.** -/
theorem Accounted.step (h : l.Accounted) (hstep : l.step e = some l') : l'.Accounted := by
  cases e with
  | listen calls =>
    obtain ⟨-, hstep⟩ := Option.ite_none_right_eq_some.mp hstep
    obtain rfl := Option.some_inj.mp hstep
    exact h.listen calls
  | accept ok =>
    obtain ⟨hacceptor, hstep⟩ := Option.ite_none_right_eq_some.mp hstep
    obtain rfl := Option.some_inj.mp hstep
    cases ok with
    | true => exact h.accept hacceptor
    | false =>
      refine h.of_same rfl ?_ rfl (fun _ hc ↦ hc) (fun _ hc ↦ hc) h.joins fun hlistening ↦ ?_
      · rw [hand, hand, hacceptor]
        rfl
      · have hnone := (h.idle hlistening).1
        rw [hacceptor] at hnone
        cases hnone
  | push room =>
    rw [Listener.step] at hstep
    split at hstep
    · rename_i c hacceptor
      obtain rfl := Option.some_inj.mp hstep
      exact h.push hacceptor room
    · cases hstep
  | finish c =>
    obtain ⟨-, hstep⟩ := Option.ite_none_right_eq_some.mp hstep
    obtain rfl := Option.some_inj.mp hstep
    exact h.of_same rfl rfl rfl (fun _ ↦ update_true) (fun _ hc ↦ hc) h.joins h.idle
  | leave c =>
    obtain ⟨-, hstep⟩ := Option.ite_none_right_eq_some.mp hstep
    obtain rfl := Option.some_inj.mp hstep
    exact h.of_same rfl rfl rfl (fun _ hc ↦ hc) (fun _ ↦ update_true) h.joins h.idle
  | clean => exact h.cleans (cleans_of_clean hstep)
  | close =>
    obtain ⟨closing, rfl⟩ := close_eq_some hstep
    exact h.of_same rfl rfl rfl (fun _ hc ↦ hc) (fun _ hc ↦ hc) h.joins h.idle

theorem accounted_of_run {es : List Event} (hrun : run step init es = some l) : l.Accounted :=
  run_inv (fun _ _ _ hl hs ↦ hl.step hs) accounted_init hrun

/-- The vector is not moved under a pass. -/
def Steady (l : Listener) : Event → Prop
  | .push _ => l.cleaner.atEntry = true → l.clientThreads.length < l.capacity
  | _ => True

instance (l : Listener) : (e : Event) → Decidable (l.Steady e)
  | .push _ => inferInstanceAs (Decidable (l.cleaner.atEntry = true → l.clientThreads.length < l.capacity))
  | .listen _ | .accept _ | .finish _ | .leave _ | .clean | .close => .isTrue trivial

/-- So its iterator does not dangle. -/
theorem ne_lost_of_step (h : l.cleaner ≠ .lost) (hok : l.Steady e) (hstep : l.step e = some l') :
    l'.cleaner ≠ .lost := by
  cases e with
  | listen calls =>
    obtain ⟨-, hstep⟩ := Option.ite_none_right_eq_some.mp hstep
    obtain rfl := Option.some_inj.mp hstep
    rcases l.listen_cases calls with heq | ⟨-, heq⟩
    · rwa [heq]
    · rw [heq]
      nofun
  | accept ok =>
    obtain ⟨-, hstep⟩ := Option.ite_none_right_eq_some.mp hstep
    obtain rfl := Option.some_inj.mp hstep
    cases ok <;> exact h
  | push room =>
    rw [Listener.step] at hstep
    split at hstep
    · rename_i c _
      obtain rfl := Option.some_inj.mp hstep
      show (l.pushBack c room).cleaner ≠ .lost
      rw [pushBack]
      split
      · exact h
      · rename_i hfull
        rw [Cleaner.moved_eq_self (Bool.eq_false_of_not_eq_true fun hat ↦ hfull (hok hat))]
        exact h
    · cases hstep
  | finish c | leave c =>
    obtain ⟨-, hstep⟩ := Option.ite_none_right_eq_some.mp hstep
    obtain rfl := Option.some_inj.mp hstep
    exact h
  | clean =>
    cases cleans_of_clean hstep with
    | stop | begin | finish | pass | find | free => nofun
  | close =>
    obtain ⟨closing, rfl⟩ := close_eq_some hstep
    exact h

/-- **No connection is freed twice, or too early, or lost**, in any state of any run in which the vector is not moved
under a pass; and in such a run the thread that cleans up keeps its place. -/
theorem accounted {es : List Event} (hsteady : AllSteps step Steady init es) :
    AllStates step (fun l ↦ l.Accounted ∧ l.cleaner ≠ .lost) init es :=
  AllStates.of_steps (fun _ _ _ hl hok hs ↦ ⟨hl.1.step hs, ne_lost_of_step hl.2 hok hs⟩) (fun _ h ↦ h)
    ⟨accounted_init, nofun⟩ hsteady

/-- Three connections: the first is freed, the second gets its entry during the pass, and the third none. -/
def reapedRun : List Event :=
  [.listen ⟨3, 0, 0, 0⟩, .accept true, .push 1, .finish 0, .leave 0, .clean, .clean, .accept true, .push 0, .clean,
    .accept true, .clean, .clean]

theorem accounted_reapedRun : AllSteps step Steady init reapedRun ∧
    AllStates step (fun l ↦ l.Accounted ∧ l.cleaner ≠ .lost) init reapedRun ∧
    (run step init reapedRun).map (fun l ↦ (l.freed, l.clientThreads, l.acceptor, l.cleaner)) =
      some ([0], [1], .holding 2, .top) := by
  have hsteady : AllSteps step Steady init reapedRun := by decide
  exact ⟨hsteady, accounted hsteady, by decide⟩

/-! ## A pass frees what had finished -/

/-- The entries that the thread that cleans up still comes to. -/
def ahead (l : Listener) : List ℕ := l.cleaner.ahead l.clientThreads

theorem ahead_of {cleaner : Cleaner} (h : l.cleaner = cleaner) : l.ahead = cleaner.ahead l.clientThreads :=
  h ▸ rfl

/-- What has become, since a pass began in the state `s`, of the connections that had finished by then. -/
structure Passing (s l : Listener) : Prop where
  passes : s.passes ≤ l.passes
  finished : ∀ c, s.isFinished c = true → l.isFinished c = true
  /-- As long as no other pass has begun, each has been freed or is still ahead. -/
  freed : l.passes = s.passes → ∀ c ∈ s.clientThreads, s.isFinished c = true → c ∈ l.freed ∨ c ∈ l.ahead

variable {s : Listener}

/-- Nothing but the pass itself moves it on. -/
theorem Passing.of_same (h : s.Passing l) (hpasses : l'.passes = l.passes) (hfreed : l'.freed = l.freed)
    (hfinished : ∀ c, l.isFinished c = true → l'.isFinished c = true) (hahead : ∀ c ∈ l.ahead, c ∈ l'.ahead) :
    s.Passing l' where
  passes := hpasses ▸ h.passes
  finished c hc := hfinished c (h.finished c hc)
  freed heq c hc hf := by
    rw [hfreed]
    exact (h.freed (hpasses ▸ heq) c hc hf).imp_right (hahead c)

theorem drop_eraseIdx_self {α : Type} (xs : List α) {k : ℕ} (hk : k < xs.length) :
    (xs.eraseIdx k).drop k = xs.drop (k + 1) := by
  rw [List.eraseIdx_eq_take_drop_succ, List.drop_left' (by rw [List.length_take]; omega)]

/-- **The pass goes on**: what it leaves behind had not finished, or is freed. -/
theorem Passing.cleans (h : s.Passing l) (hcleans : l.Cleans l') : s.Passing l' := by
  cases hcleans with
  | stop htop _ =>
    refine h.of_same rfl rfl (fun _ hc ↦ hc) fun c hc ↦ ?_
    rw [ahead_of htop] at hc
    exact absurd hc List.not_mem_nil
  | begin _ _ =>
    refine ⟨Nat.le_succ_of_le h.passes, h.finished, fun heq ↦ ?_⟩
    have hle := h.passes
    have heq : l.passes + 1 = s.passes := heq
    omega
  | finish hlook hend =>
    refine h.of_same rfl rfl (fun _ hc ↦ hc) fun c hc ↦ ?_
    rw [ahead_of hlook, Cleaner.ahead, List.drop_eq_nil_of_le hend] at hc
    exact absurd hc List.not_mem_nil
  | @pass k c hlook hc hrunning =>
    refine ⟨h.passes, h.finished, fun heq d hd hf ↦ (h.freed heq d hd hf).imp_right fun hahead ↦ ?_⟩
    obtain ⟨hk, hget⟩ := List.getElem?_eq_some_iff.mp hc
    rw [ahead_of hlook, Cleaner.ahead, List.drop_eq_getElem_cons hk, hget] at hahead
    rcases List.mem_cons.mp hahead with rfl | hrest
    · -- It had finished, and so has it now.
      rw [h.finished d hf] at hrunning
      cases hrunning
    · exact hrest
  | find hlook _ _ =>
    refine h.of_same rfl rfl (fun _ hc ↦ hc) fun c hc ↦ ?_
    rwa [ahead_of hlook] at hc
  | @free k c hjoin hc hreturned =>
    refine ⟨h.passes, h.finished, fun heq d hd hf ↦ ?_⟩
    obtain ⟨hk, hget⟩ := List.getElem?_eq_some_iff.mp hc
    rcases h.freed heq d hd hf with hfreed | hahead
    · exact .inl (List.mem_append_left _ hfreed)
    · rw [ahead_of hjoin, Cleaner.ahead, List.drop_eq_getElem_cons hk, hget] at hahead
      rcases List.mem_cons.mp hahead with rfl | hrest
      · exact .inl (List.mem_append_right _ (List.mem_singleton.mpr rfl))
      · refine .inr ?_
        show d ∈ (l.clientThreads.eraseIdx k).drop k
        rwa [drop_eraseIdx_self _ hk]

theorem Passing.listen (h : s.Passing l) (hl : l.Accounted) (calls : Calls) : s.Passing (l.listen calls).2 := by
  rcases l.listen_cases calls with heq | ⟨hlistening, heq⟩
  · rwa [heq]
  · rw [heq]
    refine h.of_same rfl rfl (fun _ hc ↦ hc) fun c hc ↦ ?_
    rw [ahead_of (hl.idle hlistening).2] at hc
    exact absurd hc List.not_mem_nil

/-- **One event.** -/
theorem Passing.step (h : s.Passing l) (hl : l.Accounted) (hstep : l.step e = some l') : s.Passing l' := by
  cases e with
  | listen calls =>
    obtain ⟨-, hstep⟩ := Option.ite_none_right_eq_some.mp hstep
    obtain rfl := Option.some_inj.mp hstep
    exact h.listen hl calls
  | accept ok =>
    obtain ⟨-, hstep⟩ := Option.ite_none_right_eq_some.mp hstep
    obtain rfl := Option.some_inj.mp hstep
    cases ok with
    | true => exact h.of_same rfl rfl (fun _ hc ↦ hc) fun _ hc ↦ hc
    | false => exact h.of_same rfl rfl (fun _ hc ↦ hc) fun _ hc ↦ hc
  | push room =>
    rw [Listener.step] at hstep
    split at hstep
    · rename_i c _
      obtain rfl := Option.some_inj.mp hstep
      obtain ⟨capacity, cleaner, heq, hcleaner⟩ := l.pushBack_cases c room
      rw [heq]
      refine h.of_same rfl rfl (fun _ hc ↦ hc) fun d hd ↦ ?_
      obtain ⟨hsame, hmoved⟩ := Cleaner.mem_ahead_append hd c
      rcases hcleaner with rfl | rfl
      · exact hsame
      · exact hmoved
    · cases hstep
  | finish c =>
    obtain ⟨-, hstep⟩ := Option.ite_none_right_eq_some.mp hstep
    obtain rfl := Option.some_inj.mp hstep
    exact h.of_same rfl rfl (fun _ ↦ update_true) fun _ hc ↦ hc
  | leave c =>
    obtain ⟨-, hstep⟩ := Option.ite_none_right_eq_some.mp hstep
    obtain rfl := Option.some_inj.mp hstep
    exact h.of_same rfl rfl (fun _ hc ↦ hc) fun _ hc ↦ hc
  | clean => exact h.cleans (cleans_of_clean hstep)
  | close =>
    obtain ⟨closing, rfl⟩ := close_eq_some hstep
    exact h.of_same rfl rfl (fun _ hc ↦ hc) fun _ hc ↦ hc

/-- **A pass frees every connection that had finished when it began**, whatever else happens while it is under way:
connections that are accepted, handlers that finish, and entries that are made. -/
theorem pass_reaps {es fs : List Event} (hs : run step init es = some s) (hbegin : s.cleaner = .look 0)
    (hrun : run step s fs = some l) (hpasses : l.passes = s.passes) (hend : l.cleaner = .top) :
    ∀ c ∈ s.clientThreads, s.isFinished c = true → c ∈ l.freed := by
  have haccounted := accounted_of_run hs
  have hstart : s.Passing s := by
    refine ⟨le_rfl, fun _ hc ↦ hc, fun _ c hc _ ↦ .inr ?_⟩
    rw [ahead_of hbegin]
    exact hc
  have hpassing := (run_inv (P := fun l ↦ l.Accounted ∧ s.Passing l)
    (fun _ _ _ h hstep ↦ ⟨h.1.step hstep, h.2.step h.1 hstep⟩) ⟨haccounted, hstart⟩ hrun).2
  intro c hc hf
  rcases hpassing.freed hpasses c hc hf with hfreed | hahead
  · exact hfreed
  · rw [ahead_of hend] at hahead
    exact absurd hahead List.not_mem_nil

/-- A connection that has finished when a pass begins. -/
def finishing : List Event := [.listen ⟨3, 0, 0, 0⟩, .accept true, .push 3, .finish 0, .leave 0, .clean]

/-- The pass, and another connection that is accepted in the meantime. -/
def reaping : List Event := [.clean, .accept true, .push 0, .clean, .clean, .clean]

/-- The first is freed, and the other is not. -/
theorem pass_reaps_one : ∃ s l, run step init finishing = some s ∧ run step s reaping = some l ∧
    s.clientThreads = [0] ∧ l.clientThreads = [1] ∧ ∀ c ∈ s.clientThreads, s.isFinished c = true → c ∈ l.freed := by
  obtain ⟨s, hs, heq⟩ := Option.map_eq_some_iff.mp
    (show (run step init finishing).map (fun s ↦ (s.cleaner, s.clientThreads, s.passes)) = some (.look 0, [0], 1) by
      decide)
  obtain ⟨l, hl, heq'⟩ := Option.map_eq_some_iff.mp
    (show (run step init (finishing ++ reaping)).map (fun l ↦ (l.cleaner, l.clientThreads, l.passes)) =
      some (.top, [1], 1) by decide)
  obtain ⟨m, hm, hl⟩ := run_append_eq_some.mp hl
  obtain rfl := Option.some_inj.mp (hs.symm.trans hm)
  simp only [Prod.mk.injEq] at heq heq'
  obtain ⟨hbegin, hthreads, hpasses⟩ := heq
  obtain ⟨hend, hleft, hpasses'⟩ := heq'
  exact ⟨s, l, hs, hl, hthreads, hleft, pass_reaps hs hbegin hl (hpasses'.trans hpasses.symm) hend⟩

/-! ## What is never freed -/

/-- A handler that never finishes. -/
theorem unfinished_of_run {c : ℕ} {es : List Event} (hnever : .finish c ∉ es) (hrun : run step init es = some l) :
    l.isFinished c = false := by
  have hok : AllSteps step (fun _ e ↦ e ≠ .finish c) init es :=
    AllSteps.of_mem fun _ _ he heq ↦ hnever (by rwa [heq] at he)
  refine run_inv_of (P := fun l ↦ l.isFinished c = false) ?_ rfl hok hrun
  intro l e l' hl hne hstep
  cases e with
  | listen calls =>
    obtain ⟨-, hstep⟩ := Option.ite_none_right_eq_some.mp hstep
    obtain rfl := Option.some_inj.mp hstep
    rcases l.listen_cases calls with heq | ⟨-, heq⟩
    · rwa [heq]
    · rw [heq]
      exact hl
  | accept ok =>
    obtain ⟨-, hstep⟩ := Option.ite_none_right_eq_some.mp hstep
    obtain rfl := Option.some_inj.mp hstep
    cases ok <;> exact hl
  | push room =>
    rw [step] at hstep
    split at hstep
    · rename_i d _
      obtain rfl := Option.some_inj.mp hstep
      obtain ⟨capacity, cleaner, heq, -⟩ := l.pushBack_cases d room
      rw [heq]
      exact hl
    · cases hstep
  | finish d =>
    obtain ⟨-, hstep⟩ := Option.ite_none_right_eq_some.mp hstep
    obtain rfl := Option.some_inj.mp hstep
    have hd : c ≠ d := fun heq ↦ hne (congrArg Event.finish heq.symm)
    show Function.update l.isFinished d true c = false
    rwa [Function.update_of_ne hd]
  | leave d =>
    obtain ⟨-, hstep⟩ := Option.ite_none_right_eq_some.mp hstep
    obtain rfl := Option.some_inj.mp hstep
    exact hl
  | clean =>
    cases cleans_of_clean hstep with
    | stop | begin | finish | pass | find | free => exact hl
  | close =>
    obtain ⟨closing, rfl⟩ := close_eq_some hstep
    exact hl

/-- **A client of another version is never freed**: if the handlers are those of the server, its thread, its socket
and its flag stay as long as the server runs; and so does its entry, unless the vector is moved under a pass. -/
theorem other_version_kept {ins : ℕ → List Frame} {es : List Event}
    (hhandler : ∀ c, .finish c ∈ es → ∃ calls, handler.Returns clientHandler (ins c) calls true)
    (hrun : run step init es = some l) {c : ℕ} (hc : c < l.accepted) {version : Frame} {rest : List Frame}
    (hins : ins c = version :: rest) (hversion : unwireInt version ≠ protocolVersion) :
    c ∉ l.freed ∧
      (AllSteps step Steady init es → (c ∈ l.clientThreads ∨ l.acceptor = .holding c) ∧ l.cleaner ≠ .lost) := by
  have hnever : .finish c ∉ es := by
    intro hmem
    obtain ⟨calls, hreturns⟩ := hhandler c hmem
    obtain ⟨version', rest', heq, ⟨-, hfalse⟩ | ⟨hsame, -⟩⟩ := returns_clientHandler hreturns
    · cases hfalse
    · obtain ⟨rfl, -⟩ := List.cons.inj (hins.symm.trans heq)
      exact hversion hsame
  have hunfinished := unfinished_of_run hnever hrun
  have hfreed : c ∉ l.freed := fun hmem ↦ by
    have hfinished := ((accounted_of_run hrun).reaped c hmem).1
    rw [hunfinished] at hfinished
    cases hfinished
  refine ⟨hfreed, fun hsteady ↦ ?_⟩
  obtain ⟨haccounted, hplace⟩ := run_inv_of (P := fun l ↦ l.Accounted ∧ l.cleaner ≠ .lost)
    (fun _ _ _ hl hok hs ↦ ⟨hl.1.step hs, ne_lost_of_step hl.2 hok hs⟩) ⟨accounted_init, nofun⟩ hsteady hrun
  have hmem : c ∈ l.freed ++ (l.clientThreads ++ l.hand) := haccounted.perm.mem_iff.mpr (List.mem_range.mpr hc)
  refine ⟨?_, hplace⟩
  rcases List.mem_append.mp ((List.mem_append.mp hmem).resolve_left hfreed) with hentry | hhand
  · exact .inl hentry
  · refine .inr ?_
    rw [hand] at hhand
    split at hhand
    · rename_i d hd
      obtain rfl := List.mem_singleton.mp hhand
      exact hd
    · exact absurd hhand List.not_mem_nil

/-- The handler has returned, and two passes have gone by. -/
def outdated : List Event :=
  [.listen ⟨3, 0, 0, 0⟩, .accept true, .push 0, .leave 0] ++ List.replicate 6 .clean

theorem other_version_kept_seven : ∃ l, run step init outdated = some l ∧ l.passes = 2 ∧ 0 ∉ l.freed ∧
    (AllSteps step Steady init outdated → (0 ∈ l.clientThreads ∨ l.acceptor = .holding 0) ∧ l.cleaner ≠ .lost) ∧
    AllSteps step Steady init outdated := by
  obtain ⟨l, hl, heq⟩ := Option.map_eq_some_iff.mp
    (show (run step init outdated).map (fun l ↦ (l.accepted, l.passes)) = some (1, 2) by decide)
  obtain ⟨haccepted, hpasses⟩ := Prod.mk.inj heq
  let ins : ℕ → List Frame := fun _ ↦ [wireInt 7]
  have hhandler : ∀ c, .finish c ∈ outdated → ∃ calls, handler.Returns clientHandler (ins c) calls true :=
    fun c hc ↦ absurd hc (by simp [outdated])
  obtain ⟨hfreed, hkept⟩ := other_version_kept hhandler hl (haccepted ▸ Nat.one_pos) rfl (by decide)
  exact ⟨l, hl, hpasses, hfreed, hkept, by decide⟩

/-! ## What never ends -/

/-- A listener that listens goes on doing so. -/
structure Listens (l : Listener) : Prop where
  listening : l.listening = true
  /-- So the thread that cleans up does not return. -/
  cleaner : l.cleaner ≠ .returned
  /-- So `close` does not get beyond it. -/
  closing : ∀ k, l.closing ≠ .joinClients k

theorem Listens.listen_eq (h : l.Listens) (calls : Calls) : l.listen calls = (false, l) := by
  rw [listen, if_pos h.listening]

/-- **One event**, after which a call of `close` has not returned. -/
theorem Listens.step (h : l.Listens) (hstep : l.step e = some l') :
    l'.Listens ∧ (l.closing ≠ .idle → l'.closing ≠ .idle) := by
  cases e with
  | listen calls =>
    obtain ⟨-, hstep⟩ := Option.ite_none_right_eq_some.mp hstep
    obtain rfl := Option.some_inj.mp hstep
    rw [h.listen_eq calls]
    exact ⟨h, id⟩
  | accept ok =>
    obtain ⟨-, hstep⟩ := Option.ite_none_right_eq_some.mp hstep
    obtain rfl := Option.some_inj.mp hstep
    cases ok <;> exact ⟨⟨h.listening, h.cleaner, h.closing⟩, id⟩
  | push room =>
    rw [Listener.step] at hstep
    split at hstep
    · rename_i c _
      obtain rfl := Option.some_inj.mp hstep
      obtain ⟨capacity, cleaner, heq, hcleaner⟩ := l.pushBack_cases c room
      rw [heq]
      refine ⟨⟨h.listening, ?_, h.closing⟩, id⟩
      rcases hcleaner with rfl | rfl
      · exact h.cleaner
      · exact l.cleaner.moved_ne_returned h.cleaner
    · cases hstep
  | finish c =>
    obtain ⟨-, hstep⟩ := Option.ite_none_right_eq_some.mp hstep
    obtain rfl := Option.some_inj.mp hstep
    exact ⟨⟨h.listening, h.cleaner, h.closing⟩, id⟩
  | leave c =>
    obtain ⟨-, hstep⟩ := Option.ite_none_right_eq_some.mp hstep
    obtain rfl := Option.some_inj.mp hstep
    exact ⟨⟨h.listening, h.cleaner, h.closing⟩, id⟩
  | clean =>
    cases cleans_of_clean hstep with
    | stop _ hlistening =>
      rw [h.listening] at hlistening
      cases hlistening
    | begin | finish | pass | find | free => exact ⟨⟨h.listening, nofun, h.closing⟩, id⟩
  | close =>
    have hstep : l.close = some l' := hstep
    rw [close] at hstep
    split at hstep
    · rw [if_pos h.listening] at hstep
      obtain rfl := Option.some_inj.mp hstep
      exact ⟨⟨h.listening, h.cleaner, nofun⟩, nofun⟩
    · obtain ⟨-, hstep⟩ := Option.ite_none_right_eq_some.mp hstep
      obtain rfl := Option.some_inj.mp hstep
      exact ⟨⟨h.listening, h.cleaner, nofun⟩, nofun⟩
    · exact absurd (Option.ite_none_right_eq_some.mp hstep).1 h.cleaner
    · rename_i k hclosing
      exact absurd hclosing (h.closing k)

/-- Only `listen` lets it listen. -/
theorem listening_of_step (hstep : l.step e = some l') (hne : ∀ calls, e ≠ .listen calls) :
    l'.listening = l.listening := by
  cases e with
  | listen calls => exact absurd rfl (hne calls)
  | accept ok =>
    obtain ⟨-, hstep⟩ := Option.ite_none_right_eq_some.mp hstep
    obtain rfl := Option.some_inj.mp hstep
    cases ok <;> rfl
  | push room =>
    rw [step] at hstep
    split at hstep
    · rename_i c _
      obtain rfl := Option.some_inj.mp hstep
      obtain ⟨capacity, cleaner, heq, -⟩ := l.pushBack_cases c room
      rw [heq]
    · cases hstep
  | finish c | leave c =>
    obtain ⟨-, hstep⟩ := Option.ite_none_right_eq_some.mp hstep
    obtain rfl := Option.some_inj.mp hstep
    rfl
  | clean =>
    cases cleans_of_clean hstep with
    | stop | begin | finish | pass | find | free => rfl
  | close =>
    obtain ⟨closing, rfl⟩ := close_eq_some hstep
    rfl

/-- Whatever listens at all goes on. -/
theorem listens_of_run {es : List Event} (hrun : run step init es = some l) (hlistening : l.listening = true) :
    l.Listens := by
  refine run_inv (P := fun l ↦ l.listening = true → l.Listens) ?_ nofun hrun hlistening
  intro l e l' hl hstep hlistening'
  cases hlistening : l.listening with
  | true => exact ((hl hlistening).step hstep).1
  | false =>
    by_cases he : ∃ calls, e = .listen calls
    · obtain ⟨calls, rfl⟩ := he
      obtain ⟨hidle, hstep⟩ := Option.ite_none_right_eq_some.mp hstep
      obtain rfl := Option.some_inj.mp hstep
      rcases l.listen_cases calls with heq | ⟨-, heq⟩
      · rw [heq, hlistening] at hlistening'
        cases hlistening'
      · rw [heq]
        exact ⟨rfl, nofun, fun k hk ↦ nomatch hidle.symm.trans hk⟩
    · rw [listening_of_step hstep (not_exists.mp he), hlistening] at hlistening'
      cases hlistening'

/-- **A listener that has stopped accepting is deaf for good**: it accepts no further connection, says that it is
listening, cannot be made to listen, and no call of `close` returns. -/
theorem deaf_for_good {es fs : List Event} (hs : run step init es = some s) (hdeaf : s.acceptor = .returned)
    (hrun : run step s fs = some l) : l.accepted = s.accepted ∧ l.listening = true ∧
      (∀ calls, l.listen calls = (false, l)) ∧ (s.closing ≠ .idle → l.closing ≠ .idle) := by
  have hlistening : s.listening = true := by
    by_contra hnot
    have hidle := (accounted_of_run hs).idle (Bool.eq_false_of_not_eq_true hnot)
    rw [hdeaf] at hidle
    exact nomatch hidle.1
  have hinv := run_inv (P := fun l ↦ l.Listens ∧ l.acceptor = .returned ∧ l.accepted = s.accepted ∧
    (s.closing ≠ .idle → l.closing ≠ .idle)) ?_ ⟨listens_of_run hs hlistening, hdeaf, rfl, id⟩ hrun
  · obtain ⟨hl, -, haccepted, hclosing⟩ := hinv
    exact ⟨haccepted, hl.listening, hl.listen_eq, hclosing⟩
  · rintro l e l' ⟨hl, hacceptor, haccepted, hclosing⟩ hstep
    obtain ⟨hl', hclosing'⟩ := hl.step hstep
    suffices h : l'.acceptor = l.acceptor ∧ l'.accepted = l.accepted from
      ⟨hl', h.1.trans hacceptor, h.2.trans haccepted, fun hne ↦ hclosing' (hclosing hne)⟩
    cases e with
    | listen calls =>
      obtain ⟨-, hstep⟩ := Option.ite_none_right_eq_some.mp hstep
      obtain rfl := Option.some_inj.mp hstep
      rw [hl.listen_eq]
      exact ⟨rfl, rfl⟩
    | accept ok =>
      have hnone := (Option.ite_none_right_eq_some.mp hstep).1
      rw [hacceptor] at hnone
      cases hnone
    | push room =>
      rw [Listener.step, hacceptor] at hstep
      cases hstep
    | finish c | leave c =>
      obtain ⟨-, hstep⟩ := Option.ite_none_right_eq_some.mp hstep
      obtain rfl := Option.some_inj.mp hstep
      exact ⟨rfl, rfl⟩
    | clean =>
      cases cleans_of_clean hstep with
      | stop | begin | finish | pass | find | free => exact ⟨rfl, rfl⟩
    | close =>
      obtain ⟨closing, rfl⟩ := close_eq_some hstep
      exact ⟨rfl, rfl⟩

/-- `accept` fails at once. -/
theorem deaf_for_good_closed : ∃ s l, run step init [.listen ⟨3, 0, 0, 0⟩, .accept false, .close] = some s ∧
    run step s [.close, .clean, .clean, .clean] = some l ∧ s.closing = .joinListen ∧
    l.accepted = s.accepted ∧ l.listening = true ∧ (∀ calls, l.listen calls = (false, l)) ∧
      (s.closing ≠ .idle → l.closing ≠ .idle) := by
  obtain ⟨l, hl, -⟩ := Option.map_eq_some_iff.mp
    (show (run step init ([.listen ⟨3, 0, 0, 0⟩, .accept false, .close] ++ [.close, .clean, .clean, .clean])).map
      (fun l ↦ l.closing) = some .joinCleanup by decide)
  obtain ⟨s, hs, hl⟩ := run_append_eq_some.mp hl
  have hstates : (run step init [.listen ⟨3, 0, 0, 0⟩, .accept false, .close]).map (fun l ↦ (l.acceptor, l.closing)) =
      some (.returned, .joinListen) := by decide
  rw [hs] at hstates
  obtain ⟨hacceptor, hclosing⟩ := Prod.mk.inj (Option.some_inj.mp hstates)
  exact ⟨s, l, hs, hl, hclosing, deaf_for_good hs hacceptor hl⟩

end Listener

end RfcNet
