import Mathlib.Data.Set.Insert
import Mathlib.Order.WellFounded
import RfcNet.Lib.Runs

/-!
# Threads that share data behind locks

`Sync V ρ` is code that takes and gives back locks by hand, reads and changes what they guard, which for the
lock `l` is of type `V l`, and returns a `ρ`.  Each thread of a `Shared` state runs one piece of code after
another, and one event is one step of one thread.

Code is `Orderly` when, on every path through it, it takes locks in ascending order, touches and gives back
what it has, and has given back all of it when it returns.  That is all that is needed: threads whose
code is orderly stay well behaved (`Shared.Orderly.act`), and as long as one of them is unfinished one
of them can move (`Shared.Orderly.progress`).
-/

set_option autoImplicit false

namespace RfcNet
namespace Lib

/-- Code that uses locks. -/
inductive Sync {L : Type} (V : L → Type) (ρ : Type) where
  /-- Return. -/
  | ret (r : ρ)
  /-- Wait for the lock `l`, take it and go on. -/
  | lock (l : L) (k : Sync V ρ)
  /-- Give back the lock `l` and go on. -/
  | unlock (l : L) (k : Sync V ρ)
  /-- Go on in a way that depends on what `l` guards. -/
  | read (l : L) (k : V l → Sync V ρ)
  /-- Change what `l` guards and go on. -/
  | write (l : L) (v : V l) (k : Sync V ρ)

/-- What code does when nobody else does anything: what it returns, and the data after it. -/
def Sync.alone {L : Type} {V : L → Type} {ρ : Type} [DecidableEq L] :
    Sync V ρ → ((l : L) → V l) → ρ × ((l : L) → V l)
  | .ret r, data => (r, data)
  | .lock _ k, data => k.alone data
  | .unlock _ k, data => k.alone data
  | .read l k, data => (k (data l)).alone data
  | .write l v k, data => k.alone (Function.update data l v)

/-- A thread: what is left of the code it is running, if it is running any, the code it will run after
that, and what it has returned so far. -/
structure Thread {L : Type} (V : L → Type) (ρ : Type) where
  /-- What is left of the code that it runs. -/
  code : Option (Sync V ρ)
  /-- The code that it will run. -/
  todo : List (Sync V ρ)
  /-- What it has returned. -/
  returned : List ρ

/-- A thread with nothing left to run. -/
def Thread.Finished {L : Type} {V : L → Type} {ρ : Type} (t : Thread V ρ) : Prop :=
  t.code = none ∧ t.todo = []

/-- A thread that has returned from its code, or has not started. -/
def Thread.Idle {L : Type} {V : L → Type} {ρ : Type} (t : Thread V ρ) : Prop :=
  match t.code with
  | none => True
  | some (.ret _) => True
  | _ => False

/-- The locks, the data and the threads. -/
structure Shared (ι : Type) {L : Type} (V : L → Type) (ρ : Type) where
  /-- Who has a lock. -/
  owner : L → Option ι
  /-- The data. -/
  data : (l : L) → V l
  /-- The threads. -/
  threads : ι → Thread V ρ

namespace Shared

variable {ι L : Type} {V : L → Type} {ρ : Type}

/-- The start: all locks are free, and each thread has something to run. -/
def start (data : (l : L) → V l) (todo : ι → List (Sync V ρ)) : Shared ι V ρ :=
  ⟨fun _ ↦ none, data, fun i ↦ ⟨none, todo i, []⟩⟩

/-- What the thread `i` has. -/
def held (s : Shared ι V ρ) (i : ι) : Set L := {l | s.owner l = some i}

/-- The thread `i` is about to take a lock that it has already, to give back one that it has not, or to
touch what such a lock guards. -/
def Misuses (s : Shared ι V ρ) (i : ι) : Prop :=
  match (s.threads i).code with
  | some (.lock l _) => l ∈ s.held i
  | some (.unlock l _) => l ∉ s.held i
  | some (.read l _) => l ∉ s.held i
  | some (.write l _ _) => l ∉ s.held i
  | _ => False

section
variable [DecidableEq L] {s : Shared ι V ρ} {i j : ι} {l : L} {o : Option ι}

/-- The lock `l` has the owner `o`. -/
def own (s : Shared ι V ρ) (l : L) (o : Option ι) : Shared ι V ρ :=
  { s with owner := Function.update s.owner l o }

theorem mem_held_own {m : L} :
    m ∈ (s.own l o).held j ↔ if m = l then o = some j else m ∈ s.held j := by
  show Function.update s.owner l o m = some j ↔ _
  rw [Function.update_apply]
  split <;> rfl

theorem held_own_self : (s.own l (some i)).held i = insert l (s.held i) := by
  ext m
  rw [mem_held_own, Set.mem_insert_iff]
  by_cases h : m = l <;> simp [h]

theorem held_own (h : o ≠ some j) : (s.own l o).held j = s.held j \ {l} := by
  ext m
  rw [mem_held_own, Set.mem_sdiff_singleton]
  by_cases hml : m = l <;> simp [h, hml]

/-- Nobody else notices who has a lock that they have not. -/
theorem held_own_of_notMem (h : o ≠ some j) (hl : l ∉ s.held j) : (s.own l o).held j = s.held j := by
  rw [held_own h, Set.sdiff_singleton_eq_self hl]

end

variable [DecidableEq ι]

/-- The thread `i` goes on as `t`. -/
def goOn (s : Shared ι V ρ) (i : ι) (t : Thread V ρ) : Shared ι V ρ :=
  { s with threads := Function.update s.threads i t }

@[simp] theorem held_goOn {s : Shared ι V ρ} {i j : ι} {t : Thread V ρ} :
    (s.goOn i t).held j = s.held j := rfl

@[simp] theorem threads_goOn_self {s : Shared ι V ρ} {i : ι} {t : Thread V ρ} :
    (s.goOn i t).threads i = t := Function.update_self ..

theorem threads_goOn_of_ne {s : Shared ι V ρ} {i j : ι} {t : Thread V ρ} (h : j ≠ i) :
    (s.goOn i t).threads j = s.threads j :=
  Function.update_of_ne h ..

variable [DecidableEq L]

/-- One step of the thread `i`.  A lock that somebody has, whoever it is, cannot be taken. -/
def act (s : Shared ι V ρ) (i : ι) : Option (Shared ι V ρ) :=
  let t := s.threads i
  match t.code with
  | none =>
    match t.todo with
    | [] => none
    | c :: rest => some (s.goOn i { t with code := some c, todo := rest })
  | some (.ret r) => some (s.goOn i { t with code := none, returned := t.returned ++ [r] })
  | some (.lock l k) =>
    if s.owner l = none then some ((s.own l (some i)).goOn i { t with code := some k }) else none
  | some (.unlock l k) => some ((s.own l none).goOn i { t with code := some k })
  | some (.read l k) => some (s.goOn i { t with code := some (k (s.data l)) })
  | some (.write l v k) =>
    some ({ s with data := Function.update s.data l v }.goOn i { t with code := some k })

/-- What a step of the thread `i` can be. -/
inductive Act (s : Shared ι V ρ) (i : ι) : Shared ι V ρ → Prop where
  | enter {c : Sync V ρ} {rest : List (Sync V ρ)} (hcode : (s.threads i).code = none)
      (htodo : (s.threads i).todo = c :: rest) :
      Act s i (s.goOn i { s.threads i with code := some c, todo := rest })
  | ret {r : ρ} (hcode : (s.threads i).code = some (.ret r)) :
      Act s i (s.goOn i { s.threads i with code := none, returned := (s.threads i).returned ++ [r] })
  | lock {l : L} {k : Sync V ρ} (hcode : (s.threads i).code = some (.lock l k))
      (hfree : s.owner l = none) :
      Act s i ((s.own l (some i)).goOn i { s.threads i with code := some k })
  | unlock {l : L} {k : Sync V ρ} (hcode : (s.threads i).code = some (.unlock l k)) :
      Act s i ((s.own l none).goOn i { s.threads i with code := some k })
  | read {l : L} {k : V l → Sync V ρ} (hcode : (s.threads i).code = some (.read l k)) :
      Act s i (s.goOn i { s.threads i with code := some (k (s.data l)) })
  | write {l : L} {v : V l} {k : Sync V ρ} (hcode : (s.threads i).code = some (.write l v k)) :
      Act s i ({ s with data := Function.update s.data l v }.goOn i
        { s.threads i with code := some k })

/-- **Inversion of a step.** -/
theorem act_eq_some_iff {s s' : Shared ι V ρ} {i : ι} : s.act i = some s' ↔ s.Act i s' := by
  constructor
  · intro h
    rw [act] at h
    split at h
    · rename_i hcode
      split at h
      · cases h
      · rename_i htodo
        exact Option.some_inj.mp h ▸ .enter hcode htodo
    · rename_i hcode
      exact Option.some_inj.mp h ▸ .ret hcode
    · rename_i hcode
      split at h
      · rename_i hfree
        exact Option.some_inj.mp h ▸ .lock hcode hfree
      · cases h
    · rename_i hcode
      exact Option.some_inj.mp h ▸ .unlock hcode
    · rename_i hcode
      exact Option.some_inj.mp h ▸ .read hcode
    · rename_i hcode
      exact Option.some_inj.mp h ▸ .write hcode
  · intro h
    cases h with
    | enter hcode htodo => simp only [act, hcode, htodo]
    | ret hcode => simp only [act, hcode]
    | lock hcode hfree => simp only [act, hcode, hfree, if_true]
    | unlock hcode => simp only [act, hcode]
    | read hcode => simp only [act, hcode]
    | write hcode => simp only [act, hcode]

/-- A thread that runs code can move, or waits for a lock that somebody has. -/
theorem act_or_waits (s : Shared ι V ρ) {i : ι} {c : Sync V ρ}
    (hcode : (s.threads i).code = some c) :
    (∃ s', s.act i = some s') ∨ ∃ l k j, c = .lock l k ∧ s.owner l = some j := by
  cases c with
  | ret r => exact .inl ⟨_, act_eq_some_iff.mpr (.ret hcode)⟩
  | lock l k =>
    cases hfree : s.owner l with
    | none => exact .inl ⟨_, act_eq_some_iff.mpr (.lock hcode hfree)⟩
    | some j => exact .inr ⟨l, k, j, rfl, hfree⟩
  | unlock l k => exact .inl ⟨_, act_eq_some_iff.mpr (.unlock hcode)⟩
  | read l k => exact .inl ⟨_, act_eq_some_iff.mpr (.read hcode)⟩
  | write l v k => exact .inl ⟨_, act_eq_some_iff.mpr (.write hcode)⟩

/-- **All is well with the locks.** -/
structure Sound (s : Shared ι V ρ) : Prop where
  /-- There is no deadlock. -/
  progress : (∃ i, ¬(s.threads i).Finished) → ∃ i s', s.act i = some s'
  /-- Nobody misuses a lock. -/
  proper : ∀ i, ¬s.Misuses i
  /-- A thread that has returned from its code has no lock. -/
  clean : ∀ i, (s.threads i).Idle → s.held i = ∅

end Shared

/-! ## Orderly code -/

section
variable {L : Type} {V : L → Type} {ρ : Type} [LT L]

/-- Code to be run by a thread that has the locks `held` keeps the order of the locks. -/
def Sync.Orderly : Set L → Sync V ρ → Prop
  | held, .ret _ => held = ∅
  | held, .lock l k => (∀ m ∈ held, m < l) ∧ k.Orderly (insert l held)
  | held, .unlock l k => l ∈ held ∧ k.Orderly (held \ {l})
  | held, .read l k => l ∈ held ∧ ∀ v, (k v).Orderly held
  | held, .write l _ k => l ∈ held ∧ k.Orderly held

/-- So does all that a thread runs and will run. -/
structure Thread.Orderly (held : Set L) (t : Thread V ρ) : Prop where
  /-- What it runs. -/
  code : t.code.elim (held = ∅) (Sync.Orderly held)
  /-- What it will run. -/
  todo : ∀ c ∈ t.todo, c.Orderly ∅

namespace Shared

variable {ι : Type}

/-- So do all threads. -/
def Orderly (s : Shared ι V ρ) : Prop := ∀ i, (s.threads i).Orderly (s.held i)

theorem Orderly.start {data : (l : L) → V l} {todo : ι → List (Sync V ρ)}
    (h : ∀ i, ∀ c ∈ todo i, c.Orderly ∅) : (start data todo).Orderly := by
  intro i
  refine ⟨Set.eq_empty_of_forall_notMem fun l hl ↦ ?_, h i⟩
  cases hl

/-- A thread that waits for a lock has only lower ones. -/
theorem Orderly.lt_of_lock {s : Shared ι V ρ} {i : ι} {l m : L} {k : Sync V ρ} (h : s.Orderly)
    (hcode : (s.threads i).code = some (.lock l k)) (hm : m ∈ s.held i) : m < l := by
  have hrun := (h i).code
  rw [hcode] at hrun
  exact hrun.1 m hm

variable [DecidableEq ι]

/-- A step of the thread `i` that changes what it has and what it runs, and nothing for anybody else. -/
theorem Orderly.goOn {s s' : Shared ι V ρ} {i : ι} {t : Thread V ρ} (h : s.Orderly)
    (hthreads : s'.threads = s.threads) (hothers : ∀ j ≠ i, s'.held j = s.held j)
    (ht : t.Orderly (s'.held i)) : (s'.goOn i t).Orderly := by
  intro j
  by_cases hij : j = i
  · subst hij
    rwa [threads_goOn_self, held_goOn]
  · rw [threads_goOn_of_ne hij, held_goOn, hthreads, hothers j hij]
    exact h j

variable [DecidableEq L]

/-- **One step keeps the order.** -/
theorem Orderly.act {s s' : Shared ι V ρ} {i : ι} (h : s.Orderly) (hs : s.act i = some s') :
    s'.Orderly := by
  obtain ⟨hrun, hwill⟩ := h i
  cases act_eq_some_iff.mp hs with
  | @enter c rest hcode htodo =>
    rw [hcode] at hrun
    rw [htodo] at hwill
    refine h.goOn rfl (fun _ _ ↦ rfl) ⟨?_, fun c' hc' ↦ hwill c' (List.mem_cons_of_mem _ hc')⟩
    rw [show s.held i = ∅ from hrun]
    exact hwill c List.mem_cons_self
  | ret hcode =>
    rw [hcode] at hrun
    exact h.goOn rfl (fun _ _ ↦ rfl) ⟨hrun, hwill⟩
  | @lock l k hcode hfree =>
    rw [hcode] at hrun
    refine h.goOn rfl (fun j hj ↦ ?_) ⟨?_, hwill⟩
    · refine held_own_of_notMem (fun heq ↦ hj (Option.some_inj.mp heq).symm) fun hl ↦ ?_
      rw [show s.owner l = some j from hl] at hfree
      cases hfree
    · rw [held_own_self]
      exact hrun.2
  | @unlock l k hcode =>
    rw [hcode] at hrun
    refine h.goOn rfl (fun j hj ↦ ?_) ⟨?_, hwill⟩
    · -- The lock is the thread's own, so that nobody else has it.
      refine held_own_of_notMem (by simp) fun hl ↦ hj ?_
      exact Option.some_inj.mp (hl.symm.trans hrun.1)
    · rw [held_own (by simp)]
      exact hrun.2
  | read hcode =>
    rw [hcode] at hrun
    exact h.goOn rfl (fun _ _ ↦ rfl) ⟨hrun.2 _, hwill⟩
  | write hcode =>
    rw [hcode] at hrun
    exact h.goOn rfl (fun _ _ ↦ rfl) ⟨hrun.2, hwill⟩

/-- **Where a lock is taken, somebody can move**: its owner, or whoever has the lock that its owner waits
for, which is a higher one, and so on. -/
theorem Orderly.act_of_owner [WellFoundedGT L] {s : Shared ι V ρ} (h : s.Orderly) {l : L} {j : ι}
    (hl : s.owner l = some j) : ∃ i s', s.act i = some s' := by
  induction l using WellFoundedGT.induction generalizing j with
  | ind l ih =>
    cases hcode : (s.threads j).code with
    | none =>
      have hrun := (h j).code
      rw [hcode] at hrun
      exact absurd (show l ∈ s.held j from hl) (by rw [show s.held j = ∅ from hrun]; simp)
    | some c =>
      rcases s.act_or_waits hcode with hact | ⟨m, k, i, rfl, hm⟩
      · exact ⟨j, hact⟩
      · exact ih m (h.lt_of_lock hcode hl) hm

/-- **There is no deadlock.** -/
theorem Orderly.progress [WellFoundedGT L] {s : Shared ι V ρ} (h : s.Orderly) {i : ι}
    (hi : ¬(s.threads i).Finished) : ∃ i s', s.act i = some s' := by
  cases hcode : (s.threads i).code with
  | none =>
    cases htodo : (s.threads i).todo with
    | nil => exact absurd ⟨hcode, htodo⟩ hi
    | cons c rest => exact ⟨i, _, act_eq_some_iff.mpr (.enter hcode htodo)⟩
  | some c =>
    rcases s.act_or_waits hcode with hact | ⟨l, k, j, rfl, hl⟩
    · exact ⟨i, hact⟩
    · exact h.act_of_owner hl

/-- **Orderly threads use their locks well.** -/
theorem Orderly.sound {L : Type} {V : L → Type} [DecidableEq L] [Preorder L]
    [WellFoundedGT L] {s : Shared ι V ρ} (h : s.Orderly) : s.Sound := by
  refine ⟨fun ⟨i, hi⟩ ↦ h.progress hi, fun i hmisuse ↦ ?_, fun i hidle ↦ ?_⟩
  · have hrun := (h i).code
    rw [Misuses] at hmisuse
    split at hmisuse
    · rename_i l k hcode
      exact lt_irrefl l (h.lt_of_lock hcode hmisuse)
    · rename_i l k hcode
      rw [hcode] at hrun
      exact hmisuse hrun.1
    · rename_i l k hcode
      rw [hcode] at hrun
      exact hmisuse hrun.1
    · rename_i l v k hcode
      rw [hcode] at hrun
      exact hmisuse hrun.1
    · exact hmisuse
  · have hrun := (h i).code
    rw [Thread.Idle] at hidle
    split at hidle
    · rename_i hcode
      rwa [hcode] at hrun
    · rename_i r hcode
      rwa [hcode] at hrun
    · cases hidle

end Shared

end

end Lib
end RfcNet
