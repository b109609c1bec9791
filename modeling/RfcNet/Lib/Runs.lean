import Mathlib.Logic.Relation
import Mathlib.Tactic.Common

/-!
# Runs of a system of steps

A system is a partial function `step : S → E → Option S`: in the state `s` the event `e` is either
impossible or leads to one state.  A run is a list of events, and "every interleaving" of the
parties of a system is "every list of events" of it.

Three things are said about runs here.

* `run_inv`: what holds at the start and is kept by every step holds at the end.
* `run_inv_of`: the same for a run whose steps all satisfy a side condition, `AllSteps`.  The
  condition may look at the state a step is taken in.
* `AllStates`: a property of every state a run goes through, which is what an invariant is worth
  to somebody watching the run rather than its end.
-/

set_option autoImplicit false

namespace RfcNet
namespace Lib

variable {S E : Type*} (step : S → E → Option S)

/-- The state after the events `es`, if each of them is possible in turn. -/
def run : S → List E → Option S
  | s, [] => some s
  | s, e :: es => (step s e).bind fun s' ↦ run s' es

/-- The condition `ok` holds of every step of the run, in the state it is taken in. -/
def AllSteps (ok : S → E → Prop) : S → List E → Prop
  | _, [] => True
  | s, e :: es => ∀ s', step s e = some s' → ok s e ∧ AllSteps ok s' es

/-- The property `P` holds in every state the run goes through, the first and the last included. -/
def AllStates (P : S → Prop) : S → List E → Prop
  | s, [] => P s
  | s, e :: es => P s ∧ ∀ s', step s e = some s' → AllStates P s' es

/-- `t` can be reached from `s`. -/
def Reaches (s t : S) : Prop := ∃ es, run step s es = some t

variable {step}

@[simp] theorem run_nil (s : S) : run step s [] = some s := rfl

theorem run_cons_eq_some {s t : S} {e : E} {es : List E} :
    run step s (e :: es) = some t ↔ ∃ s', step s e = some s' ∧ run step s' es = some t := by
  rw [run, Option.bind_eq_some_iff]

theorem run_append_eq_some {s t : S} {es fs : List E} :
    run step s (es ++ fs) = some t ↔ ∃ m, run step s es = some m ∧ run step m fs = some t := by
  induction es generalizing s with
  | nil => simp
  | cons e es ih =>
    rw [List.cons_append, run_cons_eq_some]
    constructor
    · rintro ⟨s', hs, h⟩
      obtain ⟨m, hm, ht⟩ := ih.mp h
      exact ⟨m, run_cons_eq_some.mpr ⟨s', hs, hm⟩, ht⟩
    · rintro ⟨m, hm, ht⟩
      obtain ⟨s', hs, hm⟩ := run_cons_eq_some.mp hm
      exact ⟨s', hs, ih.mpr ⟨m, hm, ht⟩⟩

theorem Reaches.refl (s : S) : Reaches step s s := ⟨[], rfl⟩

theorem Reaches.head {s m t : S} {e : E} (h : step s e = some m) (ht : Reaches step m t) :
    Reaches step s t := by
  obtain ⟨es, hes⟩ := ht
  exact ⟨e :: es, run_cons_eq_some.mpr ⟨m, h, hes⟩⟩

theorem Reaches.trans {s m t : S} (h : Reaches step s m) (ht : Reaches step m t) :
    Reaches step s t := by
  obtain ⟨es, hes⟩ := h
  obtain ⟨fs, hfs⟩ := ht
  exact ⟨es ++ fs, run_append_eq_some.mpr ⟨m, hes, hfs⟩⟩

theorem reaches_iff_reflTransGen {s t : S} :
    Reaches step s t ↔ Relation.ReflTransGen (fun a b ↦ ∃ e, step a e = some b) s t := by
  constructor
  · rintro ⟨es, hes⟩
    induction es generalizing s with
    | nil => rw [run_nil, Option.some_inj] at hes; exact hes ▸ .refl
    | cons e es ih =>
      obtain ⟨m, hm, hes⟩ := run_cons_eq_some.mp hes
      exact .head ⟨e, hm⟩ (ih hes)
  · intro h
    induction h using Relation.ReflTransGen.head_induction_on with
    | refl => exact .refl t
    | head hm _ ih => obtain ⟨e, he⟩ := hm; exact .head he ih

/-! ## Systems whose parties do not get in each other's way -/

/-- Two different events possible in one state can be taken in either order, to the same effect. -/
def Diamond (step : S → E → Option S) : Prop :=
  ∀ s e f t u, e ≠ f → step s e = some t → step s f = some u →
    ∃ v, step t f = some v ∧ step u e = some v

/-- **Confluence**: whatever two runs from one state did, they can be continued to meet. -/
theorem Diamond.join (h : Diamond step) {s t u : S} (ht : Reaches step s t)
    (hu : Reaches step s u) : ∃ v, Reaches step t v ∧ Reaches step u v := by
  rw [reaches_iff_reflTransGen] at ht hu
  obtain ⟨v, htv, huv⟩ := Relation.church_rosser (fun a b c ⟨e, hb⟩ ⟨f, hc⟩ ↦ by
    by_cases hef : e = f
    · subst hef
      obtain rfl : b = c := Option.some_inj.mp (hb.symm.trans hc)
      exact ⟨b, .refl, .refl⟩
    · obtain ⟨d, hbd, hcd⟩ := h a e f b c hef hb hc
      exact ⟨d, .single ⟨f, hbd⟩, .single ⟨e, hcd⟩⟩) ht hu
  exact ⟨v, reaches_iff_reflTransGen.mpr htv, reaches_iff_reflTransGen.mpr huv⟩

/-- Nothing can happen in `s`. -/
def Stuck (step : S → E → Option S) (s : S) : Prop := ∀ e, step s e = none

theorem Stuck.eq_of_reaches {s t : S} (h : Stuck step s) (ht : Reaches step s t) : s = t := by
  obtain ⟨es, hes⟩ := ht
  cases es with
  | nil => exact Option.some_inj.mp hes
  | cons e es =>
    obtain ⟨m, hm, -⟩ := run_cons_eq_some.mp hes
    exact absurd hm (by simp [h e])

/-- **One finished run speaks for all of them**: if some run ends where nothing more can happen,
every other run is on its way there. -/
theorem Diamond.reaches_stuck (h : Diamond step) {s t u : S} (ht : Reaches step s t)
    (hst : Stuck step t) (hu : Reaches step s u) : Reaches step u t := by
  obtain ⟨v, htv, huv⟩ := h.join ht hu
  exact hst.eq_of_reaches htv ▸ huv

/-- A finished run can begin with any event that is possible, and is then no longer. -/
theorem Diamond.finish_after (h : Diamond step) {s t s' : S} {e : E} {es : List E}
    (ht : run step s es = some t) (hst : Stuck step t) (he : step s e = some s') :
    ∃ es', run step s' es' = some t ∧ es.length = es'.length + 1 := by
  induction es generalizing s s' with
  | nil =>
    obtain rfl : s = t := Option.some_inj.mp ht
    exact absurd he (by simp [hst e])
  | cons f es ih =>
    obtain ⟨m, hm, hes⟩ := run_cons_eq_some.mp ht
    by_cases hef : e = f
    · subst hef
      obtain rfl : s' = m := Option.some_inj.mp (he.symm.trans hm)
      exact ⟨es, hes, rfl⟩
    · -- The two events are swapped, and what is left of the run begins with the other one.
      obtain ⟨v, hs'v, hmv⟩ := h s e f s' m hef he hm
      obtain ⟨es', hes', hlen⟩ := ih hes hmv
      exact ⟨f :: es', run_cons_eq_some.mpr ⟨v, hs'v, hes'⟩, by rw [List.length_cons, hlen]; rfl⟩

/-- **All finished runs have one length**: a run that is under way can be completed to the same end in
exactly the steps that are left. -/
theorem Diamond.finish (h : Diamond step) {s t u : S} {es fs : List E}
    (ht : run step s es = some t) (hst : Stuck step t) (hu : run step s fs = some u) :
    ∃ gs, run step u gs = some t ∧ es.length = fs.length + gs.length := by
  induction fs generalizing s es with
  | nil =>
    obtain rfl : s = u := Option.some_inj.mp hu
    exact ⟨es, ht, (Nat.zero_add _).symm⟩
  | cons f fs ih =>
    obtain ⟨m, hm, hfs⟩ := run_cons_eq_some.mp hu
    obtain ⟨es', hes', hlen⟩ := h.finish_after ht hst hm
    obtain ⟨gs, hgs, hlen'⟩ := ih hes' hfs
    exact ⟨gs, hgs, by rw [hlen, hlen', List.length_cons]; omega⟩

/-- Every run from `s` is at most so long, and where it cannot be continued it has come to `t`. -/
def EndsIn (step : S → E → Option S) (s t : S) : Prop :=
  Stuck step t ∧ ∃ bound, ∀ es u, run step s es = some u → es.length ≤ bound ∧ Reaches step u t

theorem Diamond.endsIn (h : Diamond step) {s t : S} (ht : Reaches step s t) (hst : Stuck step t) :
    EndsIn step s t := by
  obtain ⟨es, hes⟩ := ht
  refine ⟨hst, es.length, fun fs u hu ↦ ?_⟩
  obtain ⟨gs, hgs, hlen⟩ := h.finish hes hst hu
  exact ⟨by omega, gs, hgs⟩

theorem EndsIn.eq_of_stuck {s t u : S} (h : EndsIn step s t) (hu : Reaches step s u)
    (hst : Stuck step u) : u = t := by
  obtain ⟨es, hes⟩ := hu
  obtain ⟨-, bound, hbound⟩ := h
  exact hst.eq_of_reaches (hbound es u hes).2

/-! ## Invariants -/

/-- **The run lemma**, with a side condition on the steps: what a step that satisfies `ok` keeps,
a run of such steps keeps. -/
theorem run_inv_of {ok : S → E → Prop} {P : S → Prop}
    (hstep : ∀ s e s', P s → ok s e → step s e = some s' → P s') {s t : S} {es : List E}
    (hs : P s) (hok : AllSteps step ok s es) (h : run step s es = some t) : P t := by
  induction es generalizing s with
  | nil => rw [run_nil, Option.some_inj] at h; exact h ▸ hs
  | cons e es ih =>
    obtain ⟨s', hs', h⟩ := run_cons_eq_some.mp h
    obtain ⟨he, hes⟩ := hok s' hs'
    exact ih (hstep s e s' hs he hs') hes h

theorem allSteps_true (s : S) (es : List E) : AllSteps step (fun _ _ ↦ True) s es := by
  induction es generalizing s with
  | nil => trivial
  | cons e es ih => exact fun s' _ ↦ ⟨trivial, ih s'⟩

theorem AllSteps.of_mem {ok : S → E → Prop} {s : S} {es : List E} (h : ∀ s, ∀ e ∈ es, ok s e) :
    AllSteps step ok s es := by
  induction es generalizing s with
  | nil => trivial
  | cons e es ih =>
    exact fun s' _ ↦ ⟨h s e List.mem_cons_self, ih fun s' f hf ↦ h s' f (List.mem_cons_of_mem e hf)⟩

/-- **The run lemma**: what every step keeps, a run keeps. -/
theorem run_inv {P : S → Prop} (hstep : ∀ s e s', P s → step s e = some s' → P s') {s t : S}
    {es : List E} (hs : P s) (h : run step s es = some t) : P t :=
  run_inv_of (fun s e s' hP _ ↦ hstep s e s' hP) hs (allSteps_true s es) h

theorem Reaches.inv {P : S → Prop} (hstep : ∀ s e s', P s → step s e = some s' → P s') {s t : S}
    (h : Reaches step s t) (hs : P s) : P t := by
  obtain ⟨es, hes⟩ := h
  exact run_inv hstep hs hes

instance decidableAllSteps {ok : S → E → Prop} [∀ s e, Decidable (ok s e)] :
    (s : S) → (es : List E) → Decidable (AllSteps step ok s es)
  | _, [] => .isTrue trivial
  | s, e :: es =>
    match h : step s e with
    | none => .isTrue fun s' hs' ↦ absurd (h.symm.trans hs') (by simp)
    | some s' =>
      have : Decidable (AllSteps step ok s' es) := decidableAllSteps s' es
      decidable_of_iff (ok s e ∧ AllSteps step ok s' es) (by simp [AllSteps, h])

theorem AllSteps.of_append {ok : S → E → Prop} {s : S} {es fs : List E}
    (h : AllSteps step ok s (es ++ fs)) : AllSteps step ok s es := by
  induction es generalizing s with
  | nil => trivial
  | cons e es ih => exact fun s' hs' ↦ ⟨(h s' hs').1, ih (h s' hs').2⟩

theorem AllStates.last {P : S → Prop} {s t : S} {es : List E} (hall : AllStates step P s es)
    (h : run step s es = some t) : P t := by
  induction es generalizing s with
  | nil => rw [run_nil, Option.some_inj] at h; exact h ▸ hall
  | cons e es ih =>
    obtain ⟨m, hm, hrest⟩ := run_cons_eq_some.mp h
    exact ih (hall.2 m hm) hrest

/-- Along a run whose steps satisfy `ok`, an invariant holds in every state. -/
theorem AllStates.of_steps {ok : S → E → Prop} {P Q : S → Prop}
    (hstep : ∀ s e s', P s → ok s e → step s e = some s' → P s') (hPQ : ∀ s, P s → Q s)
    {s : S} {es : List E} (hs : P s) (hok : AllSteps step ok s es) : AllStates step Q s es := by
  induction es generalizing s with
  | nil => exact hPQ s hs
  | cons e es ih =>
    exact ⟨hPQ s hs, fun s' hs' ↦ ih (hstep s e s' hs (hok s' hs').1 hs') (hok s' hs').2⟩

/-- Conversely, if an invariant `I` of the system turns a bad step into a bad state, a run all of
whose states are good took good steps only. -/
theorem AllStates.steps {ok : S → E → Prop} {I P : S → Prop}
    (hI : ∀ s e s', I s → step s e = some s' → I s')
    (hbad : ∀ s e s', I s → step s e = some s' → P s → P s' → ok s e)
    {s : S} {es : List E} (hs : I s) (hall : AllStates step P s es) : AllSteps step ok s es := by
  induction es generalizing s with
  | nil => trivial
  | cons e es ih =>
    intro m hm
    have hrest : AllStates step P m es := hall.2 m hm
    have hPm : P m := by
      cases es with
      | nil => exact hrest
      | cons => exact hrest.1
    exact ⟨hbad s e m hs hm hall.1 hPm, ih (hI s e m hs hm) hrest⟩

end Lib
end RfcNet
