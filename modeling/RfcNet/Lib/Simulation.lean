import RfcNet.Lib.Duet

/-!
# Simulations that make progress

A system simulates another one if each of its steps is followed by the other with one step at least,
and if it is stuck only where the other one is.  Then it cannot run for longer than the other one, and
where it ends the other one has ended too (`Simulates.ends`).
-/

set_option autoImplicit false

namespace RfcNet
namespace Lib

variable {σ ε τ ζ : Type*}

/-- `t` is reached from `s` in one step or more. -/
def Advances (step : σ → ε → Option σ) (s t : σ) : Prop :=
  ∃ e m, step s e = some m ∧ Reaches step m t

theorem Advances.reaches {step : σ → ε → Option σ} {s t : σ} (h : Advances step s t) :
    Reaches step s t := by
  obtain ⟨e, m, hm, ht⟩ := h
  exact .head hm ht

theorem Advances.of_step {step : σ → ε → Option σ} {s t : σ} {e : ε} (h : step s e = some t) :
    Advances step s t := ⟨e, t, h, .refl t⟩

theorem Advances.trans {step : σ → ε → Option σ} {s m t : σ} (h : Advances step s m)
    (ht : Reaches step m t) : Advances step s t := by
  obtain ⟨e, n, hn, hm⟩ := h
  exact ⟨e, n, hn, hm.trans ht⟩

/-- There is a run for it that is not empty. -/
theorem Advances.exists_run {step : σ → ε → Option σ} {s t : σ} (h : Advances step s t) :
    ∃ es, run step s es = some t ∧ 1 ≤ es.length := by
  obtain ⟨e, m, hm, es, hes⟩ := h
  exact ⟨e :: es, run_cons_eq_some.mpr ⟨m, hm, hes⟩, Nat.le_add_left 1 es.length⟩

/-- An endpoint that does something on its own advances the system it is in. -/
theorem Endpoint.advances_of_runs {S : Sig} {P : Proc S} {E : Env S} {σ ε : Type} {step : σ → ε → Option σ}
    {sys : Endpoint P E → List Frame → List Frame → σ}
    (hstep : ∀ (e e' : Endpoint P E) (inbox rest out sent : List Frame),
      e.act inbox = some (e', rest, out) → ∃ a, step (sys e inbox sent) a = some (sys e' rest (sent ++ out)))
    {p q : P.Code} {ins outs : List Frame} {calls : List S.Call} {env env' : E.State}
    (h : p.Runs ins calls outs q) (henv : E.Answers env calls env')
    (hmoves : ins ≠ [] ∨ calls ≠ [] ∨ outs ≠ []) (log : List S.Call) (inbox sent : List Frame) :
    Advances step (sys ⟨p, env, log⟩ (ins ++ inbox) sent)
      (sys ⟨q, env', log ++ calls⟩ inbox (sent ++ outs)) := by
  cases h with
  | refl => simp at hmoves
  | @send f _ _ _ outs _ h =>
    obtain ⟨a, ha⟩ := hstep _ _ _ _ _ sent (act_eq_some_iff.mpr .send)
    rw [List.append_cons sent f outs]
    exact ⟨a, _, ha, reaches_of_runs step sys hstep h henv log inbox _⟩
  | recv hlen h =>
    subst hlen
    obtain ⟨a, ha⟩ := hstep _ _ _ _ _ sent (act_eq_some_iff.mpr .recv)
    rw [List.append_nil] at ha
    exact ⟨a, _, ha, reaches_of_runs step sys hstep h henv log inbox sent⟩
  | @call op r _ _ calls _ _ h =>
    obtain ⟨m, hm, henv⟩ := henv
    obtain ⟨a, ha⟩ := hstep _ _ _ _ _ sent (act_eq_some_iff.mpr (.call hm))
    rw [List.append_nil] at ha
    rw [List.append_cons log _ calls]
    exact ⟨a, _, ha, reaches_of_runs step sys hstep h henv _ inbox sent⟩

/-- Each step of the one system is followed by the other. -/
structure Simulates (step : σ → ε → Option σ) (step' : τ → ζ → Option τ) (R : σ → τ → Prop) : Prop where
  /-- The other one takes a step at least. -/
  follows : ∀ {s s' : σ} {t : τ} {e : ε}, R s t → step s e = some s' → ∃ t', R s' t' ∧ Advances step' t t'
  /-- The one is stuck only where the other one is. -/
  stuck : ∀ {s : σ} {t : τ}, R s t → Stuck step s → Stuck step' t

variable {step : σ → ε → Option σ} {step' : τ → ζ → Option τ} {R : σ → τ → Prop}

/-- **A run is followed** by one that is no shorter. -/
theorem Simulates.run (h : Simulates step step' R) {s u : σ} {t : τ} {es : List ε} (hR : R s t)
    (hrun : run step s es = some u) :
    ∃ v fs, R u v ∧ Lib.run step' t fs = some v ∧ es.length ≤ fs.length := by
  induction es generalizing s t with
  | nil =>
    obtain rfl : s = u := Option.some_inj.mp hrun
    exact ⟨t, [], hR, rfl, Nat.le_refl _⟩
  | cons e es ih =>
    obtain ⟨s', hs', hes⟩ := run_cons_eq_some.mp hrun
    obtain ⟨t', hR', hadv⟩ := h.follows hR hs'
    obtain ⟨fs, hfs, hlen⟩ := hadv.exists_run
    obtain ⟨v, gs, hv, hgs, hlen'⟩ := ih hR' hes
    refine ⟨v, fs ++ gs, hv, run_append_eq_some.mpr ⟨t', hfs, hgs⟩, ?_⟩
    rw [List.length_cons, List.length_append]
    omega

/-- **A simulation ends where the other system ends**: its runs are bounded, each of its states goes with
one on the way there, and when it is stuck, with the end itself. -/
theorem Simulates.ends (h : Simulates step step' R) {s : σ} {t z : τ} (hR : R s t)
    (hend : EndsIn step' t z) : ∃ bound, ∀ es u, Lib.run step s es = some u → es.length ≤ bound ∧
      ∃ v, R u v ∧ Reaches step' v z ∧ (Stuck step u → v = z) := by
  obtain ⟨-, bound, hbound⟩ := hend
  refine ⟨bound, fun es u hrun ↦ ?_⟩
  obtain ⟨v, fs, hv, hfs, hlen⟩ := h.run hR hrun
  obtain ⟨hle, hz⟩ := hbound fs v hfs
  exact ⟨Nat.le_trans hlen hle, v, hv, hz, fun hst ↦ (h.stuck hv hst).eq_of_reaches hz⟩

end Lib
end RfcNet
