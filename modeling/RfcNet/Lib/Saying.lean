import RfcNet.Lib.Duet

/-!
# What programs say

`Prog.Says good ok asks` is about the text of a program: whatever it receives, it sends no frame but such as `ok`
and asks for no size but such as `asks`, as long as its calls return such results as `good`.

For a duet of two such programs this is a property of every state that can be reached, as far as the results that
have been returned there are good (`Duet.inFlight_of_says`): the frames between the two sides are such as `ok`.
-/

set_option autoImplicit false

namespace RfcNet
namespace Lib

namespace Prog

variable {S : Sig} {α β : Type} {good : S.Call → Prop} {ok : Frame → Prop} {asks : ℕ → Prop}

/-- The program sends only such frames as `ok` and asks only for such sizes as `asks`, as long as its calls return
such results as `good`. -/
def Says (good : S.Call → Prop) (ok : Frame → Prop) (asks : ℕ → Prop) : Prog S α → Prop
  | .done _ => True
  | .raise _ => True
  | .sendThen f k => ok f ∧ k.Says good ok asks
  | .recvThen n k => asks n ∧ ∀ f, (k f).Says good ok asks
  | .callThen op k => ∀ r, good ⟨op, r⟩ → (k r).Says good ok asks

theorem Says.bind {p : Prog S α} {g : α → Prog S β} (hp : p.Says good ok asks)
    (hg : ∀ a, (g a).Says good ok asks) : (p >>= g).Says good ok asks := by
  induction p with
  | done a => exact hg a
  | raise e => trivial
  | sendThen f k ih => exact ⟨hp.1, ih hp.2⟩
  | recvThen n k ih => exact ⟨hp.1, fun f ↦ ih f (hp.2 f)⟩
  | callThen op k ih => exact fun r hr ↦ ih r (hp r hr)

end Prog

/-- **One move of such a program**: what is sent is such as `ok`, and what is left says nothing else either. -/
theorem Endpoint.says_of_act {S : Sig} {P : Proc S} {E : Env S} {good : S.Call → Prop} {ok : Frame → Prop}
    {asks : ℕ → Prop} {e e' : Endpoint P E} {inbox rest out : List Frame}
    (hbody : ∀ v, (P.body v).Says good ok asks) (hcode : e.code.Says good ok asks)
    (h : e.act inbox = some (e', rest, out)) (hgood : ∀ c ∈ e'.log, good c) :
    e'.code.Says good ok asks ∧ rest ⊆ inbox ∧ ∀ f ∈ out, ok f := by
  cases act_eq_some_iff.mp h with
  | @loop v => exact ⟨hbody v, List.Subset.refl _, List.forall_mem_nil _⟩
  | send => exact ⟨hcode.2, List.Subset.refl _, List.forall_mem_singleton.mpr hcode.1⟩
  | recv => exact ⟨hcode.2 _, List.subset_cons_self _ _, List.forall_mem_nil _⟩
  | call hr => exact ⟨hcode _ (hgood _ (by simp)), List.Subset.refl _, List.forall_mem_nil _⟩

namespace Duet

variable {S T : Sig} {P : Proc S} {E : Env S} {Q : Proc T} {F : Env T} {goodS : S.Call → Prop}
  {goodT : T.Call → Prop} {ok ok' : Frame → Prop} {asks : ℕ → Prop}

/-- All frames between the two sides are such as `ok`. -/
def InFlight (ok : Frame → Prop) (c : Duet P E Q F) : Prop := (∀ f ∈ c.toRight, ok f) ∧ ∀ f ∈ c.toLeft, ok f

theorem InFlight.imp {c : Duet P E Q F} (himp : ∀ f, ok f → ok' f) (h : c.InFlight ok) : c.InFlight ok' :=
  ⟨fun f hf ↦ himp f (h.1 f hf), fun f hf ↦ himp f (h.2 f hf)⟩

/-- Both sides say nothing but such frames as `ok`, also those that are between them. -/
structure Says (goodS : S.Call → Prop) (goodT : T.Call → Prop) (ok : Frame → Prop) (asks : ℕ → Prop)
    (c : Duet P E Q F) : Prop where
  left : c.left.code.Says goodS ok asks
  right : c.right.code.Says goodT ok asks
  inFlight : c.InFlight ok

/-- All calls so far have returned good results. -/
def GoodSoFar (goodS : S.Call → Prop) (goodT : T.Call → Prop) (c : Duet P E Q F) : Prop :=
  (∀ a ∈ c.left.log, goodS a) ∧ ∀ a ∈ c.right.log, goodT a

theorem GoodSoFar.of_reaches {c d : Duet P E Q F} (h : d.GoodSoFar goodS goodT) (hreach : Reaches step c d) :
    c.GoodSoFar goodS goodT :=
  have hlog := log_prefix hreach
  ⟨fun a ha ↦ h.1 a (hlog.1.subset ha), fun a ha ↦ h.2 a (hlog.2.subset ha)⟩

theorem Says.step (hP : ∀ v, (P.body v).Says goodS ok asks) (hQ : ∀ v, (Q.body v).Says goodT ok asks)
    {c d : Duet P E Q F} {side : Side} (h : c.Says goodS goodT ok asks) (hstep : c.step side = some d)
    (hgood : d.GoodSoFar goodS goodT) : d.Says goodS goodT ok asks := by
  cases side with
  | left =>
    obtain ⟨e, rest, out, hact, rfl⟩ := step_left_eq_some.mp hstep
    obtain ⟨hcode, hrest, hout⟩ := Endpoint.says_of_act hP h.left hact hgood.1
    exact ⟨hcode, h.right, List.forall_mem_append.mpr ⟨h.inFlight.1, hout⟩, fun f hf ↦ h.inFlight.2 f (hrest hf)⟩
  | right =>
    obtain ⟨e, rest, out, hact, rfl⟩ := step_right_eq_some.mp hstep
    obtain ⟨hcode, hrest, hout⟩ := Endpoint.says_of_act hQ h.right hact hgood.2
    exact ⟨h.left, hcode, fun f hf ↦ h.inFlight.1 f (hrest hf), List.forall_mem_append.mpr ⟨h.inFlight.2, hout⟩⟩

/-- **Every frame in every state reached** is such as `ok`, as far as the calls have returned good results. -/
theorem inFlight_of_says (hP : ∀ v, (P.body v).Says goodS ok asks) (hQ : ∀ v, (Q.body v).Says goodT ok asks)
    {c d : Duet P E Q F} (h : c.Says goodS goodT ok asks) (hreach : Reaches step c d)
    (hgood : d.GoodSoFar goodS goodT) : d.InFlight ok := by
  have hspoken := hreach.inv
    (P := fun d : Duet P E Q F ↦ d.GoodSoFar goodS goodT → d.Says goodS goodT ok asks) ?_ fun _ ↦ h
  · exact (hspoken hgood).inFlight
  intro c side d hc hstep hgood
  exact (hc (hgood.of_reaches (.head hstep (.refl _)))).step hP hQ hstep hgood

end Duet

end Lib
end RfcNet
