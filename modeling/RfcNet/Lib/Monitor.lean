import RfcNet.Lib.Duet

/-!
# Programs that keep to a protocol

A `Monitor` watches all that a program does: what it sends, what comes in, which calls it makes, and what these
return.  `Prog.Obeys M fin ph p` says that, started in the phase `ph`, the program does only what the monitor
allows, as long as what it is given is what the monitor expects.  As with `Prog.Follows`, this is checked once, by
recursion over the text of the program, and then holds of all that is left of it at any time (`Takes.of_act`).

Two programs joined by a channel are monitored by what goes through the channel: `Passes next a fs b` says that
the frames `fs` lead from the stage `a` of its receiver to the stage `b` of its sender.
-/

set_option autoImplicit false

namespace RfcNet
namespace Lib

/-! ## Monitors -/

/-- What a program may do, what it may expect, and how its phase changes. -/
structure Monitor (S : Sig) (Φ : Type) where
  /-- A frame may be sent, and the phase after that. -/
  sends : Φ → Frame → Φ → Prop
  /-- A frame may come in, and the phase after that. -/
  comes : Φ → Frame → Φ → Prop
  /-- A call may be made. -/
  calls : Φ → S.Op → Prop
  /-- A call may return this, and the phase after that. -/
  returns : Φ → S.Call → Φ → Prop

namespace Prog

variable {S : Sig} {Φ α β : Type}

/-- Started in the phase `ph`, the program does what the monitor allows, and where it returns `a` the phase reached
satisfies `fin · a`. -/
def Obeys (M : Monitor S Φ) (fin : Φ → α → Prop) : Φ → Prog S α → Prop
  | ph, .done a => fin ph a
  | _, .raise _ => True
  | ph, .sendThen f k => ∃ ph', M.sends ph f ph' ∧ Obeys M fin ph' k
  | ph, .recvThen n k => ∀ f : Frame, f.length = n → ∀ ph', M.comes ph f ph' → Obeys M fin ph' (k f)
  | ph, .callThen op k => M.calls ph op ∧ ∀ r ph', M.returns ph ⟨op, r⟩ ph' → Obeys M fin ph' (k r)

variable {M : Monitor S Φ} {fin : Φ → α → Prop} {fin' : Φ → β → Prop} {ph : Φ}

/-- Sequencing. -/
theorem Obeys.bind {p : Prog S α} {g : α → Prog S β} (hp : Obeys M fin ph p)
    (hg : ∀ ph' a, fin ph' a → Obeys M fin' ph' (g a)) : Obeys M fin' ph (p >>= g) := by
  induction p generalizing ph with
  | done a => exact hg ph a hp
  | raise e => trivial
  | sendThen f k ih =>
    obtain ⟨ph', hsends, hk⟩ := hp
    exact ⟨ph', hsends, ih hk⟩
  | recvThen n k ih => exact fun f hlen ph' hcomes ↦ ih f (hp f hlen ph' hcomes)
  | callThen op k ih => exact ⟨hp.1, fun r ph' hreturns ↦ ih r (hp.2 r ph' hreturns)⟩

theorem Obeys.mono {p : Prog S α} {fin₁ : Φ → α → Prop} (hp : Obeys M fin ph p)
    (hfin : ∀ ph' a, fin ph' a → fin₁ ph' a) : Obeys M fin₁ ph p := by
  have hbind := hp.bind (g := .done) hfin
  rwa [bind_done] at hbind

theorem obeys_ofExcept {ε : Type} {err : ε → S.Err} {x : Except ε α} {g : α → Prog S β}
    (hg : ∀ a, x = .ok a → Obeys M fin' ph (g a)) :
    Obeys M fin' ph ((ofExcept err x : Prog S α) >>= g) := by
  cases x with
  | ok a => exact hg a rfl
  | error e => trivial

theorem obeys_recv {n : ℕ} {g : Frame → Prog S β}
    (hg : ∀ f : Frame, f.length = n → ∀ ph', M.comes ph f ph' → Obeys M fin' ph' (g f)) :
    Obeys M fin' ph (recv n >>= g) := hg

end Prog

/-- Each round of the main loop does what the monitor allows. -/
def Proc.Obeys {S : Sig} {Φ : Type} (P : Proc S) (M : Monitor S Φ) (fin : Φ → P.Var ⊕ P.Out → Prop) : Prop :=
  ∀ ph v, fin ph (.inl v) → (P.body v).Obeys M fin ph

/-! ## Moves -/

section
variable {S : Sig} {Φ : Type} {P : Proc S} {E : Env S}

/-- What a monitored program can do in one move: the code, the environment and the inbox after it, what it has sent,
and which calls it has made. -/
inductive Monitor.Takes (M : Monitor S Φ) (fin : Φ → P.Var ⊕ P.Out → Prop) (E : Env S) (ph : Φ) (s : E.State)
    (inbox : List Frame) : P.Code → E.State → List Frame → List Frame → List S.Call → Prop
  | loop {p : P.Code} (h : p.Obeys M fin ph) : Takes M fin E ph s inbox p s inbox [] []
  | send {p : P.Code} {f : Frame} {ph' : Φ} (hsends : M.sends ph f ph') (h : p.Obeys M fin ph') :
      Takes M fin E ph s inbox p s inbox [f] []
  | recv {p : P.Code} {f : Frame} {rest : List Frame} (heq : inbox = f :: rest)
      (h : ∀ ph', M.comes ph f ph' → p.Obeys M fin ph') : Takes M fin E ph s inbox p s rest [] []
  | call {p : P.Code} {op : S.Op} {r : S.Res op} {s' : E.State} (hcalls : M.calls ph op)
      (hr : E.answer s op = some (r, s')) (h : ∀ ph', M.returns ph ⟨op, r⟩ ph' → p.Obeys M fin ph') :
      Takes M fin E ph s inbox p s' inbox [] [⟨op, r⟩]

/-- **A move of a program that obeys** is one that the monitor allows, and what is left obeys too. -/
theorem Monitor.Takes.of_act {M : Monitor S Φ} {fin : Φ → P.Var ⊕ P.Out → Prop} {ph : Φ}
    {e e' : Endpoint P E} {inbox rest out : List Frame} (hP : P.Obeys M fin) (hcode : e.code.Obeys M fin ph)
    (h : e.act inbox = some (e', rest, out)) :
    ∃ calls, e'.log = e.log ++ calls ∧ Takes M fin E ph e.env inbox e'.code e'.env rest out calls := by
  cases Endpoint.act_eq_some_iff.mp h with
  | loop => exact ⟨[], (List.append_nil _).symm, .loop (hP _ _ hcode)⟩
  | send =>
    obtain ⟨ph', hsends, hk⟩ := hcode
    exact ⟨[], (List.append_nil _).symm, .send hsends hk⟩
  | recv => exact ⟨[], (List.append_nil _).symm, .recv rfl fun ph' hcomes ↦ hcode _ rfl ph' hcomes⟩
  | call hr => exact ⟨_, rfl, .call hcode.1 hr fun ph' hreturns ↦ hcode.2 _ ph' hreturns⟩

end

/-! ## Channels -/

section
variable {σ : Type} {next next' : σ → Frame → σ → Prop} {a b c : σ} {f : Frame} {fs : List Frame}

/-- The frames `fs`, received one after the other, lead from the stage `a` to the stage `b`. -/
inductive Passes (next : σ → Frame → σ → Prop) : σ → List Frame → σ → Prop
  | nil (a : σ) : Passes next a [] a
  | cons {a b c : σ} {f : Frame} {fs : List Frame} (h : next a f b) (hrest : Passes next b fs c) :
      Passes next a (f :: fs) c

/-- A frame is sent. -/
theorem Passes.append (h : Passes next a fs b) (hnext : next b f c) : Passes next a (fs ++ [f]) c := by
  induction h with
  | nil a => exact .cons hnext (.nil c)
  | cons hf _ ih => exact .cons hf (ih hnext)

/-- The next frame is received. -/
theorem Passes.head (h : Passes next a (f :: fs) c) : ∃ b, next a f b ∧ Passes next b fs c := by
  cases h with
  | cons hf hrest => exact ⟨_, hf, hrest⟩

theorem Passes.mono (h : Passes next a fs b) (hnext : ∀ a f b, next a f b → next' a f b) :
    Passes next' a fs b := by
  induction h with
  | nil a => exact .nil a
  | cons hf _ ih => exact .cons (hnext _ _ _ hf) ih

end

end Lib
end RfcNet
