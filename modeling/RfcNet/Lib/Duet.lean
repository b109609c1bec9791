import RfcNet.Lib.Exec
import RfcNet.Lib.Runs

/-!
# Two programs joined by two channels

An `Endpoint` is a program that is part of the way through, with its own environment, which answers
its calls, and a record of the calls it has made.  A `Duet` is two endpoints and the frames in
flight between them, oldest first, in each direction.  Its only events are "the left one moves" and
"the right one moves", and each endpoint's move is a function of its own state and of the head of
its inbox.

So the moves of the two sides commute (`Duet.diamond`): a move of one side can only append to the
other's inbox, and an endpoint that can move on some inbox makes the same move on a longer one
(`Endpoint.act_append`).  It follows that a single complete run decides every interleaving
(`Duet.settled_all`): if *some* schedule brings the two sides to an orderly end, then under *every*
schedule each `recv` meets a frame of the length it asks for, no side raises an exception, and the
run can be completed to the same end.
-/

set_option autoImplicit false

namespace RfcNet
namespace Lib

/-- What answers the calls of a program: a state, and the answer to a call in that state, if
there is one. -/
structure Env (S : Sig) where
  /-- The environment's own state. -/
  State : Type
  /-- The answer to a call, and the state after it. -/
  answer : State → (op : S.Op) → Option (S.Res op × State)

/-- The environment gives these answers to these calls, one after the other. -/
def Env.Answers {S : Sig} (E : Env S) : E.State → List S.Call → E.State → Prop
  | s, [], s' => s = s'
  | s, ⟨op, r⟩ :: calls, s' => ∃ m, E.answer s op = some (r, m) ∧ E.Answers m calls s'

/-- A program part of the way through. -/
structure Endpoint {S : Sig} (P : Proc S) (E : Env S) where
  /-- What is left of the program. -/
  code : P.Code
  /-- The state of its environment. -/
  env : E.State
  /-- The calls it has made so far, with their results. -/
  log : List S.Call

namespace Endpoint

variable {S : Sig} {P : Proc S} {E : Env S}

/-- The next move on a given inbox: the endpoint after it, what it leaves of the inbox, and what it
sends. -/
def act (e : Endpoint P E) (inbox : List Frame) :
    Option (Endpoint P E × List Frame × List Frame) :=
  match e.code with
  | .done (.inl v) => some ({ e with code := P.body v }, inbox, [])
  | .done (.inr _) => none
  | .raise _ => none
  | .sendThen f k => some ({ e with code := k }, inbox, [f])
  | .recvThen n k =>
    match inbox with
    | [] => none
    | f :: rest => if f.length = n then some ({ e with code := k f }, rest, []) else none
  | .callThen op k =>
    match E.answer e.env op with
    | none => none
    | some (r, env) => some ({ code := k r, env, log := e.log ++ [⟨op, r⟩] }, inbox, [])

/-- The moves of an endpoint, one constructor for each kind of step. -/
inductive Moves : Endpoint P E → List Frame → Endpoint P E → List Frame → List Frame → Prop
  | loop {v : P.Var} {env : E.State} {log : List S.Call} {inbox : List Frame} :
      Moves ⟨.done (.inl v), env, log⟩ inbox ⟨P.body v, env, log⟩ inbox []
  | send {f : Frame} {k : P.Code} {env : E.State} {log : List S.Call} {inbox : List Frame} :
      Moves ⟨.sendThen f k, env, log⟩ inbox ⟨k, env, log⟩ inbox [f]
  | recv {k : Frame → P.Code} {env : E.State} {log : List S.Call} {f : Frame}
      {rest : List Frame} :
      Moves ⟨.recvThen f.length k, env, log⟩ (f :: rest) ⟨k f, env, log⟩ rest []
  | call {op : S.Op} {k : S.Res op → P.Code} {env env' : E.State} {log : List S.Call}
      {inbox : List Frame} {r : S.Res op} (h : E.answer env op = some (r, env')) :
      Moves ⟨.callThen op k, env, log⟩ inbox ⟨k r, env', log ++ [⟨op, r⟩]⟩ inbox []

theorem act_eq_some_iff {e e' : Endpoint P E} {inbox rest out : List Frame} :
    e.act inbox = some (e', rest, out) ↔ Moves e inbox e' rest out := by
  constructor
  · intro h
    obtain ⟨code, env, log⟩ := e
    match code with
    | .done (.inl v) => simp only [act, Option.some.injEq, Prod.mk.injEq] at h; grind [Moves]
    | .done (.inr _) => simp [act] at h
    | .raise _ => simp [act] at h
    | .sendThen f k => simp only [act, Option.some.injEq, Prod.mk.injEq] at h; grind [Moves]
    | .recvThen n k =>
      cases inbox with
      | nil => simp [act] at h
      | cons f fs =>
        simp only [act] at h
        split at h
        · rename_i hn
          subst hn
          simp only [Option.some.injEq, Prod.mk.injEq] at h
          grind [Moves]
        · simp at h
    | .callThen op k =>
      simp only [act] at h
      split at h
      · simp at h
      · rename_i r env' hr
        simp only [Option.some.injEq, Prod.mk.injEq] at h
        obtain ⟨rfl, rfl, rfl⟩ := h
        exact .call hr
  · intro h
    cases h with
    | loop => rfl
    | send => rfl
    | recv => simp [act]
    | call hr => simp [act, hr]

/-- A longer inbox does not change the move. -/
theorem act_append {e e' : Endpoint P E} {inbox rest out more : List Frame}
    (h : e.act inbox = some (e', rest, out)) :
    e.act (inbox ++ more) = some (e', rest ++ more, out) := by
  rw [act_eq_some_iff] at h ⊢
  cases h with
  | loop => exact .loop
  | send => exact .send
  | recv => exact .recv
  | call hr => exact .call hr

/-- The record of calls only grows. -/
theorem log_prefix_of_act {e e' : Endpoint P E} {inbox rest out : List Frame}
    (h : e.act inbox = some (e', rest, out)) : e.log <+: e'.log := by
  cases act_eq_some_iff.mp h with
  | loop => exact List.prefix_rfl
  | send => exact List.prefix_rfl
  | recv => exact List.prefix_rfl
  | call => exact List.prefix_append _ _

/-- A move that adds to the record of calls is a call. -/
theorem call_of_act {e e' : Endpoint P E} {inbox rest out : List Frame}
    (h : e.act inbox = some (e', rest, out)) :
    e'.log = e.log ∨ ∃ op k r env, e.code = .callThen op k ∧ E.answer e.env op = some (r, env) ∧
      e'.log = e.log ++ [⟨op, r⟩] := by
  cases act_eq_some_iff.mp h with
  | loop => exact .inl rfl
  | send => exact .inl rfl
  | recv => exact .inl rfl
  | call hr => exact .inr ⟨_, _, _, _, rfl, hr, rfl⟩

/-- **An endpoint keeps following an automaton of calls**, if each round of its loop does. -/
theorem follows_of_act {Φ : Type} {next : Φ → S.Op → Option Φ} {fin : Φ → P.Var ⊕ P.Out → Prop}
    (hbody : ∀ ph v, fin ph (.inl v) → (P.body v).Follows (.ofCalls next) fin ph) {ph : Φ}
    {e e' : Endpoint P E} {inbox rest out : List Frame}
    (h : e.act inbox = some (e', rest, out)) (hcode : e.code.Follows (.ofCalls next) fin ph) :
    ((∀ op k, e.code ≠ .callThen op k) ∧ e'.log = e.log ∧
      e'.code.Follows (.ofCalls next) fin ph) ∨
    ∃ op k r env ph', e.code = .callThen op k ∧ E.answer e.env op = some (r, env) ∧
      next ph op = some ph' ∧ e'.log = e.log ++ [⟨op, r⟩] ∧
      e'.code.Follows (.ofCalls next) fin ph' := by
  cases act_eq_some_iff.mp h with
  | loop => exact .inl ⟨fun _ _ ↦ nofun, rfl, hbody _ _ hcode⟩
  | send => exact .inl ⟨fun _ _ ↦ nofun, rfl, hcode⟩
  | recv => exact .inl ⟨fun _ _ ↦ nofun, rfl, hcode.2 _ rfl trivial⟩
  | call hr =>
    obtain ⟨ph', hnext, hk⟩ := hcode
    exact .inr ⟨_, _, _, _, ph', rfl, hr, hnext, rfl, hk _⟩

/-- **An endpoint keeps leading where it led**, if each round of its loop does: the phase is that of
the calls made so far. -/
theorem leads_of_act {Φ : Type} {next : Φ → S.Call → Φ} {fin : Φ → P.Var ⊕ P.Out → Prop} {ph : Φ}
    (hbody : ∀ ph v, fin ph (.inl v) → (P.body v).Leads next fin ph)
    {e e' : Endpoint P E} {inbox rest out : List Frame} (h : e.act inbox = some (e', rest, out))
    (hcode : e.code.Leads next fin (e.log.foldl next ph)) :
    e'.code.Leads next fin (e'.log.foldl next ph) := by
  cases act_eq_some_iff.mp h with
  | loop =>
    cases hcode with
    | done hfin => exact hbody _ _ hfin
  | send =>
    cases hcode with
    | send hk => exact hk
  | recv =>
    cases hcode with
    | recv hk => exact hk _ rfl
  | call hr =>
    rw [List.foldl_append]
    cases hcode with
    | call hk => exact hk _

/-- The endpoint is in step with its inbox: if it is receiving, the next frame has the length it
asks for, and it has not raised an exception. -/
def InStep (e : Endpoint P E) (inbox : List Frame) : Prop :=
  match e.code with
  | .recvThen n _ => ∀ f ∈ inbox.head?, f.length = n
  | .raise _ => False
  | _ => True

/-- The endpoint has come to rest in an orderly way: it has returned and nothing is left for it to
read, or it waits for a frame that has not been sent, or for its environment. -/
def AtRest (e : Endpoint P E) (inbox : List Frame) : Prop :=
  match e.code with
  | .done (.inr _) => inbox = []
  | .recvThen _ _ => inbox = []
  | .callThen op _ => E.answer e.env op = none
  | _ => False

/-- The endpoint waits for a frame that has not been sent. -/
def Blocked (e : Endpoint P E) (inbox : List Frame) : Prop :=
  (∃ n k, e.code = .recvThen n k) ∧ inbox = []

theorem Blocked.act_eq_none {e : Endpoint P E} {inbox : List Frame} (h : e.Blocked inbox) :
    e.act inbox = none := by
  obtain ⟨⟨n, k, hcode⟩, rfl⟩ := h
  rw [act, hcode]

theorem act_eq_none_of_returned {e : Endpoint P E} {a : P.Out} (h : e.code = .done (.inr a))
    (inbox : List Frame) : e.act inbox = none := by
  rw [act, h]

theorem AtRest.act_eq_none {e : Endpoint P E} {inbox : List Frame} (h : e.AtRest inbox) :
    e.act inbox = none := by
  obtain ⟨code, env, log⟩ := e
  match code with
  | .done (.inl v) => exact h.elim
  | .done (.inr _) => rfl
  | .raise _ => exact h.elim
  | .sendThen f k => exact h.elim
  | .recvThen n k => simp only [AtRest] at h; simp [act, h]
  | .callThen op k => simp only [AtRest] at h; simp [act, h]

theorem AtRest.inStep {e : Endpoint P E} {inbox : List Frame} (h : e.AtRest inbox) :
    e.InStep inbox := by
  obtain ⟨code, env, log⟩ := e
  match code with
  | .done (.inl v) => trivial
  | .done (.inr _) => trivial
  | .raise _ => exact h.elim
  | .sendThen f k => trivial
  | .recvThen n k => simp only [AtRest] at h; simp [InStep, h]
  | .callThen op k => trivial

/-- An endpoint out of step never moves again, however much more is sent to it. -/
theorem act_eq_none_of_not_inStep {e : Endpoint P E} {inbox : List Frame}
    (h : ¬ e.InStep inbox) (more : List Frame) :
    e.act (inbox ++ more) = none ∧ ¬ e.InStep (inbox ++ more) := by
  obtain ⟨code, env, log⟩ := e
  match code with
  | .done _ => exact absurd trivial h
  | .raise _ => exact ⟨rfl, id⟩
  | .sendThen f k => exact absurd trivial h
  | .callThen op k => exact absurd trivial h
  | .recvThen n k =>
    cases inbox with
    | nil => simp [InStep] at h
    | cons f fs =>
      have hf : f.length ≠ n := by simpa [InStep] using h
      exact ⟨by simp [act, hf], by simpa [InStep] using hf⟩

/-- **An endpoint runs on its own**, in any system in which its moves are steps: `sys e inbox sent` is the
system with the endpoint `e` in it, where `inbox` is what `e` may receive and `sent` what it has sent. -/
theorem reaches_of_runs {σ ε : Type} (step : σ → ε → Option σ)
    (sys : Endpoint P E → List Frame → List Frame → σ)
    (hstep : ∀ (e e' : Endpoint P E) (inbox rest out sent : List Frame),
      e.act inbox = some (e', rest, out) → ∃ a, step (sys e inbox sent) a = some (sys e' rest (sent ++ out)))
    {p q : P.Code} {ins outs : List Frame} {calls : List S.Call} {env env' : E.State}
    (h : p.Runs ins calls outs q) (henv : E.Answers env calls env') (log : List S.Call)
    (inbox sent : List Frame) :
    Reaches step (sys ⟨p, env, log⟩ (ins ++ inbox) sent)
      (sys ⟨q, env', log ++ calls⟩ inbox (sent ++ outs)) := by
  induction h generalizing env log sent with
  | refl q =>
    obtain rfl : env = env' := henv
    rw [List.append_nil, List.append_nil]
    exact .refl _
  | @send f _ _ _ outs _ _ ih =>
    obtain ⟨a, ha⟩ := hstep _ _ _ _ _ sent (act_eq_some_iff.mpr .send)
    refine .head ha ?_
    rw [List.append_cons sent f outs]
    exact ih henv log _
  | recv hlen _ ih =>
    subst hlen
    obtain ⟨a, ha⟩ := hstep _ _ _ _ _ sent (act_eq_some_iff.mpr .recv)
    refine .head ha ?_
    rw [List.append_nil]
    exact ih henv log _
  | @call op r _ _ calls _ _ _ ih =>
    obtain ⟨m, hm, henv⟩ := henv
    obtain ⟨a, ha⟩ := hstep _ _ _ _ _ sent (act_eq_some_iff.mpr (.call hm))
    refine .head ha ?_
    rw [List.append_nil, List.append_cons log _ calls]
    exact ih henv _ _

end Endpoint

/-! ## Duets -/

/-- The two sides. -/
inductive Side
  | left
  | right
  deriving DecidableEq, Repr

/-- The opposite side. -/
def Side.other : Side → Side
  | .left => .right
  | .right => .left

@[simp] theorem Side.other_other (side : Side) : side.other.other = side := by cases side <;> rfl

theorem Side.other_ne (side : Side) : side.other ≠ side := by cases side <;> decide

theorem Side.eq_or_eq_other (side who : Side) : side = who ∨ side = who.other := by
  cases side <;> cases who <;> decide

/-- Two endpoints and the frames in flight between them. -/
structure Duet {S T : Sig} (P : Proc S) (E : Env S) (Q : Proc T) (F : Env T) where
  /-- The left endpoint. -/
  left : Endpoint P E
  /-- The right endpoint. -/
  right : Endpoint Q F
  /-- Frames sent by the left endpoint and not yet received. -/
  toRight : List Frame
  /-- Frames sent by the right endpoint and not yet received. -/
  toLeft : List Frame

namespace Duet

variable {S T : Sig} {P : Proc S} {E : Env S} {Q : Proc T} {F : Env T}

/-- One side moves. -/
def step (c : Duet P E Q F) : Side → Option (Duet P E Q F)
  | .left => (c.left.act c.toLeft).map fun m ↦
      { c with left := m.1, toLeft := m.2.1, toRight := c.toRight ++ m.2.2 }
  | .right => (c.right.act c.toRight).map fun m ↦
      { c with right := m.1, toRight := m.2.1, toLeft := c.toLeft ++ m.2.2 }

theorem step_left_eq_some {c d : Duet P E Q F} : c.step .left = some d ↔
    ∃ e rest out, c.left.act c.toLeft = some (e, rest, out) ∧
      d = { c with left := e, toLeft := rest, toRight := c.toRight ++ out } := by
  rw [step, Option.map_eq_some_iff]
  exact ⟨fun ⟨⟨e, rest, out⟩, h, hd⟩ ↦ ⟨e, rest, out, h, hd.symm⟩,
    fun ⟨e, rest, out, h, hd⟩ ↦ ⟨⟨e, rest, out⟩, h, hd.symm⟩⟩

theorem step_right_eq_some {c d : Duet P E Q F} : c.step .right = some d ↔
    ∃ e rest out, c.right.act c.toRight = some (e, rest, out) ∧
      d = { c with right := e, toRight := rest, toLeft := c.toLeft ++ out } := by
  rw [step, Option.map_eq_some_iff]
  exact ⟨fun ⟨⟨e, rest, out⟩, h, hd⟩ ↦ ⟨e, rest, out, h, hd.symm⟩,
    fun ⟨e, rest, out, h, hd⟩ ↦ ⟨⟨e, rest, out⟩, h, hd.symm⟩⟩

private theorem left_right_commute {c d₁ d₂ : Duet P E Q F} (h₁ : c.step .left = some d₁)
    (h₂ : c.step .right = some d₂) :
    ∃ v, d₁.step .right = some v ∧ d₂.step .left = some v := by
  obtain ⟨e, rest, out, he, rfl⟩ := step_left_eq_some.mp h₁
  obtain ⟨e', rest', out', he', rfl⟩ := step_right_eq_some.mp h₂
  exact ⟨_, step_right_eq_some.mpr ⟨_, _, _, Endpoint.act_append he', rfl⟩,
    step_left_eq_some.mpr ⟨_, _, _, Endpoint.act_append he, rfl⟩⟩

/-- **The moves of the two sides commute.** -/
theorem diamond : Diamond (step (P := P) (E := E) (Q := Q) (F := F)) := by
  intro c a b d₁ d₂ hab h₁ h₂
  match a, b with
  | .left, .left => exact absurd rfl hab
  | .right, .right => exact absurd rfl hab
  | .left, .right => exact left_right_commute h₁ h₂
  | .right, .left =>
    obtain ⟨v, hv₂, hv₁⟩ := left_right_commute h₂ h₁
    exact ⟨v, hv₁, hv₂⟩

/-- Both endpoints are in step with their inboxes. -/
def InStep (c : Duet P E Q F) : Prop := c.left.InStep c.toLeft ∧ c.right.InStep c.toRight

/-- Both endpoints have come to rest. -/
def AtRest (c : Duet P E Q F) : Prop := c.left.AtRest c.toLeft ∧ c.right.AtRest c.toRight

/-- If neither side can move, nothing can happen. -/
theorem stuck_of_act {c : Duet P E Q F} (hleft : c.left.act c.toLeft = none)
    (hright : c.right.act c.toRight = none) : Stuck step c := by
  intro s
  cases s with
  | left => rw [step, hleft, Option.map_none]
  | right => rw [step, hright, Option.map_none]

theorem AtRest.stuck {c : Duet P E Q F} (h : c.AtRest) : Stuck step c :=
  stuck_of_act h.1.act_eq_none h.2.act_eq_none

/-- A duet that is out of step stays so. -/
theorem not_inStep_of_step {c d : Duet P E Q F} {s : Side} (h : ¬ c.InStep)
    (hs : c.step s = some d) : ¬ d.InStep := by
  rw [InStep, not_and_or] at h
  cases s with
  | left =>
    obtain ⟨e, rest, out, he, rfl⟩ := step_left_eq_some.mp hs
    rcases h with h | h
    · have hn := (Endpoint.act_eq_none_of_not_inStep h []).1
      rw [List.append_nil, he] at hn
      exact absurd hn (by simp)
    · exact fun hd ↦ (Endpoint.act_eq_none_of_not_inStep h out).2 hd.2
  | right =>
    obtain ⟨e, rest, out, he, rfl⟩ := step_right_eq_some.mp hs
    rcases h with h | h
    · exact fun hd ↦ (Endpoint.act_eq_none_of_not_inStep h out).2 hd.1
    · have hn := (Endpoint.act_eq_none_of_not_inStep h []).1
      rw [List.append_nil, he] at hn
      exact absurd hn (by simp)

theorem log_prefix_of_step {c d : Duet P E Q F} {s : Side} (hs : c.step s = some d) :
    c.left.log <+: d.left.log ∧ c.right.log <+: d.right.log := by
  cases s with
  | left =>
    obtain ⟨e, rest, out, he, rfl⟩ := step_left_eq_some.mp hs
    exact ⟨Endpoint.log_prefix_of_act he, List.prefix_rfl⟩
  | right =>
    obtain ⟨e, rest, out, he, rfl⟩ := step_right_eq_some.mp hs
    exact ⟨List.prefix_rfl, Endpoint.log_prefix_of_act he⟩

/-- What has been called stays called. -/
theorem log_prefix {c d : Duet P E Q F} (h : Reaches step c d) :
    c.left.log <+: d.left.log ∧ c.right.log <+: d.right.log :=
  h.inv (P := fun d ↦ c.left.log <+: d.left.log ∧ c.right.log <+: d.right.log)
    (fun _ _ _ hp hs ↦
      ⟨hp.1.trans (log_prefix_of_step hs).1, hp.2.trans (log_prefix_of_step hs).2⟩)
    ⟨List.prefix_rfl, List.prefix_rfl⟩

/-- **One orderly run settles them all.**  If some schedule brings the duet to rest, then after
any schedule at all the two sides are in step and the duet can still be brought to the same
rest. -/
theorem settled_all {c d c' : Duet P E Q F} (hd : Reaches step c d) (hrest : d.AtRest)
    (hc' : Reaches step c c') : c'.InStep ∧ Reaches step c' d := by
  have hreach : Reaches step c' d := diamond.reaches_stuck hd hrest.stuck hc'
  refine ⟨by_contra fun hn ↦ ?_, hreach⟩
  exact hreach.inv (P := fun d ↦ ¬ d.InStep) (fun _ _ _ hp hs ↦ not_inStep_of_step hp hs) hn
    ⟨hrest.1.inStep, hrest.2.inStep⟩

/-! ## Runs of one side -/

section
variable {ins outs : List Frame}

/-- The left side runs on its own, with what it needs at the head of its inbox. -/
theorem reaches_left {p q : P.Code} {calls : List S.Call} {env env' : E.State}
    (h : p.Runs ins calls outs q) (henv : E.Answers env calls env') (log : List S.Call)
    (right : Endpoint Q F) (toRight toLeft : List Frame) :
    Reaches step (⟨⟨p, env, log⟩, right, toRight, ins ++ toLeft⟩ : Duet P E Q F)
      ⟨⟨q, env', log ++ calls⟩, right, toRight ++ outs, toLeft⟩ := by
  have hruns := Endpoint.reaches_of_runs step
    (fun e inbox sent ↦ (⟨e, right, toRight ++ sent, inbox⟩ : Duet P E Q F))
    (fun e e' inbox rest out sent hact ↦
      ⟨Side.left, step_left_eq_some.mpr ⟨e', rest, out, hact, by rw [List.append_assoc]⟩⟩)
    h henv log toLeft []
  rwa [List.append_nil] at hruns

/-- The same for the right side. -/
theorem reaches_right {p q : Q.Code} {calls : List T.Call} {env env' : F.State}
    (h : p.Runs ins calls outs q) (henv : F.Answers env calls env') (log : List T.Call)
    (left : Endpoint P E) (toRight toLeft : List Frame) :
    Reaches step (⟨left, ⟨p, env, log⟩, ins ++ toRight, toLeft⟩ : Duet P E Q F)
      ⟨left, ⟨q, env', log ++ calls⟩, toRight, toLeft ++ outs⟩ := by
  have hruns := Endpoint.reaches_of_runs step
    (fun e inbox sent ↦ (⟨left, e, inbox, toLeft ++ sent⟩ : Duet P E Q F))
    (fun e e' inbox rest out sent hact ↦
      ⟨Side.right, step_right_eq_some.mpr ⟨e', rest, out, hact, by rw [List.append_assoc]⟩⟩)
    h henv log toRight []
  rwa [List.append_nil] at hruns

/-- A side that has come to the end of a round of its loop goes round again. -/
theorem step_left_loop {v : P.Var} {env : E.State} {log : List S.Call} {right : Endpoint Q F}
    {toRight toLeft : List Frame} :
    step (⟨⟨.done (.inl v), env, log⟩, right, toRight, toLeft⟩ : Duet P E Q F) .left =
      some ⟨⟨P.body v, env, log⟩, right, toRight, toLeft⟩ := by
  rw [step, Endpoint.act_eq_some_iff.mpr .loop, Option.map_some, List.append_nil]

theorem step_right_loop {v : Q.Var} {env : F.State} {log : List T.Call} {left : Endpoint P E}
    {toRight toLeft : List Frame} :
    step (⟨left, ⟨.done (.inl v), env, log⟩, toRight, toLeft⟩ : Duet P E Q F) .right =
      some ⟨left, ⟨Q.body v, env, log⟩, toRight, toLeft⟩ := by
  rw [step, Endpoint.act_eq_some_iff.mpr .loop, Option.map_some, List.append_nil]

end

end Duet

end Lib
end RfcNet
