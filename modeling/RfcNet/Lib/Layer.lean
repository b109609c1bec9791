import RfcNet.Lib.Saying

/-!
# Programs on top of a layer

A `Layer` says what one `send` and one `recv` of a program come to on the way down: a program of its
own, with calls of its own.  `Prog.over` puts a whole program on top of a layer, and `Proc.over` one
with a main loop, where the layer may depend on a value that is known only when the loop begins.

A layer `Carries` such frames as `ok` if what it sends for a frame is what it needs to receive that
frame, and if it waits as long as nothing has been sent.  Then two programs on top of it that say
nothing but such frames do what they would do without it: every run of the one duet is followed by the
other (`Duet.Over.run`), and where the one comes to rest the other does too, with the same results,
environments and calls (`Duet.Over.settles`).

Layers can be stacked, since a program on top of a layer is again a program.
-/

set_option autoImplicit false

namespace RfcNet
namespace Lib

/-! ## Calls of two kinds -/

/-- The calls and exceptions of a program, and those of what is below it. -/
@[reducible] def Sig.sum (S T : Sig) : Sig where
  Op := S.Op ⊕ T.Op
  Res
    | .inl op => S.Res op
    | .inr op => T.Res op
  Err := S.Err ⊕ T.Err

/-- Each kind of call is answered by its own environment. -/
@[reducible] def Env.sum {S T : Sig} (E : Env S) (F : Env T) : Env (S.sum T) where
  State := E.State × F.State
  answer s
    | .inl op => (E.answer s.1 op).map fun r ↦ (r.1, r.2, s.2)
    | .inr op => (F.answer s.2 op).map fun r ↦ (r.1, s.1, r.2)

section
variable {S T : Sig}

/-- A call from below. -/
def Sig.below (c : T.Call) : (S.sum T).Call := ⟨.inr c.1, c.2⟩

/-- A call from above. -/
def Sig.above (c : S.Call) : (S.sum T).Call := ⟨.inl c.1, c.2⟩

/-- The calls from above. -/
def Sig.upper (calls : List (S.sum T).Call) : List S.Call :=
  calls.filterMap fun
    | ⟨.inl op, r⟩ => some ⟨op, r⟩
    | ⟨.inr _, _⟩ => none

@[simp] theorem Sig.upper_nil : Sig.upper ([] : List (S.sum T).Call) = [] := rfl

theorem Sig.upper_append (calls calls' : List (S.sum T).Call) :
    Sig.upper (calls ++ calls') = Sig.upper calls ++ Sig.upper calls' :=
  List.filterMap_append

theorem Sig.upper_above (op : S.Op) (r : S.Res op) :
    Sig.upper ([⟨.inl op, r⟩] : List (S.sum T).Call) = [⟨op, r⟩] := rfl

theorem Sig.upper_below (calls : List T.Call) :
    Sig.upper (calls.map (Sig.below (S := S))) = [] := by
  induction calls with
  | nil => rfl
  | cons c calls ih => exact ih

/-- What is called from below leaves the environment above as it is. -/
theorem Env.sum_answers_below {E : Env S} {F : Env T} {s : E.State} {m m' : F.State}
    {calls : List T.Call} (h : F.Answers m calls m') :
    (E.sum F).Answers (s, m) (calls.map Sig.below) (s, m') := by
  induction calls generalizing m with
  | nil => exact congrArg (Prod.mk s) h
  | cons c calls ih =>
    obtain ⟨n, hn, hrest⟩ := h
    exact ⟨(s, n), by simp only [Env.sum, hn, Option.map_some], ih hrest⟩

theorem Env.sum_answer_above {E : Env S} {F : Env T} {s : E.State} {m : F.State} {op : S.Op}
    {r : S.Res op} {s' : E.State} (h : E.answer s op = some (r, s')) :
    (E.sum F).answer (s, m) (.inl op) = some (r, s', m) := by
  simp only [Env.sum, h, Option.map_some]

end

namespace Prog

variable {S T : Sig} {α β : Type}

/-- A call, and what is done with its result. -/
theorem runs_call (op : S.Op) (r : S.Res op) {k : S.Res op → Prog S α} {q : Prog S α} {ins outs : List Frame}
    {calls : List S.Call} (h : (k r).Runs ins calls outs q) :
    (Prog.callThen op k).Runs ins (⟨op, r⟩ :: calls) outs q := .call h

/-- A program from below. -/
def inr (S : Sig) : Prog T α → Prog (S.sum T) α
  | .done a => .done a
  | .raise e => .raise (.inr e)
  | .sendThen f k => .sendThen f (k.inr S)
  | .recvThen n k => .recvThen n fun f ↦ (k f).inr S
  | .callThen op k => .callThen (.inr op) fun r ↦ (k r).inr S

theorem inr_bind (p : Prog T α) (g : α → Prog T β) :
    (p >>= g).inr S = p.inr S >>= fun a ↦ (g a).inr S := by
  induction p with
  | done a => rfl
  | raise e => rfl
  | sendThen f k ih => exact congrArg (Prog.sendThen f) ih
  | recvThen n k ih => exact congrArg (Prog.recvThen n) (funext ih)
  | callThen op k ih => exact congrArg (Prog.callThen (S := S.sum T) (.inr op)) (funext ih)

/-- Below a program, a program runs as it does on its own. -/
theorem Runs.inr {p q : Prog T α} {ins outs : List Frame} {calls : List T.Call}
    (h : p.Runs ins calls outs q) (S : Sig) :
    (p.inr S).Runs ins (calls.map Sig.below) outs (q.inr S) := by
  induction h with
  | refl q => exact .refl _
  | send _ ih => exact .send ih
  | recv hlen _ ih => exact .recv hlen ih
  | @call op r k _ _ _ _ _ ih =>
    exact runs_call (S := S.sum T) (.inr op) r (k := fun r ↦ (k r).inr S) ih

/-- All that the program sends or asks for at a time is shorter than `bound`. -/
def Within (bound : ℕ) : Prog S α → Prop
  | .done _ => True
  | .raise _ => True
  | .sendThen f k => f.length < bound ∧ k.Within bound
  | .recvThen n k => n < bound ∧ ∀ f, (k f).Within bound
  | .callThen _ k => ∀ r, (k r).Within bound

variable {bound : ℕ}

theorem Within.bind {p : Prog S α} {g : α → Prog S β} (hp : p.Within bound)
    (hg : ∀ a, (g a).Within bound) : (p >>= g).Within bound := by
  induction p with
  | done a => exact hg a
  | raise e => trivial
  | sendThen f k ih => exact ⟨hp.1, ih hp.2⟩
  | recvThen n k ih => exact ⟨hp.1, fun f ↦ ih f (hp.2 f)⟩
  | callThen op k ih => exact fun r ↦ ih r (hp r)

theorem Within.inr {p : Prog T α} (h : p.Within bound) (S : Sig) : (p.inr S).Within bound := by
  induction p with
  | done a => trivial
  | raise e => trivial
  | sendThen f k ih => exact ⟨h.1, ih h.2⟩
  | recvThen n k ih => exact ⟨h.1, fun f ↦ ih f (h.2 f)⟩
  | callThen op k ih => exact fun r ↦ ih r (h r)

/-- What is said whatever the calls return keeps to the bound, if all sizes do. -/
theorem Says.within {p : Prog S α}
    (h : p.Says (fun _ ↦ True) (fun f ↦ f.length < bound) fun n ↦ n < bound) : p.Within bound := by
  induction p with
  | done a => trivial
  | raise e => trivial
  | sendThen f k ih => exact ⟨h.1, ih h.2⟩
  | recvThen n k ih => exact ⟨h.1, fun f ↦ ih f (h.2 f)⟩
  | callThen op k ih => exact fun r ↦ ih r (h r trivial)

end Prog

/-! ## Layers -/

/-- What one `send` and one `recv` come to. -/
structure Layer (T : Sig) where
  /-- A frame is sent. -/
  snd : Frame → Prog T Unit
  /-- A frame of so many bytes is received. -/
  rcv : ℕ → Prog T Frame

/-- The program on top of the layer `L`. -/
def Prog.over {S T : Sig} {α : Type} (L : Layer T) : Prog S α → Prog (S.sum T) α
  | .done a => .done a
  | .raise e => .raise (.inl e)
  | .sendThen f k => (L.snd f).inr S >>= fun _ ↦ k.over L
  | .recvThen n k => (L.rcv n).inr S >>= fun f ↦ (k f).over L
  | .callThen op k => .callThen (.inl op) fun r ↦ (k r).over L

/-- A program with a main loop on top of a layer, which is one of the layers `L`. -/
@[reducible] def Proc.over {S T : Sig} {κ : Type} (L : κ → Layer T) (P : Proc S) : Proc (S.sum T) where
  Var := κ × P.Var
  Out := P.Out
  body v := (P.body v.2).over (L v.1) >>= fun x ↦ .done (x.map (Prod.mk v.1) id)

/-- What is left of it, on top of the layer `L k`. -/
def Proc.on {S T : Sig} {κ : Type} (L : κ → Layer T) (P : Proc S) (k : κ) (p : P.Code) :
    (P.over L).Code :=
  p.over (L k) >>= fun x ↦ .done (x.map (Prod.mk k) id)

/-- The layer carries such frames as `ok`, if its calls are answered by `F`: a frame `f` is sent as `wire f`. -/
structure Layer.Carries {T : Sig} (L : Layer T) (F : Env T) (wire : Frame → List Frame) (ok : Frame → Prop) :
    Prop where
  /-- It is sent. -/
  sends : ∀ f m, ∃ calls m', (L.snd f).Exec [] calls (wire f) () ∧ F.Answers m calls m'
  /-- It is received. -/
  receives : ∀ f m, ok f → ∃ calls m', (L.rcv f.length).Exec (wire f) calls [] f ∧ F.Answers m calls m'
  /-- Before that, the layer waits. -/
  waits : ∀ n m, 0 < n → ∃ calls m' n' k, 0 < n' ∧ (L.rcv n).Runs [] calls [] (.recvThen n' k) ∧
    F.Answers m calls m'

section
variable {S T : Sig} {α : Type} {M : Layer T} {bound : ℕ}

/-- On top of a layer, a program keeps to a bound that the layer keeps to. -/
theorem Prog.Within.over {p : Prog S α} (h : p.Within bound)
    (hsnd : ∀ f, f.length < bound → (M.snd f).Within bound)
    (hrcv : ∀ n, n < bound → (M.rcv n).Within bound) : (p.over M).Within bound := by
  induction p with
  | done a => trivial
  | raise e => trivial
  | sendThen f k ih => exact ((hsnd f h.1).inr S).bind fun _ ↦ ih h.2
  | recvThen n k ih => exact ((hrcv n h.1).inr S).bind fun f ↦ ih f (h.2 f)
  | callThen op k ih => exact fun r ↦ ih r (h r)

end

/-! ## Endpoints on top of a layer -/

section
variable {S T : Sig} {κ : Type} {L : κ → Layer T} {P : Proc S} {k : κ}

theorem Proc.on_send (f : Frame) (p : P.Code) :
    P.on L k (.sendThen f p) = ((L k).snd f).inr S >>= fun _ ↦ P.on L k p :=
  Prog.bind_assoc _ _ _

theorem Proc.on_recv (n : ℕ) (p : Frame → P.Code) :
    P.on L k (.recvThen n p) = ((L k).rcv n).inr S >>= fun f ↦ P.on L k (p f) :=
  Prog.bind_assoc _ _ _

end

namespace Endpoint

variable {S T : Sig} {κ : Type} {L : κ → Layer T} {P : Proc S} {E : Env S} {F : Env T} {k : κ}

/-- The program goes round its loop. -/
theorem act_loop {S : Sig} {P : Proc S} {E : Env S} (v : P.Var) (env : E.State) (log : List S.Call)
    (inbox : List Frame) :
    (⟨.done (.inl v), env, log⟩ : Endpoint P E).act inbox = some (⟨P.body v, env, log⟩, inbox, []) := rfl

/-- The program makes a call. -/
theorem act_call {S : Sig} {P : Proc S} {E : Env S} {op : S.Op} {r : S.Res op} {env env' : E.State}
    (h : E.answer env op = some (r, env')) (k : S.Res op → P.Code) (log : List S.Call) (inbox : List Frame) :
    (⟨.callThen op k, env, log⟩ : Endpoint P E).act inbox =
      some (⟨k r, env', log ++ [⟨op, r⟩]⟩, inbox, []) :=
  act_eq_some_iff.mpr (.call h)

/-- What the program has returned, if it has. -/
def result {S : Sig} {P : Proc S} {E : Env S} (e : Endpoint P E) : Option P.Out :=
  match e.code with
  | .done (.inr a) => some a
  | _ => none

/-- It has come to rest and is not waiting for nothing. -/
def Quiet {S : Sig} {P : Proc S} {E : Env S} (e : Endpoint P E) (inbox : List Frame) : Prop :=
  e.AtRest inbox ∧ ∀ n p, e.code = .recvThen n p → 0 < n

/-- The endpoint `e'` is at the same place of its program as `e`, on top of the layer `L k`. -/
structure Over (k : κ) (e : Endpoint P E) (e' : Endpoint (P.over L) (E.sum F)) : Prop where
  /-- So is what is left of it. -/
  code : e'.code = P.on L k e.code
  /-- The environments are the same. -/
  env : e'.env.1 = e.env
  /-- So are the calls. -/
  log : Sig.upper e'.log = e.log

/-- The endpoint `e'` has made the calls that `e` has made, and returned what `e` has returned. -/
structure Shows (e : Endpoint P E) (e' : Endpoint (P.over L) (E.sum F)) : Prop where
  /-- The environments are the same. -/
  env : e'.env.1 = e.env
  /-- So are the calls. -/
  log : Sig.upper e'.log = e.log
  /-- And what has been returned. -/
  result : e'.result = e.result

section
variable {σ ε : Type} {step : σ → ε → Option σ} {sys : Endpoint (P.over L) (E.sum F) → List Frame → List Frame → σ}
  {wire : Frame → List Frame} {ok : Frame → Prop} {e e₁ : Endpoint P E} {e' : Endpoint (P.over L) (E.sum F)}
  {inbox rest out : List Frame}

/-- **A move is followed** on top of a layer that carries frames. -/
theorem Over.reaches (hstep : ∀ (e e' : Endpoint (P.over L) (E.sum F)) (inbox rest out sent : List Frame),
      e.act inbox = some (e', rest, out) → ∃ a, step (sys e inbox sent) a = some (sys e' rest (sent ++ out)))
    (hL : (L k).Carries F wire ok) (hok : ∀ f ∈ inbox, ok f) (h : Over k e e')
    (hact : e.act inbox = some (e₁, rest, out)) (sent : List Frame) : ∃ e₁', Over k e₁ e₁' ∧
      Reaches step (sys e' (inbox.flatMap wire) sent) (sys e₁' (rest.flatMap wire) (sent ++ out.flatMap wire)) := by
  obtain ⟨code', ⟨s', m⟩, log'⟩ := e'
  obtain ⟨hcode, henv, hlog⟩ := h
  dsimp only at hcode henv hlog
  subst hcode henv
  cases act_eq_some_iff.mp hact with
  | @loop v s log =>
    obtain ⟨a, ha⟩ := hstep _ _ _ _ _ sent
      (act_loop (P := P.over L) (E := E.sum F) (k, v) (s, m) log' (inbox.flatMap wire))
    exact ⟨⟨P.on L k (P.body v), (s, m), log'⟩, ⟨rfl, rfl, hlog⟩, .head ha (.refl _)⟩
  | @send f p s log =>
    obtain ⟨calls, m', hexec, hanswers⟩ := hL.sends f m
    refine ⟨⟨P.on L k p, (s, m'), log' ++ calls.map Sig.below⟩, ⟨rfl, rfl, ?_⟩, ?_⟩
    · rw [Sig.upper_append, Sig.upper_below, List.append_nil, hlog]
    · have hreach := reaches_of_runs step sys hstep ((hexec.inr S).bind fun _ ↦ P.on L k p)
        (Env.sum_answers_below (s := s) hanswers) log' (inbox.flatMap wire) sent
      rw [List.flatMap_singleton]
      rwa [← Proc.on_send] at hreach
  | @recv p s log f =>
    obtain ⟨calls, m', hexec, hanswers⟩ := hL.receives f m (hok f List.mem_cons_self)
    refine ⟨⟨P.on L k (p f), (s, m'), log' ++ calls.map Sig.below⟩, ⟨rfl, rfl, ?_⟩, ?_⟩
    · rw [Sig.upper_append, Sig.upper_below, List.append_nil, hlog]
    · have hreach := reaches_of_runs step sys hstep ((hexec.inr S).bind fun f ↦ P.on L k (p f))
        (Env.sum_answers_below (s := s) hanswers) log' (rest.flatMap wire) sent
      rwa [← Proc.on_recv] at hreach
  | @call op p s s₁ log _ r hr =>
    obtain ⟨a, ha⟩ := hstep _ _ _ _ _ sent
      (act_call (P := P.over L) (E := E.sum F) (Env.sum_answer_above (F := F) (m := m) hr)
        (fun r ↦ P.on L k (p r)) log' (inbox.flatMap wire))
    refine ⟨⟨P.on L k (p r), (s₁, m), log' ++ [⟨.inl op, r⟩]⟩, ⟨rfl, rfl, ?_⟩, .head ha (.refl _)⟩
    rw [Sig.upper_append, Sig.upper_above, hlog]

/-- **An endpoint at rest comes to rest** on top of a layer that carries frames, and shows the same. -/
theorem Over.settles (hstep : ∀ (e e' : Endpoint (P.over L) (E.sum F)) (inbox rest out sent : List Frame),
      e.act inbox = some (e', rest, out) → ∃ a, step (sys e inbox sent) a = some (sys e' rest (sent ++ out)))
    (hL : (L k).Carries F wire ok) (h : Over k e e') (hrest : e.Quiet inbox) (sent : List Frame) : ∃ e₁',
      e₁'.Quiet (inbox.flatMap wire) ∧ e.Shows e₁' ∧
      Reaches step (sys e' (inbox.flatMap wire) sent) (sys e₁' (inbox.flatMap wire) sent) := by
  obtain ⟨code, s, log⟩ := e
  obtain ⟨code', ⟨s', m⟩, log'⟩ := e'
  obtain ⟨hcode, henv, hlog⟩ := h
  obtain ⟨hrest, hpos⟩ := hrest
  dsimp only at hcode henv hlog
  subst hcode henv
  match code with
  | .done (.inl v) => exact hrest.elim
  | .raise _ => exact hrest.elim
  | .sendThen f p => exact hrest.elim
  | .done (.inr a) =>
    obtain rfl : inbox = [] := hrest
    exact ⟨⟨.done (.inr a), (s', m), log'⟩, ⟨rfl, nofun⟩, ⟨rfl, hlog, rfl⟩, .refl _⟩
  | .callThen op p =>
    have hrest : E.answer s' op = none := hrest
    refine ⟨⟨P.on L k (.callThen op p), (s', m), log'⟩, ⟨?_, nofun⟩, ⟨rfl, hlog, rfl⟩, .refl _⟩
    exact Option.map_eq_none_iff.mpr hrest
  | .recvThen n p =>
    obtain rfl : inbox = [] := hrest
    obtain ⟨calls, m', n', q, hn', hruns, hanswers⟩ := hL.waits n m (hpos n p rfl)
    refine ⟨⟨.recvThen n' fun f ↦ (q f).inr S >>= fun f ↦ P.on L k (p f), (s', m'),
      log' ++ calls.map Sig.below⟩, ⟨rfl, ?_⟩, ⟨rfl, ?_, rfl⟩, ?_⟩
    · rintro _ _ ⟨⟩
      exact hn'
    · rw [Sig.upper_append, Sig.upper_below, List.append_nil, hlog]
    · have hreach := reaches_of_runs step sys hstep ((hruns.inr S).bind fun f ↦ P.on L k (p f))
        (Env.sum_answers_below (s := s') hanswers) log' [] sent
      rw [List.append_nil sent, ← Proc.on_recv] at hreach
      exact hreach

end

end Endpoint

/-! ## Duets on top of layers -/

namespace Duet

variable {S T S' T' : Sig} {κ κ' : Type} {L : κ → Layer T} {M : κ' → Layer T'} {P : Proc S} {E : Env S}
  {F : Env T} {Q : Proc S'} {E' : Env S'} {F' : Env T'} {k : κ} {k' : κ'} {wire : Frame → List Frame}
  {ok : Frame → Prop}

/-- The two sides of `c'` are at the same places as those of `c`, on top of the layers `L k` and `M k'`. -/
structure Over (wire : Frame → List Frame) (k : κ) (k' : κ') (c : Duet P E Q E')
    (c' : Duet (P.over L) (E.sum F) (Q.over M) (E'.sum F')) : Prop where
  left : Endpoint.Over k c.left c'.left
  right : Endpoint.Over k' c.right c'.right
  toRight : c'.toRight = c.toRight.flatMap wire
  toLeft : c'.toLeft = c.toLeft.flatMap wire

/-- Both sides have come to rest, and are not waiting for nothing. -/
def Quiet {S T : Sig} {P : Proc S} {E : Env S} {Q : Proc T} {F : Env T} (c : Duet P E Q F) : Prop :=
  c.left.Quiet c.toLeft ∧ c.right.Quiet c.toRight

theorem Quiet.atRest {c : Duet P E Q E'} (h : c.Quiet) : c.AtRest := ⟨h.1.1, h.2.1⟩

/-- Both sides of `c'` show what those of `c` show. -/
structure Shows (wire : Frame → List Frame) (c : Duet P E Q E')
    (c' : Duet (P.over L) (E.sum F) (Q.over M) (E'.sum F')) : Prop where
  left : c.left.Shows c'.left
  right : c.right.Shows c'.right
  toRight : c'.toRight = c.toRight.flatMap wire
  toLeft : c'.toLeft = c.toLeft.flatMap wire

/-- The left side alone, as a system. -/
theorem left_step {S T : Sig} {P : Proc S} {E : Env S} {Q : Proc T} {F : Env T}
    (right : Endpoint Q F) (toRight : List Frame) (e e' : Endpoint P E)
    (inbox rest out sent : List Frame) (h : e.act inbox = some (e', rest, out)) : ∃ a,
      step (⟨e, right, toRight ++ sent, inbox⟩ : Duet P E Q F) a =
        some ⟨e', right, toRight ++ (sent ++ out), rest⟩ :=
  ⟨.left, step_left_eq_some.mpr ⟨e', rest, out, h, by rw [List.append_assoc]⟩⟩

/-- The right side alone, as a system. -/
theorem right_step {S T : Sig} {P : Proc S} {E : Env S} {Q : Proc T} {F : Env T}
    (left : Endpoint P E) (toLeft : List Frame) (e e' : Endpoint Q F)
    (inbox rest out sent : List Frame) (h : e.act inbox = some (e', rest, out)) : ∃ a,
      step (⟨left, e, inbox, toLeft ++ sent⟩ : Duet P E Q F) a =
        some ⟨left, e', rest, toLeft ++ (sent ++ out)⟩ :=
  ⟨.right, step_right_eq_some.mpr ⟨e', rest, out, h, by rw [List.append_assoc]⟩⟩

/-- **One step is followed** on top of layers that carry frames. -/
theorem Over.step (hL : (L k).Carries F wire ok) (hM : (M k').Carries F' wire ok) {c d : Duet P E Q E'}
    {c' : Duet (P.over L) (E.sum F) (Q.over M) (E'.sum F')} (h : Over wire k k' c c')
    (hok : c.InFlight ok) {side : Side} (hstep : c.step side = some d) :
    ∃ d', Over wire k k' d d' ∧ Reaches Duet.step c' d' := by
  obtain ⟨left', right', toRight', toLeft'⟩ := c'
  obtain ⟨hleft, hright, htoRight, htoLeft⟩ := h
  dsimp only at hleft hright htoRight htoLeft
  subst htoRight htoLeft
  cases side with
  | left =>
    obtain ⟨e, rest, out, hact, rfl⟩ := step_left_eq_some.mp hstep
    obtain ⟨e', hover, hreach⟩ := hleft.reaches (left_step _ _) hL hok.2 hact []
    rw [List.append_nil] at hreach
    refine ⟨_, ⟨hover, hright, ?_, rfl⟩, hreach⟩
    exact (congrArg _ (List.nil_append _)).trans List.flatMap_append.symm
  | right =>
    obtain ⟨e, rest, out, hact, rfl⟩ := step_right_eq_some.mp hstep
    obtain ⟨e', hover, hreach⟩ := hright.reaches (right_step _ _) hM hok.1 hact []
    rw [List.append_nil] at hreach
    refine ⟨_, ⟨hleft, hover, rfl, ?_⟩, hreach⟩
    exact (congrArg _ (List.nil_append _)).trans List.flatMap_append.symm

/-- **Every run is followed**, as long as nothing is sent that the layers do not carry. -/
theorem Over.run (hL : (L k).Carries F wire ok) (hM : (M k').Carries F' wire ok) {c d : Duet P E Q E'}
    {c' : Duet (P.over L) (E.sum F) (Q.over M) (E'.sum F')} (h : Over wire k k' c c')
    (hok : ∀ m, Reaches Duet.step c m → m.InFlight ok) (hreach : Reaches Duet.step c d) :
    ∃ d', Over wire k k' d d' ∧ Reaches Duet.step c' d' := by
  refine (hreach.inv (P := fun d ↦ Reaches Duet.step c d ∧ ∃ d', Over wire k k' d d' ∧ Reaches Duet.step c' d')
    ?_ ⟨.refl _, c', h, .refl _⟩).2
  rintro m side d ⟨hm, m', hover, hm'⟩ hstep
  obtain ⟨d', hover', hd'⟩ := hover.step hL hM (hok m hm) hstep
  exact ⟨hm.trans (.head hstep (.refl _)), d', hover', hm'.trans hd'⟩

/-- **Where two programs come to rest, they come to rest on top of layers too**, and show the same. -/
theorem Over.settles (hL : (L k).Carries F wire ok) (hM : (M k').Carries F' wire ok) {c d : Duet P E Q E'}
    {c' : Duet (P.over L) (E.sum F) (Q.over M) (E'.sum F')} (h : Over wire k k' c c')
    (hok : ∀ m, Reaches Duet.step c m → m.InFlight ok) (hreach : Reaches Duet.step c d) (hrest : d.Quiet) :
    ∃ d', Reaches Duet.step c' d' ∧ d'.Quiet ∧ Shows wire d d' := by
  obtain ⟨⟨left', right', toRight', toLeft'⟩, ⟨hleft, hright, htoRight, htoLeft⟩, hd'⟩ := h.run hL hM hok hreach
  dsimp only at hleft hright htoRight htoLeft
  subst htoRight htoLeft
  obtain ⟨e, hquiet, hshows, he⟩ := hleft.settles (left_step _ _) hL hrest.1 []
  obtain ⟨e', hquiet', hshows', he'⟩ := hright.settles (right_step _ _) hM hrest.2 []
  rw [List.append_nil] at he he'
  exact ⟨_, hd'.trans (he.trans he'), ⟨hquiet, hquiet'⟩, ⟨hshows, hshows', rfl, rfl⟩⟩

end Duet

/-! ## What is below goes first -/

namespace Endpoint

variable {S T : Sig} {α : Type} {P : Proc S} {E : Env S} {F : Env T}

/-- The endpoint with more to do after it. -/
def before {P : Proc (S.sum T)} (g : α → P.Code) (s : E.State) (e : Endpoint (Proc.straight T α) F) :
    Endpoint P (E.sum F) where
  code := e.code.inr S >>= Sum.elim Empty.elim g
  env := (s, e.env)
  log := e.log.map Sig.below

theorem act_before {P : Proc (S.sum T)} {g : α → P.Code} {s : E.State}
    {e e' : Endpoint (Proc.straight T α) F} {inbox rest out : List Frame}
    (h : e.act inbox = some (e', rest, out)) :
    (e.before g s : Endpoint P (E.sum F)).act inbox = some (e'.before g s, rest, out) := by
  cases act_eq_some_iff.mp h with
  | @loop v => exact v.elim
  | send => exact act_eq_some_iff.mpr .send
  | recv => exact act_eq_some_iff.mpr .recv
  | @call op k m m' log _ r hr =>
    have hanswer : (E.sum F).answer (s, m) (.inr op) = some (r, s, m') := by
      simp only [Env.sum, hr, Option.map_some]
    simp only [before, List.map_append]
    exact act_eq_some_iff.mpr (.call (P := P) (E := E.sum F) hanswer)

end Endpoint

namespace Duet

variable {S T S' T' : Sig} {α β : Type} {F : Env T} {F' : Env T'} {E : Env S} {E' : Env S'}
  {P : Proc (S.sum T)} {Q : Proc (S'.sum T')} {g : α → P.Code} {h : β → Q.Code} {s : E.State} {t : E'.State}

/-- **What two programs come to on their own**, they come to before anything else. -/
theorem reaches_before {c d : Duet (Proc.straight T α) F (Proc.straight T' β) F'}
    (hreach : Reaches Duet.step c d) :
    Reaches Duet.step
      (⟨c.left.before g s, c.right.before h t, c.toRight, c.toLeft⟩ : Duet P (E.sum F) Q (E'.sum F'))
      ⟨d.left.before g s, d.right.before h t, d.toRight, d.toLeft⟩ := by
  refine hreach.inv (P := fun d ↦ Reaches Duet.step _
    (⟨d.left.before g s, d.right.before h t, d.toRight, d.toLeft⟩ : Duet P (E.sum F) Q (E'.sum F')))
    ?_ (.refl _)
  intro c side d hc hstep
  refine hc.trans (.head (e := side) ?_ (.refl _))
  cases side with
  | left =>
    obtain ⟨e, rest, out, hact, rfl⟩ := step_left_eq_some.mp hstep
    exact step_left_eq_some.mpr ⟨_, rest, out, Endpoint.act_before hact, rfl⟩
  | right =>
    obtain ⟨e, rest, out, hact, rfl⟩ := step_right_eq_some.mp hstep
    exact step_right_eq_some.mpr ⟨_, rest, out, Endpoint.act_before hact, rfl⟩

/-- The duet with its sides exchanged. -/
def swap {S T : Sig} {P : Proc S} {E : Env S} {Q : Proc T} {F : Env T} (c : Duet P E Q F) : Duet Q F P E :=
  ⟨c.right, c.left, c.toLeft, c.toRight⟩

theorem step_swap {S T : Sig} {P : Proc S} {E : Env S} {Q : Proc T} {F : Env T} (c : Duet P E Q F)
    (side : Side) : c.swap.step side.other = (c.step side).map swap := by
  cases side with
  | left => simp only [step, Side.other, swap, Option.map_map, Function.comp_def]
  | right => simp only [step, Side.other, swap, Option.map_map, Function.comp_def]

theorem reaches_swap {S T : Sig} {P : Proc S} {E : Env S} {Q : Proc T} {F : Env T} {c d : Duet P E Q F}
    (h : Reaches Duet.step c d) : Reaches Duet.step c.swap d.swap := by
  refine h.inv (P := fun d ↦ Reaches Duet.step c.swap d.swap) ?_ (.refl _)
  intro c' side d hc hstep
  refine hc.trans (.head (e := side.other) ?_ (.refl _))
  rw [step_swap, hstep, Option.map_some]

end Duet

end Lib
end RfcNet
