import RfcNet.Lib.Duet

/-!
# Two programs that hang up

A duet whose sides close their connection as they end, be it that they return or that they are
terminated.  A side whose peer has closed still receives what was sent to it; after that a receive
fails, and leaves its buffer as it was or with anything else in it.  What the `k`-th receive that fails
leaves is `junk k`, so that a system has two events again, "the left one moves" and "the right one
moves", and the moves of the two sides still commute: a side that has ended does not move.

A `Parting` also records what each side has sent, and whose receives have failed.
-/

set_option autoImplicit false

namespace RfcNet
namespace Lib

namespace Endpoint

variable {S : Sig} {P : Proc S} {E : Env S}

/-- The endpoint has returned or was terminated. -/
def ended (e : Endpoint P E) : Bool :=
  match e.code with
  | .done (.inr _) => true
  | .raise _ => true
  | _ => false

/-- A receive that fails, which takes a peer that has closed. -/
def giveUp (closed : Bool) (junk : ℕ → UInt8) (e : Endpoint P E) :
    Option (Endpoint P E × List Frame × List Frame × Bool) :=
  match e.code with
  | .recvThen n k =>
    if closed then some ({ e with code := k ((List.range n).map junk) }, [], [], true) else none
  | _ => none

/-- The next move, towards a peer that may have closed: the endpoint after it, what it leaves of the
inbox, what it sends, and whether it is a receive that failed. -/
def attempt (closed : Bool) (junk : ℕ → UInt8) (e : Endpoint P E) (inbox : List Frame) :
    Option (Endpoint P E × List Frame × List Frame × Bool) :=
  match e.act inbox with
  | some m => some (m.1, m.2.1, m.2.2, false)
  | none => e.giveUp closed junk

section
variable {closed : Bool} {junk : ℕ → UInt8} {e e' : Endpoint P E} {inbox rest out : List Frame}

theorem closed_of_giveUp {failed : Bool} (h : e.giveUp closed junk = some (e', rest, out, failed)) :
    failed = true ∧ closed = true := by
  rw [giveUp] at h
  split at h
  · split at h
    · cases h
      exact ⟨rfl, ‹_›⟩
    · cases h
  · cases h

theorem attempt_of_act (h : e.act inbox = some (e', rest, out)) :
    e.attempt closed junk inbox = some (e', rest, out, false) := by
  rw [attempt, h]

/-- A move on an inbox is a move of the duet, or it comes after the peer has closed. -/
theorem act_of_attempt {failed : Bool}
    (h : e.attempt closed junk inbox = some (e', rest, out, failed)) :
    (failed = false ∧ e.act inbox = some (e', rest, out)) ∨ (failed = true ∧ closed = true) := by
  rw [attempt] at h
  split at h
  · rename_i hact
    cases h
    exact .inl ⟨rfl, hact⟩
  · exact .inr (closed_of_giveUp h)

theorem act_of_ended (h : e.ended = true) : e.act inbox = none := by
  obtain ⟨code, env, log⟩ := e
  match code with
  | .done (.inr _) => rfl
  | .raise _ => rfl

/-- What has ended does not move. -/
theorem attempt_of_ended (h : e.ended = true) : e.attempt closed junk inbox = none := by
  obtain ⟨code, env, log⟩ := e
  match code with
  | .done (.inr _) => rfl
  | .raise _ => rfl

end

end Endpoint

namespace Duet

variable {S T : Sig} {P : Proc S} {E : Env S} {Q : Proc T} {F : Env T}

/-- A right side that has ended stays as it is. -/
theorem right_of_ended {c d : Duet P E Q F} (hended : c.right.ended = true)
    (h : Reaches step c d) : d.right = c.right := by
  refine h.inv (P := fun d ↦ d.right = c.right) ?_ rfl
  intro d side d' hd hs
  cases side with
  | left =>
    obtain ⟨e, rest, out, -, rfl⟩ := step_left_eq_some.mp hs
    exact hd
  | right =>
    obtain ⟨e, rest, out, he, -⟩ := step_right_eq_some.mp hs
    rw [hd, Endpoint.act_of_ended hended] at he
    cases he

/-- **One run speaks for the calls of the right side in all of them**, if it comes to where that side
does not move any more. -/
theorem right_log_of_reaches {c d u : Duet P E Q F} (hd : Reaches step c d)
    (hend : Stuck step d ∨ d.right.ended = true) (hu : Reaches step c u) :
    u.right.log <+: d.right.log ∧ (Stuck step u → u.right.log = d.right.log) := by
  obtain ⟨v, hdv, huv⟩ := diamond.join hd hu
  have hv : v.right = d.right := by
    rcases hend with hst | hended
    · rw [hst.eq_of_reaches hdv]
    · exact right_of_ended hended hdv
  have hlog := log_prefix huv
  rw [← hv]
  exact ⟨hlog.2, fun hst ↦ by rw [hst.eq_of_reaches huv]⟩

end Duet

/-- A duet whose sides hang up. -/
structure Parting {S T : Sig} (P : Proc S) (E : Env S) (Q : Proc T) (F : Env T) where
  /-- The two sides. -/
  duet : Duet P E Q F
  /-- What the left side has sent. -/
  said : List Frame
  /-- What the right side has sent. -/
  answered : List Frame
  /-- The sides whose receives have failed, in this order. -/
  failed : List Side

namespace Parting

variable {S T : Sig} {P : Proc S} {E : Env S} {Q : Proc T} {F : Env T}

/-- The duet before its first move. -/
def start (c : Duet P E Q F) : Parting P E Q F := ⟨c, [], [], []⟩

/-- One side moves. -/
def step (junk : ℕ → ℕ → UInt8) (c : Parting P E Q F) : Side → Option (Parting P E Q F)
  | .left =>
    (c.duet.left.attempt c.duet.right.ended (junk c.failed.length) c.duet.toLeft).map fun m ↦
      { duet := { c.duet with left := m.1, toLeft := m.2.1, toRight := c.duet.toRight ++ m.2.2.1 }
        said := c.said ++ m.2.2.1
        answered := c.answered
        failed := if m.2.2.2 then c.failed ++ [.left] else c.failed }
  | .right =>
    (c.duet.right.attempt c.duet.left.ended (junk c.failed.length) c.duet.toRight).map fun m ↦
      { duet := { c.duet with right := m.1, toRight := m.2.1, toLeft := c.duet.toLeft ++ m.2.2.1 }
        said := c.said
        answered := c.answered ++ m.2.2.1
        failed := if m.2.2.2 then c.failed ++ [.right] else c.failed }

variable {junk : ℕ → ℕ → UInt8}

theorem step_left_of_act {c : Parting P E Q F} {e : Endpoint P E} {rest out : List Frame}
    (h : c.duet.left.act c.duet.toLeft = some (e, rest, out)) : step junk c .left =
      some ⟨{ c.duet with left := e, toLeft := rest, toRight := c.duet.toRight ++ out },
        c.said ++ out, c.answered, c.failed⟩ := by
  rw [step, Endpoint.attempt_of_act h]
  rfl

theorem step_right_of_act {c : Parting P E Q F} {e : Endpoint Q F} {rest out : List Frame}
    (h : c.duet.right.act c.duet.toRight = some (e, rest, out)) : step junk c .right =
      some ⟨{ c.duet with right := e, toRight := rest, toLeft := c.duet.toLeft ++ out },
        c.said, c.answered ++ out, c.failed⟩ := by
  rw [step, Endpoint.attempt_of_act h]
  rfl

/-- A step of the left side is one of the duet, or the right side has ended. -/
theorem cases_step_left {c d : Parting P E Q F} (h : step junk c .left = some d) :
    (∃ e rest out, c.duet.left.act c.duet.toLeft = some (e, rest, out) ∧
      d = ⟨{ c.duet with left := e, toLeft := rest, toRight := c.duet.toRight ++ out },
        c.said ++ out, c.answered, c.failed⟩) ∨
    (c.duet.right.ended = true ∧ d.failed = c.failed ++ [.left]) := by
  rw [step, Option.map_eq_some_iff] at h
  obtain ⟨⟨e, rest, out, failed⟩, hattempt, rfl⟩ := h
  rcases Endpoint.act_of_attempt hattempt with ⟨rfl, hact⟩ | ⟨rfl, hended⟩
  · exact .inl ⟨e, rest, out, hact, rfl⟩
  · exact .inr ⟨hended, rfl⟩

/-- A step of the right side is one of the duet, or the left side has ended. -/
theorem cases_step_right {c d : Parting P E Q F} (h : step junk c .right = some d) :
    (∃ e rest out, c.duet.right.act c.duet.toRight = some (e, rest, out) ∧
      d = ⟨{ c.duet with right := e, toRight := rest, toLeft := c.duet.toLeft ++ out },
        c.said, c.answered ++ out, c.failed⟩) ∨
    (c.duet.left.ended = true ∧ d.failed = c.failed ++ [.right]) := by
  rw [step, Option.map_eq_some_iff] at h
  obtain ⟨⟨e, rest, out, failed⟩, hattempt, rfl⟩ := h
  rcases Endpoint.act_of_attempt hattempt with ⟨rfl, hact⟩ | ⟨rfl, hended⟩
  · exact .inl ⟨e, rest, out, hact, rfl⟩
  · exact .inr ⟨hended, rfl⟩

theorem step_left_of_ended {c : Parting P E Q F} (h : c.duet.left.ended = true) :
    step junk c .left = none := by
  rw [step, Endpoint.attempt_of_ended h, Option.map_none]

theorem step_right_of_ended {c : Parting P E Q F} (h : c.duet.right.ended = true) :
    step junk c .right = none := by
  rw [step, Endpoint.attempt_of_ended h, Option.map_none]

/-- Where both sides have ended, nothing can happen. -/
theorem stuck_of_ended {c : Parting P E Q F} (hleft : c.duet.left.ended = true)
    (hright : c.duet.right.ended = true) : Stuck (step junk) c := by
  intro side
  cases side with
  | left => exact step_left_of_ended hleft
  | right => exact step_right_of_ended hright

private theorem left_right_commute {c d₁ d₂ : Parting P E Q F} (h₁ : step junk c .left = some d₁)
    (h₂ : step junk c .right = some d₂) :
    ∃ v, step junk d₁ .right = some v ∧ step junk d₂ .left = some v := by
  rcases cases_step_left h₁ with ⟨e, rest, out, he, rfl⟩ | ⟨hended, -⟩
  · rcases cases_step_right h₂ with ⟨e', rest', out', he', rfl⟩ | ⟨hended, -⟩
    · exact ⟨_, step_right_of_act (Endpoint.act_append he'),
        step_left_of_act (Endpoint.act_append he)⟩
    · rw [step_left_of_ended hended] at h₁
      cases h₁
  · rw [step_right_of_ended hended] at h₂
    cases h₂

/-- **The moves of the two sides commute.** -/
theorem diamond : Diamond (step (P := P) (E := E) (Q := Q) (F := F) junk) := by
  intro c a b d₁ d₂ hab h₁ h₂
  match a, b with
  | .left, .left => exact absurd rfl hab
  | .right, .right => exact absurd rfl hab
  | .left, .right => exact left_right_commute h₁ h₂
  | .right, .left =>
    obtain ⟨v, hv₂, hv₁⟩ := left_right_commute h₂ h₁
    exact ⟨v, hv₁, hv₂⟩

/-! ## What stays as it is -/

theorem failed_prefix_of_step {c d : Parting P E Q F} {side : Side}
    (h : step junk c side = some d) : c.failed <+: d.failed := by
  cases side with
  | left =>
    rcases cases_step_left h with ⟨_, _, _, -, rfl⟩ | ⟨-, hfailed⟩
    · exact List.prefix_rfl
    · exact hfailed ▸ List.prefix_append _ _
  | right =>
    rcases cases_step_right h with ⟨_, _, _, -, rfl⟩ | ⟨-, hfailed⟩
    · exact List.prefix_rfl
    · exact hfailed ▸ List.prefix_append _ _

/-- What has failed has failed. -/
theorem failed_prefix {c d : Parting P E Q F} (h : Reaches (step junk) c d) :
    c.failed <+: d.failed :=
  h.inv (P := fun d ↦ c.failed <+: d.failed)
    (fun _ _ _ hp hs ↦ hp.trans (failed_prefix_of_step hs)) List.prefix_rfl

/-- The left side says nothing more once it has ended. -/
theorem said_of_ended {c d : Parting P E Q F} (hended : c.duet.left.ended = true)
    (h : Reaches (step junk) c d) : d.said = c.said := by
  refine (h.inv (P := fun d ↦ d.duet.left.ended = true ∧ d.said = c.said) ?_ ⟨hended, rfl⟩).2
  rintro d side d' ⟨hleft, hsaid⟩ hs
  cases side with
  | left =>
    rw [step_left_of_ended hleft] at hs
    cases hs
  | right =>
    rw [step, Option.map_eq_some_iff] at hs
    obtain ⟨m, -, rfl⟩ := hs
    exact ⟨hleft, hsaid⟩

/-- The right side stays as it is once it has ended. -/
theorem right_of_ended {c d : Parting P E Q F} (hended : c.duet.right.ended = true)
    (h : Reaches (step junk) c d) : d.duet.right = c.duet.right := by
  refine h.inv (P := fun d ↦ d.duet.right = c.duet.right) ?_ rfl
  intro d side d' hd hs
  cases side with
  | left =>
    rw [step, Option.map_eq_some_iff] at hs
    obtain ⟨m, -, rfl⟩ := hs
    exact hd
  | right =>
    rw [step_right_of_ended (hd ▸ hended)] at hs
    cases hs

/-- **A run in which no receive fails** is a run of the duet. -/
theorem run_duet {c d : Parting P E Q F} {sides : List Side}
    (h : run (step junk) c sides = some d) (hfailed : d.failed = c.failed) :
    run Duet.step c.duet sides = some d.duet := by
  induction sides generalizing c with
  | nil =>
    obtain rfl : c = d := Option.some_inj.mp h
    rfl
  | cons side sides ih =>
    obtain ⟨m, hm, hrest⟩ := run_cons_eq_some.mp h
    have hcm := failed_prefix_of_step hm
    have hmd := failed_prefix ⟨sides, hrest⟩
    have hmfailed : m.failed = c.failed :=
      (hcm.eq_of_length_le (hfailed ▸ hmd.length_le)).symm
    refine run_cons_eq_some.mpr ⟨m.duet, ?_, ih hrest (hfailed.trans hmfailed.symm)⟩
    have hgrows : ∀ side : Side, m.failed ≠ c.failed ++ [side] := fun side heq ↦ by
      simpa using congrArg List.length (hmfailed.symm.trans heq)
    cases side with
    | left =>
      rcases cases_step_left hm with ⟨e, rest, out, he, rfl⟩ | ⟨-, heq⟩
      · exact Duet.step_left_eq_some.mpr ⟨e, rest, out, he, rfl⟩
      · exact absurd heq (hgrows _)
    | right =>
      rcases cases_step_right hm with ⟨e, rest, out, he, rfl⟩ | ⟨-, heq⟩
      · exact Duet.step_right_eq_some.mpr ⟨e, rest, out, he, rfl⟩
      · exact absurd heq (hgrows _)

theorem reaches_duet {c d : Parting P E Q F} (h : Reaches (step junk) c d)
    (hfailed : d.failed = c.failed) : Reaches Duet.step c.duet d.duet := by
  obtain ⟨sides, hsides⟩ := h
  exact ⟨sides, run_duet hsides hfailed⟩

/-! ## Runs of one side -/

section
variable {ins outs said answered : List Frame} {failed : List Side}

/-- The left side runs on its own, with what it needs at the head of its inbox. -/
theorem reaches_left {p q : P.Code} {calls : List S.Call} {env env' : E.State}
    (h : p.Runs ins calls outs q) (henv : E.Answers env calls env') (log : List S.Call)
    (right : Endpoint Q F) (toRight toLeft : List Frame) :
    Reaches (step junk)
      (⟨⟨⟨p, env, log⟩, right, toRight, ins ++ toLeft⟩, said, answered, failed⟩ :
        Parting P E Q F)
      ⟨⟨⟨q, env', log ++ calls⟩, right, toRight ++ outs, toLeft⟩, said ++ outs, answered,
        failed⟩ := by
  have hruns := Endpoint.reaches_of_runs (step junk)
    (fun e inbox sent ↦ (⟨⟨e, right, toRight ++ sent, inbox⟩, said ++ sent, answered, failed⟩ :
      Parting P E Q F))
    (fun e e' inbox rest out sent hact ↦ ⟨Side.left, by
      rw [step_left_of_act hact, List.append_assoc, List.append_assoc]⟩)
    h henv log toLeft []
  rwa [List.append_nil, List.append_nil] at hruns

/-- The same for the right side. -/
theorem reaches_right {p q : Q.Code} {calls : List T.Call} {env env' : F.State}
    (h : p.Runs ins calls outs q) (henv : F.Answers env calls env') (log : List T.Call)
    (left : Endpoint P E) (toRight toLeft : List Frame) :
    Reaches (step junk)
      (⟨⟨left, ⟨p, env, log⟩, ins ++ toRight, toLeft⟩, said, answered, failed⟩ :
        Parting P E Q F)
      ⟨⟨left, ⟨q, env', log ++ calls⟩, toRight, toLeft ++ outs⟩, said, answered ++ outs,
        failed⟩ := by
  have hruns := Endpoint.reaches_of_runs (step junk)
    (fun e inbox sent ↦ (⟨⟨left, e, inbox, toLeft ++ sent⟩, said, answered ++ sent, failed⟩ :
      Parting P E Q F))
    (fun e e' inbox rest out sent hact ↦ ⟨Side.right, by
      rw [step_right_of_act hact, List.append_assoc, List.append_assoc]⟩)
    h henv log toRight []
  rwa [List.append_nil, List.append_nil] at hruns

/-- The right side goes round its loop. -/
theorem step_right_loop {v : Q.Var} {env : F.State} {log : List T.Call} {left : Endpoint P E}
    {toRight toLeft : List Frame} :
    step junk
      (⟨⟨left, ⟨.done (.inl v), env, log⟩, toRight, toLeft⟩, said, answered, failed⟩ :
        Parting P E Q F) .right =
      some ⟨⟨left, ⟨Q.body v, env, log⟩, toRight, toLeft⟩, said, answered, failed⟩ := by
  rw [step_right_of_act (Endpoint.act_eq_some_iff.mpr .loop)]
  simp only [List.append_nil]

end

end Parting

end Lib
end RfcNet
