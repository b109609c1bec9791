import RfcNet.Lib.Duet

/-!
# Environments that answer as they please, and scripts of what they answered

An environment that other parties share cannot be part of the state of an endpoint.  `Env.oracle`
leaves its answers to whoever runs the system: its state is the function that answers the next call.

What an endpoint does in such an environment it would also do in one that reads its answers off a
list, `Env.scripted`, if the list is that of the answers it has been given (`Endpoint.act_scripted`).
This is how a run of a larger system becomes a run of a duet, to which `Duet.settled_all` applies.
Where the script ends, or says something else, a scripted environment falls back on a default, or
does not answer.
-/

set_option autoImplicit false

namespace RfcNet
namespace Lib

variable {S : Sig}

/-- The environment that answers in whatever way its state says. -/
def Env.oracle (S : Sig) : Env S where
  State := (op : S.Op) → S.Res op
  answer s op := some (s op, s)

/-- The environment that answers in the way its state says, or not at all. -/
def Env.told (S : Sig) : Env S where
  State := (op : S.Op) → Option (S.Res op)
  answer s op := (s op).map (·, s)

/-- The environment that answers from a script, and otherwise as `fallback` says. -/
def Env.scripted [DecidableEq S.Op] (fallback : (op : S.Op) → Option (S.Res op)) : Env S where
  State := List S.Call
  answer
    | [], op => (fallback op).map (·, [])
    | ⟨op', r⟩ :: rest, op =>
      if h : op' = op then some (h ▸ r, rest) else (fallback op).map (·, ⟨op', r⟩ :: rest)

section
variable [DecidableEq S.Op] {fallback : (op : S.Op) → Option (S.Res op)} {P : Proc S}

theorem Env.scripted_cons (op : S.Op) (r : S.Res op) (rest : List S.Call) :
    (Env.scripted fallback).answer (⟨op, r⟩ :: rest) op = some (r, rest) := by
  simp [Env.scripted]

/-- **What a scripted environment answers**: what comes next in the script, or its fallback. -/
theorem Env.scripted_cases {script script' : List S.Call} {op : S.Op} {r : S.Res op}
    (h : (Env.scripted fallback).answer script op = some (r, script')) :
    script = ⟨op, r⟩ :: script' ∨ (script' = script ∧ fallback op = some r) := by
  cases script with
  | nil =>
    obtain ⟨r', hr', heq⟩ := Option.map_eq_some_iff.mp h
    obtain ⟨rfl, rfl⟩ := Prod.mk.inj heq
    exact .inr ⟨rfl, hr'⟩
  | cons c rest =>
    obtain ⟨op', r'⟩ := c
    simp only [Env.scripted] at h
    split at h
    · rename_i heq
      subst heq
      obtain ⟨rfl, rfl⟩ := Prod.mk.inj (Option.some_inj.mp h)
      exact .inl rfl
    · obtain ⟨r'', hr'', heq⟩ := Option.map_eq_some_iff.mp h
      obtain ⟨rfl, rfl⟩ := Prod.mk.inj heq
      exact .inr ⟨rfl, hr''⟩

/-- What is left of a script. -/
theorem Env.scripted_suffix {script script' : List S.Call} {op : S.Op} {r : S.Res op}
    (h : (Env.scripted fallback).answer script op = some (r, script')) : script' <:+ script := by
  rcases Env.scripted_cases h with rfl | ⟨rfl, -⟩
  · exact List.suffix_cons _ _
  · exact List.suffix_rfl

/-- A call with a default is answered. -/
theorem Env.exists_scripted {op : S.Op} {d : S.Res op} (hop : fallback op = some d)
    (script : List S.Call) :
    ∃ r script', (Env.scripted fallback).answer script op = some (r, script') := by
  cases script with
  | nil => exact ⟨d, [], by simp [Env.scripted, hop]⟩
  | cons c rest =>
    obtain ⟨op', r'⟩ := c
    by_cases heq : op' = op
    · subst heq
      exact ⟨_, _, Env.scripted_cons _ _ _⟩
    · exact ⟨d, ⟨op', r'⟩ :: rest, by simp [Env.scripted, heq, hop]⟩

/-- A call without a default is answered if it is the next one of the script. -/
theorem Env.scripted_none {op : S.Op} (hop : fallback op = none) (script : List S.Call) :
    (Env.scripted fallback).answer script op = none ∨ ∃ r rest, script = ⟨op, r⟩ :: rest := by
  cases script with
  | nil => exact .inl (by simp [Env.scripted, hop])
  | cons c rest =>
    obtain ⟨op', r'⟩ := c
    by_cases heq : op' = op
    · subst heq
      exact .inr ⟨_, _, rfl⟩
    · exact .inl (by simp [Env.scripted, heq, hop])

/-- The endpoint with its environment replaced by a script. -/
def Endpoint.scripted (e : Endpoint P (Env.oracle S)) (fallback : (op : S.Op) → Option (S.Res op))
    (script : List S.Call) : Endpoint P (Env.scripted fallback) := ⟨e.code, script, e.log⟩

/-- **A move in an environment that answers as it pleases is a move by the script of its
answers.** -/
theorem Endpoint.act_scripted {e e' : Endpoint P (Env.oracle S)} {inbox rest out : List Frame}
    (h : e.act inbox = some (e', rest, out)) :
    ∃ calls, e'.log = e.log ++ calls ∧ ∀ script,
      (e.scripted fallback (calls ++ script)).act inbox =
        some (e'.scripted fallback script, rest, out) := by
  cases Endpoint.act_eq_some_iff.mp h with
  | loop => exact ⟨[], (List.append_nil _).symm, fun _ ↦ rfl⟩
  | send => exact ⟨[], (List.append_nil _).symm, fun _ ↦ rfl⟩
  | recv =>
    exact ⟨[], (List.append_nil _).symm, fun _ ↦ Endpoint.act_eq_some_iff.mpr .recv⟩
  | call hr =>
    exact ⟨[⟨_, _⟩], rfl, fun script ↦
      Endpoint.act_eq_some_iff.mpr (.call (Env.scripted_cons _ _ script))⟩

/-- What is left of the script of an endpoint. -/
def Endpoint.script (e : Endpoint P (Env.scripted fallback)) : List S.Call := e.env

/-- **What a script and its defaults are like**, the record is like: a move keeps it so. -/
theorem Endpoint.log_of_script {good : S.Call → Prop} (hdefault : ∀ op r, fallback op = some r → good ⟨op, r⟩)
    {e e' : Endpoint P (Env.scripted fallback)} {inbox rest out : List Frame}
    (hscript : ∀ c ∈ e.script, good c) (hlog : ∀ c ∈ e.log, good c)
    (h : e.act inbox = some (e', rest, out)) :
    (∀ c ∈ e'.script, good c) ∧ ∀ c ∈ e'.log, good c := by
  cases Endpoint.act_eq_some_iff.mp h with
  | loop => exact ⟨hscript, hlog⟩
  | send => exact ⟨hscript, hlog⟩
  | recv => exact ⟨hscript, hlog⟩
  | call hr =>
    rcases Env.scripted_cases hr with rfl | ⟨rfl, hop⟩
    · obtain ⟨hc, hrest⟩ := List.forall_mem_cons.mp hscript
      exact ⟨hrest, List.forall_mem_append.mpr ⟨hlog, List.forall_mem_singleton.mpr hc⟩⟩
    · exact ⟨hscript, List.forall_mem_append.mpr ⟨hlog, List.forall_mem_singleton.mpr (hdefault _ _ hop)⟩⟩

/-- **A move in any environment is a move by the script of its answers**, whatever else is on record. -/
theorem Endpoint.act_by_script {E : Env S} {e e' : Endpoint P E} {inbox rest out : List Frame}
    (h : e.act inbox = some (e', rest, out)) :
    ∃ calls : List S.Call,
      (∀ c ∈ calls, (∃ k, e.code = .callThen c.1 k) ∧ ∃ s, E.answer e.env c.1 = some (c.2, s)) ∧
      ∀ script log : List S.Call, (⟨e.code, calls ++ script, log⟩ : Endpoint P (Env.scripted fallback)).act inbox =
        some (⟨e'.code, script, log ++ calls⟩, rest, out) := by
  cases Endpoint.act_eq_some_iff.mp h with
  | loop =>
    refine ⟨[], nofun, fun script log ↦ ?_⟩
    rw [List.append_nil]
    exact Endpoint.act_eq_some_iff.mpr .loop
  | send =>
    refine ⟨[], nofun, fun script log ↦ ?_⟩
    rw [List.append_nil]
    exact Endpoint.act_eq_some_iff.mpr .send
  | recv =>
    refine ⟨[], nofun, fun script log ↦ ?_⟩
    rw [List.append_nil]
    exact Endpoint.act_eq_some_iff.mpr .recv
  | @call op _ _ _ _ _ r hr =>
    refine ⟨[⟨op, r⟩], fun c hc ↦ ?_, fun script log ↦
      Endpoint.act_eq_some_iff.mpr (.call (Env.scripted_cons _ _ script))⟩
    obtain rfl := List.mem_singleton.mp hc
    exact ⟨⟨_, rfl⟩, _, hr⟩

omit [DecidableEq S.Op] in
/-- **A move in any environment** is one in an environment that answers as it pleases. -/
theorem Endpoint.exists_act_oracle {E : Env S} {e e' : Endpoint P E} {inbox rest out : List Frame}
    (h : e.act inbox = some (e', rest, out)) (default : (op : S.Op) → S.Res op) :
    ∃ answers, (⟨e.code, answers, e.log⟩ : Endpoint P (Env.oracle S)).act inbox =
      some (⟨e'.code, answers, e'.log⟩, rest, out) := by
  refine ⟨fun op ↦ ((E.answer e.env op).map Prod.fst).getD (default op), ?_⟩
  cases Endpoint.act_eq_some_iff.mp h with
  | loop => rfl
  | send => rfl
  | recv => exact Endpoint.act_eq_some_iff.mpr .recv
  | @call op _ env _ _ _ r hr =>
    have heq : ((E.answer env op).map Prod.fst).getD (default op) = r := by
      rw [hr]
      rfl
    exact Endpoint.act_eq_some_iff.mpr (.call (congrArg (fun r ↦ some (r, _)) heq))

omit [DecidableEq S.Op] in
/-- What can move there can move in any environment that answers its next call. -/
theorem Endpoint.act_ne_none_of_oracle {E : Env S} {code : P.Code} {answers : (op : S.Op) → S.Res op}
    {log : List S.Call} {inbox : List Frame}
    (h : (⟨code, answers, log⟩ : Endpoint P (Env.oracle S)).act inbox ≠ none) {s : E.State}
    (hcall : ∀ op k, code = .callThen op k → E.answer s op ≠ none) :
    (⟨code, s, log⟩ : Endpoint P E).act inbox ≠ none := by
  obtain ⟨⟨e, rest, out⟩, hact⟩ := Option.ne_none_iff_exists'.mp h
  cases Endpoint.act_eq_some_iff.mp hact with
  | loop => exact Option.some_ne_none _
  | send => exact Option.some_ne_none _
  | recv => exact Option.ne_none_iff_exists'.mpr ⟨_, Endpoint.act_eq_some_iff.mpr .recv⟩
  | call =>
    obtain ⟨⟨r, s'⟩, hr⟩ := Option.ne_none_iff_exists'.mp (hcall _ _ rfl)
    exact Option.ne_none_iff_exists'.mpr ⟨_, Endpoint.act_eq_some_iff.mpr (.call hr)⟩

omit [DecidableEq S.Op] in
/-- What can move in one environment can move in another one that answers everything, whatever is on record. -/
theorem Endpoint.act_ne_none_of_answers {E F : Env S} {code : P.Code} {s : E.State} {t : F.State}
    {log log' : List S.Call} {inbox : List Frame} (h : (⟨code, s, log⟩ : Endpoint P E).act inbox ≠ none)
    (hF : ∀ op, F.answer t op ≠ none) : (⟨code, t, log'⟩ : Endpoint P F).act inbox ≠ none := by
  obtain ⟨⟨e, rest, out⟩, hact⟩ := Option.ne_none_iff_exists'.mp h
  cases Endpoint.act_eq_some_iff.mp hact with
  | loop => exact Option.some_ne_none _
  | send => exact Option.some_ne_none _
  | recv => exact Option.ne_none_iff_exists'.mpr ⟨_, Endpoint.act_eq_some_iff.mpr .recv⟩
  | @call op =>
    obtain ⟨⟨r, t'⟩, hr⟩ := Option.ne_none_iff_exists'.mp (hF op)
    exact Option.ne_none_iff_exists'.mpr ⟨_, Endpoint.act_eq_some_iff.mpr (.call hr)⟩

/-- What can move by a script can move in an environment that answers everything. -/
theorem Endpoint.act_oracle {e : Endpoint P (Env.oracle S)} {script : List S.Call}
    {inbox : List Frame} (h : (e.scripted fallback script).act inbox ≠ none)
    (answers : (op : S.Op) → S.Res op) :
    ({ e with env := answers } : Endpoint P (Env.oracle S)).act inbox ≠ none := by
  obtain ⟨⟨e', rest, out⟩, hm⟩ := Option.ne_none_iff_exists'.mp h
  obtain ⟨code, env, log⟩ := e
  cases Endpoint.act_eq_some_iff.mp hm with
  | loop => exact Option.some_ne_none _
  | send => exact Option.some_ne_none _
  | recv => exact Option.ne_none_iff_exists'.mpr ⟨_, Endpoint.act_eq_some_iff.mpr .recv⟩
  | call => exact Option.some_ne_none _

end

end Lib
end RfcNet
