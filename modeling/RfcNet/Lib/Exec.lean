import Mathlib.Algebra.GroupWithZero.Nat
import RfcNet.Lib.Prog

/-!
# Executions of one program

`Runs p ins calls outs q` says what a program does when it is left alone with what it needs: receiving
the frames `ins`, with its calls answered as in `calls`, it sends `outs` and comes to `q`.  How
receives, calls and sends were interleaved is forgotten, which is no loss where the peer cannot tell.
`Exec p ins calls outs a` is an execution to the end, which returns `a`.

Executions compose along the text of a program (`Runs.trans`, `Runs.bind`, `Exec.bind`).

`play` runs a program whose calls have a state, and `Ensures` is a contract for it: what the program keeps of
the state, and what it has sent if it returns.
-/

set_option autoImplicit false

namespace RfcNet
namespace Lib
namespace Prog

variable {S : Sig} {α β : Type}

/-- Receiving `ins`, its calls answered as in `calls`, the program sends `outs` and comes to `q`. -/
inductive Runs : Prog S α → List Frame → List S.Call → List Frame → Prog S α → Prop
  | refl (q : Prog S α) : Runs q [] [] [] q
  | send {f : Frame} {k : Prog S α} {ins : List Frame} {calls : List S.Call} {outs : List Frame}
      {q : Prog S α} (h : Runs k ins calls outs q) : Runs (.sendThen f k) ins calls (f :: outs) q
  | recv {n : ℕ} {f : Frame} {k : Frame → Prog S α} {ins : List Frame} {calls : List S.Call}
      {outs : List Frame} {q : Prog S α} (hlen : f.length = n) (h : Runs (k f) ins calls outs q) :
      Runs (.recvThen n k) (f :: ins) calls outs q
  | call {op : S.Op} {r : S.Res op} {k : S.Res op → Prog S α} {ins : List Frame}
      {calls : List S.Call} {outs : List Frame} {q : Prog S α} (h : Runs (k r) ins calls outs q) :
      Runs (.callThen op k) ins (⟨op, r⟩ :: calls) outs q

/-- Receiving `ins`, its calls answered as in `calls`, the program sends `outs` and returns `a`. -/
abbrev Exec (p : Prog S α) (ins : List Frame) (calls : List S.Call) (outs : List Frame) (a : α) :
    Prop := Runs p ins calls outs (.done a)

section
variable {p q r : Prog S α} {g : α → Prog S β} {ins ins' outs outs' : List Frame}
  {calls calls' : List S.Call} {a : α} {b : β}

theorem Exec.done (a : α) : Exec (.done a : Prog S α) [] [] [] a := .refl _

theorem Runs.trans (h : Runs p ins calls outs q) (h' : Runs q ins' calls' outs' r) :
    Runs p (ins ++ ins') (calls ++ calls') (outs ++ outs') r := by
  induction h with
  | refl q => exact h'
  | send _ ih => exact .send (ih h')
  | recv hlen _ ih => exact .recv hlen (ih h')
  | call _ ih => exact .call (ih h')

/-- What comes after a program does not change what it does. -/
theorem Runs.bind (h : Runs p ins calls outs q) (g : α → Prog S β) :
    Runs (p >>= g) ins calls outs (q >>= g) := by
  induction h with
  | refl q => exact .refl _
  | send _ ih => exact .send ih
  | recv hlen _ ih => exact .recv hlen ih
  | call _ ih => exact .call ih

/-- Sequencing. -/
theorem Exec.bind (hp : Exec p ins calls outs a) (hg : Exec (g a) ins' calls' outs' b) :
    Exec (p >>= g) (ins ++ ins') (calls ++ calls') (outs ++ outs') b :=
  (Runs.bind hp g).trans hg

theorem Exec.of_send {f : Frame} (h : Exec (.sendThen f p) ins calls outs a) :
    ∃ rest, outs = f :: rest ∧ Exec p ins calls rest a := by
  cases h with
  | send h => exact ⟨_, rfl, h⟩

theorem Exec.of_recv {n : ℕ} {f : Frame} {k : Frame → Prog S α}
    (h : Exec (.recvThen n k) (f :: ins) calls outs a) : Exec (k f) ins calls outs a := by
  cases h with
  | recv _ h => exact h

theorem Exec.of_call {op : S.Op} {res : S.Res op} {k : S.Res op → Prog S α}
    (h : Exec (.callThen op k) ins (⟨op, res⟩ :: calls) outs a) :
    Exec (k res) ins calls outs a := by
  cases h with
  | call h => exact h

/-- **A program has one future.**  An execution passes through all that the program comes to on the
way. -/
theorem Runs.exec_rest (h : Runs p ins calls outs q) {all : List Frame}
    (h' : Exec p (ins ++ ins') (calls ++ calls') all a) :
    ∃ rest, all = outs ++ rest ∧ Exec q ins' calls' rest a := by
  induction h generalizing all with
  | refl q => exact ⟨all, rfl, h'⟩
  | send _ ih =>
    obtain ⟨sent, rfl, hsent⟩ := Exec.of_send h'
    obtain ⟨rest, rfl, hrest⟩ := ih hsent
    exact ⟨rest, rfl, hrest⟩
  | recv _ _ ih => exact ih (Exec.of_recv h')
  | call _ ih => exact ih (Exec.of_call h')

/-- What comes to an exception does not return. -/
theorem Runs.not_exec {e : S.Err} (h : Runs p ins calls outs (.raise e)) {all : List Frame} :
    ¬ Exec p (ins ++ ins') (calls ++ calls') all a := by
  intro h'
  obtain ⟨rest, -, hrest⟩ := h.exec_rest h'
  cases hrest

/-- **An execution is determined** by what is received and by the answers to the calls. -/
theorem Exec.unique {a' : α} (h : Exec p ins calls outs a) (h' : Exec p ins calls outs' a') :
    outs = outs' ∧ a = a' := by
  rw [← List.append_nil ins, ← List.append_nil calls] at h'
  obtain ⟨rest, rfl, hrest⟩ := Runs.exec_rest h h'
  cases hrest
  exact ⟨(List.append_nil outs).symm, rfl⟩

/-- **So is each call**, by the answers to the calls before it. -/
theorem Exec.op_unique {c : List S.Call} {op op' : S.Op} {r : S.Res op} {r' : S.Res op'} {a' : α}
    (h : Exec p ins (c ++ ⟨op, r⟩ :: calls) outs a)
    (h' : Exec p ins (c ++ ⟨op', r'⟩ :: calls') outs' a') : op = op' := by
  induction p generalizing c ins outs outs' with
  | done b =>
    cases c with
    | nil => cases h
    | cons call c => cases h
  | raise e =>
    generalize c ++ ⟨op, r⟩ :: calls = all at h
    cases h
  | sendThen f k ih =>
    obtain ⟨rest, -, hk⟩ := Exec.of_send h
    obtain ⟨rest', -, hk'⟩ := Exec.of_send h'
    exact ih hk hk'
  | recvThen n k ih =>
    generalize hall : c ++ ⟨op, r⟩ :: calls = all at h
    cases h with
    | recv hlen hk =>
      subst hall
      exact ih _ hk (Exec.of_recv h')
  | callThen op₀ k ih =>
    cases c with
    | nil =>
      cases h
      cases h'
      rfl
    | cons call c =>
      cases h with
      | call hk => exact ih _ hk (Exec.of_call h')

end

section
variable {q : Prog S β} {ins outs : List Frame} {calls : List S.Call}

theorem Runs.send_bind {f : Frame} {g : Unit → Prog S β} (h : Runs (g ()) ins calls outs q) :
    Runs (Prog.send f >>= g) ins calls (f :: outs) q := .send h

theorem Runs.recv_bind {n : ℕ} {f : Frame} {g : Frame → Prog S β} (hlen : f.length = n)
    (h : Runs (g f) ins calls outs q) : Runs (Prog.recv n >>= g) (f :: ins) calls outs q :=
  .recv hlen h

/-- What is left of an execution after its first receive. -/
theorem Runs.of_recv_bind {n : ℕ} {f : Frame} {g : Frame → Prog S β}
    (h : Runs (Prog.recv n >>= g) (f :: ins) calls outs q) :
    f.length = n ∧ Runs (g f) ins calls outs q := by
  cases h with
  | recv hlen h => exact ⟨hlen, h⟩

theorem Runs.call_bind {op : S.Op} {r : S.Res op} {g : S.Res op → Prog S β}
    (h : Runs (g r) ins calls outs q) : Runs (Prog.call op >>= g) ins (⟨op, r⟩ :: calls) outs q :=
  .call h

end

/-! ## Evaluation -/

/-- What a program does when every call is answered by `answer` and what it receives are the next
bytes of `bytes`: the calls it makes, and what it ends with. -/
def eval (answer : (op : S.Op) → S.Res op) :
    Prog S α → (ℕ → UInt8) → List S.Call × Except S.Err α
  | .done a, _ => ([], .ok a)
  | .raise e, _ => ([], .error e)
  | .sendThen _ k, bytes => k.eval answer bytes
  | .recvThen n k, bytes =>
    (k ((List.range n).map bytes)).eval answer fun i ↦ bytes (n + i)
  | .callThen op k, bytes =>
    (⟨op, answer op⟩ :: ((k (answer op)).eval answer bytes).1, ((k (answer op)).eval answer bytes).2)

section
variable {answer : (op : S.Op) → S.Res op} {bytes : ℕ → UInt8}

@[simp] theorem eval_done (a : α) : (done a : Prog S α).eval answer bytes = ([], .ok a) := rfl

@[simp] theorem eval_raise (e : S.Err) : (raise e : Prog S α).eval answer bytes = ([], .error e) := rfl

/-- Blocks of these lengths, one after the other. -/
def blocks (bytes : ℕ → UInt8) : List ℕ → List Frame
  | [] => []
  | n :: ns => (List.range n).map bytes :: blocks (fun i ↦ bytes (n + i)) ns

theorem blocks_append (bytes : ℕ → UInt8) (ns ms : List ℕ) :
    blocks bytes (ns ++ ms) = blocks bytes ns ++ blocks (fun i ↦ bytes (ns.sum + i)) ms := by
  induction ns generalizing bytes with
  | nil => simp [blocks]
  | cons n ns ih => simp only [List.cons_append, blocks, ih, List.sum_cons, Nat.add_assoc]

/-- **A program evaluates to what it comes to.** -/
theorem Runs.eval {p q : Prog S α} {ins outs : List Frame} {calls : List S.Call}
    (h : Runs p ins calls outs q) (answer : (op : S.Op) → S.Res op) (bytes : ℕ → UInt8) (ns : List ℕ)
    (hins : ins = blocks bytes ns) (hcalls : ∀ c ∈ calls, c.2 = answer c.1) :
    p.eval answer bytes = (calls ++ (q.eval answer fun i ↦ bytes (ns.sum + i)).1,
      (q.eval answer fun i ↦ bytes (ns.sum + i)).2) := by
  induction h generalizing bytes ns with
  | refl q =>
    cases ns with
    | nil => simp
    | cons n ns => simp [blocks] at hins
  | send _ ih => exact ih _ _ hins hcalls
  | recv hlen _ ih =>
    cases ns with
    | nil => simp [blocks] at hins
    | cons n ns =>
      obtain ⟨rfl, hrest⟩ := List.cons.inj hins
      obtain rfl : n = _ := by simpa using hlen
      rw [Prog.eval, ih _ _ hrest hcalls]
      simp only [List.sum_cons, Nat.add_assoc]
  | @call op r k _ calls _ _ _ ih =>
    obtain rfl : r = answer op := hcalls _ List.mem_cons_self
    rw [Prog.eval, ih _ _ hins fun c hc ↦ hcalls c (List.mem_cons_of_mem _ hc)]
    rfl

end

/-! ## Evaluation with a state -/

/-- What comes of a program: what it has sent, the state it leaves, and what it ends with. -/
structure Outcome (S : Sig) (σ α : Type) where
  /-- What it has sent. -/
  sent : List Frame
  /-- The state that its calls have left. -/
  state : σ
  /-- What it has returned, or the exception that it was left by. -/
  result : Except S.Err α

/-- More was sent before. -/
def Outcome.after {σ : Type} (frames : List Frame) (o : Outcome S σ α) : Outcome S σ α :=
  { o with sent := frames ++ o.sent }

/-- What comes of a program that is left alone: its calls are answered from a state, which they change,
and may be left by an exception, which nobody catches; what it receives are the next bytes of
`bytes`. -/
def play {σ : Type} (answer : σ → (op : S.Op) → Except S.Err (S.Res op) × σ) :
    Prog S α → σ → (ℕ → UInt8) → Outcome S σ α
  | .done a, s, _ => ⟨[], s, .ok a⟩
  | .raise e, s, _ => ⟨[], s, .error e⟩
  | .sendThen f k, s, bytes => (k.play answer s bytes).after [f]
  | .recvThen n k, s, bytes => (k ((List.range n).map bytes)).play answer s fun i ↦ bytes (n + i)
  | .callThen op k, s, bytes =>
    match answer s op with
    | (.ok r, s') => (k r).play answer s' bytes
    | (.error e, s') => ⟨[], s', .error e⟩

section
variable {σ : Type} {answer : σ → (op : S.Op) → Except S.Err (S.Res op) × σ}

/-- These answers are given to these calls, one after the other. -/
def Responds (answer : σ → (op : S.Op) → Except S.Err (S.Res op) × σ) :
    σ → List S.Call → σ → Prop
  | s, [], s' => s = s'
  | s, ⟨op, r⟩ :: calls, s' => ∃ m, answer s op = (.ok r, m) ∧ Responds answer m calls s'

theorem Outcome.after_nil (o : Outcome S σ α) : o.after [] = o := rfl

theorem Outcome.after_after (frames frames' : List Frame) (o : Outcome S σ α) :
    (o.after frames').after frames = o.after (frames ++ frames') := by
  simp only [Outcome.after, List.append_assoc]

/-- A call that is left by an exception is the end of the program. -/
theorem play_call_error {op : S.Op} {k : S.Res op → Prog S α} {s s' : σ} {e : S.Err}
    {bytes : ℕ → UInt8} (h : answer s op = (.error e, s')) :
    (callThen op k).play answer s bytes = ⟨[], s', .error e⟩ := by
  rw [play, h]

/-- **A program comes to what it runs to.** -/
theorem Runs.play {p q : Prog S α} {ins outs : List Frame} {calls : List S.Call}
    (h : Runs p ins calls outs q) (bytes : ℕ → UInt8) (ns : List ℕ) {s s' : σ}
    (hins : ins = blocks bytes ns) (hcalls : Responds answer s calls s') :
    p.play answer s bytes = (q.play answer s' fun i ↦ bytes (ns.sum + i)).after outs := by
  induction h generalizing bytes ns s with
  | refl q =>
    obtain rfl : s = s' := hcalls
    cases ns with
    | nil => simp [Outcome.after_nil]
    | cons n ns => simp [blocks] at hins
  | @send f _ _ _ outs _ _ ih =>
    rw [Prog.play, ih bytes ns hins hcalls, Outcome.after_after]
    rfl
  | recv hlen _ ih =>
    cases ns with
    | nil => simp [blocks] at hins
    | cons n ns =>
      obtain ⟨rfl, hrest⟩ := List.cons.inj hins
      obtain rfl : n = _ := by simpa using hlen
      rw [Prog.play, ih _ _ hrest hcalls]
      simp only [List.sum_cons, Nat.add_assoc]
  | call _ ih =>
    obtain ⟨m, hm, hcalls⟩ := hcalls
    rw [Prog.play, hm]
    exact ih bytes ns hins hcalls

section
variable {p : Prog S α} {g : α → Prog S β} {s : σ} {bytes : ℕ → UInt8}

/-- What comes after a program that returns starts where that has got to. -/
theorem play_bind_ok {a : α} (h : (p.play answer s bytes).result = .ok a) : ∃ bytes',
    (p >>= g).play answer s bytes =
      ((g a).play answer (p.play answer s bytes).state bytes').after (p.play answer s bytes).sent := by
  induction p generalizing s bytes with
  | done b =>
    rw [Prog.play, Except.ok.injEq] at h
    subst h
    exact ⟨bytes, (Outcome.after_nil _).symm⟩
  | raise e =>
    rw [Prog.play] at h
    cases h
  | sendThen f k ih =>
    rw [Prog.play] at h
    obtain ⟨bytes', hk⟩ := ih h
    rw [sendThen_bind, Prog.play, hk, Outcome.after_after]
    exact ⟨bytes', rfl⟩
  | recvThen n k ih =>
    rw [Prog.play] at h
    obtain ⟨bytes', hk⟩ := ih _ h
    exact ⟨bytes', hk⟩
  | callThen op k ih =>
    rw [callThen_bind, Prog.play, Prog.play]
    rw [Prog.play] at h
    cases hop : answer s op with
    | mk result s' =>
      rw [hop] at h
      cases result with
      | ok r => exact ih r h
      | error e => cases h

/-- Nothing comes after a program that is left by an exception. -/
theorem play_bind_error {e : S.Err} (h : (p.play answer s bytes).result = .error e) :
    (p >>= g).play answer s bytes =
      ⟨(p.play answer s bytes).sent, (p.play answer s bytes).state, .error e⟩ := by
  induction p generalizing s bytes with
  | done b =>
    rw [Prog.play] at h
    cases h
  | raise e' =>
    rw [Prog.play, Except.error.injEq] at h
    subst h
    rfl
  | sendThen f k ih =>
    rw [Prog.play] at h
    rw [sendThen_bind, Prog.play, ih h]
    rfl
  | recvThen n k ih =>
    rw [Prog.play] at h
    exact ih _ h
  | callThen op k ih =>
    rw [callThen_bind, Prog.play, Prog.play]
    rw [Prog.play] at h
    cases hop : answer s op with
    | mk result s' =>
      rw [hop] at h
      cases result with
      | ok r => exact ih r h
      | error e' =>
        obtain rfl : e' = e := Except.error.inj h
        rfl

end

/-! ### Contracts -/

/-- Whatever it receives, the program keeps `I` of the state, and if it returns, `Q` of what it has sent. -/
def Ensures (answer : σ → (op : S.Op) → Except S.Err (S.Res op) × σ) (I : σ → Prop)
    (Q : List Frame → Prop) (p : Prog S α) : Prop :=
  ∀ s bytes, I s → I (p.play answer s bytes).state ∧
    ∀ a, (p.play answer s bytes).result = .ok a → Q (p.play answer s bytes).sent

section
variable {I : σ → Prop} {Q R : List Frame → Prop}

theorem Ensures.done (a : α) (h : Q []) : (Prog.done a : Prog S α).Ensures answer I Q :=
  fun _ _ hs ↦ ⟨hs, fun _ _ ↦ h⟩

theorem Ensures.raise (e : S.Err) : (Prog.raise e : Prog S α).Ensures answer I Q :=
  fun _ _ hs ↦ ⟨hs, nofun⟩

theorem Ensures.recv {n : ℕ} {k : Frame → Prog S α} (h : ∀ f, (k f).Ensures answer I Q) :
    (recvThen n k).Ensures answer I Q :=
  fun s _ hs ↦ h _ s _ hs

theorem Ensures.call {op : S.Op} {k : S.Res op → Prog S α} (hop : ∀ s, I s → I (answer s op).2)
    (h : ∀ r, (k r).Ensures answer I Q) : (callThen op k).Ensures answer I Q := by
  intro s bytes hs
  have hleft := hop s hs
  rw [Prog.play]
  cases hanswer : answer s op with
  | mk result s' =>
    rw [hanswer] at hleft
    cases result with
    | ok r => exact h r s' bytes hleft
    | error e => exact ⟨hleft, nofun⟩

/-- Sequencing: what is sent is sent one after the other. -/
theorem Ensures.bind {p : Prog S α} {g : α → Prog S β} (hp : p.Ensures answer I Q)
    (hg : ∀ a, (g a).Ensures answer I R) (happend : ∀ f f', Q f → R f' → R (f ++ f')) :
    (p >>= g).Ensures answer I R := by
  intro s bytes hs
  obtain ⟨hstate, hsent⟩ := hp s bytes hs
  cases hresult : (p.play answer s bytes).result with
  | ok a =>
    obtain ⟨bytes', hplay⟩ := play_bind_ok (g := g) hresult
    obtain ⟨hstate', hsent'⟩ := hg a _ bytes' hstate
    rw [hplay]
    exact ⟨hstate', fun b hb ↦ happend _ _ (hsent a hresult) (hsent' b hb)⟩
  | error e =>
    rw [play_bind_error hresult]
    exact ⟨hstate, nofun⟩

/-- A program that is executed without receiving anything. -/
theorem Ensures.of_exec {p : Prog S α} {outs : List Frame} (hQ : Q outs)
    (h : ∀ s, I s → ∃ calls a s', p.Exec [] calls outs a ∧ Responds answer s calls s' ∧ I s') :
    p.Ensures answer I Q := by
  intro s bytes hs
  obtain ⟨calls, a, s', hexec, hcalls, hs'⟩ := h s hs
  rw [hexec.play bytes [] rfl hcalls]
  refine ⟨hs', fun _ _ ↦ ?_⟩
  rw [Prog.play, Outcome.after, List.append_nil]
  exact hQ

end

end

end Prog

/-! ## Executions of a program with a main loop -/

/-- Receiving `ins`, its calls answered as in `calls`, the program returns `a`, after however many rounds
of its loop. -/
inductive Proc.Returns {S : Sig} (P : Proc S) :
    P.Code → List Frame → List S.Call → P.Out → Prop
  | done (a : P.Out) : Returns P (.done (.inr a)) [] [] a
  | loop {v : P.Var} {ins : List Frame} {calls : List S.Call} {a : P.Out}
      (h : Returns P (P.body v) ins calls a) : Returns P (.done (.inl v)) ins calls a
  | send {f : Frame} {k : P.Code} {ins : List Frame} {calls : List S.Call} {a : P.Out}
      (h : Returns P k ins calls a) : Returns P (.sendThen f k) ins calls a
  | recv {n : ℕ} {f : Frame} {k : Frame → P.Code} {ins : List Frame} {calls : List S.Call} {a : P.Out}
      (hlen : f.length = n) (h : Returns P (k f) ins calls a) :
      Returns P (.recvThen n k) (f :: ins) calls a
  | call {op : S.Op} {r : S.Res op} {k : S.Res op → P.Code} {ins : List Frame}
      {calls : List S.Call} {a : P.Out} (h : Returns P (k r) ins calls a) :
      Returns P (.callThen op k) ins (⟨op, r⟩ :: calls) a

namespace Proc

variable {S : Sig} {P : Proc S} {p q : P.Code} {ins ins' outs : List Frame}
  {calls calls' : List S.Call} {a : P.Out}

/-- What a program does first, and what is left of it. -/
theorem Returns.of_runs (h : p.Runs ins calls outs q) (hq : P.Returns q ins' calls' a) :
    P.Returns p (ins ++ ins') (calls ++ calls') a := by
  induction h with
  | refl q => exact hq
  | send _ ih => exact .send (ih hq)
  | recv hlen _ ih => exact .recv hlen (ih hq)
  | call _ ih => exact .call (ih hq)

theorem Returns.of_exec (h : p.Exec ins calls outs (.inr a)) : P.Returns p ins calls a := by
  have hreturns : P.Returns p (ins ++ []) (calls ++ []) a := .of_runs h (.done a)
  rwa [List.append_nil, List.append_nil] at hreturns

/-- **What a program has called by the time it returns**, as an automaton notes it that forbids
nothing. -/
theorem Returns.noted {Φ : Type} {note : Φ → S.Op → Φ} {fin : Φ → P.Var ⊕ P.Out → Prop}
    (hbody : ∀ ph v, fin ph (.inl v) →
      (P.body v).Follows (.ofCalls fun ph op ↦ some (note ph op)) fin ph)
    (h : P.Returns p ins calls a) {ph : Φ}
    (hp : p.Follows (.ofCalls fun ph op ↦ some (note ph op)) fin ph) :
    fin ((calls.map Sigma.fst).foldl note ph) (.inr a) := by
  induction h generalizing ph with
  | done a => exact hp
  | loop _ ih => exact ih (hbody _ _ hp)
  | send _ ih => exact ih hp
  | recv hlen _ ih => exact ih (hp.2 _ hlen trivial)
  | call _ ih =>
    obtain ⟨ph', hnext, hk⟩ := hp
    obtain rfl := Option.some_inj.mp hnext
    exact ih (hk _)

end Proc
end Lib
end RfcNet
