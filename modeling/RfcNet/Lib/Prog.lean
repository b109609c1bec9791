import Mathlib.Logic.Function.Basic
import Mathlib.Tactic.Common

/-!
# Sequential programs that exchange byte frames

`Prog S α` is a program that returns an `α`, talks to one peer by sending and receiving frames of
bytes, and calls on its environment for everything else.  The signature `S` lists the calls, the
type of each one's result, and the exceptions the program may end with.

A `Prog` is a finite tree, so it has no loops.  A program with a main loop is a `Proc`: a body that
takes the loop's variables and either goes round again (`Sum.inl`) or leaves (`Sum.inr`).

The second half is a typing of programs by automata.  `Follows A fin ph p` says that, started in the
phase `ph`, all that `p` does is allowed by the automaton `A`, whatever its calls return and whatever
it receives of what the automaton lets come in.  It is checked once, by recursion over the text of
the program, and then holds of everything that is left of the program at any time.  `Leads` is the
same for what the program returns, which may depend on what its calls returned.
-/

set_option autoImplicit false

namespace RfcNet
namespace Lib

/-- What one call of `send` hands over and one call of `recv` asks for. -/
abbrev Frame := List UInt8

/-- The calls a program can make, with their results, and the exceptions it can end with. -/
structure Sig where
  /-- The calls. -/
  Op : Type
  /-- The result of a call. -/
  Res : Op → Type
  /-- The exceptions. -/
  Err : Type

/-- A call together with what it returned. -/
abbrev Sig.Call (S : Sig) := (op : S.Op) × S.Res op

/-- A program with signature `S` that returns an `α`. -/
inductive Prog (S : Sig) (α : Type) where
  /-- Return. -/
  | done (a : α)
  /-- End with an exception. -/
  | raise (e : S.Err)
  /-- Send `f` to the peer and go on. -/
  | sendThen (f : Frame) (k : Prog S α)
  /-- Receive `n` bytes and go on with them. -/
  | recvThen (n : ℕ) (k : Frame → Prog S α)
  /-- Call the environment and go on with the result. -/
  | callThen (op : S.Op) (k : S.Res op → Prog S α)

namespace Prog

variable {S : Sig} {α β γ : Type}

/-- Run `p`, then `g` on its result. -/
def bind : Prog S α → (α → Prog S β) → Prog S β
  | .done a, g => g a
  | .raise e, _ => .raise e
  | .sendThen f k, g => .sendThen f (k.bind g)
  | .recvThen n k, g => .recvThen n fun f ↦ (k f).bind g
  | .callThen op k, g => .callThen op fun r ↦ (k r).bind g

instance : Monad (Prog S) where
  pure := .done
  bind := bind

/-- Send one frame. -/
def send (f : Frame) : Prog S Unit := .sendThen f (.done ())

/-- Receive `n` bytes. -/
def recv (n : ℕ) : Prog S Frame := .recvThen n .done

/-- Make one call. -/
def call (op : S.Op) : Prog S (S.Res op) := .callThen op .done

/-- Turn a failure into an exception. -/
def ofExcept {ε : Type} (err : ε → S.Err) : Except ε α → Prog S α
  | .ok a => .done a
  | .error e => .raise (err e)

@[simp] theorem pure_def (a : α) : (pure a : Prog S α) = .done a := rfl
@[simp] theorem done_bind (a : α) (g : α → Prog S β) : (done a : Prog S α) >>= g = g a := rfl
@[simp] theorem raise_bind (e : S.Err) (g : α → Prog S β) :
    (raise e : Prog S α) >>= g = .raise e := rfl
@[simp] theorem sendThen_bind (f : Frame) (k : Prog S α) (g : α → Prog S β) :
    sendThen f k >>= g = .sendThen f (k >>= g) := rfl
@[simp] theorem recvThen_bind (n : ℕ) (k : Frame → Prog S α) (g : α → Prog S β) :
    recvThen n k >>= g = .recvThen n fun f ↦ k f >>= g := rfl
@[simp] theorem callThen_bind (op : S.Op) (k : S.Res op → Prog S α) (g : α → Prog S β) :
    callThen op k >>= g = .callThen op fun r ↦ k r >>= g := rfl
@[simp] theorem send_bind (f : Frame) (g : Unit → Prog S β) :
    (send f : Prog S Unit) >>= g = .sendThen f (g ()) := rfl
@[simp] theorem recv_bind (n : ℕ) (g : Frame → Prog S β) :
    (recv n : Prog S Frame) >>= g = .recvThen n g := rfl
@[simp] theorem call_bind (op : S.Op) (g : S.Res op → Prog S β) :
    (call op : Prog S _) >>= g = .callThen op g := rfl
@[simp] theorem ofExcept_ok {ε : Type} (err : ε → S.Err) (a : α) :
    (ofExcept err (.ok a) : Prog S α) = .done a := rfl
@[simp] theorem ofExcept_error {ε : Type} (err : ε → S.Err) (e : ε) :
    (ofExcept err (.error e) : Prog S α) = .raise (err e) := rfl

theorem bind_done (p : Prog S α) : p >>= .done = p := by
  induction p with
  | done a => rfl
  | raise e => rfl
  | sendThen f k ih => rw [sendThen_bind, ih]
  | recvThen n k ih => simp only [recvThen_bind, ih]
  | callThen op k ih => simp only [callThen_bind, ih]

theorem bind_assoc (p : Prog S α) (g : α → Prog S β) (h : β → Prog S γ) :
    (p >>= g) >>= h = p >>= fun a ↦ g a >>= h := by
  induction p with
  | done a => rfl
  | raise e => rfl
  | sendThen f k ih => simp only [sendThen_bind, ih]
  | recvThen n k ih => simp only [recvThen_bind, ih]
  | callThen op k ih => simp only [callThen_bind, ih]

/-! ## Programs that follow an automaton -/

/-- What an automaton says of a program: which calls it may make, whether it may receive, what may
come in, and how its phase changes. -/
structure Automaton (S : Sig) (Φ : Type) where
  /-- The phase after a call, if the call is allowed. -/
  onCall : Φ → S.Op → Option Φ
  /-- It is allowed to receive so many bytes. -/
  mayRecv : Φ → ℕ → Prop
  /-- These may be the bytes it receives. -/
  comes : Φ → Frame → Prop
  /-- The phase after it has received them. -/
  onRecv : Φ → Frame → Φ

variable {Φ : Type}

/-- The automaton that looks at calls only. -/
def Automaton.ofCalls (next : Φ → S.Op → Option Φ) : Automaton S Φ where
  onCall := next
  mayRecv _ _ := True
  comes _ _ := True
  onRecv ph _ := ph

/-- The automaton that knows what will be received, and forbids to wait for more. -/
def Automaton.ofInbox (next : Φ → S.Op → Option Φ) : Automaton S (List Frame × Φ) where
  onCall s op := (next s.2 op).map (s.1, ·)
  mayRecv s n := ∃ f ∈ s.1.head?, f.length = n
  comes s f := f ∈ s.1.head?
  onRecv s _ := (s.1.tail, s.2)

/-- Started in the phase `ph`, the program does what the automaton allows, and where it returns `a`
the phase reached satisfies `fin · a`. -/
def Follows (A : Automaton S Φ) (fin : Φ → α → Prop) : Φ → Prog S α → Prop
  | ph, .done a => fin ph a
  | _, .raise _ => True
  | ph, .sendThen _ k => Follows A fin ph k
  | ph, .recvThen n k => A.mayRecv ph n ∧
      ∀ f : Frame, f.length = n → A.comes ph f → Follows A fin (A.onRecv ph f) (k f)
  | ph, .callThen op k => ∃ ph', A.onCall ph op = some ph' ∧ ∀ r, Follows A fin ph' (k r)

variable {A : Automaton S Φ} {fin : Φ → α → Prop} {fin' : Φ → β → Prop} {ph : Φ}

/-- Sequencing: the second program starts in whatever phase the first one ends in. -/
theorem Follows.bind {p : Prog S α} {g : α → Prog S β}
    (hp : Follows A fin ph p) (hg : ∀ ph' a, fin ph' a → Follows A fin' ph' (g a)) :
    Follows A fin' ph (p >>= g) := by
  induction p generalizing ph with
  | done a => exact hg ph a hp
  | raise e => trivial
  | sendThen f k ih => exact ih hp
  | recvThen n k ih => exact ⟨hp.1, fun f hlen hcomes ↦ ih f (hp.2 f hlen hcomes)⟩
  | callThen op k ih =>
    obtain ⟨ph', hnext, hk⟩ := hp
    exact ⟨ph', hnext, fun r ↦ ih r (hk r)⟩

theorem follows_ofExcept {ε : Type} {err : ε → S.Err} {x : Except ε α} {g : α → Prog S β}
    (hg : ∀ a, x = .ok a → Follows A fin' ph (g a)) :
    Follows A fin' ph ((ofExcept err x : Prog S α) >>= g) := by
  cases x with
  | ok a => exact hg a rfl
  | error e => trivial

section
variable {next : Φ → S.Op → Option Φ}

/-- Whatever is received, the automaton of calls does not mind. -/
theorem follows_recv {n : ℕ} {g : Frame → Prog S β} (hg : ∀ f, Follows (.ofCalls next) fin' ph (g f)) :
    Follows (.ofCalls next) fin' ph (recv n >>= g) :=
  ⟨trivial, fun f _ _ ↦ hg f⟩

/-- The next frame of the inbox is received. -/
theorem follows_recv_cons {n : ℕ} {f : Frame} {inbox : List Frame} {g : Frame → Prog S β}
    {fin : List Frame × Φ → β → Prop} (hlen : f.length = n)
    (hg : Follows (.ofInbox next) fin (inbox, ph) (g f)) :
    Follows (.ofInbox next) fin (f :: inbox, ph) (recv n >>= g) := by
  refine ⟨⟨f, rfl, hlen⟩, fun f' _ hcomes ↦ ?_⟩
  obtain rfl : f = f' := Option.some_inj.mp hcomes
  exact hg

end

/-! ## What the calls of a program lead to -/

/-- Started in the phase `ph`, which each call with its result takes to the `next` one, the program
returns an `a` only in a phase that satisfies `fin · a`, whatever it receives and whatever its calls
return. -/
inductive Leads (next : Φ → S.Call → Φ) (fin : Φ → α → Prop) : Φ → Prog S α → Prop
  | done {ph : Φ} {a : α} (h : fin ph a) : Leads next fin ph (.done a)
  | raise {ph : Φ} (e : S.Err) : Leads next fin ph (.raise e)
  | send {ph : Φ} {f : Frame} {k : Prog S α} (h : Leads next fin ph k) :
      Leads next fin ph (.sendThen f k)
  | recv {ph : Φ} {n : ℕ} {k : Frame → Prog S α}
      (h : ∀ f : Frame, f.length = n → Leads next fin ph (k f)) : Leads next fin ph (.recvThen n k)
  | call {ph : Φ} {op : S.Op} {k : S.Res op → Prog S α}
      (h : ∀ r, Leads next fin (next ph ⟨op, r⟩) (k r)) : Leads next fin ph (.callThen op k)

section
variable {next : Φ → S.Call → Φ} {p : Prog S α} {g : α → Prog S β}

theorem Leads.bind (hp : Leads next fin ph p)
    (hg : ∀ ph' a, fin ph' a → Leads next fin' ph' (g a)) : Leads next fin' ph (p >>= g) := by
  induction hp with
  | done h => exact hg _ _ h
  | raise e => exact .raise e
  | send _ ih => exact .send ih
  | recv _ ih => exact .recv ih
  | call _ ih => exact .call ih

/-- What leads to `fin` from every phase still does after another program. -/
theorem leads_bind_right (hg : ∀ ph a, Leads next fin' ph (g a)) : Leads next fin' ph (p >>= g) := by
  induction p generalizing ph with
  | done a => exact hg ph a
  | raise e => exact .raise e
  | sendThen f k ih => exact .send ih
  | recvThen n k ih => exact .recv fun f _ ↦ ih f
  | callThen op k ih => exact .call fun r ↦ ih r

theorem leads_recv {n : ℕ} {g : Frame → Prog S β}
    (hg : ∀ f : Frame, f.length = n → Leads next fin' ph (g f)) :
    Leads next fin' ph (recv n >>= g) := .recv hg

end

end Prog

/-! ## Programs with a main loop -/

/-- A program with a main loop: the loop's variables, what the program returns, and the body. -/
structure Proc (S : Sig) where
  /-- The variables the loop carries from one round to the next. -/
  Var : Type
  /-- What the program returns when it leaves the loop. -/
  Out : Type
  /-- One round of the loop. -/
  body : Var → Prog S (Var ⊕ Out)

/-- What is left to do of a program with a main loop. -/
abbrev Proc.Code {S : Sig} (P : Proc S) := Prog S (P.Var ⊕ P.Out)

/-- The program text that never loops. -/
def Proc.straight (S : Sig) (α : Type) : Proc S := ⟨Empty, α, Empty.elim⟩

/-- A straight-line program as the code of a `Proc.straight`. -/
def Prog.once {S : Sig} {α : Type} (p : Prog S α) : (Proc.straight S α).Code :=
  p >>= fun a ↦ .done (.inr a)

end Lib
end RfcNet
