import RfcNet.Lib.Prog

/-!
# Programs that keep pace with each other

Two programs match when they make the same calls and receive at the same points, although what they send and
what their calls return may differ, in a way that a `Link` lays down.  So a program in one environment can be
compared with the same program in another one, where a call returns something else: `Prog.Matches.bind` does
that by recursion over the text of the program.

Only the first program has to get anywhere.  If it can but end with an exception, making no call on the way,
it is `Spent`, and any program matches it.
-/

set_option autoImplicit false

namespace RfcNet
namespace Lib

/-- Which calls of two programs correspond, and which of their results. -/
structure Link (S : Sig) where
  /-- The calls that correspond. -/
  calls : S.Op → S.Op → Prop
  /-- The results that correspond. -/
  results : (op op' : S.Op) → S.Res op → S.Res op' → Prop

namespace Prog

variable {S : Sig} {α β γ δ : Type}

/-- The program ends with an exception, and does not call anything before. -/
inductive Spent : Prog S α → Prop
  | raise (e : S.Err) : Spent (.raise e)
  | send {f : Frame} {k : Prog S α} (h : Spent k) : Spent (.sendThen f k)

theorem Spent.bind {p : Prog S α} (h : p.Spent) (g : α → Prog S β) : (p >>= g).Spent := by
  induction h with
  | raise e => exact .raise e
  | send _ ih => exact .send ih

/-- The second program keeps pace with the first one, whatever the two receive, and they return what
satisfies `fin`. -/
inductive Matches (K : Link S) (fin : α → β → Prop) : Prog S α → Prog S β → Prop
  | spent {p : Prog S α} (h : p.Spent) (q : Prog S β) : Matches K fin p q
  | done {a : α} {b : β} (h : fin a b) : Matches K fin (.done a) (.done b)
  | send {f f' : Frame} {k : Prog S α} {k' : Prog S β} (h : Matches K fin k k') :
      Matches K fin (.sendThen f k) (.sendThen f' k')
  | recv {n : ℕ} {k : Frame → Prog S α} {k' : Frame → Prog S β}
      (h : ∀ f, Matches K fin (k f) (k' f)) : Matches K fin (.recvThen n k) (.recvThen n k')
  | call {op op' : S.Op} {k : S.Res op → Prog S α} {k' : S.Res op' → Prog S β}
      (hop : K.calls op op') (h : ∀ r r', K.results op op' r r' → Matches K fin (k r) (k' r')) :
      Matches K fin (.callThen op k) (.callThen op' k')

variable {K : Link S} {fin : α → β → Prop} {fin' : γ → δ → Prop}

/-- Sequencing. -/
theorem Matches.bind {p : Prog S α} {q : Prog S β} {g : α → Prog S γ} {g' : β → Prog S δ}
    (h : Matches K fin p q) (hg : ∀ a b, fin a b → Matches K fin' (g a) (g' b)) :
    Matches K fin' (p >>= g) (q >>= g') := by
  induction h with
  | spent h q => exact .spent (h.bind g) _
  | done h => exact hg _ _ h
  | send _ ih => exact .send ih
  | recv _ ih => exact .recv ih
  | call hop _ ih => exact .call hop ih

theorem matches_recv {n : ℕ} {g : Frame → Prog S γ} {g' : Frame → Prog S δ}
    (hg : ∀ f, Matches K fin' (g f) (g' f)) : Matches K fin' (recv n >>= g) (recv n >>= g') :=
  .recv hg

theorem matches_ofExcept {ε : Type} {err : ε → S.Err} {x : Except ε α} {g : α → Prog S γ}
    {g' : α → Prog S δ} (hg : ∀ a, x = .ok a → Matches K fin' (g a) (g' a)) :
    Matches K fin' ((ofExcept err x : Prog S α) >>= g) ((ofExcept err x : Prog S α) >>= g') := by
  cases x with
  | ok a => exact hg a rfl
  | error e => exact .spent (.raise (err e)) _

end Prog

end Lib
end RfcNet
