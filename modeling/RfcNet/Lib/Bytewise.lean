import RfcNet.Lib.Layer

/-!
# Frames byte by byte

The layer on which every byte is a frame of its own.  Two programs on top of it are two programs that
are joined by streams of bytes, and the ends of the frames above can no longer be seen from what is on
the way.

A send and a receive end with a call that does nothing.  A loop that sends or receives is left in a step
of its own, and this is that step.
-/

set_option autoImplicit false

namespace RfcNet
namespace Lib

/-- One call, which does nothing. -/
@[reducible] def leaveSig : Sig := ⟨Unit, fun _ ↦ Unit, Empty⟩

/-- It is always answered. -/
@[reducible] def leaveEnv : Env leaveSig := ⟨Unit, fun _ _ ↦ some ((), ())⟩

/-- The call. -/
def leave {α : Type} (k : Prog leaveSig α) : Prog leaveSig α := .callThen () fun _ ↦ k

/-- The bytes are sent one by one. -/
def sendEach : Frame → Prog leaveSig Unit
  | [] => leave (.done ())
  | x :: xs => .sendThen [x] (sendEach xs)

/-- Bytes are received one by one, after those that have been got already. -/
def recvEach (got : Frame) : ℕ → Prog leaveSig Frame
  | 0 => leave (.done got)
  | n + 1 => .recvThen 1 fun f ↦ recvEach (got ++ f) n

/-- A frame for each byte. -/
def singly (f : Frame) : List Frame := f.map fun x ↦ [x]

@[simp] theorem singly_nil : singly [] = [] := rfl

theorem singly_append (f g : Frame) : singly (f ++ g) = singly f ++ singly g := List.map_append

/-- Every byte is a frame of its own. -/
def bytewise : Layer leaveSig := ⟨sendEach, recvEach []⟩

theorem runs_sendEach (f g : Frame) : (sendEach (f ++ g)).Runs [] [] (singly f) (sendEach g) := by
  induction f with
  | nil => exact .refl _
  | cons x f ih => exact .send ih

theorem runs_recvEach (got f : Frame) (n : ℕ) :
    (recvEach got (f.length + n)).Runs (singly f) [] [] (recvEach (got ++ f) n) := by
  induction f generalizing got with
  | nil =>
    rw [List.append_nil, List.length_nil, Nat.zero_add]
    exact .refl _
  | cons x f ih =>
    have hlen : (x :: f).length + n = f.length + n + 1 := by
      rw [List.length_cons]
      omega
    rw [hlen, recvEach, List.append_cons]
    exact .recv rfl (ih (got ++ [x]))

/-- Nothing is left to send. -/
theorem exec_sendEach_nil : (sendEach []).Exec [] [⟨(), ()⟩] [] () :=
  Prog.runs_call (S := leaveSig) () () (k := fun _ ↦ .done ()) (.refl _)

theorem exec_sendEach (f : Frame) : (sendEach f).Exec [] [⟨(), ()⟩] (singly f) () := by
  have hruns := runs_sendEach f []
  rw [List.append_nil] at hruns
  have hexec := hruns.trans exec_sendEach_nil
  rwa [List.append_nil (singly f)] at hexec

/-- Nothing is missing any more. -/
theorem exec_recvEach_done (got : Frame) : (recvEach got 0).Exec [] [⟨(), ()⟩] [] got :=
  Prog.runs_call (S := leaveSig) () () (k := fun _ ↦ .done got) (.refl _)

theorem exec_recvEach (f : Frame) : (recvEach [] f.length).Exec (singly f) [⟨(), ()⟩] [] f := by
  have hexec := (runs_recvEach [] f 0).trans (exec_recvEach_done f)
  rwa [List.append_nil] at hexec

/-- **Byte by byte, every frame is carried.** -/
theorem bytewise_carries : bytewise.Carries leaveEnv singly fun _ ↦ True where
  sends f _ := ⟨_, (), exec_sendEach f, (), rfl, rfl⟩
  receives f _ _ := ⟨_, (), exec_recvEach f, (), rfl, rfl⟩
  waits n _ hn := by
    obtain ⟨n, rfl⟩ := Nat.exists_eq_add_one.mpr hn
    exact ⟨[], (), 1, _, Nat.one_pos, .refl _, rfl⟩

end Lib
end RfcNet
