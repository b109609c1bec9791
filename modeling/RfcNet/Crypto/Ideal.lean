import RfcNet.Crypto.Honest

/-!
# An ideal cipher

What an attacker can do is bounded by what Crypto++ lets nobody do.  The ideal cipher knows every
encryption that has been made: `DecryptAndVerify` accepts a ciphertext and a MAC if somebody has
made them, with the same stream and the same header, and returns what was encrypted; and it accepts
nothing else.
-/

set_option autoImplicit false

namespace RfcNet
namespace Crypto

open Lib

/-- What was encrypted, and how. -/
structure Encryption where
  /-- The key and the IV. -/
  stream : Stream
  /-- The header. -/
  header : Frame
  /-- The plaintext. -/
  pt : Frame
  deriving DecidableEq, Repr

/-- The encryptions that an end has made. -/
def made (log : List cryptoSig.Call) : List Encryption :=
  log.filterMap fun
    | ⟨.encryptAndAuthenticate s header pt, _⟩ => some ⟨s, header, pt⟩
    | _ => none

theorem made_append (log log' : List cryptoSig.Call) :
    made (log ++ log') = made log ++ made log' := List.filterMap_append

/-- The ciphertext and the MAC that it resulted in. -/
def Encryption.frames (C : Primitives) (e : Encryption) : Frame × Frame :=
  ((C.encrypt e.stream e.header e.pt).1.1, (C.encrypt e.stream e.header e.pt).2.1)

/-- What `DecryptAndVerify` puts into its buffer and returns, if `all` are the encryptions that have
been made.  Where it returns false, the buffer may hold anything. -/
def idealDecrypt (C : Primitives) (all : List Encryption) (memory : ℕ → UInt8) (s : Stream)
    (header ct mac : Frame) : Block ct.length × Bool :=
  match all.find? fun e ↦ e.stream = s ∧ e.header = header ∧ e.frames C = (ct, mac) with
  | none => (⟨newBytes memory ct.length, length_newBytes _ _⟩, false)
  | some e =>
    if h : e.pt.length = ct.length then (⟨e.pt, h⟩, true)
    else (⟨newBytes memory ct.length, length_newBytes _ _⟩, false)

section
variable {C : Primitives} {s : Stream} {header ct mac pt pt' : Frame} {all : List Encryption}
  {memory : ℕ → UInt8}

/-- Two plaintexts are not encrypted alike. -/
theorem Primitives.Correct.frames_inj (hC : C.Correct)
    (h : Encryption.frames C ⟨s, header, pt⟩ = Encryption.frames C ⟨s, header, pt'⟩) : pt = pt' := by
  obtain ⟨hct, hmac⟩ := Prod.mk.inj h
  dsimp only at hct hmac
  have hopen := (hC.decrypt s header pt).1
  rw [hct, hmac] at hopen
  exact hopen.symm.trans (hC.decrypt s header pt').1

/-- **What has been encrypted is accepted.** -/
theorem idealDecrypt_of_mem (memory : ℕ → UInt8) (hC : C.Correct) (hmem : ⟨s, header, pt⟩ ∈ all)
    (hframes : Encryption.frames C ⟨s, header, pt⟩ = (ct, mac)) :
    (idealDecrypt C all memory s header ct mac).1.1 = pt ∧
      (idealDecrypt C all memory s header ct mac).2 = true := by
  have hlen : pt.length = ct.length := by
    rw [← (Prod.mk.inj hframes).1]
    exact (C.encrypt s header pt).1.2.symm
  obtain ⟨e, he⟩ := Option.isSome_iff_exists.mp (List.find?_isSome.mpr
    ⟨⟨s, header, pt⟩, hmem, decide_eq_true (And.intro rfl ⟨rfl, hframes⟩)⟩ :
      (all.find? fun e ↦ e.stream = s ∧ e.header = header ∧ e.frames C = (ct, mac)).isSome)
  obtain ⟨t, header', pt'⟩ := e
  have hfound := List.find?_some he
  simp only [decide_eq_true_eq] at hfound
  obtain ⟨rfl, rfl, hframes'⟩ := hfound
  obtain rfl : pt = pt' := hC.frames_inj (hframes.trans hframes'.symm)
  rw [idealDecrypt, he]
  simp only [hlen, dif_pos, and_self]

/-- **And nothing else is.** -/
theorem exists_of_idealDecrypt (h : (idealDecrypt C all memory s header ct mac).2 = true) :
    ∃ pt, ⟨s, header, pt⟩ ∈ all ∧ Encryption.frames C ⟨s, header, pt⟩ = (ct, mac) := by
  rw [idealDecrypt] at h
  split at h
  · exact absurd h (by simp)
  · rename_i e he
    obtain ⟨t, header', pt⟩ := e
    have hfound := List.find?_some he
    simp only [decide_eq_true_eq] at hfound
    obtain ⟨rfl, rfl, hframes⟩ := hfound
    exact ⟨pt, List.mem_of_find?_eq_some he, hframes⟩

end

end Crypto
end RfcNet
