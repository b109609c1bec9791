import Mathlib.Data.List.Infix
import RfcNet.Lib.Prog

/-!
# Messages that say where they end

A message format is `Framed` if what is decoded from the beginning of a buffer is what was encoded
there, whatever follows it, and if a part of a message is no message.  An encoder may fail, and it may
leave memory as it finds it, which is its argument `heap`; neither shows in the messages of a format
that is framed.

All of it follows from the bytes of each message (`Framed.of_bytes`).
-/

set_option autoImplicit false

namespace RfcNet
namespace Lib

variable {α ε : Type}

/-- What `encode` makes of the `sendable` values is framed by `decode`, which also says how many bytes
it has read.  `size` is the number of bytes that the encoder has counted. -/
structure Framed (sendable : α → Prop) (size : α → ℕ)
    (encode : α → (ℕ → UInt8) → Except ε (Option Frame)) (decode : Frame → Except ε (α × ℕ)) :
    Prop where
  /-- What can be sent is encoded, in as many bytes as were counted. -/
  encodes : ∀ a, sendable a → ∀ heap, ∃ msg, encode a heap = .ok (some msg) ∧ msg.length = size a
  /-- It is decoded from its message, with anything after it, and no more is read than the message. -/
  decodes : ∀ a, sendable a → ∀ heap msg after, encode a heap = .ok (some msg) →
    decode (msg ++ after) = .ok (a, size a)
  /-- And no less. -/
  fails : ∀ a, sendable a → ∀ heap msg n, encode a heap = .ok (some msg) → n < size a →
    ∃ e, decode (msg.take n) = .error e
  /-- What is decoded has the same message again. -/
  reencodes : ∀ a, sendable a → ∀ heap heap' msg after a' n, encode a heap = .ok (some msg) →
    decode (msg ++ after) = .ok (a', n) → encode a' heap' = .ok (some msg)
  /-- No message is a proper prefix of another. -/
  prefixFree : ∀ a a', sendable a → sendable a' → ∀ heap heap' msg msg',
    encode a heap = .ok (some msg) → encode a' heap' = .ok (some msg') → msg <+: msg' → msg = msg'
  /-- Different values have different messages. -/
  injective : ∀ a a', sendable a → sendable a' → ∀ heap heap',
    encode a heap = encode a' heap' → a = a'

/-- **A format is framed** if its messages are those of `bytes`, and these are decoded. -/
theorem Framed.of_bytes {sendable : α → Prop} {size : α → ℕ}
    {encode : α → (ℕ → UInt8) → Except ε (Option Frame)} {decode : Frame → Except ε (α × ℕ)}
    (bytes : α → Frame) (hencode : ∀ a, sendable a → ∀ heap, encode a heap = .ok (some (bytes a)))
    (hsize : ∀ a, sendable a → (bytes a).length = size a)
    (hdecode : ∀ a, sendable a → ∀ after, decode (bytes a ++ after) = .ok (a, size a))
    (hfail : ∀ a, sendable a → ∀ n < size a, ∃ e, decode ((bytes a).take n) = .error e) :
    Framed sendable size encode decode := by
  have hbytes : ∀ a, sendable a → ∀ heap msg, encode a heap = .ok (some msg) → msg = bytes a :=
    fun a ha heap msg h ↦ Option.some_inj.mp (Except.ok.inj (h.symm.trans (hencode a ha heap)))
  refine ⟨fun a ha heap ↦ ⟨_, hencode a ha heap, hsize a ha⟩, ?_, ?_, ?_, ?_, ?_⟩
  · intro a ha heap msg after h
    rw [hbytes a ha heap msg h, hdecode a ha]
  · intro a ha heap msg n h hn
    rw [hbytes a ha heap msg h]
    exact hfail a ha n hn
  · intro a ha heap heap' msg after a' n h h'
    obtain rfl := hbytes a ha heap msg h
    rw [hdecode a ha] at h'
    obtain ⟨rfl, -⟩ := Prod.mk.inj (Except.ok.inj h')
    exact hencode a ha heap'
  · intro a a' ha ha' heap heap' msg msg' h h' hprefix
    obtain rfl := hbytes a ha heap msg h
    obtain rfl := hbytes a' ha' heap' msg' h'
    obtain ⟨after, hafter⟩ := hprefix
    -- Both values are decoded from the longer message.
    have hboth := hdecode a ha after
    rw [hafter, ← List.append_nil (bytes a'), hdecode a' ha'] at hboth
    rw [(Prod.mk.inj (Except.ok.inj hboth)).1]
  · intro a a' ha ha' heap heap' h
    rw [hencode a ha, hencode a' ha'] at h
    have hdecoded := hdecode a ha []
    rw [Option.some_inj.mp (Except.ok.inj h), hdecode a' ha'] at hdecoded
    exact (Prod.mk.inj (Except.ok.inj hdecoded)).1.symm

end Lib
end RfcNet
