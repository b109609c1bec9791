import RfcNet.Client
import RfcNet.Messages.Grammar
import RfcNet.Peer

/-!
# What the decoders of the replies accept

A reply comes as a size and so many bytes, and both are the remote side's choice.  `get_rfc`,
`list_rfcs_remote` and `get_from_peer` allocate what the size says, receive into it, and decode.
`MessageParseException` is declared, but nothing throws it: where the size is negative, or the frame
does not begin with all the bytes of a message, they allocate or read what is not there.

`decodes_iff` is that the three come through everywhere else.
-/

set_option autoImplicit false

namespace RfcNet

open Lib

/-- `p`, sent a size and a frame, comes to a message: nothing of a negative size is allocated, and no
copy leaves the frame or has a negative length, which would be the end of `p`. -/
def Decodes {S : Sig} {α : Type} (p : Prog S α) (len : Int32) (f : Frame) : Prop :=
  ∃ calls res, p.Exec [wireInt len, f] calls [] res

section
variable {Op : Type} {Res : Op → Type} {α ρ : Type} {len : Int32} {f : Frame}
  {dec : Frame → Except Fault ρ} {k : ρ → Prog ⟨Op, Res, Crash⟩ α}

/-- **Receiving and decoding**, as all three do it. -/
theorem decodes_receive_iff (hk : ∀ r, ∃ calls res, (k r).Exec [] calls [] res)
    (hlen : f.length = len.toInt.toNat) :
    Decodes (recvInt >>= fun tmp ↦ if tmp < 0 then .raise .badAlloc
      else Prog.recv (sizeT tmp) >>= fun buf ↦ .ofExcept .memory (dec buf) >>= k) len f ↔
      0 ≤ len ∧ ∃ r, dec f = .ok r := by
  constructor
  · rintro ⟨calls, res, hexec⟩
    have hrest := (Prog.Runs.of_recv_bind hexec).2
    simp only [unwireInt_wireInt] at hrest
    by_cases hneg : len < 0
    · rw [if_pos hneg] at hrest
      cases hrest
    · rw [if_neg hneg] at hrest
      have hdec := (Prog.Runs.of_recv_bind hrest).2
      refine ⟨Int32.not_lt.mp hneg, ?_⟩
      cases hr : dec f with
      | ok r => exact ⟨r, rfl⟩
      | error e =>
        rw [hr] at hdec
        cases hdec
  · rintro ⟨hnonneg, r, hr⟩
    obtain ⟨calls, res, hexec⟩ := hk r
    have hlt := len.toInt_lt
    refine ⟨calls, res, runs_recvInt ?_⟩
    rw [if_neg (Int32.not_lt.mpr hnonneg)]
    refine .recv_bind ?_ ?_
    · rw [hlen, ← ofNat_toNat_toInt hnonneg, sizeT_ofNat (by omega), ofNat_toNat_toInt hnonneg]
    · rw [hr]
      exact hexec

end

theorem receiveReply_bind {α : Type} (g : Frame → Prog clientSig α) : receiveReply >>= g =
    recvInt >>= fun tmp ↦ if tmp < 0 then .raise .badAlloc else Prog.recv (sizeT tmp) >>= g := by
  have hpull : ∀ tmp : Int32,
      (if tmp < 0 then .raise .badAlloc else .recv (sizeT tmp) : Prog clientSig Frame) >>= g =
        if tmp < 0 then .raise .badAlloc else Prog.recv (sizeT tmp) >>= g := by
    intro tmp
    split
    · rw [Prog.raise_bind]
    · rfl
  rw [receiveReply, Prog.bind_assoc]
  exact congrArg (recvInt >>= ·) (funext hpull)

section
variable {len : Int32} {f : Frame}

theorem decodes_awaitLookup_iff (rfcNum : Int32) (hlen : f.length = len.toInt.toNat) :
    Decodes (awaitLookup rfcNum) len f ↔
      0 ≤ len ∧ ∃ res, LookupRFCResponse.fromBytes {} f = .ok res := by
  rw [awaitLookup, receiveReply_bind]
  exact decodes_receive_iff
    (fun res ↦ ⟨[⟨.decoded (.lookup rfcNum) (.lookedUp res), ()⟩], res, .call (.refl _)⟩) hlen

theorem decodes_awaitList_iff (hlen : f.length = len.toInt.toNat) :
    Decodes awaitList len f ↔ 0 ≤ len ∧ ∃ res, ListRFCResponse.fromBytes {} f = .ok res := by
  rw [awaitList, receiveReply_bind]
  exact decodes_receive_iff
    (fun res ↦ ⟨[⟨.decoded .list (.listed res), ()⟩], res, .call (.refl _)⟩) hlen

theorem decodes_awaitGet_iff (hlen : f.length = len.toInt.toNat) :
    Decodes awaitGet len f ↔ 0 ≤ len ∧ ∃ res, GetRFCResponse.fromBytes {} f = .ok res := by
  have heq : awaitGet = recvInt >>= fun tmp ↦ if tmp < 0 then .raise .badAlloc
      else Prog.recv (sizeT tmp) >>= fun buf ↦
        .ofExcept .memory (GetRFCResponse.fromBytes {} buf) >>= .done := by
    simp only [Prog.bind_done]
    rfl
  rw [heq]
  exact decodes_receive_iff (fun res ↦ ⟨_, res, .refl _⟩) hlen

/-- **The decoders stay inside the frame** exactly where the size is not negative and the frame begins
with all the bytes of a message. -/
theorem decodes_iff (rfcNum len : Int32) (f : Frame) (hlen : f.length = len.toInt.toNat) :
    (Decodes (awaitLookup rfcNum) len f ↔ 0 ≤ len ∧ BeginsWithReply clientBytes f) ∧
      (Decodes awaitList len f ↔ 0 ≤ len ∧ BeginsWithReply holderBytes f) ∧
      (Decodes awaitGet len f ↔ 0 ≤ len ∧ BeginsWithContent f) := by
  have hlt : f.length < 2 ^ 31 := by
    have hle := len.toInt_lt
    omega
  rw [decodes_awaitLookup_iff rfcNum hlen, decodes_awaitList_iff hlen, decodes_awaitGet_iff hlen,
    LookupRFCResponse.fromBytes_ok_iff hlt, ListRFCResponse.fromBytes_ok_iff hlt,
    GetRFCResponse.fromBytes_ok_iff hlt]
  exact ⟨Iff.rfl, Iff.rfl, Iff.rfl⟩

/-- Replies of code 200, with an element or with a content of two bytes, and something after them. -/
theorem decodes_trailing :
    Decodes (awaitLookup 7) 19
      (wireInt 200 ++ (wireInt 1 ++ (([⟨[104], 1⟩] : List Client).flatMap clientBytes ++ [0, 0]))) ∧
    Decodes awaitList 23
      (wireInt 200 ++ (wireInt 1 ++ (([⟨7, ⟨[104], 1⟩⟩] : List RFCHolder).flatMap holderBytes ++ [0, 0]))) ∧
    Decodes awaitGet 11 (GetRFCResponse.bytes 200 [97, 98] ++ [0]) :=
  ⟨(decodes_iff 7 19 _ (by decide)).1.mpr ⟨by decide, Or.inr ⟨1, [⟨[104], 1⟩], [0, 0], rfl, rfl⟩⟩,
    (decodes_iff 7 23 _ (by decide)).2.1.mpr ⟨by decide, Or.inr ⟨1, [⟨7, ⟨[104], 1⟩⟩], [0, 0], rfl, rfl⟩⟩,
    (decodes_iff 7 11 _ (by decide)).2.2.mpr ⟨by decide, 200, [97, 98], [0], rfl⟩⟩

/-- A size below zero, a frame without a code, a count of one and nothing to count, and a length below
zero. -/
theorem not_decodes_malformed : ¬ Decodes awaitList (-1) [] ∧ ¬ Decodes (awaitLookup 7) 0 [] ∧
    ¬ Decodes (awaitLookup 7) 8 (wireInt 200 ++ wireInt 1) ∧
    ¬ Decodes awaitGet 8 (wireInt 200 ++ wireInt (-1)) := by
  rw [decodes_awaitList_iff (by decide), decodes_awaitLookup_iff 7 (by decide),
    decodes_awaitLookup_iff 7 (by decide), decodes_awaitGet_iff (by decide)]
  refine ⟨fun h ↦ absurd h.1 (by decide), ?_, ?_, ?_⟩
  · rintro ⟨-, res, hres⟩
    cases hres
  · rintro ⟨-, res, hres⟩
    cases hres
  · rintro ⟨-, res, hres⟩
    cases hres

end

end RfcNet
