import RfcNet.Crypto.Handshake
import RfcNet.Lib.Duet

/-!
# Two honest ends

One end with `genIv` and one without, joined by two reliable channels.  Of Crypto++ no more is assumed
than `Primitives.Correct` says.

Each round of the handshake is one execution, and the rounds of the two ends fit into each other
(`reaches_handshake`), whatever the ends do afterwards.  `Duet.settled_all` then makes this
`Honest.handshake_agrees`, for every interleaving.
-/

set_option autoImplicit false

namespace RfcNet
namespace Crypto

open Lib

/-! ## What Crypto++ computes -/

/-- The functions behind the calls. -/
structure Primitives where
  /-- These key pairs can be generated. -/
  Generates : KeyPair → Prop
  /-- The shared secret, if the public key is valid. -/
  agree : Frame → Frame → Option Frame
  /-- The derived key. -/
  deriveKey : Frame → Frame
  /-- The ciphertext and the MAC. -/
  encrypt : Stream → Frame → (pt : Frame) → Block pt.length × Block macLen
  /-- The plaintext, and whether it has been verified. -/
  decrypt : Stream → Frame → (ct : Frame) → Frame → Block ct.length × Bool

/-- What is assumed of them. -/
structure Primitives.Correct (P : Primitives) : Prop where
  /-- The agreement succeeds on valid public keys, and is symmetric. -/
  agree : ∀ a b, P.Generates a → P.Generates b →
    ∃ shared, P.agree a.priv b.pub.1 = some shared ∧ P.agree b.priv a.pub.1 = some shared
  /-- What has been encrypted can be decrypted. -/
  decrypt : ∀ s header pt,
    (P.decrypt s header (P.encrypt s header pt).1.1 (P.encrypt s header pt).2.1).1.1 = pt ∧
    (P.decrypt s header (P.encrypt s header pt).1.1 (P.encrypt s header pt).2.1).2 = true

/-- The environment of an honest end: what it generates, and what the application is going to do
with the socket. -/
def honestEnv (P : Primitives) (pair : KeyPair) (iv : Block ivLen) : Env cryptoSig where
  State := List Use
  answer uses
    | .generateKeyPair => some (pair, uses)
    | .agree priv pub => some (P.agree priv pub, uses)
    | .deriveKey shared => some (P.deriveKey shared, uses)
    | .generateIv => some (iv, uses)
    | .encryptAndAuthenticate s header pt => some (P.encrypt s header pt, uses)
    | .decryptAndVerify s header ct mac => some (P.decrypt s header ct mac, uses)
    | .nextUse =>
      match uses with
      | [] => none
      | use :: rest => some (use, rest)
    | .arrives _ => some (true, uses)

/-! ## The rounds -/

section
variable {α : Type} {ins outs : List Frame} {calls : List cryptoSig.Call} {q : Prog cryptoSig α}

theorem runs_invoke {op : CryptoOp} {r : op.Res} {g : op.Res → Prog cryptoSig α}
    (h : (g r).Runs ins calls outs q) : (invoke op >>= g).Runs ins (⟨op, r⟩ :: calls) outs q :=
  .call h

end

theorem exec_send (s : Stream) (data : Frame) (sealed : Block data.length × Block macLen) :
    (send s data).Exec [] [⟨.encryptAndAuthenticate s cipHeader data, sealed⟩]
      [sealed.1.1, sealed.2.1] () := by
  rw [send]
  refine runs_invoke ?_
  simp only [sendBuffer_some sealed.1.2, sendBuffer_some sealed.2.2]
  exact .send (.send (.refl _))

/-- The first round. -/
theorem exec_offerKey (pair : KeyPair) :
    offerKey.Exec [] [⟨.generateKeyPair, pair⟩]
      [wireInt (Int32.ofNat publicKeyLength), pair.pub.1] pair := by
  have hsize : sizeT (Int32.ofNat publicKeyLength) = publicKeyLength :=
    sizeT_ofNat (by decide)
  rw [offerKey]
  refine runs_invoke ?_
  simp only [sendPublicKey, pair.pub.2, ntohl_htonl, hsize, sendBuffer_some pair.pub.2]
  exact .send (.send (.refl _))

theorem exec_receivePublicKey (pub : Block publicKeyLength) :
    receivePublicKey.Exec [wireInt (Int32.ofNat publicKeyLength), pub.1] [] [] pub.1 := by
  rw [receivePublicKey]
  refine runs_recvInt ?_
  rw [if_neg (by decide)]
  exact .recv (pub.2.trans (sizeT_ofNat (by decide)).symm) (.refl _)

/-- The agreement of the end that generates the IV. -/
theorem exec_establish_true (priv pub shared key : Frame) (iv : Block ivLen) :
    (establish true priv pub).Exec []
      [⟨.agree priv pub, some shared⟩, ⟨.deriveKey shared, key⟩, ⟨.generateIv, iv⟩] [iv.1]
      ⟨key, iv.1⟩ := by
  rw [establish]
  refine runs_invoke (runs_invoke ?_)
  rw [exchangeIv, if_pos rfl, Prog.bind_assoc]
  refine runs_invoke ?_
  rw [sendBuffer_some iv.2]
  exact .send (.refl _)

/-- The agreement of the end that receives it. -/
theorem exec_establish_false (priv pub shared key : Frame) (iv : Block ivLen) :
    (establish false priv pub).Exec [iv.1]
      [⟨.agree priv pub, some shared⟩, ⟨.deriveKey shared, key⟩] [] ⟨key, iv.1⟩ := by
  rw [establish]
  refine runs_invoke (runs_invoke ?_)
  rw [exchangeIv, if_neg (by decide)]
  exact .recv iv.2 (.refl _)

/-- The second round. -/
theorem exec_agreeKey {genIv : Bool} {pair : KeyPair} {pub : Frame}
    {offer ins outs : List Frame} {calls : List cryptoSig.Call} {s : Stream}
    (hpub : receivePublicKey.Exec offer [] [] pub)
    (h : (establish genIv pair.priv pub).Exec ins calls outs s)
    (sealed : Block confirmPhrase.length × Block macLen) :
    (agreeKey genIv pair).Exec (offer ++ ins)
      (calls ++ [⟨.encryptAndAuthenticate s cipHeader confirmPhrase, sealed⟩])
      (outs ++ [sealed.1.1, sealed.2.1]) s := by
  have hrest := h.bind (g := fun s ↦ do sendConfirmation s; return s)
    (Prog.Runs.bind (exec_send s confirmPhrase sealed) _)
  rw [List.append_nil] at hrest
  rw [agreeKey]
  exact hpub.bind hrest

/-- The third round. -/
theorem exec_confirm (s : Stream) {ct mac : Frame} (hct : ct.length = confirmPhrase.length)
    (hmac : mac.length = macLen) {opened : Block ct.length × Bool}
    (hopened : opened.1.1 = confirmPhrase ∧ opened.2 = true) :
    (confirm s).Exec [ct, mac] [⟨.decryptAndVerify s cipHeader ct mac, opened⟩] [] s := by
  have hphrase : cString (opened.1.1 ++ [0]) = confirmPhrase := by
    rw [hopened.1]
    decide
  simp only [confirm, receiveConfirmation, Prog.bind_assoc]
  refine .recv_bind hct (.recv_bind hmac (runs_invoke ?_))
  simp only [hopened.2, hphrase]
  exact .refl _

/-! ## The rounds of the two ends -/

/-- The streams that an end has encrypted with, once for each encryption. -/
def encryptions (log : List cryptoSig.Call) : List Stream :=
  log.filterMap fun
    | ⟨.encryptAndAuthenticate s _ _, _⟩ => some s
    | _ => none

section
variable {C : Primitives} {a b : KeyPair} {P Q : Proc cryptoSig}

/-- **The handshake of two honest ends**, one round after the other: both come to go on with the
same stream, both have encrypted once, and the channels are empty. -/
theorem reaches_handshake (hC : C.Correct) (ha : C.Generates a) (hb : C.Generates b)
    (iv iv' : Block ivLen) (g : Stream → P.Code) (h : Stream → Q.Code) (uses uses' : List Use) :
    ∃ s calls calls', encryptions calls = [s] ∧ encryptions calls' = [s] ∧
      Reaches Duet.step
        (⟨⟨handshake true >>= g, uses, []⟩, ⟨handshake false >>= h, uses', []⟩, [], []⟩ :
          Duet P (honestEnv C a iv) Q (honestEnv C b iv'))
        ⟨⟨g s, uses, calls⟩, ⟨h s, uses', calls'⟩, [], []⟩ := by
  obtain ⟨shared, hshared, hshared'⟩ := hC.agree a b ha hb
  have hagree : (honestEnv C a iv).answer uses (.agree a.priv b.pub.1) =
      some (some shared, uses) := by
    rw [← hshared]
    rfl
  have hagree' : (honestEnv C b iv').answer uses' (.agree b.priv a.pub.1) =
      some (some shared, uses') := by
    rw [← hshared']
    rfl
  let s : Stream := ⟨C.deriveKey shared, iv.1⟩
  let sealed := C.encrypt s cipHeader confirmPhrase
  have hopened := hC.decrypt s cipHeader confirmPhrase
  refine ⟨s, ?calls, ?calls', ?left, ?right, ?reach⟩
  case reach =>
    simp only [handshake, Prog.bind_assoc]
    -- Both send their public keys.
    refine (Duet.reaches_left (Prog.Runs.bind (exec_offerKey a) _) ⟨uses, rfl, rfl⟩ _ _ _ []).trans ?_
    refine (Duet.reaches_right (Prog.Runs.bind (exec_offerKey b) _) ⟨uses', rfl, rfl⟩ _ _ _ _).trans ?_
    -- The left one answers with the IV and its confirmation, the right one with its confirmation.
    refine (Duet.reaches_left
      (Prog.Runs.bind (exec_agreeKey (exec_receivePublicKey b.pub)
        (exec_establish_true a.priv b.pub.1 shared s.key iv) sealed) _)
      ⟨uses, hagree, uses, rfl, uses, rfl, uses, rfl, rfl⟩ _ _ _ []).trans ?_
    refine (Duet.reaches_right
      (Prog.Runs.bind (exec_agreeKey (exec_receivePublicKey a.pub)
        (exec_establish_false b.priv a.pub.1 shared s.key iv) sealed) _)
      ⟨uses', hagree', uses', rfl, uses', rfl, rfl⟩ _ _ _ _).trans ?_
    -- Both read the confirmation of the other.
    refine (Duet.reaches_left
      (Prog.Runs.bind (exec_confirm s sealed.1.2 sealed.2.2 hopened) _) ⟨uses, rfl, rfl⟩ _ _ _
      []).trans ?_
    exact Duet.reaches_right (F := honestEnv C b iv')
      (Prog.Runs.bind (exec_confirm s sealed.1.2 sealed.2.2 hopened) _) ⟨uses', rfl, rfl⟩ _ _ [] _
  case left => rfl
  case right => rfl

end

/-! ## The handshake alone -/

namespace Honest

/-- Two ends that do nothing but the handshake. -/
abbrev Pair (C : Primitives) (a b : KeyPair) (iv : Block ivLen) :=
  Duet (.straight cryptoSig Stream) (honestEnv C a iv) (.straight cryptoSig Stream)
    (honestEnv C b iv)

/-- Neither has moved. -/
def start (C : Primitives) (a b : KeyPair) (iv : Block ivLen) : Pair C a b iv :=
  ⟨⟨(handshake true).once, [], []⟩, ⟨(handshake false).once, [], []⟩, [], []⟩

variable {C : Primitives} {a b : KeyPair} {iv : Block ivLen}

/-- What the handshake promises to two honest ends. -/
structure Agrees (c : Pair C a b iv) : Prop where
  /-- Each receive asks for the length of what was sent, and no exception has been raised. -/
  inStep : c.InStep
  /-- They do not wait for each other. -/
  notBlocked : ¬ (c.left.Blocked c.toLeft ∧ c.right.Blocked c.toRight)
  /-- When they have both returned, they have the same key and the same IV, and nothing is left in
  the channels. -/
  agreed : ∀ s t, c.left.code = .done (.inr s) → c.right.code = .done (.inr t) →
    s = t ∧ c.toLeft = [] ∧ c.toRight = []

/-- **Two honest ends agree**, in every interleaving. -/
theorem handshake_agrees (hC : C.Correct) (ha : C.Generates a) (hb : C.Generates b) {es : List Side}
    {c : Pair C a b iv} (hrun : run Duet.step (start C a b iv) es = some c) : Agrees c := by
  obtain ⟨s, calls, calls', -, -, hend⟩ := reaches_handshake (P := .straight cryptoSig Stream)
    (Q := .straight cryptoSig Stream) hC ha hb iv iv (fun s ↦ .done (.inr s))
    (fun s ↦ .done (.inr s)) [] []
  obtain ⟨hinStep, hreach⟩ := Duet.settled_all hend ⟨rfl, rfl⟩ ⟨es, hrun⟩
  refine ⟨hinStep, fun hblocked ↦ ?_, fun t u ht hu ↦ ?_⟩
  · have hstuck := Duet.stuck_of_act hblocked.1.act_eq_none hblocked.2.act_eq_none
    obtain rfl := hstuck.eq_of_reaches hreach
    obtain ⟨⟨n, k, hcode⟩, -⟩ := hblocked.1
    cases hcode
  · have hstuck := Duet.stuck_of_act (Endpoint.act_eq_none_of_returned ht _)
      (Endpoint.act_eq_none_of_returned hu _)
    obtain rfl := hstuck.eq_of_reaches hreach
    obtain rfl := Sum.inr.inj (Prog.done.inj ht)
    obtain rfl := Sum.inr.inj (Prog.done.inj hu)
    exact ⟨rfl, rfl, rfl⟩

/-! ## An example -/

/-- Each byte is added to one of the key. -/
def mask (key data : Frame) : Block data.length :=
  ⟨data.mapIdx fun i byte ↦ byte ^^^ key.getD i 0, List.length_mapIdx⟩

theorem mask_mask (key data : Frame) : (mask key (mask key data).1).1 = data := by
  refine List.ext_getElem (by simp [mask]) fun i _ _ ↦ ?_
  simp only [mask, List.getElem_mapIdx, UInt8.xor_assoc, UInt8.xor_self, UInt8.xor_zero]

theorem mask_comm {key data : Frame} (h : key.length = data.length) :
    (mask key data).1 = (mask data key).1 := by
  refine List.ext_getElem (by simp [mask, h]) fun i hi hi' ↦ ?_
  simp only [mask, List.length_mapIdx] at hi hi'
  simp only [mask, List.getElem_mapIdx, List.getD_eq_getElem?_getD, List.getElem?_eq_getElem hi,
    List.getElem?_eq_getElem hi', Option.getD_some]
  exact UInt8.xor_comm _ _

/-- Primitives that are right and hide nothing: a private key is its public key, the shared secret
is the sum of two keys, and it is the key of a stream cipher. -/
def plain : Primitives where
  Generates pair := pair.priv = pair.pub.1
  agree priv pub := some (mask priv pub).1
  deriveKey shared := shared
  encrypt s _ pt := (mask s.key pt, ⟨List.replicate macLen 0, List.length_replicate⟩)
  decrypt s _ ct _ := (mask s.key ct, true)

/-- A key pair of these. -/
def plainPair (byte : UInt8) : KeyPair :=
  ⟨List.replicate publicKeyLength byte, List.replicate publicKeyLength byte, List.length_replicate⟩

theorem plainPair_generated (byte : UInt8) : plain.Generates (plainPair byte) :=
  rfl (a := List.replicate publicKeyLength byte)

theorem plain_correct : plain.Correct where
  agree a b ha hb := by
    have ha : a.priv = a.pub.1 := ha
    have hb : b.priv = b.pub.1 := hb
    have hcomm : (mask b.priv a.pub.1).1 = (mask a.priv b.pub.1).1 := by
      rw [ha, hb]
      exact mask_comm (b.pub.2.trans a.pub.2.symm)
    exact ⟨_, rfl, congrArg some hcomm⟩
  decrypt s header pt := by
    simp only [plain, mask_mask, and_self]

/-- One way in which the moves of a handshake can be ordered. -/
def schedule : List Side :=
  [(3, .left), (2, .right), (1, .left), (1, .right), (8, .left), (7, .right), (1, .left),
    (1, .right), (2, .left), (3, .right)].flatMap fun (n, side) ↦ List.replicate n side

private theorem schedule_end :
    (run Duet.step (start plain (plainPair 1) (plainPair 2) ⟨.replicate ivLen 7, rfl⟩)
      schedule).map (fun c ↦ (c.toLeft, c.toRight)) = some ([], []) := by
  decide +kernel

theorem handshake_agrees_plain : ∃ c,
    run Duet.step (start plain (plainPair 1) (plainPair 2) ⟨.replicate ivLen 7, rfl⟩)
      schedule = some c ∧ c.toLeft = [] ∧ c.toRight = [] ∧ Agrees c := by
  obtain ⟨c, hc, hempty⟩ := Option.map_eq_some_iff.mp schedule_end
  obtain ⟨hleft, hright⟩ := Prod.mk.inj hempty
  exact ⟨c, hc, hleft, hright,
    handshake_agrees plain_correct (plainPair_generated 1) (plainPair_generated 2) hc⟩

end Honest

end Crypto
end RfcNet
