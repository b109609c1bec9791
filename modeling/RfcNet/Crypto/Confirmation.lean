import Mathlib.Data.List.Induction
import RfcNet.Crypto.Ideal
import RfcNet.Lib.Script

/-!
# What a confirmation is worth

One end of a handshake, and a network that answers it as it likes: it may replace the public keys,
and hand over any bytes.  Somewhere else there are other parties, who agree on keys of their own and
encrypt with the keys they have come to.

The end waits for somebody to encrypt the phrase with the key that it has derived, and it has just
done this itself.  So a confirmation says that somebody else has the key as long as it is not the
end's own that comes back (`confirmed_of_notReflected`).
-/

set_option autoImplicit false

namespace RfcNet
namespace Crypto

open Lib

/-! ## A handshake that returns -/

/-- The streams with which something has been verified. -/
def verified (log : List cryptoSig.Call) : List Stream :=
  log.filterMap fun
    | ⟨.decryptAndVerify s _ _ _, (_, true)⟩ => some s
    | _ => none

theorem verified_append (log log' : List cryptoSig.Call) :
    verified (log ++ log') = verified log ++ verified log' := List.filterMap_append

theorem verified_decrypt {s : Stream} {header ct mac : Frame} (r : Block ct.length × Bool) :
    verified [⟨.decryptAndVerify s header ct mac, r⟩] = if r.2 then [s] else [] := by
  obtain ⟨pt, _ | _⟩ := r <;> rfl

/-- What has been verified after one more call. -/
def verify (ss : List Stream) (c : cryptoSig.Call) : List Stream := ss ++ verified [c]

theorem foldl_verify (log : List cryptoSig.Call) : log.foldl verify [] = verified log := by
  induction log using List.reverseRecOn with
  | nil => rfl
  | append_singleton log c ih =>
    rw [List.foldl_append, ih, verified_append]
    rfl

section
variable {α : Type} {ss : List Stream} {fin : List Stream → α → Prop}

theorem leads_invoke {op : CryptoOp} {g : op.Res → Prog cryptoSig α}
    (hg : ∀ r, (g r).Leads verify fin (verify ss ⟨op, r⟩)) :
    (invoke op >>= g).Leads verify fin ss := .call hg

/-- Whatever it receives, the receiver of a confirmation returns only if it has verified one. -/
theorem receiveConfirmation_leads (s : Stream) :
    (receiveConfirmation s).Leads verify (fun ss _ ↦ s ∈ ss) ss := by
  rw [receiveConfirmation]
  refine Prog.leads_recv fun ct _ ↦ Prog.leads_recv fun mac _ ↦ leads_invoke ?_
  rintro ⟨pt, ok⟩
  cases ok with
  | false => exact .raise _
  | true =>
    show Prog.Leads _ _ _ (if (!true) = true then _ else if _ then _ else _)
    rw [if_neg (by decide)]
    split
    · exact .raise _
    · exact .done (List.mem_append_right _ (List.mem_singleton_self s))

/-- **A handshake returns a stream only if something has been verified with it.** -/
theorem handshake_leads (genIv : Bool) :
    (handshake genIv).Leads verify (fun ss s ↦ s ∈ ss) ss := by
  rw [handshake]
  refine Prog.leads_bind_right fun ss pair ↦ Prog.leads_bind_right fun ss s ↦ ?_
  rw [confirm]
  exact (receiveConfirmation_leads s).bind fun ss _ hs ↦ .done hs

end

/-! ## The end and the others -/

/-- One end of a handshake, and what the other parties have come to. -/
structure Challenge where
  /-- The end. -/
  own : Endpoint (.straight cryptoSig Stream) (Env.told cryptoSig)
  /-- The keys that other parties have derived. -/
  keys : List Frame
  /-- The encryptions that other parties have made. -/
  others : List Encryption

namespace Challenge

/-- What can happen. -/
inductive Event
  /-- The end moves: what is handed over to it, if it receives, and what it is given otherwise. -/
  | act (bytes : Frame) (pair : KeyPair) (iv : Block ivLen) (memory : ℕ → UInt8)
  /-- Another party derives a key from a private key and a public key. -/
  | derive (priv pub : Frame)
  /-- Another party encrypts. -/
  | encrypt (e : Encryption)

/-- The encryptions that have been made. -/
def all (w : Challenge) : List Encryption := made w.own.log ++ w.others

/-- What the calls of the end return. -/
def answers (C : Primitives) (w : Challenge) (pair : KeyPair) (iv : Block ivLen)
    (memory : ℕ → UInt8) : (op : cryptoSig.Op) → Option (cryptoSig.Res op)
  | .generateKeyPair => some pair
  | .agree priv pub => some (C.agree priv pub)
  | .deriveKey shared => some (C.deriveKey shared)
  | .generateIv => some iv
  | .encryptAndAuthenticate s header pt => some (C.encrypt s header pt)
  | .decryptAndVerify s header ct mac => some (idealDecrypt C w.all memory s header ct mac)
  | _ => none

/-- The end has not moved, and no other party has a key. -/
def start (genIv : Bool) : Challenge := ⟨⟨(handshake genIv).once, fun _ ↦ none, []⟩, [], []⟩

/-- One event.  The other parties encrypt with keys that they have. -/
def step (C : Primitives) (w : Challenge) : Event → Option Challenge
  | .act bytes pair iv memory =>
    (Endpoint.act { w.own with env := w.answers C pair iv memory } [bytes]).map fun r ↦
      { w with own := r.1 }
  | .derive priv pub =>
    (C.agree priv pub).map fun shared ↦ { w with keys := C.deriveKey shared :: w.keys }
  | .encrypt e => if e.stream.key ∈ w.keys then some { w with others := e :: w.others } else none

/-- What the handshake has returned. -/
def returned (w : Challenge) : Option Stream :=
  match w.own.code with
  | .done (.inr s) => some s
  | _ => none

/-- **Key confirmation**: if the handshake has returned, some other party has derived the key. -/
def Confirmed (w : Challenge) : Prop := ∀ s ∈ w.returned, s.key ∈ w.keys

/-- What has been encrypted resulted in this ciphertext and this MAC, with this stream and header. -/
def Fits (C : Primitives) (s : Stream) (header ct mac : Frame) (e : Encryption) : Prop :=
  e.stream = s ∧ e.header = header ∧ e.frames C = (ct, mac)

instance (C : Primitives) (s : Stream) (header ct mac : Frame) :
    DecidablePred (Fits C s header ct mac) :=
  fun _ ↦ inferInstanceAs (Decidable (_ ∧ _ ∧ _))

/-- The call verifies one of these encryptions. -/
def Opens (C : Primitives) (es : List Encryption) : CryptoOp → Prop
  | .decryptAndVerify s header ct mac => ∃ e ∈ es, Fits C s header ct mac e
  | _ => False

instance (C : Primitives) (es : List Encryption) : DecidablePred (Opens C es)
  | .decryptAndVerify s header ct mac =>
    inferInstanceAs (Decidable (∃ e ∈ es, Fits C s header ct mac e))
  | .generateKeyPair | .agree _ _ | .deriveKey _ | .generateIv | .encryptAndAuthenticate _ _ _
  | .nextUse | .arrives _ => inferInstanceAs (Decidable False)

/-- The call that the end is about to make. -/
def next (w : Challenge) : Option CryptoOp :=
  match w.own.code with
  | .callThen op _ => some op
  | _ => none

/-- What the end is about to verify has been encrypted by some other party, if by the end at
all. -/
def NotReflected (C : Primitives) (w : Challenge) (_ : Event) : Prop :=
  ∀ op ∈ w.next, Opens C (made w.own.log) op → Opens C w.others op

variable {C : Primitives} {w w' : Challenge} {e : Event} {genIv : Bool}

instance : Decidable (NotReflected C w e) := inferInstanceAs (Decidable (∀ op ∈ w.next, _))

theorem next_of_call {op : CryptoOp} {k : op.Res → (Proc.straight cryptoSig Stream).Code}
    (h : w.own.code = .callThen op k) : op ∈ w.next := by
  rw [next, h, Option.mem_def]

theorem code_of_returned {s : Stream} (h : s ∈ w.returned) : w.own.code = .done (.inr s) := by
  rw [returned] at h
  split at h
  · rename_i t hcode
    rw [hcode, Option.some_inj.mp h]
  · exact absurd h (Option.not_mem_none s)

/-- The invariant. -/
structure Sound (w : Challenge) : Prop where
  /-- The end returns only a stream with which it has verified something. -/
  code : w.own.code.Leads verify (fun ss out ↦ ∀ s, out = .inr s → s ∈ ss) (verified w.own.log)
  /-- And then somebody else has the key. -/
  keys : ∀ s ∈ verified w.own.log, s.key ∈ w.keys
  /-- Who encrypts has the key. -/
  others : ∀ e ∈ w.others, e.stream.key ∈ w.keys

theorem sound_start : Sound (start genIv) where
  code := (handshake_leads genIv).bind fun _ _ hs ↦ .done fun _ ht ↦ Sum.inr.inj ht ▸ hs
  keys _ hs := absurd hs List.not_mem_nil
  others _ he := absurd he List.not_mem_nil

theorem Sound.confirmed (h : Sound w) : Confirmed w := by
  intro s hs
  have hcode := h.code
  rw [code_of_returned hs] at hcode
  cases hcode with
  | done hfin => exact h.keys s (hfin s rfl)

/-- What is verified has been encrypted by some other party, if it is not reflected. -/
theorem key_of_verified {s : Stream} {header ct mac : Frame} {memory : ℕ → UInt8}
    (h : Sound w) (hok : (idealDecrypt C w.all memory s header ct mac).2 = true)
    (hreflect : (∃ e ∈ made w.own.log, Fits C s header ct mac e) →
      ∃ e ∈ w.others, Fits C s header ct mac e) : s.key ∈ w.keys := by
  obtain ⟨pt, hmem, hframes⟩ := exists_of_idealDecrypt hok
  have hother : ∃ e ∈ w.others, Fits C s header ct mac e := by
    rcases List.mem_append.mp hmem with hmade | hother
    · exact hreflect ⟨_, hmade, rfl, rfl, hframes⟩
    · exact ⟨_, hother, rfl, rfl, hframes⟩
  obtain ⟨e, he, rfl, -, -⟩ := hother
  exact h.others e he

/-- A move of the end. -/
theorem Sound.act {bytes : Frame} {pair : KeyPair} {iv : Block ivLen} {memory : ℕ → UInt8}
    (h : Sound w) (hok : NotReflected C w (.act bytes pair iv memory))
    (hs : step C w (.act bytes pair iv memory) = some w') : Sound w' := by
  obtain ⟨⟨e', rest, out⟩, hact, rfl⟩ := Option.map_eq_some_iff.mp hs
  have hcode : e'.code.Leads verify (fun ss out ↦ ∀ s, out = .inr s → s ∈ ss)
      (verified e'.log) := by
    rw [← foldl_verify]
    refine Endpoint.leads_of_act (fun _ (v : Empty) ↦ v.elim) hact ?_
    rw [foldl_verify]
    exact h.code
  refine ⟨hcode, ?_, h.others⟩
  intro s hs
  rcases Endpoint.call_of_act hact with hlog | ⟨op, k, r, env, hop, hanswer, hlog⟩
  · exact h.keys s (hlog ▸ hs)
  obtain ⟨r', hr', heq⟩ := Option.map_eq_some_iff.mp hanswer
  obtain ⟨rfl, -⟩ := Prod.mk.inj heq
  simp only at hlog
  rw [hlog, verified_append, List.mem_append] at hs
  refine hs.elim (h.keys s) fun hs ↦ ?_
  cases op with
  | decryptAndVerify t header ct mac =>
    obtain rfl := Option.some_inj.mp hr'
    rw [verified_decrypt, List.mem_ite_nil_right, List.mem_singleton] at hs
    obtain ⟨hverified, rfl⟩ := hs
    exact key_of_verified (w := w) h hverified (hok _ (next_of_call hop))
  | _ => exact absurd hs List.not_mem_nil

theorem Sound.step (h : Sound w) (hok : NotReflected C w e) (hs : step C w e = some w') :
    Sound w' := by
  cases e with
  | act bytes pair iv memory => exact h.act hok hs
  | derive priv pub =>
    obtain ⟨shared, -, rfl⟩ := Option.map_eq_some_iff.mp hs
    exact ⟨h.code, fun s hv ↦ List.mem_cons_of_mem _ (h.keys s hv),
      fun e he ↦ List.mem_cons_of_mem _ (h.others e he)⟩
  | encrypt e =>
    obtain ⟨hkey, ⟨⟩⟩ := Option.ite_none_right_eq_some.mp hs
    refine ⟨h.code, h.keys, fun e' he' ↦ ?_⟩
    rcases List.mem_cons.mp he' with rfl | he'
    · exact hkey
    · exact h.others e' he'

/-- **A handshake that returns has been confirmed**, as long as the network does not hand the end a
confirmation back that nobody else has made. -/
theorem confirmed_of_notReflected (C : Primitives) (genIv : Bool) (es : List Event)
    (hok : AllSteps (Challenge.step C) (NotReflected C) (start genIv) es) :
    AllStates (Challenge.step C) Confirmed (start genIv) es :=
  .of_steps (fun _ _ _ h hok hs ↦ h.step hok hs) (fun _ h ↦ h.confirmed) sound_start hok

/-! ## Two handshakes -/

/-- The end moves; `bytes` is handed over to it, if it receives. -/
def move (bytes : Frame) : Event :=
  .act bytes (Honest.plainPair 1) ⟨.replicate ivLen 7, rfl⟩ fun _ ↦ 0

/-- The end shakes hands with somebody who has the public key `pub` and confirms with `ct`, after
`others` have done something. -/
def shaking (pub ct : Frame) (others : List Event) : List Event :=
  .replicate 3 (move []) ++ [move (wireInt (Int32.ofNat publicKeyLength)), move pub] ++
    .replicate 7 (move []) ++ others ++ [move ct, move (.replicate macLen 0), move []]

/-- Another party, who derives the key and confirms it. -/
def another : List Event :=
  [.derive (Honest.plainPair 2).priv (Honest.plainPair 1).pub.1,
    .encrypt ⟨⟨.replicate publicKeyLength 3, .replicate ivLen 7⟩, cipHeader, confirmPhrase⟩]

theorem confirmed_of_notReflected_another : ∃ w s,
    run (Challenge.step Honest.plain) (start true)
      (shaking (Honest.plainPair 2).pub.1 (confirmPhrase.map (· ^^^ 3)) another) = some w ∧
    w.returned = some s ∧ s.key ∈ w.keys := by
  have hend : (run (Challenge.step Honest.plain) (start true)
      (shaking (Honest.plainPair 2).pub.1 (confirmPhrase.map (· ^^^ 3)) another)).map returned =
        some (some ⟨.replicate publicKeyLength 3, .replicate ivLen 7⟩) := by
    decide +kernel
  obtain ⟨w, hw, hreturned⟩ := Option.map_eq_some_iff.mp hend
  have hall := confirmed_of_notReflected Honest.plain true
    (shaking (Honest.plainPair 2).pub.1 (confirmPhrase.map (· ^^^ 3)) another) (by decide +kernel)
  exact ⟨w, _, hw, hreturned, hall.last hw _ hreturned⟩

/-- **A reflection**: the end is handed its own public key and its own confirmation, nobody else does
anything, and the handshake returns. -/
theorem reflected : ∃ w s,
    run (Challenge.step Honest.plain) (start true)
      (shaking (Honest.plainPair 1).pub.1 confirmPhrase []) = some w ∧
    w.returned = some s ∧ w.keys = [] ∧ ¬ Confirmed w := by
  have hend : (run (Challenge.step Honest.plain) (start true)
      (shaking (Honest.plainPair 1).pub.1 confirmPhrase [])).map (fun w ↦ (w.returned, w.keys)) =
        some (some ⟨.replicate publicKeyLength 0, .replicate ivLen 7⟩, []) := by
    decide +kernel
  obtain ⟨w, hw, hresult⟩ := Option.map_eq_some_iff.mp hend
  obtain ⟨hreturned, hkeys⟩ := Prod.mk.inj hresult
  refine ⟨w, _, hw, hreturned, hkeys, fun hconfirmed ↦ ?_⟩
  have hmem := hconfirmed _ hreturned
  rw [hkeys] at hmem
  exact absurd hmem List.not_mem_nil

end Challenge

end Crypto
end RfcNet
