import Mathlib.Data.List.Infix
import RfcNet.Crypto.Ideal
import RfcNet.Crypto.Nonces
import RfcNet.Lib.Script

/-!
# What an attacker can do to a stream

Two ends that have come through an honest handshake, and between them a network that hands over
whatever it likes, while the cipher is ideal.

What an end accepts is then what one of the ends has encrypted at some time.  Which end, in which
order and how often is up to the network: a frame does not say where it belongs.
`authentic_iff_inOrder` says exactly when what an end has accepted is still a prefix of what the
other one has sent.
-/

set_option autoImplicit false

namespace RfcNet
namespace Crypto

open Lib

/-! ## Plaintexts -/

/-- The plaintexts that an end has encrypted, which are those passed to `send`. -/
def sent (log : List cryptoSig.Call) : List Frame := (made log).map Encryption.pt

/-- The plaintexts for which `recv` has returned true. -/
def accepted (log : List cryptoSig.Call) : List Frame :=
  log.filterMap fun
    | ⟨.decryptAndVerify _ _ _ _, (pt, true)⟩ => some pt.1
    | _ => none

theorem accepted_append (log log' : List cryptoSig.Call) :
    accepted (log ++ log') = accepted log ++ accepted log' := List.filterMap_append

/-! ## The attacked stream -/

/-- The two ends. -/
abbrev Attacked := Side → Endpoint encryptedSocket (Env.told cryptoSig)

/-- One end moves. -/
structure Handover where
  /-- The end. -/
  who : Side
  /-- What the network hands over, if the end receives. -/
  bytes : Frame := []
  /-- Whether a receive succeeds. -/
  arrives : Bool := true
  /-- What the application does next. -/
  use : Use := .recv 0
  /-- What is left in a buffer that has not been verified. -/
  memory : ℕ → UInt8 := fun _ ↦ 0

namespace Attacked

/-- The encryptions that have been made on the connection.  The handshake has left one, which both
ends have made: the confirmation. -/
def all (s : Stream) (w : Attacked) : List Encryption :=
  ⟨s, cipHeader, confirmPhrase⟩ :: (made (w .left).log ++ made (w .right).log)

/-- What the calls of an end return. -/
def answers (C : Primitives) (s : Stream) (w : Attacked) (m : Handover) :
    (op : cryptoSig.Op) → Option (cryptoSig.Res op)
  | .nextUse => some m.use
  | .arrives _ => some m.arrives
  | .encryptAndAuthenticate t header pt => some (C.encrypt t header pt)
  | .decryptAndVerify t header ct mac =>
    some (idealDecrypt C (w.all s) m.memory t header ct mac)
  | _ => none

/-- The two ends after a handshake that has set the stream `s`. -/
def start (s : Stream) : Attacked := fun _ ↦ ⟨.done (.inl s), fun _ ↦ none, []⟩

/-- One move.  What the end sends, the network knows anyway. -/
def step (C : Primitives) (s : Stream) (w : Attacked) (m : Handover) : Option Attacked :=
  (Endpoint.act { w m.who with env := answers C s w m } [m.bytes]).map fun r ↦
    Function.update w m.who r.1

/-- **Tamper resistance**: what an end has accepted is a prefix of what the other has sent. -/
def Authentic (w : Attacked) : Prop :=
  ∀ side : Side, accepted (w side).log <+: sent (w side.other).log

/-- The ciphertext and the MAC that a call verifies. -/
def toVerify : CryptoOp → Option (Frame × Frame)
  | .decryptAndVerify _ _ ct mac => some (ct, mac)
  | _ => none

/-- The ciphertext and the MAC that an end is about to verify. -/
def verifying (e : Endpoint encryptedSocket (Env.told cryptoSig)) : Option (Frame × Frame) :=
  match e.code with
  | .callThen op _ => toVerify op
  | _ => none

/-- If what the end is about to verify is one of the frames that have been made on the connection,
it is the one that is due: the next one of the other end. -/
def InOrder (C : Primitives) (s : Stream) (w : Attacked) (m : Handover) : Prop :=
  ∀ f ∈ verifying (w m.who), f ∈ (w.all s).map (Encryption.frames C) →
    ((made (w m.who.other).log).map (Encryption.frames C))[(accepted (w m.who).log).length]? = some f

/-! ## What a move does -/

/-- The two ends keep to the stream, and have encrypted with no other and under no other header. -/
structure Sound (s : Stream) (w : Attacked) : Prop where
  /-- What is left of the code of each end. -/
  code : ∀ side, KeepsTo s (w side).code
  /-- What each end has encrypted. -/
  made : ∀ side, ∀ e ∈ made (w side).log, e.stream = s ∧ e.header = cipHeader

variable {C : Primitives} {s : Stream} {w w' : Attacked} {m : Handover}

theorem sound_start : Sound s (start s) where
  code _ := show (.inl s : Stream ⊕ Empty) = .inl s from rfl
  made _ _ he := absurd he List.not_mem_nil

theorem mem_all {e : Encryption} : e ∈ w.all s ↔
    e = ⟨s, cipHeader, confirmPhrase⟩ ∨ e ∈ made (w .left).log ∨ e ∈ made (w .right).log := by
  rw [all, List.mem_cons, List.mem_append]

theorem Sound.eq_of_mem_all (hw : Sound s w) {e : Encryption} (he : e ∈ w.all s) :
    e.stream = s ∧ e.header = cipHeader := by
  rcases mem_all.mp he with rfl | he | he
  · exact ⟨rfl, rfl⟩
  · exact hw.made .left e he
  · exact hw.made .right e he

theorem verifying_of_ne {e : Endpoint encryptedSocket (Env.told cryptoSig)}
    (h : ∀ op k, e.code ≠ .callThen op k) : verifying e = none := by
  rw [verifying]
  split
  · rename_i hcode
    exact absurd hcode (h _ _)
  · rfl

theorem verifying_of_call {e : Endpoint encryptedSocket (Env.told cryptoSig)} {op : cryptoSig.Op}
    {k : cryptoSig.Res op → encryptedSocket.Code} (h : e.code = .callThen op k) :
    verifying e = toVerify op := by
  rw [verifying, h]

theorem accepted_decrypt {t : Stream} {header ct mac : Frame} (r : Block ct.length × Bool) :
    accepted [⟨.decryptAndVerify t header ct mac, r⟩] = if r.2 then [r.1.1] else [] := by
  obtain ⟨pt, _ | _⟩ := r <;> rfl

/-- What the end that moves does to the two records: nothing, and then it was not about to verify a
frame of the connection; or it encrypts; or it accepts the frame that it was about to verify. -/
theorem step_cases (hC : C.Correct) (hw : Sound s w) (h : step C s w m = some w') :
    ∃ e', w' = Function.update w m.who e' ∧ KeepsTo s e'.code ∧
      ((made e'.log = made (w m.who).log ∧ accepted e'.log = accepted (w m.who).log ∧
          ∀ f ∈ verifying (w m.who), f ∉ (w.all s).map (Encryption.frames C)) ∨
        (∃ pt, made e'.log = made (w m.who).log ++ [⟨s, cipHeader, pt⟩] ∧
          accepted e'.log = accepted (w m.who).log ∧ verifying (w m.who) = none) ∨
        ∃ pt, ⟨s, cipHeader, pt⟩ ∈ w.all s ∧
          verifying (w m.who) = some (Encryption.frames C ⟨s, cipHeader, pt⟩) ∧
          made e'.log = made (w m.who).log ∧
          accepted e'.log = accepted (w m.who).log ++ [pt]) := by
  obtain ⟨⟨e', rest, out⟩, hact, rfl⟩ := Option.map_eq_some_iff.mp h
  refine ⟨e', rfl, ?_⟩
  rcases Endpoint.follows_of_act (fun _ _ hv ↦ Sum.inl.inj hv ▸ useSocket_keepsTo s) hact
    (hw.code m.who) with
    ⟨hcode, hlog, hkeeps⟩ | ⟨op, k, r, env, ⟨⟩, hcode, hr, hnext, hlog, hkeeps⟩
  · refine ⟨hkeeps, .inl ⟨by rw [hlog], by rw [hlog], fun f hf ↦ ?_⟩⟩
    have hcode : ∀ op k, (w m.who).code ≠ .callThen op k := hcode
    rw [verifying_of_ne hcode] at hf
    exact absurd hf (Option.not_mem_none f)
  · refine ⟨hkeeps, ?_⟩
    obtain ⟨r', hanswer, heq⟩ := Option.map_eq_some_iff.mp hr
    obtain ⟨rfl, rfl⟩ := Prod.mk.inj heq
    have hcode : (w m.who).code = .callThen op k := hcode
    rw [hlog, made_append, accepted_append, verifying_of_call hcode]
    cases op with
    | encryptAndAuthenticate t header pt =>
      obtain ⟨⟨rfl, rfl⟩, -⟩ := Option.ite_none_right_eq_some.mp hnext
      exact .inr (.inl ⟨pt, rfl, List.append_nil _, rfl⟩)
    | decryptAndVerify t header ct mac =>
      obtain ⟨⟨rfl, rfl⟩, -⟩ := Option.ite_none_right_eq_some.mp hnext
      obtain rfl := Option.some_inj.mp hanswer
      rw [accepted_decrypt]
      by_cases hmem : (ct, mac) ∈ (w.all t).map (Encryption.frames C)
      · obtain ⟨⟨t', header, pt⟩, he, hframes⟩ := List.mem_map.mp hmem
        obtain ⟨rfl, rfl⟩ := hw.eq_of_mem_all he
        obtain ⟨hpt, hok⟩ := idealDecrypt_of_mem m.memory hC he hframes
        refine .inr (.inr ⟨pt, he, by rw [hframes]; rfl, List.append_nil _, ?_⟩)
        rw [if_pos hok, hpt]
      · have hok : ¬ (idealDecrypt C (w.all t) m.memory t cipHeader ct mac).2 = true := by
          intro hok
          obtain ⟨pt, he, hframes⟩ := exists_of_idealDecrypt hok
          exact hmem (List.mem_map.mpr ⟨_, he, hframes⟩)
        refine .inl ⟨List.append_nil _, by rw [if_neg hok, List.append_nil], fun f hf ↦ ?_⟩
        obtain rfl : (ct, mac) = f := Option.some_inj.mp hf
        exact hmem
    | _ =>
      exact .inl ⟨List.append_nil _, List.append_nil _, fun f hf ↦ absurd hf (Option.not_mem_none f)⟩

/-! ## Order and authenticity -/

theorem Sound.step (hC : C.Correct) (hw : Sound s w) (h : step C s w m = some w') :
    Sound s w' := by
  obtain ⟨e', rfl, hkeeps, hmade⟩ := step_cases hC hw h
  have hnew : ∀ e ∈ Crypto.made e'.log, e.stream = s ∧ e.header = cipHeader := by
    intro e he
    rcases hmade with ⟨hmade, -⟩ | ⟨pt, hmade, -⟩ | ⟨pt, -, -, hmade, -⟩
    · exact hw.made m.who e (hmade ▸ he)
    · rw [hmade, List.mem_append, List.mem_singleton] at he
      rcases he with he | rfl
      · exact hw.made m.who e he
      · exact ⟨rfl, rfl⟩
    · exact hw.made m.who e (hmade ▸ he)
  constructor
  · intro side
    by_cases hside : side = m.who
    · rwa [hside, Function.update_self]
    · rw [Function.update_of_ne hside]
      exact hw.code side
  · intro side
    by_cases hside : side = m.who
    · rwa [hside, Function.update_self]
    · rw [Function.update_of_ne hside]
      exact hw.made side

/-- The frame that is due is that of the plaintext that is due. -/
theorem Sound.due_iff (hC : C.Correct) (hw : Sound s w) {side : Side} {n : ℕ} {pt : Frame} :
    ((Crypto.made (w side).log).map (Encryption.frames C))[n]? =
        some (Encryption.frames C ⟨s, cipHeader, pt⟩) ↔
      (sent (w side).log)[n]? = some pt := by
  rw [sent, List.getElem?_map, List.getElem?_map, Option.map_eq_some_iff, Option.map_eq_some_iff]
  constructor
  · rintro ⟨⟨t, header, pt'⟩, he, hframes⟩
    obtain ⟨rfl, rfl⟩ := hw.made side _ (List.mem_of_getElem? he)
    exact ⟨_, he, hC.frames_inj hframes⟩
  · rintro ⟨⟨t, header, pt'⟩, he, rfl⟩
    obtain ⟨rfl, rfl⟩ := hw.made side _ (List.mem_of_getElem? he)
    exact ⟨_, he, rfl⟩

theorem append_singleton_prefix_iff {α : Type} {l l' : List α} {a : α} :
    l ++ [a] <+: l' ↔ l <+: l' ∧ l'[l.length]? = some a := by
  constructor
  · rintro ⟨t, rfl⟩
    exact ⟨⟨a :: t, by simp⟩, by simp⟩
  · rintro ⟨⟨t, rfl⟩, h⟩
    cases t with
    | nil => simp at h
    | cons b t =>
      obtain rfl : b = a := by simpa using h
      exact ⟨t, by simp⟩

/-- **A move keeps an authentic stream authentic exactly if it is in order.** -/
theorem authentic_step_iff (hC : C.Correct) (hw : Sound s w) (h : step C s w m = some w')
    (hauth : Authentic w) : Authentic w' ↔ InOrder C s w m := by
  obtain ⟨e', rfl, -, hmade⟩ := step_cases hC hw h
  have hother : Function.update w m.who e' m.who.other = w m.who.other :=
    Function.update_of_ne m.who.other_ne ..
  -- Only what the end that moves has accepted, and what it has sent, can have changed.
  have hiff : Authentic (Function.update w m.who e') ↔
      accepted e'.log <+: sent (w m.who.other).log ∧
        accepted (w m.who.other).log <+: sent e'.log := by
    constructor
    · intro hauth'
      have hmover := hauth' m.who
      have hpeer := hauth' m.who.other
      rw [Function.update_self, hother] at hmover
      rw [hother, Side.other_other, Function.update_self] at hpeer
      exact ⟨hmover, hpeer⟩
    · rintro ⟨hmover, hpeer⟩ side
      rcases side.eq_or_eq_other m.who with rfl | rfl
      · rwa [Function.update_self, hother]
      · rwa [hother, Side.other_other, Function.update_self]
  have hpeer := hauth m.who.other
  rw [Side.other_other] at hpeer
  rw [hiff]
  rcases hmade with ⟨hm, ha, hout⟩ | ⟨pt, hm, ha, hnone⟩ | ⟨pt, hmem, hf, hm, ha⟩
  · have hsent : sent e'.log = sent (w m.who).log := congrArg (List.map Encryption.pt) hm
    rw [hsent, ha]
    exact ⟨fun _ f hf hmem ↦ absurd hmem (hout f hf), fun _ ↦ ⟨hauth m.who, hpeer⟩⟩
  · have hsent : sent e'.log = sent (w m.who).log ++ [pt] := by
      rw [sent, hm, List.map_append, ← sent, List.map_singleton]
    rw [hsent, ha]
    refine ⟨fun _ f hf _ ↦ ?_, fun _ ↦ ⟨hauth m.who, hpeer.trans (List.prefix_append _ _)⟩⟩
    rw [hnone] at hf
    exact absurd hf (Option.not_mem_none f)
  · have hsent : sent e'.log = sent (w m.who).log := congrArg (List.map Encryption.pt) hm
    rw [hsent, ha, append_singleton_prefix_iff, ← hw.due_iff hC, InOrder, hf]
    constructor
    · rintro ⟨⟨-, hdue⟩, -⟩ f hf -
      obtain rfl := Option.some_inj.mp hf
      exact hdue
    · intro hdue
      exact ⟨⟨hauth m.who, hdue _ rfl (List.mem_map_of_mem hmem)⟩, hpeer⟩

/-- **What the ends accept is authentic as long as the network keeps to the order.** -/
theorem authentic_iff_inOrder (hC : C.Correct) (s : Stream) (es : List Handover) :
    AllStates (step C s) Authentic (start s) es ↔ AllSteps (step C s) (InOrder C s) (start s) es := by
  constructor
  · intro h
    exact h.steps (I := Sound s) (fun _ _ _ hw hs ↦ hw.step hC hs)
      (fun w m w' hw hs hauth hauth' ↦ (authentic_step_iff hC hw hs hauth).mp hauth') sound_start
  · intro h
    exact .of_steps (P := fun w ↦ Sound s w ∧ Authentic w)
      (fun w m w' hw hok hs ↦ ⟨hw.1.step hC hs, (authentic_step_iff hC hw.1 hs hw.2).mpr hok⟩)
      (fun _ hw ↦ hw.2) ⟨sound_start, fun _ ↦ List.prefix_rfl⟩ h

instance : Decidable (InOrder C s w m) :=
  inferInstanceAs (Decidable (∀ f ∈ verifying (w m.who), _))

/-- The left end sends one byte. -/
def sending : List Handover :=
  [{ who := .left }, { who := .left, use := .send [1] }, { who := .left }, { who := .left },
    { who := .left }]

/-- Its frame is handed over to the right end. -/
def handingOver : List Handover :=
  [{ who := .right }, { who := .right, use := .recv 1 }, { who := .right },
    { who := .right, bytes := [6] }, { who := .right },
    { who := .right, bytes := .replicate macLen 0 }, { who := .right }]

theorem authentic_iff_inOrder_once :
    AllStates (step Honest.plain ⟨[7], []⟩) Authentic (start ⟨[7], []⟩) (sending ++ handingOver) :=
  (authentic_iff_inOrder Honest.plain_correct _ _).mpr (by decide +kernel)

/-- **A replay**: the frame is handed over twice, and accepted twice. -/
theorem replayed : ∃ w,
    run (step Honest.plain ⟨[7], []⟩) (start ⟨[7], []⟩) (sending ++ handingOver ++ handingOver) =
      some w ∧
    sent (w .left).log = [[1]] ∧ accepted (w .right).log = [[1], [1]] ∧ ¬ Authentic w := by
  have hend : (run (step Honest.plain ⟨[7], []⟩) (start ⟨[7], []⟩)
      (sending ++ handingOver ++ handingOver)).map
        (fun w ↦ (sent (w .left).log, accepted (w .right).log)) = some ([[1]], [[1], [1]]) := by
    decide +kernel
  obtain ⟨w, hw, hlogs⟩ := Option.map_eq_some_iff.mp hend
  obtain ⟨hsent, haccepted⟩ := Prod.mk.inj hlogs
  refine ⟨w, hw, hsent, haccepted, fun hauth ↦ ?_⟩
  have hprefix := hauth .right
  rw [haccepted, show Side.other .right = .left from rfl, hsent] at hprefix
  exact absurd hprefix (by decide)

end Attacked

end Crypto
end RfcNet
