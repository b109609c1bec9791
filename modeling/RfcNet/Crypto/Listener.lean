import RfcNet.Crypto.Honest

/-!
# The listener

The accept loop of `EncryptedServerSocketListener`.  Each connection is taken through its handshake
by the constructor of its socket, in the thread of the loop, before a thread and an entry of
`client_threads` are made for it.

What a peer sends is a sequence of bytes of its own choice.  A receive that fails leaves its buffer as
it is, and the handshake does not notice, so the bytes are rather what the handshake finds in its
buffers.  Nothing in the loop catches an exception, and one that leaves the function of a thread ends
the program: `contained_iff_welcomed` says which connections the listener comes through.
-/

set_option autoImplicit false

namespace RfcNet
namespace Crypto

open Lib

/-! ## One connection -/

/-- A connection: what its peer sends, and what this end generates. -/
structure Connecting where
  /-- What the handshake finds in its buffers, one after the other. -/
  bytes : ℕ → UInt8
  /-- The key pair. -/
  pair : KeyPair
  /-- The IV. -/
  iv : Block ivLen

namespace Connecting

/-- `n` of the bytes, after the first `m`. -/
def block (c : Connecting) (m n : ℕ) : Frame := (List.range n).map fun i ↦ c.bytes (m + i)

/-- The size of the peer's public key. -/
def size (c : Connecting) : Int32 := unwireInt (c.block 0 sizeofInt)

/-- The peer's public key. -/
def pub (c : Connecting) : Frame := c.block sizeofInt (sizeT c.size)

/-- The ciphertext of the peer's confirmation. -/
def ct (c : Connecting) : Frame := c.block (sizeofInt + sizeT c.size) confirmPhrase.length

/-- The MAC of the peer's confirmation. -/
def mac (c : Connecting) : Frame :=
  c.block (sizeofInt + sizeT c.size + confirmPhrase.length) macLen

/-- The stream for a shared secret. -/
def stream (C : Primitives) (c : Connecting) (shared : Frame) : Stream := ⟨C.deriveKey shared, c.iv.1⟩

/-- What the calls of the handshake return. -/
def answers (C : Primitives) (c : Connecting) : (op : CryptoOp) → op.Res
  | .generateKeyPair => c.pair
  | .agree priv pub => C.agree priv pub
  | .deriveKey shared => C.deriveKey shared
  | .generateIv => c.iv
  | .encryptAndAuthenticate s header pt => C.encrypt s header pt
  | .decryptAndVerify s header ct mac => C.decrypt s header ct mac
  | .nextUse => .recv 0
  | .arrives _ => true

/-- The handshake of the constructor `EncryptedServerSocket`. -/
def shake (C : Primitives) (c : Connecting) : List cryptoSig.Call × Except Crash Stream :=
  (handshake true).eval (c.answers C) c.bytes

/-- The confirmation is one of the phrase. -/
def Confirms (C : Primitives) (s : Stream) (ct mac : Frame) : Prop :=
  (C.decrypt s cipHeader ct mac).2 = true ∧
    cString ((C.decrypt s cipHeader ct mac).1.1 ++ [0]) = confirmPhrase

/-- **A peer that knows the handshake**: it announces a size that is at least that of a public key,
the key is accepted, and the confirmation is right. -/
def Welcome (C : Primitives) (c : Connecting) : Prop :=
  publicKeyLength ≤ c.size.toInt ∧
    ∃ shared ∈ C.agree c.pair.priv c.pub, Confirms C (c.stream C shared) c.ct c.mac

end Connecting

/-- The public keys that have been handed to `Agree`. -/
def agreed (log : List cryptoSig.Call) : List Frame :=
  log.filterMap fun
    | ⟨.agree _ pub, _⟩ => some pub
    | _ => none

section
variable {C : Primitives} {c : Connecting}

/-- What the handshake receives. -/
theorem blocks_bytes (c : Connecting) : Prog.blocks c.bytes [sizeofInt, sizeT c.size] =
    [c.block 0 sizeofInt, c.pub] := by
  simp [Prog.blocks, Connecting.pub, Connecting.block]

theorem blocks_bytes_all (c : Connecting) :
    Prog.blocks c.bytes [sizeofInt, sizeT c.size, confirmPhrase.length, macLen] =
      [c.block 0 sizeofInt, c.pub, c.ct, c.mac] := by
  simp [Prog.blocks, Connecting.pub, Connecting.ct, Connecting.mac, Connecting.block, Nat.add_assoc]

theorem length_block (c : Connecting) (m n : ℕ) : (c.block m n).length = n := by
  rw [Connecting.block, List.length_map, List.length_range]

/-- A negative size. -/
theorem runs_receivePublicKey_neg (h : c.size < 0) :
    receivePublicKey.Runs [c.block 0 sizeofInt] [] [] (.raise .badAlloc) := by
  rw [receivePublicKey, recvInt_eq, Prog.bind_assoc]
  refine .recv_bind (length_block c 0 sizeofInt) ?_
  rw [Prog.done_bind, if_pos (show unwireInt _ < 0 from h)]
  exact .refl _

/-- Any other size, which the block for the key then has. -/
theorem exec_receivePublicKey_block (h : ¬ c.size < 0) :
    receivePublicKey.Exec [c.block 0 sizeofInt, c.pub] [] [] c.pub := by
  rw [receivePublicKey, recvInt_eq, Prog.bind_assoc]
  refine .recv_bind (length_block c 0 sizeofInt) ?_
  rw [Prog.done_bind, if_neg (show ¬ unwireInt _ < 0 from h)]
  exact .recv (length_block ..) (.refl _)

theorem runs_establish_none (genIv : Bool) (priv pub : Frame) :
    (establish genIv priv pub).Runs [] [⟨.agree priv pub, none⟩] [] (.raise .handshakeException) := by
  rw [establish]
  exact runs_invoke (.refl _)

instance (s : Stream) (ct mac : Frame) : Decidable (Connecting.Confirms C s ct mac) :=
  inferInstanceAs (Decidable (_ ∧ _))

/-- The third round, whatever is received. -/
theorem runs_confirm (C : Primitives) (s : Stream) {ct mac : Frame}
    (hct : ct.length = confirmPhrase.length) (hmac : mac.length = macLen) :
    (confirm s).Runs [ct, mac] [⟨.decryptAndVerify s cipHeader ct mac, C.decrypt s cipHeader ct mac⟩] []
      (if Connecting.Confirms C s ct mac then .done s else .raise .handshakeException) := by
  simp only [confirm, receiveConfirmation, Prog.bind_assoc]
  refine .recv_bind hct (.recv_bind hmac (runs_invoke ?_))
  by_cases hok : (C.decrypt s cipHeader ct mac).2 = true
  · by_cases hphrase : cString ((C.decrypt s cipHeader ct mac).1.1 ++ [0]) = confirmPhrase
    · have hconfirms : Connecting.Confirms C s ct mac := ⟨hok, hphrase⟩
      simpa [hconfirms, hok, hphrase] using Prog.Runs.refl _
    · have hconfirms : ¬ Connecting.Confirms C s ct mac := fun h ↦ hphrase h.2
      simpa [hconfirms, hok, hphrase] using Prog.Runs.refl _
  · have hconfirms : ¬ Connecting.Confirms C s ct mac := fun h ↦ hok h.1
    simpa [hconfirms, hok] using Prog.Runs.refl _

/-! ## What becomes of a handshake -/

/-- What is left of a handshake when the other end's public key is expected. -/
theorem runs_handshake {ins outs : List Frame} {calls : List cryptoSig.Call} {q : Prog cryptoSig Stream}
    (pair : KeyPair) (h : (agreeKey true pair >>= confirm).Runs ins calls outs q) :
    (handshake true).Runs ins (⟨.generateKeyPair, pair⟩ :: calls)
      ([wireInt (Int32.ofNat publicKeyLength), pair.pub.1] ++ outs) q := by
  rw [handshake]
  exact (Prog.Runs.bind (exec_offerKey pair) _).trans h

/-- A negative size. -/
theorem shake_of_neg (C : Primitives) (h : c.size < 0) :
    agreed (c.shake C).1 = [] ∧ (c.shake C).2 = .error .badAlloc := by
  have hruns := runs_handshake c.pair (by
    rw [agreeKey, Prog.bind_assoc]
    exact (runs_receivePublicKey_neg h).bind _)
  have heval := hruns.eval (c.answers C) c.bytes [sizeofInt]
    (by simp [Prog.blocks, Connecting.block]) (by simp [Connecting.answers])
  rw [Connecting.shake, heval]
  exact ⟨rfl, rfl⟩

/-- A key that is not accepted. -/
theorem shake_of_agree_none (h : ¬ c.size < 0) (hagree : C.agree c.pair.priv c.pub = none) :
    agreed (c.shake C).1 = [c.pub] ∧ (c.shake C).2 = .error .handshakeException := by
  have hruns := runs_handshake c.pair (by
    rw [agreeKey, Prog.bind_assoc]
    exact (Prog.Runs.bind (exec_receivePublicKey_block h) _).trans
      (((runs_establish_none true c.pair.priv c.pub).bind _).bind _))
  have heval := hruns.eval (c.answers C) c.bytes
    [sizeofInt, sizeT c.size]
    (blocks_bytes c).symm (by simp [Connecting.answers, hagree])
  rw [Connecting.shake, heval]
  exact ⟨rfl, rfl⟩

/-- A key that is accepted: the confirmation decides. -/
theorem shake_of_agree {shared : Frame} (h : ¬ c.size < 0)
    (hagree : C.agree c.pair.priv c.pub = some shared) :
    agreed (c.shake C).1 = [c.pub] ∧ (c.shake C).2 =
      if Connecting.Confirms C (c.stream C shared) c.ct c.mac then .ok (c.stream C shared)
      else .error .handshakeException := by
  let s := c.stream C shared
  let sealed := C.encrypt s cipHeader confirmPhrase
  have hagreeKey : (agreeKey true c.pair).Exec [c.block 0 sizeofInt, c.pub]
      [⟨.agree c.pair.priv c.pub, some shared⟩, ⟨.deriveKey shared, s.key⟩, ⟨.generateIv, c.iv⟩,
        ⟨.encryptAndAuthenticate s cipHeader confirmPhrase, sealed⟩]
      [c.iv.1, sealed.1.1, sealed.2.1] s :=
    exec_agreeKey (exec_receivePublicKey_block h)
      (exec_establish_true c.pair.priv c.pub shared s.key c.iv) sealed
  have hct : c.ct.length = confirmPhrase.length := length_block ..
  have hmac : c.mac.length = macLen := length_block ..
  have hruns := runs_handshake c.pair ((Prog.Runs.bind hagreeKey confirm).trans
    (runs_confirm C s hct hmac))
  have heval := hruns.eval (c.answers C) c.bytes
    [sizeofInt, sizeT c.size, confirmPhrase.length, macLen] (blocks_bytes_all c).symm
    (by simp [Connecting.answers, hagree, s, sealed, Connecting.stream])
  rw [Connecting.shake, heval]
  by_cases hconfirms : Connecting.Confirms C s c.ct c.mac
  · rw [if_pos hconfirms, if_pos hconfirms]
    exact ⟨rfl, rfl⟩
  · rw [if_neg hconfirms, if_neg hconfirms]
    exact ⟨rfl, rfl⟩

/-- A public key of the announced size is handed to `Agree`, unless the size is negative. -/
theorem agreed_shake (C : Primitives) (c : Connecting) :
    agreed (c.shake C).1 = if c.size < 0 then [] else [c.pub] := by
  by_cases hneg : c.size < 0
  · rw [if_pos hneg, (shake_of_neg C hneg).1]
  · rw [if_neg hneg]
    cases hagree : C.agree c.pair.priv c.pub with
    | none => exact (shake_of_agree_none hneg hagree).1
    | some shared => exact (shake_of_agree hneg hagree).1

/-- **When a handshake returns**: the size is not negative, the key is accepted, and the confirmation
is right. -/
theorem shake_eq_ok_iff : (∃ s, (c.shake C).2 = .ok s) ↔ ¬ c.size < 0 ∧
    ∃ shared ∈ C.agree c.pair.priv c.pub,
      Connecting.Confirms C (c.stream C shared) c.ct c.mac := by
  by_cases hneg : c.size < 0
  · simp [hneg, (shake_of_neg C hneg).2]
  · cases hagree : C.agree c.pair.priv c.pub with
    | none => simp [(shake_of_agree_none hneg hagree).2]
    | some shared =>
      rw [(shake_of_agree hneg hagree).2]
      by_cases hconfirms : Connecting.Confirms C (c.stream C shared) c.ct c.mac
      · simp [hconfirms, hneg]
      · simp [hconfirms]

theorem neg_or_length_pub (c : Connecting) : c.size < 0 ∨ (c.pub.length : ℤ) = c.size.toInt := by
  by_cases hneg : c.size < 0
  · exact .inl hneg
  · refine .inr ?_
    rw [Connecting.pub, length_block, sizeT]
    rw [Int32.lt_iff_toInt_lt] at hneg
    have hlt := c.size.toInt_lt
    simp only [Int32.toInt_zero] at hneg
    omega

/-- **A handshake that does as it should** is one of a peer that knows it. -/
theorem welcome_iff : Connecting.Welcome C c ↔
    (∀ pub ∈ agreed (c.shake C).1, publicKeyLength ≤ pub.length) ∧ ∃ s, (c.shake C).2 = .ok s := by
  rw [shake_eq_ok_iff, agreed_shake, Connecting.Welcome]
  rcases neg_or_length_pub c with hneg | hlength
  · have hsize : ¬ (publicKeyLength : ℤ) ≤ c.size.toInt := by
      rw [Int32.lt_iff_toInt_lt, Int32.toInt_zero] at hneg
      exact fun h ↦ absurd (Int.natCast_nonneg publicKeyLength) (by omega)
    exact ⟨fun h ↦ absurd h.1 hsize, fun h ↦ absurd hneg h.2.1⟩
  · have hneg : ¬ c.size < 0 := by
      rw [Int32.lt_iff_toInt_lt, Int32.toInt_zero]
      omega
    rw [if_neg hneg, List.forall_mem_singleton, ← hlength, Int.ofNat_le, and_iff_right hneg]

end

/-! ## The loop -/

/-- What has become of the accept loop. -/
inductive AcceptLoop
  /-- It accepts connections. -/
  | listening
  /-- It has returned, since `accept` failed. -/
  | returned
  /-- An exception has left it, and the program has been terminated. -/
  | terminated (e : Crash)
  deriving DecidableEq, Repr

/-- `ThreadKeeper`. -/
structure ThreadKeeper where
  /-- The socket. -/
  sock : ℕ
  /-- `*is_finished`. -/
  isFinished : Bool
  deriving DecidableEq, Repr

/-- The listener, with what has been seen of it. -/
structure Listener where
  /-- The accept loop. -/
  loop : AcceptLoop
  /-- `client_threads`. -/
  clientThreads : List ThreadKeeper
  /-- The connections that have been accepted. -/
  accepted : List (ℕ × Connecting)
  /-- The sockets for which an entry of `client_threads` has been made. -/
  created : List ℕ
  /-- The public keys that have been handed to `Agree`. -/
  offered : List Frame

namespace Listener

/-- What can happen to a listener. -/
inductive Event
  /-- A connection is accepted, with this descriptor. -/
  | accept (sock : ℕ) (c : Connecting)
  /-- `accept` fails. -/
  | acceptFails
  /-- The handler of a socket ends and sets `*is_finished`. -/
  | finish (sock : ℕ)
  /-- The cleanup thread goes once through `client_threads`. -/
  | cleanUp

/-- The listener has just been started. -/
def start : Listener := ⟨.listening, [], [], [], []⟩

/-- What follows the handshake of the constructor. -/
def keep (l : Listener) (sock : ℕ) : Except Crash Stream → Listener
  | .ok _ => { l with
    clientThreads := l.clientThreads ++ [⟨sock, false⟩], created := l.created ++ [sock] }
  | .error e => { l with loop := .terminated e }

/-- One round of the accept loop, with a connection. -/
def accept (C : Primitives) (l : Listener) (sock : ℕ) (c : Connecting) : Listener :=
  keep { l with
    accepted := l.accepted ++ [(sock, c)], offered := l.offered ++ agreed (c.shake C).1 } sock
    (c.shake C).2

/-- One event, as long as the program runs. -/
def step (C : Primitives) (l : Listener) : Event → Option Listener
  | .accept sock c => if l.loop = .listening then some (l.accept C sock c) else none
  | .acceptFails => if l.loop = .listening then some { l with loop := .returned } else none
  | .finish sock =>
    match l.loop with
    | .terminated _ => none
    | _ => some { l with clientThreads := l.clientThreads.map fun t ↦
        if t.sock = sock then { t with isFinished := true } else t }
  | .cleanUp =>
    match l.loop with
    | .terminated _ => none
    | _ => some { l with clientThreads := l.clientThreads.filter (!·.isFinished) }

/-- **Bad handshakes are contained**: each buffer that `Agree` was given holds a whole public key, the
program has not been terminated, and an entry of `client_threads` has been made for exactly the
connections whose handshake has returned. -/
structure Contained (C : Primitives) (l : Listener) : Prop where
  /-- What `Agree` was given. -/
  offered : ∀ pub ∈ l.offered, publicKeyLength ≤ pub.length
  /-- The loop goes on, unless `accept` has failed. -/
  survives : ∀ e, l.loop ≠ .terminated e
  /-- The entries. -/
  created : l.created = (l.accepted.filter fun a ↦ (a.2.shake C).2.isOk).map Prod.fst

/-- A connection that is accepted is one of a peer that knows the handshake. -/
def Welcomed (C : Primitives) (_ : Listener) : Event → Prop
  | .accept _ c => c.Welcome C
  | _ => True

variable {C : Primitives} {l l' : Listener} {e : Event}

theorem contained_start (C : Primitives) : Contained C start where
  offered _ hpub := absurd hpub List.not_mem_nil
  survives _ := nofun
  created := rfl

/-- **A connection is contained exactly if it is welcome.** -/
theorem contained_accept_iff (hl : Contained C l) (sock : ℕ) (c : Connecting) :
    Contained C (l.accept C sock c) ↔ c.Welcome C := by
  rw [welcome_iff, accept]
  cases hshake : (c.shake C).2 with
  | ok s =>
    constructor
    · intro h
      exact ⟨fun pub hpub ↦ h.offered pub (List.mem_append_right _ hpub), s, rfl⟩
    · rintro ⟨hlength, -⟩
      refine ⟨fun pub hpub ↦ ?_, hl.survives, ?_⟩
      · exact (List.mem_append.mp hpub).elim (hl.offered pub) (hlength pub)
      · simp [keep, hl.created, hshake, Except.isOk, Except.toBool]
  | error e =>
    constructor
    · intro h
      exact absurd rfl (h.survives e)
    · rintro ⟨-, s, hs⟩
      exact absurd hs nofun

/-- Nothing but a connection can do harm. -/
theorem contained_step_iff (hl : Contained C l) (hs : step C l e = some l') :
    Contained C l' ↔ Welcomed C l e := by
  cases e with
  | accept sock c =>
    obtain ⟨-, hsome⟩ := Option.ite_none_right_eq_some.mp hs
    exact Option.some_inj.mp hsome ▸ contained_accept_iff hl sock c
  | acceptFails =>
    obtain ⟨-, hsome⟩ := Option.ite_none_right_eq_some.mp hs
    obtain rfl := Option.some_inj.mp hsome
    exact ⟨fun _ ↦ trivial, fun _ ↦ ⟨hl.offered, fun _ ↦ nofun, hl.created⟩⟩
  | finish sock =>
    rw [step] at hs
    split at hs
    · exact absurd hs nofun
    · obtain rfl := Option.some_inj.mp hs
      exact ⟨fun _ ↦ trivial, fun _ ↦ ⟨hl.offered, hl.survives, hl.created⟩⟩
  | cleanUp =>
    rw [step] at hs
    split at hs
    · exact absurd hs nofun
    · obtain rfl := Option.some_inj.mp hs
      exact ⟨fun _ ↦ trivial, fun _ ↦ ⟨hl.offered, hl.survives, hl.created⟩⟩

/-- **The listener comes through exactly those connections whose peers know the handshake.** -/
theorem contained_iff_welcomed (C : Primitives) (es : List Event) :
    AllStates (step C) (Contained C) start es ↔ AllSteps (step C) (Welcomed C) start es := by
  constructor
  · intro h
    exact h.steps (I := fun _ ↦ True) (fun _ _ _ _ _ ↦ trivial)
      (fun l e l' _ hs hl hl' ↦ (contained_step_iff hl hs).mp hl') trivial
  · intro h
    exact .of_steps (fun l e l' hl hok hs ↦ (contained_step_iff hl hs).mpr hok) (fun _ hl ↦ hl)
      (contained_start C) h

/-- A peer that sends nothing but zeros. -/
def silent : Connecting := ⟨fun _ ↦ 0, Honest.plainPair 1, ⟨.replicate ivLen 7, .refl ivLen⟩⟩

/-- **One bad handshake is the end of the program**: a public key of no bytes is handed to `Agree`,
and then an exception leaves the accept loop.  Nothing can happen after that. -/
theorem terminated_silent : ∃ l, run (step Honest.plain) start [.accept 3 silent] = some l ∧
    l.loop = .terminated .handshakeException ∧ l.offered = [[]] ∧ l.created = [] ∧
    Stuck (step Honest.plain) l ∧ ¬ Contained Honest.plain l := by
  have hend : (run (step Honest.plain) start [.accept 3 silent]).map
      (fun l ↦ (l.loop, l.offered, l.created)) =
        some (.terminated .handshakeException, [[]], []) := by
    decide +kernel
  obtain ⟨l, hl, hresult⟩ := Option.map_eq_some_iff.mp hend
  obtain ⟨hloop, hrest⟩ := Prod.mk.inj hresult
  obtain ⟨hoffered, hcreated⟩ := Prod.mk.inj hrest
  refine ⟨l, hl, hloop, hoffered, hcreated, fun e ↦ ?_, fun h ↦ h.survives _ hloop⟩
  cases e <;> simp [step, hloop]

end Listener

end Crypto
end RfcNet
