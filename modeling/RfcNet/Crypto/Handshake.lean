import RfcNet.Common
import RfcNet.Wire

/-!
# The encrypted sockets

`Crypto::handshake` of `crypto_common.cpp`, and `send` and `recv` of the two encrypted sockets,
which are the same text.  The primitives of Crypto++ are calls, so that what they return can be a
matter of arithmetic in one place and of what an attacker cannot do in another.  That a primitive
fills a buffer of a certain size is in the type of what it returns.

`encryptedSocket` is the life of a socket after the handshake: the application sends and receives,
in whatever order it likes, and the stream stays as it is.
-/

set_option autoImplicit false

namespace RfcNet
namespace Crypto

open Lib

/-! ## Constants -/

/-- `IV_LEN`. -/
def ivLen : ℕ := 12

/-- `MAC_LEN`. -/
def macLen : ℕ := 16

/-- `CIP_HEADER`, which is `CIPHEADER`. -/
def cipHeader : Frame := [67, 73, 80, 72, 69, 65, 68, 69, 82]

/-- `CONFIRM_PHRASE`, which is `CONFIRM`. -/
def confirmPhrase : StdString := [67, 79, 78, 70, 73, 82, 77]

/-- `PublicKeyLength()` of the curve `secp384r1`, whose points are two coordinates of 48 bytes and
one byte of format. -/
def publicKeyLength : ℕ := 97

/-! ## Calls -/

/-- A buffer of `n` bytes that has been filled. -/
abbrev Block (n : ℕ) := {f : Frame // f.length = n}

/-- What `GenerateKeyPair` generates. -/
structure KeyPair where
  /-- The private key. -/
  priv : Frame
  /-- The public key. -/
  pub : Block publicKeyLength
  deriving DecidableEq

/-- What `enc` and `dec` of a socket have been given: the derived key and the IV. -/
structure Stream where
  /-- The key. -/
  key : Frame
  /-- The IV. -/
  iv : Frame
  deriving DecidableEq, Repr

/-- What the application does with an encrypted socket. -/
inductive Use
  | send (data : Frame)
  | recv (len : ℕ)
  deriving DecidableEq, Repr

/-- What an encrypted socket calls on. -/
inductive CryptoOp
  /-- `dh.GenerateKeyPair`. -/
  | generateKeyPair
  /-- `dh.Agree`. -/
  | agree (priv pub : Frame)
  /-- `hkdf.DeriveKey`, with the salt and the info of the source. -/
  | deriveKey (shared : Frame)
  /-- `rng.GenerateBlock` for the IV. -/
  | generateIv
  /-- `enc.EncryptAndAuthenticate`. -/
  | encryptAndAuthenticate (s : Stream) (header pt : Frame)
  /-- `dec.DecryptAndVerify`. -/
  | decryptAndVerify (s : Stream) (header ct mac : Frame)
  /-- The next thing that the application does with the socket. -/
  | nextUse
  /-- Whether a receive of so many bytes succeeds. -/
  | arrives (len : ℕ)
  deriving DecidableEq, Repr

/-- What it returns: of an encryption the ciphertext and the MAC, of a decryption the contents of
the buffer and whether they have been verified. -/
@[reducible] def CryptoOp.Res : CryptoOp → Type
  | .generateKeyPair => KeyPair
  | .agree _ _ => Option Frame
  | .deriveKey _ => Frame
  | .generateIv => Block ivLen
  | .encryptAndAuthenticate _ _ pt => Block pt.length × Block macLen
  | .decryptAndVerify _ _ ct _ => Block ct.length × Bool
  | .nextUse => Use
  | .arrives _ => Bool

/-- The calls and exceptions of an encrypted socket. -/
@[reducible] def cryptoSig : Sig := ⟨CryptoOp, CryptoOp.Res, Crash⟩

/-- One call of an encrypted socket. -/
def invoke (op : CryptoOp) : Prog cryptoSig op.Res := .call (S := cryptoSig) op

/-! ## The sockets -/

/-- `send` of an encrypted socket. -/
def send (s : Stream) (data : Frame) : Prog cryptoSig Unit := do
  let (ct, mac) ← invoke (.encryptAndAuthenticate s cipHeader data)
  sendBuffer (some ct.1) data.length
  sendBuffer (some mac.1) macLen

/-- `recv` of an encrypted socket.  The source gives the MAC a buffer of `len` bytes; what a receive
past the end of that does is not modelled. -/
def recv (s : Stream) (len : ℕ) : Prog cryptoSig Bool := do
  if !(← invoke (.arrives len)) then return false
  else
    let ct ← .recv len
    if !(← invoke (.arrives macLen)) then return false
    else
      let mac ← .recv macLen
      let (_, ok) ← invoke (.decryptAndVerify s cipHeader ct mac)
      return ok

/-- The next use of a socket. -/
def useSocket (s : Stream) : Prog cryptoSig (Stream ⊕ Empty) := do
  match ← invoke .nextUse with
  | .send data =>
    send s data
    return .inl s
  | .recv len =>
    let _ ← recv s len
    return .inl s

/-- An encrypted socket, after its handshake. -/
@[reducible] def encryptedSocket : Proc cryptoSig := ⟨Stream, Empty, useSocket⟩

/-! ## The handshake -/

/-- The size of the public key, and the public key. -/
def sendPublicKey (pub : Block publicKeyLength) : Prog cryptoSig Unit := do
  let size := Int32.ofNat pub.1.length
  sendInt size
  let size := ntohl (htonl size)
  sendBuffer (some pub.1) (sizeT size)

/-- The public key of the other end.  The block for it cannot be negative. -/
def receivePublicKey : Prog cryptoSig Frame := do
  let size ← recvInt
  if size < 0 then .raise .badAlloc
  else .recv (sizeT size)

/-- The IV: one end generates it and sends it, the other end receives it. -/
def exchangeIv (genIv : Bool) : Prog cryptoSig Frame := do
  if genIv then
    let iv ← invoke .generateIv
    sendBuffer (some iv.1) ivLen
    return iv.1
  else .recv ivLen

/-- The agreement, the stream key, and the IV. -/
def establish (genIv : Bool) (priv pub : Frame) : Prog cryptoSig Stream := do
  match ← invoke (.agree priv pub) with
  | none => .raise .handshakeException
  | some shared =>
    let key ← invoke (.deriveKey shared)
    let iv ← exchangeIv genIv
    return ⟨key, iv⟩

/-- The confirmation of this end. -/
def sendConfirmation (s : Stream) : Prog cryptoSig Unit := send s confirmPhrase

/-- The confirmation of the other end.  The plaintext is compared as a string, up to the NUL that is
put after it. -/
def receiveConfirmation (s : Stream) : Prog cryptoSig Unit := do
  let ct ← .recv confirmPhrase.length
  let mac ← .recv macLen
  let (pt, ok) ← invoke (.decryptAndVerify s cipHeader ct mac)
  if !ok then .raise .handshakeException
  else if cString (pt.1 ++ [0]) ≠ confirmPhrase then .raise .handshakeException
  else return ()

/-- The first round: this end's public key. -/
def offerKey : Prog cryptoSig KeyPair := do
  let pair ← invoke .generateKeyPair
  sendPublicKey pair.pub
  return pair

/-- The second round: the other end's public key is answered with a confirmation. -/
def agreeKey (genIv : Bool) (pair : KeyPair) : Prog cryptoSig Stream := do
  let pub ← receivePublicKey
  let s ← establish genIv pair.priv pub
  sendConfirmation s
  return s

/-- The third round: the other end's confirmation. -/
def confirm (s : Stream) : Prog cryptoSig Stream := do
  receiveConfirmation s
  return s

/-- `Crypto::handshake`, in three rounds.  It returns the stream that `enc` and `dec` have been set
to, where the source returns true. -/
def handshake (genIv : Bool) : Prog cryptoSig Stream := do
  let pair ← offerKey
  let s ← agreeKey genIv pair
  confirm s

end Crypto
end RfcNet
