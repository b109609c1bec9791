import RfcNet.Counted
import RfcNet.Crypto.Honest
import RfcNet.Crypto.Sockets
import RfcNet.Speaking

/-!
# Two programs on encrypted sockets

What the two programs of this repository really talk through: after the handshake, each send of a program is a
ciphertext and a MAC, each of which a loop of the socket below sends in pieces, and each receive is the reverse.

`sealing` is the encryption as a layer, and `secured` a program that begins with the handshake and then goes on
on top of that layer.  `secured_comesTo` is that nothing of this shows: if two programs come to rest when they
exchange frames, they come to the same on encrypted sockets, whatever the pieces are and in which order the two
ends move.

Two things are assumed for this.  The block into which an end receives the MAC of a message has the size of the
message, so for a short one it is the allocator that has to give more than was asked for (`Heap.Roomy`).  And for
an empty message there is no such block, so neither program may send one (`Speaks`).
-/

set_option autoImplicit false

namespace RfcNet
namespace Crypto

open Lib

/-! ## The encryption as a layer -/

/-- What an end gets from its allocator. -/
structure Heap where
  /-- What a new buffer holds. -/
  memory : ℕ → UInt8
  /-- How many bytes there really are in a `SecByteBlock` of so many bytes. -/
  room : ℕ → ℕ

/-- A block that is not empty always has room for a MAC. -/
def Heap.Roomy (heap : Heap) : Prop := ∀ len, 0 < len → macLen ≤ heap.room len

/-- `recv` of an encrypted socket, with what it leaves in the buffer, which has held `data`.  The block for the MAC
has been given `len` bytes, and where there is no room in it for all of the MAC the program goes no further. -/
def recvInto (heap : Heap) (s : Stream) (len : ℕ) (data : Frame) : Prog cryptoSig (Frame × Bool) := do
  if !(← invoke (.arrives len)) then return (data, false)
  else
    let ct ← .recv len
    if !(← invoke (.arrives macLen)) then return (data, false)
    else if heap.room len < macLen then .raise (.memory .outOfBounds)
    else
      let mac ← .recv macLen
      let (pt, ok) ← invoke (.decryptAndVerify s cipHeader ct mac)
      return (pt.1, ok)

/-- Where there is room for the MAC, it returns what `recv` returns. -/
theorem recvInto_snd {heap : Heap} {len : ℕ} (hroom : macLen ≤ heap.room len) (s : Stream) (data : Frame) :
    (recvInto heap s len data >>= fun r ↦ .done r.2) = recv s len := by
  refine congrArg (Prog.callThen (S := cryptoSig) (.arrives len)) (funext fun there ↦ ?_)
  cases there with
  | false => rfl
  | true =>
    refine congrArg (Prog.recvThen len) (funext fun ct ↦ ?_)
    refine congrArg (Prog.callThen (S := cryptoSig) (.arrives macLen)) (funext fun there ↦ ?_)
    cases there with
    | false => rfl
    | true =>
      dsimp only
      rw [if_neg (Nat.not_lt.mpr hroom)]
      rfl

/-- The sockets as a layer.  The programs above do not look at what `send` and `recv` return, and give `recv` a
new buffer. -/
def sealing (heap : Heap) (s : Stream) : Layer cryptoSig where
  snd data := send s data
  rcv len := do
    let (data, _) ← recvInto heap s len (newBytes heap.memory len)
    return data

/-- What is sent for a frame: the ciphertext and the MAC. -/
def sealed (C : Primitives) (s : Stream) (f : Frame) : List Frame :=
  [(C.encrypt s cipHeader f).1.1, (C.encrypt s cipHeader f).2.1]

section
variable {C : Primitives} {pair : KeyPair} {iv : Block ivLen}

/-- **The encryption carries frames** that are not empty, where there is room for every MAC. -/
theorem sealing_carries (hC : C.Correct) {heap : Heap} (hheap : heap.Roomy) (s : Stream) :
    (sealing heap s).Carries (honestEnv C pair iv) (sealed C s) (· ≠ []) where
  sends f m := ⟨_, m, exec_send s f (C.encrypt s cipHeader f), m, rfl, rfl⟩
  receives f m hne := by
    let ct := (C.encrypt s cipHeader f).1.1
    let mac := (C.encrypt s cipHeader f).2.1
    have hct : ct.length = f.length := (C.encrypt s cipHeader f).1.2
    refine ⟨[⟨.arrives f.length, true⟩, ⟨.arrives macLen, true⟩,
      ⟨.decryptAndVerify s cipHeader ct mac, C.decrypt s cipHeader ct mac⟩], m, ?_,
      m, rfl, m, rfl, m, rfl, rfl⟩
    have hdata : (C.decrypt s cipHeader ct mac).1.1 = f := (hC.decrypt s cipHeader f).1
    have hend : (Prog.done (C.decrypt s cipHeader ct mac).1.1 : Prog cryptoSig Frame).Runs [] [] []
        (.done f) := by
      rw [hdata]
      exact .refl _
    have hroom : ¬ heap.room f.length < macLen := Nat.not_lt.mpr (hheap _ (List.length_pos_iff.mpr hne))
    refine Prog.runs_call (S := cryptoSig) (.arrives f.length) true (.recv hct
      (Prog.runs_call (S := cryptoSig) (.arrives macLen) true ?_))
    simp only [if_neg hroom]
    exact .recv (C.encrypt s cipHeader f).2.2
      (Prog.runs_call (S := cryptoSig) (.decryptAndVerify s cipHeader ct mac) _ hend)
  waits n m hn := ⟨[⟨.arrives n, true⟩], m, n, _, hn,
    Prog.runs_call (S := cryptoSig) (.arrives n) true (.refl _), m, rfl, rfl⟩

end

theorem counted_sealing (heap : Heap) (s : Stream) {n : ℕ} (hn : n < 2 ^ 64) :
    Counted ((sealing heap s).rcv n) := by
  refine Prog.Within.bind ?_ fun _ ↦ trivial
  refine (counted_call _).bind fun there ↦ ?_
  cases there with
  | false => trivial
  | true =>
    refine (counted_recv hn).bind fun ct ↦ (counted_call _).bind fun there ↦ ?_
    cases there with
    | false => trivial
    | true =>
      by_cases hroom : heap.room n < macLen
      · simp only [if_pos hroom]
        trivial
      · simp only [if_neg hroom]
        exact (counted_recv (by decide)).bind fun mac ↦ (counted_call _).bind fun _ ↦ trivial

/-! ## The handshake on sockets -/

/-- **Two honest ends agree on a stream**, whatever the pieces are in which the keys and the confirmations arrive:
every run ends, no end is left by an exception and no loop fails, and at the end both have the same key and IV,
and nothing is between them. -/
theorem handshake_on_sockets {C : Primitives} {a b : KeyPair} (hC : C.Correct) (ha : C.Generates a)
    (hb : C.Generates b) (iv iv' : Block ivLen) : ∃ s bound, ∀ es (u : Sockets (.straight cryptoSig Stream)
      (honestEnv C b iv') (.straight cryptoSig Stream) (honestEnv C a iv)),
      run (Sockets.step clientFunctions serverFunctions)
        (.start ⟨(handshake false).once, [], []⟩ ⟨(handshake true).once, [], []⟩) es = some u →
      es.length ≤ bound ∧ ((∀ e, u.left.point.code ≠ .raise e) ∧ ∀ e, u.right.point.code ≠ .raise e) ∧
      (u.left.moving.retries = 0 ∧ u.right.moving.retries = 0) ∧
      (Stuck (Sockets.step clientFunctions serverFunctions) u → u.left.point.result = some s ∧
        u.right.point.result = some s ∧ u.toRight = [] ∧ u.toLeft = []) := by
  obtain ⟨s, calls, calls', -, -, hreach⟩ := reaches_handshake (P := .straight cryptoSig Stream)
    (Q := .straight cryptoSig Stream) hC ha hb iv iv' (fun s ↦ .done (.inr s)) (fun s ↦ .done (.inr s)) [] []
  have hstraight : ∀ v, ((Proc.straight cryptoSig Stream).body v).Within (2 ^ 64) := fun v ↦ Empty.elim v
  obtain ⟨bound, hbound⟩ := Sockets.comesTo (f := clientFunctions) (g := serverFunctions) hstraight hstraight
    (counted_once (counted_handshake false)) (counted_once (counted_handshake true)) (Duet.reaches_swap hreach)
    ⟨⟨rfl, nofun⟩, rfl, nofun⟩
  refine ⟨s, bound, fun es u hrun ↦ ?_⟩
  obtain ⟨hlen, ⟨hleft, hright⟩, hend⟩ := hbound es u hrun
  refine ⟨hlen, ⟨hleft.noException, hright.noException⟩, ⟨hleft.noRetry, hright.noRetry⟩, fun hst ↦ ?_⟩
  obtain ⟨harrived, harrived', htoRight, htoLeft⟩ := hend hst
  exact ⟨harrived.result, harrived'.result, htoRight, htoLeft⟩

/-- Two ends with primitives that hide nothing. -/
theorem handshake_on_sockets_plain : ∃ s bound, ∀ es (u : Sockets (.straight cryptoSig Stream)
    (honestEnv Honest.plain (Honest.plainPair 2) ⟨.replicate ivLen 7, rfl⟩) (.straight cryptoSig Stream)
    (honestEnv Honest.plain (Honest.plainPair 1) ⟨.replicate ivLen 7, rfl⟩)),
    run (Sockets.step clientFunctions serverFunctions)
      (.start ⟨(handshake false).once, [], []⟩ ⟨(handshake true).once, [], []⟩) es = some u →
    es.length ≤ bound ∧ ((∀ e, u.left.point.code ≠ .raise e) ∧ ∀ e, u.right.point.code ≠ .raise e) ∧
    (u.left.moving.retries = 0 ∧ u.right.moving.retries = 0) ∧
    (Stuck (Sockets.step clientFunctions serverFunctions) u → u.left.point.result = some s ∧
      u.right.point.result = some s ∧ u.toRight = [] ∧ u.toLeft = []) :=
  handshake_on_sockets Honest.plain_correct (Honest.plainPair_generated 1) (Honest.plainPair_generated 2) _ _

/-! ## A program on an encrypted socket -/

section
variable {S : Sig} {P : Proc S} {E : Env S}

/-- A program with a main loop on top of the encryption. -/
@[reducible] def Secure (heap : Heap) (P : Proc S) : Proc (S.sum cryptoSig) := P.over (sealing heap)

/-- The program `p` on an encrypted socket: first the handshake. -/
def secured (heap : Heap) (genIv : Bool) (p : P.Code) : (Secure heap P).Code :=
  (handshake genIv).inr S >>= fun s ↦ P.on (sealing heap) s p

theorem counted_on (heap : Heap) (s : Stream) {p : P.Code} (hp : Counted p) :
    Counted (P.on (sealing heap) s p) :=
  (hp.over (fun _ hf ↦ counted_send s hf) fun _ hn ↦ counted_sealing heap s hn).bind fun _ ↦ trivial

theorem counted_secured (heap : Heap) (genIv : Bool) {p : P.Code} (hp : Counted p) :
    Counted (secured heap genIv p) :=
  ((counted_handshake genIv).inr S).bind fun s ↦ counted_on heap s hp

end

/-! ## What comes of two programs -/

section
variable {S T : Sig} {P : Proc S} {E : Env S} {Q : Proc T} {F : Env T} {C : Primitives} {a b : KeyPair}
  {iv iv' : Block ivLen} {heap heap' : Heap}

/-- The client on the left and the server on the right, on encrypted sockets. -/
abbrev SecureSockets (C : Primitives) (a b : KeyPair) (iv iv' : Block ivLen) (heap heap' : Heap)
    (P : Proc S) (E : Env S) (Q : Proc T) (F : Env T) :=
  Sockets (Secure heap P) (E.sum (honestEnv C b iv')) (Secure heap' Q) (F.sum (honestEnv C a iv))

/-- The two have just been connected. -/
def SecureSockets.start (C : Primitives) (a b : KeyPair) (iv iv' : Block ivLen) (heap heap' : Heap)
    (p : P.Code) (s : E.State) (q : Q.Code) (t : F.State) :
    SecureSockets C a b iv iv' heap heap' P E Q F :=
  Sockets.start ⟨secured heap false p, (s, []), []⟩ ⟨secured heap' true q, (t, []), []⟩

/-- One end on its way to where `e` is: it has made some of the calls of `e`, it has not been left by an
exception, also not during the handshake, and its socket functions have not failed. -/
structure Nearing {H : Env cryptoSig} (x : Ended (Secure heap P) (E.sum H)) (e : Endpoint P E) : Prop where
  calls : Sig.upper x.point.log <+: e.log
  noException : ∀ err, x.point.code ≠ .raise err
  noRetry : x.moving.retries = 0

/-- One end that has made the calls of `e`, and has returned what `e` has returned. -/
structure Finished {H : Env cryptoSig} (x : Ended (Secure heap P) (E.sum H)) (e : Endpoint P E) : Prop where
  env : x.point.env.1 = e.env
  calls : Sig.upper x.point.log = e.log
  result : x.point.result = e.result

/-- **What comes of two programs on encrypted sockets**: every run ends, it ends where `d` is, and until then
the ends are on the way to it. -/
def SecureSockets.ComesTo (w : SecureSockets C a b iv iv' heap heap' P E Q F) (d : Duet P E Q F) : Prop :=
  ∃ bound, ∀ es u, run (Sockets.step clientFunctions serverFunctions) w es = some u → es.length ≤ bound ∧
    (Nearing u.left d.left ∧ Nearing u.right d.right) ∧
    (Stuck (Sockets.step clientFunctions serverFunctions) u → Finished u.left d.left ∧
      Finished u.right d.right ∧ ∃ s, u.toRight = (d.toRight.flatMap (sealed C s)).flatten ∧
        u.toLeft = (d.toLeft.flatMap (sealed C s)).flatten)

/-- A handshake and what comes after it. -/
theorem before_handshake {H : Env cryptoSig} {R : Proc (S.sum cryptoSig)} (genIv : Bool) (g : Stream → R.Code)
    (s : E.State) (m : H.State) :
    (Endpoint.before g s ⟨(handshake genIv).once, m, []⟩ : Endpoint R (E.sum H)) =
      ⟨(handshake genIv).inr S >>= g, (s, m), []⟩ := by
  rw [Endpoint.before, Prog.once, Prog.inr_bind, Prog.bind_assoc]
  rfl

/-- **The two ends get through the handshake** to where they go on with the same stream. -/
theorem reaches_secured (hC : C.Correct) (ha : C.Generates a) (hb : C.Generates b) (p : P.Code) (s : E.State)
    (q : Q.Code) (t : F.State) : ∃ stream log log', Sig.upper log = [] ∧ Sig.upper log' = [] ∧
      Reaches Duet.step (⟨⟨secured heap false p, (s, []), []⟩, ⟨secured heap' true q, (t, []), []⟩, [], []⟩ :
        Duet (Secure heap P) (E.sum (honestEnv C b iv')) (Secure heap' Q) (F.sum (honestEnv C a iv)))
      ⟨⟨P.on (sealing heap) stream p, (s, []), log⟩, ⟨Q.on (sealing heap') stream q, (t, []), log'⟩,
        [], []⟩ := by
  obtain ⟨stream, calls, calls', -, -, hreach⟩ := reaches_handshake (P := .straight cryptoSig Stream)
    (Q := .straight cryptoSig Stream) hC ha hb iv iv' (fun s ↦ .done (.inr s)) (fun s ↦ .done (.inr s)) [] []
  refine ⟨stream, calls'.map Sig.below, calls.map Sig.below, Sig.upper_below _, Sig.upper_below _, ?_⟩
  have hbefore := Duet.reaches_before (E := E) (P := Secure heap P) (Q := Secure heap' Q)
    (g := fun stream ↦ P.on (sealing heap) stream p) (h := fun stream ↦ Q.on (sealing heap') stream q)
    (s := s) (t := t) (Duet.reaches_swap hreach)
  have hleft := before_handshake (E := E) (H := honestEnv C b iv') (R := Secure heap P) false
    (fun stream ↦ P.on (sealing heap) stream p) s []
  have hright := before_handshake (E := F) (H := honestEnv C a iv) (R := Secure heap' Q) true
    (fun stream ↦ Q.on (sealing heap') stream q) t []
  rw [secured, secured, ← hleft, ← hright]
  exact hbefore

/-- **Encrypted sockets are transparent to programs** that send no empty frame: if they come to rest when they
exchange frames, they come to the same on encrypted sockets, whatever the pieces are and in which order the ends
move. -/
theorem secured_comesTo (hC : C.Correct) (ha : C.Generates a) (hb : C.Generates b) (hheap : heap.Roomy)
    (hheap' : heap'.Roomy) (hP : ∀ v, Counted (P.body v)) (hQ : ∀ v, Counted (Q.body v)) {p : P.Code}
    {q : Q.Code} (hp : Counted p) (hq : Counted q) {s : E.State} {t : F.State} {d : Duet P E Q F}
    (hfull : ∀ c, Reaches Duet.step (⟨⟨p, s, []⟩, ⟨q, t, []⟩, [], []⟩ : Duet P E Q F) c → c.InFlight (· ≠ []))
    (hreach : Reaches Duet.step (⟨⟨p, s, []⟩, ⟨q, t, []⟩, [], []⟩ : Duet P E Q F) d) (hrest : d.Quiet) :
    (SecureSockets.start C a b iv iv' heap heap' p s q t).ComesTo d := by
  obtain ⟨stream, log, log', hlog, hlog', hshake⟩ := reaches_secured (P := P) (E := E) (Q := Q) (F := F)
    hC ha hb p s q t
  -- After the handshake, the two go on in step with the two that exchange frames.
  have hover : Duet.Over (sealed C stream) stream stream
      (⟨⟨p, s, []⟩, ⟨q, t, []⟩, [], []⟩ : Duet P E Q F)
      (⟨⟨P.on (sealing heap) stream p, (s, []), log⟩, ⟨Q.on (sealing heap') stream q, (t, []), log'⟩,
        [], []⟩ :
        Duet (Secure heap P) (E.sum (honestEnv C b iv')) (Secure heap' Q) (F.sum (honestEnv C a iv))) :=
    ⟨⟨rfl, rfl, hlog⟩, ⟨rfl, rfl, hlog'⟩, rfl, rfl⟩
  obtain ⟨z, hz, hquiet, hshows⟩ := hover.settles (sealing_carries hC hheap stream)
    (sealing_carries hC hheap' stream) hfull hreach hrest
  have hbody : ∀ v, ((Secure heap P).body v).Within (2 ^ 64) := fun v ↦ counted_on heap v.1 (hP v.2)
  have hbody' : ∀ v, ((Secure heap' Q).body v).Within (2 ^ 64) := fun v ↦ counted_on heap' v.1 (hQ v.2)
  obtain ⟨bound, hbound⟩ := Sockets.comesTo (f := clientFunctions) (g := serverFunctions) hbody hbody'
    (counted_secured heap false hp) (counted_secured heap' true hq) (hshake.trans hz) hquiet
  refine ⟨bound, fun es u hrun ↦ ?_⟩
  obtain ⟨hlen, ⟨hleft, hright⟩, hend⟩ := hbound es u hrun
  refine ⟨hlen, ⟨⟨?_, hleft.noException, hleft.noRetry⟩, ⟨?_, hright.noException, hright.noRetry⟩⟩,
    fun hst ↦ ?_⟩
  · rw [← hshows.left.log]
    exact Sockets.upper_prefix hleft.calls
  · rw [← hshows.right.log]
    exact Sockets.upper_prefix hright.calls
  · obtain ⟨harrived, harrived', htoRight, htoLeft⟩ := hend hst
    refine ⟨⟨?_, ?_, ?_⟩, ⟨?_, ?_, ?_⟩, stream, ?_, ?_⟩
    · rw [harrived.env, hshows.left.env]
    · rw [harrived.calls, hshows.left.log]
    · rw [harrived.result, hshows.left.result]
    · rw [harrived'.env, hshows.right.env]
    · rw [harrived'.calls, hshows.right.log]
    · rw [harrived'.result, hshows.right.result]
    · rw [htoRight, hshows.toRight]
    · rw [htoLeft, hshows.toLeft]

/-- **Two programs do on encrypted sockets what they do with frames**, if neither ever sends an empty one and there
is room for every MAC.  If some schedule of frames brings them to rest, then every schedule of frames comes to the
same, and so does every run on encrypted sockets. -/
theorem encryption_transparent (hC : C.Correct) (ha : C.Generates a) (hb : C.Generates b) (hheap : heap.Roomy)
    (hheap' : heap'.Roomy) (hP : ∀ v, Counted (P.body v)) (hQ : ∀ v, Counted (Q.body v)) {p : P.Code}
    {q : Q.Code} (hp : Counted p) (hq : Counted q) {s : E.State} {t : F.State} {d : Duet P E Q F}
    (hfull : ∀ c, Reaches Duet.step (⟨⟨p, s, []⟩, ⟨q, t, []⟩, [], []⟩ : Duet P E Q F) c → c.InFlight (· ≠ []))
    (hreach : Reaches Duet.step (⟨⟨p, s, []⟩, ⟨q, t, []⟩, [], []⟩ : Duet P E Q F) d) (hrest : d.Quiet) :
    EndsIn Duet.step (⟨⟨p, s, []⟩, ⟨q, t, []⟩, [], []⟩ : Duet P E Q F) d ∧
      (SecureSockets.start C a b iv iv' heap heap' p s q t).ComesTo d :=
  ⟨Duet.diamond.endsIn hreach hrest.atRest.stuck,
    secured_comesTo hC ha hb hheap hheap' hP hQ hp hq hfull hreach hrest⟩

end

/-- The heap of a 64-bit system, all zeros: what is not empty has 24 bytes at least. -/
def chunked : Heap := ⟨fun _ ↦ 0, fun len ↦ if len = 0 then 0 else max 24 len⟩

theorem chunked_roomy : chunked.Roomy := by
  intro len hlen
  have hroom : chunked.room len = max 24 len := if_neg (by omega)
  rw [hroom, macLen]
  omega

/-- The exchange of versions, on either side. -/
def exchangeVersions {Op : Type} {Res : Op → Type} : Prog ⟨Op, Res, Crash⟩ Int32 := do
  sendInt protocolVersion
  recvInt

/-- The client and the server have exchanged their versions. -/
def exchanged : Duet (.straight clientSig Int32) userScript (.straight serverSig Int32) indexScript where
  left := ⟨.done (.inr (1 : Int32)), [], []⟩
  right := ⟨.done (.inr (1 : Int32)), [], []⟩
  toRight := []
  toLeft := []

/-- The versions are exchanged on encrypted sockets, with primitives that hide nothing. -/
theorem encryption_transparent_versions :
    (SecureSockets.start (P := .straight clientSig Int32) (E := userScript) (Q := .straight serverSig Int32)
      (F := indexScript) Honest.plain (Honest.plainPair 1) (Honest.plainPair 2) ⟨.replicate ivLen 7, rfl⟩
      ⟨.replicate ivLen 7, rfl⟩ chunked chunked exchangeVersions.once []
      exchangeVersions.once []).ComesTo exchanged := by
  have hcounted : ∀ {Op : Type} {Res : Op → Type},
      Counted (exchangeVersions : Prog ⟨Op, Res, Crash⟩ Int32) :=
    (counted_sendInt _).bind fun _ ↦ counted_recvInt
  have hspeaks : ∀ {Op : Type} {Res : Op → Type},
      Speaks (fun _ ↦ True) (exchangeVersions : Prog ⟨Op, Res, Crash⟩ Int32) :=
    (sized_sendInt usual_pos _).bind fun _ ↦ sized_recvInt usual_pos
  have hfull : ∀ c, Reaches Duet.step (⟨⟨exchangeVersions.once, [], []⟩, ⟨exchangeVersions.once, [], []⟩, [], []⟩ :
      Duet (.straight clientSig Int32) userScript (.straight serverSig Int32) indexScript) c →
      c.InFlight (· ≠ []) := fun c hc ↦
    full_of_speaks (fun v ↦ Empty.elim v) (fun v ↦ Empty.elim v) (sized_once hspeaks) (sized_once hspeaks) hc
      ⟨fun _ _ ↦ trivial, fun _ _ ↦ trivial⟩
  have hreach : Reaches Duet.step (⟨⟨exchangeVersions.once, [], []⟩, ⟨exchangeVersions.once, [], []⟩, [], []⟩ :
      Duet (.straight clientSig Int32) userScript (.straight serverSig Int32) indexScript) exchanged :=
    ⟨[.left, .right, .left, .right], rfl⟩
  have hquiet : exchanged.Quiet := ⟨⟨rfl, nofun⟩, rfl, nofun⟩
  exact (encryption_transparent Honest.plain_correct (Honest.plainPair_generated 1)
    (Honest.plainPair_generated 2) chunked_roomy chunked_roomy (fun v ↦ Empty.elim v) (fun v ↦ Empty.elim v)
    (counted_once hcounted) (counted_once hcounted) hfull hreach hquiet).2

end Crypto
end RfcNet
