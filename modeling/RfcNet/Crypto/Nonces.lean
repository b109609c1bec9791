import RfcNet.Crypto.Honest

/-!
# How often a nonce is used

A connection of two honest ends: the handshake, and then whatever the two applications send and
receive, for as long as they like.  The IV is set by the handshake and never changes, and it is the
same at both ends.  So the connection has one nonce, and two encryptions are enough to use it twice:
the two confirmations of the handshake already are (`noncesUnique_iff`).
-/

set_option autoImplicit false

namespace RfcNet
namespace Crypto

open Lib

/-! ## One end -/

/-- Encryptions and decryptions are allowed with one stream and one header only. -/
def onlyWith (s : Stream) : Unit → CryptoOp → Option Unit
  | (), .encryptAndAuthenticate t header _ =>
    if t = s ∧ header = cipHeader then some () else none
  | (), .decryptAndVerify t header _ _ => if t = s ∧ header = cipHeader then some () else none
  | (), _ => some ()

/-- What is left of the code of a socket keeps to the stream `s`. -/
abbrev KeepsTo (s : Stream) (code : encryptedSocket.Code) : Prop :=
  code.Follows (.ofCalls (onlyWith s)) (fun _ out ↦ out = .inl s) ()

theorem follows_invoke {Φ α : Type} {A : Prog.Automaton cryptoSig Φ} {fin : Φ → α → Prop}
    {ph ph' : Φ} {op : CryptoOp} {g : op.Res → Prog cryptoSig α}
    (hnext : A.onCall ph op = some ph') (hg : ∀ r, (g r).Follows A fin ph') :
    (invoke op >>= g).Follows A fin ph :=
  ⟨ph', hnext, hg⟩

theorem send_keepsTo (s : Stream) (data : Frame) :
    (send s data).Follows (.ofCalls (onlyWith s)) (fun _ _ ↦ True) () := by
  rw [send]
  refine follows_invoke (if_pos ⟨rfl, rfl⟩) fun sealed ↦ ?_
  have hct : (sendBuffer (some sealed.1.1) data.length : Prog cryptoSig Unit).Follows
      (.ofCalls (onlyWith s)) (fun _ _ ↦ True) () := follows_sendBuffer trivial
  exact hct.bind fun _ _ _ ↦ follows_sendBuffer trivial

theorem recv_keepsTo (s : Stream) (len : ℕ) :
    (recv s len).Follows (.ofCalls (onlyWith s)) (fun _ _ ↦ True) () := by
  rw [recv]
  refine follows_invoke rfl fun ok ↦ ?_
  split
  · trivial
  refine Prog.follows_recv fun ct ↦ follows_invoke rfl fun ok ↦ ?_
  split
  · trivial
  exact Prog.follows_recv fun mac ↦ follows_invoke (if_pos ⟨rfl, rfl⟩) fun opened ↦ trivial

/-- **A socket keeps its stream**, whatever the application does. -/
theorem useSocket_keepsTo (s : Stream) : KeepsTo s (useSocket s) := by
  rw [useSocket]
  refine follows_invoke rfl fun use ↦ ?_
  cases use with
  | send data => exact (send_keepsTo s data).bind fun _ _ _ ↦ rfl
  | recv len => exact (recv_keepsTo s len).bind fun _ _ _ ↦ rfl

theorem encryptions_append (log log' : List cryptoSig.Call) :
    encryptions (log ++ log') = encryptions log ++ encryptions log' := List.filterMap_append

section
variable {E : Env cryptoSig} {e e' : Endpoint encryptedSocket E} {s t : Stream}

/-- What is allowed to be called adds no other stream. -/
theorem eq_of_mem_encryptions {op : CryptoOp} {r : op.Res} (h : onlyWith s () op = some ())
    (ht : t ∈ encryptions [⟨op, r⟩]) : t = s := by
  cases op with
  | encryptAndAuthenticate u header pt =>
    obtain rfl : t = u := List.mem_singleton.mp ht
    exact (Option.ite_none_right_eq_some.mp h).1.1
  | _ => exact absurd ht List.not_mem_nil

/-- An end of a connection after its handshake, which has set the stream `s`. -/
structure OnStream (s : Stream) (e : Endpoint encryptedSocket E) : Prop where
  /-- It keeps to this stream. -/
  code : KeepsTo s e.code
  /-- It has encrypted with no other. -/
  log : ∀ t ∈ encryptions e.log, t = s

/-- The end has just come through the handshake. -/
theorem OnStream.of_handshake {env : E.State} {log : List cryptoSig.Call}
    (hlog : encryptions log = [s]) :
    OnStream s (⟨.done (.inl s), env, log⟩ : Endpoint encryptedSocket E) where
  code := show (.inl s : Stream ⊕ Empty) = .inl s from rfl
  log _ ht := List.mem_singleton.mp (hlog ▸ ht)

theorem OnStream.act (h : OnStream s e) {inbox rest out : List Frame}
    (hact : e.act inbox = some (e', rest, out)) : OnStream s e' := by
  rcases Endpoint.follows_of_act (fun _ _ hv ↦ Sum.inl.inj hv ▸ useSocket_keepsTo s) hact h.code with
    ⟨-, hlog, hcode⟩ | ⟨op, k, r, env, ⟨⟩, -, -, hnext, hlog, hcode⟩
  · exact ⟨hcode, hlog ▸ h.log⟩
  · refine ⟨hcode, fun t ht ↦ ?_⟩
    rw [hlog, encryptions_append, List.mem_append] at ht
    exact ht.elim (h.log t) (eq_of_mem_encryptions hnext)

end

/-! ## The connection -/

namespace Connection

/-- Two ends that shake hands and go on as sockets. -/
abbrev Ends (C : Primitives) (a b : KeyPair) (iv : Block ivLen) :=
  Duet encryptedSocket (honestEnv C a iv) encryptedSocket (honestEnv C b iv)

/-- A socket from its handshake on. -/
def connect (genIv : Bool) : encryptedSocket.Code := handshake genIv >>= fun s ↦ .done (.inl s)

/-- The beginning of a connection on which the two applications are going to do as `uses` and `uses'`
say. -/
def start (C : Primitives) (a b : KeyPair) (iv : Block ivLen) (uses uses' : List Use) :
    Ends C a b iv :=
  ⟨⟨connect true, uses, []⟩, ⟨connect false, uses', []⟩, [], []⟩

variable {C : Primitives} {a b : KeyPair} {iv : Block ivLen} {uses uses' : List Use}

/-- The key and the IV of every encryption that either end has made. -/
def nonces (c : Ends C a b iv) : List Stream :=
  encryptions c.left.log ++ encryptions c.right.log

/-- **A connection has one nonce.** -/
theorem exists_nonce (hC : C.Correct) (ha : C.Generates a) (hb : C.Generates b) {es : List Side}
    {c : Ends C a b iv} (hrun : run Duet.step (start C a b iv uses uses') es = some c) :
    ∃ s, ∀ t ∈ nonces c, t = s := by
  obtain ⟨s, calls, calls', hcalls, hcalls', hend⟩ := reaches_handshake (P := encryptedSocket)
    (Q := encryptedSocket) hC ha hb iv iv (fun s ↦ .done (.inl s)) (fun s ↦ .done (.inl s)) uses uses'
  -- The run can be continued to meet one in which the handshake comes first.
  obtain ⟨d, hcd, hd⟩ := Duet.diamond.join ⟨es, hrun⟩ hend
  have hstreams : OnStream s d.left ∧ OnStream s d.right := by
    refine hd.inv (P := fun d ↦ OnStream s d.left ∧ OnStream s d.right) (fun d side d' h hstep ↦ ?_)
      ⟨.of_handshake hcalls, .of_handshake hcalls'⟩
    cases side with
    | left =>
      obtain ⟨e, rest, out, hact, rfl⟩ := Duet.step_left_eq_some.mp hstep
      exact ⟨h.1.act hact, h.2⟩
    | right =>
      obtain ⟨e, rest, out, hact, rfl⟩ := Duet.step_right_eq_some.mp hstep
      exact ⟨h.1, h.2.act hact⟩
  obtain ⟨hleft, hright⟩ := Duet.log_prefix hcd
  refine ⟨s, fun t ht ↦ ?_⟩
  rcases List.mem_append.mp ht with ht | ht
  · exact hstreams.1.log t ((hleft.filterMap _).subset ht)
  · exact hstreams.2.log t ((hright.filterMap _).subset ht)

/-- **Nonces are used once as long as one is used at all**: no two encryptions of a connection are
made with the same key and IV if and only if no two encryptions are made. -/
theorem noncesUnique_iff (hC : C.Correct) (ha : C.Generates a) (hb : C.Generates b)
    {es : List Side} {c : Ends C a b iv}
    (hrun : run Duet.step (start C a b iv uses uses') es = some c) :
    (nonces c).Nodup ↔ (nonces c).length ≤ 1 := by
  obtain ⟨s, hs⟩ := exists_nonce hC ha hb hrun
  rw [List.eq_replicate_of_mem hs, List.nodup_replicate, List.length_replicate]

/-- After the handshake, each of two ends sends a message. -/
def greeting : List Side :=
  Honest.schedule ++ List.replicate 5 .left ++ List.replicate 5 .right

private theorem greeting_end :
    (run Duet.step (start Honest.plain (Honest.plainPair 1) (Honest.plainPair 2)
      ⟨.replicate ivLen 7, rfl⟩ [.send [1, 2]] [.send [5, 9]]) greeting).map
        (fun c ↦ ((nonces c).length, c.toRight.head?, c.toLeft.head?)) =
      some (4, some [2, 1], some [6, 10]) := by
  decide +kernel

theorem noncesUnique_iff_greeting : ∃ c,
    run Duet.step (start Honest.plain (Honest.plainPair 1) (Honest.plainPair 2)
      ⟨.replicate ivLen 7, rfl⟩ [.send [1, 2]] [.send [5, 9]]) greeting = some c ∧
    ((nonces c).Nodup ↔ (nonces c).length ≤ 1) := by
  obtain ⟨c, hc, -⟩ := Option.map_eq_some_iff.mp greeting_end
  exact ⟨c, hc, noncesUnique_iff Honest.plain_correct (Honest.plainPair_generated 1)
    (Honest.plainPair_generated 2) hc⟩

/-- **A nonce that is used four times**, by two confirmations and two messages.  The sum of the two
ciphertexts on the wire is that of the two messages. -/
theorem nonce_reused : ∃ c ct ct',
    run Duet.step (start Honest.plain (Honest.plainPair 1) (Honest.plainPair 2)
      ⟨.replicate ivLen 7, rfl⟩ [.send [1, 2]] [.send [5, 9]]) greeting = some c ∧
    ¬ (nonces c).Nodup ∧ c.toRight.head? = some ct ∧ c.toLeft.head? = some ct' ∧
    List.zipWith (· ^^^ ·) ct ct' = List.zipWith (· ^^^ ·) [1, 2] [5, 9] := by
  obtain ⟨c, hc, hend⟩ := Option.map_eq_some_iff.mp greeting_end
  obtain ⟨hlength, hends⟩ := Prod.mk.inj hend
  obtain ⟨hright, hleft⟩ := Prod.mk.inj hends
  obtain ⟨s, hs⟩ := exists_nonce Honest.plain_correct (Honest.plainPair_generated 1)
    (Honest.plainPair_generated 2) hc
  refine ⟨c, _, _, hc, ?_, hright, hleft, by decide⟩
  rw [List.eq_replicate_of_mem hs, List.nodup_replicate, hlength]
  decide

end Connection

end Crypto
end RfcNet
