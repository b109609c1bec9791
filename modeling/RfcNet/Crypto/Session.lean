import RfcNet.Crypto.Stack

/-!
# A session over encrypted sockets

`settles_start` says how a client and its session end when they exchange their frames in order.  In reality the
connection to the index server is encrypted, and its bytes arrive in pieces.  By `encryption_transparent` it ends no
differently (`session_secured`): whatever the client has decoded is what the index answered.

The other sessions, and the user, are in the scripts of the two sides.
-/

set_option autoImplicit false

namespace RfcNet
namespace Crypto

open Lib

/-- A client on the left, and the handler of its session on the right, on encrypted sockets. -/
abbrev EncryptedSession (C : Primitives) (a b : KeyPair) (iv iv' : Block ivLen) (heap : Side → Heap) :=
  SecureSockets C a b iv iv' (heap .left) (heap .right) clientMain userScript handler indexScript

/-- They have just been connected, and have not exchanged a frame. -/
def connected (address : StdString) (port : Int32) (rfcs : List Int32) (sc : List clientSig.Call)
    (ss : List serverSig.Call) : Scripted :=
  ⟨⟨clientStart address port rfcs, sc, []⟩, ⟨clientHandler, ss, []⟩, [], []⟩

/-- They have just been connected, and have not exchanged a byte. -/
def encryptedSession (C : Primitives) (a b : KeyPair) (iv iv' : Block ivLen) (heap : Side → Heap)
    (address : StdString) (port : Int32) (rfcs : List Int32) (sc : List clientSig.Call)
    (ss : List serverSig.Call) : EncryptedSession C a b iv iv' heap :=
  SecureSockets.start C a b iv iv' (heap .left) (heap .right) (clientStart address port rfcs) sc clientHandler ss

variable {C : Primitives} {a b : KeyPair} {iv iv' : Block ivLen} {heap : Side → Heap}
  {address : StdString} {port : Int32} {rfcs : List Int32} {sc : List clientSig.Call} {ss : List serverSig.Call}
  {x : Int32} {y : Bool}

/-- The session is over: the client has returned `x`, and the handler `y`. -/
structure Concluded (address : StdString) (port x : Int32) (y : Bool)
    (u : EncryptedSession C a b iv iv' heap) : Prop where
  /-- Both have returned. -/
  returned : u.left.point.result = some x ∧ u.right.point.result = some y
  /-- No byte is on its way. -/
  received : u.toLeft = [] ∧ u.toRight = []
  /-- Every request was answered, and every answer decoded. -/
  replies : answered (Sig.upper u.left.point.log) = served (Sig.upper u.right.point.log)
  /-- No other pair was registered. -/
  announces : ∀ c ∈ Sig.upper u.right.point.log, Announces address port c

theorem code_of_result {S : Sig} {P : Proc S} {E : Env S} {e : Endpoint P E} {z : P.Out}
    (h : e.result = some z) : e.code = .done (.inr z) := by
  unfold Endpoint.result at h
  split at h
  · obtain rfl := Option.some_inj.mp h
    assumption
  · cases h

/-- Two sides that have both returned are where every session of theirs ends. -/
theorem concludes_of_returned (hself : Client.Sound ⟨address, port⟩) (haddress : address.length < 2 ^ 31)
    (hrfcs : ∀ n ∈ rfcs, 0 < n) (hss : ∀ c ∈ ss, Servable c) {d : Scripted}
    (hreach : Reaches Duet.step (connected address port rfcs sc ss) d) (hx : d.left.result = some x)
    (hy : d.right.result = some y) : Concludes address port d ∧ d.Quiet := by
  have hleft := code_of_result hx
  have hright := code_of_result hy
  have hstuck : Stuck Duet.step d :=
    Duet.stuck_of_act (Endpoint.act_eq_none_of_returned hleft _) (Endpoint.act_eq_none_of_returned hright _)
  obtain ⟨d', hd', hend⟩ := settles_start hself haddress hrfcs sc hss
  obtain rfl : d = d' := (Duet.diamond.endsIn hd' hend.atRest.stuck).eq_of_stuck hreach hstuck
  refine ⟨hend, ⟨hend.atRest.1, fun n p hcode ↦ ?_⟩, hend.atRest.2, fun n p hcode ↦ ?_⟩
  · rw [hleft] at hcode
    cases hcode
  · rw [hright] at hcode
    cases hcode

theorem small_of_indexDefault {op : serverSig.Op} {r : serverSig.Res op} (h : indexDefault op = some r) :
    Small ⟨op, r⟩ := by
  match op with
  | .index (.addClient _ _) => trivial
  | .index (.eraseHolders _ _) => trivial
  | .index (.eraseClient _ _) => trivial
  | .index (.addRfc _ _ _) => trivial
  | .index (.findRfcs _) => exact absurd h (by simp [indexDefault])
  | .index .allRfcs => exact absurd h (by simp [indexDefault])
  | .newBytes _ => trivial
  | .close => trivial

/-- What the script says that can be sent, the handler has been answered. -/
theorem small_of_reaches (hss : ∀ c ∈ ss, Small c) {d : Scripted}
    (hreach : Reaches Duet.step (connected address port rfcs sc ss) d) : ∀ c ∈ d.right.log, Small c := by
  refine (hreach.inv (P := fun d : Scripted ↦ (∀ c ∈ d.right.script, Small c) ∧ ∀ c ∈ d.right.log, Small c) ?_
    ⟨hss, List.forall_mem_nil _⟩).2
  rintro d side d' ⟨hscript, hlog⟩ hstep
  cases side with
  | left =>
    obtain ⟨e, rest, out, -, rfl⟩ := Duet.step_left_eq_some.mp hstep
    exact ⟨hscript, hlog⟩
  | right =>
    obtain ⟨e, rest, out, hact, rfl⟩ := Duet.step_right_eq_some.mp hstep
    exact Endpoint.log_of_script (fun _ _ ↦ small_of_indexDefault) hscript hlog hact

/-- **No message of a session is empty.** -/
theorem session_full (hself : Client.Sound ⟨address, port⟩) (haddress : address.length < 2 ^ 31)
    (hss : ∀ c ∈ ss, Small c) {d : Scripted} (hreach : Reaches Duet.step (connected address port rfcs sc ss) d) :
    d.InFlight (· ≠ []) := by
  have hclient : ∀ v, Speaks (fun _ ↦ True) (clientMain.body v) := speaks_commandLoop
  have hstart : Speaks (fun _ ↦ True) (clientStart address port rfcs) :=
    speaks_clientStart hself.host_ne haddress port rfcs
  exact full_of_speaks hclient speaks_messageLoop hstart speaks_clientHandler hreach
    ⟨fun _ _ ↦ trivial, small_of_reaches hss hreach⟩

/-- **A session over encrypted sockets**, on heaps that have room for every MAC: if it would come to its end with
frames, for what the user does and what the index answers, then it comes to that end on encrypted sockets, whatever
the pieces are and in which order the two sides move.  There are only so many moves, no program is left by an
exception, and until then the client has decoded nothing but what the index answers. -/
theorem session_secured (hC : C.Correct) (ha : C.Generates a) (hb : C.Generates b) (iv iv' : Block ivLen)
    (heap : Side → Heap) (hheap : ∀ side, (heap side).Roomy) (hself : Client.Sound ⟨address, port⟩)
    (haddress : address.length < 2 ^ 31) (hrfcs : ∀ n ∈ rfcs, 0 < n) (hss : ∀ c ∈ ss, Servable c) {d : Scripted}
    (hreach : Reaches Duet.step (connected address port rfcs sc ss) d) (hx : d.left.result = some x)
    (hy : d.right.result = some y) :
    ∃ bound, ∀ es u, run (Sockets.step clientFunctions serverFunctions)
        (encryptedSession C a b iv iv' heap address port rfcs sc ss) es = some u →
      es.length ≤ bound ∧ ((∀ e, u.left.point.code ≠ .raise e) ∧ ∀ e, u.right.point.code ≠ .raise e) ∧
      answered (Sig.upper u.left.point.log) <+: served d.right.log ∧
      (Stuck (Sockets.step clientFunctions serverFunctions) u → Concluded address port x y u) := by
  obtain ⟨hend, hquiet⟩ := concludes_of_returned hself haddress hrfcs hss hreach hx hy
  have hloop : ∀ v, Counted (clientMain.body v) := counted_commandLoop
  have hhandler : ∀ s, Counted (handler.body s) := counted_messageLoop
  have hfull : ∀ c, Reaches Duet.step (connected address port rfcs sc ss) c → c.InFlight (· ≠ []) :=
    fun _ ↦ session_full hself haddress fun c hc ↦ (hss c hc).2
  have hcomes : SecureSockets.ComesTo (encryptedSession C a b iv iv' heap address port rfcs sc ss) d :=
    (encryption_transparent hC ha hb (hheap .left) (hheap .right) hloop hhandler
      (counted_clientStart address port rfcs) counted_clientHandler hfull hreach hquiet).2
  obtain ⟨bound, hbound⟩ := hcomes
  refine ⟨bound, fun es u hrun ↦ ?_⟩
  obtain ⟨hlen, ⟨hleft, hright⟩, hover⟩ := hbound es u hrun
  refine ⟨hlen, ⟨hleft.noException, hright.noException⟩, ?_, fun hst ↦ ?_⟩
  · rw [← hend.agreed.replies]
    exact hleft.calls.filterMap _
  · obtain ⟨hfinished, hfinished', s, htoRight, htoLeft⟩ := hover hst
    have hempty := hend.atRest
    refine ⟨⟨hfinished.result.trans hx, hfinished'.result.trans hy⟩, ⟨?_, ?_⟩, ?_, ?_⟩
    · have hinbox := hempty.1
      rw [Endpoint.AtRest, code_of_result hx] at hinbox
      rw [htoLeft, show d.toLeft = [] from hinbox]
      rfl
    · have hinbox := hempty.2
      rw [Endpoint.AtRest, code_of_result hy] at hinbox
      rw [htoRight, show d.toRight = [] from hinbox]
      rfl
    · rw [hfinished.calls, hfinished'.calls]
      exact hend.agreed.replies
    · rw [hfinished'.calls]
      exact hend.agreed.announces

/-- The user asks for the list and then quits. -/
def asksForList : List clientSig.Call := [⟨.readCommand, .list⟩]

/-- The index takes RFC 5, and lists it with the RFC 7 of another client. -/
def listsBoth : List serverSig.Call :=
  [⟨.index (.addRfc [104] 1 5), true⟩, ⟨.index .allRfcs, [⟨5, ⟨[104], 1⟩⟩, ⟨7, ⟨[105], 2⟩⟩]⟩]

theorem servable_listsBoth : ∀ c ∈ listsBoth, Servable c := by
  have hsound : ∀ r ∈ ([⟨5, ⟨[104], 1⟩⟩, ⟨7, ⟨[105], 2⟩⟩] : List RFCHolder), r.peer.Sound := by decide
  exact List.forall_mem_cons.mpr ⟨⟨trivial, by decide⟩, List.forall_mem_singleton.mpr ⟨hsound, by decide⟩⟩

/-- An order in which the two sides can exchange their frames. -/
def frameByFrame : List Side :=
  let client (n : ℕ) := List.replicate n Side.left
  let session (n : ℕ) := List.replicate n Side.right
  client 1 ++ session 1 ++ client 7 ++ session 12 ++ client 5 ++ session 5 ++ client 1 ++ session 1 ++ client 6 ++
    session 5

private theorem frameByFrame_end : (run Duet.step (connected [104] 1 [5] asksForList listsBoth) frameByFrame).map
      (fun d ↦ (d.left.result, d.right.result, answered d.left.log)) =
    some (some 0, some true, [(.add 5, .added ⟨200⟩),
      (.list, .listed ⟨200, [⟨5, ⟨[104], 1⟩⟩, ⟨7, ⟨[105], 2⟩⟩]⟩)]) := by
  decide +kernel

/-- The list is fetched over sockets that are encrypted with primitives that hide nothing. -/
theorem session_secured_listing : ∃ d, Reaches Duet.step (connected [104] 1 [5] asksForList listsBoth) d ∧
    answered d.left.log = [(.add 5, .added ⟨200⟩),
      (.list, .listed ⟨200, [⟨5, ⟨[104], 1⟩⟩, ⟨7, ⟨[105], 2⟩⟩]⟩)] ∧
    ∃ bound, ∀ es (u : EncryptedSession Honest.plain (Honest.plainPair 1) (Honest.plainPair 2)
        ⟨.replicate ivLen 7, rfl⟩ ⟨.replicate ivLen 7, rfl⟩ fun _ ↦ chunked),
      run (Sockets.step clientFunctions serverFunctions) (encryptedSession Honest.plain (Honest.plainPair 1)
        (Honest.plainPair 2) ⟨.replicate ivLen 7, rfl⟩ ⟨.replicate ivLen 7, rfl⟩ (fun _ ↦ chunked) [104] 1 [5]
        asksForList listsBoth) es = some u →
      es.length ≤ bound ∧ ((∀ e, u.left.point.code ≠ .raise e) ∧ ∀ e, u.right.point.code ≠ .raise e) ∧
      answered (Sig.upper u.left.point.log) <+: served d.right.log ∧
      (Stuck (Sockets.step clientFunctions serverFunctions) u → Concluded [104] 1 0 true u) := by
  obtain ⟨d, hd, heq⟩ := Option.map_eq_some_iff.mp frameByFrame_end
  obtain ⟨hx, heq⟩ := Prod.mk.inj heq
  obtain ⟨hy, hanswered⟩ := Prod.mk.inj heq
  exact ⟨d, ⟨_, hd⟩, hanswered, session_secured Honest.plain_correct (Honest.plainPair_generated 1)
    (Honest.plainPair_generated 2) ⟨.replicate ivLen 7, rfl⟩ ⟨.replicate ivLen 7, rfl⟩ (fun _ ↦ chunked)
    (fun _ ↦ chunked_roomy) (by decide) (by decide) (List.forall_mem_singleton.mpr (by decide)) servable_listsBoth
    ⟨_, hd⟩ hx hy⟩

end Crypto
end RfcNet
