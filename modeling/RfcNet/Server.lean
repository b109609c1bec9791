import RfcNet.CentralIndex
import RfcNet.Messages.Lists
import RfcNet.Wire

/-!
# The index server's side of a session

The functions of `server.cpp`, one program each.  What a session calls on is the index, one critical
section at a time, and the allocator: `newBytes n` returns the contents of `n` bytes nobody has
written yet.  The result of `add_client` is ignored by the source.  The array for the host of a hello is on
the stack, which is taken as unbounded here.

`clientHandler_typed` types the handler by the order of its critical sections: first `add_client`,
then any number of additions and queries for the pair that was announced, then the two halves of
`remove_client` for that pair, one after the other.
-/

set_option autoImplicit false

namespace RfcNet

open Lib

/-! ## Calls -/

/-- What a session calls on. -/
inductive ServerOp
  /-- A critical section of the index. -/
  | index (op : IndexOp)
  /-- The allocation of memory, on the heap or on the stack. -/
  | newBytes (n : ℕ)
  /-- `sock->close()`. -/
  | close
  deriving DecidableEq, Repr

/-- What it returns. -/
@[reducible] def ServerOp.Res : ServerOp → Type
  | .index op => op.Res
  | .newBytes _ => ℕ → UInt8
  | .close => Unit

/-- The calls and exceptions of a session. -/
@[reducible] def serverSig : Sig := ⟨ServerOp, ServerOp.Res, Crash⟩

/-- Enter a critical section of the index. -/
def atIndex (op : IndexOp) : Prog serverSig op.Res := .call (S := serverSig) (.index op)

/-- Allocate `n` bytes. -/
def allocate (n : ℕ) : Prog serverSig (ℕ → UInt8) := .call (S := serverSig) (.newBytes n)

/-- The size of a reply and then the reply, as `list_rfcs` and `lookup_rfc` send them. -/
def sendReply (buf : Option Frame) (messageSize : UInt32) : Prog serverSig Unit := do
  let tmp := messageSize.toInt32
  sendInt tmp
  let tmp := ntohl (htonl tmp)
  sendBuffer buf (sizeT tmp)

/-! ## The requests -/

/-- The reply of `add_rfc`. -/
def addReply (added : Bool) : AddRFCResponse := ⟨if !added then 400 else 200⟩

/-- The reply of `list_rfcs`. -/
def listReply (holders : List RFCHolder) : ListRFCResponse :=
  ⟨if holders.length != 0 then 200 else 404, holders⟩

/-- The reply of `lookup_rfc`. -/
def lookupReply (clients : List Client) : LookupRFCResponse :=
  ⟨if clients.length == 0 then 404 else 200, clients⟩

theorem listReply_eq (l : List RFCHolder) : listReply l = ⟨if l = [] then 404 else 200, l⟩ := by
  cases l <;> rfl

theorem lookupReply_eq (l : List Client) : lookupReply l = ⟨if l = [] then 404 else 200, l⟩ := by
  cases l <;> rfl

theorem listReply_isValid {l : List RFCHolder} :
    (listReply l).isValid = true ↔ ∀ r ∈ l, r.peer.Listable := by
  cases l with
  | nil => exact ⟨fun _ _ h ↦ absurd h List.not_mem_nil, fun _ ↦ rfl⟩
  | cons r l => exact ListRFCResponse.isValid_200

theorem lookupReply_isValid {l : List Client} :
    (lookupReply l).isValid = true ↔ ∀ c ∈ l, c.Listable := by
  cases l with
  | nil => exact ⟨fun _ _ h ↦ absurd h List.not_mem_nil, fun _ ↦ rfl⟩
  | cons c l => exact LookupRFCResponse.isValid_200

/-- `add_rfc`. -/
def addRfc (host : StdString) (uploadPort : Int32) : Prog serverSig Unit := do
  let buf ← .recv sizeofInt
  let msg ← .ofExcept .memory (AddRFCMessage.fromBytes {} buf)
  let rfcNum := msg.number
  let added ← atIndex (.addRfc host uploadPort rfcNum)
  let res := addReply added
  let heap ← allocate res.messageSize
  let buf ← .ofExcept .memory (res.toBytes heap)
  sendBuffer buf res.messageSize

/-- `list_rfcs`. -/
def listRfcs : Prog serverSig Unit := do
  let holders ← atIndex .allRfcs
  let res := listReply holders
  let heap ← allocate res.messageSize.toNat
  let buf ← .ofExcept .memory (res.toBytes heap)
  sendReply buf res.messageSize

/-- `lookup_rfc`. -/
def lookupRfc : Prog serverSig Unit := do
  let buf ← .recv sizeofInt
  let msg ← .ofExcept .memory (LookupRFCMessage.fromBytes {} buf)
  let rfcNum := msg.number
  let clients ← atIndex (.findRfcs rfcNum)
  let res := lookupReply clients
  let heap ← allocate res.messageSize.toNat
  let buf ← .ofExcept .memory (res.toBytes heap)
  sendReply buf res.messageSize

/-! ## The handler -/

/-- The variables of the message loop. -/
structure Session where
  /-- The host the client announced. -/
  host : StdString
  /-- The port the client announced. -/
  uploadPort : Int32
  /-- The last command. -/
  message : Int32
  deriving DecidableEq, Repr

/-- The `switch` of `client_handler`. -/
def handleMessage (host : StdString) (uploadPort message : Int32) : Prog serverSig Unit :=
  match P2SMessage.ofInt? message with
  | some .add => addRfc host uploadPort
  | some .list => listRfcs
  | some .lookup => lookupRfc
  | _ => .done ()

/-- What follows the loop of `client_handler`.  The result is what `*is_finished` becomes. -/
def removeClient (host : StdString) (uploadPort : Int32) : Prog serverSig Bool := do
  atIndex (.eraseHolders host uploadPort)
  atIndex (.eraseClient host uploadPort)
  .call (S := serverSig) .close
  return true

/-- One round of the loop of `client_handler`, and what follows the loop if it is the last. -/
def messageLoop (s : Session) : Prog serverSig (Session ⊕ Bool) := do
  let message ← recvInt
  handleMessage s.host s.uploadPort message
  if message ≠ P2SMessage.disconnect.toInt then return .inl { s with message }
  else return .inr (← removeClient s.host s.uploadPort)

/-- `client_handler` as a program with a main loop. -/
@[reducible] def handler : Proc serverSig := ⟨Session, Bool, messageLoop⟩

/-- The host and the port of a hello, and then `add_client`.  However long the host is, there is room for it. -/
def receiveAddress (hostLen : Int32) : Prog serverSig Session := do
  let hostC ← .recv (sizeT hostLen)
  let host := cString hostC
  let uploadPort ← recvInt
  let _ ← atIndex (.addClient host uploadPort)
  let message ← allocate sizeofInt
  return ⟨host, uploadPort, intOfBytes (newBytes message sizeofInt)⟩

/-- The hello of a session.  A negative length ends it: it is converted to a size of `2 ^ 63` or more, and the
encrypted socket's `recv` cannot allocate a block of that size. -/
def receiveHello : Prog serverSig Session := do
  let hostLen ← recvInt
  if hostLen < 0 then .raise .badAlloc
  else receiveAddress hostLen

/-- `client_handler` up to its loop. -/
def clientHandler : handler.Code := do
  sendInt protocolVersion
  let serverVersion := ntohl (htonl protocolVersion)
  let clientVersion ← recvInt
  if serverVersion ≠ clientVersion then return .inr false
  else return .inl (← receiveHello)

/-! ## The order of a session's critical sections -/

/-- How far a session has come. -/
inductive Phase
  /-- It has not registered its client. -/
  | fresh
  /-- It serves the pair it has announced. -/
  | serving (h : StdString) (p : Int32)
  /-- It is between the two halves of `remove_client`. -/
  | removing (h : StdString) (p : Int32)
  /-- It has removed its client. -/
  | gone
  deriving DecidableEq, Repr

/-- The critical sections a session may enter, and the phase they bring it to. -/
def Phase.next : Phase → IndexOp → Option Phase
  | .fresh, .addClient h p => some (.serving h p)
  | .serving h p, .addRfc h' p' _ => if h' = h ∧ p' = p then some (.serving h p) else none
  | .serving h p, .findRfcs _ => some (.serving h p)
  | .serving h p, .allRfcs => some (.serving h p)
  | .serving h p, .eraseHolders h' p' => if h' = h ∧ p' = p then some (.removing h p) else none
  | .removing h p, .eraseClient h' p' => if h' = h ∧ p' = p then some .gone else none
  | _, _ => none

/-- The same as a relation, with a case for each critical section. -/
inductive Phase.Moves : Phase → IndexOp → Phase → Prop
  | addClient (h : StdString) (p : Int32) : Moves .fresh (.addClient h p) (.serving h p)
  | addRfc (h : StdString) (p n : Int32) : Moves (.serving h p) (.addRfc h p n) (.serving h p)
  | findRfcs (h : StdString) (p n : Int32) : Moves (.serving h p) (.findRfcs n) (.serving h p)
  | allRfcs (h : StdString) (p : Int32) : Moves (.serving h p) .allRfcs (.serving h p)
  | eraseHolders (h : StdString) (p : Int32) : Moves (.serving h p) (.eraseHolders h p) (.removing h p)
  | eraseClient (h : StdString) (p : Int32) : Moves (.removing h p) (.eraseClient h p) .gone

/-- **What a session can do**, in which phase, and which phase that brings it to. -/
theorem Phase.moves_of_next {ph ph' : Phase} {op : IndexOp} (h : ph.next op = some ph') :
    ph.Moves op ph' := by
  unfold Phase.next at h
  split at h
  · obtain rfl := Option.some_inj.mp h
    exact .addClient _ _
  · obtain ⟨⟨rfl, rfl⟩, ⟨⟩⟩ := Option.ite_none_right_eq_some.mp h
    exact .addRfc _ _ _
  · obtain rfl := Option.some_inj.mp h
    exact .findRfcs _ _ _
  · obtain rfl := Option.some_inj.mp h
    exact .allRfcs _ _
  · obtain ⟨⟨rfl, rfl⟩, ⟨⟩⟩ := Option.ite_none_right_eq_some.mp h
    exact .eraseHolders _ _
  · obtain ⟨⟨rfl, rfl⟩, ⟨⟩⟩ := Option.ite_none_right_eq_some.mp h
    exact .eraseClient _ _
  · cases h

/-- The same for all calls. -/
def Phase.nextOp (ph : Phase) : ServerOp → Option Phase
  | .index op => ph.next op
  | _ => some ph

/-- The phase is the one the loop is in, if the loop goes on, and the last one otherwise. -/
def Phase.AtLoop (ph : Phase) : Session ⊕ Bool → Prop
  | .inl s => ph = .serving s.host s.uploadPort
  | .inr _ => ph = .fresh ∨ ph = .gone

/-- A session whose remaining code enters critical sections in the order of the phases. -/
abbrev Phase.Typed (ph : Phase) (code : handler.Code) : Prop :=
  code.Follows (.ofCalls Phase.nextOp) Phase.AtLoop ph

section
variable {α Φ : Type} {A : Prog.Automaton serverSig Φ} {fin : Φ → α → Prop} {ph ph' : Φ}

theorem follows_sendReply {fin : Φ → Unit → Prop} {buf : Option Frame} {messageSize : UInt32}
    (hfin : fin ph ()) : (sendReply buf messageSize).Follows A fin ph := by
  rw [sendReply]
  exact follows_sendInt (follows_sendBuffer hfin)

theorem follows_allocate {n : ℕ} {g : (ℕ → UInt8) → Prog serverSig α}
    (hnext : A.onCall ph (.newBytes n) = some ph') (hg : ∀ heap, (g heap).Follows A fin ph') :
    (allocate n >>= g).Follows A fin ph :=
  ⟨ph', hnext, hg⟩

theorem follows_atIndex {op : IndexOp} {g : op.Res → Prog serverSig α}
    (hnext : A.onCall ph (.index op) = some ph') (hg : ∀ r, (g r).Follows A fin ph') :
    (atIndex op >>= g).Follows A fin ph :=
  ⟨ph', hnext, hg⟩

end

section
variable {Φ : Type} {next : Φ → ServerOp → Option Φ} {ph : Φ} {h : StdString} {p : Int32}

/-- **Serving a request** adds for the session's own pair, or asks the index for a list.  What these
calls leave as it is, it leaves as it is. -/
theorem handleMessage_follows (message : Int32)
    (hadd : ∀ n, next ph (.index (.addRfc h p n)) = some ph)
    (hlist : next ph (.index .allRfcs) = some ph)
    (hlookup : ∀ n, next ph (.index (.findRfcs n)) = some ph)
    (hnew : ∀ n, next ph (.newBytes n) = some ph) :
    (handleMessage h p message).Follows (.ofCalls next) (fun ph' _ ↦ ph' = ph) ph := by
  rw [handleMessage]
  split
  · refine Prog.follows_recv fun buf ↦ Prog.follows_ofExcept fun msg _ ↦ ?_
    refine follows_atIndex (hadd _) fun added ↦ follows_allocate (hnew _) fun heap ↦ ?_
    exact Prog.follows_ofExcept fun buf _ ↦ follows_sendBuffer rfl
  · refine follows_atIndex hlist fun holders ↦ follows_allocate (hnew _) fun heap ↦ ?_
    exact Prog.follows_ofExcept fun buf _ ↦ follows_sendReply rfl
  · refine Prog.follows_recv fun buf ↦ Prog.follows_ofExcept fun msg _ ↦ ?_
    refine follows_atIndex (hlookup _) fun clients ↦ follows_allocate (hnew _) fun heap ↦ ?_
    exact Prog.follows_ofExcept fun buf _ ↦ follows_sendReply rfl
  · rfl

/-- **Receiving a hello** registers the client that it announces. -/
theorem receiveHello_follows (after : StdString → Int32 → Φ)
    (hadd : ∀ f p, next ph (.index (.addClient (cString f) p)) = some (after (cString f) p))
    (hnew : ∀ h p n, next (after h p) (.newBytes n) = some (after h p)) :
    receiveHello.Follows (.ofCalls next) (fun ph' s ↦ ph' = after s.host s.uploadPort) ph := by
  rw [receiveHello]
  refine follows_recvInt fun hostLen ↦ ?_
  split
  · trivial
  · rw [receiveAddress]
    refine Prog.follows_recv fun hostC ↦ follows_recvInt fun uploadPort ↦ ?_
    exact follows_atIndex (hadd _ _) fun _ ↦ follows_allocate (hnew _ _ _) fun message ↦ rfl

end

variable {h : StdString} {p : Int32}

/-- Serving a request leaves the phase as it is. -/
theorem handleMessage_typed (message : Int32) :
    (handleMessage h p message).Follows (.ofCalls Phase.nextOp) (fun ph _ ↦ ph = .serving h p)
      (.serving h p) :=
  handleMessage_follows message (fun _ ↦ if_pos ⟨rfl, rfl⟩) rfl (fun _ ↦ rfl) fun _ ↦ rfl

/-- **One round of the loop** serves one request, or removes the client and ends. -/
theorem messageLoop_typed (s : Session) :
    (Phase.serving s.host s.uploadPort).Typed (messageLoop s) := by
  refine follows_recvInt fun message ↦ (handleMessage_typed message).bind ?_
  rintro ph - rfl
  split
  · rfl
  · refine follows_atIndex (if_pos ⟨rfl, rfl⟩) fun _ ↦ ?_
    exact follows_atIndex (if_pos ⟨rfl, rfl⟩) fun _ ↦ ⟨_, rfl, fun _ ↦ .inr rfl⟩

theorem receiveHello_typed :
    receiveHello.Follows (.ofCalls Phase.nextOp) (fun ph s ↦ ph = .serving s.host s.uploadPort)
      .fresh :=
  receiveHello_follows Phase.serving (fun _ _ ↦ rfl) fun _ _ _ ↦ rfl

/-- **The whole handler**, from its start. -/
theorem clientHandler_typed : Phase.fresh.Typed clientHandler := by
  rw [clientHandler]
  refine follows_sendInt (follows_recvInt fun clientVersion ↦ ?_)
  split
  · exact .inl rfl
  · exact receiveHello_typed.bind fun ph s hph ↦ hph

end RfcNet
