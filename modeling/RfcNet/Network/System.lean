import RfcNet.CentralIndex
import RfcNet.Network.Errand
import RfcNet.Network.Stream
import RfcNet.Visit

/-!
# The whole network

Any number of peers and the index server.  Each peer has its directory, runs the client with a session at the index
server, and answers other peers.  When its user gets an RFC, it goes on an `Errand` to another peer: the requester
and the responder are programs of their own, with a connection between them, and both use a directory that others
use as well.

An event lets one program move by one step, so that the frames of all connections, the critical sections of the
index, and the accesses to the directories may come in any order.  An event also says what the user enters, what is
found in new memory, and which peer a connection leads to: nothing is assumed of the last, since anybody can announce
any address.  While a file is being stored there may be any beginning of it in the directory.

A connection does not break, so that a receive waits for what it asks for.  A program that is left by an exception
does not move any more.  In reality its process ends with it, and with `main`, and all of its threads do, so the network
can do more here than it really can.  What never happens here never happens; that something can happen is said of
processes that go on (`Network.Happens`).
-/

set_option autoImplicit false

namespace RfcNet

open Lib RFCManager

/-- A peer before anything has happened. -/
structure Node where
  /-- The address that it announces. -/
  address : StdString
  /-- It was an argument of `main`, and none is that long. -/
  length_lt : address.length < 2 ^ 31
  /-- The port that it announces. -/
  port : Int32
  /-- Its directory. -/
  files : Directory
  /-- What `get_rfcs` says is in it. -/
  rfcs : List Int32
  listed : getRfcs files = .ok rfcs
  /-- Which files it can open for writing. -/
  canOpen : StdString → Bool

/-- A peer gets an RFC from another one. -/
structure Errand (ι : Type) where
  /-- The peer that is asked. -/
  target : ι
  /-- The RFC. -/
  number : Int32
  /-- What is left of `get_from_peer`. -/
  requester : (Proc.straight peerSig Bool).Code
  /-- What is left of the handler. -/
  responder : peerHandler.Code
  /-- Sent by the requester and not yet received. -/
  toResponder : List Frame
  /-- Sent by the responder and not yet received. -/
  toRequester : List Frame

/-- What the client of a peer calls on, apart from its user and its memory. -/
structure Belongings (ι : Type) where
  /-- Its directory. -/
  files : Directory
  /-- The errand that it is on. -/
  errand : Option (Errand ι)
  /-- The errands that it was on before, which the responders need not have noticed. -/
  past : List (Errand ι)

/-- A peer, with its session. -/
structure Member (ι : Type) extends Belongings ι where
  /-- What is left of its client. -/
  client : clientMain.Code
  /-- The calls of the client so far. -/
  clientLog : List clientSig.Call
  /-- What is left of the handler of its session. -/
  session : handler.Code
  /-- The calls of the handler so far. -/
  sessionLog : List serverSig.Call
  /-- Sent by the client and not yet received. -/
  toServer : List Frame
  /-- Sent by the handler and not yet received. -/
  toClient : List Frame

/-- The index and the peers. -/
structure Network (ι : Type) where
  /-- The central index. -/
  index : CentralIndex
  /-- The peers. -/
  member : ι → Member ι

/-! ## What calls return -/

section
variable {ι : Type}

/-- What `get_from_peer` has returned. -/
def Errand.returned (v : Errand ι) : Option Bool :=
  match v.requester with
  | .done (.inr b) => some b
  | _ => none

/-- What the calls of a client return.  Where `get_rfcs` throws, nothing does. -/
@[reducible] def Belongings.env (ι : Type) (memory : ℕ → UInt8) (command : Command) : Env clientSig where
  State := Belongings ι
  answer s
    | .newBytes _ => some (memory, s)
    | .readCommand => some (command, s)
    | .checkIfRfcStored n => (checkIfRfcStored n s.files).toOption.map (·, s)
    | .getFromPeer _ _ => s.errand.bind fun v ↦
        v.returned.map (·, { s with errand := none, past := v :: s.past })
    | .decoded _ _ => some ((), s)
    | .disconnect => some ((), s)

/-- What the calls of a session return. -/
@[reducible] def indexEnv (memory : ℕ → UInt8) : Env serverSig where
  State := CentralIndex
  answer ix
    | .index op => some (op.exec ix)
    | .newBytes _ => some (memory, ix)
    | .close => some ((), ix)

/-- The RFC that a client is about to get. -/
def wanted : clientMain.Code → Option Int32
  | .callThen (.getFromPeer n _) _ => some n
  | _ => none

/-- What a requester is storing. -/
def storing : (Proc.straight peerSig Bool).Code → Option (Int32 × StdString)
  | .callThen (.addRfc n content) _ => some (n, content)
  | _ => none

end

/-! ## Events -/

/-- What can happen to the peer `who`. -/
inductive Happening (ι : Type)
  /-- Its client moves. -/
  | client (who : ι) (memory : ℕ → UInt8) (command : Command)
  /-- The handler of its session moves. -/
  | session (who : ι) (memory : ℕ → UInt8)
  /-- It connects to a peer. -/
  | connect (who target : ι)
  /-- The requester of its errand moves. -/
  | requester (who : ι) (memory : ℕ → UInt8)
  /-- The requester has written `len` bytes of the file that it is storing. -/
  | write (who : ι) (len : ℕ)
  /-- The responder of its errand moves. -/
  | responder (who : ι) (memory : ℕ → UInt8)
  /-- The responder of one of its earlier errands moves. -/
  | straggler (who : ι) (k : ℕ) (memory : ℕ → UInt8)

namespace Network

variable {ι : Type} [DecidableEq ι] (nodes : ι → Node)

/-- Nothing has happened. -/
def init {ι : Type} (nodes : ι → Node) : Network ι where
  index := .empty
  member i :=
    { files := (nodes i).files, errand := none, past := [], toServer := [], toClient := [],
      client := clientStart (nodes i).address (nodes i).port (nodes i).rfcs, clientLog := [],
      session := clientHandler, sessionLog := [] }

/-- The network with another state of the peer `i`. -/
def set (w : Network ι) (i : ι) (m : Member ι) : Network ι := { w with member := Function.update w.member i m }

/-- The responder of an errand moves: the errand after it, and the directory of its target. -/
def respond {ι : Type} (nodes : ι → Node) (w : Network ι) (v : Errand ι) (memory : ℕ → UInt8) :
    Option (Errand ι × Directory) :=
  ((⟨v.responder, ⟨(w.member v.target).files, 0⟩, []⟩ :
    Endpoint peerHandler (peerEnv (nodes v.target).canOpen fun _ ↦ memory)).act v.toResponder).map fun t ↦
      ({ v with responder := t.1.code, toResponder := t.2.1, toRequester := v.toRequester ++ t.2.2 },
        t.1.env.files)

/-- The directory of the peer `j` becomes `d`. -/
def setFiles (w : Network ι) (j : ι) (d : Directory) : Network ι :=
  w.set j { w.member j with files := d }

/-- One event. -/
def step (w : Network ι) : Happening ι → Option (Network ι)
  | .client i memory command =>
    ((⟨(w.member i).client, (w.member i).toBelongings, (w.member i).clientLog⟩ :
      Endpoint clientMain (Belongings.env ι memory command)).act (w.member i).toClient).map fun t ↦
        w.set i { w.member i with
          toBelongings := t.1.env, client := t.1.code, clientLog := t.1.log, toClient := t.2.1,
          toServer := (w.member i).toServer ++ t.2.2 }
  | .session i memory =>
    ((⟨(w.member i).session, w.index, (w.member i).sessionLog⟩ :
      Endpoint handler (indexEnv memory)).act (w.member i).toServer).map fun t ↦
        { w.set i { w.member i with
            session := t.1.code, sessionLog := t.1.log, toServer := t.2.1,
            toClient := (w.member i).toClient ++ t.2.2 } with
          index := t.1.env }
  | .connect i target =>
    match (w.member i).errand with
    | some _ => none
    | none => (wanted (w.member i).client).map fun n ↦
      w.set i { w.member i with
        errand := some ⟨target, n, (getFromPeer (nodes i).address (nodes i).port n).once, handlePeer, [], []⟩ }
  | .requester i memory =>
    (w.member i).errand.bind fun v ↦
      ((⟨v.requester, ⟨(w.member i).files, 0⟩, []⟩ :
        Endpoint (Proc.straight peerSig Bool) (peerEnv (nodes i).canOpen fun _ ↦ memory)).act v.toRequester).map
        fun t ↦ w.set i { w.member i with
          files := t.1.env.files,
          errand := some { v with
            requester := t.1.code, toRequester := t.2.1, toResponder := v.toResponder ++ t.2.2 } }
  | .write i len =>
    (w.member i).errand.bind fun v ↦ (storing v.requester).map fun file ↦ w.set i { w.member i with
      files := (RFCManager.addRfc (nodes i).canOpen (w.member i).files file.1 (file.2.take len)).2 }
  | .responder i memory =>
    (w.member i).errand.bind fun v ↦ (w.respond nodes v memory).map fun t ↦
      (w.set i { w.member i with errand := some t.1 }).setFiles v.target t.2
  | .straggler i k memory =>
    ((w.member i).past[k]?).bind fun v ↦ (w.respond nodes v memory).map fun t ↦
      (w.set i { w.member i with past := (w.member i).past.set k t.1 }).setFiles v.target t.2

/-! ## Processes -/

/-- No thread in which the peer `k` answers others has been left by an exception, but perhaps that of the errand
`v`. -/
def Answering {ι : Type} (w : Network ι) (k : ι) (v : Option (Errand ι)) : Prop :=
  ∀ j u, ((w.member j).errand = some u ∨ u ∈ (w.member j).past) → u.target = k → some u ≠ v →
    ∀ err, u.responder ≠ .raise err

/-- `main` of the peer `k` goes on: it has not returned, nor has an exception left it, or the requester that it
calls. -/
structure MainRuns {ι : Type} (w : Network ι) (k : ι) : Prop where
  returned : ∀ a, (w.member k).client ≠ .done (.inr a)
  client : ∀ err, (w.member k).client ≠ .raise err
  requester : ∀ v, (w.member k).errand = some v → ∀ err, v.requester ≠ .raise err

/-- The process of the peer `k` goes on. -/
def Runs {ι : Type} (w : Network ι) (k : ι) : Prop := w.MainRuns k ∧ w.Answering k none

/-- The process of the server goes on: no session has been left by an exception, but perhaps that of the peer `i`. -/
def ServerRuns {ι : Type} (w : Network ι) (i : Option ι) : Prop :=
  ∀ j, some j ≠ i → ∀ err, (w.member j).session ≠ .raise err

/-- The process of the program that moves goes on. -/
def Alive {ι : Type} (w : Network ι) : Happening ι → Prop
  | .client i _ _ | .connect i _ | .requester i _ | .write i _ => w.Runs i
  | .session _ _ => w.ServerRuns none
  | .responder i _ => ∀ v, (w.member i).errand = some v → w.Runs v.target
  | .straggler i k _ => ∀ v, (w.member i).past[k]? = some v → w.Runs v.target

/-- The event can happen. -/
def Happens (w : Network ι) (e : Happening ι) : Prop := w.Alive e ∧ w.step nodes e ≠ none

end Network

end RfcNet
