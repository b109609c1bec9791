import RfcNet.Serving
import RfcNet.Visiting

/-!
# How a session is torn down

A handler that has returned should have set `*is_finished`, so that the cleanup thread of the listener
frees it, and should have closed its socket once; the handler of the server should have removed the
client that it added.  The handler of the server does so unless the versions differ, and the handler of
a peer never does, since it does not close its socket (`tornDown_iff`).
-/

set_option autoImplicit false

namespace RfcNet

open Lib

/-! ## The calls that matter -/

/-- The calls that set a session up, and those that tear it down. -/
def ServerOp.sets : ServerOp → Bool
  | .index (.addClient _ _) => true
  | .index (.eraseHolders _ _) => true
  | .index (.eraseClient _ _) => true
  | .close => true
  | _ => false

/-- These calls in the order in which they are made. -/
def note (ops : List ServerOp) (op : ServerOp) : List ServerOp :=
  if op.sets then ops ++ [op] else ops

theorem foldl_note (ops ops' : List ServerOp) :
    ops.foldl note ops' = ops' ++ ops.filter ServerOp.sets := by
  induction ops generalizing ops' with
  | nil => simp
  | cons op ops ih =>
    rw [List.foldl_cons, ih, note]
    split
    · rename_i hsets
      rw [List.filter_cons_of_pos hsets, List.append_assoc, List.singleton_append]
    · rename_i hsets
      rw [List.filter_cons_of_neg hsets]

/-- **The handler of the server is done with its session.** -/
structure TornDown (ops : List ServerOp) (isFinished : Bool) : Prop where
  /-- The cleanup thread will free the session. -/
  finished : isFinished = true
  /-- The socket was closed once. -/
  closed : ops.count .close = 1
  /-- Each client was removed as often as it was added. -/
  removed : ∀ h p,
    ops.count (.index (.eraseHolders h p)) = ops.count (.index (.addClient h p)) ∧
      ops.count (.index (.eraseClient h p)) = ops.count (.index (.addClient h p))

/-- The calls from a hello to the end. -/
def wholeSession (h : StdString) (p : Int32) : List ServerOp :=
  [.index (.addClient h p), .index (.eraseHolders h p), .index (.eraseClient h p), .close]

/-- At its loop a session has added its client, and at its end it has removed it and closed its socket. -/
def Noted (ops : List ServerOp) : Session ⊕ Bool → Prop
  | .inl s => ops = [.index (.addClient s.host s.uploadPort)]
  | .inr isFinished => isFinished = true ∧ ∃ h p, ops = wholeSession h p

theorem tornDown_of_filter {ops : List ServerOp} {h : StdString} {p : Int32}
    (hops : ops.filter ServerOp.sets = wholeSession h p) : TornDown ops true := by
  have hcount : ∀ op : ServerOp, op.sets = true → ops.count op = (wholeSession h p).count op :=
    fun op hsets ↦ by rw [← hops, List.count_filter hsets]
  refine ⟨rfl, ?_, fun h' p' ↦ ?_⟩
  · rw [hcount _ rfl]
    simp [wholeSession]
  · rw [hcount _ rfl, hcount _ rfl, hcount _ rfl]
    simp [wholeSession, List.count_cons]

/-! ## The handler of the server -/

section
variable {h : StdString} {p : Int32}

/-- The programs whose calls are noted. -/
abbrev Notes {α : Type} (fin : List ServerOp → α → Prop) (ops : List ServerOp)
    (code : Prog serverSig α) : Prop :=
  code.Follows (.ofCalls fun ops op ↦ some (note ops op)) fin ops

/-- Serving a request is not noted. -/
theorem handleMessage_notes (message : Int32) (ops : List ServerOp) :
    Notes (fun ops' _ ↦ ops' = ops) ops (handleMessage h p message) :=
  handleMessage_follows message (fun _ ↦ rfl) rfl (fun _ ↦ rfl) fun _ ↦ rfl

/-- **One round of the loop.** -/
theorem messageLoop_notes (ops : List ServerOp) (s : Session) (hs : Noted ops (.inl s)) :
    Notes Noted ops (messageLoop s) := by
  obtain rfl := hs
  refine follows_recvInt fun message ↦ (handleMessage_notes message _).bind ?_
  rintro ops - rfl
  split
  · rfl
  · refine follows_atIndex rfl fun _ ↦ follows_atIndex rfl fun _ ↦ ⟨_, rfl, fun _ ↦ ?_⟩
    exact ⟨rfl, s.host, s.uploadPort, rfl⟩

theorem receiveHello_notes :
    Notes (fun ops s ↦ Noted ops (.inl s)) [] receiveHello :=
  receiveHello_follows (fun h p ↦ [ServerOp.index (.addClient h p)]) (fun _ _ ↦ rfl) fun _ _ _ ↦ rfl

end

/-- **A run of the server's handler that returns** has read a version.  If it is another one, it has done
nothing and leaves `*is_finished` as it was; if not, it is done with its session. -/
theorem returns_clientHandler {ins : List Frame} {calls : List serverSig.Call} {isFinished : Bool}
    (h : handler.Returns clientHandler ins calls isFinished) : ∃ version rest, ins = version :: rest ∧
      ((unwireInt version ≠ protocolVersion ∧ isFinished = false) ∨
        (unwireInt version = protocolVersion ∧ TornDown (calls.map Sigma.fst) isFinished)) := by
  rw [clientHandler] at h
  cases h with
  | send h =>
    cases h with
    | @recv n version k ins calls out hlen h =>
      refine ⟨version, ins, rfl, ?_⟩
      have hrest : handler.Returns
          (if ntohl (htonl protocolVersion) ≠ unwireInt version then .done (.inr false)
            else receiveHello >>= fun s ↦ .done (.inl s)) ins calls isFinished := h
      rw [ntohl_htonl] at hrest
      by_cases hversion : unwireInt version = protocolVersion
      · rw [if_neg (not_not.mpr hversion.symm)] at hrest
        have hnotes : Notes Noted [] (receiveHello >>= fun s ↦ .done (.inl s)) :=
          receiveHello_notes.bind fun ops s hs ↦ hs
        obtain ⟨rfl, h, p, hops⟩ := hrest.noted messageLoop_notes hnotes
        rw [foldl_note, List.nil_append] at hops
        exact .inr ⟨hversion, tornDown_of_filter hops⟩
      · rw [if_pos (Ne.symm hversion)] at hrest
        cases hrest
        exact .inl ⟨hversion, rfl⟩

/-! ## The handler of a peer -/

/-- A handler of a peer is done with its session. -/
structure PeerTornDown (ops : List PeerOp) (isFinished : Bool) : Prop where
  /-- The cleanup thread will free the session. -/
  finished : isFinished = true
  /-- The socket was closed once. -/
  closed : ops.count .close = 1

/-- How often the socket was closed. -/
def noteClose (n : ℕ) (op : PeerOp) : ℕ := if op = .close then n + 1 else n

theorem foldl_noteClose (ops : List PeerOp) (n : ℕ) :
    ops.foldl noteClose n = n + ops.count .close := by
  induction ops generalizing n with
  | nil => rfl
  | cons op ops ih =>
    rw [List.foldl_cons, ih, noteClose, List.count_cons]
    by_cases hop : op = .close
    · simp [hop]
      omega
    · simp [hop]

/-- A program that does not close the socket. -/
abbrev KeepsOpen {α : Type} (code : Prog peerSig α) : Prop :=
  code.Follows (.ofCalls fun n op ↦ some (noteClose n op)) (fun n _ ↦ n = 0) 0

theorem respond_keepsOpen (content : Option StdString) : KeepsOpen (respond content) := by
  rw [respond]
  refine follows_request rfl fun heap ↦ Prog.follows_ofExcept fun buf _ ↦ ?_
  exact follows_sendInt (follows_sendBuffer rfl)

theorem handlePeerMessage_keepsOpen (message : Int32) : KeepsOpen (handlePeerMessage message) := by
  rw [handlePeerMessage]
  split
  · rw [serveGet]
    refine Prog.follows_recv fun buf ↦ Prog.follows_ofExcept fun msg _ ↦ ?_
    exact follows_request rfl fun content ↦ respond_keepsOpen content
  · rfl

theorem peerLoop_keepsOpen (message : Int32) : KeepsOpen (peerLoop message) := by
  rw [peerLoop]
  refine follows_recvInt fun message ↦ (handlePeerMessage_keepsOpen message).bind ?_
  rintro n - rfl
  split
  · rfl
  · rfl

theorem handlePeer_keepsOpen : KeepsOpen handlePeer := by
  rw [handlePeer, receivePeerHello]
  simp only [Prog.bind_assoc]
  refine follows_recvInt fun hostLen ↦ ?_
  split
  · trivial
  · simp only [Prog.bind_assoc]
    refine Prog.follows_recv fun host ↦ follows_recvInt fun port ↦ ?_
    exact follows_request rfl fun message ↦ rfl

/-- **The handler of a peer does not close its socket.** -/
theorem returns_handlePeer {ins : List Frame} {calls : List peerSig.Call} {isFinished : Bool}
    (h : peerHandler.Returns handlePeer ins calls isFinished) :
    (calls.map Sigma.fst).count .close = 0 := by
  have hbody : ∀ n message, n = 0 → (peerLoop message).Follows
      (.ofCalls fun n op ↦ some (noteClose n op)) (fun n _ ↦ n = 0) n := by
    rintro n message rfl
    exact peerLoop_keepsOpen message
  have hcount := h.noted hbody handlePeer_keepsOpen
  rw [foldl_noteClose] at hcount
  omega

/-! ## Both -/

/-- **A session is torn down** by the handler of the server if and only if the version that it has
received is its own, and never by the handler of a peer. -/
theorem tornDown_iff (ins : List Frame) (isFinished : Bool) :
    (∀ calls, handler.Returns clientHandler ins calls isFinished →
      (TornDown (calls.map Sigma.fst) isFinished ↔
        ins.head?.map unwireInt = some protocolVersion)) ∧
    ∀ calls, peerHandler.Returns handlePeer ins calls isFinished →
      ¬ PeerTornDown (calls.map Sigma.fst) isFinished := by
  refine ⟨fun calls h ↦ ?_, fun calls h hdown ↦ ?_⟩
  · obtain ⟨version, rest, rfl, ⟨hversion, rfl⟩ | ⟨hversion, hdown⟩⟩ := returns_clientHandler h
    · refine ⟨fun hdown ↦ absurd hdown.finished (by simp), fun heq ↦ ?_⟩
      exact absurd (Option.some_inj.mp heq) hversion
    · exact ⟨fun _ ↦ congrArg some hversion, fun _ ↦ hdown⟩
  · have hclosed := hdown.closed
    rw [returns_handlePeer h] at hclosed
    cases hclosed

/-- A session of the server that is told to stop at once. -/
theorem returns_brief (version : Int32) (hversion : version = protocolVersion) :
    handler.Returns clientHandler
      ([wireInt version, wireInt (Int32.ofNat 1), [104], wireInt 5000] ++
        [wireInt P2SMessage.disconnect.toInt])
      ([⟨.index (.addClient [104] 5000), true⟩, ⟨.newBytes sizeofInt, fun _ ↦ 0⟩] ++
        [⟨.index (.eraseHolders [104] 5000), ()⟩, ⟨.index (.eraseClient [104] 5000), ()⟩, ⟨.close, ()⟩])
      true := by
  subst hversion
  have hhello : clientHandler.Runs _ _ _ _ :=
    exec_clientHandler (show ([104] : Frame).length < 2 ^ 31 by decide) 5000 true fun _ ↦ 0
  exact .of_runs hhello (.loop (.of_exec (exec_messageLoop_disconnect _)))

/-- Such a session is torn down. -/
theorem tornDown_brief : TornDown [.index (.addClient [104] 5000), .newBytes sizeofInt,
    .index (.eraseHolders [104] 5000), .index (.eraseClient [104] 5000), .close] true :=
  ((tornDown_iff _ _).1 _ (returns_brief 1 rfl)).mpr (congrArg some (unwireInt_wireInt 1))

/-- A client with another version leaves `*is_finished` and the socket as they were, and a peer that says
goodbye at once leaves the socket open. -/
theorem left_open :
    (handler.Returns clientHandler [wireInt 2] [] false ∧ ¬ TornDown [] false) ∧
    (peerHandler.Returns handlePeer
      ([wireInt (Int32.ofNat 1), [104], wireInt 5000] ++ [wireInt P2PMessage.disconnect.toInt])
      ([⟨.newBytes sizeofInt, fun _ ↦ 0⟩] ++ []) true ∧ ¬ PeerTornDown [.newBytes sizeofInt] true) := by
  refine ⟨⟨?_, fun h ↦ absurd h.finished (by simp)⟩, ?_, fun h ↦ absurd h.closed (by decide)⟩
  · have hruns : clientHandler.Runs [wireInt 2] [] [wireInt protocolVersion]
        (.done (.inr false)) := by
      rw [clientHandler]
      refine runs_sendInt (runs_recvInt ?_)
      rw [ntohl_htonl, if_pos (by decide)]
      exact .refl _
    exact .of_exec hruns
  · have hhello : handlePeer.Runs _ _ _ _ := Prog.Runs.bind
      (exec_receivePeerHello (show ([104] : Frame).length < 2 ^ 31 by decide) 5000 fun _ ↦ 0) _
    have hbye := exec_peerLoop_disconnect (intOfBytes (newBytes (fun _ ↦ 0) sizeofInt))
    exact .of_runs hhello (.loop (.of_exec hbye))

end RfcNet
