import RfcNet.Lib.Runs
import RfcNet.Serving

/-!
# A client that goes away

A `Line` is one session whose client has sent some frames in full and then closed its end.  As long
as there is a frame of the length it asks for, the session receives it.  After that every receive
fails and leaves in its buffer what was there, or anything else; the handler looks at the buffer all
the same.

What the handler should do then is `NoPhantom`: register nothing that was not asked for, serve no
request once a receive has failed, and remove the client.  What it does is go on: the last command,
swapped once more, is taken for the next one, and after two rounds it is the last command again.  So
it does as it should only where no receive fails at all, because the client has sent everything it
will be asked for before it closed (`noPhantom_of_concluded`).
-/

set_option autoImplicit false

namespace RfcNet

open Lib

/-! ## What a client has asked for -/

/-- The requests that were sent in full, up to the one that ends the session. -/
def requests : List Frame → List Request
  | [] => []
  | f :: rest =>
    if f.length = sizeofInt then
      match P2SMessage.ofInt? (unwireInt f) with
      | some .add =>
        match rest with
        | [] => []
        | g :: rest => if g.length = sizeofInt then .add (unwireInt g) :: requests rest else []
      | some .list => .list :: requests rest
      | some .lookup =>
        match rest with
        | [] => []
        | g :: rest => if g.length = sizeofInt then .lookup (unwireInt g) :: requests rest else []
      | some .disconnect => [.disconnect]
      | _ => .other :: requests rest
    else []

/-- The number of an ADD. -/
def Request.added : Request → Option Int32
  | .add number => some number
  | _ => none

/-- The frames that come before the first request: the version, the length of the host, the host,
the port. -/
def helloLength : ℕ := 4

/-- The numbers that the client has asked to add, in full, in this order. -/
def additions (frames : List Frame) : List Int32 := (requests frames).filterMap Request.added

/-- After the version, the client has sent all that the handler asks for: a host of negative length,
or a hello and requests up to one that ends the session. -/
def HelloConcluded : List Frame → Prop
  | [] => False
  | hostLen :: rest => hostLen.length = sizeofInt ∧ (unwireInt hostLen < 0 ∨ match rest with
    | host :: port :: rest => host.length = sizeT (unwireInt hostLen) ∧
      port.length = sizeofInt ∧ .disconnect ∈ requests rest
    | _ => False)

/-- **What the client has sent is all that the handler asks for**: a version that ends the session,
or else what comes after it. -/
def Concluded : List Frame → Prop
  | [] => False
  | version :: rest => version.length = sizeofInt ∧
    (unwireInt version ≠ protocolVersion ∨ HelloConcluded rest)

/-! ## The session -/

/-- What a session does that shows: a call, or a receive that failed. -/
inductive Act
  | call (c : serverSig.Call)
  | failed

/-- The number of a call of `add_rfc`. -/
def Act.added : Act → Option Int32
  | .call ⟨.index (.addRfc _ _ n), _⟩ => some n
  | _ => none

/-- A session whose client has gone. -/
structure Line where
  /-- What is left of the handler. -/
  code : handler.Code
  /-- What the client has sent and the handler has not received. -/
  inbox : List Frame
  /-- What the handler has done so far. -/
  trace : List Act

/-- What a move of the session depends on. -/
structure Turn where
  /-- What a receive that fails leaves in its buffer. -/
  left : Frame
  /-- What a call returns. -/
  answer : (op : ServerOp) → op.Res

namespace Line

/-- The session before its first move. -/
def start (sent : List Frame) : Line := ⟨clientHandler, sent, []⟩

/-- A receive that fails.  Nothing can be received after it. -/
def fail (l : Line) (n : ℕ) (k : Frame → handler.Code) (t : Turn) : Option Line :=
  if t.left.length = n then some ⟨k t.left, [], l.trace ++ [.failed]⟩ else none

/-- One move. -/
def step (l : Line) (t : Turn) : Option Line :=
  match l.code with
  | .done (.inl s) => some { l with code := messageLoop s }
  | .done (.inr _) => none
  | .raise _ => none
  | .sendThen _ k => some { l with code := k }
  | .recvThen n k =>
    match l.inbox.head? with
    | some f =>
      if f.length = n then some { l with code := k f, inbox := l.inbox.tail } else l.fail n k t
    | none => l.fail n k t
  | .callThen op k =>
    some { l with code := k (t.answer op), trace := l.trace ++ [.call ⟨op, t.answer op⟩] }

/-- The numbers of the calls of `add_rfc`. -/
def added (l : Line) : List Int32 := l.trace.filterMap Act.added

/-- The session has called the index on behalf of a request. -/
def Serves : ServerOp → Prop
  | .index (.addRfc _ _ _) | .index .allRfcs | .index (.findRfcs _) => True
  | _ => False

/-- A client that the session has added to the index, it has removed. -/
def Removed (l : Line) : Prop :=
  ∀ h p r, .call ⟨.index (.addClient h p), r⟩ ∈ l.trace →
    .call ⟨.index (.eraseHolders h p), ()⟩ ∈ l.trace ∧
    .call ⟨.index (.eraseClient h p), ()⟩ ∈ l.trace

/-- **No phantom commands.** -/
structure NoPhantom (sent : List Frame) (l : Line) : Prop where
  /-- The calls of `add_rfc` are those that the client has asked for in full, in order. -/
  added_prefix : l.added <+: additions (sent.drop helloLength)
  /-- After a receive has failed no request is served. -/
  quiet : ∀ before after c, l.trace = before ++ .failed :: after → .call c ∈ after → ¬ Serves c.1
  /-- After a receive has failed the session comes to an end, and has then removed its client. -/
  leaves : .failed ∈ l.trace → ∃ bound, ∀ ts l', run step l ts = some l' →
    ts.length ≤ bound ∧ (Stuck step l' → l'.Removed)

end Line

/-! ## Sessions that are fed -/

/-- The additions still owed after a call: all but the first, if it is the first. -/
def owed (ns : List Int32) : ServerOp → Option (List Int32)
  | .index (.addRfc _ _ n) => if ns.head? = some n then some ns.tail else none
  | _ => some ns

/-- A session at its loop has all that it will ask for before it, and owes the additions that are
in it. -/
def Provided (s : List Frame × List Int32) : Session ⊕ Bool → Prop
  | .inl _ => .disconnect ∈ requests s.1 ∧ s.2 = additions s.1
  | .inr _ => True

/-- A session that will not have to wait, and will make the additions it owes. -/
abbrev Sated (inbox : List Frame) (ns : List Int32) (code : handler.Code) : Prop :=
  code.Follows (.ofInbox owed) Provided (inbox, ns)

section
variable {h : StdString} {p : Int32} {f g : Frame} {inbox : List Frame}

theorem requests_nil : requests [] = [] := rfl

theorem requests_of_length_ne (hlen : f.length ≠ sizeofInt) : requests (f :: inbox) = [] := by
  rw [requests.eq_def]
  exact if_neg hlen

/-- The requests after a command with no number. -/
theorem requests_of_length (hlen : f.length = sizeofInt) : requests (f :: inbox) =
    match P2SMessage.ofInt? (unwireInt f) with
    | some .add =>
      match inbox with
      | [] => []
      | g :: rest => if g.length = sizeofInt then .add (unwireInt g) :: requests rest else []
    | some .list => .list :: requests inbox
    | some .lookup =>
      match inbox with
      | [] => []
      | g :: rest => if g.length = sizeofInt then .lookup (unwireInt g) :: requests rest else []
    | some .disconnect => [.disconnect]
    | _ => .other :: requests inbox := by
  rw [requests.eq_def]
  exact if_pos hlen

theorem fromBytes_add (hlen : g.length = sizeofInt) :
    AddRFCMessage.fromBytes {} g = .ok ⟨unwireInt g⟩ := by
  rw [AddRFCMessage.fromBytes, decodeInt_of_length hlen]
  rfl

theorem fromBytes_lookup (hlen : g.length = sizeofInt) :
    LookupRFCMessage.fromBytes {} g = .ok ⟨unwireInt g⟩ := by
  rw [LookupRFCMessage.fromBytes, decodeInt_of_length hlen]
  rfl

/-- An addition that is owed. -/
theorem onCall_addRfc {n : Int32} {ns : List Int32} :
    (Prog.Automaton.ofInbox (S := serverSig) owed).onCall (inbox, n :: ns)
      (.index (.addRfc h p n)) = some (inbox, ns) := by
  simp [Prog.Automaton.ofInbox, owed]

/-- Serving a request that was sent in full, with those that end the session after it. -/
theorem handleMessage_sated (hlen : f.length = sizeofInt)
    (hreq : .disconnect ∈ requests (f :: inbox)) :
    (handleMessage h p (unwireInt f)).Follows (.ofInbox owed)
      (fun s _ ↦ unwireInt f = P2SMessage.disconnect.toInt ∨
        (.disconnect ∈ requests s.1 ∧ s.2 = additions s.1))
      (inbox, additions (f :: inbox)) := by
  rw [additions]
  rw [requests_of_length hlen] at hreq ⊢
  rw [handleMessage]
  cases hm : P2SMessage.ofInt? (unwireInt f) with
  | none => exact .inr ⟨by simpa [hm] using hreq, rfl⟩
  | some m =>
    rw [hm] at hreq
    cases m with
    | hello => exact .inr ⟨by simpa using hreq, rfl⟩
    | add =>
      cases inbox with
      | nil => simp at hreq
      | cons g rest =>
        simp only at hreq ⊢
        split at hreq
        · rename_i hg
          rw [if_pos hg]
          refine Prog.follows_recv_cons hg ?_
          rw [fromBytes_add hg]
          refine follows_atIndex onCall_addRfc fun added ↦ follows_allocate rfl fun heap ↦ ?_
          refine Prog.follows_ofExcept fun buf _ ↦ follows_sendBuffer (.inr ⟨?_, rfl⟩)
          simpa using hreq
        · simp at hreq
    | list =>
      refine follows_atIndex rfl fun holders ↦ follows_allocate rfl fun heap ↦ ?_
      refine Prog.follows_ofExcept fun buf _ ↦ follows_sendReply (.inr ⟨?_, rfl⟩)
      simpa using hreq
    | lookup =>
      cases inbox with
      | nil => simp at hreq
      | cons g rest =>
        simp only at hreq ⊢
        split at hreq
        · rename_i hg
          rw [if_pos hg]
          refine Prog.follows_recv_cons hg ?_
          rw [fromBytes_lookup hg]
          refine follows_atIndex rfl fun clients ↦ follows_allocate rfl fun heap ↦ ?_
          refine Prog.follows_ofExcept fun buf _ ↦ follows_sendReply (.inr ⟨?_, rfl⟩)
          simpa using hreq
        · simp at hreq
    | disconnect => exact .inl (P2SMessage.eq_toInt hm)

/-- **A session that has the end of its requests before it will not have to wait.** -/
theorem messageLoop_sated (s : Session) (hreq : .disconnect ∈ requests inbox) :
    Sated inbox (additions inbox) (messageLoop s) := by
  cases inbox with
  | nil => simp [requests_nil] at hreq
  | cons f rest =>
    by_cases hlen : f.length = sizeofInt
    · refine follows_recvInt_cons hlen ((handleMessage_sated hlen hreq).bind ?_)
      rintro ⟨inbox, ns⟩ - hfin
      split
      · rename_i hmessage
        exact hfin.resolve_left hmessage
      · exact follows_atIndex rfl fun _ ↦ follows_atIndex rfl fun _ ↦ ⟨_, rfl, fun _ ↦ trivial⟩
    · rw [requests_of_length_ne hlen] at hreq
      simp at hreq

theorem receiveHello_sated (hhello : HelloConcluded inbox) :
    receiveHello.Follows (.ofInbox owed) (fun s _ ↦ .disconnect ∈ requests s.1 ∧ s.2 = additions s.1)
      (inbox, additions (inbox.drop 3)) := by
  rw [receiveHello]
  cases inbox with
  | nil => exact hhello.elim
  | cons hostLen rest =>
    obtain ⟨hlen, hhello⟩ := hhello
    refine follows_recvInt_cons hlen ?_
    rcases hhello with hneg | hhello
    · rw [if_pos hneg]
      trivial
    split
    · trivial
    rw [receiveAddress]
    obtain _ | ⟨host, _ | ⟨port, rest⟩⟩ := rest
    · exact hhello.elim
    · exact hhello.elim
    · obtain ⟨hhost, hport, hreq⟩ := hhello
      refine Prog.follows_recv_cons hhost (follows_recvInt_cons hport ?_)
      exact follows_atIndex rfl fun _ ↦ follows_allocate rfl fun memory ↦ ⟨hreq, rfl⟩

/-- The same from the start, for all that a client needs to have sent. -/
theorem clientHandler_sated {sent : List Frame} (hsent : Concluded sent) :
    Sated sent (additions (sent.drop helloLength)) clientHandler := by
  rw [clientHandler]
  cases sent with
  | nil => exact hsent.elim
  | cons version rest =>
    obtain ⟨hversion, hsent⟩ := hsent
    refine follows_sendInt (follows_recvInt_cons hversion ?_)
    rw [ntohl_htonl]
    rcases hsent with hother | hhello
    · rw [if_pos (Ne.symm hother)]
      trivial
    split
    · trivial
    · exact (receiveHello_sated hhello).bind fun _ _ hfin ↦ hfin

end

/-- A call that is allowed pays off what it adds. -/
theorem owed_eq_some {ns ns' : List Int32} {op : ServerOp} (h : owed ns op = some ns')
    (r : op.Res) : (Act.added (.call ⟨op, r⟩)).toList ++ ns' = ns := by
  match op with
  | .index (.addRfc _ _ n) =>
    rw [owed] at h
    split at h
    · rename_i hhead
      obtain rfl := Option.some_inj.mp h
      exact List.cons_head?_tail hhead
    · exact absurd h (by simp)
  | .index (.addClient _ _) | .index (.eraseHolders _ _) | .index (.eraseClient _ _)
  | .index (.findRfcs _) | .index .allRfcs | .newBytes _ | .close =>
    exact (Option.some_inj.mp h).symm

namespace Line

/-- What holds throughout a session that never has to wait: no receive has failed, and the additions
it has made and those it owes are what the client has asked for. -/
def Fed (sent : List Frame) (l : Line) : Prop :=
  .failed ∉ l.trace ∧ ∃ ns, l.added ++ ns = additions (sent.drop helloLength) ∧
    Sated l.inbox ns l.code

theorem filterMap_added_append (trace : List Act) (a : Act) :
    (trace ++ [a]).filterMap Act.added = trace.filterMap Act.added ++ a.added.toList := by
  rw [List.filterMap_append, List.filterMap_cons]
  cases a.added with
  | none => rfl
  | some n => rfl

theorem Fed.step {sent : List Frame} {l l' : Line} {t : Turn} (hl : l.Fed sent)
    (hstep : l.step t = some l') : l'.Fed sent := by
  obtain ⟨hfailed, ns, hns, hsated⟩ := hl
  obtain ⟨code, inbox, trace⟩ := l
  dsimp only at hfailed hns hsated
  match code with
  | .done (.inl s) =>
    obtain rfl := Option.some_inj.mp hstep
    obtain ⟨hreq, hadd⟩ := hsated
    dsimp only at hreq hadd
    subst hadd
    exact ⟨hfailed, _, hns, messageLoop_sated s hreq⟩
  | .done (.inr _) => exact absurd hstep (by simp [Line.step])
  | .raise _ => exact absurd hstep (by simp [Line.step])
  | .sendThen _ k =>
    obtain rfl := Option.some_inj.mp hstep
    exact ⟨hfailed, ns, hns, hsated⟩
  | .recvThen n k =>
    obtain ⟨⟨f, hf, hlen⟩, hk⟩ := hsated
    have hhead : inbox.head? = some f := hf
    simp only [Line.step, hhead, if_pos hlen] at hstep
    obtain rfl := Option.some_inj.mp hstep
    exact ⟨hfailed, ns, hns, hk f hlen hf⟩
  | .callThen op k =>
    obtain rfl := Option.some_inj.mp hstep
    obtain ⟨⟨inbox', ns'⟩, hnext, hk⟩ := hsated
    obtain ⟨ns'', howed, heq⟩ := Option.map_eq_some_iff.mp hnext
    obtain ⟨rfl, rfl⟩ := Prod.mk.inj heq
    refine ⟨by simpa using hfailed, ns'', ?_, hk _⟩
    have hpaid : (Act.added (.call ⟨op, t.answer op⟩)).toList ++ ns'' = ns :=
      owed_eq_some howed (t.answer op)
    rw [← hns, ← hpaid, ← List.append_assoc]
    exact congrArg (· ++ ns'') (filterMap_added_append trace _)

/-- **A client that sends everything before it closes** has no phantom commands. -/
theorem noPhantom_of_concluded {sent : List Frame} (hsent : Concluded sent) {l : Line}
    (hl : Reaches step (start sent) l) : l.NoPhantom sent := by
  have hfed : l.Fed sent := hl.inv (fun _ _ _ hf hs ↦ hf.step hs)
    ⟨List.not_mem_nil, _, rfl, clientHandler_sated hsent⟩
  obtain ⟨hfailed, ns, hns, -⟩ := hfed
  refine ⟨⟨ns, hns⟩, fun before after c heq ↦ ?_, fun hmem ↦ absurd hmem hfailed⟩
  exact absurd (by rw [heq]; simp) hfailed

end Line

end RfcNet
