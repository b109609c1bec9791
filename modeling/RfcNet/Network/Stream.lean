import RfcNet.Client
import RfcNet.Lib.Monitor
import RfcNet.Server

/-!
# What a client sends to the index server

The frames of a client, one after the other: its version, its hello, and then commands, some of which are followed
by a number.  `Place` is a place in this stream, and `Place.Moves` its grammar.

The client keeps to it, and announces an RFC only if it knows that it has it: because it had it at the start, or
because `get_from_peer` has returned `true` (`clientStart_obeys`).  The handler of its session, on the other end of
the stream, registers an RFC only if it has just received its number, for the pair it was announced
(`clientHandler_obeys`).
-/

set_option autoImplicit false

namespace RfcNet

open Lib

/-! ## The stream -/

/-- A place in the stream of a client. -/
inductive Place
  | version
  | hostLen
  | host
  | port
  /-- Before a command, and right after the number of an ADD if there is one. -/
  | command (added : Option Int32)
  /-- Before the number of an ADD. -/
  | adding
  /-- Before the number of a LOOKUP. -/
  | looking

/-- The grammar of the stream of a client that announces this host and this port, and only such RFCs as are
`known`. -/
inductive Place.Moves (host : StdString) (port : Int32) (known : Int32 → Prop) : Place → Frame → Place → Prop
  | version (f : Frame) : Moves host port known .version f .hostLen
  | hostLen (f : Frame) : Moves host port known .hostLen f .host
  | host : Moves host port known .host host .port
  | port : Moves host port known .port (wireInt port) (.command none)
  | add (added : Option Int32) : Moves host port known (.command added) (wireInt P2SMessage.add.toInt) .adding
  | lookup (added : Option Int32) : Moves host port known (.command added) (wireInt P2SMessage.lookup.toInt) .looking
  | other (added : Option Int32) {x : Int32} (hadd : x ≠ P2SMessage.add.toInt)
      (hlookup : x ≠ P2SMessage.lookup.toInt) :
      Moves host port known (.command added) (wireInt x) (.command none)
  | adding {n : Int32} (hn : known n) : Moves host port known .adding (wireInt n) (.command (some n))
  | looking (n : Int32) : Moves host port known .looking (wireInt n) (.command none)

/-- A client that knows more can announce more. -/
theorem Place.Moves.mono {host : StdString} {port : Int32} {known known' : Int32 → Prop}
    (hknown : ∀ n, known n → known' n) {a b : Place} {f : Frame} (h : Moves host port known a f b) :
    Moves host port known' a f b := by
  cases h with
  | version => exact .version _
  | hostLen => exact .hostLen _
  | host => exact .host
  | port => exact .port
  | add => exact .add _
  | lookup => exact .lookup _
  | other added hadd hlookup => exact .other added hadd hlookup
  | adding hn => exact .adding (hknown _ hn)
  | looking => exact .looking _

/-! ## The client -/

/-- How far a client has come. -/
structure ClientPhase where
  /-- Its place in the stream. -/
  place : Place
  /-- The RFCs that it knows it has. -/
  known : List Int32
  /-- The RFC that it knows it has not. -/
  missing : Option Int32
  /-- Who was named to it when it last looked for an RFC. -/
  named : List RFCHolder

/-- What a client learns from a call. -/
def ClientPhase.after (ph : ClientPhase) : clientSig.Call → ClientPhase
  | ⟨.checkIfRfcStored n, false⟩ => { ph with missing := some n }
  | ⟨.getFromPeer n _, true⟩ => { ph with known := n :: ph.known, missing := none }
  | ⟨.getFromPeer _ _, false⟩ => { ph with missing := none }
  | ⟨.decoded (.lookup n) (.lookedUp res), _⟩ => { ph with named := res.hosts.map (⟨n, ·⟩) }
  | _ => ph

/-- It looks only for positive numbers, and gets only what is missing, and from whom it was told to. -/
def ClientPhase.MayCall (ph : ClientPhase) : ClientOp → Prop
  | .checkIfRfcStored n => 0 < n
  | .getFromPeer n c => ph.missing = some n ∧ ⟨n, c⟩ ∈ ph.named
  | _ => True

/-- A client that announces this host and this port. -/
def clientMonitor (host : StdString) (port : Int32) : Monitor clientSig ClientPhase where
  sends ph f ph' := ∃ place, ph.place.Moves host port (· ∈ ph.known) f place ∧ ph' = { ph with place }
  comes ph _ ph' := ph' = ph
  calls := ClientPhase.MayCall
  returns ph c ph' := ph' = ph.after c

section
variable {α : Type} {host : StdString} {port : Int32} {fin : ClientPhase → α → Prop} {ph : ClientPhase}

/-- A client sends an integer. -/
theorem obeys_sendInt {x : Int32} (place : Place) {g : Unit → Prog clientSig α}
    (h : ph.place.Moves host port (· ∈ ph.known) (wireInt x) place)
    (hg : (g ()).Obeys (clientMonitor host port) fin { ph with place }) :
    (sendInt x >>= g).Obeys (clientMonitor host port) fin ph :=
  ⟨{ ph with place }, ⟨place, h, rfl⟩, hg⟩

/-- What comes in does not matter. -/
theorem obeys_receive {n : ℕ} {g : Frame → Prog clientSig α}
    (hg : ∀ f, (g f).Obeys (clientMonitor host port) fin ph) :
    (Prog.recv n >>= g).Obeys (clientMonitor host port) fin ph := by
  rintro f - _ rfl
  exact hg f

theorem obeys_receiveInt {g : Int32 → Prog clientSig α}
    (hg : ∀ x, (g x).Obeys (clientMonitor host port) fin ph) :
    (recvInt >>= g).Obeys (clientMonitor host port) fin ph := by
  rintro f - _ rfl
  exact hg _

/-- A client makes a call. -/
theorem obeys_ask {op : ClientOp} {g : op.Res → Prog clientSig α} (hop : ph.MayCall op)
    (hg : ∀ r, (g r).Obeys (clientMonitor host port) fin (ph.after ⟨op, r⟩)) :
    (ask op >>= g).Obeys (clientMonitor host port) fin ph := by
  refine ⟨hop, ?_⟩
  rintro r _ rfl
  exact hg r

attribute [local irreducible] sizeT

variable {added : Option Int32}

/-- **ADD**, for an RFC that is known. -/
theorem askAdd_obeys {n : Int32} (hplace : ph.place = .command added) (hn : n ∈ ph.known) :
    (askAdd n).Obeys (clientMonitor host port) (fun ph' _ ↦ ph' = { ph with place := .command (some n) }) ph := by
  rw [askAdd]
  refine obeys_sendInt .adding (hplace ▸ .add added) (obeys_ask trivial fun heap ↦ ?_)
  refine Prog.obeys_ofExcept fun buf hbuf ↦ ?_
  cases buf with
  | none => trivial
  | some f =>
    have hvalid : (AddRFCMessage.mk n).isValid = true := by
      by_contra hinvalid
      rw [AddRFCMessage.toBytes, Bool.eq_false_of_not_eq_true hinvalid] at hbuf
      cases hbuf
    rw [AddRFCMessage.toBytes, hvalid, encodeInt_true] at hbuf
    obtain rfl := Option.some_inj.mp (Except.ok.inj hbuf)
    rw [sendBuffer_some (show _ = (AddRFCMessage.mk n).messageSize from length_wireInt _)]
    exact ⟨_, ⟨_, .adding hn, rfl⟩, rfl⟩

/-- **LOOKUP**, for any RFC. -/
theorem askLookup_obeys (n : Int32) (hplace : ph.place = .command added) :
    (askLookup n).Obeys (clientMonitor host port) (fun ph' _ ↦ ph' = { ph with place := .command none }) ph := by
  rw [askLookup]
  refine obeys_sendInt .looking (hplace ▸ .lookup added) (obeys_ask trivial fun heap ↦ ?_)
  refine Prog.obeys_ofExcept fun buf hbuf ↦ ?_
  cases buf with
  | none => trivial
  | some f =>
    have hvalid : (LookupRFCMessage.mk n).isValid = true := by
      by_contra hinvalid
      rw [LookupRFCMessage.toBytes, Bool.eq_false_of_not_eq_true hinvalid] at hbuf
      cases hbuf
    rw [LookupRFCMessage.toBytes, hvalid, encodeInt_true] at hbuf
    obtain rfl := Option.some_inj.mp (Except.ok.inj hbuf)
    rw [sendBuffer_some (show _ = (LookupRFCMessage.mk n).messageSize from length_wireInt _)]
    exact ⟨_, ⟨_, .looking n, rfl⟩, rfl⟩

theorem awaitAdd_obeys (n : Int32) :
    (awaitAdd n).Obeys (clientMonitor host port) (fun ph' _ ↦ ph' = ph) ph := by
  refine obeys_receive fun buf ↦ Prog.obeys_ofExcept fun res _ ↦ ?_
  exact obeys_ask trivial fun _ ↦ rfl

theorem receiveReply_obeys :
    receiveReply.Obeys (clientMonitor host port) (fun ph' _ ↦ ph' = ph) ph := by
  refine obeys_receiveInt fun tmp ↦ ?_
  split
  · trivial
  · rintro f - _ rfl
    rfl

theorem awaitList_obeys : awaitList.Obeys (clientMonitor host port) (fun ph' _ ↦ ph' = ph) ph := by
  refine receiveReply_obeys.bind ?_
  rintro _ buf rfl
  refine Prog.obeys_ofExcept fun res _ ↦ ?_
  exact obeys_ask trivial fun _ ↦ rfl

theorem awaitLookup_obeys (n : Int32) : (awaitLookup n).Obeys (clientMonitor host port)
    (fun ph' res ↦ ph' = { ph with named := res.hosts.map (⟨n, ·⟩) }) ph := by
  refine receiveReply_obeys.bind ?_
  rintro _ buf rfl
  refine Prog.obeys_ofExcept fun res _ ↦ ?_
  exact obeys_ask trivial fun _ ↦ rfl

/-- The client is before a command. -/
def ClientPhase.Commands (ph : ClientPhase) : Prop := ∃ added, ph.place = .command added

/-- **Registering what is there** announces only what is known. -/
theorem addAvailableRfcs_obeys {rfcs : List Int32} (hplace : ph.Commands) (hrfcs : ∀ n ∈ rfcs, n ∈ ph.known) :
    (addAvailableRfcs rfcs).Obeys (clientMonitor host port) (fun ph' _ ↦ ph'.Commands) ph := by
  induction rfcs generalizing ph with
  | nil => exact hplace
  | cons n rest ih =>
    obtain ⟨added, hplace⟩ := hplace
    rw [addAvailableRfcs]
    refine (askAdd_obeys hplace (hrfcs n List.mem_cons_self)).bind ?_
    rintro _ - rfl
    refine (awaitAdd_obeys n).bind ?_
    rintro _ res rfl
    split
    · exact ⟨_, rfl⟩
    · exact ih ⟨_, rfl⟩ fun m hm ↦ hrfcs m (List.mem_cons_of_mem n hm)

/-- **Getting an RFC** announces it only if it has been got. -/
theorem getRfc_obeys (n : Int32) (hplace : ph.Commands) :
    (getRfc n).Obeys (clientMonitor host port) (fun ph' _ ↦ ph'.Commands) ph := by
  rw [getRfc]
  split
  · exact hplace
  rename_i hn
  refine obeys_ask (Int32.not_le.mp hn) fun stored ↦ ?_
  cases stored with
  | true => exact hplace
  | false =>
    obtain ⟨added, hplace⟩ := hplace
    have hplace' : (ph.after ⟨.checkIfRfcStored n, false⟩).place = .command added := hplace
    refine (askLookup_obeys n hplace').bind ?_
    rintro _ - rfl
    refine (awaitLookup_obeys n).bind ?_
    rintro _ res rfl
    split
    · exact ⟨_, rfl⟩
    split
    · trivial
    · rename_i hhosts
      refine obeys_ask ⟨rfl, List.mem_map_of_mem (hhosts ▸ List.mem_cons_self)⟩ fun got ↦ ?_
      cases got with
      | false => exact ⟨_, rfl⟩
      | true =>
        refine (askAdd_obeys rfl List.mem_cons_self).bind ?_
        rintro _ - rfl
        refine (awaitAdd_obeys n).bind ?_
        rintro _ res rfl
        exact ⟨_, rfl⟩

theorem listRfcsRemote_obeys (hplace : ph.Commands) :
    listRfcsRemote.Obeys (clientMonitor host port) (fun ph' _ ↦ ph'.Commands) ph := by
  obtain ⟨added, hplace⟩ := hplace
  rw [listRfcsRemote, askList]
  refine obeys_sendInt (.command none) (hplace ▸ .other added (by decide) (by decide)) ?_
  refine awaitList_obeys.bind ?_
  rintro _ res rfl
  exact ⟨_, rfl⟩

theorem disconnect_obeys (hplace : ph.Commands) :
    disconnect.Obeys (clientMonitor host port) (fun _ _ ↦ True) ph := by
  obtain ⟨added, hplace⟩ := hplace
  rw [disconnect]
  refine obeys_sendInt (.command none) (hplace ▸ .other added (by decide) (by decide)) ?_
  exact ⟨trivial, fun _ _ _ ↦ trivial⟩

/-- At the top of its loop the client is before a command. -/
def ClientPhase.AtLoop (ph : ClientPhase) : Unit ⊕ Int32 → Prop
  | .inl _ => ph.Commands
  | .inr _ => True

/-- **Each round of the loop** keeps to the stream. -/
theorem commandLoop_obeys : clientMain.Obeys (clientMonitor host port) ClientPhase.AtLoop := by
  rintro ph ⟨⟩ hplace
  refine obeys_ask trivial fun input ↦ ?_
  cases input with
  | get n =>
    refine (getRfc_obeys n hplace).bind ?_
    rintro ph' - hplace'
    exact hplace'
  | list =>
    refine (listRfcsRemote_obeys hplace).bind ?_
    rintro ph' - hplace'
    exact hplace'
  | other => exact hplace
  | quit =>
    exact (disconnect_obeys hplace).bind fun _ _ _ ↦ trivial

/-- The hello. -/
theorem sendHello_obeys (haddress : host.length < 2 ^ 31) (hplace : ph.place = .hostLen) :
    (sendHello host port).Obeys (clientMonitor host port) (fun ph' _ ↦ ph' = { ph with place := .command none })
      ph := by
  simp only [sendHello, ntohl_htonl]
  refine obeys_sendInt .host (hplace ▸ .hostLen _) ?_
  rw [sizeT_ofNat haddress, sendBuffer_append rfl]
  exact ⟨_, ⟨_, .host, rfl⟩, _, ⟨_, .port, rfl⟩, rfl⟩

/-- **A client keeps to its stream** from its start. -/
theorem clientStart_obeys (haddress : host.length < 2 ^ 31) (rfcs : List Int32) :
    (clientStart host port rfcs).Obeys (clientMonitor host port) ClientPhase.AtLoop ⟨.version, rfcs, none, []⟩ := by
  rw [clientStart]
  refine obeys_sendInt .hostLen (.version _) (obeys_receiveInt fun serverVersion ↦ ?_)
  split
  · trivial
  · refine (sendHello_obeys haddress rfl).bind ?_
    rintro _ - rfl
    refine (addAvailableRfcs_obeys ⟨_, rfl⟩ fun n hn ↦ hn).bind ?_
    rintro ph' - hplace
    exact hplace

end

/-! ## The handler of its session -/

/-- What a handler may do to the index: anything but register another pair than the one announced, or an RFC that it
has not just been given. -/
def Place.MayCall (host : StdString) (port : Int32) (place : Place) : ServerOp → Prop
  | .index (.addClient h p) => h = cString host ∧ p = port
  | .index (.addRfc h p n) => place = .command (some n) ∧ h = cString host ∧ p = port
  | _ => True

/-- The handler of a client that announces this host and this port. -/
def handlerMonitor (host : StdString) (port : Int32) : Monitor serverSig Place where
  sends place _ place' := place' = place
  comes := Place.Moves host port fun _ ↦ True
  calls := Place.MayCall host port
  returns place _ place' := place' = place

section
variable {α : Type} {host : StdString} {port : Int32} {fin : Place → α → Prop} {place : Place}

attribute [local irreducible] sizeT

/-- What a handler sends does not matter. -/
theorem obeys_reply {buf : Option Frame} {len : ℕ} :
    (sendBuffer buf len : Prog serverSig Unit).Obeys (handlerMonitor host port) (fun place' _ ↦ place' = place)
      place := by
  cases buf with
  | none => trivial
  | some f =>
    rw [sendBuffer.eq_2]
    split
    · trivial
    · exact ⟨_, rfl, rfl⟩

theorem sendReply_obeys {buf : Option Frame} {size : UInt32} :
    (sendReply buf size).Obeys (handlerMonitor host port) (fun place' _ ↦ place' = place) place := by
  rw [sendReply]
  exact ⟨_, rfl, obeys_reply⟩

/-- A handler receives an integer. -/
theorem obeys_incoming {g : Int32 → Prog serverSig α}
    (hg : ∀ f place', place.Moves host port (fun _ ↦ True) f place' →
      (g (unwireInt f)).Obeys (handlerMonitor host port) fin place') :
    (recvInt >>= g).Obeys (handlerMonitor host port) fin place :=
  fun f _ place' hmoves ↦ hg f place' hmoves

/-- A handler makes a call. -/
theorem obeys_atIndex {op : IndexOp} {g : op.Res → Prog serverSig α} (hop : place.MayCall host port (.index op))
    (hg : ∀ r, (g r).Obeys (handlerMonitor host port) fin place) :
    (atIndex op >>= g).Obeys (handlerMonitor host port) fin place := by
  refine ⟨hop, ?_⟩
  rintro r _ rfl
  exact hg r

theorem obeys_allocate {n : ℕ} {g : (ℕ → UInt8) → Prog serverSig α}
    (hg : ∀ heap, (g heap).Obeys (handlerMonitor host port) fin place) :
    (allocate n >>= g).Obeys (handlerMonitor host port) fin place := by
  refine ⟨trivial, ?_⟩
  rintro heap _ rfl
  exact hg heap

/-- **Serving an ADD** registers the number that was received. -/
theorem addRfc_obeys : (addRfc (cString host) port).Obeys (handlerMonitor host port)
    (fun place' _ ↦ ∃ added, place' = .command added) .adding := by
  rw [addRfc]
  intro f _ place' hmoves
  cases hmoves with
  | @adding n =>
    refine Prog.obeys_ofExcept fun msg hmsg ↦ ?_
    rw [AddRFCMessage.fromBytes, decodeInt_wireInt] at hmsg
    obtain rfl := Except.ok.inj hmsg
    refine obeys_atIndex ⟨rfl, rfl, rfl⟩ fun added ↦ obeys_allocate fun heap ↦ ?_
    refine Prog.obeys_ofExcept fun buf _ ↦ obeys_reply.mono ?_
    rintro _ - rfl
    exact ⟨_, rfl⟩

theorem lookupRfc_obeys : lookupRfc.Obeys (handlerMonitor host port)
    (fun place' _ ↦ ∃ added, place' = .command added) .looking := by
  rw [lookupRfc]
  intro f _ place' hmoves
  cases hmoves with
  | looking n =>
    refine Prog.obeys_ofExcept fun msg _ ↦ ?_
    refine obeys_atIndex trivial fun clients ↦ obeys_allocate fun heap ↦ ?_
    refine Prog.obeys_ofExcept fun buf _ ↦ sendReply_obeys.mono ?_
    rintro _ - rfl
    exact ⟨_, rfl⟩

theorem listRfcs_obeys {added : Option Int32} : listRfcs.Obeys (handlerMonitor host port)
    (fun place' _ ↦ ∃ added, place' = .command added) (.command added) := by
  rw [listRfcs]
  refine obeys_atIndex trivial fun holders ↦ obeys_allocate fun heap ↦ ?_
  refine Prog.obeys_ofExcept fun buf _ ↦ sendReply_obeys.mono ?_
  rintro _ - rfl
  exact ⟨_, rfl⟩

/-- Any other command than ADD and LOOKUP. -/
theorem handleMessage_obeys {x : Int32} {added : Option Int32} (hadd : x ≠ P2SMessage.add.toInt)
    (hlookup : x ≠ P2SMessage.lookup.toInt) : (handleMessage (cString host) port x).Obeys (handlerMonitor host port)
      (fun place' _ ↦ ∃ added, place' = .command added) (.command added) := by
  rw [handleMessage]
  split
  · rename_i hx
    exact absurd (P2SMessage.eq_toInt hx) hadd
  · exact listRfcs_obeys
  · rename_i hx
    exact absurd (P2SMessage.eq_toInt hx) hlookup
  · exact ⟨_, rfl⟩

/-- At the top of its loop the handler is before a command, of the pair it was announced. -/
def Place.AtLoop (host : StdString) (port : Int32) (place : Place) : Session ⊕ Bool → Prop
  | .inl s => (∃ added, place = .command added) ∧ s.host = cString host ∧ s.uploadPort = port
  | .inr _ => True

/-- What a round does once it has received a command, if what the command asks for keeps to the stream. -/
theorem obeys_round {s : Session} {message : Int32} (hhost : s.host = cString host) (hport : s.uploadPort = port)
    (h : (handleMessage (cString host) port message).Obeys (handlerMonitor host port)
      (fun place' _ ↦ ∃ added, place' = .command added) place) :
    (handleMessage s.host s.uploadPort message >>= fun _ ↦
      if message ≠ P2SMessage.disconnect.toInt then .done (.inl { s with message })
      else removeClient s.host s.uploadPort >>= fun b ↦ .done (.inr b) : handler.Code).Obeys
      (handlerMonitor host port) (Place.AtLoop host port) place := by
  subst hport
  rw [← hhost] at h
  refine h.bind ?_
  rintro _ - ⟨added, rfl⟩
  split
  · exact ⟨⟨_, rfl⟩, hhost, rfl⟩
  · exact obeys_atIndex trivial fun _ ↦ obeys_atIndex trivial fun _ ↦ ⟨trivial, fun _ _ _ ↦ trivial⟩

/-- **Each round of the loop** registers only what has been announced. -/
theorem messageLoop_obeys : handler.Obeys (handlerMonitor host port) (Place.AtLoop host port) := by
  rintro _ s ⟨⟨added, rfl⟩, hhost, hport⟩
  refine obeys_incoming fun f place' hmoves ↦ ?_
  cases hmoves with
  | add =>
    rw [unwireInt_wireInt]
    refine obeys_round hhost hport ?_
    rw [handleMessage_add]
    exact addRfc_obeys
  | lookup =>
    rw [unwireInt_wireInt]
    refine obeys_round hhost hport ?_
    rw [handleMessage_lookup]
    exact lookupRfc_obeys
  | other _ hadd hlookup =>
    rw [unwireInt_wireInt]
    exact obeys_round hhost hport (handleMessage_obeys hadd hlookup)

/-- **The hello** is that of the pair that is announced. -/
theorem receiveHello_obeys : receiveHello.Obeys (handlerMonitor host port)
    (fun place' s ↦ (∃ added, place' = .command added) ∧ s.host = cString host ∧ s.uploadPort = port) .hostLen := by
  rw [receiveHello]
  refine obeys_incoming fun hostLen place hmoves ↦ ?_
  cases hmoves
  split
  · trivial
  rw [receiveAddress]
  refine Prog.obeys_recv fun hostC _ place hmoves ↦ ?_
  cases hmoves
  refine obeys_incoming fun uploadPort place hmoves ↦ ?_
  cases hmoves
  refine obeys_atIndex ⟨rfl, unwireInt_wireInt port⟩ fun _ ↦ obeys_allocate fun message ↦ ?_
  exact ⟨⟨_, rfl⟩, rfl, unwireInt_wireInt port⟩

/-- **A handler keeps to the stream** of its client from its start. -/
theorem clientHandler_obeys :
    clientHandler.Obeys (handlerMonitor host port) (Place.AtLoop host port) .version := by
  rw [clientHandler]
  refine ⟨_, rfl, ?_⟩
  refine obeys_incoming fun version place hversion ↦ ?_
  cases hversion
  split
  · trivial
  refine Prog.Obeys.bind receiveHello_obeys ?_
  rintro place s hs
  exact hs

end

end RfcNet
