import RfcNet.Exchange
import RfcNet.Network.Holding

/-!
# What holds in the whole network

Three invariants of every run of a network, whatever its users do and however its peers are connected.

* `Network.files_kept`: a peer never loses or changes a file, and whatever it gets is a copy of what some peer had
  under the number that was asked for.  It may be cut short only if some file was there half-written.
* `Network.stores_anew`: what a peer gets is stored where there was no file, unless a part of it is there already.
* `Network.index_backed`: whoever the index says has an RFC has its file, if all peers can write to their directories
  and these have nothing but RFCs in them.

All come out of one invariant, `Network.Sound`: every program obeys its monitor, each in the phase that the others
expect of it, and what a client knows of its directory is true.
-/

set_option autoImplicit false

namespace RfcNet

open Lib RFCManager

variable {ι : Type} {nodes : ι → Node} {cut : Prop} {i : ι}

/-! ## The invariant -/

/-- The errand goes as it should, and its requester has come to the phase `ph`. -/
structure Errand.Proceeds (nodes : ι → Node) (cut : Prop) (v : Errand ι) (ph : RequesterPhase) : Prop where
  requester : v.requester.Obeys
    (requesterMonitor v.number (Genuine nodes cut (Encounter.asked v.number))) RequesterPhase.AtEnd ph
  responder : ∃ ph' : ResponderPhase,
    v.responder.Obeys (responderMonitor v.number.toInt16 (Genuine nodes cut (Encounter.asked v.number)))
      ResponderPhase.AtLoop ph' ∧
    Passes (Ask.Moves v.number.toInt16) ph'.ask v.toResponder ph.ask ∧
    Passes (Answer.Moves (Genuine nodes cut (Encounter.asked v.number))) ph.answer v.toRequester ph'.answer

/-- The session of a client that has come to the place `place` of its stream: whatever is announced to it, the peer
has. -/
def Member.Serves (node : Node) (m : Member ι) (place : Place) : Prop :=
  ∃ place', m.session.Obeys (handlerMonitor node.address node.port) (Place.AtLoop node.address node.port) place' ∧
    Passes (Place.Moves node.address node.port (node.Has m.files)) place' m.toServer place ∧
    ∀ n, place' = .command (some n) → node.Has m.files n

/-- What holds of the peer `i`, whose client has come to the phase `ph`. -/
structure Member.Sound (nodes : ι → Node) (cut : Prop) (i : ι) (m : Member ι) (ph : ClientPhase) : Prop where
  client : m.client.Obeys (clientMonitor (nodes i).address (nodes i).port) ClientPhase.AtLoop ph
  /-- What it knows it has, it has. -/
  known : ∀ n ∈ ph.known, (nodes i).Has m.files n
  /-- What it knows it has not, it had not from the start, and has not got, unless it is on an errand. -/
  missing : ∀ n, ph.missing = some n → 0 < n ∧ (nodes i).files.lookup (fileName n) = none ∧
    (m.errand = none → fileName n ∉ m.files)
  /-- Whom it was told of, it was told of in a reply. -/
  named : ∀ r ∈ ph.named, ∃ res, (.lookup r.rfc, .lookedUp res) ∈ answered m.clientLog ∧ r.peer ∈ res.hosts
  session : m.Serves (nodes i) ph.place
  /-- The errand is for what the client wants, which it has once it is stored, and has not before, unless there may
  be a part of it. -/
  errand : ∀ v, m.errand = some v → wanted m.client = some v.number ∧ ∃ ph', v.Proceeds nodes cut ph' ∧
    (ph'.stored = true → (nodes i).Stores m.files v.number) ∧
    (ph'.stored = false → cut ∨ fileName v.number ∉ m.files)
  past : ∀ v ∈ m.past, ∃ ph', v.Proceeds nodes cut ph'
  files : Intact nodes cut i m.files

/-- What holds of the network. -/
structure Network.Sound (nodes : ι → Node) (cut : Prop) (w : Network ι) : Prop where
  members : ∀ i, ∃ ph, (w.member i).Sound nodes cut i ph
  index : ∀ r ∈ w.index.rfcs, ∃ i, r.peer = ⟨cString (nodes i).address, (nodes i).port⟩ ∧
    (nodes i).Has (w.member i).files r.rfc

theorem wanted_eq_some {code : clientMain.Code} {n : Int32} (h : wanted code = some n) :
    ∃ c k, code = .callThen (.getFromPeer n c) k := by
  unfold wanted at h
  split at h
  · obtain rfl := Option.some_inj.mp h
    exact ⟨_, _, rfl⟩
  · cases h

theorem Errand.code_of_returned {v : Errand ι} {b : Bool} (h : v.returned = some b) :
    v.requester = .done (.inr b) := by
  unfold Errand.returned at h
  split at h
  · obtain rfl := Option.some_inj.mp h
    assumption
  · cases h

/-- **What a client does to its belongings**: it ends its errand, or leaves them as they are. -/
theorem client_act_belongings {code : clientMain.Code} {s : Belongings ι} {log : List clientSig.Call}
    {memory : ℕ → UInt8} {command : Command} {inbox rest out : List Frame}
    {c : Endpoint clientMain (Belongings.env ι memory command)}
    (hact : (⟨code, s, log⟩ : Endpoint clientMain (Belongings.env ι memory command)).act inbox =
      some (c, rest, out)) :
    c.env = s ∨ ∃ v, c.env = { s with errand := none, past := v :: s.past } := by
  cases Endpoint.act_eq_some_iff.mp hact with
  | loop => exact .inl rfl
  | send => exact .inl rfl
  | recv => exact .inl rfl
  | @call op _ _ _ _ _ r hr =>
    cases op with
    | newBytes n | readCommand | decoded request reply | disconnect =>
      obtain ⟨-, rfl⟩ := Prod.mk.inj (Option.some_inj.mp hr)
      exact .inl rfl
    | checkIfRfcStored n =>
      obtain ⟨b, -, heq⟩ := Option.map_eq_some_iff.mp hr
      obtain ⟨-, rfl⟩ := Prod.mk.inj heq
      exact .inl rfl
    | getFromPeer n c =>
      obtain ⟨v, -, hr⟩ := Option.bind_eq_some_iff.mp hr
      obtain ⟨b, -, heq⟩ := Option.map_eq_some_iff.mp hr
      obtain ⟨-, rfl⟩ := Prod.mk.inj heq
      exact .inr ⟨v, rfl⟩

/-- A client that wants an RFC has not got it. -/
theorem Member.Sound.missing_of_wanted {m : Member ι} {ph : ClientPhase} (hm : m.Sound nodes cut i ph) {n : Int32}
    (h : wanted m.client = some n) : ph.missing = some n := by
  obtain ⟨c, k, hcode⟩ := wanted_eq_some h
  have hclient := hm.client
  rw [hcode] at hclient
  exact hclient.1.1

/-- It was told whom to get it from. -/
theorem Member.Sound.named_of_wanted {m : Member ι} {ph : ClientPhase} (hm : m.Sound nodes cut i ph) {n : Int32}
    {c : Client} {k : Bool → clientMain.Code} (h : m.client = .callThen (.getFromPeer n c) k) :
    ∃ res, (.lookup n, .lookedUp res) ∈ answered m.clientLog ∧ c ∈ res.hosts := by
  have hclient := hm.client
  rw [h] at hclient
  exact hm.named ⟨n, c⟩ hclient.1.2

/-! ## The client -/

section
variable {m : Member ι} {ph : ClientPhase} {memory : ℕ → UInt8} {command : Command}

/-- What a reply has said stays said. -/
theorem Member.Sound.named_append (hm : m.Sound nodes cut i ph) (calls : List clientSig.Call) :
    ∀ r ∈ ph.named, ∃ res, (.lookup r.rfc, .lookedUp res) ∈ answered (m.clientLog ++ calls) ∧ r.peer ∈ res.hosts := by
  intro r hr
  obtain ⟨res, hres, hpeer⟩ := hm.named r hr
  rw [answered_append]
  exact ⟨res, List.mem_append_left _ hres, hpeer⟩

/-- What a client has just been told. -/
theorem Member.Sound.named_decoded (hm : m.Sound nodes cut i ph) (request : Request) (reply : Reply) :
    ∀ r ∈ (ph.after ⟨.decoded request reply, ()⟩).named, ∃ res,
      (.lookup r.rfc, .lookedUp res) ∈ answered (m.clientLog ++ [⟨.decoded request reply, ()⟩]) ∧
        r.peer ∈ res.hosts := by
  have hkept := hm.named_append [⟨.decoded request reply, ()⟩]
  cases request with
  | add | list | disconnect | other => exact hkept
  | lookup n =>
    cases reply with
    | added | listed => exact hkept
    | lookedUp res =>
      intro r hr
      obtain ⟨c, hc, rfl⟩ := List.mem_map.mp hr
      rw [answered_append]
      exact ⟨res, List.mem_append_right _ List.mem_cons_self, hc⟩

/-- What the calls of a client teach it, while it is on no errand. -/
theorem Member.Sound.after_call (hm : m.Sound nodes cut i ph) (hnone : m.errand = none) {op : ClientOp} {r : op.Res}
    {s' : Belongings ι} (hop : ph.MayCall op)
    (hr : (Belongings.env ι memory command).answer m.toBelongings op = some (r, s')) :
    s' = m.toBelongings ∧ (ph.after ⟨op, r⟩).place = ph.place ∧ (ph.after ⟨op, r⟩).known = ph.known ∧
      (∀ n, (ph.after ⟨op, r⟩).missing = some n → 0 < n ∧ (nodes i).files.lookup (fileName n) = none ∧
        (m.errand = none → fileName n ∉ m.files)) ∧
      ∀ a ∈ (ph.after ⟨op, r⟩).named, ∃ res,
        (.lookup a.rfc, .lookedUp res) ∈ answered (m.clientLog ++ [⟨op, r⟩]) ∧ a.peer ∈ res.hosts := by
  have hkept := hm.named_append [⟨op, r⟩]
  cases op with
  | newBytes n | readCommand | disconnect =>
    obtain ⟨-, rfl⟩ := Prod.mk.inj (Option.some_inj.mp hr)
    exact ⟨rfl, rfl, rfl, hm.missing, hkept⟩
  | decoded request reply =>
    obtain ⟨-, rfl⟩ := Prod.mk.inj (Option.some_inj.mp hr)
    have hafter : (ph.after ⟨.decoded request reply, r⟩) = { ph with
        named := (ph.after ⟨.decoded request reply, r⟩).named } := by
      cases request <;> cases reply <;> rfl
    rw [hafter]
    exact ⟨rfl, rfl, rfl, hm.missing, hm.named_decoded request reply⟩
  | getFromPeer n c =>
    obtain ⟨v, hv, -⟩ := Option.bind_eq_some_iff.mp hr
    rw [hnone] at hv
    cases hv
  | checkIfRfcStored n =>
    obtain ⟨b, hb, heq⟩ := Option.map_eq_some_iff.mp hr
    obtain ⟨rfl, rfl⟩ := Prod.mk.inj heq
    cases b with
    | true => exact ⟨rfl, rfl, rfl, hm.missing, hkept⟩
    | false =>
      refine ⟨rfl, rfl, rfl, ?_, hkept⟩
      rintro _ ⟨⟩
      have hfree : ¬ Lists m.files n := by
        refine not_lists_of_check ?_
        cases hcheck : checkIfRfcStored n m.files with
        | error e =>
          rw [hcheck] at hb
          cases hb
        | ok b =>
          rw [hcheck] at hb
          exact congrArg _ (Option.some_inj.mp hb)
      exact ⟨hop, hm.files.lookup_of_not_listed hop hfree, fun _ hmem ↦ hfree (lists_of_mem hop hmem)⟩

/-- A client that is on no errand goes on. -/
theorem Member.Sound.goOn (hm : m.Sound nodes cut i ph) (hnone : m.errand = none) {ph' : ClientPhase}
    {code : clientMain.Code} {clientLog : List clientSig.Call} {toServer toClient : List Frame}
    (hcode : code.Obeys (clientMonitor (nodes i).address (nodes i).port) ClientPhase.AtLoop ph')
    (hknown : ph'.known = ph.known)
    (hmissing : ∀ n, ph'.missing = some n → 0 < n ∧ (nodes i).files.lookup (fileName n) = none ∧
      (m.errand = none → fileName n ∉ m.files))
    (hnamed : ∀ r ∈ ph'.named, ∃ res, (.lookup r.rfc, .lookedUp res) ∈ answered clientLog ∧ r.peer ∈ res.hosts)
    (hserves : ({ m with toServer } : Member ι).Serves (nodes i) ph'.place) :
    ({ m with client := code, clientLog, toServer, toClient } : Member ι).Sound nodes cut i ph' where
  client := hcode
  known := hknown ▸ hm.known
  missing := hmissing
  named := hnamed
  session := hserves
  errand v hv := by
    have hv : m.errand = some v := hv
    rw [hnone] at hv
    cases hv
  past := hm.past
  files := hm.files

/-- The client comes back from an errand. -/
theorem Member.Sound.returned (hm : m.Sound nodes cut i ph) {v : Errand ι} (hv : m.errand = some v) {b : Bool}
    (hb : v.returned = some b) {c : Client} {code : clientMain.Code}
    (hcode : code.Obeys (clientMonitor (nodes i).address (nodes i).port) ClientPhase.AtLoop
      (ph.after ⟨.getFromPeer v.number c, b⟩)) :
    ({ m with
      client := code, clientLog := m.clientLog ++ [⟨.getFromPeer v.number c, b⟩], errand := none,
      past := v :: m.past } : Member ι).Sound nodes cut i (ph.after ⟨.getFromPeer v.number c, b⟩) := by
  obtain ⟨hwanted, ph', hproceeds, hstored, -⟩ := hm.errand v hv
  have hpast : ∀ v' ∈ v :: m.past, ∃ ph', v'.Proceeds nodes cut ph' := by
    rintro v' hv'
    rcases List.mem_cons.mp hv' with rfl | hv'
    · exact ⟨ph', hproceeds⟩
    · exact hm.past v' hv'
  cases b with
  | false =>
    exact ⟨hcode, hm.known, nofun, hm.named_append _, hm.session, nofun, hpast, hm.files⟩
  | true =>
    refine ⟨hcode, fun n hn ↦ ?_, nofun, hm.named_append _, hm.session, nofun, hpast, hm.files⟩
    rcases List.mem_cons.mp hn with rfl | hn
    · -- It has returned `true`, so it has stored the content.
      have hrequester := hproceeds.requester
      rw [Errand.code_of_returned hb] at hrequester
      exact (hstored (hrequester rfl)).has (hm.missing _ (hm.missing_of_wanted hwanted)).1
    · exact hm.known n hn

/-- **The client moves.** -/
theorem Member.Sound.client_act (hm : m.Sound nodes cut i ph)
    {e : Endpoint clientMain (Belongings.env ι memory command)} {rest out : List Frame}
    (hact : (⟨m.client, m.toBelongings, m.clientLog⟩ :
      Endpoint clientMain (Belongings.env ι memory command)).act m.toClient = some (e, rest, out)) :
    e.env.files = m.files ∧ ∃ ph', ({ m with
      toBelongings := e.env, client := e.code, clientLog := e.log, toServer := m.toServer ++ out,
      toClient := rest } : Member ι).Sound nodes cut i ph' := by
  obtain ⟨code, s', log⟩ := e
  cases hnone : m.errand with
  | none =>
    have hmoved : ({ m with toServer := m.toServer ++ [] } : Member ι).Serves (nodes i) ph.place := by
      rw [List.append_nil]
      exact hm.session
    obtain ⟨calls, hlog, htakes⟩ := Monitor.Takes.of_act commandLoop_obeys hm.client hact
    obtain rfl : log = m.clientLog ++ calls := hlog
    have hkept := hm.named_append calls
    cases htakes with
    | loop hcode => exact ⟨rfl, ph, hm.goOn hnone hcode rfl hm.missing hkept hmoved⟩
    | send hsends hcode =>
      obtain ⟨place, hmoves, rfl⟩ := hsends
      obtain ⟨place', hsession, hpasses, hlast⟩ := hm.session
      refine ⟨rfl, _, hm.goOn hnone hcode rfl hm.missing hkept ⟨place', hsession, ?_, hlast⟩⟩
      exact hpasses.append (hmoves.mono hm.known)
    | recv heq hcode => exact ⟨rfl, ph, hm.goOn hnone (hcode ph rfl) rfl hm.missing hkept hmoved⟩
    | call hop hr hcode =>
      obtain ⟨rfl, hplace, hknown, hmissing, hnamed⟩ := hm.after_call hnone hop hr
      exact ⟨rfl, _, hm.goOn hnone (hcode _ rfl) hknown hmissing hnamed (hplace ▸ hmoved)⟩
  | some v =>
    obtain ⟨hwanted, -⟩ := hm.errand v hnone
    obtain ⟨c, k, hclient⟩ := wanted_eq_some hwanted
    have hobeys := hm.client
    rw [hclient] at hact hobeys
    cases Endpoint.act_eq_some_iff.mp hact with
    | call hr =>
      obtain ⟨v', hv', hr⟩ := Option.bind_eq_some_iff.mp hr
      obtain ⟨b, hb, heq⟩ := Option.map_eq_some_iff.mp hr
      obtain ⟨rfl, rfl⟩ := Prod.mk.inj heq
      obtain rfl : v = v' := Option.some_inj.mp (hnone.symm.trans hv')
      rw [List.append_nil]
      exact ⟨rfl, _, hm.returned hnone hb (hobeys.2 b _ rfl)⟩

end

/-! ## The session -/

section
variable {m : Member ι} {ph : ClientPhase} {ix : CentralIndex} {memory : ℕ → UInt8}

/-- The handler goes on. -/
theorem Member.Sound.serve (hm : m.Sound nodes cut i ph) {session : handler.Code}
    {sessionLog : List serverSig.Call} {toServer toClient : List Frame}
    (hserves : ({ m with session, toServer } : Member ι).Serves (nodes i) ph.place) :
    ({ m with session, sessionLog, toServer, toClient } : Member ι).Sound nodes cut i ph :=
  { hm with session := hserves }

/-- **The handler moves**: what it adds to the index, the peer has. -/
theorem Member.Sound.session_act (hm : m.Sound nodes cut i ph) {e : Endpoint handler (indexEnv memory)}
    {rest out : List Frame}
    (hact : (⟨m.session, ix, m.sessionLog⟩ : Endpoint handler (indexEnv memory)).act m.toServer =
      some (e, rest, out)) :
    (∀ r ∈ e.env.rfcs, r ∈ ix.rfcs ∨
      r.peer = ⟨cString (nodes i).address, (nodes i).port⟩ ∧ (nodes i).Has m.files r.rfc) ∧
    ({ m with
      session := e.code, sessionLog := e.log, toServer := rest, toClient := m.toClient ++ out } : Member ι).Sound
        nodes cut i ph := by
  obtain ⟨code, ix', log⟩ := e
  obtain ⟨place, hsession, hpasses, hlast⟩ := hm.session
  obtain ⟨_, -, htakes⟩ := Monitor.Takes.of_act messageLoop_obeys hsession hact
  cases htakes with
  | loop hcode => exact ⟨fun r hr ↦ .inl hr, hm.serve ⟨place, hcode, hpasses, hlast⟩⟩
  | send hsends hcode =>
    obtain rfl := hsends
    exact ⟨fun r hr ↦ .inl hr, hm.serve ⟨_, hcode, hpasses, hlast⟩⟩
  | recv heq hcode =>
    rw [heq] at hpasses
    obtain ⟨place', hmoves, hpasses⟩ := hpasses.head
    refine ⟨fun r hr ↦ .inl hr, hm.serve ⟨place', hcode _ (hmoves.mono fun _ _ ↦ trivial), hpasses, ?_⟩⟩
    rintro n rfl
    cases hmoves with
    | adding hn => exact hn
  | @call op _ _ hop hr hcode =>
    refine ⟨fun r hmem ↦ ?_, hm.serve ⟨place, hcode _ rfl, hpasses, hlast⟩⟩
    cases op with
    | index op =>
      obtain ⟨-, rfl⟩ := Prod.mk.inj (Option.some_inj.mp hr)
      rcases IndexOp.mem_rfcs_of_exec hmem with hold | ⟨rfl, -, -⟩
      · exact .inl hold
      · obtain ⟨hplace, hhost, hport⟩ := hop
        exact .inr ⟨Client.ext hhost hport, hlast _ hplace⟩
    | newBytes n | close =>
      obtain ⟨-, rfl⟩ := Prod.mk.inj (Option.some_inj.mp hr)
      exact .inl hmem

end

/-! ## Errands -/

section
variable {m : Member ι} {ph : ClientPhase} {memory : ℕ → UInt8} {v : Errand ι} {rph : RequesterPhase}

/-- **An errand begins.** -/
theorem Member.Sound.connect (hm : m.Sound nodes cut i ph) (hnone : m.errand = none) {n : Int32}
    (hwanted : wanted m.client = some n) (target : ι) :
    ({ m with errand := some ⟨target, n, (getFromPeer (nodes i).address (nodes i).port n).once, handlePeer, [], []⟩ } :
      Member ι).Sound nodes cut i ph := by
  obtain ⟨hpos, hnew, hvacant⟩ := hm.missing n (hm.missing_of_wanted hwanted)
  refine { hm with missing := fun n hn ↦ ?_, errand := ?_ }
  · obtain ⟨hpos, hnew, -⟩ := hm.missing n hn
    exact ⟨hpos, hnew, nofun⟩
  · rintro _ ⟨⟩
    exact ⟨hwanted, ⟨.hostLen, .size, false⟩, ⟨getFromPeer_obeys _ _ _ _, ⟨.hostLen, .size⟩, handlePeer_obeys,
      .nil _, .nil _⟩, nofun, fun _ ↦ .inr (hvacant hnone)⟩

/-- The responder of a peer whose directory is kept goes on, and leaves the directory as it is. -/
theorem Errand.Proceeds.respond (hv : v.Proceeds nodes cut rph) {d : Directory} (hd : Intact nodes cut v.target d)
    {canOpen : StdString → Bool} {e : Endpoint peerHandler (peerEnv canOpen fun _ ↦ memory)}
    {rest out : List Frame}
    (hact : (⟨v.responder, ⟨d, 0⟩, []⟩ : Endpoint peerHandler (peerEnv canOpen fun _ ↦ memory)).act v.toResponder =
      some (e, rest, out)) :
    e.env.files = d ∧ ({ v with
      responder := e.code, toResponder := rest, toRequester := v.toRequester ++ out } : Errand ι).Proceeds nodes cut
        rph := by
  obtain ⟨code, s, log⟩ := e
  obtain ⟨hrequester, ph, hresponder, hasks, hanswers⟩ := hv
  have hloop : peerHandler.Obeys (responderMonitor v.number.toInt16 (Genuine nodes cut (Encounter.asked v.number)))
      ResponderPhase.AtLoop := peerLoop_obeys fun _ ↦ Genuine.cString
  obtain ⟨_, -, htakes⟩ := Monitor.Takes.of_act hloop hresponder hact
  cases htakes with
  | loop hcode =>
    rw [List.append_nil]
    exact ⟨rfl, hrequester, ph, hcode, hasks, hanswers⟩
  | send hsends hcode =>
    obtain ⟨answer, hmoves, rfl⟩ := hsends
    exact ⟨rfl, hrequester, _, hcode, hasks, hanswers.append hmoves⟩
  | recv heq hcode =>
    rw [heq] at hasks
    obtain ⟨ask, hmoves, hasks⟩ := hasks.head
    rw [List.append_nil]
    exact ⟨rfl, hrequester, _, hcode _ ⟨ask, hmoves, rfl⟩, hasks, hanswers⟩
  | @call op r _ hop hr hcode =>
    obtain ⟨rfl, rfl⟩ := Prod.mk.inj (Option.some_inj.mp hr)
    rw [List.append_nil]
    cases op with
    | newBytes n | disconnect | close =>
      exact ⟨rfl, hrequester, ph, hcode ph ⟨rfl, trivial⟩, hasks, hanswers⟩
    | addRfc n content => exact hop.elim
    | getContent n =>
      refine ⟨rfl, hrequester, ph, hcode ph ⟨rfl, ?_⟩, hasks, hanswers⟩
      obtain rfl : n = v.number.toInt16.toInt32 := hop
      show GenuineCall _ ⟨.getContent _, getContent d _⟩
      cases hread : getContent d v.number.toInt16.toInt32 with
      | none => trivial
      | some content => exact hd.genuine hread

/-- The errand of a peer goes on, and may have added to its directory. -/
theorem Member.Sound.pursue (hm : m.Sound nodes cut i ph) (hv : m.errand = some v) {d : Directory} {v' : Errand ι}
    (hhas : ∀ n, (nodes i).Has m.files n → (nodes i).Has d n) (hd : Intact nodes cut i d)
    (hnumber : v'.number = v.number) (hproceeds : v'.Proceeds nodes cut rph) (hstored : rph.stored = true → (nodes i).Stores d v'.number)
    (hvacant : rph.stored = false → cut ∨ fileName v'.number ∉ d) :
    ({ m with files := d, errand := some v' } : Member ι).Sound nodes cut i ph where
  client := hm.client
  known n hn := hhas n (hm.known n hn)
  missing n hn := by
    obtain ⟨hpos, hnew, -⟩ := hm.missing n hn
    exact ⟨hpos, hnew, nofun⟩
  named := hm.named
  session := by
    obtain ⟨place, hsession, hpasses, hlast⟩ := hm.session
    exact ⟨place, hsession, hpasses.mono fun _ _ _ ↦ Place.Moves.mono hhas, fun n hn ↦ hhas n (hlast n hn)⟩
  errand := by
    rintro _ ⟨⟩
    exact ⟨hnumber ▸ (hm.errand v hv).1, rph, hproceeds, hstored, hvacant⟩
  past := hm.past
  files := hd

/-- What the requester may store keeps the directory. -/
theorem Member.Sound.keeps (hm : m.Sound nodes cut i ph) (hv : m.errand = some v) {content : StdString}
    (hcontent : Genuine nodes cut (Encounter.asked v.number) content) :
    0 < v.number ∧ Intact nodes cut i (RFCManager.addRfc (nodes i).canOpen m.files v.number content).2 := by
  obtain ⟨hpos, hnew, -⟩ := hm.missing _ (hm.missing_of_wanted (hm.errand v hv).1)
  exact ⟨hpos, hm.files.addRfc hpos hnew hcontent⟩

/-- **The requester moves**: it stores what is genuine, where there was nothing from the start. -/
theorem Member.Sound.requester_act (hm : m.Sound nodes cut i ph) (hv : m.errand = some v)
    {e : Endpoint (Proc.straight peerSig Bool) (peerEnv (nodes i).canOpen fun _ ↦ memory)} {rest out : List Frame}
    (hact : (⟨v.requester, ⟨m.files, 0⟩, []⟩ :
      Endpoint (Proc.straight peerSig Bool) (peerEnv (nodes i).canOpen fun _ ↦ memory)).act v.toRequester =
        some (e, rest, out)) :
    (∀ n, (nodes i).Has m.files n → (nodes i).Has e.env.files n) ∧
    ({ m with
      files := e.env.files,
      errand := some { v with requester := e.code, toRequester := rest, toResponder := v.toResponder ++ out } } :
      Member ι).Sound nodes cut i ph := by
  obtain ⟨code, s, log⟩ := e
  obtain ⟨hwanted, rph, ⟨hrequester, hresponder⟩, hstored, hvacant⟩ := hm.errand v hv
  obtain ⟨ph', hresponds, hasks, hanswers⟩ := hresponder
  have hloop : (Proc.straight peerSig Bool).Obeys
      (requesterMonitor v.number (Genuine nodes cut (Encounter.asked v.number))) RequesterPhase.AtEnd :=
    fun _ x ↦ x.elim
  obtain ⟨_, -, htakes⟩ := Monitor.Takes.of_act hloop hrequester hact
  cases htakes with
  | loop hcode =>
    rw [List.append_nil]
    exact ⟨fun _ h ↦ h, hm.pursue hv (fun _ h ↦ h) hm.files rfl ⟨hcode, ph', hresponds, hasks, hanswers⟩ hstored
      hvacant⟩
  | send hsends hcode =>
    obtain ⟨ask, hmoves, rfl⟩ := hsends
    exact ⟨fun _ h ↦ h, hm.pursue hv (fun _ h ↦ h) hm.files rfl
      ⟨hcode, ph', hresponds, hasks.append hmoves, hanswers⟩ hstored hvacant⟩
  | recv heq hcode =>
    rw [heq] at hanswers
    obtain ⟨answer, hmoves, hanswers⟩ := hanswers.head
    rw [List.append_nil]
    exact ⟨fun _ h ↦ h, hm.pursue hv (fun _ h ↦ h) hm.files rfl
      ⟨hcode _ ⟨answer, hmoves, rfl⟩, ph', hresponds, hasks, hanswers⟩ hstored hvacant⟩
  | @call op r _ hop hr hcode =>
    obtain ⟨rfl, rfl⟩ := Prod.mk.inj (Option.some_inj.mp hr)
    rw [List.append_nil]
    cases op with
    | newBytes n | getContent n | disconnect | close =>
      exact ⟨fun _ h ↦ h, hm.pursue hv (fun _ h ↦ h) hm.files rfl
        ⟨hcode rph rfl, ph', hresponds, hasks, hanswers⟩ hstored hvacant⟩
    | addRfc n content =>
      obtain ⟨rfl, hgenuine, -⟩ := hop
      obtain ⟨hpos, hkept⟩ := hm.keeps hv hgenuine
      have hhas : ∀ n, (nodes i).Has m.files n →
          (nodes i).Has (RFCManager.addRfc (nodes i).canOpen m.files v.number content).2 n :=
        fun _ h ↦ h.addRfc
      exact ⟨hhas, hm.pursue hv hhas hkept rfl ⟨hcode _ rfl, ph', hresponds, hasks, hanswers⟩
        (fun _ ↦ (nodes i).stores_addRfc) nofun⟩

/-- **A file is half-written.** -/
theorem Member.Sound.write (hm : m.Sound nodes cut i ph) (hcut : cut) (hv : m.errand = some v)
    {file : Int32 × StdString} (hfile : storing v.requester = some file) (len : ℕ) :
    (∀ n, (nodes i).Has m.files n →
      (nodes i).Has (RFCManager.addRfc (nodes i).canOpen m.files file.1 (file.2.take len)).2 n) ∧
    ({ m with
      files := (RFCManager.addRfc (nodes i).canOpen m.files file.1 (file.2.take len)).2 } : Member ι).Sound
        nodes cut i ph := by
  obtain ⟨hwanted, rph, hproceeds, hstored, -⟩ := hm.errand v hv
  obtain ⟨n, content⟩ := file
  obtain ⟨k, hcode⟩ : ∃ k, v.requester = .callThen (.addRfc n content) k := by
    unfold storing at hfile
    split at hfile
    · obtain ⟨rfl, rfl⟩ := Prod.mk.inj (Option.some_inj.mp hfile)
      exact ⟨_, by assumption⟩
    · cases hfile
  have hrequester := hproceeds.requester
  rw [hcode] at hrequester
  obtain ⟨⟨rfl, hgenuine, -⟩, -⟩ := hrequester
  obtain ⟨-, hkept⟩ := hm.keeps hv (hgenuine.take hcut len)
  have hhas : ∀ n, (nodes i).Has m.files n →
      (nodes i).Has (RFCManager.addRfc (nodes i).canOpen m.files v.number (content.take len)).2 n :=
    fun _ h ↦ h.addRfc
  have hm' := hm.pursue hv hhas hkept rfl hproceeds (fun h ↦ (hstored h).addRfc) fun _ ↦ .inl hcut
  rw [← hv] at hm'
  exact ⟨hhas, hm'⟩

end

/-! ## The network -/

namespace Network

variable {w w' : Network ι} [DecidableEq ι]

section
variable {m : Member ι}

@[simp] theorem set_member_self : (w.set i m).member i = m := Function.update_self ..

theorem set_member_of_ne {j : ι} (h : j ≠ i) : (w.set i m).member j = w.member j := Function.update_of_ne h ..

/-- A directory that stays as it is. -/
theorem setFiles_self (w : Network ι) (j : ι) : w.setFiles j (w.member j).files = w :=
  congrArg (Network.mk w.index) (Function.update_eq_self j w.member)

/-- Nor do those of the others change. -/
theorem set_member_files (hm : m.files = (w.member i).files) (j : ι) :
    ((w.set i m).member j).files = (w.member j).files := by
  by_cases hj : j = i
  · subst hj
    rw [set_member_self, hm]
  · rw [set_member_of_ne hj]

theorem setFiles_set_self {j : ι} (hm : m.files = (w.member i).files) :
    (w.set i m).setFiles j (w.member j).files = w.set i m := by
  rw [← set_member_files hm, setFiles_self]

/-- One peer moves, and loses nothing. -/
theorem Sound.set (h : w.Sound nodes cut) {ph : ClientPhase} (hm : m.Sound nodes cut i ph)
    (hhas : ∀ n, (nodes i).Has (w.member i).files n → (nodes i).Has m.files n) : (w.set i m).Sound nodes cut where
  members j := by
    by_cases hj : j = i
    · subst hj
      rw [set_member_self]
      exact ⟨ph, hm⟩
    · rw [set_member_of_ne hj]
      exact h.members j
  index r hr := by
    obtain ⟨j, hpeer, hj⟩ := h.index r hr
    refine ⟨j, hpeer, ?_⟩
    by_cases hji : j = i
    · subst hji
      rw [set_member_self]
      exact hhas _ hj
    · rwa [set_member_of_ne hji]

end

/-- One peer moves, and no directory changes. -/
theorem Sound.set_kept (h : w.Sound nodes cut) {m : Member ι} {ph : ClientPhase} (hm : m.Sound nodes cut i ph)
    (hfiles : m.files = (w.member i).files) (j : ι) :
    ((w.set i m).setFiles j (w.member j).files).Sound nodes cut := by
  rw [setFiles_set_self hfiles]
  exact h.set hm fun _ hn ↦ hfiles ▸ hn

omit [DecidableEq ι] in
theorem sound_init (nodes : ι → Node) (cut : Prop) : (init nodes).Sound nodes cut where
  members i := by
    refine ⟨⟨.version, (nodes i).rfcs, none, []⟩, clientStart_obeys (nodes i).length_lt (nodes i).rfcs,
      fun n hn ↦ .inl ((nodes i).lists_rfcs hn), nofun, nofun, ⟨.version, clientHandler_obeys, .nil _, nofun⟩, nofun, ?_,
      intact_init nodes cut i⟩
    exact fun v hv ↦ absurd hv List.not_mem_nil
  index r hr := absurd hr List.not_mem_nil

omit [DecidableEq ι] in
/-- The responder of an errand moves, and leaves all directories as they are. -/
theorem Sound.respond (h : w.Sound nodes cut) {v : Errand ι} {rph : RequesterPhase} (hv : v.Proceeds nodes cut rph)
    {memory : ℕ → UInt8} {t : Errand ι × Directory} (ht : w.respond nodes v memory = some t) :
    t.1.Proceeds nodes cut rph ∧ t.1.number = v.number ∧ t.2 = (w.member v.target).files := by
  obtain ⟨⟨e, rest, out⟩, hact, rfl⟩ := Option.map_eq_some_iff.mp ht
  obtain ⟨ph, hm⟩ := h.members v.target
  obtain ⟨hfiles, hproceeds⟩ := hv.respond hm.files hact
  exact ⟨hproceeds, rfl, hfiles⟩

/-- **One event.** -/
theorem Sound.step (h : w.Sound nodes cut) {e : Happening ι} (hcut : ∀ j len, e = .write j len → cut)
    (hstep : w.step nodes e = some w') : w'.Sound nodes cut := by
  cases e with
  | client i memory command =>
    obtain ⟨⟨e, rest, out⟩, hact, rfl⟩ := Option.map_eq_some_iff.mp hstep
    obtain ⟨ph, hm⟩ := h.members i
    obtain ⟨hfiles, ph', hm'⟩ := hm.client_act hact
    exact h.set hm' fun n hn ↦ hfiles ▸ hn
  | session i memory =>
    obtain ⟨⟨e, rest, out⟩, hact, rfl⟩ := Option.map_eq_some_iff.mp hstep
    obtain ⟨ph, hm⟩ := h.members i
    obtain ⟨hindex, hm'⟩ := hm.session_act hact
    have hset := h.set hm' fun _ hn ↦ hn
    refine ⟨hset.members, fun r hr ↦ ?_⟩
    rcases hindex r hr with hold | ⟨hpeer, hhas⟩
    · exact hset.index r hold
    · refine ⟨i, hpeer, ?_⟩
      show (nodes i).Has ((w.set i _).member i).files r.rfc
      rw [set_member_self]
      exact hhas
  | connect i target =>
    obtain ⟨ph, hm⟩ := h.members i
    simp only [Network.step] at hstep
    split at hstep
    · cases hstep
    · rename_i hnone
      obtain ⟨n, hwanted, rfl⟩ := Option.map_eq_some_iff.mp hstep
      exact h.set (hm.connect hnone hwanted target) fun _ hn ↦ hn
  | requester i memory =>
    obtain ⟨v, hv, hstep⟩ := Option.bind_eq_some_iff.mp hstep
    obtain ⟨⟨e, rest, out⟩, hact, rfl⟩ := Option.map_eq_some_iff.mp hstep
    obtain ⟨ph, hm⟩ := h.members i
    obtain ⟨hhas, hm'⟩ := hm.requester_act hv hact
    exact h.set hm' hhas
  | write i len =>
    obtain ⟨v, hv, hstep⟩ := Option.bind_eq_some_iff.mp hstep
    obtain ⟨file, hfile, rfl⟩ := Option.map_eq_some_iff.mp hstep
    obtain ⟨ph, hm⟩ := h.members i
    obtain ⟨hhas, hm'⟩ := hm.write (hcut i len rfl) hv hfile len
    exact h.set hm' hhas
  | responder i memory =>
    obtain ⟨v, hv, hstep⟩ := Option.bind_eq_some_iff.mp hstep
    obtain ⟨t, ht, rfl⟩ := Option.map_eq_some_iff.mp hstep
    obtain ⟨ph, hm⟩ := h.members i
    obtain ⟨-, rph, hproceeds, hstored, hvacant⟩ := hm.errand v hv
    obtain ⟨hproceeds', hnumber, hfiles⟩ := h.respond hproceeds ht
    rw [← hnumber] at hstored hvacant
    have hm' := hm.pursue hv (fun _ hn ↦ hn) hm.files hnumber hproceeds' hstored hvacant
    rw [hfiles]
    exact h.set_kept hm' rfl v.target
  | straggler i k memory =>
    obtain ⟨v, hv, hstep⟩ := Option.bind_eq_some_iff.mp hstep
    obtain ⟨t, ht, rfl⟩ := Option.map_eq_some_iff.mp hstep
    obtain ⟨ph, hm⟩ := h.members i
    obtain ⟨rph, hproceeds⟩ := hm.past v (List.mem_of_getElem? hv)
    obtain ⟨hproceeds', -, hfiles⟩ := h.respond hproceeds ht
    have hm' : ({ w.member i with past := (w.member i).past.set k t.1 } : Member ι).Sound nodes cut i ph := by
      refine { hm with past := fun v' hv' ↦ ?_ }
      rcases List.mem_or_eq_of_mem_set hv' with hold | rfl
      · exact hm.past v' hold
      · exact ⟨rph, hproceeds'⟩
    rw [hfiles]
    exact h.set_kept hm' rfl v.target

/-- Some file has been there half-written. -/
def Cut {ι : Type} (es : List (Happening ι)) : Prop := ∃ j len, .write j len ∈ es

/-- **All runs are sound** in every state. -/
theorem allStates_of_sound {es : List (Happening ι)} {P : Network ι → Prop}
    (hP : ∀ w : Network ι, w.Sound nodes (Cut es) → P w) : AllStates (Network.step nodes) P (init nodes) es :=
  AllStates.of_steps (fun _ _ _ hw hcut hs ↦ hw.step hcut hs) hP (sound_init nodes (Cut es))
    (AllSteps.of_mem fun _ _ he j len heq ↦ ⟨j, len, heq ▸ he⟩)

/-! ## What follows -/

/-- **A peer never loses or changes a file**, and whatever it gets is a copy of what some peer had under the number
that was asked for: in every state of every run, whatever the users do, however the frames of all connections are
interleaved, and wherever these lead.  A copy may be cut short only if some file was there half-written. -/
theorem files_kept (nodes : ι → Node) (es : List (Happening ι)) (i : ι) :
    AllStates (Network.step nodes) (fun w ↦ Intact nodes (Cut es) i (w.member i).files) (init nodes) es := by
  refine allStates_of_sound fun w hw ↦ ?_
  obtain ⟨ph, hm⟩ := hw.members i
  exact hm.files

/-- **Nothing is stored over a file**: where a peer is about to store what it got, there is no file of that number yet,
as long as no file has been there half-written. -/
theorem stores_anew (nodes : ι → Node) (es : List (Happening ι)) (i : ι) :
    AllStates (Network.step nodes) (fun w ↦ ∀ v n content k, (w.member i).errand = some v →
      v.requester = .callThen (.addRfc n content) k → Cut es ∨ fileName n ∉ (w.member i).files) (init nodes) es := by
  refine allStates_of_sound fun w hw v n content k hv hcode ↦ ?_
  obtain ⟨ph, hm⟩ := hw.members i
  obtain ⟨-, rph, hproceeds, -, hvacant⟩ := hm.errand v hv
  have hrequester := hproceeds.requester
  rw [hcode] at hrequester
  obtain ⟨rfl, -, hstored⟩ := hrequester.1
  exact hvacant hstored

omit [DecidableEq ι] in
/-- A peer that has an RFC has its file, if it can write to its directory, which has nothing but RFCs in it. -/
theorem Sound.hasFile (hw : w.Sound nodes cut) (htidy : ∀ j, Tidy (nodes j).files)
    (hopen : ∀ j name, (nodes j).canOpen name = true) {n : Int32} (h : (nodes i).Has (w.member i).files n) :
    HasFile (w.member i).files n := by
  rcases h with hlists | hclosed
  · obtain ⟨ph, hm⟩ := hw.members i
    exact ((hm.files.tidy (htidy i)).hasFile hlists).2
  · rw [hopen] at hclosed
    cases hclosed

/-- Two peers, one of which has the RFC 7. -/
def couple : Bool → Node
  | false => ⟨[104], by decide, 1, AList.singleton (fileName 7) [65, 66], [7], by decide +kernel, fun _ ↦ true⟩
  | true => ⟨[105], by decide, 2, ∅, [], by decide +kernel, fun _ ↦ true⟩

theorem couple_tidy (i : Bool) : Tidy (couple i).files := by
  intro name hname
  obtain ⟨hmem, -⟩ := mem_items.mp hname
  cases i with
  | false => exact ⟨7, by decide, by simpa [couple] using hmem⟩
  | true => exact absurd hmem (AList.notMem_empty _)

/-- The one announces it, and the other gets it and announces it as well. -/
def sharing : List (Happening Bool) :=
  let client (who : Bool) : Happening Bool := .client who (fun _ ↦ 0) (.get 7)
  let session (who : Bool) : Happening Bool := .session who fun _ ↦ 0
  let requester : Happening Bool := .requester true fun _ ↦ 0
  let responder : Happening Bool := .responder true fun _ ↦ 0
  [client false, session false, session false] ++ List.replicate 7 (client false) ++
    List.replicate 12 (session false) ++ [client true, session true, session true] ++
    List.replicate 10 (client true) ++ List.replicate 13 (session true) ++ List.replicate 3 (client true) ++
    [.connect true false] ++ List.replicate 6 requester ++ List.replicate 12 responder ++
    [requester, requester, .write true 1] ++ List.replicate 3 requester ++ [responder] ++
    List.replicate 4 (client true) ++ List.replicate 6 (session true)

/-- A program has not been left by an exception. -/
def unraised {S : Sig} {α : Type} : Prog S α → Bool
  | .raise _ => false
  | _ => true

/-- `main` has not come to its end. -/
def goesOn : clientMain.Code → Bool
  | .raise _ => false
  | .done (.inr _) => false
  | _ => true

/-- All threads of the two peers go on. -/
def allGoOn (w : Network Bool) : Bool :=
  [false, true].all fun j ↦ goesOn (w.member j).client && unraised (w.member j).session &&
    (w.member j).errand.all (fun v ↦ unraised v.requester && unraised v.responder) &&
    (w.member j).past.all fun v ↦ unraised v.responder

theorem ne_raise_of_unraised {S : Sig} {α : Type} {p : Prog S α} (h : unraised p = true) (err : S.Err) :
    p ≠ .raise err := by
  rintro rfl
  cases h

theorem runs_of_allGoOn {w : Network Bool} (h : allGoOn w = true) :
    (∀ i, w.Runs i) ∧ w.ServerRuns none := by
  have hall : ∀ j, ((goesOn (w.member j).client = true ∧ unraised (w.member j).session = true) ∧
      (w.member j).errand.all (fun v ↦ unraised v.requester && unraised v.responder) = true) ∧
      (w.member j).past.all (fun v ↦ unraised v.responder) = true := fun j ↦ by
    have hj := List.all_eq_true.mp h j (by cases j <;> simp)
    simpa only [Bool.and_eq_true] using hj
  refine ⟨fun i ↦ ⟨⟨fun a ha ↦ ?_, fun err hraise ↦ ?_, fun v hv err ↦ ?_⟩, fun j u hu _ _ err ↦ ?_⟩,
    fun j _ err ↦ ne_raise_of_unraised (hall j).1.1.2 err⟩
  · have hgoes := (hall i).1.1.1
    rw [ha] at hgoes
    cases hgoes
  · have hgoes := (hall i).1.1.1
    rw [hraise] at hgoes
    cases hgoes
  · have herrand := (hall i).1.2
    rw [hv, Option.all_some, Bool.and_eq_true] at herrand
    exact ne_raise_of_unraised herrand.1 err
  · rcases hu with hu | hu
    · have herrand := (hall j).1.2
      rw [hu, Option.all_some, Bool.and_eq_true] at herrand
      exact ne_raise_of_unraised herrand.2 err
    · exact ne_raise_of_unraised (List.all_eq_true.mp (hall j).2 u hu) err

end Network

end RfcNet
