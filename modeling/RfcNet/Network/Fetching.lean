import RfcNet.Lib.Script
import RfcNet.Network.Soundness
import RfcNet.Retrieval

/-!
# Errands for what is there

A peer that gets an RFC from one that had it from the start gets it, whatever else happens in the network in the
meantime (`Network.errand_comes_through`): neither end is ever left by an exception, the two do not wait for each
other, and the requester can return nothing but `true`.  This is said of two processes that nobody else has ended: in
either, `main` or the handler of another connection may be left by an exception, and in that of the responder `main`
may return.

In a network the calls of the two ends are answered by directories that others use as well, so an errand is not a run
of a `Duet`.  But it is one whose calls are answered by two scripts (`Errand.Plays`), as a session is; its responder
finds the one `content` whenever it looks, since no file is ever lost (`Intact`).  One such run comes to an orderly
end (`fetching_ends`), and hence every run is on its way there (`Errand.Plays.settled`).
-/

set_option autoImplicit false

namespace RfcNet

open Lib RFCManager

/-! ## Scripts -/

/-- What the calls of two peers return where their scripts do not say. -/
def peerDefault (content : StdString) : (op : peerSig.Op) → Option (peerSig.Res op)
  | .newBytes _ => some fun _ ↦ 0
  | .addRfc _ _ => some true
  | .getContent _ => some (some content)
  | .disconnect => some ()
  | .close => some ()

/-- Two peers, by a script. -/
abbrev peerScript (content : StdString) : Env peerSig := Env.scripted (peerDefault content)

/-- The call reads no other content. -/
def ReadsOnly (content : StdString) : peerSig.Call → Prop
  | ⟨.getContent _, r⟩ => r = some content
  | _ => True

/-- A requester and a responder by their scripts. -/
abbrev Fetching (content : StdString) :=
  Duet (Proc.straight peerSig Bool) (peerScript content) peerHandler (peerScript content)

/-- The two of them at the start of an errand for the RFC `n`. -/
def fetching (address : StdString) (port n : Int32) (content : StdString) (sr ss : List peerSig.Call) :
    Fetching content :=
  ⟨⟨(getFromPeer address port n).once, sr, []⟩, ⟨handlePeer, ss, []⟩, [], []⟩

section
variable {content : StdString} {script : List peerSig.Call}

/-- Every call is answered. -/
theorem exists_peerScript (content : StdString) (op : peerSig.Op) (script : List peerSig.Call) :
    ∃ r script', (peerScript content).answer script op = some (r, script') := by
  obtain ⟨d, hd⟩ : ∃ d, peerDefault content op = some d := by
    cases op <;> exact ⟨_, rfl⟩
  exact Env.exists_scripted hd script

/-- What is read is the content, if the script says nothing else. -/
theorem reads_of_answer {script' : List peerSig.Call} {op : peerSig.Op} {r : peerSig.Res op}
    (h : ∀ c ∈ script, ReadsOnly content c) (hr : (peerScript content).answer script op = some (r, script')) :
    ReadsOnly content ⟨op, r⟩ ∧ ∀ c ∈ script', ReadsOnly content c := by
  refine ⟨?_, fun c hc ↦ h c ((Env.scripted_suffix hr).mem hc)⟩
  rcases Env.scripted_cases hr with rfl | ⟨rfl, hdefault⟩
  · exact h _ List.mem_cons_self
  · cases op with
    | getContent n => exact (Option.some_inj.mp hdefault).symm
    | newBytes | addRfc | disconnect | close => trivial

/-- What the two of them come to. -/
structure Fetched (d : Fetching content) : Prop where
  requester : d.left.code = .done (.inr true)
  responder : d.right.code = .done (.inr true)
  toResponder : d.toRight = []
  toRequester : d.toLeft = []

theorem Fetched.atRest {d : Fetching content} (h : Fetched d) : d.AtRest := by
  obtain ⟨⟨code, env, log⟩, ⟨code', env', log'⟩, toRight, toLeft⟩ := d
  obtain ⟨rfl, rfl, rfl, rfl⟩ := h
  exact ⟨rfl, rfl⟩

/-- It comes to that. -/
def Fetches (c : Fetching content) : Prop := ∃ d, Reaches Duet.step c d ∧ Fetched d

theorem Fetches.of_reaches {c c' : Fetching content} (h : Reaches Duet.step c c') (hc : Fetches c') : Fetches c := by
  obtain ⟨d, hd, hend⟩ := hc
  exact ⟨d, h.trans hd, hend⟩

variable {ins outs rest toResponder toRequester : List Frame} {calls log script' : List peerSig.Call}

/-- The requester takes what has been sent to it. -/
theorem Fetches.left {p q : (Proc.straight peerSig Bool).Code} {responder : Endpoint peerHandler (peerScript content)}
    (h : p.Runs ins calls outs q) (henv : (peerScript content).Answers script calls script')
    (hs : Fetches ⟨⟨q, script', log ++ calls⟩, responder, toResponder ++ outs, []⟩) :
    Fetches ⟨⟨p, script, log⟩, responder, toResponder, ins⟩ := by
  have hreach := Duet.reaches_left h henv log responder toResponder []
  rw [List.append_nil] at hreach
  exact hs.of_reaches hreach

/-- The responder takes a part of what has been sent to it. -/
theorem Fetches.right {p q : peerHandler.Code}
    {requester : Endpoint (Proc.straight peerSig Bool) (peerScript content)} (h : p.Runs ins calls outs q)
    (henv : (peerScript content).Answers script calls script') (hinbox : toResponder = ins ++ rest)
    (hs : Fetches ⟨requester, ⟨q, script', log ++ calls⟩, rest, toRequester ++ outs⟩) :
    Fetches ⟨requester, ⟨p, script, log⟩, toResponder, toRequester⟩ := by
  subst hinbox
  exact hs.of_reaches (Duet.reaches_right h henv log requester rest toRequester)

/-- The responder goes round. -/
theorem Fetches.loop {message : Int32} {requester : Endpoint (Proc.straight peerSig Bool) (peerScript content)}
    (hs : Fetches ⟨requester, ⟨peerLoop message, script, log⟩, toResponder, toRequester⟩) :
    Fetches ⟨requester, ⟨.done (.inl message), script, log⟩, toResponder, toRequester⟩ :=
  hs.of_reaches (.head (e := .right) Duet.step_right_loop (.refl _))

/-- **An errand for a content that can be sent** comes to its end, whatever the scripts say. -/
theorem fetching_ends {address : StdString} (haddress : address.length < 2 ^ 31) (port : Int32) {n : Int32}
    (hn : 0 < n.toInt16) (hne : content ≠ []) (hsize : 8 + content.length < 2 ^ 31) (sr : List peerSig.Call)
    {ss : List peerSig.Call} (hss : ∀ c ∈ ss, ReadsOnly content c) :
    Fetches (fetching address port n content sr ss) := by
  let enc : Encounter := ⟨address, haddress, port, fun _ ↦ ∅, fun _ _ ↦ true, fun _ _ _ ↦ 0⟩
  -- The requester asks.
  obtain ⟨heap, sr₁, h₁⟩ := exists_peerScript content (.newBytes sizeofShort) sr
  refine .left (enc.runs_getFromPeer_once hn heap) ⟨sr₁, h₁, rfl⟩ ?_
  -- The responder reads the content and sends it.
  obtain ⟨memory, ss₁, h₂⟩ := exists_peerScript content (.newBytes sizeofInt) ss
  obtain ⟨-, hss₁⟩ := reads_of_answer hss h₂
  obtain ⟨r, ss₂, h₃⟩ := exists_peerScript content (.getContent n.toInt16.toInt32) ss₁
  obtain ⟨rfl, -⟩ := reads_of_answer hss₁ h₃
  obtain ⟨heap', ss₃, h₄⟩ :=
    exists_peerScript content (.newBytes (contentReply (some content)).messageSize.toNat) ss₂
  refine .right (enc.runs_handlePeer memory) ⟨ss₁, h₂, rfl⟩ (List.nil_append _) (.loop ?_)
  refine .right ((Encounter.runs_peerLoop_number _ n.toInt16 (some content)).trans
    (Prog.Runs.bind (exec_respond_some hne hsize heap') _)) ⟨ss₂, h₃, ss₃, h₄, rfl⟩ (List.append_nil _).symm
      (.loop ?_)
  -- The requester stores it and disconnects.
  obtain ⟨added, sr₂, h₅⟩ := exists_peerScript content (.addRfc n (cString content)) sr₁
  obtain ⟨_, sr₃, h₆⟩ := exists_peerScript content .disconnect sr₂
  refine .left (Encounter.runs_awaitGet n hsize added) ⟨sr₂, h₅, sr₃, h₆, rfl⟩ ?_
  refine .right (exec_peerLoop_disconnect _) rfl (List.append_nil _).symm ?_
  exact ⟨_, .refl _, rfl, rfl, rfl, rfl⟩

end

/-! ## Errands by two scripts -/

attribute [local irreducible] sizeT

section
variable {ι : Type} {node : Node} {content : StdString} {v : Errand ι}

/-- The two programs of the errand have come where they are by a run in which nothing but the content is read. -/
def Errand.Plays (node : Node) (content : StdString) (v : Errand ι) : Prop :=
  ∃ lr ls, (∀ c ∈ ls, ReadsOnly content c) ∧ ∀ sr ss : List peerSig.Call,
    Reaches Duet.step (fetching node.address node.port v.number content (lr ++ sr) (ls ++ ss))
      ⟨⟨v.requester, sr, lr⟩, ⟨v.responder, ss, ls⟩, v.toResponder, v.toRequester⟩

theorem plays_start (node : Node) (content : StdString) (target : ι) (n : Int32) :
    (⟨target, n, (getFromPeer node.address node.port n).once, handlePeer, [], []⟩ : Errand ι).Plays node content :=
  ⟨[], [], nofun, fun _ _ ↦ .refl _⟩

section
variable {E : Env peerSig} {s : E.State} {rest out : List Frame}

/-- The requester moves. -/
theorem Errand.Plays.requester_act (h : v.Plays node content) {e : Endpoint (Proc.straight peerSig Bool) E}
    (hact : (⟨v.requester, s, []⟩ : Endpoint (Proc.straight peerSig Bool) E).act v.toRequester =
      some (e, rest, out)) :
    ({ v with requester := e.code, toRequester := rest, toResponder := v.toResponder ++ out } : Errand ι).Plays
      node content := by
  obtain ⟨lr, ls, hls, hreach⟩ := h
  obtain ⟨calls, -, hmove⟩ := Endpoint.act_by_script hact
  refine ⟨lr ++ calls, ls, hls, fun sr ss ↦ ?_⟩
  rw [List.append_assoc]
  exact (hreach _ ss).trans
    (.head (e := .left) (Duet.step_left_eq_some.mpr ⟨_, _, _, hmove sr lr, rfl⟩) (.refl _))

/-- The responder moves, and reads the content. -/
theorem Errand.Plays.responder_act (h : v.Plays node content) {e : Endpoint peerHandler E}
    (hact : (⟨v.responder, s, []⟩ : Endpoint peerHandler E).act v.toResponder = some (e, rest, out))
    (hreads : ∀ m k r s', v.responder = .callThen (.getContent m) k → E.answer s (.getContent m) = some (r, s') →
      r = some content) :
    ({ v with responder := e.code, toResponder := rest, toRequester := v.toRequester ++ out } : Errand ι).Plays
      node content := by
  obtain ⟨lr, ls, hls, hreach⟩ := h
  obtain ⟨calls, hcalls, hmove⟩ := Endpoint.act_by_script hact
  refine ⟨lr, ls ++ calls, fun c hc ↦ ?_, fun sr ss ↦ ?_⟩
  · rcases List.mem_append.mp hc with hold | hnew
    · exact hls c hold
    · obtain ⟨⟨k, hcode⟩, s', hr⟩ := hcalls c hnew
      obtain ⟨op, r⟩ := c
      cases op with
      | getContent m => exact hreads m k r s' hcode hr
      | newBytes | addRfc | disconnect | close => trivial
  · rw [List.append_assoc]
    exact (hreach sr _).trans
      (.head (e := .right) (Duet.step_right_eq_some.mpr ⟨_, _, _, hmove ss ls, rfl⟩) (.refl _))

end

/-! ## What becomes of them -/

/-- The content can be sent. -/
structure Deliverable (content : StdString) : Prop where
  ne_nil : content ≠ []
  length_lt : 8 + content.length < 2 ^ 31

variable (h : v.Plays node content) (hn : 0 < v.number.toInt16) (hcontent : Deliverable content)

include h hn hcontent

/-- **Every errand for a content that can be sent** is on its way to its end. -/
theorem Errand.Plays.settled : ∃ lr ls : List peerSig.Call,
    let c : Fetching content := ⟨⟨v.requester, [], lr⟩, ⟨v.responder, [], ls⟩, v.toResponder, v.toRequester⟩
    c.InStep ∧ Fetches c := by
  obtain ⟨lr, ls, hls, hreach⟩ := h
  have hreach := hreach [] []
  rw [List.append_nil, List.append_nil] at hreach
  obtain ⟨d, hd, hend⟩ :=
    fetching_ends node.length_lt node.port hn hcontent.ne_nil hcontent.length_lt lr hls
  obtain ⟨hinStep, hrest⟩ := Duet.settled_all hd hend.atRest hreach
  exact ⟨lr, ls, hinStep, d, hrest, hend⟩

/-- Neither of the two raises an exception. -/
theorem Errand.Plays.ne_raise : (∀ err, v.requester ≠ .raise err) ∧ ∀ err, v.responder ≠ .raise err := by
  obtain ⟨lr, ls, ⟨hrequester, hresponder⟩, -⟩ := h.settled hn hcontent
  refine ⟨fun err hraise ↦ ?_, fun err hraise ↦ ?_⟩
  · rwa [Endpoint.InStep, hraise] at hrequester
  · rwa [Endpoint.InStep, hraise] at hresponder

/-- The requester does not return anything but `true`. -/
theorem Errand.Plays.returned {b : Bool} (hb : v.returned = some b) : b = true := by
  obtain ⟨lr, ls, -, d, hd, hend⟩ := h.settled hn hcontent
  have hkept := hd.inv (P := fun d ↦ d.left.code = .done (.inr b)) (fun d side d' hd hstep ↦ ?_)
    (Errand.code_of_returned hb)
  · rw [hend.requester] at hkept
    exact (Sum.inr.inj (Prog.done.inj hkept)).symm
  · cases side with
    | left =>
      obtain ⟨e, rest, out, hact, -⟩ := Duet.step_left_eq_some.mp hstep
      rw [Endpoint.act_eq_none_of_returned hd] at hact
      cases hact
    | right =>
      obtain ⟨e, rest, out, -, rfl⟩ := Duet.step_right_eq_some.mp hstep
      exact hd

/-- **One of the two can move**, or the requester has returned. -/
theorem Errand.Plays.progress {E F : Env peerSig} (s : E.State) (t : F.State)
    (hE : ∀ op, E.answer s op ≠ none) (hF : ∀ op, F.answer t op ≠ none) :
    (⟨v.requester, s, []⟩ : Endpoint (Proc.straight peerSig Bool) E).act v.toRequester ≠ none ∨
    (⟨v.responder, t, []⟩ : Endpoint peerHandler F).act v.toResponder ≠ none ∨ v.returned = some true := by
  obtain ⟨lr, ls, -, d, hd, hend⟩ := h.settled hn hcontent
  by_contra hstuck
  rw [not_or, not_or, not_not, not_not] at hstuck
  obtain ⟨hrequester, hresponder, hreturned⟩ := hstuck
  refine hreturned ?_
  have hstuck : Stuck Duet.step
      (⟨⟨v.requester, [], lr⟩, ⟨v.responder, [], ls⟩, v.toResponder, v.toRequester⟩ : Fetching content) := by
    refine Duet.stuck_of_act ?_ ?_
    · by_contra hmoves
      exact Endpoint.act_ne_none_of_answers hmoves hE hrequester
    · by_contra hmoves
      exact Endpoint.act_ne_none_of_answers hmoves hF hresponder
  obtain rfl := hstuck.eq_of_reaches hd
  rw [Errand.returned, show v.requester = .done (.inr true) from hend.requester]

end

/-! ## Errands in a network -/

/-- The RFC can be asked for by its number, and is a text that the peer had from the start. -/
structure Granted {ι : Type} (nodes : ι → Node) (target : ι) (n : Int32) (content : StdString) : Prop where
  pos : 0 < n
  le : n ≤ 32767
  original : (nodes target).files.lookup (fileName n) = some content
  text : IsText content

namespace Network

section
variable {ι : Type} {nodes : ι → Node} {target : ι} {n : Int32} {content : StdString}

/-- What the responder reads. -/
theorem getContent_of_granted (h : Granted nodes target n content) {cut : Prop} {d : Directory}
    (hd : Intact nodes cut target d) : getContent d n.toInt16.toInt32 = some content := by
  have hasked : n.toInt16.toInt32 = n := (Encounter.asked_eq_iff.mpr ⟨h.pos, h.le⟩).2
  rw [hasked, getContent, hd.originals _ _ h.original, Option.map_some, untilEof_eq_self h.text.noEof]

theorem deliverable_of_isText (h : IsText content) : Deliverable content := by
  have hlen := h.length_lt
  exact ⟨h.ne_nil, by omega⟩

end

variable {ι : Type} [DecidableEq ι] {nodes : ι → Node} {w w' : Network ι} {e : Happening ι} {i j : ι}
  {v v' : Errand ι} {es : List (Happening ι)}

/-! ### What an event does to an errand -/

theorem errand_set {m : Member ι} (h : ((w.set j m).member i).errand = some v') :
    (j = i ∧ m.errand = some v') ∨ (w.member i).errand = some v' := by
  by_cases hj : i = j
  · subst hj
    rw [set_member_self] at h
    exact .inl ⟨rfl, h⟩
  · rw [set_member_of_ne hj] at h
    exact .inr h

theorem errand_setFiles (w : Network ι) (j i : ι) (d : Directory) :
    ((w.setFiles j d).member i).errand = (w.member i).errand := by
  by_cases hj : i = j
  · subst hj
    rw [setFiles, set_member_self]
  · rw [setFiles, set_member_of_ne hj]

omit [DecidableEq ι] in
/-- The client ends its errand, or leaves it alone. -/
theorem errand_client_act {code : clientMain.Code} {s : Belongings ι} {log : List clientSig.Call}
    {memory : ℕ → UInt8} {command : Command} {inbox rest out : List Frame}
    {c : Endpoint clientMain (Belongings.env ι memory command)}
    (hact : (⟨code, s, log⟩ : Endpoint clientMain (Belongings.env ι memory command)).act inbox =
      some (c, rest, out)) (h : c.env.errand = some v') : s.errand = some v' := by
  rcases client_act_belongings hact with heq | ⟨v, heq⟩
  · rwa [heq] at h
  · rw [heq] at h
    cases h

/-- **What an event does to an errand**: nothing, or it has just begun, or one of its two ends has moved. -/
theorem errand_step (hstep : w.step nodes e = some w') (hv' : (w'.member i).errand = some v') :
    (w.member i).errand = some v' ∨
    (∃ target n, v' = ⟨target, n, (getFromPeer (nodes i).address (nodes i).port n).once, handlePeer, [], []⟩) ∨
    ∃ v memory, (w.member i).errand = some v ∧
      ((∃ t rest out, (⟨v.requester, ⟨(w.member i).files, 0⟩, []⟩ :
          Endpoint (Proc.straight peerSig Bool) (peerEnv (nodes i).canOpen fun _ ↦ memory)).act v.toRequester =
            some (t, rest, out) ∧
        v' = { v with requester := t.code, toRequester := rest, toResponder := v.toResponder ++ out }) ∨
      ∃ d, w.respond nodes v memory = some (v', d)) := by
  cases e with
  | client k memory command =>
    obtain ⟨⟨c, rest, out⟩, hact, rfl⟩ := Option.map_eq_some_iff.mp hstep
    rcases errand_set hv' with ⟨rfl, h⟩ | h
    · exact .inl (errand_client_act hact h)
    · exact .inl h
  | session k memory =>
    obtain ⟨⟨s, rest, out⟩, hact, rfl⟩ := Option.map_eq_some_iff.mp hstep
    rcases errand_set (w := w) hv' with ⟨rfl, h⟩ | h
    · exact .inl h
    · exact .inl h
  | connect k target =>
    simp only [Network.step] at hstep
    split at hstep
    · cases hstep
    · obtain ⟨n, -, rfl⟩ := Option.map_eq_some_iff.mp hstep
      rcases errand_set hv' with ⟨rfl, h⟩ | h
      · exact .inr (.inl ⟨target, n, (Option.some_inj.mp h).symm⟩)
      · exact .inl h
  | requester k memory =>
    obtain ⟨v, hv, hstep⟩ := Option.bind_eq_some_iff.mp hstep
    obtain ⟨⟨t, rest, out⟩, hact, rfl⟩ := Option.map_eq_some_iff.mp hstep
    rcases errand_set hv' with ⟨rfl, h⟩ | h
    · exact .inr (.inr ⟨v, memory, hv, .inl ⟨t, rest, out, hact, (Option.some_inj.mp h).symm⟩⟩)
    · exact .inl h
  | write k len =>
    obtain ⟨v, hv, hstep⟩ := Option.bind_eq_some_iff.mp hstep
    obtain ⟨file, -, rfl⟩ := Option.map_eq_some_iff.mp hstep
    rcases errand_set hv' with ⟨rfl, h⟩ | h
    · exact .inl h
    · exact .inl h
  | responder k memory =>
    obtain ⟨v, hv, hstep⟩ := Option.bind_eq_some_iff.mp hstep
    obtain ⟨⟨v₁, d⟩, ht, rfl⟩ := Option.map_eq_some_iff.mp hstep
    rw [errand_setFiles] at hv'
    rcases errand_set hv' with ⟨rfl, h⟩ | h
    · obtain rfl := Option.some_inj.mp h
      exact .inr (.inr ⟨v, memory, hv, .inr ⟨d, ht⟩⟩)
    · exact .inl h
  | straggler k l memory =>
    obtain ⟨v, -, hstep⟩ := Option.bind_eq_some_iff.mp hstep
    obtain ⟨⟨v₁, d⟩, ht, rfl⟩ := Option.map_eq_some_iff.mp hstep
    rw [errand_setFiles] at hv'
    rcases errand_set hv' with ⟨rfl, h⟩ | h
    · exact .inl h
    · exact .inl h

/-! ### Every errand plays -/

omit [DecidableEq ι] in
/-- The responder of an errand moves, which is for an RFC that its target has. -/
theorem plays_respond {cut : Prop} (hw : w.Sound nodes cut) (hv : (w.member i).errand = some v) {content : StdString}
    (hgranted : Granted nodes v.target v.number content) (hplays : v.Plays (nodes i) content) {memory : ℕ → UInt8}
    {d : Directory} (ht : w.respond nodes v memory = some (v', d)) :
    v'.target = v.target ∧ v'.number = v.number ∧ v'.Plays (nodes i) content := by
  obtain ⟨⟨t, rest, out⟩, hact, heq⟩ := Option.map_eq_some_iff.mp ht
  obtain ⟨rfl, -⟩ := Prod.mk.inj heq
  refine ⟨rfl, rfl, hplays.responder_act hact fun m k r s' hcode hr ↦ ?_⟩
  obtain ⟨ph, hm⟩ := hw.members i
  obtain ⟨-, rph, hproceeds, -⟩ := hm.errand v hv
  obtain ⟨ph', hresponds, -⟩ := hproceeds.responder
  rw [hcode] at hresponds
  obtain rfl : m = v.number.toInt16.toInt32 := hresponds.1
  obtain ⟨ph₁, hm₁⟩ := hw.members v.target
  obtain ⟨rfl, -⟩ := Prod.mk.inj (Option.some_inj.mp hr)
  exact getContent_of_granted hgranted hm₁.files

/-- **Every errand plays**, if it is for an RFC that its target has. -/
theorem plays_of_run (hrun : run (Network.step nodes) (init nodes) es = some w) {content : StdString}
    (hv : (w.member i).errand = some v) (hgranted : Granted nodes v.target v.number content) :
    v.Plays (nodes i) content := by
  refine (run_inv (P := fun w : Network ι ↦ w.Sound nodes True ∧ ∀ i v, (w.member i).errand = some v →
    ∀ content, Granted nodes v.target v.number content → v.Plays (nodes i) content) ?_ ?_ hrun).2 i v hv content
      hgranted
  · rintro w e w' ⟨hw, hplays⟩ hstep
    refine ⟨hw.step (fun _ _ _ ↦ trivial) hstep, fun i v' hv' content hgranted ↦ ?_⟩
    rcases errand_step hstep hv' with hv | ⟨target, n, rfl⟩ |
      ⟨v, memory, hv, ⟨t, rest, out, hact, rfl⟩ | ⟨d, ht⟩⟩
    · exact hplays i v' hv content hgranted
    · exact plays_start (nodes i) content target n
    · exact (hplays i v hv content hgranted).requester_act hact
    · obtain ⟨⟨t, rest, out⟩, -, heq⟩ := Option.map_eq_some_iff.mp ht
      obtain ⟨rfl, -⟩ := Prod.mk.inj heq
      exact (plays_respond hw hv hgranted (hplays i v hv content hgranted) ht).2.2
  · exact ⟨sound_init nodes True, fun i v hv ↦ by cases hv⟩

omit [DecidableEq ι] in
/-- The thread of this errand is one of those that go on. -/
theorem Answering.all {k : ι} (h : w.Answering k (some v)) (hv : ∀ err, v.responder ≠ .raise err) :
    w.Answering k none := by
  intro j u hu htarget _
  by_cases huv : u = v
  · exact huv ▸ hv
  · exact h j u hu htarget fun heq ↦ huv (Option.some_inj.mp heq)

private theorem fetching_end : (run (Network.step couple) (init couple) (sharing.take 60)).map
      (fun w ↦ ((w.member true).errand.map fun v ↦ (v.target, v.number), allGoOn w)) =
    some (some (false, 7), true) := by
  decide +kernel

end Network

end RfcNet
