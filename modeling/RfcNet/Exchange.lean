import RfcNet.Lib.Script
import RfcNet.Requesting

/-!
# One session from its start to its end

A client and the handler of its session, joined by two channels, each with a script of what its
calls return.  This module runs the two of them in one particular order, which is enough: by
`Duet.settled_all` every other order comes to the same.

`Ready N p` says that a client with the code `p` left, facing a handler at the top of its loop, comes
to rest in an orderly way, whatever the scripts say, as long as the client's has at most `N` entries.
It has one rule for each thing a client does, and following these rules along the text of the client
proves `settles_start`.

Where its script ends, the user quits, and the index does not answer: so a request is decoded only if
the script has the answer to it.
-/

set_option autoImplicit false

namespace RfcNet

open Lib

/-! ## What was asked and what was answered -/

/-- The replies that a client has decoded, each with the request it made. -/
def answered (log : List clientSig.Call) : List (Request × Reply) :=
  log.filterMap fun
    | ⟨.decoded request reply, _⟩ => some (request, reply)
    | _ => none

/-- The reply that a result of the index calls for. -/
def snapshot : serverSig.Call → Option (Request × Reply)
  | ⟨.index (.addRfc _ _ n), ok⟩ => some (.add n, .added ⟨if ok then 200 else 400⟩)
  | ⟨.index .allRfcs, l⟩ => some (.list, .listed ⟨if l = [] then 404 else 200, l⟩)
  | ⟨.index (.findRfcs n), l⟩ => some (.lookup n, .lookedUp ⟨if l = [] then 404 else 200, l⟩)
  | _ => none

/-- The requests that a session has served, each with the reply it called for. -/
def served (log : List serverSig.Call) : List (Request × Reply) := log.filterMap snapshot

/-- A result of the index in which every client comes through a reply. -/
def Presentable : serverSig.Call → Prop
  | ⟨.index .allRfcs, l⟩ => ∀ r ∈ l, r.peer.Sound
  | ⟨.index (.findRfcs _), l⟩ => ∀ c ∈ l, c.Sound
  | _ => True

/-- A result of the index whose reply is shorter than `2 ^ 31` bytes. -/
def Small : serverSig.Call → Prop
  | ⟨.index .allRfcs, l⟩ => listSize l < 2 ^ 31
  | ⟨.index (.findRfcs _), l⟩ => lookupSize l < 2 ^ 31
  | _ => True

instance : DecidablePred Small
  | ⟨.index .allRfcs, _⟩ => inferInstanceAs (Decidable (_ < _))
  | ⟨.index (.findRfcs _), _⟩ => inferInstanceAs (Decidable (_ < _))
  | ⟨.index (.addClient _ _), _⟩ => .isTrue trivial
  | ⟨.index (.eraseHolders _ _), _⟩ => .isTrue trivial
  | ⟨.index (.eraseClient _ _), _⟩ => .isTrue trivial
  | ⟨.index (.addRfc _ _ _), _⟩ => .isTrue trivial
  | ⟨.newBytes _, _⟩ => .isTrue trivial
  | ⟨.close, _⟩ => .isTrue trivial

/-- A result of the index that can be sent. -/
def Servable (c : serverSig.Call) : Prop := Presentable c ∧ Small c

/-- A call that registers nobody but the pair. -/
def Announces (address : StdString) (port : Int32) : serverSig.Call → Prop
  | ⟨.index (.addClient h p), _⟩ => h = address ∧ p = port
  | _ => True

theorem answered_append (log log' : List clientSig.Call) :
    answered (log ++ log') = answered log ++ answered log' := List.filterMap_append

theorem served_append (log log' : List serverSig.Call) :
    served (log ++ log') = served log ++ served log' := List.filterMap_append

theorem addReply_eq (ok : Bool) : addReply ok = ⟨if ok then 200 else 400⟩ := by
  cases ok <;> rfl

/-! ## Scripts -/

/-- What the client's calls return where its script does not say. -/
def userDefault : (op : clientSig.Op) → clientSig.Res op
  | .newBytes _ => fun _ ↦ 0
  | .readCommand => .quit
  | .checkIfRfcStored _ => true
  | .getFromPeer _ _ => false
  | .decoded _ _ => ()
  | .disconnect => ()

/-- The same for the session.  Only the script knows what is in the index. -/
def indexDefault : (op : serverSig.Op) → Option (serverSig.Res op)
  | .index (.addClient _ _) => some true
  | .index (.eraseHolders _ _) => some ()
  | .index (.eraseClient _ _) => some ()
  | .index _ => none
  | .newBytes _ => some fun _ ↦ 0
  | .close => some ()

/-- No request is served without the script. -/
theorem snapshot_of_indexDefault {op : serverSig.Op} {r : serverSig.Res op}
    (h : indexDefault op = some r) : snapshot ⟨op, r⟩ = none := by
  match op with
  | .index (.addClient _ _) => rfl
  | .index (.eraseHolders _ _) => rfl
  | .index (.eraseClient _ _) => rfl
  | .index (.addRfc _ _ _) => exact absurd h (by simp [indexDefault])
  | .index (.findRfcs _) => exact absurd h (by simp [indexDefault])
  | .index .allRfcs => exact absurd h (by simp [indexDefault])
  | .newBytes _ => rfl
  | .close => rfl

/-- The user and the peers, by a script. -/
abbrev userScript : Env clientSig := Env.scripted fun op ↦ some (userDefault op)

/-- The index and the allocator, by a script. -/
abbrev indexScript : Env serverSig := Env.scripted indexDefault

/-- A client and a session by their scripts. -/
abbrev Scripted := Duet clientMain userScript handler indexScript

theorem exists_userScript (op : clientSig.Op) (sc : List clientSig.Call) :
    ∃ r sc', userScript.answer sc op = some (r, sc') := Env.exists_scripted rfl sc

/-! ## Coming to rest -/

section
variable {address : StdString} {port : Int32}

/-- What the records of the two sides say when both are at rest. -/
structure Agreed (address : StdString) (port : Int32) (lc : List clientSig.Call)
    (ls : List serverSig.Call) : Prop where
  /-- Every request that was served was answered with what it calls for. -/
  replies : answered lc = served ls
  /-- No other pair was registered. -/
  announces : ∀ c ∈ ls, Announces address port c

/-- The orderly ends of a session: both sides have returned, or the index does not answer. -/
structure Concludes (address : StdString) (port : Int32) (d : Scripted) : Prop where
  /-- Both sides have come to rest. -/
  atRest : d.AtRest
  /-- Their records agree. -/
  agreed : Agreed address port d.left.log d.right.log
  /-- Neither waits for the other. -/
  returned : (∃ op k, d.right.code = .callThen op k) ∨
    (∃ a, d.left.code = .done (.inr a)) ∧ ∃ b, d.right.code = .done (.inr b)

/-- It comes to an orderly end. -/
def Settles (address : StdString) (port : Int32) (c : Scripted) : Prop :=
  ∃ d, Reaches Duet.step c d ∧ Concludes address port d

theorem Agreed.call {lc : List clientSig.Call} {ls : List serverSig.Call} {c : clientSig.Call}
    (h : Agreed address port lc ls) (hc : answered [c] = []) : Agreed address port (lc ++ [c]) ls :=
  ⟨by rw [answered_append, hc, List.append_nil, h.replies], h.announces⟩

theorem Settles.of_reaches {c c' : Scripted} (h : Reaches Duet.step c c')
    (hs : Settles address port c') : Settles address port c := by
  obtain ⟨d, hd, hend⟩ := hs
  exact ⟨d, h.trans hd, hend⟩

section
variable {ins outs toServer toClient : List Frame} {lc : List clientSig.Call}
  {ls : List serverSig.Call}

/-- The client takes what has been sent to it. -/
theorem Settles.left {p q : clientMain.Code} {calls sc sc' : List clientSig.Call}
    {server : Endpoint handler indexScript} (h : p.Runs ins calls outs q)
    (henv : userScript.Answers sc calls sc')
    (hs : Settles address port ⟨⟨q, sc', lc ++ calls⟩, server, toServer ++ outs, []⟩) :
    Settles address port ⟨⟨p, sc, lc⟩, server, toServer, ins⟩ := by
  have hreach := Duet.reaches_left h henv lc server toServer []
  rw [List.append_nil] at hreach
  exact hs.of_reaches hreach

/-- The session takes what has been sent to it. -/
theorem Settles.right {p q : handler.Code} {calls ss ss' : List serverSig.Call}
    {client : Endpoint clientMain userScript} (h : p.Runs ins calls outs q)
    (henv : indexScript.Answers ss calls ss')
    (hs : Settles address port ⟨client, ⟨q, ss', ls ++ calls⟩, [], toClient ++ outs⟩) :
    Settles address port ⟨client, ⟨p, ss, ls⟩, ins, toClient⟩ := by
  have hreach := Duet.reaches_right h henv ls client [] toClient
  rw [List.append_nil] at hreach
  exact hs.of_reaches hreach

end

/-! ## The client at the top of a round -/

/-- With `p` left, a client whose script has at most `N` entries comes to rest with its session. -/
def Ready (address : StdString) (port : Int32) (N : ℕ) (p : clientMain.Code) : Prop :=
  ∀ (sc lc : List clientSig.Call) (message : Int32) (ss ls : List serverSig.Call),
    sc.length ≤ N → (∀ c ∈ ss, Servable c) → Agreed address port lc ls →
    Settles address port ⟨⟨p, sc, lc⟩, ⟨messageLoop ⟨address, port, message⟩, ss, ls⟩, [], []⟩

variable {N M : ℕ} {p q : clientMain.Code}

/-- Going round. -/
theorem Ready.loop (h : Ready address port N (commandLoop ())) :
    Ready address port N (.done (.inl ())) := by
  intro sc lc message ss ls hlen hss hagreed
  exact (h sc lc message ss ls hlen hss hagreed).of_reaches
    (.head (e := .left) Duet.step_left_loop (.refl _))

/-- A call of the client that is not a reply. -/
theorem Ready.call {op : ClientOp} {g : op.Res → clientMain.Code}
    (hop : ∀ r, answered [⟨op, r⟩] = []) (h : ∀ r, Ready address port N (g r)) :
    Ready address port N (ask op >>= g) := by
  intro sc lc message ss ls hlen hss hagreed
  obtain ⟨r, sc', hr⟩ := exists_userScript op sc
  refine .left (runs_ask (.refl _)) ⟨sc', hr, rfl⟩ ?_
  exact h r sc' _ message ss ls ((Env.scripted_suffix hr).length_le.trans hlen) hss
    (hagreed.call (hop r))

/-- The next command: either the user quits, or the script gets shorter. -/
theorem Ready.readCommand {g : Command → clientMain.Code}
    (hquit : Ready address port N (g .quit)) (h : ∀ M < N, ∀ c, Ready address port M (g c)) :
    Ready address port N (ask .readCommand >>= g) := by
  intro sc lc message ss ls hlen hss hagreed
  obtain ⟨r, sc', hr⟩ := exists_userScript .readCommand sc
  refine .left (runs_ask (.refl _)) ⟨sc', hr, rfl⟩ ?_
  rcases Env.scripted_cases hr with rfl | ⟨rfl, hd⟩
  · exact h sc'.length hlen r sc' _ message ss ls le_rfl hss (hagreed.call rfl)
  · obtain rfl : .quit = r := Option.some_inj.mp hd
    exact hquit sc' _ message ss ls hlen hss (hagreed.call rfl)

/-! ## Requests -/

/-- The client sends `frames` and goes on with `q`, whatever its script says. -/
def Sends (p : clientMain.Code) (frames : List Frame) (q : clientMain.Code) : Prop :=
  ∀ sc, ∃ calls sc', p.Runs [] calls frames q ∧ userScript.Answers sc calls sc' ∧
    sc'.length ≤ sc.length ∧ answered calls = []

theorem sends_of_runs {frames : List Frame} (h : p.Runs [] [] frames q) : Sends p frames q :=
  fun sc ↦ ⟨[], sc, h, rfl, le_rfl, rfl⟩

theorem sends_of_newBytes {n : ℕ} {frames : List Frame}
    (h : ∀ heap, p.Runs [] [⟨.newBytes n, heap⟩] frames q) : Sends p frames q := by
  intro sc
  obtain ⟨heap, sc', hr⟩ := exists_userScript (.newBytes n) sc
  exact ⟨_, sc', h heap, ⟨sc', hr, rfl⟩, (Env.scripted_suffix hr).length_le, rfl⟩

/-- The session answers `r`, a result of the index, by a reply that brings the client from `p` to
`q`, where it is ready. -/
def Replies (address : StdString) (port : Int32) (N : ℕ) (c : serverSig.Call)
    (answer : handler.Code) (p : clientMain.Code) : Prop :=
  ∃ request reply n message q, snapshot c = some (request, reply) ∧ Ready address port N q ∧
    ∀ heap, ∃ frames,
      answer.Exec [] [⟨.newBytes n, heap⟩] frames (.inl ⟨address, port, message⟩) ∧
      p.Runs frames [⟨.decoded request reply, ()⟩] [] q

/-- The session has entered the index, and replies. -/
theorem Replies.settles {c : serverSig.Call} {answer : handler.Code}
    (h : Replies address port N c answer p) {sc lc : List clientSig.Call}
    {ss ls : List serverSig.Call} (hlen : sc.length ≤ N) (hss : ∀ c ∈ ss, Servable c)
    (hagreed : Agreed address port lc ls) (hc : Announces address port c) :
    Settles address port ⟨⟨p, sc, lc⟩, ⟨answer, ss, ls ++ [c]⟩, [], []⟩ := by
  obtain ⟨request, reply, n, message, q, hsnapshot, hready, hreply⟩ := h
  have hd : indexDefault (.newBytes n) = some fun _ ↦ 0 := rfl
  obtain ⟨heap, ss', hheap⟩ := Env.exists_scripted hd ss
  obtain ⟨frames, hanswer, hdecode⟩ := hreply heap
  obtain ⟨_, sc', hr⟩ := exists_userScript (.decoded request reply) sc
  refine .right hanswer ⟨ss', hheap, rfl⟩ (.of_reaches (.head Duet.step_right_loop (.refl _)) ?_)
  refine .left hdecode ⟨sc', hr, rfl⟩ ?_
  refine hready sc' _ message ss' _ ((Env.scripted_suffix hr).length_le.trans hlen)
    (fun c hc ↦ hss c ((Env.scripted_suffix hheap).mem hc)) ⟨?_, ?_⟩
  · have hserved : served [c] = [(request, reply)] := by
      rw [served, List.filterMap_cons_some hsnapshot, List.filterMap_nil]
    have hallocated : served [⟨.newBytes n, heap⟩] = [] := rfl
    rw [answered_append, served_append, served_append, hagreed.replies, hserved, hallocated,
      List.append_nil]
    rfl
  · simp only [List.mem_append, List.mem_singleton]
    rintro c' ((hc' | rfl) | rfl)
    · exact hagreed.announces c' hc'
    · exact hc
    · trivial

/-- **One request**: what the client sends brings the session to the index, and whatever is found
there, the reply brings the client on. -/
theorem Ready.request {frames : List Frame} (op : IndexOp) (hop : indexDefault (.index op) = none)
    (hannounces : ∀ r, Announces address port ⟨.index op, r⟩) (hsends : Sends p frames q)
    (hserver : ∀ message, ∃ k,
      (messageLoop ⟨address, port, message⟩).Runs frames [] [] (.callThen (.index op) k) ∧
      ∀ r, Servable ⟨.index op, r⟩ → Replies address port N ⟨.index op, r⟩ (k r) q)
    (hwaits : ∃ n k, q = .recvThen n k) : Ready address port N p := by
  intro sc lc message ss ls hlen hss hagreed
  obtain ⟨calls, sc', hask, henv, hlen', hcalls⟩ := hsends sc
  obtain ⟨k, hquery, hreply⟩ := hserver message
  have hagreed' : Agreed address port (lc ++ calls) ls :=
    ⟨by rw [answered_append, hcalls, List.append_nil, hagreed.replies], hagreed.announces⟩
  refine .left hask henv (.right hquery rfl ?_)
  rw [List.append_nil]
  rcases Env.scripted_none hop ss with hstop | ⟨r, ss', rfl⟩
  · -- The index does not answer, and the client waits for the reply.
    obtain ⟨n, k', rfl⟩ := hwaits
    exact ⟨_, .refl _, ⟨⟨rfl, hstop⟩, hagreed', .inl ⟨_, _, rfl⟩⟩⟩
  · refine .right (.call (.refl _)) ⟨ss', Env.scripted_cons _ _ _, rfl⟩ ?_
    exact (hreply r (hss _ List.mem_cons_self)).settles (hlen'.trans hlen)
      (fun c hc ↦ hss c (List.mem_cons_of_mem _ hc)) hagreed' (hannounces r)

/-- What the handler does with a command, it does in a round of its loop. -/
theorem exists_messageLoop {command : P2SMessage} {ins : List Frame} {op : IndexOp}
    {k : op.Res → Prog serverSig Unit} (hcommand : command.toInt ≠ P2SMessage.disconnect.toInt)
    (hquery : (handleMessage address port command.toInt).Runs ins [] [] (.callThen (.index op) k))
    (message : Int32) : ∃ k', (messageLoop ⟨address, port, message⟩).Runs
        (wireInt command.toInt :: ins) [] [] (.callThen (.index op) k') ∧
      ∀ r calls outs, (k r).Exec [] calls outs () →
        (k' r).Exec [] calls outs (.inl ⟨address, port, command.toInt⟩) := by
  have hquery' := runs_messageLoop (s := ⟨address, port, message⟩) hcommand hquery
  rw [Prog.callThen_bind] at hquery'
  refine ⟨_, hquery', fun r calls outs hexec ↦ ?_⟩
  exact Prog.Runs.bind hexec _

/-- ADD. -/
theorem Ready.add {n : Int32} (hn : 0 < n) {g : AddRFCResponse → clientMain.Code}
    (h : ∀ res, Ready address port N (g res)) :
    Ready address port N (askAdd n >>= fun _ ↦ awaitAdd n >>= g) := by
  obtain ⟨k, hquery, hreply⟩ := runs_addRfc address port n
  rw [← handleMessage_add] at hquery
  refine .request (.addRfc address port n) rfl (fun _ ↦ trivial)
    (sends_of_newBytes fun heap ↦ Prog.Runs.bind (exec_askAdd hn heap) _) (fun message ↦ ?_)
    ⟨_, _, rfl⟩
  obtain ⟨k', hquery', hround⟩ := exists_messageLoop (by decide) hquery message
  refine ⟨k', hquery', fun ok _ ↦ ⟨.add n, .added (addReply ok), _, _, _, ?_, h _, fun heap ↦
    ⟨_, hround ok _ _ (hreply ok heap), Prog.Runs.bind (exec_awaitAdd n _) g⟩⟩⟩
  rw [addReply_eq]
  rfl

/-- LIST. -/
theorem Ready.list {g : ListRFCResponse → clientMain.Code}
    (h : ∀ l, Ready address port N (g (listReply l))) :
    Ready address port N (askList >>= fun _ ↦ awaitList >>= g) := by
  obtain ⟨k, hquery, hreply⟩ := runs_listRfcs
  rw [← handleMessage_list address port] at hquery
  refine .request .allRfcs rfl (fun _ ↦ trivial) (sends_of_runs (Prog.Runs.bind exec_askList _))
    (fun message ↦ ?_) ⟨_, _, rfl⟩
  obtain ⟨k', hquery', hround⟩ := exists_messageLoop (by decide) hquery message
  refine ⟨k', hquery', fun l hl ↦ ⟨.list, .listed (listReply l), listSize l,
    P2SMessage.list.toInt, g (listReply l), ?_, h l, fun heap ↦ ?_⟩⟩
  · rw [listReply_eq]
    rfl
  · obtain ⟨f, hlen, hdecode, hexec⟩ := hreply l heap hl.1 hl.2
    exact ⟨_, hround l _ _ hexec, Prog.Runs.bind (exec_awaitList (hlen ▸ hl.2) hdecode) g⟩

/-- LOOKUP. -/
theorem Ready.lookup {n : Int32} (hn : 0 < n) {g : LookupRFCResponse → clientMain.Code}
    (h : ∀ l, Ready address port N (g (lookupReply l))) :
    Ready address port N (askLookup n >>= fun _ ↦ awaitLookup n >>= g) := by
  obtain ⟨k, hquery, hreply⟩ := runs_lookupRfc n
  rw [← handleMessage_lookup address port] at hquery
  refine .request (.findRfcs n) rfl (fun _ ↦ trivial)
    (sends_of_newBytes fun heap ↦ Prog.Runs.bind (exec_askLookup hn heap) _) (fun message ↦ ?_)
    ⟨_, _, rfl⟩
  obtain ⟨k', hquery', hround⟩ := exists_messageLoop (by decide) hquery message
  refine ⟨k', hquery', fun l hl ↦ ⟨.lookup n, .lookedUp (lookupReply l), lookupSize l,
    P2SMessage.lookup.toInt, g (lookupReply l), ?_, h l, fun heap ↦ ?_⟩⟩
  · rw [lookupReply_eq]
    rfl
  · obtain ⟨f, hlen, hdecode, hexec⟩ := hreply l heap hl.1 hl.2
    exact ⟨_, hround l _ _ hexec, Prog.Runs.bind (exec_awaitLookup n (hlen ▸ hl.2) hdecode) g⟩

/-- DISCONNECT, after which both sides return. -/
theorem Ready.quit : Ready address port N (disconnect >>= fun _ ↦ .done (.inr 0)) := by
  intro sc lc message ss ls _ _ hagreed
  obtain ⟨_, sc', hr⟩ := exists_userScript .disconnect sc
  refine .left (.send (.call (.refl _))) ⟨sc', hr, rfl⟩ ?_
  have hd₁ : indexDefault (.index (.eraseHolders address port)) = some () := rfl
  have hd₂ : indexDefault (.index (.eraseClient address port)) = some () := rfl
  have hd₃ : indexDefault .close = some () := rfl
  obtain ⟨_, ss₁, h₁⟩ := Env.exists_scripted hd₁ ss
  obtain ⟨_, ss₂, h₂⟩ := Env.exists_scripted hd₂ ss₁
  obtain ⟨_, ss₃, h₃⟩ := Env.exists_scripted hd₃ ss₂
  refine .right (exec_messageLoop_disconnect _) ⟨ss₁, h₁, ss₂, h₂, ss₃, h₃, rfl⟩
    ⟨_, .refl _, ⟨rfl, rfl⟩, ⟨?_, ?_⟩, .inr ⟨⟨_, rfl⟩, _, rfl⟩⟩
  · rw [answered_append, served_append, hagreed.replies]
    rfl
  · intro c hc
    rcases List.mem_append.mp hc with hc | hc
    · exact hagreed.announces c hc
    · simp only [List.mem_cons, List.not_mem_nil, or_false] at hc
      rcases hc with rfl | rfl | rfl <;> trivial

/-! ## The client, line by line -/

theorem ready_addAvailableRfcs {rfcs : List Int32} (hrfcs : ∀ n ∈ rfcs, 0 < n)
    {g : Bool → clientMain.Code} (h : ∀ b, Ready address port N (g b)) :
    Ready address port N (addAvailableRfcs rfcs >>= g) := by
  induction rfcs with
  | nil => exact h true
  | cons n rest ih =>
    rw [addAvailableRfcs]
    simp only [Prog.bind_assoc]
    refine .add (hrfcs n List.mem_cons_self) fun res ↦ ?_
    split
    · exact h false
    · exact ih fun m hm ↦ hrfcs m (List.mem_cons_of_mem _ hm)

/-- A list that came under another code than 404 has a first element. -/
theorem ready_getRfc (n : Int32) {g : Unit → clientMain.Code} (h : Ready address port N (g ())) :
    Ready address port N (getRfc n >>= g) := by
  rw [getRfc]
  split
  · exact h
  rename_i hn
  simp only [Prog.bind_assoc]
  refine .call (fun _ ↦ rfl) fun stored ↦ ?_
  split
  · exact h
  simp only [Prog.bind_assoc]
  refine .lookup (Int32.not_le.mp hn) fun l ↦ ?_
  cases l with
  | nil => exact h
  | cons peer rest =>
    have hcode : (lookupReply (peer :: rest)).code ≠ 404 := show (200 : Int32) ≠ 404 by decide
    rw [if_neg hcode]
    simp only [lookupReply, Prog.bind_assoc]
    refine .call (fun _ ↦ rfl) fun got ↦ ?_
    split
    · exact h
    simp only [Prog.bind_assoc]
    exact .add (Int32.not_le.mp hn) fun _ ↦ h

theorem ready_listRfcsRemote {g : Unit → clientMain.Code} (h : Ready address port N (g ())) :
    Ready address port N (listRfcsRemote >>= g) := by
  rw [listRfcsRemote]
  simp only [Prog.bind_assoc]
  exact .list fun _ ↦ h

/-- **The loop**, by induction on what is left of the user's script. -/
theorem ready_loop (N : ℕ) : Ready address port N (.done (.inl ())) := by
  induction N using Nat.strong_induction_on with
  | _ N ih =>
    refine .loop (.readCommand .quit fun M hM c ↦ ?_)
    match c with
    | .get n => exact ready_getRfc n (ih M hM)
    | .list => exact ready_listRfcsRemote (ih M hM)
    | .other => exact ih M hM
    | .quit => exact .quit

/-- **A session from its start**, for whatever the user does and whatever the index answers. -/
theorem settles_start (hself : Client.Sound ⟨address, port⟩) (haddress : address.length < 2 ^ 31)
    {rfcs : List Int32} (hrfcs : ∀ n ∈ rfcs, 0 < n) (sc : List clientSig.Call)
    {ss : List serverSig.Call} (hss : ∀ c ∈ ss, Servable c) :
    Settles address port
      ⟨⟨clientStart address port rfcs, sc, []⟩, ⟨clientHandler, ss, []⟩, [], []⟩ := by
  obtain ⟨k, hk⟩ : ∃ k, clientHandler = .sendThen (wireInt protocolVersion) k := ⟨_, rfl⟩
  have hd : indexDefault (.index (.addClient address port)) = some true := rfl
  obtain ⟨ok, ss₁, h₁⟩ := Env.exists_scripted hd ss
  have hd : indexDefault (.newBytes sizeofInt) = some fun _ ↦ 0 := rfl
  obtain ⟨memory, ss₂, h₂⟩ := Env.exists_scripted hd ss₁
  have hexec := exec_clientHandler haddress port ok memory
  rw [hk, cString_eq_self hself.noNul] at hexec
  rw [hk]
  -- The handler sends its version, the client sends its own and the hello, the handler reads on.
  refine .right (.send (.refl k)) rfl (.left (runs_clientStart haddress port rfcs) rfl ?_)
  cases hexec with
  | send hexec =>
    refine .right hexec ⟨ss₁, h₁, ss₂, h₂, rfl⟩ (.of_reaches (.head Duet.step_right_loop (.refl _)) ?_)
    refine ready_addAvailableRfcs hrfcs (fun _ ↦ ready_loop sc.length) sc _ _ ss₂ _ le_rfl
      (fun c hc ↦ hss c ?_) ⟨rfl, fun c hc ↦ ?_⟩
    · exact (Env.scripted_suffix h₁).mem ((Env.scripted_suffix h₂).mem hc)
    · simp only [List.nil_append, List.mem_cons, List.not_mem_nil, or_false] at hc
      rcases hc with rfl | rfl
      · exact ⟨rfl, rfl⟩
      · trivial

end

end RfcNet
