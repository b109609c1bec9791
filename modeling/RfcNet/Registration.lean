import RfcNet.Exchange
import RfcNet.RFCManager

/-!
# Registering what is there

When a client starts, `add_available_rfcs` sends an ADD for each number that `get_rfcs` returns, and stops at
the first answer that is not 200.  `addAll` is what this amounts to for an index: `settles_addAll` says that the
client and the handler of its session come to it under every schedule.

So whether everything is registered is a matter of the listing.  `AddRFCMessage` does not encode the number 0,
and `CentralIndex::add_rfc` refuses a number that is there already.  `parse_filename` produces both, from
`rfc0.txt`, and from `rfc1.txt` together with `rfc01.txt`; `registers_iff` is that nothing else goes wrong.
-/

set_option autoImplicit false

namespace RfcNet

open Lib RFCManager

attribute [local irreducible] sizeT

/-! ## The two sides -/

/-- The memory of a client that has started. -/
def startMemory (memory : ℕ → ℕ → UInt8) : Env clientSig where
  State := ℕ
  answer
    | k, .newBytes _ => some (memory k, k + 1)
    | k, .decoded _ _ => some ((), k)
    | k, .disconnect => some ((), k)
    | _, _ => none

/-- The index, and the memory of the handler. -/
def soleIndex (memory : ℕ → ℕ → UInt8) : Env serverSig where
  State := CentralIndex × ℕ
  answer
    | s, .index op => some ((op.exec s.1).1, (op.exec s.1).2, s.2)
    | s, .newBytes _ => some (memory s.2, s.1, s.2 + 1)
    | s, .close => some ((), s)

/-- A client that starts, and the handler of its session. -/
structure Startup where
  /-- The client, as it has announced itself. -/
  client : Client
  /-- What the handler has read last. -/
  message : Int32
  /-- The index. -/
  index : CentralIndex
  /-- What memory holds that nobody has written. -/
  memory : Side → ℕ → ℕ → UInt8

namespace Startup

variable (su : Startup)

/-- The client and the handler, joined by two channels. -/
abbrev Duet := Lib.Duet (Proc.straight clientSig Bool) (startMemory (su.memory .left)) handler
  (soleIndex (su.memory .right))

/-- The client is about to call `add_available_rfcs`, and the handler is at the top of its loop. -/
def start (rfcs : List Int32) : su.Duet where
  left := ⟨(addAvailableRfcs rfcs).once, (0 : ℕ), []⟩
  right := ⟨messageLoop ⟨su.client.host, su.client.port, su.message⟩, (su.index, (0 : ℕ)), []⟩
  toRight := []
  toLeft := []

/-- **Everything has been registered.** -/
structure Registered (rfcs : List Int32) (c : su.Duet) : Prop where
  /-- `add_available_rfcs` has returned `true`. -/
  returned : c.left.code = .done (.inr true)
  /-- Each request was answered by 200. -/
  answered : answered c.left.log = rfcs.map fun n ↦ (.add n, .added ⟨200⟩)
  /-- The index has these numbers for the client. -/
  numbers : ∀ n, (⟨n, su.client⟩ : RFCHolder) ∈ c.right.env.1.rfcs ↔ n ∈ rfcs
  /-- For others it has what it had. -/
  others : (c.right.env.1.rfcs.filter fun r ↦ decide (r.peer ≠ su.client)).Perm
    (su.index.rfcs.filter fun r ↦ decide (r.peer ≠ su.client))
  /-- The clients are the same. -/
  clients : c.right.env.1.clients = su.index.clients

/-- **Registration is complete**: under every schedule it ends with everything registered, and no request is
sent that could not be encoded. -/
structure Registers (rfcs : List Int32) : Prop where
  encodable : ∀ u, Reaches Duet.step (su.start rfcs) u → u.left.code ≠ .raise .nullBuffer
  ends : ∃ t, EndsIn Duet.step (su.start rfcs) t ∧ su.Registered rfcs t

end Startup

/-! ## What it amounts to -/

/-- What `add_available_rfcs` does to an index: each number in turn, until one cannot be encoded or is
refused. -/
def addAll (client : Client) : List Int32 → CentralIndex → Except Crash Bool × CentralIndex
  | [], ix => (.ok true, ix)
  | n :: rest, ix =>
    if n ≤ 0 then (.error .nullBuffer, ix)
    else
      let (added, ix') := ix.addRfc client.host client.port n
      if added then addAll client rest ix' else (.ok false, ix')

section
variable {client : Client} {ix : CentralIndex} {rfcs : List Int32}

theorem addAll_clients : (addAll client rfcs ix).2.clients = ix.clients := by
  induction rfcs generalizing ix with
  | nil => rfl
  | cons n rest ih =>
    rw [addAll]
    split
    · rfl
    · dsimp only
      split
      · rw [ih, CentralIndex.addRfc_clients]
      · exact CentralIndex.addRfc_clients

/-- **Everything is added** exactly if every number can be encoded, and none comes twice or was there before. -/
theorem addAll_fst_eq_iff (hclient : client ∈ ix.clients) : (addAll client rfcs ix).1 = .ok true ↔
    (∀ n ∈ rfcs, 0 < n) ∧ rfcs.Nodup ∧ ∀ n ∈ rfcs, (⟨n, client⟩ : RFCHolder) ∉ ix.rfcs := by
  induction rfcs generalizing ix with
  | nil => exact ⟨fun _ ↦ ⟨nofun, .nil, nofun⟩, fun _ ↦ rfl⟩
  | cons n rest ih =>
    rw [addAll, List.forall_mem_cons, List.forall_mem_cons, List.nodup_cons]
    by_cases hn : n ≤ 0
    · rw [if_pos hn]
      exact ⟨nofun, fun h ↦ absurd h.1.1 (Int32.not_lt.mpr hn)⟩
    rw [if_neg hn]
    have hadded : (ix.addRfc client.host client.port n).1 = true ↔ _ := CentralIndex.addRfc_fst
    dsimp only
    by_cases hold : (⟨n, client⟩ : RFCHolder) ∈ ix.rfcs
    · rw [if_neg fun h ↦ (hadded.mp h).1 hold]
      exact ⟨nofun, fun h ↦ absurd hold h.2.2.1⟩
    rw [if_pos (hadded.mpr ⟨hold, hclient⟩), ih (by rwa [CentralIndex.addRfc_clients])]
    have hnew : ∀ m, (⟨m, client⟩ : RFCHolder) ∉ (ix.addRfc client.host client.port n).2.rfcs ↔
        (⟨m, client⟩ : RFCHolder) ∉ ix.rfcs ∧ m ≠ n := by
      intro m
      rw [CentralIndex.mem_addRfc, not_or]
      refine and_congr_right fun _ ↦ not_congr ⟨fun h ↦ (RFCHolder.mk.inj h.2).1, fun h ↦ ⟨hclient, h ▸ rfl⟩⟩
    constructor
    · rintro ⟨hpos, hnodup, hrest⟩
      refine ⟨⟨Int32.not_le.mp hn, hpos⟩, ⟨fun hmem ↦ ((hnew n).mp (hrest n hmem)).2 rfl, hnodup⟩, hold,
        fun m hm ↦ ((hnew m).mp (hrest m hm)).1⟩
    · rintro ⟨⟨-, hpos⟩, ⟨hnot, hnodup⟩, -, hrest⟩
      exact ⟨hpos, hnodup, fun m hm ↦ (hnew m).mpr ⟨hrest m hm, fun heq ↦ hnot (heq ▸ hm)⟩⟩

/-- What has been added then. -/
theorem mem_addAll (hclient : client ∈ ix.clients) (h : (addAll client rfcs ix).1 = .ok true) {r : RFCHolder} :
    r ∈ (addAll client rfcs ix).2.rfcs ↔ r ∈ ix.rfcs ∨ r.peer = client ∧ r.rfc ∈ rfcs := by
  induction rfcs generalizing ix with
  | nil => simp [addAll]
  | cons n rest ih =>
    rw [addAll] at h ⊢
    split at h
    · cases h
    rename_i hn
    rw [if_neg hn]
    dsimp only at h ⊢
    split at h
    · rename_i hadded
      rw [if_pos hadded, ih (by rwa [CentralIndex.addRfc_clients]) h, CentralIndex.mem_addRfc, or_assoc,
        List.mem_cons]
      refine or_congr_right ⟨?_, ?_⟩
      · rintro (⟨-, rfl⟩ | ⟨hpeer, hmem⟩)
        · exact ⟨rfl, .inl rfl⟩
        · exact ⟨hpeer, .inr hmem⟩
      · rintro ⟨rfl, hn | hmem⟩
        · exact .inl ⟨hclient, hn ▸ rfl⟩
        · exact .inr ⟨rfl, hmem⟩
    · cases h

/-- The associations of other clients are as they were. -/
theorem filter_addRfc (client : Client) (n : Int32) (ix : CentralIndex) :
    ((ix.addRfc client.host client.port n).2.rfcs.filter fun r ↦ decide (r.peer ≠ client)).Perm
      (ix.rfcs.filter fun r ↦ decide (r.peer ≠ client)) := by
  rw [CentralIndex.addRfc_eq]
  split
  · refine ((List.perm_insertionSort _ _).filter _).trans ?_
    rw [List.filter_append, List.filter_cons_of_neg (by simp), List.filter_nil, List.append_nil]
  · exact .refl _

theorem filter_addAll (client : Client) (rfcs : List Int32) (ix : CentralIndex) :
    ((addAll client rfcs ix).2.rfcs.filter fun r ↦ decide (r.peer ≠ client)).Perm
      (ix.rfcs.filter fun r ↦ decide (r.peer ≠ client)) := by
  induction rfcs generalizing ix with
  | nil => exact .refl _
  | cons n rest ih =>
    rw [addAll]
    split
    · exact .refl _
    · dsimp only
      split
      · exact (ih _).trans (filter_addRfc client n ix)
      · exact filter_addRfc client n ix

end

/-! ## What the two sides come to -/

/-- A request that cannot be encoded is the end of the client, once it has sent the command. -/
theorem runs_askAdd_null {n : Int32} (hn : n ≤ 0) (heap : ℕ → UInt8) :
    (askAdd n).Runs [] [⟨.newBytes sizeofInt, heap⟩] [wireInt P2SMessage.add.toInt] (.raise .nullBuffer) := by
  have hinvalid : (AddRFCMessage.mk n).isValid = false := decide_eq_false (Int32.not_lt.mpr hn)
  simp only [askAdd]
  refine runs_sendInt (runs_ask ?_)
  rw [AddRFCMessage.toBytes, hinvalid, encodeInt]
  exact .refl _

namespace Startup

variable {su : Startup} {n : Int32} {rfcs : List Int32} {message : Int32} {ix : CentralIndex} {i j : ℕ}
  {lc : List clientSig.Call} {ls : List serverSig.Call}

/-- The client is about to register `rfcs`, and the handler at the top of its loop. -/
def between (su : Startup) (rfcs : List Int32) (i : ℕ) (lc : List clientSig.Call) (message : Int32)
    (ix : CentralIndex) (j : ℕ) (ls : List serverSig.Call) : su.Duet where
  left := ⟨(addAvailableRfcs rfcs).once, i, lc⟩
  right := ⟨messageLoop ⟨su.client.host, su.client.port, message⟩, (ix, j), ls⟩
  toRight := []
  toLeft := []

/-- What is left of `add_available_rfcs` after an answer. -/
def onward (rest : List Int32) (res : AddRFCResponse) : Prog clientSig Bool :=
  if res.code ≠ 200 then return false else addAvailableRfcs rest

theorem addAvailableRfcs_cons (n : Int32) (rest : List Int32) :
    (addAvailableRfcs (n :: rest)).once =
      askAdd n >>= fun _ ↦ awaitAdd n >>= fun res ↦ (onward rest res).once := by
  simp only [addAvailableRfcs, Prog.once, Prog.bind_assoc]
  rfl

/-- What the handler replies to an ADD. -/
def reply (su : Startup) (n : Int32) (ix : CentralIndex) : AddRFCResponse :=
  addReply (ix.addRfc su.client.host su.client.port n).1

/-- What it calls to serve it. -/
def addCalls (su : Startup) (n : Int32) (ix : CentralIndex) (j : ℕ) : List serverSig.Call :=
  [⟨.index (.addRfc su.client.host su.client.port n), (ix.addRfc su.client.host su.client.port n).1⟩,
    ⟨.newBytes sizeofInt, su.memory .right j⟩]

theorem exec_round (su : Startup) (n message : Int32) (ix : CentralIndex) (j : ℕ) :
    (messageLoop ⟨su.client.host, su.client.port, message⟩).Exec [wireInt P2SMessage.add.toInt, wireInt n]
      (su.addCalls n ix j) [wireInt (su.reply n ix).code]
      (.inl ⟨su.client.host, su.client.port, P2SMessage.add.toInt⟩) := by
  have hserve := exec_addRfc su.client.host su.client.port n
    (ix.addRfc su.client.host su.client.port n).1 (su.memory .right j)
  rw [← handleMessage_add] at hserve
  exact exec_messageLoop (s := ⟨su.client.host, su.client.port, message⟩) (by decide) hserve

/-- Without a number, it waits for one. -/
theorem runs_round (su : Startup) (message : Int32) : ∃ n k,
    (messageLoop ⟨su.client.host, su.client.port, message⟩).Runs [wireInt P2SMessage.add.toInt] [] []
      (.recvThen n k) := by
  have hserve := runs_messageLoop (s := ⟨su.client.host, su.client.port, message⟩) (by decide)
    (Prog.Runs.refl (handleMessage su.client.host su.client.port P2SMessage.add.toInt))
  dsimp only at hserve
  rw [handleMessage_add] at hserve
  exact ⟨_, _, hserve⟩

section
variable {ins outs sent : List Frame}

/-- The client takes what has been sent to it. -/
theorem reaches_left {p q : (Proc.straight clientSig Bool).Code} {calls : List clientSig.Call} {i' : ℕ}
    {server : Endpoint handler (soleIndex (su.memory .right))} (h : p.Runs ins calls outs q)
    (hanswers : (startMemory (su.memory .left)).Answers i calls i') :
    Reaches Duet.step (⟨⟨p, i, lc⟩, server, sent, ins⟩ : su.Duet)
      ⟨⟨q, i', lc ++ calls⟩, server, sent ++ outs, []⟩ := by
  have hreach : Reaches Duet.step (⟨⟨p, i, lc⟩, server, sent, ins ++ []⟩ : su.Duet) _ :=
    Duet.reaches_left h hanswers lc server sent []
  rwa [List.append_nil] at hreach

/-- The handler takes what has been sent to it. -/
theorem reaches_right {p q : handler.Code} {calls : List serverSig.Call} {ix' : CentralIndex} {j' : ℕ}
    {client : Endpoint (Proc.straight clientSig Bool) (startMemory (su.memory .left))}
    (h : p.Runs ins calls outs q)
    (hanswers : (soleIndex (su.memory .right)).Answers (ix, j) calls (ix', j')) :
    Reaches Duet.step (⟨client, ⟨p, (ix, j), ls⟩, ins, sent⟩ : su.Duet)
      ⟨client, ⟨q, (ix', j'), ls ++ calls⟩, [], sent ++ outs⟩ := by
  have hreach : Reaches Duet.step (⟨client, ⟨p, (ix, j), ls⟩, ins ++ [], sent⟩ : su.Duet) _ :=
    Duet.reaches_right h hanswers ls client [] sent
  rwa [List.append_nil] at hreach

end

/-- **One request**, from the top of one round of the handler to the next. -/
theorem reaches_request (hn : 0 < n) (rest : List Int32) :
    Reaches Duet.step (su.between (n :: rest) i lc message ix j ls)
      ⟨⟨(onward rest (su.reply n ix)).once, i + 1, lc ++ [⟨.newBytes sizeofInt, su.memory .left i⟩] ++
          [⟨.decoded (.add n) (.added (su.reply n ix)), ()⟩]⟩,
        ⟨messageLoop ⟨su.client.host, su.client.port, P2SMessage.add.toInt⟩,
          ((ix.addRfc su.client.host su.client.port n).2, j + 1), ls ++ su.addCalls n ix j⟩, [], []⟩ := by
  have hask := Prog.Runs.bind (exec_askAdd hn (su.memory .left i)) fun _ ↦
    awaitAdd n >>= fun res ↦ (onward rest res).once
  have hawait := Prog.Runs.bind (exec_awaitAdd n (su.reply n ix)) fun res ↦ (onward rest res).once
  rw [between, addAvailableRfcs_cons]
  refine .trans (reaches_left hask ⟨i + 1, rfl, rfl⟩) ?_
  refine .trans (reaches_right (su.exec_round n message ix j) ⟨_, rfl, _, rfl, rfl⟩) ?_
  refine .head (e := .right) Duet.step_right_loop ?_
  exact reaches_left hawait ⟨_, rfl, rfl⟩

/-- A request that cannot be encoded: the client ends by an exception, and the handler waits for the number. -/
theorem reaches_null (hn : n ≤ 0) (rest : List Int32) : ∃ t : su.Duet,
    Reaches Duet.step (su.between (n :: rest) i lc message ix j ls) t ∧ Stuck Duet.step t ∧
      t.left.code = .raise .nullBuffer := by
  have hask := Prog.Runs.bind (runs_askAdd_null hn (su.memory .left i)) fun _ ↦
    awaitAdd n >>= fun res ↦ (onward rest res).once
  obtain ⟨m, k, hserve⟩ := su.runs_round message
  rw [between, addAvailableRfcs_cons]
  exact ⟨_, .trans (reaches_left hask ⟨i + 1, rfl, rfl⟩) (reaches_right hserve rfl),
    Duet.stuck_of_act rfl rfl, rfl⟩

/-- What the client comes to, for what comes of `addAll`. -/
def ending : Except Crash Bool → (Proc.straight clientSig Bool).Code
  | .ok b => .done (.inr b)
  | .error e => .raise e

/-- **The two sides come to what `addAll` says.** -/
theorem settles_addAll (su : Startup) (rfcs : List Int32) (i : ℕ) (lc : List clientSig.Call) (message : Int32)
    (ix : CentralIndex) (j : ℕ) (ls : List serverSig.Call) : ∃ t : su.Duet,
    Reaches Duet.step (su.between rfcs i lc message ix j ls) t ∧ Stuck Duet.step t ∧
      t.left.code = ending (addAll su.client rfcs ix).1 ∧
      ((addAll su.client rfcs ix).1 = .ok true → t.right.env.1 = (addAll su.client rfcs ix).2 ∧
        answered t.left.log = answered lc ++ rfcs.map fun n ↦ (.add n, .added ⟨200⟩)) := by
  induction rfcs generalizing i lc message ix j ls with
  | nil => exact ⟨_, .refl _, Duet.stuck_of_act rfl rfl, rfl, fun _ ↦ ⟨rfl, (List.append_nil _).symm⟩⟩
  | cons n rest ih =>
    rw [addAll]
    by_cases hn : n ≤ 0
    · obtain ⟨t, hreach, hstuck, hcode⟩ : ∃ t : su.Duet,
          Reaches Duet.step (su.between (n :: rest) i lc message ix j ls) t ∧ _ := reaches_null hn rest
      rw [if_pos hn]
      exact ⟨t, hreach, hstuck, hcode, nofun⟩
    rw [if_neg hn]
    have hreach : Reaches Duet.step (su.between (n :: rest) i lc message ix j ls) _ :=
      reaches_request (Int32.not_le.mp hn) rest
    dsimp only
    by_cases hadded : (ix.addRfc su.client.host su.client.port n).1 = true
    · have hreply : su.reply n ix = ⟨200⟩ := by
        rw [reply, hadded]
        rfl
      rw [if_pos hadded]
      rw [hreply] at hreach
      obtain ⟨t, hrest, hstuck, hcode, hend⟩ := ih (i + 1) (lc ++ [⟨.newBytes sizeofInt, su.memory .left i⟩] ++
          [⟨.decoded (.add n) (.added ⟨200⟩), ()⟩]) P2SMessage.add.toInt
          (ix.addRfc su.client.host su.client.port n).2 (j + 1) (ls ++ su.addCalls n ix j)
      refine ⟨t, hreach.trans hrest, hstuck, hcode, fun hok ↦ ⟨(hend hok).1, ?_⟩⟩
      rw [(hend hok).2, answered_append, answered_append, List.map_cons, List.append_assoc, List.append_assoc]
      rfl
    · have hreply : su.reply n ix = ⟨400⟩ := by
        rw [reply, Bool.eq_false_of_not_eq_true hadded]
        rfl
      rw [if_neg hadded]
      rw [hreply] at hreach
      exact ⟨_, hreach, Duet.stuck_of_act rfl rfl, rfl, nofun⟩

/-- A client that has ended by an exception stays so. -/
theorem raised_of_reaches {u t : su.Duet} {e : Crash} (h : Reaches Duet.step u t) (hraise : u.left.code = .raise e) :
    t.left.code = .raise e := by
  refine h.inv (P := fun c ↦ c.left.code = .raise e) (fun c side d hc hstep ↦ ?_) hraise
  cases side with
  | left =>
    obtain ⟨client, rest, out, hact, -⟩ := Duet.step_left_eq_some.mp hstep
    rw [Endpoint.act, hc] at hact
    cases hact
  | right =>
    obtain ⟨server, rest, out, -, rfl⟩ := Duet.step_right_eq_some.mp hstep
    exact hc

/-! ## Whether registration is complete -/

/-- **Registration is complete** exactly if every number can be encoded and none comes twice. -/
theorem registers_iff_nodup {rfcs : List Int32} (hclient : su.client ∈ su.index.clients)
    (hfresh : ∀ r ∈ su.index.rfcs, r.peer ≠ su.client) :
    su.Registers rfcs ↔ (∀ n ∈ rfcs, 0 < n) ∧ rfcs.Nodup := by
  obtain ⟨t, hreach, hstuck, hcode, hend⟩ := settles_addAll su rfcs 0 [] su.message su.index 0 []
  have hall : EndsIn Duet.step (su.start rfcs) t := Duet.diamond.endsIn hreach hstuck
  have hiff : (addAll su.client rfcs su.index).1 = .ok true ↔ (∀ n ∈ rfcs, 0 < n) ∧ rfcs.Nodup := by
    rw [addAll_fst_eq_iff hclient]
    exact and_congr_right fun _ ↦ and_iff_left fun n _ hmem ↦ hfresh _ hmem rfl
  rw [← hiff]
  constructor
  · rintro ⟨-, t', hends, hregistered⟩
    obtain rfl : t = t' := hends.eq_of_stuck hreach hstuck
    have hreturned := hcode.symm.trans hregistered.returned
    cases hresult : (addAll su.client rfcs su.index).1 with
    | ok b =>
      rw [hresult] at hreturned
      cases hreturned
      rfl
    | error e =>
      rw [hresult] at hreturned
      cases hreturned
  · intro hok
    obtain ⟨hindex, hanswered⟩ := hend hok
    rw [hok] at hcode
    refine ⟨fun u hu hraise ↦ ?_, t, hall, hcode, hanswered, fun n ↦ ?_, ?_, ?_⟩
    · have hraised := raised_of_reaches (Duet.diamond.reaches_stuck hreach hstuck hu) hraise
      rw [hcode] at hraised
      cases hraised
    · rw [hindex, mem_addAll hclient hok]
      exact ⟨fun h ↦ (h.resolve_left fun hmem ↦ hfresh _ hmem rfl).2, fun h ↦ .inr ⟨rfl, h⟩⟩
    · rw [hindex]
      exact filter_addAll su.client rfcs su.index
    · rw [hindex, addAll_clients]

end Startup

/-- **The files of a directory can be registered**: no name has the number 0, and no two names have one
number. -/
structure Registrable (d : Directory) : Prop where
  positive : ∀ name ∈ items d, parseFilename name ≠ .ok 0
  distinct : ∀ name ∈ items d, ∀ name' ∈ items d, parseFilename name = parseFilename name' → name = name'

/-- **Start-up registration is complete** exactly for those directories whose files can be registered: for every
directory that can be listed and every client that is registered, under which the index has nothing yet. -/
theorem registers_iff (su : Startup) {d : Directory} {rfcs : List Int32} (hrfcs : getRfcs d = .ok rfcs)
    (hclient : su.client ∈ su.index.clients) (hfresh : ∀ r ∈ su.index.rfcs, r.peer ≠ su.client) :
    su.Registers rfcs ↔ Registrable d := by
  rw [Startup.registers_iff_nodup hclient hfresh, nodup_getRfcs_iff hrfcs]
  constructor
  · rintro ⟨hpos, hdistinct⟩
    refine ⟨fun name hname hzero ↦ ?_, hdistinct⟩
    have hlt := hpos 0 ((mem_getRfcs hrfcs).mpr ⟨name, hname, hzero⟩)
    exact absurd hlt (by decide)
  · rintro ⟨hpositive, hdistinct⟩
    refine ⟨fun n hn ↦ ?_, hdistinct⟩
    obtain ⟨name, hname, hparse⟩ := (mem_getRfcs hrfcs).mp hn
    have hnonneg := parseFilename_nonneg hparse
    have hne : n ≠ 0 := fun h ↦ hpositive name hname (h ▸ hparse)
    rw [Int32.le_iff_toInt_le, Int32.toInt_zero] at hnonneg
    rw [Int32.lt_iff_toInt_lt, Int32.toInt_zero]
    rw [Ne, ← Int32.toInt_inj, Int32.toInt_zero] at hne
    omega

namespace Startup

/-- A client at an index that has nobody else. -/
def alone : Startup where
  client := ⟨[104], 1⟩
  message := 0
  index := ⟨[⟨[104], 1⟩], []⟩
  memory _ _ _ := 0

/-- A client at an index where another one has registered the RFC 7. -/
def joining : Startup where
  client := ⟨[104], 1⟩
  message := 0
  index := ⟨[⟨[105], 2⟩, ⟨[104], 1⟩], [⟨7, ⟨[105], 2⟩⟩]⟩
  memory _ _ _ := 0

/-- The files `rfc7.txt` and `rfc12.txt` are registered, of which the other client has the first too. -/
theorem registers_both : joining.Registers [7, 12] :=
  (registers_iff joining (d := AList.insert (fileName 7) [97] (AList.singleton (fileName 12) [98])) (by decide)
    (by decide) (by decide)).mpr ⟨by decide, by decide⟩

/-- Under every schedule the client comes to what `addAll` says. -/
theorem endsIn_addAll (su : Startup) (rfcs : List Int32) : ∃ t, EndsIn Duet.step (su.start rfcs) t ∧
    t.left.code = ending (addAll su.client rfcs su.index).1 := by
  obtain ⟨t, hreach, hstuck, hcode, -⟩ := settles_addAll su rfcs 0 [] su.message su.index 0 []
  exact ⟨t, Duet.diamond.endsIn hreach hstuck, hcode⟩

/-- **The file `rfc0.txt` ends the client when it starts**, and of `rfc1.txt` and `rfc01.txt` the second is
refused. -/
theorem not_registers :
    (getRfcs (AList.singleton [114, 102, 99, 48, 46, 116, 120, 116] [97]) = .ok [0] ∧
      (∃ t, EndsIn Duet.step (alone.start [0]) t ∧ t.left.code = .raise .nullBuffer) ∧
      ¬ alone.Registers [0]) ∧
    (getRfcs (AList.insert ([114, 102, 99, 48, 49, 46, 116, 120, 116] : StdString) [97]
        (AList.singleton (fileName 1) [97])) = .ok [1, 1] ∧
      (∃ t, EndsIn Duet.step (alone.start [1, 1]) t ∧ t.left.code = .done (.inr false)) ∧
      ¬ alone.Registers [1, 1]) := by
  refine ⟨⟨by decide, alone.endsIn_addAll [0], fun h ↦ ?_⟩, ⟨by decide, alone.endsIn_addAll [1, 1], fun h ↦ ?_⟩⟩
  · rw [registers_iff_nodup (by decide) (by decide)] at h
    exact absurd (h.1 0 List.mem_cons_self) (by decide)
  · rw [registers_iff_nodup (by decide) (by decide)] at h
    exact absurd h.2 (by decide)

end Startup

end RfcNet
