import RfcNet.Closing
import RfcNet.Messages.Grammar
import RfcNet.Requesting
import RfcNet.Visit

/-!
# What a client advertises

A `Fetch` is one run of `get_rfc`.  The index and the serving peer may send anything at all: what is
received on either connection are the next bytes of a sequence of bytes.  The client should advertise
an RFC only if it has it, with the content that the peer sent under code 200, and otherwise leave its
files and the index as they are (`Honest`).

Neither the code of the peer's response nor the result of `add_rfc` is looked at, apart from the code
404.  So `Honest` holds if and only if a response that is handled has the code 404, or has the code 200
and a content that can be stored as it is (`honest_iff`).
-/

set_option autoImplicit false

namespace RfcNet

open Lib RFCManager

attribute [local irreducible] sizeT

/-! ## Bytes that bring a frame -/

/-- The next bytes are the size of a frame, and the frame. -/
def Brings (bytes : ℕ → UInt8) (f : Frame) : Prop :=
  f.length < 2 ^ 31 ∧ Prog.blocks bytes [sizeofInt, f.length] = [wireInt (Int32.ofNat f.length), f]

/-- They are a response of a peer, with this content if its code is 200. -/
def Responds (bytes : ℕ → UInt8) (code : Int32) (content : StdString) : Prop :=
  ∃ rest, Brings bytes (GetRFCResponse.bytes code content ++ rest)

/-- They are a list of peers, which is not empty. -/
def Offers (bytes : ℕ → UInt8) : Prop :=
  ∃ f res peer rest, Brings bytes f ∧ LookupRFCResponse.fromBytes {} f = .ok res ∧
    res.code ≠ 404 ∧ res.hosts = peer :: rest

section
variable {bytes : ℕ → UInt8} {f g : Frame}

theorem wireInt_ofNat_injective {m n : ℕ} (hm : m < 2 ^ 31) (hn : n < 2 ^ 31)
    (h : wireInt (Int32.ofNat m) = wireInt (Int32.ofNat n)) : m = n := by
  have hint := congrArg Int32.toInt (wireInt_injective h)
  rw [toInt_ofNat_of_lt hm, toInt_ofNat_of_lt hn] at hint
  exact Int.ofNat_inj.mp hint

theorem Brings.unique (hf : Brings bytes f) (hg : Brings bytes g) : f = g := by
  obtain ⟨hsize, hf⟩ := hf
  obtain ⟨hsize', hg⟩ := hg
  rw [Prog.blocks, Prog.blocks, List.cons.injEq] at hf hg
  have hlen := wireInt_ofNat_injective hsize hsize' (hf.1.symm.trans hg.1)
  have htail := hf.2.symm.trans (hlen ▸ hg.2)
  exact (List.cons.inj htail).1

theorem length_block (bytes : ℕ → UInt8) (n : ℕ) : ((List.range n).map bytes).length = n := by simp

/-- Whatever the bytes are, they bring a frame, or a size that is negative. -/
theorem brings_or_negative (bytes : ℕ → UInt8) :
    (∃ f, Brings bytes f) ∨ ∃ size < 0, Prog.blocks bytes [sizeofInt] = [wireInt size] := by
  have hsize : (List.range sizeofInt).map bytes =
      wireInt (unwireInt ((List.range sizeofInt).map bytes)) :=
    (wireInt_unwireInt (length_block _ _)).symm
  generalize unwireInt ((List.range sizeofInt).map bytes) = size at hsize
  by_cases hneg : size < 0
  · exact .inr ⟨size, hneg, by rw [Prog.blocks, Prog.blocks, hsize]⟩
  · refine .inl ⟨(List.range size.toInt.toNat).map fun i ↦ bytes (sizeofInt + i), ?_, ?_⟩
    · have hlt := size.toInt_lt
      rw [length_block]
      omega
    · rw [length_block, ofNat_toNat_toInt (Int32.not_lt.mp hneg), ← hsize]
      rfl

theorem contentBytes_append_inj {content content' rest rest' : Frame} (hlt : content.length < 2 ^ 31)
    (hlt' : content'.length < 2 ^ 31)
    (h : contentBytes content ++ rest = contentBytes content' ++ rest') : content = content' := by
  simp only [contentBytes, List.append_assoc] at h
  have htail := (List.append_inj h rfl).2
  obtain ⟨hlength, hcontent⟩ := List.append_inj htail (by simp)
  exact (List.append_inj hcontent (wireInt_ofNat_injective hlt hlt' hlength)).1

theorem take_bytes (code : Int32) (content : StdString) (rest : Frame) :
    (GetRFCResponse.bytes code content ++ rest).take 4 = wireInt code := by
  rw [GetRFCResponse.bytes]
  split
  · rename_i hcode
    rw [hcode, contentBytes, List.append_assoc, ← length_wireInt 200]
    exact List.take_left
  · rw [← length_wireInt code]
    exact List.take_left

/-- Bytes are one response only. -/
theorem Responds.unique {code code' : Int32} {content content' : StdString}
    (h : Responds bytes code content) (h' : Responds bytes code' content') :
    code = code' ∧ (code = 200 → content = content') := by
  obtain ⟨rest, hbrings⟩ := h
  obtain ⟨rest', hbrings'⟩ := h'
  have heq := hbrings.unique hbrings'
  have hcode : code = code' := wireInt_injective (by rw [← take_bytes code content rest, heq, take_bytes])
  refine ⟨hcode, fun h200 ↦ ?_⟩
  subst hcode h200
  have hlt := hbrings.1
  have hlt' := hbrings'.1
  simp only [GetRFCResponse.bytes, if_true, List.length_append, length_contentBytes] at heq hlt hlt'
  exact contentBytes_append_inj (by omega) (by omega) heq

end

/-! ## What is received -/

section
variable {bytes : ℕ → UInt8} {f : Frame}

/-- `get_from_peer` decodes a response. -/
theorem Responds.exec_awaitGet {code : Int32} {content : StdString} (h : Responds bytes code content) :
    ∃ ns, awaitGet.Exec (Prog.blocks bytes ns) [] []
      ⟨code, if code = 200 then cString content else []⟩ := by
  obtain ⟨rest, hbrings⟩ := h
  refine ⟨_, hbrings.2 ▸ RfcNet.exec_awaitGet hbrings.1 ?_⟩
  exact GetRFCResponse.fromBytes_bytes hbrings.1

/-- Anything else terminates it. -/
theorem runs_awaitGet_raise (h : ∀ code content, ¬ Responds bytes code content) :
    ∃ e ns, awaitGet.Runs (Prog.blocks bytes ns) [] [] (.raise e) := by
  rcases brings_or_negative bytes with ⟨f, hbrings⟩ | ⟨size, hneg, hsize⟩
  · cases hres : GetRFCResponse.fromBytes {} f with
    | ok res =>
      have hlt := hbrings.1
      obtain ⟨content, rest, rfl⟩ := GetRFCResponse.exists_of_fromBytes (by omega) hres
      exact absurd ⟨rest, hbrings⟩ (h res.code content)
    | error e =>
      refine ⟨.memory e, [sizeofInt, f.length], ?_⟩
      rw [hbrings.2, awaitGet]
      refine runs_recvInt ?_
      rw [if_neg (ofNat_not_neg hbrings.1)]
      refine .recv_bind (sizeT_ofNat hbrings.1).symm ?_
      rw [hres]
      exact .refl _
  · refine ⟨.badAlloc, [sizeofInt], ?_⟩
    rw [hsize, awaitGet]
    refine runs_recvInt ?_
    rw [if_pos hneg]
    exact .refl _

/-- What `get_rfc` cannot decode terminates it. -/
theorem runs_awaitLookup_raise (n : Int32)
    (h : ∀ f res, Brings bytes f → LookupRFCResponse.fromBytes {} f ≠ .ok res) :
    ∃ e ns, (awaitLookup n).Runs (Prog.blocks bytes ns) [] [] (.raise e) := by
  rcases brings_or_negative bytes with ⟨f, hbrings⟩ | ⟨size, hneg, hsize⟩
  · cases hres : LookupRFCResponse.fromBytes {} f with
    | ok res => exact absurd hres (h f res hbrings)
    | error e =>
      refine ⟨.memory e, [sizeofInt, f.length], ?_⟩
      rw [hbrings.2, awaitLookup]
      refine (Prog.Runs.bind (exec_receiveReply hbrings.1) _).trans ?_
      rw [Prog.done_bind, hres]
      exact .refl _
  · have hreceive : receiveReply.Runs [wireInt size] [] [] (.raise .badAlloc) := by
      rw [receiveReply]
      refine runs_recvInt ?_
      rw [if_pos hneg]
      exact .refl _
    exact ⟨.badAlloc, [sizeofInt], hsize ▸ hreceive.bind _⟩

end

/-! ## One run of `get_rfc` -/

/-- A client that gets an RFC: what it has, and what it will receive. -/
structure Fetch where
  /-- Its address. -/
  myHost : StdString
  /-- It was an argument of `main`, and none is that long. -/
  length_lt : myHost.length < 2 ^ 31
  /-- Its port. -/
  myPort : Int32
  /-- Its directory. -/
  files : Directory
  /-- Which files it can open for writing. -/
  canOpen : StdString → Bool
  /-- What memory holds that nobody has written. -/
  memory : ℕ → ℕ → UInt8
  /-- What it receives from the index. -/
  index : ℕ → UInt8
  /-- What it receives from the peer. -/
  peer : ℕ → UInt8

namespace Fetch

variable (fetch : Fetch)

/-- The calls of `get_from_peer`. -/
def peerAnswer (s : Store) (op : PeerOp) : Except Crash op.Res × Store :=
  (.ok (s.answer fetch.canOpen fetch.memory op).1, (s.answer fetch.canOpen fetch.memory op).2)

/-! ### The peer -/

/-- What comes of `get_from_peer`. -/
def outcomeFromPeer (n : Int32) (s : Store) : Prog.Outcome peerSig Store Bool :=
  (getFromPeer fetch.myHost fetch.myPort n).play fetch.peerAnswer s fetch.peer

section
variable {fetch : Fetch} {n : Int32} {ns : List ℕ} {s s' : Store} {q : Prog peerSig Bool}
  {calls : List peerSig.Call} {outs : List Frame}

/-- A number that is not positive as a `short` terminates it. -/
theorem outcomeFromPeer_null (hn : ¬ 0 < n.toInt16) (s : Store) :
    (fetch.outcomeFromPeer n s).result = .error .nullBuffer ∧
      (fetch.outcomeFromPeer n s).state.files = s.files := by
  have hruns := runs_getFromPeer_null fetch.length_lt fetch.myPort hn (fetch.memory s.allocated)
  have hplay : fetch.outcomeFromPeer n s = _ := hruns.play fetch.peer [] rfl ⟨_, rfl, rfl⟩
  rw [hplay]
  exact ⟨rfl, rfl⟩

/-- For any other, it comes to what it does with what it receives. -/
theorem outcomeFromPeer_eq (hn : 0 < n.toInt16) (s : Store)
    (h : (awaitGet >>= storeReply n).Runs (Prog.blocks fetch.peer ns) calls outs q)
    (hcalls : Prog.Responds fetch.peerAnswer ⟨s.files, s.allocated + 1⟩ calls s') :
    ∃ frames, fetch.outcomeFromPeer n s =
      (q.play fetch.peerAnswer s' fun i ↦ fetch.peer (ns.sum + i)).after frames := by
  have hget := runs_getFromPeer fetch.length_lt fetch.myPort hn (fetch.memory s.allocated)
  exact ⟨_, (hget.trans h).play fetch.peer ns rfl ⟨_, rfl, hcalls⟩⟩

/-- What is no response terminates it. -/
theorem outcomeFromPeer_raise (hn : 0 < n.toInt16) (s : Store)
    (h : ∀ code content, ¬ Responds fetch.peer code content) :
    ∃ e, (fetch.outcomeFromPeer n s).result = .error e ∧
      (fetch.outcomeFromPeer n s).state.files = s.files := by
  obtain ⟨e, ns, hawait⟩ := runs_awaitGet_raise h
  obtain ⟨frames, heq⟩ := outcomeFromPeer_eq hn s (hawait.bind (storeReply n)) rfl
  rw [heq]
  exact ⟨e, rfl, rfl⟩

/-- A response under code 404 is no success. -/
theorem outcomeFromPeer_404 (hn : 0 < n.toInt16) (s : Store) {content : StdString}
    (h : Responds fetch.peer 404 content) :
    (fetch.outcomeFromPeer n s).result = .ok false ∧
      (fetch.outcomeFromPeer n s).state.files = s.files := by
  obtain ⟨ns, hawait⟩ := h.exec_awaitGet
  have hruns := (Prog.Runs.bind hawait (storeReply n)).trans (exec_storeReply_404 n [])
  rw [List.append_nil] at hruns
  obtain ⟨frames, heq⟩ := outcomeFromPeer_eq hn s hruns ⟨_, rfl, rfl⟩
  rw [heq]
  exact ⟨rfl, rfl⟩

/-- A response under any other code is stored, with no content unless the code is 200. -/
theorem outcomeFromPeer_stored (hn : 0 < n.toInt16) (s : Store) {code : Int32} {content : StdString}
    (h : Responds fetch.peer code content) (hcode : code ≠ 404) :
    (fetch.outcomeFromPeer n s).result = .ok true ∧ (fetch.outcomeFromPeer n s).state.files =
      (RFCManager.addRfc fetch.canOpen s.files n (if code = 200 then cString content else [])).2 := by
  obtain ⟨ns, hawait⟩ := h.exec_awaitGet
  have hruns := (Prog.Runs.bind hawait (storeReply n)).trans (exec_storeReply hcode n _
    (RFCManager.addRfc fetch.canOpen s.files n (if code = 200 then cString content else [])).1)
  rw [List.append_nil] at hruns
  obtain ⟨frames, heq⟩ := outcomeFromPeer_eq hn s hruns ⟨_, rfl, _, rfl, rfl⟩
  rw [heq]
  exact ⟨rfl, rfl⟩

/-- What `get_from_peer` leaves in the directory. -/
theorem files_outcomeFromPeer (fetch : Fetch) (n : Int32) (s : Store) :
    (fetch.outcomeFromPeer n s).state.files = s.files ∨ ∃ content,
      (fetch.outcomeFromPeer n s).state.files = (RFCManager.addRfc fetch.canOpen s.files n content).2 := by
  by_cases hn : 0 < n.toInt16
  · by_cases hresponds : ∃ code content, Responds fetch.peer code content
    · obtain ⟨code, content, hresponds⟩ := hresponds
      by_cases hcode : code = 404
      · subst hcode
        exact .inl (outcomeFromPeer_404 hn s hresponds).2
      · exact .inr ⟨_, (outcomeFromPeer_stored hn s hresponds hcode).2⟩
    · obtain ⟨e, -, hfiles⟩ := outcomeFromPeer_raise hn s fun code content hr ↦ hresponds ⟨code, content, hr⟩
      exact .inl hfiles
  · exact .inl (outcomeFromPeer_null hn s).2

end

/-! ### The index -/

/-- The calls of `get_rfc`.  All names in the directory can be parsed, as when the client started. -/
def answer (s : Store) : (op : ClientOp) → Except Crash op.Res × Store
  | .newBytes _ => (.ok (fetch.memory s.allocated), { s with allocated := s.allocated + 1 })
  | .readCommand => (.ok .quit, s)
  | .checkIfRfcStored rfc => (.ok (decide (checkIfRfcStored rfc s.files = .ok true)), s)
  | .getFromPeer rfcNum _ =>
    ((fetch.outcomeFromPeer rfcNum s).result, (fetch.outcomeFromPeer rfcNum s).state)
  | .decoded _ _ => (.ok (), s)
  | .disconnect => (.ok (), s)

/-- What comes of getting the RFC `n`. -/
def outcome (n : Int32) : Prog.Outcome clientSig Store Unit :=
  (getRfc n).play fetch.answer ⟨fetch.files, 0⟩ fetch.index

/-- **The index advertises only what its holder has.** -/
structure Honest (n : Int32) : Prop where
  /-- An RFC that is advertised can be read, and is what the peer sent under code 200. -/
  advertised : .add n ∈ requests (fetch.outcome n).sent → ∃ content,
    Responds fetch.peer 200 content ∧ getContent (fetch.outcome n).state.files n = some content
  /-- Where it is not, nothing else is, and the files are as they were. -/
  unchanged : .add n ∉ requests (fetch.outcome n).sent →
    additions (fetch.outcome n).sent = [] ∧ (fetch.outcome n).state.files = fetch.files

/-- The response can be stored as it is, or says that there is no such file. -/
def Sound (n : Int32) : Prop := ∀ code content, Responds fetch.peer code content →
  code = 404 ∨ (code = 200 ∧ fetch.canOpen (fileName n) = true ∧
    (0 : UInt8) ∉ content ∧ (255 : UInt8) ∉ content)

/-! ### The cases -/

/-- What `get_rfc` does with the result of `get_from_peer`. -/
def conclude (n : Int32) (got : Bool) : Prog clientSig Unit := do
  if !got then return ()
  else
    askAdd n
    let _ ← awaitAdd n
    return ()

/-- What `get_rfc` does with the reply to LOOKUP. -/
def proceed (n : Int32) (res : LookupRFCResponse) : Prog clientSig Unit := do
  if res.code = 404 then return ()
  else
    match res.hosts with
    | [] => .raise .emptyList
    | peer :: _ =>
      let got ← ask (.getFromPeer n peer)
      conclude n got

section
variable {fetch : Fetch} {n : Int32} {ns : List ℕ} {s : Store} {q : Prog clientSig Unit}
  {calls : List clientSig.Call} {outs : List Frame}

theorem runs_getRfc (hn : 0 < n) (heap : ℕ → UInt8) :
    (getRfc n).Runs [] [⟨.checkIfRfcStored n, false⟩, ⟨.newBytes sizeofInt, heap⟩]
      [wireInt P2SMessage.lookup.toInt, wireInt n] (awaitLookup n >>= proceed n) := by
  rw [getRfc, if_neg (Int32.not_le.mpr hn)]
  exact runs_ask (Prog.Runs.bind (exec_askLookup hn heap) _)

/-- For a number that is not stored, `get_rfc` comes to what it does with what it receives. -/
theorem outcome_eq (hn : 0 < n) (hstored : checkIfRfcStored n fetch.files = .ok false)
    (h : (awaitLookup n >>= proceed n).Runs (Prog.blocks fetch.index ns) calls outs q)
    (hcalls : Prog.Responds fetch.answer ⟨fetch.files, 1⟩ calls s) :
    fetch.outcome n = (q.play fetch.answer s fun i ↦ fetch.index (ns.sum + i)).after
      ([wireInt P2SMessage.lookup.toInt, wireInt n] ++ outs) := by
  have hlookup := runs_getRfc hn (fetch.memory 0)
  have hcheck : fetch.answer ⟨fetch.files, 0⟩ (.checkIfRfcStored n) =
      (.ok false, ⟨fetch.files, 0⟩) := by
    rw [answer, hstored]
    rfl
  exact (hlookup.trans h).play fetch.index ns rfl ⟨_, hcheck, _, rfl, hcalls⟩

/-- Nothing has been advertised, and nothing stored. -/
def Idle (fetch : Fetch) (n : Int32) : Prop :=
  (fetch.outcome n).sent = [wireInt P2SMessage.lookup.toInt, wireInt n] ∧
    (fetch.outcome n).state.files = fetch.files

/-- What was stored has been advertised. -/
def Advertised (fetch : Fetch) (n : Int32) (content : StdString) : Prop :=
  (fetch.outcome n).sent = [wireInt P2SMessage.lookup.toInt, wireInt n,
    wireInt P2SMessage.add.toInt, wireInt n] ∧
  (fetch.outcome n).state.files = (RFCManager.addRfc fetch.canOpen fetch.files n content).2

theorem idle_of_no_offer (hn : 0 < n) (hstored : checkIfRfcStored n fetch.files = .ok false)
    (h : ¬ Offers fetch.index) : fetch.Idle n := by
  by_cases hdecodes : ∃ f res, Brings fetch.index f ∧ LookupRFCResponse.fromBytes {} f = .ok res
  · obtain ⟨f, res, hbrings, hres⟩ := hdecodes
    have hawait := exec_awaitLookup n hbrings.1 hres
    rw [← hbrings.2] at hawait
    rw [Idle, outcome_eq hn hstored (Prog.Runs.bind hawait (proceed n)) ⟨_, rfl, rfl⟩,
      Prog.done_bind, proceed]
    split
    · exact ⟨rfl, rfl⟩
    · rename_i hcode
      split
      · exact ⟨rfl, rfl⟩
      · rename_i peer rest hhosts
        exact absurd ⟨f, res, peer, rest, hbrings, hres, hcode, hhosts⟩ h
  · obtain ⟨e, ns, hawait⟩ := runs_awaitLookup_raise n fun f res hbrings hres ↦
      hdecodes ⟨f, res, hbrings, hres⟩
    rw [Idle, outcome_eq hn hstored (hawait.bind (proceed n)) rfl]
    exact ⟨rfl, rfl⟩

/-- The index names a peer, and `get_from_peer` is called. -/
theorem runs_awaitLookup_offer (h : Offers fetch.index) : ∃ ns peer res,
    (awaitLookup n >>= proceed n).Runs (Prog.blocks fetch.index ns)
      [⟨.decoded (.lookup n) (.lookedUp res), ()⟩] []
      (ask (.getFromPeer n peer) >>= conclude n) := by
  obtain ⟨f, res, peer, rest, hbrings, hres, hcode, hhosts⟩ := h
  have hruns := Prog.Runs.bind (exec_awaitLookup n hbrings.1 hres) (proceed n)
  rw [← hbrings.2, Prog.done_bind, proceed, if_neg hcode, hhosts] at hruns
  exact ⟨_, peer, res, hruns⟩

/-- The index is told, and answers something. -/
theorem runs_conclude (hn : 0 < n) (heap bytes : ℕ → UInt8) : ∃ res,
    (conclude n true).Exec (Prog.blocks bytes [sizeofInt])
      [⟨.newBytes sizeofInt, heap⟩, ⟨.decoded (.add n) (.added res), ()⟩]
      [wireInt P2SMessage.add.toInt, wireInt n] () := by
  have hcode := wireInt_unwireInt (length_block bytes sizeofInt)
  have hawait := exec_awaitAdd n ⟨unwireInt ((List.range sizeofInt).map bytes)⟩
  rw [hcode] at hawait
  have hadd := (Prog.Runs.bind (exec_askAdd hn heap) fun _ ↦ awaitAdd n >>= fun _ ↦ .done ()).trans
    (Prog.Runs.bind hawait fun _ ↦ .done ())
  exact ⟨_, hadd⟩

theorem answer_getFromPeer (fetch : Fetch) (n : Int32) (peer : Client) (s : Store) :
    fetch.answer s (.getFromPeer n peer) =
      ((fetch.outcomeFromPeer n s).result, (fetch.outcomeFromPeer n s).state) := rfl

/-- A visit that ends with an exception, or without success, is not advertised. -/
theorem idle_of_no_success (hn : 0 < n) (hstored : checkIfRfcStored n fetch.files = .ok false)
    (hoffer : Offers fetch.index)
    (hresult : (fetch.outcomeFromPeer n ⟨fetch.files, 1⟩).result ≠ .ok true)
    (hfiles : (fetch.outcomeFromPeer n ⟨fetch.files, 1⟩).state.files = fetch.files) :
    fetch.Idle n := by
  obtain ⟨ns, peer, res, hruns⟩ := runs_awaitLookup_offer hoffer
  have hanswer := fetch.answer_getFromPeer n peer ⟨fetch.files, 1⟩
  cases hcall : (fetch.outcomeFromPeer n ⟨fetch.files, 1⟩).result with
  | error e =>
    rw [hcall] at hanswer
    have hplay : ∀ bytes, (ask (.getFromPeer n peer) >>= conclude n).play fetch.answer
        ⟨fetch.files, 1⟩ bytes = ⟨[], _, .error e⟩ := fun bytes ↦ Prog.play_call_error hanswer
    rw [Idle, outcome_eq hn hstored hruns ⟨_, rfl, rfl⟩, hplay]
    exact ⟨rfl, hfiles⟩
  | ok got =>
    obtain rfl : got = false := by
      rw [hcall] at hresult
      exact Bool.eq_false_of_not_eq_true fun htrue ↦ hresult (htrue ▸ rfl)
    rw [hcall] at hanswer
    have hdone : (ask (.getFromPeer n peer) >>= conclude n).Runs []
        [⟨.getFromPeer n peer, false⟩] [] (.done ()) := runs_ask (.refl _)
    have hall := hruns.trans hdone
    rw [List.append_nil] at hall
    rw [Idle, outcome_eq hn hstored hall ⟨_, rfl, _, hanswer, rfl⟩]
    exact ⟨rfl, hfiles⟩

/-- A visit that succeeds is advertised. -/
theorem advertised_of_success (hn : 0 < n) (hstored : checkIfRfcStored n fetch.files = .ok false)
    (hoffer : Offers fetch.index) {content : StdString}
    (hresult : (fetch.outcomeFromPeer n ⟨fetch.files, 1⟩).result = .ok true)
    (hfiles : (fetch.outcomeFromPeer n ⟨fetch.files, 1⟩).state.files =
      (RFCManager.addRfc fetch.canOpen fetch.files n content).2) : fetch.Advertised n content := by
  obtain ⟨ns, peer, res, hruns⟩ := runs_awaitLookup_offer hoffer
  have hanswer := fetch.answer_getFromPeer n peer ⟨fetch.files, 1⟩
  rw [hresult] at hanswer
  obtain ⟨added, hconclude⟩ := runs_conclude hn
    (fetch.memory (fetch.outcomeFromPeer n ⟨fetch.files, 1⟩).state.allocated)
    fun i ↦ fetch.index (ns.sum + i)
  have htold : (ask (.getFromPeer n peer) >>= conclude n).Runs _ _ _ _ := runs_ask hconclude
  have hall := hruns.trans htold
  rw [← Prog.blocks_append] at hall
  rw [Advertised, outcome_eq hn hstored hall ⟨_, rfl, _, hanswer, _, rfl, _, rfl, rfl⟩]
  exact ⟨rfl, hfiles⟩

/-! ### What is advertised -/

theorem requests_lookup (n : Int32) (rest : List Frame) :
    requests (wireInt P2SMessage.lookup.toInt :: wireInt n :: rest) = .lookup n :: requests rest := by
  rw [requests_of_length (length_wireInt _), unwireInt_wireInt, P2SMessage.ofInt?_toInt]
  simp only [length_wireInt, sizeofInt, if_true, unwireInt_wireInt]

theorem requests_add (n : Int32) (rest : List Frame) :
    requests (wireInt P2SMessage.add.toInt :: wireInt n :: rest) = .add n :: requests rest := by
  rw [requests_of_length (length_wireInt _), unwireInt_wireInt, P2SMessage.ofInt?_toInt]
  simp only [length_wireInt, sizeofInt, if_true, unwireInt_wireInt]

theorem Idle.honest (h : fetch.Idle n) : fetch.Honest n := by
  obtain ⟨hsent, hfiles⟩ := h
  have hrequests : requests (fetch.outcome n).sent = [.lookup n] := by
    rw [hsent, requests_lookup, requests_nil]
  refine ⟨fun hadd ↦ ?_, fun _ ↦ ⟨?_, hfiles⟩⟩
  · rw [hrequests] at hadd
    simp at hadd
  · rw [additions, hrequests]
    rfl

theorem Advertised.add_mem {content : StdString} (h : fetch.Advertised n content) :
    .add n ∈ requests (fetch.outcome n).sent := by
  rw [h.1, requests_lookup, requests_add]
  simp

/-- A response that is not handled, for one reason or another. -/
theorem idle_or_handled (hn : 0 < n) (hstored : checkIfRfcStored n fetch.files = .ok false) :
    fetch.Idle n ∨ (Offers fetch.index ∧ 0 < n.toInt16) := by
  by_cases hoffer : Offers fetch.index
  · by_cases hpos : 0 < n.toInt16
    · exact .inr ⟨hoffer, hpos⟩
    · obtain ⟨hresult, hfiles⟩ := fetch.outcomeFromPeer_null hpos ⟨fetch.files, 1⟩
      exact .inl (idle_of_no_success hn hstored hoffer (by rw [hresult]; simp) hfiles)
  · exact .inl (idle_of_no_offer hn hstored hoffer)

/-- A response that is handled is stored and advertised, unless its code is 404. -/
theorem advertised_of_responds (hn : 0 < n) (hstored : checkIfRfcStored n fetch.files = .ok false)
    (hoffer : Offers fetch.index) (hpos : 0 < n.toInt16) {code : Int32} {content : StdString}
    (h : Responds fetch.peer code content) (hcode : code ≠ 404) :
    fetch.Advertised n (if code = 200 then cString content else []) := by
  obtain ⟨hresult, hfiles⟩ := outcomeFromPeer_stored hpos ⟨fetch.files, 1⟩ h hcode
  exact advertised_of_success hn hstored hoffer hresult hfiles

/-- **A sound response is enough.** -/
theorem honest_of_sound (hn : 0 < n) (hstored : checkIfRfcStored n fetch.files = .ok false)
    (h : Offers fetch.index → 0 < n.toInt16 → fetch.Sound n) : fetch.Honest n := by
  rcases idle_or_handled hn hstored with hidle | ⟨hoffer, hpos⟩
  · exact hidle.honest
  by_cases hresponds : ∃ code content, Responds fetch.peer code content
  · obtain ⟨code, content, hresponds⟩ := hresponds
    rcases h hoffer hpos code content hresponds with rfl | ⟨rfl, hopen, hzero, heof⟩
    · obtain ⟨hresult, hfiles⟩ := outcomeFromPeer_404 hpos ⟨fetch.files, 1⟩ hresponds
      exact (idle_of_no_success hn hstored hoffer (by rw [hresult]; simp) hfiles).honest
    · have hadv := advertised_of_responds hn hstored hoffer hpos hresponds (by decide)
      rw [if_pos rfl, cString_eq_self hzero] at hadv
      refine ⟨fun _ ↦ ⟨content, hresponds, ?_⟩, fun hnot ↦ absurd hadv.add_mem hnot⟩
      rw [hadv.2, getContent_addRfc hopen, cString_eq_self hzero, untilEof_eq_self heof]
  · obtain ⟨e, hresult, hfiles⟩ := outcomeFromPeer_raise hpos ⟨fetch.files, 1⟩
      fun code content hr ↦ hresponds ⟨code, content, hr⟩
    exact (idle_of_no_success hn hstored hoffer (by rw [hresult]; simp) hfiles).honest

/-- **A sound response is needed.** -/
theorem Honest.sound (hn : 0 < n) (hstored : checkIfRfcStored n fetch.files = .ok false)
    (h : fetch.Honest n) (hoffer : Offers fetch.index) (hpos : 0 < n.toInt16) : fetch.Sound n := by
  intro code content hresponds
  by_cases hcode : code = 404
  · exact .inl hcode
  have hadv := advertised_of_responds hn hstored hoffer hpos hresponds hcode
  obtain ⟨content', hresponds', hget⟩ := h.advertised hadv.add_mem
  obtain ⟨rfl, hcontent⟩ := hresponds.unique hresponds'
  obtain rfl := hcontent rfl
  rw [hadv.2, if_pos rfl] at hget
  by_cases hopen : fetch.canOpen (fileName n) = true
  · rw [getContent_addRfc hopen, cString_eq_self (zero_notMem_cString _), Option.some_inj] at hget
    refine .inr ⟨rfl, hopen, fun hzero ↦ ?_, fun heof ↦ ?_⟩
    · rw [← hget] at hzero
      exact zero_notMem_cString _ (List.takeWhile_subset _ hzero)
    · rw [← hget] at heof
      simpa using List.mem_takeWhile_imp heof
  · have hnone := lookup_of_not_stored (Int32.le_of_lt hn) hstored
    rw [RFCManager.addRfc, if_neg hopen, getContent, hnone] at hget
    cases hget

/-- **The index advertises only what its holder has**, for a number that is not stored yet, if and only if
a response that is handled has the code 404, or has the code 200 and can be stored as it is. -/
theorem honest_iff (hn : 0 < n) (hstored : checkIfRfcStored n fetch.files = .ok false) :
    fetch.Honest n ↔ (Offers fetch.index → 0 < n.toInt16 → fetch.Sound n) :=
  ⟨fun h hoffer hpos ↦ h.sound hn hstored hoffer hpos, honest_of_sound hn hstored⟩

end

/-! ### A response that cannot be stored -/

/-- Bytes that are given, and zeros. -/
def ofList (l : Frame) (i : ℕ) : UInt8 := l.getD i 0

theorem block_ofList (before f after : Frame) :
    ((List.range f.length).map fun i ↦ ofList (before ++ f ++ after) (before.length + i)) = f := by
  refine List.ext_getElem (by simp) fun i hi hi' ↦ ?_
  rw [List.getElem_map, List.getElem_range, ofList, List.getD_eq_getElem?_getD, List.append_assoc,
    List.getElem?_append_right (by omega), Nat.add_sub_cancel_left, List.getElem?_append_left hi',
    List.getElem?_eq_getElem hi', Option.getD_some]

/-- A frame with its size before it. -/
theorem brings_ofList {f : Frame} (h : f.length < 2 ^ 31) :
    Brings (ofList (wireInt (Int32.ofNat f.length) ++ f)) f := by
  have hsize := block_ofList [] (wireInt (Int32.ofNat f.length)) f
  have hframe := block_ofList (wireInt (Int32.ofNat f.length)) f []
  simp only [List.nil_append, List.append_nil, length_wireInt, List.length_nil, Nat.zero_add]
    at hsize hframe
  refine ⟨h, ?_⟩
  rw [Prog.blocks, Prog.blocks, Prog.blocks]
  exact congrArg₂ _ hsize (congrArg (· :: []) hframe)

/-- A client without files, which is sent `hi` by a peer that the index names. -/
def offered (canOpen : StdString → Bool) : Fetch where
  myHost := [49, 50, 55]
  length_lt := (by decide : 3 < 2 ^ 31)
  myPort := 5000
  files := ∅
  canOpen := canOpen
  memory _ _ := 0
  index := ofList (wireInt (Int32.ofNat (replyBytes clientBytes [⟨[49], 5001⟩]).length) ++
    replyBytes clientBytes [⟨[49], 5001⟩])
  peer := ofList (wireInt (Int32.ofNat (contentBytes [104, 105]).length) ++ contentBytes [104, 105])

theorem offers_offered (canOpen : StdString → Bool) : Offers (offered canOpen).index := by
  have hdecode : LookupRFCResponse.fromBytes {} (replyBytes clientBytes [⟨[49], 5001⟩] ++ []) = _ :=
    LookupRFCResponse.fromBytes_toBytes (by decide) (by decide) {} []
  rw [List.append_nil] at hdecode
  exact ⟨_, _, _, [], brings_ofList (by rw [LookupRFCResponse.length_bytes]; decide), hdecode,
    show (200 : Int32) ≠ 404 by decide, rfl⟩

theorem responds_offered (canOpen : StdString → Bool) :
    Responds (offered canOpen).peer 200 [104, 105] := by
  refine ⟨[], ?_⟩
  rw [List.append_nil, GetRFCResponse.bytes, if_pos rfl]
  exact brings_ofList (by rw [length_contentBytes]; decide)

/-- What can be stored is advertised honestly. -/
theorem honest_offered : (offered fun _ ↦ true).Honest 7 := by
  refine (honest_iff (by decide) rfl).mpr fun _ _ code content h ↦ .inr ?_
  obtain ⟨rfl, hcontent⟩ := (responds_offered _).unique h
  rw [← hcontent rfl]
  exact ⟨rfl, rfl, by decide, by decide⟩

/-- RFC 7 is advertised by a client that could not open a file for it. -/
theorem phantom_offered : 0 < (7 : Int32) ∧
    checkIfRfcStored 7 (offered fun _ ↦ false).files = .ok false ∧
    ¬ (offered fun _ ↦ false).Honest 7 := by
  refine ⟨by decide, rfl, fun h ↦ ?_⟩
  have hsound := h.sound (by decide) rfl (offers_offered _) (by decide)
  rcases hsound 200 [104, 105] (responds_offered _) with hcode | ⟨-, hopen, -⟩
  · exact absurd hcode (by decide)
  · cases hopen

end Fetch

end RfcNet
