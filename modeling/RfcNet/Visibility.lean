import RfcNet.Replying
import RfcNet.World

/-!
# What a connected session has registered

A session is known to the index only by the pair it has announced, and nothing keeps another session
from announcing the same one: `client_handler` does not look at what `add_client` says.  What the
first has registered is then at the mercy of the second, which takes it all away when it leaves
(`vanished_reachable`).  Nor does anything keep a session from announcing a pair that no reply can carry,
and LIST then fails for everybody.

A session has registered an RFC from the critical section of the ADD on that is answered by code 200, and it is
connected until it has received DISCONNECT.  That it never removes its client before is in the text of the handler
(`clientHandler_leavesWhenTold`).

`Visible` says what requests should be answered as long as a session is connected, and `Undisturbed`
which steps the other sessions, those that had the pair before and the session itself have to keep from.
`visible_iff_undisturbed` says that the one comes to the same as the other, run by run.
-/

set_option autoImplicit false

namespace RfcNet

open Lib

/-- The client is registered, and with exactly the numbers `ns`. -/
def CentralIndex.Keeps (ix : CentralIndex) (c : Client) (ns : List Int32) : Prop :=
  c ∈ ix.clients ∧ ∀ n, ⟨n, c⟩ ∈ ix.rfcs ↔ n ∈ ns

/-! ## What a session has added -/

/-- The number that a critical section registered, if its result says that it did. -/
def IndexOp.registered : (op : IndexOp) → op.Res → List Int32
  | .addRfc _ _ n, r => if r then [n] else []
  | _, _ => []

section
variable {ι : Type} [DecidableEq ι]

/-- The numbers for which a session has received code 200. -/
def added (log : List (Entry ι)) (i : ι) : List Int32 :=
  (log.filter fun e ↦ e.who = i).flatMap fun e ↦ e.op.registered e.res

variable {log : List (Entry ι)} {i : ι} {e : Entry ι}

theorem added_append_self (h : e.who = i) :
    added (log ++ [e]) i = added log i ++ e.op.registered e.res := by
  simp [added, h]

theorem added_append_of_ne (h : e.who ≠ i) : added (log ++ [e]) i = added log i := by
  simp [added, h]

theorem Phase.next_ne_fresh (ph : Phase) (op : IndexOp) : ph.next op ≠ some .fresh := by
  intro h
  cases moves_of_next h

/-- A session that is still at its start has entered no critical section. -/
theorem opsOf_eq_nil (h : phaseOf log i = some .fresh) : opsOf log i = [] := by
  rw [phaseOf] at h
  rcases List.eq_nil_or_concat (opsOf log i) with hnil | ⟨ops, op, hops⟩
  · exact hnil
  · rw [hops, List.concat_eq_append, List.foldlM_append, Option.bind_eq_bind] at h
    obtain ⟨ph, -, hlast⟩ := Option.bind_eq_some_iff.mp h
    exact absurd (by simpa using hlast) (ph.next_ne_fresh op)

theorem added_eq_nil (h : phaseOf log i = some .fresh) : added log i = [] := by
  have hfilter : (log.filter fun e ↦ e.who = i) = [] := List.map_eq_nil_iff.mp (opsOf_eq_nil h)
  rw [added, hfilter, List.flatMap_nil]

end

/-! ## When a session disconnects -/

/-- The session is about to remove its client. -/
def Leaves {α : Type} : Prog serverSig α → Prop
  | .callThen (.index (.eraseHolders _ _)) _ => True
  | _ => False

/-- The session removes its client only when it has just received something. -/
def LeavesWhenTold {α : Type} : Prog serverSig α → Prop
  | .done _ => True
  | .raise _ => True
  | .sendThen _ k => ¬ Leaves k ∧ LeavesWhenTold k
  | .recvThen _ k => ∀ f, LeavesWhenTold (k f)
  | .callThen _ k => ∀ r, ¬ Leaves (k r) ∧ LeavesWhenTold (k r)

/-- The session is not about to remove its client, and comes to that only when it is told. -/
def Stays {α : Type} (p : Prog serverSig α) : Prop := ¬ Leaves p ∧ LeavesWhenTold p

section
variable {α β : Type} {p : Prog serverSig α} {g : α → Prog serverSig β}

theorem not_leaves_bind (hp : ¬ Leaves p) (hg : ∀ a, ¬ Leaves (g a)) : ¬ Leaves (p >>= g) := by
  match p with
  | .done a => exact hg a
  | .raise _ => exact id
  | .sendThen _ _ => exact id
  | .recvThen _ _ => exact id
  | .callThen (.index (.eraseHolders _ _)) _ => exact absurd trivial hp
  | .callThen (.index (.addClient _ _)) _ => exact id
  | .callThen (.index (.eraseClient _ _)) _ => exact id
  | .callThen (.index (.addRfc _ _ _)) _ => exact id
  | .callThen (.index (.findRfcs _)) _ => exact id
  | .callThen (.index .allRfcs) _ => exact id
  | .callThen (.newBytes _) _ => exact id
  | .callThen .close _ => exact id

theorem LeavesWhenTold.bind (hp : LeavesWhenTold p) (hg : ∀ a, Stays (g a)) : LeavesWhenTold (p >>= g) := by
  induction p with
  | done a => exact (hg a).2
  | raise e => trivial
  | sendThen f k ih => exact ⟨not_leaves_bind hp.1 fun a ↦ (hg a).1, ih hp.2⟩
  | recvThen n k ih => exact fun f ↦ ih f (hp f)
  | callThen op k ih => exact fun r ↦ ⟨not_leaves_bind (hp r).1 fun a ↦ (hg a).1, ih r (hp r).2⟩

theorem Stays.bind (hp : Stays p) (hg : ∀ a, Stays (g a)) : Stays (p >>= g) :=
  ⟨not_leaves_bind hp.1 fun a ↦ (hg a).1, hp.2.bind hg⟩

theorem stays_done (a : α) : Stays (.done a) := ⟨id, trivial⟩

theorem stays_recv (n : ℕ) : Stays (.recv n) := ⟨id, fun _ ↦ trivial⟩

theorem stays_recvInt : Stays recvInt := ⟨id, fun _ ↦ trivial⟩

theorem stays_sendInt (x : Int32) : Stays (sendInt x) := ⟨id, id, trivial⟩

theorem stays_sendBuffer (buf : Option Frame) (len : ℕ) : Stays (sendBuffer buf len) := by
  cases buf with
  | none => exact ⟨id, trivial⟩
  | some f =>
    rw [sendBuffer.eq_2]
    split
    · exact ⟨id, trivial⟩
    · exact ⟨id, id, trivial⟩

theorem stays_ofExcept {ε : Type} (err : ε → Crash) (x : Except ε α) : Stays (.ofExcept err x) := by
  cases x with
  | ok a => exact ⟨id, trivial⟩
  | error e => exact ⟨id, trivial⟩

theorem stays_sendReply (buf : Option Frame) (messageSize : UInt32) : Stays (sendReply buf messageSize) :=
  (stays_sendInt _).bind fun _ ↦ stays_sendBuffer _ _

theorem stays_allocate (n : ℕ) : Stays (allocate n) := ⟨id, fun _ ↦ ⟨id, trivial⟩⟩

end

theorem stays_handleMessage (host : StdString) (uploadPort message : Int32) :
    Stays (handleMessage host uploadPort message) := by
  have hadd : Stays (addRfc host uploadPort) :=
    (stays_recv _).bind fun _ ↦ (stays_ofExcept _ _).bind fun _ ↦
      Stays.bind ⟨id, fun _ ↦ ⟨id, trivial⟩⟩ fun _ ↦ (stays_allocate _).bind fun _ ↦
        (stays_ofExcept _ _).bind fun _ ↦ stays_sendBuffer _ _
  have hlist : Stays listRfcs :=
    Stays.bind ⟨id, fun _ ↦ ⟨id, trivial⟩⟩ fun _ ↦ (stays_allocate _).bind fun _ ↦
      (stays_ofExcept _ _).bind fun _ ↦ stays_sendReply _ _
  have hlookup : Stays lookupRfc :=
    (stays_recv _).bind fun _ ↦ (stays_ofExcept _ _).bind fun _ ↦
      Stays.bind ⟨id, fun _ ↦ ⟨id, trivial⟩⟩ fun _ ↦ (stays_allocate _).bind fun _ ↦
        (stays_ofExcept _ _).bind fun _ ↦ stays_sendReply _ _
  rw [handleMessage]
  split
  · exact hadd
  · exact hlist
  · exact hlookup
  · exact stays_done ()

/-- **A round removes the client** only if the command it has received is DISCONNECT. -/
theorem stays_messageLoop (s : Session) : Stays (messageLoop s) := by
  refine ⟨id, fun f ↦ ?_⟩
  show LeavesWhenTold (handleMessage s.host s.uploadPort (unwireInt f) >>= fun _ ↦ _)
  by_cases hmessage : unwireInt f = P2SMessage.disconnect.toInt
  · rw [hmessage]
    exact fun _ ↦ ⟨id, fun _ ↦ ⟨id, fun _ ↦ ⟨id, trivial⟩⟩⟩
  · refine (stays_handleMessage _ _ _).2.bind fun _ ↦ ?_
    rw [if_pos hmessage]
    exact stays_done _

theorem clientHandler_leavesWhenTold : LeavesWhenTold clientHandler := by
  have hhello : Stays receiveHello := by
    refine stays_recvInt.bind fun hostLen ↦ ?_
    split
    · exact ⟨id, trivial⟩
    · exact (stays_recv _).bind fun _ ↦ stays_recvInt.bind fun _ ↦
        Stays.bind ⟨id, fun _ ↦ ⟨id, trivial⟩⟩ fun _ ↦ (stays_allocate _).bind fun _ ↦ stays_done _
  refine ((stays_sendInt _).bind fun _ ↦ stays_recvInt.bind fun clientVersion ↦ ?_).2
  split
  · exact stays_done _
  · exact hhello.bind fun _ ↦ stays_done _

namespace World

variable {ι : Type} [DecidableEq ι]

/-- The session `i` is connected, and has something in the index. -/
structure Serves (w : World ι) (i : ι) (h : StdString) (p : Int32) : Prop where
  /-- It has announced `(h, p)`. -/
  announced : phaseOf w.log i = some (.serving h p)
  /-- Some ADD of its own is answered by code 200. -/
  registered : added w.log i ≠ []
  /-- It has not been sent DISCONNECT. -/
  connected : ¬ Leaves (w.sess i)

/-- **Visibility.**  Of every such session, in the state `w`: the client is registered; to whomever
asks, LOOKUP of a number it has added returns its pair, and LIST the association; and an ADD of a number
it has not added is answered by code 200. -/
def Visible (w : World ι) : Prop :=
  ∀ i h p, w.Serves i h p →
    ⟨h, p⟩ ∈ w.index.clients ∧
    (∀ n ∈ added w.log i, (∃ res, w.index.LookupReturns n res ∧ ⟨h, p⟩ ∈ res.hosts) ∧
      ∃ res, w.index.ListReturns res ∧ ⟨n, ⟨h, p⟩⟩ ∈ res.holders) ∧
    ∀ m ∉ added w.log i, ∃ res, w.index.AddReturns h p m res ∧ res.code = 200

/-- The critical section, entered by `who`, disturbs somebody: it removes the pair of another session,
or registers an RFC for it, or it is the first addition of its own session and something is there
already that others have left; or it registers what no reply can carry, or more than one can. -/
def Disturbs (w : World ι) (who : ι) : IndexOp → Prop
  | .eraseHolders h p | .eraseClient h p => ∃ i ≠ who, w.Serves i h p
  | .addRfc h p n => ⟨h, p⟩ ∈ w.index.clients ∧ ⟨n, ⟨h, p⟩⟩ ∉ w.index.rfcs ∧
      ((∃ i ≠ who, w.Serves i h p) ∨ (added w.log who = [] ∧ ∃ r ∈ w.index.rfcs, r.peer = ⟨h, p⟩) ∨
        ¬ Client.Listable ⟨h, p⟩ ∨ 2 ^ 31 ≤ listSize w.index.rfcs + (h.length + 12))
  | _ => False

/-- The session that moves disturbs nobody. -/
def Undisturbed (w : World ι) (e : Event ι) : Prop :=
  ∀ op ∈ w.pending e.who, ¬ w.Disturbs e.who op

variable {w w' : World ι} {e : Event ι} {i j : ι} {h : StdString} {p : Int32}

/-- The same in terms of the index alone: the associations of the pair are the ones the session has
added, and all that there is can be listed. -/
theorem visible_iff (hhosts : ∀ r ∈ w.index.rfcs, (0 : UInt8) ∉ r.peer.host) : w.Visible ↔
    ∀ i h p, w.Serves i h p → w.index.Keeps ⟨h, p⟩ (added w.log i) ∧ w.index.Fits := by
  refine forall₄_congr fun i h p hserves ↦ ?_
  constructor
  · rintro ⟨hc, hadded, hnew⟩
    have hlist : ∀ n ∈ added w.log i, w.index.Fits ∧ ⟨n, ⟨h, p⟩⟩ ∈ w.index.rfcs := fun n hn ↦ by
      obtain ⟨-, res, hres, hmem⟩ := hadded n hn
      obtain ⟨hfits, rfl⟩ := (CentralIndex.listReturns_iff hhosts).mp hres
      exact ⟨hfits, hmem⟩
    obtain ⟨n, hn⟩ := List.exists_mem_of_ne_nil _ hserves.registered
    refine ⟨⟨hc, fun m ↦ ⟨fun hm ↦ ?_, fun hm ↦ (hlist m hm).2⟩⟩, (hlist n hn).1⟩
    by_contra hno
    obtain ⟨res, hres, hcode⟩ := hnew m hno
    rw [CentralIndex.addReturns_iff.mp hres] at hcode
    exact (CentralIndex.addRfc_fst.mp (addReply_code.mp hcode)).1 hm
  · rintro ⟨⟨hc, hrfcs⟩, hfits⟩
    refine ⟨hc, fun n hn ↦ ⟨?_, ?_⟩, fun m hm ↦ ?_⟩
    · exact ⟨_, hfits.lookupReturns hhosts n, CentralIndex.mem_findRfcs.mpr ((hrfcs n).mpr hn)⟩
    · exact ⟨_, hfits.listReturns hhosts, (hrfcs n).mpr hn⟩
    · refine ⟨_, CentralIndex.addReturns_iff.mpr rfl, addReply_code.mpr ?_⟩
      exact CentralIndex.addRfc_fst.mpr ⟨fun hmem ↦ hm ((hrfcs m).mp hmem), hc⟩

/-- **No session leaves before it is told**, whatever the others do. -/
theorem leavesWhenTold_step (hw : ∀ i, LeavesWhenTold (w.sess i)) (hstep : w.step e = some w') (i : ι) :
    LeavesWhenTold (w'.sess i) := by
  have hcode : ∀ code : handler.Code, LeavesWhenTold code →
      LeavesWhenTold (Function.update w.sess e.who code i) := fun code hcode ↦ by
    by_cases hi : i = e.who
    · subst hi
      rwa [Function.update_self]
    · rw [Function.update_of_ne hi]
      exact hw i
  have hwho := hw e.who
  rw [step] at hstep
  split at hstep
  · rename_i s hs
    obtain rfl := Option.some_inj.mp hstep
    exact hcode _ (stays_messageLoop s).2
  · cases hstep
  · cases hstep
  · rename_i f k hs
    obtain rfl := Option.some_inj.mp hstep
    rw [hs] at hwho
    exact hcode k hwho.2
  · rename_i n k hs
    obtain ⟨-, heq⟩ := Option.ite_none_right_eq_some.mp hstep
    obtain rfl := Option.some_inj.mp heq
    rw [hs] at hwho
    exact hcode _ (hwho _)
  · rename_i op k hs
    obtain rfl := Option.some_inj.mp hstep
    rw [hs] at hwho
    exact hcode _ (hwho _).2
  · rename_i n k hs
    obtain rfl := Option.some_inj.mp hstep
    rw [hs] at hwho
    exact hcode _ (hwho _).2
  · rename_i k hs
    obtain rfl := Option.some_inj.mp hstep
    rw [hs] at hwho
    exact hcode _ (hwho _).2

omit [DecidableEq ι] in
/-- A session that is not about to enter a critical section is not about to leave. -/
theorem not_leaves_of_pending (hnone : w.pending i = none) : ¬ Leaves (w.sess i) := by
  intro hleaves
  rw [pending] at hnone
  unfold Leaves at hleaves
  split at hleaves
  · rename_i hs
    rw [hs] at hnone
    cases hnone
  · exact hleaves

/-! ## The critical sections of other sessions -/

section
variable {op : IndexOp} {k : op.Res → handler.Code}

/-- What another session does leaves a session's own record as it is. -/
theorem serves_enter_of_ne (hi : i ≠ j) : (w.enter j op k).Serves i h p ↔ w.Serves i h p := by
  have hphase : phaseOf (w.enter j op k).log i = phaseOf w.log i := phaseOf_append_of_ne (Ne.symm hi)
  have hadded : added (w.enter j op k).log i = added w.log i := added_append_of_ne (Ne.symm hi)
  have hsess : (w.enter j op k).sess i = w.sess i := enter_sess_of_ne hi
  exact ⟨fun hs ↦ ⟨hphase ▸ hs.announced, hadded ▸ hs.registered, hsess ▸ hs.connected⟩,
    fun hs ↦ ⟨hphase.symm ▸ hs.announced, hadded.symm ▸ hs.registered, hsess.symm ▸ hs.connected⟩⟩

/-- Where no critical section is entered, nobody begins to serve. -/
theorem serves_of_goOn {code : handler.Code} (hnone : w.pending j = none) (hs : (w.goOn j code).Serves i h p) :
    w.Serves i h p := by
  refine ⟨hs.announced, hs.registered, ?_⟩
  by_cases hi : i = j
  · subst hi
    exact not_leaves_of_pending hnone
  · rw [← goOn_sess_of_ne hi]
    exact hs.connected

/-- A critical section that disturbs nobody leaves another session's client and associations as
they are. -/
theorem keeps_of_undisturbed {ns : List Int32} (hi : i ≠ j) (hs : w.Serves i h p)
    (hok : ¬ w.Disturbs j op) (hk : w.index.Keeps ⟨h, p⟩ ns) :
    (op.exec w.index).2.Keeps ⟨h, p⟩ ns := by
  refine ⟨?_, fun n ↦ ⟨fun hr ↦ (hk.2 n).mp ?_, fun hn ↦ ?_⟩⟩
  · rcases IndexOp.mem_clients_exec op hk.1 with hc | rfl
    · exact hc
    · exact absurd ⟨i, hi, hs⟩ hok
  · rcases IndexOp.mem_rfcs_of_exec hr with hr | ⟨rfl, hc, hnew⟩
    · exact hr
    · exact absurd ⟨hc, hnew, .inl ⟨i, hi, hs⟩⟩ hok
  · rcases IndexOp.mem_rfcs_exec op ((hk.2 n).mpr hn) with hr | rfl
    · exact hr
    · exact absurd ⟨i, hi, hs⟩ hok

end

/-! ## The session's own critical sections -/

theorem added_enter_self {op : IndexOp} {k : op.Res → handler.Code} :
    added (w.enter i op k).log i = added w.log i ++ op.registered (op.exec w.index).1 :=
  added_append_self rfl

@[simp] theorem registered_findRfcs (n : Int32) (l : List Client) :
    IndexOp.registered (.findRfcs n) l = [] := rfl

@[simp] theorem registered_allRfcs (l : List RFCHolder) : IndexOp.registered .allRfcs l = [] := rfl

/-- A session that serves a pair after a critical section was serving it before, unless it has
only just announced it. -/
theorem serving_of_next {ph : Phase} {op : IndexOp} (hnext : ph.next op = some (.serving h p)) :
    (ph = .fresh ∧ op = .addClient h p) ∨ (ph = .serving h p ∧
      ((∃ n, op = .addRfc h p n) ∨ (∃ n, op = .findRfcs n) ∨ op = .allRfcs)) := by
  cases Phase.moves_of_next hnext with
  | addClient => exact .inl ⟨rfl, rfl⟩
  | addRfc h p n => exact .inr ⟨rfl, .inl ⟨n, rfl⟩⟩
  | findRfcs h p n => exact .inr ⟨rfl, .inr (.inl ⟨n, rfl⟩)⟩
  | allRfcs => exact .inr ⟨rfl, .inr (.inr rfl)⟩

/-- A session's own addition: the number is added, or refused and nothing changes. -/
theorem addRfc_cases (ix : CentralIndex) (h : StdString) (p n : Int32) :
    ((⟨n, ⟨h, p⟩⟩ : RFCHolder) ∉ ix.rfcs ∧ (⟨h, p⟩ : Client) ∈ ix.clients ∧
      (ix.addRfc h p n).1 = true) ∨ ix.addRfc h p n = (false, ix) := by
  by_cases hnew : (⟨n, ⟨h, p⟩⟩ : RFCHolder) ∉ ix.rfcs ∧ (⟨h, p⟩ : Client) ∈ ix.clients
  · exact .inl ⟨hnew.1, hnew.2, CentralIndex.addRfc_fst.mpr hnew⟩
  · rw [CentralIndex.addRfc_eq, if_neg hnew]
    exact .inr rfl

theorem keeps_addRfc {ix : CentralIndex} {ns : List Int32} {n : Int32}
    (hk : ix.Keeps ⟨h, p⟩ ns) : (ix.addRfc h p n).2.Keeps ⟨h, p⟩ (ns ++ [n]) := by
  refine ⟨by rw [CentralIndex.addRfc_clients]; exact hk.1, fun m ↦ ?_⟩
  rw [CentralIndex.mem_addRfc, hk.2 m, List.mem_append, List.mem_singleton, RFCHolder.mk.injEq]
  exact or_congr_right ⟨fun hm ↦ hm.2.1, fun hm ↦ ⟨hk.1, hm, rfl⟩⟩

/-- What a session finds after its own addition. -/
theorem keeps_own_addRfc {n : Int32}
    (hkeeps : added w.log i ≠ [] → w.index.Keeps ⟨h, p⟩ (added w.log i))
    (hok : ¬ w.Disturbs i (.addRfc h p n)) (ns : List Int32)
    (hns : ns = added w.log i ++ IndexOp.registered (.addRfc h p n) (w.index.addRfc h p n).1)
    (hne : ns ≠ []) : (w.index.addRfc h p n).2.Keeps ⟨h, p⟩ ns := by
  rcases addRfc_cases w.index h p n with ⟨hnew, hc, htrue⟩ | hrefused
  · rw [htrue] at hns
    subst hns
    refine keeps_addRfc ?_
    by_cases hnil : added w.log i = []
    · -- the first addition, and nothing was there before
      rw [hnil]
      refine ⟨hc, fun m ↦ ⟨fun hm ↦ ?_, fun hm ↦ absurd hm List.not_mem_nil⟩⟩
      exact absurd ⟨hc, hnew, .inr (.inl ⟨hnil, _, hm, rfl⟩)⟩ hok
    · exact hkeeps hnil
  · rw [hrefused] at hns ⊢
    obtain rfl : ns = added w.log i := by rw [hns]; exact List.append_nil _
    exact hkeeps hne

theorem serving_of_addRfc {ph ph' : Phase} {n : Int32}
    (hnext : ph.next (.addRfc h p n) = some ph') : ph = .serving h p ∧ ph' = .serving h p := by
  cases Phase.moves_of_next hnext
  exact ⟨rfl, rfl⟩

/-- An index that can be listed still can be, where nobody is disturbed. -/
theorem fits_of_undisturbed {op : IndexOp} (hfits : w.index.Fits) (hok : ¬ w.Disturbs j op) :
    (op.exec w.index).2.Fits where
  listable r hr := by
    rcases IndexOp.mem_rfcs_of_exec hr with hold | ⟨rfl, hc, hnew⟩
    · exact hfits.listable r hold
    · by_contra hno
      exact hok ⟨hc, hnew, .inr (.inr (.inl hno))⟩
  short := by
    cases op with
    | addRfc h p n =>
      show listSize (w.index.addRfc h p n).2.rfcs < 2 ^ 31
      rcases addRfc_cases w.index h p n with ⟨hnew, hc, -⟩ | hrefused
      · rw [CentralIndex.listSize_addRfc hnew hc]
        by_contra hlong
        exact hok ⟨hc, hnew, .inr (.inr (.inr (not_lt.mp hlong)))⟩
      · rw [hrefused]
        exact hfits.short
    | eraseHolders h p =>
      have hle : ((w.index.eraseHolders h p).rfcs.map fun r ↦ r.peer.host.length + 12).sum ≤
          (w.index.rfcs.map fun r ↦ r.peer.host.length + 12).sum :=
        (List.filter_sublist.map _).sum_le_sum fun _ _ ↦ Nat.zero_le _
      exact (Nat.add_le_add_left hle 8).trans_lt hfits.short
    | addClient h p =>
      show listSize (w.index.addClient h p).2.rfcs < 2 ^ 31
      rw [CentralIndex.addClient_rfcs]
      exact hfits.short
    | eraseClient h p => exact hfits.short
    | findRfcs n => exact hfits.short
    | allRfcs => exact hfits.short

/-- What holds in every state of a run without disturbance. -/
structure Calm (w : World ι) : Prop where
  /-- Every session keeps to its phases. -/
  typed : w.Typed
  /-- Every host is a C string. -/
  stringy : w.Stringy
  /-- The index can be listed. -/
  fits : w.index.Fits
  /-- Every connected session finds what it has registered. -/
  visible : w.Visible

theorem Calm.step (hw : w.Calm) (hok : w.Undisturbed e) (hstep : w.step e = some w') : w'.Calm := by
  have hstringy := hw.stringy.step hstep
  refine ⟨hw.typed.step hstep, hstringy, ?fits, ?visible⟩
  case fits =>
    rcases step_cases hstep with ⟨-, code, rfl, -⟩ | ⟨op, k, hs, rfl⟩
    · exact hw.fits
    · exact fits_of_undisturbed hw.fits (hok op (by rw [pending, hs]; rfl))
  case visible =>
    have hvis := (visible_iff hw.stringy.rfcs).mp hw.visible
    rcases step_cases hstep with ⟨hnone, code, rfl, -⟩ | ⟨op, k, hs, rfl⟩
    · exact fun i h p hserves ↦ hw.visible i h p (serves_of_goOn hnone hserves)
    have hop : ¬ w.Disturbs e.who op := hok op (by rw [pending, hs]; rfl)
    refine (visible_iff hstringy.rfcs).mpr fun i h p hserves ↦ ⟨?_, fits_of_undisturbed hw.fits hop⟩
    by_cases hi : i = e.who
    · subst hi
      obtain ⟨hphase, hadded, -⟩ := hserves
      rw [enter_log, phaseOf_append_self rfl] at hphase
      rw [added_enter_self] at hadded ⊢
      obtain ⟨ph, hph, hnext⟩ := Option.bind_eq_some_iff.mp hphase
      have hbefore : ∀ h p, ph = .serving h p → ¬ Leaves (.callThen (.index op) k : handler.Code) →
          added w.log e.who ≠ [] → w.index.Keeps ⟨h, p⟩ (added w.log e.who) :=
        fun h p hserving hstays hne ↦ (hvis _ h p ⟨hserving ▸ hph, hne, hs.symm ▸ hstays⟩).1
      rcases serving_of_next hnext with ⟨rfl, rfl⟩ | ⟨rfl, ⟨n, rfl⟩ | ⟨n, rfl⟩ | rfl⟩
      · -- it has only just announced the pair
        rw [added_eq_nil hph] at hadded
        exact absurd rfl hadded
      · exact keeps_own_addRfc (hbefore h p rfl id) hop _ rfl hadded
      · rw [registered_findRfcs, List.append_nil] at hadded ⊢
        exact hbefore h p rfl id hadded
      · rw [registered_allRfcs, List.append_nil] at hadded ⊢
        exact hbefore h p rfl id hadded
    · have hbefore := (serves_enter_of_ne hi).mp hserves
      rw [enter_log, added_append_of_ne (Ne.symm hi)]
      exact keeps_of_undisturbed hi hbefore hop (hvis i h p hbefore).1

omit [DecidableEq ι] in
theorem fits_init : (init : World ι).index.Fits :=
  ⟨fun _ hr ↦ absurd hr List.not_mem_nil, show listSize [] < 2 ^ 31 by decide⟩

theorem visible_init : (init : World ι).Visible := by
  rintro i h p ⟨hph, -, -⟩
  exact absurd hph (by simp [init, phaseOf, opsOf])

/-- A session that has added an RFC is connected. -/
theorem serves_of_added {h : StdString} {p n : Int32} {k : Bool → handler.Code} (hw : w.Typed)
    (htold : LeavesWhenTold (w.sess j)) (hs : w.sess j = .callThen (.index (.addRfc h p n)) k) (hnew : ⟨n, ⟨h, p⟩⟩ ∉ w.index.rfcs)
    (hc : ⟨h, p⟩ ∈ w.index.clients) : (w.enter j (.addRfc h p n) k).Serves j h p ∧
      added (w.enter j (.addRfc h p n) k).log j = added w.log j ++ [n] := by
  obtain ⟨ph, ph', hph, hnext, -⟩ := hw.next hs
  obtain ⟨rfl, rfl⟩ := serving_of_addRfc hnext
  have hadded : added (w.enter j (.addRfc h p n) k).log j = added w.log j ++ [n] := by
    rw [added_enter_self]
    show _ ++ IndexOp.registered (.addRfc h p n) (w.index.addRfc h p n).1 = _
    rw [CentralIndex.addRfc_fst.mpr ⟨hnew, hc⟩]
    rfl
  rw [hs] at htold
  refine ⟨⟨?_, by rw [hadded]; simp, ?_⟩, hadded⟩
  · rw [enter_log, phaseOf_append_self rfl, hph]
    exact hnext
  · rw [enter_sess_self]
    exact (htold _).1

/-- A critical section that disturbs somebody shows in the state after it. -/
theorem undisturbed_of_visible (hw : w.Typed ∧ w.Stringy ∧ w.index.WellFormed)
    (htold : ∀ i, LeavesWhenTold (w.sess i)) (hstep : w.step e = some w') (hv : w.Visible) (hv' : w'.Visible) : w.Undisturbed e := by
  intro op hop hdist
  have hstringy := hw.2.1.step hstep
  rcases step_cases hstep with ⟨hnone, -⟩ | ⟨op', k, hs, rfl⟩
  · rw [hnone] at hop
    exact absurd hop (by simp)
  obtain rfl : op' = op := by
    rw [pending, hs] at hop
    exact Option.some_inj.mp hop
  have hkeeps := (visible_iff hw.2.1.rfcs).mp hv
  have hkeeps' := (visible_iff hstringy.rfcs).mp hv'
  cases op' with
  | eraseHolders h p =>
    obtain ⟨i, hi, hserves⟩ := hdist
    obtain ⟨n, hn⟩ := List.exists_mem_of_ne_nil _ hserves.registered
    obtain ⟨⟨-, hrfcs⟩, -⟩ := hkeeps' i h p ((serves_enter_of_ne hi).mpr hserves)
    rw [enter_log, added_append_of_ne (Ne.symm hi)] at hrfcs
    exact (CentralIndex.mem_eraseHolders.mp ((hrfcs n).mpr hn)).2 rfl
  | eraseClient h p =>
    obtain ⟨i, hi, hserves⟩ := hdist
    obtain ⟨⟨hc, -⟩, -⟩ := hkeeps' i h p ((serves_enter_of_ne hi).mpr hserves)
    exact (hw.2.2.mem_eraseClient.mp hc).2 rfl
  | addRfc h p n =>
    obtain ⟨hc, hnew, hwhy⟩ := hdist
    have hmem : (⟨n, ⟨h, p⟩⟩ : RFCHolder) ∈ (w.index.addRfc h p n).2.rfcs :=
      CentralIndex.mem_addRfc.mpr (.inr ⟨hc, rfl⟩)
    obtain ⟨hown, hadded⟩ := serves_of_added hw.1 (htold _) hs hnew hc
    obtain ⟨⟨-, hrfcs⟩, hfits⟩ := hkeeps' e.who h p hown
    rcases hwhy with ⟨i, hi, hserves⟩ | ⟨hnil, ⟨m, c⟩, hr, rfl⟩ | hno | hlong
    · -- the number is nobody's before, and of the other session after
      obtain ⟨⟨-, hother⟩, -⟩ := hkeeps' i h p ((serves_enter_of_ne hi).mpr hserves)
      rw [enter_log, added_append_of_ne (Ne.symm hi)] at hother
      exact hnew (((hkeeps i h p hserves).1.2 n).mpr ((hother n).mp hmem))
    · -- the session has added `n` only, and `m` was there already
      have hm := (hrfcs m).mp (CentralIndex.mem_addRfc.mpr (.inl hr))
      rw [hadded, hnil, List.nil_append, List.mem_singleton] at hm
      exact hnew (hm ▸ hr)
    · exact hno (hfits.listable _ hmem)
    · have hshort : listSize (w.index.addRfc h p n).2.rfcs < 2 ^ 31 := hfits.short
      rw [CentralIndex.listSize_addRfc hnew hc] at hshort
      exact absurd hshort (not_lt.mpr hlong)
  | addClient h p => exact hdist
  | findRfcs n => exact hdist
  | allRfcs => exact hdist

/-- **Visibility, exactly**: in any run of any number of sessions, every connected session's RFCs are
found in every state by whoever asks, and it can add more, if and only if every step of the run leaves
the others undisturbed. -/
theorem visible_iff_undisturbed (es : List (Event ι)) :
    AllStates step Visible init es ↔ AllSteps step Undisturbed init es := by
  constructor
  · refine AllStates.steps (I := fun w ↦ (w.Typed ∧ w.Stringy ∧ w.index.WellFormed) ∧
      ∀ i, LeavesWhenTold (w.sess i)) ?_ ?_ ?_
    · exact fun w e w' hw hs ↦
        ⟨⟨hw.1.1.step hs, hw.1.2.1.step hs, wellFormed_step hw.1.2.2 hs⟩, leavesWhenTold_step hw.2 hs⟩
    · exact fun w e w' hw hs hv hv' ↦ undisturbed_of_visible hw.1 hw.2 hs hv hv'
    · exact ⟨⟨typed_init, stringy_init, CentralIndex.wellFormed_empty⟩, fun _ ↦ clientHandler_leavesWhenTold⟩
  · exact AllStates.of_steps (fun w e w' hw hok hs ↦ Calm.step hw hok hs) (fun w hw ↦ hw.visible)
      ⟨typed_init, stringy_init, fits_init, visible_init⟩

/-! ## A session that takes another one's RFCs away -/

/-- Two sessions announce one pair; the second adds an RFC, and the first begins to disconnect. -/
def vanishingRun : List (Event Bool) :=
  connects false [104] 1 ++ connects true [104] 1 ++
    moves true [wireInt P2SMessage.add.toInt, wireInt 5, []] ++
    moves false [wireInt P2SMessage.disconnect.toInt, []]

/-- The second session and the index at the end of it. -/
private theorem vanishingRun_end :
    (run step init vanishingRun).map
      (fun w ↦ (w.index, phaseOf w.log true, added w.log true, w.pending true)) =
      some (⟨[⟨[104], 1⟩], []⟩, some (.serving [104] 1), [5], none) := by
  decide +kernel

/-- **What a connected session has registered can vanish**: it has received code 200 and has not
disconnected, and its RFC is not in the index any more. -/
theorem vanished_reachable : ∃ w, run step init vanishingRun = some w ∧ ¬ w.Visible := by
  obtain ⟨w, hw, heq⟩ := Option.map_eq_some_iff.mp vanishingRun_end
  obtain ⟨hindex, hrecord⟩ := Prod.mk.inj heq
  obtain ⟨hphase, hrecord⟩ := Prod.mk.inj hrecord
  obtain ⟨hadded, hnone⟩ := Prod.mk.inj hrecord
  refine ⟨w, hw, fun hvisible ↦ ?_⟩
  have hserves : w.Serves true [104] 1 := ⟨hphase, by rw [hadded]; simp, not_leaves_of_pending hnone⟩
  obtain ⟨⟨-, hrfcs⟩, -⟩ := (visible_iff (by simp [hindex])).mp hvisible true [104] 1 hserves
  have hmem := (hrfcs 5).mpr (by rw [hadded]; simp)
  rw [hindex] at hmem
  exact absurd hmem List.not_mem_nil

end World

end RfcNet
