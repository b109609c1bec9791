import RfcNet.CentralIndex
import RfcNet.Lib.Locks

/-!
# The two mutexes of the index

The operations of `CentralIndex` as `central_index.cpp` has them, with their two mutexes: what each of them
locks, reads, writes and unlocks, in that order, on every way out.  `add_rfc` is the only one to hold both
mutexes, and takes that of the associations first.

The server runs them in as many threads as it has sessions.  They never block each other for good, and
never misuse a mutex (`locks_sound`).
-/

set_option autoImplicit false

namespace RfcNet

open Lib

/-- The mutexes of the index. -/
inductive Mutex
  | rfcsMut
  | clientsMut
  deriving DecidableEq, Repr

namespace Mutex

/-- Where a mutex stands in the order in which they are taken. -/
def rank : Mutex → ℕ
  | .rfcsMut => 0
  | .clientsMut => 1

instance : Preorder Mutex := Preorder.lift rank

theorem rfcsMut_lt_clientsMut : rfcsMut < clientsMut := Nat.zero_lt_one

theorem rank_le (m : Mutex) : m.rank ≤ 1 := by cases m <;> decide

instance : WellFoundedGT Mutex where
  wf := by
    refine Subrelation.wf (fun {l m} (h : m.rank < l.rank) ↦ ?_) (measure fun m ↦ 1 - m.rank).wf
    have hle := l.rank_le
    show 1 - l.rank < 1 - m.rank
    omega

/-- What a mutex is for. -/
@[reducible] def Guards : Mutex → Type
  | .rfcsMut => List RFCHolder
  | .clientsMut => List Client

end Mutex

namespace CentralIndex

/-- The lists of the index, each behind its mutex. -/
def guarded (ix : CentralIndex) : (m : Mutex) → m.Guards
  | .rfcsMut => ix.rfcs
  | .clientsMut => ix.clients

theorem update_rfcsMut (ix : CentralIndex) (l : List RFCHolder) :
    Function.update ix.guarded .rfcsMut l = { ix with rfcs := l }.guarded := by
  funext m
  cases m with
  | rfcsMut => exact Function.update_self ..
  | clientsMut => exact Function.update_of_ne (by decide) ..

theorem update_clientsMut (ix : CentralIndex) (l : List Client) :
    Function.update ix.guarded .clientsMut l = { ix with clients := l }.guarded := by
  funext m
  cases m with
  | rfcsMut => exact Function.update_of_ne (by decide) ..
  | clientsMut => exact Function.update_self ..

end CentralIndex

/-! ## The operations -/

/-- What an operation of the index returns. -/
inductive IndexReply
  | flag (b : Bool)
  | peers (l : List Client)
  | holders (l : List RFCHolder)
  deriving DecidableEq, Repr

/-- An operation of the index, with its arguments. -/
inductive IndexCall
  | addClient (hostname : StdString) (uploadPort : Int32)
  | removeClient (hostname : StdString) (uploadPort : Int32)
  | addRfc (hostname : StdString) (uploadPort rfc : Int32)
  | findRfcs (rfc : Int32)
  | allRfcs
  deriving DecidableEq, Repr

namespace IndexCall

open CentralIndex

/-- The code of an operation. -/
abbrev Code := Sync Mutex.Guards IndexReply

/-- `CentralIndex::add_client`. -/
def addClientCode (hostname : StdString) (uploadPort : Int32) : Code :=
  .lock .clientsMut <| .read .clientsMut fun clients ↦
    if clients.any fun client ↦ client.host == hostname && client.port == uploadPort then
      .unlock .clientsMut <| .ret (.flag false)
    else
      .write .clientsMut (clients ++ [⟨hostname, uploadPort⟩]) <|
        .unlock .clientsMut <| .ret (.flag true)

/-- `CentralIndex::remove_client`, which returns false in any case. -/
def removeClientCode (hostname : StdString) (uploadPort : Int32) : Code :=
  .lock .rfcsMut <| .read .rfcsMut fun rfcs ↦
    .write .rfcsMut (rfcs.filter fun r ↦ !(r.peer.host == hostname && r.peer.port == uploadPort)) <|
      .unlock .rfcsMut <| .lock .clientsMut <| .read .clientsMut fun clients ↦
        .write .clientsMut (clients.eraseP fun client ↦
            client.host == hostname && client.port == uploadPort) <|
          .unlock .clientsMut <| .ret (.flag false)

/-- `CentralIndex::add_rfc`. -/
def addRfcCode (hostname : StdString) (uploadPort rfc : Int32) : Code :=
  .lock .rfcsMut <| .read .rfcsMut fun rfcs ↦
    if rfcs.any fun r ↦ r.rfc == rfc && r.peer.host == hostname && r.peer.port == uploadPort then
      .unlock .rfcsMut <| .ret (.flag false)
    else
      .lock .clientsMut <| .read .clientsMut fun clients ↦
        match clients.find? fun client ↦ client.host == hostname && client.port == uploadPort with
        | none => .unlock .clientsMut <| .unlock .rfcsMut <| .ret (.flag false)
        | some peer =>
          .write .rfcsMut (rfcs ++ [⟨rfc, peer⟩]) <| .read .rfcsMut fun rfcs ↦
            .write .rfcsMut (listSort compareRfcHolders rfcs) <|
              .unlock .clientsMut <| .unlock .rfcsMut <| .ret (.flag true)

/-- `CentralIndex::find_rfcs`. -/
def findRfcsCode (rfc : Int32) : Code :=
  .lock .rfcsMut <| .read .rfcsMut fun rfcs ↦ .unlock .rfcsMut <|
    .ret (.peers ((rfcs.filter fun r ↦ r.rfc == rfc).map RFCHolder.peer))

/-- `CentralIndex::all_rfcs`. -/
def allRfcsCode : Code :=
  .lock .rfcsMut <| .read .rfcsMut fun rfcs ↦ .unlock .rfcsMut <| .ret (.holders rfcs)

/-- What a call runs. -/
def code : IndexCall → Code
  | .addClient hostname uploadPort => addClientCode hostname uploadPort
  | .removeClient hostname uploadPort => removeClientCode hostname uploadPort
  | .addRfc hostname uploadPort rfc => addRfcCode hostname uploadPort rfc
  | .findRfcs rfc => findRfcsCode rfc
  | .allRfcs => allRfcsCode

/-- What a call amounts to. -/
def exec (ix : CentralIndex) : IndexCall → IndexReply × CentralIndex
  | .addClient hostname uploadPort =>
    let r := ix.addClient hostname uploadPort
    (.flag r.1, r.2)
  | .removeClient hostname uploadPort =>
    (.flag false, (ix.eraseHolders hostname uploadPort).eraseClient hostname uploadPort)
  | .addRfc hostname uploadPort rfc =>
    let r := ix.addRfc hostname uploadPort rfc
    (.flag r.1, r.2)
  | .findRfcs rfc => (.peers (ix.findRfcs rfc), ix)
  | .allRfcs => (.holders ix.allRfcs, ix)

/-- **Run alone, the code of an operation does what the operation amounts to.** -/
theorem alone_code (call : IndexCall) (ix : CentralIndex) :
    call.code.alone ix.guarded = ((call.exec ix).1, (call.exec ix).2.guarded) := by
  cases call with
  | addClient h p =>
    rw [exec, CentralIndex.addClient]
    dsimp only [code, addClientCode, Sync.alone]
    split
    · rename_i hany
      dsimp only [guarded] at hany
      rw [if_pos hany]
      rfl
    · rename_i hany
      dsimp only [guarded] at hany
      rw [if_neg hany]
      exact congrArg (Prod.mk _) (update_clientsMut ix _)
  | removeClient h p =>
    dsimp only [code, removeClientCode, Sync.alone]
    rw [update_rfcsMut, update_clientsMut]
    rfl
  | addRfc h p n =>
    rw [exec, CentralIndex.addRfc]
    dsimp only [code, addRfcCode, Sync.alone]
    split
    · rename_i hany
      dsimp only [guarded] at hany
      rw [if_pos hany]
      rfl
    · rename_i hany
      dsimp only [guarded] at hany
      rw [if_neg hany]
      dsimp only [Sync.alone, guarded]
      cases ix.clients.find? fun client ↦ client.host == h && client.port == p with
      | none => rfl
      | some peer =>
        dsimp only [Sync.alone]
        rw [update_rfcsMut, update_rfcsMut]
        rfl
  | findRfcs n => rfl
  | allRfcs => rfl

/-- One mutex, taken by a thread that has none, and given back. -/
theorem orderly_section {m : Mutex} {k : m.Guards → Code}
    (hk : ∀ v, (k v).Orderly {m}) : Sync.Orderly ∅ (.lock m (.read m k)) := by
  refine ⟨fun l hl ↦ absurd hl (Set.notMem_empty l), ?_⟩
  rw [insert_empty_eq]
  exact ⟨rfl, hk⟩

/-- The way out of it. -/
theorem orderly_unlock {m : Mutex} {k : Code} (hk : k.Orderly ∅) :
    Sync.Orderly {m} (.unlock m k) := by
  refine ⟨rfl, ?_⟩
  rw [Set.sdiff_self]
  exact hk

/-- Both mutexes are given back. -/
theorem orderly_unlock_both (b : Bool) : Sync.Orderly {Mutex.clientsMut, Mutex.rfcsMut}
    (.unlock .clientsMut (.unlock .rfcsMut (.ret (.flag b))) : Code) := by
  refine ⟨.inl rfl, ?_⟩
  rw [Set.insert_sdiff_self_of_notMem fun h ↦ by cases h]
  exact orderly_unlock rfl

/-- **The code of an operation is orderly**, whatever it reads. -/
theorem orderly_code (call : IndexCall) : call.code.Orderly ∅ := by
  cases call with
  | addClient h p =>
    refine orderly_section fun clients ↦ ?_
    split
    · exact orderly_unlock rfl
    · exact ⟨rfl, orderly_unlock rfl⟩
  | removeClient h p =>
    refine orderly_section fun rfcs ↦ ⟨rfl, orderly_unlock (orderly_section fun clients ↦ ?_)⟩
    exact ⟨rfl, orderly_unlock rfl⟩
  | addRfc h p n =>
    refine orderly_section fun rfcs ↦ ?_
    split
    · exact orderly_unlock rfl
    · refine ⟨?_, .inl rfl, fun clients ↦ ?_⟩
      · rintro m rfl
        exact Mutex.rfcsMut_lt_clientsMut
      · dsimp only
        split
        · exact orderly_unlock_both false
        · exact ⟨.inr rfl, .inr rfl, fun rfcs ↦ ⟨.inr rfl, orderly_unlock_both true⟩⟩
  | findRfcs n => exact orderly_section fun rfcs ↦ orderly_unlock rfl
  | allRfcs => exact orderly_section fun rfcs ↦ orderly_unlock rfl

end IndexCall

/-- **The operations of the index do not deadlock and use their mutexes well**, in any number of threads, each
of which calls any of them any number of times. -/
theorem locks_sound {ι : Type} [DecidableEq ι] (ix : CentralIndex) (calls : ι → List IndexCall)
    {s : Shared ι Mutex.Guards IndexReply}
    (h : Reaches Shared.act (.start ix.guarded fun i ↦ (calls i).map IndexCall.code) s) : s.Sound := by
  have horderly : s.Orderly := by
    refine h.inv (fun s i s' ↦ Shared.Orderly.act) (Shared.Orderly.start fun i c hc ↦ ?_)
    obtain ⟨call, -, rfl⟩ := List.mem_map.mp hc
    exact call.orderly_code
  exact horderly.sound

/-- One thread has the mutex of the associations, and another waits for it. -/
theorem locks_sound_waiting :
    ∃ s : Shared Bool Mutex.Guards IndexReply, s.owner .rfcsMut = some true ∧ s.act false = none ∧
      s.Sound := by
  obtain ⟨s, hs, howner, hwaits⟩ : ∃ s, run Shared.act
      (.start CentralIndex.empty.guarded fun i : Bool ↦
        (if i then [.addRfc [] 1 7] else [.removeClient [] 1]).map IndexCall.code)
      [true, false, true] = some s ∧ s.owner .rfcsMut = some true ∧ s.act false = none :=
    ⟨_, rfl, rfl, rfl⟩
  exact ⟨s, howner, hwaits, locks_sound CentralIndex.empty
    (fun i ↦ if i then [.addRfc [] 1 7] else [.removeClient [] 1]) ⟨_, hs⟩⟩

end RfcNet
