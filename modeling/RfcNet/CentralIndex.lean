import RfcNet.Common
import RfcNet.Lib.Comparator

/-!
# The central index

The class `CentralIndex` of `central_index.cpp`: a list of clients and a list of associations, each
behind a mutex of its own.  What a mutex protects is one step here.  `add_client`, `find_rfcs` and
`all_rfcs` are one critical section each, `add_rfc` holds both mutexes throughout and is one too,
and `remove_client` is two, with a gap in between: `eraseHolders` under the mutex of the
associations, `eraseClient` under that of the clients.
-/

set_option autoImplicit false

namespace RfcNet

open Lib

/-- By number, then by host, then by port. -/
def compareRfcHolders (first second : RFCHolder) : Bool :=
  if first.rfc ≠ second.rfc then decide (first.rfc < second.rfc)
  else if first.peer.host ≠ second.peer.host then decide (first.peer.host < second.peer.host)
  else decide (first.peer.port < second.peer.port)

/-- The two lists of the index. -/
structure CentralIndex where
  /-- The connected clients, in the order in which they came. -/
  clients : List Client
  /-- The associations, sorted by `compareRfcHolders`. -/
  rfcs : List RFCHolder
  deriving DecidableEq, Repr

namespace CentralIndex

/-- The index a server starts with. -/
def empty : CentralIndex := ⟨[], []⟩

/-- A client connects.  Returns false if the same pair is there already. -/
def addClient (ix : CentralIndex) (hostname : StdString) (uploadPort : Int32) :
    Bool × CentralIndex :=
  if ix.clients.any fun client ↦ client.host == hostname && client.port == uploadPort then
    (false, ix)
  else (true, { ix with clients := ix.clients ++ [⟨hostname, uploadPort⟩] })

/-- The first critical section of `remove_client`: erase every association of the pair. -/
def eraseHolders (ix : CentralIndex) (hostname : StdString) (uploadPort : Int32) : CentralIndex :=
  { ix with
    rfcs := ix.rfcs.filter fun r ↦ !(r.peer.host == hostname && r.peer.port == uploadPort) }

/-- The second critical section of `remove_client`: erase the first client that is the pair. -/
def eraseClient (ix : CentralIndex) (hostname : StdString) (uploadPort : Int32) : CentralIndex :=
  { ix with
    clients := ix.clients.eraseP fun client ↦
      client.host == hostname && client.port == uploadPort }

/-- A client states that it has an RFC.  Returns false if it has said so before, or is not
registered. -/
def addRfc (ix : CentralIndex) (hostname : StdString) (uploadPort rfc : Int32) :
    Bool × CentralIndex :=
  if ix.rfcs.any fun r ↦ r.rfc == rfc && r.peer.host == hostname && r.peer.port == uploadPort then
    (false, ix)
  else
    match ix.clients.find? fun client ↦ client.host == hostname && client.port == uploadPort with
    | none => (false, ix)
    | some peer => (true, { ix with rfcs := listSort compareRfcHolders (ix.rfcs ++ [⟨rfc, peer⟩]) })

/-- The clients that have a local copy of an RFC. -/
def findRfcs (ix : CentralIndex) (rfc : Int32) : List Client :=
  (ix.rfcs.filter fun r ↦ r.rfc == rfc).map RFCHolder.peer

/-- All RFCs in the index. -/
def allRfcs (ix : CentralIndex) : List RFCHolder := ix.rfcs

end CentralIndex

/-! ## Critical sections as operations -/

/-- A critical section of the index, with its arguments. -/
inductive IndexOp
  | addClient (hostname : StdString) (uploadPort : Int32)
  | eraseHolders (hostname : StdString) (uploadPort : Int32)
  | eraseClient (hostname : StdString) (uploadPort : Int32)
  | addRfc (hostname : StdString) (uploadPort rfc : Int32)
  | findRfcs (rfc : Int32)
  | allRfcs
  deriving DecidableEq, Repr

namespace IndexOp

/-- What the critical section returns. -/
@[reducible] def Res : IndexOp → Type
  | .addClient _ _ => Bool
  | .eraseHolders _ _ => Unit
  | .eraseClient _ _ => Unit
  | .addRfc _ _ _ => Bool
  | .findRfcs _ => List Client
  | .allRfcs => List RFCHolder

/-- Its result, and the index after it. -/
def exec (ix : CentralIndex) : (op : IndexOp) → op.Res × CentralIndex
  | .addClient hostname uploadPort => ix.addClient hostname uploadPort
  | .eraseHolders hostname uploadPort => ((), ix.eraseHolders hostname uploadPort)
  | .eraseClient hostname uploadPort => ((), ix.eraseClient hostname uploadPort)
  | .addRfc hostname uploadPort rfc => ix.addRfc hostname uploadPort rfc
  | .findRfcs rfc => (ix.findRfcs rfc, ix)
  | .allRfcs => (ix.allRfcs, ix)

end IndexOp

/-! ## What each operation does, in terms of membership

The loops of the source compare host and port separately; the lemmas below say the same thing of
the pair. -/

namespace CentralIndex

variable {ix : CentralIndex} {h : StdString} {p n : Int32}

private theorem pair_beq (c : Client) (h : StdString) (p : Int32) :
    (c.host == h && c.port == p) = (c == ⟨h, p⟩) := by
  obtain ⟨ch, cp⟩ := c
  rw [Bool.eq_iff_iff, Bool.and_eq_true, beq_iff_eq, beq_iff_eq, beq_iff_eq, Client.mk.injEq]

/-- **`add_client`** succeeds exactly on a new pair. -/
theorem addClient_eq (ix : CentralIndex) (h : StdString) (p : Int32) :
    ix.addClient h p = if (⟨h, p⟩ : Client) ∈ ix.clients then (false, ix)
      else (true, { ix with clients := ix.clients ++ [⟨h, p⟩] }) := by
  simp only [addClient, pair_beq, List.any_beq', List.contains_iff_mem]

/-- **The first half of `remove_client`** keeps exactly the associations of other pairs. -/
theorem eraseHolders_rfcs (ix : CentralIndex) (h : StdString) (p : Int32) :
    (ix.eraseHolders h p).rfcs = ix.rfcs.filter fun r ↦ decide (r.peer ≠ ⟨h, p⟩) := by
  simp only [eraseHolders, pair_beq]
  simp only [beq_eq_decide, ne_eq, decide_not]

@[simp] theorem eraseHolders_clients (ix : CentralIndex) (h : StdString) (p : Int32) :
    (ix.eraseHolders h p).clients = ix.clients := rfl

theorem mem_eraseHolders {r : RFCHolder} :
    r ∈ (ix.eraseHolders h p).rfcs ↔ r ∈ ix.rfcs ∧ r.peer ≠ ⟨h, p⟩ := by
  rw [eraseHolders_rfcs, List.mem_filter, decide_eq_true_eq]

/-- **The second half of `remove_client`** erases the first occurrence of the pair. -/
theorem eraseClient_clients (ix : CentralIndex) (h : StdString) (p : Int32) :
    (ix.eraseClient h p).clients = ix.clients.erase ⟨h, p⟩ := by
  rw [List.erase_eq_eraseP']
  simp only [eraseClient, pair_beq]

@[simp] theorem eraseClient_rfcs (ix : CentralIndex) (h : StdString) (p : Int32) :
    (ix.eraseClient h p).rfcs = ix.rfcs := rfl

/-- **`add_rfc`** succeeds exactly on a new association of a registered pair. -/
theorem addRfc_eq (ix : CentralIndex) (h : StdString) (p n : Int32) :
    ix.addRfc h p n = if (⟨n, ⟨h, p⟩⟩ : RFCHolder) ∉ ix.rfcs ∧ (⟨h, p⟩ : Client) ∈ ix.clients then
        (true, { ix with rfcs := listSort compareRfcHolders (ix.rfcs ++ [⟨n, ⟨h, p⟩⟩]) })
      else (false, ix) := by
  have hany : (ix.rfcs.any fun r ↦ r.rfc == n && r.peer.host == h && r.peer.port == p)
      = decide ((⟨n, ⟨h, p⟩⟩ : RFCHolder) ∈ ix.rfcs) := by
    rw [Bool.eq_iff_iff, List.any_eq_true, decide_eq_true_eq]
    constructor
    · rintro ⟨⟨m, ⟨ch, cp⟩⟩, hr, heq⟩
      simp only [Bool.and_eq_true, beq_iff_eq] at heq
      obtain ⟨⟨rfl, rfl⟩, rfl⟩ := heq
      exact hr
    · exact fun hr ↦ ⟨_, hr, by simp⟩
  rw [addRfc, hany]
  simp only [pair_beq]
  by_cases hr : (⟨n, ⟨h, p⟩⟩ : RFCHolder) ∈ ix.rfcs
  · simp [hr]
  · by_cases hc : (⟨h, p⟩ : Client) ∈ ix.clients
    · have hfind : ix.clients.find? (fun c ↦ c == ⟨h, p⟩) = some ⟨h, p⟩ := by
        have hsome : (ix.clients.find? (fun c ↦ c == ⟨h, p⟩)).isSome :=
          List.find?_isSome.mpr ⟨_, hc, beq_self_eq_true _⟩
        obtain ⟨c, hc'⟩ := Option.isSome_iff_exists.mp hsome
        rw [hc', beq_iff_eq.mp (List.find?_some (p := fun c ↦ c == _) hc')]
      simp [hr, hc, hfind]
    · have hfind : ix.clients.find? (fun c ↦ c == ⟨h, p⟩) = none := by
        rw [List.find?_eq_none]
        intro c hmem he
        exact hc (beq_iff_eq.mp he ▸ hmem)
      simp [hr, hc, hfind]

theorem addRfc_fst : (ix.addRfc h p n).1 = true ↔
    (⟨n, ⟨h, p⟩⟩ : RFCHolder) ∉ ix.rfcs ∧ (⟨h, p⟩ : Client) ∈ ix.clients := by
  rw [addRfc_eq]
  split <;> simp_all

@[simp] theorem addRfc_clients : (ix.addRfc h p n).2.clients = ix.clients := by
  rw [addRfc_eq]
  split <;> rfl

theorem mem_addRfc {r : RFCHolder} : r ∈ (ix.addRfc h p n).2.rfcs ↔
    r ∈ ix.rfcs ∨ (⟨h, p⟩ : Client) ∈ ix.clients ∧ r = ⟨n, ⟨h, p⟩⟩ := by
  rw [addRfc_eq]
  split
  · rename_i hok
    simp [hok.2]
  · rename_i hok
    rw [not_and_or, not_not] at hok
    constructor
    · exact .inl
    · rintro (hr | ⟨hc, rfl⟩)
      · exact hr
      · exact hok.resolve_right (not_not.mpr hc)

theorem mem_addClient {c : Client} :
    c ∈ (ix.addClient h p).2.clients ↔ c ∈ ix.clients ∨ c = ⟨h, p⟩ := by
  rw [addClient_eq]
  split
  · rename_i hmem
    exact ⟨.inl, fun hc ↦ hc.elim id fun he ↦ he ▸ hmem⟩
  · simp

@[simp] theorem addClient_rfcs : (ix.addClient h p).2.rfcs = ix.rfcs := by
  rw [addClient_eq]
  split <;> rfl

theorem mem_findRfcs {c : Client} : c ∈ ix.findRfcs n ↔ (⟨n, c⟩ : RFCHolder) ∈ ix.rfcs := by
  simp only [findRfcs, List.mem_map, List.mem_filter, beq_iff_eq]
  constructor
  · rintro ⟨r, ⟨hr, rfl⟩, rfl⟩
    exact hr
  · exact fun hr ↦ ⟨_, ⟨hr, rfl⟩, rfl⟩

@[simp] theorem mem_allRfcs {r : RFCHolder} : r ∈ ix.allRfcs ↔ r ∈ ix.rfcs := .rfl

end CentralIndex

/-! ## What a critical section can do to either list -/

namespace IndexOp

variable {ix : CentralIndex} {c : Client} {r : RFCHolder}

/-- An association is new only if it has just been registered. -/
theorem mem_rfcs_of_exec {op : IndexOp} (hr : r ∈ (op.exec ix).2.rfcs) : r ∈ ix.rfcs ∨
    op = .addRfc r.peer.host r.peer.port r.rfc ∧ r.peer ∈ ix.clients ∧ r ∉ ix.rfcs := by
  by_cases hmem : r ∈ ix.rfcs
  · exact .inl hmem
  refine .inr ?_
  cases op with
  | addClient h p =>
    have hold : r ∈ (ix.addClient h p).2.rfcs := hr
    rw [CentralIndex.addClient_rfcs] at hold
    exact absurd hold hmem
  | eraseHolders h p => exact absurd (CentralIndex.mem_eraseHolders.mp hr).1 hmem
  | eraseClient h p => exact absurd hr hmem
  | addRfc h p n =>
    rcases CentralIndex.mem_addRfc.mp hr with hold | ⟨hc, rfl⟩
    · exact absurd hold hmem
    · exact ⟨rfl, hc, hmem⟩
  | findRfcs n => exact absurd hr hmem
  | allRfcs => exact absurd hr hmem

/-- An association is gone only if those of its pair have just been erased. -/
theorem mem_rfcs_exec (op : IndexOp) (hr : r ∈ ix.rfcs) :
    r ∈ (op.exec ix).2.rfcs ∨ op = .eraseHolders r.peer.host r.peer.port := by
  cases op with
  | addClient h p =>
    refine .inl (?_ : r ∈ (ix.addClient h p).2.rfcs)
    rwa [CentralIndex.addClient_rfcs]
  | eraseHolders h p =>
    by_cases hpeer : r.peer = ⟨h, p⟩
    · exact .inr (by rw [hpeer])
    · exact .inl (CentralIndex.mem_eraseHolders.mpr ⟨hr, hpeer⟩)
  | eraseClient h p => exact .inl hr
  | addRfc h p n => exact .inl (CentralIndex.mem_addRfc.mpr (.inl hr))
  | findRfcs n => exact .inl hr
  | allRfcs => exact .inl hr

/-- A client is new only if it has just connected. -/
theorem mem_clients_of_exec {op : IndexOp} (hc : c ∈ (op.exec ix).2.clients) :
    c ∈ ix.clients ∨ op = .addClient c.host c.port := by
  cases op with
  | addClient h p =>
    rcases CentralIndex.mem_addClient.mp hc with hold | rfl
    · exact .inl hold
    · exact .inr rfl
  | eraseHolders h p => exact .inl hc
  | eraseClient h p =>
    have hold : c ∈ (ix.eraseClient h p).clients := hc
    rw [CentralIndex.eraseClient_clients] at hold
    exact .inl (List.mem_of_mem_erase hold)
  | addRfc h p n =>
    have hold : c ∈ (ix.addRfc h p n).2.clients := hc
    rw [CentralIndex.addRfc_clients] at hold
    exact .inl hold
  | findRfcs n => exact .inl hc
  | allRfcs => exact .inl hc

/-- A client is gone only if it has just been erased. -/
theorem mem_clients_exec (op : IndexOp) (hc : c ∈ ix.clients) :
    c ∈ (op.exec ix).2.clients ∨ op = .eraseClient c.host c.port := by
  cases op with
  | addClient h p => exact .inl (CentralIndex.mem_addClient.mpr (.inl hc))
  | eraseHolders h p => exact .inl hc
  | eraseClient h p =>
    by_cases hcp : c = ⟨h, p⟩
    · exact .inr (by rw [hcp])
    · refine .inl (?_ : c ∈ (ix.eraseClient h p).clients)
      rwa [CentralIndex.eraseClient_clients, List.mem_erase_of_ne hcp]
  | addRfc h p n =>
    refine .inl (?_ : c ∈ (ix.addRfc h p n).2.clients)
    rwa [CentralIndex.addRfc_clients]
  | findRfcs n => exact .inl hc
  | allRfcs => exact .inl hc

end IndexOp

end RfcNet
