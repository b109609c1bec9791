import RfcNet.CentralIndex
import Mathlib.Data.Set.Insert

/-!
# The central index is a set of clients and a set of associations

The two lists of `CentralIndex` hide two facts that its code relies on without saying so.  `clients`
has no duplicates, which is why `remove_client` may stop at the first match.  `rfcs` is strictly
increasing under `compare_rfc_holders`, which is why pushing back and sorting keeps it a set, and
why what `all_rfcs` returns does not depend on the order in which the associations came.
`CentralIndex.WellFormed` is the conjunction of the two.

`SetIndex` is what the class is for, said without lists: who is connected, and who has what.
`SetIndex.Does` is each critical section's meaning there, and `exec_refines` says that on a
well-formed index the code does just that.  `centralIndex_refines` puts it together for an
arbitrary interleaving of critical sections from the empty index.
-/

set_option autoImplicit false

namespace RfcNet

open Lib

/-! ## The comparator -/

/-- By host, then by port: the order of the clients of one RFC. -/
def compareClients (first second : Client) : Bool :=
  if first.host ≠ second.host then decide (first.host < second.host)
  else decide (first.port < second.port)

private theorem strictVia_clients : StrictVia (fun c : Client ↦ (c.host, c.port)) compareClients :=
  StrictVia.lex strictTotal_decide_lt Client.host
    (StrictTotal.comap strictTotal_decide_lt Client.port)

theorem strictTotal_compareClients : StrictTotal compareClients := by
  refine strictVia_clients.strictTotal fun c d hcd ↦ ?_
  obtain ⟨hhost, hport⟩ := Prod.mk.inj hcd
  exact Client.ext hhost hport

/-- Among associations of one number the comparator compares the clients. -/
theorem compareRfcHolders_same (n : Int32) (c d : Client) :
    compareRfcHolders ⟨n, c⟩ ⟨n, d⟩ = compareClients c d := by
  rw [compareRfcHolders, if_neg (by simp)]
  rfl

/-- **`compare_rfc_holders` is a strict total order.** -/
theorem strictTotal_compareRfcHolders : StrictTotal compareRfcHolders := by
  have h : StrictVia (fun r : RFCHolder ↦ (r.rfc, r.peer)) compareRfcHolders :=
    StrictVia.lex strictTotal_decide_lt RFCHolder.rfc
      (StrictTotal.comap strictTotal_compareClients RFCHolder.peer)
  refine h.strictTotal fun r s hrs ↦ ?_
  obtain ⟨hrfc, hpeer⟩ := Prod.mk.inj hrs
  exact RFCHolder.ext hrfc hpeer

/-! ## Well-formed indexes -/

/-- The lists of the index are sets: no client twice, the associations strictly increasing. -/
structure CentralIndex.WellFormed (ix : CentralIndex) : Prop where
  /-- No client is there twice. -/
  clients_nodup : ix.clients.Nodup
  /-- The associations are strictly increasing. -/
  rfcs_ascending : Ascending compareRfcHolders ix.rfcs

namespace CentralIndex

variable {ix : CentralIndex} {h : StdString} {p n : Int32}

theorem wellFormed_empty : WellFormed empty := ⟨.nil, .nil⟩

theorem WellFormed.addClient (hix : ix.WellFormed) (h : StdString) (p : Int32) :
    (ix.addClient h p).2.WellFormed := by
  rw [addClient_eq]
  split
  · exact hix
  · rename_i hc
    exact ⟨List.nodup_append'.mpr ⟨hix.clients_nodup, List.nodup_singleton _, by simpa⟩,
      hix.rfcs_ascending⟩

theorem WellFormed.eraseHolders (hix : ix.WellFormed) (h : StdString) (p : Int32) :
    (ix.eraseHolders h p).WellFormed := by
  refine ⟨hix.clients_nodup, ?_⟩
  rw [eraseHolders_rfcs]
  exact hix.rfcs_ascending.filter _

theorem WellFormed.eraseClient (hix : ix.WellFormed) (h : StdString) (p : Int32) :
    (ix.eraseClient h p).WellFormed := by
  refine ⟨?_, hix.rfcs_ascending⟩
  rw [eraseClient_clients]
  exact hix.clients_nodup.erase _

theorem WellFormed.addRfc (hix : ix.WellFormed) (h : StdString) (p n : Int32) :
    (ix.addRfc h p n).2.WellFormed := by
  rw [addRfc_eq]
  split
  · rename_i hok
    exact ⟨hix.clients_nodup,
      ascending_listSort_append strictTotal_compareRfcHolders hix.rfcs_ascending hok.1⟩
  · exact hix

/-- In a well-formed index the second half of `remove_client` erases the pair for good: erasing
the first occurrence is erasing every occurrence. -/
theorem WellFormed.eraseClient_clients (hix : ix.WellFormed) (h : StdString) (p : Int32) :
    (ix.eraseClient h p).clients = ix.clients.filter fun c ↦ decide (c ≠ ⟨h, p⟩) := by
  rw [CentralIndex.eraseClient_clients, hix.clients_nodup.erase_eq_filter]
  exact List.filter_congr fun c _ ↦ by simp [bne, beq_eq_decide]

theorem WellFormed.mem_eraseClient (hix : ix.WellFormed) {c : Client} :
    c ∈ (ix.eraseClient h p).clients ↔ c ∈ ix.clients ∧ c ≠ ⟨h, p⟩ := by
  rw [hix.eraseClient_clients, List.mem_filter, decide_eq_true_eq]

/-- What `find_rfcs` returns is strictly increasing too, by host and port. -/
theorem WellFormed.findRfcs_ascending (hix : ix.WellFormed) (n : Int32) :
    Ascending compareClients (ix.findRfcs n) := by
  refine Ascending.map (hix.rfcs_ascending.filter _) _ fun r hr s hs hrs ↦ ?_
  obtain ⟨rn, rc⟩ := r
  obtain ⟨sn, sc⟩ := s
  obtain rfl : rn = n := by simpa using (List.mem_filter.mp hr).2
  obtain rfl : sn = rn := by simpa using (List.mem_filter.mp hs).2
  rwa [compareRfcHolders_same] at hrs

end CentralIndex

/-! ## The index as sets -/

/-- Who is connected, and who has what. -/
@[ext] structure SetIndex where
  /-- The connected clients. -/
  clients : Set Client
  /-- The associations. -/
  holders : Set RFCHolder

/-- The sets behind the two lists. -/
def CentralIndex.sets (ix : CentralIndex) : SetIndex :=
  ⟨{c | c ∈ ix.clients}, {r | r ∈ ix.rfcs}⟩

/-- What a critical section means: `a.Does op r b` says that in `a` it may return `r` and leave
`b`. -/
def SetIndex.Does (a : SetIndex) : (op : IndexOp) → op.Res → SetIndex → Prop
  | .addClient h p, r, b =>
    ((r = true ↔ ⟨h, p⟩ ∉ a.clients) ∧ b = { a with clients := insert ⟨h, p⟩ a.clients })
  | .eraseHolders h p, _, b => b = { a with holders := {r | r ∈ a.holders ∧ r.peer ≠ ⟨h, p⟩} }
  | .eraseClient h p, _, b => b = { a with clients := {c | c ∈ a.clients ∧ c ≠ ⟨h, p⟩} }
  | .addRfc h p n, r, b =>
    (r = true ↔ ⟨n, ⟨h, p⟩⟩ ∉ a.holders ∧ ⟨h, p⟩ ∈ a.clients) ∧
      b = { a with holders := {x | x ∈ a.holders ∨ r = true ∧ x = ⟨n, ⟨h, p⟩⟩} }
  | .findRfcs n, l, b =>
    b = a ∧ Ascending compareClients l ∧ ∀ c, c ∈ l ↔ ⟨n, c⟩ ∈ a.holders
  | .allRfcs, l, b =>
    b = a ∧ Ascending compareRfcHolders l ∧ ∀ r, r ∈ l ↔ r ∈ a.holders

theorem IndexOp.exec_wellFormed {ix : CentralIndex} (hix : ix.WellFormed) (op : IndexOp) :
    (op.exec ix).2.WellFormed := by
  cases op with
  | addClient h p => exact hix.addClient h p
  | eraseHolders h p => exact hix.eraseHolders h p
  | eraseClient h p => exact hix.eraseClient h p
  | addRfc h p n => exact hix.addRfc h p n
  | findRfcs n => exact hix
  | allRfcs => exact hix

/-- **Simulation**: on a well-formed index every critical section does to the lists what it means
for the sets. -/
theorem exec_refines {ix : CentralIndex} (hix : ix.WellFormed) (op : IndexOp) :
    ix.sets.Does op (op.exec ix).1 (op.exec ix).2.sets := by
  cases op with
  | addClient h p =>
    refine ⟨?_, SetIndex.ext (Set.ext fun c ↦ ?_) (Set.ext fun r ↦ ?_)⟩
    · show (ix.addClient h p).1 = true ↔ (⟨h, p⟩ : Client) ∉ ix.clients
      rw [CentralIndex.addClient_eq]
      split <;> simp_all
    · show c ∈ (ix.addClient h p).2.clients ↔ c ∈ insert _ {c | c ∈ ix.clients}
      rw [CentralIndex.mem_addClient, Set.mem_insert_iff, or_comm]
      rfl
    · show r ∈ (ix.addClient h p).2.rfcs ↔ r ∈ ix.rfcs
      rw [CentralIndex.addClient_rfcs]
  | eraseHolders h p =>
    exact SetIndex.ext rfl (Set.ext fun r ↦ CentralIndex.mem_eraseHolders)
  | eraseClient h p =>
    exact SetIndex.ext (Set.ext fun c ↦ hix.mem_eraseClient) rfl
  | addRfc h p n =>
    refine ⟨CentralIndex.addRfc_fst, SetIndex.ext (Set.ext fun c ↦ ?_) (Set.ext fun r ↦ ?_)⟩
    · show c ∈ (ix.addRfc h p n).2.clients ↔ c ∈ ix.clients
      rw [CentralIndex.addRfc_clients]
    · show r ∈ (ix.addRfc h p n).2.rfcs ↔
        r ∈ ix.rfcs ∨ (ix.addRfc h p n).1 = true ∧ r = ⟨n, ⟨h, p⟩⟩
      rw [CentralIndex.mem_addRfc, CentralIndex.addRfc_fst]
      -- a refused repetition adds nothing that is not there
      constructor
      · rintro (hr | ⟨hc, rfl⟩)
        · exact .inl hr
        · by_cases hr : (⟨n, ⟨h, p⟩⟩ : RFCHolder) ∈ ix.rfcs
          · exact .inl hr
          · exact .inr ⟨⟨hr, hc⟩, rfl⟩
      · rintro (hr | ⟨⟨-, hc⟩, rfl⟩)
        · exact .inl hr
        · exact .inr ⟨hc, rfl⟩
  | findRfcs n => exact ⟨rfl, hix.findRfcs_ascending n, fun c ↦ CentralIndex.mem_findRfcs⟩
  | allRfcs => exact ⟨rfl, hix.rfcs_ascending, fun r ↦ .rfl⟩

/-! ## Interleavings -/

/-- The index after the critical sections `ops`, in the order in which the callers got the
mutexes. -/
def indexAfter (ops : List IndexOp) : CentralIndex :=
  ops.foldl (fun ix op ↦ (op.exec ix).2) .empty

theorem wellFormed_indexAfter (ops : List IndexOp) : (indexAfter ops).WellFormed := by
  have h : ∀ ix : CentralIndex, ix.WellFormed →
      (ops.foldl (fun ix op ↦ (op.exec ix).2) ix).WellFormed := by
    induction ops with
    | nil => exact fun ix hix ↦ hix
    | cons op ops ih => exact fun ix hix ↦ ih _ (IndexOp.exec_wellFormed hix op)
  exact h .empty CentralIndex.wellFormed_empty

/-- **What is listed does not depend on how the index came about**: two well-formed indexes with
the same associations answer LIST and LOOKUP alike. -/
theorem CentralIndex.WellFormed.lists_eq {ix iy : CentralIndex} (hix : ix.WellFormed)
    (hiy : iy.WellFormed) (h : ix.sets.holders = iy.sets.holders) :
    ix.allRfcs = iy.allRfcs ∧ ∀ n, ix.findRfcs n = iy.findRfcs n := by
  have hrfcs : ix.rfcs = iy.rfcs :=
    Ascending.ext strictTotal_compareRfcHolders hix.rfcs_ascending hiy.rfcs_ascending
      fun r ↦ Set.ext_iff.mp h r
  refine ⟨hrfcs, fun n ↦ ?_⟩
  rw [CentralIndex.findRfcs, hrfcs, CentralIndex.findRfcs]

/-- **`CentralIndex` refines the set model**, after any interleaving of critical sections, with any
arguments, from the empty index.  Its lists are sets written down in the one sorted way; the next
critical section, whichever it is, does what it means for the sets; on the lists themselves, a
refused `add_client` or `add_rfc` changes nothing and the halves of `remove_client` filter out the
pair; `find_rfcs` is a projection of `all_rfcs`; and any other interleaving that ends with the same
associations lists them identically. -/
theorem centralIndex_refines (ops : List IndexOp) :
    let ix := indexAfter ops
    (ix.clients.Nodup ∧ Ascending compareRfcHolders ix.rfcs) ∧
    (∀ op : IndexOp, ix.sets.Does op (op.exec ix).1 (op.exec ix).2.sets) ∧
    (∀ h p, (ix.addClient h p).1 = false → (ix.addClient h p).2 = ix) ∧
    (∀ h p n, (ix.addRfc h p n).1 = false → (ix.addRfc h p n).2 = ix) ∧
    (∀ h p, ix.eraseHolders h p =
      { ix with rfcs := ix.rfcs.filter fun r ↦ decide (r.peer ≠ ⟨h, p⟩) }) ∧
    (∀ h p, ix.eraseClient h p =
      { ix with clients := ix.clients.filter fun c ↦ decide (c ≠ ⟨h, p⟩) }) ∧
    (∀ n, ix.findRfcs n = (ix.allRfcs.filter fun r ↦ r.rfc == n).map RFCHolder.peer ∧
      Ascending compareClients (ix.findRfcs n) ∧ (ix.findRfcs n).Nodup) ∧
    (∀ ops', ix.sets.holders = (indexAfter ops').sets.holders →
      ix.allRfcs = (indexAfter ops').allRfcs ∧
        ∀ n, ix.findRfcs n = (indexAfter ops').findRfcs n) := by
  intro ix
  have hix : ix.WellFormed := wellFormed_indexAfter ops
  refine ⟨⟨hix.clients_nodup, hix.rfcs_ascending⟩, exec_refines hix, ?_, ?_, ?_, ?_, ?_, ?_⟩
  · intro h p hfail
    rw [CentralIndex.addClient_eq] at hfail ⊢
    split at hfail
    · rename_i hmem
      rw [if_pos hmem]
    · exact absurd hfail (by simp)
  · intro h p n hfail
    rw [CentralIndex.addRfc_eq] at hfail ⊢
    split at hfail
    · exact absurd hfail (by simp)
    · rename_i hno
      rw [if_neg hno]
  · intro h p
    rw [← CentralIndex.eraseHolders_rfcs]
    rfl
  · intro h p
    rw [← hix.eraseClient_clients]
    rfl
  · exact fun n ↦ ⟨rfl, hix.findRfcs_ascending n,
      (hix.findRfcs_ascending n).nodup strictTotal_compareClients⟩
  · exact fun ops' ↦ hix.lists_eq (wellFormed_indexAfter ops')

end RfcNet
