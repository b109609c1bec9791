import RfcNet.IndexRefinement

/-!
# The index without one of its clients

`ix.without c` is the index with the client `c` and its associations left out.  A critical section that is
about another pair, or about none, does there what it does in the index itself (`IndexOp.exec_without`), except
that a query returns less by what `c` has; and one that is about `c` does nothing that could be seen there
(`IndexOp.without_exec`).
-/

set_option autoImplicit false

namespace RfcNet

open Lib

/-- The pair that a critical section is about, which a query is not. -/
def IndexOp.pair : IndexOp → Option Client
  | .addClient h p => some ⟨h, p⟩
  | .eraseHolders h p => some ⟨h, p⟩
  | .eraseClient h p => some ⟨h, p⟩
  | .addRfc h p _ => some ⟨h, p⟩
  | .findRfcs _ => none
  | .allRfcs => none

/-- The index with a client left out, and its associations. -/
def CentralIndex.without (ix : CentralIndex) (c : Client) : CentralIndex where
  clients := ix.clients.filter (· ≠ c)
  rfcs := ix.rfcs.filter (·.peer ≠ c)

/-- What a critical section returns, with the entries of a client left out. -/
def IndexOp.without (c : Client) : (op : IndexOp) → op.Res → op.Res
  | .addClient _ _, r => r
  | .eraseHolders _ _, r => r
  | .eraseClient _ _, r => r
  | .addRfc _ _ _, r => r
  | .findRfcs _, l => l.filter (· ≠ c)
  | .allRfcs, l => l.filter (·.peer ≠ c)

namespace CentralIndex

variable {ix : CentralIndex} {c : Client} {h : StdString} {p n : Int32}

theorem mem_clients_without {d : Client} : d ∈ (ix.without c).clients ↔ d ∈ ix.clients ∧ d ≠ c := by
  rw [without, List.mem_filter, decide_eq_true_iff]

theorem mem_rfcs_without {r : RFCHolder} :
    r ∈ (ix.without c).rfcs ↔ r ∈ ix.rfcs ∧ r.peer ≠ c := by
  rw [without, List.mem_filter, decide_eq_true_iff]

/-- An index is without a client that it does not know. -/
theorem without_eq_self (hclient : c ∉ ix.clients) (hrfcs : ∀ r ∈ ix.rfcs, r.peer ≠ c) :
    ix.without c = ix := by
  have hclients : ix.clients.filter (· ≠ c) = ix.clients :=
    List.filter_eq_self.mpr fun d hd ↦ decide_eq_true fun heq ↦ hclient (heq ▸ hd)
  have hholders : ix.rfcs.filter (·.peer ≠ c) = ix.rfcs :=
    List.filter_eq_self.mpr fun r hr ↦ decide_eq_true (hrfcs r hr)
  rw [without, hclients, hholders]

/-- Appending to the associations and sorting does not depend on those that are left out. -/
theorem WellFormed.filter_addRfc (hix : ix.WellFormed) {r : RFCHolder} (hr : r ∉ ix.rfcs)
    (hpeer : r.peer ≠ c) :
    (listSort compareRfcHolders (ix.rfcs ++ [r])).filter (·.peer ≠ c) =
      listSort compareRfcHolders (ix.rfcs.filter (·.peer ≠ c) ++ [r]) := by
  refine Ascending.ext strictTotal_compareRfcHolders
    ((ascending_listSort_append strictTotal_compareRfcHolders hix.rfcs_ascending hr).filter _)
    (ascending_listSort_append strictTotal_compareRfcHolders (hix.rfcs_ascending.filter _) ?_) ?_
  · exact fun hmem ↦ hr (List.mem_of_mem_filter hmem)
  · intro a
    simp only [List.mem_filter, mem_listSort, List.mem_append, List.mem_singleton,
      decide_eq_true_iff]
    constructor
    · rintro ⟨hold | rfl, ha⟩
      · exact .inl ⟨hold, ha⟩
      · exact .inr rfl
    · rintro (⟨hold, ha⟩ | rfl)
      · exact ⟨.inl hold, ha⟩
      · exact ⟨.inr rfl, hpeer⟩

/-! ## Somebody else's critical sections -/

theorem addClient_without (hne : (⟨h, p⟩ : Client) ≠ c) :
    (ix.without c).addClient h p = ((ix.addClient h p).1, (ix.addClient h p).2.without c) := by
  rw [addClient_eq, addClient_eq]
  by_cases hmem : (⟨h, p⟩ : Client) ∈ ix.clients
  · rw [if_pos hmem, if_pos (mem_clients_without.mpr ⟨hmem, hne⟩)]
  · rw [if_neg hmem, if_neg fun hc ↦ hmem (mem_clients_without.mp hc).1]
    have hkeep : [(⟨h, p⟩ : Client)].filter (· ≠ c) = [⟨h, p⟩] :=
      List.filter_cons_of_pos (decide_eq_true hne)
    rw [without, without, List.filter_append, hkeep]

theorem eraseHolders_without :
    (ix.without c).eraseHolders h p = (ix.eraseHolders h p).without c := by
  rw [eraseHolders, without, eraseHolders, without, List.filter_filter, List.filter_filter]
  simp only [Bool.and_comm]

theorem WellFormed.without (hix : ix.WellFormed) (c : Client) : (ix.without c).WellFormed :=
  ⟨hix.clients_nodup.filter _, hix.rfcs_ascending.filter _⟩

theorem WellFormed.eraseClient_without (hix : ix.WellFormed) :
    (ix.without c).eraseClient h p = (ix.eraseClient h p).without c := by
  have hclients : ((ix.without c).eraseClient h p).clients =
      ((ix.eraseClient h p).without c).clients := by
    rw [(hix.without c).eraseClient_clients, CentralIndex.without, CentralIndex.without,
      hix.eraseClient_clients, List.filter_filter, List.filter_filter]
    simp only [Bool.and_comm]
  exact (CentralIndex.mk.injEq ..).mpr ⟨hclients, rfl⟩

theorem WellFormed.addRfc_without (hix : ix.WellFormed) (hne : (⟨h, p⟩ : Client) ≠ c) :
    (ix.without c).addRfc h p n = ((ix.addRfc h p n).1, (ix.addRfc h p n).2.without c) := by
  rw [addRfc_eq, addRfc_eq]
  by_cases hok : (⟨n, ⟨h, p⟩⟩ : RFCHolder) ∉ ix.rfcs ∧ (⟨h, p⟩ : Client) ∈ ix.clients
  · have hok' : (⟨n, ⟨h, p⟩⟩ : RFCHolder) ∉ (ix.without c).rfcs ∧
        (⟨h, p⟩ : Client) ∈ (ix.without c).clients :=
      ⟨fun hr ↦ hok.1 (mem_rfcs_without.mp hr).1, mem_clients_without.mpr ⟨hok.2, hne⟩⟩
    rw [if_pos hok, if_pos hok', CentralIndex.without, CentralIndex.without,
      hix.filter_addRfc hok.1 hne]
  · have hok' : ¬((⟨n, ⟨h, p⟩⟩ : RFCHolder) ∉ (ix.without c).rfcs ∧
        (⟨h, p⟩ : Client) ∈ (ix.without c).clients) := fun hok' ↦
      hok ⟨fun hr ↦ hok'.1 (mem_rfcs_without.mpr ⟨hr, hne⟩), (mem_clients_without.mp hok'.2).1⟩
    rw [if_neg hok, if_neg hok']

theorem findRfcs_without :
    (ix.without c).findRfcs n = (ix.findRfcs n).filter (· ≠ c) := by
  rw [findRfcs, findRfcs, without, List.filter_map, List.filter_filter, List.filter_filter]
  simp only [Function.comp_apply, Bool.and_comm]

/-! ## The client's own critical sections -/

theorem WellFormed.without_addRfc (hix : ix.WellFormed) :
    (ix.addRfc c.host c.port n).2.without c = ix.without c := by
  have hrfcs : ((ix.addRfc c.host c.port n).2.without c).rfcs = (ix.without c).rfcs := by
    refine Ascending.ext strictTotal_compareRfcHolders
      ((hix.addRfc _ _ _).without c).rfcs_ascending (hix.without c).rfcs_ascending fun r ↦ ?_
    rw [mem_rfcs_without, mem_rfcs_without, mem_addRfc]
    constructor
    · rintro ⟨hr | ⟨-, rfl⟩, hpeer⟩
      · exact ⟨hr, hpeer⟩
      · exact absurd rfl hpeer
    · rintro ⟨hr, hpeer⟩
      exact ⟨.inl hr, hpeer⟩
  have hclients : ((ix.addRfc c.host c.port n).2.without c).clients = (ix.without c).clients := by
    rw [CentralIndex.without, addRfc_clients, CentralIndex.without]
  exact (CentralIndex.mk.injEq ..).mpr ⟨hclients, hrfcs⟩

theorem without_addClient : (ix.addClient c.host c.port).2.without c = ix.without c := by
  rw [addClient_eq]
  split
  · rfl
  · have hdrop : [c].filter (· ≠ c) = [] := List.filter_cons_of_neg (by simp)
    rw [without, without, List.filter_append, hdrop, List.append_nil]

theorem without_eraseHolders : (ix.eraseHolders c.host c.port).without c = ix.without c := by
  rw [without, without, eraseHolders_rfcs, List.filter_filter]
  simp only [Bool.and_self]
  rfl

theorem WellFormed.without_eraseClient (hix : ix.WellFormed) :
    (ix.eraseClient c.host c.port).without c = ix.without c := by
  rw [CentralIndex.without, CentralIndex.without, hix.eraseClient_clients, List.filter_filter]
  simp only [Bool.and_self]
  rfl

end CentralIndex

namespace IndexOp

variable {ix : CentralIndex} {c : Client}

/-- **A critical section about somebody else** does not notice that a client is left out, but that a query
does not return it. -/
theorem exec_without (hix : ix.WellFormed) {op : IndexOp} (hop : ∀ d ∈ op.pair, d ≠ c) :
    op.exec (ix.without c) = (op.without c (op.exec ix).1, (op.exec ix).2.without c) := by
  cases op with
  | addClient h p => exact CentralIndex.addClient_without (hop _ rfl)
  | eraseHolders h p => exact congrArg (Prod.mk ()) CentralIndex.eraseHolders_without
  | eraseClient h p =>
    exact congrArg (Prod.mk ()) hix.eraseClient_without
  | addRfc h p n => exact hix.addRfc_without (hop _ rfl)
  | findRfcs n => exact congrArg (Prod.mk · (ix.without c)) CentralIndex.findRfcs_without
  | allRfcs => rfl

/-- **A critical section about a client** changes nothing but what is left out with it, and nor does a
query. -/
theorem without_exec (hix : ix.WellFormed) {op : IndexOp} (hop : ∀ d ∈ op.pair, d = c) :
    (op.exec ix).2.without c = ix.without c := by
  cases op with
  | addClient h p =>
    obtain rfl := hop _ rfl
    exact CentralIndex.without_addClient
  | eraseHolders h p =>
    obtain rfl := hop _ rfl
    exact CentralIndex.without_eraseHolders
  | eraseClient h p =>
    obtain rfl := hop _ rfl
    exact hix.without_eraseClient
  | addRfc h p n =>
    obtain rfl := hop _ rfl
    exact hix.without_addRfc
  | findRfcs n => rfl
  | allRfcs => rfl

end IndexOp

end RfcNet
