import Ticoin.Core
import Ticoin.Lib.Cascade
import Ticoin.Lib.Table

/-!
# txmempool.cpp : the memory pool and its index

`mapTx` has the pooled transactions under their hashes, and `mapNextTx` finds by an outpoint the
input that spends it, with a pointer to the pooled transaction. A recursive removal follows the
index from each output of a transaction to the transaction that spends it, and removes this one
first, while both maps shrink.

The index is exact in every state that the operations reach (`Reachable.indexed`). A recursive
removal ends, with a recursion no deeper than the pool is large, and removes exactly the
transaction and what descends from it in the pool, each once (`removeRecursive_spec`), and
`removeConflicts` leaves no conflict (`removeConflicts_spec`). `mempool_index` collects these.
-/

namespace Ticoin

open Codec Table Cascade

/-! ## The pool -/

/-- An input of a pooled transaction : a pointer into `mapTx`, which is the key of its entry, and
the index of the input. -/
structure CInPoint where
  ptx : UInt256
  n : ℕ
  deriving DecidableEq

structure CTxMemPoolEntry where
  tx : CTransaction

structure CTxMemPool where
  mapTx : Std.ExtTreeMap UInt256 CTxMemPoolEntry := ∅
  mapNextTx : Std.ExtTreeMap COutPoint CInPoint := ∅
  nTransactionsUpdated : UInt32 := 0

namespace CTxMemPool

/-- The loop of `addUnchecked` over the inputs, the first with index `n`. -/
def spendAll (hash : UInt256) : ℕ → List CTxIn → Std.ExtTreeMap COutPoint CInPoint →
    Std.ExtTreeMap COutPoint CInPoint
  | _, [], m => m
  | n, txin :: vin, m => spendAll hash (n + 1) vin (m.insert txin.prevout ⟨hash, n⟩)

/-- `addUnchecked`. -/
def addUnchecked (hash : UInt256) (entry : CTxMemPoolEntry) (s : CTxMemPool) : CTxMemPool where
  mapTx := s.mapTx.insert hash entry
  mapNextTx := spendAll hash 0 entry.tx.vin s.mapNextTx
  nTransactionsUpdated := s.nTransactionsUpdated + 1

variable (H : Bytes → UInt256)

/-- The entry of a pooled transaction and what the index has for its inputs are erased. -/
def erase (tx : CTransaction) (s : CTxMemPool) : CTxMemPool where
  mapTx := s.mapTx.erase (tx.getHash H)
  mapNextTx := tx.vin.foldl (fun m txin => m.erase txin.prevout) s.mapNextTx
  nTransactionsUpdated := s.nTransactionsUpdated + 1

/-- The end of `remove`, for the transaction itself. -/
def removeOne (tx : CTransaction) (st : CTxMemPool × List CTransaction) :
    CTxMemPool × List CTransaction :=
  if st.1.mapTx.contains (tx.getHash H) then (st.1.erase H tx, tx :: st.2) else st

/-- One step of the loop of `remove` over the outputs : the transaction that spends the output is
removed by `remove`. To follow a pointer to no entry is undefined. -/
def removeSpender
    (remove : CTransaction → CTxMemPool × List CTransaction → Option (CTxMemPool × List CTransaction))
    (tx : CTransaction) (st : CTxMemPool × List CTransaction) (i : ℕ) :
    Option (CTxMemPool × List CTransaction) :=
  match st.1.mapNextTx[(⟨tx.getHash H, UInt32.ofNat i⟩ : COutPoint)]? with
  | none => some st
  | some inPoint => do
    let entry ← st.1.mapTx[inPoint.ptx]?
    remove entry.tx st

/-- `remove` with `fRecursive`, up to a depth of the recursion. -/
def removeRecursive : ℕ → CTransaction → CTxMemPool × List CTransaction →
    Option (CTxMemPool × List CTransaction)
  | 0, _, _ => none
  | depth + 1, tx, st => do
    let st ← (List.range tx.vout.length).foldlM (removeSpender H (removeRecursive depth) tx) st
    some (removeOne H tx st)

/-- `remove`. The recursion goes down from pooled to pooled transactions. -/
def remove (tx : CTransaction) (removed : List CTransaction) (fRecursive : Bool)
    (s : CTxMemPool) : Option (CTxMemPool × List CTransaction) :=
  if fRecursive then removeRecursive H (s.mapTx.size + 1) tx (s, removed)
  else some (removeOne H tx (s, removed))

/-- One step of the loop of `removeConflicts`. -/
def removeConflict (tx : CTransaction) (st : CTxMemPool × List CTransaction) (txin : CTxIn) :
    Option (CTxMemPool × List CTransaction) :=
  match st.1.mapNextTx[txin.prevout]? with
  | none => some st
  | some inPoint => do
    let txConflict ← st.1.mapTx[inPoint.ptx]?
    if txConflict.tx ≠ tx then remove H txConflict.tx st.2 true st.1 else some st

/-- `removeConflicts`. -/
def removeConflicts (tx : CTransaction) (removed : List CTransaction) (s : CTxMemPool) :
    Option (CTxMemPool × List CTransaction) :=
  tx.vin.foldlM (removeConflict H tx) (s, removed)

def clear (s : CTxMemPool) : CTxMemPool where
  nTransactionsUpdated := s.nTransactionsUpdated + 1

/-! ## The index -/

/-- The transactions of the pool. -/
def pool (s : CTxMemPool) : Set CTransaction :=
  {tx | ∃ (hash : UInt256) (entry : CTxMemPoolEntry), s.mapTx[hash]? = some entry ∧ entry.tx = tx}

/-- An input of the second transaction spends an output of the first. -/
def Child (tx child : CTransaction) : Prop :=
  ∃ txin ∈ child.vin, ∃ i < tx.vout.length, txin.prevout = ⟨tx.getHash H, UInt32.ofNat i⟩

/-- Hashes that do not collide on the transactions, and rank above the hashes they spend : no
transaction descends from itself. -/
structure Hashes (txs : Set CTransaction) (rank : UInt256 → ℕ) : Prop where
  injOn : Set.InjOn (CTransaction.getHash H) txs
  lt : ∀ tx ∈ txs, ∀ txin ∈ tx.vin, rank txin.prevout.hash < rank (tx.getHash H)

/-- The pooled transactions are under their hashes, and the index has their inputs. -/
structure Indexed (txs : Set CTransaction) (s : CTxMemPool) : Prop where
  hash : ∀ (hash : UInt256) (entry : CTxMemPoolEntry),
    s.mapTx[hash]? = some entry → entry.tx.getHash H = hash
  mem : ∀ tx ∈ s.pool, tx ∈ txs
  next : ∀ (o : COutPoint) (hash : UInt256) (i : ℕ), s.mapNextTx[o]? = some ⟨hash, i⟩ ↔
    ∃ entry, s.mapTx[hash]? = some entry ∧ (entry.tx.vin[i]?).map CTxIn.prevout = some o

variable {H} {txs : Set CTransaction} {rank : UInt256 → ℕ} {s s' s'' : CTxMemPool}
  {tx t : CTransaction} {R R' : Set CTransaction} {l l' : List CTransaction}

/-- A pooled transaction is the one under its hash. -/
theorem Indexed.mem_pool (h : Indexed H txs s) : t ∈ s.pool ↔
    s.mapTx[t.getHash H]? = some ⟨t⟩ := by
  constructor
  · rintro ⟨hash, ⟨t'⟩, hget, rfl⟩
    rw [h.hash hash _ hget, hget]
  · intro hget
    exact ⟨_, _, hget, rfl⟩

/-- An outpoint finds the pooled transaction that spends it. -/
theorem Indexed.exists_next (h : Indexed H txs s) (ht : t ∈ s.pool) {txin : CTxIn}
    (hin : txin ∈ t.vin) : ∃ i, s.mapNextTx[txin.prevout]? = some ⟨t.getHash H, i⟩ := by
  obtain ⟨i, hi⟩ := List.mem_iff_getElem?.mp hin
  refine ⟨i, (h.next _ _ _).mpr ⟨⟨t⟩, h.mem_pool.mp ht, ?_⟩⟩
  rw [hi, Option.map_some]

theorem Indexed.of_next (h : Indexed H txs s) {o : COutPoint} {p : CInPoint}
    (hget : s.mapNextTx[o]? = some p) :
    ∃ t, s.mapTx[p.ptx]? = some ⟨t⟩ ∧ t ∈ s.pool ∧ t.getHash H = p.ptx ∧
      ∃ txin ∈ t.vin, txin.prevout = o := by
  obtain ⟨⟨t⟩, hentry, hprev⟩ := (h.next o p.ptx p.n).mp hget
  obtain ⟨txin, hin, hprev⟩ := Option.map_eq_some_iff.mp hprev
  exact ⟨t, hentry, ⟨_, _, hentry, rfl⟩, h.hash _ _ hentry, txin, List.mem_of_getElem? hin, hprev⟩

/-- No two pooled transactions spend one outpoint. -/
theorem Indexed.eq_of_prevout (h : Indexed H txs s) (ht : t ∈ s.pool) (htx : tx ∈ s.pool)
    {txin txin' : CTxIn} (hin : txin ∈ t.vin) (hin' : txin' ∈ tx.vin)
    (heq : txin.prevout = txin'.prevout) : t = tx := by
  obtain ⟨i, hi⟩ := h.exists_next ht hin
  obtain ⟨j, hj⟩ := h.exists_next htx hin'
  rw [heq, hj, Option.some.injEq, CInPoint.mk.injEq] at hi
  have hget := h.mem_pool.mp ht
  rw [← hi.1, h.mem_pool.mp htx, Option.some.injEq, CTxMemPoolEntry.mk.injEq] at hget
  exact hget.symm

theorem finite_pool (s : CTxMemPool) : s.pool.Finite := by
  have hsub : s.pool ⊆ {tx | tx ∈ s.mapTx.toList.map fun p => p.2.tx} := by
    rintro tx ⟨hash, entry, hget, rfl⟩
    exact List.mem_map.mpr ⟨(hash, entry), Std.ExtTreeMap.mem_toList_iff_getElem?_eq_some.mpr hget, rfl⟩
  exact (List.finite_toSet _).subset hsub

theorem ncard_pool_le (s : CTxMemPool) : s.pool.ncard ≤ s.mapTx.size := by
  classical
  have hsub : s.pool ⊆ ((s.mapTx.toList.map fun p => p.2.tx).toFinset : Set CTransaction) := by
    rintro tx ⟨hash, entry, hget, rfl⟩
    exact List.mem_toFinset.mpr (List.mem_map.mpr
      ⟨(hash, entry), Std.ExtTreeMap.mem_toList_iff_getElem?_eq_some.mpr hget, rfl⟩)
  calc s.pool.ncard ≤ (s.mapTx.toList.map fun p => p.2.tx).toFinset.card := by
        rw [← Set.ncard_coe_finset]
        exact Set.ncard_le_ncard hsub
    _ ≤ (s.mapTx.toList.map fun p => p.2.tx).length := List.toFinset_card_le _
    _ = s.mapTx.size := by rw [List.length_map, Std.ExtTreeMap.length_toList]

/-! ## Adding -/

theorem getElem?_spendAll {hash : UInt256} {o : COutPoint} {p : CInPoint} :
    ∀ {n : ℕ} {vin : List CTxIn} {m : Std.ExtTreeMap COutPoint CInPoint},
    (vin.map CTxIn.prevout).Nodup → ((spendAll hash n vin m)[o]? = some p ↔
      (∃ i, (vin[i]?).map CTxIn.prevout = some o ∧ p = ⟨hash, n + i⟩) ∨
        o ∉ vin.map CTxIn.prevout ∧ m[o]? = some p)
  | n, [], m, _ => by simp [spendAll]
  | n, txin :: vin, m, hnodup => by
    rw [List.map_cons, List.nodup_cons] at hnodup
    rw [spendAll, getElem?_spendAll hnodup.2, congrFun getElem?_insert_eq o]
    constructor
    · rintro (⟨i, hi, rfl⟩ | ⟨hnot, hget⟩)
      · exact Or.inl ⟨i + 1, hi, by rw [Nat.add_right_comm, Nat.add_assoc]⟩
      · by_cases ho : o = txin.prevout
        · rw [ho, Function.update_self, Option.some.injEq] at hget
          exact Or.inl ⟨0, by rw [ho]; rfl, hget.symm⟩
        · rw [Function.update_of_ne ho] at hget
          exact Or.inr ⟨by rw [List.map_cons, List.mem_cons, not_or]; exact ⟨ho, hnot⟩, hget⟩
    · rintro (⟨i, hi, rfl⟩ | ⟨hnot, hget⟩)
      · cases i with
        | zero =>
          obtain rfl : txin.prevout = o := Option.some.inj hi
          exact Or.inr ⟨hnodup.1, by rw [Function.update_self]; rfl⟩
        | succ i => exact Or.inl ⟨i, hi, by rw [Nat.add_right_comm, Nat.add_assoc]⟩
      · rw [List.map_cons, List.mem_cons, not_or] at hnot
        exact Or.inr ⟨hnot.2, by rw [Function.update_of_ne hnot.1]; exact hget⟩

/-- A new transaction whose inputs are distinct and spent by none in the pool. -/
theorem Indexed.addUnchecked (h : Indexed H txs s) (htx : tx ∈ txs)
    (hnodup : (tx.vin.map CTxIn.prevout).Nodup)
    (hfree : ∀ txin ∈ tx.vin, s.mapNextTx[txin.prevout]? = none)
    (hnew : s.mapTx[tx.getHash H]? = none) :
    Indexed H txs (s.addUnchecked (tx.getHash H) ⟨tx⟩) := by
  constructor
  · intro hash entry hget
    change (s.mapTx.insert _ _)[hash]? = some entry at hget
    rw [congrFun getElem?_insert_eq hash] at hget
    by_cases heq : hash = tx.getHash H
    · rw [heq, Function.update_self, Option.some.injEq] at hget
      rw [← hget, heq]
    · rw [Function.update_of_ne heq] at hget
      exact h.hash hash entry hget
  · rintro t ⟨hash, entry, hget, rfl⟩
    change (s.mapTx.insert _ _)[hash]? = some entry at hget
    rw [congrFun getElem?_insert_eq hash] at hget
    by_cases heq : hash = tx.getHash H
    · rw [heq, Function.update_self, Option.some.injEq] at hget
      rw [← hget]
      exact htx
    · rw [Function.update_of_ne heq] at hget
      exact h.mem _ ⟨hash, entry, hget, rfl⟩
  · intro o hash i
    change (spendAll (tx.getHash H) 0 tx.vin s.mapNextTx)[o]? = _ ↔
      ∃ entry, (s.mapTx.insert _ _)[hash]? = some entry ∧ _
    rw [getElem?_spendAll hnodup, congrFun getElem?_insert_eq hash, h.next]
    by_cases heq : hash = tx.getHash H
    · simp [heq, hnew]
    · rw [Function.update_of_ne heq]
      constructor
      · rintro (⟨j, -, hp⟩ | ⟨-, hget⟩)
        · exact absurd (CInPoint.mk.inj hp).1 heq
        · exact hget
      · intro hget
        refine Or.inr ⟨fun hmem => ?_, hget⟩
        obtain ⟨txin, hin, rfl⟩ := List.mem_map.mp hmem
        have hnext := (h.next _ _ _).mpr hget
        rw [hfree txin hin] at hnext
        cases hnext

/-! ## Removing one transaction -/

theorem getElem?_eraseAll (o : COutPoint) : ∀ (vin : List CTxIn)
    (m : Std.ExtTreeMap COutPoint CInPoint),
    (vin.foldl (fun m txin => m.erase txin.prevout) m)[o]? =
      if o ∈ vin.map CTxIn.prevout then none else m[o]?
  | [], m => by simp
  | txin :: vin, m => by
    rw [List.foldl_cons, getElem?_eraseAll o vin, congrFun getElem?_erase_eq o, List.map_cons]
    by_cases ho : o = txin.prevout
    · rw [ho, Function.update_self, ite_self, if_pos List.mem_cons_self]
    · rw [Function.update_of_ne ho]
      simp only [List.mem_cons, ho, false_or]

theorem getElem?_erase (tx : CTransaction) (s : CTxMemPool) (hash : UInt256) :
    (s.erase H tx).mapTx[hash]? = if hash = tx.getHash H then none else s.mapTx[hash]? := by
  change (s.mapTx.erase _)[hash]? = _
  rw [congrFun getElem?_erase_eq hash]
  by_cases heq : hash = tx.getHash H
  · rw [heq, Function.update_self, if_pos rfl]
  · rw [Function.update_of_ne heq, if_neg heq]

/-- Of a pool some transactions are removed, which are below the roots with all below them. -/
structure Removal (H : Bytes → UInt256) (s s' : CTxMemPool) (R : Set CTransaction)
    (l : List CTransaction) : Prop where
  entries : ∀ hash : UInt256, s'.mapTx[hash]? = s.mapTx[hash]?.filter fun entry => entry.tx ∉ l
  deleted : Deleted (Child H) s.pool R l

theorem pool_eq_rest
    (h : ∀ hash : UInt256, s'.mapTx[hash]? = s.mapTx[hash]?.filter fun entry => entry.tx ∉ l) :
    s'.pool = rest s.pool l := by
  ext t
  constructor
  · rintro ⟨hash, entry, hget, rfl⟩
    rw [h, Option.filter_eq_some_iff] at hget
    exact ⟨⟨hash, entry, hget.1, rfl⟩, of_decide_eq_true hget.2⟩
  · rintro ⟨⟨hash, entry, hget, rfl⟩, hnot⟩
    refine ⟨hash, entry, ?_, rfl⟩
    rw [h, Option.filter_eq_some_iff]
    exact ⟨hget, decide_eq_true hnot⟩

theorem Removal.pool_eq (h : Removal H s s' R l) : s'.pool = rest s.pool l := pool_eq_rest h.entries

theorem Removal.sub (h : Removal H s s' R l) : s'.pool ⊆ s.pool := by
  rw [h.pool_eq]
  exact fun t ht => ht.1

theorem Removal.refl : Removal H s s R [] where
  entries hash := by
    cases s.mapTx[hash]? with
    | none => rfl
    | some entry => rw [Option.filter_some, if_pos (decide_eq_true List.not_mem_nil)]
  deleted := Deleted.nil

theorem filter_notMem_append {o : Option CTxMemPoolEntry} :
    (o.filter fun entry => entry.tx ∉ l).filter (fun entry => entry.tx ∉ l') =
      o.filter fun entry => entry.tx ∉ l' ++ l := by
  rw [Option.filter_filter]
  congr 1
  ext entry
  simp [List.mem_append, and_comm]

theorem Removal.trans (h : Removal H s s' R l) (h' : Removal H s' s'' R l') :
    Removal H s s'' R (l' ++ l) where
  entries hash := by rw [h'.entries, h.entries, filter_notMem_append]
  deleted := h.deleted.trans (h.pool_eq ▸ h'.deleted)

/-- The entry under the hash of a transaction is its own. -/
theorem Indexed.mem_pool_of_contains (h : Indexed H txs s) (hh : Hashes H txs rank) (htx : tx ∈ txs)
    (hpooled : s.mapTx.contains (tx.getHash H) = true) : tx ∈ s.pool := by
  rw [Std.ExtTreeMap.contains_eq_isSome_getElem?] at hpooled
  obtain ⟨entry, hget⟩ := Option.isSome_iff_exists.mp hpooled
  have hmem : entry.tx ∈ s.pool := ⟨_, _, hget, rfl⟩
  rw [← hh.injOn (h.mem _ hmem) htx (h.hash _ _ hget)]
  exact hmem

theorem Indexed.contains_of_mem_pool (h : Indexed H txs s) (htx : tx ∈ s.pool) :
    s.mapTx.contains (tx.getHash H) = true := by
  rw [Std.ExtTreeMap.contains_eq_isSome_getElem?, h.mem_pool.mp htx]
  rfl

theorem Indexed.entries_erase (h : Indexed H txs s) (htx : tx ∈ s.pool) (hash : UInt256) :
    (s.erase H tx).mapTx[hash]? = s.mapTx[hash]?.filter fun entry => entry.tx ∉ [tx] := by
  rw [getElem?_erase]
  by_cases heq : hash = tx.getHash H
  · rw [if_pos heq, heq, h.mem_pool.mp htx, Option.filter_some, if_neg (by simp)]
  · rw [if_neg heq]
    cases hget : s.mapTx[hash]? with
    | none => rfl
    | some entry =>
      have hne : entry.tx ∉ [tx] := by
        rw [List.mem_singleton]
        intro htxeq
        exact heq (by rw [← h.hash _ _ hget, htxeq])
      rw [Option.filter_some, if_pos (decide_eq_true hne)]

theorem Indexed.erase (h : Indexed H txs s) (htx : tx ∈ s.pool) : Indexed H txs (s.erase H tx) := by
  constructor
  · intro hash entry hget
    rw [h.entries_erase htx, Option.filter_eq_some_iff] at hget
    exact h.hash hash entry hget.1
  · intro t ht
    rw [pool_eq_rest (h.entries_erase htx)] at ht
    exact h.mem t ht.1
  · intro o hash i
    change (tx.vin.foldl _ s.mapNextTx)[o]? = _ ↔ _
    rw [getElem?_eraseAll, getElem?_erase]
    by_cases ho : o ∈ tx.vin.map CTxIn.prevout
    · obtain ⟨txin, hin, rfl⟩ := List.mem_map.mp ho
      rw [if_pos ho]
      refine iff_of_false nofun ?_
      rintro ⟨entry, hget, hprev⟩
      by_cases heq : hash = tx.getHash H
      · rw [if_pos heq] at hget
        cases hget
      · -- another transaction does not spend the same outpoint
        rw [if_neg heq] at hget
        obtain ⟨j, hj⟩ := h.exists_next htx hin
        rw [(h.next _ hash i).mpr ⟨entry, hget, hprev⟩, Option.some.injEq, CInPoint.mk.injEq] at hj
        exact heq hj.1
    · rw [if_neg ho, h.next]
      by_cases heq : hash = tx.getHash H
      · rw [if_pos heq, heq, h.mem_pool.mp htx]
        refine iff_of_false ?_ (by simp)
        rintro ⟨entry, hget, hprev⟩
        obtain rfl := Option.some.inj hget
        obtain ⟨txin, hin, rfl⟩ := Option.map_eq_some_iff.mp hprev
        exact ho (List.mem_map_of_mem (List.mem_of_getElem? hin))
      · rw [if_neg heq]

/-- `removeOne` removes a pooled transaction, and does nothing for others. -/
theorem removeOne_cases (h : Indexed H txs s) (hh : Hashes H txs rank) (htx : tx ∈ txs)
    (removed : List CTransaction) :
    (tx ∈ s.pool ∧ removeOne H tx (s, removed) = (s.erase H tx, tx :: removed)) ∨
      tx ∉ s.pool ∧ removeOne H tx (s, removed) = (s, removed) := by
  unfold removeOne
  by_cases hpooled : s.mapTx.contains (tx.getHash H) = true
  · exact Or.inl ⟨h.mem_pool_of_contains hh htx hpooled, if_pos hpooled⟩
  · exact Or.inr ⟨fun hmem => hpooled (h.contains_of_mem_pool hmem), if_neg hpooled⟩

/-! ## Removing recursively -/

theorem Hashes.lt_of_child (hh : Hashes H txs rank) (ht : t ∈ txs) (h : Child H tx t) :
    rank (tx.getHash H) < rank (t.getHash H) := by
  obtain ⟨txin, hin, i, -, hprev⟩ := h
  have hlt := hh.lt t ht txin hin
  rw [hprev] at hlt
  exact hlt

/-- The number of pooled transactions that rank above one. -/
noncomputable def above (H : Bytes → UInt256) (rank : UInt256 → ℕ) (s : CTxMemPool)
    (tx : CTransaction) : ℕ :=
  height (fun t => rank (t.getHash H)) s.pool tx

theorem above_le (hsub : s'.pool ⊆ s.pool) : above H rank s' tx ≤ above H rank s tx :=
  height_le (finite_pool s) hsub

theorem above_lt (hh : Hashes H txs rank) (h : Indexed H txs s) (ht : t ∈ s.pool)
    (hchild : Child H tx t) : above H rank s t < above H rank s tx :=
  height_lt (finite_pool s) ht (hh.lt_of_child (h.mem t ht) hchild)

/-- What is left is indexed, a list of transactions is removed with all below them, and is added
to what was removed before. -/
def Removes (H : Bytes → UInt256) (txs : Set CTransaction) (s : CTxMemPool)
    (removed : List CTransaction) (R : Set CTransaction)
    (result : Option (CTxMemPool × List CTransaction)) (left : CTxMemPool → Prop) : Prop :=
  ∃ s' l, result = some (s', l ++ removed) ∧ Indexed H txs s' ∧ Removal H s s' R l ∧ left s'

/-- Neither a transaction nor what spends its outputs is pooled. -/
structure Cleared (H : Bytes → UInt256) (tx : CTransaction) (s : CTxMemPool) : Prop where
  self : tx ∉ s.pool
  child : ∀ t ∈ s.pool, ¬ Child H tx t

/-- No pooled transaction spends an outpoint. -/
def Unspent (o : COutPoint) (s : CTxMemPool) : Prop :=
  ∀ t ∈ s.pool, ∀ txin ∈ t.vin, txin.prevout ≠ o

theorem Unspent.mono {o : COutPoint} (h : Unspent o s) (hsub : s'.pool ⊆ s.pool) : Unspent o s' :=
  fun t ht => h t (hsub ht)

/-- After the spender of an outpoint is removed no other is left. -/
theorem Indexed.unspent (h : Indexed H txs s) (hsub : s'.pool ⊆ s.pool) (ht : t ∈ s.pool)
    (hnot : t ∉ s'.pool) {txin : CTxIn} (hin : txin ∈ t.vin) : Unspent txin.prevout s' := by
  intro t' ht' txin' hin' heq
  exact hnot (h.eq_of_prevout (hsub ht') ht hin' hin heq ▸ ht')

/-- The loop over some outputs removes their spenders with all below them. -/
theorem removeSpenders_spec (hh : Hashes H txs rank) {depth : ℕ}
    (ih : ∀ {s : CTxMemPool} {t : CTransaction} (removed : List CTransaction), Indexed H txs s →
      t ∈ txs → above H rank s t < depth →
      Removes H txs s removed {t} (removeRecursive H depth t (s, removed)) (Cleared H t)) :
    ∀ (is : List ℕ) {s : CTxMemPool} (removed : List CTransaction), Indexed H txs s →
    (∀ i ∈ is, i < tx.vout.length) →
    above H rank s tx < depth + 1 →
    Removes H txs s removed {t | t ∈ s.pool ∧ Child H tx t}
      (is.foldlM (removeSpender H (removeRecursive H depth) tx) (s, removed))
      fun s' => ∀ i ∈ is, Unspent ⟨tx.getHash H, UInt32.ofNat i⟩ s'
  | [], s, removed, h, _, _ => ⟨s, [], rfl, h, Removal.refl, nofun⟩
  | i :: is, s, removed, h, his, hheight => by
    rw [List.forall_mem_cons] at his
    rw [List.foldlM_cons, removeSpender]
    cases hnext : s.mapNextTx[(⟨tx.getHash H, UInt32.ofNat i⟩ : COutPoint)]? with
    | none =>
      obtain ⟨s', l, hrun, h', hrem, hleft⟩ := removeSpenders_spec hh ih is removed h his.2 hheight
      refine ⟨s', l, hrun, h', hrem, List.forall_mem_cons.mpr ⟨fun t ht txin hin hprev => ?_, hleft⟩⟩
      obtain ⟨j, hj⟩ := h.exists_next (hrem.sub ht) hin
      rw [hprev, hnext] at hj
      cases hj
    | some p =>
      obtain ⟨t, hentry, ht, -, txin, hin, hprev⟩ := h.of_next hnext
      have hchild : Child H tx t := ⟨txin, hin, i, his.1, hprev⟩
      have hlt := above_lt hh h ht hchild
      obtain ⟨s₁, l₁, hrun₁, h₁, hrem₁, hleft₁⟩ := ih removed h (h.mem t ht) (by omega)
      have hle : above H rank s₁ tx ≤ above H rank s tx := above_le hrem₁.sub
      obtain ⟨s', l, hrun, h', hrem, hleft⟩ :=
        removeSpenders_spec hh ih is (l₁ ++ removed) h₁ his.2 (by omega)
      have hroot₁ : Removal H s s₁ {t | t ∈ s.pool ∧ Child H tx t} l₁ :=
        ⟨hrem₁.entries, hrem₁.deleted.mono fun r hr => by rw [hr]; exact ⟨ht, hchild⟩⟩
      have hroot : Removal H s₁ s' {t | t ∈ s.pool ∧ Child H tx t} l :=
        ⟨hrem.entries, hrem.deleted.mono fun r hr => ⟨hrem₁.sub hr.1, hr.2⟩⟩
      refine ⟨s', l ++ l₁, ?_, h', hroot₁.trans hroot, List.forall_mem_cons.mpr ⟨?_, hleft⟩⟩
      · rw [List.append_assoc, ← hrun]
        simp only [hentry, Option.bind_eq_bind, Option.bind_some, hrun₁]
      · rw [← hprev]
        exact (h.unspent hrem₁.sub ht hleft₁.self hin).mono hrem.sub

/-- A recursive removal ends and removes the transaction with all below it. -/
theorem removeRecursive_spec (hh : Hashes H txs rank) : ∀ {depth : ℕ} {s : CTxMemPool}
    {tx : CTransaction} (removed : List CTransaction), Indexed H txs s → tx ∈ txs →
    above H rank s tx < depth →
    Removes H txs s removed {tx} (removeRecursive H depth tx (s, removed)) (Cleared H tx)
  | depth + 1, s, tx, removed, h, htx, hheight => by
    obtain ⟨s₁, l, hrun, h₁, hrem, hleft⟩ := removeSpenders_spec hh
      (removeRecursive_spec hh) (List.range tx.vout.length) removed h
      (fun i hi => List.mem_range.mp hi) hheight
    have hchild : ∀ t ∈ s₁.pool, ¬ Child H tx t := by
      rintro t ht ⟨txin, hin, i, hi, hprev⟩
      exact hleft i (List.mem_range.mpr hi) t ht txin hin hprev
    have hall : ∀ t ∈ s.pool, Child H tx t → t ∈ l := by
      intro t ht htc
      by_contra hnot
      exact hchild t (by rw [hrem.pool_eq]; exact ⟨ht, hnot⟩) htc
    rw [removeRecursive, hrun, Option.bind_eq_bind, Option.bind_some]
    rcases removeOne_cases h₁ hh htx (l ++ removed) with ⟨hmem, hone⟩ | ⟨hmem, hone⟩
    · have hmem' := hmem
      rw [hrem.pool_eq] at hmem'
      have hentries : ∀ hash : UInt256, (s₁.erase H tx).mapTx[hash]? =
          s.mapTx[hash]?.filter fun entry => entry.tx ∉ tx :: l := fun hash => by
        rw [h₁.entries_erase hmem, hrem.entries, filter_notMem_append, List.singleton_append]
      have hpool := pool_eq_rest hentries
      refine ⟨s₁.erase H tx, tx :: l, congrArg some hone, h₁.erase hmem,
        ⟨hentries, hrem.deleted.root hmem'.1 hmem'.2 hall⟩, ?_, ?_⟩
      · rw [hpool]
        exact fun hrest => hrest.2 List.mem_cons_self
      · rw [hpool]
        exact fun t ht htc => ht.2 (List.mem_cons_of_mem _ (hall t ht.1 htc))
    · exact ⟨s₁, l, congrArg some hone, h₁, ⟨hrem.entries, hrem.deleted.absent⟩, hmem, hchild⟩

theorem remove_spec (hh : Hashes H txs rank) (h : Indexed H txs s) (htx : tx ∈ txs)
    (removed : List CTransaction) :
    Removes H txs s removed {tx} (s.remove H tx removed true) (Cleared H tx) := by
  refine removeRecursive_spec hh removed h htx (Nat.lt_succ_of_le ?_)
  exact (Set.ncard_le_ncard (fun t ht => ht.1) (finite_pool s)).trans (ncard_pool_le s)

/-- What a recursive removal removes is the transaction, if pooled, and what descends from it. -/
theorem Removal.mem_iff (h : Removal H s s' {tx} l) (hleft : Cleared H tx s') :
    t ∈ l ↔ t ∈ s.pool ∧ Below (Child H) s.pool tx t := by
  have hself := hleft.self
  have hchild := hleft.child
  rw [h.pool_eq] at hself hchild
  refine h.deleted.mem_iff (fun hmem => ?_) fun b hb hbc => ?_
  · by_contra hnot
    exact hself ⟨hmem, hnot⟩
  · by_contra hnot
    exact hchild b ⟨hb, hnot⟩ hbc

/-! ## Removing conflicts -/

/-- The pooled transactions other than the given one that spend one of some inputs. -/
def conflicts (tx : CTransaction) (vin : List CTxIn) (s : CTxMemPool) : Set CTransaction :=
  {t | t ∈ s.pool ∧ t ≠ tx ∧ ∃ txin ∈ vin, ∃ txin' ∈ t.vin, txin'.prevout = txin.prevout}

theorem removeConflict_spec (tx : CTransaction) (hh : Hashes H txs rank) (h : Indexed H txs s)
    (removed : List CTransaction) (txin : CTxIn) :
    Removes H txs s removed (conflicts tx [txin] s) (removeConflict H tx (s, removed) txin)
      fun s' => conflicts tx [txin] s' = ∅ := by
  unfold removeConflict
  cases hnext : s.mapNextTx[txin.prevout]? with
  | none =>
    refine ⟨s, [], rfl, h, Removal.refl, Set.eq_empty_of_forall_notMem ?_⟩
    rintro t ⟨ht, -, txin₀, hin₀, txin', hin', hprev⟩
    rw [List.mem_singleton.mp hin₀] at hprev
    obtain ⟨i, hi⟩ := h.exists_next ht hin'
    rw [hprev, hnext] at hi
    cases hi
  | some p =>
    obtain ⟨t, hentry, ht, -, txin', hin', hprev⟩ := h.of_next hnext
    simp only [hentry, Option.bind_eq_bind, Option.bind_some]
    by_cases heq : t = tx
    · rw [if_neg (not_not.mpr heq)]
      refine ⟨s, [], rfl, h, Removal.refl, Set.eq_empty_of_forall_notMem ?_⟩
      rintro t' ⟨ht', hne, txin₀, hin₀, txin'', hin'', hprev'⟩
      rw [List.mem_singleton.mp hin₀] at hprev'
      exact hne ((h.eq_of_prevout ht' ht hin'' hin' (hprev'.trans hprev.symm)).trans heq)
    · rw [if_pos heq]
      obtain ⟨s', l, hrun, h', hrem, hleft⟩ := remove_spec hh h (h.mem t ht) removed
      refine ⟨s', l, hrun, h', ⟨hrem.entries, hrem.deleted.mono fun r hr => ?_⟩,
        Set.eq_empty_of_forall_notMem ?_⟩
      · rw [hr]
        exact ⟨ht, heq, txin, List.mem_singleton_self _, txin', hin', hprev⟩
      · rintro t' ⟨ht', -, txin₀, hin₀, txin'', hin'', hprev'⟩
        rw [List.mem_singleton.mp hin₀] at hprev'
        exact h.unspent hrem.sub ht hleft.self hin' t' ht' txin'' hin'' (hprev'.trans hprev.symm)

theorem conflicts_cons (txin : CTxIn) (vin : List CTxIn) :
    conflicts tx (txin :: vin) s = conflicts tx [txin] s ∪ conflicts tx vin s := by
  ext t
  simp only [conflicts, List.exists_mem_cons_iff, List.not_mem_nil, false_and, exists_false, or_false]
  exact (and_congr_right fun _ => and_or_left).trans and_or_left

theorem conflicts_mono {vin : List CTxIn} (hsub : s'.pool ⊆ s.pool) :
    conflicts tx vin s' ⊆ conflicts tx vin s := fun _ ht => ⟨hsub ht.1, ht.2⟩

/-- The loop over some inputs leaves no conflict in them. -/
theorem removeConflicts_spec (tx : CTransaction) (hh : Hashes H txs rank) : ∀ (vin : List CTxIn) {s : CTxMemPool}
    (removed : List CTransaction), Indexed H txs s →
    Removes H txs s removed (conflicts tx vin s) (vin.foldlM (removeConflict H tx) (s, removed))
      fun s' => conflicts tx vin s' = ∅
  | [], s, removed, h => by
    refine ⟨s, [], rfl, h, Removal.refl, Set.eq_empty_of_forall_notMem ?_⟩
    rintro t ⟨-, -, txin, hin, -⟩
    cases hin
  | txin :: vin, s, removed, h => by
    obtain ⟨s₁, l₁, hrun₁, h₁, hrem₁, hleft₁⟩ := removeConflict_spec tx hh h removed txin
    obtain ⟨s', l, hrun, h', hrem, hleft⟩ := removeConflicts_spec tx hh vin (l₁ ++ removed) h₁
    have hroot₁ : Removal H s s₁ (conflicts tx (txin :: vin) s) l₁ :=
      ⟨hrem₁.entries, hrem₁.deleted.mono fun r hr => by rw [conflicts_cons]; exact Or.inl hr⟩
    have hroot : Removal H s₁ s' (conflicts tx (txin :: vin) s) l :=
      ⟨hrem.entries, hrem.deleted.mono fun r hr => by
        rw [conflicts_cons]
        exact Or.inr (conflicts_mono hrem₁.sub hr)⟩
    refine ⟨s', l ++ l₁, ?_, h', hroot₁.trans hroot, ?_⟩
    · rw [List.foldlM_cons, hrun₁, Option.bind_eq_bind, Option.bind_some, hrun, List.append_assoc]
    · change conflicts tx (txin :: vin) s' = ∅
      rw [conflicts_cons, hleft, Set.union_empty]
      exact Set.subset_empty_iff.mp (hleft₁ ▸ conflicts_mono hrem.sub)

/-! ## Runs -/

/-- The states that the operations on the pool reach, with transactions of a set. -/
inductive Reachable (H : Bytes → UInt256) (txs : Set CTransaction) : CTxMemPool → Prop
  | empty : Reachable H txs {}
  | addUnchecked {s : CTxMemPool} {tx : CTransaction} (h : Reachable H txs s) (htx : tx ∈ txs)
      (hnodup : (tx.vin.map CTxIn.prevout).Nodup)
      (hfree : ∀ txin ∈ tx.vin, s.mapNextTx[txin.prevout]? = none)
      (hnew : s.mapTx[tx.getHash H]? = none) :
      Reachable H txs (s.addUnchecked (tx.getHash H) ⟨tx⟩)
  | remove {s s' : CTxMemPool} {tx : CTransaction} {removed removed' : List CTransaction}
      {fRecursive : Bool} (h : Reachable H txs s) (htx : tx ∈ txs)
      (hrun : s.remove H tx removed fRecursive = some (s', removed')) : Reachable H txs s'
  | removeConflicts {s s' : CTxMemPool} {tx : CTransaction} {removed removed' : List CTransaction}
      (h : Reachable H txs s) (htx : tx ∈ txs)
      (hrun : s.removeConflicts H tx removed = some (s', removed')) : Reachable H txs s'
  | clear {s : CTxMemPool} (h : Reachable H txs s) : Reachable H txs s.clear

theorem Indexed.empty {n : UInt32} : Indexed H txs { nTransactionsUpdated := n } where
  hash hash entry hget := by simp at hget
  mem := by
    rintro t ⟨hash, entry, hget, -⟩
    simp at hget
  next o hash i := by simp

/-- What a removal has left is the state it returns. -/
theorem Removes.indexed {removed removed' : List CTransaction} {left : CTxMemPool → Prop}
    {result : Option (CTxMemPool × List CTransaction)} (h : Removes H txs s removed R result left)
    (hrun : result = some (s', removed')) : Indexed H txs s' := by
  obtain ⟨s₁, l, hrun₁, h₁, -⟩ := h
  rw [hrun, Option.some.injEq, Prod.mk.injEq] at hrun₁
  exact hrun₁.1 ▸ h₁

theorem Reachable.indexed (hh : Hashes H txs rank) (h : Reachable H txs s) : Indexed H txs s := by
  induction h with
  | empty => exact Indexed.empty
  | addUnchecked _ htx hnodup hfree hnew ih => exact ih.addUnchecked htx hnodup hfree hnew
  | @remove s s' tx removed _ fRecursive _ htx hrun ih =>
    unfold CTxMemPool.remove at hrun
    cases fRecursive with
    | true => exact (remove_spec hh ih htx removed).indexed hrun
    | false =>
      rcases removeOne_cases ih hh htx removed with ⟨hmem, hone⟩ | ⟨-, hone⟩
      · obtain rfl := (Prod.mk.inj (Option.some.inj (congrArg some hone.symm |>.trans hrun))).1
        exact ih.erase hmem
      · obtain rfl := (Prod.mk.inj (Option.some.inj (congrArg some hone.symm |>.trans hrun))).1
        exact ih
  | removeConflicts _ _ hrun ih => exact (removeConflicts_spec _ hh _ _ ih).indexed hrun
  | clear => exact Indexed.empty

/-- After any operations the index has exactly the inputs of the pooled transactions ; a recursive
removal removes exactly the transaction, if pooled, and what descends from it through the pool, each
once, and `removeConflicts` leaves no other transaction that spends one of the inputs. -/
theorem mempool_index (hh : Hashes H txs rank) (h : Reachable H txs s) :
    (∀ (o : COutPoint) (hash : UInt256) (i : ℕ), s.mapNextTx[o]? = some ⟨hash, i⟩ ↔
      ∃ entry, s.mapTx[hash]? = some entry ∧ entry.tx.getHash H = hash ∧
        (entry.tx.vin[i]?).map CTxIn.prevout = some o) ∧
    (∀ tx ∈ txs, ∀ removed : List CTransaction, ∃ s' l,
      s.remove H tx removed true = some (s', l ++ removed) ∧ l.Nodup ∧
      (∀ t, t ∈ l ↔ t ∈ s.pool ∧
        Relation.ReflTransGen (fun a b => Child H a b ∧ b ∈ s.pool) tx t) ∧
      ∀ hash : UInt256, s'.mapTx[hash]? = s.mapTx[hash]?.filter fun entry => entry.tx ∉ l) ∧
    ∀ tx ∈ txs, ∀ removed : List CTransaction, ∃ s' l,
      s.removeConflicts H tx removed = some (s', l ++ removed) ∧
      ∀ t ∈ s'.pool, t ≠ tx → ∀ txin ∈ tx.vin, ∀ txin' ∈ t.vin, txin'.prevout ≠ txin.prevout := by
  have hi := h.indexed hh
  refine ⟨fun o hash i => ?_, fun tx htx removed => ?_, fun tx _ removed => ?_⟩
  · rw [hi.next]
    exact exists_congr fun entry => and_congr_right fun hget =>
      (and_iff_right (hi.hash hash entry hget)).symm
  · obtain ⟨s', l, hrun, -, hrem, hleft⟩ := remove_spec hh hi htx removed
    exact ⟨s', l, hrun, hrem.deleted.nodup, fun t => hrem.mem_iff hleft, hrem.entries⟩
  · obtain ⟨s', l, hrun, -, -, hleft⟩ := removeConflicts_spec tx hh tx.vin removed hi
    refine ⟨s', l, hrun, fun t ht hne txin hin txin' hin' hprev => ?_⟩
    have hmem : t ∈ conflicts tx tx.vin s' := ⟨ht, hne, txin, hin, txin', hin', hprev⟩
    rw [hleft] at hmem
    exact hmem

/-- A transaction, one that spends its output, and hashes that are the length. -/
def parentTx : CTransaction := ⟨1, [⟨⟨0, 0⟩, [], 0⟩], [⟨1, []⟩], 0⟩

def childTx : CTransaction := ⟨1, [⟨⟨60, 0⟩, List.replicate 20 0, 0⟩], [], 0⟩

def lengthHash (b : Bytes) : UInt256 := BitVec.ofNat 256 b.length

def twoPooled : CTxMemPool :=
  (addUnchecked (parentTx.getHash lengthHash) ⟨parentTx⟩ {}).addUnchecked
    (childTx.getHash lengthHash) ⟨childTx⟩

theorem hashes_lengthHash : Hashes lengthHash {parentTx, childTx} BitVec.toNat where
  injOn := by
    rintro a (rfl | rfl) b (rfl | rfl) heq
    · rfl
    · exact absurd heq (by decide)
    · exact absurd heq (by decide)
    · rfl
  lt := by
    rintro tx (rfl | rfl)
    · decide
    · decide

theorem reachable_twoPooled : Reachable lengthHash {parentTx, childTx} twoPooled :=
  .addUnchecked (.addUnchecked .empty (Or.inl rfl) (by decide) (by decide)
    (by decide)) (Or.inr rfl) (by decide) (by decide) (by decide)

theorem mempool_index_twoPooled : ∃ s' l,
    twoPooled.remove lengthHash parentTx [] true = some (s', l ++ []) ∧ l.Nodup ∧
    (∀ t, t ∈ l ↔ t ∈ twoPooled.pool ∧ Relation.ReflTransGen
      (fun a b => Child lengthHash a b ∧ b ∈ twoPooled.pool) parentTx t) ∧
    ∀ hash : UInt256, s'.mapTx[hash]? =
      twoPooled.mapTx[hash]?.filter fun entry => entry.tx ∉ l :=
  (mempool_index hashes_lengthHash reachable_twoPooled).2.1 parentTx (Or.inl rfl) []

end CTxMemPool

end Ticoin
