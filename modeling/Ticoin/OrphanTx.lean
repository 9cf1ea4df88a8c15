import Ticoin.BlockDownload
import Ticoin.CanonicalFormat
import Ticoin.Lib.Table

/-!
# main.cpp : the orphan transactions

Transactions whose parents are missing wait in `mapOrphanTransactions`, with the peer they came
from, and `mapOrphanTransactionsByPrev` finds them by the hash of a parent. Their number is
limited by evicting at random.

The index is exact in every state that the operations reach (`Pool.Indexed`), what is erased for a
peer are its orphans, and as many are left as the limit allows (`orphanPool_of_calls`).
-/

namespace Ticoin

open Codec Table

/-! ## The pool -/

structure COrphanTx where
  tx : CTransaction
  fromPeer : NodeId

structure OrphanPool where
  mapOrphanTransactions : Std.ExtTreeMap UInt256 COrphanTx := ∅
  mapOrphanTransactionsByPrev : Std.ExtTreeMap UInt256 (Std.ExtTreeSet UInt256) := ∅

/-- The hashes of the transactions whose outputs a transaction spends, one for each input. -/
def CTransaction.parents (tx : CTransaction) : List UInt256 := tx.vin.map fun txin => txin.prevout.hash

namespace OrphanPool

variable (H : Bytes → UInt256)

/-- `AddOrphanTx`. -/
def addOrphanTx (tx : CTransaction) (peer : NodeId) (s : OrphanPool) : Bool × OrphanPool :=
  let hash := tx.getHash H
  if s.mapOrphanTransactions.contains hash then (false, s)
  -- ignore big transactions, to avoid a send-big-orphans memory exhaustion attack
  else if tx.getSerializeSize > 5000 then (false, s)
  else (true,
    { mapOrphanTransactions := s.mapOrphanTransactions.insert hash ⟨tx, peer⟩
      mapOrphanTransactionsByPrev :=
        tx.parents.foldl (link hash) s.mapOrphanTransactionsByPrev })

/-- `EraseOrphanTx`. -/
def eraseOrphanTx (hash : UInt256) (s : OrphanPool) : OrphanPool :=
  match s.mapOrphanTransactions[hash]? with
  | none => s
  | some orphan =>
    { mapOrphanTransactions := s.mapOrphanTransactions.erase hash
      mapOrphanTransactionsByPrev :=
        orphan.tx.parents.foldl (unlink hash) s.mapOrphanTransactionsByPrev }

/-- One step of the loop of `EraseOrphansFor`, whose iterator was moved on before. -/
def eraseIfFrom (peer : NodeId) (s : OrphanPool) (orphan : COrphanTx) : OrphanPool :=
  if orphan.fromPeer = peer then s.eraseOrphanTx (orphan.tx.getHash H) else s

/-- `EraseOrphansFor`. -/
def eraseOrphansFor (peer : NodeId) (s : OrphanPool) : OrphanPool :=
  s.mapOrphanTransactions.toList.foldl (fun s p => eraseIfFrom H peer s p.2) s

/-- `lower_bound`, or the first hash if there is none. -/
def randomOrphan (randomhash : UInt256) (s : OrphanPool) : Option UInt256 :=
  (s.mapOrphanTransactions.keys.find? fun hash => compare randomhash hash != .gt).or
    s.mapOrphanTransactions.keys.head?

/-- The loop of `LimitOrphanTxSize`, with the random hashes, for as many rounds as there are
orphans. -/
def limitLoop (nMaxOrphans : ℕ) (rnd : ℕ → UInt256) : ℕ → OrphanPool → ℕ × OrphanPool
  | 0, s => (0, s)
  | fuel + 1, s =>
    if s.mapOrphanTransactions.size > nMaxOrphans then
      -- evict a random orphan
      match s.randomOrphan (rnd fuel) with
      | none => (0, s)
      | some hash =>
        let (nEvicted, s) := limitLoop nMaxOrphans rnd fuel (s.eraseOrphanTx hash)
        (nEvicted + 1, s)
    else (0, s)

/-- `LimitOrphanTxSize`, with the number of those evicted. -/
def limitOrphanTxSize (nMaxOrphans : ℕ) (rnd : ℕ → UInt256) (s : OrphanPool) : ℕ × OrphanPool :=
  limitLoop nMaxOrphans rnd s.mapOrphanTransactions.size s

/-! ## The index -/

/-- The index has an orphan under its parents, and nothing else. -/
structure Indexed (s : OrphanPool) : Prop where
  /-- each orphan is under its hash -/
  hash : ∀ (h : UInt256) (orphan : COrphanTx),
    s.mapOrphanTransactions[h]? = some orphan → orphan.tx.getHash H = h
  mem : ∀ (p h : UInt256), h ∈ members s.mapOrphanTransactionsByPrev p ↔
    ∃ orphan, s.mapOrphanTransactions[h]? = some orphan ∧ p ∈ orphan.tx.parents
  nonempty : NoEmpty s.mapOrphanTransactionsByPrev

variable {H} {s : OrphanPool}

theorem Indexed.empty : Indexed H {} where
  hash h orphan hget := by simp at hget
  mem p h := by simp [members]
  nonempty p t hget := by simp at hget

theorem Indexed.addOrphanTx (h : Indexed H s) (tx : CTransaction) (peer : NodeId) :
    Indexed H (s.addOrphanTx H tx peer).2 := by
  unfold OrphanPool.addOrphanTx
  dsimp only
  split
  · exact h
  split
  · exact h
  rename_i hnew _
  generalize hhash : tx.getHash H = hash at hnew ⊢
  have hnone : s.mapOrphanTransactions[hash]? = none := by
    rw [Std.ExtTreeMap.contains_eq_isSome_getElem?] at hnew
    exact Option.not_isSome_iff_eq_none.mp hnew
  constructor
  · intro i orphan hget
    rw [congrFun getElem?_insert_eq i] at hget
    by_cases hi : i = hash
    · rw [hi, Function.update_self, Option.some.injEq] at hget
      rw [← hget, hi, hhash]
    · rw [Function.update_of_ne hi] at hget
      exact h.hash i orphan hget
  · intro p i
    dsimp only
    rw [mem_linkAll, h.mem, congrFun getElem?_insert_eq i]
    by_cases hi : i = hash
    · simp [hi, hnone]
    · simp [hi]
  · exact List.foldlRecOn (motive := NoEmpty) _ _ h.nonempty fun m hm p _ => hm.link

theorem Indexed.eraseOrphanTx (h : Indexed H s) (hash : UInt256) : Indexed H (s.eraseOrphanTx hash) := by
  unfold OrphanPool.eraseOrphanTx
  split
  · exact h
  rename_i orphan hget
  constructor
  · intro i o hi
    rw [congrFun getElem?_erase_eq i] at hi
    by_cases hne : i = hash
    · rw [hne, Function.update_self] at hi
      cases hi
    · rw [Function.update_of_ne hne] at hi
      exact h.hash i o hi
  · intro p i
    dsimp only
    rw [mem_unlinkAll, h.mem, congrFun getElem?_erase_eq i]
    by_cases hi : i = hash
    · simp [hi, hget]
    · simp [hi]
  · exact List.foldlRecOn (motive := NoEmpty) _ _ h.nonempty fun m hm p _ => hm.unlink

/-! ## Erasing -/

theorem getElem?_eraseOrphanTx (hash i : UInt256) (s : OrphanPool) :
    (s.eraseOrphanTx hash).mapOrphanTransactions[i]? =
      if i = hash then none else s.mapOrphanTransactions[i]? := by
  unfold OrphanPool.eraseOrphanTx
  split
  · rename_i hget
    by_cases hi : i = hash
    · rw [if_pos hi, hi, hget]
    · rw [if_neg hi]
  · dsimp only
    rw [congrFun getElem?_erase_eq i]
    by_cases hi : i = hash
    · rw [if_pos hi, hi, Function.update_self]
    · rw [if_neg hi, Function.update_of_ne hi]

/-- A loop over some orphans erases those of the peer. -/
theorem getElem?_eraseLoop (H : Bytes → UInt256) (peer : NodeId) (i : UInt256) :
    ∀ (l : List (UInt256 × COrphanTx)) (s : OrphanPool),
    (l.foldl (fun s p => eraseIfFrom H peer s p.2) s).mapOrphanTransactions[i]? =
      if ∃ p ∈ l, p.2.fromPeer = peer ∧ p.2.tx.getHash H = i then none
      else s.mapOrphanTransactions[i]?
  | [], s => by simp
  | p :: l, s => by
    rw [List.foldl_cons, getElem?_eraseLoop H peer i l, eraseIfFrom]
    by_cases hpeer : p.2.fromPeer = peer
    · rw [if_pos hpeer, getElem?_eraseOrphanTx]
      by_cases hi : i = p.2.tx.getHash H
      · simp [hpeer, hi]
      · have hi' : ¬ p.2.tx.getHash H = i := fun h => hi h.symm
        rw [if_neg hi]
        simp only [List.exists_mem_cons_iff, hi', and_false, false_or]
    · rw [if_neg hpeer]
      simp only [List.exists_mem_cons_iff, hpeer, false_and, false_or]

theorem Indexed.eraseOrphansFor (h : Indexed H s) (peer : NodeId) :
    Indexed H (s.eraseOrphansFor H peer) := by
  refine List.foldlRecOn (motive := Indexed H) _ _ h fun s hs p _ => ?_
  unfold eraseIfFrom
  split
  · exact hs.eraseOrphanTx _
  · exact hs

/-- The orphans of a peer are erased, and all others are left. -/
theorem Indexed.getElem?_eraseOrphansFor (h : Indexed H s) (peer : NodeId) (i : UInt256) :
    (s.eraseOrphansFor H peer).mapOrphanTransactions[i]? =
      s.mapOrphanTransactions[i]?.filter fun orphan => orphan.fromPeer ≠ peer := by
  rw [OrphanPool.eraseOrphansFor, getElem?_eraseLoop]
  cases hget : s.mapOrphanTransactions[i]? with
  | none => simp
  | some orphan =>
    have hiff : (∃ p ∈ s.mapOrphanTransactions.toList, p.2.fromPeer = peer ∧ p.2.tx.getHash H = i) ↔
        orphan.fromPeer = peer := by
      constructor
      · rintro ⟨⟨j, o⟩, hmem, hpeer, hhash⟩
        have hj := Std.ExtTreeMap.mem_toList_iff_getElem?_eq_some.mp hmem
        have hji : j = i := (h.hash j o hj).symm.trans hhash
        rw [hji, hget, Option.some.injEq] at hj
        rw [hj, hpeer]
      · intro hpeer
        exact ⟨(i, orphan), Std.ExtTreeMap.mem_toList_iff_getElem?_eq_some.mpr hget, hpeer,
          h.hash i orphan hget⟩
    by_cases hpeer : orphan.fromPeer = peer
    · rw [if_pos (hiff.mpr hpeer), Option.filter_some, if_neg (by simp [hpeer])]
    · rw [if_neg fun hex => hpeer (hiff.mp hex), Option.filter_some, if_pos (by simp [hpeer])]

/-! ## Evicting -/

/-- An orphan is found as long as there is one. -/
theorem exists_randomOrphan (randomhash : UInt256) (h : 0 < s.mapOrphanTransactions.size) :
    ∃ hash, s.randomOrphan randomhash = some hash ∧ hash ∈ s.mapOrphanTransactions := by
  unfold randomOrphan
  cases hfind : s.mapOrphanTransactions.keys.find? fun hash => compare randomhash hash != .gt with
  | some hash => exact ⟨hash, rfl, Std.ExtTreeMap.mem_keys.mp (List.mem_of_find?_eq_some hfind)⟩
  | none =>
    rw [Option.none_or]
    cases hkeys : s.mapOrphanTransactions.keys with
    | nil =>
      rw [← Std.ExtTreeMap.length_keys, hkeys] at h
      cases h
    | cons hash l =>
      refine ⟨hash, rfl, Std.ExtTreeMap.mem_keys.mp ?_⟩
      rw [hkeys]
      exact List.mem_cons_self

theorem size_eraseOrphanTx {hash : UInt256} (h : hash ∈ s.mapOrphanTransactions) :
    (s.eraseOrphanTx hash).mapOrphanTransactions.size + 1 = s.mapOrphanTransactions.size := by
  have hpos : 0 < s.mapOrphanTransactions.size := by
    refine Nat.pos_of_ne_zero fun hzero => ?_
    rw [Std.ExtTreeMap.eq_empty_iff_size_eq_zero.mpr hzero] at h
    exact Std.ExtTreeMap.not_mem_empty h
  unfold OrphanPool.eraseOrphanTx
  split
  · rename_i hget
    rw [Std.ExtTreeMap.mem_iff_isSome_getElem?, hget] at h
    cases h
  · dsimp only
    rw [Std.ExtTreeMap.size_erase, if_pos (Std.ExtTreeMap.contains_iff_mem.mpr h)]
    omega

/-- The loop keeps the index and stops within the limit. -/
theorem Indexed.limitLoop (nMaxOrphans : ℕ) (rnd : ℕ → UInt256) : ∀ (fuel : ℕ) {s : OrphanPool},
    Indexed H s → s.mapOrphanTransactions.size ≤ nMaxOrphans + fuel →
    Indexed H (limitLoop nMaxOrphans rnd fuel s).2 ∧
      (limitLoop nMaxOrphans rnd fuel s).2.mapOrphanTransactions.size ≤ nMaxOrphans
  | 0, s, h, hsize => ⟨h, hsize⟩
  | fuel + 1, s, h, hsize => by
    rw [OrphanPool.limitLoop]
    split
    · obtain ⟨hash, hrandom, hmem⟩ := exists_randomOrphan (s := s) (rnd fuel) (by omega)
      have hless := size_eraseOrphanTx hmem
      rw [hrandom]
      exact Indexed.limitLoop nMaxOrphans rnd fuel (h.eraseOrphanTx hash) (by omega)
    · rename_i hle
      exact ⟨h, not_lt.mp hle⟩

theorem Indexed.limitOrphanTxSize (h : Indexed H s) (nMaxOrphans : ℕ) (rnd : ℕ → UInt256) :
    Indexed H (s.limitOrphanTxSize nMaxOrphans rnd).2 ∧
      (s.limitOrphanTxSize nMaxOrphans rnd).2.mapOrphanTransactions.size ≤ nMaxOrphans :=
  h.limitLoop nMaxOrphans rnd _ (Nat.le_add_left _ _)

/-- Within the limit nothing is evicted. -/
theorem limitOrphanTxSize_of_le {nMaxOrphans : ℕ} (rnd : ℕ → UInt256)
    (h : s.mapOrphanTransactions.size ≤ nMaxOrphans) :
    s.limitOrphanTxSize nMaxOrphans rnd = (0, s) := by
  unfold limitOrphanTxSize
  cases s.mapOrphanTransactions.size with
  | zero => rfl
  | succ n => rw [limitLoop, if_neg (not_lt.mpr h)]

/-- What erasing some orphans leaves. -/
theorem getElem?_eraseOrphanTxs (i : UInt256) : ∀ (l : List UInt256) (s : OrphanPool),
    (l.foldl (fun s hash => s.eraseOrphanTx hash) s).mapOrphanTransactions[i]? =
      if i ∈ l then none else s.mapOrphanTransactions[i]?
  | [], s => by simp
  | hash :: l, s => by
    rw [List.foldl_cons, getElem?_eraseOrphanTxs i l, getElem?_eraseOrphanTx]
    by_cases hi : i = hash <;> by_cases hl : i ∈ l <;> simp [hi, hl]

/-- An orphan that is not too big is in the pool. -/
theorem getElem?_addOrphanTx (tx : CTransaction) (peer : NodeId) (i : UInt256)
    (hsize : ¬ tx.getSerializeSize > 5000) :
    (s.addOrphanTx H tx peer).2.mapOrphanTransactions[i]? =
      if i = tx.getHash H then s.mapOrphanTransactions[i]?.or (some ⟨tx, peer⟩)
      else s.mapOrphanTransactions[i]? := by
  unfold addOrphanTx
  dsimp only
  rw [if_neg hsize]
  split
  · rename_i hmem
    rw [Std.ExtTreeMap.contains_eq_isSome_getElem?] at hmem
    obtain ⟨orphan, hget⟩ := Option.isSome_iff_exists.mp hmem
    split
    · rename_i hi
      rw [hi, hget]
      rfl
    · rfl
  rename_i hmem
  have hnone : s.mapOrphanTransactions[tx.getHash H]? = none := by
    rw [Std.ExtTreeMap.contains_eq_isSome_getElem?] at hmem
    exact Option.not_isSome_iff_eq_none.mp hmem
  dsimp only
  rw [congrFun getElem?_insert_eq i, Function.update_apply]
  by_cases hi : i = tx.getHash H
  · rw [if_pos hi, if_pos hi, hi, hnone]
    rfl
  · rw [if_neg hi, if_neg hi]

/-! ## Runs -/

/-- An operation on the pool. -/
inductive Call where
  | add (tx : CTransaction) (peer : NodeId)
  | erase (hash : UInt256)
  | eraseFor (peer : NodeId)
  | limit (nMaxOrphans : ℕ) (rnd : ℕ → UInt256)

def call (H : Bytes → UInt256) (s : OrphanPool) : Call → OrphanPool
  | .add tx peer => (s.addOrphanTx H tx peer).2
  | .erase hash => s.eraseOrphanTx hash
  | .eraseFor peer => s.eraseOrphansFor H peer
  | .limit nMaxOrphans rnd => (s.limitOrphanTxSize nMaxOrphans rnd).2

theorem Indexed.call (h : Indexed H s) : ∀ c : Call, Indexed H (s.call H c)
  | .add tx peer => h.addOrphanTx tx peer
  | .erase hash => h.eraseOrphanTx hash
  | .eraseFor peer => h.eraseOrphansFor peer
  | .limit nMaxOrphans rnd => (h.limitOrphanTxSize nMaxOrphans rnd).1

/-- After any operations the index has exactly the orphans under the hashes of their parents, and
no empty set ; to erase for a peer erases its orphans and leaves all others, and to limit leaves as
many as the limit. -/
theorem orphanPool_of_calls (H : Bytes → UInt256) (calls : List Call) :
    (∀ p h : UInt256, h ∈ members (calls.foldl (call H) {}).mapOrphanTransactionsByPrev p ↔
      ∃ orphan, (calls.foldl (call H) {}).mapOrphanTransactions[h]? = some orphan ∧
        orphan.tx.getHash H = h ∧ ∃ txin ∈ orphan.tx.vin, txin.prevout.hash = p) ∧
    (∀ (p : UInt256) (t : Std.ExtTreeSet UInt256),
      (calls.foldl (call H) {}).mapOrphanTransactionsByPrev[p]? = some t → t ≠ ∅) ∧
    (∀ (n : NodeId) (h : UInt256),
      ((calls.foldl (call H) {}).eraseOrphansFor H n).mapOrphanTransactions[h]? =
        (calls.foldl (call H) {}).mapOrphanTransactions[h]?.filter
          fun orphan => orphan.fromPeer ≠ n) ∧
    ∀ (m : ℕ) (rnd : ℕ → UInt256),
      ((calls.foldl (call H) {}).limitOrphanTxSize m rnd).2.mapOrphanTransactions.size ≤ m := by
  have h : Indexed H (calls.foldl (call H) {}) :=
    List.foldlRecOn (motive := Indexed H) _ _ Indexed.empty fun s hs c _ => hs.call c
  refine ⟨fun p i => ?_, h.nonempty, h.getElem?_eraseOrphansFor,
    fun m rnd => (h.limitOrphanTxSize m rnd).2⟩
  rw [h.mem]
  refine exists_congr fun orphan => and_congr_right fun hget => ?_
  rw [and_iff_right (h.hash i orphan hget), CTransaction.parents, List.mem_map]

end OrphanPool

end Ticoin
