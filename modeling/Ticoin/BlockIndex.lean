import Ticoin.Core

/-!
# CBlockIndex and CChain : the block tree

A block index entry is created once, by `AddToBlockIndex`, with a pointer to the entry of
its predecessor. What it holds from then on without change is a node of the tree : the
header, the sequence number, the address of the object, and the node below. Height and
chain work are computed from the node below, as they are when the entry is made. The
status flags do change, and are kept beside the tree.

`path` is the list of ancestors of a node, itself included, by height. A `CChain` is a
vector of entries by height, and `SetTip` rewrites only the part that differs. Whatever
chain it starts from, the vector it leaves is the path of the new tip (`setTip_isPath`), so
that chains can be reasoned about by their tips.

Candidates are ordered by chain work, then by sequence number, then by address
(`workLess`), a linear order on nodes with distinct addresses (`workLess_iff`).
-/

namespace Ticoin

/-! ## Compact targets -/

/-- `CBigNum::SetCompact`. -/
def setCompact (nCompact : UInt32) : ℤ :=
  let nSize := (nCompact >>> 24).toNat
  let fNegative := nCompact &&& 0x00800000 != 0
  let nWord := (nCompact &&& 0x007fffff).toNat
  let n : ℤ := if nSize ≤ 3 then (nWord >>> (8 * (3 - nSize)) : ℕ) else (nWord <<< (8 * (nSize - 3)) : ℕ)
  if fNegative then -n else n

/-- `CBigNum::getuint256` : the low 256 bits of the magnitude. -/
def getuint256 (n : ℤ) : UInt256 := BitVec.ofNat 256 n.natAbs

/-! ## Nodes of the tree -/

/-- The fields of a block index entry that do not change, but for its predecessor. The hash
is missing in an entry that was not made by `AddToBlockIndex`. -/
structure BlockIndexEntry where
  address : ℕ
  phashBlock : Option UInt256
  nVersion : Int32
  hashMerkleRoot : UInt256
  nTime : UInt32
  nBits : UInt32
  nNonce : UInt32
  nTx : ℕ
  nSequenceId : UInt32
  deriving DecidableEq, Repr

/-- An entry with the entries it descends from. -/
inductive CBlockIndex
  | root (e : BlockIndexEntry)
  | child (pprev : CBlockIndex) (e : BlockIndexEntry)
  deriving DecidableEq, Repr

namespace CBlockIndex

def entry : CBlockIndex → BlockIndexEntry
  | root e => e
  | child _ e => e

def pprev : CBlockIndex → Option CBlockIndex
  | root _ => none
  | child p _ => some p

def nHeight : CBlockIndex → ℕ
  | root _ => 0
  | child p _ => p.nHeight + 1

def getBlockTime (pindex : CBlockIndex) : ℤ := pindex.entry.nTime.toNat

/-- `GetBlockWork` : the expected number of hashes for the target. -/
def getBlockWork (pindex : CBlockIndex) : ℤ :=
  let bnTarget := setCompact pindex.entry.nBits
  if bnTarget ≤ 0 then 0 else 2 ^ 256 / (bnTarget + 1)

def nChainWork : CBlockIndex → UInt256
  | root e => getuint256 (root e).getBlockWork
  | child p e => p.nChainWork + getuint256 (child p e).getBlockWork

/-- The ancestors of a node, itself included, by height. -/
def path : CBlockIndex → List CBlockIndex
  | root e => [root e]
  | child p e => p.path ++ [child p e]

@[simp] theorem length_path : ∀ b : CBlockIndex, b.path.length = b.nHeight + 1
  | root _ => rfl
  | child p e => by rw [path, List.length_append, length_path p]; rfl

theorem mem_path_self (b : CBlockIndex) : b ∈ b.path := by
  cases b <;> simp [path]

theorem mem_path_child {a p : CBlockIndex} {e : BlockIndexEntry} :
    a ∈ (child p e).path ↔ a ∈ p.path ∨ a = child p e := by
  rw [path, List.mem_append, List.mem_singleton]

theorem mem_path_trans {a b : CBlockIndex} : ∀ {c : CBlockIndex}, a ∈ b.path → b ∈ c.path → a ∈ c.path
  | root e, ha, hb => by
    rw [path, List.mem_singleton] at hb
    exact hb ▸ ha
  | child p e, ha, hb => by
    rcases mem_path_child.mp hb with hb | rfl
    · exact mem_path_child.mpr (.inl (mem_path_trans ha hb))
    · exact ha

/-- The path of an ancestor is the start of the path. -/
theorem path_prefix_of_mem {a : CBlockIndex} : ∀ {b : CBlockIndex}, a ∈ b.path → a.path <+: b.path
  | root e, h => by
    rw [path, List.mem_singleton] at h
    exact h ▸ List.prefix_rfl
  | child p e, h => by
    rcases mem_path_child.mp h with h | rfl
    · exact (path_prefix_of_mem h).trans (List.prefix_append _ _)
    · exact List.prefix_rfl

theorem nHeight_le_of_mem {a b : CBlockIndex} (h : a ∈ b.path) : a.nHeight ≤ b.nHeight := by
  have hlen := (path_prefix_of_mem h).length_le
  rw [length_path, length_path] at hlen
  omega

theorem getElem?_path_self (b : CBlockIndex) : b.path[b.nHeight]? = some b := by
  cases b with
  | root e => rfl
  | child p e => rw [path, nHeight, List.getElem?_append_right (by simp)]; simp

/-- The entry of a path at a height is the ancestor of that height. -/
theorem getElem?_path {a : CBlockIndex} : ∀ {b : CBlockIndex} {h : ℕ},
    b.path[h]? = some a ↔ a ∈ b.path ∧ a.nHeight = h
  | root e, h => by
    cases h with
    | zero =>
      simp only [path, List.getElem?_cons_zero, Option.some.injEq, List.mem_singleton]
      exact ⟨fun hab => ⟨hab.symm, hab ▸ rfl⟩, fun hab => hab.1.symm⟩
    | succ h =>
      simp only [path, List.getElem?_cons_succ, List.getElem?_nil, List.mem_singleton,
        reduceCtorEq, false_iff, not_and]
      rintro rfl
      exact Nat.zero_ne_add_one h
  | child p e, h => by
    rw [mem_path_child, path]
    rcases Nat.lt_trichotomy h (p.nHeight + 1) with hlt | rfl | hgt
    · rw [List.getElem?_append_left (by rwa [length_path]), getElem?_path]
      refine ⟨fun hab => ⟨.inl hab.1, hab.2⟩, fun hab => ⟨hab.1.resolve_right ?_, hab.2⟩⟩
      rintro rfl
      exact absurd hab.2 hlt.ne'
    · rw [List.getElem?_append_right (by rw [length_path]), length_path, Nat.sub_self,
        List.getElem?_cons_zero, Option.some.injEq]
      refine ⟨fun hab => ⟨.inr hab.symm, hab ▸ rfl⟩, fun hab => (hab.1.resolve_left ?_).symm⟩
      intro hmem
      have := nHeight_le_of_mem hmem
      omega
    · rw [List.getElem?_eq_none (by simp; omega)]
      simp only [reduceCtorEq, false_iff, not_and]
      rintro (hmem | rfl) hh
      · have := nHeight_le_of_mem hmem
        omega
      · exact absurd hh hgt.ne

/-- Two ancestors of a node of the same height are the same. -/
theorem eq_of_mem_path {a a' b : CBlockIndex} (ha : a ∈ b.path) (ha' : a' ∈ b.path)
    (h : a.nHeight = a'.nHeight) : a = a' :=
  Option.some.inj ((getElem?_path.mpr ⟨ha, h⟩).symm.trans (getElem?_path.mpr ⟨ha', rfl⟩))

/-- Of two ancestors of a node the lower is an ancestor of the higher. -/
theorem mem_path_of_le {a a' b : CBlockIndex} (ha : a ∈ b.path) (ha' : a' ∈ b.path)
    (h : a.nHeight ≤ a'.nHeight) : a ∈ a'.path := by
  obtain ⟨l, hl⟩ := path_prefix_of_mem ha'
  have hget := getElem?_path.mpr ⟨ha, rfl⟩
  rw [← hl, List.getElem?_append_left (by rw [length_path]; omega)] at hget
  exact List.mem_of_getElem? hget

end CBlockIndex

/-! ## The order of candidates -/

/-- `CBlockIndexWorkComparator` : by most work, then by earliest sequence number, then by
address. -/
def workLess (pa pb : CBlockIndex) : Bool :=
  if pa.nChainWork > pb.nChainWork then false
  else if pa.nChainWork < pb.nChainWork then true
  else if pa.entry.nSequenceId < pb.entry.nSequenceId then false
  else if pa.entry.nSequenceId > pb.entry.nSequenceId then true
  else if pa.entry.address < pb.entry.address then false
  else if pa.entry.address > pb.entry.address then true
  else false

/-- Where a node stands among candidates : more work, less sequence number, less address. -/
def rank (b : CBlockIndex) : ℕ ×ₗ ℕᵒᵈ ×ₗ ℕᵒᵈ :=
  toLex (b.nChainWork.toNat, toLex (OrderDual.toDual b.entry.nSequenceId.toNat,
    OrderDual.toDual b.entry.address))

theorem workLess_iff (a b : CBlockIndex) : workLess a b = true ↔ rank a < rank b := by
  simp only [workLess, rank, gt_iff_lt, BitVec.lt_def, UInt32.lt_iff_toNat_lt,
    Prod.Lex.toLex_lt_toLex, OrderDual.toDual_lt_toDual, OrderDual.toDual_inj]
  split_ifs <;> simp <;> omega

/-! ## Chains -/

/-- Entries by height; `NULL` entries are those `resize` makes. -/
structure CChain where
  vChain : List (Option CBlockIndex)
  deriving DecidableEq, Repr

namespace CChain

def tip (c : CChain) : Option CBlockIndex := c.vChain.getLast?.join

/-- `operator[]`. -/
def at? (c : CChain) (nHeight : ℕ) : Option CBlockIndex := c.vChain[nHeight]?.join

def contains (c : CChain) (pindex : CBlockIndex) : Bool := c.at? pindex.nHeight == some pindex

/-- `Height()`, `-1` for a chain without entries. -/
def height (c : CChain) : ℤ := c.vChain.length - 1

/-- The loop of `SetTip` : the entries that differ are written, from the tip down. With
them the entry the loop stops at, the fork. -/
def writeDown : CBlockIndex → List (Option CBlockIndex) →
    List (Option CBlockIndex) × Option CBlockIndex
  | .root e, v =>
    if v[0]? = some (some (.root e)) then (v, some (.root e))
    else (v.set 0 (some (.root e)), none)
  | .child p e, v =>
    if v[p.nHeight + 1]? = some (some (.child p e)) then (v, some (.child p e))
    else writeDown p (v.set (p.nHeight + 1) (some (.child p e)))

/-- `vector::resize`. -/
def resize (v : List (Option CBlockIndex)) (n : ℕ) : List (Option CBlockIndex) :=
  v.take n ++ List.replicate (n - v.length) none

/-- `SetTip`, with the fork it returns. -/
def setTip (c : CChain) : Option CBlockIndex → CChain × Option CBlockIndex
  | none => (⟨[]⟩, none)
  | some pindex =>
    let r := writeDown pindex (resize c.vChain (pindex.nHeight + 1))
    (⟨r.1⟩, r.2)

/-- The vector of the chain with a tip. -/
def pathOf : Option CBlockIndex → List (Option CBlockIndex)
  | none => []
  | some b => b.path.map some

/-- The chain holds the ancestors of its tip, by height. -/
def IsPath (c : CChain) (t : Option CBlockIndex) : Prop := c.vChain = pathOf t

theorem take_pathOf {t : Option CBlockIndex} {b : CBlockIndex} {i : ℕ}
    (h : (pathOf t)[i]? = some (some b)) : (pathOf t).take (i + 1) = b.path.map some := by
  cases t with
  | none => simp [pathOf] at h
  | some t =>
    rw [pathOf, List.getElem?_map, Option.map_eq_some_iff] at h
    obtain ⟨b', hget, hb⟩ := h
    cases hb
    obtain ⟨hmem, rfl⟩ := CBlockIndex.getElem?_path.mp hget
    rw [pathOf, ← List.map_take, ← CBlockIndex.length_path,
      ← List.prefix_iff_eq_take.mp (CBlockIndex.path_prefix_of_mem hmem)]

/-- The loop leaves the path of the tip, and what is above it as it was. -/
theorem writeDown_fst : ∀ (p : CBlockIndex) (v : List (Option CBlockIndex)),
    p.nHeight < v.length →
    (∀ i b, i ≤ p.nHeight → v[i]? = some (some b) → v.take (i + 1) = b.path.map some) →
    (writeDown p v).1 = p.path.map some ++ v.drop (p.nHeight + 1)
  | .root e, v, hlen, hv => by
    rw [writeDown]
    split
    · rename_i h
      rw [← hv 0 _ le_rfl h]
      exact (List.take_append_drop _ _).symm
    · cases v with
      | nil => simp at hlen
      | cons x v => rfl
  | .child p e, v, hlen, hv => by
    rw [writeDown]
    split
    · rename_i h
      rw [← hv _ _ le_rfl h]
      exact (List.take_append_drop _ _).symm
    · have hlen' : p.nHeight + 1 < v.length := hlen
      rw [writeDown_fst p _ (by rw [List.length_set]; omega), CBlockIndex.path, List.map_append,
        List.append_assoc]
      · congr 1
        rw [List.drop_set, if_neg (by omega), Nat.sub_self, List.drop_eq_getElem_cons hlen',
          List.set_cons_zero]
        rfl
      · intro i b hi hget
        rw [List.getElem?_set_ne (by omega)] at hget
        rw [List.take_set_of_le (by omega)]
        exact hv i b (Nat.le_succ_of_le hi) hget

/-- `SetTip` leaves the path of the new tip, from whatever chain. -/
theorem setTip_isPath {c : CChain} {t : Option CBlockIndex} (hc : c.IsPath t) :
    ∀ t' : Option CBlockIndex, (c.setTip t').1.IsPath t'
  | none => rfl
  | some p => by
    have hlen : (resize c.vChain (p.nHeight + 1)).length = p.nHeight + 1 := by
      simp [resize]
      omega
    have hdrop : (resize c.vChain (p.nHeight + 1)).drop (p.nHeight + 1) = [] :=
      List.drop_eq_nil_of_le hlen.le
    refine (writeDown_fst p _ (by omega) fun i b hi hget => ?_).trans ?_
    · rw [IsPath] at hc
      rw [resize] at hget ⊢
      rcases Nat.lt_or_ge i (c.vChain.take (p.nHeight + 1)).length with hi' | hi'
      · have hlt : i < c.vChain.length := by
          rw [List.length_take] at hi'
          omega
        rw [List.getElem?_append_left hi', List.getElem?_take_of_lt (by omega), hc] at hget
        rw [List.take_append_of_le_length (by omega), List.take_take, Nat.min_eq_left (by omega),
          hc]
        exact take_pathOf hget
      · rw [List.getElem?_append_right hi', List.getElem?_replicate] at hget
        split at hget <;> cases hget
    · rw [hdrop, List.append_nil]
      rfl

section IsPath

variable {c : CChain} {t : Option CBlockIndex}

theorem IsPath.tip_eq (h : c.IsPath t) : c.tip = t := by
  rw [tip, h]
  cases t with
  | none => rfl
  | some b => cases b <;> simp [pathOf, CBlockIndex.path]

theorem IsPath.at?_eq_some (h : c.IsPath t) {nHeight : ℕ} {b : CBlockIndex} :
    c.at? nHeight = some b ↔ ∃ t', t = some t' ∧ b ∈ t'.path ∧ b.nHeight = nHeight := by
  rw [at?, h]
  cases t with
  | none => simp [pathOf]
  | some t =>
    have hjoin : (t.path[nHeight]?.map some).join = t.path[nHeight]? := by
      cases t.path[nHeight]? <;> rfl
    simp [pathOf, hjoin, CBlockIndex.getElem?_path]

theorem IsPath.contains_iff (h : c.IsPath t) {b : CBlockIndex} :
    c.contains b = true ↔ ∃ t', t = some t' ∧ b ∈ t'.path := by
  rw [contains, beq_iff_eq, h.at?_eq_some]
  simp

theorem IsPath.height_eq {b : CBlockIndex} (h : c.IsPath (some b)) : c.height = b.nHeight := by
  rw [height, h]
  simp [pathOf]

theorem IsPath.height_none (h : c.IsPath none) : c.height = -1 := by
  rw [height, h]
  rfl

end IsPath

end CChain

end Ticoin
