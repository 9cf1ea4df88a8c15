import Ticoin.PartialMerkleTree

/-!
# What a partial tree proves

A partial tree comes from a peer, with its flags, its hashes and the number of transactions
it claims. The hashes that `ExtractMatches` returns are opened by its root, in a tree of the
claimed shape (`traverseAndExtract_opens`), and all that the root opens to can be extracted
(`extractMatches_of_opens`).

So if the claimed tree is as high as that of the block, what is extracted with the root of
the block are its transactions. A tree that is claimed to be lower ends at inner nodes of
the block's tree, and these are extracted as if they were transactions : the number of
transactions is not authenticated by the root (`extractMatches_authentic`,
`extractMatches_innerNode`).
-/

namespace Ticoin

open Codec

variable {H : Bytes → UInt256} {t : CPartialMerkleTree}

/-! ## What is extracted is opened -/

/-- The cases of a traversal above the leaves : it fails, uses a stored hash, or combines
what it returns below. -/
theorem traverseAndExtract_cases (height pos : ℕ) (x : Extraction) :
    (traverseAndExtract H t (height + 1) pos x).2.fBad = true ∧ t.vBits[x.nBitsUsed]? = none ∨
    (traverseAndExtract H t (height + 1) pos x =
      useStoredHash t false { x with nBitsUsed := x.nBitsUsed + 1 }) ∨
    (pos * 2 + 1 < Merkle.width t.nTransactions.toNat height ∧
      ∃ l r, traverseAndExtract H t height (pos * 2) { x with nBitsUsed := x.nBitsUsed + 1 } = l ∧
        traverseAndExtract H t height (pos * 2 + 1) l.2 = r ∧
        traverseAndExtract H t (height + 1) pos x = (hash2 H l.1 r.1, r.2)) ∨
    (¬pos * 2 + 1 < Merkle.width t.nTransactions.toNat height ∧
      ∃ l, traverseAndExtract H t height (pos * 2) { x with nBitsUsed := x.nBitsUsed + 1 } = l ∧
        traverseAndExtract H t (height + 1) pos x = (hash2 H l.1 l.1, l.2)) := by
  rw [traverseAndExtract, calcTreeWidth_eq]
  cases hbit : t.vBits[x.nBitsUsed]? with
  | none => exact .inl ⟨rfl, rfl⟩
  | some fParentOfMatch =>
    cases fParentOfMatch with
    | false => exact .inr (.inl rfl)
    | true =>
      by_cases hw : pos * 2 + 1 < Merkle.width t.nTransactions.toNat height
      · exact .inr (.inr (.inl ⟨hw, _, _, rfl, rfl, by simp [hw]⟩))
      · exact .inr (.inr (.inr ⟨hw, _, rfl, by simp [hw]⟩))

theorem useStoredHash_fBad {matched : Bool} {x : Extraction} (h : x.fBad = true) :
    (useStoredHash t matched x).2.fBad = true := by
  rw [useStoredHash]
  split
  · rfl
  · exact h

/-- A traversal that failed stays so. -/
theorem traverseAndExtract_fBad : ∀ (height pos : ℕ) {x : Extraction}, x.fBad = true →
    (traverseAndExtract H t height pos x).2.fBad = true
  | 0, pos, x, h => by
    rw [traverseAndExtract]
    split
    · rfl
    · exact useStoredHash_fBad h
  | height + 1, pos, x, h => by
    obtain ⟨hbad, -⟩ | heq | ⟨-, l, r, rfl, rfl, heq⟩ | ⟨-, l, rfl, heq⟩ :=
      traverseAndExtract_cases height pos x (H := H) (t := t)
    · exact hbad
    · rw [heq]
      exact useStoredHash_fBad h
    · rw [heq]
      exact traverseAndExtract_fBad height _ (traverseAndExtract_fBad height _ h)
    · rw [heq]
      exact traverseAndExtract_fBad height _ h

/-- The hashes that using a stored hash appends. -/
theorem useStoredHash_opens {matched : Bool} {x : Extraction}
    (h : (useStoredHash t matched x).2.fBad = false) :
    ∃ ys, (useStoredHash t matched x).2.vMatch = x.vMatch ++ ys ∧
      ∀ y ∈ ys, y = (useStoredHash t matched x).1 ∧ matched = true := by
  rw [useStoredHash] at h ⊢
  cases hget : t.vHash[x.nHashUsed]? with
  | none => simp [hget] at h
  | some hash =>
    cases matched with
    | false => exact ⟨[], (List.append_nil _).symm, fun _ hy => absurd hy List.not_mem_nil⟩
    | true => exact ⟨[hash], rfl, fun y hy => ⟨List.mem_singleton.mp hy, rfl⟩⟩

/-- The hashes a traversal appends are opened by the hash it returns. -/
theorem traverseAndExtract_opens : ∀ (height pos : ℕ) {x : Extraction},
    (traverseAndExtract H t height pos x).2.fBad = false →
    ∃ ys, (traverseAndExtract H t height pos x).2.vMatch = x.vMatch ++ ys ∧
      ∀ y ∈ ys, Merkle.Opens (hash2 H) t.nTransactions.toNat height pos
        (traverseAndExtract H t height pos x).1 y
  | 0, pos, x, h => by
    rw [traverseAndExtract] at h ⊢
    cases hbit : t.vBits[x.nBitsUsed]? with
    | none => simp [hbit] at h
    | some matched =>
      rw [hbit] at h
      obtain ⟨ys, hys, hall⟩ := useStoredHash_opens h
      refine ⟨ys, hys, fun y hy => ?_⟩
      rw [(hall y hy).1]
      exact .leaf pos _
  | height + 1, pos, x, h => by
    obtain ⟨hbad, -⟩ | heq | ⟨hw, l, r, hl, hr, heq⟩ | ⟨hw, l, hl, heq⟩ :=
      traverseAndExtract_cases height pos x (H := H) (t := t)
    · rw [hbad] at h
      cases h
    · rw [heq] at h ⊢
      obtain ⟨ys, hys, hall⟩ := useStoredHash_opens h
      exact ⟨ys, hys, fun y hy => absurd (hall y hy).2 Bool.false_ne_true⟩
    · rw [heq] at h ⊢
      have hlbad : l.2.fBad = false := by
        by_contra hne
        have hbad : (traverseAndExtract H t height (pos * 2 + 1) l.2).2.fBad = true :=
          traverseAndExtract_fBad height (pos * 2 + 1) (by rwa [Bool.not_eq_false] at hne)
        rw [hr] at hbad
        exact Bool.false_ne_true (h.symm.trans hbad)
      obtain ⟨ys, hys, hall⟩ := traverseAndExtract_opens height (pos * 2) (hl ▸ hlbad)
      obtain ⟨ys', hys', hall'⟩ := traverseAndExtract_opens height (pos * 2 + 1) (hr ▸ h)
      rw [hl] at hys hall
      rw [hr] at hys' hall'
      refine ⟨ys ++ ys', by rw [← List.append_assoc, ← hys, hys'], fun y hy => ?_⟩
      rcases List.mem_append.mp hy with hy | hy
      · exact .left _ hw (hall y hy)
      · exact .right _ hw (hall' y hy)
    · rw [heq] at h ⊢
      obtain ⟨ys, hys, hall⟩ := traverseAndExtract_opens height (pos * 2) (hl ▸ h)
      rw [hl] at hys hall
      exact ⟨ys, hys, fun y hy => .single hw (hall y hy)⟩

/-! ## What is opened can be extracted -/

/-- A node that is not descended into uses the next stored hash. -/
theorem traverseAndExtract_stored {preB postB : List Bool} {preH postH : List UInt256} {a : UInt256}
    (hB : t.vBits = preB ++ false :: postB) (hH : t.vHash = preH ++ a :: postH) {i j : ℕ}
    (hi : i = preB.length) (hj : j = preH.length) (height pos : ℕ) (vm : List UInt256) :
    traverseAndExtract H t height pos ⟨i, j, vm, false⟩ = (a, ⟨i + 1, j + 1, vm, false⟩) := by
  subst hi hj
  have hbit : t.vBits[preB.length]? = some false := by simp [hB]
  have huse := useStoredHash_eq hH false (preB.length + 1) vm false
  cases height with
  | zero =>
    rw [traverseAndExtract, hbit]
    exact huse
  | succ height =>
    rw [traverseAndExtract, hbit]
    exact huse

theorem traverseAndExtract_two {n height pos : ℕ} {x : Extraction} {l r : UInt256 × Extraction}
    (hn : t.nTransactions.toNat = n) (hbit : t.vBits[x.nBitsUsed]? = some true)
    (hw : pos * 2 + 1 < Merkle.width n height)
    (hl : traverseAndExtract H t height (pos * 2) { x with nBitsUsed := x.nBitsUsed + 1 } = l)
    (hr : traverseAndExtract H t height (pos * 2 + 1) l.2 = r) :
    traverseAndExtract H t (height + 1) pos x = (hash2 H l.1 r.1, r.2) := by
  rw [traverseAndExtract, hbit]
  simp [hl, hr, hn, calcTreeWidth_eq, hw]

theorem traverseAndExtract_one {n height pos : ℕ} {x : Extraction} {l : UInt256 × Extraction}
    (hn : t.nTransactions.toNat = n) (hbit : t.vBits[x.nBitsUsed]? = some true)
    (hw : ¬pos * 2 + 1 < Merkle.width n height)
    (hl : traverseAndExtract H t height (pos * 2) { x with nBitsUsed := x.nBitsUsed + 1 } = l) :
    traverseAndExtract H t (height + 1) pos x = (hash2 H l.1 l.1, l.2) := by
  rw [traverseAndExtract, hbit]
  simp [hl, hn, calcTreeWidth_eq, hw]

/-- Flags and hashes with which a traversal extracts one hash. -/
structure Extracts (H : Bytes → UInt256) (n height pos : ℕ) (x y : UInt256) (bits : List Bool)
    (hashes : List UInt256) : Prop where
  length_le : hashes.length ≤ height + 1
  length_le_bits : hashes.length ≤ bits.length
  extract : ∀ (t : CPartialMerkleTree), t.nTransactions.toNat = n →
    ∀ (preB postB : List Bool) (preH postH vm : List UInt256) (i j : ℕ),
      t.vBits = preB ++ bits ++ postB → t.vHash = preH ++ hashes ++ postH → i = preB.length →
      j = preH.length → traverseAndExtract H t height pos ⟨i, j, vm, false⟩ =
        (x, ⟨i + bits.length, j + hashes.length, vm ++ [y], false⟩)

theorem extracts_of_opens {n height pos : ℕ} {x y : UInt256}
    (ho : Merkle.Opens (hash2 H) n height pos x y) :
    ∃ bits hashes, Extracts H n height pos x y bits hashes := by
  induction ho with
  | leaf pos a =>
    refine ⟨[true], [a], le_rfl, le_rfl, fun t _ preB postB preH postH vm i j hB hH hi hj => ?_⟩
    subst hi hj
    rw [List.append_assoc] at hH
    have hbit : t.vBits[preB.length]? = some true := by simp [hB]
    rw [traverseAndExtract, hbit]
    exact useStoredHash_eq hH true _ vm false
  | @left h pos a y b hw ho ih =>
    obtain ⟨bits, hashes, hle, hlebits, hextract⟩ := ih
    refine ⟨true :: (bits ++ [false]), hashes ++ [b], by simpa using hle, by simp; omega,
      fun t hn preB postB preH postH vm i j hB hH hi hj => ?_⟩
    have hbit : t.vBits[i]? = some true := by simp [hB, hi]
    have hleft := hextract t hn (preB ++ [true]) (false :: postB) preH (b :: postH) vm (i + 1) j
      (by simp [hB]) (by simp [hH]) (by simp [hi]) hj
    have hB' : t.vBits = (preB ++ true :: bits) ++ false :: postB := by simp [hB]
    have hH' : t.vHash = (preH ++ hashes) ++ b :: postH := by simp [hH]
    have hi' : i + 1 + bits.length = (preB ++ true :: bits).length := by simp [hi]; omega
    have hj' : j + hashes.length = (preH ++ hashes).length := by simp [hj]
    have hright := traverseAndExtract_stored (H := H) hB' hH' hi' hj' h (pos * 2 + 1) (vm ++ [y])
    rw [traverseAndExtract_two hn hbit hw hleft hright]
    simp [Nat.add_assoc, Nat.add_comm 1]
  | @right h pos b y a hw ho ih =>
    obtain ⟨bits, hashes, hle, hlebits, hextract⟩ := ih
    refine ⟨true :: false :: bits, a :: hashes, by simpa using hle, by simp; omega,
      fun t hn preB postB preH postH vm i j hB hH hi hj => ?_⟩
    have hbit : t.vBits[i]? = some true := by simp [hB, hi]
    have hB' : t.vBits = (preB ++ [true]) ++ false :: (bits ++ postB) := by simp [hB]
    have hH' : t.vHash = preH ++ a :: (hashes ++ postH) := by simp [hH]
    have hi' : i + 1 = (preB ++ [true]).length := by simp [hi]
    have hleft := traverseAndExtract_stored (H := H) hB' hH' hi' hj h (pos * 2) vm
    have hright := hextract t hn (preB ++ [true, false]) postB (preH ++ [a]) postH vm (i + 1 + 1)
      (j + 1) (by simp [hB]) (by simp [hH]) (by simp [hi]) (by simp [hj])
    rw [traverseAndExtract_two hn hbit hw hleft hright]
    simp [Nat.add_assoc, Nat.add_comm 1, Nat.add_comm 2]
  | @single h pos a y hw ho ih =>
    obtain ⟨bits, hashes, hle, hlebits, hextract⟩ := ih
    refine ⟨true :: bits, hashes, by omega, by simp; omega,
      fun t hn preB postB preH postH vm i j hB hH hi hj => ?_⟩
    have hbit : t.vBits[i]? = some true := by simp [hB, hi]
    have hleft := hextract t hn (preB ++ [true]) postB preH postH vm (i + 1) j (by simp [hB]) hH
      (by simp [hi]) hj
    rw [traverseAndExtract_one hn hbit hw hleft]
    simp [Nat.add_assoc, Nat.add_comm 1]

/-- The height of the tree of some transactions. -/
def treeHeight (nTransactions : ℕ) : ℕ := heightFrom nTransactions 0

theorem treeHeight_lt {n : ℕ} (hn : n ≠ 0) : treeHeight n < n := by
  cases hh : treeHeight n with
  | zero => omega
  | succ h =>
    have hwide := (heightFrom_spec n 0 (by omega)).2 h (by rw [treeHeight] at hh; omega)
    rw [Merkle.one_lt_width_iff] at hwide
    have hpow : h < 2 ^ h := Nat.lt_two_pow_self
    omega

/-- All that the root opens to can be extracted. -/
theorem extractMatches_of_opens {n : UInt32} {x y : UInt256} (hn : n.toNat ≠ 0)
    (hmax : n.toNat ≤ MAX_BLOCK_SIZE / 60)
    (ho : Merkle.Opens (hash2 H) n.toNat (treeHeight n.toNat) 0 x y) :
    ∃ t : CPartialMerkleTree, t.nTransactions = n ∧ t.extractMatches H = (x, [y], t) := by
  obtain ⟨bits, hashes, hle, hlebits, hextract⟩ := extracts_of_opens ho
  refine ⟨⟨n, bits, hashes, false⟩, rfl, ?_⟩
  have hlt := treeHeight_lt hn
  have htraverse := hextract ⟨n, bits, hashes, false⟩ rfl [] [] [] [] [] 0 0
    (List.append_nil _).symm (List.append_nil _).symm rfl rfl
  rw [treeHeight] at htraverse
  simp only [CPartialMerkleTree.extractMatches, htraverse]
  rw [if_neg hn, if_neg (by omega), if_neg (by omega), if_neg (by omega)]
  simp

/-- With surplus flags the root is 0, but the hash was extracted. -/
theorem extractMatches_fails {n : UInt32} (y : UInt256) (hn : n.toNat ≠ 0)
    (hmax : n.toNat ≤ MAX_BLOCK_SIZE / 60) :
    ∃ t : CPartialMerkleTree, t.nTransactions = n ∧ t.extractMatches H = (0, [y], t) := by
  obtain ⟨x, ho⟩ := Merkle.exists_opens (f := hash2 H) n.toNat y (treeHeight n.toNat) 0
  obtain ⟨bits, hashes, hle, hlebits, hextract⟩ := extracts_of_opens ho
  refine ⟨⟨n, bits ++ List.replicate 8 false, hashes, false⟩, rfl, ?_⟩
  have hlt := treeHeight_lt hn
  have htraverse := hextract ⟨n, bits ++ List.replicate 8 false, hashes, false⟩ rfl []
    (List.replicate 8 false) [] [] [] 0 0 rfl (List.append_nil _).symm rfl rfl
  rw [treeHeight] at htraverse
  simp only [CPartialMerkleTree.extractMatches, htraverse, List.length_append, List.length_replicate]
  rw [if_neg hn, if_neg (by omega), if_neg (by omega), if_neg (by omega), if_neg Bool.false_ne_true,
    if_pos (by omega)]
  rfl

/-! ## Authentication -/

/-- What is extracted with the root of a block, from a tree that claims some number of
transactions, are transactions of the block. -/
def CBlock.Authenticates (H : Bytes → UInt256) (block : CBlock) (nTransactions : UInt32) : Prop :=
  ∀ t : CPartialMerkleTree, t.nTransactions = nTransactions →
    (t.extractMatches H).1 = block.buildMerkleTree H →
    ∀ x ∈ (t.extractMatches H).2.1, x ∈ block.vtx.map (CTransaction.getHash H)

/-- Either nothing is extracted, or the root is 0, or what is extracted is opened by the
root. -/
theorem extractMatches_cases (t : CPartialMerkleTree) :
    (t.extractMatches H).2.1 = [] ∨ t.nTransactions.toNat ≠ 0 ∧
      t.nTransactions.toNat ≤ MAX_BLOCK_SIZE / 60 ∧ ((t.extractMatches H).1 = 0 ∨
        ∀ y ∈ (t.extractMatches H).2.1, Merkle.Opens (hash2 H) t.nTransactions.toNat
          (treeHeight t.nTransactions.toNat) 0 (t.extractMatches H).1 y) := by
  rw [CPartialMerkleTree.extractMatches]
  by_cases hzero : t.nTransactions.toNat = 0
  · exact .inl (by rw [if_pos hzero])
  by_cases hmax : t.nTransactions.toNat > MAX_BLOCK_SIZE / 60
  · exact .inl (by rw [if_neg hzero, if_pos hmax])
  rw [if_neg hzero, if_neg hmax]
  split_ifs with hhash hbits
  · exact .inl rfl
  · exact .inl rfl
  refine .inr ⟨hzero, not_lt.mp hmax, ?_⟩
  have hopens := traverseAndExtract_opens (H := H) (t := t) (x := ⟨0, 0, [], t.fBad⟩)
    (heightFrom t.nTransactions.toNat 0) 0
  generalize traverseAndExtract H t (heightFrom t.nTransactions.toNat 0) 0 ⟨0, 0, [], t.fBad⟩ = r
    at hopens ⊢
  dsimp only
  split_ifs with hbad
  · exact .inl rfl
  · exact .inl rfl
  · exact .inl rfl
  · obtain ⟨ys, hys, hall⟩ := hopens (Bool.eq_false_iff.mpr hbad)
    refine .inr fun y hy => hall y ?_
    rwa [hys] at hy

/-- The root of a block is the one node of the last level. -/
theorem getElem?_root {vTxid : List UInt256} (hne : vTxid ≠ []) :
    (Merkle.level (hash2 H) vTxid (treeHeight vTxid.length))[0]? = some (buildMerkleTree H vTxid) := by
  have hone := width_height (List.length_pos_iff.mpr hne)
  rw [← calcHash_root H vTxid hne]
  exact calcHash_eq H vTxid _ 0 (by rw [treeHeight, hone]; omega)

/-- A block authenticates what is extracted from a tree that claims some number of
transactions if the number is none or too large, so that nothing is extracted, or if the root
is not 0, which a failed extraction returns as well, and the claimed tree is as high as that
of the block, or else the root opens to nothing but transactions in it. -/
theorem extractMatches_authentic (block : CBlock) (hne : block.vtx ≠ [])
    (hinj : Merkle.PairInjective (hash2 H) (block.vtx.map (CTransaction.getHash H))
      (treeHeight block.vtx.length)) (nTransactions : UInt32) :
    block.Authenticates H nTransactions ↔
      nTransactions = 0 ∨ MAX_BLOCK_SIZE / 60 < nTransactions.toNat ∨
      ((block.buildMerkleTree H = 0 → ∀ x, x ∈ block.vtx.map (CTransaction.getHash H)) ∧
        (treeHeight nTransactions.toNat = treeHeight block.vtx.length ∨
          ∀ y, Merkle.Opens (hash2 H) nTransactions.toNat (treeHeight nTransactions.toNat) 0
            (block.buildMerkleTree H) y → y ∈ block.vtx.map (CTransaction.getHash H))) := by
  set vTxid := block.vtx.map (CTransaction.getHash H) with hvTxid
  have hne' : vTxid ≠ [] := by simpa [hvTxid] using hne
  have hlen : vTxid.length = block.vtx.length := by simp [hvTxid]
  have hroot := getElem?_root (H := H) hne'
  rw [hlen] at hroot
  constructor
  · intro hauth
    by_cases hzero : nTransactions = 0
    · exact .inl hzero
    by_cases hmax : MAX_BLOCK_SIZE / 60 < nTransactions.toNat
    · exact .inr (.inl hmax)
    have hn : nTransactions.toNat ≠ 0 := fun h => hzero (UInt32.toNat_inj.mp h)
    refine .inr (.inr ⟨fun hroot0 x => ?_, .inr fun y ho => ?_⟩)
    · obtain ⟨t, ht, hx⟩ := extractMatches_fails (H := H) x hn (not_lt.mp hmax)
      exact hauth t ht (by rw [hx, hroot0]) x (by rw [hx]; exact List.mem_singleton_self x)
    · obtain ⟨t, ht, hy⟩ := extractMatches_of_opens hn (not_lt.mp hmax) ho
      exact hauth t ht (by rw [hy]) y (by rw [hy]; exact List.mem_singleton_self y)
  · rintro hcond t rfl hroot' x hx
    obtain hnil | ⟨hn, hmax, hcase⟩ := extractMatches_cases (H := H) t
    · rw [hnil] at hx
      exact absurd hx List.not_mem_nil
    rcases hcond with hzero | hlarge | ⟨hroot0, hopens⟩
    · exact absurd (by rw [hzero]; rfl) hn
    · omega
    rcases hcase with hfail | hall
    · exact hroot0 (hroot'.symm.trans hfail) x
    have ho := hall x hx
    rw [hroot'] at ho
    rcases hopens with heq | hopens
    · rw [heq] at ho
      refine ho.mem_level (k := 0) hinj ?_ (by omega)
      rw [Nat.zero_add]
      exact List.mem_of_getElem? hroot
    · exact hopens x ho

/-- From a tree that claims to be lower than that of the block, the first inner node on the
level where the claimed leaves are can be extracted with the root of the block. -/
theorem extractMatches_innerNode {vTxid : List UInt256} (hne : vTxid ≠ []) {n : UInt32}
    (hn : n.toNat ≠ 0) (hmax : n.toNat ≤ MAX_BLOCK_SIZE / 60)
    (hlt : treeHeight n.toNat < treeHeight vTxid.length) :
    ∃ (y : UInt256) (t : CPartialMerkleTree),
      (Merkle.level (hash2 H) vTxid (treeHeight vTxid.length - treeHeight n.toNat))[0]? = some y ∧
      t.nTransactions = n ∧ t.extractMatches H = (buildMerkleTree H vTxid, [y], t) := by
  have hroot := getElem?_root (H := H) hne
  rw [← Nat.sub_add_cancel hlt.le] at hroot
  obtain ⟨y, hy, ho⟩ := Merkle.opens_head (n := n.toNat)
    (heightFrom_spec n.toNat 0 (by omega)).2 hroot
  obtain ⟨t, ht, hextract⟩ := extractMatches_of_opens hn hmax ho
  exact ⟨y, t, hy, ht, hextract⟩

/-! ## A block of two transactions -/

/-- A transaction with an input and an output, told apart by its lock time. -/
def sampleMerkleTx (nLockTime : UInt32) : CTransaction :=
  ⟨1, [⟨⟨7, 0⟩, [], 0⟩], [⟨1, []⟩], nLockTime⟩

/-- A hash that is 1 and 2 for the two transactions, and 100 for this pair only. -/
def sampleMerkleHash (bs : Bytes) : UInt256 :=
  if bs = serializeUInt256 1 ++ serializeUInt256 2 then 100
  else if bs = (sampleMerkleTx 1).serialize then 1
  else if bs = (sampleMerkleTx 2).serialize then 2
  else 0

def sampleMerkleBlock : CBlock := ⟨⟨1, 0, 100, 0, 0, 0⟩, [sampleMerkleTx 1, sampleMerkleTx 2]⟩

theorem sampleMerkle_txids :
    sampleMerkleBlock.vtx.map (CTransaction.getHash sampleMerkleHash) = [1, 2] := by
  decide

theorem serializeUInt256_inj {a b : UInt256} (h : serializeUInt256 a = serializeUInt256 b) :
    a = b := by
  have hmax : (256 : ℕ) ^ 32 = 2 ^ 256 := by norm_num
  exact BitVec.eq_of_toNat_eq (leBytes_inj (by rw [hmax]; exact a.isLt) (by rw [hmax]; exact b.isLt) h)

theorem sampleMerkle_pairInjective : Merkle.PairInjective (hash2 sampleMerkleHash)
    (sampleMerkleBlock.vtx.map (CTransaction.getHash sampleMerkleHash))
    (treeHeight sampleMerkleBlock.vtx.length) := by
  have hheight : treeHeight sampleMerkleBlock.vtx.length = 1 := by
    simp [sampleMerkleBlock, treeHeight, heightFrom, calcTreeWidth]
  rw [sampleMerkle_txids, hheight]
  intro k hk i a ha c d heq
  obtain rfl : k = 0 := by omega
  cases i with
  | succ i => simp [Merkle.level, Nat.mul_add] at ha
  | zero =>
    obtain rfl : a = 1 := by simpa [Merkle.level] using ha.symm
    have hpair : hash2 sampleMerkleHash 1 2 = 100 := by rw [hash2, sampleMerkleHash, if_pos rfl]
    change hash2 sampleMerkleHash c d = hash2 sampleMerkleHash 1 2 at heq
    rw [hpair, hash2, sampleMerkleHash] at heq
    split_ifs at heq with h
    · obtain ⟨hc, hd⟩ := List.append_inj h (by simp [serializeUInt256, length_leBytes])
      exact ⟨serializeUInt256_inj hc, serializeUInt256_inj hd⟩
    all_goals exact absurd heq (by decide)

/-- With a claimed number of one transaction the root itself is extracted. -/
theorem extractMatches_root_extracted :
    Merkle.PairInjective (hash2 sampleMerkleHash)
      (sampleMerkleBlock.vtx.map (CTransaction.getHash sampleMerkleHash))
      (treeHeight sampleMerkleBlock.vtx.length) ∧
    sampleMerkleBlock.buildMerkleTree sampleMerkleHash = 100 ∧
    (CPartialMerkleTree.mk 1 [true] [100] false).extractMatches sampleMerkleHash =
      (100, [100], ⟨1, [true], [100], false⟩) ∧
    (100 : UInt256) ∉ sampleMerkleBlock.vtx.map (CTransaction.getHash sampleMerkleHash) := by
  refine ⟨sampleMerkle_pairInjective, by with_unfolding_all decide, ?_, ?_⟩
  · simp [CPartialMerkleTree.extractMatches, heightFrom, calcTreeWidth, traverseAndExtract,
      useStoredHash, MAX_BLOCK_SIZE]
  · rw [sampleMerkle_txids]
    decide

/-- What the block of two transactions authenticates. -/
theorem extractMatches_authentic_sample :
    sampleMerkleBlock.Authenticates sampleMerkleHash 2 ↔
      (2 : UInt32) = 0 ∨ MAX_BLOCK_SIZE / 60 < (2 : UInt32).toNat ∨
      ((sampleMerkleBlock.buildMerkleTree sampleMerkleHash = 0 →
          ∀ x, x ∈ sampleMerkleBlock.vtx.map (CTransaction.getHash sampleMerkleHash)) ∧
        (treeHeight (2 : UInt32).toNat = treeHeight sampleMerkleBlock.vtx.length ∨
          ∀ y, Merkle.Opens (hash2 sampleMerkleHash) (2 : UInt32).toNat
            (treeHeight (2 : UInt32).toNat) 0 (sampleMerkleBlock.buildMerkleTree sampleMerkleHash) y →
            y ∈ sampleMerkleBlock.vtx.map (CTransaction.getHash sampleMerkleHash))) :=
  extractMatches_authentic sampleMerkleBlock (by decide) sampleMerkle_pairInjective 2

end Ticoin
