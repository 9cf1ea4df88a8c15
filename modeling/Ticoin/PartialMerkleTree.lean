import Ticoin.Core

/-!
# CPartialMerkleTree : a subset of a block's transaction hashes

A depth-first traversal of the block's Merkle tree stores one flag a node, set when a
matched transaction is below it, and the hash of every node it does not descend into
(`traverseAndBuild`). The extractor repeats the traversal on the stored flags and hashes,
collecting the matched leaves and recomputing the hashes of the nodes it descended into
(`traverseAndExtract`). It accepts only if every hash and all but the padding of the flags
is consumed.

Counts and positions are natural numbers here : `ExtractMatches` rejects every count above
`MAX_BLOCK_SIZE / 60` before it computes with it, and the builder runs on the transactions
of a block.

What the builder stores below a node is `nodeData`, and extracting from it consumes exactly
that data, appends the matched hashes below the node and returns its hash
(`traverseAndExtract_nodeData`). The hash of a node is that of the levels of the tree
(`calcHash_eq`), so the whole is a round trip through the wire format with the root of
`BuildMerkleTree`.
-/

namespace Ticoin

open Codec

structure CPartialMerkleTree where
  /-- the total number of transactions in the block -/
  nTransactions : UInt32
  /-- node-is-parent-of-matched-txid bits -/
  vBits : List Bool
  /-- txids and internal hashes -/
  vHash : List UInt256
  /-- flag set when encountering invalid data -/
  fBad : Bool
  deriving DecidableEq, Repr

/-! ## Serialization -/

def CPartialMerkleTree.serialize (t : CPartialMerkleTree) : Bytes :=
  serializeUInt32 t.nTransactions ++
    (serializeVector serializeUInt256 t.vHash ++ serializeBytes (packBits t.vBits))

def CPartialMerkleTree.unserialize : Reader CPartialMerkleTree := do
  let nTransactions ← unserializeUInt32
  let vHash ← unserializeVector unserializeUInt256
  let vBytes ← unserializeBytes
  return ⟨nTransactions, unpackBits vBytes, vHash, false⟩

/-- The tree is read back with its flags padded to whole bytes. -/
theorem CPartialMerkleTree.reads (t : CPartialMerkleTree) (hhash : t.vHash.length ≤ MAX_SIZE)
    (hbits : t.vBits.length ≤ MAX_SIZE) :
    Reads CPartialMerkleTree.unserialize t.serialize
      ⟨t.nTransactions, unpackBits (packBits t.vBits), t.vHash, false⟩ := by
  have hbytes : (packBits t.vBits).length ≤ MAX_SIZE := by
    rw [length_packBits]
    omega
  exact (reads_uint32 t.nTransactions).bind
    ((reads_vector (fun a _ => reads_uint256 a) hhash).bind
      ((reads_bytes hbytes).map fun vBytes =>
        (⟨t.nTransactions, unpackBits vBytes, t.vHash, false⟩ : CPartialMerkleTree)))

/-! ## The shape of the tree -/

/-- The number of nodes at a height of the Merkle tree. -/
def calcTreeWidth (nTransactions height : ℕ) : ℕ := (nTransactions + (1 <<< height) - 1) >>> height

theorem calcTreeWidth_eq (n height : ℕ) : calcTreeWidth n height = Merkle.width n height := by
  rw [calcTreeWidth, Merkle.width, Nat.shiftRight_eq_div_pow, Nat.one_shiftLeft]

/-- `while (CalcTreeWidth(nHeight) > 1) nHeight++;` -/
def heightFrom (nTransactions nHeight : ℕ) : ℕ :=
  if calcTreeWidth nTransactions nHeight > 1 then heightFrom nTransactions (nHeight + 1)
  else nHeight
termination_by nTransactions - 2 ^ nHeight
decreasing_by
  rename_i h
  rw [calcTreeWidth_eq] at h
  have := Merkle.one_lt_width_iff.mp h
  have := Nat.pow_lt_pow_succ (a := 2) (n := nHeight) (by omega)
  omega

/-- The loop stops at the first level of at most one node. -/
theorem heightFrom_spec (n : ℕ) : ∀ h : ℕ, (∀ k < h, 1 < Merkle.width n k) →
    Merkle.width n (heightFrom n h) ≤ 1 ∧ ∀ k < heightFrom n h, 1 < Merkle.width n k := by
  intro h
  induction h using heightFrom.induct n with
  | case1 h hgt ih =>
    intro hlt
    rw [heightFrom, if_pos hgt]
    refine ih fun k hk => ?_
    rcases Nat.lt_succ_iff_lt_or_eq.mp hk with hk | rfl
    · exact hlt k hk
    · rwa [← calcTreeWidth_eq]
  | case2 h hle =>
    intro hlt
    rw [heightFrom, if_neg hle, ← calcTreeWidth_eq]
    exact ⟨by omega, hlt⟩

theorem width_height {n : ℕ} (hn : 0 < n) : Merkle.width n (heightFrom n 0) = 1 := by
  have h := (heightFrom_spec n 0 (by omega)).1
  have hpos := Merkle.width_pos hn (heightFrom n 0)
  omega

/-! ## Building -/

variable (H : Bytes → UInt256) (vTxid : List UInt256) (vMatch : List Bool)

/-- The hash of a node, at leaf level the transaction hash itself. -/
def calcHash : ℕ → ℕ → UInt256
  | 0, pos => vTxid.getD pos 0
  | height + 1, pos =>
    let left := calcHash height (pos * 2)
    let right := if pos * 2 + 1 < calcTreeWidth vTxid.length height then
      calcHash height (pos * 2 + 1) else left
    hash2 H left right

/-- The positions of the transactions below a node : `pos << height` up to
`(pos + 1) << height`, cut at the number of transactions. -/
def leavesBelow (n height pos : ℕ) : List ℕ :=
  List.range' (pos <<< height) (min ((pos + 1) <<< height) n - pos <<< height)

/-- Whether a node is the parent of at least one matched transaction. -/
def parentOfMatch (height pos : ℕ) : Bool :=
  (leavesBelow vTxid.length height pos).any fun p => vMatch.getD p false

def traverseAndBuild : ℕ → ℕ → CPartialMerkleTree → CPartialMerkleTree
  | 0, pos, t =>
    { t with
      vBits := t.vBits ++ [parentOfMatch vTxid vMatch 0 pos]
      vHash := t.vHash ++ [calcHash H vTxid 0 pos] }
  | height + 1, pos, t =>
    let fParentOfMatch := parentOfMatch vTxid vMatch (height + 1) pos
    let t := { t with vBits := t.vBits ++ [fParentOfMatch] }
    if fParentOfMatch then
      let t := traverseAndBuild height (pos * 2) t
      if pos * 2 + 1 < calcTreeWidth vTxid.length height then
        traverseAndBuild height (pos * 2 + 1) t
      else t
    else { t with vHash := t.vHash ++ [calcHash H vTxid (height + 1) pos] }

/-- `CPartialMerkleTree(vTxid, vMatch)`. -/
def CPartialMerkleTree.ofTxids : CPartialMerkleTree :=
  traverseAndBuild H vTxid vMatch (heightFrom vTxid.length 0) 0
    ⟨UInt32.ofNat vTxid.length, [], [], false⟩

/-! ## Extracting -/

/-- The cursors and results of an extraction. -/
structure Extraction where
  nBitsUsed : ℕ
  nHashUsed : ℕ
  vMatch : List UInt256
  fBad : Bool
  deriving DecidableEq, Repr

/-- Use the next stored hash and do not descend. -/
def useStoredHash (t : CPartialMerkleTree) (matched : Bool) (x : Extraction) :
    UInt256 × Extraction :=
  match t.vHash[x.nHashUsed]? with
  | none => (0, { x with fBad := true })
  | some hash =>
    (hash, { x with
      nHashUsed := x.nHashUsed + 1
      vMatch := if matched then x.vMatch ++ [hash] else x.vMatch })

def traverseAndExtract (t : CPartialMerkleTree) : ℕ → ℕ → Extraction → UInt256 × Extraction
  | 0, _, x =>
    match t.vBits[x.nBitsUsed]? with
    | none => (0, { x with fBad := true })
    | some fParentOfMatch =>
      useStoredHash t fParentOfMatch { x with nBitsUsed := x.nBitsUsed + 1 }
  | height + 1, pos, x =>
    match t.vBits[x.nBitsUsed]? with
    | none => (0, { x with fBad := true })
    | some fParentOfMatch =>
      let x := { x with nBitsUsed := x.nBitsUsed + 1 }
      if fParentOfMatch then
        let (left, x) := traverseAndExtract t height (pos * 2) x
        let (right, x) :=
          if pos * 2 + 1 < calcTreeWidth t.nTransactions.toNat height then
            traverseAndExtract t height (pos * 2 + 1) x
          else (left, x)
        (hash2 H left right, x)
      else useStoredHash t false x

/-- The root and the matched hashes, with the tree whose `fBad` records a failed traversal.
The root is 0 in case of failure. -/
def CPartialMerkleTree.extractMatches (t : CPartialMerkleTree) :
    UInt256 × List UInt256 × CPartialMerkleTree :=
  -- an empty set will not work, nor an excessively high number of transactions
  if t.nTransactions.toNat = 0 then (0, [], t)
  else if t.nTransactions.toNat > MAX_BLOCK_SIZE / 60 then (0, [], t)
  -- one hash for every txid at most, at least one bit per hash
  else if t.vHash.length > t.nTransactions.toNat then (0, [], t)
  else if t.vBits.length < t.vHash.length then (0, [], t)
  else
    let (hashMerkleRoot, x) := traverseAndExtract H t (heightFrom t.nTransactions.toNat 0) 0
      ⟨0, 0, [], t.fBad⟩
    let t := { t with fBad := x.fBad }
    if x.fBad then (0, x.vMatch, t)
    -- all bits consumed except for the padding, and all hashes
    else if (x.nBitsUsed + 7) / 8 ≠ (t.vBits.length + 7) / 8 then (0, x.vMatch, t)
    else if x.nHashUsed ≠ t.vHash.length then (0, x.vMatch, t)
    else (hashMerkleRoot, x.vMatch, t)

/-! ## Nodes and levels -/

/-- `CalcHash` gives the node of the level. -/
theorem calcHash_eq : ∀ (height pos : ℕ), pos < Merkle.width vTxid.length height →
    (Merkle.level (hash2 H) vTxid height)[pos]? = some (calcHash H vTxid height pos)
  | 0, pos, hpos => by
    rw [Merkle.width_zero] at hpos
    rw [Merkle.level, calcHash, List.getD_eq_getElem _ _ hpos, List.getElem?_eq_getElem hpos]
  | height + 1, pos, hpos => by
    rw [Merkle.width_succ] at hpos
    have hleft := calcHash_eq height (pos * 2) (by omega)
    rw [Merkle.level, Merkle.getElem?_levelUp, mul_comm 2 pos, hleft, Option.map_some, calcHash,
      calcTreeWidth_eq]
    split
    · rename_i h
      rw [calcHash_eq height (pos * 2 + 1) h, Option.getD_some]
    · rename_i h
      rw [List.getElem?_eq_none (by rw [Merkle.length_level]; omega), Option.getD_none]

theorem calcHash_root (hne : vTxid ≠ []) :
    calcHash H vTxid (heightFrom vTxid.length 0) 0 = buildMerkleTree H vTxid := by
  have hn : 0 < vTxid.length := List.length_pos_iff.mpr hne
  have hone := width_height hn
  have hnode := calcHash_eq H vTxid (heightFrom vTxid.length 0) 0 (by omega)
  rw [buildMerkleTree_eq_root H hne,
    Merkle.root_eq_head? (hash2 H) vTxid _ (heightFrom_spec _ 0 (by omega)).2 hone,
    List.head?_eq_getElem?, hnode, Option.getD_some]

/-! ## What is stored below a node -/

/-- The flags and hashes the traversal stores below a node. -/
def nodeData : ℕ → ℕ → List Bool × List UInt256
  | 0, pos => ([parentOfMatch vTxid vMatch 0 pos], [calcHash H vTxid 0 pos])
  | height + 1, pos =>
    if parentOfMatch vTxid vMatch (height + 1) pos then
      let left := nodeData height (pos * 2)
      let right := if pos * 2 + 1 < calcTreeWidth vTxid.length height then
        nodeData height (pos * 2 + 1) else ([], [])
      (true :: (left.1 ++ right.1), left.2 ++ right.2)
    else ([false], [calcHash H vTxid (height + 1) pos])

/-- The builder appends the data of the node. -/
theorem traverseAndBuild_eq : ∀ (height pos : ℕ) (t : CPartialMerkleTree),
    traverseAndBuild H vTxid vMatch height pos t =
      { t with
        vBits := t.vBits ++ (nodeData H vTxid vMatch height pos).1
        vHash := t.vHash ++ (nodeData H vTxid vMatch height pos).2 }
  | 0, pos, t => rfl
  | height + 1, pos, t => by
    rw [traverseAndBuild, nodeData]
    by_cases hp : parentOfMatch vTxid vMatch (height + 1) pos = true
    · by_cases hw : pos * 2 + 1 < calcTreeWidth vTxid.length height
      · simp [hp, hw, traverseAndBuild_eq height]
      · simp [hp, hw, traverseAndBuild_eq height]
    · simp [hp]

/-! ## The transactions below a node -/

theorem leavesBelow_eq (n height pos : ℕ) : leavesBelow n height pos =
    List.range' (pos * 2 ^ height) (min (pos * 2 ^ height + 2 ^ height) n - pos * 2 ^ height) := by
  rw [leavesBelow, Nat.shiftLeft_eq, Nat.shiftLeft_eq, Nat.succ_mul]

/-- A node has at least one transaction below it. -/
theorem length_leavesBelow_pos {n height pos : ℕ} (hpos : pos < Merkle.width n height) :
    1 ≤ (leavesBelow n height pos).length := by
  have hlt := Merkle.lt_width_iff.mp hpos
  have := Nat.two_pow_pos height
  rw [leavesBelow_eq, List.length_range']
  omega

/-- A position past the last node of a level has no transaction below it. -/
theorem leavesBelow_eq_nil {n height pos : ℕ} (hpos : ¬pos < Merkle.width n height) :
    leavesBelow n height pos = [] := by
  have hle : n ≤ pos * 2 ^ height := by
    rw [Merkle.lt_width_iff] at hpos
    omega
  rw [leavesBelow_eq, List.range'_eq_nil_iff]
  omega

/-- The transactions below a node are those below its children. -/
theorem leavesBelow_succ (n height pos : ℕ) :
    leavesBelow n (height + 1) pos =
      leavesBelow n height (pos * 2) ++ leavesBelow n height (pos * 2 + 1) := by
  have hpow : pos * 2 ^ (height + 1) = pos * 2 * 2 ^ height := by ring
  have hsucc : (pos * 2 + 1) * 2 ^ height = pos * 2 * 2 ^ height + 2 ^ height := by ring
  rw [leavesBelow_eq, leavesBelow_eq, leavesBelow_eq, hpow, hsucc, pow_succ]
  generalize pos * 2 * 2 ^ height = a
  generalize 2 ^ height = s
  rcases Nat.lt_or_ge (a + s) n with h | h
  · rw [Nat.min_eq_left (by omega : a + s ≤ n), Nat.add_sub_cancel_left, List.range'_append_1]
    congr 1
    omega
  · rw [Nat.min_eq_right (by omega : n ≤ a + s), Nat.min_eq_right (by omega : n ≤ a + s * 2),
      Nat.min_eq_right (by omega : n ≤ a + s + s), Nat.sub_eq_zero_of_le h]
    simp

theorem leavesBelow_zero {n pos : ℕ} (hpos : pos < n) : leavesBelow n 0 pos = [pos] := by
  have hmin : min (pos * 2 ^ 0 + 2 ^ 0) n - pos * 2 ^ 0 = 1 := by omega
  rw [leavesBelow_eq, hmin, List.range'_one, pow_zero, mul_one]

/-- The matched transactions among some positions. -/
def matchedAt (ps : List ℕ) : List UInt256 :=
  (ps.filter fun p => vMatch.getD p false).map fun p => vTxid.getD p 0

theorem matchedAt_append (ps qs : List ℕ) :
    matchedAt vTxid vMatch (ps ++ qs) = matchedAt vTxid vMatch ps ++ matchedAt vTxid vMatch qs := by
  rw [matchedAt, List.filter_append, List.map_append, matchedAt, matchedAt]

theorem matchedAt_eq_nil {height pos : ℕ} (h : parentOfMatch vTxid vMatch height pos = false) :
    matchedAt vTxid vMatch (leavesBelow vTxid.length height pos) = [] := by
  rw [parentOfMatch, List.any_eq_false] at h
  rw [matchedAt, List.map_eq_nil_iff, List.filter_eq_nil_iff]
  exact h

theorem matchedAt_range (hlen : vMatch.length = vTxid.length) :
    matchedAt vTxid vMatch (List.range vTxid.length) =
      ((vTxid.zip vMatch).filter fun m => m.2).map fun m => m.1 := by
  have hzip : vTxid.zip vMatch =
      (List.range vTxid.length).map fun p => (vTxid.getD p 0, vMatch.getD p false) := by
    refine List.ext_getElem (by simp [hlen]) fun p hp _ => ?_
    simp only [List.length_zip, hlen, Nat.min_self] at hp
    simp [hp, hlen]
  rw [hzip, List.filter_map, List.map_map]
  rfl

/-! ## The size of the stored data -/

/-- Every stored hash has a flag of its own, and stands for at least one transaction. -/
theorem length_nodeData : ∀ (height pos : ℕ), pos < Merkle.width vTxid.length height →
    (nodeData H vTxid vMatch height pos).2.length ≤ (nodeData H vTxid vMatch height pos).1.length ∧
    (nodeData H vTxid vMatch height pos).2.length ≤ (leavesBelow vTxid.length height pos).length ∧
    (nodeData H vTxid vMatch height pos).1.length < 2 ^ (height + 1)
  | 0, pos, hpos => by simpa [nodeData] using length_leavesBelow_pos hpos
  | height + 1, pos, hpos => by
    have hpow := Nat.two_pow_pos height
    by_cases hp : parentOfMatch vTxid vMatch (height + 1) pos = true
    · have hleft := length_nodeData height (pos * 2) (by rw [Merkle.width_succ] at hpos; omega)
      rw [leavesBelow_succ, nodeData, if_pos hp]
      by_cases hw : pos * 2 + 1 < Merkle.width vTxid.length height
      · have hright := length_nodeData height (pos * 2 + 1) hw
        simp only [calcTreeWidth_eq, if_pos hw, List.length_cons, List.length_append]
        rw [pow_succ 2 (height + 1)]
        omega
      · simp only [calcTreeWidth_eq, if_neg hw, List.length_cons, List.length_append,
          List.append_nil]
        rw [pow_succ 2 (height + 1)]
        omega
    · rw [nodeData, if_neg hp]
      have hone := length_leavesBelow_pos hpos
      simp only [List.length_singleton]
      rw [pow_succ 2 (height + 1), pow_succ 2 height]
      omega

/-! ## Extracting what was stored -/

variable {H vTxid vMatch}

theorem useStoredHash_eq {t : CPartialMerkleTree} {preH postH : List UInt256} {hash : UInt256}
    (hH : t.vHash = preH ++ hash :: postH) (matched : Bool) (nBitsUsed : ℕ) (vm : List UInt256)
    (bad : Bool) : useStoredHash t matched ⟨nBitsUsed, preH.length, vm, bad⟩ =
      (hash, ⟨nBitsUsed, preH.length + 1, if matched then vm ++ [hash] else vm, bad⟩) := by
  simp [useStoredHash, hH]

/-- Extracting from the data of a node consumes exactly that data, appends the matched
hashes below the node and returns its hash. -/
theorem traverseAndExtract_nodeData {t : CPartialMerkleTree}
    (hn : t.nTransactions.toNat = vTxid.length) (bad : Bool) :
    ∀ (height pos : ℕ), pos < Merkle.width vTxid.length height →
    ∀ (preB postB : List Bool) (preH postH : List UInt256) (vm : List UInt256),
      t.vBits = preB ++ (nodeData H vTxid vMatch height pos).1 ++ postB →
      t.vHash = preH ++ (nodeData H vTxid vMatch height pos).2 ++ postH →
      traverseAndExtract H t height pos ⟨preB.length, preH.length, vm, bad⟩ =
        (calcHash H vTxid height pos,
          ⟨preB.length + (nodeData H vTxid vMatch height pos).1.length,
            preH.length + (nodeData H vTxid vMatch height pos).2.length,
            vm ++ matchedAt vTxid vMatch (leavesBelow vTxid.length height pos), bad⟩)
  | 0, pos, hpos, preB, postB, preH, postH, vm, hB, hH => by
    rw [Merkle.width_zero] at hpos
    simp only [nodeData, List.append_assoc, List.singleton_append] at hB hH
    have hbit : t.vBits[preB.length]? = some (parentOfMatch vTxid vMatch 0 pos) := by simp [hB]
    have hmatch : (if parentOfMatch vTxid vMatch 0 pos then vm ++ [calcHash H vTxid 0 pos] else vm)
        = vm ++ matchedAt vTxid vMatch (leavesBelow vTxid.length 0 pos) := by
      rw [parentOfMatch, leavesBelow_zero hpos]
      by_cases hm : vMatch.getD pos false = true <;> simp_all [matchedAt, calcHash]
    rw [traverseAndExtract, hbit]
    simp only [useStoredHash_eq hH, hmatch, nodeData, List.length_singleton]
  | height + 1, pos, hpos, preB, postB, preH, postH, vm, hB, hH => by
    rw [Merkle.width_succ] at hpos
    have hleaf := leavesBelow_succ vTxid.length height pos
    by_cases hp : parentOfMatch vTxid vMatch (height + 1) pos = true
    · rw [nodeData, if_pos hp] at hB hH ⊢
      have hbit : t.vBits[preB.length]? = some true := by simp [hB]
      by_cases hw : pos * 2 + 1 < Merkle.width vTxid.length height
      · have hleft := traverseAndExtract_nodeData hn bad height (pos * 2) (by omega)
          (preB ++ [true]) _ preH _ vm
          (by simpa [calcTreeWidth_eq, hw] using hB) (by simpa [calcTreeWidth_eq, hw] using hH)
        have hright := traverseAndExtract_nodeData hn bad height (pos * 2 + 1) hw
          (preB ++ [true] ++ (nodeData H vTxid vMatch height (pos * 2)).1) _
          (preH ++ (nodeData H vTxid vMatch height (pos * 2)).2) _
          (vm ++ matchedAt vTxid vMatch (leavesBelow vTxid.length height (pos * 2)))
          (by simpa [calcTreeWidth_eq, hw] using hB) (by simpa [calcTreeWidth_eq, hw] using hH)
        simp only [List.length_append, List.length_singleton] at hleft hright
        rw [traverseAndExtract, hbit]
        simp [hleft, hright, hn, hw, calcTreeWidth_eq, calcHash, hleaf, matchedAt_append]
        omega
      · have hleft := traverseAndExtract_nodeData hn bad height (pos * 2) (by omega)
          (preB ++ [true]) _ preH _ vm
          (by simpa [calcTreeWidth_eq, hw] using hB) (by simpa [calcTreeWidth_eq, hw] using hH)
        simp only [List.length_append, List.length_singleton] at hleft
        rw [traverseAndExtract, hbit]
        simp [hleft, hn, hw, calcTreeWidth_eq, calcHash, hleaf, leavesBelow_eq_nil hw]
        omega
    · rw [nodeData, if_neg hp] at hB hH ⊢
      have hbit : t.vBits[preB.length]? = some false := by simp [hB]
      rw [List.append_assoc, List.singleton_append] at hH
      rw [traverseAndExtract, hbit]
      simp [useStoredHash_eq hH, matchedAt_eq_nil vTxid vMatch (Bool.eq_false_iff.mpr hp)]

/-! ## The round trip -/

/-- Extraction succeeds on the data of the root, whatever padding of less than a byte
follows the flags. -/
theorem extractMatches_nodeData {t : CPartialMerkleTree} {pad : List Bool} (hne : vTxid ≠ [])
    (hsize : vTxid.length ≤ MAX_BLOCK_SIZE / 60) (hlen : vMatch.length = vTxid.length)
    (hn : t.nTransactions.toNat = vTxid.length) (hbad : t.fBad = false)
    (hhash : t.vHash = (nodeData H vTxid vMatch (heightFrom vTxid.length 0) 0).2)
    (hbits : t.vBits = (nodeData H vTxid vMatch (heightFrom vTxid.length 0) 0).1 ++ pad)
    (hpad : (t.vBits.length + 7) / 8 =
      ((nodeData H vTxid vMatch (heightFrom vTxid.length 0) 0).1.length + 7) / 8) :
    t.extractMatches H =
      (buildMerkleTree H vTxid, ((vTxid.zip vMatch).filter fun m => m.2).map fun m => m.1, t) := by
  have hpos : 0 < vTxid.length := List.length_pos_iff.mpr hne
  have hroot : 0 < Merkle.width vTxid.length (heightFrom vTxid.length 0) :=
    Merkle.width_pos hpos _
  have hall : leavesBelow vTxid.length (heightFrom vTxid.length 0) 0 = List.range vTxid.length := by
    have hle : ¬2 ^ heightFrom vTxid.length 0 < vTxid.length := by
      rw [← Merkle.one_lt_width_iff, width_height hpos]
      omega
    rw [leavesBelow_eq, List.range_eq_range']
    congr 1 <;> omega
  have hcount := length_nodeData H vTxid vMatch _ _ hroot
  rw [hall, List.length_range] at hcount
  have hextract := traverseAndExtract_nodeData hn false _ _ hroot [] pad [] [] [] (by simpa using hbits) (by simpa using hhash)
  simp only [List.length_nil, Nat.zero_add, List.nil_append, calcHash_root H vTxid hne, hall,
    matchedAt_range vTxid vMatch hlen] at hextract
  have hbitsLen : t.vHash.length ≤ t.vBits.length := by
    rw [hhash, hbits, List.length_append]
    omega
  have hhashLen : t.vHash.length ≤ vTxid.length := by
    rw [hhash]
    omega
  rw [CPartialMerkleTree.extractMatches, hn, hbad, if_neg (by omega), if_neg (by omega),
    if_neg (by omega), if_neg (by omega), hextract]
  simp [hpad, ← hhash, ← hbad]

variable (H vMatch) in
/-- The flags and hashes of a tree small enough for `ExtractMatches` fit any vector. -/
theorem length_nodeData_le_max (hne : vTxid ≠ []) (hsize : vTxid.length ≤ MAX_BLOCK_SIZE / 60) :
    (nodeData H vTxid vMatch (heightFrom vTxid.length 0) 0).2.length ≤ MAX_SIZE ∧
      (nodeData H vTxid vMatch (heightFrom vTxid.length 0) 0).1.length ≤ MAX_SIZE := by
  have hroot := Merkle.width_pos (List.length_pos_iff.mpr hne) (heightFrom vTxid.length 0)
  have hcount := length_nodeData H vTxid vMatch _ _ hroot
  have hheight : heightFrom vTxid.length 0 ≤ 15 := by
    by_contra hgt
    have hwide := (heightFrom_spec vTxid.length 0 (by omega)).2 15 (by omega)
    have hmax : vTxid.length ≤ 16666 := hsize
    have := Merkle.one_lt_width_iff.mp hwide
    omega
  have hpow : 2 ^ (heightFrom vTxid.length 0 + 1) ≤ 2 ^ 16 :=
    Nat.pow_le_pow_right (by omega) (by omega)
  have hmax : (2 : ℕ) ^ 16 ≤ MAX_SIZE := by decide
  omega

variable (H vTxid vMatch)

/-- Building a partial tree, sending it and extracting from what is received gives the
matched transaction hashes in block order, under the root of `BuildMerkleTree`. -/
theorem partialMerkleTree_roundTrip (hne : vTxid ≠ [])
    (hsize : vTxid.length ≤ MAX_BLOCK_SIZE / 60) (hlen : vMatch.length = vTxid.length)
    (rest : Bytes) :
    ∃ t, CPartialMerkleTree.unserialize
        ((CPartialMerkleTree.ofTxids H vTxid vMatch).serialize ++ rest) = .ok (t, rest) ∧
      t.extractMatches H = (buildMerkleTree H vTxid,
        ((vTxid.zip vMatch).filter fun m => m.2).map fun m => m.1, t) := by
  have hbuilt : CPartialMerkleTree.ofTxids H vTxid vMatch =
      ⟨UInt32.ofNat vTxid.length, (nodeData H vTxid vMatch (heightFrom vTxid.length 0) 0).1,
        (nodeData H vTxid vMatch (heightFrom vTxid.length 0) 0).2, false⟩ := by
    simp [CPartialMerkleTree.ofTxids, traverseAndBuild_eq]
  have hmax := length_nodeData_le_max H vMatch hne hsize
  have hcount : vTxid.length ≤ 16666 := hsize
  refine ⟨_, CPartialMerkleTree.reads _ (by simpa [hbuilt] using hmax.1)
    (by simpa [hbuilt] using hmax.2) rest, ?_⟩
  rw [hbuilt]
  refine extractMatches_nodeData hne hsize hlen ?_ rfl rfl (unpackBits_packBits _) ?_
  · simp only [UInt32.toNat_ofNat']
    omega
  · simp only [unpackBits_packBits, List.length_append, List.length_replicate]
    omega

/-- One matched transaction out of two. -/
theorem partialMerkleTree_roundTrip_pair :
    ∃ t, CPartialMerkleTree.unserialize
        ((CPartialMerkleTree.ofTxids (fun bs => BitVec.ofNat 256 bs.length) [1, 2]
          [false, true]).serialize ++ []) = .ok (t, []) ∧
      t.extractMatches (fun bs => BitVec.ofNat 256 bs.length) =
        (buildMerkleTree (fun bs => BitVec.ofNat 256 bs.length) [1, 2], [2], t) :=
  partialMerkleTree_roundTrip _ [1, 2] [false, true] (by decide) (by decide) rfl []

end Ticoin
