import Ticoin.MerkleCommitment
import Ticoin.WalletAmounts

/-!
# core.cpp : the Merkle branch of a transaction

`BuildMerkleTree` leaves the levels of the tree in one vector, and `GetMerkleBranch` picks the
sibling of the transaction, and of each node above it, out of the vector at the offset of its
level. `CheckMerkleBranch` combines a hash with the siblings along the bits of the index.

The branch of every transaction leads from its hash to the root of the block, and no other hash
does with a branch of that length, where the pairs hashed on the two ways have different hashes
(`merkleBranch_verifies`).
-/

namespace Ticoin

open Codec

variable (H : Bytes → UInt256)

/-! ## GetMerkleBranch -/

/-- The loop of `GetMerkleBranch` : the siblings from the level of `nSize` nodes at `j` on, `none`
for a read outside of the vector. -/
def merkleBranchFrom (vMerkleTree : List UInt256) (j nSize nIndex : ℕ) : Option (List UInt256) :=
  if nSize > 1 then do
    let otherside ← vMerkleTree[j + min (nIndex ^^^ 1) (nSize - 1)]?
    let vMerkleBranch ← merkleBranchFrom vMerkleTree (j + nSize) ((nSize + 1) / 2) (nIndex >>> 1)
    return otherside :: vMerkleBranch
  else some []
termination_by nSize

/-- `GetMerkleBranch` of a block with the vector that it keeps, which is built if it is empty. -/
def CBlock.getMerkleBranch (block : CBlock) (vMerkleTree : List UInt256) (nIndex : ℕ) :
    Option (List UInt256) :=
  merkleBranchFrom
    (if vMerkleTree.isEmpty then merkleTree H 0 block.vtx.length (block.txids H) else vMerkleTree)
    0 block.vtx.length nIndex

/-! ## The levels in the vector -/

/-- What is in the vector stays there. -/
theorem prefix_merkleTree (pre lvl : List UInt256) :
    pre ++ lvl <+: merkleTree H pre.length lvl.length (pre ++ lvl) := by
  induction hn : lvl.length using Nat.strongRecOn generalizing pre lvl with
  | ind n ih =>
  rw [merkleTree]
  split
  · rename_i hlen
    rw [← hn] at hlen ⊢
    have hup := Merkle.length_levelUp (hash2 H) lvl
    rw [merkleLevel_append, ← hup, ← List.length_append]
    exact (List.prefix_append _ _).trans (ih _ (by omega) (pre ++ lvl) _ rfl)
  · exact List.prefix_rfl

/-- The siblings in the vector are those of the tree. -/
theorem merkleBranchFrom_eq (pre lvl : List UInt256) {i : ℕ} (hi : i < lvl.length) :
    merkleBranchFrom (merkleTree H pre.length lvl.length (pre ++ lvl)) pre.length lvl.length i =
      some (Merkle.branch (hash2 H) lvl i) := by
  induction hn : lvl.length using Nat.strongRecOn generalizing pre lvl i with
  | ind n ih =>
  rw [merkleBranchFrom, Merkle.branch]
  subst hn
  split
  swap
  · rfl
  rename_i hlen
  have hup := Merkle.length_levelUp (hash2 H) lvl
  have hsibling : min (i ^^^ 1) (lvl.length - 1) < lvl.length := by omega
  obtain ⟨rest, hrest⟩ := prefix_merkleTree H pre lvl
  have hread : (merkleTree H pre.length lvl.length (pre ++ lvl))[pre.length +
      min (i ^^^ 1) (lvl.length - 1)]? = some lvl[min (i ^^^ 1) (lvl.length - 1)] := by
    rw [← hrest, List.append_assoc, List.getElem?_append_right (Nat.le_add_right _ _),
      Nat.add_sub_cancel_left, List.getElem?_append_left hsibling, List.getElem?_eq_getElem hsibling]
  have hnext := ih _ (by omega) (pre ++ lvl) (Merkle.levelUp (hash2 H) lvl) (i := i / 2) (by omega)
    rfl
  rw [hread, merkleTree, if_pos hlen, merkleLevel_append, ← hup, ← List.length_append,
    Nat.shiftRight_one, hnext, List.getElem?_eq_getElem hsibling]
  rfl

/-! ## CheckMerkleBranch -/

/-- For an index in the block the loop climbs the tree. -/
theorem foldBranch_eq : ∀ (vMerkleBranch : List UInt256) (i : ℕ) (hash : UInt256),
    WalletView.foldBranch H vMerkleBranch i hash = Merkle.climb (hash2 H) vMerkleBranch i hash
  | [], _, _ => rfl
  | otherside :: vMerkleBranch, i, hash => by
    have hhalf : (i : ℤ) / 2 = (i / 2 : ℕ) := by omega
    have hbit : (i : ℤ) % 2 = 1 ↔ i % 2 = 1 := by omega
    rw [WalletView.foldBranch, Merkle.climb, hhalf, foldBranch_eq vMerkleBranch]
    simp only [hbit]

theorem checkMerkleBranch_eq (hash : UInt256) (vMerkleBranch : List UInt256) (i : ℕ) :
    WalletView.checkMerkleBranch H hash vMerkleBranch i =
      Merkle.climb (hash2 H) vMerkleBranch i hash := by
  rw [WalletView.checkMerkleBranch, if_neg (by omega), foldBranch_eq]

/-- The pairs that two checks hash are told by their hashes. -/
def PairHashInjective (i : ℕ) (hash hash' : UInt256) (vMerkleBranch vMerkleBranch' : List UInt256) :
    Prop :=
  Set.InjOn (fun p : UInt256 × UInt256 => hash2 H p.1 p.2)
    {p | p ∈ Merkle.climbPairs (hash2 H) vMerkleBranch i hash ∨
      p ∈ Merkle.climbPairs (hash2 H) vMerkleBranch' i hash'}

/-- The branch of a transaction verifies, whether the vector was built before or not, and with it
no other hash does : what verifies with a branch of this length is the transaction's hash with its
branch. -/
theorem merkleBranch_verifies (block : CBlock) (vMerkleTree : List UInt256)
    (hbuilt : vMerkleTree = [] ∨ vMerkleTree = merkleTree H 0 block.vtx.length (block.txids H))
    (i : ℕ) (hi : i < block.vtx.length) :
    ∃ vMerkleBranch, block.getMerkleBranch H vMerkleTree i = some vMerkleBranch ∧
      WalletView.checkMerkleBranch H (block.vtx[i].getHash H) vMerkleBranch i =
        block.buildMerkleTree H ∧
      ∀ hash vMerkleBranch', vMerkleBranch'.length = vMerkleBranch.length →
        PairHashInjective H i (block.vtx[i].getHash H) hash vMerkleBranch vMerkleBranch' →
        WalletView.checkMerkleBranch H hash vMerkleBranch' i = block.buildMerkleTree H →
        hash = block.vtx[i].getHash H ∧ vMerkleBranch' = vMerkleBranch := by
  have hlen : (block.txids H).length = block.vtx.length := List.length_map _
  have hne : block.txids H ≠ [] := List.ne_nil_of_length_pos (by omega)
  have htxid : (block.txids H)[i]? = some (block.vtx[i].getHash H) := by
    rw [CBlock.txids, List.getElem?_map, List.getElem?_eq_getElem hi]
    rfl
  have hroot : Merkle.climb (hash2 H) (Merkle.branch (hash2 H) (block.txids H) i) i
      (block.vtx[i].getHash H) = block.buildMerkleTree H := by
    change _ = buildMerkleTree H (block.txids H)
    rw [buildMerkleTree_eq_root H hne, Merkle.climb_branch _ htxid, Option.getD_some]
  have hvector : (if vMerkleTree.isEmpty then merkleTree H 0 block.vtx.length (block.txids H)
      else vMerkleTree) = merkleTree H 0 block.vtx.length (block.txids H) := by
    rcases hbuilt with rfl | rfl
    · rfl
    · exact ite_self _
  have hbranch := merkleBranchFrom_eq H [] (block.txids H) (i := i) (by omega)
  rw [hlen, List.nil_append, List.length_nil] at hbranch
  refine ⟨Merkle.branch (hash2 H) (block.txids H) i, ?_, ?_, ?_⟩
  · rw [CBlock.getMerkleBranch, hvector, hbranch]
  · rw [checkMerkleBranch_eq, hroot]
  · intro hash vMerkleBranch' hsame hinj hcheck
    rw [checkMerkleBranch_eq, ← hroot] at hcheck
    exact Merkle.climb_inj _ hsame (fun p hp q hq h => hinj (.inr hp) (.inl hq) h) hcheck

/-- The branch of the last of three transactions, which is its own sibling. -/
theorem merkleBranch_verifies_three :
    ∃ vMerkleBranch,
      ({ sampleBlock 2 3 2 with vtx := [sampleCoinbase, sampleCoinbase, sampleCoinbase] } :
        CBlock).getMerkleBranch nonceHash [] 2 = some vMerkleBranch ∧
      WalletView.checkMerkleBranch nonceHash (sampleCoinbase.getHash nonceHash) vMerkleBranch 2 =
        ({ sampleBlock 2 3 2 with vtx := [sampleCoinbase, sampleCoinbase, sampleCoinbase] } :
          CBlock).buildMerkleTree nonceHash := by
  obtain ⟨vMerkleBranch, hget, hcheck, -⟩ := merkleBranch_verifies nonceHash
    { sampleBlock 2 3 2 with vtx := [sampleCoinbase, sampleCoinbase, sampleCoinbase] } [] (.inl rfl) 2
    (show 2 < 3 by decide)
  exact ⟨vMerkleBranch, hget, hcheck⟩

end Ticoin
