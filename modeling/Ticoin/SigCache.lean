import Ticoin.Destinations
import Ticoin.SigEncoding
import Ticoin.SignatureHash

/-!
# script.cpp : the signature cache

`CheckSig` keeps the signatures that were verified in a set, under the hash that was signed, the
signature and the public key, and answers from it without verifying. The set is ordered. While it
holds more than the maximum, `Set` erases the first element from a random position on, or the first
of all.

A signature is in the set only after it was verified, so `CheckSig` answers as if the set were empty,
whatever was checked before, whichever flags were used and whatever was evicted, and the set holds
at most one element more than its maximum (`checkSig_cache`). The calls may come from several
threads : of a call only the end of `Set` changes the set (`SigCacheReach`).
-/

namespace Ticoin

open Codec

/-! ## The set -/

/-- `sigdata_type` : the signature hash, the signature and the public key. -/
abbrev SigData := UInt256 × Bytes × Bytes

/-- The order of the tuples. -/
def SigData.cmp : SigData → SigData → Ordering :=
  compareLex (compareOn fun k => k.1) (compareLex (compareOn fun k => k.2.1) (compareOn fun k => k.2.2))

instance : Std.TransCmp SigData.cmp :=
  inferInstanceAs (Std.TransCmp (compareLex (compareOn fun k : SigData => k.1)
    (compareLex (compareOn fun k => k.2.1) (compareOn fun k => k.2.2))))

instance : Std.LawfulEqCmp SigData.cmp where
  eq_of_compare {a b} h := by
    obtain ⟨hhash, hrest⟩ := compareLex_eq_eq.mp h
    obtain ⟨hsig, hkey⟩ := compareLex_eq_eq.mp hrest
    exact Prod.ext (Std.LawfulEqOrd.eq_of_compare hhash)
      (Prod.ext (Std.LawfulEqOrd.eq_of_compare hsig) (Std.LawfulEqOrd.eq_of_compare hkey))

/-- `setValid`. -/
abbrev CSignatureCache := Std.ExtTreeSet SigData SigData.cmp

namespace CSignatureCache

/-- The bytes that a public key is compared by. The first byte of an invalid one is `0xff`. -/
def keyBytes (pubKey : CPubKey) : Bytes := if pubKey.vch = [] then [0xff] else pubKey.vch

/-- `Get`. -/
def get (cache : CSignatureCache) (hash : UInt256) (vchSig : Bytes) (pubKey : CPubKey) : Bool :=
  cache.contains (hash, vchSig, keyBytes pubKey)

/-- The element that is erased for a random hash : the lower bound, or the first one. -/
def victim (cache : CSignatureCache) (randomHash : UInt256) : Option SigData :=
  (cache.toList.find? fun k => SigData.cmp k (randomHash, [], [0xff]) != .lt).or cache.toList.head?

theorem mem_of_victim {cache : CSignatureCache} {randomHash : UInt256} {k : SigData}
    (h : victim cache randomHash = some k) : k ∈ cache := by
  rw [victim, Option.or_eq_some_iff] at h
  rcases h with h | ⟨-, h⟩
  · exact Std.ExtTreeSet.mem_toList.mp (List.mem_of_find?_eq_some h)
  · exact Std.ExtTreeSet.mem_toList.mp (List.mem_of_head? h)

theorem size_erase_of_mem {cache : CSignatureCache} {k : SigData} (h : k ∈ cache) :
    (cache.erase k).size + 1 = cache.size := by
  have hpos : cache.size ≠ 0 := by
    intro hzero
    rw [← Std.ExtTreeSet.length_toList, List.length_eq_zero_iff] at hzero
    exact absurd (Std.ExtTreeSet.mem_toList.mpr h) (hzero ▸ List.not_mem_nil)
  rw [Std.ExtTreeSet.size_erase, if_pos (Std.ExtTreeSet.contains_iff_mem.mpr h)]
  omega

/-- The loop of `Set`, with the random hashes from the `i`-th on. -/
def evict (nMaxCacheSize : ℤ) (randomHash : ℕ → UInt256) (i : ℕ) (cache : CSignatureCache) :
    CSignatureCache :=
  if (cache.size : ℤ) > nMaxCacheSize then
    match _h : victim cache (randomHash i) with
    | none => cache
    | some k => evict nMaxCacheSize randomHash (i + 1) (cache.erase k)
  else cache
termination_by cache.size
decreasing_by
  have hsize := size_erase_of_mem (mem_of_victim (by assumption))
  omega

/-- `Set`. -/
def set (nMaxCacheSize : ℤ) (randomHash : ℕ → UInt256) (cache : CSignatureCache) (hash : UInt256)
    (vchSig : Bytes) (pubKey : CPubKey) : CSignatureCache :=
  if nMaxCacheSize ≤ 0 then cache
  else (evict nMaxCacheSize randomHash 0 cache).insert (hash, vchSig, keyBytes pubKey)

/-- What is left was there before, and is no more than the maximum. -/
theorem evict_spec (nMaxCacheSize : ℤ) (hmax : 0 < nMaxCacheSize) (randomHash : ℕ → UInt256) (i : ℕ)
    (cache : CSignatureCache) : (∀ k ∈ evict nMaxCacheSize randomHash i cache, k ∈ cache) ∧
      ((evict nMaxCacheSize randomHash i cache).size : ℤ) ≤ nMaxCacheSize := by
  fun_induction evict nMaxCacheSize randomHash i cache with
  | case1 i cache hsize hnone =>
    have hempty : cache.toList = [] := by
      rw [victim, Option.or_eq_none_iff] at hnone
      exact List.head?_eq_none_iff.mp hnone.2
    rw [← Std.ExtTreeSet.length_toList, hempty] at hsize
    exact absurd hsize (by simpa using hmax.le)
  | case2 i cache hsize k hk ih =>
    exact ⟨fun k' hk' => (Std.ExtTreeSet.mem_erase.mp (ih.1 k' hk')).2, ih.2⟩
  | case3 i cache hsize => exact ⟨fun _ hk => hk, not_lt.mp hsize⟩

end CSignatureCache

/-! ## CheckSig -/

/-- What a call of `CheckSig` is given, and the random hashes it draws. -/
structure CheckSigCall where
  vchSig : Bytes
  vchPubKey : Bytes
  scriptCode : Bytes
  txTo : CTransaction
  nIn : ℕ
  nHashType : Int32
  flags : UInt32
  randomHash : ℕ → UInt256

section

variable (H : Bytes → UInt256) (verify : CPubKey → UInt256 → Bytes → Bool) (nMaxCacheSize : ℤ)

/-- The hash, the signature and the public key to verify, unless the call fails before. -/
def CheckSigCall.toVerify (call : CheckSigCall) : Option (UInt256 × Bytes × CPubKey) :=
  let pubkey := CPubKey.set call.vchPubKey
  if pubkey.vch = [] then none
  else
    match call.vchSig.getLast? with
    | none => none
    | some back =>
      -- hash type is one byte tacked on to the end of the signature
      let nHashType := Int32.ofNat back.toNat
      if call.nHashType ≠ 0 ∧ call.nHashType ≠ nHashType then none
      else
        some (signatureHash H call.scriptCode call.txTo call.nIn nHashType, call.vchSig.dropLast,
          pubkey)

/-- `CheckSig`, with the cache after it. -/
def checkSig (cache : CSignatureCache) (call : CheckSigCall) : Bool × CSignatureCache :=
  match call.toVerify H with
  | none => (false, cache)
  | some (sighash, vchSig, pubkey) =>
    if cache.get sighash vchSig pubkey then (true, cache)
    else if !verify pubkey sighash vchSig then (false, cache)
    else
      (true, if hasFlag call.flags SCRIPT_VERIFY_NOCACHE then cache
        else cache.set nMaxCacheSize call.randomHash sighash vchSig pubkey)

/-- The caches that calls leave, of any number of threads : a call that verified its signature sets
it whatever was set meanwhile. -/
inductive SigCacheReach : CSignatureCache → Prop
  | empty : SigCacheReach ∅
  | set {cache : CSignatureCache} {call : CheckSigCall} {sighash : UInt256} {vchSig : Bytes}
      {pubkey : CPubKey} (h : SigCacheReach cache)
      (hcall : call.toVerify H = some (sighash, vchSig, pubkey))
      (hverify : verify pubkey sighash vchSig = true) :
      SigCacheReach (cache.set nMaxCacheSize call.randomHash sighash vchSig pubkey)

variable {H verify nMaxCacheSize}

theorem keyBytes_of_toVerify {call : CheckSigCall} {sighash : UInt256} {vchSig : Bytes}
    {pubkey : CPubKey} (h : call.toVerify H = some (sighash, vchSig, pubkey)) :
    CSignatureCache.keyBytes pubkey = pubkey.vch := by
  rw [CheckSigCall.toVerify] at h
  dsimp only at h
  split at h
  · cases h
  rename_i hne
  split at h
  · cases h
  split at h
  · cases h
  · cases h
    rw [CSignatureCache.keyBytes, if_neg hne]

/-- Every element was verified, and there is at most one more than the maximum. -/
theorem SigCacheReach.spec {cache : CSignatureCache} (h : SigCacheReach H verify nMaxCacheSize cache) :
    (∀ hash vchSig vchPubKey, (hash, vchSig, vchPubKey) ∈ cache →
      verify ⟨vchPubKey⟩ hash vchSig = true) ∧
      cache.size ≤ nMaxCacheSize.toNat + 1 ∧ (nMaxCacheSize ≤ 0 → cache.size = 0) := by
  induction h with
  | empty => exact ⟨fun _ _ _ hk => absurd hk Std.ExtTreeSet.not_mem_empty, Nat.zero_le _, fun _ => rfl⟩
  | @set cache call sighash vchSig pubkey _ hcall hverify ih =>
    obtain ⟨hvalid, hsize, hzero⟩ := ih
    rw [CSignatureCache.set]
    split
    · exact ⟨hvalid, hsize, hzero⟩
    rename_i hmax
    obtain ⟨hmem, hevict⟩ := CSignatureCache.evict_spec nMaxCacheSize (not_le.mp hmax) call.randomHash 0
      cache
    refine ⟨fun hash' vchSig' vchPubKey' hk => ?_, ?_, fun hle => absurd hle hmax⟩
    · rcases Std.ExtTreeSet.mem_insert.mp hk with heq | hk
      · cases Std.LawfulEqCmp.eq_of_compare heq
        rw [keyBytes_of_toVerify hcall]
        exact hverify
      · exact hvalid _ _ _ (hmem _ hk)
    · have hinsert : (Std.ExtTreeSet.insert (CSignatureCache.evict nMaxCacheSize call.randomHash 0
        cache) (sighash, vchSig, CSignatureCache.keyBytes pubkey)).size ≤ _ :=
        Std.ExtTreeSet.size_insert_le
      omega

theorem checkSig_of_none {cache : CSignatureCache} {call : CheckSigCall}
    (h : call.toVerify H = none) : checkSig H verify nMaxCacheSize cache call = (false, cache) := by
  rw [checkSig, h]

/-- The answer is what verifying says, from any cache of verified signatures. -/
theorem SigCacheReach.checkSig_fst {cache : CSignatureCache}
    (h : SigCacheReach H verify nMaxCacheSize cache) {call : CheckSigCall} {sighash : UInt256}
    {vchSig : Bytes} {pubkey : CPubKey} (hcall : call.toVerify H = some (sighash, vchSig, pubkey)) :
    (checkSig H verify nMaxCacheSize cache call).1 = verify pubkey sighash vchSig := by
  rw [checkSig, hcall]
  dsimp only
  split
  · rename_i hget
    rw [CSignatureCache.get, keyBytes_of_toVerify hcall, Std.ExtTreeSet.contains_iff_mem] at hget
    exact (h.spec.1 _ _ _ hget).symm
  split
  · rename_i hnot
    rw [Bool.not_eq_true'] at hnot
    exact hnot.symm
  · rename_i hverify
    rw [Bool.not_eq_true', Bool.not_eq_false] at hverify
    exact hverify.symm

/-- A call that runs to its end leaves a cache that calls leave. -/
theorem SigCacheReach.checkSig_snd {cache : CSignatureCache}
    (h : SigCacheReach H verify nMaxCacheSize cache) (call : CheckSigCall) :
    SigCacheReach H verify nMaxCacheSize (checkSig H verify nMaxCacheSize cache call).2 := by
  cases hcall : call.toVerify H with
  | none =>
    rw [checkSig_of_none hcall]
    exact h
  | some k =>
    obtain ⟨sighash, vchSig, pubkey⟩ := k
    rw [checkSig, hcall]
    dsimp only
    split
    · exact h
    split
    · exact h
    rename_i hverify
    rw [Bool.not_eq_true', Bool.not_eq_false] at hverify
    dsimp only
    split
    · exact h
    · exact .set h hcall hverify

variable (H verify nMaxCacheSize)

/-- The cache is at most one element above its maximum, which is none if it is negative, and
`CheckSig` answers as with an empty one, after calls of any threads, and so after any calls one after
the other. -/
theorem checkSig_cache :
    (∀ cache, SigCacheReach H verify nMaxCacheSize cache →
      cache.size ≤ nMaxCacheSize.toNat + 1 ∧ ∀ call,
        (checkSig H verify nMaxCacheSize cache call).1 =
          (checkSig H verify nMaxCacheSize ∅ call).1) ∧
    ∀ calls : List CheckSigCall, SigCacheReach H verify nMaxCacheSize
      (calls.foldl (fun cache call => (checkSig H verify nMaxCacheSize cache call).2) ∅) := by
  refine ⟨fun cache h => ⟨h.spec.2.1, fun call => ?_⟩, fun calls => ?_⟩
  · cases hcall : call.toVerify H with
    | none => rw [checkSig_of_none hcall, checkSig_of_none hcall]
    | some k =>
      obtain ⟨sighash, vchSig, pubkey⟩ := k
      rw [h.checkSig_fst hcall, SigCacheReach.empty.checkSig_fst hcall]
  · exact List.foldlRecOn calls _ .empty fun _ h call _ => h.checkSig_snd call

end

end Ticoin
