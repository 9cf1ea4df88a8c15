import Ticoin.Solver
import Ticoin.WireFormat
import Ticoin.Lib.Machine

/-!
# bloom.cpp : filters of light clients

A light client sends a filter (`filterload`), adds keys to it (`filteradd`), and gets the
transactions that match it. A filter is a bit field : a key sets the bits which
`nHashFuncs` hashes of it give, and is in the filter if all these bits are set. A
transaction matches by its hash, by data in its output scripts, by the outpoints it spends
or by data in its input scripts (`IsRelevantAndUpdate`) ; where an output matches, its
outpoint may be added.

Bits are never cleared (`Grows`), so no key is lost, and no index is outside the field
(`bloomSession`) : an empty field makes the filter full, and a full filter computes no hash.
-/

namespace Ticoin

open Codec

/-! ## MurmurHash3 -/

def rotl32 (x r : UInt32) : UInt32 := (x <<< r) ||| (x >>> (32 - r))

/-- What the hash does to four bytes before they are mixed in. -/
def murmurScramble (k1 : UInt32) : UInt32 := rotl32 (k1 * 0xcc9e2d51) 15 * 0x1b873593

/-- Four bytes of the data. -/
def murmurBlock (data : Bytes) (i : ℕ) : Option UInt32 :=
  if 4 * i + 4 ≤ data.length then some (UInt32.ofNat (ofLeBytes ((data.drop (4 * i)).take 4)))
  else none

/-- The body : the blocks are mixed in one after the other. -/
def murmurBody (data : Bytes) : List ℕ → UInt32 → Option UInt32
  | [], h1 => some h1
  | i :: is, h1 => do
    let k1 ← murmurBlock data i
    murmurBody data is (rotl32 (h1 ^^^ murmurScramble k1) 13 * 5 + 0xe6546b64)

/-- The tail : the bytes after the last block. -/
def murmurTail (data : Bytes) (h1 : UInt32) : Option UInt32 :=
  let tail := data.drop (data.length / 4 * 4)
  match data.length % 4 with
  | 3 => do
    let b2 ← tail[2]?
    let b1 ← tail[1]?
    let b0 ← tail[0]?
    return h1 ^^^ murmurScramble ((b2.toUInt32 <<< 16) ^^^ (b1.toUInt32 <<< 8) ^^^ b0.toUInt32)
  | 2 => do
    let b1 ← tail[1]?
    let b0 ← tail[0]?
    return h1 ^^^ murmurScramble ((b1.toUInt32 <<< 8) ^^^ b0.toUInt32)
  | 1 => do
    let b0 ← tail[0]?
    return h1 ^^^ murmurScramble b0.toUInt32
  | _ => some h1

def murmurFinal (h1 : UInt32) : UInt32 :=
  let h1 := (h1 ^^^ (h1 >>> 16)) * 0x85ebca6b
  let h1 := (h1 ^^^ (h1 >>> 13)) * 0xc2b2ae35
  h1 ^^^ (h1 >>> 16)

/-- `MurmurHash3`, which is `none` if it reads outside of the data. -/
def murmurHash3 (nHashSeed : UInt32) (vDataToHash : Bytes) : Option UInt32 := do
  let h1 ← murmurBody vDataToHash (List.range (vDataToHash.length / 4)) nHashSeed
  let h1 ← murmurTail vDataToHash h1
  return murmurFinal (h1 ^^^ UInt32.ofNat vDataToHash.length)

theorem murmurBody_isSome (data : Bytes) : ∀ (is : List ℕ) (h1 : UInt32),
    (∀ i ∈ is, 4 * i + 4 ≤ data.length) → (murmurBody data is h1).isSome
  | [], _, _ => rfl
  | i :: is, h1, h => by
    rw [List.forall_mem_cons] at h
    rw [murmurBody, murmurBlock, if_pos h.1]
    exact murmurBody_isSome data is _ h.2

theorem murmurTail_isSome (data : Bytes) (h1 : UInt32) : (murmurTail data h1).isSome := by
  have hlen : (data.drop (data.length / 4 * 4)).length = data.length % 4 := by
    rw [List.length_drop]
    omega
  have hmod : data.length % 4 < 4 := Nat.mod_lt _ (by decide)
  unfold murmurTail
  dsimp only
  generalize data.drop (data.length / 4 * 4) = tail at hlen
  generalize data.length % 4 = n at hlen hmod ⊢
  match n, tail, hlen with
  | 0, _, _ => rfl
  | 1, [_], _ => rfl
  | 2, [_, _], _ => rfl
  | 3, [_, _, _], _ => rfl

theorem murmurHash3_isSome (nHashSeed : UInt32) (data : Bytes) :
    (murmurHash3 nHashSeed data).isSome := by
  have hbody := murmurBody_isSome data (List.range (data.length / 4)) nHashSeed
    fun i hi => by
      rw [List.mem_range] at hi
      omega
  obtain ⟨h1, hh1⟩ := Option.isSome_iff_exists.mp hbody
  obtain ⟨h2, hh2⟩ := Option.isSome_iff_exists.mp (murmurTail_isSome data h1)
  rw [murmurHash3, hh1, Option.bind_eq_bind, Option.bind_some, hh2]
  rfl

example : murmurHash3 0xFBA4C795 [] = some 0x6a396f08 := by decide

example : murmurHash3 0 [0x00, 0x11, 0x22, 0x33, 0x44, 0x55, 0x66] = some 0xb074502c := by
  decide

/-! ## Filters -/

def MAX_BLOOM_FILTER_SIZE : ℕ := 36000

def MAX_HASH_FUNCS : UInt32 := 50

def BLOOM_UPDATE_NONE : UInt8 := 0
def BLOOM_UPDATE_ALL : UInt8 := 1
def BLOOM_UPDATE_P2PUBKEY_ONLY : UInt8 := 2
def BLOOM_UPDATE_MASK : UInt8 := 3

structure CBloomFilter where
  vData : Bytes
  isFull : Bool
  isEmpty : Bool
  nHashFuncs : UInt32
  nTweak : UInt32
  nFlags : UInt8
  deriving DecidableEq, Repr

namespace CBloomFilter

/-- `Hash` : the number of a bit, which is `none` if the modulus is zero. -/
def hash (f : CBloomFilter) (nHashNum : UInt32) (vDataToHash : Bytes) : Option UInt32 := do
  let h ← murmurHash3 (nHashNum * 0xFBA4C795 + f.nTweak) vDataToHash
  if f.vData.length * 8 = 0 then none
  else return UInt32.ofNat (h.toNat % (f.vData.length * 8))

/-- `1 << (7 & nIndex)`. -/
def bitMask (nIndex : UInt32) : UInt8 := 1 <<< (7 &&& nIndex).toUInt8

/-- Set a bit, if the index is in the data. -/
def setBit (f : CBloomFilter) (nIndex : UInt32) : Option CBloomFilter := do
  let b ← f.vData[(nIndex >>> 3).toNat]?
  return { f with vData := f.vData.set (nIndex >>> 3).toNat (b ||| bitMask nIndex) }

/-- Look at a bit, if the index is in the data. -/
def testBit (f : CBloomFilter) (nIndex : UInt32) : Option Bool := do
  let b ← f.vData[(nIndex >>> 3).toNat]?
  return b &&& bitMask nIndex ≠ 0

/-- The numbers of the hashes. -/
def hashNums (f : CBloomFilter) : List UInt32 := (List.range f.nHashFuncs.toNat).map UInt32.ofNat

/-- The loop of `insert`. -/
def setBits (vKey : Bytes) : List UInt32 → CBloomFilter → Option CBloomFilter
  | [], f => some f
  | i :: is, f => do
    let nIndex ← f.hash i vKey
    let f ← f.setBit nIndex
    setBits vKey is f

/-- The loop of `contains`. -/
def testBits (f : CBloomFilter) (vKey : Bytes) : List UInt32 → Option Bool
  | [] => some true
  | i :: is => do
    let nIndex ← f.hash i vKey
    let set ← f.testBit nIndex
    if !set then return false
    testBits f vKey is

def insert (f : CBloomFilter) (vKey : Bytes) : Option CBloomFilter :=
  if f.isFull then some f
  else do
    let f ← setBits vKey f.hashNums f
    return { f with isEmpty := false }

def contains (f : CBloomFilter) (vKey : Bytes) : Option Bool :=
  if f.isFull then some true
  else if f.isEmpty then some false
  else f.testBits vKey f.hashNums

def isWithinSizeConstraints (f : CBloomFilter) : Bool :=
  f.vData.length ≤ MAX_BLOOM_FILTER_SIZE && f.nHashFuncs ≤ MAX_HASH_FUNCS

def updateEmptyFull (f : CBloomFilter) : CBloomFilter :=
  { f with
    isFull := f.vData.all (· == 0xff)
    isEmpty := f.vData.all (· == 0) }

/-! ## Transactions that match -/

/-- Whether the filter has data that a script pushes, up to the first operation that cannot
be read. -/
def matchesScript (f : CBloomFilter) (pc : Bytes) : Option Bool :=
  match _hop : getOp2 pc with
  | (none, _) => some false
  | (some op, pc') =>
    if op.vch.length ≠ 0 then do
      let found ← f.contains op.vch
      if found then return true
      matchesScript f pc'
    else matchesScript f pc'
termination_by pc.length
decreasing_by all_goals exact length_getOp2_lt (by assumption)

/-- Whether the outpoint of an output that matches is added. -/
def updates (f : CBloomFilter) (scriptPubKey : Bytes) : Option Bool :=
  if f.nFlags &&& BLOOM_UPDATE_MASK = BLOOM_UPDATE_ALL then some true
  else if f.nFlags &&& BLOOM_UPDATE_MASK = BLOOM_UPDATE_P2PUBKEY_ONLY then do
    let (standard, type, _) ← solver scriptPubKey
    return standard && (type == .pubkey || type == .multisig)
  else some false

/-- One output : whether it matches, the keys added, and the filter. -/
def matchOutput (f : CBloomFilter) (hash : UInt256) (i : ℕ) (txout : CTxOut) :
    Option (Bool × List Bytes × CBloomFilter) := do
  let found ← f.matchesScript txout.scriptPubKey
  if !found then return (false, [], f)
  let fUpdate ← f.updates txout.scriptPubKey
  if !fUpdate then return (true, [], f)
  let vKey := (COutPoint.mk hash (UInt32.ofNat i)).serialize
  let f ← f.insert vKey
  return (true, [vKey], f)

/-- The loop over the outputs. -/
def matchOutputs (hash : UInt256) : ℕ → List CTxOut → CBloomFilter →
    Option (Bool × List Bytes × CBloomFilter)
  | _, [], f => some (false, [], f)
  | i, txout :: vout, f =>
    (f.matchOutput hash i txout).bind fun (found, added, f) =>
      (matchOutputs hash (i + 1) vout f).map fun (found', added', f) =>
        (found || found', added ++ added', f)

/-- The loop over the inputs. -/
def matchesInputs (f : CBloomFilter) : List CTxIn → Option Bool
  | [] => some false
  | txin :: vin => do
    let fPrevout ← f.contains txin.prevout.serialize
    if fPrevout then return true
    let fScript ← f.matchesScript txin.scriptSig
    if fScript then return true
    matchesInputs f vin

/-- `IsRelevantAndUpdate` : the answer, the keys added, and the filter after it. -/
def isRelevantAndUpdate (f : CBloomFilter) (tx : CTransaction) (hash : UInt256) :
    Option (Bool × List Bytes × CBloomFilter) :=
  if f.isFull then some (true, [], f)
  else if f.isEmpty then some (false, [], f)
  else do
    let fHash ← f.contains (serializeUInt256 hash)
    let (fOutput, added, f) ← matchOutputs hash 0 tx.vout f
    if fHash || fOutput then return (true, added, f)
    let fInput ← f.matchesInputs tx.vin
    return (fInput, added, f)

/-! ## The messages -/

/-- A filter as it is read, before `UpdateEmptyFull`. -/
def unserialize : Reader CBloomFilter := do
  let vData ← unserializeBytes
  let nHashFuncs ← unserializeUInt32
  let nTweak ← unserializeUInt32
  let nFlags ← readLe endOfData 1
  return ⟨vData, true, false, nHashFuncs, nTweak, UInt8.ofNat nFlags⟩

/-- The message "filterload" : the filter, unless it is too large. -/
def filterLoad (vRecv : Bytes) : Except String (Option CBloomFilter) := do
  let (filter, _) ← unserialize vRecv
  return if filter.isWithinSizeConstraints then some filter.updateEmptyFull else none

end CBloomFilter

/-- A key is added, or a transaction with its hash is looked at. -/
inductive BloomCall where
  | insert (vKey : Bytes)
  | isRelevantAndUpdate (tx : CTransaction) (hash : UInt256)

/-- A call : the filter after it, its answer and the keys it added. -/
def bloomStep (f : CBloomFilter) : BloomCall → Option (CBloomFilter × Bool × List Bytes)
  | .insert vKey => (f.insert vKey).map fun f => (f, true, [vKey])
  | .isRelevantAndUpdate tx hash =>
    (f.isRelevantAndUpdate tx hash).map fun r => (r.2.2, r.1, r.2.1)

namespace CBloomFilter

variable {f f' : CBloomFilter} {vKey : Bytes}

/-! ## Bits -/

theorem bitMask_ne_zero (nIndex : UInt32) : bitMask nIndex ≠ 0 := by
  have hlt : (7 &&& nIndex).toUInt8.toNat < 8 := by
    rw [UInt32.toNat_toUInt8, UInt32.toNat_and]
    exact (Nat.mod_le _ _).trans_lt (Nat.and_le_left.trans_lt (by decide))
  rw [bitMask]
  generalize (7 &&& nIndex).toUInt8 = x at hlt ⊢
  rw [← UInt8.ofNat_toNat (x := x)]
  generalize x.toNat = n at hlt
  interval_cases n <;> decide

theorem and_or_ne_zero {a b m : UInt8} (h : a &&& m ≠ 0) : (a ||| b) &&& m ≠ 0 := by
  have hdistrib : (a ||| b) &&& m = a &&& m ||| b &&& m :=
    UInt8.toBitVec_inj.mp BitVec.and_or_distrib_right
  rw [hdistrib]
  exact fun hzero => h (UInt8.or_eq_zero_iff.mp hzero).1

/-- Bits are only set, and the parameters stay. -/
structure Grows (f f' : CBloomFilter) : Prop where
  length : f'.vData.length = f.vData.length
  nHashFuncs : f'.nHashFuncs = f.nHashFuncs
  nTweak : f'.nTweak = f.nTweak
  nFlags : f'.nFlags = f.nFlags
  isFull : f'.isFull = f.isFull
  isEmpty : f'.isEmpty = true → f.isEmpty = true
  bits : ∀ nIndex, f.testBit nIndex = some true → f'.testBit nIndex = some true

theorem Grows.refl (f : CBloomFilter) : Grows f f := ⟨rfl, rfl, rfl, rfl, rfl, id, fun _ => id⟩

theorem Grows.trans {f₁ f₂ f₃ : CBloomFilter} (h : Grows f₁ f₂) (h' : Grows f₂ f₃) : Grows f₁ f₃ where
  length := h'.length.trans h.length
  nHashFuncs := h'.nHashFuncs.trans h.nHashFuncs
  nTweak := h'.nTweak.trans h.nTweak
  nFlags := h'.nFlags.trans h.nFlags
  isFull := h'.isFull.trans h.isFull
  isEmpty := fun he => h.isEmpty (h'.isEmpty he)
  bits := fun n hn => h'.bits n (h.bits n hn)

/-- A filter without data is full. -/
def WellFormed (f : CBloomFilter) : Prop := f.isFull = false → f.vData ≠ []

theorem updateEmptyFull_wellFormed (f : CBloomFilter) : f.updateEmptyFull.WellFormed := by
  intro hfull hdata
  have hnil : f.vData = [] := hdata
  simp [updateEmptyFull, hnil] at hfull

theorem Grows.wellFormed (h : Grows f f') (hf : f.WellFormed) : f'.WellFormed := by
  intro hfull hdata
  rw [h.isFull] at hfull
  have hlen := h.length
  rw [hdata, List.length_nil] at hlen
  exact hf hfull (List.length_eq_zero_iff.mp hlen.symm)

theorem Grows.hash_eq (h : Grows f f') (i : UInt32) (vKey : Bytes) : f'.hash i vKey = f.hash i vKey := by
  rw [hash, hash, h.nTweak, h.length]

theorem Grows.hashNums_eq (h : Grows f f') : f'.hashNums = f.hashNums := by
  rw [hashNums, hashNums, h.nHashFuncs]

/-- A hash is computed, and gives a bit in the data. -/
theorem hash_spec (hdata : f.vData ≠ []) (i : UInt32) (vKey : Bytes) :
    ∃ nIndex, f.hash i vKey = some nIndex ∧ (nIndex >>> 3).toNat < f.vData.length := by
  obtain ⟨h, hh⟩ := Option.isSome_iff_exists.mp
    (murmurHash3_isSome (i * 0xFBA4C795 + f.nTweak) vKey)
  have hpos : 0 < f.vData.length := List.length_pos_iff.mpr hdata
  refine ⟨_, by rw [hash, hh, Option.bind_eq_bind, Option.bind_some, if_neg (by omega)]; rfl, ?_⟩
  have hmod := Nat.mod_lt h.toNat (show f.vData.length * 8 > 0 by omega)
  have hle := (Nat.mod_le h.toNat (f.vData.length * 8)).trans_lt h.toNat_lt
  rw [UInt32.toNat_shiftRight, UInt32.toNat_ofNat_of_lt' hle, Nat.shiftRight_eq_div_pow]
  change _ / 8 < _
  omega

theorem testBit_eq {nIndex : UInt32} {b : UInt8} (h : f.vData[(nIndex >>> 3).toNat]? = some b) :
    f.testBit nIndex = some (decide (b &&& bitMask nIndex ≠ 0)) := by
  rw [testBit, h]
  rfl

/-- A bit in the data is set, and the others stay. -/
theorem setBit_spec {nIndex : UInt32} (hlt : (nIndex >>> 3).toNat < f.vData.length) :
    ∃ f', f.setBit nIndex = some f' ∧ Grows f f' ∧ f'.testBit nIndex = some true := by
  set b := f.vData[(nIndex >>> 3).toNat] with hb
  set f' := { f with vData := f.vData.set (nIndex >>> 3).toNat (b ||| bitMask nIndex) } with hf'
  have hget : f'.vData[(nIndex >>> 3).toNat]? = some (b ||| bitMask nIndex) :=
    List.getElem?_set_self hlt
  refine ⟨f', by rw [setBit, List.getElem?_eq_getElem hlt]; rfl,
    ⟨List.length_set, rfl, rfl, rfl, rfl, id, fun m hm => ?_⟩, ?_⟩
  · rw [testBit] at hm
    obtain ⟨b', hb', hmask⟩ := Option.bind_eq_some_iff.mp hm
    by_cases heq : (nIndex >>> 3).toNat = (m >>> 3).toNat
    · rw [← heq, List.getElem?_eq_getElem hlt] at hb'
      cases hb'
      rw [heq] at hget
      rw [testBit_eq hget, decide_eq_true (and_or_ne_zero (of_decide_eq_true (Option.some.inj hmask)))]
    · have hget' : f'.vData[(m >>> 3).toNat]? = some b' := (List.getElem?_set_ne heq).trans hb'
      rw [testBit_eq hget']
      exact hmask
  · have hne : bitMask nIndex &&& bitMask nIndex ≠ 0 := by
      rw [UInt8.and_self]
      exact bitMask_ne_zero nIndex
    rw [UInt8.or_comm] at hget
    rw [testBit_eq hget, decide_eq_true (and_or_ne_zero hne)]

/-! ## Keys -/

/-- The bits of the hashes of a key are set. -/
def HasBits (f : CBloomFilter) (vKey : Bytes) (is : List UInt32) : Prop :=
  ∀ i ∈ is, ∃ nIndex, f.hash i vKey = some nIndex ∧ f.testBit nIndex = some true

theorem Grows.hasBits {is : List UInt32} (h : Grows f f') (hbits : f.HasBits vKey is) :
    f'.HasBits vKey is := by
  intro i hi
  obtain ⟨nIndex, hhash, hbit⟩ := hbits i hi
  exact ⟨nIndex, (h.hash_eq i vKey).trans hhash, h.bits nIndex hbit⟩

theorem testBits_eq_true (f : CBloomFilter) (vKey : Bytes) : ∀ is : List UInt32,
    f.testBits vKey is = some true ↔ f.HasBits vKey is
  | [] => ⟨fun _ _ h => (List.not_mem_nil h).elim, fun _ => rfl⟩
  | i :: is => by
    rw [HasBits, List.forall_mem_cons, testBits]
    cases hhash : f.hash i vKey with
    | none => simp
    | some nIndex =>
      cases hbit : f.testBit nIndex with
      | none => simp [hbit]
      | some set =>
        cases set with
        | false => simp [hbit]
        | true => simpa [hbit, HasBits] using testBits_eq_true f vKey is

theorem testBits_isSome (hdata : f.vData ≠ []) : ∀ is : List UInt32, (f.testBits vKey is).isSome
  | [] => rfl
  | i :: is => by
    obtain ⟨nIndex, hhash, hlt⟩ := hash_spec hdata i vKey
    rw [testBits, hhash, Option.bind_eq_bind, Option.bind_some,
      testBit_eq (List.getElem?_eq_getElem hlt)]
    cases decide (f.vData[(nIndex >>> 3).toNat] &&& bitMask nIndex ≠ 0) with
    | false => rfl
    | true => exact testBits_isSome hdata is

/-- The loop of `insert` sets the bits of the key. -/
theorem setBits_spec (vKey : Bytes) : ∀ (is : List UInt32) {f : CBloomFilter}, f.vData ≠ [] →
    ∃ f', setBits vKey is f = some f' ∧ Grows f f' ∧ f'.HasBits vKey is
  | [], f, _ => ⟨f, rfl, .refl f, fun _ h => (List.not_mem_nil h).elim⟩
  | i :: is, f, hdata => by
    obtain ⟨nIndex, hhash, hlt⟩ := hash_spec hdata i vKey
    obtain ⟨f₁, hset, hgrows₁, hbit⟩ := setBit_spec hlt
    have hdata₁ : f₁.vData ≠ [] := by
      rw [← List.length_pos_iff, hgrows₁.length]
      exact List.length_pos_iff.mpr hdata
    obtain ⟨f', hrest, hgrows, hbits⟩ := setBits_spec vKey is hdata₁
    refine ⟨f', by rw [setBits, hhash, Option.bind_eq_bind, Option.bind_some, hset]; exact hrest,
      hgrows₁.trans hgrows, List.forall_mem_cons.mpr ⟨⟨nIndex, ?_, hgrows.bits nIndex hbit⟩, hbits⟩⟩
    rw [(hgrows₁.trans hgrows).hash_eq, hhash]

theorem contains_eq_true : f.contains vKey = some true ↔
    f.isFull = true ∨ (f.isEmpty = false ∧ f.HasBits vKey f.hashNums) := by
  rw [contains]
  cases hfull : f.isFull with
  | true => simp
  | false =>
    cases hempty : f.isEmpty with
    | true => simp
    | false => simpa using testBits_eq_true f vKey f.hashNums

theorem contains_isSome (hf : f.WellFormed) (vKey : Bytes) : (f.contains vKey).isSome := by
  rw [contains]
  split
  · rfl
  · rename_i hfull
    split
    · rfl
    · exact testBits_isSome (hf (Bool.eq_false_iff.mpr hfull)) _

/-- A key in a filter stays in it. -/
theorem Grows.contains (h : Grows f f') (hkey : f.contains vKey = some true) :
    f'.contains vKey = some true := by
  rw [contains_eq_true] at hkey ⊢
  rw [h.isFull, h.hashNums_eq]
  refine hkey.imp_right fun ⟨hempty, hbits⟩ => ⟨?_, h.hasBits hbits⟩
  exact Bool.eq_false_iff.mpr fun he => Bool.eq_false_iff.mp hempty (h.isEmpty he)

/-- An inserted key is in the filter. -/
theorem insert_spec (hf : f.WellFormed) (vKey : Bytes) :
    ∃ f', f.insert vKey = some f' ∧ Grows f f' ∧ f'.contains vKey = some true := by
  rw [insert]
  cases hfull : f.isFull with
  | true => exact ⟨f, rfl, .refl f, contains_eq_true.mpr (.inl hfull)⟩
  | false =>
    obtain ⟨f₁, hset, hgrows, hbits⟩ := setBits_spec vKey f.hashNums (hf hfull)
    have hgrows' : Grows f { f₁ with isEmpty := false } :=
      ⟨hgrows.length, hgrows.nHashFuncs, hgrows.nTweak, hgrows.nFlags, hgrows.isFull, nofun,
        hgrows.bits⟩
    refine ⟨{ f₁ with isEmpty := false }, by rw [if_neg Bool.false_ne_true, hset]; rfl, hgrows', ?_⟩
    refine contains_eq_true.mpr (.inr ⟨rfl, ?_⟩)
    rw [hgrows'.hashNums_eq]
    exact hbits

/-! ## Outputs and inputs that match -/

theorem matchesScript_isSome (hf : f.WellFormed) (pc : Bytes) : (f.matchesScript pc).isSome := by
  fun_induction matchesScript f pc with
  | case1 => rfl
  | case2 pc op pc' hop hne ih =>
    obtain ⟨found, hfound⟩ := Option.isSome_iff_exists.mp (contains_isSome hf op.vch)
    rw [hfound]
    cases found with
    | true => rfl
    | false => exact ih
  | case3 pc op pc' hop hne ih => exact ih

theorem updates_isSome (f : CBloomFilter) (scriptPubKey : Bytes) :
    (f.updates scriptPubKey).isSome := by
  obtain ⟨r, hr⟩ := Option.isSome_iff_exists.mp (solver_isSome scriptPubKey)
  rw [updates, hr]
  split
  · rfl
  · split <;> rfl

theorem matchesInputs_isSome (hf : f.WellFormed) : ∀ vin : List CTxIn, (f.matchesInputs vin).isSome
  | [] => rfl
  | txin :: vin => by
    obtain ⟨a, ha⟩ := Option.isSome_iff_exists.mp (contains_isSome hf txin.prevout.serialize)
    obtain ⟨b, hb⟩ := Option.isSome_iff_exists.mp (matchesScript_isSome hf txin.scriptSig)
    have ih := matchesInputs_isSome hf vin
    rw [matchesInputs, ha, Option.bind_eq_bind, Option.bind_some, hb]
    cases a with
    | true => rfl
    | false =>
      cases b with
      | true => rfl
      | false => exact ih

/-- An input whose outpoint is in the filter matches. -/
theorem matchesInputs_of_contains (hf : f.WellFormed) : ∀ {vin : List CTxIn} {txin : CTxIn},
    txin ∈ vin → f.contains txin.prevout.serialize = some true → f.matchesInputs vin = some true
  | a :: vin, txin, hmem, hkey => by
    obtain ⟨b, hb⟩ := Option.isSome_iff_exists.mp (contains_isSome hf a.prevout.serialize)
    obtain ⟨c, hc⟩ := Option.isSome_iff_exists.mp (matchesScript_isSome hf a.scriptSig)
    rw [matchesInputs, hb, Option.bind_eq_bind, Option.bind_some, hc]
    rcases List.mem_cons.mp hmem with rfl | hmem
    · rw [hkey] at hb
      cases hb
      rfl
    · cases b with
      | true => rfl
      | false =>
        cases c with
        | true => rfl
        | false => exact matchesInputs_of_contains hf hmem hkey

/-! ## Outputs that match are added -/

/-- The loop reaches an output with a filter that has data in its script. -/
def OutputMatched (f : CBloomFilter) (hash : UInt256) (i : ℕ) (vout : List CTxOut) (k : ℕ) : Prop :=
  ∃ txout r, vout[k]? = some txout ∧ matchOutputs hash i (vout.take k) f = some r ∧
    r.2.2.matchesScript txout.scriptPubKey = some true

theorem matchOutput_spec (hf : f.WellFormed) (hash : UInt256) (i : ℕ) (txout : CTxOut) :
    ∃ found added f', f.matchOutput hash i txout = some (found, added, f') ∧ Grows f f' ∧
      (∀ vKey ∈ added, f'.contains vKey = some true) ∧
      (f.matchesScript txout.scriptPubKey = some true → found = true ∧
        (f.nFlags &&& BLOOM_UPDATE_MASK = BLOOM_UPDATE_ALL →
          (COutPoint.mk hash (UInt32.ofNat i)).serialize ∈ added)) := by
  obtain ⟨found, hfound⟩ := Option.isSome_iff_exists.mp (matchesScript_isSome hf txout.scriptPubKey)
  obtain ⟨fUpdate, hupdate⟩ := Option.isSome_iff_exists.mp (updates_isSome f txout.scriptPubKey)
  obtain ⟨f', hins, hgrows, hkey⟩ :=
    insert_spec hf (COutPoint.mk hash (UInt32.ofNat i)).serialize
  simp only [matchOutput, hfound, hupdate, hins, Option.bind_eq_bind, Option.bind_some]
  cases found with
  | false => exact ⟨false, [], f, rfl, .refl f, fun _ h => (List.not_mem_nil h).elim, nofun⟩
  | true =>
    cases fUpdate with
    | false =>
      refine ⟨true, [], f, rfl, .refl f, fun _ h => (List.not_mem_nil h).elim,
        fun _ => ⟨rfl, fun hflags => ?_⟩⟩
      rw [updates, if_pos hflags] at hupdate
      cases hupdate
    | true =>
      refine ⟨true, [_], f', rfl, hgrows, fun vKey hmem => ?_, fun _ =>
        ⟨rfl, fun _ => List.mem_singleton_self _⟩⟩
      rw [List.mem_singleton.mp hmem]
      exact hkey

theorem matchOutputs_spec (hash : UInt256) : ∀ (vout : List CTxOut) (i : ℕ) {f : CBloomFilter},
    f.WellFormed → ∃ found added f', matchOutputs hash i vout f = some (found, added, f') ∧
      Grows f f' ∧ (∀ vKey ∈ added, f'.contains vKey = some true) ∧
      (f.nFlags &&& BLOOM_UPDATE_MASK = BLOOM_UPDATE_ALL → ∀ k, OutputMatched f hash i vout k →
        (COutPoint.mk hash (UInt32.ofNat (i + k))).serialize ∈ added)
  | [], i, f, _ => by
    refine ⟨false, [], f, rfl, .refl f, fun _ h => (List.not_mem_nil h).elim, ?_⟩
    rintro - k ⟨txout, r, hget, -⟩
    simp at hget
  | txout :: vout, i, f, hf => by
    obtain ⟨found, added, f₁, hone, hgrows₁, hkeys₁, hmatch⟩ := matchOutput_spec hf hash i txout
    obtain ⟨found', added', f', hrest, hgrows, hkeys, hall⟩ :=
      matchOutputs_spec hash vout (i + 1) (hgrows₁.wellFormed hf)
    refine ⟨found || found', added ++ added', f', by
        simp only [matchOutputs, hone, Option.bind_some, hrest, Option.map_some],
      hgrows₁.trans hgrows, fun vKey hmem => ?_, fun hflags k hmatched => ?_⟩
    · exact (List.mem_append.mp hmem).elim (fun h => hgrows.contains (hkeys₁ vKey h)) (hkeys vKey)
    · obtain ⟨txout', r, hget, hrun, hscript⟩ := hmatched
      cases k with
      | zero =>
        cases hget
        cases hrun
        exact List.mem_append_left _ ((hmatch hscript).2 hflags)
      | succ k =>
        rw [List.take_succ_cons, matchOutputs, hone, Option.bind_some] at hrun
        obtain ⟨r', hr', rfl⟩ := Option.map_eq_some_iff.mp hrun
        rw [← hgrows₁.nFlags] at hflags
        have h := hall hflags k ⟨txout', r', hget, hr', hscript⟩
        rw [Nat.add_right_comm] at h
        exact List.mem_append_right _ h

/-! ## Whether a transaction is relevant -/

theorem matchesScript_isEmpty (hfull : f.isFull = false) (hempty : f.isEmpty = true) (pc : Bytes) :
    f.matchesScript pc = some false := by
  fun_induction matchesScript f pc with
  | case1 => rfl
  | case2 pc op pc' hop hne ih =>
    have hcontains : f.contains op.vch = some false := by simp [contains, hfull, hempty]
    rw [hcontains]
    exact ih
  | case3 pc op pc' hop hne ih => exact ih

theorem matchOutputs_isEmpty (hash : UInt256) (hfull : f.isFull = false) (hempty : f.isEmpty = true) :
    ∀ (vout : List CTxOut) (i : ℕ), matchOutputs hash i vout f = some (false, [], f)
  | [], _ => rfl
  | txout :: vout, i => by
    rw [matchOutputs, matchOutput, matchesScript_isEmpty hfull hempty]
    simp [matchOutputs_isEmpty hash hfull hempty vout]

/-- Nothing matches an empty filter. -/
theorem not_outputMatched_isEmpty {hash : UInt256} {vout : List CTxOut} {k : ℕ}
    (hfull : f.isFull = false) (hempty : f.isEmpty = true) : ¬f.OutputMatched hash 0 vout k := by
  rintro ⟨txout, r, -, hrun, hscript⟩
  rw [matchOutputs_isEmpty hash hfull hempty] at hrun
  cases hrun
  rw [matchesScript_isEmpty hfull hempty] at hscript
  cases hscript

theorem isRelevantAndUpdate_spec (hf : f.WellFormed) (tx : CTransaction) (hash : UInt256) :
    ∃ r added f', f.isRelevantAndUpdate tx hash = some (r, added, f') ∧ Grows f f' ∧
      (∀ vKey ∈ added, f'.contains vKey = some true) ∧
      (f.nFlags &&& BLOOM_UPDATE_MASK = BLOOM_UPDATE_ALL → ∀ k, OutputMatched f hash 0 tx.vout k →
        f'.contains (COutPoint.mk hash (UInt32.ofNat k)).serialize = some true) := by
  rw [isRelevantAndUpdate]
  cases hfull : f.isFull with
  | true =>
    refine ⟨true, [], f, rfl, .refl f, fun _ h => (List.not_mem_nil h).elim, fun _ _ _ => ?_⟩
    exact contains_eq_true.mpr (.inl hfull)
  | false =>
    cases hempty : f.isEmpty with
    | true =>
      refine ⟨false, [], f, rfl, .refl f, fun _ h => (List.not_mem_nil h).elim, fun _ k hk => ?_⟩
      exact absurd hk (not_outputMatched_isEmpty hfull hempty)
    | false =>
      obtain ⟨fHash, hhash⟩ := Option.isSome_iff_exists.mp (contains_isSome hf (serializeUInt256 hash))
      obtain ⟨fOutput, added, f', hrun, hgrows, hkeys, hall⟩ := matchOutputs_spec hash tx.vout 0 hf
      obtain ⟨fInput, hin⟩ :=
        Option.isSome_iff_exists.mp (matchesInputs_isSome (hgrows.wellFormed hf) tx.vin)
      have hmatched : f.nFlags &&& BLOOM_UPDATE_MASK = BLOOM_UPDATE_ALL → ∀ k,
          OutputMatched f hash 0 tx.vout k →
          f'.contains (COutPoint.mk hash (UInt32.ofNat k)).serialize = some true := fun hflags k hk => by
        have h := hall hflags k hk
        rw [Nat.zero_add] at h
        exact hkeys _ h
      simp only [hhash, hrun, hin, Option.bind_eq_bind, Option.bind_some, Bool.false_eq_true, if_false]
      split
      · exact ⟨true, added, f', rfl, hgrows, hkeys, hmatched⟩
      · exact ⟨fInput, added, f', rfl, hgrows, hkeys, hmatched⟩

/-- A transaction that spends an outpoint in the filter is relevant. -/
theorem isRelevantAndUpdate_of_contains (hf : f.WellFormed) {tx : CTransaction} {txin : CTxIn}
    (hash : UInt256) (hmem : txin ∈ tx.vin) (hkey : f.contains txin.prevout.serialize = some true) :
    (f.isRelevantAndUpdate tx hash).map (·.1) = some true := by
  rw [isRelevantAndUpdate]
  cases hfull : f.isFull with
  | true => rfl
  | false =>
    rcases contains_eq_true.mp hkey with h | ⟨hempty, -⟩
    · rw [hfull] at h
      cases h
    obtain ⟨fHash, hhash⟩ := Option.isSome_iff_exists.mp (contains_isSome hf (serializeUInt256 hash))
    obtain ⟨fOutput, added, f', hrun, hgrows, -, -⟩ := matchOutputs_spec hash tx.vout 0 hf
    have hin := matchesInputs_of_contains (hgrows.wellFormed hf) hmem (hgrows.contains hkey)
    simp only [hempty, hhash, hrun, hin, Option.bind_eq_bind, Option.bind_some, Bool.false_eq_true,
      if_false]
    split <;> rfl

end CBloomFilter

/-! ## Sessions -/

open CBloomFilter

/-- A call grows the filter, and the keys it added are in it. -/
theorem bloomStep_spec {f : CBloomFilter} (hf : f.WellFormed) (call : BloomCall) :
    ∃ f' r added, bloomStep f call = some (f', r, added) ∧ f.Grows f' ∧
      ∀ vKey ∈ added, f'.contains vKey = some true := by
  cases call with
  | insert vKey =>
    obtain ⟨f', hins, hgrows, hkey⟩ := insert_spec hf vKey
    refine ⟨f', true, [vKey], by rw [bloomStep, hins]; rfl, hgrows, fun key hmem => ?_⟩
    rw [List.mem_singleton.mp hmem]
    exact hkey
  | isRelevantAndUpdate tx hash =>
    obtain ⟨r, added, f', hrun, hgrows, hkeys, -⟩ := isRelevantAndUpdate_spec hf tx hash
    exact ⟨f', r, added, by rw [bloomStep, hrun]; rfl, hgrows, hkeys⟩

theorem bloomRun_spec : ∀ (calls : List BloomCall) {f : CBloomFilter}, f.WellFormed →
    ∃ f' outs, Machine.run bloomStep f calls = some (f', outs) ∧ f.Grows f' ∧
      ∀ out ∈ outs, ∀ vKey ∈ out.2, f'.contains vKey = some true
  | [], f, _ => ⟨f, [], rfl, .refl f, fun _ h => (List.not_mem_nil h).elim⟩
  | call :: calls, f, hf => by
    obtain ⟨f₁, r, added, hstep, hgrows₁, hkeys₁⟩ := bloomStep_spec hf call
    obtain ⟨f', outs, hrun, hgrows, hkeys⟩ := bloomRun_spec calls (hgrows₁.wellFormed hf)
    refine ⟨f', (r, added) :: outs, Machine.run_cons_of_eq_some hstep hrun, hgrows₁.trans hgrows,
      List.forall_mem_cons.mpr ⟨fun vKey hmem => ?_, hkeys⟩⟩
    exact hgrows.contains (hkeys₁ vKey hmem)

/-- A filter loaded from a message, and any calls : no call computes a modulus by zero or
reads outside of the data, every key added is in the filter, and where matched outputs are
added a later transaction that spends one is relevant. -/
theorem bloomSession (vRecv : Bytes) (f : CBloomFilter) (hload : filterLoad vRecv = .ok (some f))
    (calls : List BloomCall) :
    ∃ f' outs, Machine.run bloomStep f calls = some (f', outs) ∧
      (∀ out ∈ outs, ∀ vKey ∈ out.2, f'.contains vKey = some true) ∧
      (f.nFlags &&& BLOOM_UPDATE_MASK = BLOOM_UPDATE_ALL →
        ∀ (tx : CTransaction) (hash : UInt256) (k : ℕ), f'.OutputMatched hash 0 tx.vout k →
          ∀ middle : List BloomCall,
            ∃ f'' outs', Machine.run bloomStep f' (.isRelevantAndUpdate tx hash :: middle) =
                some (f'', outs') ∧
              ∀ (tx' : CTransaction) (hash' : UInt256),
                (∃ txin ∈ tx'.vin, txin.prevout = ⟨hash, UInt32.ofNat k⟩) →
                (f''.isRelevantAndUpdate tx' hash').map (·.1) = some true) := by
  have hf : f.WellFormed := by
    rw [filterLoad] at hload
    cases hread : CBloomFilter.unserialize vRecv with
    | error e => simp [hread, bind, Except.bind] at hload
    | ok r =>
      simp only [hread, bind, Except.bind, pure, Except.pure, Except.ok.injEq] at hload
      split at hload
      · cases hload
        exact updateEmptyFull_wellFormed _
      · cases hload
  obtain ⟨f', outs, hrun, hgrows, hkeys⟩ := bloomRun_spec calls hf
  refine ⟨f', outs, hrun, hkeys, fun hflags tx hash k hmatched middle => ?_⟩
  have hf' := hgrows.wellFormed hf
  rw [← hgrows.nFlags] at hflags
  obtain ⟨r, added, f₁, hrel, hgrows₁, -, hall⟩ := isRelevantAndUpdate_spec hf' tx hash
  obtain ⟨f'', outs', hrun', hgrows', -⟩ := bloomRun_spec middle (hgrows₁.wellFormed hf')
  have hstep : bloomStep f' (.isRelevantAndUpdate tx hash) = some (f₁, r, added) := by
    rw [bloomStep, hrel]
    rfl
  refine ⟨f'', _, Machine.run_cons_of_eq_some hstep hrun', fun tx' hash' ⟨txin, hmem, hprev⟩ => ?_⟩
  refine isRelevantAndUpdate_of_contains (hgrows'.wellFormed (hgrows₁.wellFormed hf')) hash' hmem ?_
  rw [hprev]
  exact hgrows'.contains (hall hflags k hmatched)

/-- The message of a filter of two bytes with three hashes, which adds matched outputs. -/
def sampleFilterLoad : Bytes := [2, 0, 0x10, 3, 0, 0, 0, 7, 0, 0, 0, 1]

/-- The filter the message is read as. -/
def sampleFilter : CBloomFilter := ⟨[0, 0x10], false, false, 3, 7, BLOOM_UPDATE_ALL⟩

/-- A session of a filter to which one key is added. -/
theorem bloomSession_sample :
    ∃ f' outs, Machine.run bloomStep sampleFilter [.insert [1, 2, 3]] = some (f', outs) ∧
      (∀ out ∈ outs, ∀ vKey ∈ out.2, f'.contains vKey = some true) ∧
      (sampleFilter.nFlags &&& BLOOM_UPDATE_MASK = BLOOM_UPDATE_ALL →
        ∀ (tx : CTransaction) (hash : UInt256) (k : ℕ), f'.OutputMatched hash 0 tx.vout k →
          ∀ middle : List BloomCall,
            ∃ f'' outs', Machine.run bloomStep f' (.isRelevantAndUpdate tx hash :: middle) =
                some (f'', outs') ∧
              ∀ (tx' : CTransaction) (hash' : UInt256),
                (∃ txin ∈ tx'.vin, txin.prevout = ⟨hash, UInt32.ofNat k⟩) →
                (f''.isRelevantAndUpdate tx' hash').map (·.1) = some true) :=
  bloomSession sampleFilterLoad sampleFilter (by decide) _

end Ticoin
