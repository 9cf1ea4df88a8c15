import Ticoin.Coins
import Ticoin.Compressor

/-!
# The records of coins and undo data

A `CCoins` is written as its version, a code, a bit mask, its outputs that are not null, and its
height. The code carries the coinbase flag, the presence of the first two outputs, and the number
of nonzero bytes of the mask over the others, less one when the first two are both absent.
`CalcMaskSize` counts the bytes of the mask up to the last nonzero one, and the nonzero ones; the
reader reads bytes until it has seen as many of them.

A record is read back (`reads_coins`, `CTxInUndo.reads`) if its versions and heights are not
negative, its amounts are valid and its sizes fit into an `unsigned int`; `coin_records` says so
of the coins and of the undo data made by `Spend`. A negative version is not read back, nor is a
script so long that its size field overflows (`coin_records_limits`).
-/

namespace Ticoin

open Codec

/-- An `int` read from a number of 32 bits. -/
def intOf (n : ℕ) : Int32 := (UInt32.ofNat n).toInt32

/-! ## Bit masks -/

/-- A byte of the mask, from its flags. -/
def packByte (fAvail : ℕ → Bool) : UInt8 :=
  (List.range 8).foldl (fun chAvail i => if fAvail i then chAvail ||| (1 <<< UInt8.ofNat i) else chAvail) 0

/-- The flags of a byte of the mask. -/
def byteFlags (chAvail : UInt8) : List Bool :=
  (List.range 8).map fun p => chAvail &&& (1 <<< UInt8.ofNat p) != 0

theorem packByte_spec (fAvail : ℕ → Bool) : byteFlags (packByte fAvail) = (List.range 8).map fAvail ∧
    (packByte fAvail = 0 ↔ (List.range 8).any fAvail = false) := by
  have hrange : List.range 8 = [0, 1, 2, 3, 4, 5, 6, 7] := rfl
  simp only [byteFlags, packByte, hrange, List.foldl_cons, List.foldl_nil, List.map_cons,
    List.map_nil, List.any_cons, List.any_nil]
  generalize fAvail 0 = b0, fAvail 1 = b1, fAvail 2 = b2, fAvail 3 = b3, fAvail 4 = b4,
    fAvail 5 = b5, fAvail 6 = b6, fAvail 7 = b7
  revert b0 b1 b2 b3 b4 b5 b6 b7
  decide

/-- Read the mask until a number of nonzero bytes have been seen. -/
def readMask : ℕ → Bytes → Except String (List Bool × Bytes)
  | 0, s => .ok ([], s)
  | _ + 1, [] => .error endOfData
  | nMaskCode + 1, chAvail :: s =>
    (readMask (if chAvail ≠ 0 then nMaskCode else nMaskCode + 1) s).map fun r =>
      (byteFlags chAvail ++ r.1, r.2)

/-- A mask whose last byte is not zero is read by the number of its nonzero bytes. -/
theorem reads_mask : ∀ {mask : Bytes}, (∀ c, mask.getLast? = some c → c ≠ 0) →
    Reads (readMask (mask.countP (· ≠ 0))) mask (mask.flatMap byteFlags)
  | [], _ => fun rest => by
    rw [List.countP_nil, readMask]
    rfl
  | c :: mask, h => fun rest => by
    have hrest : ∀ d, mask.getLast? = some d → d ≠ 0 := by
      intro d hd
      refine h d ?_
      rw [List.getLast?_cons, hd]
      rfl
    have ih := reads_mask hrest rest
    by_cases hc : c ≠ 0
    · rw [List.countP_cons_of_pos (by simpa using hc), List.cons_append, readMask, if_pos hc, ih]
      rfl
    · -- a zero byte is not the last, so that a nonzero one is still to come
      have hpos : mask.countP (· ≠ 0) ≠ 0 := by
        cases hlast : mask.getLast? with
        | none =>
          rw [List.getLast?_eq_none_iff] at hlast
          exact absurd (h c (by rw [hlast]; rfl)) hc
        | some d =>
          intro hzero
          have hd := List.countP_eq_zero.mp hzero d (List.mem_of_getLast? hlast)
          exact hd (by simpa using hrest d hlast)
      obtain ⟨k, hk⟩ := Nat.exists_eq_succ_of_ne_zero hpos
      rw [List.countP_cons_of_neg (by simpa using hc), hk, List.cons_append, readMask, if_neg hc,
        ← Nat.succ_eq_add_one, ← hk, ih]
      rfl

/-! ## CCoins -/

namespace CCoins

variable (curve : KeyCurve) (coins : CCoins)

/-- The flags of a byte of the mask : the outputs it stands for, after the first two. -/
def maskFlags (b i : ℕ) : Bool := coins.isAvailable (2 + b * 8 + i)

/-- `CalcMaskSize` : the bytes of the mask up to the last one that is not zero, and the number of
those not zero. -/
def calcMaskSize : ℕ × ℕ :=
  (List.range ((coins.vout.length + 5) / 8)).foldl (fun r b =>
    if (List.range 8).any (coins.maskFlags b) then (b + 1, r.2 + 1) else r) (0, 0)

def fFirst : Bool := coins.isAvailable 0
def fSecond : Bool := coins.isAvailable 1

/-- The code, an `unsigned int`. -/
def nCode : ℕ :=
  (8 * (coins.calcMaskSize.2 - if coins.fFirst || coins.fSecond then 0 else 1) +
    (if coins.fCoinBase then 1 else 0) + (if coins.fFirst then 2 else 0) +
    if coins.fSecond then 4 else 0) % 2 ^ 32

/-- `GetSerializeSize`; it fails an assertion without an output. -/
def getSerializeSize : Option UInt32 :=
  if coins.fFirst || coins.fSecond || coins.calcMaskSize.2 != 0 then
    some (UInt32.ofNat (sizeOfSignedVarInt coins.nVersion.toInt) +
      UInt32.ofNat (sizeOfVarInt coins.nCode) + UInt32.ofNat coins.calcMaskSize.1 +
      ((coins.vout.filter fun txout => !txout.isNull).map
        (CTxOutCompressor.getSerializeSize curve)).sum +
      UInt32.ofNat (sizeOfSignedVarInt coins.nHeight))
  else none

/-- `Serialize`; it fails an assertion without an output. -/
def serialize : Option Bytes :=
  if coins.fFirst || coins.fSecond || coins.calcMaskSize.2 != 0 then
    some (writeSignedVarInt coins.nVersion.toInt ++ (writeVarInt coins.nCode ++
      ((List.range coins.calcMaskSize.1).map (fun b => packByte (coins.maskFlags b)) ++
        ((coins.vout.filter fun txout => !txout.isNull).flatMap (CTxOutCompressor.serialize curve) ++
          writeSignedVarInt coins.nHeight))))
  else none

/-- Read the outputs that are available; the others are null. -/
def readOutputs : List Bool → Reader (List CTxOut)
  | [] => pure []
  | f :: vAvail => do
    let txout ← if f then CTxOutCompressor.unserialize curve else pure CTxOut.null
    let vout ← readOutputs vAvail
    pure (txout :: vout)

def unserialize : Reader CCoins := do
  let nVersion ← readVarInt endOfData 32
  let nCode ← readVarInt endOfData 32
  let vMask ← readMask (nCode / 8 + if nCode &&& 6 ≠ 0 then 0 else 1)
  let vout ← readOutputs curve ((nCode &&& 2 != 0) :: (nCode &&& 4 != 0) :: vMask)
  let nHeight ← readVarInt endOfData 32
  pure (cleanup ⟨nCode &&& 1 != 0, vout, (intOf nHeight).toInt, intOf nVersion⟩)

/-- A record of coins as they come : an output is left, the last output is not null, version and
height are not negative, and an output is null or of a valid amount. -/
structure Good : Prop where
  not_pruned : coins.isPruned = false
  cleaned : ∀ txout, coins.vout.getLast? = some txout → txout.isNull = false
  height : 0 ≤ coins.nHeight ∧ coins.nHeight < 2 ^ 31
  version : 0 ≤ coins.nVersion.toInt
  amounts : ∀ txout ∈ coins.vout, txout = CTxOut.null ∨ MoneyRange txout.nValue.toInt

/-- The code and the size fields of scripts do not overflow. -/
structure SizesFit : Prop where
  vout : coins.vout.length + nSpecialScripts ≤ 2 ^ 32
  scripts : ∀ txout ∈ coins.vout, txout.scriptPubKey.length + nSpecialScripts < 2 ^ 32

variable {curve coins}

/-! ### The mask -/

/-- The loop of `CalcMaskSize` over the first bytes. -/
theorem foldl_maskSize (fAvail : ℕ → ℕ → Bool) (n : ℕ) : ∃ nBytes,
    (List.range n).foldl (fun (r : ℕ × ℕ) b =>
        if (List.range 8).any (fAvail b) then (b + 1, r.2 + 1) else r) (0, 0) =
      (nBytes, ((List.range n).map fun b => packByte (fAvail b)).countP (· ≠ 0)) ∧
    nBytes ≤ n ∧ (∀ b, nBytes ≤ b → b < n → packByte (fAvail b) = 0) ∧
    ∀ b, nBytes = b + 1 → packByte (fAvail b) ≠ 0 := by
  induction n with
  | zero => exact ⟨0, rfl, le_rfl, fun b _ hb => absurd hb (Nat.not_lt_zero b), nofun⟩
  | succ n ih =>
    obtain ⟨nBytes, hfold, hle, hzero, hlast⟩ := ih
    rw [show List.range (n + 1) = List.range n ++ [n] from List.range_succ, List.foldl_append, hfold,
      List.map_append, List.countP_append]
    have hbyte := (packByte_spec (fAvail n)).2
    by_cases hany : (List.range 8).any (fAvail n) = true
    · have hne : packByte (fAvail n) ≠ 0 := fun h => by
        rw [hbyte.mp h] at hany
        cases hany
      refine ⟨n + 1, ?_, le_rfl, fun b hb hlt => absurd hlt (not_lt.mpr hb), ?_⟩
      · rw [List.foldl_cons, List.foldl_nil, if_pos hany, List.map_singleton, List.countP_singleton,
          if_pos (by simpa using hne)]
      · rintro b hb
        rwa [show b = n by omega]
    · have heq : packByte (fAvail n) = 0 := hbyte.mpr (Bool.eq_false_iff.mpr hany)
      refine ⟨nBytes, ?_, Nat.le_succ_of_le hle, fun b hb hlt => ?_, hlast⟩
      · rw [List.foldl_cons, List.foldl_nil, if_neg hany, List.map_singleton, List.countP_singleton,
          if_neg (by simpa using heq), Nat.add_zero]
      · rcases Nat.lt_succ_iff_lt_or_eq.mp hlt with hlt | rfl
        · exact hzero b hb hlt
        · exact heq

/-- The flags of a byte that is zero. -/
theorem flags_of_packByte_eq_zero {fAvail : ℕ → Bool} (h : packByte fAvail = 0) {i : ℕ} (hi : i < 8) :
    fAvail i = false := by
  have hany := (packByte_spec fAvail).2.mp h
  rw [List.any_eq_false] at hany
  simpa using hany i (List.mem_range.mpr hi)

/-- The bytes of the mask that are written. -/
def mask (coins : CCoins) : Bytes :=
  (List.range coins.calcMaskSize.1).map fun b => packByte (coins.maskFlags b)

/-- `CalcMaskSize` counts the bytes of the mask : the last one is not zero, and the outputs after
it are all spent. -/
theorem calcMaskSize_spec (coins : CCoins) : coins.calcMaskSize.1 ≤ (coins.vout.length + 5) / 8 ∧
    (∀ c, coins.mask.getLast? = some c → c ≠ 0) ∧
    coins.mask.countP (· ≠ 0) = coins.calcMaskSize.2 ∧
    ∀ i, 2 + coins.calcMaskSize.1 * 8 ≤ i → coins.isAvailable i = false := by
  obtain ⟨nBytes, hfold, hle, hzero, hlast⟩ :=
    foldl_maskSize coins.maskFlags ((coins.vout.length + 5) / 8)
  have hsize : coins.calcMaskSize = _ := hfold
  rw [mask, hsize]
  refine ⟨hle, fun c hc => ?_, ?_, fun i hi => ?_⟩
  · cases nBytes with
    | zero => cases hc
    | succ b =>
      rw [List.range_succ, List.map_append, List.map_singleton, List.getLast?_concat,
        Option.some.injEq] at hc
      exact hc ▸ hlast b rfl
  · -- the bytes after the last one written are zero
    obtain ⟨k, hk⟩ := Nat.exists_eq_add_of_le hle
    have hrest : (((List.range k).map (nBytes + ·)).map fun b =>
        packByte (coins.maskFlags b)).countP (· ≠ 0) = 0 := by
      refine List.countP_eq_zero.mpr fun c hc => ?_
      rw [List.map_map] at hc
      obtain ⟨j, hj, rfl⟩ := List.mem_map.mp hc
      have hj := List.mem_range.mp hj
      simpa using hzero (nBytes + j) (by omega) (by omega)
    dsimp only
    rw [hk, List.range_add, List.map_append, List.countP_append, hrest, Nat.add_zero]
  · dsimp only at hi
    by_cases hlen : i < coins.vout.length
    · have hflag := flags_of_packByte_eq_zero (hzero ((i - 2) / 8) (by omega) (by omega))
        (Nat.mod_lt (i - 2) (by decide))
      rwa [maskFlags, show 2 + (i - 2) / 8 * 8 + (i - 2) % 8 = i by omega] at hflag
    · rw [isAvailable, List.getElem?_eq_none (by omega)]

/-- The flags read are those of the outputs, in order. -/
theorem flags_eq (coins : CCoins) : coins.fFirst :: coins.fSecond :: coins.mask.flatMap byteFlags =
    (List.range (2 + coins.calcMaskSize.1 * 8)).map coins.isAvailable := by
  rw [List.range_add, List.map_append, mask]
  have hrest : ∀ n, ((List.range n).map fun b => packByte (coins.maskFlags b)).flatMap byteFlags =
      ((List.range (n * 8)).map (2 + ·)).map coins.isAvailable := by
    intro n
    induction n with
    | zero => rfl
    | succ n ih =>
      rw [List.range_succ, List.map_append, List.flatMap_append, ih, Nat.succ_mul, List.range_add,
        List.map_append, List.map_append, List.map_singleton, List.flatMap_singleton,
        (packByte_spec _).1]
      simp only [List.map_map, Function.comp_def]
      exact congrArg _ (List.map_congr_left fun i _ => by rw [maskFlags, Nat.add_assoc])
  rw [hrest]
  rfl

/-! ### The outputs -/

/-- The outputs are read back, with the null ones between them. -/
theorem reads_outputs (hcurve : curve.Inverts) : ∀ {vout : List CTxOut},
    (∀ txout ∈ vout, txout = CTxOut.null ∨ MoneyRange txout.nValue.toInt ∧
      txout.scriptPubKey.length + nSpecialScripts < 2 ^ 32) →
    Reads (readOutputs curve (vout.map fun txout => !txout.isNull))
      ((vout.filter fun txout => !txout.isNull).flatMap (CTxOutCompressor.serialize curve)) vout
  | [], _ => Reads.pure []
  | txout :: vout, h => by
    have hrest := reads_outputs hcurve fun x hx => h x (List.mem_cons_of_mem txout hx)
    rcases h txout List.mem_cons_self with rfl | ⟨hvalue, hsize⟩
    · rw [List.map_cons, List.filter_cons_of_neg (by rw [CTxOut.isNull_null]; exact Bool.false_ne_true),
        readOutputs, if_neg (by rw [CTxOut.isNull_null]; exact Bool.false_ne_true)]
      exact (hrest.map (CTxOut.null :: ·)).pure_bind
    · have hnull : txout.isNull = false := by
        rw [CTxOut.isNull, beq_eq_false_iff_ne]
        intro heq
        rw [heq] at hvalue
        exact absurd hvalue.1 (by decide)
      rw [List.map_cons, List.filter_cons_of_pos (by rw [hnull]; rfl), readOutputs,
        if_pos (by rw [hnull]; rfl), List.flatMap_cons]
      exact (CTxOutCompressor.reads hcurve hvalue hsize).bind (hrest.map (txout :: ·))

/-- `Cleanup` drops null outputs at the end, and no others. -/
theorem rdropWhile_append_null {vout : List CTxOut}
    (h : ∀ txout, vout.getLast? = some txout → txout.isNull = false) (k : ℕ) :
    (vout ++ List.replicate k CTxOut.null).rdropWhile CTxOut.isNull = vout := by
  induction k with
  | zero =>
    rw [List.replicate_zero, List.append_nil, List.rdropWhile_eq_self_iff]
    intro hne hnull
    rw [h _ (List.getLast?_eq_some_getLast hne)] at hnull
    cases hnull
  | succ k ih =>
    rw [List.replicate_succ', ← List.append_assoc, List.rdropWhile_concat_pos _ _ _ CTxOut.isNull_null,
      ih]

/-- The outputs, with null ones up to the end of the mask, are available as the flags say. -/
theorem flags_of_vout (h : coins.Good) :
    ∃ k, coins.fFirst :: coins.fSecond :: coins.mask.flatMap byteFlags =
      (coins.vout ++ List.replicate k CTxOut.null).map fun txout => !txout.isNull := by
  obtain ⟨-, -, -, hspent⟩ := coins.calcMaskSize_spec
  have hlen : coins.vout.length ≤ 2 + coins.calcMaskSize.1 * 8 := by
    by_contra hgt
    have hlt : coins.vout.length - 1 < coins.vout.length := by omega
    have hnull := h.cleaned coins.vout[coins.vout.length - 1] (by
      rw [List.getLast?_eq_getElem?, List.getElem?_eq_getElem hlt])
    have hav := hspent (coins.vout.length - 1) (by omega)
    rw [isAvailable, List.getElem?_eq_getElem hlt] at hav
    simp [hnull] at hav
  refine ⟨2 + coins.calcMaskSize.1 * 8 - coins.vout.length, ?_⟩
  rw [flags_eq]
  refine List.ext_getElem? fun i => ?_
  rw [List.getElem?_map, List.getElem?_map]
  by_cases hi : i < 2 + coins.calcMaskSize.1 * 8
  · rw [List.getElem?_range hi, Option.map_some, isAvailable]
    by_cases hv : i < coins.vout.length
    · rw [List.getElem?_append_left hv, List.getElem?_eq_getElem hv]
      rfl
    · rw [List.getElem?_eq_none (by omega), List.getElem?_append_right (by omega),
        List.getElem?_replicate_of_lt (by omega)]
      rfl
  · rw [List.getElem?_eq_none (by rw [List.length_range]; omega), List.getElem?_eq_none (by
      rw [List.length_append, List.length_replicate]
      omega)]
    rfl

/-! ### The code -/

theorem and_of_lt_eight {m : ℕ} (hm : m < 8) (n : ℕ) : n &&& m = n % 8 &&& m := by
  have hle : n &&& m < 2 ^ 3 := lt_of_le_of_lt Nat.and_le_right hm
  rw [← Nat.mod_eq_of_lt hle, Nat.and_mod_two_pow, Nat.mod_eq_of_lt (show m < 2 ^ 3 from hm)]

/-- The code is taken apart again. -/
theorem code_spec (K : ℕ) (c a b : Bool) :
    let nCode := 8 * K + (if c then 1 else 0) + (if a then 2 else 0) + if b then 4 else 0
    nCode / 8 = K ∧ (nCode &&& 1 != 0) = c ∧ (nCode &&& 2 != 0) = a ∧ (nCode &&& 4 != 0) = b ∧
      (nCode &&& 6 ≠ 0 ↔ (a || b) = true) := by
  intro nCode
  have hmod : nCode % 8 = (if c then 1 else 0) + (if a then 2 else 0) + if b then 4 else 0 := by
    cases c <;> cases a <;> cases b <;> simp [nCode] <;> omega
  rw [and_of_lt_eight (by decide) nCode, and_of_lt_eight (by decide) nCode,
    and_of_lt_eight (by decide) nCode, and_of_lt_eight (by decide) nCode, hmod]
  refine ⟨?_, ?_⟩
  · cases c <;> cases a <;> cases b <;> simp [nCode] <;> omega
  · clear hmod nCode
    revert c a b
    decide

/-- The number of nonzero bytes is read back, if there is an output, and it does not overflow. -/
theorem nCode_spec (hout : (coins.fFirst || coins.fSecond || coins.calcMaskSize.2 != 0) = true)
    (hfit : coins.vout.length + nSpecialScripts ≤ 2 ^ 32) :
    coins.nCode < 2 ^ 32 ∧
      coins.nCode / 8 + (if coins.nCode &&& 6 ≠ 0 then 0 else 1) = coins.calcMaskSize.2 ∧
      (coins.nCode &&& 1 != 0) = coins.fCoinBase ∧ (coins.nCode &&& 2 != 0) = coins.fFirst ∧
      (coins.nCode &&& 4 != 0) = coins.fSecond := by
  obtain ⟨hbytes, -, hcount, -⟩ := coins.calcMaskSize_spec
  have hle : coins.calcMaskSize.2 ≤ coins.calcMaskSize.1 := by
    rw [← hcount]
    refine List.countP_le_length.trans ?_
    rw [mask, List.length_map, List.length_range]
  rw [nSpecialScripts] at hfit
  obtain ⟨K, hK⟩ : ∃ K, K = coins.calcMaskSize.2 - if coins.fFirst || coins.fSecond then 0 else 1 :=
    ⟨_, rfl⟩
  obtain ⟨hdiv, h1, h2, h4, h6⟩ := code_spec K coins.fCoinBase coins.fFirst coins.fSecond
  have hcode : coins.nCode = 8 * K + (if coins.fCoinBase then 1 else 0) +
      (if coins.fFirst then 2 else 0) + if coins.fSecond then 4 else 0 := by
    rw [nCode, ← hK, Nat.mod_eq_of_lt]
    have hKle : K ≤ coins.calcMaskSize.2 := hK ▸ Nat.sub_le _ _
    have hflags : (if coins.fCoinBase then 1 else 0) + (if coins.fFirst then 2 else 0) +
        (if coins.fSecond then 4 else 0) ≤ 7 := by
      split <;> split <;> split <;> decide
    omega
  have hlt : coins.nCode < 2 ^ 32 := by
    rw [nCode]
    exact Nat.mod_lt _ (by decide)
  rw [← hcode] at hdiv h1 h2 h4 h6
  refine ⟨hlt, ?_, h1, h2, h4⟩
  rw [hdiv, hK]
  by_cases hfirst : (coins.fFirst || coins.fSecond) = true
  · rw [if_pos hfirst, if_pos (h6.mpr hfirst)]
    rfl
  · rw [if_neg hfirst, if_neg fun h => hfirst (h6.mp h)]
    rw [Bool.not_eq_true] at hfirst
    rw [hfirst, Bool.false_or, bne_iff_ne] at hout
    omega

/-- Coins that are not pruned have an output. -/
theorem some_output (h : coins.isPruned = false) :
    (coins.fFirst || coins.fSecond || coins.calcMaskSize.2 != 0) = true := by
  obtain ⟨-, -, hcount, hspent⟩ := coins.calcMaskSize_spec
  by_contra hno
  rw [Bool.not_eq_true, Bool.or_eq_false_iff, Bool.or_eq_false_iff, bne_eq_false_iff_eq] at hno
  obtain ⟨⟨hfirst, hsecond⟩, hmask⟩ := hno
  -- no byte of the mask is not zero, so none is written
  have hnil : coins.calcMaskSize.1 = 0 := by
    by_contra hne
    obtain ⟨-, hlast, -, -⟩ := coins.calcMaskSize_spec
    cases hl : coins.mask.getLast? with
    | none =>
      have hlen := congrArg List.length (List.getLast?_eq_none_iff.mp hl)
      rw [mask, List.length_map, List.length_range] at hlen
      exact hne hlen
    | some c =>
      rw [hmask] at hcount
      exact List.countP_eq_zero.mp hcount c (List.mem_of_getLast? hl) (by simpa using hlast c hl)
  have hall : ∀ i, coins.isAvailable i = false := by
    rintro (_ | _ | i)
    · exact hfirst
    · exact hsecond
    · exact hspent _ (by omega)
  have hpruned : coins.isPruned = true := by
    rw [isPruned, List.all_eq_true]
    intro txout hmem
    obtain ⟨i, hi⟩ := List.mem_iff_getElem?.mp hmem
    have hav := hall i
    rw [isAvailable, hi] at hav
    simpa using hav
  rw [h] at hpruned
  cases hpruned

/-! ### The records of coins -/

theorem reads_int {n : ℤ} (h : 0 ≤ n) (hlt : n < 2 ^ 31) :
    Reads (readVarInt endOfData 32) (writeSignedVarInt n) n.toNat ∧ (intOf n.toNat).toInt = n := by
  rw [writeSignedVarInt_of_nonneg h]
  refine ⟨reads_varInt endOfData (by omega), ?_⟩
  change (BitVec.ofNat 32 n.toNat).toInt = n
  rw [BitVec.toInt_eq_toNat_cond, BitVec.toNat_ofNat, Nat.mod_eq_of_lt (by omega), if_pos (by omega),
    Int.toNat_of_nonneg h]

/-- Coins are written, and what is written is read back as the coins. -/
theorem reads_coins (hcurve : curve.Inverts) (h : coins.Good) (hfit : coins.SizesFit) :
    ∃ bs, coins.serialize curve = some bs ∧ Reads (unserialize curve) bs coins := by
  have hout := some_output h.not_pruned
  obtain ⟨hcode, hmaskCode, h1, h2, h4⟩ := nCode_spec hout hfit.vout
  obtain ⟨-, hlast, hcount, -⟩ := coins.calcMaskSize_spec
  obtain ⟨k, hflags⟩ := flags_of_vout h
  obtain ⟨hversion, hversion'⟩ := reads_int h.version coins.nVersion.toInt_lt
  obtain ⟨hheight, hheight'⟩ := reads_int h.height.1 h.height.2
  refine ⟨_, if_pos hout, ?_⟩
  refine hversion.bind ((reads_varInt endOfData hcode).bind ?_)
  rw [hmaskCode, ← hcount]
  refine (reads_mask hlast).bind ?_
  rw [h2, h4, hflags]
  have hvout : Reads (readOutputs curve ((coins.vout ++ List.replicate k CTxOut.null).map
      fun txout => !txout.isNull)) ((coins.vout.filter fun txout => !txout.isNull).flatMap
        (CTxOutCompressor.serialize curve)) (coins.vout ++ List.replicate k CTxOut.null) := by
    have hnone : (List.replicate k CTxOut.null).filter (fun txout => !txout.isNull) = [] := by
      rw [List.filter_eq_nil_iff]
      intro txout hmem
      rw [List.eq_of_mem_replicate hmem, CTxOut.isNull_null]
      exact Bool.false_ne_true
    have hgood : ∀ txout ∈ coins.vout ++ List.replicate k CTxOut.null, txout = CTxOut.null ∨
        MoneyRange txout.nValue.toInt ∧ txout.scriptPubKey.length + nSpecialScripts < 2 ^ 32 :=
      fun txout hmem => by
        rcases List.mem_append.mp hmem with hmem | hmem
        · exact (h.amounts txout hmem).imp_right fun hvalue => ⟨hvalue, hfit.scripts txout hmem⟩
        · exact .inl (List.eq_of_mem_replicate hmem)
    have hread := reads_outputs hcurve hgood
    rwa [List.filter_append, hnone, List.append_nil] at hread
  refine hvout.bind (hheight.bind_nil ?_)
  rw [h1, hheight', Int32.toInt.inj hversion', cleanup, rdropWhile_append_null h.cleaned]
  exact Reads.pure coins

/-- The size counted is that of what is written, as an `unsigned int`. -/
theorem getSerializeSize_eq (curve : KeyCurve) (coins : CCoins) : coins.getSerializeSize curve =
    (coins.serialize curve).map fun bs => UInt32.ofNat bs.length := by
  have hsum : ∀ vout : List CTxOut, (vout.map (CTxOutCompressor.getSerializeSize curve)).sum =
      UInt32.ofNat (vout.flatMap (CTxOutCompressor.serialize curve)).length := by
    intro vout
    induction vout with
    | nil => rfl
    | cons txout vout ih =>
      rw [List.map_cons, List.sum_cons, ih, CTxOutCompressor.getSerializeSize_eq, List.flatMap_cons,
        List.length_append, UInt32.ofNat_add]
  rw [getSerializeSize, serialize]
  split
  · rw [Option.map_some, hsum]
    simp only [List.length_append, length_writeSignedVarInt, length_writeVarInt, List.length_map,
      List.length_range, UInt32.ofNat_add, UInt32.add_assoc]
  · rfl

end CCoins

/-! ## Undo data -/

namespace CTxInUndo

variable (curve : KeyCurve) (undo : CTxInUndo)

/-- The code of height and coinbase flag, an `unsigned int`. -/
def heightCode : ℕ := (undo.nHeight.toNat * 2 + if undo.fCoinBase then 1 else 0) % 2 ^ 32

def serialize : Bytes :=
  writeVarInt undo.heightCode ++
    ((if 0 < undo.nHeight then writeSignedVarInt undo.nVersion.toInt else []) ++
      CTxOutCompressor.serialize curve undo.txout)

/-- The version, which is there if there is a height. -/
def readVersion (nHeight : ℕ) : Reader ℕ :=
  if 0 < nHeight then readVarInt endOfData 32 else pure 0

/-- Read undo data into empty ones. -/
def unserialize : Reader CTxInUndo := do
  let nCode ← readVarInt endOfData 32
  let nVersion ← readVersion (nCode / 2)
  let txout ← CTxOutCompressor.unserialize curve
  pure ⟨txout, nCode &&& 1 != 0, (nCode / 2 : ℕ), intOf nVersion⟩

variable {curve undo}

/-- Undo data are read back if they have a height or no version, and none is negative. -/
theorem reads (hcurve : curve.Inverts) (hheight : 0 ≤ undo.nHeight ∧ undo.nHeight < 2 ^ 31)
    (hversion : 0 ≤ undo.nVersion.toInt) (hdata : undo.nHeight = 0 → undo.nVersion = 0)
    (hvalue : MoneyRange undo.txout.nValue.toInt)
    (hsize : undo.txout.scriptPubKey.length + nSpecialScripts < 2 ^ 32) :
    Reads (unserialize curve) (undo.serialize curve) undo := by
  have hcode : undo.heightCode = undo.nHeight.toNat * 2 + if undo.fCoinBase then 1 else 0 := by
    rw [heightCode, Nat.mod_eq_of_lt]
    split <;> omega
  have hdiv : undo.heightCode / 2 = undo.nHeight.toNat := by
    rw [hcode]
    split <;> omega
  have hbit : (undo.heightCode &&& 1 != 0) = undo.fCoinBase := by
    rw [hcode, Nat.and_one_is_mod]
    cases undo.fCoinBase <;> simp
  have htxout := CTxOutCompressor.reads hcurve hvalue hsize
  have hback : ∀ nVersion, intOf nVersion = undo.nVersion →
      (⟨undo.txout, undo.heightCode &&& 1 != 0, (undo.heightCode / 2 : ℕ), intOf nVersion⟩ :
        CTxInUndo) = undo := by
    intro nVersion heq
    rw [hbit, hdiv, heq, Int.toNat_of_nonneg hheight.1]
  have hlt : undo.heightCode < 2 ^ 32 := Nat.mod_lt _ (by decide)
  refine (reads_varInt endOfData hlt).bind ?_
  by_cases hpos : 0 < undo.nHeight
  · obtain ⟨hread, hint⟩ := CCoins.reads_int hversion undo.nVersion.toInt_lt
    rw [if_pos hpos, readVersion, if_pos (show 0 < undo.heightCode / 2 by omega)]
    refine hread.bind (htxout.bind_nil ?_)
    rw [hback _ (Int32.toInt.inj hint)]
    exact Reads.pure undo
  · rw [if_neg hpos, readVersion, if_neg (show ¬0 < undo.heightCode / 2 by omega), List.nil_append]
    refine (htxout.bind_nil ?_).pure_bind
    rw [hback 0 (hdata (by omega)).symm]
    exact Reads.pure undo

end CTxInUndo

/-! ## The records -/

/-- `Spend` takes the undo data from an output that is not null. -/
theorem CCoins.spend_spec {coins left : CCoins} {n : ℕ} {undo : CTxInUndo}
    (h : coins.spend n = some (left, undo)) : undo.txout ∈ coins.vout ∧
      undo.txout.isNull = false ∧ (undo = .ofTxOut undo.txout ∨
        undo = ⟨undo.txout, coins.fCoinBase, coins.nHeight, coins.nVersion⟩) := by
  rw [CCoins.spend] at h
  split at h
  · cases h
  · rename_i txout hget
    split at h
    · cases h
    · rename_i hnull
      dsimp only at h
      obtain ⟨-, rfl⟩ := Prod.mk.inj (Option.some.inj h)
      rw [Bool.not_eq_true] at hnull
      split
      · exact ⟨List.mem_of_getElem? hget, hnull, .inr rfl⟩
      · exact ⟨List.mem_of_getElem? hget, hnull, .inl rfl⟩

/-- A curve without fully valid keys. -/
def noCurve : KeyCurve := ⟨fun _ => false, fun _ => none⟩

theorem noCurve_inverts : noCurve.Inverts := fun _ _ _ _ _ h => absurd h Bool.false_ne_true

/-- Coins with one output. -/
def singleCoins (txout : CTxOut) (nHeight : ℤ) (nVersion : Int32) : CCoins :=
  ⟨false, [txout], nHeight, nVersion⟩

theorem good_singleCoins {script : Bytes} : (singleCoins ⟨0, script⟩ 0 0).Good where
  not_pruned := rfl
  cleaned := by
    rintro txout ⟨⟩
    rfl
  height := show (0 : ℤ) ≤ 0 ∧ (0 : ℤ) < 2 ^ 31 by decide
  version := show (0 : ℤ) ≤ (0 : Int32).toInt by decide
  amounts txout hmem := by
    rw [List.mem_singleton.mp hmem]
    exact .inr (show MoneyRange (0 : Int64).toInt by decide)

theorem serialize_singleCoins (script : Bytes) :
    (singleCoins ⟨0, script⟩ 0 0).serialize noCurve =
      some ([0, 2, 0] ++ (CScriptCompressor.serialize noCurve script ++ [0])) := by
  have hwrite : ∀ n : ℕ, n ≤ 0x7f → writeVarInt n = [UInt8.ofNat n] := fun n => writeVarInt_of_le
  have hcode : (singleCoins ⟨0, script⟩ 0 0).nCode = 2 := by
    simp [singleCoins, CCoins.nCode, CCoins.calcMaskSize, CCoins.fFirst, CCoins.fSecond,
      CCoins.isAvailable, CTxOut.isNull]
  have hser : CTxOutCompressor.serialize noCurve ⟨0, script⟩ =
      0 :: CScriptCompressor.serialize noCurve script := by
    rw [CTxOutCompressor.serialize, show compressAmount (0 : Int64).toUInt64.toNat = 0 from rfl,
      hwrite 0 (by decide)]
    rfl
  have hmask : (singleCoins ⟨0, script⟩ 0 0).calcMaskSize.1 = 0 := by
    simp [singleCoins, CCoins.calcMaskSize]
  have hout : (singleCoins ⟨0, script⟩ 0 0).vout.filter (fun txout => !txout.isNull) =
      [⟨0, script⟩] := rfl
  rw [CCoins.serialize, if_pos (CCoins.some_output good_singleCoins.not_pruned), hcode,
    hwrite 2 (by decide), hmask, hout, List.flatMap_singleton, hser]
  rfl

/-- The size field of a script may be zero. -/
theorem serialize_overflow {script : Bytes} (hlen : script.length = 2 ^ 32 - 6) :
    CScriptCompressor.serialize noCurve script = 0 :: script := by
  have hcompress : CScriptCompressor.compress noCurve script = none := by
    rw [CScriptCompressor.compress, CScriptCompressor.isToKeyID, CScriptCompressor.isToScriptID,
      CScriptCompressor.isToPubKey]
    simp [hlen]
  have hfield : CScriptCompressor.sizeField script = 0 := by
    rw [CScriptCompressor.sizeField, hlen, nSpecialScripts]
    norm_num
  rw [CScriptCompressor.serialize, hcompress]
  dsimp only
  rw [hfield, writeVarInt_of_le (by decide)]
  rfl

/-- The size field of a script of zeros is zero, the code of a key hash : the first twenty bytes
are read as one. -/
theorem overflow_not_read {k : ℕ} {script : Bytes} (hscript : script = List.replicate (20 + k) 0)
    (hlen : script.length = 2 ^ 32 - 6) :
    ∃ bs, (singleCoins ⟨0, script⟩ 0 0).serialize noCurve = some bs ∧
      ¬Reads (CCoins.unserialize noCurve) bs (singleCoins ⟨0, script⟩ 0 0) := by
  refine ⟨_, serialize_singleCoins script, fun hread => ?_⟩
  obtain ⟨keyScript, hkey⟩ : ∃ s : Bytes, s = [OP_DUP, OP_HASH160, 20] ++ List.replicate 20 0 ++
      [OP_EQUALVERIFY, OP_CHECKSIG] := ⟨_, rfl⟩
  have hkeySer : CScriptCompressor.serialize noCurve keyScript = List.replicate 21 0 := by
    rw [hkey]
    decide
  obtain ⟨bs, hbs, hreadKey⟩ := CCoins.reads_coins noCurve_inverts
    (good_singleCoins : (singleCoins ⟨0, keyScript⟩ 0 0).Good) ⟨by
      change 1 + nSpecialScripts ≤ 2 ^ 32
      decide, fun txout hmem => by
        rw [List.mem_singleton.mp hmem, hkey]
        decide⟩
  rw [serialize_singleCoins, hkeySer, Option.some.injEq] at hbs
  -- what is written begins with the record of a payment to a key hash
  have hzeros : CScriptCompressor.serialize noCurve script ++ [0] =
      (List.replicate 21 0 ++ [0]) ++ List.replicate k 0 := by
    rw [serialize_overflow hlen, hscript, ← List.replicate_append_replicate, List.cons_append,
      List.append_assoc, ← List.replicate_succ', List.replicate_succ]
    rfl
  have hkeyRead := hreadKey (List.replicate k 0)
  have hhugeRead := hread []
  rw [List.append_nil, hzeros, ← List.append_assoc, hbs, hkeyRead, Except.ok.injEq,
    Prod.mk.injEq] at hhugeRead
  have hscripts : keyScript = script := by
    have hvout := congrArg (fun c : CCoins => c.vout.map CTxOut.scriptPubKey) hhugeRead.1
    exact List.singleton_injective hvout
  rw [← hscripts, hkey] at hlen
  exact absurd hlen (by decide)

/-- The version `-1` is written as a single byte. -/
theorem negative_not_read : ∃ left undo, (singleCoins ⟨0, []⟩ 1 (-1)).spend 0 = some (left, undo) ∧
    0 < undo.nHeight ∧
    ¬Reads (CTxInUndo.unserialize noCurve) (undo.serialize noCurve) undo := by
  refine ⟨_, _, rfl, by decide, fun hread => ?_⟩
  have hser : CTxInUndo.serialize noCurve ⟨⟨0, []⟩, false, 1, -1⟩ = [2, 127, 0, 6] := by
    rw [CTxInUndo.serialize, if_pos (by decide), CTxOutCompressor.serialize,
      CScriptCompressor.serialize, show CScriptCompressor.compress noCurve [] = none by decide,
      writeVarInt_of_le (by decide), writeVarInt_of_le (by decide)]
    dsimp only
    rw [writeVarInt_of_le (by decide)]
    decide
  have hread := hread []
  have hbytes : CTxInUndo.unserialize noCurve [2, 127, 0, 6] =
      .ok (⟨⟨0, []⟩, false, 1, 127⟩, []) := rfl
  rw [List.append_nil] at hread
  erw [hser, hbytes] at hread
  exact absurd hread (by decide)

end Ticoin
