import Ticoin.Lib.VarInt
import Ticoin.Solver

/-!
# The compact form of amounts and scripts

The coin database writes an output as a compressed amount and a compressed script.
`CompressAmount` takes out the factors of ten of an amount, up to the ninth, and with fewer than
nine the last digit too. `CScriptCompressor` has a code of its own for the scripts that pay to a
key hash, a script hash or a public key; of other scripts it writes the size, after the codes,
and the bytes.

A valid amount is read back (`decompressAmount_compressAmount`), and so is a script whose size
with the codes is an `unsigned int` (`reads_script`), if decompression inverts the compression of
public keys (`KeyCurve.Inverts`). The sizes counted are those of what is written, as an
`unsigned int` (`CTxOutCompressor.getSerializeSize_eq`). Nothing wraps around on the way, for a
valid amount or for a code whose amount is of 64 bits (`compressed_roundTrip`).
-/

namespace Ticoin

open Codec

/-! ## Amounts -/

/-- The loop of `CompressAmount` : the largest power of ten, up to the ninth, is taken out. -/
def stripZeros (n e : ℕ) : ℕ × ℕ :=
  if n % 10 = 0 ∧ e < 9 then stripZeros (n / 10) (e + 1) else (n, e)
termination_by 9 - e

def compressAmount (n : ℕ) : ℕ :=
  if n = 0 then 0
  else
    let (n, e) := stripZeros n 0
    if e < 9 then (1 + (n / 10 * 9 + n % 10 - 1) * 10 + e) % 2 ^ 64
    else (1 + (n - 1) * 10 + 9) % 2 ^ 64

def decompressAmount (x : ℕ) : ℕ :=
  if x = 0 then 0
  else
    let e := (x - 1) % 10
    let x := (x - 1) / 10
    let n := if e < 9 then x / 9 * 10 + (x % 9 + 1) else x + 1
    n * 10 ^ e % 2 ^ 64

/-- What is left with the power of ten taken out is the amount, and it ends in a digit other
than zero unless nine were taken out. -/
theorem stripZeros_spec (n e : ℕ) (he : e ≤ 9) (hn : n ≠ 0) :
    (stripZeros n e).1 * 10 ^ (stripZeros n e).2 = n * 10 ^ e ∧ (stripZeros n e).2 ≤ 9 ∧
      (stripZeros n e).1 ≤ n ∧ (stripZeros n e).1 ≠ 0 ∧
      ((stripZeros n e).2 < 9 → (stripZeros n e).1 % 10 ≠ 0) := by
  induction n, e using stripZeros.induct with
  | case1 n e h ih =>
    obtain ⟨hval, hle, hless, hne, hdigit⟩ := ih (by omega) (by omega)
    rw [stripZeros, if_pos h]
    refine ⟨?_, hle, hless.trans (Nat.div_le_self n 10), hne, hdigit⟩
    calc (stripZeros (n / 10) (e + 1)).1 * 10 ^ (stripZeros (n / 10) (e + 1)).2
        = n / 10 * (10 ^ e * 10) := by rw [hval, pow_succ]
      _ = n / 10 * 10 * 10 ^ e := by rw [Nat.mul_comm (10 ^ e), Nat.mul_assoc]
      _ = n * 10 ^ e := by rw [Nat.div_mul_cancel (Nat.dvd_of_mod_eq_zero h.1)]
  | case2 n e h =>
    rw [stripZeros, if_neg h]
    exact ⟨rfl, he, le_rfl, hn, fun hlt hzero => h ⟨hzero, hlt⟩⟩

/-- An amount of at most sixty bits is read back. -/
theorem decompressAmount_compressAmount {n : ℕ} (h : n < 2 ^ 60) :
    decompressAmount (compressAmount n) = n := by
  by_cases hn : n = 0
  · rw [hn]
    rfl
  obtain ⟨hval, hle, hless, hne, hdigit⟩ := stripZeros_spec n 0 (by omega) hn
  rw [compressAmount, if_neg hn]
  obtain ⟨⟨m, e⟩, hme⟩ : ∃ r, r = stripZeros n 0 := ⟨_, rfl⟩
  rw [← hme] at hval hle hless hne hdigit ⊢
  dsimp only at hval hle hless hne hdigit ⊢
  rw [pow_zero, Nat.mul_one] at hval
  by_cases he : e < 9
  · have hd := hdigit he
    rw [if_pos he, Nat.mod_eq_of_lt (by omega), decompressAmount, if_neg (by omega)]
    dsimp only
    rw [show (1 + (m / 10 * 9 + m % 10 - 1) * 10 + e - 1) % 10 = e by omega, if_pos he,
      show (1 + (m / 10 * 9 + m % 10 - 1) * 10 + e - 1) / 10 / 9 * 10 +
        ((1 + (m / 10 * 9 + m % 10 - 1) * 10 + e - 1) / 10 % 9 + 1) = m by omega, hval]
    omega
  · obtain rfl : e = 9 := by omega
    rw [if_neg he, Nat.mod_eq_of_lt (by omega), decompressAmount, if_neg (by omega)]
    dsimp only
    rw [show (1 + (m - 1) * 10 + 9 - 1) % 10 = 9 by omega, if_neg he,
      show (1 + (m - 1) * 10 + 9 - 1) / 10 + 1 = m by omega, hval]
    omega

theorem compressAmount_lt (n : ℕ) : compressAmount n < 2 ^ 64 := by
  rw [compressAmount]
  split
  · decide
  · dsimp only
    split <;> exact Nat.mod_lt _ (by decide)

/-! ## Amounts without a wrap-around

The parts of the two computations are values of 64 bits in the source. None of them wraps around
for a valid amount, nor for a code whose amount is of 64 bits. -/

/-- The value of `CompressAmount` before it is cut to 64 bits. -/
def compressValue (n : ℕ) : ℕ :=
  if n = 0 then 0
  else
    let (n, e) := stripZeros n 0
    if e < 9 then 1 + (n / 10 * 9 + n % 10 - 1) * 10 + e else 1 + (n - 1) * 10 + 9

/-- The values that `CompressAmount` computes, in their order. -/
def compressParts (n : ℕ) : List ℕ :=
  if n = 0 then []
  else
    let (n, e) := stripZeros n 0
    if e < 9 then
      let v := n / 10 * 9 + n % 10
      [n / 10 * 9, v, v - 1, (v - 1) * 10, 1 + (v - 1) * 10, 1 + (v - 1) * 10 + e]
    else [n - 1, (n - 1) * 10, 1 + (n - 1) * 10, 1 + (n - 1) * 10 + 9]

/-- The digits of a code, without the zeros. -/
def decompressDigits (x : ℕ) : ℕ :=
  if (x - 1) % 10 < 9 then (x - 1) / 10 / 9 * 10 + ((x - 1) / 10 % 9 + 1) else (x - 1) / 10 + 1

/-- The values that `DecompressAmount` computes, in their order. -/
def decompressParts (x : ℕ) : List ℕ :=
  if x = 0 then []
  else
    (if (x - 1) % 10 < 9 then [(x - 1) / 10 / 9 * 10] else []) ++
      (List.range ((x - 1) % 10 + 1)).map fun i => decompressDigits x * 10 ^ i

theorem compressAmount_eq (n : ℕ) : compressAmount n = compressValue n % 2 ^ 64 := by
  rw [compressAmount, compressValue]
  split
  · rfl
  · dsimp only
    split <;> rfl

theorem decompressAmount_eq {x : ℕ} (hx : x ≠ 0) :
    decompressAmount x = decompressDigits x * 10 ^ ((x - 1) % 10) % 2 ^ 64 := by
  rw [decompressAmount, if_neg hx]
  rfl

theorem compressParts_le {n v : ℕ} (hv : v ∈ compressParts n) : v ≤ compressValue n := by
  rw [compressParts] at hv
  rw [compressValue]
  split at hv
  · cases hv
  rename_i hn
  obtain ⟨-, -, -, -, hdigit⟩ := stripZeros_spec n 0 (by omega) hn
  rw [if_neg hn]
  dsimp only at hv ⊢
  split at hv
  · rename_i he
    have hd := hdigit he
    rw [if_pos he]
    simp only [List.mem_cons, List.not_mem_nil, or_false] at hv
    omega
  · rename_i he
    rw [if_neg he]
    simp only [List.mem_cons, List.not_mem_nil, or_false] at hv
    omega

/-- The code of an amount is at most ten times the amount. -/
theorem compressValue_le (n : ℕ) : compressValue n ≤ 10 * n := by
  rw [compressValue]
  split
  · exact Nat.zero_le _
  rename_i hn
  obtain ⟨-, hle, hless, hne, hdigit⟩ := stripZeros_spec n 0 (by omega) hn
  dsimp only
  split
  · rename_i he
    have hd := hdigit he
    omega
  · omega

theorem decompressParts_le {x v : ℕ} (hv : v ∈ decompressParts x) :
    v ≤ decompressDigits x * 10 ^ ((x - 1) % 10) := by
  rw [decompressParts] at hv
  split at hv
  · cases hv
  rcases List.mem_append.mp hv with hv | hv
  · split at hv
    · rename_i he
      rw [List.mem_singleton.mp hv]
      refine le_trans ?_ (Nat.le_mul_of_pos_right _ (Nat.pow_pos (by decide)))
      rw [decompressDigits, if_pos he]
      omega
    · cases hv
  · obtain ⟨i, hi, rfl⟩ := List.mem_map.mp hv
    rw [List.mem_range] at hi
    exact Nat.mul_le_mul_left _ (Nat.pow_le_pow_right (by decide) (by omega))

/-- The zeros that were put at the end are taken out again. -/
theorem stripZeros_mul_pow {m : ℕ} (hm : m ≠ 0) : ∀ k e : ℕ, m % 10 ≠ 0 ∨ e + k = 9 → e + k ≤ 9 →
    stripZeros (m * 10 ^ k) e = (m, e + k)
  | 0, e, h, _ => by
    rw [stripZeros, if_neg]
    · rw [pow_zero, Nat.mul_one, Nat.add_zero]
    · rw [pow_zero, Nat.mul_one]
      omega
  | k + 1, e, h, hle => by
    have hval : m * 10 ^ (k + 1) = m * 10 ^ k * 10 := by rw [pow_succ, Nat.mul_assoc]
    rw [stripZeros, if_pos, hval, Nat.mul_div_cancel _ (by decide),
      stripZeros_mul_pow hm k (e + 1) (by omega) (by omega), Nat.add_right_comm, Nat.add_assoc]
    exact ⟨by rw [hval, Nat.mul_mod_left], by omega⟩

/-- Compression inverts decompression, up to the cut to 64 bits. -/
theorem compressValue_decompressDigits {x : ℕ} (hx : x ≠ 0) :
    compressValue (decompressDigits x * 10 ^ ((x - 1) % 10)) = x := by
  have hdigits : decompressDigits x ≠ 0 := by
    rw [decompressDigits]
    split <;> omega
  have hne : decompressDigits x * 10 ^ ((x - 1) % 10) ≠ 0 :=
    Nat.mul_ne_zero hdigits (Nat.pow_pos (by decide)).ne'
  rw [compressValue, if_neg hne]
  by_cases he : (x - 1) % 10 < 9
  · have hval : decompressDigits x = (x - 1) / 10 / 9 * 10 + ((x - 1) / 10 % 9 + 1) := if_pos he
    rw [stripZeros_mul_pow hdigits _ 0 (.inl (by omega)) (by omega)]
    dsimp only
    rw [if_pos (by omega)]
    omega
  · have hval : decompressDigits x = (x - 1) / 10 + 1 := if_neg he
    rw [stripZeros_mul_pow hdigits _ 0 (.inr (by omega)) (by omega)]
    dsimp only
    rw [if_neg (by omega)]
    omega

/-- A code whose amount is of 64 bits is the code of this amount. -/
theorem compressAmount_decompressAmount {x : ℕ} (hx : x < 2 ^ 64)
    (hparts : ∀ v ∈ decompressParts x, v < 2 ^ 64) :
    compressAmount (decompressAmount x) = x ∧ compressValue (decompressAmount x) = x := by
  by_cases hzero : x = 0
  · rw [hzero]
    exact ⟨rfl, rfl⟩
  have hlt : decompressDigits x * 10 ^ ((x - 1) % 10) < 2 ^ 64 := by
    refine hparts _ ?_
    rw [decompressParts, if_neg hzero]
    exact List.mem_append_right _ (List.mem_map.mpr ⟨_, List.mem_range.mpr (Nat.lt_succ_self _), rfl⟩)
  rw [compressAmount_eq, decompressAmount_eq hzero, Nat.mod_eq_of_lt hlt,
    compressValue_decompressDigits hzero, Nat.mod_eq_of_lt hx]
  exact ⟨rfl, rfl⟩

/-- Decompression computes no value above the amount it gives back. -/
theorem decompressParts_compressAmount {n v : ℕ} (h : n < 2 ^ 60)
    (hv : v ∈ decompressParts (compressAmount n)) : v ≤ n := by
  by_cases hn : n = 0
  · rw [hn] at hv
    cases hv
  obtain ⟨hval, hle, hless, hne, hdigit⟩ := stripZeros_spec n 0 (by omega) hn
  rw [pow_zero, Nat.mul_one] at hval
  have hcode : compressAmount n = compressValue n :=
    (compressAmount_eq n).trans (Nat.mod_eq_of_lt ((compressValue_le n).trans_lt (by omega)))
  rw [hcode] at hv
  refine (decompressParts_le hv).trans (le_of_eq ?_)
  have hdigits : (stripZeros n 0).2 = (compressValue n - 1) % 10 ∧
      (stripZeros n 0).1 = decompressDigits (compressValue n) := by
    rw [decompressDigits]
    by_cases he : (stripZeros n 0).2 < 9
    · have hd := hdigit he
      have hvalue : compressValue n = 1 + ((stripZeros n 0).1 / 10 * 9 + (stripZeros n 0).1 % 10 - 1) *
          10 + (stripZeros n 0).2 := by
        rw [compressValue, if_neg hn]
        exact if_pos he
      generalize compressValue n = x at hvalue
      split <;> omega
    · have hvalue : compressValue n = 1 + ((stripZeros n 0).1 - 1) * 10 + 9 := by
        rw [compressValue, if_neg hn]
        exact if_neg he
      generalize compressValue n = x at hvalue
      split <;> omega
  rw [← hdigits.1, ← hdigits.2, hval]

/-! ## Scripts -/

/-- What the elliptic curve library tells of a public key : `CPubKey::IsFullyValid`, and
`CPubKey::Decompress`, which may fail. -/
structure KeyCurve where
  isFullyValid : Bytes → Bool
  decompress : Bytes → Option Bytes

/-- Decompression inverts compression : a fully valid uncompressed key is read back from its
parity and its first coordinate. -/
def KeyCurve.Inverts (curve : KeyCurve) : Prop :=
  ∀ y rest : Bytes, ∀ b : UInt8, y.length = 32 → rest.length = 31 →
    curve.isFullyValid (4 :: (y ++ (rest ++ [b]))) = true →
    curve.decompress ((2 ||| (b &&& 1)) :: y) = some (4 :: (y ++ (rest ++ [b])))

def nSpecialScripts : ℕ := 6

namespace CScriptCompressor

variable (curve : KeyCurve)

def isToKeyID (script : Bytes) : Option Bytes :=
  if script.length = 25 ∧ script[0]? = some OP_DUP ∧ script[1]? = some OP_HASH160 ∧
      script[2]? = some 20 ∧ script[23]? = some OP_EQUALVERIFY ∧ script[24]? = some OP_CHECKSIG then
    some ((script.drop 3).take 20)
  else none

def isToScriptID (script : Bytes) : Option Bytes :=
  if script.length = 23 ∧ script[0]? = some OP_HASH160 ∧ script[1]? = some 20 ∧
      script[22]? = some OP_EQUAL then
    some ((script.drop 2).take 20)
  else none

def isToPubKey (script : Bytes) : Option Bytes :=
  if script.length = 35 ∧ script[0]? = some 33 ∧ script[34]? = some OP_CHECKSIG ∧
      (script[1]? = some 2 ∨ script[1]? = some 3) then
    some ((script.drop 1).take 33)
  else if script.length = 67 ∧ script[0]? = some 65 ∧ script[66]? = some OP_CHECKSIG ∧
      script[1]? = some 4 then
    let pubkey := (script.drop 1).take 65
    -- if not fully valid, a case that would not be compressible
    if curve.isFullyValid pubkey then some pubkey else none
  else none

/-- The code of a public key. -/
def compressKey (pubkey : Bytes) : Option Bytes :=
  if pubkey.getD 0 0 = 2 ∨ pubkey.getD 0 0 = 3 then
    some (pubkey.getD 0 0 :: (pubkey.drop 1).take 32)
  else if pubkey.getD 0 0 = 4 then
    some ((4 ||| (pubkey.getD 64 0 &&& 1)) :: (pubkey.drop 1).take 32)
  else none

def compress (script : Bytes) : Option Bytes :=
  match isToKeyID script with
  | some keyID => some (0 :: keyID)
  | none =>
    match isToScriptID script with
    | some scriptID => some (1 :: scriptID)
    | none => (isToPubKey curve script).bind compressKey

def getSpecialSize (nSize : ℕ) : ℕ :=
  if nSize = 0 ∨ nSize = 1 then 20
  else if nSize = 2 ∨ nSize = 3 ∨ nSize = 4 ∨ nSize = 5 then 32
  else 0

/-- The script of a code, unless its key cannot be decompressed. -/
def decompress (nSize : ℕ) (vch : Bytes) : Option Bytes :=
  match nSize with
  | 0 => some ([OP_DUP, OP_HASH160, 20] ++ vch.take 20 ++ [OP_EQUALVERIFY, OP_CHECKSIG])
  | 1 => some ([OP_HASH160, 20] ++ vch.take 20 ++ [OP_EQUAL])
  | 2 => some ([33, 2] ++ vch.take 32 ++ [OP_CHECKSIG])
  | 3 => some ([33, 3] ++ vch.take 32 ++ [OP_CHECKSIG])
  | 4 => (curve.decompress (2 :: vch.take 32)).map fun pubkey => 65 :: pubkey ++ [OP_CHECKSIG]
  | 5 => (curve.decompress (3 :: vch.take 32)).map fun pubkey => 65 :: pubkey ++ [OP_CHECKSIG]
  | _ => none

/-- The size field of a script without a code, an `unsigned int`. -/
def sizeField (script : Bytes) : ℕ := (script.length + nSpecialScripts) % 2 ^ 32

def serialize (script : Bytes) : Bytes :=
  match compress curve script with
  | some compr => compr
  | none => writeVarInt (sizeField script) ++ script

def getSerializeSize (script : Bytes) : UInt32 :=
  match compress curve script with
  | some compr => UInt32.ofNat compr.length
  | none => UInt32.ofNat script.length + UInt32.ofNat (sizeOfVarInt (sizeField script))

/-- Read a script into an empty one, which it stays if a key cannot be decompressed. -/
def unserialize : Reader Bytes := do
  let nSize ← readVarInt endOfData 32
  if nSize < nSpecialScripts then
    let vch ← readBytes endOfData (getSpecialSize nSize)
    pure ((decompress curve nSize vch).getD [])
  else
    readBytes endOfData (nSize - nSpecialScripts)

variable {curve} {script : Bytes}

/-- A script with a known byte at a position is that byte and what follows. -/
theorem drop_eq_cons {n : ℕ} {c : UInt8} (h : script[n]? = some c) :
    script.drop n = c :: script.drop (n + 1) := by
  obtain ⟨hlt, hc⟩ := List.getElem?_eq_some_iff.mp h
  rw [List.drop_eq_getElem_cons hlt, hc]

/-- The bytes from a position are a number of them and what follows. -/
theorem drop_eq_append (script : Bytes) (i n : ℕ) :
    script.drop i = (script.drop i).take n ++ script.drop (i + n) := by
  rw [← List.drop_drop, List.take_append_drop]

theorem isToKeyID_eq_some {keyID : Bytes} (h : isToKeyID script = some keyID) :
    keyID.length = 20 ∧
      script = [OP_DUP, OP_HASH160, 20] ++ keyID ++ [OP_EQUALVERIFY, OP_CHECKSIG] := by
  rw [isToKeyID] at h
  split at h
  · rename_i hs
    obtain ⟨hlen, h0, h1, h2, h23, h24⟩ := hs
    cases h
    refine ⟨by rw [List.length_take, List.length_drop, hlen]; rfl, ?_⟩
    have hmid := drop_eq_append script 3 20
    rw [drop_eq_cons h23, drop_eq_cons h24, List.drop_eq_nil_of_le hlen.le] at hmid
    calc script = script.drop 0 := rfl
      _ = [OP_DUP, OP_HASH160, 20] ++ script.drop 3 := by
        rw [drop_eq_cons h0, drop_eq_cons h1, drop_eq_cons h2]
        rfl
      _ = _ := by rw [List.append_assoc, ← hmid]
  · cases h

theorem isToScriptID_eq_some {scriptID : Bytes} (h : isToScriptID script = some scriptID) :
    scriptID.length = 20 ∧ script = [OP_HASH160, 20] ++ scriptID ++ [OP_EQUAL] := by
  rw [isToScriptID] at h
  split at h
  · rename_i hs
    obtain ⟨hlen, h0, h1, h22⟩ := hs
    cases h
    refine ⟨by rw [List.length_take, List.length_drop, hlen]; rfl, ?_⟩
    have hmid := drop_eq_append script 2 20
    rw [drop_eq_cons h22, List.drop_eq_nil_of_le hlen.le] at hmid
    calc script = script.drop 0 := rfl
      _ = [OP_HASH160, 20] ++ script.drop 2 := by
        rw [drop_eq_cons h0, drop_eq_cons h1]
        rfl
      _ = _ := by rw [List.append_assoc, ← hmid]
  · cases h

/-- A script that pays to a public key holds a compressed key, or an uncompressed one that is
fully valid. -/
theorem isToPubKey_eq_some {pubkey : Bytes} (h : isToPubKey curve script = some pubkey) :
    script = (UInt8.ofNat pubkey.length :: pubkey) ++ [OP_CHECKSIG] ∧
      ((∃ c x, (c = 2 ∨ c = 3) ∧ x.length = 32 ∧ pubkey = c :: x) ∨
        ∃ y rest b, y.length = 32 ∧ rest.length = 31 ∧ pubkey = 4 :: (y ++ (rest ++ [b])) ∧
          curve.isFullyValid pubkey = true) := by
  rw [isToPubKey] at h
  split at h
  · rename_i hs
    obtain ⟨hlen, h0, h34, hc⟩ := hs
    cases h
    obtain ⟨c, hc1, hcc⟩ : ∃ c, script[1]? = some c ∧ (c = 2 ∨ c = 3) := by
      rcases hc with hc | hc
      · exact ⟨2, hc, .inl rfl⟩
      · exact ⟨3, hc, .inr rfl⟩
    have hkey : ((script.drop 1).take 33).length = 33 := by
      rw [List.length_take, List.length_drop, hlen]
      rfl
    constructor
    have hmid := drop_eq_append script 1 33
    rw [drop_eq_cons h34, List.drop_eq_nil_of_le hlen.le] at hmid
    rw [hkey]
    calc script = 33 :: script.drop 1 := drop_eq_cons h0
      _ = 33 :: ((script.drop 1).take 33 ++ [OP_CHECKSIG]) := congrArg _ hmid
      _ = _ := rfl
    · refine .inl ⟨c, (script.drop 2).take 32, hcc, ?_, ?_⟩
      · rw [List.length_take, List.length_drop, hlen]
        rfl
      · rw [drop_eq_cons hc1]
        rfl
  · split at h
    · rename_i hs
      obtain ⟨hlen, h0, h66, h1⟩ := hs
      dsimp only at h
      split at h
      · rename_i hvalid
        cases h
        have hkey : ((script.drop 1).take 65).length = 65 := by
          rw [List.length_take, List.length_drop, hlen]
          rfl
        constructor
        have hmid := drop_eq_append script 1 65
        rw [drop_eq_cons h66, List.drop_eq_nil_of_le hlen.le] at hmid
        rw [hkey]
        calc script = 65 :: script.drop 1 := drop_eq_cons h0
          _ = 65 :: ((script.drop 1).take 65 ++ [OP_CHECKSIG]) := congrArg _ hmid
          _ = _ := rfl
        · have h65 : script[65]? = some script[65] := List.getElem?_eq_getElem (by omega)
          refine .inr ⟨(script.drop 2).take 32, (script.drop 34).take 31, script[65], ?_, ?_, ?_,
            hvalid⟩
          · rw [List.length_take, List.length_drop, hlen]
            rfl
          · rw [List.length_take, List.length_drop, hlen]
            rfl
          · rw [drop_eq_cons h1, List.take_succ_cons, show (64 : ℕ) = 32 + (31 + 1) from rfl,
              List.take_add, List.drop_drop, List.take_add, List.drop_drop, drop_eq_cons h65]
            rfl
      · cases h
    · cases h

/-- A code is read back as the script it stands for. -/
theorem reads_special {c : UInt8} {vch : Bytes} (hc : c.toNat < nSpecialScripts)
    (hsize : vch.length = getSpecialSize c.toNat)
    (hdec : decompress curve c.toNat vch = some script) :
    Reads (unserialize curve) (c :: vch) script := by
  have hvar : Reads (readVarInt endOfData 32) [c] c.toNat := by
    have hread := reads_varInt endOfData (w := 32) (n := c.toNat)
      (Nat.lt_trans hc (by decide))
    rwa [writeVarInt_of_le (Nat.le_trans hc.le (by decide)), UInt8.ofNat_toNat] at hread
  change Reads _ ([c] ++ vch) script
  refine hvar.bind ?_
  rw [if_pos hc]
  refine (hsize ▸ reads_readBytes endOfData vch).bind_nil ?_
  rw [hdec]
  exact Reads.pure script

/-- The size field of a script without a code is read back with the bytes. -/
theorem reads_plain (hsize : script.length + nSpecialScripts < 2 ^ 32) :
    Reads (unserialize curve) (writeVarInt (sizeField script) ++ script) script := by
  have hfield : sizeField script = script.length + nSpecialScripts := Nat.mod_eq_of_lt hsize
  rw [hfield]
  refine (reads_varInt endOfData hsize).bind ?_
  rw [if_neg (by omega), Nat.add_sub_cancel]
  exact reads_readBytes endOfData script

theorem and_one_cases (b : UInt8) : b &&& 1 = 0 ∨ b &&& 1 = 1 := by
  have hmod : (b &&& 1).toNat = b.toNat % 2 := by
    rw [UInt8.toNat_and]
    exact Nat.and_two_pow_sub_one_eq_mod _ 1
  rcases Nat.mod_two_eq_zero_or_one b.toNat with h | h
  · exact .inl (UInt8.toNat_inj.mp (hmod.trans h))
  · exact .inr (UInt8.toNat_inj.mp (hmod.trans h))

/-- A script is read back, if decompression inverts the compression of public keys and the size
with the codes is an `unsigned int`. -/
theorem reads_script (hcurve : curve.Inverts) (hsize : script.length + nSpecialScripts < 2 ^ 32) :
    Reads (unserialize curve) (serialize curve script) script := by
  rw [serialize]
  cases hcompr : compress curve script with
  | none => exact reads_plain hsize
  | some compr =>
    dsimp only
    rw [compress] at hcompr
    cases hkey : isToKeyID script with
    | some keyID =>
      obtain ⟨hlen, hscript⟩ := isToKeyID_eq_some hkey
      rw [hkey, Option.some.injEq] at hcompr
      rw [← hcompr]
      refine reads_special (by decide) hlen ?_
      rw [hscript, show (0 : UInt8).toNat = 0 from rfl, decompress, ← hlen, List.take_length]
    | none =>
      cases hid : isToScriptID script with
      | some scriptID =>
        obtain ⟨hlen, hscript⟩ := isToScriptID_eq_some hid
        rw [hkey, hid, Option.some.injEq] at hcompr
        rw [← hcompr]
        refine reads_special (by decide) hlen ?_
        rw [hscript, show (1 : UInt8).toNat = 1 from rfl, decompress, ← hlen, List.take_length]
      | none =>
        rw [hkey, hid] at hcompr
        obtain ⟨pubkey, hpub, hcompr⟩ := Option.bind_eq_some_iff.mp hcompr
        obtain ⟨hscript, ⟨c, x, hc, hx, rfl⟩ | ⟨y, rest, b, hy, hrest, rfl, hvalid⟩⟩ :=
          isToPubKey_eq_some hpub
        · rw [compressKey, List.getD_cons_zero, if_pos hc, Option.some.injEq, List.drop_succ_cons,
            List.drop_zero, ← hx, List.take_length] at hcompr
          rw [← hcompr]
          have hlen : UInt8.ofNat (c :: x).length = 33 := by rw [List.length_cons, hx]; rfl
          rw [hlen] at hscript
          rcases hc with rfl | rfl
          · refine reads_special (by decide) hx ?_
            rw [hscript, show (2 : UInt8).toNat = 2 from rfl, decompress, ← hx, List.take_length]
            rfl
          · refine reads_special (by decide) hx ?_
            rw [hscript, show (3 : UInt8).toNat = 3 from rfl, decompress, ← hx, List.take_length]
            rfl
        · have hlen : (y ++ (rest ++ [b])).length = 64 := by
            rw [List.length_append, List.length_append, hy, hrest]
            rfl
          have hb : (4 :: (y ++ (rest ++ [b]))).getD 64 0 = b := by
            simp [hy, hrest]
          rw [compressKey, hb, List.getD_cons_zero, if_neg (by decide), if_pos rfl,
            Option.some.injEq, List.drop_succ_cons, List.drop_zero, ← hy,
            List.take_left] at hcompr
          rw [← hcompr]
          rw [List.length_cons, hlen] at hscript
          have hdec := hcurve y rest b hy hrest hvalid
          rcases and_one_cases b with hbit | hbit
          · rw [hbit] at hdec ⊢
            refine reads_special (by decide) hy ?_
            rw [hscript, show (4 ||| 0 : UInt8).toNat = 4 from rfl, decompress, ← hy, List.take_length,
              show (2 : UInt8) = 2 ||| 0 from rfl, hdec]
            rfl
          · rw [hbit] at hdec ⊢
            refine reads_special (by decide) hy ?_
            rw [hscript, show (4 ||| 1 : UInt8).toNat = 5 from rfl, decompress, ← hy, List.take_length,
              show (3 : UInt8) = 2 ||| 1 from rfl, hdec]
            rfl

theorem getSerializeSize_eq (script : Bytes) :
    getSerializeSize curve script = UInt32.ofNat (serialize curve script).length := by
  rw [getSerializeSize, serialize]
  cases compress curve script with
  | some compr => rfl
  | none =>
    dsimp only
    rw [List.length_append, length_writeVarInt, UInt32.ofNat_add, UInt32.add_comm]

/-- A code is of at most 33 bytes. -/
theorem length_compress_le {compr : Bytes} (h : compress curve script = some compr) :
    compr.length ≤ 33 := by
  rw [compress] at h
  split at h
  · rename_i keyID hkey
    cases h
    rw [List.length_cons, (isToKeyID_eq_some hkey).1]
    decide
  split at h
  · rename_i scriptID hid
    cases h
    rw [List.length_cons, (isToScriptID_eq_some hid).1]
    decide
  obtain ⟨pubkey, -, hkey⟩ := Option.bind_eq_some_iff.mp h
  rw [compressKey] at hkey
  have htake := List.length_take_le 32 (pubkey.drop 1)
  split at hkey
  · cases hkey
    exact Nat.succ_le_succ htake
  split at hkey
  · cases hkey
    exact Nat.succ_le_succ htake
  · cases hkey

variable (curve script)

theorem length_serialize_le : (serialize curve script).length ≤ 2 * script.length + 40 := by
  rw [serialize]
  split
  · rename_i compr hcompr
    exact (length_compress_le hcompr).trans (by omega)
  · have hfield : sizeField script ≤ script.length + nSpecialScripts := Nat.mod_le _ _
    have hsize := sizeOfVarInt_le (sizeField script)
    rw [nSpecialScripts] at hfield
    rw [List.length_append, length_writeVarInt]
    omega

end CScriptCompressor

/-! ## Outputs -/

namespace CTxOutCompressor

variable (curve : KeyCurve)

def serialize (txout : CTxOut) : Bytes :=
  writeVarInt (compressAmount txout.nValue.toUInt64.toNat) ++
    CScriptCompressor.serialize curve txout.scriptPubKey

def getSerializeSize (txout : CTxOut) : UInt32 :=
  0 + UInt32.ofNat (sizeOfVarInt (compressAmount txout.nValue.toUInt64.toNat)) +
    CScriptCompressor.getSerializeSize curve txout.scriptPubKey

/-- Read an output into a null one. -/
def unserialize : Reader CTxOut := do
  let nVal ← readVarInt endOfData 64
  let scriptPubKey ← CScriptCompressor.unserialize curve
  pure ⟨(UInt64.ofNat (decompressAmount nVal)).toInt64, scriptPubKey⟩

theorem getSerializeSize_eq (txout : CTxOut) :
    getSerializeSize curve txout = UInt32.ofNat (serialize curve txout).length := by
  rw [getSerializeSize, serialize, List.length_append, length_writeVarInt, UInt32.ofNat_add,
    CScriptCompressor.getSerializeSize_eq, UInt32.zero_add]

variable {curve}

/-- A valid amount is read back. -/
theorem reads_amount {nValue : Int64} (h : MoneyRange nValue.toInt) :
    Reads (readVarInt endOfData 64) (writeVarInt (compressAmount nValue.toUInt64.toNat))
        (compressAmount nValue.toUInt64.toNat) ∧
      (UInt64.ofNat (decompressAmount (compressAmount nValue.toUInt64.toNat))).toInt64 = nValue := by
  refine ⟨reads_varInt endOfData (compressAmount_lt _), ?_⟩
  have hval : (nValue.toUInt64.toNat : ℤ) = nValue.toInt := by
    have hcond : nValue.toInt = if 2 * nValue.toUInt64.toNat < 2 ^ 64 then
        (nValue.toUInt64.toNat : ℤ) else (nValue.toUInt64.toNat : ℤ) - 2 ^ 64 :=
      BitVec.toInt_eq_toNat_cond nValue.toBitVec
    have hlt := nValue.toUInt64.toNat_lt
    have hnonneg := h.1
    split at hcond <;> omega
  rw [decompressAmount_compressAmount, UInt64.ofNat_toNat]
  · simp
  · have hmax := h.2
    rw [MAX_MONEY, COIN] at hmax
    omega

/-- An output of a valid amount is read back. -/
theorem reads (hcurve : curve.Inverts) {txout : CTxOut} (hvalue : MoneyRange txout.nValue.toInt)
    (hsize : txout.scriptPubKey.length + nSpecialScripts < 2 ^ 32) :
    Reads (unserialize curve) (serialize curve txout) txout := by
  obtain ⟨hread, hval⟩ := reads_amount hvalue
  refine hread.bind ?_
  rw [hval]
  exact (CScriptCompressor.reads_script hcurve hsize).map (CTxOut.mk txout.nValue)

end CTxOutCompressor

/-! ## Round trips -/

/-- Compressed scripts and amounts are read back, the sizes are those of what is written, and no
value of a valid amount wraps around, nor of a code whose amount does not. -/
theorem compressed_roundTrip (curve : KeyCurve) (hcurve : curve.Inverts) :
    (∀ script : Bytes, script.length ≤ MAX_SIZE →
      Reads (CScriptCompressor.unserialize curve) (CScriptCompressor.serialize curve script) script ∧
        (CScriptCompressor.getSerializeSize curve script).toNat =
          (CScriptCompressor.serialize curve script).length) ∧
    (∀ n : ℕ, (n : ℤ) ≤ MAX_MONEY → decompressAmount (compressAmount n) = n ∧
      (∀ v ∈ compressParts n, v < 2 ^ 64) ∧ ∀ v ∈ decompressParts (compressAmount n), v < 2 ^ 64) ∧
    ∀ x : ℕ, x < 2 ^ 64 → (∀ v ∈ decompressParts x, v < 2 ^ 64) →
      compressAmount (decompressAmount x) = x ∧ ∀ v ∈ compressParts (decompressAmount x), v < 2 ^ 64 := by
  refine ⟨fun script h => ?_, fun n h => ?_, fun x hx hparts => ?_⟩
  · rw [MAX_SIZE] at h
    refine ⟨CScriptCompressor.reads_script hcurve (by rw [nSpecialScripts]; omega), ?_⟩
    rw [CScriptCompressor.getSerializeSize_eq, UInt32.toNat_ofNat', Nat.mod_eq_of_lt]
    have hle := CScriptCompressor.length_serialize_le curve script
    omega
  · have hlt : n < 2 ^ 60 := by
      rw [MAX_MONEY, COIN] at h
      omega
    refine ⟨decompressAmount_compressAmount hlt, fun v hv => ?_, fun v hv => ?_⟩
    · have hle := (compressParts_le hv).trans (compressValue_le n)
      omega
    · have hle := decompressParts_compressAmount hlt hv
      omega
  · obtain ⟨hback, hvalue⟩ := compressAmount_decompressAmount hx hparts
    exact ⟨hback, fun v hv => ((compressParts_le hv).trans_eq hvalue).trans_lt hx⟩

/-- The first coordinate of the generator of the curve. -/
def generatorX : Bytes :=
  [0x79, 0xbe, 0x66, 0x7e, 0xf9, 0xdc, 0xbb, 0xac, 0x55, 0xa0, 0x62, 0x95, 0xce, 0x87, 0x0b, 0x07,
    0x02, 0x9b, 0xfc, 0xdb, 0x2d, 0xce, 0x28, 0xd9, 0x59, 0xf2, 0x81, 0x5b, 0x16, 0xf8, 0x17, 0x98]

/-- Its second coordinate, which is even. -/
def generatorY : Bytes :=
  [0x48, 0x3a, 0xda, 0x77, 0x26, 0xa3, 0xc4, 0x65, 0x5d, 0xa4, 0xfb, 0xfc, 0x0e, 0x11, 0x08, 0xa8,
    0xfd, 0x17, 0xb4, 0x48, 0xa6, 0x85, 0x54, 0x19, 0x9c, 0x47, 0xd0, 0x8f, 0xfb, 0x10, 0xd4, 0xb8]

/-- The library as far as it knows the generator. -/
def generatorCurve : KeyCurve where
  isFullyValid pubkey := pubkey = 4 :: (generatorX ++ generatorY)
  decompress pubkey := if pubkey = 2 :: generatorX then some (4 :: (generatorX ++ generatorY)) else none

theorem generatorCurve_inverts : generatorCurve.Inverts := by
  intro y rest b hy hrest hvalid
  have hkey : 4 :: (y ++ (rest ++ [b])) = 4 :: (generatorX ++ generatorY) := of_decide_eq_true hvalid
  obtain ⟨rfl, htail⟩ := List.append_inj (List.cons.inj hkey).2 hy
  have hlast : rest ++ [b] = generatorY.take 31 ++ [0xb8] := htail
  obtain ⟨-, hb⟩ := List.append_inj hlast hrest
  rw [hkey, (List.singleton_inj.mp hb)]
  rfl

/-- The script that pays to the generator takes 33 bytes. -/
theorem compressed_roundTrip_generator :
    Reads (CScriptCompressor.unserialize generatorCurve) (4 :: generatorX)
        (65 :: 4 :: (generatorX ++ generatorY) ++ [OP_CHECKSIG]) ∧
      decompressAmount (compressAmount 2100000000) = 2100000000 ∧
      compressAmount (decompressAmount 209) = 209 := by
  obtain ⟨hscript, hamount, hcode⟩ := compressed_roundTrip generatorCurve generatorCurve_inverts
  exact ⟨(hscript (65 :: 4 :: (generatorX ++ generatorY) ++ [OP_CHECKSIG]) (by decide)).1,
    (hamount 2100000000 (by decide)).1, (hcode 209 (by decide) (by decide)).1⟩

end Ticoin
