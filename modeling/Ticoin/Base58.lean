import Ticoin.ChainParams
import Ticoin.Crypter
import Ticoin.Util
import Ticoin.Lib.Radix

/-!
# base58.cpp

Bytes are written as a number to the base 58, in characters that are easily told apart, with a `1`
for every zero at the front. The conversions of the number run in arrays whose sizes are estimated
from the lengths ; they are large enough, and what was written is read back
(`decodeBase58_encodeBase58`).

With a version in front and a checksum behind, a secret key is written and read back
(`CticoinSecret.setString_toString`).
-/

namespace Ticoin

open Codec

/-! ## Base 58 -/

/-- All alphanumeric characters except for `0`, `I`, `O` and `l`. -/
def pszBase58 : Bytes :=
  asciiBytes "123456789ABCDEFGHJKLMNPQRSTUVWXYZabcdefghijkmnopqrstuvwxyz"

/-- The loop over the characters of `DecodeBase58`, which ends before a space : the number and what
is left of the text, `none` for another character. The outer `none` is a failed assertion. -/
def decodeBase58Loop : Bytes → List ℕ → Option (Option (List ℕ × Bytes))
  | [], b256 => some (some (b256, []))
  | c :: psz, b256 =>
    if isSpace c then some (some (b256, c :: psz))
    else match pszBase58.idxOf? c with
      | none => some none
      | some d =>
        let r := Radix.mulAdd 256 58 b256 d
        if r.2 = 0 then decodeBase58Loop psz r.1 else none

/-- `DecodeBase58`. The outer `none` is a failed assertion. -/
def decodeBase58 (psz : Bytes) : Option (Option Bytes) :=
  let psz := psz.dropWhile isSpace
  let zeroes := (psz.takeWhile (· = 49)).length
  let psz := psz.dropWhile (· = 49)
  let b256 := List.replicate (psz.length * 733 / 1000 + 1) 0
  match decodeBase58Loop psz b256 with
  | none => none
  | some none => some none
  | some (some (b256, psz)) =>
    if psz.dropWhile isSpace ≠ [] then some none
    else some (some (List.replicate zeroes 0 ++ (b256.dropWhile (· = 0)).map UInt8.ofNat))

/-- `EncodeBase58`. `none` is a failed assertion. -/
def encodeBase58 (vch : Bytes) : Option Bytes :=
  let zeroes := (vch.takeWhile (· = 0)).length
  let vch := vch.dropWhile (· = 0)
  let b58 := List.replicate (vch.length * 138 / 100 + 1) 0
  (Radix.convert 58 256 (vch.map UInt8.toNat) b58).map fun b58 =>
    List.replicate zeroes 49 ++ (b58.dropWhile (· = 0)).map fun d => pszBase58.getD d 0

/-! ## Data with a version and a checksum -/

inductive Base58Type where
  | pubkeyAddress
  | scriptAddress
  | secretKey
  deriving DecidableEq, Repr

/-- `Params().Base58Prefix` of a network. -/
def base58Prefix : Network → Base58Type → Bytes
  | .main, .pubkeyAddress => [0]
  | .main, .scriptAddress => [5]
  | .main, .secretKey => [128]
  | .testNet, .pubkeyAddress | .regTest, .pubkeyAddress => [111]
  | .testNet, .scriptAddress | .regTest, .scriptAddress => [196]
  | .testNet, .secretKey | .regTest, .secretKey => [239]

/-- The bytes up to the first zero, which ends a C string. -/
def cStr (str : Bytes) : Bytes := str.takeWhile (· ≠ 0)

structure CBase58Data where
  vchVersion : Bytes := []
  vchData : Bytes := []
  deriving DecidableEq, Repr

section Check

variable (H : Bytes → UInt256)

/-- The checksum of bytes. -/
def base58Checksum (vch : Bytes) : Bytes := (serializeUInt256 (H vch)).take 4

/-- `EncodeBase58Check`. -/
def encodeBase58Check (vchIn : Bytes) : Option Bytes :=
  encodeBase58 (vchIn ++ base58Checksum H vchIn)

/-- `DecodeBase58Check`. -/
def decodeBase58Check (psz : Bytes) : Option (Option Bytes) :=
  (decodeBase58 psz).map fun decoded => decoded.bind fun vchRet =>
    if vchRet.length < 4 then none
    else if base58Checksum H (vchRet.take (vchRet.length - 4)) ≠ vchRet.drop (vchRet.length - 4)
      then none
    else some (vchRet.take (vchRet.length - 4))

namespace CBase58Data

/-- `SetString`. -/
def setString (psz : Bytes) (nVersionBytes : ℕ) : Option (Bool × CBase58Data) :=
  (decodeBase58Check H psz).map fun decoded =>
    match decoded with
    | none => (false, {})
    | some vchTemp =>
      if vchTemp.length < nVersionBytes then (false, {})
      else (true, ⟨vchTemp.take nVersionBytes, vchTemp.drop nVersionBytes⟩)

/-- `ToString`. -/
def toString (data : CBase58Data) : Option Bytes :=
  encodeBase58Check H (data.vchVersion ++ data.vchData)

end CBase58Data

/-- An address of a key. -/
def CticoinAddress.ofKeyID (network : Network) (id : CKeyID) : CBase58Data :=
  ⟨base58Prefix network .pubkeyAddress, leBytes 20 id.toNat⟩

namespace CticoinSecret

variable (network : Network)

/-- `SetKey`, which asserts that the key is valid. -/
def setKey (vchSecret : CKey) : Option CBase58Data :=
  if vchSecret.fValid then
    some ⟨base58Prefix network .secretKey,
      vchSecret.bytes ++ if vchSecret.fCompressed then [1] else []⟩
  else none

/-- `GetKey`. -/
def getKey (secret : CBase58Data) : CKey :=
  CKey.set (secret.vchData.take 32)
    (32 < secret.vchData.length && secret.vchData.getD 32 0 == 1) {}

def isValid (secret : CBase58Data) : Bool :=
  (secret.vchData.length == 32 || secret.vchData.length == 33 && secret.vchData.getD 32 0 == 1) &&
    secret.vchVersion == base58Prefix network .secretKey

/-- `SetString`. -/
def setString (strSecret : Bytes) : Option (Bool × CBase58Data) :=
  (CBase58Data.setString H (cStr strSecret) 1).map fun r => (r.1 && isValid network r.2, r.2)

end CticoinSecret

end Check

/-! ## Round trips -/

/-- The characters by their numbers. -/
theorem pszBase58_eq : pszBase58 = [
  49, 50, 51, 52, 53, 54, 55, 56, 57, 65, 66, 67, 68, 69, 70, 71, 72, 74, 75, 76, 77, 78, 80, 81,
  82, 83, 84, 85, 86, 87, 88, 89, 90, 97, 98, 99, 100, 101, 102, 103, 104, 105, 106, 107, 109,
  110, 111, 112, 113, 114, 115, 116, 117, 118, 119, 120, 121, 122] := by
  decide

theorem sorted_pszBase58 : pszBase58.Pairwise (· < ·) := by
  rw [pszBase58_eq]
  exact List.isChain_iff_pairwise.mp (by decide)

/-- A character for a digit is no space, and only that for zero is a `1`. -/
theorem base58_digit {d : ℕ} (h : d < 58) : pszBase58.getD d 0 ∈ pszBase58 ∧
    pszBase58.idxOf? (pszBase58.getD d 0) = some d ∧ (pszBase58.getD d 0 = 49 ↔ d = 0) := by
  have hlen : d < pszBase58.length := h.trans_le (congrArg List.length pszBase58_eq).ge
  have hbefore : ∀ j (hj : j < d), pszBase58[j] < pszBase58[d] := fun j hj =>
    List.pairwise_iff_getElem.mp sorted_pszBase58 j d (hj.trans hlen) hlen hj
  rw [List.getD_eq_getElem _ _ hlen]
  refine ⟨List.getElem_mem hlen, List.idxOf?_eq_some_iff.mpr ⟨hlen, rfl, fun j hj => ?_⟩, ?_⟩
  · exact UInt8.ne_of_lt (hbefore j hj)
  · have hfirst : pszBase58[0] = 49 := by simp only [pszBase58_eq, List.getElem_cons_zero]
    refine ⟨fun hone => Nat.eq_zero_of_not_pos fun hpos => ?_, by rintro rfl; exact hfirst⟩
    exact UInt8.ne_of_lt (hbefore 0 hpos) (hfirst.trans hone.symm)

theorem base58_char : ∀ c ∈ pszBase58, isSpace c = false ∧ c ≠ 0 ∧ c ≠ 35 := by
  intro c hc
  have hge : 49 ≤ c.toNat := by
    have hsorted := sorted_pszBase58
    rw [pszBase58_eq] at hc hsorted
    obtain rfl | hc := List.mem_cons.mp hc
    · exact le_rfl
    · exact (UInt8.lt_iff_toNat_lt.mp (List.rel_of_pairwise_cons hsorted hc)).le
  have hne : ∀ b : UInt8, b.toNat < 49 → c ≠ b := by
    rintro b hb rfl
    omega
  refine ⟨?_, hne 0 (by decide), hne 35 (by decide)⟩
  have hle : ¬c ≤ 13 := by
    rw [UInt8.le_iff_toNat_le]
    exact not_le.mpr (lt_of_lt_of_le (by decide) hge)
  rw [isSpace, decide_eq_false hle, Bool.and_false, Bool.or_false, beq_eq_false_iff_ne]
  exact hne 32 (by decide)

/-- Characters are read as the digits they were written for. -/
theorem decodeBase58Loop_eq : ∀ {ds b256 : List ℕ}, (∀ d ∈ ds, d < 58) →
    decodeBase58Loop (ds.map fun d => pszBase58.getD d 0) b256 =
      (Radix.convert 256 58 ds b256).map fun b256 => some (b256, [])
  | [], b256, _ => rfl
  | d :: ds, b256, h => by
    obtain ⟨hd, hds⟩ := List.forall_mem_cons.mp h
    obtain ⟨hmem, hdigit, -⟩ := base58_digit hd
    rw [List.map_cons]
    unfold decodeBase58Loop Radix.convert
    rw [if_neg (by rw [(base58_char _ hmem).1]; exact Bool.false_ne_true), hdigit]
    dsimp only
    split
    · exact decodeBase58Loop_eq hds
    · rfl

/-- The zeros at the front of bytes, and the number behind them. -/
theorem bytes_split (vch : Bytes) : vch = List.replicate (vch.takeWhile (· = 0)).length 0 ++
      vch.dropWhile (· = 0) ∧
    ((vch.dropWhile (· = 0)).map UInt8.toNat).dropWhile (· = 0) =
      (vch.dropWhile (· = 0)).map UInt8.toNat := by
  constructor
  · rw [← Radix.takeWhile_eq_replicate, List.takeWhile_append_dropWhile]
  · cases hrest : vch.dropWhile (· = 0) with
    | nil => rfl
    | cons c rest =>
      have hhead := List.head_dropWhile_not (· = 0) (l := vch) (by rw [hrest]; nofun)
      simp only [hrest, List.head_cons, decide_eq_false_iff_not] at hhead
      rw [List.map_cons, List.dropWhile_cons_of_neg]
      rw [decide_eq_true_eq]
      exact fun hzero => hhead (UInt8.toNat_inj.mp hzero)

/-- A text of ones and of digits that do not start with zero. -/
theorem base58_text {ds : List ℕ} (h : ∀ d ∈ ds, d < 58) (hfront : ds.dropWhile (· = 0) = ds)
    (z : ℕ) : (ds.map fun d => pszBase58.getD d 0).dropWhile (· = 49) =
        ds.map (fun d => pszBase58.getD d 0) ∧
      ∀ c ∈ List.replicate z 49 ++ ds.map fun d => pszBase58.getD d 0, c ∈ pszBase58 := by
  refine ⟨?_, List.forall_mem_append.mpr ⟨fun c hc => ?_, fun c hc => ?_⟩⟩
  · cases ds with
    | nil => rfl
    | cons d ds =>
      have hne : d ≠ 0 := by
        rintro rfl
        rw [List.dropWhile_cons_of_pos (by rfl)] at hfront
        have hlen := (List.dropWhile_sublist (· = 0) (l := ds)).length_le
        rw [hfront, List.length_cons] at hlen
        omega
      rw [List.map_cons, List.dropWhile_cons_of_neg]
      rw [decide_eq_true_eq, (base58_digit (h d List.mem_cons_self)).2.2]
      exact hne
  · rw [List.eq_of_mem_replicate hc, pszBase58_eq]
    exact List.mem_cons_self
  · obtain ⟨d, hd, rfl⟩ := List.mem_map.mp hc
    exact (base58_digit (h d hd)).1

/-- Ones and digits are read as zeros and the number of the digits. -/
theorem decodeBase58_text {ds : List ℕ} (h : ∀ d ∈ ds, d < 58) (hfront : ds.dropWhile (· = 0) = ds)
    (z : ℕ) : decodeBase58 (List.replicate z 49 ++ ds.map fun d => pszBase58.getD d 0) =
      some (some (List.replicate z 0 ++
        (Nat.digits 256 (Radix.value 58 ds)).reverse.map UInt8.ofNat)) := by
  obtain ⟨hones, hmem⟩ := base58_text h hfront z
  obtain ⟨b256, hb256, hbytes⟩ := Radix.convert_eq_digits (b := 256) (m := 58) (p := 1000)
    (q := 733) (by decide) (by decide) (by decide) (by decide +kernel) le_rfl h
  set text := ds.map fun d => pszBase58.getD d 0
  have hspace : (List.replicate z 49 ++ text).dropWhile isSpace = List.replicate z 49 ++ text :=
    List.dropWhile_eq_self_iff.mpr fun hpos => by
      rw [(base58_char _ (hmem _ (List.getElem_mem hpos))).1]
      exact Bool.false_ne_true
  have hone : ∀ c ∈ List.replicate z (49 : UInt8), decide (c = 49) = true := fun c hc =>
    decide_eq_true (List.eq_of_mem_replicate hc)
  have htake : text.takeWhile (· = 49) = [] := by
    have hsum := List.takeWhile_append_dropWhile (p := (· = 49)) (l := text)
    rwa [hones, List.append_left_eq_self] at hsum
  unfold decodeBase58
  dsimp only
  rw [hspace, List.takeWhile_append_of_pos hone, htake, List.append_nil, List.length_replicate,
    List.dropWhile_append_of_pos hone, hones, List.length_map, decodeBase58Loop_eq h, hb256]
  change some (some (List.replicate z 0 ++ (b256.dropWhile (· = 0)).map UInt8.ofNat)) = _
  rw [hbytes]

theorem map_toNat_lt_base (vch : Bytes) : ∀ d ∈ vch.map UInt8.toNat, d < 256 := fun d hd => by
  obtain ⟨c, -, rfl⟩ := List.mem_map.mp hd
  exact c.toNat_lt

theorem digits58_lt (n : ℕ) : ∀ d ∈ (Nat.digits 58 n).reverse, d < 58 := fun _ hd =>
  Nat.digits_lt_base (by decide) (List.mem_reverse.mp hd)

/-- The text of bytes : ones for the zeros at the front, and the digits of the number. -/
theorem encodeBase58_eq (vch : Bytes) : encodeBase58 vch =
    some (List.replicate (vch.takeWhile (· = 0)).length 49 ++
      (Nat.digits 58 (Radix.value 256 ((vch.dropWhile (· = 0)).map UInt8.toNat))).reverse.map
        fun d => pszBase58.getD d 0) := by
  obtain ⟨b58, hb58, hdigits⟩ := Radix.convert_eq_digits (b := 58) (m := 256) (p := 100) (q := 138)
    (by decide) (by decide) (by decide) (by decide) le_rfl
    (map_toNat_lt_base (vch.dropWhile (· = 0)))
  rw [List.length_map] at hb58
  unfold encodeBase58
  dsimp only
  rw [hb58, Option.map_some, hdigits]

/-- Bytes are read back from their text, and this has no space in it. -/
theorem decodeBase58_encodeBase58 (vch : Bytes) : ∃ str, encodeBase58 vch = some str ∧
    (∀ c ∈ str, c ∈ pszBase58) ∧ decodeBase58 str = some (some vch) := by
  obtain ⟨hsplit, hfront⟩ := bytes_split vch
  have hstrip := Radix.digits_dropWhile (b := 58) (by decide)
    (Radix.value 256 ((vch.dropWhile (· = 0)).map UInt8.toNat))
  refine ⟨_, encodeBase58_eq vch, (base58_text (digits58_lt _) hstrip _).2, ?_⟩
  rw [decodeBase58_text (digits58_lt _) hstrip, Radix.value_digits,
    ← Radix.dropWhile_eq_digits (by decide) (map_toNat_lt_base _), hfront, List.map_map]
  have hbytes : (vch.dropWhile (· = 0)).map (UInt8.ofNat ∘ UInt8.toNat) = vch.dropWhile (· = 0) :=
    (List.map_congr_left fun c _ => UInt8.ofNat_toNat).trans (List.map_id _)
  rw [hbytes, ← hsplit]

section Check

variable {H : Bytes → UInt256}

theorem length_base58Checksum (vch : Bytes) : (base58Checksum H vch).length = 4 := by
  unfold base58Checksum serializeUInt256
  rw [List.length_take, length_leBytes]
  rfl

/-- A checksum that was written is right. -/
theorem decodeBase58Check_encodeBase58Check (vch : Bytes) : ∃ str,
    encodeBase58Check H vch = some str ∧ (∀ c ∈ str, c ∈ pszBase58) ∧
      decodeBase58Check H str = some (some vch) := by
  obtain ⟨str, hstr, hmem, hdecode⟩ := decodeBase58_encodeBase58 (vch ++ base58Checksum H vch)
  have hlen : (vch ++ base58Checksum H vch).length = vch.length + 4 := by
    rw [List.length_append, length_base58Checksum]
  refine ⟨str, hstr, hmem, ?_⟩
  unfold decodeBase58Check
  rw [hdecode, Option.map_some, Option.bind_some, hlen, if_neg (by omega), Nat.add_sub_cancel,
    List.take_left, List.drop_left, if_neg (not_not.mpr rfl)]

theorem CBase58Data.setString_toString (data : CBase58Data) : ∃ str, data.toString H = some str ∧
    (∀ c ∈ str, c ∈ pszBase58) ∧
      CBase58Data.setString H str data.vchVersion.length = some (true, data) := by
  obtain ⟨str, hstr, hmem, hdecode⟩ :=
    decodeBase58Check_encodeBase58Check (H := H) (data.vchVersion ++ data.vchData)
  refine ⟨str, hstr, hmem, ?_⟩
  unfold setString
  rw [hdecode, Option.map_some]
  dsimp only
  rw [if_neg (by rw [List.length_append]; omega), List.take_left, List.drop_left]

/-- There is no zero in a text. -/
theorem cStr_eq {str : Bytes} (h : ∀ c ∈ str, c ∈ pszBase58) : cStr str = str :=
  List.takeWhile_eq_self_iff.mpr fun c hc => decide_eq_true (base58_char c (h c hc)).2.1

namespace CticoinSecret

variable (network : Network) {key : CKey}

/-- The data of a secret, and the key that is read from it. -/
theorem getKey_setKey (h : key.IsSecret) : ∃ secret, setKey network key = some secret ∧
    isValid network secret = true ∧ secret.vchVersion.length = 1 ∧ getKey secret = key := by
  have hversion : (base58Prefix network .secretKey).length = 1 := by
    cases network <;> rfl
  refine ⟨_, if_pos h.valid, ?_, hversion, ?_⟩
  · unfold isValid
    rw [h.bytes_eq]
    cases key.fCompressed <;> simp [h.length]
  · unfold getKey
    rw [h.bytes_eq]
    cases hcompressed : key.fCompressed
    · simp [h.length, ← hcompressed, h.set_eq]
    · simp [h.length, ← hcompressed, h.set_eq]

/-- A secret is read back from its text. -/
theorem setString_toString (h : key.IsSecret) : ∃ secret str, setKey network key = some secret ∧
    secret.toString H = some str ∧ (∀ c ∈ str, c ∈ pszBase58) ∧
      setString H network str = some (true, secret) ∧ getKey secret = key := by
  obtain ⟨secret, hsecret, hvalid, hversion, hkey⟩ := getKey_setKey network h
  obtain ⟨str, hstr, hmem, hset⟩ := CBase58Data.setString_toString (H := H) secret
  refine ⟨secret, str, hsecret, hstr, hmem, ?_, hkey⟩
  unfold setString
  rw [cStr_eq hmem, ← hversion, hset, Option.map_some, hvalid]
  rfl

end CticoinSecret

end Check

end Ticoin
