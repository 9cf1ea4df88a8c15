import Ticoin.Serialize

/-!
# util.cpp : text

Strings are bytes. `HexStr` writes two hexadecimal digits for every byte, and `ParseHex` reads pairs
of digits, between which there may be space, until something else comes : it reads back what was
written (`parseHex_hexStr`). `i64tostr` writes a number in decimal and `atoi64` reads it back
(`atoi64_i64tostr`).
-/

namespace Ticoin

open Codec

/-- The bytes of an ASCII text. -/
def asciiBytes (s : String) : Bytes := s.toList.map fun c => UInt8.ofNat c.toNat

/-- `isspace`. -/
def isSpace (c : UInt8) : Bool := c == 32 || 9 ≤ c && c ≤ 13

/-- `tolower` : a letter in lower case. -/
def toLower (c : UInt8) : UInt8 := if 65 ≤ c ∧ c ≤ 90 then c + 32 else c

/-! ## Hexadecimal -/

/-- `HexDigit`, with `none` for a character that is no digit. -/
def hexDigit (c : UInt8) : Option UInt8 :=
  if 48 ≤ c ∧ c ≤ 57 then some (c - 48)
  else if 65 ≤ c ∧ c ≤ 70 then some (c - 55)
  else if 97 ≤ c ∧ c ≤ 102 then some (c - 87)
  else none

/-- `ParseHex`. The zero byte at the end of the string is no digit. -/
def parseHex : Bytes → Bytes
  | [] => []
  | c :: psz =>
    if isSpace c then parseHex psz
    else match hexDigit c with
      | none => []
      | some n =>
        match psz with
        | [] => []
        | c' :: psz =>
          match hexDigit c' with
          | none => []
          | some n' => (n <<< 4 ||| n') :: parseHex psz

/-- One entry of `hexmap`. -/
def hexChar (n : UInt8) : UInt8 := if n < 10 then n + 48 else n + 87

/-- `HexStr` without spaces. -/
def hexStr (vch : Bytes) : Bytes :=
  vch.flatMap fun val : UInt8 => [hexChar (val >>> 4), hexChar (val &&& 15)]

/-- The two digits of a byte. -/
theorem hexDigit_hexChar (val : UInt8) : hexDigit (hexChar (val >>> 4)) = some (val >>> 4) ∧
    hexDigit (hexChar (val &&& 15)) = some (val &&& 15) ∧ isSpace (hexChar (val >>> 4)) = false ∧
    val >>> 4 <<< 4 ||| val &&& 15 = val := by
  obtain ⟨⟨n⟩⟩ := val
  revert n
  decide +kernel

theorem parseHex_space {c : UInt8} (h : isSpace c = true) (psz : Bytes) :
    parseHex (c :: psz) = parseHex psz := by
  conv_lhs => unfold parseHex
  rw [if_pos h]

/-- What was written is read back. -/
theorem parseHex_hexStr : ∀ vch : Bytes, parseHex (hexStr vch) = vch
  | [] => rfl
  | val :: vch => by
    obtain ⟨hhigh, hlow, hspace, hval⟩ := hexDigit_hexChar val
    change parseHex (hexChar (val >>> 4) :: hexChar (val &&& 15) :: hexStr vch) = _
    unfold parseHex
    rw [hspace, if_neg (by decide), hhigh]
    dsimp only
    rw [hlow]
    dsimp only
    rw [hval, parseHex_hexStr vch]

/-! ## Decimal -/

/-- The decimal digits of a number. -/
def decimal (n : ℕ) : Bytes := (Nat.toDigits 10 n).map fun c => UInt8.ofNat c.toNat

/-- `i64tostr`. -/
def i64tostr (n : Int64) : Bytes :=
  if n < 0 then 45 :: decimal n.toInt.natAbs else decimal n.toInt.natAbs

def isDigit (c : UInt8) : Bool := 48 ≤ c && c ≤ 57

/-- The number that the digits at the start of a text stand for. -/
def leadingNumber (psz : Bytes) : ℕ :=
  (psz.takeWhile isDigit).foldl (fun n c => 10 * n + (c.toNat - 48)) 0

/-- `atoi64` : space, a sign and digits, and the nearest number that fits. -/
def atoi64 (psz : Bytes) : Int64 :=
  match psz.dropWhile isSpace with
  | [] => 0
  | c :: psz =>
    if c = 45 then .ofInt (max (-2 ^ 63) (-leadingNumber psz))
    else if c = 43 then .ofInt (min (2 ^ 63 - 1) (leadingNumber psz))
    else .ofInt (min (2 ^ 63 - 1) (leadingNumber (c :: psz)))

theorem digitChar_eq {d : ℕ} (h : d < 10) : UInt8.ofNat d.digitChar.toNat = .ofNat (48 + d) := by
  interval_cases d <;> rfl

/-- The last digit comes after those of a tenth. -/
theorem decimal_eq (n : ℕ) :
    decimal n = (if n < 10 then [] else decimal (n / 10)) ++ [.ofNat (48 + n % 10)] := by
  unfold decimal
  rw [Nat.toDigits_eq_if (by omega)]
  split
  · rename_i hlt
    rw [List.map_singleton, digitChar_eq hlt, Nat.mod_eq_of_lt hlt, List.nil_append]
  · rw [List.map_append, List.map_singleton, digitChar_eq (Nat.mod_lt n (by omega))]

theorem isDigit_ofNat {d : ℕ} (h : d < 10) : isDigit (.ofNat (48 + d)) = true := by
  interval_cases d <;> rfl

/-- What is written in decimal are digits, and they stand for the number. -/
theorem decimal_spec (n : ℕ) : (∀ c ∈ decimal n, isDigit c = true) ∧
    (decimal n).foldl (fun n c => 10 * n + (c.toNat - 48)) 0 = n := by
  induction n using Nat.strong_induction_on with
  | _ n ih =>
    have hlast : (UInt8.ofNat (48 + n % 10)).toNat - 48 = n % 10 := by
      rw [UInt8.toNat_ofNat']
      omega
    rw [decimal_eq, List.forall_mem_append, List.forall_mem_singleton, List.foldl_append,
      List.foldl_cons, List.foldl_nil, hlast]
    split
    · rename_i hlt
      exact ⟨⟨fun _ hc => absurd hc List.not_mem_nil, isDigit_ofNat (Nat.mod_lt n (by omega))⟩,
        (Nat.zero_add _).trans (Nat.mod_eq_of_lt hlt)⟩
    · obtain ⟨hdigits, hvalue⟩ := ih (n / 10) (by omega)
      rw [hvalue]
      exact ⟨⟨hdigits, isDigit_ofNat (Nat.mod_lt n (by omega))⟩, by omega⟩

theorem length_decimal_le : ∀ {k n : ℕ}, 0 < k → n < 10 ^ k → (decimal n).length ≤ k
  | 0, _, hk, _ => absurd hk (lt_irrefl 0)
  | k + 1, n, _, h => by
    rw [decimal_eq, List.length_append, List.length_singleton]
    split
    · exact Nat.succ_le_succ (Nat.zero_le k)
    · have hk : 0 < k := by
        rcases k with _ | k
        · omega
        · exact Nat.succ_pos k
      rw [pow_succ] at h
      exact Nat.succ_le_succ (length_decimal_le hk (by omega))

theorem leadingNumber_decimal (n : ℕ) : leadingNumber (decimal n) = n := by
  obtain ⟨hdigits, hvalue⟩ := decimal_spec n
  unfold leadingNumber
  rwa [List.takeWhile_eq_self_iff.mpr hdigits]

/-- A number is read back from its decimal text. -/
theorem atoi64_i64tostr (n : Int64) : atoi64 (i64tostr n) = n := by
  have hlt := n.toInt_lt
  have hle := n.le_toInt
  have hnonneg : ∀ c, isDigit c = true → isSpace c = false ∧ c ≠ 45 ∧ c ≠ 43 := by
    intro c
    obtain ⟨⟨c⟩⟩ := c
    revert c
    decide +kernel
  unfold i64tostr
  split
  · rename_i hneg
    rw [Int64.lt_iff_toInt_lt, Int64.toInt_zero] at hneg
    unfold atoi64
    rw [List.dropWhile_cons_of_neg (by decide)]
    dsimp only
    rw [if_pos rfl, leadingNumber_decimal, show max (-2 ^ 63) (-(n.toInt.natAbs : ℤ)) = n.toInt by
      omega, Int64.ofInt_toInt]
  · rename_i hneg
    rw [Int64.lt_iff_toInt_lt, Int64.toInt_zero] at hneg
    obtain ⟨c, digits, hcons⟩ := List.exists_cons_of_ne_nil (show decimal n.toInt.natAbs ≠ [] by
      rw [decimal_eq]
      exact List.concat_ne_nil _ _)
    obtain ⟨hspace, hminus, hplus⟩ := hnonneg c
      ((decimal_spec n.toInt.natAbs).1 c (by simp [hcons]))
    unfold atoi64
    rw [hcons, List.dropWhile_cons_of_neg (by simp [hspace])]
    dsimp only
    rw [if_neg hminus, if_neg hplus, ← hcons, leadingNumber_decimal,
      show min (2 ^ 63 - 1) (n.toInt.natAbs : ℤ) = n.toInt by omega, Int64.ofInt_toInt]

end Ticoin
