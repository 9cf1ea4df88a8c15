import Ticoin.Core
import Ticoin.Util
import Mathlib.Data.Rat.Cast.Defs
import Mathlib.Tactic.FieldSimp
import Mathlib.Tactic.Ring

/-!
# util.cpp : amounts as text

`FormatMoney` writes an amount in coins with two to eight decimals. `ParseMoney` reads at most ten
digits before the point and at most eight after it, and space around them ; both parts may be empty.

What was written is read back, and what is read is the number that the text stands for
(`parseMoney_formatMoney`). Ten digits keep all products and sums within 64 bits : the model of the
parser has no result if one overflows, and it always has one.
-/

namespace Ticoin

open Codec

/-! ## The code -/

/-- A result of 64 bits, none if it overflows. -/
def checked (n : ℤ) : Option ℤ := if -2 ^ 63 ≤ n ∧ n < 2 ^ 63 then some n else none

/-- The digits after the point, as long as `nMult` is positive : the units and what follows. -/
def unitsLoop (nMult nUnits : ℤ) : Bytes → Option (ℤ × Bytes)
  | [] => some (nUnits, [])
  | c :: p =>
    if isDigit c ∧ nMult > 0 then do
      let term ← checked (nMult * (c.toNat - 48))
      let nUnits ← checked (nUnits + term)
      unitsLoop (nMult / 10) nUnits p
    else some (nUnits, c :: p)

/-- The digits before the point : what they are, the units after the point, and what follows. -/
def wholeLoop (strWhole : Bytes) : Bytes → Option (Option (Bytes × ℤ × Bytes))
  | [] => some (some (strWhole, 0, []))
  | c :: p =>
    if c = 46 then do
      let (nUnits, p) ← unitsLoop (1000000 * 10) 0 p
      some (some (strWhole, nUnits, p))
    else if isSpace c then some (some (strWhole, 0, c :: p))
    else if ¬ isDigit c then some none
    else wholeLoop (strWhole ++ [c]) p

/-- `ParseMoney`. -/
def parseMoney (str : Bytes) : Option (Option ℤ) := do
  match ← wholeLoop [] ((str.takeWhile (· ≠ 0)).dropWhile isSpace) with
  | none => some none
  | some (strWhole, nUnits, p) =>
    if ¬ p.all isSpace then some none
    else if strWhole.length > 10 then some none
    else if nUnits < 0 ∨ nUnits > COIN then some none
    else do
      let nCoins ← checked ((atoi64 strWhole).toInt * COIN)
      let nValue ← checked (nCoins + nUnits)
      some (some nValue)

/-- How many zeros are trimmed from a text that is given from its end : the character two places
before each is a digit. -/
def trimCount : Bytes → ℕ
  | c :: d :: e :: str => if c = 48 ∧ isDigit e then trimCount (d :: e :: str) + 1 else 0
  | _ => 0

/-- A text with zeros in front, if it is shorter than a width. -/
def zeroPad (width : ℕ) (str : Bytes) : Bytes := List.replicate (width - str.length) 48 ++ str

/-- `FormatMoney`. -/
def formatMoney (n : Int64) (fPlus : Bool) : Bytes :=
  let n_abs := if n > 0 then n else -n
  let quotient := n_abs / 100000000
  let remainder := n_abs % 100000000
  let str := i64tostr quotient ++ 46 :: zeroPad 8 (i64tostr remainder)
  let str := str.take (str.length - trimCount str.reverse)
  if n < 0 then 45 :: str else if fPlus ∧ n > 0 then 43 :: str else str

/-! ## Numbers -/

/-- The number that digits stand for. -/
def digitsValue (digits : Bytes) : ℕ := digits.foldl (fun n c => 10 * n + (c.toNat - 48)) 0

/-- A text with the parts of an amount. -/
structure MoneyText where
  before : Bytes
  whole : Bytes
  fraction : Option Bytes
  after : Bytes

namespace MoneyText

def text (m : MoneyText) : Bytes :=
  m.before ++ m.whole ++ (m.fraction.elim [] (46 :: ·)) ++ m.after

/-- There are spaces around the number, and digits before and after the point. -/
structure IsAmount (m : MoneyText) : Prop where
  before : m.before.all isSpace
  whole : m.whole.all isDigit
  fraction : (m.fraction.getD []).all isDigit
  after : m.after.all isSpace

/-- The number of coins. -/
def coins (m : MoneyText) : ℚ :=
  digitsValue m.whole + digitsValue (m.fraction.getD []) / 10 ^ (m.fraction.getD []).length

end MoneyText

theorem foldl_digits (n : ℕ) : ∀ digits : Bytes,
    digits.foldl (fun n c => 10 * n + (c.toNat - 48)) n =
      n * 10 ^ digits.length + digitsValue digits
  | [] => by simp [digitsValue]
  | c :: digits => by
    rw [digitsValue, List.foldl_cons, List.foldl_cons, foldl_digits _ digits,
      foldl_digits (10 * 0 + (c.toNat - 48)) digits, List.length_cons, pow_succ]
    ring

theorem digitsValue_append (digits digits' : Bytes) :
    digitsValue (digits ++ digits') =
      digitsValue digits * 10 ^ digits'.length + digitsValue digits' := by
  rw [digitsValue, List.foldl_append, foldl_digits]
  rfl

theorem digitsValue_cons (c : UInt8) (digits : Bytes) :
    digitsValue (c :: digits) = (c.toNat - 48) * 10 ^ digits.length + digitsValue digits := by
  rw [digitsValue, List.foldl_cons, foldl_digits]
  simp

theorem isDigit_iff (c : UInt8) : isDigit c = true ↔ 48 ≤ c.toNat ∧ c.toNat ≤ 57 := by
  rw [isDigit, Bool.and_eq_true, decide_eq_true_iff, decide_eq_true_iff, UInt8.le_iff_toNat_le,
    UInt8.le_iff_toNat_le]
  rfl

theorem digitsValue_lt : ∀ {digits : Bytes}, digits.all isDigit = true →
    digitsValue digits < 10 ^ digits.length
  | [], _ => by simp [digitsValue]
  | c :: digits, h => by
    rw [List.all_cons, Bool.and_eq_true] at h
    have ih := digitsValue_lt h.2
    have hc := (isDigit_iff c).mp h.1
    rw [digitsValue_cons, List.length_cons, pow_succ]
    have hle : (c.toNat - 48) * 10 ^ digits.length ≤ 9 * 10 ^ digits.length :=
      Nat.mul_le_mul_right _ (by omega)
    omega

theorem digitsValue_replicate (k : ℕ) : digitsValue (List.replicate k 48) = 0 := by
  induction k with
  | zero => rfl
  | succ k ih =>
    rw [List.replicate_succ, digitsValue_cons, ih]
    simp

/-! ## The parser -/

theorem checked_eq {n : ℤ} (hle : -2 ^ 63 ≤ n) (hlt : n < 2 ^ 63) : checked n = some n :=
  if_pos ⟨hle, hlt⟩

/-- With room for `j` more digits the loop reads digits, until there are `j` of them or something
else comes. -/
theorem unitsLoop_spec : ∀ (p : Bytes) (j : ℕ) (nUnits : ℤ), 0 ≤ nUnits →
    nUnits + 10 ^ j ≤ 10 ^ 8 →
    ∃ digits rest, p = digits ++ rest ∧ digits.all isDigit = true ∧ digits.length ≤ j ∧
      (digits.length = j ∨ ∀ c ∈ rest.head?, isDigit c = false) ∧
      unitsLoop (10 ^ j / 10) nUnits p =
        some (nUnits + digitsValue digits * 10 ^ (j - digits.length), rest)
  | [], j, nUnits, _, _ => by
    refine ⟨[], [], rfl, rfl, Nat.zero_le j, Or.inr nofun, ?_⟩
    simp [unitsLoop, digitsValue]
  | c :: p, j, nUnits, hnonneg, hmax => by
    unfold unitsLoop
    by_cases hc : isDigit c = true ∧ (10 ^ j / 10 : ℤ) > 0
    · rw [if_pos hc]
      obtain ⟨j, rfl⟩ : ∃ i, j = i + 1 := by
        cases j with
        | zero => exact absurd hc.2 (by decide)
        | succ i => exact ⟨i, rfl⟩
      have hdiv : (10 ^ (j + 1) / 10 : ℤ) = 10 ^ j := by
        rw [pow_succ]
        exact Int.mul_ediv_cancel _ (by decide)
      have hdigit := (isDigit_iff c).mp hc.1
      have hpow : (0 : ℤ) < 10 ^ j := by positivity
      rw [pow_succ] at hmax
      have hterm : (10 : ℤ) ^ j * (c.toNat - 48) ≤ 10 ^ j * 9 :=
        Int.mul_le_mul_of_nonneg_left (by omega) hpow.le
      have hterm' : 0 ≤ (10 : ℤ) ^ j * (c.toNat - 48) := Int.mul_nonneg hpow.le (by omega)
      rw [hdiv, checked_eq (by omega) (by omega), Option.bind_eq_bind, Option.bind_some,
        checked_eq (by omega) (by omega), Option.bind_some]
      obtain ⟨digits, rest, rfl, hall, hlen, hstop, hrun⟩ :=
        unitsLoop_spec p j (nUnits + 10 ^ j * (c.toNat - 48)) (by omega) (by omega)
      refine ⟨c :: digits, rest, rfl, ?_, Nat.succ_le_succ hlen, ?_, ?_⟩
      · rw [List.all_cons, hc.1, hall]
        rfl
      · rw [List.length_cons]
        exact hstop.imp_left (congrArg (· + 1))
      · rw [hrun, digitsValue_cons, List.length_cons, Nat.add_sub_add_right]
        have hsplit : (10 : ℤ) ^ digits.length * 10 ^ (j - digits.length) = 10 ^ j := by
          rw [← pow_add, Nat.add_sub_cancel' hlen]
        push_cast [Nat.cast_sub hdigit.1]
        rw [← hsplit]
        ring_nf
    · rw [if_neg hc]
      refine ⟨[], c :: p, rfl, rfl, Nat.zero_le j, ?_, ?_⟩
      · by_cases hj : j = 0
        · exact Or.inl hj.symm
        · refine Or.inr ?_
          rintro d ⟨⟩
          rw [← Bool.not_eq_true]
          intro hd
          obtain ⟨i, rfl⟩ := Nat.exists_eq_succ_of_ne_zero hj
          refine hc ⟨hd, ?_⟩
          rw [Nat.succ_eq_add_one, pow_succ, Int.mul_ediv_cancel _ (by decide)]
          positivity
      · simp [digitsValue]

/-- What the parser has read when both loops are done. -/
structure HasRead (str strWhole : Bytes) (nUnits : ℤ) (rest : Bytes) (fraction : Option Bytes) :
    Prop where
  text : str = strWhole ++ fraction.elim [] (46 :: ·) ++ rest
  allWhole : strWhole.all isDigit = true
  allFraction : (fraction.getD []).all isDigit = true
  length : (fraction.getD []).length ≤ 8
  units : nUnits = digitsValue (fraction.getD []) * 10 ^ (8 - (fraction.getD []).length)

theorem HasRead.units_bounds {str strWhole rest : Bytes} {nUnits : ℤ} {fraction : Option Bytes}
    (h : HasRead str strWhole nUnits rest fraction) : 0 ≤ nUnits ∧ nUnits < 10 ^ 8 := by
  have hlt : digitsValue (fraction.getD []) * 10 ^ (8 - (fraction.getD []).length) < 10 ^ 8 := by
    calc digitsValue (fraction.getD []) * 10 ^ (8 - (fraction.getD []).length)
        < 10 ^ (fraction.getD []).length * 10 ^ (8 - (fraction.getD []).length) :=
          Nat.mul_lt_mul_of_pos_right (digitsValue_lt h.allFraction) (Nat.pow_pos (by decide))
      _ = 10 ^ 8 := by rw [← pow_add, Nat.add_sub_cancel' h.length]
  have hunits := h.units
  rw [← Nat.cast_ofNat, ← Nat.cast_pow, ← Nat.cast_mul] at hunits
  omega

/-- The loops have a result, and it is what they have read. -/
theorem wholeLoop_spec : ∀ (p w : Bytes), w.all isDigit = true →
    ∃ result, wholeLoop w p = some result ∧ ∀ strWhole nUnits rest,
      result = some (strWhole, nUnits, rest) →
      ∃ fraction, HasRead (w ++ p) strWhole nUnits rest fraction
  | [], w, hw => by
    refine ⟨_, rfl, ?_⟩
    rintro strWhole nUnits rest ⟨⟩
    exact ⟨none, by simp, hw, rfl, Nat.zero_le 8, by simp [digitsValue]⟩
  | c :: p, w, hw => by
    unfold wholeLoop
    by_cases hpoint : c = 46
    · obtain ⟨digits, rest, rfl, hall, hlen, -, hrun⟩ :=
        unitsLoop_spec p 8 0 (le_refl 0) (by decide)
      change unitsLoop (1000000 * 10) 0 _ = _ at hrun
      rw [if_pos hpoint, hrun, Option.bind_eq_bind, Option.bind_some]
      refine ⟨_, rfl, ?_⟩
      rintro strWhole nUnits rest ⟨⟩
      exact ⟨some digits, by simp [hpoint], hw, hall, hlen, Int.zero_add _⟩
    rw [if_neg hpoint]
    by_cases hspace : isSpace c = true
    · rw [if_pos hspace]
      refine ⟨_, rfl, ?_⟩
      rintro strWhole nUnits rest ⟨⟩
      exact ⟨none, by simp, hw, rfl, Nat.zero_le 8, by simp [digitsValue]⟩
    rw [if_neg hspace]
    by_cases hdigit : isDigit c = true
    · rw [if_neg (not_not.mpr hdigit)]
      obtain ⟨result, hrun, hread⟩ := wholeLoop_spec p (w ++ [c]) (by simp [hw, hdigit])
      refine ⟨result, hrun, fun strWhole nUnits rest hresult => ?_⟩
      obtain ⟨fraction, h⟩ := hread strWhole nUnits rest hresult
      rw [List.append_assoc] at h
      exact ⟨fraction, h⟩
    · rw [if_pos hdigit]
      exact ⟨none, rfl, nofun⟩

/-- A digit is not space or a sign. -/
theorem not_space_of_isDigit {c : UInt8} (h : isDigit c = true) :
    isSpace c = false ∧ c ≠ 45 ∧ c ≠ 43 ∧ c ≠ 46 ∧ c ≠ 0 := by
  revert h
  obtain ⟨⟨n⟩⟩ := c
  revert n
  decide +kernel

/-- At most ten digits are read as the number that they stand for. -/
theorem atoi64_digits {digits : Bytes} (hall : digits.all isDigit = true)
    (hlen : digits.length ≤ 10) : (atoi64 digits).toInt = digitsValue digits := by
  have hlt : digitsValue digits < 10 ^ 10 :=
    lt_of_lt_of_le (digitsValue_lt hall) (Nat.pow_le_pow_right (by decide) hlen)
  have hleading : leadingNumber digits = digitsValue digits := by
    unfold leadingNumber
    rw [List.takeWhile_eq_self_iff.mpr (List.all_eq_true.mp hall)]
    rfl
  cases digits with
  | nil => rfl
  | cons c digits =>
    have hc := not_space_of_isDigit (List.all_eq_true.mp hall c List.mem_cons_self)
    unfold atoi64
    rw [List.dropWhile_cons_of_neg (by simp [hc.1])]
    dsimp only
    rw [if_neg hc.2.1, if_neg hc.2.2.1, hleading, min_eq_right (by omega)]
    exact Int64.toInt_ofInt_of_le (by omega) (by omega)

/-- The parser always has a result, and an amount is that of the text. -/
theorem parseMoney_spec {str : Bytes} (hnul : 0 ∉ str) :
    ∃ result, parseMoney str = some result ∧ ∀ v, result = some v →
      0 ≤ v ∧ ∃ m : MoneyText, m.IsAmount ∧ str = m.text ∧ (v : ℚ) = m.coins * COIN := by
  have hstr : str.takeWhile (· ≠ 0) = str :=
    List.takeWhile_eq_self_iff.mpr fun c hc => decide_eq_true fun hzero => hnul (hzero ▸ hc)
  obtain ⟨result, hrun, hread⟩ := wholeLoop_spec (str.dropWhile isSpace) [] rfl
  unfold parseMoney
  rw [hstr, hrun, Option.bind_eq_bind, Option.bind_some]
  cases result with
  | none => exact ⟨none, rfl, nofun⟩
  | some r =>
    obtain ⟨strWhole, nUnits, rest⟩ := r
    obtain ⟨fraction, h⟩ := hread _ _ _ rfl
    dsimp only
    by_cases hrest : rest.all isSpace = true
    swap
    · rw [if_pos hrest]
      exact ⟨none, rfl, nofun⟩
    rw [if_neg (not_not.mpr hrest)]
    by_cases hlong : strWhole.length > 10
    · rw [if_pos hlong]
      exact ⟨none, rfl, nofun⟩
    have hten : strWhole.length ≤ 10 := Nat.le_of_not_lt hlong
    have hwhole : digitsValue strWhole < 10 ^ 10 :=
      lt_of_lt_of_le (digitsValue_lt h.allWhole) (Nat.pow_le_pow_right (by decide) hten)
    obtain ⟨hnonneg, hmax⟩ := h.units_bounds
    have hcoin : COIN = 100000000 := rfl
    rw [if_neg hlong, hcoin, if_neg (by omega), atoi64_digits h.allWhole hten,
      checked_eq (by omega) (by omega), Option.bind_eq_bind, Option.bind_some,
      checked_eq (by omega) (by omega), Option.bind_some]
    refine ⟨_, rfl, ?_⟩
    rintro v ⟨⟩
    refine ⟨by omega, ⟨str.takeWhile isSpace, strWhole, fraction, rest⟩,
      ⟨List.all_takeWhile, h.allWhole, h.allFraction, hrest⟩, ?_, ?_⟩
    · have htext := h.text
      rw [List.nil_append] at htext
      rw [MoneyText.text, List.append_assoc, List.append_assoc, ← List.append_assoc strWhole,
        ← htext, List.takeWhile_append_dropWhile]
    · have hpow : (10 : ℚ) ^ (fraction.getD []).length * 10 ^ (8 - (fraction.getD []).length) =
          100000000 := by
        rw [← pow_add, Nat.add_sub_cancel' h.length]
        norm_num
      rw [h.units, MoneyText.coins]
      push_cast
      rw [← hpow]
      field_simp

/-- Digits before a point are all read. -/
theorem wholeLoop_digits (fraction : Bytes) : ∀ {whole : Bytes} (w : Bytes),
    whole.all isDigit = true →
    wholeLoop w (whole ++ 46 :: fraction) = wholeLoop (w ++ whole) (46 :: fraction)
  | [], w, _ => by rw [List.nil_append, List.append_nil]
  | c :: whole, w, h => by
    rw [List.all_cons, Bool.and_eq_true] at h
    obtain ⟨hspace, -, -, hpoint, -⟩ := not_space_of_isDigit h.1
    conv_lhs => rw [List.cons_append, wholeLoop]
    rw [if_neg hpoint, hspace, if_neg Bool.false_ne_true, if_neg (not_not.mpr h.1),
      wholeLoop_digits fraction (w ++ [c]) h.2, List.append_assoc]
    rfl

/-- An amount without space is read. -/
theorem parseMoney_digits {whole fraction : Bytes} (hwhole : whole.all isDigit = true)
    (hfraction : fraction.all isDigit = true) (hten : whole.length ≤ 10)
    (height : fraction.length ≤ 8) :
    parseMoney (whole ++ 46 :: fraction) = some (some
      (digitsValue whole * COIN + digitsValue fraction * 10 ^ (8 - fraction.length))) := by
  have hnul : ∀ c ∈ whole ++ 46 :: fraction, c ≠ 0 ∧ isSpace c = false := by
    intro c hc
    rcases List.mem_append.mp hc with hc | hc
    · have h := not_space_of_isDigit (List.all_eq_true.mp hwhole c hc)
      exact ⟨h.2.2.2.2, h.1⟩
    · rcases List.mem_cons.mp hc with rfl | hc
      · exact ⟨by decide, by decide⟩
      · have h := not_space_of_isDigit (List.all_eq_true.mp hfraction c hc)
        exact ⟨h.2.2.2.2, h.1⟩
  have hstr : (whole ++ 46 :: fraction).takeWhile (· ≠ 0) = whole ++ 46 :: fraction :=
    List.takeWhile_eq_self_iff.mpr fun c hc => decide_eq_true (hnul c hc).1
  have hdrop : (whole ++ 46 :: fraction).dropWhile isSpace = whole ++ 46 :: fraction := by
    cases hcons : whole ++ 46 :: fraction with
    | nil => rfl
    | cons c rest =>
      exact List.dropWhile_cons_of_neg (by
        rw [(hnul c (by rw [hcons]; exact List.mem_cons_self)).2]
        exact Bool.false_ne_true)
  obtain ⟨digits, rest, hsplit, -, hlen, hstop, hrun⟩ :=
    unitsLoop_spec fraction 8 0 (le_refl 0) (by decide)
  have hrest : rest = [] := by
    cases rest with
    | nil => rfl
    | cons c rest =>
      exfalso
      rcases hstop with hfull | hstop
      · rw [hsplit, List.length_append, List.length_cons] at height
        omega
      · have hc : isDigit c = true := by
          refine List.all_eq_true.mp hfraction c ?_
          rw [hsplit]
          exact List.mem_append_right _ List.mem_cons_self
        rw [hstop c rfl] at hc
        cases hc
  rw [hrest, List.append_nil] at hsplit
  rw [← hsplit, hrest, Int.zero_add] at hrun
  change unitsLoop (1000000 * 10) 0 fraction = _ at hrun
  have hread : HasRead (whole ++ 46 :: fraction ++ []) whole
      (digitsValue fraction * 10 ^ (8 - fraction.length)) [] (some fraction) :=
    ⟨rfl, hwhole, hfraction, height, rfl⟩
  have hbounds := hread.units_bounds
  have hlt : digitsValue whole < 10 ^ 10 :=
    lt_of_lt_of_le (digitsValue_lt hwhole) (Nat.pow_le_pow_right (by decide) hten)
  have hcoin : COIN = 100000000 := rfl
  unfold parseMoney
  rw [hstr, hdrop, wholeLoop_digits fraction [] hwhole, wholeLoop, if_pos rfl, hrun]
  simp only [Option.bind_eq_bind, Option.bind_some, List.nil_append]
  rw [if_neg (by simp), if_neg (by omega), hcoin, if_neg (by omega), atoi64_digits hwhole hten,
    checked_eq (by omega) (by omega), Option.bind_some, checked_eq (by omega) (by omega)]
  rfl

/-! ## What is written -/

/-- The trimmed characters are zeros, with a digit two places before each. -/
theorem trimCount_spec : ∀ l : Bytes,
    l.take (trimCount l) = List.replicate (trimCount l) 48 ∧ trimCount l ≤ l.length ∧
      ∀ i < trimCount l, ∀ c, l[i + 2]? = some c → isDigit c = true
  | [] => ⟨rfl, Nat.le_refl 0, nofun⟩
  | [_] => ⟨rfl, Nat.zero_le _, nofun⟩
  | [_, _] => ⟨rfl, Nat.zero_le _, nofun⟩
  | c :: d :: e :: l => by
    unfold trimCount
    by_cases h : c = 48 ∧ isDigit e = true
    · obtain ⟨htake, hle, hdigit⟩ := trimCount_spec (d :: e :: l)
      rw [if_pos h]
      refine ⟨?_, Nat.succ_le_succ hle, fun i hi a ha => ?_⟩
      · rw [List.take_succ_cons, htake, h.1, List.replicate_succ]
      · cases i with
        | zero =>
          obtain rfl := Option.some.inj ha
          exact h.2
        | succ i => exact hdigit i (by omega) a ha
    · rw [if_neg h]
      exact ⟨rfl, Nat.zero_le _, nofun⟩

/-- At most six of eight decimals are trimmed, and they are zeros. -/
theorem trim_spec (whole : Bytes) {fraction : Bytes} (height : fraction.length = 8) :
    ∃ k ≤ 6, (whole ++ 46 :: fraction).take ((whole ++ 46 :: fraction).length -
        trimCount (whole ++ 46 :: fraction).reverse) =
        whole ++ 46 :: fraction.take (8 - k) ∧
      fraction = fraction.take (8 - k) ++ List.replicate k 48 := by
  have hreverse : (whole ++ 46 :: fraction).reverse =
      fraction.reverse ++ 46 :: whole.reverse := by simp
  obtain ⟨htake, -, hdigit⟩ := trimCount_spec (whole ++ 46 :: fraction).reverse
  rw [hreverse] at htake hdigit ⊢
  generalize trimCount (fraction.reverse ++ 46 :: whole.reverse) = k at htake hdigit
  have hk : k ≤ 6 := by
    by_contra hlt
    have hpoint : (fraction.reverse ++ 46 :: whole.reverse)[6 + 2]? = some 46 := by
      rw [List.getElem?_append_right (by simp [height]), List.length_reverse, height]
      rfl
    exact absurd (hdigit 6 (by omega) 46 hpoint) (by decide)
  refine ⟨k, hk, ?_, ?_⟩
  · have hlen : (whole ++ 46 :: fraction).length - k = whole.length + (8 - k + 1) := by
      rw [List.length_append, List.length_cons]
      omega
    rw [hlen, List.take_length_add_append, List.take_succ_cons]
  · rw [List.take_append_of_le_length (by rw [List.length_reverse]; omega), List.take_reverse,
      height] at htake
    have hdrop := congrArg List.reverse htake
    rw [List.reverse_reverse, List.reverse_replicate] at hdrop
    rw [← hdrop, List.take_append_drop]

theorem i64tostr_of_nonneg {n : Int64} (hn : 0 ≤ n.toInt) :
    i64tostr n = decimal n.toInt.toNat := by
  have hneg : ¬ n < 0 := by
    rw [Int64.lt_iff_toInt_lt, Int64.toInt_zero]
    omega
  rw [i64tostr, if_neg hneg]
  congr 1
  omega

/-- Eight digits of a number below 10^8. -/
theorem zeroPad_spec {r : ℕ} (hr : r < 10 ^ 8) :
    (zeroPad 8 (decimal r)).length = 8 ∧ (zeroPad 8 (decimal r)).all isDigit = true ∧
      digitsValue (zeroPad 8 (decimal r)) = r := by
  have hlen : (decimal r).length ≤ 8 := length_decimal_le (by decide) hr
  obtain ⟨hdigits, hvalue⟩ := decimal_spec r
  unfold zeroPad
  refine ⟨?_, ?_, ?_⟩
  · rw [List.length_append, List.length_replicate]
    omega
  · rw [List.all_append, List.all_replicate, List.all_eq_true.mpr hdigits]
    split <;> rfl
  · rw [digitsValue_append, digitsValue_replicate, Nat.zero_mul, Nat.zero_add]
    exact hvalue

/-- The text of an amount that is not negative. -/
theorem formatMoney_spec {n : Int64} (hn : 0 ≤ n.toInt) :
    ∃ fraction : Bytes, formatMoney n false = decimal (n.toInt.toNat / 10 ^ 8) ++ 46 :: fraction ∧
      fraction.all isDigit = true ∧ fraction.length ≤ 8 ∧
      digitsValue fraction * 10 ^ (8 - fraction.length) = n.toInt.toNat % 10 ^ 8 := by
  have hneg : ¬ n < 0 := by
    rw [Int64.lt_iff_toInt_lt, Int64.toInt_zero]
    omega
  have habs : (if n > 0 then n else -n) = n := by
    by_cases hpos : n > 0
    · exact if_pos hpos
    · rw [gt_iff_lt, Int64.lt_iff_toInt_lt, Int64.toInt_zero] at hpos
      have hzero : n = 0 := Int64.toInt_inj.mp (by rw [Int64.toInt_zero]; omega)
      rw [hzero]
      rfl
  have hunit : (100000000 : Int64).toInt = 100000000 := rfl
  have hquotient : (n / 100000000).toInt = n.toInt / 100000000 := by
    rw [Int64.toInt_div_of_ne_right _ _ (by decide), hunit, Int.tdiv_eq_ediv_of_nonneg hn]
  have hremainder : (n % 100000000).toInt = n.toInt % 100000000 := by
    rw [Int64.toInt_mod, hunit, Int.tmod_eq_emod_of_nonneg hn]
  have hq : i64tostr (n / 100000000) = decimal (n.toInt.toNat / 10 ^ 8) := by
    rw [i64tostr_of_nonneg (by omega), hquotient]
    congr 1
    omega
  have hr : i64tostr (n % 100000000) = decimal (n.toInt.toNat % 10 ^ 8) := by
    rw [i64tostr_of_nonneg (by omega), hremainder]
    congr 1
    omega
  have hlt : n.toInt.toNat % 10 ^ 8 < 10 ^ 8 := Nat.mod_lt _ (by decide)
  obtain ⟨height, hall, hvalue⟩ := zeroPad_spec hlt
  have hformat : formatMoney n false = (decimal (n.toInt.toNat / 10 ^ 8) ++
      46 :: zeroPad 8 (decimal (n.toInt.toNat % 10 ^ 8))).take
      ((decimal (n.toInt.toNat / 10 ^ 8) ++
        46 :: zeroPad 8 (decimal (n.toInt.toNat % 10 ^ 8))).length -
      trimCount (decimal (n.toInt.toNat / 10 ^ 8) ++
        46 :: zeroPad 8 (decimal (n.toInt.toNat % 10 ^ 8))).reverse) := by
    unfold formatMoney
    rw [habs]
    dsimp only
    rw [hq, hr, if_neg hneg, if_neg (fun hand => Bool.false_ne_true hand.1)]
  generalize zeroPad 8 (decimal (n.toInt.toNat % 10 ^ 8)) = fraction at *
  obtain ⟨k, hk, htrim, hzeros⟩ := trim_spec (decimal (n.toInt.toNat / 10 ^ 8)) height
  refine ⟨fraction.take (8 - k), hformat.trans htrim, ?_, ?_, ?_⟩
  · exact List.all_eq_true.mpr fun c hc =>
      List.all_eq_true.mp hall c (List.mem_of_mem_take hc)
  · rw [List.length_take]
    omega
  · have hlen : (fraction.take (8 - k)).length = 8 - k := by
      rw [List.length_take]
      omega
    rw [hzeros, digitsValue_append, digitsValue_replicate, List.length_replicate, Nat.add_zero]
      at hvalue
    rw [hlen, ← hvalue]
    congr 2
    omega

/-- An amount that was written is read back, and whatever text is read as an amount is the text of
this amount, which is not negative. -/
theorem parseMoney_formatMoney :
    (∀ n : Int64, 0 ≤ n.toInt → n.toInt ≤ MAX_MONEY →
      parseMoney (formatMoney n false) = some (some n.toInt)) ∧
    ∀ str : Bytes, 0 ∉ str → ∃ result, parseMoney str = some result ∧ ∀ v, result = some v →
      0 ≤ v ∧ ∃ m : MoneyText, m.IsAmount ∧ str = m.text ∧ (v : ℚ) = m.coins * COIN := by
  refine ⟨fun n hn hmax => ?_, fun str hnul => parseMoney_spec hnul⟩
  obtain ⟨fraction, hformat, hall, hlen, hvalue⟩ := formatMoney_spec hn
  have hwhole := decimal_spec (n.toInt.toNat / 10 ^ 8)
  have hcoins : n.toInt.toNat / 10 ^ 8 < 10 ^ 10 := by
    rw [MAX_MONEY, COIN] at hmax
    omega
  have hdigits : digitsValue (decimal (n.toInt.toNat / 10 ^ 8)) = n.toInt.toNat / 10 ^ 8 :=
    hwhole.2
  rw [hformat, parseMoney_digits (List.all_eq_true.mpr hwhole.1) hall
    (length_decimal_le (by decide) hcoins) hlen, hdigits]
  have hunits : ((digitsValue fraction : ℤ) * 10 ^ (8 - fraction.length)) =
      (n.toInt.toNat % 10 ^ 8 : ℕ) := by
    rw [← hvalue]
    push_cast
    rfl
  rw [hunits, COIN]
  congr 2
  omega

/-- One coin and a half, and a text with spaces and no digit before the point. -/
theorem parseMoney_samples :
    parseMoney (formatMoney 150000000 false) = some (some 150000000) ∧
    ∃ result, parseMoney (asciiBytes " .25 ") = some result ∧ ∀ v, result = some v →
      0 ≤ v ∧ ∃ m : MoneyText, m.IsAmount ∧ asciiBytes " .25 " = m.text ∧
        (v : ℚ) = m.coins * COIN :=
  ⟨parseMoney_formatMoney.1 150000000 (by decide) (by decide),
    parseMoney_formatMoney.2 (asciiBytes " .25 ") (by decide)⟩

end Ticoin
