import Mathlib

/-!
# Radix conversion

A number is an array of digits, most significant first, whose size does not change. To multiply it
by a number and add another one goes through it from the end with a carry (`mulAdd`), and a number
with digits to another base is read into it digit by digit (`convert`). If the number fits in the
array no carry is left (`convert_spec`), and without the zeros at the front it has the digits that a
number has (`dropWhile_eq_digits`).
-/

namespace Radix

variable {b m : ℕ} {digits l : List ℕ}

/-- The number that has some digits. -/
def value (b : ℕ) (digits : List ℕ) : ℕ := Nat.ofDigits b digits.reverse

/-- Multiply by `m` and add `carry` : the array, and what is carried out of it. -/
def mulAdd (b m : ℕ) : List ℕ → ℕ → List ℕ × ℕ
  | [], carry => ([], carry)
  | d :: digits, carry =>
    let r := mulAdd b m digits carry
    ((r.2 + m * d) % b :: r.1, (r.2 + m * d) / b)

/-- Append digits to the base `m` one by one, as long as nothing is carried out. -/
def convert (b m : ℕ) : List ℕ → List ℕ → Option (List ℕ)
  | [], digits => some digits
  | x :: l, digits =>
    let r := mulAdd b m digits x
    if r.2 = 0 then convert b m l r.1 else none

/-! ## Values -/

theorem value_cons (b d : ℕ) (digits : List ℕ) :
    value b (d :: digits) = value b digits + b ^ digits.length * d :=
  Nat.ofDigits_reverse_cons digits d

theorem value_replicate_append (b n : ℕ) (digits : List ℕ) :
    value b (List.replicate n 0 ++ digits) = value b digits := by
  unfold value
  rw [List.reverse_append, List.reverse_replicate, Nat.ofDigits_append_replicate_zero]

theorem value_lt (hb : 1 < b) (h : ∀ d ∈ digits, d < b) : value b digits < b ^ digits.length := by
  have hlt := Nat.ofDigits_lt_base_pow_length hb (l := digits.reverse) fun d hd =>
    h d (List.mem_reverse.mp hd)
  rwa [List.length_reverse] at hlt

/-- What is equal to some element at the front of a list. -/
theorem takeWhile_eq_replicate {α : Type*} [DecidableEq α] (a : α) (l : List α) :
    l.takeWhile (· = a) = List.replicate (l.takeWhile (· = a)).length a :=
  List.eq_replicate_iff.mpr ⟨rfl, fun x hx => by
    have heq := List.mem_takeWhile_imp hx
    exact of_decide_eq_true heq⟩

/-- Without the zeros at the front, there are the digits of the number. -/
theorem dropWhile_eq_digits (hb : 1 < b) (h : ∀ d ∈ digits, d < b) :
    digits.dropWhile (· = 0) = (b.digits (value b digits)).reverse := by
  have hvalue : value b digits = value b (digits.dropWhile (· = 0)) := by
    conv_lhs => rw [← List.takeWhile_append_dropWhile (p := (· = 0)) (l := digits)]
    rw [takeWhile_eq_replicate, value_replicate_append]
  rw [hvalue, value, Nat.digits_ofDigits b hb, List.reverse_reverse]
  · exact fun d hd => h d ((List.dropWhile_sublist _).subset (List.mem_reverse.mp hd))
  · intro hne
    rw [List.getLast_reverse]
    have hhead := List.head_dropWhile_not (· = 0) (mt List.reverse_eq_nil_iff.mpr hne)
    exact of_decide_eq_false hhead

/-! ## Arithmetic -/

/-- The array and the carry are the product and the sum. -/
theorem mulAdd_spec (hb : 0 < b) (carry : ℕ) : ∀ digits : List ℕ,
    (mulAdd b m digits carry).1.length = digits.length ∧
      (∀ d ∈ (mulAdd b m digits carry).1, d < b) ∧
      value b (mulAdd b m digits carry).1 + b ^ digits.length * (mulAdd b m digits carry).2 =
        m * value b digits + carry
  | [] => by simp [mulAdd, value]
  | d :: digits => by
    obtain ⟨hlen, hlt, hvalue⟩ := mulAdd_spec hb carry digits
    have hmod := Nat.mod_add_div ((mulAdd b m digits carry).2 + m * d) b
    unfold mulAdd
    refine ⟨congrArg (· + 1) hlen, List.forall_mem_cons.mpr ⟨Nat.mod_lt _ hb, hlt⟩, ?_⟩
    dsimp only
    rw [value_cons, hlen, value_cons, List.length_cons]
    calc value b (mulAdd b m digits carry).1 +
          b ^ digits.length * (((mulAdd b m digits carry).2 + m * d) % b) +
          b ^ (digits.length + 1) * (((mulAdd b m digits carry).2 + m * d) / b)
        = value b (mulAdd b m digits carry).1 + b ^ digits.length *
            (((mulAdd b m digits carry).2 + m * d) % b +
              b * (((mulAdd b m digits carry).2 + m * d) / b)) := by ring
      _ = value b (mulAdd b m digits carry).1 + b ^ digits.length *
            (mulAdd b m digits carry).2 + b ^ digits.length * (m * d) := by rw [hmod]; ring
      _ = m * (value b digits + b ^ digits.length * d) + carry := by rw [hvalue]; ring

/-- A number that fits in the array is read into it. -/
theorem convert_spec (hb : 1 < b) (hm : 0 < m) : ∀ {l digits : List ℕ}, (∀ d ∈ digits, d < b) →
    value b digits * m ^ l.length + value m l < b ^ digits.length →
    ∃ digits', convert b m l digits = some digits' ∧ (∀ d ∈ digits', d < b) ∧
      value b digits' = value b digits * m ^ l.length + value m l
  | [], digits, hdigits, _ => ⟨digits, rfl, hdigits, by simp [value]⟩
  | x :: l, digits, hdigits, hfits => by
    obtain ⟨hlen, hlt, hvalue⟩ := mulAdd_spec (m := m) (by omega : 0 < b) x digits
    have htotal : value b digits * m ^ (x :: l).length + value m (x :: l) =
        (m * value b digits + x) * m ^ l.length + value m l := by
      rw [value_cons, List.length_cons]
      ring
    have hle : m * value b digits + x ≤ (m * value b digits + x) * m ^ l.length :=
      Nat.le_mul_of_pos_right _ (pow_pos hm _)
    rw [htotal] at hfits ⊢
    have hcarry : (mulAdd b m digits x).2 = 0 := by
      by_contra hpos
      have hpow := Nat.le_mul_of_pos_right (b ^ digits.length) (Nat.pos_of_ne_zero hpos)
      omega
    rw [hcarry, mul_zero, add_zero] at hvalue
    rw [← hvalue] at hfits ⊢
    unfold convert
    dsimp only
    rw [if_pos hcarry]
    exact convert_spec hb hm hlt (hlen ▸ hfits)

/-- An array that was cleared has space for the digits to another base, if it has enough digits for
some power of the base. -/
theorem value_lt_of_pow_le (hb : 0 < b) (hm : 1 < m) {p q : ℕ} (hp : 0 < p)
    (hpow : m ^ p ≤ b ^ q) (h : ∀ x ∈ l, x < m) : value m l < b ^ (l.length * q / p + 1) := by
  refine (value_lt hm h).trans_le (le_of_pow_le_pow_left₀ hp.ne' (Nat.zero_le _) ?_)
  have hexp : q * l.length ≤ (l.length * q / p + 1) * p := by
    have hdiv := Nat.lt_div_mul_add hp (a := l.length * q)
    rw [mul_comm q, Nat.succ_mul]
    exact hdiv.le
  calc (m ^ l.length) ^ p = (m ^ p) ^ l.length := by rw [← pow_mul, ← pow_mul, mul_comm]
    _ ≤ (b ^ q) ^ l.length := Nat.pow_le_pow_left hpow _
    _ = b ^ (q * l.length) := (pow_mul _ _ _).symm
    _ ≤ b ^ ((l.length * q / p + 1) * p) := Nat.pow_le_pow_right hb hexp
    _ = (b ^ (l.length * q / p + 1)) ^ p := pow_mul _ _ _

/-- Digits that are read into an array with enough space become those to its base. -/
theorem convert_eq_digits (hb : 1 < b) (hm : 1 < m) {p q n : ℕ} (hp : 0 < p) (hpow : m ^ p ≤ b ^ q)
    (hn : l.length * q / p + 1 ≤ n) (h : ∀ x ∈ l, x < m) :
    ∃ digits, convert b m l (List.replicate n 0) = some digits ∧
      digits.dropWhile (· = 0) = (b.digits (value m l)).reverse := by
  have hzero : value b (List.replicate n 0) = 0 := by
    rw [← List.append_nil (List.replicate _ _), value_replicate_append]
    rfl
  have hdigits : ∀ d ∈ List.replicate n 0, d < b := fun d hd => by
    rw [List.eq_of_mem_replicate hd]
    omega
  have hfits : value b (List.replicate n 0) * m ^ l.length + value m l <
      b ^ (List.replicate n 0).length := by
    rw [hzero, Nat.zero_mul, Nat.zero_add, List.length_replicate]
    exact (value_lt_of_pow_le (by omega) hm hp hpow h).trans_le
      (Nat.pow_le_pow_right (by omega) hn)
  obtain ⟨digits, hconvert, hlt, hvalue⟩ := convert_spec hb (by omega) hdigits hfits
  rw [hzero, Nat.zero_mul, Nat.zero_add] at hvalue
  exact ⟨digits, hconvert, hvalue ▸ dropWhile_eq_digits hb hlt⟩

/-- The digits of a number do not start with zero. -/
theorem digits_dropWhile (hb : 1 < b) (n : ℕ) :
    (b.digits n).reverse.dropWhile (· = 0) = (b.digits n).reverse := by
  have h := dropWhile_eq_digits hb fun d (hd : d ∈ (b.digits n).reverse) =>
    Nat.digits_lt_base hb (List.mem_reverse.mp hd)
  rwa [value, List.reverse_reverse, Nat.ofDigits_digits] at h

/-- The digits of a number stand for it. -/
theorem value_digits (b n : ℕ) : value b (b.digits n).reverse = n := by
  unfold value
  rw [List.reverse_reverse, Nat.ofDigits_digits]

end Radix
