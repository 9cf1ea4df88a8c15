import Mathlib

/-!
# Numbers in limbs

A wide number is a list of limbs of 32 bits, the least significant first (`value`). Lists of one
length with the same value are the same (`value_inj`), and bit `p` of the number is bit `p % 32` of
limb `p / 32` (`testBit_value`), so that an operation on the bits of limbs is one on the bits of
numbers (`value_zipWith_and` and so on).

Sums are computed with a carry from limb to limb (`value_add`), one is added or taken away along a
run of limbs (`value_increment`, `value_decrement`), and numbers are compared from the highest limb
on (`precedes_iff`).
-/

namespace Limbs

/-- The number of limbs, the least significant first. -/
def value : List UInt32 → ℕ
  | [] => 0
  | x :: pn => x.toNat + 2 ^ 32 * value pn

theorem pow_length_cons (x : UInt32) (pn : List UInt32) :
    2 ^ (32 * (x :: pn).length) = 2 ^ 32 * 2 ^ (32 * pn.length) := by
  rw [List.length_cons, Nat.mul_succ, Nat.add_comm, pow_add]

theorem value_lt : ∀ pn : List UInt32, value pn < 2 ^ (32 * pn.length)
  | [] => Nat.one_pos
  | x :: pn => by
    have hx := x.toNat_lt
    have hpn := value_lt pn
    rw [pow_length_cons, value]
    omega

theorem value_inj : ∀ {pn pn' : List UInt32}, pn.length = pn'.length → value pn = value pn' →
    pn = pn'
  | [], [], _, _ => rfl
  | x :: pn, x' :: pn', hlen, h => by
    have hx := x.toNat_lt
    have hx' := x'.toNat_lt
    rw [value, value] at h
    have hhead : x = x' := UInt32.toNat_inj.mp (by omega)
    have htail : pn = pn' := value_inj (Nat.succ.inj hlen) (by omega)
    rw [hhead, htail]

/-- A limb at the top. -/
theorem value_concat (x : UInt32) : ∀ pn : List UInt32,
    value (pn ++ [x]) = value pn + 2 ^ (32 * pn.length) * x.toNat
  | [] => by simp [value]
  | y :: pn => by
    rw [List.cons_append, value, value_concat x pn, value, pow_length_cons, Nat.mul_add,
      Nat.mul_assoc, Nat.add_assoc]

/-! ## Bits -/

theorem testBit_value : ∀ (pn : List UInt32) (p : ℕ),
    (value pn).testBit p = (pn.getD (p / 32) 0).toNat.testBit (p % 32)
  | [], p => by simp [value]
  | x :: pn, p => by
    rw [value, Nat.add_comm, Nat.testBit_two_pow_mul_add _ x.toNat_lt]
    split
    · rename_i hp
      rw [Nat.div_eq_of_lt hp, Nat.mod_eq_of_lt hp, List.getD_cons_zero]
    · rename_i hp
      rw [testBit_value pn, show p / 32 = (p - 32) / 32 + 1 by omega, List.getD_cons_succ,
        show (p - 32) % 32 = p % 32 by omega]

/-- An operation that takes zeros to zero, limb by limb. -/
theorem getD_zipWith {f : UInt32 → UInt32 → UInt32} (hf : f 0 0 = 0) {a b : List UInt32}
    (hlen : a.length = b.length) (i : ℕ) :
    (List.zipWith f a b).getD i 0 = f (a.getD i 0) (b.getD i 0) := by
  rcases Nat.lt_or_ge i a.length with hi | hi
  · rw [List.getD_eq_getElem _ _ (by rw [List.length_zipWith]; omega),
      List.getD_eq_getElem _ _ hi, List.getD_eq_getElem _ _ (by omega), List.getElem_zipWith]
  · rw [List.getD_eq_default _ _ (by rw [List.length_zipWith]; omega),
      List.getD_eq_default _ _ hi, List.getD_eq_default _ _ (by omega), hf]

section

variable {a b : List UInt32}

theorem value_zipWith_xor (hlen : a.length = b.length) :
    value (List.zipWith (· ^^^ ·) a b) = value a ^^^ value b := by
  refine Nat.eq_of_testBit_eq fun p => ?_
  rw [Nat.testBit_xor, testBit_value, testBit_value, testBit_value, getD_zipWith rfl hlen,
    UInt32.toNat_xor, Nat.testBit_xor]

theorem value_zipWith_and (hlen : a.length = b.length) :
    value (List.zipWith (· &&& ·) a b) = value a &&& value b := by
  refine Nat.eq_of_testBit_eq fun p => ?_
  rw [Nat.testBit_and, testBit_value, testBit_value, testBit_value, getD_zipWith rfl hlen,
    UInt32.toNat_and, Nat.testBit_and]

theorem value_zipWith_or (hlen : a.length = b.length) :
    value (List.zipWith (· ||| ·) a b) = value a ||| value b := by
  refine Nat.eq_of_testBit_eq fun p => ?_
  rw [Nat.testBit_or, testBit_value, testBit_value, testBit_value, getD_zipWith rfl hlen,
    UInt32.toNat_or, Nat.testBit_or]

end

/-- The complement of every limb is that of the number. -/
theorem value_map_not : ∀ pn : List UInt32,
    value (pn.map (~~~ ·)) + value pn + 1 = 2 ^ (32 * pn.length)
  | [] => rfl
  | x :: pn => by
    have hx := x.toNat_lt
    have ih := value_map_not pn
    have hnot : (~~~x).toNat = 2 ^ 32 - 1 - x.toNat := UInt32.toNat_not x
    rw [List.map_cons, value, value, pow_length_cons, hnot]
    omega

/-! ## Carries -/

/-- Limbs are added with what the limbs below them carry. -/
def add (carry : UInt64) : List UInt32 → List UInt32 → List UInt32
  | x :: a, y :: b =>
    let n := carry + x.toUInt64 + y.toUInt64
    (n &&& 0xffffffff).toUInt32 :: add (n >>> 32) a b
  | _, _ => []

theorem length_add : ∀ (carry : UInt64) {a b : List UInt32}, a.length = b.length →
    (add carry a b).length = a.length
  | _, [], [], _ => rfl
  | _, _ :: _, _ :: _, h => congrArg Nat.succ (length_add _ (Nat.succ.inj h))

/-- One limb and what it carries. -/
theorem add_limb {carry : UInt64} (hcarry : carry.toNat ≤ 1) (x y : UInt32) :
    ((carry + x.toUInt64 + y.toUInt64) &&& 0xffffffff).toUInt32.toNat +
        2 ^ 32 * ((carry + x.toUInt64 + y.toUInt64) >>> 32).toNat = carry.toNat + x.toNat + y.toNat ∧
      ((carry + x.toUInt64 + y.toUInt64) >>> 32).toNat ≤ 1 := by
  have hx := x.toNat_lt
  have hy := y.toNat_lt
  have hsum : (carry + x.toUInt64 + y.toUInt64).toNat = carry.toNat + x.toNat + y.toNat := by
    rw [UInt64.toNat_add, UInt64.toNat_add, UInt32.toNat_toUInt64, UInt32.toNat_toUInt64,
      Nat.mod_eq_of_lt (by omega), Nat.mod_eq_of_lt (by omega)]
  have hlow : ((carry + x.toUInt64 + y.toUInt64) &&& 0xffffffff).toUInt32.toNat =
      (carry.toNat + x.toNat + y.toNat) % 2 ^ 32 := by
    rw [UInt64.toNat_toUInt32, UInt64.toNat_and, hsum,
      show (0xffffffff : UInt64).toNat = 2 ^ 32 - 1 from rfl, Nat.and_two_pow_sub_one_eq_mod,
      Nat.mod_mod]
  have hhigh : ((carry + x.toUInt64 + y.toUInt64) >>> 32).toNat =
      (carry.toNat + x.toNat + y.toNat) / 2 ^ 32 := by
    rw [UInt64.toNat_shiftRight, hsum, Nat.shiftRight_eq_div_pow]
    rfl
  rw [hlow, hhigh]
  omega

/-- What the highest limb carries is lost. -/
theorem value_add : ∀ {carry : UInt64} {a b : List UInt32}, carry.toNat ≤ 1 →
    a.length = b.length →
    value (add carry a b) = (carry.toNat + value a + value b) % 2 ^ (32 * a.length)
  | carry, [], [], _, _ => by
    rw [List.length_nil, Nat.mul_zero, pow_zero, Nat.mod_one]
    rfl
  | carry, x :: a, y :: b, hcarry, hlen => by
    obtain ⟨hlimb, hcarry'⟩ := add_limb hcarry x y
    have hlow := ((carry + x.toUInt64 + y.toUInt64) &&& 0xffffffff).toUInt32.toNat_lt
    have ih := value_add hcarry' (Nat.succ.inj hlen)
    rw [add, value, ih, pow_length_cons, value, value, Nat.mod_mul]
    generalize ((carry + x.toUInt64 + y.toUInt64) &&& 0xffffffff).toUInt32.toNat = low at *
    generalize ((carry + x.toUInt64 + y.toUInt64) >>> 32).toNat = high at *
    rw [show carry.toNat + (x.toNat + 2 ^ 32 * value a) + (y.toNat + 2 ^ 32 * value b) =
      low + 2 ^ 32 * (high + value a + value b) by omega, Nat.add_mul_mod_self_left,
      Nat.mod_eq_of_lt hlow, Nat.add_mul_div_left _ _ (by decide), Nat.div_eq_of_lt hlow,
      Nat.zero_add]

/-- One is added to a limb, and to the next one if that gives zero. -/
def increment : List UInt32 → List UInt32
  | [] => []
  | x :: pn => if x + 1 = 0 ∧ pn ≠ [] then (x + 1) :: increment pn else (x + 1) :: pn

/-- One is taken from a limb, and from the next one if that gives the greatest limb. -/
def decrement : List UInt32 → List UInt32
  | [] => []
  | x :: pn => if x - 1 = 0xffffffff ∧ pn ≠ [] then (x - 1) :: decrement pn else (x - 1) :: pn

@[simp] theorem length_increment : ∀ pn : List UInt32, (increment pn).length = pn.length
  | [] => rfl
  | x :: pn => by
    rw [increment]
    split
    · rw [List.length_cons, length_increment pn, List.length_cons]
    · rfl

@[simp] theorem length_decrement : ∀ pn : List UInt32, (decrement pn).length = pn.length
  | [] => rfl
  | x :: pn => by
    rw [decrement]
    split
    · rw [List.length_cons, length_decrement pn, List.length_cons]
    · rfl

theorem value_increment : ∀ pn : List UInt32,
    value (increment pn) = (value pn + 1) % 2 ^ (32 * pn.length)
  | [] => rfl
  | x :: pn => by
    have hx := x.toNat_lt
    have hpn := value_lt pn
    have hone : (x + 1).toNat = (x.toNat + 1) % 2 ^ 32 := UInt32.toNat_add x 1
    rw [increment, pow_length_cons, Nat.mod_mul, value]
    split
    · rename_i h
      have hzero : (x + 1).toNat = 0 := by rw [h.1]; rfl
      rw [value, value_increment pn, hzero]
      rw [show x.toNat + 2 ^ 32 * value pn + 1 = 2 ^ 32 * (value pn + 1) by omega,
        Nat.mul_mod_right, Nat.mul_div_cancel_left _ (by decide)]
    · rename_i h
      rw [value]
      by_cases hnil : pn = []
      · subst hnil
        rw [hone]
        simp [value, Nat.mod_one]
      · have hne : (x + 1).toNat ≠ 0 := fun hzero => h ⟨UInt32.toNat_inj.mp hzero, hnil⟩
        have hlt : x.toNat + 1 < 2 ^ 32 := by omega
        rw [hone, Nat.mod_eq_of_lt hlt,
          show x.toNat + 2 ^ 32 * value pn + 1 = x.toNat + 1 + 2 ^ 32 * value pn by omega,
          Nat.add_mul_mod_self_left, Nat.mod_eq_of_lt hlt, Nat.add_mul_div_left _ _ (by decide),
          Nat.div_eq_of_lt hlt, Nat.zero_add, Nat.mod_eq_of_lt hpn]

/-- Taking one away is adding the greatest number. -/
theorem value_decrement : ∀ pn : List UInt32,
    value (decrement pn) = (value pn + (2 ^ (32 * pn.length) - 1)) % 2 ^ (32 * pn.length)
  | [] => rfl
  | x :: pn => by
    have hx := x.toNat_lt
    have hpn := value_lt pn
    have hpos : 0 < 2 ^ (32 * pn.length) := Nat.two_pow_pos _
    have hone : (x - 1).toNat = (2 ^ 32 - 1 + x.toNat) % 2 ^ 32 := UInt32.toNat_sub x 1
    rw [decrement, pow_length_cons, value]
    split
    · rename_i h
      have hmax : (x - 1).toNat = 2 ^ 32 - 1 := by rw [h.1]; rfl
      have hzero : x.toNat = 0 := by omega
      rw [value, value_decrement pn, hmax, hzero, Nat.zero_add, Nat.mod_mul,
        show 2 ^ 32 * value pn + (2 ^ 32 * 2 ^ (32 * pn.length) - 1) =
          2 ^ 32 - 1 + 2 ^ 32 * (value pn + (2 ^ (32 * pn.length) - 1)) by omega]
      generalize value pn + (2 ^ (32 * pn.length) - 1) = k
      rw [show (2 ^ 32 - 1 + 2 ^ 32 * k) % 2 ^ 32 = 2 ^ 32 - 1 by omega,
        show (2 ^ 32 - 1 + 2 ^ 32 * k) / 2 ^ 32 = k by omega]
    · rename_i h
      rw [value]
      by_cases hnil : pn = []
      · subst hnil
        rw [hone]
        simp [value]
        omega
      · have hne : (x - 1).toNat ≠ 2 ^ 32 - 1 := fun hmax => h ⟨UInt32.toNat_inj.mp hmax, hnil⟩
        have hpred : (x - 1).toNat = x.toNat - 1 ∧ 0 < x.toNat := by omega
        rw [hpred.1, show x.toNat + 2 ^ 32 * value pn + (2 ^ 32 * 2 ^ (32 * pn.length) - 1) =
          x.toNat - 1 + 2 ^ 32 * value pn + 2 ^ 32 * 2 ^ (32 * pn.length) by omega,
          Nat.add_mod_right, Nat.mod_eq_of_lt (by omega)]

/-! ## Order -/

/-- Limbs are compared from the highest on, until they differ. -/
def precedes (before : UInt32 → UInt32 → Bool) (fEqual : Bool) (a b : List UInt32) : ℕ → Bool
  | 0 => fEqual
  | i + 1 =>
    if before (a.getD i 0) (b.getD i 0) then true
    else if before (b.getD i 0) (a.getD i 0) then false
    else precedes before fEqual a b i

theorem precedes_iff (fEqual : Bool) {a b : List UInt32} : ∀ {n : ℕ}, n ≤ a.length → n ≤ b.length →
    (precedes (fun x y => x < y) fEqual a b n = true ↔ value (a.take n) < value (b.take n) ∨
      fEqual = true ∧ value (a.take n) = value (b.take n))
  | 0, _, _ => by simp [precedes, value]
  | n + 1, ha, hb => by
    have ih := precedes_iff fEqual (Nat.le_of_succ_le ha) (Nat.le_of_succ_le hb)
    have hlow := value_lt (a.take n)
    have hlow' := value_lt (b.take n)
    rw [List.length_take, Nat.min_eq_left (by omega)] at hlow hlow'
    rw [List.take_succ_eq_append_getElem ha, List.take_succ_eq_append_getElem hb, value_concat,
      value_concat, List.length_take, List.length_take, Nat.min_eq_left (by omega),
      Nat.min_eq_left (by omega), precedes, List.getD_eq_getElem _ _ ha,
      List.getD_eq_getElem _ _ hb]
    generalize 2 ^ (32 * n) = p at *
    simp only [decide_eq_true_eq, UInt32.lt_iff_toNat_lt] at ih ⊢
    rcases Nat.lt_trichotomy a[n].toNat b[n].toNat with hlt | heq | hgt
    · rw [if_pos hlt]
      have hmul : p * (a[n].toNat + 1) ≤ p * b[n].toNat := Nat.mul_le_mul_left p hlt
      rw [Nat.mul_succ] at hmul
      exact iff_of_true rfl (.inl (by omega))
    · rw [if_neg (by omega), if_neg (by omega), ih, heq, Nat.add_lt_add_iff_right,
        Nat.add_right_cancel_iff]
    · rw [if_neg (by omega), if_pos hgt]
      have hmul : p * (b[n].toNat + 1) ≤ p * a[n].toNat := Nat.mul_le_mul_left p hgt
      rw [Nat.mul_succ] at hmul
      exact iff_of_false Bool.false_ne_true (by omega)

/-- Compared the other way round the limbs change places. -/
theorem precedes_swap (before : UInt32 → UInt32 → Bool) (fEqual : Bool) (a b : List UInt32) :
    ∀ n, precedes (fun x y => before y x) fEqual a b n = precedes before fEqual b a n
  | 0 => rfl
  | n + 1 => by rw [precedes, precedes, precedes_swap before fEqual a b n]

/-! ## Shifts -/

theorem testBit_shiftLeft {s : UInt32} (hs : s.toNat < 32) (x : UInt32) {t : ℕ} (ht : t < 32) :
    (x <<< s).toNat.testBit t = (decide (s.toNat ≤ t) && x.toNat.testBit (t - s.toNat)) := by
  rw [UInt32.toNat_shiftLeft, Nat.mod_eq_of_lt hs, Nat.testBit_mod_two_pow, Nat.testBit_shiftLeft,
    decide_eq_true ht, Bool.true_and]

theorem testBit_shiftRight {s : UInt32} (hs : s.toNat < 32) (x : UInt32) (t : ℕ) :
    (x >>> s).toNat.testBit t = x.toNat.testBit (s.toNat + t) := by
  rw [UInt32.toNat_shiftRight, Nat.mod_eq_of_lt hs, Nat.testBit_shiftRight]

theorem testBit_limb_of_le (x : UInt32) {t : ℕ} (ht : 32 ≤ t) : x.toNat.testBit t = false :=
  Nat.testBit_lt_two_pow (x.toNat_lt.trans_le (Nat.pow_le_pow_right (by decide) ht))

theorem toNat_sub_of_ne_zero {s : UInt32} (hs : s.toNat < 32) (hne : s ≠ 0) :
    (32 - s).toNat = 32 - s.toNat ∧ (32 - s).toNat < 32 := by
  have hpos : s.toNat ≠ 0 := fun h => hne (UInt32.toNat_inj.mp h)
  have hsub : (32 - s).toNat = (2 ^ 32 - s.toNat + 32) % 2 ^ 32 := UInt32.toNat_sub 32 s
  omega

section

variable {a r : List UInt32} {k : ℕ} {s : UInt32}

/-- Every limb has bits of two limbs below, those that are `k` and `k + 1` lower. -/
theorem value_shiftLeft (hs : s.toNat < 32) (hlen : r.length = a.length)
    (h : ∀ j < a.length, r.getD j 0 = (if k ≤ j then a.getD (j - k) 0 <<< s else 0) |||
      if k + 1 ≤ j ∧ s ≠ 0 then a.getD (j - k - 1) 0 >>> (32 - s) else 0) :
    value r = value a <<< (32 * k + s.toNat) % 2 ^ (32 * a.length) := by
  refine Nat.eq_of_testBit_eq fun p => ?_
  rw [Nat.testBit_mod_two_pow, Nat.testBit_shiftLeft, testBit_value]
  by_cases hp : p < 32 * a.length
  · have hmod : p % 32 < 32 := Nat.mod_lt p (by decide)
    rw [h _ (by omega), UInt32.toNat_or, Nat.testBit_or, decide_eq_true hp, Bool.true_and,
      testBit_value]
    rcases Nat.lt_or_ge (p / 32) k with hk | hk
    · rw [if_neg (by omega), if_neg fun hlow => by omega,
        decide_eq_false (show ¬32 * k + s.toNat ≤ p by omega)]
      simp
    rw [if_pos hk, testBit_shiftLeft hs _ hmod]
    rcases Nat.lt_or_ge (p % 32) s.toNat with ht | ht
    · -- the bit comes from the lower of the two limbs
      have hne : s ≠ 0 := by
        rintro rfl
        exact Nat.not_lt_zero _ ht
      obtain ⟨hsub, hlt⟩ := toNat_sub_of_ne_zero hs hne
      rw [decide_eq_false (by omega), Bool.false_and, Bool.false_or]
      by_cases hk' : k + 1 ≤ p / 32
      · rw [if_pos ⟨hk', hne⟩, testBit_shiftRight hlt, decide_eq_true (by omega),
          Bool.true_and, hsub, show (p - (32 * k + s.toNat)) / 32 = p / 32 - k - 1 by omega,
          show (p - (32 * k + s.toNat)) % 32 = 32 - s.toNat + p % 32 by omega]
      · rw [if_neg fun h => hk' h.1, decide_eq_false (by omega)]
        simp
    · rw [decide_eq_true ht, decide_eq_true (by omega), Bool.true_and, Bool.true_and,
        show (p - (32 * k + s.toNat)) / 32 = p / 32 - k by omega,
        show (p - (32 * k + s.toNat)) % 32 = p % 32 - s.toNat by omega]
      refine Bool.or_eq_left_iff_imp.mpr fun hbit => ?_
      split at hbit
      · rename_i hne
        obtain ⟨hsub, hlt⟩ := toNat_sub_of_ne_zero hs hne.2
        rw [testBit_shiftRight hlt, testBit_limb_of_le _ (by omega)] at hbit
        cases hbit
      · simp at hbit
  · rw [List.getD_eq_default _ _ (by omega), decide_eq_false hp, Bool.false_and]
    exact Nat.zero_testBit _

/-- Every limb has bits of two limbs above, those that are `k` and `k + 1` higher. -/
theorem value_shiftRight (hs : s.toNat < 32) (hlen : r.length = a.length)
    (h : ∀ j < a.length, r.getD j 0 = (a.getD (j + k) 0 >>> s) |||
      if s ≠ 0 then a.getD (j + k + 1) 0 <<< (32 - s) else 0) :
    value r = value a >>> (32 * k + s.toNat) := by
  refine Nat.eq_of_testBit_eq fun p => ?_
  rw [Nat.testBit_shiftRight, testBit_value, testBit_value]
  have hmod : p % 32 < 32 := Nat.mod_lt p (by decide)
  by_cases hp : p < 32 * a.length
  · rw [h _ (by omega), UInt32.toNat_or, Nat.testBit_or, testBit_shiftRight hs]
    rcases Nat.lt_or_ge (s.toNat + p % 32) 32 with ht | ht
    · rw [show (32 * k + s.toNat + p) / 32 = p / 32 + k by omega,
        show (32 * k + s.toNat + p) % 32 = s.toNat + p % 32 by omega]
      refine Bool.or_eq_left_iff_imp.mpr fun hbit => ?_
      split at hbit
      · rename_i hne
        obtain ⟨hsub, hlt⟩ := toNat_sub_of_ne_zero hs hne
        rw [testBit_shiftLeft hlt _ hmod,
          decide_eq_false (show ¬(32 - s).toNat ≤ p % 32 by omega)] at hbit
        cases hbit
      · simp at hbit
    · -- the bit comes from the higher of the two limbs
      have hne : s ≠ 0 := by
        rintro rfl
        rw [UInt32.toNat_zero] at ht
        omega
      obtain ⟨hsub, hlt⟩ := toNat_sub_of_ne_zero hs hne
      rw [testBit_limb_of_le _ ht, Bool.false_or, if_pos hne, testBit_shiftLeft hlt _ hmod,
        decide_eq_true (by omega), Bool.true_and, hsub,
        show (32 * k + s.toNat + p) / 32 = p / 32 + k + 1 by omega,
        show (32 * k + s.toNat + p) % 32 = p % 32 - (32 - s.toNat) by omega]
  · rw [List.getD_eq_default _ _ (by omega), List.getD_eq_default _ _ (by omega)]
    simp

end

end Limbs
