import Mathlib.Data.Nat.Size
import Mathlib.Tactic.Ring
import Ticoin.ChainParams

/-!
# Compact targets, rounding and order

A target travels in 32 bits : a size in bytes and the first three bytes, of which the top
bit is the sign. Reading back what `GetCompact` wrote therefore gives the number with its
low bytes cleared (`setCompact_getCompact`). Targets that come out of `SetCompact` are of
the form `m * 256 ^ e` with `m` below `2 ^ 23` (`compact_setCompact`), and of the numbers of
that form the one read back is the greatest below the number written
(`setCompact_getCompact_le`, `Compact.le_setCompact_getCompact`). Comparing targets can so
be left to exact arithmetic.

Written and read again nothing changes, less than one part in `2 ^ 15` is lost, and the order is
kept (`setCompact_getCompact_rounding`).
-/

namespace Ticoin

/-- The targets that the compact form can carry. -/
def Compact (n : ℤ) : Prop := ∃ m e : ℕ, m < 2 ^ 23 ∧ n = (m * 256 ^ e : ℕ)

/-! ## What is read back -/

/-- A mantissa of 23 bits has the sign bit off. -/
theorem pack_and_sign {w n : ℕ} (hw : w < 2 ^ 23) (hn : n < 256) :
    UInt32.ofNat (w ||| n <<< 24) &&& 0x00800000 = 0 := by
  have hor : w ||| n <<< 24 = n * 2 ^ 24 + w := by
    rw [Nat.lor_comm, ← Nat.shiftLeft_add_eq_or_of_lt (by omega), Nat.shiftLeft_eq]
  have hbit : (n * 2 ^ 24 + w).testBit 23 = false := by
    rw [Nat.testBit_eq_decide_div_mod_eq, decide_eq_false_iff_not]
    omega
  have h := Nat.and_two_pow (n * 2 ^ 24 + w) 23
  rw [hbit] at h
  rw [← UInt32.toNat_inj, UInt32.toNat_and, UInt32.toNat_ofNat', hor, Nat.mod_eq_of_lt (by omega)]
  simpa using h

/-- `SetCompact` of a size and a mantissa whose sign bit is off. -/
theorem setCompact_pack {w n : ℕ} (hw : w < 2 ^ 23) (hn : n < 256) :
    setCompact (UInt32.ofNat (w ||| n <<< 24)) =
      if n ≤ 3 then (w >>> (8 * (3 - n)) : ℕ) else (w <<< (8 * (n - 3)) : ℕ) := by
  have hor : w ||| n <<< 24 = n * 2 ^ 24 + w := by
    rw [Nat.lor_comm, ← Nat.shiftLeft_add_eq_or_of_lt (by omega), Nat.shiftLeft_eq]
  have hnat : (UInt32.ofNat (w ||| n <<< 24)).toNat = n * 2 ^ 24 + w := by
    rw [hor, UInt32.toNat_ofNat', Nat.mod_eq_of_lt (by omega)]
  have hsize : (UInt32.ofNat (w ||| n <<< 24) >>> 24).toNat = n := by
    rw [UInt32.toNat_shiftRight, hnat]
    simp only [UInt32.toNat_ofNat, Nat.reducePow, Nat.reduceMod, Nat.shiftRight_eq_div_pow]
    omega
  have hword : (UInt32.ofNat (w ||| n <<< 24) &&& 0x007fffff).toNat = w := by
    rw [UInt32.toNat_and, hnat]
    have h := Nat.and_two_pow_sub_one_eq_mod (n * 2 ^ 24 + w) 23
    simp only [UInt32.toNat_ofNat, Nat.reducePow, Nat.reduceMod, Nat.reduceSub] at h ⊢
    omega
  have hsign : (UInt32.ofNat (w ||| n <<< 24) &&& 0x00800000 != 0) = false := by
    rw [pack_and_sign hw hn]
    rfl
  rw [setCompact, hsize, hword, hsign]
  simp

/-- A number of 23 bits moved to the size it is said to have. -/
theorem compact_shifted {w : ℕ} (hw : w < 2 ^ 23) (n : ℕ) :
    Compact (if n ≤ 3 then (w >>> (8 * (3 - n)) : ℕ) else (w <<< (8 * (n - 3)) : ℕ)) := by
  split
  · refine ⟨w >>> (8 * (3 - n)), 0, ?_, by simp⟩
    rw [Nat.shiftRight_eq_div_pow]
    exact (Nat.div_le_self _ _).trans_lt hw
  · refine ⟨w, n - 3, hw, ?_⟩
    rw [Nat.shiftLeft_eq, pow_mul]
    norm_num

theorem compact_setCompact {c : UInt32} (h : 0 ≤ setCompact c) : Compact (setCompact c) := by
  have hw : (c &&& 0x007fffff).toNat < 2 ^ 23 := by
    rw [UInt32.toNat_and]
    exact Nat.and_lt_two_pow _ (by decide)
  have hmag := compact_shifted hw (c >>> 24).toNat
  revert h
  rw [setCompact]
  split
  · intro h
    -- the sign bit with a magnitude of zero is zero
    obtain ⟨m, e, hm, heq⟩ := hmag
    rw [heq] at h ⊢
    generalize m * 256 ^ e = k at h ⊢
    exact ⟨0, 0, by decide, by omega⟩
  · exact fun _ => hmag

/-- The bytes `GetCompact` keeps of a number, by its size with the sign bit. -/
def keptBytes (n : ℕ) : ℕ :=
  if n.size / 8 + 1 ≤ 3 then n <<< (8 * (3 - (n.size / 8 + 1)))
  else n >>> (8 * (n.size / 8 + 1 - 3))

theorem keptBytes_lt (n : ℕ) : keptBytes n < 2 ^ 23 := by
  have hlt := n.lt_size_self
  rw [keptBytes]
  split
  · rw [Nat.shiftLeft_eq]
    calc n * 2 ^ (8 * (3 - (n.size / 8 + 1)))
        < 2 ^ n.size * 2 ^ (8 * (3 - (n.size / 8 + 1))) :=
          Nat.mul_lt_mul_of_pos_right hlt (Nat.two_pow_pos _)
      _ = 2 ^ (n.size + 8 * (3 - (n.size / 8 + 1))) := (pow_add ..).symm
      _ ≤ 2 ^ 23 := Nat.pow_le_pow_right (by decide) (by omega)
  · rw [Nat.shiftRight_eq_div_pow]
    refine Nat.div_lt_of_lt_mul ?_
    rw [← pow_add]
    exact hlt.trans_le (Nat.pow_le_pow_right (by decide) (by omega))

/-- A number whose bits fill its bytes has the sign bit on in the bytes kept without one. -/
theorem testBit_kept {n s : ℕ} (hs : 0 < s) (h : n.size = 8 * s) :
    (if s ≤ 3 then n <<< (8 * (3 - s)) else n >>> (8 * (s - 3))).testBit 23 = true := by
  have htop : n.testBit (8 * s - 1) = true := by
    have hle : 2 ^ (8 * s - 1) ≤ n := Nat.lt_size.mp (by omega)
    have hlt : n < 2 * 2 ^ (8 * s - 1) := by
      rw [← pow_succ', show 8 * s - 1 + 1 = n.size by omega]
      exact n.lt_size_self
    rw [Nat.testBit_eq_decide_div_mod_eq, decide_eq_true_iff,
      Nat.div_eq_of_lt_le (by rwa [one_mul]) hlt]
  split
  · rw [Nat.testBit_shiftLeft, show 23 - 8 * (3 - s) = 8 * s - 1 by omega, htop]
    simp
    omega
  · rw [Nat.testBit_shiftRight, show 8 * (s - 3) + 23 = 8 * s - 1 by omega, htop]

theorem getCompact_eq {n : ℕ} (hn : 0 < n) :
    getCompact n = UInt32.ofNat (keptBytes n ||| (n.size / 8 + 1) <<< 24) := by
  have hpos : 0 < n.size := Nat.size_pos.mpr hn
  have hbit : ∀ w : ℕ, w &&& 0x00800000 ≠ 0 ↔ w.testBit 23 = true := by
    intro w
    have h := Nat.and_two_pow w 23
    simp only [Nat.reducePow] at h
    rw [h]
    cases w.testBit 23 <;> simp
  simp only [getCompact, Int.natAbs_natCast, hbit, if_neg (Int.natCast_nonneg n).not_gt,
    Nat.or_zero]
  by_cases h8 : n.size % 8 = 0
  · have hsize : n.size / 8 + 1 = (n.size + 7) / 8 + 1 := by omega
    rw [if_pos (testBit_kept (s := (n.size + 7) / 8) (by omega) (by omega)), keptBytes, hsize]
    generalize (n.size + 7) / 8 = s
    dsimp only
    congr 2
    split
    · split
      · rw [Nat.shiftLeft_eq, Nat.shiftLeft_eq, Nat.shiftRight_eq_div_pow,
          show 8 * (3 - s) = 8 * (3 - (s + 1)) + 8 by omega, pow_add, ← mul_assoc,
          Nat.mul_div_cancel _ (by decide)]
      · rw [show s = 3 by omega]
        rfl
    · rw [if_neg (by omega), ← Nat.shiftRight_add, show 8 * (s - 3) + 8 = 8 * (s + 1 - 3) by omega]
  · have hsize : n.size / 8 + 1 = (n.size + 7) / 8 := by omega
    have hlt := keptBytes_lt n
    rw [keptBytes, hsize] at hlt
    rw [keptBytes, hsize, if_neg (by rw [Nat.testBit_lt_two_pow hlt]; exact Bool.false_ne_true)]

/-- Targets are far below what can be carried. -/
theorem size_le_of_lt {n : ℕ} (hn : n < 2 ^ 256) : n.size ≤ 2039 :=
  (Nat.size_le.mpr hn).trans (by decide)

/-- What is read back is the number with its low bytes cleared. -/
theorem setCompact_getCompact {n : ℕ} (hn : n.size ≤ 2039) :
    setCompact (getCompact n) =
      (n / 256 ^ (n.size / 8 + 1 - 3) * 256 ^ (n.size / 8 + 1 - 3) : ℕ) := by
  rcases Nat.eq_zero_or_pos n with rfl | hpos
  · decide
  have hpow : ∀ k, 2 ^ (8 * k) = 256 ^ k := fun k => by rw [pow_mul]; norm_num
  rw [getCompact_eq hpos, setCompact_pack (keptBytes_lt n) (by omega), keptBytes]
  generalize n.size / 8 + 1 = s
  split
  · rw [show s - 3 = 0 by omega, pow_zero, Nat.div_one, mul_one, Nat.shiftLeft_eq,
      Nat.shiftRight_eq_div_pow, Nat.mul_div_cancel _ (Nat.two_pow_pos _)]
  · rw [Nat.shiftRight_eq_div_pow, Nat.shiftLeft_eq, hpow]

/-! ## Order -/

/-- `GetCompact` rounds down. -/
theorem setCompact_getCompact_le {n : ℕ} (hn : n.size ≤ 2039) : setCompact (getCompact n) ≤ n := by
  rw [setCompact_getCompact hn]
  exact Nat.cast_le.mpr (Nat.div_mul_le_self n _)

theorem setCompact_getCompact_nonneg {n : ℕ} (hn : n.size ≤ 2039) : 0 ≤ setCompact (getCompact n) := by
  rw [setCompact_getCompact hn]
  exact Nat.cast_nonneg _

/-- The compact form has the number, or the number less than what one part in `2 ^ 15` is more. -/
theorem setCompact_getCompact_rounds {n : ℕ} (hn : n.size ≤ 2039) :
    setCompact (getCompact n) = n ∨
      ∃ d : ℤ, 2 ^ 15 * d ≤ n ∧ n < setCompact (getCompact n) + d := by
  rw [setCompact_getCompact hn]
  generalize hk : n.size / 8 + 1 - 3 = k
  rcases Nat.eq_zero_or_pos k with rfl | hpos
  · left
    rw [pow_zero, Nat.div_one, mul_one]
  · right
    refine ⟨256 ^ k, ?_, ?_⟩
    · have hpow : 2 ^ 15 * 256 ^ k = 2 ^ (8 * k + 15) := by
        rw [show (256 : ℕ) = 2 ^ 8 by rfl, ← pow_mul, ← pow_add, add_comm]
      have htop : 2 ^ (8 * k + 15) ≤ n := Nat.lt_size.mp (by omega)
      exact_mod_cast hpow ▸ htop
    · have hmod := Nat.mod_lt n (show 0 < 256 ^ k by positivity)
      have hdiv := Nat.div_add_mod' n (256 ^ k)
      exact_mod_cast (by omega : n < n / 256 ^ k * 256 ^ k + 256 ^ k)

/-- What can be carried and is below a number is not above what is read back of it. -/
theorem Compact.le_setCompact_getCompact {x : ℤ} {n : ℕ} (hx : Compact x) (hle : x ≤ n)
    (hn : n.size ≤ 2039) : x ≤ setCompact (getCompact n) := by
  obtain ⟨m, e, hm, rfl⟩ := hx
  rw [setCompact_getCompact hn]
  have hle' : m * 256 ^ e ≤ n := Nat.cast_le.mp hle
  refine Nat.cast_le.mpr ?_
  generalize hk : n.size / 8 + 1 - 3 = k
  have hdiv : ∀ d, 256 ^ k ∣ d → d ≤ n → d ≤ n / 256 ^ k * 256 ^ k := by
    rintro d ⟨q, rfl⟩ hd
    rw [mul_comm]
    exact Nat.mul_le_mul_right _
      ((Nat.le_div_iff_mul_le (by positivity)).mpr (by rwa [mul_comm] at hd))
  rcases Nat.lt_or_ge e k with hlt | hge
  · -- a number with fewer bytes is below the least number of this size
    have hpow : ∀ j, 256 ^ j = 2 ^ (8 * j) := fun j => by rw [pow_mul]; norm_num
    have htop : 2 ^ (8 * k + 15) ≤ n := Nat.lt_size.mp (by omega)
    refine le_trans ?_ (hdiv (2 ^ (8 * k + 15)) ?_ htop)
    · calc m * 256 ^ e ≤ 2 ^ 23 * 256 ^ (k - 1) :=
            Nat.mul_le_mul hm.le (Nat.pow_le_pow_right (by decide) (by omega))
        _ = 2 ^ (8 * k + 15) := by rw [hpow, ← pow_add]; congr 1; omega
    · rw [hpow]
      exact pow_dvd_pow 2 (by omega)
  · exact hdiv _ (Dvd.dvd.mul_left (pow_dvd_pow 256 hge) m) hle'

theorem Compact.setCompact_getCompact {n : ℕ} (h : Compact n) (hn : n.size ≤ 2039) :
    setCompact (getCompact n) = n :=
  le_antisymm (setCompact_getCompact_le hn) (h.le_setCompact_getCompact le_rfl hn)

theorem setCompact_getCompact_mono {m n : ℕ} (hm : m.size ≤ 2039) (hn : n.size ≤ 2039)
    (hle : m ≤ n) : setCompact (getCompact m) ≤ setCompact (getCompact n) :=
  (compact_setCompact (setCompact_getCompact_nonneg hm)).le_setCompact_getCompact
    ((setCompact_getCompact_le hm).trans (Nat.cast_le.mpr hle)) hn

/-! ## Negative numbers -/

/-- The sign bit is that of the number, as nothing else is in its place. -/
theorem setCompact_or_sign {c : UInt32} (hc : c &&& 0x00800000 = 0) :
    setCompact (c ||| 0x00800000) = -setCompact c := by
  have hsize : (c ||| 0x00800000) >>> 24 = c >>> 24 := by
    rw [← UInt32.toNat_inj, UInt32.toNat_shiftRight, UInt32.toNat_shiftRight, UInt32.toNat_or,
      Nat.shiftRight_or_distrib]
    exact Nat.or_zero _
  have hword : (c ||| 0x00800000) &&& 0x007fffff = c &&& 0x007fffff := by
    rw [← UInt32.toNat_inj, UInt32.toNat_and, UInt32.toNat_and, UInt32.toNat_or,
      Nat.and_or_distrib_right]
    exact Nat.or_zero _
  have hsign : ((c ||| 0x00800000) &&& 0x00800000 != 0) = true := by
    rw [bne_iff_ne, ne_eq, ← UInt32.toNat_inj, UInt32.toNat_and, UInt32.toNat_or,
      Nat.and_or_distrib_right]
    intro h
    exact absurd (Nat.or_eq_zero_iff.mp h).2 (by decide)
  have hsign' : (c &&& 0x00800000 != 0) = false := by
    rw [hc]
    rfl
  rw [setCompact, setCompact, hsize, hword, hsign, hsign']
  simp

theorem getCompact_neg {n : ℕ} (hn : 0 < n) :
    getCompact (-(n : ℤ)) = getCompact n ||| 0x00800000 := by
  unfold getCompact
  rw [Int.natAbs_neg, if_pos (by omega : -(n : ℤ) < 0), if_neg (by omega : ¬(n : ℤ) < 0)]
  dsimp only
  rw [UInt32.ofNat_or, Nat.or_zero]
  rfl

theorem setCompact_getCompact_neg {n : ℕ} (hn : n.size ≤ 2039) :
    setCompact (getCompact (-(n : ℤ))) = -setCompact (getCompact n) := by
  rcases Nat.eq_zero_or_pos n with rfl | hpos
  · decide
  rw [getCompact_neg hpos, setCompact_or_sign]
  rw [getCompact_eq hpos]
  exact pack_and_sign (keptBytes_lt n) (by omega)

/-- What `SetCompact` gives can be carried, but for its sign. -/
theorem setCompact_eq (c : UInt32) : ∃ n : ℕ, Compact n ∧ n.size ≤ 2039 ∧
    (setCompact c = n ∨ setCompact c = -(n : ℤ)) := by
  have hw : (c &&& 0x007fffff).toNat < 2 ^ 23 := by
    rw [UInt32.toNat_and]
    exact Nat.and_lt_two_pow _ (by decide)
  have hs : (c >>> 24).toNat < 256 := by
    rw [UInt32.toNat_shiftRight]
    simp only [UInt32.toNat_ofNat, Nat.reducePow, Nat.reduceMod, Nat.shiftRight_eq_div_pow]
    have := c.toNat_lt
    omega
  have hmag := compact_shifted hw (c >>> 24).toNat
  rw [setCompact]
  generalize (c &&& 0x007fffff).toNat = w at hw hmag
  generalize (c >>> 24).toNat = s at hs hmag
  refine ⟨if s ≤ 3 then w >>> (8 * (3 - s)) else w <<< (8 * (s - 3)), ?_, ?_, ?_⟩
  · rwa [Nat.cast_ite]
  · split
    · have hlt : w >>> (8 * (3 - s)) < 2 ^ 23 := (Nat.shiftRight_le w _).trans_lt hw
      exact (Nat.size_le.mpr hlt).trans (by decide)
    · have hlt : w <<< (8 * (s - 3)) < 2 ^ (23 + 8 * (s - 3)) := by
        rw [Nat.shiftLeft_eq, pow_add]
        exact Nat.mul_lt_mul_of_pos_right hw (Nat.two_pow_pos _)
      exact (Nat.size_le.mpr hlt).trans (by omega)
  · rw [Nat.cast_ite]
    split
    · exact .inr rfl
    · exact .inl rfl

theorem setCompact_getCompact_setCompact (c : UInt32) :
    setCompact (getCompact (setCompact c)) = setCompact c := by
  obtain ⟨n, hn, hsize, heq | heq⟩ := setCompact_eq c
  · rw [heq, hn.setCompact_getCompact hsize]
  · rw [heq, setCompact_getCompact_neg hsize, hn.setCompact_getCompact hsize]

/-- `BN_num_bytes`. -/
def numBytes (n : ℤ) : ℕ := (Nat.size n.natAbs + 7) / 8

/-- **Rounding** : a target that was written and read again is not changed by writing and reading
it once more. A number of at most 254 bytes is rounded down by less than one part in `2 ^ 15`, and
greater numbers are not rounded to less. -/
theorem setCompact_getCompact_rounding :
    (∀ nCompact : UInt32, getCompact (setCompact (getCompact (setCompact nCompact))) =
      getCompact (setCompact nCompact)) ∧
    (∀ n : ℤ, 0 ≤ n → numBytes n ≤ 254 →
      0 ≤ setCompact (getCompact n) ∧ setCompact (getCompact n) ≤ n ∧
        (0 < n → 2 ^ 15 * (n - setCompact (getCompact n)) < n)) ∧
    (∀ m n : ℤ, numBytes m ≤ 254 → numBytes n ≤ 254 → m ≤ n →
      setCompact (getCompact m) ≤ setCompact (getCompact n)) := by
  have hsize : ∀ {n : ℤ}, numBytes n ≤ 254 → n.natAbs.size ≤ 2039 := fun {n} h => by
    unfold numBytes at h
    omega
  refine ⟨fun c => congrArg getCompact (setCompact_getCompact_setCompact c), ?_, ?_⟩
  · intro n hn hbytes
    obtain ⟨n, rfl⟩ := Int.eq_ofNat_of_zero_le hn
    have hn := hsize hbytes
    rw [Int.natAbs_natCast] at hn
    refine ⟨setCompact_getCompact_nonneg hn, setCompact_getCompact_le hn, fun hpos => ?_⟩
    rcases setCompact_getCompact_rounds hn with heq | ⟨d, hd, hlow⟩ <;> omega
  · intro m n hm hn hle
    replace hm := hsize hm
    replace hn := hsize hn
    obtain ⟨a, rfl | rfl⟩ := m.eq_nat_or_neg <;> obtain ⟨b, rfl | rfl⟩ := n.eq_nat_or_neg
    · exact setCompact_getCompact_mono hm hn (by omega)
    · obtain ⟨rfl, rfl⟩ : a = 0 ∧ b = 0 := by omega
      exact le_rfl
    · rw [Int.natAbs_neg] at hm
      rw [Int.natAbs_natCast] at hm hn
      have hlow := setCompact_getCompact_nonneg hm
      have hhigh := setCompact_getCompact_nonneg hn
      rw [setCompact_getCompact_neg hm]
      omega
    · rw [Int.natAbs_neg, Int.natAbs_natCast] at hm hn
      rw [setCompact_getCompact_neg hm, setCompact_getCompact_neg hn]
      exact neg_le_neg (setCompact_getCompact_mono hn hm (by omega))

/-- One more than can be carried in 23 bits. -/
theorem setCompact_getCompact_rounding_sample :
    0 ≤ (2 ^ 23 + 1 : ℤ) ∧ numBytes (2 ^ 23 + 1) ≤ 254 ∧
      setCompact (getCompact (2 ^ 23 + 1)) ≤ 2 ^ 23 + 1 := by
  have hbytes : numBytes (2 ^ 23 + 1) ≤ 254 := by decide
  exact ⟨by decide, hbytes,
    (setCompact_getCompact_rounding.2.1 (2 ^ 23 + 1) (by decide) hbytes).2.1⟩

end Ticoin
