import Ticoin.Lib.Limbs
import Ticoin.Util

/-!
# uint256.h : wide unsigned integers

`base_uint` has its number in limbs of 32 bits. Its operators go through the limbs with carries, or
by two limbs at once for a shift.

Whatever the width, they compute what the operators of bit vectors do (`BaseUint.toBitVec_operators`),
so that `uint160` and `uint256` can be the bit vectors that they are elsewhere. What `GetHex` writes is
read back by `SetHex`.
-/

namespace Ticoin

open Codec Limbs

/-- `base_uint` of `32 * WIDTH` bits. -/
@[ext] structure BaseUint (WIDTH : ℕ) where
  pn : List UInt32
  length_pn : pn.length = WIDTH

namespace BaseUint

variable {WIDTH : ℕ}

/-- The limbs as one number. -/
def toBitVec (a : BaseUint WIDTH) : BitVec (32 * WIDTH) := BitVec.ofNat _ (value a.pn)

/-! ## Operators -/

/-- `operator!`. -/
def isZero (a : BaseUint WIDTH) : Bool := a.pn.all (· == 0)

/-- `operator~`. -/
def complement (a : BaseUint WIDTH) : BaseUint WIDTH :=
  ⟨a.pn.map (~~~ ·), by rw [List.length_map, a.length_pn]⟩

/-- `operator++`. -/
def increment (a : BaseUint WIDTH) : BaseUint WIDTH :=
  ⟨Limbs.increment a.pn, by rw [length_increment, a.length_pn]⟩

/-- `operator--`. -/
def decrement (a : BaseUint WIDTH) : BaseUint WIDTH :=
  ⟨Limbs.decrement a.pn, by rw [length_decrement, a.length_pn]⟩

/-- `operator-` of one number. -/
def negate (a : BaseUint WIDTH) : BaseUint WIDTH := a.complement.increment

/-- `operator=` of a number of 64 bits. -/
def ofUInt64 (b : UInt64) : BaseUint WIDTH :=
  ⟨(List.range WIDTH).map fun i =>
    if i = 0 then b.toUInt32 else if i = 1 then (b >>> 32).toUInt32 else 0,
    by rw [List.length_map, List.length_range]⟩

/-- `operator^=`. -/
def xorAssign (a b : BaseUint WIDTH) : BaseUint WIDTH :=
  ⟨List.zipWith (· ^^^ ·) a.pn b.pn, by
    rw [List.length_zipWith, a.length_pn, b.length_pn, Nat.min_self]⟩

/-- `operator&=`. -/
def andAssign (a b : BaseUint WIDTH) : BaseUint WIDTH :=
  ⟨List.zipWith (· &&& ·) a.pn b.pn, by
    rw [List.length_zipWith, a.length_pn, b.length_pn, Nat.min_self]⟩

/-- `operator|=`. -/
def orAssign (a b : BaseUint WIDTH) : BaseUint WIDTH :=
  ⟨List.zipWith (· ||| ·) a.pn b.pn, by
    rw [List.length_zipWith, a.length_pn, b.length_pn, Nat.min_self]⟩

/-- `operator^=` of a number of 64 bits. -/
def xorAssign64 (a : BaseUint WIDTH) (b : UInt64) : BaseUint WIDTH :=
  ⟨(a.pn.modify 0 (· ^^^ b.toUInt32)).modify 1 (· ^^^ (b >>> 32).toUInt32), by
    rw [List.length_modify, List.length_modify, a.length_pn]⟩

/-- `operator|=` of a number of 64 bits. -/
def orAssign64 (a : BaseUint WIDTH) (b : UInt64) : BaseUint WIDTH :=
  ⟨(a.pn.modify 0 (· ||| b.toUInt32)).modify 1 (· ||| (b >>> 32).toUInt32), by
    rw [List.length_modify, List.length_modify, a.length_pn]⟩

/-- The loop of `operator<<=`, the first `n` times. -/
def shiftLeftLoop (a : List UInt32) (k : ℕ) (shift : UInt32) : ℕ → List UInt32
  | 0 => List.replicate a.length 0
  | i + 1 =>
    let pn := shiftLeftLoop a k shift i
    let pn := if i + k + 1 < a.length ∧ shift ≠ 0 then
      pn.modify (i + k + 1) (· ||| a.getD i 0 >>> (32 - shift)) else pn
    if i + k < a.length then pn.modify (i + k) (· ||| a.getD i 0 <<< shift) else pn

/-- The loop of `operator>>=`, the first `n` times. -/
def shiftRightLoop (a : List UInt32) (k : ℕ) (shift : UInt32) : ℕ → List UInt32
  | 0 => List.replicate a.length 0
  | i + 1 =>
    let pn := shiftRightLoop a k shift i
    let pn := if k + 1 ≤ i ∧ shift ≠ 0 then
      pn.modify (i - k - 1) (· ||| a.getD i 0 <<< (32 - shift)) else pn
    if k ≤ i then pn.modify (i - k) (· ||| a.getD i 0 >>> shift) else pn

theorem length_shiftLeftLoop (a : List UInt32) (k : ℕ) (shift : UInt32) :
    ∀ n, (shiftLeftLoop a k shift n).length = a.length
  | 0 => List.length_replicate
  | n + 1 => by
    unfold shiftLeftLoop
    dsimp only
    split_ifs <;> simp only [List.length_modify, length_shiftLeftLoop a k shift n]

theorem length_shiftRightLoop (a : List UInt32) (k : ℕ) (shift : UInt32) :
    ∀ n, (shiftRightLoop a k shift n).length = a.length
  | 0 => List.length_replicate
  | n + 1 => by
    unfold shiftRightLoop
    dsimp only
    split_ifs <;> simp only [List.length_modify, length_shiftRightLoop a k shift n]

/-- `operator<<=`. -/
def shiftLeftAssign (a : BaseUint WIDTH) (shift : UInt32) : BaseUint WIDTH :=
  ⟨shiftLeftLoop a.pn (shift / 32).toNat (shift % 32) WIDTH, by
    rw [length_shiftLeftLoop, a.length_pn]⟩

/-- `operator>>=`. -/
def shiftRightAssign (a : BaseUint WIDTH) (shift : UInt32) : BaseUint WIDTH :=
  ⟨shiftRightLoop a.pn (shift / 32).toNat (shift % 32) WIDTH, by
    rw [length_shiftRightLoop, a.length_pn]⟩

/-- `operator+=`. -/
def addAssign (a b : BaseUint WIDTH) : BaseUint WIDTH :=
  ⟨add 0 a.pn b.pn, by rw [length_add 0 (a.length_pn.trans b.length_pn.symm), a.length_pn]⟩

/-- `operator-=`. -/
def subAssign (a b : BaseUint WIDTH) : BaseUint WIDTH := a.addAssign b.negate

/-- `operator+=` of a number of 64 bits. -/
def addAssign64 (a : BaseUint WIDTH) (b64 : UInt64) : BaseUint WIDTH := a.addAssign (ofUInt64 b64)

/-- `operator-=` of a number of 64 bits. -/
def subAssign64 (a : BaseUint WIDTH) (b64 : UInt64) : BaseUint WIDTH :=
  a.addAssign (ofUInt64 b64).negate

/-- `operator<`. -/
def less (a b : BaseUint WIDTH) : Bool := precedes (fun x y => x < y) false a.pn b.pn WIDTH

/-- `operator<=`. -/
def lessEqual (a b : BaseUint WIDTH) : Bool := precedes (fun x y => x < y) true a.pn b.pn WIDTH

/-- `operator>`. -/
def greater (a b : BaseUint WIDTH) : Bool := precedes (fun x y => x > y) false a.pn b.pn WIDTH

/-- `operator>=`. -/
def greaterEqual (a b : BaseUint WIDTH) : Bool := precedes (fun x y => x > y) true a.pn b.pn WIDTH

/-- `operator==`. -/
def equal (a b : BaseUint WIDTH) : Bool := (List.zip a.pn b.pn).all fun p => p.1 == p.2

/-- `operator==` of a number of 64 bits. -/
def equal64 (a : BaseUint WIDTH) (b : UInt64) : Bool :=
  a.pn.getD 0 0 == b.toUInt32 && a.pn.getD 1 0 == (b >>> 32).toUInt32 && (a.pn.drop 2).all (· == 0)

/-! ## Hexadecimal -/

/-- The bytes of the limbs. -/
def bytes (a : BaseUint WIDTH) : Bytes := a.pn.flatMap fun x => leBytes 4 x.toNat

/-- `GetHex` : two digits for every byte, the last byte first. -/
def getHex (a : BaseUint WIDTH) : Bytes := hexStr a.bytes.reverse

/-- The loop of `SetHex` : digits from the last on, two for a byte, as long as there is room. -/
def setHexLoop : ℕ → Bytes → Bytes
  | 0, _ => []
  | n + 1, [] => List.replicate (n + 1) 0
  | n + 1, [psz] => (hexDigit psz).getD 0 :: List.replicate n 0
  | n + 1, psz :: psz' :: digits =>
    ((hexDigit psz).getD 0 ||| (hexDigit psz').getD 0 <<< 4) :: setHexLoop n digits

/-- The limbs of bytes. -/
def limbs : ℕ → Bytes → List UInt32
  | 0, _ => []
  | n + 1, p1 => UInt32.ofNat (ofLeBytes (p1.take 4)) :: limbs n (p1.drop 4)

theorem length_limbs : ∀ (n : ℕ) (p1 : Bytes), (limbs n p1).length = n
  | 0, _ => rfl
  | n + 1, p1 => congrArg Nat.succ (length_limbs n (p1.drop 4))

/-- An optional 0x. -/
def skip0x : Bytes → Bytes
  | c :: c' :: psz => if c = 48 ∧ toLower c' = 120 then psz else c :: c' :: psz
  | psz => psz

/-- `SetHex` : spaces and 0x are skipped, and then the digits up to the first other character are
the number. -/
def setHex (psz : Bytes) : BaseUint WIDTH :=
  let digits := (skip0x (psz.dropWhile isSpace)).takeWhile fun c => (hexDigit c).isSome
  ⟨limbs WIDTH (setHexLoop (WIDTH * 4) digits.reverse), length_limbs _ _⟩

/-! ## Values -/

section

variable (a b : BaseUint WIDTH)

theorem value_lt : value a.pn < 2 ^ (32 * WIDTH) := by
  have h := Limbs.value_lt a.pn
  rwa [a.length_pn] at h

@[simp] theorem toNat_toBitVec : a.toBitVec.toNat = value a.pn :=
  (BitVec.toNat_ofNat _ _).trans (Nat.mod_eq_of_lt a.value_lt)

theorem toBitVec_inj {a b : BaseUint WIDTH} : a.toBitVec = b.toBitVec ↔ a = b := by
  refine ⟨fun h => ?_, congrArg toBitVec⟩
  have hvalue := congrArg BitVec.toNat h
  rw [toNat_toBitVec, toNat_toBitVec] at hvalue
  exact BaseUint.ext (value_inj (a.length_pn.trans b.length_pn.symm) hvalue)

theorem toBitVec_addAssign : (a.addAssign b).toBitVec = a.toBitVec + b.toBitVec := by
  refine BitVec.eq_of_toNat_eq ?_
  rw [BitVec.toNat_add, toNat_toBitVec, toNat_toBitVec, toNat_toBitVec, addAssign,
    value_add (by decide) (a.length_pn.trans b.length_pn.symm), a.length_pn]
  exact congrArg (· % _) (congrArg (· + _) (Nat.zero_add _))

theorem toBitVec_complement : a.complement.toBitVec = ~~~a.toBitVec := by
  refine BitVec.eq_of_toNat_eq ?_
  have h := value_map_not a.pn
  rw [a.length_pn] at h
  rw [BitVec.toNat_not, toNat_toBitVec, toNat_toBitVec]
  change value (a.pn.map (~~~ ·)) = _
  omega

theorem toBitVec_increment : a.increment.toBitVec = a.toBitVec + 1#_ := by
  refine BitVec.eq_of_toNat_eq ?_
  rw [BitVec.toNat_add, toNat_toBitVec, toNat_toBitVec, increment, value_increment, a.length_pn,
    BitVec.toNat_ofNat, Nat.add_mod_mod]

theorem toBitVec_decrement : a.decrement.toBitVec = a.toBitVec - 1#_ := by
  refine BitVec.eq_of_toNat_eq ?_
  rw [BitVec.toNat_sub, toNat_toBitVec, toNat_toBitVec, decrement, value_decrement, a.length_pn,
    BitVec.toNat_ofNat]
  rcases Nat.eq_zero_or_pos WIDTH with rfl | hpos
  · rw [Nat.mul_zero, pow_zero, Nat.mod_one, Nat.mod_one]
  · rw [Nat.mod_eq_of_lt (Nat.one_lt_two_pow (by omega)), Nat.add_comm]

theorem toBitVec_negate : a.negate.toBitVec = -a.toBitVec := by
  rw [negate, toBitVec_increment, toBitVec_complement, BitVec.neg_eq_not_add]

theorem toBitVec_subAssign : (a.subAssign b).toBitVec = a.toBitVec - b.toBitVec := by
  rw [subAssign, toBitVec_addAssign, toBitVec_negate, BitVec.sub_eq_add_neg]

theorem toBitVec_xorAssign : (a.xorAssign b).toBitVec = a.toBitVec ^^^ b.toBitVec := by
  refine BitVec.eq_of_toNat_eq ?_
  rw [BitVec.toNat_xor, toNat_toBitVec, toNat_toBitVec, toNat_toBitVec]
  exact value_zipWith_xor (a.length_pn.trans b.length_pn.symm)

theorem toBitVec_andAssign : (a.andAssign b).toBitVec = a.toBitVec &&& b.toBitVec := by
  refine BitVec.eq_of_toNat_eq ?_
  rw [BitVec.toNat_and, toNat_toBitVec, toNat_toBitVec, toNat_toBitVec]
  exact value_zipWith_and (a.length_pn.trans b.length_pn.symm)

theorem toBitVec_orAssign : (a.orAssign b).toBitVec = a.toBitVec ||| b.toBitVec := by
  refine BitVec.eq_of_toNat_eq ?_
  rw [BitVec.toNat_or, toNat_toBitVec, toNat_toBitVec, toNat_toBitVec]
  exact value_zipWith_or (a.length_pn.trans b.length_pn.symm)

end

/-! ## Shifts -/

/-- A limb that is changed under a condition. -/
theorem getD_modify {c : Prop} [Decidable c] {l : List UInt32} {m : ℕ} (hm : c → m < l.length)
    (f : UInt32 → UInt32) (j : ℕ) : (if c then l.modify m f else l).getD j 0 =
      if c ∧ m = j then f (l.getD j 0) else l.getD j 0 := by
  by_cases hc : c
  · rw [if_pos hc, List.getD_eq_getElem?_getD, List.getElem?_modify, List.getD_eq_getElem?_getD]
    by_cases hj : m = j
    · subst hj
      rw [if_pos ⟨hc, rfl⟩, List.getElem?_eq_getElem (hm hc)]
      simp
    · rw [if_neg fun h => hj h.2]
      cases l[j]? <;> simp [hj]
  · rw [if_neg hc, if_neg fun h => hc h.1]

/-- What the first `n` limbs give to limb `j`. -/
theorem getD_shiftLeftLoop (a : List UInt32) (k : ℕ) (shift : UInt32) {j : ℕ} (hj : j < a.length) :
    ∀ n, (shiftLeftLoop a k shift n).getD j 0 =
      (if k ≤ j ∧ j < n + k then a.getD (j - k) 0 <<< shift else 0) |||
        if k + 1 ≤ j ∧ j < n + k + 1 ∧ shift ≠ 0 then a.getD (j - k - 1) 0 >>> (32 - shift) else 0
  | 0 => by
    rw [if_neg (by omega), if_neg (by omega), shiftLeftLoop, List.getD_replicate _ hj]
    rfl
  | n + 1 => by
    have ih := getD_shiftLeftLoop a k shift hj n
    have hlen := length_shiftLeftLoop a k shift n
    have hlen' : ∀ {c : Prop} [Decidable c] (m : ℕ) (f : UInt32 → UInt32),
        (if c then (shiftLeftLoop a k shift n).modify m f else shiftLeftLoop a k shift n).length =
          a.length := by
      intro c _ m f
      split
      · rw [List.length_modify, hlen]
      · exact hlen
    unfold shiftLeftLoop
    dsimp only
    rw [getD_modify (fun h => by rw [hlen']; exact h), getD_modify (fun h => by rw [hlen]; exact h.1),
      ih]
    rcases Nat.lt_trichotomy (n + k) j with hlt | heq | hgt
    · rw [if_neg (fun h => absurd h.2 hlt.ne), if_neg (c := k ≤ j ∧ j < n + k) (by omega),
        if_neg (c := k ≤ j ∧ j < n + 1 + k) (by omega)]
      by_cases h1 : n + k + 1 = j ∧ shift ≠ 0
      · -- the upper part of limb `n` is the lower part of this one
        have hlimb : j - k - 1 = n := by omega
        rw [if_pos ⟨⟨by omega, h1.2⟩, h1.1⟩, if_neg (fun h => by omega),
          if_pos ⟨by omega, by omega, h1.2⟩, hlimb, UInt32.or_zero]
      · rw [if_neg (fun h => h1 ⟨h.2, h.1.2⟩), if_neg (fun h => by omega),
          if_neg (fun h => h1 ⟨by omega, h.2.2⟩)]
    · have hlimb : j - k = n := by omega
      have hupper : (k + 1 ≤ j ∧ j < n + k + 1 ∧ shift ≠ 0) ↔
          (k + 1 ≤ j ∧ j < n + 1 + k + 1 ∧ shift ≠ 0) :=
        and_congr_right fun _ => and_congr_left fun _ => by omega
      rw [if_pos ⟨by omega, heq⟩, if_neg (fun h => by omega),
        if_neg (c := k ≤ j ∧ j < n + k) (by omega), if_pos (c := k ≤ j ∧ j < n + 1 + k) (by omega),
        hlimb, UInt32.zero_or, UInt32.or_comm, if_congr hupper rfl rfl]
    · have hlower : (k ≤ j ∧ j < n + k) ↔ (k ≤ j ∧ j < n + 1 + k) := by omega
      have hupper : (k + 1 ≤ j ∧ j < n + k + 1 ∧ shift ≠ 0) ↔
          (k + 1 ≤ j ∧ j < n + 1 + k + 1 ∧ shift ≠ 0) :=
        and_congr_right fun _ => and_congr_left fun _ => by omega
      rw [if_neg (fun h => absurd h.2 hgt.ne'), if_neg (fun h => by omega), if_congr hlower rfl rfl,
        if_congr hupper rfl rfl]

/-- What the first `n` limbs give to limb `j`. -/
theorem getD_shiftRightLoop (a : List UInt32) (k : ℕ) (shift : UInt32) {j : ℕ} (hj : j < a.length) :
    ∀ n, n ≤ a.length → (shiftRightLoop a k shift n).getD j 0 =
      (if j + k < n then a.getD (j + k) 0 >>> shift else 0) |||
        if j + k + 1 < n ∧ shift ≠ 0 then a.getD (j + k + 1) 0 <<< (32 - shift) else 0
  | 0, _ => by
    rw [if_neg (by omega), if_neg (by omega), shiftRightLoop, List.getD_replicate _ hj]
    rfl
  | n + 1, hn => by
    have ih := getD_shiftRightLoop a k shift hj n (by omega)
    have hlen := length_shiftRightLoop a k shift n
    have hlen' : ∀ {c : Prop} [Decidable c] (m : ℕ) (f : UInt32 → UInt32),
        (if c then (shiftRightLoop a k shift n).modify m f else shiftRightLoop a k shift n).length =
          a.length := by
      intro c _ m f
      split
      · rw [List.length_modify, hlen]
      · exact hlen
    unfold shiftRightLoop
    dsimp only
    rw [getD_modify (fun h => by rw [hlen']; omega), getD_modify (fun h => by rw [hlen]; omega), ih]
    clear hlen hlen' ih
    rcases Nat.lt_trichotomy (j + k) n with hlt | heq | hgt
    · rw [if_neg (c := k ≤ n ∧ n - k = j) (by omega), if_pos (c := j + k < n) hlt,
        if_pos (c := j + k < n + 1) (by omega)]
      by_cases h1 : j + k + 1 = n ∧ shift ≠ 0
      · -- the lower part of limb `n` is the upper part of this one
        rw [if_pos (c := (k + 1 ≤ n ∧ shift ≠ 0) ∧ n - k - 1 = j) ⟨⟨by omega, h1.2⟩, by omega⟩,
          if_neg (c := j + k + 1 < n ∧ shift ≠ 0) (fun h => by omega),
          if_pos (c := j + k + 1 < n + 1 ∧ shift ≠ 0) ⟨by omega, h1.2⟩, h1.1, UInt32.or_zero]
      · have hupper : (j + k + 1 < n ∧ shift ≠ 0) ↔ (j + k + 1 < n + 1 ∧ shift ≠ 0) := by
          refine and_congr_left fun hne => ?_
          have hnext : j + k + 1 ≠ n := fun h => h1 ⟨h, hne⟩
          omega
        rw [if_neg (c := (k + 1 ≤ n ∧ shift ≠ 0) ∧ n - k - 1 = j) (fun h => h1 ⟨by omega, h.1.2⟩),
          if_congr hupper rfl rfl]
    · rw [if_pos (c := k ≤ n ∧ n - k = j) (by omega),
        if_neg (c := (k + 1 ≤ n ∧ shift ≠ 0) ∧ n - k - 1 = j) (fun h => by omega),
        if_neg (c := j + k < n) (by omega),
        if_neg (c := j + k + 1 < n ∧ shift ≠ 0) (fun h => by omega),
        if_pos (c := j + k < n + 1) (by omega),
        if_neg (c := j + k + 1 < n + 1 ∧ shift ≠ 0) (fun h => by omega), heq, UInt32.or_zero,
        UInt32.zero_or, UInt32.or_zero]
    · rw [if_neg (c := k ≤ n ∧ n - k = j) (by omega),
        if_neg (c := (k + 1 ≤ n ∧ shift ≠ 0) ∧ n - k - 1 = j) (fun h => by omega),
        if_neg (c := j + k < n) (by omega),
        if_neg (c := j + k + 1 < n ∧ shift ≠ 0) (fun h => by omega),
        if_neg (c := j + k < n + 1) (by omega),
        if_neg (c := j + k + 1 < n + 1 ∧ shift ≠ 0) (fun h => by omega)]

section

variable (a : BaseUint WIDTH) (shift : UInt32)

theorem toNat_shift : 32 * (shift / 32).toNat + (shift % 32).toNat = shift.toNat ∧
    (shift % 32).toNat < 32 := by
  rw [UInt32.toNat_div, UInt32.toNat_mod]
  exact ⟨Nat.div_add_mod _ _, Nat.mod_lt _ (by decide)⟩

theorem toBitVec_shiftLeftAssign : (a.shiftLeftAssign shift).toBitVec = a.toBitVec <<< shift.toNat := by
  obtain ⟨hshift, hlt⟩ := toNat_shift shift
  refine BitVec.eq_of_toNat_eq ?_
  have hvalue := value_shiftLeft hlt (length_shiftLeftLoop a.pn (shift / 32).toNat (shift % 32) WIDTH)
    fun j hj => by
      rw [getD_shiftLeftLoop a.pn _ _ hj]
      have hlen := a.length_pn
      congr 1
      · exact if_congr (by omega) rfl rfl
      · refine if_congr ⟨fun h => ⟨h.1, h.2.2⟩, fun h => ⟨h.1, by omega, h.2⟩⟩ rfl rfl
  rw [hshift, a.length_pn] at hvalue
  rw [BitVec.toNat_shiftLeft, toNat_toBitVec, toNat_toBitVec]
  exact hvalue

theorem toBitVec_shiftRightAssign :
    (a.shiftRightAssign shift).toBitVec = a.toBitVec >>> shift.toNat := by
  obtain ⟨hshift, hlt⟩ := toNat_shift shift
  refine BitVec.eq_of_toNat_eq ?_
  have hlen := a.length_pn
  have hvalue := value_shiftRight hlt (length_shiftRightLoop a.pn (shift / 32).toNat (shift % 32) WIDTH)
    (k := (shift / 32).toNat) fun j hj => by
      rw [getD_shiftRightLoop a.pn _ _ hj WIDTH hlen.ge]
      congr 1
      · split
        · rfl
        · rw [List.getD_eq_default _ _ (by omega)]
          exact UInt32.zero_shiftRight.symm
      · by_cases hne : shift % 32 ≠ 0
        · rw [if_pos (c := shift % 32 ≠ 0) hne]
          split
          · rfl
          · rename_i h
            have hge : ¬j + (shift / 32).toNat + 1 < WIDTH := fun hlt' => h ⟨hlt', hne⟩
            rw [List.getD_eq_default _ _ (by omega)]
            exact UInt32.zero_shiftLeft.symm
        · rw [if_neg (c := shift % 32 ≠ 0) hne, if_neg fun h => hne h.2]
  rw [hshift] at hvalue
  rw [BitVec.toNat_ushiftRight, toNat_toBitVec, toNat_toBitVec]
  exact hvalue

end

/-! ## Numbers of 64 bits -/

theorem value_eq_zero : ∀ {pn : List UInt32}, value pn = 0 ↔ pn.all (· == 0) = true
  | [] => iff_of_true rfl rfl
  | x :: pn => by
    rw [value, List.all_cons, Bool.and_eq_true, ← value_eq_zero, beq_iff_eq, ← UInt32.toNat_inj,
      UInt32.toNat_zero]
    omega

theorem toNat_halves (b : UInt64) :
    b.toUInt32.toNat + 2 ^ 32 * (b >>> 32).toUInt32.toNat = b.toNat := by
  have hb := b.toNat_lt
  rw [UInt64.toNat_toUInt32, UInt64.toNat_toUInt32, UInt64.toNat_shiftRight,
    Nat.shiftRight_eq_div_pow]
  change b.toNat % 2 ^ 32 + 2 ^ 32 * (b.toNat / 2 ^ 32 % 2 ^ 32) = b.toNat
  omega

/-- The limbs of a number of 64 bits. -/
theorem pn_ofUInt64 (n : ℕ) (b : UInt64) : (ofUInt64 b : BaseUint (n + 2)).pn =
    b.toUInt32 :: (b >>> 32).toUInt32 :: List.replicate n 0 := by
  unfold ofUInt64
  dsimp only
  rw [List.range_succ_eq_map, List.range_succ_eq_map, List.map_cons, List.map_cons, List.map_cons,
    List.map_map, List.map_map]
  refine congrArg₂ List.cons rfl (congrArg₂ List.cons rfl ?_)
  refine List.eq_replicate_iff.mpr ⟨by rw [List.length_map, List.length_range], fun x hx => ?_⟩
  obtain ⟨i, -, rfl⟩ := List.mem_map.mp hx
  rfl

theorem toBitVec_ofUInt64 (hwidth : 2 ≤ WIDTH) (b : UInt64) :
    (ofUInt64 b : BaseUint WIDTH).toBitVec = BitVec.ofNat _ b.toNat := by
  obtain ⟨n, rfl⟩ := Nat.exists_eq_add_of_le' hwidth
  have hzero : value (List.replicate n 0) = 0 := value_eq_zero.mpr (by simp)
  have hhalves := toNat_halves b
  unfold toBitVec
  rw [pn_ofUInt64, value, value, hzero]
  congr 1

theorem xorAssign64_eq (a : BaseUint WIDTH) (b : UInt64) :
    a.xorAssign64 b = a.xorAssign (ofUInt64 b) := by
  refine BaseUint.ext (List.ext_getElem ?_ fun i hi _ => ?_)
  · rw [(a.xorAssign64 b).length_pn, (a.xorAssign (ofUInt64 b)).length_pn]
  · simp only [xorAssign64, xorAssign, ofUInt64, List.getElem_modify, List.getElem_zipWith,
      List.getElem_map, List.getElem_range]
    match i with
    | 0 => rfl
    | 1 => rfl
    | i + 2 => exact UInt32.xor_zero.symm

theorem orAssign64_eq (a : BaseUint WIDTH) (b : UInt64) :
    a.orAssign64 b = a.orAssign (ofUInt64 b) := by
  refine BaseUint.ext (List.ext_getElem ?_ fun i hi _ => ?_)
  · rw [(a.orAssign64 b).length_pn, (a.orAssign (ofUInt64 b)).length_pn]
  · simp only [orAssign64, orAssign, ofUInt64, List.getElem_modify, List.getElem_zipWith,
      List.getElem_map, List.getElem_range]
    match i with
    | 0 => rfl
    | 1 => rfl
    | i + 2 => exact UInt32.or_zero.symm

/-! ## Comparisons -/

section

variable (a b : BaseUint WIDTH)

/-- Limbs of all places are compared. -/
theorem precedes_pn (fEqual : Bool) :
    precedes (fun x y => x < y) fEqual a.pn b.pn WIDTH = true ↔
      value a.pn < value b.pn ∨ fEqual = true ∧ value a.pn = value b.pn := by
  have h := precedes_iff fEqual a.length_pn.ge b.length_pn.ge
  rwa [List.take_of_length_le a.length_pn.le, List.take_of_length_le b.length_pn.le] at h

theorem less_iff : a.less b = true ↔ a.toBitVec < b.toBitVec := by
  rw [BitVec.lt_def, toNat_toBitVec, toNat_toBitVec, less, precedes_pn]
  simp

theorem lessEqual_iff : a.lessEqual b = true ↔ a.toBitVec ≤ b.toBitVec := by
  rw [BitVec.le_def, toNat_toBitVec, toNat_toBitVec, lessEqual, precedes_pn]
  simp only [true_and]
  exact Nat.le_iff_lt_or_eq.symm

theorem greater_iff : a.greater b = true ↔ b.toBitVec < a.toBitVec := by
  rw [← less_iff]
  exact iff_of_eq (congrArg (· = true) (precedes_swap (fun x y => x < y) false a.pn b.pn WIDTH))

theorem greaterEqual_iff : a.greaterEqual b = true ↔ b.toBitVec ≤ a.toBitVec := by
  rw [← lessEqual_iff]
  exact iff_of_eq (congrArg (· = true) (precedes_swap (fun x y => x < y) true a.pn b.pn WIDTH))

theorem all_zip_iff : ∀ {l l' : List UInt32}, l.length = l'.length →
    ((List.zip l l').all (fun p => p.1 == p.2) = true ↔ l = l')
  | [], [], _ => iff_of_true rfl rfl
  | x :: l, y :: l', h => by
    rw [List.zip_cons_cons, List.all_cons, Bool.and_eq_true, all_zip_iff (Nat.succ.inj h),
      beq_iff_eq, List.cons.injEq]

theorem equal_iff : a.equal b = true ↔ a.toBitVec = b.toBitVec := by
  rw [toBitVec_inj, equal, all_zip_iff (a.length_pn.trans b.length_pn.symm), BaseUint.ext_iff]

theorem isZero_iff : a.isZero = true ↔ a.toBitVec = 0#_ := by
  rw [isZero, ← value_eq_zero, ← BitVec.toNat_inj, toNat_toBitVec, BitVec.toNat_ofNat,
    Nat.zero_mod]

theorem equal64_iff (hwidth : 2 ≤ WIDTH) (b : UInt64) :
    a.equal64 b = true ↔ a.toBitVec = BitVec.ofNat _ b.toNat := by
  obtain ⟨n, rfl⟩ := Nat.exists_eq_add_of_le' hwidth
  rw [← toBitVec_ofUInt64 hwidth, toBitVec_inj, BaseUint.ext_iff, pn_ofUInt64, equal64]
  match hpn : a.pn, a.length_pn with
  | x :: y :: rest, hlen =>
    have hrest : rest.length = n := Nat.succ.inj (Nat.succ.inj hlen)
    simp only [List.getD_cons_zero, List.getD_cons_succ, List.drop_succ_cons, List.drop_zero,
      Bool.and_eq_true, beq_iff_eq, List.all_eq_true, List.cons.injEq, List.eq_replicate_iff, hrest,
      true_and, and_assoc]

end

/-! ## Digits -/

theorem toLower_ne_of_hexDigit {c n : UInt8} (h : hexDigit c = some n) : toLower c ≠ 120 := by
  intro hx
  unfold toLower at hx
  split at hx
  · have hc : c = 88 := by
      rw [← UInt8.toNat_inj, UInt8.toNat_add] at hx
      have hlt := c.toNat_lt
      rw [← UInt8.toNat_inj]
      change (c.toNat + 32) % 256 = 120 at hx
      change c.toNat = 88
      omega
    rw [hc, show hexDigit 88 = none from rfl] at h
    cases h
  · rw [hx, show hexDigit 120 = none from rfl] at h
    cases h

/-- What is written are digits, with no space in front and no 0x. -/
theorem hexStr_digits (vch : Bytes) : (∀ c ∈ hexStr vch, (hexDigit c).isSome = true) ∧
    (hexStr vch).dropWhile isSpace = hexStr vch ∧ skip0x (hexStr vch) = hexStr vch := by
  refine ⟨fun c hc => ?_, ?_, ?_⟩
  · obtain ⟨val, -, hval⟩ := List.mem_flatMap.mp hc
    obtain ⟨hhigh, hlow, -, -⟩ := hexDigit_hexChar val
    rw [List.mem_cons, List.mem_singleton] at hval
    rcases hval with rfl | rfl
    · rw [hhigh]
      rfl
    · rw [hlow]
      rfl
  · match vch with
    | [] => rfl
    | val :: vch =>
      obtain ⟨-, -, hspace, -⟩ := hexDigit_hexChar val
      change (hexChar (val >>> 4) :: hexChar (val &&& 15) :: hexStr vch).dropWhile isSpace = _
      rw [List.dropWhile_cons_of_neg (by rw [hspace]; exact Bool.false_ne_true)]
      rfl
  · match vch with
    | [] => rfl
    | val :: vch =>
      obtain ⟨-, hlow, -, -⟩ := hexDigit_hexChar val
      exact if_neg fun h => toLower_ne_of_hexDigit hlow h.2

/-- The digits of a byte, from the last on. -/
theorem reverse_hexStr_reverse (vch : Bytes) : (hexStr vch.reverse).reverse =
    vch.flatMap fun val => [hexChar (val &&& 15), hexChar (val >>> 4)] := by
  unfold hexStr
  rw [List.reverse_flatMap, List.reverse_reverse]
  rfl

theorem setHexLoop_digits : ∀ vch : Bytes, setHexLoop vch.length
    (vch.flatMap fun val => [hexChar (val &&& 15), hexChar (val >>> 4)]) = vch
  | [] => rfl
  | val :: vch => by
    obtain ⟨hhigh, hlow, -, hval⟩ := hexDigit_hexChar val
    rw [List.flatMap_cons, List.length_cons]
    change ((hexDigit (hexChar (val &&& 15))).getD 0 |||
      (hexDigit (hexChar (val >>> 4))).getD 0 <<< 4) :: setHexLoop vch.length
        (vch.flatMap fun val => [hexChar (val &&& 15), hexChar (val >>> 4)]) = _
    rw [setHexLoop_digits vch, hhigh, hlow, UInt8.or_comm]
    exact congrArg (· :: vch) hval

theorem limbs_bytes : ∀ pn : List UInt32,
    limbs pn.length (pn.flatMap fun x => leBytes 4 x.toNat) = pn
  | [] => rfl
  | x :: pn => by
    rw [List.length_cons, limbs, List.flatMap_cons, List.take_left' (length_leBytes 4 _),
      List.drop_left' (length_leBytes 4 _), limbs_bytes pn, ofLeBytes_leBytes_of_lt x.toNat_lt,
      UInt32.ofNat_toNat]

theorem length_bytes (a : BaseUint WIDTH) : a.bytes.length = WIDTH * 4 := by
  unfold bytes
  rw [List.length_flatMap]
  simp [a.length_pn]

/-- What is written is read back. -/
theorem setHex_getHex (a : BaseUint WIDTH) : setHex a.getHex = a := by
  obtain ⟨hdigits, hspace, h0x⟩ := hexStr_digits a.bytes.reverse
  refine BaseUint.ext ?_
  unfold setHex getHex
  dsimp only
  rw [hspace, h0x, List.takeWhile_eq_self_iff.mpr hdigits, reverse_hexStr_reverse, ← length_bytes a,
    setHexLoop_digits]
  have hlimbs := limbs_bytes a.pn
  rwa [a.length_pn] at hlimbs

/-! ## The operators -/

/-- **Wide unsigned integers** : whatever the width, the operators on limbs compute what those on bit
vectors of as many bits do, and a number is read back from its digits. -/
theorem toBitVec_operations (hwidth : 2 ≤ WIDTH) (a b : BaseUint WIDTH) (shift : UInt32)
    (b64 : UInt64) :
    ((a.addAssign b).toBitVec = a.toBitVec + b.toBitVec ∧
      (a.subAssign b).toBitVec = a.toBitVec - b.toBitVec ∧ a.negate.toBitVec = -a.toBitVec ∧
      a.increment.toBitVec = a.toBitVec + 1 ∧ a.decrement.toBitVec = a.toBitVec - 1) ∧
    ((a.shiftLeftAssign shift).toBitVec = a.toBitVec <<< shift.toNat ∧
      (a.shiftRightAssign shift).toBitVec = a.toBitVec >>> shift.toNat) ∧
    (a.complement.toBitVec = ~~~a.toBitVec ∧ (a.xorAssign b).toBitVec = a.toBitVec ^^^ b.toBitVec ∧
      (a.andAssign b).toBitVec = a.toBitVec &&& b.toBitVec ∧
      (a.orAssign b).toBitVec = a.toBitVec ||| b.toBitVec) ∧
    ((ofUInt64 b64 : BaseUint WIDTH).toBitVec = BitVec.ofNat _ b64.toNat ∧
      (a.addAssign64 b64).toBitVec = a.toBitVec + BitVec.ofNat _ b64.toNat ∧
      (a.subAssign64 b64).toBitVec = a.toBitVec - BitVec.ofNat _ b64.toNat ∧
      (a.xorAssign64 b64).toBitVec = a.toBitVec ^^^ BitVec.ofNat _ b64.toNat ∧
      (a.orAssign64 b64).toBitVec = a.toBitVec ||| BitVec.ofNat _ b64.toNat) ∧
    ((a.less b = true ↔ a.toBitVec < b.toBitVec) ∧
      (a.lessEqual b = true ↔ a.toBitVec ≤ b.toBitVec) ∧
      (a.greater b = true ↔ b.toBitVec < a.toBitVec) ∧
      (a.greaterEqual b = true ↔ b.toBitVec ≤ a.toBitVec) ∧
      (a.equal b = true ↔ a.toBitVec = b.toBitVec) ∧
      (a.equal64 b64 = true ↔ a.toBitVec = BitVec.ofNat _ b64.toNat) ∧
      (a.isZero = true ↔ a.toBitVec = 0)) ∧
    (a.toBitVec = b.toBitVec ↔ a = b) ∧ setHex a.getHex = a := by
  have hb64 := toBitVec_ofUInt64 hwidth b64
  refine ⟨⟨toBitVec_addAssign a b, toBitVec_subAssign a b, toBitVec_negate a, toBitVec_increment a,
    toBitVec_decrement a⟩, ⟨toBitVec_shiftLeftAssign a shift, toBitVec_shiftRightAssign a shift⟩,
    ⟨toBitVec_complement a, toBitVec_xorAssign a b, toBitVec_andAssign a b, toBitVec_orAssign a b⟩,
    ⟨hb64, ?_, ?_, ?_, ?_⟩, ⟨less_iff a b, lessEqual_iff a b, greater_iff a b, greaterEqual_iff a b,
    equal_iff a b, equal64_iff a hwidth b64, isZero_iff a⟩, toBitVec_inj, setHex_getHex a⟩
  · rw [addAssign64, toBitVec_addAssign, hb64]
  · rw [subAssign64, toBitVec_addAssign, toBitVec_negate, hb64, BitVec.sub_eq_add_neg]
  · rw [xorAssign64_eq, toBitVec_xorAssign, hb64]
  · rw [orAssign64_eq, toBitVec_orAssign, hb64]

/-- A carry through all limbs of 160 bits. -/
theorem toBitVec_operations_sample :
    2 ≤ 5 ∧ ((ofUInt64 0 : BaseUint 5).complement.increment).toBitVec =
      (ofUInt64 0 : BaseUint 5).complement.toBitVec + 1 :=
  ⟨by decide,
    (toBitVec_operations (by decide) (ofUInt64 0 : BaseUint 5).complement (ofUInt64 0) 0 0).1.2.2.2.1⟩

end BaseUint

end Ticoin
