import Ticoin.Lib.Codec

/-!
# Variable-length integers

Base 128 with the most significant group first. Every byte but the last has its high bit set,
and one is subtracted for each byte that follows, so that no number is written in two ways. The
writer fills a buffer from its end (`writeVarInt`), the reader shifts and adds in a number of
`w` bits (`readVarInt`), and the size function counts groups (`sizeOfVarInt`).

A number of at most `w` bits is read back (`reads_varInt`), and the size counted is that of what
is written (`length_writeVarInt`). What is read without an overflow is what is written for the
number read (`canonical_readVarInt`).
-/

namespace Codec

variable {ε : Type}

/-! ## Writing -/

/-- The group of seven bits written, marked unless it is the last. -/
def varIntByte (n : ℕ) (fMore : Bool) : UInt8 :=
  UInt8.ofNat ((n &&& 0x7f) ||| if fMore then 0x80 else 0x00)

/-- The groups of a number, before those already in the buffer. -/
def writeVarIntFrom (n : ℕ) (tmp : Bytes) : Bytes :=
  if n ≤ 0x7f then varIntByte n (tmp ≠ []) :: tmp
  else writeVarIntFrom ((n >>> 7) - 1) (varIntByte n (tmp ≠ []) :: tmp)
termination_by n
decreasing_by
  rw [Nat.shiftRight_eq_div_pow]
  omega

def writeVarInt (n : ℕ) : Bytes := writeVarIntFrom n []

/-- The number of groups of a number. -/
def sizeOfVarInt (n : ℕ) : ℕ :=
  if n ≤ 0x7f then 1 else sizeOfVarInt ((n >>> 7) - 1) + 1
termination_by n
decreasing_by
  rw [Nat.shiftRight_eq_div_pow]
  omega

theorem sizeOfVarInt_le (n : ℕ) : sizeOfVarInt n ≤ n + 1 := by
  induction n using sizeOfVarInt.induct with
  | case1 n h =>
    rw [sizeOfVarInt, if_pos h]
    exact Nat.succ_le_succ (Nat.zero_le n)
  | case2 n h ih =>
    rw [sizeOfVarInt, if_neg h]
    have hshift : n >>> 7 ≤ n := Nat.shiftRight_le n 7
    omega

theorem length_writeVarIntFrom (n : ℕ) (tmp : Bytes) :
    (writeVarIntFrom n tmp).length = sizeOfVarInt n + tmp.length := by
  induction n, tmp using writeVarIntFrom.induct with
  | case1 n tmp h =>
    rw [writeVarIntFrom, sizeOfVarInt, if_pos h, if_pos h, List.length_cons, Nat.add_comm]
  | case2 n tmp h ih =>
    rw [writeVarIntFrom, sizeOfVarInt, if_neg h, if_neg h, ih, List.length_cons]
    omega

@[simp] theorem length_writeVarInt (n : ℕ) : (writeVarInt n).length = sizeOfVarInt n :=
  length_writeVarIntFrom n []

/-- Seven bits are written to a byte, and one more number is for every byte that follows. -/
theorem sizeOfVarInt_le_of_lt : ∀ {k n : ℕ}, 0 < k → n < 128 ^ k → sizeOfVarInt n ≤ k
  | k + 1, n, _, hn => by
    rw [sizeOfVarInt]
    split
    · omega
    · rw [Nat.shiftRight_eq_div_pow]
      rw [pow_succ] at hn
      have hk : 0 < k := by
        rcases k with _ | k
        · omega
        · exact Nat.succ_pos k
      refine Nat.succ_le_succ (sizeOfVarInt_le_of_lt hk ?_)
      have hdiv : n / 2 ^ 7 < 128 ^ k := Nat.div_lt_of_lt_mul (by omega)
      omega

theorem sizeOfVarInt_pos (n : ℕ) : 0 < sizeOfVarInt n := by
  rw [sizeOfVarInt]
  split
  · exact Nat.one_pos
  · exact Nat.succ_pos _

theorem writeVarInt_of_le {n : ℕ} (h : n ≤ 0x7f) : writeVarInt n = [UInt8.ofNat n] := by
  rw [writeVarInt, writeVarIntFrom, if_pos h, varIntByte, show (0x7f : ℕ) = 2 ^ 7 - 1 from rfl,
    Nat.and_two_pow_sub_one_eq_mod, Nat.mod_eq_of_lt (by omega)]
  simp

/-- A signed number : a negative one is a single group. -/
def writeSignedVarInt (n : ℤ) : Bytes :=
  if n ≤ 0x7f then [UInt8.ofNat (n % 128).toNat] else writeVarInt n.toNat

def sizeOfSignedVarInt (n : ℤ) : ℕ := if n ≤ 0x7f then 1 else sizeOfVarInt n.toNat

@[simp] theorem length_writeSignedVarInt (n : ℤ) :
    (writeSignedVarInt n).length = sizeOfSignedVarInt n := by
  rw [writeSignedVarInt, sizeOfSignedVarInt]
  split
  · rfl
  · exact length_writeVarInt n.toNat

theorem writeSignedVarInt_of_nonneg {n : ℤ} (h : 0 ≤ n) :
    writeSignedVarInt n = writeVarInt n.toNat := by
  rw [writeSignedVarInt]
  split
  · rw [writeVarInt_of_le (by omega), Int.emod_eq_of_lt h (by omega)]
  · rfl

/-! ## Reading -/

/-- The loop of the reader, from the number read so far. -/
def readVarIntFrom (eof : ε) (w : ℕ) : ℕ → Bytes → Except ε (ℕ × Bytes)
  | _, [] => .error eof
  | n, chData :: s =>
    let n := (n <<< 7 ||| (chData.toNat &&& 0x7f)) % 2 ^ w
    if chData.toNat &&& 0x80 ≠ 0 then readVarIntFrom eof w ((n + 1) % 2 ^ w) s else .ok (n, s)

def readVarInt (eof : ε) (w : ℕ) : Parser ε ℕ := readVarIntFrom eof w 0

/-- A group is shifted in, whether it is marked or not. -/
theorem varIntByte_spec (n : ℕ) (fMore : Bool) (k : ℕ) :
    k <<< 7 ||| ((varIntByte n fMore).toNat &&& 0x7f) = k * 128 + n % 128 ∧
      ((varIntByte n fMore).toNat &&& 0x80 ≠ 0 ↔ fMore = true) := by
  have hmod : n &&& 0x7f = n % 2 ^ 7 := Nat.and_two_pow_sub_one_eq_mod n 7
  have hlt : n % 2 ^ 7 < 2 ^ 7 := Nat.mod_lt _ (by decide)
  have hbyte : (varIntByte n fMore).toNat = n % 2 ^ 7 + if fMore then 128 else 0 := by
    rw [varIntByte, hmod]
    cases fMore with
    | false =>
      change (UInt8.ofNat (n % 2 ^ 7 ||| 0)).toNat = n % 2 ^ 7 + 0
      rw [Nat.or_zero, UInt8.toNat_ofNat']
      omega
    | true =>
      change (UInt8.ofNat (n % 2 ^ 7 ||| 0x80)).toNat = n % 2 ^ 7 + 128
      rw [Nat.or_comm, show (0x80 : ℕ) = 2 ^ 7 * 1 from rfl,
        ← Nat.two_pow_add_eq_or_of_lt hlt, UInt8.toNat_ofNat']
      omega
  constructor
  · have hlow : (varIntByte n fMore).toNat &&& 0x7f = n % 2 ^ 7 := by
      rw [hbyte, show (0x7f : ℕ) = 2 ^ 7 - 1 from rfl, Nat.and_two_pow_sub_one_eq_mod]
      split <;> omega
    rw [hlow, Nat.shiftLeft_eq, Nat.mul_comm k, ← Nat.two_pow_add_eq_or_of_lt hlt]
    omega
  · have hhigh : (varIntByte n fMore).toNat &&& 0x80 = if fMore then 128 else 0 := by
      rw [hbyte]
      generalize n % 2 ^ 7 = m at hlt
      cases fMore <;> revert m <;> decide
    rw [hhigh]
    cases fMore <;> decide

/-- The groups of a number are read one after the other : at the end it is the number read, or
one more than it if groups follow. -/
theorem readVarIntFrom_write (eof : ε) {w : ℕ} (n : ℕ) (tmp rest : Bytes)
    (h : n + 1 ≤ 2 ^ w) :
    readVarIntFrom eof w 0 (writeVarIntFrom n tmp ++ rest) =
      if tmp = [] then .ok (n, rest) else readVarIntFrom eof w ((n + 1) % 2 ^ w) (tmp ++ rest) := by
  -- the last group written of a number, read after those before it
  have hgroup : ∀ k n tmp, k * 128 + n % 128 = n → n + 1 ≤ 2 ^ w →
      readVarIntFrom eof w k (varIntByte n (tmp ≠ []) :: tmp ++ rest) =
        if tmp = [] then .ok (n, rest)
        else readVarIntFrom eof w ((n + 1) % 2 ^ w) (tmp ++ rest) := by
    intro k n tmp hk hn
    obtain ⟨hval, hmark⟩ := varIntByte_spec n (tmp ≠ []) k
    rw [List.cons_append, readVarIntFrom, hval, hk, Nat.mod_eq_of_lt (show n < 2 ^ w from hn)]
    by_cases htmp : tmp = []
    · rw [if_neg (by rw [hmark]; simp [htmp]), if_pos htmp, htmp, List.nil_append]
    · rw [if_pos (hmark.mpr (by simp [htmp])), if_neg htmp]
  induction n, tmp using writeVarIntFrom.induct with
  | case1 n tmp hle =>
    rw [writeVarIntFrom, if_pos hle]
    exact hgroup 0 n tmp (by omega) h
  | case2 n tmp hgt ih =>
    rw [Nat.shiftRight_eq_div_pow] at ih
    rw [writeVarIntFrom, if_neg hgt, Nat.shiftRight_eq_div_pow, ih (by omega),
      if_neg (List.cons_ne_nil _ _), Nat.mod_eq_of_lt (by omega)]
    exact hgroup _ n tmp (by omega) h

/-- Numbers after which groups can come : `pre` is what is written before the last group, whatever
that and what follows it are. -/
def Written (n : ℕ) (pre : Bytes) : Prop :=
  ∀ d < 128, ∀ tmp, writeVarIntFrom (n * 128 + d) tmp = pre ++ varIntByte d (tmp ≠ []) :: tmp

theorem varIntByte_mod (n : ℕ) (fMore : Bool) : varIntByte (n % 128) fMore = varIntByte n fMore := by
  unfold varIntByte
  rw [show (0x7f : ℕ) = 2 ^ 7 - 1 from rfl, Nat.and_two_pow_sub_one_eq_mod,
    Nat.and_two_pow_sub_one_eq_mod, show (128 : ℕ) = 2 ^ 7 from rfl, Nat.mod_mod]

/-- A byte is its group of seven bits and its mark. -/
theorem varIntByte_toNat (c : UInt8) :
    varIntByte (c.toNat &&& 0x7f) (c.toNat &&& 0x80 ≠ 0) = c := by
  have hmark : (if decide (c.toNat &&& 0x80 ≠ 0) = true then 0x80 else 0x00) = c.toNat &&& 0x80 := by
    rw [show (0x80 : ℕ) = 2 ^ 7 from rfl, Nat.and_two_pow]
    cases c.toNat.testBit 7 <;> rfl
  unfold varIntByte
  rw [hmark, Nat.and_assoc, show 0x7f &&& 0x7f = 0x7f from rfl, ← Nat.and_or_distrib_left,
    show 0x7f ||| 0x80 = 2 ^ 8 - 1 from rfl, Nat.and_two_pow_sub_one_eq_mod,
    Nat.mod_eq_of_lt c.toNat_lt, UInt8.ofNat_toNat]

theorem Written.zero : Written 0 [] := by
  intro d hd tmp
  rw [Nat.zero_mul, Nat.zero_add, writeVarIntFrom, if_pos (by omega), List.nil_append]

theorem Written.group {n d : ℕ} {pre : Bytes} (h : Written n pre) (hd : d < 128) :
    Written (n * 128 + d + 1) (pre ++ [varIntByte d true]) := by
  intro e he tmp
  have hshift : ((n * 128 + d + 1) * 128 + e) >>> 7 - 1 = n * 128 + d := by
    rw [Nat.shiftRight_eq_div_pow]
    omega
  have hbyte : varIntByte ((n * 128 + d + 1) * 128 + e) (tmp ≠ []) = varIntByte e (tmp ≠ []) := by
    rw [← varIntByte_mod, show ((n * 128 + d + 1) * 128 + e) % 128 = e by omega]
  rw [writeVarIntFrom, if_neg (by omega), hshift, hbyte, h d hd, List.append_assoc]
  simp

/-- Nothing that is shifted or added exceeds `w` bits. -/
def NoOverflow (w : ℕ) : ℕ → Bytes → Prop
  | _, [] => True
  | n, chData :: s =>
    let n := n <<< 7 ||| (chData.toNat &&& 0x7f)
    n < 2 ^ w ∧ (chData.toNat &&& 0x80 ≠ 0 → n + 1 < 2 ^ w ∧ NoOverflow w (n + 1) s)

/-- From a number after which groups can come, a number is read from what is written for it. -/
theorem Written.of_readVarIntFrom {eof : ε} {w : ℕ} : ∀ {s : Bytes} {n v : ℕ} {pre rest : Bytes},
    Written n pre → NoOverflow w n s → readVarIntFrom eof w n s = .ok (v, rest) →
    ∃ bs, s = bs ++ rest ∧ writeVarInt v = pre ++ bs
  | chData :: s, n, v, pre, rest, hn, hover, hread => by
    obtain ⟨hlt, hmore⟩ := hover
    have hd : chData.toNat &&& 0x7f < 128 := Nat.and_lt_two_pow _ (by decide : 0x7f < 2 ^ 7)
    have hval : n <<< 7 ||| (chData.toNat &&& 0x7f) = n * 128 + (chData.toNat &&& 0x7f) := by
      rw [Nat.shiftLeft_eq, Nat.mul_comm n, ← Nat.two_pow_add_eq_or_of_lt hd, Nat.mul_comm]
    have hbyte := varIntByte_toNat chData
    rw [readVarIntFrom] at hread
    rw [Nat.mod_eq_of_lt hlt, hval] at hread
    rw [hval] at hmore
    by_cases hmark : chData.toNat &&& 0x80 ≠ 0
    · obtain ⟨hlt', hover'⟩ := hmore hmark
      rw [if_pos hmark, Nat.mod_eq_of_lt hlt'] at hread
      rw [decide_eq_true hmark] at hbyte
      obtain ⟨bs, rfl, hwrite⟩ := (hn.group hd).of_readVarIntFrom hover' hread
      refine ⟨chData :: bs, rfl, ?_⟩
      rw [hwrite, hbyte, List.append_assoc, List.singleton_append]
    · rw [if_neg hmark] at hread
      obtain ⟨rfl, rfl⟩ : n * 128 + (chData.toNat &&& 0x7f) = v ∧ s = rest := by
        simpa using hread
      rw [decide_eq_false hmark] at hbyte
      refine ⟨[chData], rfl, ?_⟩
      rw [writeVarInt, hn _ hd, decide_eq_false (fun h => h rfl), hbyte]

/-- A number that is read without an overflow is read from what is written for it. -/
theorem canonical_readVarInt {eof : ε} {w v : ℕ} {s rest : Bytes} (hover : NoOverflow w 0 s)
    (hread : readVarInt eof w s = .ok (v, rest)) : s = writeVarInt v ++ rest := by
  obtain ⟨bs, rfl, hwrite⟩ := Written.zero.of_readVarIntFrom hover hread
  rw [hwrite, List.nil_append]

/-- What is read without an overflow has at most `w` bits. -/
theorem readVarIntFrom_lt {eof : ε} {w : ℕ} : ∀ {s : Bytes} {n v : ℕ} {rest : Bytes},
    NoOverflow w n s → readVarIntFrom eof w n s = .ok (v, rest) → v < 2 ^ w
  | chData :: s, n, v, rest, hover, hread => by
    obtain ⟨hlt, hmore⟩ := hover
    rw [readVarIntFrom] at hread
    rw [Nat.mod_eq_of_lt hlt] at hread
    by_cases hmark : chData.toNat &&& 0x80 ≠ 0
    · obtain ⟨hlt', hover'⟩ := hmore hmark
      rw [if_pos hmark, Nat.mod_eq_of_lt hlt'] at hread
      exact readVarIntFrom_lt hover' hread
    · rw [if_neg hmark] at hread
      obtain ⟨rfl, -⟩ : n <<< 7 ||| (chData.toNat &&& 0x7f) = v ∧ s = rest := by
        simpa using hread
      exact hlt

/-- A number of at most `w` bits is read back. -/
theorem reads_varInt (eof : ε) {w n : ℕ} (h : n < 2 ^ w) :
    Reads (readVarInt eof w) (writeVarInt n) n := by
  intro rest
  exact (readVarIntFrom_write eof n [] rest h).trans (if_pos rfl)

end Codec
