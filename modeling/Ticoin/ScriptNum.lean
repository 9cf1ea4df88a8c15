import Ticoin.Script

/-!
# script.h : numbers on the stack

Numeric opcodes read numbers of at most four bytes, sign and magnitude. Results may take
five bytes, and are valid as long as no numeric opcode reads them again. What is read from four
bytes is less than 2^31 in magnitude (`setVch_bounds`), so that no sum of two overflows, no
assertion of the operators fails, and a result takes at most five bytes
(`length_scriptNumSerialize_le`).
-/

namespace Ticoin

open Codec

/-- How the evaluation of a script stops before the end. -/
inductive EvalHalt where
  | returnFalse
  | scriptNumError
  /-- an access outside of a stack -/
  | outOfRange
  | assertFailed
  deriving DecidableEq, Repr

abbrev Eval := Except EvalHalt

/-- Steps that succeed one after the other. -/
theorem Eval.bind_eq_ok {α β : Type} {x : Eval α} {f : α → Eval β} {b : β} :
    (x >>= f) = .ok b ↔ ∃ a, x = .ok a ∧ f a = .ok b := by
  cases x with
  | error e => exact iff_of_false nofun nofun
  | ok a => exact ⟨fun h => ⟨a, rfl, h⟩, fun ⟨_, ha, h⟩ => Except.ok.inj ha ▸ h⟩

namespace CScriptNum

def nMaxNumSize : ℕ := 4

def INT64_MAX : ℤ := 2 ^ 63 - 1

def INT64_MIN : ℤ := -2 ^ 63

/-- `set_vch`. If the most significant bit is set, remove it and return a negative. -/
def setVch (vch : Bytes) : ℤ :=
  match vch.getLast? with
  | none => 0
  | some back =>
    if back &&& 0x80 ≠ 0 then -(ofLeBytes vch - 0x80 * 256 ^ (vch.length - 1) : ℤ)
    else ofLeBytes vch

/-- `CScriptNum` of a vector, which throws on more than `nMaxNumSize` bytes. -/
def ofVch (vch : Bytes) : Eval ℤ :=
  if vch.length > nMaxNumSize then .error .scriptNumError else .ok (setVch vch)

/-- `getint`. -/
def getint (m_value : ℤ) : ℤ := max (-2 ^ 31) (min (2 ^ 31 - 1) m_value)

/-- `operator-`. -/
def neg (m_value : ℤ) : Eval ℤ :=
  if m_value = INT64_MIN then .error .assertFailed else .ok (-m_value)

/-- `operator+=`. -/
def addAssign (m_value rhs : ℤ) : Eval ℤ :=
  if rhs = 0 ∨ (0 < rhs ∧ m_value ≤ INT64_MAX - rhs) ∨ (rhs < 0 ∧ m_value ≥ INT64_MIN - rhs) then
    .ok (m_value + rhs)
  else .error .assertFailed

/-- `operator-=`. -/
def subAssign (m_value rhs : ℤ) : Eval ℤ :=
  if rhs = 0 ∨ (0 < rhs ∧ m_value ≥ INT64_MIN + rhs) ∨ (rhs < 0 ∧ m_value ≤ INT64_MAX + rhs) then
    .ok (m_value - rhs)
  else .error .assertFailed

/-- A truth value that is assigned to a number. -/
def ofBool (b : Bool) : ℤ := if b then 1 else 0

/-! ## Bounds -/

theorem ofLeBytes_concat (back : UInt8) : ∀ vch : Bytes,
    ofLeBytes (vch ++ [back]) = ofLeBytes vch + 256 ^ vch.length * back.toNat
  | [] => by simp [ofLeBytes]
  | b :: vch => by
    rw [List.cons_append, ofLeBytes, ofLeBytes_concat back vch, ofLeBytes, List.length_cons,
      pow_succ]
    ring

theorem and_0x80_iff (b : UInt8) : b &&& 0x80 ≠ 0 ↔ 128 ≤ b.toNat := by
  have hb := b.toNat_lt
  have hbit : (b &&& 0x80).toNat = b.toNat / 128 % 2 * 128 := by
    rw [UInt8.toNat_and, show (0x80 : UInt8).toNat = 2 ^ 7 from rfl, Nat.and_two_pow,
      Nat.toNat_testBit]
    rfl
  rw [ne_eq, ← UInt8.toNat_inj, hbit, UInt8.toNat_zero]
  omega

/-- The magnitude of a number, without the sign in its last byte. -/
def magnitude (init : Bytes) (back : UInt8) : ℕ :=
  ofLeBytes init + 256 ^ init.length * (back.toNat % 128)

theorem two_mul_magnitude_lt (init : Bytes) (back : UInt8) :
    2 * magnitude init back < 256 ^ (init.length + 1) := by
  have hinit := ofLeBytes_lt init
  unfold magnitude
  rw [pow_succ]
  generalize 256 ^ init.length = p at *
  have hle : p * (back.toNat % 128) ≤ p * 127 := Nat.mul_le_mul_left p (by omega)
  omega

/-- One bit of a number is its sign. -/
theorem setVch_concat (init : Bytes) (back : UInt8) :
    setVch (init ++ [back]) =
      if 128 ≤ back.toNat then -(magnitude init back : ℤ) else magnitude init back := by
  have hback := back.toNat_lt
  rw [setVch, List.getLast?_concat]
  simp only [and_0x80_iff, ofLeBytes_concat, List.length_append, List.length_singleton,
    Nat.add_sub_cancel]
  split
  · rename_i hsign
    have hmod : back.toNat = back.toNat % 128 + 128 := by omega
    rw [hmod]
    unfold magnitude
    push_cast
    ring
  · unfold magnitude
    rw [Nat.mod_eq_of_lt (by omega)]

theorem natAbs_setVch_concat (init : Bytes) (back : UInt8) :
    (setVch (init ++ [back])).natAbs = magnitude init back := by
  rw [setVch_concat]
  split <;> omega

theorem two_mul_natAbs_setVch_lt {vch : Bytes} (hne : vch ≠ []) :
    2 * (setVch vch).natAbs < 256 ^ vch.length := by
  obtain ⟨init, back, rfl⟩ : ∃ init back, vch = init ++ [back] :=
    ⟨_, _, (List.dropLast_append_getLast hne).symm⟩
  rw [natAbs_setVch_concat, List.length_append]
  exact two_mul_magnitude_lt init back

theorem setVch_bounds {vch : Bytes} (h : vch.length ≤ nMaxNumSize) :
    -2 ^ 31 < setVch vch ∧ setVch vch < 2 ^ 31 := by
  by_cases hne : vch = []
  · subst hne
    decide
  have hlt := two_mul_natAbs_setVch_lt hne
  have hpow : 256 ^ vch.length ≤ 256 ^ 4 := Nat.pow_le_pow_right (by decide) h
  omega

/-- A small number is one byte. -/
theorem scriptNumSerialize_small {n : ℕ} (hpos : 0 < n) (hlt : n < 128) :
    scriptNumSerialize n = [UInt8.ofNat n] ∧ setVch [UInt8.ofNat n] = n := by
  have hbyte : (UInt8.ofNat n).toNat = n := by
    rw [UInt8.toNat_ofNat', Nat.mod_eq_of_lt (by omega)]
  have hsign : ¬(UInt8.ofNat n &&& 0x80 ≠ 0) := fun h => by
    have hle := (and_0x80_iff _).mp h
    omega
  constructor
  · have hneg : ¬(n : ℤ) < 0 := by omega
    rw [scriptNumSerialize, Int.natAbs_natCast, Nat.digits_of_lt 256 n (by omega) (by omega)]
    simp only [List.map_cons, List.map_nil, List.getLast?_singleton, if_neg hsign, if_neg hneg]
  · simp only [setVch, List.getLast?_singleton, if_neg hsign]
    simp [ofLeBytes, hbyte]

end CScriptNum

theorem ofLeBytes_digits (n : ℕ) : ofLeBytes ((Nat.digits 256 n).map UInt8.ofNat) = n := by
  induction n using Nat.strongRecOn with
  | ind n ih =>
    by_cases hn : n = 0
    · subst hn
      simp [ofLeBytes]
    · have hlt : n / 256 < n := Nat.div_lt_self (Nat.pos_of_ne_zero hn) (by decide)
      have hbyte : (UInt8.ofNat (n % 256)).toNat = n % 256 := by
        rw [UInt8.toNat_ofNat', Nat.mod_mod]
      rw [Nat.digits_def' (by decide) (Nat.pos_of_ne_zero hn), List.map_cons, ofLeBytes, ih _ hlt,
        hbyte]
      exact Nat.mod_add_div n 256

/-- A number less than 2^32 in magnitude takes at most five bytes. -/
theorem length_scriptNumSerialize_le {n : ℤ} (h : n.natAbs < 2 ^ 32) :
    (scriptNumSerialize n).length ≤ 5 := by
  have hdigits : ((Nat.digits 256 n.natAbs).map UInt8.ofNat).length ≤ 4 := by
    rw [List.length_map]
    exact (Nat.digits_length_le_iff (by decide) _).mpr h
  rw [scriptNumSerialize]
  split
  · decide
  · split
    · rw [List.length_append, List.length_singleton]
      omega
    · split
      · rw [List.length_append, List.length_singleton, List.length_dropLast]
        omega
      · omega

end Ticoin
