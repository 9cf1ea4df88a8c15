import Ticoin.ScriptNum

/-!
# script.h : the form of numbers on the stack

`set_vch` shifts the bytes of a number into 64 bits and clears the sign with a mask of 32 bits. Up to
four bytes that is the number with the sign taken off its last byte (`CScriptNum.setVchBits_eq`).

A number is read back from what `serialize` writes, which is the shortest form of the number and the
only one of its length. What is read from four bytes can be negated, added and subtracted without a
failing assertion, and the results take at most five bytes (`CScriptNum.serialize_form`).
-/

namespace Ticoin

open Codec

namespace CScriptNum

/-! ## Bits -/

/-- The loop of `set_vch`, from a byte on. -/
def orBytes (result : BitVec 64) (i : ℕ) : Bytes → BitVec 64
  | [] => result
  | b :: vch => orBytes (result ||| BitVec.ofNat 64 b.toNat <<< (8 * i)) (i + 1) vch

/-- `set_vch` in the types of the source : the mask is an `int`, extended to 64 bits. -/
def setVchBits (vch : Bytes) : ℤ :=
  match vch.getLast? with
  | none => 0
  | some back =>
    let result := orBytes 0 0 vch
    if back &&& 0x80 ≠ 0 then
      -(result &&& (~~~(0x80#32 <<< (8 * (vch.length - 1)))).signExtend 64).toInt
    else result.toInt

theorem toNat_orBytes : ∀ (vch : Bytes) (result : BitVec 64) (i : ℕ), result.toNat < 256 ^ i →
    i + vch.length ≤ 8 → (orBytes result i vch).toNat = result.toNat + 256 ^ i * ofLeBytes vch
  | [], result, i, _, _ => by
    rw [orBytes, ofLeBytes, Nat.mul_zero, Nat.add_zero]
  | b :: vch, result, i, hlt, hlen => by
    rw [List.length_cons] at hlen
    have hb := b.toNat_lt
    have hpow : (256 : ℕ) ^ i = 2 ^ (8 * i) := by rw [pow_mul]; rfl
    have hbyte : b.toNat * 2 ^ (8 * i) < 2 ^ 64 := by
      calc b.toNat * 2 ^ (8 * i) < 2 ^ 8 * 2 ^ (8 * i) :=
            Nat.mul_lt_mul_of_pos_right hb (Nat.two_pow_pos _)
        _ = 2 ^ (8 + 8 * i) := (pow_add ..).symm
        _ ≤ 2 ^ 64 := Nat.pow_le_pow_right (by decide) (by omega)
    have hor : (result ||| BitVec.ofNat 64 b.toNat <<< (8 * i)).toNat =
        result.toNat + 256 ^ i * b.toNat := by
      rw [BitVec.toNat_or, BitVec.toNat_shiftLeft, BitVec.toNat_ofNat,
        Nat.mod_eq_of_lt (by omega : b.toNat < 2 ^ 64), Nat.shiftLeft_eq, Nat.mod_eq_of_lt hbyte,
        Nat.lor_comm, hpow, Nat.mul_comm, ← Nat.two_pow_add_eq_or_of_lt (hpow ▸ hlt), Nat.add_comm]
    rw [orBytes, toNat_orBytes vch _ (i + 1) ?_ (by omega), hor, ofLeBytes]
    · ring
    · rw [hor, pow_succ]
      have hmul : 256 ^ i * (b.toNat + 1) ≤ 256 ^ i * 256 := Nat.mul_le_mul_left _ (by omega)
      rw [Nat.mul_succ] at hmul
      omega

/-- The mask clears the highest bit of the last byte. -/
theorem toNat_and_mask {k r : ℕ} {result : BitVec 64} (hk : k < 4) (hr : result.toNat = r)
    (hlt : r < 2 ^ (8 * k + 8)) :
    (result &&& (~~~(0x80#32 <<< (8 * k))).signExtend 64).toNat = r % 2 ^ (8 * k + 7) := by
  have hmask : ∀ k < 4, ((~~~(0x80#32 <<< (8 * k))).signExtend 64).toNat % 2 ^ (8 * k + 8) =
      2 ^ (8 * k + 7) - 1 := by decide
  rw [BitVec.toNat_and, hr, ← Nat.and_two_pow_sub_one_eq_mod, ← hmask k hk]
  generalize ((~~~(0x80#32 <<< (8 * k))).signExtend 64).toNat = m
  have hle : r &&& m < 2 ^ (8 * k + 8) := Nat.and_le_left.trans_lt hlt
  rw [← Nat.mod_eq_of_lt hle, Nat.and_mod_two_pow, Nat.mod_eq_of_lt hlt]

/-- Up to four bytes the mask of 32 bits is as good as one of 64. -/
theorem setVchBits_eq {vch : Bytes} (h : vch.length ≤ nMaxNumSize) : setVchBits vch = setVch vch := by
  rcases List.eq_nil_or_concat vch with rfl | ⟨init, back, rfl⟩
  · rfl
  rw [List.concat_eq_append] at h ⊢
  rw [List.length_append, List.length_singleton] at h
  have hk : init.length < 4 := h
  have hpow : (256 : ℕ) ^ init.length = 2 ^ (8 * init.length) := by rw [pow_mul]; rfl
  have hbound : 2 ^ (8 * init.length) ≤ 2 ^ 24 := Nat.pow_le_pow_right (by decide) (by omega)
  have hmag := two_mul_magnitude_lt init back
  rw [pow_succ, hpow] at hmag
  -- the bits are those of the number, with its sign
  have hr : (orBytes 0 0 (init ++ [back])).toNat =
      magnitude init back + if 128 ≤ back.toNat then 2 ^ (8 * init.length + 7) else 0 := by
    have hback := back.toNat_lt
    rw [toNat_orBytes _ _ _ (by decide) (by rw [List.length_append, List.length_singleton]; omega),
      ofLeBytes_concat, magnitude]
    split
    · rename_i hsign
      have hmod : back.toNat = back.toNat % 128 + 128 := by omega
      conv_lhs => rw [hmod]
      rw [pow_add, ← hpow]
      change 0 + 1 * _ = _
      ring
    · rw [Nat.mod_eq_of_lt (by omega)]
      change 0 + 1 * _ = _
      ring
  rw [setVch_concat]
  unfold setVchBits
  rw [List.getLast?_concat]
  simp only [and_0x80_iff, List.length_append, List.length_singleton, Nat.add_sub_cancel]
  split
  · rename_i hsign
    rw [if_pos hsign] at hr
    have hand := toNat_and_mask hk hr (by rw [pow_add, pow_add]; omega)
    rw [Nat.add_mod_right, Nat.mod_eq_of_lt (by rw [pow_add]; omega)] at hand
    rw [BitVec.toInt_eq_toNat_of_lt (by rw [hand]; omega), hand]
  · rename_i hsign
    rw [if_neg hsign, Nat.add_zero] at hr
    rw [BitVec.toInt_eq_toNat_of_lt (by rw [hr]; omega), hr]

/-! ## What is written -/

/-- The last byte of a number has the sign, and no byte before it is needless. -/
theorem scriptNumSerialize_shape {n : ℤ} (hn : n ≠ 0) :
    ∃ init back, scriptNumSerialize n = init ++ [back] ∧ magnitude init back = n.natAbs ∧
      (128 ≤ back.toNat ↔ n < 0) ∧ 256 ^ init.length ≤ 2 * n.natAbs := by
  have hpos : 0 < n.natAbs := Int.natAbs_pos.mpr hn
  have hne : Nat.digits 256 n.natAbs ≠ [] := Nat.digits_ne_nil_iff_ne_zero.mpr hpos.ne'
  have hvalue := ofLeBytes_digits n.natAbs
  have hlast := Nat.getLast_digit_ne_zero 256 hpos.ne'
  have hbyte := Nat.digits_lt_base (by decide : 1 < 256) (List.getLast_mem hne)
  have hsplit : (Nat.digits 256 n.natAbs).map UInt8.ofNat =
      (Nat.digits 256 n.natAbs).dropLast.map UInt8.ofNat ++
        [UInt8.ofNat ((Nat.digits 256 n.natAbs).getLast hne)] := by
    conv_lhs => rw [← List.dropLast_append_getLast hne]
    rw [List.map_append, List.map_singleton]
  rw [scriptNumSerialize]
  rw [hsplit] at hvalue ⊢
  generalize (Nat.digits 256 n.natAbs).dropLast.map UInt8.ofNat = absinit at hvalue ⊢
  have hback : (UInt8.ofNat ((Nat.digits 256 n.natAbs).getLast hne)).toNat =
      (Nat.digits 256 n.natAbs).getLast hne := by
    rw [UInt8.toNat_ofNat', Nat.mod_eq_of_lt hbyte]
  rw [← hback] at hlast
  generalize UInt8.ofNat ((Nat.digits 256 n.natAbs).getLast hne) = absback at *
  rw [ofLeBytes_concat] at hvalue
  have hbound := absback.toNat_lt
  have hpow : 0 < 256 ^ absinit.length := by positivity
  simp only [List.getLast?_concat, and_0x80_iff, List.dropLast_concat]
  by_cases hsign : 128 ≤ absback.toNat
  · -- the magnitude fills its last byte, and the sign has one of its own
    have hle : 256 ^ absinit.length * 128 ≤ 256 ^ absinit.length * absback.toNat :=
      Nat.mul_le_mul_left _ hsign
    rw [if_pos hsign]
    refine ⟨absinit ++ [absback], if n < 0 then 0x80 else 0, rfl, ?_, ?_, ?_⟩
    · have hzero : (if n < 0 then (0x80 : UInt8) else 0).toNat % 128 = 0 := by split <;> rfl
      rw [magnitude, ofLeBytes_concat, hvalue, hzero, Nat.mul_zero, Nat.add_zero]
    · split
      · rename_i hneg
        exact iff_of_true (by decide) hneg
      · rename_i hneg
        exact iff_of_false (by decide) hneg
    · rw [List.length_append, List.length_singleton, pow_succ]
      omega
  · have hle : 256 ^ absinit.length * 1 ≤ 256 ^ absinit.length * absback.toNat :=
      Nat.mul_le_mul_left _ (by omega)
    rw [if_neg hsign]
    by_cases hneg : n < 0
    · have hor : (absback ||| 0x80).toNat = absback.toNat + 128 := by
        rw [UInt8.toNat_or, Nat.lor_comm, show (0x80 : UInt8).toNat = 2 ^ 7 * 1 from rfl,
          ← Nat.two_pow_add_eq_or_of_lt (by omega)]
        omega
      rw [if_pos hneg]
      refine ⟨absinit, absback ||| 0x80, rfl, ?_, ?_, by omega⟩
      · rw [magnitude, hor, Nat.add_mod_right, Nat.mod_eq_of_lt (by omega), hvalue]
      · exact iff_of_true (by omega) hneg
    · rw [if_neg hneg]
      refine ⟨absinit, absback, rfl, ?_, iff_of_false hsign hneg, by omega⟩
      rw [magnitude, Nat.mod_eq_of_lt (by omega), hvalue]

theorem scriptNumSerialize_zero : scriptNumSerialize 0 = [] := by decide

/-- A number is read back from what is written. -/
theorem setVch_scriptNumSerialize (n : ℤ) : setVch (scriptNumSerialize n) = n := by
  by_cases hn : n = 0
  · subst hn
    decide
  obtain ⟨init, back, heq, hmag, hsign, -⟩ := scriptNumSerialize_shape hn
  rw [heq, setVch_concat, hmag]
  split
  · rename_i hback
    have hneg := hsign.mp hback
    omega
  · rename_i hback
    have hneg := mt hsign.mpr hback
    omega

/-- No form of a number is shorter than what is written. -/
theorem length_scriptNumSerialize_le_of_setVch {n : ℤ} {vch : Bytes} (h : setVch vch = n) :
    (scriptNumSerialize n).length ≤ vch.length := by
  by_cases hn : n = 0
  · rw [hn, scriptNumSerialize_zero]
    exact Nat.zero_le _
  obtain ⟨init, back, heq, -, -, hlow⟩ := scriptNumSerialize_shape hn
  have hne : vch ≠ [] := by
    rintro rfl
    exact hn h.symm
  have hhigh := two_mul_natAbs_setVch_lt hne
  rw [h] at hhigh
  have hlt := (Nat.pow_lt_pow_iff_right (by decide : 1 < 256)).mp (hlow.trans_lt hhigh)
  rw [heq, List.length_append, List.length_singleton]
  exact hlt

/-- Two forms of a number of one length are the same, unless the number is zero. -/
theorem eq_of_setVch_eq {vch vch' : Bytes} (h : setVch vch = setVch vch') (hne : setVch vch ≠ 0)
    (hlen : vch.length = vch'.length) : vch = vch' := by
  rcases List.eq_nil_or_concat vch with rfl | ⟨init, back, rfl⟩
  · exact absurd rfl hne
  rcases List.eq_nil_or_concat vch' with rfl | ⟨init', back', rfl⟩
  · rw [h] at hne
    exact absurd rfl hne
  simp only [List.concat_eq_append, List.length_append, List.length_singleton,
    Nat.add_right_cancel_iff] at h hne hlen ⊢
  have hmag := congrArg Int.natAbs h
  rw [natAbs_setVch_concat, natAbs_setVch_concat] at hmag
  have hpos := Int.natAbs_pos.mpr hne
  rw [natAbs_setVch_concat] at hpos
  have hsign : 128 ≤ back.toNat ↔ 128 ≤ back'.toNat := by
    rw [setVch_concat, setVch_concat, ← hmag] at h
    split at h <;> split at h <;> omega
  unfold magnitude at hmag
  rw [← hlen] at hmag
  have hinit := ofLeBytes_lt init
  have hinit' := ofLeBytes_lt init'
  rw [← hlen] at hinit'
  have hlow := congrArg (· % 256 ^ init.length) hmag
  have hhigh := congrArg (· / 256 ^ init.length) hmag
  simp only [Nat.add_mul_mod_self_left, Nat.mod_eq_of_lt hinit, Nat.mod_eq_of_lt hinit'] at hlow
  simp only [Nat.add_mul_div_left _ _ (show 0 < 256 ^ init.length by positivity),
    Nat.div_eq_of_lt hinit, Nat.div_eq_of_lt hinit', Nat.zero_add] at hhigh
  have hinits : init = init' := by
    rw [← leBytes_ofLeBytes init, ← leBytes_ofLeBytes init', hlow, hlen]
  have hbacks : back = back' := by
    have h1 := back.toNat_lt
    have h2 := back'.toNat_lt
    rw [← UInt8.toNat_inj]
    omega
  rw [hinits, hbacks]

/-! ## Arithmetic -/

/-- What is computed of numbers that were read takes at most five bytes. -/
theorem arithmetic_of_bounds {a b : ℤ} (ha : -2 ^ 31 < a ∧ a < 2 ^ 31) (hb : -2 ^ 31 < b ∧ b < 2 ^ 31) :
    neg a = .ok (-a) ∧ addAssign a b = .ok (a + b) ∧ subAssign a b = .ok (a - b) ∧
      ∀ n ∈ [-a, a + b, a - b], (scriptNumSerialize n).length ≤ 5 := by
  refine ⟨?_, ?_, ?_, fun n hn => length_scriptNumSerialize_le ?_⟩
  · rw [neg, if_neg (by rw [INT64_MIN]; omega)]
  · rw [addAssign, if_pos (by rw [INT64_MIN, INT64_MAX]; omega)]
  · rw [subAssign, if_pos (by rw [INT64_MIN, INT64_MAX]; omega)]
  · simp only [List.mem_cons, List.not_mem_nil, or_false] at hn
    omega

/-- **Numbers on the stack** : a number of at most four bytes is read back from what is written, with
the bits of the source. What is written is the shortest form of a number, and the only one of its
length. What is read is less than `2 ^ 31` in magnitude, and can be negated, added and subtracted
without a failing assertion, to numbers of at most five bytes. -/
theorem serialize_form :
    (∀ n : ℤ, INT64_MIN < n → n ≤ INT64_MAX → (scriptNumSerialize n).length ≤ nMaxNumSize →
      ofVch (scriptNumSerialize n) = .ok n) ∧
    (∀ vch : Bytes, vch.length ≤ nMaxNumSize → ofVch vch = .ok (setVchBits vch)) ∧
    (scriptNumSerialize 0 = [] ∧ ∀ n : ℤ, INT64_MIN < n → n ≤ INT64_MAX →
      setVch (scriptNumSerialize n) = n ∧ ∀ vch, setVch vch = n → vch ≠ scriptNumSerialize n →
        (scriptNumSerialize n).length < vch.length) ∧
    (∀ (vch : Bytes) (n : ℤ), ofVch vch = .ok n → -2 ^ 31 + 1 ≤ n ∧ n ≤ 2 ^ 31 - 1) ∧
    (∀ (vch vch' : Bytes) (a b : ℤ), ofVch vch = .ok a → ofVch vch' = .ok b →
      neg a = .ok (-a) ∧ addAssign a b = .ok (a + b) ∧ subAssign a b = .ok (a - b) ∧
        ∀ n ∈ [-a, a + b, a - b], (scriptNumSerialize n).length ≤ 5) := by
  have hread : ∀ {vch : Bytes} {n : ℤ}, ofVch vch = .ok n → -2 ^ 31 < n ∧ n < 2 ^ 31 := by
    intro vch n h
    rw [ofVch] at h
    split at h
    · cases h
    · rename_i hlen
      rw [← Except.ok.inj h]
      exact setVch_bounds (by omega)
  refine ⟨fun n _ _ hlen => ?_, fun vch hlen => ?_, ⟨scriptNumSerialize_zero, fun n _ _ =>
    ⟨setVch_scriptNumSerialize n, fun vch h hne => ?_⟩⟩, fun vch n h => ?_, fun vch vch' a b ha hb =>
    arithmetic_of_bounds (hread ha) (hread hb)⟩
  · rw [ofVch, if_neg (by omega), setVch_scriptNumSerialize]
  · rw [ofVch, if_neg (by omega), setVchBits_eq hlen]
  · refine lt_of_le_of_ne (length_scriptNumSerialize_le_of_setVch h) fun hlen => hne ?_
    by_cases hn : n = 0
    · rw [hn, scriptNumSerialize_zero] at hlen ⊢
      exact List.length_eq_zero_iff.mp hlen.symm
    · exact eq_of_setVch_eq (by rw [h, setVch_scriptNumSerialize]) (h ▸ hn) hlen.symm
  · have hbounds := hread h
    omega

end CScriptNum

end Ticoin
