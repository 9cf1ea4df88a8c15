import Mathlib.Data.Nat.Digits.Lemmas
import Mathlib.Data.UInt
import Ticoin.Lib.Codec

/-!
# DER integers

A number is encoded in base 256 from the most significant byte, with a zero in front if the
first bit would make it negative (`derInteger`). The encodings of numbers are the byte strings
without a sign and without a zero that is not needed (`isShortest_iff`).
-/

namespace Codec

/-- The base 256 digits of a number, from the most significant. -/
def beDigits (n : ℕ) : Bytes := (Nat.digits 256 n).reverse.map UInt8.ofNat

/-- The shortest encoding of a number that is not negative. -/
def derInteger (n : ℕ) : Bytes :=
  match beDigits n with
  | [] => [0]
  | b :: bytes => if 128 ≤ b.toNat then 0 :: b :: bytes else b :: bytes

/-- Not empty, not negative, and without a zero in front that is not needed. -/
def isShortest : Bytes → Bool
  | [] => false
  | [b] => b.toNat < 128
  | b :: c :: _ => b.toNat < 128 && (b != 0 || 128 ≤ c.toNat)

/-- The first digit is not zero. -/
theorem head_beDigits_ne_zero {n : ℕ} {b : UInt8} {bytes : Bytes} (h : beDigits n = b :: bytes) :
    b ≠ 0 := by
  have hne : Nat.digits 256 n ≠ [] := by
    intro hnil
    rw [beDigits, hnil] at h
    cases h
  have hhead : UInt8.ofNat ((Nat.digits 256 n).getLast hne) = b := by
    have hget := congrArg List.head? h
    rw [beDigits, List.head?_map, List.head?_reverse, List.getLast?_eq_getLast_of_ne_nil hne] at hget
    exact Option.some.inj hget
  have hn : n ≠ 0 := by
    rintro rfl
    exact hne (Nat.digits_zero 256)
  have hlast := Nat.getLast_digit_ne_zero 256 hn
  have hlt := Nat.digits_lt_base (by decide : 1 < 256) (List.getLast_mem hne)
  intro hb
  rw [hb, ← UInt8.toNat_inj, UInt8.toNat_ofNat', Nat.mod_eq_of_lt hlt] at hhead
  exact hlast hhead

theorem isShortest_derInteger (n : ℕ) : isShortest (derInteger n) = true := by
  rw [derInteger]
  split
  · rfl
  · rename_i b bytes hdigits
    have hb := head_beDigits_ne_zero hdigits
    split
    · rename_i hle
      simp [isShortest, hle]
    · rename_i hlt
      cases bytes with
      | nil => simpa [isShortest] using hlt
      | cons c bytes => simp [isShortest, hb, not_le.mp hlt]

/-- Bytes without a leading zero are the digits of a number. -/
theorem exists_beDigits {b : UInt8} (bytes : Bytes) (hb : b ≠ 0) : ∃ n, beDigits n = b :: bytes := by
  refine ⟨Nat.ofDigits 256 ((b :: bytes).reverse.map UInt8.toNat), ?_⟩
  have hmap : (UInt8.ofNat ∘ UInt8.toNat) = id := funext fun c => UInt8.ofNat_toNat
  rw [beDigits, Nat.digits_ofDigits 256 (by decide), ← List.map_reverse, List.reverse_reverse,
    List.map_map, hmap, List.map_id]
  · intro d hd
    obtain ⟨c, -, rfl⟩ := List.mem_map.mp hd
    exact c.toNat_lt
  · intro hne hlast
    simp only [List.getLast_map, List.getLast_reverse, List.head_cons] at hlast
    exact hb (UInt8.toNat_inj.mp hlast)

/-- The encodings of numbers. -/
theorem isShortest_iff {bytes : Bytes} : isShortest bytes = true ↔ ∃ n, bytes = derInteger n := by
  constructor
  · intro h
    match bytes, h with
    | b :: bytes, h =>
      by_cases hb : b = 0
      · subst hb
        match bytes, h with
        | [], _ => exact ⟨0, rfl⟩
        | c :: bytes, h =>
          have hc : 128 ≤ c.toNat := by simpa [isShortest] using h
          have hne : c ≠ 0 := by
            rintro rfl
            exact absurd hc (by decide)
          obtain ⟨n, hn⟩ := exists_beDigits bytes hne
          exact ⟨n, by simp only [derInteger, hn, if_pos hc]⟩
      · obtain ⟨n, hn⟩ := exists_beDigits bytes hb
        have hlt : ¬128 ≤ b.toNat := by
          cases bytes with
          | nil => simpa [isShortest] using h
          | cons c bytes => simp [isShortest] at h; omega
        exact ⟨n, by simp only [derInteger, hn, if_neg hlt]⟩
  · rintro ⟨n, rfl⟩
    exact isShortest_derInteger n

end Codec
