import Mathlib

/-!
# Sums of 64-bit integers

Machine integers wrap around, and are the integers where these fit (`toInt_add_of_fits`). Sums do not
depend on the order (`sum_perm`), and where the sum of the integers themselves fits they are that sum
(`toInt_sum`).
-/

namespace Int64Sum

/-! ## Operations that fit -/

/-- An integer is one of 64 bits. -/
def Fits (n : ℤ) : Prop := -2 ^ 63 ≤ n ∧ n < 2 ^ 63

theorem bmod_of_fits {n : ℤ} (h : Fits n) : n.bmod (2 ^ 64) = n := by
  obtain ⟨hle, hlt⟩ := h
  exact Int.bmod_eq_of_le (by omega) (by omega)

theorem toInt_add_of_fits {a b : Int64} (h : Fits (a.toInt + b.toInt)) :
    (a + b).toInt = a.toInt + b.toInt := by
  rw [Int64.toInt_add, bmod_of_fits h]

theorem toInt_sub_of_fits {a b : Int64} (h : Fits (a.toInt - b.toInt)) :
    (a - b).toInt = a.toInt - b.toInt := by
  rw [Int64.toInt_sub, bmod_of_fits h]

theorem toInt_mul_of_fits {a b : Int64} (h : Fits (a.toInt * b.toInt)) :
    (a * b).toInt = a.toInt * b.toInt := by
  rw [Int64.toInt_mul, bmod_of_fits h]

/-! ## Sums -/

theorem sum_perm {l l' : List Int64} (h : l.Perm l') : l.sum = l'.sum := by
  induction h with
  | nil => rfl
  | cons x _ ih => rw [List.sum_cons, List.sum_cons, ih]
  | swap x y l =>
    simp only [List.sum_cons]
    rw [← Int64.add_assoc, ← Int64.add_assoc, Int64.add_comm y x]
  | trans _ _ ih ih' => rw [ih, ih']

/-- The sum as an integer. -/
def total (l : List Int64) : ℤ := (l.map Int64.toInt).sum

theorem total_perm {l l' : List Int64} (h : l.Perm l') : total l = total l' :=
  (h.map _).sum_eq

theorem total_append (l l' : List Int64) : total (l ++ l') = total l + total l' := by
  simp [total]

theorem total_nonneg {l : List Int64} (h : ∀ x ∈ l, 0 ≤ x.toInt) : 0 ≤ total l := by
  refine List.sum_nonneg fun x hx => ?_
  obtain ⟨y, hy, rfl⟩ := List.mem_map.mp hx
  exact h y hy

/-- A part of integers that are not negative is not more than all of them. -/
theorem total_le_of_subperm {l l' : List Int64} (hsub : l.Subperm l') (h : ∀ x ∈ l', 0 ≤ x.toInt) :
    total l ≤ total l' := by
  obtain ⟨l'', hperm, hsublist⟩ := hsub
  rw [← total_perm hperm]
  refine List.Sublist.sum_le_sum (hsublist.map _) fun x hx => ?_
  obtain ⟨y, hy, rfl⟩ := List.mem_map.mp hx
  exact h y hy

/-- A sum that fits is not wrapped. -/
theorem toInt_sum : ∀ {l : List Int64}, (∀ x ∈ l, 0 ≤ x.toInt) → total l < 2 ^ 63 →
    l.sum.toInt = total l
  | [], _, _ => rfl
  | x :: l, h, hfit => by
    rw [List.forall_mem_cons] at h
    have hl := total_nonneg h.2
    have hcons : total (x :: l) = x.toInt + total l := by rw [total, List.map_cons, List.sum_cons, total]
    rw [hcons] at hfit ⊢
    have hsum := toInt_sum h.2 (by omega)
    rw [List.sum_cons, toInt_add_of_fits ⟨by omega, by omega⟩, hsum]

end Int64Sum
