import Mathlib.Data.List.Sort

/-!
# Order statistics by counting

The element at a place of a sorted list is known by counts : it has a property that passes
to smaller elements if and only if more elements than its index have it
(`getElem_iff_lt_countP`). Counts do not depend on the order, so that places of a sorted list
can be read off the list before it was sorted (`getElem_insertionSort_iff`).
-/

namespace OrderStatistics

variable {α : Type*} [LinearOrder α] {P : α → Bool}

theorem getElem_iff_lt_countP (hP : ∀ x y, x ≤ y → P y = true → P x = true) :
    ∀ {l : List α}, l.Pairwise (· ≤ ·) → ∀ {i : ℕ} (hi : i < l.length),
      P l[i] = true ↔ i < l.countP P
  | [], _, i, hi => absurd hi (Nat.not_lt_zero i)
  | a :: l, hl, i, hi => by
    obtain ⟨ha, hl⟩ := List.pairwise_cons.mp hl
    by_cases hPa : P a = true
    · rw [List.countP_cons_of_pos hPa]
      cases i with
      | zero => simp [hPa]
      | succ i =>
        rw [List.getElem_cons_succ, getElem_iff_lt_countP hP hl, Nat.add_lt_add_iff_right]
    · -- nothing after an element without the property has it
      have hnone : ∀ y ∈ l, ¬P y = true := fun y hy hPy => hPa (hP a y (ha y hy) hPy)
      rw [List.countP_cons_of_neg hPa, List.countP_eq_zero.mpr hnone]
      refine iff_of_false ?_ (Nat.not_lt_zero i)
      cases i with
      | zero => exact hPa
      | succ i => exact hnone _ (List.getElem_mem _)

/-- A place of the sorted list, by counts in the list itself. -/
theorem getElem_insertionSort_iff (hP : ∀ x y, x ≤ y → P y = true → P x = true) (l : List α) {i : ℕ}
    (hi : i < (l.insertionSort (· ≤ ·)).length) :
    P (l.insertionSort (· ≤ ·))[i] = true ↔ i < l.countP P := by
  rw [getElem_iff_lt_countP hP (List.pairwise_insertionSort _ l),
    (List.perm_insertionSort _ l).countP_eq]

variable (l : List α) {i : ℕ} (hi : i < (l.insertionSort (· ≤ ·)).length) (d : α)

theorem getElem_insertionSort_lt_iff :
    (l.insertionSort (· ≤ ·))[i] < d ↔ i < l.countP (· < d) := by
  rw [← getElem_insertionSort_iff (fun x y hxy hy => by simp at hy ⊢; exact hxy.trans_lt hy) l hi,
    decide_eq_true_iff]

theorem getElem_insertionSort_le_iff :
    (l.insertionSort (· ≤ ·))[i] ≤ d ↔ i < l.countP (· ≤ d) := by
  rw [← getElem_insertionSort_iff (fun x y hxy hy => by simp at hy ⊢; exact hxy.trans hy) l hi,
    decide_eq_true_iff]

theorem getElem_insertionSort_eq_iff :
    (l.insertionSort (· ≤ ·))[i] = d ↔ l.countP (· < d) ≤ i ∧ i < l.countP (· ≤ d) := by
  rw [le_antisymm_iff, getElem_insertionSort_le_iff, ← not_lt, getElem_insertionSort_lt_iff,
    not_lt, and_comm]

theorem le_getElem_insertionSort_iff :
    d ≤ (l.insertionSort (· ≤ ·))[i] ↔ l.countP (· < d) ≤ i := by
  rw [← not_lt, getElem_insertionSort_lt_iff, not_lt]

/-- Elements that leave a window and one that comes, not below the element at a place, do not make
smaller what is at the place or later. -/
theorem getElem_insertionSort_le_cons {l' : List α} {t : α} {j : ℕ} (hsub : l'.Sublist l)
    (ht : (l.insertionSort (· ≤ ·))[i] ≤ t) (hij : i ≤ j)
    (hj : j < ((t :: l').insertionSort (· ≤ ·)).length) :
    (l.insertionSort (· ≤ ·))[i] ≤ ((t :: l').insertionSort (· ≤ ·))[j] := by
  rw [le_getElem_insertionSort_iff, List.countP_cons_of_neg (by simpa using ht)]
  calc l'.countP (· < (l.insertionSort (· ≤ ·))[i])
      ≤ l.countP (· < (l.insertionSort (· ≤ ·))[i]) := hsub.countP_le
    _ ≤ i := (le_getElem_insertionSort_iff l hi _).mp le_rfl
    _ ≤ j := hij

end OrderStatistics
