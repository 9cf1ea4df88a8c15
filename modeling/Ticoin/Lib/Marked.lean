import Mathlib.Data.List.Basic
import Mathlib.Data.List.Nodup

/-!
# Marked elements : a part of a list by flags

A vector of flags beside a list picks some of its elements (`marked`). Setting a flag that is off adds
the element at its place (`marked_set_perm`), and taking it back restores the flags
(`set_set_of_getElem?`). What is added up over the marked elements can so be kept beside the flags.
-/

namespace Marked

variable {α : Type*}

/-- The elements whose flags are on. -/
def marked : List α → List Bool → List α
  | a :: l, b :: flags => if b then a :: marked l flags else marked l flags
  | _, _ => []

theorem marked_sublist : ∀ (l : List α) (flags : List Bool), (marked l flags).Sublist l
  | [], _ => by
    unfold marked
    exact List.Sublist.refl _
  | a :: l, [] => List.nil_sublist _
  | a :: l, b :: flags => by
    unfold marked
    split
    · exact (marked_sublist l flags).cons_cons a
    · exact (marked_sublist l flags).cons a

@[simp] theorem marked_replicate_true : ∀ l : List α, marked l (List.replicate l.length true) = l
  | [] => rfl
  | a :: l => by simp [marked, List.replicate_succ, marked_replicate_true l]

@[simp] theorem marked_replicate_false : ∀ (l : List α) (n : ℕ),
    marked l (List.replicate n false) = []
  | [], n => by simp [marked]
  | _ :: _, 0 => rfl
  | _ :: l, n + 1 => by simp [marked, List.replicate_succ, marked_replicate_false l n]

/-- A flag that is set adds its element. -/
theorem marked_set_perm {a : α} : ∀ {l : List α} {flags : List Bool} {i : ℕ},
    l[i]? = some a → flags[i]? = some false →
    (marked l (flags.set i true)).Perm (a :: marked l flags)
  | [], _, _, hl, _ => by simp at hl
  | _ :: _, [], _, _, hflag => by simp at hflag
  | x :: l, b :: flags, 0, hl, hflag => by
    simp only [List.getElem?_cons_zero, Option.some.injEq] at hl hflag
    rw [hl, hflag]
    simp [marked]
  | x :: l, b :: flags, i + 1, hl, hflag => by
    rw [List.getElem?_cons_succ] at hl hflag
    have ih := marked_set_perm hl hflag
    rw [List.set_cons_succ]
    unfold marked
    split
    · exact (ih.cons x).trans (List.Perm.swap a x _)
    · exact ih

/-- A flag set and taken back. -/
theorem set_set_of_getElem? {flags : List Bool} {i : ℕ} {b : Bool} (h : flags[i]? = some b)
    (c : Bool) : (flags.set i c).set i b = flags := by
  obtain ⟨hi, rfl⟩ := List.getElem?_eq_some_iff.mp h
  rw [List.set_set, List.set_getElem_self]

end Marked
