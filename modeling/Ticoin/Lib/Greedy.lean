import Mathlib

/-!
# Greedy matching in order

A list is matched in order with another when its elements are assigned, by an increasing function,
to elements they are related to (`Matches`). This is `List.SublistForall₂` (`matches_iff`), and the
greedy choice loses nothing : a first element that is related to the first of the other list may be
assigned to it (`cons_iff_of_rel`), and one that is not goes on with the rest (`cons_iff_of_not_rel`).
-/

namespace Greedy

variable {α β : Type*} {R : α → β → Prop} {a : α} {b : β} {l : List α} {m : List β}

/-- The elements of `l` are assigned to elements of `m` they are related to, in order. -/
def Matches (R : α → β → Prop) (l : List α) (m : List β) : Prop :=
  ∃ f : Fin l.length → Fin m.length, StrictMono f ∧ ∀ i, R (l.get i) (m.get (f i))

/-- A matching is a list of related elements that is a part of the other list, in its order. -/
theorem matches_iff : Matches R l m ↔ List.SublistForall₂ R l m := by
  rw [List.sublistForall₂_iff]
  constructor
  · rintro ⟨f, hmono, hrel⟩
    refine ⟨List.ofFn fun i => m.get (f i), ?_, ?_⟩
    · rw [List.forall₂_iff_get]
      refine ⟨(List.length_ofFn).symm, fun i hl hm => ?_⟩
      rw [List.get_ofFn]
      exact hrel ⟨i, hl⟩
    · rw [List.sublist_iff_exists_fin_orderEmbedding_get_eq]
      refine ⟨OrderEmbedding.ofStrictMono (fun i => f (Fin.cast List.length_ofFn i)) fun i j hij =>
        hmono hij, fun i => ?_⟩
      rw [List.get_ofFn]
      rfl
  · rintro ⟨m', hrel, hsub⟩
    obtain ⟨f, hf⟩ := List.sublist_iff_exists_fin_orderEmbedding_get_eq.mp hsub
    obtain ⟨hlen, hget⟩ := List.forall₂_iff_get.mp hrel
    refine ⟨fun i => f (Fin.cast hlen i), fun i j hij => f.strictMono hij, fun i => ?_⟩
    rw [← hf]
    exact hget i.1 i.2 (hlen ▸ i.2)

theorem length_le (h : List.SublistForall₂ R l m) : l.length ≤ m.length := by
  obtain ⟨m', hrel, hsub⟩ := List.sublistForall₂_iff.mp h
  exact hrel.length_eq.le.trans hsub.length_le

/-- Without its first element a list is matched with what comes after the first of the other. -/
theorem tail (h : List.SublistForall₂ R (a :: l) (b :: m)) : List.SublistForall₂ R l m := by
  obtain ⟨m', hrel, hsub⟩ := List.sublistForall₂_iff.mp h
  cases hrel with
  | cons _ hrest => exact List.sublistForall₂_iff.mpr ⟨_, hrest, hsub.tail⟩

/-- An element that is related to the first one may be assigned to it. -/
theorem cons_iff_of_rel (h : R a b) :
    List.SublistForall₂ R (a :: l) (b :: m) ↔ List.SublistForall₂ R l m :=
  ⟨tail, .cons h⟩

/-- An element that is not related to the first one is assigned to another. -/
theorem cons_iff_of_not_rel (h : ¬R a b) :
    List.SublistForall₂ R (a :: l) (b :: m) ↔ List.SublistForall₂ R (a :: l) m := by
  refine ⟨fun hmatch => ?_, .cons_right⟩
  cases hmatch with
  | cons hrel => exact absurd hrel h
  | cons_right hrest => exact hrest

end Greedy
