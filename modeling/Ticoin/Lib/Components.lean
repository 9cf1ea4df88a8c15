import Mathlib.Data.Finset.Basic
import Mathlib.Logic.Relation

/-!
# Connected components of a family of sets

Two elements are linked if a chain of sets of the family leads from one to the other, each meeting
the next (`Linked`). The components of a family (`Components`) change in one way when a set comes to
it : the components that meet the set become one with it, and the others stay (`Components.insert`).
-/

namespace Grouping

variable {α : Type*}

/-- Two elements of one set. -/
def Together (family : Set (Finset α)) (a b : α) : Prop := ∃ g ∈ family, a ∈ g ∧ b ∈ g

/-- Two elements with a chain of sets between them. -/
def Linked (family : Set (Finset α)) : α → α → Prop := Relation.TransGen (Together family)

/-- Disjoint groups with the linked elements of a family. -/
structure Components (family groups : Set (Finset α)) : Prop where
  disjoint : ∀ g ∈ groups, ∀ g' ∈ groups, ∀ a, a ∈ g → a ∈ g' → g = g'
  linked : ∀ a b, Together groups a b ↔ Linked family a b

section Together

variable {family family' groups : Set (Finset α)} {a b c : α}

theorem Together.symm (h : Together family a b) : Together family b a := by
  obtain ⟨g, hg, ha, hb⟩ := h
  exact ⟨g, hg, hb, ha⟩

theorem Together.mono (hle : family ⊆ family') (h : Together family a b) :
    Together family' a b := by
  obtain ⟨g, hg, hab⟩ := h
  exact ⟨g, hle hg, hab⟩

theorem Linked.mono (hle : family ⊆ family') (h : Linked family a b) : Linked family' a b :=
  Relation.TransGen.mono (fun _ _ => Together.mono hle) _ _ h

theorem Linked.symm (h : Linked family a b) : Linked family b a := by
  unfold Linked at h ⊢
  rw [← Relation.transGen_swap]
  exact Relation.TransGen.mono (fun _ _ => Together.symm) _ _ h

/-- An element is linked to itself if it is in a set. -/
theorem linked_self_iff : Linked family a a ↔ ∃ g ∈ family, a ∈ g := by
  refine ⟨fun h => ?_, fun ⟨g, hg, ha⟩ => .single ⟨g, hg, ha, ha⟩⟩
  obtain ⟨b, ⟨g, hg, ha, -⟩, -⟩ := Relation.TransGen.head'_iff.mp h
  exact ⟨g, hg, ha⟩

/-- In disjoint groups a chain stays in one group. -/
theorem together_trans (hdisjoint : ∀ g ∈ groups, ∀ g' ∈ groups, ∀ a, a ∈ g → a ∈ g' → g = g')
    (hab : Together groups a b) (hbc : Together groups b c) : Together groups a c := by
  obtain ⟨g, hg, ha, hb⟩ := hab
  obtain ⟨g', hg', hb', hc⟩ := hbc
  rw [← hdisjoint g hg g' hg' b hb hb'] at hc
  exact ⟨g, hg, ha, hc⟩

end Together

variable {family groups : Set (Finset α)}

theorem components_empty : Components (∅ : Set (Finset α)) ∅ where
  disjoint := fun g hg => absurd hg (Set.notMem_empty g)
  linked := fun a b => by
    refine iff_of_false (fun ⟨g, hg, _⟩ => Set.notMem_empty g hg) fun h => ?_
    obtain ⟨c, ⟨g, hg, _⟩, -⟩ := Relation.TransGen.head'_iff.mp h
    exact Set.notMem_empty g hg

/-- The groups cover the family. -/
theorem Components.mem_iff (h : Components family groups) (a : α) :
    (∃ g ∈ groups, a ∈ g) ↔ ∃ g ∈ family, a ∈ g := by
  have hself : Linked family a a ↔ _ := linked_self_iff
  rw [← hself, ← h.linked]
  exact exists_congr fun g => and_congr_right fun _ => (and_self_iff).symm

/-- The groups that have no element of a set, and a new one. -/
def replaced (groups : Set (Finset α)) (s merged : Finset α) : Set (Finset α) :=
  {g | g = merged ∨ g ∈ groups ∧ ∀ a ∈ s, a ∉ g}

/-- A set that comes to the family makes one group of those that it meets. -/
theorem Components.insert (h : Components family groups) {s merged : Finset α}
    (hmerged : ∀ a, a ∈ merged ↔ a ∈ s ∨ ∃ g ∈ groups, (∃ b ∈ s, b ∈ g) ∧ a ∈ g) :
    Components (insert s family) (replaced groups s merged) := by
  have hfamily : family ⊆ Insert.insert s family := Set.subset_insert s family
  have hs : s ∈ Insert.insert s family := Set.mem_insert s family
  -- every element of the new group is linked to an element of the set
  have hreach : ∀ a ∈ merged, ∃ b ∈ s, Linked (Insert.insert s family) a b := by
    intro a ha
    rcases (hmerged a).mp ha with ha | ⟨g, hg, ⟨b, hb, hbg⟩, hag⟩
    · exact ⟨a, ha, .single ⟨s, hs, ha, ha⟩⟩
    · exact ⟨b, hb, ((h.linked a b).mp ⟨g, hg, hag, hbg⟩).mono hfamily⟩
  have hdisjoint : ∀ g ∈ replaced groups s merged, ∀ g' ∈ replaced groups s merged, ∀ a,
      a ∈ g → a ∈ g' → g = g' := by
    have hold : ∀ g ∈ groups, (∀ a ∈ s, a ∉ g) → ∀ a ∈ g, a ∉ merged := by
      intro g hg hnot a ha hmem
      rcases (hmerged a).mp hmem with hs | ⟨g', hg', ⟨b, hb, hbg⟩, hag⟩
      · exact hnot a hs ha
      · rw [← h.disjoint g hg g' hg' a ha hag] at hbg
        exact hnot b hb hbg
    rintro g (rfl | ⟨hg, hnot⟩) g' (rfl | ⟨hg', hnot'⟩) a ha ha'
    · rfl
    · exact absurd ha (hold g' hg' hnot' a ha')
    · exact absurd ha' (hold g hg hnot a ha)
    · exact h.disjoint g hg g' hg' a ha ha'
  refine ⟨hdisjoint, fun a b => ⟨?_, fun hlinked => ?_⟩⟩
  · rintro ⟨g, rfl | ⟨hg, -⟩, ha, hb⟩
    · obtain ⟨c, hc, hac⟩ := hreach a ha
      obtain ⟨d, hd, hbd⟩ := hreach b hb
      exact (hac.tail ⟨s, hs, hc, hd⟩).trans hbd.symm
    · exact ((h.linked a b).mp ⟨g, hg, ha, hb⟩).mono hfamily
  · -- one set of the chain is in one of the groups
    have hone : ∀ a b, Together (Insert.insert s family) a b →
        Together (replaced groups s merged) a b := by
      rintro a b ⟨g, rfl | hg, ha, hb⟩
      · exact ⟨merged, .inl rfl, (hmerged a).mpr (.inl ha), (hmerged b).mpr (.inl hb)⟩
      · obtain ⟨g', hg', ha, hb⟩ := (h.linked a b).mpr (.single ⟨g, hg, ha, hb⟩)
        by_cases hmeet : ∃ c ∈ s, c ∈ g'
        · exact ⟨merged, .inl rfl, (hmerged a).mpr (.inr ⟨g', hg', hmeet, ha⟩),
            (hmerged b).mpr (.inr ⟨g', hg', hmeet, hb⟩)⟩
        · exact ⟨g', .inr ⟨hg', fun c hc hcg => hmeet ⟨c, hc, hcg⟩⟩, ha, hb⟩
    induction hlinked with
    | single hab => exact hone _ _ hab
    | tail _ hbc ih => exact together_trans hdisjoint ih (hone _ _ hbc)

end Grouping
