import Mathlib.Data.Set.Card
import Mathlib.Logic.Relation

/-!
# Cascading deletion

A node is deleted from a set of nodes with all that is below it, and one of these before the
node itself. The lists of what such deletions delete compose (`Deleted.trans`), the node comes last
(`Deleted.root`), and in the end it is exactly the nodes below the root (`Deleted.mem_iff`).

The nodes rank above what they are below of, so the recursion is not deeper than there are nodes
of a higher rank (`height`).
-/

namespace Cascade

variable {α : Type*} {child : α → α → Prop} {P R R' : Set α} {l l' : List α} {x y : α}

/-! ## What is below a node -/

/-- Reached from a node through nodes of the set. -/
def Below (child : α → α → Prop) (P : Set α) : α → α → Prop :=
  Relation.ReflTransGen fun a b => child a b ∧ b ∈ P

theorem Below.mono {Q : Set α} (hsub : Q ⊆ P) (h : Below child Q x y) : Below child P x y :=
  Relation.ReflTransGen.mono (fun _ _ hab => ⟨hab.1, hsub hab.2⟩) _ _ h

theorem Below.le {rank : α → ℕ} (hrank : ∀ a, ∀ b ∈ P, child a b → rank a < rank b)
    (h : Below child P x y) : rank x ≤ rank y := by
  induction h with
  | refl => exact le_rfl
  | tail _ hstep ih => exact ih.trans (hrank _ _ hstep.2 hstep.1).le

/-- The number of the nodes that rank above one. -/
noncomputable def height (rank : α → ℕ) (P : Set α) (x : α) : ℕ :=
  {y ∈ P | rank x < rank y}.ncard

theorem height_le {rank : α → ℕ} {Q : Set α} (hfin : P.Finite) (hsub : Q ⊆ P) :
    height rank Q x ≤ height rank P x :=
  Set.ncard_le_ncard (fun _ hy => ⟨hsub hy.1, hy.2⟩) (hfin.subset fun _ hy => hy.1)

theorem height_lt {rank : α → ℕ} (hfin : P.Finite) (hmem : y ∈ P) (hlt : rank x < rank y) :
    height rank P y < height rank P x := by
  refine Set.ncard_lt_ncard ⟨fun z hz => ⟨hz.1, hlt.trans hz.2⟩, fun hsub => ?_⟩
    (hfin.subset fun _ hy => hy.1)
  exact lt_irrefl _ (hsub ⟨hmem, hlt⟩ : y ∈ P ∧ rank y < rank y).2

/-! ## Deletions -/

/-- What a deletion leaves. -/
def rest (P : Set α) (l : List α) : Set α := {y | y ∈ P ∧ y ∉ l}

theorem rest_append : rest (rest P l) l' = rest P (l' ++ l) := by
  ext y
  change (y ∈ P ∧ y ∉ l) ∧ y ∉ l' ↔ y ∈ P ∧ y ∉ l' ++ l
  rw [List.mem_append, not_or, and_assoc]
  exact and_congr_right fun _ => and_comm

/-- The nodes of a list are deleted from a set : they are below the roots, and what is below them
is deleted with them. -/
structure Deleted (child : α → α → Prop) (P R : Set α) (l : List α) : Prop where
  nodup : l.Nodup
  sub : ∀ y ∈ l, y ∈ P
  closed : ∀ a ∈ l, ∀ b ∈ P, child a b → b ∈ l
  below : ∀ y ∈ l, ∃ r ∈ R, Below child P r y

theorem Deleted.nil : Deleted child P R [] where
  nodup := List.nodup_nil
  sub := nofun
  closed := nofun
  below := nofun

theorem Deleted.mono (h : Deleted child P R l) (hsub : ∀ r ∈ R, r ∈ R') : Deleted child P R' l where
  nodup := h.nodup
  sub := h.sub
  closed := h.closed
  below y hy := by
    obtain ⟨r, hr, hbelow⟩ := h.below y hy
    exact ⟨r, hsub r hr, hbelow⟩

/-- A deletion from what another one has left. -/
theorem Deleted.trans (h : Deleted child P R l) (h' : Deleted child (rest P l) R l') :
    Deleted child P R (l' ++ l) where
  nodup := h'.nodup.append h.nodup fun y hy' hy => (h'.sub y hy').2 hy
  sub y hy := by
    rcases List.mem_append.mp hy with hy | hy
    · exact (h'.sub y hy).1
    · exact h.sub y hy
  closed a ha b hb hab := by
    by_cases hbl : b ∈ l
    · exact List.mem_append_right _ hbl
    rcases List.mem_append.mp ha with ha | ha
    · exact List.mem_append_left _ (h'.closed a ha b ⟨hb, hbl⟩ hab)
    · exact absurd (h.closed a ha b hb hab) hbl
  below y hy := by
    rcases List.mem_append.mp hy with hy | hy
    · obtain ⟨r, hr, hbelow⟩ := h'.below y hy
      exact ⟨r, hr, hbelow.mono fun z hz => hz.1⟩
    · exact h.below y hy

/-- The children of a node are the roots : all is below the node. -/
theorem Deleted.of_children (h : Deleted child P {c | c ∈ P ∧ child x c} l) :
    ∀ y ∈ l, Below child P x y := by
  intro y hy
  obtain ⟨r, hr, hbelow⟩ := h.below y hy
  exact Relation.ReflTransGen.head ⟨hr.2, hr.1⟩ hbelow

/-- The node itself is deleted after its children. -/
theorem Deleted.root (h : Deleted child P {c | c ∈ P ∧ child x c} l) (hx : x ∈ P) (hnot : x ∉ l)
    (hall : ∀ b ∈ P, child x b → b ∈ l) : Deleted child P {x} (x :: l) where
  nodup := List.nodup_cons.mpr ⟨hnot, h.nodup⟩
  sub := List.forall_mem_cons.mpr ⟨hx, h.sub⟩
  closed := List.forall_mem_cons.mpr
    ⟨fun b hb hab => List.mem_cons_of_mem _ (hall b hb hab),
      fun a ha b hb hab => List.mem_cons_of_mem _ (h.closed a ha b hb hab)⟩
  below := List.forall_mem_cons.mpr
    ⟨⟨x, rfl, Relation.ReflTransGen.refl⟩, fun y hy => ⟨x, rfl, h.of_children y hy⟩⟩

/-- The node is not in the set. -/
theorem Deleted.absent (h : Deleted child P {c | c ∈ P ∧ child x c} l) : Deleted child P {x} l where
  nodup := h.nodup
  sub := h.sub
  closed := h.closed
  below y hy := ⟨x, rfl, h.of_children y hy⟩

/-- Exactly what is below the root is deleted. -/
theorem Deleted.mem_iff (h : Deleted child P {x} l) (hx : x ∈ P → x ∈ l)
    (hall : ∀ b ∈ P, child x b → b ∈ l) : y ∈ l ↔ y ∈ P ∧ Below child P x y := by
  constructor
  · intro hy
    obtain ⟨r, rfl, hbelow⟩ := h.below y hy
    exact ⟨h.sub y hy, hbelow⟩
  · rintro ⟨hy, hbelow⟩
    rcases Relation.ReflTransGen.cases_tail hbelow with rfl | ⟨z, hz, hstep⟩
    · exact hx hy
    -- the nodes after the root are children of a deleted node
    clear hbelow hy
    induction hz generalizing y with
    | refl => exact hall y hstep.2 hstep.1
    | tail _ hz ih => exact h.closed _ (ih hz) y hstep.2 hstep.1

end Cascade
