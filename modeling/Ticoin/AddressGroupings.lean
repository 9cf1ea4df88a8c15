import Mathlib.Data.Finset.Sort
import Mathlib.Data.List.Lex
import Mathlib.Data.Prod.Lex
import Ticoin.Lib.Components
import Ticoin.WalletAmounts

/-!
# wallet.cpp : addresses that belong together

Addresses that a transaction of the wallet spends from belong together, with its change. From the
sets of such addresses `GetAddressGroupings` makes groups, merging those that a new set hits. The
groups are behind pointers : an index leads from each address to its group, and the groups that were
merged are freed. Whatever addresses `new` returns, the index leads to live groups, no group is
freed twice, and the groups are the components of the sets (`mergeGroupings_components`).
-/

namespace Ticoin

open Codec Grouping

/-! ## Merging of groups -/

section Merge

variable {α : Type*} [LinearOrder α]

abbrev Pointer := ℕ

/-- The sets that were made and are not freed, by their addresses in memory. -/
abbrev Heap (α : Type*) [LinearOrder α] := Std.ExtTreeMap Pointer (Finset α)

/-- `new`, which may depend on how many sets it made before. -/
structure Allocator (α : Type*) [LinearOrder α] where
  new : ℕ → Heap α → Pointer
  fresh : ∀ n heap, new n heap ∉ heap

structure Groupings (α : Type*) [LinearOrder α] where
  heap : Heap α
  nNew : ℕ
  /-- a set of pointers to groups of addresses -/
  uniqueGroupings : Finset Pointer
  /-- map addresses to the unique group containing it -/
  setmap : α → Option Pointer

namespace Groupings

def start : Groupings α := ⟨∅, 0, ∅, fun _ => none⟩

variable (g : Groupings α)

/-- All the groups hit by a new group. -/
def hits (grouping : Finset α) : Finset Pointer :=
  grouping.sort.foldl (fun hits address =>
    match g.setmap address with
    | some p => insert p hits
    | none => hits) ∅

/-- A group that is hit is merged and deleted, `none` where it is not live. -/
def absorb (merged : Pointer) (g : Groupings α) (hit : Pointer) : Option (Groupings α) := do
  let group ← g.heap[hit]?
  let target ← g.heap[merged]?
  return { g with
    heap := (g.heap.insert merged (target ∪ group)).erase hit
    uniqueGroupings := g.uniqueGroupings.erase hit }

/-- One grouping, `none` where a set is used that is not live. -/
def mergeGrouping (allocator : Allocator α) (g : Groupings α) (grouping : Finset α) :
    Option (Groupings α) := do
  let hits := g.hits grouping
  let merged := allocator.new g.nNew g.heap
  let g := { g with heap := g.heap.insert merged grouping, nNew := g.nNew + 1 }
  let g ← hits.sort.foldlM (absorb merged) g
  let group ← g.heap[merged]?
  return { g with
    uniqueGroupings := insert merged g.uniqueGroupings
    setmap := group.sort.foldl (fun setmap element => Function.update setmap element (some merged))
      g.setmap }

/-- A group is put in the result and deleted. -/
def moveOut (ret : Finset (Finset α) × Heap α) (uniqueGrouping : Pointer) :
    Option (Finset (Finset α) × Heap α) := do
  let group ← ret.2[uniqueGrouping]?
  return (insert group ret.1, ret.2.erase uniqueGrouping)

end Groupings

/-- The groups of some groupings. -/
def mergeGroupings (allocator : Allocator α) (groupings : List (Finset α)) : Option (Groupings α) :=
  groupings.foldlM (Groupings.mergeGrouping allocator) Groupings.start

/-- The result, with the sets that are left in memory. -/
def Groupings.ret (g : Groupings α) : Option (Finset (Finset α) × Heap α) :=
  g.uniqueGroupings.sort.foldlM Groupings.moveOut (∅, g.heap)

namespace Groupings

/-- The groups in memory. -/
def groups (g : Groupings α) : Set (Finset α) := {group | ∃ p : Pointer, g.heap[p]? = some group}

/-- What the loop keeps : the groups in memory are those that are pointed at, the index leads from
their addresses to them, and they are the components of the groupings so far. -/
structure Inv (family : Set (Finset α)) (g : Groupings α) : Prop where
  live : ∀ p, p ∈ g.uniqueGroupings ↔ p ∈ g.heap
  index : ∀ a p, g.setmap a = some p ↔ ∃ group, g.heap[p]? = some group ∧ a ∈ group
  components : Components family g.groups

theorem inv_start : Inv ∅ (start : Groupings α) where
  live := fun p => iff_of_false (Finset.notMem_empty p) Std.ExtTreeMap.not_mem_empty
  index := fun a p => by
    refine iff_of_false nofun fun ⟨group, hgroup, _⟩ => ?_
    rw [start, Std.ExtTreeMap.getElem?_empty] at hgroup
    cases hgroup
  components := by
    have hgroups : (start : Groupings α).groups = ∅ := by
      refine Set.eq_empty_of_forall_notMem fun group ⟨p, hp⟩ => ?_
      rw [start, Std.ExtTreeMap.getElem?_empty] at hp
      cases hp
    rw [hgroups]
    exact components_empty

theorem mem_hits (g : Groupings α) (grouping : Finset α) (p : Pointer) :
    p ∈ g.hits grouping ↔ ∃ a ∈ grouping, g.setmap a = some p := by
  have hfold : ∀ (l : List α) (hits : Finset Pointer), p ∈ l.foldl (fun hits address =>
      match g.setmap address with
      | some p => insert p hits
      | none => hits) hits ↔ p ∈ hits ∨ ∃ a ∈ l, g.setmap a = some p := by
    intro l
    induction l with
    | nil => simp
    | cons a l ih =>
      intro hits
      rw [List.foldl_cons, ih]
      cases ha : g.setmap a with
      | none => simp [ha]
      | some q => simp [ha, eq_comm, or_assoc, or_left_comm]
  unfold hits
  rw [hfold]
  simp

theorem foldl_update (p : Pointer) (a : α) : ∀ (l : List α) (setmap : α → Option Pointer),
    l.foldl (fun setmap element => Function.update setmap element (some p)) setmap a =
      if a ∈ l then some p else setmap a
  | [], setmap => by simp
  | b :: l, setmap => by
    rw [List.foldl_cons, foldl_update p a l]
    by_cases hl : a ∈ l
    · simp [hl]
    · by_cases hb : a = b
      · subst hb
        simp
      · simp [hl, hb]

/-- What the loop over the groups that are hit does. -/
structure Absorbed (merged : Pointer) (hits : List Pointer) (target : Finset α)
    (g g' : Groupings α) (target' : Finset α) : Prop where
  result : g'.heap[merged]? = some target'
  mem : ∀ a, a ∈ target' ↔ a ∈ target ∨ ∃ p ∈ hits, ∃ group, g.heap[p]? = some group ∧ a ∈ group
  heap : ∀ p : Pointer, p ≠ merged → g'.heap[p]? = if p ∈ hits then none else g.heap[p]?
  unique : ∀ p, p ∈ g'.uniqueGroupings ↔ p ∈ g.uniqueGroupings ∧ p ∉ hits
  setmap : g'.setmap = g.setmap

theorem absorb_foldlM {merged : Pointer} : ∀ {hits : List Pointer} {g : Groupings α}
    {target : Finset α}, hits.Nodup → merged ∉ hits → g.heap[merged]? = some target →
    (∀ p ∈ hits, p ∈ g.heap) → ∃ g' target', hits.foldlM (absorb merged) g = some g' ∧
      Absorbed merged hits target g g' target'
  | [], g, target, _, _, htarget, _ => ⟨g, target, rfl, htarget, by simp, by simp, by simp, rfl⟩
  | hit :: hits, g, target, hnodup, hmerged, htarget, hlive => by
    rw [List.nodup_cons] at hnodup
    rw [List.mem_cons, not_or] at hmerged
    rw [List.forall_mem_cons] at hlive
    obtain ⟨group, hgroup⟩ := Option.isSome_iff_exists.mp
      (Std.ExtTreeMap.mem_iff_isSome_getElem?.mp hlive.1)
    let g₁ : Groupings α := { g with
      heap := (g.heap.insert merged (target ∪ group)).erase hit
      uniqueGroupings := g.uniqueGroupings.erase hit }
    have hget : ∀ p : Pointer, g₁.heap[p]? =
        if hit = p then none else if merged = p then some (target ∪ group) else g.heap[p]? := by
      intro p
      change ((g.heap.insert merged (target ∪ group)).erase hit)[p]? = _
      rw [Std.ExtTreeMap.getElem?_erase, Std.ExtTreeMap.getElem?_insert]
      simp only [Std.LawfulEqOrd.compare_eq_iff_eq]
    have hsame : ∀ p ∈ hits, g₁.heap[p]? = g.heap[p]? := by
      intro p hp
      rw [hget, if_neg, if_neg]
      · rintro rfl
        exact hmerged.2 hp
      · rintro rfl
        exact hnodup.1 hp
    have htarget₁ : g₁.heap[merged]? = some (target ∪ group) := by
      rw [hget, if_neg (Ne.symm hmerged.1), if_pos rfl]
    have hlive₁ : ∀ p ∈ hits, p ∈ g₁.heap := by
      intro p hp
      rw [Std.ExtTreeMap.mem_iff_isSome_getElem?, hsame p hp]
      exact Std.ExtTreeMap.mem_iff_isSome_getElem?.mp (hlive.2 p hp)
    obtain ⟨g', target', hfold, h⟩ := absorb_foldlM hnodup.2 hmerged.2 htarget₁ hlive₁
    refine ⟨g', target', ?_, h.result, fun a => ?_, fun p hp => ?_, fun p => ?_, h.setmap⟩
    · rw [List.foldlM_cons, absorb, hgroup, htarget]
      exact hfold
    · rw [h.mem, Finset.mem_union, or_assoc, List.exists_mem_cons_iff]
      refine or_congr_right (or_congr ?_ (exists_congr fun p => and_congr_right fun hp => ?_))
      · simp [hgroup]
      · rw [hsame p hp]
    · rw [h.heap p hp, hget, if_neg (Ne.symm hp)]
      by_cases hhit : hit = p
      · simp [hhit]
      · simp [hhit, Ne.symm hhit]
    · rw [h.unique, Finset.mem_erase, List.mem_cons, not_or, and_comm (a := p ≠ hit), and_assoc]

/-- The groups that a grouping hits are those it shares an address with. -/
theorem Inv.mem_hits {family : Set (Finset α)} {g : Groupings α} (hinv : Inv family g)
    {p : Pointer} {group : Finset α} (hgroup : g.heap[p]? = some group) (grouping : Finset α) :
    p ∈ g.hits grouping ↔ ∃ a ∈ grouping, a ∈ group := by
  rw [Groupings.mem_hits]
  refine exists_congr fun a => and_congr_right fun _ => ?_
  rw [hinv.index]
  refine ⟨fun ⟨group', hgroup', ha⟩ => ?_, fun ha => ⟨group, hgroup, ha⟩⟩
  rw [hgroup, Option.some.injEq] at hgroup'
  rwa [hgroup']

/-- One grouping makes one group of those that it hits. -/
theorem Inv.mergeGrouping {family : Set (Finset α)} {g : Groupings α} (hinv : Inv family g)
    (allocator : Allocator α) (grouping : Finset α) :
    ∃ g', mergeGrouping allocator g grouping = some g' ∧ Inv (insert grouping family) g' := by
  have hfresh := allocator.fresh g.nNew g.heap
  generalize hmerged : allocator.new g.nNew g.heap = merged at hfresh
  have hnone : g.heap[merged]? = none := Std.ExtTreeMap.getElem?_eq_none hfresh
  have hhits : ∀ p ∈ g.hits grouping, ∃ group, g.heap[p]? = some group := by
    intro p hp
    obtain ⟨a, -, ha⟩ := (Groupings.mem_hits g grouping p).mp hp
    obtain ⟨group, hgroup, -⟩ := (hinv.index a p).mp ha
    exact ⟨group, hgroup⟩
  let g₁ : Groupings α := { g with heap := g.heap.insert merged grouping, nNew := g.nNew + 1 }
  have hget : ∀ p : Pointer, g₁.heap[p]? = if merged = p then some grouping else g.heap[p]? := by
    intro p
    change (g.heap.insert merged grouping)[p]? = _
    rw [Std.ExtTreeMap.getElem?_insert]
    simp only [Std.LawfulEqOrd.compare_eq_iff_eq]
  have hnot : merged ∉ (g.hits grouping).sort := by
    rw [Finset.mem_sort]
    intro hmem
    obtain ⟨group, hgroup⟩ := hhits merged hmem
    rw [hnone] at hgroup
    cases hgroup
  have hlive : ∀ p ∈ (g.hits grouping).sort, p ∈ g₁.heap := by
    intro p hp
    obtain ⟨group, hgroup⟩ := hhits p ((Finset.mem_sort _).mp hp)
    rw [Std.ExtTreeMap.mem_iff_isSome_getElem?, hget, hgroup]
    split <;> rfl
  obtain ⟨g₂, target, hfold, h⟩ := absorb_foldlM (Finset.sort_nodup (g.hits grouping) _) hnot
    (by rw [hget, if_pos rfl]) hlive
  have hheap : ∀ p : Pointer, p ≠ merged →
      g₂.heap[p]? = if p ∈ g.hits grouping then none else g.heap[p]? := by
    intro p hp
    rw [h.heap p hp, hget, if_neg (Ne.symm hp)]
    simp only [Finset.mem_sort]
  have hmem : ∀ a, a ∈ target ↔
      a ∈ grouping ∨ ∃ group ∈ g.groups, (∃ b ∈ grouping, b ∈ group) ∧ a ∈ group := by
    intro a
    rw [h.mem]
    refine or_congr_right ⟨?_, ?_⟩
    · rintro ⟨p, hp, group, hgroup, ha⟩
      have hne : merged ≠ p := fun heq => hnot (heq.symm ▸ hp)
      rw [hget, if_neg hne] at hgroup
      exact ⟨group, ⟨p, hgroup⟩, (hinv.mem_hits hgroup grouping).mp ((Finset.mem_sort _).mp hp), ha⟩
    · rintro ⟨group, ⟨p, hgroup⟩, hmeet, ha⟩
      refine ⟨p, (Finset.mem_sort _).mpr ((hinv.mem_hits hgroup grouping).mpr hmeet), group, ?_, ha⟩
      rw [hget, if_neg, hgroup]
      rintro rfl
      rw [hnone] at hgroup
      cases hgroup
  let g' : Groupings α := { g₂ with
    uniqueGroupings := insert merged g₂.uniqueGroupings
    setmap := target.sort.foldl
      (fun setmap element => Function.update setmap element (some merged)) g₂.setmap }
  have hsetmap : ∀ a, g'.setmap a = if a ∈ target then some merged else g.setmap a := by
    intro a
    change target.sort.foldl _ g₂.setmap a = _
    rw [foldl_update, h.setmap]
    simp only [Finset.mem_sort]
    rfl
  refine ⟨g', ?_, ?_, fun a p => ?_, ?_⟩
  · rw [Groupings.mergeGrouping, hmerged]
    change ((g.hits grouping).sort.foldlM (absorb merged) g₁ >>= fun g => _) = _
    rw [hfold]
    change (g₂.heap[merged]? >>= fun group => _) = _
    rw [h.result]
    rfl
  · intro p
    change p ∈ insert merged g₂.uniqueGroupings ↔ p ∈ g₂.heap
    rw [Finset.mem_insert, h.unique, Finset.mem_sort, Std.ExtTreeMap.mem_iff_isSome_getElem?]
    by_cases hp : p = merged
    · rw [hp, h.result]
      exact iff_of_true (.inl rfl) rfl
    · rw [hheap p hp]
      change p = merged ∨ p ∈ g.uniqueGroupings ∧ p ∉ g.hits grouping ↔ _
      rw [hinv.live, Std.ExtTreeMap.mem_iff_isSome_getElem?]
      by_cases hhit : p ∈ g.hits grouping <;> simp [hp, hhit]
  · rw [hsetmap]
    change _ ↔ ∃ group, g₂.heap[p]? = some group ∧ a ∈ group
    by_cases hp : p = merged
    · rw [hp, h.result]
      by_cases ha : a ∈ target
      · simp [ha]
      · rw [if_neg ha, hinv.index, hnone]
        simp [ha]
    rw [hheap p hp]
    by_cases hhit : p ∈ g.hits grouping
    · obtain ⟨group, hgroup⟩ := hhits p hhit
      rw [if_pos hhit]
      refine iff_of_false (fun hsome => ?_) nofun
      split at hsome
      · exact hp (Option.some.inj hsome).symm
      · rename_i ha
        obtain ⟨group', hgroup', ha'⟩ := (hinv.index a p).mp hsome
        exact ha ((hmem a).mpr (.inr ⟨group', ⟨p, hgroup'⟩,
          (hinv.mem_hits hgroup' grouping).mp hhit, ha'⟩))
    · rw [if_neg hhit]
      by_cases ha : a ∈ target
      · rw [if_pos ha]
        refine iff_of_false (fun hsome => hp (Option.some.inj hsome).symm) ?_
        -- a group that has an address of the new one was hit
        rintro ⟨group, hgroup, ha'⟩
        refine hhit ((hinv.mem_hits hgroup grouping).mpr ?_)
        rcases (hmem a).mp ha with ha | ⟨group', hgroup', hmeet, ha''⟩
        · exact ⟨a, ha, ha'⟩
        · rwa [hinv.components.disjoint group ⟨p, hgroup⟩ group' hgroup' a ha' ha'']
      · rw [if_neg ha, hinv.index]
  · have hgroups : g'.groups = replaced g.groups grouping target := by
      ext group
      constructor
      · rintro ⟨p, hp⟩
        change g₂.heap[p]? = some group at hp
        by_cases hne : p = merged
        · rw [hne, h.result, Option.some.injEq] at hp
          exact .inl hp.symm
        · rw [hheap p hne] at hp
          split at hp
          · cases hp
          · rename_i hhit
            rw [hinv.mem_hits hp] at hhit
            exact .inr ⟨⟨p, hp⟩, fun a ha hag => hhit ⟨a, ha, hag⟩⟩
      · rintro (rfl | ⟨⟨p, hp⟩, hnone'⟩)
        · exact ⟨merged, h.result⟩
        · refine ⟨p, ?_⟩
          change g₂.heap[p]? = some group
          rw [hheap p, if_neg, hp]
          · rw [hinv.mem_hits hp]
            exact fun ⟨a, ha, hag⟩ => hnone' a ha hag
          · rintro rfl
            rw [hnone] at hp
            cases hp
    rw [hgroups]
    exact hinv.components.insert hmem

/-- The loop over groupings. -/
theorem Inv.foldlM (allocator : Allocator α) : ∀ (groupings : List (Finset α))
    {family : Set (Finset α)} {g : Groupings α}, Inv family g → ∃ g',
      groupings.foldlM (Groupings.mergeGrouping allocator) g = some g' ∧
        Inv {s | s ∈ family ∨ s ∈ groupings} g'
  | [], family, g, hinv => ⟨g, rfl, by simpa using hinv⟩
  | grouping :: groupings, family, g, hinv => by
    obtain ⟨g₁, hmerge, hinv₁⟩ := hinv.mergeGrouping allocator grouping
    obtain ⟨g', hfold, hinv'⟩ := hinv₁.foldlM allocator groupings
    refine ⟨g', ?_, ?_⟩
    · rw [List.foldlM_cons, hmerge]
      exact hfold
    · have hfamily : {s | s ∈ family ∨ s ∈ grouping :: groupings} =
          {s | s ∈ insert grouping family ∨ s ∈ groupings} := by
        ext s
        simp only [Set.mem_ofPred_eq, List.mem_cons, Set.mem_insert_iff]
        tauto
      rw [hfamily]
      exact hinv'

/-- The loop that returns the groups of some pointers. -/
theorem moveOut_foldlM : ∀ {pointers : List Pointer} (ret : Finset (Finset α)) {heap : Heap α},
    pointers.Nodup → (∀ p ∈ pointers, p ∈ heap) → ∃ ret' heap',
      pointers.foldlM moveOut (ret, heap) = some (ret', heap') ∧
      (∀ group, group ∈ ret' ↔ group ∈ ret ∨ ∃ p ∈ pointers, heap[p]? = some group) ∧
      ∀ p : Pointer, heap'[p]? = if p ∈ pointers then none else heap[p]?
  | [], ret, heap, _, _ => ⟨ret, heap, rfl, by simp, by simp⟩
  | p :: pointers, ret, heap, hnodup, hlive => by
    rw [List.nodup_cons] at hnodup
    rw [List.forall_mem_cons] at hlive
    obtain ⟨group, hgroup⟩ := Option.isSome_iff_exists.mp
      (Std.ExtTreeMap.mem_iff_isSome_getElem?.mp hlive.1)
    have hget : ∀ q : Pointer, (heap.erase p)[q]? = if p = q then none else heap[q]? := by
      intro q
      rw [Std.ExtTreeMap.getElem?_erase]
      simp only [Std.LawfulEqOrd.compare_eq_iff_eq]
    have hsame : ∀ q ∈ pointers, (heap.erase p)[q]? = heap[q]? := by
      intro q hq
      rw [hget, if_neg]
      rintro rfl
      exact hnodup.1 hq
    have hlive₁ : ∀ q ∈ pointers, q ∈ heap.erase p := by
      intro q hq
      rw [Std.ExtTreeMap.mem_iff_isSome_getElem?, hsame q hq]
      exact Std.ExtTreeMap.mem_iff_isSome_getElem?.mp (hlive.2 q hq)
    obtain ⟨ret', heap', hfold, hmem, hheap⟩ :=
      moveOut_foldlM (insert group ret) hnodup.2 hlive₁
    refine ⟨ret', heap', ?_, fun group' => ?_, fun q => ?_⟩
    · rw [List.foldlM_cons, moveOut, hgroup]
      exact hfold
    · rw [hmem, Finset.mem_insert, List.exists_mem_cons_iff, hgroup, Option.some.injEq, or_assoc,
        or_left_comm, eq_comm]
      refine or_congr_right (or_congr_right (exists_congr fun q => and_congr_right fun hq => ?_))
      rw [hsame q hq]
    · rw [hheap, hget]
      by_cases hq : p = q
      · simp [hq]
      · simp [hq, Ne.symm hq]

/-- The groups that are returned, and nothing is left in memory. -/
theorem Inv.ret {family : Set (Finset α)} {g : Groupings α} (hinv : Inv family g) :
    ∃ ret, g.ret = some (ret, ∅) ∧ ∀ group, group ∈ ret ↔ group ∈ g.groups := by
  have hlive : ∀ p ∈ g.uniqueGroupings.sort, p ∈ g.heap := fun p hp =>
    (hinv.live p).mp ((Finset.mem_sort _).mp hp)
  obtain ⟨ret, heap, hfold, hmem, hheap⟩ :=
    moveOut_foldlM ∅ (Finset.sort_nodup g.uniqueGroupings _) hlive
  have hempty : heap = ∅ := by
    refine Std.ExtTreeMap.ext_getElem? fun p => ?_
    rw [hheap, Std.ExtTreeMap.getElem?_empty]
    split
    · rfl
    · rename_i hp
      rw [Finset.mem_sort, hinv.live] at hp
      exact Std.ExtTreeMap.getElem?_eq_none hp
  refine ⟨ret, ?_, fun group => ?_⟩
  · rw [← hempty]
    exact hfold
  · rw [hmem]
    constructor
    · rintro (h | ⟨p, -, hp⟩)
      · exact absurd h (Finset.notMem_empty group)
      · exact ⟨p, hp⟩
    · rintro ⟨p, hp⟩
      refine .inr ⟨p, ?_, hp⟩
      rw [Finset.mem_sort, hinv.live, Std.ExtTreeMap.mem_iff_isSome_getElem?, hp]
      rfl

end Groupings

/-- The groups are returned whatever the groupings are. -/
theorem mergeGroupings_inv (allocator : Allocator α) (groupings : List (Finset α)) :
    ∃ g ret, mergeGroupings allocator groupings = some g ∧
      Groupings.Inv {grouping | grouping ∈ groupings} g ∧ g.ret = some (ret, ∅) ∧
      ∀ group, group ∈ ret ↔ group ∈ g.groups := by
  obtain ⟨g, hmerge, hinv⟩ := Groupings.inv_start.foldlM allocator groupings
  have hfamily : {s | s ∈ (∅ : Set (Finset α)) ∨ s ∈ groupings} = {s | s ∈ groupings} := by
    ext s
    simp
  rw [hfamily] at hinv
  obtain ⟨ret, hret, hmem⟩ := hinv.ret
  exact ⟨g, ret, hmerge, hinv, hret, hmem⟩

end Merge

/-! ## The groupings of a wallet -/

/-- The order of a `boost::variant` : by its type, then by its content. -/
def CTxDestination.key : CTxDestination → ℕ ×ₗ ℕ
  | .noDestination => toLex (0, 0)
  | .keyID id => toLex (1, id.toNat)
  | .scriptID id => toLex (2, id.toNat)

theorem CTxDestination.key_injective : Function.Injective CTxDestination.key := by
  intro a b h
  cases a <;> cases b <;> simp_all [CTxDestination.key, BitVec.toNat_inj]

instance : LinearOrder CTxDestination :=
  LinearOrder.lift' CTxDestination.key CTxDestination.key_injective

namespace WalletView

variable (hash160 : Bytes → UInt160) (s : WalletView)

/-- `IsMine` of an input. -/
def isMineIn (txin : CTxIn) : Bool := (s.prevOut txin).any (s.isMineOut hash160)

/-- The destination of the output that an input spends. -/
def inputDestination (txin : CTxIn) : Option CTxDestination :=
  (s.prevOut txin).bind fun txout => extractDestination hash160 txout.scriptPubKey

/-- All input addresses of a transaction, and its change if there are any. -/
def inputGrouping (pcoin : CWalletTx) : Finset CTxDestination :=
  let grouping := pcoin.vin.foldl (fun (grouping : Finset CTxDestination) txin =>
    -- if this input isn't mine, ignore it
    if !s.isMineIn hash160 txin then grouping
    else
      match s.inputDestination hash160 txin with
      | none => grouping
      | some address => insert address grouping) ∅
  if grouping = ∅ then ∅
  else pcoin.vout.foldl (fun grouping txout =>
    if s.isChange hash160 txout then
      match extractDestination hash160 txout.scriptPubKey with
      | none => grouping
      | some txoutAddr => insert txoutAddr grouping
    else grouping) grouping

/-- Lone addresses by themselves. -/
def loneGroupings (pcoin : CWalletTx) : List (Finset CTxDestination) :=
  pcoin.vout.filterMap fun txout =>
    if s.isMineOut hash160 txout then
      (extractDestination hash160 txout.scriptPubKey).map fun address => {address}
    else none

/-- `groupings`, in their order. -/
def groupings : List (Finset CTxDestination) :=
  let sets := (s.wallet.mapWallet.toList.map Prod.snd).flatMap fun pcoin =>
    (if s.inputGrouping hash160 pcoin = ∅ then [] else [s.inputGrouping hash160 pcoin]) ++
      s.loneGroupings hash160 pcoin
  sets.dedup.insertionSort fun a b => a.sort ≤ b.sort

/-- `GetAddressGroupings`, with what is left in memory. -/
def getAddressGroupings (allocator : Allocator CTxDestination) :
    Option (Finset (Finset CTxDestination) × Heap CTxDestination) :=
  (mergeGroupings allocator (s.groupings hash160)).bind Groupings.ret

variable {hash160 s}

/-- No grouping is empty. -/
theorem ne_empty_of_mem_groupings {grouping : Finset CTxDestination}
    (h : grouping ∈ s.groupings hash160) : grouping ≠ ∅ := by
  unfold groupings at h
  rw [List.mem_insertionSort, List.mem_dedup, List.mem_flatMap] at h
  obtain ⟨pcoin, -, h⟩ := h
  rcases List.mem_append.mp h with h | h
  · split at h
    · cases h
    · rename_i hne
      rwa [List.mem_singleton.mp h]
  · unfold loneGroupings at h
    obtain ⟨txout, -, h⟩ := List.mem_filterMap.mp h
    split at h
    · obtain ⟨address, -, rfl⟩ := Option.map_eq_some_iff.mp h
      exact Finset.singleton_ne_empty address
    · cases h

/-- The groups of the wallet are the components of its groupings, and nothing is left in memory. -/
theorem getAddressGroupings_eq (allocator : Allocator CTxDestination) : ∃ ret,
    s.getAddressGroupings hash160 allocator = some (ret, ∅) ∧
      Components {grouping | grouping ∈ s.groupings hash160} {group | group ∈ ret} := by
  obtain ⟨g, ret, hmerge, hinv, hret, hmem⟩ :=
    mergeGroupings_inv allocator (s.groupings hash160)
  refine ⟨ret, ?_, ?_⟩
  · rw [getAddressGroupings, hmerge]
    exact hret
  · have hgroups : {group | group ∈ ret} = g.groups := Set.ext hmem
    rw [hgroups]
    exact hinv.components

end WalletView

end Ticoin
