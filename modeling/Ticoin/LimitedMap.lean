import Mathlib.Data.List.Sort
import Ticoin.Lib.Table

/-!
# limitedmap.h : a map of limited size

`limitedmap` has its elements in `map`, and in `rmap` ordered by their values. An element that makes
`map` as large as `nMaxSize` has the first of `rmap` dropped, where it is not itself yet.

The two containers have the same elements after every sequence of calls, unless a map of one element
drops the first of an empty `rmap` (`Paired.step`). But an element is dropped for the last place
too, so that a map for `N` elements has `N - 1` at most (`Paired.size_lt`), and it keeps the highest
of what was inserted only as long as these are fewer (`keepsHighest_iff`).
-/

set_option linter.unusedSectionVars false

namespace Ticoin

variable {K V : Type}

/-- The map ; an iterator of `map` is the key of its element, and `rmap` is in the order of its
values. -/
structure LimitedMap (K V : Type) [Ord K] where
  map : Std.ExtTreeMap K V
  rmap : List (V × K)
  nMaxSize : ℕ

namespace LimitedMap

variable [Ord K] [Std.TransOrd K] [Std.LawfulEqOrd K] [DecidableEq K] [LinearOrder V]

def new (nMaxSizeIn : ℕ) : LimitedMap K V := ⟨∅, [], nMaxSizeIn⟩

/-- `multimap::insert`, after the elements with the same value. -/
def insertValue (v : V) (k : K) (rmap : List (V × K)) : List (V × K) :=
  rmap.orderedInsert (fun a b => a.1 < b.1) (v, k)

/-- The element of the lowest value is dropped. There is no first element of an empty multimap. -/
def dropLowest (map : Std.ExtTreeMap K V) :
    List (V × K) → Option (Std.ExtTreeMap K V × List (V × K))
  | [] => none
  | (_, k) :: rmap => if map.contains k then some (map.erase k, rmap) else none

/-- `insert`. -/
def insert (k : K) (v : V) (s : LimitedMap K V) : Option (LimitedMap K V) :=
  if s.map.contains k then some s
  else do
    let map := s.map.insert k v
    let (map, rmap) ← (if s.nMaxSize ≠ 0 ∧ map.size = s.nMaxSize then dropLowest map s.rmap
      else some (map, s.rmap))
    return { s with map := map, rmap := insertValue v k rmap }

/-- `erase`, with the assertion that the element is in the range of its value. -/
def erase (k : K) (s : LimitedMap K V) : Option (LimitedMap K V) :=
  match s.map[k]? with
  | none => some s
  | some v =>
    if (v, k) ∈ s.rmap then some { s with map := s.map.erase k, rmap := s.rmap.erase (v, k) }
    else none

/-- `update`. -/
def update (k : K) (v : V) (s : LimitedMap K V) : Option (LimitedMap K V) :=
  match s.map[k]? with
  | none => some s
  | some old =>
    if (old, k) ∈ s.rmap then some { s with
      map := s.map.insert k v
      rmap := insertValue v k (s.rmap.erase (old, k)) }
    else none

/-- A call. -/
inductive Call (K V : Type)
  | insert (k : K) (v : V)
  | update (k : K) (v : V)
  | erase (k : K)

def Call.apply (s : LimitedMap K V) : Call K V → Option (LimitedMap K V)
  | .insert k v => s.insert k v
  | .update k v => s.update k v
  | .erase k => s.erase k

def Call.isInsert : Call K V → Bool
  | .insert .. => true
  | _ => false

/-- Calls on a new map. -/
def run (nMaxSize : ℕ) (calls : List (Call K V)) : Option (LimitedMap K V) :=
  calls.foldlM Call.apply (new nMaxSize)

/-! ## The two containers -/

/-- `rmap` has one entry for each element of `map`, in order. -/
structure Paired (s : LimitedMap K V) : Prop where
  nodup : s.rmap.Nodup
  mem : ∀ v k, (v, k) ∈ s.rmap ↔ s.map[k]? = some v
  sorted : s.rmap.Pairwise fun a b => a.1 ≤ b.1

theorem perm_insertValue (v : V) (k : K) (rmap : List (V × K)) :
    (insertValue v k rmap).Perm ((v, k) :: rmap) := List.perm_orderedInsert _ _ _

theorem sorted_insertValue (v : V) (k : K) : ∀ {rmap : List (V × K)},
    rmap.Pairwise (fun a b => a.1 ≤ b.1) → (insertValue v k rmap).Pairwise fun a b => a.1 ≤ b.1
  | [], _ => List.pairwise_singleton _ _
  | item :: rmap, h => by
    rw [List.pairwise_cons] at h
    unfold insertValue
    rw [List.orderedInsert_cons]
    split
    · rename_i hlt
      refine List.pairwise_cons.mpr ⟨fun a ha => ?_, List.pairwise_cons.mpr h⟩
      rcases List.mem_cons.mp ha with rfl | ha
      · exact hlt.le
      · exact hlt.le.trans (h.1 a ha)
    · rename_i hlt
      refine List.pairwise_cons.mpr ⟨fun a ha => ?_, sorted_insertValue v k h.2⟩
      rcases List.mem_cons.mp ((perm_insertValue v k rmap).mem_iff.mp ha) with rfl | ha
      · exact not_lt.mp hlt
      · exact h.1 a ha

theorem getElem?_insert_iff {map : Std.ExtTreeMap K V} {k i : K} {v w : V} :
    (map.insert k v)[i]? = some w ↔ i = k ∧ v = w ∨ i ≠ k ∧ map[i]? = some w := by
  by_cases h : i = k
  · subst h
    simp
  · simp [Table.getElem?_insert_of_ne h, h]

theorem getElem?_erase_iff {map : Std.ExtTreeMap K V} {k i : K} {w : V} :
    (map.erase k)[i]? = some w ↔ i ≠ k ∧ map[i]? = some w := by
  by_cases h : i = k
  · subst h
    simp
  · simp [Table.getElem?_erase_of_ne h, h]

namespace Paired

variable {s : LimitedMap K V}

/-- A value of an element is in `rmap` with no other. -/
theorem eq_of_mem (h : Paired s) {k : K} {v w : V} (hv : (v, k) ∈ s.rmap) (hw : (w, k) ∈ s.rmap) :
    v = w :=
  Option.some.inj (((h.mem v k).mp hv).symm.trans ((h.mem w k).mp hw))

theorem length_rmap (h : Paired s) : s.rmap.length = s.map.size := by
  have hperm : (s.rmap.map Prod.swap).Perm s.map.toList := by
    refine (List.perm_ext_iff_of_nodup (h.nodup.map Prod.swap_injective) ?_).mpr fun item => ?_
    · refine (Std.ExtTreeMap.distinct_keys_toList (t := s.map)).imp ?_
      intro a b hne heq
      rw [heq] at hne
      exact hne Std.ReflCmp.compare_self
    · rw [Std.ExtTreeMap.mem_toList_iff_getElem?_eq_some, ← h.mem, List.mem_map]
      exact ⟨fun ⟨_, hmem, heq⟩ => heq ▸ hmem, fun hmem => ⟨_, hmem, Prod.swap_swap item⟩⟩
  rw [← Std.ExtTreeMap.length_toList, ← hperm.length_eq, List.length_map]

/-- An element without an entry gets one. -/
theorem put {map map' : Std.ExtTreeMap K V} {rmap : List (V × K)} {n : ℕ} {k : K} {v : V}
    (h : Paired ⟨map, rmap, n⟩) (hk : map[k]? = none)
    (hmap : ∀ i w, map'[i]? = some w ↔ i = k ∧ v = w ∨ i ≠ k ∧ map[i]? = some w) :
    Paired ⟨map', insertValue v k rmap, n⟩ where
  nodup := by
    refine (perm_insertValue v k rmap).nodup_iff.mpr (List.nodup_cons.mpr ⟨fun hmem => ?_, h.nodup⟩)
    rw [h.mem, hk] at hmem
    cases hmem
  mem w i := by
    rw [(perm_insertValue v k rmap).mem_iff, List.mem_cons, Prod.mk.injEq, h.mem, hmap]
    constructor
    · rintro (⟨rfl, rfl⟩ | hget)
      · exact .inl ⟨rfl, rfl⟩
      · refine .inr ⟨fun heq => ?_, hget⟩
        rw [heq, hk] at hget
        cases hget
    · rintro (⟨rfl, rfl⟩ | ⟨-, hget⟩)
      · exact .inl ⟨rfl, rfl⟩
      · exact .inr hget
  sorted := sorted_insertValue v k h.sorted

/-- An element is dropped with its entry. -/
theorem drop (h : Paired s) {k : K} {v : V} (hmem : (v, k) ∈ s.rmap) :
    Paired { s with map := s.map.erase k, rmap := s.rmap.erase (v, k) } where
  nodup := h.nodup.erase _
  mem w i := by
    rw [h.nodup.mem_erase_iff, getElem?_erase_iff, h.mem]
    refine and_congr_left fun hget => ?_
    refine not_congr ⟨fun heq => (Prod.mk.inj heq).2, fun heq => ?_⟩
    subst heq
    rw [h.eq_of_mem ((h.mem w i).mpr hget) hmem]
  sorted := h.sorted.sublist List.erase_sublist

variable (hsize : s.map.size < s.nMaxSize)
include hsize

/-- An insertion keeps the containers together if there is place for another element. -/
theorem insert (h : Paired s) (hmax : 2 ≤ s.nMaxSize) (k : K) (v : V) : ∃ s',
    s.insert k v = some s' ∧ Paired s' ∧ s'.nMaxSize = s.nMaxSize ∧ s'.map.size < s'.nMaxSize := by
  unfold LimitedMap.insert
  split
  · exact ⟨s, rfl, h, rfl, hsize⟩
  · rename_i hnew
    have hk : s.map[k]? = none := by simpa using hnew
    have hsizeIns : (s.map.insert k v).size = s.map.size + 1 := by
      rw [Std.ExtTreeMap.size_insert, if_neg (by simpa using hnew)]
    dsimp only
    split
    · rename_i hfull
      rw [hsizeIns] at hfull
      -- there is an element to drop, since there is place for two
      cases hrmap : s.rmap with
      | nil =>
        have hlen := h.length_rmap
        rw [hrmap, List.length_nil] at hlen
        omega
      | cons item rmap =>
        obtain ⟨w, i⟩ := item
        have hmem : (w, i) ∈ s.rmap := hrmap ▸ List.mem_cons_self
        have hget := (h.mem w i).mp hmem
        have hi : i ≠ k := fun heq => by
          rw [heq, hk] at hget
          cases hget
        have hcontains : (s.map.insert k v).contains i = true := by
          rw [Std.ExtTreeMap.contains_eq_isSome_getElem?, Table.getElem?_insert_of_ne hi, hget]
          rfl
        have hdrop := h.drop hmem
        rw [hrmap, List.erase_cons_head] at hdrop
        unfold dropLowest
        dsimp only
        rw [if_pos hcontains]
        refine ⟨_, rfl, hdrop.put ((Table.getElem?_erase_of_ne hi.symm).trans hk) ?_, rfl, ?_⟩
        · intro j u
          rw [getElem?_erase_iff, getElem?_insert_iff, getElem?_erase_iff]
          constructor
          · rintro ⟨hj, ⟨rfl, rfl⟩ | ⟨hne, hu⟩⟩
            · exact .inl ⟨rfl, rfl⟩
            · exact .inr ⟨hne, hj, hu⟩
          · rintro (⟨rfl, rfl⟩ | ⟨hne, hj, hu⟩)
            · exact ⟨hi.symm, .inl ⟨rfl, rfl⟩⟩
            · exact ⟨hj, .inr ⟨hne, hu⟩⟩
        · dsimp only
          rw [Std.ExtTreeMap.size_erase, if_pos hcontains, hsizeIns]
          omega
    · rename_i hplace
      refine ⟨_, rfl, h.put hk fun i w => getElem?_insert_iff, rfl, ?_⟩
      dsimp only
      rw [hsizeIns] at hplace ⊢
      omega

omit hsize in
theorem apply_of_isInsert_eq_false (h : Paired s) {call : Call K V}
    (hcall : call.isInsert = false) :
    ∃ s', call.apply s = some s' ∧ Paired s' ∧ s'.nMaxSize = s.nMaxSize ∧
      s'.map.size ≤ s.map.size := by
  cases call with
  | insert k v => cases hcall
  | update k v =>
    change ∃ s', s.update k v = some s' ∧ _
    unfold LimitedMap.update
    cases hget : s.map[k]? with
    | none => exact ⟨s, rfl, h, rfl, le_rfl⟩
    | some old =>
      have hmem := (h.mem old k).mpr hget
      dsimp only
      rw [if_pos hmem]
      refine ⟨_, rfl, (h.drop hmem).put (by simp) fun i w => ?_, rfl, ?_⟩
      · rw [getElem?_insert_iff, getElem?_erase_iff]
        tauto
      · dsimp only
        rw [Std.ExtTreeMap.size_insert, if_pos]
        rw [Std.ExtTreeMap.contains_eq_isSome_getElem?, hget]
        rfl
  | erase k =>
    change ∃ s', s.erase k = some s' ∧ _
    unfold LimitedMap.erase
    cases hget : s.map[k]? with
    | none => exact ⟨s, rfl, h, rfl, le_rfl⟩
    | some v =>
      have hmem := (h.mem v k).mpr hget
      dsimp only
      rw [if_pos hmem]
      exact ⟨_, rfl, h.drop hmem, rfl, Std.ExtTreeMap.size_erase_le⟩

/-- What a call keeps. -/
theorem step (h : Paired s) (hmax : 2 ≤ s.nMaxSize) (call : Call K V) : ∃ s',
    call.apply s = some s' ∧ Paired s' ∧ s'.nMaxSize = s.nMaxSize ∧ s'.map.size < s'.nMaxSize := by
  cases hcall : call.isInsert with
  | true =>
    cases call with
    | insert k v => exact h.insert hsize hmax k v
    | update k v => cases hcall
    | erase k => cases hcall
  | false =>
    obtain ⟨s', happly, h', hmax', hle⟩ := h.apply_of_isInsert_eq_false hcall
    exact ⟨s', happly, h', hmax', hmax' ▸ hle.trans_lt hsize⟩

omit hsize in
/-- What a run keeps. -/
theorem run : ∀ {s : LimitedMap K V}, Paired s → 2 ≤ s.nMaxSize → s.map.size < s.nMaxSize →
    ∀ calls : List (Call K V), ∃ s', calls.foldlM Call.apply s = some s' ∧ Paired s' ∧
      s'.map.size < s.nMaxSize
  | s, h, _, hsize, [] => ⟨s, rfl, h, hsize⟩
  | s, h, hmax, hsize, call :: calls => by
    obtain ⟨s₁, happly, h₁, hmax₁, hsize₁⟩ := h.step hsize hmax call
    obtain ⟨s', hrun, h', hsize'⟩ := run h₁ (hmax₁ ▸ hmax) hsize₁ calls
    refine ⟨s', ?_, h', hmax₁ ▸ hsize'⟩
    rw [List.foldlM_cons, happly]
    exact hrun

end Paired

theorem paired_new (nMaxSize : ℕ) : Paired (new nMaxSize : LimitedMap K V) where
  nodup := List.nodup_nil
  mem v k := by simp [new]
  sorted := List.Pairwise.nil

/-- A map for two elements or more never has as many as it may have. -/
theorem run_paired {nMaxSize : ℕ} (hmax : 2 ≤ nMaxSize) (calls : List (Call K V)) : ∃ s,
    run nMaxSize calls = some s ∧ Paired s ∧ s.map.size < nMaxSize :=
  (paired_new nMaxSize).run hmax (by simp [new]; omega) calls

/-! ## The highest values -/

def inserts (items : List (K × V)) : List (Call K V) := items.map fun item => .insert item.1 item.2

/-- The map has as many of the elements that were inserted as it may have, and none that it has not
is higher. -/
structure Highest (nMaxSize : ℕ) (items : List (K × V)) (s : LimitedMap K V) : Prop where
  mem : ∀ (k : K) (v : V), s.map[k]? = some v → (k, v) ∈ items
  size : s.map.size = min nMaxSize items.length
  highest : ∀ (k : K) (v : V), s.map[k]? = some v →
    ∀ item ∈ items, s.map[item.1]? = none → item.2 ≤ v

/-- A run does not fail, the containers stay together, and insertions of different keys leave the
highest. -/
def KeepsHighest (nMaxSize : ℕ) (calls : List (Call K V)) : Prop :=
  ∃ s, run nMaxSize calls = some s ∧ Paired s ∧ ∀ items, calls = inserts items →
    (items.map Prod.fst).Nodup → Highest nMaxSize items s

/-- Nothing is dropped while there are fewer elements than there may be. -/
theorem Paired.inserts : ∀ {items : List (K × V)} {s : LimitedMap K V}, Paired s →
    (items.map Prod.fst).Nodup → (∀ item ∈ items, s.map[item.1]? = none) →
    s.map.size + items.length < s.nMaxSize → ∃ s',
      (LimitedMap.inserts items).foldlM Call.apply s = some s' ∧ Paired s' ∧
      s'.map.size = s.map.size + items.length ∧
      ∀ (k : K) (v : V), s'.map[k]? = some v ↔ (k, v) ∈ items ∨ s.map[k]? = some v
  | [], s, h, _, _, _ => ⟨s, rfl, h, rfl, by simp⟩
  | (k, v) :: items, s, h, hnodup, hnew, hlt => by
    rw [List.map_cons, List.nodup_cons] at hnodup
    rw [List.forall_mem_cons] at hnew
    rw [List.length_cons] at hlt
    have hk : ¬s.map.contains k = true := by simpa using hnew.1
    have hsize : (s.map.insert k v).size = s.map.size + 1 := by
      rw [Std.ExtTreeMap.size_insert, if_neg hk]
    have hput : Paired ⟨s.map.insert k v, insertValue v k s.rmap, s.nMaxSize⟩ :=
      h.put hnew.1 fun i w => getElem?_insert_iff
    obtain ⟨s', hrun, h', hsize', hget⟩ := hput.inserts hnodup.2
      (fun item hmem => by
        have hne : item.1 ≠ k := by
          rintro rfl
          exact hnodup.1 (List.mem_map.mpr ⟨item, hmem, rfl⟩)
        exact (Table.getElem?_insert_of_ne hne).trans (hnew.2 item hmem))
      (by
        dsimp only
        rw [hsize]
        omega)
    refine ⟨s', ?_, h', ?_, fun i w => ?_⟩
    · have happly : s.insert k v =
          some { s with map := s.map.insert k v, rmap := insertValue v k s.rmap } := by
        unfold LimitedMap.insert
        rw [if_neg hk]
        dsimp only
        rw [if_neg (by rw [hsize]; omega)]
        rfl
      change (s.insert k v >>= fun s => (LimitedMap.inserts items).foldlM Call.apply s) = _
      rw [happly]
      exact hrun
    · rw [hsize', List.length_cons]
      dsimp only
      rw [hsize]
      omega
    · rw [hget]
      dsimp only
      rw [getElem?_insert_iff, List.mem_cons, Prod.mk.injEq]
      constructor
      · rintro (hmem | ⟨rfl, rfl⟩ | ⟨-, hw⟩)
        · exact .inl (.inr hmem)
        · exact .inl (.inl ⟨rfl, rfl⟩)
        · exact .inr hw
      · rintro ((⟨rfl, rfl⟩ | hmem) | hw)
        · exact .inr (.inl ⟨rfl, rfl⟩)
        · exact .inl hmem
        · refine .inr (.inr ⟨fun heq => ?_, hw⟩)
          rw [heq, hnew.1] at hw
          cases hw

/-- A map for one element fails at the first insertion, and is empty before. -/
theorem run_one : ∀ calls : List (Call K V),
    run 1 calls = if calls.any Call.isInsert then none else some (new 1)
  | [] => rfl
  | call :: calls => by
    have hstart : call.apply (new 1) = if call.isInsert then none else some (new 1) := by
      cases call with
      | insert k v =>
        have hsize : ((∅ : Std.ExtTreeMap K V).insert k v).size = 1 := by
          rw [Std.ExtTreeMap.size_insert]
          simp
        simp [Call.apply, insert, new, Call.isInsert, dropLowest, hsize]
      | update k v => simp [Call.apply, update, new, Call.isInsert]
      | erase k => simp [Call.apply, erase, new, Call.isInsert]
    have ih := run_one calls
    unfold run at ih ⊢
    rw [List.foldlM_cons, hstart, List.any_cons]
    cases call.isInsert with
    | true => rfl
    | false => simpa using ih

/-- The map keeps the highest exactly as long as there are fewer elements than it may have ; a map
for one element must not be inserted into. -/
theorem keepsHighest_iff {nMaxSize : ℕ} (hmax : 1 ≤ nMaxSize) (calls : List (Call K V)) :
    KeepsHighest nMaxSize calls ↔ (nMaxSize = 1 → ∀ call ∈ calls, call.isInsert = false) ∧
      ∀ items, calls = inserts items → (items.map Prod.fst).Nodup → items.length < nMaxSize := by
  constructor
  · rintro ⟨s, hrun, hpaired, hhighest⟩
    have hone : nMaxSize = 1 → ∀ call ∈ calls, call.isInsert = false := by
      rintro rfl
      rw [run_one] at hrun
      split at hrun
      · cases hrun
      · rename_i hany
        simpa using hany
    refine ⟨hone, fun items hcalls hnodup => ?_⟩
    have hsize := (hhighest items hcalls hnodup).size
    rcases hmax.eq_or_lt with rfl | htwo
    · -- nothing was inserted
      have hnone := hone rfl
      rw [hcalls] at hnone
      cases items with
      | nil => exact hmax
      | cons item items => exact absurd (hnone _ List.mem_cons_self) nofun
    · obtain ⟨s', hrun', -, hlt⟩ := run_paired htwo calls
      rw [hrun] at hrun'
      cases hrun'
      rw [hsize] at hlt
      omega
  · rintro ⟨hone, hfew⟩
    have hrun : ∃ s, run nMaxSize calls = some s ∧ Paired s := by
      rcases hmax.eq_or_lt with rfl | htwo
      · refine ⟨new 1, ?_, paired_new 1⟩
        rw [run_one, if_neg]
        simpa using hone rfl
      · obtain ⟨s, hrun, hpaired, -⟩ := run_paired htwo calls
        exact ⟨s, hrun, hpaired⟩
    obtain ⟨s, hrun, hpaired⟩ := hrun
    refine ⟨s, hrun, hpaired, fun items hcalls hnodup => ?_⟩
    obtain ⟨s', hrun', -, hsize, hget⟩ := (paired_new nMaxSize).inserts hnodup (by simp [new])
      (by simpa [new] using hfew items hcalls hnodup)
    rw [hcalls] at hrun
    obtain rfl : s' = s := Option.some.inj (hrun'.symm.trans hrun)
    have hmem : ∀ (k : K) (v : V), s'.map[k]? = some v ↔ (k, v) ∈ items := by
      intro k v
      rw [hget]
      simp [new]
    refine ⟨fun k v hkv => (hmem k v).mp hkv, ?_, fun k v _ item hitem hnone => ?_⟩
    · rw [hsize, min_eq_right (hfew items hcalls hnodup).le]
      simp [new]
    · rw [(hmem item.1 item.2).mpr hitem] at hnone
      cases hnone

theorem keepsHighest_three : (1 ≤ 3) ∧ KeepsHighest 3 (inserts [((0 : ℕ), (7 : ℕ)), (1, 5)]) :=
  ⟨by decide, (keepsHighest_iff (by decide) _).mpr ⟨by decide, fun items hcalls _ => by
    have hlen := congrArg List.length hcalls
    unfold inserts at hlen
    rw [List.length_map, List.length_map] at hlen
    exact hlen ▸ by decide⟩⟩

/-- A map for one element fails at the first insertion, for there is nothing to drop, and a map for
two has one element after two insertions, the lower. -/
theorem not_keepsHighest : run 1 (inserts [((0 : ℕ), (7 : ℕ))]) = none ∧
    ¬KeepsHighest 1 (inserts [((0 : ℕ), (7 : ℕ))]) ∧
    ¬KeepsHighest 2 (inserts [((0 : ℕ), (7 : ℕ)), (1, 5)]) := by
  have hone : run 1 (inserts [((0 : ℕ), (7 : ℕ))]) = none := by decide
  refine ⟨hone, ?_, ?_⟩
  · rintro ⟨s, hrun, -⟩
    rw [hone] at hrun
    cases hrun
  · rintro ⟨s, hrun, -, hhighest⟩
    have hsize := (hhighest _ rfl (by decide)).size
    have hsome : (run 2 (inserts [((0 : ℕ), (7 : ℕ)), (1, 5)])).map (fun s => s.map.size) =
        some 1 := by
      decide
    rw [hrun, Option.map_some, hsize] at hsome
    exact absurd hsome (by decide)

end LimitedMap

end Ticoin
