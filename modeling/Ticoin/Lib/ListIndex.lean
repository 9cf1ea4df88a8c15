import Mathlib

/-!
# Lists of cells and an index into them

A doubly linked list is a list of cells, each with a handle that stays valid until the cell
is erased. Several owners have a list each, and one index says for a key which owner has a
cell with the key, and its handle (`Indexed`). Handles are numbered as they are handed out,
so that a handle of an erased cell belongs to no other cell.

A cell can be appended (`Indexed.push`) or erased through the index (`Indexed.erase`), and an
owner can come (`Indexed.add`) or go with all its cells (`Indexed.drop`). As the index has one
entry for a key, no key occurs twice in all lists (`Indexed.cell_unique`).
-/

namespace ListIndex

variable {ν α κ : Type*}

/-- A list whose cells have handles. -/
abbrev Cells (α : Type*) := List (ℕ × α)

/-- Erase the cell of a handle, if the list has it. -/
def Cells.erase (l : Cells α) (it : ℕ) : Option (Cells α) :=
  if l.any (·.1 == it) then some (l.filter (·.1 != it)) else none

theorem Cells.erase_eq {l : Cells α} {it : ℕ} {a : α} (h : (it, a) ∈ l) :
    l.erase it = some (l.filter (·.1 != it)) :=
  if_pos (List.any_eq_true.mpr ⟨_, h, beq_self_eq_true it⟩)

/-- Erasing takes one cell away. -/
theorem length_filter_ne {it : ℕ} {a : α} : ∀ {l : Cells α}, (l.map Prod.fst).Nodup → (it, a) ∈ l →
    (l.filter (·.1 != it)).length + 1 = l.length
  | c :: l, hnd, h => by
    rw [List.map_cons, List.nodup_cons] at hnd
    rcases List.mem_cons.mp h with rfl | h
    · have hkeep : l.filter (·.1 != it) = l := List.filter_eq_self.mpr fun c hc => by
        rw [bne_iff_ne]
        exact fun heq => hnd.1 (List.mem_map.mpr ⟨c, hc, heq⟩)
      rw [List.filter_cons_of_neg (by simp), hkeep, List.length_cons]
    · have hne : c.1 ≠ it := fun heq => hnd.1 (List.mem_map.mpr ⟨_, h, heq.symm⟩)
      rw [List.filter_cons_of_pos (by simpa using hne), List.length_cons, List.length_cons,
        length_filter_ne hnd.2 h]

/-- The index has exactly the cells of the lists, under their keys. -/
structure Indexed (lists : ν → Option (Cells α)) (key : α → κ) (index : κ → Option (ν × ℕ))
    (next : ℕ) : Prop where
  sound : ∀ {n l c}, lists n = some l → c ∈ l → index (key c.2) = some (n, c.1)
  complete : ∀ {k n it}, index k = some (n, it) → ∃ l a, lists n = some l ∧ (it, a) ∈ l ∧ key a = k
  nodup : ∀ {n l}, lists n = some l → (l.map Prod.fst).Nodup
  lt : ∀ {n l c}, lists n = some l → c ∈ l → c.1 < next

namespace Indexed

variable {lists : ν → Option (Cells α)} {key : α → κ} {index : κ → Option (ν × ℕ)} {next : ℕ}

theorem empty (key : α → κ) : Indexed (fun _ : ν => none) key (fun _ => none) 0 :=
  ⟨nofun, nofun, nofun, nofun⟩

theorem mono (h : Indexed lists key index next) {m : ℕ} (hle : next ≤ m) :
    Indexed lists key index m :=
  ⟨h.sound, h.complete, h.nodup, fun hl hc => (h.lt hl hc).trans_le hle⟩

/-- Cells with the same key are the same cell of the same list. -/
theorem cell_unique (h : Indexed lists key index next) {n n' : ν} {l l' : Cells α} {c c' : ℕ × α}
    (hl : lists n = some l) (hc : c ∈ l) (hl' : lists n' = some l') (hc' : c' ∈ l')
    (hkey : key c.2 = key c'.2) : n = n' ∧ c = c' := by
  have heq := (h.sound hl hc).symm.trans (hkey ▸ h.sound hl' hc')
  simp only [Option.some.injEq, Prod.mk.injEq] at heq
  obtain ⟨rfl, hit⟩ := heq
  obtain rfl := Option.some.inj (hl.symm.trans hl')
  exact ⟨rfl, List.inj_on_of_nodup_map (h.nodup hl) hc hc' hit⟩

theorem keys_nodup (h : Indexed lists key index next) {n : ν} {l : Cells α} (hl : lists n = some l) :
    (l.map fun c => key c.2).Nodup := by
  have hcells : l.Nodup := (h.nodup hl).of_map
  exact hcells.map_on fun c hc c' hc' hkey => (h.cell_unique hl hc hl hc' hkey).2

variable [DecidableEq ν] [DecidableEq κ]

omit [DecidableEq κ] in
/-- An owner without cells comes. -/
theorem add (h : Indexed lists key index next) {n : ν} (hn : lists n = none) :
    Indexed (Function.update lists n (some [])) key index next := by
  have hlists : ∀ {m l c}, Function.update lists n (some []) m = some l → c ∈ l →
      lists m = some l := by
    intro m l c hl hc
    by_cases hm : m = n
    · rw [hm, Function.update_self] at hl
      cases hl
      cases hc
    · rwa [Function.update_of_ne hm] at hl
  refine ⟨fun hl hc => h.sound (hlists hl hc) hc, fun {k m it} hk => ?_, fun {m l} hl => ?_,
    fun hl hc => h.lt (hlists hl hc) hc⟩
  · obtain ⟨l, a, hl, hmem, hkey⟩ := h.complete hk
    have hm : m ≠ n := by
      rintro rfl
      rw [hn] at hl
      cases hl
    exact ⟨l, a, by rwa [Function.update_of_ne hm], hmem, hkey⟩
  · by_cases hm : m = n
    · rw [hm, Function.update_self] at hl
      cases hl
      exact .nil
    · rw [Function.update_of_ne hm] at hl
      exact h.nodup hl

/-- A cell with a new key is appended. -/
theorem push (h : Indexed lists key index next) {n : ν} {l : Cells α} (hl : lists n = some l) {a : α}
    (hnew : index (key a) = none) :
    Indexed (Function.update lists n (some (l ++ [(next, a)]))) key
      (Function.update index (key a) (some (n, next))) (next + 1) := by
  have hkey : ∀ {m l' c}, lists m = some l' → c ∈ l' → key c.2 ≠ key a := by
    intro m l' c hl' hc heq
    have hsound := h.sound hl' hc
    rw [heq, hnew] at hsound
    cases hsound
  constructor
  · intro m l' c hl' hc
    by_cases hm : m = n
    · subst hm
      rw [Function.update_self] at hl'
      cases hl'
      rcases List.mem_append.mp hc with hc | hc
      · rw [Function.update_of_ne (hkey hl hc)]
        exact h.sound hl hc
      · rw [List.mem_singleton.mp hc, Function.update_self]
    · rw [Function.update_of_ne hm] at hl'
      rw [Function.update_of_ne (hkey hl' hc)]
      exact h.sound hl' hc
  · intro k m it hk
    by_cases hka : k = key a
    · rw [hka, Function.update_self] at hk
      cases hk
      exact ⟨_, a, Function.update_self .., List.mem_append_right _ (List.mem_singleton_self _),
        hka.symm⟩
    · rw [Function.update_of_ne hka] at hk
      obtain ⟨l', a', hl', hmem, hkey'⟩ := h.complete hk
      by_cases hm : m = n
      · subst hm
        obtain rfl := Option.some.inj (hl.symm.trans hl')
        exact ⟨_, a', Function.update_self .., List.mem_append_left _ hmem, hkey'⟩
      · exact ⟨l', a', by rwa [Function.update_of_ne hm], hmem, hkey'⟩
  · intro m l' hl'
    by_cases hm : m = n
    · subst hm
      rw [Function.update_self] at hl'
      cases hl'
      rw [List.map_append, List.nodup_append]
      refine ⟨h.nodup hl, List.nodup_singleton _, fun it hit it' hit' => ?_⟩
      obtain ⟨c, hc, rfl⟩ := List.mem_map.mp hit
      rw [List.map_singleton, List.mem_singleton] at hit'
      have hlt := h.lt hl hc
      omega
    · rw [Function.update_of_ne hm] at hl'
      exact h.nodup hl'
  · intro m l' c hl' hc
    by_cases hm : m = n
    · subst hm
      rw [Function.update_self] at hl'
      cases hl'
      rcases List.mem_append.mp hc with hc | hc
      · exact (h.lt hl hc).trans (Nat.lt_succ_self _)
      · rw [List.mem_singleton.mp hc]
        exact Nat.lt_succ_self _
    · rw [Function.update_of_ne hm] at hl'
      exact (h.lt hl' hc).trans (Nat.lt_succ_self _)

omit [DecidableEq ν] [DecidableEq κ] in
/-- Cells are taken away with their keys : a list is filtered, and the keys of the cells that
go leave the index. -/
theorem remove (h : Indexed lists key index next) {lists' : ν → Option (Cells α)}
    {index' : κ → Option (ν × ℕ)}
    (hlists : ∀ {n l'}, lists' n = some l' → ∃ l p, lists n = some l ∧ l' = l.filter p)
    (hkeep : ∀ {n l' c}, lists' n = some l' → c ∈ l' → index' (key c.2) = index (key c.2))
    (hindex : ∀ {k n it}, index' k = some (n, it) → index k = some (n, it) ∧
      ∀ l a, lists n = some l → (it, a) ∈ l → ∃ l', lists' n = some l' ∧ (it, a) ∈ l') :
    Indexed lists' key index' next := by
  constructor
  · intro n l' c hl' hc
    obtain ⟨l, p, hl, rfl⟩ := hlists hl'
    rw [hkeep hl' hc]
    exact h.sound hl (List.mem_filter.mp hc).1
  · intro k n it hk
    obtain ⟨hk, hmem⟩ := hindex hk
    obtain ⟨l, a, hl, ha, hkey⟩ := h.complete hk
    obtain ⟨l', hl', ha'⟩ := hmem l a hl ha
    exact ⟨l', a, hl', ha', hkey⟩
  · intro n l' hl'
    obtain ⟨l, p, hl, rfl⟩ := hlists hl'
    exact (h.nodup hl).sublist (List.filter_sublist.map _)
  · intro n l' c hl' hc
    obtain ⟨l, p, hl, rfl⟩ := hlists hl'
    exact h.lt hl (List.mem_filter.mp hc).1

/-- The cell of a key is erased. -/
theorem erase (h : Indexed lists key index next) {n : ν} {l : Cells α} {k : κ} {it : ℕ}
    (hk : index k = some (n, it)) (hl : lists n = some l) :
    Indexed (Function.update lists n (some (l.filter (·.1 != it)))) key
      (Function.update index k none) next := by
  obtain ⟨l₀, a₀, hl₀, hmem₀, hkey₀⟩ := h.complete hk
  obtain rfl := Option.some.inj (hl.symm.trans hl₀)
  refine h.remove (fun {m l'} hl' => ?_) (fun {m l' c} hl' hc => ?_) fun {k' m it'} hk' => ?_
  · by_cases hm : m = n
    · subst hm
      rw [Function.update_self] at hl'
      cases hl'
      exact ⟨l, _, hl, rfl⟩
    · rw [Function.update_of_ne hm] at hl'
      exact ⟨l', fun _ => true, hl', (List.filter_true l').symm⟩
  · refine Function.update_of_ne (fun heq => ?_) ..
    by_cases hm : m = n
    · subst hm
      rw [Function.update_self] at hl'
      cases hl'
      obtain ⟨hc, hne⟩ := List.mem_filter.mp hc
      have hcell := (h.cell_unique hl hc hl hmem₀ (heq.trans hkey₀.symm)).2
      rw [hcell] at hne
      simp at hne
    · rw [Function.update_of_ne hm] at hl'
      exact hm (h.cell_unique hl' hc hl hmem₀ (heq.trans hkey₀.symm)).1
  · have hne : k' ≠ k := by
      rintro rfl
      rw [Function.update_self] at hk'
      cases hk'
    rw [Function.update_of_ne hne] at hk'
    refine ⟨hk', fun l₁ a hl₁ ha => ?_⟩
    by_cases hm : m = n
    · subst hm
      obtain rfl := Option.some.inj (hl.symm.trans hl₁)
      refine ⟨_, Function.update_self .., List.mem_filter.mpr ⟨ha, ?_⟩⟩
      rw [bne_iff_ne]
      rintro rfl
      obtain ⟨l₂, a₂, hl₂, ha₂, hkey₂⟩ := h.complete hk'
      obtain rfl := Option.some.inj (hl.symm.trans hl₂)
      have hcell := List.inj_on_of_nodup_map (h.nodup hl) ha₂ hmem₀ rfl
      cases hcell
      exact hne (hkey₂.symm.trans hkey₀)
    · exact ⟨l₁, by rwa [Function.update_of_ne hm], ha⟩

/-- An owner goes with its cells. -/
theorem drop (h : Indexed lists key index next) {n : ν} {l : Cells α} (hl : lists n = some l)
    {index' : κ → Option (ν × ℕ)}
    (hindex : ∀ k, index' k = if k ∈ l.map (fun c => key c.2) then none else index k) :
    Indexed (Function.update lists n none) key index' next := by
  refine h.remove (fun {m l'} hl' => ?_) (fun {m l' c} hl' hc => ?_) fun {k m it} hk => ?_
  · have hm : m ≠ n := by
      rintro rfl
      rw [Function.update_self] at hl'
      cases hl'
    rw [Function.update_of_ne hm] at hl'
    exact ⟨l', fun _ => true, hl', (List.filter_true l').symm⟩
  · have hm : m ≠ n := by
      rintro rfl
      rw [Function.update_self] at hl'
      cases hl'
    rw [Function.update_of_ne hm] at hl'
    rw [hindex, if_neg fun hmem => ?_]
    obtain ⟨c', hc', hkey⟩ := List.mem_map.mp hmem
    exact hm (h.cell_unique hl' hc hl hc' hkey.symm).1
  · rw [hindex] at hk
    split at hk
    · cases hk
    · rename_i hnot
      refine ⟨hk, fun l₁ a hl₁ ha => ⟨l₁, ?_, ha⟩⟩
      have hm : m ≠ n := by
        rintro rfl
        obtain ⟨l₂, a₂, hl₂, ha₂, hkey₂⟩ := h.complete hk
        obtain rfl := Option.some.inj (hl.symm.trans hl₂)
        exact hnot (List.mem_map.mpr ⟨_, ha₂, hkey₂⟩)
      rwa [Function.update_of_ne hm]

end Indexed

end ListIndex
