import Mathlib

/-!
# Tables, and lists of their keys

A table is a map from keys to records, and a column of it is a field of the records
(`column`). A record that is put, changed or erased changes the columns at its key only.

A list of keys with a column of positions in it is `Placed`. A key can be pushed
(`Placed.push`), two keys swapped (`Placed.swap`) and the last one popped (`Placed.pop`), so
that a key anywhere is removed by swapping it with the last one.

A list of keys is compared with a set by erasing each of its elements from it
(`eraseEach_eq_empty`), and with the numbers of their occurrences by counting them down
(`countDown_eq_empty`).

An index is a map from keys to sets, none of which is empty. A value is linked to some keys and
unlinked from them again (`mem_linkAll`, `mem_unlinkAll`).
-/

namespace Table

/-! ## Columns -/

section Column

variable {κ β γ : Type*} [Ord κ] [Std.TransOrd κ] [Std.LawfulEqOrd κ] [DecidableEq κ]
  {m : Std.ExtTreeMap κ β} {k : κ} {b : β}

/-- The records as a function. -/
theorem getElem?_insert_eq : (fun i : κ => (m.insert k b)[i]?) =
    Function.update (fun i : κ => m[i]?) k (some b) := by
  ext1 i
  rw [Std.ExtTreeMap.getElem?_insert]
  by_cases hi : i = k
  · rw [hi, if_pos Std.ReflCmp.compare_self, Function.update_self]
  · rw [if_neg fun h => hi (Std.LawfulEqOrd.eq_of_compare h).symm, Function.update_of_ne hi]

theorem getElem?_erase_eq : (fun i : κ => (m.erase k)[i]?) =
    Function.update (fun i : κ => m[i]?) k none := by
  ext1 i
  rw [Std.ExtTreeMap.getElem?_erase]
  by_cases hi : i = k
  · rw [hi, if_pos Std.ReflCmp.compare_self, Function.update_self]
  · rw [if_neg fun h => hi (Std.LawfulEqOrd.eq_of_compare h).symm, Function.update_of_ne hi]

theorem getElem?_insert_of_ne {i : κ} (hi : i ≠ k) : (m.insert k b)[i]? = m[i]? :=
  (congrFun getElem?_insert_eq i).trans (Function.update_of_ne hi ..)

theorem getElem?_erase_of_ne {i : κ} (hi : i ≠ k) : (m.erase k)[i]? = m[i]? :=
  (congrFun getElem?_erase_eq i).trans (Function.update_of_ne hi ..)

omit [Std.LawfulEqOrd κ] [DecidableEq κ]

/-- A field of the records. -/
def column (f : β → γ) (m : Std.ExtTreeMap κ β) (k : κ) : Option γ := m[k]?.map f

variable {f : β → γ}

theorem column_eq (h : m[k]? = some b) : column f m k = some (f b) := by
  rw [column, h, Option.map_some]

theorem column_eq_none : column f m k = none ↔ m[k]? = none := Option.map_eq_none_iff

theorem column_eq_some {c : γ} : column f m k = some c ↔ ∃ b, m[k]? = some b ∧ f b = c :=
  Option.map_eq_some_iff

variable [Std.LawfulEqOrd κ] [DecidableEq κ]

theorem column_insert : column f (m.insert k b) = Function.update (column f m) k (some (f b)) := by
  ext1 i
  rw [column, congrFun getElem?_insert_eq i]
  by_cases hi : i = k
  · rw [hi, Function.update_self, Function.update_self, Option.map_some]
  · rw [Function.update_of_ne hi, Function.update_of_ne hi, column]

/-- A record that changes in other fields. -/
theorem column_insert_same {b' : β} (h : m[k]? = some b) (hf : f b' = f b) :
    column f (m.insert k b') = column f m := by
  rw [column_insert, hf, ← column_eq h, Function.update_eq_self]

theorem column_erase : column f (m.erase k) = Function.update (column f m) k none := by
  ext1 i
  rw [column, congrFun getElem?_erase_eq i]
  by_cases hi : i = k
  · rw [hi, Function.update_self, Function.update_self, Option.map_none]
  · rw [Function.update_of_ne hi, Function.update_of_ne hi, column]

end Column

/-! ## Inverse columns -/

section Inverse

variable {α β : Type*} [DecidableEq α] [DecidableEq β] {f : α → Option β} {g : β → Option α}
  {a : α} {b : β}

/-- A new pair is put into a column and its inverse. -/
theorem inverse_insert (h : ∀ a b, f a = some b ↔ g b = some a) (ha : f a = none) (hb : g b = none)
    (c : α) (d : β) : Function.update f a (some b) c = some d ↔
      Function.update g b (some a) d = some c := by
  by_cases hc : c = a <;> by_cases hd : d = b
  · rw [hc, hd, Function.update_self, Function.update_self]
    exact iff_of_true rfl rfl
  · rw [hc, Function.update_self, Function.update_of_ne hd, ← h, ha]
    exact iff_of_false (fun heq => hd (Option.some.inj heq).symm) nofun
  · rw [hd, Function.update_self, Function.update_of_ne hc, h, hb]
    exact iff_of_false nofun fun heq => hc (Option.some.inj heq).symm
  · rw [Function.update_of_ne hc, Function.update_of_ne hd, h]

/-- A pair is erased from both. -/
theorem inverse_erase (h : ∀ a b, f a = some b ↔ g b = some a) (hab : f a = some b) (c : α) (d : β) :
    Function.update f a none c = some d ↔ Function.update g b none d = some c := by
  by_cases hc : c = a <;> by_cases hd : d = b
  · rw [hc, hd, Function.update_self, Function.update_self]
    exact iff_of_false nofun nofun
  · rw [hc, Function.update_self, Function.update_of_ne hd, ← h, hab]
    exact iff_of_false nofun fun heq => hd (Option.some.inj heq).symm
  · rw [hd, Function.update_self, Function.update_of_ne hc, h, (h a b).mp hab]
    exact iff_of_false (fun heq => hc (Option.some.inj heq).symm) nofun
  · rw [Function.update_of_ne hc, Function.update_of_ne hd, h]

end Inverse

/-! ## Positions in a list -/

section Placed

variable {α : Type*} {l : List α} {p : α → Option ℤ} {a b : α}

/-- The list has the keys at their positions. -/
def Placed (l : List α) (p : α → Option ℤ) : Prop :=
  ∀ a q, p a = some q ↔ ∃ i : ℕ, q = i ∧ l[i]? = some a

theorem Placed.nil : Placed ([] : List α) fun _ => none := by
  intro a q
  simp

theorem Placed.getElem? (h : Placed l p) {i : ℕ} : l[i]? = some a ↔ p a = some (i : ℤ) :=
  ⟨fun hi => (h a i).mpr ⟨i, rfl, hi⟩, fun hp => by
    obtain ⟨j, hj, hget⟩ := (h a i).mp hp
    rwa [Int.ofNat_inj.mp hj]⟩

theorem Placed.mem_iff (h : Placed l p) : a ∈ l ↔ (p a).isSome := by
  rw [List.mem_iff_getElem?, Option.isSome_iff_exists]
  exact ⟨fun ⟨i, hi⟩ => ⟨i, h.getElem?.mp hi⟩, fun ⟨q, hq⟩ => by
    obtain ⟨i, -, hi⟩ := (h a q).mp hq
    exact ⟨i, hi⟩⟩

theorem Placed.nodup (h : Placed l p) : l.Nodup := by
  rw [List.nodup_iff_getElem?_ne_getElem?]
  intro i j hij hj heq
  have hget : l[j]? = some l[j] := List.getElem?_eq_getElem hj
  have hpos := (h.getElem?.mp (heq.trans hget)).symm.trans (h.getElem?.mp hget)
  rw [Option.some.injEq, Int.ofNat_inj] at hpos
  omega

variable [DecidableEq α]

/-- A new key is pushed. -/
theorem Placed.push (h : Placed l p) (ha : p a = none) :
    Placed (l ++ [a]) (Function.update p a (some (l.length : ℤ))) := by
  have hnot : ∀ i : ℕ, l[i]? ≠ some a := fun i hi => by
    rw [h.getElem?, ha] at hi
    cases hi
  intro c q
  by_cases hc : c = a
  · subst hc
    rw [Function.update_self]
    constructor
    · rintro ⟨⟩
      exact ⟨l.length, rfl, List.getElem?_concat_length⟩
    · rintro ⟨i, rfl, hi⟩
      rcases Nat.lt_trichotomy i l.length with hlt | rfl | hgt
      · rw [List.getElem?_append_left hlt] at hi
        exact absurd hi (hnot i)
      · rfl
      · rw [List.getElem?_eq_none (by simpa using hgt)] at hi
        cases hi
  · rw [Function.update_of_ne hc, h c q]
    refine exists_congr fun i => and_congr_right fun _ => ?_
    rcases Nat.lt_trichotomy i l.length with hlt | rfl | hgt
    · rw [List.getElem?_append_left hlt]
    · rw [List.getElem?_concat_length, List.getElem?_eq_none le_rfl, Option.some.injEq]
      exact ⟨nofun, fun heq => absurd heq.symm hc⟩
    · rw [List.getElem?_eq_none hgt.le, List.getElem?_eq_none (by simpa using hgt)]

/-- Two keys are swapped. -/
theorem Placed.swap (h : Placed l p) {i j : ℕ} (hi : l[i]? = some a) (hj : l[j]? = some b) :
    Placed ((l.set i b).set j a)
      (Function.update (Function.update p a (some (j : ℤ))) b (some (i : ℤ))) := by
  obtain ⟨hilt, -⟩ := List.getElem?_eq_some_iff.mp hi
  obtain ⟨hjlt, -⟩ := List.getElem?_eq_some_iff.mp hj
  have hpa := h.getElem?.mp hi
  have hpb := h.getElem?.mp hj
  have hab : a = b → i = j := by
    rintro rfl
    rwa [hpa, Option.some.injEq, Int.ofNat_inj] at hpb
  have hset : ∀ k c, ((l.set i b).set j a)[k]? = some c ↔
      (j = k ∧ a = c) ∨ (j ≠ k ∧ i = k ∧ b = c) ∨ (j ≠ k ∧ i ≠ k ∧ l[k]? = some c) := by
    intro k c
    rw [List.getElem?_set, List.getElem?_set, List.length_set, if_pos hjlt, if_pos hilt]
    by_cases hjk : j = k <;> by_cases hik : i = k <;> simp [hjk, hik]
  intro c q
  simp only [hset]
  by_cases hcb : c = b
  · subst hcb
    rw [Function.update_self]
    constructor
    · rintro ⟨⟩
      by_cases hij : j = i
      · exact ⟨i, rfl, .inl ⟨hij, Option.some.inj (hi.symm.trans (hij ▸ hj))⟩⟩
      · exact ⟨i, rfl, .inr (.inl ⟨hij, rfl, rfl⟩)⟩
    · rintro ⟨k, rfl, ⟨rfl, hac⟩ | ⟨-, rfl, -⟩ | ⟨hjk, -, hget⟩⟩
      · rw [hab hac]
      · rfl
      · rw [h.getElem?, hpb, Option.some.injEq, Int.ofNat_inj] at hget
        exact absurd hget hjk
  · rw [Function.update_of_ne hcb]
    by_cases hca : c = a
    · subst hca
      rw [Function.update_self]
      constructor
      · rintro ⟨⟩
        exact ⟨j, rfl, .inl ⟨rfl, rfl⟩⟩
      · rintro ⟨k, rfl, ⟨rfl, -⟩ | ⟨-, -, hbc⟩ | ⟨-, hik, hget⟩⟩
        · rfl
        · exact absurd hbc.symm hcb
        · rw [h.getElem?, hpa, Option.some.injEq, Int.ofNat_inj] at hget
          exact absurd hget hik
    · rw [Function.update_of_ne hca, h c q]
      refine exists_congr fun k => and_congr_right fun _ => ⟨fun hget => ?_, ?_⟩
      · refine .inr (.inr ⟨?_, ?_, hget⟩)
        · rintro rfl
          exact hcb (Option.some.inj (hget.symm.trans hj))
        · rintro rfl
          exact hca (Option.some.inj (hget.symm.trans hi))
      · rintro (⟨-, hac⟩ | ⟨-, -, hbc⟩ | ⟨-, -, hget⟩)
        · exact absurd hac.symm hca
        · exact absurd hbc.symm hcb
        · exact hget

/-- The last key is popped. -/
theorem Placed.pop (h : Placed l p) (ha : l.getLast? = some a) :
    Placed l.dropLast (Function.update p a none) := by
  obtain ⟨l, rfl⟩ := List.getLast?_eq_some_iff.mp ha
  rw [List.dropLast_concat]
  have hpa := h.getElem?.mp (List.getElem?_concat_length (l := l) (a := a))
  intro c q
  by_cases hc : c = a
  · subst hc
    rw [Function.update_self]
    refine ⟨nofun, ?_⟩
    rintro ⟨i, rfl, hi⟩
    obtain ⟨hlt, -⟩ := List.getElem?_eq_some_iff.mp hi
    have hpos := h.getElem?.mp ((List.getElem?_append_left hlt).trans hi)
    rw [hpa, Option.some.injEq, Int.ofNat_inj] at hpos
    omega
  · rw [Function.update_of_ne hc, h c q]
    refine exists_congr fun i => and_congr_right fun _ => ?_
    rcases Nat.lt_trichotomy i l.length with hlt | rfl | hgt
    · rw [List.getElem?_append_left hlt]
    · rw [List.getElem?_concat_length, List.getElem?_eq_none le_rfl, Option.some.injEq]
      exact ⟨fun heq => absurd heq.symm hc, nofun⟩
    · rw [List.getElem?_eq_none hgt.le, List.getElem?_eq_none (by simpa using hgt)]

end Placed

/-! ## Lists against sets and counters -/

section Compare

variable {κ : Type*} [Ord κ] [Std.TransOrd κ]

/-- Each element is erased, none if it is not there. -/
def eraseEach : List κ → Std.ExtTreeSet κ → Option (Std.ExtTreeSet κ)
  | [], t => some t
  | a :: l, t => if t.contains a then eraseEach l (t.erase a) else none

/-- Each element is counted down, none if it is not there ; a zero is erased. -/
def countDown : List κ → Std.ExtTreeMap κ ℤ → Option (Std.ExtTreeMap κ ℤ)
  | [], m => some m
  | a :: l, m =>
    match m[a]? with
    | none => none
    | some k => if k - 1 = 0 then countDown l (m.erase a) else countDown l (m.insert a (k - 1))

variable [Std.LawfulEqOrd κ]

theorem mem_erase {t : Std.ExtTreeSet κ} {a c : κ} : c ∈ t.erase a ↔ c ≠ a ∧ c ∈ t := by
  rw [Std.ExtTreeSet.mem_erase]
  refine and_congr_left fun _ => not_congr ⟨fun h => ?_, ?_⟩
  · exact (Std.LawfulEqOrd.eq_of_compare h).symm
  · rintro rfl
    exact Std.ReflCmp.compare_self

theorem mem_insert {t : Std.ExtTreeSet κ} {a c : κ} : c ∈ t.insert a ↔ c = a ∨ c ∈ t := by
  rw [Std.ExtTreeSet.mem_insert]
  refine or_congr_left ⟨fun h => (Std.LawfulEqOrd.eq_of_compare h).symm, ?_⟩
  rintro rfl
  exact Std.ReflCmp.compare_self

theorem nodup_toList {t : Std.ExtTreeSet κ} : t.toList.Nodup :=
  Std.ExtTreeSet.distinct_toList.imp fun hne heq => by
    subst heq
    exact hne Std.ReflCmp.compare_self

/-- A set has as many elements as a list of them. -/
theorem size_eq_length {t : Std.ExtTreeSet κ} {l : List κ} (hl : l.Nodup)
    (h : ∀ a, a ∈ l ↔ a ∈ t) : t.size = l.length := by
  rw [← Std.ExtTreeSet.length_toList]
  refine ((List.perm_ext_iff_of_nodup nodup_toList hl).mpr fun a => ?_).length_eq
  rw [Std.ExtTreeSet.mem_toList, h a]

/-- A map has as many entries as a list of its keys. -/
theorem size_eq_length_keys {β : Type*} {m : Std.ExtTreeMap κ β} {l : List κ} (hl : l.Nodup)
    (h : ∀ a, a ∈ l ↔ m[a]?.isSome) : m.size = l.length := by
  rw [← Std.ExtTreeMap.length_keys]
  refine ((List.perm_ext_iff_of_nodup Std.ExtTreeMap.nodup_keys hl).mpr fun a => ?_).length_eq
  rw [Std.ExtTreeMap.mem_keys, h a, Std.ExtTreeMap.mem_iff_isSome_getElem?]

omit [Std.LawfulEqOrd κ] in
/-- The keys of the entries with some property have no duplicates. -/
theorem nodup_map_filter {β : Type*} {m : Std.ExtTreeMap κ β} {f : κ × β → Bool} :
    ((m.toList.filter f).map Prod.fst).Nodup := by
  refine List.Nodup.sublist (List.filter_sublist.map Prod.fst) ?_
  rw [Std.ExtTreeMap.map_fst_toList_eq_keys]
  exact Std.ExtTreeMap.nodup_keys

theorem mem_map_filter {β : Type*} {m : Std.ExtTreeMap κ β} {f : κ × β → Bool} {a : κ} :
    a ∈ (m.toList.filter f).map Prod.fst ↔ ∃ b, m[a]? = some b ∧ f (a, b) = true := by
  simp only [List.mem_map, List.mem_filter, Prod.exists]
  constructor
  · rintro ⟨i, b, ⟨hmem, hf⟩, rfl⟩
    exact ⟨b, Std.ExtTreeMap.mem_toList_iff_getElem?_eq_some.mp hmem, hf⟩
  · rintro ⟨b, hget, hf⟩
    exact ⟨a, b, ⟨Std.ExtTreeMap.mem_toList_iff_getElem?_eq_some.mpr hget, hf⟩, rfl⟩

variable [DecidableEq κ]

/-- A list is erased from a set with nothing left, exactly if it lists the set. -/
theorem eraseEach_eq_empty : ∀ (l : List κ) (t : Std.ExtTreeSet κ),
    eraseEach l t = some ∅ ↔ l.Nodup ∧ ∀ a, a ∈ l ↔ a ∈ t
  | [], t => by
    simp only [eraseEach, Option.some.injEq, List.nodup_nil, List.not_mem_nil, false_iff, true_and]
    exact Std.ExtTreeSet.eq_empty_iff_forall_not_mem
  | a :: l, t => by
    rw [eraseEach, List.nodup_cons]
    split
    · rename_i hin
      rw [Std.ExtTreeSet.contains_iff_mem] at hin
      rw [eraseEach_eq_empty l]
      constructor
      · rintro ⟨hl, hmem⟩
        refine ⟨⟨fun h => ((mem_erase.mp ((hmem a).mp h)).1) rfl, hl⟩, fun c => ?_⟩
        rw [List.mem_cons, hmem c, mem_erase]
        by_cases hc : c = a <;> simp [hc, hin]
      · rintro ⟨⟨ha, hl⟩, hmem⟩
        refine ⟨hl, fun c => ?_⟩
        rw [mem_erase, ← hmem c, List.mem_cons]
        by_cases hc : c = a <;> simp [hc, ha]
    · rename_i hin
      rw [Std.ExtTreeSet.contains_iff_mem] at hin
      exact ⟨nofun, fun ⟨_, hmem⟩ => absurd ((hmem a).mp List.mem_cons_self) hin⟩

/-- A list is counted down with nothing left, exactly if the counters are the numbers of
occurrences. -/
theorem countDown_eq_empty : ∀ (l : List κ) (m : Std.ExtTreeMap κ ℤ)
    (_ : ∀ (a : κ) (k : ℤ), m[a]? = some k → 1 ≤ k),
    countDown l m = some ∅ ↔ ∀ a, (l.count a : ℤ) = (m[a]?).getD 0
  | [], m, hm => by
    simp only [countDown, Option.some.injEq, List.count_nil, Nat.cast_zero]
    rw [Std.ExtTreeMap.eq_empty_iff_forall_not_mem]
    refine forall_congr' fun a => ?_
    rw [Std.ExtTreeMap.mem_iff_isSome_getElem?]
    cases h : m[a]? with
    | none => simp
    | some k =>
      have := hm a k h
      simp only [Option.isSome_some, not_true_eq_false, Option.getD_some, false_iff]
      omega
  | a :: l, m, hm => by
    rw [countDown]
    cases h : m[a]? with
    | none =>
      refine ⟨nofun, fun hall => ?_⟩
      have := hall a
      rw [h, List.count_cons_self, Option.getD_none] at this
      omega
    | some k =>
      have hk := hm a k h
      have hstep : ∀ m' : Std.ExtTreeMap κ ℤ, (m'[a]?).getD 0 = k - 1 →
          (∀ c, c ≠ a → m'[c]? = m[c]?) →
          ((∀ c, (l.count c : ℤ) = (m'[c]?).getD 0) ↔
            ∀ c, ((a :: l).count c : ℤ) = (m[c]?).getD 0) := by
        intro m' hself hother
        refine forall_congr' fun c => ?_
        by_cases hc : c = a
        · subst hc
          rw [hself, h, List.count_cons_self, Option.getD_some]
          omega
        · rw [hother c hc, List.count_cons_of_ne (Ne.symm hc)]
      dsimp only
      split
      · rename_i hzero
        rw [countDown_eq_empty l]
        · refine hstep _ ?_ fun c hc => getElem?_erase_of_ne hc
          rw [congrFun getElem?_erase_eq a, Function.update_self, Option.getD_none, hzero]
        · intro c j hj
          rw [congrFun getElem?_erase_eq c] at hj
          by_cases hc : c = a
          · rw [hc, Function.update_self] at hj
            cases hj
          · rw [Function.update_of_ne hc] at hj
            exact hm c j hj
      · rw [countDown_eq_empty l]
        · refine hstep _ ?_ fun c hc => getElem?_insert_of_ne hc
          rw [congrFun getElem?_insert_eq a, Function.update_self, Option.getD_some]
        · intro c j hj
          rw [congrFun getElem?_insert_eq c] at hj
          by_cases hc : c = a
          · rw [hc, Function.update_self, Option.some.injEq] at hj
            omega
          · rw [Function.update_of_ne hc] at hj
            exact hm c j hj

end Compare

/-! ## Indices -/

section Index

variable {κ α : Type*} [Ord κ] [Std.TransOrd κ] [Ord α] [Std.TransOrd α]

/-- The values of a key. -/
def members (m : Std.ExtTreeMap κ (Std.ExtTreeSet α)) (k : κ) : Std.ExtTreeSet α := (m[k]?).getD ∅

/-- A value is put into the set of a key. -/
def link (a : α) (m : Std.ExtTreeMap κ (Std.ExtTreeSet α)) (k : κ) :
    Std.ExtTreeMap κ (Std.ExtTreeSet α) := m.insert k ((members m k).insert a)

/-- A value is taken out of the set of a key, and the set out of the index if it gets empty. -/
def unlink (a : α) (m : Std.ExtTreeMap κ (Std.ExtTreeSet α)) (k : κ) :
    Std.ExtTreeMap κ (Std.ExtTreeSet α) :=
  match m[k]? with
  | none => m
  | some t => if (t.erase a).isEmpty then m.erase k else m.insert k (t.erase a)

/-- No set is empty. -/
def NoEmpty (m : Std.ExtTreeMap κ (Std.ExtTreeSet α)) : Prop :=
  ∀ (k : κ) (t : Std.ExtTreeSet α), m[k]? = some t → t ≠ ∅

variable [Std.LawfulEqOrd κ] [DecidableEq κ] {m : Std.ExtTreeMap κ (Std.ExtTreeSet α)} {a : α} {k : κ}

omit [Std.TransOrd α] in
theorem members_insert (t : Std.ExtTreeSet α) (i : κ) :
    members (m.insert k t) i = if i = k then t else members m i := by
  rw [members, congrFun getElem?_insert_eq i]
  by_cases hi : i = k
  · rw [hi, Function.update_self, if_pos rfl, Option.getD_some]
  · rw [Function.update_of_ne hi, if_neg hi, members]

omit [Std.TransOrd α] in
theorem members_erase (i : κ) : members (m.erase k) i = if i = k then ∅ else members m i := by
  rw [members, congrFun getElem?_erase_eq i]
  by_cases hi : i = k
  · rw [hi, Function.update_self, if_pos rfl, Option.getD_none]
  · rw [Function.update_of_ne hi, if_neg hi, members]

theorem members_unlink (i : κ) :
    members (unlink a m k) i = if i = k then (members m k).erase a else members m i := by
  unfold unlink
  split
  · rename_i hget
    by_cases hi : i = k
    · rw [hi, if_pos rfl, members, hget, Option.getD_none]
      simp
    · rw [if_neg hi]
  · rename_i t hget
    have hmem : members m k = t := by rw [members, hget, Option.getD_some]
    split
    · rename_i hempty
      rw [members_erase, hmem, Std.ExtTreeSet.isEmpty_iff.mp hempty]
    · rw [members_insert, hmem]

theorem NoEmpty.link (h : NoEmpty m) : NoEmpty (link a m k) := by
  intro i t hget
  rw [Table.link, congrFun getElem?_insert_eq i] at hget
  by_cases hi : i = k
  · rw [hi, Function.update_self, Option.some.injEq] at hget
    rw [← hget]
    exact Std.ExtTreeSet.insert_ne_empty
  · rw [Function.update_of_ne hi] at hget
    exact h i t hget

theorem NoEmpty.unlink (h : NoEmpty m) : NoEmpty (unlink a m k) := by
  intro i t hget
  unfold Table.unlink at hget
  split at hget
  · exact h i t hget
  split at hget
  · rw [congrFun getElem?_erase_eq i] at hget
    by_cases hi : i = k
    · rw [hi, Function.update_self] at hget
      cases hget
    · rw [Function.update_of_ne hi] at hget
      exact h i t hget
  · rename_i t' hget' hne
    rw [congrFun getElem?_insert_eq i] at hget
    by_cases hi : i = k
    · rw [hi, Function.update_self, Option.some.injEq] at hget
      rw [← hget]
      exact fun heq => hne (Std.ExtTreeSet.isEmpty_iff.mpr heq)
    · rw [Function.update_of_ne hi] at hget
      exact h i t hget

variable [Std.LawfulEqOrd α]

/-- A value is linked to some keys. -/
theorem mem_linkAll (c : α) (i : κ) : ∀ (ks : List κ) (m : Std.ExtTreeMap κ (Std.ExtTreeSet α)),
    c ∈ members (ks.foldl (link a) m) i ↔ c ∈ members m i ∨ (c = a ∧ i ∈ ks)
  | [], m => by simp
  | k :: ks, m => by
    rw [List.foldl_cons, mem_linkAll c i ks, link, members_insert]
    by_cases hi : i = k
    · rw [if_pos hi, mem_insert, hi]
      simp only [List.mem_cons, true_or, and_true]
      tauto
    · rw [if_neg hi, List.mem_cons, or_iff_right hi]

/-- A value is unlinked from some keys. -/
theorem mem_unlinkAll (c : α) (i : κ) : ∀ (ks : List κ) (m : Std.ExtTreeMap κ (Std.ExtTreeSet α)),
    c ∈ members (ks.foldl (unlink a) m) i ↔ c ∈ members m i ∧ ¬ (c = a ∧ i ∈ ks)
  | [], m => by simp
  | k :: ks, m => by
    rw [List.foldl_cons, mem_unlinkAll c i ks, members_unlink]
    by_cases hi : i = k
    · rw [if_pos hi, mem_erase, hi]
      simp only [List.mem_cons, true_or, and_true]
      tauto
    · rw [if_neg hi, List.mem_cons, or_iff_right hi]

end Index

end Table
