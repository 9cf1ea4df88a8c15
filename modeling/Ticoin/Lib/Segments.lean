import Mathlib.Data.List.Flatten
import Mathlib.Data.List.Infix
import Mathlib.Data.List.Perm.Basic

/-!
# Words in sequence

A code whose words show where they end is read word by word, up to a tail at which no word is read
(`segments`). A reader may also refuse a word, for reasons that depend on all that is left (`read`).

An erasing loop (`erase`) compares what is left with a given string before it reads the next word.
That drops exactly the words equal to the string if and only if the string is read wherever it is
found between two words (`erase_eq_iff`), and erasing once more changes nothing (`erase_erase`).
Where no word is refused, erasing several strings leaves the words that are none of them, in whatever
order the strings are erased (`foldl_erase`).
-/

set_option linter.unusedSectionVars false

namespace Segments

variable {α : Type}

/-- A reader of words : a word is in front of what is read, and is read whatever follows it. -/
structure WordReader (α : Type) where
  next : List α → Option (List α × List α)
  eq_append : ∀ {s t r}, next s = some (t, r) → s = t ++ r
  ne_nil : ∀ {s t r}, next s = some (t, r) → t ≠ []
  next_append : ∀ {s t r}, next s = some (t, r) → ∀ r', next (t ++ r') = some (t, r')

namespace WordReader

variable (R : WordReader α) (ok : List α → Bool)

/-- The next word, unless it is refused. -/
def read (s : List α) : Option (List α × List α) := if ok s then R.next s else none

variable {R ok}

theorem next_of_read {s t r : List α} (h : R.read ok s = some (t, r)) : R.next s = some (t, r) := by
  unfold read at h
  split at h
  · exact h
  · cases h

theorem read_eq_append {s t r : List α} (h : R.read ok s = some (t, r)) : s = t ++ r :=
  R.eq_append (next_of_read h)

theorem length_read_lt {s t r : List α} (h : R.read ok s = some (t, r)) :
    r.length < s.length := by
  have hpos := List.length_pos_iff.mpr (R.ne_nil (next_of_read h))
  rw [read_eq_append h, List.length_append]
  omega

variable (R)

/-- A word by itself. -/
def Word (t : List α) : Prop := R.next t = some (t, [])

variable {R}

theorem word_of_read {s t r : List α} (h : R.read ok s = some (t, r)) : R.Word t := by
  have hnext := R.next_append (next_of_read h) []
  rwa [List.append_nil] at hnext

theorem Word.next_append {t : List α} (h : R.Word t) (r : List α) : R.next (t ++ r) = some (t, r) :=
  R.next_append h r

/-- Of two words one in front of the other is the same. -/
theorem Word.eq_of_append {t t' r r' : List α} (h : R.Word t) (h' : R.Word t')
    (heq : t ++ r = t' ++ r') : t = t' := by
  have hnext := h.next_append r
  rw [heq, h'.next_append r'] at hnext
  exact (congrArg Prod.fst (Option.some.inj hnext)).symm

/-! ## Words and tail -/

variable (R ok)

/-- The words read one after the other, and what is left where none is read. -/
def segments (s : List α) : List (List α) × List α :=
  match _h : R.read ok s with
  | none => ([], s)
  | some (t, r) => (t :: (segments r).1, (segments r).2)
termination_by s.length
decreasing_by all_goals exact length_read_lt _h

variable {R ok}

theorem segments_of_none {s : List α} (h : R.read ok s = none) : R.segments ok s = ([], s) := by
  rw [segments]
  split
  · rfl
  · rename_i h'
    rw [h] at h'
    cases h'

theorem segments_of_some {s t r : List α} (h : R.read ok s = some (t, r)) :
    R.segments ok s = (t :: (R.segments ok r).1, (R.segments ok r).2) := by
  rw [segments]
  split
  · rename_i h'
    rw [h] at h'
    cases h'
  · rename_i h'
    rw [h] at h'
    cases h'
    rfl

theorem word_of_mem_segments (s : List α) : ∀ t ∈ (R.segments ok s).1, R.Word t := by
  induction s using segments.induct R ok with
  | case1 s h =>
    rw [segments_of_none h]
    exact fun t ht => absurd ht List.not_mem_nil
  | case2 s t r h ih =>
    rw [segments_of_some h]
    intro t' ht'
    obtain rfl | hmem := List.mem_cons.mp ht'
    · exact word_of_read h
    · exact ih t' hmem

/-- Nothing is lost. -/
theorem flatten_segments (R : WordReader α) (ok : List α → Bool) (s : List α) :
    (R.segments ok s).1.flatten ++ (R.segments ok s).2 = s := by
  induction s using segments.induct R ok with
  | case1 s h =>
    rw [segments_of_none h]
    rfl
  | case2 s t r h ih =>
    rw [segments_of_some h, List.flatten_cons, List.append_assoc, ih, ← read_eq_append h]

theorem read_tail (s : List α) : R.read ok (R.segments ok s).2 = none := by
  induction s using segments.induct R ok with
  | case1 s h => rwa [segments_of_none h]
  | case2 s t r h ih => rwa [segments_of_some h]

/-! ## Erasing -/

variable [DecidableEq α] (R ok)

/-- The words that are not the string, and the tail. -/
def without (b s : List α) : List α :=
  ((R.segments ok s).1.filter (· ≠ b)).flatten ++ (R.segments ok s).2

/-- The string is erased wherever it is found before the next word is read. -/
def erase (b s : List α) : List α :=
  if _hb : b ≠ [] ∧ b.isPrefixOf s then erase b (s.drop b.length)
  else
    match _h : R.read ok s with
    | none => s
    | some (t, r) => t ++ erase b r
termination_by s.length
decreasing_by
  · have hpos := List.length_pos_iff.mpr _hb.1
    have hle := (List.isPrefixOf_iff_prefix.mp _hb.2).length_le
    rw [List.length_drop]
    omega
  · exact length_read_lt _h

variable {R ok} {b : List α}

theorem without_of_none {s : List α} (h : R.read ok s = none) : R.without ok b s = s := by
  rw [without, segments_of_none h]
  rfl

theorem without_of_read_self {s r : List α} (h : R.read ok s = some (b, r)) :
    R.without ok b s = R.without ok b r := by
  unfold without
  rw [segments_of_some h, List.filter_cons_of_neg (by simp)]

theorem without_of_read_ne {s t r : List α} (h : R.read ok s = some (t, r)) (hne : t ≠ b) :
    R.without ok b s = t ++ R.without ok b r := by
  unfold without
  rw [segments_of_some h, List.filter_cons_of_pos (by simpa using hne), List.flatten_cons,
    List.append_assoc]

/-- What is no word is not among the words. -/
theorem without_of_not_word (hb : ¬R.Word b) (s : List α) : R.without ok b s = s := by
  unfold without
  rw [List.filter_eq_self.mpr fun t ht => ?_, flatten_segments]
  rw [decide_eq_true_iff]
  rintro rfl
  exact hb (word_of_mem_segments s t ht)

theorem erase_front (hb : b ≠ []) (r : List α) : R.erase ok b (b ++ r) = R.erase ok b r := by
  rw [erase, dif_pos ⟨hb, List.isPrefixOf_iff_prefix.mpr (List.prefix_append b r)⟩,
    List.drop_left]

theorem erase_of_none {s : List α} (hb : ¬b <+: s) (h : R.read ok s = none) :
    R.erase ok b s = s := by
  rw [erase, dif_neg fun hpre => hb (List.isPrefixOf_iff_prefix.mp hpre.2)]
  split
  · rfl
  · rename_i h'
    rw [h] at h'
    cases h'

theorem erase_of_some {s t r : List α} (hb : ¬b <+: s) (h : R.read ok s = some (t, r)) :
    R.erase ok b s = t ++ R.erase ok b r := by
  rw [erase, dif_neg fun hpre => hb (List.isPrefixOf_iff_prefix.mp hpre.2)]
  split
  · rename_i h'
    rw [h] at h'
    cases h'
  · rename_i h'
    rw [h] at h'
    cases h'
    rfl

theorem length_erase_le (R : WordReader α) (ok : List α → Bool) (b s : List α) : (R.erase ok b s).length ≤ s.length := by
  induction s using erase.induct R ok b with
  | case1 s hb ih =>
    rw [erase, dif_pos hb]
    rw [List.length_drop] at ih
    omega
  | case2 s hb h =>
    rw [erase, dif_neg hb]
    split
    · exact Nat.le_refl _
    · rename_i h'
      rw [h] at h'
      cases h'
  | case3 s hb t r h ih =>
    rw [erase, dif_neg hb]
    split
    · exact Nat.le_refl _
    · rename_i h'
      rw [h] at h'
      cases h'
      have hlen := congrArg List.length (read_eq_append h)
      rw [List.length_append] at hlen ⊢
      omega

/-- What is found in front is lost. -/
theorem length_erase_lt (R : WordReader α) (ok : List α → Bool) {s : List α} (hb : b ≠ [])
    (h : b <+: s) :
    (R.erase ok b s).length < s.length := by
  obtain ⟨r, rfl⟩ := h
  have hle := length_erase_le R ok b r
  have hpos := List.length_pos_iff.mpr hb
  rw [erase_front hb, List.length_append]
  omega

variable (R ok)

/-- The places between words, the one at the tail among them. -/
inductive Reaches : List α → List α → Prop
  | refl (s : List α) : Reaches s s
  | step {s t r s' : List α} (h : R.read ok s = some (t, r)) (h' : Reaches r s') : Reaches s s'

/-- Where the string is found between words, it is the word that is read. -/
def ReadWhereFound (b s : List α) : Prop :=
  ∀ s', R.Reaches ok s s' → b <+: s' → ∃ r, R.read ok s' = some (b, r)

variable {R ok}

theorem readWhereFound_of_none {s : List α} (h : R.read ok s = none) :
    R.ReadWhereFound ok b s ↔ ¬b <+: s := by
  constructor
  · intro hfound hpre
    obtain ⟨r, hr⟩ := hfound s (.refl s) hpre
    rw [h] at hr
    cases hr
  · rintro hpre s' (_ | ⟨h', -⟩) hpre'
    · exact absurd hpre' hpre
    · rw [h] at h'
      cases h'

theorem readWhereFound_of_some {s t r : List α} (h : R.read ok s = some (t, r)) :
    R.ReadWhereFound ok b s ↔ (b <+: s → t = b) ∧ R.ReadWhereFound ok b r := by
  constructor
  · intro hfound
    refine ⟨fun hpre => ?_, fun s' hs' => hfound s' (.step h hs')⟩
    obtain ⟨r', hr'⟩ := hfound s (.refl s) hpre
    rw [h] at hr'
    exact congrArg Prod.fst (Option.some.inj hr')
  · rintro ⟨hfront, hfound⟩ s' (_ | ⟨h', hs'⟩) hpre
    · exact ⟨r, hfront hpre ▸ h⟩
    · rw [h] at h'
      cases h'
      exact hfound s' hs' hpre

/-- A word in front of what is read is the word that is read. -/
theorem not_word_of_read_ne {s t r : List α} (h : R.read ok s = some (t, r)) (hpre : b <+: s)
    (hne : t ≠ b) : ¬R.Word b := by
  obtain ⟨r', rfl⟩ := hpre
  exact fun hb => hne ((word_of_read h).eq_of_append hb (read_eq_append h).symm)

/-- **Erasing is filtering** : the words equal to the string are dropped and nothing else is, if
and only if the string is read wherever it is found between words. -/
theorem erase_eq_iff (hb : b ≠ []) (s : List α) :
    R.erase ok b s = R.without ok b s ↔ R.ReadWhereFound ok b s := by
  induction s using segments.induct R ok with
  | case1 s h =>
    rw [readWhereFound_of_none h, without_of_none h]
    constructor
    · intro heq hpre
      have hlt := length_erase_lt R ok hb hpre
      rw [heq] at hlt
      exact Nat.lt_irrefl _ hlt
    · exact fun hpre => erase_of_none hpre h
  | case2 s t r h ih =>
    rw [readWhereFound_of_some h, ← ih]
    by_cases hpre : b <+: s
    · by_cases ht : t = b
      · subst ht
        rw [without_of_read_self h, read_eq_append h, erase_front hb]
        exact ⟨fun heq => ⟨fun _ => rfl, heq⟩, fun heq => heq.2⟩
      · -- what is erased here is no word, and the words are all kept
        rw [without_of_not_word (not_word_of_read_ne h hpre ht)]
        have hlt := length_erase_lt R ok hb hpre
        exact ⟨fun heq => absurd (congrArg List.length heq) hlt.ne, fun hfound =>
          absurd (hfound.1 hpre) ht⟩
    · have ht : t ≠ b := by
        rintro rfl
        exact hpre ⟨r, (read_eq_append h).symm⟩
      rw [erase_of_some hpre h, without_of_read_ne h ht, List.append_cancel_left_eq]
      exact ⟨fun heq => ⟨fun hpre' => absurd hpre' hpre, heq⟩, fun hfound => hfound.2⟩

/-- In what is left of the words the string is not found again. -/
theorem erase_without (hword : R.Word b) {s : List α} (hfound : R.ReadWhereFound ok b s) :
    R.erase ok b (R.without ok b s) = R.without ok b s := by
  induction s using segments.induct R ok with
  | case1 s h =>
    rw [without_of_none h]
    exact erase_of_none ((readWhereFound_of_none h).mp hfound) h
  | case2 s t r h ih =>
    obtain ⟨-, hfound'⟩ := (readWhereFound_of_some h).mp hfound
    by_cases ht : t = b
    · subst ht
      rw [without_of_read_self h]
      exact ih hfound'
    · rw [without_of_read_ne h ht]
      generalize hw : R.without ok b r = w at ih
      have hpre : ¬b <+: t ++ w := by
        rintro ⟨x, hx⟩
        exact ht ((word_of_read h).eq_of_append hword hx.symm)
      match hread : R.read ok (t ++ w) with
      | none => exact erase_of_none hpre hread
      | some (t', r') =>
        have hnext := next_of_read hread
        rw [(word_of_read h).next_append w] at hnext
        cases hnext
        rw [erase_of_some hpre hread, ih hfound']

/-- Erasing once more changes nothing. -/
theorem erase_erase (hb : b ≠ []) {s : List α} (hfound : R.ReadWhereFound ok b s) :
    R.erase ok b (R.erase ok b s) = R.erase ok b s := by
  have heq := (erase_eq_iff hb s).mpr hfound
  by_cases hword : R.Word b
  · rw [heq]
    exact erase_without hword hfound
  · rw [without_of_not_word hword] at heq
    rw [heq, heq]

/-! ## No word refused -/

section

variable {n : ℕ}

/-- Words and a tail are read as they are. -/
theorem segments_append (hok : ∀ s : List α, s.length < n → R.read ok s = R.next s) {tail : List α}
    (htail : R.read ok tail = none) : ∀ {words : List (List α)}, (∀ t ∈ words, R.Word t) →
    (words.flatten ++ tail).length < n → R.segments ok (words.flatten ++ tail) = (words, tail)
  | [], _, _ => segments_of_none htail
  | t :: words, hwords, hlen => by
    have hread : R.read ok (t ++ (words.flatten ++ tail)) = some (t, words.flatten ++ tail) := by
      rw [hok _ (by rwa [List.flatten_cons, List.append_assoc] at hlen)]
      exact (hwords t List.mem_cons_self).next_append _
    rw [List.flatten_cons, List.append_assoc] at hlen ⊢
    rw [List.length_append] at hlen
    rw [segments_of_some hread, segments_append hok htail
      (fun t' ht' => hwords t' (List.mem_cons_of_mem t ht')) (by omega)]

theorem length_without_le (b s : List α) : (R.without ok b s).length ≤ s.length := by
  conv_rhs => rw [← flatten_segments R ok s]
  unfold without
  rw [List.length_append, List.length_append]
  have hsub := ((R.segments ok s).1.filter_sublist (p := (· ≠ b))).flatten.length_le
  omega

theorem segments_without (hok : ∀ s : List α, s.length < n → R.read ok s = R.next s) {s : List α}
    (hs : s.length < n) (b : List α) :
    R.segments ok (R.without ok b s) =
      ((R.segments ok s).1.filter (· ≠ b), (R.segments ok s).2) :=
  segments_append hok (read_tail s)
    (fun t ht => word_of_mem_segments s t (List.mem_of_mem_filter ht))
    ((length_without_le b s).trans_lt hs)

theorem Reaches.length_le {s s' : List α} (h : R.Reaches ok s s') : s'.length ≤ s.length := by
  induction h with
  | refl s => exact Nat.le_refl _
  | step h _ ih => exact ih.trans (length_read_lt h).le

/-- A word is read wherever it is, and what is longer is nowhere found. -/
theorem readWhereFound_of_lt (hok : ∀ s : List α, s.length < n → R.read ok s = R.next s) {s : List α}
    (hs : s.length < n) (hb : R.Word b ∨ n ≤ b.length) : R.ReadWhereFound ok b s := by
  rintro s' hreach ⟨r, rfl⟩
  have hlen := hreach.length_le.trans_lt hs
  refine ⟨r, ?_⟩
  rw [hok _ hlen]
  refine (hb.resolve_right fun hle => ?_).next_append r
  rw [List.length_append] at hlen
  omega

/-- **Erasing several strings** leaves the words that are none of them. -/
theorem foldl_erase (hok : ∀ s : List α, s.length < n → R.read ok s = R.next s) :
    ∀ {bs : List (List α)} {s : List α}, s.length < n →
    (∀ b ∈ bs, b ≠ [] ∧ (R.Word b ∨ n ≤ b.length)) →
    bs.foldl (fun s b => R.erase ok b s) s =
      ((R.segments ok s).1.filter (· ∉ bs)).flatten ++ (R.segments ok s).2
  | [], s, _, _ => by
    conv_lhs => rw [List.foldl_nil, ← flatten_segments R ok s]
    rw [List.filter_eq_self.mpr fun t _ => by simp]
  | b :: bs, s, hs, hbs => by
    obtain ⟨hne, hb⟩ := hbs b List.mem_cons_self
    have heq := (erase_eq_iff hne s).mpr (readWhereFound_of_lt hok hs hb)
    have hlen := (length_erase_le R ok b s).trans_lt hs
    rw [List.foldl_cons, foldl_erase hok hlen fun b' hb' => hbs b' (List.mem_cons_of_mem b hb'), heq,
      segments_without hok hs, List.filter_filter]
    congr 3
    funext t
    simp [Bool.and_comm]

end

end WordReader

end Segments
