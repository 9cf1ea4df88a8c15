import Mathlib.Data.List.Find
import Mathlib.Data.List.Forall2
import Mathlib.Data.List.Nodup
import Mathlib.Data.Nat.Basic
import Mathlib.Logic.Function.Basic

/-!
# Choosing in turn

Choosers take, one after the other, the first candidate that is valid for them and that is left, up
to a number of choices (`chosen`). Choosers that have a candidate of their own do not go without
(`min_le_length_chosen`).

Candidates that are added later do not undo this : of those known before, only what was chosen is
chosen again (`mem_chosen_of_sublist`). So what was not chosen may be left out before others are
added, and the choice is that from all of them (`chosen_merge`).

The candidates may as well be given out one after the other, each to the first chooser that it is
valid for and that has none (`assign`). This leads to the same choice (`take_filterMap_assign`).
-/

namespace Choice

variable {α β : Type}

section

variable [DecidableEq β] (valid : α → β → Bool)

/-- What up to `n` of the choosers take. -/
def chosen : ℕ → List α → List β → List β
  | n + 1, a :: as, bs =>
    match bs.find? (valid a) with
    | none => chosen (n + 1) as bs
    | some b => b :: chosen n as (bs.erase b)
  | _, _, _ => []

end

/-- A candidate is given to the first chooser that it is valid for and that has none. -/
def assign [DecidableEq α] (valid : α → β → Bool) (as : List α) (given : α → Option β) (b : β) :
    α → Option β :=
  match as.find? fun a => (given a).isNone && valid a b with
  | none => given
  | some a => Function.update given a (some b)

variable {valid : α → β → Bool} {n : ℕ} {a : α} {as : List α} {us vs ws bs : List β}

/-- The first of some is the first of a part of them that it is in. -/
theorem find?_of_sublist {p : β → Bool} {b : β} (h : us.Sublist vs) (hnodup : vs.Nodup)
    (hfind : vs.find? p = some b) (hb : b ∈ us) : us.find? p = some b := by
  induction h with
  | slnil => exact hfind
  | @cons us vs v hsub ih =>
    have hv : v ∉ us := fun hv => (List.nodup_cons.mp hnodup).1 (hsub.subset hv)
    rw [List.find?_cons] at hfind
    split at hfind
    · cases hfind
      exact absurd hb hv
    · exact ih (List.nodup_cons.mp hnodup).2 hfind hb
  | @cons_cons us vs v hsub ih =>
    have hp := List.find?_some hfind
    rw [List.find?_cons] at hfind ⊢
    split
    · rename_i hv
      rw [hv] at hfind
      exact hfind
    · rename_i hv
      rw [hv] at hfind
      refine ih (List.nodup_cons.mp hnodup).2 hfind ?_
      rcases List.mem_cons.mp hb with rfl | hb
      · rw [hp] at hv
        cases hv
      · exact hb

theorem find?_eq_none_of_sublist {p : β → Bool} (h : us.Sublist vs) (hfind : vs.find? p = none) :
    us.find? p = none :=
  List.find?_eq_none.mpr fun b hb => List.find?_eq_none.mp hfind b (h.subset hb)

/-! ## The choice -/

section

variable [DecidableEq β]

theorem chosen_subset : ∀ {n : ℕ} {as : List α} {bs : List β}, chosen valid n as bs ⊆ bs
  | 0, _, _ => by
    unfold chosen
    exact List.nil_subset _
  | _ + 1, [], _ => by
    unfold chosen
    exact List.nil_subset _
  | n + 1, a :: as, bs => by
    unfold chosen
    cases hfind : bs.find? (valid a) with
    | none => exact chosen_subset
    | some b =>
      exact List.cons_subset.mpr ⟨List.mem_of_find?_eq_some hfind,
        fun c hc => List.mem_of_mem_erase (chosen_subset hc)⟩

theorem length_chosen_le : ∀ {n : ℕ} {as : List α} {bs : List β}, (chosen valid n as bs).length ≤ n
  | 0, _, _ => by
    unfold chosen
    exact Nat.le_refl 0
  | _ + 1, [], _ => by
    unfold chosen
    exact Nat.zero_le _
  | n + 1, a :: as, bs => by
    unfold chosen
    cases bs.find? (valid a) with
    | none => exact length_chosen_le
    | some b => exact Nat.succ_le_succ length_chosen_le

/-- What is chosen is valid for choosers in their order. -/
theorem sublistForall₂_chosen : ∀ (n : ℕ) (as : List α) (bs : List β),
    List.SublistForall₂ (fun b a => valid a b = true) (chosen valid n as bs) as
  | 0, _, _ => by
    unfold chosen
    exact .nil
  | _ + 1, [], _ => by
    unfold chosen
    exact .nil
  | n + 1, a :: as, bs => by
    unfold chosen
    cases hfind : bs.find? (valid a) with
    | none => exact (sublistForall₂_chosen (n + 1) as bs).cons_right
    | some b => exact (sublistForall₂_chosen n as (bs.erase b)).cons (List.find?_some hfind)

/-- Choosers that have a candidate of their own do not go without. -/
theorem min_le_length_chosen : ∀ {n : ℕ} {as own : List α} {bs : List β}, as.Nodup →
    own.Sublist as →
    (∀ a ∈ own, ∃ b ∈ bs, valid a b = true ∧ ∀ a' ∈ as, valid a' b = true → a' = a) →
    min n own.length ≤ (chosen valid n as bs).length
  | 0, _, _, _, _, _, _ => (Nat.min_le_left _ _).trans (Nat.zero_le _)
  | _ + 1, [], own, _, _, hsub, _ => by
    rw [List.sublist_nil.mp hsub]
    exact (Nat.min_le_right _ _).trans (Nat.zero_le _)
  | n + 1, a :: as, own, bs, hnodup, hsub, hown => by
    obtain ⟨ha, hrest⟩ := List.nodup_cons.mp hnodup
    unfold chosen
    cases hfind : bs.find? (valid a) with
    | none =>
      have hsub' : own.Sublist as := by
        rcases List.sublist_cons_iff.mp hsub with hsub' | ⟨own', rfl, -⟩
        · exact hsub'
        · obtain ⟨b, hb, hvalid, -⟩ := hown a List.mem_cons_self
          exact absurd hvalid (List.find?_eq_none.mp hfind b hb)
      refine min_le_length_chosen hrest hsub' fun c hc => ?_
      obtain ⟨b, hb, hvalid, hunique⟩ := hown c hc
      exact ⟨b, hb, hvalid, fun a' ha' => hunique a' (List.mem_cons_of_mem _ ha')⟩
    | some b =>
      obtain ⟨own', hsub', hmem, hlen⟩ : ∃ own' : List α, own'.Sublist as ∧
          (∀ c ∈ own', c ∈ own) ∧ own.length ≤ own'.length + 1 := by
        rcases List.sublist_cons_iff.mp hsub with hsub' | ⟨own', rfl, hsub'⟩
        · exact ⟨own, hsub', fun _ h => h, Nat.le_succ _⟩
        · exact ⟨own', hsub', fun _ h => List.mem_cons_of_mem _ h, Nat.le_refl _⟩
      have hle : min n own'.length ≤ (chosen valid n as (bs.erase b)).length := by
        refine min_le_length_chosen hrest hsub' fun c hc => ?_
        obtain ⟨b', hb', hvalid, hunique⟩ := hown c (hmem c hc)
        have hne : b' ≠ b := by
          rintro rfl
          rw [hunique a List.mem_cons_self (List.find?_some hfind)] at ha
          exact ha (hsub'.subset hc)
        exact ⟨b', (List.mem_erase_of_ne hne).mpr hb', hvalid,
          fun a' ha' => hunique a' (List.mem_cons_of_mem _ ha')⟩
      rw [List.length_cons]
      omega

/-! ## Fewer and more candidates -/

/-- The choice is that from a part that has all that is chosen. -/
theorem chosen_of_sublist : ∀ {n : ℕ} {as : List α} {us vs : List β}, us.Sublist vs → vs.Nodup →
    (∀ b ∈ chosen valid n as vs, b ∈ us) → chosen valid n as us = chosen valid n as vs
  | 0, _, _, _, _, _, _ => by
    unfold chosen
    rfl
  | _ + 1, [], _, _, _, _, _ => by
    unfold chosen
    rfl
  | n + 1, a :: as, us, vs, h, hnodup, hall => by
    unfold chosen at hall ⊢
    cases hfind : vs.find? (valid a) with
    | none =>
      rw [hfind] at hall
      rw [find?_eq_none_of_sublist h hfind]
      exact chosen_of_sublist h hnodup hall
    | some b =>
      rw [hfind] at hall
      obtain ⟨hb, hrest⟩ := List.forall_mem_cons.mp hall
      rw [find?_of_sublist h hnodup hfind hb]
      dsimp only
      congr 1
      refine chosen_of_sublist (h.erase b) (hnodup.erase b) fun c hc => ?_
      have hne := (hnodup.mem_erase_iff.mp (chosen_subset hc)).1
      exact (List.mem_erase_of_ne hne).mpr (hrest c hc)

/-- Of some of the candidates, only what is chosen from them is chosen from all. -/
theorem mem_chosen_of_sublist : ∀ {n k : ℕ} {as : List α} {us vs : List β} {b : β}, n ≤ k →
    us.Sublist vs → vs.Nodup → b ∈ chosen valid n as vs → b ∈ us → b ∈ chosen valid k as us
  | 0, _, _, _, _, _, _, _, _, hb, _ => by
    unfold chosen at hb
    exact absurd hb List.not_mem_nil
  | _ + 1, _, [], _, _, _, _, _, _, hb, _ => by
    unfold chosen at hb
    exact absurd hb List.not_mem_nil
  | n + 1, k + 1, a :: as, us, vs, b, hle, h, hnodup, hb, hmem => by
    unfold chosen at hb ⊢
    cases hfind : vs.find? (valid a) with
    | none =>
      rw [hfind] at hb
      rw [find?_eq_none_of_sublist h hfind]
      exact mem_chosen_of_sublist hle h hnodup hb hmem
    | some v =>
      rw [hfind] at hb
      by_cases hv : v ∈ us
      · rw [find?_of_sublist h hnodup hfind hv]
        rcases List.mem_cons.mp hb with rfl | hb
        · exact List.mem_cons_self
        · have hne := (hnodup.mem_erase_iff.mp (chosen_subset hb)).1
          exact List.mem_cons_of_mem _ (mem_chosen_of_sublist (Nat.le_of_succ_le_succ hle)
            (h.erase v) (hnodup.erase v) hb ((List.mem_erase_of_ne hne).mpr hmem))
      · -- one that is new is taken, and what was taken in its place is left
        have hbv : b ≠ v := fun hbv => hv (hbv ▸ hmem)
        have hb := (List.mem_cons.mp hb).resolve_left hbv
        have hsub : us.Sublist (vs.erase v) := by
          rw [← List.erase_of_not_mem hv]
          exact h.erase v
        cases hown : us.find? (valid a) with
        | none =>
          exact mem_chosen_of_sublist (Nat.le_of_succ_le hle) hsub (hnodup.erase v) hb hmem
        | some u =>
          by_cases hbu : b = u
          · rw [hbu]
            exact List.mem_cons_self
          · exact List.mem_cons_of_mem _ (mem_chosen_of_sublist (Nat.le_of_succ_le_succ hle)
              (List.erase_sublist.trans hsub) (hnodup.erase v) hb
              ((List.mem_erase_of_ne hbu).mpr hmem))

/-- What was not chosen may be left out before others are added. -/
theorem chosen_merge (hus : us.Sublist vs) (hws : ws.Sublist vs) (hnodup : vs.Nodup)
    (hkept : ∀ b ∈ chosen valid n as us, b ∈ ws) (hnew : ∀ b ∈ vs, b ∉ us → b ∈ ws) :
    chosen valid n as ws = chosen valid n as vs := by
  refine chosen_of_sublist hws hnodup fun b hb => ?_
  by_cases hmem : b ∈ us
  · exact hkept b (mem_chosen_of_sublist (Nat.le_refl n) hus hnodup hb hmem)
  · exact hnew b (chosen_subset hb) hmem

end

/-! ## Candidates given out -/

section

variable [DecidableEq α]

/-- A chooser that has a candidate takes no part. -/
theorem assign_cons_of_isSome {given : α → Option β} (b : β) (h : (given a).isSome = true) :
    assign valid (a :: as) given b = assign valid as given b := by
  have hskip : ((given a).isNone && valid a b) = false := by
    rw [Option.isNone_eq_false_iff.mpr h, Bool.false_and]
  unfold assign
  rw [List.find?_cons, hskip]

theorem assign_cons_of_invalid {given : α → Option β} {b : β} (h : valid a b = false) :
    assign valid (a :: as) given b = assign valid as given b := by
  have hskip : ((given a).isNone && valid a b) = false := by rw [h, Bool.and_false]
  unfold assign
  rw [List.find?_cons, hskip]

theorem assign_apply_of_not_mem (given : α → Option β) (b : β) (h : a ∉ as) :
    assign valid as given b a = given a := by
  unfold assign
  cases hfind : as.find? fun a => (given a).isNone && valid a b with
  | none => rfl
  | some key =>
    refine Function.update_of_ne ?_ _ _
    rintro rfl
    exact h (List.mem_of_find?_eq_some hfind)

theorem foldl_assign_apply_of_not_mem (h : a ∉ as) : ∀ (bs : List β) (given : α → Option β),
    bs.foldl (assign valid as) given a = given a
  | [], _ => rfl
  | b :: bs, given => by
    rw [List.foldl_cons, foldl_assign_apply_of_not_mem h, assign_apply_of_not_mem _ _ h]

theorem foldl_assign_cons_of_isSome (ha : a ∉ as) : ∀ (bs : List β) {given : α → Option β},
    (given a).isSome = true →
      bs.foldl (assign valid (a :: as)) given = bs.foldl (assign valid as) given
  | [], _, _ => rfl
  | b :: bs, given, h => by
    rw [List.foldl_cons, List.foldl_cons, assign_cons_of_isSome b h]
    exact foldl_assign_cons_of_isSome ha bs (by rwa [assign_apply_of_not_mem _ _ ha])

theorem foldl_assign_cons_of_invalid : ∀ {bs : List β} (given : α → Option β),
    (∀ b ∈ bs, valid a b = false) →
      bs.foldl (assign valid (a :: as)) given = bs.foldl (assign valid as) given
  | [], _, _ => rfl
  | b :: bs, given, h => by
    obtain ⟨hb, hbs⟩ := List.forall_mem_cons.mp h
    rw [List.foldl_cons, List.foldl_cons, assign_cons_of_invalid hb]
    exact foldl_assign_cons_of_invalid _ hbs

/-- What some choosers are given depends on what they have. -/
theorem assign_congr {given given' : α → Option β} (b : β) (h : ∀ a ∈ as, given a = given' a) :
    ∀ a ∈ as, assign valid as given b a = assign valid as given' b a := by
  have hfind : (as.find? fun a => (given a).isNone && valid a b) =
      as.find? fun a => (given' a).isNone && valid a b :=
    List.find?_congr fun a ha => by rw [h a ha]
  intro a ha
  unfold assign
  rw [hfind]
  cases as.find? fun a => (given' a).isNone && valid a b with
  | none => exact h a ha
  | some key =>
    by_cases hkey : a = key
    · subst hkey
      dsimp only
      rw [Function.update_self, Function.update_self]
    · dsimp only
      rw [Function.update_of_ne hkey, Function.update_of_ne hkey, h a ha]

theorem foldl_assign_congr : ∀ (bs : List β) {given given' : α → Option β},
    (∀ a ∈ as, given a = given' a) →
      ∀ a ∈ as, bs.foldl (assign valid as) given a = bs.foldl (assign valid as) given' a
  | [], _, _, h => h
  | b :: bs, _, _, h => foldl_assign_congr bs (assign_congr b h)

variable [DecidableEq β]

/-- The first chooser is given its first candidate, and the others are given the rest. -/
theorem foldl_assign_cons {b : β} (ha : a ∉ as) (hfind : bs.find? (valid a) = some b) :
    bs.foldl (assign valid (a :: as)) (fun _ => none) a = some b ∧
      ∀ a' ∈ as, bs.foldl (assign valid (a :: as)) (fun _ => none) a' =
        (bs.erase b).foldl (assign valid as) (fun _ => none) a' := by
  obtain ⟨hb, us, ws, rfl, hus⟩ := List.find?_eq_some_iff_append.mp hfind
  have hinvalid : ∀ u ∈ us, valid a u = false := fun u hu => by simpa using hus u hu
  have hbus : b ∉ us := fun hmem => by
    rw [hinvalid b hmem] at hb
    cases hb
  have hstart : us.foldl (assign valid as) (fun _ => none) a = none :=
    foldl_assign_apply_of_not_mem ha us _
  rw [List.foldl_append, List.foldl_cons, foldl_assign_cons_of_invalid _ hinvalid,
    List.erase_append_right _ hbus, List.erase_cons_head, List.foldl_append]
  generalize us.foldl (assign valid as) (fun _ => none) = given at hstart
  have hgive : assign valid (a :: as) given b = Function.update given a (some b) := by
    have hfirst : ((given a).isNone && valid a b) = true := by
      rw [hstart, hb]
      rfl
    unfold assign
    rw [List.find?_cons, hfirst]
  have hsome : (Function.update given a (some b) a).isSome = true := by
    rw [Function.update_self]
    rfl
  rw [hgive, foldl_assign_cons_of_isSome ha ws hsome]
  refine ⟨?_, foldl_assign_congr ws fun a' ha' => Function.update_of_ne ?_ _ _⟩
  · rw [foldl_assign_apply_of_not_mem ha, Function.update_self]
  · rintro rfl
    exact ha ha'

/-- What the first `n` choosers that are given one have is what they choose. -/
theorem take_filterMap_assign : ∀ {as : List α}, as.Nodup → ∀ (n : ℕ) (bs : List β),
    (as.filterMap (bs.foldl (assign valid as) fun _ => none)).take n = chosen valid n as bs
  | [], _, n, bs => by
    rw [List.filterMap_nil, List.take_nil]
    cases n <;> rfl
  | a :: as, hnodup, n, bs => by
    obtain ⟨ha, hrest⟩ := List.nodup_cons.mp hnodup
    cases n with
    | zero =>
      unfold chosen
      rw [List.take_zero]
    | succ n =>
      unfold chosen
      cases hfind : bs.find? (valid a) with
      | none =>
        have hinvalid : ∀ b ∈ bs, valid a b = false := fun b hb => by
          simpa using List.find?_eq_none.mp hfind b hb
        rw [foldl_assign_cons_of_invalid _ hinvalid, List.filterMap_cons,
          foldl_assign_apply_of_not_mem ha]
        exact take_filterMap_assign hrest (n + 1) bs
      | some b =>
        obtain ⟨hfirst, hothers⟩ := foldl_assign_cons ha hfind
        rw [List.filterMap_cons, hfirst]
        dsimp only
        rw [List.filterMap_congr hothers, List.take_succ_cons, take_filterMap_assign hrest n]

end

end Choice
