import Mathlib.Algebra.BigOperators.Group.List.Basic
import Mathlib.Algebra.BigOperators.Group.Finset.Basic
import Mathlib.Algebra.BigOperators.Group.Finset.Piecewise
import Mathlib.Algebra.Order.BigOperators.Group.Finset
import Mathlib.Algebra.Order.BigOperators.Group.List
import Mathlib.Data.List.Nodup
import Mathlib.Tactic.Linarith

/-!
# Ledgers : coins, spends and their sums

Coins have names and values, and every spend names a coin. If no coin is spent twice, the
coins that are spent are worth what the spends are (`sum_spent`). The second part adds up
values in a monad of failures : a loop whose steps each add a value adds their sum
(`foldlM_of_add`, `eq_add_sum_of_foldlM`).
-/

namespace Ledger

/-! ## Spent coins -/

variable {ι : Type*} [DecidableEq ι]

/-- What is spent of the coins is what the spends take, where spends of other names take
nothing. -/
theorem sum_spent {coins spends : List ι} (hcoins : coins.Nodup) (hspends : spends.Nodup)
    (value : ι → ℤ) (hother : ∀ o ∈ spends, o ∉ coins → value o = 0) :
    (coins.map fun o => if o ∈ spends then value o else 0).sum = (spends.map value).sum := by
  rw [← List.sum_toFinset _ hcoins, ← List.sum_toFinset _ hspends]
  have hfilter : ∀ o, (if o ∈ spends then value o else 0) =
      if o ∈ spends.toFinset then value o else 0 := fun o => by simp only [List.mem_toFinset]
  simp only [hfilter]
  rw [Finset.sum_ite_mem]
  refine Finset.sum_subset Finset.inter_subset_right fun o ho hnot => hother o ?_ ?_
  · exact List.mem_toFinset.mp ho
  · intro hmem
    exact hnot (Finset.mem_inter.mpr ⟨List.mem_toFinset.mpr hmem, ho⟩)

/-- Lists without duplicates that belong to different elements have none together. -/
theorem nodup_flatMap_of {α β : Type*} {l : List α} {f : α → List β} (hl : l.Nodup)
    (hf : ∀ x ∈ l, (f x).Nodup)
    (hdisjoint : ∀ x ∈ l, ∀ y ∈ l, ∀ o, o ∈ f x → o ∈ f y → x = y) : (l.flatMap f).Nodup := by
  refine List.nodup_flatMap.mpr ⟨hf, hl.imp_of_mem fun {x y} hx hy hne => ?_⟩
  exact List.disjoint_left.mpr fun o hox hoy => hne (hdisjoint x hx y hy o hox hoy)

/-- A sum over a concatenation. -/
theorem sum_map_flatMap {α β : Type*} (f : α → List β) (value : β → ℤ) : ∀ l : List α,
    ((l.flatMap f).map value).sum = (l.map fun x => ((f x).map value).sum).sum
  | [] => rfl
  | x :: l => by
    rw [List.flatMap_cons, List.map_append, List.sum_append, sum_map_flatMap f value l,
      List.map_cons, List.sum_cons]

/-- A sum over the elements that satisfy a predicate. -/
theorem sum_map_filter {α : Type*} (p : α → Bool) (value : α → ℤ) (l : List α) :
    ((l.filter p).map value).sum = (l.map fun x => if p x then value x else 0).sum := by
  have h := List.sum_map_ite (fun x => p x) value (fun _ => 0) l
  simp only [List.map_const', List.sum_replicate, nsmul_zero, add_zero] at h
  rw [h]
  simp

/-- A sum over the places of a list. -/
theorem sum_range_getD : ∀ l : List ℤ, ∑ i ∈ Finset.range l.length, (l[i]?).getD 0 = l.sum
  | [] => rfl
  | x :: l => by
    rw [List.length_cons, Finset.sum_range_succ', List.sum_cons, add_comm]
    exact congrArg (x + ·) (sum_range_getD l)

omit [DecidableEq ι] in
/-- Coins at different places of a list are worth no more than all of it. -/
theorem sum_le_of_places {coins : Finset ι} {l : List ℤ} (place : ι → ℕ)
    (hplace : Set.InjOn place coins) (value : ι → ℤ)
    (hvalue : ∀ o ∈ coins, value o ≤ (l[place o]?).getD 0) (hpos : ∀ x ∈ l, 0 ≤ x) :
    ∑ o ∈ coins, value o ≤ l.sum := by
  have hnonneg : ∀ i : ℕ, 0 ≤ (l[i]?).getD 0 := by
    intro i
    cases h : l[i]? with
    | none => exact le_rfl
    | some x => exact hpos x (List.mem_of_getElem? h)
  calc ∑ o ∈ coins, value o ≤ ∑ o ∈ coins, (l[place o]?).getD 0 := Finset.sum_le_sum hvalue
    _ = ∑ i ∈ coins.image place, (l[i]?).getD 0 := (Finset.sum_image (f := fun i : ℕ => (l[i]?).getD 0) hplace).symm
    _ ≤ ∑ i ∈ coins.image place ∪ Finset.range l.length, (l[i]?).getD 0 :=
      Finset.sum_le_sum_of_subset_of_nonneg Finset.subset_union_left fun i _ _ => hnonneg i
    _ = ∑ i ∈ Finset.range l.length, (l[i]?).getD 0 := by
      refine (Finset.sum_subset Finset.subset_union_right fun i _ hnot => ?_).symm
      rw [List.getElem?_eq_none (not_lt.mp fun h => hnot (Finset.mem_range.mpr h))]
      rfl
    _ = l.sum := sum_range_getD l

/-- What is left of coins after some different ones are spent. -/
theorem sum_unspent_le {coins : Finset ι} {spends : List ι} (hspends : spends.Nodup)
    {value : ι → ℤ} {total : ℤ} (htotal : ∀ coins : Finset ι, ∑ o ∈ coins, value o ≤ total) :
    ∑ o ∈ coins, (if o ∈ spends then 0 else value o) ≤ total - (spends.map value).sum := by
  have hleft : ∑ o ∈ coins, (if o ∈ spends then 0 else value o) =
      ∑ o ∈ coins \ spends.toFinset, value o := by
    rw [Finset.sdiff_eq_filter, Finset.sum_filter]
    refine Finset.sum_congr rfl fun o _ => ?_
    by_cases h : o ∈ spends
    · rw [if_pos h, if_neg (not_not.mpr (List.mem_toFinset.mpr h))]
    · rw [if_neg h, if_pos (mt List.mem_toFinset.mp h)]
  have hunion := htotal (coins \ spends.toFinset ∪ spends.toFinset)
  rw [Finset.sum_union Finset.sdiff_disjoint, List.sum_toFinset _ hspends] at hunion
  rw [hleft]
  linarith

/-! ## Sums in loops -/

variable {α ε : Type*}

/-- What the steps of a loop add to a total. -/
theorem total_foldl {β : Type*} {step : β → α → β} (total : β → ℤ) (value : α → ℤ)
    (h : ∀ b x, total (step b x) = total b + value x) : ∀ (l : List α) (b : β),
    total (l.foldl step b) = total b + (l.map value).sum
  | [], b => (add_zero _).symm
  | x :: l, b => by
    rw [List.foldl_cons, total_foldl total value h l, h, List.map_cons, List.sum_cons, add_assoc]

/-- A loop whose steps add values returns their sum on top. -/
theorem foldlM_of_add {M : Type*} [AddMonoid M] {step : M → α → Except ε M} (value : α → M) :
    ∀ {l : List α} {n : M}, (∀ x ∈ l, ∀ n, step n x = .ok (n + value x)) →
    l.foldlM step n = .ok (n + (l.map value).sum)
  | [], n, _ => by simp [pure, Except.pure]
  | x :: l, n, h => by
    rw [List.foldlM_cons, h x List.mem_cons_self, List.map_cons, List.sum_cons, ← add_assoc]
    exact foldlM_of_add value fun y hy => h y (List.mem_cons_of_mem x hy)

/-- If the loop returns and a step that returns adds its value, the loop returned the sum. -/
theorem eq_add_sum_of_foldlM {step : ℤ → α → Except ε ℤ} (value : α → ℤ)
    (hstep : ∀ n x m, step n x = .ok m → m = n + value x) : ∀ {l : List α} {n m : ℤ},
    l.foldlM step n = .ok m → m = n + (l.map value).sum
  | [], n, m, h => by
    cases h
    simp
  | x :: l, n, m, h => by
    rw [List.foldlM_cons] at h
    cases hx : step n x with
    | error e =>
      rw [hx] at h
      cases h
    | ok k =>
      rw [hx] at h
      rw [eq_add_sum_of_foldlM value hstep h, hstep n x k hx, List.map_cons, List.sum_cons, add_assoc]

/-- If the loop returns, and a step that returns has a property, then every element has it. -/
theorem forall_of_foldlM {step : ℤ → α → Except ε ℤ} {P : α → Prop}
    (hstep : ∀ n x m, step n x = .ok m → P x) : ∀ {l : List α} {n m : ℤ},
    l.foldlM step n = .ok m → ∀ x ∈ l, P x
  | [], _, _, _ => nofun
  | x :: l, n, m, h => by
    rw [List.foldlM_cons] at h
    cases hx : step n x with
    | error e =>
      rw [hx] at h
      cases h
    | ok k =>
      rw [hx] at h
      exact List.forall_mem_cons.mpr ⟨hstep n x k hx, forall_of_foldlM hstep h⟩

/-- A loop that adds values as long as the sum is at most `bound` returns the sum, if values
are not negative and the sum of all is at most `bound`. -/
theorem foldlM_of_bounded {step : ℤ → α → Except ε ℤ} (value : α → ℤ) (bound : ℤ) :
    ∀ {l : List α} {n : ℤ}, (∀ x ∈ l, ∀ n, 0 ≤ n → n + value x ≤ bound →
      step n x = .ok (n + value x)) → 0 ≤ n → (∀ x ∈ l, 0 ≤ value x) →
      n + (l.map value).sum ≤ bound → l.foldlM step n = .ok (n + (l.map value).sum)
  | [], n, _, _, _, _ => by simp [pure, Except.pure]
  | x :: l, n, hstep, hn, hpos, hsum => by
    have hx := hpos x List.mem_cons_self
    have hl : ∀ y ∈ l, 0 ≤ value y := fun y hy => hpos y (List.mem_cons_of_mem x hy)
    have hrest : 0 ≤ (l.map value).sum := List.sum_nonneg (by simpa using hl)
    rw [List.map_cons, List.sum_cons, ← add_assoc] at hsum
    rw [List.foldlM_cons, hstep x List.mem_cons_self n hn (by linarith), List.map_cons,
      List.sum_cons, ← add_assoc]
    exact foldlM_of_bounded value bound (fun y hy => hstep y (List.mem_cons_of_mem x hy))
      (add_nonneg hn hx) hl hsum

/-- A loop that may fail at some elements, and changes a number by a value at the others : it fails
if there is one of the first, and changes the number by the sum otherwise. -/
theorem toOption_foldlM {β : Type*} {step : β → α → Except ε β} (total : β → ℤ) (ok : α → Bool)
    (value : α → ℤ) (h : ∀ b x, (step b x).toOption.map total =
      if ok x then some (total b + value x) else none) : ∀ (l : List α) (b : β),
    (l.foldlM step b).toOption.map total =
      if l.all ok then some (total b + (l.map value).sum) else none
  | [], b => by simp [pure, Except.pure, Except.toOption]
  | x :: l, b => by
    have hx := h b x
    rw [List.foldlM_cons]
    cases hstep : step b x with
    | error e =>
      rw [hstep] at hx
      cases hok : ok x with
      | true =>
        rw [hok] at hx
        cases hx
      | false => simp [hok, bind, Except.bind, Except.toOption]
    | ok b' =>
      rw [hstep] at hx
      cases hok : ok x with
      | true =>
        rw [hok, if_pos rfl] at hx
        have hb' : total b' = total b + value x := Option.some.inj hx
        have ih := toOption_foldlM total ok value h l b'
        rw [hb', add_assoc] at ih
        rw [List.all_cons, hok, Bool.true_and, List.map_cons, List.sum_cons]
        exact ih
      | false =>
        rw [hok] at hx
        cases hx

/-! ## Sums along a list -/

section Along

variable {M : Type*} [AddMonoid M]

/-- The sum along a list of what each element is worth after those before it. -/
def sumAlong (f : List α → α → M) : List α → List α → M
  | _, [] => 0
  | before, x :: l => f before x + sumAlong f (before ++ [x]) l

theorem sumAlong_concat (f : List α → α → M) (x : α) : ∀ before l : List α,
    sumAlong f before (l ++ [x]) = sumAlong f before l + f (before ++ l) x
  | before, [] => by
    simp [sumAlong]
  | before, y :: l => by
    rw [List.cons_append, sumAlong, sumAlong, sumAlong_concat f x, add_assoc, List.append_assoc,
      List.singleton_append]

end Along

end Ledger
