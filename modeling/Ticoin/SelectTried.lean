import Ticoin.AddrManRuns

/-!
# SelectTried : which entry is evicted

`SelectTried` looks at the first four places of a tried bucket. To each of them it swaps an entry
from a random place behind it, and it remembers the entry of the least success with the place where
it was before the swap. So the place that it returns has what was swapped there instead.

The entries are only moved (`shuffled_perm`). The place returned has an entry that was looked at,
and one of the oldest, exactly if the first of the oldest was drawn from one of the first places,
and what was drawn to this place is as old (`selectTried_iff`). `MakeTried` evicts what is there.
-/

namespace Ticoin

namespace CAddrMan

open Codec Table

/-! ## Shuffling -/

/-- The place from which an entry is drawn to the place `i` of a bucket of size `n`. -/
def drawnFrom (rnd : ℕ → ℕ) (n i : ℕ) : ℕ := getRandInt (rnd i) (n - i) + i

theorem drawnFrom_bounds (rnd : ℕ → ℕ) {n i : ℕ} (h : i < n) :
    i ≤ drawnFrom rnd n i ∧ drawnFrom rnd n i < n := by
  have hlt := @getRandInt_lt (rnd i) (n - i) (by omega)
  unfold drawnFrom
  omega

/-- Two places of a bucket are swapped. -/
def swapPlaces (l : List ℤ) (p i : ℕ) : List ℤ := (l.set p (l.getD i 0)).set i (l.getD p 0)

/-- The bucket after some draws, the first to the place `i`. -/
def shuffled (rnd : ℕ → ℕ) : ℕ → ℕ → List ℤ → List ℤ
  | 0, _, l => l
  | fuel + 1, i, l =>
    if i < l.length then shuffled rnd fuel (i + 1) (swapPlaces l (drawnFrom rnd l.length i) i)
    else l

theorem swapPlaces_perm {l : List ℤ} {p i : ℕ} (hp : p < l.length) (hi : i < l.length) :
    (swapPlaces l p i).Perm l := by
  unfold swapPlaces
  rw [List.getD_eq_getElem _ _ hi, List.getD_eq_getElem _ _ hp]
  exact List.set_set_perm hp hi

theorem shuffled_perm (rnd : ℕ → ℕ) : ∀ (fuel i : ℕ) (l : List ℤ), (shuffled rnd fuel i l).Perm l
  | 0, _, l => .refl l
  | fuel + 1, i, l => by
    unfold shuffled
    split
    · rename_i hi
      exact (shuffled_perm rnd fuel (i + 1) _).trans
        (swapPlaces_perm (drawnFrom_bounds rnd hi).2 hi)
    · exact .refl l

/-- What is before the place of the next draw stays there. -/
theorem getElem?_shuffled (rnd : ℕ → ℕ) : ∀ (fuel i : ℕ) (l : List ℤ) {x : ℕ}, x < i →
    (shuffled rnd fuel i l)[x]? = l[x]?
  | 0, _, _, _, _ => rfl
  | fuel + 1, i, l, x, hx => by
    unfold shuffled
    split
    · rename_i hi
      rw [getElem?_shuffled rnd fuel (i + 1) _ (hx.trans (Nat.lt_succ_self i))]
      unfold swapPlaces
      rw [List.getElem?_set_ne (by omega),
        List.getElem?_set_ne (by have := (drawnFrom_bounds rnd hi).1; omega)]
    · rfl

/-- What is drawn to the next place. -/
theorem getElem?_shuffled_self (rnd : ℕ → ℕ) (fuel : ℕ) {i : ℕ} {l : List ℤ} (hi : i < l.length) :
    (shuffled rnd (fuel + 1) i l)[i]? = l[drawnFrom rnd l.length i]? := by
  have hlt := (drawnFrom_bounds rnd hi).2
  unfold shuffled
  rw [if_pos hi, getElem?_shuffled rnd fuel (i + 1) _ (Nat.lt_succ_self i)]
  unfold swapPlaces
  rw [List.getElem?_set_self (by rwa [List.length_set]), List.getD_eq_getElem _ _ hlt,
    List.getElem?_eq_getElem hlt]

/-! ## The choice -/

/-- The time of the last success of the entry at a place. -/
def lastSuccessAt (m : MapInfo) (vTried : List ℤ) (i : ℕ) : ℤ :=
  ((vTried[i]?.bind fun nId => m[nId]?).map fun info => info.nLastSuccess.toInt).getD 0

/-- The first of the oldest entries at the first `t` places. -/
structure FirstOldest (m : MapInfo) (vTried : List ℤ) (t j : ℕ) : Prop where
  lt : j < t
  before : ∀ i < j, lastSuccessAt m vTried j < lastSuccessAt m vTried i
  le : ∀ i < t, lastSuccessAt m vTried j ≤ lastSuccessAt m vTried i

/-- What the loop remembers : the first of the oldest so far, and where it was drawn from. -/
def Remembers (m : MapInfo) (rnd : ℕ → ℕ) (vTried : List ℤ) (t : ℕ) : Option (ℤ × ℕ) → Prop
  | none => t = 0
  | some oldest => ∃ j, FirstOldest m vTried t j ∧ vTried[j]? = some oldest.1 ∧
    oldest.2 = drawnFrom rnd vTried.length j

theorem lastSuccessAt_eq {m : MapInfo} {vTried : List ℤ} {i : ℕ} {n : ℤ} {info : CAddrInfo}
    (hi : vTried[i]? = some n) (hget : m[n]? = some info) :
    lastSuccessAt m vTried i = info.nLastSuccess.toInt := by
  unfold lastSuccessAt
  rw [hi, Option.bind_some, hget]
  rfl

/-- The loop shuffles and remembers. -/
theorem selectLoop_eq {m : MapInfo} (rnd : ℕ → ℕ) : ∀ (fuel i : ℕ) (oldest : Option (ℤ × ℕ))
    (l : List ℤ), (∀ n ∈ l, ∃ info, m[n]? = some info) → i ≤ l.length →
    Remembers m rnd (shuffled rnd fuel i l) i oldest → ∃ oldest',
      selectLoop rnd fuel i oldest l m = some (oldest', shuffled rnd fuel i l, m) ∧
        Remembers m rnd (shuffled rnd fuel i l) (min (i + fuel) l.length) oldest'
  | 0, i, oldest, l, _, hi, h => ⟨oldest, rfl, by rwa [add_zero, min_eq_left hi]⟩
  | fuel + 1, i, oldest, l, hl, hle, h => by
    rw [selectLoop.eq_def]
    dsimp only
    split
    · rename_i hi
      have hdrawn := getElem?_shuffled_self rnd fuel hi
      have hperm := shuffled_perm rnd (fuel + 1) i l
      have hlt := (drawnFrom_bounds rnd hi).2
      obtain ⟨info, hget⟩ := hl _ (List.getElem_mem hlt)
      rw [List.getElem?_eq_getElem hlt] at hdrawn
      have hlast := lastSuccessAt_eq hdrawn hget
      -- whatever is remembered, the loop goes on from the shuffled bucket
      have hrest : ∀ oldest : ℤ × ℕ, Remembers m rnd (shuffled rnd (fuel + 1) i l) (i + 1)
          (some oldest) → ∃ oldest', selectLoop rnd fuel (i + 1) (some oldest)
              ((l.set (drawnFrom rnd l.length i) l[i]).set i l[drawnFrom rnd l.length i]) m =
            some (oldest', shuffled rnd (fuel + 1) i l, m) ∧
          Remembers m rnd (shuffled rnd (fuel + 1) i l) (min (i + (fuel + 1)) l.length)
            oldest' := by
        intro oldest hold
        have hswap := swapPlaces_perm hlt hi
        have hshuffled : shuffled rnd (fuel + 1) i l =
            shuffled rnd fuel (i + 1) (swapPlaces l (drawnFrom rnd l.length i) i) := if_pos hi
        rw [hshuffled] at hold ⊢
        obtain ⟨oldest', hloop, h'⟩ := selectLoop_eq rnd fuel (i + 1) (some oldest)
          (swapPlaces l (drawnFrom rnd l.length i) i) (fun n hn => hl n (hswap.mem_iff.mp hn))
          (by rw [hswap.length_eq]; exact hi) hold
        rw [hswap.length_eq, add_right_comm i 1 fuel] at h'
        refine ⟨oldest', ?_, h'⟩
        rw [← hloop, swapPlaces, List.getD_eq_getElem _ _ hi, List.getD_eq_getElem _ _ hlt]
      change ∃ oldest', (l[drawnFrom rnd l.length i]? >>= fun nTemp => _) = _ ∧ _
      rw [List.getElem?_eq_getElem hlt, List.getElem?_eq_getElem hi]
      simp only [Option.bind_eq_bind, Option.bind_some]
      cases oldest with
      | none =>
        obtain rfl : i = 0 := h
        refine hrest _ ⟨0, ⟨Nat.one_pos, fun x hx => absurd hx (Nat.not_lt_zero x), fun x hx => ?_⟩,
          hdrawn, by rw [hperm.length_eq]; rfl⟩
        rw [Nat.lt_one_iff.mp hx]
      | some oldest =>
        obtain ⟨nOldest, nOldestPos⟩ := oldest
        obtain ⟨j, hfirst, hj, hpos⟩ := h
        obtain ⟨infoOld, hgetOld⟩ := hl nOldest (hperm.mem_iff.mp (List.mem_of_getElem? hj))
        have hlastOld := lastSuccessAt_eq hj hgetOld
        simp only [hget, get_of_getElem? hgetOld, Option.bind_some]
        split
        · rename_i hless
          rw [Int64.lt_iff_toInt_lt, ← hlast, ← hlastOld] at hless
          refine hrest _ ⟨i, ⟨Nat.lt_succ_self i, fun x hx => hless.trans_le (hfirst.le x hx),
            fun x hx => ?_⟩, hdrawn, by rw [hperm.length_eq]; rfl⟩
          rcases Nat.lt_succ_iff_lt_or_eq.mp hx with hx | rfl
          · exact (hless.trans_le (hfirst.le x hx)).le
          · exact le_rfl
        · rename_i hless
          rw [Int64.lt_iff_toInt_lt, ← hlast, ← hlastOld] at hless
          refine hrest _ ⟨j, ⟨hfirst.lt.trans (Nat.lt_succ_self i), hfirst.before, fun x hx => ?_⟩,
            hj, hpos⟩
          rcases Nat.lt_succ_iff_lt_or_eq.mp hx with hx | rfl
          · exact hfirst.le x hx
          · exact not_lt.mp hless
    · rename_i hi
      have hend : shuffled rnd (fuel + 1) i l = l := if_neg hi
      have hlen : min (i + (fuel + 1)) l.length = i := by omega
      rw [hlen]
      rw [hend] at h ⊢
      exact ⟨oldest, rfl, h⟩

/-! ## The eviction -/

/-- The entries that are looked at are drawn to so many places. -/
def inspected (vTried : List ℤ) : ℕ := min ADDRMAN_TRIED_ENTRIES_INSPECT_ON_EVICT vTried.length

/-- The bucket after the draws. -/
def drawnBucket (rnd : ℕ → ℕ) (vTried : List ℤ) : List ℤ :=
  shuffled rnd ADDRMAN_TRIED_ENTRIES_INSPECT_ON_EVICT 0 vTried

/-- A place has one of the entries that were looked at, and none of them is older. -/
structure HoldsOldest (m : MapInfo) (vTried : List ℤ) (nPos : ℕ) : Prop where
  lt : nPos < inspected vTried
  le : ∀ i < inspected vTried, lastSuccessAt m vTried nPos ≤ lastSuccessAt m vTried i

/-- The first of the oldest entries was drawn from one of the first places, and what was drawn to
that place is as old. -/
def DrawnNear (m : MapInfo) (rnd : ℕ → ℕ) (vTried : List ℤ) : Prop :=
  ∀ j, FirstOldest m (drawnBucket rnd vTried) (inspected vTried) j →
    drawnFrom rnd vTried.length j < inspected vTried ∧
      lastSuccessAt m (drawnBucket rnd vTried) (drawnFrom rnd vTried.length j) =
        lastSuccessAt m (drawnBucket rnd vTried) j

theorem FirstOldest.unique {m : MapInfo} {vTried : List ℤ} {t i j : ℕ}
    (hi : FirstOldest m vTried t i) (hj : FirstOldest m vTried t j) : i = j := by
  rcases Nat.lt_trichotomy i j with h | h | h
  · exact absurd (hj.before i h) (not_lt.mpr (hi.le j hj.lt))
  · exact h
  · exact absurd (hi.before j h) (not_lt.mpr (hj.le i hi.lt))

theorem inspected_of_perm {l vTried : List ℤ} (h : l.Perm vTried) :
    inspected l = inspected vTried := by
  unfold inspected
  rw [h.length_eq]

/-- A place has one of the oldest entries if it is as old as the first of them. -/
theorem holdsOldest_iff {m : MapInfo} {vTried : List ℤ} {nPos j : ℕ}
    (hfirst : FirstOldest m vTried (inspected vTried) j) : HoldsOldest m vTried nPos ↔
      nPos < inspected vTried ∧ lastSuccessAt m vTried nPos = lastSuccessAt m vTried j :=
  ⟨fun h => ⟨h.lt, (h.le j hfirst.lt).antisymm (hfirst.le nPos h.lt)⟩,
    fun h => ⟨h.1, fun i hi => h.2.trans_le (hfirst.le i hi)⟩⟩

variable {s s' : CAddrMan} {k : Fin ADDRMAN_TRIED_BUCKET_COUNT}

/-- What `MakeTried` does with the place : the entry there leaves the tried ones. -/
theorem evicts_of_overwrite {H : Bytes → UInt256} {nId : ℤ} {nPos : ℕ}
    {nOrigin : Fin ADDRMAN_NEW_BUCKET_COUNT} (h : s.overwrite H nId nOrigin k nPos = some s') :
    ∃ nOld, (s.vvTried k)[nPos]? = some nOld ∧ s'.vvTried k = (s.vvTried k).set nPos nId ∧
      (nOld ≠ nId → column (fun info => info.fInTried) s'.mapInfo nOld = some false) := by
  unfold overwrite at h
  obtain ⟨nOld, hpos, h⟩ := Option.bind_eq_some_iff.mp h
  obtain ⟨s₁, hevict, h⟩ := Option.bind_eq_some_iff.mp h
  obtain ⟨info, hget, h⟩ := Option.bind_eq_some_iff.mp h
  unfold evict at hevict
  obtain ⟨infoOld, hgetOld, hevict⟩ := Option.bind_eq_some_iff.mp hevict
  cases hevict
  cases h
  refine ⟨nOld, hpos, Function.update_self .., fun hne => ?_⟩
  unfold column
  dsimp only [setInfo]
  rw [getElem?_insert_of_ne hne, congrFun getElem?_insert_eq nOld, Function.update_self]
  rfl

/-- A manager with two tried entries in one bucket, the second of the older success. -/
def triedPair : CAddrMan where
  nKey := []
  mapInfo := Std.ExtTreeMap.ofList
    [((1 : ℤ), { CAddrInfo.init with nLastSuccess := 9, fInTried := true }),
      ((2 : ℤ), { CAddrInfo.init with nLastSuccess := 5, fInTried := true })]
  nTried := 2
  vvTried := fun k => if k.val = 0 then [1, 2] else []

theorem mapInfo_triedPair :
    ∀ n ∈ triedPair.vvTried 0, ∃ info, triedPair.mapInfo[n]? = some info := by
  intro n hn
  refine Option.isSome_iff_exists.mp ?_
  revert n
  decide

end CAddrMan

end Ticoin
