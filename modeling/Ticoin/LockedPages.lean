import Ticoin.Lib.Table
import Mathlib.Data.List.Range
import Mathlib.Tactic.IntervalCases

/-!
# allocators.h : pages that may not be swapped

Locks of memory do not stack, so the manager counts for each page how many ranges have locked it.
A page is locked for the first range and unlocked after the last.

The calls are the right ones in any order of matched calls (`pagesLocked_of_matched`), as long as
the counter, an `int`, does not overflow and no range reaches into the last page. The loop over the
pages of such a range would not end, as the address behind the last page is 0.
-/

namespace Ticoin

open Table

/-! ## The manager -/

/-- What is asked of the locker. -/
inductive LockerCall where
  | lock (page : ℕ)
  | unlock (page : ℕ)
  deriving DecidableEq, Repr

def intMax : ℤ := 2 ^ 31 - 1

/-- The manager, with the calls of its locker. -/
structure LockedPageManagerBase where
  page_size : ℕ
  page_mask : ℕ
  histogram : Std.ExtTreeMap ℕ ℤ := ∅
  calls : List LockerCall := []

namespace LockedPageManagerBase

/-- The constructor, with its assertion. -/
def new (page_size : ℕ) : Option LockedPageManagerBase :=
  if page_size &&& ((page_size + (2 ^ 64 - 1)) % 2 ^ 64) ≠ 0 then none
  else some {
    page_size := page_size
    page_mask := 2 ^ 64 - 1 - (page_size + (2 ^ 64 - 1)) % 2 ^ 64 }

/-- The loop over the pages, which does not end if the address of a next page is not greater. -/
def forPages (page_size endPage : ℕ) (f : ℕ → LockedPageManagerBase → Option LockedPageManagerBase)
    (page : ℕ) (s : LockedPageManagerBase) : Option LockedPageManagerBase :=
  if hle : page ≤ endPage then do
    let s ← f page s
    if _hnext : page + page_size < 2 ^ 64 ∧ 0 < page_size then
      forPages page_size endPage f (page + page_size) s
    else none
  else some s
  termination_by endPage + 1 - page
  decreasing_by omega

/-- What `LockRange` does to a page. A counter that overflows has no result. -/
def lockPage (page : ℕ) (s : LockedPageManagerBase) : Option LockedPageManagerBase :=
  match s.histogram[page]? with
  | none => some { s with
      histogram := s.histogram.insert page 1
      calls := s.calls ++ [.lock page] }
  | some count =>
    if count = intMax then none
    else some { s with histogram := s.histogram.insert page (count + 1) }

/-- What `UnlockRange` does to a page, with the assertion that it is locked. -/
def unlockPage (page : ℕ) (s : LockedPageManagerBase) : Option LockedPageManagerBase :=
  match s.histogram[page]? with
  | none => none
  | some count =>
    if count - 1 = 0 then some { s with
      histogram := s.histogram.erase page
      calls := s.calls ++ [.unlock page] }
    else some { s with histogram := s.histogram.insert page (count - 1) }

/-- Do something to the pages of a range. -/
def forRange (f : ℕ → LockedPageManagerBase → Option LockedPageManagerBase) (base_addr size : ℕ)
    (s : LockedPageManagerBase) : Option LockedPageManagerBase :=
  if size = 0 then some s
  else
    let start_page := base_addr &&& s.page_mask
    let end_page := (base_addr + size + (2 ^ 64 - 1)) % 2 ^ 64 &&& s.page_mask
    forPages s.page_size end_page f start_page s

/-- `LockRange`. -/
def lockRange (p size : ℕ) (s : LockedPageManagerBase) : Option LockedPageManagerBase :=
  forRange lockPage p size s

/-- `UnlockRange`. -/
def unlockRange (p size : ℕ) (s : LockedPageManagerBase) : Option LockedPageManagerBase :=
  forRange unlockPage p size s

end LockedPageManagerBase

/-! ## Ranges -/

/-- An address and a size. -/
structure MemRange where
  p : ℕ
  n : ℕ
  deriving DecidableEq, Repr

inductive RangeCall where
  | lock (r : MemRange)
  | unlock (r : MemRange)
  deriving DecidableEq, Repr

def LockedPageManagerBase.step (s : LockedPageManagerBase) :
    RangeCall → Option LockedPageManagerBase
  | .lock r => s.lockRange r.p r.n
  | .unlock r => s.unlockRange r.p r.n

def LockedPageManagerBase.run (s : LockedPageManagerBase) (calls : List RangeCall) :
    Option LockedPageManagerBase := calls.foldlM LockedPageManagerBase.step s

/-- The range has a byte of a page, by its number. -/
def MemRange.Covers (page_size : ℕ) (r : MemRange) (q : ℕ) : Prop :=
  q * page_size < r.p + r.n ∧ r.p < (q + 1) * page_size

instance (page_size : ℕ) (r : MemRange) (q : ℕ) : Decidable (r.Covers page_size q) :=
  inferInstanceAs (Decidable (_ ∧ _))

/-- How many ranges have a byte of a page. -/
def cover (page_size : ℕ) (live : List MemRange) (q : ℕ) : ℕ :=
  live.countP fun r => r.Covers page_size q

/-- Some byte, and none of the last page. -/
structure MemRange.IsLow (page_size : ℕ) (r : MemRange) : Prop where
  pos : 0 < r.n
  le : r.p + r.n ≤ 2 ^ 64 - page_size

/-- What a call makes of the live ranges. An unlocking call ends a range that is live, and no page
has more live ranges than the counter can tell. -/
inductive LiveStep (page_size : ℕ) : List MemRange → RangeCall → List MemRange → Prop
  | lock {live : List MemRange} {r : MemRange} (hlow : r.IsLow page_size)
      (hmax : ∀ q, (cover page_size (r :: live) q : ℤ) ≤ intMax) :
      LiveStep page_size live (.lock r) (r :: live)
  | unlock {live : List MemRange} {r : MemRange} (hmem : r ∈ live) :
      LiveStep page_size live (.unlock r) (live.erase r)

/-- Calls that match, with the ranges that are live after them. -/
inductive Matched (page_size : ℕ) : List RangeCall → List MemRange → Prop
  | nil : Matched page_size [] []
  | snoc {calls : List RangeCall} {live live' : List MemRange} {call : RangeCall}
      (h : Matched page_size calls live) (hstep : LiveStep page_size live call live') :
      Matched page_size (calls ++ [call]) live'

/-- Whether a page is locked after calls of the locker, which do not stack. -/
def lockedAfter (page : ℕ) (calls : List LockerCall) : Bool :=
  calls.foldl (fun locked call =>
    if call = .lock page then true else if call = .unlock page then false else locked) false

/-- The locker is called once for each page that gets its first range or loses its last. -/
def CallsChanges (page_size : ℕ) (live live' : List MemRange) (calls : List LockerCall) : Prop :=
  calls.Nodup ∧ ∀ call, call ∈ calls ↔
    (∃ q, call = .lock (q * page_size) ∧ cover page_size live q = 0 ∧
      cover page_size live' q = 1) ∨
    (∃ q, call = .unlock (q * page_size) ∧ cover page_size live q = 1 ∧
      cover page_size live' q = 0)

/-! ## Masks -/

/-- The assertion admits powers of two, and 0. -/
theorem new_eq {page_size : ℕ} (hpos : page_size ≠ 0) (hlt : page_size < 2 ^ 64)
    {s : LockedPageManagerBase} (h : LockedPageManagerBase.new page_size = some s) :
    page_size.isPowerOfTwo ∧
      s = { page_size := page_size, page_mask := 2 ^ 64 - page_size } := by
  have hpred : (page_size + (2 ^ 64 - 1)) % 2 ^ 64 = page_size - 1 := by omega
  unfold LockedPageManagerBase.new at h
  rw [hpred] at h
  split at h
  · cases h
  rename_i hand
  refine ⟨(Nat.and_sub_one_eq_zero_iff_isPowerOfTwo hpos).mp (not_not.mp hand), ?_⟩
  have hmask : 2 ^ 64 - 1 - (page_size - 1) = 2 ^ 64 - page_size := by omega
  rw [hmask] at h
  exact (Option.some.inj h).symm

/-- The mask takes an address to its page. -/
theorem and_mask {base k : ℕ} (hbase : base < 2 ^ 64) (hk : k ≤ 64) :
    base &&& (2 ^ 64 - 2 ^ k) = base / 2 ^ k * 2 ^ k := by
  have hmask : 2 ^ 64 - 2 ^ k = (2 ^ (64 - k) - 1) * 2 ^ k := by
    rw [Nat.sub_mul, ← Nat.pow_add, Nat.sub_add_cancel hk, Nat.one_mul]
  refine Nat.eq_of_testBit_eq fun i => ?_
  rw [Nat.testBit_and, hmask, Nat.testBit_mul_two_pow, Nat.testBit_mul_two_pow,
    Nat.testBit_two_pow_sub_one, Nat.testBit_div_two_pow]
  by_cases hki : k ≤ i
  · rw [Nat.sub_add_cancel hki]
    by_cases hi : i < 64
    · have hsub : i - k < 64 - k := by omega
      simp [hki, hsub]
    · have hhigh : base.testBit i = false :=
        Nat.testBit_lt_two_pow (lt_of_lt_of_le hbase (Nat.pow_le_pow_right (by decide) (by omega)))
      rw [hhigh]
      simp
  · simp [hki]

/-! ## The loop -/

/-- The histogram has the counts of the pages, and the locker holds the pages with a count. -/
structure Tracks (page_size : ℕ) (s : LockedPageManagerBase) (count : ℕ → ℕ) : Prop where
  size : s.page_size = page_size
  mask : s.page_mask = 2 ^ 64 - page_size
  histogram : ∀ q, s.histogram[q * page_size]? = if count q = 0 then none else some (count q : ℤ)
  locked : ∀ q, lockedAfter (q * page_size) s.calls = decide (count q ≠ 0)

variable {page_size : ℕ} {s s' : LockedPageManagerBase} {count : ℕ → ℕ}

open LockedPageManagerBase

theorem lockedAfter_snoc (page : ℕ) (calls : List LockerCall) (call : LockerCall) :
    lockedAfter page (calls ++ [call]) =
      if call = .lock page then true
      else if call = .unlock page then false else lockedAfter page calls := by
  rw [lockedAfter, List.foldl_append]
  rfl

theorem mul_page_inj (hpos : 0 < page_size) {q q' : ℕ} :
    q * page_size = q' * page_size ↔ q = q' :=
  ⟨Nat.eq_of_mul_eq_mul_right hpos, congrArg (· * page_size)⟩

theorem Tracks.histogram_insert (h : Tracks page_size s count) (hpos : 0 < page_size) (q : ℕ)
    {c : ℕ} (hc : c ≠ 0) (q' : ℕ) : (s.histogram.insert (q * page_size) (c : ℤ))[q' * page_size]? =
      if Function.update count q c q' = 0 then none
      else some (Function.update count q c q' : ℤ) := by
  rw [congrFun getElem?_insert_eq _]
  by_cases hq : q' = q
  · rw [hq, Function.update_self, Function.update_self, if_neg hc]
  · rw [Function.update_of_ne (fun heq => hq ((mul_page_inj hpos).mp heq)),
      Function.update_of_ne hq]
    exact h.histogram q'

theorem Tracks.histogram_erase (h : Tracks page_size s count) (hpos : 0 < page_size) (q q' : ℕ) :
    (s.histogram.erase (q * page_size))[q' * page_size]? =
      if Function.update count q 0 q' = 0 then none
      else some (Function.update count q 0 q' : ℤ) := by
  rw [congrFun getElem?_erase_eq _]
  by_cases hq : q' = q
  · rw [hq, Function.update_self, Function.update_self, if_pos rfl]
  · rw [Function.update_of_ne (fun heq => hq ((mul_page_inj hpos).mp heq)),
      Function.update_of_ne hq]
    exact h.histogram q'

theorem Tracks.locked_lock (h : Tracks page_size s count) (hpos : 0 < page_size) (q : ℕ) {c : ℕ}
    (hc : c ≠ 0) (q' : ℕ) : lockedAfter (q' * page_size) (s.calls ++ [.lock (q * page_size)]) =
      decide (Function.update count q c q' ≠ 0) := by
  rw [lockedAfter_snoc]
  by_cases hq : q' = q
  · rw [hq, if_pos rfl, Function.update_self, decide_eq_true hc]
  · rw [if_neg (fun heq => hq ((mul_page_inj hpos).mp (LockerCall.lock.inj heq).symm)),
      if_neg nofun, Function.update_of_ne hq]
    exact h.locked q'

theorem Tracks.locked_unlock (h : Tracks page_size s count) (hpos : 0 < page_size) (q q' : ℕ) :
    lockedAfter (q' * page_size) (s.calls ++ [.unlock (q * page_size)]) =
      decide (Function.update count q 0 q' ≠ 0) := by
  rw [lockedAfter_snoc, if_neg nofun]
  by_cases hq : q' = q
  · rw [hq, if_pos rfl, Function.update_self]
    rfl
  · rw [if_neg (fun heq => hq ((mul_page_inj hpos).mp (LockerCall.unlock.inj heq).symm)),
      Function.update_of_ne hq]
    exact h.locked q'

/-- Without a call the locked pages are as before. -/
theorem Tracks.locked_same (h : Tracks page_size s count) {q c : ℕ} (hcount : count q ≠ 0)
    (hc : c ≠ 0) (q' : ℕ) :
    lockedAfter (q' * page_size) s.calls = decide (Function.update count q c q' ≠ 0) := by
  rw [h.locked q']
  by_cases hq : q' = q
  · rw [hq, Function.update_self, decide_eq_true hcount, decide_eq_true hc]
  · rw [Function.update_of_ne hq]

/-- A page is counted once more. -/
theorem lockPage_spec {q : ℕ} (hpos : 0 < page_size) (h : Tracks page_size s count)
    (hmax : (count q : ℤ) < intMax) :
    ∃ s', lockPage (q * page_size) s = some s' ∧
      Tracks page_size s' (Function.update count q (count q + 1)) ∧
      s'.calls = s.calls ++ if count q = 0 then [.lock (q * page_size)] else [] := by
  have hsucc : count q + 1 ≠ 0 := Nat.succ_ne_zero _
  have hget := h.histogram q
  have hinsert := h.histogram_insert hpos q hsucc
  unfold lockPage
  by_cases hzero : count q = 0
  · rw [if_pos hzero] at hget
    rw [hget, if_pos hzero]
    rw [hzero] at hinsert ⊢
    exact ⟨_, rfl, ⟨h.size, h.mask, hinsert, h.locked_lock hpos q Nat.one_ne_zero⟩, rfl⟩
  · rw [if_neg hzero] at hget
    rw [hget, if_neg hzero]
    dsimp only
    rw [if_neg (by omega)]
    exact ⟨_, rfl, ⟨h.size, h.mask, hinsert, h.locked_same hzero hsucc⟩, (List.append_nil _).symm⟩

/-- A page that is counted is counted once less. -/
theorem unlockPage_spec {q : ℕ} (hpos : 0 < page_size) (h : Tracks page_size s count)
    (hcount : 0 < count q) :
    ∃ s', unlockPage (q * page_size) s = some s' ∧
      Tracks page_size s' (Function.update count q (count q - 1)) ∧
      s'.calls = s.calls ++ if count q = 1 then [.unlock (q * page_size)] else [] := by
  have hne : count q ≠ 0 := Nat.pos_iff_ne_zero.mp hcount
  have hget := h.histogram q
  rw [if_neg hne] at hget
  unfold unlockPage
  rw [hget]
  dsimp only
  by_cases hone : count q = 1
  · rw [if_pos (by omega), if_pos hone, hone]
    exact ⟨_, rfl, ⟨h.size, h.mask, h.histogram_erase hpos q, h.locked_unlock hpos q⟩, rfl⟩
  · have hpred : count q - 1 ≠ 0 := by omega
    have hinsert := h.histogram_insert hpos q hpred
    rw [Nat.cast_sub hcount] at hinsert
    rw [if_neg (by omega), if_neg hone]
    exact ⟨_, rfl, ⟨h.size, h.mask, hinsert, h.locked_same hne hpred⟩, (List.append_nil _).symm⟩

/-- A loop whose step changes the count of its page changes the counts of the pages from `q` to
`e`, and calls the locker for some of them. -/
theorem forPages_spec (hpos : 0 < page_size)
    {f : ℕ → LockedPageManagerBase → Option LockedPageManagerBase} (next : ℕ → ℕ)
    (ok : ℕ → Prop) (least : ℕ) {call : ℕ → LockerCall}
    (hf : ∀ (s : LockedPageManagerBase) (count : ℕ → ℕ) (q : ℕ), Tracks page_size s count →
      ok (count q) → ∃ s', f (q * page_size) s = some s' ∧
        Tracks page_size s' (Function.update count q (next (count q))) ∧
        s'.calls = s.calls ++ if count q = least then [call (q * page_size)] else [])
    {e : ℕ} (hend : (e + 1) * page_size < 2 ^ 64) :
    ∀ (m : ℕ) {q : ℕ} {s : LockedPageManagerBase} {count : ℕ → ℕ}, q + m = e + 1 →
    Tracks page_size s count → (∀ x, q ≤ x → x ≤ e → ok (count x)) →
    ∃ s', forPages page_size (e * page_size) f (q * page_size) s = some s' ∧
      Tracks page_size s' (fun x => if q ≤ x ∧ x ≤ e then next (count x) else count x) ∧
      s'.calls = s.calls ++
        ((List.range' q m).filter fun x => count x = least).map fun x => call (x * page_size)
  | 0, q, s, count, hm, h, _ => by
    have hgt : ¬ q * page_size ≤ e * page_size := by
      rw [Nat.mul_le_mul_right_iff hpos]
      omega
    rw [forPages, dif_neg hgt]
    have hsame : (fun x => if q ≤ x ∧ x ≤ e then next (count x) else count x) = count := by
      funext x
      exact if_neg (by omega)
    exact ⟨s, rfl, by rwa [hsame], (List.append_nil _).symm⟩
  | m + 1, q, s, count, hm, h, hok => by
    obtain ⟨s₁, hstep, h₁, hcalls₁⟩ := hf s count q h (hok q (Nat.le_refl _) (by omega))
    have hothers : ∀ x, q + 1 ≤ x → Function.update count q (next (count q)) x = count x :=
      fun x hx => Function.update_of_ne (by omega) _ _
    obtain ⟨s', hrun, h', hcalls⟩ :=
      forPages_spec hpos next ok least hf hend m (q := q + 1) (by omega) h₁ fun x hx hxe => by
        rw [hothers x hx]
        exact hok x (by omega) hxe
    refine ⟨s', ?_, ?_, ?_⟩
    · have hle : q * page_size ≤ e * page_size := Nat.mul_le_mul_right _ (by omega)
      have hnext : q * page_size + page_size < 2 ^ 64 ∧ 0 < page_size := by
        have := Nat.mul_le_mul_right page_size (show q + 1 ≤ e + 1 by omega)
        rw [Nat.succ_mul] at this
        exact ⟨by omega, hpos⟩
      rw [forPages, dif_pos hle, hstep, Option.bind_eq_bind, Option.bind_some, dif_pos hnext,
        ← Nat.succ_mul]
      exact hrun
    · convert h' using 2 with x
      by_cases hx : x = q
      · rw [hx, Function.update_self, if_pos ⟨Nat.le_refl _, by omega⟩, if_neg (by omega)]
      · rw [Function.update_of_ne hx]
        exact if_congr (by omega) rfl rfl
    · have hfilter : (List.range' (q + 1) m).filter (fun x =>
          Function.update count q (next (count q)) x = least) =
          (List.range' (q + 1) m).filter fun x => count x = least := by
        refine List.filter_congr fun x hx => ?_
        rw [hothers x (List.mem_range'_1.mp hx).1]
      rw [hcalls, hcalls₁, hfilter, List.range'_succ, List.append_assoc]
      by_cases hq : count q = least
      · rw [if_pos hq, List.filter_cons_of_pos (by simp [hq])]
        rfl
      · rw [if_neg hq, List.filter_cons_of_neg (by simp [hq])]
        rfl

/-! ## Ranges of pages -/

variable {r : MemRange} {live live' : List MemRange}

/-- The pages of a range are those from its first byte to its last. -/
theorem MemRange.IsLow.covers_iff (h : r.IsLow page_size) (hpos : 0 < page_size) {q : ℕ} :
    r.Covers page_size q ↔ r.p / page_size ≤ q ∧ q ≤ (r.p + r.n - 1) / page_size := by
  have hn := h.pos
  rw [MemRange.Covers, Nat.le_div_iff_mul_le hpos, and_comm, ← Nat.div_lt_iff_lt_mul hpos,
    Nat.lt_succ_iff]
  exact and_congr Iff.rfl (by omega)

/-- Something that changes the count of a page is done to all pages of a range. -/
theorem forRange_spec (hpow : page_size.isPowerOfTwo) (hlt : page_size < 2 ^ 64)
    {f : ℕ → LockedPageManagerBase → Option LockedPageManagerBase} (next : ℕ → ℕ)
    (ok : ℕ → Prop) (least : ℕ) {call : ℕ → LockerCall}
    (hcall : Function.Injective call)
    (hf : ∀ (s : LockedPageManagerBase) (count : ℕ → ℕ) (q : ℕ), Tracks page_size s count →
      ok (count q) → ∃ s', f (q * page_size) s = some s' ∧
        Tracks page_size s' (Function.update count q (next (count q))) ∧
        s'.calls = s.calls ++ if count q = least then [call (q * page_size)] else [])
    (hlow : r.IsLow page_size) (h : Tracks page_size s count)
    (hok : ∀ q, r.Covers page_size q → ok (count q)) :
    ∃ s' calls, forRange f r.p r.n s = some s' ∧
      Tracks page_size s' (fun q => if r.Covers page_size q then next (count q) else count q) ∧
      s'.calls = s.calls ++ calls ∧ calls.Nodup ∧
      ∀ c, c ∈ calls ↔ ∃ q, c = call (q * page_size) ∧ r.Covers page_size q ∧ count q = least := by
  obtain ⟨k, rfl⟩ := hpow
  have hpos : 0 < 2 ^ k := Nat.two_pow_pos k
  have hk : k ≤ 64 := ((Nat.pow_lt_pow_iff_right (by decide)).mp hlt).le
  have hn := hlow.pos
  have hle := hlow.le
  have hcovers := fun q => hlow.covers_iff hpos (q := q)
  have hend : ((r.p + r.n - 1) / 2 ^ k + 1) * 2 ^ k < 2 ^ 64 := by
    have := Nat.div_mul_le_self (r.p + r.n - 1) (2 ^ k)
    rw [Nat.succ_mul]
    omega
  have hfirst : r.p / 2 ^ k ≤ (r.p + r.n - 1) / 2 ^ k := Nat.div_le_div_right (by omega)
  obtain ⟨s', hrun, h', hcalls⟩ := forPages_spec hpos next ok least hf hend
    ((r.p + r.n - 1) / 2 ^ k + 1 - r.p / 2 ^ k) (q := r.p / 2 ^ k) (by omega) h
    fun q hq hqe => hok q ((hcovers q).mpr ⟨hq, hqe⟩)
  refine ⟨s', _, ?_, ?_, hcalls, ?_, fun c => ?_⟩
  · have hlast : (r.p + r.n + (2 ^ 64 - 1)) % 2 ^ 64 = r.p + r.n - 1 := by omega
    rw [forRange, if_neg (by omega), h.size, h.mask, hlast, and_mask (by omega) hk,
      and_mask (by omega) hk]
    exact hrun
  · simpa only [hcovers] using h'
  · have hnodup : (List.range' (r.p / 2 ^ k)
        ((r.p + r.n - 1) / 2 ^ k + 1 - r.p / 2 ^ k)).Nodup := List.nodup_range'
    exact (hnodup.filter _).map fun x y hxy => (mul_page_inj hpos).mp (hcall hxy)
  · rw [List.mem_map]
    constructor
    · rintro ⟨q, hq, rfl⟩
      obtain ⟨hq, hleast⟩ := List.mem_filter.mp hq
      rw [List.mem_range'_1] at hq
      exact ⟨q, rfl, (hcovers q).mpr ⟨hq.1, by omega⟩, of_decide_eq_true hleast⟩
    · rintro ⟨q, rfl, hq, hleast⟩
      obtain ⟨hq, hqe⟩ := (hcovers q).mp hq
      refine ⟨q, List.mem_filter.mpr ⟨?_, decide_eq_true hleast⟩, rfl⟩
      rw [List.mem_range'_1]
      omega

theorem cover_cons (r : MemRange) (live : List MemRange) (q : ℕ) :
    cover page_size (r :: live) q =
      if r.Covers page_size q then cover page_size live q + 1 else cover page_size live q := by
  rw [cover, List.countP_cons]
  by_cases hq : r.Covers page_size q
  · simp [hq, cover]
  · simp [hq, cover]

theorem cover_eq_erase (hmem : r ∈ live) (q : ℕ) :
    cover page_size live q = cover page_size (r :: live.erase r) q :=
  (List.perm_cons_erase hmem).countP_eq _

/-! ## Calls -/

theorem lockRange_spec (hpow : page_size.isPowerOfTwo) (hlt : page_size < 2 ^ 64)
    (h : Tracks page_size s (cover page_size live)) (hlow : r.IsLow page_size)
    (hmax : ∀ q, (cover page_size (r :: live) q : ℤ) ≤ intMax) :
    ∃ s' calls, s.lockRange r.p r.n = some s' ∧
      Tracks page_size s' (cover page_size (r :: live)) ∧
      s'.calls = s.calls ++ calls ∧ CallsChanges page_size live (r :: live) calls := by
  obtain ⟨k, rfl⟩ := hpow
  obtain ⟨s', calls, hrun, h', hcalls, hnodup, hmem⟩ := forRange_spec ⟨k, rfl⟩ hlt
    (· + 1) (fun c => (c : ℤ) < intMax) 0 (fun _ _ => LockerCall.lock.inj)
    (fun _ _ _ => lockPage_spec (Nat.two_pow_pos k)) hlow h fun q hq => by
      have := hmax q
      rw [cover_cons, if_pos hq] at this
      omega
  refine ⟨s', calls, hrun, ?_, hcalls, hnodup, fun call => ?_⟩
  · have hcover : cover (2 ^ k) (r :: live) = fun q =>
        if r.Covers (2 ^ k) q then cover (2 ^ k) live q + 1 else cover (2 ^ k) live q :=
      funext (cover_cons r live)
    rwa [hcover]
  · rw [hmem call]
    constructor
    · rintro ⟨q, rfl, hq, hzero⟩
      refine Or.inl ⟨q, rfl, hzero, ?_⟩
      rw [cover_cons, if_pos hq, hzero]
    · rintro (⟨q, rfl, hzero, hone⟩ | ⟨q, -, hone, hzero⟩)
      · refine ⟨q, rfl, ?_, hzero⟩
        by_contra hq
        rw [cover_cons, if_neg hq, hzero] at hone
        exact absurd hone (by decide)
      · rw [cover_cons] at hzero
        split at hzero <;> omega

theorem unlockRange_spec (hpow : page_size.isPowerOfTwo) (hlt : page_size < 2 ^ 64)
    (h : Tracks page_size s (cover page_size live)) (hlow : r.IsLow page_size) (hr : r ∈ live) :
    ∃ s' calls, s.unlockRange r.p r.n = some s' ∧
      Tracks page_size s' (cover page_size (live.erase r)) ∧
      s'.calls = s.calls ++ calls ∧ CallsChanges page_size live (live.erase r) calls := by
  obtain ⟨k, rfl⟩ := hpow
  have hcover : ∀ q, cover (2 ^ k) live q = if r.Covers (2 ^ k) q
      then cover (2 ^ k) (live.erase r) q + 1 else cover (2 ^ k) (live.erase r) q :=
    fun q => (cover_eq_erase hr q).trans (cover_cons _ _ _)
  obtain ⟨s', calls, hrun, h', hcalls, hnodup, hmem⟩ := forRange_spec ⟨k, rfl⟩ hlt
    (· - 1) (0 < ·) 1 (fun _ _ => LockerCall.unlock.inj)
    (fun _ _ _ => unlockPage_spec (Nat.two_pow_pos k)) hlow h fun q hq => by
      rw [hcover q, if_pos hq]
      exact Nat.succ_pos _
  refine ⟨s', calls, hrun, ?_, hcalls, hnodup, fun call => ?_⟩
  · have herase : cover (2 ^ k) (live.erase r) = fun q =>
        if r.Covers (2 ^ k) q then cover (2 ^ k) live q - 1 else cover (2 ^ k) live q := by
      funext q
      rw [hcover q]
      split <;> rfl
    rwa [herase]
  · rw [hmem call]
    constructor
    · rintro ⟨q, rfl, hq, hone⟩
      refine Or.inr ⟨q, rfl, hone, ?_⟩
      rw [hcover q, if_pos hq] at hone
      omega
    · rintro (⟨q, -, hzero, hone⟩ | ⟨q, rfl, hone, hzero⟩)
      · rw [hcover q] at hzero
        split at hzero <;> omega
      · refine ⟨q, rfl, ?_, hone⟩
        by_contra hq
        rw [hcover q, if_neg hq, hzero] at hone
        exact absurd hone (by decide)

/-- One call. -/
theorem step_spec (hpow : page_size.isPowerOfTwo) (hlt : page_size < 2 ^ 64)
    (h : Tracks page_size s (cover page_size live)) (hlow : ∀ r ∈ live, r.IsLow page_size)
    {call : RangeCall} (hstep : LiveStep page_size live call live') :
    ∃ s' calls, s.step call = some s' ∧ Tracks page_size s' (cover page_size live') ∧
      s'.calls = s.calls ++ calls ∧ CallsChanges page_size live live' calls := by
  cases hstep with
  | lock hr hmax => exact lockRange_spec hpow hlt h hr hmax
  | unlock hr => exact unlockRange_spec hpow hlt h (hlow _ hr) hr

theorem Matched.isLow {calls : List RangeCall} (h : Matched page_size calls live) :
    ∀ r ∈ live, r.IsLow page_size := by
  induction h with
  | nil => exact nofun
  | snoc _ hstep ih =>
    cases hstep with
    | lock hr _ => exact List.forall_mem_cons.mpr ⟨hr, ih⟩
    | unlock _ => exact fun r hr => ih r (List.mem_of_mem_erase hr)

/-- A whole run. -/
theorem Matched.run {s₀ : LockedPageManagerBase} {calls : List RangeCall}
    (h : Matched page_size calls live) (hpow : page_size.isPowerOfTwo) (hlt : page_size < 2 ^ 64)
    (h₀ : Tracks page_size s₀ fun _ => 0) :
    ∃ s, s₀.run calls = some s ∧ Tracks page_size s (cover page_size live) := by
  induction h with
  | nil => exact ⟨s₀, rfl, h₀⟩
  | snoc hcalls hstep ih =>
    obtain ⟨s, hrun, hs⟩ := ih
    obtain ⟨s', -, hstep', hs', -⟩ := step_spec hpow hlt hs hcalls.isLow hstep
    refine ⟨s', ?_, hs'⟩
    rw [LockedPageManagerBase.run, List.foldlM_append]
    change (s₀.run _ >>= fun s => _) = _
    rw [hrun, Option.bind_eq_bind, Option.bind_some, List.foldlM_cons, hstep']
    rfl

theorem tracks_new (hpos : page_size ≠ 0) (hlt : page_size < 2 ^ 64) {s₀ : LockedPageManagerBase}
    (hnew : LockedPageManagerBase.new page_size = some s₀) : Tracks page_size s₀ fun _ => 0 := by
  obtain ⟨-, rfl⟩ := new_eq hpos hlt hnew
  exact ⟨rfl, rfl, fun q => rfl, fun q => rfl⟩

/-- After matched calls the locked pages are those of the live ranges, and the next call locks the
pages that get their first range, and unlocks those that lose their last. -/
theorem pagesLocked_of_matched (hpos : page_size ≠ 0) (hlt : page_size < 2 ^ 64)
    {s₀ : LockedPageManagerBase} (hnew : LockedPageManagerBase.new page_size = some s₀)
    {calls : List RangeCall} (h : Matched page_size calls live) :
    ∃ s, s₀.run calls = some s ∧
      (∀ q, lockedAfter (q * page_size) s.calls = true ↔ 0 < cover page_size live q) ∧
      ∀ call live', LiveStep page_size live call live' →
        ∃ s' lockerCalls, s.step call = some s' ∧ s'.calls = s.calls ++ lockerCalls ∧
          CallsChanges page_size live live' lockerCalls := by
  have hpow := (new_eq hpos hlt hnew).1
  obtain ⟨s, hrun, hs⟩ := h.run hpow hlt (tracks_new hpos hlt hnew)
  refine ⟨s, hrun, fun q => ?_, fun call live' hstep => ?_⟩
  · rw [hs.locked q, decide_eq_true_iff, Nat.pos_iff_ne_zero]
  · obtain ⟨s', lockerCalls, hstep', -, hcalls, hchanges⟩ :=
      step_spec hpow hlt hs h.isLow hstep
    exact ⟨s', lockerCalls, hstep', hcalls, hchanges⟩

/-- The loop does not end if it reaches the last page. -/
theorem forPages_eq_none {f : ℕ → LockedPageManagerBase → Option LockedPageManagerBase}
    {page endPage : ℕ} (hle : page ≤ endPage) (htop : 2 ^ 64 ≤ page + page_size) :
    forPages page_size endPage f page s = none := by
  rw [forPages, dif_pos hle]
  cases f page s with
  | none => rfl
  | some s₁ =>
    rw [Option.bind_eq_bind, Option.bind_some, dif_neg (by omega)]

theorem isLow_oneByte : MemRange.IsLow 4096 ⟨0, 1⟩ := ⟨Nat.one_pos, by decide⟩

/-- One byte, locked again and again. -/
theorem matched_replicate {m : ℕ} (hm : (m : ℤ) ≤ intMax) :
    Matched 4096 (List.replicate m (.lock ⟨0, 1⟩)) (List.replicate m ⟨0, 1⟩) := by
  induction m with
  | zero => exact .nil
  | succ m ih =>
    rw [List.replicate_succ', List.replicate_succ]
    refine .snoc (ih (by omega)) (.lock isLow_oneByte fun q => ?_)
    have hcount : cover 4096 (⟨0, 1⟩ :: List.replicate m ⟨0, 1⟩) q ≤ m + 1 := by
      refine List.countP_le_length.trans_eq ?_
      rw [List.length_cons, List.length_replicate]
    omega

/-- Locks that are never undone make the counter overflow, and a range that ends inside the last
page is not done with. -/
theorem not_pagesLocked_top : ∃ s₀, LockedPageManagerBase.new 4096 = some s₀ ∧
    s₀.run (List.replicate (2 ^ 31) (.lock ⟨0, 1⟩)) = none ∧
    s₀.run [.lock ⟨2 ^ 64 - 4096, 10⟩] = none := by
  have hnew : LockedPageManagerBase.new 4096 =
      some { page_size := 4096, page_mask := 2 ^ 64 - 4096 } := rfl
  obtain ⟨hpow, -⟩ := new_eq (by decide) (by decide) hnew
  have h₀ := tracks_new (by decide) (by decide) hnew
  refine ⟨_, hnew, ?_, ?_⟩
  · obtain ⟨m, hm⟩ : ∃ m : ℕ, 2 ^ 31 = m + 1 := ⟨2 ^ 31 - 1, rfl⟩
    have hmax : (m : ℤ) = intMax := by
      rw [intMax]
      omega
    obtain ⟨s, hrun, hs⟩ := (matched_replicate hmax.le).run hpow (by decide) h₀
    have hcover : cover 4096 (List.replicate m ⟨0, 1⟩) 0 = m := by
      rw [cover, List.countP_replicate]
      exact if_pos (by decide)
    have hget := hs.histogram 0
    rw [hcover, if_neg (by omega), hmax] at hget
    have hlock : lockPage 0 s = none := by
      rw [lockPage, hget]
      exact if_pos rfl
    have hstep : s.step (.lock ⟨0, 1⟩) = none := by
      change s.lockRange 0 1 = none
      rw [lockRange, forRange, if_neg Nat.one_ne_zero, hs.size, hs.mask]
      change forPages 4096 0 lockPage 0 s = none
      rw [forPages, dif_pos (Nat.le_refl 0), hlock]
      rfl
    rw [hm, List.replicate_succ', LockedPageManagerBase.run, List.foldlM_append]
    change (LockedPageManagerBase.run _ _ >>= fun s => _) = _
    rw [hrun, Option.bind_eq_bind, Option.bind_some, List.foldlM_cons, hstep]
    rfl
  · change (lockRange _ _ _ >>= fun s => _) = none
    rw [lockRange, forRange, if_neg (by decide)]
    rw [forPages_eq_none (by decide) (by decide)]
    rfl

/-- Two ranges that share a page, of which one ends. -/
theorem pagesLocked_twoRanges : ∃ s₀, LockedPageManagerBase.new 4096 = some s₀ ∧
    ∃ s, s₀.run [.lock ⟨4000, 200⟩, .lock ⟨100, 8⟩, .unlock ⟨4000, 200⟩] = some s ∧
      (∀ q, lockedAfter (q * 4096) s.calls = true ↔ 0 < cover 4096 [⟨100, 8⟩] q) ∧
      ∀ call live', LiveStep 4096 [⟨100, 8⟩] call live' →
        ∃ s' lockerCalls, s.step call = some s' ∧ s'.calls = s.calls ++ lockerCalls ∧
          CallsChanges 4096 [⟨100, 8⟩] live' lockerCalls := by
  have hnew : LockedPageManagerBase.new 4096 =
      some { page_size := 4096, page_mask := 2 ^ 64 - 4096 } := rfl
  have hmax : ∀ (live : List MemRange) (q : ℕ), live.length ≤ 2 →
      (cover 4096 live q : ℤ) ≤ intMax := fun live q hlen => by
    have hcount : cover 4096 live q ≤ live.length := List.countP_le_length
    rw [intMax]
    omega
  have hfirst : Matched 4096 [.lock ⟨4000, 200⟩] [⟨4000, 200⟩] :=
    .snoc .nil (.lock ⟨by decide, by decide⟩ fun q => hmax _ q (by decide))
  have hsecond : Matched 4096 [.lock ⟨4000, 200⟩, .lock ⟨100, 8⟩] [⟨100, 8⟩, ⟨4000, 200⟩] :=
    .snoc hfirst (.lock ⟨by decide, by decide⟩ fun q => hmax _ q (by decide))
  have hthird : Matched 4096 [.lock ⟨4000, 200⟩, .lock ⟨100, 8⟩, .unlock ⟨4000, 200⟩]
      [⟨100, 8⟩] := .snoc hsecond (.unlock (by decide))
  exact ⟨_, hnew, pagesLocked_of_matched (by decide) (by decide) hnew hthird⟩

end Ticoin
