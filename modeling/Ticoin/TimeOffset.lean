import Ticoin.Lib.OrderStatistics
import Ticoin.NetAddress

/-!
# util.cpp : the time of the peers

Each peer with a new address gives a sample of how far its clock is from ours. The samples go
through a `CMedianFilter` of 200 places that starts with a zero in it, and the offset of
network time is set to their median, or to zero if that is 70 minutes or more. It is set
only when the number of samples is odd. Once the filter is full the number is 200 for good,
and the offset never changes again (`addSamples_nTimeOffset`).

A peer can make the sample `INT64_MIN`, which `abs64` leaves negative. If it is the median
it passes for a small offset. `addTimeData_follows_iff` says when 201 equal samples have
their effect, and in which runs the offset stays below 70 minutes.
-/

namespace Ticoin

instance linearOrderInt64 : LinearOrder Int64 where
  le_refl := Int64.le_refl
  le_trans _ _ _ := Int64.le_trans
  le_antisymm _ _ := Int64.le_antisymm
  le_total := Int64.le_total
  lt_iff_le_not_ge a b := by
    rw [Int64.lt_iff_toInt_lt, Int64.le_iff_toInt_le, Int64.le_iff_toInt_le]
    omega
  toDecidableLE := inferInstance
  toDecidableLT := inferInstance

/-! ## CMedianFilter -/

/-- The last values of a stream, at least one and at most `nSize`. `vSorted` is computed
from them, as every `input` does. -/
structure CMedianFilter (α : Type) where
  vValues : List α
  nSize : ℕ
  pos : 0 < vValues.length
  le : vValues.length ≤ nSize

namespace CMedianFilter

variable {α : Type}

/-- The constructor. -/
def new (size : ℕ) (hsize : 0 < size) (initial_value : α) : CMedianFilter α :=
  ⟨[initial_value], size, Nat.one_pos, hsize⟩

def input (f : CMedianFilter α) (value : α) : CMedianFilter α where
  vValues := (if f.vValues.length = f.nSize then f.vValues.tail else f.vValues) ++ [value]
  nSize := f.nSize
  pos := by simp
  le := by
    have hpos := f.pos
    have hle := f.le
    split
    · simp
      omega
    · simp
      omega

def size (f : CMedianFilter α) : ℕ := f.vValues.length

variable [LinearOrder α]

def vSorted (f : CMedianFilter α) : List α := f.vValues.insertionSort (· ≤ ·)

theorem length_vSorted (f : CMedianFilter α) : f.vSorted.length = f.size :=
  List.length_insertionSort ..

def median [Add α] [Div α] [OfNat α 2] (f : CMedianFilter α) : α :=
  have hlt : f.size / 2 < f.vSorted.length := by
    rw [length_vSorted]
    exact Nat.div_lt_self f.pos Nat.one_lt_two
  if f.size % 2 = 1 then f.vSorted[f.size / 2]
  else (f.vSorted[f.size / 2 - 1] + f.vSorted[f.size / 2]) / 2

end CMedianFilter

/-! ## AddTimeData -/

def abs64 (n : Int64) : Int64 := if n ≥ 0 then n else -n

/-- The variables of `AddTimeData`. -/
structure TimeData where
  setKnown : List CNetAddr
  vTimeOffsets : CMedianFilter Int64
  nTimeOffset : Int64
  fDone : Bool
  strMiscWarning : String

/-- Before the first call. -/
def TimeData.init : TimeData := ⟨[], .new 200 (by decide) 0, 0, false, ""⟩

/-- The median as an offset, and the warning if it is too large and no peer has our time. -/
def TimeData.update (s : TimeData) : TimeData :=
  let nMedian := s.vTimeOffsets.median
  let vSorted := s.vTimeOffsets.vSorted
  -- only let other nodes change our time by so much
  if abs64 nMedian < 70 * 60 then { s with nTimeOffset := nMedian }
  else
    let s := { s with nTimeOffset := 0 }
    if s.fDone then s
    else
      let fMatch := vSorted.any fun nOffset => nOffset ≠ 0 ∧ abs64 nOffset < 5 * 60
      if fMatch then s
      else { s with
        fDone := true
        strMiscWarning := "Warning: Please check that your computer's date and time are correct! "
          ++ "If your clock is wrong ticoin will not work properly." }

/-- A call : the address of the peer, its time, and ours. -/
structure TimeCall where
  ip : CNetAddr
  nTime : Int64
  getTime : Int64
  deriving DecidableEq

def TimeCall.nOffsetSample (c : TimeCall) : Int64 := c.nTime - c.getTime

/-- `AddTimeData`. -/
def TimeData.addTimeData (s : TimeData) (c : TimeCall) : TimeData :=
  if c.ip ∈ s.setKnown then s
  else
    let s := { s with
      setKnown := c.ip :: s.setKnown
      vTimeOffsets := s.vTimeOffsets.input c.nOffsetSample }
    if s.vTimeOffsets.size ≥ 5 ∧ s.vTimeOffsets.size % 2 = 1 then s.update else s

/-- Calls one after the other. -/
def TimeData.run (s : TimeData) (calls : List TimeCall) : TimeData := calls.foldl addTimeData s

/-! ## One call -/

section Call

variable {s : TimeData} {c : TimeCall}

/-- What an update makes of the median. -/
def limitOffset (nMedian : Int64) : Int64 := if abs64 nMedian < 70 * 60 then nMedian else 0

@[simp] theorem TimeData.update_setKnown : s.update.setKnown = s.setKnown := by
  simp only [TimeData.update]
  split_ifs <;> rfl

@[simp] theorem TimeData.update_vTimeOffsets : s.update.vTimeOffsets = s.vTimeOffsets := by
  simp only [TimeData.update]
  split_ifs <;> rfl

theorem TimeData.update_nTimeOffset :
    s.update.nTimeOffset = limitOffset s.vTimeOffsets.median := by
  simp only [TimeData.update, limitOffset]
  split_ifs <;> rfl

theorem addTimeData_known (h : c.ip ∈ s.setKnown) : s.addTimeData c = s := if_pos h

/-- A call from a new address. -/
theorem addTimeData_new (h : c.ip ∉ s.setKnown) :
    (s.addTimeData c).setKnown = c.ip :: s.setKnown ∧
    (s.addTimeData c).vTimeOffsets = s.vTimeOffsets.input c.nOffsetSample ∧
    (s.addTimeData c).nTimeOffset =
      if (s.vTimeOffsets.input c.nOffsetSample).size ≥ 5 ∧
          (s.vTimeOffsets.input c.nOffsetSample).size % 2 = 1 then
        limitOffset (s.vTimeOffsets.input c.nOffsetSample).median
      else s.nTimeOffset := by
  rw [TimeData.addTimeData, if_neg h]
  dsimp only
  split
  · simp [TimeData.update_nTimeOffset]
  · exact ⟨rfl, rfl, rfl⟩

theorem CMedianFilter.size_input {f : CMedianFilter Int64} {x : Int64} :
    (f.input x).size = min (f.size + 1) f.nSize := by
  have hle := f.le
  have hpos := f.pos
  rw [CMedianFilter.size, CMedianFilter.input, CMedianFilter.size]
  dsimp only
  split <;> simp <;> omega

theorem CMedianFilter.vValues_input {f : CMedianFilter Int64} {x : Int64} (h : f.size < f.nSize) :
    (f.input x).vValues = f.vValues ++ [x] := by
  rw [CMedianFilter.input]
  dsimp only
  rw [if_neg (show f.vValues.length ≠ f.nSize from h.ne)]

end Call

/-! ## Runs of calls -/

/-- Addresses that are not known, each different from those before. -/
def Unseen (setKnown : List CNetAddr) (calls : List TimeCall) : Prop :=
  (calls.map (·.ip)).Nodup ∧ ∀ c ∈ calls, c.ip ∉ setKnown

theorem Unseen.step {s : TimeData} {c : TimeCall} {calls : List TimeCall}
    (h : Unseen s.setKnown (c :: calls)) :
    c.ip ∉ s.setKnown ∧ Unseen (s.addTimeData c).setKnown calls := by
  obtain ⟨hnodup, hnew⟩ := h
  rw [List.map_cons, List.nodup_cons] at hnodup
  have hc := hnew c List.mem_cons_self
  refine ⟨hc, hnodup.2, fun x hx => ?_⟩
  rw [(addTimeData_new hc).1, List.mem_cons]
  rintro (heq | hmem)
  · exact hnodup.1 (heq ▸ List.mem_map_of_mem hx)
  · exact hnew x (List.mem_cons_of_mem _ hx) hmem

/-- From 199 samples on the offset does not change. -/
theorem run_of_full : ∀ {calls : List TimeCall} {s : TimeData}, s.vTimeOffsets.nSize = 200 →
    199 ≤ s.vTimeOffsets.size → (s.run calls).nTimeOffset = s.nTimeOffset
  | [], _, _, _ => rfl
  | c :: calls, s, hsize, hfull => by
    rw [TimeData.run, List.foldl_cons, ← TimeData.run]
    by_cases hc : c.ip ∈ s.setKnown
    · rw [addTimeData_known hc, run_of_full hsize hfull]
    · obtain ⟨-, hfilter, hoffset⟩ := addTimeData_new hc
      have hlen : (s.vTimeOffsets.input c.nOffsetSample).size = 200 := by
        rw [CMedianFilter.size_input, hsize]
        omega
      rw [run_of_full (by rw [hfilter]; exact hsize) (by rw [hfilter, hlen]; decide), hoffset, hlen,
        if_neg (by decide)]

/-- Equal samples are appended as long as there is room. -/
theorem run_vValues {d : Int64} : ∀ {calls : List TimeCall} {s : TimeData},
    s.vTimeOffsets.nSize = 200 → Unseen s.setKnown calls → (∀ c ∈ calls, c.nOffsetSample = d) →
    s.vTimeOffsets.size + calls.length ≤ 200 →
    (s.run calls).vTimeOffsets.vValues = s.vTimeOffsets.vValues ++ List.replicate calls.length d ∧
      (s.run calls).vTimeOffsets.nSize = 200
  | [], _, hsize, _, _, _ => by simp [TimeData.run, hsize]
  | c :: calls, s, hsize, hnew, hd, hlen => by
    obtain ⟨hc, hrest⟩ := hnew.step
    obtain ⟨-, hfilter, -⟩ := addTimeData_new hc
    rw [List.length_cons] at hlen
    rw [TimeData.run, List.foldl_cons, ← TimeData.run]
    have hroom : s.vTimeOffsets.size < s.vTimeOffsets.nSize := by omega
    obtain ⟨hvalues, hsize'⟩ := run_vValues (s := s.addTimeData c) (by rw [hfilter]; exact hsize)
      hrest (fun x hx => hd x (List.mem_cons_of_mem _ hx))
      (by rw [hfilter, CMedianFilter.size_input]; omega)
    refine ⟨?_, hsize'⟩
    rw [hvalues, hfilter, CMedianFilter.vValues_input hroom, hd c List.mem_cons_self,
      List.append_assoc, List.length_cons, List.replicate_succ]
    rfl

theorem TimeData.run_append (s : TimeData) (calls more : List TimeCall) :
    s.run (calls ++ more) = (s.run calls).run more := List.foldl_append ..

/-- The median of 199 samples has its place at index 99. -/
theorem CMedianFilter.median_of_size {f : CMedianFilter Int64} (h : f.size = 199) :
    ∃ hi : 99 < (f.vValues.insertionSort (· ≤ ·)).length,
      f.median = (f.vValues.insertionSort (· ≤ ·))[99] := by
  have hlen : f.vValues.length = 199 := h
  refine ⟨by rw [List.length_insertionSort, hlen]; decide, ?_⟩
  simp only [CMedianFilter.median, h]
  rfl

/-- The calls after others, too, are from unseen addresses. -/
theorem Unseen.append : ∀ {calls more : List TimeCall} {s : TimeData},
    Unseen s.setKnown (calls ++ more) →
    Unseen s.setKnown calls ∧ Unseen (s.run calls).setKnown more
  | [], _, _, h => ⟨⟨List.nodup_nil, nofun⟩, h⟩
  | c :: calls, more, s, h => by
    have hstep := Unseen.step h
    obtain ⟨-, hmore⟩ := Unseen.append hstep.2
    refine ⟨⟨?_, fun x hx => h.2 x (List.mem_append_left _ hx)⟩, hmore⟩
    have hnodup := h.1
    rw [List.map_append] at hnodup
    exact (List.nodup_append.mp hnodup).1

/-- With room for a sample of 199, the last change sets the offset from them. -/
theorem run_of_room {d : Int64} {calls : List TimeCall} {s : TimeData}
    (hsize : s.vTimeOffsets.nSize = 200) (hroom : s.vTimeOffsets.size < 199)
    (hnew : Unseen s.setKnown calls) (hd : ∀ c ∈ calls, c.nOffsetSample = d)
    (hlen : 199 ≤ s.vTimeOffsets.size + calls.length) :
    ∃ hi : 99 < ((s.vTimeOffsets.vValues ++
        List.replicate (199 - s.vTimeOffsets.size) d).insertionSort (· ≤ ·)).length,
      (s.run calls).nTimeOffset = limitOffset ((s.vTimeOffsets.vValues ++
        List.replicate (199 - s.vTimeOffsets.size) d).insertionSort (· ≤ ·))[99] := by
  obtain ⟨n, hn⟩ : ∃ n, s.vTimeOffsets.size + n = 198 := ⟨198 - s.vTimeOffsets.size, by omega⟩
  obtain ⟨first, c, rest, rfl, hfirst⟩ : ∃ first c rest, calls = first ++ c :: rest ∧
      first.length = n := by
    refine ⟨calls.take n, calls[n], calls.drop (n + 1), ?_, by rw [List.length_take]; omega⟩
    rw [List.getElem_cons_drop, List.take_append_drop]
  obtain ⟨hnewfirst, hnewrest⟩ := hnew.append
  obtain ⟨hvalues, hsize'⟩ := run_vValues hsize hnewfirst
    (fun x hx => hd x (List.mem_append_left _ hx)) (by omega)
  rw [TimeData.run_append, TimeData.run, List.foldl_cons, ← TimeData.run]
  generalize s.run first = t at hvalues hsize' hnewrest
  obtain ⟨-, hfilter, hoffset⟩ := addTimeData_new hnewrest.step.1
  have hsizet : t.vTimeOffsets.size = 198 := by
    rw [CMedianFilter.size, hvalues, List.length_append, List.length_replicate, hfirst]
    exact hn
  have hfull : (t.vTimeOffsets.input c.nOffsetSample).size = 199 := by
    rw [CMedianFilter.size_input, hsizet, hsize']
    decide
  obtain ⟨hi, hmedian⟩ := CMedianFilter.median_of_size hfull
  have hvaluest : (t.vTimeOffsets.input c.nOffsetSample).vValues =
      s.vTimeOffsets.vValues ++ List.replicate (199 - s.vTimeOffsets.size) d := by
    rw [CMedianFilter.vValues_input (by omega), hvalues, hd c (by simp), List.append_assoc,
      ← List.replicate_succ', hfirst, show 199 - s.vTimeOffsets.size = n + 1 by omega]
  rw [run_of_full (by rw [hfilter]; exact hsize') (by rw [hfilter, hfull]), hoffset, hfull,
    if_pos (by decide), hmedian]
  simp only [hvaluest] at hi ⊢
  exact ⟨hi, trivial⟩

/-! ## When the offset follows, and when it is in range -/

/-- Less than 70 minutes. -/
def OffsetInRange (n : Int64) : Prop := |n.toInt| < 70 * 60

/-- With 199 samples the offset is what it was. With fewer, no half of the samples is on one
side of `d` ; or `d` is zero, and half of them are so far off that the offset is set to zero. -/
def Follows (s : TimeData) (d : Int64) : Prop :=
  let vValues := s.vTimeOffsets.vValues
  if 199 ≤ vValues.length then s.nTimeOffset = d
  else
    (vValues.countP (· < d) ≤ 99 ∧ vValues.countP (d < ·) ≤ 99) ∨
    (d = 0 ∧ (99 < vValues.countP (4200 ≤ ·) ∨
      (99 < vValues.countP (· ≤ -4200) ∧ vValues.count Int64.minValue ≤ 99)))

/-- The call makes `INT64_MIN` the median of an odd number of samples. -/
def Overwhelmed (s : TimeData) (c : TimeCall) : Prop :=
  c.ip ∉ s.setKnown ∧
    let f := s.vTimeOffsets.input c.nOffsetSample
    5 ≤ f.size ∧ f.size % 2 = 1 ∧ f.size / 2 < f.vValues.count Int64.minValue

theorem abs64_lt_iff {n : Int64} : abs64 n < 70 * 60 ↔ OffsetInRange n ∨ n = Int64.minValue := by
  have hlt := n.toInt_lt
  have hle := n.le_toInt
  have h70 : (70 * 60 : Int64).toInt = 4200 := rfl
  have h0 : (0 : Int64).toInt = 0 := rfl
  have hmin : n = Int64.minValue ↔ n.toInt = -2 ^ 63 := by
    rw [← Int64.toInt_inj]
    rfl
  rw [abs64, OffsetInRange, abs_lt, hmin]
  split
  · rename_i hpos
    rw [ge_iff_le, Int64.le_iff_toInt_le, h0] at hpos
    rw [Int64.lt_iff_toInt_lt, h70]
    omega
  · rename_i hneg
    rw [ge_iff_le, Int64.le_iff_toInt_le, h0] at hneg
    rw [Int64.lt_iff_toInt_lt, h70, Int64.toInt_neg]
    simp only [Int.bmod_def]
    omega

theorem limitOffset_eq_iff {m d : Int64} (hd : OffsetInRange d) :
    limitOffset m = d ↔ m = d ∨ (d = 0 ∧ ¬OffsetInRange m ∧ m ≠ Int64.minValue) := by
  rw [limitOffset, ← not_or, ← abs64_lt_iff]
  split
  · rename_i hm
    exact ⟨.inl, fun h => h.resolve_right fun hzero => hzero.2 hm⟩
  · rename_i hm
    refine ⟨fun h => .inr ⟨h.symm, hm⟩, ?_⟩
    rintro (rfl | hzero)
    · exact absurd (abs64_lt_iff.mpr (.inl hd)) hm
    · exact hzero.1.symm

theorem offsetInRange_limitOffset {m : Int64} :
    OffsetInRange (limitOffset m) ↔ m ≠ Int64.minValue := by
  rw [limitOffset]
  split
  · rename_i hm
    refine ⟨?_, (abs64_lt_iff.mp hm).resolve_right⟩
    rintro hrange rfl
    revert hrange
    rw [OffsetInRange]
    decide
  · rename_i hm
    refine iff_of_true (by rw [OffsetInRange]; decide) ?_
    rintro rfl
    exact hm (abs64_lt_iff.mpr (.inr rfl))

theorem le_minValue_iff {n : Int64} : n ≤ Int64.minValue ↔ n = Int64.minValue :=
  ⟨fun h => Int64.le_antisymm h n.minValue_le, fun h => h ▸ Int64.le_refl _⟩

theorem countP_le_minValue (l : List Int64) :
    l.countP (· ≤ Int64.minValue) = l.count Int64.minValue := by
  rw [List.count]
  refine List.countP_congr fun n _ => ?_
  rw [decide_eq_true_iff, le_minValue_iff, beq_iff_eq]

theorem not_offsetInRange_iff {m : Int64} :
    ¬OffsetInRange m ∧ m ≠ Int64.minValue ↔ 4200 ≤ m ∨ (m ≤ -4200 ∧ m ≠ Int64.minValue) := by
  have h1 : (4200 : Int64).toInt = 4200 := rfl
  have h2 : (-4200 : Int64).toInt = -4200 := rfl
  have hmin : m = Int64.minValue ↔ m.toInt = -2 ^ 63 := by
    rw [← Int64.toInt_inj]
    rfl
  rw [OffsetInRange, abs_lt, ne_eq, hmin, Int64.le_iff_toInt_le, Int64.le_iff_toInt_le, h1, h2]
  omega

theorem countP_le_add_countP_lt (l : List Int64) (x : Int64) :
    l.countP (· ≤ x) + l.countP (x < ·) = l.length := by
  rw [List.length_eq_countP_add_countP (· ≤ x)]
  simp

theorem countP_ge_add_countP_lt (l : List Int64) (x : Int64) :
    l.countP (x ≤ ·) + l.countP (· < x) = l.length := by
  rw [List.length_eq_countP_add_countP (x ≤ ·)]
  simp

/-- The offset after many equal samples, from a state with fewer than 199. -/
theorem limitOffset_median_iff {l : List Int64} {k : ℕ} {d : Int64} (hd : OffsetInRange d)
    (hlen : l.length + k = 199)
    (hi : 99 < ((l ++ List.replicate k d).insertionSort (· ≤ ·)).length) :
    limitOffset ((l ++ List.replicate k d).insertionSort (· ≤ ·))[99] = d ↔
      (l.countP (· < d) ≤ 99 ∧ l.countP (d < ·) ≤ 99) ∨
      (d = 0 ∧ (99 < l.countP (4200 ≤ ·) ∨
        (99 < l.countP (· ≤ -4200) ∧ l.count Int64.minValue ≤ 99))) := by
  rw [limitOffset_eq_iff hd, not_offsetInRange_iff]
  refine or_congr ?_ (and_congr_right ?_)
  · have hcount := countP_le_add_countP_lt l d
    rw [OrderStatistics.getElem_insertionSort_eq_iff, List.countP_append, List.countP_append,
      List.countP_replicate, List.countP_replicate, if_neg (by simp), if_pos (by simp)]
    omega
  · rintro rfl
    have hcount := countP_ge_add_countP_lt l 4200
    refine or_congr ?_ (and_congr ?_ ?_)
    · rw [← not_lt, OrderStatistics.getElem_insertionSort_lt_iff, List.countP_append,
        List.countP_replicate, if_pos (by decide)]
      omega
    · rw [OrderStatistics.getElem_insertionSort_le_iff, List.countP_append, List.countP_replicate,
        if_neg (by decide), Nat.add_zero]
    · rw [ne_eq, ← le_minValue_iff, OrderStatistics.getElem_insertionSort_le_iff,
        List.countP_append, List.countP_replicate, if_neg (by decide), Nat.add_zero,
        countP_le_minValue, not_lt]

/-- After 201 equal samples from unseen addresses the offset is that sample if and only if
the state allowed it. -/
theorem run_eq_iff {s : TimeData} {d : Int64} {calls : List TimeCall}
    (hsize : s.vTimeOffsets.nSize = 200) (hd : OffsetInRange d) (hlen : 201 ≤ calls.length)
    (hnew : Unseen s.setKnown calls) (hsample : ∀ c ∈ calls, c.nOffsetSample = d) :
    (s.run calls).nTimeOffset = d ↔ Follows s d := by
  rw [Follows]
  split
  · rename_i hfull
    rw [run_of_full hsize hfull]
  · rename_i hroom
    have hroom' : s.vTimeOffsets.size < 199 := not_le.mp hroom
    obtain ⟨hi, heq⟩ := run_of_room hsize hroom' hnew hsample (by omega)
    rw [heq]
    exact limitOffset_median_iff hd (show s.vTimeOffsets.size + _ = 199 by omega) hi

theorem median_eq_minValue_iff {f : CMedianFilter Int64} (hodd : f.size % 2 = 1) :
    f.median = Int64.minValue ↔ f.size / 2 < f.vValues.count Int64.minValue := by
  rw [CMedianFilter.median, if_pos hodd, ← le_minValue_iff, ← countP_le_minValue]
  exact OrderStatistics.getElem_insertionSort_le_iff ..

/-- A call leaves the range if and only if it lets `INT64_MIN` through. -/
theorem addTimeData_inRange_iff {s : TimeData} (hs : OffsetInRange s.nTimeOffset) (c : TimeCall) :
    OffsetInRange (s.addTimeData c).nTimeOffset ↔ ¬Overwhelmed s c := by
  rw [Overwhelmed]
  by_cases hc : c.ip ∈ s.setKnown
  · rw [addTimeData_known hc]
    exact iff_of_true hs fun h => h.1 hc
  · rw [(addTimeData_new hc).2.2]
    dsimp only
    split
    · rename_i hodd
      rw [offsetInRange_limitOffset, ne_eq, median_eq_minValue_iff hodd.2]
      exact not_congr ⟨fun h => ⟨hc, hodd.1, hodd.2, h⟩, fun h => h.2.2.2⟩
    · rename_i hodd
      exact iff_of_true hs fun h => hodd ⟨h.2.1, h.2.2.1⟩

theorem addTimeData_nSize (s : TimeData) (c : TimeCall) :
    (s.addTimeData c).vTimeOffsets.nSize = s.vTimeOffsets.nSize := by
  by_cases hc : c.ip ∈ s.setKnown
  · rw [addTimeData_known hc]
  · rw [(addTimeData_new hc).2.1]
    rfl

theorem run_nSize : ∀ (calls : List TimeCall) (s : TimeData),
    (s.run calls).vTimeOffsets.nSize = s.vTimeOffsets.nSize
  | [], _ => rfl
  | c :: calls, s => (run_nSize calls (s.addTimeData c)).trans (addTimeData_nSize s c)

/-- The offset is in range all along a run if and only if no call lets `INT64_MIN` through. -/
theorem run_inRange_iff : ∀ (calls : List TimeCall) {s : TimeData}, OffsetInRange s.nTimeOffset →
    ((∀ before, before <+: calls → OffsetInRange (s.run before).nTimeOffset) ↔
      ∀ before c, before ++ [c] <+: calls → ¬Overwhelmed (s.run before) c)
  | [], s, hs => by
    refine iff_of_true (fun before h => ?_) fun before c h => ?_
    · rw [List.prefix_nil.mp h]
      exact hs
    · exact absurd (List.prefix_nil.mp h) (by simp)
  | c :: calls, s, hs => by
    constructor
    · intro h
      have hc : OffsetInRange (s.addTimeData c).nTimeOffset := h [c] ⟨calls, rfl⟩
      intro before x hbefore
      cases before with
      | nil =>
        obtain ⟨rfl, -⟩ := List.cons_prefix_cons.mp hbefore
        exact (addTimeData_inRange_iff hs x).mp hc
      | cons y before =>
        obtain ⟨rfl, hrest⟩ := List.cons_prefix_cons.mp hbefore
        refine (run_inRange_iff calls hc).mp (fun b hb => ?_) before x hrest
        exact h (y :: b) (List.cons_prefix_cons.mpr ⟨rfl, hb⟩)
    · intro h before hbefore
      have hc := (addTimeData_inRange_iff hs c).mpr (h [] c ⟨calls, rfl⟩)
      cases before with
      | nil => exact hs
      | cons y before =>
        obtain ⟨rfl, hrest⟩ := List.cons_prefix_cons.mp hbefore
        refine (run_inRange_iff calls hc).mpr (fun b x hb => ?_) before hrest
        exact h (y :: b) x (List.cons_prefix_cons.mpr ⟨rfl, hb⟩)

/-- In every reachable state, 201 equal samples from unseen addresses become the offset if
and only if the state lets them ; and a run keeps the offset below 70 minutes if and only if
no call of it makes `INT64_MIN` the median. -/
theorem addTimeData_follows_iff (calls : List TimeCall) :
    (∀ (d : Int64) (more : List TimeCall), OffsetInRange d → 201 ≤ more.length →
      Unseen (TimeData.init.run calls).setKnown more → (∀ c ∈ more, c.nOffsetSample = d) →
      (((TimeData.init.run calls).run more).nTimeOffset = d ↔ Follows (TimeData.init.run calls) d)) ∧
    ((∀ before, before <+: calls → OffsetInRange (TimeData.init.run before).nTimeOffset) ↔
      ∀ before c, before ++ [c] <+: calls → ¬Overwhelmed (TimeData.init.run before) c) :=
  ⟨fun _ _ hd hlen hnew hsample => run_eq_iff (run_nSize calls _) hd hlen hnew hsample,
    run_inRange_iff calls (by rw [OffsetInRange]; decide)⟩

/-- Calls from addresses with numbers in a row, all with the same sample. -/
def sampleCalls (first n : ℕ) (d : Int64) : List TimeCall :=
  (List.range' first n).map fun i => ⟨BitVec.ofNat 128 i, d, 0⟩

theorem length_sampleCalls (first n : ℕ) (d : Int64) : (sampleCalls first n d).length = n := by
  rw [sampleCalls, List.length_map, List.length_range']

/-- Numbers in a row are different addresses. -/
theorem nodup_sampleAddresses {n : ℕ} (h : n ≤ 2 ^ 128) :
    ((List.range' 0 n).map (BitVec.ofNat 128)).Nodup := by
  refine List.Nodup.map_on (fun x hx y hy heq => ?_) List.nodup_range'
  rw [List.mem_range'_1] at hx hy
  have hnat := congrArg BitVec.toNat heq
  rwa [BitVec.toNat_ofNat, BitVec.toNat_ofNat, Nat.mod_eq_of_lt (by omega),
    Nat.mod_eq_of_lt (by omega)] at hnat

/-- With 199 samples of zero there is no way to another offset, and four samples of
`INT64_MIN` get through. -/
theorem addTimeData_stuck :
    (¬∀ (calls : List TimeCall) (d : Int64) (more : List TimeCall), OffsetInRange d →
      201 ≤ more.length → Unseen (TimeData.init.run calls).setKnown more →
      (∀ c ∈ more, c.nOffsetSample = d) → ((TimeData.init.run calls).run more).nTimeOffset = d) ∧
    ¬∀ calls : List TimeCall, OffsetInRange (TimeData.init.run calls).nTimeOffset := by
  constructor
  · intro h
    have hnew : ∀ d, Unseen TimeData.init.setKnown (sampleCalls 0 199 0 ++ sampleCalls 199 201 d) := by
      intro d
      refine ⟨?_, fun _ _ => List.not_mem_nil⟩
      simp only [sampleCalls, List.map_append, List.map_map]
      show ((List.range' 0 199).map (BitVec.ofNat 128) ++
        (List.range' 199 201).map (BitVec.ofNat 128)).Nodup
      rw [← List.map_append, show List.range' 0 199 ++ List.range' 199 201 = List.range' 0 400 from
        List.range'_append]
      exact nodup_sampleAddresses (by decide)
    have hsample : ∀ (first n : ℕ) (d : Int64), ∀ c ∈ sampleCalls first n d, c.nOffsetSample = d := by
      intro first n d c hc
      obtain ⟨i, -, rfl⟩ := List.mem_map.mp hc
      exact Int64.sub_zero d
    have hfull : 199 ≤ (TimeData.init.run (sampleCalls 0 199 0)).vTimeOffsets.size := by
      obtain ⟨hvalues, -⟩ := run_vValues (s := .init) rfl (hnew 0).append.1 (hsample 0 199 0)
        (by rw [length_sampleCalls]; decide)
      rw [CMedianFilter.size, hvalues]
      decide +kernel
    have hstay : ∀ more : List TimeCall,
        ((TimeData.init.run (sampleCalls 0 199 0)).run more).nTimeOffset =
          (TimeData.init.run (sampleCalls 0 199 0)).nTimeOffset := fun more =>
      run_of_full (run_nSize _ _) hfull
    have h0 := h (sampleCalls 0 199 0) 0 (sampleCalls 199 201 0) (by rw [OffsetInRange]; decide)
      (length_sampleCalls _ _ _).ge (hnew 0).append.2 (hsample 199 201 0)
    have h60 := h (sampleCalls 0 199 0) 60 (sampleCalls 199 201 60) (by rw [OffsetInRange]; decide)
      (length_sampleCalls _ _ _).ge (hnew 60).append.2 (hsample 199 201 60)
    rw [hstay] at h0 h60
    exact absurd (h0.symm.trans h60) (by decide)
  · intro h
    have h4 := h (sampleCalls 0 4 Int64.minValue)
    rw [OffsetInRange] at h4
    revert h4
    decide

end Ticoin
