import Ticoin.ActivateBestChain
import Ticoin.MinWork
import Ticoin.Lib.OrderStatistics

/-!
# GetMedianTimePast : the median of the last times

The window of a block is that of its parent without the oldest time, when there are eleven, and with
its own time. Where blocks have times after the median of their parent, as `AcceptBlock` checks, the
time that comes is not below the old median, whatever the others are : the median never goes back
(`getMedianTimePast_pairwise`).
-/

namespace Ticoin.CBlockIndex

/-- Each block but the first has a time after the median of its parent. -/
def TimesAfterMedian : CBlockIndex → Prop
  | root _ => True
  | child p e => p.getMedianTimePast < (child p e).getBlockTime ∧ p.TimesAfterMedian

theorem length_lastTimes : ∀ (n : ℕ) (b : CBlockIndex), (b.lastTimes n).length = min n (b.nHeight + 1)
  | 0, _ => by rw [lastTimes, List.length_nil, Nat.zero_min]
  | n + 1, root e => by
    rw [lastTimes, List.length_singleton, nHeight]
    omega
  | n + 1, child p e => by
    rw [lastTimes, List.length_cons, length_lastTimes n p, nHeight]
    omega

/-- Fewer times are the later ones. -/
theorem lastTimes_sublist : ∀ (n : ℕ) (b : CBlockIndex),
    (b.lastTimes n).Sublist (b.lastTimes (n + 1))
  | 0, _ => List.nil_sublist _
  | _ + 1, root _ => List.Sublist.refl _
  | n + 1, child p _ => (lastTimes_sublist n p).cons_cons _

/-- The median is the element in the middle of the sorted times. -/
theorem getMedianTimePast_eq (b : CBlockIndex) :
    ∃ hi : min nMedianTimeSpan (b.nHeight + 1) / 2 <
        ((b.lastTimes nMedianTimeSpan).insertionSort (· ≤ ·)).length,
      b.getMedianTimePast = ((b.lastTimes nMedianTimeSpan).insertionSort (· ≤ ·))[
        min nMedianTimeSpan (b.nHeight + 1) / 2] := by
  have hi : min nMedianTimeSpan (b.nHeight + 1) / 2 <
      ((b.lastTimes nMedianTimeSpan).insertionSort (· ≤ ·)).length := by
    rw [List.length_insertionSort, length_lastTimes]
    have hpos : 0 < nMedianTimeSpan := by decide
    omega
  refine ⟨hi, ?_⟩
  rw [getMedianTimePast, List.mergeSort_eq_insertionSort, List.length_insertionSort,
    length_lastTimes, List.getD_eq_getElem]

/-- One block does not take the median back. -/
theorem getMedianTimePast_le_child {p : CBlockIndex} {e : BlockIndexEntry}
    (h : p.getMedianTimePast < (child p e).getBlockTime) :
    p.getMedianTimePast ≤ (child p e).getMedianTimePast := by
  obtain ⟨hi, hp⟩ := p.getMedianTimePast_eq
  obtain ⟨hj, hchild⟩ := (child p e).getMedianTimePast_eq
  rw [hp] at h ⊢
  rw [hchild]
  refine OrderStatistics.getElem_insertionSort_le_cons _ hi (lastTimes_sublist _ p) h.le ?_ hj
  rw [nHeight]
  omega

theorem TimesAfterMedian.le {a : CBlockIndex} : ∀ {b : CBlockIndex}, b.TimesAfterMedian →
    a ∈ b.path → a.getMedianTimePast ≤ b.getMedianTimePast
  | root _, _, ha => by rw [List.mem_singleton.mp ha]
  | child _ _, h, ha => by
    rcases mem_path_child.mp ha with ha | rfl
    · exact (TimesAfterMedian.le h.2 ha).trans (getMedianTimePast_le_child h.1)
    · exact le_rfl

/-- Along a chain whose blocks have times after the median of their parent, the median does not go
back. -/
theorem getMedianTimePast_pairwise : ∀ {b : CBlockIndex}, b.TimesAfterMedian →
    b.path.Pairwise fun a a' => a.getMedianTimePast ≤ a'.getMedianTimePast
  | root _, _ => List.pairwise_singleton _ _
  | child p e, h => by
    rw [path, List.pairwise_append]
    refine ⟨getMedianTimePast_pairwise h.2, List.pairwise_singleton _ _, fun a ha a' ha' => ?_⟩
    rw [List.mem_singleton.mp ha']
    exact (h.2.le ha).trans (getMedianTimePast_le_child h.1)

/-- A block whose time is after that of the genesis it is on. -/
def timedChild : CBlockIndex :=
  child ChainState.sampleGenesis { ChainState.sampleEntry 1 with nTime := 5 }

theorem getMedianTimePast_pairwise_sample : timedChild.TimesAfterMedian ∧
    timedChild.path.Pairwise fun a a' => a.getMedianTimePast ≤ a'.getMedianTimePast := by
  have h : timedChild.TimesAfterMedian := by
    refine ⟨?_, trivial⟩
    rw [ChainState.sampleGenesis, getMedianTimePast, nMedianTimeSpan, lastTimes,
      List.mergeSort_singleton]
    decide
  exact ⟨h, getMedianTimePast_pairwise h⟩

/-- The chains of accepted headers are such. -/
theorem timesAfterMedian_of_validHeaders {params : ChainParams} {b : CBlockIndex}
    (h : ValidHeaders params b) : b.TimesAfterMedian := by
  induction h with
  | root => trivial
  | child _ _ _ time ih => exact ⟨time, ih⟩

end Ticoin.CBlockIndex
