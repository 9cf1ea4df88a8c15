import Mathlib.Algebra.Order.Field.Basic
import Mathlib.Tactic.Linarith
import Mathlib.Tactic.Positivity
import Ticoin.CompactTarget

/-!
# ComputeMinWork and the retargets of a chain

`ProcessBlock` bounds the target of a block that is not on the tip by the time elapsed since
the last checkpoint : a factor of four for each started period of four timespans. The
targets of a chain follow from `GetNextWorkRequired`, which counts blocks. A retarget
multiplies the target by the time its interval took, and that time may lie before the block
the bound starts from, or be written into timestamps that later blocks need not exceed.

`easing` is the product of the factors of the retargets on the way from one block to
another. Wherever it is covered by the elapsed time the target is within the bound
(`ValidHeaders.target_le_minWork`). In `slowChain` the last block of a slow interval is
followed by a block with the same time, and the bound fails there.
-/

namespace Ticoin

/-! ## Chains of headers -/

/-- `CBlockIndex::GetBlockHeader`. -/
def CBlockIndex.getBlockHeader (pindex : CBlockIndex) : CBlockHeader := {
  nVersion := pindex.entry.nVersion
  hashPrevBlock := (pindex.pprev.bind (·.entry.phashBlock)).getD 0
  hashMerkleRoot := pindex.entry.hashMerkleRoot
  nTime := pindex.entry.nTime
  nBits := pindex.entry.nBits
  nNonce := pindex.entry.nNonce }

/-- The target of an entry. -/
def CBlockIndex.target (pindex : CBlockIndex) : ℤ := setCompact pindex.entry.nBits

/-- The range that `CheckProofOfWork` asks of a target. -/
def TargetInRange (params : ChainParams) (pindex : CBlockIndex) : Prop :=
  0 < pindex.target ∧ pindex.target ≤ params.bnProofOfWorkLimit

instance (params : ChainParams) (pindex : CBlockIndex) : Decidable (TargetInRange params pindex) :=
  inferInstanceAs (Decidable (_ ∧ _))

/-- Chains whose headers have the required targets, and times above the median. -/
inductive ValidHeaders (params : ChainParams) : CBlockIndex → Prop
  | root {e : BlockIndexEntry} (range : TargetInRange params (.root e)) :
      ValidHeaders params (.root e)
  | child {p : CBlockIndex} {e : BlockIndexEntry} (prev : ValidHeaders params p)
      (range : TargetInRange params (.child p e))
      (work : getNextWorkRequired params p (CBlockIndex.child p e).getBlockHeader = some e.nBits)
      (time : p.getMedianTimePast < (CBlockIndex.child p e).getBlockTime) :
      ValidHeaders params (.child p e)

/-- A block that the testnet allows at the limit because it comes late. -/
def CBlockIndex.IsMinDifficulty (params : ChainParams) : CBlockIndex → Prop
  | .root _ => False
  | .child p e => params.testNet ∧ (p.nHeight + 1) % nInterval ≠ 0 ∧
      (CBlockIndex.child p e).getBlockTime > p.getBlockTime + nTargetSpacing * 2

/-- The time that counts for a retarget above an entry. -/
def CBlockIndex.actualTimespan (pindexLast : CBlockIndex) : ℤ :=
  limitTimespan (pindexLast.getBlockTime -
    ((pindexLast.goBack (nInterval - 1)).getD pindexLast).getBlockTime)

/-- What the retargets above `B` multiply the target by. -/
def easing (B : CBlockIndex) : CBlockIndex → ℚ
  | .root _ => 1
  | .child p e =>
    if CBlockIndex.child p e = B then 1
    else if (p.nHeight + 1) % nInterval = 0 then easing B p * (p.actualTimespan / nTargetTimespan)
    else easing B p

/-- The periods of four timespans that have started. -/
def periods (nTime : ℤ) : ℕ := ((nTime + (nTargetTimespan * 4 - 1)) / (nTargetTimespan * 4)).toNat

/-- The time from `B` to `C` covers the retargets between them, or it allows the limit. On
the testnet no retarget is from a block at minimum difficulty, and `C` is not one. -/
def WorkCovered (params : ChainParams) (B C : CBlockIndex) : Prop :=
  let nTime := C.getBlockTime - B.getBlockTime
  setCompact (getCompact params.bnProofOfWorkLimit) ≤ B.target * 4 ^ periods nTime ∨
  (params.testNet = true ∧ nTime > nTargetSpacing * 2) ∨
  (easing B C ≤ 4 ^ periods nTime ∧
    ∀ X ∈ C.path, B.nHeight < X.nHeight → X = C ∨ (X.nHeight + 1) % nInterval = 0 →
      ¬X.IsMinDifficulty params)

/-! ## The bound of the code -/

theorem periods_sub {nTime : ℤ} (h : 0 < nTime) :
    periods nTime = periods (nTime - nTargetTimespan * 4) + 1 := by
  simp only [periods, nTargetTimespan]
  omega

theorem periods_of_nonpos {nTime : ℤ} (h : nTime ≤ 0) : periods nTime = 0 := by
  simp only [periods, nTargetTimespan]
  omega

/-- The loop reaches the limit, or four times the target for each period. -/
theorem le_easeTarget (bnLimit bnResult nTime : ℤ) :
    min bnLimit (bnResult * 4 ^ periods nTime) ≤ easeTarget bnLimit bnResult nTime := by
  induction bnResult, nTime using easeTarget.induct bnLimit with
  | case1 bnResult nTime h ih =>
    rw [easeTarget, if_pos h]
    rwa [periods_sub h.1, pow_succ', ← mul_assoc]
  | case2 bnResult nTime h =>
    rw [easeTarget, if_neg h]
    rcases not_and_or.mp h with htime | hlimit
    · rw [periods_of_nonpos (not_lt.mp htime), pow_zero, mul_one]
      exact min_le_right _ _
    · exact (min_le_left _ _).trans (not_lt.mp hlimit)

/-- What is read back of a number is above every target below the number. -/
theorem le_of_compact {c : UInt32} {n : ℤ} (hc : 0 < setCompact c) (hle : setCompact c ≤ n)
    (hn : n < 2 ^ 256) : setCompact c ≤ setCompact (getCompact n) := by
  obtain ⟨k, rfl⟩ := Int.eq_ofNat_of_zero_le (hc.le.trans hle)
  exact (compact_setCompact hc.le).le_setCompact_getCompact hle (size_le_of_lt (by exact_mod_cast hn))

section Bound

variable {params : ChainParams} (hlim : params.bnProofOfWorkLimit < 2 ^ 256) {B C : CBlockIndex}
include hlim

theorem le_computeMinWork {nTime : ℤ} (hC : TargetInRange params C)
    (hle : C.target ≤ B.target * 4 ^ periods nTime) :
    C.target ≤ setCompact (computeMinWork params B.entry.nBits nTime) := by
  have hease := le_easeTarget params.bnProofOfWorkLimit B.target nTime
  rw [computeMinWork]
  split
  · exact le_of_compact hC.1 hC.2 hlim
  · dsimp only
    have hmin : C.target ≤ easeTarget params.bnProofOfWorkLimit B.target nTime :=
      (le_min hC.2 hle).trans hease
    split
    · exact le_of_compact hC.1 hC.2 hlim
    · rename_i hgt
      exact le_of_compact hC.1 hmin ((not_lt.mp hgt).trans_lt hlim)

end Bound

/-! ## Retargets on the way -/

theorem ValidHeaders.targetInRange {params : ChainParams} {p : CBlockIndex} :
    ValidHeaders params p → TargetInRange params p
  | .root range => range
  | .child _ range _ _ => range

theorem ValidHeaders.of_mem_path {params : ChainParams} {B C : CBlockIndex}
    (h : ValidHeaders params C) (hmem : B ∈ C.path) : ValidHeaders params B := by
  induction h with
  | root range =>
    rw [CBlockIndex.path, List.mem_singleton] at hmem
    exact hmem ▸ .root range
  | child prev range work time ih =>
    rcases CBlockIndex.mem_path_child.mp hmem with hmem | rfl
    · exact ih hmem
    · exact .child prev range work time

theorem limitTimespan_pos (nActualTimespan : ℤ) : 0 < limitTimespan nActualTimespan := by
  simp only [limitTimespan, nTargetTimespan]
  split_ifs <;> omega

/-- A retarget multiplies by at most the time the interval took. -/
theorem setCompact_retarget_le {params : ChainParams} (hlim : params.bnProofOfWorkLimit < 2 ^ 256)
    (hpos : 0 ≤ params.bnProofOfWorkLimit) {nBits : UInt32} (hbits : 0 ≤ setCompact nBits)
    (nActualTimespan : ℤ) :
    (setCompact (retarget params nBits nActualTimespan) : ℚ) ≤
      setCompact nBits * (limitTimespan nActualTimespan / nTargetTimespan) := by
  have hT : (0 : ℤ) < nTargetTimespan := by decide
  have hspan := limitTimespan_pos nActualTimespan
  rw [retarget]
  generalize limitTimespan nActualTimespan = span at hspan
  have hmul : 0 ≤ setCompact nBits * span := mul_nonneg hbits hspan.le
  rw [Int.tdiv_eq_ediv_of_nonneg hmul]
  generalize hq : setCompact nBits * span / nTargetTimespan = q
  have hq0 : 0 ≤ q := hq ▸ Int.ediv_nonneg hmul hT.le
  have hround : setCompact (getCompact (if q > params.bnProofOfWorkLimit then
      params.bnProofOfWorkLimit else q)) ≤ q := by
    have hle : (if q > params.bnProofOfWorkLimit then params.bnProofOfWorkLimit else q) ≤ q := by
      split <;> omega
    refine le_trans ?_ hle
    have hlt : (if q > params.bnProofOfWorkLimit then params.bnProofOfWorkLimit else q) < 2 ^ 256 := by
      split <;> omega
    obtain ⟨n, hn⟩ := Int.eq_ofNat_of_zero_le
      (show 0 ≤ if q > params.bnProofOfWorkLimit then params.bnProofOfWorkLimit else q by
        split <;> omega)
    rw [hn] at hlt ⊢
    exact setCompact_getCompact_le (size_le_of_lt (by exact_mod_cast hlt))
  have hfloor : q * nTargetTimespan ≤ setCompact nBits * span := hq ▸ Int.ediv_mul_le _ hT.ne'
  calc (setCompact (getCompact (if q > params.bnProofOfWorkLimit then
        params.bnProofOfWorkLimit else q)) : ℚ)
      ≤ q := by exact_mod_cast hround
    _ ≤ setCompact nBits * span / nTargetTimespan := by
      rw [le_div_iff₀ (by exact_mod_cast hT)]
      exact_mod_cast hfloor
    _ = setCompact nBits * (span / nTargetTimespan) := mul_div_assoc ..

theorem easing_self (B : CBlockIndex) : easing B B = 1 := by
  cases B with
  | root e => rfl
  | child p e => rw [easing, if_pos rfl]

/-- The target above an entry, at the start of an interval. -/
theorem getNextWorkRequired_retarget {params : ChainParams} {p : CBlockIndex}
    {block : CBlockHeader} {nBits : UInt32} (hint : (p.nHeight + 1) % nInterval = 0)
    (h : getNextWorkRequired params p block = some nBits) :
    ∃ nActualTimespan, limitTimespan nActualTimespan = p.actualTimespan ∧
      nBits = retarget params p.entry.nBits nActualTimespan := by
  rw [getNextWorkRequired, if_neg (not_not.mpr hint), Option.map_eq_some_iff] at h
  obtain ⟨pindexFirst, hfirst, hbits⟩ := h
  refine ⟨_, ?_, hbits.symm⟩
  rw [CBlockIndex.actualTimespan, hfirst]
  rfl

/-- The target above an entry, within an interval. -/
theorem getNextWorkRequired_keep {params : ChainParams} {p : CBlockIndex} {e : BlockIndexEntry}
    (hint : (p.nHeight + 1) % nInterval ≠ 0)
    (h : getNextWorkRequired params p (CBlockIndex.child p e).getBlockHeader = some e.nBits) :
    ((CBlockIndex.child p e).IsMinDifficulty params ∧
        e.nBits = getCompact params.bnProofOfWorkLimit) ∨
      (params.testNet = true ∧
        e.nBits = (p.lastNonSpecial (getCompact params.bnProofOfWorkLimit)).entry.nBits) ∨
      (params.testNet = false ∧ e.nBits = p.entry.nBits) := by
  rw [getNextWorkRequired, if_pos hint] at h
  split at h
  · rename_i htest
    split at h
    · rename_i hlate
      exact .inl ⟨⟨htest, hint, hlate⟩, (Option.some.inj h).symm⟩
    · exact .inr (.inl ⟨htest, (Option.some.inj h).symm⟩)
  · rename_i htest
    exact .inr (.inr ⟨Bool.eq_false_iff.mpr htest, (Option.some.inj h).symm⟩)

theorem CBlockIndex.IsMinDifficulty.testNet {params : ChainParams} {p : CBlockIndex}
    (h : p.IsMinDifficulty params) : params.testNet = true := by
  cases p with
  | root e => exact h.elim
  | child p e => exact h.1

section Invariant

variable {params : ChainParams} (hlim : params.bnProofOfWorkLimit < 2 ^ 256) {B : CBlockIndex}
  (hB : B.entry.nBits ≠ getCompact params.bnProofOfWorkLimit)
include hlim hB

/-- The target stays within the product of the factors, but for blocks at minimum
difficulty, and so does the last target that is not special. -/
theorem ValidHeaders.target_le_easing {C : CBlockIndex} (h : ValidHeaders params C)
    (hmem : B ∈ C.path) (hlast : ∀ X ∈ C.path, B.nHeight < X.nHeight → X ≠ C →
      (X.nHeight + 1) % nInterval = 0 → ¬X.IsMinDifficulty params) :
    ((B ≠ C ∧ C.IsMinDifficulty params) ∨ (C.target : ℚ) ≤ B.target * easing B C) ∧
      ((C.lastNonSpecial (getCompact params.bnProofOfWorkLimit)).target : ℚ) ≤
        B.target * easing B C := by
  induction h with
  | @root e range =>
    rw [CBlockIndex.path, List.mem_singleton] at hmem
    subst hmem
    simp [easing, CBlockIndex.lastNonSpecial]
  | @child p e prev range work time ih =>
    by_cases hBC : B = .child p e
    · subst hBC
      have hspecial : (CBlockIndex.child p e).lastNonSpecial
          (getCompact params.bnProofOfWorkLimit) = .child p e := by
        rw [CBlockIndex.lastNonSpecial, if_neg fun h => hB h.2]
      simp [easing_self, hspecial]
    have hmemp : B ∈ p.path := (CBlockIndex.mem_path_child.mp hmem).resolve_right hBC
    have hBp : B.nHeight ≤ p.nHeight := CBlockIndex.nHeight_le_of_mem hmemp
    have hne : ∀ X ∈ p.path, X ≠ .child p e := by
      rintro X hX rfl
      have := CBlockIndex.nHeight_le_of_mem hX
      exact absurd this (Nat.not_succ_le_self _)
    obtain ⟨htarget, hspecial⟩ := ih hmemp fun X hX hlt _ hlast' =>
      hlast X (CBlockIndex.mem_path_child.mpr (.inl hX)) hlt (hne X hX) hlast'
    rw [easing, if_neg (Ne.symm hBC)]
    by_cases hint : (p.nHeight + 1) % nInterval = 0
    · -- a retarget, from a block that is not at minimum difficulty
      have hp : (p.target : ℚ) ≤ B.target * easing B p := by
        refine htarget.resolve_left fun hmin => ?_
        have hlt : B.nHeight < p.nHeight := by
          refine lt_of_le_of_ne hBp fun heq => hmin.1 ?_
          exact CBlockIndex.eq_of_mem_path hmemp (CBlockIndex.mem_path_self p) heq
        exact hlast p (CBlockIndex.mem_path_child.mpr (.inl (CBlockIndex.mem_path_self p))) hlt
          (hne p (CBlockIndex.mem_path_self p)) hint hmin.2
      obtain ⟨nActualTimespan, hspan, hbits⟩ := getNextWorkRequired_retarget hint work
      have hchild : ((CBlockIndex.child p e).target : ℚ) ≤
          B.target * (easing B p * (p.actualTimespan / nTargetTimespan)) := by
        have hfactor : (0 : ℚ) ≤ p.actualTimespan / nTargetTimespan := by
          rw [← hspan]
          exact div_nonneg (by exact_mod_cast (limitTimespan_pos _).le) (by norm_num [nTargetTimespan])
        calc ((CBlockIndex.child p e).target : ℚ)
            = setCompact (retarget params p.entry.nBits nActualTimespan) := by rw [← hbits]; rfl
          _ ≤ p.target * (p.actualTimespan / nTargetTimespan) := by
            rw [← hspan]
            exact setCompact_retarget_le hlim (range.1.le.trans range.2)
              prev.targetInRange.1.le nActualTimespan
          _ ≤ B.target * easing B p * (p.actualTimespan / nTargetTimespan) :=
            mul_le_mul_of_nonneg_right hp hfactor
          _ = _ := mul_assoc ..
      rw [if_pos hint, CBlockIndex.lastNonSpecial, if_neg fun h => h.1 hint]
      exact ⟨.inr hchild, hchild⟩
    · -- within an interval the target is that of an entry below, or special
      have hchild : ((CBlockIndex.child p e).IsMinDifficulty params ∧
          e.nBits = getCompact params.bnProofOfWorkLimit) ∨
          ((CBlockIndex.child p e).target : ℚ) ≤ B.target * easing B p := by
        refine (getNextWorkRequired_keep hint work).imp_right ?_
        rintro (⟨-, hbits⟩ | ⟨htest, hbits⟩)
        · rwa [CBlockIndex.target, CBlockIndex.entry, hbits]
        · rw [CBlockIndex.target, CBlockIndex.entry, hbits]
          refine htarget.resolve_left fun hmin => ?_
          have := hmin.2.testNet
          rw [htest] at this
          exact Bool.false_ne_true this
      rw [if_neg hint]
      refine ⟨hchild.imp_left fun hmin => ⟨hBC, hmin.1⟩, ?_⟩
      rw [CBlockIndex.lastNonSpecial]
      split
      · exact hspecial
      · rename_i hnot
        exact hchild.resolve_left fun hmin => hnot ⟨hint, hmin.2⟩

end Invariant

/-- `chainparams.cpp` : the limits fit in 256 bits. -/
theorem bnProofOfWorkLimit_lt (network : Network) :
    (chainParams network).bnProofOfWorkLimit < 2 ^ 256 := by
  cases network <;> decide

/-! ## A slow interval after a fast one -/

/-- A first interval with a block each 15 seconds, then one with a block each four minutes. -/
def slowTime (n : ℕ) : ℕ :=
  if n ≤ nInterval then 1200362545 + 15 * n
  else 1200362545 + 15 * nInterval + 240 * (n - nInterval)

/-- The second interval has a quarter of the target of the first. -/
def slowBits (n : ℕ) : UInt32 := if n < nInterval then 0x1d00ffff else 0x1c3fffc0

/-- An entry with a time and a target. -/
def headerEntry (nTime nBits : UInt32) : BlockIndexEntry := {
  address := 0, phashBlock := none, nVersion := 2, hashMerkleRoot := 0, nTime := nTime
  nBits := nBits, nNonce := 0, nTx := 1, nSequenceId := 0 }

def slowChain : ℕ → CBlockIndex
  | 0 => .root (headerEntry (.ofNat (slowTime 0)) (slowBits 0))
  | n + 1 => .child (slowChain n) (headerEntry (.ofNat (slowTime (n + 1))) (slowBits (n + 1)))

theorem slowChain_nHeight : ∀ n, (slowChain n).nHeight = n
  | 0 => rfl
  | n + 1 => by rw [slowChain, CBlockIndex.nHeight, slowChain_nHeight n]

theorem slowChain_nBits (n : ℕ) : (slowChain n).entry.nBits = slowBits n := by cases n <;> rfl

theorem nInterval_eq : nInterval = 20160 := rfl

theorem slowTime_lt {n : ℕ} (h : n < 2 * nInterval) : slowTime n < slowTime (n + 1) ∧
    slowTime n < 2 ^ 32 := by
  have := nInterval_eq
  simp only [slowTime]
  split_ifs <;> omega

theorem slowChain_getBlockTime {n : ℕ} (h : n < 2 * nInterval) :
    (slowChain n).getBlockTime = slowTime n := by
  have hnat : (UInt32.ofNat (slowTime n)).toNat = slowTime n := by
    rw [UInt32.toNat_ofNat', Nat.mod_eq_of_lt (slowTime_lt h).2]
  cases n <;> exact congrArg Nat.cast hnat

theorem slowChain_goBack (n : ℕ) : ∀ k, (slowChain (n + k)).goBack k = some (slowChain n)
  | 0 => rfl
  | k + 1 => by rw [← add_assoc, slowChain, CBlockIndex.goBack, slowChain_goBack n k]

theorem slowChain_lastTimes : ∀ (k n : ℕ), n < 2 * nInterval →
    (slowChain n).lastTimes k = (List.range (min k (n + 1))).map fun i => (slowTime (n - i) : ℤ)
  | 0, n, _ => by simp [CBlockIndex.lastTimes]
  | k + 1, 0, h => by
    have htime := slowChain_getBlockTime h
    rw [slowChain] at htime ⊢
    rw [CBlockIndex.lastTimes, htime, zero_add, Nat.min_eq_right (by omega)]
    rfl
  | k + 1, n + 1, h => by
    have htime := slowChain_getBlockTime h
    rw [slowChain] at htime ⊢
    rw [CBlockIndex.lastTimes, htime, slowChain_lastTimes k n (by omega),
      Nat.add_min_add_right, List.range_succ_eq_map, List.map_cons, List.map_map]
    congr 2
    funext i
    simp

theorem slowTime_mono {m n : ℕ} (hmn : m ≤ n) (h : n < 2 * nInterval) :
    slowTime m ≤ slowTime n := by
  have := nInterval_eq
  simp only [slowTime]
  split_ifs <;> omega

/-- The median of the last times is not above the last of them. -/
theorem slowChain_median_le {n : ℕ} (h : n < 2 * nInterval) :
    (slowChain n).getMedianTimePast ≤ slowTime n := by
  rw [CBlockIndex.getMedianTimePast, slowChain_lastTimes _ _ h]
  generalize hl : ((List.range (min nMedianTimeSpan (n + 1))).map fun i =>
    (slowTime (n - i) : ℤ)) = l
  rw [List.getD_eq_getElem?_getD]
  cases hget : (l.mergeSort (· ≤ ·))[(l.mergeSort (· ≤ ·)).length / 2]? with
  | none => exact Int.natCast_nonneg _
  | some x =>
    have hx := List.mem_mergeSort.mp (List.mem_of_getElem? hget)
    rw [← hl, List.mem_map] at hx
    obtain ⟨i, -, rfl⟩ := hx
    exact Int.ofNat_le.mpr (slowTime_mono (Nat.sub_le n i) h)

theorem slowChain_median : (slowChain 40319).getMedianTimePast = slowTime 40314 := by
  rw [CBlockIndex.getMedianTimePast, slowChain_lastTimes _ _ (by decide),
    List.mergeSort_eq_insertionSort]
  decide

/-- Every header of the chain is valid. -/
theorem slowChain_valid : ∀ n, n < 2 * nInterval → ValidHeaders (chainParams .main) (slowChain n)
  | 0, _ => .root (by decide)
  | n + 1, h => by
    have hn : n < 2 * nInterval := by omega
    have hint := nInterval_eq
    refine .child (slowChain_valid n hn) ?_ ?_ ?_
    · have hrange : ∀ b : UInt32, b = 0x1d00ffff ∨ b = 0x1c3fffc0 →
          0 < setCompact b ∧ setCompact b ≤ (chainParams .main).bnProofOfWorkLimit := by
        rintro b (rfl | rfl) <;> decide
      refine hrange _ ?_
      show slowBits (n + 1) = _ ∨ slowBits (n + 1) = _
      rw [slowBits]
      split <;> simp
    · show _ = some (slowBits (n + 1))
      rw [getNextWorkRequired, slowChain_nHeight]
      split
      · rename_i hkeep
        have hbits : slowBits (n + 1) = slowBits n := by
          have hne : n + 1 ≠ nInterval := by
            rintro heq
            exact hkeep (heq ▸ Nat.mod_self _)
          rw [slowBits, slowBits]
          congr 1
          exact propext ⟨fun _ => by omega, fun _ => by omega⟩
        rw [if_neg (by decide), slowChain_nBits, hbits]
      · rename_i hre
        have hmod : (n + 1) % 20160 = 0 := not_not.mp hre
        have heq : n = nInterval - 1 := by omega
        have hback := slowChain_goBack 0 (nInterval - 1)
        rw [Nat.zero_add] at hback
        rw [heq, hback, Option.map_some, slowChain_getBlockTime (by omega),
          slowChain_getBlockTime (by omega), slowChain_nBits]
        decide
    · have htime := slowChain_getBlockTime h
      rw [slowChain] at htime
      rw [htime]
      exact (slowChain_median_le hn).trans_lt (by exact_mod_cast (slowTime_lt hn).1)

/-- The block after the slow interval, with the time of its last block. -/
def easedBlock : CBlockIndex :=
  .child (slowChain 40319) (headerEntry (.ofNat (slowTime 40319)) 0x1d00fffb)

theorem easedBlock_valid : ValidHeaders (chainParams .main) easedBlock := by
  have htime : easedBlock.getBlockTime = slowTime 40319 := by decide
  refine .child (slowChain_valid _ (by decide)) (by decide) ?_ ?_
  · have hback := slowChain_goBack 20160 (nInterval - 1)
    rw [show 20160 + (nInterval - 1) = 40319 from rfl] at hback
    rw [getNextWorkRequired, slowChain_nHeight, if_neg (by decide), hback, Option.map_some,
      slowChain_getBlockTime (by decide), slowChain_getBlockTime (by decide), slowChain_nBits]
    decide
  · rw [slowChain_median]
    exact htime ▸ (by decide : (slowTime 40314 : ℤ) < slowTime 40319)

/-! ## The bound on valid chains -/

/-- Where the elapsed time covers the retargets, the target of a valid chain is within the
bound of `ComputeMinWork`. -/
theorem ValidHeaders.target_le_minWork {network : Network} {B C : CBlockIndex}
    (h : ValidHeaders (chainParams network) C) (hmem : B ∈ C.path)
    (hcover : WorkCovered (chainParams network) B C) :
    C.target ≤ setCompact (computeMinWork (chainParams network) B.entry.nBits
      (C.getBlockTime - B.getBlockTime)) := by
  have hlim := bnProofOfWorkLimit_lt network
  generalize chainParams network = params at h hcover hlim ⊢
  have hC := h.targetInRange
  rcases hcover with hlimit | hlate | ⟨hease, hspecial⟩
  · exact le_computeMinWork hlim hC ((le_of_compact hC.1 hC.2 hlim).trans hlimit)
  · rw [computeMinWork, if_pos hlate]
    exact le_of_compact hC.1 hC.2 hlim
  have hBpos : 0 < B.target := (h.of_mem_path hmem).targetInRange.1
  by_cases hB : B.entry.nBits = getCompact params.bnProofOfWorkLimit
  · -- a block at the limit : no target is above its own
    refine le_computeMinWork hlim hC ((le_of_compact hC.1 hC.2 hlim).trans ?_)
    rw [← hB]
    exact le_mul_of_one_le_right hBpos.le (one_le_pow₀ (by decide))
  · refine le_computeMinWork hlim hC ?_
    have htarget : (C.target : ℚ) ≤ B.target * easing B C := by
      have hinv := (h.target_le_easing hlim hB hmem fun X hX hlt _ hlast =>
        hspecial X hX hlt (.inr hlast)).1
      refine hinv.resolve_left fun hmin => ?_
      have hle := CBlockIndex.nHeight_le_of_mem hmem
      have hlt : B.nHeight < C.nHeight := lt_of_le_of_ne hle fun heq =>
        hmin.1 (CBlockIndex.eq_of_mem_path hmem (CBlockIndex.mem_path_self C) heq)
      exact hspecial C (CBlockIndex.mem_path_self C) hlt (.inl rfl) hmin.2
    have hcast : (C.target : ℚ) ≤ B.target * 4 ^ periods (C.getBlockTime - B.getBlockTime) :=
      htarget.trans (mul_le_mul_of_nonneg_left hease (by exact_mod_cast hBpos.le))
    exact_mod_cast hcast

/-- The first retarget of the chain lowers the target, within the bound. -/
theorem slowChain_within_minWork :
    (slowChain 20160).target ≤ setCompact (computeMinWork (chainParams .main)
      (slowChain 20159).entry.nBits
      ((slowChain 20160).getBlockTime - (slowChain 20159).getBlockTime)) := by
  have hmem : slowChain 20159 ∈ (slowChain 20160).path :=
    CBlockIndex.mem_path_child.mpr (.inl (CBlockIndex.mem_path_self _))
  refine ValidHeaders.target_le_minWork (slowChain_valid _ (by decide)) hmem (.inr (.inr ⟨?_, ?_⟩))
  · have hne : slowChain 20160 ≠ slowChain 20159 := by
      intro heq
      have := congrArg CBlockIndex.nHeight heq
      rw [slowChain_nHeight, slowChain_nHeight] at this
      omega
    have hback := slowChain_goBack 0 (nInterval - 1)
    rw [Nat.zero_add, show nInterval - 1 = 20159 from rfl] at hback
    have hspan : (slowChain 20159).actualTimespan = 302400 := by
      rw [CBlockIndex.actualTimespan, show nInterval - 1 = 20159 from rfl, hback, Option.getD_some,
        slowChain_getBlockTime (by decide), slowChain_getBlockTime (by decide)]
      decide
    have hease : easing (slowChain 20159) (slowChain 20160) = 1 / 4 := by
      have hsucc : slowChain 20160 =
          .child (slowChain 20159) (headerEntry (.ofNat (slowTime 20160)) (slowBits 20160)) := rfl
      rw [hsucc] at hne ⊢
      rw [easing, if_neg hne, slowChain_nHeight, if_pos (by decide), easing_self, hspan]
      norm_num [nTargetTimespan]
    rw [hease]
    exact le_trans (by norm_num) (one_le_pow₀ (by norm_num))
  · intro X _ _ _ hmin
    exact absurd hmin.testNet (by decide)

/-- A retarget right after a slow interval raises the target without any time to show for. -/
theorem easedBlock_exceeds_minWork :
    ¬∀ (network : Network) (B C : CBlockIndex), ValidHeaders (chainParams network) C →
      B ∈ C.path → B.getBlockTime ≤ C.getBlockTime →
      C.target ≤ setCompact (computeMinWork (chainParams network) B.entry.nBits
        (C.getBlockTime - B.getBlockTime)) := by
  intro h
  have htime : easedBlock.getBlockTime = slowTime 40319 := by decide
  have hB := slowChain_getBlockTime (show 40319 < 2 * nInterval by decide)
  have hle := h .main (slowChain 40319) easedBlock easedBlock_valid
    (CBlockIndex.mem_path_child.mpr (.inl (CBlockIndex.mem_path_self _))) (by rw [hB, htime])
  rw [hB, htime, sub_self, slowChain_nBits, computeMinWork, easeTarget] at hle
  revert hle
  decide +kernel

end Ticoin
