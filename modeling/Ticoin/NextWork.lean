import Ticoin.MinWork

/-!
# GetNextWorkRequired : bounds of a retarget

A retarget multiplies the target by the time of the interval, which is limited to a quarter and to
four times the timespan wanted, and divides by that timespan, down to an integer. What is written of
the quotient is less by the bytes that the compact form leaves out, under one part in `2 ^ 15`
(`setCompact_getCompact_rounds`). Above the least targets the two roundings together are still under
that part of a quarter (`getNextWorkRequired_bounds`) ; in `flatChain` the integer division alone is
more.
-/

namespace Ticoin

/-- The walk back stays on the chain. -/
theorem CBlockIndex.exists_goBack : ∀ {n : ℕ} {b : CBlockIndex}, n ≤ b.nHeight →
    ∃ a, b.goBack n = some a
  | 0, b, _ => ⟨b, by cases b <;> rfl⟩
  | n + 1, .root _, h => absurd h (Nat.not_succ_le_zero n)
  | n + 1, .child p _, h => by
    rw [goBack]
    exact exists_goBack (Nat.le_of_succ_le_succ h)

theorem limitTimespan_bounds (nActualTimespan : ℤ) :
    nTargetTimespan ≤ 4 * limitTimespan nActualTimespan ∧
      limitTimespan nActualTimespan ≤ 4 * nTargetTimespan := by
  simp only [limitTimespan, nTargetTimespan]
  split_ifs <;> omega

/-- What a retarget writes : a number between the integer part of a quarter and four times the target,
and not above the limit. -/
theorem exists_retarget_eq {params : ChainParams} {nBits : UInt32} (hpos : 0 < setCompact nBits)
    (hle : setCompact nBits ≤ params.bnProofOfWorkLimit) (nActualTimespan : ℤ) :
    ∃ n : ℕ, retarget params nBits nActualTimespan = getCompact n ∧ setCompact nBits / 4 ≤ n ∧
      n ≤ 4 * setCompact nBits ∧ n ≤ params.bnProofOfWorkLimit := by
  obtain ⟨hlow, hhigh⟩ := limitTimespan_bounds nActualTimespan
  have hT : (0 : ℤ) < nTargetTimespan := by decide
  rw [retarget]
  generalize limitTimespan nActualTimespan = span at hlow hhigh
  generalize setCompact nBits = target at hpos hle ⊢
  have hmul : 0 ≤ target * span := mul_nonneg hpos.le (by omega)
  rw [Int.tdiv_eq_ediv_of_nonneg hmul]
  have hquarter : target / 4 ≤ target * span / nTargetTimespan := by
    rw [Int.le_ediv_iff_mul_le hT]
    calc target / 4 * nTargetTimespan ≤ target / 4 * (4 * span) :=
          mul_le_mul_of_nonneg_left hlow (by omega)
      _ = target / 4 * 4 * span := by rw [mul_assoc]
      _ ≤ target * span := mul_le_mul_of_nonneg_right (by omega) (by omega)
  have hfour : target * span / nTargetTimespan ≤ 4 * target := by
    refine Int.ediv_le_of_le_mul hT ?_
    calc target * span ≤ target * (4 * nTargetTimespan) :=
          mul_le_mul_of_nonneg_left hhigh hpos.le
      _ = 4 * target * nTargetTimespan := by ring
  generalize target * span / nTargetTimespan = bnNew at hquarter hfour
  obtain ⟨n, hn⟩ := Int.eq_ofNat_of_zero_le
    (show 0 ≤ if bnNew > params.bnProofOfWorkLimit then params.bnProofOfWorkLimit else bnNew by
      split <;> omega)
  refine ⟨n, congrArg getCompact hn, ?_⟩
  rw [← hn]
  split <;> omega

/-- The bounds of what is read back. -/
theorem setCompact_retarget_bounds {params : ChainParams}
    (hlim : params.bnProofOfWorkLimit < 2 ^ 256) {nBits : UInt32} (hpos : 0 < setCompact nBits)
    (hle : setCompact nBits ≤ params.bnProofOfWorkLimit) (nActualTimespan : ℤ) :
    let bnNew := setCompact (retarget params nBits nActualTimespan)
    bnNew ≤ 4 * setCompact nBits ∧ bnNew ≤ params.bnProofOfWorkLimit ∧ 0 ≤ bnNew ∧
      setCompact nBits / 4 * (2 ^ 15 - 1) ≤ bnNew * 2 ^ 15 ∧
      (3 * 2 ^ 15 ≤ setCompact nBits ∨ 4 ∣ setCompact nBits →
        setCompact nBits * (2 ^ 15 - 1) < 4 * (bnNew * 2 ^ 15)) ∧
      (4 ≤ setCompact nBits → 0 < bnNew) := by
  obtain ⟨n, hn, hquarter, hfour, hlimit⟩ := exists_retarget_eq hpos hle nActualTimespan
  have hlt := size_le_of_lt (by exact_mod_cast hlimit.trans_lt hlim : n < 2 ^ 256)
  have hread := setCompact_getCompact_le hlt
  have hnonneg := setCompact_getCompact_nonneg hlt
  have hround := setCompact_getCompact_rounds hlt
  rw [hn]
  generalize setCompact (getCompact n) = bnNew at hread hnonneg hround
  generalize setCompact nBits = target at hpos hle hquarter hfour
  refine ⟨hread.trans hfour, hread.trans hlimit, hnonneg, ?_⟩
  rcases hround with rfl | ⟨d, hd, hlow⟩ <;> omega

/-- Outside the testnet the work required of a block on a chain of targets in range is that of its
parent, or at a retarget within these bounds of it. -/
theorem getNextWorkRequired_bounds (network : Network)
    (hnet : (chainParams network).testNet = false) (pindexLast : CBlockIndex)
    (hrange : ∀ a ∈ pindexLast.path, TargetInRange (chainParams network) a) (block : CBlockHeader) :
    ∃ nBits, getNextWorkRequired (chainParams network) pindexLast block = some nBits ∧
      ((pindexLast.nHeight + 1) % nInterval ≠ 0 → nBits = pindexLast.entry.nBits) ∧
      ((pindexLast.nHeight + 1) % nInterval = 0 →
        setCompact nBits ≤ 4 * pindexLast.target ∧
        setCompact nBits ≤ (chainParams network).bnProofOfWorkLimit ∧
        pindexLast.target / 4 * (2 ^ 15 - 1) ≤ setCompact nBits * 2 ^ 15 ∧
        (3 * 2 ^ 15 ≤ pindexLast.target ∨ 4 ∣ pindexLast.target →
          pindexLast.target * (2 ^ 15 - 1) < 4 * (setCompact nBits * 2 ^ 15)) ∧
        (2 ^ 16 ≤ pindexLast.target → 0 < setCompact nBits)) := by
  obtain ⟨hpos, hle⟩ := hrange pindexLast (CBlockIndex.mem_path_self _)
  rw [getNextWorkRequired, hnet]
  by_cases hre : (pindexLast.nHeight + 1) % nInterval = 0
  · rw [if_neg (not_not.mpr hre)]
    -- at a retarget there are as many blocks as the interval
    obtain ⟨pindexFirst, hfirst⟩ := CBlockIndex.exists_goBack (n := nInterval - 1) (b := pindexLast)
      (by
        have hdvd := Nat.le_of_dvd (Nat.succ_pos _) (Nat.dvd_of_mod_eq_zero hre)
        omega)
    obtain ⟨hfour, hlimit, -, hquarter, hexact, hzero⟩ := setCompact_retarget_bounds
      (bnProofOfWorkLimit_lt network) hpos hle (pindexLast.getBlockTime - pindexFirst.getBlockTime)
    rw [hfirst]
    refine ⟨_, rfl, fun h => absurd hre h, fun _ => ⟨hfour, hlimit, hquarter, hexact, fun h => ?_⟩⟩
    exact hzero ((by decide : (4 : ℤ) ≤ 2 ^ 16).trans h)
  · rw [if_pos hre]
    exact ⟨_, rfl, fun _ => rfl, fun h => absurd h hre⟩

/-! ## A quarter that is not an integer -/

/-- Blocks of one time and one target. -/
def flatChain : ℕ → CBlockIndex
  | 0 => .root (headerEntry 0 0x03010003)
  | n + 1 => .child (flatChain n) (headerEntry 0 0x03010003)

theorem flatChain_nHeight : ∀ n, (flatChain n).nHeight = n
  | 0 => rfl
  | n + 1 => by rw [flatChain, CBlockIndex.nHeight, flatChain_nHeight n]

theorem flatChain_entry (n : ℕ) : (flatChain n).entry = headerEntry 0 0x03010003 := by
  cases n <;> rfl

theorem flatChain_range : ∀ n, ∀ a ∈ (flatChain n).path, TargetInRange (chainParams .main) a
  | 0, a, ha => by
    rw [List.mem_singleton.mp ha]
    decide
  | n + 1, a, ha => by
    rcases CBlockIndex.mem_path_child.mp ha with ha | rfl
    · exact flatChain_range n a ha
    · rw [TargetInRange, CBlockIndex.target, CBlockIndex.entry]
      decide

theorem flatChain_goBack : ∀ k, (flatChain k).goBack k = some (flatChain 0)
  | 0 => rfl
  | k + 1 => flatChain_goBack k

theorem getNextWorkRequired_bounds_flat : (chainParams .main).testNet = false ∧
    (∀ a ∈ (flatChain (nInterval - 1)).path, TargetInRange (chainParams .main) a) ∧
    ∃ nBits, getNextWorkRequired (chainParams .main) (flatChain (nInterval - 1))
      (flatChain nInterval).getBlockHeader = some nBits ∧ 0 < setCompact nBits := by
  have hnet : (chainParams .main).testNet = false := by decide
  obtain ⟨nBits, hnext, -, hre⟩ := getNextWorkRequired_bounds .main hnet (flatChain (nInterval - 1))
    (flatChain_range _) (flatChain nInterval).getBlockHeader
  obtain ⟨-, -, -, -, hpos⟩ := hre (by rw [flatChain_nHeight]; decide)
  refine ⟨hnet, flatChain_range _, nBits, hnext, hpos ?_⟩
  rw [CBlockIndex.target, flatChain_entry]
  decide

/-- The target 65539 becomes 16384, which is further from a quarter than the compact form rounds. -/
theorem getNextWorkRequired_below :
    ∃ pindexLast block nBits, (∀ a ∈ pindexLast.path, TargetInRange (chainParams .main) a) ∧
      (pindexLast.nHeight + 1) % nInterval = 0 ∧
      getNextWorkRequired (chainParams .main) pindexLast block = some nBits ∧
      4 * (setCompact nBits * 2 ^ 15) < pindexLast.target * (2 ^ 15 - 1) := by
  refine ⟨flatChain (nInterval - 1), (flatChain nInterval).getBlockHeader, 0x02400000,
    flatChain_range _, ?_, ?_, ?_⟩
  · rw [flatChain_nHeight]
    decide
  · rw [getNextWorkRequired, flatChain_nHeight, if_neg (by decide), flatChain_goBack,
      Option.map_some, CBlockIndex.getBlockTime, CBlockIndex.getBlockTime, flatChain_entry,
      flatChain_entry]
    decide
  · rw [CBlockIndex.target, flatChain_entry]
    decide

end Ticoin
