import Ticoin.ViewRuns

/-!
# The supply of coins

A transaction that is no coinbase makes no more than it spends, and a coinbase makes no more than
the subsidy of its block and the fees of the others. So after any run of connecting and
disconnecting blocks all unspent outputs together are worth no more than the subsidies of the blocks
of the chain, and neither fees nor block values overflow (`supply_of_chain`).

A sum over all unspent outputs is bounded by what bounds it over any finite set of outpoints.
-/

namespace Ticoin

open Codec Outcome

/-! ## What a view holds -/

namespace FlatView

/-- What the output at an outpoint is worth, if it is unspent. -/
def valueAt (view : FlatView) (o : COutPoint) : ℤ :=
  ((view.output o).map fun txout => txout.nValue.toInt).getD 0

/-- Unspent outputs are not negative, and together are worth so much at most. -/
structure Holds (view : FlatView) (total : ℤ) : Prop where
  nonneg : ∀ o, 0 ≤ view.valueAt o
  sum_le : ∀ outs : Finset COutPoint, ∑ o ∈ outs, view.valueAt o ≤ total

variable {view view' : FlatView} {total : ℤ} {tx : CTransaction} {nHeight : ℤ} {txhash : UInt256}

theorem Holds.mono (h : view.Holds total) {total' : ℤ} (hle : total ≤ total') :
    view.Holds total' := ⟨h.nonneg, fun outs => (h.sum_le outs).trans hle⟩

theorem Holds.zero_le (h : view.Holds total) : 0 ≤ total := h.sum_le ∅

/-- The value of the outputs of a transaction. -/
def outputValue (tx : CTransaction) : ℤ := (tx.vout.map fun txout => txout.nValue.toInt).sum

/-- The value of the outputs that a transaction spends. -/
def inputValue (view : FlatView) (tx : CTransaction) : ℤ :=
  ((tx.vin.map CTxIn.prevout).map view.valueAt).sum

theorem valueAt_ofTx_le (htx : CheckedTransaction tx) (n : ℕ) :
    (((CCoins.ofTx tx nHeight).output n).map fun txout => txout.nValue.toInt).getD 0 ≤
      ((tx.vout.map fun txout => txout.nValue.toInt)[n]?).getD 0 ∧
    0 ≤ (((CCoins.ofTx tx nHeight).output n).map fun txout => txout.nValue.toInt).getD 0 := by
  cases hout : (CCoins.ofTx tx nHeight).output n with
  | none =>
    refine ⟨?_, le_rfl⟩
    rw [List.getElem?_map]
    cases hget : tx.vout[n]? with
    | none => exact le_rfl
    | some txout => exact (htx.value txout (List.mem_of_getElem? hget)).1
  | some txout =>
    have hget := CCoins.output_ofTx hout
    rw [List.getElem?_map, hget]
    exact ⟨le_rfl, (htx.value txout (List.mem_of_getElem? hget)).1⟩

/-- New outputs in the place of what was spent. -/
theorem Holds.replace (h : view.Holds total) (htx : CheckedTransaction tx) {spends : List COutPoint}
    (hspends : spends.Nodup)
    (hview : ∀ o, view'.output o = if o.hash = txhash then (CCoins.ofTx tx nHeight).output o.n.toNat
      else if o ∈ spends then none else view.output o) :
    view'.Holds (total - (spends.map view.valueAt).sum + outputValue tx) := by
  have hvalue : ∀ o, view'.valueAt o = if o.hash = txhash then
      (((CCoins.ofTx tx nHeight).output o.n.toNat).map fun txout => txout.nValue.toInt).getD 0
      else if o ∈ spends then 0 else view.valueAt o := by
    intro o
    unfold valueAt
    rw [hview]
    split
    · rfl
    split
    · rfl
    · rfl
  refine ⟨fun o => ?_, fun outs => ?_⟩
  · rw [hvalue]
    split
    · exact (valueAt_ofTx_le htx _).2
    split
    · exact le_rfl
    · exact h.nonneg o
  · have hmade : ∑ o ∈ outs with o.hash = txhash, view'.valueAt o ≤ outputValue tx := by
      refine Ledger.sum_le_of_places (fun o => o.n.toNat) ?_ _ (fun o ho => ?_) fun x hx => ?_
      · rintro ⟨hash, n⟩ ho ⟨hash', n'⟩ ho' heq
        have h1 := (Finset.mem_filter.mp ho).2
        have h2 := (Finset.mem_filter.mp ho').2
        dsimp only at h1 h2 heq
        rw [h1, h2, UInt32.toNat_inj.mp heq]
      · rw [hvalue, if_pos (Finset.mem_filter.mp ho).2]
        exact (valueAt_ofTx_le htx _).1
      · obtain ⟨txout, hmem, rfl⟩ := List.mem_map.mp hx
        exact (htx.value txout hmem).1
    have hkept : ∑ o ∈ outs with ¬o.hash = txhash, view'.valueAt o ≤
        total - (spends.map view.valueAt).sum := by
      refine le_trans (le_of_eq (Finset.sum_congr rfl fun o ho => ?_))
        (Ledger.sum_unspent_le hspends h.sum_le)
      rw [hvalue, if_neg (Finset.mem_filter.mp ho).2]
    rw [← Finset.sum_filter_add_sum_filter_not outs fun o => o.hash = txhash]
    linarith

end FlatView

/-! ## Fees -/

section

variable {env : ConnectEnv} {cf : ConnectFlags} {view view' : FlatView} {tx : CTransaction}
  {nFee : ℤ} {total : ℤ}

theorem valueOut_eq_ok {nValueOut : ℤ} (h : tx.valueOut = .ok nValueOut) :
    nValueOut = FlatView.outputValue tx ∧ nValueOut ≤ MAX_MONEY := by
  unfold CTransaction.valueOut at h
  cases hout : tx.getValueOut with
  | error e =>
    rw [hout] at h
    cases h
  | ok n =>
    rw [hout] at h
    cases h
    obtain ⟨hsum, -, hle⟩ := value_of_getValueOut hout
    exact ⟨hsum, hle⟩

/-- An input that passes adds the value of the output that it spends. -/
theorem checkInput_eq_ok {nSpendHeight nValueIn r : ℤ} {txin : CTxIn}
    (h : checkInput view nSpendHeight nValueIn txin = .ok r) :
    r = nValueIn + view.valueAt txin.prevout := by
  unfold checkInput at h
  split at h
  · cases h
  rename_i coins hcoins
  obtain ⟨-, h⟩ := bind_stopIf_eq_ok.mp h
  split at h
  · cases h
  rename_i txout hget
  obtain ⟨hrange, h⟩ := bind_stopIf_eq_ok.mp h
  cases h
  have hnull : txout.isNull = false := by
    refine Bool.eq_false_iff.mpr fun hnull => hrange (.inl ?_)
    rw [beq_iff_eq.mp (show (txout.nValue == -1) = true from hnull)]
    decide
  have hout : view.output txin.prevout = some txout :=
    FlatView.output_eq_some.mpr ⟨coins, hcoins, CCoins.output_eq_some.mpr ⟨hget, hnull⟩⟩
  unfold FlatView.valueAt
  rw [hout]
  rfl

/-- A fee is what the inputs are worth more than the outputs. -/
theorem PaysFee.eq (h : PaysFee env cf view tx nFee) (hcb : tx.isCoinBase = false) :
    nFee = FlatView.inputValue view tx - FlatView.outputValue tx ∧ 0 ≤ nFee := by
  obtain ⟨nValueIn, nValueOut, hin, hout, rfl⟩ := h.amounts
  obtain ⟨checks, hchecks⟩ := h.checked
  have hinputs := (FlatView.haveInputs_iff hcb).mp h.haveInputs
  rw [FlatView.getValueIn_eq_ok hcb hinputs, Except.ok.injEq] at hin
  have hvalueIn : nValueIn = FlatView.inputValue view tx := by
    rw [← hin, FlatView.inputValue, List.map_map]
    rfl
  obtain ⟨hvalueOut, -⟩ := valueOut_eq_ok hout
  refine ⟨by rw [hvalueIn, hvalueOut], ?_⟩
  unfold checkInputs at hchecks
  rw [hcb, if_neg (by decide)] at hchecks
  obtain ⟨-, hchecks⟩ := bind_stopIf_eq_ok.mp hchecks
  split at hchecks
  · cases hchecks
  obtain ⟨⟨⟩, hamounts, -⟩ := Outcome.bind_eq_ok.mp hchecks
  unfold checkAmounts at hamounts
  obtain ⟨n, hloop, hamounts⟩ := Outcome.bind_eq_ok.mp hamounts
  obtain ⟨m, hm, hamounts⟩ := Outcome.bind_eq_ok.mp hamounts
  obtain ⟨hle, -⟩ := bind_stopIf_eq_ok.mp hamounts
  have hn := Ledger.eq_add_sum_of_foldlM (fun txin => view.valueAt txin.prevout)
    (fun n txin m hstep => checkInput_eq_ok hstep) hloop
  rw [hout, Except.ok.injEq] at hm
  rw [zero_add] at hn
  rw [hvalueIn, FlatView.inputValue, List.map_map]
  change 0 ≤ (tx.vin.map fun txin => view.valueAt txin.prevout).sum - nValueOut
  omega

/-- A transaction takes its fee out of what the view holds. -/
theorem FlatView.Holds.connectTx {H : Bytes → UInt256} {s s' : Connecting}
    (h : s.view.Holds (total - s.nFees)) (htx : CheckedTransaction tx)
    (hconnect : Ticoin.connectTx H env cf s tx = .ok s') :
    s.nFees ≤ s'.nFees ∧ s'.view.Holds
      (total + (if tx.isCoinBase then FlatView.outputValue tx else 0) - s'.nFees) := by
  obtain ⟨nFee, txundo, hfee, hfees, hupdate, -⟩ := connectTx_cases hconnect
  rcases hfee with ⟨hcb, rfl⟩ | ⟨hcb, hfee⟩
  · unfold FlatView.updateCoins at hupdate
    rw [hcb] at hupdate
    obtain ⟨hset, -⟩ := Prod.mk.inj (Except.ok.inj hupdate)
    have hview : ∀ o, s'.view.output o = if o.hash = tx.getHash H then
        (CCoins.ofTx tx cf.nHeight).output o.n.toNat
        else if o ∈ ([] : List COutPoint) then none else s.view.output o := by
      intro o
      rw [← hset, FlatView.output_setCoins, if_neg List.not_mem_nil]
    have hholds := h.replace htx List.nodup_nil hview
    refine ⟨by omega, hholds.mono (le_of_eq ?_)⟩
    rw [hcb, if_pos rfl, hfees, List.map_nil, List.sum_nil]
    ring
  · obtain ⟨hvalue, hpos⟩ := hfee.eq hcb
    have hview := FlatView.output_updateCoins hcb htx.prevouts hfee.haveInputs hupdate
    have hholds := h.replace htx htx.prevouts hview
    refine ⟨by omega, hholds.mono (le_of_eq ?_)⟩
    rw [hcb, hfees, hvalue, FlatView.inputValue]
    simp only [Bool.false_eq_true, if_false]
    ring

theorem FlatView.Holds.connectTxs {H : Bytes → UInt256} : ∀ {vtx : List CTransaction}
    {s s' : Connecting}, s.view.Holds (total - s.nFees) →
    (∀ tx ∈ vtx, CheckedTransaction tx ∧ tx.isCoinBase = false) →
    vtx.foldlM (Ticoin.connectTx H env cf) s = .ok s' →
    s.nFees ≤ s'.nFees ∧ s'.view.Holds (total - s'.nFees)
  | [], s, s', h, _, hloop => by
    cases hloop
    exact ⟨le_rfl, h⟩
  | tx :: vtx, s, s', h, hvtx, hloop => by
    rw [List.forall_mem_cons] at hvtx
    rw [List.foldlM_cons] at hloop
    obtain ⟨s₁, hconnect, hloop⟩ := Outcome.bind_eq_ok.mp hloop
    obtain ⟨hle₁, hholds₁⟩ := h.connectTx hvtx.1.1 hconnect
    rw [hvtx.1.2, if_neg (by decide), add_zero] at hholds₁
    obtain ⟨hle, hholds⟩ := hholds₁.connectTxs hvtx.2 hloop
    exact ⟨hle₁.trans hle, hholds⟩

/-- What the coinbase of a block makes. -/
def coinbaseValue (block : CBlock) : ℤ := (block.vtx.head?.map FlatView.outputValue).getD 0

theorem CheckedBlock.coinbaseValue_range {H : Bytes → UInt256} {block : CBlock}
    (h : CheckedBlock H block) : MoneyRange (coinbaseValue block) := by
  obtain ⟨txNew, vtx, hvtx, -⟩ := h.coinbase
  unfold coinbaseValue
  rw [hvtx]
  exact (h.vtx txNew (hvtx ▸ List.mem_cons_self)).nValueOut

/-- While a block is connected, the coinbase is added first, and fees are taken out. -/
theorem FlatView.Holds.connectBlockTxs {H : Bytes → UInt256} {block : CBlock}
    (h : view.Holds total) (hcheck : CheckedBlock H block) {vtx : List CTransaction}
    (hvtx : vtx <+: block.vtx) {s : Connecting}
    (hloop : vtx.foldlM (Ticoin.connectTx H env cf) ⟨view, 0, 0, [], []⟩ = .ok s) :
    0 ≤ s.nFees ∧ s.view.Holds (total + coinbaseValue block - s.nFees) := by
  obtain ⟨txNew, rest, hblock, hcb, hrest⟩ := hcheck.coinbase
  have hvalue : coinbaseValue block = FlatView.outputValue txNew := by
    unfold coinbaseValue
    rw [hblock]
    rfl
  have hchecked := hcheck.vtx
  rw [hblock] at hvtx hchecked
  rw [List.forall_mem_cons] at hchecked
  match vtx with
  | [] =>
    cases hloop
    refine ⟨le_rfl, h.mono ?_⟩
    have := hcheck.coinbaseValue_range.1
    dsimp only
    omega
  | tx :: vtx =>
    obtain ⟨rfl, hinit⟩ := List.cons_prefix_cons.mp hvtx
    rw [List.foldlM_cons] at hloop
    obtain ⟨s₁, hconnect, hloop⟩ := Outcome.bind_eq_ok.mp hloop
    obtain ⟨hle₁, hholds₁⟩ := FlatView.Holds.connectTx (s := ⟨view, 0, 0, [], []⟩)
      (by rw [sub_zero]; exact h) hchecked.1 hconnect
    rw [hcb, if_pos rfl, ← hvalue] at hholds₁
    obtain ⟨hle, hholds⟩ := hholds₁.connectTxs
      (fun tx hmem => ⟨hchecked.2 tx (hinit.subset hmem), hrest tx (hinit.subset hmem)⟩) hloop
    exact ⟨hle₁.trans hle, hholds⟩

theorem getBlockValue_eq (params : ChainParams) (nHeight : ℕ) (nFees : ℤ) :
    getBlockValue params nHeight nFees = getBlockValue params nHeight 0 + nFees := by
  unfold getBlockValue
  dsimp only
  split
  · exact (zero_add nFees).symm
  · rw [add_zero]

/-- A block adds its subsidy at most to what the view holds. -/
theorem FlatView.Holds.connectBlock {H : Bytes → UInt256} {block : CBlock} {pindex : CBlockIndex}
    {vtxundo : List (List CTxInUndo)} (h : view.Holds total)
    (hgenesis : block.getHash H ≠ env.params.hashGenesisBlock)
    (hconnect : Ticoin.connectBlock H env block pindex view false = .ok (view', vtxundo)) :
    view'.Holds (total + getBlockValue env.params pindex.nHeight 0) := by
  obtain ⟨hcheck, -, -, -, s, hash, hloop, hend, -, rfl, rfl⟩ :=
    (connectBlock_eq_ok hgenesis).mp hconnect
  have hblock := checkBlock_eq_ok hcheck
  obtain ⟨-, hholds⟩ := h.connectBlockTxs hblock List.prefix_rfl hloop
  obtain ⟨txNew, vtx, hvtx, -⟩ := hblock.coinbase
  have hvalue : coinbaseValue block ≤ getBlockValue env.params pindex.nHeight s.nFees := by
    unfold connectEnd at hend
    rw [hvtx] at hend
    obtain ⟨nValueOut, hout, hend⟩ := Outcome.bind_eq_ok.mp hend
    obtain ⟨hnot, -⟩ := bind_stopIf_eq_ok.mp hend
    have hle := not_lt.mp hnot
    rw [(valueOut_eq_ok hout).1] at hle
    unfold coinbaseValue
    rw [hvtx]
    exact hle
  rw [getBlockValue_eq] at hvalue
  exact ⟨hholds.nonneg, (hholds.mono (by omega)).sum_le⟩

end

/-! ## Subsidies -/

/-- The subsidies of the blocks up to a height, after the genesis block. -/
def totalSubsidy (params : ChainParams) (nHeight : ℕ) : ℤ :=
  ∑ h ∈ Finset.Icc 1 nHeight, getBlockValue params h 0

theorem totalSubsidy_succ (params : ChainParams) (nHeight : ℕ) :
    totalSubsidy params (nHeight + 1) =
      totalSubsidy params nHeight + getBlockValue params (nHeight + 1) 0 :=
  Finset.sum_Icc_succ_top (Nat.le_add_left 1 nHeight) _

theorem getBlockValue_le (params : ChainParams) (nHeight : ℕ) :
    0 ≤ getBlockValue params nHeight 0 ∧ getBlockValue params nHeight 0 ≤
      30 * COIN / 2 ^ (nHeight / params.nSubsidyHalvingInterval) := by
  have hpos : 0 ≤ 30 * COIN / 2 ^ (nHeight / params.nSubsidyHalvingInterval) :=
    Int.ediv_nonneg (by decide) (by positivity)
  unfold getBlockValue
  dsimp only
  split
  · exact ⟨le_rfl, hpos⟩
  · rw [add_zero]
    exact ⟨hpos, le_rfl⟩

/-- The subsidies of all blocks are not more than those of twice the first interval. At every height
what is left is bounded by the subsidy there. -/
theorem sum_subsidies_le {nInterval : ℕ} (hpos : 0 < nInterval) (nSubsidy : ℤ)
    (hsubsidy : 0 ≤ nSubsidy) (nHeight : ℕ) :
    ∑ h ∈ Finset.range nHeight, nSubsidy / 2 ^ (h / nInterval) +
      nSubsidy / 2 ^ (nHeight / nInterval) * (2 * nInterval - (nHeight % nInterval : ℕ)) ≤
        nSubsidy * (2 * nInterval) := by
  induction nHeight with
  | zero => simp
  | succ n ih =>
    have hn := Nat.div_add_mod n nInterval
    have hr := Nat.mod_lt n hpos
    generalize n / nInterval = q at hn ih ⊢
    generalize n % nInterval = r at hn hr ih ⊢
    subst hn
    have hdiv : (nInterval * q + r) / nInterval = q := by
      rw [Nat.mul_add_div hpos, Nat.div_eq_of_lt hr, add_zero]
    rw [Finset.sum_range_succ, hdiv, add_assoc (nInterval * q), Nat.mul_add_div hpos,
      Nat.mul_add_mod]
    have hnonneg : 0 ≤ nSubsidy / 2 ^ q := Int.ediv_nonneg hsubsidy (by positivity)
    by_cases hlast : r + 1 = nInterval
    · -- the next interval starts, with half of the subsidy
      have hhalf : 2 * (nSubsidy / 2 ^ (q + 1)) ≤ nSubsidy / 2 ^ q := by
        rw [pow_succ, ← Int.ediv_ediv_of_nonneg (by positivity)]
        omega
      rw [hlast, Nat.div_self hpos, Nat.mod_self]
      have hr' : (r : ℤ) = nInterval - 1 := by omega
      rw [hr'] at ih
      push_cast
      nlinarith
    · rw [Nat.div_eq_of_lt (by omega), Nat.mod_eq_of_lt (by omega), add_zero]
      push_cast at ih ⊢
      linarith

/-- The subsidies of the networks come to less than `MAX_MONEY`. -/
theorem totalSubsidy_le (network : Network) (nHeight : ℕ) :
    totalSubsidy (chainParams network) nHeight ≤ MAX_MONEY := by
  set params := chainParams network with hparams
  have hinterval : 0 < params.nSubsidyHalvingInterval ∧
      30 * COIN * (2 * params.nSubsidyHalvingInterval) ≤ MAX_MONEY := by
    rw [hparams]
    cases network <;> decide
  have hsum := sum_subsidies_le hinterval.1 (30 * COIN) (by decide) (nHeight + 1)
  have hrest : 0 ≤ 30 * COIN / 2 ^ ((nHeight + 1) / params.nSubsidyHalvingInterval) *
      (2 * params.nSubsidyHalvingInterval -
        ((nHeight + 1) % params.nSubsidyHalvingInterval : ℕ)) := by
    have hlt := Nat.mod_lt (nHeight + 1) hinterval.1
    exact mul_nonneg (Int.ediv_nonneg (by decide) (by positivity)) (by omega)
  have hterms : totalSubsidy params nHeight ≤
      ∑ h ∈ Finset.Icc 1 nHeight, 30 * COIN / 2 ^ (h / params.nSubsidyHalvingInterval) :=
    Finset.sum_le_sum fun h _ => (getBlockValue_le params h).2
  have hsubset : ∑ h ∈ Finset.Icc 1 nHeight, 30 * COIN / 2 ^ (h / params.nSubsidyHalvingInterval) ≤
      ∑ h ∈ Finset.range (nHeight + 1), 30 * COIN / 2 ^ (h / params.nSubsidyHalvingInterval) := by
    refine Finset.sum_le_sum_of_subset_of_nonneg (fun h hmem => ?_) fun h _ _ =>
      (getBlockValue_le params h).1.trans (getBlockValue_le params h).2
    exact Finset.mem_range.mpr (Nat.lt_succ_of_le (Finset.mem_Icc.mp hmem).2)
  linarith [hinterval.2]

/-! ## Runs -/

section

variable {H : Bytes → UInt256} {params : ChainParams}

theorem FlatView.SameCoins.holds {view v : FlatView} (h : view.SameCoins v) {total : ℤ}
    (hview : view.Holds total) : v.Holds total := by
  have hvalue : v.valueAt = view.valueAt := by
    funext o
    unfold FlatView.valueAt
    rw [h.output_eq]
  refine ⟨?_, ?_⟩
  · rw [hvalue]
    exact hview.nonneg
  · rw [hvalue]
    exact hview.sum_le

/-- What the view holds after the blocks of a chain. -/
theorem holds_of_stands {genesis : BlockIndexEntry} {hash : UInt256}
    {stack : List (BlockConnection H params × List (List CTxInUndo))} {s : ChainTip}
    (h : (tipSystem H params).Stands (genesisTip genesis hash) stack s) :
    s.view.Holds (totalSubsidy params s.tip.nHeight) := by
  refine h.invariant (Q := fun _ s => s.view.Holds (totalSubsidy params s.tip.nHeight)) ?_ ?_
  · refine ⟨fun o => le_rfl, fun outs => ?_⟩
    exact (Finset.sum_eq_zero fun o _ => rfl).le
  · intro stack s s' c r hholds happly
    obtain ⟨hpprev, htip, hconnect⟩ := ChainTip.connectTip_cases happly
    have hblock := hholds.connectBlock c.chainBlock.notGenesis hconnect
    have hheight : c.pindex.nHeight = s.tip.nHeight + 1 := by
      revert hpprev
      cases c.pindex with
      | root e => exact nofun
      | child p e =>
        intro hpprev
        rw [← Option.some.inj hpprev]
        rfl
    rw [c.params_eq, hheight, ← totalSubsidy_succ] at hblock
    rw [htip, hheight]
    exact hblock

/-- No coins are made but by subsidies : after any run of connecting and disconnecting blocks, any
unspent outputs are not worth more than the subsidies of the chain together. While another block is
connected, its fees and the value of the block are in the range of 64-bit integers. -/
theorem supply_of_chain (network : Network) (genesis : BlockIndexEntry) (hash : UInt256)
    (moves : List (Rollback.Move (BlockConnection H (chainParams network))))
    {s : Rollback.Stacked ChainTip (BlockConnection H (chainParams network))
      (List (List CTxInUndo))}
    (hrun : (tipSystem H (chainParams network)).run (genesisTip genesis hash) moves = some s) :
    (∀ outs : Finset COutPoint, ∑ o ∈ outs, s.state.view.valueAt o ≤
      ∑ h ∈ Finset.Icc 1 s.state.tip.nHeight, getBlockValue (chainParams network) h 0) ∧
    ∀ (c : BlockConnection H (chainParams network)) (r : ChainTip × List (List CTxInUndo)),
      s.state.connectTip c = some r → ∀ vtx, vtx <+: c.block.vtx → ∃ t,
        vtx.foldlM (connectTx H c.env (connectFlags c.env c.block c.pindex))
          ⟨s.state.view, 0, 0, [], []⟩ = .ok t ∧
        0 ≤ t.nFees ∧ t.nFees < 2 ^ 63 ∧
        getBlockValue (chainParams network) c.pindex.nHeight t.nFees < 2 ^ 63 := by
  have hstart : (genesisTip genesis hash).view.Stored := by
    intro txid coins hcoins
    cases hcoins
  obtain ⟨state, hstands, htip, hsame⟩ := tipSystem_restores.follows_of_run hstart hrun
  have hholds := hsame.coins.holds (holds_of_stands hstands)
  rw [htip] at hholds
  refine ⟨hholds.sum_le, fun c r hconnect vtx hvtx => ?_⟩
  obtain ⟨-, -, hconnect⟩ := ChainTip.connectTip_cases hconnect
  obtain ⟨hcheck, -, -, -, s', -, hloop, -⟩ :=
    (connectBlock_eq_ok c.chainBlock.notGenesis).mp hconnect
  have hblock := checkBlock_eq_ok hcheck
  obtain ⟨rest, hrest⟩ := hvtx
  rw [← hrest, List.foldlM_append] at hloop
  obtain ⟨t, ht, -⟩ := Outcome.bind_eq_ok.mp hloop
  obtain ⟨hpos, hleft⟩ := hholds.connectBlockTxs hblock ⟨rest, hrest⟩ ht
  have hle := hleft.zero_le
  have htotal := totalSubsidy_le network s.state.tip.nHeight
  have hcoinbase := hblock.coinbaseValue_range.2
  have hsubsidy : getBlockValue (chainParams network) c.pindex.nHeight 0 ≤ 30 * COIN := by
    refine (getBlockValue_le _ _).2.trans ?_
    exact Int.ediv_le_self _ (by decide)
  have hmoney : MAX_MONEY = 2880000000000000 := by decide
  have hcoin : 30 * COIN = 3000000000 := by decide
  refine ⟨t, ht, hpos, by omega, ?_⟩
  rw [getBlockValue_eq]
  omega

end

/-- After the block is connected, the view holds its subsidy, and no more. -/
theorem supply_of_chain_first :
    (withFirst genesisView).valueAt ⟨sampleCoinbase.getHash nonceHash, 0⟩ = 30 * COIN ∧
    ∀ outs : Finset COutPoint, ∑ o ∈ outs, (withFirst genesisView).valueAt o ≤
      ∑ h ∈ Finset.Icc 1 1, getBlockValue (chainParams .regTest) h 0 :=
  ⟨rfl, (supply_of_chain .regTest sampleGenesis genesisView.best [.forth firstConnection]
    run_first.1).1⟩

end Ticoin
