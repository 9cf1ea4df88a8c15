import Ticoin.BlockSelection
import Ticoin.NextWork
import Ticoin.WireFormat

/-!
# CreateNewBlock : the block connects

The transactions that are selected were connected to a view of the tip. In the block they come after
the coinbase, which pays the fees, so that a view with the coins of the coinbase is connected the
same way : no transaction spends these (`Miner.Connected.exists_connectTxs`). What the block
pays cannot be more than `MAX_MONEY`, since fees come out of the coins of the tip.

Under conditions on the pool, the coinbase and the time alone the block is connected, so that
`CreateNewBlock` does not throw (`Miner.createNewBlock_connects`).
-/

namespace Ticoin

open Codec Outcome

/-! ## Connecting after the coinbase -/

section

variable {env : ConnectEnv} {pindexPrev : CBlockIndex} {view view' : FlatView} {tx : CTransaction}

/-- Inputs connect in views that agree, under flags of which more or less is asked. -/
theorem Connects.agree {flags flags' : UInt32} (h : Connects env pindexPrev flags view tx)
    (hagree : FlatView.AgreeFor tx view view') (hbest : view.best = view'.best)
    (hflags : ∀ check : CScriptCheck, check.tx = tx →
      env.verifyScript { check with nFlags := flags } = true →
      env.verifyScript { check with nFlags := flags' } = true) :
    Connects env pindexPrev flags' view' tx where
  notCoinBase := h.notCoinBase
  haveInputs := by rw [← hagree.haveInputs_eq, h.haveInputs]
  best := by rw [← hbest, h.best]
  amounts := by rw [← hagree.checkAmounts_eq, h.amounts]
  verifies := by
    intro nIn txin txout hin hout
    have heq : view.output txin.prevout = view'.output txin.prevout := by
      unfold FlatView.output
      rw [hagree txin (List.mem_of_getElem? hin)]
    exact hflags ⟨txout.scriptPubKey, tx, nIn, flags⟩ rfl
      (h.verifies nIn txin txout hin (heq ▸ hout))

end

namespace Miner

variable {F : Type} {H : Bytes → UInt256} {m : Miner F}

/-- What passes under the flags of the selection passes under those of a block. -/
def FlagsAgree (m : Miner F) (flags : UInt32) : Prop :=
  ∀ check : CScriptCheck, check.tx ∈ m.mempool.pool →
    m.env.verifyScript { check with nFlags := SCRIPT_VERIFY_P2SH } = true →
    m.env.verifyScript { check with nFlags := flags } = true

/-- Transactions that were connected to the tip are connected to a view that agrees with it. -/
theorem Connected.exists_connectTxs {vtx : List CTransaction} {vTxFees : List ℤ}
    {vTxSigOps : List ℕ} {view : FlatView} (h : Connected H m vtx vTxFees vTxSigOps view)
    {txid : UInt256} {cf : ConnectFlags} (hheight : cf.nHeight = m.nHeight)
    (hflags : m.FlagsAgree cf.flags)
    (hvtx : ∀ tx ∈ vtx, tx ∈ m.mempool.pool ∧ FlatView.Avoids txid tx) {s : Connecting}
    (hagree : FlatView.AgreeOff txid m.pcoinsTip s.view)
    (hlimit : s.nSigOps + vTxSigOps.sum ≤ MAX_BLOCK_SIGOPS) :
    ∃ s', vtx.foldlM (connectTx H m.env cf) s = .ok s' ∧ FlatView.AgreeOff txid view s'.view ∧
      s'.nFees = s.nFees + vTxFees.sum ∧ s'.nSigOps ≤ s.nSigOps + vTxSigOps.sum ∧
      ∀ check ∈ s'.control, check ∈ s.control ∨ m.env.verifyScript check = true := by
  induction h with
  | nil => exact ⟨s, rfl, hagree, (add_zero _).symm, le_rfl, fun check hmem => .inl hmem⟩
  | @concat vtx vTxFees vTxSigOps view view' tx nValueIn nValueOut nP2SHSigOps vprevout _
      hconnects hin hout hp2sh hupdate ih =>
    rw [List.forall_mem_append, List.forall_mem_singleton] at hvtx
    rw [List.sum_append, List.sum_singleton] at hlimit
    obtain ⟨s₁, hloop, hagree₁, hfees, hsigops, hcontrol⟩ := ih hvtx.1 (by omega)
    have hfor := hagree₁.agreeFor hvtx.2.2
    have hconnects₁ : Connects m.env m.pindexPrev cf.flags s₁.view tx :=
      hconnects.agree hfor hagree₁.best fun check htx => hflags check (htx ▸ hvtx.2.1)
    obtain ⟨view₁, hupdate₁, hagree'⟩ := hagree₁.updateCoins hvtx.2.2 hupdate
    rw [← hheight] at hupdate₁
    obtain ⟨s', hconnect, rfl, hfees', hsigops', hcontrol'⟩ := exists_connectTx (s := s₁) hconnects₁
      (hfor.getValueIn_eq ▸ hin) hout (hfor.getP2SHSigOpCount_eq ▸ hp2sh) (by omega) hupdate₁
    refine ⟨s', ?_, hagree', ?_, ?_, fun check hmem => ?_⟩
    · rw [List.foldlM_append, hloop]
      change (connectTx H m.env cf s₁ tx >>= pure) = _
      rw [hconnect]
      rfl
    · rw [hfees', hfees, List.sum_append, List.sum_singleton, add_assoc]
    · rw [List.sum_append, List.sum_singleton]
      omega
    · rcases hcontrol' check hmem with hmem | hverify
      · exact hcontrol check hmem
      · exact .inr hverify

/-! ## Amounts -/

/-- The fees of what is selected come out of the coins of the tip. -/
theorem Connected.fees_range {vtx : List CTransaction} {vTxFees : List ℤ} {vTxSigOps : List ℕ}
    {view : FlatView} (h : Connected H m vtx vTxFees vTxSigOps view)
    (hvtx : ∀ tx ∈ vtx, CheckedTransaction tx) {total : ℤ} (hholds : m.pcoinsTip.Holds total) :
    0 ≤ vTxFees.sum ∧ view.Holds (total - vTxFees.sum) := by
  induction h with
  | nil => exact ⟨le_rfl, by rwa [List.sum_nil, sub_zero]⟩
  | @concat vtx vTxFees vTxSigOps view view' tx nValueIn nValueOut nP2SHSigOps vprevout _
      hconnects hin hout hp2sh hupdate ih =>
    rw [List.forall_mem_append, List.forall_mem_singleton] at hvtx
    obtain ⟨hnonneg, hview⟩ := ih hvtx.1
    obtain ⟨checks, hchecks, -⟩ :=
      hconnects.exists_checkInputs true (m.env.nScriptCheckThreads ≠ 0)
    have hfee : PaysFee m.env ⟨m.nHeight, true, true, SCRIPT_VERIFY_P2SH⟩ view tx
        (nValueIn - nValueOut) :=
      ⟨hconnects.haveInputs, ⟨_, _, hin, hout, rfl⟩, checks, hchecks⟩
    obtain ⟨hvalue, hpos⟩ := hfee.eq hconnects.notCoinBase
    have houtput := FlatView.output_updateCoins hconnects.notCoinBase hvtx.2.prevouts
      hconnects.haveInputs hupdate
    refine ⟨by rw [List.sum_append, List.sum_singleton]; omega, ?_⟩
    refine (hview.replace hvtx.2 hvtx.2.prevouts houtput).mono (le_of_eq ?_)
    rw [List.sum_append, List.sum_singleton, hvalue, FlatView.inputValue]
    ring

/-! ## The block -/

/-- What `ConnectBlock` asks of the scripts of the new block. -/
def blockFlags (m : Miner F) : UInt32 :=
  (connectFlags m.env ⟨m.header m.pcoinsTip.best, []⟩
    (m.indexDummy ⟨m.header m.pcoinsTip.best, []⟩)).flags

/-- When a block can be made of the pool : its transactions are valid and not yet in the chain, and
the coins of the tip are worth so much at most. The coinbase is small and new, and the time is not
too far ahead. -/
structure Mineable (H : Bytes → UInt256) (m : Miner F) (scriptPubKeyIn : Bytes) (total : ℤ) :
    Prop where
  consistent : m.Consistent H
  checked : ∀ tx ∈ m.mempool.pool, checkTransaction tx = .ok ()
  new : ∀ tx ∈ m.mempool.pool, m.pcoinsTip.unspent (tx.getHash H) = none
  holds : m.pcoinsTip.Holds total
  money : getBlockValue m.env.params m.nHeight total ≤ MAX_MONEY
  scripts : m.FlagsAgree m.blockFlags
  time : (m.header m.pcoinsTip.best).getBlockTime ≤ m.env.nAdjustedTime + 2 * 60 * 60
  size : ∀ nFees, (m.coinbase scriptPubKeyIn nFees).serialize.length ≤ 1000
  sigOps : ∀ nFees, getLegacySigOpCount (m.coinbase scriptPubKeyIn nFees) ≤ 100
  txid : ∀ nFees, 0 ≤ nFees → nFees ≤ total →
    m.pcoinsTip.unspent ((m.coinbase scriptPubKeyIn nFees).getHash H) = none ∧
      ∀ tx ∈ m.mempool.pool, tx.getHash H ≠ (m.coinbase scriptPubKeyIn nFees).getHash H
  notGenesis : ∀ vtx nFees block, m.newBlock scriptPubKeyIn vtx nFees = .ok block →
    block.getHash H ≠ m.env.params.hashGenesisBlock

theorem exists_getNextWorkRequired (params : ChainParams) (pindexLast : CBlockIndex)
    (block : CBlockHeader) : ∃ nBits, getNextWorkRequired params pindexLast block = some nBits := by
  unfold getNextWorkRequired
  dsimp only
  split
  · split
    · split
      · exact ⟨_, rfl⟩
      · exact ⟨_, rfl⟩
    · exact ⟨_, rfl⟩
  · rename_i hre
    have hdvd := Nat.le_of_dvd (Nat.succ_pos _) (Nat.dvd_of_mod_eq_zero (not_not.mp hre))
    obtain ⟨pindexFirst, hfirst⟩ :=
      CBlockIndex.exists_goBack (n := nInterval - 1) (b := pindexLast) (by omega)
    rw [hfirst]
    exact ⟨_, rfl⟩

theorem getBlockValue_nonneg (params : ChainParams) (nHeight : ℕ) :
    0 ≤ getBlockValue params nHeight 0 := by
  unfold getBlockValue
  dsimp only
  split
  · exact le_rfl
  · rw [add_zero]
    exact Int.ediv_nonneg (by decide) (by positivity)

section Block

variable {scriptPubKeyIn : Bytes} {total nFees : ℤ} {vtx : List CTransaction} {block : CBlock}

/-- The value of the coinbase, which is in range. -/
theorem Mineable.toInt_coinbase (h : Mineable H m scriptPubKeyIn total) (hnonneg : 0 ≤ nFees)
    (hle : nFees ≤ total) :
    (Int64.ofInt (getBlockValue m.env.params m.nHeight nFees)).toInt =
      getBlockValue m.env.params m.nHeight nFees ∧
    MoneyRange (getBlockValue m.env.params m.nHeight nFees) := by
  have hmoney := h.money
  have hsubsidy := getBlockValue_nonneg m.env.params m.nHeight
  rw [getBlockValue_eq] at hmoney ⊢
  have hrange : MoneyRange (getBlockValue m.env.params m.nHeight 0 + nFees) := by
    constructor <;> omega
  have hmax : MAX_MONEY = 2880000000000000 := by decide
  obtain ⟨hlow, hhigh⟩ := hrange
  refine ⟨Int64.toInt_ofInt_of_le ?_ ?_, hlow, hhigh⟩ <;> omega

/-- The coinbase is a valid transaction. -/
theorem Mineable.checkTransaction_coinbase (h : Mineable H m scriptPubKeyIn total)
    (hnonneg : 0 ≤ nFees) (hle : nFees ≤ total) :
    checkTransaction (m.coinbase scriptPubKeyIn nFees) = .ok () := by
  obtain ⟨hvalue, hrange⟩ := h.toInt_coinbase hnonneg hle
  have hsize := (h.size nFees).trans (by decide : 1000 ≤ MAX_BLOCK_SIZE)
  have hloop : (m.coinbase scriptPubKeyIn nFees).vout.foldlM checkValueOut 0 =
      .ok (getBlockValue m.env.params m.nHeight nFees) := by
    change (checkValueOut 0 ⟨.ofInt (getBlockValue m.env.params m.nHeight nFees),
      scriptPubKeyIn⟩ >>= pure) = _
    unfold checkValueOut
    dsimp only
    rw [hvalue, zero_add, stopIf, if_neg (not_lt.mpr hrange.1), stopIf,
      if_neg (not_lt.mpr hrange.2), stopIf, if_neg (not_not.mpr hrange)]
    rfl
  have hprevouts : checkPrevouts (m.coinbase scriptPubKeyIn nFees) = .ok () := by
    have hcb : (m.coinbase scriptPubKeyIn nFees).isCoinBase = true := rfl
    unfold checkPrevouts stateDoS
    rw [hcb, if_pos rfl, stopIf_eq_ok]
    rintro ⟨txin, hmem, hlen⟩
    rw [List.mem_singleton.mp hmem] at hlen
    exact absurd hlen (by decide)
  unfold checkTransaction
  refine bind_stopIf_eq_ok.mpr ⟨List.cons_ne_nil _ _, bind_stopIf_eq_ok.mpr ⟨List.cons_ne_nil _ _,
    bind_stopIf_eq_ok.mpr ⟨not_lt.mpr hsize, ?_⟩⟩⟩
  rw [hloop]
  have hnodup : ((m.coinbase scriptPubKeyIn nFees).vin.map CTxIn.prevout).Nodup :=
    List.nodup_singleton _
  change (stopIf (¬((m.coinbase scriptPubKeyIn nFees).vin.map CTxIn.prevout).Nodup)
    (stateDoS 100 REJECT_INVALID "bad-txns-inputs-duplicate") >>= fun _ => _) = _
  refine bind_stopIf_eq_ok.mpr ⟨not_not.mpr hnodup, ?_⟩
  exact hprevouts

/-- No transaction of the selection spends outputs of the coinbase. -/
theorem Mineable.avoids (h : Mineable H m scriptPubKeyIn total) (hnonneg : 0 ≤ nFees)
    (hle : nFees ≤ total) {s : Selecting F} (hs : Selection H m s) :
    ∀ tx ∈ s.vtx, FlatView.Avoids ((m.coinbase scriptPubKeyIn nFees).getHash H) tx := by
  intro tx hmem txin hin heq
  obtain ⟨hnew, hpool⟩ := h.txid nFees hnonneg hle
  obtain ⟨before, after, hsplit⟩ := List.mem_iff_append.mp hmem
  have hbefore : before ++ [tx] <+: s.vtx := ⟨after, by rw [hsplit, List.append_assoc]; rfl⟩
  obtain ⟨txout, hout⟩ := hs.inputs before tx hbefore txin hin
  unfold outputAfter at hout
  split at hout
  · rename_i parent hfind
    have hparent : parent ∈ s.vtx := hbefore.subset
      (List.mem_append_left _ (List.mem_reverse.mp (List.mem_of_find?_eq_some hfind)))
    have hhash := List.find?_some hfind
    rw [decide_eq_true_eq, heq] at hhash
    exact hpool parent (hs.pool parent hparent).1 hhash
  · rw [FlatView.output_eq_bind_unspent, heq, hnew] at hout
    cases hout

/-- The header and the transactions of the block. -/
theorem Mineable.exists_newBlock (h : Mineable H m scriptPubKeyIn total) (vtx : List CTransaction)
    (nFees : ℤ) : ∃ nBits, m.newBlock scriptPubKeyIn vtx nFees = .ok
      { m.header m.pcoinsTip.best with
        nBits := nBits
        vtx := m.coinbase scriptPubKeyIn nFees :: vtx } := by
  obtain ⟨nBits, hwork⟩ := exists_getNextWorkRequired m.env.params m.pindexPrev
    (m.header m.pcoinsTip.best)
  refine ⟨nBits, ?_⟩
  unfold newBlock
  rw [h.consistent.phashBlock]
  dsimp only
  rw [hwork]

/-- The size of a block is that of its transactions and little more. -/
theorem length_serialize_block (block : CBlock) : block.serialize.length ≤
    80 + 9 + (block.vtx.map fun tx => tx.serialize.length).sum := by
  have hsize : (writeCompactSize block.vtx.length).length ≤ 9 := by
    unfold writeCompactSize
    split_ifs <;> simp [length_leBytes]
  unfold CBlock.serialize CBlockHeader.serialize serializeVector
  simp only [List.length_append, List.length_flatMap, serializeInt32, serializeUInt256,
    serializeUInt32, length_leBytes]
  omega

theorem length_le_sum_size (vtx : List CTransaction) :
    vtx.length ≤ (vtx.map fun tx => tx.serialize.length).sum := by
  have hle := List.card_nsmul_le_sum (vtx.map fun tx => tx.serialize.length) 1 (by
    intro n hmem
    obtain ⟨tx, -, rfl⟩ := List.mem_map.mp hmem
    exact tx.length_serialize_pos)
  simpa using hle

theorem sum_legacy_le : ∀ before vtx : List CTransaction,
    (vtx.map getLegacySigOpCount).sum ≤ Ledger.sumAlong (sigOpsAfter H m) before vtx
  | _, [] => le_rfl
  | before, tx :: vtx => by
    rw [List.map_cons, List.sum_cons, Ledger.sumAlong]
    exact Nat.add_le_add (Nat.le_add_right _ _) (sum_legacy_le (before ++ [tx]) vtx)

/-- The block is accepted by itself. -/
theorem Mineable.checkBlock_newBlock (h : Mineable H m scriptPubKeyIn total) {s : Selecting F}
    (hs : Selection H m s) (hnonneg : 0 ≤ s.nFees) (hle : s.nFees ≤ total)
    (hblock : m.newBlock scriptPubKeyIn s.vtx s.nFees = .ok block) :
    checkBlock H m.env.params m.env.nAdjustedTime block false false = .ok () := by
  obtain ⟨nBits, hnew⟩ := h.exists_newBlock s.vtx s.nFees
  rw [hnew, Except.ok.injEq] at hblock
  subst hblock
  have hmax : m.nBlockMaxSize ≤ MAX_BLOCK_SIZE - 1000 := by
    unfold nBlockMaxSize
    exact max_le (by decide) (min_le_left _ _)
  have hsizes : 1000 + (s.vtx.map fun tx => tx.serialize.length).sum ≤ MAX_BLOCK_SIZE - 1000 := by
    by_cases hnil : s.vtx = []
    · rw [hnil]
      decide
    · exact (hs.size hnil).le.trans hmax
  have hcoinbase := h.size s.nFees
  have hvalue : MAX_BLOCK_SIZE = 1000000 := rfl
  have hlen := length_le_sum_size s.vtx
  refine bind_stopIf_eq_ok.mpr ⟨?_, bind_stopIf_eq_ok.mpr ⟨fun h => absurd h.1 (by decide),
    bind_stopIf_eq_ok.mpr ⟨not_lt.mpr h.time, bind_stopIf_eq_ok.mpr ⟨?_,
    bind_stopIf_eq_ok.mpr ⟨?_, ?_⟩⟩⟩⟩⟩
  · rintro (hnil | hlong | hlarge)
    · exact List.cons_ne_nil _ _ hnil
    · rw [List.length_cons] at hlong
      omega
    · have hle := length_serialize_block { m.header m.pcoinsTip.best with
        nBits := nBits
        vtx := m.coinbase scriptPubKeyIn s.nFees :: s.vtx }
      rw [List.map_cons, List.sum_cons] at hle
      omega
  · exact not_not.mpr rfl
  · rw [List.tail_cons, List.any_eq_true]
    rintro ⟨tx, hmem, hcb⟩
    rw [(hs.pool tx hmem).2] at hcb
    cases hcb
  · have hloop : (m.coinbase scriptPubKeyIn s.nFees :: s.vtx).forM checkTransaction = .ok () := by
      refine forM_eq_ok.mpr (List.forall_mem_cons.mpr ⟨?_, fun tx hmem => ?_⟩)
      · exact h.checkTransaction_coinbase hnonneg hle
      · exact h.checked tx (hs.pool tx hmem).1
    change ((m.coinbase scriptPubKeyIn s.nFees :: s.vtx).forM checkTransaction >>= fun _ => _) = _
    rw [hloop]
    refine bind_stopIf_eq_ok.mpr ⟨not_not.mpr ?_, bind_stopIf_eq_ok.mpr ⟨not_lt.mpr ?_,
      stopIf_eq_ok.mpr fun h => absurd h.1 (by decide)⟩⟩
    · rw [List.map_cons, List.nodup_cons]
      refine ⟨fun hmem => ?_, hs.txids⟩
      obtain ⟨tx, htx, heq⟩ := List.mem_map.mp hmem
      exact (h.txid s.nFees hnonneg hle).2 tx (hs.pool tx htx).1 heq
    · rw [List.map_cons, List.sum_cons]
      have hsigops := hs.sigOps
      have hlegacy := sum_legacy_le (H := H) (m := m) [] s.vtx
      have hcoinbase := h.sigOps s.nFees
      omega

/-- The transactions of the block are connected, and the coinbase pays what it may. -/
theorem Mineable.connectBlock_newBlock (h : Mineable H m scriptPubKeyIn total) {s : Selecting F}
    {mapDependers : UInt256 → List ℕ} {held : List CTransaction} {n : ℕ}
    (hselected : Selected H m mapDependers held n s)
    (hblock : m.newBlock scriptPubKeyIn s.vtx s.nFees = .ok block) :
    ∃ r, connectBlock H m.env block (m.indexDummy block) m.pcoinsTip true = .ok r := by
  have hs := hselected.selection h.consistent
  have hchecked : ∀ tx ∈ s.vtx, CheckedTransaction tx := fun tx hmem =>
    checkTransaction_eq_ok (h.checked tx (hs.pool tx hmem).1)
  obtain ⟨hnonneg, hleft⟩ := hselected.connected.fees_range hchecked h.holds
  have hle := hleft.zero_le
  rw [← hselected.nFees] at hnonneg hle
  replace hle : s.nFees ≤ total := by omega
  have hcheck := h.checkBlock_newBlock hs hnonneg hle hblock
  have hgenesis := h.notGenesis _ _ _ hblock
  have havoids := h.avoids hnonneg hle hs
  obtain ⟨hvalue, hrange⟩ := h.toInt_coinbase hnonneg hle
  obtain ⟨nBits, hnew⟩ := h.exists_newBlock s.vtx s.nFees
  rw [hnew, Except.ok.injEq] at hblock
  subst hblock
  set block : CBlock := { m.header m.pcoinsTip.best with
    nBits := nBits
    vtx := m.coinbase scriptPubKeyIn s.nFees :: s.vtx } with hdef
  set cf := connectFlags m.env block (m.indexDummy block) with hcf
  -- the coinbase, then the transactions
  have hsigops := hselected.sigOps_lt
  rw [hselected.nBlockSigOps] at hsigops
  have hcoinbase := h.sigOps s.nFees
  set nCoinbase := getLegacySigOpCount (m.coinbase scriptPubKeyIn s.nFees)
  set txid := (m.coinbase scriptPubKeyIn s.nFees).getHash H
  set view := m.pcoinsTip.setCoins txid (.ofTx (m.coinbase scriptPubKeyIn s.nFees) m.nHeight)
  have hfirst : connectTx H m.env cf ⟨m.pcoinsTip, 0, 0, [], []⟩
      (m.coinbase scriptPubKeyIn s.nFees) = .ok ⟨view, 0, nCoinbase, [], []⟩ := by
    unfold connectTx
    rw [addSigOps_eq_ok (by dsimp only; omega)]
    dsimp only
    rw [Nat.zero_add]
    rfl
  have hagree : FlatView.AgreeOff txid m.pcoinsTip view := FlatView.agreeOff_setCoins _ _ _
  have hheight : cf.nHeight = m.nHeight := rfl
  obtain ⟨s', hloop, -, hfees, -, hcontrol⟩ := hselected.connected.exists_connectTxs hheight
    h.scripts (fun tx hmem => ⟨(hs.pool tx hmem).1, havoids tx hmem⟩)
    (s := ⟨view, 0, nCoinbase, [], []⟩) hagree (by dsimp only; omega)
  have hall : block.vtx.foldlM (connectTx H m.env cf) ⟨m.pcoinsTip, 0, 0, [], []⟩ = .ok s' := by
    rw [hdef, List.foldlM_cons, hfirst]
    exact hloop
  have hover : checkOverwrites H block (m.indexDummy block) m.pcoinsTip = .ok () := by
    have hnew : ∀ tx ∈ block.vtx, m.pcoinsTip.unspent (tx.getHash H) = none :=
      List.forall_mem_cons.mpr ⟨(h.txid s.nFees hnonneg hle).1,
        fun tx hmem => h.new tx (hs.pool tx hmem).1⟩
    refine stopIf_eq_ok.mpr ?_
    rintro ⟨-, tx, hmem, hany⟩
    obtain ⟨coins, hcoins, hpruned⟩ := (Option.any_eq_true _ _).mp hany
    have hsome := FlatView.unspent_eq_some.mpr ⟨hcoins, by simpa using hpruned⟩
    rw [hnew tx hmem] at hsome
    cases hsome
  have hend : connectEnd m.env block (m.indexDummy block) s' = .ok () := by
    have hout := valueOut_of_checked
      (checkTransaction_eq_ok (h.checkTransaction_coinbase hnonneg hle))
    have hpays : FlatView.outputValue (m.coinbase scriptPubKeyIn s.nFees) =
        getBlockValue m.env.params m.nHeight s.nFees := by
      unfold FlatView.outputValue
      rw [← hvalue]
      exact List.sum_singleton
    have hnFees : s'.nFees = s.nFees := by
      rw [hfees, hselected.nFees]
      exact zero_add _
    unfold connectEnd
    rw [hdef, List.head?_cons]
    dsimp only
    rw [hout, hnFees]
    refine bind_stopIf_eq_ok.mpr ⟨not_lt.mpr hpays.le, stopIf_eq_ok.mpr (not_not.mpr ?_)⟩
    rw [List.all_eq_true]
    exact fun check hmem => (hcontrol check hmem).resolve_left List.not_mem_nil
  refine ⟨(s'.view, s'.vtxundo), ?_⟩
  unfold connectBlock
  refine Outcome.bind_eq_ok.mpr ⟨(), hcheck,
    bind_stopIf_eq_ok.mpr ⟨not_not.mpr h.consistent.phashBlock, ?_⟩⟩
  rw [if_neg hgenesis, hover]
  exact Outcome.bind_eq_ok.mpr ⟨(), rfl, Outcome.bind_eq_ok.mpr ⟨s', hall,
    Outcome.bind_eq_ok.mpr ⟨(), hend, rfl⟩⟩⟩

/-- `CreateNewBlock` does not throw : it returns a block of the coinbase and the selection that
`ConnectBlock` accepts. -/
theorem createNewBlock_connects (h : Mineable H m scriptPubKeyIn total) : ∃ s block r,
    m.selectTransactions H = .ok s ∧ Selection H m s ∧
    m.createNewBlock H scriptPubKeyIn = .ok {
      block := block
      vTxFees := -s.nFees :: s.vTxFees
      vTxSigOps := getLegacySigOpCount (m.coinbase scriptPubKeyIn s.nFees) :: s.vTxSigOps } ∧
    block.vtx = m.coinbase scriptPubKeyIn s.nFees :: s.vtx ∧
    connectBlock H m.env block (m.indexDummy block) m.pcoinsTip true = .ok r := by
  have hselect := ends_selectTransactions h.consistent
  cases hs : m.selectTransactions H with
  | error stop =>
    obtain ⟨tx, hmem, hout⟩ := hselect.of_error hs
    rw [valueOut_of_checked (checkTransaction_eq_ok (h.checked tx hmem))] at hout
    cases hout
  | ok s =>
    obtain ⟨⟨mapDependers, n, hselected⟩, -⟩ := hselect.of_ok hs
    obtain ⟨nBits, hblock⟩ := h.exists_newBlock s.vtx s.nFees
    obtain ⟨r, hconnect⟩ := h.connectBlock_newBlock hselected hblock
    refine ⟨s, _, r, rfl, hselected.selection h.consistent, ?_, rfl, hconnect⟩
    unfold createNewBlock
    rw [hs]
    change (m.newBlock scriptPubKeyIn s.vtx s.nFees >>= fun block => _) = _
    rw [hblock]
    change (passed (connectBlock H m.env _ _ m.pcoinsTip true) >>= fun fConnected => _) = _
    rw [hconnect]
    rfl

end Block

end Miner

/-! ## A block of the two transactions -/

theorem holds_minedTip : minedTip.Holds 50 := by
  have hvalue : ∀ o : COutPoint, minedTip.valueAt o = if o = ⟨9, 0⟩ then 50 else 0 := by
    intro o
    unfold FlatView.valueAt FlatView.output minedTip
    dsimp only
    by_cases hhash : o.hash = 9
    · rw [hhash, Function.update_self, Option.bind_some]
      obtain ⟨hash, n⟩ := o
      obtain rfl : hash = 9 := hhash
      by_cases hn : n = 0
      · rw [hn]
        rfl
      · have hpos : 1 ≤ n.toNat := Nat.one_le_iff_ne_zero.mpr fun h => hn (UInt32.toNat_inj.mp h)
        have hnone : CCoins.output ⟨false, [⟨50, [0x51]⟩], 0, 1⟩ n.toNat = none := by
          unfold CCoins.output CCoins.isAvailable
          rw [List.getElem?_eq_none hpos]
          rfl
        rw [hnone, if_neg fun h => hn (congrArg COutPoint.n h)]
        rfl
    · rw [Function.update_of_ne hhash, if_neg fun h => hhash (congrArg COutPoint.hash h)]
      rfl
  constructor
  · intro o
    rw [hvalue]
    split <;> decide
  · intro outs
    simp only [hvalue]
    rw [Finset.sum_ite_eq']
    split <;> decide

theorem versionHash_coinbase (nFees : ℤ) :
    (sampleMiner.coinbase [0x51] nFees).getHash versionHash = 1 := rfl

theorem mineable_sampleMiner : Miner.Mineable versionHash sampleMiner [0x51] 50 where
  consistent := consistent_sampleMiner
  checked := by
    intro tx hmem
    rcases mem_minedPool hmem with rfl | rfl
    · rfl
    · rfl
  new := by
    intro tx hmem
    rcases mem_minedPool hmem with rfl | rfl
    · rfl
    · rfl
  holds := holds_minedTip
  money := by decide
  scripts := fun _ _ hverify => hverify
  time := by
    have hmedian : sampleMiner.pindexPrev.getMedianTimePast = 1 := by
      have htimes : sampleMiner.pindexPrev.lastTimes nMedianTimeSpan = [1] := rfl
      unfold CBlockIndex.getMedianTimePast
      rw [htimes, List.mergeSort_singleton]
      rfl
    unfold Miner.header CBlockHeader.getBlockTime
    rw [hmedian]
    decide
  size := by
    intro nFees
    rw [show (sampleMiner.coinbase [0x51] nFees).serialize.length = 63 by rfl]
    decide
  sigOps := by
    intro nFees
    change getLegacySigOpCount (sampleMiner.coinbase [0x51] 0) ≤ 100
    with_unfolding_all decide
  txid := by
    intro nFees _ _
    rw [versionHash_coinbase]
    refine ⟨rfl, fun tx hmem => ?_⟩
    rcases mem_minedPool hmem with rfl | rfl
    · decide
    · decide
  notGenesis := by
    intro vtx nFees block hblock
    unfold Miner.newBlock at hblock
    rw [show sampleMiner.pindexPrev.entry.phashBlock =
      some (chainParams .regTest).hashGenesisBlock from rfl] at hblock
    dsimp only at hblock
    split at hblock
    · cases hblock
    · cases hblock
      change (3 : UInt256) ≠ _
      decide

theorem createNewBlock_sampleMiner : ∃ s block r,
    sampleMiner.selectTransactions versionHash = .ok s ∧ Miner.Selection versionHash sampleMiner s ∧
    sampleMiner.createNewBlock versionHash [0x51] = .ok {
      block := block
      vTxFees := -s.nFees :: s.vTxFees
      vTxSigOps :=
        getLegacySigOpCount (sampleMiner.coinbase [0x51] s.nFees) :: s.vTxSigOps } ∧
    block.vtx = sampleMiner.coinbase [0x51] s.nFees :: s.vtx ∧
    connectBlock versionHash sampleMiner.env block (sampleMiner.indexDummy block)
      sampleMiner.pcoinsTip true = .ok r :=
  Miner.createNewBlock_connects mineable_sampleMiner

end Ticoin
