import Ticoin.ViewRuns

/-!
# What a block does to the outputs of a view

Connecting a block spends the outputs that its transactions spend, and makes theirs
(`ChainTip.connectTip_extends`). So in the view after any blocks, what is available under the hash of
a transaction are outputs of this transaction, and what is left of the coinbase of a block is a
coinbase of this height, or of a later block with the same one (`coinsOf_of_stands`).
-/

namespace Ticoin

open Codec Outcome

/-! ## Outputs of transactions -/

namespace CTransaction

/-- The outpoints that a transaction spends, none for a coinbase. -/
def spends (tx : CTransaction) : List COutPoint :=
  if tx.isCoinBase then [] else tx.vin.map CTxIn.prevout

/-- An output that can be spent. -/
def output (tx : CTransaction) (n : ℕ) : Option CTxOut := (CCoins.ofTx tx 0).output n

theorem mem_spends {tx : CTransaction} {o : COutPoint} (h : o ∈ tx.spends) :
    ∃ txin ∈ tx.vin, txin.prevout = o := by
  unfold spends at h
  split at h
  · cases h
  · exact List.mem_map.mp h

theorem vout_of_output {tx : CTransaction} {n : ℕ} {txout : CTxOut}
    (h : tx.output n = some txout) : tx.vout[n]? = some txout ∧ txout.isNull = false :=
  ⟨CCoins.output_ofTx h, (CCoins.output_eq_some.mp h).2⟩

end CTransaction

theorem CCoins.output_ofTx_eq (tx : CTransaction) (nHeight : ℤ) (n : ℕ) :
    (CCoins.ofTx tx nHeight).output n = tx.output n := rfl

section

variable {H : Bytes → UInt256} {env : ConnectEnv} {cf : ConnectFlags} {s s' : Connecting}
  {tx : CTransaction} {o : COutPoint} {txout : CTxOut} {txid : UInt256} {coins : CCoins}

/-! ## One transaction -/

theorem output_connectTx (hnodup : (tx.vin.map CTxIn.prevout).Nodup)
    (h : connectTx H env cf s tx = .ok s') (o : COutPoint) :
    s'.view.output o = if o.hash = tx.getHash H then tx.output o.n.toNat
      else if o ∈ tx.spends then none else s.view.output o := by
  obtain ⟨nFee, txundo, hfee, -, hupdate, -⟩ := connectTx_cases h
  unfold CTransaction.spends
  rcases hfee with ⟨hcb, -⟩ | ⟨hcb, hfee⟩
  · unfold FlatView.updateCoins at hupdate
    rw [hcb] at hupdate
    obtain ⟨hset, -⟩ := Prod.mk.inj (Except.ok.inj hupdate)
    rw [← hset, FlatView.output_setCoins, hcb, if_pos rfl, if_neg List.not_mem_nil,
      CCoins.output_ofTx_eq]
  · rw [FlatView.output_updateCoins hcb hnodup hfee.haveInputs hupdate, hcb,
      if_neg (by decide : ¬false = true), CCoins.output_ofTx_eq]

/-- Coins that are left of others that were there. -/
def LeftOf (view : FlatView) (txid : UInt256) (coins : CCoins) : Prop :=
  ∃ before, view.unspent txid = some before ∧ coins.fCoinBase = before.fCoinBase ∧
    coins.nHeight = before.nHeight

theorem LeftOf.refl {view : FlatView} (h : view.unspent txid = some coins) :
    LeftOf view txid coins := ⟨coins, h, rfl, rfl⟩

theorem LeftOf.of_leftOf {view view' : FlatView} (h : LeftOf view' txid coins)
    (hview : ∀ coins, view'.unspent txid = some coins → LeftOf view txid coins) :
    LeftOf view txid coins := by
  obtain ⟨between, hget, hcb, hheight⟩ := h
  obtain ⟨before, hbefore, hcb', hheight'⟩ := hview between hget
  exact ⟨before, hbefore, hcb.trans hcb', hheight.trans hheight'⟩

theorem FlatView.leftOf_spendInputs : ∀ {vin : List CTxIn} {view view' : FlatView}
    {vprevout : List CTxInUndo} {coins : CCoins}, FlatView.spendInputs vin view = .ok (view', vprevout) →
    view'.unspent txid = some coins → LeftOf view txid coins
  | [], view, view', vprevout, coins, hspend, hcoins => by
    cases hspend
    exact LeftOf.refl hcoins
  | txin :: vin, view, view', vprevout, coins, hspend, hcoins => by
    obtain ⟨⟨view₁, undo⟩, hspend₁, hspend⟩ := Outcome.bind_eq_ok.mp hspend
    obtain ⟨⟨view₂, rest⟩, hrest, heq⟩ := Outcome.bind_eq_ok.mp hspend
    cases heq
    refine (leftOf_spendInputs hrest hcoins).of_leftOf fun between hbetween => ?_
    obtain ⟨spent, left, hspent, hleft, rfl⟩ := FlatView.spendCoins_cases hspend₁
    rw [FlatView.unspent_setCoins] at hbetween
    by_cases heq : txid = txin.prevout.hash
    · subst heq
      rw [Function.update_self] at hbetween
      obtain ⟨-, -, rfl, -⟩ := CCoins.spend_cases hleft
      split at hbetween
      · cases hbetween
      · cases hbetween
        exact ⟨spent, hspent, rfl, rfl⟩
    · rw [Function.update_of_ne heq] at hbetween
      exact LeftOf.refl hbetween

/-- Unspent coins are the new ones of the transaction, or left of others. -/
theorem coins_connectTx (h : connectTx H env cf s tx = .ok s')
    (hcoins : s'.view.unspent txid = some coins) :
    tx.getHash H = txid ∧ coins.fCoinBase = tx.isCoinBase ∧ coins.nHeight = cf.nHeight ∨
      tx.getHash H ≠ txid ∧ LeftOf s.view txid coins := by
  obtain ⟨nFee, txundo, -, -, hupdate, -⟩ := connectTx_cases h
  have hview : ∃ view : FlatView, (∀ coins, view.unspent txid = some coins → LeftOf s.view txid coins) ∧
      s'.view = view.setCoins (tx.getHash H) (.ofTx tx cf.nHeight) := by
    unfold FlatView.updateCoins at hupdate
    cases hcb : tx.isCoinBase with
    | true =>
      rw [hcb] at hupdate
      obtain ⟨hset, -⟩ := Prod.mk.inj (Except.ok.inj hupdate)
      exact ⟨s.view, fun coins => LeftOf.refl, hset.symm⟩
    | false =>
      rw [hcb] at hupdate
      obtain ⟨⟨view₁, undo⟩, hspend, heq⟩ := Outcome.bind_eq_ok.mp hupdate
      obtain ⟨hset, -⟩ := Prod.mk.inj (Except.ok.inj heq)
      exact ⟨view₁, fun coins => FlatView.leftOf_spendInputs hspend, hset.symm⟩
  obtain ⟨view, hleft, hset⟩ := hview
  rw [hset, FlatView.unspent_setCoins] at hcoins
  by_cases heq : txid = tx.getHash H
  · rw [heq, Function.update_self] at hcoins
    split at hcoins
    · cases hcoins
    · cases hcoins
      exact .inl ⟨heq.symm, rfl, rfl⟩
  · rw [Function.update_of_ne heq] at hcoins
    exact .inr ⟨Ne.symm heq, hleft _ hcoins⟩

/-! ## The transactions of a block -/

/-- What is available and not spent stays available. -/
theorem output_connectTxs_old : ∀ {vtx : List CTransaction} {s s' : Connecting},
    vtx.foldlM (connectTx H env cf) s = .ok s' →
    (∀ tx ∈ vtx, (tx.vin.map CTxIn.prevout).Nodup ∧ tx.getHash H ≠ o.hash ∧ o ∉ tx.spends) →
    s'.view.output o = s.view.output o
  | [], s, s', h, _ => by
    cases h
    rfl
  | tx :: vtx, s, s', h, hvtx => by
    rw [List.foldlM_cons] at h
    obtain ⟨s₁, hconnect, h⟩ := Outcome.bind_eq_ok.mp h
    rw [List.forall_mem_cons] at hvtx
    rw [output_connectTxs_old h hvtx.2, output_connectTx hvtx.1.1 hconnect,
      if_neg (Ne.symm hvtx.1.2.1), if_neg hvtx.1.2.2]

/-- What a transaction makes is available after the block, unless another spends it. -/
theorem output_connectTxs_new : ∀ {vtx : List CTransaction} {s s' : Connecting},
    vtx.foldlM (connectTx H env cf) s = .ok s' → (vtx.map (CTransaction.getHash H)).Nodup →
    (∀ tx ∈ vtx, (tx.vin.map CTxIn.prevout).Nodup ∧ o ∉ tx.spends) → tx ∈ vtx →
    tx.getHash H = o.hash → s'.view.output o = tx.output o.n.toNat
  | t :: vtx, s, s', h, hnodup, hvtx, hmem, hhash => by
    rw [List.foldlM_cons] at h
    obtain ⟨s₁, hconnect, hloop⟩ := Outcome.bind_eq_ok.mp h
    rw [List.forall_mem_cons] at hvtx
    rw [List.map_cons, List.nodup_cons] at hnodup
    rcases List.mem_cons.mp hmem with rfl | hmem
    · have hrest : ∀ t ∈ vtx, (t.vin.map CTxIn.prevout).Nodup ∧ t.getHash H ≠ o.hash ∧
          o ∉ t.spends := by
        intro t ht
        refine ⟨(hvtx.2 t ht).1, fun heq => hnodup.1 ?_, (hvtx.2 t ht).2⟩
        rw [hhash, ← heq]
        exact List.mem_map_of_mem ht
      rw [output_connectTxs_old hloop hrest, output_connectTx hvtx.1.1 hconnect, if_pos hhash.symm]
    · exact output_connectTxs_new hloop hnodup.2 hvtx.2 hmem hhash

/-- What is available was made by a transaction of the block or was available before. -/
theorem output_connectTxs_source : ∀ {vtx : List CTransaction} {s s' : Connecting},
    vtx.foldlM (connectTx H env cf) s = .ok s' →
    (∀ tx ∈ vtx, (tx.vin.map CTxIn.prevout).Nodup) → s'.view.output o = some txout →
    (∃ tx ∈ vtx, tx.getHash H = o.hash ∧ tx.output o.n.toNat = some txout) ∨
      s.view.output o = some txout
  | [], s, s', h, _, hout => by
    cases h
    exact .inr hout
  | tx :: vtx, s, s', h, hvtx, hout => by
    rw [List.foldlM_cons] at h
    obtain ⟨s₁, hconnect, h⟩ := Outcome.bind_eq_ok.mp h
    rw [List.forall_mem_cons] at hvtx
    rcases output_connectTxs_source h hvtx.2 hout with ⟨t, ht, hhash, hmade⟩ | hout
    · exact .inl ⟨t, List.mem_cons_of_mem _ ht, hhash, hmade⟩
    · rw [output_connectTx hvtx.1 hconnect] at hout
      split at hout
      · rename_i hhash
        exact .inl ⟨tx, List.mem_cons_self, hhash.symm, hout⟩
      · split at hout
        · cases hout
        · exact .inr hout

theorem coins_connectTxs : ∀ {vtx : List CTransaction} {s s' : Connecting} {coins : CCoins},
    vtx.foldlM (connectTx H env cf) s = .ok s' → s'.view.unspent txid = some coins →
    (∃ tx ∈ vtx, tx.getHash H = txid ∧ coins.fCoinBase = tx.isCoinBase ∧
      coins.nHeight = cf.nHeight) ∨
    (∀ tx ∈ vtx, tx.getHash H ≠ txid) ∧ LeftOf s.view txid coins
  | [], s, s', coins, h, hcoins => by
    cases h
    exact .inr ⟨fun tx hmem => absurd hmem List.not_mem_nil, LeftOf.refl hcoins⟩
  | tx :: vtx, s, s', coins, h, hcoins => by
    rw [List.foldlM_cons] at h
    obtain ⟨s₁, hconnect, h⟩ := Outcome.bind_eq_ok.mp h
    rcases coins_connectTxs h hcoins with ⟨t, ht, hnew⟩ | ⟨hne, before, hbefore, hcb, hheight⟩
    · exact .inl ⟨t, List.mem_cons_of_mem _ ht, hnew⟩
    · rcases coins_connectTx hconnect hbefore with ⟨hhash, hcb', hheight'⟩ | ⟨hhash, hleft⟩
      · exact .inl ⟨tx, List.mem_cons_self, hhash, hcb.trans hcb', hheight.trans hheight'⟩
      · obtain ⟨first, hfirst, hcb', hheight'⟩ := hleft
        exact .inr ⟨List.forall_mem_cons.mpr ⟨hhash, hne⟩, first, hfirst, hcb.trans hcb',
          hheight.trans hheight'⟩

end

/-! ## A block -/

/-- What connecting a block does to the coins of a view. -/
structure Extends (H : Bytes → UInt256) (vtx : List CTransaction) (nHeight : ℕ)
    (view view' : FlatView) : Prop where
  fresh : ∀ tx ∈ vtx, view.unspent (tx.getHash H) = none
  old : ∀ (o : COutPoint) (txout : CTxOut), view.output o = some txout →
    (∀ tx ∈ vtx, o ∉ tx.spends) → view'.output o = some txout
  new : ∀ tx ∈ vtx, ∀ (o : COutPoint) (txout : CTxOut), tx.getHash H = o.hash →
    tx.output o.n.toNat = some txout → (∀ t ∈ vtx, o ∉ t.spends) → view'.output o = some txout
  source : ∀ (o : COutPoint) (txout : CTxOut), view'.output o = some txout →
    (∃ tx ∈ vtx, tx.getHash H = o.hash ∧ tx.output o.n.toNat = some txout) ∨
      view.output o = some txout
  coins : ∀ (txid : UInt256) (coins : CCoins), view'.unspent txid = some coins →
    (∃ tx ∈ vtx, tx.getHash H = txid ∧ coins.fCoinBase = tx.isCoinBase ∧
      coins.nHeight = nHeight) ∨
    (∀ tx ∈ vtx, tx.getHash H ≠ txid) ∧ LeftOf view txid coins

section

variable {H : Bytes → UInt256} {params : ChainParams}

/-- A transaction without unspent coins has no outputs. -/
theorem FlatView.output_eq_none {view : FlatView} {o : COutPoint}
    (h : view.unspent o.hash = none) : view.output o = none := by
  rw [FlatView.output_eq_bind_unspent, h, Option.bind_none]

theorem ChainTip.connectTip_extends {s s' : ChainTip} {c : BlockConnection H params}
    {vtxundo : List (List CTxInUndo)} (h : s.connectTip c = some (s', vtxundo)) :
    CheckedBlock H c.block ∧ Extends H c.block.vtx c.pindex.nHeight s.view s'.view := by
  obtain ⟨-, -, hconnect⟩ := ChainTip.connectTip_cases h
  obtain ⟨hcheck, -, hoverwrites, -, s₁, hash, hloop, -, -, hview, -⟩ :=
    (connectBlock_eq_ok c.chainBlock.notGenesis).mp hconnect
  replace hcheck := checkBlock_eq_ok hcheck
  have hexempt : c.pindex.entry.phashBlock.any (isBIP30Exempt c.pindex.nHeight) = false := by
    rw [c.chainBlock.phashBlock, Option.any_some, c.chainBlock.notExempt]
  have hfresh := unspent_of_checkOverwrites hexempt hoverwrites
  have hout : ∀ o, s'.view.output o = s₁.view.output o := fun o => by rw [hview]; rfl
  have hcoins : ∀ txid, s'.view.unspent txid = s₁.view.unspent txid := fun txid => by
    rw [hview]
    rfl
  refine ⟨hcheck, hfresh, fun o txout hget hspent => ?_, fun tx hmem o txout hhash hmade hspent => ?_,
    fun o txout hget => ?_, fun txid coins hget => ?_⟩
  · rw [hout, output_connectTxs_old hloop fun tx hmem => ⟨(hcheck.vtx tx hmem).prevouts, ?_,
      hspent tx hmem⟩]
    · exact hget
    · intro heq
      rw [FlatView.output_eq_none (heq ▸ hfresh tx hmem)] at hget
      cases hget
  · rw [hout, output_connectTxs_new hloop hcheck.txids
      (fun t ht => ⟨(hcheck.vtx t ht).prevouts, hspent t ht⟩) hmem hhash]
    exact hmade
  · rw [hout] at hget
    exact output_connectTxs_source hloop (fun tx hmem => (hcheck.vtx tx hmem).prevouts) hget
  · rw [hcoins] at hget
    exact coins_connectTxs hloop hget

theorem Extends.congr {vtx : List CTransaction} {nHeight : ℕ} {view view' v v' : FlatView}
    (h : Extends H vtx nHeight view view') (hview : view.SameCoins v)
    (hview' : view'.SameCoins v') : Extends H vtx nHeight v v' where
  fresh tx hmem := (hview _).symm.trans (h.fresh tx hmem)
  old o txout hget hspent := by
    rw [← hview.output_eq] at hget
    rw [← hview'.output_eq]
    exact h.old o txout hget hspent
  new tx hmem o txout hhash hmade hspent := by
    rw [← hview'.output_eq]
    exact h.new tx hmem o txout hhash hmade hspent
  source o txout hget := by
    rw [← hview'.output_eq] at hget
    rw [← hview.output_eq]
    exact h.source o txout hget
  coins txid coins hget := by
    rw [← hview' txid] at hget
    have hleft : LeftOf v txid coins ↔ LeftOf view txid coins := by
      unfold LeftOf
      rw [hview txid]
    rw [hleft]
    exact h.coins txid coins hget

/-! ## The blocks of a chain -/

/-- The coins of a view, after the blocks of a stack : outputs are those of the transactions, and
what is left of the coinbase of a block has its height, or that of a later one. -/
structure CoinsOf (txs : Set CTransaction)
    (stack : List (BlockConnection H params × List (List CTxInUndo))) (view : FlatView) : Prop where
  outputs : ∀ tx ∈ txs, ∀ (o : COutPoint) (txout : CTxOut), tx.getHash H = o.hash →
    view.output o = some txout → tx.output o.n.toNat = some txout
  coinbases : ∀ item ∈ stack, ∀ txNew ∈ item.1.block.vtx.head?, ∀ coins : CCoins,
    view.unspent (txNew.getHash H) = some coins →
      coins.fCoinBase = true ∧ (item.1.pindex.nHeight : ℤ) ≤ coins.nHeight

variable {txs : Set CTransaction} {start : ChainTip}
  {stack : List (BlockConnection H params × List (List CTxInUndo))} {s : ChainTip}

theorem CoinsOf.congr {view v : FlatView} (h : CoinsOf txs stack view) (hview : view.SameCoins v) :
    CoinsOf txs stack v where
  outputs tx htx o txout hhash hget := by
    rw [← hview.output_eq] at hget
    exact h.outputs tx htx o txout hhash hget
  coinbases item hitem txNew hnew coins hget := by
    rw [← hview] at hget
    exact h.coinbases item hitem txNew hnew coins hget

theorem nHeight_of_pprev {pindex pprev : CBlockIndex} (h : pindex.pprev = some pprev) :
    pindex.nHeight = pprev.nHeight + 1 := by
  cases pindex with
  | root e => cases h
  | child p e =>
    rw [← Option.some.inj h]
    rfl

/-- The blocks of a stack are below the tip. -/
theorem nHeight_le_of_stands (h : (tipSystem H params).Stands start stack s) :
    ∀ item ∈ stack, item.1.pindex.nHeight ≤ s.tip.nHeight := by
  refine h.invariant
    (Q := fun stack s => ∀ item ∈ stack, item.1.pindex.nHeight ≤ s.tip.nHeight)
    (fun item hmem => absurd hmem List.not_mem_nil) fun stack s s' c r hle happly => ?_
  obtain ⟨hpprev, htip, -⟩ := ChainTip.connectTip_cases happly
  rw [htip, List.forall_mem_cons]
  refine ⟨le_rfl, fun item hmem => ?_⟩
  rw [nHeight_of_pprev hpprev]
  exact (hle item hmem).trans (Nat.le_succ _)

theorem checkedBlock_of_stands (h : (tipSystem H params).Stands start stack s) :
    ∀ item ∈ stack, CheckedBlock H item.1.block := by
  refine h.invariant (Q := fun stack _ => ∀ item ∈ stack, CheckedBlock H item.1.block)
    (fun item hmem => absurd hmem List.not_mem_nil) fun stack s s' c r hall happly => ?_
  exact List.forall_mem_cons.mpr ⟨(ChainTip.connectTip_extends happly).1, hall⟩

theorem CheckedBlock.isCoinBase {block : CBlock} (h : CheckedBlock H block) {txNew : CTransaction}
    (hnew : txNew ∈ block.vtx.head?) : txNew ∈ block.vtx ∧ txNew.isCoinBase = true := by
  obtain ⟨cb, rest, hvtx, hcb, -⟩ := h.coinbase
  rw [hvtx, List.head?_cons, Option.mem_some_iff] at hnew
  rw [hvtx, ← hnew]
  exact ⟨List.mem_cons_self, hcb⟩

theorem coinsOf_of_stands (hinj : Set.InjOn (CTransaction.getHash H) txs)
    (hstart : CoinsOf txs ([] : List (BlockConnection H params × List (List CTxInUndo))) start.view)
    (h : (tipSystem H params).Stands start stack s)
    (hblocks : ∀ item ∈ stack, ∀ tx ∈ item.1.block.vtx, tx ∈ txs) : CoinsOf txs stack s.view := by
  induction h with
  | nil => exact hstart
  | @cons stack s s' c r hstands happly ih =>
    have hchecked := checkedBlock_of_stands (hstands.cons happly)
    have hheight := nHeight_le_of_stands (hstands.cons happly)
    rw [(ChainTip.connectTip_cases happly).2.1] at hheight
    replace ih := ih fun item hmem => hblocks item (List.mem_cons_of_mem _ hmem)
    have hext := (ChainTip.connectTip_extends happly).2
    constructor
    · intro tx htx o txout hhash hget
      rcases hext.source o txout hget with ⟨t, ht, hthash, hmade⟩ | hget
      · rw [hinj htx (hblocks _ List.mem_cons_self t ht) (hhash.trans hthash.symm)]
        exact hmade
      · exact ih.outputs tx htx o txout hhash hget
    · intro item hitem txNew hnew coins hget
      obtain ⟨hmem, hcb⟩ := (hchecked item hitem).isCoinBase hnew
      rcases hext.coins _ coins hget with ⟨t, ht, hhash, hcoinbase, hnHeight⟩ | ⟨hne, hleft⟩
      · -- the new block has the same coinbase
        rw [hinj (hblocks _ List.mem_cons_self t ht) (hblocks item hitem txNew hmem) hhash, hcb]
          at hcoinbase
        rw [hnHeight]
        exact ⟨hcoinbase, Int.ofNat_le.mpr (hheight item hitem)⟩
      · obtain ⟨before, hbefore, hcoinbase, hnHeight⟩ := hleft
        rcases List.mem_cons.mp hitem with rfl | hitem
        · exact absurd rfl (hne txNew hmem)
        · rw [hcoinbase, hnHeight]
          exact ih.coinbases item hitem txNew hnew before hbefore

end

end Ticoin
