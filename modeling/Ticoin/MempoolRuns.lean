import Ticoin.AcceptToMemoryPool
import Ticoin.BlockOutputs

/-!
# The memory pool along a chain

`ConnectTip` removes the transactions of its block and what conflicts with them from the pool, and
`DisconnectTip` has the transactions of its block accepted again, or removed with all that descends
from them. `CTxMemPool::check` asserts that each input in the pool is in the index, and spends an
output of the pool or one that is available in the coins of the tip.

No assertion fails after any run in which the tip stays less than `COINBASE_MATURITY` blocks below the
highest that there was (`mempool_of_run`). The coinbase of a disconnected block is not accepted to the
pool, and transactions that spend it are not removed. So after one more block is disconnected, at any
depth, the assertions hold if and only if no transaction that is left spends its coinbase
(`check_disconnectTip_iff`).
-/

namespace Ticoin

open Codec Outcome

/-! ## CTxMemPool::check -/

namespace CTxMemPool

/-- The assertions about an input of a pooled transaction : the output that it spends is there, and
the index has the input. -/
def checkTxIn (pcoins : FlatView) (s : CTxMemPool) (hash : UInt256) (input : CTxIn × ℕ) : Bool :=
  (match s.mapTx[input.1.prevout.hash]? with
    | some entry => entry.tx.vout[input.1.prevout.n.toNat]?.any fun txout => !txout.isNull
    | none => (pcoins.coins input.1.prevout.hash).any fun coins =>
        coins.isAvailable input.1.prevout.n.toNat) &&
    s.mapNextTx[input.1.prevout]? == some ⟨hash, input.2⟩

variable (H : Bytes → UInt256)

/-- The assertions about an entry of the index. -/
def checkNextTx (s : CTxMemPool) (next : COutPoint × CInPoint) : Bool :=
  s.mapTx[next.2.ptx]?.any fun entry => entry.tx.getHash H == next.2.ptx &&
    entry.tx.vin[next.2.n]?.any fun txin => next.1 == txin.prevout

/-- `check` : whether no assertion fails. -/
def check (pcoins : FlatView) (s : CTxMemPool) : Bool :=
  (s.mapTx.toList.all fun item => item.2.tx.vin.zipIdx.all (s.checkTxIn pcoins item.1)) &&
    s.mapNextTx.toList.all (s.checkNextTx H)

/-! ## The pool and a block -/

/-- A transaction of a block that is connected is removed, and what conflicts with it. -/
def connectPoolTx (st : CTxMemPool × List CTransaction) (tx : CTransaction) :
    Option (CTxMemPool × List CTransaction) := do
  let (pool, _) ← st.1.remove H tx [] false
  pool.removeConflicts H tx st.2

/-- The loop of `ConnectTip`, with the conflicts that were removed. -/
def connectPool (vtx : List CTransaction) (s : CTxMemPool) :
    Option (CTxMemPool × List CTransaction) :=
  vtx.foldlM (connectPoolTx H) (s, [])

/-- A transaction of a block that is disconnected is accepted again, or removed. Validation errors
are ignored, but neither exceptions nor failed assertions. -/
def disconnectPoolTx (env : AcceptEnv) (tip : FlatView) (pool : CTxMemPool) (tx : CTransaction) :
    Option CTxMemPool :=
  if tx.isCoinBase then some pool
  else
    match acceptToMemoryPool H env tip pool tx false false with
    | .ok pool => some pool
    | .error (.stop (.throw _)) => none
    | .error (.stop .undefined) => none
    | .error _ => (pool.remove H tx [] true).map Prod.fst

/-- The loop of `DisconnectTip`. -/
def disconnectPool (env : AcceptEnv) (tip : FlatView) (vtx : List CTransaction) (s : CTxMemPool) :
    Option CTxMemPool :=
  vtx.foldlM (disconnectPoolTx H env tip) s

end CTxMemPool

/-! ## Steps -/

/-- `WriteChainState`, which may write the coins : those of which all outputs are spent are dropped. -/
def FlatView.writeChainState (fWrite : Bool) (view : FlatView) : FlatView :=
  if fWrite then { view with coins := view.unspent } else view

/-- The chain, with the blocks that were connected, and the memory pool. -/
structure ChainAndPool (H : Bytes → UInt256) (params : ChainParams) where
  chain : Rollback.Stacked ChainTip (BlockConnection H params) (List (List CTxInUndo))
  mempool : CTxMemPool

namespace ChainAndPool

variable {H : Bytes → UInt256} {params : ChainParams}

def tip (s : ChainAndPool H params) : CBlockIndex := s.chain.state.tip

/-- `pcoinsTip`. -/
def pcoinsTip (s : ChainAndPool H params) : FlatView := s.chain.state.view

/-- The chain with `WriteChainState`. -/
def written (fWrite : Bool)
    (chain : Rollback.Stacked ChainTip (BlockConnection H params) (List (List CTxInUndo))) :
    Rollback.Stacked ChainTip (BlockConnection H params) (List (List CTxInUndo)) :=
  { chain with state := ⟨chain.state.tip, chain.state.view.writeChainState fWrite⟩ }

/-- A transaction is accepted to the pool, or not. -/
def accept (env : AcceptEnv) (tx : CTransaction) (fLimitFree fRejectInsaneFee : Bool)
    (s : ChainAndPool H params) : ChainAndPool H params :=
  match acceptToMemoryPool H env s.pcoinsTip s.mempool tx fLimitFree fRejectInsaneFee with
  | .ok pool => { s with mempool := pool }
  | .error _ => s

/-- `ConnectTip`. -/
def connectTip (c : BlockConnection H params) (fWrite : Bool) (s : ChainAndPool H params) :
    Option (ChainAndPool H params) := do
  let chain ← (tipSystem H params).step s.chain (.forth c)
  let (pool, _) ← s.mempool.connectPool H c.block.vtx
  return ⟨written fWrite chain, pool⟩

/-- `DisconnectTip`. -/
def disconnectTip (env : AcceptEnv) (fWrite : Bool) (s : ChainAndPool H params) :
    Option (ChainAndPool H params) :=
  match s.chain.stack with
  | [] => none
  | (c, _) :: _ => do
    let chain ← (tipSystem H params).step s.chain .back
    let pool ← s.mempool.disconnectPool H env (written fWrite chain).state.view c.block.vtx
    return ⟨written fWrite chain, pool⟩

/-- What accepting reads of the index of blocks is the entry of the tip. -/
def Knows (env : AcceptEnv) (s : ChainAndPool H params) : Prop :=
  env.connect.mapBlockIndex[s.pcoinsTip.best]? = some s.tip

end ChainAndPool

namespace CTxMemPool

variable {H : Bytes → UInt256} {txs : Set CTransaction} {rank : UInt256 → ℕ}
  {s s' s'' : CTxMemPool} {tx t p : CTransaction} {view view' : FlatView}
  {extra extra' vtx : List CTransaction} {env : AcceptEnv}

/-! ## Pools whose inputs are there -/

/-- An outpoint is an output of a transaction. -/
def Makes (H : Bytes → UInt256) (p : CTransaction) (o : COutPoint) : Prop :=
  p.getHash H = o.hash ∧ (p.output o.n.toNat).isSome = true

theorem Makes.child {txin : CTxIn} (h : Makes H p txin.prevout) (hin : txin ∈ t.vin) :
    Child H p t := by
  obtain ⟨hhash, hout⟩ := h
  obtain ⟨txout, hout⟩ := Option.isSome_iff_exists.mp hout
  have hlt := (List.getElem?_eq_some_iff.mp (CTransaction.vout_of_output hout).1).1
  refine ⟨txin, hin, txin.prevout.n.toNat, hlt, ?_⟩
  rw [hhash, UInt32.ofNat_toNat]

/-- Each input in the pool spends an output of the pool, of some further transactions, or one that
is available in the view. -/
structure Supported (H : Bytes → UInt256) (txs : Set CTransaction) (view : FlatView)
    (extra : List CTransaction) (s : CTxMemPool) : Prop where
  indexed : Indexed H txs s
  notCoinBase : ∀ t ∈ s.pool, t.isCoinBase = false
  inputs : ∀ t ∈ s.pool, ∀ txin ∈ t.vin,
    (∃ p, (p ∈ s.pool ∨ p ∈ extra) ∧ Makes H p txin.prevout) ∨
      (view.output txin.prevout).isSome = true

theorem Supported.mono (h : Supported H txs view extra s) (hsub : extra ⊆ extra') :
    Supported H txs view extra' s where
  indexed := h.indexed
  notCoinBase := h.notCoinBase
  inputs t ht txin hin := by
    rcases h.inputs t ht txin hin with ⟨p, hp, hmakes⟩ | hout
    · exact .inl ⟨p, hp.imp_right fun hmem => hsub hmem, hmakes⟩
    · exact .inr hout

theorem Supported.empty : Supported H txs view [] {} where
  indexed := Indexed.empty
  notCoinBase := by
    rintro t ⟨hash, entry, hget, -⟩
    simp at hget
  inputs := by
    rintro t ⟨hash, entry, hget, -⟩
    simp at hget

theorem output_isSome_iff {o : COutPoint} : (view.output o).isSome = true ↔
    ((view.coins o.hash).any fun coins => coins.isAvailable o.n.toNat) = true := by
  unfold FlatView.output
  cases view.coins o.hash with
  | none => simp
  | some coins =>
    rw [Option.bind_some, Option.any_some, CCoins.isAvailable_iff, Option.isSome_iff_exists]

/-- No assertion fails for such a pool, if outputs of the view are those of the transactions. -/
theorem Supported.check (h : Supported H txs view [] s) (hinj : Set.InjOn (CTransaction.getHash H) txs)
    (hcoins : ∀ tx ∈ txs, ∀ (o : COutPoint) (txout : CTxOut), tx.getHash H = o.hash →
      view.output o = some txout → tx.output o.n.toNat = some txout) : s.check H view = true := by
  unfold CTxMemPool.check
  rw [Bool.and_eq_true, List.all_eq_true, List.all_eq_true]
  constructor
  · rintro ⟨hash, ⟨t⟩⟩ hitem
    have hget := Std.ExtTreeMap.mem_toList_iff_getElem?_eq_some.mp hitem
    have ht : t ∈ s.pool := ⟨hash, _, hget, rfl⟩
    refine List.all_eq_true.mpr fun ⟨txin, i⟩ hinput => ?_
    have hi : t.vin[i]? = some txin := List.mk_mem_zipIdx_iff_getElem?.mp hinput
    have hin := List.mem_of_getElem? hi
    have hnext : s.mapNextTx[txin.prevout]? = some ⟨hash, i⟩ :=
      (h.indexed.next _ _ _).mpr ⟨⟨t⟩, hget, by rw [hi, Option.map_some]⟩
    unfold checkTxIn
    dsimp only
    rw [hnext, Bool.and_eq_true]
    refine ⟨?_, beq_self_eq_true _⟩
    cases hparent : s.mapTx[txin.prevout.hash]? with
    | none =>
      rcases h.inputs t ht txin hin with ⟨p, hp, hhash, -⟩ | hout
      · have hpool := h.indexed.mem_pool.mp (hp.resolve_right List.not_mem_nil)
        rw [hhash, hparent] at hpool
        cases hpool
      · exact output_isSome_iff.mp hout
    | some entry =>
      have hp : entry.tx ∈ s.pool := ⟨_, _, hparent, rfl⟩
      have hhash := h.indexed.hash _ _ hparent
      have hout : ∃ txout, entry.tx.output txin.prevout.n.toNat = some txout := by
        rcases h.inputs t ht txin hin with ⟨p, hp', hhash', hsome⟩ | hsome
        · rw [hinj (h.indexed.mem _ hp)
            (h.indexed.mem _ (hp'.resolve_right List.not_mem_nil)) (hhash.trans hhash'.symm)]
          exact Option.isSome_iff_exists.mp hsome
        · obtain ⟨txout, hout⟩ := Option.isSome_iff_exists.mp hsome
          exact ⟨txout, hcoins _ (h.indexed.mem _ hp) _ _ hhash hout⟩
      obtain ⟨txout, hout⟩ := hout
      obtain ⟨hvout, hnull⟩ := CTransaction.vout_of_output hout
      dsimp only
      rw [hvout, Option.any_some, hnull]
      rfl
  · rintro ⟨o, ⟨hash, n⟩⟩ hitem
    have hget := Std.ExtTreeMap.mem_toList_iff_getElem?_eq_some.mp hitem
    obtain ⟨entry, hentry, hprev⟩ := (h.indexed.next _ _ _).mp hget
    obtain ⟨txin, hin, rfl⟩ := Option.map_eq_some_iff.mp hprev
    unfold checkNextTx
    dsimp only
    rw [hentry, Option.any_some, h.indexed.hash _ _ hentry, hin, Option.any_some]
    simp

/-- What `check` asserts of an input. -/
theorem inputs_of_check (hcheck : s.check H view = true) (h : Indexed H txs s) (ht : t ∈ s.pool)
    {txin : CTxIn} (hin : txin ∈ t.vin) :
    (∃ p ∈ s.pool, p.getHash H = txin.prevout.hash) ∨ (view.output txin.prevout).isSome = true := by
  unfold CTxMemPool.check at hcheck
  rw [Bool.and_eq_true, List.all_eq_true] at hcheck
  obtain ⟨i, hi⟩ := List.mem_iff_getElem?.mp hin
  have hitem := Std.ExtTreeMap.mem_toList_iff_getElem?_eq_some.mpr (h.mem_pool.mp ht)
  have hinput := List.all_eq_true.mp (hcheck.1 _ hitem) (txin, i)
    (List.mk_mem_zipIdx_iff_getElem?.mpr hi)
  unfold checkTxIn at hinput
  rw [Bool.and_eq_true] at hinput
  cases hparent : s.mapTx[txin.prevout.hash]? with
  | none =>
    rw [hparent] at hinput
    exact .inr (output_isSome_iff.mpr hinput.1)
  | some entry => exact .inl ⟨entry.tx, ⟨_, _, hparent, rfl⟩, h.hash _ _ hparent⟩

/-! ## Connecting -/

/-- What a removal leaves keeps its parents. -/
theorem Removal.closed {R : Set CTransaction} {l : List CTransaction} (h : Removal H s s' R l)
    (hp : p ∈ s.pool) (ht : t ∈ s'.pool) (hchild : Child H p t) : p ∈ s'.pool := by
  rw [h.pool_eq] at ht ⊢
  exact ⟨hp, fun hmem => ht.2 (h.deleted.closed p hmem t ht.1 hchild)⟩

/-- Some transactions are removed, with what conflicts with them. -/
structure Trimmed (H : Bytes → UInt256) (vtx : List CTransaction) (s s' : CTxMemPool) : Prop where
  sub : s'.pool ⊆ s.pool
  gone : ∀ tx ∈ vtx, tx ∉ s'.pool
  unspent : ∀ tx ∈ vtx, ∀ txin ∈ tx.vin, Unspent txin.prevout s'
  closed : ∀ p ∈ s.pool, ∀ t ∈ s'.pool, Child H p t → p ∈ s'.pool ∨ p ∈ vtx

theorem Trimmed.nil : Trimmed H [] s s where
  sub := subset_rfl
  gone _ hmem := absurd hmem List.not_mem_nil
  unspent _ hmem := absurd hmem List.not_mem_nil
  closed _ hp _ _ _ := .inl hp

theorem Trimmed.cons (h : Trimmed H [tx] s s') (h' : Trimmed H vtx s' s'') :
    Trimmed H (tx :: vtx) s s'' where
  sub := h'.sub.trans h.sub
  gone := List.forall_mem_cons.mpr
    ⟨fun hmem => h.gone tx (List.mem_singleton_self _) (h'.sub hmem), h'.gone⟩
  unspent := List.forall_mem_cons.mpr
    ⟨fun txin hin => (h.unspent tx (List.mem_singleton_self _) txin hin).mono h'.sub, h'.unspent⟩
  closed p hp t ht hchild := by
    rcases h.closed p hp t (h'.sub ht) hchild with hp | hp
    · exact (h'.closed p hp t ht hchild).imp_right fun hmem => List.mem_cons_of_mem _ hmem
    · exact .inr (List.mem_singleton.mp hp ▸ List.mem_cons_self)

theorem connectPoolTx_spec (hh : Hashes H txs rank) (h : Indexed H txs s) (htx : tx ∈ txs)
    (removed : List CTransaction) : ∃ s' removed', connectPoolTx H (s, removed) tx =
      some (s', removed') ∧ Indexed H txs s' ∧ Trimmed H [tx] s s' := by
  have hone : ∃ s₁ l, s.remove H tx [] false = some (s₁, l) ∧ Indexed H txs s₁ ∧
      s₁.pool ⊆ s.pool ∧ tx ∉ s₁.pool ∧ ∀ p ∈ s.pool, p ≠ tx → p ∈ s₁.pool := by
    rcases removeOne_cases h hh htx [] with ⟨hmem, hone⟩ | ⟨hmem, hone⟩
    · have hpool := pool_eq_rest (h.entries_erase hmem)
      refine ⟨s.erase H tx, [tx], congrArg some hone, h.erase hmem, ?_, ?_, fun p hp hne => ?_⟩
      · rw [hpool]
        exact fun t ht => ht.1
      · rw [hpool]
        exact fun ht => ht.2 List.mem_cons_self
      · rw [hpool]
        exact ⟨hp, fun hmem => hne (List.mem_singleton.mp hmem)⟩
    · exact ⟨s, [], congrArg some hone, h, subset_rfl, hmem, fun p hp _ => hp⟩
  obtain ⟨s₁, l, hremove, h₁, hsub₁, hgone₁, hkept₁⟩ := hone
  obtain ⟨s', l', hrun, h', hrem, hleft⟩ := removeConflicts_spec tx hh tx.vin removed h₁
  have hgone : tx ∉ s'.pool := fun hmem => hgone₁ (hrem.sub hmem)
  refine ⟨s', l' ++ removed, ?_, h', hrem.sub.trans hsub₁, ?_, ?_, fun p hp t ht hchild => ?_⟩
  · unfold connectPoolTx
    rw [hremove]
    exact hrun
  · intro t ht
    rw [List.mem_singleton.mp ht]
    exact hgone
  · intro t ht txin hin t' ht' txin' hin' heq
    rw [List.mem_singleton.mp ht] at hin
    have hmem : t' ∈ conflicts tx tx.vin s' :=
      ⟨ht', fun heq => hgone (heq ▸ ht'), txin, hin, txin', hin', heq⟩
    rw [hleft] at hmem
    exact hmem
  · by_cases heq : p = tx
    · exact .inr (List.mem_singleton.mpr heq)
    · exact .inl (hrem.closed (hkept₁ p hp heq) ht hchild)

theorem connectPool_spec (hh : Hashes H txs rank) : ∀ {vtx : List CTransaction} {s : CTxMemPool}
    (removed : List CTransaction), Indexed H txs s → (∀ tx ∈ vtx, tx ∈ txs) →
    ∃ s' removed', vtx.foldlM (connectPoolTx H) (s, removed) = some (s', removed') ∧
      Indexed H txs s' ∧ Trimmed H vtx s s'
  | [], s, removed, h, _ => ⟨s, removed, rfl, h, Trimmed.nil⟩
  | tx :: vtx, s, removed, h, hvtx => by
    rw [List.forall_mem_cons] at hvtx
    obtain ⟨s₁, removed₁, hrun₁, h₁, htrim₁⟩ := connectPoolTx_spec hh h hvtx.1 removed
    obtain ⟨s', removed', hrun, h', htrim⟩ := connectPool_spec hh removed₁ h₁ hvtx.2
    refine ⟨s', removed', ?_, h', htrim₁.cons htrim⟩
    rw [List.foldlM_cons, hrun₁]
    exact hrun

/-- What is left after a block is connected spends what was available before, or outputs of the
block. -/
theorem Supported.connect {nHeight : ℕ} (h : Supported H txs view [] s)
    (hext : Extends H vtx nHeight view view') (h' : Indexed H txs s') (htrim : Trimmed H vtx s s') :
    Supported H txs view' [] s' where
  indexed := h'
  notCoinBase t ht := h.notCoinBase t (htrim.sub ht)
  inputs t ht txin hin := by
    have hspent : ∀ tx ∈ vtx, txin.prevout ∉ tx.spends := by
      intro tx hmem hspends
      obtain ⟨txin', hin', heq⟩ := CTransaction.mem_spends hspends
      exact htrim.unspent tx hmem txin' hin' t ht txin hin heq.symm
    rcases h.inputs t (htrim.sub ht) txin hin with ⟨p, hp, hmakes⟩ | hout
    · rcases htrim.closed p (hp.resolve_right List.not_mem_nil) t ht (hmakes.child hin) with hp | hp
      · exact .inl ⟨p, .inl hp, hmakes⟩
      · obtain ⟨txout, hout⟩ := Option.isSome_iff_exists.mp hmakes.2
        rw [hext.new p hp _ _ hmakes.1 hout hspent]
        exact .inr rfl
    · obtain ⟨txout, hout⟩ := Option.isSome_iff_exists.mp hout
      rw [hext.old _ _ hout hspent]
      exact .inr rfl

/-! ## Accepting -/

/-- The pool behind the tip : outputs of the tip, or of pooled transactions. -/
theorem output_over {tip : FlatView} {o : COutPoint} {txout : CTxOut} (h : Indexed H txs s)
    (hout : (s.over tip).output o = some txout) :
    tip.output o = some txout ∨ ∃ p ∈ s.pool, Makes H p o := by
  obtain ⟨coins, hcoins, hout⟩ := FlatView.output_eq_some.mp hout
  change (tip.coins o.hash).or _ = some coins at hcoins
  cases htip : tip.coins o.hash with
  | some coins' =>
    rw [htip, Option.some_or, Option.some.injEq] at hcoins
    exact .inl (FlatView.output_eq_some.mpr ⟨coins', htip, hcoins ▸ hout⟩)
  | none =>
    rw [htip, Option.none_or] at hcoins
    obtain ⟨entry, hentry, rfl⟩ := Option.map_eq_some_iff.mp hcoins
    rw [CCoins.output_ofTx_eq] at hout
    exact .inr ⟨entry.tx, ⟨_, _, hentry, rfl⟩, h.hash _ _ hentry, by rw [hout]; rfl⟩

theorem mem_pool_addUnchecked (h : Indexed H txs s) (hnew : s.mapTx[tx.getHash H]? = none) :
    t ∈ (s.addUnchecked (tx.getHash H) ⟨tx⟩).pool ↔ t = tx ∨ t ∈ s.pool := by
  have hget : ∀ hash : UInt256, (s.addUnchecked (tx.getHash H) ⟨tx⟩).mapTx[hash]? =
      if hash = tx.getHash H then some ⟨tx⟩ else s.mapTx[hash]? := by
    intro hash
    change (s.mapTx.insert _ _)[hash]? = _
    rw [congrFun Table.getElem?_insert_eq hash, Function.update_apply]
  constructor
  · rintro ⟨hash, entry, hentry, rfl⟩
    rw [hget] at hentry
    split at hentry
    · cases hentry
      exact .inl rfl
    · exact .inr ⟨hash, entry, hentry, rfl⟩
  · rintro (rfl | ht)
    · exact ⟨_, _, by rw [hget, if_pos rfl], rfl⟩
    · have hmem := h.mem_pool.mp ht
      have hne : t.getHash H ≠ tx.getHash H := by
        intro heq
        rw [heq, hnew] at hmem
        cases hmem
      exact ⟨_, _, by rw [hget, if_neg hne, hmem], rfl⟩

theorem Indexed.accept {fLimitFree fRejectInsaneFee : Bool} (h : Indexed H txs s) (htx : tx ∈ txs)
    (hacc : Accepted H env view s tx fLimitFree fRejectInsaneFee) :
    Indexed H txs (s.addUnchecked (tx.getHash H) ⟨tx⟩) := by
  obtain ⟨hcheck, -, hnew, hfree⟩ := checkLoose_eq_ok hacc.loose
  exact h.addUnchecked htx (checkTransaction_eq_ok hcheck).prevouts hfree hnew

theorem Supported.accept {fLimitFree fRejectInsaneFee : Bool} (h : Supported H txs view extra s)
    (htx : tx ∈ txs) (hacc : Accepted H env view s tx fLimitFree fRejectInsaneFee) :
    Supported H txs view extra (s.addUnchecked (tx.getHash H) ⟨tx⟩) := by
  obtain ⟨-, hcb, hnew, -⟩ := checkLoose_eq_ok hacc.loose
  have hpool : ∀ t, t ∈ (s.addUnchecked (tx.getHash H) ⟨tx⟩).pool ↔ t = tx ∨ t ∈ s.pool :=
    fun t => mem_pool_addUnchecked h.indexed hnew
  have hinputs := (FlatView.haveInputs_iff hcb).mp (checkSpends_eq_ok hacc.spends).1
  refine ⟨h.indexed.accept htx hacc, fun t ht => ?_, fun t ht txin hin => ?_⟩
  · rcases (hpool t).mp ht with rfl | ht
    · exact hcb
    · exact h.notCoinBase t ht
  · rcases (hpool t).mp ht with rfl | ht
    · obtain ⟨txout, hout⟩ := hinputs txin hin
      rcases output_over h.indexed hout with hout | ⟨p, hp, hmakes⟩
      · exact .inr (by rw [hout]; rfl)
      · exact .inl ⟨p, .inl ((hpool p).mpr (.inr hp)), hmakes⟩
    · rcases h.inputs t ht txin hin with ⟨p, hp, hmakes⟩ | hout
      · exact .inl ⟨p, hp.imp_left fun hp => (hpool p).mpr (.inr hp), hmakes⟩
      · exact .inr hout

/-- The inputs of a transaction that spend coinbases : these are there, and mature. -/
def Matured (H : Bytes → UInt256) (txs : Set CTransaction) (env : AcceptEnv) (view : FlatView)
    (t : CTransaction) : Prop :=
  ∀ txin ∈ t.vin, ∀ cb ∈ txs, cb.isCoinBase = true → cb.getHash H = txin.prevout.hash →
    ∃ coins, view.unspent txin.prevout.hash = some coins ∧ (coins.fCoinBase = true →
      ∃ p, env.connect.mapBlockIndex[view.best]? = some p ∧
        coins.nHeight + COINBASE_MATURITY ≤ p.nHeight + 1)

/-- An input that passes spends no coinbase that is not mature. -/
theorem matured_of_checkInput {nSpendHeight nValueIn r : ℤ} {txin : CTxIn} {coins : CCoins}
    (h : checkInput view nSpendHeight nValueIn txin = .ok r)
    (hcoins : view.coins txin.prevout.hash = some coins) (hcb : coins.fCoinBase = true) :
    coins.nHeight + COINBASE_MATURITY ≤ nSpendHeight := by
  unfold checkInput at h
  rw [hcoins] at h
  have hmature := (bind_stopIf_eq_ok.mp h).1
  have hle : ¬nSpendHeight - coins.nHeight < COINBASE_MATURITY := fun hlt => hmature ⟨hcb, hlt⟩
  omega

theorem exists_checkInput {nSpendHeight : ℤ} : ∀ {vin : List CTxIn} {n m : ℤ},
    vin.foldlM (checkInput view nSpendHeight) n = .ok m → ∀ txin ∈ vin,
      ∃ k r, checkInput view nSpendHeight k txin = .ok r
  | [], _, _, _ => fun _ hin => absurd hin List.not_mem_nil
  | txin :: vin, n, m, h => by
    rw [List.foldlM_cons] at h
    obtain ⟨k, hk, h⟩ := Outcome.bind_eq_ok.mp h
    exact List.forall_mem_cons.mpr ⟨⟨n, k, hk⟩, exists_checkInput h⟩

theorem Supported.matured {fLimitFree fRejectInsaneFee : Bool} (h : Supported H txs view extra s)
    (hinj : Set.InjOn (CTransaction.getHash H) txs)
    (hacc : Accepted H env view s tx fLimitFree fRejectInsaneFee) : Matured H txs env view tx := by
  intro txin hin cb hcb hcoinbase hhash
  have htxcb := (checkLoose_eq_ok hacc.loose).2.1
  obtain ⟨hinputs, checks, hchecks⟩ := checkSpends_eq_ok hacc.spends
  obtain ⟨txout, hout⟩ := (FlatView.haveInputs_iff htxcb).mp hinputs txin hin
  have hout' : view.output txin.prevout = some txout := by
    rcases output_over h.indexed hout with hout | ⟨p, hp, hmakes⟩
    · exact hout
    · -- a coinbase is not pooled
      have heq := hinj (h.indexed.mem p hp) hcb (hmakes.1.trans hhash.symm)
      rw [← heq, h.notCoinBase p hp] at hcoinbase
      cases hcoinbase
  obtain ⟨coins, hcoins, hout'⟩ := FlatView.output_eq_some.mp hout'
  refine ⟨coins, FlatView.unspent_of_output hout' hcoins, fun hmade => ?_⟩
  unfold checkInputs at hchecks
  rw [htxcb, if_neg (by decide)] at hchecks
  obtain ⟨-, hchecks⟩ := bind_stopIf_eq_ok.mp hchecks
  split at hchecks
  · cases hchecks
  rename_i p hindex
  obtain ⟨⟨⟩, hamounts, -⟩ := Outcome.bind_eq_ok.mp hchecks
  obtain ⟨n, hloop, -⟩ := Outcome.bind_eq_ok.mp hamounts
  obtain ⟨k, r, hinput⟩ := exists_checkInput hloop txin hin
  have hover : (s.over view).coins txin.prevout.hash = some coins := by
    change (view.coins _).or _ = _
    rw [hcoins, Option.some_or]
  exact ⟨p, hindex, matured_of_checkInput hinput hover hmade⟩

/-! ## Disconnecting -/

theorem disconnectPoolTx_cases (h : disconnectPoolTx H env view s tx = some s')
    (hcb : tx.isCoinBase = false) :
    (Accepted H env view s tx false false ∧ s' = s.addUnchecked (tx.getHash H) ⟨tx⟩) ∨
      ∃ removed, s.remove H tx [] true = some (s', removed) := by
  unfold disconnectPoolTx at h
  rw [hcb, if_neg (by decide)] at h
  split at h
  · rename_i pool hok
    cases h
    exact .inl (acceptToMemoryPool_eq_ok.mp hok)
  · cases h
  · cases h
  · obtain ⟨⟨pool, removed⟩, hremove, rfl⟩ := Option.map_eq_some_iff.mp h
    exact .inr ⟨removed, hremove⟩

/-- The loop of `DisconnectTip` throws nothing, and follows no pointer that dangles. -/
theorem exists_disconnectPool (hh : Hashes H txs rank) {p : CBlockIndex}
    (hindex : env.connect.mapBlockIndex[view.best]? = some p) : ∀ {vtx : List CTransaction}
    {s : CTxMemPool}, Indexed H txs s → (∀ tx ∈ vtx, tx ∈ txs) →
    ∃ s', disconnectPool H env view vtx s = some s'
  | [], s, _, _ => ⟨s, rfl⟩
  | tx :: vtx, s, h, hvtx => by
    rw [List.forall_mem_cons] at hvtx
    have hfirst : ∃ s₁, disconnectPoolTx H env view s tx = some s₁ ∧ Indexed H txs s₁ := by
      unfold disconnectPoolTx
      split
      · exact ⟨s, rfl, h⟩
      obtain ⟨s₁, l, hrun, h₁, -⟩ := remove_spec hh h hvtx.1 []
      have hremove : (s.remove H tx [] true).map Prod.fst = some s₁ := by
        rw [hrun, Option.map_some]
      cases hresult : acceptToMemoryPool H env view s tx false false with
      | ok pool =>
        obtain ⟨hacc, rfl⟩ := acceptToMemoryPool_eq_ok.mp hresult
        exact ⟨_, rfl, h.accept hvtx.1 hacc⟩
      | error e =>
        rcases acceptToMemoryPool_returns hindex hresult with rfl | ⟨stop, ⟨reject, rfl⟩ | rfl, rfl⟩
        · exact ⟨s₁, hremove, h₁⟩
        · exact ⟨s₁, hremove, h₁⟩
        · exact ⟨s₁, hremove, h₁⟩
    obtain ⟨s₁, hrun₁, h₁⟩ := hfirst
    obtain ⟨s', hrun⟩ := exists_disconnectPool hh hindex h₁ hvtx.2
    refine ⟨s', ?_⟩
    unfold disconnectPool at hrun ⊢
    rw [List.foldlM_cons, hrun₁]
    exact hrun

/-- A transaction of a block that is disconnected is pooled again, or nothing that is left spends
its outputs. -/
theorem Supported.disconnectTx (hh : Hashes H txs rank) (h : Supported H txs view (tx :: extra) s)
    (htx : tx ∈ txs) (hcb : tx.isCoinBase = false)
    (hrun : disconnectPoolTx H env view s tx = some s') :
    Supported H txs view extra s' ∧
      ∀ t ∈ s'.pool, t ∈ s.pool ∨ Matured H txs env view t := by
  rcases disconnectPoolTx_cases hrun hcb with ⟨hacc, rfl⟩ | ⟨removed, hremove⟩
  · have h' := h.accept htx hacc
    have hpool := fun t => mem_pool_addUnchecked (t := t) h.indexed (checkLoose_eq_ok hacc.loose).2.2.1
    refine ⟨⟨h'.indexed, h'.notCoinBase, fun t ht txin hin => ?_⟩, fun t ht => ?_⟩
    · rcases h'.inputs t ht txin hin with ⟨p, hp | hp, hmakes⟩ | hout
      · exact .inl ⟨p, .inl hp, hmakes⟩
      · rcases List.mem_cons.mp hp with rfl | hp
        · exact .inl ⟨p, .inl ((hpool p).mpr (.inl rfl)), hmakes⟩
        · exact .inl ⟨p, .inr hp, hmakes⟩
      · exact .inr hout
    · rcases (hpool t).mp ht with rfl | ht
      · exact .inr (h.matured hh.injOn hacc)
      · exact .inl ht
  · obtain ⟨s₁, l, hrun₁, h₁, hrem, hleft⟩ := remove_spec hh h.indexed htx []
    obtain ⟨rfl, -⟩ := Prod.mk.inj (Option.some.inj (hrun₁.symm.trans hremove))
    refine ⟨⟨h₁, fun t ht => h.notCoinBase t (hrem.sub ht), fun t ht txin hin => ?_⟩,
      fun t ht => .inl (hrem.sub ht)⟩
    rcases h.inputs t (hrem.sub ht) txin hin with ⟨p, hp | hp, hmakes⟩ | hout
    · exact .inl ⟨p, .inl (hrem.closed hp ht (hmakes.child hin)), hmakes⟩
    · rcases List.mem_cons.mp hp with rfl | hp
      · exact absurd (hmakes.child hin) (hleft.child t ht)
      · exact .inl ⟨p, .inr hp, hmakes⟩
    · exact .inr hout

theorem Supported.disconnectTxs (hh : Hashes H txs rank) : ∀ {vtx : List CTransaction}
    {s s' : CTxMemPool}, Supported H txs view (vtx ++ extra) s →
    (∀ tx ∈ vtx, tx ∈ txs ∧ tx.isCoinBase = false) →
    vtx.foldlM (disconnectPoolTx H env view) s = some s' →
    Supported H txs view extra s' ∧ ∀ t ∈ s'.pool, t ∈ s.pool ∨ Matured H txs env view t
  | [], s, s', h, _, hrun => by
    cases hrun
    exact ⟨h, fun t ht => .inl ht⟩
  | tx :: vtx, s, s', h, hvtx, hrun => by
    rw [List.forall_mem_cons] at hvtx
    rw [List.foldlM_cons] at hrun
    obtain ⟨s₁, hrun₁, hrun⟩ := Option.bind_eq_some_iff.mp hrun
    obtain ⟨h₁, hpool₁⟩ := h.disconnectTx hh hvtx.1.1 hvtx.1.2 hrun₁
    obtain ⟨h', hpool⟩ := h₁.disconnectTxs hh hvtx.2 hrun
    exact ⟨h', fun t ht => (hpool t ht).elim (hpool₁ t) .inr⟩

/-- After a block is disconnected, what is left spends what is available, outputs of the pool, or of
the coinbase, which is not pooled. -/
theorem Supported.disconnect {nHeight : ℕ} (hh : Hashes H txs rank)
    (h : Supported H txs view' [] s) (hext : Extends H vtx nHeight view view')
    (hvtx : ∀ tx ∈ vtx, tx ∈ txs) {cb : CTransaction} {rest : List CTransaction}
    (hcons : vtx = cb :: rest) (hcb : cb.isCoinBase = true)
    (hrest : ∀ tx ∈ rest, tx.isCoinBase = false)
    (hrun : disconnectPool H env view vtx s = some s') :
    Supported H txs view [cb] s' ∧ ∀ t ∈ s'.pool, t ∈ s.pool ∨ Matured H txs env view t := by
  subst hcons
  have hsupported : Supported H txs view (rest ++ [cb]) s := by
    refine ⟨h.indexed, h.notCoinBase, fun t ht txin hin => ?_⟩
    rcases h.inputs t ht txin hin with ⟨p, hp, hmakes⟩ | hout
    · exact .inl ⟨p, .inl (hp.resolve_right List.not_mem_nil), hmakes⟩
    · obtain ⟨txout, hout⟩ := Option.isSome_iff_exists.mp hout
      rcases hext.source _ _ hout with ⟨p, hp, hhash, hmade⟩ | hout
      · refine .inl ⟨p, .inr ?_, hhash, by rw [hmade]; rfl⟩
        exact List.mem_append.mpr ((List.mem_cons.mp hp).symm.imp_right List.mem_singleton.mpr)
      · exact .inr (by rw [hout]; rfl)
  unfold disconnectPool at hrun
  rw [List.foldlM_cons] at hrun
  have hfirst : disconnectPoolTx H env view s cb = some s := by
    unfold disconnectPoolTx
    rw [hcb, if_pos rfl]
  rw [hfirst] at hrun
  exact hsupported.disconnectTxs hh
    (fun tx hmem => ⟨hvtx tx (List.mem_cons_of_mem _ hmem), hrest tx hmem⟩) hrun

end CTxMemPool

/-! ## Runs -/

theorem FlatView.same_writeChainState (fWrite : Bool) (view : FlatView) :
    view.Same (view.writeChainState fWrite) := by
  unfold FlatView.writeChainState
  split
  · refine ⟨rfl, fun txid => ?_⟩
    unfold FlatView.unspent
    rw [Option.filter_filter]
    simp only [Bool.and_self]
  · exact FlatView.same_equivalence.refl view

namespace ChainAndPool

variable {H : Bytes → UInt256} {params : ChainParams} {txs : Set CTransaction}
  {rank : UInt256 → ℕ} {start : ChainTip} {s s' : ChainAndPool H params} {top : ℕ}

/-- A tip that is loaded : its coins are as they are stored, and those of transactions. -/
structure Loaded (H : Bytes → UInt256) (txs : Set CTransaction) (start : ChainTip) : Prop where
  stored : start.view.Stored
  outputs : ∀ tx ∈ txs, ∀ (o : COutPoint) (txout : CTxOut), tx.getHash H = o.hash →
    start.view.output o = some txout → tx.output o.n.toNat = some txout

/-- Transactions are accepted, and blocks connected and disconnected, of a set of transactions, where
the tip stays less than `COINBASE_MATURITY` blocks below the highest that there was. -/
inductive Run (start : ChainTip) (txs : Set CTransaction) : ℕ → ChainAndPool H params → Prop
  | start : Run start txs start.tip.nHeight ⟨⟨start, []⟩, {}⟩
  | accept {top : ℕ} {s : ChainAndPool H params} {env : AcceptEnv} {tx : CTransaction}
      {fLimitFree fRejectInsaneFee : Bool} (h : Run start txs top s) (htx : tx ∈ txs)
      (henv : s.Knows env) : Run start txs top (s.accept env tx fLimitFree fRejectInsaneFee)
  | connectTip {top : ℕ} {s s' : ChainAndPool H params} {c : BlockConnection H params}
      {fWrite : Bool} (h : Run start txs top s) (hvtx : ∀ tx ∈ c.block.vtx, tx ∈ txs)
      (hstep : s.connectTip c fWrite = some s') : Run start txs (max top s'.tip.nHeight) s'
  | disconnectTip {top : ℕ} {s s' : ChainAndPool H params} {env : AcceptEnv} {fWrite : Bool}
      (h : Run start txs top s) (hstep : s.disconnectTip env fWrite = some s')
      (henv : s'.Knows env) (hdeep : (top : ℤ) < s'.tip.nHeight + COINBASE_MATURITY) :
      Run start txs top s'

/-- What holds in every state of a run. -/
structure Inv (start : ChainTip) (txs : Set CTransaction) (top : ℕ) (s : ChainAndPool H params) :
    Prop where
  follows : (tipSystem H params).Follows ChainTip.Same start s.chain
  blocks : ∀ item ∈ s.chain.stack, ∀ tx ∈ item.1.block.vtx, tx ∈ txs
  supported : CTxMemPool.Supported H txs s.pcoinsTip [] s.mempool
  mature : ∀ t ∈ s.mempool.pool, ∀ txin ∈ t.vin, ∀ item ∈ s.chain.stack,
    ∀ txNew ∈ item.1.block.vtx.head?, txNew.getHash H = txin.prevout.hash →
      item.1.pindex.nHeight + COINBASE_MATURITY ≤ top + 1
  top : s.tip.nHeight ≤ top

theorem same_written (fWrite : Bool)
    (chain : Rollback.Stacked ChainTip (BlockConnection H params) (List (List CTxInUndo))) :
    ChainTip.Same chain.state (written fWrite chain).state :=
  ⟨rfl, FlatView.same_writeChainState _ _⟩

theorem follows_written {fWrite : Bool}
    {chain : Rollback.Stacked ChainTip (BlockConnection H params) (List (List CTxInUndo))}
    (h : (tipSystem H params).Follows ChainTip.Same start chain) :
    (tipSystem H params).Follows ChainTip.Same start (written fWrite chain) := by
  obtain ⟨state, hstands, hsame⟩ := h
  have hrestores : (tipSystem H params).Restores (fun s => s.view.Stored) ChainTip.Same :=
    tipSystem_restores
  exact ⟨state, hstands, hrestores.equivalence.trans hsame (same_written fWrite chain)⟩

theorem Loaded.coinsOf (h : Loaded H txs start) (hinj : Set.InjOn (CTransaction.getHash H) txs)
    (hfollows : (tipSystem H params).Follows ChainTip.Same start s.chain)
    (hblocks : ∀ item ∈ s.chain.stack, ∀ tx ∈ item.1.block.vtx, tx ∈ txs) :
    CoinsOf txs s.chain.stack s.pcoinsTip := by
  obtain ⟨state, hstands, -, hsame⟩ := hfollows
  refine (coinsOf_of_stands hinj ⟨h.outputs, ?_⟩ hstands hblocks).congr hsame.coins
  exact fun item hmem => absurd hmem List.not_mem_nil

/-- Coinbases of the chain that are spent by accepted transactions are mature. -/
theorem Loaded.mature (h : Loaded H txs start) (hinj : Set.InjOn (CTransaction.getHash H) txs)
    (hfollows : (tipSystem H params).Follows ChainTip.Same start s.chain)
    (hblocks : ∀ item ∈ s.chain.stack, ∀ tx ∈ item.1.block.vtx, tx ∈ txs)
    (htop : s.tip.nHeight ≤ top) {env : AcceptEnv} (henv : s.Knows env) {t : CTransaction}
    (ht : CTxMemPool.Matured H txs env s.pcoinsTip t) :
    ∀ txin ∈ t.vin, ∀ item ∈ s.chain.stack, ∀ txNew ∈ item.1.block.vtx.head?,
      txNew.getHash H = txin.prevout.hash →
      item.1.pindex.nHeight + COINBASE_MATURITY ≤ top + 1 := by
  intro txin hin item hitem txNew hnew hhash
  obtain ⟨state, hstands, -⟩ := id hfollows
  obtain ⟨hmem, hcb⟩ := (checkedBlock_of_stands hstands item hitem).isCoinBase hnew
  obtain ⟨coins, hcoins, hmature⟩ := ht txin hin txNew (hblocks item hitem txNew hmem) hcb hhash
  rw [← hhash] at hcoins
  obtain ⟨hmade, hheight⟩ :=
    (h.coinsOf hinj hfollows hblocks).coinbases item hitem txNew hnew coins hcoins
  obtain ⟨p, hindex, hle⟩ := hmature hmade
  rw [henv, Option.some.injEq] at hindex
  rw [hindex] at htop
  omega

theorem inv_start :
    Inv start txs start.tip.nHeight (⟨⟨start, []⟩, {}⟩ : ChainAndPool H params) where
  follows := ⟨start, .nil, rfl, FlatView.same_equivalence.refl _⟩
  blocks _ hmem := absurd hmem List.not_mem_nil
  supported := CTxMemPool.Supported.empty
  mature _ _ _ _ _ hmem := absurd hmem List.not_mem_nil
  top := le_rfl

theorem Inv.accept (h : Inv start txs top s) (hload : Loaded H txs start)
    (hinj : Set.InjOn (CTransaction.getHash H) txs) {env : AcceptEnv} (henv : s.Knows env)
    {tx : CTransaction} (htx : tx ∈ txs) (fLimitFree fRejectInsaneFee : Bool) :
    Inv start txs top (s.accept env tx fLimitFree fRejectInsaneFee) := by
  unfold ChainAndPool.accept
  split
  · rename_i pool hok
    obtain ⟨hacc, rfl⟩ := acceptToMemoryPool_eq_ok.mp hok
    refine ⟨h.follows, h.blocks, h.supported.accept htx hacc, fun t ht => ?_, h.top⟩
    have hpool := CTxMemPool.mem_pool_addUnchecked (t := t) h.supported.indexed
      (checkLoose_eq_ok hacc.loose).2.2.1
    rcases hpool.mp ht with rfl | ht
    · exact hload.mature hinj h.follows h.blocks h.top henv (h.supported.matured hinj hacc)
    · exact h.mature t ht
  · exact h

theorem connectTip_cases {c : BlockConnection H params} {fWrite : Bool}
    (h : s.connectTip c fWrite = some s') : ∃ t r pool removed,
      s.chain.state.connectTip c = some (t, r) ∧
      s.mempool.connectPool H c.block.vtx = some (pool, removed) ∧
      s' = ⟨written fWrite ⟨t, (c, r) :: s.chain.stack⟩, pool⟩ := by
  obtain ⟨chain, hstep, h⟩ := Option.bind_eq_some_iff.mp h
  obtain ⟨⟨pool, removed⟩, hpool, h⟩ := Option.bind_eq_some_iff.mp h
  obtain ⟨⟨t, r⟩, happly, rfl⟩ := Option.map_eq_some_iff.mp hstep
  exact ⟨t, r, pool, removed, happly, hpool, (Option.some.inj h).symm⟩

theorem connectTip_of {c : BlockConnection H params} {t : ChainTip} {r : List (List CTxInUndo)}
    {pool : CTxMemPool} {removed : List CTransaction}
    (hconnect : s.chain.state.connectTip c = some (t, r))
    (hpool : s.mempool.connectPool H c.block.vtx = some (pool, removed)) (fWrite : Bool) :
    s.connectTip c fWrite = some ⟨written fWrite ⟨t, (c, r) :: s.chain.stack⟩, pool⟩ :=
  Option.bind_eq_some_iff.mpr ⟨_, Rollback.System.step_forth hconnect,
    Option.bind_eq_some_iff.mpr ⟨_, hpool, rfl⟩⟩

theorem disconnectTip_of {c : BlockConnection H params} {t : ChainTip} {r : List (List CTxInUndo)}
    {stack : List (BlockConnection H params × List (List CTxInUndo))} {pool : CTxMemPool}
    {env : AcceptEnv} {fWrite : Bool} (hstack : s.chain.stack = (c, r) :: stack)
    (hrevert : s.chain.state.disconnectTip c r = some t)
    (hpool : s.mempool.disconnectPool H env (t.view.writeChainState fWrite) c.block.vtx =
      some pool) : s.disconnectTip env fWrite = some ⟨written fWrite ⟨t, stack⟩, pool⟩ := by
  obtain ⟨⟨now, stack'⟩, mempool⟩ := s
  cases hstack
  exact Option.bind_eq_some_iff.mpr ⟨_, Rollback.System.step_back hrevert,
    Option.bind_eq_some_iff.mpr ⟨_, hpool, rfl⟩⟩

theorem Inv.connectTip (h : Inv start txs top s) (hload : Loaded H txs start)
    (hh : CTxMemPool.Hashes H txs rank) {c : BlockConnection H params} {fWrite : Bool}
    (hvtx : ∀ tx ∈ c.block.vtx, tx ∈ txs) (hstep : s.connectTip c fWrite = some s') :
    Inv start txs (max top s'.tip.nHeight) s' := by
  obtain ⟨t, r, pool, removed, hconnect, hpool, rfl⟩ := connectTip_cases hstep
  obtain ⟨hcheck, hext⟩ := ChainTip.connectTip_extends hconnect
  obtain ⟨pool', removed', hrun, hindexed, htrim⟩ :=
    CTxMemPool.connectPool_spec hh [] h.supported.indexed hvtx
  obtain ⟨rfl, rfl⟩ := Prod.mk.inj (Option.some.inj (hrun.symm.trans hpool))
  have hfollows : (tipSystem H params).Follows ChainTip.Same start
      ⟨t, (c, r) :: s.chain.stack⟩ :=
    h.follows.step tipSystem_restores hload.stored (Rollback.System.step_forth hconnect)
  have hsame := same_written fWrite ⟨t, (c, r) :: s.chain.stack⟩
  refine ⟨follows_written hfollows, ?_, ?_, fun t' ht' txin hin => ?_, le_max_right _ _⟩
  · exact List.forall_mem_cons.mpr ⟨hvtx, h.blocks⟩
  · exact h.supported.connect (hext.congr (fun _ => rfl) hsame.2.coins) hindexed htrim
  · refine List.forall_mem_cons.mpr ⟨fun txNew hnew hhash => ?_, fun item hitem txNew hnew hhash => ?_⟩
    · -- what is in the pool does not spend the coinbase of the new block
      obtain ⟨hmem, hcb⟩ := hcheck.isCoinBase hnew
      exfalso
      rcases h.supported.inputs t' (htrim.sub ht') txin hin with ⟨p, hp, hmakes⟩ | hout
      · replace hp := hp.resolve_right List.not_mem_nil
        rw [← hh.injOn (h.supported.indexed.mem p hp) (hvtx _ hmem) (hmakes.1.trans hhash.symm),
          h.supported.notCoinBase p hp] at hcb
        cases hcb
      · rw [FlatView.output_eq_none (hhash ▸ hext.fresh _ hmem)] at hout
        cases hout
    · have hle := h.mature t' (htrim.sub ht') txin hin item hitem txNew hnew hhash
      have hmax : top ≤ max top (written fWrite ⟨t, (c, r) :: s.chain.stack⟩).state.tip.nHeight :=
        le_max_left _ _
      change (item.1.pindex.nHeight : ℤ) + COINBASE_MATURITY ≤
        (max top (written fWrite ⟨t, (c, r) :: s.chain.stack⟩).state.tip.nHeight : ℕ) + 1
      omega

/-- What disconnecting the tip leaves. -/
structure Disconnected (txs : Set CTransaction) (start : ChainTip) (env : AcceptEnv)
    (s s' : ChainAndPool H params) (item : BlockConnection H params × List (List CTxInUndo))
    (cb : CTransaction) : Prop where
  stack : s.chain.stack = item :: s'.chain.stack
  coinbase : cb ∈ item.1.block.vtx.head? ∧ cb ∈ item.1.block.vtx ∧ cb.isCoinBase = true
  follows : (tipSystem H params).Follows ChainTip.Same start s'.chain
  supported : CTxMemPool.Supported H txs s'.pcoinsTip [cb] s'.mempool
  fresh : s'.pcoinsTip.unspent (cb.getHash H) = none
  pool : ∀ t ∈ s'.mempool.pool, t ∈ s.mempool.pool ∨ CTxMemPool.Matured H txs env s'.pcoinsTip t
  nHeight : s.tip.nHeight = s'.tip.nHeight + 1
  pindex : item.1.pindex = s.tip

theorem Inv.disconnected (h : Inv start txs top s) (hload : Loaded H txs start)
    (hh : CTxMemPool.Hashes H txs rank) {env : AcceptEnv} {fWrite : Bool}
    (hstep : s.disconnectTip env fWrite = some s') :
    ∃ item cb, Disconnected txs start env s s' item cb := by
  obtain ⟨⟨now, stack⟩, mempool⟩ := s
  match stack with
  | [] => cases hstep
  | (c, r) :: stack =>
    obtain ⟨chain, hback, hstep⟩ := Option.bind_eq_some_iff.mp hstep
    obtain ⟨pool, hpool, hstep⟩ := Option.bind_eq_some_iff.mp hstep
    cases hstep
    obtain ⟨state, hstands, hsame⟩ := h.follows
    cases hstands with
    | cons hstands happly =>
      rename_i before
      have hstored := tipSystem_restores.of_stands hload.stored hstands
      obtain ⟨t, hrevert, hbefore⟩ := tipSystem_restores.restores hstored happly hsame
      have hchain : chain = ⟨t, stack⟩ :=
        Option.some.inj (hback.symm.trans (Rollback.System.step_back hrevert))
      subst hchain
      obtain ⟨hpprev, htip, -⟩ := ChainTip.connectTip_cases happly
      obtain ⟨hcheck, hext⟩ := ChainTip.connectTip_extends happly
      obtain ⟨cb, rest, hvtx, hcb, hrest⟩ := hcheck.coinbase
      have hwritten := same_written fWrite ⟨t, stack⟩
      have hview := FlatView.same_equivalence.trans hbefore.2 hwritten.2
      replace hext := hext.congr hview.coins hsame.2.coins
      have hmem : cb ∈ c.block.vtx := hvtx ▸ List.mem_cons_self
      obtain ⟨hsupported, hpooled⟩ := h.supported.disconnect hh hext
        (h.blocks (c, r) List.mem_cons_self) hvtx hcb hrest hpool
      have hpindex : c.pindex = now.tip := htip.symm.trans hsame.1
      refine ⟨(c, r), cb, rfl, ⟨by rw [hvtx]; rfl, hmem, hcb⟩,
        follows_written ⟨before, hstands, hbefore⟩, hsupported, hext.fresh cb hmem, hpooled, ?_,
        hpindex⟩
      change now.tip.nHeight = t.tip.nHeight + 1
      rw [← hpindex, nHeight_of_pprev hpprev, hbefore.1]

/-- No transaction that is left spends the coinbase of the block. -/
def LeavesCoinbase (H : Bytes → UInt256) (cb : CTransaction) (s : CTxMemPool) : Prop :=
  ∀ t ∈ s.pool, ∀ txin ∈ t.vin, txin.prevout.hash ≠ cb.getHash H

theorem Disconnected.supported_of_leaves {env : AcceptEnv}
    {item : BlockConnection H params × List (List CTxInUndo)} {cb : CTransaction}
    (h : Disconnected txs start env s s' item cb) (hleaves : LeavesCoinbase H cb s'.mempool) :
    CTxMemPool.Supported H txs s'.pcoinsTip [] s'.mempool where
  indexed := h.supported.indexed
  notCoinBase := h.supported.notCoinBase
  inputs t ht txin hin := by
    rcases h.supported.inputs t ht txin hin with ⟨p, hp | hp, hmakes⟩ | hout
    · exact .inl ⟨p, .inl hp, hmakes⟩
    · rw [List.mem_singleton.mp hp] at hmakes
      exact absurd hmakes.1.symm (hleaves t ht txin hin)
    · exact .inr hout

/-- Where the reorganisation is not deep, what spends the coinbase is not mature and not pooled. -/
theorem Disconnected.leaves (h : Inv start txs top s) {env : AcceptEnv}
    {item : BlockConnection H params × List (List CTxInUndo)} {cb : CTransaction}
    (hd : Disconnected txs start env s s' item cb)
    (hdeep : (top : ℤ) < s'.tip.nHeight + COINBASE_MATURITY) :
    LeavesCoinbase H cb s'.mempool := by
  intro t ht txin hin hhash
  have hitem : item ∈ s.chain.stack := hd.stack ▸ List.mem_cons_self
  rcases hd.pool t ht with ht | ht
  · have hle := h.mature t ht txin hin item hitem cb hd.coinbase.1 hhash.symm
    have hheight := hd.nHeight
    rw [hd.pindex] at hle
    omega
  · obtain ⟨coins, hcoins, -⟩ := ht txin hin cb (h.blocks item hitem cb hd.coinbase.2.1)
      hd.coinbase.2.2 hhash.symm
    rw [hhash, hd.fresh] at hcoins
    cases hcoins

theorem Disconnected.blocks (h : Inv start txs top s) {env : AcceptEnv}
    {item : BlockConnection H params × List (List CTxInUndo)} {cb : CTransaction}
    (hd : Disconnected txs start env s s' item cb) :
    ∀ item ∈ s'.chain.stack, ∀ tx ∈ item.1.block.vtx, tx ∈ txs :=
  fun item hmem => h.blocks item (hd.stack ▸ List.mem_cons_of_mem _ hmem)

theorem Inv.disconnectTip (h : Inv start txs top s) (hload : Loaded H txs start)
    (hh : CTxMemPool.Hashes H txs rank) {env : AcceptEnv} {fWrite : Bool}
    (hstep : s.disconnectTip env fWrite = some s') (henv : s'.Knows env)
    (hdeep : (top : ℤ) < s'.tip.nHeight + COINBASE_MATURITY) : Inv start txs top s' := by
  obtain ⟨item, cb, hd⟩ := h.disconnected hload hh hstep
  have htop : s'.tip.nHeight ≤ top := by
    have hheight := hd.nHeight
    have htop := h.top
    omega
  refine ⟨hd.follows, hd.blocks h, hd.supported_of_leaves (hd.leaves h hdeep), fun t ht => ?_,
    htop⟩
  rcases hd.pool t ht with ht | ht
  · exact fun txin hin item hmem =>
      h.mature t ht txin hin item (hd.stack ▸ List.mem_cons_of_mem _ hmem)
  · exact hload.mature hh.injOn hd.follows (hd.blocks h) htop henv ht

theorem Run.inv (hload : Loaded H txs start) (hh : CTxMemPool.Hashes H txs rank)
    (h : Run start txs top s) : Inv start txs top s := by
  induction h with
  | start => exact inv_start
  | accept _ htx henv ih => exact ih.accept hload hh.injOn henv htx _ _
  | connectTip _ hvtx hstep ih => exact ih.connectTip hload hh hvtx hstep
  | disconnectTip _ hstep henv hdeep ih => exact ih.disconnectTip hload hh hstep henv hdeep

/-- In every state of a run in which the tip stays less than `COINBASE_MATURITY` blocks below the
highest that there was, no assertion of `check` fails. Another block is connected if its coins can
be, and the last one is disconnected. -/
theorem mempool_of_run (hload : Loaded H txs start) (hh : CTxMemPool.Hashes H txs rank)
    (h : Run start txs top s) : s.mempool.check H s.pcoinsTip = true ∧
    (∀ (c : BlockConnection H params) (fWrite : Bool), (∀ tx ∈ c.block.vtx, tx ∈ txs) →
      (s.chain.state.connectTip c).isSome = true → (s.connectTip c fWrite).isSome = true) ∧
    ∀ (env : AcceptEnv) (fWrite : Bool), s.chain.stack ≠ [] →
      (∀ chain, (tipSystem H params).step s.chain .back = some chain →
        env.connect.mapBlockIndex[chain.state.view.best]? = some chain.state.tip) →
      (s.disconnectTip env fWrite).isSome = true := by
  have hinv := h.inv hload hh
  refine ⟨hinv.supported.check hh.injOn
    (hload.coinsOf hh.injOn hinv.follows hinv.blocks).outputs, fun c fWrite hvtx hconnect => ?_,
    fun env fWrite hne hindex => ?_⟩
  · obtain ⟨⟨t, r⟩, hconnect⟩ := Option.isSome_iff_exists.mp hconnect
    obtain ⟨pool, removed, hrun, -⟩ :=
      CTxMemPool.connectPool_spec hh [] hinv.supported.indexed hvtx
    rw [connectTip_of hconnect hrun]
    rfl
  · obtain ⟨⟨now, stack⟩, mempool⟩ := s
    match stack with
    | [] => exact absurd rfl hne
    | item :: stack =>
      obtain ⟨state, hstands, hsame⟩ := hinv.follows
      obtain ⟨before, t, -, hrevert, -⟩ :=
        tipSystem_restores.exists_revert hload.stored hstands hsame
      have hbest := hindex _ (Rollback.System.step_back hrevert)
      rw [(same_written fWrite ⟨t, stack⟩).2.best] at hbest
      obtain ⟨pool, hpool⟩ := CTxMemPool.exists_disconnectPool hh hbest hinv.supported.indexed
        (hinv.blocks item List.mem_cons_self)
      rw [disconnectTip_of rfl hrevert hpool]
      rfl

/-- After another block is disconnected, at any depth, no assertion fails if and only if no
transaction that is left in the pool spends the coinbase of this block. -/
theorem check_disconnectTip_iff (hload : Loaded H txs start) (hh : CTxMemPool.Hashes H txs rank)
    (h : Run start txs top s) {env : AcceptEnv} {fWrite : Bool}
    (hstep : s.disconnectTip env fWrite = some s') :
    ∃ item cb, s.chain.stack = item :: s'.chain.stack ∧ item.1.block.vtx.head? = some cb ∧
      (s'.mempool.check H s'.pcoinsTip = true ↔
        ∀ t ∈ s'.mempool.pool, ∀ txin ∈ t.vin, txin.prevout.hash ≠ cb.getHash H) := by
  have hinv := h.inv hload hh
  obtain ⟨item, cb, hd⟩ := hinv.disconnected hload hh hstep
  refine ⟨item, cb, hd.stack, hd.coinbase.1, fun hcheck t ht txin hin hhash => ?_, fun hleaves => ?_⟩
  · have hmem : cb ∈ txs := hinv.blocks item (hd.stack ▸ List.mem_cons_self) cb hd.coinbase.2.1
    rcases CTxMemPool.inputs_of_check hcheck hd.supported.indexed ht hin with ⟨p, hp, hphash⟩ | hout
    · -- the coinbase is not pooled
      have hcb := hd.supported.notCoinBase p hp
      rw [hh.injOn (hd.supported.indexed.mem p hp) hmem (hphash.trans hhash), hd.coinbase.2.2] at hcb
      cases hcb
    · rw [FlatView.output_eq_none (hhash ▸ hd.fresh)] at hout
      cases hout
  · exact (hd.supported_of_leaves hleaves).check hh.injOn
      (hload.coinsOf hh.injOn hd.follows (hd.blocks hinv)).outputs

end ChainAndPool

/-! ## A run -/

/-- A transaction whose hash is 6, which spends an output of one whose hash is 9. -/
def paymentTx : CTransaction :=
  ⟨1, [⟨⟨9, 0⟩, [], 0⟩], [⟨40, List.replicate 23 0x51 ++ [5]⟩], 0⟩

/-- The genesis block, with this output. -/
def loadedView : FlatView where
  coins txid := if txid = 9 then some ⟨false, [⟨50, [0x51]⟩], 1, 1⟩ else none
  best := genesisView.best

def loadedTip : ChainTip := ⟨.root sampleGenesis, loadedView⟩

def paymentEnv : AcceptEnv where
  connect := { connectEnv with
    mapBlockIndex := (∅ : Std.ExtTreeMap UInt256 CBlockIndex).insert genesisView.best
      (.root sampleGenesis)
    verifyScript := fun _ => true }
  nChainHeight := 0
  fees := ⟨1000, 1000⟩
  hashes := lengthHashes
  checkSig _ _ _ := true
  fFreeLimited := false

def paymentTxs : Set CTransaction := {sampleCoinbase, paymentTx}

theorem hash_paymentTx : paymentTx.getHash nonceHash = 6 := by decide

theorem hash_sampleCoinbase : sampleCoinbase.getHash nonceHash = 1 := by decide

theorem hashes_paymentTxs : CTxMemPool.Hashes nonceHash paymentTxs fun hash =>
    if hash = 0 then 0 else if hash = 6 then 2 else 1 where
  injOn := by
    rintro a (rfl | rfl) b (rfl | rfl) heq
    · rfl
    · exact absurd heq (by decide)
    · exact absurd heq (by decide)
    · rfl
  lt := by
    rintro tx (rfl | rfl)
    · decide
    · decide

theorem loaded_loadedTip : ChainAndPool.Loaded nonceHash paymentTxs loadedTip where
  stored := by
    intro txid coins hcoins
    obtain ⟨hget, -⟩ := FlatView.unspent_eq_some.mp hcoins
    change (if txid = 9 then _ else none) = some coins at hget
    split at hget
    · cases hget
      exact ⟨by decide, by decide, by decide, by decide⟩
    · cases hget
  outputs := by
    intro tx htx o txout hhash hout
    have hne : o.hash ≠ 9 := by
      rw [← hhash]
      rcases htx with rfl | rfl
      · rw [hash_sampleCoinbase]
        decide
      · rw [hash_paymentTx]
        decide
    have hnone : loadedTip.view.coins o.hash = none := if_neg hne
    unfold FlatView.output at hout
    rw [hnone] at hout
    cases hout

def paymentPool : CTxMemPool :=
  CTxMemPool.addUnchecked (paymentTx.getHash nonceHash) ⟨paymentTx⟩ {}

theorem accept_paymentTx : acceptToMemoryPool nonceHash paymentEnv loadedView {} paymentTx true
    true = .ok paymentPool := by
  refine acceptToMemoryPool_eq_ok.mpr ⟨⟨?_, ?_, ?_, ?_⟩, rfl⟩
  · rfl
  · rfl
  · decide
  · rfl

namespace ChainAndPool

/-- The payment is pooled, the first block is connected, and disconnected again. -/
def pooledState : ChainAndPool nonceHash (chainParams .regTest) := ⟨⟨loadedTip, []⟩, paymentPool⟩

def connectedState : ChainAndPool nonceHash (chainParams .regTest) :=
  ⟨⟨⟨firstIndex, withFirst loadedView⟩, [(firstConnection, [])]⟩, paymentPool⟩

def disconnectedState : ChainAndPool nonceHash (chainParams .regTest) :=
  ⟨⟨⟨.root sampleGenesis, withoutFirst (withFirst loadedView)⟩, []⟩, paymentPool⟩

theorem connectTip_pooledState :
    pooledState.connectTip firstConnection false = some connectedState := by
  have hconnect : pooledState.chain.state.connectTip firstConnection =
      some (⟨firstIndex, withFirst loadedView⟩, []) := connectTip_first rfl rfl
  have hpool : pooledState.mempool.connectPool nonceHash firstConnection.block.vtx =
      some (paymentPool, []) := rfl
  rw [connectTip_of hconnect hpool]
  rfl

theorem disconnectTip_connectedState :
    connectedState.disconnectTip paymentEnv false = some disconnectedState := by
  have hrevert : connectedState.chain.state.disconnectTip firstConnection [] =
      some ⟨.root sampleGenesis, withoutFirst (withFirst loadedView)⟩ := disconnectTip_first _
  have hpool : connectedState.mempool.disconnectPool nonceHash paymentEnv
      ((withoutFirst (withFirst loadedView)).writeChainState false) firstConnection.block.vtx =
        some paymentPool := rfl
  rw [disconnectTip_of rfl hrevert hpool]
  rfl

theorem run_connectedState : Run loadedTip paymentTxs 1 connectedState := by
  have haccept : (⟨⟨loadedTip, []⟩, {}⟩ : ChainAndPool nonceHash (chainParams .regTest)).accept
      paymentEnv paymentTx true true = pooledState := by
    unfold ChainAndPool.accept ChainAndPool.pcoinsTip
    dsimp only [loadedTip]
    rw [accept_paymentTx]
    rfl
  have hpooled : Run loadedTip paymentTxs 0 pooledState :=
    haccept ▸ Run.start.accept (Set.mem_insert_of_mem _ rfl) rfl
  exact hpooled.connectTip (fun tx hmem => .inl (List.mem_singleton.mp hmem))
    connectTip_pooledState

/-- After the reorganisation the payment is in the pool, and no assertion fails. -/
theorem mempool_of_run_payment : paymentTx ∈ disconnectedState.mempool.pool ∧
    disconnectedState.mempool.check nonceHash disconnectedState.pcoinsTip = true := by
  refine ⟨⟨paymentTx.getHash nonceHash, ⟨paymentTx⟩, rfl, rfl⟩, (mempool_of_run loaded_loadedTip hashes_paymentTxs
    (run_connectedState.disconnectTip disconnectTip_connectedState rfl (by decide))).1⟩

theorem check_disconnectTip_iff_payment : ∃ item cb,
    connectedState.chain.stack = item :: disconnectedState.chain.stack ∧
    item.1.block.vtx.head? = some cb ∧
    (disconnectedState.mempool.check nonceHash disconnectedState.pcoinsTip = true ↔
      ∀ t ∈ disconnectedState.mempool.pool, ∀ txin ∈ t.vin,
        txin.prevout.hash ≠ cb.getHash nonceHash) :=
  check_disconnectTip_iff loaded_loadedTip hashes_paymentTxs run_connectedState
    disconnectTip_connectedState

end ChainAndPool

end Ticoin
