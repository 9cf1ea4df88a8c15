import Ticoin.AcceptToMemoryPool
import Ticoin.OrphanTx

/-!
# main.cpp : relaying transactions

A "tx" message is accepted to the pool and relayed, and then the orphans that wait for what was
accepted are tried, in a work queue. If an input is missing the transaction becomes an orphan itself.

An orphan is tried, and will be erased, as soon as one of its parents is accepted, whether it is
accepted then or not. For transactions that can be accepted one after the other, parents first, the
pool with some of them decides what becomes of one more (`Acceptable.accept`, `Acceptable.missing`),
and the work queue runs out with no orphan of an accepted parent untried (`Working.processOrphans`).
-/

set_option linter.unusedSectionVars false

namespace Ticoin

open Codec Outcome

/-! ## The tx message -/

/-- What a node reads of its configuration and its chain while it handles a transaction. -/
structure TxRelayEnv where
  accept : AcceptEnv
  /-- `pcoinsTip` -/
  tip : FlatView
  /-- `-maxorphantx` -/
  nMaxOrphanTx : ℕ
  /-- `-banscore` -/
  banscore : ℤ

/-- The state of a node, with what it sent. -/
structure TxNode where
  mempool : CTxMemPool
  orphans : OrphanPool := {}
  mapNodeState : MapNodeState := ∅
  /-- the transactions of `RelayTransaction` -/
  relayed : List CTransaction := []
  /-- the "reject" messages -/
  rejected : List (NodeId × Reject × UInt256) := []

/-- A "tx" message of a peer, with the hashes that evict orphans. -/
structure TxArrival where
  tx : CTransaction
  peer : NodeId
  rnd : ℕ → UInt256

/-- `Misbehaving`. -/
def punish (banscore : ℤ) (peer : NodeId) (howmuch : ℤ) (nodes : MapNodeState) : MapNodeState :=
  match nodes[peer]? with
  | none => nodes
  | some state => nodes.insert peer (NodeStates.misbehaving banscore howmuch state)

/-- The state of the loop over the orphans. The queues have what is left of `vWorkQueue`, and all
of `vEraseQueue`. -/
structure OrphanWork where
  mempool : CTxMemPool
  relayed : List CTransaction
  mapNodeState : MapNodeState
  setMisbehaving : Std.ExtTreeSet NodeId := ∅
  vWorkQueue : List UInt256
  vEraseQueue : List UInt256

variable (H : Bytes → UInt256) (env : TxRelayEnv)

/-- One orphan that spends an accepted transaction. To find it, but not in `mapOrphanTransactions`,
reads a peer that was never set. -/
def tryOrphan (orphans : OrphanPool) (w : OrphanWork) (orphanHash : UInt256) : Option OrphanWork :=
  match orphans.mapOrphanTransactions[orphanHash]? with
  | none => none
  | some orphan =>
    let erase := w.vEraseQueue ++ [orphanHash]
    if w.setMisbehaving.contains orphan.fromPeer then some { w with vEraseQueue := erase }
    else
      match acceptToMemoryPool H env.accept env.tip w.mempool orphan.tx true false with
      | .ok pool => some { w with
          mempool := pool
          relayed := w.relayed ++ [orphan.tx]
          vWorkQueue := w.vWorkQueue ++ [orphanHash]
          vEraseQueue := erase }
      | .error (.stop (.throw _)) => none
      | .error (.stop .undefined) => none
      | .error (.stop (.invalid reject)) =>
        if 0 < reject.level then
          -- punish peer that gave us an invalid orphan tx
          some { w with
            mapNodeState := punish env.banscore orphan.fromPeer reject.level w.mapNodeState
            setMisbehaving := w.setMisbehaving.insert orphan.fromPeer
            vEraseQueue := erase }
        else some { w with vEraseQueue := erase }
      | .error _ => some { w with vEraseQueue := erase }

/-- Recursively process any orphan transactions that depended on the accepted ones. -/
def processOrphans (orphans : OrphanPool) : ℕ → OrphanWork → Option OrphanWork
  | 0, w => if w.vWorkQueue = [] then some w else none
  | fuel + 1, w =>
    match w.vWorkQueue with
    | [] => some w
    | hash :: rest =>
      ((Table.members orphans.mapOrphanTransactionsByPrev hash).toList.foldlM
        (tryOrphan H env orphans) { w with vWorkQueue := rest }).bind (processOrphans orphans fuel)

/-- The "tx" message in `ProcessMessage`. Each orphan enters the work queue once at most. -/
def processTx (s : TxNode) (a : TxArrival) : Option TxNode :=
  let hash := a.tx.getHash H
  match acceptToMemoryPool H env.accept env.tip s.mempool a.tx true false with
  | .ok pool => do
    let w ← processOrphans H env s.orphans (s.orphans.mapOrphanTransactions.size + 1)
      { mempool := pool
        relayed := s.relayed ++ [a.tx]
        mapNodeState := s.mapNodeState
        vWorkQueue := [hash]
        vEraseQueue := [hash] }
    return { s with
      mempool := w.mempool
      relayed := w.relayed
      mapNodeState := w.mapNodeState
      orphans := w.vEraseQueue.foldl (fun orphans hash => orphans.eraseOrphanTx hash) s.orphans }
  | .error .missingInputs =>
    let orphans := (s.orphans.addOrphanTx H a.tx a.peer).2
    -- DoS prevention: do not allow mapOrphanTransactions to grow unbounded
    some { s with orphans := (orphans.limitOrphanTxSize env.nMaxOrphanTx a.rnd).2 }
  | .error (.stop (.throw _)) => none
  | .error (.stop .undefined) => none
  | .error (.stop (.invalid reject)) => some { s with
      rejected := s.rejected ++ [(a.peer, reject, hash)]
      mapNodeState := punish env.banscore a.peer reject.level s.mapNodeState }
  | .error (.stop _) => some s

/-! ## A pool and accepted transactions -/

/-- The pool with some transactions. -/
def CTxMemPool.addAll (txs : List CTransaction) (pool : CTxMemPool) : CTxMemPool :=
  txs.foldl (fun pool tx => pool.addUnchecked (tx.getHash H) ⟨tx⟩) pool

variable {H env} {pool : CTxMemPool} {txs A S : List CTransaction} {t u : CTransaction}

theorem CTxMemPool.addAll_concat (txs : List CTransaction) (tx : CTransaction) (pool : CTxMemPool) :
    pool.addAll H (txs ++ [tx]) = (pool.addAll H txs).addUnchecked (tx.getHash H) ⟨tx⟩ := by
  unfold CTxMemPool.addAll
  rw [List.foldl_append]
  rfl

theorem getElem?_addUnchecked (hash h : UInt256) (entry : CTxMemPoolEntry) (pool : CTxMemPool) :
    (pool.addUnchecked hash entry).mapTx[h]? = if h = hash then some entry else pool.mapTx[h]? := by
  change (pool.mapTx.insert _ _)[h]? = _
  rw [congrFun Table.getElem?_insert_eq h, Function.update_apply]

/-- The entries of a pool with transactions whose hashes tell them apart. -/
theorem getElem?_addAll {h : UInt256} {entry : CTxMemPoolEntry} :
    ∀ {txs : List CTransaction} {pool : CTxMemPool},
    (∀ t ∈ txs, ∀ u ∈ txs, t.getHash H = u.getHash H → t = u) →
      ((pool.addAll H txs).mapTx[h]? = some entry ↔ (∃ t ∈ txs, t.getHash H = h ∧ entry = ⟨t⟩) ∨
        (∀ t ∈ txs, t.getHash H ≠ h) ∧ pool.mapTx[h]? = some entry)
  | [], pool, _ => by simp [CTxMemPool.addAll]
  | tx :: txs, pool, hinj => by
    have hinj' : ∀ t ∈ txs, ∀ u ∈ txs, t.getHash H = u.getHash H → t = u := fun t ht u hu =>
      hinj t (List.mem_cons_of_mem tx ht) u (List.mem_cons_of_mem tx hu)
    change ((CTxMemPool.addAll H txs (pool.addUnchecked (tx.getHash H) ⟨tx⟩)).mapTx[h]? = _) ↔ _
    rw [getElem?_addAll hinj', getElem?_addUnchecked, List.exists_mem_cons_iff, List.forall_mem_cons]
    by_cases heq : tx.getHash H = h
    · rw [if_pos heq.symm]
      constructor
      · rintro (hex | ⟨-, hentry⟩)
        · exact .inl (.inr hex)
        · exact .inl (.inl ⟨heq, (Option.some.inj hentry).symm⟩)
      · rintro ((⟨-, rfl⟩ | hex) | ⟨⟨hne, -⟩, -⟩)
        · by_cases hmem : ∃ t ∈ txs, t.getHash H = h
          · obtain ⟨t, ht, hhash⟩ := hmem
            have htx := hinj t (List.mem_cons_of_mem tx ht) tx List.mem_cons_self
              (hhash.trans heq.symm)
            exact .inl ⟨t, ht, hhash, htx ▸ rfl⟩
          · exact .inr ⟨fun t ht hhash => hmem ⟨t, ht, hhash⟩, rfl⟩
        · exact .inl hex
        · exact absurd heq hne
    · rw [if_neg fun hh => heq hh.symm]
      simp only [heq, false_and, false_or, ne_eq, not_false_eq_true, true_and]

theorem addAll_eq_none {h : UInt256} : ∀ {txs : List CTransaction} {pool : CTxMemPool},
    (pool.addAll H txs).mapTx[h]? = none ↔
      (∀ t ∈ txs, t.getHash H ≠ h) ∧ pool.mapTx[h]? = none
  | [], pool => by simp [CTxMemPool.addAll]
  | tx :: txs, pool => by
    change ((CTxMemPool.addAll H txs (pool.addUnchecked (tx.getHash H) ⟨tx⟩)).mapTx[h]? = _) ↔ _
    rw [addAll_eq_none, getElem?_addUnchecked, List.forall_mem_cons, and_comm (a := _ ≠ _), and_assoc]
    refine and_congr_right' ?_
    by_cases heq : tx.getHash H = h
    · simp [heq]
    · rw [if_neg fun hh => heq hh.symm]
      exact (and_iff_right heq).symm

theorem spendAll_eq_none {hash : UInt256} {o : COutPoint} :
    ∀ {n : ℕ} {vin : List CTxIn} {m : Std.ExtTreeMap COutPoint CInPoint},
    (CTxMemPool.spendAll hash n vin m)[o]? = none ↔ m[o]? = none ∧ ∀ txin ∈ vin, txin.prevout ≠ o
  | n, [], m => by simp [CTxMemPool.spendAll]
  | n, txin :: vin, m => by
    rw [CTxMemPool.spendAll, spendAll_eq_none, congrFun Table.getElem?_insert_eq o,
      List.forall_mem_cons, Function.update_apply, ← and_assoc]
    refine and_congr_left' ?_
    by_cases ho : o = txin.prevout
    · simp [ho]
    · rw [if_neg ho]
      exact (and_iff_left fun h => ho h.symm).symm

/-- No transaction of such a pool spends an outpoint. -/
theorem mapNextTx_addAll_eq_none {o : COutPoint} : ∀ {txs : List CTransaction} {pool : CTxMemPool},
    (pool.addAll H txs).mapNextTx[o]? = none ↔
      pool.mapNextTx[o]? = none ∧ ∀ t ∈ txs, ∀ txin ∈ t.vin, txin.prevout ≠ o
  | [], pool => by simp [CTxMemPool.addAll]
  | tx :: txs, pool => by
    change ((CTxMemPool.addAll H txs (pool.addUnchecked (tx.getHash H) ⟨tx⟩)).mapNextTx[o]? = _) ↔ _
    rw [mapNextTx_addAll_eq_none, List.forall_mem_cons, ← and_assoc]
    exact and_congr_left' spendAll_eq_none

/-! ## Transactions that can be accepted one after the other -/

/-- All of the transactions are accepted, in this order. -/
def Acceptable (H : Bytes → UInt256) (env : TxRelayEnv) (pool : CTxMemPool)
    (txs : List CTransaction) : Prop :=
  ∃ pool', txs.foldlM (fun pool tx => acceptToMemoryPool H env.accept env.tip pool tx true false)
    pool = .ok pool'

/-- Each is accepted on top of those before it. -/
theorem Acceptable.accepted : ∀ {l l' : List CTransaction} {pool : CTxMemPool},
    Acceptable H env pool (l ++ t :: l') →
      Accepted H env.accept env.tip (pool.addAll H l) t true false
  | [], l', pool, h => by
    obtain ⟨pool', h⟩ := h
    rw [List.nil_append, List.foldlM_cons] at h
    obtain ⟨pool₁, haccept, -⟩ := Outcome.bind_eq_ok.mp h
    exact (acceptToMemoryPool_eq_ok.mp haccept).1
  | u :: l, l', pool, h => by
    obtain ⟨pool', h⟩ := h
    rw [List.cons_append, List.foldlM_cons] at h
    obtain ⟨pool₁, haccept, h⟩ := Outcome.bind_eq_ok.mp h
    obtain ⟨-, rfl⟩ := acceptToMemoryPool_eq_ok.mp haccept
    exact Acceptable.accepted (l := l) ⟨pool', h⟩

section Acceptable

variable (hS : Acceptable H env pool S)
include hS

theorem Acceptable.hash_ne {l l' : List CTransaction} (hsplit : S = l ++ t :: l') (hu : u ∈ l) :
    u.getHash H ≠ t.getHash H := by
  subst hsplit
  obtain ⟨-, -, hnew, -⟩ := checkLoose_eq_ok hS.accepted.loose
  exact (addAll_eq_none.mp hnew).1 u hu

theorem Acceptable.hash_inj : ∀ t ∈ S, ∀ u ∈ S, t.getHash H = u.getHash H → t = u := by
  intro t ht u hu heq
  obtain ⟨l, l', rfl⟩ := List.append_of_mem ht
  rcases List.mem_append.mp hu with hu | hu
  · exact absurd heq.symm (hS.hash_ne rfl hu)
  rcases List.mem_cons.mp hu with hu | hu
  · exact hu.symm
  · obtain ⟨m, m', rfl⟩ := List.append_of_mem hu
    have hsplit : l ++ t :: (m ++ u :: m') = (l ++ t :: m) ++ u :: m' := by simp
    exact absurd heq (hS.hash_ne hsplit (List.mem_append_right _ List.mem_cons_self))

theorem Acceptable.unknown (ht : t ∈ S) :
    env.tip.coins (t.getHash H) = none ∧ pool.mapTx[t.getHash H]? = none := by
  obtain ⟨l, l', rfl⟩ := List.append_of_mem ht
  have h := Option.or_eq_none_iff.mp hS.accepted.unknown
  exact ⟨h.1, (addAll_eq_none.mp (Option.map_eq_none_iff.mp h.2)).2⟩

/-- The parents in the set come first. -/
theorem Acceptable.parent_mem {p : CTransaction} {l l' : List CTransaction}
    (hsplit : S = l ++ t :: l') (hp : p ∈ S) (hparent : p.getHash H ∈ t.parents) : p ∈ l := by
  have hinj := hS.hash_inj
  have hunknown := hS.unknown hp
  subst hsplit
  obtain ⟨txin, hmem, hhash⟩ := List.mem_map.mp hparent
  have hknown := hS.accepted.known txin hmem
  rw [hhash] at hknown
  change ¬ (env.tip.coins (p.getHash H)).or _ = none at hknown
  rw [hunknown.1, Option.none_or, Option.map_eq_none_iff, addAll_eq_none, not_and] at hknown
  by_contra hnot
  refine hknown (fun u hu heq => hnot ?_) hunknown.2
  exact hinj u (List.mem_append_left _ hu) p hp heq ▸ hu

theorem Acceptable.prevout_ne {l l' : List CTransaction} (hsplit : S = l ++ t :: l') (hu : u ∈ l)
    {txin txin' : CTxIn} (hin : txin ∈ t.vin) (hin' : txin' ∈ u.vin) : txin'.prevout ≠ txin.prevout := by
  subst hsplit
  obtain ⟨-, -, -, hfree⟩ := checkLoose_eq_ok hS.accepted.loose
  exact (mapNextTx_addAll_eq_none.mp (hfree txin hin)).2 u hu txin' hin'

/-- No outpoint is spent by the pool or by two of the transactions. -/
theorem Acceptable.free (hA : A ⊆ S) (ht : t ∈ S) (hnot : t ∉ A) {txin : CTxIn} (hin : txin ∈ t.vin) :
    (pool.addAll H A).mapNextTx[txin.prevout]? = none := by
  refine mapNextTx_addAll_eq_none.mpr ⟨?_, fun u hu txin' hin' => ?_⟩
  · obtain ⟨l, l', rfl⟩ := List.append_of_mem ht
    obtain ⟨-, -, -, hfree⟩ := checkLoose_eq_ok hS.accepted.loose
    exact (mapNextTx_addAll_eq_none.mp (hfree txin hin)).1
  · obtain ⟨l, l', hsplit⟩ := List.append_of_mem ht
    have hmem := hA hu
    rw [hsplit] at hmem
    rcases List.mem_append.mp hmem with hmem | hmem
    · exact hS.prevout_ne hsplit hmem hin hin'
    rcases List.mem_cons.mp hmem with rfl | hmem
    · exact absurd hu hnot
    · obtain ⟨m, m', rfl⟩ := List.append_of_mem hmem
      have hsplit' : S = (l ++ t :: m) ++ u :: m' := by simp [hsplit]
      exact (hS.prevout_ne hsplit' (List.mem_append_right _ List.mem_cons_self) hin' hin).symm

theorem Acceptable.getElem?_mapTx (hA : A ⊆ S) (ht : t ∈ S) :
    (pool.addAll H A).mapTx[t.getHash H]? = none ↔ t ∉ A := by
  rw [addAll_eq_none, and_iff_left (hS.unknown ht).2]
  constructor
  · exact fun h hmem => h t hmem rfl
  · exact fun hnot u hu heq => hnot (hS.hash_inj u (hA hu) t ht heq ▸ hu)

/-- The coins that a transaction spends are the same in pools that have its parents of the set. -/
theorem Acceptable.agreeFor {l l' : List CTransaction} (hsplit : S = l ++ t :: l') (hA : A ⊆ S)
    (hparents : ∀ p ∈ S, p.getHash H ∈ t.parents → p ∈ A) :
    FlatView.AgreeFor t ((pool.addAll H l).over env.tip) ((pool.addAll H A).over env.tip) := by
  have hl : l ⊆ S := hsplit ▸ List.subset_append_left _ _
  have hinj : ∀ {l : List CTransaction}, l ⊆ S →
      ∀ t ∈ l, ∀ u ∈ l, t.getHash H = u.getHash H → t = u := fun hsub t ht u hu =>
    hS.hash_inj t (hsub ht) u (hsub hu)
  intro txin hmem
  have hsame : (pool.addAll H l).mapTx[txin.prevout.hash]? =
      (pool.addAll H A).mapTx[txin.prevout.hash]? := by
    have hiff : ∀ p, p ∈ S → p.getHash H = txin.prevout.hash → (p ∈ l ↔ p ∈ A) := by
      intro p hp hhash
      have hparent : p.getHash H ∈ t.parents := hhash ▸ List.mem_map_of_mem hmem
      exact iff_of_true (hS.parent_mem hsplit hp hparent) (hparents p hp hparent)
    ext entry
    rw [getElem?_addAll (hinj hl), getElem?_addAll (hinj hA)]
    refine or_congr (exists_congr fun p => ?_) (and_congr_left' (forall_congr' fun p => ?_))
    · constructor
      · exact fun ⟨hp, hhash, he⟩ => ⟨(hiff p (hl hp) hhash).mp hp, hhash, he⟩
      · exact fun ⟨hp, hhash, he⟩ => ⟨(hiff p (hA hp) hhash).mpr hp, hhash, he⟩
    · constructor
      · exact fun h hp hhash => h ((hiff p (hA hp) hhash).mpr hp) hhash
      · exact fun h hp hhash => h ((hiff p (hl hp) hhash).mp hp) hhash
  change (env.tip.coins _).or _ = (env.tip.coins _).or _
  rw [hsame]

/-! ## One more transaction -/

/-- It is accepted when its parents of the set are. -/
theorem Acceptable.accept (hA : A ⊆ S) (ht : t ∈ S) (hnot : t ∉ A)
    (hparents : ∀ p ∈ S, p.getHash H ∈ t.parents → p ∈ A) :
    acceptToMemoryPool H env.accept env.tip (pool.addAll H A) t true false =
      .ok (pool.addAll H (A ++ [t])) := by
  obtain ⟨l, l', hsplit⟩ := List.append_of_mem ht
  have haccepted : Accepted H env.accept env.tip (pool.addAll H l) t true false :=
    Acceptable.accepted (hsplit ▸ hS)
  refine acceptToMemoryPool_eq_ok.mpr ⟨?_, CTxMemPool.addAll_concat A t pool⟩
  exact haccepted.congr ((hS.getElem?_mapTx hA ht).mpr hnot) (fun txin hin => hS.free hA ht hnot hin)
    (hS.agreeFor hsplit hA hparents)

/-- It is not accepted again. -/
theorem Acceptable.again (hA : A ⊆ S) (ht : t ∈ A) :
    acceptToMemoryPool H env.accept env.tip (pool.addAll H A) t true false =
      .error (.stop .unreported) := by
  obtain ⟨l, l', hsplit⟩ := List.append_of_mem (hA ht)
  have haccepted : Accepted H env.accept env.tip (pool.addAll H l) t true false :=
    Acceptable.accepted (hsplit ▸ hS)
  have hpooled : (pool.addAll H A).mapTx.contains (t.getHash H) = true := by
    rw [Std.ExtTreeMap.contains_eq_isSome_getElem?, Option.isSome_iff_ne_none]
    exact fun hnone => (hS.getElem?_mapTx hA (hA ht)).mp hnone ht
  unfold acceptToMemoryPool
  rw [checkLoose_of_eq_ok haccepted.loose, hpooled]
  rfl

/-- An input is missing when a parent of the set is. -/
theorem Acceptable.missing {p : CTransaction} (hA : A ⊆ S) (ht : t ∈ S) (hnot : t ∉ A) (hp : p ∈ S)
    (hparent : p.getHash H ∈ t.parents) (hmissing : p ∉ A) :
    acceptToMemoryPool H env.accept env.tip (pool.addAll H A) t true false =
      .error .missingInputs := by
  obtain ⟨l, l', hsplit⟩ := List.append_of_mem ht
  have haccepted : Accepted H env.accept env.tip (pool.addAll H l) t true false :=
    Acceptable.accepted (hsplit ▸ hS)
  have hnone : ∀ u ∈ S, u ∉ A → ((pool.addAll H A).over env.tip).coins (u.getHash H) = none := by
    intro u hu hnot
    refine Option.or_eq_none_iff.mpr ⟨(hS.unknown hu).1, ?_⟩
    rw [(hS.getElem?_mapTx hA hu).mpr hnot]
    rfl
  have hloose : checkLoose H env.accept (pool.addAll H A) t = .ok () :=
    checkLoose_congr haccepted.loose ((hS.getElem?_mapTx hA ht).mpr hnot) fun txin hin =>
      hS.free hA ht hnot hin
  obtain ⟨txin, hin, hhash⟩ := List.mem_map.mp hparent
  unfold acceptToMemoryPool
  rw [hloose]
  dsimp only [Except.mapError, Except.bind, bind]
  rw [hnone t ht hnot, if_neg (by decide), if_pos]
  exact List.any_eq_true.mpr ⟨txin, hin, by rw [hhash, hnone p hp hmissing]; rfl⟩

end Acceptable

/-! ## The work queue -/

/-- Two of the transactions are parents of a transaction. -/
def TwoParents (H : Bytes → UInt256) (S : List CTransaction) (t : CTransaction) : Prop :=
  ∃ p ∈ S, ∃ q ∈ S, p.getHash H ∈ t.parents ∧ q.getHash H ∈ t.parents ∧ p ≠ q

/-- The state of the loop, when it began with the transactions `A₀` accepted after `A`, the last of
them with the hash `hash`. The orphans in `pending` are the ones to be tried next. -/
structure Working (H : Bytes → UInt256) (S : List CTransaction) (pool : CTxMemPool)
    (orphans : OrphanPool) (A A₀ : List CTransaction) (hash : UInt256) (pending : List UInt256)
    (w : OrphanWork) : Prop where
  mempool : w.mempool = pool.addAll H w.relayed
  subset : w.relayed ⊆ S
  nodup : w.relayed.Nodup
  /-- what was accepted was an orphan -/
  grown : ∃ B, w.relayed = A₀ ++ B ∧ ∀ t ∈ B, orphans.mapOrphanTransactions.contains (t.getHash H) = true
  /-- parents are accepted first -/
  closed : ∀ t ∈ w.relayed, ∀ p ∈ S, p.getHash H ∈ t.parents → p ∈ w.relayed
  peers : ∀ peer, w.setMisbehaving.contains peer = false
  queued : ∀ h ∈ w.vWorkQueue, ∃ p ∈ w.relayed, p.getHash H = h
  /-- what will be erased is accepted, or has two parents -/
  erased : ∀ h ∈ w.vEraseQueue, h = hash ∨ ∃ orphan, orphans.mapOrphanTransactions[h]? = some orphan ∧
    (orphan.tx ∈ w.relayed ∨ TwoParents H S orphan.tx)
  erased_hash : hash ∈ w.vEraseQueue
  /-- the orphans of what was accepted in this loop are tried, or will be -/
  tried : ∀ h orphan, orphans.mapOrphanTransactions[h]? = some orphan → ∀ p ∈ w.relayed, p ∉ A →
    p.getHash H ∈ orphan.tx.parents → p.getHash H ∈ w.vWorkQueue ∨ h ∈ w.vEraseQueue ∨ h ∈ pending

variable {orphans : OrphanPool} {A₀ : List CTransaction} {hash : UInt256} {pending : List UInt256}
  {w : OrphanWork}

/-- An orphan is accepted. -/
theorem Working.accept (hw : Working H S pool orphans A A₀ hash pending w) {h : UInt256}
    {orphan : COrphanTx} (hget : orphans.mapOrphanTransactions[h]? = some orphan)
    (horphan : orphan.tx ∈ S) (hhash : orphan.tx.getHash H = h) (hnot : orphan.tx ∉ w.relayed)
    (hparents : ∀ p ∈ S, p.getHash H ∈ orphan.tx.parents → p ∈ w.relayed) :
    Working H S pool orphans A A₀ hash pending { w with
      mempool := pool.addAll H (w.relayed ++ [orphan.tx])
      relayed := w.relayed ++ [orphan.tx]
      vWorkQueue := w.vWorkQueue ++ [h] } where
  mempool := rfl
  subset := List.append_subset.mpr ⟨hw.subset, fun t ht => List.mem_singleton.mp ht ▸ horphan⟩
  nodup := List.nodup_append.mpr ⟨hw.nodup, List.nodup_singleton _, fun t ht u hu heq =>
    hnot (List.mem_singleton.mp hu ▸ heq ▸ ht)⟩
  grown := by
    obtain ⟨B, hB, hfrom⟩ := hw.grown
    refine ⟨B ++ [orphan.tx], by rw [hB, List.append_assoc], fun t ht => ?_⟩
    rcases List.mem_append.mp ht with ht | ht
    · exact hfrom t ht
    · rw [List.mem_singleton.mp ht, hhash, Std.ExtTreeMap.contains_eq_isSome_getElem?, hget]
      rfl
  closed := by
    intro t ht q hq hqt
    rcases List.mem_append.mp ht with ht | ht
    · exact List.mem_append_left _ (hw.closed t ht q hq hqt)
    · exact List.mem_append_left _ (hparents q hq (List.mem_singleton.mp ht ▸ hqt))
  peers := hw.peers
  queued := by
    intro i hi
    rcases List.mem_append.mp hi with hi | hi
    · obtain ⟨q, hq, hqi⟩ := hw.queued i hi
      exact ⟨q, List.mem_append_left _ hq, hqi⟩
    · exact ⟨orphan.tx, List.mem_append_right _ List.mem_cons_self,
        hhash.trans (List.mem_singleton.mp hi).symm⟩
  erased i hi := (hw.erased i hi).imp_right fun ⟨o, ho, hor⟩ =>
    ⟨o, ho, hor.imp_left fun hmem => List.mem_append_left _ hmem⟩
  erased_hash := hw.erased_hash
  tried := by
    intro i o hi p hp hnew hparent
    rcases List.mem_append.mp hp with hp | hp
    · exact (hw.tried i o hi p hp hnew hparent).imp_left fun hq => List.mem_append_left _ hq
    · rw [List.mem_singleton.mp hp, hhash]
      exact .inl (List.mem_append_right _ List.mem_cons_self)

/-- A tried orphan will be erased. -/
theorem Working.erase {h : UInt256} (hw : Working H S pool orphans A A₀ hash (h :: pending) w)
    {orphan : COrphanTx} (hget : orphans.mapOrphanTransactions[h]? = some orphan)
    (herased : orphan.tx ∈ w.relayed ∨ TwoParents H S orphan.tx) :
    Working H S pool orphans A A₀ hash pending
      { w with vEraseQueue := w.vEraseQueue ++ [h] } where
  mempool := hw.mempool
  subset := hw.subset
  nodup := hw.nodup
  grown := hw.grown
  closed := hw.closed
  peers := hw.peers
  queued := hw.queued
  erased := by
    intro i hi
    rcases List.mem_append.mp hi with hi | hi
    · exact hw.erased i hi
    · rw [List.mem_singleton.mp hi]
      exact .inr ⟨orphan, hget, herased⟩
  erased_hash := List.mem_append_left _ hw.erased_hash
  tried := by
    intro i o hi p hp hnew hparent
    rcases hw.tried i o hi p hp hnew hparent with hq | he | hpend
    · exact .inl hq
    · exact .inr (.inl (List.mem_append_left _ he))
    rcases List.mem_cons.mp hpend with rfl | hpend
    · exact .inr (.inl (List.mem_append_right _ List.mem_cons_self))
    · exact .inr (.inr hpend)

/-- The orphans of a pool are in the set. -/
def OrphansIn (S : List CTransaction) (orphans : OrphanPool) : Prop :=
  ∀ (h : UInt256) (orphan : COrphanTx), orphans.mapOrphanTransactions[h]? = some orphan → orphan.tx ∈ S

/-- One orphan that spends an accepted transaction is tried. -/
theorem Working.tryOrphan {h : UInt256} {p : CTransaction} {orphan : COrphanTx}
    (hw : Working H S pool orphans A A₀ hash (h :: pending) w) (hS : Acceptable H env pool S)
    (hget : orphans.mapOrphanTransactions[h]? = some orphan) (horphan : orphan.tx ∈ S)
    (hhash : orphan.tx.getHash H = h) (hp : p ∈ w.relayed) (hparent : p.getHash H ∈ orphan.tx.parents) :
    ∃ w', tryOrphan H env orphans w h = some w' ∧ Working H S pool orphans A A₀ hash pending w' ∧
      w.relayed ⊆ w'.relayed ∧
      w'.vWorkQueue.length + w.relayed.length = w.vWorkQueue.length + w'.relayed.length := by
  unfold Ticoin.tryOrphan
  rw [hget]
  dsimp only
  rw [hw.peers, if_neg Bool.false_ne_true, hw.mempool]
  by_cases hmem : orphan.tx ∈ w.relayed
  · rw [hS.again hw.subset hmem]
    exact ⟨_, rfl, hw.mempool ▸ hw.erase hget (.inl hmem), List.Subset.refl _, rfl⟩
  by_cases hparents : ∀ q ∈ S, q.getHash H ∈ orphan.tx.parents → q ∈ w.relayed
  · rw [hS.accept hw.subset horphan hmem hparents]
    have haccept := hw.accept hget horphan hhash hmem hparents
    refine ⟨_, rfl, haccept.erase hget (.inl ?_), List.subset_append_left _ _, ?_⟩
    · exact List.mem_append_right _ List.mem_cons_self
    · dsimp only
      rw [List.length_append, List.length_append, List.length_singleton, List.length_singleton]
      omega
  · obtain ⟨q, hq, hqt, hmissing⟩ : ∃ q ∈ S, q.getHash H ∈ orphan.tx.parents ∧ q ∉ w.relayed := by
      by_contra hnone
      exact hparents fun q hq hqt => by_contra fun hmissing => hnone ⟨q, hq, hqt, hmissing⟩
    rw [hS.missing hw.subset horphan hmem hq hqt hmissing]
    have htwo : TwoParents H S orphan.tx :=
      ⟨p, hw.subset hp, q, hq, hparent, hqt, fun heq => hmissing (heq ▸ hp)⟩
    exact ⟨_, rfl, hw.mempool ▸ hw.erase hget (.inr htwo), List.Subset.refl _, rfl⟩

/-- All orphans of an accepted transaction are tried. -/
theorem Working.tryOrphans {p : CTransaction} (hS : Acceptable H env pool S)
    (hindex : OrphanPool.Indexed H orphans) (hin : OrphansIn S orphans) :
    ∀ {pending : List UInt256} {w : OrphanWork}, Working H S pool orphans A A₀ hash pending w →
      p ∈ w.relayed → (∀ h ∈ pending, ∃ orphan, orphans.mapOrphanTransactions[h]? = some orphan ∧
        p.getHash H ∈ orphan.tx.parents) →
      ∃ w', pending.foldlM (Ticoin.tryOrphan H env orphans) w = some w' ∧
        Working H S pool orphans A A₀ hash [] w' ∧
        w'.vWorkQueue.length + w.relayed.length = w.vWorkQueue.length + w'.relayed.length
  | [], w, hw, _, _ => ⟨w, rfl, hw, rfl⟩
  | h :: pending, w, hw, hp, hpend => by
    obtain ⟨orphan, hget, hparent⟩ := hpend h List.mem_cons_self
    obtain ⟨w₁, htry, hw₁, hsub, hlen₁⟩ :=
      hw.tryOrphan hS hget (hin h orphan hget) (hindex.hash h orphan hget) hp hparent
    obtain ⟨w₂, hrest, hw₂, hlen₂⟩ := Working.tryOrphans hS hindex hin hw₁ (hsub hp)
      fun i hi => hpend i (List.mem_cons_of_mem h hi)
    refine ⟨w₂, ?_, hw₂, by omega⟩
    rw [List.foldlM_cons, htry]
    exact hrest

/-- No more is accepted than there are orphans. -/
theorem Working.length_le (hw : Working H S pool orphans A A₀ hash pending w)
    (hS : Acceptable H env pool S) :
    w.relayed.length ≤ A₀.length + orphans.mapOrphanTransactions.size := by
  obtain ⟨B, hB, hfrom⟩ := hw.grown
  have hsub := hw.subset
  have hnodup := hw.nodup
  rw [hB] at hsub hnodup ⊢
  have hhashes : (B.map (·.getHash H)).Nodup :=
    (List.nodup_append.mp hnodup).2.1.map_on fun t ht u hu heq =>
      hS.hash_inj t (hsub (List.mem_append_right _ ht)) u (hsub (List.mem_append_right _ hu)) heq
  have hkeys : B.map (·.getHash H) ⊆ orphans.mapOrphanTransactions.keys := by
    intro h hh
    obtain ⟨t, ht, rfl⟩ := List.mem_map.mp hh
    exact Std.ExtTreeMap.mem_keys.mpr (Std.ExtTreeMap.contains_iff_mem.mp (hfrom t ht))
  have hle := (hhashes.subperm hkeys).length_le
  rw [List.length_map, Std.ExtTreeMap.length_keys] at hle
  rw [List.length_append]
  omega

/-- The work queue runs out. With each turn there is one hash less in it, or one more accepted. -/
theorem Working.processOrphans (hS : Acceptable H env pool S)
    (hindex : OrphanPool.Indexed H orphans) (hin : OrphansIn S orphans) :
    ∀ {fuel : ℕ} {w : OrphanWork}, Working H S pool orphans A A₀ hash [] w →
      A₀.length + orphans.mapOrphanTransactions.size + w.vWorkQueue.length ≤
        fuel + w.relayed.length →
      ∃ w', processOrphans H env orphans fuel w = some w' ∧
        Working H S pool orphans A A₀ hash [] w' ∧ w'.vWorkQueue = []
  | 0, w, hw, hfuel => by
    have hle := hw.length_le hS
    have hnil : w.vWorkQueue = [] := List.length_eq_zero_iff.mp (by omega)
    exact ⟨w, by rw [Ticoin.processOrphans, if_pos hnil], hw, hnil⟩
  | fuel + 1, w, hw, hfuel => by
    rw [Ticoin.processOrphans]
    cases hq : w.vWorkQueue with
    | nil => exact ⟨w, rfl, hw, hq⟩
    | cons h rest =>
      dsimp only
      obtain ⟨p, hp, hph⟩ := hw.queued h (hq ▸ List.mem_cons_self)
      have hmem : ∀ i, i ∈ (Table.members orphans.mapOrphanTransactionsByPrev h).toList ↔
          ∃ orphan, orphans.mapOrphanTransactions[i]? = some orphan ∧ h ∈ orphan.tx.parents := by
        intro i
        rw [Std.ExtTreeSet.mem_toList, hindex.mem]
      have hturn : Working H S pool orphans A A₀ hash
          (Table.members orphans.mapOrphanTransactionsByPrev h).toList
          { w with vWorkQueue := rest } := by
        refine ⟨hw.mempool, hw.subset, hw.nodup, hw.grown, hw.closed, hw.peers,
          fun i hi => hw.queued i (hq ▸ List.mem_cons_of_mem h hi), hw.erased, hw.erased_hash, ?_⟩
        intro i o hi q hqr hnew hparent
        rcases hw.tried i o hi q hqr hnew hparent with hqueue | he | hnil
        · rw [hq] at hqueue
          rcases List.mem_cons.mp hqueue with heq | hqueue
          · exact .inr (.inr ((hmem i).mpr ⟨o, hi, heq ▸ hparent⟩))
          · exact .inl hqueue
        · exact .inr (.inl he)
        · cases hnil
      obtain ⟨w₁, htry, hw₁, hlen⟩ := Working.tryOrphans (p := p) hS hindex hin hturn hp
        fun i hi => by rw [hph]; exact (hmem i).mp hi
      rw [htry]
      refine Working.processOrphans hS hindex hin hw₁ ?_
      rw [hq, List.length_cons] at hfuel
      dsimp only at hlen
      omega

end Ticoin
