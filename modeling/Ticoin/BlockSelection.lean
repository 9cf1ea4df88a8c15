import Ticoin.BlockAssembly
import Ticoin.Supply

/-!
# CreateNewBlock : the transactions that are selected

Of a pool that is consistent with the view of the coins (`Miner.Consistent`), every transaction is
either in the queue, waits for others, or was taken off for good. So none is selected twice, the
pointers to those that wait stay valid, and the loop ends.

Before a transaction is added, its inputs are available in a view that has the coins of the tip and
of what was added. By this alone every transaction comes after those it spends
(`Miner.selectTransactions_spec`).
-/

namespace Ticoin

open Codec Outcome

namespace Miner

variable {F : Type} {H : Bytes → UInt256} {m : Miner F}

/-! ## Pool and view -/

/-- A pool whose index is exact, and whose transactions spend outputs of the tip or of others in the
pool. The tip is the best block of the view. -/
structure Consistent (H : Bytes → UInt256) (m : Miner F) : Prop where
  indexed : CTxMemPool.Indexed H Set.univ m.mempool
  inputs : ∀ tx ∈ m.mempool.pool, tx.isCoinBase = false → ∀ txin ∈ tx.vin,
    (∃ txout, m.pcoinsTip.output txin.prevout = some txout) ∨
      m.pcoinsTip.coins txin.prevout.hash = none ∧ ∃ parent ∈ m.mempool.pool,
        parent.getHash H = txin.prevout.hash ∧ txin.prevout.n.toNat < parent.vout.length
  best : m.env.mapBlockIndex[m.pcoinsTip.best]? = some m.pindexPrev
  phashBlock : m.pindexPrev.entry.phashBlock = some m.pcoinsTip.best

theorem mem_poolTxs {tx : CTransaction} : tx ∈ m.poolTxs ↔ tx ∈ m.mempool.pool := by
  unfold poolTxs
  rw [List.mem_map]
  constructor
  · rintro ⟨item, hmem, rfl⟩
    exact ⟨item.1, item.2, Std.ExtTreeMap.mem_toList_iff_getElem?_eq_some.mp hmem, rfl⟩
  · rintro ⟨hash, entry, hget, rfl⟩
    exact ⟨(hash, entry), Std.ExtTreeMap.mem_toList_iff_getElem?_eq_some.mpr hget, rfl⟩

/-- Transactions of the pool have different hashes. -/
theorem Consistent.nodup_hashes (hm : m.Consistent H) :
    (m.poolTxs.map (CTransaction.getHash H)).Nodup := by
  unfold poolTxs
  rw [List.map_map]
  refine List.pairwise_map.mpr ?_
  refine (Std.ExtTreeMap.distinct_keys_toList (t := m.mempool.mapTx)).imp_of_mem ?_
  intro a b ha hb hne heq
  have hkey : ∀ item ∈ m.mempool.mapTx.toList, item.2.tx.getHash H = item.1 := fun item hmem =>
    hm.indexed.hash _ _ (Std.ExtTreeMap.mem_toList_iff_getElem?_eq_some.mp hmem)
  have hab : a.1 = b.1 := by
    rw [← hkey a ha, ← hkey b hb]
    exact heq
  rw [hab] at hne
  exact hne Std.ReflCmp.compare_self

theorem Consistent.nodup_prevouts (hm : m.Consistent H) {tx : CTransaction}
    (htx : tx ∈ m.mempool.pool) : (tx.vin.map CTxIn.prevout).Nodup := by
  have hget := hm.indexed.mem_pool.mp htx
  refine List.nodup_iff_getElem?_ne_getElem?.mpr fun i j hij hj heq => ?_
  have hlt : i < (tx.vin.map CTxIn.prevout).length := hij.trans hj
  have hnext : ∀ k, (tx.vin.map CTxIn.prevout)[k]? = some ((tx.vin.map CTxIn.prevout)[i]) →
      m.mempool.mapNextTx[(tx.vin.map CTxIn.prevout)[i]]? = some ⟨tx.getHash H, k⟩ := by
    intro k hk
    rw [List.getElem?_map] at hk
    exact (hm.indexed.next _ _ _).mpr ⟨⟨tx⟩, hget, hk⟩
  have hi := hnext i (List.getElem?_eq_getElem hlt)
  rw [hnext j (heq ▸ List.getElem?_eq_getElem hlt), Option.some.injEq, CInPoint.mk.injEq] at hi
  exact hij.ne' hi.2

/-! ## The queue and those that wait -/

/-- The transactions in the queue, and those that wait. -/
def candidates (vecPriority : List (TxPriority F)) (vOrphan : List (COrphan F)) :
    List CTransaction :=
  vecPriority.map TxPriority.ptx ++
    (vOrphan.filter fun o => o.setDependsOn ≠ ∅).map COrphan.ptx

theorem candidates_append_orphan (vecPriority : List (TxPriority F)) (vOrphan : List (COrphan F))
    {o : COrphan F} (ho : o.setDependsOn ≠ ∅) :
    candidates vecPriority (vOrphan ++ [o]) = candidates vecPriority vOrphan ++ [o.ptx] := by
  unfold candidates
  rw [List.filter_append, List.map_append, List.filter_singleton]
  simp [ho]

theorem candidates_append_item (vecPriority : List (TxPriority F)) (vOrphan : List (COrphan F))
    (item : TxPriority F) : (candidates (vecPriority ++ [item]) vOrphan).Perm
      (item.ptx :: candidates vecPriority vOrphan) := by
  unfold candidates
  rw [List.map_append, List.map_singleton, List.append_assoc, List.singleton_append]
  exact List.perm_middle

theorem length_candidates_le (vecPriority : List (TxPriority F)) (vOrphan : List (COrphan F)) :
    (candidates vecPriority vOrphan).length ≤ vecPriority.length + vOrphan.length := by
  unfold candidates
  rw [List.length_append, List.length_map, List.length_map]
  have h := List.length_filter_le (fun o : COrphan F => o.setDependsOn ≠ ∅) vOrphan
  omega

/-- The pointers to those that wait are valid. -/
def Points (mapDependers : UInt256 → List ℕ) (vOrphan : List (COrphan F)) : Prop :=
  ∀ hash, ∀ porphan ∈ mapDependers hash, porphan < vOrphan.length

/-- While the inputs of a transaction are read, it is the last that waits, or nothing is changed. -/
def Waits (c₀ : Collecting F) (tx : CTransaction) (c : Collecting F) : Option ℕ → Prop
  | none => c = c₀
  | some porphan => porphan = c₀.vOrphan.length ∧ c.vecPriority = c₀.vecPriority ∧
    (∃ o, c.vOrphan = c₀.vOrphan ++ [o] ∧ o.ptx = tx ∧ o.setDependsOn ≠ ∅) ∧
      Points c.mapDependers c.vOrphan

theorem modify_last {α : Type} (a : α) (f : α → α) : ∀ l : List α,
    (l ++ [a]).modify l.length f = l ++ [f a]
  | [] => rfl
  | _ :: l => congrArg _ (modify_last a f l)

theorem Points.update {mapDependers : UInt256 → List ℕ} {n n' porphan : ℕ}
    (h : ∀ hash, ∀ k ∈ mapDependers hash, k < n) (hle : n ≤ n') (hlt : porphan < n')
    (hash : UInt256) : ∀ hash', ∀ k ∈ Function.update mapDependers hash
      (mapDependers hash ++ [porphan]) hash', k < n' := by
  intro hash' k hk
  by_cases heq : hash' = hash
  · rw [heq, Function.update_self] at hk
    rcases List.mem_append.mp hk with hk | hk
    · exact (h hash k hk).trans_le hle
    · rwa [List.mem_singleton.mp hk]
  · rw [Function.update_of_ne heq] at hk
    exact (h hash' k hk).trans_le hle

theorem Waits.waitFor {c₀ c : Collecting F} {tx : CTransaction} {i : Inputs F}
    (h : Waits c₀ tx c i.porphan) (hpoints : Points c₀.mapDependers c₀.vOrphan) (hash : UInt256) :
    Waits c₀ tx (m.waitFor tx hash c i).1 (m.waitFor tx hash c i).2.porphan := by
  obtain ⟨porphan, dPriority, nTotalIn, fMissingInputs⟩ := i
  cases porphan with
  | none =>
    cases h
    have hlast := modify_last (⟨tx, ∅, m.floats.zero, m.floats.zero⟩ : COrphan F)
      (fun o => { o with setDependsOn := insert hash o.setDependsOn }) c₀.vOrphan
    refine ⟨rfl, rfl, ⟨_, hlast, rfl, Finset.insert_ne_empty _ _⟩, ?_⟩
    refine Points.update hpoints ?_ ?_ hash <;>
      simp [Miner.waitFor]
  | some porphan =>
    obtain ⟨hk, hvec, ⟨o, hvOrphan, hptx, -⟩, hpoints⟩ := h
    subst hk
    have hlast := modify_last o
      (fun o => { o with setDependsOn := insert hash o.setDependsOn }) c₀.vOrphan
    refine ⟨rfl, hvec, ⟨_, (congrArg (List.modify · c₀.vOrphan.length _) hvOrphan).trans hlast,
      hptx, Finset.insert_ne_empty _ _⟩, ?_⟩
    refine Points.update hpoints ?_ ?_ hash <;>
      simp [Miner.waitFor, hvOrphan]

/-- Every input of a transaction of the pool is of the view, or is waited for. -/
theorem ends_collectInputs (hm : m.Consistent H) {tx : CTransaction} {c₀ : Collecting F}
    (hpoints : Points c₀.mapDependers c₀.vOrphan) (htx : tx ∈ m.mempool.pool)
    (hcb : tx.isCoinBase = false) : ∀ {vin : List CTxIn} {c : Collecting F} {i : Inputs F},
    (∀ txin ∈ vin, txin ∈ tx.vin) → i.fMissingInputs = false → Waits c₀ tx c i.porphan →
    Ends (fun r => r.2.fMissingInputs = false ∧ Waits c₀ tx r.1 r.2.porphan) (fun _ => False)
      (m.collectInputs tx vin c i)
  | [], _, _, _, hmissing, hwaits => ⟨hmissing, hwaits⟩
  | txin :: vin, c, i, hvin, hmissing, hwaits => by
    rw [List.forall_mem_cons] at hvin
    unfold collectInputs
    rcases hm.inputs tx htx hcb txin hvin.1 with
      ⟨txout, hout⟩ | ⟨hcoins, parent, hparent, hhash, hn⟩
    · obtain ⟨coins, hcoins, hget⟩ := FlatView.output_eq_some.mp hout
      rw [hcoins]
      dsimp only
      rw [(CCoins.output_eq_some.mp hget).1]
      exact ends_collectInputs hm hpoints htx hcb hvin.2 hmissing hwaits
    · have hentry := hm.indexed.mem_pool.mp hparent
      rw [hhash] at hentry
      rw [hcoins, hentry]
      dsimp only
      rw [List.getElem?_eq_getElem hn]
      exact ends_collectInputs hm hpoints htx hcb hvin.2 hmissing
        (hwaits.waitFor hpoints txin.prevout.hash)

/-- What is collected, with the transactions of the pool still to come. -/
structure Collected (m : Miner F) (rest : List CTransaction) (c : Collecting F) : Prop where
  sub : (candidates c.vecPriority c.vOrphan ++ rest).Subperm m.poolTxs
  notCoinBase : ∀ tx ∈ candidates c.vecPriority c.vOrphan, tx.isCoinBase = false
  points : Points c.mapDependers c.vOrphan

/-- What `GetValueOut` throws for a transaction of the pool. -/
def Throws (m : Miner F) (stop : Stop) : Prop := ∃ tx ∈ m.mempool.pool, tx.valueOut = .error stop

theorem ends_valueOut {tx : CTransaction} (htx : tx ∈ m.mempool.pool) :
    Ends (fun nValueOut => tx.valueOut = .ok nValueOut) m.Throws tx.valueOut := by
  cases h : tx.valueOut with
  | error stop => exact ⟨tx, htx, h⟩
  | ok nValueOut => rfl

theorem Collected.collectTx (hm : m.Consistent H) {tx : CTransaction} {rest : List CTransaction}
    {c : Collecting F} (h : m.Collected (tx :: rest) c) :
    Ends (m.Collected rest) m.Throws (m.collectTx c tx) := by
  have htx : tx ∈ m.mempool.pool :=
    mem_poolTxs.mp (h.sub.subset (List.mem_append_right _ List.mem_cons_self))
  -- one more candidate
  have hadd : ∀ {vecPriority : List (TxPriority F)} {vOrphan : List (COrphan F)} {mapDependers},
      tx.isCoinBase = false → (candidates vecPriority vOrphan).Perm
        (tx :: candidates c.vecPriority c.vOrphan) → Points mapDependers vOrphan →
      m.Collected rest ⟨vOrphan, mapDependers, vecPriority⟩ := by
    intro vecPriority vOrphan mapDependers hcb hperm hpoints
    refine ⟨?_, fun t ht => ?_, hpoints⟩
    · exact ((hperm.append_right rest).trans List.perm_middle.symm).subperm.trans h.sub
    · rcases List.mem_cons.mp (hperm.subset ht) with rfl | ht
      · exact hcb
      · exact h.notCoinBase t ht
  unfold Miner.collectTx
  split
  · refine ⟨?_, h.notCoinBase, h.points⟩
    exact ((List.sublist_cons_self tx rest).append_left _).subperm.trans h.sub
  · rename_i hfinal
    have hcb : tx.isCoinBase = false := Bool.eq_false_iff.mpr fun hcb => hfinal (.inl hcb)
    have hinputs := ends_collectInputs hm h.points htx hcb (c := c)
      (i := ⟨none, m.floats.zero, 0, false⟩) (fun txin (hmem : txin ∈ tx.vin) => hmem) rfl rfl
    refine (hinputs.mono (fun _ h => h) fun _ h => h.elim).bind fun ⟨c', i⟩ ⟨hmissing, hwaits⟩ => ?_
    dsimp only at hmissing hwaits ⊢
    rw [hmissing, if_neg (by decide)]
    refine (ends_valueOut htx).bind fun nValueOut _ => ?_
    obtain ⟨porphan, dPriority, nTotalIn, fMissingInputs⟩ := i
    cases porphan with
    | none =>
      obtain rfl : c' = c := hwaits
      exact hadd hcb (candidates_append_item _ _ _) h.points
    | some porphan =>
      obtain ⟨hk, hvec, ⟨o, hvOrphan, hptx, hdeps⟩, hpoints⟩ := hwaits
      refine hadd hcb ?_ ?_
      · rw [hvec, hvOrphan, hk, modify_last, candidates_append_orphan _ _ (by exact hdeps), hptx]
        exact List.perm_append_singleton _ _
      · intro hash k hk
        rw [List.length_modify]
        exact hpoints hash k hk

theorem ends_collect (hm : m.Consistent H) : Ends (m.Collected []) m.Throws m.collect := by
  unfold collect
  refine Ends.foldlM (P := m.Collected) (fun tx rest c h => h.collectTx hm) ⟨?_, ?_, ?_⟩
  · exact List.Subperm.refl _
  · exact List.forall_mem_nil _
  · exact fun hash k hk => absurd hk List.not_mem_nil

/-! ## Transactions that can be connected -/

/-- Transactions that were connected to the view of the tip one after the other, with their fees and
signature operations. -/
inductive Connected (H : Bytes → UInt256) (m : Miner F) :
    List CTransaction → List ℤ → List ℕ → FlatView → Prop
  | nil : Connected H m [] [] [] m.pcoinsTip
  | concat {vtx vTxFees vTxSigOps view view' tx nValueIn nValueOut nP2SHSigOps vprevout} :
    Connected H m vtx vTxFees vTxSigOps view →
    Connects m.env m.pindexPrev SCRIPT_VERIFY_P2SH view tx →
    view.getValueIn tx = .ok nValueIn → tx.valueOut = .ok nValueOut →
    view.getP2SHSigOpCount tx = .ok nP2SHSigOps →
    view.updateCoins tx m.nHeight (tx.getHash H) = .ok (view', vprevout) →
    Connected H m (vtx ++ [tx]) (vTxFees ++ [nValueIn - nValueOut])
      (vTxSigOps ++ [getLegacySigOpCount tx + nP2SHSigOps]) view'

theorem Connected.best {vtx : List CTransaction} {vTxFees : List ℤ} {vTxSigOps : List ℕ}
    {view : FlatView} (h : Connected H m vtx vTxFees vTxSigOps view) :
    view.best = m.pcoinsTip.best := by
  induction h with
  | nil => rfl
  | concat _ _ _ _ _ hupdate ih => rw [FlatView.best_updateCoins hupdate, ih]

/-- Scripts whose checks pass here verify. -/
theorem verifies_of_checkScripts {env : ConnectEnv} {view : FlatView} {tx : CTransaction}
    {flags : UInt32} {checks : List CScriptCheck}
    (h : checkScripts env view tx true flags false = .ok checks) : Verifies env view flags tx := by
  intro nIn txin txout hin hout
  unfold checkScripts at h
  rw [if_neg (by decide)] at h
  obtain ⟨vChecks, hmap, h⟩ := Outcome.bind_eq_ok.mp h
  rw [if_neg (by decide)] at h
  obtain ⟨⟨⟩, hrun, -⟩ := Outcome.bind_eq_ok.mp h
  obtain ⟨check, hmem, hcheck⟩ :=
    mapM_eq_ok_mem hmap (txin, nIn) (List.mem_zipIdx_iff_getElem?.mpr hin)
  rw [scriptCheck_eq_ok flags hout, Except.ok.injEq] at hcheck
  have hok := forM_eq_ok.mp hrun check hmem
  rw [← hcheck] at hok
  unfold runScriptCheck at hok
  split at hok
  · assumption
  · split at hok
    · cases hok
    · cases hok

/-! ## The loop over the queue -/

/-- The state of the selection : `held` are the transactions taken off the queue and not yet
decided, and `n` bounds the candidates. -/
structure Selected (H : Bytes → UInt256) (m : Miner F) (mapDependers : UInt256 → List ℕ)
    (held : List CTransaction) (n : ℕ) (s : Selecting F) : Prop where
  sub : (held ++ candidates s.vecPriority s.vOrphan ++ s.vtx).Subperm m.poolTxs
  notCoinBase : ∀ tx ∈ held ++ candidates s.vecPriority s.vOrphan, tx.isCoinBase = false
  points : Points mapDependers s.vOrphan
  length_le : (candidates s.vecPriority s.vOrphan).length ≤ n
  connected : Connected H m s.vtx s.vTxFees s.vTxSigOps s.view
  nFees : s.nFees = s.vTxFees.sum
  nBlockSigOps : s.nBlockSigOps = 100 + s.vTxSigOps.sum
  nBlockSize : s.nBlockSize = 1000 + (s.vtx.map fun tx => tx.serialize.length).sum
  sigOps_lt : s.nBlockSigOps < MAX_BLOCK_SIGOPS
  size_lt : s.vtx ≠ [] → s.nBlockSize < m.nBlockMaxSize

section Selected

variable {mapDependers : UInt256 → List ℕ} {held : List CTransaction} {n : ℕ} {s : Selecting F}

theorem Collected.selected {c : Collecting F} (h : m.Collected [] c) :
    Selected H m c.mapDependers [] (c.vecPriority.length + c.vOrphan.length)
      (m.startSelecting c) where
  sub := h.sub
  notCoinBase := h.notCoinBase
  points := h.points
  length_le := length_candidates_le c.vecPriority c.vOrphan
  connected := .nil
  nFees := rfl
  nBlockSigOps := rfl
  nBlockSize := rfl
  sigOps_lt := show 100 < MAX_BLOCK_SIGOPS by decide
  size_lt := fun hne => absurd rfl hne

/-- The candidates in another order. -/
theorem Selected.perm (h : Selected H m mapDependers held n s)
    {vecPriority : List (TxPriority F)} {vOrphan : List (COrphan F)}
    (hperm : (candidates vecPriority vOrphan).Perm (candidates s.vecPriority s.vOrphan))
    (hlen : vOrphan.length = s.vOrphan.length) :
    Selected H m mapDependers held n { s with vOrphan := vOrphan, vecPriority := vecPriority } where
  sub := (((hperm.append_left held).append_right s.vtx).subperm).trans h.sub
  notCoinBase := fun tx hmem => h.notCoinBase tx ((hperm.append_left held).subset hmem)
  points := fun hash k hk => (h.points hash k hk).trans_eq hlen.symm
  length_le := hperm.length_eq.trans_le h.length_le
  connected := h.connected
  nFees := h.nFees
  nBlockSigOps := h.nBlockSigOps
  nBlockSize := h.nBlockSize
  sigOps_lt := h.sigOps_lt
  size_lt := h.size_lt

/-- One candidate is taken off the queue. -/
theorem Selected.take (h : Selected H m mapDependers [] (n + 1) s) {item : TxPriority F}
    {s' : Selecting F} (htake : m.take s = some (item, s')) :
    Selected H m mapDependers [item.ptx] n s' := by
  unfold Miner.take at htake
  obtain ⟨item', hget, heq⟩ := Option.map_eq_some_iff.mp htake
  obtain ⟨rfl, rfl⟩ := Prod.mk.inj heq
  obtain ⟨hlt, hget⟩ := List.getElem?_eq_some_iff.mp hget
  have hperm := (List.getElem_cons_eraseIdx_perm hlt).map TxPriority.ptx
  rw [hget, List.map_cons] at hperm
  have hcandidates := hperm.append_right
    ((s.vOrphan.filter fun o => o.setDependsOn ≠ ∅).map COrphan.ptx)
  have hlen := hcandidates.length_eq.trans_le h.length_le
  refine { h with
    sub := (hcandidates.append_right s.vtx).subperm.trans h.sub
    notCoinBase := fun tx hmem => h.notCoinBase tx (hcandidates.subset hmem)
    length_le := Nat.succ_le_succ_iff.mp hlen }

theorem take_eq_none (h : m.take s = none) : s.vecPriority = [] := by
  unfold Miner.take at h
  by_contra hne
  have hpos := List.length_pos_of_ne_nil hne
  have hlt := Nat.mod_lt (m.floats.front s.nTaken s.fSortedByFee s.vecPriority) hpos
  rw [Option.map_eq_none_iff, List.getElem?_eq_none_iff] at h
  omega

/-- What was taken off the queue is dropped. -/
theorem Selected.drop {tx : CTransaction} (h : Selected H m mapDependers [tx] n s) :
    Selected H m mapDependers [] n s :=
  { h with
    sub := (List.sublist_cons_self tx _).subperm.trans h.sub
    notCoinBase := fun t hmem => h.notCoinBase t (List.mem_cons_of_mem tx hmem) }

theorem Selected.switch (h : Selected H m mapDependers held n s) (item : TxPriority F) :
    Selected H m mapDependers held n (m.switch s item) := by
  unfold Miner.switch
  split
  · exact { h with }
  · exact h

theorem candidates_waits (vecPriority : List (TxPriority F)) (l l' : List (COrphan F))
    {o : COrphan F} (ho : o.setDependsOn ≠ ∅) : (candidates vecPriority (l ++ o :: l')).Perm
      (o.ptx :: candidates vecPriority (l ++ l')) := by
  unfold candidates
  rw [List.filter_append, List.filter_cons_of_pos (by simpa using ho), List.filter_append,
    List.map_append, List.map_cons, List.map_append]
  exact (List.Perm.append_left _ List.perm_middle).trans List.perm_middle

theorem candidates_free (vecPriority : List (TxPriority F)) (l l' : List (COrphan F))
    {o : COrphan F} (ho : o.setDependsOn = ∅) :
    candidates vecPriority (l ++ o :: l') = candidates vecPriority (l ++ l') := by
  unfold candidates
  rw [List.filter_append, List.filter_cons_of_neg (by simpa using ho), List.filter_append]

/-- A transaction that waits is changed, or is in the queue. -/
theorem candidates_release {vecPriority : List (TxPriority F)} {vOrphan : List (COrphan F)}
    {porphan : ℕ} {o : COrphan F} (hget : vOrphan[porphan]? = some o) (hdeps : o.setDependsOn ≠ ∅)
    (setDependsOn : Finset UInt256) :
    (candidates (if setDependsOn = ∅ then vecPriority ++ [⟨o.dPriority, o.dFeePerKb, o.ptx⟩]
        else vecPriority) (vOrphan.set porphan { o with setDependsOn := setDependsOn })).Perm
      (candidates vecPriority vOrphan) := by
  obtain ⟨hlt, hget⟩ := List.getElem?_eq_some_iff.mp hget
  have hsplit := List.take_append_drop porphan vOrphan
  rw [List.drop_eq_getElem_cons hlt, hget] at hsplit
  have hwaits := candidates_waits vecPriority (vOrphan.take porphan)
    (vOrphan.drop (porphan + 1)) hdeps
  rw [hsplit] at hwaits
  rw [List.set_eq_take_append_cons_drop, if_pos hlt]
  refine List.Perm.trans ?_ hwaits.symm
  by_cases hempty : setDependsOn = ∅
  · rw [if_pos hempty, candidates_free _ _ _ hempty]
    exact candidates_append_item _ _ _
  · rw [if_neg hempty]
    exact candidates_waits _ _ _ hempty

theorem Selected.release (h : Selected H m mapDependers held n s) {hash : UInt256} {porphan : ℕ}
    (hmem : porphan ∈ mapDependers hash) :
    Ends (Selected H m mapDependers held n) m.Throws (release hash s porphan) := by
  have hlt := h.points hash porphan hmem
  unfold Miner.release
  rw [List.getElem?_eq_getElem hlt]
  dsimp only
  split
  · exact h
  · rename_i hdeps
    exact h.perm (candidates_release (List.getElem?_eq_getElem hlt) hdeps _) (List.length_set ..)

theorem Selected.mem_pool {tx : CTransaction} (h : Selected H m mapDependers [tx] n s) :
    tx ∈ m.mempool.pool := mem_poolTxs.mp (h.sub.subset List.mem_cons_self)

theorem Selected.best (h : Selected H m mapDependers held n s) (hm : m.Consistent H) :
    m.env.mapBlockIndex[s.view.best]? = some m.pindexPrev := by
  rw [h.connected.best, hm.best]

/-- A check that passes or rejects. -/
theorem ends_passed {α : Type} {P : α → Prop} {x : Except Stop α} (h : Ends P Stop.Rejects x) :
    Ends (fun fChecked => fChecked = true → ∃ a, x = .ok a ∧ P a) m.Throws (passed x) := by
  cases x with
  | ok a => exact fun _ => ⟨a, rfl, h⟩
  | error stop =>
    obtain ⟨reject, rfl⟩ := h
    exact fun hfalse => absurd hfalse Bool.false_ne_true

/-- A transaction is put into the block. -/
theorem Selected.append {tx : CTransaction} (h : Selected H m mapDependers [tx] n s)
    (hsize : s.nBlockSize + tx.serialize.length < m.nBlockMaxSize) {view : FlatView}
    {vTxFee : ℤ} {nTxSigOps : ℕ}
    (hconnected : Connected H m (s.vtx ++ [tx]) (s.vTxFees ++ [vTxFee]) (s.vTxSigOps ++ [nTxSigOps])
      view) (hlimit : s.nBlockSigOps + nTxSigOps < MAX_BLOCK_SIGOPS) :
    Selected H m mapDependers [] n { s with
      view := view
      vtx := s.vtx ++ [tx]
      vTxFees := s.vTxFees ++ [vTxFee]
      vTxSigOps := s.vTxSigOps ++ [nTxSigOps]
      nBlockSize := s.nBlockSize + tx.serialize.length
      nBlockSigOps := s.nBlockSigOps + nTxSigOps
      nFees := s.nFees + vTxFee } where
  sub := by
    refine List.Perm.subperm ?_ |>.trans h.sub
    rw [List.nil_append, ← List.append_assoc]
    exact List.perm_append_singleton tx _
  notCoinBase := h.drop.notCoinBase
  points := h.points
  length_le := h.length_le
  connected := hconnected
  nFees := by rw [h.nFees, List.sum_append, List.sum_singleton]
  nBlockSigOps := by rw [h.nBlockSigOps, List.sum_append, List.sum_singleton, Nat.add_assoc]
  nBlockSize := by
    rw [h.nBlockSize, List.map_append, List.sum_append, List.map_singleton, List.sum_singleton,
      Nat.add_assoc]
  sigOps_lt := hlimit
  size_lt := fun _ => hsize

/-- What is added spends outputs of the view. -/
theorem Selected.add (hm : m.Consistent H) {tx : CTransaction}
    (h : Selected H m mapDependers [tx] n s)
    (hsize : s.nBlockSize + tx.serialize.length < m.nBlockMaxSize) :
    Ends (Selected H m mapDependers [] n) m.Throws (m.add H mapDependers s tx) := by
  have hcb := h.notCoinBase tx List.mem_cons_self
  unfold Miner.add
  cases hinputs : s.view.haveInputs tx with
  | false => exact h.drop
  | true =>
    have havailable := (FlatView.haveInputs_iff hcb).mp hinputs
    obtain ⟨nValueIn, hin⟩ : ∃ nValueIn, s.view.getValueIn tx = .ok nValueIn :=
      ⟨_, FlatView.getValueIn_eq_ok hcb havailable⟩
    obtain ⟨nP2SHSigOps, hp2sh⟩ : ∃ n, s.view.getP2SHSigOpCount tx = .ok n :=
      ⟨_, FlatView.getP2SHSigOpCount_eq_ok hcb havailable⟩
    rw [if_neg (by decide), hin, hp2sh]
    refine (ends_valueOut h.mem_pool).bind fun nValueOut hout => ?_
    change Ends _ _ (if _ then _ else _)
    split
    · exact h.drop
    rename_i hlimit
    refine (ends_passed (ends_checkInputs m.env hcb hinputs (h.best hm) hout true
      SCRIPT_VERIFY_P2SH false)).bind fun fChecked hchecked => ?_
    cases fChecked with
    | false => exact h.drop
    | true =>
      obtain ⟨checks, hchecks, hamounts⟩ := hchecked rfl
      rw [checkInputs_eq m.env hcb hinputs (h.best hm), hamounts] at hchecks
      obtain ⟨view, vprevout, hupdate, -⟩ := FlatView.exists_updateCoins hcb
        (hm.nodup_prevouts h.mem_pool) hinputs m.nHeight (tx.getHash H)
      have hconnects : Connects m.env m.pindexPrev SCRIPT_VERIFY_P2SH s.view tx :=
        ⟨hcb, hinputs, h.best hm, hamounts, verifies_of_checkScripts hchecks⟩
      have hadded := h.append hsize (.concat h.connected hconnects hin hout hp2sh hupdate)
        (not_le.mp hlimit)
      rw [if_neg (by decide)]
      dsimp only
      rw [hupdate]
      refine (Ends.foldlM (P := fun rest s => (∀ porphan ∈ rest,
        porphan ∈ mapDependers (tx.getHash H)) ∧ Selected H m mapDependers [] n s) ?_
        ⟨fun _ hmem => hmem, hadded⟩).mono (fun _ h => h.2) fun _ h => h
      rintro porphan rest s' ⟨hrest, hs'⟩
      rw [List.forall_mem_cons] at hrest
      exact (hs'.release hrest.1).mono (fun _ h => ⟨hrest.2, h⟩) fun _ h => h

theorem Selected.mono (h : Selected H m mapDependers held n s) {n' : ℕ} (hle : n ≤ n') :
    Selected H m mapDependers held n' s :=
  { h with length_le := h.length_le.trans hle }

/-- The loop ends with an empty queue. -/
theorem Selected.select (hm : m.Consistent H) : ∀ {n : ℕ} {s : Selecting F},
    Selected H m mapDependers [] n s →
    Ends (fun s' => Selected H m mapDependers [] n s' ∧ s'.vecPriority = []) m.Throws
      (m.select H mapDependers n s)
  | 0, s, h => by
    have hnil := List.eq_nil_of_length_eq_zero (Nat.le_zero.mp h.length_le)
    exact ⟨h, List.map_eq_nil_iff.mp (List.append_eq_nil_iff.mp hnil).1⟩
  | n + 1, s, h => by
    unfold Miner.select
    split
    · rename_i htake
      exact ⟨h, take_eq_none htake⟩
    · rename_i item s' htake
      have htaken := h.take htake
      have hle := Nat.le_succ n
      split
      · exact (htaken.drop.select hm).mono (fun _ h => ⟨h.1.mono hle, h.2⟩) fun _ h => h
      · rename_i hskips
        have hsize : s'.nBlockSize + item.ptx.serialize.length < m.nBlockMaxSize := by
          unfold skips at hskips
          simp only [Bool.or_eq_true, decide_eq_true_eq, not_or] at hskips
          exact not_le.mp hskips.1.1
        have hswitch : (m.switch s' item).nBlockSize = s'.nBlockSize := by
          unfold Miner.switch
          split <;> rfl
        refine ((htaken.switch item).add hm (by rw [hswitch]; exact hsize)).bind fun s₁ hs₁ => ?_
        exact (hs₁.select hm).mono (fun _ h => ⟨h.1.mono hle, h.2⟩) fun _ h => h

end Selected

/-- What is selected, of a pool that is consistent. -/
theorem ends_selectTransactions (hm : m.Consistent H) :
    Ends (fun s => (∃ mapDependers n, Selected H m mapDependers [] n s) ∧ s.vecPriority = [])
      m.Throws (m.selectTransactions H) := by
  unfold selectTransactions
  refine (ends_collect hm).bind fun c hc => ?_
  exact (hc.selected.select hm).mono (fun _ h => ⟨⟨_, _, h.1⟩, h.2⟩) fun _ h => h

/-! ## What is selected -/

/-- The output at an outpoint, of the last of some transactions that has the hash, or of the tip. -/
def outputAfter (H : Bytes → UInt256) (m : Miner F) (vtx : List CTransaction)
    (prevout : COutPoint) : Option CTxOut :=
  match vtx.reverse.find? fun tx => tx.getHash H = prevout.hash with
  | some tx => tx.vout[prevout.n.toNat]?
  | none => m.pcoinsTip.output prevout

/-- What the inputs of a transaction are worth more than its outputs. -/
def feeAfter (H : Bytes → UInt256) (m : Miner F) (vtx : List CTransaction) (tx : CTransaction) :
    ℤ :=
  (tx.vin.map fun txin =>
    ((outputAfter H m vtx txin.prevout).map fun txout => txout.nValue.toInt).getD 0).sum -
      (tx.vout.map fun txout => txout.nValue.toInt).sum

/-- The signature operations of a transaction, with those of scripts that are spent by their
hashes. -/
def sigOpsAfter (H : Bytes → UInt256) (m : Miner F) (vtx : List CTransaction) (tx : CTransaction) :
    ℕ :=
  getLegacySigOpCount tx + (tx.vin.map fun txin => ((outputAfter H m vtx txin.prevout).map
    fun txout => txout.p2shSigOps txin.scriptSig).getD 0).sum

/-- What is available in the view is an output of the tip or of a transaction before. -/
theorem Connected.outputAfter_eq (hm : m.Consistent H) {vtx : List CTransaction}
    {vTxFees : List ℤ} {vTxSigOps : List ℕ} {view : FlatView}
    (h : Connected H m vtx vTxFees vTxSigOps view) (hvtx : ∀ tx ∈ vtx, tx ∈ m.mempool.pool)
    {o : COutPoint} {txout : CTxOut} (hout : view.output o = some txout) :
    outputAfter H m vtx o = some txout := by
  induction h with
  | nil => exact hout
  | @concat vtx _ _ view view' tx _ _ _ _ _ hconnects _ _ _ hupdate ih =>
    rw [List.forall_mem_append, List.forall_mem_singleton] at hvtx
    rw [FlatView.output_updateCoins hconnects.notCoinBase (hm.nodup_prevouts hvtx.2)
      hconnects.haveInputs hupdate] at hout
    unfold outputAfter
    rw [List.reverse_append, List.reverse_singleton, List.singleton_append, List.find?_cons]
    by_cases hhash : o.hash = tx.getHash H
    · rw [if_pos hhash] at hout
      rw [hhash]
      simp only [decide_true]
      exact CCoins.output_ofTx hout
    · rw [if_neg hhash] at hout
      rw [decide_eq_false (Ne.symm hhash)]
      split at hout
      · cases hout
      · exact ih hvtx.1 hout

/-- Whatever a selection adds up is a sum along the transactions. -/
theorem Connected.sums (hm : m.Consistent H) {vtx : List CTransaction} {vTxFees : List ℤ}
    {vTxSigOps : List ℕ} {view : FlatView} (h : Connected H m vtx vTxFees vTxSigOps view)
    (hvtx : ∀ tx ∈ vtx, tx ∈ m.mempool.pool) :
    (∀ before tx, before ++ [tx] <+: vtx → ∀ txin ∈ tx.vin,
      ∃ txout, outputAfter H m before txin.prevout = some txout) ∧
    vTxFees.sum = Ledger.sumAlong (feeAfter H m) [] vtx ∧
    vTxSigOps.sum = Ledger.sumAlong (sigOpsAfter H m) [] vtx := by
  induction h with
  | nil =>
    refine ⟨fun before tx hpre => ?_, rfl, rfl⟩
    exact absurd (List.prefix_nil.mp hpre) (by simp)
  | @concat vtx vTxFees vTxSigOps view view' tx nValueIn nValueOut nP2SHSigOps _ hconnected
      hconnects hin hout hp2sh _ ih =>
    rw [List.forall_mem_append, List.forall_mem_singleton] at hvtx
    obtain ⟨ihinputs, ihfees, ihsigops⟩ := ih hvtx.1
    have havailable := (FlatView.haveInputs_iff hconnects.notCoinBase).mp hconnects.haveInputs
    -- the outputs that are spent, as the view has them
    have heq : ∀ txin ∈ tx.vin, view.output txin.prevout = outputAfter H m vtx txin.prevout := by
      intro txin hmem
      obtain ⟨txout, hget⟩ := havailable txin hmem
      rw [hget, hconnected.outputAfter_eq hm hvtx.1 hget]
    rw [FlatView.getValueIn_eq_ok hconnects.notCoinBase havailable, Except.ok.injEq] at hin
    rw [FlatView.getP2SHSigOpCount_eq_ok hconnects.notCoinBase havailable, Except.ok.injEq] at hp2sh
    refine ⟨fun before t hpre => ?_, ?_, ?_⟩
    · rcases List.prefix_concat_iff.mp hpre with hlast | hpre
      · obtain ⟨rfl, ht⟩ := List.append_inj' hlast rfl
        obtain rfl := List.singleton_inj.mp ht
        intro txin hmem
        rw [← heq txin hmem]
        exact havailable txin hmem
      · exact ihinputs before t hpre
    · rw [Ledger.sumAlong_concat, List.sum_append, List.sum_singleton, ihfees, List.nil_append,
        ← hin, (valueOut_eq_ok hout).1]
      unfold feeAfter FlatView.outputValue
      rw [List.map_congr_left fun txin hmem => by rw [heq txin hmem]]
    · rw [Ledger.sumAlong_concat, List.sum_append, List.sum_singleton, ihsigops, List.nil_append,
        ← hp2sh]
      unfold sigOpsAfter
      rw [List.map_congr_left fun txin hmem => by rw [heq txin hmem]]

/-- What may be put into a block after its coinbase : different transactions of the pool that are no
coinbases. Each spends outputs of the tip or of those before it, and no output is spent twice. They
are below the limits of a block, and their fees are what they pay. -/
structure Selection (H : Bytes → UInt256) (m : Miner F) (s : Selecting F) : Prop where
  pool : ∀ tx ∈ s.vtx, tx ∈ m.mempool.pool ∧ tx.isCoinBase = false
  txids : (s.vtx.map (CTransaction.getHash H)).Nodup
  inputs : ∀ before tx, before ++ [tx] <+: s.vtx → ∀ txin ∈ tx.vin,
    ∃ txout, outputAfter H m before txin.prevout = some txout
  spends : (s.vtx.flatMap fun tx => tx.vin.map CTxIn.prevout).Nodup
  size : s.vtx ≠ [] → 1000 + (s.vtx.map fun tx => tx.serialize.length).sum < m.nBlockMaxSize
  sigOps : 100 + Ledger.sumAlong (sigOpsAfter H m) [] s.vtx < MAX_BLOCK_SIGOPS
  nFees : s.nFees = Ledger.sumAlong (feeAfter H m) [] s.vtx

theorem Connected.notCoinBase {vtx : List CTransaction} {vTxFees : List ℤ} {vTxSigOps : List ℕ}
    {view : FlatView} (h : Connected H m vtx vTxFees vTxSigOps view) :
    ∀ tx ∈ vtx, tx.isCoinBase = false := by
  induction h with
  | nil => exact List.forall_mem_nil _
  | concat _ hconnects _ _ _ _ ih =>
    exact List.forall_mem_append.mpr ⟨ih, List.forall_mem_singleton.mpr hconnects.notCoinBase⟩

theorem nodup_map_of_subperm {α β : Type} {f : α → β} {l l' : List α} (h : l.Subperm l')
    (hnodup : (l'.map f).Nodup) : (l.map f).Nodup := by
  obtain ⟨l₁, hperm, hsub⟩ := h
  exact (hperm.map f).nodup_iff.mp (hnodup.sublist (hsub.map f))

theorem Selected.selection (hm : m.Consistent H) {mapDependers : UInt256 → List ℕ}
    {held : List CTransaction} {n : ℕ} {s : Selecting F} (h : Selected H m mapDependers held n s) :
    Selection H m s := by
  have hsub : s.vtx.Subperm m.poolTxs := (List.sublist_append_right _ _).subperm.trans h.sub
  have hpool : ∀ tx ∈ s.vtx, tx ∈ m.mempool.pool := fun tx hmem => mem_poolTxs.mp (hsub.subset hmem)
  have htxids : (s.vtx.map (CTransaction.getHash H)).Nodup :=
    nodup_map_of_subperm hsub hm.nodup_hashes
  obtain ⟨hinputs, hfees, hsigops⟩ := h.connected.sums hm hpool
  refine ⟨fun tx hmem => ⟨hpool tx hmem, h.connected.notCoinBase tx hmem⟩, htxids, hinputs, ?_, ?_,
    ?_, ?_⟩
  · refine Ledger.nodup_flatMap_of htxids.of_map
      (fun tx hmem => hm.nodup_prevouts (hpool tx hmem)) ?_
    intro t ht t' ht' o ho ho'
    obtain ⟨txin, hin, rfl⟩ := List.mem_map.mp ho
    obtain ⟨txin', hin', heq⟩ := List.mem_map.mp ho'
    exact hm.indexed.eq_of_prevout (hpool t ht) (hpool t' ht') hin hin' heq.symm
  · rw [← h.nBlockSize]
    exact h.size_lt
  · rw [← hsigops, ← h.nBlockSigOps]
    exact h.sigOps_lt
  · rw [h.nFees, hfees]

/-- Of a pool that is consistent, the selection can be connected in its order. All candidates were
considered. -/
theorem selectTransactions_spec (hm : m.Consistent H) :
    Ends (fun s => Selection H m s ∧ s.vecPriority = []) m.Throws (m.selectTransactions H) :=
  (ends_selectTransactions hm).mono (fun _ ⟨⟨_, _, h⟩, hnil⟩ => ⟨h.selection hm, hnil⟩) fun _ h => h

end Miner

/-! ## A transaction and one that spends it -/

def minedParent : CTransaction := ⟨2, [⟨⟨9, 0⟩, [], 0⟩], [⟨40, [0x51]⟩], 0⟩

def minedChild : CTransaction := ⟨4, [⟨⟨2, 0⟩, [], 0⟩], [⟨30, [0x51]⟩], 0⟩

/-- A hash that is the first byte of the version. -/
def versionHash (b : Bytes) : UInt256 := BitVec.ofNat 256 (b.getD 0 0).toNat

/-- The tip has one coin that anyone can spend. -/
def minedTip : FlatView where
  coins := Function.update (fun _ => none) 9 (some ⟨false, [⟨50, [0x51]⟩], 0, 1⟩)
  best := (chainParams .regTest).hashGenesisBlock

def minedPool : CTxMemPool :=
  ({ nTransactionsUpdated := 0 } : CTxMemPool).addUnchecked 2 ⟨minedParent⟩ |>.addUnchecked 4
    ⟨minedChild⟩

def sampleMiner : Miner Unit where
  env := { connectEnv with
    mapBlockIndex :=
      (∅ : Std.ExtTreeMap UInt256 CBlockIndex).insert minedTip.best (.root sampleGenesis)
    verifyScript := fun check => check.scriptPubKey == [0x51] }
  floats := {
    zero := ()
    addAge := fun _ _ _ => ()
    computePriority := fun _ _ _ => ()
    perKb := fun _ _ => ()
    belowMinRelayTxFee := fun _ => false
    allowFree := fun _ => true
    front := fun _ _ _ => 0 }
  pindexPrev := .root sampleGenesis
  pcoinsTip := minedTip
  mempool := minedPool
  blockmaxsize := 100000
  blockprioritysize := 50000
  blockminsize := 0

theorem mem_minedPool {tx : CTransaction} (h : tx ∈ minedPool.pool) :
    tx = minedChild ∨ tx = minedParent := by
  obtain ⟨hash, entry, hget, rfl⟩ := h
  change ((∅ : Std.ExtTreeMap UInt256 CTxMemPoolEntry).insert 2 ⟨minedParent⟩ |>.insert 4
    ⟨minedChild⟩)[hash]? = _ at hget
  rw [Std.ExtTreeMap.getElem?_insert, Std.ExtTreeMap.getElem?_insert] at hget
  split at hget
  · cases hget
    exact .inl rfl
  · split at hget
    · cases hget
      exact .inr rfl
    · rw [Std.ExtTreeMap.getElem?_empty] at hget
      cases hget

theorem indexed_minedPool : CTxMemPool.Indexed versionHash Set.univ minedPool := by
  have hempty : CTxMemPool.Indexed versionHash Set.univ { nTransactionsUpdated := 0 } := .empty
  have hparent : CTxMemPool.Indexed versionHash Set.univ
      (CTxMemPool.addUnchecked (minedParent.getHash versionHash) ⟨minedParent⟩
        { nTransactionsUpdated := 0 }) :=
    hempty.addUnchecked trivial (List.nodup_singleton _) (fun _ _ => rfl) rfl
  have hnodup : (minedChild.vin.map CTxIn.prevout).Nodup := List.nodup_singleton _
  exact hparent.addUnchecked trivial hnodup (by decide) (by decide)

theorem consistent_sampleMiner : sampleMiner.Consistent versionHash where
  indexed := indexed_minedPool
  inputs := by
    intro tx hmem _ txin hin
    rcases mem_minedPool hmem with rfl | rfl
    · rw [List.mem_singleton.mp hin]
      exact .inr ⟨rfl, minedParent, ⟨2, ⟨minedParent⟩, rfl, rfl⟩, rfl, by decide⟩
    · rw [List.mem_singleton.mp hin]
      exact .inl ⟨⟨50, [0x51]⟩, rfl⟩
  best := Std.ExtTreeMap.getElem?_insert_self
  phashBlock := rfl

theorem selectTransactions_sampleMiner :
    Ends (fun s => Miner.Selection versionHash sampleMiner s ∧ s.vecPriority = [])
      sampleMiner.Throws (sampleMiner.selectTransactions versionHash) :=
  Miner.selectTransactions_spec consistent_sampleMiner

end Ticoin
