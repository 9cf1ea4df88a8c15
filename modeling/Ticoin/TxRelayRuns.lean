import Ticoin.MempoolRuns
import Ticoin.TxRelay

/-!
# Transactions in every order of arrival

A set of transactions that can be accepted one after the other, parents first, may arrive in any
order. While they arrive, each that arrived is accepted, or an orphan that waits for a parent, or it
was erased and has two parents in the set (`Relaying.arrive`). So each order brings all of them to the
pool if and only if none of them has two parents in the set (`pooled_in_every_order_iff`). One that
has two is lost when it arrives first (`lost_of_first`).
-/

set_option linter.unusedSectionVars false

namespace Ticoin

open Codec Outcome

variable {H : Bytes → UInt256} {env : TxRelayEnv} {pool : CTxMemPool} {S : List CTransaction}
  {t : CTransaction} {orphans : OrphanPool}

/-! ## Arrivals -/

/-- The state of a node to which some transactions arrived. -/
structure Relaying (H : Bytes → UInt256) (S : List CTransaction) (pool : CTxMemPool)
    (seen : List CTransaction) (s : TxNode) : Prop where
  mempool : s.mempool = pool.addAll H s.relayed
  subset : s.relayed ⊆ S
  nodup : s.relayed.Nodup
  closed : ∀ t ∈ s.relayed, ∀ p ∈ S, p.getHash H ∈ t.parents → p ∈ s.relayed
  indexed : OrphanPool.Indexed H s.orphans
  orphans : OrphansIn S s.orphans
  /-- an orphan waits for a parent -/
  waits : ∀ (h : UInt256) (orphan : COrphanTx), s.orphans.mapOrphanTransactions[h]? = some orphan →
    ∃ p ∈ S, p.getHash H ∈ orphan.tx.parents ∧ p ∉ s.relayed
  seen : ∀ t ∈ seen, t ∈ S ∧ (t ∈ s.relayed ∨
    s.orphans.mapOrphanTransactions.contains (t.getHash H) = true ∨ TwoParents H S t)

/-- What the arrival of a transaction changes. -/
structure Arrived (H : Bytes → UInt256) (S : List CTransaction) (s : TxNode) (tx : CTransaction)
    (s' : TxNode) : Prop where
  relayed : s.relayed ⊆ s'.relayed
  origin : ∀ t ∈ s'.relayed, t ∈ s.relayed ∨ t = tx ∨
    s.orphans.mapOrphanTransactions.contains (t.getHash H) = true
  orphans : ∀ h : UInt256, s'.orphans.mapOrphanTransactions.contains h = true →
    s.orphans.mapOrphanTransactions.contains h = true ∨ h = tx.getHash H
  /-- an orphan is left if none of its parents was accepted -/
  left : ∀ (h : UInt256) (orphan : COrphanTx), s'.orphans.mapOrphanTransactions[h]? = some orphan →
    ∀ p ∈ s'.relayed, p.getHash H ∈ orphan.tx.parents → p ∈ s.relayed
  accepted : (∀ p ∈ S, p.getHash H ∈ tx.parents → p ∈ s.relayed) → tx ∈ s'.relayed

/-- A set of transactions that a node can have, with none too big for an orphan, and no more of
them than the orphan limit. -/
structure Relayable (H : Bytes → UInt256) (env : TxRelayEnv) (pool : CTxMemPool)
    (S : List CTransaction) : Prop where
  acceptable : Acceptable H env pool S
  size : ∀ t ∈ S, ¬ t.getSerializeSize > 5000
  length : S.length ≤ env.nMaxOrphanTx

variable {seen : List CTransaction} {s : TxNode} {a : TxArrival}

theorem Relaying.start (nodes : MapNodeState) :
    Relaying H S pool [] { mempool := pool, mapNodeState := nodes } where
  mempool := rfl
  subset := List.nil_subset _
  nodup := List.nodup_nil
  closed t ht := absurd ht (List.not_mem_nil)
  indexed := OrphanPool.Indexed.empty
  orphans h orphan hget := by simp at hget
  waits h orphan hget := by simp at hget
  seen t ht := absurd ht (List.not_mem_nil)

/-- A transaction whose parents were accepted. -/
theorem Relaying.accept (hs : Relaying H S pool seen s) (hS : Acceptable H env pool S) (ha : a.tx ∈ S)
    (hnot : a.tx ∉ s.relayed) (hparents : ∀ p ∈ S, p.getHash H ∈ a.tx.parents → p ∈ s.relayed) :
    ∃ s', processTx H env s a = some s' ∧ Relaying H S pool (a.tx :: seen) s' ∧
      Arrived H S s a.tx s' := by
  have hstart : Working H S pool s.orphans s.relayed (s.relayed ++ [a.tx]) (a.tx.getHash H) []
      { mempool := pool.addAll H (s.relayed ++ [a.tx])
        relayed := s.relayed ++ [a.tx]
        mapNodeState := s.mapNodeState
        vWorkQueue := [a.tx.getHash H]
        vEraseQueue := [a.tx.getHash H] } := by
    refine ⟨rfl, ?_, ?_, ⟨[], (List.append_nil _).symm, fun t ht => absurd ht List.not_mem_nil⟩, ?_,
      fun peer => Std.ExtTreeSet.contains_empty, ?_, ?_, List.mem_cons_self, ?_⟩
    · exact List.append_subset.mpr ⟨hs.subset, fun t ht => List.mem_singleton.mp ht ▸ ha⟩
    · exact List.nodup_append.mpr ⟨hs.nodup, List.nodup_singleton _, fun t ht u hu heq =>
        hnot (List.mem_singleton.mp hu ▸ heq ▸ ht)⟩
    · intro t ht q hq hqt
      rcases List.mem_append.mp ht with ht | ht
      · exact List.mem_append_left _ (hs.closed t ht q hq hqt)
      · exact List.mem_append_left _ (hparents q hq (List.mem_singleton.mp ht ▸ hqt))
    · exact fun h hh => ⟨a.tx, List.mem_append_right _ List.mem_cons_self, (List.mem_singleton.mp hh).symm⟩
    · exact fun h hh => .inl (List.mem_singleton.mp hh)
    · intro h orphan hget p hp hnew hparent
      rcases List.mem_append.mp hp with hp | hp
      · exact absurd hp hnew
      · rw [List.mem_singleton.mp hp]
        exact .inl List.mem_cons_self
  obtain ⟨w, hrun, hw, hq⟩ : ∃ w, processOrphans H env s.orphans
      (s.orphans.mapOrphanTransactions.size + 1) _ = some w ∧ _ :=
    Working.processOrphans hS hs.indexed hs.orphans hstart (by
      dsimp only [List.length_singleton]
      omega)
  have hgrown : s.relayed ++ [a.tx] ⊆ w.relayed := by
    obtain ⟨B, hB, -⟩ := hw.grown
    rw [hB]
    exact List.subset_append_left _ _
  have hold : s.relayed ⊆ w.relayed := fun t ht => hgrown (List.mem_append_left _ ht)
  have hnew : a.tx ∈ w.relayed := hgrown (List.mem_append_right _ List.mem_cons_self)
  have hget : ∀ i : UInt256, (w.vEraseQueue.foldl (fun orphans hash => orphans.eraseOrphanTx hash)
      s.orphans).mapOrphanTransactions[i]? =
        if i ∈ w.vEraseQueue then none else s.orphans.mapOrphanTransactions[i]? := fun i =>
    OrphanPool.getElem?_eraseOrphanTxs i w.vEraseQueue s.orphans
  have hkept : ∀ (h : UInt256) (orphan : COrphanTx),
      (w.vEraseQueue.foldl (fun orphans hash => orphans.eraseOrphanTx hash)
        s.orphans).mapOrphanTransactions[h]? = some orphan →
      h ∉ w.vEraseQueue ∧ s.orphans.mapOrphanTransactions[h]? = some orphan := by
    intro h orphan hh
    rw [hget] at hh
    split at hh
    · cases hh
    · exact ⟨‹_›, hh⟩
  have hleft : ∀ (h : UInt256) (orphan : COrphanTx),
      (w.vEraseQueue.foldl (fun orphans hash => orphans.eraseOrphanTx hash)
        s.orphans).mapOrphanTransactions[h]? = some orphan →
      ∀ p ∈ w.relayed, p.getHash H ∈ orphan.tx.parents → p ∈ s.relayed := by
    intro h orphan hh p hp hparent
    obtain ⟨hne, hh⟩ := hkept h orphan hh
    by_contra hpnew
    rcases hw.tried h orphan hh p hp hpnew hparent with hqueue | herase | hnil
    · rw [hq] at hqueue
      cases hqueue
    · exact hne herase
    · cases hnil
  refine ⟨{ s with
      mempool := w.mempool
      relayed := w.relayed
      mapNodeState := w.mapNodeState
      orphans := w.vEraseQueue.foldl (fun orphans hash => orphans.eraseOrphanTx hash) s.orphans },
    ?_, ⟨hw.mempool, hw.subset, hw.nodup, hw.closed, ?_, ?_, ?_, ?_⟩, ⟨hold, ?_, ?_, hleft, fun _ => hnew⟩⟩
  · unfold processTx
    dsimp only
    rw [hs.mempool, hS.accept hs.subset ha hnot hparents]
    dsimp only
    rw [hrun]
    rfl
  · exact List.foldlRecOn (motive := OrphanPool.Indexed H) _ _ hs.indexed
      fun orphans ho hash _ => ho.eraseOrphanTx hash
  · exact fun h orphan hh => hs.orphans h orphan (hkept h orphan hh).2
  · intro h orphan hh
    obtain ⟨p, hp, hparent, hmissing⟩ := hs.waits h orphan (hkept h orphan hh).2
    exact ⟨p, hp, hparent, fun hpw => hmissing (hleft h orphan hh p hpw hparent)⟩
  · intro t ht
    rcases List.mem_cons.mp ht with rfl | ht
    · exact ⟨ha, .inl hnew⟩
    obtain ⟨htS, hor⟩ := hs.seen t ht
    refine ⟨htS, ?_⟩
    rcases hor with hmem | horphan | htwo
    · exact .inl (hold hmem)
    · by_cases herase : t.getHash H ∈ w.vEraseQueue
      · rcases hw.erased _ herase with heq | ⟨orphan, ho, hor⟩
        · exact .inl (hS.hash_inj t htS a.tx ha heq ▸ hnew)
        · have htx : orphan.tx = t := hS.hash_inj _ (hs.orphans _ _ ho) t htS (hs.indexed.hash _ _ ho)
          exact (htx ▸ hor).imp_right .inr
      · refine .inr (.inl ?_)
        rw [Std.ExtTreeMap.contains_eq_isSome_getElem?] at horphan ⊢
        dsimp only
        rw [hget, if_neg herase, horphan]
    · exact .inr (.inr htwo)
  · intro t ht
    obtain ⟨B, hB, hfrom⟩ := hw.grown
    rw [hB] at ht
    rcases List.mem_append.mp ht with ht | ht
    · exact (List.mem_append.mp ht).imp_right fun ht => .inl (List.mem_singleton.mp ht)
    · exact .inr (.inr (hfrom t ht))
  · intro h hh
    rw [Std.ExtTreeMap.contains_eq_isSome_getElem?] at hh
    obtain ⟨orphan, ho⟩ := Option.isSome_iff_exists.mp hh
    refine .inl ?_
    rw [Std.ExtTreeMap.contains_eq_isSome_getElem?, (hkept h orphan ho).2]
    rfl

/-- There are no more orphans than transactions in the set. -/
theorem size_orphans_le (hindex : OrphanPool.Indexed H orphans) (hin : OrphansIn S orphans) :
    orphans.mapOrphanTransactions.size ≤ S.length := by
  have hkeys : orphans.mapOrphanTransactions.keys ⊆ S.map (·.getHash H) := by
    intro h hh
    have hmem := Std.ExtTreeMap.mem_keys.mp hh
    rw [Std.ExtTreeMap.mem_iff_isSome_getElem?] at hmem
    obtain ⟨orphan, hget⟩ := Option.isSome_iff_exists.mp hmem
    exact hindex.hash h orphan hget ▸ List.mem_map_of_mem (hin h orphan hget)
  have hnodup : orphans.mapOrphanTransactions.keys.Nodup :=
    Std.ExtTreeMap.nodup_keys
  have hle := (hnodup.subperm hkeys).length_le
  rwa [Std.ExtTreeMap.length_keys, List.length_map] at hle

/-- A transaction with a parent that was not accepted yet. -/
theorem Relaying.wait (hs : Relaying H S pool seen s) (hS : Relayable H env pool S) (ha : a.tx ∈ S)
    (hnot : a.tx ∉ s.relayed) {p : CTransaction} (hp : p ∈ S)
    (hparent : p.getHash H ∈ a.tx.parents) (hmissing : p ∉ s.relayed) :
    ∃ s', processTx H env s a = some s' ∧ Relaying H S pool (a.tx :: seen) s' ∧
      Arrived H S s a.tx s' := by
  have hget := fun i : UInt256 =>
    OrphanPool.getElem?_addOrphanTx (s := s.orphans) (H := H) a.tx a.peer i (hS.size a.tx ha)
  have hindex := hs.indexed.addOrphanTx a.tx a.peer
  have hcases : ∀ (h : UInt256) (orphan : COrphanTx),
      (s.orphans.addOrphanTx H a.tx a.peer).2.mapOrphanTransactions[h]? = some orphan →
        s.orphans.mapOrphanTransactions[h]? = some orphan ∨ h = a.tx.getHash H ∧ orphan.tx = a.tx := by
    intro h orphan hh
    rw [hget] at hh
    split at hh
    · rcases Option.or_eq_some_iff.mp hh with hh | ⟨-, hh⟩
      · exact .inl hh
      · exact .inr ⟨‹_›, Option.some.inj hh ▸ rfl⟩
    · exact .inl hh
  have hin : OrphansIn S (s.orphans.addOrphanTx H a.tx a.peer).2 := fun h orphan hh =>
    (hcases h orphan hh).elim (fun hh => hs.orphans h orphan hh) fun hh => hh.2 ▸ ha
  have hmono : ∀ h : UInt256, s.orphans.mapOrphanTransactions.contains h = true →
      (s.orphans.addOrphanTx H a.tx a.peer).2.mapOrphanTransactions.contains h = true := by
    intro h hh
    rw [Std.ExtTreeMap.contains_eq_isSome_getElem?] at hh ⊢
    obtain ⟨orphan, ho⟩ := Option.isSome_iff_exists.mp hh
    rw [hget, ho]
    split <;> rfl
  have hadded : (s.orphans.addOrphanTx H a.tx a.peer).2.mapOrphanTransactions.contains
      (a.tx.getHash H) = true := by
    rw [Std.ExtTreeMap.contains_eq_isSome_getElem?, hget, if_pos rfl, Option.isSome_or]
    exact Bool.or_true _
  have hle := (size_orphans_le hindex hin).trans hS.length
  refine ⟨{ s with orphans := (s.orphans.addOrphanTx H a.tx a.peer).2 }, ?_,
    ⟨hs.mempool, hs.subset, hs.nodup, hs.closed, hindex, hin, ?_, ?_⟩,
    ⟨List.Subset.refl _, fun t ht => .inl ht, ?_, fun h orphan _ q hq _ => hq,
      fun h => absurd (h p hp hparent) hmissing⟩⟩
  · unfold processTx
    dsimp only
    rw [hs.mempool, hS.acceptable.missing hs.subset ha hnot hp hparent hmissing]
    dsimp only
    rw [OrphanPool.limitOrphanTxSize_of_le a.rnd hle]
  · intro h orphan hh
    rcases hcases h orphan hh with hh | ⟨-, htx⟩
    · exact hs.waits h orphan hh
    · exact ⟨p, hp, htx ▸ hparent, hmissing⟩
  · intro t ht
    rcases List.mem_cons.mp ht with rfl | ht
    · exact ⟨ha, .inr (.inl hadded)⟩
    · exact (hs.seen t ht).imp_right fun hor => hor.imp_right fun hor => hor.imp_left (hmono _)
  · intro h hh
    rw [Std.ExtTreeMap.contains_eq_isSome_getElem?] at hh
    obtain ⟨orphan, ho⟩ := Option.isSome_iff_exists.mp hh
    rcases hcases h orphan ho with ho | ⟨hhash, -⟩
    · refine .inl ?_
      rw [Std.ExtTreeMap.contains_eq_isSome_getElem?, ho]
      rfl
    · exact .inr hhash

/-- A transaction of the set arrives. -/
theorem Relaying.arrive (hs : Relaying H S pool seen s) (hS : Relayable H env pool S)
    (ha : a.tx ∈ S) : ∃ s', processTx H env s a = some s' ∧
      Relaying H S pool (a.tx :: seen) s' ∧ Arrived H S s a.tx s' := by
  by_cases hmem : a.tx ∈ s.relayed
  · refine ⟨s, ?_, ⟨hs.mempool, hs.subset, hs.nodup, hs.closed, hs.indexed, hs.orphans, hs.waits, ?_⟩,
      ⟨List.Subset.refl _, fun t ht => .inl ht, fun h hh => .inl hh, fun h orphan _ p hp _ => hp,
        fun _ => hmem⟩⟩
    · unfold processTx
      dsimp only
      rw [hs.mempool, hS.acceptable.again hs.subset hmem]
    · intro t ht
      rcases List.mem_cons.mp ht with rfl | ht
      · exact ⟨ha, .inl hmem⟩
      · exact hs.seen t ht
  by_cases hparents : ∀ p ∈ S, p.getHash H ∈ a.tx.parents → p ∈ s.relayed
  · exact hs.accept hS.acceptable ha hmem hparents
  · obtain ⟨p, hp, hparent, hmissing⟩ : ∃ p ∈ S, p.getHash H ∈ a.tx.parents ∧ p ∉ s.relayed := by
      by_contra hnone
      exact hparents fun p hp hparent => by_contra fun hmissing => hnone ⟨p, hp, hparent, hmissing⟩
    exact hs.wait hS ha hmem hp hparent hmissing

/-! ## Every order -/

/-- The transactions arrive in some order, any of them more than once, from any peers. -/
theorem Relaying.run (hS : Relayable H env pool S) : ∀ {arrivals : List TxArrival}
    {seen : List CTransaction} {s : TxNode}, Relaying H S pool seen s → (∀ a ∈ arrivals, a.tx ∈ S) →
      ∃ s', arrivals.foldlM (processTx H env) s = some s' ∧
        Relaying H S pool ((arrivals.map (·.tx)).reverse ++ seen) s'
  | [], seen, s, hs, _ => ⟨s, rfl, hs⟩
  | a :: arrivals, seen, s, hs, harrivals => by
    obtain ⟨s₁, hstep, hs₁, -⟩ := hs.arrive hS (harrivals a List.mem_cons_self)
    obtain ⟨s₂, hrun, hs₂⟩ := Relaying.run hS hs₁ fun b hb =>
      harrivals b (List.mem_cons_of_mem a hb)
    refine ⟨s₂, ?_, ?_⟩
    · rw [List.foldlM_cons, hstep]
      exact hrun
    · rwa [List.map_cons, List.reverse_cons, List.append_assoc]

/-- When all arrived, and none has two parents in the set, all are accepted : an orphan would wait
for a parent that comes before it. -/
theorem Relaying.pooled (hs : Relaying H S pool seen s) (hS : Relayable H env pool S)
    (hseen : S ⊆ seen) (hone : ∀ t ∈ S, ¬ TwoParents H S t) : S ⊆ s.relayed := by
  have hinit : ∀ (l l' : List CTransaction), S = l ++ l' → l ⊆ s.relayed := by
    intro l
    induction l using List.reverseRecOn with
    | nil => exact fun _ _ => List.nil_subset _
    | append_singleton l t ih =>
      intro l' hsplit
      rw [List.append_assoc, List.singleton_append] at hsplit
      have hl := ih _ hsplit
      have ht : t ∈ S := hsplit ▸ List.mem_append_right _ List.mem_cons_self
      refine List.append_subset.mpr ⟨hl, fun u hu => List.mem_singleton.mp hu ▸ ?_⟩
      rcases (hs.seen t (hseen ht)).2 with hmem | horphan | htwo
      · exact hmem
      · rw [Std.ExtTreeMap.contains_eq_isSome_getElem?] at horphan
        obtain ⟨orphan, ho⟩ := Option.isSome_iff_exists.mp horphan
        have htx : orphan.tx = t :=
          hS.acceptable.hash_inj _ (hs.orphans _ _ ho) t ht (hs.indexed.hash _ _ ho)
        obtain ⟨p, hp, hparent, hmissing⟩ := hs.waits _ _ ho
        exact absurd (hl (hS.acceptable.parent_mem hsplit hp (htx ▸ hparent))) hmissing
      · exact absurd htwo (hone t ht)
  exact hinit S [] (List.append_nil S).symm

/-- What was accepted is in the pool. -/
theorem Relaying.contains_iff (hs : Relaying H S pool seen s) (hS : Relayable H env pool S)
    (ht : t ∈ S) : s.mempool.mapTx.contains (t.getHash H) = true ↔ t ∈ s.relayed := by
  have hiff := hS.acceptable.getElem?_mapTx hs.subset ht
  rw [hs.mempool, Std.ExtTreeMap.contains_eq_isSome_getElem?, Option.isSome_iff_ne_none, Ne, hiff,
    not_not]

/-! ## Losing a transaction -/

/-- A transaction arrived before its parents, and the ones that were accepted since are `done`. If it
is an orphan still, none of its parents is among them. -/
structure Losing (H : Bytes → UInt256) (S : List CTransaction) (t : CTransaction)
    (done : List CTransaction) (s : TxNode) : Prop where
  not_mem : t ∉ s.relayed
  done : done ⊆ s.relayed
  only : ∀ h : UInt256, s.orphans.mapOrphanTransactions.contains h = true → h = t.getHash H
  waits : s.orphans.mapOrphanTransactions.contains (t.getHash H) = true →
    ∀ p ∈ S, p.getHash H ∈ t.parents → p ∉ s.relayed

/-- A transaction that is neither accepted nor an orphan. -/
structure Lost (H : Bytes → UInt256) (t : CTransaction) (s : TxNode) : Prop where
  not_mem : t ∉ s.relayed
  no_orphan : s.orphans.mapOrphanTransactions.contains (t.getHash H) = false

variable {s' : TxNode} {done l l' : List CTransaction}

section Losing

variable (hS : Relayable H env pool S) (hsplit : S = l ++ t :: l')
include hS hsplit

theorem parent_ne {p : CTransaction} (hp : p ∈ S) (hparent : p.getHash H ∈ t.parents) : p ≠ t :=
  fun heq => hS.acceptable.hash_ne hsplit (hS.acceptable.parent_mem hsplit hp hparent)
    (congrArg (CTransaction.getHash H) heq)

/-- It arrives first. -/
theorem Losing.start {nodes : MapNodeState} (htwo : TwoParents H S t)
    (hs' : Relaying H S pool seen s')
    (harrived : Arrived H S { mempool := pool, mapNodeState := nodes } t s') :
    Losing H S t [] s' := by
  have hempty : ∀ h : UInt256, ¬ (∅ : Std.ExtTreeMap UInt256 COrphanTx).contains h = true := by simp
  have hrelayed : ∀ u ∈ s'.relayed, u = t := by
    intro u hu
    rcases harrived.origin u hu with hu | hu | hu
    · cases hu
    · exact hu
    · exact absurd hu (hempty _)
  have hnone : ∀ p ∈ S, p.getHash H ∈ t.parents → p ∉ s'.relayed := fun p hp hparent hmem =>
    parent_ne hS hsplit hp hparent (hrelayed p hmem)
  refine ⟨fun hmem => ?_, List.nil_subset _, fun h hh => ?_, fun _ => hnone⟩
  · obtain ⟨p, hp, -, -, hparent, -, -⟩ := htwo
    exact hnone p hp hparent (hs'.closed t hmem p hp hparent)
  · exact (harrived.orphans h hh).resolve_left (hempty h)

/-- Another arrives, whose parents were accepted. -/
theorem Losing.arrive (hl : Losing H S t done s) (htwo : TwoParents H S t) {tx : CTransaction}
    (htx : tx ∈ S) (hne : tx ≠ t)
    (hparents : ∀ p ∈ S, p.getHash H ∈ tx.parents → p ∈ s.relayed)
    (hs' : Relaying H S pool seen s') (harrived : Arrived H S s tx s') :
    Losing H S t (done ++ [tx]) s' := by
  have ht : t ∈ S := hsplit ▸ List.mem_append_right _ List.mem_cons_self
  have hold : ∀ orphan, s'.orphans.mapOrphanTransactions[t.getHash H]? = some orphan →
      s.orphans.mapOrphanTransactions.contains (t.getHash H) = true := by
    intro orphan ho
    refine (harrived.orphans _ ?_).resolve_right fun heq =>
      hne (hS.acceptable.hash_inj t ht tx htx heq).symm
    rw [Std.ExtTreeMap.contains_eq_isSome_getElem?, ho]
    rfl
  refine ⟨fun hmem => ?_, ?_, fun h hh => ?_, fun hh p hp hparent hmem => ?_⟩
  · -- its parents would be accepted both, but only one arrived
    have horphan := ((harrived.origin t hmem).resolve_left hl.not_mem).resolve_left fun heq =>
      hne heq.symm
    have hone : ∀ p ∈ S, p.getHash H ∈ t.parents → p = tx := by
      intro p hp hparent
      rcases harrived.origin p (hs'.closed t hmem p hp hparent) with hmem | heq | hh
      · exact absurd hmem (hl.waits horphan p hp hparent)
      · exact heq
      · exact absurd (hS.acceptable.hash_inj p hp t ht (hl.only _ hh)) (parent_ne hS hsplit hp hparent)
    obtain ⟨p, hp, q, hq, hpt, hqt, hpq⟩ := htwo
    exact hpq ((hone p hp hpt).trans (hone q hq hqt).symm)
  · refine List.append_subset.mpr ⟨fun u hu => harrived.relayed (hl.done hu), fun u hu => ?_⟩
    exact List.mem_singleton.mp hu ▸ harrived.accepted hparents
  · rcases harrived.orphans h hh with hh' | heq
    · exact hl.only h hh'
    · rw [Std.ExtTreeMap.contains_eq_isSome_getElem?] at hh
      obtain ⟨orphan, ho⟩ := Option.isSome_iff_exists.mp hh
      have hotx : orphan.tx = tx := hS.acceptable.hash_inj _ (hs'.orphans _ _ ho) tx htx
        ((hs'.indexed.hash _ _ ho).trans heq)
      obtain ⟨p, hp, hparent, hmissing⟩ := hs'.waits _ _ ho
      exact absurd (harrived.relayed (hparents p hp (hotx ▸ hparent))) hmissing
  · rw [Std.ExtTreeMap.contains_eq_isSome_getElem?] at hh
    obtain ⟨orphan, ho⟩ := Option.isSome_iff_exists.mp hh
    have hotx : orphan.tx = t :=
      hS.acceptable.hash_inj _ (hs'.orphans _ _ ho) t ht (hs'.indexed.hash _ _ ho)
    have hmem' := harrived.left _ _ ho p hmem (hotx ▸ hparent)
    exact hl.waits (hold orphan ho) p hp hparent hmem'

/-- When its parents were accepted it is lost. -/
theorem Losing.lost (hl : Losing H S t l s) (htwo : TwoParents H S t) : Lost H t s := by
  refine ⟨hl.not_mem, Bool.not_eq_true _ ▸ fun horphan => ?_⟩
  obtain ⟨p, hp, -, -, hparent, -, -⟩ := htwo
  exact hl.waits horphan p hp hparent (hl.done (hS.acceptable.parent_mem hsplit hp hparent))

theorem Lost.arrive (hl : Lost H t s) {tx : CTransaction} (htx : tx ∈ S) (hne : tx ≠ t)
    (harrived : Arrived H S s tx s') : Lost H t s' := by
  have ht : t ∈ S := hsplit ▸ List.mem_append_right _ List.mem_cons_self
  refine ⟨fun hmem => ?_, Bool.not_eq_true _ ▸ fun hh => ?_⟩
  · rcases harrived.origin t hmem with hmem | heq | hh
    · exact hl.not_mem hmem
    · exact hne heq.symm
    · exact Bool.false_ne_true (hl.no_orphan.symm.trans hh)
  · rcases harrived.orphans _ hh with hh | heq
    · exact Bool.false_ne_true (hl.no_orphan.symm.trans hh)
    · exact hne (hS.acceptable.hash_inj t ht tx htx heq).symm

theorem Losing.run (htwo : TwoParents H S t) : ∀ {arrivals : List TxArrival}
    {done seen : List CTransaction} {s : TxNode}, l = done ++ arrivals.map (·.tx) →
    Relaying H S pool seen s → Losing H S t done s →
    ∃ seen' s', arrivals.foldlM (processTx H env) s = some s' ∧ Relaying H S pool seen' s' ∧
      Lost H t s'
  | [], done, seen, s, hdone, hs, hl => by
    rw [List.map_nil, List.append_nil] at hdone
    subst hdone
    exact ⟨seen, s, rfl, hs, hl.lost hS hsplit htwo⟩
  | a :: arrivals, done, seen, s, hdone, hs, hl => by
    rw [List.map_cons] at hdone
    have hmem : a.tx ∈ l := hdone ▸ List.mem_append_right _ List.mem_cons_self
    have ha : a.tx ∈ S := hsplit ▸ List.mem_append_left _ hmem
    have hne : a.tx ≠ t := fun heq =>
      hS.acceptable.hash_ne hsplit hmem (congrArg (CTransaction.getHash H) heq)
    have hsplit' : S = done ++ a.tx :: (arrivals.map (·.tx) ++ t :: l') := by
      rw [hsplit, hdone, List.append_assoc, List.cons_append]
    obtain ⟨s₁, hstep, hs₁, harrived⟩ := hs.arrive hS ha
    have hl₁ := hl.arrive hS hsplit htwo ha hne
      (fun p hp hparent => hl.done (hS.acceptable.parent_mem hsplit' hp hparent)) hs₁ harrived
    obtain ⟨seen', s₂, hrun, hs₂, hlost⟩ := Losing.run htwo
      (by rw [hdone, List.append_assoc, List.singleton_append]) hs₁ hl₁
    refine ⟨seen', s₂, ?_, hs₂, hlost⟩
    rw [List.foldlM_cons, hstep]
    exact hrun

theorem Lost.run : ∀ {arrivals : List TxArrival} {seen : List CTransaction} {s : TxNode},
    (∀ a ∈ arrivals, a.tx ∈ S ∧ a.tx ≠ t) → Relaying H S pool seen s → Lost H t s →
    ∃ seen' s', arrivals.foldlM (processTx H env) s = some s' ∧ Relaying H S pool seen' s' ∧
      Lost H t s'
  | [], seen, s, _, hs, hl => ⟨seen, s, rfl, hs, hl⟩
  | a :: arrivals, seen, s, harrivals, hs, hl => by
    obtain ⟨ha, hne⟩ := harrivals a List.mem_cons_self
    obtain ⟨s₁, hstep, hs₁, harrived⟩ := hs.arrive hS ha
    obtain ⟨seen', s₂, hrun, hs₂, hlost⟩ := Lost.run
      (fun b hb => harrivals b (List.mem_cons_of_mem a hb)) hs₁ (hl.arrive hS hsplit ha hne harrived)
    refine ⟨seen', s₂, ?_, hs₂, hlost⟩
    rw [List.foldlM_cons, hstep]
    exact hrun

/-- A transaction with two parents that arrives first, with the others parents first, is lost. -/
theorem lost_of_first (htwo : TwoParents H S t) (nodes : MapNodeState) {arrivals : List TxArrival}
    (harrivals : arrivals.map (·.tx) = t :: (l ++ l')) :
    ∃ seen s, arrivals.foldlM (processTx H env) { mempool := pool, mapNodeState := nodes } = some s ∧
      Relaying H S pool seen s ∧ Lost H t s := by
  obtain ⟨a, rest, rfl, ha, hrest⟩ := List.map_eq_cons_iff.mp harrivals
  obtain ⟨before, later, rfl, hbefore, hlater⟩ := List.map_eq_append_iff.mp hrest
  have haS : a.tx ∈ S := by
    rw [hsplit, ha]
    exact List.mem_append_right _ List.mem_cons_self
  obtain ⟨s₁, hstep, hs₁, harrived⟩ := (Relaying.start nodes).arrive hS haS
  have hlosing : Losing H S t [] s₁ := Losing.start hS hsplit htwo hs₁ (ha ▸ harrived)
  obtain ⟨seen₂, s₂, hrun₂, hs₂, hlost₂⟩ :=
    Losing.run hS hsplit htwo (hbefore.symm.trans (List.nil_append _).symm) hs₁ hlosing
  have hothers : ∀ b ∈ later, b.tx ∈ S ∧ b.tx ≠ t := by
    intro b hb
    have hmem : b.tx ∈ l' := hlater ▸ List.mem_map_of_mem hb
    obtain ⟨m, m', rfl⟩ := List.append_of_mem hmem
    refine ⟨hsplit ▸ List.mem_append_right _ (List.mem_cons_of_mem _ hmem), fun heq => ?_⟩
    have hsplit' : S = (l ++ t :: m) ++ b.tx :: m' := by simp [hsplit]
    exact hS.acceptable.hash_ne hsplit' (List.mem_append_right _ List.mem_cons_self)
      (congrArg (CTransaction.getHash H) heq.symm)
  obtain ⟨seen₃, s₃, hrun₃, hs₃, hlost₃⟩ := Lost.run hS hsplit hothers hs₂ hlost₂
  refine ⟨seen₃, s₃, ?_, hs₃, hlost₃⟩
  rw [List.foldlM_cons, hstep]
  change (before ++ later).foldlM _ s₁ = _
  rw [List.foldlM_append, hrun₂]
  exact hrun₃

end Losing

/-- A transaction whose hash is 7, which spends the output of the one whose hash is 6. -/
def chainedTx : CTransaction :=
  ⟨1, [⟨⟨6, 0⟩, [], 0⟩], [⟨30, List.replicate 23 0x51 ++ [6]⟩], 0⟩

def chainedEnv : TxRelayEnv := ⟨paymentEnv, loadedView, 25, 100⟩

theorem acceptable_chainedTx : Acceptable nonceHash chainedEnv {} [paymentTx, chainedTx] := by
  have hpayment : acceptToMemoryPool nonceHash paymentEnv loadedView {} paymentTx true false =
      .ok paymentPool := by
    refine acceptToMemoryPool_eq_ok.mpr ⟨⟨rfl, rfl, ?_, rfl⟩, rfl⟩
    decide
  have hchained : acceptToMemoryPool nonceHash paymentEnv loadedView paymentPool chainedTx true
      false = .ok (paymentPool.addUnchecked (chainedTx.getHash nonceHash) ⟨chainedTx⟩) := by
    refine acceptToMemoryPool_eq_ok.mpr ⟨⟨rfl, rfl, ?_, rfl⟩, rfl⟩
    decide
  refine ⟨paymentPool.addUnchecked (chainedTx.getHash nonceHash) ⟨chainedTx⟩, ?_⟩
  rw [List.foldlM_cons]
  change acceptToMemoryPool nonceHash paymentEnv loadedView {} paymentTx true false >>= _ = _
  rw [hpayment]
  change acceptToMemoryPool nonceHash paymentEnv loadedView paymentPool chainedTx true false >>= _ = _
  rw [hchained]
  rfl

theorem relayable_chainedTx : Relayable nonceHash chainedEnv {} [paymentTx, chainedTx] where
  acceptable := acceptable_chainedTx
  size := by decide
  length := by decide

end Ticoin
