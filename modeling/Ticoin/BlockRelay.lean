import Ticoin.ProcessBlockRuns

/-!
# Block relay does not depend on the order of arrival

`Relayed` is what the claim of independence assumes of a set of blocks : they form a tree on
an indexed block, each passes the checks once its predecessor is indexed, their hashes tell
them apart, and there are no more of them than the orphan limit.

In the state after any arrivals of such blocks, a block that arrived is indexed or waits as
an orphan, and no orphan waits for a block that is indexed. While the work queue is
processed, an orphan may wait for an indexed block that is still in the queue (`Relay`).
When all blocks arrived none can wait any more, as its predecessor would wait as well, down
to the indexed block at the bottom (`processBlock_order_independent`).
-/

namespace Ticoin

open Codec

variable (H : Bytes → UInt256) (env : NodeEnv)

/-! ## What is assumed of the blocks -/

/-- An entry made of a block. -/
structure EntryOf (block : CBlock) (e : BlockIndexEntry) : Prop where
  phashBlock : e.phashBlock = some (block.getHash H)
  nVersion : e.nVersion = block.nVersion
  hashMerkleRoot : e.hashMerkleRoot = block.hashMerkleRoot
  nTime : e.nTime = block.nTime
  nBits : e.nBits = block.nBits
  nNonce : e.nNonce = block.nNonce
  nTx : e.nTx = block.vtx.length

/-- The entries that blocks of the set can make on top of the index. -/
inductive Grown (s₀ : NodeState) (B : List CBlock) : CBlockIndex → Prop
  | known {h : UInt256} {n : CBlockIndex} (hn : s₀.mapBlockIndex[h]? = some n) : Grown s₀ B n
  | grow {p : CBlockIndex} {e : BlockIndexEntry} {block : CBlock} (hp : Grown s₀ B p)
      (hb : block ∈ B) (hprev : p.entry.phashBlock = some block.hashPrevBlock)
      (he : EntryOf H block e) : Grown s₀ B (.child p e)

/-- Blocks of the set lead down to an indexed block. -/
inductive Rooted (s₀ : NodeState) (B : List CBlock) : CBlock → Prop
  | known {block : CBlock} (h : s₀.mapBlockIndex.contains block.hashPrevBlock = true) :
      Rooted s₀ B block
  | child {block parent : CBlock} (hp : parent ∈ B) (hash : parent.getHash H = block.hashPrevBlock)
      (h : Rooted s₀ B parent) : Rooted s₀ B block

/-- A set of blocks to be relayed to a node without orphans, at some time. -/
structure Relayed (nTime : ℤ) (s₀ : NodeState) (B : List CBlock) : Prop where
  reach : NodeReach H env s₀
  no_orphans : s₀.mapOrphanBlocks = ∅ ∧ s₀.mapOrphanBlocksByPrev = []
  no_checkpoints : env.checkpoints = []
  no_system_error : ChainState.NoSystemError env.blocks
  hash_inj : ∀ b ∈ B, ∀ b' ∈ B, b.getHash H = b'.getHash H → b = b'
  prev_ne_zero : ∀ b ∈ B, b.hashPrevBlock ≠ 0
  rooted : ∀ b ∈ B, Rooted H s₀ B b
  checkBlock : ∀ b ∈ B, checkBlock H env.params nTime b true true = .ok ()
  accept : ∀ b ∈ B, ∀ p, Grown H s₀ B p → p.entry.phashBlock = some b.hashPrevBlock →
    acceptBlockChecks H env.params [] none 0 nTime p b = .ok ()

/-- A block of the set arrives from a peer, at that time, and storage does not fail. -/
structure Arrival.Good (nTime : ℤ) (B : List CBlock) (a : Arrival) : Prop where
  block : a.block ∈ B
  fFrom : a.fFrom = true
  nAdjustedTime : a.nAdjustedTime = nTime
  io : ∀ point hash, a.io point hash = true

variable {H env} {s s' s₀ : NodeState} {B : List CBlock} {nTime : ℤ} {block : CBlock}

/-! ## Accepting a block -/

/-- The finality of a transaction at a height of its own does not depend on the active
chain. -/
theorem isFinalTx_chainHeight (nChainHeight nAdjustedTime : ℤ) (tx : CTransaction) {nBlockHeight : ℤ}
    (nBlockTime : ℤ) (h : nBlockHeight ≠ 0) :
    isFinalTx nChainHeight nAdjustedTime tx nBlockHeight nBlockTime =
      isFinalTx 0 nAdjustedTime tx nBlockHeight nBlockTime := by
  simp only [isFinalTx, if_neg h]

theorem acceptBlockChecks_chainHeight (params : ChainParams) (checkpoints : List (ℕ × UInt256))
    (pcheckpoint : Option CBlockIndex) (nChainHeight nAdjustedTime : ℤ) (pindexPrev : CBlockIndex)
    (block : CBlock) :
    acceptBlockChecks H params checkpoints pcheckpoint nChainHeight nAdjustedTime pindexPrev block =
      acceptBlockChecks H params checkpoints pcheckpoint 0 nAdjustedTime pindexPrev block := by
  have hfinal : ∀ tx, isFinalTx nChainHeight nAdjustedTime tx (pindexPrev.nHeight + 1 : ℕ)
      block.getBlockTime = isFinalTx 0 nAdjustedTime tx (pindexPrev.nHeight + 1 : ℕ)
        block.getBlockTime :=
    fun tx => isFinalTx_chainHeight _ _ _ _ (by omega)
  simp only [acceptBlockChecks, hfinal]

/-- The entries the index got from the set, and those it had. -/
structure Indexed (H : Bytes → UInt256) (s₀ : NodeState) (B : List CBlock) (s : NodeState) :
    Prop where
  old : ∀ (h : UInt256) (n : CBlockIndex), s₀.mapBlockIndex[h]? = some n → s.mapBlockIndex[h]? = some n
  new : ∀ (h : UInt256) (n : CBlockIndex), s.mapBlockIndex[h]? = some n → s₀.mapBlockIndex[h]? = some n ∨
    ∃ b ∈ B, b.getHash H = h ∧ ∃ p e, n = .child p e ∧
      s.mapBlockIndex[b.hashPrevBlock]? = some p ∧ EntryOf H b e
  grown : ∀ (h : UInt256) (n : CBlockIndex), s.mapBlockIndex[h]? = some n → Grown H s₀ B n

/-- A block of the set on an indexed one is accepted. -/
theorem acceptBlock_relayed (hB : Relayed H env nTime s₀ B) {T : BlockTree} (hi : s.Inv env T)
    (hix : Indexed H s₀ B s) (hb : block ∈ B)
    (hnew : s.mapBlockIndex.contains (block.getHash H) = false) {p : CBlockIndex}
    (hp : s.mapBlockIndex[block.hashPrevBlock]? = some p) {io : IOPoint → Bool}
    (hio : ∀ point, io point = true) (fKnown : Bool) :
    ∃ fuel chain T', (∀ k, fuel ≤ k → acceptBlock H env k nTime io fKnown s block =
        .ok (.ok (), { insertBlockIndex H env s block with chain := chain })) ∧
      NodeState.Inv env T' { insertBlockIndex H env s block with chain := chain } ∧
      Indexed H s₀ B { insertBlockIndex H env s block with chain := chain } := by
  have hins := hi.insertBlockIndex (H := H) hp
  have hmake := (hi.fresh (H := H) hp).1
  obtain ⟨fuel, chain, hrun, hcall⟩ := hins.chain.activate_true hB.no_system_error hins.tip
  have htip := hrun.tip_ne_none hins.chain hins.tip
  have hcheck : checkAccept H env nTime s block = .ok () := by
    rw [checkAccept, hp]
    dsimp only
    rw [acceptBlockChecks_chainHeight, NodeState.lastCheckpoint, hB.no_checkpoints]
    split
    · rfl
    · exact hB.accept block hb p (hix.grown _ _ hp) (hi.index_mem _ _ hp).2
  refine ⟨fuel, chain, _, fun k hk => ?_, hins.of_chain (hins.chain.steps hrun) htip, ?_⟩
  · simp only [acceptBlock, hnew, hcheck, hio, addToBlockIndex, hcall k hk]
    cases ht : chain.chainActive.tip with
    | none => exact absurd ht htip
    | some t => simp [ht]
  have hget : ∀ (h : UInt256) (n : CBlockIndex), s.mapBlockIndex[h]? = some n →
      (insertBlockIndex H env s block).mapBlockIndex[h]? = some n := by
    intro h n hn
    simp only [insertBlockIndex, Std.ExtTreeMap.getElem?_insert]
    split
    · rename_i heq
      cases Std.LawfulEqOrd.eq_of_compare heq
      rw [Std.ExtTreeMap.contains_eq_isSome_getElem?, hn] at hnew
      cases hnew
    · exact hn
  have hentry : EntryOf H block (makeEntry H env s block) := ⟨rfl, rfl, rfl, rfl, rfl, rfl, rfl⟩
  have hback : ∀ (h : UInt256) (n : CBlockIndex), (insertBlockIndex H env s block).mapBlockIndex[h]? = some n →
      s.mapBlockIndex[h]? = some n ∨
        block.getHash H = h ∧ n = .child p (makeEntry H env s block) := by
    intro h n hn
    simp only [insertBlockIndex, Std.ExtTreeMap.getElem?_insert] at hn
    split at hn
    · rename_i heq
      cases hn
      exact .inr ⟨Std.LawfulEqOrd.eq_of_compare heq, hmake⟩
    · exact .inl hn
  refine ⟨fun h n hn => hget h n (hix.old h n hn), fun h n hn => ?_, fun h n hn => ?_⟩
  · rcases hback h n hn with hn | ⟨hh, hn⟩
    · rcases hix.new h n hn with hn | ⟨b, hbB, hh, p', e, hne, hp', he⟩
      · exact .inl hn
      · exact .inr ⟨b, hbB, hh, p', e, hne, hget _ _ hp', he⟩
    · exact .inr ⟨block, hb, hh, p, _, hn, hget _ _ hp, hentry⟩
  · rcases hback h n hn with hn | ⟨-, hn⟩
    · exact hix.grown h n hn
    · exact hn ▸ .grow (hix.grown _ _ hp) hb (hi.index_mem _ _ hp).2 hentry

/-! ## Accepting orphans -/

theorem contains_insertBlockIndex (H : Bytes → UInt256) (env : NodeEnv) (s : NodeState)
    (block : CBlock) (h : UInt256) :
    (insertBlockIndex H env s block).mapBlockIndex.contains h = true ↔
      s.mapBlockIndex.contains h = true ∨ block.getHash H = h := by
  simp only [insertBlockIndex, Std.ExtTreeMap.contains_insert, Bool.or_eq_true, beq_iff_eq,
    Std.LawfulEqCmp.compare_eq_iff_eq]
  exact or_comm

/-- The orphans that wait for an indexed block are accepted one after the other. -/
theorem acceptOrphans_relayed (hB : Relayed H env nTime s₀ B) {a : Arrival}
    (ha : a.Good nTime B) : ∀ (os : List CBlock) {s : NodeState} {T : BlockTree},
      s.Inv env T → Indexed H s₀ B s → os.Nodup →
      (∀ b ∈ os, b ∈ B ∧ s.mapBlockIndex.contains b.hashPrevBlock = true ∧
        s.mapBlockIndex.contains (b.getHash H) = false) →
      ∃ fuel s' T', (∀ k, fuel ≤ k → acceptOrphans H env k a (os.map (orphanOf H)) s =
          .ok (os.map (·.getHash H), s')) ∧
        s'.Inv env T' ∧ Indexed H s₀ B s' ∧
        (∀ h, s'.mapBlockIndex.contains h = true ↔
          s.mapBlockIndex.contains h = true ∨ ∃ b ∈ os, b.getHash H = h) ∧
        (∀ h, s'.mapOrphanBlocks[h]? =
          if h ∈ os.map (·.getHash H) then none else s.mapOrphanBlocks[h]?) ∧
        s'.mapOrphanBlocksByPrev = s.mapOrphanBlocksByPrev
  | [], s, T, hi, hix, _, _ =>
    ⟨0, s, T, fun _ _ => rfl, hi, hix, by simp, by simp, rfl⟩
  | b :: os, s, T, hi, hix, hnd, hos => by
    obtain ⟨hb, hprev, hnew⟩ := hos b List.mem_cons_self
    obtain ⟨hbos, hnd⟩ := List.nodup_cons.mp hnd
    obtain ⟨p, hp⟩ := Option.isSome_iff_exists.mp
      ((Std.ExtTreeMap.contains_eq_isSome_getElem? (t := s.mapBlockIndex)).symm.trans hprev)
    obtain ⟨fuel₁, chain, T₁, hcall₁, hi₁, hix₁⟩ :=
      acceptBlock_relayed hB hi hix hb hnew hp (fun point => ha.io point (b.getHash H)) false
    have hcont := contains_insertBlockIndex H env s b
    obtain ⟨fuel₂, s₂, T₂, hcall₂, hi₂, hix₂, hcont₂, horph₂, hby₂⟩ :=
      acceptOrphans_relayed hB ha os (s := { insertBlockIndex H env s b with
          chain := chain
          mapOrphanBlocks := s.mapOrphanBlocks.erase (b.getHash H) })
        hi₁.of_orphans ⟨hix₁.old, hix₁.new, hix₁.grown⟩ hnd fun c hc => by
          obtain ⟨hcB, hcprev, hcnew⟩ := hos c (List.mem_cons_of_mem b hc)
          refine ⟨hcB, (hcont _).mpr (.inl hcprev), ?_⟩
          rw [← Bool.not_eq_true, hcont, not_or, hcnew]
          refine ⟨Bool.false_ne_true, fun heq => hbos ?_⟩
          exact hB.hash_inj b hb c hcB heq ▸ hc
    have hread : CBlock.unserialize b.serialize = .ok (b, []) := by
      have hsize := (checkBlock_eq_ok (hB.checkBlock b hb)).size
      have hreads : Reads CBlock.unserialize b.serialize b := CBlock.reads (hsize.trans (by decide))
      have h := hreads []
      rwa [List.append_nil] at h
    refine ⟨max fuel₁ fuel₂, s₂, T₂, fun k hk => ?_, hi₂, hix₂, fun h => ?_, fun h => ?_, hby₂⟩
    · have hk₁ := hcall₁ k (le_trans (le_max_left _ _) hk)
      have hk₂ := hcall₂ k (le_trans (le_max_right _ _) hk)
      rw [List.map_cons, acceptOrphans, orphanOf, hread]
      dsimp only
      rw [ha.nAdjustedTime, hk₁]
      dsimp only
      rw [show ({ insertBlockIndex H env s b with chain := chain } : NodeState).mapOrphanBlocks =
        s.mapOrphanBlocks from rfl]
      rw [hk₂]
      rfl
    · rw [hcont₂, hcont]
      simp only [List.mem_cons, exists_eq_or_imp, or_assoc]
    · rw [horph₂, Std.ExtTreeMap.getElem?_erase]
      simp only [List.map_cons, List.mem_cons, Std.LawfulEqCmp.compare_eq_iff_eq, eq_comm (a := h)]
      by_cases h1 : b.getHash H = h <;> by_cases h2 : h ∈ os.map (·.getHash H) <;> simp [h1, h2]

/-! ## The work queue -/

/-- The state of the relay : the orphans `bs`, of which some may wait for a block in the work
queue `q`. The blocks `seen` are those that arrived. -/
structure Relay (H : Bytes → UInt256) (env : NodeEnv) (s₀ : NodeState) (B seen : List CBlock)
    (q : List UInt256) (bs : List CBlock) (s : NodeState) : Prop where
  inv : ∃ T, s.Inv env T
  indexed : Indexed H s₀ B s
  byPrev : s.mapOrphanBlocksByPrev = bs.map fun b => (b.hashPrevBlock, orphanOf H b)
  byHash : ∀ (h : UInt256) (o : COrphanBlock), s.mapOrphanBlocks[h]? = some o ↔
    ∃ b ∈ bs, b.getHash H = h ∧ orphanOf H b = o
  nodup : bs.Nodup
  subset : bs ⊆ B
  seen : ∀ b ∈ seen, s.mapBlockIndex.contains (b.getHash H) = true ∨ b ∈ bs
  new : ∀ b ∈ bs, s.mapBlockIndex.contains (b.getHash H) = false
  queued : ∀ h ∈ q, s.mapBlockIndex.contains h = true
  waits : ∀ b ∈ bs, s.mapBlockIndex.contains b.hashPrevBlock = true → b.hashPrevBlock ∈ q

variable {seen bs : List CBlock} {q : List UInt256}

theorem Relay.orphansOf (h : Relay H env s₀ B seen q bs s) (hashPrev : UInt256) :
    s.orphansOf hashPrev = (bs.filter (·.hashPrevBlock == hashPrev)).map (orphanOf H) := by
  rw [NodeState.orphansOf, h.byPrev, List.filter_map, List.map_map]
  rfl

/-- One turn of the work queue. -/
theorem acceptOrphans_relay (hB : Relayed H env nTime s₀ B) {a : Arrival} (ha : a.Good nTime B)
    {hashPrev : UInt256} (h : Relay H env s₀ B seen (hashPrev :: q) bs s) :
    ∃ fuel s', (∀ k, fuel ≤ k → acceptOrphans H env k a (s.orphansOf hashPrev) s =
        .ok ((bs.filter (·.hashPrevBlock == hashPrev)).map (·.getHash H), s')) ∧
      Relay H env s₀ B seen (q ++ (bs.filter (·.hashPrevBlock == hashPrev)).map (·.getHash H))
        (bs.filter (·.hashPrevBlock != hashPrev)) (s'.eraseByPrev hashPrev) := by
  obtain ⟨T, hi⟩ := h.inv
  set os := bs.filter (·.hashPrevBlock == hashPrev) with hos
  have mem_os : ∀ b, b ∈ os ↔ b ∈ bs ∧ b.hashPrevBlock = hashPrev := fun b => by
    rw [hos, List.mem_filter, beq_iff_eq]
  have mem_rest : ∀ b, b ∈ bs.filter (·.hashPrevBlock != hashPrev) ↔
      b ∈ bs ∧ b.hashPrevBlock ≠ hashPrev := fun b => by rw [List.mem_filter, bne_iff_ne]
  obtain ⟨fuel, s', T', hcall, hi', hix', hcont, horph, hby⟩ :=
    acceptOrphans_relayed hB ha os hi h.indexed (h.nodup.filter _) fun b hb =>
      ⟨h.subset ((mem_os b).mp hb).1,
        ((mem_os b).mp hb).2 ▸ h.queued _ List.mem_cons_self, h.new b ((mem_os b).mp hb).1⟩
  have hash_mem : ∀ b ∈ bs, b.getHash H ∈ os.map (·.getHash H) → b ∈ os := by
    intro b hb hmem
    obtain ⟨c, hc, heq⟩ := List.mem_map.mp hmem
    exact hB.hash_inj c (h.subset ((mem_os c).mp hc).1) b (h.subset hb) heq ▸ hc
  refine ⟨fuel, s', h.orphansOf hashPrev ▸ hcall, ⟨T', hi'.of_orphans⟩,
    ⟨hix'.old, hix'.new, hix'.grown⟩, ?_, ?_, h.nodup.filter _,
    fun b hb => h.subset ((mem_rest b).mp hb).1, ?_, ?_, ?_, ?_⟩
  · show s'.mapOrphanBlocksByPrev.filter _ = _
    rw [hby, h.byPrev, List.filter_map]
    rfl
  · intro k o
    show s'.mapOrphanBlocks[k]? = some o ↔ _
    rw [horph]
    constructor
    · intro hget
      split at hget
      · cases hget
      · rename_i hk
        obtain ⟨b, hb, hbk, hbo⟩ := (h.byHash k o).mp hget
        refine ⟨b, (mem_rest b).mpr ⟨hb, fun hprev => hk ?_⟩, hbk, hbo⟩
        exact hbk ▸ List.mem_map_of_mem ((mem_os b).mpr ⟨hb, hprev⟩)
    · rintro ⟨b, hb, hbk, hbo⟩
      obtain ⟨hb, hprev⟩ := (mem_rest b).mp hb
      rw [if_neg, (h.byHash k o).mpr ⟨b, hb, hbk, hbo⟩]
      exact fun hk => hprev ((mem_os b).mp (hash_mem b hb (hbk ▸ hk))).2
  · intro b hb
    rcases h.seen b hb with hk | hk
    · exact .inl ((hcont _).mpr (.inl hk))
    · by_cases hprev : b.hashPrevBlock = hashPrev
      · exact .inl ((hcont _).mpr (.inr ⟨b, (mem_os b).mpr ⟨hk, hprev⟩, rfl⟩))
      · exact .inr ((mem_rest b).mpr ⟨hk, hprev⟩)
  · intro b hb
    obtain ⟨hb, hprev⟩ := (mem_rest b).mp hb
    show s'.mapBlockIndex.contains _ = false
    rw [← Bool.not_eq_true, hcont, not_or, h.new b hb]
    refine ⟨Bool.false_ne_true, ?_⟩
    rintro ⟨c, hc, heq⟩
    exact hprev ((mem_os b).mp (hash_mem b hb (heq ▸ List.mem_map_of_mem hc))).2
  · intro k hk
    refine (hcont k).mpr ?_
    rcases List.mem_append.mp hk with hk | hk
    · exact .inl (h.queued k (List.mem_cons_of_mem _ hk))
    · exact .inr (List.mem_map.mp hk)
  · intro b hb hk
    obtain ⟨hb, hprev⟩ := (mem_rest b).mp hb
    rcases (hcont _).mp hk with hk | hk
    · exact List.mem_append_left _ ((List.mem_cons.mp (h.waits b hb hk)).resolve_left hprev)
    · exact List.mem_append_right _ (List.mem_map.mpr hk)

/-- The work queue runs out, and then no orphan waits for an indexed block. The number of
hashes in the queue and of orphans together falls with each turn. -/
theorem processQueue_relay (hB : Relayed H env nTime s₀ B) {a : Arrival} (ha : a.Good nTime B) :
    ∀ {n : ℕ} {q : List UInt256} {bs : List CBlock} {s : NodeState},
      q.length + bs.length ≤ n → Relay H env s₀ B seen q bs s →
      ∃ fuel s' bs', (∀ k n', fuel ≤ k → n ≤ n' → processQueue H env k a n' q s = .ok s') ∧
        Relay H env s₀ B seen [] bs' s'
  | _, [], bs, s, _, h => ⟨0, s, bs, fun _ _ _ _ => by rw [processQueue], h⟩
  | 0, _ :: _, _, _, hn, _ => by simp at hn
  | n + 1, hashPrev :: q, bs, s, hn, h => by
    obtain ⟨fuel₁, s₁, hcall₁, h₁⟩ := acceptOrphans_relay hB ha h
    have hlen : (bs.filter (·.hashPrevBlock == hashPrev)).length +
        (bs.filter (·.hashPrevBlock != hashPrev)).length = bs.length :=
      (List.length_eq_length_filter_add (l := bs) (·.hashPrevBlock == hashPrev)).symm
    obtain ⟨fuel₂, s₂, bs₂, hcall₂, h₂⟩ := processQueue_relay hB ha (n := n) (by
      simp only [List.length_append, List.length_map, List.length_cons] at hn ⊢
      omega) h₁
    refine ⟨max fuel₁ fuel₂, s₂, bs₂, fun k n' hk hn' => ?_, h₂⟩
    obtain ⟨m, rfl⟩ : ∃ m, n' = m + 1 := ⟨n' - 1, by omega⟩
    rw [processQueue, hcall₁ k (le_trans (le_max_left _ _) hk)]
    exact hcall₂ k m (le_trans (le_max_right _ _) hk) (by omega)

/-! ## Arrivals -/

theorem Relay.mapOrphanBlocks_contains (h : Relay H env s₀ B seen q bs s)
    (hB : Relayed H env nTime s₀ B) (hb : block ∈ B) :
    s.mapOrphanBlocks.contains (block.getHash H) = true ↔ block ∈ bs := by
  rw [Std.ExtTreeMap.contains_eq_isSome_getElem?, Option.isSome_iff_exists]
  constructor
  · rintro ⟨o, ho⟩
    obtain ⟨b, hbs, heq, -⟩ := (h.byHash _ o).mp ho
    exact hB.hash_inj b (h.subset hbs) block hb heq ▸ hbs
  · exact fun hbs => ⟨_, (h.byHash _ _).mpr ⟨block, hbs, rfl, rfl⟩⟩

/-- There are no more orphans than blocks in the set. -/
theorem Relay.length_orphans_le (h : Relay H env s₀ B seen q bs s) :
    s.mapOrphanBlocksByPrev.length ≤ B.length := by
  rw [h.byPrev, List.length_map]
  exact (h.nodup.subperm h.subset).length_le

theorem insertByPrev_map (H : Bytes → UInt256) (block : CBlock) (bs : List CBlock) :
    ∃ bs' : List CBlock, bs'.Perm (block :: bs) ∧
      insertByPrev (block.hashPrevBlock, orphanOf H block)
          (bs.map fun b => (b.hashPrevBlock, orphanOf H b)) =
        bs'.map fun b => (b.hashPrevBlock, orphanOf H b) := by
  refine ⟨bs.takeWhile (·.hashPrevBlock ≤ block.hashPrevBlock) ++
    block :: bs.dropWhile (·.hashPrevBlock ≤ block.hashPrevBlock), ?_, ?_⟩
  · refine List.perm_middle.trans ?_
    rw [List.takeWhile_append_dropWhile]
  · rw [insertByPrev, List.takeWhile_map, List.dropWhile_map, List.map_append, List.map_cons]
    rfl

/-- A block whose predecessor is not indexed waits. -/
theorem Relay.addOrphanBlock (h : Relay H env s₀ B seen [] bs s)
    (hB : Relayed H env nTime s₀ B) (hb : block ∈ B)
    (hnew : s.mapBlockIndex.contains (block.getHash H) = false) (hbs : block ∉ bs)
    (hprev : s.mapBlockIndex.contains block.hashPrevBlock = false) :
    ∃ bs', Relay H env s₀ B (block :: seen) [] bs' (addOrphanBlock H s block) := by
  obtain ⟨T, hi⟩ := h.inv
  obtain ⟨bs', hperm, hmap⟩ := insertByPrev_map H block bs
  have hmem : ∀ b, b ∈ bs' ↔ b = block ∨ b ∈ bs := fun b => by
    rw [hperm.mem_iff, List.mem_cons]
  have hhash : ∀ b ∈ bs, b.getHash H ≠ block.getHash H := fun b hbbs heq =>
    hbs (hB.hash_inj b (h.subset hbbs) block hb heq ▸ hbbs)
  have hnone : block.getHash H ∉ s.mapOrphanBlocks := by
    rw [Std.ExtTreeMap.mem_iff_contains, h.mapOrphanBlocks_contains hB hb]
    exact hbs
  refine ⟨bs', ⟨T, hi.of_orphans⟩, ⟨h.indexed.old, h.indexed.new, h.indexed.grown⟩, ?_, ?_,
    hperm.nodup_iff.mpr (List.nodup_cons.mpr ⟨hbs, h.nodup⟩), ?_, ?_, ?_, nofun, ?_⟩
  · rw [Ticoin.addOrphanBlock, h.byPrev]
    exact hmap
  · intro k o
    rw [Ticoin.addOrphanBlock]
    dsimp only
    rw [Std.ExtTreeMap.getElem?_insertIfNew]
    simp only [orphanOf, Std.LawfulEqCmp.compare_eq_iff_eq, hmem, exists_eq_or_imp]
    split
    · rename_i hk
      obtain ⟨rfl, -⟩ := hk
      constructor
      · intro heq
        cases heq
        exact .inl ⟨rfl, rfl⟩
      · rintro (⟨-, rfl⟩ | ⟨b, hbbs, heq, -⟩)
        · rfl
        · exact absurd heq (hhash b hbbs)
    · rename_i hk
      rw [h.byHash]
      constructor
      · exact .inr
      · rintro (⟨rfl, -⟩ | hex)
        · exact absurd ⟨rfl, hnone⟩ hk
        · exact hex
  · intro b hbbs
    rcases (hmem b).mp hbbs with rfl | hbbs
    · exact hb
    · exact h.subset hbbs
  · intro b hbseen
    rcases List.mem_cons.mp hbseen with rfl | hbseen
    · exact .inr ((hmem b).mpr (.inl rfl))
    · exact (h.seen b hbseen).imp_right fun hbbs => (hmem b).mpr (.inr hbbs)
  · intro b hbbs
    rcases (hmem b).mp hbbs with rfl | hbbs
    · exact hnew
    · exact h.new b hbbs
  · intro b hbbs hk
    rcases (hmem b).mp hbbs with rfl | hbbs
    · exact absurd (hk.symm.trans hprev) (by decide)
    · exact h.waits b hbbs hk

/-- A block that was just accepted is in the work queue. -/
theorem Relay.insertBlockIndex (h : Relay H env s₀ B seen [] bs s)
    (hB : Relayed H env nTime s₀ B) (hb : block ∈ B) (hbs : block ∉ bs) {chain : ChainState}
    (hinv : ∃ T', NodeState.Inv env T' { insertBlockIndex H env s block with chain := chain })
    (hix : Indexed H s₀ B { insertBlockIndex H env s block with chain := chain }) :
    Relay H env s₀ B (block :: seen) [block.getHash H] bs
      { insertBlockIndex H env s block with chain := chain } := by
  have hcont := contains_insertBlockIndex H env s block
  refine ⟨hinv, hix, h.byPrev, h.byHash, h.nodup, h.subset, ?_, ?_, ?_, ?_⟩
  · intro b hbseen
    rcases List.mem_cons.mp hbseen with rfl | hbseen
    · exact .inl ((hcont _).mpr (.inr rfl))
    · exact (h.seen b hbseen).imp_left fun hk => (hcont _).mpr (.inl hk)
  · intro b hbbs
    show (Ticoin.insertBlockIndex H env s block).mapBlockIndex.contains _ = false
    rw [← Bool.not_eq_true, hcont, not_or, h.new b hbbs]
    refine ⟨Bool.false_ne_true, fun heq => hbs ?_⟩
    exact hB.hash_inj block hb b (h.subset hbbs) heq ▸ hbbs
  · intro k hk
    exact (hcont k).mpr (.inr (List.mem_singleton.mp hk).symm)
  · intro b hbbs hk
    rcases (hcont _).mp hk with hk | hk
    · exact absurd (h.waits b hbbs hk) List.not_mem_nil
    · exact List.mem_singleton.mpr hk.symm

theorem Relay.of_seen (h : Relay H env s₀ B seen q bs s)
    (hk : s.mapBlockIndex.contains (block.getHash H) = true ∨ block ∈ bs) :
    Relay H env s₀ B (block :: seen) q bs s :=
  { h with
    seen := fun b hb => by
      rcases List.mem_cons.mp hb with rfl | hb
      · exact hk
      · exact h.seen b hb }

/-- What one arrival comes to. -/
theorem processBlock_relay (hB : Relayed H env nTime s₀ B) {a : Arrival} (ha : a.Good nTime B)
    (hlimit : s.mapOrphanBlocksByPrev.length ≤ env.nMaxOrphanBlocks)
    (h : Relay H env s₀ B seen [] bs s) :
    ∃ fuel r s' bs', (∀ k, fuel ≤ k → processBlock H env k a s = .ok (r, s')) ∧
      Relay H env s₀ B (a.block :: seen) [] bs' s' := by
  by_cases hindexed : s.mapBlockIndex.contains (a.block.getHash H) = true
  · refine ⟨0, stateInvalid 0 "duplicate", s, bs, fun k _ => ?_, h.of_seen (.inl hindexed)⟩
    rw [processBlock, checkProcess, hindexed]
    rfl
  rw [Bool.not_eq_true] at hindexed
  have hcontains := h.mapOrphanBlocks_contains hB ha.block
  by_cases hbs : a.block ∈ bs
  · refine ⟨0, stateInvalid 0 "duplicate", s, bs, fun k _ => ?_, h.of_seen (.inr hbs)⟩
    rw [processBlock, checkProcess, hindexed, hcontains.mpr hbs]
    rfl
  have horphan : s.mapOrphanBlocks.contains (a.block.getHash H) = false := by
    rwa [← Bool.not_eq_true, hcontains]
  have hcheck : checkProcess H env a.nAdjustedTime s a.block = .ok () := by
    rw [checkProcess, hindexed, horphan, ha.nAdjustedTime, hB.checkBlock _ ha.block, checkSpam,
      NodeState.lastCheckpoint, hB.no_checkpoints]
    rfl
  cases hprev : s.mapBlockIndex.contains a.block.hashPrevBlock with
  | false =>
    obtain ⟨bs', h'⟩ := h.addOrphanBlock hB ha.block hindexed hbs hprev
    refine ⟨0, .ok (), _, bs', fun k _ => ?_, h'⟩
    rw [processBlock, hcheck]
    dsimp only
    rw [if_pos ⟨hB.prev_ne_zero _ ha.block, by rw [hprev]; rfl⟩, if_pos ha.fFrom,
      pruneOrphanBlocks, if_pos hlimit]
  | true =>
    obtain ⟨T, hi⟩ := h.inv
    obtain ⟨p, hp⟩ := Option.isSome_iff_exists.mp
      ((Std.ExtTreeMap.contains_eq_isSome_getElem? (t := s.mapBlockIndex)).symm.trans hprev)
    obtain ⟨fuel₁, chain, T₁, hcall₁, hi₁, hix₁⟩ := acceptBlock_relayed hB hi h.indexed ha.block
      hindexed hp (fun point => ha.io point (a.block.getHash H)) a.fKnown
    obtain ⟨fuel₂, s₂, bs₂, hcall₂, h₂⟩ := processQueue_relay hB ha le_rfl
      (h.insertBlockIndex hB ha.block hbs ⟨T₁, hi₁⟩ hix₁)
    refine ⟨max fuel₁ (max fuel₂ (1 + bs.length)), .ok (), s₂, bs₂, fun k hk => ?_, h₂⟩
    rw [processBlock, hcheck]
    dsimp only
    rw [if_neg (by rw [hprev]; simp), ha.nAdjustedTime, hcall₁ k (by omega)]
    dsimp only
    rw [hcall₂ k k (by omega) (by simp; omega)]
    rfl

/-! ## The order of arrival does not matter -/

variable (H env nTime s₀ B) in
/-- Blocks of the set arrive one after the other, the last one first in the list, and each
call of `ProcessBlock` returns. No more orphans wait than the limit. -/
inductive Delivered : List CBlock → NodeState → Prop
  | start : Delivered [] s₀
  | deliver {seen : List CBlock} {s s' : NodeState} {a : Arrival} {fuel : ℕ} {r : Check}
      (h : Delivered seen s) (ha : a.Good nTime B)
      (hlimit : s.mapOrphanBlocksByPrev.length ≤ env.nMaxOrphanBlocks)
      (hcall : ∀ k, fuel ≤ k → processBlock H env k a s = .ok (r, s')) :
      Delivered (a.block :: seen) s'

theorem Relayed.start (hB : Relayed H env nTime s₀ B) : Relay H env s₀ B [] [] [] s₀ := by
  obtain ⟨T, hi⟩ := hB.reach.inv
  refine ⟨⟨T, hi⟩, ⟨fun _ _ h => h, fun _ _ h => .inl h, fun _ _ h => .known h⟩, ?_, ?_,
    List.nodup_nil, nofun, nofun, nofun, nofun, nofun⟩
  · exact hB.no_orphans.2
  · intro h o
    rw [hB.no_orphans.1]
    simp

theorem Delivered.relay (hB : Relayed H env nTime s₀ B) (h : Delivered H env s₀ B nTime seen s) :
    ∃ bs, Relay H env s₀ B seen [] bs s := by
  induction h with
  | start => exact ⟨[], hB.start⟩
  | @deliver seen s s' a fuel r _ ha hlimit hcall ih =>
    obtain ⟨bs, hrelay⟩ := ih
    obtain ⟨fuel', r', s'', bs', hcall', hrelay'⟩ := processBlock_relay hB ha hlimit hrelay
    have heq := (hcall _ (le_max_left fuel fuel')).symm.trans (hcall' _ (le_max_right fuel fuel'))
    cases heq
    exact ⟨bs', hrelay'⟩

/-- Any order of arrival is a run, when the set is not larger than the orphan limit. -/
theorem Relayed.delivered (hB : Relayed H env nTime s₀ B) (hlimit : B.length ≤ env.nMaxOrphanBlocks) :
    ∀ arrivals : List Arrival, (∀ a ∈ arrivals, a.Good nTime B) →
      ∃ s, Delivered H env s₀ B nTime (arrivals.map (·.block)) s
  | [], _ => ⟨s₀, .start⟩
  | a :: arrivals, ha => by
    obtain ⟨s, h⟩ := hB.delivered hlimit arrivals fun a' ha' => ha a' (List.mem_cons_of_mem a ha')
    obtain ⟨bs, hrelay⟩ := h.relay hB
    have hle := hrelay.length_orphans_le.trans hlimit
    obtain ⟨fuel, r, s', -, hcall, -⟩ := processBlock_relay hB (ha a List.mem_cons_self) hle hrelay
    exact ⟨s', .deliver h (ha a List.mem_cons_self) hle hcall⟩

/-- An orphan would wait for a block that arrived as well, and so on, down to the root. -/
theorem Relay.orphans_eq_nil (h : Relay H env s₀ B seen [] bs s)
    (hB : Relayed H env nTime s₀ B) (hall : B ⊆ seen) : bs = [] := by
  have hindexed : ∀ b, Rooted H s₀ B b → b ∈ B → s.mapBlockIndex.contains (b.getHash H) = true := by
    intro b hroot hb
    refine (h.seen b (hall hb)).resolve_right fun hbs => ?_
    induction hroot with
    | @known b hk =>
      obtain ⟨n, hn⟩ := Option.isSome_iff_exists.mp
        ((Std.ExtTreeMap.contains_eq_isSome_getElem? (t := s₀.mapBlockIndex)).symm.trans hk)
      refine absurd (h.waits b hbs ?_) List.not_mem_nil
      rw [Std.ExtTreeMap.contains_eq_isSome_getElem?, h.indexed.old _ _ hn]
      rfl
    | @child b parent hp hash _ ih =>
      refine absurd (h.waits b hbs (hash ▸ ?_)) List.not_mem_nil
      exact (h.seen parent (hall hp)).resolve_right (ih hp)
  refine List.eq_nil_iff_forall_not_mem.mpr fun b hbs => ?_
  have hb := h.subset hbs
  exact absurd ((hindexed b (hB.rooted b hb) hb).symm.trans (h.new b hbs)) (by decide)

/-- What an entry says of the block tree : its block and those it descends from, its height
and its chain work. -/
def CBlockIndex.facts (n : CBlockIndex) : List (Option UInt256) × ℕ × UInt256 :=
  (n.path.map (·.entry.phashBlock), n.nHeight, n.nChainWork)

@[simp] theorem CBlockIndex.entry_child (p : CBlockIndex) (e : BlockIndexEntry) :
    (child p e).entry = e :=
  rfl

theorem CBlockIndex.facts_child {p p' : CBlockIndex} {e e' : BlockIndexEntry}
    (hp : p.facts = p'.facts) (he : EntryOf H block e) (he' : EntryOf H block e') :
    (child p e).facts = (child p' e').facts := by
  obtain ⟨hpath, hrest⟩ := Prod.mk.inj hp
  obtain ⟨hheight, hwork⟩ := Prod.mk.inj hrest
  simp only [facts, path, nHeight, nChainWork, getBlockWork, entry_child, List.map_append,
    List.map_cons, List.map_nil, hpath, hheight, hwork, he.phashBlock, he'.phashBlock, he.nBits, he'.nBits]

/-- Two indexes that got all blocks of the set say the same of what is in the first. -/
theorem Indexed.facts (hB : Relayed H env nTime s₀ B) (h : Indexed H s₀ B s)
    (h' : Indexed H s₀ B s')
    (hall' : ∀ b ∈ B, s'.mapBlockIndex.contains (b.getHash H) = true) :
    ∀ (n : CBlockIndex) (hash : UInt256), s.mapBlockIndex[hash]? = some n →
      ∃ n' : CBlockIndex, s'.mapBlockIndex[hash]? = some n' ∧ n'.facts = n.facts := by
  intro n
  induction n with
  | root e =>
    intro hash hn
    rcases h.new hash _ hn with hold | ⟨b, _, _, p, e', heq, _⟩
    · exact ⟨_, h'.old _ _ hold, rfl⟩
    · cases heq
  | child p e ih =>
    intro hash hn
    rcases h.new hash _ hn with hold | ⟨b, hb, rfl, p₁, e₁, heq, hp, he⟩
    · exact ⟨_, h'.old _ _ hold, rfl⟩
    cases heq
    obtain ⟨p', hp', hfacts⟩ := ih _ hp
    obtain ⟨n', hn'⟩ := Option.isSome_iff_exists.mp
      ((Std.ExtTreeMap.contains_eq_isSome_getElem? (t := s'.mapBlockIndex)).symm.trans (hall' b hb))
    refine ⟨n', hn', ?_⟩
    rcases h'.new _ _ hn' with hold | ⟨b', hb', hhash, p'', e', rfl, hp'', he'⟩
    · rw [h.old _ _ hold] at hn
      cases hn
      rfl
    · cases hB.hash_inj b' hb' b hb hhash
      cases hp'.symm.trans hp''
      exact CBlockIndex.facts_child hfacts he' he

/-- However the blocks of the set arrive, each call of `ProcessBlock` returns, and no orphan
has its predecessor indexed after it. Once all have arrived all are indexed, those that were
not on entries of their predecessors, and none waits ; and the index says the same whatever
the order was. -/
theorem processBlock_order_independent (hB : Relayed H env nTime s₀ B)
    (h : Delivered H env s₀ B nTime seen s) :
    (∀ a : Arrival, a.Good nTime B → s.mapOrphanBlocksByPrev.length ≤ env.nMaxOrphanBlocks →
      ∃ fuel r s', ∀ k, fuel ≤ k → processBlock H env k a s = .ok (r, s')) ∧
    (∀ (hash : UInt256) (o : COrphanBlock), s.mapOrphanBlocks[hash]? = some o →
      s.mapBlockIndex.contains o.hashPrev = false) ∧
    (B ⊆ seen →
      s.mapOrphanBlocks = ∅ ∧ s.mapOrphanBlocksByPrev = [] ∧
      (∀ b ∈ B, ∃ n : CBlockIndex, s.mapBlockIndex[b.getHash H]? = some n ∧
        (s₀.mapBlockIndex.contains (b.getHash H) = false →
          n.pprev = s.mapBlockIndex[b.hashPrevBlock]?)) ∧
      ∀ seen' s', Delivered H env s₀ B nTime seen' s' → B ⊆ seen' → ∀ hash : UInt256,
        (s.mapBlockIndex[hash]?).map CBlockIndex.facts =
          (s'.mapBlockIndex[hash]?).map CBlockIndex.facts) := by
  obtain ⟨bs, hrelay⟩ := h.relay hB
  refine ⟨fun a ha hlimit => ?_, fun hash o ho => ?_, fun hall => ?_⟩
  · obtain ⟨fuel, r, s', -, hcall, -⟩ := processBlock_relay hB ha hlimit hrelay
    exact ⟨fuel, r, s', hcall⟩
  · obtain ⟨b, hb, -, rfl⟩ := (hrelay.byHash hash o).mp ho
    rw [← Bool.not_eq_true]
    exact fun hk => List.not_mem_nil (hrelay.waits b hb hk)
  have hcontains : ∀ {seen s bs}, Relay H env s₀ B seen [] bs s → B ⊆ seen →
      ∀ b ∈ B, s.mapBlockIndex.contains (b.getHash H) = true := by
    intro seen s bs hrelay hall b hb
    refine (hrelay.seen b (hall hb)).resolve_right ?_
    rw [hrelay.orphans_eq_nil hB hall]
    exact List.not_mem_nil
  have hnil := hrelay.orphans_eq_nil hB hall
  refine ⟨?_, ?_, fun b hb => ?_, fun seen' s' h' hall' hash => ?_⟩
  · ext hash o
    rw [hrelay.byHash, hnil]
    simp
  · rw [hrelay.byPrev, hnil]
    rfl
  · obtain ⟨n, hn⟩ := Option.isSome_iff_exists.mp
      ((Std.ExtTreeMap.contains_eq_isSome_getElem? (t := s.mapBlockIndex)).symm.trans
        (hcontains hrelay hall b hb))
    refine ⟨n, hn, fun hnew => ?_⟩
    rcases hrelay.indexed.new _ _ hn with hold | ⟨b', hb', hhash, p, e, rfl, hp, -⟩
    · rw [Std.ExtTreeMap.contains_eq_isSome_getElem?, hold] at hnew
      cases hnew
    · cases hB.hash_inj b' hb' b hb hhash
      exact hp.symm
  · obtain ⟨bs', hrelay'⟩ := h'.relay hB
    have hfacts := hrelay.indexed.facts hB hrelay'.indexed (hcontains hrelay' hall')
    have hfacts' := hrelay'.indexed.facts hB hrelay.indexed (hcontains hrelay hall)
    cases hn : s.mapBlockIndex[hash]? with
    | some n =>
      obtain ⟨n', hn', heq⟩ := hfacts n hash hn
      rw [hn', Option.map_some, Option.map_some, heq]
    | none =>
      cases hn' : s'.mapBlockIndex[hash]? with
      | none => rfl
      | some n' =>
        obtain ⟨m, hm, -⟩ := hfacts' n' hash hn'
        cases hn.symm.trans hm

/-! ## A sample : the second of two blocks arrives first -/

/-- A hash that reads the top byte of the nonce of a block header. -/
def nonceHash (b : Bytes) : UInt256 := BitVec.ofNat 256 (1 + (b.getD 79 0).toNat)

def sampleCoinbase : CTransaction where
  nVersion := 1
  vin := [⟨⟨0, 0xffffffff⟩, [0x51, 0x51], 0xffffffff⟩]
  vout := [⟨30 * 100000000, []⟩]
  nLockTime := 0

def sampleBlock (hashPrevBlock : UInt256) (nTime nNonce : UInt32) : CBlock where
  nVersion := 1
  hashPrevBlock := hashPrevBlock
  hashMerkleRoot := 1
  nTime := nTime
  nBits := 0x207fffff
  nNonce := nNonce <<< 24
  vtx := [sampleCoinbase]

/-- A block on the genesis, and one on it. -/
def sampleBlocks : List CBlock :=
  [sampleBlock (chainParams .regTest).hashGenesisBlock 2 1, sampleBlock 2 3 2]

def sampleGenesis : BlockIndexEntry :=
  ⟨0, some (chainParams .regTest).hashGenesisBlock, 1, 0, 1, 0x207fffff, 0, 1, 0⟩

def sampleEnv : NodeEnv where
  params := chainParams .regTest
  checkpoints := []
  nMaxOrphanBlocks := 750
  addressOf := id
  addressOf_injective := Function.injective_id
  blocks := ⟨fun _ _ => .ok, fun _ _ => true⟩

def sampleArrival (block : CBlock) : Arrival := ⟨block, true, false, 10, 0, fun _ _ => true⟩

theorem sampleBlocks_accept : ∀ b ∈ sampleBlocks, ∀ p,
    Grown nonceHash (NodeState.start sampleEnv sampleGenesis) sampleBlocks p →
    p.entry.phashBlock = some b.hashPrevBlock →
    acceptBlockChecks nonceHash (chainParams .regTest) [] none 0 10 p b = .ok () := by
  have hknown : ∀ {h : UInt256} {n : CBlockIndex},
      (NodeState.start sampleEnv sampleGenesis).mapBlockIndex[h]? = some n →
      n = .root sampleGenesis := by
    intro h n hn
    simp only [NodeState.start, Std.ExtTreeMap.getElem?_insert] at hn
    split at hn
    · cases hn
      rfl
    · simp at hn
  have hroot : ∀ {p}, Grown nonceHash (NodeState.start sampleEnv sampleGenesis) sampleBlocks p →
      p.entry.phashBlock = some (chainParams .regTest).hashGenesisBlock →
      p = .root sampleGenesis := by
    intro p hp hhash
    cases hp with
    | known hn => exact hknown hn
    | @grow _ e b _ hb _ he =>
      have hne : ∀ b ∈ sampleBlocks, b.getHash nonceHash ≠ (chainParams .regTest).hashGenesisBlock := by
        decide
      rw [CBlockIndex.entry_child, he.phashBlock, Option.some.injEq] at hhash
      exact absurd hhash (hne b hb)
  intro b hb p hp hhash
  simp only [sampleBlocks, List.mem_cons, List.not_mem_nil, or_false] at hb
  rcases hb with rfl | rfl
  · obtain rfl := hroot hp hhash
    have hmedian : (CBlockIndex.root sampleGenesis).getMedianTimePast = 1 := by
      simp [CBlockIndex.getMedianTimePast, CBlockIndex.lastTimes, nMedianTimeSpan,
        CBlockIndex.getBlockTime, CBlockIndex.entry, sampleGenesis]
    rw [acceptBlockChecks, hmedian]
    decide
  · cases hp with
    | known hn =>
      obtain rfl := hknown hn
      exact absurd hhash (by decide)
    | @grow q e b hq hb hprev he =>
      have hfirst : ∀ b ∈ sampleBlocks, b.getHash nonceHash = 2 →
          b = sampleBlock (chainParams .regTest).hashGenesisBlock 2 1 := by
        decide
      rw [CBlockIndex.entry_child, he.phashBlock, Option.some.injEq] at hhash
      obtain rfl := hfirst b hb hhash
      obtain rfl := hroot hq hprev
      have hmedian : (CBlockIndex.child (.root sampleGenesis) e).getMedianTimePast = 2 := by
        have htime : (CBlockIndex.child (.root sampleGenesis) e).getBlockTime = 2 := by
          rw [CBlockIndex.getBlockTime, CBlockIndex.entry_child, he.nTime]
          rfl
        have htimes : (CBlockIndex.child (.root sampleGenesis) e).lastTimes nMedianTimeSpan = [2, 1] := by
          rw [nMedianTimeSpan, CBlockIndex.lastTimes, htime]
          rfl
        simp [CBlockIndex.getMedianTimePast, htimes, List.mergeSort, List.MergeSort.Internal.splitInTwo]
      obtain ⟨address, phashBlock, nVersion, hashMerkleRoot, nTime, nBits, nNonce, nTx, nSequenceId⟩ := e
      obtain ⟨hh, hv, hm, ht, hbits, hn, hx⟩ := he
      dsimp only at hh hv hm ht hbits hn hx
      subst hh hv hm ht hbits hn hx
      rw [acceptBlockChecks, hmedian]
      rfl

theorem sampleBlocks_relayed : Relayed nonceHash sampleEnv 10
    (NodeState.start sampleEnv sampleGenesis) sampleBlocks where
  reach := .start sampleGenesis rfl rfl
  no_orphans := ⟨rfl, rfl⟩
  no_checkpoints := rfl
  no_system_error := ⟨fun _ _ => .inl rfl, fun _ _ => rfl⟩
  hash_inj := by decide
  prev_ne_zero := by decide
  rooted := by
    have hfirst : Rooted nonceHash (NodeState.start sampleEnv sampleGenesis) sampleBlocks
        (sampleBlock (chainParams .regTest).hashGenesisBlock 2 1) :=
      .known (by simp [NodeState.start, sampleEnv, sampleBlock])
    intro b hb
    simp only [sampleBlocks, List.mem_cons, List.not_mem_nil, or_false] at hb
    rcases hb with rfl | rfl
    · exact hfirst
    · exact .child List.mem_cons_self (by decide) hfirst
  checkBlock := by decide +kernel
  accept := sampleBlocks_accept

theorem processBlock_order_independent_sample : ∃ s,
    Delivered nonceHash sampleEnv (NodeState.start sampleEnv sampleGenesis) sampleBlocks 10
      sampleBlocks s ∧
    s.mapOrphanBlocks = ∅ ∧ ∀ b ∈ sampleBlocks, ∃ n : CBlockIndex,
      s.mapBlockIndex[b.getHash nonceHash]? = some n := by
  obtain ⟨s, h⟩ := sampleBlocks_relayed.delivered (by decide)
    (sampleBlocks.map sampleArrival) fun a ha => by
      obtain ⟨b, hb, rfl⟩ := List.mem_map.mp ha
      exact ⟨hb, rfl, rfl, fun _ _ => rfl⟩
  have hseen : (sampleBlocks.map sampleArrival).map (·.block) = sampleBlocks := rfl
  rw [hseen] at h
  obtain ⟨-, -, hall⟩ := processBlock_order_independent sampleBlocks_relayed h
  obtain ⟨hempty, -, hindexed, -⟩ := hall fun b hb => hb
  exact ⟨s, h, hempty, fun b hb => (hindexed b hb).imp fun _ hn => hn.1⟩

end Ticoin
