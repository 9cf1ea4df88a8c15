import Ticoin.ProcessBlock
import Ticoin.BestChainRuns

/-!
# Runs of ProcessBlock

`NodeState.Inv` holds of the states of a node from its start on : the index maps hashes to
entries of a tree with these hashes, new entries are put where none was, and some chain is
active. Every call of `ProcessBlock` keeps it, however it comes out (`NodeReach.inv`).
-/

namespace Ticoin

open Codec

/-! ## ActivateBestChain without system errors -/

namespace ChainState

variable {s s' : ChainState} {T : BlockTree} {env : BlockEnv}

theorem ChainStep.tip_ne_none (hi : s.Inv T) (h : s.chainActive.tip ≠ none)
    (hstep : ChainStep T env s s') : s'.chainActive.tip ≠ none := by
  cases hstep with
  | noteBestInvalid x =>
    obtain ⟨o, ho⟩ := noteBestInvalid_eq s x
    rw [ho]
    exact h
  | disconnect ht hp =>
    rw [hi.attempted.tip_setActive]
    nofun
  | connect hT hp henv =>
    rw [hi.attempted.tip_setActive]
    nofun
  | _ => exact h

theorem Steps.tip_ne_none (hi : s.Inv T) (h : s.chainActive.tip ≠ none)
    (hrun : Steps T env s s') : s'.chainActive.tip ≠ none :=
  (Machine.invariant_of_steps (P := fun x => x.Inv T ∧ x.chainActive.tip ≠ none)
    (fun _ _ hx hstep => ⟨hx.1.step hstep, hstep.tip_ne_none hx.1 hx.2⟩) hrun ⟨hi, h⟩).2

/-- Connecting and disconnecting never fail for a system error, and no block read back is
corrupted. -/
structure NoSystemError (env : BlockEnv) : Prop where
  connect : ∀ n b, env.connectBlock n b = .ok ∨ env.connectBlock n b = .invalid false
  disconnect : ∀ n b, env.disconnectBlock n b = true

/-- Then a call with an active chain returns `true`. -/
theorem Inv.activate_true (hsys : NoSystemError env) (hi : s.Inv T)
    (htip : s.chainActive.tip ≠ none) :
    ∃ fuel s', Steps T env s s' ∧ ∀ k, fuel ≤ k → s.activateBestChain env k = .ok (true, s') := by
  obtain ⟨fuel, hne⟩ := hi.terminates env (N := 0) fun s₁ w p _ henv => by
    rcases hsys.connect s₁.nAttempts p with h | h <;> rw [h] at henv <;> cases henv
  have hpost := activateBestChain_post env fuel hi
  cases hc : s.activateBestChain env fuel with
  | error e =>
    rw [hc] at hpost hne
    cases e with
    | outOfFuel => exact absurd rfl hne
    | abort =>
      obtain ⟨s₁, w, e, htried, -⟩ := hpost
      exact absurd htried.pprev.symm (Steps.tip_ne_none hi htip htried.run)
  | ok r =>
    rw [hc] at hpost
    obtain ⟨r, s'⟩ := r
    cases r with
    | true =>
      refine ⟨fuel, s', hpost.1, fun k hk => ?_⟩
      rw [activateBestChain_mono env hne hk, hc]
    | false =>
      rcases hpost.2 with ⟨n, b, hfail⟩ | ⟨s₁, w, p, htried, henv⟩
      · rw [hsys.disconnect n b] at hfail
        cases hfail
      · rcases hsys.connect s₁.nAttempts p with h | h <;> rw [h] at henv <;> cases henv

end ChainState

/-! ## The invariant of a node -/

variable (H : Bytes → UInt256) (env : NodeEnv)

/-- The index holds entries of the tree by their hashes, among them the genesis, and a chain
is active. -/
structure NodeState.Inv (T : BlockTree) (s : NodeState) : Prop where
  chain : s.chain.Inv T
  tip : s.chain.chainActive.tip ≠ none
  index_mem : ∀ (h : UInt256) (n : CBlockIndex), s.mapBlockIndex[h]? = some n → n ∈ T ∧ n.entry.phashBlock = some h
  address : ∀ n ∈ T, ∃ k < s.nAllocated, n.entry.address = env.addressOf k
  genesis : s.mapBlockIndex.contains env.params.hashGenesisBlock = true

variable {H env} {T : BlockTree} {s s' : NodeState} {block : CBlock}

theorem NodeState.Inv.of_chain (h : s.Inv env T) {chain : ChainState} (hc : chain.Inv T)
    (htip : chain.chainActive.tip ≠ none) : NodeState.Inv env T { s with chain := chain } :=
  ⟨hc, htip, h.index_mem, h.address, h.genesis⟩

theorem NodeState.Inv.fresh (h : s.Inv env T) {p : CBlockIndex}
    (hp : s.mapBlockIndex[block.hashPrevBlock]? = some p) :
    makeBlockIndex H env s block = .child p (makeEntry H env s block) ∧
      T.Fresh (makeBlockIndex H env s block) := by
  have hmake : makeBlockIndex H env s block = .child p (makeEntry H env s block) := by
    rw [makeBlockIndex, hp]
  refine ⟨hmake, fun a ha => ?_, fun q hq => ?_, fun hroot => ?_⟩
  · obtain ⟨k, hk, haddr⟩ := h.address a ha
    rw [haddr, hmake]
    exact fun heq => hk.ne (env.addressOf_injective heq)
  · rw [hmake] at hq
    cases hq
    exact (h.index_mem _ _ hp).1
  · rw [hmake] at hroot
    cases hroot

theorem NodeState.Inv.insertBlockIndex (h : s.Inv env T) {p : CBlockIndex}
    (hp : s.mapBlockIndex[block.hashPrevBlock]? = some p) :
    (insertBlockIndex H env s block).Inv env (T.insert _ (h.fresh (H := H) hp).2) where
  chain := h.chain.insertBlock _
  tip := by
    have hchain : (Ticoin.insertBlockIndex H env s block).chain.chainActive = s.chain.chainActive := by
      simp only [Ticoin.insertBlockIndex, ChainState.insertBlock, ChainState.insertValid]
      split <;> rfl
    rw [hchain]
    exact h.tip
  index_mem k n hn := by
    simp only [Ticoin.insertBlockIndex, Std.ExtTreeMap.getElem?_insert] at hn
    split at hn
    · rename_i heq
      cases hn
      refine ⟨BlockTree.mem_insert.mpr (.inl rfl), ?_⟩
      rw [(h.fresh hp).1, ← Std.LawfulEqOrd.eq_of_compare heq]
      rfl
    · exact ⟨BlockTree.mem_insert.mpr (.inr (h.index_mem k n hn).1), (h.index_mem k n hn).2⟩
  address n hn := by
    rcases BlockTree.mem_insert.mp hn with rfl | hn
    · refine ⟨s.nAllocated, Nat.lt_succ_self _, ?_⟩
      rw [(h.fresh hp).1]
      rfl
    · obtain ⟨k, hk, haddr⟩ := h.address n hn
      exact ⟨k, Nat.lt_succ_of_lt hk, haddr⟩
  genesis := by
    rw [Ticoin.insertBlockIndex, Std.ExtTreeMap.contains_insert, h.genesis, Bool.or_true]

/-- What `AcceptBlock` checked of a block it goes on with. -/
theorem NodeState.Inv.checkAccept_ok (h : s.Inv env T) {nAdjustedTime : ℤ}
    (hnew : ¬s.mapBlockIndex.contains (block.getHash H) = true)
    (hok : checkAccept H env nAdjustedTime s block = .ok ()) :
    ∃ p, s.mapBlockIndex[block.hashPrevBlock]? = some p := by
  rw [checkAccept, if_neg] at hok
  · cases hp : s.mapBlockIndex[block.hashPrevBlock]? with
    | none =>
      rw [hp] at hok
      cases hok
    | some p => exact ⟨p, rfl⟩
  · intro hgen
    rw [hgen] at hnew
    exact hnew h.genesis

/-- `AcceptBlock` keeps the invariant, and does not touch the orphans. -/
theorem NodeState.Inv.acceptBlock (h : s.Inv env T) {fuel : ℕ} {nAdjustedTime : ℤ}
    {io : IOPoint → Bool} {fKnown : Bool} {r : Check}
    (hcall : acceptBlock H env fuel nAdjustedTime io fKnown s block = .ok (r, s')) :
    ∃ T', s'.Inv env T' := by
  rw [Ticoin.acceptBlock] at hcall
  split at hcall
  · cases hcall
    exact ⟨T, h⟩
  rename_i hnew
  split at hcall
  · cases hcall
    exact ⟨T, h⟩
  rename_i hok
  obtain ⟨p, hp⟩ := h.checkAccept_ok hnew hok
  have hins := h.insertBlockIndex (H := H) hp
  have hadd : ∀ {fuel io r s'}, addToBlockIndex H env fuel io s block = .ok (r, s') →
      ∃ T', s'.Inv env T' := by
    intro fuel io r s' hcall
    rw [addToBlockIndex, if_neg hnew] at hcall
    dsimp only at hcall
    split at hcall
    · cases hcall
      exact ⟨_, hins⟩
    · have hchain : ∀ {r chain}, (Ticoin.insertBlockIndex H env s block).chain.activateBestChain
          env.blocks fuel = .ok (r, chain) →
          ∃ T', NodeState.Inv env T'
            { Ticoin.insertBlockIndex H env s block with chain := chain } := by
        intro r chain hact
        have hrun := hins.chain.steps_of_call env.blocks hact
        exact ⟨_, hins.of_chain (hins.chain.steps hrun) (hrun.tip_ne_none hins.chain hins.tip)⟩
      split at hcall
      · cases hcall
      · rename_i hact
        cases hcall
        exact hchain hact
      · rename_i hact
        split at hcall <;> cases hcall <;> exact hchain hact
  split at hcall
  · cases hcall
    exact ⟨T, h⟩
  split at hcall
  · cases hcall
    exact ⟨T, h⟩
  split at hcall
  · cases hcall
  · rename_i hcall'
    cases hcall
    exact hadd hcall'
  · rename_i hcall'
    split at hcall <;> cases hcall
    exact hadd hcall'

theorem NodeState.Inv.of_orphans (h : s.Inv env T)
    {mapOrphanBlocks : Std.ExtTreeMap UInt256 COrphanBlock}
    {mapOrphanBlocksByPrev : List (UInt256 × COrphanBlock)} :
    NodeState.Inv env T { s with
      mapOrphanBlocks := mapOrphanBlocks
      mapOrphanBlocksByPrev := mapOrphanBlocksByPrev } :=
  ⟨h.chain, h.tip, h.index_mem, h.address, h.genesis⟩

theorem acceptOrphans_inv {fuel : ℕ} {a : Arrival} : ∀ {os : List COrphanBlock}
    {s s' : NodeState} {T : BlockTree} {accepted : List UInt256}, s.Inv env T →
    acceptOrphans H env fuel a os s = .ok (accepted, s') → ∃ T', s'.Inv env T'
  | [], s, s', T, accepted, h, hcall => by
    cases hcall
    exact ⟨T, h⟩
  | o :: os, s, s', T, accepted, h, hcall => by
    rw [acceptOrphans] at hcall
    split at hcall
    · cases hcall
    split at hcall
    · cases hcall
    · rename_i haccept
      obtain ⟨T₁, h₁⟩ := h.acceptBlock haccept
      split at hcall
      · cases hcall
      · rename_i hrest
        cases hcall
        exact acceptOrphans_inv h₁.of_orphans hrest

theorem processQueue_inv {fuel : ℕ} {a : Arrival} : ∀ {n : ℕ} {vWorkQueue : List UInt256}
    {s s' : NodeState} {T : BlockTree}, s.Inv env T →
    processQueue H env fuel a n vWorkQueue s = .ok s' → ∃ T', s'.Inv env T'
  | _, [], s, s', T, h, hcall => by
    rw [processQueue] at hcall
    cases hcall
    exact ⟨T, h⟩
  | 0, _ :: _, s, s', T, h, hcall => by cases hcall
  | n + 1, hashPrev :: vWorkQueue, s, s', T, h, hcall => by
    rw [processQueue] at hcall
    split at hcall
    · cases hcall
    · rename_i haccept
      obtain ⟨T₁, h₁⟩ := acceptOrphans_inv h haccept
      exact processQueue_inv h₁.of_orphans hcall

/-- `ProcessBlock` keeps the invariant, however it comes out. -/
theorem NodeState.Inv.processBlock (h : s.Inv env T) {fuel : ℕ} {a : Arrival} {r : Check}
    (hcall : processBlock H env fuel a s = .ok (r, s')) : ∃ T', s'.Inv env T' := by
  rw [Ticoin.processBlock] at hcall
  split at hcall
  · cases hcall
    exact ⟨T, h⟩
  split at hcall
  · split at hcall
    · cases hcall
      refine ⟨T, NodeState.Inv.of_orphans ?_⟩
      rw [pruneOrphanBlocks]
      dsimp only
      split
      · exact h
      · split
        · exact h
        · exact h.of_orphans
    · cases hcall
      exact ⟨T, h⟩
  · split at hcall
    · cases hcall
    · rename_i haccept
      cases hcall
      exact h.acceptBlock haccept
    · rename_i s₁ haccept
      obtain ⟨T₁, h₁⟩ := h.acceptBlock haccept
      cases hq : processQueue H env fuel a fuel [a.block.getHash H] s₁ with
      | error e =>
        rw [hq] at hcall
        cases hcall
      | ok s₂ =>
        rw [hq] at hcall
        cases hcall
        exact processQueue_inv h₁ hq

/-! ## States of a node -/

variable (env)

/-- The state once the genesis is indexed and connected. -/
def NodeState.start (genesis : BlockIndexEntry) : NodeState where
  mapBlockIndex := (∅ : Std.ExtTreeMap UInt256 CBlockIndex).insert env.params.hashGenesisBlock
    (.root genesis)
  nBlockSequenceId := genesis.nSequenceId + 1
  nAllocated := 1
  chain := { ChainState.init.insertBlock (.root genesis) with
    chainActive := ⟨[some (.root genesis)]⟩
    chainMostWork := ⟨[some (.root genesis)]⟩
    nAttempts := 1 }
  mapOrphanBlocks := ∅
  mapOrphanBlocksByPrev := []

variable (H)

/-- The states of a node : from its start on, after any calls of `ProcessBlock`. -/
inductive NodeReach : NodeState → Prop
  | start (genesis : BlockIndexEntry) (haddr : genesis.address = env.addressOf 0)
      (hhash : genesis.phashBlock = some env.params.hashGenesisBlock) :
      NodeReach (NodeState.start env genesis)
  | processBlock {s s' : NodeState} {fuel : ℕ} {a : Arrival} {r : Check} (h : NodeReach s)
      (hcall : processBlock H env fuel a s = .ok (r, s')) : NodeReach s'

variable {H env}

theorem NodeState.Inv.start {genesis : BlockIndexEntry} (haddr : genesis.address = env.addressOf 0)
    (hhash : genesis.phashBlock = some env.params.hashGenesisBlock) :
    ∃ T, (NodeState.start env genesis).Inv env T := by
  have hfresh : BlockTree.empty.Fresh (.root genesis) :=
    ⟨fun _ h => absurd h List.not_mem_nil, nofun, fun _ => rfl⟩
  have hchain := ChainState.Inv.init.insertBlock hfresh
  refine ⟨BlockTree.empty.insert _ hfresh, ⟨hchain.mem_valid, rfl, ?_, rfl, ?_⟩, nofun, ?_, ?_, ?_⟩
  · intro t ht
    cases ht
    exact BlockTree.mem_insert.mpr (.inl rfl)
  · intro t ht
    cases ht
    exact BlockTree.mem_insert.mpr (.inl rfl)
  · intro h n hn
    simp only [NodeState.start, Std.ExtTreeMap.getElem?_insert] at hn
    split at hn
    · rename_i heq
      cases hn
      exact ⟨BlockTree.mem_insert.mpr (.inl rfl), Std.LawfulEqOrd.eq_of_compare heq ▸ hhash⟩
    · simp at hn
  · intro n hn
    rcases BlockTree.mem_insert.mp hn with rfl | hn
    · exact ⟨0, Nat.one_pos, haddr⟩
    · exact absurd hn List.not_mem_nil
  · simp [NodeState.start]

theorem NodeReach.inv (h : NodeReach H env s) : ∃ T, s.Inv env T := by
  induction h with
  | start genesis haddr hhash => exact NodeState.Inv.start haddr hhash
  | processBlock _ hcall ih =>
    obtain ⟨T, hinv⟩ := ih
    exact hinv.processBlock hcall

end Ticoin
