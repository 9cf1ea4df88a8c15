import Ticoin.BlockRelay
import Ticoin.Lib.Cascade
import Ticoin.Lib.Table

/-!
# The orphan blocks

An orphan block is in `mapOrphanBlocks` by its hash and in `mapOrphanBlocksByPrev` by that of its
predecessor, and both maps own it together. `PruneOrphanBlocks` walks from a random orphan to one
that no other builds on, and `GetOrphanRoot` the other way to the first of a chain.

In every state that calls of `ProcessBlock` reach the two maps hold the same orphans, with at most
one more than the limit, and both walks end, as the hash of a block ranks above that of its
predecessor (`orphanBlocks_of_reach`).
-/

namespace Ticoin

open Codec Cascade

/-! ## GetOrphanRoot -/

/-- The loop of `GetOrphanRoot` back to the first block in the orphan chain, for some rounds. -/
def orphanRootLoop (m : Std.ExtTreeMap UInt256 COrphanBlock) : ℕ → UInt256 → COrphanBlock → Option UInt256
  | 0, _, _ => none
  | n + 1, hash, o =>
    match m[o.hashPrev]? with
    | none => some hash
    | some o2 => orphanRootLoop m n o.hashPrev o2

/-- `GetOrphanRoot`. -/
def getOrphanRoot (n : ℕ) (hash : UInt256) (s : NodeState) : Option UInt256 :=
  match s.mapOrphanBlocks[hash]? with
  | none => some hash
  | some o => orphanRootLoop s.mapOrphanBlocks n hash o

/-! ## The two maps -/

variable {H : Bytes → UInt256} {env : NodeEnv} {rank : UInt256 → ℕ} {s s' : NodeState}
  {block : CBlock} {o : COrphanBlock} {e : UInt256 × COrphanBlock}

/-- The two maps of a node hold the same orphans, each above its predecessor. -/
structure OrphanInv (rank : UInt256 → ℕ) (s : NodeState) : Prop where
  keyed : ∀ e ∈ s.mapOrphanBlocksByPrev, e.1 = e.2.hashPrev
  stored : ∀ (hash : UInt256) (o : COrphanBlock), s.mapOrphanBlocks[hash]? = some o ↔
    (o.hashPrev, o) ∈ s.mapOrphanBlocksByPrev ∧ o.hashBlock = hash
  nodup : (s.mapOrphanBlocksByPrev.map fun e => e.2.hashBlock).Nodup
  lt : ∀ e ∈ s.mapOrphanBlocksByPrev, rank e.2.hashPrev < rank e.2.hashBlock

theorem OrphanInv.mem_iff (h : OrphanInv rank s) :
    e ∈ s.mapOrphanBlocksByPrev ↔
      e.1 = e.2.hashPrev ∧ s.mapOrphanBlocks[e.2.hashBlock]? = some e.2 := by
  rw [h.stored]
  constructor
  · intro he
    have hkey := h.keyed e he
    exact ⟨hkey, by rw [← hkey]; exact he, rfl⟩
  · rintro ⟨hkey, he, -⟩
    rw [← hkey] at he
    exact he

/-- An orphan is found by its hash alone. -/
theorem OrphanInv.eq_of_hashBlock (h : OrphanInv rank s) {e' : UInt256 × COrphanBlock}
    (he : e ∈ s.mapOrphanBlocksByPrev) (he' : e' ∈ s.mapOrphanBlocksByPrev)
    (heq : e.2.hashBlock = e'.2.hashBlock) : e = e' :=
  List.inj_on_of_nodup_map h.nodup he he' heq

theorem OrphanInv.of_eq (h : OrphanInv rank s) (hmap : s'.mapOrphanBlocks = s.mapOrphanBlocks)
    (hprev : s'.mapOrphanBlocksByPrev = s.mapOrphanBlocksByPrev) : OrphanInv rank s' := by
  constructor
  · rw [hprev]
    exact h.keyed
  · rw [hmap, hprev]
    exact h.stored
  · rw [hprev]
    exact h.nodup
  · rw [hprev]
    exact h.lt

/-- Some orphans are taken out of both maps. -/
theorem OrphanInv.sublist (h : OrphanInv rank s)
    (hsub : s'.mapOrphanBlocksByPrev.Sublist s.mapOrphanBlocksByPrev)
    (hmap : ∀ (hash : UInt256) (o : COrphanBlock), s'.mapOrphanBlocks[hash]? = some o ↔
      s.mapOrphanBlocks[hash]? = some o ∧ (o.hashPrev, o) ∈ s'.mapOrphanBlocksByPrev) :
    OrphanInv rank s' where
  keyed e he := h.keyed e (hsub.subset he)
  stored hash o := by
    rw [hmap, h.stored]
    exact ⟨fun hcase => ⟨hcase.2, hcase.1.2⟩, fun hcase => ⟨⟨hsub.subset hcase.1, hcase.2⟩, hcase.1⟩⟩
  nodup := h.nodup.sublist (hsub.map _)
  lt e he := h.lt e (hsub.subset he)

/-! ## Adding an orphan -/

theorem perm_insertByPrev (x : UInt256 × COrphanBlock) (l : List (UInt256 × COrphanBlock)) :
    (insertByPrev x l).Perm (x :: l) := by
  rw [insertByPrev]
  refine List.perm_middle.trans (List.Perm.cons x ?_)
  rw [List.takeWhile_append_dropWhile]

/-- A new orphan whose hash ranks above that of its predecessor. -/
theorem OrphanInv.addOrphanBlock (h : OrphanInv rank s)
    (hnew : s.mapOrphanBlocks[block.getHash H]? = none)
    (hlt : rank block.hashPrevBlock < rank (block.getHash H)) :
    OrphanInv rank (addOrphanBlock H s block) := by
  have hperm : (Ticoin.addOrphanBlock H s block).mapOrphanBlocksByPrev.Perm
      ((block.hashPrevBlock, orphanOf H block) :: s.mapOrphanBlocksByPrev) :=
    perm_insertByPrev _ _
  have hget : ∀ hash : UInt256, (Ticoin.addOrphanBlock H s block).mapOrphanBlocks[hash]? =
      if hash = block.getHash H then some (orphanOf H block) else s.mapOrphanBlocks[hash]? := by
    intro hash
    change (s.mapOrphanBlocks.insertIfNew (block.getHash H) (orphanOf H block))[hash]? = _
    rw [Std.ExtTreeMap.getElem?_insertIfNew]
    by_cases heq : hash = block.getHash H
    · rw [if_pos heq, if_pos]
      refine ⟨by rw [heq]; exact Std.ReflCmp.compare_self, ?_⟩
      rw [Std.ExtTreeMap.mem_iff_isSome_getElem?, hnew]
      exact Bool.false_ne_true
    · rw [if_neg heq, if_neg fun hcase => heq (Std.LawfulEqOrd.eq_of_compare hcase.1).symm]
  constructor
  · intro e he
    rcases List.mem_cons.mp (hperm.mem_iff.mp he) with rfl | he
    · rfl
    · exact h.keyed e he
  · intro hash o
    rw [hget, hperm.mem_iff, List.mem_cons]
    by_cases heq : hash = block.getHash H
    · rw [if_pos heq, heq, Option.some.injEq]
      constructor
      · rintro rfl
        exact ⟨Or.inl rfl, rfl⟩
      · rintro ⟨hnew' | hold, hhash⟩
        · exact (Prod.mk.inj hnew').2.symm
        · have hstored := (h.stored _ o).mpr ⟨hold, hhash⟩
          rw [hnew] at hstored
          cases hstored
    · rw [if_neg heq, h.stored]
      refine and_congr_left fun hhash => (or_iff_right fun hcase => heq ?_).symm
      rw [← hhash, (Prod.mk.inj hcase).2]
      rfl
  · refine (hperm.map _).nodup_iff.mpr (List.nodup_cons.mpr ⟨fun hmem => ?_, h.nodup⟩)
    obtain ⟨e, he, hhash⟩ := List.mem_map.mp hmem
    have hstored := (h.mem_iff.mp he).2
    rw [show e.2.hashBlock = block.getHash H from hhash, hnew] at hstored
    cases hstored
  · intro e he
    rcases List.mem_cons.mp (hperm.mem_iff.mp he) with rfl | he
    · exact hlt
    · exact h.lt e he

/-! ## Walking the orphans -/

theorem OrphanInv.find_dependent (h : OrphanInv rank s) {it it2 : UInt256 × COrphanBlock}
    (hfind : s.mapOrphanBlocksByPrev.find? (·.1 == it.2.hashBlock) = some it2) :
    it2 ∈ s.mapOrphanBlocksByPrev ∧ rank it.2.hashBlock < rank it2.2.hashBlock := by
  have hmem := List.mem_of_find?_eq_some hfind
  have hkey := List.find?_some hfind
  rw [beq_iff_eq] at hkey
  refine ⟨hmem, ?_⟩
  rw [← hkey, h.keyed it2 hmem]
  exact h.lt it2 hmem

/-- The number of orphans that rank above one. -/
noncomputable def orphansAbove (rank : UInt256 → ℕ) (s : NodeState) (it : UInt256 × COrphanBlock) : ℕ :=
  height (fun e : UInt256 × COrphanBlock => rank e.2.hashBlock) {e | e ∈ s.mapOrphanBlocksByPrev} it

theorem orphansAbove_le (it : UInt256 × COrphanBlock) :
    orphansAbove rank s it ≤ s.mapOrphanBlocksByPrev.length := by
  classical
  have hsub : {e | e ∈ {e | e ∈ s.mapOrphanBlocksByPrev} ∧ rank it.2.hashBlock < rank e.2.hashBlock} ⊆
      (s.mapOrphanBlocksByPrev.toFinset : Set (UInt256 × COrphanBlock)) := fun e he =>
    List.mem_toFinset.mpr he.1
  calc orphansAbove rank s it ≤ s.mapOrphanBlocksByPrev.toFinset.card := by
        rw [← Set.ncard_coe_finset]
        exact Set.ncard_le_ncard hsub
    _ ≤ s.mapOrphanBlocksByPrev.length := List.toFinset_card_le _

/-- The walk ends at an orphan that no other builds on, after as many rounds as orphans rank
above. -/
theorem OrphanInv.lastDependent (h : OrphanInv rank s) : ∀ {n : ℕ} {it : UInt256 × COrphanBlock},
    it ∈ s.mapOrphanBlocksByPrev → orphansAbove rank s it ≤ n →
    ∃ leaf ∈ s.mapOrphanBlocksByPrev,
      s.mapOrphanBlocksByPrev.find? (·.1 == leaf.2.hashBlock) = none ∧
      ∀ k, n ≤ k → lastDependent s.mapOrphanBlocksByPrev k it = leaf
  | n, it, hit, hle => by
    cases hfind : s.mapOrphanBlocksByPrev.find? (·.1 == it.2.hashBlock) with
    | none =>
      refine ⟨it, hit, hfind, fun k _ => ?_⟩
      cases k with
      | zero => rfl
      | succ k => rw [Ticoin.lastDependent, hfind]
    | some it2 =>
      obtain ⟨hmem, hlt⟩ := h.find_dependent hfind
      have hless : orphansAbove rank s it2 < orphansAbove rank s it :=
        height_lt (List.finite_toSet _) hmem hlt
      cases n with
      | zero => omega
      | succ n =>
        obtain ⟨leaf, hleaf, hnone, hwalk⟩ := h.lastDependent (n := n) hmem (by omega)
        refine ⟨leaf, hleaf, hnone, fun k hk => ?_⟩
        cases k with
        | zero => omega
        | succ k =>
          rw [Ticoin.lastDependent, hfind]
          exact hwalk k (by omega)

/-- The walk back ends, as the ranks decrease. -/
theorem OrphanInv.orphanRootLoop (h : OrphanInv rank s) : ∀ {n : ℕ} {hash : UInt256} {o : COrphanBlock},
    s.mapOrphanBlocks[hash]? = some o → rank hash < n →
    ∃ root, ∀ k, n ≤ k → orphanRootLoop s.mapOrphanBlocks k hash o = some root
  | n + 1, hash, o, hget, hlt => by
    obtain ⟨hmem, hhash⟩ := (h.stored hash o).mp hget
    have hless := h.lt _ hmem
    rw [hhash] at hless
    cases hprev : s.mapOrphanBlocks[o.hashPrev]? with
    | none =>
      refine ⟨hash, fun k hk => ?_⟩
      cases k with
      | zero => omega
      | succ k => rw [Ticoin.orphanRootLoop, hprev]
    | some o2 =>
      obtain ⟨root, hroot⟩ := h.orphanRootLoop (n := n) hprev (by dsimp only at hless; omega)
      refine ⟨root, fun k hk => ?_⟩
      cases k with
      | zero => omega
      | succ k =>
        rw [Ticoin.orphanRootLoop, hprev]
        exact hroot k (by omega)

theorem OrphanInv.getOrphanRoot (h : OrphanInv rank s) (hash : UInt256) :
    ∃ n root, ∀ k, n ≤ k → getOrphanRoot k hash s = some root := by
  unfold Ticoin.getOrphanRoot
  cases hget : s.mapOrphanBlocks[hash]? with
  | none => exact ⟨0, hash, fun k _ => rfl⟩
  | some o =>
    obtain ⟨root, hroot⟩ := h.orphanRootLoop hget (Nat.lt_succ_self (rank hash))
    exact ⟨_, root, hroot⟩

/-! ## PruneOrphanBlocks -/

/-- A state without one of its orphans. -/
def eraseOrphan (e : UInt256 × COrphanBlock) (s : NodeState) : NodeState :=
  { s with
    mapOrphanBlocks := s.mapOrphanBlocks.erase e.2.hashBlock
    mapOrphanBlocksByPrev := s.mapOrphanBlocksByPrev.erase e }

theorem OrphanInv.erase (h : OrphanInv rank s) (he : e ∈ s.mapOrphanBlocksByPrev) :
    OrphanInv rank (eraseOrphan e s) := by
  refine h.sublist (List.erase_sublist) fun hash o => ?_
  change (s.mapOrphanBlocks.erase e.2.hashBlock)[hash]? = some o ↔
    _ ∧ (o.hashPrev, o) ∈ s.mapOrphanBlocksByPrev.erase e
  rw [(List.Nodup.of_map _ h.nodup).mem_erase_iff, congrFun Table.getElem?_erase_eq hash]
  by_cases heq : hash = e.2.hashBlock
  · rw [heq, Function.update_self]
    refine iff_of_false nofun ?_
    rintro ⟨hget, hne, hmem⟩
    exact hne (h.eq_of_hashBlock hmem he ((h.stored _ o).mp hget).2)
  · rw [Function.update_of_ne heq]
    refine ⟨fun hget => ⟨hget, ?_, ((h.stored hash o).mp hget).1⟩, fun hcase => hcase.1⟩
    rintro rfl
    exact heq ((h.stored hash o).mp hget).2.symm

/-- Nothing is removed up to the limit, and above it one orphan that no other builds on. -/
theorem OrphanInv.pruneOrphanBlocks_cases (h : OrphanInv rank s) (env : NodeEnv) (insecureRand : ℕ) :
    (s.mapOrphanBlocksByPrev.length ≤ env.nMaxOrphanBlocks ∧
      pruneOrphanBlocks env insecureRand s = s) ∨
    (env.nMaxOrphanBlocks < s.mapOrphanBlocksByPrev.length ∧ ∃ leaf ∈ s.mapOrphanBlocksByPrev,
      (∀ e ∈ s.mapOrphanBlocksByPrev, e.2.hashPrev ≠ leaf.2.hashBlock) ∧
      pruneOrphanBlocks env insecureRand s = eraseOrphan leaf s) := by
  unfold pruneOrphanBlocks
  dsimp only
  split
  · rename_i hle
    exact Or.inl ⟨hle, rfl⟩
  rename_i hlt
  rw [not_le] at hlt
  have hpos : insecureRand % s.mapOrphanBlocksByPrev.length < s.mapOrphanBlocksByPrev.length :=
    Nat.mod_lt _ (by omega)
  rw [List.getElem?_eq_getElem hpos]
  obtain ⟨leaf, hleaf, hnone, hwalk⟩ := h.lastDependent (List.getElem_mem hpos) (orphansAbove_le _)
  refine Or.inr ⟨hlt, leaf, hleaf, fun e he heq => ?_, ?_⟩
  · have hno := List.find?_eq_none.mp hnone e he
    rw [h.keyed e he, heq, beq_self_eq_true] at hno
    exact hno rfl
  · dsimp only
    rw [hwalk _ le_rfl]
    rfl

/-- After pruning there is room for one more. -/
theorem OrphanInv.pruneOrphanBlocks (h : OrphanInv rank s)
    (hsize : s.mapOrphanBlocksByPrev.length ≤ env.nMaxOrphanBlocks + 1) (insecureRand : ℕ) :
    OrphanInv rank (pruneOrphanBlocks env insecureRand s) ∧
      (pruneOrphanBlocks env insecureRand s).mapOrphanBlocksByPrev.length ≤ env.nMaxOrphanBlocks ∧
      ∀ hash : UInt256, s.mapOrphanBlocks[hash]? = none →
        (Ticoin.pruneOrphanBlocks env insecureRand s).mapOrphanBlocks[hash]? = none := by
  rcases h.pruneOrphanBlocks_cases env insecureRand with ⟨hle, heq⟩ | ⟨-, leaf, hleaf, -, heq⟩
  · rw [heq]
    exact ⟨h, hle, fun _ hnone => hnone⟩
  · rw [heq]
    refine ⟨h.erase hleaf, ?_, fun hash hnone => ?_⟩
    · change (s.mapOrphanBlocksByPrev.erase leaf).length ≤ _
      rw [List.length_erase_of_mem hleaf]
      omega
    · change (s.mapOrphanBlocks.erase leaf.2.hashBlock)[hash]? = none
      rw [congrFun Table.getElem?_erase_eq hash]
      by_cases heq : hash = leaf.2.hashBlock
      · rw [heq, Function.update_self]
      · rw [Function.update_of_ne heq]
        exact hnone

/-! ## ProcessBlock -/

/-- `AcceptBlock` does not touch the orphans. -/
theorem acceptBlock_orphans {fuel : ℕ} {nAdjustedTime : ℤ} {io : IOPoint → Bool} {fKnown : Bool}
    {r : Check} (hcall : acceptBlock H env fuel nAdjustedTime io fKnown s block = .ok (r, s')) :
    s'.mapOrphanBlocks = s.mapOrphanBlocks ∧ s'.mapOrphanBlocksByPrev = s.mapOrphanBlocksByPrev := by
  have hadd : ∀ {r s'}, addToBlockIndex H env fuel io s block = .ok (r, s') →
      s'.mapOrphanBlocks = s.mapOrphanBlocks ∧
        s'.mapOrphanBlocksByPrev = s.mapOrphanBlocksByPrev := by
    intro r s' hcall
    rw [addToBlockIndex] at hcall
    split at hcall
    · cases hcall
      exact ⟨rfl, rfl⟩
    dsimp only at hcall
    split at hcall
    · cases hcall
      exact ⟨rfl, rfl⟩
    split at hcall
    · cases hcall
    · cases hcall
      exact ⟨rfl, rfl⟩
    · split at hcall <;> cases hcall <;> exact ⟨rfl, rfl⟩
  rw [acceptBlock] at hcall
  split at hcall
  · cases hcall
    exact ⟨rfl, rfl⟩
  split at hcall
  · cases hcall
    exact ⟨rfl, rfl⟩
  split at hcall
  · cases hcall
    exact ⟨rfl, rfl⟩
  split at hcall
  · cases hcall
    exact ⟨rfl, rfl⟩
  split at hcall
  · cases hcall
  · rename_i hcall'
    cases hcall
    exact hadd hcall'
  · rename_i hcall'
    split at hcall <;> cases hcall
    exact hadd hcall'

/-- The orphans that are accepted, or not, are taken out of the first map. -/
theorem acceptOrphans_orphans {fuel : ℕ} {a : Arrival} : ∀ {os : List COrphanBlock}
    {s s' : NodeState} {accepted : List UInt256},
    acceptOrphans H env fuel a os s = .ok (accepted, s') →
    (∀ hash : UInt256, s'.mapOrphanBlocks[hash]? =
      if hash ∈ os.map COrphanBlock.hashBlock then none else s.mapOrphanBlocks[hash]?) ∧
    s'.mapOrphanBlocksByPrev = s.mapOrphanBlocksByPrev
  | [], s, s', accepted, hcall => by
    cases hcall
    exact ⟨fun hash => by simp, rfl⟩
  | o :: os, s, s', accepted, hcall => by
    rw [acceptOrphans] at hcall
    split at hcall
    · cases hcall
    split at hcall
    · cases hcall
    rename_i haccept
    split at hcall
    · cases hcall
    rename_i hrest
    cases hcall
    obtain ⟨hmap₁, hprev₁⟩ := acceptBlock_orphans haccept
    obtain ⟨hmap, hprev⟩ := acceptOrphans_orphans hrest
    refine ⟨fun hash => ?_, hprev.trans hprev₁⟩
    rw [hmap]
    simp only [List.map_cons, List.mem_cons]
    rw [hmap₁, congrFun Table.getElem?_erase_eq hash]
    by_cases heq : hash = o.hashBlock
    · rw [heq, Function.update_self, ite_self, if_pos (Or.inl rfl)]
    · rw [Function.update_of_ne heq]
      exact if_congr (or_iff_right heq).symm rfl rfl

/-- The orphans that waited for a block are taken out of both maps. -/
theorem OrphanInv.acceptOrphans (h : OrphanInv rank s) {fuel : ℕ} {a : Arrival} {hashPrev : UInt256}
    {accepted : List UInt256}
    (hcall : acceptOrphans H env fuel a (s.orphansOf hashPrev) s = .ok (accepted, s')) :
    OrphanInv rank (s'.eraseByPrev hashPrev) ∧
      (s'.eraseByPrev hashPrev).mapOrphanBlocksByPrev.length ≤ s.mapOrphanBlocksByPrev.length := by
  obtain ⟨hmap, hprev⟩ := acceptOrphans_orphans hcall
  have hlist : (s'.eraseByPrev hashPrev).mapOrphanBlocksByPrev =
      s.mapOrphanBlocksByPrev.filter (·.1 != hashPrev) := by
    rw [← hprev]
    rfl
  have hsub : (s'.eraseByPrev hashPrev).mapOrphanBlocksByPrev.Sublist s.mapOrphanBlocksByPrev := by
    rw [hlist]
    exact List.filter_sublist
  refine ⟨h.sublist hsub fun hash o => ?_, hsub.length_le⟩
  change s'.mapOrphanBlocks[hash]? = some o ↔ _
  rw [hmap, hlist, List.mem_filter, bne_iff_ne]
  have htaken : hash ∈ (s.orphansOf hashPrev).map COrphanBlock.hashBlock ↔
      ∃ o, s.mapOrphanBlocks[hash]? = some o ∧ o.hashPrev = hashPrev := by
    rw [NodeState.orphansOf, List.map_map, List.mem_map]
    constructor
    · rintro ⟨e, he, rfl⟩
      obtain ⟨he, hkey⟩ := List.mem_filter.mp he
      rw [beq_iff_eq] at hkey
      exact ⟨e.2, (h.mem_iff.mp he).2, (h.keyed e he).symm.trans hkey⟩
    · rintro ⟨o, hget, rfl⟩
      obtain ⟨hmem, rfl⟩ := (h.stored _ o).mp hget
      exact ⟨_, List.mem_filter.mpr ⟨hmem, beq_self_eq_true _⟩, rfl⟩
  split_ifs with hcase
  · refine iff_of_false not_false ?_
    rintro ⟨hget, -, hne⟩
    obtain ⟨o', hget', hprev'⟩ := htaken.mp hcase
    rw [hget, Option.some.injEq] at hget'
    exact hne (hget' ▸ hprev')
  · refine ⟨fun hget => ⟨hget, ((h.stored hash o).mp hget).1, fun heq => hcase ?_⟩, fun hget => hget.1⟩
    exact htaken.mpr ⟨o, hget, heq⟩

theorem OrphanInv.processQueue {fuel : ℕ} {a : Arrival} : ∀ {n : ℕ} {vWorkQueue : List UInt256}
    {s s' : NodeState}, OrphanInv rank s → processQueue H env fuel a n vWorkQueue s = .ok s' →
    OrphanInv rank s' ∧ s'.mapOrphanBlocksByPrev.length ≤ s.mapOrphanBlocksByPrev.length
  | _, [], s, s', h, hcall => by
    rw [Ticoin.processQueue] at hcall
    cases hcall
    exact ⟨h, le_rfl⟩
  | 0, _ :: _, s, s', h, hcall => by cases hcall
  | n + 1, hashPrev :: vWorkQueue, s, s', h, hcall => by
    rw [Ticoin.processQueue] at hcall
    split at hcall
    · cases hcall
    · rename_i haccept
      obtain ⟨h₁, hle₁⟩ := h.acceptOrphans haccept
      obtain ⟨h', hle⟩ := h₁.processQueue hcall
      exact ⟨h', hle.trans hle₁⟩

/-- What every call of `ProcessBlock` keeps. -/
structure OrphanPoolInv (env : NodeEnv) (rank : UInt256 → ℕ) (s : NodeState) : Prop extends
    OrphanInv rank s where
  size : s.mapOrphanBlocksByPrev.length ≤ env.nMaxOrphanBlocks + 1

theorem OrphanPoolInv.processBlock (h : OrphanPoolInv env rank s) {fuel : ℕ} {a : Arrival} {r : Check}
    (hlt : rank a.block.hashPrevBlock < rank (a.block.getHash H))
    (hcall : processBlock H env fuel a s = .ok (r, s')) : OrphanPoolInv env rank s' := by
  rw [Ticoin.processBlock] at hcall
  split at hcall
  · cases hcall
    exact h
  rename_i hcheck
  split at hcall
  · split at hcall
    · cases hcall
      have hnew : s.mapOrphanBlocks[a.block.getHash H]? = none := by
        obtain ⟨-, hcheck⟩ := bind_stopIf_eq_ok.mp hcheck
        obtain ⟨hnot, -⟩ := bind_stopIf_eq_ok.mp hcheck
        rw [Std.ExtTreeMap.contains_eq_isSome_getElem?] at hnot
        exact Option.not_isSome_iff_eq_none.mp hnot
      obtain ⟨hpruned, hsize, hnone⟩ := h.toOrphanInv.pruneOrphanBlocks h.size a.insecureRand
      refine ⟨hpruned.addOrphanBlock (hnone _ hnew) hlt, ?_⟩
      rw [addOrphanBlock, (perm_insertByPrev _ _).length_eq, List.length_cons]
      omega
    · cases hcall
      exact h
  split at hcall
  · cases hcall
  · rename_i haccept
    cases hcall
    obtain ⟨hmap, hprev⟩ := acceptBlock_orphans haccept
    exact ⟨h.toOrphanInv.of_eq hmap hprev, by rw [hprev]; exact h.size⟩
  · rename_i s₁ haccept
    obtain ⟨hmap, hprev⟩ := acceptBlock_orphans haccept
    cases hq : processQueue H env fuel a fuel [a.block.getHash H] s₁ with
    | error e =>
      rw [hq] at hcall
      cases hcall
    | ok s₂ =>
      rw [hq] at hcall
      cases hcall
      obtain ⟨h', hle⟩ := (h.toOrphanInv.of_eq hmap hprev).processQueue hq
      refine ⟨h', hle.trans ?_⟩
      rw [hprev]
      exact h.size

/-! ## Runs -/

variable (H env) in
/-- The states that calls of `ProcessBlock` with blocks of a set reach from one without orphans. -/
inductive OrphanReach (blocks : Set CBlock) : NodeState → Prop
  | start {s : NodeState} (hmap : s.mapOrphanBlocks = ∅) (hprev : s.mapOrphanBlocksByPrev = []) :
      OrphanReach blocks s
  | processBlock {s s' : NodeState} {fuel : ℕ} {a : Arrival} {r : Check} (h : OrphanReach blocks s)
      (ha : a.block ∈ blocks) (hcall : processBlock H env fuel a s = .ok (r, s')) :
      OrphanReach blocks s'

theorem OrphanPoolInv.start (hmap : s.mapOrphanBlocks = ∅) (hprev : s.mapOrphanBlocksByPrev = []) :
    OrphanPoolInv env rank s where
  keyed := by simp [hprev]
  stored hash o := by simp [hmap, hprev]
  nodup := by simp [hprev]
  lt := by simp [hprev]
  size := by simp [hprev]

theorem OrphanReach.inv {blocks : Set CBlock}
    (hrank : ∀ block ∈ blocks, rank block.hashPrevBlock < rank (block.getHash H))
    (h : OrphanReach H env blocks s) : OrphanPoolInv env rank s := by
  induction h with
  | start hmap hprev => exact OrphanPoolInv.start hmap hprev
  | processBlock _ ha hcall ih => exact ih.processBlock (hrank _ ha) hcall

/-- In every state that is reached the two maps hold the same orphans, each once, under their hash
and that of their predecessor, and at most one more than the limit ; pruning removes at most one,
which no other builds on, and the walks to a leaf and to the root of a chain end. -/
theorem orphanBlocks_of_reach {blocks : Set CBlock}
    (hrank : ∀ block ∈ blocks, rank block.hashPrevBlock < rank (block.getHash H))
    (h : OrphanReach H env blocks s) :
    ((∀ e, e ∈ s.mapOrphanBlocksByPrev ↔
        e.1 = e.2.hashPrev ∧ s.mapOrphanBlocks[e.2.hashBlock]? = some e.2) ∧
      (∀ (hash : UInt256) (o : COrphanBlock), s.mapOrphanBlocks[hash]? = some o → o.hashBlock = hash) ∧
      s.mapOrphanBlocksByPrev.Nodup) ∧
    (∀ insecureRand, pruneOrphanBlocks env insecureRand s = s ∨
      ∃ leaf ∈ s.mapOrphanBlocksByPrev,
        (∀ e ∈ s.mapOrphanBlocksByPrev, e.2.hashPrev ≠ leaf.2.hashBlock) ∧
        pruneOrphanBlocks env insecureRand s = eraseOrphan leaf s) ∧
    s.mapOrphanBlocksByPrev.length ≤ env.nMaxOrphanBlocks + 1 ∧
    (∀ it ∈ s.mapOrphanBlocksByPrev, ∃ n leaf,
      s.mapOrphanBlocksByPrev.find? (·.1 == leaf.2.hashBlock) = none ∧
      ∀ k, n ≤ k → lastDependent s.mapOrphanBlocksByPrev k it = leaf) ∧
    ∀ hash, ∃ n root, ∀ k, n ≤ k → getOrphanRoot k hash s = some root := by
  have hi := h.inv hrank
  refine ⟨⟨fun e => hi.mem_iff, fun hash o hget => ((hi.stored hash o).mp hget).2,
    List.Nodup.of_map _ hi.nodup⟩, fun insecureRand => ?_, hi.size, fun it hit => ?_,
    hi.toOrphanInv.getOrphanRoot⟩
  · rcases hi.pruneOrphanBlocks_cases env insecureRand with ⟨-, heq⟩ | ⟨-, leaf, hleaf, hno, heq⟩
    · exact Or.inl heq
    · exact Or.inr ⟨leaf, hleaf, hno, heq⟩
  · obtain ⟨leaf, -, hnone, hwalk⟩ := hi.toOrphanInv.lastDependent hit le_rfl
    exact ⟨_, leaf, hnone, hwalk⟩

/-- The second of the two sample blocks, before the first. -/
theorem orphanBlocks_of_sample : ∃ s,
    OrphanReach nonceHash sampleEnv {sampleBlock 2 3 2} s ∧
    s.mapOrphanBlocksByPrev.map (fun e => e.2.hashBlock) = [3] ∧
    ∃ n root, ∀ k, n ≤ k → getOrphanRoot k 3 s = some root := by
  obtain ⟨p, hp, horphans⟩ := Option.map_eq_some_iff.mp
    (show ((processBlock nonceHash sampleEnv 1 (sampleArrival (sampleBlock 2 3 2))
      (NodeState.start sampleEnv sampleGenesis)).toOption.map
        fun p => p.2.mapOrphanBlocksByPrev.map fun e => e.2.hashBlock) = some [3] by decide +kernel)
  have hreach : OrphanReach nonceHash sampleEnv {sampleBlock 2 3 2} p.2 :=
    .processBlock (.start rfl rfl) (Set.mem_singleton _) (Machine.eq_ok_of_toOption hp)
  have hrank : ∀ block ∈ ({sampleBlock 2 3 2} : Set CBlock),
      block.hashPrevBlock.toNat < (block.getHash nonceHash).toNat := by
    rintro block rfl
    decide
  exact ⟨p.2, hreach, horphans, (orphanBlocks_of_reach hrank hreach).2.2.2.2 3⟩

end Ticoin
