import Ticoin.ActivateBestChain

/-!
# Restarting a node : the active tip after LoadBlockIndexDB

Of a chain state only the block index entries, some status flags and the hash of the active
tip are on disk. `LoadBlockIndexDB` makes new entries of those written, at addresses of its
own and all with sequence number 0 (`CBlockIndex.reload`), makes candidates of those that
were not written as failed, and sets the active tip; the most-work chain starts empty.

The tree of the new entries is that of the old ones (`BlockTree.reload`), and the state loaded
keeps the invariants of a state of a run (`inv_loadBlockIndexDB`,
`sound_loadBlockIndexDB`). So the next call of `ActivateBestChain` leaves the best of the
valid blocks, by the order of the new entries. This order has no memory of which
block came first : of several valid blocks with the most work the one that got the least
address becomes the tip (`restart_tip`), be it the tip of before or not
(`restart_other_tip`).
-/

namespace Ticoin

/-! ## The entries loaded -/

namespace CBlockIndex

variable {addr : CBlockIndex → ℕ}

/-- The entry `LoadBlockIndexGuts` makes of one that was written, with the entries below. The
addresses are those of the new objects. -/
def reload (addr : CBlockIndex → ℕ) : CBlockIndex → CBlockIndex
  | root e => root { e with address := addr (root e), nSequenceId := 0 }
  | child p e => child (p.reload addr) { e with address := addr (child p e), nSequenceId := 0 }

theorem entry_reload (b : CBlockIndex) :
    (b.reload addr).entry = { b.entry with address := addr b, nSequenceId := 0 } := by
  cases b <;> rfl

theorem path_reload : ∀ b : CBlockIndex, (b.reload addr).path = b.path.map (reload addr)
  | root _ => rfl
  | child p e => by
    rw [reload, path, path_reload p, path, List.map_append]
    rfl

theorem nChainWork_reload : ∀ b : CBlockIndex, (b.reload addr).nChainWork = b.nChainWork
  | root _ => rfl
  | child p e => by
    rw [reload, nChainWork, nChainWork_reload p, nChainWork]
    rfl

theorem genesis_reload : ∀ b : CBlockIndex, (b.reload addr).genesis = b.genesis.reload addr
  | root _ => rfl
  | child p _ => genesis_reload p

/-- Among new entries of the same work the one of less address is better. -/
theorem workLess_reload {a b : CBlockIndex} (h : a.nChainWork = b.nChainWork) :
    workLess (a.reload addr) (b.reload addr) = true ↔ addr b < addr a := by
  simp only [workLess, nChainWork_reload, entry_reload, h, gt_iff_lt, BitVec.lt_irrefl,
    UInt32.lt_irrefl, if_false]
  split_ifs <;> simp <;> omega

end CBlockIndex

/-- New entries are made at addresses of their own. -/
def BlockTree.Placed (T : BlockTree) (addr : CBlockIndex → ℕ) : Prop :=
  ∀ a ∈ T, ∀ b ∈ T, addr a = addr b → a = b

/-- No two blocks have the same hash : `AddToBlockIndex` refuses a duplicate. -/
def BlockTree.Hashed (T : BlockTree) : Prop :=
  ∀ a ∈ T, ∀ b ∈ T, a.entry.phashBlock = b.entry.phashBlock → a = b

/-- The tree of the new entries. -/
def BlockTree.reload (T : BlockTree) (addr : CBlockIndex → ℕ) (h : T.Placed addr) :
    BlockTree where
  nodes := T.nodes.map (CBlockIndex.reload addr)
  closed := by
    intro b hb a ha
    obtain ⟨b, hbT, rfl⟩ := List.mem_map.mp hb
    rw [CBlockIndex.path_reload] at ha
    obtain ⟨c, hc, rfl⟩ := List.mem_map.mp ha
    exact List.mem_map_of_mem (T.closed b hbT c hc)
  rank_inj := by
    intro a ha b hb heq
    obtain ⟨a, haT, rfl⟩ := List.mem_map.mp ha
    obtain ⟨b, hbT, rfl⟩ := List.mem_map.mp hb
    simp only [rank, CBlockIndex.entry_reload, EmbeddingLike.apply_eq_iff_eq, Prod.mk.injEq] at heq
    rw [h a haT b hbT heq.2.2]
  genesis_eq := by
    intro a ha b hb
    obtain ⟨a, haT, rfl⟩ := List.mem_map.mp ha
    obtain ⟨b, hbT, rfl⟩ := List.mem_map.mp hb
    rw [CBlockIndex.genesis_reload, CBlockIndex.genesis_reload, T.genesis_eq a haT b hbT]

/-- Blocks whose new entries are the same are the same. -/
theorem BlockTree.Placed.reload_inj {T : BlockTree} {addr : CBlockIndex → ℕ} {a b : CBlockIndex}
    (h : T.Placed addr) (ha : a ∈ T) (hb : b ∈ T) (heq : a.reload addr = b.reload addr) :
    a = b := by
  have haddr := congrArg (fun c : CBlockIndex => c.entry.address) heq
  simp only [CBlockIndex.entry_reload] at haddr
  exact h a ha b hb haddr

theorem BlockTree.mem_reload {T : BlockTree} {addr : CBlockIndex → ℕ} {h : T.Placed addr}
    {b : CBlockIndex} : b ∈ T.reload addr h ↔ ∃ a ∈ T, a.reload addr = b := List.mem_map

/-! ## LoadBlockIndexDB -/

/-- What is on disk : an entry with the status last written for each block, and the best
block of the coin database. -/
structure StoredChain where
  records : List (CBlockIndex × BlockStatus)
  hashBestChain : UInt256
  deriving DecidableEq, Repr

namespace ChainState

/-- `LoadBlockIndexGuts` : the new entries, with the status read. -/
def loadBlockIndexGuts (addr : CBlockIndex → ℕ) (db : StoredChain) :
    List (CBlockIndex × BlockStatus) :=
  db.records.map fun r => (r.1.reload addr, r.2)

/-- The order of `vSortedByHeight` : by height, then by address. -/
def heightLe (pa pb : CBlockIndex) : Bool :=
  pa.nHeight < pb.nHeight || pa.nHeight == pb.nHeight && pa.entry.address ≤ pb.entry.address

/-- A turn of the loop over `vSortedByHeight` : the entry becomes a candidate, or the best of
the invalid ones. -/
def loadBlock (s : ChainState) (pindex : CBlockIndex) : ChainState :=
  let s := if s.failed pindex then s else s.insertValid pindex
  if s.failed pindex then s.noteBestInvalid pindex else s

/-- `vSortedByHeight`, after the sort. -/
def vSortedByHeight (addr : CBlockIndex → ℕ) (db : StoredChain) : List CBlockIndex :=
  ((loadBlockIndexGuts addr db).map Prod.fst).insertionSort fun a b => heightLe a b

/-- The status read of an entry. -/
def readStatus (addr : CBlockIndex → ℕ) (db : StoredChain) (pindex : CBlockIndex) : BlockStatus :=
  ((loadBlockIndexGuts addr db).lookup pindex).getD ⟨false, false⟩

/-- The first part of `LoadBlockIndexDB`, from the state before the first block. -/
def loadBlocks (addr : CBlockIndex → ℕ) (db : StoredChain) : ChainState :=
  (vSortedByHeight addr db).foldl loadBlock { init with nStatus := readStatus addr db }

/-- `LoadBlockIndexDB`, which ends with the pointer to the end of the best chain. -/
def loadBlockIndexDB (addr : CBlockIndex → ℕ) (db : StoredChain) : ChainState :=
  match (vSortedByHeight addr db).find? (fun b =>
      b.entry.phashBlock == some db.hashBestChain) with
  | none => loadBlocks addr db
  | some it => (loadBlocks addr db).setActive (some it)

/-- What a node writes out : each entry of its tree, a status that is failed only if the one
in memory is, since not every mark is written, and the hash of the active tip. -/
structure Written (T : BlockTree) (s : ChainState) (db : StoredChain) : Prop where
  mem : ∀ b ∈ T, ∃ st, (b, st) ∈ db.records
  status : ∀ b st, (b, st) ∈ db.records → b ∈ T ∧ (st.failed = true → s.failed b = true)
  best : ∀ t, s.chainActive.tip = some t → t.entry.phashBlock = some db.hashBestChain

section Load

variable {env env' : BlockEnv} {T : BlockTree} {s : ChainState} {db : StoredChain}
  {addr : CBlockIndex → ℕ} {b t : CBlockIndex}

theorem Written.mem_vSortedByHeight (hw : Written T s db) :
    b ∈ vSortedByHeight addr db ↔ ∃ a ∈ T, a.reload addr = b := by
  simp only [vSortedByHeight, List.mem_insertionSort, loadBlockIndexGuts, List.mem_map]
  constructor
  · rintro ⟨-, ⟨⟨a, st⟩, hr, rfl⟩, rfl⟩
    exact ⟨a, (hw.status a st hr).1, rfl⟩
  · rintro ⟨a, ha, rfl⟩
    obtain ⟨st, hr⟩ := hw.mem a ha
    exact ⟨_, ⟨(a, st), hr, rfl⟩, rfl⟩

/-- A status read as failed is of a block whose status in memory was. -/
theorem Written.of_failed (hw : Written T s db)
    (hf : (readStatus addr db b).failed = true) :
    ∃ a ∈ T, s.failed a = true ∧ a.reload addr = b := by
  rw [readStatus] at hf
  cases hl : (loadBlockIndexGuts addr db).lookup b with
  | none =>
    rw [hl] at hf
    cases hf
  | some st =>
    rw [hl] at hf
    obtain ⟨l₁, l₂, hsplit, -⟩ := List.lookup_eq_some_iff.mp hl
    have hmem : (b, st) ∈ loadBlockIndexGuts addr db := by
      rw [hsplit]
      exact List.mem_append_right _ List.mem_cons_self
    obtain ⟨⟨a, st'⟩, hr, heq⟩ := List.mem_map.mp hmem
    obtain ⟨rfl, rfl⟩ := Prod.mk.inj heq
    exact ⟨a, (hw.status a st' hr).1, (hw.status a st' hr).2 hf, rfl⟩

/-- An entry of a tree becomes a candidate. -/
theorem insertValid_eq (T : BlockTree) (hs : ∀ a ∈ s.setBlockIndexValid, a ∈ T) (hb : b ∈ T) :
    ∃ V, s.insertValid b = { s with setBlockIndexValid := V } ∧
      ∀ a, a ∈ V ↔ a ∈ s.setBlockIndexValid ∨ a = b := by
  rw [insertValid]
  split
  · rename_i h
    obtain ⟨c, hc, heq⟩ := List.any_eq_true.mp h
    have hbc := T.rank_inj b hb c (hs c hc) ((equivalent_iff b c).mp heq)
    refine ⟨s.setBlockIndexValid, rfl, fun a => ⟨.inl, ?_⟩⟩
    rintro (ha | rfl)
    · exact ha
    · exact hbc ▸ hc
  · exact ⟨_, rfl, fun a => List.mem_cons.trans or_comm⟩

/-- What the loop over the entries does : those not failed become candidates. -/
theorem foldl_loadBlock (T : BlockTree) : ∀ (l : List CBlockIndex) (s : ChainState),
    (∀ b ∈ l, b ∈ T) → (∀ b ∈ s.setBlockIndexValid, b ∈ T) →
    ∃ V o, l.foldl loadBlock s = { s with setBlockIndexValid := V, pindexBestInvalid := o } ∧
      ∀ b, b ∈ V ↔ b ∈ s.setBlockIndexValid ∨ b ∈ l ∧ s.failed b = false
  | [], s, _, _ => ⟨s.setBlockIndexValid, s.pindexBestInvalid, rfl, by simp⟩
  | p :: l, s, hl, hs => by
    obtain ⟨V, o, hstep, hV⟩ : ∃ V o, loadBlock s p =
        { s with setBlockIndexValid := V, pindexBestInvalid := o } ∧
        ∀ b, b ∈ V ↔ b ∈ s.setBlockIndexValid ∨ b = p ∧ s.failed b = false := by
      cases hf : s.failed p with
      | true =>
        obtain ⟨o, ho⟩ := noteBestInvalid_eq s p
        refine ⟨s.setBlockIndexValid, o, ?_, fun b => ?_⟩
        · simp only [loadBlock, hf, if_true, ho]
        · refine ⟨.inl, fun h => h.resolve_right ?_⟩
          rintro ⟨rfl, hb⟩
          exact absurd (hf.symm.trans hb) Bool.noConfusion
      | false =>
        obtain ⟨V, hins, hV⟩ := insertValid_eq T hs (hl p List.mem_cons_self)
        refine ⟨V, s.pindexBestInvalid, ?_, fun b => ?_⟩
        · have hf' : (s.insertValid p).failed p = false := by rw [hins]; exact hf
          simp only [loadBlock, hf, if_false, hf', Bool.false_eq_true]
          exact hins
        · rw [hV b]
          refine or_congr_right ⟨?_, And.left⟩
          rintro rfl
          exact ⟨rfl, hf⟩
    obtain ⟨V', o', hrest, hV'⟩ := foldl_loadBlock T l (loadBlock s p)
      (fun b hb => hl b (List.mem_cons_of_mem _ hb)) (by
        rw [hstep]
        intro b hb
        rcases (hV b).mp hb with hb | ⟨rfl, -⟩
        · exact hs b hb
        · exact hl b List.mem_cons_self)
    rw [hstep] at hrest hV'
    refine ⟨V', o', by rw [List.foldl_cons, hstep, hrest], fun b => ?_⟩
    rw [hV' b]
    show b ∈ V ∨ b ∈ l ∧ s.failed b = false ↔ _
    rw [hV b, List.mem_cons, or_and_right, or_assoc]

/-- The state loaded keeps the invariant of the states of a run, on the tree of the new
entries. -/
theorem inv_loadBlocks (hw : Written T s db) (h : T.Placed addr) :
    (loadBlocks addr db).Inv (T.reload addr h) ∧
      (loadBlocks addr db).nStatus = readStatus addr db := by
  obtain ⟨V, o, hfold, hV⟩ := foldl_loadBlock (T.reload addr h) (vSortedByHeight addr db)
    { init with nStatus := readStatus addr db }
    (fun b hb => BlockTree.mem_reload.mpr (hw.mem_vSortedByHeight.mp hb))
    (fun b hb => absurd hb List.not_mem_nil)
  rw [loadBlocks, hfold]
  refine ⟨⟨fun b => (hV b).trans ?_, rfl, nofun, rfl, nofun⟩, rfl⟩
  rw [hw.mem_vSortedByHeight, ← BlockTree.mem_reload (h := h)]
  exact or_iff_right List.not_mem_nil

/-- The entry of the best block is found. -/
theorem find?_best (hw : Written T s db) (hhash : T.Hashed) (ht : s.chainActive.tip = some t)
    (htT : t ∈ T) : (vSortedByHeight addr db).find? (fun b =>
      b.entry.phashBlock == some db.hashBestChain) = some (t.reload addr) := by
  cases hfind : (vSortedByHeight addr db).find? (fun b =>
      b.entry.phashBlock == some db.hashBestChain) with
  | none =>
    have hne := List.find?_eq_none.mp hfind (t.reload addr) (hw.mem_vSortedByHeight.mpr ⟨t, htT, rfl⟩)
    rw [CBlockIndex.entry_reload] at hne
    exact absurd (beq_iff_eq.mpr (hw.best t ht)) hne
  | some b =>
    obtain ⟨a, ha, rfl⟩ := hw.mem_vSortedByHeight.mp (List.mem_of_find?_eq_some hfind)
    have hb := List.find?_some hfind
    rw [beq_iff_eq, CBlockIndex.entry_reload] at hb
    rw [hhash a ha t htT (hb.trans (hw.best t ht).symm)]

theorem loadBlockIndexDB_eq (hw : Written T s db) (hhash : T.Hashed)
    (ht : s.chainActive.tip = some t) (htT : t ∈ T) :
    loadBlockIndexDB addr db = (loadBlocks addr db).setActive (some (t.reload addr)) := by
  rw [loadBlockIndexDB, find?_best hw hhash ht htT]

/-! ## The tip after a restart -/

/-- A block of the tree on a chain of valid blocks. -/
structure OnValid (T : BlockTree) (valid : CBlockIndex → Bool) (b : CBlockIndex) : Prop where
  mem : b ∈ T
  path : ∀ a ∈ b.path, valid a = true

theorem OnValid.reload {valid valid' : CBlockIndex → Bool} (h : T.Placed addr)
    (hvalid : ∀ b ∈ T, valid' (b.reload addr) = valid b) :
    OnValid (T.reload addr h) valid' (b.reload addr) ∧ b ∈ T ↔ OnValid T valid b := by
  constructor
  · rintro ⟨hb, hbT⟩
    refine ⟨hbT, fun a ha => ?_⟩
    rw [← hvalid a (T.closed b hbT a ha)]
    exact hb.path _ (CBlockIndex.path_reload b ▸ List.mem_map_of_mem ha)
  · intro hb
    refine ⟨⟨BlockTree.mem_reload.mpr ⟨b, hb.mem, rfl⟩, fun a ha => ?_⟩, hb.mem⟩
    rw [CBlockIndex.path_reload] at ha
    obtain ⟨c, hc, rfl⟩ := List.mem_map.mp ha
    rw [hvalid c (T.closed b hb.mem c hc)]
    exact hb.path c hc

/-- If the verdicts are as before, the state loaded is sound. -/
theorem sound_loadBlockIndexDB {valid valid' : CBlockIndex → Bool} (hw : Written T s db)
    (h : T.Placed addr) (hs : s.Sound (verdictOf valid))
    (hvalid : ∀ b ∈ T, valid' (b.reload addr) = valid b) (ht : s.chainActive.tip = some t)
    (htT : t ∈ T) :
    ((loadBlocks addr db).setActive (some (t.reload addr))).Sound (verdictOf valid') := by
  obtain ⟨hinv, hst⟩ := inv_loadBlocks hw h
  refine ⟨fun b hb => ?_, fun t' ht' => ?_⟩
  · have hb' : (readStatus addr db b).failed = true := by rw [← hst]; exact hb
    obtain ⟨a, ha, haf, rfl⟩ := hw.of_failed hb'
    refine (fate_verdictOf_cases _).resolve_left fun hok => ?_
    have hpath := ((OnValid.reload h hvalid).mp
      ⟨⟨BlockTree.mem_reload.mpr ⟨a, ha, rfl⟩, fate_verdictOf.mp hok⟩, ha⟩).path
    have hrej := hs.failed a haf
    rw [fate_verdictOf.mpr hpath] at hrej
    cases hrej
  · rw [hinv.tip_setActive] at ht'
    cases ht'
    exact fate_verdictOf.mpr
      ((OnValid.reload h hvalid).mpr ⟨htT, fate_verdictOf.mp (hs.active t ht)⟩).1.path

/-- From a state of a run whose active tip has the most work of the blocks on valid chains,
the index is written and loaded again, at any addresses, by a node with the same verdicts.
Then the next call of `ActivateBestChain` leaves a tip on a valid chain of the same work. It
is the tip of before exactly if no other such block got a lesser address. -/
theorem restart_tip {valid valid' : CBlockIndex → Bool} (hreach : Reach env T s)
    (hv : ValidityVerdicts env valid) (ht : s.chainActive.tip = some t)
    (hmost : ∀ b, OnValid T valid b → b.nChainWork ≤ t.nChainWork) (hhash : T.Hashed)
    (hw : Written T s db) (haddr : T.Placed addr) (hv' : ValidityVerdicts env' valid')
    (hvalid : ∀ b ∈ T, valid' (b.reload addr) = valid b) :
    ∃ fuel s' g, (loadBlockIndexDB addr db).activateBestChain env' fuel = .ok (true, s') ∧
      s'.chainActive.tip = some (g.reload addr) ∧ OnValid T valid g ∧
      g.nChainWork = t.nChainWork ∧ (s'.chainActive.tip = some (t.reload addr) ↔
        ∀ b, OnValid T valid b → b.nChainWork = t.nChainWork → addr t ≤ addr b) := by
  have hs := hreach.sound hv.fixed
  have htT := hreach.inv.active_mem t ht
  have htv : OnValid T valid t := ⟨htT, fate_verdictOf.mp (hs.active t ht)⟩
  obtain ⟨hinv, -⟩ := inv_loadBlocks hw haddr
  have hmem : ∀ b, OnValid T valid b → OnValid (T.reload addr haddr) valid' (b.reload addr) :=
    fun b hb => ((OnValid.reload haddr hvalid).mpr hb).1
  obtain ⟨fuel, s', hcall, -, hbest⟩ := (hinv.setActive (t := some (t.reload addr)) (by
    rintro b ⟨⟩
    exact (hmem t htv).mem)).activate_bestValid hv' (sound_loadBlockIndexDB hw haddr hs hvalid ht htT)
  obtain ⟨g', htip, hg', hgpath, hless⟩ := hbest (List.ne_nil_of_mem (hmem t htv).mem)
  obtain ⟨g, hgT, rfl⟩ := BlockTree.mem_reload.mp hg'
  have hg : OnValid T valid g := (OnValid.reload haddr hvalid).mp ⟨⟨hg', hgpath⟩, hgT⟩
  -- the best new entry is of the same work, since the tip of before is on a valid chain too
  have hwork : g.nChainWork = t.nChainWork := by
    refine BitVec.le_antisymm (hmost g hg) ?_
    by_cases heq : t.reload addr = g.reload addr
    · rw [haddr.reload_inj htT hgT heq]
      exact BitVec.le_refl _
    · have hlt := hless _ (hmem t htv).mem (hmem t htv).path heq
      by_contra hgt
      rw [workLess, if_pos (by
        rw [CBlockIndex.nChainWork_reload, CBlockIndex.nChainWork_reload]
        exact BitVec.not_le.mp hgt)] at hlt
      cases hlt
  -- and of the least address among those of this work
  have hleast : ∀ b, OnValid T valid b → b.nChainWork = t.nChainWork → b ≠ g → addr g < addr b := by
    intro b hb hbw hbg
    exact (CBlockIndex.workLess_reload (hbw.trans hwork.symm)).mp
      (hless _ (hmem b hb).mem (hmem b hb).path fun heq => hbg (haddr.reload_inj hb.mem hgT heq))
  refine ⟨fuel, s', g, ?_, htip, hg, hwork, ?_⟩
  · rw [loadBlockIndexDB_eq hw hhash ht htT]
    exact hcall
  · rw [htip]
    constructor
    · intro heq b hb hbw
      have hgt : g = t := haddr.reload_inj hgT htT (Option.some.inj heq)
      by_cases hbg : b = g
      · rw [hbg, hgt]
      · exact hgt ▸ (hleast b hb hbw hbg).le
    · intro hle
      by_contra hne
      have htg : t ≠ g := fun heq => hne (by rw [heq])
      exact absurd (hle g hg hwork) (Nat.not_le.mpr (hleast t htv rfl htg))

end Load

/-! ### A fork of two blocks of the same work -/

/-- A second block on the genesis. -/
def sampleSibling : CBlockIndex := .child sampleGenesis (sampleEntry 2)

/-- Every block is valid. -/
def validEnv : BlockEnv := ⟨fun _ _ => .ok, fun _ _ => true⟩

theorem validityVerdicts_validEnv : ValidityVerdicts validEnv fun _ => true :=
  ⟨fun _ => rfl, fun _ _ => rfl, fun _ _ _ => rfl⟩

/-- The state with the first block connected, and the second one inserted. -/
def forkState : ChainState :=
  ({ genesisConnected.insertBlock sampleChild with
    chainActive := ⟨[some sampleGenesis, some sampleChild]⟩
    chainMostWork := ⟨[some sampleGenesis, some sampleChild]⟩
    nAttempts := 2 }).insertBlock sampleSibling

theorem fresh_sampleSibling : sampleTree.Fresh sampleSibling where
  address_ne a ha := by
    rcases List.mem_cons.mp ha with rfl | ha
    · decide
    · rw [List.mem_singleton.mp ha]
      decide
  pprev_mem p hp := by
    cases hp
    exact List.mem_cons_of_mem _ List.mem_cons_self
  root := nofun

/-- The tree of the three blocks. -/
def forkTree : BlockTree := sampleTree.insert sampleSibling fresh_sampleSibling

theorem reach_forkState : Reach validEnv forkTree forkState :=
  .insert (.activate (reach_sample validEnv rfl) (show (genesisConnected.insertBlock
    sampleChild).activateBestChain validEnv 5 = .ok (true, _) from rfl)) _ fresh_sampleSibling

/-- What is written in this state. -/
def forkStored : StoredChain :=
  ⟨[(sampleGenesis, ⟨false, false⟩), (sampleChild, ⟨false, false⟩),
    (sampleSibling, ⟨false, false⟩)], 1⟩

theorem mem_forkTree {b : CBlockIndex} :
    b ∈ forkTree ↔ b ∈ [sampleSibling, sampleChild, sampleGenesis] := Iff.rfl

theorem written_forkStored : Written forkTree forkState forkStored := by
  refine ⟨?_, ?_, ?_⟩
  · intro b hb
    refine ⟨⟨false, false⟩, ?_⟩
    revert b
    simp only [mem_forkTree]
    decide
  · intro b st hb
    have hall : ∀ r ∈ forkStored.records,
        r.1 ∈ [sampleSibling, sampleChild, sampleGenesis] ∧ r.2.failed = false := by decide
    obtain ⟨hmem, hf⟩ := hall (b, st) hb
    exact ⟨hmem, fun h => absurd (hf.symm.trans h) Bool.noConfusion⟩
  · rintro t ⟨⟩
    rfl

theorem hashed_forkTree : forkTree.Hashed := by
  simp only [BlockTree.Hashed, mem_forkTree]
  decide

theorem placed_forkTree : forkTree.Placed (fun b => 10 - b.entry.address) := by
  simp only [BlockTree.Placed, mem_forkTree]
  decide

/-- The first block is a tip of the most work. -/
theorem forkState_most : forkState.chainActive.tip = some sampleChild ∧
    ∀ b, OnValid forkTree (fun _ => true) b → b.nChainWork ≤ sampleChild.nChainWork := by
  refine ⟨rfl, fun b hb => ?_⟩
  have hall : ∀ b ∈ [sampleSibling, sampleChild, sampleGenesis],
      b.nChainWork ≤ sampleChild.nChainWork := by decide
  exact hall b hb.mem

/-- The first block is the tip, of the most work. If the new entry of the second one gets a
lesser address, then after a restart the second one is. -/
theorem restart_other_tip :
    Reach validEnv forkTree forkState ∧ ValidityVerdicts validEnv (fun _ => true) ∧
    forkState.chainActive.tip = some sampleChild ∧
    (∀ b, OnValid forkTree (fun _ => true) b → b.nChainWork ≤ sampleChild.nChainWork) ∧
    Written forkTree forkState forkStored ∧ forkTree.Hashed ∧
    forkTree.Placed (fun b => 10 - b.entry.address) ∧
    ∃ s', (loadBlockIndexDB (fun b => 10 - b.entry.address) forkStored).activateBestChain
        validEnv 10 = .ok (true, s') ∧
      s'.chainActive.tip = some (sampleSibling.reload fun b => 10 - b.entry.address) ∧
      s'.chainActive.tip ≠ some (sampleChild.reload fun b => 10 - b.entry.address) := by
  refine ⟨reach_forkState, validityVerdicts_validEnv, forkState_most.1, forkState_most.2,
    written_forkStored, hashed_forkTree, placed_forkTree, ?_⟩
  obtain ⟨⟨r, s'⟩, hcall, htip⟩ := Option.map_eq_some_iff.mp (show
    ((loadBlockIndexDB (fun b => 10 - b.entry.address) forkStored).activateBestChain
      validEnv 10).toOption.map (fun r => (r.1, r.2.chainActive.tip)) =
    some (true, some (sampleSibling.reload fun b => 10 - b.entry.address)) by decide)
  obtain ⟨rfl, htip⟩ := Prod.mk.inj htip
  refine ⟨s', Machine.eq_ok_of_toOption hcall, htip, ?_⟩
  dsimp only at htip
  rw [htip]
  decide

/-- If the new entries keep their addresses the first block stays the tip. -/
theorem restart_same_tip : ∃ fuel s' g,
    (loadBlockIndexDB (fun b => b.entry.address) forkStored).activateBestChain validEnv fuel =
      .ok (true, s') ∧
    s'.chainActive.tip = some (g.reload fun b => b.entry.address) ∧
    OnValid forkTree (fun _ => true) g ∧ g.nChainWork = sampleChild.nChainWork ∧
    (s'.chainActive.tip = some (sampleChild.reload fun b => b.entry.address) ↔
      ∀ b, OnValid forkTree (fun _ => true) b → b.nChainWork = sampleChild.nChainWork →
        sampleChild.entry.address ≤ b.entry.address) :=
  restart_tip reach_forkState validityVerdicts_validEnv forkState_most.1 forkState_most.2
    hashed_forkTree written_forkStored (by
      simp only [BlockTree.Placed, mem_forkTree]
      decide) validityVerdicts_validEnv fun _ _ => rfl

end ChainState

end Ticoin
