import Ticoin.ActivateBestChain

/-!
# CChain : forks and locators

`SetTip` returns the entry at which it stops rewriting. On the path of the old tip that is the
highest ancestor which the new tip has in common with it (`setTips_path`), after any calls.

`GetLocator` lists ancestors of a block, each so much lower than the one before as the step says,
which doubles after the first ten (`locatorBlocks_spec`). The walk leaves a branch by `pprev` and goes
on by heights where it meets the chain : both come to the ancestor at the height wanted
(`IsPath.stepBack_eq`). The first listed block that another chain has is then the highest one
(`getLocator_findFork`).
-/

namespace Ticoin

theorem CBlockIndex.genesis_of_mem_path {a : CBlockIndex} : ∀ {b : CBlockIndex}, a ∈ b.path →
    a.genesis = b.genesis
  | .root e, h => by rw [List.mem_singleton.mp h]
  | .child p e, h => by
    rcases mem_path_child.mp h with h | rfl
    · exact genesis_of_mem_path (b := p) h
    · rfl

namespace CChain

open ChainState (sampleGenesis sampleChild sampleTree)

/-! ## The fork of two tips -/

/-- `f` is the highest common ancestor : every common ancestor is one of it. -/
def IsFork (a b f : CBlockIndex) : Prop :=
  f ∈ a.path ∧ f ∈ b.path ∧ ∀ x ∈ a.path, x ∈ b.path → x ∈ f.path

/-- The loop stops at the highest entry that is in its place. -/
theorem writeDown_snd {old : CBlockIndex} : ∀ (p : CBlockIndex) (v : List (Option CBlockIndex)),
    (∀ a ∈ p.path, v[a.nHeight]? = some (some a) ↔ a ∈ old.path) → p.genesis = old.genesis →
    ∃ f, (writeDown p v).2 = some f ∧ IsFork old p f
  | .root e, v, hv, hgenesis => by
    have hmem : CBlockIndex.root e ∈ old.path := by
      rw [show CBlockIndex.root e = old.genesis from hgenesis]
      exact old.genesis_mem_path
    have hget : v[0]? = some (some (.root e)) := (hv _ (CBlockIndex.mem_path_self _)).mpr hmem
    rw [writeDown, if_pos hget]
    exact ⟨_, rfl, hmem, CBlockIndex.mem_path_self _, fun _ _ hx => hx⟩
  | .child p e, v, hv, hgenesis => by
    rw [writeDown]
    split
    · rename_i hget
      have hmem := (hv _ (CBlockIndex.mem_path_self _)).mp hget
      exact ⟨_, rfl, hmem, CBlockIndex.mem_path_self _, fun _ _ hx => hx⟩
    · rename_i hget
      have hnot : CBlockIndex.child p e ∉ old.path := fun hmem =>
        hget ((hv _ (CBlockIndex.mem_path_self _)).mpr hmem)
      have hset : ∀ a ∈ p.path, (v.set (p.nHeight + 1) (some (.child p e)))[a.nHeight]? =
          some (some a) ↔ a ∈ old.path := fun a ha => by
        have hle := CBlockIndex.nHeight_le_of_mem ha
        rw [List.getElem?_set_ne (by omega)]
        exact hv a (CBlockIndex.mem_path_child.mpr (.inl ha))
      obtain ⟨f, hf, hold, hp, hhigh⟩ := writeDown_snd p _ hset hgenesis
      refine ⟨f, hf, hold, CBlockIndex.mem_path_child.mpr (.inl hp), fun x hx hxp => ?_⟩
      rcases CBlockIndex.mem_path_child.mp hxp with hxp | rfl
      · exact hhigh x hx hxp
      · exact absurd hx hnot

/-- Nothing is in its place in an empty vector. -/
theorem writeDown_snd_none : ∀ (p : CBlockIndex) (v : List (Option CBlockIndex)),
    (∀ a ∈ p.path, v[a.nHeight]? ≠ some (some a)) → (writeDown p v).2 = none
  | .root e, v, hv => by
    have hget : ¬v[0]? = some (some (.root e)) := hv _ (CBlockIndex.mem_path_self _)
    rw [writeDown, if_neg hget]
  | .child p e, v, hv => by
    have hget : ¬v[p.nHeight + 1]? = some (some (.child p e)) := hv _ (CBlockIndex.mem_path_self _)
    rw [writeDown, if_neg hget]
    refine writeDown_snd_none p _ fun a ha => ?_
    have hle := CBlockIndex.nHeight_le_of_mem ha
    rw [List.getElem?_set_ne (by omega)]
    exact hv a (CBlockIndex.mem_path_child.mpr (.inl ha))

/-- What `resize` keeps of the path of the old tip. -/
theorem getElem?_resize {t : Option CBlockIndex} {n : ℕ} {a : CBlockIndex} (h : a.nHeight < n) :
    (resize (pathOf t) n)[a.nHeight]? = some (some a) ↔ ∃ old, t = some old ∧ a ∈ old.path := by
  have hget : (pathOf t)[a.nHeight]? = some (some a) ↔ ∃ old, t = some old ∧ a ∈ old.path := by
    cases t with
    | none => simp [pathOf]
    | some old =>
      rw [pathOf, List.getElem?_map, Option.map_eq_some_iff]
      simp only [Option.some.injEq, exists_eq_right, exists_eq_left']
      rw [CBlockIndex.getElem?_path, and_iff_left rfl]
  rw [← hget, resize]
  rcases Nat.lt_or_ge a.nHeight (pathOf t).length with hlt | hge
  · rw [List.getElem?_append_left (by rw [List.length_take]; omega),
      List.getElem?_take_of_lt h]
  · rw [List.getElem?_append_right (by rw [List.length_take]; omega), List.getElem?_replicate,
      List.getElem?_eq_none hge]
    exact iff_of_false (by split <;> simp) (by simp)

/-- The chain after calls of `SetTip`. -/
def setTips (calls : List (Option CBlockIndex)) : CChain :=
  calls.foldl (fun c t => (c.setTip t).1) ⟨[]⟩

theorem setTips_concat (calls : List (Option CBlockIndex)) (t : Option CBlockIndex) :
    setTips (calls ++ [t]) = ((setTips calls).setTip t).1 := by
  rw [setTips, List.foldl_concat]
  rfl

/-- The tip after the calls is that of the last one. -/
theorem setTips_isPath (calls : List (Option CBlockIndex)) :
    (setTips calls).IsPath calls.getLast?.join := by
  induction calls using List.reverseRecOn with
  | nil => rfl
  | append_singleton calls t ih =>
    rw [setTips_concat, List.getLast?_concat]
    exact setTip_isPath ih t

/-- `SetTip` returns the fork of the old tip and the new one. -/
theorem IsPath.setTip_snd {c : CChain} {old new : CBlockIndex} (h : c.IsPath (some old))
    (hgenesis : new.genesis = old.genesis) :
    ∃ f, (c.setTip (some new)).2 = some f ∧ IsFork old new f := by
  rw [setTip, h]
  refine writeDown_snd new _ (fun a ha => ?_) hgenesis
  have hle := CBlockIndex.nHeight_le_of_mem ha
  rw [getElem?_resize (by omega)]
  simp

theorem IsPath.setTip_snd_none {c : CChain} (h : c.IsPath none) (t : Option CBlockIndex) :
    (c.setTip t).2 = none := by
  cases t with
  | none => rfl
  | some new =>
    rw [setTip, h]
    refine writeDown_snd_none new _ fun a ha hget => ?_
    have hle := CBlockIndex.nHeight_le_of_mem ha
    obtain ⟨old, hold, -⟩ := (getElem?_resize (by omega)).mp hget
    cases hold

/-- After any calls with blocks of one tree the chain is the path of the last tip, by height, and the
last call returned the highest common ancestor of the tip before and the tip, if there are two. -/
theorem setTips_path (T : BlockTree) (calls : List (Option CBlockIndex)) (t : Option CBlockIndex)
    (hcalls : ∀ b, some b ∈ calls ++ [t] → b ∈ T) :
    (setTips (calls ++ [t])).vChain = pathOf t ∧
    (∀ b nHeight, (setTips (calls ++ [t])).at? nHeight = some b ↔
      ∃ tip, t = some tip ∧ b ∈ tip.path ∧ b.nHeight = nHeight) ∧
    (∀ old new, (setTips calls).tip = some old → t = some new →
      ∃ f, ((setTips calls).setTip t).2 = some f ∧ IsFork old new f) ∧
    ((setTips calls).tip = none ∨ t = none → ((setTips calls).setTip t).2 = none) := by
  have hbefore := setTips_isPath calls
  have hafter := setTips_isPath (calls ++ [t])
  rw [List.getLast?_concat] at hafter
  refine ⟨hafter, fun b nHeight => hafter.at?_eq_some, fun old new hold hnew => ?_, fun hnone => ?_⟩
  · rw [hbefore.tip_eq] at hold
    rw [hold] at hbefore
    subst hnew
    refine hbefore.setTip_snd (T.genesis_eq new (hcalls new ?_) old (hcalls old ?_))
    · exact List.mem_append_right _ (List.mem_singleton_self _)
    · rw [Option.join_eq_some_iff] at hold
      exact List.mem_append_left _ (List.mem_of_getLast? hold)
  · rcases hnone with hnone | rfl
    · rw [hbefore.tip_eq] at hnone
      rw [hnone] at hbefore
      exact hbefore.setTip_snd_none t
    · rfl

theorem mem_sampleTree {b : CBlockIndex} : b ∈ sampleTree ↔ b ∈ [sampleChild, sampleGenesis] := Iff.rfl

theorem setTips_path_sample :
    (∀ b, some b ∈ [some sampleGenesis] ++ [some sampleChild] → b ∈ sampleTree) ∧
    (setTips ([some sampleGenesis] ++ [some sampleChild])).vChain = pathOf (some sampleChild) := by
  have hcalls : ∀ b, some b ∈ [some sampleGenesis] ++ [some sampleChild] → b ∈ sampleTree := by
    intro b hb
    rcases List.mem_cons.mp hb with hb | hb
    · cases hb
      exact mem_sampleTree.mpr (by decide)
    · cases List.mem_singleton.mp hb
      exact mem_sampleTree.mpr (by decide)
  exact ⟨hcalls, (setTips_path sampleTree _ _ hcalls).1⟩

/-! ## GetLocator and FindFork -/

/-- The loop by `pprev`, down to a height or to an entry of the chain. -/
def walkBack (c : CChain) (nHeight : ℕ) : CBlockIndex → CBlockIndex
  | .root e => .root e
  | .child p e =>
    if (CBlockIndex.child p e).nHeight > nHeight ∧ !c.contains (.child p e) then c.walkBack nHeight p
    else .child p e

/-- The next entry of a locator : an entry of the chain is left for that at the height. -/
def stepBack (c : CChain) (nStep : ℕ) (pindex : CBlockIndex) : Option CBlockIndex :=
  let nHeight := pindex.nHeight - nStep
  let pindex := c.walkBack nHeight pindex
  if pindex.nHeight > nHeight then c.at? nHeight else some pindex

/-- The loop of `GetLocator` : the entries whose hashes are listed, after so many. It is `none` where
the loop has not ended after so many rounds. -/
def locatorBlocks (c : CChain) : ℕ → ℕ → ℕ → Option CBlockIndex → Option (List CBlockIndex)
  | _, _, _, none => some []
  | 0, _, _, some _ => none
  | fuel + 1, nStep, nHave, some pindex =>
    if pindex.nHeight = 0 then some [pindex]
    else
      (c.locatorBlocks fuel (if nHave + 1 > 10 then nStep * 2 else nStep) (nHave + 1)
        (c.stepBack nStep pindex)).map (pindex :: ·)

/-- `GetLocator`, by default of the tip. -/
def getLocator (c : CChain) (fuel : ℕ) (pindex : Option CBlockIndex) : Option (List UInt256) := do
  let blocks ← c.locatorBlocks fuel 1 0 (pindex.or c.tip)
  blocks.mapM fun b => b.entry.phashBlock

/-- `FindFork` : the first block the caller has in the chain, or the genesis. -/
def findFork (mapBlockIndex : Std.ExtTreeMap UInt256 CBlockIndex) (c : CChain)
    (vHave : List UInt256) : Option CBlockIndex :=
  (vHave.findSome? fun hash =>
    mapBlockIndex[hash]?.bind fun pindex => if c.contains pindex then some pindex else none).or
    c.vChain[0]?.join

/-- The loop ends at an ancestor, above the height only in the chain. -/
theorem walkBack_spec (c : CChain) (nHeight : ℕ) : ∀ b : CBlockIndex, nHeight ≤ b.nHeight →
    c.walkBack nHeight b ∈ b.path ∧ nHeight ≤ (c.walkBack nHeight b).nHeight ∧
      ((c.walkBack nHeight b).nHeight > nHeight → c.contains (c.walkBack nHeight b) = true)
  | .root e, h => ⟨CBlockIndex.mem_path_self _, h, fun hgt => absurd hgt (Nat.not_lt_zero _)⟩
  | .child p e, h => by
    rw [walkBack]
    split
    · rename_i hwalk
      have hle : nHeight ≤ p.nHeight := Nat.lt_succ_iff.mp hwalk.1
      obtain ⟨hmem, hspec⟩ := walkBack_spec c nHeight p hle
      exact ⟨CBlockIndex.mem_path_child.mpr (.inl hmem), hspec⟩
    · rename_i hstop
      refine ⟨CBlockIndex.mem_path_self _, h, fun hgt => ?_⟩
      by_contra hcontains
      rw [Bool.not_eq_true] at hcontains
      exact hstop ⟨hgt, by rw [hcontains]; rfl⟩

/-- The walk comes to the ancestor at the height, on the chain or off it. -/
theorem IsPath.stepBack_eq {c : CChain} {t : Option CBlockIndex} (h : c.IsPath t) (nStep : ℕ)
    (b : CBlockIndex) : c.stepBack nStep b = b.path[b.nHeight - nStep]? := by
  obtain ⟨hmem, hle, hcontains⟩ := walkBack_spec c (b.nHeight - nStep) b (Nat.sub_le _ _)
  rw [stepBack]
  generalize c.walkBack (b.nHeight - nStep) b = a at hmem hle hcontains
  split
  · rename_i hgt
    obtain ⟨tip, rfl, htip⟩ := h.contains_iff.mp (hcontains hgt)
    -- the chain and the branch are the same up to the entry where the walk met the chain
    obtain ⟨x, hx⟩ : ∃ x, a.path[b.nHeight - nStep]? = some x :=
      ⟨_, List.getElem?_eq_getElem (by rw [CBlockIndex.length_path]; omega)⟩
    obtain ⟨hxa, hheight⟩ := CBlockIndex.getElem?_path.mp hx
    rw [CBlockIndex.getElem?_path.mpr ⟨CBlockIndex.mem_path_trans hxa hmem, hheight⟩]
    exact h.at?_eq_some.mpr ⟨tip, rfl, CBlockIndex.mem_path_trans hxa htip, hheight⟩
  · rename_i hgt
    exact (CBlockIndex.getElem?_path.mpr ⟨hmem, by omega⟩).symm

/-- The step after so many entries. -/
def locatorStep (nHave : ℕ) : ℕ := 2 ^ (nHave - 10)

theorem locatorStep_succ (nHave : ℕ) : locatorStep (nHave + 1) =
    if nHave + 1 > 10 then locatorStep nHave * 2 else locatorStep nHave := by
  rw [locatorStep, locatorStep]
  split
  · rw [show nHave + 1 - 10 = nHave - 10 + 1 by omega, pow_succ]
  · rw [show nHave + 1 - 10 = nHave - 10 by omega]

/-- Entries from a block down to the genesis, each an ancestor of the one before that is lower by the
step. -/
inductive Listed : ℕ → CBlockIndex → List CBlockIndex → Prop
  | last {nHave : ℕ} {b : CBlockIndex} (h : b.nHeight = 0) : Listed nHave b [b]
  | cons {nHave : ℕ} {b a : CBlockIndex} {l : List CBlockIndex} (h : b.nHeight ≠ 0)
      (hget : b.path[b.nHeight - locatorStep nHave]? = some a) (hl : Listed (nHave + 1) a l) :
      Listed nHave b (b :: l)

/-- The loop ends when there are more rounds than the height. -/
theorem IsPath.locatorBlocks_spec {c : CChain} {t : Option CBlockIndex} (h : c.IsPath t) :
    ∀ (fuel nHave : ℕ) (b : CBlockIndex), b.nHeight < fuel →
      ∃ l, c.locatorBlocks fuel (locatorStep nHave) nHave (some b) = some l ∧ Listed nHave b l
  | 0, _, _, hfuel => absurd hfuel (Nat.not_lt_zero _)
  | fuel + 1, nHave, b, hfuel => by
    rw [locatorBlocks]
    split
    · rename_i hzero
      exact ⟨_, rfl, .last hzero⟩
    · rename_i hzero
      have hpos : 0 < locatorStep nHave := Nat.two_pow_pos _
      obtain ⟨a, hget⟩ : ∃ a, b.path[b.nHeight - locatorStep nHave]? = some a :=
        ⟨_, List.getElem?_eq_getElem (by rw [CBlockIndex.length_path]; omega)⟩
      have hheight := (CBlockIndex.getElem?_path.mp hget).2
      obtain ⟨l, hl, hlisted⟩ := h.locatorBlocks_spec fuel (nHave + 1) a (by omega)
      refine ⟨b :: l, ?_, .cons hzero hget hlisted⟩
      rw [h.stepBack_eq, hget, ← locatorStep_succ, hl]
      rfl

section Listed

variable {nHave : ℕ} {b : CBlockIndex} {l : List CBlockIndex}

/-- The entries are determined by the first. -/
theorem Listed.unique (h : Listed nHave b l) : ∀ {l' : List CBlockIndex}, Listed nHave b l' →
    l = l' := by
  induction h with
  | last h =>
    intro l' h'
    cases h' with
    | last => rfl
    | cons hne => exact absurd h hne
  | cons h hget _ ih =>
    intro l' h'
    cases h' with
    | last hzero => exact absurd hzero h
    | cons _ hget' hl' =>
      rw [hget] at hget'
      cases hget'
      rw [ih hl']

theorem Listed.head? (h : Listed nHave b l) : l.head? = some b := by
  cases h <;> rfl

theorem Listed.mem_path (h : Listed nHave b l) : ∀ a ∈ l, a ∈ b.path := by
  induction h with
  | last h =>
    intro a ha
    rw [List.mem_singleton.mp ha]
    exact CBlockIndex.mem_path_self _
  | cons h hget _ ih =>
    intro x hx
    rcases List.mem_cons.mp hx with rfl | hx
    · exact CBlockIndex.mem_path_self _
    · exact CBlockIndex.mem_path_trans (ih x hx) (CBlockIndex.getElem?_path.mp hget).1

theorem Listed.getLast? (h : Listed nHave b l) : l.getLast? = some b.genesis := by
  induction h with
  | @last _ b h =>
    cases b with
    | root e => rfl
    | child p e => cases h
  | @cons _ b a l h hget hl ih =>
    have hgenesis : a.genesis = b.genesis :=
      CBlockIndex.genesis_of_mem_path (CBlockIndex.getElem?_path.mp hget).1
    rw [← hgenesis, ← ih]
    cases hl <;> rfl

/-- The heights decrease. -/
theorem Listed.pairwise (h : Listed nHave b l) : l.Pairwise fun a a' => a'.nHeight < a.nHeight := by
  induction h with
  | last h => exact List.pairwise_singleton _ _
  | @cons nHave b a l h hget hl ih =>
    have hpos : 0 < locatorStep nHave := Nat.two_pow_pos _
    have hheight := (CBlockIndex.getElem?_path.mp hget).2
    refine List.pairwise_cons.mpr ⟨fun x hx => ?_, ih⟩
    have hle := CBlockIndex.nHeight_le_of_mem (hl.mem_path x hx)
    omega

/-- Each entry is lower by the step than the one before. -/
theorem Listed.gap (h : Listed nHave b l) : ∀ (i : ℕ) (a a' : CBlockIndex), l[i]? = some a →
    l[i + 1]? = some a' → a.nHeight ≠ 0 ∧ a'.nHeight = a.nHeight - locatorStep (nHave + i) := by
  induction h with
  | last h =>
    intro i a a' _ ha'
    cases ha'
  | @cons nHave b x l h hget hl ih =>
    intro i a a' ha ha'
    cases i with
    | zero =>
      cases ha
      have hx := hl.head?
      rw [List.head?_eq_getElem?] at hx
      rw [zero_add, List.getElem?_cons_succ, hx] at ha'
      cases ha'
      exact ⟨h, (CBlockIndex.getElem?_path.mp hget).2⟩
    | succ i =>
      rw [List.getElem?_cons_succ] at ha ha'
      rw [show nHave + (i + 1) = nHave + 1 + i by omega]
      exact ih i a a' ha ha'

end Listed

/-- The blocks that hashes are of. -/
def HashesOf (blocks : List CBlockIndex) (hashes : List UInt256) : Prop :=
  List.Forall₂ (fun b hash => b.entry.phashBlock = some hash) blocks hashes

theorem exists_hashesOf : ∀ {blocks : List CBlockIndex},
    (∀ b ∈ blocks, ∃ hash, b.entry.phashBlock = some hash) →
    ∃ hashes, blocks.mapM (fun b => b.entry.phashBlock) = some hashes ∧ HashesOf blocks hashes
  | [], _ => ⟨[], rfl, .nil⟩
  | b :: blocks, h => by
    rw [List.forall_mem_cons] at h
    obtain ⟨hash, hhash⟩ := h.1
    obtain ⟨hashes, hmap, hrest⟩ := exists_hashesOf h.2
    refine ⟨hash :: hashes, ?_, .cons hhash hrest⟩
    rw [List.mapM_cons, hhash, hmap]
    rfl

/-- The map has the blocks of a tree under their hashes. -/
def Indexes (mapBlockIndex : Std.ExtTreeMap UInt256 CBlockIndex) (T : BlockTree) : Prop :=
  ∀ b ∈ T, ∃ hash, b.entry.phashBlock = some hash ∧ mapBlockIndex[hash]? = some b

/-- The first listed block that is in the chain. -/
theorem findSome?_hashes {mapBlockIndex : Std.ExtTreeMap UInt256 CBlockIndex} {T : BlockTree}
    (hindex : Indexes mapBlockIndex T) (c : CChain) {blocks : List CBlockIndex}
    {hashes : List UInt256} (h : HashesOf blocks hashes) (hmem : ∀ b ∈ blocks, b ∈ T) :
    (hashes.findSome? fun hash => mapBlockIndex[hash]?.bind fun pindex =>
      if c.contains pindex then some pindex else none) = blocks.find? c.contains := by
  induction h with
  | nil => rfl
  | @cons b hash blocks hashes hhash _ ih =>
    rw [List.forall_mem_cons] at hmem
    obtain ⟨hash', hhash', hget⟩ := hindex b hmem.1
    rw [hhash] at hhash'
    cases hhash'
    rw [List.findSome?_cons, hget, Option.bind_some, List.find?_cons, ih hmem.2]
    cases c.contains b <;> rfl

/-- `GetLocator` of a block ends, and lists ancestors of it from the block down to the genesis. Each
is lower than the one before, by one at first, and by at most twice the gap before. With it `FindFork`
gives the highest of the blocks listed that is in the other chain. -/
theorem getLocator_findFork (T : BlockTree) (mapBlockIndex : Std.ExtTreeMap UInt256 CBlockIndex)
    (hindex : Indexes mapBlockIndex T) (c : CChain) (t : Option CBlockIndex) (hc : c.IsPath t)
    (b : CBlockIndex) (hb : b ∈ T) :
    ∃ blocks vHave, (∀ fuel > b.nHeight, c.getLocator fuel (some b) = some vHave) ∧
      HashesOf blocks vHave ∧
      blocks.head? = some b ∧ blocks.getLast? = some b.genesis ∧ (∀ a ∈ blocks, a ∈ b.path) ∧
      (blocks.Pairwise fun a a' => a'.nHeight < a.nHeight) ∧
      (∀ (i : ℕ) (a a' : CBlockIndex), i ≤ 10 → blocks[i]? = some a → blocks[i + 1]? = some a' →
        a.nHeight = a'.nHeight + 1) ∧
      (∀ (i : ℕ) (a a' a'' : CBlockIndex), blocks[i]? = some a → blocks[i + 1]? = some a' →
        blocks[i + 2]? = some a'' →
        a'.nHeight - a''.nHeight ≤ 2 * (a.nHeight - a'.nHeight)) ∧
      ∀ c' t', t' ∈ T → c'.IsPath (some t') →
        ∃ f, findFork mapBlockIndex c' vHave = some f ∧ f ∈ blocks ∧ f ∈ b.path ∧ f ∈ t'.path ∧
          ∀ a ∈ blocks, a ∈ t'.path → a.nHeight ≤ f.nHeight := by
  obtain ⟨blocks, -, hlisted⟩ := hc.locatorBlocks_spec (b.nHeight + 1) 0 b (Nat.lt_succ_self _)
  have hmem : ∀ a ∈ blocks, a ∈ T := fun a ha => T.closed b hb a (hlisted.mem_path a ha)
  obtain ⟨vHave, hmap, hhashes⟩ := exists_hashesOf fun a ha =>
    (hindex a (hmem a ha)).imp fun _ h => h.1
  refine ⟨blocks, vHave, fun fuel hfuel => ?_, hhashes, hlisted.head?, hlisted.getLast?,
    hlisted.mem_path, hlisted.pairwise, fun i a a' hi ha ha' => ?_,
    fun i a a' a'' ha ha' ha'' => ?_, fun c' t' ht' hc' => ?_⟩
  · obtain ⟨blocks', hblocks', hlisted'⟩ := hc.locatorBlocks_spec fuel 0 b hfuel
    rw [hlisted.unique hlisted'] at hmap
    rw [getLocator, Option.some_or]
    change ((c.locatorBlocks fuel (locatorStep 0) 0 (some b)).bind _) = _
    rw [hblocks', Option.bind_some, hmap]
  · obtain ⟨hne, hgap⟩ := hlisted.gap i a a' ha ha'
    rw [locatorStep, show 0 + i - 10 = 0 by omega, pow_zero] at hgap
    omega
  · obtain ⟨-, hgap⟩ := hlisted.gap i a a' ha ha'
    obtain ⟨hne, hgap'⟩ := hlisted.gap (i + 1) a' a'' ha' ha''
    have hstep : locatorStep (0 + (i + 1)) ≤ 2 * locatorStep (0 + i) := by
      rw [show 0 + (i + 1) = 0 + i + 1 by omega, locatorStep_succ]
      split <;> omega
    omega
  · have hfind := findSome?_hashes hindex c' hhashes hmem
    have hgenesis : b.genesis ∈ blocks := List.mem_of_getLast? hlisted.getLast?
    have hcontains : c'.contains b.genesis = true := by
      refine hc'.contains_iff.mpr ⟨t', rfl, ?_⟩
      rw [T.genesis_eq b hb t' ht']
      exact t'.genesis_mem_path
    obtain ⟨f, hf⟩ : ∃ f, blocks.find? c'.contains = some f :=
      Option.isSome_iff_exists.mp (List.find?_isSome.mpr ⟨_, hgenesis, hcontains⟩)
    obtain ⟨hfc, as, bs, hsplit, hbefore⟩ := List.find?_eq_some_iff_append.mp hf
    have hfmem := List.mem_of_find?_eq_some hf
    obtain ⟨_, ht, hfpath⟩ := hc'.contains_iff.mp hfc
    cases ht
    refine ⟨f, ?_, hfmem, hlisted.mem_path f hfmem, hfpath, fun a ha hat => ?_⟩
    · rw [findFork, hfind, hf]
      rfl
    · have hac : c'.contains a = true := hc'.contains_iff.mpr ⟨t', rfl, hat⟩
      have hsorted := hlisted.pairwise
      rw [hsplit] at ha hsorted
      rcases List.mem_append.mp ha with ha | ha
      · have hnot := hbefore a ha
        rw [hac] at hnot
        cases hnot
      · rcases List.mem_cons.mp ha with rfl | ha
        · exact Nat.le_refl _
        · exact ((List.pairwise_cons.mp (List.pairwise_append.mp hsorted).2.1).1 a ha).le

/-- The map of the two blocks. -/
def sampleIndex : Std.ExtTreeMap UInt256 CBlockIndex :=
  (Std.ExtTreeMap.empty.insert 0 sampleGenesis).insert 1 sampleChild

theorem getLocator_findFork_sample : Indexes sampleIndex sampleTree ∧
    CChain.IsPath ⟨[some sampleGenesis]⟩ (some sampleGenesis) ∧ sampleChild ∈ sampleTree ∧
    ∃ blocks : List CBlockIndex, blocks.head? = some sampleChild ∧ blocks.getLast? = some sampleChild.genesis := by
  have hindex : Indexes sampleIndex sampleTree := by
    intro b hb
    rcases List.mem_cons.mp (mem_sampleTree.mp hb) with rfl | hb
    · exact ⟨1, rfl, by decide⟩
    · rw [List.mem_singleton.mp hb]
      exact ⟨0, rfl, by decide⟩
  have hmem : sampleChild ∈ sampleTree := mem_sampleTree.mpr List.mem_cons_self
  obtain ⟨blocks, _, _, _, hhead, hlast, _⟩ := getLocator_findFork sampleTree sampleIndex hindex
    ⟨[some sampleGenesis]⟩ (some sampleGenesis) rfl sampleChild hmem
  exact ⟨hindex, rfl, hmem, blocks, hhead, hlast⟩

end CChain

end Ticoin
