import Ticoin.BestChain
import Ticoin.Lib.Machine

/-!
# Block trees and the steps of ActivateBestChain

A `BlockTree` is the set of entries a node made : with an entry it has the entries below,
it has one genesis, and no two of its entries are one object, so that the comparator tells
them apart.

All `FindMostWorkChain` and `ActivateBestChain` do to the chain state are `ChainStep`s. Each
keeps `ChainState.Inv` : the candidates are the entries that are not failed, and the active
chain and the most-work chain are paths of the tree. If each block has a verdict of its own
(`FixedVerdicts`), a chain has a `fate`, and steps keep `ChainState.Sound` : failed blocks
are on rejected chains, and active blocks on connected ones.
-/

namespace Ticoin

/-! ## Block trees -/

/-- The entry without predecessor that an entry descends from. -/
def CBlockIndex.genesis : CBlockIndex → CBlockIndex
  | .root e => .root e
  | .child p _ => p.genesis

theorem CBlockIndex.genesis_mem_path : ∀ b : CBlockIndex, b.genesis ∈ b.path
  | .root e => mem_path_self (.root e)
  | .child p _ => mem_path_child.mpr (.inl p.genesis_mem_path)

theorem CBlockIndex.exists_genesis_eq : ∀ b : CBlockIndex, ∃ e, b.genesis = .root e
  | .root e => ⟨e, rfl⟩
  | .child p _ => p.exists_genesis_eq

/-- The entries of a node : closed under predecessors, told apart by the comparator, and of
one genesis. -/
structure BlockTree where
  nodes : List CBlockIndex
  closed : ∀ b ∈ nodes, ∀ a ∈ b.path, a ∈ nodes
  rank_inj : ∀ a ∈ nodes, ∀ b ∈ nodes, rank a = rank b → a = b
  genesis_eq : ∀ a ∈ nodes, ∀ b ∈ nodes, a.genesis = b.genesis

namespace BlockTree

instance : Membership CBlockIndex BlockTree := ⟨fun T b => b ∈ T.nodes⟩

def empty : BlockTree := ⟨[], by simp, by simp, by simp⟩

/-- What holds of an entry `AddToBlockIndex` makes : it is a new object, its predecessor is
an entry, and only the first has none. -/
structure Fresh (T : BlockTree) (b : CBlockIndex) : Prop where
  address_ne : ∀ a ∈ T, a.entry.address ≠ b.entry.address
  pprev_mem : ∀ p, b.pprev = some p → p ∈ T
  root : b.pprev = none → T.nodes = []

theorem Fresh.path_mem {T : BlockTree} {b a : CBlockIndex} (h : T.Fresh b) (ha : a ∈ b.path) :
    a = b ∨ a ∈ T := by
  cases b with
  | root e => exact .inl (List.mem_singleton.mp ha)
  | child p e =>
    rcases CBlockIndex.mem_path_child.mp ha with ha | ha
    · exact .inr (T.closed p (h.pprev_mem p rfl) a ha)
    · exact .inl ha

theorem Fresh.rank_ne {T : BlockTree} {b a : CBlockIndex} (h : T.Fresh b) (ha : a ∈ T) :
    rank a ≠ rank b := by
  intro heq
  simp only [rank, EmbeddingLike.apply_eq_iff_eq, Prod.mk.injEq] at heq
  exact h.address_ne a ha heq.2.2

theorem Fresh.genesis_eq {T : BlockTree} {b a : CBlockIndex} (h : T.Fresh b) (ha : a ∈ T) :
    a.genesis = b.genesis := by
  cases b with
  | root e =>
    have ha : a ∈ T.nodes := ha
    rw [h.root rfl] at ha
    simp at ha
  | child p e => exact T.genesis_eq a ha p (h.pprev_mem p rfl)

/-- The tree with an entry more. -/
def insert (T : BlockTree) (b : CBlockIndex) (h : T.Fresh b) : BlockTree where
  nodes := b :: T.nodes
  closed := by
    intro c hc a ha
    rcases List.mem_cons.mp hc with rfl | hc
    · exact List.mem_cons.mpr (h.path_mem ha)
    · exact List.mem_cons_of_mem _ (T.closed c hc a ha)
  rank_inj := by
    intro a ha c hc heq
    rcases List.mem_cons.mp ha with rfl | ha' <;> rcases List.mem_cons.mp hc with rfl | hc'
    · rfl
    · exact absurd heq.symm (h.rank_ne hc')
    · exact absurd heq (h.rank_ne ha')
    · exact T.rank_inj a ha' c hc' heq
  genesis_eq := by
    intro a ha c hc
    rcases List.mem_cons.mp ha with rfl | ha' <;> rcases List.mem_cons.mp hc with rfl | hc'
    · rfl
    · exact (h.genesis_eq hc').symm
    · exact h.genesis_eq ha'
    · exact T.genesis_eq a ha' c hc'

variable {T : BlockTree} {a b : CBlockIndex}

theorem mem_insert {h : T.Fresh b} : a ∈ T.insert b h ↔ a = b ∨ a ∈ T := List.mem_cons

theorem mem_of_path (hb : b ∈ T) (ha : a ∈ b.path) : a ∈ T := T.closed b hb a ha

/-- The heights of a tree are bounded. -/
theorem exists_height_bound (T : BlockTree) : ∃ n, ∀ b ∈ T, b.nHeight < n := by
  refine ⟨(T.nodes.map CBlockIndex.nHeight).sum + 1, fun b hb => ?_⟩
  have hle := List.le_sum_of_mem (List.mem_map_of_mem (f := CBlockIndex.nHeight) hb)
  omega

end BlockTree

namespace ChainState

variable {s s' : ChainState} {a b : CBlockIndex} {T : BlockTree}

/-! ## Operations on the candidates -/

theorem equivalent_iff (a b : CBlockIndex) : equivalent a b = true ↔ rank a = rank b := by
  have h1 := workLess_iff a b
  have h2 := workLess_iff b a
  have h3 := lt_trichotomy (rank a) (rank b)
  rw [equivalent, Bool.and_eq_true, Bool.not_eq_true', Bool.not_eq_true', ← Bool.not_eq_true,
    ← Bool.not_eq_true, h1, h2]
  constructor
  · rintro ⟨hab, hba⟩
    exact (h3.resolve_left hab).resolve_right hba
  · intro heq
    rw [heq]
    exact ⟨lt_irrefl _, lt_irrefl _⟩

theorem mem_eraseValid : a ∈ (s.eraseValid b).setBlockIndexValid ↔
    a ∈ s.setBlockIndexValid ∧ rank b ≠ rank a := by
  rw [eraseValid, List.mem_filter, Bool.not_eq_true', ← Bool.not_eq_true, equivalent_iff]

theorem length_eraseValid_le (s : ChainState) (b : CBlockIndex) :
    (s.eraseValid b).setBlockIndexValid.length ≤ s.setBlockIndexValid.length :=
  List.length_filter_le _ _

theorem length_eraseValid_lt (h : b ∈ s.setBlockIndexValid) :
    (s.eraseValid b).setBlockIndexValid.length < s.setBlockIndexValid.length :=
  List.length_filter_lt_length_iff_exists.mpr ⟨b, h, by simp [(equivalent_iff b b).mpr rfl]⟩

@[simp] theorem failed_eraseValid : (s.eraseValid b).failed a = s.failed a := rfl

theorem failed_setFailed {st : BlockStatus} :
    (s.setFailed b st).failed a = if a = b then st.failed else s.failed a := by
  simp only [failed, setFailed, eraseValid, Function.update_apply]
  split <;> rfl

theorem failed_markChild : (s.markChild b).failed a = if a = b then true else s.failed a := by
  simp [markChild, failed_setFailed, BlockStatus.failed]

theorem failed_markInvalid : (s.markInvalid b).failed a = if a = b then true else s.failed a := by
  simp [markInvalid, failed_setFailed, BlockStatus.failed]

theorem noteBestInvalid_eq (s : ChainState) (b : CBlockIndex) :
    ∃ o, s.noteBestInvalid b = { s with pindexBestInvalid := o } := by
  rw [noteBestInvalid]
  split
  · exact ⟨_, rfl⟩
  · split
    · exact ⟨_, rfl⟩
    · exact ⟨s.pindexBestInvalid, rfl⟩

theorem greatest_eq_none : ∀ {l : List CBlockIndex}, greatest l = none → l = []
  | [], _ => rfl
  | b :: l, h => by
    rw [greatest] at h
    cases hl : greatest l with
    | none => simp [hl] at h
    | some c =>
      simp only [hl] at h
      split at h <;> cases h

theorem greatest_eq_some : ∀ {l : List CBlockIndex} {w : CBlockIndex}, greatest l = some w →
    w ∈ l ∧ ∀ b ∈ l, rank b ≤ rank w
  | b :: l, w, h => by
    rw [greatest] at h
    cases hl : greatest l with
    | none =>
      simp only [hl, Option.some.injEq] at h
      simp [greatest_eq_none hl, h]
    | some c =>
      obtain ⟨hc, hle⟩ := greatest_eq_some hl
      simp only [hl, workLess_iff] at h
      by_cases hlt : rank c < rank b
      · rw [if_pos hlt, Option.some.injEq] at h
        subst h
        refine ⟨List.mem_cons_self, fun x hx => ?_⟩
        rcases List.mem_cons.mp hx with rfl | hx
        · exact le_rfl
        · exact (hle x hx).trans hlt.le
      · rw [if_neg hlt, Option.some.injEq] at h
        subst h
        refine ⟨List.mem_cons_of_mem _ hc, fun x hx => ?_⟩
        rcases List.mem_cons.mp hx with rfl | hx
        · exact not_lt.mp hlt
        · exact hle x hx

/-! ## Steps -/

/-- What the loops of `FindMostWorkChain` and `ActivateBestChain` do to the chain state. -/
inductive ChainStep (T : BlockTree) (env : BlockEnv) : ChainState → ChainState → Prop
  /-- a failed tip of the most-work chain is dropped -/
  | dropTip {s : ChainState} {t : CBlockIndex} (ht : s.chainMostWork.tip = some t)
      (hf : s.failed t = true) : ChainStep T env s ((s.eraseValid t).setMostWork t.pprev)
  /-- a descendant of a failed block is marked -/
  | markChild {s : ChainState} {x y : CBlockIndex} (hx : x ∈ T) (hy : y ∈ x.path)
      (hf : s.failed y = true) : ChainStep T env s (s.markChild x)
  | noteBestInvalid (s : ChainState) (x : CBlockIndex) : ChainStep T env s (s.noteBestInvalid x)
  /-- a candidate becomes the most-work chain -/
  | adopt {s : ChainState} {w : CBlockIndex} (hw : w ∈ s.setBlockIndexValid) :
      ChainStep T env s (s.setMostWork (some w))
  | disconnect {s : ChainState} {t p : CBlockIndex} (ht : s.chainActive.tip = some t)
      (hp : t.pprev = some p) : ChainStep T env s (s.attempted.setActive (some p))
  | connect {s : ChainState} {p : CBlockIndex} (hT : p ∈ T)
      (hp : p.pprev = s.chainActive.tip) (henv : env.connectBlock s.nAttempts p = .ok) :
      ChainStep T env s (s.attempted.setActive (some p))
  /-- a block is rejected, not for possible corruption -/
  | reject {s : ChainState} {p : CBlockIndex} (hT : p ∈ T)
      (hp : p.pprev = s.chainActive.tip) (henv : env.connectBlock s.nAttempts p = .invalid false) :
      ChainStep T env s (s.attempted.markInvalid p)
  /-- an attempt leaves the state as it was -/
  | attempt (s : ChainState) : ChainStep T env s s.attempted

/-- Runs of steps. -/
abbrev Steps (T : BlockTree) (env : BlockEnv) : ChainState → ChainState → Prop :=
  Relation.ReflTransGen (ChainStep T env)

variable {env : BlockEnv}

/-- No step adds a candidate or takes back an attempt. -/
theorem ChainStep.mono (h : ChainStep T env s s') :
    s'.setBlockIndexValid.length ≤ s.setBlockIndexValid.length ∧ s.nAttempts ≤ s'.nAttempts := by
  cases h with
  | dropTip => exact ⟨length_eraseValid_le s _, le_rfl⟩
  | markChild => exact ⟨length_eraseValid_le { s with nStatus := _ } _, le_rfl⟩
  | noteBestInvalid x =>
    obtain ⟨o, ho⟩ := noteBestInvalid_eq s x
    rw [ho]
    exact ⟨le_rfl, le_rfl⟩
  | adopt => exact ⟨le_rfl, le_rfl⟩
  | disconnect => exact ⟨le_rfl, Nat.le_succ _⟩
  | connect => exact ⟨le_rfl, Nat.le_succ _⟩
  | reject => exact ⟨length_eraseValid_le { s.attempted with nStatus := _ } _, Nat.le_succ _⟩
  | attempt => exact ⟨le_rfl, Nat.le_succ _⟩

theorem Steps.mono (h : Steps T env s s') :
    s'.setBlockIndexValid.length ≤ s.setBlockIndexValid.length ∧ s.nAttempts ≤ s'.nAttempts :=
  Machine.invariant_of_steps (P := fun x =>
    x.setBlockIndexValid.length ≤ s.setBlockIndexValid.length ∧ s.nAttempts ≤ x.nAttempts)
    (fun _ _ hx hstep => ⟨hstep.mono.1.trans hx.1, hx.2.trans hstep.mono.2⟩) h ⟨le_rfl, le_rfl⟩

/-! ## The invariant -/

/-- The candidates are the entries that are not failed, and both chains are paths of the
tree. -/
structure Inv (T : BlockTree) (s : ChainState) : Prop where
  mem_valid : ∀ b, b ∈ s.setBlockIndexValid ↔ b ∈ T ∧ s.failed b = false
  active : s.chainActive.IsPath s.chainActive.tip
  active_mem : ∀ t, s.chainActive.tip = some t → t ∈ T
  mostWork : s.chainMostWork.IsPath s.chainMostWork.tip
  mostWork_mem : ∀ t, s.chainMostWork.tip = some t → t ∈ T

theorem tip_setTip {c : CChain} (h : c.IsPath c.tip) (t : Option CBlockIndex) :
    (c.setTip t).1.IsPath (c.setTip t).1.tip ∧ (c.setTip t).1.tip = t := by
  have hpath := CChain.setTip_isPath h t
  rw [hpath.tip_eq]
  exact ⟨hpath, rfl⟩

theorem Inv.tip_setMostWork (h : s.Inv T) (t : Option CBlockIndex) :
    (s.setMostWork t).chainMostWork.tip = t := (tip_setTip h.mostWork t).2

theorem Inv.tip_setActive (h : s.Inv T) (t : Option CBlockIndex) :
    (s.setActive t).chainActive.tip = t := (tip_setTip h.active t).2

theorem Inv.setMostWork (h : s.Inv T) {t : Option CBlockIndex} (ht : ∀ b, t = some b → b ∈ T) :
    (s.setMostWork t).Inv T where
  mem_valid := h.mem_valid
  active := h.active
  active_mem := h.active_mem
  mostWork := (tip_setTip h.mostWork t).1
  mostWork_mem b hb := ht b ((h.tip_setMostWork t).symm.trans hb)

theorem Inv.setActive (h : s.Inv T) {t : Option CBlockIndex} (ht : ∀ b, t = some b → b ∈ T) :
    (s.setActive t).Inv T where
  mem_valid := h.mem_valid
  active := (tip_setTip h.active t).1
  active_mem b hb := ht b ((h.tip_setActive t).symm.trans hb)
  mostWork := h.mostWork
  mostWork_mem := h.mostWork_mem

theorem Inv.attempted (h : s.Inv T) : s.attempted.Inv T := ⟨h.1, h.2, h.3, h.4, h.5⟩

/-- Erasing a failed entry changes nothing. -/
theorem Inv.eraseValid_eq (h : s.Inv T) (hb : b ∈ T) (hf : s.failed b = true) :
    s.eraseValid b = s := by
  have hfilter : s.setBlockIndexValid.filter (fun x => !equivalent b x) = s.setBlockIndexValid := by
    rw [List.filter_eq_self]
    intro x hx
    rw [Bool.not_eq_true', ← Bool.not_eq_true, equivalent_iff]
    intro heq
    obtain ⟨hxT, hxf⟩ := (h.mem_valid x).mp hx
    rw [T.rank_inj b hb x hxT heq, hxf] at hf
    exact absurd hf Bool.false_ne_true
  rw [eraseValid, hfilter]

theorem Inv.setFailed (h : s.Inv T) (hb : b ∈ T) {st : BlockStatus} (hst : st.failed = true) :
    (s.setFailed b st).Inv T where
  mem_valid x := by
    rw [failed_setFailed]
    refine mem_eraseValid.trans ?_
    rw [h.mem_valid x]
    by_cases hx : x = b
    · simp [hx, hst]
    · simp only [hx, if_false]
      exact ⟨fun hm => hm.1, fun hm => ⟨hm, fun heq => hx (T.rank_inj b hb x hm.1 heq).symm⟩⟩
  active := h.active
  active_mem := h.active_mem
  mostWork := h.mostWork
  mostWork_mem := h.mostWork_mem

theorem Inv.markChild (h : s.Inv T) (hb : b ∈ T) : (s.markChild b).Inv T :=
  h.setFailed hb (by simp [BlockStatus.failed])

theorem Inv.markInvalid (h : s.Inv T) (hb : b ∈ T) : (s.markInvalid b).Inv T :=
  h.setFailed hb (by simp [BlockStatus.failed])

theorem pprev_mem {t : CBlockIndex} (ht : t ∈ T) : ∀ b, t.pprev = some b → b ∈ T := by
  intro b hb
  cases t with
  | root e => cases hb
  | child p e =>
    cases hb
    exact BlockTree.mem_of_path ht (CBlockIndex.mem_path_child.mpr (.inl (CBlockIndex.mem_path_self _)))

theorem Inv.step (h : s.Inv T) (hstep : ChainStep T env s s') : s'.Inv T := by
  cases hstep with
  | dropTip ht hf =>
    rw [h.eraseValid_eq (h.mostWork_mem _ ht) hf]
    exact h.setMostWork (pprev_mem (h.mostWork_mem _ ht))
  | markChild hx hy hf => exact h.markChild hx
  | noteBestInvalid x =>
    obtain ⟨o, ho⟩ := noteBestInvalid_eq s x
    rw [ho]
    exact ⟨h.1, h.2, h.3, h.4, h.5⟩
  | adopt hw =>
    refine h.setMostWork fun b hb => ?_
    cases hb
    exact ((h.mem_valid _).mp hw).1
  | disconnect ht hp =>
    refine h.attempted.setActive fun b hb => ?_
    cases hb
    exact pprev_mem (h.active_mem _ ht) _ hp
  | connect hT hp henv =>
    refine h.attempted.setActive fun b hb => ?_
    cases hb
    exact hT
  | reject hT hp henv => exact h.attempted.markInvalid hT
  | attempt => exact h.attempted

theorem Inv.steps (h : s.Inv T) (hrun : Steps T env s s') : s'.Inv T :=
  Machine.invariant_of_steps (fun _ _ hs => hs.step) hrun h

theorem Inv.init : ChainState.init.Inv .empty where
  mem_valid b := by
    constructor
    · intro h
      exact absurd h List.not_mem_nil
    · rintro ⟨h, -⟩
      exact absurd h List.not_mem_nil
  active := rfl
  active_mem := nofun
  mostWork := rfl
  mostWork_mem := nofun

theorem Inv.insertBlock (h : s.Inv T) (hb : T.Fresh b) : (s.insertBlock b).Inv (T.insert b hb) := by
  have hnew : s.setBlockIndexValid.any (equivalent b) = false := by
    rw [List.any_eq_false]
    intro x hx heq
    exact hb.rank_ne ((h.mem_valid x).mp hx).1 ((equivalent_iff b x).mp heq).symm
  have hs : s.insertBlock b = { s with
      nStatus := Function.update s.nStatus b ⟨false, false⟩
      setBlockIndexValid := b :: s.setBlockIndexValid } := by
    rw [ChainState.insertBlock, insertValid, if_neg (by simp [hnew])]
  have hbT : b ∉ T := fun hmem => hb.rank_ne hmem rfl
  rw [hs]
  refine ⟨fun x => ?_, h.active, fun t ht => ?_, h.mostWork, fun t ht => ?_⟩
  · simp only [List.mem_cons, BlockTree.mem_insert, failed, Function.update_apply]
    have hx := h.mem_valid x
    simp only [failed] at hx
    by_cases hxb : x = b
    · simp [hxb, BlockStatus.failed]
    · simp [hxb, hx]
  · exact BlockTree.mem_insert.mpr (.inr (h.active_mem t ht))
  · exact BlockTree.mem_insert.mpr (.inr (h.mostWork_mem t ht))

/-! ## Verdicts that are fixed -/

/-- What becomes of the chain of a block : the verdict of the first block that is not
connected, or else success. -/
def fate (v : CBlockIndex → Verdict) : CBlockIndex → Verdict
  | .root e => v (.root e)
  | .child p e => if fate v p = .ok then v (.child p e) else fate v p

theorem fate_eq_ok {v : CBlockIndex → Verdict} : ∀ {b : CBlockIndex},
    fate v b = .ok ↔ ∀ a ∈ b.path, v a = .ok
  | .root e => by simp [fate, CBlockIndex.path]
  | .child p e => by
    have ih := fate_eq_ok (v := v) (b := p)
    simp only [fate, CBlockIndex.mem_path_child]
    by_cases hp : fate v p = .ok
    · rw [if_pos hp]
      refine ⟨fun h a ha => ?_, fun h => h _ (.inr rfl)⟩
      rcases ha with ha | rfl
      · exact ih.mp hp a ha
      · exact h
    · rw [if_neg hp]
      exact ⟨fun h => absurd h hp, fun h => absurd (ih.mpr fun a ha => h a (.inl ha)) hp⟩

/-- A chain ends like the chain of a block in it that is not connected. -/
theorem fate_of_mem {v : CBlockIndex → Verdict} (ha : fate v a ≠ .ok) :
    ∀ {b : CBlockIndex}, a ∈ b.path → fate v b = fate v a
  | .root e, h => by rw [List.mem_singleton.mp h]
  | .child p e, h => by
    rcases CBlockIndex.mem_path_child.mp h with h | rfl
    · have ih := fate_of_mem ha h
      rw [fate, if_neg (ih ▸ ha), ih]
    · rfl

/-- The fate of a block on a chain that is connected is its own verdict. -/
theorem fate_of_pprev {v : CBlockIndex → Verdict} (h : ∀ q, b.pprev = some q → fate v q = .ok) :
    fate v b = v b := by
  cases b with
  | root e => rfl
  | child q e => rw [fate, if_pos (h q rfl)]

/-- Disconnecting never fails, and a block on a chain that is connected has a verdict of its
own. -/
structure FixedVerdicts (env : BlockEnv) (v : CBlockIndex → Verdict) : Prop where
  disconnect : ∀ n b, env.disconnectBlock n b = true
  connect : ∀ n b, (∀ q, b.pprev = some q → fate v q = .ok) → env.connectBlock n b = v b

/-- A failed block is on a chain that is rejected, and the active chain is connected. -/
structure Sound (v : CBlockIndex → Verdict) (s : ChainState) : Prop where
  failed : ∀ b, s.failed b = true → fate v b = .invalid false
  active : ∀ t, s.chainActive.tip = some t → fate v t = .ok

variable {v : CBlockIndex → Verdict}

/-- The verdict on a block that is tried is the fate of its chain. -/
theorem Sound.connect (hv : FixedVerdicts env v) (h : s.Sound v)
    (hp : b.pprev = s.chainActive.tip) (n : ℕ) : env.connectBlock n b = fate v b := by
  have hprev : ∀ q, b.pprev = some q → fate v q = .ok := fun q hq => h.active q (hp.symm.trans hq)
  rw [hv.connect n b hprev, fate_of_pprev hprev]

theorem Sound.step (hv : FixedVerdicts env v) (hi : s.Inv T) (h : s.Sound v)
    (hstep : ChainStep T env s s') : s'.Sound v := by
  cases hstep with
  | dropTip ht hf => exact ⟨h.failed, h.active⟩
  | @markChild x y hx hy hf =>
    refine ⟨fun b hb => ?_, h.active⟩
    rw [failed_markChild] at hb
    split at hb
    · rename_i heq
      have hfate := h.failed y hf
      rw [heq, fate_of_mem (by rw [hfate]; nofun) hy, hfate]
    · exact h.failed b hb
  | noteBestInvalid x =>
    obtain ⟨o, ho⟩ := noteBestInvalid_eq s x
    rw [ho]
    exact ⟨h.failed, h.active⟩
  | adopt hw => exact ⟨h.failed, h.active⟩
  | @disconnect t p ht hp =>
    refine ⟨h.failed, fun t' ht' => ?_⟩
    rw [hi.attempted.tip_setActive] at ht'
    cases ht'
    have hfate := fate_eq_ok.mp (h.active t ht)
    refine fate_eq_ok.mpr fun a ha => hfate a ?_
    cases t with
    | root e => cases hp
    | child q e =>
      cases hp
      exact CBlockIndex.mem_path_child.mpr (.inl ha)
  | @connect p hT hp henv =>
    refine ⟨h.failed, fun t' ht' => ?_⟩
    rw [hi.attempted.tip_setActive] at ht'
    cases ht'
    rw [← h.connect hv hp, henv]
  | @reject p hT hp henv =>
    refine ⟨fun b hb => ?_, h.active⟩
    rw [failed_markInvalid] at hb
    split at hb
    · rename_i heq
      rw [heq, ← h.connect hv hp, henv]
    · exact h.failed b hb
  | attempt => exact ⟨h.failed, h.active⟩

theorem Sound.steps (hv : FixedVerdicts env v) (hi : s.Inv T) (h : s.Sound v)
    (hrun : Steps T env s s') : s'.Sound v :=
  (Machine.invariant_of_steps (P := fun x => x.Inv T ∧ x.Sound v)
    (fun _ _ hx hstep => ⟨hx.1.step hstep, hx.2.step hv hx.1 hstep⟩) hrun ⟨hi, h⟩).2

theorem Sound.init (v : CBlockIndex → Verdict) : ChainState.init.Sound v :=
  ⟨fun _ h => absurd h Bool.false_ne_true, nofun⟩

theorem Sound.insertBlock (h : s.Sound v) (b : CBlockIndex) : (s.insertBlock b).Sound v := by
  have hnew : ∀ s' : ChainState, s'.failed b = false → s'.chainActive = s.chainActive →
      (∀ x, x ≠ b → s'.failed x = s.failed x) → s'.Sound v := by
    intro s' hb hact hx
    refine ⟨fun x hf => ?_, fun t ht => h.active t (hact ▸ ht)⟩
    by_cases hxb : x = b
    · rw [hxb, hb] at hf
      cases hf
    · exact h.failed x ((hx x hxb).symm.trans hf)
  rw [ChainState.insertBlock, insertValid]
  split
  all_goals
    refine hnew _ ?_ rfl fun x hx => ?_
    · simp [ChainState.failed, BlockStatus.failed]
    · simp [ChainState.failed, hx]

end ChainState

end Ticoin
