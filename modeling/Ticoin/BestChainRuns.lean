import Ticoin.BestChainSteps

/-!
# The loops of ActivateBestChain

The loops are followed one by one, each with a bound on its fuel. A chain is *clean* if its
blocks are active or not failed. `FindMostWorkChain` leaves the most-work chain at a best
candidate, and clean unless candidates were taken away (`findMostWorkChain_spec`). So a
block that is rejected in a turn of the loop was rejected for possible corruption, or the
turn took a candidate away (`activateTurn_spec`).

With any fuel a call that ends does so as `ActivatePost` says (`activateBestChain_post`), and
it ends if rejections for possible corruption do (`Inv.terminates`).
-/

namespace Ticoin

namespace ChainState

variable {s s' : ChainState} {b w y : CBlockIndex} {T : BlockTree} (env : BlockEnv)

/-! ## FindMostWorkChain -/

/-- The candidates, their marks and the active chain are the same. -/
structure SameBlocks (s s' : ChainState) : Prop where
  setBlockIndexValid : s'.setBlockIndexValid = s.setBlockIndexValid
  nStatus : s'.nStatus = s.nStatus

theorem SameBlocks.failed (h : SameBlocks s s') (b : CBlockIndex) : s'.failed b = s.failed b := by
  rw [ChainState.failed, h.nStatus]
  rfl

theorem SameBlocks.trans {s'' : ChainState} (h : SameBlocks s s') (h' : SameBlocks s' s'') :
    SameBlocks s s'' :=
  ⟨h'.1.trans h.1, h'.2.trans h.2⟩

/-- The failed tips are dropped, and the tip left is not failed. -/
theorem popFailed_spec : ∀ (t : CBlockIndex) {s : ChainState}, s.Inv T →
    s.chainMostWork.tip = some t →
    Steps T env s (popFailed t s) ∧ SameBlocks s (popFailed t s) ∧
      (popFailed t s).chainActive = s.chainActive ∧
      ∀ t', (popFailed t s).chainMostWork.tip = some t' → (popFailed t s).failed t' = false
  | .root e, s, h, ht => by
    rw [popFailed]
    split
    · rename_i hf
      have herase := h.eraseValid_eq (h.mostWork_mem _ ht) hf
      have hstep : ChainStep T env s ((s.eraseValid (.root e)).setMostWork none) :=
        .dropTip ht hf
      rw [herase] at hstep ⊢
      refine ⟨.single hstep, ⟨rfl, rfl⟩, rfl, fun t' ht' => ?_⟩
      rw [h.tip_setMostWork] at ht'
      cases ht'
    · rename_i hf
      refine ⟨.refl, ⟨rfl, rfl⟩, rfl, fun t' ht' => ?_⟩
      rw [ht] at ht'
      cases ht'
      exact Bool.eq_false_iff.mpr hf
  | .child p e, s, h, ht => by
    rw [popFailed]
    split
    · rename_i hf
      have herase := h.eraseValid_eq (h.mostWork_mem _ ht) hf
      have hstep : ChainStep T env s ((s.eraseValid (.child p e)).setMostWork (some p)) :=
        .dropTip ht hf
      rw [herase] at hstep ⊢
      obtain ⟨hrun, hsame, hact, htip⟩ :=
        popFailed_spec p (h.step hstep) (h.tip_setMostWork (some p))
      exact ⟨hrun.head hstep, ⟨hsame.1, hsame.2⟩, hact, htip⟩
    · rename_i hf
      refine ⟨.refl, ⟨rfl, rfl⟩, rfl, fun t' ht' => ?_⟩
      rw [ht] at ht'
      cases ht'
      exact Bool.eq_false_iff.mpr hf

theorem dropFailedTip_spec (h : s.Inv T) :
    Steps T env s s.dropFailedTip ∧ SameBlocks s s.dropFailedTip ∧
      s.dropFailedTip.chainActive = s.chainActive ∧
      ∀ t', s.dropFailedTip.chainMostWork.tip = some t' → s.dropFailedTip.failed t' = false := by
  rw [dropFailedTip]
  cases ht : s.chainMostWork.tip with
  | none => exact ⟨.refl, ⟨rfl, rfl⟩, rfl, fun t' ht' => by simp [ht] at ht'⟩
  | some t => exact popFailed_spec env t h ht

/-- The blocks on the path are active or not failed. -/
def Clean (s : ChainState) (w : CBlockIndex) : Prop :=
  ∀ x ∈ w.path, s.chainActive.contains x = true ∨ s.failed x = false

theorem clean_of_firstFailed (h : s.Inv T) : ∀ {w : CBlockIndex}, s.firstFailed w = none → s.Clean w
  | .root e, hw => by
    intro x hx
    rw [CBlockIndex.path, List.mem_singleton] at hx
    rw [firstFailed] at hw
    split at hw
    · rename_i hact
      exact .inl (hx ▸ hact)
    · split at hw
      · cases hw
      · rename_i hf
        exact .inr (hx ▸ Bool.eq_false_iff.mpr hf)
  | .child p e, hw => by
    intro x hx
    rw [firstFailed] at hw
    split at hw
    · rename_i hact
      obtain ⟨t, ht, hmem⟩ := h.active.contains_iff.mp hact
      exact .inl (h.active.contains_iff.mpr ⟨t, ht, CBlockIndex.mem_path_trans hx hmem⟩)
    · split at hw
      · cases hw
      · rename_i hf
        rcases CBlockIndex.mem_path_child.mp hx with hx | hx
        · exact clean_of_firstFailed h hw x hx
        · exact .inr (hx ▸ Bool.eq_false_iff.mpr hf)

theorem firstFailed_eq_some : ∀ {w : CBlockIndex}, s.firstFailed w = some y →
    y ∈ w.path ∧ s.failed y = true
  | .root e, hw => by
    rw [firstFailed] at hw
    split at hw
    · cases hw
    · split at hw
      · rename_i hf
        cases hw
        exact ⟨CBlockIndex.mem_path_self _, hf⟩
      · cases hw
  | .child p e, hw => by
    rw [firstFailed] at hw
    split at hw
    · cases hw
    · split at hw
      · rename_i hf
        cases hw
        exact ⟨CBlockIndex.mem_path_self _, hf⟩
      · obtain ⟨hy, hf⟩ := firstFailed_eq_some hw
        exact ⟨CBlockIndex.mem_path_child.mpr (.inl hy), hf⟩

/-- The walk down to a failed block is made of steps, and leaves the chains as they are. -/
theorem markFailed_spec : ∀ {w : CBlockIndex} {s : ChainState}, w ∈ T → y ∈ w.path →
    s.failed y = true → Steps T env s (markFailed y w s) ∧
      (markFailed y w s).chainActive = s.chainActive ∧
      (markFailed y w s).chainMostWork = s.chainMostWork
  | .root e, s, hT, hy, hf => by
    rw [CBlockIndex.path, List.mem_singleton] at hy
    rw [markFailed, if_pos hy.symm]
    exact ⟨.refl, rfl, rfl⟩
  | .child p e, s, hT, hy, hf => by
    rw [markFailed]
    split
    · exact ⟨.refl, rfl, rfl⟩
    · rename_i hne
      have hyp := (CBlockIndex.mem_path_child.mp hy).resolve_right (Ne.symm hne)
      have hp : p ∈ T := pprev_mem hT p rfl
      have hfy : (s.markChild (.child p e)).failed y = true := by
        rw [failed_markChild, hf, ite_self]
      obtain ⟨hrun, hact, hmost⟩ := markFailed_spec hp hyp hfy
      exact ⟨hrun.head (.markChild hT hy hf), hact, hmost⟩

/-- A candidate above a failed block is taken away. -/
theorem length_markFailed_lt (hT : w ∈ T) (hw : w ∈ s.setBlockIndexValid) (hy : y ∈ w.path)
    (hf : s.failed y = true) (hne : w ≠ y) :
    (markFailed y w s).setBlockIndexValid.length < s.setBlockIndexValid.length := by
  cases w with
  | root e => exact absurd (List.mem_singleton.mp hy).symm hne
  | child p e =>
    rw [markFailed, if_neg hne]
    have hyp := (CBlockIndex.mem_path_child.mp hy).resolve_right (Ne.symm hne)
    have hfy : (s.markChild (.child p e)).failed y = true := by
      rw [failed_markChild, hf, ite_self]
    have hrest := (markFailed_spec ⟨fun _ _ => .ok, fun _ _ => true⟩
      (pprev_mem hT p rfl) hyp hfy).1
    exact hrest.mono.1.trans_lt (length_eraseValid_lt (s := { s with nStatus := _ }) hw)

/-- The best candidate is clean, unless candidates were taken away to find it. -/
theorem selectCandidate_spec : ∀ {fuel : ℕ} {s : ChainState}, s.Inv T →
    s.setBlockIndexValid.length < fuel →
    ∃ r s', selectCandidate fuel s = .ok (r, s') ∧ Steps T env s s' ∧
      s'.chainActive = s.chainActive ∧ s'.chainMostWork = s.chainMostWork ∧
      greatest s'.setBlockIndexValid = r ∧ (∀ w, r = some w → s'.Clean w) ∧
      (s' = s ∨ s'.setBlockIndexValid.length < s.setBlockIndexValid.length)
  | fuel + 1, s, h, hfuel => by
    rw [selectCandidate]
    cases hw : greatest s.setBlockIndexValid with
    | none => exact ⟨none, s, rfl, .refl, rfl, rfl, hw, nofun, .inl rfl⟩
    | some w =>
      have hmem := (greatest_eq_some hw).1
      cases hy : s.firstFailed w with
      | none =>
        refine ⟨some w, s, by simp only [hy], .refl, rfl, rfl, hw, fun w' hw' => ?_, .inl rfl⟩
        cases hw'
        exact clean_of_firstFailed h hy
      | some y =>
        simp only [hy]
        obtain ⟨hyw, hyf⟩ := firstFailed_eq_some hy
        obtain ⟨hwT, hwf⟩ := (h.mem_valid w).mp hmem
        obtain ⟨o, ho⟩ := noteBestInvalid_eq s w
        have hnote : ChainStep T env s (s.noteBestInvalid w) := .noteBestInvalid s w
        have hne : w ≠ y := by
          rintro rfl
          rw [hwf] at hyf
          exact Bool.false_ne_true hyf
        rw [ho] at hnote ⊢
        obtain ⟨hmark, hact, hmost⟩ :=
          markFailed_spec env (s := { s with pindexBestInvalid := o }) hwT hyw hyf
        have hlt := length_markFailed_lt (s := { s with pindexBestInvalid := o }) hwT hmem hyw hyf hne
        have hrun : Steps T env s (markFailed y w { s with pindexBestInvalid := o }) :=
          hmark.head hnote
        have hfuel' : (markFailed y w { s with pindexBestInvalid := o }).setBlockIndexValid.length
            < fuel := Nat.lt_of_lt_of_le hlt (Nat.le_of_lt_succ hfuel)
        obtain ⟨r, s', hsel, hrest, hact', hmost', hgr, hclean, -⟩ :=
          selectCandidate_spec (h.steps hrun) hfuel'
        exact ⟨r, s', hsel, hrun.trans hrest, hact'.trans hact, hmost'.trans hmost, hgr, hclean,
          .inr (hrest.mono.1.trans_lt hlt)⟩

/-- The most-work chain found is a best candidate, and clean unless candidates were taken
away. -/
theorem findMostWorkChain_spec {fuel : ℕ} (hfuel : s.setBlockIndexValid.length < fuel)
    (h : s.Inv T) :
    ∃ s', s.findMostWorkChain fuel = .ok s' ∧ Steps T env s s' ∧
      (∀ b ∈ s'.setBlockIndexValid, ∃ w, s'.chainMostWork.tip = some w ∧ rank b ≤ rank w) ∧
      ∀ w, s'.chainMostWork.tip = some w →
        s'.Clean w ∨ s'.setBlockIndexValid.length < s.setBlockIndexValid.length := by
  obtain ⟨hdrop, hsame, hdact, htip⟩ := dropFailedTip_spec env h
  have hd := h.steps hdrop
  obtain ⟨r, s', hsel, hrun, hact, hmost, hgr, hclean, hless⟩ :=
    selectCandidate_spec env hd (by rw [hsame.setBlockIndexValid]; exact hfuel)
  have hs' := hd.steps hrun
  rw [findMostWorkChain, hsel]
  cases r with
  | none =>
    have hempty := greatest_eq_none hgr
    refine ⟨s', rfl, hdrop.trans hrun, by simp [hempty], fun w hw => ?_⟩
    -- the tip left is a candidate as long as it is not failed
    rcases hless with rfl | hless
    · have hmem := (hd.mem_valid w).mpr ⟨hd.mostWork_mem w hw, htip w hw⟩
      simp [hempty] at hmem
    · exact .inr (hsame.setBlockIndexValid ▸ hless)
  | some w =>
    obtain ⟨hw, hle⟩ := greatest_eq_some hgr
    have hadopt : ChainStep T env s' (s'.setMostWork (some w)) := .adopt hw
    have hnew : ∀ b ∈ (s'.setMostWork (some w)).setBlockIndexValid,
        ∃ w', (s'.setMostWork (some w)).chainMostWork.tip = some w' ∧ rank b ≤ rank w' :=
      fun b hb => ⟨w, hs'.tip_setMostWork _, hle b hb⟩
    have hnewClean : ∀ w', (s'.setMostWork (some w)).chainMostWork.tip = some w' →
        (s'.setMostWork (some w)).Clean w' := by
      intro w' hw'
      rw [hs'.tip_setMostWork] at hw'
      cases hw'
      exact hclean w rfl
    dsimp only [adoptCandidate]
    cases ht : s'.chainMostWork.tip with
    | none => exact ⟨_, rfl, (hdrop.trans hrun).tail hadopt, hnew, fun w' hw' => .inl (hnewClean w' hw')⟩
    | some t =>
      dsimp only
      by_cases hlt : workLess t w = true
      · rw [if_pos hlt]
        exact ⟨_, rfl, (hdrop.trans hrun).tail hadopt, hnew, fun w' hw' => .inl (hnewClean w' hw')⟩
      · rw [if_neg hlt]
        rw [workLess_iff, not_lt] at hlt
        refine ⟨s', rfl, hdrop.trans hrun, fun b hb => ⟨t, ht, (hle b hb).trans hlt⟩, fun w' hw' => ?_⟩
        cases ht.symm.trans hw'
        rcases hless with rfl | hless
        · -- no candidate was taken away, so that the tip is still one, and the best
          have htT := hd.mostWork_mem t ht
          have hmem := (hd.mem_valid t).mpr ⟨htT, htip t ht⟩
          have heq := T.rank_inj t htT w ((hd.mem_valid w).mp hw).1 (le_antisymm (hle t hmem) hlt)
          exact .inl (heq ▸ hclean w rfl)
        · exact .inr (hsame.setBlockIndexValid ▸ hless)

/-! ## Disconnecting and connecting -/

theorem contains_tip (h : s.chainActive.IsPath (some b)) : s.chainActive.contains b = true :=
  h.contains_iff.mpr ⟨b, rfl, b.mem_path_self⟩

/-- Blocks of a tree meet in its genesis, so that the tip of a chain that does not meet the
other has a predecessor. -/
theorem pprev_of_not_mem {t : CBlockIndex} (ht : t ∈ T) (hw : w ∈ T) (hmem : t ∉ w.path) :
    ∃ p, t.pprev = some p := by
  cases t with
  | root e =>
    have hgen : CBlockIndex.root e = w.genesis := T.genesis_eq (.root e) ht w hw
    exact absurd (hgen ▸ w.genesis_mem_path) hmem
  | child p e => exact ⟨p, rfl⟩

/-- The active chain is cut to where it meets the most-work chain, or disconnecting fails. -/
theorem disconnectLoop_spec : ∀ (fuel : ℕ) {s : ChainState}, s.Inv T →
    s.chainMostWork.tip = some w → (∀ t, s.chainActive.tip = some t → t.nHeight + 1 < fuel) →
    0 < fuel →
    (∃ s', s.disconnectLoop env fuel = .ok (true, s') ∧ Steps T env s s' ∧ SameBlocks s s' ∧
      s'.chainMostWork = s.chainMostWork ∧ (∀ t, s'.chainActive.tip = some t → t ∈ w.path) ∧
      ∀ x ∈ w.path, s.chainActive.contains x = true → s'.chainActive.contains x = true) ∨
    ∃ s', s.disconnectLoop env fuel = .ok (false, s') ∧ Steps T env s s' ∧
      ∃ n b, env.disconnectBlock n b = false
  | fuel + 1, s, h, hw, hfuel, _ => by
    have hmost := h.mostWork
    rw [hw] at hmost
    rw [disconnectLoop]
    cases ht : s.chainActive.tip with
    | none => exact .inl ⟨s, rfl, .refl, ⟨rfl, rfl⟩, rfl, by simp [ht], fun x _ hx => hx⟩
    | some t =>
      dsimp only
      by_cases hmem : t ∈ w.path
      · rw [if_pos (hmost.contains_iff.mpr ⟨w, rfl, hmem⟩)]
        refine .inl ⟨s, rfl, .refl, ⟨rfl, rfl⟩, rfl, fun t' ht' => ?_, fun x _ hx => hx⟩
        cases ht.symm.trans ht'
        exact hmem
      have hnot : ¬s.chainMostWork.contains t = true := by
        intro hc
        obtain ⟨w', hw', hm⟩ := hmost.contains_iff.mp hc
        cases hw'
        exact hmem hm
      rw [if_neg hnot, disconnectTip]
      by_cases henv : env.disconnectBlock s.nAttempts t = true
      · obtain ⟨p, hp⟩ := pprev_of_not_mem (h.active_mem t ht) (h.mostWork_mem w hw) hmem
        have hstep : ChainStep T env s (s.attempted.setActive (some p)) := .disconnect ht hp
        have htip := h.attempted.tip_setActive (some p)
        have hheight : p.nHeight + 1 = t.nHeight := by
          cases t with
          | root e => cases hp
          | child q e => cases hp; rfl
        have hkeep : ∀ x ∈ w.path, s.chainActive.contains x = true →
            (s.attempted.setActive (some p)).chainActive.contains x = true := by
          intro x hxw hx
          have hpath := (h.step hstep).active
          rw [htip] at hpath
          obtain ⟨t', ht', hxt⟩ := h.active.contains_iff.mp hx
          cases ht.symm.trans ht'
          refine hpath.contains_iff.mpr ⟨p, rfl, ?_⟩
          cases t with
          | root e => cases hp
          | child q e =>
            cases hp
            refine (CBlockIndex.mem_path_child.mp hxt).resolve_right fun heq => ?_
            exact hmem (heq ▸ hxw)
        simp only [henv, if_true, hp]
        have hbelow : ∀ t', (s.attempted.setActive (some p)).chainActive.tip = some t' →
            t'.nHeight + 1 < fuel := by
          intro t' ht'
          cases htip.symm.trans ht'
          have := hfuel t ht
          omega
        have hpos : 0 < fuel := by
          have := hfuel t ht
          omega
        rcases disconnectLoop_spec fuel (h.step hstep) hw hbelow hpos with
          ⟨s', hs', hrun, hsame, hmw, htip', hkeep'⟩ | ⟨s', hs', hrun, hfail⟩
        · exact .inl ⟨s', hs', hrun.head hstep, ⟨hsame.1, hsame.2⟩, hmw, htip',
            fun x hxw hx => hkeep' x hxw (hkeep x hxw hx)⟩
        · exact .inr ⟨s', hs', hrun.head hstep, hfail⟩
      · rw [if_neg henv]
        exact .inr ⟨_, rfl, .single (.attempt s), s.nAttempts, t, Bool.eq_false_iff.mpr henv⟩

/-- The block above the active tip on the way to the tip of the most-work chain. -/
theorem next_block (h : s.Inv T) (hw : s.chainMostWork.tip = some w)
    (hmem : ∀ t, s.chainActive.tip = some t → t ∈ w.path)
    (hnot : ¬s.chainActive.contains w = true) :
    ∃ p, s.chainMostWork.at? s.chainActive.vChain.length = some p ∧ p ∈ w.path ∧
      p.pprev = s.chainActive.tip ∧ p.nHeight = s.chainActive.vChain.length := by
  have hmost := h.mostWork
  rw [hw] at hmost
  have hact := h.active
  have hlt : s.chainActive.vChain.length < w.path.length := by
    rw [hact]
    cases ht : s.chainActive.tip with
    | none =>
      rw [CBlockIndex.length_path]
      exact Nat.succ_pos _
    | some t =>
      rw [CChain.pathOf, List.length_map]
      refine lt_of_le_of_ne (CBlockIndex.path_prefix_of_mem (hmem t ht)).length_le fun heq => hnot ?_
      rw [CBlockIndex.length_path, CBlockIndex.length_path] at heq
      have htw := CBlockIndex.eq_of_mem_path (hmem t ht) w.mem_path_self (by omega)
      rw [ht, htw] at hact
      exact contains_tip hact
  obtain ⟨p, hp⟩ : ∃ p, w.path[s.chainActive.vChain.length]? = some p :=
    ⟨_, List.getElem?_eq_getElem hlt⟩
  obtain ⟨hpw, hheight⟩ := CBlockIndex.getElem?_path.mp hp
  refine ⟨p, hmost.at?_eq_some.mpr ⟨w, rfl, hpw, hheight⟩, hpw, ?_, hheight⟩
  cases ht : s.chainActive.tip with
  | none =>
    rw [hact, ht] at hheight
    cases p with
    | root e => rfl
    | child q e => cases hheight
  | some t =>
    rw [hact, ht, CChain.pathOf, List.length_map, CBlockIndex.length_path] at hheight
    cases p with
    | root e => cases hheight
    | child q e =>
      have hqw := CBlockIndex.mem_path_trans
        (CBlockIndex.mem_path_child.mpr (.inl q.mem_path_self)) hpw
      have hh : q.nHeight + 1 = t.nHeight + 1 := hheight
      exact congrArg some (CBlockIndex.eq_of_mem_path hqw (hmem t ht) (Nat.succ.inj hh))

/-- A block tried in a run of steps : it is next on the way to the most-work chain, and no
candidate is better than that. -/
structure Tried (T : BlockTree) (s s' : ChainState) (w p : CBlockIndex) : Prop where
  run : Steps T env s s'
  tip : s'.chainMostWork.tip = some w
  best : ∀ b ∈ s'.setBlockIndexValid, rank b ≤ rank w
  mem : p ∈ w.path
  pprev : p.pprev = s'.chainActive.tip

theorem Tried.of_steps {s₁ : ChainState} {p : CBlockIndex} (hrun : Steps T env s s₁)
    (h : Tried env T s₁ s' w p) : Tried env T s s' w p :=
  ⟨hrun.trans h.run, h.tip, h.best, h.mem, h.pprev⟩

/-- A block was rejected for possible corruption between two states. -/
def CorruptBetween (T : BlockTree) (s s' : ChainState) : Prop :=
  ∃ s₁ w p, Tried env T s s₁ w p ∧ s₁.nAttempts < s'.nAttempts ∧
    env.connectBlock s₁.nAttempts p = .invalid true

/-- A system error occurred. -/
def ErrorIn (T : BlockTree) (s : ChainState) : Prop :=
  (∃ n b, env.disconnectBlock n b = false) ∨
    ∃ s₁ w p, Tried env T s s₁ w p ∧ env.connectBlock s₁.nAttempts p = .error

/-- A genesis was rejected. -/
def GenesisRejected (T : BlockTree) (s : ChainState) : Prop :=
  ∃ s₁ w e, Tried env T s s₁ w (.root e) ∧ env.connectBlock s₁.nAttempts (.root e) = .invalid false

theorem CorruptBetween.of_steps {s₁ : ChainState} (hrun : Steps T env s s₁)
    (h : CorruptBetween env T s₁ s') : CorruptBetween env T s s' := by
  obtain ⟨s₂, w, p, htried, hlt, henv⟩ := h
  exact ⟨s₂, w, p, htried.of_steps env hrun, hlt, henv⟩

theorem ErrorIn.of_steps {s₁ : ChainState} (hrun : Steps T env s s₁) (h : ErrorIn env T s₁) :
    ErrorIn env T s := by
  refine h.imp_right fun ⟨s₂, w, p, htried, henv⟩ => ⟨s₂, w, p, htried.of_steps env hrun, henv⟩

theorem GenesisRejected.of_steps {s₁ : ChainState} (hrun : Steps T env s s₁)
    (h : GenesisRejected env T s₁) : GenesisRejected env T s := by
  obtain ⟨s₂, w, e, htried, henv⟩ := h
  exact ⟨s₂, w, e, htried.of_steps env hrun, henv⟩

/-- How the loop that connects blocks may end. A rejection is for possible corruption, or
takes away a candidate if the chain to connect was clean. -/
def ConnectPost (T : BlockTree) (s : ChainState) (w : CBlockIndex) :
    Except Halt (Connected × ChainState) → Prop
  | .ok (.complete, s') => Steps T env s s' ∧ SameBlocks s s' ∧ s'.chainActive.tip = some w
  | .ok (.retry, s') => Steps T env s s' ∧ (CorruptBetween env T s s' ∨
      (s.Clean w → s'.setBlockIndexValid.length < s.setBlockIndexValid.length))
  | .ok (.systemError, s') => Steps T env s s' ∧ ErrorIn env T s
  | .error .abort => GenesisRejected env T s
  | .error .outOfFuel => False

theorem length_markInvalid_lt (h : b ∈ s.setBlockIndexValid) :
    (s.markInvalid b).setBlockIndexValid.length < s.setBlockIndexValid.length :=
  length_eraseValid_lt (s := { s with nStatus := _ }) h

/-- A step that connects a block of the most-work chain keeps what the loop needs. -/
theorem ConnectPost.head {s₁ : ChainState} (hstep : ChainStep T env s s₁) (hsame : SameBlocks s s₁)
    (hclean : s.Clean w → s₁.Clean w) :
    ∀ {r : Except Halt (Connected × ChainState)}, ConnectPost env T s₁ w r →
      ConnectPost env T s w r
  | .ok (.complete, _), h => ⟨h.1.head hstep, hsame.trans h.2.1, h.2.2⟩
  | .ok (.retry, _), h => ⟨h.1.head hstep, h.2.imp (CorruptBetween.of_steps env (.single hstep))
      fun hless hc => (hless (hclean hc)).trans_le (hsame.1 ▸ le_rfl)⟩
  | .ok (.systemError, _), h => ⟨h.1.head hstep, h.2.of_steps env (.single hstep)⟩
  | .error .abort, h => GenesisRejected.of_steps env (.single hstep) h
  | .error .outOfFuel, h => h

theorem connectLoop_spec : ∀ (fuel : ℕ) {s : ChainState}, s.Inv T →
    s.chainMostWork.tip = some w → (∀ b ∈ s.setBlockIndexValid, rank b ≤ rank w) →
    (∀ t, s.chainActive.tip = some t → t ∈ w.path) →
    w.nHeight + 1 < fuel + s.chainActive.vChain.length →
    ConnectPost env T s w (s.connectLoop env fuel)
  | 0, s, h, hw, hbest, hmem, hfuel => by
    have hact := h.active
    cases ht : s.chainActive.tip with
    | none =>
      rw [hact, ht] at hfuel
      simp [CChain.pathOf] at hfuel
    | some t =>
      have hle := CBlockIndex.nHeight_le_of_mem (hmem t ht)
      rw [hact, ht, CChain.pathOf, List.length_map, CBlockIndex.length_path] at hfuel
      omega
  | fuel + 1, s, h, hw, hbest, hmem, hfuel => by
    rw [connectLoop, hw]
    dsimp only
    by_cases hcont : s.chainActive.contains w = true
    · rw [if_pos hcont]
      obtain ⟨t, ht, hwt⟩ := h.active.contains_iff.mp hcont
      have heq := CBlockIndex.eq_of_mem_path (hmem t ht) w.mem_path_self (le_antisymm
        (CBlockIndex.nHeight_le_of_mem (hmem t ht)) (CBlockIndex.nHeight_le_of_mem hwt))
      exact ⟨.refl, ⟨rfl, rfl⟩, heq ▸ ht⟩
    rw [if_neg hcont]
    obtain ⟨p, hat, hpw, hprev, hheight⟩ := next_block h hw hmem hcont
    have hpT := BlockTree.mem_of_path (h.mostWork_mem w hw) hpw
    have htried : Tried env T s s w p := ⟨.refl, hw, hbest, hpw, hprev⟩
    rw [hat]
    simp only [connectTip, hprev, ne_eq, not_true, if_false]
    cases henv : env.connectBlock s.nAttempts p with
    | ok =>
      have hstep : ChainStep T env s (s.attempted.setActive (some p)) := .connect hpT hprev henv
      have htip := h.attempted.tip_setActive (some p)
      have hpath := (h.step hstep).active
      rw [htip] at hpath
      refine ConnectPost.head env hstep ⟨rfl, rfl⟩ (fun hc x hx => ?_) ?_
      · refine (hc x hx).imp_left fun hx' => hpath.contains_iff.mpr ⟨p, rfl, ?_⟩
        obtain ⟨t, ht, hxt⟩ := h.active.contains_iff.mp hx'
        cases p with
        | root e => rw [ht] at hprev; cases hprev
        | child q e =>
          cases hprev.trans ht
          exact CBlockIndex.mem_path_child.mpr (.inl hxt)
      · refine connectLoop_spec fuel (h.step hstep) hw hbest (fun t' ht' => ?_) ?_
        · cases htip.symm.trans ht'
          exact hpw
        · rw [hpath, CChain.pathOf, List.length_map, CBlockIndex.length_path, hheight]
          omega
    | error => exact ⟨.single (.attempt s), .inr ⟨s, w, p, htried, henv⟩⟩
    | invalid corruptionPossible =>
      cases corruptionPossible with
      | true =>
        simp only [invalidBlockFound, if_true, Except.map]
        exact ⟨.single (.attempt s), .inl ⟨s, w, p, htried, Nat.lt_succ_self _, henv⟩⟩
      | false =>
        simp only [invalidBlockFound, Bool.false_eq_true, if_false, invalidChainFound]
        have hstep : ChainStep T env s (s.attempted.markInvalid p) := .reject hpT hprev henv
        have hact : (s.attempted.markInvalid p).chainActive = s.chainActive := rfl
        rw [hact]
        cases ht : s.chainActive.tip with
        | none =>
          -- only a genesis is connected to an empty chain
          cases p with
          | root e => exact ⟨s, w, e, htried, henv⟩
          | child q e => rw [ht] at hprev; cases hprev
        | some t =>
          obtain ⟨o, ho⟩ := noteBestInvalid_eq (s.attempted.markInvalid p) p
          have hn1 : ChainStep T env (s.attempted.markInvalid p)
              ((s.attempted.markInvalid p).noteBestInvalid p) := .noteBestInvalid _ p
          have hn2 : ChainStep T env ((s.attempted.markInvalid p).noteBestInvalid p)
              (((s.attempted.markInvalid p).noteBestInvalid p).noteBestInvalid w) :=
            .noteBestInvalid _ w
          have htip : ((s.attempted.markInvalid p).noteBestInvalid p).chainActive.tip = some t := by
            rw [ho]
            exact ht
          simp only [Except.map, htip]
          refine ⟨((Relation.ReflTransGen.single hstep).tail hn1).tail hn2, .inr fun hc => ?_⟩
          have hnotact : ¬s.chainActive.contains p = true := by
            intro hcp
            obtain ⟨t', ht', hpt⟩ := h.active.contains_iff.mp hcp
            have hle := CBlockIndex.nHeight_le_of_mem hpt
            have hlen := h.active
            rw [ht'] at hlen
            rw [hlen, CChain.pathOf, List.length_map, CBlockIndex.length_path] at hheight
            omega
          have hpmem := (h.mem_valid p).mpr ⟨hpT, (hc p hpw).resolve_left hnotact⟩
          exact (hn2.mono.1.trans hn1.mono.1).trans_lt
            (length_markInvalid_lt (s := s.attempted) hpmem)

/-! ## Fuel -/

theorem selectCandidate_succ : ∀ {fuel : ℕ} {s : ChainState},
    selectCandidate fuel s ≠ .error .outOfFuel →
    selectCandidate (fuel + 1) s = selectCandidate fuel s
  | 0, s, h => absurd rfl h
  | fuel + 1, s, h => by
    unfold selectCandidate at h ⊢
    split
    · rfl
    · rename_i w hw
      simp only [hw] at h
      split
      · rfl
      · rename_i y hy
        simp only [hy] at h
        exact selectCandidate_succ h

theorem findMostWorkChain_succ {fuel : ℕ} (h : s.findMostWorkChain fuel ≠ .error .outOfFuel) :
    s.findMostWorkChain (fuel + 1) = s.findMostWorkChain fuel := by
  unfold findMostWorkChain at h ⊢
  rw [selectCandidate_succ fun heq => h (by rw [heq])]

theorem disconnectLoop_succ : ∀ {fuel : ℕ} {s : ChainState},
    s.disconnectLoop env fuel ≠ .error .outOfFuel →
    s.disconnectLoop env (fuel + 1) = s.disconnectLoop env fuel
  | 0, s, h => absurd rfl h
  | fuel + 1, s, h => by
    unfold disconnectLoop at h ⊢
    split
    · rfl
    · rename_i t ht
      simp only [ht] at h
      split
      · rfl
      · rename_i hc
        simp only [if_neg hc] at h
        split
        · rfl
        · rfl
        · rename_i hd
          simp only [hd] at h
          exact disconnectLoop_succ h

theorem connectLoop_succ : ∀ {fuel : ℕ} {s : ChainState},
    s.connectLoop env fuel ≠ .error .outOfFuel →
    s.connectLoop env (fuel + 1) = s.connectLoop env fuel
  | 0, s, h => absurd rfl h
  | fuel + 1, s, h => by
    unfold connectLoop at h ⊢
    split
    · rfl
    · rename_i w hw
      simp only [hw] at h
      split
      · rfl
      · rename_i hc
        simp only [if_neg hc] at h
        split
        · rfl
        · rename_i p hp
          simp only [hp] at h
          split
          · rfl
          · rename_i hd
            simp only [hd] at h
            exact connectLoop_succ h
          · rfl
          · rfl

theorem activateTurn_succ {fuel : ℕ} (h : s.activateTurn env fuel ≠ .error .outOfFuel) :
    s.activateTurn env (fuel + 1) = s.activateTurn env fuel := by
  unfold activateTurn at h ⊢
  have hfind : s.findMostWorkChain fuel ≠ .error .outOfFuel := fun heq => by simp [heq] at h
  rw [findMostWorkChain_succ hfind]
  split
  · rfl
  · rename_i s₁ hs₁
    simp only [hs₁] at h
    split
    · rfl
    · rename_i hw
      simp only [if_neg hw] at h
      have hdis : s₁.disconnectLoop env fuel ≠ .error .outOfFuel := fun heq => by simp [heq] at h
      rw [disconnectLoop_succ env hdis]
      split
      · rfl
      · rfl
      · rename_i s₂ hs₂
        simp only [hs₂] at h
        have hcon : s₂.connectLoop env fuel ≠ .error .outOfFuel := fun heq => by simp [heq] at h
        rw [connectLoop_succ env hcon]

/-- More fuel does not change how a turn ends. -/
theorem activateTurn_mono {fuel k : ℕ} (h : s.activateTurn env fuel ≠ .error .outOfFuel)
    (hk : fuel ≤ k) : s.activateTurn env k = s.activateTurn env fuel := by
  induction k, hk using Nat.le_induction with
  | base => rfl
  | succ k _ ih => rw [activateTurn_succ env (ih ▸ h), ih]

theorem activateBestChain_succ : ∀ {fuel : ℕ} {s : ChainState},
    s.activateBestChain env fuel ≠ .error .outOfFuel →
    s.activateBestChain env (fuel + 1) = s.activateBestChain env fuel
  | 0, s, h => absurd rfl h
  | fuel + 1, s, h => by
    unfold activateBestChain at h ⊢
    have hturn : s.activateTurn env fuel ≠ .error .outOfFuel := fun heq => by simp [heq] at h
    rw [activateTurn_succ env hturn]
    split
    · rfl
    · rfl
    · rename_i s₁ hs₁
      simp only [hs₁] at h
      exact activateBestChain_succ h

/-- More fuel does not change how a call ends. -/
theorem activateBestChain_mono {fuel k : ℕ} (h : s.activateBestChain env fuel ≠ .error .outOfFuel)
    (hk : fuel ≤ k) : s.activateBestChain env k = s.activateBestChain env fuel := by
  induction k, hk using Nat.le_induction with
  | base => rfl
  | succ k _ ih => rw [activateBestChain_succ env (ih ▸ h), ih]

/-! ## ActivateBestChain -/

/-- No candidate is better than the active tip. -/
def TipBest (s : ChainState) : Prop :=
  ∀ b ∈ s.setBlockIndexValid, ∃ w, s.chainActive.tip = some w ∧ rank b ≤ rank w

/-- How a turn may end. After one that is not the last, a block was rejected for possible
corruption or a candidate was taken away. -/
def TurnPost (T : BlockTree) (s : ChainState) : Except Halt (Option Bool × ChainState) → Prop
  | .ok (some true, s') => Steps T env s s' ∧ s'.TipBest
  | .ok (some false, s') => Steps T env s s' ∧ ErrorIn env T s
  | .ok (none, s') => Steps T env s s' ∧ (CorruptBetween env T s s' ∨
      s'.setBlockIndexValid.length < s.setBlockIndexValid.length)
  | .error .abort => GenesisRejected env T s
  | .error .outOfFuel => False

theorem activateTurn_spec (fuel : ℕ) (hpos : 0 < fuel) (hK : ∀ b ∈ T, b.nHeight + 1 < fuel)
    (hfuel : s.setBlockIndexValid.length < fuel) (h : s.Inv T) :
    TurnPost env T s (s.activateTurn env fuel) := by
  obtain ⟨s₁, hfind, hrun₁, hbest, hclean⟩ := findMostWorkChain_spec env hfuel h
  have h₁ := h.steps hrun₁
  rw [activateTurn, hfind]
  dsimp only
  cases hw : s₁.chainMostWork.tip with
  | none =>
    rw [if_pos rfl]
    refine ⟨hrun₁, fun b hb => ?_⟩
    obtain ⟨w, hw', -⟩ := hbest b hb
    cases hw.symm.trans hw'
  | some w =>
    rw [if_neg nofun]
    have hbest' : ∀ b ∈ s₁.setBlockIndexValid, rank b ≤ rank w := by
      intro b hb
      obtain ⟨w', hw', hle⟩ := hbest b hb
      cases hw.symm.trans hw'
      exact hle
    have hheight := hK w (h₁.mostWork_mem w hw)
    rcases disconnectLoop_spec env fuel h₁ hw (fun t ht => hK t (h₁.active_mem t ht)) hpos with
      ⟨s₂, hdis, hrun₂, hsame, hmost, hmem, hkeep⟩ | ⟨s₂, hdis, hrun₂, hfail⟩
    · have h₂ := h₁.steps hrun₂
      have hrun₀₂ := hrun₁.trans hrun₂
      have hconn := connectLoop_spec env fuel h₂ (hmost ▸ hw)
        (hsame.setBlockIndexValid ▸ hbest') hmem (by omega)
      rw [hdis]
      dsimp only
      cases hc : s₂.connectLoop env fuel with
      | error e =>
        rw [hc] at hconn
        cases e with
        | abort => exact GenesisRejected.of_steps env hrun₀₂ hconn
        | outOfFuel => exact hconn.elim
      | ok r =>
        rw [hc] at hconn
        obtain ⟨c, s₃⟩ := r
        cases c with
        | complete =>
          obtain ⟨hrun₃, hsame', htip⟩ := hconn
          refine ⟨hrun₀₂.trans hrun₃, fun b hb => ⟨w, htip, hbest' b ?_⟩⟩
          rwa [(hsame.trans hsame').setBlockIndexValid] at hb
        | systemError => exact ⟨hrun₀₂.trans hconn.1, hconn.2.of_steps env hrun₀₂⟩
        | retry =>
          obtain ⟨hrun₃, hwhy⟩ := hconn
          refine ⟨hrun₀₂.trans hrun₃, hwhy.imp (CorruptBetween.of_steps env hrun₀₂) fun hless => ?_⟩
          have hm₁ := hrun₁.mono.1
          have hm₂ := hrun₂.mono.1
          have hm₃ := hrun₃.mono.1
          rcases hclean w hw with hc₁ | hless₁
          · have hless₂ := hless fun x hx => (hc₁ x hx).imp (hkeep x hx)
              fun hf => (hsame.failed x).trans hf
            omega
          · omega
    · rw [hdis]
      exact ⟨hrun₁.trans hrun₂, .inl hfail⟩

/-- With the fuel it needs or less, a turn that ends does so as described. -/
theorem turnPost_of_ne (fuel : ℕ) (h : s.Inv T) (hne : s.activateTurn env fuel ≠ .error .outOfFuel) :
    TurnPost env T s (s.activateTurn env fuel) := by
  obtain ⟨K, hK⟩ := T.exists_height_bound
  obtain ⟨k, hle, hk⟩ : ∃ k, fuel ≤ k ∧ s.setBlockIndexValid.length + K + 1 ≤ k :=
    ⟨_, Nat.le_max_left _ _, Nat.le_max_right _ _⟩
  rw [← activateTurn_mono env hne hle]
  refine activateTurn_spec env k (by omega) (fun b hb => ?_) (by omega) h
  have := hK b hb
  omega

/-- How a call may end : with an active tip that no candidate is better than, or for a
reason outside. -/
def ActivatePost (T : BlockTree) (s : ChainState) : Except Halt (Bool × ChainState) → Prop
  | .ok (true, s') => Steps T env s s' ∧ s'.TipBest
  | .ok (false, s') => Steps T env s s' ∧ ErrorIn env T s
  | .error .abort => GenesisRejected env T s
  | .error .outOfFuel => True

theorem ActivatePost.of_steps {s₁ : ChainState} (hrun : Steps T env s s₁) :
    ∀ {r : Except Halt (Bool × ChainState)}, ActivatePost env T s₁ r → ActivatePost env T s r
  | .ok (true, _), h => ⟨hrun.trans h.1, h.2⟩
  | .ok (false, _), h => ⟨hrun.trans h.1, h.2.of_steps env hrun⟩
  | .error .abort, h => GenesisRejected.of_steps env hrun h
  | .error .outOfFuel, h => h

theorem activateBestChain_post : ∀ (fuel : ℕ) {s : ChainState}, s.Inv T →
    ActivatePost env T s (s.activateBestChain env fuel)
  | 0, _, _ => trivial
  | fuel + 1, s, h => by
    rw [activateBestChain]
    have hturn := turnPost_of_ne env fuel h
    cases hc : s.activateTurn env fuel with
    | error e =>
      rw [hc] at hturn
      cases e with
      | abort => exact hturn nofun
      | outOfFuel => trivial
    | ok r =>
      rw [hc] at hturn
      obtain ⟨o, s'⟩ := r
      match o with
      | some true => exact hturn nofun
      | some false => exact hturn nofun
      | none =>
        obtain ⟨hrun, -⟩ := hturn nofun
        exact .of_steps env hrun (activateBestChain_post fuel (h.steps hrun))

/-- A call that returned is a run of steps. -/
theorem Inv.steps_of_call (h : s.Inv T) {fuel : ℕ} {r : Bool}
    (hcall : s.activateBestChain env fuel = .ok (r, s')) : Steps T env s s' := by
  have hpost := activateBestChain_post env fuel h
  rw [hcall] at hpost
  cases r with
  | true => exact hpost.1
  | false => exact hpost.1

/-- If no attempt from `N` on is rejected for possible corruption, each turn of the loop
that is not the last uses up an attempt before `N` or a candidate. -/
theorem activateBestChain_ne {N K : ℕ} (hK : ∀ b ∈ T, b.nHeight + 1 < K) (hpos : 0 < K) :
    ∀ {fuel : ℕ} {s : ChainState}, s.Inv T →
      (∀ s₁ w p, Tried env T s s₁ w p → env.connectBlock s₁.nAttempts p = .invalid true →
        s₁.nAttempts < N) →
      N - s.nAttempts + s.setBlockIndexValid.length + K < fuel →
      s.activateBestChain env fuel ≠ .error .outOfFuel
  | fuel + 1, s, h, hN, hfuel => by
    have hturn := activateTurn_spec env fuel (by omega)
      (fun b hb => (hK b hb).trans_le (by omega)) (by omega) h
    rw [activateBestChain]
    cases hc : s.activateTurn env fuel with
    | error e =>
      rw [hc] at hturn
      cases e with
      | abort => nofun
      | outOfFuel => exact hturn.elim
    | ok r =>
      rw [hc] at hturn
      obtain ⟨o, s'⟩ := r
      match o with
      | some r => nofun
      | none =>
        obtain ⟨hrun, hwhy⟩ := hturn
        have hmono := hrun.mono
        refine activateBestChain_ne hK hpos (h.steps hrun)
          (fun s₁ w p htried => hN s₁ w p (htried.of_steps env hrun)) ?_
        rcases hwhy with ⟨s₁, w, p, htried, hlt, henv⟩ | hless
        · have hlt' := hN s₁ w p htried henv
          have hle := htried.run.mono.2
          omega
        · omega

/-- A call ends if finitely many of the attempts it may come to are rejected for possible
corruption. -/
theorem Inv.terminates (h : s.Inv T) {N : ℕ}
    (hN : ∀ s₁ w p, Tried env T s s₁ w p → env.connectBlock s₁.nAttempts p = .invalid true →
      s₁.nAttempts < N) : ∃ fuel, s.activateBestChain env fuel ≠ .error .outOfFuel := by
  obtain ⟨K, hK⟩ := T.exists_height_bound
  exact ⟨_, activateBestChain_ne env (fun b hb => Nat.succ_lt_succ (hK b hb)) K.succ_pos h hN
    (Nat.lt_succ_self _)⟩

end ChainState

end Ticoin
