import Ticoin.BestChainRuns

/-!
# Calls of ActivateBestChain over whole runs

A run inserts blocks, parents first, and calls `ActivateBestChain`, in any order. Its states
keep `Inv`, and `Sound` when blocks have verdicts of their own.

A block rejected for possible corruption stays a candidate, so that the call tries it again.
`activateBestChain_terminates` says when calls end all the same : if there are finitely many
such rejections, and, for verdicts that are fixed, exactly if the best chain not rejected
for another reason meets no such block. `activateBestChain_hangs` is a call that does not
end, two blocks into a run.

When each block is either valid or rejected for good, every call returns, and the tip it
leaves is the best of the blocks on valid chains (`activateBestChain_best`).
-/

namespace Ticoin

namespace ChainState

variable {s s' : ChainState} {b w : CBlockIndex} {T : BlockTree} (env : BlockEnv)

/-! ## Runs -/

/-- The states of a run that inserts blocks and calls `ActivateBestChain`, with the tree of
the blocks inserted. -/
inductive Reach : BlockTree → ChainState → Prop
  | init : Reach .empty .init
  | insert {T : BlockTree} {s : ChainState} (h : Reach T s) (b : CBlockIndex)
      (hb : T.Fresh b) : Reach (T.insert b hb) (s.insertBlock b)
  | activate {T : BlockTree} {s s' : ChainState} {fuel : ℕ} {r : Bool} (h : Reach T s)
      (hcall : s.activateBestChain env fuel = .ok (r, s')) : Reach T s'

/-- From some attempt on, no block is rejected for possible corruption. -/
def FinitelyCorrupt : Prop := ∃ N, ∀ n b, N ≤ n → env.connectBlock n b ≠ .invalid true

variable {env}

theorem Reach.inv (h : Reach env T s) : s.Inv T := by
  induction h with
  | init => exact .init
  | insert _ b hb ih => exact ih.insertBlock hb
  | activate _ hcall ih => exact ih.steps (ih.steps_of_call env hcall)

theorem Reach.sound {v : CBlockIndex → Verdict} (hv : FixedVerdicts env v) (h : Reach env T s) :
    s.Sound v := by
  induction h with
  | init => exact .init v
  | insert _ b _ ih => exact ih.insertBlock b
  | activate hs hcall ih => exact ih.steps hv hs.inv (hs.inv.steps_of_call env hcall)

/-- Under verdicts that are fixed, the chain of a block that is tried has a fate no candidate
is above. -/
theorem Tried.fate {v : CBlockIndex → Verdict} {p : CBlockIndex} (hv : FixedVerdicts env v)
    (hi : s.Inv T) (hs : s.Sound v) (h : Tried env T s s' w p)
    (hbad : env.connectBlock s'.nAttempts p ≠ .ok) :
    w ∈ T ∧ ChainState.fate v w = env.connectBlock s'.nAttempts p ∧
      ∀ b ∈ T, ChainState.fate v b ≠ .invalid false → rank b ≤ rank w := by
  have hi' := hi.steps h.run
  have hs' := hs.steps hv hi h.run
  have hfate := hs'.connect hv h.pprev s'.nAttempts
  refine ⟨hi'.mostWork_mem w h.tip, ?_, fun b hb hbf => h.best b ((hi'.mem_valid b).mpr ⟨hb, ?_⟩)⟩
  · rw [hfate]
    exact fate_of_mem (hfate ▸ hbad) h.mem
  · by_contra hf
    exact hbf (hs'.failed b (by simpa using hf))

/-- The best of the blocks whose chain is not rejected, unless for possible corruption. -/
structure BestUnrejected (T : BlockTree) (v : CBlockIndex → Verdict) (g : CBlockIndex) : Prop where
  mem : g ∈ T
  fate : fate v g ≠ .invalid false
  best : ∀ b ∈ T, ChainState.fate v b ≠ .invalid false → workLess g b = false

theorem BestUnrejected.rank_le {v : CBlockIndex → Verdict} {g : CBlockIndex}
    (h : BestUnrejected T v g) (hb : b ∈ T) (hf : ChainState.fate v b ≠ .invalid false) :
    rank b ≤ rank g := by
  have hle := h.best b hb hf
  rwa [← Bool.not_eq_true, workLess_iff, not_lt] at hle

/-- Under verdicts that are fixed, a call hangs exactly if the chain of the best block that
is not rejected meets a block rejected for possible corruption. -/
theorem Inv.terminates_iff {v : CBlockIndex → Verdict} (hv : FixedVerdicts env v) (hi : s.Inv T)
    (hs : s.Sound v) : (∃ fuel, s.activateBestChain env fuel ≠ .error .outOfFuel) ↔
      ∀ g, BestUnrejected T v g → ChainState.fate v g ≠ .invalid true := by
  constructor
  · rintro ⟨fuel, hne⟩ g hg hcorrupt
    have hpost := activateBestChain_post env fuel hi
    -- a block whose chain is not rejected and which is no worse is the best one
    have heq : ∀ w ∈ T, fate v w ≠ .invalid false → rank g ≤ rank w → w = g := fun w hw hwf hle =>
      T.rank_inj w hw g hg.mem (le_antisymm (hg.rank_le hw hwf) hle)
    cases hc : s.activateBestChain env fuel with
    | error e =>
      rw [hc] at hpost hne
      cases e with
      | outOfFuel => exact hne rfl
      | abort =>
        obtain ⟨s₁, w, e, htried, henv⟩ := hpost
        obtain ⟨hw, hfate, -⟩ := htried.fate hv hi hs (by rw [henv]; nofun)
        -- the genesis rejected is that of every block
        have hgen : CBlockIndex.root e = g.genesis :=
          T.genesis_eq _ (BlockTree.mem_of_path hw htried.mem) g hg.mem
        have hroot : fate v (.root e) = .invalid false :=
          (((hs.steps hv hi htried.run).connect hv htried.pprev _).symm.trans henv)
        exact hg.fate ((fate_of_mem (by rw [hroot]; nofun)
          (hgen ▸ g.genesis_mem_path)).trans hroot)
    | ok r =>
      rw [hc] at hpost
      obtain ⟨r, s'⟩ := r
      cases r with
      | true =>
        obtain ⟨hrun, hbest⟩ := hpost
        have hi' := hi.steps hrun
        have hs' := hs.steps hv hi hrun
        have hgf : s'.failed g = false := by
          by_contra hf
          exact hg.fate (hs'.failed g (by simpa using hf))
        obtain ⟨w, hw, hle⟩ := hbest g ((hi'.mem_valid g).mpr ⟨hg.mem, hgf⟩)
        have hwf := hs'.active w hw
        rw [heq w (hi'.active_mem w hw) (by rw [hwf]; nofun) hle] at hwf
        rw [hwf] at hcorrupt
        cases hcorrupt
      | false =>
        rcases hpost.2 with ⟨n, b, hfail⟩ | ⟨s₁, w, p, htried, henv⟩
        · rw [hv.disconnect n b] at hfail
          cases hfail
        · obtain ⟨hw, hfate, hle⟩ := htried.fate hv hi hs (by rw [henv]; nofun)
          rw [henv] at hfate
          rw [heq w hw (by rw [hfate]; nofun) (hle g hg.mem hg.fate)] at hfate
          rw [hfate] at hcorrupt
          cases hcorrupt
  · intro hgood
    refine hi.terminates env (N := 0) fun s₁ w p htried henv => ?_
    obtain ⟨hw, hfate, hle⟩ := htried.fate hv hi hs (by rw [henv]; nofun)
    rw [henv] at hfate
    refine absurd hfate (hgood w ⟨hw, by rw [hfate]; nofun, fun b hb hbf => ?_⟩)
    rw [← Bool.not_eq_true, workLess_iff, not_lt]
    exact hle b hb hbf

/-- In every state of a run, a call of `ActivateBestChain` ends if blocks are rejected for
possible corruption finitely often. If each block has a verdict of its own, it ends exactly
if the chain of the best block that is not rejected meets no such block. -/
theorem activateBestChain_terminates (env : BlockEnv) (T : BlockTree) (s : ChainState) :
    (FinitelyCorrupt env → Reach env T s →
      ∃ fuel, s.activateBestChain env fuel ≠ .error .outOfFuel) ∧
    ∀ v, FixedVerdicts env v → Reach env T s →
      ((∃ fuel, s.activateBestChain env fuel ≠ .error .outOfFuel) ↔
        ∀ g, BestUnrejected T v g → fate v g ≠ .invalid true) := by
  refine ⟨fun hfin h => ?_, fun v hv h => h.inv.terminates_iff hv (h.sound hv)⟩
  obtain ⟨N, hN⟩ := hfin
  refine h.inv.terminates env (N := N) fun s₁ w p _ henv => ?_
  by_contra hle
  exact hN _ p (not_lt.mp hle) henv

/-! ### A call that does not end -/

/-- An entry for the examples. -/
def sampleEntry (n : ℕ) : BlockIndexEntry :=
  ⟨n, some (BitVec.ofNat 256 n), 1, 0, 0, 0x1e0fffff, 0, 1, UInt32.ofNat n⟩

/-- A genesis and a block on it. -/
def sampleGenesis : CBlockIndex := .root (sampleEntry 0)
def sampleChild : CBlockIndex := .child sampleGenesis (sampleEntry 1)

theorem fresh_sampleGenesis : BlockTree.empty.Fresh sampleGenesis :=
  ⟨fun _ h => absurd h List.not_mem_nil, nofun, fun _ => rfl⟩

/-- The tree of the genesis alone. -/
def genesisTree : BlockTree := BlockTree.empty.insert sampleGenesis fresh_sampleGenesis

theorem fresh_sampleChild : genesisTree.Fresh sampleChild where
  address_ne a ha := by
    rw [List.mem_singleton.mp ha]
    decide
  pprev_mem p hp := by
    cases hp
    exact List.mem_singleton_self _
  root := nofun

/-- The tree of both blocks. -/
def sampleTree : BlockTree := genesisTree.insert sampleChild fresh_sampleChild

/-- The state with the genesis connected. -/
def genesisConnected : ChainState :=
  { init.insertBlock sampleGenesis with
    chainActive := ⟨[some sampleGenesis]⟩
    chainMostWork := ⟨[some sampleGenesis]⟩
    nAttempts := 1 }

/-- The verdicts of a node whose copy of the second block is corrupted. -/
def corruptVerdict (b : CBlockIndex) : Verdict :=
  if b = sampleChild then .invalid true else .ok

def corruptEnv : BlockEnv := ⟨fun _ => corruptVerdict, fun _ _ => true⟩

theorem fixed_corruptEnv : FixedVerdicts corruptEnv corruptVerdict :=
  ⟨fun _ _ => rfl, fun _ _ _ => rfl⟩

/-- A run that inserts and connects the genesis, and inserts the second block. -/
theorem reach_sample (env : BlockEnv) (hcall : (init.insertBlock sampleGenesis).activateBestChain
    env 5 = .ok (true, genesisConnected)) :
    Reach env sampleTree (genesisConnected.insertBlock sampleChild) :=
  .insert (.activate (.insert .init _ fresh_sampleGenesis) hcall) _ fresh_sampleChild

/-- After the genesis is connected and a block is inserted whose copy is corrupted, the call
tries this block again and again. -/
theorem activateBestChain_hangs :
    Reach corruptEnv sampleTree (genesisConnected.insertBlock sampleChild) ∧
      ∀ fuel, (genesisConnected.insertBlock sampleChild).activateBestChain corruptEnv fuel =
        .error .outOfFuel := by
  have hreach := reach_sample corruptEnv rfl
  refine ⟨hreach, fun fuel => ?_⟩
  by_contra hne
  have hbest : BestUnrejected sampleTree corruptVerdict sampleChild := by
    refine ⟨List.mem_cons_self, by decide, fun b hb _ => ?_⟩
    rcases List.mem_cons.mp hb with rfl | hb
    · decide
    · rw [List.mem_singleton.mp hb]
      decide
  exact (hreach.inv.terminates_iff fixed_corruptEnv (hreach.sound fixed_corruptEnv)).mp
    ⟨fuel, hne⟩ sampleChild hbest (by decide)

/-- The calls on the sample tree end for a node whose copies of both blocks are good. -/
theorem activateBestChain_terminates_sample :
    (∃ fuel, (genesisConnected.insertBlock sampleChild).activateBestChain
      ⟨fun _ _ => .ok, fun _ _ => true⟩ fuel ≠ .error .outOfFuel) ∧
    ((∃ fuel, (genesisConnected.insertBlock sampleChild).activateBestChain
        ⟨fun _ _ => .ok, fun _ _ => true⟩ fuel ≠ .error .outOfFuel) ↔
      ∀ g, BestUnrejected sampleTree (fun _ => .ok) g → fate (fun _ => .ok) g ≠ .invalid true) :=
  ⟨(activateBestChain_terminates _ sampleTree _).1 ⟨0, fun _ _ _ => nofun⟩ (reach_sample _ rfl),
    (activateBestChain_terminates _ sampleTree _).2 _ ⟨fun _ _ => rfl, fun _ _ _ => rfl⟩
      (reach_sample _ rfl)⟩

/-! ## The best chain -/

/-- Disconnecting never fails, and connecting a block on valid ancestors succeeds if the
block is valid, as a genesis is, and is rejected, not for possible corruption, if not. -/
structure ValidityVerdicts (env : BlockEnv) (valid : CBlockIndex → Bool) : Prop where
  genesis : ∀ e, valid (.root e) = true
  disconnect : ∀ n b, env.disconnectBlock n b = true
  connect : ∀ n b, (∀ a ∈ b.path, a ≠ b → valid a = true) →
    env.connectBlock n b = if valid b then .ok else .invalid false

/-- The verdict on a block alone. -/
def verdictOf (valid : CBlockIndex → Bool) (b : CBlockIndex) : Verdict :=
  if valid b then .ok else .invalid false

theorem fate_verdictOf {valid : CBlockIndex → Bool} :
    fate (verdictOf valid) b = .ok ↔ ∀ a ∈ b.path, valid a = true := by
  refine fate_eq_ok.trans (forall₂_congr fun a _ => ?_)
  cases h : valid a <;> simp [verdictOf, h]

theorem fate_verdictOf_cases {valid : CBlockIndex → Bool} : ∀ b : CBlockIndex,
    fate (verdictOf valid) b = .ok ∨ fate (verdictOf valid) b = .invalid false
  | .root e => by
    rw [fate, verdictOf]
    split <;> simp
  | .child p e => by
    rw [fate, verdictOf]
    split
    · split <;> simp
    · exact fate_verdictOf_cases p

theorem ValidityVerdicts.fixed {valid : CBlockIndex → Bool} (hv : ValidityVerdicts env valid) :
    FixedVerdicts env (verdictOf valid) where
  disconnect := hv.disconnect
  connect n b hprev := by
    refine hv.connect n b fun a ha hne => ?_
    cases b with
    | root e => exact absurd (List.mem_singleton.mp ha) hne
    | child p e =>
      exact fate_verdictOf.mp (hprev p rfl) a ((CBlockIndex.mem_path_child.mp ha).resolve_right hne)

/-- The tip is the best of the blocks on valid chains, if there is a block. -/
def IsBestValid (T : BlockTree) (valid : CBlockIndex → Bool) (tip : Option CBlockIndex) : Prop :=
  T.nodes ≠ [] → ∃ t, tip = some t ∧ t ∈ T ∧ (∀ a ∈ t.path, valid a = true) ∧
    ∀ b ∈ T, (∀ a ∈ b.path, valid a = true) → b ≠ t → workLess b t = true

theorem TipBest.isBestValid {valid : CBlockIndex → Bool} (hv : ValidityVerdicts env valid)
    (hi : s.Inv T) (hs : s.Sound (verdictOf valid)) (h : s.TipBest) :
    IsBestValid T valid s.chainActive.tip := by
  have hmem : ∀ b ∈ T, (∀ a ∈ b.path, valid a = true) → b ∈ s.setBlockIndexValid := by
    intro b hb hbv
    refine (hi.mem_valid b).mpr ⟨hb, ?_⟩
    by_contra hf
    have hrej := hs.failed b (by simpa using hf)
    rw [fate_verdictOf.mpr hbv] at hrej
    cases hrej
  intro hne
  obtain ⟨b₀, hb₀⟩ := List.exists_mem_of_ne_nil _ hne
  obtain ⟨e, hg⟩ : ∃ e, b₀.genesis = .root e := b₀.exists_genesis_eq
  have hgT : CBlockIndex.root e ∈ T := BlockTree.mem_of_path hb₀ (hg ▸ b₀.genesis_mem_path)
  obtain ⟨t, ht, -⟩ := h _ (hmem _ hgT fun a ha => by
    rw [List.mem_singleton.mp ha]
    exact hv.genesis e)
  refine ⟨t, ht, hi.active_mem t ht, fate_verdictOf.mp (hs.active t ht), fun b hb hbv hbt => ?_⟩
  obtain ⟨t', ht', hle⟩ := h b (hmem b hb hbv)
  cases ht.symm.trans ht'
  rw [workLess_iff]
  exact lt_of_le_of_ne hle fun heq => hbt (T.rank_inj b hb t (hi.active_mem t ht) heq)

/-- From a sound state a call returns `true`, with an active tip that is the best of the blocks on
valid chains. -/
theorem Inv.activate_bestValid {valid : CBlockIndex → Bool} (hv : ValidityVerdicts env valid)
    (hi : s.Inv T) (hs : s.Sound (verdictOf valid)) :
    ∃ fuel s', s.activateBestChain env fuel = .ok (true, s') ∧ Steps T env s s' ∧
      IsBestValid T valid s'.chainActive.tip := by
  have hnot : ∀ {s₁ w p}, Tried env T s s₁ w p → env.connectBlock s₁.nAttempts p = .ok ∨
      env.connectBlock s₁.nAttempts p = .invalid false := by
    intro s₁ w p htried
    rw [(hs.steps hv.fixed hi htried.run).connect hv.fixed htried.pprev]
    exact fate_verdictOf_cases p
  obtain ⟨fuel, hne⟩ := hi.terminates env (N := 0) fun s₁ w p htried henv => by
    rcases hnot htried with h | h <;> rw [h] at henv <;> cases henv
  have hpost := activateBestChain_post env fuel hi
  cases hc : s.activateBestChain env fuel with
  | error e =>
    rw [hc] at hpost hne
    cases e with
    | outOfFuel => exact absurd rfl hne
    | abort =>
      obtain ⟨s₁, w, e, htried, henv⟩ := hpost
      rw [hv.connect _ _ fun a ha hne => absurd (List.mem_singleton.mp ha) hne, hv.genesis e] at henv
      cases henv
  | ok r =>
    rw [hc] at hpost
    obtain ⟨r, s'⟩ := r
    cases r with
    | true =>
      obtain ⟨hrun, hbest⟩ := hpost
      exact ⟨fuel, s', hc, hrun,
        hbest.isBestValid hv (hi.steps hrun) (hs.steps hv.fixed hi hrun)⟩
    | false =>
      rcases hpost.2 with ⟨n, b, hfail⟩ | ⟨s₁, w, p, htried, henv⟩
      · rw [hv.disconnect n b] at hfail
        cases hfail
      · rcases hnot htried with h | h <;> rw [h] at henv <;> cases henv

/-- In every state of a run, and in every state a call passes through, no candidate is
failed; and a call returns `true`, with an active tip that is the best of the blocks on valid
chains. -/
theorem activateBestChain_best {valid : CBlockIndex → Bool} (hv : ValidityVerdicts env valid)
    (h : Reach env T s) :
    (∀ s', Steps T env s s' → ∀ b ∈ s'.setBlockIndexValid, s'.failed b = false) ∧
    ∃ fuel s', s.activateBestChain env fuel = .ok (true, s') ∧ Steps T env s s' ∧
      IsBestValid T valid s'.chainActive.tip :=
  ⟨fun _ hrun b hb => (((h.inv.steps hrun).mem_valid b).mp hb).2,
    h.inv.activate_bestValid hv (h.sound hv.fixed)⟩

/-- The second block of the sample tree is invalid. -/
theorem activateBestChain_best_sample :
    (∀ s', Steps sampleTree ⟨fun _ b => verdictOf (· != sampleChild) b, fun _ _ => true⟩
        (genesisConnected.insertBlock sampleChild) s' →
      ∀ b ∈ s'.setBlockIndexValid, s'.failed b = false) ∧
    ∃ fuel s', (genesisConnected.insertBlock sampleChild).activateBestChain
        ⟨fun _ b => verdictOf (· != sampleChild) b, fun _ _ => true⟩ fuel = .ok (true, s') ∧
      Steps sampleTree ⟨fun _ b => verdictOf (· != sampleChild) b, fun _ _ => true⟩
        (genesisConnected.insertBlock sampleChild) s' ∧
      IsBestValid sampleTree (· != sampleChild) s'.chainActive.tip :=
  activateBestChain_best
    ⟨fun _ => by rfl, fun _ _ => rfl, fun _ _ _ => rfl⟩ (reach_sample _ rfl)

end ChainState

end Ticoin
