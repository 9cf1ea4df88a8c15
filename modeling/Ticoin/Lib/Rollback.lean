import Ticoin.Lib.Machine

/-!
# Steps that are taken back

A step changes a state and leaves a record, by which it can be taken back (`System`). The steps
that stand are on a stack with their records, and the last of them may be taken back.

If taking back restores a state up to an equivalence that the steps respect (`Restores`), then the
state depends on the stack only : after any run it is equivalent to the one that the steps on the
stack lead to (`Restores.follows_of_run`). Of that one, invariants of the steps alone hold
(`Stands.invariant`).
-/

namespace Rollback

variable {σ ι ρ : Type*}

/-- Steps that leave records, and how they are taken back. -/
structure System (σ ι ρ : Type*) where
  apply : σ → ι → Option (σ × ρ)
  revert : σ → ι → ρ → Option σ

inductive Move (ι : Type*)
  | forth (i : ι)
  | back

/-- A state with the steps that stand, the last one first. -/
structure Stacked (σ ι ρ : Type*) where
  state : σ
  stack : List (ι × ρ)

namespace System

variable (sys : System σ ι ρ)

def step (s : Stacked σ ι ρ) : Move ι → Option (Stacked σ ι ρ)
  | .forth i => (sys.apply s.state i).map fun r => ⟨r.1, (i, r.2) :: s.stack⟩
  | .back => match s.stack with
    | [] => none
    | (i, r) :: stack => (sys.revert s.state i r).map fun state => ⟨state, stack⟩

/-- Moves from a state where no step stands. -/
def run (start : σ) (moves : List (Move ι)) : Option (Stacked σ ι ρ) :=
  moves.foldlM sys.step ⟨start, []⟩

/-- The steps of a stack lead from one state to another, with the records that they left. -/
inductive Stands (start : σ) : List (ι × ρ) → σ → Prop
  | nil : Stands start [] start
  | cons {stack : List (ι × ρ)} {s s' : σ} {i : ι} {r : ρ} : Stands start stack s →
    sys.apply s i = some (s', r) → Stands start ((i, r) :: stack) s'

/-- Taking back restores states that satisfy `P` up to the equivalence `R`. -/
structure Restores (P : σ → Prop) (R : σ → σ → Prop) : Prop where
  equivalence : Equivalence R
  invariant : ∀ {s t : σ}, R s t → P s → P t
  keeps : ∀ {s s' : σ} {i : ι} {r : ρ}, P s → sys.apply s i = some (s', r) → P s'
  respects : ∀ {s s' t : σ} {i : ι} {r : ρ}, P s → sys.apply s i = some (s', r) → R s t →
    ∃ t', sys.apply t i = some (t', r) ∧ R s' t'
  restores : ∀ {s s' t : σ} {i : ι} {r : ρ}, P s → sys.apply s i = some (s', r) → R s' t →
    ∃ t', sys.revert t i r = some t' ∧ R s t'

variable {sys} {P : σ → Prop} {R : σ → σ → Prop} {start s t : σ} {stack : List (ι × ρ)}

theorem step_forth {i : ι} {r : ρ} (h : sys.apply s i = some (t, r)) :
    sys.step ⟨s, stack⟩ (.forth i) = some ⟨t, (i, r) :: stack⟩ := by
  rw [step, h, Option.map_some]

theorem step_back {i : ι} {r : ρ} (h : sys.revert s i r = some t) :
    sys.step ⟨s, (i, r) :: stack⟩ .back = some ⟨t, stack⟩ := by
  rw [step]
  dsimp only
  rw [h, Option.map_some]

/-- What the steps keep holds where they lead to. -/
theorem Stands.invariant {Q : List (ι × ρ) → σ → Prop} (hstart : Q [] start)
    (hstep : ∀ stack s s' i r, Q stack s → sys.apply s i = some (s', r) → Q ((i, r) :: stack) s') :
    ∀ {stack : List (ι × ρ)} {s : σ}, sys.Stands start stack s → Q stack s
  | _, _, .nil => hstart
  | _, _, .cons h happly => hstep _ _ _ _ _ (h.invariant hstart hstep) happly

theorem Restores.of_stands (h : sys.Restores P R) (hstart : P start)
    (hstands : sys.Stands start stack s) : P s :=
  hstands.invariant (Q := fun _ s => P s) hstart fun _ _ _ _ _ hs happly => h.keeps hs happly

/-- Steps with the same keys do the same, and lead to the same state. -/
theorem Stands.unique {κ : Type*} {key : ι → κ}
    (hkey : ∀ {s i j r r'}, key i = key j → sys.apply s i = some r → sys.apply s j = some r' →
      r = r') : ∀ {stack stack' : List (ι × ρ)} {s s' : σ}, sys.Stands start stack s →
    sys.Stands start stack' s' →
    (stack.map fun x => key x.1) = (stack'.map fun x => key x.1) → s = s'
  | _, _, _, _, .nil, .nil, _ => rfl
  | _, _, _, _, .nil, .cons _ _, heq => by
    cases heq
  | _, _, _, _, .cons _ _, .nil, heq => by
    cases heq
  | _, _, _, _, .cons h happly, .cons h' happly', heq => by
    obtain ⟨hkeys, hrest⟩ := List.cons_eq_cons.mp heq
    obtain rfl := h.unique hkey h' hrest
    exact congrArg Prod.fst (hkey hkeys happly happly')

/-- The last step can be taken back in a state that is equivalent. -/
theorem Restores.exists_revert (h : sys.Restores P R) (hstart : P start) {i : ι} {r : ρ}
    (hstands : sys.Stands start ((i, r) :: stack) s) (hR : R s t) :
    ∃ s₀ t', sys.Stands start stack s₀ ∧ sys.revert t i r = some t' ∧ R s₀ t' := by
  cases hstands with
  | cons hstands happly =>
    obtain ⟨t', hrevert, ht'⟩ := h.restores (h.of_stands hstart hstands) happly hR
    exact ⟨_, t', hstands, hrevert, ht'⟩

/-- A state is equivalent to the one that the steps on its stack lead to. -/
def Follows (sys : System σ ι ρ) (R : σ → σ → Prop) (start : σ) (s : Stacked σ ι ρ) : Prop :=
  ∃ state, sys.Stands start s.stack state ∧ R state s.state

theorem Follows.step (h : sys.Restores P R) (hstart : P start) {s s' : Stacked σ ι ρ}
    {move : Move ι} (hs : sys.Follows R start s) (hstep : sys.step s move = some s') :
    sys.Follows R start s' := by
  obtain ⟨state, hstands, hR⟩ := hs
  cases move with
  | forth i =>
    obtain ⟨⟨next, r⟩, happly, rfl⟩ := Option.map_eq_some_iff.mp hstep
    have hP := h.invariant hR (h.of_stands hstart hstands)
    obtain ⟨state', happly', hR'⟩ := h.respects hP happly (h.equivalence.symm hR)
    exact ⟨state', .cons hstands happly', h.equivalence.symm hR'⟩
  | back =>
    obtain ⟨now, stack⟩ := s
    match stack with
    | [] => cases hstep
    | (i, r) :: stack =>
      obtain ⟨t, hrevert, rfl⟩ := Option.map_eq_some_iff.mp hstep
      obtain ⟨s₀, t', hstands₀, hrevert', hR'⟩ := h.exists_revert hstart hstands hR
      obtain rfl : t' = t := Option.some.inj (hrevert'.symm.trans hrevert)
      exact ⟨s₀, hstands₀, hR'⟩

/-- After any run the state is equivalent to the one that the steps on the stack lead to. -/
theorem Restores.follows_of_run (h : sys.Restores P R) (hstart : P start) {moves : List (Move ι)}
    {s : Stacked σ ι ρ} (hrun : sys.run start moves = some s) : sys.Follows R start s :=
  Machine.invariant_of_foldlM (fun _ _ _ hs hstep => hs.step h hstart hstep) moves hrun
    ⟨start, .nil, h.equivalence.refl start⟩

/-- Runs that end with steps of the same keys on their stacks lead to equivalent states. -/
theorem Restores.equiv_of_run (h : sys.Restores P R) (hstart : P start) {κ : Type*} {key : ι → κ}
    (hkey : ∀ {s i j r r'}, key i = key j → sys.apply s i = some r → sys.apply s j = some r' →
      r = r') {moves moves' : List (Move ι)} {s s' : Stacked σ ι ρ}
    (hrun : sys.run start moves = some s) (hrun' : sys.run start moves' = some s')
    (hstack : (s.stack.map fun x => key x.1) = (s'.stack.map fun x => key x.1)) :
    R s.state s'.state := by
  obtain ⟨state, hstands, hR⟩ := h.follows_of_run hstart hrun
  obtain ⟨state', hstands', hR'⟩ := h.follows_of_run hstart hrun'
  obtain rfl := hstands.unique hkey hstands' hstack
  exact h.equivalence.trans (h.equivalence.symm hR) hR'

/-- After any run the last step can be taken back. -/
theorem Restores.isSome_back (h : sys.Restores P R) (hstart : P start) {moves : List (Move ι)}
    {s : Stacked σ ι ρ} (hrun : sys.run start moves = some s) (hne : s.stack ≠ []) :
    (sys.step s .back).isSome = true := by
  obtain ⟨state, hstands, hR⟩ := h.follows_of_run hstart hrun
  obtain ⟨now, stack⟩ := s
  match stack with
  | [] => exact absurd rfl hne
  | (i, r) :: stack =>
    obtain ⟨-, t, -, hrevert, -⟩ := h.exists_revert hstart hstands hR
    change ((sys.revert now i r).map _).isSome = true
    rw [hrevert]
    rfl

end System

end Rollback
