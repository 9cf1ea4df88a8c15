import Mathlib

/-!
# Runs of state machines

A machine is a partial step function that answers each input; a run feeds it a list of
inputs and collects the answers (`run`). Two machines are compared by a relation between
their states which may depend on the inputs still to come : when each step keeps it and
gives related answers, so does each run (`run_sim`).

A machine without answers is fed by `List.foldlM`, and what each step keeps holds after all
inputs (`invariant_of_foldlM`).

Nondeterministic systems are step relations, and their runs `Relation.ReflTransGen`. An
invariant of the steps holds in every state a run reaches (`invariant_of_steps`). Where
threads are a function and one of them moves, sums and universal statements over them
change in its part only (`sum_update`, `forall_update`).
-/

namespace Machine

variable {σ τ ι ω α : Type*}

/-! ## Deterministic machines -/

/-- Feed a list of inputs to a partial step function, collecting the answers. -/
def run (step : σ → ι → Option (σ × ω)) : σ → List ι → Option (σ × List ω)
  | s, [] => some (s, [])
  | s, i :: is =>
    match step s i with
    | none => none
    | some (s', o) => (run step s' is).map fun r => (r.1, o :: r.2)

variable {step : σ → ι → Option (σ × ω)} {step' : τ → ι → Option (τ × ω)}

/-- The first step of a run that succeeds, and the rest of it. -/
theorem run_cons_eq_some {i : ι} {is : List ι} {s s' : σ} {outs : List ω}
    (h : run step s (i :: is) = some (s', outs)) :
    ∃ s₁ o outs', step s i = some (s₁, o) ∧ run step s₁ is = some (s', outs') ∧
      outs = o :: outs' := by
  rw [run] at h
  cases hs : step s i with
  | none => simp [hs] at h
  | some r =>
    rw [hs] at h
    obtain ⟨⟨s₂, outs'⟩, hrun, heq⟩ := Option.map_eq_some_iff.mp h
    cases heq
    exact ⟨r.1, r.2, outs', rfl, hrun, rfl⟩

theorem run_cons_of_eq_some {i : ι} {is : List ι} {s s₁ s' : σ} {o : ω} {outs : List ω}
    (hstep : step s i = some (s₁, o)) (hrun : run step s₁ is = some (s', outs)) :
    run step s (i :: is) = some (s', o :: outs) := by
  simp only [run, hstep, hrun, Option.map_some]

theorem run_append : ∀ (is js : List ι) (s : σ),
    run step s (is ++ js) = (run step s is).bind fun r =>
      (run step r.1 js).map fun r' => (r'.1, r.2 ++ r'.2)
  | [], js, s => by simp [run]
  | i :: is, js, s => by
    rw [List.cons_append, run, run]
    cases step s i with
    | none => rfl
    | some r =>
      simp only [run_append is js]
      cases run step r.1 is with
      | none => rfl
      | some q =>
        simp only [Option.map_some, Option.bind_some, Option.map_map]
        rfl

variable (step step') in
/-- Steps that keep a relation between two machines, with answers equal under `f`, make
runs that keep it. -/
theorem run_sim {R : List ι → σ → τ → Prop} {f : ω → α}
    (h : ∀ i is s t, R (i :: is) s t →
      Option.Rel (fun a b => R is a.1 b.1 ∧ f a.2 = f b.2) (step s i) (step' t i)) :
    ∀ (is : List ι) (s : σ) (t : τ), R is s t →
      Option.Rel (fun a b => R [] a.1 b.1 ∧ a.2.map f = b.2.map f) (run step s is) (run step' t is)
  | [], s, t, hR => .some ⟨hR, rfl⟩
  | i :: is, s, t, hR => by
    have hstep := h i is s t hR
    rw [run, run]
    generalize step s i = a at hstep ⊢
    generalize step' t i = b at hstep ⊢
    cases hstep with
    | none => exact .none
    | @some a b hab =>
    have hrun := run_sim h is a.1 b.1 hab.1
    dsimp only
    generalize run step a.1 is = p at hrun ⊢
    generalize run step' b.1 is = q at hrun ⊢
    cases hrun with
    | none => exact .none
    | some hpq => exact .some ⟨hpq.1, by simp [hab.2, hpq.2]⟩

/-- What every step keeps holds after all inputs. -/
theorem invariant_of_foldlM {f : σ → ι → Option σ} {P : σ → Prop}
    (h : ∀ s i s', P s → f s i = some s' → P s') :
    ∀ (is : List ι) {s s' : σ}, is.foldlM f s = some s' → P s → P s'
  | [], s, s', hrun, hs => by
    cases hrun
    exact hs
  | i :: is, s, s', hrun, hs => by
    rw [List.foldlM_cons] at hrun
    obtain ⟨s₁, hstep, hrest⟩ := Option.bind_eq_some_iff.mp hrun
    exact invariant_of_foldlM h is hrest (h s i s₁ hs hstep)

/-- A step that ends. -/
theorem eq_ok_of_toOption {ε : Type*} {x : Except ε α} {a : α} (h : x.toOption = some a) :
    x = .ok a := by
  cases x with
  | error e => cases h
  | ok b =>
    cases h
    rfl

/-! ## Step relations -/

/-- What every step keeps holds in every state a run reaches. -/
theorem invariant_of_steps {r : σ → σ → Prop} {P : σ → Prop}
    (h : ∀ s s', P s → r s s' → P s') {s s' : σ} (hrun : Relation.ReflTransGen r s s')
    (hs : P s) : P s' := by
  induction hrun with
  | refl => exact hs
  | tail _ hstep ih => exact h _ _ ih hstep

/-- The runs of steps that can fail are runs of their relation. -/
theorem steps_of_foldlM {ε : Type*} {f : σ → ι → Except ε σ} : ∀ (is : List ι) {s s' : σ},
    is.foldlM f s = .ok s' → Relation.ReflTransGen (fun s s' => ∃ i, f s i = .ok s') s s'
  | [], s, s', h => by
    cases h
    exact .refl
  | i :: is, s, s', h => by
    rw [List.foldlM_cons] at h
    cases hstep : f s i with
    | error e =>
      rw [hstep] at h
      cases h
    | ok s₁ =>
      rw [hstep] at h
      exact .head ⟨i, hstep⟩ (steps_of_foldlM is h)

/-! ## Threads -/

/-- A sum over threads, after one of them moved. -/
theorem sum_update {κ β M : Type*} [Fintype κ] [DecidableEq κ] [AddCommMonoid M] (f : β → M)
    (g : κ → β) (i : κ) (a : β) :
    ∑ j, f (Function.update g i a j) + f (g i) = ∑ j, f (g j) + f a := by
  have hf : (fun j => f (Function.update g i a j)) = Function.update (fun j => f (g j)) i (f a) :=
    Function.comp_update f g i a
  have hg := Finset.add_sum_erase Finset.univ (fun j => f (g j)) (Finset.mem_univ i)
  rw [hf, Finset.sum_update_of_mem (Finset.mem_univ i), ← Finset.erase_eq, ← hg]
  abel

/-- What holds of a thread that moved, and of the others. -/
theorem forall_update {κ β : Type*} [DecidableEq κ] {P : β → Prop} {g : κ → β} {i : κ} {a : β} :
    (∀ j, P (Function.update g i a j)) ↔ P a ∧ ∀ j, j ≠ i → P (g j) := by
  constructor
  · intro h
    refine ⟨by simpa using h i, fun j hj => ?_⟩
    simpa [Function.update_of_ne hj] using h j
  · rintro ⟨ha, h⟩ j
    by_cases hj : j = i
    · subst hj
      simpa using ha
    · simpa [Function.update_of_ne hj] using h j hj

/-! ## Leases -/

/-- Something is lent out, or it is given back. -/
inductive Lease (α : Type*) where
  | out (a : α)
  | back (a : α)
  deriving DecidableEq, Repr

/-- Lent out, and not given back since. -/
def IsOut (t : List (Lease α)) (a : α) : Prop :=
  ∃ pre post, t = pre ++ .out a :: post ∧ .back a ∉ post

/-- Between two times that a thing is lent out it is given back. -/
def Exclusive (t : List (Lease α)) : Prop :=
  ∀ pre mid post a, t = pre ++ .out a :: (mid ++ .out a :: post) → .back a ∈ mid

variable {t : List (Lease α)} {a b : α}

theorem not_isOut_nil : ¬ IsOut [] a := by
  rintro ⟨pre, post, h, -⟩
  simp at h

theorem IsOut.mem (h : IsOut t a) : .out a ∈ t := by
  obtain ⟨pre, post, rfl, -⟩ := h
  simp

theorem isOut_snoc {e : Lease α} (h : IsOut (t ++ [e]) a) :
    e = .out a ∨ (e ≠ .back a ∧ IsOut t a) := by
  obtain ⟨pre, post, heq, hback⟩ := h
  rcases List.eq_nil_or_concat' post with rfl | ⟨post', e', rfl⟩
  · exact .inl (List.singleton_inj.mp (List.append_inj_right' heq rfl))
  · rw [← List.cons_append, ← List.append_assoc] at heq
    obtain ⟨rfl, he⟩ := List.append_inj' heq rfl
    obtain rfl := List.singleton_inj.mp he
    rw [List.mem_append, List.mem_singleton, not_or] at hback
    exact .inr ⟨Ne.symm hback.2, pre, post', rfl, hback.1⟩

theorem not_isOut_snoc_back (h : a = b ∨ ¬ IsOut t a) : ¬ IsOut (t ++ [.back b]) a := by
  intro hout
  rcases isOut_snoc hout with heq | ⟨hne, hout⟩
  · cases heq
  · rcases h with rfl | h
    · exact hne rfl
    · exact h hout

theorem not_isOut_snoc_out (hne : a ≠ b) (h : ¬ IsOut t a) : ¬ IsOut (t ++ [.out b]) a := by
  intro hout
  rcases isOut_snoc hout with heq | ⟨-, hout⟩
  · cases heq
    exact hne rfl
  · exact h hout

theorem Exclusive.nil : Exclusive ([] : List (Lease α)) := by
  intro pre mid post a h
  simp at h

theorem Exclusive.snoc (h : Exclusive t) {e : Lease α} (he : ∀ a, e = .out a → ¬ IsOut t a) :
    Exclusive (t ++ [e]) := by
  intro pre mid post a heq
  rcases List.eq_nil_or_concat' post with rfl | ⟨post', e', rfl⟩
  · rw [← List.cons_append, ← List.append_assoc] at heq
    obtain ⟨rfl, hlast⟩ := List.append_inj' heq rfl
    by_contra hback
    exact he a (List.singleton_inj.mp hlast) ⟨pre, mid, rfl, hback⟩
  · have hassoc : pre ++ .out a :: (mid ++ .out a :: (post' ++ [e'])) =
        (pre ++ .out a :: (mid ++ .out a :: post')) ++ [e'] := by simp
    exact h pre mid post' a (List.append_inj' (heq.trans hassoc) rfl).1

theorem Exclusive.snoc_out (h : Exclusive t) (hout : ¬ IsOut t a) : Exclusive (t ++ [.out a]) :=
  h.snoc fun _ heq => Lease.out.inj heq ▸ hout

theorem Exclusive.snoc_back (h : Exclusive t) : Exclusive (t ++ [.back a]) := h.snoc nofun

end Machine
