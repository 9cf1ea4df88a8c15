import Mathlib.Data.Nat.Notation

/-!
# Interpreters that read operations from a tape

An interpreter reads one operation at a time from what is left of a tape and executes it on a
state. Executing may halt, and logs what it does (`run`). Four rules are about all runs :
what executing keeps holds after every operation (`Reached.invariant`), a run that halts
does so where it executes an operation (`run_error`), a log is at most as long as what a
counter of the tape allows (`length_log_le`), and a run that ends goes the same way in every
interpreter that agrees on the operations executed (`run_refines`).
-/

namespace Tape

/-- How operations are read. The rest of the tape is shorter. -/
structure Reader (α Op : Type*) where
  read : List α → Option Op × List α
  shorter : ∀ {pc pc' : List α} {op : Op}, read pc = (some op, pc') → pc'.length < pc.length

variable {α Op σ ε κ : Type*}

/-- Executing an operation, with what is left of the tape after it. -/
abbrev Exec (α Op σ ε κ : Type*) := Op → List α → σ → Except ε σ × List κ

/-- Execute up to the end of the tape. Where no operation can be read the run halts with `stop`. -/
def run (R : Reader α Op) (stop : ε) (exec : Exec α Op σ ε κ) (pc : List α) (s : σ) :
    Except ε σ × List κ :=
  if pc = [] then (.ok s, [])
  else
    match _hop : R.read pc with
    | (none, _) => (.error stop, [])
    | (some op, pc') =>
      match exec op pc' s with
      | (.error e, log) => (.error e, log)
      | (.ok s', log) =>
        let r := run R stop exec pc' s'
        (r.1, log ++ r.2)
termination_by pc.length
decreasing_by exact R.shorter (by assumption)

/-- What is left of the tape and the state, after some operations were executed. -/
inductive Reached (R : Reader α Op) (exec : Exec α Op σ ε κ) (pc : List α) (s : σ) :
    List α → σ → Prop
  | start : Reached R exec pc s pc s
  | step {pc₁ pc₂ : List α} {s₁ s₂ : σ} {op : Op} (h : Reached R exec pc s pc₁ s₁)
      (hop : R.read pc₁ = (some op, pc₂)) (hexec : (exec op pc₂ s₁).1 = .ok s₂) :
      Reached R exec pc s pc₂ s₂

variable {R : Reader α Op} {stop : ε} {exec exec' : Exec α Op σ ε κ} {pc pc' : List α} {s s' : σ}

theorem run_nil : run R stop exec [] s = (.ok s, []) := by rw [run, if_pos rfl]

theorem run_none (hne : pc ≠ []) (hop : R.read pc = (none, pc')) :
    run R stop exec pc s = (.error stop, []) := by
  rw [run, if_neg hne]
  split
  · rfl
  · rename_i h
    rw [hop] at h
    cases h

/-- The first operation of a run. -/
theorem run_some {op : Op} (hop : R.read pc = (some op, pc')) : run R stop exec pc s =
    match exec op pc' s with
    | (.error e, log) => (.error e, log)
    | (.ok s', log) => ((run R stop exec pc' s').1, log ++ (run R stop exec pc' s').2) := by
  have hne : pc ≠ [] := by
    rintro rfl
    exact absurd (R.shorter hop) (Nat.not_lt_zero _)
  rw [run, if_neg hne]
  split
  · rename_i h
    rw [hop] at h
    cases h
  · rename_i h
    rw [hop] at h
    cases h
    rfl

theorem run_of_error {op : Op} {e : ε} {log : List κ} (hop : R.read pc = (some op, pc'))
    (h : exec op pc' s = (.error e, log)) : run R stop exec pc s = (.error e, log) := by
  rw [run_some hop, h]

theorem run_of_ok {op : Op} {log : List κ} (hop : R.read pc = (some op, pc'))
    (h : exec op pc' s = (.ok s', log)) : run R stop exec pc s =
      ((run R stop exec pc' s').1, log ++ (run R stop exec pc' s').2) := by
  rw [run_some hop, h]

/-- An operation that succeeds is passed. -/
theorem run_fst_of_ok {op : Op} (hop : R.read pc = (some op, pc'))
    (h : (exec op pc' s).1 = .ok s') : (run R stop exec pc s).1 = (run R stop exec pc' s').1 := by
  rcases hexec : exec op pc' s with ⟨r, log⟩
  rw [hexec] at h
  cases h
  rw [run_of_ok hop hexec]

/-! ## Rules -/

/-- What holds at the start and is kept by every operation holds where the run comes. -/
theorem Reached.invariant {I : List α → σ → Prop} (hstart : I pc s)
    (hstep : ∀ {pc₁ pc₂ : List α} {s₁ s₂ : σ} {op : Op}, I pc₁ s₁ → R.read pc₁ = (some op, pc₂) →
      (exec op pc₂ s₁).1 = .ok s₂ → I pc₂ s₂) (h : Reached R exec pc s pc' s') : I pc' s' := by
  induction h with
  | start => exact hstart
  | step _ hop hexec ih => exact hstep ih hop hexec

theorem Reached.cons {op : Op} {pc₁ : List α} {s₁ : σ} (hop : R.read pc = (some op, pc₁))
    (hexec : (exec op pc₁ s).1 = .ok s₁) (h : Reached R exec pc₁ s₁ pc' s') :
    Reached R exec pc s pc' s' := by
  induction h with
  | start => exact .step .start hop hexec
  | step _ hop' hexec' ih => exact .step ih hop' hexec'

/-- A run ends, or stops where no operation can be read, or halts at an operation. -/
theorem run_cases (R : Reader α Op) (stop : ε) (exec : Exec α Op σ ε κ) (pc : List α) (s : σ) :
    (∃ s', (run R stop exec pc s).1 = .ok s' ∧ Reached R exec pc s [] s') ∨
    (run R stop exec pc s).1 = .error stop ∨
    ∃ (op : Op) (pc₁ pc₂ : List α) (s₁ : σ) (e : ε), Reached R exec pc s pc₁ s₁ ∧
      R.read pc₁ = (some op, pc₂) ∧ (exec op pc₂ s₁).1 = .error e ∧
      (run R stop exec pc s).1 = .error e := by
  induction hn : pc.length using Nat.strongRecOn generalizing pc s with
  | ind n ih =>
    by_cases hne : pc = []
    · subst hne
      exact .inl ⟨s, by rw [run_nil], .start⟩
    rcases hread : R.read pc with ⟨op?, pc₁⟩
    cases op? with
    | none => exact .inr (.inl (by rw [run_none hne hread]))
    | some op =>
      rcases hexec : exec op pc₁ s with ⟨r, log⟩
      cases r with
      | error e =>
        exact .inr (.inr ⟨op, pc, pc₁, s, e, .start, hread, by rw [hexec],
          by rw [run_of_error hread hexec]⟩)
      | ok s₁ =>
        rw [run_of_ok hread hexec]
        have hexec₁ : (exec op pc₁ s).1 = .ok s₁ := by rw [hexec]
        rcases ih _ (hn ▸ R.shorter hread) pc₁ s₁ rfl with ⟨s', hok, hreach⟩ | herr |
          ⟨op', pc₂, pc₃, s₂, e, hreach, hread', herr, hrun⟩
        · exact .inl ⟨s', hok, hreach.cons hread hexec₁⟩
        · exact .inr (.inl herr)
        · exact .inr (.inr ⟨op', pc₂, pc₃, s₂, e, hreach.cons hread hexec₁, hread', herr, hrun⟩)

/-- If each operation logs at most what a counter loses over it, a run logs at most what the
counter says of the tape. The counter and the invariant know the operation before. -/
theorem length_log_le (count : Option Op → List α → ℕ) (I : Option Op → List α → σ → Prop)
    (hstep : ∀ {last : Option Op} {pc pc' : List α} {s : σ} {op : Op}, I last pc s →
      R.read pc = (some op, pc') →
      (exec op pc' s).2.length + count (some op) pc' ≤ count last pc ∧
        ∀ s', (exec op pc' s).1 = .ok s' → I (some op) pc' s')
    (last : Option Op) (h : I last pc s) : (run R stop exec pc s).2.length ≤ count last pc := by
  induction hn : pc.length using Nat.strongRecOn generalizing pc s last with
  | ind n ih =>
    by_cases hne : pc = []
    · subst hne
      rw [run_nil]
      exact Nat.zero_le _
    rcases hread : R.read pc with ⟨op?, pc₁⟩
    cases op? with
    | none =>
      rw [run_none hne hread]
      exact Nat.zero_le _
    | some op =>
      obtain ⟨hcount, hkeep⟩ := hstep h hread
      rcases hexec : exec op pc₁ s with ⟨r, log⟩
      rw [hexec] at hcount hkeep
      cases r with
      | error e =>
        rw [run_of_error hread hexec]
        exact Nat.le_trans (Nat.le_add_right _ _) hcount
      | ok s₁ =>
        rw [run_of_ok hread hexec, List.length_append]
        have hrest := ih _ (hn ▸ R.shorter hread) (some op) (hkeep s₁ rfl) rfl
        exact Nat.le_trans (Nat.add_le_add_left hrest _) hcount

/-- A run that ends is the same in an interpreter that agrees on the operations executed. -/
theorem run_refines
    (hstep : ∀ {op : Op} {pc₁ pc₂ : List α} {s₁ s₂ : σ}, Reached R exec pc s pc₁ s₁ →
      R.read pc₁ = (some op, pc₂) → (exec op pc₂ s₁).1 = .ok s₂ → (exec' op pc₂ s₁).1 = .ok s₂)
    (h : (run R stop exec pc s).1 = .ok s') : (run R stop exec' pc s).1 = .ok s' := by
  induction hn : pc.length using Nat.strongRecOn generalizing pc s with
  | ind n ih =>
    by_cases hne : pc = []
    · subst hne
      rwa [run_nil] at h ⊢
    rcases hread : R.read pc with ⟨op?, pc₁⟩
    cases op? with
    | none =>
      rw [run_none hne hread] at h
      cases h
    | some op =>
      rcases hexec : exec op pc₁ s with ⟨r, log⟩
      cases r with
      | error e =>
        rw [run_of_error hread hexec] at h
        cases h
      | ok s₁ =>
        have hexec₁ : (exec op pc₁ s).1 = .ok s₁ := by rw [hexec]
        rw [run_fst_of_ok hread hexec₁] at h
        rw [run_fst_of_ok hread (hstep .start hread hexec₁)]
        exact ih _ (hn ▸ R.shorter hread) (fun hreach => hstep (hreach.cons hread hexec₁)) h rfl

end Tape
