import Mathlib.Data.List.Basic

/-!
# Outcomes of computations that can fail

`Ends P E x` says that `x` returns something that satisfies `P` or fails with an error that
satisfies `E`. The rules follow the computation : a sequence, a branch, and loops, where an invariant
speaks of the elements still to come (`Ends.foldlM`).
-/

namespace Outcome

universe u v

variable {ε : Type v} {α β : Type u} {P P' : α → Prop} {E E' : ε → Prop} {x : Except ε α}

/-- What a computation returns, or fails with. -/
def Ends (P : α → Prop) (E : ε → Prop) : Except ε α → Prop
  | .ok a => P a
  | .error e => E e

@[simp] theorem ends_ok {a : α} : Ends P E (.ok a) ↔ P a := Iff.rfl

@[simp] theorem ends_error {e : ε} : Ends P E (.error e) ↔ E e := Iff.rfl

theorem Ends.of_ok (h : Ends P E x) {a : α} (hx : x = .ok a) : P a := by
  rwa [hx] at h

theorem Ends.of_error (h : Ends P E x) {e : ε} (hx : x = .error e) : E e := by
  rwa [hx] at h

theorem Ends.mono (h : Ends P E x) (hP : ∀ a, P a → P' a) (hE : ∀ e, E e → E' e) : Ends P' E' x := by
  cases x with
  | ok a => exact hP a h
  | error e => exact hE e h

theorem Ends.bind {f : α → Except ε β} {Q : β → Prop} (h : Ends P E x)
    (hf : ∀ a, P a → Ends Q E (f a)) : Ends Q E (x >>= f) := by
  cases x with
  | ok a => exact hf a h
  | error e => exact h

/-- A sequence that returns, in its parts. -/
theorem bind_eq_ok {f : α → Except ε β} {b : β} :
    (x >>= f) = .ok b ↔ ∃ a, x = .ok a ∧ f a = .ok b := by
  cases x with
  | ok a => exact ⟨fun h => ⟨a, rfl, h⟩, fun ⟨_, ha, h⟩ => by cases ha; exact h⟩
  | error e => exact ⟨nofun, fun ⟨_, ha, _⟩ => nomatch ha⟩

/-! ## Loops -/

/-- A loop keeps an invariant that speaks of the elements still to come. -/
theorem Ends.foldlM {P : List α → β → Prop} {step : β → α → Except ε β}
    (h : ∀ x l b, P (x :: l) b → Ends (P l) E (step b x)) :
    ∀ {l : List α} {b : β}, P l b → Ends (P []) E (l.foldlM step b)
  | [], _, hb => hb
  | x :: l, b, hb => by
    rw [List.foldlM_cons]
    exact (h x l b hb).bind fun _ => Ends.foldlM h

theorem Ends.forM {f : α → Except ε PUnit} : ∀ {l : List α},
    (∀ x ∈ l, Ends (fun _ => True) E (f x)) → Ends (fun _ => True) E (l.forM f)
  | [], _ => trivial
  | x :: l, h => by
    rw [List.forall_mem_cons] at h
    exact h.1.bind fun _ _ => Ends.forM h.2

theorem Ends.mapM {Q : β → Prop} {f : α → Except ε β} : ∀ {l : List α},
    (∀ x ∈ l, Ends Q E (f x)) → Ends (fun l' => ∀ y ∈ l', Q y) E (l.mapM f)
  | [], _ => by
    rw [List.mapM_nil]
    exact List.forall_mem_nil Q
  | x :: l, h => by
    rw [List.forall_mem_cons] at h
    rw [List.mapM_cons]
    exact h.1.bind fun y hy => (Ends.mapM h.2).bind fun l' hl' => List.forall_mem_cons.mpr ⟨hy, hl'⟩

variable {step step' : β → α → Except ε β}

/-- A loop whose steps return on its elements returns. -/
theorem exists_foldlM_ok : ∀ {l : List α} (b : β), (∀ x ∈ l, ∀ b, ∃ b', step b x = .ok b') →
    ∃ b', l.foldlM step b = .ok b'
  | [], b, _ => ⟨b, rfl⟩
  | x :: l, b, h => by
    rw [List.forall_mem_cons] at h
    obtain ⟨b₁, hstep⟩ := h.1 b
    obtain ⟨b', hfold⟩ := exists_foldlM_ok b₁ h.2
    refine ⟨b', ?_⟩
    rw [List.foldlM_cons, hstep]
    exact hfold

theorem foldlM_congr_of_mem : ∀ {l : List α} (b : β), (∀ x ∈ l, ∀ b, step b x = step' b x) →
    l.foldlM step b = l.foldlM step' b
  | [], _, _ => rfl
  | x :: l, b, h => by
    rw [List.forall_mem_cons] at h
    rw [List.foldlM_cons, List.foldlM_cons, h.1 b]
    exact bind_congr fun b₁ => foldlM_congr_of_mem b₁ h.2

theorem mapM_congr_of_mem {f g : α → Except ε β} : ∀ {l : List α}, (∀ x ∈ l, f x = g x) →
    l.mapM f = l.mapM g
  | [], _ => rfl
  | x :: l, h => by
    rw [List.forall_mem_cons] at h
    rw [List.mapM_cons, List.mapM_cons, h.1, mapM_congr_of_mem h.2]

/-- What a loop returns has what each step returned. -/
theorem mapM_eq_ok_mem {f : α → Except ε β} : ∀ {l : List α} {l' : List β}, l.mapM f = .ok l' →
    ∀ x ∈ l, ∃ y ∈ l', f x = .ok y
  | [], _, _, _, hmem => absurd hmem List.not_mem_nil
  | a :: l, l', h, x, hmem => by
    rw [List.mapM_cons] at h
    obtain ⟨b, hb, h⟩ := bind_eq_ok.mp h
    obtain ⟨bs, hbs, h⟩ := bind_eq_ok.mp h
    cases h
    rcases List.mem_cons.mp hmem with rfl | hmem
    · exact ⟨b, List.mem_cons_self, hb⟩
    · obtain ⟨y, hy, hf⟩ := mapM_eq_ok_mem hbs x hmem
      exact ⟨y, List.mem_cons_of_mem b hy, hf⟩

end Outcome
