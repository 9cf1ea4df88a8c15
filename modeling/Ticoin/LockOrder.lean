import Mathlib.Data.List.Induction
import Mathlib.Logic.Function.Basic

/-!
# sync.cpp : the order of locks

With `DEBUG_LOCKORDER` every request for a lock is noted. A thread has a stack of the locks it has
entered and not left. A request that is no attempt records, for each lock that is on the stack, that
the one was held when the other was requested, and reports a potential deadlock if the opposite is on
record.

A pair is compared with the opposite only when it is recorded for the first time, the scan of the
stack ends at the lock itself and at a report, and attempts are pushed without a record. Still, as
long as nothing was reported all requests are on record and no pair is recorded both ways, so no two
locks were requested in both orders (`requests_one_way`).
-/

set_option linter.unusedSectionVars false

namespace Ticoin

/-- The locks that a thread has entered with the places in the source, oldest first. -/
abbrev LockStack (Lock Location : Type) := List (Lock × Location)

/-- The stacks of the threads, `lockorders`, and the calls of `potential_deadlock_detected`. -/
structure LockOrders (Thread Lock Location : Type) where
  lockstack : Thread → LockStack Lock Location
  lockorders : Lock × Lock → Option (LockStack Lock Location)
  reports : List ((Lock × Lock) × LockStack Lock Location × LockStack Lock Location)

/-- A call of `EnterCritical` or `LeaveCritical` by a thread. -/
inductive LockCall (Thread Lock Location : Type) where
  | enterCritical (thread : Thread) (cs : Lock) (location : Location) (fTry : Bool)
  | leaveCritical (thread : Thread)

namespace LockOrders

variable {Thread Lock Location : Type} [DecidableEq Thread] [DecidableEq Lock]

/-- The loop of `push_lock` over the stack : the orders, and a report, at which it ends. -/
def scan (c : Lock) (stack : LockStack Lock Location) : LockStack Lock Location →
    (Lock × Lock → Option (LockStack Lock Location)) →
    (Lock × Lock → Option (LockStack Lock Location)) ×
      List ((Lock × Lock) × LockStack Lock Location × LockStack Lock Location)
  | [], orders => (orders, [])
  | i :: rest, orders =>
    if i.1 = c then (orders, [])
    else
      let p1 := (i.1, c)
      if (orders p1).isSome then scan c stack rest orders
      else
        let orders := Function.update orders p1 (some stack)
        let p2 := (c, i.1)
        match orders p2 with
        | some previous => (orders, [(p1, previous, stack)])
        | none => scan c stack rest orders

/-- `push_lock`. -/
def pushLock (thread : Thread) (c : Lock) (location : Location) (fTry : Bool)
    (s : LockOrders Thread Lock Location) : LockOrders Thread Lock Location :=
  let stack := s.lockstack thread ++ [(c, location)]
  let s := { s with lockstack := Function.update s.lockstack thread stack }
  if !fTry then
    let r := scan c stack stack s.lockorders
    { s with
      lockorders := r.1
      reports := s.reports ++ r.2 }
  else s

/-- `pop_lock` of a stack that is not empty. -/
def popLock (thread : Thread) (s : LockOrders Thread Lock Location) :
    Option (LockOrders Thread Lock Location) :=
  if s.lockstack thread = [] then none
  else some { s with
    lockstack := Function.update s.lockstack thread (s.lockstack thread).dropLast }

/-- A call. -/
def step (s : LockOrders Thread Lock Location) :
    LockCall Thread Lock Location → Option (LockOrders Thread Lock Location)
  | .enterCritical thread cs location fTry => some (s.pushLock thread cs location fTry)
  | .leaveCritical thread => s.popLock thread

/-- No lock is held, and there is nothing on record. -/
def init : LockOrders Thread Lock Location := ⟨fun _ => [], fun _ => none, []⟩

/-- Calls of the threads in any order, none if a thread leaves what it has not entered. -/
def run (calls : List (LockCall Thread Lock Location)) :
    Option (LockOrders Thread Lock Location) :=
  calls.foldlM step init

/-! ## Requests -/

/-- The locks that a thread holds after a call. -/
def heldStep (thread : Thread) (held : List Lock) : LockCall Thread Lock Location → List Lock
  | .enterCritical thread' cs _ _ => if thread' = thread then held ++ [cs] else held
  | .leaveCritical thread' => if thread' = thread then held.dropLast else held

/-- The locks that a thread has entered and not left. -/
def held (calls : List (LockCall Thread Lock Location)) (thread : Thread) : List Lock :=
  calls.foldl (heldStep thread) []

/-- Some request for `b` that is no attempt was made while `a` was held and `b` was not. -/
def Requested (calls : List (LockCall Thread Lock Location)) (a b : Lock) : Prop :=
  ∃ before thread location after,
    calls = before ++ .enterCritical thread b location false :: after ∧
      a ∈ held before thread ∧ b ∉ held before thread

section

variable {calls : List (LockCall Thread Lock Location)} {call : LockCall Thread Lock Location}
  {s s' : LockOrders Thread Lock Location} {a b : Lock}

theorem held_concat (thread : Thread) :
    held (calls ++ [call]) thread = heldStep thread (held calls thread) call := by
  rw [held, List.foldl_append]
  rfl

theorem run_concat : run (calls ++ [call]) = some s' ↔ ∃ s, run calls = some s ∧
    step s call = some s' := by
  rw [run, List.foldlM_append, ← run]
  simp only [List.foldlM_cons, List.foldlM_nil, bind_pure]
  exact Option.bind_eq_some_iff

/-- The last call may be a request. -/
theorem requested_concat (h : Requested (calls ++ [call]) a b) : Requested calls a b ∨
    ∃ thread location, call = .enterCritical thread b location false ∧
      a ∈ held calls thread ∧ b ∉ held calls thread := by
  obtain ⟨before, thread, location, after, heq, ha, hb⟩ := h
  rcases List.eq_nil_or_concat after with rfl | ⟨after, last, rfl⟩
  · obtain ⟨rfl, hcall⟩ := List.append_inj' heq rfl
    exact .inr ⟨thread, location, List.singleton_inj.mp hcall, ha, hb⟩
  · rw [List.concat_eq_append, ← List.cons_append, ← List.append_assoc] at heq
    obtain ⟨rfl, -⟩ := List.append_inj' heq rfl
    exact .inl ⟨before, thread, location, after, rfl, ha, hb⟩

end

/-! ## What is on record -/

/-- No pair is recorded both ways. -/
def OneWay (orders : Lock × Lock → Option (LockStack Lock Location)) : Prop :=
  ∀ a b, (orders (a, b)).isSome → orders (b, a) = none

/-- A scan without a report keeps the record, and records all locks before the one requested. -/
theorem scan_spec {c : Lock} {stack : LockStack Lock Location} :
    ∀ {rest : LockStack Lock Location} {orders : Lock × Lock → Option (LockStack Lock Location)},
      OneWay orders → (scan c stack rest orders).2 = [] →
      OneWay (scan c stack rest orders).1 ∧
        (∀ p, (orders p).isSome → ((scan c stack rest orders).1 p).isSome) ∧
        ∀ a ∈ (rest.map Prod.fst).takeWhile (· ≠ c), ((scan c stack rest orders).1 (a, c)).isSome
  | [], orders, hway, _ => ⟨hway, fun _ h => h, nofun⟩
  | i :: rest, orders, hway, hquiet => by
    unfold scan at hquiet ⊢
    by_cases hi : i.1 = c
    · rw [if_pos hi]
      refine ⟨hway, fun _ h => h, fun a ha => ?_⟩
      rw [List.map_cons, List.takeWhile_cons_of_neg (by simpa using hi)] at ha
      cases ha
    rw [if_neg hi] at hquiet ⊢
    dsimp only at hquiet ⊢
    rw [List.map_cons, List.takeWhile_cons_of_pos (by simpa using hi)]
    by_cases hknown : (orders (i.1, c)).isSome = true
    · rw [if_pos hknown] at hquiet ⊢
      obtain ⟨hway', hkeep, hrest⟩ := scan_spec hway hquiet
      exact ⟨hway', hkeep, List.forall_mem_cons.mpr ⟨hkeep _ hknown, hrest⟩⟩
    rw [if_neg hknown] at hquiet ⊢
    have hne : (c, i.1) ≠ (i.1, c) := fun heq => hi (Prod.mk.inj heq).2
    cases hopposite : Function.update orders (i.1, c) (some stack) (c, i.1) with
    | some previous =>
      rw [hopposite] at hquiet
      cases hquiet
    | none =>
      rw [hopposite] at hquiet
      dsimp only at hquiet ⊢
      have hupdate : OneWay (Function.update orders (i.1, c) (some stack)) := fun a b hab => by
        by_cases hpair : (a, b) = (i.1, c)
        · obtain ⟨rfl, rfl⟩ := Prod.mk.inj hpair
          exact hopposite
        · rw [Function.update_of_ne hpair] at hab
          have hback : (b, a) ≠ (i.1, c) := by
            intro heq
            obtain ⟨rfl, rfl⟩ := Prod.mk.inj heq
            rw [Function.update_of_ne hne] at hopposite
            rw [hopposite] at hab
            cases hab
          rw [Function.update_of_ne hback]
          exact hway a b hab
      obtain ⟨hway', hkeep, hrest⟩ := scan_spec hupdate hquiet
      refine ⟨hway', fun p hp => hkeep p ?_, List.forall_mem_cons.mpr ⟨hkeep _ ?_, hrest⟩⟩
      · by_cases hpair : p = (i.1, c)
        · rw [hpair, Function.update_self]
          rfl
        · rwa [Function.update_of_ne hpair]
      · rw [Function.update_self]
        rfl

/-- What holds as long as nothing was reported : the stacks are what the threads hold, all requests
are on record, and no pair is recorded both ways. -/
structure Records (calls : List (LockCall Thread Lock Location))
    (s : LockOrders Thread Lock Location) : Prop where
  stack : ∀ thread, (s.lockstack thread).map Prod.fst = held calls thread
  requested : ∀ a b, Requested calls a b → (s.lockorders (a, b)).isSome
  one_way : OneWay s.lockorders

section

variable {calls : List (LockCall Thread Lock Location)} {call : LockCall Thread Lock Location}
  {s s' : LockOrders Thread Lock Location}

/-- A report remains. -/
theorem reports_of_step (hstep : step s call = some s') (hquiet : s'.reports = []) :
    s.reports = [] := by
  cases call with
  | enterCritical thread cs location fTry =>
    cases hstep
    cases fTry with
    | true => exact hquiet
    | false => exact (List.append_eq_nil_iff.mp hquiet).1
  | leaveCritical thread =>
    change s.popLock thread = some s' at hstep
    unfold popLock at hstep
    split at hstep
    · cases hstep
    · cases hstep
      exact hquiet

namespace Records

theorem start : Records ([] : List (LockCall Thread Lock Location)) init where
  stack _ := rfl
  requested := by
    rintro a b ⟨before, thread, location, after, heq, -⟩
    exact absurd heq (List.append_ne_nil_of_right_ne_nil _ (List.cons_ne_nil _ _)).symm
  one_way _ _ h := by cases h

/-- A request keeps the record. -/
theorem enter {thread : Thread} {c : Lock} {location : Location} {fTry : Bool}
    (h : Records calls s) (hquiet : (s.pushLock thread c location fTry).reports = []) :
    Records (calls ++ [.enterCritical thread c location fTry])
      (s.pushLock thread c location fTry) := by
  have hstack : ∀ t, ((Function.update s.lockstack thread
      (s.lockstack thread ++ [(c, location)])) t).map Prod.fst =
        held (calls ++ [.enterCritical thread c location fTry]) t := fun t => by
    rw [held_concat, heldStep, ← h.stack t]
    by_cases ht : thread = t
    · subst ht
      rw [Function.update_self, if_pos rfl, List.map_append, List.map_singleton]
    · rw [Function.update_of_ne (Ne.symm ht), if_neg ht]
  cases fTry with
  | true =>
    refine ⟨hstack, fun a b hab => ?_, h.one_way⟩
    rcases requested_concat hab with hab | ⟨_, _, heq, -⟩
    · exact h.requested a b hab
    · cases heq
  | false =>
    obtain ⟨-, hscan⟩ := List.append_eq_nil_iff.mp hquiet
    obtain ⟨hway, hkeep, hrecorded⟩ := scan_spec h.one_way hscan
    refine ⟨hstack, fun a b hab => ?_, hway⟩
    rcases requested_concat hab with hab | ⟨t, _, heq, ha, hb⟩
    · exact hkeep _ (h.requested a b hab)
    · cases heq
      refine hrecorded a ?_
      rw [← h.stack] at ha hb
      have hall : ∀ i ∈ (s.lockstack thread).map Prod.fst, decide (i ≠ c) = true := fun i hi =>
        decide_eq_true fun hic => hb (hic ▸ hi)
      rw [List.map_append, List.takeWhile_append_of_pos hall]
      exact List.mem_append_left _ ha

/-- Leaving a lock keeps the record. -/
theorem leave {thread : Thread} (h : Records calls s) (hpop : s.popLock thread = some s') :
    Records (calls ++ [.leaveCritical thread]) s' := by
  unfold popLock at hpop
  split at hpop
  · cases hpop
  cases hpop
  refine ⟨fun t => ?_, fun a b hab => ?_, h.one_way⟩
  · rw [held_concat, heldStep, ← h.stack t]
    dsimp only
    by_cases ht : thread = t
    · subst ht
      rw [Function.update_self, if_pos rfl, List.map_dropLast]
    · rw [Function.update_of_ne (Ne.symm ht), if_neg ht]
  · rcases requested_concat hab with hab | ⟨_, _, heq, -⟩
    · exact h.requested a b hab
    · cases heq

/-- As long as nothing was reported, the record is kept. -/
theorem of_run (h : run calls = some s) (hquiet : s.reports = []) : Records calls s := by
  induction calls using List.reverseRecOn generalizing s with
  | nil =>
    cases h
    exact start
  | append_singleton calls call ih =>
    obtain ⟨s₀, hrun, hstep⟩ := run_concat.mp h
    have hbefore := ih hrun (reports_of_step hstep hquiet)
    cases call with
    | enterCritical thread cs location fTry =>
      cases hstep
      exact hbefore.enter hquiet
    | leaveCritical thread => exact hbefore.leave hstep

end Records

end

/-- As long as no potential deadlock was reported, no two locks were requested in both orders. -/
theorem requests_one_way {calls : List (LockCall Thread Lock Location)}
    {s : LockOrders Thread Lock Location} (h : run calls = some s) (hquiet : s.reports = []) :
    ¬∃ a b, a ≠ b ∧ Requested calls a b ∧ Requested calls b a := by
  rintro ⟨a, b, -, hab, hba⟩
  have hrecords := Records.of_run h hquiet
  have hsome := hrecords.requested b a hba
  rw [hrecords.one_way a b (hrecords.requested a b hab)] at hsome
  cases hsome

/-- Two threads that request two locks in one order, one of them once more after an attempt. -/
def sampleLocks : List (LockCall ℕ ℕ Unit) :=
  [.enterCritical 0 1 () false, .enterCritical 1 2 () true, .leaveCritical 1,
    .enterCritical 0 2 () false, .leaveCritical 0, .leaveCritical 0,
    .enterCritical 1 1 () false, .enterCritical 1 2 () false, .enterCritical 1 1 () false]

theorem requests_one_way_sampleLocks : (∃ s, run sampleLocks = some s ∧ s.reports = []) ∧
    ¬∃ a b, a ≠ b ∧ Requested sampleLocks a b ∧ Requested sampleLocks b a :=
  ⟨⟨_, rfl, rfl⟩, requests_one_way rfl rfl⟩

end LockOrders

end Ticoin
