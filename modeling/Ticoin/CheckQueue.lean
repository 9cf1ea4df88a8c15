import Ticoin.Lib.Machine

/-!
# CCheckQueue : checks shared out among threads

One thread, the master, pushes batches of checks onto a queue, where worker threads take
them. When the master is done adding, it joins the workers in `Wait` until all are
processed, and returns whether all evaluated to true.

A thread in `Loop` is idle on its condition variable or executes checks it took, outside of
the lock ; what it does with the lock held is one step (`loopStart`, after the clean-up of
the batch it comes with). A wait can end at any time, as condition variables allow. The
threads are the workers and the master, `none`.

`Inv` counts what the threads hold : the checks to do are those in the queue and those in
the batches, and all the checks added evaluate to true when the flag is up, those in the
queue do, and each batch comes out true. As each step keeps it, the master returns the
conjunction of the checks, and leaves the queue unused (`checkQueue_wait`).
-/

namespace Ticoin

/-! ## The queue -/

structure CheckQueue (T : Type*) where
  /-- a stack, its top at the end -/
  queue : List T
  /-- the number of threads that are idle -/
  nIdle : ℤ
  /-- the total number of threads in `Loop` -/
  nTotal : ℤ
  /-- the temporary evaluation result -/
  fAllOk : Bool
  /-- the number of checks that are not completed, in the queue or in batches -/
  nTodo : UInt32
  fQuit : Bool
  nBatchSize : UInt32

/-- Where a thread is, with the variables of `Loop` that matter there. -/
inductive LoopState (T : Type*)
  | outside
  | waiting
  | checking (nNow : UInt32) (vChecks : List T) (fOk : Bool)

namespace CheckQueue

variable {T : Type*}

def init (nBatchSize : UInt32) : CheckQueue T := ⟨[], 0, 0, true, 0, false, nBatchSize⟩

/-- How many checks to take now. -/
def batchSize (q : CheckQueue T) : UInt32 :=
  max 1 (min q.nBatchSize (UInt32.ofNat q.queue.length / UInt32.ofInt (q.nTotal + q.nIdle + 1)))

/-- From where the loop starts up to where the lock is let go. -/
def loopStart (fMaster : Bool) (q : CheckQueue T) : CheckQueue T × LoopState T × Option Bool :=
  if q.queue.isEmpty then
    if (fMaster || q.fQuit) && q.nTodo == 0 then
      ({ q with nTotal := q.nTotal - 1, fAllOk := if fMaster then true else q.fAllOk },
        .outside, some q.fAllOk)
    else ({ q with nIdle := q.nIdle + 1 }, .waiting, none)
  else
    let nNow := q.batchSize
    let left := q.queue.length - nNow.toNat
    ({ q with queue := q.queue.take left },
      .checking nNow (q.queue.drop left).reverse q.fAllOk, none)

/-- The first iteration. -/
def enter (q : CheckQueue T) : CheckQueue T := { q with nTotal := q.nTotal + 1 }

/-- The clean-up of the previous run of the loop. -/
def cleanUp (q : CheckQueue T) (nNow : UInt32) (fOk : Bool) : CheckQueue T :=
  { q with fAllOk := q.fAllOk && fOk, nTodo := q.nTodo - nNow }

def wake (q : CheckQueue T) : CheckQueue T := { q with nIdle := q.nIdle - 1 }

/-- `Add`. -/
def add (q : CheckQueue T) (vChecks : List T) : CheckQueue T :=
  { q with queue := q.queue ++ vChecks, nTodo := q.nTodo + UInt32.ofNat vChecks.length }

/-- What `CCheckQueueControl` asserts of a queue it is passed. -/
def unused (q : CheckQueue T) : Bool := q.nTotal == q.nIdle && q.nTodo == 0 && q.fAllOk

end CheckQueue

/-! ## Threads -/

/-- The queue and its threads, and the checks that were added since the previous `Wait`. -/
structure CheckThreads (W T : Type*) where
  q : CheckQueue T
  threads : Option W → LoopState T
  added : List T

inductive CheckAction (W T : Type*)
  /-- the master adds checks -/
  | add (vChecks : List T)
  /-- a thread calls `Loop` -/
  | enter (i : Option W)
  /-- a thread comes out of its wait -/
  | wake (i : Option W)
  /-- a thread executes the next check of its batch -/
  | check (i : Option W)
  /-- a thread takes the lock after its batch -/
  | finish (i : Option W)

namespace CheckThreads

variable {W T : Type*} [DecidableEq W]

def init (nBatchSize : UInt32) : CheckThreads W T := ⟨.init nBatchSize, fun _ => .outside, []⟩

/-- A thread goes through the loop with the lock held, from a state of the queue : what
`Loop` returns, if it does. The checks added are over when the master returns. -/
def critical (s : CheckThreads W T) (i : Option W) (q : CheckQueue T) :
    CheckThreads W T × Option Bool :=
  let r := q.loopStart i.isNone
  (⟨r.1, Function.update s.threads i r.2.1, if i.isNone && r.2.2.isSome then [] else s.added⟩, r.2.2)

/-- One step of one thread. The checks of a batch are fewer than `unsigned int` counts, as
those of a block are. -/
def step (eval : T → Bool) (s : CheckThreads W T) :
    CheckAction W T → Option (CheckThreads W T × Option Bool)
  | .add vChecks =>
    match s.threads none with
    | .outside =>
      if s.added.length + vChecks.length < 2 ^ 32 then
        some (⟨s.q.add vChecks, s.threads, s.added ++ vChecks⟩, none)
      else none
    | _ => none
  | .enter i =>
    match s.threads i with
    | .outside => some (s.critical i s.q.enter)
    | _ => none
  | .wake i =>
    match s.threads i with
    | .waiting => some (s.critical i s.q.wake)
    | _ => none
  | .check i =>
    match s.threads i with
    | .checking nNow (check :: vChecks) fOk =>
      some ({ s with
        threads := Function.update s.threads i (.checking nNow vChecks (if fOk then eval check else fOk)) },
        none)
    | _ => none
  | .finish i =>
    match s.threads i with
    | .checking nNow [] fOk => some (s.critical i (s.q.cleanUp nNow fOk))
    | _ => none

end CheckThreads

/-! ## What the threads hold -/

namespace LoopState

variable {T : Type*}

/-- The checks of its batch a thread has yet to account for. -/
def todo : LoopState T → ℕ
  | checking nNow _ _ => nNow.toNat
  | _ => 0

def inLoop : LoopState T → ℤ
  | outside => 0
  | _ => 1

def idle : LoopState T → ℤ
  | waiting => 1
  | _ => 0

/-- The batch of a thread comes out true. -/
def Good (eval : T → Bool) : LoopState T → Prop
  | checking _ vChecks fOk => fOk = true ∧ ∀ c ∈ vChecks, eval c = true
  | _ => True

/-- Batches are not empty. -/
def Busy (l : LoopState T) : Prop :=
  ∀ nNow vChecks fOk, l = checking nNow vChecks fOk → 0 < nNow.toNat

/-- A thread with the lock holds no check. -/
def locked : LoopState T := checking 0 [] true

end LoopState

namespace CheckThreads

variable {W T : Type*} [DecidableEq W] [Fintype W] {eval : T → Bool} {s s' : CheckThreads W T}

variable (eval) in
/-- The counters count what the threads hold, and no result is lost. -/
structure Inv (s : CheckThreads W T) : Prop where
  nTodo : s.q.nTodo.toNat = s.q.queue.length + ∑ i, (s.threads i).todo
  nTodo_le : s.q.queue.length + ∑ i, (s.threads i).todo ≤ s.added.length
  added_lt : s.added.length < 2 ^ 32
  nTotal : s.q.nTotal = ∑ i, (s.threads i).inLoop
  nIdle : s.q.nIdle = ∑ i, (s.threads i).idle
  fQuit : s.q.fQuit = false
  result : (∀ c ∈ s.added, eval c = true) ↔ s.q.fAllOk = true ∧
    (∀ c ∈ s.q.queue, eval c = true) ∧ ∀ i, (s.threads i).Good eval

omit [DecidableEq W] [Fintype W] in
/-- At least one check is taken, and no more than there are. -/
theorem batchSize_spec {q : CheckQueue T} (h : q.queue ≠ []) :
    0 < q.batchSize.toNat ∧ q.batchSize.toNat ≤ q.queue.length := by
  have hpos := List.length_pos_iff.mpr h
  have hdiv : (UInt32.ofNat q.queue.length / UInt32.ofInt (q.nTotal + q.nIdle + 1)).toNat ≤
      q.queue.length := by
    rw [UInt32.toNat_div, UInt32.toNat_ofNat']
    exact (Nat.div_le_self _ _).trans (Nat.mod_le _ _)
  rw [CheckQueue.batchSize]
  generalize UInt32.ofNat q.queue.length / UInt32.ofInt (q.nTotal + q.nIdle + 1) = d at hdiv
  have hmax : ∀ a b : UInt32, max a b = if a ≤ b then b else a := fun _ _ => rfl
  have hmin : ∀ a b : UInt32, min a b = if a ≤ b then a else b := fun _ _ => rfl
  have hone : (1 : UInt32).toNat = 1 := rfl
  simp only [hmax, hmin, UInt32.le_iff_toNat_le, hone]
  split_ifs <;> omega

omit [DecidableEq W] in
variable (eval) in
theorem Inv.init (nBatchSize : UInt32) :
    (CheckThreads.init (W := W) (T := T) nBatchSize).Inv eval where
  nTodo := by simp [CheckThreads.init, CheckQueue.init, LoopState.todo]
  nTodo_le := by simp [CheckThreads.init, CheckQueue.init, LoopState.todo]
  added_lt := by simp [CheckThreads.init]
  nTotal := by simp [CheckThreads.init, CheckQueue.init, LoopState.inLoop]
  nIdle := by simp [CheckThreads.init, CheckQueue.init, LoopState.idle]
  fQuit := rfl
  result := by simp [CheckThreads.init, CheckQueue.init, LoopState.Good]

/-! ## Taking the lock -/

/-- A thread takes the lock, and accounts for what it held. -/
theorem Inv.lock (h : s.Inv eval) {i : Option W} {q : CheckQueue T} (hqueue : q.queue = s.q.queue)
    (hquit : q.fQuit = s.q.fQuit)
    (htodo : q.nTodo.toNat + (s.threads i).todo = s.q.nTodo.toNat)
    (htotal : q.nTotal + (s.threads i).inLoop = s.q.nTotal + 1)
    (hidle : q.nIdle + (s.threads i).idle = s.q.nIdle)
    (hresult : q.fAllOk = true ↔ s.q.fAllOk = true ∧ (s.threads i).Good eval) :
    Inv eval ⟨q, Function.update s.threads i .locked, s.added⟩ := by
  have hsum : ∑ j, (Function.update s.threads i .locked j).todo + (s.threads i).todo =
      ∑ j, (s.threads j).todo := Machine.sum_update LoopState.todo s.threads i .locked
  have hloop : ∑ j, (Function.update s.threads i .locked j).inLoop + (s.threads i).inLoop =
      ∑ j, (s.threads j).inLoop + 1 := Machine.sum_update LoopState.inLoop s.threads i .locked
  have hwait : ∑ j, (Function.update s.threads i .locked j).idle + (s.threads i).idle =
      ∑ j, (s.threads j).idle + 0 := Machine.sum_update LoopState.idle s.threads i .locked
  have h1 := h.nTodo
  have h2 := h.nTodo_le
  have h3 := h.nTotal
  have h4 := h.nIdle
  refine ⟨?_, ?_, h.added_lt, ?_, ?_, hquit.trans h.fQuit, h.result.trans ?_⟩
  · dsimp only
    rw [hqueue]
    omega
  · dsimp only
    rw [hqueue]
    omega
  · dsimp only
    omega
  · dsimp only
    omega
  · dsimp only
    rw [Machine.forall_update (P := LoopState.Good eval), hresult, hqueue]
    constructor
    · rintro ⟨hall, hq, hg⟩
      exact ⟨⟨hall, hg i⟩, hq, ⟨rfl, nofun⟩, fun j _ => hg j⟩
    · rintro ⟨⟨hall, hi⟩, hq, -, hg⟩
      refine ⟨hall, hq, fun j => ?_⟩
      by_cases hj : j = i
      · exact hj ▸ hi
      · exact hg j hj

/-- The first iteration counts the thread. -/
theorem Inv.enter (h : s.Inv eval) {i : Option W} (hi : s.threads i = .outside) :
    Inv eval ⟨s.q.enter, Function.update s.threads i .locked, s.added⟩ := by
  refine h.lock rfl rfl ?_ ?_ ?_ ?_ <;> rw [hi]
  · rfl
  · exact add_zero _
  · exact add_zero _
  · exact (and_iff_left trivial).symm

/-- A thread that comes out of its wait is not idle. -/
theorem Inv.wake (h : s.Inv eval) {i : Option W} (hi : s.threads i = .waiting) :
    Inv eval ⟨s.q.wake, Function.update s.threads i .locked, s.added⟩ := by
  refine h.lock rfl rfl ?_ ?_ ?_ ?_ <;> rw [hi]
  · rfl
  · rfl
  · exact sub_add_cancel _ _
  · exact (and_iff_left trivial).symm

/-- The clean-up accounts for the batch. -/
theorem Inv.cleanUp (h : s.Inv eval) {i : Option W} {nNow : UInt32} {fOk : Bool}
    (hi : s.threads i = .checking nNow [] fOk) :
    Inv eval ⟨s.q.cleanUp nNow fOk, Function.update s.threads i .locked, s.added⟩ := by
  have hle : nNow ≤ s.q.nTodo := by
    have hone : (s.threads i).todo ≤ ∑ j, (s.threads j).todo :=
      Finset.single_le_sum (f := fun j => (s.threads j).todo) (fun _ _ => Nat.zero_le _)
        (Finset.mem_univ i)
    rw [hi, LoopState.todo] at hone
    rw [UInt32.le_iff_toNat_le, h.nTodo]
    omega
  refine h.lock rfl rfl ?_ ?_ ?_ ?_ <;> rw [hi]
  · rw [CheckQueue.cleanUp, UInt32.toNat_sub_of_le _ _ hle, LoopState.todo]
    exact Nat.sub_add_cancel (UInt32.le_iff_toNat_le.mp hle)
  · rfl
  · exact add_zero _
  · simp [CheckQueue.cleanUp, LoopState.Good]

/-! ## Letting the lock go -/

/-- A thread lets the lock go, and holds what it took from the queue. -/
theorem Inv.unlock (h : s.Inv eval) {i : Option W} (hi : s.threads i = .locked)
    {q : CheckQueue T} {l : LoopState T} (hquit : q.fQuit = s.q.fQuit)
    (htodo : q.nTodo = s.q.nTodo) (hqueue : q.queue.length + l.todo = s.q.queue.length)
    (htotal : q.nTotal + 1 = s.q.nTotal + l.inLoop) (hidle : q.nIdle = s.q.nIdle + l.idle)
    (hresult : (s.q.fAllOk = true ∧ ∀ c ∈ s.q.queue, eval c = true) ↔
      q.fAllOk = true ∧ (∀ c ∈ q.queue, eval c = true) ∧ l.Good eval) :
    Inv eval ⟨q, Function.update s.threads i l, s.added⟩ := by
  have hsum := Machine.sum_update LoopState.todo s.threads i l
  have hloop := Machine.sum_update LoopState.inLoop s.threads i l
  have hwait := Machine.sum_update LoopState.idle s.threads i l
  rw [hi] at hsum hloop hwait
  have hz : (LoopState.locked : LoopState T).todo = 0 := rfl
  have ho : (LoopState.locked : LoopState T).inLoop = 1 := rfl
  have hw : (LoopState.locked : LoopState T).idle = 0 := rfl
  have h1 := h.nTodo
  have h2 := h.nTodo_le
  have h3 := h.nTotal
  have h4 := h.nIdle
  refine ⟨?_, ?_, h.added_lt, ?_, ?_, hquit.trans h.fQuit, h.result.trans ?_⟩
  · dsimp only
    rw [htodo]
    omega
  · dsimp only
    omega
  · dsimp only
    omega
  · dsimp only
    omega
  · dsimp only
    rw [Machine.forall_update (P := LoopState.Good eval), ← and_assoc, hresult]
    constructor
    · rintro ⟨⟨hall, hq, hl⟩, hg⟩
      exact ⟨hall, hq, hl, fun j _ => hg j⟩
    · rintro ⟨hall, hq, hl, hg⟩
      refine ⟨⟨hall, hq, hl⟩, fun j => ?_⟩
      by_cases hj : j = i
      · rw [hj, hi]
        exact ⟨rfl, nofun⟩
      · exact hg j hj

omit [DecidableEq W] in
/-- When there is nothing to do, the queue is empty and no thread holds a check. -/
theorem Inv.of_nTodo (h : s.Inv eval) (hzero : s.q.nTodo = 0) (hbusy : ∀ i, (s.threads i).Busy) :
    s.q.queue = [] ∧ ∀ i, s.threads i = .outside ∨ s.threads i = .waiting := by
  have hsum := h.nTodo
  have hz : (0 : UInt32).toNat = 0 := rfl
  rw [hzero, hz] at hsum
  refine ⟨List.length_eq_zero_iff.mp (by omega), fun i => ?_⟩
  have hone : (s.threads i).todo ≤ ∑ j, (s.threads j).todo :=
    Finset.single_le_sum (f := fun j => (s.threads j).todo) (fun _ _ => Nat.zero_le _)
      (Finset.mem_univ i)
  cases hs : s.threads i with
  | outside => exact .inl rfl
  | waiting => exact .inr rfl
  | checking nNow vChecks fOk =>
    have hpos := hbusy i nNow vChecks fOk hs
    rw [hs, LoopState.todo] at hone
    omega

omit [DecidableEq W] in
/-- The status is reset for new work when there is nothing to do. -/
theorem Inv.reset (h : s.Inv eval) (hzero : s.q.nTodo = 0) (hbusy : ∀ i, (s.threads i).Busy) :
    Inv eval ⟨{ s.q with fAllOk := true }, s.threads, []⟩ := by
  obtain ⟨hempty, hidle⟩ := h.of_nTodo hzero hbusy
  have hsum := h.nTodo
  have hz : (0 : UInt32).toNat = 0 := rfl
  refine ⟨hsum, ?_, by simp, h.nTotal, h.nIdle, h.fQuit, ?_⟩
  · rw [hzero, hz] at hsum
    exact hsum.symm.le
  · refine ⟨fun _ => ⟨rfl, by simp [hempty], fun i => ?_⟩, fun _ => nofun⟩
    rcases hidle i with hi | hi <;> rw [hi] <;> trivial

omit [DecidableEq W] [Fintype W] in
/-- From the start of the loop a thread returns, waits, or takes a batch. Only the master
returns, with nothing to do. -/
theorem loopStart_cases {q : CheckQueue T} (hquit : q.fQuit = false) (fMaster : Bool) :
    (fMaster = true ∧ q.queue = [] ∧ q.nTodo = 0 ∧ q.loopStart fMaster =
      ({ q with nTotal := q.nTotal - 1, fAllOk := true }, .outside, some q.fAllOk)) ∨
    (q.queue = [] ∧ q.loopStart fMaster = ({ q with nIdle := q.nIdle + 1 }, .waiting, none)) ∨
    (q.queue ≠ [] ∧ q.loopStart fMaster =
      ({ q with queue := q.queue.take (q.queue.length - q.batchSize.toNat) },
        .checking q.batchSize (q.queue.drop (q.queue.length - q.batchSize.toNat)).reverse q.fAllOk,
        none)) := by
  by_cases hempty : q.queue = []
  · by_cases hret : ((fMaster || q.fQuit) && q.nTodo == 0) = true
    · have hret' := hret
      rw [hquit, Bool.or_false, Bool.and_eq_true, beq_iff_eq] at hret'
      refine .inl ⟨hret'.1, hempty, hret'.2, ?_⟩
      rw [CheckQueue.loopStart, if_pos (List.isEmpty_iff.mpr hempty), if_pos hret, if_pos hret'.1]
    · refine .inr (.inl ⟨hempty, ?_⟩)
      rw [CheckQueue.loopStart, if_pos (List.isEmpty_iff.mpr hempty), if_neg hret]
  · refine .inr (.inr ⟨hempty, ?_⟩)
    rw [CheckQueue.loopStart, if_neg (by simpa using hempty)]

/-- What a thread does with the lock held. The master returns the conjunction of the checks,
and then the checks added are over. -/
theorem Inv.critical (h : s.Inv eval) {i : Option W} (hi : s.threads i = .locked)
    (hbusy : ∀ j, j ≠ i → (s.threads j).Busy) :
    (s.critical i s.q).1.Inv eval ∧ (∀ j, ((s.critical i s.q).1.threads j).Busy) ∧
    ∀ r, (s.critical i s.q).2 = some r → (s.critical i s.q).1.threads none = .outside ∧
      (s.critical i s.q).1.added = [] ∧ (r = true ↔ ∀ c ∈ s.added, eval c = true) := by
  have hbusy' : ∀ {l : LoopState T}, l.Busy → ∀ j, (Function.update s.threads i l j).Busy :=
    fun hl => (Machine.forall_update (P := LoopState.Busy)).mpr ⟨hl, hbusy⟩
  obtain ⟨hmaster, hempty, hzero, heq⟩ | ⟨hempty, heq⟩ | ⟨hne, heq⟩ :=
    loopStart_cases h.fQuit i.isNone
  · obtain rfl := Option.isNone_iff_eq_none.mp hmaster
    have hcrit : s.critical none s.q = (⟨{ s.q with nTotal := s.q.nTotal - 1, fAllOk := true },
        Function.update s.threads none .outside, []⟩, some s.q.fAllOk) := by
      rw [CheckThreads.critical, heq]
      rfl
    have hleft := h.unlock hi (q := { s.q with nTotal := s.q.nTotal - 1 }) (l := .outside) rfl rfl
      rfl (by simp [LoopState.inLoop]) (by simp [LoopState.idle]) (by simp [LoopState.Good, hempty])
    rw [hcrit]
    refine ⟨hleft.reset hzero (hbusy' nofun), hbusy' nofun, ?_⟩
    rintro _ ⟨⟩
    refine ⟨Function.update_self (none : Option W) LoopState.outside s.threads, rfl,
      (h.result.trans ?_).symm⟩
    have hidle := (hleft.of_nTodo hzero (hbusy' nofun)).2
    refine ⟨fun hr => hr.1, fun hr => ⟨hr, by simp [hempty], fun j => ?_⟩⟩
    by_cases hj : j = none
    · rw [hj, hi]
      exact ⟨rfl, nofun⟩
    · have hj' := hidle j
      dsimp only at hj'
      rw [Function.update_of_ne hj] at hj'
      rcases hj' with hj' | hj' <;> rw [hj'] <;> trivial
  · have hcrit : s.critical i s.q = (⟨{ s.q with nIdle := s.q.nIdle + 1 },
        Function.update s.threads i .waiting, s.added⟩, none) := by
      rw [CheckThreads.critical, heq, Option.isSome_none, Bool.and_false, if_neg Bool.false_ne_true]
    rw [hcrit]
    refine ⟨h.unlock hi rfl rfl rfl rfl rfl ?_, hbusy' nofun, nofun⟩
    exact and_congr_right fun _ => (and_iff_left trivial).symm
  · obtain ⟨hpos, hle⟩ := batchSize_spec hne
    have hcrit : s.critical i s.q = (⟨{ s.q with
          queue := s.q.queue.take (s.q.queue.length - s.q.batchSize.toNat) },
        Function.update s.threads i (.checking s.q.batchSize
          (s.q.queue.drop (s.q.queue.length - s.q.batchSize.toNat)).reverse s.q.fAllOk),
        s.added⟩, none) := by
      rw [CheckThreads.critical, heq, Option.isSome_none, Bool.and_false, if_neg Bool.false_ne_true]
    rw [hcrit]
    refine ⟨h.unlock hi rfl rfl ?_ rfl (add_zero _).symm ?_, hbusy' ?_, nofun⟩
    · simp only [List.length_take, LoopState.todo]
      omega
    · have hsplit : (∀ c ∈ s.q.queue, eval c = true) ↔
          (∀ c ∈ s.q.queue.take (s.q.queue.length - s.q.batchSize.toNat), eval c = true) ∧
          ∀ c ∈ s.q.queue.drop (s.q.queue.length - s.q.batchSize.toNat), eval c = true := by
        rw [← List.forall_mem_append, List.take_append_drop]
      simp only [LoopState.Good, List.mem_reverse, hsplit]
      tauto
    · rintro _ _ _ ⟨⟩
      exact hpos

/-! ## Steps and runs -/

/-- A thread comes to the loop with the queue accounted for. -/
theorem Inv.critical_of_lock {i : Option W} {q : CheckQueue T}
    (h : Inv eval ⟨q, Function.update s.threads i .locked, s.added⟩)
    (hbusy : ∀ j, (s.threads j).Busy) :
    (s.critical i q).1.Inv eval ∧ (∀ j, ((s.critical i q).1.threads j).Busy) ∧
    ∀ r, (s.critical i q).2 = some r → (s.critical i q).1.threads none = .outside ∧
      (s.critical i q).1.added = [] ∧ (r = true ↔ ∀ c ∈ s.added, eval c = true) := by
  have hcrit := h.critical (i := i) (Function.update_self _ _ _) fun j hj => by
    dsimp only
    rw [Function.update_of_ne hj]
    exact hbusy j
  simpa only [CheckThreads.critical, Function.update_idem] using hcrit

/-- The invariant between critical sections. -/
structure Steady (eval : T → Bool) (s : CheckThreads W T) : Prop where
  inv : s.Inv eval
  busy : ∀ i, (s.threads i).Busy

omit [DecidableEq W] in
theorem Inv.add (h : s.Inv eval) {vChecks : List T}
    (hlen : s.added.length + vChecks.length < 2 ^ 32) :
    Inv eval ⟨s.q.add vChecks, s.threads, s.added ++ vChecks⟩ := by
  have h1 := h.nTodo
  have h2 := h.nTodo_le
  have hsize : (UInt32.ofNat vChecks.length).toNat = vChecks.length := by
    rw [UInt32.toNat_ofNat', Nat.mod_eq_of_lt (by omega)]
  refine ⟨?_, ?_, by rwa [List.length_append], h.nTotal, h.nIdle, h.fQuit, ?_⟩
  · simp only [CheckQueue.add, UInt32.toNat_add, hsize, List.length_append]
    omega
  · simp only [CheckQueue.add, List.length_append]
    omega
  · simp only [CheckQueue.add, List.forall_mem_append, h.result]
    tauto

/-- The next check of a batch. -/
theorem Inv.check (h : s.Inv eval) {i : Option W} {nNow : UInt32} {check : T} {vChecks : List T}
    {fOk : Bool} (hi : s.threads i = .checking nNow (check :: vChecks) fOk) :
    Inv eval { s with
      threads := Function.update s.threads i
        (.checking nNow vChecks (if fOk then eval check else fOk)) } := by
  set l : LoopState T := .checking nNow vChecks (if fOk then eval check else fOk) with hl
  have hsum := Machine.sum_update LoopState.todo s.threads i l
  have hloop := Machine.sum_update LoopState.inLoop s.threads i l
  have hwait := Machine.sum_update LoopState.idle s.threads i l
  rw [hi] at hsum hloop hwait
  have hsum' : ∑ j, (Function.update s.threads i l j).todo = ∑ j, (s.threads j).todo :=
    add_right_cancel hsum
  have hloop' : ∑ j, (Function.update s.threads i l j).inLoop = ∑ j, (s.threads j).inLoop :=
    add_right_cancel hloop
  have hwait' : ∑ j, (Function.update s.threads i l j).idle = ∑ j, (s.threads j).idle :=
    add_right_cancel hwait
  refine ⟨?_, ?_, h.added_lt, ?_, ?_, h.fQuit, h.result.trans ?_⟩
  · dsimp only
    rw [hsum']
    exact h.nTodo
  · dsimp only
    rw [hsum']
    exact h.nTodo_le
  · dsimp only
    rw [hloop']
    exact h.nTotal
  · dsimp only
    rw [hwait']
    exact h.nIdle
  · refine and_congr_right fun _ => and_congr_right fun _ => ?_
    have hgood : l.Good eval ↔ (s.threads i).Good eval := by
      rw [hi, hl]
      cases fOk <;> simp [LoopState.Good]
    dsimp only
    rw [Machine.forall_update (P := LoopState.Good eval), hgood]
    refine ⟨fun hg => ⟨hg i, fun j _ => hg j⟩, fun ⟨hown, hg⟩ j => ?_⟩
    by_cases hj : j = i
    · exact hj ▸ hown
    · exact hg j hj

/-- What one step does : it keeps the invariant, and if `Wait` returns with it, that is the
conjunction of the checks, which are over. -/
theorem Steady.step (h : s.Steady eval) {a : CheckAction W T} {r : Option Bool}
    (hstep : s.step eval a = some (s', r)) :
    s'.Steady eval ∧ ∀ b, r = some b → s'.threads none = .outside ∧ s'.added = [] ∧
      (b = true ↔ ∀ c ∈ s.added, eval c = true) := by
  have hcritical : ∀ {i q}, Inv eval ⟨q, Function.update s.threads i .locked, s.added⟩ →
      some (s.critical i q) = some (s', r) →
      s'.Steady eval ∧ ∀ b, r = some b → s'.threads none = .outside ∧ s'.added = [] ∧
        (b = true ↔ ∀ c ∈ s.added, eval c = true) := by
    intro i q hlock heq
    obtain ⟨hinv, hbusy, hret⟩ := hlock.critical_of_lock h.busy
    rw [Option.some.inj heq] at hinv hbusy hret
    exact ⟨⟨hinv, hbusy⟩, hret⟩
  cases a with
  | add vChecks =>
    rw [CheckThreads.step] at hstep
    split at hstep
    · split at hstep
      · rename_i hlen
        cases hstep
        exact ⟨⟨h.inv.add hlen, h.busy⟩, nofun⟩
      · cases hstep
    · cases hstep
  | enter i =>
    rw [CheckThreads.step] at hstep
    split at hstep
    · rename_i hi
      exact hcritical (h.inv.enter hi) hstep
    · cases hstep
  | wake i =>
    rw [CheckThreads.step] at hstep
    split at hstep
    · rename_i hi
      exact hcritical (h.inv.wake hi) hstep
    · cases hstep
  | check i =>
    rw [CheckThreads.step] at hstep
    split at hstep
    · rename_i hi
      cases hstep
      refine ⟨⟨h.inv.check hi, ?_⟩, nofun⟩
      refine (Machine.forall_update (P := LoopState.Busy)).mpr ⟨?_, fun j _ => h.busy j⟩
      rintro _ _ _ ⟨⟩
      exact h.busy i _ _ _ hi
    · cases hstep
  | finish i =>
    rw [CheckThreads.step] at hstep
    split at hstep
    · rename_i hi
      exact hcritical (h.inv.cleanUp hi) hstep
    · cases hstep

/-- The invariant holds in every state of a run. -/
theorem Steady.run : ∀ {actions : List (CheckAction W T)} {s s' : CheckThreads W T}
    {outs : List (Option Bool)}, s.Steady eval →
    Machine.run (CheckThreads.step eval) s actions = some (s', outs) → s'.Steady eval
  | [], s, s', outs, h, hrun => by
    cases hrun
    exact h
  | a :: actions, s, s', outs, h, hrun => by
    obtain ⟨s₁, o, outs', hstep, hrest, -⟩ := Machine.run_cons_eq_some hrun
    exact Steady.run (h.step hstep).1 hrest

omit [DecidableEq W] in
/-- No check is in flight once the checks added are over, and the queue can be passed to
another `CCheckQueueControl`. -/
theorem Steady.unused (h : s.Steady eval) (hadded : s.added = []) : s.q.unused = true ∧ s.q.queue = [] ∧
      ∀ i, s.threads i = .outside ∨ s.threads i = .waiting := by
  have hle := h.inv.nTodo_le
  rw [hadded, List.length_nil] at hle
  have hzero : s.q.nTodo = 0 := by
    have hn := h.inv.nTodo
    have hz : (0 : UInt32).toNat = 0 := rfl
    exact UInt32.toNat_inj.mp (hn.trans (by omega))
  obtain ⟨hempty, hidle⟩ := h.inv.of_nTodo hzero h.busy
  refine ⟨?_, hempty, hidle⟩
  have hok : s.q.fAllOk = true := (h.inv.result.mp (by simp [hadded])).1
  have hcount : s.q.nTotal = s.q.nIdle := by
    rw [h.inv.nTotal, h.inv.nIdle]
    refine Finset.sum_congr rfl fun i _ => ?_
    rcases hidle i with hi | hi <;> rw [hi] <;> rfl
  simp [CheckQueue.unused, hcount, hzero, hok]

/-- However the threads interleave : when `Wait` returns, it returns whether every check
added since the previous one evaluates to true ; and then, and up to the next `Add`, the
queue is empty and unused, and no thread holds a check. -/
theorem checkQueue_wait (eval : T → Bool) {nBatchSize : UInt32} {actions : List (CheckAction W T)}
    {outs : List (Option Bool)}
    (hrun : Machine.run (CheckThreads.step eval) (.init nBatchSize) actions = some (s, outs)) :
    (∀ a s' r, s.step eval a = some (s', some r) →
      (r = true ↔ ∀ c ∈ s.added, eval c = true) ∧ s'.threads none = .outside ∧ s'.added = [] ∧
      s'.q.unused = true ∧ s'.q.queue = [] ∧
      ∀ i, s'.threads i = .outside ∨ s'.threads i = .waiting) ∧
    (s.added = [] → s.q.unused = true ∧ s.q.queue = [] ∧
      ∀ i, s.threads i = .outside ∨ s.threads i = .waiting) := by
  have hsteady : s.Steady eval :=
    Steady.run ⟨.init eval nBatchSize, fun i => by simp [CheckThreads.init, LoopState.Busy]⟩ hrun
  refine ⟨fun a s' r hstep => ?_, hsteady.unused⟩
  obtain ⟨hsteady', hret⟩ := hsteady.step hstep
  obtain ⟨hout, hadded, hr⟩ := hret r rfl
  exact ⟨hr, hout, hadded, hsteady'.unused hadded⟩

/-- Two workers and the master share out three checks, of which one fails. -/
theorem checkQueue_wait_sample :
    ∃ (s s' : CheckThreads (Fin 2) ℕ) (outs : List (Option Bool)),
      Machine.run (CheckThreads.step fun c => c != 1) (.init 2)
        [.enter (some 0), .add [0, 1, 2], .enter (some 1), .enter none, .wake (some 0),
          .check (some 1), .check none, .finish (some 1), .check (some 0), .finish (some 0)] =
          some (s, outs) ∧
      s.step (fun c => c != 1) (.finish none) = some (s', some false) ∧ s'.q.unused = true := by
  have hrun : ∃ (s : CheckThreads (Fin 2) ℕ) (outs : List (Option Bool)),
      Machine.run (CheckThreads.step fun c => c != 1) (.init 2)
        [.enter (some 0), .add [0, 1, 2], .enter (some 1), .enter none, .wake (some 0),
          .check (some 1), .check none, .finish (some 1), .check (some 0), .finish (some 0)] =
          some (s, outs) ∧
      ∃ s', s.step (fun c => c != 1) (.finish none) = some (s', some false) := ⟨_, _, rfl, _, rfl⟩
  obtain ⟨s, outs, hrun, s', hstep⟩ := hrun
  exact ⟨s, s', outs, hrun, hstep, ((checkQueue_wait _ hrun).1 _ _ _ hstep).2.2.2.1⟩

end CheckThreads

end Ticoin
