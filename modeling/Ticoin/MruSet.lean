import Mathlib.Data.List.DropRight
import Ticoin.Lib.Table

/-!
# mruset.h : a set of the most recent elements

`mruset` has its elements in `set`, and in `queue` in the order in which they came. An element that
comes to `nMaxSize` others has the oldest evicted ; one that is there changes nothing.

The two containers have the same elements, those that were inserted last (`remembersRecent`). As
many are kept as the maximum size allows, but an enlargement does not bring back what was evicted
before, so that only those held at the last enlargement count with the ones inserted since.
-/

set_option linter.unusedSectionVars false

namespace Ticoin

variable {T : Type}

structure MruSet (T : Type) [Ord T] where
  set : Std.ExtTreeSet T
  queue : List T
  nMaxSize : ℕ

namespace MruSet

variable [Ord T] [Std.TransOrd T] [Std.LawfulEqOrd T]

def new (nMaxSizeIn : ℕ) : MruSet T := ⟨∅, [], nMaxSizeIn⟩

/-- The front of the queue is erased from both containers. There is none of an empty queue. -/
def evict (s : MruSet T) : Option (MruSet T) :=
  match s.queue with
  | [] => none
  | x :: queue => some { s with
    set := s.set.erase x
    queue := queue }

/-- `insert` : whether the element was inserted. -/
def insert (x : T) (s : MruSet T) : Option (MruSet T × Bool) :=
  if s.set.contains x then some (s, false)
  else do
    let s := { s with set := s.set.insert x }
    let s ← if s.nMaxSize ≠ 0 ∧ s.queue.length = s.nMaxSize then s.evict else some s
    some ({ s with queue := s.queue ++ [x] }, true)

/-- The loop of `max_size`. -/
def evictTo (n : ℕ) : List T → Std.ExtTreeSet T → Std.ExtTreeSet T × List T
  | [], set => (set, [])
  | x :: queue, set =>
    if (x :: queue).length > n then evictTo n queue (set.erase x) else (set, x :: queue)

/-- `max_size` of a number. -/
def maxSize (n : ℕ) (s : MruSet T) : MruSet T :=
  if n ≠ 0 then
    let r := evictTo n s.queue s.set
    ⟨r.1, r.2, n⟩
  else { s with nMaxSize := n }

/-- A call. -/
inductive Call (T : Type)
  | insert (x : T)
  | maxSize (n : ℕ)

/-- A call, and whether an element was inserted. -/
def step (s : MruSet T) : Call T → Option (MruSet T × Bool)
  | .insert x => s.insert x
  | .maxSize n => some (s.maxSize n, false)

/-! ## History -/

/-- The elements that were inserted where they were absent, in order, how many of them count, and
the maximum size. -/
structure History (T : Type) where
  arrivals : List T
  count : ℕ
  nMaxSize : ℕ

/-- Of what was inserted before the maximum size changes, no more counts than was held. -/
def History.note (h : History T) (call : Call T) (fInserted : Bool) : History T :=
  match call with
  | .insert x =>
    if fInserted then { h with
      arrivals := h.arrivals ++ [x]
      count := h.count + 1 }
    else h
  | .maxSize n => { h with
    count := min h.nMaxSize h.count
    nMaxSize := n }

/-- Calls with their history. -/
def runFrom (start : MruSet T × History T) (calls : List (Call T)) :
    Option (MruSet T × History T) :=
  calls.foldlM (fun r call => (r.1.step call).map fun r' => (r'.1, r.2.note call r'.2)) start

def run (nMaxSize : ℕ) (calls : List (Call T)) : Option (MruSet T × History T) :=
  runFrom (new nMaxSize, ⟨[], 0, nMaxSize⟩) calls

/-- The maximum size is never reduced. -/
def Enlarges : ℕ → List (Call T) → Prop
  | _, [] => True
  | n, .insert _ :: calls => Enlarges n calls
  | n, .maxSize n' :: calls => n ≤ n' ∧ Enlarges n' calls

/-- The two containers have the same elements, each once, the last ones of those that count. -/
structure Remembers (s : MruSet T) (h : History T) : Prop where
  nMaxSize : h.nMaxSize = s.nMaxSize
  mem : ∀ x, x ∈ s.set ↔ x ∈ s.queue
  nodup : s.queue.Nodup
  count_le : h.count ≤ h.arrivals.length
  queue : s.queue = h.arrivals.rtake (min s.nMaxSize h.count)

section

variable {s : MruSet T} {h : History T}

theorem length_rtake {l : List T} {n : ℕ} (hn : n ≤ l.length) : (l.rtake n).length = n := by
  rw [List.rtake, List.length_drop]
  omega

theorem Remembers.length_queue (hr : Remembers s h) :
    s.queue.length = min s.nMaxSize h.count := by
  rw [hr.queue, length_rtake (le_trans (Nat.min_le_right _ _) hr.count_le)]

theorem Remembers.start (nMaxSize : ℕ) :
    Remembers (new nMaxSize : MruSet T) ⟨[], 0, nMaxSize⟩ where
  nMaxSize := rfl
  mem _ := iff_of_false Std.ExtTreeSet.not_mem_empty List.not_mem_nil
  nodup := List.nodup_nil
  count_le := Nat.le_refl 0
  queue := (List.rtake_nil _).symm

/-- A new element comes last. -/
theorem Remembers.insert_below (hr : Remembers s h) {x : T} (hx : x ∉ s.queue)
    (hroom : s.nMaxSize ≠ s.queue.length) :
    s.insert x = some (⟨s.set.insert x, s.queue ++ [x], s.nMaxSize⟩, true) ∧
      Remembers ⟨s.set.insert x, s.queue ++ [x], s.nMaxSize⟩ (h.note (.insert x) true) := by
  have hset : ¬s.set.contains x = true := by
    rwa [Std.ExtTreeSet.contains_iff_mem, hr.mem]
  have hlen := hr.length_queue
  refine ⟨?_, hr.nMaxSize, fun y => ?_, ?_, ?_, ?_⟩
  · unfold insert
    rw [if_neg hset]
    dsimp only
    rw [if_neg fun hfull => hroom hfull.2.symm]
    rfl
  · rw [Table.mem_insert, hr.mem, List.mem_append, List.mem_singleton, or_comm]
  · refine List.nodup_append.mpr ⟨hr.nodup, List.nodup_singleton x, ?_⟩
    rintro y hy z hz rfl
    exact hx (List.mem_singleton.mp hz ▸ hy)
  · change h.count + 1 ≤ (h.arrivals ++ [x]).length
    rw [List.length_append]
    exact Nat.succ_le_succ hr.count_le
  · change s.queue ++ [x] = (h.arrivals ++ [x]).rtake (min s.nMaxSize (h.count + 1))
    rw [show min s.nMaxSize (h.count + 1) = min s.nMaxSize h.count + 1 by omega,
      List.rtake_concat_succ, ← hr.queue]

/-- If as many elements are held as may be, the oldest is evicted. -/
theorem Remembers.insert_full (hr : Remembers s h) {x y : T} {queue : List T}
    (hx : x ∉ s.queue) (hqueue : s.queue = y :: queue) (hfull : s.nMaxSize = s.queue.length) :
    s.insert x = some (⟨(s.set.insert x).erase y, queue ++ [x], s.nMaxSize⟩, true) ∧
      Remembers ⟨(s.set.insert x).erase y, queue ++ [x], s.nMaxSize⟩
        (h.note (.insert x) true) := by
  have hset : ¬s.set.contains x = true := by
    rwa [Std.ExtTreeSet.contains_iff_mem, hr.mem]
  have hlen := hr.length_queue
  have hcount := hr.count_le
  have hnodup := hr.nodup
  have hrtake := hr.queue
  have hmem := hr.mem
  rw [hqueue] at hx hfull hlen hnodup hrtake hmem
  rw [List.length_cons] at hfull hlen
  rw [List.mem_cons, not_or] at hx
  obtain ⟨hy, hnodup⟩ := List.nodup_cons.mp hnodup
  refine ⟨?_, hr.nMaxSize, fun z => ?_, ?_, ?_, ?_⟩
  · unfold insert
    rw [if_neg hset]
    dsimp only
    rw [if_pos (by rw [hqueue, List.length_cons]; omega)]
    unfold evict
    rw [hqueue]
    rfl
  · rw [Table.mem_erase, Table.mem_insert, hmem, List.mem_append, List.mem_singleton,
      List.mem_cons]
    constructor
    · rintro ⟨hne, rfl | heq | hz⟩
      · exact .inr rfl
      · exact absurd heq hne
      · exact .inl hz
    · rintro (hz | rfl)
      · exact ⟨fun heq => hy (heq ▸ hz), .inr (.inr hz)⟩
      · exact ⟨hx.1, .inl rfl⟩
  · refine List.nodup_append.mpr ⟨hnodup, List.nodup_singleton x, ?_⟩
    rintro a ha z hz rfl
    exact hx.2 (List.mem_singleton.mp hz ▸ ha)
  · change h.count + 1 ≤ (h.arrivals ++ [x]).length
    rw [List.length_append]
    exact Nat.succ_le_succ hcount
  · change queue ++ [x] = (h.arrivals ++ [x]).rtake (min s.nMaxSize (h.count + 1))
    have htail : queue = h.arrivals.rtake queue.length := by
      have hdrop := congrArg (List.drop 1) hrtake
      rw [List.rtake, List.drop_drop] at hdrop
      rw [List.rtake, show h.arrivals.length - queue.length =
        h.arrivals.length - min s.nMaxSize h.count + 1 by omega]
      exact hdrop
    rw [show min s.nMaxSize (h.count + 1) = queue.length + 1 by omega, List.rtake_concat_succ,
      ← htail]

/-- An element that is there changes nothing. -/
theorem Remembers.insert_known (hr : Remembers s h) {x : T} (hx : x ∈ s.queue) :
    s.insert x = some (s, false) := by
  unfold insert
  rw [if_pos (Std.ExtTreeSet.contains_iff_mem.mpr ((hr.mem x).mpr hx))]

/-- An enlargement evicts nothing. -/
theorem Remembers.enlarge (hr : Remembers s h) {n : ℕ} (hpos : 0 < n) (hn : s.nMaxSize ≤ n) :
    s.maxSize n = ⟨s.set, s.queue, n⟩ ∧
      Remembers ⟨s.set, s.queue, n⟩ (h.note (.maxSize n) false) := by
  have hlen := hr.length_queue
  refine ⟨?_, rfl, hr.mem, hr.nodup, (Nat.min_le_right _ _).trans hr.count_le, ?_⟩
  · have hkeep : evictTo n s.queue s.set = (s.set, s.queue) := by
      cases hqueue : s.queue with
      | nil => rfl
      | cons x queue =>
        unfold evictTo
        rw [hqueue] at hlen
        rw [if_neg (by omega)]
    unfold maxSize
    rw [if_pos (by omega), hkeep]
  · change s.queue = h.arrivals.rtake (min n (min h.nMaxSize h.count))
    rw [hr.nMaxSize, Nat.min_eq_right (by omega), ← hr.queue]

/-- What is evicted by a call : an element after which as many others were inserted as may be
held. -/
def Evicts (s s' : MruSet T) (arrivals : List T) : Prop :=
  ∀ y ∈ s.set, y ∉ s'.set → ∃ older newer, arrivals = older ++ y :: newer ∧ y ∉ newer ∧
    newer.Nodup ∧ newer.length = s.nMaxSize

theorem Evicts.of_subset {s' : MruSet T} {arrivals : List T} (h : ∀ y ∈ s.set, y ∈ s'.set) :
    Evicts s s' arrivals :=
  fun y hy hy' => absurd (h y hy) hy'

/-- A full set evicts the oldest of its elements. -/
theorem Remembers.evicts_insert_full (hr : Remembers s h) {x y : T} {queue : List T}
    (hx : x ∉ s.queue) (hqueue : s.queue = y :: queue) (hfull : s.nMaxSize = s.queue.length) :
    Evicts s ⟨(s.set.insert x).erase y, queue ++ [x], s.nMaxSize⟩ (h.arrivals ++ [x]) := by
  obtain ⟨-, hr'⟩ := hr.insert_full hx hqueue hfull
  intro z hz hz'
  have hzy : z = y := by
    by_contra hne
    refine hz' ((hr'.mem z).mpr (List.mem_append_left _ ?_))
    rw [hr.mem, hqueue] at hz
    exact (List.mem_cons.mp hz).resolve_left hne
  subst hzy
  have hsplit : h.arrivals = h.arrivals.take (h.arrivals.length - min s.nMaxSize h.count) ++
      z :: queue := by
    conv_lhs => rw [← List.take_append_drop (h.arrivals.length - min s.nMaxSize h.count)
      h.arrivals]
    rw [← List.rtake, ← hr.queue, hqueue]
  refine ⟨h.arrivals.take (h.arrivals.length - min s.nMaxSize h.count), queue ++ [x], ?_,
    fun hmem => hz' ((hr'.mem z).mpr hmem), hr'.nodup, ?_⟩
  · conv_lhs => rw [hsplit]
    rw [List.append_assoc, List.cons_append]
  · rw [List.length_append, List.length_singleton, hfull, hqueue, List.length_cons]

/-- Whatever the call is, the set goes on remembering. -/
theorem Remembers.step (hr : Remembers s h) (hpos : 0 < s.nMaxSize) {call : Call T}
    (hcall : Enlarges s.nMaxSize [call]) :
    ∃ s' fInserted, s.step call = some (s', fInserted) ∧ Remembers s' (h.note call fInserted) ∧
      Evicts s s' (h.note call fInserted).arrivals := by
  match call with
  | .maxSize n =>
    obtain ⟨heq, hr'⟩ := hr.enlarge (hpos.trans_le hcall.1) hcall.1
    exact ⟨_, _, congrArg (fun s' => some (s', false)) heq, hr', Evicts.of_subset fun _ hy => hy⟩
  | .insert x =>
    by_cases hx : x ∈ s.queue
    · exact ⟨_, _, hr.insert_known hx, hr, Evicts.of_subset fun _ hy => hy⟩
    by_cases hfull : s.nMaxSize = s.queue.length
    · match hqueue : s.queue with
      | [] =>
        rw [hqueue, List.length_nil] at hfull
        omega
      | y :: queue =>
        obtain ⟨heq, hr'⟩ := hr.insert_full hx hqueue hfull
        exact ⟨_, _, heq, hr', hr.evicts_insert_full hx hqueue hfull⟩
    · obtain ⟨heq, hr'⟩ := hr.insert_below hx hfull
      exact ⟨_, _, heq, hr', Evicts.of_subset fun y hy => Table.mem_insert.mpr (.inr hy)⟩

end

/-! ## Runs -/

theorem History.nMaxSize_note (h : History T) (call : Call T) (fInserted : Bool)
    (hcall : Enlarges h.nMaxSize [call]) : h.nMaxSize ≤ (h.note call fInserted).nMaxSize := by
  match call, fInserted with
  | .insert _, true => exact Nat.le_refl _
  | .insert _, false => exact Nat.le_refl _
  | .maxSize _, _ => exact hcall.1

theorem Enlarges.head {n : ℕ} {call : Call T} {calls : List (Call T)}
    (h : Enlarges n (call :: calls)) : Enlarges n [call] := by
  match call with
  | .insert _ => trivial
  | .maxSize _ => exact ⟨h.1, trivial⟩

theorem Enlarges.tail {h : History T} {call : Call T} {calls : List (Call T)}
    (hcalls : Enlarges h.nMaxSize (call :: calls)) (fInserted : Bool) :
    Enlarges (h.note call fInserted).nMaxSize calls := by
  match call, fInserted with
  | .insert _, true => exact hcalls
  | .insert _, false => exact hcalls
  | .maxSize _, _ => exact hcalls.2

/-- Calls that never reduce the maximum size succeed, and the set remembers after them. -/
theorem Remembers.runFrom : ∀ (calls : List (Call T)) {s : MruSet T} {h : History T},
    Remembers s h → 0 < s.nMaxSize → Enlarges s.nMaxSize calls →
    ∃ s' h', MruSet.runFrom (s, h) calls = some (s', h') ∧ Remembers s' h' ∧ 0 < s'.nMaxSize
  | [], s, h, hr, hpos, _ => ⟨s, h, rfl, hr, hpos⟩
  | call :: calls, s, h, hr, hpos, hcalls => by
    obtain ⟨s₁, fInserted, hstep, hr₁, -⟩ := hr.step hpos hcalls.head
    rw [← hr.nMaxSize] at hcalls hpos
    have hcalls₁ := hcalls.tail fInserted
    have hpos₁ := hpos.trans_le (h.nMaxSize_note call fInserted hcalls.head)
    rw [hr₁.nMaxSize] at hcalls₁ hpos₁
    obtain ⟨s', h', hrun, hr', hpos'⟩ := hr₁.runFrom calls hpos₁ hcalls₁
    refine ⟨s', h', ?_, hr', hpos'⟩
    unfold MruSet.runFrom
    rw [List.foldlM_cons, hstep]
    exact hrun

/-- **The most recent elements** : whatever is inserted, and however the maximum size grows, the
set and the queue have the same elements, each once, those that were inserted last. As many are
held as the maximum size allows, of those inserted since it last changed and those held then. An
element is evicted only when as many others were inserted after it. -/
theorem remembersRecent {nMaxSize : ℕ} (hpos : 0 < nMaxSize) {calls : List (Call T)}
    (hcalls : Enlarges nMaxSize calls) :
    ∃ s h, run nMaxSize calls = some (s, h) ∧ s.nMaxSize = h.nMaxSize ∧
      (∀ x, x ∈ s.set ↔ x ∈ s.queue) ∧ s.queue.Nodup ∧
      s.queue = h.arrivals.rtake (min s.nMaxSize h.count) ∧
      s.queue.length = min s.nMaxSize h.count ∧
      ∀ call, Enlarges s.nMaxSize [call] → ∃ s' fInserted, s.step call = some (s', fInserted) ∧
        ∀ y ∈ s.set, y ∉ s'.set → ∃ older newer,
          (h.note call fInserted).arrivals = older ++ y :: newer ∧ y ∉ newer ∧ newer.Nodup ∧
            newer.length = s.nMaxSize := by
  obtain ⟨s, h, hrun, hr, hpos'⟩ := (Remembers.start (T := T) nMaxSize).runFrom calls hpos hcalls
  refine ⟨s, h, hrun, hr.nMaxSize.symm, hr.mem, hr.nodup, hr.queue, hr.length_queue,
    fun call hcall => ?_⟩
  obtain ⟨s', fInserted, hstep, -, hevicts⟩ := hr.step hpos' hcall
  exact ⟨s', fInserted, hstep, hevicts⟩

/-- One element may be held when a second is inserted, and more than two when a third is. -/
def enlargedCalls : List (Call ℕ) :=
  [.insert 0, .insert 1, .maxSize 3, .insert 2]

theorem remembersRecent_enlargedCalls :
    Enlarges 1 enlargedCalls ∧ ∃ s h, run 1 enlargedCalls = some (s, h) ∧
      s.queue = h.arrivals.rtake (min s.nMaxSize h.count) := by
  have hcalls : Enlarges 1 enlargedCalls := ⟨by omega, trivial⟩
  obtain ⟨s, h, hrun, -, -, -, hqueue, -⟩ := remembersRecent (by omega) hcalls
  exact ⟨hcalls, s, h, hrun, hqueue⟩

/-- The element that was evicted is not among the last three, or among as many as were inserted. -/
theorem enlargement_brings_nothing_back :
    Enlarges 1 enlargedCalls ∧ ∃ s h, run 1 enlargedCalls = some (s, h) ∧
      s.nMaxSize = 3 ∧ h.arrivals = [0, 1, 2] ∧ s.queue = [1, 2] ∧
      s.queue ≠ h.arrivals.rtake (min s.nMaxSize h.arrivals.length) ∧
      s.queue ≠ h.arrivals.rtake (min 1 h.arrivals.length) := by
  refine ⟨⟨by omega, trivial⟩, ?_⟩
  have hrun : (run 1 enlargedCalls).map (fun r => (r.1.nMaxSize, r.2.arrivals, r.1.queue)) =
      some (3, [0, 1, 2], [1, 2]) := by
    decide
  obtain ⟨⟨s, h⟩, hsome, heq⟩ := Option.map_eq_some_iff.mp hrun
  obtain ⟨hmax, harrivals, hqueue⟩ : s.nMaxSize = 3 ∧ h.arrivals = [0, 1, 2] ∧ s.queue = [1, 2] := by
    simpa using heq
  refine ⟨s, h, hsome, hmax, harrivals, hqueue, ?_, ?_⟩
  · rw [hmax, harrivals, hqueue]
    decide
  · rw [harrivals, hqueue]
    decide

end MruSet

end Ticoin
