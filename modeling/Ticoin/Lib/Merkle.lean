import Mathlib

/-!
# Merkle trees over an arbitrary pair function

A list of leaves is combined level by level : neighbours are paired by `f`, and a last
node without a neighbour is paired with itself (`levelUp`). `level f leaves h` is the
list of nodes `h` levels above the leaves, of `width leaves.length h` nodes, and `root`
the one node of the last level. The node at a position of a level is given by the two
nodes below it (`getElem?_levelUp`), so that functions that compute a single node by
recursion on its height agree with the levels.

A node is opened by values that combine to it, in a tree of any shape (`Opens`). Where the
pairs of a tree are combined from no other pairs, what its nodes open to are nodes of the
tree too, as many levels below (`Opens.mem_level`).

The siblings of a leaf up to the root are its branch. Climbing from the leaf along the branch ends
at the root (`climb_branch`), and where pairs are combined to different nodes, no other value and
no other branch of the same length climb to it (`climb_inj`).

Two lists of leaves without duplicates that have the same root are the same, if no two pairs of
the two trees are combined to the same node and no leaf is a node above the leaves
(`eq_of_root_eq`). With a duplicate they need not be : see `root_duplicate`.
-/

namespace Merkle

variable {α : Type*} (f : α → α → α)

/-! ## Levels -/

/-- One level up : neighbours paired, a last node without a neighbour paired with itself. -/
def levelUp : List α → List α
  | [] => []
  | [a] => [f a a]
  | a :: b :: l => f a b :: levelUp l

/-- The nodes `h` levels above the leaves. -/
def level (leaves : List α) : ℕ → List α
  | 0 => leaves
  | h + 1 => levelUp f (level leaves h)

/-- The number of nodes `h` levels above `n` leaves. -/
def width (n h : ℕ) : ℕ := (n + 2 ^ h - 1) / 2 ^ h

@[simp] theorem length_levelUp : ∀ l : List α, (levelUp f l).length = (l.length + 1) / 2
  | [] => by simp [levelUp]
  | [_] => by simp [levelUp]
  | a :: b :: l => by
    rw [levelUp, List.length_cons, length_levelUp l, List.length_cons, List.length_cons]
    omega

@[simp] theorem width_zero (n : ℕ) : width n 0 = n := by simp [width]

theorem width_succ (n h : ℕ) : width n (h + 1) = (width n h + 1) / 2 := by
  have hpos : 0 < 2 ^ h := Nat.two_pow_pos h
  have hpow : 2 ^ (h + 1) = 2 ^ h * 2 := pow_succ 2 h
  rw [width, width, ← Nat.add_div_right _ hpos, Nat.div_div_eq_div_mul, ← hpow]
  congr 1
  omega

/-- A position is on its level when the leaves below it start before the last one. -/
theorem lt_width_iff {n h pos : ℕ} : pos < width n h ↔ pos * 2 ^ h < n := by
  have hpos : 0 < 2 ^ h := Nat.two_pow_pos h
  rw [width, ← Nat.succ_le_iff, Nat.le_div_iff_mul_le hpos, Nat.succ_mul]
  omega

theorem one_lt_width_iff {n h : ℕ} : 1 < width n h ↔ 2 ^ h < n := by
  rw [lt_width_iff, one_mul]

theorem width_pos {n : ℕ} (hn : 0 < n) (h : ℕ) : 0 < width n h := by
  rwa [lt_width_iff, zero_mul]

@[simp] theorem length_level (leaves : List α) :
    ∀ h : ℕ, (level f leaves h).length = width leaves.length h
  | 0 => by simp [level]
  | h + 1 => by rw [level, length_levelUp, length_level leaves h, width_succ]

/-- The node at position `i` of the next level, from its one or two children. -/
theorem getElem?_levelUp : ∀ (l : List α) (i : ℕ),
    (levelUp f l)[i]? = (l[2 * i]?).map fun a => f a ((l[2 * i + 1]?).getD a)
  | [], i => by simp [levelUp]
  | [a], 0 => by simp [levelUp]
  | [a], i + 1 => by simp [levelUp]
  | a :: b :: l, 0 => by simp [levelUp]
  | a :: b :: l, i + 1 => by
    have h0 : 2 * (i + 1) = 2 * i + 2 := by omega
    have h1 : 2 * (i + 1) + 1 = 2 * i + 1 + 2 := by omega
    rw [h1, h0]
    simpa [levelUp] using getElem?_levelUp l i

/-! ## The root -/

/-- The node left when no level has more than one, `none` for no leaves. -/
def root : List α → Option α
  | [] => none
  | [a] => some a
  | a :: b :: l => root (levelUp f (a :: b :: l))
termination_by l => l.length
decreasing_by simp [levelUp]; omega

@[simp] theorem root_singleton (a : α) : root f [a] = some a := by rw [root]

theorem root_levelUp {l : List α} (h : 1 < l.length) : root f (levelUp f l) = root f l := by
  match l, h with
  | a :: b :: l, _ => conv_rhs => rw [root]

theorem exists_root {l : List α} (h : l ≠ []) : ∃ x, root f l = some x := by
  induction l using root.induct f with
  | case1 => exact absurd rfl h
  | case2 a => exact ⟨a, root_singleton f a⟩
  | case3 a b l ih =>
    rw [root]
    exact ih (List.cons_ne_nil _ _)

/-- The root is the only node of the first level of width one. -/
theorem root_eq_head? (leaves : List α) : ∀ h : ℕ, (∀ k < h, 1 < width leaves.length k) →
    width leaves.length h = 1 → root f leaves = (level f leaves h).head? := by
  intro h hlt hone
  have hroot : ∀ k ≤ h, root f leaves = root f (level f leaves k) := by
    intro k hk
    induction k with
    | zero => rfl
    | succ k ih =>
      rw [ih (by omega), level, root_levelUp]
      rw [length_level]
      exact hlt k (by omega)
  have hlen : (level f leaves h).length = 1 := by rw [length_level, hone]
  obtain ⟨a, ha⟩ := List.length_eq_one_iff.mp hlen
  rw [hroot h le_rfl, ha, root, List.head?_cons]

/-! ## Branches -/

/-- The siblings of the leaf at position `i`, and of the nodes above it, up to the root. A last
node without a neighbour is its own sibling. -/
def branch (l : List α) (i : ℕ) : List α :=
  if 1 < l.length then (l[min (i ^^^ 1) (l.length - 1)]?).toList ++ branch (levelUp f l) (i / 2)
  else []
termination_by l.length
decreasing_by
  rw [length_levelUp]
  omega

/-- Combine a value at position `i` with its siblings, one level after the other. -/
def climb : List α → ℕ → α → α
  | [], _, x => x
  | y :: b, i, x => climb b (i / 2) (if i % 2 = 1 then f y x else f x y)

/-- The pairs that are combined on the way. -/
def climbPairs : List α → ℕ → α → List (α × α)
  | [], _, _ => []
  | y :: b, i, x =>
    (if i % 2 = 1 then (y, x) else (x, y)) ::
      climbPairs b (i / 2) (if i % 2 = 1 then f y x else f x y)

/-- A node and its sibling are combined to the node above. -/
theorem exists_sibling {l : List α} {i : ℕ} {x : α} (hlen : 1 < l.length) (hx : l[i]? = some x) :
    ∃ y, l[min (i ^^^ 1) (l.length - 1)]? = some y ∧
      (levelUp f l)[i / 2]? = some (if i % 2 = 1 then f y x else f x y) := by
  have hi : i < l.length := (List.getElem?_eq_some_iff.mp hx).1
  rcases Nat.mod_two_eq_zero_or_one i with hpar | hpar
  · have hself : 2 * (i / 2) = i := by omega
    have hxor : i ^^^ 1 = i + 1 := Nat.xor_one_of_even (Nat.even_iff.mpr hpar)
    have hleft : ¬i % 2 = 1 := by omega
    simp only [getElem?_levelUp, hself, hx, Option.map_some, if_neg hleft, hxor]
    by_cases hnext : i + 1 < l.length
    · rw [Nat.min_eq_left (by omega), List.getElem?_eq_getElem hnext]
      exact ⟨_, rfl, rfl⟩
    · have hlast : min (i + 1) (l.length - 1) = i := by omega
      rw [hlast, hx, List.getElem?_eq_none (not_lt.mp hnext)]
      exact ⟨x, rfl, rfl⟩
  · have hself : 2 * (i / 2) + 1 = i := by omega
    have hxor : i ^^^ 1 = 2 * (i / 2) := by
      rw [Nat.xor_one_of_odd (Nat.odd_iff.mpr hpar)]
      omega
    obtain ⟨y, hy⟩ : ∃ y, l[2 * (i / 2)]? = some y := ⟨_, List.getElem?_eq_getElem (by omega)⟩
    rw [getElem?_levelUp, hself, hx, hxor, Nat.min_eq_left (by omega), hy]
    simp only [if_pos hpar]
    exact ⟨y, rfl, rfl⟩

/-- The branch of a leaf leads to the root. -/
theorem climb_branch : ∀ {l : List α} {i : ℕ} {x : α}, l[i]? = some x →
    root f l = some (climb f (branch f l i) i x) := by
  intro l
  induction hn : l.length using Nat.strongRecOn generalizing l with
  | ind n ih =>
  intro i x hx
  rw [branch]
  split
  · rename_i hlen
    obtain ⟨y, hy, hup⟩ := exists_sibling f hlen hx
    rw [← root_levelUp f hlen, ih _ (by rw [length_levelUp]; omega) rfl hup, hy]
    rfl
  · rename_i hlen
    have hi : i < l.length := (List.getElem?_eq_some_iff.mp hx).1
    obtain ⟨a, rfl⟩ := List.length_eq_one_iff.mp (show l.length = 1 by omega)
    have hzero : i = 0 := by
      rw [List.length_singleton] at hi
      omega
    rw [hzero] at hx
    rw [root_singleton]
    exact hx

/-- What climbs to the same node along branches of the same length is the same, where the pairs of
the two ways are combined to different nodes. -/
theorem climb_inj : ∀ {b b' : List α} {i : ℕ} {x x' : α}, b.length = b'.length →
    (∀ p ∈ climbPairs f b i x, ∀ q ∈ climbPairs f b' i x', f p.1 p.2 = f q.1 q.2 → p = q) →
    climb f b i x = climb f b' i x' → x = x' ∧ b = b'
  | [], [], _, _, _, _, _, h => ⟨h, rfl⟩
  | y :: b, y' :: b', i, x, x', hlen, hinj, h => by
    simp only [climbPairs, List.forall_mem_cons] at hinj
    obtain ⟨hnode, rfl⟩ := climb_inj (Nat.succ.inj hlen) (fun p hp q hq => (hinj.2 p hp).2 q hq) h
    have hpair := hinj.1.1
    by_cases hpar : i % 2 = 1
    · rw [if_pos hpar, if_pos hpar] at hnode hpair
      obtain ⟨rfl, rfl⟩ := Prod.mk.inj (hpair hnode)
      exact ⟨rfl, rfl⟩
    · rw [if_neg hpar, if_neg hpar] at hnode hpair
      obtain ⟨rfl, rfl⟩ := Prod.mk.inj (hpair hnode)
      exact ⟨rfl, rfl⟩

/-! ## Opening a node -/

/-- In a tree of the shape of `n` leaves, the node of height `h` at `pos`, whose value is the
third argument, has the fourth as a leaf below it : some values of the nodes on the way and
beside it combine to that of the node. -/
inductive Opens (n : ℕ) : ℕ → ℕ → α → α → Prop
  | leaf (pos : ℕ) (a : α) : Opens n 0 pos a a
  | left {h pos : ℕ} {a y : α} (b : α) (hw : pos * 2 + 1 < width n h)
    (ho : Opens n h (pos * 2) a y) : Opens n (h + 1) pos (f a b) y
  | right {h pos : ℕ} {b y : α} (a : α) (hw : pos * 2 + 1 < width n h)
    (ho : Opens n h (pos * 2 + 1) b y) : Opens n (h + 1) pos (f a b) y
  | single {h pos : ℕ} {a y : α} (hw : ¬pos * 2 + 1 < width n h) (ho : Opens n h (pos * 2) a y) :
    Opens n (h + 1) pos (f a a) y

/-- The pairs combined on the levels below `h` are combined from no other pair. -/
def PairInjective (leaves : List α) (h : ℕ) : Prop :=
  ∀ k < h, ∀ (i : ℕ) (a : α), (level f leaves k)[2 * i]? = some a → ∀ c d,
    f c d = f a ((level f leaves k)[2 * i + 1]?.getD a) →
      c = a ∧ d = (level f leaves k)[2 * i + 1]?.getD a

variable {f}

theorem mem_levelUp {l : List α} {x : α} (h : x ∈ levelUp f l) :
    ∃ (i : ℕ) (a : α), l[2 * i]? = some a ∧ x = f a (l[2 * i + 1]?.getD a) := by
  obtain ⟨i, hi⟩ := List.mem_iff_getElem?.mp h
  rw [getElem?_levelUp] at hi
  obtain ⟨a, ha, rfl⟩ := Option.map_eq_some_iff.mp hi
  exact ⟨i, a, ha, rfl⟩

/-- The values that combine to a node of a level are nodes of the level below. -/
theorem PairInjective.mem_level {leaves : List α} {h k : ℕ} (hinj : PairInjective f leaves h)
    (hk : k < h) {c d : α} (hmem : f c d ∈ level f leaves (k + 1)) :
    c ∈ level f leaves k ∧ d ∈ level f leaves k := by
  rw [level] at hmem
  obtain ⟨i, a, ha, heq⟩ := mem_levelUp hmem
  obtain ⟨rfl, rfl⟩ := hinj k hk i a ha c d heq
  refine ⟨List.mem_of_getElem? ha, ?_⟩
  cases hb : (level f leaves k)[2 * i + 1]? with
  | none => exact List.mem_of_getElem? ha
  | some b => exact List.mem_of_getElem? hb

/-- In a tree of any shape, a node that is one of a level opens to leaves that are nodes as
many levels below. -/
theorem Opens.mem_level {leaves : List α} {top n h pos k : ℕ} {x y : α}
    (hinj : PairInjective f leaves top) (ho : Opens f n h pos x y) (hx : x ∈ level f leaves (k + h))
    (htop : k + h ≤ top) : y ∈ level f leaves k := by
  induction ho with
  | leaf pos a => exact hx
  | @left h _ _ _ b hw ho ih =>
    have hk : k + h < top := by omega
    exact ih (hinj.mem_level hk hx).1 (by omega)
  | @right h _ _ _ a hw ho ih =>
    have hk : k + h < top := by omega
    exact ih (hinj.mem_level hk hx).2 (by omega)
  | @single h _ _ _ hw ho ih =>
    have hk : k + h < top := by omega
    exact ih (hinj.mem_level hk hx).1 (by omega)

/-- Every value is a leaf below some node. -/
theorem exists_opens (n : ℕ) (y : α) : ∀ h pos : ℕ, ∃ x, Opens f n h pos x y
  | 0, pos => ⟨y, .leaf pos y⟩
  | h + 1, pos => by
    obtain ⟨a, ha⟩ := exists_opens n y h (pos * 2)
    by_cases hw : pos * 2 + 1 < width n h
    · exact ⟨f a a, .left a hw ha⟩
    · exact ⟨f a a, .single hw ha⟩

/-- The first node of a level opens to the first node of a level below, in a tree whose lower
levels have more than one node. -/
theorem opens_head {leaves : List α} {n k : ℕ} : ∀ {h : ℕ} {x : α}, (∀ i < h, 1 < width n i) →
    (level f leaves (k + h))[0]? = some x →
    ∃ y, (level f leaves k)[0]? = some y ∧ Opens f n h 0 x y
  | 0, x, _, hx => ⟨x, hx, .leaf 0 x⟩
  | h + 1, x, hn, hx => by
    rw [← Nat.add_assoc, level, getElem?_levelUp] at hx
    obtain ⟨a, ha, rfl⟩ := Option.map_eq_some_iff.mp hx
    obtain ⟨y, hy, ho⟩ := opens_head (fun i hi => hn i (by omega)) ha
    exact ⟨y, hy, .left _ (by simpa using hn h (by omega)) (by simpa using ho)⟩

/-! ## What the root commits to -/

section Commitment

variable (f)

/-- The pairs combined to the nodes one level up. -/
def levelPairs : List α → List (α × α)
  | [] => []
  | [a] => [(a, a)]
  | a :: b :: l => (a, b) :: levelPairs l

theorem levelUp_eq_map : ∀ l : List α, levelUp f l = (levelPairs l).map fun p => f p.1 p.2
  | [] => rfl
  | [_] => rfl
  | a :: b :: l => by rw [levelUp, levelUp_eq_map l, levelPairs, List.map_cons]

/-- The pairs combined on all levels, up to the root. -/
def pairs : List α → List (α × α)
  | [] => []
  | [_] => []
  | a :: b :: l => levelPairs (a :: b :: l) ++ pairs (levelUp f (a :: b :: l))
termination_by l => l.length
decreasing_by simp [levelUp]; omega

/-- The nodes above the leaves, up to the root. -/
def inner (l : List α) : List α := (pairs f l).map fun p => f p.1 p.2

variable {f} {l m : List α}

theorem pairs_eq (h : 1 < l.length) : pairs f l = levelPairs l ++ pairs f (levelUp f l) := by
  match l, h with
  | a :: b :: l, _ => rw [pairs]

theorem inner_eq (h : 1 < l.length) : inner f l = levelUp f l ++ inner f (levelUp f l) := by
  rw [inner, pairs_eq h, List.map_append, ← levelUp_eq_map]
  rfl

theorem mem_of_mem_levelPairs {p : α × α} : ∀ {l : List α}, p ∈ levelPairs l → p.1 ∈ l ∧ p.2 ∈ l
  | [a], h => by
    rw [List.mem_singleton.mp h]
    exact ⟨List.mem_cons_self, List.mem_cons_self⟩
  | a :: b :: l, h => by
    rcases List.mem_cons.mp h with rfl | h
    · exact ⟨List.mem_cons_self, List.mem_cons_of_mem _ List.mem_cons_self⟩
    · obtain ⟨h1, h2⟩ := mem_of_mem_levelPairs h
      exact ⟨List.mem_cons_of_mem _ (List.mem_cons_of_mem _ h1),
        List.mem_cons_of_mem _ (List.mem_cons_of_mem _ h2)⟩

theorem exists_mem_levelPairs {x : α} : ∀ {l : List α}, x ∈ l → ∃ p ∈ levelPairs l, x = p.1 ∨ x = p.2
  | [a], h => ⟨(a, a), List.mem_cons_self, .inl (List.mem_singleton.mp h)⟩
  | a :: b :: l, h => by
    rcases List.mem_cons.mp h with rfl | h
    · exact ⟨(x, b), List.mem_cons_self, .inl rfl⟩
    · rcases List.mem_cons.mp h with rfl | h
      · exact ⟨(a, x), List.mem_cons_self, .inr rfl⟩
      · obtain ⟨p, hp, hx⟩ := exists_mem_levelPairs h
        exact ⟨p, List.mem_cons_of_mem _ hp, hx⟩

/-- The pairs of leaves without duplicates tell the leaves. -/
theorem levelPairs_inj : ∀ {l m : List α}, l.Nodup → m.Nodup → levelPairs l = levelPairs m → l = m
  | [], [], _, _, _ => rfl
  | [], [_], _, _, h => by cases h
  | [], _ :: _ :: _, _, _, h => by cases h
  | [_], [], _, _, h => by cases h
  | [_], [_], _, _, h => by
    cases h
    rfl
  | [a], c :: d :: m, _, hm, h => by
    obtain ⟨hpair, -⟩ := List.cons.inj h
    obtain ⟨rfl, rfl⟩ := Prod.mk.inj hpair
    exact absurd List.mem_cons_self (List.nodup_cons.mp hm).1
  | _ :: _ :: _, [], _, _, h => by cases h
  | a :: b :: l, [c], hl, _, h => by
    obtain ⟨hpair, -⟩ := List.cons.inj h
    obtain ⟨rfl, rfl⟩ := Prod.mk.inj hpair
    exact absurd List.mem_cons_self (List.nodup_cons.mp hl).1
  | a :: b :: l, c :: d :: m, hl, hm, h => by
    obtain ⟨hpair, hrest⟩ := List.cons.inj h
    obtain ⟨rfl, rfl⟩ := Prod.mk.inj hpair
    rw [levelPairs_inj (List.nodup_cons.mp (List.nodup_cons.mp hl).2).2
      (List.nodup_cons.mp (List.nodup_cons.mp hm).2).2 hrest]

/-- The pairs of leaves without duplicates are told apart by their first components. -/
theorem nodup_levelPairs : ∀ {l : List α}, l.Nodup → (levelPairs l).Nodup
  | [], _ => List.nodup_nil
  | [a], _ => List.nodup_singleton _
  | a :: b :: l, h => by
    refine List.nodup_cons.mpr ⟨fun hmem => ?_, nodup_levelPairs
      (List.nodup_cons.mp (List.nodup_cons.mp h).2).2⟩
    exact (List.nodup_cons.mp h).1 (List.mem_cons_of_mem _ (mem_of_mem_levelPairs hmem).1)

/-- No two pairs of two trees are combined to the same node. -/
def CollisionFree (f : α → α → α) (l m : List α) : Prop :=
  Set.InjOn (fun p : α × α => f p.1 p.2) {p | p ∈ pairs f l ∨ p ∈ pairs f m}

theorem CollisionFree.symm (h : CollisionFree f l m) : CollisionFree f m l :=
  h.mono fun _ hp => hp.symm

theorem CollisionFree.levelUp (h : CollisionFree f l m) (hl : 1 < l.length) (hm : 1 < m.length) :
    CollisionFree f (levelUp f l) (levelUp f m) :=
  h.mono fun p hp => by
    simp only [pairs_eq hl, pairs_eq hm]
    exact hp.imp (List.mem_append_right _) (List.mem_append_right _)

theorem CollisionFree.nodup_levelUp (h : CollisionFree f l m) (hlen : 1 < l.length)
    (hl : l.Nodup) : (Merkle.levelUp f l).Nodup := by
  rw [levelUp_eq_map]
  refine (List.nodup_map_iff_inj_on (nodup_levelPairs hl)).mpr fun p hp q hq heq => ?_
  refine h (.inl ?_) (.inl ?_) heq <;> rw [pairs_eq hlen]
  · exact List.mem_append_left _ hp
  · exact List.mem_append_left _ hq

/-- Lists with the same images are the same, if images of their elements tell them. -/
theorem eq_of_map_eq {β γ : Type*} {g : β → γ} : ∀ {bs cs : List β},
    (∀ b ∈ bs, ∀ c ∈ cs, g b = g c → b = c) → bs.map g = cs.map g → bs = cs
  | [], [], _, _ => rfl
  | [], _ :: _, _, heq => by cases heq
  | _ :: _, [], _, heq => by cases heq
  | b :: bs, c :: cs, hinj, heq => by
    obtain ⟨hhead, hrest⟩ := List.cons.inj heq
    rw [hinj b List.mem_cons_self c List.mem_cons_self hhead, eq_of_map_eq (fun x hx y hy =>
      hinj x (List.mem_cons_of_mem _ hx) y (List.mem_cons_of_mem _ hy)) hrest]

/-- Levels without duplicates that combine to the same level are the same. -/
theorem CollisionFree.eq_of_levelUp_eq (h : CollisionFree f l m) (hlenl : 1 < l.length)
    (hlenm : 1 < m.length) (hl : l.Nodup) (hm : m.Nodup)
    (heq : Merkle.levelUp f l = Merkle.levelUp f m) : l = m := by
  rw [levelUp_eq_map, levelUp_eq_map] at heq
  refine levelPairs_inj hl hm (eq_of_map_eq (fun p hp q hq => h (.inl ?_) (.inr ?_)) heq)
  · rw [pairs_eq hlenl]
    exact List.mem_append_left _ hp
  · rw [pairs_eq hlenm]
    exact List.mem_append_left _ hq

/-- The root of more than one leaf is above the leaves. -/
theorem root_mem_inner {x : α} (hlen : 1 < l.length) (h : root f l = some x) : x ∈ inner f l := by
  induction l using root.induct f with
  | case1 => cases hlen
  | case2 a => exact absurd hlen (lt_irrefl 1)
  | case3 a b l ih =>
    rw [root] at h
    rw [inner_eq hlen]
    by_cases hup : 1 < (Merkle.levelUp f (a :: b :: l)).length
    · exact List.mem_append_right _ (ih hup h)
    · obtain ⟨y, hy⟩ : ∃ y, Merkle.levelUp f (a :: b :: l) = [y] := by
        rw [← List.length_eq_one_iff]
        rw [length_levelUp, List.length_cons, List.length_cons] at hup ⊢
        omega
      rw [hy, root, Option.some.injEq] at h
      rw [hy, h]
      exact List.mem_append_left _ List.mem_cons_self

/-- If the nodes one level up from some leaves are above the nodes one level up from others, the
leaves are above the others. -/
theorem CollisionFree.mem_inner (h : CollisionFree f l m) (hlenl : 1 < l.length)
    (hlenm : 1 < m.length)
    (hup : ∀ x ∈ Merkle.levelUp f l, x ∈ inner f (Merkle.levelUp f m)) :
    ∀ x ∈ l, x ∈ inner f m := by
  -- the components of a pair combined above some level are on that level or above it
  have hpairs : ∀ {m : List α} {q : α × α}, q ∈ pairs f m →
      (q.1 ∈ m ∨ q.1 ∈ inner f m) ∧ (q.2 ∈ m ∨ q.2 ∈ inner f m) := by
    intro m
    induction m using root.induct f with
    | case1 =>
      intro q hq
      simp [pairs] at hq
    | case2 a =>
      intro q hq
      simp [pairs] at hq
    | case3 a b m ih =>
      intro q hq
      have hlen : 1 < (a :: b :: m).length := by simp
      rw [pairs_eq hlen] at hq
      rcases List.mem_append.mp hq with hq | hq
      · obtain ⟨h1, h2⟩ := mem_of_mem_levelPairs hq
        exact ⟨.inl h1, .inl h2⟩
      · rw [inner_eq hlen]
        obtain ⟨h1, h2⟩ := ih hq
        exact ⟨.inr (List.mem_append.mpr h1), .inr (List.mem_append.mpr h2)⟩
  intro x hx
  obtain ⟨p, hp, hxp⟩ := exists_mem_levelPairs hx
  have hnode : f p.1 p.2 ∈ Merkle.levelUp f l := by
    rw [levelUp_eq_map]
    exact List.mem_map_of_mem (f := fun p : α × α => f p.1 p.2) hp
  obtain ⟨q, hq, heq⟩ := List.mem_map.mp (hup _ hnode)
  have hpq : p = q := by
    refine h (.inl ?_) (.inr ?_) heq.symm
    · rw [pairs_eq hlenl]
      exact List.mem_append_left _ hp
    · rw [pairs_eq hlenm]
      exact List.mem_append_right _ hq
  obtain ⟨h1, h2⟩ := hpairs hq
  rw [inner_eq hlenm]
  rcases hxp with rfl | rfl
  · exact List.mem_append.mpr (hpq ▸ h1)
  · exact List.mem_append.mpr (hpq ▸ h2)

/-- Leaves without duplicates that have the same root are the same, or those of one list are
nodes above those of the other. -/
theorem CollisionFree.eq_or_mem_inner (hl : l.Nodup) (hm : m.Nodup) (h : CollisionFree f l m)
    (hnel : l ≠ []) (hnem : m ≠ []) (hroot : root f l = root f m) :
    l = m ∨ (∀ x ∈ l, x ∈ inner f m) ∨ ∀ x ∈ m, x ∈ inner f l := by
  induction l using root.induct f generalizing m with
  | case1 => exact absurd rfl hnel
  | case2 a =>
    rw [root_singleton] at hroot
    match m with
    | [] => exact absurd rfl hnem
    | [b] =>
      rw [root_singleton, Option.some.injEq] at hroot
      exact .inl (congrArg (fun x => [x]) hroot)
    | b :: c :: m =>
      refine .inr (.inl fun x hx => ?_)
      rw [List.mem_singleton.mp hx]
      exact root_mem_inner (by simp) hroot.symm
  | case3 a b l ih =>
    have hlen : 1 < (a :: b :: l).length := by simp
    match m with
    | [] => exact absurd rfl hnem
    | [c] =>
      rw [root_singleton] at hroot
      refine .inr (.inr fun x hx => ?_)
      rw [List.mem_singleton.mp hx]
      exact root_mem_inner hlen hroot
    | c :: d :: m =>
      have hlenm : 1 < (c :: d :: m).length := by simp
      have hup : Merkle.levelUp f (a :: b :: l) ≠ [] := List.cons_ne_nil _ _
      have hupm : Merkle.levelUp f (c :: d :: m) ≠ [] := List.cons_ne_nil _ _
      rw [← root_levelUp f hlen, ← root_levelUp f hlenm] at hroot
      rcases ih (h.nodup_levelUp hlen hl) (h.symm.nodup_levelUp hlenm hm)
        (h.levelUp hlen hlenm) hup hupm hroot with heq | hmem | hmem
      · exact .inl (h.eq_of_levelUp_eq hlen hlenm hl hm heq)
      · exact .inr (.inl (h.mem_inner hlen hlenm hmem))
      · exact .inr (.inr (h.symm.mem_inner hlenm hlen hmem))

/-- Leaves without duplicates, none of them above the leaves, that have the same root are the
same. -/
theorem eq_of_root_eq (h : CollisionFree f l m) (hl : l.Nodup) (hm : m.Nodup) (hnel : l ≠ [])
    (hnem : m ≠ []) (hleafl : ∀ x ∈ l, x ∉ inner f m) (hleafm : ∀ x ∈ m, x ∉ inner f l)
    (hroot : root f l = root f m) : l = m := by
  obtain ⟨x, hx⟩ := List.exists_mem_of_ne_nil l hnel
  obtain ⟨y, hy⟩ := List.exists_mem_of_ne_nil m hnem
  rcases h.eq_or_mem_inner hl hm hnel hnem hroot with heq | hmem | hmem
  · exact heq
  · exact absurd (hmem x hx) (hleafl x hx)
  · exact absurd (hmem y hy) (hleafm y hy)

/-- Three leaves have the root of four, the last of them twice. -/
theorem root_duplicate (a b c : α) : root f [a, b, c] = root f [a, b, c, c] := by
  rw [root, root, levelUp, levelUp, levelUp, levelUp, levelUp]

end Commitment

end Merkle
