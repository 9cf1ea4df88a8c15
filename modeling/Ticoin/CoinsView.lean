import Ticoin.Coins
import Ticoin.Lib.Machine

/-!
# coins.cpp : stacks of coin caches

A `CCoinsViewCache` answers from its own map and falls through to the view below it,
keeping what it found. A stack of caches over a base view is modelled as the list of its
caches, the one on top first; every operation of a cache is a recursion down the list, and
reads may fill every cache they fall through.

The specification is a stack of flat views (`FlatView`) : each level is a full private copy
of the map and of the best block, made when the level is created, and flushing a level
copies it to the one below. `levels` reads a stack of caches as one of flat views, and an
operation on the caches is the operation on the levels (`stackStep_sim`).

The best block is the exception : a cache passes on its own hash when it is flushed, and
that hash is zero until the best block was read or set. So best blocks are answered as in
the flat stack if every level flushed had its best block read or set before
(`RespectsBest`), which `KnowsBest` follows through a run.
-/

namespace Ticoin

open Std (ExtTreeMap)

/-- A view that is a map of coins and a best block : what any view answers, and what the
view at the bottom of a stack of caches is. -/
@[ext] structure FlatView where
  coins : UInt256 → Option CCoins
  best : UInt256

/-- Overwrite exactly the given entries and the best block. -/
def FlatView.batchWrite (v : FlatView) (mapCoins : ExtTreeMap UInt256 CCoins)
    (hashBlock : UInt256) : FlatView where
  coins := fun txid => mapCoins[txid]?.or (v.coins txid)
  best := hashBlock

/-- The memory cache of a view. -/
structure CCoinsViewCache where
  hashBlock : UInt256
  cacheCoins : ExtTreeMap UInt256 CCoins

/-- A cache as it is constructed. -/
def CCoinsViewCache.new : CCoinsViewCache := ⟨0, ∅⟩

/-- The caches over a base view, the one on top first. -/
structure ViewStack where
  base : FlatView
  caches : List CCoinsViewCache

/-! ## The operations of a cache -/

/-- `GetCoins(txid, coins)` of the first cache : what it finds below it keeps. -/
def getCoins (base : FlatView) (txid : UInt256) :
    List CCoinsViewCache → Option CCoins × List CCoinsViewCache
  | [] => (base.coins txid, [])
  | c :: cs =>
    match c.cacheCoins[txid]? with
    | some coins => (some coins, c :: cs)
    | none =>
      match getCoins base txid cs with
      | (some coins, cs) => (some coins, { c with cacheCoins := c.cacheCoins.insert txid coins } :: cs)
      | (none, cs) => (none, c :: cs)

/-- `FetchCoins` has the effect of `GetCoins`; `HaveCoins` asks whether it found an entry. -/
def haveCoins (base : FlatView) (txid : UInt256) (caches : List CCoinsViewCache) :
    Bool × List CCoinsViewCache :=
  let r := getCoins base txid caches
  (r.1.isSome, r.2)

def getBestBlock (base : FlatView) : List CCoinsViewCache → UInt256 × List CCoinsViewCache
  | [] => (base.best, [])
  | c :: cs =>
    if c.hashBlock = 0 then
      let r := getBestBlock base cs
      (r.1, { c with hashBlock := r.1 } :: r.2)
    else (c.hashBlock, c :: cs)

def CCoinsViewCache.setCoins (c : CCoinsViewCache) (txid : UInt256) (coins : CCoins) :
    CCoinsViewCache :=
  { c with cacheCoins := c.cacheCoins.insert txid coins }

/-- `BatchWrite` of a cache : each entry overwrites its own. -/
def CCoinsViewCache.batchWrite (c : CCoinsViewCache) (mapCoins : ExtTreeMap UInt256 CCoins)
    (hashBlock : UInt256) : CCoinsViewCache where
  hashBlock := hashBlock
  cacheCoins := c.cacheCoins ∪ mapCoins

/-- `Flush` of the cache at a depth, into the cache below it or the base view. -/
def flushAt (base : FlatView) : ℕ → List CCoinsViewCache → Option (FlatView × List CCoinsViewCache)
  | _, [] => none
  | 0, [c] => some (base.batchWrite c.cacheCoins c.hashBlock, [{ c with cacheCoins := ∅ }])
  | 0, c :: d :: cs =>
    some (base, { c with cacheCoins := ∅ } :: d.batchWrite c.cacheCoins c.hashBlock :: cs)
  | k + 1, c :: cs => (flushAt base k cs).map fun r => (r.1, c :: r.2)

/-! ## Sequences of operations -/

/-- What can be asked of a view. -/
inductive Query
  | getCoins (txid : UInt256)
  | haveCoins (txid : UInt256)
  | getBestBlock

inductive Answer
  | coins (coins : Option CCoins)
  | haveCoins (fHave : Bool)
  | best (hashBlock : UInt256)
  | done

/-- An operation on a stack. Levels are counted from the top; the base view comes after the
last cache. A level is modified only while no cache is above it, except by flushing one
into it. -/
inductive ViewOp
  | construct
  | destroy
  | query (k : ℕ) (q : Query)
  | setCoins (txid : UInt256) (coins : CCoins)
  | modifyCoins (txid : UInt256) (f : CCoins → CCoins)
  | setBestBlock (hashBlock : UInt256)
  | batchWrite (mapCoins : ExtTreeMap UInt256 CCoins) (hashBlock : UInt256)
  | flush (k : ℕ)

def ask (base : FlatView) (caches : List CCoinsViewCache) : Query → Answer × List CCoinsViewCache
  | .getCoins txid => let r := getCoins base txid caches; (.coins r.1, r.2)
  | .haveCoins txid => let r := haveCoins base txid caches; (.haveCoins r.1, r.2)
  | .getBestBlock => let r := getBestBlock base caches; (.best r.1, r.2)

/-- One operation on the caches, `none` where an assertion fails or there is no such level. -/
def stackStep (s : ViewStack) : ViewOp → Option (ViewStack × Answer)
  | .construct => some ({ s with caches := .new :: s.caches }, .done)
  | .destroy =>
    match s.caches with
    | [] => none
    | _ :: cs => some ({ s with caches := cs }, .done)
  | .query k q =>
    if k ≤ s.caches.length then
      let r := ask s.base (s.caches.drop k) q
      some ({ s with caches := s.caches.take k ++ r.2 }, r.1)
    else none
  | .setCoins txid coins =>
    match s.caches with
    | [] => none
    | c :: cs => some ({ s with caches := c.setCoins txid coins :: cs }, .done)
  | .modifyCoins txid f =>
    -- the reference `GetCoins(txid)` returns; it asserts that there is an entry
    match getCoins s.base txid s.caches with
    | (some coins, c :: cs) =>
      some ({ s with caches := c.setCoins txid (f coins) :: cs }, .done)
    | _ => none
  | .setBestBlock hashBlock =>
    match s.caches with
    | [] => none
    | c :: cs => some ({ s with caches := { c with hashBlock := hashBlock } :: cs }, .done)
  | .batchWrite mapCoins hashBlock =>
    match s.caches with
    | [] => none
    | c :: cs => some ({ s with caches := c.batchWrite mapCoins hashBlock :: cs }, .done)
  | .flush k => (flushAt s.base k s.caches).map fun r => (⟨r.1, r.2⟩, .done)

/-! ## The flat stack -/

def FlatView.ask (v : FlatView) : Query → Answer
  | .getCoins txid => .coins (v.coins txid)
  | .haveCoins txid => .haveCoins (v.coins txid).isSome
  | .getBestBlock => .best v.best

def FlatView.setCoins (v : FlatView) (txid : UInt256) (coins : CCoins) : FlatView :=
  { v with coins := Function.update v.coins txid (some coins) }

/-- Modify the level on top, which is not the base view. -/
def modifyTop (f : FlatView → Option FlatView) : List FlatView → Option (List FlatView × Answer)
  | v :: w :: vs => (f v).map fun v => (v :: w :: vs, .done)
  | _ => none

/-- The same operation when every level is a full private copy. -/
def flatStep (vs : List FlatView) : ViewOp → Option (List FlatView × Answer)
  | .construct => vs.head?.map fun v => (v :: vs, .done)
  | .destroy =>
    match vs with
    | _ :: w :: vs => some (w :: vs, .done)
    | _ => none
  | .query k q => vs[k]?.map fun v => (vs, v.ask q)
  | .setCoins txid coins => modifyTop (fun v => some (v.setCoins txid coins)) vs
  | .modifyCoins txid f =>
    modifyTop (fun v => (v.coins txid).map fun coins => v.setCoins txid (f coins)) vs
  | .setBestBlock hashBlock => modifyTop (fun v => some { v with best := hashBlock }) vs
  | .batchWrite mapCoins hashBlock =>
    modifyTop (fun v => some (v.batchWrite mapCoins hashBlock)) vs
  | .flush k =>
    match vs[k]?, vs[k + 1]? with
    | some v, some _ => some (vs.set (k + 1) v, .done)
    | _, _ => none

/-! ## Caches as flat views -/

/-- What a cache answers over a flat view. -/
def CCoinsViewCache.over (c : CCoinsViewCache) (v : FlatView) : FlatView where
  coins := fun txid => c.cacheCoins[txid]?.or (v.coins txid)
  best := if c.hashBlock = 0 then v.best else c.hashBlock

/-- What the first of some caches answers. -/
def view (base : FlatView) (caches : List CCoinsViewCache) : FlatView :=
  caches.foldr CCoinsViewCache.over base

/-- What every level of a stack answers. -/
def levels (base : FlatView) : List CCoinsViewCache → List FlatView
  | [] => [base]
  | c :: cs => view base (c :: cs) :: levels base cs

section Levels

variable {base : FlatView} {c : CCoinsViewCache} {cs : List CCoinsViewCache} {v : FlatView}

@[simp] theorem view_cons : view base (c :: cs) = c.over (view base cs) := rfl

theorem levels_eq_cons (base : FlatView) (cs : List CCoinsViewCache) :
    ∃ vs, levels base cs = view base cs :: vs := by
  cases cs with
  | nil => exact ⟨[], rfl⟩
  | cons c cs => exact ⟨levels base cs, rfl⟩

@[simp] theorem length_levels : ∀ cs : List CCoinsViewCache,
    (levels base cs).length = cs.length + 1
  | [] => rfl
  | c :: cs => by rw [levels, List.length_cons, length_levels cs, List.length_cons]

theorem view_eq_of_levels {cs' : List CCoinsViewCache} (h : levels base cs' = levels base cs) :
    view base cs' = view base cs := by
  obtain ⟨vs, hvs⟩ := levels_eq_cons base cs
  obtain ⟨vs', hvs'⟩ := levels_eq_cons base cs'
  rw [hvs, hvs'] at h
  exact (List.cons.inj h).1

/-- The levels above depend on the caches below through their levels only. -/
theorem levels_append {cs' : List CCoinsViewCache} (h : levels base cs' = levels base cs) :
    ∀ p : List CCoinsViewCache, levels base (p ++ cs') = levels base (p ++ cs)
  | [] => h
  | c :: p => by
    have hp := levels_append h p
    rw [List.cons_append, List.cons_append, levels, levels, hp, view_cons, view_cons,
      view_eq_of_levels hp]

theorem getElem?_levels (base : FlatView) : ∀ {cs : List CCoinsViewCache} {k : ℕ}, k ≤ cs.length →
    (levels base cs)[k]? = some (view base (cs.drop k))
  | [], 0, _ => rfl
  | c :: cs, 0, _ => rfl
  | c :: cs, k + 1, hk => by
    rw [levels, List.getElem?_cons_succ, List.drop_succ_cons]
    exact getElem?_levels base (Nat.succ_le_succ_iff.mp hk)

@[simp] theorem new_over (v : FlatView) : CCoinsViewCache.new.over v = v := by
  exact FlatView.ext (by simp [CCoinsViewCache.over, CCoinsViewCache.new])
    (by simp [CCoinsViewCache.over, CCoinsViewCache.new])

/-- An entry cached as the view below has it changes no answer. -/
theorem insert_over {txid : UInt256} {coins : CCoins} (hnone : c.cacheCoins[txid]? = none)
    (hv : v.coins txid = some coins) :
    ({ c with cacheCoins := c.cacheCoins.insert txid coins } : CCoinsViewCache).over v =
      c.over v := by
  have hcoins : ∀ t, (c.cacheCoins.insert txid coins)[t]?.or (v.coins t) =
      c.cacheCoins[t]?.or (v.coins t) := by
    intro t
    rw [ExtTreeMap.getElem?_insert]
    split
    · rename_i h
      rw [← Std.LawfulEqOrd.eq_of_compare h, hnone, hv]
      rfl
    · rfl
  exact FlatView.ext (funext hcoins) rfl

/-! ## Queries -/

/-- `GetCoins` answers for its level and changes no level. -/
theorem getCoins_spec (base : FlatView) (txid : UInt256) : ∀ cs : List CCoinsViewCache,
    (getCoins base txid cs).1 = (view base cs).coins txid ∧
      levels base (getCoins base txid cs).2 = levels base cs
  | [] => ⟨rfl, rfl⟩
  | c :: cs => by
    obtain ⟨hans, hlev⟩ := getCoins_spec base txid cs
    rw [getCoins]
    cases hc : c.cacheCoins[txid]? with
    | some coins => exact ⟨by simp [CCoinsViewCache.over, hc], rfl⟩
    | none =>
      have hview := view_eq_of_levels hlev
      rcases hr : getCoins base txid cs with ⟨_ | coins, cs'⟩
      · rw [hr] at hans hlev hview
        refine ⟨by simpa [CCoinsViewCache.over, hc] using hans, ?_⟩
        dsimp only at hlev hview ⊢
        rw [levels, levels, view_cons, view_cons, hlev, hview]
      · rw [hr] at hans hlev hview
        refine ⟨by simpa [CCoinsViewCache.over, hc] using hans, ?_⟩
        dsimp only at hans hlev hview ⊢
        rw [levels, levels, view_cons, view_cons, hlev, hview, insert_over hc hans.symm]

/-- `GetBestBlock` answers for its level and changes no level. -/
theorem getBestBlock_spec (base : FlatView) : ∀ cs : List CCoinsViewCache,
    (getBestBlock base cs).1 = (view base cs).best ∧
      levels base (getBestBlock base cs).2 = levels base cs
  | [] => ⟨rfl, rfl⟩
  | c :: cs => by
    obtain ⟨hans, hlev⟩ := getBestBlock_spec base cs
    rw [getBestBlock]
    by_cases hc : c.hashBlock = 0
    · rw [if_pos hc]
      refine ⟨hans.trans (if_pos hc).symm, ?_⟩
      rw [levels, levels, hlev, view_cons, view_cons, view_eq_of_levels hlev, hans]
      refine congrArg (· :: _) (FlatView.ext rfl ?_)
      simp only [CCoinsViewCache.over, hc, if_true]
      exact ite_self _
    · rw [if_neg hc]
      exact ⟨(if_neg hc).symm, rfl⟩

theorem ask_spec (base : FlatView) (cs : List CCoinsViewCache) (q : Query) :
    (ask base cs q).1 = (view base cs).ask q ∧ levels base (ask base cs q).2 = levels base cs := by
  cases q with
  | getCoins txid =>
    have h := getCoins_spec base txid cs
    exact ⟨by rw [ask, FlatView.ask, h.1], h.2⟩
  | haveCoins txid =>
    have h := getCoins_spec base txid cs
    exact ⟨by rw [ask, FlatView.ask, haveCoins, h.1], h.2⟩
  | getBestBlock =>
    have h := getBestBlock_spec base cs
    exact ⟨by rw [ask, FlatView.ask, h.1], h.2⟩

end Levels

/-- A query is answered by the flat view of its level and changes no level. -/
theorem stackStep_query (s : ViewStack) (k : ℕ) (q : Query) :
    (stackStep s (.query k q)).map (fun r => (levels r.1.base r.1.caches, r.2)) =
      flatStep (levels s.base s.caches) (.query k q) := by
  rw [stackStep, flatStep]
  by_cases hk : k ≤ s.caches.length
  · obtain ⟨hans, hlev⟩ := ask_spec s.base (s.caches.drop k) q
    have hall := levels_append hlev (s.caches.take k)
    rw [List.take_append_drop] at hall
    rw [if_pos hk, getElem?_levels _ hk, Option.map_some, Option.map_some, hans]
    simp only [hall]
  · rw [if_neg hk, List.getElem?_eq_none (by rw [length_levels]; omega)]
    rfl

/-! ## Whether the best block of a cache is known -/

/-- Which caches had their best block read or set to a non-zero hash, the one on top first. -/
def knownStep (ks : List Bool) : ViewOp → List Bool
  | .construct => false :: ks
  | .destroy => ks.tail
  | .query k .getBestBlock => ks.set k true
  | .query _ _ => ks
  | .setCoins _ _ => ks
  | .modifyCoins _ _ => ks
  | .setBestBlock hashBlock => ks.set 0 (hashBlock != 0)
  | .batchWrite _ hashBlock => ks.set 0 (hashBlock != 0)
  | .flush k =>
    match ks[k]? with
    | some b => ks.set (k + 1) b
    | none => ks

/-- A cache of known best block whose own hash is zero answers zero. -/
def KnowsBest (base : FlatView) : List CCoinsViewCache → List Bool → Prop
  | [], [] => True
  | c :: cs, b :: ks => (b = true → c.hashBlock = 0 → (view base cs).best = 0) ∧ KnowsBest base cs ks
  | _, _ => False

theorem KnowsBest.length_eq {base : FlatView} : ∀ {cs : List CCoinsViewCache} {ks : List Bool},
    KnowsBest base cs ks → ks.length = cs.length
  | [], [], _ => rfl
  | _ :: _, _ :: _, h => congrArg (· + 1) h.2.length_eq

section Known

variable {base : FlatView}

theorem over_best_eq_zero {c : CCoinsViewCache} {v : FlatView} :
    (c.over v).best = 0 ↔ c.hashBlock = 0 ∧ v.best = 0 := by
  rw [CCoinsViewCache.over]
  split <;> simp_all

theorem knowsBest_getCoins (txid : UInt256) : ∀ {cs : List CCoinsViewCache} {ks : List Bool},
    KnowsBest base cs ks → KnowsBest base (getCoins base txid cs).2 ks
  | [], [], _ => trivial
  | c :: cs, b :: ks, h => by
    have hview := view_eq_of_levels (getCoins_spec base txid cs).2
    have htail := knowsBest_getCoins txid h.2
    rw [getCoins]
    cases hc : c.cacheCoins[txid]? with
    | some coins => exact h
    | none =>
      rcases hr : getCoins base txid cs with ⟨_ | coins, cs'⟩ <;> rw [hr] at hview htail <;>
        exact ⟨fun hb hz => hview ▸ h.1 hb hz, htail⟩

theorem knowsBest_getBestBlock : ∀ {cs : List CCoinsViewCache} {ks : List Bool},
    KnowsBest base cs ks → KnowsBest base (getBestBlock base cs).2 ks
  | [], [], _ => trivial
  | c :: cs, b :: ks, h => by
    rw [getBestBlock]
    split
    · obtain ⟨hans, hlev⟩ := getBestBlock_spec base cs
      exact ⟨fun _ hz => by rwa [view_eq_of_levels hlev, ← hans], knowsBest_getBestBlock h.2⟩
    · exact h

/-- Reading the best block makes it known. -/
theorem knowsBest_read {cs : List CCoinsViewCache} {ks : List Bool} (h : KnowsBest base cs ks) :
    KnowsBest base (getBestBlock base cs).2 (ks.set 0 true) := by
  have hread := knowsBest_getBestBlock h
  match cs, ks, h with
  | [], [], _ => trivial
  | c :: cs, b :: ks, _ =>
    rw [getBestBlock, List.set_cons_zero] at *
    split at hread
    · obtain ⟨hans, hlev⟩ := getBestBlock_spec base cs
      rename_i hc
      rw [if_pos hc]
      exact ⟨fun _ hz => by rwa [view_eq_of_levels hlev, ← hans], hread.2⟩
    · rename_i hc
      rw [if_neg hc]
      exact ⟨fun _ hz => absurd hz hc, hread.2⟩

theorem knowsBest_ask (q : Query) : ∀ (k : ℕ) {cs : List CCoinsViewCache} {ks : List Bool},
    k ≤ cs.length → KnowsBest base cs ks →
    KnowsBest base (cs.take k ++ (ask base (cs.drop k) q).2) (knownStep ks (.query k q))
  | 0, cs, ks, _, h => by
    cases q with
    | getCoins txid => exact knowsBest_getCoins txid h
    | haveCoins txid => exact knowsBest_getCoins txid h
    | getBestBlock => exact knowsBest_read h
  | k + 1, c :: cs, b :: ks, hk, h => by
    have htail := knowsBest_ask q k (Nat.succ_le_succ_iff.mp hk) h.2
    have hlev := levels_append (ask_spec base (cs.drop k) q).2 (cs.take k)
    rw [List.take_append_drop] at hlev
    have hcons : knownStep (b :: ks) (.query (k + 1) q) = b :: knownStep ks (.query k q) := by
      cases q <;> rfl
    rw [hcons]
    exact ⟨fun hb hz => view_eq_of_levels hlev ▸ h.1 hb hz, htail⟩

/-- Flushing does not make an answer of zero anything else. -/
theorem best_flushAt {base' : FlatView} : ∀ (k : ℕ) {cs cs' : List CCoinsViewCache},
    flushAt base k cs = some (base', cs') → (view base cs).best = 0 → (view base' cs').best = 0
  | 0, [c], cs', h, hz => by
    obtain ⟨rfl, rfl⟩ : _ ∧ _ := by simpa [flushAt] using h
    have hc := over_best_eq_zero.mp hz
    exact over_best_eq_zero.mpr ⟨hc.1, hc.1⟩
  | 0, c :: d :: cs, cs', h, hz => by
    obtain ⟨rfl, rfl⟩ : _ ∧ _ := by simpa [flushAt] using h
    have hc := over_best_eq_zero.mp hz
    exact over_best_eq_zero.mpr ⟨hc.1, over_best_eq_zero.mpr
      ⟨hc.1, (over_best_eq_zero.mp hc.2).2⟩⟩
  | k + 1, c :: cs, cs', h, hz => by
    rw [flushAt] at h
    obtain ⟨⟨b, cs₁⟩, hflush, heq⟩ := Option.map_eq_some_iff.mp h
    cases heq
    have hc := over_best_eq_zero.mp hz
    exact over_best_eq_zero.mpr ⟨hc.1, best_flushAt k hflush hc.2⟩

/-- Flushing makes the best block below as known as that of the cache flushed. -/
theorem knowsBest_flushAt {base' : FlatView} : ∀ (k : ℕ) {cs cs' : List CCoinsViewCache}
    {ks : List Bool}, flushAt base k cs = some (base', cs') → KnowsBest base cs ks →
    KnowsBest base' cs' (knownStep ks (.flush k))
  | 0, [c], cs', [b], h, hk => by
    obtain ⟨rfl, rfl⟩ : _ ∧ _ := by simpa [flushAt] using h
    exact ⟨fun _ hz => hz, trivial⟩
  | 0, c :: d :: cs, cs', b :: b' :: ks, h, hk => by
    obtain ⟨rfl, rfl⟩ : _ ∧ _ := by simpa [flushAt] using h
    refine ⟨fun hb hz => ?_, fun hb hz => ?_, hk.2.2⟩
    · exact over_best_eq_zero.mpr ⟨hz, (over_best_eq_zero.mp (hk.1 hb hz)).2⟩
    · exact (over_best_eq_zero.mp (hk.1 hb hz)).2
  | k + 1, c :: cs, cs', b :: ks, h, hk => by
    rw [flushAt] at h
    obtain ⟨⟨b', cs₁⟩, hflush, heq⟩ := Option.map_eq_some_iff.mp h
    cases heq
    have hcons : knownStep (b :: ks) (.flush (k + 1)) = b :: knownStep ks (.flush k) := by
      simp only [knownStep, List.getElem?_cons_succ]
      split <;> simp_all
    rw [hcons]
    exact ⟨fun hb hz => best_flushAt k hflush (hk.1 hb hz), knowsBest_flushAt k hflush hk.2⟩

end Known

/-- What is known stays known through every operation. -/
theorem knowsBest_step {s s' : ViewStack} {op : ViewOp} {a : Answer} {ks : List Bool}
    (h : KnowsBest s.base s.caches ks) (hstep : stackStep s op = some (s', a)) :
    KnowsBest s'.base s'.caches (knownStep ks op) := by
  obtain ⟨base, caches⟩ := s
  cases op with
  | construct =>
    obtain ⟨rfl, -⟩ : _ ∧ _ := by simpa [stackStep] using hstep
    exact ⟨by simp, h⟩
  | destroy =>
    match caches, ks, h with
    | [], _, _ => simp [stackStep] at hstep
    | c :: cs, b :: ks, h =>
      obtain ⟨rfl, -⟩ : _ ∧ _ := by simpa [stackStep] using hstep
      exact h.2
  | query k q =>
    simp only [stackStep] at hstep
    split at hstep
    · rename_i hk
      cases hstep
      exact knowsBest_ask q k hk h
    · cases hstep
  | setCoins txid coins =>
    match caches, ks, h with
    | [], _, _ => simp [stackStep] at hstep
    | c :: cs, b :: ks, h =>
      obtain ⟨rfl, -⟩ : _ ∧ _ := by simpa [stackStep] using hstep
      exact h
  | modifyCoins txid f =>
    have hread := knowsBest_getCoins txid h
    simp only [stackStep] at hstep
    split at hstep
    · rename_i coins c cs hr
      cases hstep
      rw [hr] at hread
      match ks, hread with
      | b :: ks, hread => exact hread
    · cases hstep
  | setBestBlock hashBlock =>
    match caches, ks, h with
    | [], _, _ => simp [stackStep] at hstep
    | c :: cs, b :: ks, h =>
      obtain ⟨rfl, -⟩ : _ ∧ _ := by simpa [stackStep] using hstep
      exact ⟨fun hb hz => absurd hz (by simpa using hb), h.2⟩
  | batchWrite mapCoins hashBlock =>
    match caches, ks, h with
    | [], _, _ => simp [stackStep] at hstep
    | c :: cs, b :: ks, h =>
      obtain ⟨rfl, -⟩ : _ ∧ _ := by simpa [stackStep] using hstep
      exact ⟨fun hb hz => absurd (show hashBlock = 0 from hz) (by simpa using hb), h.2⟩
  | flush k =>
    obtain ⟨r, hflush, heq⟩ := Option.map_eq_some_iff.mp hstep
    cases heq
    exact knowsBest_flushAt k hflush h

/-! ## The flat stack answers the same -/

/-- Equal coins, and equal best blocks where these are followed. -/
def FlatView.Agree (fBest : Bool) (v w : FlatView) : Prop :=
  v.coins = w.coins ∧ (fBest = true → v.best = w.best)

/-- An answer, but for the best block where it is not followed. -/
def Answer.key (fBest : Bool) : Answer → Answer
  | .best hashBlock => .best (if fBest then hashBlock else 0)
  | a => a

/-- The best block of the stack is known where the operation passes it on. -/
def ViewOp.bestOk (ks : List Bool) : ViewOp → Prop
  | .setBestBlock hashBlock => hashBlock ≠ 0
  | .batchWrite _ hashBlock => hashBlock ≠ 0
  | .flush k => ks[k]? = some true
  | _ => True

/-- Best blocks are set to non-zero hashes, and every cache flushed had its best block read
or set. -/
def RespectsBest : List Bool → List ViewOp → Prop
  | _, [] => True
  | ks, op :: ops => op.bestOk ks ∧ RespectsBest (knownStep ks op) ops

section Agree

variable {fBest : Bool} {base : FlatView} {c : CCoinsViewCache} {v w : FlatView}

theorem key_ask (h : v.Agree fBest w) (q : Query) : (v.ask q).key fBest = (w.ask q).key fBest := by
  cases q with
  | getCoins txid => simp [FlatView.ask, Answer.key, h.1]
  | haveCoins txid => simp [FlatView.ask, Answer.key, h.1]
  | getBestBlock => cases fBest <;> simp_all [FlatView.ask, Answer.key, FlatView.Agree]

theorem FlatView.Agree.setCoins (h : v.Agree fBest w) (txid : UInt256) (coins : CCoins) :
    (v.setCoins txid coins).Agree fBest (w.setCoins txid coins) :=
  ⟨by simp only [FlatView.setCoins, h.1], h.2⟩

theorem FlatView.Agree.batchWrite (h : v.Agree fBest w) (mapCoins : ExtTreeMap UInt256 CCoins)
    (hashBlock : UInt256) :
    (v.batchWrite mapCoins hashBlock).Agree fBest (w.batchWrite mapCoins hashBlock) :=
  ⟨by simp only [FlatView.batchWrite, h.1], fun _ => rfl⟩

theorem setCoins_over (c : CCoinsViewCache) (v : FlatView) (txid : UInt256) (coins : CCoins) :
    (c.setCoins txid coins).over v = (c.over v).setCoins txid coins := by
  refine FlatView.ext (funext fun t => ?_) rfl
  simp only [CCoinsViewCache.over, CCoinsViewCache.setCoins, FlatView.setCoins,
    ExtTreeMap.getElem?_insert, Function.update_apply, Std.LawfulEqOrd.compare_eq_iff_eq]
  by_cases ht : txid = t
  · simp [ht]
  · simp [ht, Ne.symm ht]

theorem batchWrite_over (c : CCoinsViewCache) (v : FlatView)
    (mapCoins : ExtTreeMap UInt256 CCoins) (hashBlock : UInt256) :
    ((c.batchWrite mapCoins hashBlock).over v).coins =
      ((c.over v).batchWrite mapCoins hashBlock).coins := by
  funext t
  simp only [CCoinsViewCache.over, CCoinsViewCache.batchWrite, FlatView.batchWrite,
    ExtTreeMap.getElem?_union, Option.or_assoc]

/-- The level on top and those below it, beside the flat views they agree with. -/
theorem agree_cons {cs : List CCoinsViewCache} {vs : List FlatView}
    (h : List.Forall₂ (FlatView.Agree fBest) (levels base (c :: cs)) vs) :
    ∃ v w ws, vs = v :: w :: ws ∧ (view base (c :: cs)).Agree fBest v ∧
      List.Forall₂ (FlatView.Agree fBest) (levels base cs) (w :: ws) := by
  rw [levels] at h
  cases h with
  | @cons _ v _ ws hv hws =>
  obtain ⟨us, hus⟩ := levels_eq_cons base cs
  rw [hus] at hws
  cases hws with
  | @cons _ w _ ws hw hws => exact ⟨v, w, ws, rfl, hv, by rw [hus]; exact .cons hw hws⟩

theorem FlatView.Agree.trans {u : FlatView} (h : v.Agree fBest w) (h' : w.Agree fBest u) :
    v.Agree fBest u :=
  ⟨h.1.trans h'.1, fun hb => (h.2 hb).trans (h'.2 hb)⟩

theorem FlatView.Agree.symm (h : v.Agree fBest w) : w.Agree fBest v :=
  ⟨h.1.symm, fun hb => (h.2 hb).symm⟩

theorem FlatView.Agree.over (h : v.Agree fBest w) : (c.over v).Agree fBest (c.over w) := by
  refine ⟨by simp only [CCoinsViewCache.over, h.1], fun hb => ?_⟩
  simp only [CCoinsViewCache.over, h.2 hb]

theorem over_best_of_zero (h : c.hashBlock = 0) : (c.over v).best = v.best := if_pos h

theorem over_best_of_ne (h : c.hashBlock ≠ 0) : (c.over v).best = c.hashBlock := if_neg h

/-- What a cache leaves behind when it is flushed into the base view. -/
theorem over_flush_base (hk : fBest = true → c.hashBlock = 0 → base.best = 0) :
    (base.batchWrite c.cacheCoins c.hashBlock).Agree fBest (c.over base) := by
  refine ⟨rfl, fun hb => ?_⟩
  by_cases hz : c.hashBlock = 0
  · rw [over_best_of_zero hz, hk hb hz]
    exact hz
  · rw [over_best_of_ne hz]
    rfl

/-- What a cache leaves behind when it is flushed into another. -/
theorem over_flush_cache {d : CCoinsViewCache}
    (hk : fBest = true → c.hashBlock = 0 → (d.over v).best = 0) :
    ((d.batchWrite c.cacheCoins c.hashBlock).over v).Agree fBest (c.over (d.over v)) := by
  refine ⟨batchWrite_over _ _ _ _, fun hb => ?_⟩
  by_cases hz : c.hashBlock = 0
  · rw [over_best_of_zero (c := d.batchWrite _ _) hz, over_best_of_zero hz, hk hb hz,
      (over_best_eq_zero.mp (hk hb hz)).2]
  · rw [over_best_of_ne (c := d.batchWrite _ _) hz, over_best_of_ne hz]
    rfl

/-- An emptied cache over what it left behind. -/
theorem cleared_over (hv : v.Agree fBest (c.over w)) :
    (CCoinsViewCache.over { c with cacheCoins := ∅ } v).Agree fBest (c.over w) := by
  refine ⟨by simp [CCoinsViewCache.over, hv.1], fun hb => ?_⟩
  by_cases hz : c.hashBlock = 0
  · rw [over_best_of_zero (c := { c with cacheCoins := ∅ }) hz, hv.2 hb]
  · rw [over_best_of_ne (c := { c with cacheCoins := ∅ }) hz, over_best_of_ne hz]

theorem flatStep_flush_cons (v : FlatView) (vs : List FlatView) (k : ℕ) :
    flatStep (v :: vs) (.flush (k + 1)) =
      (flatStep vs (.flush k)).map fun r => (v :: r.1, r.2) := by
  simp only [flatStep, List.getElem?_cons_succ, List.set_cons_succ]
  split <;> simp_all

/-- Flushing a cache copies its level to the one below. -/
theorem flushAt_sim : ∀ (k : ℕ) {base : FlatView} {cs : List CCoinsViewCache}
    {vs : List FlatView}, List.Forall₂ (FlatView.Agree fBest) (levels base cs) vs →
    (fBest = true → ∃ ks, KnowsBest base cs ks ∧ ks[k]? = some true) →
    Option.Rel (fun r us => (view r.1 r.2).Agree fBest (view base cs) ∧
      List.Forall₂ (FlatView.Agree fBest) (levels r.1 r.2) us.1)
      (flushAt base k cs) (flatStep vs (.flush k))
  | 0, base, [], vs, h, hk => by
    cases h with
    | cons hv hvs => cases hvs; exact .none
  | k + 1, base, [], vs, h, hk => by
    cases h with
    | cons hv hvs => cases hvs; exact .none
  | 0, base, [c], vs, h, hk => by
    obtain ⟨v, w, ws, rfl, hv, hw⟩ := agree_cons h
    cases hw with
    | cons hw hws =>
    cases hws
    have hknown : fBest = true → c.hashBlock = 0 → base.best = 0 := by
      intro hb hz
      obtain ⟨ks, hks, htrue⟩ := hk hb
      match ks, hks with
      | [b], hks => exact hks.1 (by simpa using htrue) hz
    have hbase := over_flush_base hknown
    exact .some ⟨cleared_over hbase,
      .cons ((cleared_over hbase).trans hv) (.cons (hbase.trans hv) .nil)⟩
  | 0, base, c :: d :: cs, vs, h, hk => by
    obtain ⟨v, w, ws, rfl, hv, hw⟩ := agree_cons h
    cases hw with
    | cons hw hws =>
    have hknown : fBest = true → c.hashBlock = 0 → (d.over (view base cs)).best = 0 := by
      intro hb hz
      obtain ⟨ks, hks, htrue⟩ := hk hb
      match ks, hks with
      | b :: ks, hks => exact hks.1 (by simpa using htrue) hz
    have hd := over_flush_cache hknown
    exact .some ⟨cleared_over hd,
      .cons ((cleared_over hd).trans hv) (.cons (hd.trans hv) hws)⟩
  | k + 1, base, c :: cs, vs, h, hk => by
    obtain ⟨v, w, ws, rfl, hv, hw⟩ := agree_cons h
    have hknown : fBest = true → ∃ ks, KnowsBest base cs ks ∧ ks[k]? = some true := by
      intro hb
      obtain ⟨ks, hks, htrue⟩ := hk hb
      match ks, hks with
      | b :: ks, hks => exact ⟨ks, hks.2, by simpa using htrue⟩
    have hrel := flushAt_sim k hw hknown
    rw [flatStep_flush_cons, flushAt]
    generalize flushAt base k cs = r at hrel ⊢
    generalize flatStep (w :: ws) (.flush k) = us at hrel ⊢
    cases hrel with
    | none => exact .none
    | some hru => exact .some ⟨hru.1.over, .cons (hru.1.over.trans hv) hru.2⟩

/-- The base view is not modified in place. -/
theorem modifyTop_base {vs : List FlatView} (f : FlatView → Option FlatView)
    (h : List.Forall₂ (FlatView.Agree fBest) (levels base []) vs) : modifyTop f vs = none := by
  cases h with
  | cons hv hvs => cases hvs; rfl

/-- Modifying the cache on top modifies the level on top. -/
theorem modifyTop_sim {cs : List CCoinsViewCache} {vs : List FlatView}
    (h : List.Forall₂ (FlatView.Agree fBest) (levels base (c :: cs)) vs) (c' : CCoinsViewCache)
    {f : FlatView → FlatView}
    (hf : ∀ v, (view base (c :: cs)).Agree fBest v → (view base (c' :: cs)).Agree fBest (f v)) :
    ∃ us, modifyTop (fun v => some (f v)) vs = some (us, .done) ∧
      List.Forall₂ (FlatView.Agree fBest) (levels base (c' :: cs)) us := by
  obtain ⟨v, w, ws, rfl, hv, hw⟩ := agree_cons h
  exact ⟨f v :: w :: ws, rfl, .cons (hf v hv) hw⟩

/-- The reference `GetCoins` returns modifies the level on top. -/
theorem modifyCoins_sim {cs : List CCoinsViewCache} {vs : List FlatView} (txid : UInt256)
    (f : CCoins → CCoins) (h : List.Forall₂ (FlatView.Agree fBest) (levels base cs) vs) :
    Option.Rel (fun a b => List.Forall₂ (FlatView.Agree fBest) (levels a.1.base a.1.caches) b.1 ∧
      a.2.key fBest = b.2.key fBest) (stackStep ⟨base, cs⟩ (.modifyCoins txid f))
      (flatStep vs (.modifyCoins txid f)) := by
  obtain ⟨hans, hlev⟩ := getCoins_spec base txid cs
  rw [stackStep, flatStep]
  cases cs with
  | nil =>
    rw [modifyTop_base _ h, getCoins]
    cases base.coins txid <;> exact .none
  | cons c cs =>
    obtain ⟨v, w, ws, rfl, hv, hw⟩ := agree_cons h
    rcases hr : getCoins base txid (c :: cs) with ⟨_ | coins, cs'⟩
    · rw [hr, hv.1] at hans
      simp only [modifyTop, ← hans]
      exact .none
    · rw [hr, hv.1] at hans
      rw [hr] at hlev
      have hview := view_eq_of_levels hlev
      match cs', hlev, hview with
      | [], hlev, _ =>
        have hlen := congrArg List.length hlev
        simp at hlen
      | c' :: cs', hlev, hview =>
        have htail : levels base cs' = levels base cs := (List.cons.inj hlev).2
        simp only [modifyTop, ← hans]
        refine .some ⟨.cons ?_ (by rw [htail]; exact hw), rfl⟩
        rw [view_cons, setCoins_over]
        exact (hview ▸ hv).setCoins txid (f coins)

end Agree

/-- An operation on the caches is the operation on the flat views, for coins always and for
best blocks where they are known. -/
theorem stackStep_sim {fBest : Bool} {s : ViewStack} {vs : List FlatView} {ks : List Bool}
    (op : ViewOp) (h : List.Forall₂ (FlatView.Agree fBest) (levels s.base s.caches) vs)
    (hk : fBest = true → KnowsBest s.base s.caches ks ∧ op.bestOk ks) :
    Option.Rel (fun a b => List.Forall₂ (FlatView.Agree fBest) (levels a.1.base a.1.caches) b.1 ∧
      a.2.key fBest = b.2.key fBest) (stackStep s op) (flatStep vs op) := by
  obtain ⟨base, caches⟩ := s
  dsimp only at h
  cases op with
  | construct =>
    obtain ⟨us, hus⟩ := levels_eq_cons base caches
    have hlev : levels base (.new :: caches) = view base caches :: levels base caches := by
      rw [levels, view_cons, new_over]
    rw [hus] at h hlev
    cases h with
    | cons hv hvs => exact .some ⟨by dsimp only; rw [hlev]; exact .cons hv (.cons hv hvs), rfl⟩
  | destroy =>
    cases caches with
    | nil =>
      cases h with
      | cons hv hvs => cases hvs; exact .none
    | cons c cs =>
      obtain ⟨v, w, ws, rfl, hv, hw⟩ := agree_cons h
      exact .some ⟨hw, rfl⟩
  | query k q =>
    rw [stackStep, flatStep]
    by_cases hlen : k ≤ caches.length
    · obtain ⟨hans, hlev⟩ := ask_spec base (caches.drop k) q
      have hall := levels_append hlev (caches.take k)
      rw [List.take_append_drop] at hall
      have hget := getElem?_levels base hlen
      obtain ⟨v, hv, hagree⟩ : ∃ v, vs[k]? = some v ∧
          (view base (caches.drop k)).Agree fBest v := by
        obtain ⟨hk₁, heq⟩ := List.getElem?_eq_some_iff.mp hget
        have hk₂ : k < vs.length := h.length_eq ▸ hk₁
        exact ⟨vs[k], List.getElem?_eq_getElem hk₂, by rw [← heq]; exact h.get hk₁ hk₂⟩
      rw [if_pos hlen, hv]
      exact .some ⟨by dsimp only; rw [hall]; exact h, by dsimp only; rw [hans, key_ask hagree]⟩
    · have hvs := h.length_eq
      rw [length_levels] at hvs
      rw [if_neg hlen, List.getElem?_eq_none (by omega)]
      exact .none
  | setCoins txid coins =>
    cases caches with
    | nil => rw [flatStep, modifyTop_base _ h]; exact .none
    | cons c cs =>
      obtain ⟨us, hus, hrel⟩ := modifyTop_sim h (c.setCoins txid coins)
        (f := fun v => v.setCoins txid coins) fun v hv => by
          rw [view_cons, setCoins_over]
          exact hv.setCoins txid coins
      rw [flatStep, hus]
      exact .some ⟨hrel, rfl⟩
  | modifyCoins txid f => exact modifyCoins_sim txid f h
  | setBestBlock hashBlock =>
    cases caches with
    | nil => rw [flatStep, modifyTop_base _ h]; exact .none
    | cons c cs =>
      obtain ⟨us, hus, hrel⟩ := modifyTop_sim h { c with hashBlock := hashBlock }
        (f := fun v => { v with best := hashBlock }) fun v hv =>
          ⟨hv.1, fun hb => over_best_of_ne (c := { c with hashBlock := hashBlock }) (hk hb).2⟩
      rw [flatStep, hus]
      exact .some ⟨hrel, rfl⟩
  | batchWrite mapCoins hashBlock =>
    cases caches with
    | nil => rw [flatStep, modifyTop_base _ h]; exact .none
    | cons c cs =>
      obtain ⟨us, hus, hrel⟩ := modifyTop_sim h (c.batchWrite mapCoins hashBlock)
        (f := fun v => v.batchWrite mapCoins hashBlock) fun v hv =>
          ⟨(batchWrite_over _ _ _ _).trans (hv.batchWrite mapCoins hashBlock).1, fun hb =>
            over_best_of_ne (c := c.batchWrite mapCoins hashBlock) (hk hb).2⟩
      rw [flatStep, hus]
      exact .some ⟨hrel, rfl⟩
  | flush k =>
    have hrel := flushAt_sim k h fun hb => ⟨ks, (hk hb).1, (hk hb).2⟩
    have hdone : ∀ us, flatStep vs (.flush k) = some us → us.2 = .done := by
      intro us hus
      simp only [flatStep] at hus
      split at hus
      · cases hus; rfl
      · cases hus
    rw [stackStep]
    generalize flushAt base k caches = r at hrel ⊢
    generalize flatStep vs (.flush k) = us at hrel hdone ⊢
    cases hrel with
    | none => exact .none
    | some hru => exact .some ⟨hru.2, by rw [hdone _ rfl]⟩

/-! ## Whole sequences -/

theorem answers_map_id (outs : List Answer) : outs.map (Answer.key true) = outs := by
  have hid : Answer.key true = id := funext fun a => by cases a <;> rfl
  rw [hid, List.map_id]

/-- Coins are answered as by the flat stack, and best blocks where they are known. -/
theorem run_sim_flat (fBest : Bool) {s : ViewStack} {vs : List FlatView} (ks : List Bool)
    (ops : List ViewOp) (h : List.Forall₂ (FlatView.Agree fBest) (levels s.base s.caches) vs)
    (hk : fBest = true → KnowsBest s.base s.caches ks ∧ RespectsBest ks ops) :
    (Machine.run stackStep s ops).map (fun r => r.2.map (Answer.key fBest)) =
      (Machine.run flatStep vs ops).map (fun r => r.2.map (Answer.key fBest)) := by
  have hsim := Machine.run_sim stackStep flatStep (f := Answer.key fBest)
    (R := fun ops s vs => List.Forall₂ (FlatView.Agree fBest) (levels s.base s.caches) vs ∧
      (fBest = true → ∃ ks, KnowsBest s.base s.caches ks ∧ RespectsBest ks ops))
    (fun op ops s vs hR => by
      obtain ⟨ks, hks⟩ : ∃ ks, fBest = true →
          KnowsBest s.base s.caches ks ∧ RespectsBest ks (op :: ops) := by
        cases fBest with
        | true => exact (hR.2 rfl).imp fun ks hks _ => hks
        | false => exact ⟨[], by simp⟩
      have hstep := stackStep_sim op hR.1 fun hb => ⟨(hks hb).1, (hks hb).2.1⟩
      generalize hs : stackStep s op = a at hstep ⊢
      generalize flatStep vs op = b at hstep ⊢
      cases hstep with
      | none => exact .none
      | some hab => exact .some ⟨⟨hab.1, fun hb =>
          ⟨_, knowsBest_step (hks hb).1 hs, (hks hb).2.2⟩⟩, hab.2⟩)
    ops s vs ⟨h, fun hb => ⟨ks, hk hb⟩⟩
  generalize Machine.run stackStep s ops = r at hsim ⊢
  generalize Machine.run flatStep vs ops = r' at hsim ⊢
  cases hsim with
  | none => rfl
  | some h => exact congrArg some h.2

theorem agree_self (fBest : Bool) : ∀ vs : List FlatView,
    List.Forall₂ (FlatView.Agree fBest) vs vs
  | [] => .nil
  | _ :: vs => .cons ⟨rfl, fun _ => rfl⟩ (agree_self fBest vs)

theorem agree_true_eq {vs ws : List FlatView} (h : List.Forall₂ (FlatView.Agree true) vs ws) :
    vs = ws := by
  induction h with
  | nil => rfl
  | cons hv _ ih => rw [FlatView.ext hv.1 (hv.2 rfl), ih]

/-! ## Discarding and flushing a level -/

/-- What a query answers depends on its level only. -/
theorem stackStep_query_answer (s : ViewStack) (k : ℕ) (q : Query) :
    (stackStep s (.query k q)).map (·.2) = (levels s.base s.caches)[k]?.map (·.ask q) := by
  have h := congrArg (Option.map (·.2)) (stackStep_query s k q)
  rw [Option.map_map, flatStep, Option.map_map] at h
  exact h

/-- How many caches are above a level after an operation, unless it removes the level just
above it or flushes that level into it. -/
def depthStep (d : ℕ) : ViewOp → Option ℕ
  | .construct => some (d + 1)
  | .destroy => if 1 < d then some (d - 1) else none
  | .flush k => if k + 1 < d then some d else none
  | _ => some d

theorem flushAt_drop {base base' : FlatView} : ∀ {k d : ℕ} {cs cs' : List CCoinsViewCache},
    k + 1 < d → d ≤ cs.length → flushAt base k cs = some (base', cs') →
    base' = base ∧ cs'.drop d = cs.drop d ∧ cs'.length = cs.length
  | 0, d + 2, c :: e :: cs, cs', _, _, h => by
    obtain ⟨rfl, rfl⟩ : _ ∧ _ := by simpa [flushAt] using h
    exact ⟨rfl, rfl, rfl⟩
  | k + 1, d + 1, c :: cs, cs', hk, hd, h => by
    rw [flushAt] at h
    obtain ⟨⟨b, cs₁⟩, hflush, heq⟩ := Option.map_eq_some_iff.mp h
    cases heq
    obtain ⟨hbase, hdrop, hlen⟩ :=
      flushAt_drop (Nat.succ_lt_succ_iff.mp hk) (Nat.succ_le_succ_iff.mp hd) hflush
    exact ⟨hbase, hdrop, congrArg (· + 1) hlen⟩

theorem drop_levels {base : FlatView} : ∀ {d : ℕ} {cs : List CCoinsViewCache}, d ≤ cs.length →
    (levels base cs).drop d = levels base (cs.drop d)
  | 0, _, _ => rfl
  | d + 1, c :: cs, h => by
    rw [levels, List.drop_succ_cons, List.drop_succ_cons]
    exact drop_levels (Nat.succ_le_succ_iff.mp h)

/-- An operation that only modifies the cache on top. -/
theorem drop_levels_top {base : FlatView} {c c' : CCoinsViewCache} {cs : List CCoinsViewCache}
    {d : ℕ} (hpos : 0 < d) :
    (levels base (c' :: cs)).drop d = (levels base (c :: cs)).drop d := by
  obtain ⟨d, rfl⟩ := Nat.exists_eq_add_of_lt hpos
  rw [Nat.zero_add]
  rfl

/-- The levels below the caches above are not changed. -/
theorem levels_depthStep {s s' : ViewStack} {op : ViewOp} {a : Answer} {d d' : ℕ}
    (hd : depthStep d op = some d') (hpos : 0 < d) (hlen : d ≤ s.caches.length)
    (hstep : stackStep s op = some (s', a)) :
    0 < d' ∧ d' ≤ s'.caches.length ∧
      (levels s'.base s'.caches).drop d' = (levels s.base s.caches).drop d := by
  obtain ⟨base, caches⟩ := s
  dsimp only at hlen ⊢
  have hcons : ∃ c cs, caches = c :: cs := List.exists_cons_of_length_pos (by omega)
  cases op with
  | construct =>
    obtain rfl : d + 1 = d' := by simpa [depthStep] using hd
    obtain ⟨rfl, -⟩ : _ ∧ _ := by simpa [stackStep] using hstep
    exact ⟨by omega, Nat.succ_le_succ hlen, rfl⟩
  | destroy =>
    obtain ⟨c, cs, rfl⟩ := hcons
    obtain ⟨rfl, -⟩ : _ ∧ _ := by simpa [stackStep] using hstep
    simp only [depthStep] at hd
    split at hd
    · rename_i hlt
      cases hd
      obtain ⟨d, rfl⟩ := Nat.exists_eq_add_of_lt hpos
      simp only [Nat.zero_add, Nat.add_sub_cancel, List.length_cons] at hlt hlen ⊢
      exact ⟨by omega, by omega, rfl⟩
    · cases hd
  | query k q =>
    obtain rfl : d = d' := by simpa [depthStep] using hd
    have hq := stackStep_query ⟨base, caches⟩ k q
    rw [hstep, flatStep, Option.map_some, eq_comm] at hq
    obtain ⟨v, -, heq⟩ := Option.map_eq_some_iff.mp hq
    have hlev := (Prod.mk.inj heq).1
    have hlength := congrArg List.length hlev
    rw [length_levels, length_levels] at hlength
    dsimp only at hlength
    exact ⟨hpos, by omega, by rw [← hlev]⟩
  | setCoins txid coins =>
    obtain ⟨c, cs, rfl⟩ := hcons
    obtain rfl : d = d' := by simpa [depthStep] using hd
    obtain ⟨rfl, -⟩ : _ ∧ _ := by simpa [stackStep] using hstep
    exact ⟨hpos, hlen, drop_levels_top hpos⟩
  | modifyCoins txid f =>
    obtain rfl : d = d' := by simpa [depthStep] using hd
    have hlev := (getCoins_spec base txid caches).2
    simp only [stackStep] at hstep
    split at hstep
    · rename_i coins c cs hr
      cases hstep
      rw [hr] at hlev
      have hlength := congrArg List.length hlev
      rw [length_levels, length_levels] at hlength
      dsimp only at hlength hlev ⊢
      rw [List.length_cons] at hlength ⊢
      exact ⟨hpos, by omega, by rw [← hlev]; exact drop_levels_top hpos⟩
    · cases hstep
  | setBestBlock hashBlock =>
    obtain ⟨c, cs, rfl⟩ := hcons
    obtain rfl : d = d' := by simpa [depthStep] using hd
    obtain ⟨rfl, -⟩ : _ ∧ _ := by simpa [stackStep] using hstep
    exact ⟨hpos, hlen, drop_levels_top hpos⟩
  | batchWrite mapCoins hashBlock =>
    obtain ⟨c, cs, rfl⟩ := hcons
    obtain rfl : d = d' := by simpa [depthStep] using hd
    obtain ⟨rfl, -⟩ : _ ∧ _ := by simpa [stackStep] using hstep
    exact ⟨hpos, hlen, drop_levels_top hpos⟩
  | flush k =>
    simp only [depthStep] at hd
    split at hd
    · rename_i hk
      cases hd
      obtain ⟨⟨b, cs⟩, hflush, heq⟩ := Option.map_eq_some_iff.mp hstep
      cases heq
      obtain ⟨rfl, hdrop, hlen'⟩ := flushAt_drop hk hlen hflush
      exact ⟨hpos, hlen'.symm ▸ hlen, by
        rw [drop_levels (hlen'.symm ▸ hlen), drop_levels hlen, hdrop]⟩
    · cases hd

theorem levels_depthRun : ∀ {ops : List ViewOp} {s s' : ViewStack} {outs : List Answer} {d d' : ℕ},
    ops.foldlM depthStep d = some d' → 0 < d → d ≤ s.caches.length →
    Machine.run stackStep s ops = some (s', outs) →
    d' ≤ s'.caches.length ∧ (levels s'.base s'.caches).drop d' = (levels s.base s.caches).drop d
  | [], s, s', outs, d, d', hd, _, hlen, hrun => by
    cases hd
    cases hrun
    exact ⟨hlen, rfl⟩
  | op :: ops, s, s', outs, d, d', hd, hpos, hlen, hrun => by
    obtain ⟨d₁, hd₁, hd⟩ := Option.bind_eq_some_iff.mp (by simpa [List.foldlM_cons] using hd)
    obtain ⟨s₁, a, outs', hstep, htail, -⟩ := Machine.run_cons_eq_some hrun
    obtain ⟨hpos₁, hlen₁, hlev₁⟩ := levels_depthStep hd₁ hpos hlen hstep
    obtain ⟨hlen', hlev⟩ := levels_depthRun hd hpos₁ hlen₁ htail
    exact ⟨hlen', hlev.trans hlev₁⟩

/-- Discarding a cache leaves the levels below as they were when it was constructed. -/
theorem levels_discard {s s' : ViewStack} {ops : List ViewOp} {outs : List Answer}
    (hd : ops.foldlM depthStep 1 = some 1)
    (hrun : Machine.run stackStep s (.construct :: ops ++ [.destroy]) = some (s', outs)) :
    levels s'.base s'.caches = levels s.base s.caches := by
  rw [List.cons_append] at hrun
  obtain ⟨s₁, a, outs₁, hstep, htail, -⟩ := Machine.run_cons_eq_some hrun
  obtain ⟨rfl, -⟩ : _ ∧ _ := by simpa [stackStep] using hstep
  rw [Machine.run_append] at htail
  obtain ⟨⟨s₂, outs₂⟩, hops, hlast⟩ := Option.bind_eq_some_iff.mp htail
  obtain ⟨hlen, hlev⟩ := levels_depthRun hd (by omega) (by simp) hops
  obtain ⟨⟨s₃, outs₃⟩, hdestroy, heq⟩ := Option.map_eq_some_iff.mp hlast
  cases heq
  obtain ⟨s₄, a₄, outs₄, hpop, hnil, -⟩ := Machine.run_cons_eq_some hdestroy
  cases hnil
  obtain ⟨base, _ | ⟨c, cs⟩⟩ := s₂
  · simp at hlen
  · obtain ⟨rfl, -⟩ : _ ∧ _ := by simpa [stackStep] using hpop
    exact hlev

/-- A flushed cache of known best block leaves its own level below it. -/
theorem levels_flush {s s' : ViewStack} {a : Answer} {ks : List Bool} {k : ℕ}
    (hks : KnowsBest s.base s.caches ks) (hk : ks[k]? = some true)
    (hstep : stackStep s (.flush k) = some (s', a)) :
    (levels s'.base s'.caches)[k + 1]? = (levels s.base s.caches)[k]? := by
  have hsim := stackStep_sim (.flush k) (agree_self true _) fun _ => ⟨hks, hk⟩
  rw [hstep] at hsim
  generalize hflat : flatStep (levels s.base s.caches) (.flush k) = r at hsim
  cases hsim with
  | some h =>
  rw [agree_true_eq h.1]
  simp only [flatStep] at hflat
  split at hflat
  · rename_i v w hv hw
    cases hflat
    have hlt := (List.getElem?_eq_some_iff.mp hw).1
    rw [hv, List.getElem?_set_self hlt]
  · cases hflat

theorem knowsBest_run : ∀ {ops : List ViewOp} {s s' : ViewStack} {outs : List Answer}
    {ks : List Bool}, KnowsBest s.base s.caches ks →
    Machine.run stackStep s ops = some (s', outs) →
    KnowsBest s'.base s'.caches (ops.foldl knownStep ks)
  | [], s, s', outs, ks, h, hrun => by
    cases hrun
    exact h
  | op :: ops, s, s', outs, ks, h, hrun => by
    obtain ⟨s₁, a, outs', hstep, htail, -⟩ := Machine.run_cons_eq_some hrun
    have hknown := knowsBest_run (knowsBest_step h hstep) htail
    exact hknown

/-- A stack of caches over any base view refines the flat stack. Coins are answered alike by
every sequence of operations; best blocks too, when every cache flushed had its best block
read or set. Discarding a cache leaves the answers of the levels below as they were, and
flushing one whose best block was read or set makes the level below answer as it did. -/
theorem viewStack_refines_flat (base : FlatView) :
    (∀ ops, (Machine.run stackStep ⟨base, []⟩ ops).map (fun r => r.2.map (Answer.key false)) =
      (Machine.run flatStep [base] ops).map (fun r => r.2.map (Answer.key false))) ∧
    (∀ ops, RespectsBest [] ops →
      (Machine.run stackStep ⟨base, []⟩ ops).map (·.2) =
        (Machine.run flatStep [base] ops).map (·.2)) ∧
    (∀ s s' ops outs, ops.foldlM depthStep 1 = some 1 →
      Machine.run stackStep s (.construct :: ops ++ [.destroy]) = some (s', outs) →
      ∀ k q, (stackStep s' (.query k q)).map (·.2) = (stackStep s (.query k q)).map (·.2)) ∧
    (∀ ops s s' outs k a, Machine.run stackStep ⟨base, []⟩ ops = some (s, outs) →
      (ops.foldl knownStep [])[k]? = some true → stackStep s (.flush k) = some (s', a) →
      ∀ q, (stackStep s' (.query (k + 1) q)).map (·.2) = (stackStep s (.query k q)).map (·.2)) := by
  refine ⟨fun ops => ?_, fun ops hops => ?_, fun s s' ops outs hd hrun k q => ?_,
    fun ops s s' outs k a hrun hk hstep q => ?_⟩
  · exact run_sim_flat false [] ops (agree_self false _) (by simp)
  · simpa [answers_map_id] using
      run_sim_flat (s := ⟨base, []⟩) true [] ops (agree_self true [base])
        fun _ => ⟨trivial, hops⟩
  · rw [stackStep_query_answer, stackStep_query_answer, levels_discard hd hrun]
  · have hks := knowsBest_run (show KnowsBest base [] [] from trivial) hrun
    rw [stackStep_query_answer, stackStep_query_answer, levels_flush hks hk hstep]

/-- A cache is filled and flushed into the base view, and the base view is asked. -/
theorem viewStack_refines_flat_flush :
    (Machine.run stackStep ⟨⟨fun _ => none, 1⟩, []⟩
        [.construct, .setCoins 5 .empty, .setBestBlock 7, .flush 0, .query 1 (.getCoins 5)]).map
          (·.2) =
      (Machine.run flatStep [⟨fun _ => none, 1⟩]
        [.construct, .setCoins 5 .empty, .setBestBlock 7, .flush 0, .query 1 (.getCoins 5)]).map
          (·.2) :=
  (viewStack_refines_flat ⟨fun _ => none, 1⟩).2.1 _
    (by simp [RespectsBest, ViewOp.bestOk, knownStep])

end Ticoin
