import Mathlib.Data.List.Sort
import Ticoin.ListSinceBlock

/-!
# walletdb.cpp : accounting entries and the order of transactions

`ReorderTransactions` gives positions to the transactions and accounting entries that have none. It
goes through them by time : an item without position gets the next one, and moves the items that
come later and have this position or a higher one. A position is compared with the places of the
items before as they are after their own moves (`shifted`), so that old positions keep their order
(`Reorder.Inv`), but one of them may be moved to a place that is taken (`reorderTransactions_iff`).
An old position is safe unless it is one of the first after the insertion point, as many as there
were items without position before (`PointsApart`). Only the entries of the account `""` are listed.
-/

namespace Ticoin

open Codec

/-! ## Accounting entries -/

/-- An accounting entry in the database, less its texts. -/
structure AccountingRecord extends CAccountingEntry where
  strAccount : Bytes
  nCreditDebit : Int64
  nEntryNo : UInt64
  deriving DecidableEq

/-- `ListAccountCreditDebit` : the entries of an account, which are together in the database. -/
def listAccountCreditDebit (strAccount : Bytes) (entries : List AccountingRecord) :
    List AccountingRecord :=
  if strAccount = allAccounts then entries
  else entries.filter fun entry => entry.strAccount = strAccount

/-! ## ReorderTransactions -/

/-- A wallet transaction or an accounting entry. -/
inductive ReorderItem
  | tx (hash : UInt256) (wtx : CWalletTx)
  | acentry (entry : AccountingRecord)
  deriving DecidableEq

namespace ReorderItem

def nTime : ReorderItem → ℤ
  | tx _ wtx => wtx.nTimeReceived.toNat
  | acentry entry => entry.nTime

def nOrderPos : ReorderItem → ℤ
  | tx _ wtx => wtx.nOrderPos
  | acentry entry => entry.nOrderPos

def setOrderPos (nOrderPos : ℤ) : ReorderItem → ReorderItem
  | tx hash wtx => tx hash { wtx with nOrderPos := nOrderPos }
  | acentry entry => acentry { entry with nOrderPos := nOrderPos }

@[simp] theorem nOrderPos_setOrderPos (n : ℤ) (item : ReorderItem) :
    (item.setOrderPos n).nOrderPos = n := by
  cases item <;> rfl

/-- Transactions that get a position are not written. -/
def isEntry : ReorderItem → Bool
  | tx _ _ => false
  | acentry _ => true

end ReorderItem

/-- The loop : the items so far, the next position, and the places of the items that had none. -/
structure Reorder where
  items : List ReorderItem
  nOrderPosNext : ℤ
  nOrderPosOffsets : List ℤ

/-- A position moved up by the places that are not above it. -/
def shifted (nOrderPosOffsets : List ℤ) (nOrderPos : ℤ) : ℤ :=
  nOrderPos + nOrderPosOffsets.countP fun nOffsetStart => decide (nOrderPos ≥ nOffsetStart)

namespace Reorder

/-- One item, `none` where it cannot be written. -/
def step (written : ReorderItem → Bool) (s : Reorder) (item : ReorderItem) : Option Reorder :=
  if item.nOrderPos = -1 then
    let item := item.setOrderPos s.nOrderPosNext
    if item.isEntry && !written item then none
    else some {
      items := s.items ++ [item]
      nOrderPosNext := s.nOrderPosNext + 1
      nOrderPosOffsets := s.nOrderPosOffsets ++ [s.nOrderPosNext] }
  else
    let nOrderPos := shifted s.nOrderPosOffsets item.nOrderPos
    let moved := item.setOrderPos nOrderPos
    if nOrderPos ≠ item.nOrderPos ∧ !written moved then none
    else some { s with
      items := s.items ++ [moved]
      nOrderPosNext := max s.nOrderPosNext (nOrderPos + 1) }

def start : Reorder := ⟨[], 0, []⟩

end Reorder

/-- The wallet and the accounting entries in the order of the database. -/
structure OrderWallet where
  mapWallet : MapWallet
  acentries : List AccountingRecord

namespace OrderWallet

variable (w : OrderWallet)

/-- The items by time, those of the same time in the order in which they are put in. -/
def txByTime : List ReorderItem :=
  (w.mapWallet.toList.map (fun item => ReorderItem.tx item.1 item.2) ++
    (listAccountCreditDebit [] w.acentries).map ReorderItem.acentry).insertionSort
      fun a b => a.nTime ≤ b.nTime

/-- The entries that are not listed. -/
def unlisted : List AccountingRecord := w.acentries.filter fun entry => entry.strAccount ≠ []

/-- `ReorderTransactions`, if everything can be written. -/
def reorderTransactions (written : ReorderItem → Bool) : Option Reorder :=
  w.txByTime.foldlM (Reorder.step written) Reorder.start

/-- All transactions and entries, those by time first. -/
def before : List ReorderItem := w.txByTime ++ w.unlisted.map ReorderItem.acentry

/-- The same after the call. -/
def after (s : Reorder) : List ReorderItem := s.items ++ w.unlisted.map ReorderItem.acentry

/-- The items that have positions have different ones. -/
structure Ordered : Prop where
  pos : ∀ item ∈ w.before, item.nOrderPos = -1 ∨ 0 ≤ item.nOrderPos
  distinct : ((w.before.map ReorderItem.nOrderPos).filter (· ≠ -1)).Nodup

/-- Every item has a position of its own below the next one, and the old positions are in their
order. -/
structure Reordered (s : Reorder) : Prop where
  same : List.Forall₂ (fun item item' => item' = item.setOrderPos item'.nOrderPos) w.before
    (w.after s)
  nonneg : ∀ item ∈ w.after s, 0 ≤ item.nOrderPos
  next : ∀ item ∈ w.after s, item.nOrderPos < s.nOrderPosNext
  distinct : ((w.after s).map ReorderItem.nOrderPos).Nodup
  order : ∀ x ∈ w.before.zip (w.after s), ∀ y ∈ w.before.zip (w.after s),
    x.1.nOrderPos ≠ -1 → y.1.nOrderPos ≠ -1 → x.1.nOrderPos < y.1.nOrderPos →
      x.2.nOrderPos < y.2.nOrderPos

end OrderWallet

/-! ## Shifted positions -/

theorem le_shifted (offsets : List ℤ) (n : ℤ) : n ≤ shifted offsets n := by
  unfold shifted
  omega

/-- Higher positions stay higher. -/
theorem shifted_lt (offsets : List ℤ) {m n : ℤ} (h : m < n) :
    shifted offsets m < shifted offsets n := by
  have hle : offsets.countP (fun o => decide (m ≥ o)) ≤ offsets.countP fun o => decide (n ≥ o) := by
    refine List.countP_mono_left fun o _ ho => ?_
    rw [decide_eq_true_eq] at ho ⊢
    omega
  unfold shifted
  omega

theorem shifted_inj (offsets : List ℤ) {m n : ℤ} (h : shifted offsets m = shifted offsets n) :
    m = n := by
  rcases lt_trichotomy m n with hlt | heq | hlt
  · exact absurd h (shifted_lt offsets hlt).ne
  · exact heq
  · exact absurd h (shifted_lt offsets hlt).ne'

/-- A place above a position does not move it. -/
theorem shifted_concat {offsets : List ℤ} {n o : ℤ} (h : n < o) :
    shifted (offsets ++ [o]) n = shifted offsets n := by
  have hnot : ¬n ≥ o := not_le.mpr h
  simp [shifted, List.countP_append, hnot]

namespace Reorder

/-- What the loop keeps, of the items so far before and after : those that had no position are at
the recorded places, and the others are where the places recorded by now move them. -/
structure Inv (pairs : List (ReorderItem × ReorderItem)) (s : Reorder) : Prop where
  items : pairs.map Prod.snd = s.items
  same : ∀ p ∈ pairs, p.2 = p.1.setOrderPos p.2.nOrderPos
  places : (pairs.filter fun p => p.1.nOrderPos = -1).map (fun p => p.2.nOrderPos) =
    s.nOrderPosOffsets
  placed : ∀ p ∈ pairs, p.1.nOrderPos ≠ -1 →
    p.2.nOrderPos = shifted s.nOrderPosOffsets p.1.nOrderPos
  next : ∀ p ∈ pairs, 0 ≤ p.2.nOrderPos ∧ p.2.nOrderPos < s.nOrderPosNext
  nonneg : 0 ≤ s.nOrderPosNext
  increasing : s.nOrderPosOffsets.Pairwise (· < ·)
  below : ∀ o ∈ s.nOrderPosOffsets, o < s.nOrderPosNext

theorem inv_start : Inv [] start where
  items := rfl
  same := fun _ h => absurd h List.not_mem_nil
  places := rfl
  placed := fun _ h => absurd h List.not_mem_nil
  next := fun _ h => absurd h List.not_mem_nil
  nonneg := le_refl _
  increasing := List.Pairwise.nil
  below := fun _ h => absurd h List.not_mem_nil

section Step

variable {written : ReorderItem → Bool} {pairs : List (ReorderItem × ReorderItem)}
  {s s' : Reorder} {item : ReorderItem}

/-- What a step does. -/
theorem step_cases (h : step written s item = some s') :
    (item.nOrderPos = -1 ∧ s' = {
      items := s.items ++ [item.setOrderPos s.nOrderPosNext]
      nOrderPosNext := s.nOrderPosNext + 1
      nOrderPosOffsets := s.nOrderPosOffsets ++ [s.nOrderPosNext] }) ∨
    (item.nOrderPos ≠ -1 ∧ s' = { s with
      items := s.items ++ [item.setOrderPos (shifted s.nOrderPosOffsets item.nOrderPos)]
      nOrderPosNext := max s.nOrderPosNext (shifted s.nOrderPosOffsets item.nOrderPos + 1) }) := by
  unfold step at h
  dsimp only at h
  split at h
  · rename_i hnone
    split at h
    · cases h
    · cases h
      exact .inl ⟨hnone, rfl⟩
  · rename_i hsome
    split at h
    · cases h
    · cases h
      exact .inr ⟨hsome, rfl⟩

theorem Inv.step (hinv : Inv pairs s) (hpos : item.nOrderPos = -1 ∨ 0 ≤ item.nOrderPos)
    (h : step written s item = some s') :
    ∃ item', Inv (pairs ++ [(item, item')]) s' ∧
      item'.nOrderPos = if item.nOrderPos = -1 then s.nOrderPosNext
        else shifted s.nOrderPosOffsets item.nOrderPos := by
  have hnonneg := hinv.nonneg
  rcases step_cases h with ⟨hnone, rfl⟩ | ⟨hsome, rfl⟩
  · refine ⟨item.setOrderPos s.nOrderPosNext, ⟨?_, ?_, ?_, ?_, ?_, ?_, ?_, ?_⟩, ?_⟩
    · rw [List.map_append, hinv.items]
      rfl
    · intro p hp
      rcases List.mem_append.mp hp with hp | hp
      · exact hinv.same p hp
      · rw [List.mem_singleton.mp hp, ReorderItem.nOrderPos_setOrderPos]
    · rw [List.filter_append, List.map_append, hinv.places]
      simp [hnone]
    · intro p hp hne
      rcases List.mem_append.mp hp with hp | hp
      · have hplaced := hinv.placed p hp hne
        have hlt := (hinv.next p hp).2
        have hle := le_shifted s.nOrderPosOffsets p.1.nOrderPos
        rw [shifted_concat (by omega), hplaced]
      · rw [List.mem_singleton.mp hp] at hne
        exact absurd hnone hne
    · intro p hp
      rcases List.mem_append.mp hp with hp | hp
      · have hlt := hinv.next p hp
        dsimp only
        omega
      · rw [List.mem_singleton.mp hp, ReorderItem.nOrderPos_setOrderPos]
        dsimp only
        omega
    · dsimp only
      omega
    · exact List.pairwise_append.mpr ⟨hinv.increasing, List.pairwise_singleton _ _,
        fun o ho o' ho' => List.mem_singleton.mp ho' ▸ hinv.below o ho⟩
    · intro o ho
      dsimp only at ho ⊢
      rcases List.mem_append.mp ho with ho | ho
      · have hlt := hinv.below o ho
        omega
      · rw [List.mem_singleton.mp ho]
        omega
    · rw [ReorderItem.nOrderPos_setOrderPos, if_pos hnone]
  · have hle := le_shifted s.nOrderPosOffsets item.nOrderPos
    refine ⟨item.setOrderPos (shifted s.nOrderPosOffsets item.nOrderPos),
      ⟨?_, ?_, ?_, ?_, ?_, ?_, ?_, ?_⟩, ?_⟩
    · rw [List.map_append, hinv.items]
      rfl
    · intro p hp
      rcases List.mem_append.mp hp with hp | hp
      · exact hinv.same p hp
      · rw [List.mem_singleton.mp hp, ReorderItem.nOrderPos_setOrderPos]
    · rw [List.filter_append, List.map_append, hinv.places]
      simp [hsome]
    · intro p hp hne
      rcases List.mem_append.mp hp with hp | hp
      · exact hinv.placed p hp hne
      · rw [List.mem_singleton.mp hp, ReorderItem.nOrderPos_setOrderPos]
    · intro p hp
      rcases List.mem_append.mp hp with hp | hp
      · have hlt := hinv.next p hp
        dsimp only
        omega
      · rw [List.mem_singleton.mp hp, ReorderItem.nOrderPos_setOrderPos]
        dsimp only
        omega
    · dsimp only
      omega
    · exact hinv.increasing
    · intro o ho
      have hlt := hinv.below o ho
      dsimp only
      omega
    · rw [ReorderItem.nOrderPos_setOrderPos, if_neg hsome]

end Step

/-- The loop over items keeps it. -/
theorem Inv.foldlM {written : ReorderItem → Bool} : ∀ {items : List ReorderItem}
    {pairs : List (ReorderItem × ReorderItem)} {s s' : Reorder}, Inv pairs s →
    (∀ item ∈ items, item.nOrderPos = -1 ∨ 0 ≤ item.nOrderPos) →
    items.foldlM (Reorder.step written) s = some s' →
    ∃ pairs', pairs'.map Prod.fst = pairs.map Prod.fst ++ items ∧ Inv pairs' s'
  | [], pairs, _, _, hinv, _, h => by
    cases h
    exact ⟨pairs, (List.append_nil _).symm, hinv⟩
  | item :: items, pairs, s, s', hinv, hpos, h => by
    rw [List.forall_mem_cons] at hpos
    rw [List.foldlM_cons] at h
    obtain ⟨s₁, hstep, h⟩ := Option.bind_eq_some_iff.mp h
    obtain ⟨item', hinv₁, -⟩ := hinv.step hpos.1 hstep
    obtain ⟨pairs', hfst, hinv'⟩ := hinv₁.foldlM hpos.2 h
    refine ⟨pairs', ?_, hinv'⟩
    rw [hfst, List.map_append, List.append_assoc]
    rfl

/-- The new positions are different exactly if no old position is moved to a recorded place. -/
theorem Inv.nodup_iff {pairs : List (ReorderItem × ReorderItem)} {s : Reorder} (hinv : Inv pairs s)
    (hdistinct : ((pairs.map fun p => p.1.nOrderPos).filter (· ≠ -1)).Nodup) :
    (pairs.map fun p => p.2.nOrderPos).Nodup ↔ ∀ p ∈ pairs, p.1.nOrderPos ≠ -1 →
      shifted s.nOrderPosOffsets p.1.nOrderPos ∉ s.nOrderPosOffsets := by
  have hperm : (pairs.map fun p => p.2.nOrderPos).Perm (s.nOrderPosOffsets ++
      (pairs.filter fun p => p.1.nOrderPos ≠ -1).map fun p => p.2.nOrderPos) := by
    rw [← hinv.places, ← List.map_append]
    refine List.Perm.map _ ?_
    have hnot : (fun p : ReorderItem × ReorderItem => decide (p.1.nOrderPos ≠ -1)) =
        fun p => !decide (p.1.nOrderPos = -1) := funext fun p => decide_not ..
    rw [hnot]
    exact (List.filter_append_perm _ pairs).symm
  have hshift : (pairs.filter fun p => p.1.nOrderPos ≠ -1).map (fun p => p.2.nOrderPos) =
      ((pairs.map fun p => p.1.nOrderPos).filter (· ≠ -1)).map (shifted s.nOrderPosOffsets) := by
    rw [List.filter_map, List.map_map]
    refine List.map_congr_left fun p hp => ?_
    rw [List.mem_filter, decide_eq_true_eq] at hp
    exact hinv.placed p hp.1 hp.2
  rw [hperm.nodup_iff, hshift, List.nodup_append]
  have hplaces : s.nOrderPosOffsets.Nodup := hinv.increasing.imp fun h => h.ne
  have hold := hdistinct.map (f := shifted s.nOrderPosOffsets) fun m n h => shifted_inj _ h
  refine ⟨fun h p hp hne hmem => ?_, fun h => ⟨hplaces, hold, fun o ho o' ho' heq => ?_⟩⟩
  · refine h.2.2 _ hmem _ (List.mem_map_of_mem ?_) rfl
    exact List.mem_filter.mpr ⟨List.mem_map_of_mem hp, decide_eq_true hne⟩
  · obtain ⟨n, hn, rfl⟩ := List.mem_map.mp ho'
    obtain ⟨hn, hne⟩ := List.mem_filter.mp hn
    obtain ⟨p, hp, rfl⟩ := List.mem_map.mp hn
    exact h p hp (of_decide_eq_true hne) (heq ▸ ho)

end Reorder

/-! ## Insertion points -/

/-- The position after those of some items. -/
def insertionPoint (before : List ℤ) : ℤ := before.foldl (fun n p => max n (p + 1)) 0

/-- After an item without position, no item has one of the old positions at its insertion point, as
many as there were items without position before it. -/
def PointsApart (positions : List ℤ) : Prop :=
  ∀ before between after p, positions = before ++ -1 :: (between ++ p :: after) → p ≠ -1 →
    insertionPoint before ≤ p → insertionPoint before + before.count (-1) ≤ p

namespace Reorder

/-- The old positions of some pairs. -/
def olds (pairs : List (ReorderItem × ReorderItem)) : List ℤ := pairs.map fun p => p.1.nOrderPos

/-- What the loop keeps as long as old positions are apart from the insertion points : the recorded
places are the insertion points, each moved by the number of places before it, and no old position
was moved to one. -/
structure Apart (pairs : List (ReorderItem × ReorderItem)) (s : Reorder) : Prop where
  next : s.nOrderPosNext = insertionPoint (olds pairs) + (olds pairs).count (-1)
  length : s.nOrderPosOffsets.length = (olds pairs).count (-1)
  points : ∀ (i : ℕ) (o : ℤ), s.nOrderPosOffsets[i]? = some o → ∃ before between,
    olds pairs = before ++ -1 :: between ∧ before.count (-1) = i ∧ o = insertionPoint before + i
  clear : ∀ p ∈ pairs, p.1.nOrderPos ≠ -1 → p.2.nOrderPos ∉ s.nOrderPosOffsets

end Reorder

theorem insertionPoint_concat (before : List ℤ) (p : ℤ) :
    insertionPoint (before ++ [p]) = max (insertionPoint before) (p + 1) := by
  unfold insertionPoint
  rw [List.foldl_append]
  rfl

theorem le_foldl_max : ∀ (l : List ℤ) (n : ℤ), n ≤ l.foldl (fun n p => max n (p + 1)) n
  | [], n => le_refl n
  | p :: l, n => (le_max_left n (p + 1)).trans (le_foldl_max l (max n (p + 1)))

theorem insertionPoint_nonneg (before : List ℤ) : 0 ≤ insertionPoint before :=
  le_foldl_max before 0

theorem insertionPoint_le_append (before after : List ℤ) :
    insertionPoint before ≤ insertionPoint (before ++ after) := by
  unfold insertionPoint
  rw [List.foldl_append]
  exact le_foldl_max after _

/-- A position below a recorded place is moved by the places before this one at most. -/
theorem shifted_le_add {offsets : List ℤ} (hincreasing : offsets.Pairwise (· < ·)) {i : ℕ} {o n : ℤ}
    (hi : offsets[i]? = some o) (hlt : n < o) : shifted offsets n ≤ n + i := by
  obtain ⟨hlen, rfl⟩ := List.getElem?_eq_some_iff.mp hi
  have hdrop : offsets.drop i = offsets[i] :: offsets.drop (i + 1) := List.drop_eq_getElem_cons hlen
  have habove : (offsets.drop i).countP (fun o => decide (n ≥ o)) = 0 := by
    refine List.countP_eq_zero.mpr fun o ho => ?_
    have hle : offsets[i] ≤ o := by
      rw [hdrop] at ho
      rcases List.mem_cons.mp ho with rfl | ho
      · exact le_refl _
      · have hpairwise := hincreasing.sublist (List.drop_sublist i offsets)
        rw [hdrop] at hpairwise
        exact (List.rel_of_pairwise_cons hpairwise ho).le
    rw [decide_eq_true_eq]
    omega
  have htake : (offsets.take i).countP (fun o => decide (n ≥ o)) ≤ i :=
    List.countP_le_length.trans (List.length_take_le i offsets)
  unfold shifted
  rw [← List.take_append_drop i offsets, List.countP_append, habove, Nat.add_zero]
  omega

namespace Reorder

section Apart

variable {written : ReorderItem → Bool} {pairs : List (ReorderItem × ReorderItem)}
  {s s' : Reorder} {item item' : ReorderItem}

theorem olds_concat (pairs : List (ReorderItem × ReorderItem)) (item item' : ReorderItem) :
    olds (pairs ++ [(item, item')]) = olds pairs ++ [item.nOrderPos] := by
  simp [olds]

theorem apart_start : Apart [] start where
  next := rfl
  length := rfl
  points := fun _ _ h => nomatch h
  clear := fun _ h => absurd h List.not_mem_nil

/-- An item without position is put at the insertion point. -/
theorem Apart.step_none (hinv : Inv pairs s) (hapart : Apart pairs s) (hnone : item.nOrderPos = -1)
    (items : List ReorderItem) : Apart (pairs ++ [(item, item')]) {
      items := items
      nOrderPosNext := s.nOrderPosNext + 1
      nOrderPosOffsets := s.nOrderPosOffsets ++ [s.nOrderPosNext] } := by
  have hnext := hapart.next
  have hlength := hapart.length
  refine ⟨?_, ?_, fun i o hi => ?_, fun p hp hne => ?_⟩
  · have hpoint := insertionPoint_nonneg (olds pairs)
    rw [olds_concat, hnone, insertionPoint_concat, List.count_append, List.count_singleton_self]
    dsimp only
    omega
  · rw [olds_concat, hnone, List.count_append, List.count_singleton_self, List.length_append,
      hlength, List.length_singleton]
  · rw [olds_concat, hnone]
    by_cases hlt : i < s.nOrderPosOffsets.length
    · rw [List.getElem?_append_left hlt] at hi
      obtain ⟨before, between, holds, hcount, ho⟩ := hapart.points i o hi
      refine ⟨before, between ++ [-1], ?_, hcount, ho⟩
      rw [holds, List.append_assoc, List.cons_append]
    · rw [List.getElem?_append_right (not_lt.mp hlt), List.getElem?_singleton] at hi
      split at hi
      · cases hi
        refine ⟨olds pairs, [], rfl, by omega, ?_⟩
        rw [hnext]
        omega
      · cases hi
  · rcases List.mem_append.mp hp with hp | hp
    · have hlt := (hinv.next p hp).2
      intro hmem
      rcases List.mem_append.mp hmem with hmem | hmem
      · exact hapart.clear p hp hne hmem
      · rw [List.mem_singleton.mp hmem] at hlt
        exact lt_irrefl _ hlt
    · rw [List.mem_singleton.mp hp] at hne
      exact absurd hnone hne

/-- An old position apart from the insertion points is moved by the places of those not above it,
and not to one of them. -/
theorem Apart.step_some (hinv : Inv pairs s) (hapart : Apart pairs s) (hsome : item.nOrderPos ≠ -1)
    (hpoints : ∀ before between, olds pairs = before ++ -1 :: between →
      insertionPoint before ≤ item.nOrderPos →
      insertionPoint before + before.count (-1) ≤ item.nOrderPos)
    (hpos : item'.nOrderPos = shifted s.nOrderPosOffsets item.nOrderPos)
    (items : List ReorderItem) : Apart (pairs ++ [(item, item')]) { s with
      items := items
      nOrderPosNext := max s.nOrderPosNext (shifted s.nOrderPosOffsets item.nOrderPos + 1) } := by
  have hnext := hapart.next
  have hlength := hapart.length
  have hcount : (olds pairs ++ [item.nOrderPos]).count (-1) = (olds pairs).count (-1) := by
    rw [List.count_append, List.count_singleton, if_neg (by simpa using hsome), Nat.add_zero]
  refine ⟨?_, ?_, fun i o hi => ?_, fun p hp hne => ?_⟩
  · rw [olds_concat, insertionPoint_concat, hcount]
    dsimp only
    by_cases hle : insertionPoint (olds pairs) ≤ item.nOrderPos
    · -- every insertion point is at or below the position
      have hall : s.nOrderPosOffsets.countP (fun o => decide (item.nOrderPos ≥ o)) =
          s.nOrderPosOffsets.length := by
        refine List.countP_eq_length.mpr fun o ho => decide_eq_true ?_
        obtain ⟨i, hi⟩ := List.mem_iff_getElem?.mp ho
        obtain ⟨before, between, holds, hi, rfl⟩ := hapart.points i o hi
        rw [holds] at hle
        have hpoint := insertionPoint_le_append before (-1 :: between)
        have hbound := hpoints before between holds (hpoint.trans hle)
        omega
      unfold shifted
      omega
    · have hbound := List.countP_le_length (p := fun o => decide (item.nOrderPos ≥ o))
        (l := s.nOrderPosOffsets)
      unfold shifted
      omega
  · rw [olds_concat, hcount]
    exact hlength
  · obtain ⟨before, between, holds, hi, ho⟩ := hapart.points i o hi
    refine ⟨before, between ++ [item.nOrderPos], ?_, hi, ho⟩
    rw [olds_concat, holds, List.append_assoc, List.cons_append]
  · rcases List.mem_append.mp hp with hp | hp
    · exact hapart.clear p hp hne
    · rw [List.mem_singleton.mp hp, hpos]
      intro hmem
      obtain ⟨i, hi⟩ := List.mem_iff_getElem?.mp hmem
      obtain ⟨before, between, holds, hcount, ho⟩ := hapart.points i _ hi
      by_cases hle : insertionPoint before ≤ item.nOrderPos
      · -- the place itself is not above the position, which is then moved past it
        have hbound := hpoints before between holds hle
        have hlow : shifted s.nOrderPosOffsets item.nOrderPos ≤ item.nOrderPos := by omega
        have hone : 0 < s.nOrderPosOffsets.countP fun o => decide (item.nOrderPos ≥ o) :=
          List.countP_pos_iff.mpr ⟨_, hmem, decide_eq_true hlow⟩
        unfold shifted at hlow
        omega
      · have hbound := shifted_le_add hinv.increasing hi (n := item.nOrderPos) (by omega)
        omega

end Apart

/-- The loop over items whose positions are apart keeps both. -/
theorem Apart.foldlM {written : ReorderItem → Bool} : ∀ {items : List ReorderItem}
    {pairs : List (ReorderItem × ReorderItem)} {s s' : Reorder}, Inv pairs s → Apart pairs s →
    (∀ item ∈ items, item.nOrderPos = -1 ∨ 0 ≤ item.nOrderPos) →
    PointsApart (olds pairs ++ items.map ReorderItem.nOrderPos) →
    items.foldlM (Reorder.step written) s = some s' →
    ∃ pairs', pairs'.map Prod.fst = pairs.map Prod.fst ++ items ∧ Inv pairs' s' ∧ Apart pairs' s'
  | [], pairs, _, _, hinv, hapart, _, _, h => by
    cases h
    exact ⟨pairs, (List.append_nil _).symm, hinv, hapart⟩
  | item :: items, pairs, s, s', hinv, hapart, hpos, hpoints, h => by
    rw [List.forall_mem_cons] at hpos
    rw [List.foldlM_cons] at h
    obtain ⟨s₁, hstep, h⟩ := Option.bind_eq_some_iff.mp h
    obtain ⟨item', hinv₁, hitem⟩ := hinv.step hpos.1 hstep
    have hapart₁ : Apart (pairs ++ [(item, item')]) s₁ := by
      rcases step_cases hstep with ⟨hnone, rfl⟩ | ⟨hsome, rfl⟩
      · exact hapart.step_none hinv hnone _
      · rw [if_neg hsome] at hitem
        refine hapart.step_some hinv hsome (fun before between holds => ?_) hitem _
        refine hpoints before between (items.map ReorderItem.nOrderPos) item.nOrderPos ?_ hsome
        rw [holds, List.map_cons, List.append_assoc, List.cons_append]
    rw [List.map_cons, List.append_cons, ← olds_concat pairs item item'] at hpoints
    obtain ⟨pairs', hfst, hinv', hapart'⟩ := hapart₁.foldlM hinv₁ hpos.2 hpoints h
    refine ⟨pairs', ?_, hinv', hapart'⟩
    rw [hfst, List.map_append, List.append_assoc]
    rfl

end Reorder

/-! ## The result -/

namespace OrderWallet

variable {w : OrderWallet} {written : ReorderItem → Bool} {s : Reorder}

theorem before_of_unlisted (hlisted : w.unlisted = []) : w.before = w.txByTime := by
  unfold before
  rw [hlisted, List.map_nil, List.append_nil]

theorem after_of_unlisted (hlisted : w.unlisted = []) : w.after s = s.items := by
  unfold after
  rw [hlisted, List.map_nil, List.append_nil]

theorem Ordered.pos_txByTime (hordered : w.Ordered) :
    ∀ item ∈ w.txByTime, item.nOrderPos = -1 ∨ 0 ≤ item.nOrderPos :=
  fun item hitem => hordered.pos item (List.mem_append_left _ hitem)

/-- All but the distinctness of the new positions holds anyway. -/
theorem reordered_iff_nodup {pairs : List (ReorderItem × ReorderItem)} (hlisted : w.unlisted = [])
    (hfst : pairs.map Prod.fst = w.txByTime) (hinv : Reorder.Inv pairs s) :
    w.Reordered s ↔ (pairs.map fun p => p.2.nOrderPos).Nodup := by
  have hbefore : w.before = pairs.map Prod.fst := by rw [before_of_unlisted hlisted, hfst]
  have hafter : w.after s = pairs.map Prod.snd := by rw [after_of_unlisted hlisted, hinv.items]
  have hmap : (w.after s).map ReorderItem.nOrderPos = pairs.map fun p => p.2.nOrderPos := by
    rw [hafter, List.map_map]
    rfl
  refine ⟨fun h => hmap ▸ h.distinct, fun h => ⟨?_, ?_, ?_, hmap ▸ h, ?_⟩⟩
  · rw [hbefore, hafter, List.forall₂_map_left_iff, List.forall₂_map_right_iff]
    exact List.forall₂_same.mpr hinv.same
  · rw [hafter]
    intro item hitem
    obtain ⟨p, hp, rfl⟩ := List.mem_map.mp hitem
    exact (hinv.next p hp).1
  · rw [hafter]
    intro item hitem
    obtain ⟨p, hp, rfl⟩ := List.mem_map.mp hitem
    exact (hinv.next p hp).2
  · rw [hbefore, hafter, List.zip_map', List.map_id']
    intro x hx y hy hxne hyne hlt
    rw [hinv.placed x hx hxne, hinv.placed y hy hyne]
    exact shifted_lt _ hlt

/-- After `ReorderTransactions` of a wallet whose positions are different : with every accounting
entry in the account `""`, the positions are in order and different exactly if no old one is moved
to a recorded place, and they are if the old ones are apart from the insertion points ; an entry in
another account that has no position gets none. -/
theorem reorderTransactions_iff (written : ReorderItem → Bool) (w : OrderWallet)
    (hordered : w.Ordered) (s : Reorder) (h : w.reorderTransactions written = some s) :
    (w.unlisted = [] → (w.Reordered s ↔ ∀ item ∈ w.txByTime, item.nOrderPos ≠ -1 →
      shifted s.nOrderPosOffsets item.nOrderPos ∉ s.nOrderPosOffsets)) ∧
    (w.unlisted = [] → PointsApart (w.txByTime.map ReorderItem.nOrderPos) → w.Reordered s) ∧
    ((∃ entry ∈ w.unlisted, entry.nOrderPos = -1) → ¬w.Reordered s) := by
  have hiff : w.unlisted = [] → (w.Reordered s ↔ ∀ item ∈ w.txByTime, item.nOrderPos ≠ -1 →
      shifted s.nOrderPosOffsets item.nOrderPos ∉ s.nOrderPosOffsets) := by
    intro hlisted
    obtain ⟨pairs, hfst, hinv⟩ := Reorder.inv_start.foldlM hordered.pos_txByTime h
    rw [List.map_nil, List.nil_append] at hfst
    have hold := hordered.distinct
    rw [before_of_unlisted hlisted, ← hfst, List.map_map] at hold
    rw [reordered_iff_nodup hlisted hfst hinv, hinv.nodup_iff hold, ← hfst]
    simp
  refine ⟨hiff, fun hlisted hpoints => ?_, fun ⟨entry, hentry, hnone⟩ hreordered => ?_⟩
  · obtain ⟨pairs, hfst, hinv, hapart⟩ :=
      Reorder.apart_start.foldlM Reorder.inv_start hordered.pos_txByTime hpoints h
    rw [List.map_nil, List.nil_append] at hfst
    refine (hiff hlisted).mpr fun item hitem hne => ?_
    rw [← hfst] at hitem
    obtain ⟨p, hp, rfl⟩ := List.mem_map.mp hitem
    rw [← hinv.placed p hp hne]
    exact hapart.clear p hp hne
  · have hnonneg := hreordered.nonneg (.acentry entry)
      (List.mem_append_right _ (List.mem_map_of_mem hentry))
    rw [show (ReorderItem.acentry entry).nOrderPos = -1 from hnone] at hnonneg
    omega

/-- An accounting entry of the account `""`. -/
def orderEntry (nTime nOrderPos : ℤ) : AccountingRecord := ⟨⟨nTime, nOrderPos⟩, [], 0, 0⟩

/-- An entry that is ordered and a later one that is not. -/
def orderedFirst : OrderWallet := ⟨∅, [orderEntry 1 0, orderEntry 2 (-1)]⟩

/-- Two entries that are not ordered and a later one at position 0. -/
def orderedLast : OrderWallet := ⟨∅, [orderEntry 1 (-1), orderEntry 2 (-1), orderEntry 3 0]⟩

theorem reorderTransactions_iff_first : orderedFirst.Ordered ∧ ∃ s,
    orderedFirst.reorderTransactions (fun _ => true) = some s ∧
    (orderedFirst.Reordered s ↔ ∀ item ∈ orderedFirst.txByTime, item.nOrderPos ≠ -1 →
      shifted s.nOrderPosOffsets item.nOrderPos ∉ s.nOrderPosOffsets) := by
  have hordered : orderedFirst.Ordered := ⟨by decide, by decide⟩
  have hsome : (orderedFirst.reorderTransactions fun _ => true).isSome := by decide
  obtain ⟨s, hs⟩ := Option.isSome_iff_exists.mp hsome
  exact ⟨hordered, s, hs,
    (reorderTransactions_iff (fun _ => true) orderedFirst hordered s hs).1 (by decide)⟩

/-- The third entry is moved from 0 to the place 1 of the second one. -/
theorem reorderTransactions_collides : orderedLast.Ordered ∧ orderedLast.unlisted = [] ∧ ∃ s,
    orderedLast.reorderTransactions (fun _ => true) = some s ∧
    (orderedLast.after s).map ReorderItem.nOrderPos = [0, 1, 1] ∧ ¬orderedLast.Reordered s := by
  have hordered : orderedLast.Ordered := ⟨by decide, by decide⟩
  have hafter : (orderedLast.reorderTransactions fun _ => true).map
      (fun s => (orderedLast.after s).map ReorderItem.nOrderPos) = some [0, 1, 1] := by
    decide
  obtain ⟨s, hs, hmap⟩ := Option.map_eq_some_iff.mp hafter
  refine ⟨hordered, by decide, s, hs, hmap, fun hreordered => ?_⟩
  have hdistinct := hreordered.distinct
  rw [hmap] at hdistinct
  exact absurd hdistinct (by decide)

end OrderWallet

end Ticoin
