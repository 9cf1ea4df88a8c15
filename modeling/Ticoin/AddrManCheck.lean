import Ticoin.AddrMan

/-!
# addrman.cpp : the consistency check of the address manager

`Check_` compares the tables of a manager and returns an error code or zero. It reads the
entries in the order of their ids, and collects the tried ones and the counts of the new ones,
which are then compared with the buckets. A lookup with brackets in `mapAddr` inserts a zero.

`Checked` says what the tables are when the code is zero (`check_eq_zero_iff`).
-/

namespace Ticoin

open Table

/-! ## Check_ -/

/-- `mapAddr[addr]`, which inserts a zero if there is none. -/
def MapAddr.get (m : MapAddr) (addr : CNetAddr) : ℤ × MapAddr :=
  match m[addr]? with
  | some nId => (nId, m)
  | none => (0, m.insert addr 0)

namespace CAddrMan

/-- The local variables of `Check_`, and the map that it may change. -/
structure CheckState where
  setTried : Std.ExtTreeSet ℤ := ∅
  mapNew : Std.ExtTreeMap ℤ ℤ := ∅
  mapAddr : MapAddr

/-- The first half of the checks of an entry. -/
def checkCounts (n : ℤ) (info : CAddrInfo) (c : CheckState) : Except ℤ CheckState :=
  if info.fInTried then
    if info.nLastSuccess = 0 then .error (-1)
    else if info.nRefCount ≠ 0 then .error (-2)
    else .ok { c with setTried := c.setTried.insert n }
  else if info.nRefCount < 0 ∨ info.nRefCount > ADDRMAN_NEW_BUCKETS_PER_ADDRESS then .error (-3)
  else if info.nRefCount = 0 then .error (-4)
  else .ok { c with mapNew := c.mapNew.insert n info.nRefCount }

/-- The second half of them. -/
def checkPlace (vRandom : List ℤ) (n : ℤ) (info : CAddrInfo) (c : CheckState) :
    Except ℤ CheckState :=
  let (nId, mapAddr) := MapAddr.get c.mapAddr info.ip
  if nId ≠ n then .error (-5)
  else if info.nRandomPos < 0 ∨ vRandom[info.nRandomPos.toNat]? ≠ some n then .error (-14)
  else if info.nLastTry < 0 then .error (-6)
  else if info.nLastSuccess < 0 then .error (-8)
  else .ok { c with mapAddr := mapAddr }

/-- The loop over `mapInfo`. -/
def checkInfos (vRandom : List ℤ) : List (ℤ × CAddrInfo) → CheckState → Except ℤ CheckState
  | [], c => .ok c
  | (n, info) :: l, c => do
    let c ← checkCounts n info c
    let c ← checkPlace vRandom n info c
    checkInfos vRandom l c

/-- All ids in tried buckets, in order. -/
def allTried (s : CAddrMan) : List ℤ :=
  (List.finRange ADDRMAN_TRIED_BUCKET_COUNT).flatMap s.vvTried

/-- All ids in new buckets, in order. -/
def allNew (s : CAddrMan) : List ℤ :=
  (List.finRange ADDRMAN_NEW_BUCKET_COUNT).flatMap fun b => (s.vvNew b).toList

/-- Perform consistency check. Returns an error code or zero. -/
def check_ (s : CAddrMan) : ℤ :=
  if (s.vRandom.length : ℤ) ≠ s.nTried + s.nNew then -7
  else
    match checkInfos s.vRandom s.mapInfo.toList { mapAddr := s.mapAddr } with
    | .error err => err
    | .ok c =>
      if (c.setTried.size : ℤ) ≠ s.nTried then -9
      else if (c.mapNew.size : ℤ) ≠ s.nNew then -10
      else
        match eraseEach s.allTried c.setTried with
        | none => -11
        | some setTried =>
          match countDown s.allNew c.mapNew with
          | none => -12
          | some mapNew =>
            if setTried.size ≠ 0 then -13
            else if mapNew.size ≠ 0 then -15
            else 0

/-! ## The loop over the entries -/

/-- What the first half of the checks says of an entry. -/
structure CountsOk (info : CAddrInfo) : Prop where
  tried : info.fInTried = true → info.nLastSuccess ≠ 0 ∧ info.nRefCount = 0
  new : info.fInTried = false →
    1 ≤ info.nRefCount ∧ info.nRefCount ≤ ADDRMAN_NEW_BUCKETS_PER_ADDRESS

/-- What the second half says, where an address without an id has the id zero. -/
structure PlaceOk (vRandom : List ℤ) (mapAddr : MapAddr) (n : ℤ) (info : CAddrInfo) : Prop where
  addr : (mapAddr[info.ip]?).getD 0 = n
  pos : 0 ≤ info.nRandomPos ∧ vRandom[info.nRandomPos.toNat]? = some n
  lastTry : 0 ≤ info.nLastTry
  lastSuccess : 0 ≤ info.nLastSuccess

/-- The local variables after the first half. -/
def CheckState.count (n : ℤ) (info : CAddrInfo) (c : CheckState) : CheckState :=
  { c with
    setTried := if info.fInTried then c.setTried.insert n else c.setTried
    mapNew := if info.fInTried then c.mapNew else c.mapNew.insert n info.nRefCount }

/-- The local variables after an entry. -/
def CheckState.note (c : CheckState) (p : ℤ × CAddrInfo) : CheckState :=
  { c.count p.1 p.2 with mapAddr := (MapAddr.get c.mapAddr p.2.ip).2 }

theorem getD_snd_get (m : MapAddr) (addr a : CNetAddr) :
    ((MapAddr.get m addr).2[a]?).getD 0 = (m[a]?).getD 0 := by
  unfold MapAddr.get
  split
  · rfl
  · rename_i h
    dsimp only
    by_cases ha : a = addr
    · rw [ha, congrFun getElem?_insert_eq addr, Function.update_self, h, Option.getD_some,
        Option.getD_none]
    · rw [getElem?_insert_of_ne ha]

theorem fst_get (m : MapAddr) (addr : CNetAddr) : (MapAddr.get m addr).1 = (m[addr]?).getD 0 := by
  unfold MapAddr.get
  split
  · rename_i h
    rw [h, Option.getD_some]
  · rename_i h
    rw [h, Option.getD_none]

/-- A check gives a result if something holds, and else an error, which is not zero. -/
def Checks {α : Type} (x : Except ℤ α) (P : Prop) (a : α) : Prop :=
  (x = .ok a ∧ P) ∨ (∃ err, x = .error err ∧ err ≠ 0) ∧ ¬ P

theorem Checks.bind {α β : Type} {x : Except ℤ α} {f : α → Except ℤ β} {P Q : Prop} {a : α} {b : β}
    (hx : Checks x P a) (hf : Checks (f a) Q b) : Checks (x >>= f) (P ∧ Q) b := by
  obtain ⟨rfl, hP⟩ | ⟨⟨err, rfl, herr⟩, hP⟩ := hx
  · obtain ⟨hb, hQ⟩ | ⟨⟨err, hb, herr⟩, hQ⟩ := hf
    · exact .inl ⟨hb, hP, hQ⟩
    · exact .inr ⟨⟨err, hb, herr⟩, fun h => hQ h.2⟩
  · exact .inr ⟨⟨err, rfl, herr⟩, fun h => hP h.1⟩

theorem Checks.congr {α : Type} {x : Except ℤ α} {P Q : Prop} {a : α} (h : Checks x P a)
    (hPQ : P ↔ Q) : Checks x Q a := by
  rwa [Checks, ← hPQ]

/-- A chain of tests that give errors. -/
theorem Checks.ite {α : Type} {x : Except ℤ α} {C P : Prop} [Decidable C] {a : α} {err : ℤ}
    (h : Checks x P a) (herr : err ≠ 0) :
    Checks (if C then .error err else x) (¬ C ∧ P) a := by
  by_cases hC : C
  · rw [if_pos hC]
    exact .inr ⟨⟨err, rfl, herr⟩, fun hp => hp.1 hC⟩
  · rw [if_neg hC]
    exact h.congr (by simp [hC])

theorem Checks.ok {α : Type} {a : α} : Checks (.ok a) True a := .inl ⟨rfl, trivial⟩

theorem checks_counts (n : ℤ) (info : CAddrInfo) (c : CheckState) :
    Checks (checkCounts n info c) (CountsOk info) (c.count n info) := by
  rw [checkCounts, CheckState.count]
  cases htried : info.fInTried with
  | true =>
    simp only [if_true]
    refine ((Checks.ok.ite (by decide)).ite (by decide)).congr ⟨fun ⟨hs, hr, _⟩ => ?_, fun h => ?_⟩
    · exact ⟨fun _ => ⟨hs, not_not.mp hr⟩, fun h => by simp [htried] at h⟩
    · obtain ⟨hs, hr⟩ := h.tried htried
      exact ⟨hs, not_not.mpr hr, trivial⟩
  | false =>
    simp only [Bool.false_eq_true, if_false]
    refine ((Checks.ok.ite (by decide)).ite (by decide)).congr ⟨fun ⟨hb, hz, _⟩ => ?_, fun h => ?_⟩
    · exact ⟨fun h => by simp [htried] at h, fun _ => by omega⟩
    · have := h.new htried
      exact ⟨by omega, by omega, trivial⟩

theorem checks_place (vRandom : List ℤ) (n : ℤ) (info : CAddrInfo) (c : CheckState) :
    Checks (checkPlace vRandom n info c) (PlaceOk vRandom c.mapAddr n info)
      { c with mapAddr := (MapAddr.get c.mapAddr info.ip).2 } := by
  rw [checkPlace]
  dsimp only
  rw [fst_get]
  refine ((((Checks.ok.ite (by decide)).ite (by decide)).ite (by decide)).ite (by decide)).congr
    ⟨fun ⟨ha, hp, ht, hs, _⟩ => ?_, fun h => ?_⟩
  · rw [not_or, not_lt, not_not] at hp
    exact ⟨not_not.mp ha, hp, Int64.not_lt.mp ht, Int64.not_lt.mp hs⟩
  · refine ⟨not_not.mpr h.addr, ?_, Int64.not_lt.mpr h.lastTry, Int64.not_lt.mpr h.lastSuccess,
      trivial⟩
    rw [not_or, not_lt, not_not]
    exact h.pos

/-- The loop succeeds if all entries are as they should be, with respect to the map that it
starts with : the zeros that it puts change no lookup. -/
theorem checks_infos (vRandom : List ℤ) : ∀ (l : List (ℤ × CAddrInfo)) (c : CheckState),
    Checks (checkInfos vRandom l c)
      (∀ p ∈ l, CountsOk p.2 ∧ PlaceOk vRandom c.mapAddr p.1 p.2) (l.foldl CheckState.note c)
  | [], c => Checks.ok.congr (by simp)
  | (n, info) :: l, c => by
    rw [checkInfos]
    refine ((checks_counts n info c).bind ((checks_place vRandom n info _).bind
      (checks_infos vRandom l (c.note (n, info))))).congr ?_
    rw [List.forall_mem_cons, and_assoc]
    refine and_congr_right fun _ => and_congr_right fun _ => forall₂_congr fun p _ => ?_
    have hget := getD_snd_get c.mapAddr info.ip p.2.ip
    exact and_congr_right fun _ => ⟨fun h => { h with addr := hget.symm.trans h.addr },
      fun h => { h with addr := hget.trans h.addr }⟩

/-- The tried entries are collected. -/
theorem mem_setTried : ∀ (l : List (ℤ × CAddrInfo)) (c : CheckState) (n : ℤ),
    n ∈ (l.foldl CheckState.note c).setTried ↔
      n ∈ c.setTried ∨ ∃ info, (n, info) ∈ l ∧ info.fInTried = true
  | [], c, n => by simp
  | (m, info) :: l, c, n => by
    have hnote : n ∈ (c.note (m, info)).setTried ↔
        n ∈ c.setTried ∨ (n = m ∧ info.fInTried = true) := by
      dsimp only [CheckState.note, CheckState.count]
      cases info.fInTried with
      | true => simp only [if_true, mem_insert, and_true, or_comm]
      | false => simp
    rw [List.foldl_cons, mem_setTried l, hnote, or_assoc]
    refine or_congr_right ⟨?_, ?_⟩
    · rintro (⟨rfl, ht⟩ | ⟨info', hmem, ht⟩)
      · exact ⟨info, List.mem_cons_self, ht⟩
      · exact ⟨info', List.mem_cons_of_mem _ hmem, ht⟩
    · rintro ⟨info', hmem, ht⟩
      rcases List.mem_cons.mp hmem with heq | hmem
      · cases heq
        exact .inl ⟨rfl, ht⟩
      · exact .inr ⟨info', hmem, ht⟩

/-- The counts of the new entries are collected. -/
theorem getElem?_mapNew : ∀ (l : List (ℤ × CAddrInfo)) (c : CheckState),
    (l.map Prod.fst).Nodup → (∀ p ∈ l, c.mapNew[p.1]? = none) → ∀ (n k : ℤ),
    (l.foldl CheckState.note c).mapNew[n]? = some k ↔
      c.mapNew[n]? = some k ∨ ∃ info, (n, info) ∈ l ∧ info.fInTried = false ∧ info.nRefCount = k
  | [], c, _, _, n, k => by simp
  | (m, info) :: l, c, hl, hc, n, k => by
    obtain ⟨hm, hl⟩ := List.nodup_cons.mp hl
    have hnew : c.mapNew[m]? = none := hc _ List.mem_cons_self
    have hnote : ∀ i : ℤ, (c.note (m, info)).mapNew[i]? =
        if i = m ∧ info.fInTried = false then some info.nRefCount else c.mapNew[i]? := by
      intro i
      dsimp only [CheckState.note, CheckState.count]
      cases info.fInTried with
      | true => simp
      | false =>
        simp only [Bool.false_eq_true, if_false, and_true]
        by_cases hi : i = m
        · rw [if_pos hi, hi, congrFun getElem?_insert_eq m, Function.update_self]
        · rw [if_neg hi, getElem?_insert_of_ne hi]
    rw [List.foldl_cons, getElem?_mapNew l _ hl]
    · rw [hnote]
      by_cases hn : n = m
      · subst hn
        have hnot : ∀ info', (n, info') ∉ l := fun info' h => hm (List.mem_map.mpr ⟨_, h, rfl⟩)
        cases htried : info.fInTried <;> simp [hnew, hnot, htried]
      · simp [hn]
    · rintro ⟨i, info'⟩ hmem
      rw [hnote, if_neg, hc _ (List.mem_cons_of_mem _ hmem)]
      rintro ⟨rfl, -⟩
      exact hm (List.mem_map.mpr ⟨_, hmem, rfl⟩)

/-! ## The tables of a manager that passes -/

/-- What `Check_` establishes. -/
structure Checked (s : CAddrMan) : Prop where
  total : (s.vRandom.length : ℤ) = s.nTried + s.nNew
  entry : ∀ (n : ℤ) (info : CAddrInfo), s.mapInfo[n]? = some info →
    CountsOk info ∧ PlaceOk s.vRandom s.mapAddr n info
  nTried : s.nTried = (s.mapInfo.toList.filter fun p => p.2.fInTried).length
  nNew : s.nNew = (s.mapInfo.toList.filter fun p => !p.2.fInTried).length
  tried : s.allTried.Nodup ∧
    ∀ n, n ∈ s.allTried ↔ column (fun info => info.fInTried) s.mapInfo n = some true
  new : ∀ n, (s.allNew.count n : ℤ) = (column (fun info => info.nRefCount) s.mapInfo n).getD 0

/-- The code is zero if no check fails. -/
theorem check_eq_zero_iff_checks (s : CAddrMan) {P : Prop} {c : CheckState}
    (h : Checks (checkInfos s.vRandom s.mapInfo.toList { mapAddr := s.mapAddr }) P c) :
    s.check_ = 0 ↔ (s.vRandom.length : ℤ) = s.nTried + s.nNew ∧ P ∧
      (c.setTried.size : ℤ) = s.nTried ∧ (c.mapNew.size : ℤ) = s.nNew ∧
      eraseEach s.allTried c.setTried = some ∅ ∧ countDown s.allNew c.mapNew = some ∅ := by
  unfold check_
  by_cases htotal : (s.vRandom.length : ℤ) = s.nTried + s.nNew
  swap
  · simp [htotal]
  rw [if_neg (not_not.mpr htotal)]
  obtain ⟨hok, hP⟩ | ⟨⟨err, herror, herr⟩, hP⟩ := h
  swap
  · simp [herror, herr, hP]
  rw [hok]
  dsimp only
  by_cases hsize : (c.setTried.size : ℤ) = s.nTried
  swap
  · simp [hsize]
  by_cases hsize' : (c.mapNew.size : ℤ) = s.nNew
  swap
  · simp [hsize, hsize']
  rw [if_neg (not_not.mpr hsize), if_neg (not_not.mpr hsize')]
  cases eraseEach s.allTried c.setTried with
  | none => simp
  | some t =>
    cases countDown s.allNew c.mapNew with
    | none => simp
    | some m =>
      rw [Option.some.injEq, Option.some.injEq, Std.ExtTreeSet.eq_empty_iff_size_eq_zero,
        Std.ExtTreeMap.eq_empty_iff_size_eq_zero]
      by_cases h0 : t.size = 0 <;> by_cases h1 : m.size = 0 <;> simp [*]

/-- The manager passes the check exactly if its tables agree. -/
theorem check_eq_zero_iff (s : CAddrMan) : s.check_ = 0 ↔ Checked s := by
  have hmem : ∀ (n : ℤ) (info : CAddrInfo), (n, info) ∈ s.mapInfo.toList ↔
      s.mapInfo[n]? = some info := fun n info => Std.ExtTreeMap.mem_toList_iff_getElem?_eq_some
  have hkeys : (s.mapInfo.toList.map Prod.fst).Nodup := by
    rw [Std.ExtTreeMap.map_fst_toList_eq_keys]
    exact Std.ExtTreeMap.nodup_keys
  have hinfos := checks_infos s.vRandom s.mapInfo.toList { mapAddr := s.mapAddr }
  have htried := mem_setTried s.mapInfo.toList { mapAddr := s.mapAddr }
  have hnew := getElem?_mapNew s.mapInfo.toList { mapAddr := s.mapAddr } hkeys (fun _ _ => by simp)
  rw [check_eq_zero_iff_checks s hinfos]
  generalize s.mapInfo.toList.foldl CheckState.note { mapAddr := s.mapAddr } = c at htried hnew ⊢
  dsimp only at htried hnew ⊢
  simp only [Std.ExtTreeSet.not_mem_empty, false_or, hmem] at htried
  simp only [Std.ExtTreeMap.getElem?_empty, reduceCtorEq, false_or, hmem] at hnew
  have hsize : c.setTried.size = (s.mapInfo.toList.filter fun p => p.2.fInTried).length := by
    rw [size_eq_length nodup_map_filter fun n => ?_, List.length_map]
    rw [htried n, mem_map_filter]
  have hsize' : c.mapNew.size = (s.mapInfo.toList.filter fun p => !p.2.fInTried).length := by
    rw [size_eq_length_keys nodup_map_filter fun n => ?_, List.length_map]
    rw [Option.isSome_iff_exists, mem_map_filter]
    simp only [hnew, Bool.not_eq_true']
    exact ⟨fun ⟨info, hget, ht⟩ => ⟨_, info, hget, ht, rfl⟩,
      fun ⟨_, info, hget, ht, _⟩ => ⟨info, hget, ht⟩⟩
  have hcounts : (∀ p ∈ s.mapInfo.toList, CountsOk p.2 ∧ PlaceOk s.vRandom s.mapAddr p.1 p.2) ↔
      ∀ (n : ℤ) (info : CAddrInfo), s.mapInfo[n]? = some info →
        CountsOk info ∧ PlaceOk s.vRandom s.mapAddr n info := by
    simp only [Prod.forall, hmem]
  have hcolumn : ∀ n, n ∈ c.setTried ↔
      column (fun info => info.fInTried) s.mapInfo n = some true := fun n => by
    rw [htried n, column_eq_some]
  rw [eraseEach_eq_empty, hsize, hsize', hcounts]
  simp only [hcolumn]
  -- a tried entry has the count zero, which is as good as none
  have hcountDown : (∀ (n : ℤ) (info : CAddrInfo), s.mapInfo[n]? = some info →
        CountsOk info ∧ PlaceOk s.vRandom s.mapAddr n info) →
      (countDown s.allNew c.mapNew = some ∅ ↔
        ∀ n, (s.allNew.count n : ℤ) = (column (fun info => info.nRefCount) s.mapInfo n).getD 0) := by
    intro hentry
    rw [countDown_eq_empty]
    · refine forall_congr' fun n => ?_
      have hnone : (∀ info, s.mapInfo[n]? = some info → info.fInTried = true) →
          c.mapNew[n]? = none := by
        intro hall
        refine Option.eq_none_iff_forall_ne_some.mpr fun k hk => ?_
        obtain ⟨info, hget, ht, -⟩ := (hnew n k).mp hk
        rw [hall info hget] at ht
        cases ht
      suffices hget : (c.mapNew[n]?).getD 0 =
          (column (fun info => info.nRefCount) s.mapInfo n).getD 0 by rw [hget]
      cases hget : s.mapInfo[n]? with
      | none =>
        rw [column_eq_none.mpr hget, hnone fun info h => absurd (h.symm.trans hget) (Option.some_ne_none info)]
      | some info =>
        rw [column_eq hget, Option.getD_some]
        cases ht : info.fInTried with
        | true =>
          rw [((hentry n info hget).1.tried ht).2, hnone fun info' h => ?_, Option.getD_none]
          rw [← ht, Option.some.inj (hget.symm.trans h)]
        | false => rw [(hnew n _).mpr ⟨info, hget, ht, rfl⟩, Option.getD_some]
    · intro n k hk
      obtain ⟨info, hget, ht, rfl⟩ := (hnew n k).mp hk
      exact ((hentry n info hget).1.new ht).1
  constructor
  · rintro ⟨htotal, hentry, hnT, hnN, herase, hcount⟩
    exact ⟨htotal, hentry, hnT.symm, hnN.symm, herase, (hcountDown hentry).mp hcount⟩
  · intro h
    exact ⟨h.total, h.entry, h.nTried.symm, h.nNew.symm, h.tried, (hcountDown h.entry).mpr h.new⟩

end CAddrMan

end Ticoin
