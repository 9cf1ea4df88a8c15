import Ticoin.Lib.Int64Sum
import Ticoin.Lib.Marked
import Ticoin.TimeOffset
import Ticoin.WalletSpends

/-!
# SelectCoinsMinConf : coins for a payment

The outputs that are deep enough are looked at in a random order. One of exactly the value wanted
is taken alone. The others are those below the value and a cent, and the least of the larger ones.
If the smaller ones are more than the value, `ApproximateBestSubset` looks for a subset of them at
random. Every inclusion beyond the value is undone after it was recorded, so that the flags always
mark coins of the sum beside them (`Subset.Valid`), for any random bits.

Where the sums of the values fit into `int64_t` the outputs are found exactly if they suffice, and
those selected are worth what is returned (`selectCoinsMinConf_spec`). A value of `INT64_MAX` is
never the least of the larger ones.
-/

namespace Ticoin

open Marked Int64Sum

/-! ## Outputs of wallet transactions -/

/-- An output of a wallet transaction, by its number. -/
structure OutRef where
  tx : CWalletTx
  n : Fin tx.vout.length
  deriving DecidableEq

def OutRef.nValue (c : OutRef) : Int64 := c.tx.vout[c.n].nValue

/-- `COutput` : an output with its depth. -/
structure COutput extends OutRef where
  nDepth : ℤ

/-- A value and the output that has it. -/
abbrev Coin := Int64 × OutRef

def COutput.coin (output : COutput) : Coin := (output.nValue, output.toOutRef)

def CENT : Int64 := 1000000

/-! ## ApproximateBestSubset -/

/-- The subset that is tried, with its sum, and the best one so far. -/
structure Subset where
  vfIncluded : List Bool
  nTotal : Int64
  fReachedTarget : Bool
  vfBest : List Bool
  nBest : Int64

namespace Subset

/-- A coin is included, and taken out again where the target is reached. -/
def tryCoin (nTargetValue : Int64) (s : Subset) (c : Coin × ℕ) : Subset :=
  let nTotal := s.nTotal + c.1.1
  let vfIncluded := s.vfIncluded.set c.2 true
  if nTotal ≥ nTargetValue then
    { vfIncluded := vfIncluded.set c.2 false
      nTotal := nTotal - c.1.1
      fReachedTarget := true
      vfBest := if nTotal < s.nBest then vfIncluded else s.vfBest
      nBest := if nTotal < s.nBest then nTotal else s.nBest }
  else { s with vfIncluded := vfIncluded, nTotal := nTotal }

/-- A pass over the coins. -/
def pass (nTargetValue : Int64) (takes : ℕ → Subset → Bool) (vValue : List Coin) (s : Subset) :
    Subset :=
  vValue.zipIdx.foldl (fun s c => if takes c.2 s then s.tryCoin nTargetValue c else s) s

/-- The first pass takes coins at random, the second one those that are left out. -/
def passes (vValue : List Coin) (nTargetValue : Int64) (insecureRand : ℕ → Bool) (s : Subset) :
    Subset :=
  let s := s.pass nTargetValue (fun i _ => insecureRand i) vValue
  if s.fReachedTarget then s
  else s.pass nTargetValue (fun i s => s.vfIncluded[i]? == some false) vValue

end Subset

/-- A round of the search, if the best is not the target yet. -/
def searchRound (vValue : List Coin) (nTargetValue : Int64) (insecureRand : ℕ → Bool)
    (best : List Bool × Int64) : List Bool × Int64 :=
  if best.2 = nTargetValue then best
  else
    let s := Subset.passes vValue nTargetValue insecureRand
      ⟨List.replicate vValue.length false, 0, false, best.1, best.2⟩
    (s.vfBest, s.nBest)

/-- `ApproximateBestSubset`. -/
def approximateBestSubset (vValue : List Coin) (nTotalLower nTargetValue : Int64)
    (insecureRand : ℕ → ℕ → Bool) (iterations : ℕ) : List Bool × Int64 :=
  (List.range iterations).foldl
    (fun best nRep => searchRound vValue nTargetValue (insecureRand nRep) best)
    (List.replicate vValue.length true, nTotalLower)

/-! ## SelectCoinsMinConf -/

/-- The set that is returned, with the value of it. -/
structure Selection where
  setCoinsRet : List OutRef
  nValueRet : Int64

def Selection.empty : Selection := ⟨[], 0⟩

def Selection.insert (r : Selection) (coin : Coin) : Selection :=
  ⟨r.setCoinsRet.insert coin.2, r.nValueRet + coin.1⟩

def Selection.collect (coins : List Coin) : Selection := coins.foldl Selection.insert empty

/-- The coins less than the target and a cent, with their sum, and the least of the others. -/
structure Candidates where
  vValue : List Coin
  nTotalLower : Int64
  coinLowestLarger : Int64 × Option OutRef

/-- The confirmations an output needs are fewer for our own transactions. -/
def COutput.eligible (isFromMe : CWalletTx → Bool) (nConfMine nConfTheirs : ℤ) (output : COutput) :
    Bool :=
  !decide (output.nDepth < if isFromMe output.tx then nConfMine else nConfTheirs)

/-- The loop over the outputs, to one of the value wanted. -/
def scanCoins (eligible : COutput → Bool) (nTargetValue : Int64) :
    List COutput → Candidates → Coin ⊕ Candidates
  | [], c => .inr c
  | output :: vCoins, c =>
    if !eligible output then scanCoins eligible nTargetValue vCoins c
    else
      let coin := output.coin
      if coin.1 = nTargetValue then .inl coin
      else if coin.1 < nTargetValue + CENT then
        scanCoins eligible nTargetValue vCoins
          { c with vValue := c.vValue ++ [coin], nTotalLower := c.nTotalLower + coin.1 }
      else if coin.1 < c.coinLowestLarger.1 then
        scanCoins eligible nTargetValue vCoins { c with coinLowestLarger := (coin.1, some coin.2) }
      else scanCoins eligible nTargetValue vCoins c

/-- What is random in a selection : the order of the outputs, and the bits of the two searches. -/
structure SelectionRandom where
  shuffle : List COutput → List COutput
  shuffle_perm : ∀ vCoins, (shuffle vCoins).Perm vCoins
  insecureRand : Bool → ℕ → ℕ → Bool

/-- The best subset for the target, or else for the target and a cent. -/
def bestSubset (rand : SelectionRandom) (vValue : List Coin) (nTotalLower nTargetValue : Int64) :
    List Bool × Int64 :=
  let best := approximateBestSubset vValue nTotalLower nTargetValue (rand.insecureRand false) 1000
  if best.2 ≠ nTargetValue ∧ nTotalLower ≥ nTargetValue + CENT then
    approximateBestSubset vValue nTotalLower (nTargetValue + CENT) (rand.insecureRand true) 1000
  else best

/-- The choice between the best subset of the smaller coins and a larger one. -/
def chooseCoins (rand : SelectionRandom) (nTargetValue : Int64) (c : Candidates) : Selection :=
  let vValue := c.vValue.mergeSort fun a b => decide (b.1 ≤ a.1)
  let best := bestSubset rand vValue c.nTotalLower nTargetValue
  match c.coinLowestLarger.2 with
  | some larger =>
    if (best.2 ≠ nTargetValue ∧ best.2 < nTargetValue + CENT) ∨ c.coinLowestLarger.1 ≤ best.2 then
      Selection.empty.insert (c.coinLowestLarger.1, larger)
    else Selection.collect (marked vValue best.1)
  | none => Selection.collect (marked vValue best.1)

/-- `SelectCoinsMinConf`. -/
def selectCoinsMinConf (isFromMe : CWalletTx → Bool) (rand : SelectionRandom) (nTargetValue : Int64)
    (nConfMine nConfTheirs : ℤ) (vCoins : List COutput) : Bool × Selection :=
  match scanCoins (COutput.eligible isFromMe nConfMine nConfTheirs) nTargetValue
      (rand.shuffle vCoins) ⟨[], 0, (Int64.maxValue, none)⟩ with
  | .inl coin => (true, Selection.empty.insert coin)
  | .inr c =>
    if c.nTotalLower = nTargetValue then (true, Selection.collect c.vValue)
    else if c.nTotalLower < nTargetValue then
      match c.coinLowestLarger.2 with
      | none => (false, Selection.empty)
      | some larger => (true, Selection.empty.insert (c.coinLowestLarger.1, larger))
    else (true, chooseCoins rand nTargetValue c)

/-! ## The sums of the search -/

section Search

variable {vValue : List Coin} {nTargetValue : Int64}

/-- What the marked coins are worth. -/
def subtotal (vValue : List Coin) (flags : List Bool) : Int64 :=
  ((marked vValue flags).map Prod.fst).sum

theorem subtotal_set {coin : Coin} {flags : List Bool} {i : ℕ} (hcoin : vValue[i]? = some coin)
    (hflag : flags[i]? = some false) :
    subtotal vValue (flags.set i true) = subtotal vValue flags + coin.1 := by
  unfold subtotal
  rw [sum_perm ((marked_set_perm hcoin hflag).map Prod.fst), List.map_cons, List.sum_cons,
    Int64.add_comm]

/-- A record is of marked coins that reach the target. -/
def BestValid (vValue : List Coin) (nTargetValue : Int64) (best : List Bool × Int64) : Prop :=
  best.2 = subtotal vValue best.1 ∧ nTargetValue ≤ best.2

/-- The sum is that of the flags, and the record is valid. -/
structure Subset.Valid (vValue : List Coin) (nTargetValue : Int64) (s : Subset) : Prop where
  total : s.nTotal = subtotal vValue s.vfIncluded
  best : BestValid vValue nTargetValue (s.vfBest, s.nBest)

/-- An inclusion of a coin that is left out concerns only its own flag. -/
theorem Subset.Valid.tryCoin {s : Subset} (h : s.Valid vValue nTargetValue) {c : Coin × ℕ}
    (hcoin : vValue[c.2]? = some c.1) (hflag : s.vfIncluded[c.2]? = some false) :
    (s.tryCoin nTargetValue c).Valid vValue nTargetValue ∧
      ∀ j, j ≠ c.2 → (s.tryCoin nTargetValue c).vfIncluded[j]? = s.vfIncluded[j]? := by
  have hset := subtotal_set hcoin hflag
  have hback := set_set_of_getElem? hflag true
  unfold Subset.tryCoin
  dsimp only
  split
  · rename_i hreach
    refine ⟨⟨?_, ?_⟩, fun j _ => by rw [hback]⟩
    · rw [hback, Int64.add_sub_cancel]
      exact h.total
    · split
      · exact ⟨by rw [hset, h.total], hreach⟩
      · exact h.best
  · exact ⟨⟨by rw [hset, h.total], h.best⟩, fun j hj => List.getElem?_set_ne hj.symm⟩

/-- A pass over coins that are left out, or that are looked up before they are taken. -/
theorem Subset.Valid.foldl {takes : ℕ → Subset → Bool} : ∀ {cs : List (Coin × ℕ)} {s : Subset},
    s.Valid vValue nTargetValue → (∀ c ∈ cs, vValue[c.2]? = some c.1) → (cs.map Prod.snd).Nodup →
    (∀ c ∈ cs, s.vfIncluded[c.2]? = some false) ∨
      (∀ i s, takes i s = true → s.vfIncluded[i]? = some false) →
    (cs.foldl (fun s c => if takes c.2 s then s.tryCoin nTargetValue c else s) s).Valid vValue
      nTargetValue
  | [], _, h, _, _, _ => h
  | c :: cs, s, h, hcoins, hnodup, htakes => by
    rw [List.forall_mem_cons] at hcoins
    rw [List.map_cons, List.nodup_cons] at hnodup
    rw [List.foldl_cons]
    split
    · rename_i htake
      have hflag : s.vfIncluded[c.2]? = some false := by
        rcases htakes with hflags | hlook
        · exact hflags c List.mem_cons_self
        · exact hlook _ _ htake
      obtain ⟨hvalid, hframe⟩ := h.tryCoin hcoins.1 hflag
      refine hvalid.foldl hcoins.2 hnodup.2 (htakes.imp (fun hflags c' hc' => ?_) id)
      rw [hframe]
      · exact hflags c' (List.mem_cons_of_mem _ hc')
      · intro heq
        exact hnodup.1 (heq ▸ List.mem_map_of_mem hc')
    · exact h.foldl hcoins.2 hnodup.2
        (htakes.imp (fun hflags c' hc' => hflags c' (List.mem_cons_of_mem _ hc')) id)

theorem Subset.Valid.pass {takes : ℕ → Subset → Bool} {s : Subset} (h : s.Valid vValue nTargetValue)
    (htakes : (∀ i < vValue.length, s.vfIncluded[i]? = some false) ∨
      (∀ i s, takes i s = true → s.vfIncluded[i]? = some false)) :
    (s.pass nTargetValue takes vValue).Valid vValue nTargetValue := by
  refine h.foldl (fun c hc => List.mem_zipIdx_iff_getElem?.mp hc) ?_
    (htakes.imp (fun hflags c hc => hflags c.2 ?_) id)
  · rw [List.zipIdx_map_snd]
    exact List.nodup_range'
  · exact (List.getElem?_eq_some_iff.mp (List.mem_zipIdx_iff_getElem?.mp hc)).1

theorem searchRound_valid (insecureRand : ℕ → Bool) {best : List Bool × Int64}
    (h : BestValid vValue nTargetValue best) :
    BestValid vValue nTargetValue (searchRound vValue nTargetValue insecureRand best) := by
  unfold searchRound
  split
  · exact h
  · have hstart : Subset.Valid vValue nTargetValue
        ⟨List.replicate vValue.length false, 0, false, best.1, best.2⟩ :=
      ⟨by simp [subtotal], h⟩
    have hleft : ∀ i < vValue.length, (List.replicate vValue.length false)[i]? = some false :=
      fun i hi => by simp [hi]
    have hfirst : (Subset.pass nTargetValue (fun i _ => insecureRand i) vValue _).Valid vValue
      nTargetValue := hstart.pass (.inl hleft)
    unfold Subset.passes
    dsimp only
    split
    · exact hfirst.best
    · exact (hfirst.pass (.inr fun i s hs => by simpa using hs)).best

/-- Any random bits leave a subset that reaches the target. -/
theorem approximateBestSubset_valid {nTotalLower : Int64}
    (hlower : nTotalLower = (vValue.map Prod.fst).sum) (hreach : nTargetValue ≤ nTotalLower)
    (insecureRand : ℕ → ℕ → Bool) (iterations : ℕ) :
    BestValid vValue nTargetValue
      (approximateBestSubset vValue nTotalLower nTargetValue insecureRand iterations) := by
  refine List.foldlRecOn (motive := BestValid vValue nTargetValue) _ _ ?_ fun best h nRep _ =>
    searchRound_valid _ h
  exact ⟨by simp [subtotal, hlower], hreach⟩

theorem bestSubset_valid (rand : SelectionRandom) {nTotalLower : Int64}
    (hlower : nTotalLower = (vValue.map Prod.fst).sum) (hreach : nTargetValue ≤ nTotalLower)
    (hcent : nTargetValue ≤ nTargetValue + CENT) :
    BestValid vValue nTargetValue (bestSubset rand vValue nTotalLower nTargetValue) := by
  unfold bestSubset
  dsimp only
  split
  · rename_i hmore
    obtain ⟨hsum, hle⟩ := approximateBestSubset_valid hlower hmore.2 (rand.insecureRand true) 1000
    exact ⟨hsum, Int64.le_trans hcent hle⟩
  · exact approximateBestSubset_valid hlower hreach _ _

end Search

/-! ## The candidates and the choice -/

theorem Selection.foldl_insert : ∀ {coins : List Coin} {r : Selection},
    (coins.map Prod.snd).Nodup → (∀ c ∈ coins, c.2 ∉ r.setCoinsRet) →
    (coins.foldl Selection.insert r).setCoinsRet.Perm (coins.map Prod.snd ++ r.setCoinsRet) ∧
      (coins.foldl Selection.insert r).nValueRet = r.nValueRet + (coins.map Prod.fst).sum
  | [], r, _, _ => ⟨List.Perm.refl _, (Int64.add_zero _).symm⟩
  | c :: coins, r, hnodup, hnew => by
    rw [List.map_cons, List.nodup_cons] at hnodup
    rw [List.forall_mem_cons] at hnew
    have hset : (r.insert c).setCoinsRet = c.2 :: r.setCoinsRet := List.insert_of_not_mem hnew.1
    obtain ⟨hperm, hvalue⟩ := foldl_insert (r := r.insert c) hnodup.2 fun c' hc' hmem => by
      rw [hset] at hmem
      rcases List.mem_cons.mp hmem with heq | hmem
      · exact hnodup.1 (heq ▸ List.mem_map_of_mem hc')
      · exact hnew.2 c' hc' hmem
    rw [List.foldl_cons]
    refine ⟨hperm.trans ?_, hvalue.trans ?_⟩
    · rw [hset]
      exact List.perm_middle
    · rw [List.map_cons, List.sum_cons, ← Int64.add_assoc]
      rfl

/-- Coins of different outputs are all in the set, and add up. -/
theorem Selection.collect_spec {coins : List Coin} (h : (coins.map Prod.snd).Nodup) :
    (collect coins).setCoinsRet.Perm (coins.map Prod.snd) ∧
      (collect coins).nValueRet = (coins.map Prod.fst).sum := by
  obtain ⟨hperm, hvalue⟩ := foldl_insert (r := empty) h fun c _ => List.not_mem_nil
  rw [empty, List.append_nil] at hperm
  rw [empty, Int64.zero_add] at hvalue
  exact ⟨hperm, hvalue⟩

/-- The least of coins and one before them. -/
def lowestLarger (best : Int64 × Option OutRef) (coins : List Coin) : Int64 × Option OutRef :=
  coins.foldl (fun best coin => if coin.1 < best.1 then (coin.1, some coin.2) else best) best

theorem lowestLarger_cases : ∀ (coins : List Coin) (best : Int64 × Option OutRef),
    (lowestLarger best coins = best ∧ ∀ coin ∈ coins, ¬coin.1 < best.1) ∨
      ∃ coin ∈ coins, lowestLarger best coins = (coin.1, some coin.2)
  | [], _ => .inl ⟨rfl, fun _ h => absurd h List.not_mem_nil⟩
  | coin :: coins, best => by
    unfold lowestLarger
    rw [List.foldl_cons]
    split
    · right
      rcases lowestLarger_cases coins (coin.1, some coin.2) with ⟨heq, -⟩ | ⟨c, hc, heq⟩
      · exact ⟨coin, List.mem_cons_self, heq⟩
      · exact ⟨c, List.mem_cons_of_mem _ hc, heq⟩
    · rename_i hnot
      rcases lowestLarger_cases coins best with ⟨heq, hall⟩ | ⟨c, hc, heq⟩
      · exact .inl ⟨heq, List.forall_mem_cons.mpr ⟨hnot, hall⟩⟩
      · exact .inr ⟨c, List.mem_cons_of_mem _ hc, heq⟩

section Scan

variable {eligible : COutput → Bool} {nTargetValue : Int64}

/-- The coins of the eligible outputs. -/
def eligibleCoins (eligible : COutput → Bool) (vCoins : List COutput) : List Coin :=
  (vCoins.filter eligible).map COutput.coin

theorem scanCoins_inl {coin : Coin} : ∀ {vCoins : List COutput} {c : Candidates},
    scanCoins eligible nTargetValue vCoins c = .inl coin →
    coin.1 = nTargetValue ∧ coin ∈ eligibleCoins eligible vCoins
  | [], _, h => by simp [scanCoins] at h
  | output :: vCoins, c, h => by
    rw [scanCoins] at h
    unfold eligibleCoins
    split at h
    · rename_i hskip
      rw [List.filter_cons_of_neg (by simpa using hskip)]
      exact scanCoins_inl h
    · rename_i helig
      rw [List.filter_cons_of_pos (by simpa using helig), List.map_cons]
      dsimp only at h
      split at h
      · rename_i heq
        cases h
        exact ⟨heq, List.mem_cons_self⟩
      split at h
      · exact (scanCoins_inl h).imp_right (List.mem_cons_of_mem _)
      split at h
      · exact (scanCoins_inl h).imp_right (List.mem_cons_of_mem _)
      · exact (scanCoins_inl h).imp_right (List.mem_cons_of_mem _)

/-- The candidates are parted at the target and a cent. -/
theorem scanCoins_inr {c' : Candidates} : ∀ {vCoins : List COutput} {c : Candidates},
    scanCoins eligible nTargetValue vCoins c = .inr c' →
    let coins := eligibleCoins eligible vCoins
    let lower := coins.filter fun coin => decide (coin.1 < nTargetValue + CENT)
    let larger := coins.filter fun coin => !decide (coin.1 < nTargetValue + CENT)
    c'.vValue = c.vValue ++ lower ∧ c'.nTotalLower = c.nTotalLower + (lower.map Prod.fst).sum ∧
      c'.coinLowestLarger = lowestLarger c.coinLowestLarger larger
  | [], c, h => by
    cases h
    exact ⟨(List.append_nil _).symm, (Int64.add_zero _).symm, rfl⟩
  | output :: vCoins, c, h => by
    rw [scanCoins] at h
    unfold eligibleCoins
    dsimp only
    split at h
    · rename_i hskip
      rw [List.filter_cons_of_neg (by simpa using hskip)]
      exact scanCoins_inr h
    · rename_i helig
      rw [List.filter_cons_of_pos (by simpa using helig), List.map_cons]
      dsimp only at h
      split at h
      · cases h
      split at h
      · rename_i hlow
        rw [List.filter_cons_of_pos (by simpa using hlow),
          List.filter_cons_of_neg (by simpa using hlow), List.map_cons, List.sum_cons]
        obtain ⟨hv, hn, hl⟩ := scanCoins_inr h
        refine ⟨hv.trans ?_, hn.trans ?_, hl⟩
        · rw [List.append_assoc]
          rfl
        · rw [Int64.add_assoc]
          rfl
      · rename_i hlow
        rw [List.filter_cons_of_neg (by simpa using hlow),
          List.filter_cons_of_pos (by simpa using hlow), lowestLarger, List.foldl_cons]
        split at h
        · rename_i hless
          rw [if_pos hless]
          exact scanCoins_inr h
        · rename_i hless
          rw [if_neg hless]
          exact scanCoins_inr h

end Scan

/-! ## What is selected -/

section Select

variable {rand : SelectionRandom} {nTargetValue : Int64} {coins : List Coin} {c : Candidates}

theorem subperm_map {α β : Type} (f : α → β) {l l' : List α} (h : l.Subperm l') :
    (l.map f).Subperm (l'.map f) := by
  obtain ⟨l'', hperm, hsub⟩ := h
  exact ⟨l''.map f, hperm.map f, hsub.map f⟩

/-- A value is not more than the sum it is in. -/
theorem toInt_le_total {coin : Coin} (hnonneg : ∀ x ∈ coins.map Prod.fst, 0 ≤ x.toInt)
    (hcoin : coin ∈ coins) : coin.1.toInt ≤ total (coins.map Prod.fst) := by
  have hsub : [coin.1].Subperm (coins.map Prod.fst) :=
    List.singleton_subperm_iff.mpr (List.mem_map_of_mem hcoin)
  have hle := total_le_of_subperm hsub hnonneg
  rwa [total, List.map_singleton, List.sum_singleton] at hle

/-- The choice is of coins that reach the target. -/
theorem chooseCoins_cases (hlower : c.nTotalLower = (c.vValue.map Prod.fst).sum)
    (hvalue : c.vValue.Subperm coins)
    (hlarger : ∀ larger, c.coinLowestLarger.2 = some larger →
      (c.coinLowestLarger.1, larger) ∈ coins ∧ nTargetValue ≤ c.coinLowestLarger.1)
    (hreach : nTargetValue ≤ c.nTotalLower) (hcent : nTargetValue ≤ nTargetValue + CENT) :
    ∃ selected : List Coin, selected.Subperm coins ∧
      nTargetValue ≤ (selected.map Prod.fst).sum ∧
      chooseCoins rand nTargetValue c = Selection.collect selected := by
  have hperm := List.mergeSort_perm c.vValue fun a b => decide (b.1 ≤ a.1)
  unfold chooseCoins
  dsimp only
  generalize c.vValue.mergeSort (fun a b => decide (b.1 ≤ a.1)) = vValue at hperm
  have hsum : c.nTotalLower = (vValue.map Prod.fst).sum :=
    hlower.trans (sum_perm (hperm.symm.map Prod.fst))
  obtain ⟨hbest, hle⟩ := bestSubset_valid rand hsum hreach hcent
  have hsubset : ∃ selected : List Coin, selected.Subperm coins ∧
      nTargetValue ≤ (selected.map Prod.fst).sum ∧
      Selection.collect (marked vValue (bestSubset rand vValue c.nTotalLower nTargetValue).1) =
        Selection.collect selected := by
    refine ⟨_, ?_, ?_, rfl⟩
    · exact ((marked_sublist vValue _).subperm.trans hperm.subperm).trans hvalue
    · rw [hbest] at hle
      exact hle
  split
  · rename_i larger hsome
    obtain ⟨hmem, htarget⟩ := hlarger larger hsome
    split
    · refine ⟨[(c.coinLowestLarger.1, larger)], List.singleton_subperm_iff.mpr hmem, ?_, rfl⟩
      rwa [List.map_singleton, List.sum_singleton]
    · exact hsubset
  · exact hsubset

/-- Coins that reach the target are selected, or all of them do not. -/
theorem selectCoinsMinConf_cases (isFromMe : CWalletTx → Bool) {nConfMine nConfTheirs : ℤ}
    {vCoins : List COutput}
    (hcoins : coins = eligibleCoins (COutput.eligible isFromMe nConfMine nConfTheirs) vCoins)
    (hnonneg : ∀ x ∈ coins.map Prod.fst, 0 ≤ x.toInt)
    (hfit : total (coins.map Prod.fst) < Int64.maxValue.toInt)
    (hcent : nTargetValue ≤ nTargetValue + CENT) :
    (∃ selected : List Coin, selected.Subperm coins ∧
      nTargetValue ≤ (selected.map Prod.fst).sum ∧
      selectCoinsMinConf isFromMe rand nTargetValue nConfMine nConfTheirs vCoins =
        (true, Selection.collect selected)) ∨
    (total (coins.map Prod.fst) < nTargetValue.toInt ∧
      selectCoinsMinConf isFromMe rand nTargetValue nConfMine nConfTheirs vCoins =
        (false, Selection.empty)) := by
  have hshuffled : (eligibleCoins (COutput.eligible isFromMe nConfMine nConfTheirs)
      (rand.shuffle vCoins)).Perm coins := by
    rw [hcoins]
    exact ((rand.shuffle_perm vCoins).filter _).map _
  unfold selectCoinsMinConf
  split
  · rename_i coin hscan
    obtain ⟨heq, hmem⟩ := scanCoins_inl hscan
    refine .inl ⟨[coin], List.singleton_subperm_iff.mpr (hshuffled.mem_iff.mp hmem), ?_, rfl⟩
    rw [List.map_singleton, List.sum_singleton, heq]
  · rename_i c hscan
    obtain ⟨hvalue, hlower, hlowest⟩ := scanCoins_inr hscan
    generalize eligibleCoins (COutput.eligible isFromMe nConfMine nConfTheirs)
      (rand.shuffle vCoins) = shuffled at hshuffled hvalue hlower hlowest
    rw [List.nil_append] at hvalue
    rw [Int64.zero_add, ← hvalue] at hlower
    have hsub : c.vValue.Subperm coins :=
      (hvalue ▸ List.filter_sublist).subperm.trans hshuffled.subperm
    have hcases := lowestLarger_cases
      (shuffled.filter fun coin => !decide (coin.1 < nTargetValue + CENT)) (Int64.maxValue, none)
    dsimp only at hlowest
    rw [← hlowest] at hcases
    have hnone : c.coinLowestLarger.2 = none → c.vValue.Perm coins := by
      intro hnone
      rcases hcases with ⟨-, hall⟩ | ⟨coin, -, heq⟩
      · refine List.Perm.trans ?_ hshuffled
        rw [hvalue, List.filter_eq_self.mpr]
        intro coin hcoin
        by_contra hnot
        -- a larger coin is below the greatest value, as the sum is
        have hlarge : (!decide (coin.1 < nTargetValue + CENT)) = true := by
          rw [Bool.not_eq_true] at hnot
          rw [hnot]
          rfl
        have hless := hall coin (List.mem_filter.mpr ⟨hcoin, hlarge⟩)
        have hle := toInt_le_total hnonneg (hshuffled.mem_iff.mp hcoin)
        rw [Int64.lt_iff_toInt_lt] at hless
        exact hless (hle.trans_lt hfit)
      · rw [heq] at hnone
        cases hnone
    have hlarger : ∀ larger, c.coinLowestLarger.2 = some larger →
        (c.coinLowestLarger.1, larger) ∈ coins ∧ nTargetValue ≤ c.coinLowestLarger.1 := by
      intro larger hsome
      rcases hcases with ⟨heq, -⟩ | ⟨coin, hcoin, heq⟩
      · rw [heq] at hsome
        cases hsome
      · rw [heq] at hsome ⊢
        cases hsome
        obtain ⟨hmem, hlarge⟩ := List.mem_filter.mp hcoin
        refine ⟨hshuffled.mem_iff.mp hmem, Int64.le_trans hcent ?_⟩
        rw [Bool.not_eq_true', decide_eq_false_iff_not] at hlarge
        exact Int64.not_lt.mp hlarge
    split
    · rename_i heq
      exact .inl ⟨c.vValue, hsub, by rw [← hlower, heq], rfl⟩
    split
    · rename_i hless
      split
      · rename_i hsome
        refine .inr ⟨?_, rfl⟩
        have hperm := (hnone hsome).map Prod.fst
        have hsum : (c.vValue.map Prod.fst).sum.toInt = total (c.vValue.map Prod.fst) :=
          toInt_sum (fun x hx => hnonneg x (hperm.mem_iff.mp hx))
            (by rw [total_perm hperm]; exact hfit.trans (by decide))
        rw [← total_perm hperm, ← hsum, ← hlower]
        exact Int64.lt_iff_toInt_lt.mp hless
      · rename_i larger hsome
        obtain ⟨hmem, htarget⟩ := hlarger larger hsome
        refine .inl ⟨[(c.coinLowestLarger.1, larger)], List.singleton_subperm_iff.mpr hmem, ?_, rfl⟩
        rwa [List.map_singleton, List.sum_singleton]
    · rename_i hne hless
      obtain ⟨selected, hselected, hle, hchoose⟩ : ∃ selected : List Coin, selected.Subperm coins ∧
          nTargetValue ≤ (selected.map Prod.fst).sum ∧
          chooseCoins rand nTargetValue c = Selection.collect selected :=
        chooseCoins_cases hlower hsub hlarger (Int64.not_lt.mp hless) hcent
      exact .inl ⟨selected, hselected, hle, by rw [hchoose]⟩

/-- Coins of different outputs, with the values of these, that add up within `int64_t`. -/
structure CoinsFit (coins : List Coin) : Prop where
  nodup : (coins.map Prod.snd).Nodup
  value : ∀ coin ∈ coins, coin.1 = coin.2.nValue
  nonneg : ∀ x ∈ coins.map Prod.fst, 0 ≤ x.toInt
  fit : total (coins.map Prod.fst) < Int64.maxValue.toInt

theorem CoinsFit.of_outputs {vCoins : List COutput}
    (hdistinct : (vCoins.map COutput.toOutRef).Nodup)
    (hnonneg : ∀ output ∈ vCoins, 0 ≤ output.nValue.toInt)
    (hfit : total (vCoins.map fun output => output.nValue) < Int64.maxValue.toInt) :
    CoinsFit (vCoins.map COutput.coin) where
  nodup := by
    rw [List.map_map]
    exact hdistinct
  value coin hcoin := by
    obtain ⟨output, -, rfl⟩ := List.mem_map.mp hcoin
    rfl
  nonneg x hx := by
    rw [List.map_map] at hx
    obtain ⟨output, houtput, rfl⟩ := List.mem_map.mp hx
    exact hnonneg output houtput
  fit := by
    rw [List.map_map]
    exact hfit

theorem CoinsFit.subperm {coins' : List Coin} (h : CoinsFit coins) (hsub : coins'.Subperm coins) :
    CoinsFit coins' where
  nodup := by
    obtain ⟨l, hperm, hsublist⟩ := subperm_map Prod.snd hsub
    exact hperm.nodup_iff.mp (h.nodup.sublist hsublist)
  value coin hcoin := h.value coin (hsub.subset hcoin)
  nonneg x hx := h.nonneg x ((subperm_map _ hsub).subset hx)
  fit := (total_le_of_subperm (subperm_map Prod.fst hsub) h.nonneg).trans_lt h.fit

/-- What is collected of such coins is worth the value returned. -/
theorem CoinsFit.collect (h : CoinsFit coins) :
    (Selection.collect coins).setCoinsRet.Perm (coins.map Prod.snd) ∧
      (Selection.collect coins).nValueRet = (coins.map Prod.fst).sum ∧
      (coins.map Prod.fst).sum.toInt = total (coins.map Prod.fst) ∧
      total ((Selection.collect coins).setCoinsRet.map OutRef.nValue) =
        (Selection.collect coins).nValueRet.toInt := by
  obtain ⟨hset, hvalue⟩ := Selection.collect_spec h.nodup
  have hsum : (coins.map Prod.fst).sum.toInt = total (coins.map Prod.fst) :=
    toInt_sum h.nonneg (h.fit.trans (by decide))
  have hworth : (coins.map Prod.snd).map OutRef.nValue = coins.map Prod.fst := by
    rw [List.map_map]
    exact List.map_congr_left fun coin hcoin => (h.value coin hcoin).symm
  exact ⟨hset, hvalue, hsum, by rw [total_perm (hset.map _), hworth, hvalue, hsum]⟩

/-- A target that leaves room for a cent. -/
theorem le_add_cent (hroom : nTargetValue.toInt + CENT.toInt ≤ Int64.maxValue.toInt) :
    nTargetValue ≤ nTargetValue + CENT := by
  have hmin := nTargetValue.le_toInt
  have hCENT : CENT.toInt = 1000000 := by decide
  have hmax : Int64.maxValue.toInt = 2 ^ 63 - 1 := by decide
  rw [hmax] at hroom
  rw [Int64.le_iff_toInt_le, toInt_add_of_fits ⟨by omega, by omega⟩]
  omega

theorem eligibleCoins_sublist (eligible : COutput → Bool) (vCoins : List COutput) :
    (eligibleCoins eligible vCoins).Sublist (vCoins.map COutput.coin) :=
  List.filter_sublist.map _

/-- For outputs whose values add up within `int64_t`, a selection is found if and only if the
eligible ones suffice, and is then of different eligible outputs worth the value returned, which
reaches the target. -/
theorem selectCoinsMinConf_spec (isFromMe : CWalletTx → Bool) (rand : SelectionRandom)
    (nTargetValue : Int64) (nConfMine nConfTheirs : ℤ) (vCoins : List COutput)
    (hdistinct : (vCoins.map COutput.toOutRef).Nodup)
    (hnonneg : ∀ output ∈ vCoins, 0 ≤ output.nValue.toInt)
    (hfit : total (vCoins.map fun output => output.nValue) < Int64.maxValue.toInt)
    (hroom : nTargetValue.toInt + CENT.toInt ≤ Int64.maxValue.toInt) :
    let eligible := vCoins.filter (COutput.eligible isFromMe nConfMine nConfTheirs)
    let r := selectCoinsMinConf isFromMe rand nTargetValue nConfMine nConfTheirs vCoins
    (r.1 = true ↔ nTargetValue.toInt ≤ total (eligible.map fun output => output.nValue)) ∧
    (r.1 = true → r.2.setCoinsRet.Nodup ∧ r.2.setCoinsRet ⊆ eligible.map COutput.toOutRef ∧
      total (r.2.setCoinsRet.map OutRef.nValue) = r.2.nValueRet.toInt ∧
      nTargetValue ≤ r.2.nValueRet) ∧
    (r.1 = false → r.2 = Selection.empty) := by
  intro eligible r
  have hcoins : CoinsFit (eligibleCoins (COutput.eligible isFromMe nConfMine nConfTheirs) vCoins) :=
    (CoinsFit.of_outputs hdistinct hnonneg hfit).subperm (eligibleCoins_sublist _ _).subperm
  have hvalues : (eligibleCoins (COutput.eligible isFromMe nConfMine nConfTheirs) vCoins).map
      Prod.fst = eligible.map fun output => output.nValue := by
    rw [eligibleCoins, List.map_map]
    rfl
  have hrefs : (eligibleCoins (COutput.eligible isFromMe nConfMine nConfTheirs) vCoins).map
      Prod.snd = eligible.map COutput.toOutRef := by
    rw [eligibleCoins, List.map_map]
    rfl
  rw [← hvalues, ← hrefs]
  rcases selectCoinsMinConf_cases isFromMe rfl hcoins.nonneg hcoins.fit (le_add_cent hroom) with
    ⟨selected, hselected, hle, heq⟩ | ⟨hless, heq⟩
  · obtain ⟨hset, hvalue, hsum, hworth⟩ := (hcoins.subperm hselected).collect
    rw [show r = _ from heq]
    refine ⟨iff_of_true rfl ?_, fun _ => ⟨?_, fun x hx => ?_, hworth, ?_⟩, nofun⟩
    · rw [Int64.le_iff_toInt_le, hsum] at hle
      exact hle.trans (total_le_of_subperm (subperm_map _ hselected) hcoins.nonneg)
    · exact hset.nodup_iff.mpr (hcoins.subperm hselected).nodup
    · exact (subperm_map _ hselected).subset (hset.mem_iff.mp hx)
    · rw [hvalue]
      exact hle
  · rw [show r = _ from heq]
    exact ⟨iff_of_false Bool.false_ne_true (by omega), nofun, fun _ => rfl⟩

/-- A transaction with one output. -/
def valueTx (nValue : Int64) : CWalletTx := { CWalletTx.init with vout := [⟨nValue, []⟩] }

def valueOutput (nValue : Int64) : COutput := ⟨⟨valueTx nValue, ⟨0, Nat.one_pos⟩⟩, 6⟩

/-- The order that is given, and no coin taken at random. -/
def noRandom : SelectionRandom := ⟨id, fun _ => List.Perm.refl _, fun _ _ _ => false⟩

def twoOutputs : List COutput := [valueOutput 3, valueOutput 5]

theorem selectCoinsMinConf_spec_two :
    ((twoOutputs.map COutput.toOutRef).Nodup ∧
      (∀ output ∈ twoOutputs, 0 ≤ output.nValue.toInt) ∧
      total (twoOutputs.map fun output => output.nValue) < Int64.maxValue.toInt ∧
      (7 : Int64).toInt + CENT.toInt ≤ Int64.maxValue.toInt) ∧
    (selectCoinsMinConf (fun _ => false) noRandom 7 1 6 twoOutputs).1 = true := by
  have h : (twoOutputs.map COutput.toOutRef).Nodup ∧
      (∀ output ∈ twoOutputs, 0 ≤ output.nValue.toInt) ∧
      total (twoOutputs.map fun output => output.nValue) < Int64.maxValue.toInt ∧
      (7 : Int64).toInt + CENT.toInt ≤ Int64.maxValue.toInt := by decide
  have hspec := selectCoinsMinConf_spec (fun _ => false) noRandom 7 1 6 twoOutputs h.1 h.2.1
    h.2.2.1 h.2.2.2
  exact ⟨h, hspec.1.mpr (by decide)⟩

/-- The greatest value of `int64_t` is not found for a target of one. -/
theorem selectCoinsMinConf_misses :
    ([valueOutput Int64.maxValue].map COutput.toOutRef).Nodup ∧
    (∀ output ∈ [valueOutput Int64.maxValue], 0 ≤ output.nValue.toInt) ∧
    (1 : Int64).toInt ≤ total (([valueOutput Int64.maxValue].filter
      (COutput.eligible (fun _ => false) 1 6)).map fun output => output.nValue) ∧
    (selectCoinsMinConf (fun _ => false) noRandom 1 1 6 [valueOutput Int64.maxValue]).1 =
      false := by
  decide

end Select

end Ticoin
