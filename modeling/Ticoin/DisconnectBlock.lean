import Ticoin.BlockRelay
import Ticoin.ConnectBlock
import Ticoin.WireFormat

/-!
# main.cpp : disconnecting a block from a view of coins

`DisconnectBlock` takes the transactions of a block back in reverse order : their outputs are
removed, and the outputs that they spent are put back from undo information. What was the last
output of its transaction carries the height, version and coinbase flag of it. Anything that does
not look as if the block had just been connected makes the result unclean.

Entries that are spent may be in a view or not, and so views are compared by their unspent coins
(`FlatView.Same`). If unspent coins have a height and no null outputs at the end (`CCoins.Stored`),
then disconnecting a block right after it was connected is clean, and leaves the same view
(`disconnectBlock_connectBlock`).
-/

namespace Ticoin

open Codec Outcome

/-! ## DisconnectBlock -/

/-- An output is put back into the coins of its transaction. `vout` is resized if it is too
short. -/
def CCoins.putBack (coins : CCoins) (n : UInt32) (txout : CTxOut) : Except Stop CCoins :=
  let vout := coins.vout ++ List.replicate ((n + 1).toNat - coins.vout.length) CTxOut.null
  if n.toNat < vout.length then .ok { coins with vout := vout.set n.toNat txout }
  else .error .undefined

/-- One input that is restored, with whether all was clean. -/
def undoInput (s : FlatView × Bool) (input : COutPoint × CTxInUndo) :
    Except Stop (FlatView × Bool) := do
  let (view, fClean) := s
  let (out, undo) := input
  -- this can fail if the prevout was already entirely spent
  let coins := (view.coins out.hash).getD .empty
  let (coins, fClean) : CCoins × Bool :=
    if undo.nHeight ≠ 0 then
      -- undo data contains height : this is the last output of the prevout tx being spent
      (⟨undo.fCoinBase, [], undo.nHeight, undo.nVersion⟩, fClean && coins.isPruned)
    else (coins, fClean && !coins.isPruned)
  let fClean := fClean && !coins.isAvailable out.n.toNat
  let coins ← coins.putBack out.n undo.txout
  return (view.setCoins out.hash coins, fClean)

/-- The outputs of a transaction are compared with those in the view, and removed. -/
def removeOutputs (nHeight : ℤ) (s : FlatView × Bool) (tx : CTransaction) (hash : UInt256) :
    FlatView × Bool :=
  let (view, fClean) := s
  let outs := ((view.coins hash).getD .empty).clearUnspendable
  let outsBlock := CCoins.ofTx tx nHeight
  -- the CCoins serialization does not serialize negative numbers
  let outs := if outsBlock.nVersion < 0 then { outs with nVersion := outsBlock.nVersion } else outs
  (if (view.coins hash).isSome then view.setCoins hash .empty else view,
    fClean && outs.eqv outsBlock)

variable (H : Bytes → UInt256)

/-- One transaction that is taken back. A coinbase has no undo information. -/
def disconnectTx (nHeight : ℤ) (s : FlatView × Bool)
    (item : CTransaction × Option (List CTxInUndo)) : Except Stop (FlatView × Bool) :=
  let (tx, txundo) := item
  let s := removeOutputs nHeight s tx (tx.getHash H)
  match txundo with
  | none => .ok s
  | some vprevout => do
    -- transaction and undo data inconsistent
    stopIf (vprevout.length ≠ tx.vin.length) (.error .unreported)
    ((tx.vin.map CTxIn.prevout).zip vprevout).reverse.foldlM undoInput s

/-- `DisconnectBlock`, with the undo information that is read from disk. -/
def disconnectBlock (block : CBlock) (pindex : CBlockIndex)
    (blockUndo : Option (List (List CTxInUndo))) (view : FlatView) :
    Except Stop (FlatView × Bool) := do
  stopIf (pindex.entry.phashBlock ≠ some view.best) (.error .undefined)
  match blockUndo with
  | none => .error .unreported
  | some vtxundo => do
    -- block and undo data inconsistent
    stopIf (vtxundo.length + 1 ≠ block.vtx.length) (.error .unreported)
    -- undo transactions in reverse order
    let (view, fClean) ← (block.vtx.zip (none :: vtxundo.map some)).reverse.foldlM
      (disconnectTx H pindex.nHeight) (view, true)
    match pindex.pprev.bind fun pprev => pprev.entry.phashBlock with
    | none => .error .undefined
    | some hash => return ({ view with best := hash }, fClean)

/-! ## Coins that are put back -/

/-- What a view holds of a transaction that is not entirely spent : it has a height, and what is
null of it is nothing but null, and not at the end. -/
structure CCoins.Stored (coins : CCoins) : Prop where
  height : coins.nHeight ≠ 0
  size : coins.vout.length < 2 ^ 32
  trimmed : coins.cleanup = coins
  null : ∀ txout ∈ coins.vout, txout.isNull = true → txout = .null

namespace CCoins

variable {coins left : CCoins} {undo : CTxInUndo}

theorem isPruned_cleanup (coins : CCoins) : coins.cleanup.isPruned = coins.isPruned := by
  unfold isPruned cleanup
  conv_rhs => rw [← List.rdropWhile_append_rtakeWhile (p := CTxOut.isNull) (l := coins.vout)]
  rw [List.all_append, Bool.eq_iff_iff, Bool.and_eq_true]
  exact (and_iff_left (List.all_eq_true.mpr fun txout hmem => List.mem_rtakeWhile_imp hmem)).symm

theorem cleanup_cleanup (coins : CCoins) : coins.cleanup.cleanup = coins.cleanup := by
  unfold cleanup
  rw [List.rdropWhile_idempotent]

/-- Coins that are cleaned up are spent if they have no outputs. -/
theorem isPruned_cleanup_iff (coins : CCoins) :
    coins.cleanup.isPruned = true ↔ coins.cleanup.vout = [] := by
  constructor
  · intro h
    by_contra hne
    have hlast := List.rdropWhile_last_not CTxOut.isNull coins.vout hne
    exact hlast (List.all_eq_true.mp h _ (List.getLast_mem hne))
  · intro h
    unfold isPruned
    rw [h]
    rfl

/-- Null outputs that were dropped at the end are there again when `vout` is resized. -/
theorem rdropWhile_isNull_append {vout : List CTxOut}
    (h : ∀ txout ∈ vout, txout.isNull = true → txout = .null) :
    vout.rdropWhile CTxOut.isNull ++
      List.replicate (vout.length - (vout.rdropWhile CTxOut.isNull).length) CTxOut.null = vout := by
  have happend := List.rdropWhile_append_rtakeWhile (p := CTxOut.isNull) (l := vout)
  have hlen := congrArg List.length happend
  rw [List.length_append] at hlen
  have hnull : vout.rtakeWhile CTxOut.isNull =
      List.replicate (vout.rtakeWhile CTxOut.isNull).length CTxOut.null := by
    refine List.eq_replicate_iff.mpr ⟨rfl, fun txout hmem => ?_⟩
    refine h txout ?_ (List.mem_rtakeWhile_imp hmem)
    rw [← happend]
    exact List.mem_append_right _ hmem
  conv_rhs => rw [← happend, hnull]
  congr 2
  omega

/-- Outputs that are trimmed stay so when any but the last is changed. -/
theorem rdropWhile_set {vout : List CTxOut} {n : ℕ} (txout : CTxOut)
    (htrimmed : vout.rdropWhile CTxOut.isNull = vout) (hlt : n + 1 < vout.length) :
    (vout.set n txout).rdropWhile CTxOut.isNull = vout.set n txout := by
  rw [List.rdropWhile_eq_self_iff] at htrimmed ⊢
  intro hne
  have hlast := htrimmed (List.ne_nil_of_length_pos (by omega))
  rw [List.getLast_eq_getElem] at hlast ⊢
  rw [List.getElem_set_ne (by rw [List.length_set]; omega)]
  simpa only [List.length_set] using hlast

/-- The outputs that are left when one is spent, with this one put back. -/
theorem Stored.vout_putBack (h : coins.Stored) {n : ℕ} {txout : CTxOut}
    (hget : coins.vout[n]? = some txout) :
    (let vout := (coins.vout.set n CTxOut.null).rdropWhile CTxOut.isNull
    (vout ++ List.replicate (n + 1 - vout.length) CTxOut.null).set n txout) = coins.vout := by
  obtain ⟨hlt, hget⟩ := List.getElem?_eq_some_iff.mp hget
  have hset : (coins.vout.set n CTxOut.null).set n txout = coins.vout := by
    rw [List.set_set, ← hget, List.set_getElem_self]
  dsimp only
  by_cases hlast : n + 1 = coins.vout.length
  · have hnull : ∀ o ∈ coins.vout.set n CTxOut.null, o.isNull = true → o = .null := by
      intro o hmem ho
      rcases List.mem_or_eq_of_mem_set hmem with hmem | rfl
      · exact h.null o hmem ho
      · rfl
    have hback := rdropWhile_isNull_append hnull
    rw [List.length_set, ← hlast] at hback
    rw [hback, hset]
  · have htrimmed : coins.vout.rdropWhile CTxOut.isNull = coins.vout :=
      congrArg CCoins.vout h.trimmed
    rw [rdropWhile_set _ htrimmed (by omega), List.length_set,
      Nat.sub_eq_zero_of_le (by omega), List.replicate_zero, List.append_nil, hset]

theorem Stored.putBack {coins' : CCoins} (h : coins.Stored) {n : UInt32} {txout : CTxOut}
    (hget : coins.vout[n.toNat]? = some txout)
    (hvout : coins'.vout = (coins.vout.set n.toNat CTxOut.null).rdropWhile CTxOut.isNull)
    (hmeta : { coins' with vout := coins.vout } = coins) : coins'.putBack n txout = .ok coins := by
  have hlt := (List.getElem?_eq_some_iff.mp hget).1
  have hadd : (n + 1).toNat = n.toNat + 1 := by
    have := h.size
    rw [UInt32.toNat_add, show (1 : UInt32).toNat = 1 from rfl, Nat.mod_eq_of_lt (by omega)]
  have hback := h.vout_putBack hget
  dsimp only at hback
  rw [← hvout] at hback
  unfold CCoins.putBack
  rw [hadd]
  dsimp only
  rw [if_pos, hback, hmeta]
  rw [← List.length_set (i := n.toNat) (a := txout), hback]
  exact hlt

/-- What is left of coins, and the output that was spent. -/
theorem spend_cases {n : ℕ} (h : coins.spend n = some (left, undo)) :
    coins.vout[n]? = some undo.txout ∧ undo.txout.isNull = false ∧
      left = cleanup { coins with vout := coins.vout.set n CTxOut.null } ∧
      undo = if left.vout.length = 0 then
        ⟨undo.txout, coins.fCoinBase, coins.nHeight, coins.nVersion⟩
        else CTxInUndo.ofTxOut undo.txout := by
  unfold spend at h
  split at h
  · cases h
  · rename_i txout hget
    split at h
    · cases h
    · rename_i hnull
      cases h
      have htxout : ∀ c : Prop, [Decidable c] → (if c then
          (⟨txout, coins.fCoinBase, coins.nHeight, coins.nVersion⟩ : CTxInUndo)
          else CTxInUndo.ofTxOut txout).txout = txout := by
        intro c _
        split
        · rfl
        · rfl
      rw [htxout]
      exact ⟨hget, Bool.eq_false_iff.mpr hnull, rfl, rfl⟩

/-- What is left of stored coins is stored, unless all are spent. -/
theorem Stored.spend (h : coins.Stored) {n : ℕ} (hspend : coins.spend n = some (left, undo)) :
    left.Stored := by
  obtain ⟨-, -, rfl, -⟩ := spend_cases hspend
  refine ⟨h.height, ?_, cleanup_cleanup _, fun o hmem ho => ?_⟩
  · have hle := (List.rdropWhile_prefix CTxOut.isNull (coins.vout.set n CTxOut.null)).length_le
    rw [List.length_set] at hle
    exact hle.trans_lt h.size
  · have hsub := (List.rdropWhile_prefix CTxOut.isNull (coins.vout.set n CTxOut.null)).subset hmem
    rcases List.mem_or_eq_of_mem_set hsub with hmem | rfl
    · exact h.null o hmem ho
    · rfl

end CCoins

/-! ## Views that are the same -/

namespace FlatView

/-- The coins of a transaction, unless all of them are spent. -/
def unspent (view : FlatView) (txid : UInt256) : Option CCoins :=
  (view.coins txid).filter fun coins => !coins.isPruned

def SameCoins (view view' : FlatView) : Prop := ∀ txid, view.unspent txid = view'.unspent txid

/-- Views with the same unspent coins and the same best block. -/
structure Same (view view' : FlatView) : Prop where
  best : view.best = view'.best
  coins : view.SameCoins view'

/-- Unspent coins are stored as they should be. -/
def Stored (view : FlatView) : Prop :=
  ∀ txid coins, view.unspent txid = some coins → coins.Stored

variable {view view' v v' : FlatView} {o : COutPoint} {txid : UInt256} {coins : CCoins}
  {undo : CTxInUndo}

theorem same_equivalence : Equivalence Same where
  refl _ := ⟨rfl, fun _ => rfl⟩
  symm h := ⟨h.best.symm, fun txid => (h.coins txid).symm⟩
  trans h h' := ⟨h.best.trans h'.best, fun txid => (h.coins txid).trans (h'.coins txid)⟩

theorem SameCoins.stored (h : view.SameCoins view') (hview : view.Stored) : view'.Stored :=
  fun txid coins hcoins => hview txid coins ((h txid).trans hcoins)

theorem unspent_eq_some : view.unspent txid = some coins ↔
    view.coins txid = some coins ∧ coins.isPruned = false := by
  unfold unspent
  rw [Option.filter_eq_some_iff]
  simp

theorem unspent_setCoins (view : FlatView) (txid : UInt256) (coins : CCoins) :
    (view.setCoins txid coins).unspent = Function.update view.unspent txid
      (if coins.isPruned then none else some coins) := by
  funext hash
  unfold unspent setCoins
  dsimp only
  by_cases h : hash = txid
  · rw [h, Function.update_self, Function.update_self]
    cases hpruned : coins.isPruned with
    | true => simp [Option.filter, hpruned]
    | false => simp [Option.filter, hpruned]
  · rw [Function.update_of_ne h, Function.update_of_ne h]

theorem SameCoins.setCoins (h : view.SameCoins view') (txid : UInt256) (coins : CCoins) :
    (view.setCoins txid coins).SameCoins (view'.setCoins txid coins) := by
  intro hash
  rw [unspent_setCoins, unspent_setCoins, funext h]

theorem Stored.setCoins (h : view.Stored) (hcoins : coins.isPruned = false → coins.Stored)
    (txid : UInt256) : (view.setCoins txid coins).Stored := by
  intro hash coins' h'
  rw [unspent_setCoins] at h'
  by_cases heq : hash = txid
  · rw [heq, Function.update_self] at h'
    split at h'
    · cases h'
    · cases h'
      exact hcoins (Bool.eq_false_iff.mpr ‹_›)
  · rw [Function.update_of_ne heq] at h'
    exact h hash coins' h'

/-- An output that is available is one of unspent coins. -/
theorem unspent_of_output {txout : CTxOut} (h : coins.output o.n.toNat = some txout)
    (hcoins : view.coins o.hash = some coins) : view.unspent o.hash = some coins := by
  rw [unspent_eq_some]
  obtain ⟨hget, hnull⟩ := CCoins.output_eq_some.mp h
  refine ⟨hcoins, Bool.eq_false_iff.mpr fun hpruned => ?_⟩
  have := List.all_eq_true.mp hpruned _ (List.mem_of_getElem? hget)
  rw [hnull] at this
  cases this

/-- A coin that is spent, and what is left in the view. -/
theorem spendCoins_cases (h : view.spendCoins o = .ok (view', undo)) : ∃ coins left,
    view.unspent o.hash = some coins ∧ coins.spend o.n.toNat = some (left, undo) ∧
      view' = view.setCoins o.hash left := by
  unfold spendCoins at h
  split at h
  · cases h
  · rename_i left undo' hspend
    cases h
    obtain ⟨coins, hcoins, hspend⟩ := Option.bind_eq_some_iff.mp hspend
    obtain ⟨hget, hnull, -⟩ := CCoins.spend_cases hspend
    exact ⟨coins, left, unspent_of_output (CCoins.output_eq_some.mpr ⟨hget, hnull⟩) hcoins, hspend,
      rfl⟩

theorem Stored.spendCoins (h : view.Stored) (hspend : view.spendCoins o = .ok (view', undo)) :
    view'.Stored := by
  obtain ⟨coins, left, hcoins, hleft, rfl⟩ := spendCoins_cases hspend
  exact h.setCoins (fun _ => (h _ _ hcoins).spend hleft) _

theorem isPruned_of_unspent (h : view.unspent txid = none) :
    ((view.coins txid).getD .empty).isPruned = true := by
  cases hcoins : view.coins txid with
  | none => rfl
  | some coins =>
    by_contra hpruned
    rw [unspent_eq_some.mpr ⟨hcoins, Bool.eq_false_iff.mpr hpruned⟩] at h
    cases h

/-- What was spent is put back, and nothing else is changed. -/
theorem Stored.undoInput (h : view.Stored) (hspend : view.spendCoins o = .ok (view', undo))
    (hsame : view'.SameCoins v') : ∃ v, Ticoin.undoInput (v', true) (o, undo) = .ok (v, true) ∧
      view.SameCoins v := by
  obtain ⟨coins, left, hcoins, hleft, rfl⟩ := spendCoins_cases hspend
  have hstored := h _ _ hcoins
  obtain ⟨hget, hnull, hvout, hundo⟩ := CCoins.spend_cases hleft
  have hnow : v'.unspent o.hash = if left.isPruned then none else some left := by
    rw [← hsame, unspent_setCoins, Function.update_self]
  have hback : ∀ v, v = v'.setCoins o.hash coins → view.SameCoins v := by
    rintro v rfl
    refine fun hash => ?_
    rw [unspent_setCoins, ← funext hsame, unspent_setCoins, Function.update_idem]
    by_cases heq : hash = o.hash
    · rw [heq, Function.update_self, (unspent_eq_some.mp hcoins).2, hcoins]
      rfl
    · rw [Function.update_of_ne heq]
  refine ⟨_, ?_, hback _ rfl⟩
  unfold Ticoin.undoInput
  dsimp only
  cases hpruned : left.isPruned with
  | true =>
    rw [hpruned, if_pos rfl] at hnow
    have hempty : left.vout = [] := by
      rw [hvout, CCoins.isPruned_cleanup_iff] at hpruned
      rw [hvout, hpruned]
    rw [hempty, if_pos List.length_nil] at hundo
    have hput : CCoins.putBack ⟨undo.fCoinBase, [], undo.nHeight, undo.nVersion⟩ o.n undo.txout =
        .ok coins := by
      refine hstored.putBack hget ?_ ?_
      · rw [hvout] at hempty
        exact hempty.symm
      · rw [hundo]
    have hheight : undo.nHeight ≠ 0 := by
      rw [hundo]
      exact hstored.height
    rw [if_pos hheight, isPruned_of_unspent hnow]
    dsimp only
    rw [hput]
    rfl
  | false =>
    rw [hpruned, if_neg (by decide)] at hnow
    have hne : left.vout.length ≠ 0 := by
      intro hzero
      unfold CCoins.isPruned at hpruned
      rw [List.length_eq_zero_iff.mp hzero] at hpruned
      cases hpruned
    rw [if_neg hne] at hundo
    have hput : left.putBack o.n undo.txout = .ok coins :=
      hstored.putBack hget (congrArg CCoins.vout hvout) (by rw [hvout]; rfl)
    have havailable : left.isAvailable o.n.toNat = false := by
      refine Bool.eq_false_iff.mpr fun havailable => ?_
      obtain ⟨txout, htxout⟩ := CCoins.isAvailable_iff.mp havailable
      rw [CCoins.output_spend hleft, if_pos rfl] at htxout
      cases htxout
    have hheight : ¬undo.nHeight ≠ 0 := by
      rw [hundo]
      exact not_not.mpr rfl
    rw [if_neg hheight, (unspent_eq_some.mp hnow).1, Option.getD_some]
    dsimp only
    rw [hpruned, havailable, hput]
    rfl

/-- Inputs that were spent are put back in reverse order. -/
theorem Stored.undoInputs : ∀ {vin : List CTxIn} {view view' : FlatView}
    {vprevout : List CTxInUndo}, view.Stored → spendInputs vin view = .ok (view', vprevout) →
    view'.Stored ∧ vprevout.length = vin.length ∧ ∀ v', view'.SameCoins v' →
      ∃ v, ((vin.map CTxIn.prevout).zip vprevout).reverse.foldlM Ticoin.undoInput (v', true) =
        .ok (v, true) ∧ view.SameCoins v
  | [], view, view', vprevout, h, hspend => by
    cases hspend
    exact ⟨h, rfl, fun v' hsame => ⟨v', rfl, hsame⟩⟩
  | txin :: vin, view, view', vprevout, h, hspend => by
    obtain ⟨⟨view₁, undo⟩, hspend₁, hspend⟩ := Outcome.bind_eq_ok.mp hspend
    obtain ⟨⟨view₂, rest⟩, hrest, heq⟩ := Outcome.bind_eq_ok.mp hspend
    cases heq
    obtain ⟨hstored, hlen, hundo⟩ := (h.spendCoins hspend₁).undoInputs hrest
    refine ⟨hstored, congrArg (· + 1) hlen, fun v' hsame => ?_⟩
    obtain ⟨v₁, hfold, hsame₁⟩ := hundo v' hsame
    obtain ⟨v, hlast, hsame⟩ := h.undoInput hspend₁ hsame₁
    refine ⟨v, ?_, hsame⟩
    rw [List.map_cons, List.zip_cons_cons, List.reverse_cons, List.foldlM_append, hfold]
    change (Ticoin.undoInput (v₁, true) (txin.prevout, undo) >>= fun r => _) = _
    rw [hlast]
    rfl

/-- A transaction that has no unspent coins gets none by spending. -/
theorem unspent_spendInputs : ∀ {vin : List CTxIn}
    {view view' : FlatView} {vprevout : List CTxInUndo}, view.unspent txid = none →
    spendInputs vin view = .ok (view', vprevout) → view'.unspent txid = none
  | [], view, view', vprevout, hnew, hspend => by
    cases hspend
    exact hnew
  | txin :: vin, view, view', vprevout, hnew, hspend => by
    obtain ⟨⟨view₁, undo⟩, hspend₁, hspend⟩ := Outcome.bind_eq_ok.mp hspend
    obtain ⟨⟨view₂, rest⟩, hrest, heq⟩ := Outcome.bind_eq_ok.mp hspend
    cases heq
    refine unspent_spendInputs ?_ hrest
    obtain ⟨coins, left, hcoins, hleft, rfl⟩ := spendCoins_cases hspend₁
    have hne : txid ≠ txin.prevout.hash := by
      rintro rfl
      rw [hcoins] at hnew
      cases hnew
    rw [unspent_setCoins, Function.update_of_ne hne, hnew]

end FlatView

/-! ## Outputs that are removed -/

namespace CCoins

variable {coins : CCoins} {tx : CTransaction} {nHeight : ℤ}

theorem isPruned_clearUnspendable (h : coins.isPruned = true) :
    coins.clearUnspendable.isPruned = true := by
  unfold clearUnspendable
  rw [isPruned_cleanup]
  unfold isPruned at h ⊢
  rw [List.all_map, List.all_eq_true]
  intro txout hmem
  dsimp only [Function.comp_apply]
  split
  · rfl
  · exact List.all_eq_true.mp h txout hmem

theorem clearUnspendable_ofTx (tx : CTransaction) (nHeight : ℤ) :
    (ofTx tx nHeight).clearUnspendable = ofTx tx nHeight := by
  set clear : CTxOut → CTxOut := fun txout =>
    if isUnspendable txout.scriptPubKey then CTxOut.null else txout with hclear
  have hidem : ∀ txout, clear (clear txout) = clear txout := by
    intro txout
    by_cases h : isUnspendable txout.scriptPubKey
    · simp [hclear, h]
    · simp [hclear, h]
  have hfixed : ((tx.vout.map clear).rdropWhile CTxOut.isNull).map clear =
      (tx.vout.map clear).rdropWhile CTxOut.isNull := by
    refine (List.map_congr_left fun txout hmem => ?_).trans (List.map_id _)
    obtain ⟨o, -, rfl⟩ := List.mem_map.mp ((List.rdropWhile_prefix CTxOut.isNull _).subset hmem)
    exact hidem o
  have hcleanup := cleanup_cleanup ⟨tx.isCoinBase, tx.vout.map clear, nHeight, tx.nVersion⟩
  change cleanup ⟨tx.isCoinBase, ((tx.vout.map clear).rdropWhile CTxOut.isNull).map clear, nHeight,
    tx.nVersion⟩ = _
  rw [hfixed]
  exact hcleanup

/-- The coins of a transaction that was checked. -/
theorem stored_ofTx (htx : CheckedTransaction tx) (hheight : nHeight ≠ 0) :
    (ofTx tx nHeight).Stored := by
  refine ⟨hheight, ?_, cleanup_cleanup _, fun txout hmem hnull => ?_⟩
  · have hle := (List.rdropWhile_prefix CTxOut.isNull (tx.vout.map fun txout =>
      if isUnspendable txout.scriptPubKey then CTxOut.null else txout)).length_le
    rw [List.length_map] at hle
    have hsize := (CTransaction.sized (htx.size.trans (by decide))).vout
    exact (hle.trans hsize).trans_lt (by decide)
  · have hsub := (List.rdropWhile_prefix CTxOut.isNull _).subset hmem
    obtain ⟨o, ho, rfl⟩ := List.mem_map.mp hsub
    by_cases hspendable : isUnspendable o.scriptPubKey
    · rw [if_pos hspendable]
    · rw [if_neg hspendable] at hnull
      have hrange := (htx.value o ho).1
      rw [beq_iff_eq.mp (show (o.nValue == -1) = true from hnull)] at hrange
      exact absurd hrange (by decide)

end CCoins

namespace FlatView

variable {view view' v v' : FlatView} {tx : CTransaction} {txid : UInt256} {nHeight : ℤ}

/-- The outputs of a transaction are removed as they were added, if there were none before. -/
theorem SameCoins.removeOutputs (hnew : view.unspent txid = none)
    (hsame : (view.setCoins txid (.ofTx tx nHeight)).SameCoins v') :
    ∃ v, Ticoin.removeOutputs nHeight (v', true) tx txid = (v, true) ∧ view.SameCoins v := by
  have hnow : v'.unspent txid =
      if (CCoins.ofTx tx nHeight).isPruned then none else some (.ofTx tx nHeight) := by
    rw [← hsame, unspent_setCoins, Function.update_self]
  have hview : ∀ coins : CCoins, coins.isPruned = true →
      view.SameCoins (v'.setCoins txid coins) := by
    intro coins hpruned
    refine fun hash => ?_
    rw [unspent_setCoins, ← funext hsame, unspent_setCoins, Function.update_idem,
      if_pos hpruned, ← hnew, Function.update_eq_self]
  refine ⟨_, Prod.ext rfl ?_, ?_⟩
  · change (true && CCoins.eqv _ _) = true
    rw [Bool.true_and]
    unfold CCoins.eqv
    cases hpruned : (CCoins.ofTx tx nHeight).isPruned with
    | true =>
      rw [hpruned, if_pos rfl] at hnow
      have houts := CCoins.isPruned_clearUnspendable (isPruned_of_unspent hnow)
      split
      · change (((v'.coins txid).getD .empty).clearUnspendable.isPruned && true || _) = true
        rw [houts]
        rfl
      · rw [houts]
        rfl
    | false =>
      rw [hpruned, if_neg (by decide)] at hnow
      rw [(unspent_eq_some.mp hnow).1, Option.getD_some, CCoins.clearUnspendable_ofTx, ite_self,
        beq_self_eq_true, Bool.or_true]
  · change view.SameCoins (if (v'.coins txid).isSome then _ else _)
    split
    · exact hview _ rfl
    · rename_i hnone
      refine fun hash => ?_
      by_cases heq : hash = txid
      · rw [heq, hnew, FlatView.unspent, Option.not_isSome_iff_eq_none.mp hnone]
        rfl
      · rw [← hsame, unspent_setCoins, Function.update_of_ne heq]

/-- A transaction that was added is taken back. -/
theorem Stored.disconnectTx {H : Bytes → UInt256} (h : view.Stored) (htx : CheckedTransaction tx)
    (hheight : nHeight ≠ 0) (hnew : view.unspent (tx.getHash H) = none) {vprevout : List CTxInUndo}
    (hupdate : view.updateCoins tx nHeight (tx.getHash H) = .ok (view', vprevout)) :
    view'.Stored ∧ ∀ v', view'.SameCoins v' → ∃ v, Ticoin.disconnectTx H nHeight (v', true)
      (tx, if tx.isCoinBase then none else some vprevout) = .ok (v, true) ∧ view.SameCoins v := by
  unfold updateCoins at hupdate
  cases hcb : tx.isCoinBase with
  | true =>
    rw [hcb] at hupdate
    cases hupdate
    refine ⟨h.setCoins (fun _ => CCoins.stored_ofTx htx hheight) _, fun v' hsame => ?_⟩
    obtain ⟨v, hremove, hsame⟩ := hsame.removeOutputs hnew
    exact ⟨v, congrArg _ hremove, hsame⟩
  | false =>
    rw [hcb] at hupdate
    obtain ⟨⟨view₁, vprevout⟩, hspend, heq⟩ := Outcome.bind_eq_ok.mp hupdate
    cases heq
    obtain ⟨hstored, hlen, hundo⟩ := h.undoInputs hspend
    refine ⟨hstored.setCoins (fun _ => CCoins.stored_ofTx htx hheight) _, fun v' hsame => ?_⟩
    obtain ⟨v₁, hremove, hsame₁⟩ := hsame.removeOutputs (unspent_spendInputs hnew hspend)
    obtain ⟨v, hfold, hsame⟩ := hundo v₁ hsame₁
    refine ⟨v, ?_, hsame⟩
    unfold Ticoin.disconnectTx
    dsimp only
    rw [hremove, if_neg (by decide)]
    dsimp only
    rw [hfold, hlen]
    unfold stopIf
    rw [if_neg (not_not.mpr rfl)]
    rfl

/-- A transaction gives other transactions no coins. -/
theorem unspent_updateCoins {vprevout : List CTxInUndo} {txhash : UInt256}
    (hnew : view.unspent txid = none) (hne : txid ≠ txhash)
    (hupdate : view.updateCoins tx nHeight txhash = .ok (view', vprevout)) :
    view'.unspent txid = none := by
  unfold updateCoins at hupdate
  cases hcb : tx.isCoinBase with
  | true =>
    rw [hcb] at hupdate
    cases hupdate
    rw [unspent_setCoins, Function.update_of_ne hne, hnew]
  | false =>
    rw [hcb] at hupdate
    obtain ⟨⟨view₁, undo⟩, hspend, heq⟩ := Outcome.bind_eq_ok.mp hupdate
    cases heq
    rw [unspent_setCoins, Function.update_of_ne hne, unspent_spendInputs hnew hspend]

end FlatView

/-! ## What connecting does -/

section

variable {H : Bytes → UInt256} {env : ConnectEnv} {cf : ConnectFlags} {s s' : Connecting}
  {tx : CTransaction}

/-- A transaction that is no coinbase pays what is left of its inputs. -/
structure PaysFee (env : ConnectEnv) (cf : ConnectFlags) (view : FlatView) (tx : CTransaction)
    (nFee : ℤ) : Prop where
  haveInputs : view.haveInputs tx = true
  amounts : ∃ nValueIn nValueOut, view.getValueIn tx = .ok nValueIn ∧
    tx.valueOut = .ok nValueOut ∧ nFee = nValueIn - nValueOut
  checked : ∃ checks, checkInputs env view tx cf.fScriptChecks cf.flags
    (env.nScriptCheckThreads ≠ 0) = .ok checks

theorem connectInputs_cases (h : connectInputs env cf s tx = .ok s') : ∃ nFee,
    PaysFee env cf s.view tx nFee ∧ s'.nFees = s.nFees + nFee ∧ s'.view = s.view ∧
      s'.vtxundo = s.vtxundo := by
  unfold connectInputs at h
  obtain ⟨hinputs, h⟩ := bind_stopIf_eq_ok.mp h
  obtain ⟨nSigOps, -, h⟩ := Outcome.bind_eq_ok.mp h
  obtain ⟨nValueIn, hin, h⟩ := Outcome.bind_eq_ok.mp h
  obtain ⟨nValueOut, hout, h⟩ := Outcome.bind_eq_ok.mp h
  obtain ⟨checks, hchecks, h⟩ := Outcome.bind_eq_ok.mp h
  cases h
  exact ⟨_, ⟨by simpa using hinputs, ⟨_, _, hin, hout, rfl⟩, ⟨_, hchecks⟩⟩, rfl, rfl, rfl⟩

/-- What connecting a transaction does. -/
theorem connectTx_cases (h : connectTx H env cf s tx = .ok s') : ∃ nFee txundo,
    (tx.isCoinBase = true ∧ nFee = 0 ∨ tx.isCoinBase = false ∧ PaysFee env cf s.view tx nFee) ∧
    s'.nFees = s.nFees + nFee ∧
    s.view.updateCoins tx cf.nHeight (tx.getHash H) = .ok (s'.view, txundo) ∧
    s'.vtxundo = if tx.isCoinBase then s.vtxundo else s.vtxundo ++ [txundo] := by
  unfold connectTx at h
  obtain ⟨nSigOps, -, h⟩ := Outcome.bind_eq_ok.mp h
  cases hcb : tx.isCoinBase with
  | true =>
    rw [hcb] at h
    obtain ⟨s₁, hs₁, h⟩ := Outcome.bind_eq_ok.mp h
    cases hs₁
    obtain ⟨⟨view, txundo⟩, hupdate, h⟩ := Outcome.bind_eq_ok.mp h
    cases h
    exact ⟨0, txundo, .inl ⟨rfl, rfl⟩, (add_zero _).symm, hupdate, rfl⟩
  | false =>
    rw [hcb] at h
    obtain ⟨s₁, hs₁, h⟩ := Outcome.bind_eq_ok.mp h
    obtain ⟨⟨view, txundo⟩, hupdate, h⟩ := Outcome.bind_eq_ok.mp h
    cases h
    obtain ⟨nFee, hfee, hfees, hview, hundo⟩ := connectInputs_cases hs₁
    refine ⟨nFee, txundo, .inr ⟨rfl, hfee⟩, hfees, ?_, ?_⟩
    · rw [← hupdate, hview]
    · dsimp only
      rw [hundo]

/-- What connecting a block does, if it is not the genesis block and not only checked. -/
theorem connectBlock_eq_ok {block : CBlock} {pindex : CBlockIndex} {view view' : FlatView}
    {vtxundo : List (List CTxInUndo)} (hgenesis : block.getHash H ≠ env.params.hashGenesisBlock) :
    connectBlock H env block pindex view false = .ok (view', vtxundo) ↔
    checkBlock H env.params env.nAdjustedTime block true true = .ok () ∧
    (pindex.pprev.map fun pprev => pprev.entry.phashBlock).getD (some 0) = some view.best ∧
    checkOverwrites H block pindex view = .ok () ∧ env.written = true ∧
    ∃ s hash, block.vtx.foldlM (connectTx H env (connectFlags env block pindex))
        ⟨view, 0, 0, [], []⟩ = .ok s ∧
      connectEnd env block pindex s = .ok () ∧ pindex.entry.phashBlock = some hash ∧
      view' = { s.view with best := hash } ∧ vtxundo = s.vtxundo := by
  unfold connectBlock
  constructor
  · intro h
    obtain ⟨⟨⟩, hcheck, h⟩ := Outcome.bind_eq_ok.mp h
    obtain ⟨hbest, h⟩ := bind_stopIf_eq_ok.mp h
    rw [if_neg hgenesis] at h
    obtain ⟨⟨⟩, hoverwrites, h⟩ := Outcome.bind_eq_ok.mp h
    obtain ⟨s, hloop, h⟩ := Outcome.bind_eq_ok.mp h
    obtain ⟨⟨⟩, hend, h⟩ := Outcome.bind_eq_ok.mp h
    rw [if_neg (by decide)] at h
    split at h
    · cases h
    rename_i hwritten
    split at h
    · cases h
    rename_i hash hphash
    cases h
    exact ⟨hcheck, not_not.mp hbest, hoverwrites, by simpa using hwritten, s, hash, hloop, hend,
      hphash, rfl, rfl⟩
  · rintro ⟨hcheck, hbest, hoverwrites, hwritten, s, hash, hloop, hend, hphash, rfl, rfl⟩
    refine Outcome.bind_eq_ok.mpr ⟨(), hcheck, bind_stopIf_eq_ok.mpr ⟨not_not.mpr hbest, ?_⟩⟩
    rw [if_neg hgenesis, hoverwrites, hphash, hwritten]
    refine Outcome.bind_eq_ok.mpr ⟨(), rfl, Outcome.bind_eq_ok.mpr ⟨s, hloop,
      Outcome.bind_eq_ok.mpr ⟨(), hend, ?_⟩⟩⟩
    rfl

end

/-! ## Disconnecting what was connected -/

section

variable {H : Bytes → UInt256} {env : ConnectEnv} {cf : ConnectFlags}

/-- Transactions that were connected are taken back in reverse order. -/
theorem disconnectTxs_connectTxs (hheight : (cf.nHeight : ℤ) ≠ 0) : ∀ {vtx : List CTransaction}
    {s s' : Connecting}, vtx.foldlM (connectTx H env cf) s = .ok s' → s.view.Stored →
    (∀ tx ∈ vtx, CheckedTransaction tx ∧ s.view.unspent (tx.getHash H) = none) →
    (vtx.map (CTransaction.getHash H)).Nodup → (∀ tx ∈ vtx, tx.isCoinBase = false) →
    s'.view.Stored ∧ ∃ vtxundo, s'.vtxundo = s.vtxundo ++ vtxundo ∧
      vtxundo.length = vtx.length ∧ ∀ v', s'.view.SameCoins v' → ∃ v,
        (vtx.zip (vtxundo.map some)).reverse.foldlM (disconnectTx H cf.nHeight) (v', true) =
          .ok (v, true) ∧ s.view.SameCoins v
  | [], s, s', hloop, hstored, _, _, _ => by
    cases hloop
    exact ⟨hstored, [], (List.append_nil _).symm, rfl, fun v' hsame => ⟨v', rfl, hsame⟩⟩
  | tx :: vtx, s, s', hloop, hstored, hvtx, hnodup, hcb => by
    rw [List.foldlM_cons] at hloop
    obtain ⟨s₁, hconnect, hloop⟩ := Outcome.bind_eq_ok.mp hloop
    rw [List.forall_mem_cons] at hvtx hcb
    rw [List.map_cons, List.nodup_cons] at hnodup
    obtain ⟨-, txundo, -, -, hupdate, htxundo⟩ := connectTx_cases hconnect
    obtain ⟨hstored₁, hundo₁⟩ := hstored.disconnectTx hvtx.1.1 hheight hvtx.1.2 hupdate
    have hvtx₁ : ∀ tx' ∈ vtx, CheckedTransaction tx' ∧ s₁.view.unspent (tx'.getHash H) = none := by
      intro tx' hmem
      refine ⟨(hvtx.2 tx' hmem).1, FlatView.unspent_updateCoins (hvtx.2 tx' hmem).2 ?_ hupdate⟩
      intro heq
      exact hnodup.1 (heq ▸ List.mem_map_of_mem hmem)
    obtain ⟨hstored', vtxundo, hvtxundo, hlen, hundo⟩ :=
      disconnectTxs_connectTxs hheight hloop hstored₁ hvtx₁ hnodup.2 hcb.2
    refine ⟨hstored', txundo :: vtxundo, ?_, congrArg (· + 1) hlen, fun v' hsame => ?_⟩
    · rw [hvtxundo, htxundo, hcb.1, if_neg (by decide), List.append_assoc, List.singleton_append]
    · obtain ⟨v₁, hfold, hsame₁⟩ := hundo v' hsame
      obtain ⟨v, hlast, hsame⟩ := hundo₁ v₁ hsame₁
      rw [hcb.1, if_neg (by decide)] at hlast
      refine ⟨v, ?_, hsame⟩
      rw [List.map_cons, List.zip_cons_cons, List.reverse_cons, List.foldlM_append, hfold]
      change (disconnectTx H cf.nHeight (v₁, true) (tx, some txundo) >>= fun r => _) = _
      rw [hlast]
      rfl

/-- A block that is not exempt overwrites no unspent coins. -/
theorem unspent_of_checkOverwrites {block : CBlock} {pindex : CBlockIndex} {view : FlatView}
    (hexempt : pindex.entry.phashBlock.any (isBIP30Exempt pindex.nHeight) = false)
    (h : checkOverwrites H block pindex view = .ok ()) :
    ∀ tx ∈ block.vtx, view.unspent (tx.getHash H) = none := by
  intro tx hmem
  have hnot := stopIf_eq_ok.mp h
  rw [hexempt] at hnot
  by_contra hsome
  obtain ⟨coins, hcoins⟩ := Option.ne_none_iff_exists'.mp hsome
  obtain ⟨hget, hpruned⟩ := FlatView.unspent_eq_some.mp hcoins
  refine hnot ⟨by decide, tx, hmem, ?_⟩
  rw [hget, Option.any_some, hpruned]
  rfl

/-- A block of a chain : its entry has a height and knows the hash. Neither is it the genesis block
nor one of those that may overwrite unspent coins. -/
structure ChainBlock (H : Bytes → UInt256) (params : ChainParams) (block : CBlock)
    (pindex : CBlockIndex) : Prop where
  pprev : pindex.pprev.isSome
  phashBlock : pindex.entry.phashBlock = some (block.getHash H)
  notGenesis : block.getHash H ≠ params.hashGenesisBlock
  notExempt : isBIP30Exempt pindex.nHeight (block.getHash H) = false

theorem ChainBlock.nHeight_ne_zero {params : ChainParams} {block : CBlock} {pindex : CBlockIndex}
    (h : ChainBlock H params block pindex) : (pindex.nHeight : ℤ) ≠ 0 := by
  have hpprev := h.pprev
  cases pindex with
  | root e => cases hpprev
  | child p e => exact Int.natCast_ne_zero.mpr (Nat.succ_ne_zero _)

/-- A block that was connected to a view can be disconnected from one that is the same as what was
left. -/
theorem disconnectBlock_of_connectBlock {block : CBlock} {pindex : CBlockIndex}
    {view view' : FlatView} {vtxundo : List (List CTxInUndo)} (hview : view.Stored)
    (hblock : ChainBlock H env.params block pindex)
    (h : connectBlock H env block pindex view false = .ok (view', vtxundo)) :
    view'.Stored ∧ ∀ v', view'.Same v' → ∃ v,
      disconnectBlock H block pindex (some vtxundo) v' = .ok (v, true) ∧ view.Same v := by
  obtain ⟨hcheck, hbest, hoverwrites, -, s, hash, hloop, -, hphash, rfl, rfl⟩ :=
    (connectBlock_eq_ok hblock.notGenesis).mp h
  replace hcheck := checkBlock_eq_ok hcheck
  obtain ⟨txNew, vtx, hvtx, hcb, hrest⟩ := hcheck.coinbase
  have hexempt : pindex.entry.phashBlock.any (isBIP30Exempt pindex.nHeight) = false := by
    rw [hblock.phashBlock, Option.any_some, hblock.notExempt]
  have hnew := unspent_of_checkOverwrites hexempt hoverwrites
  have hchecked := hcheck.vtx
  have hnodup := hcheck.txids
  have hheight : ((connectFlags env block pindex).nHeight : ℤ) ≠ 0 := hblock.nHeight_ne_zero
  rw [hvtx, List.forall_mem_cons] at hnew hchecked
  rw [hvtx, List.map_cons, List.nodup_cons] at hnodup
  rw [hvtx, List.foldlM_cons] at hloop
  obtain ⟨s₁, hconnect, hloop⟩ := Outcome.bind_eq_ok.mp hloop
  obtain ⟨-, txundo, -, -, hupdate, htxundo⟩ := connectTx_cases hconnect
  obtain ⟨hstored₁, hundo₁⟩ := hview.disconnectTx hchecked.1 hheight hnew.1 hupdate
  have hvtx₁ : ∀ tx ∈ vtx, CheckedTransaction tx ∧ s₁.view.unspent (tx.getHash H) = none := by
    intro tx hmem
    refine ⟨hchecked.2 tx hmem, FlatView.unspent_updateCoins (hnew.2 tx hmem) ?_ hupdate⟩
    intro heq
    exact hnodup.1 (heq ▸ List.mem_map_of_mem hmem)
  obtain ⟨hstored, vtxundo, hvtxundo, hlen, hundo⟩ :=
    disconnectTxs_connectTxs hheight hloop hstored₁ hvtx₁ hnodup.2 hrest
  rw [htxundo, hcb, if_pos rfl, List.nil_append] at hvtxundo
  refine ⟨hstored, fun v' hsame => ?_⟩
  obtain ⟨v₁, hfold, hsame₁⟩ := hundo v' hsame.coins
  obtain ⟨v, hlast, hsame'⟩ := hundo₁ v₁ hsame₁
  rw [hcb, if_pos rfl] at hlast
  have hall : ((txNew :: vtx).zip (none :: vtxundo.map some)).reverse.foldlM
      (disconnectTx H pindex.nHeight) (v', true) = .ok (v, true) := by
    rw [List.zip_cons_cons, List.reverse_cons, List.foldlM_append]
    refine Outcome.bind_eq_ok.mpr ⟨_, hfold, ?_⟩
    rw [List.foldlM_cons]
    exact Outcome.bind_eq_ok.mpr ⟨_, hlast, rfl⟩
  obtain ⟨pprev, hpprev⟩ := Option.isSome_iff_exists.mp hblock.pprev
  rw [hpprev, Option.map_some, Option.getD_some] at hbest
  have hhash : pindex.entry.phashBlock = some v'.best := by
    rw [hphash]
    exact congrArg some hsame.best
  refine ⟨{ v with best := view.best }, ?_, rfl, hsame'⟩
  unfold disconnectBlock
  dsimp only
  rw [hvtxundo, hvtx, hall, hpprev, Option.bind_some, hbest, hhash]
  refine bind_stopIf_eq_ok.mpr ⟨not_not.mpr rfl, bind_stopIf_eq_ok.mpr ⟨?_, rfl⟩⟩
  rw [hlen, not_not]
  rfl

end

/-! ## A block on the genesis -/

def firstBlock : CBlock := sampleBlock (chainParams .regTest).hashGenesisBlock 2 1

def firstIndex : CBlockIndex :=
  .child (.root sampleGenesis) ⟨1, some 2, 1, 1, 2, 0x207fffff, 0, 1, 1⟩

def connectEnv : ConnectEnv where
  params := chainParams .regTest
  checkpoints := []
  nAdjustedTime := 10
  mapBlockIndex := ∅
  verifyScript _ := false
  nScriptCheckThreads := 0
  written := true

theorem firstBlock_getHash : firstBlock.getHash nonceHash = 2 := by decide

theorem firstBlock_chainBlock :
    ChainBlock nonceHash (chainParams .regTest) firstBlock firstIndex where
  pprev := rfl
  phashBlock := by
    rw [firstBlock_getHash]
    rfl
  notGenesis := by
    rw [firstBlock_getHash]
    decide
  notExempt := by
    rw [firstBlock_getHash]
    decide

def genesisView : FlatView := ⟨fun _ => none, (chainParams .regTest).hashGenesisBlock⟩

/-- The view with the coinbase of the block. -/
def withFirst (view : FlatView) : FlatView :=
  { view.setCoins (sampleCoinbase.getHash nonceHash) (.ofTx sampleCoinbase 1) with best := 2 }

/-- And without it. -/
def withoutFirst (view : FlatView) : FlatView :=
  { view.setCoins (sampleCoinbase.getHash nonceHash) .empty with best := genesisView.best }

theorem connectBlock_firstBlock {view : FlatView} (hbest : view.best = genesisView.best)
    (hnew : (view.coins (sampleCoinbase.getHash nonceHash)).any (!·.isPruned) = false) :
    connectBlock nonceHash connectEnv firstBlock firstIndex view false =
      .ok (withFirst view, []) := by
  have hcheck : checkBlock nonceHash (chainParams .regTest) 10 firstBlock true true = .ok () :=
    sampleBlocks_relayed.checkBlock firstBlock List.mem_cons_self
  have hsigops : addSigOps 0 (getLegacySigOpCount sampleCoinbase) =
      .ok (0 + getLegacySigOpCount sampleCoinbase) :=
    addSigOps_eq_ok (by with_unfolding_all decide)
  refine (connectBlock_eq_ok firstBlock_chainBlock.notGenesis).mpr ⟨hcheck, ?_, ?_, rfl,
    ⟨{ withFirst view with best := view.best }, 0, 0 + getLegacySigOpCount sampleCoinbase, [], []⟩,
    2, ?_, ?_, rfl, rfl, rfl⟩
  · rw [hbest]
    rfl
  · refine stopIf_eq_ok.mpr fun hover => ?_
    obtain ⟨tx, hmem, htx⟩ := hover.2
    rw [List.mem_singleton.mp hmem, hnew] at htx
    cases htx
  · change (connectTx nonceHash connectEnv _ ⟨view, 0, 0, [], []⟩ sampleCoinbase >>= pure) = _
    unfold connectTx
    rw [hsigops]
    rfl
  · rfl

/-- What disconnecting the block leaves. -/
theorem disconnectBlock_firstBlock (view : FlatView) :
    disconnectBlock nonceHash firstBlock firstIndex (some []) (withFirst view) =
      .ok (withoutFirst (withFirst view), true) := by
  rfl

end Ticoin
