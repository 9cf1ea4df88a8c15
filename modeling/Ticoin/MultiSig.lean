import Ticoin.Interpreter
import Ticoin.Lib.Greedy

/-!
# script.cpp : the signatures of `OP_CHECKMULTISIG`

The opcode finds the keys, the signatures and one more element below their counts on the stack, and
tries the keys one after the other for the signature it is at. The keys and the signatures are read
at two places of the stack that move at different speeds (`checkKeys_eq`).

It succeeds if and only if the signatures are matched in order with keys that they check against
(`checkMultiSig_matches`) : `Lib.Greedy` says why the first key that fits may be taken.
-/

namespace Ticoin

open Codec EvalScript

/-! ## Reading the stack -/

theorem stacktop_of_drop {stack rest : Stack} {vch : Bytes} {i : ℕ}
    (h : stack.drop i = vch :: rest) : stacktop stack (i + 1) = .ok vch := by
  have hget : stack[i]? = some vch := by rw [← List.head?_drop, h, List.head?_cons]
  rw [stacktop, hget]

theorem drop_succ {stack rest : Stack} {vch : Bytes} {i : ℕ} (h : stack.drop i = vch :: rest) :
    stack.drop (i + 1) = rest := by
  rw [← List.drop_drop, h, List.drop_succ_cons, List.drop_zero]

theorem popstackN_eq : ∀ {i : ℕ} {stack : Stack}, i ≤ stack.length →
    popstackN i stack = .ok (stack.drop i)
  | 0, _, _ => rfl
  | _ + 1, [], h => absurd h (Nat.not_succ_le_zero _)
  | i + 1, _ :: stack, h => by
    change popstackN i stack = _
    rw [popstackN_eq (Nat.succ_le_succ_iff.mp h), List.drop_succ_cons]

theorem need_of_le {n : ℕ} {stack : Stack} (h : n ≤ stack.length) : need n stack = .ok () :=
  if_neg (not_lt.mpr h)

/-- A number on the stack that is in range. -/
theorem countAt_eq {stack rest : Stack} {vch : Bytes} {i n nMax : ℕ}
    (h : stack.drop i = vch :: rest) (hn : CScriptNum.ofVch vch = .ok (n : ℤ)) (hle : n ≤ nMax)
    (hmax : nMax < 2 ^ 31) : countAt stack (i + 1) nMax = .ok n := by
  have hlen : i + 1 ≤ stack.length := by
    have hdrop := congrArg List.length h
    rw [List.length_drop, List.length_cons] at hdrop
    omega
  have hint : CScriptNum.getint (n : ℤ) = n := by
    rw [CScriptNum.getint]
    omega
  have hrange : ¬((n : ℤ) < 0 ∨ (n : ℤ) > nMax) := by omega
  rw [countAt, need_of_le hlen, stacktop_of_drop h]
  simp only [bind, Except.bind, hn, hint, if_neg hrange]
  rw [Int.toNat_natCast]
  rfl

/-! ## The loops -/

section

variable {check : SigCheck → Eval Bool} {stack : Stack} {scriptCode : Bytes}

/-- The loop succeeds if and only if the signatures are matched with the keys. -/
theorem checkKeys_eq {rel : Bytes → Bytes → Bool} : ∀ {keys sigs rest rest' : Stack} {isig ikey : ℕ},
    (∀ sig ∈ sigs, ∀ key ∈ keys, check ⟨sig, key, scriptCode⟩ = .ok (rel sig key)) →
    sigs.length ≤ keys.length → stack.drop isig = sigs ++ rest → stack.drop ikey = keys ++ rest' →
    ∃ fSuccess, (checkKeys check stack scriptCode keys.length sigs.length (isig + 1) (ikey + 1)).1 =
      .ok fSuccess ∧
      (fSuccess = true ↔ List.SublistForall₂ (fun sig key => rel sig key = true) sigs keys)
  | keys, [], _, _, _, _, _, _, _, _ => ⟨true, by rw [List.length_nil, checkKeys], by
    exact iff_of_true rfl .nil⟩
  | [], _ :: _, _, _, _, _, _, hle, _, _ => absurd hle (Nat.not_succ_le_zero _)
  | key :: keys, sig :: sigs, rest, rest', isig, ikey, hcheck, hle, hsigs, hkeys => by
    have hfOk := hcheck sig List.mem_cons_self key List.mem_cons_self
    have hrest := fun sig' hsig' key' (hkey' : key' ∈ keys) =>
      hcheck sig' hsig' key' (List.mem_cons_of_mem key hkey')
    rw [List.length_cons, List.length_cons, checkKeys, stacktop_of_drop hsigs, stacktop_of_drop hkeys]
    change ∃ fSuccess, (andThen (check ⟨sig, key, scriptCode⟩) _).1 = _ ∧ _
    rw [hfOk]
    dsimp only [andThen]
    cases hrel : rel sig key with
    | true =>
      rw [if_pos rfl, if_pos rfl, if_neg (not_lt.mpr (Nat.succ_le_succ_iff.mp hle)),
        Greedy.cons_iff_of_rel (R := fun sig key => rel sig key = true) hrel]
      exact checkKeys_eq (fun sig' hsig' => hrest sig' (List.mem_cons_of_mem sig hsig'))
        (Nat.succ_le_succ_iff.mp hle) (drop_succ hsigs) (drop_succ hkeys)
    | false =>
      rw [if_neg Bool.false_ne_true, if_neg Bool.false_ne_true,
        Greedy.cons_iff_of_not_rel (R := fun sig key => rel sig key = true)
          (by rw [hrel]; exact Bool.false_ne_true)]
      by_cases hleft : sigs.length + 1 > keys.length
      · rw [if_pos hleft]
        exact ⟨false, rfl, iff_of_false Bool.false_ne_true fun h =>
          absurd (Greedy.length_le h) (not_le.mpr hleft)⟩
      · rw [if_neg hleft]
        exact checkKeys_eq hrest (not_lt.mp hleft) hsigs (drop_succ hkeys)

/-- The script less the signatures. -/
def dropSignatures (sigs : Stack) (scriptCode : Bytes) : Bytes :=
  sigs.foldl (fun scriptCode vchSig => (findAndDelete scriptCode (pushVector vchSig)).1) scriptCode

theorem deleteSigs_eq {rest : Stack} : ∀ {sigs : Stack} {isig : ℕ} (scriptCode : Bytes),
    stack.drop isig = sigs ++ rest →
    deleteSigs stack (isig + 1) sigs.length scriptCode = .ok (dropSignatures sigs scriptCode)
  | [], _, _, _ => rfl
  | sig :: sigs, isig, scriptCode, h => by
    have hnext := deleteSigs_eq (findAndDelete scriptCode (pushVector sig)).1 (drop_succ h)
    rw [deleteSigs] at hnext ⊢
    rw [List.length_cons, List.range_succ_eq_map, List.foldlM_cons, Nat.add_zero,
      stacktop_of_drop h]
    change List.foldlM _ (findAndDelete scriptCode (pushVector sig)).1 _ = _
    rw [List.foldlM_map]
    refine Eq.trans ?_ hnext
    congr 1
    funext code k
    rw [show isig + 1 + k.succ = isig + 1 + 1 + k by omega]

end

/-! ## The opcode -/

section

variable {check : SigCheck → Eval Bool} {st : EvalState}

/-- The opcode on a stack with its operands. -/
theorem opCheckMultiSig_eq (rel : Bytes → Bytes → Bool) {vchN vchM dummy : Bytes}
    {keys sigs rest : Stack} (hstack : st.stack = vchN :: (keys ++ vchM :: (sigs ++ dummy :: rest)))
    (hN : CScriptNum.ofVch vchN = .ok (keys.length : ℤ))
    (hM : CScriptNum.ofVch vchM = .ok (sigs.length : ℤ))
    (hkeys : keys.length ≤ 20) (hsigs : sigs.length ≤ keys.length)
    (hops : st.nOpCount + keys.length ≤ 201)
    (hcheck : ∀ sig ∈ sigs, ∀ key ∈ keys,
      check ⟨sig, key, dropSignatures sigs st.pbegincodehash⟩ = .ok (rel sig key))
    (fVerify : Bool) :
    ∃ fSuccess, (fSuccess = true ↔ List.SublistForall₂ (fun sig key => rel sig key = true) sigs keys) ∧
      (opCheckMultiSig check fVerify st).1 = (verify fVerify fSuccess (boolVch fSuccess :: rest)).map
        fun stack => { st with nOpCount := st.nOpCount + keys.length, stack := stack } := by
  have hdropKeys : st.stack.drop 1 = keys ++ vchM :: (sigs ++ dummy :: rest) := by
    rw [hstack, List.drop_succ_cons, List.drop_zero]
  have hdropM : st.stack.drop (1 + keys.length) = vchM :: (sigs ++ dummy :: rest) := by
    rw [← List.drop_drop, hdropKeys, List.drop_left]
  have hdropSigs : st.stack.drop (2 + keys.length) = sigs ++ dummy :: rest := by
    rw [← drop_succ hdropM, Nat.add_right_comm]
  have hdropRest : st.stack.drop (3 + keys.length + sigs.length) = rest := by
    rw [show 3 + keys.length + sigs.length = 2 + keys.length + (sigs.length + 1) by omega,
      ← List.drop_drop, hdropSigs, ← List.drop_drop, List.drop_left]
    rfl
  have hlen : 3 + keys.length + sigs.length ≤ st.stack.length := by
    rw [hstack]
    simp only [List.length_cons, List.length_append]
    omega
  have hkeysCount := countAt_eq (show st.stack.drop 0 = vchN :: _ from hstack) hN hkeys (by decide)
  have hsigsCount := countAt_eq hdropM hM hsigs (by omega)
  obtain ⟨fSuccess, hloop, hiff⟩ := checkKeys_eq hcheck hsigs hdropSigs hdropKeys
  refine ⟨fSuccess, hiff, ?_⟩
  have hdelete := deleteSigs_eq st.pbegincodehash hdropSigs
  rw [show 2 + keys.length + 1 = 3 + keys.length by omega] at hdelete hloop
  rw [show 1 + keys.length + 1 = 2 + keys.length by omega] at hsigsCount
  rw [opCheckMultiSig, hkeysCount]
  change (andThen (if st.nOpCount + keys.length > 201 then _ else _) _).1 = _
  rw [if_neg (not_lt.mpr hops), hsigsCount]
  change (andThen (need _ _ >>= fun _ => _) _).1 = _
  rw [need_of_le hlen]
  change (andThen (deleteSigs _ _ _ _ >>= fun _ => _) _).1 = _
  rw [hdelete]
  change ((checkKeys _ _ _ _ _ _ _).1 >>= fun fSuccess => _) = _
  simp only [hloop, bind, Except.bind, onStack, popstackN_eq hlen, hdropRest]
  cases verify fVerify fSuccess (boolVch fSuccess :: rest) <;> rfl

end

/-- `OP_CHECKMULTISIG` takes the counts, the keys, the signatures and one more element from the
stack, and pushes whether the signatures are matched in order with keys that they check against. -/
theorem checkMultiSig_matches (checkSig : SigCheck → Bool) (flags : UInt32) (hashes : ScriptHashes)
    (fExec : Bool) (pc : Bytes) (st : EvalState) (vchN vchM dummy : Bytes) (keys sigs rest : Stack)
    (hstack : st.stack = vchN :: (keys ++ vchM :: (sigs ++ dummy :: rest)))
    (hN : CScriptNum.ofVch vchN = .ok (keys.length : ℤ))
    (hM : CScriptNum.ofVch vchM = .ok (sigs.length : ℤ))
    (hkeys : keys.length ≤ 20) (hsigs : sigs.length ≤ keys.length)
    (hops : st.nOpCount + keys.length ≤ 201)
    (hcanonical : ∀ sig ∈ sigs, checkSignatureEncoding sig flags = some true ∧
      ∀ key ∈ keys, isCanonical flags ⟨sig, key, dropSignatures sigs st.pbegincodehash⟩ = some true) :
    ∃ fSuccess : Bool,
      (fSuccess = true ↔ Greedy.Matches (fun sig key =>
        checkSig ⟨sig, key, dropSignatures sigs st.pbegincodehash⟩ = true) sigs keys) ∧
      (execOp (checkSignature checkSig flags) hashes fExec OP_CHECKMULTISIG pc st).1 =
        .ok { st with nOpCount := st.nOpCount + keys.length, stack := boolVch fSuccess :: rest } ∧
      (execOp (checkSignature checkSig flags) hashes fExec OP_CHECKMULTISIGVERIFY pc st).1 =
        if fSuccess then .ok { st with nOpCount := st.nOpCount + keys.length, stack := rest }
        else .error .returnFalse := by
  have hcheck : ∀ sig ∈ sigs, ∀ key ∈ keys,
      checkSignature checkSig flags ⟨sig, key, dropSignatures sigs st.pbegincodehash⟩ =
        .ok (checkSig ⟨sig, key, dropSignatures sigs st.pbegincodehash⟩) := by
    intro sig hsig key hkey
    obtain ⟨hencoding, hcanonical⟩ := hcanonical sig hsig
    rw [checkSignature, hencoding, hcanonical key hkey]
    rfl
  have hop := opCheckMultiSig_eq (fun sig key => checkSig ⟨sig, key, _⟩) hstack hN hM hkeys
    hsigs hops hcheck
  obtain ⟨fSuccess, hiff, hplain⟩ := hop false
  obtain ⟨fSuccess', hiff', hverify⟩ := hop true
  obtain rfl : fSuccess' = fSuccess := Bool.eq_iff_iff.mpr (hiff'.trans hiff.symm)
  refine ⟨fSuccess', hiff.trans Greedy.matches_iff.symm, hplain, ?_⟩
  change (opCheckMultiSig _ true st).1 = _
  rw [hverify]
  cases fSuccess' <;> rfl

/-- One signature, which checks against the second of two keys. -/
theorem checkMultiSig_matches_second :
    (execOp (checkSignature (fun c => c.vchSig == c.vchPubKey) 0) lengthHashes true
        OP_CHECKMULTISIG [] ⟨[[2], [7], [9], [1], [9], [], [5]], [], [], 1, []⟩).1 =
      .ok ⟨[vchTrue, [5]], [], [], 3, []⟩ := by
  obtain ⟨fSuccess, hiff, hop, -⟩ := checkMultiSig_matches (fun c => c.vchSig == c.vchPubKey) 0
    lengthHashes true [] ⟨[[2], [7], [9], [1], [9], [], [5]], [], [], 1, []⟩ [2] [1] [] [[7], [9]]
    [[9]] [[5]] rfl rfl rfl (by decide) (by decide) (by decide) (by decide)
  rw [hop, hiff.mpr (Greedy.matches_iff.mpr (.cons_right (.cons rfl .nil)))]
  rfl

end Ticoin
