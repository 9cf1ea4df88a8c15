import Ticoin.Lib.Choice
import Ticoin.SignRawTransaction

/-!
# Signatures that are merged into an input

`CombineMultisig` gives out signatures in the order of their bytes, which is as if each key in turn
chose the least one that is left (`take_keptSigs`). So merging one script after the other is a
choice from all signatures at once (`finalScript_eq`), and the script in the end is verified if and
only if as many are chosen as are required and all are accepted, in order
(`verifies_paddedScript`).

The loop signs and merges safely if and only if the variants have the inputs that it reads of them,
and of inputs for which enough keys signed what is chosen is accepted (`mergesSafely_iff`). It is if
`CheckSig` accepts no more than the last verification (`SpendsMultisig.picks`). But the flags of
the two are not the same, so of two signatures by one key one may be chosen that is refused.
-/

namespace Ticoin

open Codec EvalScript

/-! ## The choice of a combination -/

/-- The signatures of a stack in the order of the set, less the placeholders. -/
def sortedSigs (sigs : List Bytes) : List Bytes := (allSigs sigs []).toList

/-- What the keys choose of some signatures. -/
def pickSigs (checkSig : SigCheck → Bool) (scriptPubKey : Bytes) (m : ℕ)
    (pubkeys sigs : List Bytes) : List Bytes :=
  Choice.chosen (fun key sig => checkSig ⟨sig, key, scriptPubKey⟩) m pubkeys (sortedSigs sigs)

section

variable {checkSig : SigCheck → Bool} {scriptPubKey : Bytes} {m : ℕ} {pubkeys sigs : List Bytes}

theorem mem_sortedSigs {v : Bytes} : v ∈ sortedSigs sigs ↔ v ∈ sigs ∧ v ≠ [] := by
  unfold sortedSigs
  rw [mem_allSigs, List.append_nil]

theorem ordered_sortedSigs (sigs : List Bytes) :
    (sortedSigs sigs).Pairwise fun v w => compare v w = .lt := by
  unfold sortedSigs
  exact Std.ExtTreeSet.ordered_toList

theorem nodup_sortedSigs (sigs : List Bytes) : (sortedSigs sigs).Nodup :=
  (ordered_sortedSigs sigs).imp fun {v w} hlt heq => by
    rw [heq, @Std.ReflCmp.compare_self Bytes compare] at hlt
    cases hlt

/-- The order of some is that among more. -/
theorem sortedSigs_sublist {sigs sigs' : List Bytes} (h : ∀ v ∈ sigs, v ≠ [] → v ∈ sigs') :
    (sortedSigs sigs).Sublist (sortedSigs sigs') := by
  have hantisymm : Std.Antisymm fun v w : Bytes => compare v w = .lt := ⟨fun v w hvw hwv => by
    rw [@Std.OrientedCmp.eq_swap Bytes compare, hwv] at hvw
    cases hvw⟩
  refine List.sublist_of_subperm_of_pairwise (List.subperm_of_subset (nodup_sortedSigs sigs)
    fun v hv => ?_) (ordered_sortedSigs sigs) (ordered_sortedSigs sigs')
  obtain ⟨hmem, hne⟩ := mem_sortedSigs.mp hv
  exact mem_sortedSigs.mpr ⟨h v hmem hne, hne⟩

/-- Signatures are given to keys as to those that choose. -/
theorem getElem?_matchSig (sigs : Std.ExtTreeMap Bytes Bytes) (sig : Bytes) :
    ((matchSig checkSig scriptPubKey pubkeys sigs sig)[·]? : Bytes → Option Bytes) =
      Choice.assign (fun key sig => checkSig ⟨sig, key, scriptPubKey⟩) pubkeys (sigs[·]?) sig := by
  have hfind : (pubkeys.find? fun pubkey =>
      !sigs.contains pubkey && checkSig ⟨sig, pubkey, scriptPubKey⟩) =
        pubkeys.find? fun pubkey => (sigs[pubkey]?).isNone &&
          checkSig ⟨sig, pubkey, scriptPubKey⟩ :=
    List.find?_congr fun pubkey _ => by
      rw [Std.ExtTreeMap.contains_eq_isSome_getElem?, Option.not_isSome]
  unfold matchSig Choice.assign
  dsimp only
  rw [hfind]
  cases pubkeys.find? fun pubkey =>
    (sigs[pubkey]?).isNone && checkSig ⟨sig, pubkey, scriptPubKey⟩ with
  | none => rfl
  | some pubkey =>
    ext1 key
    dsimp only
    rw [Std.ExtTreeMap.getElem?_insert, Function.update_apply]
    exact if_congr (Std.LawfulEqOrd.compare_eq_iff_eq.trans eq_comm) rfl rfl

theorem getElem?_foldl_matchSig : ∀ (l : List Bytes) (sigs : Std.ExtTreeMap Bytes Bytes),
    ((l.foldl (matchSig checkSig scriptPubKey pubkeys) sigs)[·]? : Bytes → Option Bytes) =
      l.foldl (Choice.assign (fun key sig => checkSig ⟨sig, key, scriptPubKey⟩) pubkeys) (sigs[·]?)
  | [], _ => rfl
  | sig :: l, sigs => by
    rw [List.foldl_cons, List.foldl_cons, getElem?_foldl_matchSig l, getElem?_matchSig]

/-- The signatures that are kept are those that the keys choose. -/
theorem take_keptSigs (hdistinct : pubkeys.Nodup) (m : ℕ) (sigs1 sigs2 : List Bytes) :
    (keptSigs checkSig scriptPubKey pubkeys sigs1 sigs2).take m =
      pickSigs checkSig scriptPubKey m pubkeys (sigs1 ++ sigs2) := by
  have hsorted : (allSigs sigs1 sigs2).toList = sortedSigs (sigs1 ++ sigs2) := by
    unfold sortedSigs allSigs
    rw [List.append_nil]
  have hempty : ((∅ : Std.ExtTreeMap Bytes Bytes)[·]? : Bytes → Option Bytes) = fun _ => none := by
    ext1 key
    exact Std.ExtTreeMap.getElem?_empty
  unfold keptSigs matchSigs pickSigs
  rw [getElem?_foldl_matchSig, hsorted, hempty]
  exact Choice.take_filterMap_assign hdistinct m _

theorem mem_of_mem_pickSigs {sig : Bytes}
    (h : sig ∈ pickSigs checkSig scriptPubKey m pubkeys sigs) : sig ∈ sigs ∧ sig ≠ [] :=
  mem_sortedSigs.mp (Choice.chosen_subset h)

theorem length_pickSigs_le : (pickSigs checkSig scriptPubKey m pubkeys sigs).length ≤ m :=
  Choice.length_chosen_le

/-- What was not picked of some signatures is not missed when others are added. -/
theorem pickSigs_merge {done : List Bytes} (more : List Bytes)
    (hkept : ∀ sig ∈ pickSigs checkSig scriptPubKey m pubkeys done, sig ∈ sigs)
    (hdone : ∀ sig ∈ sigs, sig ≠ [] → sig ∈ done) :
    pickSigs checkSig scriptPubKey m pubkeys (sigs ++ more) =
      pickSigs checkSig scriptPubKey m pubkeys (done ++ more) := by
  have hsub : (sortedSigs done).Sublist (sortedSigs (done ++ more)) :=
    sortedSigs_sublist fun v hv _ => List.mem_append_left _ hv
  refine Choice.chosen_merge hsub (sortedSigs_sublist fun v hv hne => ?_) (nodup_sortedSigs _)
    (fun v hv => ?_) fun v hv hnew => ?_
  · rcases List.mem_append.mp hv with hv | hv
    · exact List.mem_append_left _ (hdone v hv hne)
    · exact List.mem_append_right _ hv
  · exact mem_sortedSigs.mpr
      ⟨List.mem_append_left _ (hkept v hv), (mem_of_mem_pickSigs hv).2⟩
  · obtain ⟨hmem, hne⟩ := mem_sortedSigs.mp hv
    rcases List.mem_append.mp hmem with hmem | hmem
    · exact absurd (mem_sortedSigs.mpr ⟨hmem, hne⟩) hnew
    · exact mem_sortedSigs.mpr ⟨List.mem_append_right _ hmem, hne⟩

end

/-! ## Scripts of signatures -/

/-- Signatures with placeholders for those that are missing. -/
def paddedScript (m : ℕ) (sigs : List Bytes) : Bytes :=
  pushAll ([] :: (sigs ++ List.replicate (m - sigs.length) []))

theorem pushAll_replicate (k : ℕ) : pushAll (List.replicate k []) = List.replicate k OP_0 := by
  unfold pushAll
  induction k with
  | zero => rfl
  | succ k ih =>
    rw [List.replicate_succ, List.flatMap_cons, ih, pushOp_nil, List.replicate_succ]
    rfl

theorem paddedScript_eq (m : ℕ) (sigs : List Bytes) : paddedScript m sigs =
    pushAll ([] :: sigs) ++ List.replicate (m - sigs.length) OP_0 := by
  have happend : ∀ vs ws, pushAll (vs ++ ws) = pushAll vs ++ pushAll ws := fun vs ws =>
    List.flatMap_append
  rw [paddedScript, ← List.cons_append, happend, pushAll_replicate]

theorem combineMultisig_pickSigs {checkSig : SigCheck → Bool} {scriptPubKey : Bytes} {m n : UInt8}
    {pubkeys sigs1 sigs2 : List Bytes} (hdistinct : pubkeys.Nodup) :
    combineMultisig checkSig scriptPubKey ([m] :: (pubkeys ++ [[n]])) sigs1 sigs2 =
      some (paddedScript m.toNat
        (pickSigs checkSig scriptPubKey m.toNat pubkeys (sigs1 ++ sigs2))) := by
  have hlength : m.toNat - (keptSigs checkSig scriptPubKey pubkeys sigs1 sigs2).length =
      m.toNat - ((keptSigs checkSig scriptPubKey pubkeys sigs1 sigs2).take m.toNat).length := by
    rw [List.length_take]
    omega
  rw [combineMultisig_eq, hlength, take_keptSigs hdistinct, paddedScript_eq]

/-- A script of signatures leaves them on the stack. -/
theorem evalScript_paddedScript (check : SigCheck → Eval Bool) (hashes : ScriptHashes) {m : ℕ}
    {sigs : List Bytes} (hm : m ≤ 16) (hle : sigs.length ≤ m)
    (hsize : ∀ sig ∈ sigs, sig.length ≤ MAX_SCRIPT_ELEMENT_SIZE) :
    (evalScript check hashes [] (paddedScript m sigs)).1 =
      .ok ([] :: (sigs ++ List.replicate (m - sigs.length) [])).reverse := by
  have hsizes : ∀ v ∈ [] :: (sigs ++ List.replicate (m - sigs.length) []),
      v.length ≤ MAX_SCRIPT_ELEMENT_SIZE := by
    intro v hv
    rw [List.mem_cons, List.mem_append, List.mem_replicate] at hv
    rcases hv with rfl | hv | ⟨-, rfl⟩
    · exact Nat.zero_le _
    · exact hsize v hv
    · exact Nat.zero_le _
  have hcount : ([] :: (sigs ++ List.replicate (m - sigs.length) []) : List Bytes).length ≤ 17 := by
    rw [List.length_cons, List.length_append, List.length_replicate]
    omega
  have heval := @evalScript_pushes check hashes [] _ hsizes
    (by rw [List.length_nil]; omega) (length_pushVectors_le hsizes (by omega))
  rwa [List.append_nil] at heval

namespace SignEnv

variable {env : SignEnv} {tx : CTransaction} {others : List CTransaction} {i : ℕ}
  {scriptPubKey : Bytes} {m n : UInt8} {pubkeys sigs : List Bytes}

theorem length_le_of_mem_stackOf {scriptSig v : Bytes} (h : v ∈ env.stackOf scriptSig) :
    v.length ≤ MAX_SCRIPT_ELEMENT_SIZE := by
  unfold stackOf at h
  split at h
  · rename_i stack heval
    have hsmall := small_of_evalScript (Nat.zero_le _) (List.forall_mem_nil _) heval
    exact hsmall v (List.mem_reverse.mp h)
  · exact (env.leftover scriptSig).2 v (List.mem_reverse.mp h)

theorem stackOf_paddedScript {m : ℕ} (hm : m ≤ 16) (hle : sigs.length ≤ m)
    (hsize : ∀ sig ∈ sigs, sig.length ≤ MAX_SCRIPT_ELEMENT_SIZE) :
    env.stackOf (paddedScript m sigs) = [] :: (sigs ++ List.replicate (m - sigs.length) []) := by
  unfold stackOf
  rw [evalScript_paddedScript _ _ hm hle hsize]
  exact List.reverse_reverse _

/-! ## What is merged in the end -/

/-- The signatures that the keys choose for an input. -/
def pick (env : SignEnv) (tx : CTransaction) (i : ℕ) (scriptPubKey : Bytes) (m : UInt8)
    (pubkeys sigs : List Bytes) : List Bytes :=
  pickSigs (env.checkSigFor tx i) scriptPubKey m.toNat pubkeys sigs

theorem combineScripts_multisig
    (hsolver : solver scriptPubKey = some (true, .multisig, [m] :: (pubkeys ++ [[n]])))
    (hdistinct : pubkeys.Nodup) (scriptSig1 scriptSig2 : Bytes) :
    env.combineScripts tx i scriptPubKey scriptSig1 scriptSig2 =
      some (paddedScript m.toNat (env.pick tx i scriptPubKey m pubkeys
        (env.stackOf scriptSig1 ++ env.stackOf scriptSig2))) := by
  unfold combineScripts
  rw [hsolver]
  change combineSignatures _ _ .multisig _ _ _ = _
  rw [combineSignatures]
  exact combineMultisig_pickSigs hdistinct

/-- A stack has what is chosen of some signatures, and no others. -/
structure Carries (env : SignEnv) (tx : CTransaction) (i : ℕ) (scriptPubKey : Bytes) (m : UInt8)
    (pubkeys done stack : List Bytes) : Prop where
  kept : ∀ sig ∈ env.pick tx i scriptPubKey m pubkeys done, sig ∈ stack
  done : ∀ sig ∈ stack, sig ≠ [] → sig ∈ done

/-- Merging scripts one after the other is a choice from all their signatures. -/
theorem mergedScript_eq
    (hsolver : solver scriptPubKey = some (true, .multisig, [m] :: (pubkeys ++ [[n]])))
    (hdistinct : pubkeys.Nodup) (hm : m.toNat ≤ 16) : ∀ (scripts : List Bytes)
    (script : Bytes) {scriptSig : Bytes} {done : List Bytes},
    Carries env tx i scriptPubKey m pubkeys done (env.stackOf scriptSig) →
    (∀ sig ∈ done, sig.length ≤ MAX_SCRIPT_ELEMENT_SIZE) →
    env.mergedScript tx i scriptPubKey scriptSig (script :: scripts) =
      paddedScript m.toNat (env.pick tx i scriptPubKey m pubkeys
        (done ++ (script :: scripts).flatMap env.stackOf))
  | scripts, script, scriptSig, done, h, hsize => by
    have hstep : (env.combineScripts tx i scriptPubKey scriptSig script).getD [] =
        paddedScript m.toNat
          (env.pick tx i scriptPubKey m pubkeys (done ++ env.stackOf script)) := by
      rw [combineScripts_multisig hsolver hdistinct]
      exact congrArg (paddedScript m.toNat) (pickSigs_merge _ h.kept h.done)
    unfold mergedScript
    rw [List.foldl_cons, hstep]
    cases scripts with
    | nil => rw [List.foldl_nil, List.flatMap_cons, List.flatMap_nil, List.append_nil]
    | cons next scripts =>
      have hsize' : ∀ sig ∈ done ++ env.stackOf script, sig.length ≤ MAX_SCRIPT_ELEMENT_SIZE := by
        intro sig hsig
        rcases List.mem_append.mp hsig with hsig | hsig
        · exact hsize sig hsig
        · exact length_le_of_mem_stackOf hsig
      have hstack : env.stackOf (paddedScript m.toNat
          (env.pick tx i scriptPubKey m pubkeys (done ++ env.stackOf script))) = _ :=
        stackOf_paddedScript hm length_pickSigs_le fun sig hsig =>
          hsize' sig (mem_of_mem_pickSigs hsig).1
      have hcarries : Carries env tx i scriptPubKey m pubkeys (done ++ env.stackOf script)
          (env.stackOf (paddedScript m.toNat
            (env.pick tx i scriptPubKey m pubkeys (done ++ env.stackOf script)))) := by
        rw [hstack]
        refine ⟨fun sig hsig => List.mem_cons_of_mem _ (List.mem_append_left _ hsig),
          fun sig hsig hne => ?_⟩
        rw [List.mem_cons, List.mem_append, List.mem_replicate] at hsig
        rcases hsig with rfl | hsig | ⟨-, rfl⟩
        · exact absurd rfl hne
        · exact (mem_of_mem_pickSigs hsig).1
        · exact absurd rfl hne
      have hrest := mergedScript_eq hsolver hdistinct hm scripts next hcarries hsize'
      rw [List.append_assoc, ← List.flatMap_cons] at hrest
      exact hrest

/-- All signatures for an input : what the call signs, and what the variants have. -/
def candidates (env : SignEnv) (tx : CTransaction) (others : List CTransaction) (i : ℕ)
    (scriptPubKey : Bytes) : List Bytes :=
  env.stackOf (env.freshScript tx i scriptPubKey) ++
    (tx :: others).flatMap fun txv => env.stackOf (txv.scriptSigAt i)

theorem length_le_of_mem_candidates {v : Bytes} (h : v ∈ env.candidates tx others i scriptPubKey) :
    v.length ≤ MAX_SCRIPT_ELEMENT_SIZE := by
  rcases List.mem_append.mp h with h | h
  · exact length_le_of_mem_stackOf h
  · obtain ⟨txv, -, h⟩ := List.mem_flatMap.mp h
    exact length_le_of_mem_stackOf h

theorem finalScript_eq
    (hsolver : solver scriptPubKey = some (true, .multisig, [m] :: (pubkeys ++ [[n]])))
    (hdistinct : pubkeys.Nodup) (hm : m.toNat ≤ 16) :
    env.finalScript tx others i scriptPubKey = paddedScript m.toNat
      (env.pick tx i scriptPubKey m pubkeys (env.candidates tx others i scriptPubKey)) := by
  have hstart : Carries env tx i scriptPubKey m pubkeys
      (env.stackOf (env.freshScript tx i scriptPubKey))
      (env.stackOf (env.freshScript tx i scriptPubKey)) :=
    ⟨fun sig hsig => (mem_of_mem_pickSigs hsig).1, fun sig hsig _ => hsig⟩
  unfold finalScript
  rw [List.map_cons, mergedScript_eq hsolver hdistinct hm _ _ hstart fun sig hsig =>
    length_le_of_mem_stackOf hsig,
    ← List.map_cons (f := fun txv : CTransaction => txv.scriptSigAt i), List.flatMap_map]
  rfl

/-! ## The last verification -/

/-- A signature is accepted for a key by the last verification, over some code. -/
def accepts (env : SignEnv) (tx : CTransaction) (i : ℕ) (scriptCode sig key : Bytes) : Bool :=
  isCanonical verifyFlags ⟨sig, key, scriptCode⟩ == some true &&
    env.checkSigFor tx i ⟨sig, key, scriptCode⟩

theorem checkSignature_verifyFlags (c : SigCheck) :
    checkSignature (env.checkSigFor tx i) verifyFlags c =
      .ok (env.accepts tx i c.scriptCode c.vchSig c.vchPubKey) := by
  have hencoding : checkSignatureEncoding c.vchSig verifyFlags = some true := by
    unfold checkSignatureEncoding
    rw [show hasFlag verifyFlags SCRIPT_VERIFY_DERSIG = false from rfl]
    split <;> rfl
  obtain ⟨b, hb⟩ : ∃ b, isCanonical verifyFlags c = some b := by
    obtain ⟨fSig, hsig, -⟩ := isCanonicalSignature_decides c.vchSig verifyFlags
    obtain ⟨fKey, hkey⟩ := isCanonicalPubKey_eq_some c.vchPubKey verifyFlags
    unfold isCanonical
    rw [hsig]
    cases fSig with
    | false => exact ⟨false, rfl⟩
    | true => exact ⟨fKey, hkey⟩
  unfold checkSignature accepts
  rw [hencoding, hb]
  cases b with
  | false => rfl
  | true => exact congrArg Except.ok (Bool.true_and _).symm

/-- A placeholder is not accepted. -/
theorem accepts_nil (scriptCode key : Bytes) : env.accepts tx i scriptCode [] key = false := by
  have hcanonical : isCanonical verifyFlags ⟨[], key, scriptCode⟩ = some false := rfl
  unfold accepts
  rw [hcanonical]
  rfl

/-- Signatures are accepted, in the order of keys they are for, over the script without them. -/
def AllAccepted (env : SignEnv) (tx : CTransaction) (i : ℕ) (scriptPubKey : Bytes)
    (pubkeys sigs : List Bytes) : Prop :=
  List.SublistForall₂
    (fun sig key => env.accepts tx i (dropSignatures sigs.reverse scriptPubKey) sig key = true)
    sigs pubkeys

end SignEnv

theorem sublistForall₂_reverse {R : Bytes → Bytes → Prop} {l l' : List Bytes} :
    List.SublistForall₂ R l.reverse l'.reverse ↔ List.SublistForall₂ R l l' := by
  have hreverse : ∀ {l l' : List Bytes}, List.SublistForall₂ R l l' →
      List.SublistForall₂ R l.reverse l'.reverse := by
    intro l l' h
    obtain ⟨mid, hmid, hsub⟩ := List.sublistForall₂_iff.mp h
    exact List.sublistForall₂_iff.mpr ⟨mid.reverse, List.forall₂_reverse_iff.mpr hmid, hsub.reverse⟩
  refine ⟨fun h => ?_, hreverse⟩
  have h' := hreverse h
  rwa [List.reverse_reverse, List.reverse_reverse] at h'

/-- A script that ends with one element is verified if it is true. -/
theorem isSome_verifyScript {check : SigCheck → Eval Bool} {hashes : ScriptHashes} {flags : UInt32}
    {scriptSig scriptPubKey : Bytes} {stack : Stack} {b : Bool}
    (hsig : (evalScript check hashes [] scriptSig).1 = .ok stack)
    (heval : (evalScript check hashes stack scriptPubKey).1 = .ok [boolVch b])
    (hhash : isPayToScriptHash scriptPubKey = false) :
    (verifyScript check hashes flags scriptSig scriptPubKey).1.toOption.isSome = b := by
  cases b with
  | true =>
    rw [verifyScript_of_evalScript hsig heval rfl hhash]
    rfl
  | false =>
    have hneed : (evalScript check hashes stack scriptPubKey).1.bind needTrue =
        .error .returnFalse := by
      rw [heval]
      rfl
    unfold verifyScript
    dsimp only
    rw [hsig]
    dsimp only
    rw [hneed]
    rfl

namespace SignEnv

variable {env : SignEnv} {tx : CTransaction} {others : List CTransaction} {i : ℕ}
  {scriptPubKey : Bytes} {m n : UInt8} {pubkeys sigs : List Bytes}

/-- Signatures for a script are verified if and only if none is missing and all are accepted. -/
theorem verifies_paddedScript
    (hsolver : solver scriptPubKey = some (true, .multisig, [m] :: (pubkeys ++ [[n]])))
    (hle : sigs.length ≤ m.toNat) (hsize : ∀ sig ∈ sigs, sig.length ≤ MAX_SCRIPT_ELEMENT_SIZE) :
    env.verifies tx i (paddedScript m.toNat sigs) scriptPubKey = true ↔
      sigs.length = m.toNat ∧ env.AllAccepted tx i scriptPubKey pubkeys sigs := by
  obtain ⟨m', n', keys, hform, hcounts, hdata⟩ := multisig_of_solver hsolver
  simp only [List.cons.injEq, and_true] at hdata
  obtain ⟨rfl, hdata⟩ := hdata
  obtain ⟨rfl, -⟩ := List.append_inj' hdata rfl
  obtain ⟨-, hleKeys, hleSixteen⟩ := hcounts.le hform
  have hhash : isPayToScriptHash scriptPubKey = false := by
    by_contra hhash
    rw [Bool.not_eq_false] at hhash
    rw [solver, if_pos hhash] at hsolver
    cases hsolver
  generalize hfull : sigs ++ List.replicate (m.toNat - sigs.length) [] = full
  have hlength : full.length = m.toNat := by
    rw [← hfull, List.length_append, List.length_replicate]
    omega
  obtain ⟨fSuccess, hiff, heval⟩ := @evalScript_multisig_code
    (checkSignature (env.checkSigFor tx i) verifyFlags) env.hashes scriptPubKey [] m n' keys full
    (fun sig key => env.accepts tx i (dropSignatures full.reverse scriptPubKey) sig key) hform
    hcounts hlength fun sig _ key _ => checkSignature_verifyFlags _
  have hpushes := evalScript_paddedScript (checkSignature (env.checkSigFor tx i) verifyFlags)
    env.hashes (hleKeys.trans hleSixteen) hle hsize
  rw [hfull, List.reverse_cons] at hpushes
  unfold verifies
  rw [isSome_verifyScript hpushes heval hhash, hiff, sublistForall₂_reverse]
  constructor
  · intro hall
    have hmissing : sigs.length = m.toNat := by
      by_contra hne
      have hmem : ([] : Bytes) ∈ full := by
        rw [← hfull]
        exact List.mem_append_right _ (List.mem_replicate.mpr ⟨by omega, rfl⟩)
      obtain ⟨mid, hmid, -⟩ := List.sublistForall₂_iff.mp hall
      obtain ⟨j, hj, hget⟩ := List.mem_iff_getElem.mp hmem
      have haccepts := (List.forall₂_iff_get.mp hmid).2 j hj
        ((List.forall₂_iff_get.mp hmid).1 ▸ hj)
      rw [List.get_eq_getElem, hget, accepts_nil] at haccepts
      cases haccepts
    rw [hmissing, Nat.sub_self, List.replicate_zero, List.append_nil] at hfull
    exact ⟨hmissing, hfull ▸ hall⟩
  · rintro ⟨hmissing, hall⟩
    rw [hmissing, Nat.sub_self, List.replicate_zero, List.append_nil] at hfull
    exact hfull ▸ hall

/-! ## What the loop does -/

/-- An input spends a known script that requires signatures by `m` of some distinct keys. -/
structure SpendsMultisig (env : SignEnv) (tx : CTransaction) (i : ℕ) (scriptPubKey : Bytes)
    (m : UInt8) (pubkeys : List Bytes) : Prop where
  input : i < tx.vin.length
  spent : env.spent tx i = some scriptPubKey
  solved : ∃ n : UInt8, solver scriptPubKey = some (true, .multisig, [m] :: (pubkeys ++ [[n]]))
  distinct : pubkeys.Nodup

/-- The variants together have valid signatures for an input by as many keys as are required. -/
def HaveEnough (env : SignEnv) (tx : CTransaction) (others : List CTransaction) (i : ℕ)
    (scriptPubKey : Bytes) (m : UInt8) (pubkeys : List Bytes) : Prop :=
  m.toNat ≤ (pubkeys.filter fun key => (tx :: others).any fun txv =>
    (env.stackOf (txv.scriptSigAt i)).any fun sig => env.accepts tx i scriptPubKey sig key).length

/-- The loop reads the inputs of all variants in range and loses no signature, and reports that the
transaction is complete only if all its inputs are verified. -/
def MergesSafely (env : SignEnv) (tx : CTransaction) (others : List CTransaction) : Prop :=
  ∃ s, env.mergeVariants tx others = .ok s ∧
    (∀ i scriptPubKey m pubkeys, env.SpendsMultisig tx i scriptPubKey m pubkeys →
      env.HaveEnough tx others i scriptPubKey m pubkeys →
        env.verifies s.1 i (s.1.scriptSigAt i) scriptPubKey = true) ∧
    (s.2 = true → ∀ i < s.1.vin.length, ∃ scriptPubKey, env.spent s.1 i = some scriptPubKey ∧
      env.verifies s.1 i (s.1.scriptSigAt i) scriptPubKey = true)

/-- Of inputs for which enough keys signed, as many signatures as are required are picked, and all
are accepted : each key in turn picks the least one left that `CheckSig` accepts for it. -/
def PicksAccepted (env : SignEnv) (tx : CTransaction) (others : List CTransaction) : Prop :=
  ∀ i scriptPubKey m pubkeys, env.SpendsMultisig tx i scriptPubKey m pubkeys →
    env.HaveEnough tx others i scriptPubKey m pubkeys →
      (env.pick tx i scriptPubKey m pubkeys
        (env.candidates tx others i scriptPubKey)).length = m.toNat ∧
      env.AllAccepted tx i scriptPubKey pubkeys
        (env.pick tx i scriptPubKey m pubkeys (env.candidates tx others i scriptPubKey))

/-- The merged script of an input with several keys is verified if and only if what is picked is
accepted. -/
theorem MergedTo.verifies_iff {s : CTransaction × Bool}
    (h : env.MergedTo tx others tx.vin.length s)
    (hspends : env.SpendsMultisig tx i scriptPubKey m pubkeys) :
    env.verifies s.1 i (s.1.scriptSigAt i) scriptPubKey = true ↔
      (env.pick tx i scriptPubKey m pubkeys
        (env.candidates tx others i scriptPubKey)).length = m.toNat ∧
      env.AllAccepted tx i scriptPubKey pubkeys
        (env.pick tx i scriptPubKey m pubkeys (env.candidates tx others i scriptPubKey)) := by
  obtain ⟨hi, hspent, ⟨n, hsolver⟩, hdistinct⟩ := hspends
  have hm : m.toNat ≤ 16 := by
    obtain ⟨m', n', keys, hform, hcounts, hdata⟩ := multisig_of_solver hsolver
    simp only [List.cons.injEq, and_true] at hdata
    obtain ⟨rfl, -⟩ := hdata
    exact (hcounts.le hform).2.1.trans (hcounts.le hform).2.2
  rw [verifies_congr h.unsigned, h.merged i hi scriptPubKey hspent,
    finalScript_eq hsolver hdistinct hm]
  exact verifies_paddedScript hsolver length_pickSigs_le fun sig hsig =>
    length_le_of_mem_candidates (mem_of_mem_pickSigs hsig).1

/-- If `CheckSig` accepts only what the last verification does, and enough keys have a signature
that is valid for no other, what is picked is accepted. -/
theorem SpendsMultisig.picks (hspends : env.SpendsMultisig tx i scriptPubKey m pubkeys)
    {signers : List Bytes} (hsigners : signers.Sublist pubkeys) (henough : m.toNat ≤ signers.length)
    (hown : ∀ key ∈ signers, ∃ sig ∈ env.candidates tx others i scriptPubKey, sig ≠ [] ∧
      env.checkSigFor tx i ⟨sig, key, scriptPubKey⟩ = true ∧ ∀ key' ∈ pubkeys,
        env.checkSigFor tx i ⟨sig, key', scriptPubKey⟩ = true → key' = key)
    (hstrict : ∀ sig ∈ env.candidates tx others i scriptPubKey, ∀ key ∈ pubkeys,
      env.checkSigFor tx i ⟨sig, key, scriptPubKey⟩ = true →
        env.accepts tx i scriptPubKey sig key = true)
    (hpush : ∀ sig ∈ env.candidates tx others i scriptPubKey,
      (findAndDelete scriptPubKey (pushVector sig)).1 = scriptPubKey) :
    (env.pick tx i scriptPubKey m pubkeys
        (env.candidates tx others i scriptPubKey)).length = m.toNat ∧
      env.AllAccepted tx i scriptPubKey pubkeys
        (env.pick tx i scriptPubKey m pubkeys (env.candidates tx others i scriptPubKey)) := by
  have hlength : min m.toNat signers.length ≤ (env.pick tx i scriptPubKey m pubkeys
      (env.candidates tx others i scriptPubKey)).length := by
    refine Choice.min_le_length_chosen hspends.distinct hsigners fun key hkey => ?_
    obtain ⟨sig, hsig, hne, hcheck, hunique⟩ := hown key hkey
    exact ⟨sig, mem_sortedSigs.mpr ⟨hsig, hne⟩, hcheck, hunique⟩
  have hmem : ∀ sig ∈ env.pick tx i scriptPubKey m pubkeys
      (env.candidates tx others i scriptPubKey),
        sig ∈ env.candidates tx others i scriptPubKey :=
    fun sig hsig => (mem_of_mem_pickSigs hsig).1
  have hmatch : List.SublistForall₂
      (fun sig key => env.checkSigFor tx i ⟨sig, key, scriptPubKey⟩ = true)
      (env.pick tx i scriptPubKey m pubkeys (env.candidates tx others i scriptPubKey)) pubkeys :=
    Choice.sublistForall₂_chosen _ _ _
  refine ⟨le_antisymm length_pickSigs_le ((le_min le_rfl henough).trans hlength), ?_⟩
  unfold AllAccepted
  rw [dropSignatures_of_not_found fun sig hsig => hpush sig (hmem sig (List.mem_reverse.mp hsig))]
  obtain ⟨keys, hkeys, hsub⟩ := List.sublistForall₂_iff.mp hmatch
  refine List.sublistForall₂_iff.mpr ⟨keys, ?_, hsub⟩
  rw [List.forall₂_iff_get] at hkeys ⊢
  refine ⟨hkeys.1, fun j hsig hkey => ?_⟩
  exact hstrict _ (hmem _ (List.get_mem _ _)) _ (hsub.subset (List.get_mem _ _))
    (hkeys.2 j hsig hkey)

/-- The loop merges safely if and only if its reads are in range, and what is picked of the
signatures for an input that enough keys signed is accepted. -/
theorem mergesSafely_iff (env : SignEnv) (tx : CTransaction) (others : List CTransaction) :
    env.MergesSafely tx others ↔ env.InRange tx others ∧ env.PicksAccepted tx others := by
  constructor
  · rintro ⟨s, hrun, hverifies, -⟩
    have hrange := inRange_of_mergeVariants hrun
    obtain ⟨s', hrun', hmerged⟩ := mergeVariants_eq hrange
    cases hrun.symm.trans hrun'
    exact ⟨hrange, fun i scriptPubKey m pubkeys hspends henough =>
      (hmerged.verifies_iff hspends).mp (hverifies i scriptPubKey m pubkeys hspends henough)⟩
  · rintro ⟨hrange, hpicks⟩
    obtain ⟨s, hrun, hmerged⟩ := mergeVariants_eq hrange
    refine ⟨s, hrun, fun i scriptPubKey m pubkeys hspends henough =>
      (hmerged.verifies_iff hspends).mpr (hpicks i scriptPubKey m pubkeys hspends henough),
      fun hcomplete i hi => ?_⟩
    rw [length_vin_of_unsigned hmerged.unsigned] at hi
    obtain ⟨scriptPubKey, hspent, hverified⟩ := hmerged.complete hcomplete i hi
    refine ⟨scriptPubKey, ?_, ?_⟩
    · unfold SignEnv.spent
      rwa [prevout_of_unsigned hmerged.unsigned]
    · rwa [verifies_congr hmerged.unsigned, hmerged.merged i hi scriptPubKey hspent]

end SignEnv

/-! ## A variant with fewer inputs -/

/-- All coins are known, and no key is. -/
def knownCoins : SignEnv where
  hashes := lengthHashes
  verify := fun _ _ _ => true
  keystore := ⟨fun _ => none, fun _ => none, fun _ => none, fun _ _ => none⟩
  view := fun _ => some ⟨false, [⟨5, bothKeys⟩], 1, 1⟩
  nHashType := SIGHASH_ALL
  leftover := fun _ => ⟨[], nofun⟩

/-- The first variant, with two inputs. -/
def twoInputs : CTransaction := ⟨1, [⟨⟨1, 0⟩, [], 0⟩, ⟨⟨2, 0⟩, [], 0⟩], [⟨9, [OP_1]⟩], 0⟩

/-- Another one, with the first of the inputs. -/
def oneInput : CTransaction := ⟨1, [⟨⟨1, 0⟩, [], 0⟩], [⟨4, [OP_1]⟩], 0⟩

/-- The two are decoded one after the other, and the second input is read outside of the second. -/
theorem not_mergesSafely_fewer_inputs :
    decodeVariants (twoInputs.serialize ++ oneInput.serialize) = some [twoInputs, oneInput] ∧
      ¬knownCoins.MergesSafely twoInputs [oneInput] := by
  constructor
  · have hsizes : ∀ txv ∈ [twoInputs, oneInput], txv.serialize.length ≤ MAX_SIZE := by
      decide
    have hdecode := decodeVariants_serialize hsizes
    rwa [List.flatMap_cons, List.flatMap_cons, List.flatMap_nil, List.append_nil] at hdecode
  · rintro ⟨s, hrun, -⟩
    have hrange := SignEnv.inRange_of_mergeVariants hrun
    have hknown : knownCoins.spent twoInputs 1 ≠ none := by decide
    exact absurd (hrange 1 (by decide) hknown oneInput (List.mem_singleton_self _)) (by decide)

end Ticoin
