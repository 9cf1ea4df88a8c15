import Ticoin.ScriptRuns

/-!
# script.cpp : combining partial signatures

`CombineSignatures` merges what two stacks have for a script. Of a script with several keys
`CombineMultisig` collects the signatures of both in a set, finds for each the first public key that
it checks against and that has none yet, and writes them in the order of the keys.

If no signature is valid for two of the keys, a key has a signature in the end if and only if one of
the stacks has one for it (`Assigned`). So with enough of them the merged script makes
`OP_CHECKMULTISIG` succeed, and otherwise it keeps one signature for each key that has one
(`combineSignatures_keeps`). A second signature for a key is dropped (`combineSignatures_drops`).
-/

namespace Ticoin

open Codec EvalScript

/-- `PushAll`. -/
def pushAll (values : List Bytes) : Bytes := values.flatMap pushVector

/-! ## Combining -/

/-- All the signatures we've got, less the placeholders. -/
def allSigs (sigs1 sigs2 : List Bytes) : Std.ExtTreeSet Bytes :=
  (sigs1 ++ sigs2).foldl (fun allsigs v => if v.isEmpty then allsigs else allsigs.insert v) ∅

/-- The signatures of the first public keys that have one, up to the number required. -/
def mergeSigs (sigs : Std.ExtTreeMap Bytes Bytes) : List Bytes → ℕ → List Bytes
  | pubkey :: pubkeys, nSigsRequired + 1 =>
    match sigs[pubkey]? with
    | some sig => sig :: mergeSigs sigs pubkeys nSigsRequired
    | none => mergeSigs sigs pubkeys (nSigsRequired + 1)
  | _, _ => []

section

variable (checkSig : SigCheck → Bool)

/-- A signature is for the first public key that it checks against and that has none. -/
def matchSig (scriptPubKey : Bytes) (pubkeys : List Bytes) (sigs : Std.ExtTreeMap Bytes Bytes)
    (sig : Bytes) : Std.ExtTreeMap Bytes Bytes :=
  match pubkeys.find? fun pubkey =>
    !sigs.contains pubkey && checkSig ⟨sig, pubkey, scriptPubKey⟩ with
  | none => sigs
  | some pubkey => sigs.insert pubkey sig

/-- The map of public keys to signatures. -/
def matchSigs (scriptPubKey : Bytes) (pubkeys sigs1 sigs2 : List Bytes) :
    Std.ExtTreeMap Bytes Bytes :=
  (allSigs sigs1 sigs2).toList.foldl (matchSig checkSig scriptPubKey pubkeys) ∅

/-- `CombineMultisig`, `none` if its assertion fails. -/
def combineMultisig (scriptPubKey : Bytes) (vSolutions sigs1 sigs2 : List Bytes) : Option Bytes :=
  match vSolutions with
  | (nSigsRequired :: _) :: _ :: _ =>
    let pubkeys := (vSolutions.drop 1).dropLast
    let result := mergeSigs (matchSigs checkSig scriptPubKey pubkeys sigs1 sigs2) pubkeys
      nSigsRequired.toNat
    -- pop-one-too-many workaround, and fill any missing
    some ([OP_0] ++ pushAll result ++ List.replicate (nSigsRequired.toNat - result.length) OP_0)
  | _ => none

/-- `CombineSignatures` of two stacks, from the bottom. -/
def combineSignatures (scriptPubKey : Bytes) (txType : TxnOutType)
    (vSolutions sigs1 sigs2 : List Bytes) : Option Bytes :=
  match txType with
  | .nonstandard | .nullData =>
    -- don't know anything about this, assume bigger one is correct
    if sigs1.length ≥ sigs2.length then some (pushAll sigs1) else some (pushAll sigs2)
  | .pubkey | .pubkeyhash =>
    -- signatures are bigger than placeholders or empty scripts
    if sigs1.headD [] = [] then some (pushAll sigs2) else some (pushAll sigs1)
  | .scripthash =>
    if _h : sigs1.getLastD [] = [] then some (pushAll sigs2)
    else if sigs2.getLastD [] = [] then some (pushAll sigs1)
    else
      let spk := sigs1.getLastD []
      match solver spk with
      | none => none
      | some (_, txType2, vSolutions2) =>
        (combineSignatures spk txType2 vSolutions2 sigs1.dropLast sigs2.dropLast).map
          (· ++ pushVector spk)
  | .multisig => combineMultisig checkSig scriptPubKey vSolutions sigs1 sigs2
termination_by sigs1.length
decreasing_by
  have hpos : sigs1 ≠ [] := by
    rintro rfl
    exact _h rfl
  rw [List.length_dropLast]
  have := List.length_pos_iff.mpr hpos
  omega

end

/-! ## Which keys get a signature -/

theorem mem_allSigs {sigs1 sigs2 : List Bytes} {v : Bytes} :
    v ∈ (allSigs sigs1 sigs2).toList ↔ v ∈ sigs1 ++ sigs2 ∧ v ≠ [] := by
  have hfold : ∀ {l : List Bytes} {s : Std.ExtTreeSet Bytes}, v ∈ l.foldl
      (fun allsigs v => if v.isEmpty then allsigs else allsigs.insert v) s ↔
        v ∈ s ∨ v ∈ l ∧ v ≠ [] := by
    intro l
    induction l with
    | nil => simp
    | cons u l ih =>
      intro s
      rw [List.foldl_cons, ih, List.mem_cons]
      split
      · rename_i hempty
        rw [List.isEmpty_iff] at hempty
        grind
      · rename_i hempty
        rw [Bool.not_eq_true, List.isEmpty_eq_false_iff] at hempty
        rw [Std.ExtTreeSet.mem_insert, Std.LawfulEqOrd.compare_eq_iff_eq]
        grind
  rw [Std.ExtTreeSet.mem_toList, allSigs, hfold]
  exact or_iff_right Std.ExtTreeSet.not_mem_empty

theorem mergeSigs_eq (sigs : Std.ExtTreeMap Bytes Bytes) : ∀ (pubkeys : List Bytes) (n : ℕ),
    mergeSigs sigs pubkeys n = (pubkeys.filterMap (sigs[·]?)).take n
  | [], n => by simp [mergeSigs]
  | pubkey :: pubkeys, 0 => by simp [mergeSigs]
  | pubkey :: pubkeys, n + 1 => by
    rw [mergeSigs, List.filterMap_cons]
    cases sigs[pubkey]? with
    | none => exact mergeSigs_eq sigs pubkeys (n + 1)
    | some sig =>
      dsimp only
      rw [mergeSigs_eq sigs pubkeys n, List.take_succ_cons]

section

variable {checkSig : SigCheck → Bool} {scriptPubKey : Bytes} {pubkeys : List Bytes}

/-- What is assigned after some signatures : valid ones, to every key that one of them is for. -/
structure Assigned (checkSig : SigCheck → Bool) (scriptPubKey : Bytes) (pubkeys done : List Bytes)
    (sigs : Std.ExtTreeMap Bytes Bytes) : Prop where
  valid : ∀ key sig : Bytes, sigs[key]? = some sig →
    key ∈ pubkeys ∧ sig ∈ done ∧ checkSig ⟨sig, key, scriptPubKey⟩ = true
  complete : ∀ key ∈ pubkeys, ∀ sig ∈ done, checkSig ⟨sig, key, scriptPubKey⟩ = true → key ∈ sigs

theorem Assigned.matchSig {done : List Bytes} {sigs : Std.ExtTreeMap Bytes Bytes} {sig : Bytes}
    (h : Assigned checkSig scriptPubKey pubkeys done sigs)
    (hunique : ∀ key ∈ pubkeys, ∀ key' ∈ pubkeys, checkSig ⟨sig, key, scriptPubKey⟩ = true →
      checkSig ⟨sig, key', scriptPubKey⟩ = true → key = key') :
    Assigned checkSig scriptPubKey pubkeys (done ++ [sig])
      (matchSig checkSig scriptPubKey pubkeys sigs sig) := by
  rw [Ticoin.matchSig]
  split
  · rename_i hnone
    rw [List.find?_eq_none] at hnone
    refine ⟨fun key sig' hget => ?_, fun key hkey sig' hsig' hcheck => ?_⟩
    · obtain ⟨hkey, hmem, hcheck⟩ := h.valid key sig' hget
      exact ⟨hkey, List.mem_append_left _ hmem, hcheck⟩
    · rcases List.mem_append.mp hsig' with hsig' | hsig'
      · exact h.complete key hkey sig' hsig' hcheck
      · have hhas := hnone key hkey
        rw [← List.mem_singleton.mp hsig', hcheck, Bool.and_true, Bool.not_eq_true',
          Bool.not_eq_false] at hhas
        exact Std.ExtTreeMap.contains_iff_mem.mp hhas
  · rename_i pubkey hfind
    have hcheckKey := List.find?_some hfind
    rw [Bool.and_eq_true] at hcheckKey
    have hpubkey := List.mem_of_find?_eq_some hfind
    refine ⟨fun key sig' hget => ?_, fun key hkey sig' hsig' hcheck => ?_⟩
    · rw [Std.ExtTreeMap.getElem?_insert] at hget
      split at hget
      · rename_i heq
        cases hget
        rw [← Std.LawfulEqOrd.eq_of_compare heq]
        exact ⟨hpubkey, List.mem_append_right _ (List.mem_singleton_self _), hcheckKey.2⟩
      · obtain ⟨hkey, hmem, hcheck⟩ := h.valid key sig' hget
        exact ⟨hkey, List.mem_append_left _ hmem, hcheck⟩
    · rw [Std.ExtTreeMap.mem_insert]
      rcases List.mem_append.mp hsig' with hsig' | hsig'
      · exact .inr (h.complete key hkey sig' hsig' hcheck)
      · rw [List.mem_singleton.mp hsig'] at hcheck
        rw [hunique pubkey hpubkey key hkey hcheckKey.2 hcheck]
        exact .inl Std.ReflCmp.compare_self

theorem Assigned.foldl : ∀ {l done : List Bytes} {sigs : Std.ExtTreeMap Bytes Bytes},
    Assigned checkSig scriptPubKey pubkeys done sigs →
    (∀ sig ∈ l, ∀ key ∈ pubkeys, ∀ key' ∈ pubkeys, checkSig ⟨sig, key, scriptPubKey⟩ = true →
      checkSig ⟨sig, key', scriptPubKey⟩ = true → key = key') →
    Assigned checkSig scriptPubKey pubkeys (done ++ l)
      (l.foldl (Ticoin.matchSig checkSig scriptPubKey pubkeys) sigs)
  | [], done, sigs, h, _ => by rwa [List.append_nil]
  | sig :: l, done, sigs, h, hunique => by
    rw [List.forall_mem_cons] at hunique
    rw [List.foldl_cons, List.append_cons]
    exact (h.matchSig hunique.1).foldl hunique.2

variable {sigs1 sigs2 : List Bytes}

/-- A signature of the stacks that is valid for a public key. -/
def IsSigFor (checkSig : SigCheck → Bool) (scriptPubKey : Bytes) (sigs1 sigs2 : List Bytes)
    (key sig : Bytes) : Prop :=
  (sig ∈ sigs1 ++ sigs2 ∧ sig ≠ []) ∧ checkSig ⟨sig, key, scriptPubKey⟩ = true

/-- The public keys that the stacks have a valid signature for. -/
def signedKeys (checkSig : SigCheck → Bool) (scriptPubKey : Bytes) (pubkeys sigs1 sigs2 : List Bytes) :
    List Bytes :=
  pubkeys.filter fun key => (sigs1 ++ sigs2).any fun sig =>
    !sig.isEmpty && checkSig ⟨sig, key, scriptPubKey⟩

/-- No signature of the stacks is valid for two of the public keys. -/
def OneKeyEach (checkSig : SigCheck → Bool) (scriptPubKey : Bytes) (pubkeys sigs1 sigs2 : List Bytes) :
    Prop :=
  ∀ sig ∈ sigs1 ++ sigs2, ∀ key ∈ pubkeys, ∀ key' ∈ pubkeys,
    checkSig ⟨sig, key, scriptPubKey⟩ = true → checkSig ⟨sig, key', scriptPubKey⟩ = true → key = key'

theorem mem_signedKeys {key : Bytes} : key ∈ signedKeys checkSig scriptPubKey pubkeys sigs1 sigs2 ↔
    key ∈ pubkeys ∧ ∃ sig, IsSigFor checkSig scriptPubKey sigs1 sigs2 key sig := by
  rw [signedKeys, List.mem_filter, List.any_eq_true]
  refine and_congr_right fun _ => exists_congr fun sig => ?_
  rw [IsSigFor, Bool.and_eq_true, Bool.not_eq_true', List.isEmpty_eq_false_iff, and_assoc]

/-- The keys that are assigned a signature are those that have one. -/
theorem matchSigs_spec (hunique : OneKeyEach checkSig scriptPubKey pubkeys sigs1 sigs2) :
    (∀ key sig : Bytes, (matchSigs checkSig scriptPubKey pubkeys sigs1 sigs2)[key]? = some sig →
      key ∈ pubkeys ∧ IsSigFor checkSig scriptPubKey sigs1 sigs2 key sig) ∧
    ∀ key ∈ signedKeys checkSig scriptPubKey pubkeys sigs1 sigs2,
      ∃ sig, (matchSigs checkSig scriptPubKey pubkeys sigs1 sigs2)[key]? = some sig := by
  have hstart : Assigned checkSig scriptPubKey pubkeys [] ∅ :=
    ⟨fun key sig hget => by simp at hget, fun _ _ _ hsig => absurd hsig List.not_mem_nil⟩
  have hend := hstart.foldl (l := (allSigs sigs1 sigs2).toList) fun sig hsig =>
    hunique sig (mem_allSigs.mp hsig).1
  rw [List.nil_append] at hend
  refine ⟨fun key sig hget => ?_, fun key hkey => ?_⟩
  · obtain ⟨hkey, hsig, hcheck⟩ := hend.valid key sig hget
    exact ⟨hkey, mem_allSigs.mp hsig, hcheck⟩
  · obtain ⟨hkey, sig, hsig, hcheck⟩ := mem_signedKeys.mp hkey
    have hmem := hend.complete key hkey sig (mem_allSigs.mpr hsig) hcheck
    exact ⟨_, Std.ExtTreeMap.getElem?_eq_some_getElem hmem⟩

/-- The signatures that are kept, one for each key that has one. -/
def keptSigs (checkSig : SigCheck → Bool) (scriptPubKey : Bytes) (pubkeys sigs1 sigs2 : List Bytes) :
    List Bytes :=
  pubkeys.filterMap ((matchSigs checkSig scriptPubKey pubkeys sigs1 sigs2)[·]?)

/-- Elements that are mapped, against the images. -/
theorem forall₂_filter_filterMap {α β : Type} {R : α → β → Prop} {p : α → Bool} {f : α → Option β} :
    ∀ {l : List α}, (∀ a ∈ l, ∀ b, f a = some b → p a = true ∧ R a b) →
      (∀ a ∈ l, p a = true → ∃ b, f a = some b) → List.Forall₂ R (l.filter p) (l.filterMap f)
  | [], _, _ => .nil
  | a :: l, hsome, hmapped => by
    rw [List.forall_mem_cons] at hsome hmapped
    have hrest := forall₂_filter_filterMap hsome.2 hmapped.2
    rw [List.filterMap_cons]
    cases hf : f a with
    | none =>
      rw [List.filter_cons_of_neg]
      · exact hrest
      · intro hp
        obtain ⟨b, hb⟩ := hmapped.1 hp
        rw [hf] at hb
        cases hb
    | some b =>
      obtain ⟨hp, hR⟩ := hsome.1 b hf
      rw [List.filter_cons_of_pos hp]
      exact .cons hR hrest

theorem forall₂_keptSigs (hunique : OneKeyEach checkSig scriptPubKey pubkeys sigs1 sigs2) :
    List.Forall₂ (IsSigFor checkSig scriptPubKey sigs1 sigs2)
      (signedKeys checkSig scriptPubKey pubkeys sigs1 sigs2)
      (keptSigs checkSig scriptPubKey pubkeys sigs1 sigs2) := by
  obtain ⟨hvalid, hcomplete⟩ := matchSigs_spec hunique
  refine forall₂_filter_filterMap (fun key _ sig hget => ?_) fun key hkey hsigned =>
    hcomplete key (List.mem_filter.mpr ⟨hkey, hsigned⟩)
  obtain ⟨hkey, hsig⟩ := hvalid key sig hget
  exact ⟨(List.mem_filter.mp (mem_signedKeys.mpr ⟨hkey, sig, hsig⟩)).2, hsig⟩

theorem nodup_keptSigs (hunique : OneKeyEach checkSig scriptPubKey pubkeys sigs1 sigs2)
    (hdistinct : pubkeys.Nodup) : (keptSigs checkSig scriptPubKey pubkeys sigs1 sigs2).Nodup := by
  obtain ⟨hvalid, -⟩ := matchSigs_spec hunique
  refine hdistinct.filterMap fun key key' sig hget hget' => ?_
  obtain ⟨hkey, ⟨hsig, -⟩, hcheck⟩ := hvalid key sig hget
  obtain ⟨hkey', -, hcheck'⟩ := hvalid key' sig hget'
  exact hunique sig hsig key hkey key' hkey' hcheck hcheck'

theorem mem_keptSigs (hunique : OneKeyEach checkSig scriptPubKey pubkeys sigs1 sigs2) {sig : Bytes}
    (h : sig ∈ keptSigs checkSig scriptPubKey pubkeys sigs1 sigs2) :
    ∃ key ∈ pubkeys, IsSigFor checkSig scriptPubKey sigs1 sigs2 key sig := by
  obtain ⟨key, hkey, hget⟩ := List.mem_filterMap.mp h
  exact ⟨key, hkey, ((matchSigs_spec hunique).1 key sig hget).2⟩

/-- The order of the signatures is that of the keys, from the top of the stack too. -/
theorem sublistForall₂_keptSigs (hunique : OneKeyEach checkSig scriptPubKey pubkeys sigs1 sigs2)
    (n : ℕ) : List.SublistForall₂ (fun sig key => checkSig ⟨sig, key, scriptPubKey⟩ = true)
      ((keptSigs checkSig scriptPubKey pubkeys sigs1 sigs2).take n).reverse pubkeys.reverse := by
  have hkept := List.forall₂_take n (forall₂_keptSigs hunique)
  have hvalid : List.Forall₂ (fun sig key => checkSig ⟨sig, key, scriptPubKey⟩ = true)
      ((keptSigs checkSig scriptPubKey pubkeys sigs1 sigs2).take n)
      ((signedKeys checkSig scriptPubKey pubkeys sigs1 sigs2).take n) :=
    (hkept.imp fun _ _ h => h.2).flip
  rw [List.sublistForall₂_iff]
  exact ⟨_, List.forall₂_reverse_iff.mpr hvalid,
    ((List.take_sublist n _).trans List.filter_sublist).reverse⟩

end

/-! ## The merged script -/

theorem pushOp_nil : pushVector [] = [OP_0] := rfl

theorem combineMultisig_eq (checkSig : SigCheck → Bool) (scriptPubKey : Bytes) (m n : UInt8)
    (pubkeys sigs1 sigs2 : List Bytes) :
    combineMultisig checkSig scriptPubKey ([m] :: (pubkeys ++ [[n]])) sigs1 sigs2 =
      some (pushAll ([] :: (keptSigs checkSig scriptPubKey pubkeys sigs1 sigs2).take m.toNat) ++
        List.replicate (m.toNat - (keptSigs checkSig scriptPubKey pubkeys sigs1 sigs2).length)
          OP_0) := by
  have hkeys : (([m] :: (pubkeys ++ [[n]])).drop 1).dropLast = pubkeys := by
    rw [List.drop_succ_cons, List.drop_zero, List.dropLast_concat]
  have hlength : ∀ l : List Bytes, m.toNat - (l.take m.toNat).length = m.toNat - l.length := by
    intro l
    rw [List.length_take]
    omega
  obtain ⟨key, rest, hcons⟩ : ∃ key rest, pubkeys ++ [[n]] = key :: rest := by
    cases pubkeys with
    | nil => exact ⟨_, _, rfl⟩
    | cons key keys => exact ⟨_, _, rfl⟩
  rw [hcons] at hkeys ⊢
  rw [combineMultisig, hkeys, mergeSigs_eq, ← keptSigs, hlength, pushAll, pushAll, List.flatMap_cons, pushOp_nil]

section

variable {checkSig : SigCheck → Bool} {flags : UInt32} {scriptPubKey : Bytes}
  {pubkeys sigs1 sigs2 : List Bytes}

/-- The flags accept what is valid : the encoding of the signature, and both where they are
checked. -/
def FlagsAccept (checkSig : SigCheck → Bool) (flags : UInt32) (scriptPubKey : Bytes)
    (pubkeys sigs1 sigs2 : List Bytes) : Prop :=
  ∀ sig ∈ sigs1 ++ sigs2, ∀ key ∈ pubkeys, checkSig ⟨sig, key, scriptPubKey⟩ = true →
    checkSignatureEncoding sig flags = some true ∧
      isCanonical flags ⟨sig, key, scriptPubKey⟩ = some true

/-- A signature that is valid for a key is checked without a failure against the others. -/
theorem checkSignature_of_accepted (haccept : FlagsAccept checkSig flags scriptPubKey pubkeys sigs1 sigs2)
    {sig key key' : Bytes} (hsig : sig ∈ sigs1 ++ sigs2) (hkey : key ∈ pubkeys)
    (hcheck : checkSig ⟨sig, key, scriptPubKey⟩ = true) (hkey' : key' ∈ pubkeys) :
    checkSignature checkSig flags ⟨sig, key', scriptPubKey⟩ =
      .ok (checkSig ⟨sig, key', scriptPubKey⟩) := by
  obtain ⟨hencoding, hcanonical⟩ := haccept sig hsig key hkey hcheck
  have hcanonicalSig : isCanonicalSignature sig flags = some true := by
    rw [isCanonical, Option.bind_eq_bind, Option.bind_eq_some_iff] at hcanonical
    obtain ⟨b, hb, hrest⟩ := hcanonical
    cases b with
    | false => cases hrest
    | true => exact hb
  obtain ⟨b, hb⟩ := isCanonicalPubKey_eq_some key' flags
  have hcanonical' : isCanonical flags ⟨sig, key', scriptPubKey⟩ = some b := by
    rw [isCanonical, hcanonicalSig]
    exact hb
  rw [checkSignature, hencoding, hcanonical']
  cases b with
  | true => rfl
  | false =>
    -- a key that is refused is not one that the signature is valid for
    cases hvalid : checkSig ⟨sig, key', scriptPubKey⟩ with
    | false => rfl
    | true =>
      rw [(haccept sig hsig key' hkey' hvalid).2] at hcanonical'
      cases hcanonical'

/-- With enough signatures the merged script satisfies the script. -/
theorem evalScript_merged (flags : UInt32) (hashes : ScriptHashes) {m n : UInt8} {keys : List ScriptOp}
    (hform : IsMultisigForm scriptPubKey m n keys) (hcounts : CountsFit m n keys)
    (hsize : ∀ sig ∈ sigs1 ++ sigs2, sig.length ≤ MAX_SCRIPT_ELEMENT_SIZE)
    (hunique : OneKeyEach checkSig scriptPubKey (keys.map ScriptOp.vch) sigs1 sigs2)
    (hpush : ∀ ops, getOps scriptPubKey = some ops → ∀ sig ∈ sigs1 ++ sigs2, pushOp sig ∉ ops)
    (haccept : FlagsAccept checkSig flags scriptPubKey (keys.map ScriptOp.vch) sigs1 sigs2)
    (henough : m.toNat ≤
      (keptSigs checkSig scriptPubKey (keys.map ScriptOp.vch) sigs1 sigs2).length) :
    ∃ stack, (evalScript (checkSignature checkSig flags) hashes [] (pushAll
        ([] :: (keptSigs checkSig scriptPubKey (keys.map ScriptOp.vch) sigs1 sigs2).take m.toNat))).1 =
          .ok stack ∧
      (evalScript (checkSignature checkSig flags) hashes stack scriptPubKey).1 = .ok [vchTrue] := by
  have hsub := sublistForall₂_keptSigs hunique m.toNat
  have hlength : ((keptSigs checkSig scriptPubKey (keys.map ScriptOp.vch) sigs1 sigs2).take
      m.toNat).length = m.toNat := by
    rw [List.length_take, Nat.min_eq_left henough]
  have hvalid : ∀ sig ∈ (keptSigs checkSig scriptPubKey (keys.map ScriptOp.vch) sigs1 sigs2).take
      m.toNat, ∃ key ∈ keys.map ScriptOp.vch, IsSigFor checkSig scriptPubKey sigs1 sigs2 key sig :=
    fun sig hsig => mem_keptSigs hunique (List.mem_of_mem_take hsig)
  generalize (keptSigs checkSig scriptPubKey (keys.map ScriptOp.vch) sigs1 sigs2).take m.toNat =
    sigs at hsub hlength hvalid
  obtain ⟨-, hle, hle16⟩ := hcounts.le hform
  have hsizes : ∀ v ∈ [] :: sigs, v.length ≤ MAX_SCRIPT_ELEMENT_SIZE := by
    intro v hv
    rcases List.mem_cons.mp hv with rfl | hv
    · exact Nat.zero_le _
    · obtain ⟨key, -, ⟨hmem, -⟩, -⟩ := hvalid v hv
      exact hsize v hmem
  refine ⟨_, evalScript_pushes hsizes ?_ ?_, ?_⟩
  · rw [List.length_cons, List.length_nil]
    omega
  · exact length_pushVectors_le hsizes (by rw [List.length_cons]; omega)
  · obtain ⟨ops, hops⟩ : ∃ ops, getOps scriptPubKey = some ops :=
      let ⟨_, _, hops, _⟩ := hform
      ⟨_, hops⟩
    have hdelete : ∀ sig ∈ sigs, (findAndDelete scriptPubKey (pushVector sig)).1 = scriptPubKey := by
      intro sig hsig
      obtain ⟨-, -, ⟨hmem, -⟩, -⟩ := hvalid sig hsig
      exact findAndDelete_of_not_mem (lt_of_le_of_lt (hsize sig hmem) (by decide)) hops
        (hpush ops hops sig hmem)
    have hcheck : ∀ sig ∈ sigs, ∀ op ∈ keys,
        checkSignature checkSig flags ⟨sig, op.vch, scriptPubKey⟩ =
          .ok (checkSig ⟨sig, op.vch, scriptPubKey⟩) := by
      intro sig hsig op hop
      obtain ⟨key, hkey, ⟨hmem, -⟩, hcheck⟩ := hvalid sig hsig
      exact checkSignature_of_accepted haccept hmem hkey hcheck (List.mem_map_of_mem hop)
    obtain ⟨fSuccess, hiff, heval⟩ : ∃ fSuccess : Bool, _ ∧ (evalScript (checkSignature checkSig flags)
        hashes (sigs.reverse ++ [[]]) scriptPubKey).1 = _ :=
      evalScript_multisig (fun sig key => checkSig ⟨sig, key, scriptPubKey⟩) hform hcounts hlength
        hdelete hcheck
    rw [List.append_nil, List.reverse_cons, heval, hiff.mpr hsub]
    rfl

end

/-- Of the stacks for a script with several keys, no signature of which is valid for two of them, the
merged script satisfies the script if enough keys have a signature. Otherwise it has exactly one for
each key that has one, in the order of the keys, and is padded. These are all the valid signatures if
no key has two. -/
theorem combineSignatures_keeps (checkSig : SigCheck → Bool) (flags : UInt32)
    (hashes : ScriptHashes) (scriptPubKey : Bytes) (m n : UInt8) (pubkeys sigs1 sigs2 : List Bytes)
    (hsolver : solver scriptPubKey = some (true, .multisig, [m] :: (pubkeys ++ [[n]])))
    (hdistinct : pubkeys.Nodup)
    (hsize : ∀ sig ∈ sigs1 ++ sigs2, sig.length ≤ MAX_SCRIPT_ELEMENT_SIZE)
    (hunique : OneKeyEach checkSig scriptPubKey pubkeys sigs1 sigs2)
    (hpush : ∀ ops, getOps scriptPubKey = some ops → ∀ sig ∈ sigs1 ++ sigs2, pushOp sig ∉ ops)
    (haccept : FlagsAccept checkSig flags scriptPubKey pubkeys sigs1 sigs2) :
    ∃ kept, List.Forall₂ (IsSigFor checkSig scriptPubKey sigs1 sigs2)
        (signedKeys checkSig scriptPubKey pubkeys sigs1 sigs2) kept ∧ kept.Nodup ∧
      ∃ result, combineSignatures checkSig scriptPubKey .multisig ([m] :: (pubkeys ++ [[n]])) sigs1
          sigs2 = some result ∧
        (m.toNat ≤ (signedKeys checkSig scriptPubKey pubkeys sigs1 sigs2).length →
          (∃ stack, (evalScript (checkSignature checkSig flags) hashes [] result).1 = .ok stack ∧
            (evalScript (checkSignature checkSig flags) hashes stack scriptPubKey).1 =
              .ok [vchTrue]) ∧
          (verifyScript (checkSignature checkSig flags) hashes flags result scriptPubKey).1 =
            .ok ()) ∧
        ((signedKeys checkSig scriptPubKey pubkeys sigs1 sigs2).length < m.toNat →
          result = [OP_0] ++ kept.flatMap pushVector ++
            List.replicate (m.toNat - kept.length) OP_0) ∧
        ((∀ key sig sig', IsSigFor checkSig scriptPubKey sigs1 sigs2 key sig →
            IsSigFor checkSig scriptPubKey sigs1 sigs2 key sig' → sig = sig') →
          ∀ sig, (∃ key ∈ pubkeys, IsSigFor checkSig scriptPubKey sigs1 sigs2 key sig) ↔
            sig ∈ kept) := by
  obtain ⟨m', n', keys, hform, hcounts, hdata⟩ := multisig_of_solver hsolver
  simp only [List.cons.injEq, and_true] at hdata
  obtain ⟨rfl, hdata⟩ := hdata
  obtain ⟨rfl, -⟩ := List.append_inj' hdata rfl
  have hkept := forall₂_keptSigs hunique
  refine ⟨keptSigs checkSig scriptPubKey (keys.map ScriptOp.vch) sigs1 sigs2, hkept,
    nodup_keptSigs hunique hdistinct, _,
    by rw [combineSignatures]; exact combineMultisig_eq .., fun henough => ?_, fun hfew => ?_,
    fun hsingle sig => ⟨?_, mem_keptSigs hunique⟩⟩
  · rw [hkept.length_eq] at henough
    rw [Nat.sub_eq_zero_of_le henough, List.replicate_zero, List.append_nil]
    obtain ⟨stack, hpushes, heval⟩ :=
      evalScript_merged flags hashes hform hcounts hsize hunique hpush haccept henough
    refine ⟨⟨stack, hpushes, heval⟩, verifyScript_of_evalScript hpushes heval rfl ?_⟩
    by_contra hhash
    rw [Bool.not_eq_false] at hhash
    rw [solver, if_pos hhash] at hsolver
    cases hsolver
  · rw [hkept.length_eq] at hfew
    rw [List.take_of_length_le hfew.le]
    rfl
  · rintro ⟨key, hkey, hsig⟩
    obtain ⟨sig', hget⟩ := (matchSigs_spec hunique).2 key (mem_signedKeys.mpr ⟨hkey, sig, hsig⟩)
    obtain ⟨-, hsig'⟩ := (matchSigs_spec hunique).1 key sig' hget
    rw [hsingle key sig sig' hsig hsig']
    exact List.mem_filterMap.mpr ⟨key, hkey, hget⟩

/-! ## A script with two keys -/

/-- A public key of one byte repeated. -/
def repeatedKey (b : UInt8) : Bytes := 2 :: List.replicate 32 b

/-- A signature is valid for the key that repeats its first byte. -/
def checkFirst (c : SigCheck) : Bool := c.vchPubKey == repeatedKey (c.vchSig.headD 0)

/-- Two keys, both required. -/
def bothKeys : Bytes :=
  OP_2 :: 33 :: (repeatedKey 1 ++ 33 :: (repeatedKey 2 ++ [OP_2, OP_CHECKMULTISIG]))

theorem getOps_bothKeys : getOps bothKeys = some [⟨OP_2, []⟩, ⟨33, repeatedKey 1⟩,
    ⟨33, repeatedKey 2⟩, ⟨OP_2, []⟩, ⟨OP_CHECKMULTISIG, []⟩] := by
  have hkey : ∀ b pc, getOp2 (33 :: (repeatedKey b ++ pc)) = (some ⟨33, repeatedKey b⟩, pc) :=
    fun b pc => getOp2_push 33 [] (repeatedKey b) pc (by decide) rfl rfl
  rw [bothKeys, getOps_opcode (by decide), getOps_of_some (hkey 1 _), getOps_of_some (hkey 2 _),
    getOps_opcode (by decide), getOps_opcode (by decide), getOps_nil]
  rfl

theorem solver_bothKeys : solver bothKeys =
    some (true, .multisig, [[2], repeatedKey 1, repeatedKey 2, [2]]) := by
  have hform : IsMultisigForm bothKeys 2 2 [⟨33, repeatedKey 1⟩, ⟨33, repeatedKey 2⟩] :=
    ⟨⟨OP_2, []⟩, ⟨OP_2, []⟩, getOps_bothKeys, by decide, by decide, by decide⟩
  exact solver_multisig hform (show (1 : UInt8) ≤ 2 ∧ (2 : UInt8) ≤ 2 ∧ 2 = (2 : UInt8).toNat by
    decide)

/-- A signature for each key, one on each stack. -/
theorem combineSignatures_keeps_both : ∃ result,
    combineSignatures checkFirst bothKeys .multisig [[2], repeatedKey 1, repeatedKey 2, [2]]
      [[], [2]] [[1], []] = some result ∧
    (verifyScript (checkSignature checkFirst 0) lengthHashes 0 result bothKeys).1 = .ok () := by
  obtain ⟨-, -, -, result, hresult, henough, -⟩ := combineSignatures_keeps checkFirst 0 lengthHashes
    bothKeys 2 2 [repeatedKey 1, repeatedKey 2] [[], [2]] [[1], []] solver_bothKeys
    (by decide) (by decide)
    (show ∀ sig ∈ [[], [2]] ++ [[1], []], ∀ key ∈ [repeatedKey 1, repeatedKey 2],
      ∀ key' ∈ [repeatedKey 1, repeatedKey 2], checkFirst ⟨sig, key, bothKeys⟩ = true →
        checkFirst ⟨sig, key', bothKeys⟩ = true → key = key' by decide)
    (fun ops hops => by
      rw [getOps_bothKeys] at hops
      cases hops
      decide)
    (show ∀ sig ∈ [[], [2]] ++ [[1], []], ∀ key ∈ [repeatedKey 1, repeatedKey 2],
      checkFirst ⟨sig, key, bothKeys⟩ = true → checkSignatureEncoding sig 0 = some true ∧
        isCanonical 0 ⟨sig, key, bothKeys⟩ = some true by decide)
  exact ⟨result, hresult, (henough (by decide)).2⟩

/-- Of two signatures for the first key one is dropped. -/
theorem combineSignatures_drops :
    ¬∀ (checkSig : SigCheck → Bool) (scriptPubKey : Bytes) (m n : UInt8)
      (pubkeys sigs1 sigs2 : List Bytes),
      solver scriptPubKey = some (true, .multisig, [m] :: (pubkeys ++ [[n]])) → pubkeys.Nodup →
      OneKeyEach checkSig scriptPubKey pubkeys sigs1 sigs2 →
      (∀ ops, getOps scriptPubKey = some ops → ∀ sig ∈ sigs1 ++ sigs2, pushOp sig ∉ ops) →
      (signedKeys checkSig scriptPubKey pubkeys sigs1 sigs2).length < m.toNat →
      ∃ kept : List Bytes, kept.Nodup ∧
        (∀ sig, (∃ key ∈ pubkeys, IsSigFor checkSig scriptPubKey sigs1 sigs2 key sig) ↔
          sig ∈ kept) ∧
        combineSignatures checkSig scriptPubKey .multisig ([m] :: (pubkeys ++ [[n]])) sigs1 sigs2 =
          some ([OP_0] ++ kept.flatMap pushVector ++
            List.replicate (m.toNat - kept.length) OP_0) := by
  intro h
  obtain ⟨kept, -, hall, hresult⟩ := h checkFirst bothKeys 2 2 [repeatedKey 1, repeatedKey 2]
    [[], [1]] [[], [1, 7]] solver_bothKeys (by decide)
    (show ∀ sig ∈ [[], [1]] ++ [[], [1, 7]], ∀ key ∈ [repeatedKey 1, repeatedKey 2],
      ∀ key' ∈ [repeatedKey 1, repeatedKey 2], checkFirst ⟨sig, key, bothKeys⟩ = true →
        checkFirst ⟨sig, key', bothKeys⟩ = true → key = key' by decide)
    (fun ops hops => by
      rw [getOps_bothKeys] at hops
      cases hops
      decide)
    (by decide)
  have hkept : ([1, 7] : Bytes) ∈ kept := (hall [1, 7]).mp
    ⟨repeatedKey 1, List.mem_cons_self, ⟨by decide, by decide⟩, by decide⟩
  have hbyte : (7 : UInt8) ∈ [OP_0] ++ kept.flatMap pushVector ++
      List.replicate ((2 : UInt8).toNat - kept.length) OP_0 :=
    List.mem_append_left _ (List.mem_append_right _
      (List.mem_flatMap.mpr ⟨_, hkept, by decide⟩))
  have heval : combineMultisig checkFirst bothKeys [[2], repeatedKey 1, repeatedKey 2, [2]]
      [[], [1]] [[], [1, 7]] = some [0, 1, 1, 0] := by decide
  rw [combineSignatures] at hresult
  rw [← Option.some.inj (heval.symm.trans hresult)] at hbyte
  exact absurd hbyte (by decide)

end Ticoin
