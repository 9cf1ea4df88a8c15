import Ticoin.ScriptOps
import Ticoin.Solver

/-!
# script.cpp : the scripts that the templates match

The comparison with a template goes through the operations of a script (`matchOps`), but for the
public keys of the template of several keys, which are as many as there are (`solverMatch_pubKeys`).
A script matches at most one template, and is recognized by its operations (`solver_templates`).

The template of data after `OP_RETURN` takes every operation with little data, a push or not, and
returns no data. A script with several keys whose numbers do not fit is refused without the type and
the data being cleared (`solver_badMultisig`).
-/

namespace Ticoin

open Codec

/-! ## Operations of a template -/

/-- Data of the size of a public key. -/
def PubKeySize (vch : Bytes) : Prop := 33 ≤ vch.length ∧ vch.length ≤ 65

instance (vch : Bytes) : Decidable (PubKeySize vch) :=
  inferInstanceAs (Decidable (33 ≤ vch.length ∧ vch.length ≤ 65))

/-- An operation that pushes the small integer `n`. -/
def IsSmallInteger (op : ScriptOp) (n : UInt8) : Prop :=
  op.opcode = OP_0 ∧ n = 0 ∨ (OP_1 ≤ op.opcode ∧ op.opcode ≤ OP_16) ∧ n = op.opcode - (OP_1 - 1)

instance (op : ScriptOp) (n : UInt8) : Decidable (IsSmallInteger op n) :=
  inferInstanceAs (Decidable (_ ∧ _ ∨ (_ ∧ _) ∧ _))

/-- An opcode of a template that stands for itself. -/
def IsPlain (opcode : UInt8) : Prop :=
  opcode ≠ OP_PUBKEY ∧ opcode ≠ OP_PUBKEYHASH ∧ opcode ≠ OP_SMALLINTEGER ∧ opcode ≠ OP_SMALLDATA ∧
    opcode ≠ OP_PUBKEYS

instance (opcode : UInt8) : Decidable (IsPlain opcode) :=
  inferInstanceAs (Decidable (_ ∧ _ ∧ _ ∧ _ ∧ _))

section

variable {op op1 op2 : ScriptOp} {vSolutions vSolutions' out : List Bytes} {pc pc' pc1 pc2 pc2' : Bytes}

theorem solverOp_pubKey : solverOp op ⟨OP_PUBKEY, []⟩ vSolutions = some vSolutions' ↔
    PubKeySize op.vch ∧ vSolutions' = vSolutions ++ [op.vch] := by
  rw [solverOp, if_pos rfl, PubKeySize]
  split
  · exact iff_of_false (Option.some_ne_none _).symm fun h => by omega
  · rw [Option.some.injEq, eq_comm]
    exact ⟨fun h => ⟨by omega, h⟩, And.right⟩

theorem solverOp_pubKeyHash : solverOp op ⟨OP_PUBKEYHASH, []⟩ vSolutions = some vSolutions' ↔
    op.vch.length = 20 ∧ vSolutions' = vSolutions ++ [op.vch] := by
  rw [solverOp, if_neg (by decide), if_pos rfl]
  split
  · rename_i h
    exact iff_of_false (Option.some_ne_none _).symm fun h' => h h'.1
  · rename_i h
    rw [Option.some.injEq, eq_comm]
    exact ⟨fun h' => ⟨not_not.mp h, h'⟩, And.right⟩

theorem solverOp_smallInteger : solverOp op ⟨OP_SMALLINTEGER, []⟩ vSolutions = some vSolutions' ↔
    ∃ n, IsSmallInteger op n ∧ vSolutions' = vSolutions ++ [[n]] := by
  rw [solverOp, if_neg (by decide), if_neg (by decide), if_pos rfl]
  constructor
  · intro h
    split at h
    · rename_i hzero
      cases h
      exact ⟨0, .inl ⟨hzero, rfl⟩, rfl⟩
    · split at h
      · rename_i hrange
        cases h
        exact ⟨_, .inr ⟨hrange, rfl⟩, rfl⟩
      · cases h
  · rintro ⟨n, ⟨hzero, rfl⟩ | ⟨hrange, rfl⟩, rfl⟩
    · rw [if_pos hzero]
    · rw [if_neg, if_pos hrange]
      intro hzero
      rw [hzero] at hrange
      exact absurd hrange.1 (by decide)

theorem solverOp_smallData : solverOp op ⟨OP_SMALLDATA, []⟩ vSolutions = some vSolutions' ↔
    op.vch.length ≤ MAX_OP_RETURN_RELAY ∧ vSolutions' = vSolutions := by
  rw [solverOp, if_neg (by decide), if_neg (by decide), if_neg (by decide), if_pos rfl]
  split
  · exact iff_of_false (Option.some_ne_none _).symm fun h => by omega
  · rw [Option.some.injEq, eq_comm]
    exact ⟨fun h => ⟨by omega, h⟩, And.right⟩

theorem solverOp_plain {opcode : UInt8} (h : IsPlain opcode) :
    solverOp op ⟨opcode, []⟩ vSolutions = some vSolutions' ↔
      op = ⟨opcode, []⟩ ∧ vSolutions' = vSolutions := by
  rw [solverOp, if_neg h.1, if_neg h.2.1, if_neg h.2.2.1, if_neg h.2.2.2.1]
  split
  · rename_i hne
    exact iff_of_false (Option.some_ne_none _).symm fun h' => hne h'.1
  · rename_i heq
    rw [Option.some.injEq, eq_comm]
    exact ⟨fun h' => ⟨not_not.mp heq, h'⟩, And.right⟩

/-! ## The comparison of operations -/

/-- The operations of a script compared with those of a template. -/
def matchOps : List ScriptOp → List ScriptOp → List Bytes → Option (List Bytes)
  | [], [], vSolutions => some vSolutions
  | op1 :: ops1, op2 :: ops2, vSolutions => (solverOp op1 op2 vSolutions).bind (matchOps ops1 ops2)
  | _, _, _ => none

theorem solverMatch_nil_iff : solverMatch pc1 [] vSolutions = some out ↔
    pc1 = [] ∧ vSolutions = out := by
  rw [solverMatch]
  by_cases hnil : pc1 = []
  · rw [if_pos ⟨hnil, rfl⟩, Option.some.injEq]
    exact (and_iff_right hnil).symm
  · rw [if_neg fun h => hnil h.1]
    refine iff_of_false (fun h => ?_) fun h => hnil h.1
    split at h
    · cases h
    · cases h
    · rename_i heq
      cases heq

/-- One operation of the script and one of the template, which does not collect public keys. -/
theorem solverMatch_cons (hop2 : getOp2 pc2 = (some op2, pc2')) (hkeys : op2.opcode ≠ OP_PUBKEYS) :
    solverMatch pc1 pc2 vSolutions = some out ↔ ∃ op1 pc1', getOp2 pc1 = (some op1, pc1') ∧
      ∃ vSolutions', solverOp op1 op2 vSolutions = some vSolutions' ∧
        solverMatch pc1' pc2' vSolutions' = some out := by
  have hne : ¬(pc1 = [] ∧ pc2 = []) := by
    rintro ⟨-, rfl⟩
    cases hop2
  rw [solverMatch, if_neg hne]
  split
  · rename_i hnone
    refine iff_of_false nofun ?_
    rintro ⟨op1, pc1', hop1, -⟩
    rw [hnone] at hop1
    cases hop1
  · rename_i hnone _
    rw [hop2] at hnone
    cases hnone
  · rename_i op1 pc1' _ _ hop1 h2
    rw [hop2] at h2
    cases h2
    rw [if_neg hkeys]
    constructor
    · intro h
      cases hop : solverOp op1 op2 vSolutions with
      | none =>
        rw [hop] at h
        cases h
      | some vSolutions' =>
        rw [hop] at h
        exact ⟨op1, pc1', hop1, vSolutions', hop, h⟩
    · rintro ⟨op1', pc1'', hop1', vSolutions', hop, h⟩
      rw [hop1] at hop1'
      cases hop1'
      rw [hop]
      exact h

/-- The comparison with a template goes through the operations of the script. -/
theorem solverMatch_iff : ∀ {ops2 : List ScriptOp} {pc1 pc2 : Bytes} {vSolutions : List Bytes},
    getOps pc2 = some ops2 → (∀ op2 ∈ ops2, op2.opcode ≠ OP_PUBKEYS) →
    (solverMatch pc1 pc2 vSolutions = some out ↔
      ∃ ops1, getOps pc1 = some ops1 ∧ matchOps ops1 ops2 vSolutions = some out)
  | [], pc1, pc2, vSolutions, h2, _ => by
    rw [getOps_eq_nil.mp h2, solverMatch_nil_iff]
    constructor
    · rintro ⟨rfl, rfl⟩
      exact ⟨[], getOps_nil, rfl⟩
    · rintro ⟨ops1, h1, hmatch⟩
      match ops1, h1, hmatch with
      | [], h1, hmatch => exact ⟨getOps_eq_nil.mp h1, Option.some.inj hmatch⟩
  | op2 :: ops2, pc1, pc2, vSolutions, h2, hkeys => by
    obtain ⟨pc2', hop2, h2'⟩ := getOps_eq_cons.mp h2
    rw [List.forall_mem_cons] at hkeys
    rw [solverMatch_cons hop2 hkeys.1]
    constructor
    · rintro ⟨op1, pc1', hop1, vSolutions', hop, hrest⟩
      obtain ⟨ops1, h1, hmatch⟩ := (solverMatch_iff h2' hkeys.2).mp hrest
      refine ⟨op1 :: ops1, getOps_eq_cons.mpr ⟨pc1', hop1, h1⟩, ?_⟩
      rw [matchOps, hop]
      exact hmatch
    · rintro ⟨ops1, h1, hmatch⟩
      match ops1, h1, hmatch with
      | op1 :: ops1, h1, hmatch =>
        obtain ⟨pc1', hop1, h1'⟩ := getOps_eq_cons.mp h1
        obtain ⟨vSolutions', hop, hmatch⟩ := Option.bind_eq_some_iff.mp hmatch
        exact ⟨op1, pc1', hop1, vSolutions', hop,
          (solverMatch_iff h2' hkeys.2).mpr ⟨ops1, h1', hmatch⟩⟩

/-! ## Several public keys -/

theorem vch_of_smallInteger {n : UInt8} (hop : getOp2 pc = (some op, pc')) (h : IsSmallInteger op n) :
    op.vch = [] := by
  match pc, hop with
  | opcode :: pc, hop =>
    rw [getOp2] at hop
    split at hop
    · rename_i hpush
      split at hop
      · cases hop
      obtain ⟨hopcode, -⟩ := getPushData_eq_append hop
      rcases h with ⟨hzero, -⟩ | ⟨⟨hlo, -⟩, -⟩
      · obtain rfl : opcode = OP_0 := hopcode.symm.trans hzero
        cases hop
        rfl
      · rw [hopcode] at hlo
        exact absurd (UInt8.le_trans hlo hpush) (by decide)
    · cases hop
      rfl

/-- The loop collects the operations with data of the size of a public key, and stops after the
first other operation. -/
theorem solverPubKeys_of {opN : ScriptOp} {ops : List ScriptOp} (hN : ¬PubKeySize opN.vch) :
    ∀ {keys : List ScriptOp} {pc0 pc : Bytes} {op : ScriptOp} (vSolutions : List Bytes),
    (∀ k ∈ keys, PubKeySize k.vch) → getOps pc0 = some (keys ++ opN :: ops) →
    getOp2 pc0 = (some op, pc) →
    ∃ pc', solverPubKeys op pc vSolutions = (opN, pc', vSolutions ++ keys.map ScriptOp.vch) ∧
      getOps pc' = some ops
  | [], pc0, pc, op, vSolutions, _, hops, hop => by
    obtain ⟨pc', hop', hrest⟩ := getOps_eq_cons.mp hops
    rw [hop] at hop'
    cases hop'
    refine ⟨pc, ?_, hrest⟩
    rw [solverPubKeys, if_neg (show ¬(33 ≤ opN.vch.length ∧ opN.vch.length ≤ 65) from hN),
      List.map_nil, List.append_nil]
  | key :: keys, pc0, pc, op, vSolutions, hkeys, hops, hop => by
    obtain ⟨pc', hop', hrest⟩ := getOps_eq_cons.mp hops
    rw [hop] at hop'
    cases hop'
    rw [List.forall_mem_cons] at hkeys
    obtain ⟨op', pc'', hop'⟩ : ∃ op' pc'', getOp2 pc = (some op', pc'') := by
      cases keys with
      | nil =>
        obtain ⟨pc'', hop', -⟩ := getOps_eq_cons.mp hrest
        exact ⟨_, _, hop'⟩
      | cons key' keys =>
        obtain ⟨pc'', hop', -⟩ := getOps_eq_cons.mp hrest
        exact ⟨_, _, hop'⟩
    obtain ⟨pc3, hloop, hlast⟩ := solverPubKeys_of hN (vSolutions ++ [key.vch]) hkeys.2 hrest hop'
    refine ⟨pc3, ?_, hlast⟩
    rw [solverPubKeys, if_pos (show 33 ≤ key.vch.length ∧ key.vch.length ≤ 65 from hkeys.1)]
    split
    · rename_i hnone
      rw [hop'] at hnone
      cases hnone
    · rename_i hsome
      rw [hop'] at hsome
      cases hsome
      rw [hloop, List.map_cons, List.append_assoc]
      rfl

/-- What the loop collected, and where it stopped : after an operation, or where none can be
read. -/
theorem solverPubKeys_cases (op : ScriptOp) (pc : Bytes) (vSolutions : List Bytes) :
    (solverPubKeys op pc vSolutions).1 = ⟨OP_INVALIDOPCODE, []⟩ ∨
    ∃ keys : List ScriptOp, (∀ k ∈ keys, PubKeySize k.vch) ∧
      (solverPubKeys op pc vSolutions).2.2 = vSolutions ++ keys.map ScriptOp.vch ∧
      ∀ pc0 ops, getOp2 pc0 = (some op, pc) → getOps (solverPubKeys op pc vSolutions).2.1 = some ops →
        getOps pc0 = some (keys ++ (solverPubKeys op pc vSolutions).1 :: ops) := by
  fun_induction solverPubKeys op pc vSolutions with
  | case1 op pc vSolutions hsize pc' hop => exact .inl rfl
  | case2 op pc vSolutions hsize op' pc' hop ih =>
    refine ih.imp_right ?_
    rintro ⟨keys, hkeys, hout, hread⟩
    refine ⟨op :: keys, List.forall_mem_cons.mpr ⟨hsize, hkeys⟩, ?_, fun pc0 ops hop0 hops => ?_⟩
    · rw [hout, List.append_assoc]
      rfl
    · exact getOps_eq_cons.mpr ⟨pc, hop0, hread pc ops hop hops⟩
  | case3 op pc vSolutions hsize =>
    refine .inr ⟨[], fun _ h => absurd h List.not_mem_nil, (List.append_nil _).symm,
      fun pc0 ops hop0 hops => getOps_eq_cons.mpr ⟨pc, hop0, hops⟩⟩

theorem not_smallInteger_invalid {n : UInt8} : ¬IsSmallInteger ⟨OP_INVALIDOPCODE, []⟩ n := by
  rintro (⟨h, -⟩ | ⟨⟨-, h⟩, -⟩)
  · exact absurd h (by decide)
  · exact absurd h (by decide)

theorem getOps_checkMultisig : getOps pc = some [⟨OP_CHECKMULTISIG, []⟩] ↔
    solverMatch pc [OP_CHECKMULTISIG] vSolutions = some vSolutions := by
  have htemplate : getOp2 [OP_CHECKMULTISIG] = (some ⟨OP_CHECKMULTISIG, []⟩, []) := rfl
  rw [solverMatch_cons htemplate (by decide), getOps_eq_cons]
  constructor
  · rintro ⟨pc', hop, hnil⟩
    exact ⟨_, pc', hop, vSolutions, (solverOp_plain (by decide)).mpr ⟨rfl, rfl⟩,
      solverMatch_nil_iff.mpr ⟨getOps_eq_nil.mp hnil, rfl⟩⟩
  · rintro ⟨op, pc', hop, vSolutions', hplain, hnil⟩
    obtain ⟨rfl, -⟩ := (solverOp_plain (by decide)).mp hplain
    exact ⟨pc', hop, getOps_eq_nil.mpr (solverMatch_nil_iff.mp hnil).1⟩

/-- The comparison of the keys, the number after them and the opcode at the end. -/
theorem solverMatch_pubKeys :
    solverMatch pc1 [OP_PUBKEYS, OP_SMALLINTEGER, OP_CHECKMULTISIG] vSolutions = some out ↔
      ∃ keys opN n, getOps pc1 = some (keys ++ [opN, ⟨OP_CHECKMULTISIG, []⟩]) ∧
        (∀ k ∈ keys, PubKeySize k.vch) ∧ IsSmallInteger opN n ∧
        out = vSolutions ++ keys.map ScriptOp.vch ++ [[n]] := by
  have hkeysOp : getOp2 [OP_PUBKEYS, OP_SMALLINTEGER, OP_CHECKMULTISIG] =
    (some ⟨OP_PUBKEYS, []⟩, [OP_SMALLINTEGER, OP_CHECKMULTISIG]) := rfl
  have hintOp : getOp2 [OP_SMALLINTEGER, OP_CHECKMULTISIG] =
    (some ⟨OP_SMALLINTEGER, []⟩, [OP_CHECKMULTISIG]) := rfl
  have hcmsOp : getOp2 [OP_CHECKMULTISIG] = (some ⟨OP_CHECKMULTISIG, []⟩, []) := rfl
  have hcms : ∀ {pc vs}, solverMatch pc [OP_CHECKMULTISIG] vs = some out ↔
      getOps pc = some [⟨OP_CHECKMULTISIG, []⟩] ∧ vs = out := by
    intro pc vs
    refine ⟨fun h => ?_, fun ⟨h, hout⟩ => hout ▸ getOps_checkMultisig.mp h⟩
    obtain ⟨op, pc', hop, vs', hplain, hnil⟩ := (solverMatch_cons hcmsOp (by decide)).mp h
    obtain ⟨rfl, rfl⟩ := (solverOp_plain (by decide)).mp hplain
    obtain ⟨rfl, rfl⟩ := solverMatch_nil_iff.mp hnil
    exact ⟨getOps_eq_cons.mpr ⟨[], hop, getOps_nil⟩, rfl⟩
  rw [solverMatch, if_neg fun h => List.cons_ne_nil _ _ h.2]
  split
  · rename_i hnone
    refine iff_of_false nofun ?_
    rintro ⟨keys, opN, n, hops, -⟩
    cases keys with
    | nil =>
      obtain ⟨pc', hop, -⟩ := getOps_eq_cons.mp hops
      rw [hnone] at hop
      cases hop
    | cons key keys =>
      obtain ⟨pc', hop, -⟩ := getOps_eq_cons.mp hops
      rw [hnone] at hop
      cases hop
  · rename_i hnone _
    rw [hkeysOp] at hnone
    cases hnone
  rename_i op1 pc1' _ _ hop1 heq
  rw [hkeysOp] at heq
  cases heq
  rw [if_pos rfl]
  split
  · rename_i hnone
    rw [hintOp] at hnone
    cases hnone
  rename_i opN pc' vSolutions' _ _ hloop heq
  rw [hintOp] at heq
  cases heq
  constructor
  · intro h
    cases hint : solverOp opN ⟨OP_SMALLINTEGER, []⟩ vSolutions' with
    | none =>
      rw [hint] at h
      cases h
    | some vs =>
      rw [hint] at h
      obtain ⟨n, hN, rfl⟩ := solverOp_smallInteger.mp hint
      obtain ⟨hlast, rfl⟩ := hcms.mp h
      rcases solverPubKeys_cases op1 pc1' vSolutions with hinvalid | ⟨keys, hkeys, hout, hread⟩
      · rw [hloop] at hinvalid
        cases hinvalid
        exact absurd hN not_smallInteger_invalid
      · rw [hloop] at hout hread
        exact ⟨keys, opN, n, hread pc1 _ hop1 hlast, hkeys, hN, by rw [show vSolutions' = _ from hout]⟩
  · rintro ⟨keys, opN', n, hops, hkeys, hN, rfl⟩
    have hsize : ¬PubKeySize opN'.vch := by
      have hread : ∀ {keys : List ScriptOp} {pc : Bytes}, getOps pc =
          some (keys ++ [opN', ⟨OP_CHECKMULTISIG, []⟩]) → opN'.vch = [] := by
        intro keys
        induction keys with
        | nil =>
          intro pc h
          obtain ⟨pc', hop, -⟩ := getOps_eq_cons.mp h
          exact vch_of_smallInteger hop hN
        | cons key keys ih =>
          intro pc h
          obtain ⟨pc', -, hrest⟩ := getOps_eq_cons.mp h
          exact ih hrest
      rw [hread hops]
      decide
    obtain ⟨pc'', hloop', hlast⟩ := solverPubKeys_of hsize vSolutions hkeys hops hop1
    rw [hloop] at hloop'
    cases hloop'
    rw [solverOp_smallInteger.mpr ⟨n, hN, rfl⟩]
    exact hcms.mpr ⟨hlast, rfl⟩

end

/-! ## The templates -/

/-- The operations of the scripts of a type, and the data that are returned. -/
inductive Template : List ScriptOp → TxnOutType → List Bytes → Prop
  | scripthash {hash : Bytes} (h : hash.length = 20) :
      Template [⟨OP_HASH160, []⟩, ⟨0x14, hash⟩, ⟨OP_EQUAL, []⟩] .scripthash [hash]
  | pubkey {push : ScriptOp} (h : PubKeySize push.vch) :
      Template [push, ⟨OP_CHECKSIG, []⟩] .pubkey [push.vch]
  | pubkeyhash {push : ScriptOp} (h : push.vch.length = 20) :
      Template [⟨OP_DUP, []⟩, ⟨OP_HASH160, []⟩, push, ⟨OP_EQUALVERIFY, []⟩, ⟨OP_CHECKSIG, []⟩]
        .pubkeyhash [push.vch]
  | multisig {opM opN : ScriptOp} {keys : List ScriptOp} {m n : UInt8} (hM : IsSmallInteger opM m)
      (hkeys : ∀ k ∈ keys, PubKeySize k.vch) (hN : IsSmallInteger opN n) :
      Template (opM :: (keys ++ [opN, ⟨OP_CHECKMULTISIG, []⟩])) .multisig
        ([m] :: (keys.map ScriptOp.vch ++ [[n]]))
  | nullData {op : ScriptOp} (h : op.vch.length ≤ MAX_OP_RETURN_RELAY) :
      Template [⟨OP_RETURN, []⟩, op] .nullData []
  | nullDataAlone : Template [⟨OP_RETURN, []⟩] .nullData []

section

variable {script : Bytes} {ops : List ScriptOp} {type type' : TxnOutType} {data data' : List Bytes}

theorem matchOps_cons_iff {ops2 : List ScriptOp} {op2 : ScriptOp} {vSolutions out : List Bytes} :
    matchOps ops (op2 :: ops2) vSolutions = some out ↔ ∃ op1 ops1, ops = op1 :: ops1 ∧
      ∃ vSolutions', solverOp op1 op2 vSolutions = some vSolutions' ∧
        matchOps ops1 ops2 vSolutions' = some out := by
  cases ops with
  | nil => exact iff_of_false nofun fun ⟨_, _, h, _⟩ => List.cons_ne_nil _ _ h.symm
  | cons op1 ops1 =>
    rw [matchOps, Option.bind_eq_some_iff]
    constructor
    · intro h
      exact ⟨op1, ops1, rfl, h⟩
    · rintro ⟨_, _, heq, h⟩
      cases heq
      exact h

theorem matchOps_nil_iff {vSolutions out : List Bytes} :
    matchOps ops [] vSolutions = some out ↔ ops = [] ∧ vSolutions = out := by
  cases ops with
  | nil => rw [matchOps, Option.some.injEq, and_iff_right rfl]
  | cons op ops => exact iff_of_false nofun fun h => List.cons_ne_nil _ _ h.1

/-- A template of single operations is compared with all operations of the script. -/
theorem solverMatch_opcodes {script2 : Bytes} (h : ∀ opcode ∈ script2, ¬opcode ≤ OP_PUSHDATA4 ∧
    opcode ≠ OP_PUBKEYS) : solverMatch script script2 [] = some data ↔
      ∃ ops, getOps script = some ops ∧
        matchOps ops (script2.map fun opcode => ⟨opcode, []⟩) [] = some data := by
  refine solverMatch_iff (getOps_opcodes fun opcode hmem => (h opcode hmem).1) fun op hop => ?_
  obtain ⟨opcode, hmem, rfl⟩ := List.mem_map.mp hop
  exact (h opcode hmem).2

theorem getOp2_multisigTemplate :
    getOp2 [OP_SMALLINTEGER, OP_PUBKEYS, OP_SMALLINTEGER, OP_CHECKMULTISIG] =
      (some ⟨OP_SMALLINTEGER, []⟩, [OP_PUBKEYS, OP_SMALLINTEGER, OP_CHECKMULTISIG]) := rfl

/-- What matches a template has its operations. -/
theorem template_of_solverMatch {t : TxnOutType × Bytes} (ht : t ∈ templates)
    (h : solverMatch script t.2 [] = some data) :
    ∃ ops, getOps script = some ops ∧ Template ops t.1 data := by
  simp only [templates, List.mem_cons, List.not_mem_nil, or_false] at ht
  rcases ht with rfl | rfl | rfl | rfl | rfl
  · obtain ⟨ops, hops, hmatch⟩ := (solverMatch_opcodes (by decide +kernel)).mp h
    simp only [List.map_cons, List.map_nil, matchOps_cons_iff, matchOps_nil_iff, solverOp_pubKey,
      solverOp_plain (show IsPlain OP_CHECKSIG by decide), List.nil_append] at hmatch
    obtain ⟨push, _, rfl, _, ⟨hsize, rfl⟩, _, _, rfl, _, ⟨rfl, rfl⟩, rfl, rfl⟩ := hmatch
    exact ⟨_, hops, .pubkey hsize⟩
  · obtain ⟨ops, hops, hmatch⟩ := (solverMatch_opcodes (by decide +kernel)).mp h
    simp only [List.map_cons, List.map_nil, matchOps_cons_iff, matchOps_nil_iff, solverOp_pubKeyHash,
      solverOp_plain (show IsPlain OP_DUP by decide), solverOp_plain (show IsPlain OP_HASH160 by decide),
      solverOp_plain (show IsPlain OP_EQUALVERIFY by decide),
      solverOp_plain (show IsPlain OP_CHECKSIG by decide)] at hmatch
    obtain ⟨_, _, rfl, _, ⟨rfl, rfl⟩, _, _, rfl, _, ⟨rfl, rfl⟩, push, _, rfl, _, ⟨hsize, rfl⟩, _, _, rfl,
      _, ⟨rfl, rfl⟩, _, _, rfl, _, ⟨rfl, rfl⟩, rfl, rfl⟩ := hmatch
    exact ⟨_, hops, .pubkeyhash hsize⟩
  · obtain ⟨opM, pc1, hop, vSolutions, hint, hmatch⟩ :=
      (solverMatch_cons getOp2_multisigTemplate (by decide)).mp h
    obtain ⟨m, hM, rfl⟩ := solverOp_smallInteger.mp hint
    obtain ⟨keys, opN, n, hops, hkeys, hN, rfl⟩ := solverMatch_pubKeys.mp hmatch
    exact ⟨_, getOps_eq_cons.mpr ⟨pc1, hop, hops⟩, .multisig hM hkeys hN⟩
  · obtain ⟨ops, hops, hmatch⟩ := (solverMatch_opcodes (by decide +kernel)).mp h
    simp only [List.map_cons, List.map_nil, matchOps_cons_iff, matchOps_nil_iff, solverOp_smallData,
      solverOp_plain (show IsPlain OP_RETURN by decide)] at hmatch
    obtain ⟨_, _, rfl, _, ⟨rfl, rfl⟩, op, _, rfl, _, ⟨hsize, rfl⟩, rfl, rfl⟩ := hmatch
    exact ⟨_, hops, .nullData hsize⟩
  · obtain ⟨ops, hops, hmatch⟩ := (solverMatch_opcodes (by decide +kernel)).mp h
    simp only [List.map_cons, List.map_nil, matchOps_cons_iff, matchOps_nil_iff,
      solverOp_plain (show IsPlain OP_RETURN by decide)] at hmatch
    obtain ⟨_, _, rfl, _, ⟨rfl, rfl⟩, rfl, rfl⟩ := hmatch
    exact ⟨_, hops, .nullDataAlone⟩

/-- What has the operations of a template matches it. -/
theorem solverMatch_of_template (hops : getOps script = some ops) (h : Template ops type data)
    (hhash : type ≠ .scripthash) :
    ∃ script2, (type, script2) ∈ templates ∧ solverMatch script script2 [] = some data := by
  cases h with
  | scripthash => exact absurd rfl hhash
  | pubkey hsize =>
    refine ⟨[OP_PUBKEY, OP_CHECKSIG], by decide, (solverMatch_opcodes (by decide +kernel)).mpr ⟨_, hops, ?_⟩⟩
    simp only [List.map_cons, List.map_nil, matchOps_cons_iff, matchOps_nil_iff, solverOp_pubKey,
      solverOp_plain (show IsPlain OP_CHECKSIG by decide), List.nil_append]
    exact ⟨_, _, rfl, _, ⟨hsize, rfl⟩, _, _, rfl, _, ⟨rfl, rfl⟩, rfl, rfl⟩
  | pubkeyhash hsize =>
    refine ⟨[OP_DUP, OP_HASH160, OP_PUBKEYHASH, OP_EQUALVERIFY, OP_CHECKSIG], by decide,
      (solverMatch_opcodes (by decide +kernel)).mpr ⟨_, hops, ?_⟩⟩
    simp only [List.map_cons, List.map_nil, matchOps_cons_iff, matchOps_nil_iff, solverOp_pubKeyHash,
      solverOp_plain (show IsPlain OP_DUP by decide), solverOp_plain (show IsPlain OP_HASH160 by decide),
      solverOp_plain (show IsPlain OP_EQUALVERIFY by decide),
      solverOp_plain (show IsPlain OP_CHECKSIG by decide)]
    exact ⟨_, _, rfl, _, ⟨rfl, rfl⟩, _, _, rfl, _, ⟨rfl, rfl⟩, _, _, rfl, _, ⟨hsize, rfl⟩, _, _, rfl, _,
      ⟨rfl, rfl⟩, _, _, rfl, _, ⟨rfl, rfl⟩, rfl, rfl⟩
  | multisig hM hkeys hN =>
    obtain ⟨pc1, hop, hrest⟩ := getOps_eq_cons.mp hops
    refine ⟨[OP_SMALLINTEGER, OP_PUBKEYS, OP_SMALLINTEGER, OP_CHECKMULTISIG], by decide,
      (solverMatch_cons getOp2_multisigTemplate (by decide)).mpr
        ⟨_, pc1, hop, _, solverOp_smallInteger.mpr ⟨_, hM, rfl⟩,
          solverMatch_pubKeys.mpr ⟨_, _, _, hrest, hkeys, hN, ?_⟩⟩⟩
    rfl
  | nullData hsize =>
    refine ⟨[OP_RETURN, OP_SMALLDATA], by decide,
      (solverMatch_opcodes (by decide +kernel)).mpr ⟨_, hops, ?_⟩⟩
    simp only [List.map_cons, List.map_nil, matchOps_cons_iff, matchOps_nil_iff, solverOp_smallData,
      solverOp_plain (show IsPlain OP_RETURN by decide)]
    exact ⟨_, _, rfl, _, ⟨rfl, rfl⟩, _, _, rfl, _, ⟨hsize, rfl⟩, rfl, rfl⟩
  | nullDataAlone =>
    refine ⟨[OP_RETURN], by decide, (solverMatch_opcodes (by decide +kernel)).mpr ⟨_, hops, ?_⟩⟩
    simp only [List.map_cons, List.map_nil, matchOps_cons_iff, matchOps_nil_iff,
      solverOp_plain (show IsPlain OP_RETURN by decide)]
    exact ⟨_, _, rfl, _, ⟨rfl, rfl⟩, rfl, rfl⟩

/-! ## One template for a script -/

/-- The type that the operations tell. -/
def templateType (ops : List ScriptOp) : TxnOutType :=
  if ops.head? = some ⟨OP_RETURN, []⟩ then .nullData
  else if ops.getLast? = some ⟨OP_EQUAL, []⟩ then .scripthash
  else if ops.getLast? = some ⟨OP_CHECKMULTISIG, []⟩ then .multisig
  else if ops.length = 2 then .pubkey
  else .pubkeyhash

theorem templateType_multisig {opM opN : ScriptOp} {keys : List ScriptOp} {m : UInt8}
    (hM : IsSmallInteger opM m) :
    templateType (opM :: (keys ++ [opN, ⟨OP_CHECKMULTISIG, []⟩])) = .multisig := by
  rw [templateType, if_neg, ← List.cons_append, List.append_cons, List.getLast?_concat, if_neg,
    if_pos rfl]
  · exact fun heq => absurd heq (by decide)
  · intro heq
    rw [List.head?_cons] at heq
    rw [Option.some.inj heq] at hM
    rcases hM with ⟨hzero, -⟩ | ⟨⟨-, hle⟩, -⟩
    · exact absurd hzero (by decide)
    · exact absurd hle (by decide)

theorem Template.type_eq (h : Template ops type data) : templateType ops = type := by
  cases h with
  | scripthash => rfl
  | @pubkey push hsize =>
    rw [templateType, if_neg]
    · rfl
    · intro heq
      rw [Option.some.inj heq] at hsize
      exact absurd hsize (by decide)
  | pubkeyhash => rfl
  | multisig hM => exact templateType_multisig hM
  | nullData => rfl
  | nullDataAlone => rfl

theorem Template.data_nullData (h : Template ops .nullData data) : data = [] := by
  cases h <;> rfl

/-- What `Solver` returns for a template that matches. -/
def templateVerdict (type : TxnOutType) (data : List Bytes) : Option (Bool × TxnOutType × List Bytes) :=
  if type = .multisig then (checkMultisig data).map fun ok => (ok, type, data)
  else some (true, type, data)

theorem scanTemplates_of_match : ∀ {list : List (TxnOutType × Bytes)},
    (∀ t ∈ list, ∀ d, solverMatch script t.2 [] = some d → t.1 = type ∧ d = data) →
    (∃ t ∈ list, ∃ d, solverMatch script t.2 [] = some d) →
    scanTemplates script list = templateVerdict type data
  | [], _, ⟨_, hmem, _⟩ => absurd hmem List.not_mem_nil
  | t :: list, hall, hone => by
    rw [List.forall_mem_cons] at hall
    rw [scanTemplates]
    cases hmatch : solverMatch script t.2 [] with
    | none =>
      refine scanTemplates_of_match hall.2 ?_
      obtain ⟨t', hmem, d, hd⟩ := hone
      rcases List.mem_cons.mp hmem with rfl | hmem
      · rw [hmatch] at hd
        cases hd
      · exact ⟨t', hmem, d, hd⟩
    | some d =>
      obtain ⟨rfl, rfl⟩ := hall.1 d hmatch
      rfl

theorem scanTemplates_of_none : ∀ {list : List (TxnOutType × Bytes)},
    (∀ t ∈ list, solverMatch script t.2 [] = none) →
    scanTemplates script list = some (false, .nonstandard, [])
  | [], _ => rfl
  | t :: list, h => by
    rw [List.forall_mem_cons] at h
    rw [scanTemplates, h.1]
    exact scanTemplates_of_none h.2

/-! ## Pay to script hash -/

theorem isPayToScriptHash_iff : isPayToScriptHash script = true ↔
    ∃ hash : Bytes, hash.length = 20 ∧ script = OP_HASH160 :: 0x14 :: (hash ++ [OP_EQUAL]) := by
  rw [isPayToScriptHash, Bool.and_eq_true, Bool.and_eq_true, Bool.and_eq_true, beq_iff_eq, beq_iff_eq,
    beq_iff_eq, beq_iff_eq]
  constructor
  · rintro ⟨⟨⟨hlen, h0⟩, h1⟩, h22⟩
    match script, hlen, h0, h1, h22 with
    | _ :: _ :: rest, hlen, h0, h1, h22 =>
      cases h0
      cases h1
      have hrest : rest.length = 21 := by simpa using hlen
      have hlast : rest[20]? = some OP_EQUAL := h22
      obtain ⟨hash, b, rfl⟩ : ∃ hash b, rest = hash ++ [b] :=
        ⟨_, _, (List.dropLast_append_getLast (List.ne_nil_of_length_pos (by omega))).symm⟩
      rw [List.length_append, List.length_singleton] at hrest
      have hhash : hash.length = 20 := by omega
      rw [List.getElem?_append_right (by omega), hhash] at hlast
      cases hlast
      exact ⟨hash, hhash, rfl⟩
  · rintro ⟨hash, hlen, rfl⟩
    refine ⟨⟨⟨?_, rfl⟩, rfl⟩, ?_⟩
    · rw [List.length_cons, List.length_cons, List.length_append, hlen]
      rfl
    · change (hash ++ [OP_EQUAL])[20]? = _
      rw [List.getElem?_append_right (by omega), hlen]
      rfl

/-- A direct push is its opcode and its data. -/
theorem eq_of_directPush {op : ScriptOp} {pc pc' : Bytes} (hop : getOp2 pc = (some op, pc'))
    (h : op.opcode < OP_PUSHDATA1) : pc = op.opcode :: (op.vch ++ pc') := by
  match pc, hop with
  | opcode :: pc, hop =>
    rw [getOp2] at hop
    split at hop
    · split at hop
      · cases hop
      obtain ⟨hopcode, hdata⟩ := getPushData_eq_append hop
      rw [← hopcode, pushSizeWidth, if_pos h, List.drop_zero] at hdata
      rw [hopcode, hdata]
    · rename_i hpush
      cases hop
      exact absurd (UInt8.le_of_lt (UInt8.lt_of_lt_of_le h (by decide))) hpush

theorem eq_of_opcode {op : ScriptOp} {pc pc' : Bytes} (hop : getOp2 pc = (some op, pc'))
    (h : OP_PUSHDATA4 < op.opcode) : pc = op.opcode :: pc' := by
  obtain ⟨data, hpc, hdata⟩ := getOp2_eq_append hop
  rw [hpc, hdata h, List.nil_append]

/-- The bytes of a script that pays to a script hash, and its operations. -/
theorem getOps_scripthash {hash : Bytes} (hlen : hash.length = 20) :
    getOps script = some [⟨OP_HASH160, []⟩, ⟨0x14, hash⟩, ⟨OP_EQUAL, []⟩] ↔
      script = OP_HASH160 :: 0x14 :: (hash ++ [OP_EQUAL]) := by
  constructor
  · intro h
    obtain ⟨pc1, hop1, h⟩ := getOps_eq_cons.mp h
    obtain ⟨pc2, hop2, h⟩ := getOps_eq_cons.mp h
    obtain ⟨pc3, hop3, h⟩ := getOps_eq_cons.mp h
    rw [eq_of_opcode hop1 (by decide), eq_of_directPush hop2 (show (0x14 : UInt8) < OP_PUSHDATA1 by decide),
      eq_of_opcode hop3 (by decide), getOps_eq_nil.mp h]
  · rintro rfl
    have hpush : getOp2 (0x14 :: (hash ++ [OP_EQUAL])) = (some ⟨0x14, hash⟩, [OP_EQUAL]) :=
      getOp2_push 0x14 [] hash [OP_EQUAL] (by decide) rfl hlen.symm
    rw [getOps_opcode (by decide), getOps_of_some hpush, getOps_opcode (by decide), getOps_nil]
    rfl

/-! ## Solver -/

/-- A script with the operations of a template is of its type. -/
theorem solver_of_template (hops : getOps script = some ops) (h : Template ops type data) :
    solver script = templateVerdict type data := by
  by_cases hhash : type = .scripthash
  · subst hhash
    cases h with
    | @scripthash hash hlen =>
      have hscript := (getOps_scripthash hlen).mp hops
      rw [solver, if_pos (isPayToScriptHash_iff.mpr ⟨hash, hlen, hscript⟩), hscript]
      change some (true, _, [(hash ++ [OP_EQUAL]).take 20]) = _
      rw [← hlen, List.take_left]
      rfl
  · have hnot : ¬isPayToScriptHash script = true := by
      intro hscript
      obtain ⟨hash, hlen, hscript⟩ := isPayToScriptHash_iff.mp hscript
      rw [(getOps_scripthash hlen).mpr hscript, Option.some.injEq] at hops
      rw [← h.type_eq, ← hops] at hhash
      exact hhash rfl
    rw [solver, if_neg hnot]
    obtain ⟨script2, hmem, hmatch⟩ := solverMatch_of_template hops h hhash
    refine scanTemplates_of_match (fun t ht d hd => ?_) ⟨_, hmem, _, hmatch⟩
    obtain ⟨ops', hops', h'⟩ := template_of_solverMatch ht hd
    rw [hops] at hops'
    cases hops'
    have htype : t.1 = type := h'.type_eq.symm.trans h.type_eq
    refine ⟨htype, ?_⟩
    by_cases hnull : type = .nullData
    · rw [htype, hnull] at h'
      rw [hnull] at h
      rw [h'.data_nullData, h.data_nullData]
    · have hunique : ∀ t ∈ templates, ∀ t' ∈ templates, t.1 = t'.1 → t.1 ≠ .nullData → t = t' := by
        decide
      rw [hunique t ht _ hmem htype (htype ▸ hnull), hmatch] at hd
      exact (Option.some.inj hd).symm

/-- A script that has the operations of no template is not standard. -/
theorem solver_of_no_template (h : ∀ ops type data, getOps script = some ops → ¬Template ops type data) :
    solver script = some (false, .nonstandard, []) := by
  have hnot : ¬isPayToScriptHash script = true := by
    intro hscript
    obtain ⟨hash, hlen, hscript⟩ := isPayToScriptHash_iff.mp hscript
    exact h _ _ _ ((getOps_scripthash hlen).mpr hscript) (.scripthash hlen)
  rw [solver, if_neg hnot]
  refine scanTemplates_of_none fun t ht => ?_
  cases hmatch : solverMatch script t.2 [] with
  | none => rfl
  | some d =>
    obtain ⟨ops, hops, hd⟩ := template_of_solverMatch ht hmatch
    exact absurd hd (h _ _ _ hops)

theorem solver_cases (script : Bytes) :
    (∃ ops type data, getOps script = some ops ∧ Template ops type data ∧
      solver script = templateVerdict type data) ∨ solver script = some (false, .nonstandard, []) := by
  by_cases h : ∃ ops type data, getOps script = some ops ∧ Template ops type data
  · obtain ⟨ops, type, data, hops, htemplate⟩ := h
    exact .inl ⟨ops, type, data, hops, htemplate, solver_of_template hops htemplate⟩
  · exact .inr (solver_of_no_template fun ops type data hops htemplate =>
      h ⟨ops, type, data, hops, htemplate⟩)

/-- The operations of a script with several keys : `m`, the keys, `n` and the opcode. -/
def IsMultisigForm (script : Bytes) (m n : UInt8) (keys : List ScriptOp) : Prop :=
  ∃ opM opN, getOps script = some (opM :: (keys ++ [opN, ⟨OP_CHECKMULTISIG, []⟩])) ∧
    IsSmallInteger opM m ∧ IsSmallInteger opN n ∧ ∀ k ∈ keys, PubKeySize k.vch

/-- Its numbers fit : at least one signature is required, and no more than there are keys. -/
def CountsFit (m n : UInt8) (keys : List ScriptOp) : Prop :=
  1 ≤ m ∧ m ≤ n ∧ keys.length = n.toNat

theorem checkMultisig_eq (m n : UInt8) (keys : List ScriptOp) :
    ∃ ok : Bool, checkMultisig ([m] :: (keys.map ScriptOp.vch ++ [[n]])) = some ok ∧
      (ok = true ↔ CountsFit m n keys) := by
  have hlast : ([m] :: (keys.map ScriptOp.vch ++ [[n]])).getLast? = some [n] := by
    rw [← List.cons_append, List.getLast?_concat]
  have hlen : ([m] :: (keys.map ScriptOp.vch ++ [[n]])).length - 2 = keys.length := by
    rw [List.length_cons, List.length_append, List.length_map, List.length_singleton]
    omega
  rw [checkMultisig, hlast, hlen]
  refine ⟨_, rfl, ?_⟩
  simp only [Bool.not_eq_true', Bool.or_eq_false_iff, decide_eq_false_iff_not, ne_eq, not_not,
    UInt8.not_lt]
  constructor
  · rintro ⟨⟨⟨hm, -⟩, hle⟩, hkeys⟩
    exact ⟨hm, hle, hkeys⟩
  · rintro ⟨hm, hle, hkeys⟩
    exact ⟨⟨⟨hm, UInt8.le_trans hm hle⟩, hle⟩, hkeys⟩

/-- A script whose numbers do not fit keeps the type and the data of its template. -/
theorem solver_badMultisig {m n : UInt8} {keys : List ScriptOp} (h : IsMultisigForm script m n keys)
    (hcounts : ¬CountsFit m n keys) :
    solver script = some (false, .multisig, [m] :: (keys.map ScriptOp.vch ++ [[n]])) := by
  obtain ⟨opM, opN, hops, hM, hN, hkeys⟩ := h
  obtain ⟨ok, hcheck, hok⟩ := checkMultisig_eq m n keys
  obtain rfl : ok = false := Bool.eq_false_iff.mpr fun h => hcounts (hok.mp h)
  rw [solver_of_template hops (.multisig hM hkeys hN), templateVerdict, if_pos rfl, hcheck]
  rfl

theorem templateVerdict_true (h : templateVerdict type data = some (true, type', data')) :
    type = type' ∧ data = data' ∧ (type = .multisig → checkMultisig data = some true) := by
  rw [templateVerdict] at h
  split at h
  · obtain ⟨ok, hcheck, heq⟩ := Option.map_eq_some_iff.mp h
    cases heq
    exact ⟨rfl, rfl, fun _ => hcheck⟩
  · rename_i hne
    cases h
    exact ⟨rfl, rfl, fun heq => absurd heq hne⟩

/-- A script that is recognized has the operations of its template. -/
theorem template_of_solver (h : solver script = some (true, type, data)) :
    ∃ ops, getOps script = some ops ∧ Template ops type data ∧
      (type = .multisig → checkMultisig data = some true) := by
  rcases solver_cases script with ⟨ops, type', data', hops, htemplate, hsolver⟩ | hsolver
  · rw [hsolver] at h
    obtain ⟨rfl, rfl, hcheck⟩ := templateVerdict_true h
    exact ⟨ops, hops, htemplate, hcheck⟩
  · rw [hsolver] at h
    cases h

/-- A script with several keys whose numbers fit. -/
theorem solver_multisig {m n : UInt8} {keys : List ScriptOp} (h : IsMultisigForm script m n keys)
    (hcounts : CountsFit m n keys) :
    solver script = some (true, .multisig, [m] :: (keys.map ScriptOp.vch ++ [[n]])) := by
  obtain ⟨opM, opN, hops, hM, hN, hkeys⟩ := h
  obtain ⟨ok, hcheck, hok⟩ := checkMultisig_eq m n keys
  rw [solver_of_template hops (.multisig hM hkeys hN), templateVerdict, if_pos rfl, hcheck,
    hok.mpr hcounts]
  rfl

theorem multisig_of_solver {vSolutions : List Bytes}
    (h : solver script = some (true, .multisig, vSolutions)) : ∃ m n keys,
      IsMultisigForm script m n keys ∧ CountsFit m n keys ∧
        vSolutions = [m] :: (keys.map ScriptOp.vch ++ [[n]]) := by
  obtain ⟨ops, hops, htemplate, hcheck⟩ := template_of_solver h
  cases htemplate with
  | multisig hM hkeys hN =>
    obtain ⟨ok, hok, hcounts⟩ := checkMultisig_eq _ _ _
    rw [hcheck rfl] at hok
    cases hok
    exact ⟨_, _, _, ⟨_, _, hops, hM, hN, hkeys⟩, hcounts.mp rfl, rfl⟩

end

/-- The scripts of each type and the data that are returned, which are what the script pushes, but
nothing for data after `OP_RETURN`. -/
theorem solver_templates (script : Bytes) :
    (∀ vSolutions, solver script = some (true, .scripthash, vSolutions) ↔ ∃ hash : Bytes,
      hash.length = 20 ∧ script = OP_HASH160 :: 0x14 :: (hash ++ [OP_EQUAL]) ∧ vSolutions = [hash]) ∧
    (∀ vSolutions, solver script = some (true, .pubkey, vSolutions) ↔ ∃ push,
      getOps script = some [push, ⟨OP_CHECKSIG, []⟩] ∧ PubKeySize push.vch ∧
        vSolutions = [push.vch]) ∧
    (∀ vSolutions, solver script = some (true, .pubkeyhash, vSolutions) ↔ ∃ push,
      getOps script = some [⟨OP_DUP, []⟩, ⟨OP_HASH160, []⟩, push, ⟨OP_EQUALVERIFY, []⟩,
        ⟨OP_CHECKSIG, []⟩] ∧ push.vch.length = 20 ∧ vSolutions = [push.vch]) ∧
    (∀ vSolutions, solver script = some (true, .multisig, vSolutions) ↔ ∃ m n keys,
      IsMultisigForm script m n keys ∧ CountsFit m n keys ∧
        vSolutions = [m] :: (keys.map ScriptOp.vch ++ [[n]])) ∧
    ((getOps script = some [⟨OP_RETURN, []⟩] ∨ ∃ push, getOps script = some [⟨OP_RETURN, []⟩, push] ∧
        push.opcode ≤ OP_16 ∧ push.vch.length ≤ MAX_OP_RETURN_RELAY) →
      solver script = some (true, .nullData, [])) ∧
    (∀ vSolutions, solver script = some (true, .nullData, vSolutions) → vSolutions = [] ∧
      (getOps script = some [⟨OP_RETURN, []⟩] ∨ ∃ op, getOps script = some [⟨OP_RETURN, []⟩, op] ∧
        op.vch.length ≤ MAX_OP_RETURN_RELAY)) ∧
    (∀ type vSolutions, solver script = some (false, type, vSolutions) →
      (∀ m n keys, IsMultisigForm script m n keys → CountsFit m n keys) →
      type = .nonstandard ∧ vSolutions = []) ∧
    (∀ vSolutions, solver script ≠ some (true, .nonstandard, vSolutions)) ∧
    (solver script).isSome := by
  refine ⟨fun vSolutions => ⟨fun h => ?_, ?_⟩, fun vSolutions => ⟨fun h => ?_, ?_⟩,
    fun vSolutions => ⟨fun h => ?_, ?_⟩, fun vSolutions => ⟨fun h => ?_, ?_⟩, ?_, fun vSolutions h => ?_,
    fun type vSolutions h hcounts => ?_, fun vSolutions h => ?_, solver_isSome script⟩
  · obtain ⟨ops, hops, htemplate, -⟩ := template_of_solver h
    cases htemplate with
    | scripthash hlen => exact ⟨_, hlen, (getOps_scripthash hlen).mp hops, rfl⟩
  · rintro ⟨hash, hlen, hscript, rfl⟩
    exact solver_of_template ((getOps_scripthash hlen).mpr hscript) (.scripthash hlen)
  · obtain ⟨ops, hops, htemplate, -⟩ := template_of_solver h
    cases htemplate with
    | pubkey hsize => exact ⟨_, hops, hsize, rfl⟩
  · rintro ⟨push, hops, hsize, rfl⟩
    exact solver_of_template hops (.pubkey hsize)
  · obtain ⟨ops, hops, htemplate, -⟩ := template_of_solver h
    cases htemplate with
    | pubkeyhash hsize => exact ⟨_, hops, hsize, rfl⟩
  · rintro ⟨push, hops, hsize, rfl⟩
    exact solver_of_template hops (.pubkeyhash hsize)
  · exact multisig_of_solver h
  · rintro ⟨m, n, keys, hform, hcounts, rfl⟩
    exact solver_multisig hform hcounts
  · rintro (hops | ⟨push, hops, -, hsize⟩)
    · exact solver_of_template hops .nullDataAlone
    · exact solver_of_template hops (.nullData hsize)
  · obtain ⟨ops, hops, htemplate, -⟩ := template_of_solver h
    cases htemplate with
    | nullData hsize => exact ⟨rfl, .inr ⟨_, hops, hsize⟩⟩
    | nullDataAlone => exact ⟨rfl, .inl hops⟩
  · rcases solver_cases script with ⟨ops, type', data', hops, htemplate, hsolver⟩ | hsolver
    · rw [hsolver, templateVerdict] at h
      split at h
      · rename_i htype
        subst htype
        cases htemplate with
        | multisig hM hkeys hN =>
          obtain ⟨ok, hcheck, hok⟩ := checkMultisig_eq _ _ _
          rw [hcheck, hok.mpr (hcounts _ _ _ ⟨_, _, hops, hM, hN, hkeys⟩)] at h
          cases h
      · cases h
    · rw [hsolver] at h
      cases h
      exact ⟨rfl, rfl⟩
  · obtain ⟨ops, -, htemplate, -⟩ := template_of_solver h
    cases htemplate

/-- Five bytes after `OP_RETURN` are pushed and not returned. -/
theorem solver_nullData_push :
    ¬∀ script push vSolutions, getOps script = some [⟨OP_RETURN, []⟩, push] →
      solver script = some (true, .nullData, vSolutions) → vSolutions = [push.vch] := by
  intro h
  have hpush : getOp2 [5, 1, 2, 3, 4, 5] = (some ⟨5, [1, 2, 3, 4, 5]⟩, []) := by decide
  have hops : getOps [OP_RETURN, 5, 1, 2, 3, 4, 5] =
      some [⟨OP_RETURN, []⟩, ⟨5, [1, 2, 3, 4, 5]⟩] := by
    rw [getOps_opcode (by decide), getOps_of_some hpush, getOps_nil]
    rfl
  cases h _ _ _ hops (solver_of_template hops (.nullData (by decide)))

end Ticoin
