import Ticoin.Destinations
import Ticoin.SolverTemplates

/-!
# script.cpp : the scripts of destinations

`SetDestination` writes the script that pays to a key or to a script, and `SetMultisig` the one that
pays to several keys. `Solver` recognizes what they write, `ExtractDestination` gives the destination
back, and `ExtractDestinations` the number of signatures and the ids of the keys
(`destinations_roundTrip`). Nothing they write is taken for another type (`solver_setDestination`,
`solver_setMultisig`).
-/

namespace Ticoin

open Codec

/-! ## Writing scripts -/

/-- `operator<<` of a `uint160` : the bytes it appends. -/
def pushUInt160 (b : UInt160) : Bytes := 20 :: leBytes 20 b.toNat

/-- `operator<<` of a public key : the bytes it appends, `none` if its assertion fails. -/
def pushPubKey (key : CPubKey) : Option Bytes :=
  if key.vch.length < OP_PUSHDATA1.toNat then some (UInt8.ofNat key.vch.length :: key.vch) else none

/-- `EncodeOP_N`, `none` if its assertion fails. -/
def encodeOP_N (n : ℤ) : Option UInt8 :=
  if 0 ≤ n ∧ n ≤ 16 then
    if n = 0 then some OP_0 else some (UInt8.ofNat (OP_1.toNat + n - 1).toNat)
  else none

/-- `SetDestination`. -/
def setDestination : CTxDestination → Bytes
  | .noDestination => []
  | .keyID keyID => [OP_DUP, OP_HASH160] ++ pushUInt160 keyID ++ [OP_EQUALVERIFY, OP_CHECKSIG]
  | .scriptID scriptID => [OP_HASH160] ++ pushUInt160 scriptID ++ [OP_EQUAL]

/-- `SetMultisig`, `none` if an assertion fails. -/
def setMultisig (nRequired : ℤ) (keys : List CPubKey) : Option Bytes := do
  let m ← encodeOP_N nRequired
  let pushes ← keys.mapM pushPubKey
  let n ← encodeOP_N keys.length
  return [m] ++ pushes.flatten ++ [n, OP_CHECKMULTISIG]

/-- `ExtractDestinations` : the type, the destinations and the number of signatures, if it returns
true. -/
def extractDestinations (hash160 : Bytes → UInt160) (scriptPubKey : Bytes) :
    Option (TxnOutType × List CTxDestination × ℕ) :=
  match solver scriptPubKey with
  | some (true, .nullData, _) => none
  | some (true, .multisig, vSolutions) =>
    some (.multisig, ((vSolutions.drop 1).dropLast).map fun vch => .keyID (pubKeyID hash160 vch),
      ((vSolutions.headD []).headD 0).toNat)
  | some (true, typeRet, _) =>
    (extractDestination hash160 scriptPubKey).map fun address => (typeRet, [address], 1)
  | _ => none

/-! ## Operations of the scripts -/

theorem length_pushUInt160 (b : UInt160) : (leBytes 20 b.toNat).length = 20 := length_leBytes 20 _

theorem uint160_leBytes (b : UInt160) : uint160 (leBytes 20 b.toNat) = b := by
  rw [uint160, ofLeBytes_leBytes_of_lt b.isLt, BitVec.ofNat_toNat, BitVec.setWidth_eq]

theorem getOps_setDestination_keyID (keyID : CKeyID) : getOps (setDestination (.keyID keyID)) =
    some [⟨OP_DUP, []⟩, ⟨OP_HASH160, []⟩, ⟨20, leBytes 20 keyID.toNat⟩, ⟨OP_EQUALVERIFY, []⟩,
      ⟨OP_CHECKSIG, []⟩] := by
  have hpush : getOp2 (20 :: (leBytes 20 keyID.toNat ++ [OP_EQUALVERIFY, OP_CHECKSIG])) =
      (some ⟨20, leBytes 20 keyID.toNat⟩, [OP_EQUALVERIFY, OP_CHECKSIG]) :=
    getOp2_push 20 [] _ _ (by decide) rfl (length_pushUInt160 keyID).symm
  change getOps (OP_DUP :: OP_HASH160 :: 20 ::
    (leBytes 20 keyID.toNat ++ [OP_EQUALVERIFY, OP_CHECKSIG])) = _
  rw [getOps_opcode (by decide), getOps_opcode (by decide), getOps_of_some hpush,
    getOps_opcode (by decide), getOps_opcode (by decide), getOps_nil]
  rfl

theorem solver_setDestination_keyID (keyID : CKeyID) :
    solver (setDestination (.keyID keyID)) = some (true, .pubkeyhash, [leBytes 20 keyID.toNat]) :=
  solver_of_template (getOps_setDestination_keyID keyID) (.pubkeyhash (length_pushUInt160 keyID))

theorem solver_setDestination_scriptID (scriptID : UInt160) :
    solver (setDestination (.scriptID scriptID)) =
      some (true, .scripthash, [leBytes 20 scriptID.toNat]) :=
  solver_of_template ((getOps_scripthash (length_pushUInt160 scriptID)).mpr rfl)
    (.scripthash (length_pushUInt160 scriptID))

/-- A small integer is read back. -/
theorem encodeOP_N_spec {n : ℕ} (h : n ≤ 16) : ∃ opcode, encodeOP_N n = some opcode ∧
    IsSmallInteger ⟨opcode, []⟩ (UInt8.ofNat n) ∧
      ∀ pc, getOp2 (opcode :: pc) = (some ⟨opcode, []⟩, pc) := by
  interval_cases n <;> exact ⟨_, rfl, by decide, fun _ => rfl⟩

theorem le_of_encodeOP_N {n : ℤ} {opcode : UInt8} (h : encodeOP_N n = some opcode) :
    ∃ k : ℕ, n = k ∧ k ≤ 16 := by
  rw [encodeOP_N] at h
  split at h
  · exact ⟨n.toNat, by omega, by omega⟩
  · cases h

/-- A public key as `Set` leaves it. -/
def CPubKey.IsSet (key : CPubKey) : Prop := CPubKey.set key.vch = key

theorem CPubKey.IsSet.length {key : CPubKey} (h : key.IsSet) :
    key.vch.length = 0 ∨ key.vch.length = 33 ∨ key.vch.length = 65 := by
  obtain ⟨vch⟩ := key
  unfold IsSet CPubKey.set at h
  split at h
  · rename_i heq
    exact .inl (by rw [heq]; rfl)
  · rename_i chHeader rest heq
    split at h
    · rename_i hlen
      dsimp only at heq hlen ⊢
      rw [← hlen.2, CPubKey.getLen]
      split
      · exact .inr (.inl rfl)
      split
      · exact .inr (.inr rfl)
      · exact .inl rfl
    · cases h
      cases heq

/-- The push of a public key. -/
def keyOp (key : CPubKey) : ScriptOp := ⟨UInt8.ofNat key.vch.length, key.vch⟩

/-- The public keys of a script are read back. -/
theorem getOps_pushPubKeys {pc : Bytes} {ops : List ScriptOp} (hrest : getOps pc = some ops) :
    ∀ {keys : List CPubKey}, (∀ key ∈ keys, key.IsSet) →
    ∃ pushes, keys.mapM pushPubKey = some pushes ∧
      getOps (pushes.flatten ++ pc) = some (keys.map keyOp ++ ops)
  | [], _ => ⟨[], rfl, hrest⟩
  | key :: keys, h => by
    rw [List.forall_mem_cons] at h
    obtain ⟨pushes, hpushes, hread⟩ := getOps_pushPubKeys hrest h.2
    have hlt : key.vch.length < OP_PUSHDATA1.toNat := by
      have hlen := h.1.length
      rw [show OP_PUSHDATA1.toNat = 76 from rfl]
      omega
    refine ⟨(UInt8.ofNat key.vch.length :: key.vch) :: pushes, ?_, ?_⟩
    · rw [List.mapM_cons, pushPubKey, if_pos hlt, hpushes]
      rfl
    · have hop := (getOp2_directPush hlt (pushes.flatten ++ pc)).2
      rw [List.flatten_cons, List.append_assoc, List.cons_append, getOps_of_some hop, hread]
      rfl

/-- The operations of a script with several keys. -/
theorem getOps_setMultisig {m : ℕ} {keys : List CPubKey} (hm : m ≤ 16) (hn : keys.length ≤ 16)
    (hkeys : ∀ key ∈ keys, key.IsSet) : ∃ script opM opN, setMultisig m keys = some script ∧
      getOps script = some (⟨opM, []⟩ :: (keys.map keyOp ++ [⟨opN, []⟩, ⟨OP_CHECKMULTISIG, []⟩])) ∧
      IsSmallInteger ⟨opM, []⟩ (UInt8.ofNat m) ∧
      IsSmallInteger ⟨opN, []⟩ (UInt8.ofNat keys.length) := by
  obtain ⟨opM, hencM, hintM, hopM⟩ := encodeOP_N_spec hm
  obtain ⟨opN, hencN, hintN, hopN⟩ := encodeOP_N_spec hn
  have hlast : getOps [opN, OP_CHECKMULTISIG] = some [⟨opN, []⟩, ⟨OP_CHECKMULTISIG, []⟩] := by
    rw [getOps_of_some (hopN _), getOps_opcode (by decide), getOps_nil]
    rfl
  obtain ⟨pushes, hpushes, hread⟩ := getOps_pushPubKeys hlast hkeys
  refine ⟨[opM] ++ pushes.flatten ++ [opN, OP_CHECKMULTISIG], opM, opN, ?_, ?_, hintM, hintN⟩
  · rw [setMultisig, hencM, hpushes, hencN]
    rfl
  · rw [List.append_assoc, List.singleton_append, getOps_of_some (hopM _), hread]
    rfl

/-! ## Types -/

/-- A script of a destination is of its type only. -/
theorem solver_setDestination {dest : CTxDestination} {type : TxnOutType} {data : List Bytes}
    (h : solver (setDestination dest) = some (true, type, data)) :
    (∃ keyID, dest = .keyID keyID ∧ type = .pubkeyhash) ∨
      ∃ scriptID, dest = .scriptID scriptID ∧ type = .scripthash := by
  cases dest with
  | noDestination =>
    obtain ⟨ops, hops, htemplate, -⟩ := template_of_solver h
    rw [setDestination, getOps_nil] at hops
    cases hops
    cases htemplate
  | keyID keyID =>
    rw [solver_setDestination_keyID] at h
    cases h
    exact .inl ⟨keyID, rfl, rfl⟩
  | scriptID scriptID =>
    rw [solver_setDestination_scriptID] at h
    cases h
    exact .inr ⟨scriptID, rfl, rfl⟩

/-- A script of several keys is of its type only. -/
theorem solver_setMultisig {nRequired : ℤ} {keys : List CPubKey} {script : Bytes}
    (hkeys : ∀ key ∈ keys, key.IsSet) (hscript : setMultisig nRequired keys = some script)
    {type : TxnOutType} {data : List Bytes} (h : solver script = some (true, type, data)) :
    type = .multisig := by
  have hcounts : (∃ m : ℕ, nRequired = m ∧ m ≤ 16) ∧ keys.length ≤ 16 := by
    rw [setMultisig, Option.bind_eq_bind, Option.bind_eq_some_iff] at hscript
    obtain ⟨opM, hM, hscript⟩ := hscript
    obtain ⟨pushes, -, hscript⟩ := Option.bind_eq_some_iff.mp hscript
    obtain ⟨opN, hN, -⟩ := Option.bind_eq_some_iff.mp hscript
    obtain ⟨n, hn, hle⟩ := le_of_encodeOP_N hN
    exact ⟨le_of_encodeOP_N hM, by omega⟩
  obtain ⟨⟨m, rfl, hm⟩, hn⟩ := hcounts
  obtain ⟨script', opM, opN, hscript', hops, hM, -⟩ := getOps_setMultisig hm hn hkeys
  rw [hscript] at hscript'
  cases hscript'
  obtain ⟨ops, hops', htemplate, -⟩ := template_of_solver h
  rw [hops] at hops'
  cases hops'
  rw [← htemplate.type_eq]
  exact templateType_multisig hM

/-! ## Round trips -/

/-- A destination is extracted from its script, the keys and the number of signatures from a script
of several keys, and no script that is written for them is taken for another type. -/
theorem destinations_roundTrip (hash160 : Bytes → UInt160) :
    (∀ dest, dest ≠ .noDestination → extractDestination hash160 (setDestination dest) = some dest) ∧
    (∀ (m : ℕ) (keys : List CPubKey), 1 ≤ m → m ≤ keys.length → keys.length ≤ 16 →
      (∀ key ∈ keys, key.IsSet ∧ key.vch ≠ []) → ∃ script, setMultisig m keys = some script ∧
        extractDestinations hash160 script =
          some (.multisig, keys.map fun key => .keyID (hash160 key.vch), m)) ∧
    (∀ dest type data, solver (setDestination dest) = some (true, type, data) →
      (∃ keyID, dest = .keyID keyID ∧ type = .pubkeyhash) ∨
        ∃ scriptID, dest = .scriptID scriptID ∧ type = .scripthash) ∧
    ∀ nRequired keys script type data, (∀ key ∈ keys, key.IsSet) →
      setMultisig nRequired keys = some script → solver script = some (true, type, data) →
      type = .multisig := by
  refine ⟨fun dest hdest => ?_, fun m keys hm hle hn hkeys => ?_, fun _ _ _ => solver_setDestination,
    fun _ _ _ _ _ hkeys hscript => solver_setMultisig hkeys hscript⟩
  · cases dest with
    | noDestination => exact absurd rfl hdest
    | keyID keyID =>
      rw [extractDestination, solver_setDestination_keyID]
      exact congrArg (some ∘ CTxDestination.keyID) (uint160_leBytes keyID)
    | scriptID scriptID =>
      rw [extractDestination, solver_setDestination_scriptID]
      exact congrArg (some ∘ CTxDestination.scriptID) (uint160_leBytes scriptID)
  · obtain ⟨script, opM, opN, hscript, hops, hM, hN⟩ :=
      getOps_setMultisig (hle.trans hn) hn fun key hkey => (hkeys key hkey).1
    have hsize : ∀ k ∈ keys.map keyOp, PubKeySize k.vch := by
      intro k hk
      obtain ⟨key, hkey, rfl⟩ := List.mem_map.mp hk
      obtain ⟨hset, hne⟩ := hkeys key hkey
      have hlen := hset.length
      have hpos := List.length_pos_iff.mpr hne
      exact ⟨by rw [keyOp]; dsimp only; omega, by rw [keyOp]; dsimp only; omega⟩
    have hcounts : CountsFit (UInt8.ofNat m) (UInt8.ofNat keys.length) (keys.map keyOp) := by
      refine ⟨?_, ?_, ?_⟩
      · rw [UInt8.le_iff_toNat_le, toNat_ofNat_of_lt (by omega)]
        exact hm
      · rw [UInt8.le_iff_toNat_le, toNat_ofNat_of_lt (by omega), toNat_ofNat_of_lt (by omega)]
        exact hle
      · rw [List.length_map, toNat_ofNat_of_lt (by omega)]
    obtain ⟨ok, hcheck, hok⟩ :=
      checkMultisig_eq (UInt8.ofNat m) (UInt8.ofNat keys.length) (keys.map keyOp)
    refine ⟨script, hscript, ?_⟩
    rw [extractDestinations, solver_of_template hops (.multisig hM hsize hN), templateVerdict,
      if_pos rfl, hcheck, hok.mpr hcounts]
    change some (_, ((List.map _ _ ++ [_]).dropLast.map _), _) = _
    rw [List.dropLast_concat, List.map_map, List.map_map]
    refine congrArg some (Prod.ext rfl (Prod.ext (List.map_congr_left fun key hkey => ?_) ?_))
    · change CTxDestination.keyID (hash160 (CPubKey.set key.vch).vch) = _
      rw [(hkeys key hkey).1]
    · exact toNat_ofNat_of_lt (by omega)

end Ticoin
