import Ticoin.Crypter
import Ticoin.Solver

/-!
# script.cpp : destinations, and who owns a script

`ExtractDestination` gives the key or the script that an output pays to, and `IsMine` asks
the key store whether the wallet can spend it. Of an address `IsMine` asks less than of a
script : a script hash is ours if the store has the script, whoever has its keys. For keys
the two agree (`isMine_of_extractDestination`).
-/

namespace Ticoin

open Codec

/-! ## Public keys and destinations -/

/-- `CPubKey::GetLen`. -/
def CPubKey.getLen (chHeader : UInt8) : ℕ :=
  if chHeader = 2 ∨ chHeader = 3 then 33
  else if chHeader = 4 ∨ chHeader = 6 ∨ chHeader = 7 then 65
  else 0

/-- `CPubKey::Set`, which makes an invalid key of bytes of the wrong length. -/
def CPubKey.set (vch : Bytes) : CPubKey :=
  match vch with
  | [] => ⟨[]⟩
  | chHeader :: _ =>
    if CPubKey.getLen chHeader ≠ 0 ∧ CPubKey.getLen chHeader = vch.length then ⟨vch⟩ else ⟨[]⟩

/-- `uint160` of a vector. -/
def uint160 (vch : Bytes) : UInt160 := BitVec.ofNat 160 (ofLeBytes vch)

inductive CTxDestination where
  | noDestination
  | keyID (id : CKeyID)
  | scriptID (id : UInt160)
  deriving DecidableEq, Repr

/-- What is asked of a key store : its keys, and the scripts by their hashes. -/
structure KeyStore where
  haveKey : CKeyID → Bool
  mapScripts : Std.ExtTreeMap UInt160 Bytes

variable (hash160 : Bytes → UInt160)

/-- The id of the public key in a script. -/
def pubKeyID (vch : Bytes) : CKeyID := hash160 (CPubKey.set vch).vch

/-- `ExtractDestination`. -/
def extractDestination (scriptPubKey : Bytes) : Option CTxDestination :=
  match solver scriptPubKey with
  | some (true, .pubkey, vSolutions) => some (.keyID (pubKeyID hash160 (vSolutions.headD [])))
  | some (true, .pubkeyhash, vSolutions) => some (.keyID (uint160 (vSolutions.headD [])))
  | some (true, .scripthash, vSolutions) => some (.scriptID (uint160 (vSolutions.headD [])))
  | _ => none

/-! ## IsMine -/

variable (keystore : KeyStore)

/-- `IsMine` of a destination. -/
def isMineDestination : CTxDestination → Bool
  | .noDestination => false
  | .keyID id => keystore.haveKey id
  | .scriptID id => keystore.mapScripts.contains id

/-- `HaveKeys`. -/
def haveKeys (pubkeys : List Bytes) : ℕ :=
  pubkeys.countP fun pubkey => keystore.haveKey (pubKeyID hash160 pubkey)

/-- `IsMine` of a script, with what to say of a script that is hashed in it. -/
def isMineWith (isMineSub : Bytes → Bool) (scriptPubKey : Bytes) : Bool :=
  match solver scriptPubKey with
  | some (true, .pubkey, vSolutions) => keystore.haveKey (pubKeyID hash160 (vSolutions.headD []))
  | some (true, .pubkeyhash, vSolutions) => keystore.haveKey (uint160 (vSolutions.headD []))
  | some (true, .scripthash, vSolutions) =>
    match keystore.mapScripts[uint160 (vSolutions.headD [])]? with
    | none => false
    | some subscript => isMineSub subscript
  | some (true, .multisig, vSolutions) =>
    let keys := (vSolutions.drop 1).dropLast
    haveKeys hash160 keystore keys == keys.length
  | _ => false

/-- `IsMine` of a script, down to a number of scripts that are hashed in one another. -/
def isMineScript : ℕ → Bytes → Bool
  | 0 => isMineWith hash160 keystore fun _ => false
  | depth + 1 => isMineWith hash160 keystore (isMineScript depth)

/-- `IsMine` of a script. Scripts of the store that lead from one to another are as many as
the store has, unless they come back to one of them. -/
def isMine (scriptPubKey : Bytes) : Bool :=
  isMineScript hash160 keystore keystore.mapScripts.size scriptPubKey

theorem isMine_eq_isMineWith (scriptPubKey : Bytes) : ∃ isMineSub,
    isMine hash160 keystore scriptPubKey = isMineWith hash160 keystore isMineSub scriptPubKey := by
  rw [isMine]
  cases keystore.mapScripts.size with
  | zero => exact ⟨_, rfl⟩
  | succ depth => exact ⟨_, rfl⟩

/-- An address that is a key is ours if and only if the script is. -/
theorem isMine_of_extractDestination {scriptPubKey : Bytes} {id : CKeyID}
    (h : extractDestination hash160 scriptPubKey = some (.keyID id)) :
    isMine hash160 keystore scriptPubKey = keystore.haveKey id := by
  obtain ⟨isMineSub, hmine⟩ := isMine_eq_isMineWith hash160 keystore scriptPubKey
  rw [extractDestination] at h
  rw [hmine, isMineWith]
  split at h
  · rename_i hsolver
    rw [hsolver]
    cases h
    rfl
  · rename_i hsolver
    rw [hsolver]
    cases h
    rfl
  · cases h
  · cases h

/-! ## Payments to a public key -/

/-- The script that pays to a compressed public key. -/
def payToPubKey (pubkey : Bytes) : Bytes := 33 :: (pubkey ++ [OP_CHECKSIG])

/-- The comparison of one operation, where the template does not collect public keys. -/
theorem solverMatch_step {pc1 pc1' pc2 pc2' : Bytes} {op1 op2 : ScriptOp} {vSolutions : List Bytes}
    (hop1 : getOp2 pc1 = (some op1, pc1')) (hop2 : getOp2 pc2 = (some op2, pc2'))
    (hkeys : op2.opcode ≠ OP_PUBKEYS) : solverMatch pc1 pc2 vSolutions =
      (solverOp op1 op2 vSolutions).bind (solverMatch pc1' pc2') := by
  have hne : ¬(pc1 = [] ∧ pc2 = []) := by
    rintro ⟨rfl, -⟩
    cases hop1
  rw [solverMatch, if_neg hne]
  split
  · rename_i hnone
    rw [hop1] at hnone
    cases hnone
  · rename_i hnone _
    rw [hop2] at hnone
    cases hnone
  · rename_i h1 h2
    rw [hop1] at h1
    rw [hop2] at h2
    cases h1
    cases h2
    rw [if_neg hkeys]
    cases solverOp op1 op2 vSolutions <;> rfl

theorem solverMatch_nil (vSolutions : List Bytes) : solverMatch [] [] vSolutions = some vSolutions := by
  rw [solverMatch, if_pos ⟨rfl, rfl⟩]

theorem solver_payToPubKey {pubkey : Bytes} (h : pubkey.length = 33) :
    solver (payToPubKey pubkey) = some (true, .pubkey, [pubkey]) := by
  have hhash : isPayToScriptHash (payToPubKey pubkey) = false := by
    rw [isPayToScriptHash, payToPubKey, List.length_cons, List.length_append, h]
    rfl
  have hop : getOp2 (payToPubKey pubkey) = (some ⟨33, pubkey⟩, [OP_CHECKSIG]) := by
    rw [payToPubKey, getOp2, if_pos (by decide), if_neg (by rw [List.length_append, h]; decide)]
    rw [show pushSize 33 (pubkey ++ [OP_CHECKSIG]) = 33 from rfl,
      show pushSizeWidth 33 = 0 from rfl, List.drop_zero, getPushData,
      if_neg (by rw [List.length_append, h]; decide), ← h, List.take_left, List.drop_left]
  have hkey : solverOp ⟨33, pubkey⟩ ⟨OP_PUBKEY, []⟩ [] = some [pubkey] := by
    rw [solverOp, if_pos rfl, if_neg (by rw [h]; decide)]
    rfl
  have hsig : solverOp ⟨OP_CHECKSIG, []⟩ ⟨OP_CHECKSIG, []⟩ [pubkey] = some [pubkey] := by
    simp [solverOp, OP_CHECKSIG, OP_PUBKEY, OP_PUBKEYHASH, OP_SMALLINTEGER, OP_SMALLDATA]
  have hmatch : solverMatch (payToPubKey pubkey) [OP_PUBKEY, OP_CHECKSIG] [] = some [pubkey] := by
    have htemplate : getOp2 [OP_PUBKEY, OP_CHECKSIG] = (some ⟨OP_PUBKEY, []⟩, [OP_CHECKSIG]) := by
      decide
    have hlast : getOp2 [OP_CHECKSIG] = (some ⟨OP_CHECKSIG, []⟩, []) := by decide
    rw [solverMatch_step hop htemplate (by decide), hkey, Option.bind_some,
      solverMatch_step hlast hlast (by decide), hsig, Option.bind_some, solverMatch_nil]
  rw [solver, if_neg (by rw [hhash]; exact Bool.false_ne_true), templates, scanTemplates, hmatch]
  rfl

end Ticoin
