import Ticoin.MergedSignatures
import Ticoin.ScriptDestinations
import Ticoin.SigOpBounds

/-!
# script.cpp : signing what is ours

`IsMine` and `SignSignature` each take a script apart and ask the key store. Both look at the
script that a script hash stands for. `IsMine` goes on from there to further script hashes, but
a script hash within a script hash cannot be signed for (`isMine_signs`).

What a key store signs with satisfies a script that pays to one key (`evalScript_pubkey`,
`evalScript_pubkeyhash`) or to several keys of which it has all. So a signed script leaves true on
the stack (`Satisfies`), by itself or under its hash (`Satisfies.verifies_scripthash`).
-/

set_option linter.unusedSectionVars false

namespace Ticoin

open Codec EvalScript

namespace SignEnv

variable (env : SignEnv)

/-! ## Signing -/

/-- Whether `SignN` finds as many keys as are required. -/
def signsN (hash : UInt256) : List Bytes → ℕ → Bool
  | _, 0 => true
  | [], _ + 1 => false
  | pubkey :: pubkeys, nRequired + 1 =>
    match env.sign1 (pubKeyID env.hashes.hash160 pubkey) hash with
    | none => signsN hash pubkeys (nRequired + 1)
    | some _ => signsN hash pubkeys nRequired

/-- What `Solver` with a key store returns. -/
def solverSigns (scriptPubKey : Bytes) (hash : UInt256) : Bool :=
  match solver scriptPubKey with
  | some (true, .pubkey, vSolutions) =>
    (env.sign1 (pubKeyID env.hashes.hash160 (vSolutions.headD [])) hash).isSome
  | some (true, .pubkeyhash, vSolutions) =>
    (env.sign1 (uint160 (vSolutions.headD [])) hash).isSome
  | some (true, .scripthash, vSolutions) =>
    (env.keystore.getCScript (uint160 (vSolutions.headD []))).isSome
  | some (true, .multisig, multisigdata) =>
    env.signsN hash (multisigdata.drop 1).dropLast ((multisigdata.headD []).headD 0).toNat
  | _ => false

/-- Whether a script is solved for an input : if it is a script hash, so has to be the script that
it stands for, which may not be another script hash. -/
def fSolved (fromPubKey : Bytes) (txTo : CTransaction) (nIn : ℕ) : Bool :=
  match solver fromPubKey with
  | some (true, .scripthash, vSolutions) =>
    match env.keystore.getCScript (uint160 (vSolutions.headD [])) with
    | none => false
    | some subscript =>
      env.solverSigns subscript (signatureHash env.hashes.hash subscript txTo nIn env.nHashType) &&
        !isPayToScriptHash subscript
  | _ =>
    env.solverSigns fromPubKey (signatureHash env.hashes.hash fromPubKey txTo nIn env.nHashType)

/-- What `SignSignature` returns. -/
def signs (fromPubKey : Bytes) (txTo : CTransaction) (nIn : ℕ) : Bool :=
  let scriptSig := env.signSignature fromPubKey txTo nIn
  env.fSolved fromPubKey txTo nIn &&
    env.verifies (txTo.setScriptSig nIn scriptSig) nIn scriptSig fromPubKey

end SignEnv

/-! ## Keys and signatures that are canonical -/

/-- A canonical public key is valid, and starts with the byte for its length. -/
theorem set_of_isCanonicalPubKey {vch : Bytes}
    (h : isCanonicalPubKey vch SignEnv.verifyFlags = some true) :
    CPubKey.set vch = ⟨vch⟩ ∧ 33 ≤ vch.length ∧ vch.length ≤ 65 ∧ vch.head? ≠ some 0x30 := by
  unfold isCanonicalPubKey at h
  rw [if_neg (by decide)] at h
  match vch with
  | [] => cases h
  | chHeader :: rest =>
    have hne : chHeader ≠ 0x30 → (chHeader :: rest).head? ≠ some 0x30 := fun h heq =>
      h (Option.some.inj heq)
    split at h
    · cases h
    rename_i hlen
    simp only [List.getElem?_cons_zero, Option.bind_eq_bind, Option.bind_some] at h
    split at h
    · rename_i hheader
      subst hheader
      have hlength := of_decide_eq_true (Option.some.inj h)
      refine ⟨?_, by omega, by omega, hne (by decide)⟩
      rw [CPubKey.set, if_pos ⟨by decide, hlength.symm⟩]
    · split at h
      · rename_i hheader
        have hlength := of_decide_eq_true (Option.some.inj h)
        rcases hheader with rfl | rfl
        · refine ⟨?_, by omega, by omega, hne (by decide)⟩
          rw [CPubKey.set, if_pos ⟨by decide, hlength.symm⟩]
        · refine ⟨?_, by omega, by omega, hne (by decide)⟩
          rw [CPubKey.set, if_pos ⟨by decide, hlength.symm⟩]
      · cases h

theorem head_of_isCanonicalSignature {sig : Bytes}
    (h : isCanonicalSignature sig SignEnv.verifyFlags = some true) :
    sig.head? = some 0x30 ∧ sig.length ≤ 73 := by
  obtain ⟨b, hb, hiff⟩ := isCanonicalSignature_decides sig SignEnv.verifyFlags
  rw [h, Option.some.injEq] at hb
  subst hb
  obtain ⟨⟨-, hlen, r, s, hashtype, hsig⟩, -⟩ := hiff.mp rfl rfl
  refine ⟨?_, hlen⟩
  rw [hsig]
  rfl

/-! ## Scripts for one key -/

theorem leBytes_uint160 {vch : Bytes} (h : vch.length = 20) :
    leBytes 20 (uint160 vch).toNat = vch := by
  have hlt := ofLeBytes_lt vch
  have hbytes := leBytes_ofLeBytes vch
  rw [h] at hlt hbytes
  rw [uint160, BitVec.toNat_ofNat, Nat.mod_eq_of_lt (hlt.trans_le (by decide)), hbytes]

section

variable {check : SigCheck → Eval Bool} {hashes : ScriptHashes} {script sig : Bytes}
  {push : ScriptOp} {b : Bool} {stack : Stack} {n : ℕ} {code : Bytes}

/-- `OP_CHECKSIG` of a key and a signature. -/
theorem execOp_checkSig {pubkey : Bytes} (pc : Bytes)
    (hcheck : check ⟨sig, pubkey, (findAndDelete code (pushVector sig)).1⟩ = .ok b) :
    (execOp check hashes true OP_CHECKSIG pc ⟨pubkey :: sig :: stack, [], [], n, code⟩).1 =
      .ok ⟨boolVch b :: stack, [], [], n, code⟩ := by
  rw [execOp, if_pos (.inl rfl)]
  change (andThen (check ⟨sig, pubkey, (findAndDelete code (pushVector sig)).1⟩) _).1 = _
  rw [hcheck]
  rfl

theorem length_le_of_template {ops : List ScriptOp} (hops : getOps script = some ops)
    (hlen : ops.length ≤ 5) (hsize : ∀ op ∈ ops, op.vch.length ≤ 65) : script.length ≤ 10000 := by
  have hle := length_le_of_getOps_le hops hsize
  have := Nat.mul_le_mul_right (5 + 65) hlen
  omega

/-- A script that pays to a public key. -/
theorem evalScript_pubkey (hops : getOps script = some [push, ⟨OP_CHECKSIG, []⟩])
    (hsize : PubKeySize push.vch) (hcode : (findAndDelete script (pushVector sig)).1 = script)
    (hcheck : check ⟨sig, push.vch, script⟩ = .ok b) :
    (evalScript check hashes [sig] script).1 = .ok [boolVch b] := by
  have hlen : script.length ≤ 10000 := by
    refine length_le_of_template hops (show 2 ≤ 5 by decide) fun op hop => ?_
    rcases List.mem_pair.mp hop with rfl | rfl
    · exact hsize.2
    · exact Nat.zero_le _
  obtain ⟨pc1, hop, hops1⟩ := getOps_eq_cons.mp hops
  have hpush : evalFrom check hashes script (.init [sig] script) =
      evalFrom check hashes pc1 ⟨[push.vch, sig], [], [], 0, script⟩ :=
    evalFrom_push hop (opcode_le_of_pubKeySize hops List.mem_cons_self hsize).1
      (opcode_le_of_pubKeySize hops List.mem_cons_self hsize).2 (show 1 < 1000 by decide)
  have hlast : evalFrom check hashes pc1 ⟨[push.vch, sig], [], [], 0, script⟩ =
      .ok ⟨[boolVch b], [], [], 1, script⟩ :=
    evalFrom_last hops1 (by decide) rfl (by decide)
      (fun pc => execOp_checkSig pc (by rw [hcode]; exact hcheck)) (show 1 ≤ 1000 by decide)
  exact evalScript_of_evalFrom hlen (hpush.trans hlast) rfl

/-- A script that pays to the hash of a public key. -/
theorem evalScript_pubkeyhash {pubkey : Bytes}
    (hops : getOps script = some
      [⟨OP_DUP, []⟩, ⟨OP_HASH160, []⟩, push, ⟨OP_EQUALVERIFY, []⟩, ⟨OP_CHECKSIG, []⟩])
    (hpush : push.vch = leBytes 20 (hashes.hash160 pubkey).toNat)
    (hcode : (findAndDelete script (pushVector sig)).1 = script)
    (hcheck : check ⟨sig, pubkey, script⟩ = .ok b) :
    (evalScript check hashes [pubkey, sig] script).1 = .ok [boolVch b] := by
  have hlength : push.vch.length = 20 := by rw [hpush, length_leBytes]
  have hlen : script.length ≤ 10000 := by
    refine length_le_of_template hops le_rfl fun op hop => ?_
    simp only [List.mem_cons, List.not_mem_nil, or_false] at hop
    rcases hop with rfl | rfl | rfl | rfl | rfl
    · exact Nat.zero_le _
    · exact Nat.zero_le _
    · omega
    · exact Nat.zero_le _
    · exact Nat.zero_le _
  obtain ⟨pc1, hop1, hops1⟩ := getOps_eq_cons.mp hops
  obtain ⟨pc2, hop2, hops2⟩ := getOps_eq_cons.mp hops1
  obtain ⟨pc3, hop3, hops3⟩ := getOps_eq_cons.mp hops2
  obtain ⟨pc4, hop4, hops4⟩ := getOps_eq_cons.mp hops3
  have hdup : evalFrom check hashes script (.init [pubkey, sig] script) =
      evalFrom check hashes pc1 ⟨[pubkey, pubkey, sig], [], [], 1, script⟩ :=
    evalFrom_opcode hop1 (by decide) rfl (by decide) rfl (show 3 ≤ 1000 by decide)
  have hhash : evalFrom check hashes pc1 ⟨[pubkey, pubkey, sig], [], [], 1, script⟩ =
      evalFrom check hashes pc2 ⟨[push.vch, pubkey, sig], [], [], 2, script⟩ := by
    refine evalFrom_opcode hop2 (by decide) rfl (by decide) ?_ (show 3 ≤ 1000 by decide)
    rw [hpush]
    rfl
  have hdata : evalFrom check hashes pc2 ⟨[push.vch, pubkey, sig], [], [], 2, script⟩ =
      evalFrom check hashes pc3 ⟨[push.vch, push.vch, pubkey, sig], [], [], 2, script⟩ := by
    refine evalFrom_push hop3 (opcode_le_of_vch_ne_nil hop3 ?_) ?_ (show 3 < 1000 by decide)
    · exact List.ne_nil_of_length_pos (by omega)
    · rw [hlength]
      decide
  have hequal : evalFrom check hashes pc3 ⟨[push.vch, push.vch, pubkey, sig], [], [], 2, script⟩ =
      evalFrom check hashes pc4 ⟨[pubkey, sig], [], [], 3, script⟩ := by
    refine evalFrom_opcode hop4 (by decide) rfl (by decide) ?_ (show 2 ≤ 1000 by decide)
    change (onStack (fun _ => verify true (push.vch == push.vch)
      (boolVch (push.vch == push.vch) :: [pubkey, sig])) _) = _
    rw [beq_self_eq_true]
    rfl
  have hlast : evalFrom check hashes pc4 ⟨[pubkey, sig], [], [], 3, script⟩ =
      .ok ⟨[boolVch b], [], [], 4, script⟩ :=
    evalFrom_last hops4 (by decide) rfl (by decide)
      (fun pc => execOp_checkSig pc (by rw [hcode]; exact hcheck)) (show 1 ≤ 1000 by decide)
  exact evalScript_of_evalFrom hlen
    (hdup.trans (hhash.trans (hdata.trans (hequal.trans hlast)))) rfl

/-- A script that pays to the hash of a script leaves true on the stack, if that is on top. -/
theorem evalScript_scripthash {subscript : Bytes} {hash : Bytes}
    (hops : getOps script = some [⟨OP_HASH160, []⟩, ⟨0x14, hash⟩, ⟨OP_EQUAL, []⟩])
    (hhash : hash = leBytes 20 (hashes.hash160 subscript).toNat) (hroom : stack.length ≤ 100) :
    (evalScript check hashes (subscript :: stack) script).1 = .ok (vchTrue :: stack) := by
  have hlength : hash.length = 20 := by rw [hhash, length_leBytes]
  have hlen : script.length ≤ 10000 := by
    refine length_le_of_template hops (show 3 ≤ 5 by decide) fun op hop => ?_
    simp only [List.mem_cons, List.not_mem_nil, or_false] at hop
    rcases hop with rfl | rfl | rfl
    · exact Nat.zero_le _
    · exact hlength.trans_le (by decide)
    · exact Nat.zero_le _
  obtain ⟨pc1, hop1, hops1⟩ := getOps_eq_cons.mp hops
  obtain ⟨pc2, hop2, hops2⟩ := getOps_eq_cons.mp hops1
  have htop : evalFrom check hashes script (.init (subscript :: stack) script) =
      evalFrom check hashes pc1 ⟨hash :: stack, [], [], 1, script⟩ := by
    refine evalFrom_opcode hop1 (by decide) rfl (by decide) ?_ ?_
    · rw [hhash]
      rfl
    · change stack.length + 1 + 0 ≤ 1000
      omega
  have hdata : evalFrom check hashes pc1 ⟨hash :: stack, [], [], 1, script⟩ =
      evalFrom check hashes pc2 ⟨hash :: hash :: stack, [], [], 1, script⟩ := by
    refine evalFrom_push hop2 (show (0x14 : UInt8) ≤ OP_PUSHDATA4 by decide)
      (hlength.trans_le (by decide)) ?_
    rw [List.length_cons]
    omega
  have hlast : evalFrom check hashes pc2 ⟨hash :: hash :: stack, [], [], 1, script⟩ =
      .ok ⟨vchTrue :: stack, [], [], 2, script⟩ := by
    refine evalFrom_last hops2 (by decide) rfl (by decide) (fun pc => ?_) ?_
    · change (onStack (fun _ => verify false (hash == hash)
        (boolVch (hash == hash) :: stack)) _) = _
      rw [beq_self_eq_true]
      rfl
    · change stack.length + 1 + 0 ≤ 1000
      omega
  exact evalScript_of_evalFrom hlen (htop.trans (hdata.trans hlast)) rfl

end

/-! ## What a key store signs -/

/-- A signature of a hash by a key, with the type of the hash. It is longer than a key id. -/
structure SignedBy (env : SignEnv) (pubkey : CPubKey) (hash : UInt256) (sig : Bytes) : Prop where
  verified : env.verify pubkey hash sig.dropLast = true
  hashtype : sig.getLast? = some 1
  canonical : isCanonicalSignature sig SignEnv.verifyFlags = some true
  long : 20 < sig.length

/-- A key store that is unlocked. Keys are stored under the hash of their own public key and
scripts, which `AddCScript` takes up to the size of a push, under theirs. What the keys sign is
verified, and canonical. -/
structure Unlocked (keystore : KeyStore) (env : SignEnv) : Prop where
  haveKey : ∀ {id : CKeyID}, keystore.haveKey id = true →
    ∃ key, env.keystore.getKey id = some key
  getKey : ∀ {id : CKeyID} {key : CKey}, env.keystore.getKey id = some key →
    ∃ pubkey, env.keystore.getPubKey id = some pubkey ∧ env.hashes.hash160 pubkey.vch = id ∧
      isCanonicalPubKey pubkey.vch SignEnv.verifyFlags = some true ∧
        ∀ hash, ∃ vchSig, env.keystore.sign key hash = some vchSig ∧
          SignedBy env pubkey hash (vchSig ++ [1])
  getCScript : ∀ id, env.keystore.getCScript id = keystore.mapScripts[id]?
  mapScripts : ∀ {id : UInt160} {script : Bytes}, keystore.mapScripts[id]? = some script →
    env.hashes.hash160 script = id ∧ script.length ≤ MAX_SCRIPT_ELEMENT_SIZE

/-- The public keys of a script. -/
def scriptKeys (script : Bytes) : List Bytes :=
  match solver script with
  | some (true, .pubkey, vSolutions) => vSolutions
  | some (true, .multisig, vSolutions) => (vSolutions.drop 1).dropLast
  | _ => []

/-- By its hash a public key of a script is found as itself : no two of them have one hash. -/
def FoundByHash (env : SignEnv) (script : Bytes) : Prop :=
  ∀ vch ∈ scriptKeys script, ∀ pubkey,
    env.keystore.getPubKey (pubKeyID env.hashes.hash160 vch) = some pubkey →
      CPubKey.set vch = pubkey

section

variable {keystore : KeyStore} {env : SignEnv} {tx : CTransaction} {i : ℕ} {script sig : Bytes}
  {pubkey : CPubKey} {hash : UInt256} {ops : List ScriptOp}

/-- What a key signs is accepted. -/
theorem SignedBy.accepts
    (h : SignedBy env pubkey (signatureHash env.hashes.hash script tx i SIGHASH_ALL) sig)
    (hpubkey : isCanonicalPubKey pubkey.vch SignEnv.verifyFlags = some true) :
    checkSignature (env.checkSigFor tx i) SignEnv.verifyFlags ⟨sig, pubkey.vch, script⟩ =
      .ok true := by
  obtain ⟨hset, hlen, -⟩ := set_of_isCanonicalPubKey hpubkey
  have hcanonical : isCanonical SignEnv.verifyFlags ⟨sig, pubkey.vch, script⟩ = some true := by
    unfold isCanonical
    rw [h.canonical, hpubkey]
    rfl
  have hne : ¬(⟨pubkey.vch⟩ : CPubKey).vch = [] := List.ne_nil_of_length_pos (by dsimp only; omega)
  have hcheck : env.checkSigFor tx i ⟨sig, pubkey.vch, script⟩ = true := by
    unfold SignEnv.checkSigFor CheckSigCall.toVerify
    dsimp only
    rw [hset, if_neg hne, h.hashtype]
    exact h.verified
  rw [SignEnv.checkSignature_verifyFlags]
  unfold SignEnv.accepts
  rw [hcanonical, hcheck]
  rfl

theorem SignedBy.length_le (h : SignedBy env pubkey hash sig) :
    sig.length ≤ MAX_SCRIPT_ELEMENT_SIZE :=
  (head_of_isCanonicalSignature h.canonical).2.trans (by decide)

/-- A signature is not one of some data of a script : public keys that are canonical, and what is
no longer than a key id. -/
theorem SignedBy.findAndDelete (h : SignedBy env pubkey hash sig) (hops : getOps script = some ops)
    (hdata : ∀ op ∈ ops, op.vch.length ≤ 20 ∨
      isCanonicalPubKey op.vch SignEnv.verifyFlags = some true) :
    (findAndDelete script (pushVector sig)).1 = script := by
  have hlt : sig.length < 2 ^ 32 := h.length_le.trans_lt (by decide)
  refine findAndDelete_of_not_mem hlt hops fun hmem => ?_
  rcases hdata _ hmem with hshort | hkey
  · exact absurd h.long (not_lt.mpr hshort)
  · exact (set_of_isCanonicalPubKey hkey).2.2.2 (head_of_isCanonicalSignature h.canonical).1

/-- A key of the store signs. -/
theorem Unlocked.sign1 (h : Unlocked keystore env) (htype : env.nHashType = SIGHASH_ALL)
    {id : CKeyID} (hid : keystore.haveKey id = true) (hash : UInt256) :
    ∃ pubkey sig, env.sign1 id hash = some (pushVector sig) ∧
      env.keystore.getPubKey id = some pubkey ∧ env.hashes.hash160 pubkey.vch = id ∧
      isCanonicalPubKey pubkey.vch SignEnv.verifyFlags = some true ∧
      SignedBy env pubkey hash sig := by
  obtain ⟨key, hkey⟩ := h.haveKey hid
  obtain ⟨pubkey, hpubkey, hhash, hcanonical, hsign⟩ := h.getKey hkey
  obtain ⟨vchSig, hvchSig, hsigned⟩ := hsign hash
  refine ⟨pubkey, vchSig ++ [1], ?_, hpubkey, hhash, hcanonical, hsigned⟩
  unfold SignEnv.sign1
  rw [hkey, htype]
  simp only [Option.bind_eq_bind, Option.bind_some, hvchSig]
  rfl

/-- The key of a public key of a script signs for it. -/
theorem Unlocked.sign1_pubKeyID (h : Unlocked keystore env) (htype : env.nHashType = SIGHASH_ALL)
    (hfound : FoundByHash env script) {vch : Bytes} (hvch : vch ∈ scriptKeys script)
    (hid : keystore.haveKey (pubKeyID env.hashes.hash160 vch) = true) (hash : UInt256) :
    ∃ sig, env.sign1 (pubKeyID env.hashes.hash160 vch) hash = some (pushVector sig) ∧
      isCanonicalPubKey vch SignEnv.verifyFlags = some true ∧ SignedBy env ⟨vch⟩ hash sig := by
  obtain ⟨pubkey, sig, hsign, hpubkey, -, hcanonical, hsigned⟩ := h.sign1 htype hid hash
  have hset := hfound vch hvch pubkey hpubkey
  have hvalid : pubkey = ⟨vch⟩ := by
    rw [← hset]
    unfold CPubKey.set at hset ⊢
    split at hset
    · rfl
    split at hset
    · rename_i hlen
      rw [if_pos hlen]
    · subst hset
      cases hcanonical
  subst hvalid
  exact ⟨sig, hsign, hcanonical, hsigned⟩

/-- `SignN` with all keys signs with the first of them. -/
theorem signN_eq {sigFor : Bytes → Bytes} : ∀ {pubkeys : List Bytes} {nRequired : ℕ},
    (∀ vch ∈ pubkeys, env.sign1 (pubKeyID env.hashes.hash160 vch) hash =
      some (pushVector (sigFor vch))) → nRequired ≤ pubkeys.length →
    env.signN hash pubkeys nRequired = ((pubkeys.take nRequired).map sigFor).flatMap pushVector ∧
      env.signsN hash pubkeys nRequired = true
  | [], 0, _, _ => ⟨rfl, rfl⟩
  | [], _ + 1, _, hle => absurd hle (Nat.not_succ_le_zero _)
  | _ :: _, 0, _, _ => ⟨rfl, rfl⟩
  | vch :: pubkeys, nRequired + 1, hsign, hle => by
    rw [List.forall_mem_cons] at hsign
    obtain ⟨hscript, hall⟩ := signN_eq hsign.2 (Nat.succ_le_succ_iff.mp hle)
    constructor
    · rw [SignEnv.signN, hsign.1]
      dsimp only
      rw [hscript, List.take_succ_cons, List.map_cons, List.flatMap_cons]
    · rw [SignEnv.signsN, hsign.1]
      exact hall

/-! ## Scripts that are satisfied -/

/-- What a script signature pushes satisfies a script. -/
structure Satisfies (env : SignEnv) (tx : CTransaction) (i : ℕ) (script : Bytes)
    (vs : List Bytes) : Prop where
  size : ∀ v ∈ vs, v.length ≤ MAX_SCRIPT_ELEMENT_SIZE
  length : vs.length ≤ 17
  evaluates : (evalScript (checkSignature (env.checkSigFor tx i) SignEnv.verifyFlags) env.hashes
    vs.reverse script).1 = .ok [vchTrue]

/-- The store signs for a script with what satisfies it. -/
def SignsFor (env : SignEnv) (tx : CTransaction) (i : ℕ) (script : Bytes) : Prop :=
  env.solverSigns script (signatureHash env.hashes.hash script tx i env.nHashType) = true ∧
    ∃ vs, env.solverSign script (signatureHash env.hashes.hash script tx i env.nHashType) =
      vs.flatMap pushVector ∧ Satisfies env tx i script vs

theorem signsFor_pubkey (h : Unlocked keystore env) (htype : env.nHashType = SIGHASH_ALL)
    (hfound : FoundByHash env script) {vSolutions : List Bytes}
    (hsolver : solver script = some (true, .pubkey, vSolutions))
    (hid : keystore.haveKey (pubKeyID env.hashes.hash160 (vSolutions.headD [])) = true) :
    SignsFor env tx i script := by
  obtain ⟨ops, hops, htemplate, -⟩ := template_of_solver hsolver
  cases htemplate with
  | @pubkey push hsize =>
    have hmem : push.vch ∈ scriptKeys script := by
      rw [scriptKeys, hsolver]
      exact List.mem_singleton_self _
    obtain ⟨sig, hsign, hcanonical, hsigned⟩ := h.sign1_pubKeyID htype hfound hmem hid
      (signatureHash env.hashes.hash script tx i SIGHASH_ALL)
    have hcode := hsigned.findAndDelete hops fun op hop => by
      rcases List.mem_pair.mp hop with rfl | rfl
      · exact .inr hcanonical
      · exact .inl (Nat.zero_le _)
    unfold SignsFor SignEnv.solverSigns SignEnv.solverSign
    rw [hsolver, htype]
    dsimp only [List.headD_cons]
    rw [hsign]
    refine ⟨rfl, [sig], (List.append_nil _).symm, ?_, show 1 ≤ 17 by decide, ?_⟩
    · intro v hv
      rw [List.mem_singleton.mp hv]
      exact hsigned.length_le
    · exact evalScript_pubkey hops hsize hcode (hsigned.accepts hcanonical)

theorem signsFor_pubkeyhash (h : Unlocked keystore env) (htype : env.nHashType = SIGHASH_ALL)
    {vSolutions : List Bytes} (hsolver : solver script = some (true, .pubkeyhash, vSolutions))
    (hid : keystore.haveKey (uint160 (vSolutions.headD [])) = true) : SignsFor env tx i script := by
  obtain ⟨ops, hops, htemplate, -⟩ := template_of_solver hsolver
  cases htemplate with
  | @pubkeyhash push hsize =>
    obtain ⟨pubkey, sig, hsign, hpubkey, hhash, hcanonical, hsigned⟩ := h.sign1 htype hid
      (signatureHash env.hashes.hash script tx i SIGHASH_ALL)
    have hcode := hsigned.findAndDelete hops fun op hop => by
      simp only [List.mem_cons, List.not_mem_nil, or_false] at hop
      rcases hop with rfl | rfl | rfl | rfl | rfl
      · exact .inl (Nat.zero_le _)
      · exact .inl (Nat.zero_le _)
      · exact .inl hsize.le
      · exact .inl (Nat.zero_le _)
      · exact .inl (Nat.zero_le _)
    have hpush : push.vch = leBytes 20 (env.hashes.hash160 pubkey.vch).toNat := by
      rw [hhash, List.headD_cons, leBytes_uint160 hsize]
    have hkeyLen := (set_of_isCanonicalPubKey hcanonical).2.2.1
    unfold SignsFor SignEnv.solverSigns SignEnv.solverSign
    rw [hsolver, htype]
    dsimp only at hsign hpubkey ⊢
    rw [hsign, hpubkey]
    refine ⟨rfl, [sig, pubkey.vch], ?_, ?_, show 2 ≤ 17 by decide, ?_⟩
    · simp
    · intro v hv
      rcases List.mem_pair.mp hv with rfl | rfl
      · exact hsigned.length_le
      · exact hkeyLen.trans (by decide)
    · exact evalScript_pubkeyhash hops hpush hcode (hsigned.accepts hcanonical)

theorem signsFor_multisig (h : Unlocked keystore env) (htype : env.nHashType = SIGHASH_ALL)
    (hfound : FoundByHash env script) {vSolutions : List Bytes}
    (hsolver : solver script = some (true, .multisig, vSolutions))
    (hids : ∀ vch ∈ (vSolutions.drop 1).dropLast,
      keystore.haveKey (pubKeyID env.hashes.hash160 vch) = true) :
    SignsFor env tx i script := by
  obtain ⟨m, n, keys, hform, hcounts, rfl⟩ := multisig_of_solver hsolver
  have hkeys : (([m] :: (keys.map ScriptOp.vch ++ [[n]])).drop 1).dropLast =
      keys.map ScriptOp.vch := by
    rw [List.drop_succ_cons, List.drop_zero, List.dropLast_concat]
  rw [hkeys] at hids
  have hscriptKeys : scriptKeys script = keys.map ScriptOp.vch := by
    rw [scriptKeys, hsolver]
    exact hkeys
  have hsigns : ∀ vch ∈ keys.map ScriptOp.vch, ∃ sig,
      env.sign1 (pubKeyID env.hashes.hash160 vch)
        (signatureHash env.hashes.hash script tx i SIGHASH_ALL) = some (pushVector sig) ∧
      isCanonicalPubKey vch SignEnv.verifyFlags = some true ∧
        SignedBy env ⟨vch⟩ (signatureHash env.hashes.hash script tx i SIGHASH_ALL) sig :=
    fun vch hvch => h.sign1_pubKeyID htype hfound (hscriptKeys ▸ hvch) (hids vch hvch) _
  choose! sigFor hsign hcanonical hsigned using hsigns
  obtain ⟨-, hle, hle16⟩ := hcounts.le hform
  have hlength : ((keys.map ScriptOp.vch).take m.toNat).length = m.toNat := by
    rw [List.length_take, List.length_map]
    omega
  have hsignedBy : ∀ sig ∈ ((keys.map ScriptOp.vch).take m.toNat).map sigFor, ∃ key,
      SignedBy env key (signatureHash env.hashes.hash script tx i SIGHASH_ALL) sig := by
    intro sig hsig
    obtain ⟨vch, hvch, rfl⟩ := List.mem_map.mp hsig
    exact ⟨_, hsigned vch (List.mem_of_mem_take hvch)⟩
  have hcode : ∀ sig ∈ ((keys.map ScriptOp.vch).take m.toNat).map sigFor,
      (findAndDelete script (pushVector sig)).1 = script := by
    intro sig hsig
    obtain ⟨key, hkey⟩ := hsignedBy sig hsig
    obtain ⟨opM, opN, hops, hM, hN, -⟩ := hform
    refine hkey.findAndDelete hops fun op hop => ?_
    obtain ⟨pc1, pc2, hread⟩ := exists_getOp2_of_mem hops hop
    rw [List.mem_cons, List.mem_append, List.mem_pair] at hop
    rcases hop with rfl | hop | rfl | rfl
    · rw [vch_of_smallInteger hread hM]
      exact .inl (Nat.zero_le _)
    · exact .inr (hcanonical _ (List.mem_map_of_mem hop))
    · rw [vch_of_smallInteger hread hN]
      exact .inl (Nat.zero_le _)
    · exact .inl (Nat.zero_le _)
  obtain ⟨fSuccess, hiff, heval⟩ : ∃ fSuccess : Bool, _ ∧ (evalScript
      (checkSignature (env.checkSigFor tx i) SignEnv.verifyFlags) env.hashes
      ((((keys.map ScriptOp.vch).take m.toNat).map sigFor).reverse ++ [[]]) script).1 = _ :=
    evalScript_multisig (fun sig key => env.accepts tx i script sig key) hform hcounts
      ((List.length_map _).trans hlength) hcode
      fun sig _ op _ => SignEnv.checkSignature_verifyFlags _
  have haccepts : ∀ vch ∈ (keys.map ScriptOp.vch).take m.toNat,
      env.accepts tx i script (sigFor vch) vch = true := by
    intro vch hvch
    have hmem := List.mem_of_mem_take hvch
    have hcheck := (hsigned vch hmem).accepts (hcanonical vch hmem)
    rw [SignEnv.checkSignature_verifyFlags] at hcheck
    exact Except.ok.inj hcheck
  have hmatches : List.SublistForall₂ (fun sig key => env.accepts tx i script sig key = true)
      (((keys.map ScriptOp.vch).take m.toNat).map sigFor) (keys.map ScriptOp.vch) := by
    refine List.sublistForall₂_iff.mpr ⟨_, ?_, List.take_sublist m.toNat _⟩
    rw [List.forall₂_map_left_iff, List.forall₂_same]
    exact haccepts
  rw [hiff.mpr (sublistForall₂_reverse.mpr hmatches)] at heval
  obtain ⟨hscript, hall⟩ := signN_eq hsign (hle.trans_eq (List.length_map _).symm)
  unfold SignsFor SignEnv.solverSigns SignEnv.solverSign
  rw [hsolver, htype]
  dsimp only
  rw [hkeys]
  refine ⟨hall, [] :: ((keys.map ScriptOp.vch).take m.toNat).map sigFor, ?_, ?_, ?_, ?_⟩
  · rw [List.flatMap_cons, pushOp_nil, List.singleton_append]
    exact congrArg _ hscript
  · intro v hv
    rcases List.mem_cons.mp hv with rfl | hv
    · exact Nat.zero_le _
    · obtain ⟨key, hkey⟩ := hsignedBy v hv
      exact hkey.length_le
  · rw [List.length_cons, List.length_map, hlength]
    omega
  · rw [List.reverse_cons]
    exact heval

/-- The store signs for a script that is ours, but for script hashes. -/
theorem signsFor_of_isMine (h : Unlocked keystore env) (htype : env.nHashType = SIGHASH_ALL)
    (hfound : FoundByHash env script) {isMineSub : Bytes → Bool}
    (hmine : isMineWith env.hashes.hash160 keystore isMineSub script = true)
    (hhash : isPayToScriptHash script = false) : SignsFor env tx i script := by
  unfold isMineWith at hmine
  split at hmine
  · rename_i hsolver
    exact signsFor_pubkey h htype hfound hsolver hmine
  · rename_i hsolver
    exact signsFor_pubkeyhash h htype hsolver hmine
  · rename_i hsolver
    obtain ⟨ops, hops, htemplate, -⟩ := template_of_solver hsolver
    cases htemplate with
    | scripthash hlen =>
      rw [isPayToScriptHash_iff.mpr ⟨_, hlen, (getOps_scripthash hlen).mp hops⟩] at hhash
      cases hhash
  · rename_i hsolver
    refine signsFor_multisig h htype hfound hsolver ?_
    rw [beq_iff_eq, haveKeys, List.countP_eq_length] at hmine
    exact hmine
  · cases hmine

/-! ## SignSignature -/

/-- A script signature is checked for the transaction without it. -/
theorem verifies_setScriptSig (tx : CTransaction) (i : ℕ)
    (scriptSig' scriptSig scriptPubKey : Bytes) :
    env.verifies (tx.setScriptSig i scriptSig') i scriptSig scriptPubKey =
      env.verifies tx i scriptSig scriptPubKey := by
  unfold SignEnv.verifies
  rw [SignEnv.checkSigFor_congr (unsigned_setScriptSig i scriptSig' tx) i]

/-- Pushes are evaluated to what they push. -/
theorem evalScript_pushVectors (check : SigCheck → Eval Bool) (hashes : ScriptHashes)
    {vs : List Bytes} (hsize : ∀ v ∈ vs, v.length ≤ MAX_SCRIPT_ELEMENT_SIZE)
    (hlen : vs.length ≤ 19) :
    (evalScript check hashes [] (vs.flatMap pushVector)).1 = .ok vs.reverse := by
  have heval := @evalScript_pushes check hashes [] vs hsize
    (by rw [List.length_nil]; omega) (length_pushVectors_le hsize hlen)
  rwa [List.append_nil] at heval

theorem isSome_lastPush_pushVectors : ∀ {vs : List Bytes} (data : Bytes),
    (∀ v ∈ vs, v.length ≤ MAX_SCRIPT_ELEMENT_SIZE) →
    (lastPush data (vs.flatMap pushVector)).isSome = true
  | [], data, _ => by
    rw [List.flatMap_nil, lastPush, if_pos rfl]
    rfl
  | v :: vs, data, hsize => by
    rw [List.forall_mem_cons] at hsize
    obtain ⟨hle, hop⟩ := getOp2_pushOp (hsize.1.trans_lt (by decide)) (vs.flatMap pushVector)
    have hnot : ¬(pushOp v).opcode > OP_16 :=
      UInt8.not_lt.mpr (UInt8.le_trans hle (by decide))
    rw [List.flatMap_cons, lastPush_some hop, if_neg hnot]
    exact isSome_lastPush_pushVectors _ hsize.2

theorem Satisfies.verifies {vs : List Bytes} (h : Satisfies env tx i script vs)
    (hhash : isPayToScriptHash script = false) :
    env.verifies tx i (vs.flatMap pushVector) script = true := by
  have hpushes := evalScript_pushVectors
    (checkSignature (env.checkSigFor tx i) SignEnv.verifyFlags) env.hashes h.size
    (h.length.trans (by decide))
  unfold SignEnv.verifies
  rw [verifyScript_of_evalScript hpushes h.evaluates rfl hhash]
  rfl

/-- A script is satisfied under its hash with itself pushed after what satisfies it. -/
theorem Satisfies.verifies_scripthash {subscript : Bytes} {vs : List Bytes}
    (h : Satisfies env tx i subscript vs) (hsize : subscript.length ≤ MAX_SCRIPT_ELEMENT_SIZE)
    {vSolutions : List Bytes} (hsolver : solver script = some (true, .scripthash, vSolutions))
    (hhash : env.hashes.hash160 subscript = uint160 (vSolutions.headD [])) :
    env.verifies tx i (vs.flatMap pushVector ++ pushVector subscript) script = true := by
  obtain ⟨ops, hops, htemplate, -⟩ := template_of_solver hsolver
  cases htemplate with
  | @scripthash hash hlen =>
    have hsizes : ∀ v ∈ vs ++ [subscript], v.length ≤ MAX_SCRIPT_ELEMENT_SIZE := by
      intro v hv
      rcases List.mem_append.mp hv with hv | hv
      · exact h.size v hv
      · rw [List.mem_singleton.mp hv]
        exact hsize
    have hlength : (vs ++ [subscript]).length ≤ 19 := by
      have := h.length
      rw [List.length_append, List.length_singleton]
      omega
    have hpushes := evalScript_pushVectors
      (checkSignature (env.checkSigFor tx i) SignEnv.verifyFlags) env.hashes hsizes hlength
    have hpushOnly := isSome_lastPush_pushVectors [] hsizes
    rw [List.reverse_concat] at hpushes
    have hroom : vs.reverse.length ≤ 100 := by
      have := h.length
      rw [List.length_reverse]
      omega
    have htop := @evalScript_scripthash
      (checkSignature (env.checkSigFor tx i) SignEnv.verifyFlags) env.hashes script vs.reverse
      subscript hash hops (by rw [hhash, List.headD_cons, leBytes_uint160 hlen]) hroom
    have hscripthash : isPayToScriptHash script = true :=
      isPayToScriptHash_iff.mpr ⟨hash, hlen, (getOps_scripthash hlen).mp hops⟩
    have hscript : vs.flatMap pushVector ++ pushVector subscript =
        (vs ++ [subscript]).flatMap pushVector := by
      rw [List.flatMap_append, List.flatMap_singleton]
    unfold SignEnv.verifies verifyScript
    rw [hscript]
    dsimp only
    rw [hpushes]
    dsimp only
    rw [htop]
    dsimp only [Except.bind]
    rw [show needTrue (vchTrue :: vs.reverse) = .ok () from rfl]
    dsimp only
    rw [hscripthash, isPushOnly, hpushOnly, h.evaluates]
    rfl

end

/-- The script that a script hash stands for. -/
def redeemScript (keystore : KeyStore) (scriptPubKey : Bytes) : Option Bytes :=
  match solver scriptPubKey with
  | some (true, .scripthash, vSolutions) => keystore.mapScripts[uint160 (vSolutions.headD [])]?
  | _ => none

theorem isMineScript_eq_isMineWith (hash160 : Bytes → UInt160) (keystore : KeyStore) (depth : ℕ)
    (script : Bytes) : ∃ isMineSub, isMineScript hash160 keystore depth script =
      isMineWith hash160 keystore isMineSub script := by
  cases depth with
  | zero => exact ⟨_, rfl⟩
  | succ depth => exact ⟨_, rfl⟩

theorem isPayToScriptHash_of_solver {script : Bytes} {vSolutions : List Bytes}
    (h : solver script = some (true, .scripthash, vSolutions)) :
    isPayToScriptHash script = true := by
  obtain ⟨ops, hops, htemplate, -⟩ := template_of_solver h
  cases htemplate with
  | scripthash hlen =>
    exact isPayToScriptHash_iff.mpr ⟨_, hlen, (getOps_scripthash hlen).mp hops⟩

section

variable {keystore : KeyStore} {env : SignEnv} {tx : CTransaction} {i : ℕ}
  {scriptPubKey subscript : Bytes} {vSolutions : List Bytes}

/-- What a script hash stands for is ours if the script hash is. -/
theorem exists_redeemScript
    (hsolver : solver scriptPubKey = some (true, .scripthash, vSolutions))
    (hmine : isMine env.hashes.hash160 keystore scriptPubKey = true) :
    ∃ subscript isMineSub, redeemScript keystore scriptPubKey = some subscript ∧
      isMineWith env.hashes.hash160 keystore isMineSub subscript = true := by
  have hredeem : redeemScript keystore scriptPubKey =
      keystore.mapScripts[uint160 (vSolutions.headD [])]? := by
    rw [redeemScript, hsolver]
  rw [hredeem]
  unfold isMine at hmine
  cases hsize : keystore.mapScripts.size with
  | zero =>
    rw [hsize, isMineScript, isMineWith, hsolver] at hmine
    dsimp only at hmine
    split at hmine
    · cases hmine
    · cases hmine
  | succ depth =>
    rw [hsize, isMineScript, isMineWith, hsolver] at hmine
    dsimp only at hmine
    split at hmine
    · cases hmine
    · rename_i subscript hget
      obtain ⟨isMineSub, heq⟩ :=
        isMineScript_eq_isMineWith env.hashes.hash160 keystore depth subscript
      exact ⟨subscript, isMineSub, hget, heq ▸ hmine⟩

/-- A script that is no script hash is signed for. -/
theorem SignsFor.signs (h : SignsFor env tx i scriptPubKey)
    (hhash : isPayToScriptHash scriptPubKey = false) : env.signs scriptPubKey tx i = true := by
  obtain ⟨hsigns, vs, hscript, hsatisfies⟩ := h
  have hnot : ∀ vSolutions, solver scriptPubKey ≠ some (true, .scripthash, vSolutions) := by
    intro vSolutions hsolver
    rw [isPayToScriptHash_of_solver hsolver] at hhash
    cases hhash
  have hsolved : env.fSolved scriptPubKey tx i = true := by
    unfold SignEnv.fSolved
    split
    · exact absurd ‹_› (hnot _)
    · exact hsigns
  have hscriptSig : env.signSignature scriptPubKey tx i = vs.flatMap pushVector := by
    unfold SignEnv.signSignature
    split
    · exact absurd ‹_› (hnot _)
    · exact hscript
  unfold SignEnv.signs
  dsimp only
  rw [hsolved, hscriptSig, verifies_setScriptSig, hsatisfies.verifies hhash]
  rfl

/-- A script hash is signed for if the store signs for what it stands for, unless that is another
script hash. -/
theorem signs_scripthash (h : Unlocked keystore env)
    (hsolver : solver scriptPubKey = some (true, .scripthash, vSolutions))
    (hget : keystore.mapScripts[uint160 (vSolutions.headD [])]? = some subscript)
    (hsub : isPayToScriptHash subscript = false → SignsFor env tx i subscript) :
    env.signs scriptPubKey tx i = !isPayToScriptHash subscript := by
  have hstore : env.keystore.getCScript (uint160 (vSolutions.headD [])) = some subscript :=
    (h.getCScript _).trans hget
  have hsolved : env.fSolved scriptPubKey tx i =
      (env.solverSigns subscript (signatureHash env.hashes.hash subscript tx i env.nHashType) &&
        !isPayToScriptHash subscript) := by
    unfold SignEnv.fSolved
    rw [hsolver]
    dsimp only
    rw [hstore]
  unfold SignEnv.signs
  dsimp only
  rw [hsolved]
  cases hhash : isPayToScriptHash subscript with
  | true => rw [Bool.not_true, Bool.and_false, Bool.false_and]
  | false =>
    obtain ⟨hsigns, vs, hscript, hsatisfies⟩ := hsub hhash
    obtain ⟨hid, hsize⟩ := h.mapScripts hget
    have hscriptSig : env.signSignature scriptPubKey tx i =
        vs.flatMap pushVector ++ pushVector subscript := by
      unfold SignEnv.signSignature
      rw [hsolver]
      dsimp only
      rw [hstore]
      dsimp only
      rw [hscript]
    rw [hsigns, hscriptSig, verifies_setScriptSig,
      hsatisfies.verifies_scripthash hsize hsolver hid]
    rfl

end

/-- What is ours is signed for, if and only if it is not the hash of a script that pays to a script
hash itself. -/
theorem isMine_signs (keystore : KeyStore) (env : SignEnv) (h : Unlocked keystore env)
    (htype : env.nHashType = SIGHASH_ALL) (scriptPubKey : Bytes)
    (hmine : isMine env.hashes.hash160 keystore scriptPubKey = true)
    (hfound : FoundByHash env scriptPubKey)
    (hredeem : ∀ subscript, redeemScript keystore scriptPubKey = some subscript →
      FoundByHash env subscript) (txTo : CTransaction) (nIn : ℕ) :
    env.signs scriptPubKey txTo nIn = true ↔
      (redeemScript keystore scriptPubKey).all fun subscript => !isPayToScriptHash subscript := by
  cases hhash : isPayToScriptHash scriptPubKey with
  | false =>
    obtain ⟨isMineSub, heq⟩ := isMine_eq_isMineWith env.hashes.hash160 keystore scriptPubKey
    have hsignsFor : SignsFor env txTo nIn scriptPubKey :=
      signsFor_of_isMine h htype hfound (heq ▸ hmine) hhash
    have hnone : redeemScript keystore scriptPubKey = none := by
      unfold redeemScript
      split
      · rename_i hsolver
        rw [isPayToScriptHash_of_solver hsolver] at hhash
        cases hhash
      · rfl
    rw [hnone]
    exact iff_of_true (hsignsFor.signs hhash) rfl
  | true =>
    have hsolver : solver scriptPubKey =
        some (true, .scripthash, [(scriptPubKey.drop 2).take 20]) := by
      rw [solver, if_pos hhash]
    obtain ⟨subscript, isMineSub, hget, hsub⟩ := exists_redeemScript hsolver hmine
    have hmapScripts : keystore.mapScripts[uint160 ((scriptPubKey.drop 2).take 20)]? =
        some subscript := by
      rw [← hget, redeemScript, hsolver]
      rfl
    rw [signs_scripthash h hsolver hmapScripts fun hnot =>
      signsFor_of_isMine h htype (hredeem subscript hget) hsub hnot, hget, Option.all_some]

/-! ## A script hash within a script hash -/

/-- A public key of 33 bytes. -/
def ownKey : Bytes := 2 :: List.replicate 32 1

/-- The length of the script that pays to the key is its hash, and pays to a hash of 23 bytes. -/
def innerScript : Bytes := setDestination (.scriptID 35)

def nestedStore : KeyStore where
  haveKey id := id == 33
  mapScripts := ((∅ : Std.ExtTreeMap UInt160 Bytes).insert 35 (payToPubKey ownKey)).insert 23
    innerScript

/-- A signature whose numbers have 8 bytes. -/
def shortSig : Bytes :=
  [0x30, 0x14, 0x02, 0x08] ++ List.replicate 8 1 ++ [0x02, 0x08] ++ List.replicate 8 1

def nestedEnv : SignEnv where
  hashes := lengthHashes
  verify _ _ _ := true
  keystore := {
    getKey := fun id => if id = 33 then some {} else none
    getPubKey := fun id => if id = 33 then some ⟨ownKey⟩ else none
    getCScript := fun id => nestedStore.mapScripts[id]?
    sign := fun _ _ => some shortSig }
  view _ := none
  nHashType := SIGHASH_ALL
  leftover _ := ⟨[], by simp [Small]⟩

theorem unlocked_nestedStore : Unlocked nestedStore nestedEnv where
  haveKey {id} h := ⟨{}, if_pos (beq_iff_eq.mp h)⟩
  getKey {id key} h := by
    have hid : id = 33 := by
      by_contra hne
      rw [show nestedEnv.keystore.getKey id = none from if_neg hne] at h
      cases h
    subst hid
    refine ⟨⟨ownKey⟩, rfl, rfl, by decide, fun hash => ⟨shortSig, rfl, rfl, rfl, by decide, ?_⟩⟩
    decide
  getCScript _ := rfl
  mapScripts {id script} h := by
    unfold nestedStore at h
    rw [Std.ExtTreeMap.getElem?_insert, Std.ExtTreeMap.getElem?_insert] at h
    split at h
    · rename_i heq
      cases h
      rw [← Std.LawfulEqCmp.eq_of_compare heq]
      decide
    split at h
    · rename_i heq
      cases h
      rw [← Std.LawfulEqCmp.eq_of_compare heq]
      decide
    · cases h

theorem solver_nested : solver (setDestination (.scriptID 23)) =
      some (true, .scripthash, [leBytes 20 23]) ∧
    solver innerScript = some (true, .scripthash, [leBytes 20 35]) ∧
    solver (payToPubKey ownKey) = some (true, .pubkey, [ownKey]) :=
  ⟨solver_setDestination_scriptID 23, solver_setDestination_scriptID 35,
    solver_payToPubKey (by decide)⟩

theorem redeemScript_nested :
    redeemScript nestedStore (setDestination (.scriptID 23)) = some innerScript ∧
      redeemScript nestedStore innerScript = some (payToPubKey ownKey) := by
  obtain ⟨houter, hinner, -⟩ := solver_nested
  unfold redeemScript
  rw [houter, hinner]
  constructor <;> decide

/-- The inner script is ours by its key, and the outer one by the inner one. -/
theorem isMineScript_nested (depth : ℕ) :
    isMineScript lengthHashes.hash160 nestedStore (depth + 1) innerScript = true ∧
      isMineScript lengthHashes.hash160 nestedStore (depth + 2) (setDestination (.scriptID 23)) =
        true := by
  obtain ⟨houter, hinner, hkey⟩ := solver_nested
  have hkeyMine : isMineScript lengthHashes.hash160 nestedStore depth (payToPubKey ownKey) =
      true := by
    obtain ⟨isMineSub, heq⟩ :=
      isMineScript_eq_isMineWith lengthHashes.hash160 nestedStore depth (payToPubKey ownKey)
    rw [heq, isMineWith, hkey]
    exact show nestedStore.haveKey (pubKeyID lengthHashes.hash160 ownKey) = true by decide
  have hget : nestedStore.mapScripts[uint160 (leBytes 20 35)]? = some (payToPubKey ownKey) ∧
      nestedStore.mapScripts[uint160 (leBytes 20 23)]? = some innerScript := by
    constructor <;> decide
  have hinnerMine : isMineScript lengthHashes.hash160 nestedStore (depth + 1) innerScript =
      true := by
    rw [isMineScript, isMineWith, hinner]
    dsimp only
    rw [List.headD_cons, hget.1]
    exact hkeyMine
  refine ⟨hinnerMine, ?_⟩
  rw [isMineScript, isMineWith, houter]
  dsimp only
  rw [List.headD_cons, hget.2]
  exact hinnerMine

/-- A script hash is signed for. A script hash within a script hash is ours as well, and is not. -/
theorem isMine_signs_nested :
    nestedEnv.signs innerScript ⟨1, [⟨.null, [], 0⟩], [], 0⟩ 0 = true ∧
      nestedEnv.signs (setDestination (.scriptID 23)) ⟨1, [⟨.null, [], 0⟩], [], 0⟩ 0 = false := by
  obtain ⟨houter, hinner, hkey⟩ := solver_nested
  have hsize : nestedStore.mapScripts.size = 2 := by decide
  have hfoundKey : FoundByHash nestedEnv (payToPubKey ownKey) := by
    intro vch hvch pubkey hget
    rw [scriptKeys, hkey, List.mem_singleton] at hvch
    subst hvch
    cases hget
    decide
  have hfoundInner : FoundByHash nestedEnv innerScript := by
    intro vch hvch
    rw [scriptKeys, hinner] at hvch
    cases hvch
  have hfoundOuter : FoundByHash nestedEnv (setDestination (.scriptID 23)) := by
    intro vch hvch
    rw [scriptKeys, houter] at hvch
    cases hvch
  constructor
  · refine (isMine_signs nestedStore nestedEnv unlocked_nestedStore rfl innerScript ?_ hfoundInner
      ?_ _ _).mpr ?_
    · rw [isMine, hsize]
      exact (isMineScript_nested 1).1
    · intro subscript hsub
      rw [redeemScript_nested.2] at hsub
      cases hsub
      exact hfoundKey
    · rw [redeemScript_nested.2]
      decide
  · refine Bool.eq_false_iff.mpr fun hsigns => ?_
    have hall := (isMine_signs nestedStore nestedEnv unlocked_nestedStore rfl
      (setDestination (.scriptID 23)) ?_ hfoundOuter ?_ _ _).mp hsigns
    · rw [redeemScript_nested.1] at hall
      exact absurd hall (by decide)
    · rw [isMine, hsize]
      exact (isMineScript_nested 0).2
    · intro subscript hsub
      rw [redeemScript_nested.1] at hsub
      cases hsub
      exact hfoundInner

end Ticoin
