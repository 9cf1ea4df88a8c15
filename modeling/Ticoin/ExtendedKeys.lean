import Ticoin.EcKey

/-!
# key.cpp : extended keys

A key with a chain code has children, by number. The secret of a child is the sum of the secret and
a tweak, which a hash of the public key, the chain code and the number gives. As the tweak does not
depend on the secret, the public key of the child is also the sum of the public key and the point of
the tweak : a public key has children without its secret. Numbers from 2^31 on hash the secret
instead, and only secrets have such children.

Deriving along a path and then forgetting the secret is the same as forgetting it first, with the
same step failing if any fails, and keys are read back from their encoding
(`neuter_derive_commute`).
-/

namespace Ticoin

open Codec

/-! ## Child keys -/

/-- The number of a child, highest byte first. -/
def childBytes (nChild : UInt32) : Bytes :=
  [(nChild >>> 24).toUInt8, (nChild >>> 16).toUInt8, (nChild >>> 8).toUInt8, nChild.toUInt8]

/-- `TweakSecret` : whether it succeeds, and the sum. -/
def tweakSecret (vchSecretIn vchTweak : Bytes) : Bool × Bytes :=
  let bnTweak := bin2bn vchTweak
  let bnSecret := (bin2bn vchSecretIn + bnTweak) % curveOrder
  (!decide (curveOrder ≤ bnTweak) && !decide (bnSecret = 0), bn2bin bnSecret)

section

variable {Point : Type} [AddCommGroup Point] [DecidableEq Point] (E : Curve Point) (C : Crypto)
  (hmacSHA512 : Bytes → Bytes → Vector UInt8 64)

/-- `TweakPublic`. -/
def tweakPublic (point : Point) (vchTweak : Bytes) : Bool × Point :=
  let bnTweak := bin2bn vchTweak
  let point := bnTweak • E.generator + point
  (!decide (curveOrder ≤ bnTweak) && !decide (point = 0), point)

/-- `BIP32Hash`. -/
def bip32Hash (chainCode : Bytes) (nChild : UInt32) (header : UInt8) (data : Bytes) : Bytes :=
  (hmacSHA512 chainCode (header :: (data ++ childBytes nChild))).toList

/-- `CKey::Derive`, with its assertions : whether it succeeds, the child and its chain code. -/
def CKey.derive (nChild : UInt32) (cc : Bytes) (key : CKey) : Option (Bool × CKey × Bytes) :=
  if ¬ key.fValid then none
  else if ¬ key.fCompressed then none
  else do
    let out ←
      if nChild >>> 31 = 0 then do
        let pubkey ← key.getPubKey C
        if pubkey.vch.length ≠ 33 then none
        else some (bip32Hash hmacSHA512 cc nChild (pubkey.vch.headD 0) pubkey.vch.tail)
      else some (bip32Hash hmacSHA512 cc nChild 0 key.bytes)
    let (ret, vch) := tweakSecret key.vch (out.take 32)
    some (ret, { fValid := ret, fCompressed := true, vch := vch }, out.drop 32)

/-- `CPubKey::Derive`. A key that is not read leaves the point at infinity. -/
def CPubKey.derive (nChild : UInt32) (cc : Bytes) (pubkey : CPubKey) :
    Option (Bool × CPubKey × Bytes) :=
  if pubkey.vch.isEmpty then none
  else if nChild >>> 31 ≠ 0 then none
  else if pubkey.vch.length ≠ 33 then none
  else
    let out := bip32Hash hmacSHA512 cc nChild (pubkey.vch.headD 0) pubkey.vch.tail
    let (ret, point) := tweakPublic E ((E.o2i pubkey.vch).getD 0) (out.take 32)
    some ((E.o2i pubkey.vch).isSome && ret, E.getPubKey point true, out.drop 32)

end

/-! ## Extended keys -/

structure CExtKey where
  nDepth : UInt8
  vchFingerprint : Bytes
  nChild : UInt32
  vchChainCode : Bytes
  key : CKey

structure CExtPubKey where
  nDepth : UInt8
  vchFingerprint : Bytes
  nChild : UInt32
  vchChainCode : Bytes
  pubkey : CPubKey

section

variable {Point : Type} [AddCommGroup Point] [DecidableEq Point] (E : Curve Point) (C : Crypto)
  (hmacSHA512 : Bytes → Bytes → Vector UInt8 64)

/-- The first bytes of the hash of a public key. -/
def fingerprint (pubkey : CPubKey) : Bytes := (leBytes 20 (pubkey.getID C).toNat).take 4

/-- `CExtKey::Derive`. -/
def CExtKey.derive (x : CExtKey) (nChild : UInt32) : Option (Bool × CExtKey) := do
  let pubkey ← x.key.getPubKey C
  let (ret, key, vchChainCode) ← x.key.derive C hmacSHA512 nChild x.vchChainCode
  some (ret, ⟨x.nDepth + 1, fingerprint C pubkey, nChild, vchChainCode, key⟩)

/-- `CExtPubKey::Derive`. -/
def CExtPubKey.derive (x : CExtPubKey) (nChild : UInt32) : Option (Bool × CExtPubKey) := do
  let (ret, pubkey, vchChainCode) ← x.pubkey.derive E hmacSHA512 nChild x.vchChainCode
  some (ret, ⟨x.nDepth + 1, fingerprint C x.pubkey, nChild, vchChainCode, pubkey⟩)

/-- `Neuter`. -/
def CExtKey.neuter (x : CExtKey) : Option CExtPubKey := do
  let pubkey ← x.key.getPubKey C
  some ⟨x.nDepth, x.vchFingerprint, x.nChild, x.vchChainCode, pubkey⟩

/-- The keys along a path, up to the first step that fails. -/
def keysAlong {α : Type} (derive : α → UInt32 → Option (Bool × α)) :
    List UInt32 → α → Option (List α)
  | [], _ => some []
  | nChild :: path, x => do
    match ← derive x nChild with
    | (false, _) => some []
    | (true, y) => do
      let ys ← keysAlong derive path y
      some (y :: ys)

end

/-! ## Encoding -/

/-- What both encodings begin with. -/
def encodeHead (nDepth : UInt8) (vchFingerprint : Bytes) (nChild : UInt32) (vchChainCode : Bytes) :
    Bytes :=
  nDepth :: (vchFingerprint ++ childBytes nChild ++ vchChainCode)

/-- `CExtKey::Encode`. -/
def CExtKey.encode (x : CExtKey) : Option Bytes :=
  if x.key.bytes.length ≠ 32 then none
  else some (encodeHead x.nDepth x.vchFingerprint x.nChild x.vchChainCode ++ 0 :: x.key.bytes)

/-- `CExtPubKey::Encode`. -/
def CExtPubKey.encode (x : CExtPubKey) : Option Bytes :=
  if x.pubkey.vch.length ≠ 33 then none
  else some (encodeHead x.nDepth x.vchFingerprint x.nChild x.vchChainCode ++ x.pubkey.vch)

/-- The number of a child that four bytes give. -/
def childNumber (code : Bytes) : UInt32 :=
  ((code.getD 0 0).toUInt32 <<< 24) ||| ((code.getD 1 0).toUInt32 <<< 16) |||
    ((code.getD 2 0).toUInt32 <<< 8) ||| (code.getD 3 0).toUInt32

/-- `CExtKey::Decode`, which overwrites a key. -/
def CExtKey.decode (code : Bytes) (x : CExtKey) : CExtKey where
  nDepth := code.getD 0 0
  vchFingerprint := (code.drop 1).take 4
  nChild := childNumber (code.drop 5)
  vchChainCode := (code.drop 9).take 32
  key := x.key.set ((code.drop 42).take 32) true

/-- `CExtPubKey::Decode`. -/
def CExtPubKey.decode (code : Bytes) : CExtPubKey where
  nDepth := code.getD 0 0
  vchFingerprint := (code.drop 1).take 4
  nChild := childNumber (code.drop 5)
  vchChainCode := (code.drop 9).take 32
  pubkey := CPubKey.set ((code.drop 41).take 33)

/-- The arrays have their sizes, and the key holds a secret whose public key is compressed. -/
structure CExtKey.IsValid (x : CExtKey) : Prop where
  fingerprint : x.vchFingerprint.length = 4
  chainCode : x.vchChainCode.length = 32
  isSecret : x.key.IsSecret
  compressed : x.key.fCompressed = true

/-- The arrays have their sizes, and the public key is compressed. -/
structure CExtPubKey.IsValid (x : CExtPubKey) : Prop where
  fingerprint : x.vchFingerprint.length = 4
  chainCode : x.vchChainCode.length = 32
  isSet : CPubKey.set x.pubkey.vch = x.pubkey
  compressed : x.pubkey.vch.length = 33

/-- The bits of the four bytes of a number. -/
theorem childNumber_childBytes (nChild : UInt32) (rest : Bytes) :
    childNumber (childBytes nChild ++ rest) = nChild := by
  unfold childNumber childBytes
  apply UInt32.eq_of_toBitVec_eq
  ext i hi
  simp [-UInt32.toUInt32_toUInt8]
  interval_cases i <;> simp

/-- The parts of an encoding. -/
theorem parts_encodeHead {vchFingerprint vchChainCode : Bytes}
    (hfingerprint : vchFingerprint.length = 4) (hchainCode : vchChainCode.length = 32)
    (nDepth : UInt8) (nChild : UInt32) (rest : Bytes) :
    let code := encodeHead nDepth vchFingerprint nChild vchChainCode ++ rest
    code.getD 0 0 = nDepth ∧ (code.drop 1).take 4 = vchFingerprint ∧
      childNumber (code.drop 5) = nChild ∧ (code.drop 9).take 32 = vchChainCode ∧
      code.drop 41 = rest := by
  dsimp only
  have hcode : encodeHead nDepth vchFingerprint nChild vchChainCode ++ rest =
      nDepth :: (vchFingerprint ++ (childBytes nChild ++ (vchChainCode ++ rest))) := by
    simp [encodeHead]
  have hlen : (childBytes nChild).length = 4 := rfl
  have h5 : (nDepth :: (vchFingerprint ++ (childBytes nChild ++ (vchChainCode ++ rest)))).drop 5 =
      childBytes nChild ++ (vchChainCode ++ rest) := by
    rw [List.drop_succ_cons, List.drop_left' hfingerprint]
  have h9 : (nDepth :: (vchFingerprint ++ (childBytes nChild ++ (vchChainCode ++ rest)))).drop 9 =
      vchChainCode ++ rest := by
    rw [show 9 = 5 + 4 from rfl, ← List.drop_drop, h5, List.drop_left' hlen]
  rw [hcode]
  refine ⟨rfl, ?_, ?_, ?_, ?_⟩
  · rw [List.drop_succ_cons, List.drop_zero, List.take_left' hfingerprint]
  · rw [h5, childNumber_childBytes]
  · rw [h9, List.take_left' hchainCode]
  · rw [show 41 = 9 + 32 from rfl, ← List.drop_drop, h9, List.drop_left' hchainCode]

/-- Whatever it overwrites, `Decode` undoes `Encode`. -/
theorem CExtKey.IsValid.decode_encode {x : CExtKey} (hx : x.IsValid) (y : CExtKey) :
    ∃ code, x.encode = some code ∧ y.decode code = x := by
  have hbytes := hx.isSecret.bytes_eq
  obtain ⟨h0, h1, h5, h9, h41⟩ :=
    parts_encodeHead hx.fingerprint hx.chainCode x.nDepth x.nChild (0 :: x.key.bytes)
  refine ⟨_, if_neg (by rw [hbytes, hx.isSecret.length]; decide), ?_⟩
  rw [CExtKey.decode, h0, h1, h5, h9, show 42 = 41 + 1 from rfl, ← List.drop_drop, h41,
    List.drop_succ_cons, List.drop_zero, hbytes,
    List.take_of_length_le (Nat.le_of_eq hx.isSecret.length), ← hx.compressed, hx.isSecret.set_eq]

theorem CExtPubKey.IsValid.decode_encode {x : CExtPubKey} (hx : x.IsValid) :
    ∃ code, x.encode = some code ∧ CExtPubKey.decode code = x := by
  obtain ⟨h0, h1, h5, h9, h41⟩ :=
    parts_encodeHead hx.fingerprint hx.chainCode x.nDepth x.nChild x.pubkey.vch
  refine ⟨_, if_neg (not_not.mpr hx.compressed), ?_⟩
  rw [CExtPubKey.decode, h0, h1, h5, h9, h41, List.take_of_length_le (Nat.le_of_eq hx.compressed),
    hx.isSet]

/-! ## Going public -/

/-- A tweaked secret is a secret. -/
theorem isSecret_tweakSecret {vchSecret vchTweak : Bytes} (fCompressed : Bool)
    (hret : (tweakSecret vchSecret vchTweak).1 = true) :
    CKey.IsSecret ⟨true, fCompressed, (tweakSecret vchSecret vchTweak).2⟩ := by
  have hlt : (bin2bn vchSecret + bin2bn vchTweak) % curveOrder < curveOrder :=
    Nat.mod_lt _ (Nat.pos_of_ne_zero (NeZero.ne curveOrder))
  have hlen : (tweakSecret vchSecret vchTweak).2.length = 32 := length_bn2bin _
  refine ⟨rfl, hlen, (check_iff hlen).mpr ?_⟩
  simp only [tweakSecret, Bool.and_eq_true, Bool.not_eq_true', decide_eq_false_iff_not] at hret
  change 0 < bin2bn (bn2bin _) ∧ bin2bn (bn2bin _) < _
  rw [bin2bn_bn2bin (lt_trans hlt curveOrder_lt)]
  exact ⟨Nat.pos_of_ne_zero hret.2, hlt⟩

section

variable {Point : Type} [AddCommGroup Point] {E : Curve Point} {C : Crypto}
  (hmacSHA512 : Bytes → Bytes → Vector UInt8 64) {x : CExtKey} {nChild : UInt32}

theorem neuter_eq (hx : x.IsValid) : x.neuter C =
    some ⟨x.nDepth, x.vchFingerprint, x.nChild, x.vchChainCode, x.key.pubKey C⟩ := by
  rw [CExtKey.neuter, hx.isSecret.getPubKey_eq]
  rfl

/-- A child of a secret key, by a number that hashes the public key. -/
theorem derive_key_eq (hE : E.Serves C) (hx : x.IsValid) (hn : nChild >>> 31 = 0) :
    x.key.derive C hmacSHA512 nChild x.vchChainCode =
      let out := bip32Hash hmacSHA512 x.vchChainCode nChild ((x.key.pubKey C).vch.headD 0)
        (x.key.pubKey C).vch.tail
      some ((tweakSecret x.key.vch (out.take 32)).1,
        ⟨(tweakSecret x.key.vch (out.take 32)).1, true, (tweakSecret x.key.vch (out.take 32)).2⟩,
        out.drop 32) := by
  have hlen := hE.length_pubKey hx.isSecret
  rw [hx.compressed, if_pos rfl] at hlen
  rw [CKey.derive, if_neg (not_not.mpr hx.isSecret.valid), if_neg (not_not.mpr hx.compressed),
    if_pos hn, hx.isSecret.getPubKey_eq]
  simp only [Option.bind_eq_bind, Option.bind_some]
  rw [if_neg (not_not.mpr hlen)]

variable [DecidableEq Point]

/-- The tweaked secret and the tweaked point succeed together, and belong together. -/
theorem tweak_commute (hE : E.Serves C) (vchSecret vchTweak : Bytes) :
    (tweakSecret vchSecret vchTweak).1 =
        (tweakPublic E (E.publicPoint vchSecret) vchTweak).1 ∧
      E.publicPoint (tweakSecret vchSecret vchTweak).2 =
        (tweakPublic E (E.publicPoint vchSecret) vchTweak).2 := by
  have hsum : bin2bn vchTweak • E.generator + E.publicPoint vchSecret =
      ((bin2bn vchSecret + bin2bn vchTweak) % curveOrder) • E.generator := by
    rw [hE.mod_smul, Curve.publicPoint, Nat.add_comm, add_smul]
  have hlt : (bin2bn vchSecret + bin2bn vchTweak) % curveOrder < curveOrder :=
    Nat.mod_lt _ (Nat.pos_of_ne_zero (NeZero.ne curveOrder))
  unfold tweakSecret tweakPublic
  dsimp only
  rw [hsum]
  constructor
  · have hzero : ((bin2bn vchSecret + bin2bn vchTweak) % curveOrder) • E.generator = 0 ↔
        (bin2bn vchSecret + bin2bn vchTweak) % curveOrder = 0 := by
      rw [hE.smul_eq_zero]
      exact ⟨fun hdvd => Nat.eq_zero_of_dvd_of_lt hdvd hlt, fun h0 => h0 ▸ Nat.dvd_zero _⟩
    rw [decide_eq_decide.mpr hzero]
  · rw [Curve.publicPoint, bin2bn_bn2bin (lt_trans hlt curveOrder_lt)]

/-- The child of the public key alone. -/
theorem derive_pubKey_eq (hE : E.Serves C) (hx : x.IsValid) (hn : nChild >>> 31 = 0) :
    (x.key.pubKey C).derive E hmacSHA512 nChild x.vchChainCode =
      let out := bip32Hash hmacSHA512 x.vchChainCode nChild ((x.key.pubKey C).vch.headD 0)
        (x.key.pubKey C).vch.tail
      some ((tweakPublic E (E.publicPoint x.key.vch) (out.take 32)).1,
        E.getPubKey (tweakPublic E (E.publicPoint x.key.vch) (out.take 32)).2 true,
        out.drop 32) := by
  have hlen := hE.length_pubKey hx.isSecret
  rw [hx.compressed, if_pos rfl] at hlen
  have hread : E.o2i (x.key.pubKey C).vch = some (E.publicPoint x.key.vch) := by
    have hne := hE.publicPoint_ne_zero hx.isSecret
    rw [hE.pubKey_eq, hE.getPubKey_vch hne, hE.o2i_i2o _ hne]
  have hne := hE.pubKey_ne_nil hx.isSecret
  rw [CPubKey.derive, if_neg (by rwa [List.isEmpty_iff]), if_neg (not_not.mpr hn),
    if_neg (not_not.mpr hlen), hread]
  rfl

/-- One step : both derivations succeed or both fail, and the children belong together. -/
theorem derive_commute (hE : E.Serves C) (hx : x.IsValid) (hn : nChild >>> 31 = 0)
    {xpub : CExtPubKey} (hxpub : x.neuter C = some xpub) :
    ∃ ret y ypub, x.derive C hmacSHA512 nChild = some (ret, y) ∧
      xpub.derive E C hmacSHA512 nChild = some (ret, ypub) ∧
      (ret = true → y.IsValid ∧ y.neuter C = some ypub) := by
  obtain rfl := Option.some.inj ((neuter_eq hx).symm.trans hxpub)
  have hkey := derive_key_eq hmacSHA512 hE hx hn
  have hpub := derive_pubKey_eq hmacSHA512 hE hx hn
  dsimp only at hkey hpub
  generalize hout : bip32Hash hmacSHA512 x.vchChainCode nChild ((x.key.pubKey C).vch.headD 0)
    (x.key.pubKey C).vch.tail = out at hkey hpub
  have hlen : out.length = 64 := by
    rw [← hout, bip32Hash, Vector.length_toList]
  obtain ⟨hret, hpoint⟩ := tweak_commute hE x.key.vch (out.take 32)
  rw [← hret, ← hpoint] at hpub
  have hpriv : x.derive C hmacSHA512 nChild = some ((tweakSecret x.key.vch (out.take 32)).1,
      ⟨x.nDepth + 1, fingerprint C (x.key.pubKey C), nChild, out.drop 32,
        ⟨(tweakSecret x.key.vch (out.take 32)).1, true,
          (tweakSecret x.key.vch (out.take 32)).2⟩⟩) := by
    rw [CExtKey.derive, hx.isSecret.getPubKey_eq, hkey]
    rfl
  have hpubl : CExtPubKey.derive E C hmacSHA512
      ⟨x.nDepth, x.vchFingerprint, x.nChild, x.vchChainCode, x.key.pubKey C⟩ nChild =
      some ((tweakSecret x.key.vch (out.take 32)).1,
        ⟨x.nDepth + 1, fingerprint C (x.key.pubKey C), nChild, out.drop 32,
          E.getPubKey (E.publicPoint (tweakSecret x.key.vch (out.take 32)).2) true⟩) := by
    rw [CExtPubKey.derive, hpub]
    rfl
  refine ⟨_, _, _, hpriv, hpubl, fun hsucceeds => ?_⟩
  have hsecret := isSecret_tweakSecret true hsucceeds
  rw [hsucceeds]
  have hy : CExtKey.IsValid ⟨x.nDepth + 1, fingerprint C (x.key.pubKey C), nChild, out.drop 32,
      ⟨true, true, (tweakSecret x.key.vch (out.take 32)).2⟩⟩ :=
    ⟨by simp [fingerprint], by simp [hlen], hsecret, rfl⟩
  have hpubkey : CKey.pubKey C ⟨true, true, (tweakSecret x.key.vch (out.take 32)).2⟩ =
      E.getPubKey (E.publicPoint (tweakSecret x.key.vch (out.take 32)).2) true := hE.pubKey_eq _
  exact ⟨hy, (neuter_eq hy).trans
    (congrArg (fun pubkey => some (CExtPubKey.mk _ _ _ _ pubkey)) hpubkey)⟩

/-- A whole path. -/
theorem keysAlong_commute (hE : E.Serves C) : ∀ {path : List UInt32} {x : CExtKey}
    {xpub : CExtPubKey}, x.IsValid → (∀ nChild ∈ path, nChild >>> 31 = 0) →
    x.neuter C = some xpub →
    ∃ ys ypubs, keysAlong (CExtKey.derive C hmacSHA512) path x = some ys ∧
      keysAlong (CExtPubKey.derive E C hmacSHA512) path xpub = some ypubs ∧
      ys.length = ypubs.length ∧ ys.mapM (CExtKey.neuter C) = some ypubs ∧ ∀ y ∈ ys, y.IsValid
  | [], _, _, _, _, _ => ⟨[], [], rfl, rfl, rfl, rfl, nofun⟩
  | nChild :: path, x, xpub, hx, hpath, hxpub => by
    obtain ⟨hn, hpath⟩ := List.forall_mem_cons.mp hpath
    obtain ⟨ret, y, ypub, hpriv, hpub, hchild⟩ := derive_commute hmacSHA512 hE hx hn hxpub
    rw [keysAlong, keysAlong, hpriv, hpub]
    cases ret with
    | false => exact ⟨[], [], rfl, rfl, rfl, rfl, nofun⟩
    | true =>
      obtain ⟨hy, hypub⟩ := hchild rfl
      obtain ⟨ys, ypubs, hys, hypubs, hlen, hneuter, hvalid⟩ :=
        keysAlong_commute hE hy hpath hypub
      refine ⟨y :: ys, ypub :: ypubs, ?_, ?_, congrArg (· + 1) hlen, ?_,
        List.forall_mem_cons.mpr ⟨hy, hvalid⟩⟩
      · rw [Option.bind_eq_bind, Option.bind_some]
        dsimp only
        rw [hys]
        rfl
      · rw [Option.bind_eq_bind, Option.bind_some]
        dsimp only
        rw [hypubs]
        rfl
      · rw [List.mapM_cons, hypub, hneuter]
        rfl

/-- The keys along a path of numbers below 2^31, made public, are the public keys derived along the
path, and both end at the same step ; encodings of both kinds of keys are read back. -/
theorem neuter_derive_commute (hE : E.Serves C) :
    (∀ (x : CExtKey) (path : List UInt32), x.IsValid → (∀ nChild ∈ path, nChild >>> 31 = 0) →
      ∃ xpub ys ypubs, x.neuter C = some xpub ∧
        keysAlong (CExtKey.derive C hmacSHA512) path x = some ys ∧
        keysAlong (CExtPubKey.derive E C hmacSHA512) path xpub = some ypubs ∧
        ys.length = ypubs.length ∧ ys.mapM (CExtKey.neuter C) = some ypubs) ∧
    (∀ x y : CExtKey, x.IsValid → ∃ code, x.encode = some code ∧ y.decode code = x) ∧
    (∀ x : CExtPubKey, x.IsValid → ∃ code, x.encode = some code ∧ CExtPubKey.decode code = x) := by
  refine ⟨fun x path hx hpath => ?_, fun x y hx => hx.decode_encode y, fun x hx => hx.decode_encode⟩
  obtain ⟨ys, ypubs, hys, hypubs, hlen, hneuter, -⟩ :=
    keysAlong_commute hmacSHA512 hE hx hpath (neuter_eq hx)
  exact ⟨_, ys, ypubs, neuter_eq hx, hys, hypubs, hlen, hneuter⟩

end

/-- The secret 1 as the master of a tree of keys. -/
def smallMaster : CExtKey := ⟨0, [0, 0, 0, 0], 0, List.replicate 32 0, CCryptoKeyStore.smallKey⟩

theorem isValid_smallMaster : smallMaster.IsValid := ⟨rfl, rfl, isSecret_smallKey, rfl⟩

/-- A path of two steps, on the curve of numbers. -/
theorem neuter_derive_commute_smallMaster :
    ∃ xpub ys ypubs, smallMaster.neuter lineCrypto = some xpub ∧
      keysAlong (CExtKey.derive lineCrypto fun _ _ => Vector.replicate 64 1) [7, 8] smallMaster =
        some ys ∧
      keysAlong (CExtPubKey.derive lineCurve lineCrypto fun _ _ => Vector.replicate 64 1) [7, 8]
        xpub = some ypubs ∧
      ys.length = ypubs.length ∧ ys.mapM (CExtKey.neuter lineCrypto) = some ypubs := by
  have hpath : ∀ nChild ∈ ([7, 8] : List UInt32), nChild >>> 31 = 0 := by
    simp only [List.forall_mem_cons]
    exact ⟨rfl, rfl, nofun⟩
  exact (neuter_derive_commute _ serves_lineCurve).1 smallMaster [7, 8] isValid_smallMaster hpath

end Ticoin
