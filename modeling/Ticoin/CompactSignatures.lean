import Ticoin.EcKey

/-!
# key.cpp : compact signatures

A compact signature is a header byte and the two numbers of an ECDSA signature. The header has the
recovery id, with which the public key is computed from the numbers, and whether the key is
compressed. The signer tries the ids from 0 to 3 and takes the first that gives back its key, but
`Recover` refuses the id 3.

So a signature can be recovered if and only if the key is given back by one of the ids from 0 to 2
(`recoversCompact_iff`). What the recovery computes is a parameter ; that of the source
(`sigRecoverKey`) gives with its checks nothing that it does not give without
(`sigRecoverKey_unchecked`).
-/

namespace Ticoin

open Codec

variable {Point : Type}

/-! ## Recovery -/

/-- A point from the numbers of a signature, a hash, a recovery id, and whether checks are made. -/
abbrev RecoverKey (Point : Type) := ℕ → ℕ → UInt256 → ℕ → Bool → Option Point

/-- The field of secp256k1. -/
def curveField : ℕ := 2 ^ 256 - 2 ^ 32 - 977

/-- `BN_mod_inverse`. -/
def modInverse (r m : ℕ) : Option ℕ :=
  if r.gcd m = 1 then some (r.gcdA m % m).toNat else none

/-- `ECDSA_SIG_recover_key_GFp`, where `decompress` gives the point of a coordinate and a parity. -/
def sigRecoverKey [AddCommGroup Point] [DecidableEq Point] (E : Curve Point)
    (decompress : ℕ → Bool → Option Point) : RecoverKey Point := fun r s hash recid check =>
  let x := curveOrder * (recid / 2) + r
  if curveField ≤ x then none
  else do
    let R ← decompress x (recid % 2 == 1)
    if check ∧ curveOrder • R ≠ 0 then none
    else do
      let e := (-(bin2bn (serializeUInt256 hash) : ℤ)) % curveOrder
      let rr ← modInverse r curveOrder
      let sor := s * rr % curveOrder
      let eor := e.toNat * rr % curveOrder
      some (eor • E.generator + sor • R)

/-- The checks only make the recovery fail. -/
theorem sigRecoverKey_unchecked [AddCommGroup Point] [DecidableEq Point] {E : Curve Point}
    {decompress : ℕ → Bool → Option Point} {r s recid : ℕ} {hash : UInt256} {point : Point}
    (h : sigRecoverKey E decompress r s hash recid true = some point) :
    sigRecoverKey E decompress r s hash recid false = some point := by
  unfold sigRecoverKey at h ⊢
  dsimp only at h ⊢
  split at h
  · cases h
  rename_i hx
  rw [if_neg hx]
  obtain ⟨R, hR, h⟩ := Option.bind_eq_some_iff.mp h
  split at h
  · cases h
  rw [hR, Option.bind_eq_bind, Option.bind_some, if_neg (fun hand => Bool.false_ne_true hand.1)]
  exact h

/-! ## Signing and recovering -/

section

variable (E : Curve Point) (recover : RecoverKey Point)

/-- The loop of `SignCompact` : the first id that gives back the public key. -/
def findRec (pubkey : CPubKey) (r s : ℕ) (hash : UInt256) : List ℕ → Option ℕ
  | [] => none
  | i :: is =>
    match recover r s hash i true with
    | none => findRec pubkey r s hash is
    | some pointRec =>
      if E.getPubKey pointRec true = pubkey then some i else findRec pubkey r s hash is

/-- `SignCompact` of a key with a public point, of what `ECDSA_do_sign` returned. The assertion is
that an id is found. -/
def signPoint (point : Point) (sig : Option (ℕ × ℕ)) (hash : UInt256) :
    Option (Option (Bytes × ℕ)) :=
  match sig with
  | none => some none
  | some (r, s) =>
    if r.size ≤ 256 ∧ s.size ≤ 256 then do
      let rec' ← findRec E recover (E.getPubKey point true) r s hash [0, 1, 2, 3]
      some (some (bn2bin r ++ bn2bin s, rec'))
    else some none

/-- `CKey::SignCompact`. -/
def CKey.signCompact [AddCommGroup Point] (sig : Option (ℕ × ℕ)) (hash : UInt256) (key : CKey) :
    Option (Option Bytes) :=
  if ¬ key.fValid then some none
  else do
    match ← signPoint E recover (E.publicPoint key.vch) sig hash with
    | none => some none
    | some (p64, rec') =>
      some (some (UInt8.ofNat (27 + rec' + if key.fCompressed then 4 else 0) :: p64))

/-- `Recover`. -/
def recoverPoint (hash : UInt256) (p64 : Bytes) (rec' : ℤ) : Option Point :=
  if rec' < 0 ∨ 3 ≤ rec' then none
  else recover (bin2bn (p64.take 32)) (bin2bn ((p64.drop 32).take 32)) hash rec'.toNat false

/-- The first byte of a signature, less 27, as an `int`. -/
def compactHeader (vchSig : Bytes) : BitVec 32 := BitVec.ofNat 32 (vchSig.headD 0).toNat - 27

/-- `RecoverCompact`. -/
def CPubKey.recoverCompact (hash : UInt256) (vchSig : Bytes) : Option CPubKey :=
  if vchSig.length ≠ 65 then none
  else
    match recoverPoint recover hash vchSig.tail (compactHeader vchSig &&& ~~~4).toInt with
    | none => none
    | some point => some (E.getPubKey point (decide (compactHeader vchSig &&& 4 ≠ 0)))

/-- `VerifyCompact`. -/
def CPubKey.verifyCompact (hash : UInt256) (vchSig : Bytes) (pubkey : CPubKey) : Bool :=
  if pubkey.vch.isEmpty then false
  else if vchSig.length ≠ 65 then false
  else
    match recoverPoint recover hash vchSig.tail (compactHeader vchSig &&& ~~~4).toInt with
    | none => false
    | some point => decide (pubkey = E.getPubKey point pubkey.isCompressed)

end

/-! ## What is found -/

variable {E : Curve Point} {recover : RecoverKey Point} {C : Crypto} {key : CKey}
  {sig : Option (ℕ × ℕ)} {hash : UInt256} {r s : ℕ} {point : Point}

/-- The header of a signature has the id and the compression. -/
theorem compactHeader_eq : ∀ {i : ℕ}, i < 4 → ∀ (fCompressed : Bool) (p64 : Bytes),
    (compactHeader (UInt8.ofNat (27 + i + if fCompressed then 4 else 0) :: p64) &&&
      ~~~4).toInt = i ∧
    decide (compactHeader (UInt8.ofNat (27 + i + if fCompressed then 4 else 0) :: p64) &&& 4 ≠ 0) =
      fCompressed := by
  intro i hi fCompressed p64
  unfold compactHeader
  rw [List.headD_cons]
  revert fCompressed
  revert i
  decide

/-- `Recover` of the numbers of a signature. -/
theorem recoverPoint_eq {i : ℕ} (hr : r < 256 ^ 32) (hs : s < 256 ^ 32) :
    recoverPoint recover hash (bn2bin r ++ bn2bin s) i =
      if i < 3 then recover r s hash i false else none := by
  have htake : (bn2bin r ++ bn2bin s).take 32 = bn2bin r := List.take_left' (length_bn2bin r)
  have hdrop : (bn2bin r ++ bn2bin s).drop 32 = bn2bin s := List.drop_left' (length_bn2bin r)
  unfold recoverPoint
  by_cases hi : i < 3
  · rw [if_neg (by omega), if_pos hi, htake, hdrop,
      List.take_of_length_le (Nat.le_of_eq (length_bn2bin s)), bin2bn_bn2bin hr, bin2bn_bn2bin hs,
      Int.toNat_natCast]
  · rw [if_pos (Or.inr (by omega)), if_neg hi]

/-- `RecoverCompact` of a signature with an id. -/
theorem recoverCompact_eq {i : ℕ} (hi : i < 4) (fCompressed : Bool) (hr : r < 256 ^ 32)
    (hs : s < 256 ^ 32) :
    CPubKey.recoverCompact E recover hash
        (UInt8.ofNat (27 + i + if fCompressed then 4 else 0) :: (bn2bin r ++ bn2bin s)) =
      if i < 3 then (recover r s hash i false).map fun point => E.getPubKey point fCompressed
      else none := by
  obtain ⟨hid, hcompressed⟩ := compactHeader_eq hi fCompressed (bn2bin r ++ bn2bin s)
  rw [CPubKey.recoverCompact, if_neg (by simp), hid, hcompressed, List.tail_cons,
    recoverPoint_eq hr hs]
  by_cases hlt : i < 3
  · rw [if_pos hlt, if_pos hlt]
    cases recover r s hash i false <;> rfl
  · rw [if_neg hlt, if_neg hlt]

/-- `VerifyCompact` of a signature with an id. -/
theorem verifyCompact_eq {i : ℕ} (hi : i < 3) (fCompressed : Bool) (hr : r < 256 ^ 32)
    (hs : s < 256 ^ 32) {pubkey : CPubKey} (hvalid : pubkey.vch ≠ [])
    (hrec : recover r s hash i false = some point) :
    pubkey.verifyCompact E recover hash
        (UInt8.ofNat (27 + i + if fCompressed then 4 else 0) :: (bn2bin r ++ bn2bin s)) =
      decide (pubkey = E.getPubKey point pubkey.isCompressed) := by
  obtain ⟨hid, -⟩ := compactHeader_eq (Nat.lt_succ_of_lt hi) fCompressed (bn2bin r ++ bn2bin s)
  rw [CPubKey.verifyCompact, if_neg (by rwa [List.isEmpty_iff]), if_neg (by simp), hid,
    List.tail_cons, recoverPoint_eq hr hs, if_pos hi, hrec]

variable [AddCommGroup Point]

/-- The loop takes the least id that gives back the point. -/
theorem findRec_spec (hE : E.Serves C) (hne : point ≠ 0) : ∀ {l : List ℕ}, l.Pairwise (· < ·) →
    (∃ i ∈ l, recover r s hash i true = some point) →
    ∃ i ∈ l, findRec E recover (E.getPubKey point true) r s hash l = some i ∧
      recover r s hash i true = some point ∧
      ∀ j ∈ l, recover r s hash j true = some point → i ≤ j
  | [], _, h => by
    obtain ⟨i, hi, -⟩ := h
    exact absurd hi List.not_mem_nil
  | i :: l, hl, h => by
    obtain ⟨hlt, hl⟩ := List.pairwise_cons.mp hl
    by_cases hi : recover r s hash i true = some point
    · refine ⟨i, List.mem_cons_self, ?_, hi, ?_⟩
      · rw [findRec, hi]
        exact if_pos rfl
      · intro j hj _
        rcases List.mem_cons.mp hj with rfl | hj
        · exact Nat.le_refl _
        · exact Nat.le_of_lt (hlt j hj)
    · obtain ⟨j, hj, hrec⟩ := h
      have hj : j ∈ l := (List.mem_cons.mp hj).resolve_left fun heq => hi (heq ▸ hrec)
      obtain ⟨k, hk, hfind, hreck, hmin⟩ := findRec_spec hE hne hl ⟨j, hj, hrec⟩
      refine ⟨k, List.mem_cons_of_mem _ hk, ?_, hreck, ?_⟩
      · rw [findRec]
        cases hpoint : recover r s hash i true with
        | none => exact hfind
        | some pointRec =>
          have hdiffer : ¬ E.getPubKey pointRec true = E.getPubKey point true :=
            fun heq => hi (hpoint.trans (congrArg some (hE.eq_of_getPubKey_eq hne heq)))
          exact (if_neg hdiffer).trans hfind
      · intro j' hj' hrec'
        rcases List.mem_cons.mp hj' with rfl | hj'
        · exact absurd hrec' hi
        · exact hmin j' hj' hrec'

/-! ## Signatures that can be recovered -/

/-- Signing does not abort, and from a signature both `RecoverCompact` and `VerifyCompact` get the
public key. -/
def RecoversCompact (E : Curve Point) (recover : RecoverKey Point) (C : Crypto)
    (sig : Option (ℕ × ℕ)) (hash : UInt256) (key : CKey) : Prop :=
  ∃ result, key.signCompact E recover sig hash = some result ∧
    ∀ vchSig, result = some vchSig → ∃ pubkey, key.getPubKey C = some pubkey ∧
      CPubKey.recoverCompact E recover hash vchSig = some pubkey ∧
      pubkey.isCompressed = key.fCompressed ∧ pubkey.verifyCompact E recover hash vchSig = true

/-- What `SignCompact` makes of the numbers of a signature. -/
theorem signCompact_eq (hE : E.Serves C) (hkey : key.IsSecret) (hr : r < 256 ^ 32)
    (hs : s < 256 ^ 32)
    (hsome : ∃ i < 4, recover r s hash i true = some (E.publicPoint key.vch)) :
    ∃ i < 4, key.signCompact E recover (some (r, s)) hash =
        some (some (UInt8.ofNat (27 + i + if key.fCompressed then 4 else 0) ::
          (bn2bin r ++ bn2bin s))) ∧
      recover r s hash i true = some (E.publicPoint key.vch) ∧
      ∀ j < 4, recover r s hash j true = some (E.publicPoint key.vch) → i ≤ j := by
  have hmem : ∀ i : ℕ, i ∈ [0, 1, 2, 3] ↔ i < 4 := fun i => by simp; omega
  obtain ⟨j, hj, hrec⟩ := hsome
  obtain ⟨i, hi, hfind, hreci, hmin⟩ := findRec_spec hE (hE.publicPoint_ne_zero hkey)
    (l := [0, 1, 2, 3]) (by decide) ⟨j, (hmem j).mpr hj, hrec⟩
  refine ⟨i, (hmem i).mp hi, ?_, hreci, fun j hj => hmin j ((hmem j).mpr hj)⟩
  have hsize : r.size ≤ 256 ∧ s.size ≤ 256 := ⟨Nat.size_le.mpr hr, Nat.size_le.mpr hs⟩
  rw [CKey.signCompact, if_neg (not_not.mpr hkey.valid), signPoint, if_pos hsize, hfind]
  rfl

/-- A compact signature can be recovered if and only if an id from 0 to 2 gives back the key. -/
theorem recoversCompact_iff (hE : E.Serves C) (hkey : key.IsSecret)
    (hunchecked : ∀ r s i point, recover r s hash i true = some point →
      recover r s hash i false = some point)
    (hsome : ∀ r s, sig = some (r, s) →
      ∃ i < 4, recover r s hash i true = some (E.publicPoint key.vch)) :
    RecoversCompact E recover C sig hash key ↔
      ∀ r s, sig = some (r, s) → r < 2 ^ 256 → s < 2 ^ 256 →
        ∃ i < 3, recover r s hash i true = some (E.publicPoint key.vch) := by
  cases sig with
  | none =>
    refine iff_of_true ⟨none, ?_, nofun⟩ nofun
    rw [CKey.signCompact, if_neg (not_not.mpr hkey.valid)]
    rfl
  | some numbers =>
    obtain ⟨r, s⟩ := numbers
    by_cases hbits : r.size ≤ 256 ∧ s.size ≤ 256
    · have hr : r < 2 ^ 256 := Nat.size_le.mp hbits.1
      have hs : s < 2 ^ 256 := Nat.size_le.mp hbits.2
      obtain ⟨i, hi, hsign, hrec, hmin⟩ := signCompact_eq hE hkey hr hs (hsome r s rfl)
      have hleast : (∀ r' s', some (r, s) = some (r', s') → r' < 2 ^ 256 → s' < 2 ^ 256 →
          ∃ i < 3, recover r' s' hash i true = some (E.publicPoint key.vch)) ↔ i < 3 := by
        constructor
        · intro h
          obtain ⟨j, hj, hrecj⟩ := h r s rfl hr hs
          exact Nat.lt_of_le_of_lt (hmin j (Nat.lt_succ_of_lt hj) hrecj) hj
        · rintro hlt r' s' ⟨⟩ - -
          exact ⟨i, hlt, hrec⟩
      rw [hleast]
      constructor
      · rintro ⟨result, hresult, h⟩
        obtain ⟨pubkey, -, hrecover, -⟩ := h _ (Option.some.inj (hresult.symm.trans hsign))
        rw [recoverCompact_eq hi _ hr hs] at hrecover
        by_contra hnot
        rw [if_neg hnot] at hrecover
        cases hrecover
      · intro hlt
        refine ⟨_, hsign, ?_⟩
        rintro vchSig ⟨⟩
        have hpub := hE.pubKey_eq key
        have hcompressed := hE.isCompressed_pubKey hkey
        have hrec' := hunchecked r s i _ hrec
        refine ⟨key.pubKey C, hkey.getPubKey_eq C, ?_, hcompressed, ?_⟩
        · rw [recoverCompact_eq hi _ hr hs, if_pos hlt, hrec', Option.map_some, hpub]
        · rw [verifyCompact_eq hlt _ hr hs (hE.pubKey_ne_nil hkey) hrec', hcompressed, hpub]
          exact decide_eq_true rfl
    · refine iff_of_true ⟨none, ?_, nofun⟩ ?_
      · rw [CKey.signCompact, if_neg (not_not.mpr hkey.valid), signPoint, if_neg hbits]
        rfl
      · rintro r' s' ⟨⟩ hr hs
        exact absurd ⟨Nat.size_le.mpr hr, Nat.size_le.mpr hs⟩ hbits

/-- A recovery that gives back the key of the secret 1 with one id only. -/
def recoverAt (recid : ℕ) : RecoverKey (ZMod curveOrder) := fun _ _ _ i _ =>
  if i = recid then some (lineCurve.publicPoint CCryptoKeyStore.smallKey.vch) else none

theorem recoverAt_unchecked {recid r s i : ℕ} {hash : UInt256} {point : ZMod curveOrder}
    (h : recoverAt recid r s hash i true = some point) :
    recoverAt recid r s hash i false = some point := h

/-- The key is given back with the id 3 : `SignCompact` succeeds, and `Recover` refuses. -/
theorem not_recoversCompact_three :
    lineCurve.Serves lineCrypto ∧ CCryptoKeyStore.smallKey.IsSecret ∧
    (∃ i < 4, recoverAt 3 1 1 0 i true =
      some (lineCurve.publicPoint CCryptoKeyStore.smallKey.vch)) ∧
    ¬ RecoversCompact lineCurve (recoverAt 3) lineCrypto (some (1, 1)) 0
      CCryptoKeyStore.smallKey := by
  have hsome : ∃ i < 4, recoverAt 3 1 1 0 i true =
      some (lineCurve.publicPoint CCryptoKeyStore.smallKey.vch) := ⟨3, by decide, if_pos rfl⟩
  refine ⟨serves_lineCurve, isSecret_smallKey, hsome, ?_⟩
  rintro ⟨result, hresult, h⟩
  obtain ⟨i, hi, hsign, hrec, -⟩ :=
    signCompact_eq serves_lineCurve isSecret_smallKey (by decide) (by decide) hsome
  obtain ⟨pubkey, -, hrecover, -⟩ := h _ (Option.some.inj (hresult.symm.trans hsign))
  have hid : i = 3 := by
    by_contra hne
    rw [recoverAt, if_neg hne] at hrec
    cases hrec
  rw [recoverCompact_eq hi _ (by decide) (by decide), if_neg (by omega)] at hrecover
  cases hrecover

/-- With the id 2 the key is recovered. -/
theorem recoversCompact_two :
    RecoversCompact lineCurve (recoverAt 2) lineCrypto (some (1, 1)) 0
      CCryptoKeyStore.smallKey := by
  refine (recoversCompact_iff serves_lineCurve isSecret_smallKey
    (fun _ _ _ _ => recoverAt_unchecked) ?_).mpr ?_
  · rintro r s -
    exact ⟨2, by decide, if_pos rfl⟩
  · rintro r s - - -
    exact ⟨2, by decide, if_pos rfl⟩

end Ticoin
