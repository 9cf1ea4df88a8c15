import Ticoin.Serialize
import Ticoin.Lib.Table

/-!
# crypter.cpp : the encrypted key store

The keys of a store are in `mapKeys` until it is encrypted. From then on `mapCryptedKeys` has the
secrets encrypted under a master key, which the store knows while it is unlocked. A store without
keys is encrypted by `Lock` and `Unlock` too, and accepts any master key as long as it has none.

AES, the public key of a secret and the hashes are functions of a library (`Crypto`), and what the
store relies on is `Crypto.Correct`. In every state that the calls reach one master key decrypts all
secrets (`Inv`), and no key that was added is lost (`keyStore_of_calls`).
-/

namespace Ticoin

open Codec Table

/-! ## Keys -/

/-- The hash of a serialized public key. -/
abbrev CKeyID := UInt160

/-- A public key : the bytes of its serialization, none if it is invalid. -/
structure CPubKey where
  vch : Bytes
  deriving DecidableEq, Repr

def CPubKey.isCompressed (pubkey : CPubKey) : Bool := pubkey.vch.length == 33

/-- What the library computes : AES-256-CBC under a key and an initial vector, the public key of a
secret, compressed or not, and the hashes. -/
structure Crypto where
  encrypt : Bytes → Bytes → Bytes → Option Bytes
  decrypt : Bytes → Bytes → Bytes → Option Bytes
  publicKey : Bytes → Bool → CPubKey
  hash : Bytes → UInt256
  hash160 : Bytes → UInt160

variable (C : Crypto)

def CPubKey.getID (pubkey : CPubKey) : CKeyID := C.hash160 pubkey.vch

def CPubKey.getHash (pubkey : CPubKey) : UInt256 := C.hash pubkey.vch

structure CKey where
  fValid : Bool := false
  fCompressed : Bool := false
  vch : Bytes := List.replicate 32 0
  deriving DecidableEq, Repr

namespace CKey

/-- The largest secret. -/
def vchMax : Bytes := [
  0xFF, 0xFF, 0xFF, 0xFF, 0xFF, 0xFF, 0xFF, 0xFF,
  0xFF, 0xFF, 0xFF, 0xFF, 0xFF, 0xFF, 0xFF, 0xFE,
  0xBA, 0xAE, 0xDC, 0xE6, 0xAF, 0x48, 0xA0, 0x3B,
  0xBF, 0xD2, 0x5E, 0x8C, 0xD0, 0x36, 0x41, 0x40]

/-- The second loop of `Check`. -/
def notAbove : Bytes → Bytes → Bool
  | v :: vch, m :: vchMax => if v < m then true else if v > m then false else notAbove vch vchMax
  | _, _ => true

/-- `Check`. -/
def check (vch : Bytes) : Bool := !vch.all (· == 0) && notAbove vch vchMax

/-- `Set`. -/
def set (vchIn : Bytes) (fCompressedIn : Bool) (key : CKey) : CKey :=
  if vchIn.length ≠ 32 then { key with fValid := false }
  else if check vchIn then { fValid := true, fCompressed := fCompressedIn, vch := vchIn }
  else { key with fValid := false }

/-- What is between `begin` and `end`. -/
def bytes (key : CKey) : Bytes := if key.fValid then key.vch else []

/-- `GetPubKey`, with an assertion that the key is valid. -/
def getPubKey (key : CKey) : Option CPubKey :=
  if key.fValid then some (C.publicKey key.vch key.fCompressed) else none

/-- The key holds a secret. -/
structure IsSecret (key : CKey) : Prop where
  valid : key.fValid = true
  length : key.vch.length = 32
  check : check key.vch = true

variable {key key' : CKey}

theorem IsSecret.set_eq (h : key.IsSecret) : key'.set key.vch key.fCompressed = key := by
  rw [set, if_neg (not_not.mpr h.length), if_pos h.check, ← h.valid]

theorem IsSecret.bytes_eq (h : key.IsSecret) : key.bytes = key.vch := if_pos h.valid

/-- The public key of a valid key. -/
def pubKey (key : CKey) : CPubKey := C.publicKey key.vch key.fCompressed

theorem IsSecret.getPubKey_eq (h : key.IsSecret) : key.getPubKey C = some (key.pubKey C) :=
  if_pos h.valid

/-- A key that is set to bytes that are not a secret has no public key. -/
theorem publicKey_of_set {secret : Bytes} {fCompressed : Bool} {pubkey : CPubKey}
    (hlen : secret.length = 32) (h : (key.set secret fCompressed).getPubKey C = some pubkey) :
    C.publicKey secret fCompressed = pubkey := by
  rw [set, if_neg (not_not.mpr hlen)] at h
  by_cases hcheck : CKey.check secret = true
  · rw [if_pos hcheck] at h
    exact Option.some.inj h
  · rw [if_neg hcheck] at h
    cases h

end CKey

/-! ## Encrypted secrets -/

def WALLET_CRYPTO_KEY_SIZE : ℕ := 32

/-- `SetKey` : whether the sizes are right. -/
def setKey (chNewKey chNewIV : Bytes) : Bool :=
  if chNewKey.length ≠ WALLET_CRYPTO_KEY_SIZE ∨ chNewIV.length ≠ WALLET_CRYPTO_KEY_SIZE then false
  else true

/-- `EncryptSecret`. -/
def encryptSecret (vMasterKey vchPlaintext : Bytes) (nIV : UInt256) : Option Bytes :=
  if setKey vMasterKey (serializeUInt256 nIV) then
    C.encrypt vMasterKey (serializeUInt256 nIV) vchPlaintext
  else none

/-- `DecryptSecret`. -/
def decryptSecret (vMasterKey vchCiphertext : Bytes) (nIV : UInt256) : Option Bytes :=
  if setKey vMasterKey (serializeUInt256 nIV) then
    C.decrypt vMasterKey (serializeUInt256 nIV) vchCiphertext
  else none

theorem setKey_serialize (vMasterKey : Bytes) (nIV : UInt256) :
    setKey vMasterKey (serializeUInt256 nIV) = true ↔ vMasterKey.length = 32 := by
  rw [setKey, serializeUInt256, length_leBytes, WALLET_CRYPTO_KEY_SIZE]
  by_cases hlen : vMasterKey.length = 32
  · simp [hlen]
  · simp [hlen]

/-! ## The store -/

structure CCryptoKeyStore where
  mapKeys : Std.ExtTreeMap CKeyID CKey := ∅
  mapCryptedKeys : Std.ExtTreeMap CKeyID (CPubKey × Bytes) := ∅
  vMasterKey : Bytes := []
  fUseCrypto : Bool := false

namespace CCryptoKeyStore

def isLocked (s : CCryptoKeyStore) : Bool := s.fUseCrypto && s.vMasterKey.isEmpty

/-- `SetCrypted`. -/
def setCrypted (s : CCryptoKeyStore) : Bool × CCryptoKeyStore :=
  if s.fUseCrypto then (true, s)
  else if ¬ s.mapKeys.isEmpty then (false, s)
  else (true, { s with fUseCrypto := true })

/-- `Lock`. -/
def lock (s : CCryptoKeyStore) : Bool × CCryptoKeyStore :=
  match s.setCrypted with
  | (false, s) => (false, s)
  | (true, s) => (true, { s with vMasterKey := [] })

/-- The loop of `Unlock` over the encrypted keys, which ends at the first. -/
def masterKeyFits (vMasterKeyIn : Bytes) : List (CKeyID × CPubKey × Bytes) → Option Bool
  | [] => some true
  | (_, vchPubKey, vchCryptedSecret) :: _ =>
    match decryptSecret C vMasterKeyIn vchCryptedSecret (vchPubKey.getHash C) with
    | none => some false
    | some vchSecret =>
      if vchSecret.length ≠ 32 then some false
      else do
        let pubkey ← (CKey.set vchSecret vchPubKey.isCompressed {}).getPubKey C
        some (pubkey == vchPubKey)

/-- `Unlock`. -/
def unlock (vMasterKeyIn : Bytes) (s : CCryptoKeyStore) : Option (Bool × CCryptoKeyStore) :=
  match s.setCrypted with
  | (false, s) => some (false, s)
  | (true, s) => do
    if ← masterKeyFits C vMasterKeyIn s.mapCryptedKeys.toList then
      some (true, { s with vMasterKey := vMasterKeyIn })
    else some (false, s)

/-- `AddCryptedKey`. -/
def addCryptedKey (vchPubKey : CPubKey) (vchCryptedSecret : Bytes) (s : CCryptoKeyStore) :
    Bool × CCryptoKeyStore :=
  match s.setCrypted with
  | (false, s) => (false, s)
  | (true, s) => (true, { s with
      mapCryptedKeys := s.mapCryptedKeys.insert (vchPubKey.getID C) (vchPubKey, vchCryptedSecret) })

/-- `AddKeyPubKey`. -/
def addKeyPubKey (key : CKey) (pubkey : CPubKey) (s : CCryptoKeyStore) : Bool × CCryptoKeyStore :=
  if ¬ s.fUseCrypto then (true, { s with mapKeys := s.mapKeys.insert (pubkey.getID C) key })
  else if s.isLocked then (false, s)
  else
    match encryptSecret C s.vMasterKey key.bytes (pubkey.getHash C) with
    | none => (false, s)
    | some vchCryptedSecret => s.addCryptedKey C pubkey vchCryptedSecret

/-- `HaveKey`. -/
def haveKey (address : CKeyID) (s : CCryptoKeyStore) : Bool :=
  if ¬ s.fUseCrypto then s.mapKeys.contains address else s.mapCryptedKeys.contains address

/-- `GetKey`, which overwrites a key. -/
def getKey (address : CKeyID) (keyOut : CKey) (s : CCryptoKeyStore) : Option CKey :=
  if ¬ s.fUseCrypto then s.mapKeys[address]?
  else
    match s.mapCryptedKeys[address]? with
    | none => none
    | some (vchPubKey, vchCryptedSecret) =>
      match decryptSecret C s.vMasterKey vchCryptedSecret (vchPubKey.getHash C) with
      | none => none
      | some vchSecret =>
        if vchSecret.length ≠ 32 then none
        else some (keyOut.set vchSecret vchPubKey.isCompressed)

/-- The loop of `EncryptKeys` ; a failure leaves what was encrypted before it. -/
def encryptAll (vMasterKeyIn : Bytes) :
    List (CKeyID × CKey) → CCryptoKeyStore → Option (Bool × CCryptoKeyStore)
  | [], s => some (true, { s with mapKeys := ∅ })
  | (_, key) :: keys, s => do
    let vchPubKey ← key.getPubKey C
    match encryptSecret C vMasterKeyIn key.bytes (vchPubKey.getHash C) with
    | none => some (false, s)
    | some vchCryptedSecret =>
      match s.addCryptedKey C vchPubKey vchCryptedSecret with
      | (false, s) => some (false, s)
      | (true, s) => encryptAll vMasterKeyIn keys s

/-- `EncryptKeys`. -/
def encryptKeys (vMasterKeyIn : Bytes) (s : CCryptoKeyStore) : Option (Bool × CCryptoKeyStore) :=
  if ¬ s.mapCryptedKeys.isEmpty ∨ s.fUseCrypto then some (false, s)
  else encryptAll C vMasterKeyIn s.mapKeys.toList { s with fUseCrypto := true }

end CCryptoKeyStore

/-! ## What the store relies on -/

variable {C} {keys : Set CKey} {key : CKey} {vMasterKey c : Bytes}

/-- The initial vector for the secret of a public key. -/
def CPubKey.iv (C : Crypto) (pubkey : CPubKey) : Bytes := serializeUInt256 (pubkey.getHash C)

/-- The keys hold secrets ; their public keys are compressed as they say and have different hashes.
Decryption restores a secret, and under another key never gives 32 bytes that have the same public
key. -/
structure Crypto.Correct (C : Crypto) (keys : Set CKey) : Prop where
  isSecret : ∀ key ∈ keys, key.IsSecret
  isCompressed : ∀ key ∈ keys, (key.pubKey C).isCompressed = key.fCompressed
  injOn : Set.InjOn (fun key => (key.pubKey C).getID C) keys
  restores : ∀ key ∈ keys, ∀ vMasterKey : Bytes, vMasterKey.length = 32 →
    ∃ c, C.encrypt vMasterKey ((key.pubKey C).iv C) key.vch = some c ∧
      C.decrypt vMasterKey ((key.pubKey C).iv C) c = some key.vch
  other : ∀ key ∈ keys, ∀ vMasterKey vMasterKey' c secret : Bytes,
    C.encrypt vMasterKey ((key.pubKey C).iv C) key.vch = some c → vMasterKey' ≠ vMasterKey →
    C.decrypt vMasterKey' ((key.pubKey C).iv C) c = some secret → secret.length = 32 →
    C.publicKey secret key.fCompressed ≠ key.pubKey C

/-- An encrypted secret of one of the keys. -/
def Seals (C : Crypto) (vMasterKey : Bytes) (key : CKey) (c : Bytes) : Prop :=
  encryptSecret C vMasterKey key.vch ((key.pubKey C).getHash C) = some c

theorem Seals.encrypt_eq (h : Seals C vMasterKey key c) : vMasterKey.length = 32 ∧
    C.encrypt vMasterKey ((key.pubKey C).iv C) key.vch = some c := by
  unfold Seals encryptSecret at h
  split at h
  · rename_i hset
    exact ⟨(setKey_serialize _ _).mp hset, h⟩
  · cases h

theorem Crypto.Correct.exists_seals (hC : C.Correct keys) (hkey : key ∈ keys)
    (hlen : vMasterKey.length = 32) : ∃ c, Seals C vMasterKey key c := by
  obtain ⟨c, hc, -⟩ := hC.restores key hkey vMasterKey hlen
  refine ⟨c, ?_⟩
  rw [Seals, encryptSecret, if_pos ((setKey_serialize _ _).mpr hlen)]
  exact hc

theorem Seals.decrypt_eq (h : Seals C vMasterKey key c) (hC : C.Correct keys) (hkey : key ∈ keys) :
    decryptSecret C vMasterKey c ((key.pubKey C).getHash C) = some key.vch := by
  obtain ⟨hlen, hc⟩ := h.encrypt_eq
  obtain ⟨c', hc', hdec⟩ := hC.restores key hkey vMasterKey hlen
  obtain rfl := Option.some.inj (hc.symm.trans hc')
  rw [decryptSecret, if_pos ((setKey_serialize _ _).mpr hlen)]
  exact hdec

/-- A secret that has the public key is decrypted with the same master key only. -/
theorem Seals.eq_of_decrypt (h : Seals C vMasterKey key c) (hC : C.Correct keys) (hkey : key ∈ keys)
    {vMasterKey' secret : Bytes}
    (hdec : decryptSecret C vMasterKey' c ((key.pubKey C).getHash C) = some secret)
    (hlen : secret.length = 32) (hpub : C.publicKey secret key.fCompressed = key.pubKey C) :
    vMasterKey' = vMasterKey := by
  by_contra hne
  unfold decryptSecret at hdec
  split at hdec
  · exact hC.other key hkey _ _ _ _ h.encrypt_eq.2 hne hdec hlen hpub
  · cases hdec

namespace CCryptoKeyStore

variable {s s' : CCryptoKeyStore} {added : List CKey}

/-- All entries are secrets of the keys, encrypted under one master key. -/
def Sealed (C : Crypto) (keys : Set CKey) (vMasterKey : Bytes) (s : CCryptoKeyStore) : Prop :=
  ∀ (id : CKeyID) (pubkey : CPubKey) (c : Bytes), s.mapCryptedKeys[id]? = some (pubkey, c) →
    ∃ key ∈ keys, (key.pubKey C).getID C = id ∧ key.pubKey C = pubkey ∧ Seals C vMasterKey key c

/-- What the calls keep, with the keys that were added. -/
structure Inv (C : Crypto) (keys : Set CKey) (s : CCryptoKeyStore) (added : List CKey) : Prop where
  /-- if `fUseCrypto` is false, `vMasterKey` must be empty -/
  plain : s.fUseCrypto = false → s.mapCryptedKeys = ∅ ∧ s.vMasterKey = []
  /-- if `fUseCrypto` is true, `mapKeys` must be empty -/
  crypted : s.fUseCrypto = true → s.mapKeys = ∅
  mapKeys : ∀ (id : CKeyID) (key : CKey), s.mapKeys[id]? = some key →
    key ∈ keys ∧ (key.pubKey C).getID C = id
  sealed : ∃ vMasterKey, Sealed C keys vMasterKey s ∧
    (s.vMasterKey = [] ∨ s.mapCryptedKeys = ∅ ∨ s.vMasterKey = vMasterKey)
  added : ∀ key ∈ added, key ∈ keys ∧
    if s.fUseCrypto then (key.pubKey C).getID C ∈ s.mapCryptedKeys
    else s.mapKeys[(key.pubKey C).getID C]? = some key

theorem Sealed.empty (h : s.mapCryptedKeys = ∅) : Sealed C keys vMasterKey s := by
  intro id pubkey c hget
  rw [h] at hget
  simp at hget

theorem Inv.empty : Inv C keys {} [] where
  plain _ := ⟨rfl, rfl⟩
  crypted := nofun
  mapKeys id key hget := by simp at hget
  sealed := ⟨[], Sealed.empty rfl, Or.inl rfl⟩
  added := nofun

/-- `SetCrypted` fails on a store that is not encrypted and has keys. -/
theorem setCrypted_cases (s : CCryptoKeyStore) :
    (s.fUseCrypto = true ∧ s.setCrypted = (true, s)) ∨
    (s.fUseCrypto = false ∧ s.setCrypted = (false, s)) ∨
    (s.fUseCrypto = false ∧ s.mapKeys = ∅ ∧
      s.setCrypted = (true, { s with fUseCrypto := true })) := by
  unfold setCrypted
  cases hcrypto : s.fUseCrypto with
  | true => exact Or.inl ⟨rfl, rfl⟩
  | false =>
    rw [if_neg Bool.false_ne_true]
    by_cases hempty : s.mapKeys.isEmpty = true
    · rw [if_neg (not_not.mpr hempty)]
      exact Or.inr (Or.inr ⟨rfl, Std.ExtTreeMap.isEmpty_iff.mp hempty, rfl⟩)
    · rw [if_pos hempty]
      exact Or.inr (Or.inl ⟨rfl, rfl⟩)

/-- A store that is not encrypted and has no keys had none added. -/
theorem Inv.added_eq_nil (h : Inv C keys s added) (hplain : s.fUseCrypto = false)
    (hempty : s.mapKeys = ∅) : added = [] := by
  refine List.eq_nil_iff_forall_not_mem.mpr fun key hkey => ?_
  have hget := (h.added key hkey).2
  rw [hplain, if_neg Bool.false_ne_true, hempty] at hget
  simp at hget

/-- What `SetCrypted` leaves if it succeeds. -/
theorem Inv.setCrypted (h : Inv C keys s added) {s' : CCryptoKeyStore}
    (hset : s.setCrypted = (true, s')) : Inv C keys s' added ∧ s'.fUseCrypto = true := by
  rcases setCrypted_cases s with ⟨hcrypto, heq⟩ | ⟨-, heq⟩ | ⟨hplain, hempty, heq⟩
  · obtain rfl := (Prod.mk.inj (heq.symm.trans hset)).2
    exact ⟨h, hcrypto⟩
  · cases heq.symm.trans hset
  · obtain rfl := (Prod.mk.inj (heq.symm.trans hset)).2
    obtain ⟨hcrypted, hmaster⟩ := h.plain hplain
    refine ⟨⟨nofun, fun _ => hempty, h.mapKeys, ⟨[], Sealed.empty hcrypted, Or.inl hmaster⟩, ?_⟩, rfl⟩
    rw [h.added_eq_nil hplain hempty]
    exact nofun

theorem setCrypted_false (s : CCryptoKeyStore) {s' : CCryptoKeyStore}
    (hset : s.setCrypted = (false, s')) : s' = s := by
  rcases setCrypted_cases s with ⟨-, heq⟩ | ⟨-, heq⟩ | ⟨-, -, heq⟩
  · cases heq.symm.trans hset
  · exact (Prod.mk.inj (heq.symm.trans hset)).2.symm
  · cases heq.symm.trans hset

/-! ## The calls -/

theorem Inv.lock (h : Inv C keys s added) : Inv C keys s.lock.2 added := by
  unfold CCryptoKeyStore.lock
  split
  · rename_i s' hset
    rw [setCrypted_false s hset]
    exact h
  · rename_i s' hset
    obtain ⟨h', hcrypto⟩ := h.setCrypted hset
    obtain ⟨vMasterKey, hsealed, -⟩ := h'.sealed
    exact ⟨fun hplain => absurd (hcrypto.symm.trans hplain) nofun, h'.crypted, h'.mapKeys,
      ⟨vMasterKey, hsealed, Or.inl rfl⟩, h'.added⟩

/-- Only the master key that seals the secrets fits, if there is one to try. -/
theorem Sealed.eq_of_fits (h : Sealed C keys vMasterKey s) (hC : C.Correct keys) {vMasterKeyIn : Bytes}
    (hfits : masterKeyFits C vMasterKeyIn s.mapCryptedKeys.toList = some true) :
    s.mapCryptedKeys = ∅ ∨ vMasterKeyIn = vMasterKey := by
  cases hlist : s.mapCryptedKeys.toList with
  | nil => exact Or.inl (Std.ExtTreeMap.toList_eq_nil_iff.mp hlist)
  | cons p l =>
    obtain ⟨id, pubkey, c⟩ := p
    have hget : s.mapCryptedKeys[id]? = some (pubkey, c) := by
      refine Std.ExtTreeMap.mem_toList_iff_getElem?_eq_some.mp ?_
      rw [hlist]
      exact List.mem_cons_self
    obtain ⟨key, hkey, -, rfl, hseals⟩ := h id pubkey c hget
    rw [hlist, masterKeyFits] at hfits
    split at hfits
    · cases hfits
    rename_i secret hdec
    split at hfits
    · cases hfits
    rename_i hlen
    obtain ⟨pubkey, hpub, heq⟩ := Option.bind_eq_some_iff.mp hfits
    rw [Option.some.injEq, beq_iff_eq] at heq
    rw [hC.isCompressed key hkey] at hpub
    exact Or.inr (hseals.eq_of_decrypt hC hkey hdec (not_not.mp hlen)
      ((CKey.publicKey_of_set C (not_not.mp hlen) hpub).trans heq))

theorem Inv.unlock (h : Inv C keys s added) (hC : C.Correct keys) {vMasterKeyIn : Bytes} {ok : Bool}
    (hrun : s.unlock C vMasterKeyIn = some (ok, s')) : Inv C keys s' added := by
  unfold CCryptoKeyStore.unlock at hrun
  split at hrun
  · rename_i s₁ hset
    obtain rfl := (Prod.mk.inj (Option.some.inj hrun)).2
    rw [setCrypted_false s hset]
    exact h
  · rename_i s₁ hset
    obtain ⟨h₁, hcrypto⟩ := h.setCrypted hset
    obtain ⟨fits, hfits, hrun⟩ := Option.bind_eq_some_iff.mp hrun
    cases fits with
    | false =>
      obtain rfl := (Prod.mk.inj (Option.some.inj hrun)).2
      exact h₁
    | true =>
      obtain rfl := (Prod.mk.inj (Option.some.inj hrun)).2
      obtain ⟨vMasterKey, hsealed, -⟩ := h₁.sealed
      exact ⟨fun hplain => absurd (hcrypto.symm.trans hplain) nofun, h₁.crypted, h₁.mapKeys,
        ⟨vMasterKey, hsealed, Or.inr (hsealed.eq_of_fits hC hfits)⟩, h₁.added⟩

/-- An encrypted secret is added to a store that is encrypted. -/
theorem addCryptedKey_eq (hcrypto : s.fUseCrypto = true) (pubkey : CPubKey) (c : Bytes) :
    s.addCryptedKey C pubkey c = (true, { s with
      mapCryptedKeys := s.mapCryptedKeys.insert (pubkey.getID C) (pubkey, c) }) := by
  rw [addCryptedKey, setCrypted, if_pos hcrypto]

theorem Sealed.insert (h : Sealed C keys vMasterKey s) (hkey : key ∈ keys)
    (hc : Seals C vMasterKey key c) : Sealed C keys vMasterKey { s with
      mapCryptedKeys :=
        s.mapCryptedKeys.insert ((key.pubKey C).getID C) (key.pubKey C, c) } := by
  intro id pubkey c' hget
  change (s.mapCryptedKeys.insert _ _)[id]? = _ at hget
  rw [congrFun getElem?_insert_eq id] at hget
  by_cases hid : id = (key.pubKey C).getID C
  · rw [hid, Function.update_self, Option.some.injEq, Prod.mk.injEq] at hget
    exact ⟨key, hkey, hid.symm, hget.1, hget.2 ▸ hc⟩
  · rw [Function.update_of_ne hid] at hget
    exact h id pubkey c' hget

theorem mem_insert_mapCryptedKeys {id id' : CKeyID} {e : CPubKey × Bytes} :
    id ∈ s.mapCryptedKeys.insert id' e ↔ id = id' ∨ id ∈ s.mapCryptedKeys := by
  rw [Std.ExtTreeMap.mem_insert, Std.LawfulEqCmp.compare_eq_iff_eq, eq_comm]

/-- A key with its own public key is added. -/
theorem Inv.addKeyPubKey (h : Inv C keys s added) (hC : C.Correct keys) (hkey : key ∈ keys) :
    Inv C keys (s.addKeyPubKey C key (key.pubKey C)).2
      (if (s.addKeyPubKey C key (key.pubKey C)).1 then key :: added else added) := by
  unfold CCryptoKeyStore.addKeyPubKey
  cases hcrypto : s.fUseCrypto with
  | false =>
    rw [if_pos Bool.false_ne_true, if_pos rfl]
    refine ⟨fun _ => h.plain hcrypto, nofun, ?_, ?_, ?_⟩
    · intro id key' hget
      change (s.mapKeys.insert _ _)[id]? = _ at hget
      rw [congrFun getElem?_insert_eq id] at hget
      by_cases hid : id = (key.pubKey C).getID C
      · rw [hid, Function.update_self, Option.some.injEq] at hget
        exact hget ▸ ⟨hkey, hid.symm⟩
      · rw [Function.update_of_ne hid] at hget
        exact h.mapKeys id key' hget
    · obtain ⟨hcrypted, hmaster⟩ := h.plain hcrypto
      exact ⟨[], Sealed.empty hcrypted, Or.inl hmaster⟩
    · refine List.forall_mem_cons.mpr ⟨⟨hkey, ?_⟩, fun key' hkey' => ?_⟩
      · rw [if_neg Bool.false_ne_true, congrFun getElem?_insert_eq _, Function.update_self]
      · obtain ⟨hmem, hget⟩ := h.added key' hkey'
        rw [hcrypto, if_neg Bool.false_ne_true] at hget
        refine ⟨hmem, ?_⟩
        rw [if_neg Bool.false_ne_true, congrFun getElem?_insert_eq _]
        by_cases hid : (key'.pubKey C).getID C = (key.pubKey C).getID C
        · rw [hid, Function.update_self, hC.injOn hmem hkey hid]
        · rw [Function.update_of_ne hid]
          exact hget
  | true =>
    rw [if_neg (not_not.mpr rfl)]
    by_cases hlocked : s.isLocked = true
    · rw [if_pos hlocked]
      exact h
    rw [if_neg hlocked, (hC.isSecret key hkey).bytes_eq]
    cases hc : encryptSecret C s.vMasterKey key.vch ((key.pubKey C).getHash C) with
    | none => exact h
    | some c =>
      have hunlocked : s.vMasterKey ≠ [] := fun hnil => hlocked (by rw [isLocked, hcrypto, hnil]; rfl)
      have hsealed : Sealed C keys s.vMasterKey s := by
        obtain ⟨vMasterKey, hsealed, hnil | hempty | heq⟩ := h.sealed
        · exact absurd hnil hunlocked
        · exact Sealed.empty hempty
        · exact heq ▸ hsealed
      simp only [addCryptedKey_eq hcrypto, if_true]
      refine ⟨fun hplain => absurd (hcrypto.symm.trans hplain) nofun, h.crypted, h.mapKeys,
        ⟨s.vMasterKey, hsealed.insert hkey hc, Or.inr (Or.inr rfl)⟩, ?_⟩
      dsimp only
      rw [hcrypto]
      refine List.forall_mem_cons.mpr ⟨⟨hkey, ?_⟩, fun key' hkey' => ?_⟩
      · rw [if_pos rfl]
        exact mem_insert_mapCryptedKeys.mpr (Or.inl rfl)
      · obtain ⟨hmem, hget⟩ := h.added key' hkey'
        rw [hcrypto, if_pos rfl] at hget
        refine ⟨hmem, ?_⟩
        rw [if_pos rfl]
        exact mem_insert_mapCryptedKeys.mpr (Or.inr hget)

/-- The loop of `EncryptKeys` encrypts all keys and then forgets them. -/
theorem encryptAll_spec (hC : C.Correct keys) (hlen : vMasterKey.length = 32) :
    ∀ (l : List (CKeyID × CKey)) {s : CCryptoKeyStore}, s.fUseCrypto = true →
    (∀ p ∈ l, p.2 ∈ keys ∧ (p.2.pubKey C).getID C = p.1) → Sealed C keys vMasterKey s →
    ∃ s', encryptAll C vMasterKey l s = some (true, s') ∧ s'.fUseCrypto = true ∧ s'.mapKeys = ∅ ∧
      s'.vMasterKey = s.vMasterKey ∧ Sealed C keys vMasterKey s' ∧
      ∀ id : CKeyID, id ∈ s.mapCryptedKeys ∨ id ∈ l.map Prod.fst → id ∈ s'.mapCryptedKeys
  | [], s, hcrypto, _, hsealed => by
    refine ⟨{ s with mapKeys := ∅ }, rfl, hcrypto, rfl, rfl, hsealed, fun id hid => ?_⟩
    exact hid.resolve_right List.not_mem_nil
  | (id, key) :: l, s, hcrypto, hl, hsealed => by
    obtain ⟨⟨hkey, hid⟩, hl⟩ := List.forall_mem_cons.mp hl
    obtain ⟨c, hc⟩ := hC.exists_seals hkey hlen
    obtain ⟨s', hrun, hcrypto', hempty, hmaster, hsealed', hmem⟩ :=
      encryptAll_spec hC hlen l (s := { s with
        mapCryptedKeys :=
          s.mapCryptedKeys.insert ((key.pubKey C).getID C) (key.pubKey C, c) })
        hcrypto hl (hsealed.insert hkey hc)
    refine ⟨s', ?_, hcrypto', hempty, hmaster, hsealed', fun id' hid' => hmem id' ?_⟩
    · rw [encryptAll, (hC.isSecret key hkey).getPubKey_eq, (hC.isSecret key hkey).bytes_eq,
        Option.bind_eq_bind, Option.bind_some, show encryptSecret C _ _ _ = _ from hc]
      simp only [addCryptedKey_eq hcrypto]
      exact hrun
    · rcases hid' with hid' | hid'
      · exact Or.inl (mem_insert_mapCryptedKeys.mpr (Or.inr hid'))
      · rcases List.mem_cons.mp hid' with rfl | hid'
        · exact Or.inl (mem_insert_mapCryptedKeys.mpr (Or.inl hid.symm))
        · exact Or.inr hid'

theorem Inv.encryptKeys (h : Inv C keys s added) (hC : C.Correct keys)
    (hlen : vMasterKey.length = 32) {ok : Bool}
    (hrun : s.encryptKeys C vMasterKey = some (ok, s')) : Inv C keys s' added := by
  unfold CCryptoKeyStore.encryptKeys at hrun
  split at hrun
  · obtain rfl := (Prod.mk.inj (Option.some.inj hrun)).2
    exact h
  rename_i hnot
  have hplain : s.fUseCrypto = false := Bool.not_eq_true _ ▸ (not_or.mp hnot).2
  obtain ⟨hempty, hmaster⟩ := h.plain hplain
  obtain ⟨s₁, hrun₁, hcrypto, hmapKeys, hmaster₁, hsealed, hmem⟩ :=
    encryptAll_spec hC hlen s.mapKeys.toList (s := { s with fUseCrypto := true }) rfl
      (fun p hp => h.mapKeys p.1 p.2 (Std.ExtTreeMap.mem_toList_iff_getElem?_eq_some.mp hp))
      (Sealed.empty hempty)
  obtain rfl := (Prod.mk.inj (Option.some.inj (hrun₁.symm.trans hrun))).2
  refine ⟨fun hplain => absurd (hcrypto.symm.trans hplain) nofun, fun _ => hmapKeys, ?_,
    ⟨vMasterKey, hsealed, Or.inl (hmaster₁.trans hmaster)⟩, fun key hkey => ?_⟩
  · intro id key hget
    rw [hmapKeys] at hget
    simp at hget
  · obtain ⟨hkeys, hget⟩ := h.added key hkey
    rw [hplain, if_neg Bool.false_ne_true] at hget
    rw [hcrypto, if_pos rfl]
    exact ⟨hkeys, hmem _ (Or.inr (List.mem_map.mpr
      ⟨(_, key), Std.ExtTreeMap.mem_toList_iff_getElem?_eq_some.mpr hget, rfl⟩))⟩

/-! ## Runs -/

/-- The states that the calls reach, with the keys whose addition returned true ; a key is added
with its own public key. -/
inductive Reachable (C : Crypto) (keys : Set CKey) : CCryptoKeyStore → List CKey → Prop
  | empty : Reachable C keys {} []
  | addKeyPubKey {s : CCryptoKeyStore} {added : List CKey} {key : CKey} {pubkey : CPubKey}
      (h : Reachable C keys s added) (hkey : key ∈ keys) (hpub : key.getPubKey C = some pubkey) :
      Reachable C keys (s.addKeyPubKey C key pubkey).2
        (if (s.addKeyPubKey C key pubkey).1 then key :: added else added)
  | encryptKeys {s s' : CCryptoKeyStore} {added : List CKey} {vMasterKeyIn : Bytes} {ok : Bool}
      (h : Reachable C keys s added) (hlen : vMasterKeyIn.length = 32)
      (hrun : s.encryptKeys C vMasterKeyIn = some (ok, s')) : Reachable C keys s' added
  | lock {s : CCryptoKeyStore} {added : List CKey} (h : Reachable C keys s added) :
      Reachable C keys s.lock.2 added
  | unlock {s s' : CCryptoKeyStore} {added : List CKey} {vMasterKeyIn : Bytes} {ok : Bool}
      (h : Reachable C keys s added) (hrun : s.unlock C vMasterKeyIn = some (ok, s')) :
      Reachable C keys s' added

theorem Reachable.inv (hC : C.Correct keys) (h : Reachable C keys s added) : Inv C keys s added := by
  induction h with
  | empty => exact Inv.empty
  | addKeyPubKey _ hkey hpub ih =>
    rw [(hC.isSecret _ hkey).getPubKey_eq] at hpub
    obtain rfl := Option.some.inj hpub
    exact ih.addKeyPubKey hC hkey
  | encryptKeys _ hlen hrun ih => exact ih.encryptKeys hC hlen hrun
  | lock _ ih => exact ih.lock
  | unlock _ hrun ih => exact ih.unlock hC hrun

/-- A key that was added is returned as it was, if the store is not locked. -/
theorem Inv.getKey_eq (h : Inv C keys s added) (hC : C.Correct keys) (hkey : key ∈ added)
    (hlocked : s.isLocked = false) (keyOut : CKey) :
    s.getKey C ((key.pubKey C).getID C) keyOut = some key := by
  obtain ⟨hmem, hget⟩ := h.added key hkey
  unfold CCryptoKeyStore.getKey
  cases hcrypto : s.fUseCrypto with
  | false =>
    rw [hcrypto, if_neg Bool.false_ne_true] at hget
    rw [if_pos Bool.false_ne_true, hget]
  | true =>
    rw [hcrypto, if_pos rfl] at hget
    rw [if_neg (not_not.mpr rfl)]
    obtain ⟨⟨pubkey, c⟩, hentry⟩ := Option.isSome_iff_exists.mp (Std.ExtTreeMap.mem_iff_isSome_getElem?.mp hget)
    obtain ⟨vMasterKey, hsealed, hmaster⟩ := h.sealed
    obtain ⟨key', hkey', hid, rfl, hseals⟩ := hsealed _ _ _ hentry
    obtain rfl := hC.injOn hkey' hmem hid
    have heq : s.vMasterKey = vMasterKey := by
      rcases hmaster with hnil | hempty | heq
      · rw [isLocked, hcrypto, hnil] at hlocked
        cases hlocked
      · rw [hempty] at hget
        exact absurd hget Std.ExtTreeMap.not_mem_empty
      · exact heq
    have hsecret := hC.isSecret key' hmem
    simp only [hentry, heq, hseals.decrypt_eq hC hmem]
    rw [if_neg (not_not.mpr hsecret.length), hC.isCompressed key' hmem, hsecret.set_eq]

/-- The empty master key decrypts nothing. -/
theorem getKey_of_isLocked (hlocked : s.isLocked = true) (address : CKeyID) (keyOut : CKey) :
    s.getKey C address keyOut = none := by
  rw [isLocked, Bool.and_eq_true, List.isEmpty_iff] at hlocked
  rw [CCryptoKeyStore.getKey, if_neg (not_not.mpr hlocked.1)]
  split
  · rfl
  · rw [decryptSecret, hlocked.2, if_neg]
    rw [setKey_serialize]
    exact nofun

/-- After any calls one master key decrypts all secrets ; every key that was added is returned
unchanged unless the store is locked, and then none is. -/
theorem keyStore_of_calls (hC : C.Correct keys) (h : Reachable C keys s added) :
    (∃ vMasterKey, ∀ (id : CKeyID) (pubkey : CPubKey) (c : Bytes),
      s.mapCryptedKeys[id]? = some (pubkey, c) → ∃ key : CKey, key.IsSecret ∧
        key.getPubKey C = some pubkey ∧ pubkey.getID C = id ∧
        decryptSecret C vMasterKey c (pubkey.getHash C) = some key.vch) ∧
    (∀ key ∈ added, s.isLocked = false → ∀ (pubkey : CPubKey) (keyOut : CKey),
      key.getPubKey C = some pubkey → s.getKey C (pubkey.getID C) keyOut = some key) ∧
    (s.isLocked = true → ∀ (address : CKeyID) (keyOut : CKey), s.getKey C address keyOut = none) := by
  have hi := h.inv hC
  refine ⟨?_, fun key hkey hlocked pubkey keyOut hpub => ?_, getKey_of_isLocked⟩
  · obtain ⟨vMasterKey, hsealed, -⟩ := hi.sealed
    refine ⟨vMasterKey, fun id pubkey c hget => ?_⟩
    obtain ⟨key, hkey, hid, rfl, hseals⟩ := hsealed id pubkey c hget
    exact ⟨key, hC.isSecret key hkey, (hC.isSecret key hkey).getPubKey_eq C, hid,
      hseals.decrypt_eq hC hkey⟩
  · rw [(hC.isSecret key (hi.added key hkey).1).getPubKey_eq] at hpub
    obtain rfl := Option.some.inj hpub
    exact hi.getKey_eq hC hkey hlocked keyOut

/-- A cipher that writes the master key after the secret, and public keys that repeat the secret. -/
def clearCrypto : Crypto where
  encrypt vMasterKey _ secret := some (secret ++ vMasterKey)
  decrypt vMasterKey _ c := if c.drop 32 = vMasterKey then some (c.take 32) else none
  publicKey secret fCompressed := ⟨if fCompressed then 2 :: secret else 4 :: secret ++ secret⟩
  hash _ := 0
  hash160 vch := BitVec.ofNat 160 (vch.getLastD 0).toNat

def smallKey : CKey := { fValid := true, fCompressed := true, vch := List.replicate 31 0 ++ [1] }

theorem correct_clearCrypto : clearCrypto.Correct {smallKey} where
  isSecret := by
    rintro key rfl
    exact ⟨rfl, rfl, by decide⟩
  isCompressed := by
    rintro key rfl
    rfl
  injOn := Set.injOn_singleton _ _
  restores := by
    rintro key rfl vMasterKey -
    exact ⟨_, rfl, if_pos rfl⟩
  other := by
    rintro key rfl vMasterKey vMasterKey' c secret hc hne hdec hlen
    obtain rfl := Option.some.inj hc
    exact absurd ((if_neg (Ne.symm hne)).symm.trans hdec) nofun

/-- A key is added, then the store is encrypted and unlocked. -/
def unlockedStore : Option (Bool × CCryptoKeyStore) :=
  ((addKeyPubKey clearCrypto smallKey (smallKey.pubKey clearCrypto) {}).2.encryptKeys clearCrypto
    (List.replicate 32 7)).bind fun r => r.2.unlock clearCrypto (List.replicate 32 7)

theorem keyStore_of_unlockedStore : ∃ s, unlockedStore = some (true, s) ∧ s.fUseCrypto = true ∧
    ∀ keyOut, s.getKey clearCrypto ((smallKey.pubKey clearCrypto).getID clearCrypto) keyOut =
      some smallKey := by
  have hok : (unlockedStore.map fun r => (r.1, r.2.fUseCrypto, r.2.isLocked)) =
      some (true, true, false) := by decide
  obtain ⟨⟨ok, s⟩, hs, heq⟩ := Option.map_eq_some_iff.mp hok
  simp only [Prod.mk.injEq] at heq
  obtain ⟨⟨ok', s₁⟩, hrun₁, hrun⟩ := Option.bind_eq_some_iff.mp hs
  have hreach : Reachable clearCrypto {smallKey} s [smallKey] :=
    .unlock (.encryptKeys (.addKeyPubKey .empty rfl rfl) rfl hrun₁) hrun
  refine ⟨s, heq.1 ▸ hs, heq.2.1, fun keyOut => ?_⟩
  exact (keyStore_of_calls correct_clearCrypto hreach).2.1 smallKey (List.mem_singleton_self _)
    heq.2.2 _ keyOut rfl

end CCryptoKeyStore

end Ticoin
