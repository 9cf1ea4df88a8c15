import Ticoin.Crypter

/-!
# Changing the passphrase of a wallet

A wallet keeps its master key encrypted, once for every passphrase. `Unlock` tries the records in
turn and goes on where a passphrase does not decrypt one. `ChangeWalletPassphrase` locks the wallet
and tries them in turn too, but it returns there, and it returns without unlocking the wallet again.

So the change is atomic exactly if the old passphrase opens the first record that it does not
decrypt to a master key that is refused, or the wallet was locked and the old passphrase does not
unlock it (`atomic_iff`).
-/

namespace Ticoin

namespace Passphrase

open Codec CCryptoKeyStore

/-! ## Records and derived keys -/

structure CMasterKey where
  vchCryptedKey : Bytes
  vchSalt : Bytes
  nDerivationMethod : UInt32 := 0
  nDeriveIterations : UInt32 := 25000
  vchOtherDerivationParameters : Bytes := []
  deriving DecidableEq, Repr

def WALLET_CRYPTO_SALT_SIZE : ℕ := 8

/-- `EVP_BytesToKey` : the key and the initial vector from a passphrase, a salt and rounds. -/
abbrev BytesToKey := Bytes → Bytes → UInt32 → Bytes × Bytes

variable (C : Crypto) (bytesToKey : BytesToKey)

/-- `SetKeyFromPassphrase`, for a record. -/
def setKeyFromPassphrase (strKeyData : Bytes) (k : CMasterKey) : Option (Bytes × Bytes) :=
  if k.nDeriveIterations < 1 ∨ k.vchSalt.length ≠ WALLET_CRYPTO_SALT_SIZE then none
  else if k.nDerivationMethod = 0 then some (bytesToKey strKeyData k.vchSalt k.nDeriveIterations)
  else none

/-! ## Unlock -/

structure CWallet where
  keyStore : CCryptoKeyStore
  /-- in the order of their numbers -/
  mapMasterKeys : List (UInt32 × CMasterKey)

/-- The loop of `Unlock`. -/
def unlockLoop (strWalletPassphrase : Bytes) :
    List (UInt32 × CMasterKey) → CCryptoKeyStore → Option (Bool × CCryptoKeyStore)
  | [], s => some (false, s)
  | (_, k) :: rest, s =>
    match setKeyFromPassphrase bytesToKey strWalletPassphrase k with
    | none => some (false, s)
    | some (chKey, chIV) =>
      match C.decrypt chKey chIV k.vchCryptedKey with
      -- try another master key
      | none => unlockLoop strWalletPassphrase rest s
      | some vMasterKey =>
        match s.unlock C vMasterKey with
        | none => none
        | some (true, s) => some (true, s)
        | some (false, s) => unlockLoop strWalletPassphrase rest s

namespace CWallet

/-- `Unlock`. -/
def unlock (strWalletPassphrase : Bytes) (w : CWallet) : Option (Bool × CWallet) :=
  (unlockLoop C bytesToKey strWalletPassphrase w.mapMasterKeys w.keyStore).map fun r =>
    (r.1, { w with keyStore := r.2 })

def isLocked (w : CWallet) : Bool := w.keyStore.isLocked

end CWallet

/-! ## ChangeWalletPassphrase -/

/-- The iterations that were measured, and no fewer than the default. -/
def leastIterations (nDeriveIterations : UInt32) : UInt32 :=
  if nDeriveIterations < 25000 then 25000 else nDeriveIterations

/-- What is done with the record that the old passphrase opens, with the iterations measured. If
`Encrypt` fails, its buffer is left for the encrypted key. -/
def reencrypt (strNewWalletPassphrase : Bytes) (measured : UInt32) (vMasterKey : Bytes)
    (k : CMasterKey) : Bool × CMasterKey :=
  let k := { k with nDeriveIterations := leastIterations measured }
  match setKeyFromPassphrase bytesToKey strNewWalletPassphrase k with
  | none => (false, k)
  | some (chKey, chIV) =>
    match C.encrypt chKey chIV vMasterKey with
    | none => (false, { k with vchCryptedKey := List.replicate (vMasterKey.length + 16) 0 })
    | some vchCryptedKey => (true, { k with vchCryptedKey := vchCryptedKey })

/-- The loop of `ChangeWalletPassphrase`, which edits the records in place. -/
def changeLoop (strOld strNew : Bytes) (measured : UInt32) (fWasLocked : Bool) :
    List (UInt32 × CMasterKey) → CCryptoKeyStore →
      Option (Bool × List (UInt32 × CMasterKey) × CCryptoKeyStore)
  | [], s => some (false, [], s)
  | (id, k) :: rest, s =>
    match setKeyFromPassphrase bytesToKey strOld k with
    | none => some (false, (id, k) :: rest, s)
    | some (chKey, chIV) =>
      match C.decrypt chKey chIV k.vchCryptedKey with
      | none => some (false, (id, k) :: rest, s)
      | some vMasterKey =>
        match s.unlock C vMasterKey with
        | none => none
        | some (true, s) =>
          match reencrypt C bytesToKey strNew measured vMasterKey k with
          | (false, k) => some (false, (id, k) :: rest, s)
          | (true, k) => some (true, (id, k) :: rest, if fWasLocked then s.lock.2 else s)
        | some (false, s) =>
          (changeLoop strOld strNew measured fWasLocked rest s).map fun r =>
            (r.1, (id, k) :: r.2.1, r.2.2)

/-- `ChangeWalletPassphrase`, with the iterations that are measured. -/
def CWallet.changeWalletPassphrase (strOld strNew : Bytes) (measured : UInt32) (w : CWallet) :
    Option (Bool × CWallet) :=
  (changeLoop C bytesToKey strOld strNew measured w.isLocked w.mapMasterKeys
    w.keyStore.lock.2).map fun r => (r.1, ⟨r.2.2, r.2.1⟩)

/-! ## Trying a record -/

/-- What comes of trying a passphrase on a record. -/
inductive Try where
  | noKey
  | undecryptable
  | refused
  | opens (vMasterKey : Bytes)
  deriving DecidableEq

/-- A passphrase is tried on a record, with the secrets of a store. -/
def tryKey (strWalletPassphrase : Bytes) (s : CCryptoKeyStore) (k : CMasterKey) : Try :=
  match setKeyFromPassphrase bytesToKey strWalletPassphrase k with
  | none => .noKey
  | some (chKey, chIV) =>
    match C.decrypt chKey chIV k.vchCryptedKey with
    | none => .undecryptable
    | some vMasterKey =>
      if masterKeyFits C vMasterKey s.mapCryptedKeys.toList = some true then .opens vMasterKey
      else .refused

/-- A passphrase opens the first record that it does not decrypt to a master key that is refused. -/
structure OpensFirst (strWalletPassphrase : Bytes) (s : CCryptoKeyStore)
    (records : List (UInt32 × CMasterKey)) (pre : List (UInt32 × CMasterKey)) (id : UInt32)
    (k : CMasterKey) (post : List (UInt32 × CMasterKey)) (vMasterKey : Bytes) : Prop where
  records_eq : records = pre ++ (id, k) :: post
  refused : ∀ r ∈ pre, tryKey C bytesToKey strWalletPassphrase s r.2 = .refused
  opens : tryKey C bytesToKey strWalletPassphrase s k = .opens vMasterKey

/-- What the cipher and the records promise : what is encrypted is decrypted again, no passphrase
decrypts a record to nothing, and no master key decrypts a secret to 32 bytes that are none. -/
structure Sound (w : CWallet) : Prop where
  encrypts : ∀ chKey chIV m, ∃ c, C.encrypt chKey chIV m = some c ∧ C.decrypt chKey chIV c = some m
  nonempty : ∀ r ∈ w.mapMasterKeys, ∀ p chKey chIV m,
    setKeyFromPassphrase bytesToKey p r.2 = some (chKey, chIV) →
    C.decrypt chKey chIV r.2.vchCryptedKey = some m → m ≠ []
  secrets : ∀ m, masterKeyFits C m w.keyStore.mapCryptedKeys.toList ≠ none

variable {C bytesToKey} {s s' : CCryptoKeyStore} {w : CWallet} {old new m : Bytes}
  {records pre post : List (UInt32 × CMasterKey)} {id : UInt32} {k : CMasterKey} {measured : UInt32}

/-- The store with another master key. -/
def withMasterKey (m : Bytes) (s : CCryptoKeyStore) : CCryptoKeyStore := { s with vMasterKey := m }

/-- No master key makes the store fail. -/
def Total (C : Crypto) (s : CCryptoKeyStore) : Prop :=
  s.fUseCrypto = true ∧ ∀ m, masterKeyFits C m s.mapCryptedKeys.toList ≠ none

theorem unlock_eq (h : Total C s) (m : Bytes) : s.unlock C m =
    if masterKeyFits C m s.mapCryptedKeys.toList = some true then
      some (true, withMasterKey m s)
    else some (false, s) := by
  unfold CCryptoKeyStore.unlock setCrypted
  rw [if_pos h.1]
  dsimp only
  cases hfits : masterKeyFits C m s.mapCryptedKeys.toList with
  | none => exact absurd hfits (h.2 m)
  | some fits => cases fits <;> rfl

/-- What trying a passphrase gives says what the loop of `Unlock` does. -/
theorem unlockLoop_cons (h : Total C s) (p : Bytes) (id : UInt32) (k : CMasterKey)
    (rest : List (UInt32 × CMasterKey)) : unlockLoop C bytesToKey p ((id, k) :: rest) s =
      match tryKey C bytesToKey p s k with
      | .noKey => some (false, s)
      | .undecryptable | .refused => unlockLoop C bytesToKey p rest s
      | .opens m => some (true, withMasterKey m s) := by
  conv_lhs => unfold unlockLoop
  unfold tryKey
  cases setKeyFromPassphrase bytesToKey p k with
  | none => rfl
  | some key =>
    dsimp only
    cases C.decrypt key.1 key.2 k.vchCryptedKey with
    | none => rfl
    | some m =>
      dsimp only
      rw [unlock_eq h]
      by_cases hfits : masterKeyFits C m s.mapCryptedKeys.toList = some true
      · simp only [if_pos hfits]
      · simp only [if_neg hfits]

/-- What trying a passphrase gives says what the loop of `ChangeWalletPassphrase` does. -/
theorem changeLoop_cons (h : Total C s) (old new : Bytes) (measured : UInt32) (fWasLocked : Bool)
    (id : UInt32) (k : CMasterKey) (rest : List (UInt32 × CMasterKey)) :
    changeLoop C bytesToKey old new measured fWasLocked ((id, k) :: rest) s =
      match tryKey C bytesToKey old s k with
      | .noKey | .undecryptable => some (false, (id, k) :: rest, s)
      | .refused => (changeLoop C bytesToKey old new measured fWasLocked rest s).map fun r =>
          (r.1, (id, k) :: r.2.1, r.2.2)
      | .opens m =>
        match reencrypt C bytesToKey new measured m k with
        | (false, k) => some (false, (id, k) :: rest, withMasterKey m s)
        | (true, k) => some (true, (id, k) :: rest,
            if fWasLocked then (withMasterKey m s).lock.2
            else withMasterKey m s) := by
  conv_lhs => unfold changeLoop
  unfold tryKey
  cases setKeyFromPassphrase bytesToKey old k with
  | none => rfl
  | some key =>
    dsimp only
    cases C.decrypt key.1 key.2 k.vchCryptedKey with
    | none => rfl
    | some m =>
      dsimp only
      rw [unlock_eq h]
      by_cases hfits : masterKeyFits C m s.mapCryptedKeys.toList = some true
      · simp only [if_pos hfits]
      · simp only [if_neg hfits]

theorem tryKey_congr (h : s'.mapCryptedKeys = s.mapCryptedKeys) (p : Bytes) (k : CMasterKey) :
    tryKey C bytesToKey p s' k = tryKey C bytesToKey p s k := by
  unfold tryKey
  rw [h]

/-- Whether there is a key does not depend on the passphrase. -/
theorem tryKey_ne_noKey {p : Bytes} (h : tryKey C bytesToKey p s k ≠ .noKey) (p' : Bytes) :
    tryKey C bytesToKey p' s k ≠ .noKey := by
  unfold tryKey setKeyFromPassphrase at h ⊢
  by_cases hfew : k.nDeriveIterations < 1 ∨ k.vchSalt.length ≠ WALLET_CRYPTO_SALT_SIZE
  · rw [if_pos hfew] at h
    exact absurd rfl h
  rw [if_neg hfew] at h ⊢
  by_cases hmethod : k.nDerivationMethod = 0
  · rw [if_pos hmethod]
    dsimp only
    split
    · exact nofun
    · split <;> exact nofun
  · rw [if_neg hmethod] at h
    exact absurd rfl h

theorem fits_of_opens {p : Bytes} (h : tryKey C bytesToKey p s k = .opens m) :
    masterKeyFits C m s.mapCryptedKeys.toList = some true ∧
      ∃ chKey chIV, setKeyFromPassphrase bytesToKey p k = some (chKey, chIV) ∧
        C.decrypt chKey chIV k.vchCryptedKey = some m := by
  unfold tryKey at h
  cases hset : setKeyFromPassphrase bytesToKey p k with
  | none =>
    rw [hset] at h
    cases h
  | some key =>
    rw [hset] at h
    dsimp only at h
    cases hdec : C.decrypt key.1 key.2 k.vchCryptedKey with
    | none =>
      rw [hdec] at h
      cases h
    | some m' =>
      rw [hdec] at h
      dsimp only at h
      split at h
      · rename_i hfits
        cases h
        exact ⟨hfits, key.1, key.2, rfl, hdec⟩
      · cases h

/-! ## The loops -/

/-- `Unlock` with a passphrase that opens a record, where no record before it is without a key. -/
theorem unlockLoop_of_opens (h : Total C s) {p : Bytes} (id : UInt32)
    (post : List (UInt32 × CMasterKey)) : ∀ {pre : List (UInt32 × CMasterKey)},
    (∀ r ∈ pre, tryKey C bytesToKey p s r.2 ≠ .noKey) → tryKey C bytesToKey p s k = .opens m →
    ∃ m', unlockLoop C bytesToKey p (pre ++ (id, k) :: post) s =
        some (true, withMasterKey m' s) ∧
      (m' = m ∨ ∃ r ∈ pre, tryKey C bytesToKey p s r.2 = .opens m')
  | [], _, hopens => by
    refine ⟨m, ?_, .inl rfl⟩
    rw [List.nil_append, unlockLoop_cons h, hopens]
  | r :: pre, hpre, hopens => by
    rw [List.forall_mem_cons] at hpre
    obtain ⟨m', hloop, hm'⟩ := unlockLoop_of_opens h id post hpre.2 hopens
    have hlater : m' = m ∨ ∃ r' ∈ r :: pre, tryKey C bytesToKey p s r'.2 = .opens m' :=
      hm'.imp_right fun ⟨r', hr', heq⟩ => ⟨r', List.mem_cons_of_mem r hr', heq⟩
    rw [List.cons_append, unlockLoop_cons h]
    cases htry : tryKey C bytesToKey p s r.2 with
    | noKey => exact absurd htry hpre.1
    | undecryptable => exact ⟨m', hloop, hlater⟩
    | refused => exact ⟨m', hloop, hlater⟩
    | opens m₁ => exact ⟨m₁, rfl, .inr ⟨r, List.mem_cons_self, htry⟩⟩

theorem OpensFirst.unlockLoop (h : OpensFirst C bytesToKey old s records pre id k post m)
    (hs : Total C s) : unlockLoop C bytesToKey old records s =
      some (true, withMasterKey m s) := by
  have hpre : ∀ r ∈ pre, tryKey C bytesToKey old s r.2 ≠ .noKey := fun r hr => by
    rw [h.refused r hr]
    exact nofun
  obtain ⟨m', hloop, heq | ⟨r, hr, hopens⟩⟩ := unlockLoop_of_opens hs id post hpre h.opens
  · rw [h.records_eq, hloop, heq]
  · cases (h.refused r hr).symm.trans hopens

/-- The record that the old passphrase opened is opened by the new one, to the same master key. -/
theorem reencrypt_spec (hencrypts : ∀ chKey chIV m, ∃ c, C.encrypt chKey chIV m = some c ∧
      C.decrypt chKey chIV c = some m) (h : tryKey C bytesToKey old s k = .opens m) (new : Bytes)
    (measured : UInt32) : ∃ k', reencrypt C bytesToKey new measured m k = (true, k') ∧
      tryKey C bytesToKey new s k' = .opens m := by
  have hkey : ¬(leastIterations measured < 1 ∨ k.vchSalt.length ≠ WALLET_CRYPTO_SALT_SIZE) ∧
      k.nDerivationMethod = 0 := by
    have hleast : ¬leastIterations measured < 1 := by
      unfold leastIterations
      split
      · decide
      · rename_i hmany
        rw [UInt32.lt_iff_toNat_lt] at hmany ⊢
        exact fun hfew => hmany (hfew.trans (by decide))
    unfold tryKey setKeyFromPassphrase at h
    by_cases hfew : k.nDeriveIterations < 1 ∨ k.vchSalt.length ≠ WALLET_CRYPTO_SALT_SIZE
    · rw [if_pos hfew] at h
      cases h
    rw [if_neg hfew] at h
    by_cases hmethod : k.nDerivationMethod = 0
    · exact ⟨fun hor => hor.elim hleast fun hsalt => hfew (.inr hsalt), hmethod⟩
    · rw [if_neg hmethod] at h
      cases h
  have hset : ∀ c, setKeyFromPassphrase bytesToKey new
      { k with nDeriveIterations := leastIterations measured, vchCryptedKey := c } =
        some (bytesToKey new k.vchSalt (leastIterations measured)) := by
    intro c
    unfold setKeyFromPassphrase
    rw [if_neg hkey.1, if_pos hkey.2]
  obtain ⟨c, hc, hdec⟩ := hencrypts (bytesToKey new k.vchSalt (leastIterations measured)).1
    (bytesToKey new k.vchSalt (leastIterations measured)).2 m
  refine ⟨{ k with nDeriveIterations := leastIterations measured, vchCryptedKey := c }, ?_, ?_⟩
  · unfold reencrypt
    dsimp only
    rw [show setKeyFromPassphrase bytesToKey new
      { k with nDeriveIterations := leastIterations measured } = _ from hset k.vchCryptedKey]
    dsimp only
    rw [hc]
  · unfold tryKey
    rw [hset c]
    dsimp only
    rw [hdec]
    dsimp only
    rw [if_pos (fits_of_opens h).1]

theorem OpensFirst.changeLoop (h : OpensFirst C bytesToKey old s records pre id k post m)
    (hs : Total C s) {k' : CMasterKey} (hk' : reencrypt C bytesToKey new measured m k = (true, k'))
    (fWasLocked : Bool) : changeLoop C bytesToKey old new measured fWasLocked records s =
      some (true, pre ++ (id, k') :: post,
        if fWasLocked then (withMasterKey m s).lock.2
        else withMasterKey m s) := by
  obtain ⟨rfl, hrefused, hopens⟩ := h
  induction pre with
  | nil =>
    rw [List.nil_append, changeLoop_cons hs, hopens]
    dsimp only
    rw [hk', List.nil_append]
  | cons r pre ih =>
    rw [List.forall_mem_cons] at hrefused
    rw [List.cons_append, changeLoop_cons hs, hrefused.1]
    dsimp only
    rw [ih hrefused.2, List.cons_append]
    rfl

/-- Where the old passphrase does not open the first record that counts, nothing is changed. -/
theorem changeLoop_of_not (hs : Total C s) (new : Bytes) (measured : UInt32) (fWasLocked : Bool) :
    ∀ {records : List (UInt32 × CMasterKey)},
      (¬∃ pre id k post m, OpensFirst C bytesToKey old s records pre id k post m) →
      changeLoop C bytesToKey old new measured fWasLocked records s = some (false, records, s)
  | [], _ => rfl
  | (id, k) :: records, h => by
    rw [changeLoop_cons hs]
    cases htry : tryKey C bytesToKey old s k with
    | noKey => rfl
    | undecryptable => rfl
    | refused =>
      have hrest : ¬∃ pre id k post m, OpensFirst C bytesToKey old s records pre id k post m := by
        rintro ⟨pre, id', k', post, m, hopens⟩
        refine h ⟨(id, k) :: pre, id', k', post, m, ?_, ?_, hopens.opens⟩
        · rw [hopens.records_eq, List.cons_append]
        · rw [List.forall_mem_cons]
          exact ⟨htry, hopens.refused⟩
      dsimp only
      rw [changeLoop_of_not hs new measured fWasLocked hrest]
      rfl
    | opens m => exact absurd ⟨[], id, k, records, m, rfl, nofun, htry⟩ h

/-! ## Atomicity -/

/-- A change of the passphrase is atomic : if it fails, the records and the lock state are as
before, and if the old passphrase unlocks the wallet, it succeeds, the lock state is as before, the
new one unlocks the wallet with the same master key, and one record at most was changed. -/
structure Atomic (C : Crypto) (bytesToKey : BytesToKey) (old new : Bytes) (measured : UInt32)
    (w : CWallet) : Prop where
  on_false : ∀ w', w.changeWalletPassphrase C bytesToKey old new measured = some (false, w') →
    w'.mapMasterKeys = w.mapMasterKeys ∧ w'.isLocked = w.isLocked
  on_unlock : ∀ wu, w.unlock C bytesToKey old = some (true, wu) →
    ∃ w', w.changeWalletPassphrase C bytesToKey old new measured = some (true, w') ∧
      w'.isLocked = w.isLocked ∧
      (∃ wn, w'.unlock C bytesToKey new = some (true, wn) ∧
        wn.keyStore.vMasterKey = wu.keyStore.vMasterKey) ∧
      ∃ pre id k k' post, w.mapMasterKeys = pre ++ (id, k) :: post ∧
        w'.mapMasterKeys = pre ++ (id, k') :: post

/-- The old passphrase opens the first record that counts. -/
def OpensOne (C : Crypto) (bytesToKey : BytesToKey) (old : Bytes) (w : CWallet) : Prop :=
  ∃ pre id k post m, OpensFirst C bytesToKey old w.keyStore w.mapMasterKeys pre id k post m

theorem lock_eq (h : s.fUseCrypto = true) : s.lock.2 = withMasterKey [] s := by
  unfold CCryptoKeyStore.lock setCrypted
  rw [if_pos h]
  rfl

theorem isLocked_eq (h : s.fUseCrypto = true) : s.isLocked = s.vMasterKey.isEmpty := by
  rw [CCryptoKeyStore.isLocked, h, Bool.true_and]

variable {keys : Set CKey} {added : List CKey}

/-- A passphrase opens all records with one master key, if one of them refused a key. -/
theorem eq_of_opens (hC : C.Correct keys) (hs : Reachable C keys s added) {r : UInt32 × CMasterKey}
    (hrefused : tryKey C bytesToKey old s r.2 = .refused) {m' : Bytes}
    (h : masterKeyFits C m s.mapCryptedKeys.toList = some true)
    (h' : masterKeyFits C m' s.mapCryptedKeys.toList = some true) : m' = m := by
  obtain ⟨vMasterKey, hsealed, -⟩ := (hs.inv hC).sealed
  have hkeys : s.mapCryptedKeys ≠ ∅ := by
    intro hempty
    have hall : ∀ m, masterKeyFits C m s.mapCryptedKeys.toList = some true := fun m => by
      rw [Std.ExtTreeMap.toList_eq_nil_iff.mpr hempty]
      rfl
    unfold tryKey at hrefused
    split at hrefused
    · cases hrefused
    · split at hrefused
      · cases hrefused
      · rw [if_pos (hall _)] at hrefused
        cases hrefused
  rw [(hsealed.eq_of_fits hC h).resolve_left hkeys, (hsealed.eq_of_fits hC h').resolve_left hkeys]

/-- A change with a passphrase that opens the first record that counts is atomic. -/
theorem atomic_of_opensOne (hC : C.Correct keys) (hs : Reachable C keys w.keyStore added)
    (hcrypted : w.keyStore.fUseCrypto = true) (hsound : Sound C bytesToKey w)
    (h : OpensOne C bytesToKey old w) : Atomic C bytesToKey old new measured w := by
  obtain ⟨pre, id, k, post, m, hopens⟩ := h
  have htotal : ∀ m', Total C (withMasterKey m' w.keyStore) := fun _ =>
    ⟨hcrypted, hsound.secrets⟩
  have hlocked := lock_eq hcrypted
  have htry : ∀ (m' p : Bytes) (k : CMasterKey), tryKey C bytesToKey p
      (withMasterKey m' w.keyStore) k = tryKey C bytesToKey p w.keyStore k :=
    fun _ => tryKey_congr rfl
  obtain ⟨hfits, chKey, chIV, hset, hdec⟩ := fits_of_opens hopens.opens
  have hm : m ≠ [] := hsound.nonempty (id, k) (by rw [hopens.records_eq]; simp) old chKey chIV m
    hset hdec
  have hopens' : OpensFirst C bytesToKey old w.keyStore.lock.2 w.mapMasterKeys pre id k post m := by
    rw [hlocked]
    exact ⟨hopens.records_eq, fun r hr => (htry [] _ _).trans (hopens.refused r hr),
      (htry [] _ _).trans hopens.opens⟩
  obtain ⟨k', hk', hnew⟩ := reencrypt_spec hsound.encrypts hopens.opens new measured
  have hchange : w.changeWalletPassphrase C bytesToKey old new measured = some (true,
      ⟨withMasterKey (if w.isLocked then [] else m) w.keyStore,
        pre ++ (id, k') :: post⟩) := by
    unfold CWallet.changeWalletPassphrase
    rw [hopens'.changeLoop (hlocked ▸ htotal []) hk', hlocked, Option.map_some]
    have hlock : (withMasterKey m (withMasterKey [] w.keyStore)).lock.2 =
        withMasterKey [] w.keyStore := lock_eq hcrypted
    cases w.isLocked with
    | true => rw [if_pos rfl, if_pos rfl, hlock]
    | false => rfl
  refine ⟨fun w' hfalse => ?_, fun wu hunlock => ?_⟩
  · cases hchange.symm.trans hfalse
  · obtain rfl : wu = { w with keyStore := withMasterKey m w.keyStore } := by
      unfold CWallet.unlock at hunlock
      rw [hopens.unlockLoop (htotal w.keyStore.vMasterKey), Option.map_some, Option.some.injEq,
        Prod.mk.injEq] at hunlock
      exact hunlock.2.symm
    refine ⟨_, hchange, ?_, ?_, pre, id, k, k', post, hopens.records_eq, rfl⟩
    · have hkey : ∀ m', (withMasterKey m' w.keyStore).isLocked = m'.isEmpty := fun _ =>
        isLocked_eq hcrypted
      change (withMasterKey (if w.isLocked then [] else m) w.keyStore).isLocked = _
      rw [hkey]
      cases w.isLocked with
      | true => rfl
      | false => exact List.isEmpty_eq_false_iff.mpr hm
    · have hpre : ∀ r ∈ pre, tryKey C bytesToKey new
          (withMasterKey (if w.isLocked then [] else m) w.keyStore) r.2 ≠ .noKey := by
        intro r hr
        rw [htry]
        refine tryKey_ne_noKey (p := old) ?_ new
        rw [hopens.refused r hr]
        exact nofun
      obtain ⟨m', hloop, hm'⟩ := unlockLoop_of_opens (htotal _) id post hpre
        ((htry _ _ _).trans hnew)
      refine ⟨⟨withMasterKey m' w.keyStore, pre ++ (id, k') :: post⟩, ?_, ?_⟩
      · unfold CWallet.unlock
        dsimp only
        rw [hloop]
        rfl
      · rcases hm' with rfl | ⟨r, hr, hother⟩
        · rfl
        · rw [htry] at hother
          exact eq_of_opens hC hs (hopens.refused r hr) hfits (fits_of_opens hother).1

/-- A change of the passphrase is atomic exactly if the old one opens the first record that counts,
or the wallet was locked and the old one does not unlock it. -/
theorem atomic_iff (hC : C.Correct keys) (hs : Reachable C keys w.keyStore added)
    (hcrypted : w.keyStore.fUseCrypto = true) (hsound : Sound C bytesToKey w) (old new : Bytes)
    (measured : UInt32) : Atomic C bytesToKey old new measured w ↔
      OpensOne C bytesToKey old w ∨
        w.isLocked = true ∧ ¬∃ wu, w.unlock C bytesToKey old = some (true, wu) := by
  by_cases hopens : OpensOne C bytesToKey old w
  · exact iff_of_true (atomic_of_opensOne hC hs hcrypted hsound hopens) (.inl hopens)
  have htotal : Total C w.keyStore.lock.2 := by
    rw [lock_eq hcrypted]
    exact ⟨hcrypted, hsound.secrets⟩
  have hnot : ¬∃ pre id k post m,
      OpensFirst C bytesToKey old w.keyStore.lock.2 w.mapMasterKeys pre id k post m := by
    rintro ⟨pre, id, k, post, m, h⟩
    have hkeys : w.keyStore.mapCryptedKeys = w.keyStore.lock.2.mapCryptedKeys := by
      rw [lock_eq hcrypted]
      rfl
    exact hopens ⟨pre, id, k, post, m, h.records_eq,
      fun r hr => (tryKey_congr hkeys old r.2).trans (h.refused r hr),
      (tryKey_congr hkeys old k).trans h.opens⟩
  have hchange : w.changeWalletPassphrase C bytesToKey old new measured =
      some (false, ⟨w.keyStore.lock.2, w.mapMasterKeys⟩) := by
    unfold CWallet.changeWalletPassphrase
    rw [changeLoop_of_not htotal new measured w.isLocked hnot]
    rfl
  have hlocked : w.keyStore.lock.2.isLocked = true := by
    rw [lock_eq hcrypted]
    exact isLocked_eq hcrypted
  constructor
  · intro h
    refine .inr ⟨?_, fun ⟨wu, hunlock⟩ => ?_⟩
    · exact (h.on_false _ hchange).2.symm.trans hlocked
    · obtain ⟨w', htrue, -⟩ := h.on_unlock wu hunlock
      cases hchange.symm.trans htrue
  · rintro (h | ⟨hwas, hnone⟩)
    · exact absurd h hopens
    · refine ⟨fun w' hfalse => ?_, fun wu hunlock => absurd ⟨wu, hunlock⟩ hnone⟩
      cases hchange.symm.trans hfalse
      exact ⟨rfl, hlocked.trans hwas.symm⟩

/-- A cipher that appends the key. -/
def trailingCrypto : Crypto where
  encrypt key _ m := some (m ++ key)
  decrypt key _ c :=
    if c.drop (c.length - key.length) = key then some (c.take (c.length - key.length)) else none
  publicKey := clearCrypto.publicKey
  hash := clearCrypto.hash
  hash160 := clearCrypto.hash160

theorem decrypt_append (m key chIV : Bytes) :
    trailingCrypto.decrypt key chIV (m ++ key) = some m := by
  change (if _ then _ else _) = _
  rw [List.length_append, Nat.add_sub_cancel, List.drop_left, if_pos rfl, List.take_left]

theorem correct_trailingCrypto : trailingCrypto.Correct {smallKey} where
  isSecret := correct_clearCrypto.isSecret
  isCompressed := correct_clearCrypto.isCompressed
  injOn := correct_clearCrypto.injOn
  restores := by
    rintro key rfl vMasterKey -
    exact ⟨_, rfl, decrypt_append _ _ _⟩
  other := by
    rintro key rfl vMasterKey vMasterKey' c secret hc hne hdec hlen -
    obtain rfl := Option.some.inj hc
    have hkey : smallKey.vch.length = 32 := rfl
    change (if _ then _ else _) = _ at hdec
    split at hdec
    · rename_i hdrop
      cases hdec
      rw [List.length_take, List.length_append] at hlen
      have hplace : (smallKey.vch ++ vMasterKey).length - vMasterKey'.length =
          smallKey.vch.length := by
        rw [List.length_append]
        omega
      rw [hplace, List.drop_left] at hdrop
      exact hne hdrop.symm
    · cases hdec

/-- A passphrase of which the key has the first two bytes. -/
def shortKey : BytesToKey := fun p _ _ => (p.take 2, [])

/-- A locked wallet with one master key under two passphrases. -/
def twoPassphrases : CWallet where
  keyStore := ({} : CCryptoKeyStore).lock.2
  mapMasterKeys := [(1, ⟨[7, 7, 7, 1], [0, 0, 0, 0, 0, 0, 0, 0], 0, 25000, []⟩),
    (2, ⟨[7, 7, 7, 2], [0, 0, 0, 0, 0, 0, 0, 0], 0, 25000, []⟩)]

theorem sound_twoPassphrases : Sound trailingCrypto shortKey twoPassphrases where
  encrypts chKey chIV m := ⟨m ++ chKey, rfl, decrypt_append m chKey chIV⟩
  nonempty r hr p chKey chIV m hset hdec := by
    have hlens : ∀ r ∈ twoPassphrases.mapMasterKeys, r.2.vchCryptedKey.length = 4 := by decide
    have hlen := hlens r hr
    have hkey : chKey.length ≤ 2 := by
      unfold setKeyFromPassphrase at hset
      split at hset
      · cases hset
      · split at hset
        · cases hset
          exact List.length_take_le 2 p
        · cases hset
    change (if _ then _ else _) = _ at hdec
    split at hdec
    · cases hdec
      rw [← List.length_pos_iff, List.length_take]
      omega
    · cases hdec
  secrets m := by
    have hempty : twoPassphrases.keyStore.mapCryptedKeys.toList = [] := by decide
    rw [hempty]
    exact nofun

theorem atomic_iff_twoPassphrases :
    Atomic trailingCrypto shortKey [1] [3] 30000 twoPassphrases := by
  have hs : Reachable trailingCrypto {smallKey} twoPassphrases.keyStore [] := .lock .empty
  refine (atomic_iff correct_trailingCrypto hs rfl sound_twoPassphrases [1] [3] 30000).mpr (.inl ?_)
  exact ⟨[], 1, _, _, [7, 7, 7], rfl, nofun, by decide⟩

/-- The second passphrase unlocks the wallet but does not change, and a wrong one leaves a wallet
locked that was not. -/
theorem not_atomic : ¬Atomic trailingCrypto shortKey [2] [3] 30000 twoPassphrases ∧
    ¬Atomic trailingCrypto shortKey [5] [3] 30000
      { twoPassphrases with keyStore := withMasterKey [7, 7, 7] twoPassphrases.keyStore } := by
  constructor
  · intro h
    have hrun : (twoPassphrases.unlock trailingCrypto shortKey [2]).map Prod.fst = some true ∧
        (twoPassphrases.changeWalletPassphrase trailingCrypto shortKey [2] [3] 30000).map Prod.fst =
          some false := by decide
    obtain ⟨⟨ok, wu⟩, hunlock, rfl⟩ := Option.map_eq_some_iff.mp hrun.1
    obtain ⟨w', htrue, -⟩ := h.on_unlock wu hunlock
    rw [htrue] at hrun
    cases hrun.2
  · intro h
    have hrun : (({ twoPassphrases with
        keyStore := withMasterKey [7, 7, 7] twoPassphrases.keyStore } :
          CWallet).changeWalletPassphrase trailingCrypto shortKey [5] [3] 30000).map
        (fun r => (r.1, r.2.isLocked)) = some (false, true) := by decide
    obtain ⟨⟨ok, w'⟩, hchange, heq⟩ := Option.map_eq_some_iff.mp hrun
    rw [Prod.mk.injEq] at heq
    obtain ⟨rfl, hlocked⟩ := heq
    exact absurd (hlocked.symm.trans (h.on_false w' hchange).2) (by decide)

end Passphrase

end Ticoin
