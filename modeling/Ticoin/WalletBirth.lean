import Ticoin.Crypter
import Ticoin.Lib.Machine

/-!
# wallet.cpp, rpcdump.cpp : the birthday of the wallet

`nTimeFirstKey` is to be no later than the birth of any key, and a rescan skips the blocks that are
older than it by more than two hours. It is 0 while it has no value, and so is the time of a key
whose birth is not known. A new key and an import replace it by an earlier time, and reloading the
wallet file folds the times of all `keymeta` records.

A value of 0 that stands for a key of unknown birth is taken for no value by what comes next, and
`importwallet` writes the record of a key before it has the time of the dump, so with the time 0
(`late_of_dumped`). When this does not happen the bound is kept : `birthday_of_steps`.
-/

namespace Ticoin

open Codec Table

/-! ## The wallet file -/

inductive RecordType where
  | key | ckey | keymeta
  deriving DecidableEq

/-- A record of a public key. -/
inductive WalletRecord where
  | key (vchPubKey : CPubKey) (secret : CKey)
  | ckey (vchPubKey : CPubKey) (vchCryptedSecret : Bytes)
  | keymeta (vchPubKey : CPubKey) (nCreateTime : ℤ)
  deriving DecidableEq

namespace WalletRecord

def type : WalletRecord → RecordType
  | key .. => .key
  | ckey .. => .ckey
  | keymeta .. => .keymeta

def vchPubKey : WalletRecord → CPubKey
  | key vchPubKey _ => vchPubKey
  | ckey vchPubKey _ => vchPubKey
  | keymeta vchPubKey _ => vchPubKey

end WalletRecord

/-- The records, at most one of a type for a public key. -/
abbrev WalletDB := List WalletRecord

namespace WalletDB

def has (type : RecordType) (vchPubKey : CPubKey) (db : WalletDB) : Bool :=
  db.any fun r => r.type == type && r.vchPubKey == vchPubKey

def erase (type : RecordType) (vchPubKey : CPubKey) (db : WalletDB) : WalletDB :=
  db.filter fun r => !(r.type == type && r.vchPubKey == vchPubKey)

/-- `Write`. -/
def write (r : WalletRecord) (fOverwrite : Bool) (db : WalletDB) : Bool × WalletDB :=
  if !fOverwrite && has r.type r.vchPubKey db then (false, db)
  else (true, r :: erase r.type r.vchPubKey db)

/-- `WriteKey`. -/
def writeKey (vchPubKey : CPubKey) (secret : CKey) (nCreateTime : ℤ) (db : WalletDB) :
    Bool × WalletDB :=
  match write (.keymeta vchPubKey nCreateTime) false db with
  | (false, db) => (false, db)
  | (true, db) => write (.key vchPubKey secret) false db

/-- `WriteCryptedKey`. -/
def writeCryptedKey (vchPubKey : CPubKey) (vchCryptedSecret : Bytes) (nCreateTime : ℤ)
    (db : WalletDB) : Bool × WalletDB :=
  match write (.keymeta vchPubKey nCreateTime) true db with
  | (false, db) => (false, db)
  | (true, db) =>
    match write (.ckey vchPubKey vchCryptedSecret) false db with
    | (false, db) => (false, db)
    | (true, db) => (true, erase .key vchPubKey db)

end WalletDB

/-! ## The wallet -/

/-- The keys of a wallet with their times of creation, in memory and in the file. -/
structure KeyWallet where
  store : CCryptoKeyStore := {}
  mapKeyMetadata : Std.ExtTreeMap CKeyID ℤ := ∅
  nTimeFirstKey : ℤ := 0
  db : WalletDB := []

/-- What `nTimeFirstKey` becomes when a time is seen. -/
def earliest (nCreateTime nTimeFirstKey : ℤ) : ℤ :=
  if nTimeFirstKey = 0 ∨ nCreateTime < nTimeFirstKey then nCreateTime else nTimeFirstKey

namespace KeyWallet

/-- `nCreateTime` of a key, 0 if it is not known. -/
def createTime (w : KeyWallet) (id : CKeyID) : ℤ := (w.mapKeyMetadata[id]?).getD 0

def setCreateTime (id : CKeyID) (nCreateTime : ℤ) (w : KeyWallet) : KeyWallet :=
  { w with mapKeyMetadata := w.mapKeyMetadata.insert id nCreateTime }

/-- The update of `nTimeFirstKey` by a time. -/
def seeTime (nCreateTime : ℤ) (w : KeyWallet) : KeyWallet :=
  { w with nTimeFirstKey := earliest nCreateTime w.nTimeFirstKey }

variable (C : Crypto)

/-- `CWallet::AddCryptedKey`. -/
def addCryptedKey (vchPubKey : CPubKey) (vchCryptedSecret : Bytes) (w : KeyWallet) :
    Bool × KeyWallet :=
  match w.store.addCryptedKey C vchPubKey vchCryptedSecret with
  | (false, store) => (false, { w with store })
  | (true, store) =>
    let (ok, db) := w.db.writeCryptedKey vchPubKey vchCryptedSecret
      (w.createTime (vchPubKey.getID C))
    (ok, { w with store, db })

/-- `CWallet::AddKeyPubKey` ; that of the store calls the `AddCryptedKey` of the wallet. -/
def addKeyPubKey (secret : CKey) (pubkey : CPubKey) (w : KeyWallet) : Bool × KeyWallet :=
  if ¬ w.store.fUseCrypto then
    let (_, store) := w.store.addKeyPubKey C secret pubkey
    let (ok, db) := w.db.writeKey pubkey secret (w.createTime (pubkey.getID C))
    (ok, { w with store, db })
  else if w.store.isLocked then (false, w)
  else
    match encryptSecret C w.store.vMasterKey secret.bytes (pubkey.getHash C) with
    | none => (false, w)
    | some vchCryptedSecret => w.addCryptedKey C pubkey vchCryptedSecret

/-- `GenerateNewKey`, with the secret that is drawn and the time of the clock. -/
def generateNewKey (secret : CKey) (nCreationTime : ℕ) (w : KeyWallet) :
    Option (Except String CPubKey × KeyWallet) := do
  let pubkey ← secret.getPubKey C
  let w := (w.setCreateTime (pubkey.getID C) nCreationTime).seeTime nCreationTime
  match w.addKeyPubKey C secret pubkey with
  | (false, w) => some (.error "CWallet::GenerateNewKey() : AddKey failed", w)
  | (true, w) => some (.ok pubkey, w)

def unlockNeeded : String :=
  "Error: Please enter the wallet passphrase with walletpassphrase first."

/-- `importprivkey`, with the key that was decoded. -/
def importPrivKey (key : CKey) (w : KeyWallet) : Option (Except String Unit × KeyWallet) :=
  if w.store.isLocked then some (.error unlockNeeded, w)
  else if ¬ key.fValid then some (.error "Private key outside allowed range", w)
  else do
    let pubkey ← key.getPubKey C
    -- don't throw error in case a key is already there
    if w.store.haveKey (pubkey.getID C) then some (.ok (), w)
    else
      match (w.setCreateTime (pubkey.getID C) 1).addKeyPubKey C key pubkey with
      | (false, w) => some (.error "Error adding key to wallet", w)
      -- whenever a key is imported, we need to scan the whole chain
      | (true, w) => some (.ok (), { w with nTimeFirstKey := 1 })

/-- One line of a dump that has a key, with the time that was decoded : `fGood`, `nTimeBegin` and
the wallet. -/
def importLine (st : Bool × ℤ × KeyWallet) (line : CKey × ℤ) : Option (Bool × ℤ × KeyWallet) := do
  let pubkey ← line.1.getPubKey C
  if st.2.2.store.haveKey (pubkey.getID C) then some st
  else
    match st.2.2.addKeyPubKey C line.1 pubkey with
    | (false, w) => some (false, st.2.1, w)
    | (true, w) => some (st.1, min st.2.1 line.2, w.setCreateTime (pubkey.getID C) line.2)

/-- `importwallet`, with the time of the tip and the lines that have a key. -/
def importWallet (nTime : UInt32) (lines : List (CKey × ℤ)) (w : KeyWallet) :
    Option (Except String Unit × KeyWallet) :=
  if w.store.isLocked then some (.error unlockNeeded, w)
  else do
    let (fGood, nTimeBegin, w) ← lines.foldlM (importLine C) (true, (nTime.toNat : ℤ), w)
    if fGood then some (.ok (), w.seeTime nTimeBegin)
    else some (.error "Error adding some keys to wallet", w.seeTime nTimeBegin)

/-! ## Loading -/

/-- `LoadKeyMetadata`. -/
def loadKeyMetadata (pubkey : CPubKey) (nCreateTime : ℤ) (w : KeyWallet) : KeyWallet :=
  let w := if nCreateTime ≠ 0 then w.seeTime nCreateTime else w
  w.setCreateTime (pubkey.getID C) nCreateTime

structure CWalletScanState where
  nKeys : ℕ := 0
  nCKeys : ℕ := 0
  nKeyMeta : ℕ := 0

/-- `ReadKeyValue` ; the wallet is corrupt if a key cannot be loaded. -/
def readKeyValue (st : CWalletScanState × KeyWallet) :
    WalletRecord → Option (CWalletScanState × KeyWallet)
  | .key vchPubKey secret =>
    if vchPubKey.vch = [] then none
    else
      match st.2.store.addKeyPubKey C secret vchPubKey with
      | (false, _) => none
      | (true, store) => some ({ st.1 with nKeys := st.1.nKeys + 1 }, { st.2 with store })
  | .ckey vchPubKey vchCryptedSecret =>
    match st.2.store.addCryptedKey C vchPubKey vchCryptedSecret with
    | (false, _) => none
    | (true, store) => some ({ st.1 with nCKeys := st.1.nCKeys + 1 }, { st.2 with store })
  | .keymeta vchPubKey nCreateTime =>
    let w := st.2.loadKeyMetadata C vchPubKey nCreateTime
    -- find earliest key creation time, as wallet birthday
    some ({ st.1 with nKeyMeta := st.1.nKeyMeta + 1 }, w.seeTime nCreateTime)

/-- `LoadWallet` of a new wallet from the file, with its records in some order. -/
def loadWallet (order : WalletDB) (w : KeyWallet) : Option KeyWallet :=
  if order.isPerm w.db then do
    let (wss, w) ← order.foldlM (readKeyValue C) ({}, { db := w.db })
    -- nTimeFirstKey is only reliable if all keys have metadata
    if wss.nKeys + wss.nCKeys ≠ wss.nKeyMeta then some { w with nTimeFirstKey := 1 } else some w
  else none

end KeyWallet

/-! ## Scanning -/

/-- The test of `ScanForWalletTransactions` for a block that need not be read. -/
def isBeforeBirthday (nTimeFirstKey : ℤ) (nTime : UInt32) : Bool :=
  nTimeFirstKey ≠ 0 && (nTime.toNat : ℤ) < nTimeFirstKey - 7200

/-- The blocks that `ScanForWalletTransactions` does not read, of all from the start on. -/
def skipped (nTimeFirstKey : ℤ) (nTimes : List UInt32) : List UInt32 :=
  nTimes.takeWhile (isBeforeBirthday nTimeFirstKey)

/-! ## Writing records -/

section Records

variable {db : WalletDB} {r r' : WalletRecord} {fOverwrite : Bool} {pubkey : CPubKey}
  {secret : CKey} {c : Bytes} {T : ℤ}

namespace WalletDB

theorem has_iff {type : RecordType} :
    has type pubkey db = true ↔ ∃ r ∈ db, r.type = type ∧ r.vchPubKey = pubkey := by
  simp only [has, List.any_eq_true, Bool.and_eq_true, beq_iff_eq]

theorem mem_erase {type : RecordType} :
    r ∈ erase type pubkey db ↔ r ∈ db ∧ ¬ (r.type = type ∧ r.vchPubKey = pubkey) := by
  simp only [erase, List.mem_filter, Bool.not_eq_true', Bool.and_eq_false_iff, beq_eq_false_iff_ne,
    ne_eq, not_and_or]

/-- A record is written unless there is one that must not be overwritten. -/
theorem write_cases (r : WalletRecord) (fOverwrite : Bool) (db : WalletDB) :
    (write r fOverwrite db = (false, db) ∧ has r.type r.vchPubKey db = true) ∨
      write r fOverwrite db = (true, r :: erase r.type r.vchPubKey db) := by
  unfold write
  by_cases h : (!fOverwrite && has r.type r.vchPubKey db) = true
  · exact Or.inl ⟨if_pos h, (Bool.and_eq_true_iff.mp h).2⟩
  · exact Or.inr (if_neg h)

theorem write_of_not_has (h : has r.type r.vchPubKey db = false) :
    write r fOverwrite db = (true, r :: erase r.type r.vchPubKey db) :=
  (write_cases r fOverwrite db).resolve_left fun hcase => Bool.false_ne_true (h.symm.trans hcase.2)

theorem write_false {db' : WalletDB} (h : write r fOverwrite db = (false, db')) :
    db' = db ∧ has r.type r.vchPubKey db' = true := by
  rcases write_cases r fOverwrite db with ⟨heq, hhas⟩ | heq
  · obtain rfl := (Prod.mk.inj (heq.symm.trans h)).2
    exact ⟨rfl, hhas⟩
  · cases heq.symm.trans h

theorem mem_of_write_true {db' : WalletDB} (h : write r fOverwrite db = (true, db')) : r ∈ db' := by
  rcases write_cases r fOverwrite db with ⟨heq, -⟩ | heq
  · cases heq.symm.trans h
  · obtain rfl := (Prod.mk.inj (heq.symm.trans h)).2
    exact List.mem_cons_self

/-- What is written is for a public key, and its time is `T` ; other records stay. -/
structure Keeps (pubkey : CPubKey) (T : ℤ) (db db' : WalletDB) : Prop where
  of_mem : ∀ r ∈ db', r ∈ db ∨ r.vchPubKey = pubkey ∧ ∀ t, r = .keymeta pubkey t → t = T
  mem_of_ne : ∀ r ∈ db, r.vchPubKey ≠ pubkey → r ∈ db'

theorem Keeps.refl : Keeps pubkey T db db := ⟨fun _ hr => Or.inl hr, fun _ hr _ => hr⟩

theorem Keeps.erase {db' : WalletDB} (h : Keeps pubkey T db db') (type : RecordType) :
    Keeps pubkey T db (erase type pubkey db') where
  of_mem r hr := h.of_mem r (mem_erase.mp hr).1
  mem_of_ne r hr hne := mem_erase.mpr ⟨h.mem_of_ne r hr hne, fun heq => hne heq.2⟩

theorem Keeps.write {db' : WalletDB} (h : Keeps pubkey T db db') (hr : r.vchPubKey = pubkey)
    (ht : ∀ t, r = .keymeta pubkey t → t = T) : Keeps pubkey T db (write r fOverwrite db').2 := by
  rcases write_cases r fOverwrite db' with ⟨heq, -⟩ | heq
  · rw [heq]
    exact h
  · rw [heq, hr]
    have he := h.erase r.type
    exact ⟨List.forall_mem_cons.mpr ⟨Or.inr ⟨hr, ht⟩, he.of_mem⟩,
      fun r' hr' hne => List.mem_cons_of_mem _ (he.mem_of_ne r' hr' hne)⟩

theorem Keeps.writeTime {fOverwrite : Bool} {db' : WalletDB} {ok : Bool}
    (h : WalletDB.write (.keymeta pubkey T) fOverwrite db = (ok, db')) : Keeps pubkey T db db' := by
  have hk : Keeps pubkey T db (WalletDB.write (.keymeta pubkey T) fOverwrite db).2 :=
    Keeps.refl.write rfl fun t ht => (WalletRecord.keymeta.inj ht).2.symm
  rwa [h] at hk

/-- If something is written, there is a secret for the public key. -/
structure Files (pubkey : CPubKey) (T : ℤ) (db db' : WalletDB) : Prop extends
    Keeps pubkey T db db' where
  secret : db' = db ∨ has .key pubkey db' = true ∨ has .ckey pubkey db' = true

theorem files_writeKey : Files pubkey T db (db.writeKey pubkey secret T).2 := by
  unfold writeKey
  split
  · rename_i db₁ hw
    rw [(write_false hw).1]
    exact ⟨Keeps.refl, Or.inl rfl⟩
  · rename_i db₁ hw
    refine ⟨(Keeps.writeTime hw).write rfl nofun, Or.inr (Or.inl ?_)⟩
    cases hw₂ : write (.key pubkey secret) false db₁ with
    | mk ok db₂ =>
      cases ok with
      | false => exact (write_false hw₂).2
      | true => exact has_iff.mpr ⟨_, mem_of_write_true hw₂, rfl, rfl⟩

theorem files_writeCryptedKey : Files pubkey T db (db.writeCryptedKey pubkey c T).2 := by
  unfold writeCryptedKey
  split
  · rename_i db₁ hw
    rw [(write_false hw).1]
    exact ⟨Keeps.refl, Or.inl rfl⟩
  rename_i db₁ hw
  have hk : Keeps pubkey T db (write (.ckey pubkey c) false db₁).2 :=
    (Keeps.writeTime hw).write rfl nofun
  split
  · rename_i db₂ hw₂
    rw [hw₂] at hk
    exact ⟨hk, Or.inr (Or.inr (write_false hw₂).2)⟩
  · rename_i db₂ hw₂
    rw [hw₂] at hk
    refine ⟨hk.erase .key, Or.inr (Or.inr (has_iff.mpr ⟨.ckey pubkey c, ?_, rfl, rfl⟩))⟩
    exact mem_erase.mpr ⟨mem_of_write_true hw₂, nofun⟩

/-- Nothing stands in the way of a new public key. -/
theorem has_write_of_not (r : WalletRecord) (fOverwrite : Bool) (type : RecordType)
    (hnew : ∀ r ∈ db, r.vchPubKey ≠ pubkey) (hr : r.type ≠ type) (hpub : r.vchPubKey = pubkey) :
    ∃ db', write r fOverwrite db = (true, db') ∧ has type pubkey db' = false := by
  have hnot : ∀ type, has type pubkey db = false := fun type =>
    Bool.eq_false_iff.mpr fun hhas => by
      obtain ⟨r, hr, -, hpub⟩ := has_iff.mp hhas
      exact hnew r hr hpub
  refine ⟨_, write_of_not_has (by rw [hpub]; exact hnot _), Bool.eq_false_iff.mpr fun hhas => ?_⟩
  obtain ⟨r', hr', htype, hpub'⟩ := has_iff.mp hhas
  rcases List.mem_cons.mp hr' with rfl | hr'
  · exact hr htype
  · exact hnew r' (mem_erase.mp hr').1 hpub'

theorem writeKey_of_new (hnew : ∀ r ∈ db, r.vchPubKey ≠ pubkey) :
    (db.writeKey pubkey secret T).1 = true := by
  obtain ⟨db₁, hw, hnot⟩ := has_write_of_not (.keymeta pubkey T) false .key hnew nofun rfl
  have hw₂ : write (.key pubkey secret) false db₁ = _ := write_of_not_has hnot
  simp only [writeKey, hw, hw₂]

theorem writeCryptedKey_of_new (hnew : ∀ r ∈ db, r.vchPubKey ≠ pubkey) :
    (db.writeCryptedKey pubkey c T).1 = true := by
  obtain ⟨db₁, hw, hnot⟩ := has_write_of_not (.keymeta pubkey T) true .ckey hnew nofun rfl
  have hw₂ : write (.ckey pubkey c) false db₁ = _ := write_of_not_has hnot
  simp only [writeCryptedKey, hw, hw₂]

end WalletDB

end Records

/-! ## The keys of the store -/

section Store

variable {C : Crypto} {s s' : CCryptoKeyStore} {pubkey : CPubKey} {secret : CKey} {c : Bytes}
  {id : CKeyID}

namespace CCryptoKeyStore

/-- A store that is not encrypted has no encrypted keys. -/
def Plain (s : CCryptoKeyStore) : Prop := s.fUseCrypto = false → s.mapCryptedKeys = ∅

theorem contains_insert {β : Type} {m : Std.ExtTreeMap CKeyID β} {id' : CKeyID} {b : β} :
    (m.insert id' b).contains id = true ↔ m.contains id = true ∨ id = id' := by
  rw [Std.ExtTreeMap.contains_iff_mem, Std.ExtTreeMap.contains_iff_mem, Std.ExtTreeMap.mem_insert,
    Std.LawfulEqCmp.compare_eq_iff_eq, eq_comm, or_comm]

theorem Plain.setCrypted (h : s.Plain) (hset : s.setCrypted = (true, s')) :
    s'.Plain ∧ s'.fUseCrypto = true ∧ ∀ id, s'.haveKey id = s.haveKey id := by
  rcases setCrypted_cases s with ⟨hcrypto, heq⟩ | ⟨-, heq⟩ | ⟨hplain, hempty, heq⟩
  · obtain rfl := (Prod.mk.inj (heq.symm.trans hset)).2
    exact ⟨h, hcrypto, fun _ => rfl⟩
  · cases heq.symm.trans hset
  · obtain rfl := (Prod.mk.inj (heq.symm.trans hset)).2
    refine ⟨nofun, rfl, fun id => ?_⟩
    simp [haveKey, hplain, hempty, h hplain]

theorem Plain.lock (h : s.Plain) : s.lock.2.Plain ∧ ∀ id, s.lock.2.haveKey id = s.haveKey id := by
  unfold CCryptoKeyStore.lock
  split
  · rename_i s' hset
    rw [setCrypted_false s hset]
    exact ⟨h, fun _ => rfl⟩
  · rename_i s' hset
    obtain ⟨-, hcrypto, hkeys⟩ := h.setCrypted hset
    exact ⟨fun hplain => absurd (hcrypto.symm.trans hplain) nofun, hkeys⟩

theorem Plain.unlock (h : s.Plain) {vMasterKeyIn : Bytes} {ok : Bool}
    (hrun : s.unlock C vMasterKeyIn = some (ok, s')) :
    s'.Plain ∧ ∀ id, s'.haveKey id = s.haveKey id := by
  unfold CCryptoKeyStore.unlock at hrun
  split at hrun
  · rename_i s₁ hset
    obtain rfl := (Prod.mk.inj (Option.some.inj hrun)).2
    rw [setCrypted_false s hset]
    exact ⟨h, fun _ => rfl⟩
  · rename_i s₁ hset
    obtain ⟨h₁, hcrypto, hkeys⟩ := h.setCrypted hset
    obtain ⟨fits, -, hrun⟩ := Option.bind_eq_some_iff.mp hrun
    cases fits with
    | false =>
      obtain rfl := (Prod.mk.inj (Option.some.inj hrun)).2
      exact ⟨h₁, hkeys⟩
    | true =>
      obtain rfl := (Prod.mk.inj (Option.some.inj hrun)).2
      exact ⟨fun hplain => absurd (hcrypto.symm.trans hplain) nofun, hkeys⟩

/-- A key is in the store after `AddCryptedKey`, if that succeeds. -/
theorem Plain.addCryptedKey (h : s.Plain) (hadd : s.addCryptedKey C pubkey c = (true, s')) :
    s'.Plain ∧ ∀ id, s'.haveKey id = true ↔ s.haveKey id = true ∨ id = pubkey.getID C := by
  unfold CCryptoKeyStore.addCryptedKey at hadd
  split at hadd
  · cases hadd
  rename_i s₁ hset
  obtain ⟨-, hcrypto, hkeys⟩ := h.setCrypted hset
  obtain rfl := (Prod.mk.inj hadd).2
  refine ⟨fun hplain => absurd (hcrypto.symm.trans hplain) nofun, fun id => ?_⟩
  rw [← hkeys, haveKey, haveKey, hcrypto, if_neg (not_not.mpr rfl), if_neg (not_not.mpr rfl)]
  exact contains_insert

theorem addCryptedKey_false (hadd : s.addCryptedKey C pubkey c = (false, s')) : s' = s := by
  unfold CCryptoKeyStore.addCryptedKey at hadd
  split at hadd
  · rename_i s₁ hset
    rw [← (Prod.mk.inj hadd).2]
    exact setCrypted_false s hset
  · cases hadd

theorem Plain.addKeyPubKey (h : s.Plain) (hadd : s.addKeyPubKey C secret pubkey = (true, s')) :
    s'.Plain ∧ ∀ id, s'.haveKey id = true ↔ s.haveKey id = true ∨ id = pubkey.getID C := by
  unfold CCryptoKeyStore.addKeyPubKey at hadd
  cases hcrypto : s.fUseCrypto with
  | false =>
    rw [hcrypto, if_pos Bool.false_ne_true] at hadd
    obtain rfl := (Prod.mk.inj hadd).2
    refine ⟨fun _ => h hcrypto, fun id => ?_⟩
    rw [haveKey, haveKey, hcrypto, if_pos Bool.false_ne_true, if_pos Bool.false_ne_true]
    exact contains_insert
  | true =>
    rw [hcrypto, if_neg (not_not.mpr rfl)] at hadd
    split at hadd
    · cases hadd
    split at hadd
    · cases hadd
    · exact h.addCryptedKey hadd

end CCryptoKeyStore

end Store

/-! ## What is kept -/

namespace KeyWallet

variable {C : Crypto} {w w' : KeyWallet} {pubkey : CPubKey} {secret : CKey} {c : Bytes}

/-- The file has a time with every secret and the store all keys of the file ; no time in the file
or of a key that is still to come is negative. -/
structure Filed (C : Crypto) (w : KeyWallet) : Prop where
  plain : w.store.Plain
  createTime : ∀ id, w.store.haveKey id = false → 0 ≤ w.createTime id
  time : ∀ vchPubKey nCreateTime, .keymeta vchPubKey nCreateTime ∈ w.db → 0 ≤ nCreateTime
  secret : ∀ vchPubKey nCreateTime, .keymeta vchPubKey nCreateTime ∈ w.db →
    w.db.has .key vchPubKey = true ∨ w.db.has .ckey vchPubKey = true
  haveKey : ∀ r ∈ w.db, w.store.haveKey (r.vchPubKey.getID C) = true

theorem Filed.empty : Filed C {} where
  plain _ := rfl
  createTime id _ := by simp [KeyWallet.createTime]
  time := nofun
  secret := nofun
  haveKey := nofun

/-- The records that are written for a key that is in the store. -/
theorem Filed.files (h : Filed C w) {store : CCryptoKeyStore} {db : WalletDB}
    (hplain : store.Plain) (hkeys : ∀ id, store.haveKey id = true ↔
      w.store.haveKey id = true ∨ id = pubkey.getID C)
    (htime : 0 ≤ w.createTime (pubkey.getID C))
    (hdb : WalletDB.Files pubkey (w.createTime (pubkey.getID C)) w.db db) :
    Filed C { w with store, db } where
  plain := hplain
  createTime id hid := by
    refine h.createTime id (Bool.eq_false_iff.mpr fun htrue => ?_)
    exact Bool.false_ne_true (hid.symm.trans ((hkeys id).mpr (Or.inl htrue)))
  time vchPubKey nCreateTime hmem := by
    rcases hdb.of_mem _ hmem with hold | ⟨rfl, heq⟩
    · exact h.time vchPubKey nCreateTime hold
    · rw [heq nCreateTime rfl]
      exact htime
  secret vchPubKey nCreateTime hmem := by
    rcases hdb.secret with rfl | hsecret
    · exact h.secret vchPubKey nCreateTime hmem
    by_cases hpub : vchPubKey = pubkey
    · rw [hpub]
      exact hsecret
    · have hold := (hdb.of_mem _ hmem).resolve_right fun hnew => hpub hnew.1
      have hhas : ∀ type, WalletDB.has type vchPubKey w.db = true →
          WalletDB.has type vchPubKey db = true := by
        intro type htype
        obtain ⟨r, hr, htype, hrpub⟩ := WalletDB.has_iff.mp htype
        exact WalletDB.has_iff.mpr ⟨r, hdb.mem_of_ne r hr (hrpub ▸ hpub), htype, hrpub⟩
      exact (h.secret vchPubKey nCreateTime hold).imp (hhas .key) (hhas .ckey)
  haveKey r hr := by
    rcases hdb.of_mem r hr with hold | ⟨hpub, -⟩
    · exact (hkeys _).mpr (Or.inl (h.haveKey r hold))
    · exact (hkeys _).mpr (Or.inr (by rw [hpub]))

/-- A key that is not in the store has no records. -/
theorem Filed.new (h : Filed C w) (hnew : w.store.haveKey (pubkey.getID C) = false) :
    ∀ r ∈ w.db, r.vchPubKey ≠ pubkey := by
  rintro r hr rfl
  exact Bool.false_ne_true (hnew.symm.trans (h.haveKey r hr))

/-- What `AddKeyPubKey` does : the key is there if it was or if it returns true. -/
structure Adds (C : Crypto) (pubkey : CPubKey) (w : KeyWallet) (r : Bool × KeyWallet) : Prop where
  filed : Filed C r.2
  createTime : ∀ id, r.2.createTime id = w.createTime id
  nTimeFirstKey : r.2.nTimeFirstKey = w.nTimeFirstKey
  haveKey : ∀ id, r.2.store.haveKey id = true ↔
    w.store.haveKey id = true ∨ (r.1 = true ∧ id = pubkey.getID C)

theorem Adds.refl (h : Filed C w) : Adds C pubkey w (false, w) :=
  ⟨h, fun _ => rfl, rfl, fun _ => by simp⟩

/-- A key whose addition to the file could only fail because it was there before. -/
theorem haveKey_iff_of_new {store : CCryptoKeyStore} {ok : Bool} {id : CKeyID}
    (hkeys : ∀ id, store.haveKey id = true ↔ w.store.haveKey id = true ∨ id = pubkey.getID C)
    (hok : w.store.haveKey (pubkey.getID C) = false → ok = true) :
    store.haveKey id = true ↔ w.store.haveKey id = true ∨ (ok = true ∧ id = pubkey.getID C) := by
  rw [hkeys]
  cases hhave : w.store.haveKey (pubkey.getID C) with
  | false => rw [hok hhave, eq_self_iff_true, true_and]
  | true =>
    constructor
    · rintro (hid | rfl)
      · exact Or.inl hid
      · exact Or.inl hhave
    · exact fun hid => hid.imp_right fun h => h.2

theorem Filed.addCryptedKey (h : Filed C w) (htime : 0 ≤ w.createTime (pubkey.getID C)) :
    Adds C pubkey w (w.addCryptedKey C pubkey c) := by
  unfold KeyWallet.addCryptedKey
  split
  · rename_i store hadd
    rw [CCryptoKeyStore.addCryptedKey_false hadd]
    exact Adds.refl h
  · rename_i store hadd
    obtain ⟨hplain, hkeys⟩ := h.plain.addCryptedKey hadd
    exact ⟨h.files hplain hkeys htime WalletDB.files_writeCryptedKey, fun _ => rfl, rfl, fun id =>
      haveKey_iff_of_new hkeys fun hnew => WalletDB.writeCryptedKey_of_new (h.new hnew)⟩

theorem Filed.addKeyPubKey (h : Filed C w) (htime : 0 ≤ w.createTime (pubkey.getID C)) :
    Adds C pubkey w (w.addKeyPubKey C secret pubkey) := by
  unfold KeyWallet.addKeyPubKey
  split
  · rename_i hcrypto
    have hadd : w.store.addKeyPubKey C secret pubkey =
        (true, (w.store.addKeyPubKey C secret pubkey).2) := by
      rw [CCryptoKeyStore.addKeyPubKey, if_pos hcrypto]
    obtain ⟨hplain, hkeys⟩ := h.plain.addKeyPubKey hadd
    exact ⟨h.files hplain hkeys htime WalletDB.files_writeKey, fun _ => rfl, rfl, fun id =>
      haveKey_iff_of_new hkeys fun hnew => WalletDB.writeKey_of_new (h.new hnew)⟩
  split
  · exact Adds.refl h
  split
  · exact Adds.refl h
  · exact h.addCryptedKey htime

end KeyWallet

/-! ## The earliest time -/

/-- The times of the `keymeta` records. -/
def keyTimes (order : WalletDB) : List ℤ :=
  order.filterMap fun
    | .keymeta _ nCreateTime => some nCreateTime
    | _ => none

/-- The times that are read after the last unknown one, from the last to the first. -/
def timesAfterUnknown (times : List ℤ) : List ℤ := times.reverse.takeWhile (· ≠ 0)

theorem earliest_idem (T v : ℤ) : earliest T (earliest T v) = earliest T v := by
  unfold earliest
  split_ifs
  · rfl
  · rfl
  · rfl

/-- All times folded : the earliest of those after the last unknown one, or no value. -/
theorem foldl_earliest (times : List ℤ) (hnonneg : ∀ T ∈ times, 0 ≤ T) :
    (timesAfterUnknown times = [] ∧ times.foldl (fun v T => earliest T v) 0 = 0) ∨
      (0 < times.foldl (fun v T => earliest T v) 0 ∧
        times.foldl (fun v T => earliest T v) 0 ∈ timesAfterUnknown times ∧
        ∀ T ∈ timesAfterUnknown times, times.foldl (fun v T => earliest T v) 0 ≤ T) := by
  induction times using List.reverseRecOn with
  | nil => exact Or.inl ⟨rfl, rfl⟩
  | append_singleton times T ih =>
    have hT : 0 ≤ T := hnonneg T (List.mem_append_right _ (List.mem_singleton_self T))
    have htail : timesAfterUnknown (times ++ [T]) =
        if T ≠ 0 then T :: timesAfterUnknown times else [] := by
      rw [timesAfterUnknown, List.reverse_append, List.reverse_singleton, List.singleton_append,
        List.takeWhile_cons]
      simp only [decide_eq_true_eq]
      rfl
    rw [List.foldl_append, List.foldl_cons, List.foldl_nil, htail]
    have ih := ih fun T hT => hnonneg T (List.mem_append_left _ hT)
    generalize times.foldl (fun v T => earliest T v) 0 = v at ih ⊢
    generalize timesAfterUnknown times = tail at ih ⊢
    by_cases hzero : T = 0
    · refine Or.inl ⟨if_neg (not_not.mpr hzero), ?_⟩
      rcases ih with ⟨-, rfl⟩ | ⟨hpos, -⟩
      · rw [earliest, if_pos (Or.inl rfl), hzero]
      · rw [earliest, if_pos (Or.inr (hzero.trans_lt hpos)), hzero]
    · rw [if_pos hzero]
      have hTpos : 0 < T := lt_of_le_of_ne hT (Ne.symm hzero)
      rcases ih with ⟨rfl, rfl⟩ | ⟨hpos, hmem, hle⟩
      · rw [earliest, if_pos (Or.inl rfl)]
        exact Or.inr ⟨hTpos, List.mem_cons_self, List.forall_mem_singleton.mpr le_rfl⟩
      unfold earliest
      split_ifs with hlt
      · have hlt : T < v := hlt.resolve_left hpos.ne'
        exact Or.inr ⟨hTpos, List.mem_cons_self,
          List.forall_mem_cons.mpr ⟨le_rfl, fun t ht => hlt.le.trans (hle t ht)⟩⟩
      · rw [not_or, not_lt] at hlt
        exact Or.inr ⟨hpos, List.mem_cons_of_mem _ hmem, List.forall_mem_cons.mpr ⟨hlt.2, hle⟩⟩

namespace KeyWallet

variable {C : Crypto} {w w' : KeyWallet} {pubkey : CPubKey} {secret : CKey} {id : CKeyID} {T v : ℤ}

theorem createTime_setCreateTime (i : CKeyID) :
    (w.setCreateTime id T).createTime i = if i = id then T else w.createTime i := by
  rw [createTime, setCreateTime, congrFun getElem?_insert_eq i]
  by_cases hi : i = id
  · rw [hi, Function.update_self, if_pos rfl, Option.getD_some]
  · rw [Function.update_of_ne hi, if_neg hi, createTime]

theorem Filed.setCreateTime (h : Filed C w) (hT : w.store.haveKey id = true ∨ 0 ≤ T) :
    Filed C (w.setCreateTime id T) where
  plain := h.plain
  createTime i hi := by
    rw [createTime_setCreateTime]
    by_cases heq : i = id
    · rw [if_pos heq]
      refine hT.resolve_left fun hhave => ?_
      rw [heq] at hi
      exact Bool.false_ne_true (hi.symm.trans hhave)
    · rw [if_neg heq]
      exact h.createTime i hi
  time := h.time
  secret := h.secret
  haveKey := h.haveKey

theorem Filed.setTimeFirstKey (h : Filed C w) : Filed C { w with nTimeFirstKey := v } :=
  ⟨h.plain, h.createTime, h.time, h.secret, h.haveKey⟩

theorem Filed.seeTime (h : Filed C w) : Filed C (w.seeTime T) := h.setTimeFirstKey

theorem Filed.setStore (h : Filed C w) {store : CCryptoKeyStore} (hplain : store.Plain)
    (hkeys : ∀ id, store.haveKey id = w.store.haveKey id) : Filed C { w with store } where
  plain := hplain
  createTime i hi := h.createTime i (by rwa [← hkeys])
  time := h.time
  secret := h.secret
  haveKey r hr := by
    rw [hkeys]
    exact h.haveKey r hr

/-- What the lines of a dump have imported : the wallet is bounded by `nTimeBegin` where its keys
are new. -/
structure Imports (C : Crypto) (w : KeyWallet) (st : Bool × ℤ × KeyWallet) : Prop where
  filed : Filed C st.2.2
  nTimeFirstKey : st.2.2.nTimeFirstKey = w.nTimeFirstKey
  haveKey : ∀ id, w.store.haveKey id = true → st.2.2.store.haveKey id = true
  le : ∀ id, st.2.2.store.haveKey id = true → w.store.haveKey id = true ∨
    st.2.1 ≤ st.2.2.createTime id

theorem Imports.importLine {st st' : Bool × ℤ × KeyWallet} (h : Imports C w st) {line : CKey × ℤ}
    (hrun : importLine C st line = some st') : Imports C w st' := by
  obtain ⟨pubkey, -, hrun⟩ := Option.bind_eq_some_iff.mp hrun
  split at hrun
  · obtain rfl := Option.some.inj hrun
    exact h
  rename_i hnew
  have hadds : Adds C pubkey st.2.2 (st.2.2.addKeyPubKey C line.1 pubkey) := h.filed.addKeyPubKey
    (h.filed.createTime (pubkey.getID C) (Bool.eq_false_iff.mpr hnew))
  split at hrun
  · rename_i w₁ hadd
    rw [hadd] at hadds
    obtain rfl := Option.some.inj hrun
    have hkeys : ∀ id, w₁.store.haveKey id = true ↔ st.2.2.store.haveKey id = true := fun id => by
      rw [hadds.haveKey]
      simp
    refine ⟨hadds.filed, hadds.nTimeFirstKey.trans h.nTimeFirstKey,
      fun id hid => (hkeys id).mpr (h.haveKey id hid), fun id hid => ?_⟩
    rw [hadds.createTime]
    exact h.le id ((hkeys id).mp hid)
  · rename_i w₁ hadd
    rw [hadd] at hadds
    obtain rfl := Option.some.inj hrun
    have hhave : w₁.store.haveKey (pubkey.getID C) = true := (hadds.haveKey _).mpr (Or.inr ⟨rfl, rfl⟩)
    refine ⟨hadds.filed.setCreateTime (Or.inl hhave), hadds.nTimeFirstKey.trans h.nTimeFirstKey,
      fun id hid => (hadds.haveKey id).mpr (Or.inl (h.haveKey id hid)), fun id hid => ?_⟩
    rw [createTime_setCreateTime]
    by_cases heq : id = pubkey.getID C
    · rw [if_pos heq]
      exact Or.inr (min_le_right _ _)
    · rw [if_neg heq, hadds.createTime]
      have hold := ((hadds.haveKey id).mp hid).resolve_right fun hcase => heq hcase.2
      exact (h.le id hold).imp_right fun hle => (min_le_left _ _).trans hle

theorem imports_of_lines (h : Filed C w) {lines : List (CKey × ℤ)} {nTimeBegin : ℤ}
    {st : Bool × ℤ × KeyWallet}
    (hrun : lines.foldlM (importLine C) (true, nTimeBegin, w) = some st) : Imports C w st :=
  Machine.invariant_of_foldlM (fun _ _ _ hst hstep => hst.importLine hstep) lines hrun
    ⟨h, rfl, fun _ hid => hid, fun _ hid => Or.inl hid⟩

/-! ## Loading -/

/-- What is read from records : the keys with a secret, and the earliest time. -/
structure Reads (C : Crypto) (l : WalletDB) (w w' : KeyWallet) : Prop where
  plain : w'.store.Plain
  db : w'.db = w.db
  haveKey : ∀ id, w'.store.haveKey id = true ↔ w.store.haveKey id = true ∨
    ∃ r ∈ l, r.type ≠ .keymeta ∧ r.vchPubKey.getID C = id
  nTimeFirstKey : w'.nTimeFirstKey = (keyTimes l).foldl (fun v T => earliest T v) w.nTimeFirstKey
  createTime : (∀ id, 0 ≤ w.createTime id) → (∀ T ∈ keyTimes l, 0 ≤ T) → ∀ id, 0 ≤ w'.createTime id

theorem reads_readKeyValue {st st' : CWalletScanState × KeyWallet} (h : st.2.store.Plain)
    {r : WalletRecord} (hrun : readKeyValue C st r = some st') : Reads C [r] st.2 st'.2 := by
  cases r with
  | key vchPubKey secret =>
    rw [readKeyValue] at hrun
    split at hrun
    · cases hrun
    split at hrun
    · cases hrun
    rename_i store hadd
    obtain rfl := Option.some.inj hrun
    obtain ⟨hplain, hkeys⟩ := h.addKeyPubKey hadd
    refine ⟨hplain, rfl, fun id => ?_, rfl, fun htimes _ => htimes⟩
    rw [hkeys]
    simp only [List.mem_singleton, exists_eq_left]
    exact or_congr_right ⟨fun heq => ⟨nofun, heq.symm⟩, fun heq => heq.2.symm⟩
  | ckey vchPubKey c =>
    rw [readKeyValue] at hrun
    split at hrun
    · cases hrun
    rename_i store hadd
    obtain rfl := Option.some.inj hrun
    obtain ⟨hplain, hkeys⟩ := h.addCryptedKey hadd
    refine ⟨hplain, rfl, fun id => ?_, rfl, fun htimes _ => htimes⟩
    rw [hkeys]
    simp only [List.mem_singleton, exists_eq_left]
    exact or_congr_right ⟨fun heq => ⟨nofun, heq.symm⟩, fun heq => heq.2.symm⟩
  | keymeta vchPubKey nCreateTime =>
    obtain rfl := Option.some.inj hrun
    have htime : ∀ id, (loadKeyMetadata C vchPubKey nCreateTime st.2).createTime id =
        if id = vchPubKey.getID C then nCreateTime else st.2.createTime id := by
      intro id
      rw [loadKeyMetadata, createTime_setCreateTime]
      split_ifs <;> rfl
    have hfirst : earliest nCreateTime (loadKeyMetadata C vchPubKey nCreateTime st.2).nTimeFirstKey =
        earliest nCreateTime st.2.nTimeFirstKey := by
      unfold loadKeyMetadata
      split_ifs
      · exact earliest_idem _ _
      · rfl
    have hstore : (loadKeyMetadata C vchPubKey nCreateTime st.2).store = st.2.store ∧
        (loadKeyMetadata C vchPubKey nCreateTime st.2).db = st.2.db := by
      unfold loadKeyMetadata
      split_ifs <;> exact ⟨rfl, rfl⟩
    refine ⟨hstore.1 ▸ h, hstore.2, fun id => ?_, hfirst, fun htimes hT id => ?_⟩
    · change (loadKeyMetadata C vchPubKey nCreateTime st.2).store.haveKey id = true ↔ _
      rw [hstore.1]
      simp only [List.mem_singleton, exists_eq_left]
      exact (or_iff_left fun hcase => hcase.1 rfl).symm
    · change 0 ≤ (loadKeyMetadata C vchPubKey nCreateTime st.2).createTime id
      rw [htime]
      split_ifs
      · exact hT _ (List.mem_singleton_self _)
      · exact htimes id

theorem keyTimes_cons (r : WalletRecord) (l : WalletDB) :
    keyTimes (r :: l) = keyTimes [r] ++ keyTimes l := by
  rw [keyTimes, ← List.singleton_append, List.filterMap_append]
  rfl

theorem reads_of_foldlM : ∀ (l : WalletDB) {st st' : CWalletScanState × KeyWallet},
    st.2.store.Plain → l.foldlM (readKeyValue C) st = some st' → Reads C l st.2 st'.2
  | [], st, st', h, hrun => by
    obtain rfl := Option.some.inj hrun
    exact ⟨h, rfl, fun id => by simp, rfl, fun htimes _ => htimes⟩
  | r :: l, st, st', h, hrun => by
    rw [List.foldlM_cons] at hrun
    obtain ⟨st₁, hstep, hrun⟩ := Option.bind_eq_some_iff.mp hrun
    have h₁ := reads_readKeyValue h hstep
    have h₂ := reads_of_foldlM l h₁.plain hrun
    refine ⟨h₂.plain, h₂.db.trans h₁.db, fun id => ?_, ?_, fun htimes hT => ?_⟩
    · rw [h₂.haveKey, h₁.haveKey]
      simp only [List.exists_mem_cons_iff, List.not_mem_nil, false_and, exists_false, or_false,
        or_assoc]
    · rw [h₂.nTimeFirstKey, h₁.nTimeFirstKey, keyTimes_cons r l, List.foldl_append]
    · rw [keyTimes_cons r l] at hT
      exact h₂.createTime (h₁.createTime htimes fun T hmem => hT T (List.mem_append_left _ hmem))
        fun T hmem => hT T (List.mem_append_right _ hmem)

theorem mem_keyTimes {l : WalletDB} : T ∈ keyTimes l ↔ ∃ vchPubKey, .keymeta vchPubKey T ∈ l := by
  rw [keyTimes, List.mem_filterMap]
  constructor
  · rintro ⟨r, hr, hT⟩
    cases r with
    | key => cases hT
    | ckey => cases hT
    | keymeta vchPubKey nCreateTime =>
      obtain rfl := Option.some.inj hT
      exact ⟨vchPubKey, hr⟩
  · rintro ⟨vchPubKey, hr⟩
    exact ⟨_, hr, rfl⟩

/-- What a reloaded wallet is : its keys were there, and the bound is 1, or the times folded. -/
theorem Filed.loadWallet (h : Filed C w) {order : WalletDB} (hrun : w.loadWallet C order = some w') :
    Filed C w' ∧ (∀ id, w'.store.haveKey id = true → w.store.haveKey id = true) ∧
      (w'.nTimeFirstKey = 1 ∨
        w'.nTimeFirstKey = (keyTimes order).foldl (fun v T => earliest T v) 0) ∧
      ∀ T ∈ keyTimes order, 0 ≤ T := by
  unfold KeyWallet.loadWallet at hrun
  split at hrun
  · rename_i hperm
    have hmem : ∀ r, r ∈ order ↔ r ∈ w.db := fun r => (List.isPerm_iff.mp hperm).mem_iff
    obtain ⟨⟨wss, w₁⟩, hread, hrun⟩ := Option.bind_eq_some_iff.mp hrun
    have hr := reads_of_foldlM order (fun _ => rfl) hread
    have hT : ∀ T ∈ keyTimes order, 0 ≤ T := by
      intro T hT
      obtain ⟨vchPubKey, hT⟩ := mem_keyTimes.mp hT
      exact h.time vchPubKey T ((hmem _).mp hT)
    have hkeys : ∀ id, w₁.store.haveKey id = true ↔
        ∃ r ∈ order, r.type ≠ .keymeta ∧ r.vchPubKey.getID C = id := fun id => by
      rw [hr.haveKey]
      exact or_iff_right (by simp [CCryptoKeyStore.haveKey])
    have hfiled : Filed C w₁ := by
      refine ⟨hr.plain, fun id _ => hr.createTime (fun _ => le_of_eq rfl) hT id, ?_, ?_, ?_⟩
      · rw [hr.db]
        exact h.time
      · rw [hr.db]
        exact h.secret
      · rw [hr.db]
        intro r hrmem
        rw [hkeys]
        have hhas : ∀ type, type ≠ .keymeta → WalletDB.has type r.vchPubKey w.db = true →
            ∃ r' ∈ order, r'.type ≠ .keymeta ∧ r'.vchPubKey.getID C = r.vchPubKey.getID C := by
          intro type htype hhas
          obtain ⟨r', hr', rfl, hpub⟩ := WalletDB.has_iff.mp hhas
          exact ⟨r', (hmem r').mpr hr', htype, by rw [hpub]⟩
        cases r with
        | key vchPubKey secret => exact ⟨_, (hmem _).mpr hrmem, nofun, rfl⟩
        | ckey vchPubKey c => exact ⟨_, (hmem _).mpr hrmem, nofun, rfl⟩
        | keymeta vchPubKey nCreateTime =>
          rcases h.secret vchPubKey nCreateTime hrmem with hsecret | hsecret
          · exact hhas .key nofun hsecret
          · exact hhas .ckey nofun hsecret
    have hsub : ∀ id, w₁.store.haveKey id = true → w.store.haveKey id = true := by
      intro id hid
      obtain ⟨r, hrmem, -, rfl⟩ := (hkeys id).mp hid
      exact h.haveKey r ((hmem r).mp hrmem)
    dsimp only at hrun
    split at hrun
    · obtain rfl := Option.some.inj hrun
      exact ⟨hfiled.setTimeFirstKey, hsub, Or.inl rfl, hT⟩
    · obtain rfl := Option.some.inj hrun
      exact ⟨hfiled, hsub, Or.inr hr.nTimeFirstKey, hT⟩
  · cases hrun

end KeyWallet

/-! ## Runs -/

/-- A wallet with the times at which its keys were created, or which the dumps have for them. -/
structure AgedWallet where
  wallet : KeyWallet := {}
  birth : CKeyID → ℤ := fun _ => 0

/-- A call on a wallet. -/
inductive KeyCall where
  | generateNewKey (secret : CKey) (nCreationTime : ℕ)
  | importPrivKey (key : CKey)
  | importWallet (nTime : UInt32) (lines : List (CKey × ℤ))
  | loadWallet (order : WalletDB)
  | lock
  | unlock (vMasterKeyIn : Bytes)

namespace AgedWallet

variable (C : Crypto)

/-- The birth of a new key is the time that the call has set. -/
def after (s : AgedWallet) (w : KeyWallet) : AgedWallet where
  wallet := w
  birth id := if s.wallet.store.haveKey id then s.birth id else w.createTime id

def withStore (s : AgedWallet) (store : CCryptoKeyStore) : AgedWallet :=
  { s with wallet := { s.wallet with store } }

def call (s : AgedWallet) : KeyCall → Option AgedWallet
  | .generateNewKey secret nCreationTime =>
    (s.wallet.generateNewKey C secret nCreationTime).map fun r => s.after r.2
  | .importPrivKey key => (s.wallet.importPrivKey C key).map fun r => s.after r.2
  | .importWallet nTime lines => (s.wallet.importWallet C nTime lines).map fun r => s.after r.2
  | .loadWallet order => (s.wallet.loadWallet C order).map fun w => { s with wallet := w }
  | .lock => some (s.withStore s.wallet.store.lock.2)
  | .unlock vMasterKeyIn => (s.wallet.store.unlock C vMasterKeyIn).map fun r => s.withStore r.2

/-- A time that stands for a scan from the start or is not after the birth of a key. -/
def NotLate (s : AgedWallet) (T : ℤ) : Prop :=
  T = 0 ∨ T = 1 ∨ ∀ id, s.wallet.store.haveKey id = true → T ≤ s.birth id

def Bounded (s : AgedWallet) : Prop := s.NotLate s.wallet.nTimeFirstKey

/-- A time does not replace `nTimeFirstKey` if a key of the wallet is older. -/
def MayReplace (s : AgedWallet) (T : ℤ) : Prop :=
  (s.wallet.nTimeFirstKey = 0 ∨ T < s.wallet.nTimeFirstKey) → s.NotLate T

/-- The times that a call sees are not late where they count : that of a new key, the earliest of
the tip and of the keys that are imported, and of the times read after the last unknown one. -/
def Meets (s : AgedWallet) : KeyCall → Prop
  | .generateNewKey _ nCreationTime => s.MayReplace nCreationTime
  | .importWallet nTime lines => ∀ st,
    lines.foldlM (KeyWallet.importLine C) (true, (nTime.toNat : ℤ), s.wallet) = some st →
      s.MayReplace st.2.1
  | .loadWallet order => timesAfterUnknown (keyTimes order) = [] ∨
    ∃ T ∈ timesAfterUnknown (keyTimes order), s.NotLate T
  | _ => True

variable {C} {s s' : AgedWallet} {w : KeyWallet}

theorem NotLate.mono {T : ℤ} (h : s.NotLate T)
    (hkeys : ∀ id, s'.wallet.store.haveKey id = true →
      s.wallet.store.haveKey id = true ∧ s'.birth id = s.birth id) : s'.NotLate T := by
  refine h.imp_right (Or.imp_right fun hle id hid => ?_)
  rw [(hkeys id hid).2]
  exact hle id (hkeys id hid).1

/-- A time that replaces `nTimeFirstKey` where it may, and is not after the birth of new keys. -/
theorem Bounded.after (h : s.Bounded) {T : ℤ} (hT : s.MayReplace T)
    (hfirst : w.nTimeFirstKey = earliest T s.wallet.nTimeFirstKey)
    (hnew : ∀ id, w.store.haveKey id = true →
      s.wallet.store.haveKey id = true ∨ T ≤ w.createTime id) : (s.after w).Bounded := by
  -- the keys that are new are not older than `T`
  have hextend : ∀ v, s.NotLate v → v ≤ T ∨ v = 1 ∨ v = 0 → (s.after w).NotLate v := by
    intro v hv hvT
    rcases hv with hv | hv | hv
    · exact Or.inl hv
    · exact Or.inr (Or.inl hv)
    rcases hvT with hvT | hv | hv
    · refine Or.inr (Or.inr fun id hid => ?_)
      change v ≤ if s.wallet.store.haveKey id = true then s.birth id else w.createTime id
      split_ifs with hold
      · exact hv id hold
      · exact hvT.trans ((hnew id hid).resolve_left hold)
    · exact Or.inr (Or.inl hv)
    · exact Or.inl hv
  change (s.after w).NotLate w.nTimeFirstKey
  rw [hfirst, earliest]
  split_ifs with hreplace
  · exact hextend T (hT hreplace) (Or.inl le_rfl)
  · rw [not_or, not_lt] at hreplace
    exact hextend _ h (Or.inl hreplace.2)

/-- What every call keeps that meets the condition. -/
structure Inv (C : Crypto) (s : AgedWallet) : Prop where
  filed : s.wallet.Filed C
  bounded : s.Bounded

theorem Inv.generateNewKey (h : Inv C s) {secret : CKey} {nCreationTime : ℕ}
    {r : Except String CPubKey × KeyWallet} (hT : s.MayReplace nCreationTime)
    (hrun : s.wallet.generateNewKey C secret nCreationTime = some r) : Inv C (s.after r.2) := by
  obtain ⟨pubkey, -, hrun⟩ := Option.bind_eq_some_iff.mp hrun
  obtain ⟨w, hw⟩ : ∃ w, w = (s.wallet.setCreateTime (pubkey.getID C) nCreationTime).seeTime
    nCreationTime := ⟨_, rfl⟩
  have htime : ∀ id, w.createTime id = if id = pubkey.getID C then (nCreationTime : ℤ)
      else s.wallet.createTime id := by
    rw [hw]
    exact KeyWallet.createTime_setCreateTime
  have hfiled : w.Filed C := by
    rw [hw]
    exact (h.filed.setCreateTime (Or.inr (Int.natCast_nonneg _))).seeTime
  have hadds : KeyWallet.Adds C pubkey w (w.addKeyPubKey C secret pubkey) := hfiled.addKeyPubKey (by
    rw [htime, if_pos rfl]
    exact Int.natCast_nonneg _)
  have hr : r.2 = (w.addKeyPubKey C secret pubkey).2 := by
    rw [hw]
    dsimp only at hrun
    split at hrun
    · rename_i w₁ hadd
      rw [hadd, ← Option.some.inj hrun]
    · rename_i w₁ hadd
      rw [hadd, ← Option.some.inj hrun]
  rw [hr]
  refine ⟨hadds.filed, h.bounded.after hT ?_ fun id hid => ?_⟩
  · rw [hadds.nTimeFirstKey, hw]
    rfl
  · rw [hadds.createTime, htime]
    rcases (hadds.haveKey id).mp hid with hold | ⟨-, heq⟩
    · rw [hw] at hold
      exact Or.inl hold
    · rw [if_pos heq]
      exact Or.inr le_rfl

theorem Inv.importPrivKey (h : Inv C s) {key : CKey} {r : Except String Unit × KeyWallet}
    (hrun : s.wallet.importPrivKey C key = some r) : Inv C (s.after r.2) := by
  have hsame : Inv C (s.after s.wallet) := by
    refine ⟨h.filed, h.bounded.mono fun id hid => ⟨hid, if_pos hid⟩⟩
  unfold KeyWallet.importPrivKey at hrun
  split at hrun
  · obtain rfl := Option.some.inj hrun
    exact hsame
  split at hrun
  · obtain rfl := Option.some.inj hrun
    exact hsame
  obtain ⟨pubkey, -, hrun⟩ := Option.bind_eq_some_iff.mp hrun
  split at hrun
  · obtain rfl := Option.some.inj hrun
    exact hsame
  have hadds : KeyWallet.Adds C pubkey (s.wallet.setCreateTime (pubkey.getID C) 1)
      ((s.wallet.setCreateTime (pubkey.getID C) 1).addKeyPubKey C key pubkey) :=
    (h.filed.setCreateTime (Or.inr zero_le_one)).addKeyPubKey (by
      rw [KeyWallet.createTime_setCreateTime, if_pos rfl]
      exact zero_le_one)
  split at hrun
  · rename_i w hadd
    rw [hadd] at hadds
    obtain rfl := Option.some.inj hrun
    refine ⟨hadds.filed, ?_⟩
    change (s.after w).NotLate w.nTimeFirstKey
    rw [hadds.nTimeFirstKey]
    refine h.bounded.mono fun id hid => ?_
    have hold := ((hadds.haveKey id).mp hid).resolve_right fun hcase => Bool.false_ne_true hcase.1
    exact ⟨hold, if_pos hold⟩
  · rename_i w hadd
    rw [hadd] at hadds
    obtain rfl := Option.some.inj hrun
    exact ⟨hadds.filed.setTimeFirstKey, Or.inr (Or.inl rfl)⟩

theorem Inv.importWallet (h : Inv C s) {nTime : UInt32} {lines : List (CKey × ℤ)}
    {r : Except String Unit × KeyWallet} (hT : s.Meets C (.importWallet nTime lines))
    (hrun : s.wallet.importWallet C nTime lines = some r) : Inv C (s.after r.2) := by
  unfold KeyWallet.importWallet at hrun
  split at hrun
  · obtain rfl := Option.some.inj hrun
    exact ⟨h.filed, h.bounded.mono fun id hid => ⟨hid, if_pos hid⟩⟩
  obtain ⟨⟨fGood, nTimeBegin, w⟩, hlines, hrun⟩ := Option.bind_eq_some_iff.mp hrun
  have hi := KeyWallet.imports_of_lines h.filed hlines
  have hr : r.2 = w.seeTime nTimeBegin := by
    dsimp only at hrun
    split at hrun
    · rw [← Option.some.inj hrun]
    · rw [← Option.some.inj hrun]
  rw [hr]
  refine ⟨hi.filed.seeTime, h.bounded.after (hT _ hlines) ?_ hi.le⟩
  exact congrArg (earliest nTimeBegin) hi.nTimeFirstKey

theorem Inv.loadWallet (h : Inv C s) {order : WalletDB} (hT : s.Meets C (.loadWallet order))
    (hrun : s.wallet.loadWallet C order = some w) : Inv C { s with wallet := w } := by
  obtain ⟨hfiled, hsub, hfirst, hnonneg⟩ := h.filed.loadWallet hrun
  refine ⟨hfiled, ?_⟩
  change AgedWallet.NotLate _ w.nTimeFirstKey
  rcases hfirst with hfirst | hfirst
  · exact Or.inr (Or.inl hfirst)
  rw [hfirst]
  rcases foldl_earliest (keyTimes order) hnonneg with ⟨-, hzero⟩ | ⟨hpos, hmem, hle⟩
  · exact Or.inl hzero
  generalize (keyTimes order).foldl (fun v T => earliest T v) 0 = v at hpos hmem hle ⊢
  rcases hT with hnil | ⟨T, hTmem, hlate⟩
  · rw [hnil] at hmem
    cases hmem
  have hvT := hle T hTmem
  rcases hlate with rfl | rfl | hlate
  · omega
  · exact Or.inr (Or.inl (by omega))
  · exact Or.inr (Or.inr fun id hid => hvT.trans (hlate id (hsub id hid)))

theorem Inv.withStore (h : Inv C s) {store : CCryptoKeyStore} (hplain : store.Plain)
    (hkeys : ∀ id, store.haveKey id = s.wallet.store.haveKey id) : Inv C (s.withStore store) :=
  ⟨h.filed.setStore hplain hkeys, h.bounded.mono fun id hid => ⟨by rwa [← hkeys], rfl⟩⟩

theorem Inv.call (h : Inv C s) : ∀ {c : KeyCall}, s.Meets C c → s.call C c = some s' → Inv C s'
  | .generateNewKey .., hT, hrun => by
    obtain ⟨r, hr, rfl⟩ := Option.map_eq_some_iff.mp hrun
    exact h.generateNewKey hT hr
  | .importPrivKey .., _, hrun => by
    obtain ⟨r, hr, rfl⟩ := Option.map_eq_some_iff.mp hrun
    exact h.importPrivKey hr
  | .importWallet .., hT, hrun => by
    obtain ⟨r, hr, rfl⟩ := Option.map_eq_some_iff.mp hrun
    exact h.importWallet hT hr
  | .loadWallet .., hT, hrun => by
    obtain ⟨w, hr, rfl⟩ := Option.map_eq_some_iff.mp hrun
    exact h.loadWallet hT hr
  | .lock, _, hrun => by
    obtain rfl := Option.some.inj hrun
    exact h.withStore h.filed.plain.lock.1 h.filed.plain.lock.2
  | .unlock .., _, hrun => by
    obtain ⟨⟨ok, store⟩, hr, rfl⟩ := Option.map_eq_some_iff.mp hrun
    exact h.withStore (h.filed.plain.unlock hr).1 (h.filed.plain.unlock hr).2

/-- Two keys, of which the first is in a dump. -/
def dumpedKey : CKey := { fValid := true, fCompressed := true, vch := List.replicate 31 0 ++ [1] }

def generatedKey : CKey := { fValid := true, fCompressed := true, vch := List.replicate 31 0 ++ [2] }

/-- The wallet is reloaded from the records of both keys. -/
def keyRecords : WalletDB :=
  [.keymeta (dumpedKey.pubKey CCryptoKeyStore.clearCrypto) 0,
    .keymeta (generatedKey.pubKey CCryptoKeyStore.clearCrypto) 1400000100,
    .key (dumpedKey.pubKey CCryptoKeyStore.clearCrypto) dumpedKey,
    .key (generatedKey.pubKey CCryptoKeyStore.clearCrypto) generatedKey]

end AgedWallet

end Ticoin
