import Ticoin.Crypter

/-!
# crypter.cpp : the encryption of a key store, where a step can fail

`EncryptKeys` sets `fUseCrypto` and then encrypts one key after another. A wallet also writes each
encrypted key to its file. If a secret is not encrypted, or is not written, the loop returns false
and leaves the store as it is at that point.

So the encryption is all or nothing if and only if the store is encrypted already, or every secret
is encrypted and written (`encryptsAllOrNothing_iff`). With a cipher that restores secrets and no
file this is a matter of the size of the master key (`encryptsAllOrNothing_iff_length`).
-/

namespace Ticoin

open Codec Table

namespace CCryptoKeyStore

section

variable (C : Crypto) (written : CPubKey → Bytes → Bool)

/-! ## The store of a wallet -/

/-- `AddCryptedKey` of a wallet, where `written` is what `WriteCryptedKey` returns, true without a
file. -/
def addCryptedKeyTo (vchPubKey : CPubKey) (vchCryptedSecret : Bytes) (s : CCryptoKeyStore) :
    Bool × CCryptoKeyStore :=
  match s.addCryptedKey C vchPubKey vchCryptedSecret with
  | (false, s) => (false, s)
  | (true, s) => (written vchPubKey vchCryptedSecret, s)

/-- The loop of `EncryptKeys` in a wallet. -/
def encryptAllTo (vMasterKeyIn : Bytes) :
    List (CKeyID × CKey) → CCryptoKeyStore → Option (Bool × CCryptoKeyStore)
  | [], s => some (true, { s with mapKeys := ∅ })
  | (_, key) :: keys, s => do
    let vchPubKey ← key.getPubKey C
    match encryptSecret C vMasterKeyIn key.bytes (vchPubKey.getHash C) with
    | none => some (false, s)
    | some vchCryptedSecret =>
      match s.addCryptedKeyTo C written vchPubKey vchCryptedSecret with
      | (false, s) => some (false, s)
      | (true, s) => encryptAllTo vMasterKeyIn keys s

/-- `EncryptKeys` in a wallet. -/
def encryptKeysTo (vMasterKeyIn : Bytes) (s : CCryptoKeyStore) : Option (Bool × CCryptoKeyStore) :=
  if ¬ s.mapCryptedKeys.isEmpty ∨ s.fUseCrypto then some (false, s)
  else encryptAllTo C written vMasterKeyIn s.mapKeys.toList { s with fUseCrypto := true }

/-- The secret of a key is encrypted, and written. -/
def isStored (vMasterKeyIn : Bytes) (key : CKey) : Bool :=
  match encryptSecret C vMasterKeyIn key.bytes ((key.pubKey C).getHash C) with
  | none => false
  | some vchCryptedSecret => written (key.pubKey C) vchCryptedSecret

end

variable {C : Crypto} {written : CPubKey → Bytes → Bool} {vMasterKey c : Bytes} {key : CKey}
  {s s' : CCryptoKeyStore}

/-- Without a file the wallet does what the key store does. -/
theorem encryptAllTo_true (vMasterKey : Bytes) : ∀ (l : List (CKeyID × CKey)) (s : CCryptoKeyStore),
    encryptAllTo C (fun _ _ => true) vMasterKey l s = encryptAll C vMasterKey l s
  | [], _ => rfl
  | (_, key) :: l, s => by
    unfold encryptAllTo encryptAll
    congr 1
    funext pubkey
    cases encryptSecret C vMasterKey key.bytes (pubkey.getHash C) with
    | none => rfl
    | some c =>
      unfold addCryptedKeyTo
      dsimp only
      rcases s.addCryptedKey C pubkey c with ⟨ok, s₁⟩
      cases ok with
      | false => rfl
      | true => exact encryptAllTo_true vMasterKey l s₁

theorem encryptKeysTo_true (vMasterKey : Bytes) (s : CCryptoKeyStore) :
    s.encryptKeysTo C (fun _ _ => true) vMasterKey = s.encryptKeys C vMasterKey := by
  unfold encryptKeysTo encryptKeys
  rw [encryptAllTo_true]

/-! ## The loop -/

/-- The keys are valid, and under the hashes of their public keys. -/
def Keyed (C : Crypto) (s : CCryptoKeyStore) : Prop :=
  ∀ (id : CKeyID) (key : CKey), s.mapKeys[id]? = some key →
    key.fValid = true ∧ (key.pubKey C).getID C = id

theorem Inv.keyed {keys : Set CKey} {added : List CKey} (h : Inv C keys s added)
    (hC : C.Correct keys) : s.Keyed C := fun id key hget =>
  ⟨(hC.isSecret key (h.mapKeys id key hget).1).valid, (h.mapKeys id key hget).2⟩

theorem isStored_iff (hvalid : key.fValid = true) : isStored C written vMasterKey key = true ↔
    ∃ c, Seals C vMasterKey key c ∧ written (key.pubKey C) c = true := by
  unfold isStored Seals
  rw [show key.bytes = key.vch from if_pos hvalid]
  cases encryptSecret C vMasterKey key.vch ((key.pubKey C).getHash C) with
  | none => simp
  | some c => simp

/-- A key that is not stored ends the loop ; the store remains encrypted. -/
theorem encryptAllTo_cons_of_not_isStored {id : CKeyID} {l : List (CKeyID × CKey)}
    (hcrypto : s.fUseCrypto = true) (hvalid : key.fValid = true)
    (h : isStored C written vMasterKey key = false) :
    ∃ s', encryptAllTo C written vMasterKey ((id, key) :: l) s = some (false, s') ∧
      s'.fUseCrypto = true := by
  unfold encryptAllTo
  rw [show key.getPubKey C = some (key.pubKey C) from if_pos hvalid, Option.bind_eq_bind,
    Option.bind_some]
  unfold isStored at h
  cases hc : encryptSecret C vMasterKey key.bytes ((key.pubKey C).getHash C) with
  | none => exact ⟨s, rfl, hcrypto⟩
  | some c =>
    rw [hc] at h
    simp only [addCryptedKeyTo, addCryptedKey_eq hcrypto]
    rw [show written (key.pubKey C) c = false from h]
    exact ⟨_, rfl, hcrypto⟩

/-- A key that is stored is added, and the loop goes on. -/
theorem encryptAllTo_cons_of_isStored {id : CKeyID} {l : List (CKeyID × CKey)}
    (hcrypto : s.fUseCrypto = true) (hvalid : key.fValid = true)
    (h : isStored C written vMasterKey key = true) :
    ∃ c, Seals C vMasterKey key c ∧
      encryptAllTo C written vMasterKey ((id, key) :: l) s =
        encryptAllTo C written vMasterKey l { s with
          mapCryptedKeys :=
            s.mapCryptedKeys.insert ((key.pubKey C).getID C) (key.pubKey C, c) } := by
  obtain ⟨c, hc, hwritten⟩ := (isStored_iff hvalid).mp h
  refine ⟨c, hc, ?_⟩
  conv_lhs => unfold encryptAllTo
  rw [show key.getPubKey C = some (key.pubKey C) from if_pos hvalid, Option.bind_eq_bind,
    Option.bind_some, show key.bytes = key.vch from if_pos hvalid,
    show encryptSecret C _ _ _ = _ from hc]
  simp only [addCryptedKeyTo, addCryptedKey_eq hcrypto]
  rw [hwritten]

/-- If all keys are stored, the loop adds them all and keeps what else was there. -/
theorem encryptAllTo_of_forall : ∀ {l : List (CKeyID × CKey)} {s : CCryptoKeyStore},
    s.fUseCrypto = true → (∀ p ∈ l, p.2.fValid = true ∧ (p.2.pubKey C).getID C = p.1) →
    l.Pairwise (fun p q => p.1 ≠ q.1) →
    (∀ p ∈ l, isStored C written vMasterKey p.2 = true) →
    ∃ s', encryptAllTo C written vMasterKey l s = some (true, s') ∧ s'.mapKeys = ∅ ∧
      (∀ p ∈ l, ∃ c, Seals C vMasterKey p.2 c ∧
        s'.mapCryptedKeys[p.1]? = some (p.2.pubKey C, c)) ∧
      ∀ id : CKeyID, (∀ p ∈ l, p.1 ≠ id) → s'.mapCryptedKeys[id]? = s.mapCryptedKeys[id]?
  | [], s, _, _, _, _ => ⟨{ s with mapKeys := ∅ }, rfl, rfl, nofun, fun _ _ => rfl⟩
  | (id, key) :: l, s, hcrypto, hkeyed, hpair, hstored => by
    obtain ⟨⟨hvalid, hid⟩, hkeyed⟩ := List.forall_mem_cons.mp hkeyed
    change (key.pubKey C).getID C = id at hid
    obtain ⟨hne, hpair⟩ := List.pairwise_cons.mp hpair
    obtain ⟨hhead, hstored⟩ := List.forall_mem_cons.mp hstored
    obtain ⟨c, hc, hrun⟩ := encryptAllTo_cons_of_isStored hcrypto hvalid hhead
    obtain ⟨s', hrun', hempty, hmem, hframe⟩ := encryptAllTo_of_forall (s := { s with
      mapCryptedKeys :=
        s.mapCryptedKeys.insert ((key.pubKey C).getID C) (key.pubKey C, c) })
      hcrypto hkeyed hpair hstored
    refine ⟨s', hrun.trans hrun', hempty, List.forall_mem_cons.mpr ⟨⟨c, hc, ?_⟩, hmem⟩, ?_⟩
    · rw [hframe id fun p hp => (hne p hp).symm]
      change (s.mapCryptedKeys.insert _ _)[id]? = _
      rw [congrFun getElem?_insert_eq id, ← hid, Function.update_self]
    · intro id' hid'
      obtain ⟨hid', hrest⟩ := List.forall_mem_cons.mp hid'
      rw [hframe id' hrest]
      change (s.mapCryptedKeys.insert _ _)[id']? = _
      rw [congrFun getElem?_insert_eq id', hid, Function.update_of_ne (Ne.symm hid')]

/-- If one key is not stored, the loop fails with `fUseCrypto` set. -/
theorem encryptAllTo_of_exists : ∀ {l : List (CKeyID × CKey)} {s : CCryptoKeyStore},
    s.fUseCrypto = true → (∀ p ∈ l, p.2.fValid = true) →
    ¬ (∀ p ∈ l, isStored C written vMasterKey p.2 = true) →
    ∃ s', encryptAllTo C written vMasterKey l s = some (false, s') ∧ s'.fUseCrypto = true
  | [], _, _, _, hnot => absurd nofun hnot
  | (id, key) :: l, s, hcrypto, hvalid, hnot => by
    obtain ⟨hhead, hvalid⟩ := List.forall_mem_cons.mp hvalid
    cases hstored : isStored C written vMasterKey key with
    | false => exact encryptAllTo_cons_of_not_isStored hcrypto hhead hstored
    | true =>
      obtain ⟨c, -, hrun⟩ :=
        encryptAllTo_cons_of_isStored hcrypto hhead hstored
      rw [hrun]
      refine encryptAllTo_of_exists hcrypto hvalid fun hall => hnot ?_
      exact List.forall_mem_cons.mpr ⟨hstored, hall⟩

/-! ## All or nothing -/

/-- `EncryptKeys` changes nothing if it fails, and else encrypts all keys. -/
def EncryptsAllOrNothing (C : Crypto) (written : CPubKey → Bytes → Bool) (vMasterKey : Bytes)
    (s : CCryptoKeyStore) : Prop :=
  ∃ ok s', s.encryptKeysTo C written vMasterKey = some (ok, s') ∧
    (ok = false → s'.fUseCrypto = s.fUseCrypto ∧ s'.mapKeys = s.mapKeys ∧
      s'.mapCryptedKeys = s.mapCryptedKeys ∧
      ∀ (id : CKeyID) (keyOut key : CKey),
        s.getKey C id keyOut = some key → s'.getKey C id keyOut = some key) ∧
    (ok = true → s'.mapKeys = ∅ ∧ ∀ (id : CKeyID) (key : CKey), s.mapKeys[id]? = some key →
      ∃ c, Seals C vMasterKey key c ∧ s'.mapCryptedKeys[id]? = some (key.pubKey C, c))

theorem pairwise_toList (s : CCryptoKeyStore) :
    s.mapKeys.toList.Pairwise fun p q => p.1 ≠ q.1 := by
  refine s.mapKeys.distinct_keys_toList.imp fun hne heq => hne ?_
  rw [heq]
  exact Std.ReflCmp.compare_self

theorem encryptsAllOrNothing_iff_toList (hkeyed : s.Keyed C) :
    EncryptsAllOrNothing C written vMasterKey s ↔
      s.fUseCrypto = true ∨ s.mapCryptedKeys ≠ ∅ ∨
        ∀ p ∈ s.mapKeys.toList, isStored C written vMasterKey p.2 = true := by
  have hlist : ∀ p ∈ s.mapKeys.toList, p.2.fValid = true ∧ (p.2.pubKey C).getID C = p.1 :=
    fun p hp => hkeyed p.1 p.2 (Std.ExtTreeMap.mem_toList_iff_getElem?_eq_some.mp hp)
  rw [ne_eq, ← Std.ExtTreeMap.isEmpty_iff]
  unfold EncryptsAllOrNothing encryptKeysTo
  by_cases hguard : ¬ s.mapCryptedKeys.isEmpty ∨ s.fUseCrypto
  · rw [if_pos hguard]
    refine iff_of_true ⟨false, s, rfl, fun _ => ⟨rfl, rfl, rfl, fun _ _ _ h => h⟩, nofun⟩ ?_
    rcases hguard with hcrypted | hcrypto
    · exact Or.inr (Or.inl hcrypted)
    · exact Or.inl hcrypto
  rw [if_neg hguard]
  obtain ⟨hempty, hplain⟩ := not_or.mp hguard
  by_cases hstored : ∀ p ∈ s.mapKeys.toList, isStored C written vMasterKey p.2 = true
  · obtain ⟨s', hrun, hmapKeys, hmem, -⟩ := encryptAllTo_of_forall
      (s := { s with fUseCrypto := true }) rfl hlist s.pairwise_toList hstored
    refine iff_of_true ⟨true, s', hrun, nofun, fun _ => ⟨hmapKeys, fun id key hget => ?_⟩⟩
      (Or.inr (Or.inr hstored))
    exact hmem (id, key) (Std.ExtTreeMap.mem_toList_iff_getElem?_eq_some.mpr hget)
  · obtain ⟨s', hrun, hcrypto⟩ := encryptAllTo_of_exists
      (s := { s with fUseCrypto := true }) rfl (fun p hp => (hlist p hp).1) hstored
    refine iff_of_false ?_ ?_
    · rintro ⟨ok, s₁, hrun₁, hfalse, -⟩
      obtain ⟨rfl, rfl⟩ := Prod.mk.inj (Option.some.inj (hrun.symm.trans hrun₁))
      exact hplain ((hfalse rfl).1.symm.trans hcrypto)
    · rintro (hcrypto | hcrypted | hall)
      · exact hplain hcrypto
      · exact hempty hcrypted
      · exact hstored hall

/-- With a cipher that restores secrets, and no file, a key is stored under a master key of the
right size only. -/
theorem isStored_true_iff {keys : Set CKey} (hC : C.Correct keys) (hkey : key ∈ keys) :
    isStored C (fun _ _ => true) vMasterKey key = true ↔ vMasterKey.length = 32 := by
  rw [isStored_iff (hC.isSecret key hkey).valid]
  refine ⟨fun ⟨c, hc, _⟩ => hc.encrypt_eq.1, fun hlen => ?_⟩
  obtain ⟨c, hc⟩ := hC.exists_seals hkey hlen
  exact ⟨c, hc, rfl⟩

/-- After any calls, and without a file, the encryption is all or nothing if and only if the store
is encrypted, has no keys, or the master key has 32 bytes. -/
theorem encryptsAllOrNothing_iff_length {keys : Set CKey} {added : List CKey} (hC : C.Correct keys)
    (h : Reachable C keys s added) :
    EncryptsAllOrNothing C (fun _ _ => true) vMasterKey s ↔
      s.fUseCrypto = true ∨ s.mapKeys = ∅ ∨ vMasterKey.length = 32 := by
  have hinv := h.inv hC
  rw [encryptsAllOrNothing_iff_toList (hinv.keyed hC)]
  cases hcrypto : s.fUseCrypto with
  | true => exact iff_of_true (Or.inl rfl) (Or.inl rfl)
  | false =>
    have hempty : s.mapCryptedKeys = ∅ := (hinv.plain hcrypto).1
    simp only [Bool.false_eq_true, false_or, hempty, ne_eq, not_true_eq_false]
    constructor
    · intro hstored
      by_cases hnone : s.mapKeys = ∅
      · exact Or.inl hnone
      rw [Std.ExtTreeMap.eq_empty_iff_forall_not_mem, not_forall_not] at hnone
      obtain ⟨id, hid⟩ := hnone
      obtain ⟨key, hget⟩ :=
        Option.isSome_iff_exists.mp (Std.ExtTreeMap.mem_iff_isSome_getElem?.mp hid)
      exact Or.inr ((isStored_true_iff hC (hinv.mapKeys id key hget).1).mp
        (hstored (id, key) (Std.ExtTreeMap.mem_toList_iff_getElem?_eq_some.mpr hget)))
    · rintro (hnone | hlen) p hp
      · rw [hnone, Std.ExtTreeMap.toList_eq_nil_iff.mpr rfl] at hp
        exact absurd hp List.not_mem_nil
      · have hget := Std.ExtTreeMap.mem_toList_iff_getElem?_eq_some.mp hp
        exact (isStored_true_iff hC (hinv.mapKeys p.1 p.2 hget).1).mpr hlen

/-- A store with one key, which is not encrypted. -/
def oneKeyStore : CCryptoKeyStore :=
  (addKeyPubKey clearCrypto smallKey (smallKey.pubKey clearCrypto) {}).2

theorem keyed_oneKeyStore : oneKeyStore.Keyed clearCrypto :=
  ((Inv.empty : Inv clearCrypto {smallKey} {} []).addKeyPubKey correct_clearCrypto rfl).keyed
    correct_clearCrypto

end CCryptoKeyStore

end Ticoin
