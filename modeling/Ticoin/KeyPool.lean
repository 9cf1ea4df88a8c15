import Ticoin.Lib.Machine
import Ticoin.Serialize

/-!
# wallet.cpp : the key pool

The wallet keeps keys in advance : `setKeyPool` has their indices, and the wallet database a
record for each. A `CReserveKey` reserves the lowest index, which leaves the set, and later it
keeps the key or returns the index. Keys are added under the indices after the highest one in
the set, or from 1 if the set is empty.

An index that is reserved is not in the set, so that it can be given to a new key, over the
record of the reserved one (`reserveKey_collides`). In runs where no index given to a new key
is reserved (`KeyPoolCall.Clear`) the reservations are of different indices and keys
(`keyPool_of_run`). The invariant is `KeyPoolInv`, which holds for the state and for the trace
of the keys handed out.
-/

namespace Ticoin

open Codec Machine

variable {κ : Type} [DecidableEq κ]

/-! ## The wallet -/

/-- A record of the pool, with a public key. -/
structure CKeyPool (κ : Type) where
  nTime : ℤ
  vchPubKey : κ
  deriving DecidableEq, Repr

/-- A key allocated from the key pool ; an invalid key is `none`. -/
structure CReserveKey (κ : Type) where
  nIndex : ℤ := -1
  vchPubKey : Option κ := none
  deriving DecidableEq, Repr

structure KeyPoolWallet (κ : Type) where
  fFileBacked : Bool
  setKeyPool : Finset ℤ := ∅
  /-- the pool records in the database -/
  pool : Std.ExtTreeMap ℤ (CKeyPool κ) := ∅
  /-- the keys that `HaveKey` finds -/
  mapKeys : Finset κ := ∅
  vchDefaultKey : Option κ := none
  /-- the holders, from their construction on -/
  reserveKeys : ℕ → CReserveKey κ := fun _ => {}

/-- A new key, when it is made, and whether its record can be written. -/
structure NewKey (κ : Type) where
  vchPubKey : κ
  nTime : ℤ
  written : Bool

/-- What a call reads outside of the wallet. -/
structure KeyPoolEnv (κ : Type) where
  fLocked : Bool
  /-- the value of `-keypool` -/
  keypool : ℤ
  newKeys : ℕ → NewKey κ
  /-- whether the database can be read -/
  read : Bool

namespace KeyPoolWallet

/-! ## TopUpKeyPool -/

/-- The index of the next key. -/
def nEnd (s : KeyPoolWallet κ) : ℤ :=
  if h : s.setKeyPool.Nonempty then s.setKeyPool.max' h + 1 else 1

/-- `GenerateNewKey` puts the key into the key store. -/
def generateNewKey (newKey : NewKey κ) (s : KeyPoolWallet κ) : KeyPoolWallet κ :=
  { s with mapKeys := insert newKey.vchPubKey s.mapKeys }

/-- The key gets a record and its index gets into the set. -/
def addKey (newKey : NewKey κ) (s : KeyPoolWallet κ) : KeyPoolWallet κ :=
  { s with
    pool := s.pool.insert s.nEnd ⟨newKey.nTime, newKey.vchPubKey⟩
    setKeyPool := insert s.nEnd s.setKeyPool }

/-- The loop, which throws if a record cannot be written. -/
def topUpLoop (nSize : ℕ) : ℕ → (ℕ → NewKey κ) → KeyPoolWallet κ →
    Except String Unit × KeyPoolWallet κ
  | 0, _, s => (.ok (), s)
  | fuel + 1, newKeys, s =>
    if s.setKeyPool.card < nSize then
      let s := s.generateNewKey (newKeys 0)
      if (newKeys 0).written then
        topUpLoop nSize fuel (fun i => newKeys (i + 1)) (s.addKey (newKeys 0))
      else (.error "TopUpKeyPool() : writing generated key failed", s)
    else (.ok (), s)

/-- The size that the pool is to get, which is one more than the target size. -/
def targetSize (keypool : ℤ) (kpSize : UInt32) : ℕ :=
  ((if kpSize > 0 then kpSize else UInt32.ofInt (max keypool 0)) + 1).toNat

def topUpKeyPool (env : KeyPoolEnv κ) (kpSize : UInt32) (s : KeyPoolWallet κ) :
    Except String Bool × KeyPoolWallet κ :=
  if env.fLocked then (.ok false, s)
  else
    let (result, s) := s.topUpLoop (targetSize env.keypool kpSize)
      (targetSize env.keypool kpSize) env.newKeys
    (result.map fun _ => true, s)

/-! ## Reservations -/

/-- The oldest key is read after its index left the set. -/
def readReserved (env : KeyPoolEnv κ) (nIndex : ℤ) (s : KeyPoolWallet κ) :
    Except String (Option (CKeyPool κ)) :=
  match if env.read then s.pool[nIndex]? else none with
  | none => .error "ReserveKeyFromKeyPool() : read failed"
  | some keypool =>
    if keypool.vchPubKey ∈ s.mapKeys then .ok (some keypool)
    else .error "ReserveKeyFromKeyPool() : unknown key in key pool"

/-- `ReserveKeyFromKeyPool` : the index, which is set also if it throws, and the key. -/
def reserveKeyFromKeyPool (env : KeyPoolEnv κ) (s : KeyPoolWallet κ) :
    ℤ × Except String (Option (CKeyPool κ)) × KeyPoolWallet κ :=
  let (result, s) := if env.fLocked then (.ok false, s) else s.topUpKeyPool env 0
  match result with
  | .error e => (-1, .error e, s)
  | .ok _ =>
    if h : s.setKeyPool.Nonempty then
      let nIndex := s.setKeyPool.min' h
      let s := { s with setKeyPool := s.setKeyPool.erase nIndex }
      (nIndex, s.readReserved env nIndex, s)
    else (-1, .ok none, s)

/-- `CWallet::KeepKey`. -/
def keepKey (nIndex : ℤ) (s : KeyPoolWallet κ) : KeyPoolWallet κ :=
  if s.fFileBacked then { s with pool := s.pool.erase nIndex } else s

/-- `CWallet::ReturnKey`. -/
def returnKey (nIndex : ℤ) (s : KeyPoolWallet κ) : KeyPoolWallet κ :=
  { s with setKeyPool := insert nIndex s.setKeyPool }

def setReserveKey (i : ℕ) (key : CReserveKey κ) (s : KeyPoolWallet κ) : KeyPoolWallet κ :=
  { s with reserveKeys := Function.update s.reserveKeys i key }

/-- `CReserveKey::GetReservedKey` : the key or the exception, and the key that the wallet hands
out with an index ; `none` if the assertion fails that the key is valid. -/
def getReservedKey (i : ℕ) (env : KeyPoolEnv κ) (s : KeyPoolWallet κ) :
    Option (Except String (Option κ) × List (Lease κ) × KeyPoolWallet κ) :=
  let key := s.reserveKeys i
  if key.nIndex = -1 then
    let (nIndex, result, s) := s.reserveKeyFromKeyPool env
    match result with
    | .error e => some (.error e, [], s.setReserveKey i ⟨nIndex, key.vchPubKey⟩)
    | .ok (some keypool) => some (.ok (some keypool.vchPubKey), [.out keypool.vchPubKey],
        s.setReserveKey i ⟨nIndex, some keypool.vchPubKey⟩)
    | .ok none =>
      match s.vchDefaultKey with
      | some defaultKey => some (.ok (some defaultKey), [], s.setReserveKey i ⟨-1, some defaultKey⟩)
      | none => some (.ok none, [], s.setReserveKey i ⟨-1, key.vchPubKey⟩)
  else key.vchPubKey.map fun pubkey => (.ok (some pubkey), [], s)

/-- `CReserveKey::KeepKey`. -/
def keepReservedKey (i : ℕ) (s : KeyPoolWallet κ) : KeyPoolWallet κ :=
  let key := s.reserveKeys i
  (if key.nIndex = -1 then s else s.keepKey key.nIndex).setReserveKey i {}

/-- `CReserveKey::ReturnKey`, also the destructor, with the key that is given back. -/
def returnReservedKey (i : ℕ) (s : KeyPoolWallet κ) : List (Lease κ) × KeyPoolWallet κ :=
  let key := s.reserveKeys i
  if key.nIndex = -1 then ([], s.setReserveKey i {})
  else (key.vchPubKey.toList.map .back, (s.returnKey key.nIndex).setReserveKey i {})

end KeyPoolWallet

inductive KeyPoolCall (κ : Type) where
  | topUpKeyPool (env : KeyPoolEnv κ) (kpSize : UInt32)
  | getReservedKey (i : ℕ) (env : KeyPoolEnv κ)
  | keepKey (i : ℕ)
  | returnKey (i : ℕ)

/-- A call, with the keys handed out and given back. -/
def KeyPoolCall.exec (s : KeyPoolWallet κ) :
    KeyPoolCall κ → Option (List (Lease κ) × KeyPoolWallet κ)
  | .topUpKeyPool env kpSize => some ([], (s.topUpKeyPool env kpSize).2)
  | .getReservedKey i env => (s.getReservedKey i env).map Prod.snd
  | .keepKey i => some ([], s.keepReservedKey i)
  | .returnKey i => some (s.returnReservedKey i)

/-! ## Conditions on the calls -/

namespace KeyPoolWallet

/-- A holder has an index reserved. -/
def Holds (s : KeyPoolWallet κ) (i : ℕ) (n : ℤ) : Prop := (s.reserveKeys i).nIndex = n ∧ n ≠ -1

/-- No index that is given to a new key is reserved : the `j`-th new index is `nEnd + j`, and it
is given if the size is not reached before it and the records up to it are written. -/
def Clear (nSize : ℕ) (newKeys : ℕ → NewKey κ) (s : KeyPoolWallet κ) : Prop :=
  ∀ j : ℕ, s.setKeyPool.card + j < nSize → (∀ i ≤ j, (newKeys i).written = true) →
    ∀ i, ¬ s.Holds i (s.nEnd + j)

/-- `GenerateNewKey` makes keys that are not in the key store. -/
def Fresh (nSize : ℕ) (newKeys : ℕ → NewKey κ) (s : KeyPoolWallet κ) : Prop :=
  ∀ j : ℕ, s.setKeyPool.card + j < nSize → (newKeys j).vchPubKey ∉ s.mapKeys ∧
    ∀ i < j, (newKeys i).vchPubKey ≠ (newKeys j).vchPubKey

end KeyPoolWallet

/-- What holds of the size and the new keys, if the call tops up the pool. -/
def KeyPoolCall.TopsUp (p : ℕ → (ℕ → NewKey κ) → KeyPoolWallet κ → Prop) (s : KeyPoolWallet κ) :
    KeyPoolCall κ → Prop
  | .topUpKeyPool env kpSize => env.fLocked = false →
    p (KeyPoolWallet.targetSize env.keypool kpSize) env.newKeys s
  | .getReservedKey i env => (s.reserveKeys i).nIndex = -1 → env.fLocked = false →
    p (KeyPoolWallet.targetSize env.keypool 0) env.newKeys s
  | .keepKey _ => True
  | .returnKey _ => True

/-- The call gives no reserved index to a new key. -/
def KeyPoolCall.Clear (s : KeyPoolWallet κ) (call : KeyPoolCall κ) : Prop :=
  call.TopsUp KeyPoolWallet.Clear s

/-- The keys that the call generates are new. -/
def KeyPoolCall.Fresh (s : KeyPoolWallet κ) (call : KeyPoolCall κ) : Prop :=
  call.TopsUp KeyPoolWallet.Fresh s

/-! ## The invariant -/

namespace KeyPoolWallet

/-- An index that is in the set or reserved. -/
def Live (s : KeyPoolWallet κ) (n : ℤ) : Prop := n ∈ s.setKeyPool ∨ ∃ i, s.Holds i n

section Indices

variable {κ : Type} {s : KeyPoolWallet κ} {n : ℤ} {i j : ℕ} {key : CReserveKey κ}

theorem lt_nEnd (h : n ∈ s.setKeyPool) : n < s.nEnd := by
  rw [nEnd, dif_pos ⟨n, h⟩]
  exact Int.lt_add_one_of_le (s.setKeyPool.le_max' n h)

theorem nEnd_addKey (newKey : NewKey κ) : (s.addKey newKey).nEnd = s.nEnd + 1 := by
  have hne : (s.addKey newKey).setKeyPool.Nonempty := Finset.insert_nonempty _ _
  rw [nEnd, dif_pos hne]
  refine congrArg (· + 1) (le_antisymm (Finset.max'_le _ _ _ fun n hn => ?_)
    (Finset.le_max' _ _ (Finset.mem_insert_self _ _)))
  rcases Finset.mem_insert.mp hn with rfl | hn
  · exact le_rfl
  · exact (lt_nEnd hn).le

theorem card_addKey (newKey : NewKey κ) :
    (s.addKey newKey).setKeyPool.card = s.setKeyPool.card + 1 :=
  Finset.card_insert_of_notMem fun h => lt_irrefl _ (lt_nEnd h)

theorem holds_setReserveKey : (s.setReserveKey i key).Holds j n ↔
    (j = i ∧ key.nIndex = n ∧ n ≠ -1) ∨ (j ≠ i ∧ s.Holds j n) := by
  unfold Holds setReserveKey
  by_cases hj : j = i
  · subst hj
    simp
  · simp [hj]

end Indices

end KeyPoolWallet

/-- The indices that are in the set or reserved have records of different keys, the ones
reserved are not in the set, and no key in the set is out. -/
structure KeyPoolInv (t : List (Lease κ)) (s : KeyPoolWallet κ) : Prop where
  pos : ∀ n, s.Live n → 1 ≤ n
  record : ∀ n, s.Live n → ∃ keypool, s.pool[n]? = some keypool ∧ keypool.vchPubKey ∈ s.mapKeys
  keys : ∀ n n' keypool keypool', s.Live n → s.Live n' → s.pool[n]? = some keypool →
    s.pool[n']? = some keypool' → keypool.vchPubKey = keypool'.vchPubKey → n = n'
  inj : ∀ i j n, s.Holds i n → s.Holds j n → i = j
  disjoint : ∀ i n, s.Holds i n → n ∉ s.setKeyPool
  pooled : ∀ n keypool, n ∈ s.setKeyPool → s.pool[n]? = some keypool → ¬ IsOut t keypool.vchPubKey
  held : ∀ i n keypool, s.Holds i n → s.pool[n]? = some keypool →
    (s.reserveKeys i).vchPubKey = some keypool.vchPubKey ∨ ¬ IsOut t keypool.vchPubKey
  known : ∀ key, .out key ∈ t → key ∈ s.mapKeys
  exclusive : Exclusive t

namespace KeyPoolInv

variable {t : List (Lease κ)} {s : KeyPoolWallet κ} {i : ℕ}

omit [DecidableEq κ] in
theorem one_le_nEnd (h : KeyPoolInv t s) : 1 ≤ s.nEnd := by
  rw [KeyPoolWallet.nEnd]
  split
  · rename_i hne
    have hpos := h.pos _ (.inl (s.setKeyPool.max'_mem hne))
    omega
  · exact le_rfl

theorem generateNewKey (h : KeyPoolInv t s) (newKey : NewKey κ) :
    KeyPoolInv t (s.generateNewKey newKey) where
  pos := h.pos
  record n hn := by
    obtain ⟨keypool, hget, hmem⟩ := h.record n hn
    exact ⟨keypool, hget, Finset.mem_insert_of_mem hmem⟩
  keys := h.keys
  inj := h.inj
  disjoint := h.disjoint
  pooled := h.pooled
  held := h.held
  known key hkey := Finset.mem_insert_of_mem (h.known key hkey)
  exclusive := h.exclusive

/-- A new key gets an index that is not reserved. -/
theorem addKey (h : KeyPoolInv t s) {newKey : NewKey κ} (hclear : ∀ i, ¬ s.Holds i s.nEnd)
    (hfresh : newKey.vchPubKey ∉ s.mapKeys) :
    KeyPoolInv t ((s.generateNewKey newKey).addKey newKey) := by
  set s' := (s.generateNewKey newKey).addKey newKey with hs'
  have hdead : ¬ s.Live s.nEnd := by
    rintro (hmem | ⟨i, hi⟩)
    · exact lt_irrefl _ (KeyPoolWallet.lt_nEnd hmem)
    · exact hclear i hi
  have hlive : ∀ n, s'.Live n ↔ n = s.nEnd ∨ s.Live n := fun n => by
    rw [KeyPoolWallet.Live, KeyPoolWallet.Live, ← or_assoc]
    exact or_congr_left Finset.mem_insert
  have hnew : s'.pool[s.nEnd]? = some ⟨newKey.nTime, newKey.vchPubKey⟩ :=
    Std.ExtTreeMap.getElem?_insert_self
  have hold : ∀ n, n ≠ s.nEnd → s'.pool[n]? = s.pool[n]? := fun n hn => by
    have hget : s'.pool[n]? = if compare s.nEnd n = .eq then
        some (⟨newKey.nTime, newKey.vchPubKey⟩ : CKeyPool κ) else s.pool[n]? :=
      Std.ExtTreeMap.getElem?_insert
    rw [hget, if_neg fun heq => hn (Std.LawfulEqOrd.eq_of_compare heq).symm]
  -- the key of a record that was live is not the new one
  have hother : ∀ n keypool, s.Live n → s.pool[n]? = some keypool →
      keypool.vchPubKey ≠ newKey.vchPubKey := by
    intro n keypool hn hget heq
    obtain ⟨keypool', hget', hmem⟩ := h.record n hn
    obtain rfl := Option.some.inj (hget.symm.trans hget')
    exact hfresh (heq ▸ hmem)
  have hne : ∀ {n}, s.Live n → n ≠ s.nEnd := fun hn heq => hdead (heq ▸ hn)
  constructor
  · intro n hn
    rcases (hlive n).mp hn with rfl | hn
    · exact h.one_le_nEnd
    · exact h.pos n hn
  · intro n hn
    rcases (hlive n).mp hn with rfl | hn
    · exact ⟨_, hnew, Finset.mem_insert_self _ _⟩
    · obtain ⟨keypool, hget, hmem⟩ := h.record n hn
      exact ⟨keypool, (hold n (hne hn)).trans hget, Finset.mem_insert_of_mem hmem⟩
  · intro n n' keypool keypool' hn hn' hget hget' heq
    rcases (hlive n).mp hn with rfl | hn <;> rcases (hlive n').mp hn' with rfl | hn'
    · rfl
    · rw [hnew] at hget
      cases hget
      exact absurd heq.symm (hother n' keypool' hn' ((hold n' (hne hn')).symm.trans hget'))
    · rw [hnew] at hget'
      cases hget'
      exact absurd heq (hother n keypool hn ((hold n (hne hn)).symm.trans hget))
    · exact h.keys n n' keypool keypool' hn hn' ((hold n (hne hn)).symm.trans hget)
        ((hold n' (hne hn')).symm.trans hget') heq
  · exact h.inj
  · intro i n hi hmem
    rcases Finset.mem_insert.mp hmem with rfl | hmem
    · exact hclear i hi
    · exact h.disjoint i n hi hmem
  · intro n keypool hmem hget
    rcases Finset.mem_insert.mp hmem with rfl | hmem
    · rw [show (s.generateNewKey newKey).nEnd = s.nEnd from rfl, hnew] at hget
      cases hget
      exact fun hout => hfresh (h.known _ hout.mem)
    · exact h.pooled n keypool hmem ((hold n (hne (.inl hmem))).symm.trans hget)
  · intro i n keypool hi hget
    exact h.held i n keypool hi ((hold n (hne (.inr ⟨i, hi⟩))).symm.trans hget)
  · intro key hkey
    exact Finset.mem_insert_of_mem (h.known key hkey)
  · exact h.exclusive

/-- Adding a key leaves the conditions for the keys that come after it. -/
theorem clear_addKey {nSize : ℕ} {newKeys : ℕ → NewKey κ} (hclear : s.Clear nSize newKeys)
    (hwritten : (newKeys 0).written = true) :
    ((s.generateNewKey (newKeys 0)).addKey (newKeys 0)).Clear nSize fun i => newKeys (i + 1) := by
  intro j hlt hall i hi
  rw [KeyPoolWallet.card_addKey] at hlt
  rw [KeyPoolWallet.nEnd_addKey] at hi
  have hcard : s.setKeyPool.card + (j + 1) < nSize := by
    rw [show (s.generateNewKey (newKeys 0)).setKeyPool = s.setKeyPool from rfl] at hlt
    omega
  refine hclear (j + 1) hcard (fun k hk => ?_) i ?_
  · cases k with
    | zero => exact hwritten
    | succ k => exact hall k (by omega)
  · have hsum : s.nEnd + ((j + 1 : ℕ) : ℤ) = s.nEnd + 1 + j := by
      push_cast
      ring
    rw [hsum]
    exact hi

theorem fresh_addKey {nSize : ℕ} {newKeys : ℕ → NewKey κ} (hfresh : s.Fresh nSize newKeys) :
    ((s.generateNewKey (newKeys 0)).addKey (newKeys 0)).Fresh nSize fun i => newKeys (i + 1) := by
  intro j hlt
  rw [KeyPoolWallet.card_addKey] at hlt
  rw [show (s.generateNewKey (newKeys 0)).setKeyPool = s.setKeyPool from rfl] at hlt
  obtain ⟨hnew, hne⟩ := hfresh (j + 1) (by omega)
  refine ⟨fun hmem => ?_, fun i hi => hne (i + 1) (by omega)⟩
  rcases Finset.mem_insert.mp hmem with heq | hmem
  · exact hne 0 (Nat.succ_pos j) heq.symm
  · exact hnew hmem

theorem topUpLoop {nSize : ℕ} : ∀ (fuel : ℕ) {newKeys : ℕ → NewKey κ} {s : KeyPoolWallet κ},
    KeyPoolInv t s → s.Clear nSize newKeys → s.Fresh nSize newKeys →
    KeyPoolInv t (s.topUpLoop nSize fuel newKeys).2 ∧
      (s.topUpLoop nSize fuel newKeys).2.reserveKeys = s.reserveKeys
  | 0, _, _, h, _, _ => ⟨h, rfl⟩
  | fuel + 1, newKeys, s, h, hclear, hfresh => by
    rw [KeyPoolWallet.topUpLoop]
    split
    · rename_i hlt
      dsimp only
      split
      · rename_i hwritten
        have hfree : ∀ i, ¬ s.Holds i s.nEnd := fun i hi => by
          refine hclear 0 (by omega) (fun k hk => ?_) i ?_
          · rwa [Nat.le_zero.mp hk]
          · rwa [Nat.cast_zero, add_zero]
        exact topUpLoop fuel (h.addKey hfree (hfresh 0 (by omega)).1) (clear_addKey hclear hwritten)
          (fresh_addKey hfresh)
      · exact ⟨h.generateNewKey (newKeys 0), rfl⟩
    · exact ⟨h, rfl⟩

theorem topUpKeyPool (h : KeyPoolInv t s) {env : KeyPoolEnv κ} {kpSize : UInt32}
    (hclear : env.fLocked = false →
      s.Clear (KeyPoolWallet.targetSize env.keypool kpSize) env.newKeys)
    (hfresh : env.fLocked = false →
      s.Fresh (KeyPoolWallet.targetSize env.keypool kpSize) env.newKeys) :
    KeyPoolInv t (s.topUpKeyPool env kpSize).2 ∧
      (s.topUpKeyPool env kpSize).2.reserveKeys = s.reserveKeys := by
  rw [KeyPoolWallet.topUpKeyPool]
  split
  · exact ⟨h, rfl⟩
  · rename_i hunlocked
    rw [Bool.not_eq_true] at hunlocked
    exact topUpLoop _ h (hclear hunlocked) (hfresh hunlocked)

omit [DecidableEq κ] in
/-- The lowest index is given to a holder, with the key of its record or, if it cannot be read,
without it. -/
theorem reserve (h : KeyPoolInv t s) (hne : s.setKeyPool.Nonempty)
    (hi : (s.reserveKeys i).nIndex = -1) {t' : List (Lease κ)} {pubkey : Option κ}
    (hheld : ∀ keypool, s.pool[s.setKeyPool.min' hne]? = some keypool →
      pubkey = some keypool.vchPubKey ∨ ¬ IsOut t' keypool.vchPubKey)
    (hother : ∀ key, (∀ keypool, s.pool[s.setKeyPool.min' hne]? = some keypool →
      key ≠ keypool.vchPubKey) → ¬ IsOut t key → ¬ IsOut t' key)
    (hknown : ∀ key, .out key ∈ t' → key ∈ s.mapKeys) (hexcl : Exclusive t') :
    KeyPoolInv t' (KeyPoolWallet.setReserveKey i ⟨s.setKeyPool.min' hne, pubkey⟩
      { s with setKeyPool := s.setKeyPool.erase (s.setKeyPool.min' hne) }) := by
  set n₀ := s.setKeyPool.min' hne with hn₀
  set s' := KeyPoolWallet.setReserveKey i ⟨n₀, pubkey⟩
    { s with setKeyPool := s.setKeyPool.erase n₀ } with hs'
  have hmem : n₀ ∈ s.setKeyPool := Finset.min'_mem _ _
  have hpos := h.pos n₀ (.inl hmem)
  have hholds : ∀ j n, s'.Holds j n ↔ (j = i ∧ n = n₀) ∨ s.Holds j n := by
    intro j n
    rw [hs', KeyPoolWallet.holds_setReserveKey]
    constructor
    · rintro (⟨rfl, rfl, -⟩ | ⟨-, hj⟩)
      · exact .inl ⟨rfl, rfl⟩
      · exact .inr hj
    · rintro (⟨rfl, rfl⟩ | hj)
      · exact .inl ⟨rfl, rfl, by omega⟩
      · refine .inr ⟨?_, hj⟩
        rintro rfl
        exact hj.2 (hj.1.symm.trans hi)
  have hlive : ∀ n, s'.Live n → s.Live n := by
    rintro n (hn | ⟨j, hj⟩)
    · exact .inl (Finset.mem_of_mem_erase hn)
    · rcases (hholds j n).mp hj with ⟨-, rfl⟩ | hj
      · exact .inl hmem
      · exact .inr ⟨j, hj⟩
  have hrecord : ∀ {n keypool keypool'}, s.Live n → n ≠ n₀ → s.pool[n]? = some keypool →
      s.pool[n₀]? = some keypool' → keypool.vchPubKey ≠ keypool'.vchPubKey :=
    fun hn hnn hget hget' heq => hnn (h.keys _ _ _ _ hn (.inl hmem) hget hget' heq)
  constructor
  · exact fun n hn => h.pos n (hlive n hn)
  · exact fun n hn => h.record n (hlive n hn)
  · exact fun n n' keypool keypool' hn hn' => h.keys n n' keypool keypool' (hlive n hn) (hlive n' hn')
  · intro j j' n hj hj'
    rcases (hholds j n).mp hj with ⟨hji, hn⟩ | hold <;>
      rcases (hholds j' n).mp hj' with ⟨hji', hn'⟩ | hold'
    · exact hji.trans hji'.symm
    · exact absurd (hn ▸ hmem) (h.disjoint j' n hold')
    · exact absurd (hn' ▸ hmem) (h.disjoint j n hold)
    · exact h.inj j j' n hold hold'
  · intro j n hj hn
    rcases (hholds j n).mp hj with ⟨-, heq⟩ | hold
    · exact Finset.ne_of_mem_erase hn heq
    · exact h.disjoint j n hold (Finset.mem_of_mem_erase hn)
  · intro n keypool hn hget
    have hn' := Finset.mem_of_mem_erase hn
    exact hother _ (fun keypool' hget' => hrecord (.inl hn') (Finset.ne_of_mem_erase hn) hget hget')
      (h.pooled n keypool hn' hget)
  · intro j n keypool hj hget
    rcases (hholds j n).mp hj with ⟨rfl, rfl⟩ | hold
    · have hkey : s'.reserveKeys j = ⟨n₀, pubkey⟩ := Function.update_self ..
      rw [hkey]
      exact hheld keypool hget
    · have hji : j ≠ i := by
        rintro rfl
        exact hold.2 (hold.1.symm.trans hi)
      have hnn : n ≠ n₀ := by
        rintro rfl
        exact h.disjoint j _ hold hmem
      have hkey : s'.reserveKeys j = s.reserveKeys j := Function.update_of_ne hji ..
      rw [hkey]
      exact (h.held j n keypool hold hget).imp_right (hother _ fun keypool' hget' =>
        hrecord (.inr ⟨j, hold⟩) hnn hget hget')
  · exact hknown
  · exact hexcl

omit [DecidableEq κ] in
theorem holds_of_drop {pubkey : Option κ} {j : ℕ} {n : ℤ}
    (hj : (s.setReserveKey i ⟨-1, pubkey⟩).Holds j n) : j ≠ i ∧ s.Holds j n := by
  rcases KeyPoolWallet.holds_setReserveKey.mp hj with ⟨-, heq, hne⟩ | hj
  · exact absurd heq.symm hne
  · exact hj

omit [DecidableEq κ] in
/-- A holder drops the index it has, if any. -/
theorem drop (h : KeyPoolInv t s) (i : ℕ) (pubkey : Option κ) :
    KeyPoolInv t (s.setReserveKey i ⟨-1, pubkey⟩) := by
  have hlive : ∀ {n}, (s.setReserveKey i ⟨-1, pubkey⟩).Live n → s.Live n :=
    Or.imp_right fun ⟨j, hj⟩ => ⟨j, (holds_of_drop hj).2⟩
  refine ⟨fun n hn => h.pos n (hlive hn), fun n hn => h.record n (hlive hn),
    fun n n' keypool keypool' hn hn' => h.keys n n' keypool keypool' (hlive hn) (hlive hn'),
    fun j j' n hj hj' => h.inj j j' n (holds_of_drop hj).2 (holds_of_drop hj').2,
    fun j n hj => h.disjoint j n (holds_of_drop hj).2, h.pooled, fun j n keypool hj hget => ?_,
    h.known, h.exclusive⟩
  have hkey : (s.setReserveKey i ⟨-1, pubkey⟩).reserveKeys j = s.reserveKeys j :=
    Function.update_of_ne (holds_of_drop hj).1 ..
  rw [hkey]
  exact h.held j n keypool (holds_of_drop hj).2 hget

omit [DecidableEq κ] in
/-- The record goes of an index that is not live. -/
theorem keepKey (h : KeyPoolInv t s) {n₀ : ℤ} (hdead : ¬ s.Live n₀) :
    KeyPoolInv t (s.keepKey n₀) := by
  rw [KeyPoolWallet.keepKey]
  split
  · have hget : ∀ {n}, s.Live n → (s.pool.erase n₀)[n]? = s.pool[n]? := fun hn => by
      rw [Std.ExtTreeMap.getElem?_erase, if_neg fun heq => ?_]
      obtain rfl := Std.LawfulEqOrd.eq_of_compare heq
      exact hdead hn
    refine ⟨h.pos, fun n hn => ?_, fun n n' keypool keypool' hn hn' hrec hrec' => ?_, h.inj, h.disjoint,
      fun n keypool hn hrec => ?_, fun j n keypool hj hrec => ?_, h.known, h.exclusive⟩
    · obtain ⟨keypool, hrec, hmem⟩ := h.record n hn
      exact ⟨keypool, (hget hn).trans hrec, hmem⟩
    · exact h.keys n n' keypool keypool' hn hn' ((hget hn).symm.trans hrec)
        ((hget hn').symm.trans hrec')
    · exact h.pooled n keypool hn ((hget (.inl hn)).symm.trans hrec)
    · exact h.held j n keypool hj ((hget (.inr ⟨j, hj⟩)).symm.trans hrec)
  · exact h

omit [DecidableEq κ] in
/-- A holder keeps its key, and the record of it may go. -/
theorem keepReservedKey (h : KeyPoolInv t s) (i : ℕ) : KeyPoolInv t (s.keepReservedKey i) := by
  rw [KeyPoolWallet.keepReservedKey]
  by_cases hi : (s.reserveKeys i).nIndex = -1
  · rw [if_pos hi]
    exact h.drop i none
  · rw [if_neg hi]
    have hmine : s.Holds i (s.reserveKeys i).nIndex := ⟨rfl, hi⟩
    have hdead : ¬ (s.setReserveKey i {}).Live (s.reserveKeys i).nIndex := by
      rintro (hn | ⟨j, hj⟩)
      · exact h.disjoint i _ hmine hn
      · exact (holds_of_drop hj).1 (h.inj j i _ (holds_of_drop hj).2 hmine)
    have hcomm : (s.keepKey (s.reserveKeys i).nIndex).setReserveKey i {} =
        (s.setReserveKey i {}).keepKey (s.reserveKeys i).nIndex := by
      unfold KeyPoolWallet.keepKey KeyPoolWallet.setReserveKey
      split <;> rfl
    rw [hcomm]
    exact (h.drop i none).keepKey hdead

omit [DecidableEq κ] in
/-- A holder returns its index, and its key is given back. -/
theorem returnReservedKey (h : KeyPoolInv t s) (i : ℕ) :
    KeyPoolInv (t ++ (s.returnReservedKey i).1) (s.returnReservedKey i).2 := by
  rw [KeyPoolWallet.returnReservedKey]
  by_cases hi : (s.reserveKeys i).nIndex = -1
  · rw [if_pos hi, List.append_nil]
    exact h.drop i none
  · rw [if_neg hi]
    dsimp only
    set n₀ := (s.reserveKeys i).nIndex with hn₀
    set s' := KeyPoolWallet.setReserveKey i {} (s.returnKey n₀) with hs'
    set t' := t ++ (s.reserveKeys i).vchPubKey.toList.map Lease.back with ht'
    have hmine : s.Holds i n₀ := ⟨rfl, hi⟩
    have hholds : ∀ {j n}, s'.Holds j n → j ≠ i ∧ s.Holds j n := fun hj => holds_of_drop hj
    have hlive : ∀ {n}, s'.Live n → s.Live n := by
      rintro n (hn | ⟨j, hj⟩)
      · rcases Finset.mem_insert.mp hn with rfl | hn
        · exact .inr ⟨i, hmine⟩
        · exact .inl hn
      · exact .inr ⟨j, (hholds hj).2⟩
    -- giving back changes who is out only for the key given back
    have hback : ∀ key, (s.reserveKeys i).vchPubKey = some key ∨ ¬ IsOut t key → ¬ IsOut t' key := by
      intro key hkey
      rw [ht']
      cases hpub : (s.reserveKeys i).vchPubKey with
      | none =>
        rw [hpub] at hkey
        rw [Option.toList_none, List.map_nil, List.append_nil]
        exact hkey.resolve_left nofun
      | some pubkey =>
        rw [hpub] at hkey
        exact not_isOut_snoc_back (hkey.imp_left fun heq => (Option.some.inj heq).symm)
    constructor
    · exact fun n hn => h.pos n (hlive hn)
    · exact fun n hn => h.record n (hlive hn)
    · exact fun n n' keypool keypool' hn hn' => h.keys n n' keypool keypool' (hlive hn) (hlive hn')
    · exact fun j j' n hj hj' => h.inj j j' n (hholds hj).2 (hholds hj').2
    · intro j n hj hn
      obtain ⟨hji, hj⟩ := hholds hj
      rcases Finset.mem_insert.mp hn with rfl | hn
      · exact hji (h.inj j i _ hj hmine)
      · exact h.disjoint j n hj hn
    · intro n keypool hn hget
      rcases Finset.mem_insert.mp hn with rfl | hn
      · exact hback _ (h.held i _ keypool hmine hget)
      · exact hback _ (.inr (h.pooled n keypool hn hget))
    · intro j n keypool hj hget
      obtain ⟨hji, hj⟩ := hholds hj
      have hkey : s'.reserveKeys j = s.reserveKeys j := Function.update_of_ne hji ..
      rw [hkey]
      exact (h.held j n keypool hj hget).imp_right fun hout => hback _ (.inr hout)
    · intro key hkey
      rcases List.mem_append.mp hkey with hkey | hkey
      · exact h.known key hkey
      · obtain ⟨_, -, heq⟩ := List.mem_map.mp hkey
        cases heq
    · rw [ht']
      cases (s.reserveKeys i).vchPubKey with
      | none => simpa using h.exclusive
      | some pubkey => exact h.exclusive.snoc_back

/-- A key that is read is the one of the record, and it is in the key store. -/
theorem of_readReserved {env : KeyPoolEnv κ} {n : ℤ} {key : Option (CKeyPool κ)}
    (hread : s.readReserved env n = .ok key) :
    ∃ keypool, key = some keypool ∧ s.pool[n]? = some keypool ∧ keypool.vchPubKey ∈ s.mapKeys := by
  rw [KeyPoolWallet.readReserved] at hread
  cases henv : env.read with
  | false => simp [henv] at hread
  | true =>
    rw [henv, if_pos rfl] at hread
    split at hread
    · cases hread
    · rename_i keypool hget
      split at hread
      · rename_i hmem
        cases hread
        exact ⟨keypool, rfl, hget, hmem⟩
      · cases hread

/-- What a reservation leaves, once the holder has the index and the key. -/
def Reserves (t : List (Lease κ)) (i : ℕ) (nIndex : ℤ) (s : KeyPoolWallet κ) :
    Except String (Option (CKeyPool κ)) → Prop
  | .error _ => ∀ pubkey, KeyPoolInv t (s.setReserveKey i ⟨nIndex, pubkey⟩)
  | .ok (some keypool) => KeyPoolInv (t ++ [.out keypool.vchPubKey])
      (s.setReserveKey i ⟨nIndex, some keypool.vchPubKey⟩)
  | .ok none => KeyPoolInv t s

theorem reserveKeyFromKeyPool (h : KeyPoolInv t s) {env : KeyPoolEnv κ}
    (hi : (s.reserveKeys i).nIndex = -1)
    (hclear : env.fLocked = false → s.Clear (KeyPoolWallet.targetSize env.keypool 0) env.newKeys)
    (hfresh : env.fLocked = false → s.Fresh (KeyPoolWallet.targetSize env.keypool 0) env.newKeys)
    {nIndex : ℤ} {result : Except String (Option (CKeyPool κ))} {s' : KeyPoolWallet κ}
    (hrun : s.reserveKeyFromKeyPool env = (nIndex, result, s')) :
    Reserves t i nIndex s' result := by
  obtain ⟨h₁, hreserve⟩ := h.topUpKeyPool hclear hfresh
  have htop : (if env.fLocked then (.ok false, s) else s.topUpKeyPool env 0) =
      s.topUpKeyPool env 0 := by
    cases hlocked : env.fLocked with
    | false => rfl
    | true => rw [KeyPoolWallet.topUpKeyPool, hlocked, if_pos rfl, if_pos rfl]
  rw [KeyPoolWallet.reserveKeyFromKeyPool, htop] at hrun
  generalize s.topUpKeyPool env 0 = top at h₁ hreserve hrun
  obtain ⟨topUp, s₁⟩ := top
  rw [← hreserve] at hi
  cases topUp with
  | error e =>
    cases hrun
    exact fun pubkey => h₁.drop i pubkey
  | ok _ =>
    dsimp only at hrun h₁ hi
    split at hrun
    · rename_i hne
      simp only [Prod.mk.injEq] at hrun
      obtain ⟨rfl, hread, rfl⟩ := hrun
      -- the set has changed since, the records and the key store have not
      cases result with
      | error e =>
        exact fun pubkey => h₁.reserve hne hi
          (fun keypool hget => .inr (h₁.pooled _ keypool (Finset.min'_mem _ _) hget))
          (fun _ _ hout => hout) h₁.known h₁.exclusive
      | ok key =>
        obtain ⟨keypool, rfl, hget, hmem⟩ := of_readReserved hread
        have hout := h₁.pooled _ keypool (Finset.min'_mem _ hne) hget
        refine h₁.reserve hne hi (fun keypool' hget' => .inl ?_) (fun key hkey hnot => ?_)
          (fun key hkey => ?_) (h₁.exclusive.snoc_out hout)
        · rw [Option.some.inj (hget.symm.trans hget')]
        · exact not_isOut_snoc_out (hkey keypool hget) hnot
        · rcases List.mem_append.mp hkey with hkey | hkey
          · exact h₁.known key hkey
          · cases List.mem_singleton.mp hkey
            exact hmem
    · cases hrun
      exact h₁

/-- A holder gets a key, if it has none. -/
theorem getReservedKey (h : KeyPoolInv t s) {env : KeyPoolEnv κ}
    (hclear : (s.reserveKeys i).nIndex = -1 → env.fLocked = false →
      s.Clear (KeyPoolWallet.targetSize env.keypool 0) env.newKeys)
    (hfresh : (s.reserveKeys i).nIndex = -1 → env.fLocked = false →
      s.Fresh (KeyPoolWallet.targetSize env.keypool 0) env.newKeys)
    {result : Except String (Option κ)} {t' : List (Lease κ)} {s' : KeyPoolWallet κ}
    (hrun : s.getReservedKey i env = some (result, t', s')) : KeyPoolInv (t ++ t') s' := by
  rw [KeyPoolWallet.getReservedKey] at hrun
  by_cases hi : (s.reserveKeys i).nIndex = -1
  · rw [if_pos hi] at hrun
    obtain ⟨nIndex, reserved, s₁, hres⟩ : ∃ nIndex reserved s₁,
        s.reserveKeyFromKeyPool env = (nIndex, reserved, s₁) := ⟨_, _, _, rfl⟩
    have h₁ := h.reserveKeyFromKeyPool hi (hclear hi) (hfresh hi) hres
    rw [hres] at hrun
    match reserved with
    | .error e =>
      cases hrun
      rw [List.append_nil]
      exact h₁ _
    | .ok (some keypool) =>
      cases hrun
      exact h₁
    | .ok none =>
      have hdrop : ∀ pubkey, KeyPoolInv t (s₁.setReserveKey i ⟨-1, pubkey⟩) := fun pubkey =>
        h₁.drop i pubkey
      dsimp only at hrun
      split at hrun
      · cases hrun
        rw [List.append_nil]
        exact hdrop _
      · cases hrun
        rw [List.append_nil]
        exact hdrop _
  · rw [if_neg hi] at hrun
    obtain ⟨pubkey, -, heq⟩ := Option.map_eq_some_iff.mp hrun
    cases heq
    rw [List.append_nil]
    exact h

end KeyPoolInv

/-! ## Runs -/

variable {t t' : List (Lease κ)} {s s' : KeyPoolWallet κ}

/-- A call that gives no reserved index to a new key keeps the invariant. -/
theorem KeyPoolCall.exec_spec (h : KeyPoolInv t s) {call : KeyPoolCall κ} (hclear : call.Clear s)
    (hfresh : call.Fresh s) (hrun : call.exec s = some (t', s')) : KeyPoolInv (t ++ t') s' := by
  cases call with
  | topUpKeyPool env kpSize =>
    cases hrun
    rw [List.append_nil]
    exact (h.topUpKeyPool hclear hfresh).1
  | getReservedKey i env =>
    obtain ⟨⟨result, t'', s''⟩, hget, heq⟩ := Option.map_eq_some_iff.mp hrun
    cases heq
    exact h.getReservedKey hclear hfresh hget
  | keepKey i =>
    cases hrun
    rw [List.append_nil]
    exact h.keepReservedKey i
  | returnKey i =>
    have hreturn := h.returnReservedKey i
    rwa [Option.some.inj hrun] at hreturn

/-- A wallet as it is loaded : nothing is reserved, and the indices in the set have records of
different keys, which are in the key store. -/
structure KeyPoolWallet.Loaded (s : KeyPoolWallet κ) : Prop where
  free : ∀ i, (s.reserveKeys i).nIndex = -1
  pos : ∀ n ∈ s.setKeyPool, 1 ≤ n
  record : ∀ n ∈ s.setKeyPool, ∃ keypool, s.pool[n]? = some keypool ∧ keypool.vchPubKey ∈ s.mapKeys
  keys : ∀ n ∈ s.setKeyPool, ∀ n' ∈ s.setKeyPool, ∀ keypool keypool', s.pool[n]? = some keypool →
    s.pool[n']? = some keypool' → keypool.vchPubKey = keypool'.vchPubKey → n = n'

omit [DecidableEq κ] in
theorem KeyPoolWallet.Loaded.inv (h : s.Loaded) : KeyPoolInv [] s := by
  have hholds : ∀ {i n}, ¬ s.Holds i n := fun {i n} hi => hi.2 (hi.1.symm.trans (h.free i))
  have hlive : ∀ {n}, s.Live n → n ∈ s.setKeyPool := by
    rintro n (hn | ⟨i, hi⟩)
    · exact hn
    · exact absurd hi hholds
  exact ⟨fun n hn => h.pos n (hlive hn), fun n hn => h.record n (hlive hn),
    fun n n' keypool keypool' hn hn' => h.keys n (hlive hn) n' (hlive hn') keypool keypool',
    fun i j n hi => absurd hi hholds, fun i n hi => absurd hi hholds, fun _ _ _ _ => not_isOut_nil,
    fun i n keypool hi => absurd hi hholds, fun key hkey => absurd hkey List.not_mem_nil, .nil⟩

/-- A call that gives no reserved index to a new key, with the trace of the keys. -/
def ClearStep (before after : List (Lease κ) × KeyPoolWallet κ) : Prop :=
  ∃ (call : KeyPoolCall κ) (t' : List (Lease κ)), call.Clear before.2 ∧ call.Fresh before.2 ∧
    call.exec before.2 = some (t', after.2) ∧ after.1 = before.1 ++ t'

/-- The indices reserved are different and not in the set, each index in the set has its
record, and no key is handed out again before it is given back. -/
structure NoCollision (t : List (Lease κ)) (s : KeyPoolWallet κ) : Prop where
  distinct : ∀ i j n, s.Holds i n → s.Holds j n → i = j
  not_mem : ∀ i n, s.Holds i n → n ∉ s.setKeyPool
  record : ∀ n ∈ s.setKeyPool, ∃! keypool, s.pool[n]? = some keypool
  exclusive : Exclusive t

/-- If no reserved index is given to a new key, reservations never collide. -/
theorem keyPool_of_run (hload : s.Loaded) (hrun : Relation.ReflTransGen ClearStep ([], s) (t, s')) :
    NoCollision t s' := by
  have h : KeyPoolInv t s' := invariant_of_steps (P := fun r => KeyPoolInv r.1 r.2)
    (fun before after h ⟨call, t', hclear, hfresh, hexec, heq⟩ => by
      rw [heq]
      exact call.exec_spec h hclear hfresh hexec) hrun hload.inv
  refine ⟨h.inj, h.disjoint, fun n hn => ?_, h.exclusive⟩
  obtain ⟨keypool, hget, -⟩ := h.record n (.inl hn)
  exact ⟨keypool, hget, fun keypool' hget' => Option.some.inj (hget'.symm.trans hget)⟩

/-- An unlocked wallet, with keys numbered from some number on. -/
def numberedEnv (keypool : ℤ) (first : ℕ) : KeyPoolEnv ℕ :=
  ⟨false, keypool, fun i => ⟨first + i, 0, true⟩, true⟩

/-- A wallet without keys. -/
def emptyKeyPool : KeyPoolWallet ℕ := { fFileBacked := true }

theorem emptyKeyPool_loaded : emptyKeyPool.Loaded := by
  refine ⟨fun _ => rfl, fun n hn => ?_, fun n hn => ?_, fun n hn => ?_⟩
  all_goals exact absurd hn (Finset.notMem_empty n)

/-- A holder reserves a key of a pool without keys. -/
theorem noCollision_of_getReservedKey :
    NoCollision [.out 0] (((emptyKeyPool.getReservedKey 0 (numberedEnv 1 0)).map
      fun r => r.2.2).get (by decide)) := by
  have htrace : (emptyKeyPool.getReservedKey 0 (numberedEnv 1 0)).map (fun r => r.2.1) =
      some [.out 0] := by decide
  obtain ⟨r, hr, hout⟩ := Option.map_eq_some_iff.mp htrace
  refine keyPool_of_run emptyKeyPool_loaded (.single ⟨.getReservedKey 0 (numberedEnv 1 0), [.out 0],
    fun _ _ j _ _ i hi => hi.2 hi.1.symm, fun _ _ j _ => ⟨Finset.notMem_empty _, fun i hi => ?_⟩,
    ?_, rfl⟩)
  · exact (Nat.add_lt_add_left hi 0).ne
  · simp only [KeyPoolCall.exec, hr, Option.map_some, Option.get_some, ← hout]

/-- The state after a call that does not fail. -/
def execState (call : KeyPoolCall ℕ) (s : KeyPoolWallet ℕ) : KeyPoolWallet ℕ :=
  ((call.exec s).map Prod.snd).getD s

theorem exec_eq {call : KeyPoolCall ℕ} {s : KeyPoolWallet ℕ} {t : List (Lease ℕ)}
    (h : (call.exec s).map Prod.fst = some t) : call.exec s = some (t, execState call s) := by
  obtain ⟨r, hr, rfl⟩ := Option.map_eq_some_iff.mp h
  rw [execState, hr, Option.map_some, Option.getD_some]

/-- The wallet after a holder reserved a key of an empty pool, with `-keypool=0`. -/
def oneReserved : KeyPoolWallet ℕ := execState (.getReservedKey 0 (numberedEnv 0 0)) emptyKeyPool

/-- The wallet after a second holder did so too. -/
def twoReserved : KeyPoolWallet ℕ := execState (.getReservedKey 1 (numberedEnv 0 1)) oneReserved

/-- With `-keypool=0` two holders reserve one after the other : the set is empty when the second
key is made, and both get the index 1. -/
theorem reserveKey_collides :
    (KeyPoolCall.getReservedKey 0 (numberedEnv 0 0)).Fresh emptyKeyPool ∧
      KeyPoolCall.exec emptyKeyPool (.getReservedKey 0 (numberedEnv 0 0)) =
        some ([.out 0], oneReserved) ∧
      (KeyPoolCall.getReservedKey 1 (numberedEnv 0 1)).Fresh oneReserved ∧
      KeyPoolCall.exec oneReserved (.getReservedKey 1 (numberedEnv 0 1)) =
        some ([.out 1], twoReserved) ∧
      twoReserved.Holds 0 1 ∧ twoReserved.Holds 1 1 ∧ ¬ NoCollision [.out 0, .out 1] twoReserved := by
  have hkeys : oneReserved.mapKeys = {0} := by decide
  have hfirst : twoReserved.Holds 0 1 := ⟨by decide, by decide⟩
  have hsecond : twoReserved.Holds 1 1 := ⟨by decide, by decide⟩
  refine ⟨fun _ _ j _ => ⟨Finset.notMem_empty _, fun i hi => ?_⟩, exec_eq (by decide),
    fun _ _ j _ => ⟨fun hmem => ?_, fun i hi => ?_⟩, exec_eq (by decide), hfirst, hsecond,
    fun h => ?_⟩
  · exact (Nat.add_lt_add_left hi 0).ne
  · rw [hkeys, Finset.mem_singleton] at hmem
    exact (Nat.succ_ne_zero _ ((Nat.add_comm _ _).trans hmem))
  · exact (Nat.add_lt_add_left hi 1).ne
  · exact absurd (h.distinct 0 1 1 hfirst hsecond) (by decide)

end Ticoin
