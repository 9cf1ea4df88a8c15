import Mathlib

/-!
# Byte strings, little-endian numbers and readers

Wire formats write numbers as a fixed count of bytes, least significant first
(`leBytes`), and read them back from the front of a stream. A reader is a state
computation over the bytes still to come, failing with an error of the format's own
type.

A value written by one side and read by the other is stated with `Reads p bs a` : the
reader `p` consumes exactly `bs` and returns `a`, whatever follows. `Reads` composes
along `>>=` (`Reads.bind`), so the round trip of a record is assembled from those of its
fields, and the round trip of a vector from that of its elements (`reads_readN`). A reader
that accepts nothing but what is written is `Canonical`.

Flags are packed eight to a byte, least significant bit first. Unpacking gives the flags
back followed by the padding of the last byte (`unpackBits_packBits`).
-/

namespace Codec

abbrev Bytes := List UInt8

/-! ## Little-endian numbers -/

/-- The `k` low-order bytes of `n`, least significant first. -/
def leBytes : ℕ → ℕ → Bytes
  | 0, _ => []
  | k + 1, n => UInt8.ofNat n :: leBytes k (n / 256)

/-- The number written by a byte string, least significant byte first. -/
def ofLeBytes : Bytes → ℕ
  | [] => 0
  | b :: bs => b.toNat + 256 * ofLeBytes bs

@[simp] theorem length_leBytes : ∀ k n : ℕ, (leBytes k n).length = k
  | 0, _ => rfl
  | k + 1, n => by rw [leBytes, List.length_cons, length_leBytes]

theorem ofLeBytes_leBytes : ∀ k n : ℕ, ofLeBytes (leBytes k n) = n % 256 ^ k
  | 0, n => by simp [leBytes, ofLeBytes, Nat.mod_one]
  | k + 1, n => by
    rw [leBytes, ofLeBytes, ofLeBytes_leBytes k, pow_succ', Nat.mod_mul]
    simp

/-- A number below `256 ^ k` is recovered from its `k` bytes. -/
theorem ofLeBytes_leBytes_of_lt {k n : ℕ} (h : n < 256 ^ k) : ofLeBytes (leBytes k n) = n := by
  rw [ofLeBytes_leBytes, Nat.mod_eq_of_lt h]

theorem leBytes_inj {k m n : ℕ} (hm : m < 256 ^ k) (hn : n < 256 ^ k)
    (h : leBytes k m = leBytes k n) : m = n := by
  rw [← ofLeBytes_leBytes_of_lt hm, h, ofLeBytes_leBytes_of_lt hn]

/-! ## Packed bits -/

/-- Bit `p` of a byte string. -/
def bitAt (vBytes : Bytes) (p : ℕ) : Bool := (vBytes.getD (p / 8) 0).toNat.testBit (p % 8)

/-- Set bit `p` of a byte string when `b` holds. -/
def orBit (vBytes : Bytes) (p : ℕ) (b : Bool) : Bytes :=
  vBytes.modify (p / 8) fun x => UInt8.ofNat (x.toNat ||| b.toNat <<< (p % 8))

/-- The flags packed eight to a byte, in zeroed bytes. -/
def packBits (bits : List Bool) : Bytes :=
  (List.range bits.length).foldl (fun v p => orBit v p (bits.getD p false))
    (List.replicate ((bits.length + 7) / 8) 0)

/-- All flags of a byte string. -/
def unpackBits (vBytes : Bytes) : List Bool := (List.range (vBytes.length * 8)).map (bitAt vBytes)

@[simp] theorem length_orBit (v : Bytes) (p : ℕ) (b : Bool) : (orBit v p b).length = v.length := by
  simp [orBit]

/-- Setting one bit changes no other. -/
theorem bitAt_orBit {v : Bytes} {p : ℕ} (b : Bool) (hp : p / 8 < v.length) (q : ℕ) :
    bitAt (orBit v p b) q = (bitAt v q || (q == p && b)) := by
  have hbyte : v[p / 8].toNat ||| b.toNat <<< (p % 8) < 2 ^ 8 := by
    refine Nat.or_lt_two_pow (UInt8.toNat_lt _) ?_
    have hshift : b.toNat * 2 ^ (p % 8) ≤ 1 * 2 ^ 7 :=
      Nat.mul_le_mul (Bool.toNat_le b) (Nat.pow_le_pow_right (by omega) (by omega))
    rw [Nat.shiftLeft_eq]
    omega
  rw [bitAt, bitAt, orBit, List.getD_eq_getElem?_getD, List.getD_eq_getElem?_getD,
    List.getElem?_modify]
  rcases eq_or_ne (p / 8) (q / 8) with hq | hq
  · have hbit : (b.toNat <<< (p % 8)).testBit (q % 8) = (q == p && b) := by
      rw [Nat.testBit_shiftLeft, Nat.testBit_bool_toNat]
      rcases eq_or_ne q p with rfl | hne
      · simp
      · have hbeq : (q == p) = false := by simpa using hne
        have hsub : p % 8 ≤ q % 8 → q % 8 - p % 8 ≠ 0 := by omega
        by_cases hle : p % 8 ≤ q % 8
        · simp [hbeq, hsub hle]
        · simp [hbeq, hle]
    rw [← hq, List.getElem?_eq_getElem hp]
    simp only [if_true, Option.map_eq_map, Option.map_some, Option.getD_some,
      UInt8.toNat_ofNat', Nat.mod_eq_of_lt hbyte]
    rw [Nat.testBit_or, hbit]
  · have hne : (q == p) = false := by
      simp only [beq_eq_false_iff_ne]
      rintro rfl
      exact hq rfl
    simp [hq, hne]

theorem length_foldl_orBit (bits : List Bool) : ∀ (ps : List ℕ) (v : Bytes),
    (ps.foldl (fun v p => orBit v p (bits.getD p false)) v).length = v.length
  | [], _ => rfl
  | p :: ps, v => by rw [List.foldl_cons, length_foldl_orBit bits ps, length_orBit]

@[simp] theorem length_packBits (bits : List Bool) :
    (packBits bits).length = (bits.length + 7) / 8 := by
  rw [packBits, length_foldl_orBit, List.length_replicate]

/-- A packed flag is read back; the padding reads as unset flags. -/
theorem bitAt_packBits (bits : List Bool) (q : ℕ) :
    bitAt (packBits bits) q = bits.getD q false := by
  have hfold : ∀ k ≤ bits.length, ∀ v : Bytes, (bits.length + 7) / 8 ≤ v.length →
      bitAt ((List.range k).foldl (fun v p => orBit v p (bits.getD p false)) v) q =
        (bitAt v q || (decide (q < k) && bits.getD q false)) := by
    intro k hk v hv
    induction k with
    | zero => simp
    | succ k ih =>
      rw [List.range_succ, List.foldl_append, List.foldl_cons, List.foldl_nil,
        bitAt_orBit _ (by rw [length_foldl_orBit]; omega), ih (by omega)]
      rcases Nat.lt_trichotomy q k with h | rfl | h
      · simp [h, Nat.lt_succ_of_lt h, h.ne]
      · simp
      · simp [h.not_gt, h.ne', show ¬q < k + 1 by omega]
  rw [packBits, hfold _ le_rfl _ (by simp)]
  rcases Nat.lt_or_ge q bits.length with h | h
  · simp [bitAt, h]
  · simp [bitAt, h.not_gt]

/-- Unpacking packed flags gives them back, followed by the padding of the last byte. -/
theorem unpackBits_packBits (bits : List Bool) :
    unpackBits (packBits bits) =
      bits ++ List.replicate ((bits.length + 7) / 8 * 8 - bits.length) false := by
  refine List.ext_getElem ?_ fun p hp _ => ?_
  · simp only [unpackBits, List.length_map, List.length_range, length_packBits,
      List.length_append, List.length_replicate]
    omega
  · simp only [unpackBits, List.getElem_map, List.getElem_range, bitAt_packBits,
      List.getElem_append, List.getElem_replicate]
    split
    · rename_i h
      exact List.getD_eq_getElem _ _ h
    · rename_i h
      exact List.getD_eq_default _ _ (by omega)

/-! ## Readers -/

/-- A reader : a computation over the bytes still to come. -/
abbrev Parser (ε α : Type) := StateT Bytes (Except ε) α

variable {ε α β : Type}

/-- Read `n` bytes, failing with `eof` when fewer are left. -/
def readBytes (eof : ε) (n : ℕ) : Parser ε Bytes := fun s =>
  if s.length < n then .error eof else .ok (s.take n, s.drop n)

/-- Read a `k`-byte number. -/
def readLe (eof : ε) (k : ℕ) : Parser ε ℕ := do
  let bs ← readBytes eof k
  return ofLeBytes bs

/-- Fail with `e` when `c` holds. -/
def failIf (e : ε) (c : Prop) [Decidable c] : Parser ε Unit := fun s =>
  if c then .error e else .ok ((), s)

/-- Read `n` values one after the other. -/
def readN (p : Parser ε α) : ℕ → Parser ε (List α)
  | 0 => return []
  | n + 1 => do
    let a ← p
    let as ← readN p n
    return a :: as

/-- `p` consumes exactly `bs` and returns `a`, whatever follows. -/
def Reads (p : Parser ε α) (bs : Bytes) (a : α) : Prop :=
  ∀ rest, p (bs ++ rest) = .ok (a, rest)

theorem Reads.pure (a : α) : Reads (Pure.pure a : Parser ε α) [] a := fun _ => rfl

theorem Reads.bind {p : Parser ε α} {f : α → Parser ε β} {bs cs : Bytes} {a : α} {b : β}
    (hp : Reads p bs a) (hf : Reads (f a) cs b) : Reads (p >>= f) (bs ++ cs) b := fun rest => by
  change (p (bs ++ cs ++ rest) >>= fun r => f r.1 r.2) = _
  rw [List.append_assoc, hp]
  exact hf rest

/-- A reader followed by one that consumes nothing. -/
theorem Reads.bind_nil {p : Parser ε α} {f : α → Parser ε β} {bs : Bytes} {a : α} {b : β}
    (hp : Reads p bs a) (hf : Reads (f a) [] b) : Reads (p >>= f) bs b := by
  have h := hp.bind hf
  rwa [List.append_nil] at h

/-- A reader after one that consumes nothing. -/
theorem Reads.pure_bind {a : α} {f : α → Parser ε β} {bs : Bytes} {b : β} (hf : Reads (f a) bs b) :
    Reads (Pure.pure a >>= f) bs b :=
  Reads.bind (Reads.pure a) hf

/-- A reader followed by a pure function of what it read. -/
theorem Reads.map {p : Parser ε α} {bs : Bytes} {a : α} (f : α → β) (hp : Reads p bs a) :
    Reads (p >>= fun x => Pure.pure (f x)) bs (f a) :=
  hp.bind_nil (Reads.pure (f a))

theorem reads_failIf (e : ε) {c : Prop} [Decidable c] (h : ¬c) : Reads (failIf e c) [] () :=
  fun rest => by simp [failIf, h]

theorem reads_readBytes (eof : ε) (bs : Bytes) : Reads (readBytes eof bs.length) bs bs :=
  fun rest => by simp [readBytes]

theorem reads_readLe (eof : ε) {k n : ℕ} (h : n < 256 ^ k) :
    Reads (readLe eof k) (leBytes k n) n := by
  have hread : Reads (readBytes eof k) (leBytes k n) (leBytes k n) := by
    simpa using reads_readBytes eof (leBytes k n)
  simpa [readLe, ofLeBytes_leBytes_of_lt h] using hread.map ofLeBytes

/-- Reading as many values as were written reads them all back. -/
theorem reads_readN {p : Parser ε α} {enc : α → Bytes} :
    ∀ {as : List α}, (∀ a ∈ as, Reads p (enc a) a) →
      Reads (readN p as.length) (as.flatMap enc) as
  | [], _ => Reads.pure []
  | a :: as, h => by
    have ha := h a List.mem_cons_self
    have has := reads_readN fun x hx => h x (List.mem_cons_of_mem a hx)
    exact ha.bind (has.map (a :: ·))

/-- Values are read in two goes. -/
theorem readN_add (p : Parser ε α) (n : ℕ) : ∀ m, readN p (m + n) = do
    let as ← readN p m
    let bs ← readN p n
    return as ++ bs
  | 0 => by simp [readN]
  | m + 1 => by
    rw [Nat.add_right_comm, readN, readN_add p n m, readN]
    simp only [bind_assoc, pure_bind, List.cons_append]

/-- Bytes are read in two goes. -/
theorem readBytes_add (eof : ε) (m n : ℕ) : readBytes eof (m + n) = do
    let as ← readBytes eof m
    let bs ← readBytes eof n
    return as ++ bs := by
  funext s
  change _ = (readBytes eof m s >>= fun r => readBytes eof n r.2 >>= fun r' => .ok (r.1 ++ r'.1, r'.2))
  unfold readBytes
  by_cases hm : s.length < m
  · rw [if_pos hm, if_pos (by omega)]
    rfl
  · rw [if_neg hm]
    change _ = (if (s.drop m).length < n then _ else _ : Except ε _) >>= _
    by_cases hn : s.length < m + n
    · rw [if_pos hn, if_pos (by rw [List.length_drop]; omega)]
      rfl
    · rw [if_neg hn, if_neg (by rw [List.length_drop]; omega)]
      change _ = Except.ok _
      rw [List.take_add, List.drop_drop]

/-! ## Canonical readers -/

theorem leBytes_ofLeBytes : ∀ bs : Bytes, leBytes bs.length (ofLeBytes bs) = bs
  | [] => rfl
  | b :: bs => by
    have hb := b.toNat_lt
    have hdiv : (b.toNat + 256 * ofLeBytes bs) / 256 = ofLeBytes bs := by omega
    have hmod : UInt8.ofNat (b.toNat + 256 * ofLeBytes bs) = b := by
      rw [← UInt8.toNat_inj, UInt8.toNat_ofNat']
      omega
    rw [List.length_cons, ofLeBytes, leBytes, hdiv, hmod, leBytes_ofLeBytes bs]

theorem ofLeBytes_lt : ∀ bs : Bytes, ofLeBytes bs < 256 ^ bs.length
  | [] => by simp [ofLeBytes]
  | b :: bs => by
    have hb := b.toNat_lt
    have hbs := ofLeBytes_lt bs
    rw [ofLeBytes, List.length_cons, pow_succ]
    omega

/-- What `p` returns is written as the bytes it consumed. -/
def Canonical (p : Parser ε α) (enc : α → Bytes) : Prop :=
  ∀ ⦃s a rest⦄, p s = .ok (a, rest) → s = enc a ++ rest

/-- A reader followed by another one succeeds if both do. -/
theorem ok_of_bind {p : Parser ε α} {f : α → Parser ε β} {s rest : Bytes} {b : β}
    (h : (p >>= f) s = .ok (b, rest)) : ∃ a s', p s = .ok (a, s') ∧ f a s' = .ok (b, rest) := by
  change (p s >>= fun r => f r.1 r.2) = _ at h
  cases hp : p s with
  | error e =>
    rw [hp] at h
    cases h
  | ok r =>
    rw [hp] at h
    exact ⟨r.1, r.2, rfl, h⟩

theorem ok_of_pure {s rest : Bytes} {a b : α} (h : (pure a : Parser ε α) s = .ok (b, rest)) :
    a = b ∧ s = rest := by
  cases h
  exact ⟨rfl, rfl⟩

theorem ok_of_failIf {e : ε} {c : Prop} [Decidable c] {s rest : Bytes} {u : Unit}
    (h : failIf e c s = .ok (u, rest)) : ¬ c ∧ s = rest := by
  unfold failIf at h
  split at h
  · cases h
  · rename_i hc
    cases h
    exact ⟨hc, rfl⟩

theorem ok_of_readBytes {eof : ε} {n : ℕ} {s bs rest : Bytes}
    (h : readBytes eof n s = .ok (bs, rest)) : bs.length = n ∧ s = bs ++ rest := by
  unfold readBytes at h
  split at h
  · cases h
  · rename_i hlen
    cases h
    exact ⟨List.length_take_of_le (not_lt.mp hlen), (List.take_append_drop n s).symm⟩

theorem ok_of_readLe {eof : ε} {k m : ℕ} {s rest : Bytes} (h : readLe eof k s = .ok (m, rest)) :
    m < 256 ^ k ∧ s = leBytes k m ++ rest := by
  obtain ⟨bs, s', hread, h⟩ := ok_of_bind h
  obtain ⟨rfl, rfl⟩ := ok_of_pure h
  obtain ⟨rfl, rfl⟩ := ok_of_readBytes hread
  exact ⟨ofLeBytes_lt bs, by rw [leBytes_ofLeBytes]⟩

/-- Values read one after the other are written one after the other. -/
theorem Canonical.readN {p : Parser ε α} {enc : α → Bytes} (hp : Canonical p enc) :
    ∀ {n : ℕ} {s rest : Bytes} {as : List α}, readN p n s = .ok (as, rest) →
      as.length = n ∧ s = as.flatMap enc ++ rest
  | 0, s, rest, as, h => by
    obtain ⟨rfl, rfl⟩ := ok_of_pure h
    exact ⟨rfl, rfl⟩
  | n + 1, s, rest, as, h => by
    obtain ⟨a, s₁, ha, h⟩ := ok_of_bind h
    obtain ⟨as', s₂, has, h⟩ := ok_of_bind h
    obtain ⟨rfl, rfl⟩ := ok_of_pure h
    obtain ⟨hlen, rfl⟩ := hp.readN has
    refine ⟨by rw [List.length_cons, hlen], ?_⟩
    rw [hp ha, List.flatMap_cons, List.append_assoc]

end Codec
