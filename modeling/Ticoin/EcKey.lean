import Ticoin.Destinations
import Ticoin.ScriptNum
import Mathlib.Data.ZMod.Basic

/-!
# key.cpp : secrets, points and public keys

A secret is a number below the order of the curve, in 32 bytes with the highest first. Its public
key is the serialization of a point. The points and their serialization belong to a library
(`Curve`) ; `Curve.Serves` is what the code relies on. `Check` admits the numbers from 1 to the
order exclusively (`check_iff`), so the point of a secret is not the point at infinity.
-/

namespace Ticoin

open Codec

/-! ## Numbers in bytes -/

/-- `BN_bin2bn`. -/
def bin2bn (vch : Bytes) : ℕ := ofLeBytes vch.reverse

/-- `BN_bn2bin` to the end of 32 bytes that are zero. -/
def bn2bin (n : ℕ) : Bytes := (leBytes 32 n).reverse

@[simp] theorem length_bn2bin (n : ℕ) : (bn2bin n).length = 32 := by simp [bn2bin]

theorem bin2bn_bn2bin {n : ℕ} (hn : n < 256 ^ 32) : bin2bn (bn2bin n) = n := by
  rw [bin2bn, bn2bin, List.reverse_reverse, ofLeBytes_leBytes_of_lt hn]

theorem bn2bin_bin2bn {vch : Bytes} (hlen : vch.length = 32) : bn2bin (bin2bn vch) = vch := by
  have h := leBytes_ofLeBytes vch.reverse
  rw [List.length_reverse, hlen] at h
  rw [bin2bn, bn2bin, h, List.reverse_reverse]

theorem bin2bn_lt (vch : Bytes) : bin2bn vch < 256 ^ vch.length := by
  have h := ofLeBytes_lt vch.reverse
  rwa [List.length_reverse] at h

theorem bin2bn_cons (b : UInt8) (vch : Bytes) :
    bin2bn (b :: vch) = 256 ^ vch.length * b.toNat + bin2bn vch := by
  rw [bin2bn, List.reverse_cons, CScriptNum.ofLeBytes_concat, List.length_reverse, bin2bn,
    Nat.add_comm]

/-! ## The order of the curve -/

/-- The order of the group of secp256k1. -/
def curveOrder : ℕ := 0xFFFFFFFFFFFFFFFFFFFFFFFFFFFFFFFEBAAEDCE6AF48A03BBFD25E8CD0364141

theorem bin2bn_vchMax : bin2bn CKey.vchMax + 1 = curveOrder := by decide

theorem curveOrder_lt : curveOrder < 256 ^ 32 := by decide

theorem bin2bn_eq_zero : ∀ {vch : Bytes}, bin2bn vch = 0 ↔ vch.all (· == 0) = true
  | [] => by simp [bin2bn, ofLeBytes]
  | b :: vch => by
    have hb : b.toNat = 0 ↔ b = 0 := by rw [← UInt8.toNat_inj, UInt8.toNat_zero]
    rw [bin2bn_cons, Nat.add_eq_zero_iff, Nat.mul_eq_zero, bin2bn_eq_zero, List.all_cons,
      Bool.and_eq_true, beq_iff_eq, hb]
    simp

/-- The loop of `Check` compares the numbers. -/
theorem notAbove_iff : ∀ {vch vchMax : Bytes}, vch.length = vchMax.length →
    (CKey.notAbove vch vchMax = true ↔ bin2bn vch ≤ bin2bn vchMax)
  | [], [], _ => by simp [CKey.notAbove]
  | v :: vch, m :: vchMax, hlen => by
    have hlen' : vch.length = vchMax.length := Nat.succ.inj hlen
    have hv := bin2bn_lt vch
    have hm := bin2bn_lt vchMax
    rw [bin2bn_cons, bin2bn_cons, hlen', CKey.notAbove]
    rw [hlen'] at hv
    rcases Nat.lt_trichotomy v.toNat m.toNat with hlt | heq | hgt
    · rw [if_pos (UInt8.lt_iff_toNat_lt.mpr hlt)]
      have := Nat.mul_le_mul_left (256 ^ vchMax.length) (Nat.succ_le_of_lt hlt)
      rw [Nat.mul_succ] at this
      exact iff_of_true rfl (by omega)
    · obtain rfl := UInt8.toNat_inj.mp heq
      rw [if_neg (UInt8.lt_irrefl v), if_neg (UInt8.lt_irrefl v), notAbove_iff hlen']
      omega
    · rw [if_neg (fun hlt => absurd (UInt8.lt_iff_toNat_lt.mp hlt) (by omega)),
        if_pos (UInt8.lt_iff_toNat_lt.mpr hgt)]
      have := Nat.mul_le_mul_left (256 ^ vchMax.length) (Nat.succ_le_of_lt hgt)
      rw [Nat.mul_succ] at this
      exact iff_of_false Bool.false_ne_true (by omega)

/-- The secrets are the numbers from 1 to the order exclusively. -/
theorem check_iff {vch : Bytes} (hlen : vch.length = 32) :
    CKey.check vch = true ↔ 0 < bin2bn vch ∧ bin2bn vch < curveOrder := by
  rw [CKey.check, Bool.and_eq_true, Bool.not_eq_true', ← Bool.not_eq_true, ← bin2bn_eq_zero,
    notAbove_iff hlen, ← bin2bn_vchMax, Nat.lt_succ_iff, Nat.pos_iff_ne_zero]

/-! ## Points -/

/-- The points, with their serialization, compressed or not. -/
structure Curve (Point : Type) where
  generator : Point
  i2o : Bool → Point → Bytes
  o2i : Bytes → Option Point

namespace Curve

variable {Point : Type}

/-- `GetPubKey`. -/
def getPubKey (E : Curve Point) (point : Point) (fCompressed : Bool) : CPubKey :=
  CPubKey.set (E.i2o fCompressed point)

variable [AddCommGroup Point]

/-- `SetSecretBytes` : the point of a secret. -/
def publicPoint (E : Curve Point) (vch : Bytes) : Point := bin2bn vch • E.generator

/-- The public keys of the library are serializations of points, of 33 bytes or 65, except for the
point at infinity, and a serialization is read back. -/
structure Serves (E : Curve Point) (C : Crypto) : Prop where
  publicKey : ∀ vch fCompressed,
    C.publicKey vch fCompressed = E.getPubKey (E.publicPoint vch) fCompressed
  smul_eq_zero : ∀ k : ℕ, k • E.generator = 0 ↔ curveOrder ∣ k
  i2o_zero : ∀ fCompressed, E.i2o fCompressed 0 = [0]
  compressed : ∀ point ≠ 0, ∃ header x, (header = 2 ∨ header = 3) ∧ x.length = 32 ∧
    E.i2o true point = header :: x
  uncompressed : ∀ point ≠ 0, ∃ xy, xy.length = 64 ∧ E.i2o false point = 4 :: xy
  o2i_i2o : ∀ point ≠ 0, ∀ fCompressed, E.o2i (E.i2o fCompressed point) = some point

variable {E : Curve Point} {C : Crypto} {point : Point}

/-- The public key of a point is its serialization. -/
theorem Serves.getPubKey_vch (hE : E.Serves C) (hne : point ≠ 0) (fCompressed : Bool) :
    (E.getPubKey point fCompressed).vch = E.i2o fCompressed point := by
  cases fCompressed with
  | true =>
    obtain ⟨header, x, hheader, hlen, heq⟩ := hE.compressed point hne
    have hget : CPubKey.getLen header = 33 := if_pos hheader
    rw [getPubKey, heq, CPubKey.set, if_pos (by rw [hget, List.length_cons, hlen]; decide)]
  | false =>
    obtain ⟨xy, hlen, heq⟩ := hE.uncompressed point hne
    have hget : CPubKey.getLen 4 = 65 := by decide
    rw [getPubKey, heq, CPubKey.set, if_pos (by rw [hget, List.length_cons, hlen]; decide)]

theorem Serves.length_getPubKey (hE : E.Serves C) (hne : point ≠ 0) (fCompressed : Bool) :
    (E.getPubKey point fCompressed).vch.length = if fCompressed then 33 else 65 := by
  rw [hE.getPubKey_vch hne]
  cases fCompressed with
  | true =>
    obtain ⟨header, x, -, hlen, heq⟩ := hE.compressed point hne
    rw [heq, List.length_cons, hlen]
    rfl
  | false =>
    obtain ⟨xy, hlen, heq⟩ := hE.uncompressed point hne
    rw [heq, List.length_cons, hlen]
    rfl

/-- The point at infinity has no public key. -/
theorem Serves.getPubKey_zero (hE : E.Serves C) (fCompressed : Bool) :
    E.getPubKey 0 fCompressed = ⟨[]⟩ := by
  rw [getPubKey, hE.i2o_zero]
  rfl

/-- Only a point has the public key of a point. -/
theorem Serves.eq_of_getPubKey_eq (hE : E.Serves C) (hne : point ≠ 0) {point' : Point}
    {fCompressed : Bool} (h : E.getPubKey point' fCompressed = E.getPubKey point fCompressed) :
    point' = point := by
  have hne' : point' ≠ 0 := by
    rintro rfl
    have hlen := hE.length_getPubKey hne fCompressed
    rw [← h, hE.getPubKey_zero] at hlen
    cases fCompressed <;> cases hlen
  have hi2o := congrArg CPubKey.vch h
  rw [hE.getPubKey_vch hne', hE.getPubKey_vch hne] at hi2o
  have ho2i := hE.o2i_i2o point' hne' fCompressed
  rw [hi2o, hE.o2i_i2o point hne] at ho2i
  exact (Option.some.inj ho2i).symm

/-- The point of a secret is not at infinity. -/
theorem Serves.publicPoint_ne_zero (hE : E.Serves C) {key : CKey} (hkey : key.IsSecret) :
    E.publicPoint key.vch ≠ 0 := by
  obtain ⟨hpos, hlt⟩ := (check_iff hkey.length).mp hkey.check
  rw [publicPoint, ne_eq, hE.smul_eq_zero]
  exact Nat.not_dvd_of_pos_of_lt hpos hlt

/-- A multiple of the generator depends on the number up to multiples of the order. -/
theorem Serves.mod_smul (hE : E.Serves C) (k : ℕ) :
    (k % curveOrder) • E.generator = k • E.generator := by
  have hzero : (curveOrder * (k / curveOrder)) • E.generator = 0 :=
    (hE.smul_eq_zero _).mpr (Nat.dvd_mul_right _ _)
  conv_rhs => rw [← Nat.mod_add_div k curveOrder, add_smul, hzero, add_zero]

theorem Serves.pubKey_eq (hE : E.Serves C) (key : CKey) :
    key.pubKey C = E.getPubKey (E.publicPoint key.vch) key.fCompressed :=
  hE.publicKey key.vch key.fCompressed

theorem Serves.length_pubKey (hE : E.Serves C) {key : CKey} (hkey : key.IsSecret) :
    (key.pubKey C).vch.length = if key.fCompressed then 33 else 65 := by
  rw [hE.pubKey_eq, hE.length_getPubKey (hE.publicPoint_ne_zero hkey)]

theorem Serves.isCompressed_pubKey (hE : E.Serves C) {key : CKey} (hkey : key.IsSecret) :
    (key.pubKey C).isCompressed = key.fCompressed := by
  rw [CPubKey.isCompressed, hE.length_pubKey hkey]
  cases key.fCompressed <;> rfl

theorem Serves.pubKey_ne_nil (hE : E.Serves C) {key : CKey} (hkey : key.IsSecret) :
    (key.pubKey C).vch ≠ [] := by
  rw [← List.length_pos_iff, hE.length_pubKey hkey]
  cases key.fCompressed <;> decide

end Curve

/-! ## A curve of numbers -/

instance : NeZero curveOrder := ⟨by decide⟩

/-- A curve whose points are the numbers below the order. -/
def lineCurve : Curve (ZMod curveOrder) where
  generator := 1
  i2o fCompressed point :=
    if point = 0 then [0]
    else if fCompressed then 2 :: bn2bin point.val
    else 4 :: (bn2bin point.val ++ bn2bin 0)
  o2i vch := some (bin2bn (vch.tail.take 32) : ℕ)

/-- The library with public keys on this curve. -/
def lineCrypto : Crypto :=
  { CCryptoKeyStore.clearCrypto with
    publicKey := fun vch fCompressed =>
      lineCurve.getPubKey (lineCurve.publicPoint vch) fCompressed }

theorem serves_lineCurve : lineCurve.Serves lineCrypto where
  publicKey _ _ := rfl
  smul_eq_zero k := by
    change k • (1 : ZMod curveOrder) = 0 ↔ _
    rw [nsmul_one, ZMod.natCast_eq_zero_iff]
  i2o_zero _ := by simp [lineCurve]
  compressed point hne := ⟨2, bn2bin point.val, Or.inl rfl, length_bn2bin _, if_neg hne⟩
  uncompressed point hne := ⟨bn2bin point.val ++ bn2bin 0, by simp, if_neg hne⟩
  o2i_i2o point hne fCompressed := by
    have hlt : point.val < 256 ^ 32 := lt_trans (ZMod.val_lt point) curveOrder_lt
    have hread : ∀ rest : Bytes, ∀ header : UInt8,
        lineCurve.o2i (header :: (bn2bin point.val ++ rest)) = some point := by
      intro rest header
      change some ((bin2bn ((bn2bin point.val ++ rest).take 32) : ℕ) : ZMod curveOrder) = _
      rw [List.take_left' (length_bn2bin _), bin2bn_bn2bin hlt, ZMod.natCast_zmod_val]
    cases fCompressed with
    | true =>
      have hi2o : lineCurve.i2o true point = 2 :: (bn2bin point.val ++ []) := by
        rw [List.append_nil]
        exact if_neg hne
      rw [hi2o, hread]
    | false =>
      have hi2o : lineCurve.i2o false point = 4 :: (bn2bin point.val ++ bn2bin 0) := if_neg hne
      rw [hi2o, hread]

theorem isSecret_smallKey : CCryptoKeyStore.smallKey.IsSecret :=
  CCryptoKeyStore.correct_clearCrypto.isSecret _ rfl

end Ticoin
