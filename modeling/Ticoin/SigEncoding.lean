import Ticoin.Lib.DerInteger
import Ticoin.ScriptNum

/-!
# script.cpp : encodings of signatures and public keys

`IsValidSignatureEncoding` and `IsCanonicalSignature` each read the fields of a DER signature
by their offsets, which the signature itself gives. Every read is checked here, and is
`none` outside of the bytes. Both read inside the bytes only, and accept the DER encodings of two
numbers with a byte for the hash type (`signatureEncodings_agree`).
-/

namespace Ticoin

open Codec

/-! ## Verification flags -/

def SCRIPT_VERIFY_NONE : UInt32 := 0
def SCRIPT_VERIFY_P2SH : UInt32 := 1
def SCRIPT_VERIFY_STRICTENC : UInt32 := 2
def SCRIPT_VERIFY_EVEN_S : UInt32 := 4
def SCRIPT_VERIFY_NOCACHE : UInt32 := 8
def SCRIPT_VERIFY_DERSIG : UInt32 := 16

/-- Whether a flag is set. -/
def hasFlag (flags flag : UInt32) : Bool := flags &&& flag != 0

/-! ## The checks -/

def isCanonicalPubKey (vchPubKey : Bytes) (flags : UInt32) : Option Bool := do
  if !hasFlag flags SCRIPT_VERIFY_STRICTENC then return true
  else if vchPubKey.length < 33 then return false
  else if (← vchPubKey[0]?) = 0x04 then return vchPubKey.length = 65
  else if (← vchPubKey[0]?) = 0x02 ∨ (← vchPubKey[0]?) = 0x03 then return vchPubKey.length = 33
  else return false

/-- The number from `R` on is negative, or starts with a zero that it does not need. -/
def badInteger (vchSig : Bytes) (offset nLen : ℕ) : Option Bool := do
  if nLen = 0 then return true
  else if (← vchSig[offset]?) &&& 0x80 ≠ 0 then return true
  else if nLen > 1 then
    if (← vchSig[offset]?) ≠ 0 then return false
    else return (← vchSig[offset + 1]?) &&& 0x80 = 0
  else return false

/-- A canonical signature is `<30> <total len> <02> <len R> <R> <02> <len S> <S> <hashtype>`. -/
def isCanonicalSignature (vchSig : Bytes) (flags : UInt32) : Option Bool := do
  if !hasFlag flags SCRIPT_VERIFY_STRICTENC then return true
  else if vchSig.length < 9 then return false
  else if vchSig.length > 73 then return false
  else
    let nHashType := (← vchSig[vchSig.length - 1]?) &&& 0x7f
    if nHashType < 1 ∨ nHashType > 3 then return false
    else if (← vchSig[0]?) ≠ 0x30 then return false
    else if (← vchSig[1]?).toNat ≠ vchSig.length - 3 then return false
    else
      let nLenR := (← vchSig[3]?).toNat
      if 5 + nLenR ≥ vchSig.length then return false
      else
        let nLenS := (← vchSig[5 + nLenR]?).toNat
        if nLenR + nLenS + 7 ≠ vchSig.length then return false
        else if (← vchSig[2]?) ≠ 0x02 then return false
        else if ← badInteger vchSig 4 nLenR then return false
        else if (← vchSig[4 + nLenR]?) ≠ 0x02 then return false
        else if ← badInteger vchSig (6 + nLenR) nLenS then return false
        else if hasFlag flags SCRIPT_VERIFY_EVEN_S then
          return (← vchSig[6 + nLenR + nLenS - 1]?) &&& 1 = 0
        else return true

/-- The exact implementation of BIP 66, without constraints on the hash type. -/
def isValidSignatureEncoding (sig : Bytes) : Option Bool := do
  if sig.length < 9 then return false
  else if sig.length > 73 then return false
  else if (← sig[0]?) ≠ 0x30 then return false
  else if (← sig[1]?).toNat ≠ sig.length - 3 then return false
  else
    let lenR := (← sig[3]?).toNat
    if 5 + lenR ≥ sig.length then return false
    else
      let lenS := (← sig[5 + lenR]?).toNat
      if lenR + lenS + 7 ≠ sig.length then return false
      else if (← sig[2]?) ≠ 0x02 then return false
      else if ← badInteger sig 4 lenR then return false
      else if (← sig[lenR + 4]?) ≠ 0x02 then return false
      else if ← badInteger sig (lenR + 6) lenS then return false
      else return true

/-- An empty signature is allowed, to provide an invalid signature compactly. -/
def checkSignatureEncoding (vchSig : Bytes) (flags : UInt32) : Option Bool := do
  if vchSig.length = 0 then return true
  else if !hasFlag flags SCRIPT_VERIFY_DERSIG then return true
  else isValidSignatureEncoding vchSig

/-! ## Checks that decide -/

/-- The check reads inside the bytes, and accepts if and only if `P`. -/
def Decides (check : Option Bool) (P : Prop) : Prop := ∃ b, check = some b ∧ (b = true ↔ P)

theorem Decides.of_iff {check : Option Bool} {P Q : Prop} (h : Decides check P) (hPQ : P ↔ Q) :
    Decides check Q := by
  obtain ⟨b, hb, hiff⟩ := h
  exact ⟨b, hb, hiff.trans hPQ⟩

theorem decides_true : Decides (some true) True := ⟨true, rfl, iff_of_true rfl trivial⟩

/-- One check after the other. -/
theorem Decides.ite {check : Option Bool} {c P : Prop} [Decidable c] (h : Decides check P) :
    Decides (if c then some false else check) (¬c ∧ P) := by
  by_cases hc : c
  · rw [if_pos hc]
    exact ⟨false, rfl, iff_of_false nofun fun h => h.1 hc⟩
  · rw [if_neg hc]
    exact h.of_iff ⟨fun hP => ⟨hc, hP⟩, And.right⟩

/-! ## The fields of a signature -/

/-- `a0 a1 a2 <len R> <R> t <len S> <S> <hashtype>`. -/
def sigBytes (a0 a1 a2 nLenR : UInt8) (R : Bytes) (t nLenS : UInt8) (S : Bytes) (hashtype : UInt8) :
    Bytes :=
  a0 :: a1 :: a2 :: nLenR :: (R ++ t :: nLenS :: (S ++ [hashtype]))

/-- A DER signature of two numbers, with the hash type. -/
def IsStrictDER (sig : Bytes) : Prop :=
  9 ≤ sig.length ∧ sig.length ≤ 73 ∧ ∃ (r s : ℕ) (hashtype : UInt8),
    sig = sigBytes 0x30 (.ofNat (sig.length - 3)) 0x02 (.ofNat (derInteger r).length) (derInteger r)
      0x02 (.ofNat (derInteger s).length) (derInteger s) hashtype

section

variable {a0 a1 a2 nLenR t nLenS hashtype : UInt8} {R S : Bytes}

theorem length_sigBytes :
    (sigBytes a0 a1 a2 nLenR R t nLenS S hashtype).length = R.length + S.length + 7 := by
  simp [sigBytes]
  omega

/-- Reads by offsets find the fields. -/
theorem sigBytes_getElem? : (sigBytes a0 a1 a2 nLenR R t nLenS S hashtype)[4 + R.length]? = some t ∧
    (sigBytes a0 a1 a2 nLenR R t nLenS S hashtype)[5 + R.length]? = some nLenS ∧
    (sigBytes a0 a1 a2 nLenR R t nLenS S hashtype)[R.length + S.length + 6]? = some hashtype := by
  have htail : ∀ i, (sigBytes a0 a1 a2 nLenR R t nLenS S hashtype)[R.length + i + 4]? =
      (t :: nLenS :: (S ++ [hashtype]))[i]? := by
    intro i
    rw [sigBytes]
    simp only [List.getElem?_cons_succ]
    rw [List.getElem?_append_right (Nat.le_add_right _ _), Nat.add_sub_cancel_left]
  refine ⟨?_, ?_, ?_⟩
  · rw [show 4 + R.length = R.length + 0 + 4 by omega]
    exact htail 0
  · rw [show 5 + R.length = R.length + 1 + 4 by omega]
    exact htail 1
  · rw [show R.length + S.length + 6 = R.length + (S.length + 2) + 4 by omega, htail]
    simp only [List.getElem?_cons_succ]
    exact List.getElem?_concat_length

/-- A number among the bytes is good if it is the encoding of one. -/
theorem badInteger_eq (pre bytes post : Bytes) :
    badInteger (pre ++ (bytes ++ post)) pre.length bytes.length = some (!isShortest bytes) := by
  have hread : ∀ i, (pre ++ (bytes ++ post))[pre.length + i]? = (bytes ++ post)[i]? := fun i => by
    rw [List.getElem?_append_right (Nat.le_add_right _ _), Nat.add_sub_cancel_left]
  have h0 := hread 0
  have h1 := hread 1
  rw [Nat.add_zero] at h0
  rw [badInteger, h0, h1]
  match bytes with
  | [] => rfl
  | [b] =>
    have hsign := CScriptNum.and_0x80_iff b
    by_cases h : 128 ≤ b.toNat
    · simp [isShortest, hsign.mpr h, h]
    · simp [isShortest, not_not.mp (mt hsign.mp h), not_le.mp h]
  | b :: c :: bytes =>
    have hb := CScriptNum.and_0x80_iff b
    have hc := CScriptNum.and_0x80_iff c
    by_cases h : 128 ≤ b.toNat
    · simp [isShortest, hb.mpr h, h]
    · have hb0 : b &&& 0x80 = 0 := not_not.mp (mt hb.mp h)
      by_cases hzero : b = 0
      · subst hzero
        by_cases h' : 128 ≤ c.toNat
        · simp [isShortest, hc.mpr h', h']
        · simp [isShortest, not_not.mp (mt hc.mp h'), h']
      · simp [isShortest, hb0, hzero, not_le.mp h]

theorem badInteger_sigBytes :
    badInteger (sigBytes a0 a1 a2 nLenR R t nLenS S hashtype) 4 R.length = some (!isShortest R) ∧
    badInteger (sigBytes a0 a1 a2 nLenR R t nLenS S hashtype) (6 + R.length) S.length =
      some (!isShortest S) := by
  constructor
  · exact badInteger_eq [a0, a1, a2, nLenR] R _
  · have h := badInteger_eq ([a0, a1, a2, nLenR] ++ R ++ [t, nLenS]) S [hashtype]
    have hlen : ([a0, a1, a2, nLenR] ++ R ++ [t, nLenS]).length = 6 + R.length := by
      simp
      omega
    rw [hlen] at h
    rw [← h, sigBytes]
    simp

/-- Bytes whose lengths add up have these fields. -/
theorem exists_sigBytes {sig : Bytes} (h3 : sig[3]? = some nLenR)
    (hS : sig[5 + nLenR.toNat]? = some nLenS) (hlen : nLenR.toNat + nLenS.toNat + 7 = sig.length) :
    ∃ (a0 a1 a2 : UInt8) (R : Bytes) (t : UInt8) (S : Bytes) (hashtype : UInt8),
      sig = sigBytes a0 a1 a2 nLenR R t nLenS S hashtype ∧ R.length = nLenR.toNat ∧
        S.length = nLenS.toNat := by
  match sig, h3 with
  | a0 :: a1 :: a2 :: _ :: rest, rfl =>
    simp only [List.length_cons] at hlen
    have hR : (rest.take nLenR.toNat).length = nLenR.toNat := by
      rw [List.length_take]
      omega
    have hdrop : (rest.drop nLenR.toNat).length = nLenS.toNat + 3 := by
      rw [List.length_drop]
      omega
    have hread : (rest.drop nLenR.toNat)[1]? = some nLenS := by
      rw [List.getElem?_drop, ← hS, show 5 + nLenR.toNat = nLenR.toNat + 1 + 4 by omega]
      rfl
    rcases hrest : rest.drop nLenR.toNat with _ | ⟨t, _ | ⟨l, tail⟩⟩
    · simp [hrest] at hdrop
    · simp [hrest] at hread
    · rw [hrest] at hdrop hread
      simp only [List.length_cons] at hdrop
      cases hread
      have hne : tail ≠ [] := by
        rintro rfl
        simp at hdrop
      refine ⟨a0, a1, a2, _, t, tail.dropLast, tail.getLast hne, ?_, hR, ?_⟩
      · rw [sigBytes, List.dropLast_append_getLast, ← hrest, List.take_append_drop]
      · rw [List.length_dropLast]
        omega

theorem toNat_ofNat_of_le {n : ℕ} (h : n ≤ 73) : (UInt8.ofNat n).toNat = n := by
  rw [UInt8.toNat_ofNat', Nat.mod_eq_of_lt (by omega)]

theorem isStrictDER_sigBytes (hR : R.length = nLenR.toNat) (hS : S.length = nLenS.toNat) :
    IsStrictDER (sigBytes a0 a1 a2 nLenR R t nLenS S hashtype) ↔
      9 ≤ R.length + S.length + 7 ∧ R.length + S.length + 7 ≤ 73 ∧ a0 = 0x30 ∧
        a1.toNat = R.length + S.length + 7 - 3 ∧ a2 = 0x02 ∧ isShortest R = true ∧ t = 0x02 ∧
          isShortest S = true := by
  rw [IsStrictDER, length_sigBytes]
  constructor
  · rintro ⟨h9, h73, r, s, hashtype', heq⟩
    have hlen := congrArg List.length heq
    rw [length_sigBytes, length_sigBytes] at hlen
    simp only [sigBytes, List.cons.injEq] at heq
    obtain ⟨rfl, rfl, rfl, rfl, heq⟩ := heq
    rw [toNat_ofNat_of_le (by omega)] at hR
    obtain ⟨rfl, htail⟩ := List.append_inj heq hR
    rw [List.cons_eq_cons, List.cons_eq_cons] at htail
    obtain ⟨rfl, rfl, hend⟩ := htail
    obtain ⟨rfl, -⟩ := List.append_inj' hend rfl
    exact ⟨h9, h73, rfl, toNat_ofNat_of_le (by omega), rfl, isShortest_derInteger r, rfl,
      isShortest_derInteger s⟩
  · rintro ⟨h9, h73, rfl, h1, rfl, hshortR, rfl, hshortS⟩
    obtain ⟨r, rfl⟩ := isShortest_iff.mp hshortR
    obtain ⟨s, rfl⟩ := isShortest_iff.mp hshortS
    refine ⟨h9, h73, r, s, hashtype, ?_⟩
    rw [← h1, hR, hS, UInt8.ofNat_toNat, UInt8.ofNat_toNat, UInt8.ofNat_toNat]

/-- The lengths of a DER signature add up. -/
theorem not_isStrictDER {sig : Bytes} (h3 : sig[3]? = some nLenR)
    (h : 5 + nLenR.toNat ≥ sig.length ∨ 5 + nLenR.toNat < sig.length ∧
      ∃ nLenS, sig[5 + nLenR.toNat]? = some nLenS ∧ nLenR.toNat + nLenS.toNat + 7 ≠ sig.length) :
    ¬IsStrictDER sig := by
  rintro ⟨h9, h73, r, s, hashtype, heq⟩
  have hlen := congrArg List.length heq
  rw [length_sigBytes] at hlen
  rw [heq] at h3
  cases h3
  rw [toNat_ofNat_of_le (by omega)] at h
  rcases h with h | ⟨-, nLenS, hS, h⟩
  · omega
  · rw [heq, sigBytes_getElem?.2.1, Option.some.injEq] at hS
    rw [← hS, toNat_ofNat_of_le (by omega)] at h
    omega

/-- What reads by offsets find in the bytes of a signature whose lengths add up. -/
structure SigFields (sig : Bytes) (a0 a1 a2 nLenR : UInt8) (R : Bytes) (t nLenS : UInt8) (S : Bytes)
    (hashtype : UInt8) : Prop where
  length : nLenR.toNat + nLenS.toNat + 7 = sig.length
  get0 : sig[0]? = some a0
  get1 : sig[1]? = some a1
  get2 : sig[2]? = some a2
  lenR : sig[3]? = some nLenR
  typeS : sig[4 + nLenR.toNat]? = some t
  lenS : sig[5 + nLenR.toNat]? = some nLenS
  hashtype : sig[sig.length - 1]? = some hashtype
  badR : badInteger sig 4 nLenR.toNat = some (!isShortest R)
  badS : badInteger sig (6 + nLenR.toNat) nLenS.toNat = some (!isShortest S)
  isStrictDER : IsStrictDER sig ↔ 9 ≤ sig.length ∧ sig.length ≤ 73 ∧ a0 = 0x30 ∧
    a1.toNat = sig.length - 3 ∧ a2 = 0x02 ∧ isShortest R = true ∧ t = 0x02 ∧ isShortest S = true

theorem sigFields (hR : R.length = nLenR.toNat) (hS : S.length = nLenS.toNat) :
    SigFields (sigBytes a0 a1 a2 nLenR R t nLenS S hashtype) a0 a1 a2 nLenR R t nLenS S hashtype where
  length := by rw [length_sigBytes, hR, hS]
  get0 := rfl
  get1 := rfl
  get2 := rfl
  lenR := rfl
  typeS := hR ▸ sigBytes_getElem?.1
  lenS := hR ▸ sigBytes_getElem?.2.1
  hashtype := by rw [length_sigBytes, ← sigBytes_getElem?.2.2]; rfl
  badR := hR ▸ badInteger_sigBytes.1
  badS := hR ▸ hS ▸ badInteger_sigBytes.2
  isStrictDER := by rw [isStrictDER_sigBytes hR hS, length_sigBytes]

/-- The lengths add up, or a check finds that they do not. -/
theorem fields_cases {sig : Bytes} (h : 9 ≤ sig.length) :
    (∃ (a0 a1 a2 nLenR : UInt8) (R : Bytes) (t nLenS : UInt8) (S : Bytes) (hashtype : UInt8),
      SigFields sig a0 a1 a2 nLenR R t nLenS S hashtype) ∨
    ∃ nLenR, sig[3]? = some nLenR ∧ (5 + nLenR.toNat ≥ sig.length ∨
      5 + nLenR.toNat < sig.length ∧ ∃ nLenS, sig[5 + nLenR.toNat]? = some nLenS ∧
        nLenR.toNat + nLenS.toNat + 7 ≠ sig.length) := by
  obtain ⟨nLenR, h3⟩ : ∃ nLenR, sig[3]? = some nLenR := ⟨_, List.getElem?_eq_getElem (by omega)⟩
  by_cases hR : 5 + nLenR.toNat ≥ sig.length
  · exact .inr ⟨_, h3, .inl hR⟩
  · obtain ⟨nLenS, hS⟩ : ∃ nLenS, sig[5 + nLenR.toNat]? = some nLenS :=
      ⟨_, List.getElem?_eq_getElem (not_le.mp hR)⟩
    by_cases hlen : nLenR.toNat + nLenS.toNat + 7 = sig.length
    · obtain ⟨a0, a1, a2, R, t, S, hashtype, rfl, hlenR, hlenS⟩ := exists_sigBytes h3 hS hlen
      exact .inl ⟨a0, a1, a2, _, R, t, _, S, hashtype, sigFields hlenR hlenS⟩
    · exact .inr ⟨_, h3, .inr ⟨not_le.mp hR, _, hS, hlen⟩⟩

/-! ## What the checks accept -/

/-- `IsValidSignatureEncoding` reads inside the signature, and accepts DER signatures. -/
theorem isValidSignatureEncoding_decides (sig : Bytes) :
    Decides (isValidSignatureEncoding sig) (IsStrictDER sig) := by
  by_cases h9 : sig.length < 9
  · refine ⟨false, by simp [isValidSignatureEncoding, h9], iff_of_false nofun ?_⟩
    exact fun h => absurd h.1 (not_le.mpr h9)
  by_cases h73 : sig.length > 73
  · refine ⟨false, by simp [isValidSignatureEncoding, h73], iff_of_false nofun ?_⟩
    exact fun h => absurd h.2.1 (not_le.mpr h73)
  rcases fields_cases (not_lt.mp h9) with ⟨a0, a1, a2, nLenR, R, t, nLenS, S, hashtype, h⟩ |
    ⟨nLenR, h3, hbad⟩
  · have hin : ¬5 + nLenR.toNat ≥ sig.length := by have := h.length; omega
    simp only [isValidSignatureEncoding, if_neg h9, if_neg h73, h.get0, h.get1, h.get2, h.lenR,
      h.lenS, Nat.add_comm nLenR.toNat 4, h.typeS, h.badR, Nat.add_comm nLenR.toNat 6, h.badS,
      Option.bind_eq_bind, Option.bind_some, if_neg hin, if_neg (not_not.mpr h.length)]
    refine (Decides.ite (.ite (.ite (.ite (.ite (.ite decides_true)))))).of_iff ?_
    rw [h.isStrictDER]
    simp [not_lt.mp h9, not_lt.mp h73]
  · have h0 : sig[0]? = some sig[0] := List.getElem?_eq_getElem (by omega)
    have h1 : sig[1]? = some sig[1] := List.getElem?_eq_getElem (by omega)
    refine ⟨false, ?_, iff_of_false nofun (not_isStrictDER h3 hbad)⟩
    rcases hbad with hbad | ⟨hR, nLenS, hS, hbad⟩
    · simp [isValidSignatureEncoding, h9, h73, h0, h1, h3, hbad]
    · simp [isValidSignatureEncoding, h9, h73, h0, h1, h3, not_le.mpr hR, hS, hbad]

/-- The hash type, without `SIGHASH_ANYONECANPAY`, is one that is defined. -/
def HashTypeDefined (sig : Bytes) : Prop := ∃ hashtype, sig[sig.length - 1]? = some hashtype ∧
  (hashtype &&& 0x7f = 1 ∨ hashtype &&& 0x7f = 2 ∨ hashtype &&& 0x7f = 3)

/-- The last byte of the second number is even. -/
def EvenS (sig : Bytes) : Prop := ∃ b, sig[sig.length - 2]? = some b ∧ b &&& 1 = 0

theorem hashType_iff (b : UInt8) : ¬(b < 1 ∨ b > 3) ↔ b = 1 ∨ b = 2 ∨ b = 3 := by
  rw [← UInt8.toNat_inj, ← UInt8.toNat_inj, ← UInt8.toNat_inj, gt_iff_lt, UInt8.lt_iff_toNat_lt,
    UInt8.lt_iff_toNat_lt]
  simp
  omega

/-- `IsCanonicalSignature` reads inside the signature. If the flags ask for it, it accepts DER
signatures with a hash type that is defined, and an even second number if they ask for that. -/
theorem isCanonicalSignature_decides (vchSig : Bytes) (flags : UInt32) :
    Decides (isCanonicalSignature vchSig flags) (hasFlag flags SCRIPT_VERIFY_STRICTENC = true →
      IsStrictDER vchSig ∧ HashTypeDefined vchSig ∧
        (hasFlag flags SCRIPT_VERIFY_EVEN_S = true → EvenS vchSig)) := by
  by_cases hstrict : hasFlag flags SCRIPT_VERIFY_STRICTENC = true
  swap
  · exact ⟨true, by simp [isCanonicalSignature, hstrict], iff_of_true rfl fun h => absurd h hstrict⟩
  by_cases h9 : vchSig.length < 9
  · refine ⟨false, by simp [isCanonicalSignature, hstrict, h9], iff_of_false nofun ?_⟩
    exact fun h => absurd (h hstrict).1.1 (not_le.mpr h9)
  by_cases h73 : vchSig.length > 73
  · refine ⟨false, by simp [isCanonicalSignature, hstrict, h73], iff_of_false nofun ?_⟩
    exact fun h => absurd (h hstrict).1.2.1 (not_le.mpr h73)
  have hstrict' : ¬(!hasFlag flags SCRIPT_VERIFY_STRICTENC) = true := by simp [hstrict]
  rcases fields_cases (not_lt.mp h9) with ⟨a0, a1, a2, nLenR, R, t, nLenS, S, hashtype, h⟩ |
    ⟨nLenR, h3, hbad⟩
  · have hlen := h.length
    have hin : ¬5 + nLenR.toNat ≥ vchSig.length := by omega
    have hlast : 6 + nLenR.toNat + nLenS.toNat - 1 = vchSig.length - 2 := by omega
    obtain ⟨b, hb⟩ : ∃ b, vchSig[vchSig.length - 2]? = some b :=
      ⟨_, List.getElem?_eq_getElem (by omega)⟩
    simp only [isCanonicalSignature, if_neg hstrict', if_neg h9, if_neg h73, h.hashtype, h.get0,
      h.get1, h.get2, h.lenR, h.lenS, h.typeS, h.badR, h.badS, hlast, hb, Option.bind_eq_bind,
      Option.bind_some, if_neg hin, if_neg (not_not.mpr h.length)]
    have hend : Decides (if hasFlag flags SCRIPT_VERIFY_EVEN_S = true then
        some (decide (b &&& 1 = 0)) else some true)
          (hasFlag flags SCRIPT_VERIFY_EVEN_S = true → EvenS vchSig) := by
      have heven : EvenS vchSig ↔ b &&& 1 = 0 := by
        simp only [EvenS, hb, Option.some.injEq, exists_eq_left']
      split
      · rename_i hflag
        exact ⟨_, rfl, decide_eq_true_iff.trans (heven.symm.trans ⟨fun h _ => h, fun h => h hflag⟩)⟩
      · rename_i hflag
        exact ⟨true, rfl, iff_of_true rfl fun h => absurd h hflag⟩
    have hhash : HashTypeDefined vchSig ↔ ¬(hashtype &&& 0x7f < 1 ∨ hashtype &&& 0x7f > 3) := by
      simp only [HashTypeDefined, h.hashtype, Option.some.injEq, exists_eq_left', hashType_iff]
    refine (Decides.ite (.ite (.ite (.ite (.ite (.ite (.ite hend))))))).of_iff ?_
    rw [h.isStrictDER, hhash]
    simp only [hstrict, forall_const, not_not, ne_eq, Bool.not_eq_true', Bool.not_eq_false,
      not_lt.mp h9, not_lt.mp h73, true_and]
    tauto
  · have h0 : vchSig[0]? = some vchSig[0] := List.getElem?_eq_getElem (by omega)
    have h1 : vchSig[1]? = some vchSig[1] := List.getElem?_eq_getElem (by omega)
    obtain ⟨hashtype, hlast⟩ : ∃ hashtype, vchSig[vchSig.length - 1]? = some hashtype :=
      ⟨_, List.getElem?_eq_getElem (by omega)⟩
    refine ⟨false, ?_, iff_of_false nofun fun h => not_isStrictDER h3 hbad (h hstrict).1⟩
    rcases hbad with hbad | ⟨hR, nLenS, hS, hbad⟩
    · simp [isCanonicalSignature, hstrict, h9, h73, hlast, h0, h1, h3, hbad]
    · simp [isCanonicalSignature, hstrict, h9, h73, hlast, h0, h1, h3, not_le.mpr hR, hS, hbad]

end

theorem isCanonicalPubKey_eq_some (vchPubKey : Bytes) (flags : UInt32) :
    ∃ b, isCanonicalPubKey vchPubKey flags = some b := by
  rw [isCanonicalPubKey]
  split
  · exact ⟨_, rfl⟩
  split
  · exact ⟨_, rfl⟩
  rename_i hlen
  rw [List.getElem?_eq_getElem (show 0 < vchPubKey.length by omega)]
  simp only [Option.bind_eq_bind, Option.bind_some]
  split
  · exact ⟨_, rfl⟩
  split
  · exact ⟨_, rfl⟩
  · exact ⟨_, rfl⟩

theorem checkSignatureEncoding_decides (vchSig : Bytes) (flags : UInt32) :
    Decides (checkSignatureEncoding vchSig flags) (vchSig = [] ∨
      (hasFlag flags SCRIPT_VERIFY_DERSIG = true → IsStrictDER vchSig)) := by
  rw [checkSignatureEncoding]
  split
  · rename_i hnil
    exact ⟨true, rfl, iff_of_true rfl (.inl (List.length_eq_zero_iff.mp hnil))⟩
  rename_i hne
  split
  · rename_i hflag
    exact ⟨true, rfl, iff_of_true rfl (.inr fun h => by simp [h] at hflag)⟩
  · rename_i hflag
    rw [Bool.not_eq_true', Bool.not_eq_false] at hflag
    refine (isValidSignatureEncoding_decides vchSig).of_iff ⟨fun h => .inr fun _ => h, ?_⟩
    rintro (hnil | h)
    · exact absurd (List.length_eq_zero_iff.mpr hnil) hne
    · exact h hflag

/-- `IsValidSignatureEncoding` accepts exactly DER signatures, and `IsCanonicalSignature` those
of them with a hash type that is defined. Both read inside the bytes only. -/
theorem signatureEncodings_agree (sig : Bytes) :
    (∃ b, isValidSignatureEncoding sig = some b ∧ (b = true ↔ IsStrictDER sig)) ∧
    ∀ flags : UInt32, ∃ b, isCanonicalSignature sig flags = some b ∧
      (hasFlag flags SCRIPT_VERIFY_STRICTENC = true →
        hasFlag flags SCRIPT_VERIFY_EVEN_S = false →
          (b = true ↔ IsStrictDER sig ∧ HashTypeDefined sig)) := by
  refine ⟨isValidSignatureEncoding_decides sig, fun flags => ?_⟩
  obtain ⟨b, hb, hiff⟩ := isCanonicalSignature_decides sig flags
  refine ⟨b, hb, fun hstrict heven => ?_⟩
  rw [hiff, heven]
  simp [hstrict]

end Ticoin
