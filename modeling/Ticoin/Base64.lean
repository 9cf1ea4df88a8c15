import Ticoin.Lib.Regroup
import Ticoin.Util

/-!
# util.cpp : Base64 and Base32

The encoders write the bits of a text in groups of six or five, as characters of an alphabet, and
fill the last group of characters with `=`. The decoders read characters of the alphabet as long as
they come. What comes then tells whether the text is invalid : the bits that are left must be zero
and the right number of `=` must follow.

The modes of the encoders and decoders keep the number that was read (`steps_encode64`,
`steps_decode64`, `steps_encode32`, `steps_decode32`).
-/

namespace Ticoin

open Codec Radix Regroup

/-! ## Alphabets -/

def pbase64 : Bytes :=
  asciiBytes "ABCDEFGHIJKLMNOPQRSTUVWXYZabcdefghijklmnopqrstuvwxyz0123456789+/"

def decode64_table : List ℤ := [
  -1, -1, -1, -1, -1, -1, -1, -1, -1, -1, -1, -1, -1, -1, -1, -1, -1, -1, -1, -1,
  -1, -1, -1, -1, -1, -1, -1, -1, -1, -1, -1, -1, -1, -1, -1, -1, -1, -1, -1, -1,
  -1, -1, -1, 62, -1, -1, -1, 63, 52, 53, 54, 55, 56, 57, 58, 59, 60, 61, -1, -1,
  -1, -1, -1, -1, -1,  0,  1,  2,  3,  4,  5,  6,  7,  8,  9, 10, 11, 12, 13, 14,
  15, 16, 17, 18, 19, 20, 21, 22, 23, 24, 25, -1, -1, -1, -1, -1, -1, 26, 27, 28,
  29, 30, 31, 32, 33, 34, 35, 36, 37, 38, 39, 40, 41, 42, 43, 44, 45, 46, 47, 48,
  49, 50, 51, -1, -1, -1, -1, -1, -1, -1, -1, -1, -1, -1, -1, -1, -1, -1, -1, -1,
  -1, -1, -1, -1, -1, -1, -1, -1, -1, -1, -1, -1, -1, -1, -1, -1, -1, -1, -1, -1,
  -1, -1, -1, -1, -1, -1, -1, -1, -1, -1, -1, -1, -1, -1, -1, -1, -1, -1, -1, -1,
  -1, -1, -1, -1, -1, -1, -1, -1, -1, -1, -1, -1, -1, -1, -1, -1, -1, -1, -1, -1,
  -1, -1, -1, -1, -1, -1, -1, -1, -1, -1, -1, -1, -1, -1, -1, -1, -1, -1, -1, -1,
  -1, -1, -1, -1, -1, -1, -1, -1, -1, -1, -1, -1, -1, -1, -1, -1, -1, -1, -1, -1,
  -1, -1, -1, -1, -1, -1, -1, -1, -1, -1, -1, -1, -1, -1, -1, -1]

def pbase32 : Bytes := asciiBytes "abcdefghijklmnopqrstuvwxyz234567"

def decode32_table : List ℤ := [
  -1, -1, -1, -1, -1, -1, -1, -1, -1, -1, -1, -1, -1, -1, -1, -1, -1, -1, -1, -1,
  -1, -1, -1, -1, -1, -1, -1, -1, -1, -1, -1, -1, -1, -1, -1, -1, -1, -1, -1, -1,
  -1, -1, -1, -1, -1, -1, -1, -1, -1, -1, 26, 27, 28, 29, 30, 31, -1, -1, -1, -1,
  -1, -1, -1, -1, -1,  0,  1,  2,  3,  4,  5,  6,  7,  8,  9, 10, 11, 12, 13, 14,
  15, 16, 17, 18, 19, 20, 21, 22, 23, 24, 25, -1, -1, -1, -1, -1, -1,  0,  1,  2,
   3,  4,  5,  6,  7,  8,  9, 10, 11, 12, 13, 14, 15, 16, 17, 18, 19, 20, 21, 22,
  23, 24, 25, -1, -1, -1, -1, -1, -1, -1, -1, -1, -1, -1, -1, -1, -1, -1, -1, -1,
  -1, -1, -1, -1, -1, -1, -1, -1, -1, -1, -1, -1, -1, -1, -1, -1, -1, -1, -1, -1,
  -1, -1, -1, -1, -1, -1, -1, -1, -1, -1, -1, -1, -1, -1, -1, -1, -1, -1, -1, -1,
  -1, -1, -1, -1, -1, -1, -1, -1, -1, -1, -1, -1, -1, -1, -1, -1, -1, -1, -1, -1,
  -1, -1, -1, -1, -1, -1, -1, -1, -1, -1, -1, -1, -1, -1, -1, -1, -1, -1, -1, -1,
  -1, -1, -1, -1, -1, -1, -1, -1, -1, -1, -1, -1, -1, -1, -1, -1, -1, -1, -1, -1,
  -1, -1, -1, -1, -1, -1, -1, -1, -1, -1, -1, -1, -1, -1, -1, -1]

/-! ## Steps -/

/-- The loop of `EncodeBase64` for a byte : what is appended, the mode, the bits that are left. -/
def encode64Step : Step
  | 0, _, enc => ([enc >>> 2], 1, (enc &&& 3) <<< 4)
  | 1, left, enc => ([left ||| (enc >>> 4)], 2, (enc &&& 15) <<< 2)
  | 2, left, enc => ([left ||| (enc >>> 6), enc &&& 63], 0, left)
  | mode, left, _ => ([], mode, left)

/-- The loop of `DecodeBase64` for a character of the alphabet. -/
def decode64Step : Step
  | 0, _, dec => ([], 1, dec)
  | 1, left, dec => ([(left <<< 2) ||| (dec >>> 4)], 2, dec &&& 15)
  | 2, left, dec => ([(left <<< 4) ||| (dec >>> 2)], 3, dec &&& 3)
  | 3, left, dec => ([(left <<< 6) ||| dec], 0, left)
  | mode, left, _ => ([], mode, left)

/-- The loop of `EncodeBase32`. -/
def encode32Step : Step
  | 0, _, enc => ([enc >>> 3], 1, (enc &&& 7) <<< 2)
  | 1, left, enc => ([left ||| (enc >>> 6), (enc >>> 1) &&& 31], 2, (enc &&& 1) <<< 4)
  | 2, left, enc => ([left ||| (enc >>> 4)], 3, (enc &&& 15) <<< 1)
  | 3, left, enc => ([left ||| (enc >>> 7), (enc >>> 2) &&& 31], 4, (enc &&& 3) <<< 3)
  | 4, left, enc => ([left ||| (enc >>> 5), enc &&& 31], 0, left)
  | mode, left, _ => ([], mode, left)

/-- The loop of `DecodeBase32`. -/
def decode32Step : Step
  | 0, _, dec => ([], 1, dec)
  | 1, left, dec => ([(left <<< 3) ||| (dec >>> 2)], 2, dec &&& 3)
  | 2, left, dec => ([], 3, (left <<< 5) ||| dec)
  | 3, left, dec => ([(left <<< 1) ||| (dec >>> 4)], 4, dec &&& 15)
  | 4, left, dec => ([(left <<< 4) ||| (dec >>> 1)], 5, dec &&& 1)
  | 5, left, dec => ([], 6, (left <<< 5) ||| dec)
  | 6, left, dec => ([(left <<< 2) ||| (dec >>> 3)], 7, dec &&& 7)
  | 7, left, dec => ([(left <<< 5) ||| dec], 0, left)
  | mode, left, _ => ([], mode, left)

/-! ## Encoding and decoding -/

/-- What both encodings are made of : the alphabet and its inverse, the steps, how many `=` are
written in each mode, and how many must follow, none in modes that are impossible. -/
structure BaseCodec where
  alphabet : Bytes
  table : List ℤ
  encodeStep : Step
  decodeStep : Step
  nPadding : List ℕ
  required : List (Option ℕ)

namespace BaseCodec

variable (B : BaseCodec)

/-- The characters of the alphabet at some places, none if one is not in it. -/
def chars (places : List ℕ) : Option Bytes := places.mapM fun i => B.alphabet[i]?

/-- `EncodeBase64` and `EncodeBase32`. -/
def encode (pch : Bytes) : Option Bytes := do
  let (places, mode, left) := run B.encodeStep 0 0 (pch.map UInt8.toNat)
  let strRet ← B.chars places
  if mode ≠ 0 then do
    let last ← B.alphabet[left]?
    let n ← B.nPadding[mode]?
    some (strRet ++ last :: List.replicate n 61)
  else some strRet

/-- The place of a character in the alphabet. -/
def place (c : UInt8) : Option ℕ :=
  let dec := B.table.getD c.toNat (-1)
  if dec = -1 then none else some dec.toNat

/-- The loop of the decoders : the bytes, the mode, the bits that are left, and what follows. None
if it reads behind the end. -/
def decodeLoop : ℕ → ℕ → Bytes → Option (Bytes × ℕ × ℕ × Bytes)
  | _, _, [] => none
  | mode, left, c :: p =>
    match B.place c with
    | none => some ([], mode, left, c :: p)
    | some dec => do
      let (out, mode, left) := B.decodeStep mode left dec
      let (vchRet, mode, left, p) ← decodeLoop mode left p
      some (out.map UInt8.ofNat ++ vchRet, mode, left, p)

/-- There are `n` times `=`, and then no character of the alphabet. What follows a character that is
not `=` is not read. None if it reads behind the end. -/
def isPadded : ℕ → Bytes → Option Bool
  | _, [] => none
  | 0, c :: _ => some (B.place c).isNone
  | n + 1, c :: p => if c ≠ 61 then some false else isPadded n p

/-- `DecodeBase64` and `DecodeBase32` on a text with its zero : the bytes, and `*pfInvalid`. -/
def decode (str : Bytes) : Option (Bytes × Bool) := do
  let (vchRet, mode, left, p) ← B.decodeLoop 0 0 (str ++ [0])
  if mode = 0 then some (vchRet, false)
  else
    match B.required[mode]? with
    | some (some n) =>
      if left ≠ 0 then some (vchRet, true)
      else do
        let padded ← B.isPadded n p
        some (vchRet, !padded)
    | _ => some (vchRet, true)

end BaseCodec

def base64 : BaseCodec where
  alphabet := pbase64
  table := decode64_table
  encodeStep := encode64Step
  decodeStep := decode64Step
  nPadding := [0, 2, 1]
  required := [none, none, some 2, some 1]

def base32 : BaseCodec where
  alphabet := pbase32
  table := decode32_table
  encodeStep := encode32Step
  decodeStep := decode32Step
  nPadding := [0, 6, 4, 3, 1]
  required := [none, none, some 6, none, some 4, some 3, none, some 1]

def encodeBase64 (pch : Bytes) : Option Bytes := base64.encode pch
def decodeBase64 (p : Bytes) : Option (Bytes × Bool) := base64.decode p
def encodeBase32 (pch : Bytes) : Option Bytes := base32.encode pch
def decodeBase32 (p : Bytes) : Option (Bytes × Bool) := base32.decode p

/-! ## The number is kept -/

theorem and_1 (d : ℕ) : d &&& 1 = d % 2 := Nat.and_two_pow_sub_one_eq_mod d 1
theorem and_3 (d : ℕ) : d &&& 3 = d % 4 := Nat.and_two_pow_sub_one_eq_mod d 2
theorem and_7 (d : ℕ) : d &&& 7 = d % 8 := Nat.and_two_pow_sub_one_eq_mod d 3
theorem and_15 (d : ℕ) : d &&& 15 = d % 16 := Nat.and_two_pow_sub_one_eq_mod d 4
theorem and_31 (d : ℕ) : d &&& 31 = d % 32 := Nat.and_two_pow_sub_one_eq_mod d 5
theorem and_63 (d : ℕ) : d &&& 63 = d % 64 := Nat.and_two_pow_sub_one_eq_mod d 6

section

variable {a b : ℕ}

theorem or_2 (h : b < 2) : a * 2 ||| b = a * 2 + b := mul_two_pow_or (m := 1) h
theorem or_4 (h : b < 4) : a * 4 ||| b = a * 4 + b := mul_two_pow_or (m := 2) h
theorem or_8 (h : b < 8) : a * 8 ||| b = a * 8 + b := mul_two_pow_or (m := 3) h
theorem or_16 (h : b < 16) : a * 16 ||| b = a * 16 + b := mul_two_pow_or (m := 4) h
theorem or_32 (h : b < 32) : a * 32 ||| b = a * 32 + b := mul_two_pow_or (m := 5) h
theorem or_64 (h : b < 64) : a * 64 ||| b = a * 64 + b := mul_two_pow_or (m := 6) h

end

theorem steps_encode64 : Steps 8 6 encode64Step (Keeps [0, 2, 4] fun k => 2 ^ (6 - k)) := by
  refine steps_of_keepsNumber fun mode k left pending d hk hpending hd hleft => ?_
  simp only [Nat.reducePow] at hd
  match mode, hk with
  | 0, rfl =>
    simp only [encode64Step, Nat.shiftRight_eq_div_pow, Nat.shiftLeft_eq, and_3]
    exact keepsNumber_one (k := 2) rfl (by omega) (by omega) fun _ => by omega
  | 1, rfl =>
    obtain rfl := hleft (by decide)
    simp (disch := omega) only [encode64Step, Nat.shiftRight_eq_div_pow, Nat.shiftLeft_eq, and_15,
      Nat.reducePow, Nat.reduceSub, or_16]
    exact keepsNumber_one (k := 4) rfl (by omega) (by omega) fun _ => by omega
  | 2, rfl =>
    obtain rfl := hleft (by decide)
    simp (disch := omega) only [encode64Step, Nat.shiftRight_eq_div_pow, and_63, Nat.reducePow,
      Nat.reduceSub, or_4]
    exact keepsNumber_two (k := 0) rfl (by omega) (by omega) (by omega) nofun

theorem steps_decode64 : Steps 6 8 decode64Step (Keeps [0, 6, 4, 2] fun _ => 1) := by
  refine steps_of_keepsNumber fun mode k left pending d hk hpending hd hleft => ?_
  simp only [Nat.reducePow] at hd
  match mode, hk with
  | 0, rfl => exact keepsNumber_nil 6 rfl (by omega) (by omega)
  | 1, rfl =>
    obtain rfl := hleft (by decide)
    simp (disch := omega) only [decode64Step, Nat.shiftRight_eq_div_pow, Nat.shiftLeft_eq, and_15,
      Nat.reducePow, Nat.mul_one, or_4]
    exact keepsNumber_one (k := 4) rfl (by omega) (by omega) fun _ => by omega
  | 2, rfl =>
    obtain rfl := hleft (by decide)
    simp (disch := omega) only [decode64Step, Nat.shiftRight_eq_div_pow, Nat.shiftLeft_eq, and_3,
      Nat.reducePow, Nat.mul_one, or_16]
    exact keepsNumber_one (k := 2) rfl (by omega) (by omega) fun _ => by omega
  | 3, rfl =>
    obtain rfl := hleft (by decide)
    simp (disch := omega) only [decode64Step, Nat.shiftLeft_eq, Nat.reducePow, Nat.mul_one, or_64]
    exact keepsNumber_one (k := 0) rfl (by omega) (by omega) nofun

theorem steps_encode32 : Steps 8 5 encode32Step (Keeps [0, 3, 1, 4, 2] fun k => 2 ^ (5 - k)) := by
  refine steps_of_keepsNumber fun mode k left pending d hk hpending hd hleft => ?_
  simp only [Nat.reducePow] at hd
  match mode, hk with
  | 0, rfl =>
    simp only [encode32Step, Nat.shiftRight_eq_div_pow, Nat.shiftLeft_eq, and_7]
    exact keepsNumber_one (k := 3) rfl (by omega) (by omega) fun _ => by omega
  | 1, rfl =>
    obtain rfl := hleft (by decide)
    simp (disch := omega) only [encode32Step, Nat.shiftRight_eq_div_pow, Nat.shiftLeft_eq, and_1,
      and_31, Nat.reducePow, Nat.reduceSub, or_4]
    exact keepsNumber_two (k := 1) rfl (by omega) (by omega) (by omega) fun _ => by omega
  | 2, rfl =>
    obtain rfl := hleft (by decide)
    simp (disch := omega) only [encode32Step, Nat.shiftRight_eq_div_pow, Nat.shiftLeft_eq, and_15,
      Nat.reducePow, Nat.reduceSub, or_16]
    exact keepsNumber_one (k := 4) rfl (by omega) (by omega) fun _ => by omega
  | 3, rfl =>
    obtain rfl := hleft (by decide)
    simp (disch := omega) only [encode32Step, Nat.shiftRight_eq_div_pow, Nat.shiftLeft_eq, and_3,
      and_31, Nat.reducePow, Nat.reduceSub, or_2]
    exact keepsNumber_two (k := 2) rfl (by omega) (by omega) (by omega) fun _ => by omega
  | 4, rfl =>
    obtain rfl := hleft (by decide)
    simp (disch := omega) only [encode32Step, Nat.shiftRight_eq_div_pow, and_31, Nat.reducePow,
      Nat.reduceSub, or_8]
    exact keepsNumber_two (k := 0) rfl (by omega) (by omega) (by omega) nofun

theorem steps_decode32 :
    Steps 5 8 decode32Step (Keeps [0, 5, 2, 7, 4, 1, 6, 3] fun _ => 1) := by
  refine steps_of_keepsNumber fun mode k left pending d hk hpending hd hleft => ?_
  simp only [Nat.reducePow] at hd
  match mode, hk with
  | 0, rfl => exact keepsNumber_nil 5 rfl (by omega) (by omega)
  | 1, rfl =>
    obtain rfl := hleft (by decide)
    simp (disch := omega) only [decode32Step, Nat.shiftRight_eq_div_pow, Nat.shiftLeft_eq, and_3,
      Nat.reducePow, Nat.mul_one, or_8]
    exact keepsNumber_one (k := 2) rfl (by omega) (by omega) fun _ => by omega
  | 2, rfl =>
    obtain rfl := hleft (by decide)
    simp (disch := omega) only [decode32Step, Nat.shiftLeft_eq, Nat.reducePow, Nat.mul_one, or_32]
    exact keepsNumber_nil 7 rfl (by omega) (by omega)
  | 3, rfl =>
    obtain rfl := hleft (by decide)
    simp (disch := omega) only [decode32Step, Nat.shiftRight_eq_div_pow, Nat.shiftLeft_eq, and_15,
      Nat.reducePow, Nat.mul_one, or_2]
    exact keepsNumber_one (k := 4) rfl (by omega) (by omega) fun _ => by omega
  | 4, rfl =>
    obtain rfl := hleft (by decide)
    simp (disch := omega) only [decode32Step, Nat.shiftRight_eq_div_pow, Nat.shiftLeft_eq, and_1,
      Nat.reducePow, Nat.mul_one, or_16]
    exact keepsNumber_one (k := 1) rfl (by omega) (by omega) fun _ => by omega
  | 5, rfl =>
    obtain rfl := hleft (by decide)
    simp (disch := omega) only [decode32Step, Nat.shiftLeft_eq, Nat.reducePow, Nat.mul_one, or_32]
    exact keepsNumber_nil 6 rfl (by omega) (by omega)
  | 6, rfl =>
    obtain rfl := hleft (by decide)
    simp (disch := omega) only [decode32Step, Nat.shiftRight_eq_div_pow, Nat.shiftLeft_eq, and_7,
      Nat.reducePow, Nat.mul_one, or_4]
    exact keepsNumber_one (k := 3) rfl (by omega) (by omega) fun _ => by omega
  | 7, rfl =>
    obtain rfl := hleft (by decide)
    simp (disch := omega) only [decode32Step, Nat.shiftLeft_eq, Nat.reducePow, Nat.mul_one, or_32]
    exact keepsNumber_one (k := 0) rfl (by omega) (by omega) nofun

end Ticoin
