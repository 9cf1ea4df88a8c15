import Ticoin.Base58

/-!
# rpcdump.cpp : dumpwallet and importwallet

A dump has a line for each key of the wallet : the secret, the birth time, a label or what else the
key is for, and a comment. The label is escaped so that there is no space in it, since a line is
taken apart at the spaces.

What is written for a key is read back, if the escaped label has less than 2^32 bytes
(`survivesDump_iff`). The position in `DecodeDumpString` is an `unsigned int` and the length of a
string is not : in a longer one it starts again from the beginning.
-/

namespace Ticoin

open Codec

/-! ## Labels -/

/-- `EncodeDumpString`. -/
def encodeDumpString (str : Bytes) : Bytes :=
  str.flatMap fun c => if c ≤ 32 ∨ c ≥ 128 ∨ c = 37 then 37 :: hexStr [c] else [c]

/-- The value of a digit, from its `char`. -/
def dumpDigit (c : UInt8) : Int32 := (c.toInt8.toInt32 >>> 6) * 9 + ((c.toInt8.toInt32 - 48) &&& 15)

/-- The byte that two digits stand for. -/
def dumpByte (c c' : UInt8) : UInt8 := (dumpDigit c <<< 4 ||| dumpDigit c').toInt8.toUInt8

/-- The loop of `DecodeDumpString`, for some number of rounds. -/
def decodeDumpLoop (str : Bytes) : ℕ → UInt32 → Bytes → Option Bytes
  | 0, _, _ => none
  | fuel + 1, pos, ret =>
    if pos.toNat < str.length then
      let c := str.getD pos.toNat 0
      if c = 37 ∧ (pos + 2).toNat < str.length then
        decodeDumpLoop str fuel (pos + 2 + 1)
          (ret ++ [dumpByte (str.getD (pos + 1).toNat 0) (str.getD (pos + 2).toNat 0)])
      else decodeDumpLoop str fuel (pos + 1) (ret ++ [c])
    else some ret

/-- `DecodeDumpString`, with `none` if it has not returned yet. -/
def decodeDumpString (fuel : ℕ) (str : Bytes) : Option Bytes := decodeDumpLoop str fuel 0 []

/-! ## Lines -/

/-- Why a line gives no key : it is skipped, an assertion fails, or the loop is not over. -/
inductive LineEnd where
  | skip
  | assertion
  | running
  deriving DecidableEq, Repr

/-- The key of a line, the text of its time, and the label that it gets, if any. -/
structure ImportedKey where
  key : CKey
  strTime : Bytes
  strLabel : Option Bytes
  deriving DecidableEq, Repr

/-- The loop of `importwallet` over the other fields of a line. -/
def readDumpFields (fuel : ℕ) : List Bytes → Bytes → Bool → Option (Bytes × Bool)
  | [], strLabel, fLabel => some (strLabel, fLabel)
  | str :: vstr, strLabel, fLabel =>
    if (asciiBytes "#").isPrefixOf str then some (strLabel, fLabel)
    else
      let fLabel := if str = asciiBytes "change=1" then false else fLabel
      let fLabel := if str = asciiBytes "reserve=1" then false else fLabel
      if (asciiBytes "label=").isPrefixOf str then
        match decodeDumpString fuel (str.drop 6) with
        | none => none
        | some strLabel => readDumpFields fuel vstr strLabel true
      else readDumpFields fuel vstr strLabel fLabel

section Dump

variable (C : Crypto) (network : Network)

/-- A line of `importwallet`, for a wallet that has some keys already. -/
def importLine (haveKey : CKeyID → Bool) (fuel : ℕ) (line : Bytes) : Except LineEnd ImportedKey :=
  if line = [] ∨ line.head? = some 35 then .error .skip
  else
    let vstr := line.splitOn 32
    if vstr.length < 2 then .error .skip
    else
      match CticoinSecret.setString C.hash network (vstr.getD 0 []) with
      | none => .error .assertion
      | some (false, _) => .error .skip
      | some (true, vchSecret) =>
        let key := CticoinSecret.getKey vchSecret
        match key.getPubKey C with
        | none => .error .assertion
        | some pubkey =>
          if haveKey (pubkey.getID C) then .error .skip
          else
            match readDumpFields fuel (vstr.drop 2) [] true with
            | none => .error .running
            | some (strLabel, fLabel) =>
              .ok ⟨key, vstr.getD 1 [], if fLabel then some strLabel else none⟩

/-- The line of `dumpwallet` for a key : with the name of its address if it is in the address book,
as a key of the pool, or else as one for change. `none` is a failed assertion. -/
def dumpLine (keyid : CKeyID) (key : CKey) (strTime : Bytes) (name : Option Bytes)
    (fKeyPool : Bool) : Option Bytes := do
  let strAddr ← (CticoinAddress.ofKeyID network keyid).toString C.hash
  let secret ← CticoinSecret.setKey network key
  let strSecret ← secret.toString C.hash
  match name with
  | some name =>
    return strSecret ++ asciiBytes " " ++ strTime ++ asciiBytes " label=" ++
      encodeDumpString name ++ asciiBytes " # addr=" ++ strAddr
  | none =>
    if fKeyPool then
      return strSecret ++ asciiBytes " " ++ strTime ++ asciiBytes " reserve=1 # addr=" ++ strAddr
    else
      return strSecret ++ asciiBytes " " ++ strTime ++ asciiBytes " change=1 # addr=" ++ strAddr

/-- The label is decoded, and the line of a key is read back with it, or without one. -/
structure SurvivesDump (haveKey : CKeyID → Bool) (keyid : CKeyID) (key : CKey) (strTime : Bytes)
    (name : Option Bytes) (fKeyPool : Bool) : Prop where
  decodes : ∀ label ∈ name, ∃ fuel, decodeDumpString fuel (encodeDumpString label) = some label
  parses : ∃ line, dumpLine C network keyid key strTime name fKeyPool = some line ∧
    ∃ fuel, importLine C network haveKey fuel line = .ok ⟨key, strTime, name⟩

end Dump

/-! ## Decoding -/

/-- The digits of a byte are read back. -/
theorem dumpByte_hexChar (c : UInt8) :
    dumpByte (hexChar (c >>> 4)) (hexChar (c &&& 15)) = c := by
  obtain ⟨⟨n⟩⟩ := c
  revert n
  decide +kernel

theorem encodeDumpString_cons (c : UInt8) (str : Bytes) : encodeDumpString (c :: str) =
    (if c ≤ 32 ∨ c ≥ 128 ∨ c = 37 then 37 :: hexStr [c] else [c]) ++ encodeDumpString str := rfl

theorem hexStr_singleton (c : UInt8) : hexStr [c] = [hexChar (c >>> 4), hexChar (c &&& 15)] := rfl

/-- There is no space in what is written. -/
theorem not_mem_encodeDumpString (str : Bytes) : 32 ∉ encodeDumpString str := by
  have hbyte : ∀ c : UInt8,
      32 ∉ if c ≤ 32 ∨ c ≥ 128 ∨ c = 37 then 37 :: hexStr [c] else [c] := by
    rintro ⟨⟨n⟩⟩
    revert n
    decide +kernel
  intro hmem
  obtain ⟨c, -, hc⟩ := List.mem_flatMap.mp hmem
  exact hbyte c hc

theorem length_le_encodeDumpString : ∀ str : Bytes, str.length ≤ (encodeDumpString str).length
  | [] => le_rfl
  | c :: str => by
    have hrest := length_le_encodeDumpString str
    rw [encodeDumpString_cons, List.length_append, List.length_cons, hexStr_singleton]
    split <;> simp only [List.length_cons, List.length_nil] <;> omega

theorem getD_append_add (pre str : Bytes) (i : ℕ) :
    (pre ++ str).getD (pre.length + i) 0 = str.getD i 0 := by
  rw [List.getD_append_right _ _ _ _ (Nat.le_add_right _ _), Nat.add_sub_cancel_left]

theorem toNat_add_of_lt {pos n : UInt32} {start : ℕ} (hpos : pos.toNat = start)
    (h : start + n.toNat < 2 ^ 32) : (pos + n).toNat = start + n.toNat := by
  rw [UInt32.toNat_add, hpos, Nat.mod_eq_of_lt h]

section Loop

variable {pre rest : Bytes} {pos : UInt32} {c : UInt8}

/-- A character that is not escaped. -/
theorem decodeDumpLoop_plain (hpos : pos.toNat = pre.length) (hne : c ≠ 37) (fuel : ℕ)
    (ret : Bytes) : decodeDumpLoop (pre ++ c :: rest) (fuel + 1) pos ret =
      decodeDumpLoop (pre ++ c :: rest) fuel (pos + 1) (ret ++ [c]) := by
  have hget : (pre ++ c :: rest).getD pre.length 0 = c := getD_append_add pre _ 0
  conv_lhs => unfold decodeDumpLoop
  rw [hpos, hget, if_pos (by rw [List.length_append, List.length_cons]; omega)]
  dsimp only
  rw [if_neg fun h => hne h.1]

/-- An escaped byte, at the end of the text too. -/
theorem decodeDumpLoop_escaped (hpos : pos.toNat = pre.length)
    (hlen : (pre ++ 37 :: hexChar (c >>> 4) :: hexChar (c &&& 15) :: rest).length < 2 ^ 32)
    (fuel : ℕ) (ret : Bytes) :
    decodeDumpLoop (pre ++ 37 :: hexChar (c >>> 4) :: hexChar (c &&& 15) :: rest) (fuel + 1) pos
        ret =
      decodeDumpLoop (pre ++ 37 :: hexChar (c >>> 4) :: hexChar (c &&& 15) :: rest) fuel
        (pos + 2 + 1) (ret ++ [c]) := by
  set str := pre ++ 37 :: hexChar (c >>> 4) :: hexChar (c &&& 15) :: rest
  have hsize : str.length = pre.length + (rest.length + 3) := List.length_append
  have hget : ∀ i, str.getD (pre.length + i) 0 =
      (37 :: hexChar (c >>> 4) :: hexChar (c &&& 15) :: rest).getD i 0 := getD_append_add pre _
  have hpos1 : (pos + 1).toNat = pre.length + 1 :=
    toNat_add_of_lt hpos (by rw [UInt32.toNat_one]; omega)
  have hpos2 : (pos + 2).toNat = pre.length + 2 :=
    toNat_add_of_lt hpos (by rw [show (2 : UInt32).toNat = 2 from rfl]; omega)
  have hbyte : dumpByte (str.getD (pos + 1).toNat 0) (str.getD (pos + 2).toNat 0) = c := by
    rw [hpos1, hpos2, hget, hget]
    exact dumpByte_hexChar c
  conv_lhs => unfold decodeDumpLoop
  rw [hbyte, hpos, hpos2, hsize, if_pos (by omega)]
  dsimp only
  rw [if_pos ⟨hget 0, by omega⟩]

end Loop

/-- The loop reads what is left of an encoded text. -/
theorem decodeDumpLoop_eq : ∀ (str pre ret : Bytes) (pos : UInt32) (fuel : ℕ),
    pos.toNat = pre.length → (pre ++ encodeDumpString str).length < 2 ^ 32 → str.length < fuel →
    decodeDumpLoop (pre ++ encodeDumpString str) fuel pos ret = some (ret ++ str)
  | [], pre, ret, pos, fuel + 1, hpos, hlen, hfuel => by
    unfold decodeDumpLoop
    rw [if_neg (by rw [hpos]; simp [encodeDumpString]), List.append_nil]
  | c :: str, pre, ret, pos, fuel + 1, hpos, hlen, hfuel => by
    rw [List.length_cons] at hfuel
    rw [encodeDumpString_cons] at hlen ⊢
    have hsize := hlen
    rw [List.length_append, List.length_append] at hsize
    by_cases hescaped : c ≤ 32 ∨ c ≥ 128 ∨ c = 37
    · rw [if_pos hescaped, hexStr_singleton] at hlen hsize ⊢
      rw [List.length_cons, List.length_cons, List.length_cons, List.length_nil] at hsize
      have hpos2 : (pos + 2).toNat = pre.length + 2 :=
        toNat_add_of_lt hpos (by rw [show (2 : UInt32).toNat = 2 from rfl]; omega)
      have hpos3 : (pos + 2 + 1).toNat = pre.length + 3 :=
        toNat_add_of_lt hpos2 (by rw [UInt32.toNat_one]; omega)
      have hnext := decodeDumpLoop_eq str (pre ++ [37, hexChar (c >>> 4), hexChar (c &&& 15)])
        (ret ++ [c]) (pos + 2 + 1) fuel (by rw [hpos3, List.length_append]; rfl)
        (by rwa [List.append_assoc]) (by omega)
      rw [List.append_assoc, List.append_assoc] at hnext
      exact (decodeDumpLoop_escaped hpos hlen fuel ret).trans hnext
    · rw [if_neg hescaped] at hlen hsize ⊢
      rw [List.length_cons, List.length_nil] at hsize
      have hpos1 : (pos + 1).toNat = pre.length + 1 :=
        toNat_add_of_lt hpos (by rw [UInt32.toNat_one]; omega)
      have hnext := decodeDumpLoop_eq str (pre ++ [c]) (ret ++ [c]) (pos + 1) fuel
        (by rw [hpos1, List.length_append]; rfl) (by rwa [List.append_assoc]) (by omega)
      rw [List.append_assoc, List.append_assoc] at hnext
      exact (decodeDumpLoop_plain hpos (fun h => hescaped (.inr (.inr h))) fuel ret).trans hnext

/-- In a text that is too long the loop does not end. -/
theorem decodeDumpLoop_never {str : Bytes} (h : 2 ^ 32 ≤ str.length) :
    ∀ (fuel : ℕ) (pos : UInt32) (ret : Bytes), decodeDumpLoop str fuel pos ret = none
  | 0, _, _ => rfl
  | fuel + 1, pos, ret => by
    unfold decodeDumpLoop
    rw [if_pos (pos.toNat_lt.trans_le h)]
    dsimp only
    split
    · exact decodeDumpLoop_never h fuel _ _
    · exact decodeDumpLoop_never h fuel _ _

/-- A label is decoded if it is not too long, and else the decoding does not end. -/
theorem decodeDumpString_iff (label : Bytes) :
    (∃ fuel, decodeDumpString fuel (encodeDumpString label) = some label) ↔
      (encodeDumpString label).length < 2 ^ 32 := by
  constructor
  · rintro ⟨fuel, hfuel⟩
    by_contra hlong
    unfold decodeDumpString at hfuel
    rw [decodeDumpLoop_never (not_lt.mp hlong)] at hfuel
    cases hfuel
  · exact fun hlen => ⟨label.length + 1,
      decodeDumpLoop_eq label [] [] 0 _ rfl hlen (Nat.lt_succ_self _)⟩

/-! ## Reading a line -/

/-- The third field of a line. -/
def dumpField (name : Option Bytes) (fKeyPool : Bool) : Bytes :=
  match name with
  | some name => asciiBytes "label=" ++ encodeDumpString name
  | none => if fKeyPool then asciiBytes "reserve=1" else asciiBytes "change=1"

theorem not_mem_dumpField (name : Option Bytes) (fKeyPool : Bool) :
    32 ∉ dumpField name fKeyPool := by
  cases name with
  | some name =>
    refine fun hmem => (List.mem_append.mp hmem).elim ?_ (not_mem_encodeDumpString name)
    decide
  | none => cases fKeyPool <;> decide

/-- The field gives the label back, or clears the mark that there is one. -/
theorem readDumpFields_dumpField (fuel : ℕ) (name : Option Bytes) (fKeyPool : Bool)
    (rest : List Bytes) :
    readDumpFields fuel (dumpField name fKeyPool :: asciiBytes "#" :: rest) [] true =
      match name with
      | some name => (decodeDumpString fuel (encodeDumpString name)).map fun label => (label, true)
      | none => some ([], false) := by
  cases name with
  | some name =>
    have hlabel : asciiBytes "label=" = [108, 97, 98, 101, 108, 61] := by decide
    unfold dumpField readDumpFields
    rw [hlabel, if_neg (show ¬(asciiBytes "#").isPrefixOf
      ([108, 97, 98, 101, 108, 61] ++ encodeDumpString name) = true by
        rw [show asciiBytes "#" = [35] by decide]
        exact Bool.false_ne_true)]
    dsimp only
    rw [if_pos (by simp), List.drop_left' (by rfl)]
    cases decodeDumpString fuel (encodeDumpString name) with
    | none => rfl
    | some label => rfl
  | none => cases fKeyPool <;> rfl

variable {C : Crypto} {network : Network} {haveKey : CKeyID → Bool} {keyid : CKeyID} {key : CKey}
  {strTime : Bytes} {name : Option Bytes} {fKeyPool : Bool}

/-- The fields of a line. -/
theorem dumpLine_eq (hkey : key.IsSecret) : ∃ secret strSecret strAddr,
    dumpLine C network keyid key strTime name fKeyPool = some ([32].intercalate [strSecret, strTime,
      dumpField name fKeyPool, asciiBytes "#", asciiBytes "addr=" ++ strAddr]) ∧
    (∀ c ∈ strSecret, c ∈ pszBase58) ∧ (∀ c ∈ strAddr, c ∈ pszBase58) ∧
    CticoinSecret.setString C.hash network strSecret = some (true, secret) ∧
    CticoinSecret.getKey secret = key := by
  obtain ⟨strAddr, haddr, haddrMem, -⟩ :=
    CBase58Data.setString_toString (H := C.hash) (CticoinAddress.ofKeyID network keyid)
  obtain ⟨secret, strSecret, hsecret, hstr, hmem, hset, hget⟩ :=
    CticoinSecret.setString_toString (H := C.hash) network hkey
  refine ⟨secret, strSecret, strAddr, ?_, hmem, haddrMem, hset, hget⟩
  unfold dumpLine
  rw [haddr, hsecret]
  change (secret.toString C.hash >>= fun strSecret => _) = _
  rw [hstr]
  change (match name with | some name => _ | none => _) = _
  cases name with
  | some name => simp [List.intercalate, dumpField, asciiBytes]
  | none => cases fKeyPool <;> simp [List.intercalate, dumpField, asciiBytes]

/-- The line is taken apart again. -/
theorem importLine_dumpLine (hkey : key.IsSecret) (hnew : haveKey ((key.pubKey C).getID C) = false)
    (htime : 32 ∉ strTime) : ∃ line,
    dumpLine C network keyid key strTime name fKeyPool = some line ∧
      ∀ fuel, importLine C network haveKey fuel line =
        match name with
        | none => .ok ⟨key, strTime, none⟩
        | some name =>
          match decodeDumpString fuel (encodeDumpString name) with
          | none => .error .running
          | some label => .ok ⟨key, strTime, some label⟩ := by
  obtain ⟨secret, strSecret, strAddr, hline, hmem, haddr, hset, hget⟩ :=
    @dumpLine_eq C network keyid key strTime name fKeyPool hkey
  have hchar : ∀ c ∈ pszBase58, c ≠ 32 := by
    rintro c hc rfl
    exact absurd (base58_char 32 hc).1 (by decide)
  refine ⟨_, hline, fun fuel => ?_⟩
  set line := [32].intercalate [strSecret, strTime, dumpField name fKeyPool, asciiBytes "#",
    asciiBytes "addr=" ++ strAddr] with hlineEq
  have hhead : ¬(line = [] ∨ line.head? = some 35) := by
    rw [hlineEq]
    cases strSecret with
    | nil => simp [List.intercalate]
    | cons c strSecret =>
      simpa [List.intercalate] using (base58_char c (hmem c List.mem_cons_self)).2.2
  have hsplit : line.splitOn 32 = [strSecret, strTime, dumpField name fKeyPool, asciiBytes "#",
      asciiBytes "addr=" ++ strAddr] := by
    refine List.splitOn_intercalate 32 ?_ (List.cons_ne_nil _ _)
    simp only [List.forall_mem_cons]
    refine ⟨fun h => hchar _ (hmem _ h) rfl, htime, not_mem_dumpField _ _, by decide, ?_,
      fun _ h => absurd h List.not_mem_nil⟩
    exact fun h => (List.mem_append.mp h).elim (by decide) fun h => hchar _ (haddr _ h) rfl
  unfold importLine
  rw [if_neg hhead, hsplit]
  change (match CticoinSecret.setString C.hash network strSecret with
    | none => _ | some (false, _) => _ | some (true, vchSecret) => _) = _
  rw [hset]
  dsimp only
  rw [hget, hkey.getPubKey_eq C]
  dsimp only
  rw [hnew, if_neg Bool.false_ne_true]
  change (match readDumpFields fuel (dumpField name fKeyPool :: asciiBytes "#" :: _) [] true with
    | none => _ | some (strLabel, fLabel) => _) = _
  rw [readDumpFields_dumpField]
  cases name with
  | none => rfl
  | some name =>
    dsimp only
    cases decodeDumpString fuel (encodeDumpString name) with
    | none => rfl
    | some label => rfl

/-- What is dumped survives exactly if the escaped label is not too long. -/
theorem survivesDump_iff (hkey : key.IsSecret) (hnew : haveKey ((key.pubKey C).getID C) = false)
    (htime : 32 ∉ strTime) :
    SurvivesDump C network haveKey keyid key strTime name fKeyPool ↔
      ∀ label ∈ name, (encodeDumpString label).length < 2 ^ 32 := by
  obtain ⟨line, hline, himport⟩ :=
    @importLine_dumpLine C network haveKey keyid key strTime name fKeyPool hkey hnew htime
  constructor
  · exact fun h label hlabel => (decodeDumpString_iff label).mp (h.decodes label hlabel)
  · intro hlen
    have hdecodes := fun label hlabel => (decodeDumpString_iff label).mpr (hlen label hlabel)
    refine ⟨hdecodes, line, hline, ?_⟩
    cases name with
    | none => exact ⟨0, himport 0⟩
    | some label =>
      obtain ⟨fuel, hfuel⟩ := hdecodes label rfl
      refine ⟨fuel, (himport fuel).trans ?_⟩
      dsimp only
      rw [hfuel]

/-- A label with a space and an escape. -/
theorem survivesDump_smallKey : SurvivesDump CCryptoKeyStore.clearCrypto .main (fun _ => false) 0
    CCryptoKeyStore.smallKey (asciiBytes "2014-01-01T00:00:00Z") (some (asciiBytes "a b%"))
      false := by
  have hkey : CCryptoKeyStore.smallKey.IsSecret := ⟨rfl, rfl, by decide⟩
  refine (survivesDump_iff hkey rfl (by decide)).mpr ?_
  rintro label ⟨⟩
  decide

/-- A label of 2^32 letters : it is never decoded. -/
theorem not_survivesDump : ¬SurvivesDump CCryptoKeyStore.clearCrypto .main (fun _ => false) 0
    CCryptoKeyStore.smallKey (asciiBytes "2014-01-01T00:00:00Z")
      (some (List.replicate (2 ^ 32) 97)) false := by
  intro h
  obtain ⟨fuel, hfuel⟩ := h.decodes _ rfl
  have hlong := length_le_encodeDumpString (List.replicate (2 ^ 32) 97)
  rw [List.length_replicate] at hlong
  exact Option.some_ne_none _ (hfuel.symm.trans (decodeDumpLoop_never hlong fuel 0 []))

end Ticoin
