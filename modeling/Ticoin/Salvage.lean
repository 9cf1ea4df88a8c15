import Ticoin.Util

/-!
# db.cpp : salvage of a database file

`Salvage` has the database dumped as text, and reads the lines after `HEADER=END` two at a time, a
key and its value in hexadecimal. The end of the loop is the line `DATA=END`, but the line that is
not taken for a key is `DATA_END` : so the last line is decoded as a key too, to the byte `0xDA`,
and every complete dump yields one record more than it has (`salvage_eq`). Both loops end for every
text (`readDump_isSome`).
-/

namespace Ticoin

open Codec

/-! ## Lines of a stream -/

/-- A `stringstream` that is read. -/
structure StringStream where
  rest : Bytes
  eof : Bool
  fail : Bool

/-- `getline` : the line is extracted with its newline. Nothing happens to the string if the stream
is not good. -/
def StringStream.getline (s : StringStream) (str : Bytes) : StringStream × Bytes :=
  if s.eof || s.fail then ({ s with fail := true }, str)
  else
    let line := s.rest.takeWhile (· ≠ 10)
    match s.rest.dropWhile (· ≠ 10) with
    | [] => (⟨[], true, line.isEmpty⟩, line)
    | _ :: rest => (⟨rest, false, false⟩, line)

/-! ## Salvage -/

/-- What `Db::verify` returns. -/
inductive DbVerifyResult
  | success
  | verifyBad
  | failure
  deriving DecidableEq

abbrev KeyValPair := Bytes × Bytes

def headerEnd : Bytes := asciiBytes "HEADER=END"
def dataEnd : Bytes := asciiBytes "DATA=END"

/-- The line that is not taken for a key. -/
def dataEndTested : Bytes := asciiBytes "DATA_END"

/-- The loop that skips past the header, in some turns at most. -/
def skipHeader : ℕ → StringStream → Bytes → Option StringStream
  | 0, _, _ => none
  | turns + 1, strDump, strLine =>
    if !strDump.eof ∧ strLine ≠ headerEnd then
      let (strDump, strLine) := strDump.getline strLine
      skipHeader turns strDump strLine
    else some strDump

/-- The loop that reads the records, in some turns at most. -/
def readRecords : ℕ → StringStream → Bytes → Bytes → List KeyValPair → Option (List KeyValPair)
  | 0, _, _, _, _ => none
  | turns + 1, strDump, keyHex, valueHex, vResult =>
    if !strDump.eof ∧ keyHex ≠ dataEnd then
      let (strDump, keyHex) := strDump.getline keyHex
      if keyHex ≠ dataEndTested then
        let (strDump, valueHex) := strDump.getline valueHex
        readRecords turns strDump keyHex valueHex
          (vResult ++ [(parseHex keyHex, parseHex valueHex)])
      else readRecords turns strDump keyHex valueHex vResult
    else some vResult

/-- The loops over the text of a dump. -/
def readDump (strDump : Bytes) (vResult : List KeyValPair) : Option (List KeyValPair) := do
  let turns := strDump.length + 2
  let strDump ← skipHeader turns ⟨strDump, false, false⟩ []
  readRecords turns strDump [] [] vResult

/-- `Salvage`, with what `verify` returns and writes. -/
def salvage (result : DbVerifyResult) (strDump : Bytes) (fAggressive : Bool)
    (vResult : List KeyValPair) : Option (Bool × List KeyValPair) :=
  if result = .verifyBad ∧ !fAggressive then some (false, vResult)
  else if result ≠ .success ∧ result ≠ .verifyBad then some (false, vResult)
  else (readDump strDump vResult).map fun vResult => (decide (result = .success), vResult)

/-! ## The loops end -/

namespace StringStream

theorem getline_good (rest str : Bytes) : getline ⟨rest, false, false⟩ str =
    match rest.dropWhile (· ≠ 10) with
    | [] => (⟨[], true, (rest.takeWhile (· ≠ 10)).isEmpty⟩, rest.takeWhile (· ≠ 10))
    | _ :: rest' => (⟨rest', false, false⟩, rest.takeWhile (· ≠ 10)) := rfl

/-- What `getline` makes less while there is something to read. -/
def left (s : StringStream) : ℕ := s.rest.length + if s.eof then 0 else 1

/-- A stream fails at its end only. -/
def Sound (s : StringStream) : Prop := s.fail = true → s.eof = true

theorem Sound.getline {s : StringStream} (h : s.Sound) (str : Bytes) :
    (s.getline str).1.Sound ∧ (s.eof = false → (s.getline str).1.left < s.left) ∧
      (s.getline str).1.left ≤ s.left := by
  obtain ⟨rest, eof, fail⟩ := s
  cases eof with
  | true => exact ⟨fun _ => rfl, nofun, le_rfl⟩
  | false =>
    obtain rfl : fail = false := Bool.eq_false_iff.mpr fun hfail => nomatch h hfail
    rw [getline_good]
    split
    · exact ⟨fun _ => rfl, fun _ => by simp [left], by simp [left]⟩
    · rename_i rest' hdrop
      have hlen := (List.dropWhile_sublist (l := rest) fun c => decide (c ≠ 10)).length_le
      rw [hdrop, List.length_cons] at hlen
      have hlt : rest'.length + 1 < rest.length + 1 := by omega
      exact ⟨nofun, fun _ => hlt, hlt.le⟩

end StringStream

theorem skipHeader_isSome : ∀ {turns : ℕ} {s : StringStream} (strLine : Bytes), s.Sound →
    s.left < turns → ∃ s', skipHeader turns s strLine = some s' ∧ s'.Sound ∧ s'.left ≤ s.left
  | 0, _, _, _, hturns => absurd hturns (Nat.not_lt_zero _)
  | turns + 1, s, strLine, h, hturns => by
    unfold skipHeader
    split
    · rename_i hmore
      obtain ⟨hsound, hless, hle⟩ := h.getline strLine
      have hlt := hless (by simpa using hmore.1)
      obtain ⟨s', hs', hsound', hle'⟩ := skipHeader_isSome (s.getline strLine).2 hsound
        (show _ < turns by omega)
      exact ⟨s', hs', hsound', hle'.trans hle⟩
    · exact ⟨s, rfl, h, le_rfl⟩

theorem readRecords_isSome : ∀ {turns : ℕ} {s : StringStream} {keyHex valueHex : Bytes}
    {vResult : List KeyValPair}, s.Sound → s.left < turns →
    (readRecords turns s keyHex valueHex vResult).isSome
  | 0, _, _, _, _, _, hturns => absurd hturns (Nat.not_lt_zero _)
  | turns + 1, s, keyHex, valueHex, vResult, h, hturns => by
    unfold readRecords
    split
    · rename_i hmore
      obtain ⟨hsound, hless, -⟩ := h.getline keyHex
      have hlt := hless (by simpa using hmore.1)
      dsimp only
      split
      · obtain ⟨hsound', -, hle⟩ := hsound.getline valueHex
        exact readRecords_isSome hsound' (by omega)
      · exact readRecords_isSome hsound (by omega)
    · rfl

/-- Both loops end for every text, complete or truncated. -/
theorem readDump_isSome (strDump : Bytes) (vResult : List KeyValPair) :
    (readDump strDump vResult).isSome := by
  have hsound : (⟨strDump, false, false⟩ : StringStream).Sound := nofun
  obtain ⟨s, hs, hsound', hle⟩ := skipHeader_isSome [] hsound
    (Nat.lt_succ_self (strDump.length + 1))
  unfold readDump
  dsimp only
  rw [hs]
  exact readRecords_isSome hsound' (hle.trans_lt (Nat.lt_succ_self _))

/-! ## Complete dumps -/

/-- A line of hexadecimal digits, between which there may be space. -/
def IsHexLine (line : Bytes) : Prop := ∀ c ∈ line, c ≠ 10 ∧ (isSpace c ∨ (hexDigit c).isSome)

/-- The text of a dump : header lines, and records, with a newline at the end or not. -/
structure Dump where
  header : List Bytes
  records : List (Bytes × Bytes)
  fNewline : Bool
  header_lines : ∀ line ∈ header, (10 : UInt8) ∉ line ∧ line ≠ headerEnd
  record_lines : ∀ record ∈ records, IsHexLine record.1 ∧ IsHexLine record.2

/-- Lines with their newlines. -/
def unlines (lines : List Bytes) : Bytes := lines.flatMap fun line => line ++ [10]

namespace Dump

variable (dump : Dump)

def text : Bytes :=
  unlines dump.header ++ unlines [headerEnd] ++
    unlines (dump.records.flatMap fun record => [record.1, record.2]) ++
    (dataEnd ++ if dump.fNewline then [10] else [])

/-- The records that are dumped. -/
def decoded : List KeyValPair :=
  dump.records.map fun record => (parseHex record.1, parseHex record.2)

/-- The value of the record that `DATA=END` is taken for : nothing is read after the last newline,
and without it the last value is still there. -/
def lastValue (valueHex : Bytes) : Bytes :=
  if dump.fNewline then [] else (dump.records.getLast?.map Prod.snd).getD valueHex

end Dump

theorem getline_line {line : Bytes} (h : (10 : UInt8) ∉ line) (rest str : Bytes) :
    StringStream.getline ⟨line ++ 10 :: rest, false, false⟩ str = (⟨rest, false, false⟩, line) := by
  have hall : ∀ c ∈ line, decide (c ≠ 10) = true := fun c hc =>
    decide_eq_true fun heq => h (heq ▸ hc)
  rw [StringStream.getline_good, List.takeWhile_append_of_pos hall,
    List.dropWhile_append_of_pos hall]
  simp

theorem getline_last {line : Bytes} (h : (10 : UInt8) ∉ line) (str : Bytes) :
    StringStream.getline ⟨line, false, false⟩ str = (⟨[], true, line.isEmpty⟩, line) := by
  have hall : ∀ c ∈ line, decide (c ≠ 10) = true := fun c hc =>
    decide_eq_true fun heq => h (heq ▸ hc)
  rw [StringStream.getline_good, List.takeWhile_eq_self_iff.mpr hall,
    List.dropWhile_eq_nil_iff.mpr hall]

theorem skipHeader_line {turns : ℕ} {line strLine : Bytes} (h : (10 : UInt8) ∉ line)
    (hne : strLine ≠ headerEnd) (rest : Bytes) :
    skipHeader (turns + 1) ⟨line ++ 10 :: rest, false, false⟩ strLine =
      skipHeader turns ⟨rest, false, false⟩ line := by
  conv_lhs => unfold skipHeader
  rw [if_pos ⟨rfl, hne⟩, getline_line h]

/-- The header is skipped. -/
theorem skipHeader_header (rest : Bytes) : ∀ {header : List Bytes} (strLine : Bytes) (turns : ℕ),
    (∀ line ∈ header, (10 : UInt8) ∉ line ∧ line ≠ headerEnd) → strLine ≠ headerEnd →
    skipHeader (turns + header.length + 2)
      ⟨unlines header ++ (headerEnd ++ 10 :: rest), false, false⟩ strLine =
        some ⟨rest, false, false⟩
  | [], strLine, turns, _, hline => by
    refine (skipHeader_line (by decide) hline rest).trans ?_
    unfold skipHeader
    rw [if_neg fun hmore => hmore.2 rfl]
  | line :: header, strLine, turns, hheader, hline => by
    rw [List.forall_mem_cons] at hheader
    have htext : unlines (line :: header) ++ (headerEnd ++ 10 :: rest) =
        line ++ 10 :: (unlines header ++ (headerEnd ++ 10 :: rest)) := by
      simp [unlines]
    rw [htext]
    exact (skipHeader_line hheader.1.1 hline _).trans
      (skipHeader_header rest line turns hheader.2 hheader.1.2)

theorem IsHexLine.notMem {line : Bytes} (h : IsHexLine line) {c : UInt8}
    (hc : ¬(c ≠ 10 ∧ (isSpace c ∨ (hexDigit c).isSome))) : c ∉ line :=
  fun hmem => hc (h c hmem)

/-- Two lines are a record. -/
theorem readRecords_record {turns : ℕ} {keyHex valueHex key value : Bytes} (hkey : IsHexLine key)
    (hvalue : IsHexLine value) (hne : keyHex ≠ dataEnd) (rest : Bytes) (vResult : List KeyValPair) :
    readRecords (turns + 1) ⟨key ++ 10 :: (value ++ 10 :: rest), false, false⟩ keyHex valueHex
        vResult =
      readRecords turns ⟨rest, false, false⟩ key value
        (vResult ++ [(parseHex key, parseHex value)]) := by
  have hkeyNe : key ≠ dataEndTested := fun heq =>
    hkey.notMem (c := 84) (by decide) (heq ▸ by decide)
  conv_lhs => unfold readRecords
  rw [if_pos ⟨rfl, hne⟩, getline_line (hkey.notMem (by decide))]
  dsimp only
  rw [if_pos hkeyNe, getline_line (hvalue.notMem (by decide))]

/-- The last line is taken for the key of one more record. -/
theorem readRecords_end {keyHex : Bytes} (hne : keyHex ≠ dataEnd) (turns : ℕ) (fNewline : Bool)
    (valueHex : Bytes) (vResult : List KeyValPair) :
    readRecords (turns + 2) ⟨dataEnd ++ if fNewline then [10] else [], false, false⟩ keyHex valueHex
        vResult =
      some (vResult ++ [([0xDA], parseHex (if fNewline then [] else valueHex))]) := by
  have hkey : parseHex dataEnd = [0xDA] := by decide +kernel
  have htested : dataEnd ≠ dataEndTested := by with_unfolding_all decide
  have hend : ∀ (s : StringStream) (valueHex : Bytes) (vResult : List KeyValPair),
      readRecords (turns + 1) s dataEnd valueHex vResult = some vResult := by
    intro s valueHex vResult
    unfold readRecords
    rw [if_neg fun hmore => hmore.2 rfl]
  conv_lhs => unfold readRecords
  rw [if_pos ⟨rfl, hne⟩]
  cases fNewline with
  | true =>
    rw [if_pos rfl, getline_line (by decide)]
    dsimp only
    rw [if_pos htested, getline_last List.not_mem_nil, hkey]
    exact hend _ _ _
  | false =>
    rw [if_neg Bool.false_ne_true, List.append_nil, getline_last (by decide)]
    dsimp only
    rw [if_pos htested, hkey]
    exact hend _ _ _

theorem readRecords_records (fNewline : Bool) : ∀ {records : List (Bytes × Bytes)}
    (keyHex valueHex : Bytes) (turns : ℕ) (vResult : List KeyValPair),
    (∀ record ∈ records, IsHexLine record.1 ∧ IsHexLine record.2) → keyHex ≠ dataEnd →
    readRecords (turns + records.length + 2)
      ⟨unlines (records.flatMap fun record => [record.1, record.2]) ++
        (dataEnd ++ if fNewline then [10] else []), false, false⟩ keyHex valueHex vResult =
      some (vResult ++ records.map (fun record => (parseHex record.1, parseHex record.2)) ++
        [([0xDA], parseHex (if fNewline then [] else
          (records.getLast?.map Prod.snd).getD valueHex))])
  | [], keyHex, valueHex, turns, vResult, _, hne => by
    rw [List.map_nil, List.append_nil]
    exact readRecords_end hne turns fNewline valueHex vResult
  | record :: records, keyHex, valueHex, turns, vResult, hrecords, hne => by
    rw [List.forall_mem_cons] at hrecords
    obtain ⟨⟨hkey, hvalue⟩, hrest⟩ := hrecords
    have htext : unlines ((record :: records).flatMap fun record => [record.1, record.2]) ++
          (dataEnd ++ if fNewline then [10] else []) =
        record.1 ++ 10 :: (record.2 ++ 10 :: (unlines (records.flatMap fun record =>
          [record.1, record.2]) ++ (dataEnd ++ if fNewline then [10] else []))) := by
      simp [unlines]
    have hkeyNe : record.1 ≠ dataEnd := fun heq =>
      hkey.notMem (c := 84) (by decide) (heq ▸ by decide)
    have hlast : ((record :: records).getLast?.map Prod.snd).getD valueHex =
        (records.getLast?.map Prod.snd).getD record.2 := by
      rw [List.getLast?_cons]
      cases records.getLast? <;> rfl
    rw [htext, hlast]
    refine (readRecords_record hkey hvalue hne _ _).trans ?_
    have hlen : turns + (record :: records).length + 1 = turns + records.length + 2 := by
      rw [List.length_cons]
      omega
    rw [hlen, readRecords_records fNewline record.1 record.2 turns _ hrest hkeyNe, List.map_cons]
    simp

theorem length_le_length_unlines (lines : List Bytes) : lines.length ≤ (unlines lines).length := by
  unfold unlines
  rw [List.length_flatMap]
  refine (List.length_map _).ge.trans (List.length_le_sum_of_one_le _ fun n hn => ?_)
  obtain ⟨line, -, rfl⟩ := List.mem_map.mp hn
  rw [List.length_append]
  exact Nat.le_add_left _ _

/-- A complete dump yields its records and one more. -/
theorem readDump_eq (dump : Dump) (vResult : List KeyValPair) : readDump dump.text vResult =
    some (vResult ++ dump.decoded ++ [([0xDA], parseHex (dump.lastValue []))]) := by
  have htext : dump.text = unlines dump.header ++ (headerEnd ++ 10 ::
      (unlines (dump.records.flatMap fun record => [record.1, record.2]) ++
        (dataEnd ++ if dump.fNewline then [10] else []))) := by
    simp [Dump.text, unlines]
  have hheader := length_le_length_unlines dump.header
  have hrecords := length_le_length_unlines
    (dump.records.flatMap fun record => [record.1, record.2])
  have hlen : 2 * dump.records.length =
      (dump.records.flatMap fun record => [record.1, record.2]).length := by
    simp [List.length_flatMap, mul_comm]
  have hsize := congrArg List.length htext
  rw [List.length_append, List.length_append, List.length_cons, List.length_append] at hsize
  obtain ⟨n, hn⟩ := Nat.exists_eq_add_of_le' (show dump.header.length ≤ dump.text.length by omega)
  obtain ⟨n', hn'⟩ := Nat.exists_eq_add_of_le'
    (show dump.records.length ≤ dump.text.length by omega)
  have hskip := skipHeader_header (unlines (dump.records.flatMap fun record =>
    [record.1, record.2]) ++ (dataEnd ++ if dump.fNewline then [10] else [])) [] n
    dump.header_lines (by decide)
  have hread := readRecords_records dump.fNewline [] [] n' vResult dump.record_lines
    (by decide)
  rw [← hn, ← htext] at hskip
  rw [← hn'] at hread
  unfold readDump
  dsimp only
  rw [hskip]
  exact hread

/-- `Salvage` of a complete dump appends its records and one more, never exactly its records, and it
returns for every text. -/
theorem salvage_eq {result : DbVerifyResult} {fAggressive : Bool}
    (h : result = .success ∨ result = .verifyBad ∧ fAggressive = true) (dump : Dump)
    (vResult : List KeyValPair) :
    salvage result dump.text fAggressive vResult = some (decide (result = .success),
        vResult ++ dump.decoded ++ [([0xDA], parseHex (dump.lastValue []))]) ∧
      (¬∃ ret, salvage result dump.text fAggressive vResult = some (ret, vResult ++ dump.decoded)) ∧
      ∀ text, (salvage result text fAggressive vResult).isSome := by
  have hreads : ∀ text, salvage result text fAggressive vResult =
      (readDump text vResult).map fun vResult => (decide (result = .success), vResult) := by
    intro text
    unfold salvage
    rcases h with rfl | ⟨rfl, rfl⟩ <;> rfl
  have heq := (hreads dump.text).trans (congrArg _ (readDump_eq dump vResult))
  refine ⟨heq, ?_, fun text => ?_⟩
  · rintro ⟨ret, hret⟩
    have hlen := congrArg (fun r => r.map fun r => r.2.length) (heq.symm.trans hret)
    simp at hlen
  · rw [hreads, Option.isSome_map]
    exact readDump_isSome text vResult

/-- A dump of one record. -/
def sampleDump : Dump where
  header := [asciiBytes "VERSION=3"]
  records := [(asciiBytes " 6b6579", asciiBytes " 00ff")]
  fNewline := true
  header_lines := by decide
  record_lines := by
    unfold IsHexLine
    decide +kernel

theorem salvage_sampleDump :
    (DbVerifyResult.success = .success ∨ DbVerifyResult.success = .verifyBad ∧ false = true) ∧
      salvage .success sampleDump.text false [] =
        some (true, [] ++ sampleDump.decoded ++ [([0xDA], parseHex (sampleDump.lastValue []))]) :=
  ⟨.inl rfl, (salvage_eq (.inl rfl) sampleDump []).1⟩

/-- The record of `DATA=END`. -/
theorem salvage_appends_dataEnd : sampleDump.decoded = [([0x6b, 0x65, 0x79], [0, 0xff])] ∧
    salvage .success sampleDump.text false [] =
      some (true, [([0x6b, 0x65, 0x79], [0, 0xff]), ([0xDA], [])]) := by
  decide +kernel

end Ticoin
