import Ticoin.Lib.VarInt

/-!
# serialize.h : variable-length integers

`WriteVarInt` fills a temporary buffer with the groups of a number, the last group first, and writes
it from its end. `ReadVarInt` and `GetSizeOfVarInt` have loops of their own.

For an unsigned type of `w` bits the buffer is long enough, what is written has the size that is
counted and is read back, no encoding begins another one, and what is read without an overflow is
the encoding of the number read (`varInt_bijective`).
-/

namespace Ticoin

open Codec

/-- The first loop of `WriteVarInt` : the buffer, and the place of the first group. Nothing may be
set past the end of the buffer. -/
def fillVarInt (tmp : Bytes) (len n : ℕ) : Option (Bytes × ℕ) :=
  if len < tmp.length then
    if n ≤ 0x7f then some (tmp.set len (varIntByte n (len ≠ 0)), len)
    else fillVarInt (tmp.set len (varIntByte n (len ≠ 0))) (len + 1) ((n >>> 7) - 1)
  else none
termination_by n
decreasing_by
  rw [Nat.shiftRight_eq_div_pow]
  omega

/-- The second loop of `WriteVarInt`. -/
def outputVarInt (tmp : Bytes) : ℕ → Bytes
  | 0 => [tmp.getD 0 0]
  | len + 1 => tmp.getD (len + 1) 0 :: outputVarInt tmp len

/-- `WriteVarInt`, whatever the buffer has. -/
def writeVarIntBuffered (tmp : Bytes) (n : ℕ) : Option Bytes :=
  (fillVarInt tmp 0 n).map fun r => outputVarInt r.1 r.2

/-- The length of the buffer for a type of `w` bits. -/
def varIntBufferSize (w : ℕ) : ℕ := (w + 6) / 7

/-! ## The buffer -/

/-- What is output of a buffer is its beginning, in reverse. -/
theorem outputVarInt_eq {tmp : Bytes} : ∀ {len : ℕ}, len < tmp.length →
    outputVarInt tmp len = (tmp.take (len + 1)).reverse
  | 0, h => by
    cases tmp with
    | nil => cases h
    | cons b tmp => rfl
  | len + 1, h => by
    rw [outputVarInt, outputVarInt_eq (Nat.lt_of_succ_lt h), List.take_succ_eq_append_getElem h,
      List.reverse_append, List.reverse_singleton, List.singleton_append,
      List.getD_eq_getElem _ _ h]

/-- A group that is set comes before what the buffer had, marked unless it is the first. -/
theorem reverse_take_set {tmp : Bytes} {len : ℕ} (n : ℕ) (h : len < tmp.length) :
    ((tmp.set len (varIntByte n (len ≠ 0))).take (len + 1)).reverse =
      varIntByte n ((tmp.take len).reverse ≠ []) :: (tmp.take len).reverse := by
  have hmark : (len ≠ 0) ↔ (tmp.take len).reverse ≠ [] := by
    rw [ne_eq, ne_eq, List.reverse_eq_nil_iff, List.take_eq_nil_iff, not_iff_not]
    exact ⟨.inl, fun hnil => hnil.resolve_right fun htmp => by simp [htmp] at h⟩
  rw [List.take_succ_eq_append_getElem (by rwa [List.length_set]), List.getElem_set_self,
    List.take_set_of_le (Nat.le_refl len), List.reverse_append, List.reverse_singleton,
    List.singleton_append, decide_eq_decide.mpr hmark]

/-- With enough room, the buffer has what is written before what it had. -/
theorem fillVarInt_spec (tmp : Bytes) (len n : ℕ) (hroom : len + sizeOfVarInt n ≤ tmp.length) :
    ∃ r, fillVarInt tmp len n = some r ∧ r.2 < r.1.length ∧
      (r.1.take (r.2 + 1)).reverse = writeVarIntFrom n (tmp.take len).reverse := by
  induction tmp, len, n using fillVarInt.induct with
  | case1 tmp len n hlen hn =>
    refine ⟨(tmp.set len (varIntByte n (len ≠ 0)), len), ?_, ?_, ?_⟩
    · rw [fillVarInt, if_pos hlen, if_pos hn]
    · rwa [List.length_set]
    · rw [writeVarIntFrom, if_pos hn]
      exact reverse_take_set n hlen
  | case2 tmp len n hlen hn ih =>
    rw [sizeOfVarInt, if_neg hn] at hroom
    obtain ⟨r, hfill, hlt, hwrite⟩ := ih (by rw [List.length_set]; omega)
    refine ⟨r, ?_, hlt, ?_⟩
    · rw [fillVarInt, if_pos hlen, if_neg hn]
      exact hfill
    · conv_rhs => rw [writeVarIntFrom, if_neg hn]
      rw [hwrite, reverse_take_set n hlen]
  | case3 tmp len n hlen =>
    have hpos := sizeOfVarInt_pos n
    omega

/-- With enough room, the bytes output are those of the number. -/
theorem writeVarIntBuffered_eq {tmp : Bytes} {n : ℕ} (hroom : sizeOfVarInt n ≤ tmp.length) :
    writeVarIntBuffered tmp n = some (writeVarInt n) := by
  obtain ⟨r, hfill, hlt, hwrite⟩ := fillVarInt_spec tmp 0 n (by omega)
  rw [writeVarIntBuffered, hfill, Option.map_some, outputVarInt_eq hlt, hwrite]
  rfl

/-- The buffer has room for every number of the type. -/
theorem sizeOfVarInt_le_bufferSize {w n : ℕ} (hw : 0 < w) (hn : n < 2 ^ w) :
    sizeOfVarInt n ≤ varIntBufferSize w := by
  unfold varIntBufferSize
  refine sizeOfVarInt_le_of_lt (by omega) (hn.trans_le ?_)
  rw [show (128 : ℕ) = 2 ^ 7 from rfl, ← pow_mul]
  exact Nat.pow_le_pow_right (by decide) (by omega)

/-! ## The encoding -/

/-- An encoding that begins another is that of the same number. -/
theorem writeVarInt_beginning {m n : ℕ} (h : writeVarInt m <+: writeVarInt n) : m = n := by
  obtain ⟨rest, hrest⟩ := h
  have hm := reads_varInt () (Nat.lt_two_pow_self.trans_le
    (Nat.pow_le_pow_right (by decide) (Nat.le_max_left m n))) rest
  have hn := reads_varInt () (Nat.lt_two_pow_self.trans_le
    (Nat.pow_le_pow_right (by decide) (Nat.le_max_right m n))) []
  rw [hrest, ← List.append_nil (writeVarInt n), hn] at hm
  exact (congrArg Prod.fst (Except.ok.inj hm)).symm

/-- **Variable-length integers** : a number of an unsigned type is written within the buffer, in as
many bytes as are counted, and is read back. An encoding that begins another is that of the same
number. What is read without an overflow is the encoding of the number read. -/
theorem varInt_bijective {ε : Type} (eof : ε) {w : ℕ} (hw : 0 < w) :
    (∀ n < 2 ^ w, ∀ tmp : Bytes, tmp.length = varIntBufferSize w →
      ∃ bs, writeVarIntBuffered tmp n = some bs ∧ bs.length = sizeOfVarInt n ∧
        sizeOfVarInt n ≤ varIntBufferSize w ∧
        ∀ rest, readVarInt eof w (bs ++ rest) = .ok (n, rest)) ∧
    (∀ m < 2 ^ w, ∀ n < 2 ^ w, ∀ (tmp tmp' bs bs' : Bytes), tmp.length = varIntBufferSize w →
      tmp'.length = varIntBufferSize w → writeVarIntBuffered tmp m = some bs →
      writeVarIntBuffered tmp' n = some bs' → bs <+: bs' → m = n) ∧
    (∀ (s rest : Bytes) (n : ℕ), NoOverflow w 0 s → readVarInt eof w s = .ok (n, rest) →
      n < 2 ^ w ∧ ∀ tmp : Bytes, tmp.length = varIntBufferSize w →
        ∃ bs, writeVarIntBuffered tmp n = some bs ∧ s = bs ++ rest) := by
  have hwrite : ∀ n < 2 ^ w, ∀ tmp : Bytes, tmp.length = varIntBufferSize w →
      writeVarIntBuffered tmp n = some (writeVarInt n) := fun n hn tmp htmp =>
    writeVarIntBuffered_eq (by rw [htmp]; exact sizeOfVarInt_le_bufferSize hw hn)
  refine ⟨fun n hn tmp htmp => ?_, fun m hm n hn tmp tmp' bs bs' htmp htmp' hbs hbs' hpre => ?_,
    fun s rest n hover hread => ?_⟩
  · exact ⟨_, hwrite n hn tmp htmp, length_writeVarInt n, sizeOfVarInt_le_bufferSize hw hn,
      reads_varInt eof hn⟩
  · rw [hwrite m hm tmp htmp] at hbs
    rw [hwrite n hn tmp' htmp'] at hbs'
    rw [← Option.some.inj hbs, ← Option.some.inj hbs'] at hpre
    exact writeVarInt_beginning hpre
  · have hn := readVarIntFrom_lt hover hread
    exact ⟨hn, fun tmp htmp => ⟨_, hwrite n hn tmp htmp, canonical_readVarInt hover hread⟩⟩

/-- The numbers of a byte, in a buffer of two. -/
theorem varInt_bijective_byte :
    0 < 8 ∧ (∃ bs, writeVarIntBuffered [0, 0] 255 = some bs ∧
      readVarInt () 8 (bs ++ [7]) = .ok (255, [7])) := by
  refine ⟨by decide, ?_⟩
  obtain ⟨bs, hbs, -, -, hread⟩ :=
    (varInt_bijective () (by decide : 0 < 8)).1 255 (by decide) [0, 0] rfl
  exact ⟨bs, hbs, hread [7]⟩

end Ticoin
