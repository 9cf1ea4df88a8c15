import Ticoin.Lib.ReadProgram

/-!
# CBufferedFile

A file read through a ring buffer. `Fill` reads ahead when the reading position meets that of the
source, as far as leaves room behind to rewind ; `SetPos` goes back, but no further than `nRewind`
bytes before the position of the source.

In the buffer of `LoadExternalBlockFile` the source is always at the end of the file or at one of
three places of each round of the buffer (`Buffered.filled`), so where a program stops decides how
far the source has been read (`runProgram_spec`) and to where the file can be rewound
(`Buffered.setPos`).
-/

namespace Ticoin

open Codec

/-! ## Reading -/

structure CBufferedFile where
  src : Bytes
  feof : Bool
  nSrcPos : ℕ
  nReadPos : ℕ
  nReadLimit : Option ℕ
  nRewind : ℕ
  nBufSize : ℕ
  vchBuf : ℕ → UInt8
  failbit : Bool

/-- What reads from a file and can throw, and has no value when a loop would not end. -/
abbrev BufferM (α : Type) := ExceptT String (StateT CBufferedFile Option) α

namespace CBufferedFile

def new (src : Bytes) (nBufSize nRewindIn : ℕ) : CBufferedFile where
  src := src
  feof := false
  nSrcPos := 0
  nReadPos := 0
  nReadLimit := none
  nRewind := nRewindIn
  nBufSize := nBufSize
  vchBuf := fun _ => 0
  failbit := false

/-- `Fill`. -/
def fill : BufferM Bool := fun f =>
  let pos := f.nSrcPos % f.nBufSize
  let nAvail := f.nBufSize - (f.nSrcPos - f.nReadPos) - f.nRewind
  let readNow := min (f.nBufSize - pos) nAvail
  if readNow = 0 then some (.ok false, f)
  else
    let read := (f.src.drop f.nSrcPos).take readNow
    let f := { f with feof := f.feof || decide (read.length < readNow) }
    if read = [] then some (.error "CBufferedFile::Fill : end of file", { f with failbit := true })
    else some (.ok true, { f with
      vchBuf := fun i => if pos ≤ i ∧ i < pos + read.length then read.getD (i - pos) 0 else f.vchBuf i
      nSrcPos := f.nSrcPos + read.length })

/-- `good`. -/
def good (f : CBufferedFile) : Bool := !f.failbit

/-- `eof`. -/
def eof (f : CBufferedFile) : Bool := f.nReadPos == f.nSrcPos && f.feof

/-- `Fill`, where there is nothing left to read in the buffer. -/
def fillIfEmpty : BufferM Bool := fun f =>
  if f.nReadPos = f.nSrcPos then fill f else some (.ok true, f)

/-- The bytes that one round of `read` copies, of `nSize` still wanted. -/
def copyNow (nSize : ℕ) : BufferM Bytes := fun f =>
  let pos := f.nReadPos % f.nBufSize
  let nNow := if nSize + pos > f.nBufSize then f.nBufSize - pos else nSize
  let nNow := if nNow + f.nReadPos > f.nSrcPos then f.nSrcPos - f.nReadPos else nNow
  some (.ok ((List.range nNow).map fun i => f.vchBuf (pos + i)), { f with nReadPos := f.nReadPos + nNow })

/-- The loop of `read` in some rounds, with `nSize` bytes still to be read. -/
def readLoop : ℕ → ℕ → Bytes → BufferM Bytes
  | _, 0, pch => pure pch
  | 0, _ + 1, _ => fun _ => none
  | n + 1, nSize + 1, pch => do
    let _ ← fillIfEmpty
    let now ← copyNow (nSize + 1)
    readLoop n (nSize + 1 - now.length) (pch ++ now)

/-- `read`. -/
def read (nSize : ℕ) : BufferM Bytes := fun f =>
  if f.nReadLimit.any (nSize + f.nReadPos > ·) then
    some (.error "Read attempted past buffer limit", f)
  else if nSize + f.nRewind > f.nBufSize then some (.error "Read larger than buffer size", f)
  else readLoop nSize nSize [] f

/-- `GetPos`. -/
def getPos : BufferM ℕ := fun f => some (.ok f.nReadPos, f)

/-- `SetPos`. -/
def setPos (nPos : ℕ) (f : CBufferedFile) : CBufferedFile :=
  if nPos + f.nRewind < f.nSrcPos then { f with nReadPos := f.nSrcPos - f.nRewind }
  else if nPos > f.nSrcPos then { f with nReadPos := f.nSrcPos }
  else { f with nReadPos := nPos }

/-- `Seek`. -/
def seek (nPos : ℕ) (f : CBufferedFile) : CBufferedFile :=
  { f with nSrcPos := nPos, nReadPos := nPos, failbit := false, feof := false }

/-- `SetLimit`, with `none` for no limit. -/
def setLimit (nPos : Option ℕ) (f : CBufferedFile) : CBufferedFile :=
  if nPos.any (· < f.nReadPos) then f else { f with nReadLimit := nPos }

/-- The byte at the reading position. -/
def byteHere : BufferM UInt8 := fun f => some (.ok (f.vchBuf (f.nReadPos % f.nBufSize)), f)

def skipByte : BufferM Unit := fun f => some (.ok (), { f with nReadPos := f.nReadPos + 1 })

/-- The loop of `FindByte` in some rounds. -/
def findByteLoop (ch : UInt8) : ℕ → BufferM Unit
  | 0 => fun _ => none
  | n + 1 => do
    let _ ← fillIfEmpty
    let b ← byteHere
    if b = ch then return ()
    skipByte
    findByteLoop ch n

/-- `FindByte`. -/
def findByte (ch : UInt8) : BufferM Unit := fun f => findByteLoop ch (f.src.length + 1) f

/-- A program that reads from the file. -/
def runProgram {α : Type} : ReadProg String α → BufferM α
  | .done a => pure a
  | .fail e => throw e
  | .read n next => do
    let bs ← read n
    runProgram (next bs)

/-! ## Computations -/

section

variable {α β : Type} {m : BufferM α} {k : α → BufferM β} {f f' : CBufferedFile} {a : α} {e : String}

theorem bind_ok (h : m f = some (.ok a, f')) : (m >>= k) f = k a f' := by
  change (m f >>= _) = _
  rw [h]
  rfl

theorem bind_error (h : m f = some (.error e, f')) : (m >>= k) f = some (.error e, f') := by
  change (m f >>= _) = _
  rw [h]
  rfl

end

/-! ## Where the source is -/

/-- The places, apart from the end of the file, to which a buffer of 2000000 bytes is filled that
keeps 1000008 to rewind. -/
def IsFill (pos : ℕ) : Prop :=
  pos % 2000000 = 0 ∨ pos % 2000000 = 999992 ∨ pos % 2000000 = 1999984

instance : DecidablePred IsFill := fun pos =>
  inferInstanceAs (Decidable (pos % 2000000 = 0 ∨ pos % 2000000 = 999992 ∨ pos % 2000000 = 1999984))

/-- The first of these places at a position or after it. -/
def fillEnd (pos : ℕ) : ℕ :=
  if pos = 0 then 0
  else if (pos - 1) % 2000000 < 999992 then (pos - 1) / 2000000 * 2000000 + 999992
  else if (pos - 1) % 2000000 < 1999984 then (pos - 1) / 2000000 * 2000000 + 1999984
  else (pos - 1) / 2000000 * 2000000 + 2000000

theorem le_fillEnd (pos : ℕ) : pos ≤ fillEnd pos := by
  unfold fillEnd
  split_ifs <;> omega

theorem fillEnd_mono {pos pos' : ℕ} (h : pos ≤ pos') : fillEnd pos ≤ fillEnd pos' := by
  unfold fillEnd
  split_ifs <;> omega

theorem isFill_fillEnd (pos : ℕ) : IsFill (fillEnd pos) := by
  unfold fillEnd IsFill
  split_ifs <;> omega

theorem fillEnd_le {pos s : ℕ} (h : pos ≤ s) (hs : IsFill s) : fillEnd pos ≤ s := by
  unfold fillEnd
  unfold IsFill at hs
  split_ifs <;> omega

theorem fillEnd_le_add (pos : ℕ) : fillEnd pos ≤ pos + 999992 := by
  unfold fillEnd
  split_ifs <;> omega

/-- One fill. -/
theorem fillEnd_succ {s : ℕ} (hs : IsFill s) :
    fillEnd (s + 1) = s + min (2000000 - s % 2000000) 999992 := by
  unfold IsFill at hs
  unfold fillEnd
  rw [if_neg (Nat.succ_ne_zero s), Nat.add_sub_cancel]
  split_ifs <;> omega

/-! ## The buffer -/

/-- The buffer of `LoadExternalBlockFile` over a file, without an error so far. -/
structure Buffered (src : Bytes) (f : CBufferedFile) : Prop where
  src_eq : f.src = src
  size_eq : f.nBufSize = 2000000
  rewind_eq : f.nRewind = 1000008
  failbit_eq : f.failbit = false
  read_le : f.nReadPos ≤ f.nSrcPos
  near : f.nSrcPos ≤ f.nReadPos + 1000008
  src_le : f.nSrcPos ≤ src.length
  ring : ∀ p < f.nSrcPos, f.nSrcPos ≤ p + 2000000 → src[p]? = some (f.vchBuf (p % 2000000))
  filled : f.nSrcPos = src.length ∨ IsFill f.nSrcPos
  feof_iff : f.feof = true ↔ f.nSrcPos = src.length ∧ ¬IsFill src.length

/-- The source after reading to a position, or the byte before it. -/
def readTo (src : Bytes) (nSrcPos pos : ℕ) : ℕ := max nSrcPos (min src.length (fillEnd pos))

variable {src : Bytes} {f f' : CBufferedFile}

theorem readTo_readTo {s pos pos' : ℕ} (h : pos ≤ pos') :
    readTo src (readTo src s pos) pos' = readTo src s pos' := by
  have hmono := fillEnd_mono h
  unfold readTo
  omega

theorem Buffered.readTo_of_le (h : Buffered src f) {pos : ℕ} (hpos : pos ≤ f.nSrcPos) :
    readTo src f.nSrcPos pos = f.nSrcPos := by
  have hle := h.src_le
  unfold readTo
  rcases h.filled with hend | hfill
  · omega
  · have hfill := fillEnd_le hpos hfill
    omega

/-- The bytes that a fill reads. -/
def fillBytes (src : Bytes) (nSrcPos : ℕ) : Bytes :=
  (src.drop nSrcPos).take (min (2000000 - nSrcPos % 2000000) 999992)

theorem Buffered.fill_eq (h : Buffered src f) (hempty : f.nReadPos = f.nSrcPos) :
    CBufferedFile.fill f =
      if fillBytes src f.nSrcPos = [] then
        some (.error "CBufferedFile::Fill : end of file",
          { f with feof := f.feof || decide ((fillBytes src f.nSrcPos).length <
                min (2000000 - f.nSrcPos % 2000000) 999992), failbit := true })
      else
        some (.ok true, { f with
          feof := f.feof || decide ((fillBytes src f.nSrcPos).length <
            min (2000000 - f.nSrcPos % 2000000) 999992)
          vchBuf := fun i =>
            if f.nSrcPos % 2000000 ≤ i ∧
                i < f.nSrcPos % 2000000 + (fillBytes src f.nSrcPos).length then
              (fillBytes src f.nSrcPos).getD (i - f.nSrcPos % 2000000) 0
            else f.vchBuf i
          nSrcPos := f.nSrcPos + (fillBytes src f.nSrcPos).length }) := by
  have hnow : min (f.nBufSize - f.nSrcPos % f.nBufSize)
      (f.nBufSize - (f.nSrcPos - f.nReadPos) - f.nRewind) =
      min (2000000 - f.nSrcPos % 2000000) 999992 := by
    rw [h.size_eq, h.rewind_eq, hempty, Nat.sub_self]
  rw [CBufferedFile.fill, hnow, h.src_eq, ← fillBytes, h.size_eq]
  dsimp only
  rw [if_neg (by omega)]

/-- A fill reads on to the next place, and the buffer stays a window of the file. -/
theorem Buffered.fill (h : Buffered src f) (hempty : f.nReadPos = f.nSrcPos)
    (hlt : f.nSrcPos < src.length) :
    ∃ f', CBufferedFile.fill f = some (.ok true, f') ∧ Buffered src f' ∧ f'.nReadPos = f.nReadPos ∧
      f'.nReadLimit = f.nReadLimit ∧ f.nReadPos < f'.nSrcPos ∧
      f'.nSrcPos = readTo src f.nSrcPos (f.nReadPos + 1) := by
  have hfill : IsFill f.nSrcPos := h.filled.resolve_left hlt.ne
  have hnext := fillEnd_succ hfill
  have hlen : (fillBytes src f.nSrcPos).length =
      min (min (2000000 - f.nSrcPos % 2000000) 999992) (src.length - f.nSrcPos) := by
    rw [fillBytes, List.length_take, List.length_drop]
  have hpos : 0 < (fillBytes src f.nSrcPos).length := by omega
  rw [h.fill_eq hempty, if_neg (List.length_pos_iff.mp hpos)]
  generalize hn : (fillBytes src f.nSrcPos).length = n at hlen hpos
  have hto : f.nSrcPos + n = readTo src f.nSrcPos (f.nReadPos + 1) := by
    unfold readTo
    rw [hempty]
    omega
  refine ⟨_, rfl, ?_, rfl, rfl, by dsimp only; omega, hto⟩
  constructor
  · exact h.src_eq
  · exact h.size_eq
  · exact h.rewind_eq
  · exact h.failbit_eq
  · dsimp only
    omega
  · dsimp only
    omega
  · dsimp only
    omega
  · intro p hp hnear
    dsimp only at hp hnear ⊢
    by_cases hnew : f.nSrcPos ≤ p
    · -- a byte just read
      have hmod : p % 2000000 = f.nSrcPos % 2000000 + (p - f.nSrcPos) := by omega
      rw [if_pos (by omega), show p % 2000000 - f.nSrcPos % 2000000 = p - f.nSrcPos by omega,
        List.getD_eq_getElem?_getD, fillBytes, List.getElem?_take_of_lt (by omega),
        List.getElem?_drop, Nat.add_sub_cancel' hnew]
      rw [List.getElem?_eq_getElem (by omega), Option.getD_some]
    · rw [if_neg (by omega)]
      exact h.ring p (by omega) (by omega)
  · by_cases hshort : f.nSrcPos + n = src.length
    · exact Or.inl hshort
    · right
      dsimp only
      have hfull : f.nSrcPos + n = fillEnd (f.nSrcPos + 1) := by omega
      rw [hfull]
      exact isFill_fillEnd _
  · have hold : f.feof = false := by
      rw [← Bool.not_eq_true, h.feof_iff]
      exact fun hcase => hlt.ne hcase.1
    dsimp only
    rw [hold, Bool.false_or, decide_eq_true_eq]
    unfold IsFill at hfill ⊢
    omega

theorem Buffered.fill_end (h : Buffered src f) (hempty : f.nReadPos = f.nSrcPos)
    (hend : f.nSrcPos = src.length) :
    ∃ e f', CBufferedFile.fill f = some (.error e, f') ∧ f'.failbit = true := by
  have hread : fillBytes src f.nSrcPos = [] := by
    rw [fillBytes, hend, List.drop_length, List.take_nil]
  rw [h.fill_eq hempty, if_pos hread]
  exact ⟨_, _, rfl, rfl⟩

/-! ## Reading from the buffer -/

/-- Reading on within the buffer. -/
theorem Buffered.advance (h : Buffered src f) (pos : ℕ) (hge : f.nReadPos ≤ pos) (hle : pos ≤ f.nSrcPos) :
    Buffered src { f with nReadPos := pos } :=
  ⟨h.src_eq, h.size_eq, h.rewind_eq, h.failbit_eq, hle, by have := h.near; dsimp only; omega,
    h.src_le, h.ring, h.filled, h.feof_iff⟩

theorem Buffered.fillIfEmpty (h : Buffered src f) (hlt : f.nReadPos < src.length) :
    ∃ f', CBufferedFile.fillIfEmpty f = some (.ok true, f') ∧ Buffered src f' ∧
      f'.nReadPos = f.nReadPos ∧ f'.nReadLimit = f.nReadLimit ∧ f.nReadPos < f'.nSrcPos ∧
      f'.nSrcPos = readTo src f.nSrcPos (f.nReadPos + 1) := by
  have hle := h.read_le
  rw [CBufferedFile.fillIfEmpty]
  by_cases hempty : f.nReadPos = f.nSrcPos
  · rw [if_pos hempty]
    exact h.fill hempty (by omega)
  · rw [if_neg hempty]
    exact ⟨f, rfl, h, rfl, rfl, by omega, (h.readTo_of_le (by omega)).symm⟩

theorem Buffered.fillIfEmpty_end (h : Buffered src f) (hend : src.length ≤ f.nReadPos) :
    ∃ e f', CBufferedFile.fillIfEmpty f = some (.error e, f') ∧ f'.failbit = true := by
  have hle := h.read_le
  have hsrc := h.src_le
  have hempty : f.nReadPos = f.nSrcPos := by omega
  rw [CBufferedFile.fillIfEmpty, if_pos hempty]
  exact h.fill_end hempty (by omega)

/-- The buffer has the bytes of the file at the reading position. -/
theorem Buffered.window (h : Buffered src f) {n : ℕ} (hn : f.nReadPos + n ≤ f.nSrcPos)
    (hround : f.nReadPos % 2000000 + n ≤ 2000000) :
    ((List.range n).map fun i => f.vchBuf (f.nReadPos % 2000000 + i)) = (src.drop f.nReadPos).take n := by
  have hnear := h.near
  have hsrc := h.src_le
  apply List.ext_getElem?
  intro i
  by_cases hi : i < n
  · rw [List.getElem?_map, List.getElem?_range hi, Option.map_some, List.getElem?_take_of_lt hi,
      List.getElem?_drop, h.ring (f.nReadPos + i) (by omega) (by omega)]
    rw [show (f.nReadPos + i) % 2000000 = f.nReadPos % 2000000 + i by omega]
  · rw [List.getElem?_eq_none (by simp; omega), List.getElem?_eq_none (by simp; omega)]

theorem Buffered.copyNow (h : Buffered src f) (hlt : f.nReadPos < f.nSrcPos) {nSize : ℕ} (hpos : 0 < nSize) :
    ∃ n, 0 < n ∧ n ≤ nSize ∧ f.nReadPos + n ≤ f.nSrcPos ∧
      CBufferedFile.copyNow nSize f =
        some (.ok ((src.drop f.nReadPos).take n), { f with nReadPos := f.nReadPos + n }) := by
  rw [CBufferedFile.copyNow, h.size_eq]
  generalize hfirst : (if nSize + f.nReadPos % 2000000 > 2000000 then
    2000000 - f.nReadPos % 2000000 else nSize) = first
  generalize hnow : (if first + f.nReadPos > f.nSrcPos then f.nSrcPos - f.nReadPos else first) = n
  have hfirst' : 0 < first ∧ first ≤ nSize ∧ f.nReadPos % 2000000 + first ≤ 2000000 := by
    rw [← hfirst]
    split_ifs <;> omega
  have hnow' : 0 < n ∧ n ≤ first ∧ f.nReadPos + n ≤ f.nSrcPos := by
    rw [← hnow]
    split_ifs <;> omega
  refine ⟨n, hnow'.1, by omega, hnow'.2.2, ?_⟩
  rw [h.window hnow'.2.2 (by omega)]

/-- What reading from the file to a position leaves. -/
structure ReadTo (src : Bytes) (f : CBufferedFile) (pos : ℕ) (f' : CBufferedFile) : Prop where
  buffered : Buffered src f'
  nReadPos_eq : f'.nReadPos = pos
  nReadLimit_eq : f'.nReadLimit = f.nReadLimit
  nSrcPos_eq : f'.nSrcPos = readTo src f.nSrcPos pos

theorem Buffered.readTo_self (h : Buffered src f) : ReadTo src f f.nReadPos f :=
  ⟨h, rfl, rfl, (h.readTo_of_le h.read_le).symm⟩

theorem ReadTo.trans {f'' : CBufferedFile} {pos pos' : ℕ} (h : ReadTo src f pos f')
    (h' : ReadTo src f' pos' f'') (hle : pos ≤ pos') : ReadTo src f pos' f'' where
  buffered := h'.buffered
  nReadPos_eq := h'.nReadPos_eq
  nReadLimit_eq := h'.nReadLimit_eq.trans h.nReadLimit_eq
  nSrcPos_eq := by rw [h'.nSrcPos_eq, h.nSrcPos_eq, readTo_readTo hle]

/-- The loop of `read` ends, with the bytes of the file or at its end. -/
theorem Buffered.readLoop : ∀ {n nSize : ℕ} (pch : Bytes) {f : CBufferedFile}, Buffered src f → nSize ≤ n →
    (f.nReadPos + nSize ≤ src.length → ∃ f',
      CBufferedFile.readLoop n nSize pch f =
        some (.ok (pch ++ (src.drop f.nReadPos).take nSize), f') ∧
      ReadTo src f (f.nReadPos + nSize) f') ∧
    (src.length < f.nReadPos + nSize → ∃ e f',
      CBufferedFile.readLoop n nSize pch f = some (.error e, f') ∧ f'.failbit = true)
  | n, 0, pch, f, h, _ => by
    have hloop : CBufferedFile.readLoop n 0 pch f = some (.ok pch, f) := by
      rw [CBufferedFile.readLoop]
      rfl
    refine ⟨fun _ => ⟨f, ?_, h.readTo_self⟩, fun hlong => ?_⟩
    · rw [hloop, List.take_zero, List.append_nil]
    · have hle := h.read_le
      have hsrc := h.src_le
      omega
  | n + 1, nSize + 1, pch, f, h, hle => by
    rw [CBufferedFile.readLoop]
    by_cases hlt : f.nReadPos < src.length
    · obtain ⟨f₁, hfill, h₁, hpos₁, hlimit₁, hmore, hsrc₁⟩ := h.fillIfEmpty hlt
      obtain ⟨k, hk, hkle, hkmore, hcopy⟩ := h₁.copyNow (by omega) (Nat.succ_pos nSize)
      rw [hpos₁] at hkmore hcopy
      have h₂ := h₁.advance (f.nReadPos + k) (by omega) hkmore
      have hto : ReadTo src f (f.nReadPos + k) { f₁ with nReadPos := f.nReadPos + k } := by
        refine ⟨h₂, rfl, hlimit₁, ?_⟩
        change f₁.nSrcPos = _
        have hcov := h₁.readTo_of_le (show f.nReadPos + k ≤ f₁.nSrcPos by omega)
        rw [hsrc₁, readTo_readTo (by omega)] at hcov
        rw [hsrc₁, hcov]
      have hlen : ((src.drop f.nReadPos).take k).length = k := by
        have hsrc := h₁.src_le
        rw [List.length_take, List.length_drop]
        omega
      rw [bind_ok hfill, bind_ok hcopy, hlen]
      obtain ⟨hok, herr⟩ := Buffered.readLoop (pch ++ (src.drop f.nReadPos).take k) h₂
        (show nSize + 1 - k ≤ n by omega)
      dsimp only at hok herr
      constructor
      · intro hthere
        obtain ⟨f', hloop, hto'⟩ := hok (by omega)
        refine ⟨f', ?_, ?_⟩
        · have hsplit := List.take_add (l := src.drop f.nReadPos) (i := k) (j := nSize + 1 - k)
          rw [Nat.add_sub_cancel' hkle, List.drop_drop] at hsplit
          rw [hloop, hsplit, List.append_assoc]
        · have hend : f.nReadPos + k + (nSize + 1 - k) = f.nReadPos + (nSize + 1) := by omega
          rw [hend] at hto'
          exact hto.trans hto' (by omega)
      · intro hlong
        exact herr (by omega)
    · rw [not_lt] at hlt
      obtain ⟨e, f', hfill, hfail⟩ := h.fillIfEmpty_end hlt
      refine ⟨fun hthere => by omega, fun _ => ⟨e, f', ?_, hfail⟩⟩
      rw [bind_error hfill]

/-- `read` within the limit, of no more than the buffer lets read. -/
theorem Buffered.read (h : Buffered src f) (nSize : ℕ) :
    (¬f.nReadLimit.any (nSize + f.nReadPos > ·) → nSize ≤ 999992 →
      (f.nReadPos + nSize ≤ src.length → ∃ f',
        CBufferedFile.read nSize f = some (.ok ((src.drop f.nReadPos).take nSize), f') ∧
        ReadTo src f (f.nReadPos + nSize) f') ∧
      (src.length < f.nReadPos + nSize → ∃ e f',
        CBufferedFile.read nSize f = some (.error e, f') ∧ f'.failbit = true)) ∧
    (f.nReadLimit.any (nSize + f.nReadPos > ·) ∨ 999992 < nSize →
      ∃ e, CBufferedFile.read nSize f = some (.error e, f)) := by
  rw [CBufferedFile.read, h.size_eq, h.rewind_eq]
  refine ⟨fun hlimit hsize => ?_, fun hcase => ?_⟩
  · rw [if_neg hlimit, if_neg (by omega)]
    obtain ⟨hok, herr⟩ := Buffered.readLoop [] h (le_refl nSize)
    rw [List.nil_append] at hok
    exact ⟨hok, herr⟩
  · by_cases hlimit : f.nReadLimit.any (nSize + f.nReadPos > ·)
    · rw [if_pos hlimit]
      exact ⟨_, rfl⟩
    · rw [if_neg hlimit, if_pos (by have := hcase.resolve_left hlimit; omega)]
      exact ⟨_, rfl⟩

/-- A program is run as it ends on the file. -/
theorem Buffered.runProgram {α : Type} {limit : ℕ} : ∀ {p : ReadProg String α} {f : CBufferedFile},
    Buffered src f → f.nReadLimit = some limit →
    match p.ending src limit 999992 f.nReadPos with
    | .ok a pos => ∃ f', CBufferedFile.runProgram p f = some (.ok a, f') ∧ ReadTo src f pos f'
    | .failed pos => ∃ e f', CBufferedFile.runProgram p f = some (.error e, f') ∧ ReadTo src f pos f'
    | .endOfSource => ∃ e f', CBufferedFile.runProgram p f = some (.error e, f') ∧ f'.failbit = true
  | .done a, f, h, _ => ⟨f, rfl, h.readTo_self⟩
  | .fail e, f, h, _ => ⟨e, f, rfl, h.readTo_self⟩
  | .read n next, f, h, hlimit => by
    have hread := h.read n
    rw [hlimit, Option.any_some, decide_eq_true_eq] at hread
    rw [ReadProg.ending, CBufferedFile.runProgram]
    by_cases hwithin : limit < f.nReadPos + n ∨ 999992 < n
    · rw [if_pos hwithin]
      obtain ⟨e, herr⟩ := hread.2 (hwithin.imp_left fun hlt => by omega)
      exact ⟨e, f, bind_error herr, h.readTo_self⟩
    · rw [if_neg hwithin]
      rw [not_or, not_lt, not_lt] at hwithin
      obtain ⟨hok, herr⟩ := hread.1 (by omega) hwithin.2
      by_cases hthere : src.length < f.nReadPos + n
      · rw [if_pos hthere]
        obtain ⟨e, f', hcall, hfail⟩ := herr hthere
        exact ⟨e, f', bind_error hcall, hfail⟩
      · rw [if_neg hthere]
        obtain ⟨f₁, hcall, hto⟩ := hok (by omega)
        have hrest := hto.buffered.runProgram (p := next ((src.drop f.nReadPos).take n))
          (hto.nReadLimit_eq.trans hlimit)
        rw [bind_ok hcall]
        rw [hto.nReadPos_eq] at hrest
        have hpos : f.nReadPos ≤ f.nReadPos + n := Nat.le_add_right _ _
        have hsrc := hto.buffered.src_le
        have hread_le := hto.buffered.read_le
        rw [hto.nReadPos_eq] at hread_le
        split
        · rename_i a pos hend
          rw [hend] at hrest
          obtain ⟨f', hrun, hto'⟩ := hrest
          exact ⟨f', hrun, hto.trans hto' (ReadProg.ending_ok_le hwithin.1 (by omega) hend).1⟩
        · rename_i pos hend
          rw [hend] at hrest
          obtain ⟨e, f', hrun, hto'⟩ := hrest
          exact ⟨e, f', hrun, hto.trans hto' (ReadProg.ending_failed_le hwithin.1 (by omega) hend).1⟩
        · rename_i hend
          rw [hend] at hrest
          exact hrest

/-! ## Moving in the file -/

theorem Buffered.new (src : Bytes) : Buffered src (CBufferedFile.new src 2000000 1000008) where
  src_eq := rfl
  size_eq := rfl
  rewind_eq := rfl
  failbit_eq := rfl
  read_le := le_rfl
  near := Nat.zero_le _
  src_le := Nat.zero_le _
  ring := nofun
  filled := Or.inr (Or.inl rfl)
  feof_iff := iff_of_false Bool.false_ne_true fun hcase => hcase.2 (by rw [← hcase.1]; exact Or.inl rfl)

theorem Buffered.setLimit (h : Buffered src f) (nPos : Option ℕ) :
    Buffered src (CBufferedFile.setLimit nPos f) := by
  rw [CBufferedFile.setLimit]
  split
  · exact h
  · exact ⟨h.src_eq, h.size_eq, h.rewind_eq, h.failbit_eq, h.read_le, h.near, h.src_le, h.ring,
      h.filled, h.feof_iff⟩

/-- Going back to a position, as far as the buffer allows. -/
theorem Buffered.setPos (h : Buffered src f) {nPos : ℕ} (hle : nPos ≤ f.nSrcPos) :
    Buffered src (CBufferedFile.setPos nPos f) ∧
      (CBufferedFile.setPos nPos f).nReadPos = max nPos (f.nSrcPos - 1000008) ∧
      (CBufferedFile.setPos nPos f).nSrcPos = f.nSrcPos ∧
      (CBufferedFile.setPos nPos f).nReadLimit = f.nReadLimit := by
  have hmove : ∀ pos, pos ≤ f.nSrcPos → f.nSrcPos ≤ pos + 1000008 →
      Buffered src { f with nReadPos := pos } := fun pos hpos hnear =>
    ⟨h.src_eq, h.size_eq, h.rewind_eq, h.failbit_eq, hpos, hnear, h.src_le, h.ring, h.filled,
      h.feof_iff⟩
  have hrewind := h.rewind_eq
  rw [CBufferedFile.setPos]
  split
  · rename_i hfar
    have hmax : f.nSrcPos - f.nRewind = max nPos (f.nSrcPos - 1000008) := by omega
    exact ⟨hmove _ (Nat.sub_le _ _) (by omega), hmax, rfl, rfl⟩
  · rw [if_neg (by omega)]
    have hmax : nPos = max nPos (f.nSrcPos - 1000008) := by omega
    exact ⟨hmove _ hle (by omega), hmax, rfl, rfl⟩

/-! ## FindByte -/

/-- The first place of a byte, from a position on. -/
def firstByte (src : Bytes) (ch : UInt8) (pos : ℕ) : Option ℕ :=
  ((src.drop pos).findIdx? (· == ch)).map (· + pos)

theorem firstByte_of_eq {ch : UInt8} {pos : ℕ} (h : src[pos]? = some ch) :
    firstByte src ch pos = some pos := by
  obtain ⟨hlt, hget⟩ := List.getElem?_eq_some_iff.mp h
  rw [firstByte, List.drop_eq_getElem_cons hlt, List.findIdx?_cons, hget, beq_self_eq_true, if_pos rfl,
    Option.map_some, Nat.zero_add]

theorem firstByte_of_ne {ch b : UInt8} {pos : ℕ} (h : src[pos]? = some b) (hne : b ≠ ch) :
    firstByte src ch pos = firstByte src ch (pos + 1) := by
  obtain ⟨hlt, hget⟩ := List.getElem?_eq_some_iff.mp h
  rw [firstByte, List.drop_eq_getElem_cons hlt, List.findIdx?_cons, hget, beq_false_of_ne hne,
    firstByte]
  simp only [Bool.false_eq_true, if_false, Option.map_map]
  congr 1
  funext i
  simp only [Function.comp_apply]
  omega

theorem firstByte_of_length_le {ch : UInt8} {pos : ℕ} (h : src.length ≤ pos) :
    firstByte src ch pos = none := by
  rw [firstByte, List.drop_eq_nil_of_le h]
  rfl

/-- There is no earlier place. -/
theorem firstByte_of_le {ch : UInt8} {r pos : ℕ} (h : src[r]? = some ch) (hle : pos ≤ r) :
    ∃ r₀ ≤ r, firstByte src ch pos = some r₀ := by
  obtain ⟨hlt, -⟩ := List.getElem?_eq_some_iff.mp h
  obtain ⟨b, hb⟩ : ∃ b, src[pos]? = some b := ⟨_, List.getElem?_eq_getElem (by omega)⟩
  by_cases hch : b = ch
  · exact ⟨pos, hle, firstByte_of_eq (by rw [hb, hch])⟩
  · have hne : pos ≠ r := by
      rintro rfl
      rw [hb] at h
      exact hch (Option.some.inj h)
    have hmore : pos < r := lt_of_le_of_ne hle hne
    rw [firstByte_of_ne hb hch]
    exact firstByte_of_le h hmore
termination_by r - pos

theorem firstByte_eq_some {ch : UInt8} {r pos : ℕ} (h : firstByte src ch pos = some r) :
    pos ≤ r ∧ r < src.length := by
  rw [firstByte] at h
  obtain ⟨i, hi, rfl⟩ := Option.map_eq_some_iff.mp h
  obtain ⟨hlt, -⟩ := List.findIdx?_eq_some_iff_getElem.mp hi
  rw [List.length_drop] at hlt
  omega

/-- The loop of `FindByte` ends at the first place of the byte, or the file ends. -/
theorem Buffered.findByteLoop (ch : UInt8) : ∀ {n : ℕ} {f : CBufferedFile}, Buffered src f →
    src.length + 1 - f.nReadPos ≤ n →
    match firstByte src ch f.nReadPos with
    | some pos => ∃ f', CBufferedFile.findByteLoop ch n f = some (.ok (), f') ∧ Buffered src f' ∧
        f'.nReadPos = pos ∧ f'.nReadLimit = f.nReadLimit ∧
        f'.nSrcPos = readTo src f.nSrcPos (pos + 1) ∧ f.nReadPos ≤ pos ∧ pos < src.length
    | none => ∃ e f', CBufferedFile.findByteLoop ch n f = some (.error e, f') ∧ f'.failbit = true
  | 0, f, h, hle => by
    have hread := h.read_le
    have hsrc := h.src_le
    omega
  | n + 1, f, h, hle => by
    rw [CBufferedFile.findByteLoop]
    by_cases hlt : f.nReadPos < src.length
    · obtain ⟨f₁, hfill, h₁, hpos₁, hlimit₁, hmore, hsrc₁⟩ := h.fillIfEmpty hlt
      obtain ⟨b, hb⟩ : ∃ b, src[f.nReadPos]? = some b := ⟨_, List.getElem?_eq_getElem hlt⟩
      have hhere : byteHere f₁ = some (.ok b, f₁) := by
        have hwindow := h₁.ring f.nReadPos hmore (by have := h₁.near; omega)
        rw [hb, Option.some.injEq] at hwindow
        rw [byteHere, h₁.size_eq, hpos₁, ← hwindow]
      rw [bind_ok hfill, bind_ok hhere]
      by_cases hch : b = ch
      · rw [firstByte_of_eq (by rw [hb, hch]), if_pos hch]
        exact ⟨f₁, rfl, h₁, hpos₁, hlimit₁, hsrc₁, le_rfl, hlt⟩
      · have h₂ := h₁.advance (f₁.nReadPos + 1) (by omega) (by omega)
        have hrest := h₂.findByteLoop ch (n := n) (by dsimp only; omega)
        have hskip : skipByte f₁ = some (.ok (), { f₁ with nReadPos := f₁.nReadPos + 1 }) := rfl
        rw [firstByte_of_ne hb hch, if_neg hch, bind_ok hskip, ← hpos₁]
        dsimp only at hrest
        split
        · rename_i pos hfirst
          rw [hfirst] at hrest
          obtain ⟨f', hloop, h', hpos', hlimit', hsrc', hge, hlen⟩ := hrest
          refine ⟨f', hloop, h', hpos', hlimit'.trans hlimit₁, ?_, by omega, hlen⟩
          rw [hsrc', hsrc₁, readTo_readTo (by omega)]
        · rename_i hfirst
          rw [hfirst] at hrest
          exact hrest
    · rw [not_lt] at hlt
      obtain ⟨e, f', hfill, hfail⟩ := h.fillIfEmpty_end hlt
      rw [firstByte_of_length_le hlt]
      exact ⟨e, f', bind_error hfill, hfail⟩

theorem Buffered.findByte (h : Buffered src f) (ch : UInt8) :
    match firstByte src ch f.nReadPos with
    | some pos => ∃ f', CBufferedFile.findByte ch f = some (.ok (), f') ∧ Buffered src f' ∧
        f'.nReadPos = pos ∧ f'.nReadLimit = f.nReadLimit ∧
        f'.nSrcPos = readTo src f.nSrcPos (pos + 1) ∧ f.nReadPos ≤ pos ∧ pos < src.length
    | none => ∃ e f', CBufferedFile.findByte ch f = some (.error e, f') ∧ f'.failbit = true := by
  rw [CBufferedFile.findByte, h.src_eq]
  exact h.findByteLoop _ (by omega)

end CBufferedFile

end Ticoin
