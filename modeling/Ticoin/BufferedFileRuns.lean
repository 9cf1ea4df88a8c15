import Ticoin.Lib.Machine
import Ticoin.Lib.Codec

/-!
# The counters of CBufferedFile

`CBufferedFile` with its 64-bit counters, the conversions to `unsigned int`, and a source that gives
as few bytes at a time as it likes. Beside the byte, each slot of the ring buffer has the position
in the file that it was filled from, and every byte served is recorded with the position it was
served for.

A call that `Fits` adds nothing to a counter that does not fit into it. In runs of such calls the
buffer is a window of the file (`Window`), so every read returns the bytes of the file, `FindByte`
stops at the first occurrence, and nothing is served from a slot that has been overwritten
(`refines_file`). Rewinding from the reading position succeeds up to the rewind guaranteed, less
what was read ahead (`rewinds_iff`).
-/

namespace Ticoin

namespace RingFile

open Codec

/-! ## The buffer -/

/-- A slot of the buffer, with the position in the file that it was filled from. -/
structure Slot where
  byte : UInt8 := 0
  origin : Option ℕ := none
  deriving DecidableEq, Repr

structure CBufferedFile where
  /-- how many bytes have been read from source -/
  nSrcPos : UInt64 := 0
  /-- how many bytes have been read from this -/
  nReadPos : UInt64 := 0
  /-- up to which position we're allowed to read -/
  nReadLimit : UInt64 := -1
  /-- how many bytes we guarantee to rewind -/
  nRewind : UInt64
  /-- the buffer, of a size that is not zero -/
  vchBuf : ℕ → Slot := fun _ => {}
  nBufSize : UInt64
  /-- the slots that bytes were served from, with the positions they were served for -/
  served : List (ℕ × Slot) := []

section Source

-- the content of the file, and how many bytes the source gives at most at each position
variable (src : Bytes) (short : ℕ → ℕ)

/-- `fread` at a position : one byte at least until the end of the file. -/
def fread (nPos readNow : ℕ) : Bytes :=
  ((src.drop nPos).take readNow).take (max 1 (short nPos))

/-- `Fill`. -/
def fill (f : CBufferedFile) : Except String Bool × CBufferedFile :=
  let pos := (f.nSrcPos % f.nBufSize).toUInt32
  let readNow := (f.nBufSize - pos.toUInt64).toUInt32
  let nAvail := (f.nBufSize - (f.nSrcPos - f.nReadPos) - f.nRewind).toUInt32
  let readNow := if nAvail < readNow then nAvail else readNow
  if readNow = 0 then (.ok false, f)
  else
    let read := fread src short f.nSrcPos.toNat readNow.toNat
    if read = [] then (.error "CBufferedFile::Fill : end of file", f)
    else (.ok true, { f with
      vchBuf := fun i =>
        if pos.toNat ≤ i ∧ i < pos.toNat + read.length then
          ⟨read.getD (i - pos.toNat) 0, some (f.nSrcPos.toNat + (i - pos.toNat))⟩
        else f.vchBuf i
      nSrcPos := f.nSrcPos + .ofNat read.length })

/-- `Fill`, where there is nothing left to read in the buffer. -/
def fillIfEmpty (f : CBufferedFile) : Except String Bool × CBufferedFile :=
  if f.nReadPos = f.nSrcPos then fill src short f else (.ok true, f)

/-! ## read, SetPos, SetLimit and FindByte -/

/-- The slots of the next bytes, with the positions they are for. -/
def slots (f : CBufferedFile) (pos n : ℕ) : List (ℕ × Slot) :=
  (List.range n).map fun i => (f.nReadPos.toNat + i, f.vchBuf (pos + i))

/-- The bytes that one round of `read` copies, within the buffer and to where there is place. -/
def copyNow (nSize : UInt64) (f : CBufferedFile) : Option (Bytes × CBufferedFile) :=
  let pos := (f.nReadPos % f.nBufSize).toUInt32
  let nNow := if nSize + pos.toUInt64 > f.nBufSize then f.nBufSize - pos.toUInt64 else nSize
  let nNow := if nNow + f.nReadPos > f.nSrcPos then f.nSrcPos - f.nReadPos else nNow
  if pos.toNat + nNow.toNat ≤ f.nBufSize.toNat ∧ nNow ≤ nSize then
    let now := slots f pos.toNat nNow.toNat
    some (now.map fun s => s.2.byte, { f with
      nReadPos := f.nReadPos + nNow
      served := f.served ++ now })
  else none

/-- The loop of `read`, in some rounds at most. -/
def readLoop : ℕ → UInt64 → Bytes → CBufferedFile → Option (Except String Bytes × CBufferedFile)
  | rounds, nSize, pch, f =>
    if nSize = 0 then some (.ok pch, f)
    else
      match rounds, fillIfEmpty src short f with
      | 0, _ => none
      | _, (.error e, f) => some (.error e, f)
      | rounds + 1, (.ok _, f) => do
        let (now, f) ← copyNow nSize f
        readLoop rounds (nSize - .ofNat now.length) (pch ++ now) f

/-- `read`. -/
def read (nSize : UInt64) (f : CBufferedFile) : Option (Except String Bytes × CBufferedFile) :=
  if nSize + f.nReadPos > f.nReadLimit then some (.error "Read attempted past buffer limit", f)
  else if nSize + f.nRewind > f.nBufSize then some (.error "Read larger than buffer size", f)
  else readLoop src short nSize.toNat nSize [] f

/-- `SetPos`. -/
def setPos (nPos : UInt64) (f : CBufferedFile) : Bool × CBufferedFile :=
  if nPos + f.nRewind < f.nSrcPos then (false, { f with nReadPos := f.nSrcPos - f.nRewind })
  else if nPos > f.nSrcPos then (false, { f with nReadPos := f.nSrcPos })
  else (true, { f with nReadPos := nPos })

/-- `SetLimit`. -/
def setLimit (nPos : UInt64) (f : CBufferedFile) : Bool × CBufferedFile :=
  if nPos < f.nReadPos then (false, f) else (true, { f with nReadLimit := nPos })

/-- The loop of `FindByte`, in some rounds at most. -/
def findByteLoop (ch : UInt8) : ℕ → CBufferedFile → Option (Except String Unit × CBufferedFile)
  | 0, _ => none
  | rounds + 1, f =>
    match fillIfEmpty src short f with
    | (.error e, f) => some (.error e, f)
    | (.ok _, f) =>
      let slot := f.vchBuf (f.nReadPos % f.nBufSize).toNat
      let f := { f with served := f.served ++ [(f.nReadPos.toNat, slot)] }
      if slot.byte = ch then some (.ok (), f)
      else findByteLoop ch rounds { f with nReadPos := f.nReadPos + 1 }

/-- `FindByte`, whose loop ends when the counter has gone around once, or at the end of the file. -/
def findByte (ch : UInt8) (f : CBufferedFile) : Option (Except String Unit × CBufferedFile) :=
  findByteLoop src short ch (2 ^ 64 + src.length + 1) f

/-! ## Calls -/

/-- The calls of a run. -/
inductive Call where
  | read (nSize : UInt64)
  | setPos (nPos : UInt64)
  | setLimit (nPos : UInt64)
  | findByte (ch : UInt8)
  deriving DecidableEq, Repr

/-- The state after a call, also one that throws. -/
def Call.apply (f : CBufferedFile) : Call → Option CBufferedFile
  | .read nSize => (RingFile.read src short nSize f).map Prod.snd
  | .setPos nPos => some (RingFile.setPos nPos f).2
  | .setLimit nPos => some (RingFile.setLimit nPos f).2
  | .findByte ch => (RingFile.findByte src short ch f).map Prod.snd

end Source

/-- `CBufferedFile(fileIn, nBufSize, nRewindIn)`. -/
def CBufferedFile.new (nBufSize nRewindIn : UInt64) : CBufferedFile where
  nRewind := nRewindIn
  nBufSize := nBufSize

/-- No position that a call computes is too large for a counter, or nothing comes of it. -/
def Call.Fits (f : CBufferedFile) : Call → Prop
  | .read nSize => nSize.toNat + f.nRewind.toNat < 2 ^ 64
  | .setPos nPos => nPos.toNat + f.nRewind.toNat < 2 ^ 64 ∨
      f.nSrcPos.toNat ≤ nPos.toNat + f.nRewind.toNat - 2 ^ 64 ∨ f.nRewind ≤ f.nSrcPos
  | .setLimit _ | .findByte _ => True

/-! ## The window -/

/-- The slot of a byte of the file. -/
def fileSlot (src : Bytes) (p : ℕ) : Slot := ⟨src.getD p 0, some p⟩

/-- The buffer has the end of what was read from the file, and the reading position is in it. -/
structure Window (src : Bytes) (f : CBufferedFile) : Prop where
  room : f.nRewind.toNat < f.nBufSize.toNat
  size_lt : f.nBufSize.toNat < 2 ^ 32
  read_le : f.nReadPos.toNat ≤ f.nSrcPos.toNat
  le_read : f.nSrcPos.toNat ≤ f.nReadPos.toNat + f.nBufSize.toNat
  src_le : f.nSrcPos.toNat ≤ src.length
  ring : ∀ p < f.nSrcPos.toNat, f.nSrcPos.toNat ≤ p + f.nBufSize.toNat →
    f.vchBuf (p % f.nBufSize.toNat) = fileSlot src p
  served : ∀ e ∈ f.served, e.1 < src.length ∧ e.2 = fileSlot src e.1

/-- What a call leaves : the reading position has moved on, and the limit is the same. -/
structure Moved (src : Bytes) (f : CBufferedFile) (nPos : ℕ) (f' : CBufferedFile) : Prop where
  window : Window src f'
  pos_eq : f'.nReadPos.toNat = nPos
  limit_eq : f'.nReadLimit = f.nReadLimit
  rewind_eq : f'.nRewind = f.nRewind
  size_eq : f'.nBufSize = f.nBufSize

variable {src : Bytes} {short : ℕ → ℕ} {f f' f'' : CBufferedFile} {nPos nPos' : ℕ}

theorem Window.moved (h : Window src f) : Moved src f f.nReadPos.toNat f := ⟨h, rfl, rfl, rfl, rfl⟩

theorem Moved.trans (h : Moved src f nPos f') (h' : Moved src f' nPos' f'') :
    Moved src f nPos' f'' :=
  ⟨h'.window, h'.pos_eq, h'.limit_eq.trans h.limit_eq, h'.rewind_eq.trans h.rewind_eq,
    h'.size_eq.trans h.size_eq⟩

/-- The place in the buffer of a position. -/
theorem Window.toNat_pos (h : Window src f) (n : UInt64) :
    (n % f.nBufSize).toUInt32.toNat = n.toNat % f.nBufSize.toNat := by
  have hmod := Nat.mod_lt n.toNat (Nat.zero_lt_of_lt h.room)
  have hlt := h.size_lt
  rw [UInt64.toNat_toUInt32, UInt64.toNat_mod]
  exact Nat.mod_eq_of_lt (by omega)

theorem length_fread (src : Bytes) (short : ℕ → ℕ) {nPos readNow : ℕ} (hpos : nPos < src.length)
    (hnow : 0 < readNow) : 0 < (fread src short nPos readNow).length ∧
      (fread src short nPos readNow).length ≤ readNow ∧
      nPos + (fread src short nPos readNow).length ≤ src.length := by
  unfold fread
  rw [List.length_take, List.length_take, List.length_drop]
  omega

theorem getD_fread {nPos readNow i : ℕ} (hi : i < (fread src short nPos readNow).length) :
    (fread src short nPos readNow).getD i 0 = src.getD (nPos + i) 0 := by
  unfold fread at hi ⊢
  rw [List.length_take, List.length_take] at hi
  rw [List.getD_eq_getElem?_getD, List.getElem?_take_of_lt (by omega),
    List.getElem?_take_of_lt (by omega), List.getElem?_drop, ← List.getD_eq_getElem?_getD]

theorem add_mod_of_lt {n i size : ℕ} (h : n % size + i < size) : (n + i) % size = n % size + i := by
  rw [Nat.add_mod, Nat.mod_eq_of_lt (show i < size by omega)]
  exact Nat.mod_eq_of_lt h

/-- How much a fill asks for, where there is nothing left to read. -/
theorem Window.exists_readNow (h : Window src f) (short : ℕ → ℕ) (hempty : f.nReadPos = f.nSrcPos) :
    ∃ readNow, 0 < readNow ∧ f.nSrcPos.toNat % f.nBufSize.toNat + readNow ≤ f.nBufSize.toNat ∧
      fill src short f =
        let read := fread src short f.nSrcPos.toNat readNow
        if read = [] then (.error "CBufferedFile::Fill : end of file", f)
        else (.ok true, { f with
          vchBuf := fun i =>
            if f.nSrcPos.toNat % f.nBufSize.toNat ≤ i ∧
                i < f.nSrcPos.toNat % f.nBufSize.toNat + read.length then
              ⟨read.getD (i - f.nSrcPos.toNat % f.nBufSize.toNat) 0,
                some (f.nSrcPos.toNat + (i - f.nSrcPos.toNat % f.nBufSize.toNat))⟩
            else f.vchBuf i
          nSrcPos := f.nSrcPos + .ofNat read.length }) := by
  have hroom := h.room
  have hsize := h.size_lt
  have hmod := Nat.mod_lt f.nSrcPos.toNat (Nat.zero_lt_of_lt hroom)
  have hpos := h.toNat_pos f.nSrcPos
  have hnow : (f.nBufSize - (f.nSrcPos % f.nBufSize).toUInt32.toUInt64).toUInt32.toNat =
      f.nBufSize.toNat - f.nSrcPos.toNat % f.nBufSize.toNat := by
    rw [UInt64.toNat_toUInt32, UInt64.toNat_sub, UInt32.toNat_toUInt64, hpos]
    omega
  have hAvail : (f.nBufSize - (f.nSrcPos - f.nReadPos) - f.nRewind).toUInt32.toNat =
      f.nBufSize.toNat - f.nRewind.toNat := by
    rw [hempty, UInt64.sub_self, UInt64.sub_zero, UInt64.toNat_toUInt32, UInt64.toNat_sub]
    omega
  unfold fill
  dsimp only
  rw [hpos]
  refine ⟨(if (f.nBufSize - (f.nSrcPos - f.nReadPos) - f.nRewind).toUInt32 <
      (f.nBufSize - (f.nSrcPos % f.nBufSize).toUInt32.toUInt64).toUInt32 then
        (f.nBufSize - (f.nSrcPos - f.nReadPos) - f.nRewind).toUInt32
      else (f.nBufSize - (f.nSrcPos % f.nBufSize).toUInt32.toUInt64).toUInt32).toNat, ?_, ?_, ?_⟩
  · split <;> omega
  · split
    · rename_i hless
      rw [UInt32.lt_iff_toNat_lt] at hless
      omega
    · omega
  · rw [if_neg]
    intro hzero
    have := congrArg UInt32.toNat hzero
    revert this
    rw [UInt32.toNat_zero]
    split <;> omega

/-- A fill reads on, and the buffer stays a window of the file. -/
theorem Window.fill (h : Window src f) (short : ℕ → ℕ) (hsrc : src.length < 2 ^ 63)
    (hempty : f.nReadPos = f.nSrcPos) (hlt : f.nSrcPos.toNat < src.length) :
    ∃ f', RingFile.fill src short f = (.ok true, f') ∧
      Moved src f f.nReadPos.toNat f' ∧ f'.nReadPos.toNat < f'.nSrcPos.toNat := by
  obtain ⟨readNow, hpos, hle, hfill⟩ := h.exists_readNow short hempty
  obtain ⟨hread, hnow, hend⟩ := length_fread src short hlt hpos
  have hget : ∀ {i}, i < (fread src short f.nSrcPos.toNat readNow).length →
      (fread src short f.nSrcPos.toNat readNow).getD i 0 = src.getD (f.nSrcPos.toNat + i) 0 :=
    getD_fread
  have hroom := h.room
  have hsize := h.size_lt
  have hmod := Nat.mod_lt f.nSrcPos.toNat (Nat.zero_lt_of_lt hroom)
  rw [hfill]
  generalize fread src short f.nSrcPos.toNat readNow = bytes at hread hnow hend hget ⊢
  have hto : (f.nSrcPos + .ofNat bytes.length).toNat = f.nSrcPos.toNat + bytes.length := by
    rw [UInt64.toNat_add, UInt64.toNat_ofNat']
    omega
  dsimp only
  rw [if_neg (List.length_pos_iff.mp hread)]
  refine ⟨_, rfl, ⟨⟨hroom, hsize, ?_, ?_, ?_, ?_, h.served⟩, rfl, rfl, rfl, rfl⟩, ?_⟩
  · dsimp only
    rw [hto, hempty]
    omega
  · dsimp only
    rw [hto, hempty]
    omega
  · dsimp only
    rw [hto]
    exact hend
  · intro p hp hnear
    dsimp only at hp hnear ⊢
    rw [hto] at hp hnear
    by_cases hnew : f.nSrcPos.toNat ≤ p
    · -- a byte just read
      obtain ⟨i, rfl⟩ := Nat.exists_eq_add_of_le hnew
      rw [add_mod_of_lt (by omega), Nat.add_sub_cancel_left, if_pos (by omega), hget (by omega)]
      rfl
    · -- a byte read before, not among the slots just filled
      rw [if_neg, h.ring p (by omega) (by omega)]
      rintro ⟨hfrom, hless⟩
      obtain ⟨i, hi⟩ := Nat.exists_eq_add_of_le hfrom
      have hlen : i < bytes.length := by omega
      rw [← add_mod_of_lt (by omega)] at hi
      have hzero := Nat.sub_mod_eq_zero_of_mod_eq hi.symm
      rw [Nat.mod_eq_of_lt (by omega)] at hzero
      omega
  · dsimp only
    rw [hto, hempty]
    omega

theorem Window.fill_end (h : Window src f) (hempty : f.nReadPos = f.nSrcPos)
    (hend : f.nSrcPos.toNat = src.length) :
    RingFile.fill src short f = (.error "CBufferedFile::Fill : end of file", f) := by
  obtain ⟨readNow, -, -, hfill⟩ := h.exists_readNow short hempty
  have hread : fread src short f.nSrcPos.toNat readNow = [] := by
    unfold fread
    rw [hend, List.drop_length, List.take_nil, List.take_nil]
  rw [hfill, hread]
  exact if_pos rfl

/-- After `Fill` where there was nothing left, there is a byte to read. -/
theorem Window.fillIfEmpty (h : Window src f) (short : ℕ → ℕ) (hsrc : src.length < 2 ^ 63)
    (hlt : f.nReadPos.toNat < src.length) :
    ∃ ret f', RingFile.fillIfEmpty src short f = (.ok ret, f') ∧
      Moved src f f.nReadPos.toNat f' ∧ f'.nReadPos.toNat < f'.nSrcPos.toNat := by
  unfold RingFile.fillIfEmpty
  split
  · rename_i hempty
    obtain ⟨f', hfill, hmoved⟩ := h.fill short hsrc hempty (hempty ▸ hlt)
    exact ⟨true, f', hfill, hmoved⟩
  · rename_i hne
    exact ⟨true, f, rfl, h.moved, h.read_le.lt_of_ne fun heq => hne (UInt64.toNat_inj.mp heq)⟩

theorem Window.fillIfEmpty_end (h : Window src f) (hend : f.nReadPos.toNat = src.length) :
    RingFile.fillIfEmpty src short f = (.error "CBufferedFile::Fill : end of file", f) := by
  have heq : f.nSrcPos.toNat = src.length := h.src_le.antisymm (hend.ge.trans h.read_le)
  have hempty : f.nReadPos = f.nSrcPos := UInt64.toNat_inj.mp (hend.trans heq.symm)
  unfold RingFile.fillIfEmpty
  rw [if_pos hempty]
  exact h.fill_end hempty heq

/-! ## What is read -/

theorem map_fileSlot {pos n : ℕ} (h : pos + n ≤ src.length) :
    (List.range n).map (fun i => (fileSlot src (pos + i)).byte) = (src.drop pos).take n := by
  refine List.ext_getElem ?_ fun i hi hi' => ?_
  · rw [List.length_map, List.length_range, List.length_take, List.length_drop]
    omega
  · rw [List.length_map, List.length_range] at hi
    rw [List.getElem_map, List.getElem_range, List.getElem_take, List.getElem_drop]
    exact List.getD_eq_getElem _ _ (by omega)

/-- The slots of bytes that were read from the file and are in the buffer. -/
theorem Window.slots_eq (h : Window src f) {n : ℕ} (hn : f.nReadPos.toNat + n ≤ f.nSrcPos.toNat)
    (hround : f.nReadPos.toNat % f.nBufSize.toNat + n ≤ f.nBufSize.toNat) :
    slots f (f.nReadPos.toNat % f.nBufSize.toNat) n =
      (List.range n).map fun i => (f.nReadPos.toNat + i, fileSlot src (f.nReadPos.toNat + i)) := by
  unfold slots
  refine List.map_congr_left fun i hi => ?_
  rw [List.mem_range] at hi
  have hnear := h.le_read
  rw [← add_mod_of_lt (by omega), h.ring _ (by omega) (by omega)]

theorem Window.copyNow (h : Window src f) (hsrc : src.length < 2 ^ 63)
    (hlt : f.nReadPos.toNat < f.nSrcPos.toNat) {nSize : UInt64} (hpos : 0 < nSize.toNat)
    (hsize : nSize.toNat ≤ f.nBufSize.toNat) : ∃ n f', 0 < n ∧ n ≤ nSize.toNat ∧
      f.nReadPos.toNat + n ≤ src.length ∧
      RingFile.copyNow nSize f = some ((src.drop f.nReadPos.toNat).take n, f') ∧
      Moved src f (f.nReadPos.toNat + n) f' := by
  have hroom := h.room
  have hbuf := h.size_lt
  have hsrcLe := h.src_le
  have hnear := h.le_read
  have hmod := Nat.mod_lt f.nReadPos.toNat (Nat.zero_lt_of_lt hroom)
  have hplace := h.toNat_pos f.nReadPos
  generalize hq : (f.nReadPos % f.nBufSize).toUInt32 = pos at hplace
  -- to the end of the buffer, then to what was read from the file
  obtain ⟨toEnd, htoEnd, hend, hendLe, hendPos⟩ : ∃ toEnd : UInt64,
      (if nSize + pos.toUInt64 > f.nBufSize then f.nBufSize - pos.toUInt64 else nSize) = toEnd ∧
        pos.toNat + toEnd.toNat ≤ f.nBufSize.toNat ∧ toEnd.toNat ≤ nSize.toNat ∧
          0 < toEnd.toNat := by
    refine ⟨_, rfl, ?_⟩
    have hsum : (nSize + pos.toUInt64).toNat = nSize.toNat + pos.toNat := by
      rw [UInt64.toNat_add, UInt32.toNat_toUInt64]
      omega
    have hsub : (f.nBufSize - pos.toUInt64).toNat = f.nBufSize.toNat - pos.toNat := by
      rw [UInt64.toNat_sub, UInt32.toNat_toUInt64]
      omega
    split
    all_goals
      rename_i hcase
      rw [gt_iff_lt, UInt64.lt_iff_toNat_lt, hsum] at hcase
      omega
  obtain ⟨nNow, hnNow, hnow, hnowLe, hnowPos⟩ : ∃ nNow : UInt64,
      (if toEnd + f.nReadPos > f.nSrcPos then f.nSrcPos - f.nReadPos else toEnd) = nNow ∧
        f.nReadPos.toNat + nNow.toNat ≤ f.nSrcPos.toNat ∧ nNow.toNat ≤ toEnd.toNat ∧
          0 < nNow.toNat := by
    refine ⟨_, rfl, ?_⟩
    have hsum : (toEnd + f.nReadPos).toNat = toEnd.toNat + f.nReadPos.toNat := by
      rw [UInt64.toNat_add]
      omega
    have hsub : (f.nSrcPos - f.nReadPos).toNat = f.nSrcPos.toNat - f.nReadPos.toNat := by
      rw [UInt64.toNat_sub]
      omega
    split
    all_goals
      rename_i hcase
      rw [gt_iff_lt, UInt64.lt_iff_toNat_lt, hsum] at hcase
      omega
  have hto : (f.nReadPos + nNow).toNat = f.nReadPos.toNat + nNow.toNat := by
    rw [UInt64.toNat_add]
    omega
  have hslots := h.slots_eq hnow (by omega)
  refine ⟨nNow.toNat, { f with
    nReadPos := f.nReadPos + nNow
    served := f.served ++ slots f pos.toNat nNow.toNat }, hnowPos, by omega, by omega, ?_, ?_⟩
  · unfold RingFile.copyNow
    dsimp only
    rw [hq, htoEnd, hnNow, if_pos ⟨by omega, UInt64.le_iff_toNat_le.mpr (by omega)⟩, hplace, hslots,
      List.map_map, ← map_fileSlot (by omega)]
    rfl
  · refine ⟨⟨hroom, hbuf, ?_, ?_, hsrcLe, h.ring, ?_⟩, hto, rfl, rfl, rfl⟩
    · dsimp only
      omega
    · dsimp only
      omega
    · dsimp only
      rw [hplace, hslots, List.forall_mem_append]
      refine ⟨h.served, fun e he => ?_⟩
      obtain ⟨i, hi, rfl⟩ := List.mem_map.mp he
      rw [List.mem_range] at hi
      exact ⟨by dsimp only; omega, rfl⟩

/-- The loop of `read` returns what the file has, or reaches its end. -/
theorem Window.readLoop (short : ℕ → ℕ) (hsrc : src.length < 2 ^ 63) : ∀ {rounds : ℕ}
    (nSize : UInt64) (pch : Bytes) {f : CBufferedFile}, Window src f → nSize.toNat ≤ rounds →
    nSize.toNat ≤ f.nBufSize.toNat →
    if f.nReadPos.toNat + nSize.toNat ≤ src.length then
      ∃ f', RingFile.readLoop src short rounds nSize pch f =
        some (.ok (pch ++ (src.drop f.nReadPos.toNat).take nSize.toNat), f') ∧
          Moved src f (f.nReadPos.toNat + nSize.toNat) f'
    else ∃ e f', RingFile.readLoop src short rounds nSize pch f = some (.error e, f') ∧
      Moved src f src.length f' := by
  intro rounds
  induction rounds with
  | zero =>
    intro nSize pch f h hrounds hsize
    obtain rfl : nSize = 0 := UInt64.toNat_inj.mp (Nat.le_zero.mp hrounds)
    rw [UInt64.toNat_zero, Nat.add_zero, if_pos (h.read_le.trans h.src_le)]
    refine ⟨f, ?_, h.moved⟩
    unfold RingFile.readLoop
    rw [if_pos rfl, List.take_zero, List.append_nil]
  | succ rounds ih =>
    intro nSize pch f h hrounds hsize
    have hread := h.read_le.trans h.src_le
    unfold RingFile.readLoop
    by_cases hzero : nSize = 0
    · subst hzero
      rw [UInt64.toNat_zero, Nat.add_zero, if_pos hread, if_pos rfl, List.take_zero,
        List.append_nil]
      exact ⟨f, rfl, h.moved⟩
    have hbuf := h.size_lt
    have hpos : 0 < nSize.toNat := Nat.pos_of_ne_zero fun heq => hzero (UInt64.toNat_inj.mp heq)
    rw [if_neg hzero]
    rcases hread.lt_or_eq with hlt | hend
    · obtain ⟨ret, f₁, hfill, hmoved, hsome⟩ := h.fillIfEmpty short hsrc hlt
      obtain ⟨n, f₂, hn, hle, hnle, hcopy, hmoved'⟩ := hmoved.window.copyNow hsrc hsome hpos
        (by rwa [hmoved.size_eq])
      rw [hmoved.pos_eq] at hcopy hnle hmoved'
      have hlen : ((src.drop f.nReadPos.toNat).take n).length = n := by
        rw [List.length_take, List.length_drop]
        omega
      have hleft : (nSize - .ofNat n).toNat = nSize.toNat - n := by
        rw [UInt64.toNat_sub, UInt64.toNat_ofNat']
        omega
      have hrest := ih (nSize - .ofNat n) (pch ++ (src.drop f.nReadPos.toNat).take n)
        hmoved'.window (by omega)
        (by rw [hmoved'.size_eq, hmoved.size_eq]; omega)
      have htotal : f.nReadPos.toNat + n + (nSize.toNat - n) = f.nReadPos.toNat + nSize.toNat := by
        omega
      rw [hfill]
      dsimp only
      rw [hcopy, Option.bind_eq_bind, Option.bind_some, hlen]
      rw [hmoved'.pos_eq, hleft, htotal] at hrest
      split at hrest
      · rename_i hfits
        rw [if_pos hfits]
        obtain ⟨f', hloop, hmoved''⟩ := hrest
        refine ⟨f', ?_, (hmoved.trans hmoved').trans hmoved''⟩
        rw [hloop, List.append_assoc, ← List.drop_drop, ← List.take_add, Nat.add_sub_cancel' hle]
      · rename_i hfits
        rw [if_neg hfits]
        obtain ⟨e, f', hloop, hmoved''⟩ := hrest
        exact ⟨e, f', hloop, (hmoved.trans hmoved').trans hmoved''⟩
    · rw [if_neg (by omega), h.fillIfEmpty_end hend]
      exact ⟨_, f, rfl, hend ▸ h.moved⟩

/-- `read` returns what the file has from the reading position on, and moves on by it. -/
theorem Window.read (h : Window src f) (short : ℕ → ℕ) (hsrc : src.length < 2 ^ 63)
    {nSize : UInt64} (hfits : nSize.toNat + f.nRewind.toNat < 2 ^ 64) :
    if f.nReadPos.toNat + nSize.toNat ≤ f.nReadLimit.toNat ∧
        nSize.toNat + f.nRewind.toNat ≤ f.nBufSize.toNat ∧
        f.nReadPos.toNat + nSize.toNat ≤ src.length then
      ∃ f', RingFile.read src short nSize f =
        some (.ok ((src.drop f.nReadPos.toNat).take nSize.toNat), f') ∧
          Moved src f (f.nReadPos.toNat + nSize.toNat) f'
    else ∃ e f', RingFile.read src short nSize f = some (.error e, f') ∧
      ∃ nPos, Moved src f nPos f' := by
  have hsize := h.size_lt
  have hread := h.read_le.trans h.src_le
  have hrewind : (nSize + f.nRewind).toNat = nSize.toNat + f.nRewind.toNat := by
    rw [UInt64.toNat_add]
    omega
  unfold RingFile.read
  by_cases hlarge : f.nBufSize.toNat < nSize.toNat + f.nRewind.toNat
  · -- too large for the buffer, whichever check refuses it
    rw [if_neg (by omega)]
    split
    · exact ⟨_, f, rfl, _, h.moved⟩
    · rw [if_pos (by rwa [gt_iff_lt, UInt64.lt_iff_toNat_lt, hrewind])]
      exact ⟨_, f, rfl, _, h.moved⟩
  have hlimit : (nSize + f.nReadPos).toNat = nSize.toNat + f.nReadPos.toNat := by
    rw [UInt64.toNat_add]
    omega
  have hnotLarge : ¬nSize + f.nRewind > f.nBufSize := by
    rwa [gt_iff_lt, UInt64.lt_iff_toNat_lt, hrewind]
  by_cases hpast : f.nReadLimit.toNat < nSize.toNat + f.nReadPos.toNat
  · rw [if_neg (by omega), if_pos (by rwa [gt_iff_lt, UInt64.lt_iff_toNat_lt, hlimit])]
    exact ⟨_, f, rfl, _, h.moved⟩
  have hnotPast : ¬nSize + f.nReadPos > f.nReadLimit := by
    rwa [gt_iff_lt, UInt64.lt_iff_toNat_lt, hlimit]
  have hloop := h.readLoop short hsrc nSize [] le_rfl (by omega)
  rw [if_neg hnotPast, if_neg hnotLarge]
  split at hloop
  · rw [if_pos (by omega)]
    exact hloop
  · rw [if_neg (by omega)]
    obtain ⟨e, f', hloop, hmoved⟩ := hloop
    exact ⟨e, f', hloop, _, hmoved⟩

/-- A position is the first at or after another with some byte. -/
structure FirstAt (src : Bytes) (ch : UInt8) (pos q : ℕ) : Prop where
  le : pos ≤ q
  found : src[q]? = some ch
  before : ∀ p, pos ≤ p → p < q → src[p]? ≠ some ch

/-- The loop of `FindByte` stops at the first occurrence, or reaches the end of the file. -/
theorem Window.findByteLoop (short : ℕ → ℕ) (hsrc : src.length < 2 ^ 63) (ch : UInt8) :
    ∀ {rounds : ℕ} {f : CBufferedFile}, Window src f → src.length - f.nReadPos.toNat < rounds →
    (∃ q f', RingFile.findByteLoop src short ch rounds f = some (.ok (), f') ∧
      FirstAt src ch f.nReadPos.toNat q ∧ Moved src f q f') ∨
    ∃ e f', RingFile.findByteLoop src short ch rounds f = some (.error e, f') ∧
      (∀ p, f.nReadPos.toNat ≤ p → src[p]? ≠ some ch) ∧ Moved src f src.length f' := by
  intro rounds
  induction rounds with
  | zero => exact fun _ hrounds => absurd hrounds (Nat.not_lt_zero _)
  | succ rounds ih =>
    intro f h hrounds
    unfold RingFile.findByteLoop
    rcases (h.read_le.trans h.src_le).lt_or_eq with hlt | hend
    · obtain ⟨ret, f₁, hfill, hmoved, hsome⟩ := h.fillIfEmpty short hsrc hlt
      have h₁ := hmoved.window
      have hslot : f₁.vchBuf (f₁.nReadPos % f₁.nBufSize).toNat = fileSlot src f.nReadPos.toNat := by
        rw [UInt64.toNat_mod, h₁.ring _ hsome h₁.le_read, hmoved.pos_eq]
      have hbyte : src[f.nReadPos.toNat]? = some (fileSlot src f.nReadPos.toNat).byte := by
        rw [List.getElem?_eq_getElem hlt]
        exact congrArg some (List.getD_eq_getElem _ _ hlt).symm
      -- the byte looked at is recorded, and it is that of the file
      have hserved : ∀ e ∈ f₁.served ++ [(f₁.nReadPos.toNat, fileSlot src f.nReadPos.toNat)],
          e.1 < src.length ∧ e.2 = fileSlot src e.1 := by
        rw [List.forall_mem_append, List.forall_mem_singleton, hmoved.pos_eq]
        exact ⟨h₁.served, hlt, rfl⟩
      have hrecorded : Moved src f f.nReadPos.toNat { f₁ with
          served := f₁.served ++ [(f₁.nReadPos.toNat, fileSlot src f.nReadPos.toNat)] } :=
        ⟨⟨h₁.room, h₁.size_lt, h₁.read_le, h₁.le_read, h₁.src_le, h₁.ring, hserved⟩, hmoved.pos_eq,
          hmoved.limit_eq, hmoved.rewind_eq, hmoved.size_eq⟩
      rw [hfill]
      dsimp only
      rw [hslot]
      split
      · rename_i hfound
        refine .inl ⟨_, _, rfl, ⟨le_rfl, by rw [hbyte, hfound], fun p hp hp' => ?_⟩, hrecorded⟩
        omega
      · rename_i hne
        have hto : (f₁.nReadPos + 1).toNat = f.nReadPos.toNat + 1 := by
          have hpos := hmoved.pos_eq
          rw [UInt64.toNat_add, UInt64.toNat_one]
          omega
        have hpos := hmoved.pos_eq
        have hnear := h₁.le_read
        have hnext : Moved src f (f.nReadPos.toNat + 1) { f₁ with
            nReadPos := f₁.nReadPos + 1
            served := f₁.served ++ [(f₁.nReadPos.toNat, fileSlot src f.nReadPos.toNat)] } := by
          refine ⟨⟨h₁.room, h₁.size_lt, ?_, ?_, h₁.src_le, h₁.ring, hserved⟩, hto,
            hmoved.limit_eq, hmoved.rewind_eq, hmoved.size_eq⟩
          · dsimp only
            omega
          · dsimp only
            omega
        have hother : ∀ p, f.nReadPos.toNat ≤ p → p < f.nReadPos.toNat + 1 → src[p]? ≠ some ch := by
          intro p hp hp'
          obtain rfl : p = f.nReadPos.toNat := by omega
          rw [hbyte]
          exact fun heq => hne (Option.some.inj heq)
        have hrest := ih hnext.window (by rw [hnext.pos_eq]; omega)
        rw [hnext.pos_eq] at hrest
        rcases hrest with ⟨q, f', hloop, hfirst, hmoved'⟩ | ⟨e, f', hloop, hnone, hmoved'⟩
        · refine .inl ⟨q, f', hloop, ⟨(Nat.le_succ _).trans hfirst.le, hfirst.found,
            fun p hp hp' => ?_⟩, hnext.trans hmoved'⟩
          rcases Nat.lt_or_ge p (f.nReadPos.toNat + 1) with hp₁ | hp₁
          · exact hother p hp hp₁
          · exact hfirst.before p hp₁ hp'
        · refine .inr ⟨e, f', hloop, fun p hp => ?_, hnext.trans hmoved'⟩
          rcases Nat.lt_or_ge p (f.nReadPos.toNat + 1) with hp₁ | hp₁
          · exact hother p hp hp₁
          · exact hnone p hp₁
    · rw [h.fillIfEmpty_end hend]
      refine .inr ⟨_, f, rfl, fun p hp => ?_, hend ▸ h.moved⟩
      rw [List.getElem?_eq_none (hend ▸ hp)]
      exact nofun

/-- `FindByte` stops at the first occurrence, or throws at the end of the file. -/
theorem Window.findByte (h : Window src f) (short : ℕ → ℕ) (hsrc : src.length < 2 ^ 63)
    (ch : UInt8) :
    (∃ q f', RingFile.findByte src short ch f = some (.ok (), f') ∧
      FirstAt src ch f.nReadPos.toNat q ∧ Moved src f q f') ∨
    ∃ e f', RingFile.findByte src short ch f = some (.error e, f') ∧
      (∀ p, f.nReadPos.toNat ≤ p → src[p]? ≠ some ch) ∧ Moved src f src.length f' :=
  h.findByteLoop short hsrc ch (by omega)

/-! ## Rewinding -/

/-- The buffer after the reading position was set within it. -/
theorem Window.moveTo (h : Window src f) {nReadPos : UInt64}
    (hle : nReadPos.toNat ≤ f.nSrcPos.toNat)
    (hnear : f.nSrcPos.toNat ≤ nReadPos.toNat + f.nRewind.toNat) :
    Moved src f nReadPos.toNat { f with nReadPos := nReadPos } :=
  ⟨⟨h.room, h.size_lt, hle, hnear.trans (Nat.add_le_add_left h.room.le _), h.src_le, h.ring,
    h.served⟩, rfl, rfl, rfl, rfl⟩

/-- `SetPos` sets the position if it is not too far back and not past what was read. -/
theorem setPos_eq {nPos : UInt64} (hfits : nPos.toNat + f.nRewind.toNat < 2 ^ 64) :
    if f.nSrcPos.toNat ≤ nPos.toNat + f.nRewind.toNat ∧ nPos.toNat ≤ f.nSrcPos.toNat then
      RingFile.setPos nPos f = (true, { f with nReadPos := nPos })
    else (RingFile.setPos nPos f).1 = false := by
  have hsum : (nPos + f.nRewind).toNat = nPos.toNat + f.nRewind.toNat := by
    rw [UInt64.toNat_add]
    omega
  have hback : nPos + f.nRewind < f.nSrcPos ↔ nPos.toNat + f.nRewind.toNat < f.nSrcPos.toNat := by
    rw [UInt64.lt_iff_toNat_lt, hsum]
  have hpast : nPos > f.nSrcPos ↔ f.nSrcPos.toNat < nPos.toNat := UInt64.lt_iff_toNat_lt
  unfold RingFile.setPos
  by_cases hcase : f.nSrcPos.toNat ≤ nPos.toNat + f.nRewind.toNat ∧ nPos.toNat ≤ f.nSrcPos.toNat
  · have hnotBack : ¬nPos + f.nRewind < f.nSrcPos := fun hlt => by
      rw [hback] at hlt
      omega
    have hnotPast : ¬nPos > f.nSrcPos := fun hlt => by
      rw [hpast] at hlt
      omega
    rw [if_pos hcase, if_neg hnotBack, if_neg hnotPast]
  · rw [if_neg hcase]
    split
    · rfl
    · rename_i hnotBack
      rw [hback] at hnotBack
      rw [if_pos (hpast.mpr (by omega))]

/-- Whatever `SetPos` returns, the reading position is in the buffer. -/
theorem Window.setPos (h : Window src f) {nPos : UInt64} (hfits : Call.Fits f (.setPos nPos)) :
    ∃ q, Moved src f q (RingFile.setPos nPos f).2 := by
  have hsum : (nPos + f.nRewind).toNat = (nPos.toNat + f.nRewind.toNat) % 2 ^ 64 :=
    UInt64.toNat_add ..
  have hsrcLt := f.nSrcPos.toNat_lt
  have hposLt := nPos.toNat_lt
  have hrewindLt := f.nRewind.toNat_lt
  unfold Call.Fits at hfits
  rw [UInt64.le_iff_toNat_le] at hfits
  unfold RingFile.setPos
  split
  · rename_i hback
    rw [UInt64.lt_iff_toNat_lt, hsum] at hback
    have hsub : (f.nSrcPos - f.nRewind).toNat = f.nSrcPos.toNat - f.nRewind.toNat := by
      rw [UInt64.toNat_sub]
      omega
    exact ⟨_, h.moveTo (by omega) (by omega)⟩
  · rename_i hback
    rw [UInt64.lt_iff_toNat_lt, hsum] at hback
    split
    · exact ⟨_, h.moveTo le_rfl (Nat.le_add_right _ _)⟩
    · rename_i hpast
      rw [gt_iff_lt, UInt64.lt_iff_toNat_lt] at hpast
      exact ⟨_, h.moveTo (by omega) (by omega)⟩

/-! ## Runs -/

theorem Window.new (src : Bytes) {nBufSize nRewind : UInt64} (hrewind : nRewind < nBufSize)
    (hsize : nBufSize.toNat < 2 ^ 32) : Window src (.new nBufSize nRewind) :=
  ⟨UInt64.lt_iff_toNat_lt.mp hrewind, hsize, le_rfl, Nat.zero_le _, Nat.zero_le _,
    fun _ hp => absurd hp (Nat.not_lt_zero _), fun _ he => absurd he List.not_mem_nil⟩

/-- A call keeps the window, and the sizes it was made with. -/
theorem Window.apply (h : Window src f) (hsrc : src.length < 2 ^ 63) {c : Call} (hfits : c.Fits f)
    (hc : c.apply src short f = some f') : Window src f' := by
  cases c with
  | read nSize =>
    obtain ⟨⟨r, f₁⟩, hread, rfl⟩ := Option.map_eq_some_iff.mp hc
    have hspec := h.read short hsrc hfits
    rw [hread] at hspec
    split at hspec
    · obtain ⟨f₂, heq, hmoved⟩ := hspec
      cases heq
      exact hmoved.window
    · obtain ⟨e, f₂, heq, nPos, hmoved⟩ := hspec
      cases heq
      exact hmoved.window
  | setPos nPos =>
    obtain ⟨q, hmoved⟩ := h.setPos hfits
    cases hc
    exact hmoved.window
  | setLimit nPos =>
    cases hc
    unfold RingFile.setLimit
    split
    · exact h
    · exact ⟨h.room, h.size_lt, h.read_le, h.le_read, h.src_le, h.ring, h.served⟩
  | findByte ch =>
    obtain ⟨⟨r, f₁⟩, hfind, rfl⟩ := Option.map_eq_some_iff.mp hc
    rcases h.findByte short hsrc ch with
      ⟨q, f₂, heq, -, hmoved⟩ | ⟨e, f₂, heq, -, hmoved⟩
    · rw [heq] at hfind
      cases hfind
      exact hmoved.window
    · rw [heq] at hfind
      cases hfind
      exact hmoved.window

/-- The states that calls lead to, each of them fitting. -/
def Reaches (src : Bytes) (short : ℕ → ℕ) : CBufferedFile → CBufferedFile → Prop :=
  Relation.ReflTransGen fun f f' => ∃ c : Call, c.Fits f ∧ c.apply src short f = some f'

theorem Window.reaches (h : Window src f) (hsrc : src.length < 2 ^ 63)
    (hrun : Reaches src short f f') : Window src f' :=
  Machine.invariant_of_steps (fun _ _ hw ⟨_, hfits, hc⟩ => hw.apply hsrc hfits hc) hrun h

/-- In every run of calls that fit, a read that succeeds returns the bytes of the file, `FindByte`
stops at the first occurrence or throws, and every byte was served from a slot that still had the
byte of its position. -/
theorem refines_file (hsrc : src.length < 2 ^ 63) {nBufSize nRewind : UInt64}
    (hrewind : nRewind < nBufSize) (hsize : nBufSize.toNat < 2 ^ 32)
    (hrun : Reaches src short (.new nBufSize nRewind) f) :
    (∀ nSize, Call.Fits f (.read nSize) → (read src short nSize f).isSome ∧
      ∀ bytes f', read src short nSize f = some (.ok bytes, f') →
        f.nReadPos.toNat + nSize.toNat ≤ src.length ∧
        bytes = (src.drop f.nReadPos.toNat).take nSize.toNat ∧
        f'.nReadPos.toNat = f.nReadPos.toNat + nSize.toNat) ∧
    (∀ ch, (findByte src short ch f).isSome ∧
      ∀ r f', findByte src short ch f = some (r, f') → match r with
        | .ok () => FirstAt src ch f.nReadPos.toNat f'.nReadPos.toNat
        | .error _ => (∀ p, f.nReadPos.toNat ≤ p → src[p]? ≠ some ch) ∧
            f'.nReadPos.toNat = src.length) ∧
    ∀ e ∈ f.served, e.2.origin = some e.1 ∧ src[e.1]? = some e.2.byte := by
  have h := (Window.new src hrewind hsize).reaches hsrc hrun
  refine ⟨fun nSize hfits => ?_, fun ch => ?_, fun e he => ?_⟩
  · have hspec := h.read short hsrc hfits
    split at hspec
    · rename_i hcase
      obtain ⟨f₁, heq, hmoved⟩ := hspec
      rw [heq]
      refine ⟨rfl, fun bytes f' hread => ?_⟩
      cases hread
      exact ⟨hcase.2.2, rfl, hmoved.pos_eq⟩
    · obtain ⟨e, f₁, heq, -⟩ := hspec
      rw [heq]
      exact ⟨rfl, fun bytes f' hread => by cases hread⟩
  · rcases h.findByte short hsrc ch with
      ⟨q, f₁, heq, hfirst, hmoved⟩ | ⟨e, f₁, heq, hnone, hmoved⟩
    · rw [heq]
      refine ⟨rfl, fun r f' hfind => ?_⟩
      cases hfind
      dsimp only
      rwa [hmoved.pos_eq]
    · rw [heq]
      refine ⟨rfl, fun r f' hfind => ?_⟩
      cases hfind
      exact ⟨hnone, hmoved.pos_eq⟩
  · obtain ⟨hlt, heq⟩ := h.served e he
    rw [heq]
    exact ⟨rfl, (List.getElem?_eq_getElem hlt).trans
      (congrArg some (List.getD_eq_getElem _ _ hlt).symm)⟩

/-- A source that gives whatever is asked for. -/
def plainSource (nPos : ℕ) : ℕ := 2 ^ 32 - nPos % 2 ^ 32

theorem refines_file_new : (∀ nSize, Call.Fits (.new 20 10) (.read nSize) →
      (read [1, 2, 3] plainSource nSize (.new 20 10)).isSome) ∧
    (findByte [1, 2, 3] plainSource 2 (.new 20 10)).isSome := by
  have hrun : Reaches [1, 2, 3] plainSource (.new 20 10) (.new 20 10) := .refl
  have h := refines_file (by decide) (by decide) (by decide) hrun
  exact ⟨fun nSize hfits => (h.1 nSize hfits).1, (h.2.1 2).1⟩

/-- A position near the end of `uint64_t` makes the sum in `SetPos` small, and what is read next is
not from the file. -/
theorem not_refines_file : ∃ f f',
    [Call.read 3, .setPos 18446744073709551611].foldlM
      (Call.apply [1, 2, 3, 4, 5, 6, 7, 8] plainSource) (.new 20 10) = some f ∧
    read [1, 2, 3, 4, 5, 6, 7, 8] plainSource 2 f = some (.ok [0, 0], f') ∧
    f.nReadPos = 18446744073709551614 ∧
    (([1, 2, 3, 4, 5, 6, 7, 8] : Bytes).drop f.nReadPos.toNat).take 2 ≠ [0, 0] := by
  have hrun : ([Call.read 3, .setPos 18446744073709551611].foldlM
      (Call.apply [1, 2, 3, 4, 5, 6, 7, 8] plainSource) (.new 20 10)).bind (fun f =>
        (read [1, 2, 3, 4, 5, 6, 7, 8] plainSource 2 f).map fun r => (f.nReadPos, r.1.toOption)) =
      some (18446744073709551614, some [0, 0]) := by decide +kernel
  obtain ⟨f, hf, hread⟩ := Option.bind_eq_some_iff.mp hrun
  obtain ⟨⟨r, f'⟩, hr, heq⟩ := Option.map_eq_some_iff.mp hread
  rw [Prod.mk.injEq] at heq
  obtain ⟨hpos, hbytes⟩ := heq
  obtain rfl := Machine.eq_ok_of_toOption hbytes
  refine ⟨f, f', hf, hr, hpos, ?_⟩
  rw [hpos]
  decide

/-! ## The rewind that is guaranteed -/

section Reads

variable (src : Bytes) (short : ℕ → ℕ)

/-- Some reads, one after the other. -/
def reads : List UInt64 → CBufferedFile → Option (Except String Bytes × CBufferedFile)
  | [], f => some (.ok [], f)
  | nSize :: sizes, f =>
    match read src short nSize f with
    | some (.ok bytes, f) =>
      (reads sizes f).map fun r => (r.1.map (bytes ++ ·), r.2)
    | r => r

/-- How much some reads ask for. -/
def total (sizes : List UInt64) : ℕ := (sizes.map UInt64.toNat).sum

/-- Going back by some bytes succeeds, and the reads that follow, each within what the buffer allows
and together within the limit and the file, return the bytes of the file from there. -/
def Rewinds (f : CBufferedFile) (n : UInt64) : Prop :=
  (setPos (f.nReadPos - n) f).1 = true ∧ ∀ sizes : List UInt64,
    (∀ nSize ∈ sizes, nSize.toNat + f.nRewind.toNat ≤ f.nBufSize.toNat) →
    f.nReadPos.toNat - n.toNat + total sizes ≤ f.nReadLimit.toNat →
    f.nReadPos.toNat - n.toNat + total sizes ≤ src.length →
    ∃ f', reads src short sizes (setPos (f.nReadPos - n) f).2 =
      some (.ok ((src.drop (f.nReadPos.toNat - n.toNat)).take (total sizes)), f')

end Reads

/-- Reads within the buffer, the limit and the file succeed. -/
theorem Window.reads (hsrc : src.length < 2 ^ 63) : ∀ {sizes : List UInt64} {f : CBufferedFile},
    Window src f → (∀ nSize ∈ sizes, nSize.toNat + f.nRewind.toNat ≤ f.nBufSize.toNat) →
    f.nReadPos.toNat + total sizes ≤ f.nReadLimit.toNat →
    f.nReadPos.toNat + total sizes ≤ src.length →
    ∃ f', RingFile.reads src short sizes f =
      some (.ok ((src.drop f.nReadPos.toNat).take (total sizes)), f')
  | [], f, _, _, _, _ => ⟨f, by simp [RingFile.reads, total]⟩
  | nSize :: sizes, f, h, hsizes, hlimit, hend => by
    rw [List.forall_mem_cons] at hsizes
    have hsize := h.size_lt
    have htotal : total (nSize :: sizes) = nSize.toNat + total sizes := by simp [total]
    rw [htotal] at hlimit hend ⊢
    have hfits : nSize.toNat + f.nRewind.toNat < 2 ^ 64 := by omega
    have hread := h.read short hsrc hfits
    rw [if_pos ⟨by omega, hsizes.1, by omega⟩] at hread
    obtain ⟨f₁, hread, hmoved⟩ := hread
    obtain ⟨f', hrest⟩ := Window.reads hsrc hmoved.window
      (by rw [hmoved.rewind_eq, hmoved.size_eq]; exact hsizes.2)
      (by rw [hmoved.pos_eq, hmoved.limit_eq]; omega) (by rw [hmoved.pos_eq]; omega)
    refine ⟨f', ?_⟩
    unfold RingFile.reads
    rw [hread]
    dsimp only
    rw [hrest, hmoved.pos_eq, Option.map_some, List.take_add, List.drop_drop]
    rfl

/-- In every run of calls that fit, going back from the reading position by some bytes, up to the
rewind that is guaranteed, succeeds exactly if they and those read ahead are within it. -/
theorem rewinds_iff (hsrc : src.length < 2 ^ 63) {nBufSize nRewind : UInt64}
    (hrewind : nRewind < nBufSize) (hsize : nBufSize.toNat < 2 ^ 32)
    (hrun : Reaches src short (.new nBufSize nRewind) f) {n : UInt64} (hn : n ≤ f.nRewind)
    (hstart : n ≤ f.nReadPos) : Rewinds src short f n ↔
      f.nSrcPos.toNat - f.nReadPos.toNat + n.toNat ≤ f.nRewind.toNat := by
  have h := (Window.new src hrewind hsize).reaches hsrc hrun
  have hread := h.read_le
  have hend := h.src_le
  have hroom := h.room
  have hbuf := h.size_lt
  rw [UInt64.le_iff_toNat_le] at hn hstart
  have hsub : (f.nReadPos - n).toNat = f.nReadPos.toNat - n.toNat :=
    UInt64.toNat_sub_of_le _ _ (UInt64.le_iff_toNat_le.mpr hstart)
  have hfits : (f.nReadPos - n).toNat + f.nRewind.toNat < 2 ^ 64 := by omega
  have hset := setPos_eq hfits
  unfold Rewinds
  split at hset
  · rename_i hnear
    have hmoved := h.moveTo hnear.2 hnear.1
    rw [hset]
    refine ⟨fun _ => by omega, fun _ => ⟨rfl, fun sizes hsizes hlimit hfile => ?_⟩⟩
    rw [← hsub] at hlimit hfile ⊢
    exact Window.reads hsrc hmoved.window hsizes hlimit hfile
  · rename_i hfar
    rw [hset]
    exact ⟨fun hrewinds => absurd hrewinds.1 Bool.false_ne_true, fun hle => absurd hle (by omega)⟩

theorem rewinds_iff_near : ∃ f, Reaches [1, 2, 3, 4, 5, 6, 7, 8] plainSource (.new 20 10) f ∧
    f.nReadPos = 3 ∧ Rewinds [1, 2, 3, 4, 5, 6, 7, 8] plainSource f 2 := by
  have hcounters : ((Call.read 3).apply [1, 2, 3, 4, 5, 6, 7, 8] plainSource (.new 20 10)).map
      (fun f => (f.nReadPos, f.nSrcPos, f.nRewind)) = some (3, 8, 10) := by with_unfolding_all decide
  obtain ⟨f, hf, heq⟩ := Option.map_eq_some_iff.mp hcounters
  rw [Prod.mk.injEq, Prod.mk.injEq] at heq
  obtain ⟨hread, hsrc, hrewind⟩ := heq
  have hrun : Reaches [1, 2, 3, 4, 5, 6, 7, 8] plainSource (.new 20 10) f :=
    .single ⟨.read 3, show 3 + 10 < 2 ^ 64 by decide, hf⟩
  refine ⟨f, hrun, hread, (rewinds_iff (by decide) (by decide) (by decide) hrun ?_ ?_).mpr ?_⟩
  · rw [hrewind]
    decide
  · rw [hread]
    decide
  · rw [hread, hsrc, hrewind]
    decide

/-- After one byte of twenty was read, a buffer that guarantees to rewind five does not go back to
the first. -/
theorem not_rewinds : ∃ f, Reaches (List.replicate 20 7) plainSource (.new 20 5) f ∧
    f.nRewind = 5 ∧ f.nReadPos = 1 ∧ ¬Rewinds (List.replicate 20 7) plainSource f 1 := by
  have hback : ((Call.read 1).apply (List.replicate 20 7) plainSource (.new 20 5)).map
      (fun f => (f.nRewind, f.nReadPos, (setPos (f.nReadPos - 1) f).1)) = some (5, 1, false) := by
    with_unfolding_all decide
  obtain ⟨f, hf, heq⟩ := Option.map_eq_some_iff.mp hback
  rw [Prod.mk.injEq, Prod.mk.injEq] at heq
  obtain ⟨hrewind, hread, hset⟩ := heq
  refine ⟨f, .single ⟨.read 1, show 1 + 5 < 2 ^ 64 by decide, hf⟩, hrewind, hread,
    fun hrewinds => ?_⟩
  exact Bool.false_ne_true (hset.symm.trans hrewinds.1)

end RingFile

end Ticoin
