import Ticoin.Core
import Ticoin.Lib.Machine

/-!
# Block files : where blocks are stored

`AcceptBlock` asks `FindBlockPos` for a place of the block, and stores a header of 8 bytes
and the block there. When blocks are read back from files (`LoadExternalBlockFile`) their
place is known, and `FindBlockPos` only counts them : it adds the size of the block to the
counter `nSize` of the file, whatever the place is. Blocks that come later are placed where
the counter says that the file ends.

So ranges of blocks do not overlap as long as no known block ends after the sizes counted
for its file (`findBlockPos_disjoint`). Where the known blocks have bytes between them that
are no blocks the counter stays behind, and a later block is stored over earlier ones
(`findBlockPos_overlaps`).
-/

namespace Ticoin

/-! ## FindBlockPos -/

def MAX_BLOCKFILE_SIZE : UInt32 := 0x8000000

def BLOCKFILE_CHUNK_SIZE : UInt32 := 0x1000000

structure CDiskBlockPos where
  nFile : ℤ
  nPos : UInt32
  deriving DecidableEq, Repr

structure CBlockFileInfo where
  /-- number of blocks stored in file -/
  nBlocks : UInt32
  /-- number of used bytes of block file -/
  nSize : UInt32
  /-- number of used bytes in the undo file -/
  nUndoSize : UInt32
  nHeightFirst : UInt32
  nHeightLast : UInt32
  nTimeFirst : UInt64
  nTimeLast : UInt64
  deriving DecidableEq, Repr

/-- `CBlockFileInfo::SetNull`. -/
def CBlockFileInfo.null : CBlockFileInfo := ⟨0, 0, 0, 0, 0, 0, 0⟩

/-- Update the statistics (does not update `nSize`). -/
def CBlockFileInfo.addBlock (info : CBlockFileInfo) (nHeightIn : UInt32) (nTimeIn : UInt64) :
    CBlockFileInfo :=
  { info with
    nHeightFirst :=
      if info.nBlocks = 0 ∨ info.nHeightFirst > nHeightIn then nHeightIn else info.nHeightFirst
    nTimeFirst := if info.nBlocks = 0 ∨ info.nTimeFirst > nTimeIn then nTimeIn else info.nTimeFirst
    nBlocks := info.nBlocks + 1
    nHeightLast := if nHeightIn > info.nHeightLast then nHeightIn else info.nHeightLast
    nTimeLast := if nTimeIn > info.nTimeLast then nTimeIn else info.nTimeLast }

/-- What the block tree database says of block files. -/
structure CBlockTreeDB where
  blockFileInfo : Std.ExtTreeMap ℤ CBlockFileInfo
  lastBlockFile : Option ℤ

/-- `ReadBlockFileInfo` into a null record ; a read that fails leaves it so. -/
def CBlockTreeDB.readBlockFileInfo (db : CBlockTreeDB) (nFile : ℤ) : CBlockFileInfo :=
  db.blockFileInfo[nFile]?.getD .null

structure BlockFiles where
  nLastBlockFile : ℤ
  infoLastBlockFile : CBlockFileInfo
  pblocktree : CBlockTreeDB

/-- The files when the node starts with an empty block tree database. -/
def BlockFiles.empty : BlockFiles := ⟨0, .null, ⟨∅, none⟩⟩

/-- What the disk answers in a call. -/
structure DiskOutcome where
  hasDiskSpace : Bool
  fileInfoWritten : Bool
  deriving DecidableEq, Repr

namespace BlockFiles

/-- Go to another file. -/
def switchTo (files : BlockFiles) (nFile : ℤ) : BlockFiles :=
  { files with
    nLastBlockFile := nFile
    infoLastBlockFile := files.pblocktree.readBlockFileInfo nFile }

/-- The loop that leaves files without room, and whether it left one. -/
def leaveFull (nAddSize : UInt32) : ℕ → BlockFiles → Bool → Option (BlockFiles × Bool)
  | 0, _, _ => none
  | fuel + 1, files, fUpdatedLast =>
    if files.infoLastBlockFile.nSize + nAddSize ≥ MAX_BLOCKFILE_SIZE then
      leaveFull nAddSize fuel (files.switchTo (files.nLastBlockFile + 1)) true
    else some (files, fUpdatedLast)

/-- Enough turns of the loop, as each but the last goes to a file with a record. -/
def leaveFuel (files : BlockFiles) : ℕ := files.pblocktree.blockFileInfo.size + 2

/-- The file and the position of a block, and whether the last file changed. -/
def selectPos (files : BlockFiles) (pos : CDiskBlockPos) (nAddSize : UInt32) (fKnown : Bool) :
    Option (CDiskBlockPos × BlockFiles × Bool) :=
  if fKnown then
    if files.nLastBlockFile ≠ pos.nFile then some (pos, files.switchTo pos.nFile, true)
    else some (pos, files, false)
  else
    (leaveFull nAddSize files.leaveFuel files false).map fun r =>
      (⟨r.1.nLastBlockFile, r.1.infoLastBlockFile.nSize⟩, r.1, r.2)

/-- Count a block in the last file. -/
def count (files : BlockFiles) (nAddSize nHeight : UInt32) (nTime : UInt64) : BlockFiles :=
  let info := files.infoLastBlockFile
  { files with
    infoLastBlockFile := { info with nSize := info.nSize + nAddSize }.addBlock nHeight nTime }

/-- `WriteBlockFileInfo` and, for a new last file, `WriteLastBlockFile`. -/
def writeInfo (files : BlockFiles) (fUpdatedLast : Bool) : BlockFiles :=
  { files with
    pblocktree :=
      { blockFileInfo :=
          files.pblocktree.blockFileInfo.insert files.nLastBlockFile files.infoLastBlockFile
        lastBlockFile :=
          if fUpdatedLast then some files.nLastBlockFile else files.pblocktree.lastBlockFile } }

/-- Whether a new chunk of the file is needed. -/
def needsChunk (files : BlockFiles) (pos : CDiskBlockPos) : Bool :=
  let nOldChunks := (pos.nPos + BLOCKFILE_CHUNK_SIZE - 1) / BLOCKFILE_CHUNK_SIZE
  let nNewChunks :=
    (files.infoLastBlockFile.nSize + BLOCKFILE_CHUNK_SIZE - 1) / BLOCKFILE_CHUNK_SIZE
  nNewChunks > nOldChunks

/-- `FindBlockPos`, which is `none` if the loop does not end. -/
def findBlockPos (files : BlockFiles) (pos : CDiskBlockPos) (nAddSize nHeight : UInt32)
    (nTime : UInt64) (fKnown : Bool) (disk : DiskOutcome) :
    Option (BlockFiles × Except String CDiskBlockPos) := do
  let (pos, files, fUpdatedLast) ← files.selectPos pos nAddSize fKnown
  let files := files.count nAddSize nHeight nTime
  if !fKnown && files.needsChunk pos && !disk.hasDiskSpace then
    return (files, .error "out of disk space")
  if !disk.fileInfoWritten then
    return (files, .error "Failed to write file info")
  return (files.writeInfo fUpdatedLast, .ok pos)

end BlockFiles

/-! ## Stored blocks -/

/-- A block to be stored, with its place if it is known (`dbp`). -/
structure StoredBlock where
  dbp : Option CDiskBlockPos
  nBlockSize : UInt32
  nHeight : UInt32
  nTime : UInt64
  disk : DiskOutcome
  deriving DecidableEq, Repr

/-- The bytes of a record in a file, from `first` to before `last`. -/
structure BlockRange where
  nFile : ℤ
  first : ℕ
  last : ℕ
  deriving DecidableEq, Repr

/-- The second record does not start before the end of the first. -/
def BlockRange.Before (r s : BlockRange) : Prop := r.nFile = s.nFile → r.last ≤ s.first

/-- Records that have no byte in common. -/
def BlockRange.Disjoint (r s : BlockRange) : Prop :=
  r.nFile = s.nFile → r.last ≤ s.first ∨ s.last ≤ r.first

instance (r s : BlockRange) : Decidable (r.Disjoint s) :=
  inferInstanceAs (Decidable (_ → _))

/-- The bytes of a known block, whose header stands before its position. -/
def CDiskBlockPos.knownRange (pos : CDiskBlockPos) (nBlockSize : UInt32) : BlockRange :=
  ⟨pos.nFile, pos.nPos.toNat - 8, pos.nPos.toNat + nBlockSize.toNat⟩

/-- The bytes of a new block, whose header is written at the position. -/
def CDiskBlockPos.freshRange (pos : CDiskBlockPos) (nBlockSize : UInt32) : BlockRange :=
  ⟨pos.nFile, pos.nPos.toNat, pos.nPos.toNat + 8 + nBlockSize.toNat⟩

/-- `AcceptBlock` where it stores the block : the bytes it takes, if it gets a place. -/
def BlockFiles.store (files : BlockFiles) (block : StoredBlock) :
    Option (BlockFiles × Option BlockRange) := do
  let blockPos := block.dbp.getD ⟨-1, 0⟩
  let (files, r) ← files.findBlockPos blockPos (block.nBlockSize + 8) block.nHeight block.nTime
    block.dbp.isSome block.disk
  match r, block.dbp with
  | .error _, _ => return (files, none)
  | .ok pos, some _ => return (files, some (pos.knownRange block.nBlockSize))
  | .ok pos, none => return (files, some (pos.freshRange block.nBlockSize))

/-! ## Counters of the files -/

namespace BlockFiles

variable {files : BlockFiles} {pos : CDiskBlockPos} {nAddSize : UInt32} (nHeight : UInt32)
  (nTime : UInt64) {fKnown : Bool} (disk : DiskOutcome)

/-- The counter `nSize` of a file, and the one on disk. -/
def nSize (files : BlockFiles) (nFile : ℤ) : UInt32 :=
  if nFile = files.nLastBlockFile then files.infoLastBlockFile.nSize
  else (files.pblocktree.readBlockFileInfo nFile).nSize

theorem nSize_switchTo (nFile n : ℤ) : (files.switchTo nFile).nSize n =
    (files.pblocktree.readBlockFileInfo n).nSize := by
  rw [nSize, switchTo]
  split
  · rename_i h
    rw [h]
  · rfl

@[simp] theorem count_nLastBlockFile :
    (files.count nAddSize nHeight nTime).nLastBlockFile = files.nLastBlockFile := rfl

theorem nSize_count (n : ℤ) : (files.count nAddSize nHeight nTime).nSize n =
    if n = files.nLastBlockFile then files.infoLastBlockFile.nSize + nAddSize
    else files.nSize n := by
  rw [nSize, nSize, count]
  split <;> rfl

theorem read_writeInfo (fUpdatedLast : Bool) (n : ℤ) :
    ((files.writeInfo fUpdatedLast).pblocktree.readBlockFileInfo n).nSize =
      if n = files.nLastBlockFile then files.infoLastBlockFile.nSize
      else (files.pblocktree.readBlockFileInfo n).nSize := by
  rw [CBlockTreeDB.readBlockFileInfo, writeInfo, Std.ExtTreeMap.getElem?_insert]
  by_cases h : n = files.nLastBlockFile
  · rw [if_pos h, if_pos (h ▸ Std.ReflCmp.compare_self)]
    rfl
  · rw [if_neg h, if_neg fun heq => h (Std.LawfulEqOrd.eq_of_compare heq).symm]
    rfl

theorem nSize_writeInfo (fUpdatedLast : Bool) (n : ℤ) :
    (files.writeInfo fUpdatedLast).nSize n = files.nSize n := by
  rw [nSize, nSize, read_writeInfo]
  change (if n = files.nLastBlockFile then files.infoLastBlockFile.nSize else _) = _
  split
  · rfl
  · rfl

/-- A call counts the block in the file selected, whatever the disk answers. -/
theorem findBlockPos_cases {pos' : CDiskBlockPos} {files' : BlockFiles} {fUpdatedLast : Bool}
    (h : files.selectPos pos nAddSize fKnown = some (pos', files', fUpdatedLast)) :
    (∃ e, files.findBlockPos pos nAddSize nHeight nTime fKnown disk =
        some (files'.count nAddSize nHeight nTime, .error e) ∧
        (fKnown = true → disk.fileInfoWritten = false)) ∨
      (files.findBlockPos pos nAddSize nHeight nTime fKnown disk =
        some ((files'.count nAddSize nHeight nTime).writeInfo fUpdatedLast, .ok pos') ∧
        disk.fileInfoWritten = true) := by
  simp only [findBlockPos, h, Option.bind_eq_bind, Option.bind_some]
  by_cases hspace : (!fKnown && (files'.count nAddSize nHeight nTime).needsChunk pos' &&
    !disk.hasDiskSpace) = true
  · rw [if_pos hspace]
    refine .inl ⟨_, rfl, fun hknown => ?_⟩
    rw [hknown] at hspace
    cases hspace
  · rw [if_neg hspace]
    cases disk.fileInfoWritten with
    | false => exact .inl ⟨_, rfl, fun _ => rfl⟩
    | true => exact .inr ⟨rfl, rfl⟩

/-! ## The loop over full files -/

/-- The files after the last one with a record in the database. -/
def ahead (files : BlockFiles) : Finset ℤ :=
  files.pblocktree.blockFileInfo.keys.toFinset.filter (files.nLastBlockFile < ·)

theorem card_ahead_lt : files.ahead.card + 1 < files.leaveFuel := by
  have hcard : files.ahead.card ≤ files.pblocktree.blockFileInfo.keys.length :=
    (Finset.card_filter_le _ _).trans (List.toFinset_card_le _)
  rw [Std.ExtTreeMap.length_keys] at hcard
  rw [leaveFuel]
  omega

theorem ahead_switchTo {n : ℤ} (hn : n ∈ files.pblocktree.blockFileInfo)
    (hlast : files.nLastBlockFile < n) : (files.switchTo n).ahead.card < files.ahead.card := by
  refine Finset.card_lt_card ⟨fun m hm => ?_, fun hsub => ?_⟩
  · rw [ahead, Finset.mem_filter] at hm ⊢
    exact ⟨hm.1, hlast.trans hm.2⟩
  · have hmem : n ∈ files.ahead := by
      rw [ahead, Finset.mem_filter, List.mem_toFinset, Std.ExtTreeMap.mem_keys]
      exact ⟨hn, hlast⟩
    exact lt_irrefl n (Finset.mem_filter.mp (hsub hmem)).2

/-- The loop ends at a file with room for the block, and it leaves the counters of that file
and of later ones as they were. -/
theorem leaveFull_spec (hsize : nAddSize < MAX_BLOCKFILE_SIZE) :
    ∀ (fuel : ℕ) (files : BlockFiles) (fUpdatedLast : Bool), files.ahead.card + 1 < fuel →
      ∃ files' b, leaveFull nAddSize fuel files fUpdatedLast = some (files', b) ∧
        files'.infoLastBlockFile.nSize + nAddSize < MAX_BLOCKFILE_SIZE ∧
        files.nLastBlockFile ≤ files'.nLastBlockFile ∧
        ∀ n, files'.nLastBlockFile ≤ n → files'.nSize n = files.nSize n
  | 0, _, _, h => absurd h (by omega)
  | fuel + 1, files, fUpdatedLast, h => by
    rw [leaveFull]
    by_cases hfull : files.infoLastBlockFile.nSize + nAddSize ≥ MAX_BLOCKFILE_SIZE
    · rw [if_pos hfull]
      set next := files.switchTo (files.nLastBlockFile + 1) with hnext
      have hkeep : ∀ n, next.nLastBlockFile ≤ n → next.nSize n = files.nSize n := by
        intro n hn
        rw [nSize_switchTo, nSize, if_neg]
        have : files.nLastBlockFile + 1 ≤ n := hn
        omega
      by_cases hmem : files.nLastBlockFile + 1 ∈ files.pblocktree.blockFileInfo
      · have hcard : next.ahead.card < files.ahead.card := ahead_switchTo hmem (Int.lt_succ _)
        obtain ⟨files', b, heq, hroom, hle, hsizes⟩ := leaveFull_spec hsize fuel next true (by omega)
        have hlast : files.nLastBlockFile + 1 ≤ files'.nLastBlockFile := hle
        exact ⟨files', b, heq, hroom, by omega, fun n hn =>
          (hsizes n hn).trans (hkeep n (hle.trans hn))⟩
      · -- a file without a record is empty
        obtain ⟨fuel, rfl⟩ : ∃ m, fuel = m + 1 := ⟨fuel - 1, by omega⟩
        have hempty : next.infoLastBlockFile.nSize = 0 := by
          change (files.pblocktree.readBlockFileInfo _).nSize = 0
          rw [CBlockTreeDB.readBlockFileInfo, Std.ExtTreeMap.getElem?_eq_none hmem]
          rfl
        have hroom : next.infoLastBlockFile.nSize + nAddSize < MAX_BLOCKFILE_SIZE := by
          rw [hempty, UInt32.zero_add]
          exact hsize
        rw [leaveFull, if_neg (UInt32.not_le.mpr hroom)]
        exact ⟨next, true, rfl, hroom, (Int.lt_succ _).le, hkeep⟩
    · rw [if_neg hfull]
      exact ⟨files, fUpdatedLast, rfl, UInt32.not_le.mp hfull, le_rfl, fun _ _ => rfl⟩

/-! ## Known blocks -/

/-- The counters of files, in memory and on disk, are between two bounds. -/
def Within (lo hi : ℤ → ℕ) (files : BlockFiles) : Prop :=
  ∀ n, lo n ≤ (files.nSize n).toNat ∧ (files.nSize n).toNat ≤ hi n ∧
    lo n ≤ (files.pblocktree.readBlockFileInfo n).nSize.toNat ∧
    (files.pblocktree.readBlockFileInfo n).nSize.toNat ≤ hi n

theorem selectPos_known (pos : CDiskBlockPos) (nAddSize : UInt32) {lo hi : ℤ → ℕ}
    (hwithin : Within lo hi files) :
    ∃ files' b, files.selectPos pos nAddSize true = some (pos, files', b) ∧
      files'.nLastBlockFile = pos.nFile ∧ Within lo hi files' := by
  rw [selectPos, if_pos rfl]
  by_cases hlast : files.nLastBlockFile = pos.nFile
  · rw [if_neg (not_not.mpr hlast)]
    exact ⟨files, false, rfl, hlast, hwithin⟩
  · rw [if_pos hlast]
    refine ⟨_, true, rfl, rfl, fun n => ?_⟩
    rw [nSize_switchTo]
    exact ⟨(hwithin n).2.2.1, (hwithin n).2.2.2, (hwithin n).2.2⟩

/-- One value raised. -/
def addAt (bound : ℤ → ℕ) (nFile : ℤ) (a : ℕ) (n : ℤ) : ℕ :=
  if n = nFile then bound n + a else bound n

theorem le_addAt (bound : ℤ → ℕ) (nFile : ℤ) (a : ℕ) (n : ℤ) : bound n ≤ addAt bound nFile a n := by
  rw [addAt]
  split <;> omega

theorem nSize_count_known {lo hi : ℤ → ℕ} (hwithin : Within lo hi files)
    (hmax : hi files.nLastBlockFile + nAddSize.toNat < 2 ^ 32) (n : ℤ) :
    addAt lo files.nLastBlockFile nAddSize.toNat n ≤
        ((files.count nAddSize nHeight nTime).nSize n).toNat ∧
      ((files.count nAddSize nHeight nTime).nSize n).toNat ≤
        addAt hi files.nLastBlockFile nAddSize.toNat n := by
  have hn := hwithin n
  rw [nSize_count, addAt, addAt]
  by_cases h : n = files.nLastBlockFile
  · rw [nSize, if_pos h] at hn
    rw [if_pos h, if_pos h, if_pos h, UInt32.toNat_add, Nat.mod_eq_of_lt (by rw [← h] at hmax; omega)]
    omega
  · rw [if_neg h, if_neg h, if_neg h]
    exact ⟨hn.1, hn.2.1⟩

theorem within_count {lo hi : ℤ → ℕ} (hwithin : Within lo hi files)
    (hmax : hi files.nLastBlockFile + nAddSize.toNat < 2 ^ 32) :
    Within lo (addAt hi files.nLastBlockFile nAddSize.toNat) (files.count nAddSize nHeight nTime) := by
  intro n
  obtain ⟨hlo, hhi⟩ := nSize_count_known nHeight nTime hwithin hmax n
  have hread := (hwithin n).2.2
  exact ⟨(le_addAt _ _ _ _).trans hlo, hhi, hread.1, hread.2.trans (le_addAt _ _ _ _)⟩

theorem within_writeInfo {lo hi : ℤ → ℕ} {fUpdatedLast : Bool} (hwithin : Within lo hi files)
    (hmax : hi files.nLastBlockFile + nAddSize.toNat < 2 ^ 32) :
    Within (addAt lo files.nLastBlockFile nAddSize.toNat)
      (addAt hi files.nLastBlockFile nAddSize.toNat)
      ((files.count nAddSize nHeight nTime).writeInfo fUpdatedLast) := by
  intro n
  have hn := nSize_count_known nHeight nTime hwithin hmax n
  rw [nSize_writeInfo, read_writeInfo]
  refine ⟨hn.1, hn.2, ?_⟩
  by_cases h : n = files.nLastBlockFile
  · rw [nSize, count_nLastBlockFile, if_pos h] at hn
    rw [count_nLastBlockFile, if_pos h]
    exact hn
  · have hread := (hwithin n).2.2
    rw [count_nLastBlockFile, if_neg h, addAt, addAt, if_neg h, if_neg h]
    exact hread

/-- A known block raises the counter of its file, on disk if it can be written. -/
theorem findBlockPos_known {lo hi : ℤ → ℕ} (hwithin : Within lo hi files)
    (hmax : hi pos.nFile + nAddSize.toNat < 2 ^ 32) :
    ∃ files', Within (if disk.fileInfoWritten then addAt lo pos.nFile nAddSize.toNat else lo)
        (addAt hi pos.nFile nAddSize.toNat) files' ∧
      ((disk.fileInfoWritten = true ∧
          files.findBlockPos pos nAddSize nHeight nTime true disk = some (files', .ok pos)) ∨
        (disk.fileInfoWritten = false ∧
          ∃ e, files.findBlockPos pos nAddSize nHeight nTime true disk = some (files', .error e))) := by
  obtain ⟨files₁, b, hselect, hlast, hwithin₁⟩ :=
    selectPos_known pos nAddSize hwithin
  rw [← hlast] at hmax ⊢
  obtain ⟨e, heq, hdisk⟩ | ⟨heq, hdisk⟩ :=
    findBlockPos_cases nHeight nTime disk hselect
  · rw [hdisk rfl]
    exact ⟨_, within_count nHeight nTime hwithin₁ hmax, .inr ⟨rfl, e, heq⟩⟩
  · rw [hdisk]
    exact ⟨_, within_writeInfo nHeight nTime hwithin₁ hmax, .inl ⟨rfl, heq⟩⟩

/-! ## New blocks -/

/-- The counters of the files still to come are at the ends of the ranges there are, and far
enough from overflow. -/
def Covers (ranges : List BlockRange) (files : BlockFiles) : Prop :=
  ∀ n, files.nLastBlockFile ≤ n → (files.nSize n).toNat + (MAX_BLOCK_SIZE + 8) < 2 ^ 32 ∧
    ∀ r ∈ ranges, r.nFile = n → r.last ≤ (files.nSize n).toNat

/-- The bytes of a new block at the end of the last file. -/
def freshRange (files : BlockFiles) (nBlockSize : UInt32) : BlockRange :=
  CDiskBlockPos.freshRange ⟨files.nLastBlockFile, files.infoLastBlockFile.nSize⟩ nBlockSize

theorem toNat_size_add {nBlockSize : UInt32} (hsize : nBlockSize.toNat ≤ MAX_BLOCK_SIZE) :
    (nBlockSize + 8).toNat = nBlockSize.toNat + 8 := by
  rw [MAX_BLOCK_SIZE] at hsize
  rw [UInt32.toNat_add, Nat.mod_eq_of_lt (by change _ + 8 < _; omega)]
  rfl

theorem covers_count {ranges : List BlockRange} {nBlockSize : UInt32} (hcovers : Covers ranges files)
    (hsize : nBlockSize.toNat ≤ MAX_BLOCK_SIZE)
    (hroom : files.infoLastBlockFile.nSize + (nBlockSize + 8) < MAX_BLOCKFILE_SIZE) :
    Covers (ranges ++ [files.freshRange nBlockSize])
      (files.count (nBlockSize + 8) nHeight nTime) := by
  have hmax : MAX_BLOCKFILE_SIZE.toNat = 134217728 := rfl
  have hlast := hcovers files.nLastBlockFile le_rfl
  rw [nSize, if_pos rfl, MAX_BLOCK_SIZE] at hlast
  have hsum : (files.infoLastBlockFile.nSize + (nBlockSize + 8)).toNat =
      files.infoLastBlockFile.nSize.toNat + 8 + nBlockSize.toNat := by
    rw [UInt32.toNat_add, toNat_size_add hsize, Nat.mod_eq_of_lt (by rw [MAX_BLOCK_SIZE] at hsize; omega)]
    omega
  rw [UInt32.lt_iff_toNat_lt, hsum, hmax] at hroom
  intro n hn
  rw [nSize_count]
  rw [count_nLastBlockFile] at hn
  by_cases h : n = files.nLastBlockFile
  · rw [if_pos h, hsum, MAX_BLOCK_SIZE]
    refine ⟨by omega, fun r hr hrn => ?_⟩
    rcases List.mem_append.mp hr with hr | hr
    · have hend := hlast.2 r hr (hrn.trans h)
      omega
    · rw [List.mem_singleton.mp hr]
      exact le_rfl
  · rw [if_neg h]
    refine ⟨(hcovers n hn).1, fun r hr hrn => ?_⟩
    rcases List.mem_append.mp hr with hr | hr
    · exact (hcovers n hn).2 r hr hrn
    · rw [List.mem_singleton.mp hr] at hrn
      exact absurd hrn.symm h

/-- A new block is placed after all ranges in its file. -/
theorem store_fresh {ranges : List BlockRange} {block : StoredBlock} (hcovers : Covers ranges files)
    (hdbp : block.dbp = none) (hsize : block.nBlockSize.toNat ≤ MAX_BLOCK_SIZE) :
    ∃ files' out, files.store block = some (files', out) ∧
      (∀ r ∈ out, ∀ e ∈ ranges, e.Before r) ∧ Covers (ranges ++ out.toList) files' := by
  have hless : block.nBlockSize + 8 < MAX_BLOCKFILE_SIZE := by
    rw [UInt32.lt_iff_toNat_lt, toNat_size_add hsize]
    rw [MAX_BLOCK_SIZE] at hsize
    change _ < 134217728
    omega
  obtain ⟨files₁, b, hleave, hroom, hle, hsizes⟩ :=
    leaveFull_spec hless files.leaveFuel files false card_ahead_lt
  have hcovers₁ : Covers ranges files₁ := fun n hn => by
    rw [hsizes n hn]
    exact hcovers n (hle.trans hn)
  have hselect : files.selectPos ⟨-1, 0⟩ (block.nBlockSize + 8) false =
      some (⟨files₁.nLastBlockFile, files₁.infoLastBlockFile.nSize⟩, files₁, b) := by
    rw [selectPos, if_neg Bool.false_ne_true, hleave]
    rfl
  have hafter := covers_count block.nHeight block.nTime hcovers₁ hsize hroom
  obtain ⟨e, heq, -⟩ | ⟨heq, -⟩ := findBlockPos_cases block.nHeight
    block.nTime block.disk hselect
  · refine ⟨files₁.count (block.nBlockSize + 8) block.nHeight block.nTime, none, ?_, ?_, ?_⟩
    · rw [store, hdbp, Option.getD_none, Option.isSome_none, heq]
      rfl
    · rintro r ⟨⟩
    intro n hn
    obtain ⟨hbound, hends⟩ := hafter n hn
    exact ⟨hbound, fun r hr => hends r (List.mem_append_left _ (by simpa using hr))⟩
  · refine ⟨(files₁.count (block.nBlockSize + 8) block.nHeight block.nTime).writeInfo b,
      some (files₁.freshRange block.nBlockSize), ?_, ?_, fun n hn => ?_⟩
    · rw [store, hdbp, Option.getD_none, Option.isSome_none, heq]
      rfl
    · rintro r hr e he hne
      cases hr
      have hend := (hcovers₁ files₁.nLastBlockFile le_rfl).2 e he hne
      rwa [nSize, if_pos rfl] at hend
    · rw [nSize_writeInfo]
      exact hafter n hn

/-- New blocks are placed one after the other. -/
theorem run_fresh : ∀ {fresh : List StoredBlock} {ranges : List BlockRange} {files : BlockFiles},
    Covers ranges files → (∀ b ∈ fresh, b.dbp = none) →
    (∀ b ∈ fresh, b.nBlockSize.toNat ≤ MAX_BLOCK_SIZE) →
    ∃ files' outs, Machine.run store files fresh = some (files', outs) ∧
      outs.reduceOption.Pairwise BlockRange.Before ∧
      ∀ e ∈ ranges, ∀ r ∈ outs.reduceOption, e.Before r
  | [], _, files, _, _, _ => ⟨files, [], rfl, .nil, fun _ _ _ h => nomatch h⟩
  | block :: fresh, ranges, files, hcovers, hdbp, hsize => by
    rw [List.forall_mem_cons] at hdbp hsize
    obtain ⟨files₁, out, hstore, hbefore, hcovers₁⟩ := store_fresh hcovers hdbp.1 hsize.1
    obtain ⟨files', outs, hrun, hpair, hranges⟩ := run_fresh hcovers₁ hdbp.2 hsize.2
    refine ⟨files', out :: outs, Machine.run_cons_of_eq_some hstore hrun, ?_, fun e he r hr => ?_⟩
    · cases out with
      | none => exact hpair
      | some r =>
        rw [List.reduceOption_cons_of_some]
        exact List.pairwise_cons.mpr ⟨hranges r (List.mem_append_right _ (by simp)), hpair⟩
    · cases out with
      | none => exact hranges e (List.mem_append_left _ he) r hr
      | some r₀ =>
        rw [List.reduceOption_cons_of_some] at hr
        rcases List.mem_cons.mp hr with hr | hr
        · rw [hr]
          exact hbefore r₀ rfl e he
        · exact hranges e (List.mem_append_left _ he) r hr

end BlockFiles

/-! ## Known blocks, and new blocks after them -/

/-- The bytes of a known block. -/
def StoredBlock.knownRange? (block : StoredBlock) : Option BlockRange :=
  block.dbp.map (·.knownRange block.nBlockSize)

/-- The known blocks whose call returns true. -/
def registered (known : List StoredBlock) : List StoredBlock :=
  known.filter (·.disk.fileInfoWritten)

/-- The sizes of known blocks in a file, with their headers. -/
def counted : List StoredBlock → ℤ → ℕ
  | [], _ => 0
  | block :: known, nFile =>
    counted known nFile +
      if block.dbp.any (·.nFile = nFile) then block.nBlockSize.toNat + 8 else 0

/-- No known block ends after the sizes of the known blocks in its file, and these sizes do
not come near to the maximum of the counter. -/
def NoGaps (known : List StoredBlock) : Prop :=
  (∀ r ∈ (registered known).filterMap StoredBlock.knownRange?,
    r.last ≤ counted (registered known) r.nFile) ∧
  ∀ n, counted known n + (MAX_BLOCK_SIZE + 8) < 2 ^ 32

theorem counted_registered_le : ∀ (known : List StoredBlock) (n : ℤ),
    counted (registered known) n ≤ counted known n
  | [], _ => le_rfl
  | block :: known, n => by
    have ih := counted_registered_le known n
    rw [registered, List.filter_cons]
    split
    · rw [counted, counted]
      exact Nat.add_le_add_right ih _
    · rw [counted]
      exact ih.trans (Nat.le_add_right _ _)

theorem addAt_eq_counted {block : StoredBlock} {pos : CDiskBlockPos} (hpos : block.dbp = some pos)
    (hsize : block.nBlockSize.toNat ≤ MAX_BLOCK_SIZE) (bound : ℤ → ℕ) (n : ℤ) :
    BlockFiles.addAt bound pos.nFile (block.nBlockSize + 8).toNat n =
      bound n + counted [block] n := by
  rw [BlockFiles.addAt, BlockFiles.toNat_size_add hsize, counted, counted, hpos, Nat.zero_add]
  by_cases h : n = pos.nFile
  · simp [h]
  · simp [h, Ne.symm h]

theorem counted_append (n : ℤ) : ∀ known known' : List StoredBlock,
    counted (known ++ known') n = counted known n + counted known' n
  | [], known' => (Nat.zero_add _).symm
  | block :: known, known' => by
    rw [List.cons_append, counted, counted, counted_append n known known']
    omega

theorem registered_append (known known' : List StoredBlock) :
    registered (known ++ known') = registered known ++ registered known' := List.filter_append ..

/-- A known block is counted in its file. -/
theorem store_known {lo hi : ℤ → ℕ} {files : BlockFiles} {block : StoredBlock}
    (hwithin : files.Within lo hi) (hdbp : block.dbp.isSome)
    (hsize : block.nBlockSize.toNat ≤ MAX_BLOCK_SIZE) (hmax : ∀ n, hi n + counted [block] n < 2 ^ 32) :
    ∃ files' out, files.store block = some (files', out) ∧
      out.toList = (registered [block]).filterMap StoredBlock.knownRange? ∧
      files'.Within (fun n => lo n + counted (registered [block]) n)
        (fun n => hi n + counted [block] n) := by
  obtain ⟨pos, hpos⟩ := Option.isSome_iff_exists.mp hdbp
  have hlo := funext (addAt_eq_counted hpos hsize lo)
  have hhi := funext (addAt_eq_counted hpos hsize hi)
  have hfile : hi pos.nFile + (block.nBlockSize + 8).toNat < 2 ^ 32 := by
    have h := hmax pos.nFile
    rwa [← addAt_eq_counted hpos hsize, BlockFiles.addAt, if_pos rfl] at h
  obtain ⟨files', hwithin', ⟨hdisk, heq⟩ | ⟨hdisk, e, heq⟩⟩ := BlockFiles.findBlockPos_known
    block.nHeight block.nTime block.disk hwithin hfile
  · have hreg : registered [block] = [block] := by simp [registered, hdisk]
    rw [hdisk, if_pos rfl, hlo, hhi] at hwithin'
    refine ⟨files', some (pos.knownRange block.nBlockSize), ?_, ?_, by rwa [hreg]⟩
    · rw [BlockFiles.store, hpos, Option.getD_some, Option.isSome_some, heq]
      rfl
    · rw [hreg]
      simp [StoredBlock.knownRange?, hpos]
  · have hreg : registered [block] = [] := by simp [registered, hdisk]
    rw [hdisk, if_neg Bool.false_ne_true, hhi] at hwithin'
    refine ⟨files', none, ?_, by rw [hreg]; rfl, by rwa [hreg]⟩
    rw [BlockFiles.store, hpos, Option.getD_some, Option.isSome_some, heq]
    rfl

/-- Known blocks are counted in their files. -/
theorem run_known : ∀ {known : List StoredBlock} {lo hi : ℤ → ℕ} {files : BlockFiles},
    files.Within lo hi → (∀ b ∈ known, b.dbp.isSome) →
    (∀ b ∈ known, b.nBlockSize.toNat ≤ MAX_BLOCK_SIZE) →
    (∀ n, hi n + counted known n < 2 ^ 32) →
    ∃ files' outs, Machine.run BlockFiles.store files known = some (files', outs) ∧
      outs.reduceOption = (registered known).filterMap StoredBlock.knownRange? ∧
      files'.Within (fun n => lo n + counted (registered known) n) (fun n => hi n + counted known n)
  | [], lo, hi, files, hwithin, _, _, _ => ⟨files, [], rfl, rfl, hwithin⟩
  | block :: known, lo, hi, files, hwithin, hdbp, hsize, hmax => by
    rw [List.forall_mem_cons] at hdbp hsize
    rw [← List.singleton_append] at hmax ⊢
    simp only [registered_append, counted_append, List.filterMap_append] at hmax ⊢
    obtain ⟨files₁, out, hstore, hout, hwithin₁⟩ := store_known hwithin hdbp.1 hsize.1 fun n => by
      have h := hmax n
      omega
    obtain ⟨files', outs, hrun, houts, hwithin'⟩ := run_known hwithin₁ hdbp.2 hsize.2 fun n => by
      have h := hmax n
      omega
    refine ⟨files', out :: outs, Machine.run_cons_of_eq_some hstore hrun, ?_, fun n => ?_⟩
    · rw [← hout, ← houts]
      cases out <;> rfl
    · simp only [← Nat.add_assoc]
      exact hwithin' n

/-- Known blocks first, and then new ones : when the known blocks have no gaps between them,
the ranges of all blocks are disjoint, and no new one starts before the end of an earlier one
in the same file. -/
theorem findBlockPos_disjoint (known fresh : List StoredBlock) (hknown : ∀ b ∈ known, b.dbp.isSome)
    (hfresh : ∀ b ∈ fresh, b.dbp = none)
    (hsize : ∀ b ∈ known ++ fresh, b.nBlockSize.toNat ≤ MAX_BLOCK_SIZE)
    (hdisjoint : (known.filterMap StoredBlock.knownRange?).Pairwise BlockRange.Disjoint)
    (hgaps : NoGaps known) :
    ∃ files outs news, Machine.run BlockFiles.store .empty (known ++ fresh) = some (files, outs) ∧
      outs.reduceOption = (registered known).filterMap StoredBlock.knownRange? ++ news ∧
      outs.reduceOption.Pairwise BlockRange.Disjoint ∧ news.Pairwise BlockRange.Before ∧
      ∀ r ∈ (registered known).filterMap StoredBlock.knownRange?, ∀ r' ∈ news, r.Before r' := by
  have hempty : BlockFiles.empty.Within (fun _ => 0) (fun _ => 0) := by
    intro n
    have hread : BlockFiles.empty.pblocktree.readBlockFileInfo n = .null := by
      rw [CBlockTreeDB.readBlockFileInfo, BlockFiles.empty]
      simp
    have hsize : BlockFiles.empty.nSize n = 0 := by
      rw [BlockFiles.nSize, hread]
      split <;> rfl
    rw [hsize, hread]
    exact ⟨le_rfl, le_rfl, le_rfl, le_rfl⟩
  obtain ⟨files₁, ks, hks, hranges, hwithin⟩ := run_known hempty hknown
    (fun b hb => hsize b (List.mem_append_left _ hb)) fun n => by
      have h := hgaps.2 n
      omega
  have hcovers : files₁.Covers ((registered known).filterMap StoredBlock.knownRange?) := by
    intro n _
    obtain ⟨hlo, hhi, -⟩ := hwithin n
    simp only [Nat.zero_add] at hlo hhi
    have hmax := hgaps.2 n
    refine ⟨by omega, fun r hr hrn => ?_⟩
    have hend := hgaps.1 r hr
    rw [hrn] at hend
    exact hend.trans hlo
  obtain ⟨files, outs, hrun, hpair, hafter⟩ := BlockFiles.run_fresh hcovers hfresh
    fun b hb => hsize b (List.mem_append_right _ hb)
  have hall : (ks ++ outs).reduceOption =
      (registered known).filterMap StoredBlock.knownRange? ++ outs.reduceOption := by
    rw [List.reduceOption_append, hranges]
  refine ⟨files, ks ++ outs, outs.reduceOption, ?_, hall, ?_, hpair, hafter⟩
  · rw [Machine.run_append, hks, Option.bind_some, hrun]
    rfl
  · rw [hall, List.pairwise_append]
    refine ⟨?_, hpair.imp fun h heq => .inl (h heq), fun r hr r' hr' heq => ?_⟩
    · exact hdisjoint.sublist (List.filter_sublist.filterMap _)
    · exact .inl (hafter r hr r' hr' heq)

/-- A block of some size at a known place, or a new one, on a disk without faults. -/
def sampleStored (dbp : Option CDiskBlockPos) (nBlockSize : UInt32) : StoredBlock :=
  ⟨dbp, nBlockSize, 1, 1, ⟨true, true⟩⟩

/-- Two known blocks with no bytes between them, and a new block. -/
theorem findBlockPos_disjoint_sample :
    ∃ files outs news, Machine.run BlockFiles.store .empty
        ([sampleStored (some ⟨0, 8⟩) 285, sampleStored (some ⟨0, 301⟩) 215] ++
          [sampleStored none 1000]) = some (files, outs) ∧
      outs.reduceOption = (registered [sampleStored (some ⟨0, 8⟩) 285,
        sampleStored (some ⟨0, 301⟩) 215]).filterMap StoredBlock.knownRange? ++ news ∧
      outs.reduceOption.Pairwise BlockRange.Disjoint ∧ news.Pairwise BlockRange.Before ∧
      ∀ r ∈ (registered [sampleStored (some ⟨0, 8⟩) 285,
        sampleStored (some ⟨0, 301⟩) 215]).filterMap StoredBlock.knownRange?,
        ∀ r' ∈ news, r.Before r' := by
  refine findBlockPos_disjoint _ _ (by decide) (by decide) (by decide) (by decide)
    ⟨by decide, fun n => ?_⟩
  simp only [counted]
  split <;> split <;> decide

/-- Two known blocks with 1000 bytes between them : the new block is stored over the second. -/
theorem findBlockPos_overlaps :
    [sampleStored (some ⟨0, 8⟩) 285, sampleStored (some ⟨0, 1301⟩) 285].filterMap
        StoredBlock.knownRange? = [⟨0, 0, 293⟩, ⟨0, 1293, 1586⟩] ∧
      (Machine.run BlockFiles.store .empty [sampleStored (some ⟨0, 8⟩) 285,
        sampleStored (some ⟨0, 1301⟩) 285, sampleStored none 1000]).map (·.2) =
        some [some ⟨0, 0, 293⟩, some ⟨0, 1293, 1586⟩, some ⟨0, 586, 1594⟩] ∧
      ¬BlockRange.Disjoint ⟨0, 1293, 1586⟩ ⟨0, 586, 1594⟩ := by
  refine ⟨by decide, by rfl, by decide⟩

end Ticoin
