/-
A partition that was formatted and mounted.

`filesys_init` writes the super block, the two bitmaps, the inode table and the root
directory, and then reads the super block and the bitmaps back.  What is then in memory and
on disk is the tree that the path functions start from: the root directory with its own two
entries, and every other inode and block free.
-/
import OsTruth.Fs.BitmapSync
import OsTruth.Fs.DirMade
import OsTruth.Fs.FilesysInit
import OsTruth.Fs.Getcwd
import OsTruth.Fs.OneBlock
import OsTruth.Fs.OpenRuns

namespace OsTruth

open ByteString Fallible

/-! ## The super block -/

namespace SuperBlock

theorem ofBytes_congr {b c : Bytes} (h : ∀ k, k < 52 → b k = c k) : ofBytes b = ofBytes c := by
  have hword : ∀ off, off + 4 ≤ 52 → wordAt b off = wordAt c off := fun off hoff =>
    wordAt_congr fun i hi => h (off + i) (by omega)
  unfold ofBytes
  rw [hword 0 (by omega), hword 4 (by omega), hword 8 (by omega), hword 12 (by omega),
    hword 16 (by omega), hword 20 (by omega), hword 24 (by omega), hword 28 (by omega),
    hword 32 (by omega), hword 36 (by omega), hword 40 (by omega), hword 44 (by omega),
    hword 48 (by omega)]

/-- The super block is read as it was written. -/
theorem ofBytes_bytes (sb : SuperBlock) (pad : Bytes) : ofBytes (sb.bytes pad) = sb := by
  have hword : ∀ j, wordAt (sb.bytes pad) (4 * j) = sb.word pad j := wordAt_ofWords _
  unfold ofBytes
  rw [hword 0, hword 1, hword 2, hword 3, hword 4, hword 5, hword 6, hword 7, hword 8, hword 9,
    hword 10, hword 11, hword 12]
  rfl

end SuperBlock

/-! ## The sectors -/

section

variable {startLba secCnt : UInt32} {sb : SuperBlock} {pad bits disk : Bytes} {k a : Nat}

/-- A run of sectors of the disk can be selected. -/
theorem selectable_run {lba : UInt32} {n : Nat} (hn : 0 < n)
    (hend : lba.toNat + n ≤ maxLba.toNat + 1) : Selectable lba n := by
  have hmax := toNat_maxLba
  refine ⟨hn, fun j hj => ?_⟩
  rw [UInt32.le_iff_toNat_le, UInt32.toNat_add, UInt32.toNat_ofNat']
  omega

variable {s t : State}

/-- What is known of the sizes of a partition that lies on the disk. -/
structure Sized (startLba secCnt : UInt32) (sb : SuperBlock) : Prop where
  places : FormatPlaces startLba sb
  inodeSects : sb.inodeBitmapSects.toNat = 1 ∧ sb.inodeTableSects.toNat = 608
  bits : 0 < (blockBitmapBitLen secCnt).toNat ∧
    sb.blockBitmapSects.toNat = ((blockBitmapBitLen secCnt).toNat + 4096 - 1) / 4096 ∧
    (blockBitmapBitLen secCnt).toNat + 4096 < 512 * 608
  buf : (formatBufSize sb).toNat = 512 * 608
  fits : sb.dataStartLba.toNat + (blockBitmapBitLen secCnt).toNat ≤
    startLba.toNat + secCnt.toNat

theorem sized (hsb : formatSuperBlock startLba secCnt = sb) (hsec : 613 ≤ secCnt.toNat)
    (hend : startLba.toNat + secCnt.toNat ≤ maxLba.toNat + 1) : Sized startLba secCnt sb := by
  have hmax := toNat_maxLba
  have hend' : startLba.toNat + secCnt.toNat ≤ 2 ^ 31 := by omega
  obtain ⟨hlayout, -⟩ := formatSuperBlock_areas hsec hend'
  have hbuf := toNat_formatBufSize hsec hend'
  obtain ⟨-, hfree, -, hrough, ⟨-, hbits⟩, -, hsects⟩ : SizesExact startLba secCnt :=
    sizesExact hsec hend'
  rw [hsb] at hlayout hbuf hsects
  obtain ⟨-, hbb, hib, hit, hdata, hblock, -, -, hfits⟩ := hlayout
  have hone : sb.inodeBitmapSects.toNat = 1 := by
    rw [← hsb]
    rfl
  have htab : sb.inodeTableSects.toNat = 608 := by
    rw [← hsb]
    rfl
  have hsuper : (startLba + 1).toNat = startLba.toNat + 1 := by
    rw [UInt32.toNat_add]
    show (startLba.toNat + 1) % 2 ^ 32 = _
    omega
  refine ⟨⟨by omega, by omega, hib, by omega, by omega⟩, ⟨hone, htab⟩,
    ⟨hblock.1, hsects, by omega⟩, ?_, hfits⟩
  rw [hbuf, Nat.max_eq_right (by omega)]

def State.formattedDisk (s : State) (pad : Bytes) : Bytes :=
  OsTruth.formattedDisk (formatSuperBlock s.part.startLba s.part.secCnt) (s.part.startLba + 1) pad
    (formatBytes (blockBitmapBitLen s.part.secCnt).toNat) s.disk

/-- The partition as its super block and the sectors of its bitmaps describe it. -/
def mountedPart (part : Partition) (disk : Bytes) : Partition :=
  let sb := SuperBlock.ofBytes (view disk (sectorOff (part.startLba + 1)))
  { part with
    sb := sb
    blockBitmap := loadedBitmap sb disk .blockBitmap
    inodeBitmap := loadedBitmap sb disk .inodeBitmap
    openInodes := [] }

/-- The state after `n` blocks were allocated as buffers. -/
def State.withBufs (s : State) : Nat → State
  | 0 => s
  | n + 1 => (s.withBufs n).withBuf

theorem State.withBufs_inodes (s : State) (n : Nat) : (s.withBufs n).inodes = s.inodes := by
  induction n with
  | zero => rfl
  | succ n ih => exact ih

theorem State.withBufs_disk (s : State) (n : Nat) : (s.withBufs n).disk = s.disk := by
  induction n with
  | zero => rfl
  | succ n ih => exact ih

def State.mounted (s : State) : State := { s.withBufs 4 with part := mountedPart s.part s.disk }

/-- The state after `open_root_dir` and the loop over the file table. -/
def State.rooted (s : State) : State :=
  { s.loaded 0 with
    rootDir := { s.rootDir with inode := some ⟨false, s.next⟩, dirPos := 0 }
    fileTable := fun k =>
      if k < maxFileOpen then { s.fileTable k with fdInode := none } else s.fileTable k }

/-- The state at the end of `filesys_init`. -/
def State.booted (s : State) : State := s.mounted.rooted

/-- Nothing of a file system is in memory. -/
structure State.BeforeBoot (s : State) : Prop where
  inodes : ∀ p, s.inodes p = none
  dirs : ∀ q, s.dirs q = none

theorem rooted_inodes (s : State) (p : Ptr) : s.rooted.inodes p =
    if p = ⟨false, s.next⟩ then some { readSlot s.part s.disk 0 with iOpenCnts := 1 }
    else s.inodes p :=
  rfl

theorem booted_inodes (hs : s.BeforeBoot) (p : Ptr) : s.booted.inodes p =
    if p = ⟨false, s.mounted.next⟩ then
      some { readSlot s.mounted.part s.disk 0 with iOpenCnts := 1 }
    else none := by
  have hinodes : s.mounted.inodes p = none :=
    (congrFun (s.withBufs_inodes 4) p).trans (hs.inodes p)
  have hdisk : s.mounted.disk = s.disk := s.withBufs_disk 4
  unfold State.booted
  rw [rooted_inodes, hinodes, hdisk]

/-- The super block that is read back is the one that was written. -/
theorem mountedPart_sb (part : Partition) (disk pad : Bytes)
    (h : ∀ k, k < 512 → disk (sectorOff (part.startLba + 1) + k) =
      (formatSuperBlock part.startLba part.secCnt).bytes pad k) :
    (mountedPart part disk).sb = formatSuperBlock part.startLba part.secCnt := by
  have hbytes : (mountedPart part disk).sb = SuperBlock.ofBytes
      ((formatSuperBlock part.startLba part.secCnt).bytes pad) :=
    SuperBlock.ofBytes_congr fun k hk => h k (by omega)
  rw [hbytes, SuperBlock.ofBytes_bytes]

/-- The disk holds what `partition_format` writes. -/
structure State.JustFormatted (s : State) (sb : SuperBlock) : Prop where
  eq : formatSuperBlock s.part.startLba s.part.secCnt = sb
  super : ∃ pad, ∀ k, k < 512 →
    s.disk (sectorOff (s.part.startLba + 1) + k) = sb.bytes pad k
  blockBitmap : ∀ k, k < 512 * sb.blockBitmapSects.toNat →
    s.disk (sectorOff sb.blockBitmapLba + k) =
      formatBytes (blockBitmapBitLen s.part.secCnt).toNat k
  inodeBitmap : ∀ k, k < 512 → s.disk (sectorOff sb.inodeBitmapLba + k) = formatInodeBitmap k
  inodeTable : ∀ k, k < 512 * 608 →
    s.disk (sectorOff sb.inodeTableLba + k) = formatInodeTable sb k
  root : ∀ k, k < 512 → s.disk (sectorOff sb.dataStartLba + k) = dotEntries 0 0 k

namespace State.JustFormatted

theorem sb_eq (h : s.JustFormatted sb) : (mountedPart s.part s.disk).sb = sb := by
  obtain ⟨pad, hpad⟩ := h.super
  rw [← h.eq] at hpad ⊢
  exact mountedPart_sb s.part s.disk pad hpad

theorem mounted (h : s.JustFormatted sb) (hz : Sized s.part.startLba s.part.secCnt sb)
    (hend : s.part.startLba.toNat + s.part.secCnt.toNat ≤ maxLba.toNat + 1) :
    (mountedPart s.part s.disk).Mounted := by
  obtain ⟨⟨hsuper, hbb, hib, hit, hdata⟩, ⟨hone, htab⟩, ⟨hpos, hsects, hsmall⟩, -, hfits⟩ := hz
  have hmax := toNat_maxLba
  have hsb := h.sb_eq
  have hstart : (s.part.startLba + 1).toNat = s.part.startLba.toNat + 1 := by
    rw [UInt32.toNat_add] at hsuper ⊢
    have h1 : (1 : UInt32).toNat = 1 := rfl
    have hlow := s.part.startLba.toNat_lt
    omega
  have hsize : (sb.blockBitmapSects * 512).toNat = 512 * sb.blockBitmapSects.toNat := by
    rw [UInt32.toNat_mul]
    show sb.blockBitmapSects.toNat * 512 % 2 ^ 32 = _
    omega
  refine ⟨?_, ?_, ?_, ?_, ?_, ?_, ?_, ?_, ?_, hend, ?_⟩
  · rw [hsb]
    show _ = s.part.startLba.toNat + 2
    omega
  · rw [hsb, hib]
  · rw [hsb, hit]
  · rw [hsb, hdata]
  · rw [hsb]
    exact UInt32.toNat_inj.mp hone
  · rw [hsb]
    omega
  · rw [hsb, ← hsize, ← hsb]
    rfl
  · show (SuperBlock.inodeBitmapSects (mountedPart s.part s.disk).sb * 512).toNat = 512
    rw [hsb, UInt32.toNat_mul, hone]
    rfl
  · rw [hsb]
    show _ < s.part.startLba.toNat + s.part.secCnt.toNat
    omega
  · rw [hsb, ← h.eq]
    rfl

/-- The root directory's inode is read as it was written. -/
theorem readSlot_root (h : s.JustFormatted sb) (hm : (mountedPart s.part s.disk).Mounted) :
    readSlot (mountedPart s.part s.disk) s.disk 0 = rootInode sb := by
  rw [readSlot_eq hm (by decide)]
  refine (Inode.ofBytes_eq_iff (show (0 : Nat) < 2 ^ 32 by decide)).mpr fun k hk => ?_
  have hk76 : k < 76 := hk
  unfold slotOff
  rw [h.sb_eq]
  show s.disk (sectorOff sb.inodeTableLba + 0 + k) = _
  rw [Nat.add_zero, h.inodeTable k (by omega), formatInodeTable, splice_inside (Nat.zero_le k) hk]
  rfl

theorem oneBlock (h : s.JustFormatted sb) (hs : s.BeforeBoot)
    (hz : Sized s.part.startLba s.part.secCnt sb)
    (hm : (mountedPart s.part s.disk).Mounted) :
    s.booted.OneBlock 0 sb.dataStartLba (dotSlot 0 0) where
  inode := by
    have hi := booted_inodes hs ⟨false, s.mounted.next⟩
    have hroot : readSlot s.mounted.part s.disk 0 = rootInode sb := h.readSlot_root hm
    rw [if_pos rfl, hroot] at hi
    refine ⟨{ rootInode sb with iOpenCnts := 1 }, ?_, rfl, fun k => ?_⟩
    · have hfirst : firstOpen s.booted.inodes 0 s.booted.part.openInodes =
          .ok (some ⟨false, s.mounted.next⟩) := by
        show firstOpen s.booted.inodes 0 [⟨false, s.mounted.next⟩] = _
        rw [firstOpen, hi]
        rfl
      unfold State.inodeNamed
      rw [hfirst]
      exact hi
    · show (Inode.setSector _ 0 sb.dataStartLba).sector k = _
      rw [Inode.sector_setSector _ (by decide)]
      by_cases hk : k = 0
      · rw [if_pos hk, if_pos hk]
      · rw [if_neg hk, if_neg hk]
        unfold Inode.sector
        split
        · rfl
        · rfl
  slot j hj := by
    have hdisk : s.booted.disk = s.disk := s.withBufs_disk 4
    rw [hdisk]
    exact blockSlot_dots h.root hj
  lba := by
    obtain ⟨⟨-, hbb, hib, hit, hdata⟩, -, ⟨hpos, -, -⟩, -, hfits⟩ := hz
    have hin := hm.inDisk
    have hstart : (mountedPart s.part s.disk).startLba.toNat = s.part.startLba.toNat := rfl
    have hsec : (mountedPart s.part s.disk).secCnt.toNat = s.part.secCnt.toNat := rfl
    refine ⟨fun hzero => ?_, selectable_run Nat.one_pos (by omega)⟩
    rw [hzero] at hdata
    have h0 : (0 : UInt32).toNat = 0 := rfl
    omega

end State.JustFormatted

/-- A file system with nothing in it: the root directory has its own two entries, and its inode and
its block are the ones in use.  The bits behind bit `block_bitmap_bit_len` are set as well, and in a
partition of fewer than 8 blocks the bit of the root's block is not. -/
structure State.NewFilesystem (s : State) : Prop where
  searchable : s.Searchable
  atBoot : s.AtBoot
  tree : s.DirTree
  directory : ∀ n, s.IsDirectory n → n = 0
  entry : ∀ name e, name ≠ [] → (s.HasEntry 0 name e ↔
    name = [dot] ∧ e = dotEntry 0 ∨ name = [dot, dot] ∧ e = dotDotEntry 0)
  inodeBit : ∀ i, i < 4096 → s.part.inodeBitmap.bit i = decide (i = 0)
  blockBit : ∀ i, i < 4096 * s.part.sb.blockBitmapSects.toNat → s.part.blockBitmap.bit i =
    decide (i = 0 ∧ 8 ≤ (blockBitmapBitLen s.part.secCnt).toNat ∨
      (blockBitmapBitLen s.part.secCnt).toNat < i)
  loaded : s.part.inodeBitmap = loadedBitmap s.part.sb s.disk .inodeBitmap ∧
    s.part.blockBitmap = loadedBitmap s.part.sb s.disk .blockBitmap

end

end OsTruth
