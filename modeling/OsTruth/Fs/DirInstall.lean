/-
What is in a directory after `sync_dir_entry`: for each of the three places, the slots
and the block map on the disk that is left behind, and from them when the function
keeps its promise.
-/
import OsTruth.Fs.DirSync

namespace OsTruth

open ByteString Fallible

variable {s : State}

/-! ## The directory afterwards -/

section

variable {e : DirEntry} {i : Inode} {k j : Nat} {lba : UInt32}

theorem slotPlace_in_block (lba : UInt32) (hj : j < dirEntrysPerSec) :
    sectorOff lba ≤ slotPlace lba j ∧ slotPlace lba j + dirEntrySize ≤ sectorOff lba + 512 := by
  have hper : dirEntrysPerSec = 21 := rfl
  unfold slotPlace dirEntrySize
  omega

/-- A slot that was written leaves every other block as it is. -/
theorem sameBlock_slot (disk : Bytes) (x : Bytes) {lba' : UInt32} (hj : j < dirEntrysPerSec)
    (h : lba' ≠ lba) : SameBlock disk (splice disk (slotPlace lba j) dirEntrySize x) lba' := by
  obtain ⟨h₁, h₂⟩ := slotPlace_in_block lba hj
  refine sameBlock_splice ?_
  rcases sectorOff_ne h with h' | h'
  · right
    omega
  · left
    omega

theorem blockSlot_splice_same (disk : Bytes) (e : DirEntry) (lba : UInt32) (j : Nat) :
    blockSlot (splice disk (slotPlace lba j) dirEntrySize e.bytes) lba j = e :=
  blockSlot_of_bytes fun _ hk => splice_at hk

theorem blockSlot_splice_other (disk x : Bytes) (lba : UInt32) {j' : Nat} (h : j' ≠ j) :
    blockSlot (splice disk (slotPlace lba j) dirEntrySize x) lba j' = blockSlot disk lba j' := by
  refine blockSlot_congr (fun k hk => splice_outside ?_)
  unfold slotPlace dirEntrySize at *
  omega

/-- The entry went into a free slot of a direct block. -/
theorem installed_hole (hok : BlockMapOk s.part s.disk i) (hk : k < 12) (hne : i.sector k ≠ 0)
    (hfree : freeIn s.disk (i.sector k) = some j) :
    Installed s.disk (splice s.disk (slotPlace (i.sector k) j) dirEntrySize e.bytes) i i.grown
        e k j ∧
      KeepsLive s.disk (splice s.disk (slotPlace (i.sector k) j) dirEntrySize e.bytes) i i.grown
        k j ∧
      ∀ n, allBlocksOf (splice s.disk (slotPlace (i.sector k) j) dirEntrySize e.bytes) i.grown n =
        allBlocksOf s.disk i n := by
  obtain ⟨-, hj, htype⟩ := freeSlot_some hfree
  rw [Nat.zero_add] at hj
  have hblockk : allBlocksOf s.disk i k = i.sector k := allBlocksOf_direct _ _ hk
  have hmap : ∀ n, allBlocksOf (splice s.disk (slotPlace (i.sector k) j) dirEntrySize e.bytes)
      i.grown n = allBlocksOf s.disk i n := by
    intro n
    refine allBlocksOf_congr (fun _ => rfl) rfl (fun htable => ?_)
    refine sameBlock_slot _ _ hj fun h => ?_
    exact hok.table k (by omega) htable (by rw [hblockk, h])
  have hother : ∀ n m, n < 140 → m < dirEntrysPerSec → ¬(n = k ∧ m = j) →
      allBlocksOf s.disk i n ≠ 0 →
        blockSlot (splice s.disk (slotPlace (i.sector k) j) dirEntrySize e.bytes)
          (allBlocksOf s.disk i n) m = blockSlot s.disk (allBlocksOf s.disk i n) m := by
    intro n m hn hm hpos hn0
    by_cases hnk : n = k
    · rw [hnk, hblockk]
      exact blockSlot_splice_other _ _ _ (fun h => hpos ⟨hnk, h⟩)
    · refine SameBlock.blockSlot (sameBlock_slot _ _ hj fun h => hnk ?_) hm
      exact hok.inj n k hn (by omega) hn0 (by rw [h, hblockk])
  refine ⟨⟨⟨by omega, hj⟩, by rwa [hmap, hblockk], ?_, ?_⟩, ?_, hmap⟩
  · rw [hmap, hblockk]
    exact blockSlot_splice_same _ _ _ _
  · intro n m hn hm hpos hn0
    rw [hmap] at hn0 ⊢
    exact Or.inr ⟨rfl, hother n m hn hm hpos hn0⟩
  · intro n m hlive
    have hpos : ¬(n = k ∧ m = j) := by
      rintro ⟨rfl, rfl⟩
      have h := hlive.2.2.2
      rw [hblockk] at h
      exact h htype
    exact ⟨hpos, hmap n, hother n m hlive.1 hlive.2.1 hpos hlive.2.2.1⟩

/-- The slots of a block that holds only one entry. -/
theorem blockSlot_entryBlock (disk : Bytes) (e : DirEntry) (lba : UInt32)
    (hj : j < dirEntrysPerSec) :
    blockSlot (splice disk (sectorOff lba) 512 (entryBlock e)) lba j =
      if j = 0 then e else .zero := by
  have hper : dirEntrysPerSec = 21 := rfl
  have hread : blockSlot (splice disk (sectorOff lba) 512 (entryBlock e)) lba j =
      DirEntry.ofBytes (entryBlock e) (dirEntrySize * j) := by
    refine DirEntry.ofBytes_congr (fun k hk => ?_)
    unfold dirEntrySize at *
    rw [view, splice_inside (by omega) (by omega)]
    exact congrArg (entryBlock e) (by omega)
  rw [hread]
  by_cases h : j = 0
  · rw [if_pos h, h, ← DirEntry.ofBytes_bytes e]
    refine DirEntry.ofBytes_congr (fun k hk => ?_)
    rw [DirEntry.ofBytes_bytes e, Nat.mul_zero, Nat.zero_add, entryBlock,
      splice_inside (Nat.zero_le k) (by omega), Nat.sub_zero]
  · rw [if_neg h]
    have hzero : DirEntry.ofBytes (fun _ => 0) 0 = .zero := rfl
    rw [← hzero]
    refine DirEntry.ofBytes_congr (fun k hk => splice_outside ?_)
    unfold dirEntrySize at *
    omega

variable {b c : Nat}

/-- The disk and the inode after the entry went into a new direct block. -/
def directDisk (s : State) (b : Nat) (e : DirEntry) : Bytes :=
  splice (s.takeBlock b).disk (sectorOff (blockAddr s.part b)) 512 (entryBlock e)

def directInode (s : State) (i : Inode) (k b : Nat) : Inode :=
  (i.setSector k (blockAddr s.part b)).grown

theorem directDisk_sameBlock (hm : s.part.Mounted) (hb : s.part.blockBitmap.FirstClear b)
    (h : UsedBlock s.part lba) : SameBlock s.disk (directDisk s b e) lba :=
  (takeBlock_sameBlock hm hb.1 (h.ge_data hm)).trans
    (sameBlock_splice_block (h.ne_fresh hm hb).symm)

theorem blockAddr_pos (hm : s.part.Mounted) (hb : b < 8 * s.part.blockBitmap.btmpBytesLen) :
    blockAddr s.part b ≠ 0 := by
  intro h
  have haddr := (toNat_blockAddr hm hb).1
  have hdata := hm.dataStartLba
  rw [h] at haddr
  have h0 : (0 : UInt32).toNat = 0 := rfl
  omega

/-- The entry went into a new direct block. -/
theorem installed_direct (hm : s.part.Mounted) (hok : BlockMapOk s.part s.disk i) (hk : k < 12)
    (hz : i.sector k = 0) (hb : s.part.blockBitmap.FirstClear b) :
    Installed s.disk (directDisk s b e) i (directInode s i k b) e k 0 ∧
      KeepsLive s.disk (directDisk s b e) i (directInode s i k b) k 0 ∧
      (∀ n, allBlocksOf (directDisk s b e) (directInode s i k b) n =
        if n = k then blockAddr s.part b else allBlocksOf s.disk i n) ∧
      (directInode s i k b).sector 12 = i.sector 12 := by
  have hsector : ∀ n, (directInode s i k b).sector n =
      if n = k then blockAddr s.part b else i.sector n :=
    fun n => Inode.sector_setSector i (by omega) _ n
  have h12 : (directInode s i k b).sector 12 = i.sector 12 := by
    rw [hsector, if_neg (by omega)]
  have hmap : ∀ n, allBlocksOf (directDisk s b e) (directInode s i k b) n =
      if n = k then blockAddr s.part b else allBlocksOf s.disk i n := by
    intro n
    by_cases hn : n = k
    · rw [if_pos hn, hn, allBlocksOf_direct _ _ hk, hsector, if_pos rfl]
    · rw [if_neg hn]
      refine allBlocksOf_congr (fun _ => by rw [hsector, if_neg hn]) h12 (fun htable => ?_)
      exact directDisk_sameBlock hm hb (hok.used _ ⟨htable, Or.inl rfl⟩)
  have hold : allBlocksOf s.disk i k = 0 := by rw [allBlocksOf_direct _ _ hk, hz]
  have hother : ∀ n m, n < 140 → m < dirEntrysPerSec → allBlocksOf s.disk i n ≠ 0 →
      blockSlot (directDisk s b e) (allBlocksOf s.disk i n) m =
        blockSlot s.disk (allBlocksOf s.disk i n) m := by
    intro n m hn hm' hn0
    exact (directDisk_sameBlock hm hb (hok.used _ ⟨hn0, Or.inr ⟨n, hn, rfl⟩⟩)).blockSlot hm'
  refine ⟨⟨⟨by omega, by decide⟩, ?_, ?_, ?_⟩, ?_, hmap, h12⟩
  · rw [hmap, if_pos rfl]
    exact blockAddr_pos hm hb.1
  · rw [hmap, if_pos rfl]
    exact (blockSlot_entryBlock _ _ _ (by decide)).trans (if_pos rfl)
  · intro n m hn hm' hpos hn0
    by_cases hnk : n = k
    · left
      rw [hnk, hmap, if_pos rfl]
      exact (blockSlot_entryBlock _ _ _ hm').trans (if_neg fun h => hpos ⟨hnk, h⟩)
    · right
      rw [hmap, if_neg hnk] at hn0 ⊢
      exact ⟨rfl, hother n m hn hm' hn0⟩
  · intro n m hlive
    have hnk : n ≠ k := by
      rintro rfl
      exact hlive.2.2.1 hold
    refine ⟨fun h => hnk h.1, ?_, hother n m hlive.1 hlive.2.1 hlive.2.2.1⟩
    rw [hmap, if_neg hnk]

/-- The disk and the inode after the entry went into the first block of a new table. -/
def tableDisk (s : State) (i : Inode) (b c : Nat) (e : DirEntry) : Bytes :=
  splice (splice ((s.takeBlock b).takeBlock c).disk (sectorOff (blockAddr s.part b)) 512
    (newTable (directBlocks i) (blockAddr s.part c))) (sectorOff (blockAddr s.part c)) 512
      (entryBlock e)

def tableInode (s : State) (i : Inode) (b : Nat) : Inode :=
  (i.setSector 12 (blockAddr s.part b)).grown

/-- The second block that is taken was clear before, and is not the first. -/
theorem firstClear_second (hc : (s.takeBlock b).part.blockBitmap.FirstClear c) :
    c ≠ b ∧ s.part.blockBitmap.bit c = false ∧ c < 8 * s.part.blockBitmap.btmpBytesLen := by
  have hbit : (s.part.blockBitmap.set b true).bit c = false := hc.2.1
  rw [Bitmap.bit_set] at hbit
  by_cases h : c = b
  · rw [if_pos h] at hbit
    exact absurd hbit (by decide)
  · rw [if_neg h] at hbit
    exact ⟨h, hbit, hc.1⟩

theorem tableDisk_sameBlock (hm : s.part.Mounted) (hb : s.part.blockBitmap.FirstClear b)
    (hc : (s.takeBlock b).part.blockBitmap.FirstClear c) (h : UsedBlock s.part lba) :
    SameBlock s.disk (tableDisk s i b c e) lba := by
  have hm' := State.takeBlock_mounted hm b
  have h' : UsedBlock (s.takeBlock b).part lba := h.takeBlock
  refine (takeBlock_sameBlock hm hb.1 (h.ge_data hm)).trans ?_
  refine (takeBlock_sameBlock hm' hc.1 (h'.ge_data hm')).trans ?_
  exact (sameBlock_splice_block (x := newTable (directBlocks i) (blockAddr s.part c))
    (h.ne_fresh hm hb).symm).trans (sameBlock_splice_block (h'.ne_fresh hm' hc).symm)

theorem wordAt_newTable (allBlocks : BlockArray) (lba : UInt32) (n : Nat) :
    wordAt (newTable allBlocks lba) (4 * n) = if n = 0 then lba else allBlocks (12 + n) :=
  wordAt_ofWords _ n

/-- The table that was written is on disk. -/
theorem tableDisk_wordAt (hne : blockAddr s.part c ≠ blockAddr s.part b) {m : Nat} (hm : m < 128) :
    wordAt (tableDisk s i b c e) (sectorOff (blockAddr s.part b) + 4 * m) =
      wordAt (newTable (directBlocks i) (blockAddr s.part c)) (4 * m) := by
  have hsame : SameBlock _ (tableDisk s i b c e) (blockAddr s.part b) :=
    sameBlock_splice_block hne
  have hlen : 4 * m + 4 ≤ 512 := by omega
  rw [← wordAt_splice_inside (b := ((s.takeBlock b).takeBlock c).disk)
    (sectorOff (blockAddr s.part b)) hlen]
  refine wordAt_congr (fun a ha => ?_)
  rw [Nat.add_assoc]
  exact hsame _ (by omega)

/-- The block map with a new table: the direct blocks, the block with the entry, and
nothing behind it. -/
theorem tableDisk_blocks (hm : s.part.Mounted) (hb : s.part.blockBitmap.FirstClear b)
    (hc : (s.takeBlock b).part.blockBitmap.FirstClear c) {n : Nat} (hn : n < 140) :
    allBlocksOf (tableDisk s i b c e) (tableInode s i b) n =
      if n < 12 then i.sector n else if n = 12 then blockAddr s.part c else 0 := by
  obtain ⟨hcb, -, hclt⟩ := firstClear_second hc
  have hsector : ∀ n, (tableInode s i b).sector n =
      if n = 12 then blockAddr s.part b else i.sector n :=
    fun n => Inode.sector_setSector i (by omega) _ n
  by_cases hlow : n < 12
  · rw [if_pos hlow, allBlocksOf_direct _ _ hlow, hsector, if_neg (by omega)]
  · have h12 : (tableInode s i b).sector 12 = blockAddr s.part b := by
      rw [hsector, if_pos rfl]
    have hne : blockAddr s.part c ≠ blockAddr s.part b :=
      fun h => hcb (blockAddr_inj hm hclt hb.1 h)
    rw [if_neg hlow, allBlocksOf_table _ (by omega) hn (by rw [h12]; exact blockAddr_pos hm hb.1),
      h12, tableDisk_wordAt hne (by omega), wordAt_newTable]
    by_cases hn12 : n = 12
    · rw [if_pos hn12, if_pos (by omega)]
    · rw [if_neg hn12, if_neg (by omega)]
      exact directBlocks_ge i (by omega)

/-- A new table leaves the direct blocks and what is in them. -/
theorem tableDisk_direct (hm : s.part.Mounted) (hok : BlockMapOk s.part s.disk i)
    (hb : s.part.blockBitmap.FirstClear b) (hc : (s.takeBlock b).part.blockBitmap.FirstClear c)
    {n m : Nat} (hn : n < 12) (hm' : m < dirEntrysPerSec) (hn0 : i.sector n ≠ 0) :
    allBlocksOf (tableDisk s i b c e) (tableInode s i b) n = allBlocksOf s.disk i n ∧
      blockSlot (tableDisk s i b c e) (allBlocksOf s.disk i n) m =
        blockSlot s.disk (allBlocksOf s.disk i n) m := by
  have hold : allBlocksOf s.disk i n = i.sector n := allBlocksOf_direct _ _ hn
  refine ⟨?_, ?_⟩
  · rw [tableDisk_blocks hm hb hc (by omega), if_pos hn, hold]
  · refine (tableDisk_sameBlock hm hb hc (hok.used _ ⟨?_, Or.inr ⟨n, by omega, rfl⟩⟩)).blockSlot hm'
    rwa [hold]

/-- The entry went into the first block of a new table.  Nothing is lost when there was
no table before. -/
theorem installed_table (hm : s.part.Mounted) (hok : BlockMapOk s.part s.disk i)
    (hb : s.part.blockBitmap.FirstClear b)
    (hc : (s.takeBlock b).part.blockBitmap.FirstClear c) :
    Installed s.disk (tableDisk s i b c e) i (tableInode s i b) e 12 0 ∧
      (i.sector 12 = 0 → KeepsLive s.disk (tableDisk s i b c e) i (tableInode s i b) 12 0) := by
  obtain ⟨-, -, hclt⟩ := firstClear_second hc
  have hblock : allBlocksOf (tableDisk s i b c e) (tableInode s i b) 12 = blockAddr s.part c := by
    rw [tableDisk_blocks hm hb hc (by omega), if_neg (by omega), if_pos rfl]
  refine ⟨⟨⟨by omega, by decide⟩, ?_, ?_, ?_⟩, ?_⟩
  · rw [hblock]
    exact blockAddr_pos hm hclt
  · rw [hblock]
    exact (blockSlot_entryBlock _ _ _ (by decide)).trans (if_pos rfl)
  · intro n m hn hm' hpos hn0
    by_cases hlow : n < 12
    · right
      have hn0' : i.sector n ≠ 0 := by
        rwa [tableDisk_blocks hm hb hc hn, if_pos hlow] at hn0
      obtain ⟨hsame, hslot⟩ := tableDisk_direct (e := e) hm hok hb hc hlow hm' hn0'
      rw [hsame]
      exact ⟨rfl, hslot⟩
    · by_cases hn12 : n = 12
      · left
        rw [hn12, hblock]
        exact (blockSlot_entryBlock _ _ _ hm').trans (if_neg fun h => hpos ⟨hn12, h⟩)
      · rw [tableDisk_blocks hm hb hc hn, if_neg hlow, if_neg hn12] at hn0
        exact absurd rfl hn0
  · intro hz n m hlive
    have hlow : n < 12 := by
      by_contra h
      exact hlive.2.2.1 (allBlocksOf_no_table _ (by omega) hz)
    have hn0 : i.sector n ≠ 0 := by
      have h := hlive.2.2.1
      rwa [allBlocksOf_direct _ _ hlow] at h
    exact ⟨fun h => absurd h.1 (by omega), tableDisk_direct hm hok hb hc hlow hlive.2.1 hn0⟩

end

/-! ## The promise -/

section

variable {p : Ptr} {d : DirPtr} {e : DirEntry} {i : Inode} {ioBuf : Buf} {k : Nat}

/-- What `sync_dir_entry` promises for `true`, about the directory whose inode is at `p`
and was `i`. -/
def EntryAdded (s t : State) (p : Ptr) (i : Inode) (e : DirEntry) : Prop :=
  ∃ j, t.inodes p = some j ∧ j.iSize = i.iSize + s.part.sb.dirEntrySize ∧
    (∀ x, Live t.disk j x ↔ Live s.disk i x ∨ x = e) ∧
    (∀ lba, References s.disk i lba → References t.disk j lba) ∧
    ∀ b, t.part.blockBitmap.bit b = true → s.part.blockBitmap.bit b = false →
      References t.disk j (blockAddr s.part b)

/-- Two blocks are free, and every free block is on the disk. -/
structure EnoughFree (part : Partition) : Prop where
  two : ∃ b c, b < c ∧ c < 8 * part.blockBitmap.btmpBytesLen ∧
    part.blockBitmap.bit b = false ∧ part.blockBitmap.bit c = false
  onDisk : ∀ b, b < 8 * part.blockBitmap.btmpBytesLen → part.blockBitmap.bit b = false →
    Selectable (blockAddr part b) 1

/-- There is a free slot in a direct block, or a direct block that is missing. -/
def DirectPlace (disk : Bytes) (i : Inode) : Prop :=
  ∃ k, k < 12 ∧ (i.sector k = 0 ∨
    ∃ j, j < dirEntrysPerSec ∧ (blockSlot disk (i.sector k) j).fType = 0)

theorem References.of_blocks {disk disk' : Bytes} {i i' : Inode} {lba : UInt32}
    (htable : i.sector 12 ≠ 0 → i'.sector 12 = i.sector 12)
    (hblocks : ∀ n, n < 140 → allBlocksOf disk i n ≠ 0 →
      allBlocksOf disk' i' n = allBlocksOf disk i n) (h : References disk i lba) :
    References disk' i' lba := by
  obtain ⟨hne, h₁ | ⟨n, hn, h₂⟩⟩ := h
  · exact ⟨hne, Or.inl (by rw [h₁, htable (by rwa [← h₁])])⟩
  · exact ⟨hne, Or.inr ⟨n, hn, by rw [hblocks n hn (by rwa [h₂]), h₂]⟩⟩

theorem iSize_grown (hm : s.part.Mounted) (i : Inode) :
    i.grown.iSize = i.iSize + s.part.sb.dirEntrySize := by
  rw [entrySize_eq hm]
  rfl

theorem entryAdded_hole {j : Nat} (hm : s.part.Mounted) (hok : BlockMapOk s.part s.disk i)
    (he : e.fType ≠ 0) (hk : k < 12) (hne : i.sector k ≠ 0)
    (hfree : freeIn s.disk (i.sector k) = some j) :
    EntryAdded s ((s.store (slotPlace (i.sector k) j) dirEntrySize e.bytes).putInode p
      (some i.grown)) p i e := by
  obtain ⟨hinst, hkeep, hmap⟩ := installed_hole (e := e) hok hk hne hfree
  refine ⟨i.grown, State.putInode_same .., iSize_grown hm i, hinst.live_iff hkeep he, ?_, ?_⟩
  · exact fun lba h => h.of_blocks (fun _ => rfl) (fun n _ _ => hmap n)
  · intro b h₁ h₂
    have h : s.part.blockBitmap.bit b = true := h₁
    rw [h₂] at h
    exact absurd h Bool.false_ne_true

theorem entryAdded_direct {b : Nat} (hm : s.part.Mounted) (hok : BlockMapOk s.part s.disk i)
    (he : e.fType ≠ 0) (hk : k < 12) (hz : i.sector k = 0)
    (hb : s.part.blockBitmap.FirstClear b) :
    EntryAdded s ((s.takeBlock b).withEntryBlock p (i.setSector k (blockAddr s.part b)) e
      (blockAddr s.part b)) p i e := by
  obtain ⟨hinst, hkeep, hmap, h12⟩ := installed_direct (e := e) hm hok hk hz hb
  have hold : allBlocksOf s.disk i k = 0 := by rw [allBlocksOf_direct _ _ hk, hz]
  refine ⟨directInode s i k b, State.putInode_same .., iSize_grown hm _,
    hinst.live_iff hkeep he, ?_, ?_⟩
  · refine fun lba h => h.of_blocks (fun _ => h12) (fun n _ hn0 => ?_)
    have hnk : n ≠ k := fun h => hn0 (by rw [h, hold])
    exact (hmap n).trans (if_neg hnk)
  · intro b' h₁ h₂
    have hbit : (s.part.blockBitmap.set b true).bit b' = true := h₁
    rw [Bitmap.bit_set] at hbit
    by_cases hbb : b' = b
    · rw [hbb]
      exact ⟨blockAddr_pos hm hb.1, Or.inr ⟨k, by omega, (hmap k).trans (if_pos rfl)⟩⟩
    · rw [if_neg hbb, h₂] at hbit
      exact absurd hbit Bool.false_ne_true

theorem entryAdded_table {b c : Nat} (hm : s.part.Mounted) (hok : BlockMapOk s.part s.disk i)
    (he : e.fType ≠ 0) (hz : i.sector 12 = 0) (hb : s.part.blockBitmap.FirstClear b)
    (hc : (s.takeBlock b).part.blockBitmap.FirstClear c) :
    EntryAdded s ((((s.takeBlock b).takeBlock c).store (sectorOff (blockAddr s.part b)) 512
      (newTable (directBlocks i) (blockAddr s.part c))).withEntryBlock p
        (i.setSector 12 (blockAddr s.part b)) e (blockAddr s.part c)) p i e := by
  obtain ⟨hinst, hkeep⟩ := installed_table (e := e) hm hok hb hc
  have hmap := fun n hn => tableDisk_blocks (i := i) (e := e) (n := n) hm hb hc hn
  refine ⟨tableInode s i b, State.putInode_same .., iSize_grown hm _,
    hinst.live_iff (hkeep hz) he, ?_, ?_⟩
  · refine fun lba h => h.of_blocks (fun h => absurd hz h) (fun n hn hn0 => ?_)
    have hlow : n < 12 := by
      by_contra h
      exact hn0 (allBlocksOf_no_table _ (by omega) hz)
    exact (hmap n hn).trans ((if_pos hlow).trans (allBlocksOf_direct _ _ hlow).symm)
  · intro b' h₁ h₂
    have hbit : ((s.part.blockBitmap.set b true).set c true).bit b' = true := h₁
    rw [Bitmap.bit_set, Bitmap.bit_set] at hbit
    by_cases hcc : b' = c
    · rw [hcc]
      exact ⟨blockAddr_pos hm hc.1, Or.inr ⟨12, by omega, (hmap 12 (by omega)).trans rfl⟩⟩
    · by_cases hbb : b' = b
      · rw [hbb]
        exact ⟨blockAddr_pos hm hb.1, Or.inl rfl⟩
      · rw [if_neg hcc, if_neg hbb, h₂] at hbit
        exact absurd hbit Bool.false_ne_true

/-- With a table before, the old table is gone. -/
theorem not_entryAdded_table {b c : Nat} (hm : s.part.Mounted)
    (hok : BlockMapOk s.part s.disk i) (hne : i.sector 12 ≠ 0)
    (hb : s.part.blockBitmap.FirstClear b)
    (hc : (s.takeBlock b).part.blockBitmap.FirstClear c) :
    ¬EntryAdded s ((((s.takeBlock b).takeBlock c).store (sectorOff (blockAddr s.part b)) 512
      (newTable (directBlocks i) (blockAddr s.part c))).withEntryBlock p
        (i.setSector 12 (blockAddr s.part b)) e (blockAddr s.part c)) p i e := by
  rintro ⟨j, hj, -, -, hrefs, -⟩
  have hj' : j = tableInode s i b := by
    rw [State.withEntryBlock, State.putInode_same, Option.some.injEq] at hj
    exact hj.symm
  have hold : References s.disk i (i.sector 12) := ⟨hne, Or.inl rfl⟩
  have hused := hok.used _ hold
  obtain ⟨-, h₁ | ⟨n, hn, h₂⟩⟩ := hrefs _ hold
  · rw [hj'] at h₁
    exact hused.ne_fresh hm hb (h₁.trans rfl)
  · rw [hj'] at h₂
    replace h₂ := (tableDisk_blocks (e := e) hm hb hc hn).symm.trans h₂
    by_cases hlow : n < 12
    · rw [if_pos hlow] at h₂
      exact hok.table n hn hne ((allBlocksOf_direct _ _ hlow).trans h₂)
    · rw [if_neg hlow] at h₂
      by_cases hn12 : n = 12
      · rw [if_pos hn12] at h₂
        exact (hused.takeBlock (b := b)).ne_fresh (State.takeBlock_mounted hm b) hc h₂.symm
      · rw [if_neg hn12] at h₂
        exact hne h₂.symm

theorem EnoughFree.exists_two (hfree : EnoughFree s.part) :
    ∃ b c, s.part.blockBitmap.FirstClear b ∧ (s.takeBlock b).part.blockBitmap.FirstClear c ∧
      Selectable (blockAddr s.part b) 1 ∧ Selectable (blockAddr s.part c) 1 := by
  obtain ⟨⟨b₀, c₀, hlt, hc₀, hb₀, hc₀'⟩, hsel⟩ := hfree
  obtain ⟨b, hb, hle⟩ := s.part.blockBitmap.exists_firstClear (by omega) hb₀
  have hc₁ : (s.part.blockBitmap.set b true).bit c₀ = false := by
    rw [Bitmap.bit_set, if_neg (by omega), hc₀']
  obtain ⟨c, hc, -⟩ := (s.takeBlock b).part.blockBitmap.exists_firstClear hc₀ hc₁
  obtain ⟨-, hcbit, hclt⟩ := firstClear_second hc
  exact ⟨b, c, hb, hc, hsel b hb.1 hb.2.1, hsel c hclt hcbit⟩

theorem FullBelow.not_directPlace (h : FullBelow s.disk i 12) : ¬DirectPlace s.disk i := by
  rintro ⟨k, hk, hz | ⟨j, hj, hzero⟩⟩
  · exact (h k hk).1 hz
  · exact freeSlot_none (h k hk).2.2 (Nat.zero_le j) (by omega) hzero

/-- Without a place among the direct blocks, a directory that has a table loses it. -/
theorem syncDirEntry_loses (hm : s.part.Mounted) (hd : s.inodeOf d = some p)
    (hi : s.inodes p = some i) (hok : BlockMapOk s.part s.disk i) (hsize : i.iSize % 24 = 0)
    (hfree : EnoughFree s.part) (hio : 512 ≤ ioBuf.size) (hfull : FullBelow s.disk i 12)
    (hne : i.sector 12 ≠ 0) :
    ¬Ensures (syncDirEntry d e ioBuf) s (fun r t => r = true → EntryAdded s t p i e) := by
  intro h
  obtain ⟨b, c, hb, hc, hsb, hsc⟩ := hfree.exists_two
  have hq := (((wp_syncDirEntry_table hm hd hi hio hfull).mp h).1 hsize).1 b hb
  exact not_entryAdded_table hm hok hne hb hc (((hq.1 c hc).1 hsb).1 hsc rfl)

theorem syncDirEntry_adds_iff (hm : s.part.Mounted) (hd : s.inodeOf d = some p)
    (hi : s.inodes p = some i) (hok : BlockMapOk s.part s.disk i) (hsize : i.iSize % 24 = 0)
    (hfree : EnoughFree s.part) (he : e.fType ≠ 0) (hio : 512 ≤ ioBuf.size) :
    Ensures (syncDirEntry d e ioBuf) s (fun r t => r = true → EntryAdded s t p i e) ↔
      i.sector 12 = 0 ∨ DirectPlace s.disk i := by
  have hsel : ∀ k, k < 12 → i.sector k ≠ 0 → Selectable (i.sector k) 1 := by
    intro k hk hne
    obtain ⟨-, -, -, -, hsel⟩ := hok.used _ ⟨hne, Or.inr ⟨k, by omega, allBlocksOf_direct _ _ hk⟩⟩
    exact hsel
  rcases exists_place s.disk i hsel with hfull | ⟨k, hk, hfull, hplace⟩
  · constructor
    · intro h
      by_contra hcon
      exact syncDirEntry_loses hm hd hi hok hsize hfree hio hfull (fun hz => hcon (Or.inl hz)) h
    · rintro (hz | hplace)
      · refine (wp_syncDirEntry_table hm hd hi hio hfull).mpr
          ⟨fun _ => ⟨fun b hb => ⟨fun c hc => ⟨fun _ => ⟨fun _ _ => ?_, ?_⟩, ?_⟩, ?_⟩, ?_⟩, ?_⟩
        · exact entryAdded_table hm hok he hz hb hc
        all_goals exact fun _ => True.intro
      · exact absurd hplace hfull.not_directPlace
  · have hdirect : DirectPlace s.disk i := by
      rcases hplace with hz | ⟨j, -, hfree⟩
      · exact ⟨k, hk, Or.inl hz⟩
      · obtain ⟨-, hj, hzero⟩ := freeSlot_some hfree
        exact ⟨k, hk, Or.inr ⟨j, by omega, hzero⟩⟩
    refine iff_of_true ?_ (Or.inr hdirect)
    rcases hplace with hz | ⟨j, hne, hfree⟩
    · refine (wp_syncDirEntry_direct hm hd hi hio hk hfull hz).mpr
        ⟨fun _ => ⟨fun b hb => ⟨fun _ _ => ?_, ?_⟩, ?_⟩, ?_⟩
      · exact entryAdded_direct hm hok he hk hz hb
      all_goals exact fun _ => True.intro
    · refine (wp_syncDirEntry_hole hm hd hi hio hk hfull hne (hsel k hk hne) hfree).mpr
        ⟨fun _ _ => ?_, fun _ => True.intro⟩
      exact entryAdded_hole hm hok he hk hne hfree

end

/-! ## A directory of `n` full direct blocks -/

/-- The block bitmap has bits 0 to 14 set. -/
def listingPart : Partition :=
  { emptyPart 2048 8192 with
    blockBitmap := ⟨1024, fun k => if k = 0 then 0xff else if k = 1 then 0x7f else 0⟩ }

/-- The disk on which blocks 1 to 12 are full of entries and block 13 is a table with
block 14. -/
def listingDisk : Bytes := fun a =>
  let k := a / 512 - listingPart.sb.dataStartLba.toNat
  if 1 ≤ k ∧ k ≤ 12 ∧ a % 512 < 504 then
    DirEntry.bytes ⟨fun j => if j = 0 then UInt8.ofNat (96 + k) else if j = 1 then
      UInt8.ofNat (97 + a % 512 / 24) else 0, 1, FileType.regular.code⟩ (a % 512 % 24)
  else if k = 13 then ofWords (fun j => if j = 0 then blockAddr listingPart 14 else 0) (a % 512)
  else 0

def listingInode (n : Nat) : Inode :=
  { Inode.zero with
    iSize := 504 * UInt32.ofNat n
    iSectors := fun k => if k < n then blockAddr listingPart (k + 1) else 0 }

def listing (n : Nat) : State :=
  { idleState listingPart with
    disk := listingDisk
    inodes := fun q => if q = ⟨false, 0⟩ then some (listingInode n) else none
    rootDir := { Dir.zero with inode := some ⟨false, 0⟩ } }

theorem listingPart_mounted : listingPart.Mounted :=
  { emptyPart_mounted with blockBitmapLen := by decide }

theorem listingPart_onDisk {b : Nat} (hb : b < 8192) : Selectable (blockAddr listingPart b) 1 := by
  have haddr := (toNat_blockAddr listingPart_mounted hb).1
  have hdata : listingPart.sb.dataStartLba.toNat = 2661 := by decide
  rw [selectable_one, toNat_maxLba, haddr]
  omega

theorem listingPart_enoughFree : EnoughFree listingPart where
  two := ⟨15, 16, by decide, by decide, by decide, by decide⟩
  onDisk _ hb _ := listingPart_onDisk hb

/-- The bit of block `k` of such a directory, with 0 for a block that is missing. -/
def listingBit (n k : Nat) : Nat :=
  if k < n ∧ k < 12 then k + 1 else if k = 12 ∧ n = 13 then 14 else 0

theorem listing_blocks {n : Nat} (hn : n = 11 ∨ n = 13) :
    ∀ k, k < 140 → allBlocksOf listingDisk (listingInode n) k =
      if listingBit n k = 0 then 0 else blockAddr listingPart (listingBit n k) := by
  rcases hn with rfl | rfl
  · decide +kernel
  · decide +kernel

theorem listing_table {n : Nat} (hn : n = 11 ∨ n = 13) :
    (listingInode n).sector 12 = if n = 13 then blockAddr listingPart 13 else 0 := by
  rcases hn with rfl | rfl
  · decide
  · decide

theorem listing_used {b : Nat} (h : b < 15) :
    UsedBlock listingPart (blockAddr listingPart b) := by
  have hlen : listingPart.blockBitmap.btmpBytesLen = 1024 := rfl
  have hbits : ∀ b, b < 15 → listingPart.blockBitmap.bit b = true := by decide
  exact ⟨b, by omega, rfl, hbits b h, listingPart_onDisk (by omega)⟩

theorem listing_disk (n : Nat) : (listing n).disk = listingDisk := by
  simp only [listing]

theorem listing_blockMapOk {n : Nat} (hn : n = 11 ∨ n = 13) :
    BlockMapOk (listing n).part (listing n).disk (listingInode n) := by
  show BlockMapOk listingPart (listing n).disk (listingInode n)
  rw [listing_disk]
  have hlen : listingPart.blockBitmap.btmpBytesLen = 1024 := rfl
  have hlt : ∀ k, listingBit n k < 15 ∧ listingBit n k ≠ 13 := by
    intro k
    unfold listingBit
    split
    · omega
    · split
      · omega
      · omega
  have hinj : ∀ k k', listingBit n k ≠ 0 → listingBit n k = listingBit n k' → k = k' := by
    intro k k'
    unfold listingBit
    grind
  have hbit : ∀ k, k < 140 → allBlocksOf listingDisk (listingInode n) k ≠ 0 →
      listingBit n k ≠ 0 ∧
        allBlocksOf listingDisk (listingInode n) k = blockAddr listingPart (listingBit n k) := by
    intro k hk hne
    have h := listing_blocks hn k hk
    by_cases hz : listingBit n k = 0
    · rw [if_pos hz] at h
      exact absurd h hne
    · rw [if_neg hz] at h
      exact ⟨hz, h⟩
  refine ⟨?_, ?_, ?_⟩
  · rintro lba ⟨hne, rfl | ⟨k, hk, rfl⟩⟩
    · rw [listing_table hn] at hne ⊢
      by_cases h13 : n = 13
      · rw [if_pos h13]
        exact listing_used (by omega)
      · rw [if_neg h13] at hne
        exact absurd rfl hne
    · obtain ⟨-, heq⟩ := hbit k hk hne
      rw [heq]
      exact listing_used (hlt k).1
  · intro k k' hk hk' hne heq
    obtain ⟨hz, h₁⟩ := hbit k hk hne
    obtain ⟨-, h₂⟩ := hbit k' hk' (by rwa [← heq])
    refine hinj k k' hz (blockAddr_inj (s := listing n) listingPart_mounted ?_ ?_ ?_)
    · have h := (hlt k).1
      show _ < 8 * 1024
      omega
    · have h := (hlt k').1
      show _ < 8 * 1024
      omega
    · exact h₁.symm.trans (heq.trans h₂)
  · intro k hk hne heq
    obtain ⟨hz, h₁⟩ := hbit k hk (by rwa [heq])
    rw [listing_table hn] at hne heq
    by_cases h13 : n = 13
    · rw [if_pos h13] at heq
      refine (hlt k).2 (blockAddr_inj (s := listing n) listingPart_mounted ?_ ?_ ?_)
      · have h := (hlt k).1
        show _ < 8 * 1024
        omega
      · show _ < 8 * 1024
        omega
      · exact h₁.symm.trans heq
    · exact hne (if_neg h13)

/-- The regular file `f` with inode 5. -/
def entryF : DirEntry := ⟨fun j => if j = 0 then 102 else 0, 5, FileType.regular.code⟩

/-- With eleven full blocks the entry goes into a twelfth. -/
theorem syncDirEntry_adds_twelfth :
    Ensures (syncDirEntry .root entryF (.zero 1024)) (listing 11)
      (fun r t => r = true → EntryAdded (listing 11) t ⟨false, 0⟩ (listingInode 11) entryF) :=
  (syncDirEntry_adds_iff (s := listing 11) listingPart_mounted rfl rfl
    (listing_blockMapOk (Or.inl rfl)) (by decide) listingPart_enoughFree (by decide) (by decide)).mpr (Or.inl (by decide))

/-- With twelve full blocks and a table the old table is lost. -/
theorem syncDirEntry_loses_table :
    BlockMapOk (listing 13).part (listing 13).disk (listingInode 13) ∧
      EnoughFree (listing 13).part ∧ entryF.fType ≠ 0 ∧
      ¬Ensures (syncDirEntry .root entryF (.zero 1024)) (listing 13)
        (fun r t => r = true → EntryAdded (listing 13) t ⟨false, 0⟩ (listingInode 13) entryF) := by
  have hok : BlockMapOk (listing 13).part (listing 13).disk (listingInode 13) :=
    listing_blockMapOk (Or.inr rfl)
  have hfull : FullBelow (listing 13).disk (listingInode 13) 12 := by
    rw [listing_disk]
    have hfull' : ∀ k, k < 12 → (listingInode 13).sector k ≠ 0 ∧
        freeIn listingDisk ((listingInode 13).sector k) = none := by decide +kernel
    intro k hk
    obtain ⟨hne, hfree⟩ := hfull' k hk
    obtain ⟨-, -, -, -, hsel⟩ := hok.used _ ⟨hne, Or.inr ⟨k, by omega, allBlocksOf_direct _ _ hk⟩⟩
    exact ⟨hne, hsel, hfree⟩
  refine ⟨hok, listingPart_enoughFree, by decide, ?_⟩
  exact syncDirEntry_loses (s := listing 13) listingPart_mounted rfl rfl hok (by decide) listingPart_enoughFree
    (by decide) hfull (by decide)

end OsTruth
