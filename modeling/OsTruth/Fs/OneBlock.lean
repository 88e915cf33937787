/-
Directories that fit into one block.

A concrete tree is given by the slots of its directories.  What a tree asks of a directory then
comes down to its 21 slots.
-/
import OsTruth.Fs.Lookup

namespace OsTruth

open ByteString Fallible

/-- Directory `n` has the block `lba` and no other, and its slots are `entries`. -/
structure State.OneBlock (s : State) (n lba : UInt32) (entries : Nat → DirEntry) : Prop where
  inode : ∃ i, s.inodeNamed n = some i ∧ i.iNo = n ∧ ∀ k, i.sector k = if k = 0 then lba else 0
  slot : ∀ j, j < dirEntrysPerSec → blockSlot s.disk lba j = entries j
  lba : lba ≠ 0 ∧ Selectable lba 1

/-- The first `count` slots are in use, under different names. -/
structure SlotsOk (entries : Nat → DirEntry) (count : Nat) : Prop where
  used : ∀ j, j < count → (entries j).Ok
  unused : ∀ j, count ≤ j → entries j = .zero
  names : ∀ j, j < count → ∀ j', j' < count → (entries j).name = (entries j').name → j = j'

instance (e : DirEntry) : Decidable e.Ok :=
  decidable_of_iff ((e.name ≠ [] ∧ e.name.length < maxFileNameLen) ∧
    (e.fType = FileType.regular.code ∨ e.fType = FileType.directory.code) ∧ e.iNo < 4096)
    ⟨fun h => ⟨h.1, h.2.1, h.2.2⟩, fun h => ⟨h.name, h.type, h.number⟩⟩

namespace State.OneBlock

variable {s : State} {n lba : UInt32} {entries : Nat → DirEntry} {i : Inode} {name : Str}
variable {e : DirEntry} {count k j : Nat}

theorem blocks (h : s.OneBlock n lba entries) (hi : s.inodeNamed n = some i) (k : Nat) :
    allBlocksOf s.disk i k = if k = 0 then lba else 0 := by
  obtain ⟨i', hi', -, hsector⟩ := h.inode
  rw [hi, Option.some.injEq] at hi'
  rw [← hi'] at hsector
  exact allBlocksOf_single s.disk hsector k

theorem namedSlot (h : s.OneBlock n lba entries) (hi : s.inodeNamed n = some i)
    (hnamed : NamedSlot s.disk i name k j) :
    k = 0 ∧ j < dirEntrysPerSec ∧ (entries j).name = name := by
  obtain ⟨-, hj, hne, hname⟩ := hnamed
  rw [h.blocks hi] at hne hname
  have hk : k = 0 := by
    by_contra hk
    exact hne (if_neg hk)
  rw [if_pos hk, h.slot j hj] at hname
  exact ⟨hk, hj, hname⟩

theorem hasEntry_iff (h : s.OneBlock n lba entries) :
    s.HasEntry n name e ↔ ∃ j, j < dirEntrysPerSec ∧ e = entries j ∧ (entries j).name = name := by
  constructor
  · rintro ⟨i, k, j, hi, hnamed, rfl⟩
    obtain ⟨hk, hj, hname⟩ := h.namedSlot hi hnamed
    rw [h.blocks hi, if_pos hk, h.slot j hj]
    exact ⟨j, hj, rfl, hname⟩
  · rintro ⟨j, hj, rfl, hname⟩
    obtain ⟨i, hi, -⟩ := h.inode
    have hblock := h.blocks hi 0
    rw [if_pos rfl] at hblock
    refine ⟨i, 0, j, hi, ⟨by omega, hj, ?_, ?_⟩, ?_⟩
    · rw [hblock]
      exact h.lba.1
    · rw [hblock, h.slot j hj, hname]
    · rw [hblock, h.slot j hj]

theorem directoryOk (h : s.OneBlock n lba entries) (hn : n < 4096) (hok : SlotsOk entries count) :
    s.DirectoryOk n where
  number := hn
  inode := by
    obtain ⟨i, hi, hno, hsector⟩ := h.inode
    refine ⟨i, hi, hno, fun lba' ⟨hne, href⟩ => ?_⟩
    rcases href with rfl | ⟨k, -, rfl⟩
    · rw [hsector, if_neg (by omega)] at hne
      exact absurd rfl hne
    · rw [h.blocks hi] at hne ⊢
      by_cases hk : k = 0
      · rw [if_pos hk]
        exact h.lba.2
      · exact absurd (if_neg hk) hne
  slot i k j hi _ hj hne := by
    rw [h.blocks hi] at hne ⊢
    have hk : k = 0 := by
      by_contra hk
      exact hne (if_neg hk)
    rw [if_pos hk, h.slot j hj]
    by_cases hlow : j < count
    · exact Or.inr (hok.used j hlow)
    · exact Or.inl (hok.unused j (by omega))
  unique i name k j k' j' hi hname hnamed hnamed' := by
    obtain ⟨hk, -, hslot⟩ := h.namedSlot hi hnamed
    obtain ⟨hk', -, hslot'⟩ := h.namedSlot hi hnamed'
    have hlow : ∀ m, (entries m).name = name → m < count := by
      intro m hm
      by_contra hbig
      rw [hok.unused m (by omega)] at hm
      exact hname hm.symm
    exact ⟨hk.trans hk'.symm, hok.names j (hlow j hslot) j' (hlow j' hslot') (hslot.trans hslot'.symm)⟩

end State.OneBlock

/-! ## A directory in the root directory -/

def dotEntry (n : UInt32) : DirEntry :=
  ⟨fun k => if k.val < 1 then dot else 0, n, FileType.directory.code⟩

def dotDotEntry (n : UInt32) : DirEntry :=
  ⟨fun k => if k.val < 2 then dot else 0, n, FileType.directory.code⟩

/-- The slots of the root directory: its own two entries and the directory `d`. -/
def subRootEntry (j : Nat) : DirEntry :=
  if j = 0 then dotEntry 0
  else if j = 1 then dotDotEntry 0
  else if j = 2 then ⟨fun k => if k.val < 1 then 100 else 0, 1, FileType.directory.code⟩
  else .zero

/-- The slots of the directory `/d`. -/
def subEntry (j : Nat) : DirEntry :=
  if j = 0 then dotEntry 1 else if j = 1 then dotDotEntry 0 else .zero

def dirInodeOf (n entries lba : UInt32) : Inode :=
  { Inode.zero with iNo := n, iSize := entries * freshPart.sb.dirEntrySize }.setSector 0 lba

def subLba : UInt32 := freshPart.sb.dataStartLba + 1

def subDisk : Bytes :=
  let root := splice freshDisk (slotOff freshPart 0) inodeSize
    (dirInodeOf 0 3 freshPart.sb.dataStartLba).bytes
  let named := splice root (slotPlace freshPart.sb.dataStartLba 2) dirEntrySize
    (subRootEntry 2).bytes
  splice (splice named (slotOff freshPart 1) inodeSize (dirInodeOf 1 2 subLba).bytes)
    (sectorOff subLba) 512 (dotEntries 1 0)

def subState : State :=
  { freshState with
    disk := subDisk
    inodes := fun p => if p = ⟨false, 0⟩ then
        some { dirInodeOf 0 3 freshPart.sb.dataStartLba with iOpenCnts := 1 }
      else none }

theorem subState_root : subState.OneBlock 0 freshPart.sb.dataStartLba subRootEntry where
  inode := by
    refine ⟨{ dirInodeOf 0 3 freshPart.sb.dataStartLba with iOpenCnts := 1 }, rfl, rfl, ?_⟩
    intro k
    by_cases hk : k < 13
    · have hall : ∀ k, k < 13 → (dirInodeOf 0 3 freshPart.sb.dataStartLba).sector k =
          if k = 0 then freshPart.sb.dataStartLba else 0 := by
        decide +kernel
      exact hall k hk
    · rw [if_neg (by omega)]
      exact dif_neg hk
  slot j hj := by
    have hbytes : ∀ j, j < 21 → ∀ k, k < 24 →
        subState.disk (slotPlace freshPart.sb.dataStartLba j + k) = (subRootEntry j).bytes k := by
      decide +kernel
    exact blockSlot_of_bytes (hbytes j hj)
  lba := ⟨by decide, selectable_one.mpr (by decide)⟩

theorem subState_sub : subState.OneBlock 1 subLba subEntry where
  inode := by
    refine ⟨readSlot freshPart subDisk 1, rfl, by decide +kernel, ?_⟩
    intro k
    by_cases hk : k < 13
    · have hall : ∀ k, k < 13 → (readSlot freshPart subDisk 1).sector k =
          if k = 0 then subLba else 0 := by
        decide +kernel
      exact hall k hk
    · rw [if_neg (by omega)]
      exact dif_neg hk
  slot j hj := by
    have hbytes : ∀ j, j < 21 → ∀ k, k < 24 →
        subState.disk (slotPlace subLba j + k) = (subEntry j).bytes k := by
      decide +kernel
    exact blockSlot_of_bytes (hbytes j hj)
  lba := ⟨by decide, selectable_one.mpr (by decide)⟩

theorem subRootEntry_ok : SlotsOk subRootEntry 3 where
  used := by decide +kernel
  unused j hj := by
    unfold subRootEntry
    rw [if_neg (by omega), if_neg (by omega), if_neg (by omega)]
  names := by decide +kernel

theorem subEntry_ok : SlotsOk subEntry 2 where
  used := by decide +kernel
  unused j hj := by
    unfold subEntry
    rw [if_neg (by omega), if_neg (by omega)]
  names := by decide +kernel

end OsTruth
