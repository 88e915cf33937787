/-
The content of a directory: its blocks, the 21 slots of each block and the entries
that are live.

A slot is named by the number of its block in the block map and its place in the
block.  `Live` is the set of entries that `search_dir_entry` and `dir_read` go
through.
-/
import OsTruth.Fs.BitmapSync

namespace OsTruth

open ByteString Fallible

/-! ## The packed entry -/

namespace DirEntry

theorem bytes_filename (e : DirEntry) {k : Nat} (hk : k < 16) :
    e.bytes k = e.filename ⟨k, hk⟩ :=
  dif_pos hk

/-- Only the 24 bytes at the offset matter. -/
theorem ofBytes_congr {b c : Bytes} {o o' : Nat}
    (h : ∀ k, k < dirEntrySize → b (o + k) = c (o' + k)) : ofBytes b o = ofBytes c o' := by
  unfold dirEntrySize at h
  have hw : ∀ j, j = 16 ∨ j = 20 → wordAt b (o + j) = wordAt c (o' + j) := by
    intro j hj
    rw [← wordAt_view b, ← wordAt_view c]
    refine wordAt_congr (fun k hk => ?_)
    exact h (j + k) (by omega)
  have hname : (fun k : Fin 16 => b (o + k.val)) = fun k : Fin 16 => c (o' + k.val) := by
    funext k
    exact h k.val (by omega)
  unfold ofBytes
  rw [hw 16 (Or.inl rfl), hw 20 (Or.inr rfl), hname]

theorem ofBytes_bytes (e : DirEntry) : ofBytes e.bytes 0 = e := by
  have hword : ∀ j, 4 ≤ j → j < 6 →
      wordAt e.bytes (4 * j) = if j = 4 then e.iNo else e.fType := by
    intro j h₁ h₂
    rw [← wordAt_ofWords (fun j => if j = 4 then e.iNo else e.fType) j]
    refine wordAt_congr (fun k hk => ?_)
    exact dif_neg (by omega)
  obtain ⟨filename, iNo, fType⟩ := e
  have hno := hword 4 (by omega) (by omega)
  have htype := hword 5 (by omega) (by omega)
  unfold ofBytes
  rw [DirEntry.mk.injEq]
  refine ⟨funext fun k => ?_, hno, htype⟩
  rw [Nat.zero_add]
  exact bytes_filename _ k.isLt

end DirEntry

/-! ## Slots -/

def blockSlot (disk : Bytes) (lba : UInt32) (j : Nat) : DirEntry :=
  slotAt (view disk (sectorOff lba)) j

def slotPlace (lba : UInt32) (j : Nat) : Nat := sectorOff lba + dirEntrySize * j

theorem blockSlot_congr {d d' : Bytes} {lba lba' : UInt32} {j j' : Nat}
    (h : ∀ k, k < dirEntrySize → d (slotPlace lba j + k) = d' (slotPlace lba' j' + k)) :
    blockSlot d lba j = blockSlot d' lba' j' := by
  refine DirEntry.ofBytes_congr (fun k hk => ?_)
  have hb := h k hk
  unfold slotPlace at hb
  unfold view
  rwa [← Nat.add_assoc, ← Nat.add_assoc]

/-- A slot into which an entry was written holds the entry. -/
theorem blockSlot_of_bytes {disk : Bytes} {lba : UInt32} {j : Nat} {e : DirEntry}
    (h : ∀ k, k < dirEntrySize → disk (slotPlace lba j + k) = e.bytes k) :
    blockSlot disk lba j = e := by
  rw [← DirEntry.ofBytes_bytes e]
  refine DirEntry.ofBytes_congr (fun k hk => ?_)
  have hb := h k hk
  unfold slotPlace at hb
  unfold view
  rw [← Nat.add_assoc, hb, Nat.zero_add]

/-- Distinct blocks have no byte in common. -/
theorem sectorOff_ne {lba lba' : UInt32} (h : lba ≠ lba') :
    sectorOff lba + 512 ≤ sectorOff lba' ∨ sectorOff lba' + 512 ≤ sectorOff lba := by
  have hne : lba.toNat ≠ lba'.toNat := fun heq => h (UInt32.toNat_inj.mp heq)
  unfold sectorOff
  omega

/-! ## The block map -/

/-- The block in sector `lba` holds the same bytes on both disks. -/
def SameBlock (d d' : Bytes) (lba : UInt32) : Prop :=
  ∀ a, a < 512 → d' (sectorOff lba + a) = d (sectorOff lba + a)

theorem SameBlock.blockSlot {d d' : Bytes} {lba : UInt32} (h : SameBlock d d' lba) {j : Nat}
    (hj : j < dirEntrysPerSec) : blockSlot d' lba j = blockSlot d lba j := by
  have hper : dirEntrysPerSec = 21 := rfl
  refine blockSlot_congr (fun k hk => ?_)
  unfold slotPlace dirEntrySize at *
  rw [Nat.add_assoc]
  exact h _ (by omega)

theorem SameBlock.trans {d d' d'' : Bytes} {lba : UInt32} (h : SameBlock d d' lba)
    (h' : SameBlock d' d'' lba) : SameBlock d d'' lba :=
  fun a ha => (h' a ha).trans (h a ha)

theorem sameBlock_splice {d : Bytes} {lba : UInt32} {off len : Nat} {x : Bytes}
    (h : off + len ≤ sectorOff lba ∨ sectorOff lba + 512 ≤ off) :
    SameBlock d (splice d off len x) lba :=
  fun _ _ => splice_outside (by omega)

/-- Writing one block leaves the others as they are. -/
theorem sameBlock_splice_block {d : Bytes} {lba lba' : UInt32} {x : Bytes} (h : lba' ≠ lba) :
    SameBlock d (splice d (sectorOff lba') 512 x) lba :=
  sameBlock_splice (by
    have h' := sectorOff_ne h
    omega)

theorem allBlocksOf_direct (disk : Bytes) (i : Inode) {k : Nat} (hk : k < 12) :
    allBlocksOf disk i k = i.sector k := by
  unfold allBlocksOf withTable
  by_cases h : i.sector 12 = 0
  · simp [h, directBlocks, hk]
  · rw [if_pos h, if_neg (by omega)]
    exact if_pos hk

theorem allBlocksOf_no_table (disk : Bytes) {i : Inode} {k : Nat} (hk : 12 ≤ k)
    (h : i.sector 12 = 0) : allBlocksOf disk i k = 0 := by
  unfold allBlocksOf
  rw [if_neg (by simp [h])]
  exact if_neg (Nat.not_lt.mpr hk)

theorem allBlocksOf_table (disk : Bytes) {i : Inode} {k : Nat} (hk : 12 ≤ k) (hk' : k < 140)
    (h : i.sector 12 ≠ 0) :
    allBlocksOf disk i k = wordAt disk (sectorOff (i.sector 12) + 4 * (k - 12)) := by
  unfold allBlocksOf withTable
  rw [if_pos h, if_pos ⟨hk, hk'⟩]

theorem allBlocksOf_ge (disk : Bytes) (i : Inode) {k : Nat} (hk : 140 ≤ k) :
    allBlocksOf disk i k = 0 := by
  by_cases h : i.sector 12 = 0
  · exact allBlocksOf_no_table disk (by omega) h
  · unfold allBlocksOf withTable
    rw [if_pos h, if_neg (by omega)]
    exact if_neg (by omega)

/-- The block map depends on the sectors and on the indirect table. -/
theorem allBlocksOf_congr {d d' : Bytes} {i i' : Inode} {k : Nat}
    (hsector : k < 12 → i'.sector k = i.sector k) (htable : i'.sector 12 = i.sector 12)
    (hsame : i.sector 12 ≠ 0 → SameBlock d d' (i.sector 12)) :
    allBlocksOf d' i' k = allBlocksOf d i k := by
  by_cases hk : k < 12
  · rw [allBlocksOf_direct _ _ hk, allBlocksOf_direct _ _ hk, hsector hk]
  · by_cases hk' : k < 140
    · by_cases h : i.sector 12 = 0
      · rw [allBlocksOf_no_table _ (by omega) h, allBlocksOf_no_table _ (by omega) (by rwa [htable])]
      · rw [allBlocksOf_table _ (by omega) hk' h, allBlocksOf_table _ (by omega) hk' (by rwa [htable]),
          htable]
        refine wordAt_congr (fun a ha => ?_)
        rw [Nat.add_assoc]
        exact hsame h _ (by omega)
    · rw [allBlocksOf_ge _ _ (by omega), allBlocksOf_ge _ _ (by omega)]

theorem Inode.sector_setSector (i : Inode) {k : Nat} (hk : k < 13) (v : UInt32) (j : Nat) :
    (i.setSector k v).sector j = if j = k then v else i.sector j := by
  unfold Inode.sector Inode.setSector
  by_cases hj : j < 13
  · simp [hj]
  · have hne : j ≠ k := by omega
    simp [hj, hne]

/-- A live slot: number `j` of an existing block `k`. -/
def LiveSlot (disk : Bytes) (i : Inode) (k j : Nat) : Prop :=
  k < 140 ∧ j < dirEntrysPerSec ∧ allBlocksOf disk i k ≠ 0 ∧
    (blockSlot disk (allBlocksOf disk i k) j).fType ≠ 0

def Live (disk : Bytes) (i : Inode) (e : DirEntry) : Prop :=
  ∃ k j, LiveSlot disk i k j ∧ blockSlot disk (allBlocksOf disk i k) j = e

/-- The blocks of an inode: those of its block map and the indirect table. -/
def References (disk : Bytes) (i : Inode) (lba : UInt32) : Prop :=
  lba ≠ 0 ∧ (lba = i.sector 12 ∨ ∃ k, k < 140 ∧ allBlocksOf disk i k = lba)

def UsedBlock (part : Partition) (lba : UInt32) : Prop :=
  ∃ b, b < 8 * part.blockBitmap.btmpBytesLen ∧ lba = blockAddr part b ∧
    part.blockBitmap.bit b = true ∧ Selectable lba 1

/-- A block map that is well formed: every block is a data block in use, and all of them
are different. -/
structure BlockMapOk (part : Partition) (disk : Bytes) (i : Inode) : Prop where
  used : ∀ lba, References disk i lba → UsedBlock part lba
  inj : ∀ k k', k < 140 → k' < 140 → allBlocksOf disk i k ≠ 0 →
    allBlocksOf disk i k = allBlocksOf disk i k' → k = k'
  table : ∀ k, k < 140 → i.sector 12 ≠ 0 → allBlocksOf disk i k ≠ i.sector 12

/-! ## One block -/

section

variable {part : Partition} {i : Inode} {lba : UInt32}

/-- The block map of an inode with one direct block. -/
theorem allBlocksOf_single (disk : Bytes) (hi : ∀ m, i.sector m = if m = 0 then lba else 0) (m : Nat) :
    allBlocksOf disk i m = if m = 0 then lba else 0 := by
  by_cases hm : m < 12
  · rw [allBlocksOf_direct _ _ hm, hi]
  · have h12 : i.sector 12 = 0 := by
      rw [hi]
      exact if_neg (by omega)
    rw [allBlocksOf_no_table _ (by omega) h12, if_neg (by omega)]

theorem references_single {disk : Bytes} (hi : ∀ m, i.sector m = if m = 0 then lba else 0)
    {lba' : UInt32} (h : References disk i lba') : lba' = lba := by
  obtain ⟨hne, rfl | ⟨m, -, rfl⟩⟩ := h
  · rw [hi] at hne
    exact absurd (if_neg (by omega)) hne
  · rw [allBlocksOf_single disk hi] at hne ⊢
    by_cases hm : m = 0
    · exact if_pos hm
    · exact absurd (if_neg hm) hne

theorem blockMapOk_single (disk : Bytes) (hused : UsedBlock part lba) (hne : lba ≠ 0)
    (hi : ∀ m, i.sector m = if m = 0 then lba else 0) : BlockMapOk part disk i where
  used lba' h := by
    rw [references_single hi h]
    exact hused
  inj m m' _ _ hblock heq := by
    rw [allBlocksOf_single disk hi, allBlocksOf_single disk hi] at heq
    rw [allBlocksOf_single disk hi] at hblock
    by_cases hm : m = 0
    · by_cases hm' : m' = 0
      · rw [hm, hm']
      · rw [if_pos hm, if_neg hm'] at heq
        exact absurd heq hne
    · exact absurd (if_neg hm) hblock
  table m _ h12 := by
    rw [hi] at h12
    exact absurd (if_neg (by omega)) h12

end

/-! ## Blocks in use and fresh blocks -/

section

variable {s : State} {lba : UInt32} {b : Nat}

theorem UsedBlock.ge_data (hm : s.part.Mounted) (h : UsedBlock s.part lba) :
    s.part.sb.dataStartLba.toNat ≤ lba.toNat := by
  obtain ⟨b, hb, rfl, -⟩ := h
  rw [(toNat_blockAddr hm hb).1]
  omega

theorem blockAddr_inj (hm : s.part.Mounted) {b c : Nat}
    (hb : b < 8 * s.part.blockBitmap.btmpBytesLen) (hc : c < 8 * s.part.blockBitmap.btmpBytesLen)
    (h : blockAddr s.part b = blockAddr s.part c) : b = c := by
  have hb' := (toNat_blockAddr hm hb).1
  have hc' := (toNat_blockAddr hm hc).1
  rw [h] at hb'
  omega

/-- A block in use is not one that is about to be taken. -/
theorem UsedBlock.ne_fresh (hm : s.part.Mounted) (h : UsedBlock s.part lba)
    (hb : s.part.blockBitmap.FirstClear b) : lba ≠ blockAddr s.part b := by
  obtain ⟨c, hc, rfl, hbit, -⟩ := h
  intro heq
  rw [blockAddr_inj hm hc hb.1 heq, hb.2.1] at hbit
  exact Bool.false_ne_true hbit

/-- Taking a block leaves the data area as it is. -/
theorem takeBlock_sameBlock (hm : s.part.Mounted) (hb : b < 8 * s.part.blockBitmap.btmpBytesLen)
    (h : s.part.sb.dataStartLba.toNat ≤ lba.toNat) :
    SameBlock s.disk (s.takeBlock b).disk lba := by
  intro a ha
  have hdata := hm.dataStartLba
  refine takeBlock_disk hm hb ?_
  unfold sectorOff
  omega

/-- Blocks in use stay in use when another is taken. -/
theorem UsedBlock.takeBlock (h : UsedBlock s.part lba) :
    UsedBlock (s.takeBlock b).part lba := by
  obtain ⟨c, hc, heq, hbit, hsel⟩ := h
  refine ⟨c, hc, heq, ?_, hsel⟩
  show (s.part.blockBitmap.set b true).bit c = true
  rw [Bitmap.bit_set]
  by_cases hcb : c = b
  · rw [if_pos hcb]
  · rw [if_neg hcb, hbit]

end

/-! ## Installing an entry -/

def DirEntry.zero : DirEntry := ⟨fun _ => 0, 0, 0⟩

/-- On `disk'` the inode `i'` has the entry `e` in slot `j₀` of block `k₀`, and every
other slot is empty or as it was on `disk` under `i`. -/
structure Installed (disk disk' : Bytes) (i i' : Inode) (e : DirEntry) (k₀ j₀ : Nat) : Prop where
  lt : k₀ < 140 ∧ j₀ < dirEntrysPerSec
  block : allBlocksOf disk' i' k₀ ≠ 0
  slot : blockSlot disk' (allBlocksOf disk' i' k₀) j₀ = e
  others : ∀ k j, k < 140 → j < dirEntrysPerSec → ¬(k = k₀ ∧ j = j₀) →
    allBlocksOf disk' i' k ≠ 0 →
      blockSlot disk' (allBlocksOf disk' i' k) j = .zero ∨
        (allBlocksOf disk' i' k = allBlocksOf disk i k ∧
          blockSlot disk' (allBlocksOf disk' i' k) j = blockSlot disk (allBlocksOf disk i k) j)

/-- Every live slot of `disk` under `i` is still there, and it is not slot `j₀` of
block `k₀`. -/
def KeepsLive (disk disk' : Bytes) (i i' : Inode) (k₀ j₀ : Nat) : Prop :=
  ∀ k j, LiveSlot disk i k j → ¬(k = k₀ ∧ j = j₀) ∧
    allBlocksOf disk' i' k = allBlocksOf disk i k ∧
      blockSlot disk' (allBlocksOf disk i k) j = blockSlot disk (allBlocksOf disk i k) j

/-- With both, the live entries are the old ones and the new one. -/
theorem Installed.live_iff {disk disk' : Bytes} {i i' : Inode} {e : DirEntry} {k₀ j₀ : Nat}
    (h : Installed disk disk' i i' e k₀ j₀) (hkeep : KeepsLive disk disk' i i' k₀ j₀)
    (he : e.fType ≠ 0) (x : DirEntry) : Live disk' i' x ↔ Live disk i x ∨ x = e := by
  constructor
  · rintro ⟨k, j, ⟨hk, hj, hne, hlive⟩, rfl⟩
    by_cases hpos : k = k₀ ∧ j = j₀
    · right
      rw [hpos.1, hpos.2, h.slot]
    · left
      rcases h.others k j hk hj hpos hne with hzero | ⟨hblock, hslot⟩
      · rw [hzero] at hlive
        exact absurd rfl hlive
      · refine ⟨k, j, ⟨hk, hj, by rwa [← hblock], by rwa [← hslot]⟩, hslot.symm⟩
  · rintro (⟨k, j, hslot, rfl⟩ | rfl)
    · obtain ⟨-, hblock, hsame⟩ := hkeep k j hslot
      refine ⟨k, j, ⟨hslot.1, hslot.2.1, by rw [hblock]; exact hslot.2.2.1, ?_⟩, ?_⟩
      · rw [hblock, hsame]
        exact hslot.2.2.2
      · rw [hblock, hsame]
    · exact ⟨k₀, j₀, ⟨h.lt.1, h.lt.2, h.block, by rwa [h.slot]⟩, h.slot⟩

end OsTruth
