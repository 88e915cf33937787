/-
What `inode_sync` does to the inode table.

A slot is 76 bytes and slots are packed, so a slot can straddle two sectors.
`inodeSync_wp` reduces the function to one overwrite of the 76 bytes of a slot, of
the slot that the low byte of the inode number names.
-/
import OsTruth.Fs.Layout

namespace OsTruth

open ByteString Fallible

/-! ## The packed structure -/

namespace Inode

theorem bytes_ofBytes (b : Bytes) (off : Nat) {k : Nat} (hk : k < inodeSize) :
    (ofBytes b off).bytes k = b (off + k) := by
  have hword : (ofBytes b off).word (k / 4) = wordAt b (off + 4 * (k / 4)) := by
    have hlt : k / 4 < 19 := by
      unfold inodeSize at hk
      omega
    generalize k / 4 = j at hlt
    unfold word
    split_ifs with h₀ h₁ h₂ h₃ h₄ h₅
    · rw [h₀]
      rfl
    · rw [h₁]
      rfl
    · rw [h₂]
      exact UInt32.ofNat_toNat
    · rw [h₃]
      rfl
    · unfold sector
      rw [dif_pos (by omega)]
      show wordAt b (off + 16 + 4 * (j - 4)) = _
      exact congrArg (wordAt b) (by omega)
    · rw [h₅]
      rfl
    · have hj : j = 18 := by omega
      rw [hj]
      rfl
  unfold bytes ofWords
  rw [hword, byteOf_wordAt _ _ (Nat.mod_lt k (by omega))]
  exact congrArg b (by omega)

theorem ofBytes_bytes (i : Inode) (h : i.iOpenCnts < 2 ^ 32) : ofBytes i.bytes 0 = i := by
  have hword : ∀ j, wordAt i.bytes (4 * j) = i.word j := wordAt_ofWords i.word
  obtain ⟨iNo, iSize, iOpenCnts, writeDeny, iSectors, tagPrev, tagNext⟩ := i
  have hcnts : (UInt32.ofNat iOpenCnts).toNat = iOpenCnts := UInt32.toNat_ofNat_of_lt h
  have hsec : ∀ k : Fin 13, wordAt (bytes ⟨iNo, iSize, iOpenCnts, writeDeny, iSectors, tagPrev,
      tagNext⟩) (0 + 16 + 4 * k.val) = iSectors k := by
    intro k
    have hk := k.isLt
    have hoff : 0 + 16 + 4 * k.val = 4 * (4 + k.val) := by omega
    rw [hoff, hword]
    unfold word
    rw [if_neg (by omega), if_neg (by omega), if_neg (by omega), if_neg (by omega),
      if_pos (by omega)]
    unfold sector
    rw [dif_pos (by omega)]
    exact congrArg iSectors (Fin.ext (by simp))
  unfold ofBytes
  rw [Inode.mk.injEq]
  refine ⟨hword 0, hword 1, ?_, hword 3, funext hsec, hword 17, hword 18⟩
  exact (congrArg UInt32.toNat (hword 2)).trans hcnts

/-- Only the 76 bytes at the offset matter. -/
theorem ofBytes_congr {b c : Bytes} {o o' : Nat}
    (h : ∀ k, k < inodeSize → b (o + k) = c (o' + k)) : ofBytes b o = ofBytes c o' := by
  have hw : ∀ j, j < 19 → wordAt b (o + 4 * j) = wordAt c (o' + 4 * j) := by
    intro j hj
    rw [← wordAt_view b, ← wordAt_view c]
    refine wordAt_congr (fun k hk => ?_)
    have := h (4 * j + k) (by unfold inodeSize; omega)
    exact this
  have hsec : ∀ k : Fin 13, wordAt b (o + 16 + 4 * k.val) = wordAt c (o' + 16 + 4 * k.val) := by
    intro k
    have hk := hw (4 + k.val) (by omega)
    rwa [Nat.mul_add, ← Nat.add_assoc, ← Nat.add_assoc] at hk
  unfold ofBytes
  rw [hw 1 (by omega), hw 2 (by omega), hw 3 (by omega), hw 17 (by omega), hw 18 (by omega)]
  rw [show wordAt b o = wordAt c o' from hw 0 (by omega)]
  simp only [hsec]

/-- The bytes at an offset are those of an inode exactly when the structure read there
is the inode. -/
theorem ofBytes_eq_iff {b : Bytes} {off : Nat} {i : Inode} (h : i.iOpenCnts < 2 ^ 32) :
    ofBytes b off = i ↔ ∀ k, k < inodeSize → b (off + k) = i.bytes k := by
  constructor
  · rintro rfl k hk
    exact (bytes_ofBytes b off hk).symm
  · intro hb
    rw [← ofBytes_bytes i h]
    refine ofBytes_congr (fun k hk => ?_)
    rw [hb k hk, Nat.zero_add]

end Inode

theorem pureInode_iOpenCnts (i : Inode) : (pureInode i).iOpenCnts < 2 ^ 32 := by
  show (0 : Nat) < 2 ^ 32
  omega

/-! ## One slot -/

def slotOff (part : Partition) (n : Nat) : Nat :=
  sectorOff part.sb.inodeTableLba + inodeSize * n

/-- The inode that `inode_open` copies from disk into memory. -/
def readSlot (part : Partition) (disk : Bytes) (n : UInt32) : Inode :=
  let pos := inodePos part n
  Inode.ofBytes (splice (fun _ => 0) 0 (512 * pos.secCnt) (view disk (sectorOff pos.secLba)))
    pos.offSize.toNat

variable {part : Partition} {n : UInt32}

theorem inodePos_offset (part : Partition) (hn : n < 4096) :
    (inodePos part n).offSize.toNat = 76 * n.toNat % 512 := by
  have hn' : n.toNat < 4096 := hn
  show (n * 76 % 512).toNat = _
  rw [UInt32.toNat_mod, UInt32.toNat_mul]
  show n.toNat * 76 % 2 ^ 32 % 512 = _
  omega

/-- A slot has a second sector exactly when the first has no room for it. -/
theorem inodePos_secCnt (part : Partition) (hn : n < 4096) :
    (inodePos part n).secCnt = if 436 < 76 * n.toNat % 512 then 2 else 1 := by
  have hleft : 512 - n * 76 % 512 < 76 ↔ 436 < 76 * n.toNat % 512 := by
    have hoff : (n * 76 % 512).toNat = 76 * n.toNat % 512 := inodePos_offset part hn
    rw [UInt32.lt_iff_toNat_lt, UInt32.toNat_sub_of_le, hoff]
    · show 512 - 76 * n.toNat % 512 < 76 ↔ _
      omega
    · rw [UInt32.le_iff_toNat_le, hoff]
      show _ ≤ 512
      omega
  unfold InodePosition.secCnt inodePos
  simp only [decide_eq_true_eq, hleft]

/-- The slot lies inside its sectors, of which there are one or two. -/
theorem inodePos_span (part : Partition) (hn : n < 4096) :
    76 * n.toNat % 512 + 76 ≤ 512 * (inodePos part n).secCnt ∧
      0 < (inodePos part n).secCnt ∧ (inodePos part n).secCnt ≤ 2 := by
  rw [inodePos_secCnt part hn]
  split <;> omega

/-- The sector, the offset in it and the number of sectors, without wrapping. -/
theorem inodePos_spec (hm : part.Mounted) (hn : n < 4096) :
    (inodePos part n).secLba.toNat = part.sb.inodeTableLba.toNat + 76 * n.toNat / 512 ∧
      (inodePos part n).offSize.toNat = 76 * n.toNat % 512 ∧
      76 * n.toNat % 512 + 76 ≤ 512 * (inodePos part n).secCnt ∧
      0 < (inodePos part n).secCnt ∧ (inodePos part n).secCnt ≤ 2 := by
  have hn' : n.toNat < 4096 := hn
  have htable := hm.inodeTableLba
  have hdata := hm.dataStartLba
  have hdata' := part.sb.dataStartLba.toNat_lt
  have hdiv : (n * 76 / 512).toNat = 76 * n.toNat / 512 := by
    rw [UInt32.toNat_div, UInt32.toNat_mul]
    show n.toNat * 76 % 2 ^ 32 / 512 = _
    omega
  have hlba : (part.sb.inodeTableLba + n * 76 / 512).toNat =
      part.sb.inodeTableLba.toNat + 76 * n.toNat / 512 := by
    rw [UInt32.toNat_add, hdiv]
    omega
  exact ⟨hlba, inodePos_offset part hn, inodePos_span part hn⟩

theorem slotOff_eq (hm : part.Mounted) (hn : n < 4096) :
    sectorOff (inodePos part n).secLba + (inodePos part n).offSize.toNat =
      slotOff part n.toNat := by
  obtain ⟨hlba, hoff, -⟩ := inodePos_spec hm hn
  unfold slotOff sectorOff inodeSize
  rw [hlba, hoff]
  omega

theorem readSlot_eq (hm : part.Mounted) (hn : n < 4096) (disk : Bytes) :
    readSlot part disk n = Inode.ofBytes disk (slotOff part n.toNat) := by
  obtain ⟨-, hoff, hspan, -⟩ := inodePos_spec hm hn
  rw [← slotOff_eq hm hn]
  refine Inode.ofBytes_congr (fun k hk => ?_)
  unfold inodeSize at hk
  rw [splice_inside (Nat.zero_le _) (by omega), Nat.sub_zero, view, Nat.add_assoc]

/-- Every sector that a slot touches is a sector of the partition. -/
theorem inodePos_selectable (hm : part.Mounted) (hn : n < 4096) :
    Selectable (inodePos part n).secLba (inodePos part n).secCnt ∧
      (inodePos part n).secLba ≤ part.startLba + part.secCnt := by
  obtain ⟨hlba, -, -, hpos, htwo⟩ := inodePos_spec hm hn
  have hn' : n.toNat < 4096 := hn
  have hdata := hm.dataStartLba
  have hin := hm.inPartition
  have hdisk := hm.inDisk
  rw [toNat_maxLba] at hdisk
  refine ⟨selectable_of_le hpos (by omega) (by rw [toNat_maxLba]; omega), ?_⟩
  rw [UInt32.le_iff_toNat_le, UInt32.toNat_add, hlba]
  omega

/-- Reading the sectors of a slot, putting 76 bytes in their place and writing the
sectors back is putting the 76 bytes in their place on disk. -/
theorem slot_overwrite (disk data d : Bytes) (off : Nat) {o L n : Nat} (h : off + n ≤ L) :
    splice disk o L (splice (splice data 0 L (view disk o)) off n d) =
      splice disk (o + off) n d := by
  rw [← splice_splice_view L h]
  refine splice_congr (fun i hi => ?_)
  by_cases h' : off ≤ i ∧ i < off + n
  · rw [splice_inside h'.1 h'.2, splice_inside h'.1 h'.2]
  · have hout : i < off ∨ off + n ≤ i := by omega
    rw [splice_outside hout, splice_outside hout, splice_inside (Nat.zero_le i) (by omega),
      Nat.sub_zero]

/-- The write-back that `inodeSync` and `inodeDelete` share. -/
theorem wp_writeSlot {s : State} {F : Fault → Prop} {Q : Unit → State → Prop} {ioBuf : Buf}
    {d : Bytes} (hm : s.part.Mounted) (hn : n < 4096) (hbuf : 1024 ≤ ioBuf.size) :
    Wp (writeSlot (inodePos s.part n) ioBuf d) s F Q ↔
      Q () (s.store (slotOff s.part n.toNat) inodeSize d) := by
  obtain ⟨-, hoff, hspan, -, htwo⟩ := inodePos_spec hm hn
  obtain ⟨hsel, -⟩ := inodePos_selectable hm hn
  have hread : 512 * (inodePos s.part n).secCnt ≤ ioBuf.size := by omega
  have hput : (inodePos s.part n).offSize.toNat + inodeSize ≤ 512 * (inodePos s.part n).secCnt := by
    unfold inodeSize
    omega
  have hput' : (inodePos s.part n).offSize.toNat + inodeSize ≤ ioBuf.size := by omega
  unfold writeSlot
  simp only [Wp.bind, wp_ideRead, wp_put, wp_ideWrite, hsel, hread, hput', not_true_eq_false,
    false_implies, and_true, true_implies]
  unfold State.store
  simp only [slot_overwrite _ _ _ _ hput, slotOff_eq hm hn]

/-- `inode_sync` overwrites the slot that the low byte of the inode number names. -/
theorem wp_inodeSync {s : State} {F : Fault → Prop} {Q : Unit → State → Prop} {ioBuf : Buf}
    {i : Inode} (hm : s.part.Mounted) (hbuf : 1024 ≤ ioBuf.size) :
    Wp (inodeSync i ioBuf) s F Q ↔
      Q () (s.store (slotOff s.part (i.iNo.toNat % 256)) inodeSize (pureInode i).bytes) := by
  have hno : i.iNo.toUInt8.toUInt32.toNat = i.iNo.toNat % 256 := by
    rw [UInt8.toNat_toUInt32, UInt32.toNat_toUInt8]
  have hlt : i.iNo.toUInt8.toUInt32 < 4096 := by
    rw [UInt32.lt_iff_toNat_lt, hno]
    show _ < 4096
    omega
  obtain ⟨-, hle⟩ := inodePos_selectable hm hlt
  unfold inodeSync
  simp only [Wp.bind, Wp.get, wp_inodeLocate, wp_kassert, hlt, hle, not_true_eq_false,
    false_implies, and_true, true_implies]
  rw [wp_writeSlot hm hlt hbuf, hno]

/-! ## Reading back what was written -/

/-- `j` is `i` with the fields cleared that mean nothing on disk. -/
def Inode.StoredAs (i j : Inode) : Prop :=
  j.iNo = i.iNo ∧ j.iSize = i.iSize ∧ j.iSectors = i.iSectors ∧
    j.iOpenCnts = 0 ∧ j.writeDeny = 0 ∧ j.tagPrev = 0 ∧ j.tagNext = 0

theorem Inode.storedAs_iff {i j : Inode} : i.StoredAs j ↔ j = pureInode i := by
  obtain ⟨jNo, jSize, jCnts, jDeny, jSectors, jPrev, jNext⟩ := j
  unfold StoredAs pureInode
  rw [Inode.mk.injEq]
  constructor
  · rintro ⟨h₁, h₂, h₃, h₄, h₅, h₆, h₇⟩
    exact ⟨h₁, h₂, h₄, h₅, h₃, h₆, h₇⟩
  · rintro ⟨h₁, h₂, h₄, h₅, h₃, h₆, h₇⟩
    exact ⟨h₁, h₂, h₃, h₄, h₅, h₆, h₇⟩

/-- Between `s` and `t` the inode was written to its slot and to no other. -/
def SlotSynced (s t : State) (i : Inode) : Prop :=
  i.StoredAs (readSlot t.part t.disk i.iNo) ∧
    ∀ m, m < 4096 → m ≠ i.iNo.toNat → ∀ k, k < inodeSize →
      t.disk (slotOff t.part m + k) = s.disk (slotOff s.part m + k)

def SlotHolds (s : State) (n : Nat) (i : Inode) : Prop :=
  ∀ k, k < inodeSize → s.disk (slotOff s.part n + k) = (pureInode i).bytes k

/-- Distinct slots have no byte in common. -/
theorem store_slot_ne (s : State) (d : Bytes) {m n k : Nat} (h : m ≠ n) (hk : k < inodeSize) :
    (s.store (slotOff s.part n) inodeSize d).disk (slotOff s.part m + k) =
      s.disk (slotOff s.part m + k) := by
  refine splice_outside ?_
  unfold slotOff inodeSize at *
  omega

theorem store_slot_eq (s : State) (d : Bytes) {n k : Nat} (hk : k < inodeSize) :
    (s.store (slotOff s.part n) inodeSize d).disk (slotOff s.part n + k) = d k :=
  splice_at hk

/-- `inode_sync` keeps its promise for the inode numbers below 256, and for a larger
one only when both its slot and the slot of its low byte held the inode before. -/
theorem inodeSync_synced_iff {s : State} {i : Inode} {ioBuf : Buf} (hm : s.part.Mounted)
    (hn : i.iNo < 4096) (hbuf : 1024 ≤ ioBuf.size) :
    Returns (inodeSync i ioBuf) s (fun _ t => SlotSynced s t i) ↔
      i.iNo.toNat < 256 ∨
        (SlotHolds s i.iNo.toNat i ∧ SlotHolds s (i.iNo.toNat % 256) i) := by
  have hn' : i.iNo.toNat < 4096 := hn
  rw [Returns, wp_inodeSync hm hbuf]
  unfold SlotSynced
  show Inode.StoredAs i (readSlot s.part _ i.iNo) ∧ _ ↔ _
  rw [Inode.storedAs_iff, readSlot_eq hm hn, Inode.ofBytes_eq_iff (pureInode_iOpenCnts i)]
  by_cases hlow : i.iNo.toNat < 256
  · have hmod : i.iNo.toNat % 256 = i.iNo.toNat := Nat.mod_eq_of_lt hlow
    rw [hmod]
    refine ⟨fun _ => Or.inl hlow, fun _ => ⟨?_, ?_⟩⟩
    · intro k hk
      exact store_slot_eq s _ hk
    · intro m _ hne k hk
      exact store_slot_ne s _ hne hk
  · have hne : i.iNo.toNat % 256 ≠ i.iNo.toNat := by omega
    constructor
    · rintro ⟨hread, hframe⟩
      refine Or.inr ⟨fun k hk => ?_, fun k hk => ?_⟩
      · rw [← hread k hk]
        exact (store_slot_ne s _ hne.symm hk).symm
      · rw [← hframe (i.iNo.toNat % 256) (by omega) hne k hk]
        exact store_slot_eq s _ hk
    · rintro (hlt | ⟨hown, hlowbyte⟩)
      · exact absurd hlt hlow
      · refine ⟨fun k hk => ?_, fun m _ hm' k hk => ?_⟩
        · rw [← hown k hk]
          exact store_slot_ne s _ hne.symm hk
        · by_cases h : m = i.iNo.toNat % 256
          · rw [h, hlowbyte k hk]
            exact store_slot_eq s _ hk
          · exact store_slot_ne s _ h hk

/-- An empty file's inode with the given number. -/
def freshInode (inodeNo : UInt32) : Inode := inodeInit inodeNo .zero

theorem inodeSync_synced_slot3 :
    Returns (inodeSync (freshInode 3) (.zero 1024)) (idleState (emptyPart 2048 8192))
      (fun _ t => SlotSynced (idleState (emptyPart 2048 8192)) t (freshInode 3)) :=
  (inodeSync_synced_iff emptyPart_mounted (by decide) (by decide)).mpr (Or.inl (by decide))

/-- The inode of file 256 goes to slot 0, so slot 256 does not read back as it. -/
theorem inodeSync_loses_slot256 :
    (idleState (emptyPart 2048 8192)).part.Mounted ∧ (freshInode 256).iNo < 4096 ∧
      ¬Returns (inodeSync (freshInode 256) (.zero 1024)) (idleState (emptyPart 2048 8192))
        (fun _ t => SlotSynced (idleState (emptyPart 2048 8192)) t (freshInode 256)) := by
  refine ⟨emptyPart_mounted, by decide, fun h => ?_⟩
  rw [Returns, wp_inodeSync emptyPart_mounted (by decide)] at h
  have hno : (256 : UInt32) = 0 := by
    refine Eq.trans h.1.1.symm ?_
    decide +kernel
  exact absurd hno (by decide)

/-! ## Clearing a slot -/

/-- Slot `n` crosses the boundary between two sectors. -/
def CrossesSector (part : Partition) (n : Nat) : Prop :=
  slotOff part n / 512 ≠ (slotOff part n + 75) / 512

theorem two_sec_iff (hm : part.Mounted) (hn : n < 4096) :
    (inodePos part n).twoSec = true ↔ CrossesSector part n.toNat := by
  obtain ⟨-, hoff, -⟩ := inodePos_spec hm hn
  have hslot := slotOff_eq hm hn
  have hmod : (512 - (inodePos part n).offSize).toNat = 512 - 76 * n.toNat % 512 := by
    rw [UInt32.toNat_sub_of_le, hoff]
    · rfl
    · rw [UInt32.le_iff_toNat_le, hoff]
      show _ ≤ 512
      omega
  have htwoSec : (inodePos part n).twoSec = true ↔ 512 - 76 * n.toNat % 512 < 76 := by
    rw [← hmod]
    simp only [inodePos, decide_eq_true_eq, UInt32.lt_iff_toNat_lt]
    rfl
  have hlt : 76 * n.toNat % 512 < 512 := Nat.mod_lt _ (by omega)
  rw [htwoSec, CrossesSector, ← hslot, sectorOff, hoff]
  generalize 76 * n.toNat % 512 = r at hlt
  omega

/-- `t` is `s` with slot `n` of the inode table zeroed. -/
structure SlotZeroed (s t : State) (n : Nat) : Prop where
  zero : ∀ k, k < inodeSize → t.disk (slotOff s.part n + k) = 0
  frame : ∀ o, o < slotOff s.part n ∨ slotOff s.part n + inodeSize ≤ o → t.disk o = s.disk o
  rest : t = { s with disk := t.disk }

theorem slotZeroed_store (s : State) (n : Nat) :
    SlotZeroed s (s.store (slotOff s.part n) inodeSize fun _ => 0) n where
  zero _ hk := store_slot_eq s _ hk
  frame o ho := by
    show splice s.disk (slotOff s.part n) inodeSize (fun _ => 0) o = s.disk o
    exact splice_outside ho
  rest := rfl

theorem wp_inodeDelete {s : State} {F : Fault → Prop} {Q : Unit → State → Prop} {ioBuf : Buf}
    (hm : s.part.Mounted) (hn : n < 4096) (hbuf : 1024 ≤ ioBuf.size) :
    Wp (inodeDelete n ioBuf) s F Q ↔
      Q () (s.store (slotOff s.part n.toNat) inodeSize fun _ => 0) := by
  unfold inodeDelete
  simp only [Wp.bind, Wp.get, wp_inodeLocate, wp_kassert, hn, not_true_eq_false,
    false_implies, and_true, true_implies]
  exact wp_writeSlot hm hn hbuf

/-- `inode_delete` zeroes the slot of the inode and nothing else, and the sectors that
`inode_locate` gives hold the whole slot. -/
theorem inodeDelete_zeroes {s : State} {ioBuf : Buf} (hm : s.part.Mounted) (hn : n < 4096)
    (hbuf : 1024 ≤ ioBuf.size) :
    Returns (inodeDelete n ioBuf) s (fun _ t => SlotZeroed s t n.toNat) ∧
      ∃ pos, inodeLocate s.part n = .ok pos ∧
        (pos.twoSec = true ↔ CrossesSector s.part n.toNat) ∧
        sectorOff pos.secLba ≤ slotOff s.part n.toNat ∧
        slotOff s.part n.toNat + inodeSize ≤ sectorOff pos.secLba + 512 * pos.secCnt := by
  constructor
  · rw [Returns, wp_inodeDelete hm hn hbuf]
    exact slotZeroed_store s n.toNat
  · obtain ⟨-, hoff, hspan, -⟩ := inodePos_spec hm hn
    have hslot := slotOff_eq hm hn
    have hlocate : inodeLocate s.part n = .ok (inodePos s.part n) := inodeLocate_eq hn
    refine ⟨inodePos s.part n, hlocate, two_sec_iff hm hn, ?_, ?_⟩
    · omega
    · unfold inodeSize
      omega

/-- Slot 6 crosses from the first sector of the table into the second. -/
theorem inodeDelete_zeroes_slot6 :
    Returns (inodeDelete 6 (.zero 1024)) (idleState (emptyPart 2048 8192))
        (fun _ t => SlotZeroed (idleState (emptyPart 2048 8192)) t 6) ∧
      ∃ pos, inodeLocate (emptyPart 2048 8192) 6 = .ok pos ∧
        (pos.twoSec = true ↔ CrossesSector (emptyPart 2048 8192) 6) ∧
        sectorOff pos.secLba ≤ slotOff (emptyPart 2048 8192) 6 ∧
        slotOff (emptyPart 2048 8192) 6 + inodeSize ≤ sectorOff pos.secLba + 512 * pos.secCnt :=
  inodeDelete_zeroes (s := idleState (emptyPart 2048 8192)) emptyPart_mounted (by decide)
    (by decide)

end OsTruth
