/-
What `sync_dir_entry` does: it takes the first place among the direct blocks, a free
slot or a block that is missing, and otherwise a new indirect table.
-/
import OsTruth.Fs.BitmapSync
import OsTruth.Fs.DirSlots
import OsTruth.Fs.InodeSlot

namespace OsTruth

open ByteString Fallible

variable {s : State} {F : Fault → Prop}

/-! ## States -/

@[simp] theorem State.takeBlock_inodes (s : State) (b : Nat) :
    (s.takeBlock b).inodes = s.inodes := rfl

@[simp] theorem State.takeBlock_sb (s : State) (b : Nat) :
    (s.takeBlock b).part.sb = s.part.sb := rfl

theorem State.takeBlock_mounted (hm : s.part.Mounted) (b : Nat) :
    (s.takeBlock b).part.Mounted :=
  hm.setBlockBit b true

/-! ## Small steps -/

/-- The directory inode with one more entry. -/
def Inode.grown (i : Inode) : Inode := { i with iSize := i.iSize + 24 }

theorem entrySize_eq (hm : s.part.Mounted) : s.part.sb.dirEntrySize = 24 :=
  UInt32.toNat_inj.mp hm.entrySize

theorem wp_getEntrySize_mounted {Q : UInt32 → State → Prop} (hm : s.part.Mounted) :
    Wp getEntrySize s F Q ↔ Q 24 s := by
  rw [wp_getEntrySize, entrySize_eq hm]
  simp [dirEntrySize]

theorem wp_growDir {p : Ptr} {i : Inode} {Q : Unit → State → Prop} (hm : s.part.Mounted)
    (hi : s.inodes p = some i) :
    Wp (growDir p) s F Q ↔ Q () (s.putInode p (some i.grown)) := by
  unfold growDir
  rw [Wp.bind, wp_getEntrySize_mounted hm, Wp.bind, wp_loadInode_some hi, wp_storeInode_some hi]
  exact Iff.rfl

theorem freeSlot_congr {b c : Bytes} (h : ∀ a, a < 512 → b a = c a) :
    ∀ left idx, idx + left ≤ dirEntrysPerSec → freeSlot b left idx = freeSlot c left idx := by
  intro left
  induction left with
  | zero => exact fun _ _ => rfl
  | succ left ih =>
      intro idx hle
      have hper : dirEntrysPerSec = 21 := rfl
      have hslot : slotAt b idx = slotAt c idx := by
        refine DirEntry.ofBytes_congr (fun k hk => h _ ?_)
        unfold dirEntrySize at *
        omega
      rw [freeSlot, freeSlot, hslot, ih (idx + 1) (by omega)]

theorem freeSlot_some {b : Bytes} :
    ∀ {left idx j : Nat}, freeSlot b left idx = some j →
      idx ≤ j ∧ j < idx + left ∧ (slotAt b j).fType = 0 := by
  intro left
  induction left with
  | zero =>
      intro idx j h
      cases h
  | succ left ih =>
      intro idx j h
      rw [freeSlot] at h
      by_cases hfree : (slotAt b idx).fType = FileType.unknown.code
      · rw [if_pos hfree] at h
        cases h
        exact ⟨Nat.le_refl _, by omega, hfree⟩
      · rw [if_neg hfree] at h
        obtain ⟨h₁, h₂, h₃⟩ := ih h
        exact ⟨by omega, by omega, h₃⟩

theorem freeSlot_none {b : Bytes} :
    ∀ {left idx j : Nat}, freeSlot b left idx = none → idx ≤ j → j < idx + left →
      (slotAt b j).fType ≠ 0 := by
  intro left
  induction left with
  | zero =>
      intro idx j _ h₁ h₂
      omega
  | succ left ih =>
      intro idx j h h₁ h₂
      rw [freeSlot] at h
      by_cases hfree : (slotAt b idx).fType = FileType.unknown.code
      · rw [if_pos hfree] at h
        cases h
      · rw [if_neg hfree] at h
        by_cases hj : j = idx
        · rw [hj]
          exact hfree
        · exact ih h (by omega) (by omega)

/-- The first free slot of the block in sector `lba`. -/
def freeIn (disk : Bytes) (lba : UInt32) : Option Nat :=
  freeSlot (view disk (sectorOff lba)) dirEntrysPerSec 0

/-- A block whose only entry is `e`, in its first slot. -/
def entryBlock (e : DirEntry) : Bytes := splice (fun _ => 0) 0 dirEntrySize e.bytes

section

variable {p : Ptr} {e : DirEntry} {allBlocks : BlockArray} {i : Inode} {ioBuf : Buf}

/-- What the buffer holds once a block is read into it. -/
theorem freeSlot_read (disk : Bytes) (lba : UInt32) (data : Bytes) :
    freeSlot (splice data 0 512 (view disk (sectorOff lba))) dirEntrysPerSec 0 =
      freeIn disk lba := by
  refine freeSlot_congr (fun a ha => ?_) dirEntrysPerSec 0 (by omega)
  rw [splice_inside (Nat.zero_le a) (by omega), Nat.sub_zero]

/-- The round at a block with a free slot. -/
theorem wp_syncBlocks_hole {Q : Bool → State → Prop} {left k j : Nat} (hm : s.part.Mounted)
    (hi : s.inodes p = some i) (hio : 512 ≤ ioBuf.size) (hne : allBlocks k ≠ 0)
    (hsel : Selectable (allBlocks k) 1) (hfree : freeIn s.disk (allBlocks k) = some j) :
    Wp (syncBlocks p e allBlocks (left + 1) k ioBuf) s F Q ↔
      Q true ((s.store (slotPlace (allBlocks k) j) dirEntrySize e.bytes).putInode p
        (some i.grown)) := by
  obtain ⟨-, hj, -⟩ := freeSlot_some hfree
  have hper : dirEntrysPerSec = 21 := rfl
  have hsize : dirEntrySize = 24 := rfl
  have hin : dirEntrySize * j + dirEntrySize ≤ 512 := by
    rw [hsize]
    omega
  have hput : dirEntrySize * j + dirEntrySize ≤ ioBuf.size := by omega
  have hwrite := slot_overwrite s.disk ioBuf.data e.bytes (dirEntrySize * j)
    (o := sectorOff (allBlocks k)) (L := 512 * 1) (n := dirEntrySize) (by omega)
  have hgrow : ∀ t : State, t.part.Mounted → t.inodes p = some i →
      (Wp (growDir p) t F (fun _ u => Q true u) ↔ Q true (t.putInode p (some i.grown))) :=
    fun t ht hti => wp_growDir ht hti
  rw [syncBlocks, if_neg hne]
  simp only [Wp.bind, wp_ideRead, hsel, Nat.mul_one, hio, freeSlot_read, hfree, wp_put, hput,
    wp_ideWrite, Wp.pure, not_true_eq_false, false_implies, and_true, true_implies]
  rw [Nat.mul_one] at hwrite
  unfold State.store
  rw [hwrite]
  exact hgrow _ hm hi

/-- The rounds over blocks without a free slot change the buffer only. -/
theorem wp_syncBlocks_skip (m : Nat) : ∀ (k : Nat) (ioBuf : Buf), 512 ≤ ioBuf.size →
    (∀ k', k ≤ k' → k' < k + m → allBlocks k' ≠ 0 ∧ Selectable (allBlocks k') 1 ∧
      freeIn s.disk (allBlocks k') = none) →
    ∃ ioBuf' : Buf, ioBuf'.size = ioBuf.size ∧
      ∀ (F : Fault → Prop) (Q : Bool → State → Prop) (left : Nat),
        Wp (syncBlocks p e allBlocks (left + m) k ioBuf) s F Q ↔
          Wp (syncBlocks p e allBlocks left (k + m) ioBuf') s F Q := by
  induction m with
  | zero => exact fun k ioBuf _ _ => ⟨ioBuf, rfl, fun _ _ _ => Iff.rfl⟩
  | succ m ih =>
      intro k ioBuf hio h
      obtain ⟨hne, hsel, hfree⟩ := h k (Nat.le_refl k) (by omega)
      obtain ⟨ioBuf', hsize', hrest⟩ := ih (k + 1)
        ⟨ioBuf.size, splice ioBuf.data 0 512 (view s.disk (sectorOff (allBlocks k)))⟩ hio
        (fun k' h₁ h₂ => h k' (by omega) (by omega))
      refine ⟨ioBuf', hsize', fun F Q left => ?_⟩
      have hassoc : k + (m + 1) = k + 1 + m := by omega
      rw [hassoc, ← hrest F Q left, ← Nat.add_assoc, syncBlocks, if_neg hne]
      simp only [Wp.bind, wp_ideRead, hsel, Nat.mul_one, hio, freeSlot_read, hfree, not_true_eq_false,
        false_implies, and_true, true_implies]

theorem wp_fillBlock {Q : Bool → State → Prop} (lba : UInt32) (hm : s.part.Mounted)
    (hi : s.inodes p = some i) (hio : 512 ≤ ioBuf.size) :
    Wp (fillBlock p e ioBuf lba) s F Q ↔
      (Selectable lba 1 →
        Q true ((s.store (sectorOff lba) 512 (entryBlock e)).putInode p (some i.grown))) ∧
        (¬Selectable lba 1 → F .assert) := by
  have hsize : dirEntrySize = 24 := rfl
  have hput : 0 + dirEntrySize ≤ ioBuf.size := by omega
  have hput' : 0 + 512 ≤ ioBuf.size := by omega
  have hdata : splice s.disk (sectorOff lba) (512 * 1)
      (splice (splice ioBuf.data 0 512 fun _ => 0) 0 dirEntrySize e.bytes) =
        splice s.disk (sectorOff lba) 512 (entryBlock e) := by
    rw [Nat.mul_one]
    refine splice_congr (fun a ha => ?_)
    unfold entryBlock
    by_cases hlow : a < 0 + dirEntrySize
    · rw [splice_inside (Nat.zero_le a) hlow, splice_inside (Nat.zero_le a) hlow]
    · rw [splice_outside (Or.inr (Nat.not_lt.mp hlow)),
        splice_outside (Or.inr (Nat.not_lt.mp hlow)), splice_inside (Nat.zero_le a) (by omega)]
  have hgrow : ∀ t : State, t.part.Mounted → t.inodes p = some i →
      (Wp (growDir p) t F (fun _ u => Q true u) ↔ Q true (t.putInode p (some i.grown))) :=
    fun t ht hti => wp_growDir ht hti
  unfold fillBlock
  simp only [Wp.bind, wp_put, hput, hput', wp_ideWrite, Wp.pure, not_true_eq_false,
    false_implies, and_true, true_implies, Nat.mul_one]
  rw [Nat.mul_one] at hdata
  refine and_congr_left fun _ => forall_congr' fun _ => ?_
  unfold State.store
  rw [hdata]
  exact hgrow _ hm hi

/-- The directory after its new block `lba`, number `k`, was filled with the entry. -/
def State.withEntryBlock (s : State) (p : Ptr) (i : Inode) (e : DirEntry) (lba : UInt32) : State :=
  (s.store (sectorOff lba) 512 (entryBlock e)).putInode p (some i.grown)

/-- The round at a direct block that is missing. -/
theorem wp_syncNewBlock_direct {Q : Bool → State → Prop} {k : Nat} (hm : s.part.Mounted)
    (hi : s.inodes p = some i) (hio : 512 ≤ ioBuf.size) (hk : k < 12) :
    Wp (syncNewBlock p e ioBuf allBlocks k) s F Q ↔
      (∀ b, s.part.blockBitmap.FirstClear b →
        (Selectable (blockAddr s.part b) 1 →
          Q true ((s.takeBlock b).withEntryBlock p (i.setSector k (blockAddr s.part b)) e
            (blockAddr s.part b))) ∧
        (¬Selectable (blockAddr s.part b) 1 → F .assert)) ∧
      (s.part.blockBitmap.Full → F .assert) := by
  unfold syncNewBlock
  rw [Wp.bind, wp_allocAndSync hm]
  refine and_congr_left fun _ => forall_congr' fun b => forall_congr' fun hb => ?_
  rw [if_neg (blockAddr_ne hm hb.1), Wp.bind, hookBlock, if_pos hk]
  simp only [Wp.bind, wp_loadInode, wp_storeInode, State.takeBlock_inodes, hi, Wp.pure,
    Option.some.injEq, forall_eq', reduceCtorEq, false_implies, and_true, Option.isSome_some,
    true_implies]
  have hfill := wp_fillBlock (s := (s.takeBlock b).putInode p
    (some (i.setSector k (blockAddr s.part b)))) (F := F) (Q := Q) (e := e)
    (blockAddr s.part b) (State.takeBlock_mounted hm b) (State.putInode_same ..) hio
  refine hfill.trans ?_
  refine and_congr_left fun _ => forall_congr' fun _ => ?_
  unfold State.withEntryBlock
  rw [← State.putInode_putInode ((s.takeBlock b).store _ _ _) p
    (some (i.setSector k (blockAddr s.part b)))]
  exact Iff.rfl

/-- The new indirect table: the first entry is the new block, and the rest is what
`all_blocks` holds behind the direct blocks. -/
def newTable (allBlocks : BlockArray) (lba : UInt32) : Bytes :=
  ofWords fun j => if j = 0 then lba else allBlocks (12 + j)

/-- The round behind the direct blocks. -/
theorem wp_syncNewBlock_table {Q : Bool → State → Prop} (hm : s.part.Mounted)
    (hi : s.inodes p = some i) (hio : 512 ≤ ioBuf.size) :
    Wp (syncNewBlock p e ioBuf allBlocks 12) s F Q ↔
      (∀ b, s.part.blockBitmap.FirstClear b →
        (∀ c, (s.takeBlock b).part.blockBitmap.FirstClear c →
          (Selectable (blockAddr s.part b) 1 →
            (Selectable (blockAddr s.part c) 1 →
              Q true ((((s.takeBlock b).takeBlock c).store (sectorOff (blockAddr s.part b)) 512
                (newTable allBlocks (blockAddr s.part c))).withEntryBlock p
                  (i.setSector 12 (blockAddr s.part b)) e (blockAddr s.part c))) ∧
            (¬Selectable (blockAddr s.part c) 1 → F .assert)) ∧
          (¬Selectable (blockAddr s.part b) 1 → F .assert)) ∧
        ((s.takeBlock b).part.blockBitmap.Full → F .assert)) ∧
      (s.part.blockBitmap.Full → F .assert) := by
  unfold syncNewBlock
  rw [Wp.bind, wp_allocAndSync hm]
  refine and_congr_left fun _ => forall_congr' fun b => forall_congr' fun hb => ?_
  rw [if_neg (blockAddr_ne hm hb.1), Wp.bind, hookBlock, if_neg (by omega), if_pos rfl]
  simp only [Wp.bind, wp_loadInode, wp_storeInode, State.takeBlock_inodes, hi,
    Option.some.injEq, forall_eq', reduceCtorEq, false_implies, and_true, Option.isSome_some,
    true_implies]
  have hm' := State.takeBlock_mounted hm b
  rw [wp_allocAndSync (s := (s.takeBlock b).putInode p
    (some (i.setSector 12 (blockAddr s.part b)))) hm']
  refine and_congr (forall_congr' fun c => forall_congr' fun hc => ?_) Iff.rfl
  have haddr : blockAddr ((s.takeBlock b).putInode p
      (some (i.setSector 12 (blockAddr s.part b)))).part c = blockAddr s.part c := rfl
  have hne : blockAddr s.part c ≠ -1 := blockAddr_ne hm' hc.1
  rw [haddr, if_neg hne]
  simp only [Wp.bind, wp_ideWriteTable, Wp.pure]
  refine and_congr_left fun _ => forall_congr' fun _ => ?_
  have hfill := wp_fillBlock (s := ((((s.takeBlock b).putInode p
    (some (i.setSector 12 (blockAddr s.part b)))).takeBlock c).store
      (sectorOff (blockAddr s.part b)) 512 (newTable allBlocks (blockAddr s.part c))))
    (F := F) (Q := Q) (e := e) (blockAddr s.part c)
    (State.takeBlock_mounted hm' c) (State.putInode_same ..) hio
  have htable : (ofWords fun j => if 12 + j = 12 then blockAddr s.part c else allBlocks (12 + j)) =
      newTable allBlocks (blockAddr s.part c) := by
    unfold newTable
    refine congrArg ofWords (funext fun j => ?_)
    by_cases hj : j = 0
    · simp [hj]
    · simp [hj]
  refine Iff.trans ?_ (hfill.trans ?_)
  · rw [← htable]
  · refine and_congr_left fun _ => forall_congr' fun _ => ?_
    unfold State.withEntryBlock
    rw [← State.putInode_putInode ((((s.takeBlock b).takeBlock c).store _ _ _).store _ _ _) p
      (some (i.setSector 12 (blockAddr s.part b)))]
    exact Iff.rfl

end

/-! ## The first place -/

section

variable {p : Ptr} {d : DirPtr} {e : DirEntry} {i : Inode} {ioBuf : Buf} {k : Nat}

/-- The direct blocks below `k` exist and have no free slot. -/
def FullBelow (disk : Bytes) (i : Inode) (k : Nat) : Prop :=
  ∀ k', k' < k → i.sector k' ≠ 0 ∧ Selectable (i.sector k') 1 ∧ freeIn disk (i.sector k') = none

/-- The first place: a free slot, a missing direct block, or no place up to number 12. -/
theorem exists_place (disk : Bytes) (i : Inode)
    (hsel : ∀ k, k < 12 → i.sector k ≠ 0 → Selectable (i.sector k) 1) :
    FullBelow disk i 12 ∨ ∃ k, k < 12 ∧ FullBelow disk i k ∧
      (i.sector k = 0 ∨ ∃ j, i.sector k ≠ 0 ∧ freeIn disk (i.sector k) = some j) := by
  have hstep : ∀ n, n ≤ 12 → FullBelow disk i n ∨ ∃ k, k < 12 ∧ FullBelow disk i k ∧
      (i.sector k = 0 ∨ ∃ j, i.sector k ≠ 0 ∧ freeIn disk (i.sector k) = some j) := by
    intro n
    induction n with
    | zero => exact fun _ => Or.inl (fun k' hk' => absurd hk' (Nat.not_lt_zero k'))
    | succ n ih =>
        intro hn
        rcases ih (by omega) with hfull | hplace
        · by_cases hz : i.sector n = 0
          · exact Or.inr ⟨n, by omega, hfull, Or.inl hz⟩
          · cases hfree : freeIn disk (i.sector n) with
            | some j => exact Or.inr ⟨n, by omega, hfull, Or.inr ⟨j, hz, hfree⟩⟩
            | none =>
                refine Or.inl fun k' hk' => ?_
                by_cases hk : k' = n
                · rw [hk]
                  exact ⟨hz, hsel n (by omega) hz, hfree⟩
                · exact hfull k' (by omega)
        · exact Or.inr hplace
  exact hstep 12 (Nat.le_refl 12)

theorem directBlocks_lt (i : Inode) (h : k < 12) : directBlocks i k = i.sector k := if_pos h

theorem directBlocks_ge (i : Inode) (h : 12 ≤ k) : directBlocks i k = 0 :=
  if_neg (Nat.not_lt.mpr h)

/-- `sync_dir_entry` up to the first place. -/
theorem wp_syncDirEntry_at (hm : s.part.Mounted) (hd : s.inodeOf d = some p)
    (hi : s.inodes p = some i) (hio : 512 ≤ ioBuf.size) (hk : k ≤ 12)
    (hfull : FullBelow s.disk i k) :
    ∃ ioBuf' : Buf, 512 ≤ ioBuf'.size ∧ ∀ (F : Fault → Prop) (Q : Bool → State → Prop),
      Wp (syncDirEntry d e ioBuf) s F Q ↔
        (i.iSize % 24 = 0 →
          Wp (syncBlocks p e (directBlocks i) (140 - k) k ioBuf') s F Q) ∧
        (i.iSize % 24 ≠ 0 → F .assert) := by
  have hbelow : ∀ k', 0 ≤ k' → k' < 0 + k → directBlocks i k' ≠ 0 ∧
      Selectable (directBlocks i k') 1 ∧ freeIn s.disk (directBlocks i k') = none := by
    intro k' _ hk'
    rw [directBlocks_lt i (by omega)]
    exact hfull k' (by omega)
  obtain ⟨ioBuf', hsize, hskip⟩ := wp_syncBlocks_skip (p := p) (e := e) k 0 ioBuf hio hbelow
  refine ⟨ioBuf', by omega, fun F Q => ?_⟩
  have hsum : 140 - k + k = 140 := by omega
  have hrest := hskip F Q (140 - k)
  rw [hsum, Nat.zero_add] at hrest
  unfold syncDirEntry
  rw [Wp.bind, wp_dirInode_some hd, Wp.bind, wp_loadInode_some hi, Wp.bind,
    wp_getEntrySize_mounted hm, Wp.bind, wp_kassert, hrest]

theorem wp_syncDirEntry_hole {F : Fault → Prop} {Q : Bool → State → Prop} {j : Nat}
    (hm : s.part.Mounted) (hd : s.inodeOf d = some p) (hi : s.inodes p = some i)
    (hio : 512 ≤ ioBuf.size) (hk : k < 12) (hfull : FullBelow s.disk i k)
    (hne : i.sector k ≠ 0) (hsel : Selectable (i.sector k) 1)
    (hfree : freeIn s.disk (i.sector k) = some j) :
    Wp (syncDirEntry d e ioBuf) s F Q ↔
      (i.iSize % 24 = 0 → Q true ((s.store (slotPlace (i.sector k) j) dirEntrySize
        e.bytes).putInode p (some i.grown))) ∧
      (i.iSize % 24 ≠ 0 → F .assert) := by
  obtain ⟨ioBuf', hio', hat⟩ := wp_syncDirEntry_at (e := e) hm hd hi hio (by omega) hfull
  have hleft : 140 - k = 139 - k + 1 := by omega
  rw [hat, hleft, wp_syncBlocks_hole (j := j) hm hi hio'
    (by rwa [directBlocks_lt i hk]) (by rwa [directBlocks_lt i hk])
    (by rwa [directBlocks_lt i hk]), directBlocks_lt i hk]

theorem wp_syncDirEntry_direct {F : Fault → Prop} {Q : Bool → State → Prop}
    (hm : s.part.Mounted) (hd : s.inodeOf d = some p) (hi : s.inodes p = some i)
    (hio : 512 ≤ ioBuf.size) (hk : k < 12) (hfull : FullBelow s.disk i k)
    (hz : i.sector k = 0) :
    Wp (syncDirEntry d e ioBuf) s F Q ↔
      (i.iSize % 24 = 0 →
        (∀ b, s.part.blockBitmap.FirstClear b →
          (Selectable (blockAddr s.part b) 1 →
            Q true ((s.takeBlock b).withEntryBlock p (i.setSector k (blockAddr s.part b)) e
              (blockAddr s.part b))) ∧
          (¬Selectable (blockAddr s.part b) 1 → F .assert)) ∧
        (s.part.blockBitmap.Full → F .assert)) ∧
      (i.iSize % 24 ≠ 0 → F .assert) := by
  obtain ⟨ioBuf', hio', hat⟩ := wp_syncDirEntry_at (e := e) hm hd hi hio (by omega) hfull
  have hleft : 140 - k = 139 - k + 1 := by omega
  have hz' : directBlocks i k = 0 := by rwa [directBlocks_lt i hk]
  rw [hat, hleft, syncBlocks, if_pos hz', wp_syncNewBlock_direct hm hi hio' hk]

theorem wp_syncDirEntry_table {F : Fault → Prop} {Q : Bool → State → Prop}
    (hm : s.part.Mounted) (hd : s.inodeOf d = some p) (hi : s.inodes p = some i)
    (hio : 512 ≤ ioBuf.size) (hfull : FullBelow s.disk i 12) :
    Wp (syncDirEntry d e ioBuf) s F Q ↔
      (i.iSize % 24 = 0 →
        (∀ b, s.part.blockBitmap.FirstClear b →
          (∀ c, (s.takeBlock b).part.blockBitmap.FirstClear c →
            (Selectable (blockAddr s.part b) 1 →
              (Selectable (blockAddr s.part c) 1 →
                Q true ((((s.takeBlock b).takeBlock c).store (sectorOff (blockAddr s.part b)) 512
                  (newTable (directBlocks i) (blockAddr s.part c))).withEntryBlock p
                    (i.setSector 12 (blockAddr s.part b)) e (blockAddr s.part c))) ∧
              (¬Selectable (blockAddr s.part c) 1 → F .assert)) ∧
            (¬Selectable (blockAddr s.part b) 1 → F .assert)) ∧
          ((s.takeBlock b).part.blockBitmap.Full → F .assert)) ∧
        (s.part.blockBitmap.Full → F .assert)) ∧
      (i.iSize % 24 ≠ 0 → F .assert) := by
  obtain ⟨ioBuf', hio', hat⟩ := wp_syncDirEntry_at (e := e) hm hd hi hio (Nat.le_refl 12) hfull
  have hleft : 140 - 12 = 127 + 1 := by omega
  rw [hat, hleft, syncBlocks, if_pos (directBlocks_ge i (Nat.le_refl 12)),
    wp_syncNewBlock_table hm hi hio']

end

end OsTruth
