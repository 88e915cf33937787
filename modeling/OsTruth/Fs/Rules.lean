/-
Weakest preconditions of the primitives of `Fs/State.lean` and of the allocation
functions.

As in the library each rule is an equivalence.  The conjuncts are the ways in which
the primitive ends, each under its own condition.
-/
import OsTruth.Fs.FileRw

namespace OsTruth

open ByteString Fallible

variable {α : Type} {s : State} {F : Fault → Prop}

/-! ## States -/

@[simp] theorem State.putInode_part (s : State) (p : Ptr) (o : Option Inode) :
    (s.putInode p o).part = s.part := rfl

@[simp] theorem State.putInode_disk (s : State) (p : Ptr) (o : Option Inode) :
    (s.putInode p o).disk = s.disk := rfl

@[simp] theorem State.store_part (s : State) (off len : Nat) (d : Bytes) :
    (s.store off len d).part = s.part := rfl

@[simp] theorem State.store_inodes (s : State) (off len : Nat) (d : Bytes) :
    (s.store off len d).inodes = s.inodes := rfl

@[simp] theorem State.putInode_same (s : State) (p : Ptr) (o : Option Inode) :
    (s.putInode p o).inodes p = o :=
  if_pos rfl

theorem State.putInode_other (s : State) {p q : Ptr} (o : Option Inode) (h : q ≠ p) :
    (s.putInode p o).inodes q = s.inodes q :=
  if_neg h

theorem State.putInode_putInode (s : State) (p : Ptr) (o o' : Option Inode) :
    (s.putInode p o).putInode p o' = s.putInode p o' := by
  unfold State.putInode
  congr 1
  funext q
  by_cases h : q = p
  · simp [h]
  · simp [h]

theorem State.putInode_self {s : State} {p : Ptr} {o : Option Inode} (h : s.inodes p = o) :
    s.putInode p o = s := by
  have hsame : (fun q => if q = p then o else s.inodes q) = s.inodes := by
    funext q
    by_cases hq : q = p
    · rw [if_pos hq, hq, h]
    · exact if_neg hq
  unfold State.putInode
  rw [hsame]

/-! ## Failing -/

theorem wp_kassert {c : Prop} [Decidable c] {Q : Unit → State → Prop} :
    Wp (kassert c) s F Q ↔ (c → Q () s) ∧ (¬c → F .assert) := by
  unfold kassert assert
  rw [Wp.lift]
  by_cases hc : c
  · rw [if_pos hc]
    exact ⟨fun h => ⟨fun _ => h.1 () rfl, fun hn => absurd hc hn⟩,
      fun h => ⟨fun _ _ => h.1 hc, nofun⟩⟩
  · simp [hc]

theorem wp_undefined {Q : α → State → Prop} : Wp (undefined : Kern α) s F Q ↔ F .undefined :=
  Iff.rfl

theorem wp_when {c : Prop} [Decidable c] {x : Kern Unit} {Q : Unit → State → Prop} :
    Wp (when c x) s F Q ↔ (c → Wp x s F Q) ∧ (¬c → Q () s) := by
  unfold when
  rw [Wp.ite, Wp.pure]

/-! ## Disk -/

theorem wp_put {b : Buf} {off len : Nat} {d : Bytes} {Q : Buf → State → Prop} :
    Wp (StateT.lift (b.put off len d) : Kern Buf) s F Q ↔
      (off + len ≤ b.size → Q ⟨b.size, splice b.data off len d⟩ s) ∧
        (¬off + len ≤ b.size → F .undefined) := by
  unfold Buf.put
  rw [Wp.lift]
  by_cases h : off + len ≤ b.size
  · simp [h]
  · simp [h]

theorem wp_ideRead {lba : UInt32} {buf : Buf} {n : Nat} {Q : Buf → State → Prop} :
    Wp (ideRead lba buf n) s F Q ↔
      (Selectable lba n → (512 * n ≤ buf.size →
        Q ⟨buf.size, splice buf.data 0 (512 * n) (view s.disk (sectorOff lba))⟩ s) ∧
          (¬512 * n ≤ buf.size → F .undefined)) ∧
        (¬Selectable lba n → F .assert) := by
  unfold ideRead
  simp only [Wp.bind, wp_kassert, Wp.get, wp_put, Nat.zero_add]

theorem wp_ideWrite {lba : UInt32} {buf : Buf} {n : Nat} {Q : Unit → State → Prop} :
    Wp (ideWrite lba buf n) s F Q ↔
      (Selectable lba n → (512 * n ≤ buf.size →
        Q () (s.store (sectorOff lba) (512 * n) buf.data)) ∧
          (¬512 * n ≤ buf.size → F .undefined)) ∧
        (¬Selectable lba n → F .assert) := by
  unfold ideWrite
  simp only [Wp.bind, wp_kassert, Wp.ite, Wp.modify, wp_undefined]

/-- `all_blocks` once the table in sector `lba` has been read into it. -/
def withTable (disk : Bytes) (lba : UInt32) (allBlocks : BlockArray) : BlockArray := fun k =>
  if 12 ≤ k ∧ k < 140 then wordAt disk (sectorOff lba + 4 * (k - 12)) else allBlocks k

theorem wp_ideReadTable {lba : UInt32} {allBlocks : BlockArray} {Q : BlockArray → State → Prop} :
    Wp (ideReadTable lba allBlocks) s F Q ↔
      (Selectable lba 1 → Q (withTable s.disk lba allBlocks) s) ∧
        (¬Selectable lba 1 → F .assert) := by
  have htable : (fun k => if k < 12 then allBlocks k else
      wordAt (splice (ofWords fun j => allBlocks (12 + j)) 0 (512 * 1)
        (view s.disk (sectorOff lba))) (4 * (k - 12))) = withTable s.disk lba allBlocks := by
    funext k
    unfold withTable
    by_cases hlow : k < 12
    · rw [if_pos hlow, if_neg (by omega)]
    · rw [if_neg hlow]
      by_cases hk : k < 140
      · have hoff : 4 * (k - 12) = 0 + 4 * (k - 12) := (Nat.zero_add _).symm
        rw [if_pos ⟨by omega, hk⟩, hoff, wordAt_splice_inside _ (by omega), wordAt_view, Nat.zero_add]
      · have hback : 12 + (k - 12) = k := by omega
        rw [if_neg (by omega), wordAt_splice_outside (by omega), wordAt_ofWords, hback]
  unfold ideReadTable
  simp only [Wp.bind, wp_ideRead, Wp.pure, htable]
  simp

theorem wp_ideWriteTable {lba : UInt32} {allBlocks : BlockArray} {Q : Unit → State → Prop} :
    Wp (ideWriteTable lba allBlocks) s F Q ↔
      (Selectable lba 1 →
        Q () (s.store (sectorOff lba) 512 (ofWords fun j => allBlocks (12 + j)))) ∧
        (¬Selectable lba 1 → F .assert) := by
  unfold ideWriteTable
  rw [wp_ideWrite]
  simp

/-- All blocks of an inode, as `inode_release` and the directory functions collect them. -/
def allBlocksOf (disk : Bytes) (i : Inode) : BlockArray :=
  if i.sector 12 ≠ 0 then withTable disk (i.sector 12) (directBlocks i) else directBlocks i

theorem wp_collectBlocks {i : Inode} {Q : BlockArray → State → Prop} :
    Wp (collectBlocks i) s F Q ↔
      ((i.sector 12 ≠ 0 → Selectable (i.sector 12) 1) → Q (allBlocksOf s.disk i) s) ∧
        (i.sector 12 ≠ 0 → ¬Selectable (i.sector 12) 1 → F .assert) := by
  unfold collectBlocks allBlocksOf
  by_cases h : i.sector 12 = 0
  · simp [h, Wp.pure]
  · simp [h, wp_ideReadTable]

/-! ## Heap -/

theorem wp_sysMalloc {use : State → Ptr → State} {Q : Option Ptr → State → Prop} :
    Wp (sysMalloc use) s F Q ↔
      (s.supply 0 = true → Q (some s.fresh) (use s.grant s.fresh)) ∧
        (s.supply 0 = false → Q none s.refuse) := by
  unfold sysMalloc
  simp only [Wp.bind, Wp.get, Wp.ite, Wp.set, Wp.pure, Bool.not_eq_true]

def State.withBuf (s : State) : State := { s.grant with bufs := s.fresh :: s.bufs }

theorem wp_sysMallocBuf {Q : Option Ptr → State → Prop} :
    Wp sysMallocBuf s F Q ↔
      (s.supply 0 = true → Q (some s.fresh) s.withBuf) ∧
        (s.supply 0 = false → Q none s.refuse) :=
  wp_sysMalloc

theorem wp_loadInode {p : Ptr} {Q : Inode → State → Prop} :
    Wp (loadInode p) s F Q ↔
      (∀ i, s.inodes p = some i → Q i s) ∧ (s.inodes p = none → F .undefined) := by
  unfold loadInode
  rw [Wp.bind, Wp.get]
  cases h : s.inodes p with
  | none => simp [wp_undefined]
  | some i => simp [Wp.pure]

theorem wp_storeInode {p : Ptr} {i : Inode} {Q : Unit → State → Prop} :
    Wp (storeInode p i) s F Q ↔
      ((s.inodes p).isSome → Q () (s.putInode p (some i))) ∧
        (s.inodes p = none → F .undefined) := by
  unfold storeInode
  rw [Wp.bind, Wp.get, Wp.ite, Wp.set, wp_undefined]
  simp

theorem wp_loadInode_some {p : Ptr} {i : Inode} {Q : Inode → State → Prop}
    (hi : s.inodes p = some i) : Wp (loadInode p) s F Q ↔ Q i s := by
  rw [wp_loadInode]
  simp [hi]

theorem wp_storeInode_some {p : Ptr} {i j : Inode} {Q : Unit → State → Prop}
    (hi : s.inodes p = some j) :
    Wp (storeInode p i) s F Q ↔ Q () (s.putInode p (some i)) := by
  rw [wp_storeInode]
  simp [hi]

/-- The inode of a directory that is open. -/
def State.inodeOf (s : State) : DirPtr → Option Ptr
  | .root => s.rootDir.inode
  | .heap q => (s.dirs q).bind (fun d => d.inode)

theorem wp_dirInode {d : DirPtr} {Q : Ptr → State → Prop} :
    Wp (dirInode d) s F Q ↔
      (∀ p, s.inodeOf d = some p → Q p s) ∧ (s.inodeOf d = none → F .undefined) := by
  unfold dirInode loadDir
  cases d with
  | root =>
      rw [Wp.bind, Wp.bind, Wp.get, Wp.pure]
      show _ ↔ (∀ p, s.rootDir.inode = some p → Q p s) ∧ (s.rootDir.inode = none → F .undefined)
      cases s.rootDir.inode with
      | none => simp [wp_undefined]
      | some p => simp [Wp.pure]
  | heap q =>
      rw [Wp.bind, Wp.bind, Wp.get]
      cases hq : s.dirs q with
      | none =>
          have hnone : s.inodeOf (.heap q) = none := by simp [State.inodeOf, hq]
          simp [wp_undefined, hnone]
      | some e =>
          have hsome : s.inodeOf (.heap q) = e.inode := by simp [State.inodeOf, hq]
          rw [Wp.pure, hsome]
          cases e.inode with
          | none => simp [wp_undefined]
          | some p => simp [Wp.pure]

theorem wp_dirInode_some {d : DirPtr} {p : Ptr} {Q : Ptr → State → Prop}
    (hd : s.inodeOf d = some p) : Wp (dirInode d) s F Q ↔ Q p s := by
  rw [wp_dirInode]
  simp [hd]

theorem wp_sysFree {p : Ptr} {live : State → Bool} {drop : State → State}
    {Q : Unit → State → Prop} :
    Wp (sysFree p live drop) s F Q ↔
      (p.user = s.cur.pgdir → live s = true → Q () (drop s)) ∧
        (p.user = s.cur.pgdir → live s = false → F .undefined) ∧
        (p.user = true → s.cur.pgdir = false → F .assert) ∧
        (p.user = false → s.cur.pgdir = true → F .undefined) := by
  unfold sysFree
  rw [Wp.bind, Wp.get]
  cases hp : s.cur.pgdir with
  | true =>
      cases hu : p.user with
      | true =>
          cases hl : live s with
          | true => simp [Wp.set]
          | false => simp [wp_undefined]
      | false => simp [wp_undefined]
  | false =>
      cases hu : p.user with
      | true => simp [Wp.bind, wp_kassert]
      | false =>
          cases hl : live s with
          | true => simp [Wp.bind, wp_kassert, Wp.set]
          | false => simp [Wp.bind, wp_kassert, wp_undefined]

/-- Giving back a buffer that is in use, in the heap it came from. -/
theorem wp_sysFreeBuf_live {p : Ptr} {Q : Unit → State → Prop} (huser : p.user = s.cur.pgdir)
    (hlive : p ∈ s.bufs) :
    Wp (sysFreeBuf p) s F Q ↔ Q () { s with bufs := s.bufs.erase p } := by
  unfold sysFreeBuf
  rw [wp_sysFree, huser]
  cases s.cur.pgdir with
  | true => simp [hlive]
  | false => simp [hlive]

theorem wp_inKernel {x : Kern α} {Q : α → State → Prop} :
    Wp (inKernel x) s F Q ↔
      Wp x { s with cur := { s.cur with pgdir := false } } F (fun a t =>
        Q a { t with cur := { t.cur with pgdir := s.cur.pgdir } }) := by
  unfold inKernel
  simp only [Wp.bind, Wp.get, Wp.set, Wp.modify, Wp.pure]

theorem wp_getEntrySize {Q : UInt32 → State → Prop} :
    Wp getEntrySize s F Q ↔
      (s.part.sb.dirEntrySize.toNat = dirEntrySize → Q s.part.sb.dirEntrySize s) ∧
        (s.part.sb.dirEntrySize.toNat ≠ dirEntrySize → F .undefined) := by
  unfold getEntrySize
  rw [Wp.bind, Wp.get, Wp.ite, Wp.pure, wp_undefined]

/-! ## Bitmaps -/

theorem wp_allocBit {b : Bitmap} {Q : Int × Bitmap → State → Prop} :
    Wp (StateT.lift (allocBit b) : Kern (Int × Bitmap)) s F Q ↔
      (∀ i, b.FirstClear i → Q (i, b.set i true) s) ∧ (b.Full → F .assert) := by
  rw [Wp.lift]
  rcases bitmapScan_one b with ⟨i, hscan, hi⟩ | ⟨hscan, hfull⟩
  · have hset := bitmapSet_of_lt hi.1 true
    have hne : ¬(i : Int) = -1 := by omega
    have halloc : allocBit b = .ok (↑i, b.set i true) := by
      simp [allocBit, hscan, hset, hne, bind, Except.bind, pure, Except.pure]
    rw [halloc]
    constructor
    · intro h
      refine ⟨fun j hj => ?_, fun hf => absurd hf hi.not_full⟩
      rw [← hi.unique hj]
      exact h.1 _ rfl
    · intro h
      refine ⟨fun a ha => ?_, nofun⟩
      cases ha
      exact h.1 i hi
  · have halloc : allocBit b = .error .assert := by
      simp [allocBit, hscan, bind, Except.bind]
    rw [halloc]
    constructor
    · intro h
      exact ⟨fun j hj => absurd hfull hj.not_full, fun _ => h.2 _ rfl⟩
    · intro h
      refine ⟨nofun, fun e he => ?_⟩
      cases he
      exact h.2 hfull

theorem wp_inodeBitmapAlloc {Q : UInt32 → State → Prop} :
    Wp inodeBitmapAlloc s F Q ↔
      (∀ i, s.part.inodeBitmap.FirstClear i →
        Q (UInt32.ofNat i) (s.setInodeBitmap (s.part.inodeBitmap.set i true))) ∧
        (s.part.inodeBitmap.Full → F .assert) := by
  have hne : ∀ i : Nat, ¬(i : Int) = -1 := fun i => by omega
  unfold inodeBitmapAlloc
  simp [Wp.bind, Wp.get, wp_allocBit, Wp.set, Wp.ite, Wp.pure, hne]

theorem wp_blockBitmapAlloc {Q : UInt32 → State → Prop} :
    Wp blockBitmapAlloc s F Q ↔
      (∀ i, s.part.blockBitmap.FirstClear i →
        Q (s.part.sb.dataStartLba + UInt32.ofNat i)
          (s.setBlockBitmap (s.part.blockBitmap.set i true))) ∧
        (s.part.blockBitmap.Full → F .assert) := by
  have hne : ∀ i : Nat, ¬(i : Int) = -1 := fun i => by omega
  unfold blockBitmapAlloc
  simp [Wp.bind, Wp.get, wp_allocBit, Wp.set, Wp.ite, Wp.pure, hne]

theorem wp_bitmapSet {b : Bitmap} {i : Nat} {v : Bool} {Q : Bitmap → State → Prop} :
    Wp (StateT.lift (bitmapSet b i v) : Kern Bitmap) s F Q ↔
      (i < 8 * b.btmpBytesLen → Q (b.set i v) s) ∧
        (¬i < 8 * b.btmpBytesLen → F .undefined) := by
  rw [Wp.lift]
  unfold bitmapSet
  by_cases h : i / 8 < b.btmpBytesLen
  · have hlt : i < 8 * b.btmpBytesLen := by omega
    rw [if_pos h]
    simp [hlt]
  · have hge : ¬i < 8 * b.btmpBytesLen := by omega
    rw [if_neg h]
    simp [hge]

theorem wp_inodeBitmapClear {inodeNo : UInt32} {Q : Unit → State → Prop} :
    Wp (inodeBitmapClear inodeNo) s F Q ↔
      (inodeNo.toNat < 8 * s.part.inodeBitmap.btmpBytesLen →
        Q () (s.setInodeBitmap (s.part.inodeBitmap.set inodeNo.toNat false))) ∧
        (¬inodeNo.toNat < 8 * s.part.inodeBitmap.btmpBytesLen → F .undefined) := by
  unfold inodeBitmapClear
  simp only [Wp.bind, Wp.get, wp_bitmapSet, Wp.set]

theorem wp_blockBitmapClear {idx : UInt32} {Q : Unit → State → Prop} :
    Wp (blockBitmapClear idx) s F Q ↔
      (idx.toNat < 8 * s.part.blockBitmap.btmpBytesLen →
        Q () (s.setBlockBitmap (s.part.blockBitmap.set idx.toNat false))) ∧
        (¬idx.toNat < 8 * s.part.blockBitmap.btmpBytesLen → F .undefined) := by
  unfold blockBitmapClear
  simp only [Wp.bind, Wp.get, wp_bitmapSet, Wp.set]

/-! ## Inodes -/

/-- What `inodeLocate` stores for an inode number in range. -/
def inodePos (part : Partition) (n : UInt32) : InodePosition where
  twoSec := 512 - n * 76 % 512 < 76
  secLba := part.sb.inodeTableLba + n * 76 / 512
  offSize := n * 76 % 512

theorem inodeLocate_eq {part : Partition} {n : UInt32} (h : n < 4096) :
    inodeLocate part n = .ok (inodePos part n) := by
  simp [inodeLocate, assert, h, bind, Except.bind, pure, Except.pure]
  rfl

theorem wp_inodeLocate {part : Partition} {n : UInt32} {Q : InodePosition → State → Prop} :
    Wp (StateT.lift (inodeLocate part n) : Kern InodePosition) s F Q ↔
      (n < 4096 → Q (inodePos part n) s) ∧ (¬n < 4096 → F .assert) := by
  rw [Wp.lift]
  by_cases h : n < 4096
  · rw [inodeLocate_eq h]
    simp [h]
  · have heq : inodeLocate part n = .error .assert := by
      simp [inodeLocate, assert, h, bind, Except.bind]
    rw [heq]
    simp [h]

end OsTruth
