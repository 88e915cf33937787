/-
What `bitmap_sync` writes, against what `mount_partition` reads.

The sector is the right one for either bitmap.  Its content comes from the block
bitmap in both cases, and from byte `bit_idx / 4096` of it on, where the sector
starts at byte `512 * (bit_idx / 4096)`.
-/
import OsTruth.Fs.Layout

namespace OsTruth

open ByteString Fallible

namespace BitmapType

def bitmap (part : Partition) : BitmapType → Bitmap
  | .inodeBitmap => part.inodeBitmap
  | .blockBitmap => part.blockBitmap

/-- The first sector of the bitmap on disk. -/
def lba (sb : SuperBlock) : BitmapType → UInt32
  | .inodeBitmap => sb.inodeBitmapLba
  | .blockBitmap => sb.blockBitmapLba

def sects (sb : SuperBlock) : BitmapType → UInt32
  | .inodeBitmap => sb.inodeBitmapSects
  | .blockBitmap => sb.blockBitmapSects

end BitmapType

def loadedBitmap (sb : SuperBlock) (disk : Bytes) (btmp : BitmapType) : Bitmap where
  btmpBytesLen := (btmp.sects sb * 512).toNat
  bits := splice (fun _ => 0) 0 (512 * (btmp.sects sb).toNat) (view disk (sectorOff (btmp.lba sb)))

/-- `mount_partition` reads each bitmap in this way. -/
theorem readBitmap_loaded (sb : SuperBlock) (btmp : BitmapType) (s : State) :
    Ensures (readBitmap (btmp.lba sb) (btmp.sects sb)) s
      (fun b t => b = loadedBitmap sb s.disk btmp ∧ t.disk = s.disk) := by
  unfold readBitmap mallocOrPanic sysMallocBuf
  simp only [Wp.bind, wp_sysMalloc, Wp.throw, Wp.pure, wp_ideRead, implies_true, and_true]
  intro _ _ _
  exact ⟨rfl, rfl⟩

variable {part : Partition} {idx : UInt32} {btmp : BitmapType}

/-- The sector of a bit, without wrapping, and its place in the partition. -/
theorem syncLba_spec (hm : part.Mounted)
    (hidx : idx.toNat < 8 * (btmp.bitmap part).btmpBytesLen) :
    (syncLba part.sb idx btmp).toNat = (btmp.lba part.sb).toNat + idx.toNat / 4096 ∧
      idx.toNat / 4096 < (btmp.sects part.sb).toNat ∧
      (syncLba part.sb idx btmp).toNat < part.sb.inodeTableLba.toNat := by
  have h₁ := hm.inodeBitmapLba
  have h₂ := hm.inodeTableLba
  have h₃ := hm.blockBitmapLen
  have h₄ := hm.inodeBitmapLen
  have htable := part.sb.inodeTableLba.toNat_lt
  have hoff : (offSec idx).toNat = idx.toNat / 4096 := by
    unfold offSec
    rw [UInt32.toNat_div]
    rfl
  cases btmp with
  | inodeBitmap =>
      have hlt : idx.toNat < 8 * part.inodeBitmap.btmpBytesLen := hidx
      have hsects : (BitmapType.inodeBitmap.sects part.sb).toNat = 1 := by
        unfold BitmapType.sects
        rw [hm.inodeBitmapSects]
        rfl
      have hlba : (syncLba part.sb idx .inodeBitmap).toNat =
          part.sb.inodeBitmapLba.toNat + idx.toNat / 4096 := by
        unfold syncLba
        rw [UInt32.toNat_add, hoff]
        omega
      refine ⟨hlba, ?_, ?_⟩
      · rw [hsects]
        omega
      · rw [hlba]
        omega
  | blockBitmap =>
      have hlt : idx.toNat < 8 * part.blockBitmap.btmpBytesLen := hidx
      have hlba : (syncLba part.sb idx .blockBitmap).toNat =
          part.sb.blockBitmapLba.toNat + idx.toNat / 4096 := by
        unfold syncLba
        rw [UInt32.toNat_add, hoff]
        omega
      refine ⟨hlba, ?_, ?_⟩
      · show _ < part.sb.blockBitmapSects.toNat
        omega
      · rw [hlba]
        omega

/-- `bitmap_sync` on a bit of either bitmap writes one sector. -/
theorem wp_bitmapSync {s : State} {F : Fault → Prop} {Q : Unit → State → Prop}
    (hm : s.part.Mounted) (hidx : idx.toNat < 8 * (btmp.bitmap s.part).btmpBytesLen) :
    Wp (bitmapSync idx btmp) s F Q ↔
      Q () (s.store (sectorOff (btmp.lba s.part.sb) + 512 * (idx.toNat / 4096)) 512
        (view s.part.blockBitmap.bits (idx.toNat / 4096))) := by
  obtain ⟨hlba, hsect, htable⟩ := syncLba_spec hm hidx
  have hoff : (offSec idx).toNat = idx.toNat / 4096 := by
    unfold offSec
    rw [UInt32.toNat_div]
    rfl
  have hsel : Selectable (syncLba s.part.sb idx btmp) 1 := by
    have h₁ := hm.dataStartLba
    have h₂ := hm.inPartition
    have h₃ := hm.inDisk
    exact selectable_one.mpr (by omega)
  have hsize : 512 * 1 ≤ (syncBuf s.part idx btmp).size := by
    have h₁ := hm.blockBitmapLen
    have h₂ := hm.inodeBitmapLen
    have h₃ := hm.blockBitmapSects
    show 512 * 1 ≤ s.part.blockBitmap.btmpBytesLen - (offSec idx).toNat
    rw [hoff]
    cases btmp with
    | inodeBitmap =>
        have hlt : idx.toNat < 8 * s.part.inodeBitmap.btmpBytesLen := hidx
        omega
    | blockBitmap =>
        have hlt : idx.toNat < 8 * s.part.blockBitmap.btmpBytesLen := hidx
        omega
  have hdisk : sectorOff (syncLba s.part.sb idx btmp) =
      sectorOff (btmp.lba s.part.sb) + 512 * (idx.toNat / 4096) := by
    unfold sectorOff
    rw [hlba]
    omega
  unfold bitmapSync
  simp only [Wp.bind, Wp.get, wp_ideWrite, hsel, hsize, not_true_eq_false, false_implies,
    and_true, true_implies, hdisk]
  unfold syncBuf
  rw [hoff, Nat.mul_one]

/-! ## Allocating a block -/

def blockAddr (part : Partition) (b : Nat) : UInt32 := part.sb.dataStartLba + UInt32.ofNat b

/-- The state after block `b` was taken and its bit written back. -/
def State.takeBlock (s : State) (b : Nat) : State :=
  (s.setBlockBitmap (s.part.blockBitmap.set b true)).store
    (sectorOff s.part.sb.blockBitmapLba + 512 * (b / 4096)) 512
    (view (s.part.blockBitmap.set b true).bits (b / 4096))

theorem Partition.Mounted.setBlockBit (hm : part.Mounted) (b : Nat) (v : Bool) :
    ({ part with blockBitmap := part.blockBitmap.set b v } : Partition).Mounted :=
  { hm with blockBitmapLen := hm.blockBitmapLen }

/-- Block addresses do not wrap. -/
theorem toNat_blockAddr (hm : part.Mounted) {b : Nat} (hb : b < 8 * part.blockBitmap.btmpBytesLen) :
    (blockAddr part b).toNat = part.sb.dataStartLba.toNat + b ∧
      part.sb.dataStartLba.toNat + b < 2 ^ 32 - 1 ∧ b < 2 ^ 32 := by
  have h₁ := hm.blockBitmapLen
  have h₂ := hm.inodeBitmapLba
  have h₃ := hm.inodeTableLba
  have h₄ := hm.dataStartLba
  have h₅ := hm.inPartition
  have h₆ := hm.inDisk
  rw [toNat_maxLba] at h₆
  have hlt : part.sb.dataStartLba.toNat + b < 2 ^ 32 - 1 := by omega
  have hb' : (UInt32.ofNat b).toNat = b := UInt32.toNat_ofNat_of_lt (by
    show b < 2 ^ 32
    omega)
  refine ⟨?_, hlt, by omega⟩
  unfold blockAddr
  rw [UInt32.toNat_add, hb']
  omega

theorem blockAddr_sub (hm : part.Mounted) {b : Nat}
    (hb : b < 8 * part.blockBitmap.btmpBytesLen) :
    (blockAddr part b - part.sb.dataStartLba).toNat = b := by
  obtain ⟨haddr, -, -⟩ := toNat_blockAddr hm hb
  have hle : part.sb.dataStartLba ≤ blockAddr part b := by
    rw [UInt32.le_iff_toNat_le, haddr]
    omega
  rw [UInt32.toNat_sub_of_le _ _ hle, haddr, Nat.add_sub_cancel_left]

theorem blockAddr_ne (hm : part.Mounted) {b : Nat}
    (hb : b < 8 * part.blockBitmap.btmpBytesLen) : blockAddr part b ≠ -1 := by
  obtain ⟨haddr, hlt, -⟩ := toNat_blockAddr hm hb
  intro h
  rw [h] at haddr
  have h1 : (-1 : UInt32).toNat = 4294967295 := rfl
  omega

/-- Allocating a block takes the first clear bit, or fails because none is clear. -/
theorem wp_allocAndSync {s : State} {F : Fault → Prop} {Q : UInt32 → State → Prop}
    (hm : s.part.Mounted) :
    Wp allocAndSync s F Q ↔
      (∀ b, s.part.blockBitmap.FirstClear b → Q (blockAddr s.part b) (s.takeBlock b)) ∧
        (s.part.blockBitmap.Full → F .assert) := by
  unfold allocAndSync
  simp only [Wp.bind, wp_blockBitmapAlloc, Wp.ite, Wp.pure, Wp.get, wp_kassert]
  refine and_congr_left fun _ => forall_congr' fun b => forall_congr' fun hb => ?_
  have hne := blockAddr_ne hm hb.1
  have hsub := blockAddr_sub hm hb.1
  have hidx : blockAddr s.part b - s.part.sb.dataStartLba ≠ -1 := by
    intro h
    rw [h] at hsub
    have h1 : (-1 : UInt32).toNat = 4294967295 := rfl
    have h2 := (toNat_blockAddr hm hb.1).2.1
    omega
  have hm' : (s.setBlockBitmap (s.part.blockBitmap.set b true)).part.Mounted :=
    hm.setBlockBit b true
  have hin : (blockAddr s.part b - s.part.sb.dataStartLba).toNat <
      8 * (BitmapType.blockBitmap.bitmap
        (s.setBlockBitmap (s.part.blockBitmap.set b true)).part).btmpBytesLen := by
    rw [hsub]
    exact hb.1
  have hsync := wp_bitmapSync (F := F) (Q := fun _ t => Q (blockAddr s.part b) t) hm' hin
  rw [hsub] at hsync
  constructor
  · intro h
    exact hsync.mp ((h.2 hne).1 hidx)
  · intro h
    exact ⟨fun h' => absurd h' hne, fun _ => ⟨fun _ => hsync.mpr h, fun h' => absurd hidx h'⟩⟩

/-- Taking a block writes to the bitmap only. -/
theorem takeBlock_disk {s : State} (hm : s.part.Mounted) {b a : Nat}
    (hb : b < 8 * s.part.blockBitmap.btmpBytesLen) (ha : sectorOff s.part.sb.inodeTableLba ≤ a) :
    (s.takeBlock b).disk a = s.disk a := by
  have h₁ := hm.blockBitmapLen
  have h₂ := hm.inodeBitmapLba
  have h₃ := hm.inodeTableLba
  refine splice_outside ?_
  unfold sectorOff at *
  omega

/-! ## Agreement with the loader -/

def bitSectorOff (part : Partition) (idx : UInt32) (btmp : BitmapType) : Nat :=
  sectorOff (btmp.lba part.sb) + 512 * (idx.toNat / 4096)

/-- Between `s` and `t` the sector of bit `idx` was written from the bitmap and no other
byte of the disk changed, and a mount of `t` reads the bit as `s` has it in memory. -/
def BitSynced (s t : State) (idx : UInt32) (btmp : BitmapType) : Prop :=
  (∀ k, k < 512 → t.disk (bitSectorOff s.part idx btmp + k) =
    (btmp.bitmap s.part).bits (512 * (idx.toNat / 4096) + k)) ∧
  (∀ a, a < bitSectorOff s.part idx btmp ∨ bitSectorOff s.part idx btmp + 512 ≤ a →
    t.disk a = s.disk a) ∧
  (loadedBitmap t.part.sb t.disk btmp).bit idx.toNat = (btmp.bitmap s.part).bit idx.toNat

/-- When the bytes that `bitmap_sync` takes are the right ones. -/
def SyncsRight (part : Partition) (idx : UInt32) : BitmapType → Prop
  | .blockBitmap => idx.toNat < 4096 ∨ ∀ k, k < 512 →
      part.blockBitmap.bits (idx.toNat / 4096 + k) =
        part.blockBitmap.bits (512 * (idx.toNat / 4096) + k)
  | .inodeBitmap => ∀ k, k < 512 → part.blockBitmap.bits k = part.inodeBitmap.bits k

/-- Both cases in one: the sector taken equals the sector wanted. -/
theorem syncsRight_iff (hm : part.Mounted)
    (hidx : idx.toNat < 8 * (btmp.bitmap part).btmpBytesLen) :
    SyncsRight part idx btmp ↔ ∀ k, k < 512 →
      part.blockBitmap.bits (idx.toNat / 4096 + k) =
        (btmp.bitmap part).bits (512 * (idx.toNat / 4096) + k) := by
  cases btmp with
  | inodeBitmap =>
      have hlt : idx.toNat < 8 * part.inodeBitmap.btmpBytesLen := hidx
      have hlen := hm.inodeBitmapLen
      have hzero : idx.toNat / 4096 = 0 := by omega
      rw [hzero]
      simp only [Nat.mul_zero, Nat.zero_add]
      exact Iff.rfl
  | blockBitmap =>
      refine ⟨fun h k hk => ?_, Or.inr⟩
      rcases h with hlow | heq
      · have hzero : idx.toNat / 4096 = 0 := by omega
        rw [hzero, Nat.mul_zero]
        rfl
      · exact heq k hk

/-- A loaded bit is the bit of the disk sector that holds it. -/
theorem loadedBitmap_bit (disk : Bytes) {b : Bytes}
    (hsect : idx.toNat / 4096 < (btmp.sects part.sb).toNat)
    (h : ∀ k, k < 512 → disk (bitSectorOff part idx btmp + k) =
      b (512 * (idx.toNat / 4096) + k)) :
    (loadedBitmap part.sb disk btmp).bit idx.toNat = testBit b idx.toNat := by
  have hbyte := h (idx.toNat / 8 % 512) (Nat.mod_lt _ (by omega))
  have hsplit : 512 * (idx.toNat / 4096) + idx.toNat / 8 % 512 = idx.toNat / 8 := by omega
  rw [hsplit] at hbyte
  have hload : (loadedBitmap part.sb disk btmp).bits (idx.toNat / 8) = b (idx.toNat / 8) := by
    unfold loadedBitmap
    dsimp only
    rw [splice_inside (Nat.zero_le _) (by omega), Nat.sub_zero, view, ← hbyte]
    unfold bitSectorOff
    rw [Nat.add_assoc, hsplit]
  unfold Bitmap.bit testBit
  rw [hload]

/-- `bitmap_sync` agrees with the loader exactly when the bytes it takes are the right
ones. -/
theorem bitmapSync_synced_iff {s : State} (hm : s.part.Mounted)
    (hidx : idx.toNat < 8 * (btmp.bitmap s.part).btmpBytesLen) :
    Returns (bitmapSync idx btmp) s (fun _ t => BitSynced s t idx btmp) ↔
      SyncsRight s.part idx btmp := by
  obtain ⟨-, hsect, -⟩ := syncLba_spec hm hidx
  rw [Returns, wp_bitmapSync hm hidx, syncsRight_iff hm hidx]
  constructor
  · intro h k hk
    rw [← h.1 k hk]
    exact (splice_at (d := view s.part.blockBitmap.bits (idx.toNat / 4096)) hk).symm
  · intro h
    have hsector : ∀ k, k < 512 →
        (s.store (bitSectorOff s.part idx btmp) 512
          (view s.part.blockBitmap.bits (idx.toNat / 4096))).disk
            (bitSectorOff s.part idx btmp + k) =
          (btmp.bitmap s.part).bits (512 * (idx.toNat / 4096) + k) := by
      intro k hk
      rw [← h k hk]
      exact splice_at hk
    refine ⟨hsector, fun a ha => splice_outside ha, ?_⟩
    exact loadedBitmap_bit _ hsect hsector

/-- Bit 3 of the block bitmap is in its first sector. -/
theorem bitmapSync_synced_block3 :
    Returns (bitmapSync 3 .blockBitmap) (idleState (emptyPart 2048 8192))
      (fun _ t => BitSynced (idleState (emptyPart 2048 8192)) t 3 .blockBitmap) :=
  (bitmapSync_synced_iff emptyPart_mounted (by decide)).mpr (Or.inl (by decide))

/-- An empty partition after `inode_bitmap_alloc`. -/
def inodeTaken : Partition :=
  { emptyPart 2048 8192 with inodeBitmap := (emptyPart 2048 8192).inodeBitmap.set 0 true }

theorem inodeTaken_mounted : inodeTaken.Mounted := { emptyPart_mounted with }

/-- The bit of an inode that was just allocated is not on disk after `bitmap_sync`. -/
theorem bitmapSync_loses_inode0 :
    (idleState inodeTaken).part.Mounted ∧
      ¬Returns (bitmapSync 0 .inodeBitmap) (idleState inodeTaken)
        (fun _ t => BitSynced (idleState inodeTaken) t 0 .inodeBitmap) := by
  refine ⟨inodeTaken_mounted, fun h => ?_⟩
  rw [Returns, wp_bitmapSync inodeTaken_mounted (by decide)] at h
  have hbit := h.2.2
  revert hbit
  decide +kernel

end OsTruth
