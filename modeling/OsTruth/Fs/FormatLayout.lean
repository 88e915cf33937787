/-
The layout that `partition_format` computes, and the block bitmap that it writes.

The size of the block bitmap is rounded twice: from all free sectors, and from what is
left when the first result is taken away.  The second rounding is never too small, and the
sectors that the first one took too many belong to nothing.
-/
import OsTruth.Fs.Layout
import OsTruth.Fs.Reads

namespace OsTruth

open ByteString Fallible

/-! ## The sizes -/

def usedSects : UInt32 :=
  1 + 1 + divRoundUp 4096 4096 + divRoundUp (UInt32.ofNat inodeSize * 4096) 512

def freeSects (secCnt : UInt32) : UInt32 := secCnt - usedSects

/-- `block_bitmap_sects` of the first rounding. -/
def roughSects (secCnt : UInt32) : UInt32 := divRoundUp (freeSects secCnt) 4096

theorem blockBitmapBitLen_eq (secCnt : UInt32) :
    blockBitmapBitLen secCnt = freeSects secCnt - roughSects secCnt := rfl

/-- No operation in the computation of the sizes leaves the 32 bits. -/
structure SizesExact (startLba secCnt : UInt32) : Prop where
  used : usedSects.toNat = 611 ∧ 611 ≤ secCnt.toNat
  free : (freeSects secCnt).toNat = secCnt.toNat - 611
  roundFree : (freeSects secCnt).toNat + 4096 < 2 ^ 32
  rough : (roughSects secCnt).toNat = ((freeSects secCnt).toNat + 4096 - 1) / 4096
  bitLen : (roughSects secCnt).toNat ≤ (freeSects secCnt).toNat ∧
    (blockBitmapBitLen secCnt).toNat = (freeSects secCnt).toNat - (roughSects secCnt).toNat
  roundBits : (blockBitmapBitLen secCnt).toNat + 4096 < 2 ^ 32
  sects : (formatSuperBlock startLba secCnt).blockBitmapSects.toNat =
    ((blockBitmapBitLen secCnt).toNat + 4096 - 1) / 4096

/-- The parts of a partition follow each other, and everything fits. -/
structure LayoutOk (startLba secCnt : UInt32) (sb : SuperBlock) (bitLen : Nat) : Prop where
  boot : sb.partLbaBase = startLba
  blockBitmap : sb.blockBitmapLba.toNat = startLba.toNat + 2
  inodeBitmap : sb.inodeBitmapLba.toNat = sb.blockBitmapLba.toNat + sb.blockBitmapSects.toNat
  inodeTable : sb.inodeTableLba.toNat = sb.inodeBitmapLba.toNat + sb.inodeBitmapSects.toNat
  data : sb.dataStartLba.toNat = sb.inodeTableLba.toNat + sb.inodeTableSects.toNat
  blockBits : 0 < bitLen ∧ bitLen ≤ 4096 * sb.blockBitmapSects.toNat
  inodeBits : 4096 ≤ 4096 * sb.inodeBitmapSects.toNat
  inodes : 4096 * inodeSize ≤ 512 * sb.inodeTableSects.toNat
  fits : sb.dataStartLba.toNat + bitLen ≤ startLba.toNat + secCnt.toNat

section

variable {startLba secCnt x : UInt32}

/-- `DIV_ROUND_UP` by the bits of a sector. -/
theorem toNat_divRoundUp (h : x.toNat + 4096 < 2 ^ 32) :
    (divRoundUp x 4096).toNat = (x.toNat + 4096 - 1) / 4096 := by
  have hadd : (x + 4096).toNat = x.toNat + 4096 := by
    rw [UInt32.toNat_add]
    exact Nat.mod_eq_of_lt h
  have hone : (1 : UInt32) ≤ x + 4096 := by
    rw [UInt32.le_iff_toNat_le, hadd]
    show 1 ≤ _
    omega
  unfold divRoundUp
  rw [UInt32.toNat_div, UInt32.toNat_sub_of_le _ _ hone, hadd]
  rfl

theorem sizesExact (hsec : 613 ≤ secCnt.toNat) (hend : startLba.toNat + secCnt.toNat ≤ 2 ^ 31) :
    SizesExact startLba secCnt := by
  have hused : usedSects.toNat = 611 := by decide
  have hle : usedSects ≤ secCnt := by
    rw [UInt32.le_iff_toNat_le, hused]
    omega
  have hfree : (freeSects secCnt).toNat = secCnt.toNat - 611 := by
    unfold freeSects
    rw [UInt32.toNat_sub_of_le _ _ hle, hused]
  have hroundFree : (freeSects secCnt).toNat + 4096 < 2 ^ 32 := by omega
  have hrough : (roughSects secCnt).toNat = ((freeSects secCnt).toNat + 4096 - 1) / 4096 :=
    toNat_divRoundUp hroundFree
  have hroughLe : (roughSects secCnt).toNat ≤ (freeSects secCnt).toNat := by omega
  have hbits : (blockBitmapBitLen secCnt).toNat =
      (freeSects secCnt).toNat - (roughSects secCnt).toNat := by
    rw [blockBitmapBitLen_eq]
    exact UInt32.toNat_sub_of_le _ _ (UInt32.le_iff_toNat_le.mpr hroughLe)
  have hroundBits : (blockBitmapBitLen secCnt).toNat + 4096 < 2 ^ 32 := by omega
  exact {
    used := ⟨hused, by omega⟩
    free := hfree
    roundFree := hroundFree
    rough := hrough
    bitLen := ⟨hroughLe, hbits⟩
    roundBits := hroundBits
    sects := toNat_divRoundUp hroundBits }

/-- The areas lie one behind the other, and few sectors are left over behind the last one. -/
theorem formatSuperBlock_areas (hsec : 613 ≤ secCnt.toNat)
    (hend : startLba.toNat + secCnt.toNat ≤ 2 ^ 31) :
    LayoutOk startLba secCnt (formatSuperBlock startLba secCnt)
        (blockBitmapBitLen secCnt).toNat ∧
      startLba.toNat + secCnt.toNat ≤ (formatSuperBlock startLba secCnt).dataStartLba.toNat +
        (blockBitmapBitLen secCnt).toNat + ((roughSects secCnt).toNat + 4096 - 1) / 4096 := by
  obtain ⟨⟨-, -⟩, hfree, -, hrough, ⟨-, hbits⟩, -, hsects⟩ : SizesExact startLba secCnt :=
    sizesExact hsec hend
  have hlba : (formatSuperBlock startLba secCnt).blockBitmapLba.toNat = startLba.toNat + 2 := by
    show (startLba + 2).toNat = _
    rw [UInt32.toNat_add]
    show (startLba.toNat + 2) % 2 ^ 32 = _
    omega
  have hinode : (formatSuperBlock startLba secCnt).inodeBitmapLba.toNat =
      (formatSuperBlock startLba secCnt).blockBitmapLba.toNat +
        (formatSuperBlock startLba secCnt).blockBitmapSects.toNat := by
    show ((formatSuperBlock startLba secCnt).blockBitmapLba +
      (formatSuperBlock startLba secCnt).blockBitmapSects).toNat = _
    rw [UInt32.toNat_add]
    omega
  have hone : (formatSuperBlock startLba secCnt).inodeBitmapSects.toNat = 1 := rfl
  have htable : (formatSuperBlock startLba secCnt).inodeTableSects.toNat = 608 := rfl
  have hinodeTable : (formatSuperBlock startLba secCnt).inodeTableLba.toNat =
      (formatSuperBlock startLba secCnt).inodeBitmapLba.toNat +
        (formatSuperBlock startLba secCnt).inodeBitmapSects.toNat := by
    show ((formatSuperBlock startLba secCnt).inodeBitmapLba +
      (formatSuperBlock startLba secCnt).inodeBitmapSects).toNat = _
    rw [UInt32.toNat_add]
    omega
  have hdata : (formatSuperBlock startLba secCnt).dataStartLba.toNat =
      (formatSuperBlock startLba secCnt).inodeTableLba.toNat +
        (formatSuperBlock startLba secCnt).inodeTableSects.toNat := by
    show ((formatSuperBlock startLba secCnt).inodeTableLba +
      (formatSuperBlock startLba secCnt).inodeTableSects).toNat = _
    rw [UInt32.toNat_add]
    omega
  refine ⟨⟨rfl, hlba, hinode, hinodeTable, hdata, ?_, ?_, ?_, ?_⟩, ?_⟩
  · omega
  · omega
  · rw [htable]
    decide
  · omega
  · omega

/-- The layout, with the sectors that are left over at the end of the partition. -/
theorem formatSuperBlock_layout (hsec : 613 ≤ secCnt.toNat)
    (hend : startLba.toNat + secCnt.toNat ≤ 2 ^ 31) :
    SizesExact startLba secCnt ∧
      LayoutOk startLba secCnt (formatSuperBlock startLba secCnt)
        (blockBitmapBitLen secCnt).toNat ∧
      startLba.toNat + secCnt.toNat ≤ (formatSuperBlock startLba secCnt).dataStartLba.toNat +
        (blockBitmapBitLen secCnt).toNat + ((roughSects secCnt).toNat + 4096 - 1) / 4096 :=
  ⟨sizesExact hsec hend, formatSuperBlock_areas hsec hend⟩

/-- A partition of 4 MiB. -/
theorem formatSuperBlock_layout_small :
    SizesExact 2048 8192 ∧
      LayoutOk 2048 8192 (formatSuperBlock 2048 8192) (blockBitmapBitLen 8192).toNat ∧
      UInt32.toNat 2048 + UInt32.toNat 8192 ≤ (formatSuperBlock 2048 8192).dataStartLba.toNat +
        (blockBitmapBitLen 8192).toNat + ((roughSects 8192).toNat + 4096 - 1) / 4096 :=
  formatSuperBlock_layout (by decide) (by decide)

/-- Two sectors are left over when the first rounding takes 4097 sectors and the second
one 4095. -/
theorem formatSuperBlock_two_short :
    613 ≤ UInt32.toNat 16777828 ∧ UInt32.toNat 1 + UInt32.toNat 16777828 ≤ 2 ^ 31 ∧
      (formatSuperBlock 1 16777828).dataStartLba.toNat + (blockBitmapBitLen 16777828).toNat + 2 =
        UInt32.toNat 1 + UInt32.toNat 16777828 := by
  decide

end

/-! ## The block bitmap -/

def formatBufSize (sb : SuperBlock) : UInt32 :=
  let bufSize := if sb.blockBitmapSects ≥ sb.inodeBitmapSects then sb.blockBitmapSects
    else sb.inodeBitmapSects
  (if bufSize ≥ sb.inodeTableSects then bufSize else sb.inodeTableSects) * 512

/-- A block bitmap of `sects` sectors for `bitLen` blocks: block 0 is in use, and of the
other bits those of the blocks are clear. -/
def BitmapRight (bits : Bytes) (sects bitLen : Nat) : Prop :=
  testBit bits 0 = true ∧
    ∀ i, 1 ≤ i → i < 4096 * sects → (testBit bits i = false ↔ i < bitLen)

/-- The content of the sectors is all that matters. -/
theorem BitmapRight.congr {b c : Bytes} {sects bitLen : Nat} (h : BitmapRight b sects bitLen)
    (hsects : 0 < sects) (heq : ∀ k, k < 512 * sects → b k = c k) :
    BitmapRight c sects bitLen := by
  have hbit : ∀ i, i < 4096 * sects → testBit c i = testBit b i := by
    intro i hi
    unfold testBit
    rw [heq (i / 8) (by omega)]
  refine ⟨?_, fun i hi hlt => ?_⟩
  · rw [hbit 0 (by omega)]
    exact h.1
  · rw [hbit i hlt]
    exact h.2 i hi hlt

theorem BitmapRight.free {b : Bytes} {sects bitLen i : Nat} (h : BitmapRight b sects bitLen)
    (hi : i < 4096 * sects) (hfree : testBit b i = false) : i < bitLen := by
  by_cases hzero : i = 0
  · rw [hzero, h.1] at hfree
    cases hfree
  · exact (h.2 i (by omega) hi).mp hfree

/-- Every block that can be taken from the bitmap lies before sector `endLba`. -/
def BlocksBefore (bits : Bytes) (sb : SuperBlock) (endLba : Nat) : Prop :=
  ∀ i, i < 4096 * sb.blockBitmapSects.toNat → testBit bits i = false →
    sb.dataStartLba.toNat + i < endLba

/-- The bitmap that `partition_format` computes is the one it should be, and only blocks
of the partition are free in it. -/
def FormatsBitmap (startLba secCnt : UInt32) : Prop :=
  ∃ buf, formatBlockBitmap (blockBitmapBitLen secCnt)
      (.zero (formatBufSize (formatSuperBlock startLba secCnt)).toNat) = .ok buf ∧
    BitmapRight buf.data (formatSuperBlock startLba secCnt).blockBitmapSects.toNat
      (blockBitmapBitLen secCnt).toNat ∧
    BlocksBefore buf.data (formatSuperBlock startLba secCnt) (startLba.toNat + secCnt.toNat)

/-- The bytes of the bitmap: the byte that holds the first bit behind the valid ones, the
rest of its sector, and the zero bytes with the bit of block 0. -/
def formatBytes (bitLen : Nat) : Bytes := fun j =>
  if j = bitLen / 8 then clearLowBits (bitLen % 8 + 1) 0xff
  else if bitLen / 8 ≤ j ∧ j < 512 * (bitLen / 4096 + 1) then 0xff
  else if j = 0 then 1
  else 0

theorem testBit_clearLowBits {n k : Nat} (hn : n ≤ 8) (hk : k < 8) :
    (clearLowBits n 0xff).toNat.testBit k = decide (n ≤ k) := by
  have hall : ∀ n, n ≤ 8 → ∀ k, k < 8 →
      (clearLowBits n 0xff).toNat.testBit k = decide (n ≤ k) := by
    decide
  exact hall n hn k hk

/-- The `memset` fills up a sector, which has to lie in the buffer. -/
theorem formatBlockBitmap_eq (bitLen : UInt32) {size : Nat} (hsize : 1 ≤ size) :
    formatBlockBitmap bitLen (.zero size) =
      if 512 * (bitLen.toNat / 4096 + 1) ≤ size then .ok ⟨size, formatBytes bitLen.toNat⟩
      else .error .undefined := by
  have hbyte : (bitLen / 8).toNat = bitLen.toNat / 8 := by
    rw [UInt32.toNat_div]
    rfl
  have hbit : (bitLen % 8).toNat = bitLen.toNat % 8 := by
    rw [UInt32.toNat_mod]
    rfl
  have hend : bitLen.toNat / 8 + (512 - bitLen.toNat / 8 % 512) =
      512 * (bitLen.toNat / 4096 + 1) := by omega
  have hfirst : (0 : Nat) + 1 ≤ (Buf.zero size).size := hsize
  unfold formatBlockBitmap Buf.put
  rw [hbyte, hbit, if_pos hfirst]
  simp only [bind, Except.bind, hend]
  by_cases hfits : 512 * (bitLen.toNat / 4096 + 1) ≤ size
  · have hfits₁ : 512 * (bitLen.toNat / 4096 + 1) ≤ (Buf.zero size).size := hfits
    have hlast : bitLen.toNat / 8 + 1 ≤ (Buf.zero size).size := by omega
    rw [if_pos hfits, if_pos hfits₁]
    simp only [hlast, if_true]
    congr 2
    funext j
    have hff : splice (splice (Buf.zero size).data 0 1 fun _ => (Buf.zero size).data 0 ||| 1)
        (bitLen.toNat / 8) (512 - bitLen.toNat / 8 % 512) (fun _ => 0xff) (bitLen.toNat / 8) =
          0xff := splice_inside (Nat.le_refl _) (by omega)
    unfold formatBytes
    by_cases hj : j = bitLen.toNat / 8
    · rw [if_pos hj, splice_inside (by omega) (by omega), hff]
    · rw [if_neg hj, splice_outside (by omega)]
      by_cases hin : bitLen.toNat / 8 ≤ j ∧ j < 512 * (bitLen.toNat / 4096 + 1)
      · rw [if_pos hin, splice_inside hin.1 (by omega)]
      · rw [if_neg hin, splice_outside (by omega)]
        by_cases hzero : j = 0
        · rw [if_pos hzero, splice_inside (by omega) (by omega)]
          show (0 : UInt8) ||| 1 = 1
          decide
        · rw [if_neg hzero, splice_outside (by omega)]
          rfl
  · have hfits₁ : ¬512 * (bitLen.toNat / 4096 + 1) ≤ (Buf.zero size).size := hfits
    rw [if_neg hfits, if_neg hfits₁]

/-- The bit behind the valid ones is clear. -/
theorem testBit_formatBytes_end (bitLen : Nat) : testBit (formatBytes bitLen) bitLen = false := by
  unfold testBit formatBytes
  rw [if_pos rfl, testBit_clearLowBits (by omega) (by omega)]
  exact decide_eq_false (by omega)

/-- The bit behind the valid ones is cleared with them, unless it starts a sector. -/
theorem formatBytes_right_iff {bitLen sects : Nat} (hpos : 0 < bitLen)
    (hsects : sects = (bitLen + 4096 - 1) / 4096) :
    BitmapRight (formatBytes bitLen) sects bitLen ↔ bitLen % 4096 = 0 := by
  constructor
  · intro h
    by_contra hmod
    exact absurd ((h.2 bitLen hpos (by omega)).mp (testBit_formatBytes_end bitLen))
      (Nat.lt_irrefl _)
  · intro hmod
    have hbyte : ∀ j, j < bitLen / 8 → formatBytes bitLen j = if j = 0 then 1 else 0 := by
      intro j hj
      unfold formatBytes
      rw [if_neg (by omega), if_neg (by omega)]
    constructor
    · show (formatBytes bitLen 0).toNat.testBit 0 = true
      rw [hbyte 0 (by omega)]
      rfl
    · intro i hi hlt
      refine iff_of_true ?_ (by omega)
      show (formatBytes bitLen (i / 8)).toNat.testBit (i % 8) = false
      rw [hbyte (i / 8) (by omega)]
      by_cases hzero : i / 8 = 0
      · have hone : ∀ k, k < 8 → k ≠ 0 → (1 : UInt8).toNat.testBit k = false := by decide
        rw [if_pos hzero]
        exact hone (i % 8) (by omega) (by omega)
      · rw [if_neg hzero]
        exact Nat.zero_testBit _

section

variable {s : State} {startLba secCnt : UInt32}

/-- The buffer has room for the largest of the three tables. -/
theorem toNat_formatBufSize (hsec : 613 ≤ secCnt.toNat)
    (hend : startLba.toNat + secCnt.toNat ≤ 2 ^ 31) :
    (formatBufSize (formatSuperBlock startLba secCnt)).toNat =
      512 * max (formatSuperBlock startLba secCnt).blockBitmapSects.toNat 608 := by
  obtain ⟨-, hfree, -, hrough, ⟨-, hbits⟩, -, hsects⟩ : SizesExact startLba secCnt :=
    sizesExact hsec hend
  have hone : (formatSuperBlock startLba secCnt).inodeBitmapSects = 1 := by
    show divRoundUp 4096 4096 = 1
    decide
  have htable : (formatSuperBlock startLba secCnt).inodeTableSects = 608 := by
    show divRoundUp (UInt32.ofNat inodeSize * 4096) 512 = 608
    decide
  have hge : (formatSuperBlock startLba secCnt).blockBitmapSects ≥ 1 := by
    show 1 ≤ _
    rw [UInt32.le_iff_toNat_le, hsects]
    show 1 ≤ _
    omega
  unfold formatBufSize
  rw [hone, htable]
  simp only [if_pos hge]
  by_cases hbig : (formatSuperBlock startLba secCnt).blockBitmapSects ≥ 608
  · have hbig' : 608 ≤ (formatSuperBlock startLba secCnt).blockBitmapSects.toNat :=
      UInt32.le_iff_toNat_le.mp hbig
    rw [if_pos hbig, UInt32.toNat_mul, Nat.max_eq_left hbig']
    show _ * 512 % 2 ^ 32 = _
    omega
  · have hsmall : (formatSuperBlock startLba secCnt).blockBitmapSects.toNat < 608 := by
      rw [ge_iff_le, UInt32.le_iff_toNat_le] at hbig
      exact Nat.lt_of_not_le hbig
    rw [if_neg hbig, Nat.max_eq_right (Nat.le_of_lt hsmall)]
    rfl

/-- The bitmap is right exactly when its valid bits fill its sectors, as long as the
sector that is then filled behind them lies in the buffer. -/
theorem formatsBitmap_iff (hsec : 613 ≤ secCnt.toNat)
    (hend : startLba.toNat + secCnt.toNat ≤ 2 ^ 31) :
    FormatsBitmap startLba secCnt ↔
      (blockBitmapBitLen secCnt).toNat % 4096 = 0 ∧
        (formatSuperBlock startLba secCnt).blockBitmapSects.toNat < 608 := by
  obtain ⟨-, hfree, -, hrough, ⟨-, hbits⟩, -, hsects⟩ : SizesExact startLba secCnt :=
    sizesExact hsec hend
  have hsize := toNat_formatBufSize hsec hend
  have hpos : 0 < (blockBitmapBitLen secCnt).toNat := by omega
  have hright := formatBytes_right_iff hpos hsects
  unfold FormatsBitmap
  rw [formatBlockBitmap_eq _ (by omega)]
  constructor
  · intro ⟨buf, hbuf, h, _⟩
    by_cases hfits : 512 * ((blockBitmapBitLen secCnt).toNat / 4096 + 1) ≤
        (formatBufSize (formatSuperBlock startLba secCnt)).toNat
    · rw [if_pos hfits] at hbuf
      cases hbuf
      have hmod := hright.mp h
      refine ⟨hmod, ?_⟩
      rw [hsize] at hfits
      omega
    · rw [if_neg hfits] at hbuf
      cases hbuf
  · intro ⟨hmod, hlt⟩
    have hfits := (formatSuperBlock_areas hsec hend).1.fits
    refine ⟨_, if_pos ?_, hright.mpr hmod, fun i hi hfree => ?_⟩
    · rw [hsize]
      omega
    · have hlt := (hright.mpr hmod).free hi hfree
      omega

/-- The disk before sector `lba` stays as it is. -/
def KeepsBefore (lba : UInt32) (s t : State) : Prop :=
  ∀ a, a < sectorOff lba → t.disk a = s.disk a

instance (lba : UInt32) : IsTrans State (KeepsBefore lba) :=
  ⟨fun _ _ _ h h' a ha => (h' a ha).trans (h a ha)⟩

theorem ideWrite_keepsBefore {lba lba' : UInt32} (h : lba.toNat ≤ lba'.toNat) (buf : Buf)
    (n : Nat) : Within (KeepsBefore lba) (ideWrite lba' buf n) := by
  intro s
  rw [Ensures, wp_ideWrite]
  refine ⟨fun _ => ⟨fun _ a ha => splice_outside (Or.inl ?_), fun _ => True.intro⟩,
    fun _ => True.intro⟩
  unfold sectorOff at *
  omega

theorem ideWrite_at (s : State) (lba : UInt32) (buf : Buf) (n : Nat) :
    Ensures (ideWrite lba buf n) s fun _ t =>
      ∀ k, k < 512 * n → t.disk (sectorOff lba + k) = buf.data k := by
  rw [Ensures, wp_ideWrite]
  exact ⟨fun _ => ⟨fun _ _ hk => splice_at hk, fun _ => True.intro⟩, fun _ => True.intro⟩

/-- A run of `partition_format` that returns leaves this bitmap on disk. -/
theorem partitionFormat_bitmap (pad : Bytes) {sb : SuperBlock}
    (hsb : formatSuperBlock s.part.startLba s.part.secCnt = sb)
    (hlayout : LayoutOk s.part.startLba s.part.secCnt sb
      (blockBitmapBitLen s.part.secCnt).toNat) :
    Ensures (partitionFormat pad) s fun _ t => ∃ buf,
      formatBlockBitmap (blockBitmapBitLen s.part.secCnt) (.zero (formatBufSize sb).toNat) =
        .ok buf ∧
      ∀ k, k < 512 * sb.blockBitmapSects.toNat →
        t.disk (sectorOff sb.blockBitmapLba + k) = buf.data k := by
  have hinode := hlayout.inodeBitmap
  have htable : sb.inodeBitmapLba.toNat ≤ sb.inodeTableLba.toNat := by
    rw [hlayout.inodeTable]
    exact Nat.le_add_right _ _
  have hdata : sb.inodeBitmapLba.toNat ≤ sb.dataStartLba.toNat := by
    rw [hlayout.data]
    omega
  unfold partitionFormat
  rw [Ensures, Wp.bind, Wp.get]
  simp only [hsb]
  rw [Wp.bind]
  refine Wp.trivial.call fun _ _ _ => ?_
  rw [Wp.bind]
  refine Wp.trivial.call fun bufPtr _ _ => ?_
  cases bufPtr with
  | none => exact True.intro
  | some bufPtr =>
      rw [Wp.bind, Wp.lift]
      refine ⟨fun buf hbuf => ?_, fun _ _ => True.intro⟩
      rw [Wp.bind]
      refine (ideWrite_at _ _ _ _).call fun _ t₁ h₁ => ?_
      refine Wp.call (Within.bind (ideWrite_keepsBefore (Nat.le_refl _) _ _) (fun _ =>
        (ideWrite_keepsBefore htable _ _).bind fun _ => (ideWrite_keepsBefore hdata _ _).bind
          fun _ => (sysFreeBuf_reads bufPtr).mono fun _ _ h a _ => congrFun h.disk a) t₁)
        fun _ t₂ h₂ => ⟨buf, hbuf, fun k hk => ?_⟩
      refine (h₂ _ ?_).trans (h₁ k hk)
      unfold sectorOff
      omega

/-- The bitmap that `partition_format` computes and leaves on disk is right exactly when
its valid bits fill its sectors. -/
theorem partitionFormat_bitmap_iff (pad : Bytes) (hsec : 613 ≤ s.part.secCnt.toNat)
    (hend : s.part.startLba.toNat + s.part.secCnt.toNat ≤ 2 ^ 31) :
    (FormatsBitmap s.part.startLba s.part.secCnt ↔
      (blockBitmapBitLen s.part.secCnt).toNat % 4096 = 0 ∧
        (formatSuperBlock s.part.startLba s.part.secCnt).blockBitmapSects.toNat < 608) ∧
    Ensures (partitionFormat pad) s fun _ t =>
      (BitmapRight
          (view t.disk
            (sectorOff (formatSuperBlock s.part.startLba s.part.secCnt).blockBitmapLba))
          (formatSuperBlock s.part.startLba s.part.secCnt).blockBitmapSects.toNat
          (blockBitmapBitLen s.part.secCnt).toNat ↔
        (blockBitmapBitLen s.part.secCnt).toNat % 4096 = 0) := by
  refine ⟨formatsBitmap_iff hsec hend, ?_⟩
  obtain ⟨hlayout, -⟩ := formatSuperBlock_areas hsec hend
  obtain ⟨-, -, -, -, -, -, hsects⟩ : SizesExact s.part.startLba s.part.secCnt :=
    sizesExact hsec hend
  have hpos := hlayout.blockBits.1
  have hsectsPos :
      0 < (formatSuperBlock s.part.startLba s.part.secCnt).blockBitmapSects.toNat := by omega
  have hsize := toNat_formatBufSize hsec hend
  refine (partitionFormat_bitmap pad rfl hlayout).call fun _ t h => ?_
  obtain ⟨buf, hbuf, hdisk⟩ := h
  rw [formatBlockBitmap_eq _ (by omega)] at hbuf
  split at hbuf
  · cases hbuf
    refine Iff.trans ⟨fun h => ?_, fun h => ?_⟩ (formatBytes_right_iff hpos hsects)
    · exact h.congr hsectsPos hdisk
    · exact h.congr hsectsPos fun k hk => (hdisk k hk).symm
  · cases hbuf

/-- A partition whose 4096 blocks fill one sector of the bitmap. -/
theorem partitionFormat_bitmap_full : FormatsBitmap 2048 4709 :=
  (partitionFormat_bitmap_iff (s := idleState (emptyPart 2048 4709)) (fun _ => 0) (by decide)
    (by decide)).1.mpr ⟨by decide, by decide⟩

/-- On a partition of 8192 sectors the bit behind the valid ones is clear, and its block
is the first sector behind the partition. -/
theorem formatBlockBitmap_beyond :
    613 ≤ UInt32.toNat 8192 ∧ UInt32.toNat 2048 + UInt32.toNat 8192 ≤ 2 ^ 31 ∧
      ∃ buf, formatBlockBitmap (blockBitmapBitLen 8192)
          (.zero (formatBufSize (formatSuperBlock 2048 8192)).toNat) = .ok buf ∧
        7579 < 4096 * (formatSuperBlock 2048 8192).blockBitmapSects.toNat ∧
        testBit buf.data 7579 = false ∧ (blockBitmapBitLen 8192).toNat = 7579 ∧
        (formatSuperBlock 2048 8192).dataStartLba.toNat + 7579 =
          UInt32.toNat 2048 + UInt32.toNat 8192 := by
  have hlen : (blockBitmapBitLen 8192).toNat = 7579 := by decide
  have hclear := testBit_formatBytes_end (blockBitmapBitLen 8192).toNat
  rw [hlen] at hclear
  refine ⟨by decide, by decide, ⟨(formatBufSize (formatSuperBlock 2048 8192)).toNat,
    formatBytes (blockBitmapBitLen 8192).toNat⟩, ?_, by decide, ?_, hlen, by decide⟩
  · rw [formatBlockBitmap_eq _ (by decide)]
    exact if_pos (by decide)
  · rw [hlen]
    exact hclear

end

end OsTruth
