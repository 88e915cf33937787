/-
The places of the bitmaps that `mem_pool_init` of `kernel/memory.c` sets up, and the memory that
its pools manage.

The number of free pages is cut to 16 bits.  So the bitmaps fit into their window whatever the
memory size is, and from 258 MB on pages are lost by the ten thousands.
-/
import Mathlib.Data.Finset.Card
import Mathlib.Order.Interval.Finset.Nat
import OsTruth.Kernel.Pools

namespace OsTruth

/-! ## Functions -/

def memBitmapBase : UInt32 := 0xc009a000

/-- `K_HEAP_START`, from which the kernel's virtual addresses go on. -/
def kernelVaddrStart : UInt32 := 0xc0100000

/-- `struct bitmap`, with the address of its bits. -/
structure BitmapArea where
  bits : UInt32
  btmpBytesLen : UInt32
  deriving DecidableEq

/-- The bitmaps behind `mem_pool_init`, and the start of the kernel's virtual addresses. -/
structure MemBitmaps where
  kernelPool : BitmapArea
  userPool : BitmapArea
  kernelVaddr : BitmapArea
  vaddrStart : UInt32
  deriving DecidableEq

def memPoolBitmaps (allMem : UInt32) : MemBitmaps where
  kernelPool := ⟨memBitmapBase, kbmLength allMem⟩
  userPool := ⟨memBitmapBase + kbmLength allMem, ubmLength allMem⟩
  kernelVaddr := ⟨memBitmapBase + kbmLength allMem + ubmLength allMem, kbmLength allMem⟩
  vaddrStart := kernelVaddrStart

/-- The address that `vaddr_get` computes for a bit of the kernel's bitmap. -/
def kernelPage (vaddrStart : UInt32) (bitIdx : Nat) : UInt32 :=
  vaddrStart + UInt32.ofNat bitIdx * 4096

/-! ## Properties -/

/-- The addresses of the bytes of a bitmap. -/
def BitmapArea.Covers (b : BitmapArea) (a : Nat) : Prop :=
  b.bits.toNat ≤ a ∧ a < b.bits.toNat + b.btmpBytesLen.toNat

/-- The bitmaps share no byte and lie between `MEM_BITMAP_BASE` and the PCB of the main thread,
and the kernel's virtual pages lie below the window of the page tables. -/
structure BitmapsRight (m : MemBitmaps) : Prop where
  kernelUser : ∀ a, ¬(m.kernelPool.Covers a ∧ m.userPool.Covers a)
  kernelVaddr : ∀ a, ¬(m.kernelPool.Covers a ∧ m.kernelVaddr.Covers a)
  userVaddr : ∀ a, ¬(m.userPool.Covers a ∧ m.kernelVaddr.Covers a)
  inside : ∀ a, m.kernelPool.Covers a ∨ m.userPool.Covers a ∨ m.kernelVaddr.Covers a →
    0xc009a000 ≤ a ∧ a < 0xc009e000
  pages : ∀ i, i < 8 * m.kernelVaddr.btmpBytesLen.toNat →
    0xc0100000 ≤ (kernelPage m.vaddrStart i).toNat ∧
      (kernelPage m.vaddrStart i).toNat + pgSize ≤ 0xffc00000

/-- No operation of `mem_pool_init` leaves the 32 bits, and no product of a number of pages, which
is an `int`, leaves the 31 bits. -/
structure MemPoolExact (allMem : UInt32) : Prop where
  used : usedMem.toNat = 4096 * 256 + 0x100000
  free : usedMem.toNat ≤ allMem.toNat ∧ (freeMem allMem).toNat = allMem.toNat - usedMem.toNat
  userPages : (kernelFreePages allMem).toNat ≤ (allFreePages allMem).toNat
  kernelSize : (kernelFreePages allMem).toNat * pgSize < 2 ^ 31
  userSize : (userFreePages allMem).toNat * pgSize < 2 ^ 31
  userStart : (upStart allMem).toNat = usedMem.toNat + (kernelFreePages allMem).toNat * pgSize
  userBits : (memPoolBitmaps allMem).userPool.bits.toNat =
    memBitmapBase.toNat + (kbmLength allMem).toNat
  vaddrBits : (memPoolBitmaps allMem).kernelVaddr.bits.toNat =
    memBitmapBase.toNat + (kbmLength allMem).toNat + (ubmLength allMem).toNat
  vaddrEnd : (memPoolBitmaps allMem).kernelVaddr.bits.toNat + (kbmLength allMem).toNat < 2 ^ 32
  pages : ∀ i, i < 8 * (kbmLength allMem).toNat →
    (kernelPage kernelVaddrStart i).toNat = kernelVaddrStart.toNat + i * pgSize

/-- Some bit of a pool stands for page `i`. -/
def Managed (allMem : UInt32) (i : Nat) : Prop :=
  ∃ pf b, b < 8 * ((memPoolInit allMem).pool pf).poolBitmap.btmpBytesLen ∧
    (frameAddr ((memPoolInit allMem).pool pf) b).toNat = 0x200000 + pgSize * i

instance (allMem : UInt32) : DecidablePred (Managed allMem) := fun i =>
  decidable_of_iff
    ((∃ b, b < 8 * (memPoolInit allMem).kernelPool.poolBitmap.btmpBytesLen ∧
        (frameAddr (memPoolInit allMem).kernelPool b).toNat = 0x200000 + pgSize * i) ∨
      ∃ b, b < 8 * (memPoolInit allMem).userPool.poolBitmap.btmpBytesLen ∧
        (frameAddr (memPoolInit allMem).userPool b).toNat = 0x200000 + pgSize * i)
    ⟨fun h => h.elim (fun h => ⟨.pfKernel, h⟩) fun h => ⟨.pfUser, h⟩, fun ⟨pf, h⟩ => by
      cases pf with
      | pfKernel => exact Or.inl h
      | pfUser => exact Or.inr h⟩

def lostPages (allMem : UInt32) : Finset Nat :=
  (Finset.range (wholePages allMem)).filter fun i => ¬Managed allMem i

section

variable {allMem : UInt32}

/-- Both bitmaps of the kernel and that of the user pool together stay below 16 KB. -/
theorem lengths_le (allMem : UInt32) :
    2 * (kbmLength allMem).toNat + (ubmLength allMem).toNat < 0x4000 := by
  have hlt := (allFreePages allMem).toNat_lt
  rw [toNat_kbmLength, toNat_ubmLength, toNat_kernelFreePages, toNat_userFreePages]
  omega

/-! ## The bitmaps -/

theorem toNat_kernelPage {i : Nat} (hi : i < 8 * (kbmLength allMem).toNat) :
    (kernelPage kernelVaddrStart i).toNat = kernelVaddrStart.toNat + i * pgSize := by
  have hlen := lengths_le allMem
  have hpg : pgSize = 4096 := rfl
  have hstart : kernelVaddrStart.toNat = 0xc0100000 := rfl
  have hsize : (4096 : UInt32).toNat = 4096 := rfl
  have hmul : (UInt32.ofNat i * 4096).toNat = i * 4096 := by
    rw [UInt32.toNat_mul, UInt32.toNat_ofNat', hsize]
    omega
  unfold kernelPage
  rw [UInt32.toNat_add, hmul, hpg, hstart]
  omega

theorem memPoolExact (h : 0x200000 ≤ allMem.toNat) : MemPoolExact allMem := by
  have hlt := (allFreePages allMem).toNat_lt
  have hlen := lengths_le allMem
  have hpg : pgSize = 4096 := rfl
  have hbase : memBitmapBase.toNat = 0xc009a000 := rfl
  have huser : (memBitmapBase + kbmLength allMem).toNat =
      memBitmapBase.toNat + (kbmLength allMem).toNat := by
    rw [UInt32.toNat_add]
    omega
  have hvaddr : (memBitmapBase + kbmLength allMem + ubmLength allMem).toNat =
      memBitmapBase.toNat + (kbmLength allMem).toNat + (ubmLength allMem).toNat := by
    rw [UInt32.toNat_add, huser]
    omega
  exact {
    used := rfl
    free := ⟨h, toNat_freeMem h⟩
    userPages := by
      rw [toNat_kernelFreePages]
      omega
    kernelSize := by
      rw [toNat_kernelFreePages, hpg]
      omega
    userSize := by
      rw [toNat_userFreePages, hpg]
      omega
    userStart := toNat_upStart allMem
    userBits := huser
    vaddrBits := hvaddr
    vaddrEnd := by
      show (memBitmapBase + kbmLength allMem + ubmLength allMem).toNat + _ < _
      omega
    pages := fun _ hi => toNat_kernelPage hi }

/-- The three bitmaps are apart and inside their window, the kernel's pages are below the window
of the page tables, and nothing wraps. -/
theorem memPoolBitmaps_right (h : 0x200000 ≤ allMem.toNat) :
    BitmapsRight (memPoolBitmaps allMem) ∧ MemPoolExact allMem := by
  have hexact := memPoolExact h
  have hlen := lengths_le allMem
  have huser := hexact.userBits
  have hvaddr := hexact.vaddrBits
  have hbase : memBitmapBase.toNat = 0xc009a000 := rfl
  have hkernel : (memPoolBitmaps allMem).kernelPool.bits.toNat = 0xc009a000 := rfl
  have hklen : (memPoolBitmaps allMem).kernelPool.btmpBytesLen = kbmLength allMem := rfl
  have hulen : (memPoolBitmaps allMem).userPool.btmpBytesLen = ubmLength allMem := rfl
  have hvlen : (memPoolBitmaps allMem).kernelVaddr.btmpBytesLen = kbmLength allMem := rfl
  refine ⟨⟨fun a ha => ?_, fun a ha => ?_, fun a ha => ?_, fun a ha => ?_, fun i hi => ?_⟩, hexact⟩
  · unfold BitmapArea.Covers at ha
    rw [hklen] at ha
    omega
  · unfold BitmapArea.Covers at ha
    rw [hklen] at ha
    omega
  · unfold BitmapArea.Covers at ha
    rw [hulen] at ha
    omega
  · unfold BitmapArea.Covers at ha
    rw [hklen, hulen, hvlen] at ha
    omega
  · rw [hvlen] at hi
    have hpg : pgSize = 4096 := rfl
    have hstart : kernelVaddrStart.toNat = 0xc0100000 := rfl
    have hpage := hexact.pages i hi
    show _ ≤ (kernelPage kernelVaddrStart i).toNat ∧ (kernelPage kernelVaddrStart i).toNat + _ ≤ _
    rw [hpage, hstart, hpg]
    omega

/-- A machine with 32 MB. -/
theorem memPoolBitmaps_right_32 :
    BitmapsRight (memPoolBitmaps 0x2000000) ∧ MemPoolExact 0x2000000 :=
  memPoolBitmaps_right (by decide)

/-! ## The managed pages -/

/-- The pools manage the first pages from their starts on. -/
theorem managed_iff (h : 0x200000 ≤ allMem.toNat) {i : Nat} : Managed allMem i ↔
    i < 8 * (kbmLength allMem).toNat ∨
      (kernelFreePages allMem).toNat ≤ i ∧
        i < (kernelFreePages allMem).toNat + 8 * (ubmLength allMem).toNat := by
  have hlayout := memPoolInit_layout h
  have hpg : pgSize = 4096 := rfl
  have hklen : (memPoolInit allMem).kernelPool.poolBitmap.btmpBytesLen = (kbmLength allMem).toNat :=
    rfl
  have hulen : (memPoolInit allMem).userPool.poolBitmap.btmpBytesLen = (ubmLength allMem).toNat :=
    rfl
  have hkstart : (memPoolInit allMem).kernelPool.phyAddrStart.toNat = 0x200000 := rfl
  have hustart : (memPoolInit allMem).userPool.phyAddrStart.toNat =
      0x200000 + (kernelFreePages allMem).toNat * pgSize := (memPoolExact h).userStart
  have hkernel : ∀ b, b < 8 * (kbmLength allMem).toNat →
      (frameAddr (memPoolInit allMem).kernelPool b).toNat = 0x200000 + pgSize * b := by
    intro b hb
    have hframe : (frameAddr ((memPoolInit allMem).pool .pfKernel) b).toNat = _ :=
      hlayout.frameAddr_toNat (hklen ▸ hb)
    exact hframe.trans (congrArg (· + _) hkstart)
  have huser : ∀ b, b < 8 * (ubmLength allMem).toNat →
      (frameAddr (memPoolInit allMem).userPool b).toNat =
        0x200000 + (kernelFreePages allMem).toNat * pgSize + pgSize * b := by
    intro b hb
    have hframe : (frameAddr ((memPoolInit allMem).pool .pfUser) b).toNat = _ :=
      hlayout.frameAddr_toNat (hulen ▸ hb)
    exact hframe.trans (congrArg (· + _) hustart)
  constructor
  · intro ⟨pf, b, hb, haddr⟩
    cases pf with
    | pfKernel =>
        have hb' : b < 8 * (kbmLength allMem).toNat := hklen ▸ hb
        have haddr' := (hkernel b hb').symm.trans haddr
        rw [hpg] at haddr'
        omega
    | pfUser =>
        have hb' : b < 8 * (ubmLength allMem).toNat := hulen ▸ hb
        have haddr' := (huser b hb').symm.trans haddr
        rw [hpg] at haddr'
        omega
  · intro hi
    rcases hi with hi | ⟨hlow, hhigh⟩
    · exact ⟨.pfKernel, i, hklen.symm ▸ hi, hkernel i hi⟩
    · have hb : i - (kernelFreePages allMem).toNat < 8 * (ubmLength allMem).toNat := by omega
      refine ⟨.pfUser, i - (kernelFreePages allMem).toNat, hulen.symm ▸ hb,
        (huser _ hb).trans ?_⟩
      rw [hpg]
      omega

/-- The number of the lost pages. -/
theorem card_lostPages (h : 0x200000 ≤ allMem.toNat) : (lostPages allMem).card =
    wholePages allMem - (8 * (kbmLength allMem).toNat + 8 * (ubmLength allMem).toNat) := by
  have hkbm := toNat_kbmLength allMem
  have hubm := toNat_ubmLength allMem
  have hkernel := toNat_kernelFreePages allMem
  have huser := toNat_userFreePages allMem
  have hall := toNat_allFreePages h
  have hlost : lostPages allMem = Finset.range (wholePages allMem) \
      (Finset.range (8 * (kbmLength allMem).toNat) ∪
        Finset.Ico (kernelFreePages allMem).toNat
          ((kernelFreePages allMem).toNat + 8 * (ubmLength allMem).toNat)) := by
    ext i
    unfold lostPages
    rw [Finset.mem_filter, Finset.mem_sdiff, Finset.mem_union, Finset.mem_range, Finset.mem_range,
      Finset.mem_Ico, managed_iff h]
  have hsub : Finset.range (8 * (kbmLength allMem).toNat) ∪
      Finset.Ico (kernelFreePages allMem).toNat
        ((kernelFreePages allMem).toNat + 8 * (ubmLength allMem).toNat) ⊆
      Finset.range (wholePages allMem) := by
    intro i hi
    rw [Finset.mem_union, Finset.mem_range, Finset.mem_Ico] at hi
    rw [Finset.mem_range]
    omega
  have hdisj : Disjoint (Finset.range (8 * (kbmLength allMem).toNat))
      (Finset.Ico (kernelFreePages allMem).toNat
        ((kernelFreePages allMem).toNat + 8 * (ubmLength allMem).toNat)) := by
    rw [Finset.disjoint_left]
    intro i hi hi'
    rw [Finset.mem_range] at hi
    rw [Finset.mem_Ico] at hi'
    omega
  rw [hlost, Finset.card_sdiff_of_subset hsub, Finset.card_union_of_disjoint hdisj,
    Finset.card_range, Finset.card_range, Nat.card_Ico, Nat.add_sub_cancel_left]

/-- Fewer than 17 pages are lost exactly when the number of pages has 16 bits. -/
theorem lostPages_iff (h : 0x200000 ≤ allMem.toNat) :
    (lostPages allMem).card < 17 ↔ allMem.toNat < 0x10200000 := by
  have hkbm := toNat_kbmLength allMem
  have hubm := toNat_ubmLength allMem
  have hkernel := toNat_kernelFreePages allMem
  have huser := toNat_userFreePages allMem
  have hall := toNat_allFreePages h
  have hpg : pgSize = 4096 := rfl
  have hwhole : wholePages allMem = (allMem.toNat - 0x200000) / 4096 := rfl
  rw [card_lostPages h]
  omega

/-- With 32 MB, few pages are lost. -/
theorem lostPages_32 : (lostPages 0x2000000).card < 17 :=
  (lostPages_iff (by decide)).mpr (by decide)

/-- With 512 MB, which the comment at `MEM_BITMAP_BASE` promises, half of the pages are lost. -/
theorem lostPages_512 : 0x200000 ≤ UInt32.toNat 0x20000000 ∧
    UInt32.toNat 0x20000000 ≤ 0x20000000 ∧ ¬(lostPages 0x20000000).card < 17 := by
  refine ⟨by decide, by decide, ?_⟩
  rw [card_lostPages (by decide)]
  decide

end

end OsTruth
