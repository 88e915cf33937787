/-
The pools of physical pages in `kernel/memory.c`.
-/
import OsTruth.Lib.Bitmap
import OsTruth.Library.Runs

namespace OsTruth

open Runs

def pgSize : Nat := 4096

inductive PoolFlags
  | pfKernel
  | pfUser
  deriving DecidableEq, Repr

/-- `struct pool` without its lock. -/
structure Pool where
  poolBitmap : Bitmap
  phyAddrStart : UInt32
  poolSize : UInt32

/-- `kernel_pool` and `user_pool`. -/
structure Pools where
  kernelPool : Pool
  userPool : Pool

namespace Pools

def pool (ps : Pools) : PoolFlags → Pool
  | .pfKernel => ps.kernelPool
  | .pfUser => ps.userPool

def put (ps : Pools) (pf : PoolFlags) (p : Pool) : Pools :=
  match pf with
  | .pfKernel => { ps with kernelPool := p }
  | .pfUser => { ps with userPool := p }

end Pools

/-! ## Functions -/

/-! ### `mem_pool_init` -/

def usedMem : UInt32 := 4096 * 256 + 0x100000

def freeMem (allMem : UInt32) : UInt32 := allMem - usedMem

def allFreePages (allMem : UInt32) : UInt16 := (freeMem allMem / 4096).toUInt16

def kernelFreePages (allMem : UInt32) : UInt16 := allFreePages allMem / 2

def userFreePages (allMem : UInt32) : UInt16 := allFreePages allMem - kernelFreePages allMem

def kbmLength (allMem : UInt32) : UInt32 := (kernelFreePages allMem).toUInt32 / 8

def ubmLength (allMem : UInt32) : UInt32 := (userFreePages allMem).toUInt32 / 8

def upStart (allMem : UInt32) : UInt32 := usedMem + (kernelFreePages allMem).toUInt32 * 4096

/-- `mem_pool_init`.  The numbers of pages are 16-bit words. -/
def memPoolInit (allMem : UInt32) : Pools where
  kernelPool := ⟨⟨(kbmLength allMem).toNat, fun _ => 0⟩, usedMem,
    (kernelFreePages allMem).toUInt32 * 4096⟩
  userPool := ⟨⟨(ubmLength allMem).toNat, fun _ => 0⟩, upStart allMem,
    (userFreePages allMem).toUInt32 * 4096⟩

/-! ### `palloc` and `pfree` -/

def frameAddr (mPool : Pool) (bitIdx : Nat) : UInt32 :=
  UInt32.ofNat bitIdx * 4096 + mPool.phyAddrStart

/-- `palloc`, with `none` for `NULL`. -/
def palloc (mPool : Pool) : Except Fault (Option UInt32 × Pool) := do
  let bitIdx ← bitmapScan mPool.poolBitmap 1
  if bitIdx = -1 then pure (none, mPool)
  else do
    let b ← bitmapSet mPool.poolBitmap bitIdx.toNat true
    pure (some (frameAddr mPool bitIdx.toNat), { mPool with poolBitmap := b })

/-- The pool that `pfree` takes an address to be of. -/
def pfreePool (ps : Pools) (pgPhyAddr : UInt32) : PoolFlags :=
  if pgPhyAddr ≥ ps.userPool.phyAddrStart then .pfUser else .pfKernel

def pfree (ps : Pools) (pgPhyAddr : UInt32) : Except Fault Pools := do
  let pf := pfreePool ps pgPhyAddr
  let memPool := ps.pool pf
  let bitIdx := (pgPhyAddr - memPool.phyAddrStart) / 4096
  let b ← bitmapSet memPool.poolBitmap bitIdx.toNat false
  pure (ps.put pf { memPool with poolBitmap := b })

/-! ## Runs -/

inductive FrameCall
  | palloc (pf : PoolFlags)
  | pfree (pgPhyAddr : UInt32)

/-- The pools with the frames that are handed out, each with the pool that issued it. -/
structure Frames where
  pools : Pools
  out : List (PoolFlags × UInt32)

def frameStep (σ : Frames) : FrameCall → Except Fault Frames
  | .palloc pf => do
      let (a, p) ← palloc (σ.pools.pool pf)
      match a with
      | none => pure ⟨σ.pools.put pf p, σ.out⟩
      | some a => pure ⟨σ.pools.put pf p, (pf, a) :: σ.out⟩
  | .pfree a => do
      let ps ← pfree σ.pools a
      pure ⟨ps, σ.out.filter fun f => f.2 ≠ a⟩

/-- A pool that is not full is asked, or a frame that is handed out is given back. -/
def frameCall (σ : Frames) : FrameCall → Prop
  | .palloc pf => ¬(σ.pools.pool pf).poolBitmap.Full
  | .pfree a => ∃ pf, (pf, a) ∈ σ.out

/-! ## The property -/

structure FramesRight (allMem : UInt32) (σ : Frames) : Prop where
  distinct : (σ.out.map Prod.snd).Nodup
  framed : ∀ pf a, (pf, a) ∈ σ.out → ∃ i, i < 8 * (σ.pools.pool pf).poolBitmap.btmpBytesLen ∧
    a = frameAddr (σ.pools.pool pf) i
  aligned : ∀ pf a, (pf, a) ∈ σ.out → a.toNat % pgSize = 0
  inside : ∀ pf a, (pf, a) ∈ σ.out → (σ.pools.pool pf).phyAddrStart.toNat ≤ a.toNat ∧
    a.toNat < (σ.pools.pool pf).phyAddrStart.toNat + (σ.pools.pool pf).poolSize.toNat
  low : 0x200000 ≤ σ.pools.kernelPool.phyAddrStart.toNat
  apart : σ.pools.kernelPool.phyAddrStart.toNat + σ.pools.kernelPool.poolSize.toNat ≤
    σ.pools.userPool.phyAddrStart.toNat
  high : σ.pools.userPool.phyAddrStart.toNat + σ.pools.userPool.poolSize.toNat ≤ allMem.toNat
  back : ∀ pf a, (pf, a) ∈ σ.out → pfreePool σ.pools a = pf
  bits : ∀ pf i, i < 8 * (σ.pools.pool pf).poolBitmap.btmpBytesLen →
    ((σ.pools.pool pf).poolBitmap.bit i = true ↔ (pf, frameAddr (σ.pools.pool pf) i) ∈ σ.out)

/-! ## The layout -/

/-- Where the pools lie, which no call changes. -/
structure PoolsLayout (allMem : UInt32) (ps : Pools) : Prop where
  low : 0x200000 ≤ ps.kernelPool.phyAddrStart.toNat
  apart : ps.kernelPool.phyAddrStart.toNat + ps.kernelPool.poolSize.toNat ≤
    ps.userPool.phyAddrStart.toNat
  high : ps.userPool.phyAddrStart.toNat + ps.userPool.poolSize.toNat ≤ allMem.toNat
  aligned : ∀ pf, (ps.pool pf).phyAddrStart.toNat % pgSize = 0
  fits : ∀ pf, pgSize * (8 * (ps.pool pf).poolBitmap.btmpBytesLen) ≤ (ps.pool pf).poolSize.toNat

/-! ### Numbers of pages -/

section

variable {allMem : UInt32}

/-- The whole pages behind the first two megabytes. -/
def wholePages (allMem : UInt32) : Nat := (allMem.toNat - 0x200000) / pgSize

theorem toNat_freeMem (h : 0x200000 ≤ allMem.toNat) :
    (freeMem allMem).toNat = allMem.toNat - 0x200000 :=
  UInt32.toNat_sub_of_le _ _ (UInt32.le_iff_toNat_le.mpr h)

/-- What the 16 bits leave of the number of whole pages. -/
theorem toNat_allFreePages (h : 0x200000 ≤ allMem.toNat) :
    (allFreePages allMem).toNat = wholePages allMem % 2 ^ 16 := by
  unfold allFreePages wholePages
  rw [UInt32.toNat_toUInt16, UInt32.toNat_div, toNat_freeMem h]
  rfl

theorem toNat_kernelFreePages (allMem : UInt32) :
    (kernelFreePages allMem).toNat = (allFreePages allMem).toNat / 2 := by
  unfold kernelFreePages
  rw [UInt16.toNat_div]
  rfl

theorem toNat_userFreePages (allMem : UInt32) : (userFreePages allMem).toNat =
    (allFreePages allMem).toNat - (allFreePages allMem).toNat / 2 := by
  have hlt := (allFreePages allMem).toNat_lt
  unfold userFreePages
  rw [UInt16.toNat_sub, toNat_kernelFreePages]
  omega

theorem toNat_kbmLength (allMem : UInt32) :
    (kbmLength allMem).toNat = (kernelFreePages allMem).toNat / 8 := by
  unfold kbmLength
  rw [UInt32.toNat_div, UInt16.toNat_toUInt32]
  rfl

theorem toNat_ubmLength (allMem : UInt32) :
    (ubmLength allMem).toNat = (userFreePages allMem).toNat / 8 := by
  unfold ubmLength
  rw [UInt32.toNat_div, UInt16.toNat_toUInt32]
  rfl

theorem toNat_upStart (allMem : UInt32) :
    (upStart allMem).toNat = usedMem.toNat + (kernelFreePages allMem).toNat * pgSize := by
  have hlt := (allFreePages allMem).toNat_lt
  have hused : usedMem.toNat = 0x200000 := rfl
  have hsize : (4096 : UInt32).toNat = 4096 := rfl
  have hpg : pgSize = 4096 := rfl
  unfold upStart
  rw [UInt32.toNat_add, UInt32.toNat_mul, UInt16.toNat_toUInt32, toNat_kernelFreePages, hused,
    hsize, hpg]
  omega

/-- The size of a pool in bytes. -/
theorem toNat_poolSize (pages : UInt16) : (pages.toUInt32 * 4096).toNat = pages.toNat * pgSize := by
  have hlt := pages.toNat_lt
  have hsize : (4096 : UInt32).toNat = 4096 := rfl
  have hpg : pgSize = 4096 := rfl
  rw [UInt32.toNat_mul, UInt16.toNat_toUInt32, hsize, hpg]
  omega

theorem memPoolInit_layout (h : 0x200000 ≤ allMem.toNat) :
    PoolsLayout allMem (memPoolInit allMem) := by
  have hpg : pgSize = 4096 := rfl
  have hused : usedMem.toNat = 0x200000 := rfl
  have hk := toNat_kernelFreePages allMem
  have hu := toNat_userFreePages allMem
  have hup := toNat_upStart allMem
  have hall : (allFreePages allMem).toNat * 4096 ≤ allMem.toNat - 0x200000 := by
    rw [toNat_allFreePages h, wholePages, hpg]
    omega
  rw [hpg] at hup
  refine ⟨Nat.le_refl _, ?_, ?_, fun pf => ?_, fun pf => ?_⟩
  · show usedMem.toNat + ((kernelFreePages allMem).toUInt32 * 4096).toNat ≤ (upStart allMem).toNat
    rw [toNat_poolSize, hup, hpg]
  · show (upStart allMem).toNat + ((userFreePages allMem).toUInt32 * 4096).toNat ≤ _
    rw [toNat_poolSize, hup, hpg]
    omega
  · cases pf with
    | pfKernel =>
        show usedMem.toNat % pgSize = 0
        rw [hused, hpg]
    | pfUser =>
        show (upStart allMem).toNat % pgSize = 0
        rw [hup, hused, hpg]
        omega
  · cases pf with
    | pfKernel =>
        show pgSize * (8 * (kbmLength allMem).toNat) ≤
          ((kernelFreePages allMem).toUInt32 * 4096).toNat
        rw [toNat_poolSize, toNat_kbmLength, hpg]
        omega
    | pfUser =>
        show pgSize * (8 * (ubmLength allMem).toNat) ≤
          ((userFreePages allMem).toUInt32 * 4096).toNat
        rw [toNat_poolSize, toNat_ubmLength, hpg]
        omega

end

section

variable {allMem : UInt32} {ps : Pools} {σ τ : Frames}

theorem Pools.pool_put (ps : Pools) (pf pf' : PoolFlags) (p : Pool) :
    (ps.put pf p).pool pf' = if pf' = pf then p else ps.pool pf' := by
  cases pf <;> cases pf' <;> rfl

theorem PoolsLayout.frameAddr_toNat (h : PoolsLayout allMem ps) {pf : PoolFlags} {i : Nat}
    (hi : i < 8 * (ps.pool pf).poolBitmap.btmpBytesLen) :
    (frameAddr (ps.pool pf) i).toNat = (ps.pool pf).phyAddrStart.toNat + pgSize * i := by
  have hsize : (ps.pool pf).phyAddrStart.toNat + (ps.pool pf).poolSize.toNat ≤ allMem.toNat := by
    have hapart := h.apart
    have hhigh := h.high
    cases pf with
    | pfKernel =>
        show ps.kernelPool.phyAddrStart.toNat + ps.kernelPool.poolSize.toNat ≤ _
        omega
    | pfUser => exact hhigh
  have hfits := h.fits pf
  have hlt := allMem.toNat_lt
  have hpg : pgSize = 4096 := rfl
  rw [hpg] at hfits ⊢
  unfold frameAddr
  rw [UInt32.toNat_add, UInt32.toNat_mul, UInt32.toNat_ofNat']
  show (i % 2 ^ 32 * 4096 % 2 ^ 32 + _) % 2 ^ 32 = _
  omega

/-- A frame lies in its pool. -/
theorem PoolsLayout.inside (h : PoolsLayout allMem ps) {pf : PoolFlags} {i : Nat}
    (hi : i < 8 * (ps.pool pf).poolBitmap.btmpBytesLen) :
    (ps.pool pf).phyAddrStart.toNat ≤ (frameAddr (ps.pool pf) i).toNat ∧
      (frameAddr (ps.pool pf) i).toNat <
        (ps.pool pf).phyAddrStart.toNat + (ps.pool pf).poolSize.toNat := by
  have hfits := h.fits pf
  have hpg : pgSize = 4096 := rfl
  rw [h.frameAddr_toNat hi]
  rw [hpg] at hfits ⊢
  omega

/-- `pfree` compares with the start of the user pool. -/
theorem PoolsLayout.pfreePool_frame (h : PoolsLayout allMem ps) {pf : PoolFlags} {i : Nat}
    (hi : i < 8 * (ps.pool pf).poolBitmap.btmpBytesLen) :
    pfreePool ps (frameAddr (ps.pool pf) i) = pf := by
  obtain ⟨hlow, hhigh⟩ := h.inside hi
  unfold pfreePool
  cases pf with
  | pfUser => exact if_pos (UInt32.le_iff_toNat_le.mpr hlow)
  | pfKernel =>
      refine if_neg fun hge => ?_
      have hge' := UInt32.le_iff_toNat_le.mp hge
      have hapart := h.apart
      have hhigh' : (frameAddr (ps.pool .pfKernel) i).toNat <
          ps.kernelPool.phyAddrStart.toNat + ps.kernelPool.poolSize.toNat := hhigh
      omega

theorem PoolsLayout.frameAddr_inj (h : PoolsLayout allMem ps) {pf pf' : PoolFlags} {i j : Nat}
    (hi : i < 8 * (ps.pool pf).poolBitmap.btmpBytesLen)
    (hj : j < 8 * (ps.pool pf').poolBitmap.btmpBytesLen)
    (heq : frameAddr (ps.pool pf) i = frameAddr (ps.pool pf') j) : pf = pf' ∧ i = j := by
  have hpf : pf = pf' := by
    rw [← h.pfreePool_frame hi, heq, h.pfreePool_frame hj]
  rw [hpf] at hi heq
  have hnat := congrArg UInt32.toNat heq
  have hpg : pgSize = 4096 := rfl
  rw [h.frameAddr_toNat hi, h.frameAddr_toNat hj, hpg] at hnat
  exact ⟨hpf, by omega⟩

/-- Only the bits of a pool change. -/
theorem PoolsLayout.setBit (h : PoolsLayout allMem ps) (pf : PoolFlags) (i : Nat) (v : Bool) :
    PoolsLayout allMem (ps.put pf { ps.pool pf with
      poolBitmap := (ps.pool pf).poolBitmap.set i v }) := by
  have hsame : ∀ pf', ((ps.put pf { ps.pool pf with
      poolBitmap := (ps.pool pf).poolBitmap.set i v }).pool pf').phyAddrStart =
        (ps.pool pf').phyAddrStart ∧
      ((ps.put pf { ps.pool pf with
        poolBitmap := (ps.pool pf).poolBitmap.set i v }).pool pf').poolSize =
          (ps.pool pf').poolSize ∧
      ((ps.put pf { ps.pool pf with
        poolBitmap := (ps.pool pf).poolBitmap.set i v }).pool pf').poolBitmap.btmpBytesLen =
          (ps.pool pf').poolBitmap.btmpBytesLen := by
    intro pf'
    rw [Pools.pool_put]
    by_cases hpf : pf' = pf
    · rw [if_pos hpf, hpf]
      exact ⟨rfl, rfl, rfl⟩
    · rw [if_neg hpf]
      exact ⟨rfl, rfl, rfl⟩
  have hkernel := hsame .pfKernel
  have huser := hsame .pfUser
  refine ⟨?_, ?_, ?_, fun pf' => ?_, fun pf' => ?_⟩
  · exact Nat.le_trans h.low (Nat.le_of_eq (congrArg UInt32.toNat hkernel.1.symm))
  · show ((Pools.put _ _ _).pool .pfKernel).phyAddrStart.toNat +
      ((Pools.put _ _ _).pool .pfKernel).poolSize.toNat ≤
        ((Pools.put _ _ _).pool .pfUser).phyAddrStart.toNat
    rw [hkernel.1, hkernel.2.1, huser.1]
    exact h.apart
  · show ((Pools.put _ _ _).pool .pfUser).phyAddrStart.toNat +
      ((Pools.put _ _ _).pool .pfUser).poolSize.toNat ≤ _
    rw [huser.1, huser.2.1]
    exact h.high
  · rw [(hsame pf').1]
    exact h.aligned pf'
  · rw [(hsame pf').2.1, (hsame pf').2.2]
    exact h.fits pf'

/-! ## The functions -/

theorem palloc_eq {p : Pool} (h : ¬p.poolBitmap.Full) : ∃ i, p.poolBitmap.FirstClear i ∧
    palloc p = .ok (some (frameAddr p i), { p with poolBitmap := p.poolBitmap.set i true }) := by
  rcases bitmapScan_one p.poolBitmap with ⟨i, hscan, hi⟩ | ⟨-, hfull⟩
  · have hne : ¬(i : Int) = -1 := by omega
    refine ⟨i, hi, ?_⟩
    simp [palloc, hscan, bitmapSet_of_lt hi.1, hne, bind, Except.bind, pure, Except.pure]
  · exact absurd hfull h

theorem pfree_eq (h : PoolsLayout allMem ps) {pf : PoolFlags} {i : Nat}
    (hi : i < 8 * (ps.pool pf).poolBitmap.btmpBytesLen) :
    pfree ps (frameAddr (ps.pool pf) i) =
      .ok (ps.put pf { ps.pool pf with poolBitmap := (ps.pool pf).poolBitmap.set i false }) := by
  have hidx : ((frameAddr (ps.pool pf) i - (ps.pool pf).phyAddrStart) / 4096).toNat = i := by
    have haddr := h.frameAddr_toNat hi
    have hlt := (frameAddr (ps.pool pf) i).toNat_lt
    have hpg : pgSize = 4096 := rfl
    rw [hpg] at haddr
    rw [UInt32.toNat_div, UInt32.toNat_sub]
    show (2 ^ 32 - _ + _) % 2 ^ 32 / 4096 = i
    omega
  unfold pfree
  rw [h.pfreePool_frame hi]
  simp only [hidx, bitmapSet_of_lt hi, bind, Except.bind, pure, Except.pure]

/-! ## The invariant -/

structure Tracked (allMem : UInt32) (σ : Frames) : Prop where
  layout : PoolsLayout allMem σ.pools
  distinct : (σ.out.map Prod.snd).Nodup
  framed : ∀ pf a, (pf, a) ∈ σ.out → ∃ i, i < 8 * (σ.pools.pool pf).poolBitmap.btmpBytesLen ∧
    a = frameAddr (σ.pools.pool pf) i
  bits : ∀ pf i, i < 8 * (σ.pools.pool pf).poolBitmap.btmpBytesLen →
    ((σ.pools.pool pf).poolBitmap.bit i = true ↔ (pf, frameAddr (σ.pools.pool pf) i) ∈ σ.out)

theorem Tracked.right (h : Tracked allMem σ) : FramesRight allMem σ where
  distinct := h.distinct
  framed := h.framed
  low := h.layout.low
  apart := h.layout.apart
  high := h.layout.high
  bits := h.bits
  aligned pf a ha := by
    obtain ⟨i, hi, rfl⟩ := h.framed pf a ha
    rw [h.layout.frameAddr_toNat hi, Nat.add_mul_mod_self_left]
    exact h.layout.aligned pf
  inside pf a ha := by
    obtain ⟨i, hi, rfl⟩ := h.framed pf a ha
    exact h.layout.inside hi
  back pf a ha := by
    obtain ⟨i, hi, rfl⟩ := h.framed pf a ha
    exact h.layout.pfreePool_frame hi

theorem memPoolInit_tracked (h : 0x200000 ≤ allMem.toNat) :
    Tracked allMem ⟨memPoolInit allMem, []⟩ where
  layout := memPoolInit_layout h
  distinct := List.nodup_nil
  framed _ _ := nofun
  bits pf i _ := by
    have hzero : ((memPoolInit allMem).pool pf).poolBitmap.bit i = false := by
      cases pf <;> exact Nat.zero_testBit _
    rw [hzero]
    exact ⟨nofun, nofun⟩

/-- A pool is replaced by one that differs in its bits only. -/
theorem setBit_pool (ps : Pools) (pf pf' : PoolFlags) (i : Nat) (v : Bool) :
    frameAddr ((ps.put pf { ps.pool pf with
      poolBitmap := (ps.pool pf).poolBitmap.set i v }).pool pf') = frameAddr (ps.pool pf') ∧
    ((ps.put pf { ps.pool pf with
      poolBitmap := (ps.pool pf).poolBitmap.set i v }).pool pf').poolBitmap.btmpBytesLen =
        (ps.pool pf').poolBitmap.btmpBytesLen ∧
    ∀ j, ((ps.put pf { ps.pool pf with
      poolBitmap := (ps.pool pf).poolBitmap.set i v }).pool pf').poolBitmap.bit j =
        if pf' = pf ∧ j = i then v else (ps.pool pf').poolBitmap.bit j := by
  rw [Pools.pool_put]
  by_cases hpf : pf' = pf
  · rw [if_pos hpf, hpf]
    refine ⟨rfl, rfl, fun j => ?_⟩
    simp only [true_and]
    exact Bitmap.bit_set _ i j v
  · rw [if_neg hpf]
    refine ⟨rfl, rfl, fun j => ?_⟩
    rw [if_neg fun h => hpf h.1]

theorem Tracked.palloc (h : Tracked allMem σ) {pf : PoolFlags} {i : Nat}
    (hi : i < 8 * (σ.pools.pool pf).poolBitmap.btmpBytesLen)
    (hclear : (σ.pools.pool pf).poolBitmap.bit i = false) :
    Tracked allMem ⟨σ.pools.put pf { σ.pools.pool pf with
      poolBitmap := (σ.pools.pool pf).poolBitmap.set i true },
      (pf, frameAddr (σ.pools.pool pf) i) :: σ.out⟩ := by
  have hsame := setBit_pool σ.pools pf
  have hnew : (pf, frameAddr (σ.pools.pool pf) i) ∉ σ.out := by
    rw [← h.bits pf i hi, hclear]
    exact Bool.false_ne_true
  refine ⟨h.layout.setBit pf i true, ?_, fun pf' a ha => ?_, fun pf' j hj => ?_⟩
  · refine List.nodup_cons.mpr ⟨fun hmem => ?_, h.distinct⟩
    obtain ⟨⟨pf', a⟩, ha, heq⟩ := List.mem_map.mp hmem
    obtain ⟨j, hj, hja⟩ := h.framed pf' a ha
    have hpair := h.layout.frameAddr_inj hi hj (heq.symm.trans hja)
    refine hnew ?_
    rw [hpair.1, hpair.2, ← hja]
    exact ha
  · rw [(hsame pf' i true).1, (hsame pf' i true).2.1]
    rcases List.mem_cons.mp ha with heq | hold
    · cases heq
      exact ⟨i, hi, rfl⟩
    · exact h.framed pf' a hold
  · rw [(hsame pf' i true).2.1] at hj
    rw [(hsame pf' i true).2.2, (hsame pf' i true).1, List.mem_cons]
    by_cases hpair : pf' = pf ∧ j = i
    · rw [if_pos hpair, hpair.1, hpair.2]
      exact iff_of_true rfl (Or.inl rfl)
    · rw [if_neg hpair, h.bits pf' j hj]
      refine ⟨Or.inr, fun hmem => hmem.resolve_left fun heq => hpair ?_⟩
      exact h.layout.frameAddr_inj hj hi (congrArg Prod.snd heq)

theorem Tracked.pfree (h : Tracked allMem σ) {pf : PoolFlags} {i : Nat}
    (hi : i < 8 * (σ.pools.pool pf).poolBitmap.btmpBytesLen) :
    Tracked allMem ⟨σ.pools.put pf { σ.pools.pool pf with
      poolBitmap := (σ.pools.pool pf).poolBitmap.set i false },
      σ.out.filter fun f => f.2 ≠ frameAddr (σ.pools.pool pf) i⟩ := by
  have hsame := setBit_pool σ.pools pf
  refine ⟨h.layout.setBit pf i false, ?_, fun pf' a ha => ?_, fun pf' j hj => ?_⟩
  · exact h.distinct.sublist (List.filter_sublist.map Prod.snd)
  · rw [(hsame pf' i false).1, (hsame pf' i false).2.1]
    exact h.framed pf' a (List.mem_filter.mp ha).1
  · rw [(hsame pf' i false).2.1] at hj
    rw [(hsame pf' i false).2.2, (hsame pf' i false).1, List.mem_filter, decide_eq_true_iff]
    by_cases hpair : pf' = pf ∧ j = i
    · rw [if_pos hpair, hpair.1, hpair.2]
      exact iff_of_false Bool.false_ne_true fun hmem => hmem.2 rfl
    · rw [if_neg hpair, h.bits pf' j hj]
      refine ⟨fun hmem => ⟨hmem, fun heq => hpair ?_⟩, fun hmem => hmem.1⟩
      exact h.layout.frameAddr_inj hj hi heq

/-- Every call that is made returns. -/
theorem Tracked.step (h : Tracked allMem σ) {c : FrameCall} (hok : frameCall σ c) :
    ∃ τ, frameStep σ c = .ok τ ∧ Tracked allMem τ := by
  cases c with
  | palloc pf =>
      obtain ⟨i, hi, halloc⟩ := palloc_eq hok
      refine ⟨_, ?_, h.palloc hi.1 hi.2.1⟩
      simp only [frameStep, halloc, bind, Except.bind, pure, Except.pure]
  | pfree a =>
      obtain ⟨pf, ha⟩ := hok
      obtain ⟨i, hi, rfl⟩ := h.framed pf a ha
      refine ⟨_, ?_, h.pfree hi⟩
      simp only [frameStep, pfree_eq h.layout hi, bind, Except.bind, pure, Except.pure]

/-- Over every run the frames are where they belong, and no call fails. -/
theorem framesRight_of_run (allMem : UInt32) (h : 0x200000 ≤ allMem.toNat)
    (hrun : Reach frameStep frameCall ⟨memPoolInit allMem, []⟩ τ) :
    FramesRight allMem τ ∧ ∀ c, frameCall τ c → ∃ υ, frameStep τ c = .ok υ := by
  have htracked : Tracked allMem τ := by
    refine hrun.invariant (memPoolInit_tracked h) fun σ c τ hσ hok hstep => ?_
    obtain ⟨τ', hstep', hτ'⟩ := hσ.step hok
    rw [hstep, Except.ok.injEq] at hstep'
    rw [hstep']
    exact hτ'
  refine ⟨htracked.right, fun c hok => ?_⟩
  obtain ⟨υ, hstep, -⟩ := htracked.step hok
  exact ⟨υ, hstep⟩

instance (b : Bitmap) : Decidable b.Full :=
  inferInstanceAs (Decidable (∀ i, i < 8 * b.btmpBytesLen → b.bit i = true))

instance (σ : Frames) : ∀ c, Decidable (frameCall σ c)
  | .palloc pf => inferInstanceAs (Decidable ¬(σ.pools.pool pf).poolBitmap.Full)
  | .pfree a =>
      have hiff : (PoolFlags.pfKernel, a) ∈ σ.out ∨ (PoolFlags.pfUser, a) ∈ σ.out ↔
          ∃ pf, (pf, a) ∈ σ.out :=
        ⟨fun h => h.elim (fun h => ⟨_, h⟩) fun h => ⟨_, h⟩, fun ⟨pf, h⟩ => by
          cases pf with
          | pfKernel => exact Or.inl h
          | pfUser => exact Or.inr h⟩
      decidable_of_iff _ hiff

/-- Three frames of a machine with 4 MiB are taken, and one is given back. -/
theorem framesRight_three :
    ∃ τ, Reach frameStep frameCall ⟨memPoolInit 0x400000, []⟩ τ ∧ FramesRight 0x400000 τ ∧
      τ.out.length = 2 := by
  obtain ⟨τ, hrun, hlen⟩ := exists_reach frameStep frameCall ⟨memPoolInit 0x400000, []⟩
    [.palloc .pfKernel, .palloc .pfKernel, .palloc .pfUser, .pfree 0x200000]
    (fun τ => τ.out.length = 2) (by decide +kernel) (by decide +kernel)
  exact ⟨τ, hrun, (framesRight_of_run 0x400000 (by decide) hrun).1, hlen⟩

end

end OsTruth
