/-
`malloc_page` in `kernel/memory.c`.

It takes a run of pages from a virtual pool, then a frame for each of them, and maps one
after the other.  The bits of the virtual pools are values here, with the number of bytes that
can be read from the first of them on, since `bitmap_scan` does not stop at the last.
-/
import OsTruth.Kernel.Heap
import OsTruth.Kernel.PageTables
import OsTruth.Lib.BitmapScan

namespace OsTruth

open ByteString Fallible Paging

def userVaddrStart : Nat := 0x8048000

/-- `struct virtual_addr` of a process.  Its pages lie below the kernel. -/
structure UserVaddr where
  vaddrBitmap : Bitmap
  vaddrStart : Nat
  aligned : vaddrStart % pgSize = 0
  below : vaddrStart + 8 * vaddrBitmap.btmpBytesLen * pgSize ≤ 0xc0000000

/-- The bitmap that `create_user_vaddr_bitmap` makes, with its bits. -/
def UserVaddr.ofBits (bits : Bytes) : UserVaddr where
  vaddrBitmap := ⟨(0xc0000000 - userVaddrStart) / pgSize / 8, bits⟩
  vaddrStart := userVaddrStart
  aligned := by decide
  below := (by decide : userVaddrStart +
    8 * ((0xc0000000 - userVaddrStart) / pgSize / 8) * pgSize ≤ 0xc0000000)

/-- `kernel_vaddr`.  Its pages lie inside the address space. -/
structure KernelVaddr where
  vaddrBitmap : Bitmap
  vaddrStart : Nat
  positive : 0 < vaddrStart
  inside : vaddrStart + 8 * vaddrBitmap.btmpBytesLen * pgSize ≤ 2 ^ 32

def kHeapStart : Nat := 0xc0100000

/-- What `malloc_page` works on, for the running process.  From the bits of a virtual pool on,
`reach` bytes can be read. -/
structure Pages where
  space : Space
  kernelVaddr : KernelVaddr
  userprogVaddr : UserVaddr
  reach : PoolFlags → Nat
  positive : 0 < userprogVaddr.vaddrStart

namespace Pages

def vaddrBitmap (σ : Pages) : PoolFlags → Bitmap
  | .pfKernel => σ.kernelVaddr.vaddrBitmap
  | .pfUser => σ.userprogVaddr.vaddrBitmap

def vaddrStart (σ : Pages) : PoolFlags → Nat
  | .pfKernel => σ.kernelVaddr.vaddrStart
  | .pfUser => σ.userprogVaddr.vaddrStart

/-- The bytes of a virtual pool are replaced. -/
def setBits (σ : Pages) (pf : PoolFlags) (bits : Bytes) : Pages :=
  match pf with
  | .pfKernel => { σ with kernelVaddr := { σ.kernelVaddr with
      vaddrBitmap := { σ.kernelVaddr.vaddrBitmap with bits := bits } } }
  | .pfUser => { σ with userprogVaddr := { σ.userprogVaddr with
      vaddrBitmap := { σ.userprogVaddr.vaddrBitmap with bits := bits } } }

@[simp] theorem setBits_space (σ : Pages) (pf : PoolFlags) (bits : Bytes) :
    (σ.setBits pf bits).space = σ.space := by
  cases pf <;> rfl

/-- The address of a page of a virtual pool is no `NULL` and does not wrap. -/
theorem vaddr_bounds (σ : Pages) (pf : PoolFlags) {k : Nat}
    (hk : k < 8 * (σ.vaddrBitmap pf).btmpBytesLen) :
    0 < σ.vaddrStart pf + k * pgSize ∧ σ.vaddrStart pf + k * pgSize < 2 ^ 32 := by
  cases pf with
  | pfKernel =>
      have hpos := σ.kernelVaddr.positive
      have hinside := σ.kernelVaddr.inside
      have hle : (k + 1) * pgSize ≤ 8 * σ.kernelVaddr.vaddrBitmap.btmpBytesLen * pgSize :=
        Nat.mul_le_mul_right _ hk
      have hpage : 0 < pgSize := by decide
      rw [Nat.succ_mul] at hle
      simp only [vaddrStart]
      omega
  | pfUser =>
      have hpos := σ.positive
      have hbelow := σ.userprogVaddr.below
      have hle : (k + 1) * pgSize ≤ 8 * σ.userprogVaddr.vaddrBitmap.btmpBytesLen * pgSize :=
        Nat.mul_le_mul_right _ hk
      have hpage : 0 < pgSize := by decide
      rw [Nat.succ_mul] at hle
      simp only [vaddrStart]
      omega

end Pages

abbrev PageM := StateT Pages (Except Fault)

def onSpace {α : Type} (x : Mmu α) : PageM α :=
  onPart Pages.space (fun σ s => { σ with space := s }) x

def passert (c : Prop) [Decidable c] : PageM Unit := StateT.lift (assert c)

/-! ## Functions -/

/-- `vaddr_get`.  The address is an unsigned word, and 0 is `NULL`. -/
def vaddrGet (pf : PoolFlags) (pgCnt : Nat) : PageM (Option Nat) := do
  let σ ← get
  let bitIdxStart ← StateT.lift (bitmapScanTo (σ.reach pf) (σ.vaddrBitmap pf) pgCnt)
  if bitIdxStart = -1 then pure none
  else do
    let b ← StateT.lift (vaddrSet true pgCnt bitIdxStart.toNat (σ.vaddrBitmap pf))
    set (σ.setBits pf b.bits)
    let vaddrStart := (σ.vaddrStart pf + bitIdxStart.toNat * pgSize) % 2 ^ 32
    passert (pf = .pfKernel ∨ vaddrStart < 0xc0000000 - pgSize)
    pure (if vaddrStart = 0 then none else some vaddrStart)

/-- The loop of `malloc_page`, `false` when a frame is `NULL`. -/
def mapPages (pf : PoolFlags) : Nat → Nat → Mmu Bool
  | 0, _ => pure true
  | cnt + 1, vaddr => do
      match ← pallocOf pf with
      | none => pure false
      | some pagePhyaddr => do
          pageTableAdd vaddr pagePhyaddr
          mapPages pf cnt ((vaddr + pgSize) % 2 ^ 32)

/-- `malloc_page`.  What was taken stays taken when a frame is `NULL`. -/
def mallocPage (pf : PoolFlags) (pgCnt : Nat) : PageM (Option Nat) := do
  match ← vaddrGet pf pgCnt with
  | none => pure none
  | some vaddrStart => do
      let mapped ← onSpace (mapPages pf pgCnt vaddrStart)
      pure (if mapped then some vaddrStart else none)

/-- `get_kernel_pages`.  The lock is left out. -/
def getKernelPages (pgCnt : Nat) : PageM (Option Nat) := do
  match ← mallocPage .pfKernel pgCnt with
  | none => pure none
  | some vaddr => do
      onSpace (writeMem fun d m => clearBytes d (pgCnt * pgSize) vaddr m)
      pure (some vaddr)

def pageTablePteRemove (vaddr : Nat) : Mmu Unit := do
  let pte ← readWord (ptePtr vaddr)
  writeWord (ptePtr vaddr) (pte &&& ~~~1)

def vaddrRemove (pf : PoolFlags) (vaddr pgCnt : Nat) : PageM Unit := do
  let σ ← get
  let bitIdxStart := (vaddr + 2 ^ 32 - σ.vaddrStart pf) % 2 ^ 32 / pgSize
  let b ← StateT.lift (vaddrSet false pgCnt bitIdxStart (σ.vaddrBitmap pf))
  set (σ.setBits pf b.bits)

/-- The loops of `mfree_page`, one for each pool. -/
def freePages (pool : PoolFlags) : Nat → Nat → Mmu Unit
  | 0, _ => pure ()
  | cnt + 1, vaddr => do
      let pgPhyAddr ← addrV2p vaddr
      let s ← get
      massert (pgPhyAddr % pgSize = 0 ∧ (s.pools.pool pool).phyAddrStart.toNat ≤ pgPhyAddr ∧
        (pool = .pfKernel → pgPhyAddr < s.pools.userPool.phyAddrStart.toNat))
      let ps ← StateT.lift (pfree s.pools (UInt32.ofNat pgPhyAddr))
      set { s with pools := ps }
      pageTablePteRemove vaddr
      freePages pool cnt ((vaddr + pgSize) % 2 ^ 32)

def mfreePage (pf : PoolFlags) (vaddr pgCnt : Nat) : PageM Unit := do
  passert (1 ≤ pgCnt ∧ vaddr % pgSize = 0)
  let pgPhyAddr ← onSpace (addrV2p vaddr)
  passert (pgPhyAddr % pgSize = 0 ∧ 0x102000 ≤ pgPhyAddr)
  let σ ← get
  let pool := if σ.space.pools.userPool.phyAddrStart.toNat ≤ pgPhyAddr then .pfUser else .pfKernel
  onSpace (freePages pool pgCnt vaddr)
  vaddrRemove pf vaddr pgCnt

/-! ## The property -/

namespace Pages

/-- The page directory entries without a table that `cnt` pages from bit `s` on need. -/
def missingTables (σ : Pages) (pf : PoolFlags) (cnt s : Nat) : Finset Nat :=
  ((Finset.range cnt).image fun k => (σ.vaddrStart pf + (s + k) * pgSize) / pgSize / 1024).filter
    fun j => target (entry σ.space.phys σ.space.cr3 j) = none

/-- The pages from bit `s` on can be had: they are free, and so are frames for the pages and
for their tables. -/
structure CanMeet (σ : Pages) (pf : PoolFlags) (cnt s : Nat) : Prop where
  inside : s + cnt ≤ 8 * (σ.vaddrBitmap pf).btmpBytesLen
  run : ∀ k, s ≤ k → k < s + cnt → (σ.vaddrBitmap pf).Free k
  frames : ∀ pf', (if pf' = pf then cnt else 0) +
    (if pf' = .pfKernel then (σ.missingTables pf cnt s).card else 0) ≤ freeCount σ.space.pools pf'

/-- No run of virtual pages can be had. -/
def CannotMeet (σ : Pages) (pf : PoolFlags) (cnt : Nat) : Prop := ∀ s, ¬σ.CanMeet pf cnt s

structure Unchanged (σ τ : Pages) : Prop where
  vaddr : ∀ pf, τ.vaddrBitmap pf = σ.vaddrBitmap pf
  pools : ∀ pf, (τ.space.pools.pool pf).poolBitmap = (σ.space.pools.pool pf).poolBitmap
  mappings : ∀ p, walk τ.space.phys τ.space.cr3 p = walk σ.space.phys σ.space.cr3 p

/-- The call returns `NULL` and has changed nothing. -/
structure FailsClean (σ : Pages) (pf : PoolFlags) (cnt : Nat) : Prop where
  returns : Returns (mallocPage pf cnt) σ fun r τ => r = none ∧ σ.Unchanged τ

end Pages

/-! ## The functions -/

section

variable {σ τ : Pages} {s : Space} {pf : PoolFlags} {cnt : Nat} {F : Fault → Prop}

theorem wp_onSpace {α : Type} {x : Mmu α} {Q : α → Pages → Prop} :
    Wp (onSpace x) σ F Q ↔ Wp x σ.space F fun a s => Q a { σ with space := s } :=
  Wp.onPart

/-- A bit that is set lies in the bytes. -/
theorem vaddrSet_ok {v : Bool} {i : Nat} {b c : Bitmap} (hcnt : 1 ≤ cnt)
    (h : vaddrSet v cnt i b = .ok c) : i < 8 * b.btmpBytesLen := by
  cases cnt with
  | zero => omega
  | succ cnt =>
      unfold vaddrSet at h
      cases hset : bitmapSet b i v with
      | ok b' => exact (bitmapSet_eq_ok.mp hset).1
      | error e =>
          rw [hset] at h
          cases h

/-- The loop sets its bits and no others. -/
theorem vaddrSet_bit {v : Bool} {c : Bitmap} (cnt : Nat) : ∀ (i : Nat) (b : Bitmap),
    vaddrSet v cnt i b = .ok c → c.btmpBytesLen = b.btmpBytesLen ∧
      ∀ k, c.bit k = if i ≤ k ∧ k < i + cnt then v else b.bit k := by
  induction cnt with
  | zero =>
      intro i b h
      have hbc : b = c := Except.ok.inj h
      rw [hbc]
      exact ⟨rfl, fun k => (if_neg (by omega)).symm⟩
  | succ cnt ih =>
      intro i b h
      unfold vaddrSet at h
      cases hset : bitmapSet b i v with
      | error e =>
          rw [hset] at h
          cases h
      | ok b' =>
          rw [hset] at h
          obtain ⟨-, rfl⟩ := bitmapSet_eq_ok.mp hset
          obtain ⟨hlen, hbit⟩ := ih (i + 1) (b.set i v) h
          refine ⟨hlen, fun k => ?_⟩
          rw [hbit, Bitmap.bit_set]
          split_ifs <;> first | rfl | omega

/-- A pool without a free frame fails the assertion of the scan, so `palloc` never returns
`NULL`. -/
theorem pallocOf_some : Ensures (pallocOf pf) s fun a _ => a ≠ none := by
  unfold pallocOf
  rw [Ensures, Wp.bind, Wp.get, Wp.bind, Wp.lift]
  refine ⟨fun r hr => ?_, fun _ _ => True.intro⟩
  rw [Wp.bind, Wp.set, Wp.pure]
  by_cases hfull : (s.pools.pool pf).poolBitmap.Full
  · rcases bitmapScan_one (s.pools.pool pf).poolBitmap with ⟨i, -, hi⟩ | ⟨hscan, -⟩
    · exact absurd hfull hi.not_full
    · unfold palloc at hr
      rw [hscan] at hr
      cases hr
  · obtain ⟨i, -, heq⟩ := palloc_eq hfull
    rw [heq] at hr
    cases hr
    exact Option.some_ne_none _

/-- Every page gets a frame. -/
theorem mapPages_true (cnt : Nat) : ∀ (vaddr : Nat) (s : Space),
    Ensures (mapPages pf cnt vaddr) s fun mapped _ => mapped = true := by
  induction cnt with
  | zero => exact fun _ _ => rfl
  | succ cnt ih =>
      intro vaddr s
      unfold mapPages
      rw [Ensures, Wp.bind]
      refine pallocOf_some.call fun a t ha => ?_
      cases a with
      | none => exact absurd rfl ha
      | some a =>
          show Ensures (pageTableAdd vaddr a >>= fun _ => mapPages pf cnt ((vaddr + pgSize) % 2 ^ 32)) t _
          rw [Ensures, Wp.bind]
          exact Wp.trivial.call fun _ u _ => ih _ u

/-- The only way to `NULL` is a scan that returns `-1`. -/
theorem vaddrGet_none (hcnt : 1 ≤ cnt) :
    Ensures (vaddrGet pf cnt) σ fun r _ =>
      r = none → (σ.vaddrBitmap pf).NoRun (σ.reach pf) cnt := by
  unfold vaddrGet
  rw [Ensures, Wp.bind, Wp.get, Wp.bind, Wp.lift]
  refine ⟨fun bitIdxStart hscan => ?_, fun _ _ => True.intro⟩
  rw [Wp.ite]
  constructor
  · intro hneg
    rw [hneg] at hscan
    exact fun _ => (bitmapScanTo_fails_iff hcnt).mp hscan
  · intro hneg
    rw [Wp.bind, Wp.lift]
    refine ⟨fun b hb => ?_, fun _ _ => True.intro⟩
    obtain ⟨hpos, hlt⟩ := σ.vaddr_bounds pf (vaddrSet_ok hcnt hb)
    rw [Wp.bind, Wp.set, Wp.bind]
    refine Wp.trivial.call fun _ t _ => ?_
    rw [Wp.pure, Nat.mod_eq_of_lt hlt, if_neg (by omega)]
    intro h
    cases h

theorem vaddrGet_noRun (hcnt : 1 ≤ cnt) (h : (σ.vaddrBitmap pf).NoRun (σ.reach pf) cnt) :
    Returns (vaddrGet pf cnt) σ fun r τ => r = none ∧ τ = σ := by
  unfold vaddrGet
  rw [Returns, Wp.bind, Wp.get, Wp.bind]
  refine Wp.lift_ok ((bitmapScanTo_fails_iff hcnt).mpr h) ?_
  rw [if_pos rfl]
  exact ⟨rfl, rfl⟩

theorem mallocPage_none (hcnt : 1 ≤ cnt) :
    Ensures (mallocPage pf cnt) σ fun r _ =>
      r = none → (σ.vaddrBitmap pf).NoRun (σ.reach pf) cnt := by
  unfold mallocPage
  rw [Ensures, Wp.bind]
  refine (vaddrGet_none hcnt).call fun r τ hr => ?_
  cases r with
  | none => exact hr
  | some vaddrStart =>
      show Wp (onSpace (mapPages pf cnt vaddrStart) >>= _) τ _ _
      rw [Wp.bind, wp_onSpace]
      refine (mapPages_true cnt vaddrStart τ.space).call fun mapped s hmapped => ?_
      rw [hmapped]
      intro h
      cases h

theorem mallocPage_noRun (hcnt : 1 ≤ cnt) (h : (σ.vaddrBitmap pf).NoRun (σ.reach pf) cnt) :
    Returns (mallocPage pf cnt) σ fun r τ => r = none ∧ τ = σ := by
  unfold mallocPage
  rw [Returns, Wp.bind]
  refine (vaddrGet_noRun hcnt h).call fun r τ hr => ?_
  obtain ⟨rfl, rfl⟩ := hr
  exact ⟨rfl, rfl⟩

theorem Pages.Unchanged.refl (σ : Pages) : σ.Unchanged σ := ⟨fun _ => rfl, fun _ => rfl, fun _ => rfl⟩

theorem failsClean_iff (hcnt : 1 ≤ cnt) :
    σ.FailsClean pf cnt ↔ (σ.vaddrBitmap pf).NoRun (σ.reach pf) cnt := by
  constructor
  · intro h
    obtain ⟨r, τ, hrun, hnone, -⟩ := returns_iff.mp h.returns
    exact ensures_iff.mp (mallocPage_none hcnt) r τ hrun hnone
  · intro h
    refine ⟨(mallocPage_noRun hcnt h).call fun r τ hr => ?_⟩
    obtain ⟨hnone, rfl⟩ := hr
    exact ⟨hnone, .refl τ⟩

/-- A request that cannot be met fails as it should exactly when the scan of the virtual pool
counts to its end without a run. -/
theorem mallocPage_undone_iff (σ : Pages) (pf : PoolFlags) (cnt : Nat) (hcnt : 1 ≤ cnt) :
    (σ.CannotMeet pf cnt → σ.FailsClean pf cnt) ↔
      ¬σ.CannotMeet pf cnt ∨ (σ.vaddrBitmap pf).NoRun (σ.reach pf) cnt := by
  rw [failsClean_iff hcnt, imp_iff_not_or]

/-! ## One page -/

/-- The first page `p` of the kernel's virtual pool, of bit `i`, is mapped to the frame `f` of
bit `j` by the table in frame `t`, and cleared. -/
def Pages.withPage (σ : Pages) (i j t p f : Nat) : Pages :=
  let pool := σ.space.pools.kernelPool
  let phys := setEntry σ.space.phys t (p % 1024) (link (frameAddr pool j))
  { σ.setBits .pfKernel (σ.kernelVaddr.vaddrBitmap.set i true).bits with
    space :=
      { σ.space with
        phys := Function.update phys f (splice (phys f) 0 pgSize fun _ => 0)
        pools := σ.space.pools.put .pfKernel
          { pool with poolBitmap := pool.poolBitmap.set j true } } }

/-- What `get_kernel_pages` needs for one page: a free page, a free frame and a table. -/
structure Pages.HasPage (σ : Pages) (i j t p f : Nat) : Prop where
  free : σ.kernelVaddr.vaddrBitmap.FirstClear i
  frame : σ.space.pools.kernelPool.poolBitmap.FirstClear j
  page : σ.kernelVaddr.vaddrStart + i * pgSize = pgSize * p
  target : target (link (frameAddr σ.space.pools.kernelPool j)) = some f
  self : Recursive σ.space.phys σ.space.cr3
  table : table σ.space.phys σ.space.cr3 p = some t
  unmapped : Paging.target (entry σ.space.phys t (p % 1024)) = none
  dir : σ.space.cr3 ≠ t ∧ σ.space.cr3 ≠ f
  apart : t ≠ f

theorem Pages.HasPage.walk {i j t p f : Nat} (h : σ.HasPage i j t p f) :
    walk (setEntry σ.space.phys t (p % 1024) (link (frameAddr σ.space.pools.kernelPool j)))
      σ.space.cr3 p = some f ∧
    Spared (setEntry σ.space.phys t (p % 1024) (link (frameAddr σ.space.pools.kernelPool j)))
      σ.space.cr3 p f := by
  have htable : Paging.table (setEntry σ.space.phys t (p % 1024)
      (link (frameAddr σ.space.pools.kernelPool j))) σ.space.cr3 p = some t := by
    rw [Paging.table, entry_setEntry, if_neg fun heq => h.dir.1 heq.1]
    exact h.table
  refine ⟨?_, h.dir.2, ?_⟩
  · rw [Paging.walk, htable]
    show Paging.target (entry _ t _) = _
    rw [entry_setEntry, if_pos ⟨rfl, rfl⟩]
    exact h.target
  · rw [htable]
    exact fun heq => h.apart (Option.some.inj heq)

theorem wp_vaddrGet_one {i : Nat} {Q : Option Nat → Pages → Prop}
    (hi : σ.kernelVaddr.vaddrBitmap.FirstClear i)
    (hQ : Q (some (σ.kernelVaddr.vaddrStart + i * pgSize))
      (σ.setBits .pfKernel (σ.kernelVaddr.vaddrBitmap.set i true).bits)) :
    Wp (vaddrGet .pfKernel 1) σ F Q := by
  have hset : vaddrSet true 1 (i : Int).toNat σ.kernelVaddr.vaddrBitmap =
      .ok (σ.kernelVaddr.vaddrBitmap.set i true) := by
    rw [Int.toNat_natCast, vaddrSet, bitmapSet_of_lt hi.1]
    rfl
  obtain ⟨hpos, hlt⟩ := σ.vaddr_bounds .pfKernel hi.1
  unfold vaddrGet
  rw [Wp.bind, Wp.get, Wp.bind]
  refine Wp.lift_ok (bitmapScanTo_one hi) ?_
  rw [if_neg (by omega), Wp.bind]
  refine Wp.lift_ok hset ?_
  rw [Wp.bind, Wp.set, Wp.bind]
  refine Wp.lift_ok (if_pos (Or.inl rfl)) ?_
  rw [Wp.pure, Int.toNat_natCast, Nat.mod_eq_of_lt hlt, if_neg (by omega)]
  exact hQ

theorem wp_pallocOf_first {j : Nat} {Q : Option UInt32 → Space → Prop}
    (hj : (s.pools.pool pf).poolBitmap.FirstClear j)
    (hQ : Q (some (frameAddr (s.pools.pool pf) j)) { s with
      pools := s.pools.put pf { s.pools.pool pf with
        poolBitmap := (s.pools.pool pf).poolBitmap.set j true } }) :
    Wp (pallocOf pf) s F Q := by
  obtain ⟨k, hk, heq⟩ := palloc_eq hj.not_full
  rw [hk.unique hj] at heq
  unfold pallocOf
  rw [Wp.bind, Wp.get, Wp.bind]
  refine Wp.lift_ok heq ?_
  rw [Wp.bind, Wp.set, Wp.pure]
  exact hQ

/-- One page is returned, mapped and cleared. -/
theorem wp_getKernelPages_one {i j t p f : Nat} {Q : Option Nat → Pages → Prop}
    (h : σ.HasPage i j t p f) (hp : p < 2 ^ 20)
    (hQ : Q (some (pgSize * p)) (σ.withPage i j t p f)) :
    Wp (getKernelPages 1) σ F Q := by
  obtain ⟨hwalk, hspared⟩ := h.walk
  unfold getKernelPages mallocPage
  rw [Wp.bind, Wp.bind]
  refine wp_vaddrGet_one h.free ?_
  rw [h.page]
  show Wp (onSpace (mapPages .pfKernel 1 (pgSize * p)) >>= _) _ _ _
  rw [Wp.bind, wp_onSpace]
  unfold mapPages
  rw [Wp.bind]
  refine wp_pallocOf_first h.frame ?_
  show Wp (pageTableAdd (pgSize * p) _ >>= _) _ _ _
  rw [Wp.bind]
  refine wp_pageTableAdd_some h.self hp h.table h.unmapped ?_
  show Wp (onSpace (writeMem fun d m => clearBytes d (1 * pgSize) (pgSize * p) m) >>= _) _ _ _
  rw [Wp.bind, wp_onSpace]
  exact wp_writeMem (clearBytes_page hwalk hspared) hQ

end

/-! ## After booting -/

/-- The tables that the loader makes: the low memory, and tables for the kernel. -/
def bootSpace : Space where
  phys
    | 256 => ofWords fun i => if i = 0 then 0x101007 else if 768 ≤ i ∧ i < 1023 then
        0x101007 + (UInt32.ofNat i - 768) * 4096 else if i = 1023 then 0x100007 else 0
    | 257 => ofWords fun i => if i < 256 then UInt32.ofNat i * 4096 + 7 else 0
    | _ => fun _ => 0
  cr3 := 256
  pools := memPoolInit 0x400000

/-- A machine with 4 MiB, with the bits of the kernel's virtual pool. -/
def bootPages (bits : Bytes) : Pages where
  space := bootSpace
  kernelVaddr := ⟨⟨32, bits⟩, kHeapStart, by decide,
    (by decide : kHeapStart + 8 * 32 * pgSize ≤ 2 ^ 32)⟩
  userprogVaddr := .ofBits fun _ => 0
  reach
    | .pfKernel => 0x10000
    | .pfUser => 0x17000
  positive := by decide

def onePage : Bytes := fun k => if k = 0 then 0xfe else 0xff

theorem onePage_used {k : Nat} (hk : 1 ≤ k) : (onePage k).toNat.testBit (k % 8) = true ∧
    Bitmap.bit ⟨32, onePage⟩ k = true := by
  have hff : ∀ j, 1 ≤ j → onePage j = 0xff := fun j hj => if_neg (by omega)
  have hlt : k % 8 < 8 := Nat.mod_lt _ (by decide)
  refine ⟨by rw [hff k hk, testBit_ff hlt], ?_⟩
  show (onePage (k / 8)).toNat.testBit (k % 8) = true
  by_cases hbyte : k / 8 = 0
  · have hall : ∀ j, 1 ≤ j → j < 8 → (onePage 0).toNat.testBit j = true := by decide
    rw [hbyte]
    exact hall (k % 8) (by omega) hlt
  · rw [hff _ (by omega), testBit_ff hlt]

theorem onePage_noRun : Bitmap.NoRun ⟨32, onePage⟩ 0x10000 2 := by
  refine ⟨by decide, ?_, 0, ⟨by decide, rfl, fun j hj => by omega⟩, fun s _ => ?_⟩
  · show 8 * 32 < 0x10000
    omega
  · refine ⟨s + 1, by omega, by omega, ?_⟩
    rintro (hzero | ⟨-, hclear⟩)
    · omega
    · cases (onePage_used (by omega)).1.symm.trans hclear

/-- Two pages are refused, and nothing has changed. -/
theorem mallocPage_undone_two :
    (bootPages onePage).CannotMeet .pfKernel 2 ∧ (bootPages onePage).FailsClean .pfKernel 2 := by
  have hcannot : (bootPages onePage).CannotMeet .pfKernel 2 := by
    intro s h
    have hfree : Bitmap.bit ⟨32, onePage⟩ (s + 1) = false := h.run (s + 1) (by omega) (by omega)
    cases (onePage_used (by omega)).2.symm.trans hfree
  exact ⟨hcannot, (mallocPage_undone_iff (bootPages onePage) .pfKernel 2 (by decide)).mpr
    (Or.inr onePage_noRun) hcannot⟩

def noFrame : Pages :=
  { bootPages (fun _ => 0) with
    space := { bootSpace with
      pools := bootSpace.pools.put .pfKernel
        { bootSpace.pools.kernelPool with poolBitmap := ⟨32, fun _ => 0xff⟩ } } }

/-- One page is asked for, and the assertion fails. -/
theorem mallocPage_asserts : noFrame.CannotMeet .pfKernel 1 ∧
    Wp (mallocPage .pfKernel 1) noFrame (fun e => e = .assert) (fun _ _ => False) ∧
    ¬(noFrame.CannotMeet .pfKernel 1 → noFrame.FailsClean .pfKernel 1) := by
  have hcannot : noFrame.CannotMeet .pfKernel 1 := by
    intro s h
    have hframes := h.frames .pfKernel
    have hnone : freeCount noFrame.space.pools .pfKernel = 0 := by decide +kernel
    rw [hnone, if_pos rfl] at hframes
    omega
  refine ⟨hcannot, by decide +kernel, fun h => ?_⟩
  exact ((failsClean_iff (Nat.le_refl 1)).mp (h hcannot)).1 rfl

end OsTruth
