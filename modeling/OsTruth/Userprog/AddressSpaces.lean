/-
The address spaces of all processes, over runs of the functions that map and unmap pages.

Every page directory is made by `create_page_dir`, which copies the kernel's part of the
directory that is active.  The directory of the loader has a table for every page of that part
but its last 4 MiB, so `page_table_add` never makes one there.  A frame is owned by a page of
the kernel's heap, or by a table or a page of one process.
-/
import OsTruth.Boot.SetupPage
import OsTruth.Library.Owners
import OsTruth.Library.Runs
import OsTruth.Userprog.ForkUndo

namespace OsTruth

open ByteString Fallible Paging Runs Owners

/-- A page directory, in `frame`, that the kernel sees at page `page`. -/
structure MadeDir where
  page : Nat
  frame : Nat
  deriving DecidableEq

/-- The running task, and the page directories that were made. -/
structure AddrSpaces where
  pages : Pages
  dirs : List MadeDir

namespace AddrSpaces

def phys (σ : AddrSpaces) : Phys := σ.pages.space.phys

def cr3 (σ : AddrSpaces) : Nat := σ.pages.space.cr3

/-- A kernel thread runs, in the space of the loader. -/
def kernelThread (σ : AddrSpaces) : Prop := σ.cr3 = 256

instance (σ : AddrSpaces) : Decidable σ.kernelThread := inferInstanceAs (Decidable (_ = _))

end AddrSpaces

/-- A page of the kernel's heap: behind the low memory, and below the tables. -/
def HeapPage (p : Nat) : Prop := 768 * 1024 + 256 ≤ p ∧ p < 1023 * 1024

instance (p : Nat) : Decidable (HeapPage p) := inferInstanceAs (Decidable (_ ∧ _))

/-- A page of the low memory, as the kernel sees it. -/
def LowPage (p : Nat) : Prop := 768 * 1024 ≤ p ∧ p < 768 * 1024 + 256

/-- A page of the part that a virtual pool belongs to. -/
def PartPage : PoolFlags → Nat → Prop
  | .pfKernel, p => HeapPage p
  | .pfUser, p => p < userPages

instance : ∀ pf p, Decidable (PartPage pf p)
  | .pfKernel, p => inferInstanceAs (Decidable (HeapPage p))
  | .pfUser, p => inferInstanceAs (Decidable (p < userPages))

inductive SpaceCall
  | mallocPage (pf : PoolFlags) (pgCnt : Nat)
  | getKernelPages (pgCnt : Nat)
  | mfreePage (pf : PoolFlags) (vaddr pgCnt : Nat)
  | createPageDir
  /-- `page_dir_activate` for the next task, which has a virtual pool of its own. -/
  | activate (pgdir : Option Nat) (v : UserVaddr) (positive : 0 < v.vaddrStart)
  | getAPage (vaddr : Nat)
  /-- The running task writes a byte. -/
  | store (v : Nat) (b : UInt8)

def AddrSpaces.exec {α : Type} (σ : AddrSpaces) (x : PageM α) : Except Fault (α × AddrSpaces) := do
  let r ← x.run σ.pages
  pure (r.1, { σ with pages := r.2 })

/-- The directory that `create_page_dir` returned is one that was made. -/
def AddrSpaces.withDir (σ : AddrSpaces) : Option Nat → AddrSpaces
  | none => σ
  | some vaddr =>
      let frame := (walk σ.phys σ.cr3 (vaddr / pgSize)).getD 0
      { σ with dirs := ⟨vaddr / pgSize, frame⟩ :: σ.dirs }

/-- The next task runs, with its own virtual pool. -/
def AddrSpaces.withVaddr (σ : AddrSpaces) (v : UserVaddr) (positive : 0 < v.vaddrStart) :
    AddrSpaces :=
  { σ with pages := { σ.pages with userprogVaddr := v, positive := positive } }

def spaceStep (σ : AddrSpaces) : SpaceCall → Except Fault AddrSpaces
  | .mallocPage pf pgCnt => do
      let r ← σ.exec (mallocPage pf pgCnt)
      pure r.2
  | .getKernelPages pgCnt => do
      let r ← σ.exec (getKernelPages pgCnt)
      pure r.2
  | .mfreePage pf vaddr pgCnt => do
      let r ← σ.exec (mfreePage pf vaddr pgCnt)
      pure r.2
  | .createPageDir => do
      let r ← σ.exec Forking.createPageDir
      pure (r.2.withDir r.1)
  | .activate pgdir v positive => do
      let r ← σ.exec (onSpace (pageDirActivate pgdir))
      pure (r.2.withVaddr v positive)
  | .getAPage vaddr => do
      let r ← σ.exec (onSpace (getAPageWithoutOpvaddrbitmap .pfUser vaddr))
      pure r.2
  | .store v b => do
      let r ← σ.exec (onSpace (writeMem fun d m => Paging.store m d v b))
      pure r.2

/-- A page that is written to when directory `d` is active: a user page by a process, a page of
the low memory or of the heap by the kernel, which leaves the page directories alone. -/
def Writable (d : Nat) (dirs : List MadeDir) (p : Nat) : Prop :=
  p < userPages ∧ d ≠ 256 ∨ LowPage p ∨ HeapPage p ∧ ∀ e ∈ dirs, e.page ≠ p

/-- User pages are of a process.  What is freed was allocated and not freed since, a page
directory is not freed, and only directories that were made are activated. -/
def spaceCall (σ : AddrSpaces) : SpaceCall → Prop
  | .mallocPage pf _ => pf = .pfUser → ¬σ.kernelThread
  | .getKernelPages _ => True
  | .mfreePage pf vaddr pgCnt =>
      (pf = .pfUser → ¬σ.kernelThread) ∧ ∀ k < pgCnt, PartPage pf (vaddr / pgSize + k) ∧
        walk σ.phys σ.cr3 (vaddr / pgSize + k) ≠ none ∧
          ∀ e ∈ σ.dirs, e.page ≠ vaddr / pgSize + k
  | .createPageDir => True
  | .activate pgdir _ _ => pgdir = none ∨ ∃ e ∈ σ.dirs, pgdir = some (pgSize * e.page)
  | .getAPage vaddr => ¬σ.kernelThread ∧ vaddr % pgSize = 0 ∧ vaddr / pgSize < userPages
  | .store v _ => Writable σ.cr3 σ.dirs (v / pgSize)

/-! ## Owners of frames -/

/-- A page of the kernel's heap, or a table or page of the process with directory `d`. -/
inductive Owner
  | kernel (p : Nat)
  | user (d : Nat) (x : Slot)
  deriving DecidableEq

/-- The frame of an owner, for the processes with the directories in `ds`. -/
def frameOf (m : Phys) (ds : List Nat) : Owner → Option Nat
  | .kernel p => if HeapPage p then walk m 256 p else none
  | .user d x => if d ∈ ds then slots m d userTables x else none

section

variable {m : Phys} {ds : List Nat} {d e f g i p t : Nat} {w : UInt32} {b : Bytes}

theorem frameOf_kernel (hp : HeapPage p) : frameOf m ds (.kernel p) = walk m 256 p := if_pos hp

theorem frameOf_user (hd : d ∈ ds) (x : Slot) :
    frameOf m ds (.user d x) = slots m d userTables x := if_pos hd

/-- The kernel's part of the spaces, as the loader has made it. -/
structure KernelPart (m : Phys) (ds : List Nat) : Prop where
  loader : ∀ i, 768 ≤ i → i < 1023 → target (entry m 256 i) = some (i - 511)
  low : ∀ i, i < 256 → target (entry m 257 i) = some i
  self : Recursive m 256
  same : ∀ d ∈ ds, ∀ i, 768 ≤ i → i < 1023 → entry m d i = entry m 256 i
  selves : ∀ d ∈ ds, Recursive m d

/-- A page of the kernel's part, below the tables. -/
abbrev KernelRange (p : Nat) : Prop := 768 * 1024 ≤ p ∧ p < 1023 * 1024

theorem KernelPart.table (h : KernelPart m ds) (hd : d = 256 ∨ d ∈ ds) (hp : KernelRange p) :
    table m d p = some (p / 1024 - 511) := by
  have hlow : 768 ≤ p / 1024 := by omega
  have hhigh : p / 1024 < 1023 := by omega
  rcases hd with rfl | hd
  · exact h.loader _ hlow hhigh
  · unfold Paging.table
    rw [h.same d hd _ hlow hhigh]
    exact h.loader _ hlow hhigh

/-- Every space has the pages of the kernel. -/
theorem KernelPart.walk (h : KernelPart m ds) (hd : d = 256 ∨ d ∈ ds) (hp : KernelRange p) :
    walk m d p = Paging.walk m 256 p := by
  unfold Paging.walk
  rw [h.table hd hp, h.table (Or.inl rfl) hp]

theorem KernelPart.walk_low (h : KernelPart m ds) (hd : d = 256 ∨ d ∈ ds) (hp : LowPage p) :
    Paging.walk m d p = some (p - 768 * 1024) := by
  unfold LowPage at hp
  have hdiv : p / 1024 - 511 = 257 := by omega
  have hmod : p % 1024 = p - 768 * 1024 := by omega
  unfold Paging.walk
  rw [h.table hd (by omega), hdiv, hmod]
  exact h.low _ (by omega)

theorem HeapPage.kernel (hp : HeapPage p) : KernelRange p := by
  unfold HeapPage at hp
  omega

/-- A frame that holds no directory and no table. -/
structure Plain (m : Phys) (ds : List Nat) (g : Nat) : Prop where
  range : g < 256 ∨ 512 ≤ g
  dir : g ∉ ds
  table : ∀ d ∈ ds, ∀ i, slots m d userTables (.table i) ≠ some g

/-- A write behind the tables of the kernel, that spares the directories. -/
theorem KernelPart.write (h : KernelPart m ds) (hg : g < 256 ∨ 512 ≤ g) (hds : g ∉ ds) :
    KernelPart (Function.update m g b) ds := by
  have hentry : ∀ d, d ≠ g → ∀ i, entry (Function.update m g b) d i = entry m d i := by
    intro d hd i
    unfold entry
    rw [Function.update_of_ne hd]
  have hdir : ∀ d ∈ ds, d ≠ g := by
    rintro d hd rfl
    exact hds hd
  have h256 : 256 ≠ g := by omega
  have h257 : 257 ≠ g := by omega
  refine ⟨fun i hlow hhigh => ?_, fun i hi => ?_, ?_, fun d hd i hlow hhigh => ?_, fun d hd => ?_⟩
  · rw [hentry 256 h256]
    exact h.loader i hlow hhigh
  · rw [hentry 257 h257]
    exact h.low i hi
  · unfold Recursive
    rw [hentry 256 h256]
    exact h.self
  · rw [hentry d (hdir d hd), hentry 256 h256]
    exact h.same d hd i hlow hhigh
  · unfold Recursive
    rw [hentry d (hdir d hd)]
    exact h.selves d hd

theorem frameOf_plain (hk : KernelPart m ds) (hg : Plain m ds g) :
    frameOf (Function.update m g b) ds = frameOf m ds := by
  have hrange := hg.range
  funext x
  cases x with
  | kernel p =>
      by_cases hp : HeapPage p
      · rw [frameOf_kernel hp, frameOf_kernel hp]
        apply walk_update (by omega)
        rw [hk.table (Or.inl rfl) hp.kernel]
        have hkernel := hp.kernel
        intro heq
        have heq' := Option.some.inj heq
        omega
      · simp only [frameOf, if_neg hp]
  | user d x =>
      by_cases hd : d ∈ ds
      · rw [frameOf_user hd, frameOf_user hd, slots_update]
        · rintro rfl
          exact hg.dir hd
        · exact hg.table d hd
      · simp only [frameOf, if_neg hd]

/-- The entry of a page of the kernel's heap changes. -/
theorem frameOf_setKernel (hk : KernelPart m ds) (hp : HeapPage p) (hds : ∀ d ∈ ds, 512 ≤ d)
    (hts : ∀ d ∈ ds, ∀ i t, slots m d userTables (.table i) = some t → 512 ≤ t)
    (ht : Paging.table m 256 p = some t) :
    frameOf (setEntry m t (p % 1024) w) ds =
        Function.update (frameOf m ds) (.kernel p) (target w) ∧
      KernelPart (setEntry m t (p % 1024) w) ds := by
  have hkp := hp.kernel
  rw [hk.table (Or.inl rfl) hkp] at ht
  have ht' := Option.some.inj ht
  have hentry : ∀ d, d = 256 ∨ 512 ≤ d → ∀ i,
      entry (setEntry m t (p % 1024) w) d i = entry m d i := by
    intro d hd i
    rw [entry_setEntry, if_neg (by omega)]
  have hpart : KernelPart (setEntry m t (p % 1024) w) ds := by
    refine ⟨fun i hlow hhigh => ?_, fun i hi => ?_, ?_, fun d hd i hlow hhigh => ?_,
      fun d hd => ?_⟩
    · rw [hentry 256 (Or.inl rfl)]
      exact hk.loader i hlow hhigh
    · rw [entry_setEntry, if_neg]
      · exact hk.low i hi
      · unfold HeapPage at hp
        omega
    · unfold Recursive
      rw [hentry 256 (Or.inl rfl)]
      exact hk.self
    · rw [hentry d (Or.inr (hds d hd)), hentry 256 (Or.inl rfl)]
      exact hk.same d hd i hlow hhigh
    · unfold Recursive
      rw [hentry d (Or.inr (hds d hd))]
      exact hk.selves d hd
  refine ⟨?_, hpart⟩
  funext x
  cases x with
  | kernel q =>
      by_cases hq : HeapPage q
      · rw [frameOf_kernel hq]
        unfold Paging.walk
        rw [hpart.table (Or.inl rfl) hq.kernel, Option.bind_some, entry_setEntry]
        by_cases hqp : q = p
        · rw [hqp, Function.update_self, if_pos ⟨ht', rfl⟩]
        · rw [Function.update_of_ne (by simpa using hqp), frameOf_kernel hq, if_neg]
          · unfold Paging.walk
            rw [hk.table (Or.inl rfl) hq.kernel, Option.bind_some]
          · -- two pages of one table have two entries
            have hkq := hq.kernel
            omega
      · have hqp : q ≠ p := by
          rintro rfl
          exact hq hp
        rw [Function.update_of_ne (by simpa using hqp)]
        simp only [frameOf, if_neg hq]
  | user d x =>
      rw [Function.update_of_ne (by simp)]
      by_cases hd : d ∈ ds
      · unfold setEntry
        rw [frameOf_user hd, frameOf_user hd, slots_update]
        · have hge := hds d hd
          omega
        · intro i hi
          have hge := hts d hd i _ hi
          omega
      · simp only [frameOf, if_neg hd]

/-- The entry of a page of a process changes. -/
theorem frameOf_setUser (hk : KernelPart m ds) (hd : d ∈ ds) (hp : p < userPages)
    (ht : slots m d userTables (.table (p / 1024)) = some t) (hrange : 512 ≤ t) (hdir : t ∉ ds)
    (hinj : ∀ d' ∈ ds, ∀ i, slots m d' userTables (.table i) = some t → d' = d ∧ i = p / 1024) :
    frameOf (setEntry m t (p % 1024) w) ds =
        Function.update (frameOf m ds) (.user d (.page p)) (target w) ∧
      KernelPart (setEntry m t (p % 1024) w) ds := by
  have hdiv : p / 1024 < userTables := by
    simp only [userPages, pgSize] at hp
    simp only [userTables]
    omega
  refine ⟨?_, hk.write (Or.inr hrange) hdir⟩
  funext x
  cases x with
  | kernel q =>
      rw [Function.update_of_ne (by simp)]
      by_cases hq : HeapPage q
      · have hkq := hq.kernel
        unfold setEntry
        rw [frameOf_kernel hq, frameOf_kernel hq]
        apply walk_update (by omega)
        rw [hk.table (Or.inl rfl) hkq]
        intro heq
        have heq' := Option.some.inj heq
        omega
      · simp only [frameOf, if_neg hq]
  | user d' x =>
      by_cases hd' : d' ∈ ds
      · by_cases hdd : d' = d
        · rw [hdd, frameOf_user hd, slots_setEntry hdiv _ ht _ rfl]
          · by_cases hx : x = .page p
            · rw [hx, Function.update_self, Function.update_self]
            · rw [Function.update_of_ne hx, Function.update_of_ne (by simpa using hx),
                frameOf_user hd]
          · rintro rfl
            exact hdir hd
          · exact fun i hi => (hinj d hd i hi).2
        · unfold setEntry
          rw [Function.update_of_ne (by simp [hdd]), frameOf_user hd', frameOf_user hd',
            slots_update]
          · rintro rfl
            exact hdir hd'
          · exact fun i hi => hdd (hinj d' hd' i hi).1
      · have hdd : d' ≠ d := by
          rintro rfl
          exact hd' hd
        rw [Function.update_of_ne (by simp [hdd])]
        simp only [frameOf, if_neg hd']

/-- A table is added to the space of a process. -/
theorem frameOf_addTable (hk : KernelPart m ds) (hd : d ∈ ds) (hi : i < userTables)
    (hf : Plain m ds f) (he : target w = some f) (hhigh : 512 ≤ d)
    (hnone : slots m d userTables (.table i) = none)
    (hdir : ∀ d' ∈ ds, ∀ j, slots m d' userTables (.table j) ≠ some d) :
    frameOf (addTable m d i w f) ds =
        Function.update (frameOf m ds) (.user d (.table i)) (some f) ∧
      KernelPart (addTable m d i w f) ds := by
  have hrange := hf.range
  have hdf : d ≠ f := by
    rintro rfl
    exact hf.dir hd
  have hentry : ∀ d', d' ≠ f → ∀ j, entry (addTable m d i w f) d' j =
      if d' = d ∧ j = i then w else entry m d' j := by
    intro d' hd' j
    by_cases hdd : d' = d
    · rw [hdd, entry_addTable_dir hdf]
      simp
    · rw [if_neg fun h => hdd h.1]
      unfold entry
      rw [addTable_other hdd hd']
  have hne : ∀ d' ∈ ds, d' ≠ f := by
    rintro d' hd' rfl
    exact hf.dir hd'
  refine ⟨?_, fun j hlow hj => ?_, fun j hj => ?_, ?_, fun d' hd' j hlow hj => ?_,
    fun d' hd' => ?_⟩
  · funext x
    cases x with
    | kernel q =>
        rw [Function.update_of_ne (by simp)]
        by_cases hq : HeapPage q
        · have hkq := hq.kernel
          rw [frameOf_kernel hq, frameOf_kernel hq]
          apply walk_congr
          · rw [hentry 256 (by omega), if_neg (by omega)]
          · intro t ht
            rw [hk.table (Or.inl rfl) hkq] at ht
            have ht' := Option.some.inj ht
            exact addTable_other (by omega) (by omega)
        · simp only [frameOf, if_neg hq]
    | user d' x =>
        by_cases hd' : d' ∈ ds
        · by_cases hdd : d' = d
          · rw [hdd, frameOf_user hd,
              slots_addTable hi hdf he hnone (hdir d hd) (hf.table d hd)]
            by_cases hx : x = .table i
            · rw [hx, Function.update_self, Function.update_self]
            · rw [Function.update_of_ne hx, Function.update_of_ne (by simpa using hx),
                frameOf_user hd]
          · -- the two writes spare the space of another process
            have hfirst : slots (setEntry m d i w) d' userTables = slots m d' userTables := by
              unfold setEntry
              rw [slots_update hdd (hdir d' hd')]
            rw [Function.update_of_ne (by simp [hdd]), frameOf_user hd', frameOf_user hd', ← hfirst]
            unfold addTable
            rw [slots_update (hne d' hd')]
            intro j
            rw [hfirst]
            exact hf.table d' hd' j
        · have hdd : d' ≠ d := by
            rintro rfl
            exact hd' hd
          rw [Function.update_of_ne (by simp [hdd])]
          simp only [frameOf, if_neg hd']
  · rw [hentry 256 (by omega), if_neg (by omega)]
    exact hk.loader j hlow hj
  · rw [hentry 257 (by omega), if_neg (by omega)]
    exact hk.low j hj
  · unfold Recursive
    rw [hentry 256 (by omega), if_neg (by omega)]
    exact hk.self
  · have hlt : i < 768 := hi
    rw [hentry d' (hne d' hd'), hentry 256 (by omega), if_neg (by omega), if_neg (by omega)]
    exact hk.same d' hd' j hlow hj
  · have hlt : i < 768 := hi
    unfold Recursive
    rw [hentry d' (hne d' hd'), if_neg (by omega)]
    exact hk.selves d' hd'

end

/-! ## The invariant -/

abbrev dirFrames (dirs : List MadeDir) : List Nat := dirs.map MadeDir.frame

structure Spaces (allMem : UInt32) (s : Space) (dirs : List MadeDir) : Prop where
  layout : PoolsLayout allMem s.pools
  part : KernelPart s.phys (dirFrames dirs)
  owners : Owned (frameOf s.phys (dirFrames dirs)) (InUse s.pools)
  made : ∀ e ∈ dirs, frameOf s.phys (dirFrames dirs) (.kernel e.page) = some e.frame
  active : s.cr3 = 256 ∨ s.cr3 ∈ dirFrames dirs

/-- The owner of page `p` of a virtual pool, when directory `d` is active. -/
def pageOwner (d p : Nat) : PoolFlags → Owner
  | .pfKernel => .kernel p
  | .pfUser => .user d (.page p)

/-- The frames of the pools lie behind the tables of the kernel. -/
theorem FrameBit.high {allMem : UInt32} {ps : Pools} {v : Bool} {f : Nat}
    (h : FrameBit ps v f) (hl : PoolsLayout allMem ps) : 512 ≤ f := by
  obtain ⟨pf, i, hi, -, haddr⟩ := h
  have hinside := (hl.inside hi).1
  have hlow := hl.low
  have hapart := hl.apart
  rw [haddr] at hinside
  unfold pgSize at hinside
  cases pf with
  | pfKernel =>
      simp only [Pools.pool] at hinside
      omega
  | pfUser =>
      simp only [Pools.pool] at hinside
      omega

namespace Spaces

variable {allMem : UInt32} {s t : Space} {dirs : List MadeDir} {d f g i p : Nat} {b : Bytes}
variable {pf : PoolFlags} {x : Owner}

theorem high (h : Spaces allMem s dirs)
    (hx : frameOf s.phys (dirFrames dirs) x = some g) : 512 ≤ g :=
  (h.owners.held x g hx).high h.layout

/-- A directory is a page of the kernel. -/
theorem dir_owner (h : Spaces allMem s dirs) (hd : d ∈ dirFrames dirs) :
    ∃ e ∈ dirs, e.frame = d ∧ frameOf s.phys (dirFrames dirs) (.kernel e.page) = some d := by
  obtain ⟨e, he, rfl⟩ := List.mem_map.mp hd
  exact ⟨e, he, rfl, h.made e he⟩

theorem dir_high (h : Spaces allMem s dirs) (hd : d ∈ dirFrames dirs) : 512 ≤ d := by
  obtain ⟨e, -, -, howner⟩ := h.dir_owner hd
  exact h.high howner

/-- Every table of a process is its own, and no directory. -/
theorem table_owner (h : Spaces allMem s dirs) (hd : d ∈ dirFrames dirs)
    (ht : slots s.phys d userTables (.table i) = some g) : 512 ≤ g ∧ g ∉ dirFrames dirs ∧
      ∀ d' ∈ dirFrames dirs, ∀ j, slots s.phys d' userTables (.table j) = some g →
        d' = d ∧ j = i := by
  have howner : frameOf s.phys (dirFrames dirs) (.user d (.table i)) = some g := by
    rw [frameOf_user hd]
    exact ht
  refine ⟨h.high howner, fun hg => ?_, fun d' hd' j hj => ?_⟩
  · obtain ⟨e, -, -, hdir⟩ := h.dir_owner hg
    cases h.owners.inj _ _ g howner hdir
  · have hother : frameOf s.phys (dirFrames dirs) (.user d' (.table j)) = some g := by
      rw [frameOf_user hd']
      exact hj
    cases h.owners.inj _ _ g hother howner
    exact ⟨rfl, rfl⟩

/-- A frame without an owner is no directory and no table. -/
theorem plain_of_new (h : Spaces allMem s dirs) (hg : 512 ≤ g)
    (hnew : ∀ x, frameOf s.phys (dirFrames dirs) x ≠ some g) :
    Plain s.phys (dirFrames dirs) g := by
  refine ⟨Or.inr hg, fun hd => ?_, fun d hd i hi => ?_⟩
  · obtain ⟨e, -, -, howner⟩ := h.dir_owner hd
    exact hnew _ howner
  · apply hnew (.user d (.table i))
    rw [frameOf_user hd]
    exact hi

/-- The frame of a page that holds no directory. -/
theorem plain_of_page (h : Spaces allMem s dirs)
    (hx : frameOf s.phys (dirFrames dirs) x = some g) (hdir : ∀ e ∈ dirs, x ≠ .kernel e.page)
    (htable : ∀ d i, x ≠ .user d (.table i)) : Plain s.phys (dirFrames dirs) g := by
  refine ⟨Or.inr (h.high hx), fun hd => ?_, fun d hd i hi => ?_⟩
  · obtain ⟨e, he, -, howner⟩ := h.dir_owner hd
    exact hdir e he (h.owners.inj _ _ g hx howner)
  · have howner : frameOf s.phys (dirFrames dirs) (.user d (.table i)) = some g := by
      rw [frameOf_user hd]
      exact hi
    exact htable d i (h.owners.inj _ _ g hx howner)

theorem write (h : Spaces allMem s dirs) (hg : Plain s.phys (dirFrames dirs) g) :
    Spaces allMem { s with phys := Function.update s.phys g b } dirs := by
  have hsame := frameOf_plain (b := b) h.part hg
  refine ⟨h.layout, h.part.write hg.range hg.dir, ?_, ?_, h.active⟩
  · rw [hsame]
    exact h.owners
  · rw [hsame]
    exact h.made

/-- The owner of a page is where the page is mapped. -/
theorem frameOf_page (h : Spaces allMem s dirs) (pf : PoolFlags) (hp : PartPage pf p)
    (hproc : pf = .pfUser → s.cr3 ≠ 256) :
    frameOf s.phys (dirFrames dirs) (pageOwner s.cr3 p pf) = walk s.phys s.cr3 p := by
  cases pf with
  | pfKernel =>
      show frameOf _ _ (.kernel p) = _
      rw [frameOf_kernel hp, h.part.walk h.active (HeapPage.kernel hp)]
  | pfUser =>
      have hd := h.active.resolve_left (hproc rfl)
      have hdiv : p / 1024 < userTables := by
        simp only [PartPage, userPages, pgSize] at hp
        simp only [userTables]
        omega
      show frameOf _ _ (.user s.cr3 (.page p)) = _
      rw [frameOf_user hd, slots_page hdiv]

theorem frameOf_heap (h : Spaces allMem s dirs) (hp : HeapPage p) :
    frameOf s.phys (dirFrames dirs) (.kernel p) = walk s.phys s.cr3 p :=
  h.frameOf_page .pfKernel hp (by simp)

theorem frameOf_own (h : Spaces allMem s dirs) (hp : p < userPages) (hproc : s.cr3 ≠ 256) :
    frameOf s.phys (dirFrames dirs) (.user s.cr3 (.page p)) = walk s.phys s.cr3 p :=
  h.frameOf_page .pfUser hp fun _ => hproc

/-- A frame is handed out. -/
theorem took (h : Spaces allMem s dirs) {qs : Pools} (hl : PoolsLayout allMem qs)
    (ht : Took s.pools qs pf f) :
    Spaces allMem { s with pools := qs } dirs ∧ InUse qs f ∧
      ∀ x, frameOf s.phys (dirFrames dirs) x ≠ some f := by
  refine ⟨⟨hl, h.part, ?_, h.made, h.active⟩, ht.inUse (Or.inl rfl), ?_⟩
  · exact h.owners.mono fun g hg => ht.inUse (Or.inr hg)
  · apply h.owners.not_owned
    intro hused
    have hbit := ht.was.unique h.layout hused
    cases hbit

end Spaces

end OsTruth
