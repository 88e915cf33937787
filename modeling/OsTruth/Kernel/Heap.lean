/-
`sys_malloc` and `sys_free` of `kernel/memory.c`.

An arena is a page that starts with a `struct arena` and is cut into blocks of one size.
The `free_elem` of a free block lies at the start of the block, so `Heap.links` has a node
for every address; the ends of the free lists lie in the array of descriptors of a task,
outside the heap.  Addresses are numbers, since the virtual pages of a task do not go
beyond 2 ^ 32.

The frame behind a page is left out: `supply` says whether there is one.
-/
import OsTruth.Kernel.Pools
import OsTruth.Lib.List
import OsTruth.Library.Fallible

namespace OsTruth

/-! ## Descriptors -/

/-- `&descs[idx]`, with `DESC_CNT` descriptors in `k_block_descs` or in the `u_block_desc`
of a task. -/
structure DescPtr where
  owner : Nat
  idx : Fin 7
  deriving DecidableEq

/-- The address of a `struct list_elem`. -/
inductive HeapNode
  | null
  | head (desc : DescPtr)
  | tail (desc : DescPtr)
  | block (b : Nat)
  deriving DecidableEq

/-- `&desc->free_list`. -/
def DescPtr.freeList (desc : DescPtr) : ListEnds HeapNode := ⟨.head desc, .tail desc⟩

/-- `sizeof(struct arena)`: a pointer, a word and a padded `bool`. -/
def arenaSize : Nat := 12

/-- The `block_size` that `block_desc_init` gives descriptor `idx`, doubling it each time. -/
def blockSize (idx : Fin 7) : Nat := 16 * 2 ^ idx.val

def blocksPerArena (idx : Fin 7) : Nat := (pgSize - arenaSize) / blockSize idx

def blockDescInit (m : Links HeapNode) (owner : Nat) : Links HeapNode :=
  (List.finRange 7).foldl (fun m idx => listInit m (DescPtr.freeList ⟨owner, idx⟩)) m

/-! ## The heap of a task -/

structure Arena where
  desc : Option DescPtr
  cnt : Nat
  large : Bool

/-- `arena p` is the structure at the start of the page at `p`.  `kernel` says that the
task has no page directory, and `owner` whose array of descriptors it uses. -/
structure Heap where
  links : Links HeapNode
  arena : Nat → Option Arena
  kernel : Bool
  owner : Nat
  vaddrBitmap : Bitmap
  vaddrStart : Nat
  poolSize : Nat
  supply : Nat → Bool

/-- What can lie in memory: the links at an address and the arena at a page. -/
structure Contents where
  links : Links HeapNode
  arena : Nat → Arena

def Contents.zero : Contents := ⟨⟨fun _ => .null, fun _ => .null⟩, fun _ => ⟨none, 0, false⟩⟩

namespace Heap

def setLinks (h : Heap) (m : Links HeapNode) : Heap := { h with links := m }

def setArena (h : Heap) (p : Nat) (a : Option Arena) : Heap :=
  { h with arena := fun q => if q = p then a else h.arena q }

/-- A `struct list_elem` at `b` and the `len` bytes from `lo` on have a byte in common. -/
def Touches (lo len b : Nat) : Prop := b < lo + len ∧ lo < b + 8

instance (lo len b : Nat) : Decidable (Touches lo len b) := inferInstanceAs (Decidable (_ ∧ _))

/-- The links `m` with those of nodes in the `len` bytes from `lo` on replaced by `c`. -/
def overlay (m : Links HeapNode) (lo len : Nat) (c : Links HeapNode) : Links HeapNode where
  next x := match x with
    | .block b => if Touches lo len b then c.next x else m.next x
    | x => m.next x
  prev x := match x with
    | .block b => if Touches lo len b then c.prev x else m.prev x
    | x => m.prev x

/-- The `len` bytes from `lo` on are written. -/
def overwrite (h : Heap) (lo len : Nat) (c : Contents) : Heap :=
  { h with
    links := overlay h.links lo len c.links
    arena := fun p =>
      if p < lo + len ∧ lo < p + arenaSize then (h.arena p).map fun _ => c.arena p
      else h.arena p }

def memset (h : Heap) (lo len : Nat) : Heap := h.overwrite lo len .zero

end Heap

abbrev HeapM := StateT Heap (Except Fault)

def hassert (c : Prop) [Decidable c] : HeapM Unit := StateT.lift (assert c)

/-- The address of block `idx` of an arena whose `desc` is the descriptor. -/
def arena2block (a : Nat) (desc : Fin 7) (idx : Nat) : Nat := a + arenaSize + idx * blockSize desc

def block2arena (b : Nat) : Nat := b / pgSize * pgSize

/-- No free list has more elements than there are addresses. -/
def listBound : Nat := 2 ^ 32 + 1

/-! ## Pages -/

/-- The loops of `vaddr_get` and `vaddr_remove`. -/
def vaddrSet (v : Bool) : Nat → Nat → Bitmap → Except Fault Bitmap
  | 0, _, b => .ok b
  | left + 1, bitIdx, b => do
      let b ← bitmapSet b bitIdx v
      vaddrSet v left (bitIdx + 1) b

namespace Heap

def vaddrGet (pgCnt : Nat) : HeapM (Option Nat) := do
  let h ← get
  let bitIdxStart ← StateT.lift (bitmapScan h.vaddrBitmap pgCnt)
  if bitIdxStart = -1 then pure none
  else do
    let b ← StateT.lift (vaddrSet true pgCnt bitIdxStart.toNat h.vaddrBitmap)
    set { h with vaddrBitmap := b }
    let vaddrStart := h.vaddrStart + bitIdxStart.toNat * pgSize
    hassert (h.kernel = true ∨ vaddrStart < 0xc0000000 - pgSize)
    pure (some vaddrStart)

/-- The loop of `malloc_page`: every page gets a frame. -/
def takeFrames : Nat → HeapM Bool
  | 0 => pure true
  | left + 1 => do
      let h ← get
      set { h with supply := fun k => h.supply (k + 1) }
      if h.supply 0 = true then takeFrames left else pure false

/-- `malloc_page`.  The virtual pages stay taken when there is no frame. -/
def mallocPage (pgCnt : Nat) : HeapM (Option Nat) := do
  match ← vaddrGet pgCnt with
  | none => pure none
  | some vaddrStart => do
      let taken ← takeFrames pgCnt
      pure (if taken then some vaddrStart else none)

/-- `mfree_page`.  The pages are not there any more. -/
def mfreePage (vaddr pgCnt : Nat) : HeapM Unit := do
  hassert (1 ≤ pgCnt ∧ vaddr % pgSize = 0)
  let h ← get
  let b ← StateT.lift (vaddrSet false pgCnt ((vaddr - h.vaddrStart) / pgSize) h.vaddrBitmap)
  set { h with
    vaddrBitmap := b
    arena := fun p => if vaddr ≤ p ∧ p < vaddr + pgCnt * pgSize then none else h.arena p }

/-! ## Blocks -/

/-- The loop of `sys_malloc` that cuts an arena into blocks, from `block_idx` on. -/
def carve (a : Nat) (desc : DescPtr) : Nat → Nat → HeapM Unit
  | 0, _ => pure ()
  | left + 1, blockIdx => do
      let h ← get
      let b : HeapNode := .block (arena2block a desc.idx blockIdx)
      let found ← StateT.lift (elemFind h.links desc.freeList b listBound)
      hassert (found = false)
      set (h.setLinks (listAppend h.links desc.freeList b))
      carve a desc left (blockIdx + 1)

def newArena (a : Nat) (desc : DescPtr) : HeapM Unit := do
  modify fun h => (h.memset a pgSize).setArena a (some ⟨some desc, blocksPerArena desc.idx, false⟩)
  carve a desc (blocksPerArena desc.idx) 0

/-- The end of `sys_malloc`: take the first free block. -/
def takeBlock (desc : DescPtr) : HeapM (Option Nat) := do
  let h ← get
  let (elem, m) := listPop h.links desc.freeList
  match elem with
  | .block b => do
      set ((h.setLinks m).memset b (blockSize desc.idx))
      let h ← get
      match h.arena (block2arena b) with
      | none => throw .undefined
      | some a => do
          set (h.setArena (block2arena b) (some { a with cnt := (a.cnt + (2 ^ 32 - 1)) % 2 ^ 32 }))
          pure (some b)
  | _ => throw .undefined

/-- The descriptor of the smallest blocks that are large enough. -/
def findDesc (size : Nat) : Option (Fin 7) :=
  (List.finRange 7).find? fun idx => decide (size ≤ blockSize idx)

def sysMalloc (size : Nat) : HeapM (Option Nat) := do
  let h ← get
  if ¬(0 < size ∧ size < h.poolSize) then pure none
  else if 1024 < size then do
    let pageCnt := (size + arenaSize + (pgSize - 1)) / pgSize
    match ← mallocPage pageCnt with
    | none => pure none
    | some a => do
        modify fun h => (h.memset a (pageCnt * pgSize)).setArena a (some ⟨none, pageCnt, true⟩)
        pure (some (a + arenaSize))
  else
    match findDesc size with
    | none => throw .undefined
    | some descIdx => do
        let desc : DescPtr := ⟨h.owner, descIdx⟩
        if listEmpty h.links desc.freeList = true then do
          match ← mallocPage 1 with
          | none => pure none
          | some a => do
              newArena a desc
              takeBlock desc
        else takeBlock desc

/-- The loop of `sys_free` over the blocks of an arena that is not used any more. -/
def reclaim (a : Nat) (desc : DescPtr) : Nat → Nat → HeapM Unit
  | 0, _ => pure ()
  | left + 1, blockIdx => do
      let h ← get
      let b : HeapNode := .block (arena2block a desc.idx blockIdx)
      let found ← StateT.lift (elemFind h.links desc.freeList b listBound)
      hassert (found = true)
      set (h.setLinks (listRemove h.links b))
      reclaim a desc left (blockIdx + 1)

/-- The branch of `sys_free` for a block of an arena. -/
def freeBlock (b : Nat) (a : Arena) (desc : DescPtr) : HeapM Unit := do
  modify fun h => h.setLinks (listAppend h.links desc.freeList (.block b))
  let cnt := (a.cnt + 1) % 2 ^ 32
  modify fun h => h.setArena (block2arena b) (some { a with cnt := cnt })
  if cnt = blocksPerArena desc.idx then do
    reclaim (block2arena b) desc (blocksPerArena desc.idx) 0
    mfreePage (block2arena b) 1
  else pure ()

def sysFree (ptr : Nat) : HeapM Unit := do
  hassert (ptr ≠ 0)
  let h ← get
  hassert (h.kernel = true → 0xc0100000 ≤ ptr)
  match h.arena (block2arena ptr) with
  | none => throw .undefined
  | some a =>
      match a.desc with
      | none => if a.large = true then mfreePage (block2arena ptr) a.cnt else throw .undefined
      | some desc => freeBlock ptr a desc

end Heap

/-! ## Runs -/

/-- A task with the addresses and the sizes of the blocks that it has. -/
structure HeapTask where
  heap : Heap
  live : List (Nat × Nat)

/-- A task calls `sys_malloc` or `sys_free`, or writes to a block. -/
inductive HeapCall
  | sysMalloc (size : Nat)
  | sysFree (ptr : Nat)
  | write (ptr size : Nat) (c : Contents)

def heapStep (σ : HeapTask) : HeapCall → Except Fault HeapTask
  | .sysMalloc size => do
      let (r, h) ← (Heap.sysMalloc size).run σ.heap
      match r with
      | none => pure ⟨h, σ.live⟩
      | some b => pure ⟨h, (b, size) :: σ.live⟩
  | .sysFree ptr => do
      let (_, h) ← (Heap.sysFree ptr).run σ.heap
      pure ⟨h, σ.live.filter fun x => x.1 ≠ ptr⟩
  | .write ptr size c => pure ⟨σ.heap.overwrite ptr size c, σ.live⟩

/-- At most 1024 bytes are requested, and only a block that the task has is freed or
written. -/
def heapCall (σ : HeapTask) : HeapCall → Prop
  | .sysMalloc size => 1 ≤ size ∧ size ≤ 1024
  | .sysFree ptr => ptr ∈ σ.live.map Prod.fst
  | .write ptr size _ => (ptr, size) ∈ σ.live

end OsTruth
