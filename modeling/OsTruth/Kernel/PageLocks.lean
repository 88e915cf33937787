/-
Pages allocated by several tasks, from `kernel/memory.c`.

`get_kernel_pages`, `get_user_pages`, `get_a_page` and `sys_malloc` all take the lock of a
pool, run `malloc_page` or its loop body, and release the lock; they differ in the virtual
address, which a request names.  A task can be switched away from between any two steps,
so in particular between the `bitmap_scan` and the `bitmap_set` of a `palloc`.

A page table is always taken from `kernel_pool`, also under the lock of `user_pool`.
-/
import OsTruth.Kernel.Pools
import OsTruth.Thread.Mutex

namespace OsTruth

open Runs

/-- `palloc` from the `bitmap_set` on. -/
def pallocSet (mPool : Pool) (bitIdx : Nat) : Except Fault (UInt32 × Pool) := do
  let b ← bitmapSet mPool.poolBitmap bitIdx true
  pure (frameAddr mPool bitIdx, { mPool with poolBitmap := b })

theorem palloc_cut (mPool : Pool) :
    palloc mPool = (do
      let bitIdx ← bitmapScan mPool.poolBitmap 1
      if bitIdx = -1 then pure (none, mPool)
      else do
        let (a, p) ← pallocSet mPool bitIdx.toNat
        pure (some a, p)) := by
  unfold palloc pallocSet
  refine bind_congr fun bitIdx => ?_
  by_cases h : bitIdx = -1
  · rw [if_pos h, if_pos h]
  · rw [if_neg h, if_neg h]
    simp only [bind_assoc, pure_bind]

/-- The frame that is taken is handed out. -/
def Frames.take (f : Frames) (pf : PoolFlags) (bitIdx : Nat) : Except Fault (UInt32 × Frames) := do
  let (a, p) ← pallocSet (f.pools.pool pf) bitIdx
  pure (a, ⟨f.pools.put pf p, (pf, a) :: f.out⟩)

/-- `pgCnt` pages from `vaddr` on, of which the pool is `pf`. -/
structure PageRequest where
  pf : PoolFlags
  vaddr : UInt32
  pgCnt : Nat
  deriving DecidableEq

/-- The rest of the request when a page is mapped. -/
def PageRequest.next (r : PageRequest) : PageRequest := ⟨r.pf, r.vaddr + 4096, r.pgCnt - 1⟩

def pdeIdx (vaddr : UInt32) : Nat := vaddr.toNat / 2 ^ 22

def pageIdx (vaddr : UInt32) : Nat := vaddr.toNat / 2 ^ 12

/-- Where a task is in an allocation.  `palloc` is entered at `page` for the frame of a
page, and at `map`, which is `page_table_add`, for the frame of a page table. -/
inductive PagePc
  | outside
  | acquire (r : PageRequest)
  | page (r : PageRequest)
  | take (r : PageRequest) (bitIdx : Nat)
  | map (r : PageRequest) (pagePhyaddr : UInt32)
  | takeTable (r : PageRequest) (pagePhyaddr : UInt32) (bitIdx : Nat)
  | unlock (r : PageRequest)
  | release (r : PageRequest)
  deriving DecidableEq

/-- A page directory is named by a number.  Its upper quarter is that of the kernel, which
is named by `none`. -/
abbrev PageDir := Option Nat

/-- `pde` and `pte` are the frames of the entries whose P bit is set. -/
structure PageState where
  frames : Frames
  lock : PoolFlags → LockState
  pgdir : Nat → Nat
  pde : PageDir → Nat → Option UInt32
  pte : PageDir → Nat → Option UInt32
  pc : Nat → PagePc

namespace PageState

def goto (σ : PageState) (t : Nat) (pc : PagePc) : PageState :=
  { σ with pc := fun k => if k = t then pc else σ.pc k }

def setLock (σ : PageState) (pf : PoolFlags) (l : LockState) : PageState :=
  { σ with lock := fun k => if k = pf then l else σ.lock k }

/-- The page directory entries through which task `t` reaches `vaddr`. -/
def dir (σ : PageState) (t : Nat) (vaddr : UInt32) : PageDir :=
  if 0xc0000000 ≤ vaddr then none else some (σ.pgdir t)

/-- `*pde = pde_phyaddr | ...`, and the new page table is cleared. -/
def addTable (σ : PageState) (d : PageDir) (idx : Nat) (pdePhyaddr : UInt32) : PageState :=
  { σ with
    pde := fun k i => if k = d ∧ i = idx then some pdePhyaddr else σ.pde k i
    pte := fun k i => if k = d ∧ i / 1024 = idx then none else σ.pte k i }

/-- `*pte = page_phyaddr | ...` behind its assertion. -/
def addPage (σ : PageState) (d : PageDir) (idx : Nat) (pagePhyaddr : UInt32) :
    Except Fault PageState := do
  assert ((σ.pte d idx).isNone = true)
  pure { σ with pte := fun k i => if k = d ∧ i = idx then some pagePhyaddr else σ.pte k i }

end PageState

/-- A task calls one of the functions, or goes on with the call that it is in. -/
inductive PageCall
  | start (t : Nat) (r : PageRequest)
  | go (t : Nat)

/-- The next step of a task that is in a call.  A page table whose frame is `NULL` is
entered as it is. -/
def pageGo (σ : PageState) (t : Nat) : Except Fault PageState :=
  match σ.pc t with
  | .outside => .error .undefined
  | .acquire r => do
      let l ← lockStep (σ.lock r.pf) (.go t)
      pure ((σ.setLock r.pf l).goto t (if l.phase t = Phase.inside then .page r else .acquire r))
  | .page r =>
      if r.pgCnt = 0 then pure (σ.goto t (.unlock r))
      else do
        let bitIdx ← bitmapScan (σ.frames.pools.pool r.pf).poolBitmap 1
        pure (σ.goto t (if bitIdx = -1 then .unlock r else .take r bitIdx.toNat))
  | .take r bitIdx => do
      let (pagePhyaddr, frames) ← σ.frames.take r.pf bitIdx
      pure ({ σ with frames := frames }.goto t (.map r pagePhyaddr))
  | .map r pagePhyaddr =>
      if (σ.pde (σ.dir t r.vaddr) (pdeIdx r.vaddr)).isSome then do
        let τ ← σ.addPage (σ.dir t r.vaddr) (pageIdx r.vaddr) pagePhyaddr
        pure (τ.goto t (.page r.next))
      else do
        let bitIdx ← bitmapScan σ.frames.pools.kernelPool.poolBitmap 1
        if bitIdx = -1 then do
          let τ ← (σ.addTable (σ.dir t r.vaddr) (pdeIdx r.vaddr) 0).addPage (σ.dir t r.vaddr)
            (pageIdx r.vaddr) pagePhyaddr
          pure (τ.goto t (.page r.next))
        else pure (σ.goto t (.takeTable r pagePhyaddr bitIdx.toNat))
  | .takeTable r pagePhyaddr bitIdx => do
      let (pdePhyaddr, frames) ← σ.frames.take .pfKernel bitIdx
      let τ ← ({ σ with frames := frames }.addTable (σ.dir t r.vaddr) (pdeIdx r.vaddr)
        pdePhyaddr).addPage (σ.dir t r.vaddr) (pageIdx r.vaddr) pagePhyaddr
      pure (τ.goto t (.page r.next))
  | .unlock r => do
      let l ← lockStep (σ.lock r.pf) (.release t)
      pure ((σ.setLock r.pf l).goto t (.release r))
  | .release r => do
      let l ← lockStep (σ.lock r.pf) (.go t)
      pure ((σ.setLock r.pf l).goto t (if l.phase t = Phase.free then .outside else .release r))

def pageStep (σ : PageState) : PageCall → Except Fault PageState
  | .start t r => do
      let l ← lockStep (σ.lock r.pf) (.acquire t)
      pure ((σ.setLock r.pf l).goto t (.acquire r))
  | .go t => pageGo σ t

namespace PagePc

def request : PagePc → Option PageRequest
  | .outside => none
  | .acquire r | .page r | .take r _ | .map r _ | .takeTable r _ _ | .unlock r | .release r =>
      some r

/-- The pool whose lock the call uses. -/
def holds (pc : PagePc) : Option PoolFlags := pc.request.map PageRequest.pf

/-- The bit that a `palloc` found and has not yet set. -/
def found : PagePc → Option (PoolFlags × Nat)
  | .take r bitIdx => some (r.pf, bitIdx)
  | .takeTable _ _ bitIdx => some (.pfKernel, bitIdx)
  | _ => none

end PagePc

/-- The pool whose bitmap task `t` scans next. -/
def PageState.scans (σ : PageState) (t : Nat) : Option PoolFlags :=
  match σ.pc t with
  | .page r => if r.pgCnt = 0 then none else some r.pf
  | .map r _ => if (σ.pde (σ.dir t r.vaddr) (pdeIdx r.vaddr)).isSome then none else some .pfKernel
  | _ => none

/-- One of `n` tasks that is not blocked makes a step. -/
def pageCall (n : Nat) (σ : PageState) : PageCall → Prop
  | .start t _ => t < n ∧ σ.pc t = .outside
  | .go t => t < n ∧ σ.pc t ≠ .outside ∧ ∀ r, (σ.pc t).request = some r →
      ((σ.lock r.pf).thread t).blocked = false

/-- No task scans `kernel_pool` while another one, with the other lock, is between its scan
and its `bitmap_set` of it. -/
def pageCallApart (n : Nat) (σ : PageState) (c : PageCall) : Prop :=
  pageCall n σ c ∧
    match c with
    | .start _ _ => True
    | .go t => σ.scans t = some .pfKernel → ∀ u, u < n →
        (σ.pc u).found.map Prod.fst = some .pfKernel → (σ.pc u).holds = (σ.pc t).holds

def PageState.kernelFrames (σ : PageState) : List UInt32 :=
  (σ.frames.out.filter fun f => f.1 = .pfKernel).map Prod.snd

/-! ## The invariant -/

/-- Where a task in an allocation is with respect to the lock that the call uses. -/
def PagePc.stage : PagePc → Phase
  | .outside => .free
  | .acquire _ => .acquiring
  | .page _ | .take _ _ | .map _ _ | .takeTable _ _ _ | .unlock _ => .inside
  | .release _ => .releasing

/-- Where it is with respect to the lock of `pf`. -/
def PagePc.phase (pc : PagePc) (pf : PoolFlags) : Phase :=
  if pc.holds = some pf then pc.stage else .free

structure PageInv (allMem : UInt32) (n : Nat) (σ : PageState) : Prop where
  tracked : Tracked allMem σ.frames
  lock : ∀ pf, Mutex (σ.lock pf)
  small : ∀ t, n ≤ t → σ.pc t = .outside
  phase : ∀ pf t, (σ.lock pf).phase t = (σ.pc t).phase pf
  clear : ∀ t pf i, (σ.pc t).found = some (pf, i) →
    i < 8 * (σ.frames.pools.pool pf).poolBitmap.btmpBytesLen ∧
      (σ.frames.pools.pool pf).poolBitmap.bit i = false
  one : ∀ t u pf i j, (σ.pc t).found = some (pf, i) → (σ.pc u).found = some (pf, j) → t = u

section

variable {allMem : UInt32} {n t i : Nat} {σ τ : PageState} {pc : PagePc} {pf : PoolFlags}
  {r : PageRequest} {l : LockState} {c : PageCall}

theorem PageState.goto_pc (σ : PageState) (t u : Nat) (pc : PagePc) :
    (σ.goto t pc).pc u = if u = t then pc else σ.pc u :=
  rfl

/-- The pages and the frames stay when a task goes somewhere, unless it has found a bit. -/
theorem PageInv.move (h : PageInv allMem n σ) (ht : t < n) (hframes : τ.frames = σ.frames)
    (hpc : ∀ u, τ.pc u = if u = t then pc else σ.pc u) (hlock : ∀ pf, Mutex (τ.lock pf))
    (hphase : ∀ pf u, (τ.lock pf).phase u = if u = t then pc.phase pf else (σ.lock pf).phase u)
    (hclear : ∀ pf i, pc.found = some (pf, i) →
      i < 8 * (σ.frames.pools.pool pf).poolBitmap.btmpBytesLen ∧
        (σ.frames.pools.pool pf).poolBitmap.bit i = false)
    (hone : ∀ pf i, pc.found = some (pf, i) → ∀ u j, (σ.pc u).found = some (pf, j) → u = t) :
    PageInv allMem n τ where
  tracked := by
    rw [hframes]
    exact h.tracked
  lock := hlock
  small u hu := by
    rw [hpc, if_neg (Nat.ne_of_gt (Nat.lt_of_lt_of_le ht hu))]
    exact h.small u hu
  phase pf u := by
    rw [hphase, hpc]
    by_cases hut : u = t
    · rw [if_pos hut, if_pos hut]
    · rw [if_neg hut, if_neg hut]
      exact h.phase pf u
  clear u pf i hu := by
    rw [hframes]
    rw [hpc] at hu
    by_cases hut : u = t
    · rw [if_pos hut] at hu
      exact hclear pf i hu
    · rw [if_neg hut] at hu
      exact h.clear u pf i hu
  one u v pf i j hu hv := by
    rw [hpc] at hu hv
    by_cases hut : u = t
    · rw [if_pos hut] at hu
      by_cases hvt : v = t
      · rw [hut, hvt]
      · rw [if_neg hvt] at hv
        exact absurd (hone pf i hu v j hv) hvt
    · rw [if_neg hut] at hu
      by_cases hvt : v = t
      · rw [if_pos hvt] at hv
        exact absurd (hone pf j hv u i hu) hut
      · rw [if_neg hvt] at hv
        exact h.one u v pf i j hu hv

/-- The task stays on the same side of its lock. -/
theorem PageInv.goto (pc : PagePc) (h : PageInv allMem n σ) (ht : t < n) (hframes : τ.frames = σ.frames)
    (hlock : τ.lock = σ.lock) (hpc : ∀ u, τ.pc u = if u = t then pc else σ.pc u)
    (hholds : pc.holds = (σ.pc t).holds) (hstage : pc.stage = (σ.pc t).stage)
    (hclear : ∀ pf i, pc.found = some (pf, i) →
      i < 8 * (σ.frames.pools.pool pf).poolBitmap.btmpBytesLen ∧
        (σ.frames.pools.pool pf).poolBitmap.bit i = false)
    (hone : ∀ pf i, pc.found = some (pf, i) → ∀ u j, (σ.pc u).found = some (pf, j) → u = t) :
    PageInv allMem n τ := by
  refine h.move ht hframes hpc (fun pf => hlock ▸ h.lock pf) (fun pf u => ?_) hclear hone
  rw [hlock]
  by_cases hut : u = t
  · rw [if_pos hut, hut, h.phase pf t, PagePc.phase, PagePc.phase, hholds, hstage]
  · rw [if_neg hut]

/-- A call uses one lock. -/
theorem PagePc.phase_ne {pf' : PoolFlags} (h : pc.holds = some pf ∨ pc = .outside)
    (hne : pf' ≠ pf) : pc.phase pf' = .free := by
  unfold phase
  rcases h with h | h
  · rw [h, if_neg fun heq => hne (Option.some.inj heq).symm]
  · rw [h]
    rfl

/-- A step of the lock that the call uses. -/
theorem PageInv.locked (h : PageInv allMem n σ) (ht : t < n)
    (hold : (σ.pc t).holds = some pf ∨ σ.pc t = .outside)
    (hnew : pc.holds = some pf ∨ pc = .outside) (hnone : pc.found = none)
    (hl : Mutex l) (hself : l.phase t = pc.phase pf)
    (hother : ∀ u, u ≠ t → l.phase u = (σ.lock pf).phase u) :
    PageInv allMem n ((σ.setLock pf l).goto t pc) := by
  have hnever : ∀ {x : PoolFlags × Nat}, pc.found ≠ some x := by
    rw [hnone]
    nofun
  refine h.move (τ := (σ.setLock pf l).goto t pc) ht rfl (fun _ => rfl) (fun pf' => ?_)
    (fun pf' u => ?_) (fun _ _ hf => absurd hf hnever) (fun _ _ hf => absurd hf hnever)
  · show Mutex (if pf' = pf then l else σ.lock pf')
    by_cases hpf : pf' = pf
    · rw [if_pos hpf]
      exact hl
    · rw [if_neg hpf]
      exact h.lock pf'
  · show LockState.phase (if pf' = pf then l else σ.lock pf') u = _
    by_cases hpf : pf' = pf
    · rw [if_pos hpf, hpf]
      by_cases hut : u = t
      · rw [if_pos hut, hut, hself]
      · rw [if_neg hut]
        exact hother u hut
    · rw [if_neg hpf]
      by_cases hut : u = t
      · rw [if_pos hut, hut, h.phase, PagePc.phase_ne hold hpf, PagePc.phase_ne hnew hpf]
      · rw [if_neg hut]

theorem frames_take {f : Frames} (hi : i < 8 * (f.pools.pool pf).poolBitmap.btmpBytesLen) :
    f.take pf i = .ok (frameAddr (f.pools.pool pf) i,
      ⟨f.pools.put pf { f.pools.pool pf with
        poolBitmap := (f.pools.pool pf).poolBitmap.set i true },
        (pf, frameAddr (f.pools.pool pf) i) :: f.out⟩) := by
  simp only [Frames.take, pallocSet, bitmapSet_of_lt hi, bind, Except.bind, pure, Except.pure]

/-- The bit that task `t` found is set. -/
theorem PageInv.took (pc : PagePc) (h : PageInv allMem n σ) (ht : t < n)
    (hfound : (σ.pc t).found = some (pf, i))
    {a : UInt32} {f : Frames} (htake : σ.frames.take pf i = .ok (a, f)) (hframes : τ.frames = f)
    (hlock : τ.lock = σ.lock) (hpc : ∀ u, τ.pc u = if u = t then pc else σ.pc u)
    (hholds : pc.holds = (σ.pc t).holds) (hstage : pc.stage = (σ.pc t).stage)
    (hnone : pc.found = none) : PageInv allMem n τ := by
  obtain ⟨hi, hclear⟩ := h.clear t pf i hfound
  rw [frames_take hi, Except.ok.injEq, Prod.mk.injEq] at htake
  obtain ⟨-, rfl⟩ := htake
  have hnever : ∀ {x : PoolFlags × Nat}, pc.found ≠ some x := by
    rw [hnone]
    nofun
  have hmoved : PageInv allMem n { σ with pc := fun u => if u = t then pc else σ.pc u } :=
    h.goto pc (τ := { σ with pc := fun u => if u = t then pc else σ.pc u }) ht rfl rfl
      (fun _ => rfl) hholds hstage (fun _ _ hf => absurd hf hnever) fun _ _ hf => absurd hf hnever
  have hpc' : τ.pc = fun u => if u = t then pc else σ.pc u := funext hpc
  refine ⟨?_, fun pf => hlock ▸ h.lock pf, fun u hu => ?_, fun pf u => ?_, fun u pf' j hu => ?_,
    fun u v pf i j hu hv => ?_⟩
  · rw [hframes]
    exact h.tracked.palloc hi hclear
  · rw [hpc']
    exact hmoved.small u hu
  · rw [hlock, hpc']
    exact hmoved.phase pf u
  · obtain ⟨hlen, hbit⟩ := hmoved.clear u pf' j (by rw [← hpc']; exact hu)
    obtain ⟨-, hsame, hbits⟩ := setBit_pool σ.frames.pools pf pf' i true
    rw [hframes, hsame, hbits, if_neg]
    · exact ⟨hlen, hbit⟩
    · rintro ⟨rfl, rfl⟩
      rw [hpc] at hu
      by_cases hut : u = t
      · rw [if_pos hut] at hu
        exact hnever hu
      · rw [if_neg hut] at hu
        exact hut (h.one u t pf' j j hu hfound)
  · rw [hpc'] at hu hv
    exact hmoved.one u v pf i j hu hv

theorem addPage_ok {d : PageDir} {idx : Nat} {a : UInt32} (h : σ.addPage d idx a = .ok τ) :
    τ.frames = σ.frames ∧ τ.lock = σ.lock ∧ τ.pc = σ.pc := by
  unfold PageState.addPage at h
  by_cases hnone : (σ.pte d idx).isNone = true
  · rw [assert_bind hnone] at h
    cases h
    exact ⟨rfl, rfl, rfl⟩
  · rw [assert, if_neg hnone] at h
    cases h

theorem bitmapScan_found {b : Bitmap} {k : Int} (h : bitmapScan b 1 = .ok k) :
    k.toNat < 8 * b.btmpBytesLen ∧ b.bit k.toNat = false := by
  rcases bitmapScan_one b with ⟨j, hscan, hj⟩ | ⟨hscan, -⟩
  · rw [hscan, Except.ok.injEq] at h
    rw [← h]
    exact ⟨hj.1, hj.2.1⟩
  · rw [hscan] at h
    cases h

/-- A task that has found a bit is inside its lock, and of `user_pool` only with that of
`user_pool`. -/
theorem PagePc.holds_of_found (h : pc.found = some (pf, i)) :
    pc.stage = .inside ∧ (pf = .pfUser → pc.holds = some .pfUser) := by
  cases pc with
  | take r bitIdx =>
      cases h
      exact ⟨rfl, fun hpf => congrArg some hpf⟩
  | takeTable r a bitIdx =>
      cases h
      exact ⟨rfl, nofun⟩
  | _ => cases h

theorem PageState.holds_of_scans (h : σ.scans t = some pf) :
    (σ.pc t).stage = .inside ∧ (pf = .pfUser → (σ.pc t).holds = some .pfUser) ∧
      ∃ r, (σ.pc t).request = some r := by
  unfold scans at h
  cases hpc : σ.pc t with
  | page r =>
      rw [hpc] at h
      by_cases hcnt : r.pgCnt = 0
      · simp only [hcnt, if_true, reduceCtorEq] at h
      · simp only [hcnt, if_false, Option.some.injEq] at h
        exact ⟨rfl, fun hpf => congrArg some (h.trans hpf), r, rfl⟩
  | map r a =>
      rw [hpc] at h
      refine ⟨rfl, fun hpf => ?_, r, rfl⟩
      rw [hpf] at h
      by_cases hpde : (σ.pde (σ.dir t r.vaddr) (pdeIdx r.vaddr)).isSome = true
      · simp only [hpde, if_true, reduceCtorEq] at h
      · simp only [hpde, Bool.false_eq_true, if_false, Option.some.injEq, reduceCtorEq] at h
  | _ =>
      rw [hpc] at h
      cases h

/-- Nobody else has found a bit of the pool that a task scans. -/
theorem PageInv.alone (h : PageInv allMem n σ) (hscans : σ.scans t = some pf)
    (hapart : σ.scans t = some .pfKernel → ∀ u, u < n →
      (σ.pc u).found.map Prod.fst = some .pfKernel → (σ.pc u).holds = (σ.pc t).holds)
    {u j : Nat} (hu : (σ.pc u).found = some (pf, j)) : u = t := by
  obtain ⟨hstage, huser, r, hr⟩ := PageState.holds_of_scans hscans
  obtain ⟨hstage', huser'⟩ := PagePc.holds_of_found hu
  have hholds : (σ.pc t).holds = some r.pf := by rw [PagePc.holds, hr, Option.map_some]
  have hun : u < n := by
    by_contra hge
    rw [h.small u (Nat.le_of_not_lt hge)] at hu
    cases hu
  have hsame : (σ.pc u).holds = (σ.pc t).holds := by
    cases pf with
    | pfKernel => exact hapart hscans u hun (by rw [hu]; rfl)
    | pfUser => rw [huser' rfl, huser rfl]
  refine (h.lock r.pf).one ?_ ?_
  · rw [h.phase, PagePc.phase, if_pos (hsame.trans hholds)]
    exact hstage'
  · rw [h.phase, PagePc.phase, if_pos hholds]
    exact hstage

/-- The phase of a task with respect to the lock of its call. -/
theorem PageInv.phase_self (h : PageInv allMem n σ) (hr : (σ.pc t).request = some r) :
    (σ.lock r.pf).phase t = (σ.pc t).stage := by
  have hholds : (σ.pc t).holds = some r.pf := by rw [PagePc.holds, hr, Option.map_some]
  rw [h.phase, PagePc.phase, if_pos hholds]

/-- The task has found a bit. -/
theorem PageInv.scanned (pc : PagePc) (h : PageInv allMem n σ) (ht : t < n)
    (hscans : σ.scans t = some pf)
    (hapart : σ.scans t = some .pfKernel → ∀ u, u < n →
      (σ.pc u).found.map Prod.fst = some .pfKernel → (σ.pc u).holds = (σ.pc t).holds)
    {k : Int} (hk : bitmapScan (σ.frames.pools.pool pf).poolBitmap 1 = .ok k)
    (hfound : pc.found = some (pf, k.toNat)) (hholds : pc.holds = (σ.pc t).holds)
    (hstage : pc.stage = (σ.pc t).stage) : PageInv allMem n (σ.goto t pc) := by
  have heq : ∀ pf' i, pc.found = some (pf', i) → pf' = pf ∧ i = k.toNat := by
    intro pf' i hf
    rw [hfound, Option.some.injEq, Prod.mk.injEq] at hf
    exact ⟨hf.1.symm, hf.2.symm⟩
  refine h.goto pc ht rfl rfl (fun _ => rfl) hholds hstage (fun pf' i hf => ?_)
    fun pf' i hf u j hu => ?_
  · rw [(heq pf' i hf).1, (heq pf' i hf).2]
    exact bitmapScan_found hk
  · obtain ⟨rfl, rfl⟩ := heq pf' i hf
    exact h.alone hscans hapart hu

theorem PagePc.holds_next (r : PageRequest) : (PagePc.page r.next).holds = some r.pf := by
  simp only [holds, request, PageRequest.next, Option.map_some]

/-- The page is entered in its page table. -/
theorem PageInv.mapped (h : PageInv allMem n σ) (ht : t < n) {υ : PageState}
    (hframes : υ.frames = σ.frames) (hlock : υ.lock = σ.lock) (hpc : υ.pc = σ.pc)
    {d : PageDir} {idx : Nat} {a : UInt32} (hpage : υ.addPage d idx a = .ok τ)
    (hholds : (σ.pc t).holds = some r.pf) (hstage : (σ.pc t).stage = .inside) :
    PageInv allMem n (τ.goto t (.page r.next)) := by
  obtain ⟨hτframes, hτlock, hτpc⟩ := addPage_ok hpage
  refine h.goto (.page r.next) (τ := τ.goto t (.page r.next)) ht (hτframes.trans hframes)
    (hτlock.trans hlock) (fun u => ?_) ((PagePc.holds_next r).trans hholds.symm) hstage.symm nofun
    nofun
  rw [PageState.goto_pc, hτpc, hpc]

/-- `page_table_add`, up to the scan for the frame of a page table. -/
theorem PageInv.map (h : PageInv allMem n σ) (hok : pageCallApart n σ (.go t)) {a : UInt32}
    (hpc : σ.pc t = .map r a) (hstep : pageGo σ t = .ok τ) : PageInv allMem n τ := by
  obtain ⟨⟨ht, -, -⟩, hapart⟩ := hok
  have hholds : (σ.pc t).holds = some r.pf := by rw [hpc]; rfl
  have hstage : (σ.pc t).stage = .inside := by rw [hpc]; rfl
  unfold pageGo at hstep
  by_cases hpde : (σ.pde (σ.dir t r.vaddr) (pdeIdx r.vaddr)).isSome = true
  · simp only [hpc, hpde, if_true] at hstep
    cases hpage : σ.addPage (σ.dir t r.vaddr) (pageIdx r.vaddr) a with
    | error e => simp only [hpage, bind, Except.bind, reduceCtorEq] at hstep
    | ok υ =>
        simp only [hpage, bind, Except.bind, pure, Except.pure, Except.ok.injEq] at hstep
        rw [← hstep]
        exact h.mapped ht rfl rfl rfl hpage hholds hstage
  · have hscans : σ.scans t = some .pfKernel := by
      rw [PageState.scans, hpc]
      exact if_neg hpde
    simp only [hpc, hpde, Bool.false_eq_true, if_false] at hstep
    cases hk : bitmapScan σ.frames.pools.kernelPool.poolBitmap 1 with
    | error e => simp only [hk, bind, Except.bind, reduceCtorEq] at hstep
    | ok k =>
        simp only [hk, bind, Except.bind] at hstep
        by_cases hfull : k = -1
        · simp only [hfull, if_true] at hstep
          cases hpage : (σ.addTable (σ.dir t r.vaddr) (pdeIdx r.vaddr) 0).addPage
              (σ.dir t r.vaddr) (pageIdx r.vaddr) a with
          | error e => simp only [hpage, reduceCtorEq] at hstep
          | ok υ =>
              simp only [hpage, pure, Except.pure, Except.ok.injEq] at hstep
              rw [← hstep]
              exact h.mapped (υ := σ.addTable (σ.dir t r.vaddr) (pdeIdx r.vaddr) 0) ht rfl rfl rfl
                hpage hholds hstage
        · simp only [hfull, if_false, pure, Except.pure, Except.ok.injEq] at hstep
          rw [← hstep]
          exact h.scanned (.takeTable r a k.toNat) ht hscans hapart hk rfl hholds.symm
            hstage.symm

/-- `page_table_add` from the `bitmap_set` for the frame of a page table. -/
theorem PageInv.takeTable (h : PageInv allMem n σ) (ht : t < n) {a : UInt32}
    (hpc : σ.pc t = .takeTable r a i) (hstep : pageGo σ t = .ok τ) : PageInv allMem n τ := by
  have hfound : (σ.pc t).found = some (.pfKernel, i) := by rw [hpc]; rfl
  unfold pageGo at hstep
  simp only [hpc] at hstep
  cases htake : σ.frames.take .pfKernel i with
  | error e => simp only [htake, bind, Except.bind, reduceCtorEq] at hstep
  | ok x =>
      obtain ⟨pa, f⟩ := x
      simp only [htake, bind, Except.bind] at hstep
      cases hpage : ({ σ with frames := f }.addTable (σ.dir t r.vaddr) (pdeIdx r.vaddr)
          pa).addPage (σ.dir t r.vaddr) (pageIdx r.vaddr) a with
      | error e => simp only [hpage, reduceCtorEq] at hstep
      | ok υ =>
          simp only [hpage, pure, Except.pure, Except.ok.injEq] at hstep
          obtain ⟨hframes, hlock, hυpc⟩ := addPage_ok hpage
          rw [← hstep]
          have hholds : (PagePc.page r.next).holds = (σ.pc t).holds := by
            rw [PagePc.holds_next, hpc]
            rfl
          refine h.took (.page r.next) (τ := υ.goto t (.page r.next)) ht hfound htake hframes
            hlock (fun u => ?_) hholds (by rw [hpc]; rfl) rfl
          rw [PageState.goto_pc, hυpc]
          rfl

/-- A step that meets the condition keeps the invariant. -/
theorem PageInv.go (h : PageInv allMem n σ) (hok : pageCallApart n σ (.go t))
    (hstep : pageGo σ t = .ok τ) : PageInv allMem n τ := by
  have hok' := hok
  obtain ⟨⟨ht, -, hblocked⟩, hapart⟩ := hok'
  have hstep' := hstep
  unfold pageGo at hstep
  cases hpc : σ.pc t with
  | outside =>
      rw [hpc] at hstep
      cases hstep
  | acquire r =>
      have hr : (σ.pc t).request = some r := by rw [hpc]; rfl
      have hphase : (σ.lock r.pf).phase t = .acquiring := by rw [h.phase_self hr, hpc]; rfl
      obtain ⟨l, hl, hmutex, hself, -, hother⟩ :=
        (h.lock r.pf).go (Or.inl hphase) (hblocked r hr)
      simp only [hpc, hl, bind, Except.bind, pure, Except.pure, Except.ok.injEq] at hstep
      rw [← hstep]
      have hold : (σ.pc t).holds = some r.pf := by rw [hpc]; rfl
      rcases hself hphase with hself | hself
      · rw [hself, if_neg nofun]
        exact h.locked ht (Or.inl hold) (Or.inl rfl) rfl hmutex (hself.trans (if_pos rfl).symm) hother
      · rw [hself, if_pos rfl]
        exact h.locked ht (Or.inl hold) (Or.inl rfl) rfl hmutex (hself.trans (if_pos rfl).symm) hother
  | page r =>
      rw [hpc] at hstep
      by_cases hcnt : r.pgCnt = 0
      · simp only [hcnt, if_true, pure, Except.pure, Except.ok.injEq] at hstep
        rw [← hstep]
        exact h.goto (.unlock r) ht rfl rfl (fun _ => rfl) (by rw [hpc]; rfl) (by rw [hpc]; rfl)
          nofun nofun
      · simp only [hcnt, if_false] at hstep
        have hscans : σ.scans t = some r.pf := by
          rw [PageState.scans, hpc]
          exact if_neg hcnt
        cases hk : bitmapScan (σ.frames.pools.pool r.pf).poolBitmap 1 with
        | error e => simp only [hk, bind, Except.bind, reduceCtorEq] at hstep
        | ok k =>
            simp only [hk, bind, Except.bind, pure, Except.pure, Except.ok.injEq] at hstep
            rw [← hstep]
            by_cases hfull : k = -1
            · rw [if_pos hfull]
              exact h.goto (.unlock r) ht rfl rfl (fun _ => rfl) (by rw [hpc]; rfl)
                (by rw [hpc]; rfl) nofun nofun
            · rw [if_neg hfull]
              exact h.scanned (.take r k.toNat) ht hscans hapart hk rfl (by rw [hpc]; rfl)
                (by rw [hpc]; rfl)
  | take r bitIdx =>
      have hfound : (σ.pc t).found = some (r.pf, bitIdx) := by rw [hpc]; rfl
      simp only [hpc] at hstep
      cases htake : σ.frames.take r.pf bitIdx with
      | error e => simp only [htake, bind, Except.bind, reduceCtorEq] at hstep
      | ok a =>
          simp only [htake, bind, Except.bind, pure, Except.pure, Except.ok.injEq] at hstep
          rw [← hstep]
          exact h.took (.map r a.1) ht hfound htake rfl rfl (fun _ => rfl)
            (by rw [hpc]; rfl) (by rw [hpc]; rfl) rfl
  | map r a => exact h.map hok hpc hstep'
  | takeTable r a bitIdx => exact h.takeTable ht hpc hstep'
  | unlock r =>
      have hr : (σ.pc t).request = some r := by rw [hpc]; rfl
      have hphase : (σ.lock r.pf).phase t = .inside := by rw [h.phase_self hr, hpc]; rfl
      obtain ⟨l, hl, hmutex, hself, hother⟩ := (h.lock r.pf).release hphase
      simp only [hpc, hl, bind, Except.bind, pure, Except.pure, Except.ok.injEq] at hstep
      rw [← hstep]
      have hold : (σ.pc t).holds = some r.pf := by rw [hpc]; rfl
      exact h.locked ht (Or.inl hold) (Or.inl rfl) rfl hmutex (hself.trans (if_pos rfl).symm) hother
  | release r =>
      have hr : (σ.pc t).request = some r := by rw [hpc]; rfl
      have hphase : (σ.lock r.pf).phase t = .releasing := by rw [h.phase_self hr, hpc]; rfl
      obtain ⟨l, hl, hmutex, -, hself, hother⟩ :=
        (h.lock r.pf).go (Or.inr hphase) (hblocked r hr)
      simp only [hpc, hl, bind, Except.bind, pure, Except.pure, Except.ok.injEq] at hstep
      rw [← hstep]
      have hold : (σ.pc t).holds = some r.pf := by rw [hpc]; rfl
      rcases hself hphase with hself | hself
      · rw [hself, if_neg nofun]
        exact h.locked ht (Or.inl hold) (Or.inl rfl) rfl hmutex (hself.trans (if_pos rfl).symm) hother
      · rw [hself, if_pos rfl]
        exact h.locked ht (Or.inl hold) (Or.inr rfl) rfl hmutex hself hother

/-- A task calls one of the functions. -/
theorem PageInv.start (h : PageInv allMem n σ) (ht : t < n) (hpc : σ.pc t = .outside)
    (hstep : pageStep σ (.start t r) = .ok τ) : PageInv allMem n τ := by
  have hphase : (σ.lock r.pf).phase t = .free := by
    rw [h.phase, hpc]
    rfl
  obtain ⟨l, hl, hmutex, hself, hother⟩ := (h.lock r.pf).acquire hphase
  simp only [pageStep, hl, bind, Except.bind, pure, Except.pure, Except.ok.injEq] at hstep
  rw [← hstep]
  exact h.locked ht (Or.inr hpc) (Or.inl rfl) rfl hmutex (hself.trans (if_pos rfl).symm) hother

/-- The locks are initialised, no task is in a call, and the bits that are set are those of
the frames that were handed out. -/
structure PageState.Idle (allMem : UInt32) (σ : PageState) : Prop where
  tracked : Tracked allMem σ.frames
  lock : ∀ pf, σ.lock pf = lockUnused
  outside : ∀ t, σ.pc t = .outside

theorem PageState.Idle.inv (h : σ.Idle allMem) (n : Nat) : PageInv allMem n σ where
  tracked := h.tracked
  lock pf := h.lock pf ▸ lockUnused_mutex
  small t _ := h.outside t
  phase pf t := by
    rw [h.lock, h.outside]
    rfl
  clear t pf i hfound := by
    rw [h.outside] at hfound
    cases hfound
  one t u pf i j hfound := by
    rw [h.outside] at hfound
    cases hfound

/-- Over every run whose steps meet the condition, the frames of `kernel_pool` that were
handed out are different. -/
theorem kernelFrames_distinct (h : σ.Idle allMem)
    (hrun : Reach pageStep (pageCallApart n) σ τ) : τ.kernelFrames.Nodup := by
  have hτ : PageInv allMem n τ := by
    refine hrun.invariant (h.inv n) fun σ c τ hσ hok hstep => ?_
    cases c with
    | start t r => exact hσ.start hok.1.1 hok.1.2 hstep
    | go t => exact hσ.go hok hstep
  exact hτ.tracked.distinct.sublist (List.filter_sublist.map Prod.snd)

instance (n : Nat) (σ : PageState) : DecidablePred (pageCall n σ)
  | .start t _ => inferInstanceAs (Decidable (t < n ∧ σ.pc t = .outside))
  | .go t =>
      match h : (σ.pc t).request with
      | none => decidable_of_iff (t < n ∧ σ.pc t ≠ .outside)
          ⟨fun hgo => ⟨hgo.1, hgo.2, fun r hr => nomatch (h.symm.trans hr)⟩,
            fun hgo => ⟨hgo.1, hgo.2.1⟩⟩
      | some r => decidable_of_iff
          (t < n ∧ σ.pc t ≠ .outside ∧ ((σ.lock r.pf).thread t).blocked = false)
          ⟨fun hgo => ⟨hgo.1, hgo.2.1, fun q hq => by
              rw [h, Option.some.injEq] at hq
              exact hq ▸ hgo.2.2⟩,
            fun hgo => ⟨hgo.1, hgo.2.1, hgo.2.2 r h⟩⟩

instance (n : Nat) (σ : PageState) : DecidablePred (pageCallApart n σ)
  | .start t r => inferInstanceAs (Decidable (pageCall n σ (.start t r) ∧ True))
  | .go t => inferInstanceAs (Decidable (pageCall n σ (.go t) ∧
      (σ.scans t = some .pfKernel → ∀ u, u < n →
        (σ.pc u).found.map Prod.fst = some .pfKernel → (σ.pc u).holds = (σ.pc t).holds)))

/-- Memory of 32 MiB of which only the kernel's page tables are there. -/
def pagesIdle : PageState where
  frames := ⟨memPoolInit 0x2000000, []⟩
  lock _ := lockUnused
  pgdir t := t
  pde d idx := if d = none ∧ 768 ≤ idx then some 0x101000 else none
  pte _ _ := none
  pc _ := .outside

theorem pagesIdle_idle : pagesIdle.Idle 0x2000000 :=
  ⟨memPoolInit_tracked (by decide), fun _ => rfl, fun _ => rfl⟩

/-- A page of the kernel and, afterwards, one of a process with its page table. -/
theorem kernelFrames_distinct_two : ∃ τ, Reach pageStep (pageCallApart 2) pagesIdle τ ∧
    τ.kernelFrames.Nodup ∧ τ.kernelFrames = [0x201000, 0x200000] := by
  obtain ⟨τ, hrun, hτ⟩ := exists_reach pageStep (pageCallApart 2) pagesIdle
    (.start 0 ⟨.pfKernel, 0xc0100000, 1⟩ :: List.replicate 16 (.go 0) ++
      .start 1 ⟨.pfUser, 0x8048000, 1⟩ :: List.replicate 12 (.go 1))
    (fun τ => τ.kernelFrames = [0x201000, 0x200000])
    (by decide +kernel) (by decide +kernel)
  exact ⟨τ, hrun, kernelFrames_distinct pagesIdle_idle hrun, hτ⟩

/-- A page of the kernel and the page table of a process get one frame. -/
theorem kernelFrames_equal :
    ∃ τ, Reach pageStep (pageCall 2) pagesIdle τ ∧ ¬τ.kernelFrames.Nodup := by
  obtain ⟨τ, hrun, hτ⟩ := exists_reach pageStep (pageCall 2) pagesIdle
    (.start 0 ⟨.pfKernel, 0xc0100000, 1⟩ :: List.replicate 6 (.go 0) ++
      .start 1 ⟨.pfUser, 0x8048000, 1⟩ :: List.replicate 9 (.go 1) ++ [.go 0])
    (fun τ => ¬τ.kernelFrames.Nodup)
    (by decide +kernel) (by decide +kernel)
  exact ⟨τ, hrun, hτ⟩

end

end OsTruth
