/-
The heaps of a process and of its child, from `userprog/fork.c`.

`sys_fork` copies every page of the parent and its array of descriptors, and then
initialises the array of the child.  So the child has arenas whose `desc` points into the
array of its parent.  The arrays lie in the kernel, where both processes reach them; the
blocks, which hold the links of free ones, lie in the pages of each.
-/
import OsTruth.Kernel.HeapRun

namespace OsTruth

open Fallible Runs

inductive ForkSide
  | parent
  | child
  deriving DecidableEq

/-- A process with the blocks that it allocated and those that it got with the copy. -/
structure HeapProc where
  task : HeapTask
  inherited : List (Nat × Nat)

/-- Both processes.  What each reaches of the kernel is the same. -/
structure Forked where
  proc : ForkSide → HeapProc

/-- The links of the ends of lists, which lie in the kernel, are those of `k`. -/
def seeEnds (m k : Links HeapNode) : Links HeapNode where
  next x := match x with
    | .head _ | .tail _ => k.next x
    | x => m.next x
  prev x := match x with
    | .head _ | .tail _ => k.prev x
    | x => m.prev x

/-- The process sees what another one wrote in the kernel. -/
def HeapProc.see (p : HeapProc) (k : Links HeapNode) : HeapProc :=
  { p with task := ⟨p.task.heap.setLinks (seeEnds p.task.heap.links k), p.task.live⟩ }

/-- `sys_fork` of the process `π`.  The array of the child is array `o`. -/
def HeapTask.fork (π : HeapTask) (o : Nat) : Forked where
  proc
    | .parent => ⟨⟨π.heap.setLinks (blockDescInit π.heap.links o), π.live⟩, []⟩
    | .child => ⟨⟨{ π.heap.setLinks (blockDescInit π.heap.links o) with owner := o }, []⟩, π.live⟩

def forkedStep (σ : Forked) (c : ForkSide × HeapCall) : Except Fault Forked := do
  let t ← heapStep (σ.proc c.1).task c.2
  let inherited := match c.2 with
    | .sysFree ptr => (σ.proc c.1).inherited.filter fun x => x.1 ≠ ptr
    | _ => (σ.proc c.1).inherited
  pure ⟨fun s => if s = c.1 then ⟨t, inherited⟩ else (σ.proc s).see t.heap.links⟩

/-- At most 1024 bytes are requested, and only a block of the process is freed. -/
def forkedCall (σ : Forked) (c : ForkSide × HeapCall) : Prop :=
  match c.2 with
  | .sysMalloc size => 1 ≤ size ∧ size ≤ 1024
  | .sysFree ptr =>
      ptr ∈ (σ.proc c.1).task.live.map Prod.fst ∨ ptr ∈ (σ.proc c.1).inherited.map Prod.fst
  | .write _ _ _ => False

/-- No block is freed that the process got with the copy. -/
def forkedCallOwn (σ : Forked) (c : ForkSide × HeapCall) : Prop :=
  forkedCall σ c ∧
    match c.2 with
    | .sysFree ptr => ptr ∉ (σ.proc c.1).inherited.map Prod.fst
    | _ => True

/-! ## The property -/

def HeapProc.HasLists (p : HeapProc) (free : Fin 7 → List Nat) : Prop :=
  ∀ k, Links.Holds p.task.heap.links (.head ⟨p.task.heap.owner, k⟩)
    (.tail ⟨p.task.heap.owner, k⟩) ((free k).map .block)

/-- The counter of every arena is the number of its blocks on the free lists of the
process. -/
def HeapProc.Counts (p : HeapProc) (free : Fin 7 → List Nat) : Prop :=
  ∀ q a, p.task.heap.arena q = some a →
    ∃ d, a.desc = some d ∧ a.cnt = (freeBlocks free q d.idx).card

def Forked.Right (σ : Forked) : Prop :=
  ∀ s, ∃ free, (σ.proc s).HasLists free ∧ (σ.proc s).Counts free

/-! ## The invariant -/

def HeapNode.IsEnd : HeapNode → Prop
  | .head _ | .tail _ => True
  | _ => False

structure ForkedInv (σ : Forked) : Prop where
  inv : ∀ s, ∃ free, HeapInv (σ.proc s).task.heap (σ.proc s).task.live free
  owner : ∀ s s', s ≠ s' → (σ.proc s).task.heap.owner ≠ (σ.proc s').task.heap.owner
  ends : ∀ s s' x, HeapNode.IsEnd x →
    (σ.proc s).task.heap.links.next x = (σ.proc s').task.heap.links.next x ∧
      (σ.proc s).task.heap.links.prev x = (σ.proc s').task.heap.links.prev x

section

variable {σ τ : Forked} {s s' : ForkSide} {c : HeapCall} {m k : Links HeapNode}
  {free : Fin 7 → List Nat} {h h' : Heap} {live : List (Nat × Nat)} {o : Nat} {t : HeapTask}

/-- Ends in the array of this process have the links that another process left alone. -/
theorem Frees.see (hf : Frees m o free) (hends : ∀ x, HeapNode.IsEnd x → ¬Foreign o x →
    k.next x = m.next x ∧ k.prev x = m.prev x) : Frees (seeEnds m k) o free := by
  refine hf.congr (fun d x hd hx => ?_) fun _ _ _ => ⟨rfl, rfl⟩
  rcases hx with rfl | rfl
  · exact hends (.head d) True.intro fun hne => hne hd
  · exact hends (.tail d) True.intro fun hne => hne hd

/-- The lists of one process after a call of the other. -/
theorem ForkedInv.other (hi : ForkedInv σ) (hs : s' ≠ s)
    (hframed : (σ.proc s).task.heap.Framed h') (x : HeapNode) (hend : HeapNode.IsEnd x)
    (hown : ¬Foreign (σ.proc s').task.heap.owner x) :
    h'.links.next x = (σ.proc s').task.heap.links.next x ∧
      h'.links.prev x = (σ.proc s').task.heap.links.prev x := by
  have hforeign : Foreign (σ.proc s).task.heap.owner x := by
    have howner := hi.owner s s' hs.symm
    cases x with
    | head d =>
        intro hd
        exact hown fun hne => howner (hd.symm.trans hne)
    | tail d =>
        intro hd
        exact hown fun hne => howner (hd.symm.trans hne)
    | _ => exact hend.elim
  obtain ⟨hnext, hprev⟩ := hframed.foreign x hforeign
  obtain ⟨hnext', hprev'⟩ := hi.ends s s' x hend
  exact ⟨hnext.trans hnext', hprev.trans hprev'⟩

/-- What a call of a process on blocks that it allocated itself leaves. -/
structure ForkedWent (σ : Forked) (s : ForkSide) (τ : Forked) (t : HeapTask) : Prop where
  framed : (σ.proc s).task.heap.Framed t.heap
  inv : ∃ free, HeapInv t.heap t.live free
  self : (τ.proc s).task = t
  other : ∀ s', s' ≠ s → τ.proc s' = (σ.proc s').see t.heap.links

theorem ForkedInv.went (hi : ForkedInv σ) (hok : forkedCallOwn σ (s, c))
    (hstep : forkedStep σ (s, c) = .ok τ) : ∃ t, ForkedWent σ s τ t := by
  obtain ⟨free, hinv⟩ := hi.inv s
  have hcall : heapCall (σ.proc s).task c := by
    cases c with
    | sysMalloc size => exact hok.1
    | sysFree ptr => exact hok.1.resolve_right hok.2
    | write ptr size c => exact hok.1.elim
  cases ht : heapStep (σ.proc s).task c with
  | error e => simp only [forkedStep, ht, bind, Except.bind, reduceCtorEq] at hstep
  | ok t =>
      obtain ⟨hframed, hinv'⟩ := hinv.step hcall ht
      simp only [forkedStep, ht, bind, Except.bind, pure, Except.pure, Except.ok.injEq] at hstep
      refine ⟨t, hframed, hinv', ?_, fun s' hs' => ?_⟩
      · rw [← hstep]
        simp only [if_true]
      · rw [← hstep]
        exact if_neg hs'

theorem ForkedWent.owner (hw : ForkedWent σ s τ t) (s' : ForkSide) :
    (τ.proc s').task.heap.owner = (σ.proc s').task.heap.owner := by
  by_cases hs' : s' = s
  · rw [hs', hw.self]
    exact hw.framed.owner
  · rw [hw.other s' hs']
    rfl

/-- All processes see the same ends. -/
theorem ForkedWent.ends (hw : ForkedWent σ s τ t) (s' : ForkSide) {x : HeapNode}
    (hx : HeapNode.IsEnd x) : (τ.proc s').task.heap.links.next x = t.heap.links.next x ∧
      (τ.proc s').task.heap.links.prev x = t.heap.links.prev x := by
  by_cases hs' : s' = s
  · rw [hs', hw.self]
    exact ⟨rfl, rfl⟩
  · rw [hw.other s' hs']
    cases x with
    | head d => exact ⟨rfl, rfl⟩
    | tail d => exact ⟨rfl, rfl⟩
    | _ => exact hx.elim

/-- A call of a process on blocks that it allocated itself. -/
theorem ForkedInv.step (hi : ForkedInv σ) (hw : ForkedWent σ s τ t) : ForkedInv τ := by
  refine ⟨fun s' => ?_, fun s' s'' hne => ?_, fun s' s'' x hx => ?_⟩
  · by_cases hs' : s' = s
    · rw [hs', hw.self]
      exact hw.inv
    · obtain ⟨free, hinv⟩ := hi.inv s'
      rw [hw.other s' hs']
      exact ⟨free, hinv.core.setLinks (hinv.core.lists.see fun x hx hown =>
        hi.other hs' hw.framed x hx hown), hinv.used⟩
  · rw [hw.owner, hw.owner]
    exact hi.owner s' s'' hne
  · exact ⟨(hw.ends s' hx).1.trans (hw.ends s'' hx).1.symm,
      (hw.ends s' hx).2.trans (hw.ends s'' hx).2.symm⟩

/-- It leaves the lists of the other process alone. -/
theorem ForkedInv.hasLists (hi : ForkedInv σ) (hw : ForkedWent σ s τ t) (hs' : s' ≠ s)
    (hl : (σ.proc s').HasLists free) : (τ.proc s').HasLists free := by
  intro k
  have hholds := hl k
  rw [hw.owner s']
  have hsame : ∀ x, x ∈ Links.nodes (.head ⟨(σ.proc s').task.heap.owner, k⟩)
      (.tail ⟨(σ.proc s').task.heap.owner, k⟩) ((free k).map HeapNode.block) →
      (τ.proc s').task.heap.links.next x = (σ.proc s').task.heap.links.next x ∧
        (τ.proc s').task.heap.links.prev x = (σ.proc s').task.heap.links.prev x := by
    intro x hx
    have hend : HeapNode.IsEnd x → (τ.proc s').task.heap.links.next x =
        (σ.proc s').task.heap.links.next x ∧ (τ.proc s').task.heap.links.prev x =
          (σ.proc s').task.heap.links.prev x := by
      intro hx'
      obtain ⟨hnext, hprev⟩ := hi.other hs' hw.framed x hx' (not_foreign_of_mem hx)
      exact ⟨(hw.ends s' hx').1.trans hnext, (hw.ends s' hx').2.trans hprev⟩
    rcases mem_freeNodes.mp hx with rfl | ⟨b, -, rfl⟩ | rfl
    · exact hend True.intro
    · rw [hw.other s' hs']
      exact ⟨rfl, rfl⟩
    · exact hend True.intro
  exact hholds.congr (fun x hx => (hsame x hx).1) fun x hx => (hsame x hx).2

/-- The lists and the counters that the invariant speaks of. -/
theorem HeapInv.counts {p : HeapProc} (hi : HeapInv p.task.heap live free) :
    p.HasLists free ∧ p.Counts free := by
  have hc := hi.core
  refine ⟨fun k => hc.lists.holds k, fun q a ha => ?_⟩
  obtain ⟨-, d, hd, hzero⟩ := hc.small q a ha
  refine ⟨d, hd, ?_⟩
  by_cases howner : d.owner = p.task.heap.owner
  · refine hc.cnt q d.idx a ha ?_
    rw [hd, ← howner]
  · -- No block of a foreign arena is on a list of the process.
    rw [hzero howner]
    refine (Finset.card_eq_zero.mpr (Finset.filter_eq_empty_iff.mpr fun i hi hmem => ?_)).symm
    obtain ⟨q', j, ⟨a', ha', hd'⟩, hj, heq⟩ := hc.freeBlock d.idx _ hmem
    have hqq : q' = q := by
      rw [← block2arena_arena2block (hc.aligned ha').1 hj, ← heq,
        block2arena_arena2block (hc.aligned ha).1 (Finset.mem_range.mp hi)]
    rw [hqq, ha, Option.some.injEq] at ha'
    rw [← ha', hd, Option.some.injEq] at hd'
    exact howner (congrArg DescPtr.owner hd')

/-- The state after `sys_fork` of a process of which all blocks are in use. -/
theorem HeapInv.fork {π : HeapTask} (hi : HeapInv π.heap π.live free) (hown : π.heap.Own)
    (hcnt : ∀ p a, π.heap.arena p = some a → a.cnt = 0) (ho : o ≠ π.heap.owner) :
    ForkedInv (π.fork o) := by
  obtain ⟨-, hrest⟩ := blockDescInit_fold o (List.finRange 7) π.heap.links
  have hc := hi.core
  have hnone : ∀ {p : Nat} {k : Fin 7} {a : Arena}, π.heap.arena p = some a →
      a.desc ≠ some ⟨o, k⟩ := by
    intro p k a ha hd
    obtain ⟨l, hl⟩ := hown p a ha
    rw [hl, Option.some.injEq, DescPtr.mk.injEq] at hd
    exact ho hd.1.symm
  refine ⟨fun s => ?_, fun s s' hne => ?_, fun s s' x _ => ?_⟩
  · cases s with
    | parent =>
        refine ⟨free, hc.setLinks (hc.lists.congr (fun d x hd hx => ?_) fun k b _ => ?_), hi.used⟩
        · refine hrest x fun k => ⟨fun heq => ?_, fun heq => ?_⟩
          · rcases hx with rfl | rfl
            · exact ho (by rw [← hd, HeapNode.head.inj heq])
            · cases heq
          · rcases hx with rfl | rfl
            · cases heq
            · exact ho (by rw [← hd, HeapNode.tail.inj heq])
        · exact hrest (.block b) fun k => ⟨nofun, nofun⟩
    | child =>
        refine ⟨fun _ => [], ⟨(blockDescInit_frees π.heap.links o).1, hc.start, hc.space, hc.kernel,
          fun p a ha => ?_, hc.page, fun p k a ha hd => absurd hd (hnone ha),
          fun _ _ hb => absurd hb List.not_mem_nil, fun _ _ hb => absurd hb List.not_mem_nil,
          List.nodup_nil, fun p k i hp _ => ?_⟩, fun p k a _ ha hd => absurd hd (hnone ha)⟩
        · obtain ⟨hlarge, d, hd, -⟩ := hc.small p a ha
          exact ⟨hlarge, d, hd, fun _ => hcnt p a ha⟩
        · obtain ⟨a, ha, hd⟩ := hp
          exact absurd hd (hnone ha)
  · cases s with
    | parent =>
        cases s' with
        | parent => exact absurd rfl hne
        | child => exact Ne.symm ho
    | child =>
        cases s' with
        | parent => exact ho
        | child => exact absurd rfl hne
  · cases s <;> cases s' <;> exact ⟨rfl, rfl⟩

/-- After a fork with all blocks in use, and over every run in which no process frees a
block that it got with the copy, the counters are right, a call of one process leaves the
lists of the other alone, and freeing succeeds. -/
theorem forkedRight_of_run {π : HeapTask} (hs : h.Start)
    (hparent : Reach heapStep heapCall h.init π)
    (hcnt : ∀ p a, π.heap.arena p = some a → a.cnt = 0) (ho : o ≠ π.heap.owner)
    (hrun : Reach forkedStep forkedCallOwn (π.fork o) τ) :
    τ.Right ∧
      (∀ s c υ, forkedCallOwn τ (s, c) → forkedStep τ (s, c) = .ok υ →
        ∀ s', s' ≠ s → ∀ free, (τ.proc s').HasLists free → (υ.proc s').HasLists free) ∧
      ∀ s ptr, forkedCallOwn τ (s, .sysFree ptr) → ∃ υ, forkedStep τ (s, .sysFree ptr) = .ok υ := by
  obtain ⟨⟨free, hi⟩, hown⟩ := heapInv_of_run hs hparent
  have hτ : ForkedInv τ := by
    refine hrun.invariant (hi.fork hown hcnt ho) ?_
    rintro σ ⟨s, c⟩ τ hσ hok hstep
    obtain ⟨t, hw⟩ := hσ.went hok hstep
    exact hσ.step hw
  refine ⟨fun s => ?_, fun s c υ hok hstep s' hs' free hl => ?_, fun s ptr hok => ?_⟩
  · obtain ⟨free, hinv⟩ := hτ.inv s
    exact ⟨free, hinv.counts⟩
  · obtain ⟨t, hw⟩ := hτ.went hok hstep
    exact hτ.hasLists hw hs' hl
  · obtain ⟨free, hinv⟩ := hτ.inv s
    obtain ⟨υ, hυ⟩ := hinv.frees (hok.1.resolve_right hok.2)
    exact ⟨_, by simp only [forkedStep, hυ, bind, Except.bind, pure, Except.pure]; rfl⟩

instance (σ : Forked) : DecidablePred (forkedCall σ)
  | (_, .sysMalloc size) => inferInstanceAs (Decidable (1 ≤ size ∧ size ≤ 1024))
  | (s, .sysFree ptr) => inferInstanceAs (Decidable
      (ptr ∈ (σ.proc s).task.live.map Prod.fst ∨ ptr ∈ (σ.proc s).inherited.map Prod.fst))
  | (_, .write _ _ _) => inferInstanceAs (Decidable False)

instance (σ : Forked) : DecidablePred (forkedCallOwn σ)
  | (s, .sysMalloc size) =>
      inferInstanceAs (Decidable (forkedCall σ (s, .sysMalloc size) ∧ True))
  | (s, .sysFree ptr) => inferInstanceAs (Decidable
      (forkedCall σ (s, .sysFree ptr) ∧ ptr ∉ (σ.proc s).inherited.map Prod.fst))
  | (s, .write ptr size c) =>
      inferInstanceAs (Decidable (forkedCall σ (s, .write ptr size c) ∧ True))

def procHeap : Heap := { kernelHeap with kernel := false, vaddrStart := 0x8048000 }

theorem procHeap_start : procHeap.Start where
  arena _ := rfl
  start := by decide
  space := by decide
  kernel := nofun

/-- A process with so many blocks of 1024 bytes. -/
def procTask (n : Nat) : HeapTask :=
  final heapStep procHeap.init (List.replicate n (.sysMalloc 1024))

/-- The three blocks of an arena are in use. -/
theorem procTask_cnt : ∀ p a, (procTask 3).heap.arena p = some a → a.cnt = 0 := by
  have hrun : Reach heapStep heapCall procHeap.init (procTask 3) := reach_final (by decide +kernel)
  obtain ⟨⟨free, hi⟩, -⟩ := heapInv_of_run procHeap_start hrun
  have hstart : (procTask 3).heap.vaddrStart = 0x8048000 ∧
      (procTask 3).heap.vaddrBitmap.btmpBytesLen = 4 := by decide +kernel
  have hall : ∀ i, i < 32 → ((procTask 3).heap.arena (0x8048000 + i * pgSize)).all
      (fun a => a.cnt = 0) = true := by decide +kernel
  intro p a ha
  obtain ⟨i, hi, hp, -⟩ := hi.core.page p a ha
  rw [hstart.2] at hi
  rw [hstart.1] at hp
  have hcnt := hall i hi
  rw [← hp, ha, Option.all_some, decide_eq_true_iff] at hcnt
  exact hcnt

/-- The child allocates and frees a block of its own, and the parent frees one. -/
theorem forkedRight_own : ∃ τ, Reach forkedStep forkedCallOwn ((procTask 3).fork 1) τ ∧
    (τ.Right ∧
      (∀ s c υ, forkedCallOwn τ (s, c) → forkedStep τ (s, c) = .ok υ →
        ∀ s', s' ≠ s → ∀ free, (τ.proc s').HasLists free → (υ.proc s').HasLists free) ∧
      ∀ s ptr, forkedCallOwn τ (s, .sysFree ptr) →
        ∃ υ, forkedStep τ (s, .sysFree ptr) = .ok υ) ∧
    (τ.proc .parent).task.live.map Prod.fst = [0x804840c, 0x804800c] ∧
    (τ.proc .child).task.live.map Prod.fst = [0x804940c] := by
  obtain ⟨τ, hrun, hτ⟩ := exists_reach forkedStep forkedCallOwn ((procTask 3).fork 1)
    [(.child, .sysMalloc 1000), (.child, .sysMalloc 900), (.child, .sysFree 0x804900c),
      (.parent, .sysFree 0x804880c)]
    (fun τ => (τ.proc .parent).task.live.map Prod.fst = [0x804840c, 0x804800c] ∧
      (τ.proc .child).task.live.map Prod.fst = [0x804940c])
    (by decide +kernel) (by decide +kernel)
  have hparent : Reach heapStep heapCall procHeap.init (procTask 3) := reach_final (by decide +kernel)
  have howner : 1 ≠ (procTask 3).heap.owner := by decide +kernel
  exact ⟨τ, hrun, forkedRight_of_run procHeap_start hparent procTask_cnt howner hrun, hτ⟩

/-- The child frees a block that it got with the copy.  The arena is free again in the
child, and with it the two free blocks go from the list of the parent. -/
theorem forked_wrong : Reach heapStep heapCall procHeap.init (procTask 1) ∧
    ∃ τ, Reach forkedStep forkedCall ((procTask 1).fork 1) τ ∧ ¬τ.Right := by
  refine ⟨reach_final (by decide +kernel), ?_⟩
  obtain ⟨τ, hrun, hempty, hcnt⟩ := exists_reach forkedStep forkedCall ((procTask 1).fork 1)
    [(.child, .sysFree 0x804800c)]
    (fun τ => (∀ k, listEmpty (τ.proc .parent).task.heap.links
        (DescPtr.freeList ⟨(τ.proc .parent).task.heap.owner, k⟩) = true) ∧
      (((τ.proc .parent).task.heap.arena 0x8048000).map Arena.cnt) = some 2)
    (by decide +kernel) (by decide +kernel)
  refine ⟨τ, hrun, fun hright => ?_⟩
  obtain ⟨free, hlists, hcounts⟩ := hright .parent
  have hnil : ∀ k, free k = [] := by
    intro k
    have hnext := (hlists k).next_eq
    rw [List.map_eq_nil_iff] at hnext
    exact hnext.mp (decide_eq_true_iff.mp (hempty k))
  obtain ⟨a, ha, ha2⟩ := Option.map_eq_some_iff.mp hcnt
  obtain ⟨d, -, hcard⟩ := hcounts _ a ha
  have hnone : freeBlocks free 0x8048000 d.idx = ∅ := Finset.filter_eq_empty_iff.mpr fun i _ hmem => by
    rw [hnil] at hmem
    exact List.not_mem_nil hmem
  rw [hnone, ha2] at hcard
  cases hcard

end

end OsTruth
