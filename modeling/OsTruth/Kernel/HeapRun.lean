/-
Runs of `sys_malloc` and `sys_free`, from `block_desc_init` on.

`HeapRight` is what a run keeps: the blocks in use do not overlap and lie where they
should, the free lists hold the other blocks, and a page is an arena as long as one of its
blocks is in use.
-/
import OsTruth.Kernel.HeapCalls

namespace OsTruth

open Fallible Runs

def Heap.lengthOf (h : Heap) (b : Nat) : Nat :=
  match h.arena (block2arena b) with
  | some ⟨some d, _, _⟩ => blockSize d.idx
  | _ => 0

/-- `free` are the free lists. -/
structure HeapRight (σ : HeapTask) (free : Fin 7 → List Nat) : Prop where
  lists : ∀ k, Links.Holds σ.heap.links (.head ⟨σ.heap.owner, k⟩) (.tail ⟨σ.heap.owner, k⟩)
    ((free k).map .block)
  disjoint : σ.live.Pairwise fun x y =>
    x.1 + σ.heap.lengthOf x.1 ≤ y.1 ∨ y.1 + σ.heap.lengthOf y.1 ≤ x.1
  inside : ∀ b s, (b, s) ∈ σ.live → s ≤ σ.heap.lengthOf b ∧ block2arena b + arenaSize ≤ b ∧
    b + σ.heap.lengthOf b ≤ block2arena b + pgSize
  once : ∀ k, (free k).Nodup
  oneList : ∀ j k b, b ∈ free j → b ∈ free k → j = k
  apart : ∀ k b, b ∈ free k → b ∉ σ.live.map Prod.fst
  cnt : ∀ p a, σ.heap.arena p = some a →
    ∃ k, a.desc = some ⟨σ.heap.owner, k⟩ ∧ a.cnt = (freeBlocks free p k).card
  given : ∀ p, (σ.heap.arena p).isSome ↔ ∃ b, b ∈ σ.live.map Prod.fst ∧ block2arena b = p

/-- No arena of another task is there. -/
def Heap.Own (h : Heap) : Prop := ∀ p a, h.arena p = some a → ∃ k, a.desc = some ⟨h.owner, k⟩

section

variable {h h' : Heap} {live : List (Nat × Nat)} {free : Fin 7 → List Nat} {p b i : Nat}
  {k : Fin 7} {σ τ : HeapTask}

theorem Heap.Own.framed (ho : h.Own) (hf : h.Framed h') : h'.Own := by
  intro p a ha
  rw [hf.owner]
  exact (hf.arena p a ha).elim (ho p a) id

theorem lengthOf_block (hp : h.IsArena p k) (hpa : p % pgSize = 0) (hi : i < blocksPerArena k) :
    h.lengthOf (arena2block p k i) = blockSize k := by
  obtain ⟨⟨d, n, l⟩, ha, hd⟩ := hp
  have hd' : d = some ⟨h.owner, k⟩ := hd
  rw [Heap.lengthOf, block2arena_arena2block hpa hi, ha, hd']

theorem HeapInv.right (hi : HeapInv h live free) (ho : h.Own) : HeapRight ⟨h, live⟩ free := by
  have hc := hi.core
  have hblock : ∀ b, b ∈ live.map Prod.fst → ∃ p k i, h.IsArena p k ∧ i < blocksPerArena k ∧
      b = arena2block p k i ∧ p % pgSize = 0 := by
    intro b hb
    obtain ⟨⟨c, s⟩, hlive, rfl⟩ := List.mem_map.mp hb
    obtain ⟨p, k, i, hp, hik, hbi, -⟩ := hc.liveBlock c s hlive
    exact ⟨p, k, i, hp, hik, hbi, (hc.arena_aligned hp).1⟩
  refine ⟨fun k => hc.lists.holds k, ?_, fun b s hb => ?_, hc.lists.nodup,
    fun j k b hj hk => hc.lists.once hj hk, fun k b hb hmem => ?_, fun p a ha => ?_, fun p => ?_⟩
  · refine List.Pairwise.imp_of_mem (R := fun x y : Nat × Nat => x.1 ≠ y.1) ?_
      (List.pairwise_map.mp hc.nodup)
    intro x y hx hy hne
    obtain ⟨p, k, i, hp, hik, hxi, hpa⟩ := hblock x.1 (List.mem_map.mpr ⟨x, hx, rfl⟩)
    obtain ⟨q, l, j, hq, hjl, hyj, hqa⟩ := hblock y.1 (List.mem_map.mpr ⟨y, hy, rfl⟩)
    show x.1 + h.lengthOf x.1 ≤ y.1 ∨ y.1 + h.lengthOf y.1 ≤ x.1
    rw [hxi, hyj, lengthOf_block hp hpa hik, lengthOf_block hq hqa hjl]
    by_cases hpq : p = q
    · subst hpq
      have hkl := isArena_unique hp hq
      subst hkl
      exact arena2block_apart fun hij => hne (by rw [hxi, hyj, hij])
    · obtain ⟨hlo, hhi⟩ := arena2block_lt (p := p) hik
      obtain ⟨hlo', hhi'⟩ := arena2block_lt (p := q) hjl
      have hpg : pgSize = 4096 := rfl
      rw [hpg] at hpa hqa hhi hhi'
      omega
  · obtain ⟨p, k, i, hp, hik, rfl, hs⟩ := hc.liveBlock b s hb
    have hpa := (hc.arena_aligned hp).1
    show s ≤ h.lengthOf _ ∧ _ ∧ _ + h.lengthOf _ ≤ _
    rw [lengthOf_block hp hpa hik, block2arena_arena2block hpa hik]
    exact ⟨hs, arena2block_lt hik⟩
  · obtain ⟨p, i, hp, hik, rfl⟩ := hc.freeBlock k b hb
    exact (hc.part p k i hp hik).mp hb hmem
  · obtain ⟨k, hd⟩ := ho p a ha
    exact ⟨k, hd, hc.cnt p k a ha hd⟩
  · constructor
    · intro hsome
      obtain ⟨a, ha⟩ := Option.isSome_iff_exists.mp hsome
      obtain ⟨k, hd⟩ := ho p a ha
      -- The counter is not full, so one of the blocks is not free.
      have hlt := hi.used p k a id ha hd
      rw [hc.cnt p k a ha hd] at hlt
      have hsome : ∃ i, i < blocksPerArena k ∧ arena2block p k i ∉ free k := by
        by_contra hall
        refine Nat.ne_of_lt hlt ?_
        have hfull : freeBlocks free p k = Finset.range (blocksPerArena k) :=
          Finset.filter_true_of_mem fun i hi => by
            by_contra hmem
            exact hall ⟨i, Finset.mem_range.mp hi, hmem⟩
        rw [hfull, Finset.card_range]
      obtain ⟨i, hik, hnot⟩ := hsome
      refine ⟨arena2block p k i, ?_, block2arena_arena2block (hc.aligned ha).1 hik⟩
      by_contra hmem
      exact hnot ((hc.part p k i ⟨a, ha, hd⟩ hik).mpr hmem)
    · rintro ⟨b, hb, rfl⟩
      obtain ⟨p, k, i, ⟨a, ha, hd⟩, hik, rfl, hpa⟩ := hblock b hb
      show (h.arena _).isSome
      rw [block2arena_arena2block hpa hik, ha]
      rfl

/-- A call keeps the invariant. -/
theorem HeapInv.step {c : HeapCall} (hi : HeapInv σ.heap σ.live free) (hok : heapCall σ c)
    (hstep : heapStep σ c = .ok τ) :
    σ.heap.Framed τ.heap ∧ ∃ free', HeapInv τ.heap τ.live free' := by
  cases c with
  | sysMalloc size =>
      have hens := ensures_iff.mp (sysMalloc_ensures hi hok.2)
      rw [heapStep] at hstep
      cases hrun : (Heap.sysMalloc size).run σ.heap with
      | error e => simp only [hrun, bind, Except.bind, reduceCtorEq] at hstep
      | ok r =>
          obtain ⟨r, h'⟩ := r
          obtain ⟨hframed, hinv⟩ := hens r h' hrun
          simp only [hrun, bind, Except.bind] at hstep
          cases r with
          | none =>
              cases hstep
              exact ⟨hframed, hinv⟩
          | some b =>
              cases hstep
              exact ⟨hframed, hinv⟩
  | sysFree ptr =>
      obtain ⟨u, h', hrun, hframed, hinv⟩ := returns_iff.mp (sysFree_returns hi hok)
      simp only [heapStep, hrun, bind, Except.bind] at hstep
      cases hstep
      exact ⟨hframed, hinv⟩
  | write ptr size c =>
      cases hstep
      obtain ⟨hinv, hframed⟩ := hi.write hok c
      exact ⟨hframed, free, hinv⟩

/-- Freeing a block in use returns. -/
theorem HeapInv.frees (hi : HeapInv σ.heap σ.live free) (hb : b ∈ σ.live.map Prod.fst) :
    ∃ υ, heapStep σ (.sysFree b) = .ok υ := by
  obtain ⟨u, h', hrun, -, -⟩ := returns_iff.mp (sysFree_returns hi hb)
  exact ⟨⟨h', σ.live.filter fun x => x.1 ≠ b⟩, by
    simp only [heapStep, hrun, bind, Except.bind, pure, Except.pure]⟩

end

/-! ## Booting -/

theorem listInit_ends (m : Links HeapNode) (o : Nat) (k : Fin 7) :
    Links.Adj (listInit m (DescPtr.freeList ⟨o, k⟩)) (.head ⟨o, k⟩) (.tail ⟨o, k⟩) ∧
      (∀ x, x ≠ .head ⟨o, k⟩ → (listInit m (DescPtr.freeList ⟨o, k⟩)).next x = m.next x) ∧
      ∀ x, x ≠ .tail ⟨o, k⟩ → (listInit m (DescPtr.freeList ⟨o, k⟩)).prev x = m.prev x :=
  ⟨⟨Function.update_self .., Function.update_self ..⟩, fun _ hx => Function.update_of_ne hx ..,
    fun _ hx => Function.update_of_ne hx ..⟩

/-- The lists that were initialised are empty, and nothing else changed. -/
theorem blockDescInit_fold (o : Nat) : ∀ (l : List (Fin 7)) (m : Links HeapNode),
    (∀ k, k ∈ l ∨ m.Adj (.head ⟨o, k⟩) (.tail ⟨o, k⟩) →
      (l.foldl (fun m k => listInit m (DescPtr.freeList ⟨o, k⟩)) m).Adj (.head ⟨o, k⟩)
        (.tail ⟨o, k⟩)) ∧
    ∀ x, (∀ k, x ≠ .head ⟨o, k⟩ ∧ x ≠ .tail ⟨o, k⟩) →
      (l.foldl (fun m k => listInit m (DescPtr.freeList ⟨o, k⟩)) m).next x = m.next x ∧
        (l.foldl (fun m k => listInit m (DescPtr.freeList ⟨o, k⟩)) m).prev x = m.prev x := by
  intro l
  induction l with
  | nil => exact fun m => ⟨fun k hk => hk.resolve_left List.not_mem_nil, fun _ _ => ⟨rfl, rfl⟩⟩
  | cons j l ih =>
      intro m
      obtain ⟨hadj, hnext, hprev⟩ := listInit_ends m o j
      obtain ⟨hends, hrest⟩ := ih (listInit m (DescPtr.freeList ⟨o, j⟩))
      refine ⟨fun k hk => hends k ?_, fun x hx => ?_⟩
      · by_cases hkj : k = j
        · rw [hkj]
          exact Or.inr hadj
        · rcases hk with hk | hk
          · exact Or.inl ((List.mem_cons.mp hk).resolve_left hkj)
          · refine Or.inr ⟨?_, ?_⟩
            · rw [hnext _ fun heq => hkj (DescPtr.mk.inj (HeapNode.head.inj heq)).2]
              exact hk.1
            · rw [hprev _ fun heq => hkj (DescPtr.mk.inj (HeapNode.tail.inj heq)).2]
              exact hk.2
      · rw [List.foldl_cons, (hrest x hx).1, (hrest x hx).2]
        exact ⟨hnext x (hx j).1, hprev x (hx j).2⟩

theorem blockDescInit_frees (m : Links HeapNode) (o : Nat) :
    Frees (blockDescInit m o) o (fun _ => []) ∧ ForeignSame o m (blockDescInit m o) := by
  obtain ⟨hends, hrest⟩ := blockDescInit_fold o (List.finRange 7) m
  refine ⟨⟨fun k => ⟨?_, ?_⟩, fun j k x hj hk => ?_⟩, fun x hx => hrest x fun k => ⟨?_, ?_⟩⟩
  · exact List.isChain_cons_cons.mpr
      ⟨hends k (Or.inl (List.mem_finRange k)), List.isChain_singleton _⟩
  · exact List.nodup_cons.mpr ⟨fun hmem => (nomatch List.mem_singleton.mp hmem),
      List.nodup_singleton _⟩
  · have hmem : ∀ l : Fin 7, x ∈ Links.nodes (.head ⟨o, l⟩) (.tail ⟨o, l⟩)
        (([] : List Nat).map HeapNode.block) → x = .head ⟨o, l⟩ ∨ x = .tail ⟨o, l⟩ := by
      intro l hl
      rcases mem_freeNodes.mp hl with h | ⟨b, hb, -⟩ | h
      · exact Or.inl h
      · exact absurd hb List.not_mem_nil
      · exact Or.inr h
    rcases hmem j hj with rfl | rfl
    · rcases hmem k hk with h | h
      · exact (DescPtr.mk.inj (HeapNode.head.inj h)).2
      · cases h
    · rcases hmem k hk with h | h
      · cases h
      · exact (DescPtr.mk.inj (HeapNode.tail.inj h)).2
  · rintro rfl
    exact hx rfl
  · rintro rfl
    exact hx rfl

/-- The virtual pages of a task with no arena among them. -/
structure Heap.Start (h : Heap) : Prop where
  arena : ∀ p, h.arena p = none
  start : h.vaddrStart % pgSize = 0
  space : h.vaddrStart + 8 * h.vaddrBitmap.btmpBytesLen * pgSize ≤ 2 ^ 32
  kernel : h.kernel = true → 0xc0100000 ≤ h.vaddrStart

/-- The state after `block_desc_init`. -/
def Heap.init (h : Heap) : HeapTask := ⟨h.setLinks (blockDescInit h.links h.owner), []⟩

section

variable {h : Heap} {σ τ : HeapTask}

theorem Heap.Start.inv (hs : h.Start) : HeapInv h.init.heap h.init.live fun _ => [] := by
  have hnone : ∀ {p : Nat} {a : Arena}, h.arena p ≠ some a := by
    intro p a ha
    rw [hs.arena] at ha
    cases ha
  have harena : ∀ {p : Nat} {k : Fin 7}, ¬(h.init.heap).IsArena p k := fun ⟨_, ha, _⟩ => hnone ha
  refine ⟨⟨(blockDescInit_frees h.links h.owner).1, hs.start, hs.space, hs.kernel,
    fun _ _ ha => absurd ha hnone, fun _ _ ha => absurd ha hnone, fun _ _ _ ha => absurd ha hnone,
    fun _ _ hb => absurd hb List.not_mem_nil, fun _ _ hb => absurd hb List.not_mem_nil,
    List.nodup_nil, fun _ _ _ ha => absurd ha harena⟩, fun _ _ _ _ ha => absurd ha hnone⟩

theorem heapInv_of_run (hs : h.Start) (hrun : Reach heapStep heapCall h.init τ) :
    (∃ free, HeapInv τ.heap τ.live free) ∧ τ.heap.Own := by
  refine hrun.invariant (I := fun σ => (∃ free, HeapInv σ.heap σ.live free) ∧ σ.heap.Own)
    ⟨⟨_, hs.inv⟩, fun p a ha => ?_⟩ ?_
  · have ha' : h.arena p = some a := ha
    rw [hs.arena] at ha'
    cases ha'
  · rintro σ c τ ⟨⟨free, hi⟩, ho⟩ hok hstep
    obtain ⟨hframed, hinv⟩ := hi.step hok hstep
    exact ⟨hinv, ho.framed hframed⟩

/-- Over every run, the heap is as it should be, and freeing a block in use succeeds. -/
theorem heapRight_of_run (hs : h.Start) (hrun : Reach heapStep heapCall h.init τ) :
    (∃ free, HeapRight τ free) ∧
      ∀ b, b ∈ τ.live.map Prod.fst → ∃ υ, heapStep τ (.sysFree b) = .ok υ := by
  obtain ⟨⟨free, hi⟩, ho⟩ := heapInv_of_run hs hrun
  exact ⟨⟨free, hi.right ho⟩, fun b hb => hi.frees hb⟩

instance (σ : HeapTask) : DecidablePred (heapCall σ)
  | .sysMalloc size => inferInstanceAs (Decidable (1 ≤ size ∧ size ≤ 1024))
  | .sysFree ptr => inferInstanceAs (Decidable (ptr ∈ σ.live.map Prod.fst))
  | .write ptr size _ => inferInstanceAs (Decidable ((ptr, size) ∈ σ.live))

def kernelHeap : Heap where
  links := Contents.zero.links
  arena _ := none
  kernel := true
  owner := 0
  vaddrBitmap := ⟨4, fun _ => 0⟩
  vaddrStart := 0xc0100000
  poolSize := 0x1000000
  supply _ := true

theorem kernelHeap_start : kernelHeap.Start where
  arena _ := rfl
  start := by decide
  space := by decide
  kernel _ := by decide

/-- Four blocks of two arenas, of which the one block of the second is freed again. -/
theorem heapRight_arenas : ∃ τ, Reach heapStep heapCall kernelHeap.init τ ∧
    ((∃ free, HeapRight τ free) ∧
      ∀ b, b ∈ τ.live.map Prod.fst → ∃ υ, heapStep τ (.sysFree b) = .ok υ) ∧
    τ.live.map Prod.fst = [0xc010080c, 0xc010040c, 0xc010000c] ∧
    (τ.heap.arena 0xc0101000).isNone = true := by
  obtain ⟨τ, hrun, hτ⟩ := exists_reach heapStep heapCall kernelHeap.init
    [.sysMalloc 1024, .sysMalloc 1000, .sysMalloc 600, .sysMalloc 1000, .sysFree 0xc010100c]
    (fun τ => τ.live.map Prod.fst = [0xc010080c, 0xc010040c, 0xc010000c] ∧
      (τ.heap.arena 0xc0101000).isNone = true)
    (by decide +kernel) (by decide +kernel)
  exact ⟨τ, hrun, heapRight_of_run kernelHeap_start hrun, hτ⟩

end

end OsTruth
