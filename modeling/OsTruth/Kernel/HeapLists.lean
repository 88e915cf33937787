/-
The free lists of a task, and the two loops of `sys_malloc` and `sys_free` that run over
the blocks of an arena.

`Frees m o free` says that the lists of descriptor array `o` hold the addresses `free`.
Each operation also says that the ends of other lists stay: `Foreign` are the ends that
lie in another array of descriptors.
-/
import Mathlib.Data.Finset.Card
import OsTruth.Kernel.Heap

namespace OsTruth

open Fallible

/-! ## Links that an operation leaves alone -/

/-- An end of a list of another array of descriptors. -/
def Foreign (o : Nat) : HeapNode → Prop
  | .head desc | .tail desc => desc.owner ≠ o
  | _ => False

def ForeignSame (o : Nat) (m m' : Links HeapNode) : Prop :=
  ∀ x, Foreign o x → m'.next x = m.next x ∧ m'.prev x = m.prev x

theorem ForeignSame.rfl {o : Nat} {m : Links HeapNode} : ForeignSame o m m :=
  fun _ _ => ⟨Eq.refl _, Eq.refl _⟩

theorem ForeignSame.trans {o : Nat} {m m' m'' : Links HeapNode} (h : ForeignSame o m m')
    (h' : ForeignSame o m' m'') : ForeignSame o m m'' := fun x hx =>
  ⟨(h' x hx).1.trans (h x hx).1, (h' x hx).2.trans (h x hx).2⟩

/-! ## Free lists -/

/-- The free lists of array `o` hold the blocks at these addresses. -/
def Frees (m : Links HeapNode) (o : Nat) (free : Fin 7 → List Nat) : Prop :=
  Links.Lists m (fun k => .head ⟨o, k⟩) (fun k => .tail ⟨o, k⟩) fun k => (free k).map .block

section

variable {m m' : Links HeapNode} {o b : Nat} {free : Fin 7 → List Nat} {k : Fin 7}

/-- A node of a free list is an end of it or a block. -/
theorem mem_freeNodes {x : HeapNode} {xs : List Nat} :
    x ∈ Links.nodes (.head ⟨o, k⟩) (.tail ⟨o, k⟩) (xs.map .block) ↔
      x = .head ⟨o, k⟩ ∨ (∃ b, b ∈ xs ∧ x = .block b) ∨ x = .tail ⟨o, k⟩ := by
  rw [Links.mem_nodes, List.mem_map]
  refine or_congr Iff.rfl (or_congr ⟨?_, ?_⟩ Iff.rfl)
  · rintro ⟨b, hb, rfl⟩
    exact ⟨b, hb, rfl⟩
  · rintro ⟨b, hb, rfl⟩
    exact ⟨b, hb, rfl⟩

theorem block_mem_freeNodes {xs : List Nat} :
    .block b ∈ Links.nodes (.head ⟨o, k⟩) (.tail ⟨o, k⟩) (xs.map HeapNode.block) ↔ b ∈ xs := by
  rw [mem_freeNodes]
  refine ⟨?_, fun hb => Or.inr (Or.inl ⟨b, hb, rfl⟩)⟩
  rintro (h | ⟨c, hc, h⟩ | h)
  · cases h
  · cases h
    exact hc
  · cases h

theorem not_foreign_of_mem {x : HeapNode} {xs : List Nat}
    (hx : x ∈ Links.nodes (.head ⟨o, k⟩) (.tail ⟨o, k⟩) (xs.map .block)) : ¬Foreign o x := by
  rcases mem_freeNodes.mp hx with rfl | ⟨b, -, rfl⟩ | rfl
  · exact fun h => h rfl
  · exact id
  · exact fun h => h rfl

/-- A list changes together with its addresses. -/
theorem Frees.of_update {xs : List Nat}
    (h : Links.Lists m (fun k => .head ⟨o, k⟩) (fun k => .tail ⟨o, k⟩)
      (Function.update (fun k => (free k).map HeapNode.block) k (xs.map .block))) :
    Frees m o (Function.update free k xs) := by
  have heq : Function.update (fun k => (free k).map HeapNode.block) k (xs.map .block) =
      fun j => (Function.update free k xs j).map HeapNode.block := by
    funext j
    by_cases hj : j = k
    · rw [hj, Function.update_self, Function.update_self]
    · rw [Function.update_of_ne hj, Function.update_of_ne hj]
  rw [Frees, ← heq]
  exact h

theorem Frees.nodup (h : Frees m o free) (k : Fin 7) : (free k).Nodup := by
  have hnodup := (List.nodup_cons.mp (h.holds k).nodup).2
  exact (List.nodup_append.mp hnodup).1.of_map

/-- No block is on two lists. -/
theorem Frees.once (h : Frees m o free) {j : Fin 7} (hj : b ∈ free j) (hk : b ∈ free k) : j = k :=
  h.apart j k (.block b) (block_mem_freeNodes.mpr hj) (block_mem_freeNodes.mpr hk)

theorem Frees.congr (h : Frees m o free)
    (hends : ∀ d x, d.owner = o → x = .head d ∨ x = .tail d →
      m'.next x = m.next x ∧ m'.prev x = m.prev x)
    (hblock : ∀ k b, b ∈ free k → m'.next (.block b) = m.next (.block b) ∧
      m'.prev (.block b) = m.prev (.block b)) : Frees m' o free := by
  refine Links.Lists.congr h fun k x hx => ?_
  rcases mem_freeNodes.mp hx with rfl | ⟨b, hb, rfl⟩ | rfl
  · exact hends ⟨o, k⟩ _ rfl (Or.inl rfl)
  · exact hblock k b hb
  · exact hends ⟨o, k⟩ _ rfl (Or.inr rfl)

/-- `list_empty`. -/
theorem Frees.empty (h : Frees m o free) :
    listEmpty m (DescPtr.freeList ⟨o, k⟩) = true ↔ free k = [] := by
  have hnext := (h.holds k).next_eq
  rw [List.map_eq_nil_iff] at hnext
  rw [listEmpty, decide_eq_true_iff]
  exact hnext

/-- `elem_find`, in lists of addresses. -/
theorem Frees.find (h : Frees m o free) (hsmall : ∀ b, b ∈ free k → b < 2 ^ 32) (b : Nat) :
    elemFind m (DescPtr.freeList ⟨o, k⟩) (.block b) listBound = .ok (decide (b ∈ free k)) := by
  have hlen : (free k).length ≤ 2 ^ 32 := by
    have hcard := Finset.card_le_card (s := (free k).toFinset) (t := Finset.range (2 ^ 32))
      fun b hb => Finset.mem_range.mpr (hsmall b (List.mem_toFinset.mp hb))
    rw [List.toFinset_card_of_nodup (h.nodup k), Finset.card_range] at hcard
    exact hcard
  have hwalk := (h.holds k).walk (.block b) listBound
    (by rw [List.length_map]; exact Nat.lt_succ_of_le hlen)
  have hmem : HeapNode.block b ∈ (free k).map HeapNode.block ↔ b ∈ free k := by
    rw [List.mem_map]
    exact ⟨fun ⟨c, hc, heq⟩ => HeapNode.block.inj heq ▸ hc, fun hb => ⟨b, hb, rfl⟩⟩
  rw [decide_eq_decide.mpr hmem] at hwalk
  have hwalk' : m.walk (DescPtr.freeList ⟨o, k⟩).tail (.block b) listBound
      (m.next (DescPtr.freeList ⟨o, k⟩).head) = some (decide (b ∈ free k)) := hwalk
  rw [elemFind, hwalk']

/-- `list_append`. -/
theorem Frees.append (h : Frees m o free) (hb : ∀ j, b ∉ free j) :
    Frees (listAppend m (DescPtr.freeList ⟨o, k⟩) (.block b)) o
        (Function.update free k (free k ++ [b])) ∧
      ForeignSame o m (listAppend m (DescPtr.freeList ⟨o, k⟩) (.block b)) := by
  refine ⟨Frees.of_update ?_, fun x hx => ?_⟩
  · rw [List.map_append]
    exact Links.Lists.append h k fun j hj => hb j (block_mem_freeNodes.mp hj)
  · have hprev := (h.holds k).prev_mem (b := .tail ⟨o, k⟩) (Or.inr rfl)
    have hxp : x ≠ m.prev (.tail ⟨o, k⟩) := by
      rintro rfl
      exact not_foreign_of_mem hprev hx
    have hxb : x ≠ .block b := by
      rintro rfl
      exact hx
    have hxt : x ≠ .tail ⟨o, k⟩ := by
      rintro rfl
      exact hx rfl
    refine ⟨?_, ?_⟩
    · show Function.update (Function.update m.next (m.prev (.tail ⟨o, k⟩)) (.block b)) (.block b)
        (.tail ⟨o, k⟩) x = _
      rw [Function.update_of_ne hxb, Function.update_of_ne hxp]
    · show Function.update (Function.update m.prev (.block b) (m.prev (.tail ⟨o, k⟩)))
        (.tail ⟨o, k⟩) (.block b) x = _
      rw [Function.update_of_ne hxt, Function.update_of_ne hxb]

/-- A removed element leaves the ends of foreign lists alone. -/
theorem Frees.remove_foreign (h : Frees m o free) (hb : b ∈ free k) :
    ForeignSame o m (m.remove (.block b)) := by
  have hmem : HeapNode.block b ∈ (free k).map HeapNode.block := List.mem_map.mpr ⟨b, hb, rfl⟩
  have hprev := (h.holds k).prev_mem (Or.inl hmem)
  have hnext := (h.holds k).next_mem (Or.inr hmem)
  intro x hx
  refine ⟨?_, ?_⟩
  · refine Function.update_of_ne (fun heq => ?_) ..
    rw [heq] at hx
    exact not_foreign_of_mem hprev hx
  · refine Function.update_of_ne (fun heq => ?_) ..
    rw [heq] at hx
    exact not_foreign_of_mem hnext hx

/-- `list_remove`. -/
theorem Frees.erase (h : Frees m o free) (hb : b ∈ free k) :
    Frees (listRemove m (.block b)) o (Function.update free k ((free k).erase b)) ∧
      ForeignSame o m (listRemove m (.block b)) := by
  have hmem : HeapNode.block b ∈ (free k).map HeapNode.block := List.mem_map.mpr ⟨b, hb, rfl⟩
  refine ⟨Frees.of_update ?_, h.remove_foreign hb⟩
  have herase := Links.Lists.erase h hmem
  rw [← List.map_erase (fun _ _ => HeapNode.block.inj)] at herase
  exact herase

/-- `list_pop`. -/
theorem Frees.pop (h : Frees m o free) {rest : List Nat} (hk : free k = b :: rest) :
    ∃ m', listPop m (DescPtr.freeList ⟨o, k⟩) = (.block b, m') ∧
      Frees m' o (Function.update free k rest) ∧ ForeignSame o m m' := by
  have hb : b ∈ free k := hk ▸ List.mem_cons_self
  obtain ⟨hnext, hlists⟩ := Links.Lists.pop h (e := .block b) k (rest.map .block)
    (by rw [hk]; rfl)
  refine ⟨m.remove (.block b), ?_, Frees.of_update hlists, h.remove_foreign hb⟩
  show (m.next (.head ⟨o, k⟩), m.remove (m.next (.head ⟨o, k⟩))) = _
  rw [hnext]

end

/-! ## Where the blocks lie -/

section

variable {p q i j : Nat} {k : Fin 7}

theorem blockSize_le (k : Fin 7) : 16 ≤ blockSize k ∧ blockSize k ≤ 1024 := by
  revert k
  decide

theorem blocksPerArena_le (k : Fin 7) : 0 < blocksPerArena k ∧ blocksPerArena k ≤ 255 := by
  revert k
  decide

/-- The blocks of an arena end within its page. -/
theorem block_fits (hi : i < blocksPerArena k) :
    arenaSize + i * blockSize k + blockSize k ≤ pgSize := by
  have hle : (i + 1) * blockSize k ≤ pgSize - arenaSize :=
    Nat.le_trans (Nat.mul_le_mul_right _ hi) (Nat.div_mul_le_self _ _)
  have hpg : pgSize = 4096 := rfl
  have har : arenaSize = 12 := rfl
  rw [Nat.add_mul, Nat.one_mul] at hle
  omega

theorem arena2block_lt (hi : i < blocksPerArena k) :
    p + arenaSize ≤ arena2block p k i ∧ arena2block p k i + blockSize k ≤ p + pgSize := by
  have hfits := block_fits hi
  unfold arena2block
  omega

theorem block2arena_arena2block (hp : p % pgSize = 0) (hi : i < blocksPerArena k) :
    block2arena (arena2block p k i) = p := by
  obtain ⟨hlo, hhi⟩ := arena2block_lt (p := p) hi
  have hsize := (blockSize_le k).1
  have hpg : pgSize = 4096 := rfl
  rw [hpg] at hp hhi
  unfold block2arena
  rw [hpg]
  omega

/-- Different blocks of an arena do not overlap. -/
theorem arena2block_apart (hij : i ≠ j) :
    arena2block p k i + blockSize k ≤ arena2block p k j ∨
      arena2block p k j + blockSize k ≤ arena2block p k i := by
  unfold arena2block
  rcases Nat.lt_or_gt_of_ne hij with h | h
  · have hle : (i + 1) * blockSize k ≤ j * blockSize k := Nat.mul_le_mul_right _ h
    rw [Nat.add_mul, Nat.one_mul] at hle
    omega
  · have hle : (j + 1) * blockSize k ≤ i * blockSize k := Nat.mul_le_mul_right _ h
    rw [Nat.add_mul, Nat.one_mul] at hle
    omega

theorem arena2block_inj (h : arena2block p k i = arena2block p k j) : i = j := by
  by_contra hij
  have hsize := (blockSize_le k).1
  have hapart := arena2block_apart (p := p) (k := k) hij
  omega

/-- The smallest class for a request of at most 1024 bytes. -/
theorem findDesc_spec {size : Nat} (hsize : size ≤ 1024) :
    ∃ k, Heap.findDesc size = some k ∧ size ≤ blockSize k := by
  cases hfind : Heap.findDesc size with
  | none =>
      have hnone := List.find?_eq_none.mp hfind 6 (List.mem_finRange 6)
      rw [decide_eq_true_iff] at hnone
      exact absurd hsize hnone
  | some k =>
      have hk := List.find?_some (p := fun idx => decide (size ≤ blockSize idx)) hfind
      exact ⟨k, rfl, decide_eq_true_iff.mp hk⟩

end

/-! ## The loops -/

section

variable {h : Heap} {o a : Nat} {k : Fin 7}

theorem returns_hassert {c : Prop} [Decidable c] (hc : c) {Q : Unit → Heap → Prop} (hQ : Q () h) :
    Returns (hassert c) h Q :=
  Wp.lift_ok (if_pos hc) hQ

/-- New blocks are appended to an empty part of the heap. -/
theorem carve_returns (ha : a + pgSize ≤ 2 ^ 32) : ∀ (left idx : Nat) {h : Heap}
    {free : Fin 7 → List Nat}, idx + left ≤ blocksPerArena k → Frees h.links o free →
    (∀ b, b ∈ free k → b < 2 ^ 32) →
    (∀ i, idx ≤ i → i < idx + left → ∀ j, arena2block a k i ∉ free j) →
    Returns (Heap.carve a ⟨o, k⟩ left idx) h (fun _ h' =>
      h' = h.setLinks h'.links ∧ ForeignSame o h.links h'.links ∧
        ∃ free', Frees h'.links o free' ∧ (∀ j, j ≠ k → free' j = free j) ∧
          ∀ b, b ∈ free' k ↔ b ∈ free k ∨ ∃ i, idx ≤ i ∧ i < idx + left ∧ b = arena2block a k i) := by
  intro left
  induction left with
  | zero =>
      intro idx h free _ hfree _ _
      refine Wp.pure.mpr ⟨rfl, .rfl, free, hfree, fun _ _ => rfl, fun b => ?_⟩
      refine ⟨Or.inl, fun hb => hb.resolve_right ?_⟩
      rintro ⟨i, hle, hlt, -⟩
      omega
  | succ left ih =>
      intro idx h free hidx hfree hsmall hnew
      have hb : ∀ j, arena2block a k idx ∉ free j := hnew idx (Nat.le_refl _) (by omega)
      have hfind := hfree.find hsmall (arena2block a k idx)
      rw [decide_eq_false (hb k)] at hfind
      obtain ⟨hfree', hforeign⟩ := hfree.append (k := k) hb
      unfold Heap.carve
      refine Wp.bind.mpr (Wp.get.mpr (Wp.bind.mpr (Wp.lift_ok hfind
        (Wp.bind.mpr (returns_hassert rfl (Wp.bind.mpr (Wp.set.mpr ?_)))))))
      have hself : Function.update free k (free k ++ [arena2block a k idx]) k =
          free k ++ [arena2block a k idx] := Function.update_self ..
      refine Wp.mono (ih (idx + 1)
        (h := h.setLinks (listAppend h.links (DescPtr.freeList ⟨o, k⟩) (.block (arena2block a k idx))))
        (by omega) hfree' (fun b hmem => ?_) fun i hle hlt j hmem => ?_) (fun _ he => he) ?_
      · rw [hself, List.mem_append, List.mem_singleton] at hmem
        rcases hmem with hmem | rfl
        · exact hsmall b hmem
        · have hlt := arena2block_lt (p := a) (i := idx) (k := k) (by omega)
          have hpos := (blockSize_le k).1
          omega
      · by_cases hjk : j = k
        · rw [hjk, hself, List.mem_append, List.mem_singleton] at hmem
          rcases hmem with hmem | heq
          · exact hnew i (by omega) (by omega) k hmem
          · have hi := arena2block_inj heq
            omega
        · rw [Function.update_of_ne hjk] at hmem
          exact hnew i (by omega) (by omega) j hmem
      · rintro - h' ⟨hh', hforeign', free', hlists, hother, hmem⟩
        refine ⟨hh', hforeign.trans hforeign', free', hlists, fun j hj => ?_, fun b => ?_⟩
        · rw [hother j hj, Function.update_of_ne hj]
        · rw [hmem, hself, List.mem_append, List.mem_singleton, or_assoc]
          refine or_congr_right ⟨?_, ?_⟩
          · rintro (rfl | ⟨i, hle, hlt, rfl⟩)
            · exact ⟨idx, Nat.le_refl _, by omega, rfl⟩
            · exact ⟨i, by omega, by omega, rfl⟩
          · rintro ⟨i, hle, hlt, rfl⟩
            by_cases hi : i = idx
            · exact Or.inl (by rw [hi])
            · exact Or.inr ⟨i, by omega, by omega, rfl⟩

/-- The blocks of an arena that are all free are taken off the list. -/
theorem reclaim_returns : ∀ (left idx : Nat) {h : Heap} {free : Fin 7 → List Nat},
    Frees h.links o free → (∀ b, b ∈ free k → b < 2 ^ 32) →
    (∀ i, idx ≤ i → i < idx + left → arena2block a k i ∈ free k) →
    Returns (Heap.reclaim a ⟨o, k⟩ left idx) h (fun _ h' =>
      h' = h.setLinks h'.links ∧ ForeignSame o h.links h'.links ∧
        ∃ free', Frees h'.links o free' ∧ (∀ j, j ≠ k → free' j = free j) ∧
          ∀ b, b ∈ free' k ↔
            b ∈ free k ∧ ∀ i, idx ≤ i → i < idx + left → b ≠ arena2block a k i) := by
  intro left
  induction left with
  | zero =>
      intro idx h free hfree _ _
      refine Wp.pure.mpr ⟨rfl, .rfl, free, hfree, fun _ _ => rfl, fun b => ?_⟩
      exact ⟨fun hb => ⟨hb, fun i hle hlt => by omega⟩, fun hb => hb.1⟩
  | succ left ih =>
      intro idx h free hfree hsmall hin
      have hb : arena2block a k idx ∈ free k := hin idx (Nat.le_refl _) (by omega)
      have hfind := hfree.find hsmall (arena2block a k idx)
      rw [decide_eq_true hb] at hfind
      obtain ⟨hfree', hforeign⟩ := hfree.erase hb
      have hnodup := hfree.nodup k
      unfold Heap.reclaim
      refine Wp.bind.mpr (Wp.get.mpr (Wp.bind.mpr (Wp.lift_ok hfind
        (Wp.bind.mpr (returns_hassert rfl (Wp.bind.mpr (Wp.set.mpr ?_)))))))
      have hself : Function.update free k ((free k).erase (arena2block a k idx)) k =
          (free k).erase (arena2block a k idx) := Function.update_self ..
      refine Wp.mono (ih (idx + 1)
        (h := h.setLinks (listRemove h.links (.block (arena2block a k idx))))
        hfree' (fun b hmem => ?_) fun i hle hlt => ?_) (fun _ he => he) ?_
      · rw [hself] at hmem
        exact hsmall b (List.mem_of_mem_erase hmem)
      · rw [hself, hnodup.mem_erase_iff]
        refine ⟨fun heq => ?_, hin i (by omega) (by omega)⟩
        have hi := arena2block_inj heq
        omega
      · rintro - h' ⟨hh', hforeign', free', hlists, hother, hmem⟩
        refine ⟨hh', hforeign.trans hforeign', free', hlists, fun j hj => ?_, fun b => ?_⟩
        · rw [hother j hj, Function.update_of_ne hj]
        · rw [hmem, hself, hnodup.mem_erase_iff]
          refine ⟨fun hb => ⟨hb.1.2, fun i hle hlt => ?_⟩, fun hb =>
            ⟨⟨hb.2 idx (Nat.le_refl _) (by omega), hb.1⟩, fun i hle hlt =>
              hb.2 i (by omega) (by omega)⟩⟩
          by_cases hi : i = idx
          · rw [hi]
            exact hb.1.1
          · exact hb.2 i (by omega) (by omega)

end

end OsTruth
