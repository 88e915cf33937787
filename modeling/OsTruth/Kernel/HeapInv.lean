/-
The invariant of the heap of a task.

Every block of an arena is either free or in use, and a free one is on the list of its
class exactly once.  An arena whose descriptor lies in the array of another task is left
alone; such arenas are there after a fork only, and with a counter of 0.
-/
import OsTruth.Kernel.HeapLists
import OsTruth.Library.Runs

namespace OsTruth

open Fallible

namespace Heap

/-- The page at `p` is taken. -/
def Taken (h : Heap) (p : Nat) : Prop :=
  ∃ i, i < 8 * h.vaddrBitmap.btmpBytesLen ∧ p = h.vaddrStart + i * pgSize ∧
    h.vaddrBitmap.bit i = true

def IsArena (h : Heap) (p : Nat) (k : Fin 7) : Prop :=
  ∃ a, h.arena p = some a ∧ a.desc = some ⟨h.owner, k⟩

end Heap

def freeBlocks (free : Fin 7 → List Nat) (p : Nat) (k : Fin 7) : Finset Nat :=
  (Finset.range (blocksPerArena k)).filter fun i => arena2block p k i ∈ free k

/-- What holds also while a call is under way. -/
structure HeapCore (h : Heap) (live : List (Nat × Nat)) (free : Fin 7 → List Nat) : Prop where
  lists : Frees h.links h.owner free
  start : h.vaddrStart % pgSize = 0
  space : h.vaddrStart + 8 * h.vaddrBitmap.btmpBytesLen * pgSize ≤ 2 ^ 32
  kernel : h.kernel = true → 0xc0100000 ≤ h.vaddrStart
  small : ∀ p a, h.arena p = some a →
    a.large = false ∧ ∃ d, a.desc = some d ∧ (d.owner ≠ h.owner → a.cnt = 0)
  page : ∀ p a, h.arena p = some a → h.Taken p
  cnt : ∀ p k a, h.arena p = some a → a.desc = some ⟨h.owner, k⟩ → a.cnt = (freeBlocks free p k).card
  freeBlock : ∀ k b, b ∈ free k → ∃ p i, h.IsArena p k ∧ i < blocksPerArena k ∧ b = arena2block p k i
  liveBlock : ∀ b s, (b, s) ∈ live → ∃ p k i,
    h.IsArena p k ∧ i < blocksPerArena k ∧ b = arena2block p k i ∧ s ≤ blockSize k
  nodup : (live.map Prod.fst).Nodup
  part : ∀ p k i, h.IsArena p k → i < blocksPerArena k →
    (arena2block p k i ∈ free k ↔ arena2block p k i ∉ live.map Prod.fst)

def Heap.UsedBut (h : Heap) (q : Nat → Prop) : Prop :=
  ∀ p k a, ¬q p → h.arena p = some a → a.desc = some ⟨h.owner, k⟩ → a.cnt < blocksPerArena k

structure HeapInv (h : Heap) (live : List (Nat × Nat)) (free : Fin 7 → List Nat) : Prop where
  core : HeapCore h live free
  used : h.UsedBut fun _ => False

section

variable {h h' : Heap} {live live' : List (Nat × Nat)} {free free' : Fin 7 → List Nat}
  {p q b i j : Nat} {k l : Fin 7} {m : Links HeapNode} {a : Arena}

/-! ## Where arenas and blocks lie -/

theorem HeapCore.taken_aligned (hc : HeapCore h live free) (hp : h.Taken p) :
    p % pgSize = 0 ∧ p + pgSize ≤ 2 ^ 32 := by
  obtain ⟨i, hi, rfl, -⟩ := hp
  have hle : (i + 1) * pgSize ≤ 8 * h.vaddrBitmap.btmpBytesLen * pgSize := Nat.mul_le_mul_right _ hi
  have hspace := hc.space
  rw [Nat.add_mul, Nat.one_mul] at hle
  refine ⟨?_, by omega⟩
  rw [Nat.add_mul_mod_self_right]
  exact hc.start

theorem HeapCore.aligned (hc : HeapCore h live free) {a : Arena} (ha : h.arena p = some a) :
    p % pgSize = 0 ∧ p + pgSize ≤ 2 ^ 32 :=
  hc.taken_aligned (hc.page p a ha)

theorem HeapCore.arena_aligned (hc : HeapCore h live free) (hp : h.IsArena p k) :
    p % pgSize = 0 ∧ p + pgSize ≤ 2 ^ 32 := by
  obtain ⟨a, ha, -⟩ := hp
  exact hc.aligned ha

theorem desc_class {o : Nat} {x : Option DescPtr} (hk : x = some ⟨o, k⟩) (hl : x = some ⟨o, l⟩) :
    l = k := by
  rw [hk, Option.some.injEq, DescPtr.mk.injEq] at hl
  exact hl.2.symm

theorem isArena_unique (hk : h.IsArena p k) (hl : h.IsArena p l) : k = l := by
  obtain ⟨a, ha, hak⟩ := hk
  obtain ⟨a', ha', hal⟩ := hl
  rw [ha, Option.some.injEq] at ha'
  exact desc_class hal (ha' ▸ hak)

/-- A block belongs to one arena. -/
theorem HeapCore.block_inj (hc : HeapCore h live free) (hp : h.IsArena p k)
    (hi : i < blocksPerArena k) (hq : h.IsArena q l) (hj : j < blocksPerArena l)
    (heq : arena2block p k i = arena2block q l j) : p = q ∧ k = l ∧ i = j := by
  have hpq : p = q := by
    rw [← block2arena_arena2block (hc.arena_aligned hp).1 hi, heq,
      block2arena_arena2block (hc.arena_aligned hq).1 hj]
  subst hpq
  have hkl := isArena_unique hp hq
  subst hkl
  exact ⟨rfl, rfl, arena2block_inj heq⟩

theorem HeapCore.free_lt (hc : HeapCore h live free) (hb : b ∈ free k) : b < 2 ^ 32 := by
  obtain ⟨p, i, hp, hi, rfl⟩ := hc.freeBlock k b hb
  have hle := (hc.arena_aligned hp).2
  have hlt := arena2block_lt (p := p) hi
  have hpos := (blockSize_le k).1
  omega

theorem mem_freeBlocks : i ∈ freeBlocks free p k ↔ i < blocksPerArena k ∧ arena2block p k i ∈ free k := by
  rw [freeBlocks, Finset.mem_filter, Finset.mem_range]

theorem card_freeBlocks_le : (freeBlocks free p k).card ≤ blocksPerArena k := by
  have hle := Finset.card_le_card (Finset.filter_subset
    (fun i => arena2block p k i ∈ free k) (Finset.range (blocksPerArena k)))
  rw [Finset.card_range] at hle
  exact hle

/-- All blocks of an arena are free when the counter says so. -/
theorem freeBlocks_full (hcard : (freeBlocks free p k).card = blocksPerArena k) (hi : i < blocksPerArena k) :
    arena2block p k i ∈ free k := by
  have heq : freeBlocks free p k = Finset.range (blocksPerArena k) := by
    refine Finset.eq_of_subset_of_card_le (Finset.filter_subset _ _) ?_
    rw [hcard, Finset.card_range]
  have hmem : i ∈ freeBlocks free p k := by
    rw [heq]
    exact Finset.mem_range.mpr hi
  exact (mem_freeBlocks.mp hmem).2

/-- Another page, or another class, has the same free blocks. -/
theorem freeBlocks_congr (h : ∀ i, i < blocksPerArena k →
    (arena2block p k i ∈ free' k ↔ arena2block p k i ∈ free k)) :
    freeBlocks free' p k = freeBlocks free p k := by
  refine Finset.filter_congr fun i hi => ?_
  exact h i (Finset.mem_range.mp hi)

/-- When only the list of class `k` changes, only the blocks of that class can come or go. -/
theorem mem_free_congr (hother : ∀ j, j ≠ k → free' j = free j)
    (hk : l = k → (b ∈ free' l ↔ b ∈ free l)) : b ∈ free' l ↔ b ∈ free l := by
  by_cases hlk : l = k
  · exact hk hlk
  · rw [hother l hlk]

/-! ## A header changes -/

theorem setArena_cases {y x : Arena} (hx : (h.setArena p (some y)).arena q = some x) :
    (q = p ∧ x = y) ∨ (q ≠ p ∧ h.arena q = some x) := by
  by_cases hqp : q = p
  · exact Or.inl ⟨hqp, (Option.some.inj ((if_pos hqp).symm.trans hx)).symm⟩
  · exact Or.inr ⟨hqp, (if_neg hqp).symm.trans hx⟩

theorem isArena_setArena {y : Arena} : (h.setArena p (some y)).IsArena q l ↔
    (q = p ∧ y.desc = some ⟨h.owner, l⟩) ∨ (q ≠ p ∧ h.IsArena q l) := by
  constructor
  · rintro ⟨x, hx, hxd⟩
    rcases setArena_cases hx with ⟨hqp, rfl⟩ | ⟨hqp, hx⟩
    · exact Or.inl ⟨hqp, hxd⟩
    · exact Or.inr ⟨hqp, x, hx, hxd⟩
  · rintro (⟨hqp, hd⟩ | ⟨hqp, x, hx, hxd⟩)
    · exact ⟨y, if_pos hqp, hd⟩
    · exact ⟨x, (if_neg hqp).trans hx, hxd⟩

/-! ## Writing to a block -/

/-- A block lies behind the header of its page and before the next page. -/
def InPage (p lo len : Nat) : Prop := p + arenaSize ≤ lo ∧ lo + len ≤ p + pgSize

theorem inPage_block {len : Nat} (hi : i < blocksPerArena k) (hlen : len ≤ blockSize k) :
    InPage p (arena2block p k i) len := by
  obtain ⟨hlo, hhi⟩ := arena2block_lt (p := p) hi
  exact ⟨hlo, Nat.le_trans (Nat.add_le_add_left hlen _) hhi⟩

/-- A write that reaches no header changes links only. -/
theorem overwrite_eq {lo len : Nat} {c : Contents}
    (hfar : ∀ q x, h.arena q = some x → ¬(q < lo + len ∧ lo < q + arenaSize)) :
    h.overwrite lo len c = h.setLinks (Heap.overlay h.links lo len c.links) := by
  unfold Heap.overwrite Heap.setLinks
  congr 1
  funext q
  by_cases hover : q < lo + len ∧ lo < q + arenaSize
  · rw [if_pos hover]
    cases hq : h.arena q with
    | none => rfl
    | some a => exact absurd hover (hfar q a hq)
  · rw [if_neg hover]

theorem HeapCore.far_header (hc : HeapCore h live free) {lo len : Nat} (hp : p % pgSize = 0)
    (hin : InPage p lo len) {q : Nat} {x : Arena} (hq : h.arena q = some x) :
    ¬(q < lo + len ∧ lo < q + arenaSize) := by
  have hqa := (hc.aligned hq).1
  have hpg : pgSize = 4096 := rfl
  have har : arenaSize = 12 := rfl
  unfold InPage at hin
  rw [hpg] at hp hqa hin
  omega

/-- The page of a new arena holds no header yet. -/
theorem HeapCore.far_page (hc : HeapCore h live free) (hp : p % pgSize = 0)
    (hnone : h.arena p = none) {q : Nat} {x : Arena} (hq : h.arena q = some x) :
    ¬(q < p + pgSize ∧ p < q + arenaSize) := by
  have hqp : q ≠ p := by
    rintro rfl
    rw [hnone] at hq
    cases hq
  have hqa := (hc.aligned hq).1
  have hpg : pgSize = 4096 := rfl
  have har : arenaSize = 12 := rfl
  rw [hpg] at hp hqa ⊢
  omega

theorem Frees.overlay {o : Nat} (lo len : Nat) (c : Links HeapNode) (hf : Frees m o free)
    (hfar : ∀ k b, b ∈ free k → ¬Heap.Touches lo len b) :
    Frees (Heap.overlay m lo len c) o free ∧ ForeignSame o m (Heap.overlay m lo len c) := by
  refine ⟨hf.congr (fun d x _ hx => ?_) fun k b hb => ?_, fun x hx => ?_⟩
  · rcases hx with rfl | rfl
    · exact ⟨rfl, rfl⟩
    · exact ⟨rfl, rfl⟩
  · exact ⟨if_neg (hfar k b hb), if_neg (hfar k b hb)⟩
  · cases x with
    | block b => exact hx.elim
    | _ => exact ⟨rfl, rfl⟩

/-- The bytes of a block in use touch no free block. -/
theorem HeapCore.far (hc : HeapCore h live free) (hp : h.IsArena p k) (hi : i < blocksPerArena k)
    (hnot : arena2block p k i ∉ free k) {len : Nat} (hlen : len ≤ blockSize k)
    (hb : b ∈ free l) : ¬Heap.Touches (arena2block p k i) len b := by
  obtain ⟨q, j, hq, hj, rfl⟩ := hc.freeBlock l b hb
  obtain ⟨hlo, hhi⟩ := arena2block_lt (p := p) hi
  obtain ⟨hlo', hhi'⟩ := arena2block_lt (p := q) hj
  have hsize := (blockSize_le l).1
  have hpa := (hc.arena_aligned hp).1
  have hqa := (hc.arena_aligned hq).1
  have hpg : pgSize = 4096 := rfl
  have har : arenaSize = 12 := rfl
  rw [hpg] at hpa hqa hhi hhi'
  unfold Heap.Touches
  by_cases hpq : p = q
  · subst hpq
    have hkl := isArena_unique hp hq
    subst hkl
    have hij : i ≠ j := by
      rintro rfl
      exact hnot hb
    have hapart := arena2block_apart (p := p) (k := k) hij
    omega
  · omega

/-! ## A block changes hands -/

def Heap.setCnt (h : Heap) (p : Nat) (a : Arena) (cnt : Nat) : Heap :=
  h.setArena p (some { a with cnt := cnt })

theorem setCnt_isArena {n : Nat} (ha : h.arena p = some a) :
    ((h.setLinks m).setCnt p a n).IsArena q l ↔ h.IsArena q l := by
  refine isArena_setArena.trans ?_
  by_cases hqp : q = p
  · rw [hqp]
    constructor
    · rintro (⟨-, hd⟩ | ⟨hpp, -⟩)
      · exact ⟨a, ha, hd⟩
      · exact absurd rfl hpp
    · rintro ⟨x, hx, hxd⟩
      rw [ha, Option.some.injEq] at hx
      exact Or.inl ⟨rfl, hx ▸ hxd⟩
  · exact ⟨fun hq => (hq.resolve_left fun hpos => hqp hpos.1).2, fun hq => Or.inr ⟨hqp, hq⟩⟩

/-- A block of an arena goes from the free list to its user or back. -/
theorem HeapCore.swap (hc : HeapCore h live free) (ha : h.arena p = some a)
    (hd : a.desc = some ⟨h.owner, k⟩) (hi : i < blocksPerArena k)
    (hlists : Frees m h.owner free') (hother : ∀ j, j ≠ k → free' j = free j)
    (hfree : ∀ b, b ≠ arena2block p k i → (b ∈ free' k ↔ b ∈ free k))
    (hlive : ∀ b s, (b, s) ∈ live' → (b, s) ∈ live ∨ b = arena2block p k i ∧ s ≤ blockSize k)
    (hkept : ∀ b, b ≠ arena2block p k i → b ∈ live.map Prod.fst → b ∈ live'.map Prod.fst)
    (hnodup : (live'.map Prod.fst).Nodup)
    (hself : arena2block p k i ∈ free' k ↔ arena2block p k i ∉ live'.map Prod.fst)
    {n : Nat} (hn : n = (freeBlocks free' p k).card) :
    HeapCore ((h.setLinks m).setCnt p a n) live' free' := by
  have harena : h.IsArena p k := ⟨a, ha, hd⟩
  have hsame : ∀ q l j, arena2block q l j ≠ arena2block p k i →
      (arena2block q l j ∈ free' l ↔ arena2block q l j ∈ free l) := by
    intro q l j hne
    refine mem_free_congr hother fun hlk => ?_
    subst hlk
    exact hfree _ hne
  have harena' : ∀ q x, ((h.setLinks m).setCnt p a n).arena q = some x →
      (q = p ∧ x = { a with cnt := n }) ∨ (q ≠ p ∧ h.arena q = some x) :=
    fun q x hx => setArena_cases hx
  refine ⟨hlists, hc.start, hc.space, hc.kernel, fun q x hx => ?_, fun q x hx => ?_,
    fun q l x hx hxd => ?_, fun l b hb => ?_, fun b s hb => ?_, hnodup, fun q l j hq hj => ?_⟩
  · rcases harena' q x hx with ⟨-, rfl⟩ | ⟨-, hx⟩
    · exact ⟨(hc.small p a ha).1, ⟨h.owner, k⟩, hd, fun hne => absurd rfl hne⟩
    · exact hc.small q x hx
  · rcases harena' q x hx with ⟨rfl, -⟩ | ⟨-, hx⟩
    · exact hc.page q a ha
    · exact hc.page q x hx
  · have hxd' : x.desc = some ⟨h.owner, l⟩ := hxd
    rcases harena' q x hx with ⟨rfl, rfl⟩ | ⟨hqp, hx⟩
    · rw [desc_class hd hxd']
      exact hn
    · rw [hc.cnt q l x hx hxd']
      refine congrArg Finset.card (freeBlocks_congr fun j hj => ?_).symm
      refine hsame q l j fun heq => hqp ?_
      exact (hc.block_inj ⟨x, hx, hxd'⟩ hj harena hi heq).1
  · have hiff : ∃ q j, h.IsArena q l ∧ j < blocksPerArena l ∧ b = arena2block q l j := by
      by_cases hlk : l = k
      · subst hlk
        by_cases hbi : b = arena2block p l i
        · exact ⟨p, i, harena, hi, hbi⟩
        · exact hc.freeBlock l b ((hfree b hbi).mp hb)
      · rw [hother l hlk] at hb
        exact hc.freeBlock l b hb
    obtain ⟨q, j, hq, hj, hbj⟩ := hiff
    exact ⟨q, j, (setCnt_isArena ha).mpr hq, hj, hbj⟩
  · rcases hlive b s hb with hb | ⟨rfl, hs⟩
    · obtain ⟨q, l, j, hq, hj, hbj, hs⟩ := hc.liveBlock b s hb
      exact ⟨q, l, j, (setCnt_isArena ha).mpr hq, hj, hbj, hs⟩
    · exact ⟨p, k, i, (setCnt_isArena ha).mpr harena, hi, rfl, hs⟩
  · have hq' := (setCnt_isArena ha).mp hq
    by_cases heq : arena2block q l j = arena2block p k i
    · obtain ⟨rfl, rfl, rfl⟩ := hc.block_inj hq' hj harena hi heq
      exact hself
    · rw [hsame q l j heq, hc.part q l j hq' hj, not_iff_not]
      refine ⟨hkept _ heq, fun hmem => ?_⟩
      obtain ⟨⟨b, s⟩, hb, hbs⟩ := List.mem_map.mp hmem
      have hbs' : b = arena2block q l j := hbs
      rcases hlive b s hb with hb | ⟨hb, -⟩
      · exact List.mem_map.mpr ⟨(b, s), hb, hbs⟩
      · exact absurd (hbs'.symm.trans hb) heq

/-- The first free block is taken. -/
theorem HeapCore.take (hc : HeapCore h live free) {rest : List Nat} (hk : free k = b :: rest)
    (hlists : Frees m h.owner (Function.update free k rest)) {s : Nat} (hs : s ≤ blockSize k) :
    ∃ p a i, h.arena p = some a ∧ a.desc = some ⟨h.owner, k⟩ ∧ i < blocksPerArena k ∧
      b = arena2block p k i ∧ 0 < a.cnt ∧ a.cnt ≤ blocksPerArena k ∧ b ∉ live.map Prod.fst ∧
      HeapCore ((h.setLinks m).setCnt p a (a.cnt - 1)) ((b, s) :: live)
        (Function.update free k rest) := by
  have hb : b ∈ free k := hk ▸ List.mem_cons_self
  obtain ⟨p, i, ⟨a, ha, hd⟩, hi, rfl⟩ := hc.freeBlock k b hb
  have hnodup : (arena2block p k i :: rest).Nodup := hk ▸ hc.lists.nodup k
  have hrest : ∀ c, c ∈ rest ↔ c ∈ free k ∧ c ≠ arena2block p k i := by
    intro c
    rw [hk, List.mem_cons]
    refine ⟨fun hmem => ⟨Or.inr hmem, fun heq => (List.nodup_cons.mp hnodup).1 (heq ▸ hmem)⟩, ?_⟩
    exact fun hmem => hmem.1.resolve_left hmem.2
  have hself : Function.update free k rest k = rest := Function.update_self ..
  have hfresh := (hc.part p k i ⟨a, ha, hd⟩ hi).mp hb
  have hcnt := hc.cnt p k a ha hd
  have hmem : i ∈ freeBlocks free p k := mem_freeBlocks.mpr ⟨hi, hb⟩
  have herase : freeBlocks (Function.update free k rest) p k = (freeBlocks free p k).erase i := by
    refine Finset.ext fun j => ?_
    rw [Finset.mem_erase, mem_freeBlocks, mem_freeBlocks, hself, hrest]
    refine ⟨fun hj => ⟨fun heq => hj.2.2 (by rw [heq]), hj.1, hj.2.1⟩, fun hj => ⟨hj.2.1, hj.2.2, ?_⟩⟩
    exact fun heq => hj.1 (arena2block_inj heq)
  refine ⟨p, a, i, ha, hd, hi, rfl, ?_, ?_, hfresh, ?_⟩
  · rw [hcnt]
    exact Finset.card_pos.mpr ⟨i, hmem⟩
  · rw [hcnt]
    exact card_freeBlocks_le
  · refine hc.swap ha hd hi hlists (fun j hj => Function.update_of_ne hj ..) (fun c hne => ?_)
      (fun c t hct => ?_) (fun c _ hct => ?_) ?_ ?_ ?_
    · rw [hself, hrest]
      exact and_iff_left hne
    · rcases List.mem_cons.mp hct with heq | hct
      · cases heq
        exact Or.inr ⟨rfl, hs⟩
      · exact Or.inl hct
    · rw [List.map_cons]
      exact List.mem_cons_of_mem _ hct
    · rw [List.map_cons]
      exact List.nodup_cons.mpr ⟨hfresh, hc.nodup⟩
    · rw [hself, hrest, List.map_cons]
      exact iff_of_false (fun hmem => hmem.2 rfl) fun hnot => hnot List.mem_cons_self
    · rw [herase, Finset.card_erase_of_mem hmem, hcnt]

/-- A block in use is appended to the free list. -/
theorem HeapCore.give (hc : HeapCore h live free) (ha : h.arena p = some a)
    (hd : a.desc = some ⟨h.owner, k⟩) (hi : i < blocksPerArena k)
    (hb : arena2block p k i ∈ live.map Prod.fst)
    (hlists : Frees m h.owner (Function.update free k (free k ++ [arena2block p k i]))) :
    a.cnt < blocksPerArena k ∧ HeapCore ((h.setLinks m).setCnt p a (a.cnt + 1))
      (live.filter fun x => x.1 ≠ arena2block p k i)
      (Function.update free k (free k ++ [arena2block p k i])) := by
  have harena : h.IsArena p k := ⟨a, ha, hd⟩
  have hnot : arena2block p k i ∉ free k := fun hmem => (hc.part p k i harena hi).mp hmem hb
  have hself : Function.update free k (free k ++ [arena2block p k i]) k =
      free k ++ [arena2block p k i] := Function.update_self ..
  have hcnt := hc.cnt p k a ha hd
  have hnmem : i ∉ freeBlocks free p k := fun hmem => hnot (mem_freeBlocks.mp hmem).2
  have hinsert : freeBlocks (Function.update free k (free k ++ [arena2block p k i])) p k =
      insert i (freeBlocks free p k) := by
    refine Finset.ext fun j => ?_
    rw [Finset.mem_insert, mem_freeBlocks, mem_freeBlocks, hself, List.mem_append, List.mem_singleton]
    refine ⟨fun hj => hj.2.elim (fun hmem => Or.inr ⟨hj.1, hmem⟩) fun heq =>
      Or.inl (arena2block_inj heq), ?_⟩
    rintro (rfl | hj)
    · exact ⟨hi, Or.inr rfl⟩
    · exact ⟨hj.1, Or.inl hj.2⟩
  have hmem : ∀ c, c ∈ (live.filter fun x => x.1 ≠ arena2block p k i).map Prod.fst ↔
      c ∈ live.map Prod.fst ∧ c ≠ arena2block p k i := by
    intro c
    simp only [List.mem_map, List.mem_filter, decide_eq_true_eq]
    constructor
    · rintro ⟨x, ⟨hx, hne⟩, rfl⟩
      exact ⟨⟨x, hx, rfl⟩, hne⟩
    · rintro ⟨⟨x, hx, rfl⟩, hne⟩
      exact ⟨x, ⟨hx, hne⟩, rfl⟩
  have hcard : (insert i (freeBlocks free p k)).card = (freeBlocks free p k).card + 1 :=
    Finset.card_insert_of_notMem hnmem
  refine ⟨?_, hc.swap ha hd hi hlists (fun j hj => Function.update_of_ne hj ..) (fun c hne => ?_)
    (fun c t hct => Or.inl (List.mem_filter.mp hct).1) (fun c hne hct => (hmem c).mpr ⟨hct, hne⟩)
    (hc.nodup.sublist (List.filter_sublist.map Prod.fst)) ?_ ?_⟩
  · rw [hcnt]
    have hle : (freeBlocks (Function.update free k (free k ++ [arena2block p k i])) p k).card ≤
        blocksPerArena k := card_freeBlocks_le
    rw [hinsert, hcard] at hle
    exact hle
  · rw [hself, List.mem_append, List.mem_singleton]
    exact or_iff_left hne
  · rw [hself, hmem]
    exact iff_of_true (List.mem_append_right _ (List.mem_singleton.mpr rfl)) fun hmem => hmem.2 rfl
  · rw [hinsert, hcard, hcnt]

/-! ## An arena comes and goes -/

/-- The blocks of a new arena are all free. -/
theorem HeapCore.addArena (hc : HeapCore h live free) (hnone : h.arena p = none)
    (htaken : h.Taken p) (hlists : Frees m h.owner free') (hother : ∀ j, j ≠ k → free' j = free j)
    (hmem : ∀ b, b ∈ free' k ↔ b ∈ free k ∨ ∃ i, i < blocksPerArena k ∧ b = arena2block p k i) :
    HeapCore ((h.setLinks m).setArena p (some ⟨some ⟨h.owner, k⟩, blocksPerArena k, false⟩)) live
      free' := by
  have hp := (hc.taken_aligned htaken).1
  have hold : ∀ q l, h.IsArena q l → q ≠ p ∧ ((h.setLinks m).setArena p
      (some ⟨some ⟨h.owner, k⟩, blocksPerArena k, false⟩)).IsArena q l := by
    intro q l hq
    have hqp : q ≠ p := by
      rintro rfl
      obtain ⟨x, hx, -⟩ := hq
      rw [hnone] at hx
      cases hx
    exact ⟨hqp, isArena_setArena.mpr (Or.inr ⟨hqp, hq⟩)⟩
  have hnew : ((h.setLinks m).setArena p
      (some ⟨some ⟨h.owner, k⟩, blocksPerArena k, false⟩)).IsArena p k :=
    isArena_setArena.mpr (Or.inl ⟨rfl, rfl⟩)
  have hcases : ∀ q l, ((h.setLinks m).setArena p
      (some ⟨some ⟨h.owner, k⟩, blocksPerArena k, false⟩)).IsArena q l →
      (q = p ∧ l = k) ∨ (q ≠ p ∧ h.IsArena q l) := by
    intro q l hq
    rcases isArena_setArena.mp hq with ⟨hqp, hd⟩ | hq
    · exact Or.inl ⟨hqp, desc_class rfl hd⟩
    · exact Or.inr hq
  -- A block of an arena that was there lies in another page.
  have hne : ∀ q l j i, h.IsArena q l → j < blocksPerArena l → i < blocksPerArena k →
      arena2block q l j ≠ arena2block p k i := by
    intro q l j i hq hj hi heq
    refine (hold q l hq).1 ?_
    rw [← block2arena_arena2block (hc.arena_aligned hq).1 hj, heq, block2arena_arena2block hp hi]
  have hsame : ∀ q l j, h.IsArena q l → j < blocksPerArena l →
      (arena2block q l j ∈ free' l ↔ arena2block q l j ∈ free l) := by
    intro q l j hq hj
    refine mem_free_congr hother fun hlk => ?_
    subst hlk
    rw [hmem]
    exact or_iff_left fun ⟨i, hi, heq⟩ => hne q l j i hq hj hi heq
  have hall : ∀ i, i < blocksPerArena k → arena2block p k i ∈ free' k := fun i hi =>
    (hmem _).mpr (Or.inr ⟨i, hi, rfl⟩)
  refine ⟨hlists, hc.start, hc.space, hc.kernel, fun q x hx => ?_, fun q x hx => ?_,
    fun q l x hx hxd => ?_, fun l b hb => ?_, fun b s hb => ?_, hc.nodup, fun q l j hq hj => ?_⟩
  · rcases setArena_cases hx with ⟨-, rfl⟩ | ⟨-, hx⟩
    · exact ⟨rfl, ⟨h.owner, k⟩, rfl, fun hne => absurd rfl hne⟩
    · exact hc.small q x hx
  · rcases setArena_cases hx with ⟨rfl, -⟩ | ⟨-, hx⟩
    · exact htaken
    · exact hc.page q x hx
  · rcases hcases q l ⟨x, hx, hxd⟩ with ⟨rfl, rfl⟩ | ⟨hqp, hq⟩
    · have hx' := (Option.some.inj ((if_pos rfl).symm.trans hx)).symm
      have hfull : freeBlocks free' q l = Finset.range (blocksPerArena l) :=
        Finset.filter_true_of_mem fun i hi => hall i (Finset.mem_range.mp hi)
      rw [hx', hfull, Finset.card_range]
    · have hx' : h.arena q = some x := (if_neg hqp).symm.trans hx
      rw [hc.cnt q l x hx' hxd]
      exact congrArg Finset.card (freeBlocks_congr fun j hj => hsame q l j hq hj).symm
  · by_cases hlk : l = k
    · subst hlk
      rcases (hmem b).mp hb with hb | ⟨i, hi, rfl⟩
      · obtain ⟨q, j, hq, hj, rfl⟩ := hc.freeBlock l b hb
        exact ⟨q, j, (hold q l hq).2, hj, rfl⟩
      · exact ⟨p, i, hnew, hi, rfl⟩
    · rw [hother l hlk] at hb
      obtain ⟨q, j, hq, hj, rfl⟩ := hc.freeBlock l b hb
      exact ⟨q, j, (hold q l hq).2, hj, rfl⟩
  · obtain ⟨q, l, j, hq, hj, hbj, hs⟩ := hc.liveBlock b s hb
    exact ⟨q, l, j, (hold q l hq).2, hj, hbj, hs⟩
  · rcases hcases q l hq with ⟨rfl, rfl⟩ | ⟨-, hq⟩
    · refine iff_of_true (hall j hj) fun hmem => ?_
      obtain ⟨⟨b, s⟩, hb, hbj⟩ := List.mem_map.mp hmem
      obtain ⟨q', l', j', hq', hj', hb', -⟩ := hc.liveBlock b s hb
      exact hne q' l' j' j hq' hj' hj (hb'.symm.trans hbj)
    · rw [hsame q l j hq hj]
      exact hc.part q l j hq hj

/-- The page of an arena is given back. -/
def Heap.drop (h : Heap) (p : Nat) : Heap :=
  { h with
    vaddrBitmap := h.vaddrBitmap.set ((p - h.vaddrStart) / pgSize) false
    arena := fun q => if p ≤ q ∧ q < p + 1 * pgSize then none else h.arena q }

theorem drop_cases {x : Arena} (hx : (h.drop p).arena q = some x) :
    q ≠ p ∧ h.arena q = some x := by
  have hx' : (if p ≤ q ∧ q < p + 1 * pgSize then none else h.arena q) = some x := hx
  by_cases hin : p ≤ q ∧ q < p + 1 * pgSize
  · rw [if_pos hin] at hx'
    cases hx'
  · rw [if_neg hin] at hx'
    refine ⟨fun hqp => hin ⟨Nat.le_of_eq hqp.symm, ?_⟩, hx'⟩
    rw [hqp, Nat.one_mul]
    exact Nat.lt_add_of_pos_right (by decide)

/-- The blocks of an arena that goes were all free. -/
theorem HeapCore.dropArena (hc : HeapCore h live free) (hp : h.IsArena p k)
    (hall : ∀ i, i < blocksPerArena k → arena2block p k i ∈ free k)
    (hlists : Frees m h.owner free') (hother : ∀ j, j ≠ k → free' j = free j)
    (hmem : ∀ b, b ∈ free' k ↔ b ∈ free k ∧ ∀ i, i < blocksPerArena k → b ≠ arena2block p k i) :
    HeapCore ((h.setLinks m).drop p) live free' := by
  have harena : ∀ q x, ((h.setLinks m).drop p).arena q = some x → q ≠ p ∧ h.arena q = some x :=
    fun q x hx => drop_cases hx
  have hkept : ∀ q x, q ≠ p → h.arena q = some x → ((h.setLinks m).drop p).arena q = some x := by
    intro q x hqp hx
    refine (if_neg fun hin => hqp ?_).trans hx
    have hqa := (hc.aligned hx).1
    have hpa := (hc.arena_aligned hp).1
    have hpg : pgSize = 4096 := rfl
    rw [hpg] at hqa hpa hin
    omega
  have hold : ∀ q l, ((h.setLinks m).drop p).IsArena q l → q ≠ p ∧ h.IsArena q l := by
    rintro q l ⟨x, hx, hxd⟩
    exact ⟨(harena q x hx).1, x, (harena q x hx).2, hxd⟩
  have hnew : ∀ q l, q ≠ p → h.IsArena q l → ((h.setLinks m).drop p).IsArena q l := by
    rintro q l hqp ⟨x, hx, hxd⟩
    exact ⟨x, hkept q x hqp hx, hxd⟩
  have hne : ∀ q l j i, q ≠ p → h.IsArena q l → j < blocksPerArena l → i < blocksPerArena k →
      arena2block q l j ≠ arena2block p k i := by
    intro q l j i hqp hq hj hi heq
    exact hqp (hc.block_inj hq hj hp hi heq).1
  have hsame : ∀ q l j, q ≠ p → h.IsArena q l → j < blocksPerArena l →
      (arena2block q l j ∈ free' l ↔ arena2block q l j ∈ free l) := by
    intro q l j hqp hq hj
    refine mem_free_congr hother fun hlk => ?_
    subst hlk
    rw [hmem]
    exact and_iff_left fun i hi => hne q l j i hqp hq hj hi
  refine ⟨hlists, hc.start, hc.space, hc.kernel, fun q x hx => hc.small q x (harena q x hx).2,
    fun q x hx => ?_, fun q l x hx hxd => ?_, fun l b hb => ?_, fun b s hb => ?_, hc.nodup,
    fun q l j hq hj => ?_⟩
  · obtain ⟨hqp, hx'⟩ := harena q x hx
    obtain ⟨i, hi, hqi, hbit⟩ := hc.page q x hx'
    obtain ⟨a, ha, -⟩ := hp
    obtain ⟨j, -, hpj, -⟩ := hc.page p a ha
    refine ⟨i, hi, hqi, ?_⟩
    show (h.vaddrBitmap.set ((p - h.vaddrStart) / pgSize) false).bit i = true
    have hidx : (p - h.vaddrStart) / pgSize = j := by
      rw [hpj, Nat.add_sub_cancel_left]
      exact Nat.mul_div_cancel _ (by decide)
    rw [hidx, Bitmap.bit_set, if_neg]
    · exact hbit
    · rintro rfl
      exact hqp (hqi.trans hpj.symm)
  · obtain ⟨hqp, hx'⟩ := harena q x hx
    rw [hc.cnt q l x hx' hxd]
    exact congrArg Finset.card
      (freeBlocks_congr fun j hj => hsame q l j hqp ⟨x, hx', hxd⟩ hj).symm
  · have hblock : b ∈ free l ∧ ∀ i, i < blocksPerArena k → b ≠ arena2block p k i := by
      by_cases hlk : l = k
      · subst hlk
        exact (hmem b).mp hb
      · rw [hother l hlk] at hb
        refine ⟨hb, fun i hi heq => hlk ?_⟩
        obtain ⟨q, j, hq, hj, hbj⟩ := hc.freeBlock l b hb
        exact (hc.block_inj hq hj hp hi (hbj.symm.trans heq)).2.1
    obtain ⟨q, j, hq, hj, rfl⟩ := hc.freeBlock l b hblock.1
    refine ⟨q, j, hnew q l (fun hqp => ?_) hq, hj, rfl⟩
    subst hqp
    have hlk := isArena_unique hq hp
    subst hlk
    exact hblock.2 j hj rfl
  · obtain ⟨q, l, j, hq, hj, hbj, hs⟩ := hc.liveBlock b s hb
    refine ⟨q, l, j, hnew q l (fun hqp => ?_) hq, hj, hbj, hs⟩
    subst hqp
    have hlk := isArena_unique hq hp
    subst hlk
    refine (hc.part q l j hq hj).mp (hall j hj) (List.mem_map.mpr ⟨(b, s), hb, hbj⟩)
  · obtain ⟨hqp, hq⟩ := hold q l hq
    rw [hsame q l j hqp hq hj]
    exact hc.part q l j hq hj

end

end OsTruth
