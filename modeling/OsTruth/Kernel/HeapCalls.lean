/-
What `sys_malloc` and `sys_free` do to a heap whose invariant holds.

`Framed` says what a call leaves alone, apart from the arenas of the task: its identity
and the lists of other tasks.
-/
import OsTruth.Kernel.HeapInv

namespace OsTruth

open Fallible

/-- What a call leaves alone outside the arenas of the task. -/
structure Heap.Framed (h h' : Heap) : Prop where
  owner : h'.owner = h.owner
  foreign : ForeignSame h.owner h.links h'.links
  arena : ∀ p a, h'.arena p = some a → h.arena p = some a ∨ ∃ k, a.desc = some ⟨h.owner, k⟩

theorem Heap.Framed.rfl {h : Heap} : h.Framed h := ⟨Eq.refl _, .rfl, fun _ _ ha => Or.inl ha⟩

theorem Heap.Framed.trans {h h' h'' : Heap} (hh : h.Framed h') (hh' : h'.Framed h'') :
    h.Framed h'' where
  owner := hh'.owner.trans hh.owner
  foreign := hh.foreign.trans (hh.owner ▸ hh'.foreign)
  arena p a ha := by
    rcases hh'.arena p a ha with ha | ha
    · exact hh.arena p a ha
    · rw [hh.owner] at ha
      exact Or.inr ha

section

variable {h : Heap} {live : List (Nat × Nat)} {free : Fin 7 → List Nat} {p b s i : Nat}
  {k : Fin 7} {m : Links HeapNode} {a : Arena}

theorem HeapCore.setLinks (hc : HeapCore h live free) (hlists : Frees m h.owner free) :
    HeapCore (h.setLinks m) live free :=
  ⟨hlists, hc.start, hc.space, hc.kernel, hc.small, hc.page, hc.cnt, hc.freeBlock, hc.liveBlock,
    hc.nodup, hc.part⟩

/-- An arena of this task is put in place. -/
theorem setArena_framed {y : Arena} (hy : y.desc = some ⟨h.owner, k⟩)
    (hforeign : ForeignSame h.owner h.links m) :
    h.Framed ((h.setLinks m).setArena p (some y)) := by
  refine ⟨rfl, hforeign, fun q x hx => ?_⟩
  rcases setArena_cases hx with ⟨-, rfl⟩ | ⟨-, hx⟩
  · exact Or.inr ⟨k, hy⟩
  · exact Or.inl hx

/-- A counter below its bound leaves a block of its arena in use. -/
theorem Heap.UsedBut.setCnt (hused : h.UsedBut fun q => q = p) (hd : a.desc = some ⟨h.owner, k⟩)
    {n : Nat} (hn : n < blocksPerArena k) :
    ((h.setLinks m).setCnt p a n).UsedBut fun _ => False := by
  intro q l x _ hx hxd
  rcases setArena_cases hx with ⟨-, rfl⟩ | ⟨hqp, hx⟩
  · rw [desc_class hd hxd]
    exact hn
  · exact hused q l x hqp hx hxd

/-! ## Taking a block -/

theorem takeBlock_returns (hc : HeapCore h live free) {rest : List Nat} (hk : free k = b :: rest)
    (hs : s ≤ blockSize k) (hused : h.UsedBut fun p => p = block2arena b) :
    Returns (Heap.takeBlock ⟨h.owner, k⟩) h (fun r h' => r = some b ∧ h.Framed h' ∧
      ∃ free', HeapInv h' ((b, s) :: live) free') := by
  obtain ⟨m', hpop, hlists, hforeign⟩ := hc.lists.pop hk
  obtain ⟨p, a, i, ha, hd, hi, rfl, hpos, hle, -, hc'⟩ := hc.take hk hlists hs
  have hp := (hc.aligned ha).1
  have hblock := block2arena_arena2block hp hi
  -- The block is not on a list any more, so clearing it touches none.
  have hnot : arena2block p k i ∉ Function.update free k rest k := fun hmem =>
    (hc'.part p k i ((setCnt_isArena ha).mpr ⟨a, ha, hd⟩) hi).mp hmem
      (by rw [List.map_cons]; exact List.mem_cons_self)
  obtain ⟨hlists', hforeign'⟩ := hlists.overlay (arena2block p k i) (blockSize k)
    Contents.zero.links fun l c hmem =>
      hc'.far ((setCnt_isArena ha).mpr ⟨a, ha, hd⟩) hi hnot (Nat.le_refl _) hmem
  have hmemset : (h.setLinks m').memset (arena2block p k i) (blockSize k) =
      h.setLinks (Heap.overlay m' (arena2block p k i) (blockSize k) Contents.zero.links) :=
    overwrite_eq fun q x hx => hc.far_header hp (inPage_block hi (Nat.le_refl _)) hx
  have hcnt : (a.cnt + (2 ^ 32 - 1)) % 2 ^ 32 = a.cnt - 1 := by
    have hbound := (blocksPerArena_le k).2
    omega
  unfold Heap.takeBlock
  refine Wp.bind.mpr (Wp.get.mpr ?_)
  simp only [hpop]
  refine Wp.bind.mpr (Wp.set.mpr (Wp.bind.mpr (Wp.get.mpr ?_)))
  rw [hmemset, hblock]
  simp only [show (h.setLinks (Heap.overlay m' (arena2block p k i) (blockSize k)
    Contents.zero.links)).arena p = some a from ha, hcnt]
  refine Wp.bind.mpr (Wp.set.mpr (Wp.pure.mpr ⟨rfl, setArena_framed hd (hforeign.trans hforeign'),
    Function.update free k rest, hc'.setLinks hlists', ?_⟩))
  rw [hblock] at hused
  exact hused.setCnt hd (by omega)

/-! ## A new arena -/

theorem newArena_returns (hc : HeapCore h live free) (hnone : h.arena p = none)
    (htaken : h.Taken p) (hk : free k = []) :
    Returns (Heap.newArena p ⟨h.owner, k⟩) h (fun _ h' => h.Framed h' ∧
      (∀ q, q ≠ p → h'.arena q = h.arena q) ∧
      ∃ free', HeapCore h' live free' ∧ ∀ b, b ∈ free' k ↔
        ∃ i, i < blocksPerArena k ∧ b = arena2block p k i) := by
  obtain ⟨hp, hspace⟩ := hc.taken_aligned htaken
  have hblock : ∀ l c, c ∈ free l → ∀ i, i < blocksPerArena k → c ≠ arena2block p k i := by
    intro l c hmem i hi heq
    obtain ⟨q, j, hq, hj, rfl⟩ := hc.freeBlock l c hmem
    have hqp : q = p := by
      rw [← block2arena_arena2block (hc.arena_aligned hq).1 hj, heq, block2arena_arena2block hp hi]
    obtain ⟨x, hx, -⟩ := hq
    rw [hqp, hnone] at hx
    cases hx
  -- The page holds no block that is free, so clearing it touches none.
  have hfar : ∀ l c, c ∈ free l → ¬Heap.Touches p pgSize c := by
    intro l c hmem
    obtain ⟨q, j, hq, hj, rfl⟩ := hc.freeBlock l c hmem
    have hqp : q ≠ p := by
      rintro rfl
      obtain ⟨x, hx, -⟩ := hq
      rw [hnone] at hx
      cases hx
    have hqa := (hc.arena_aligned hq).1
    obtain ⟨hlo, hhi⟩ := arena2block_lt (p := q) hj
    have hsize := (blockSize_le l).1
    have hpg : pgSize = 4096 := rfl
    have har : arenaSize = 12 := rfl
    unfold Heap.Touches
    rw [hpg] at hqa hp hhi ⊢
    omega
  obtain ⟨hlists, hforeign⟩ := hc.lists.overlay p pgSize Contents.zero.links hfar
  have hmemset : h.memset p pgSize = h.setLinks (Heap.overlay h.links p pgSize Contents.zero.links) :=
    overwrite_eq fun q x hx => hc.far_page hp hnone hx
  unfold Heap.newArena
  refine Wp.bind.mpr (Wp.modify.mpr ?_)
  rw [hmemset]
  refine Wp.mono (carve_returns (k := k) hspace (blocksPerArena k) 0 (by omega) hlists
    (fun b hb => hc.free_lt hb) fun i _ hi j hmem => hblock j _ hmem i (by omega) rfl)
    (fun _ he => he) ?_
  rintro - h' ⟨hh', hforeign', free', hlists', hother, hmem⟩
  have hmem' : ∀ b, b ∈ free' k ↔ b ∈ free k ∨ ∃ i, i < blocksPerArena k ∧
      b = arena2block p k i := by
    intro b
    rw [hmem]
    refine or_congr_right ⟨fun ⟨i, _, hi, hb⟩ => ⟨i, by omega, hb⟩, fun ⟨i, hi, hb⟩ =>
      ⟨i, Nat.zero_le i, by omega, hb⟩⟩
  have hcore := hc.addArena hnone htaken hlists' hother hmem'
  have heq : h' = (h.setLinks h'.links).setArena p
      (some ⟨some ⟨h.owner, k⟩, blocksPerArena k, false⟩) := hh'
  rw [← heq] at hcore
  refine ⟨?_, fun q hqp => ?_, free', hcore, fun b => ?_⟩
  · rw [heq]
    exact setArena_framed rfl (hforeign.trans hforeign')
  · rw [heq]
    exact if_neg hqp
  · rw [hmem', hk]
    exact or_iff_right List.not_mem_nil

/-! ## Pages -/

/-- More virtual pages are taken. -/
theorem HeapCore.morePages (hc : HeapCore h live free) {bm : Bitmap} {f : Nat → Bool}
    (hlen : bm.btmpBytesLen = h.vaddrBitmap.btmpBytesLen)
    (hbit : ∀ i, h.vaddrBitmap.bit i = true → bm.bit i = true) :
    HeapCore { h with vaddrBitmap := bm, supply := f } live free := by
  refine ⟨hc.lists, hc.start, ?_, hc.kernel, hc.small, fun q x hx => ?_, hc.cnt, hc.freeBlock,
    hc.liveBlock, hc.nodup, hc.part⟩
  · show h.vaddrStart + 8 * bm.btmpBytesLen * pgSize ≤ 2 ^ 32
    rw [hlen]
    exact hc.space
  · obtain ⟨i, hi, hqi, hb⟩ := hc.page q x hx
    exact ⟨i, hlen ▸ hi, hqi, hbit i hb⟩

/-- `malloc_page` of one page takes a virtual page that was not taken. -/
theorem mallocPage_ensures : Ensures (Heap.mallocPage 1) h (fun r h' =>
    ∃ bm f, h' = { h with vaddrBitmap := bm, supply := f } ∧
      bm.btmpBytesLen = h.vaddrBitmap.btmpBytesLen ∧
      (∀ i, h.vaddrBitmap.bit i = true → bm.bit i = true) ∧
      ∀ a, r = some a → h'.Taken a ∧ ∀ x, h.Taken x → x ≠ a) := by
  unfold Heap.mallocPage Heap.vaddrGet
  refine Wp.bind.mpr (Wp.bind.mpr (Wp.get.mpr (Wp.bind.mpr (Wp.lift.mpr
    ⟨fun r hscan => ?_, fun _ _ => True.intro⟩))))
  rcases bitmapScan_one h.vaddrBitmap with ⟨i, hscan', hi, hclear, -⟩ | ⟨hscan', -⟩
  · rw [hscan', Except.ok.injEq] at hscan
    subst hscan
    have hset : vaddrSet true 1 (i : Int).toNat h.vaddrBitmap = .ok (h.vaddrBitmap.set i true) := by
      simp only [vaddrSet, Int.toNat_natCast, bitmapSet_of_lt hi, bind, Except.bind]
    have hne : ¬(i : Int) = -1 := by omega
    rw [if_neg hne]
    refine Wp.bind.mpr (Wp.lift_ok hset (Wp.bind.mpr (Wp.set.mpr (Wp.bind.mpr (Wp.lift.mpr
      ⟨fun _ _ => Wp.pure.mpr ?_, fun _ _ => True.intro⟩)))))
    refine Wp.bind.mpr (Wp.bind.mpr (Wp.get.mpr (Wp.bind.mpr (Wp.set.mpr ?_))))
    have hbits : ∀ j, h.vaddrBitmap.bit j = true → (h.vaddrBitmap.set i true).bit j = true := by
      intro j hj
      rw [Bitmap.bit_set]
      by_cases hji : j = i
      · rw [if_pos hji]
      · rw [if_neg hji]
        exact hj
    rw [Wp.ite]
    refine ⟨fun _ => Wp.pure.mpr (Wp.pure.mpr ⟨_, _, rfl, rfl, hbits, fun a ha => ?_⟩),
      fun _ => Wp.pure.mpr (Wp.pure.mpr ⟨_, _, rfl, rfl, hbits, nofun⟩)⟩
    rw [if_pos rfl, Option.some.injEq] at ha
    subst ha
    refine ⟨⟨i, hi, rfl, ?_⟩, ?_⟩
    · show (h.vaddrBitmap.set i true).bit i = true
      rw [Bitmap.bit_set, if_pos rfl]
    · rintro x ⟨j, -, rfl, hbit⟩ heq
      have heq' : h.vaddrStart + j * pgSize = h.vaddrStart + i * pgSize := heq
      have hji : j = i := Nat.eq_of_mul_eq_mul_right (by decide : 0 < pgSize) (by omega)
      rw [hji, hclear] at hbit
      cases hbit
  · rw [hscan'] at hscan
    cases hscan

/-! ## The two calls -/

def Malloced (h : Heap) (live : List (Nat × Nat)) (size : Nat) (r : Option Nat) (h' : Heap) : Prop :=
  h.Framed h' ∧ match r with
    | none => ∃ free', HeapInv h' live free'
    | some b => ∃ free', HeapInv h' ((b, size) :: live) free'

theorem sysMalloc_ensures (hi : HeapInv h live free) {size : Nat} (hsize : size ≤ 1024) :
    Ensures (Heap.sysMalloc size) h (Malloced h live size) := by
  obtain ⟨k, hfind, hk⟩ := findDesc_spec hsize
  have htake : ∀ {h' : Heap} {free' : Fin 7 → List Nat} {b : Nat} {rest : List Nat},
      HeapCore h' live free' → free' k = b :: rest → h'.UsedBut (fun p => p = block2arena b) →
      h.Framed h' → Ensures (Heap.takeBlock ⟨h.owner, k⟩) h' (Malloced h live size) := by
    intro h' free' b rest hc hrest hused hframed
    rw [← hframed.owner]
    refine Wp.mono (takeBlock_returns hc hrest hk hused) (fun _ he => he.elim) ?_
    rintro r h'' ⟨rfl, hframed', hinv⟩
    exact ⟨hframed.trans hframed', hinv⟩
  unfold Heap.sysMalloc
  refine Wp.bind.mpr (Wp.get.mpr (Wp.ite.mpr ⟨fun _ => Wp.pure.mpr ⟨.rfl, free, hi⟩, fun _ => ?_⟩))
  rw [if_neg (Nat.not_lt_of_le hsize)]
  simp only [hfind]
  refine Wp.ite.mpr ⟨fun hempty => ?_, fun hempty => ?_⟩
  · have hnil := hi.core.lists.empty.mp hempty
    refine Wp.bind.mpr (Wp.mono mallocPage_ensures (fun _ he => he) ?_)
    rintro r h' ⟨bm, f, hh', hlen, hbits, hr⟩
    have hcore : HeapCore h' live free := hh' ▸ hi.core.morePages hlen hbits
    have hframed : h.Framed h' := by
      rw [hh']
      exact ⟨rfl, .rfl, fun _ _ hx => Or.inl hx⟩
    have hused : h'.UsedBut fun _ => False := by
      rw [hh']
      exact hi.used
    cases r with
    | none => exact Wp.pure.mpr ⟨hframed, free, hcore, hused⟩
    | some p =>
        obtain ⟨htaken, hfresh⟩ := hr p rfl
        have hnone : h'.arena p = none := by
          cases hp : h'.arena p with
          | none => rfl
          | some a =>
              have hp' : h.arena p = some a := by
                rw [hh'] at hp
                exact hp
              exact absurd rfl (hfresh p (hi.core.page p a hp'))
        have howner : h'.owner = h.owner := hframed.owner
        refine Wp.bind.mpr ?_
        rw [← howner]
        refine Wp.mono (newArena_returns hcore hnone htaken hnil) (fun _ he => he.elim) ?_
        rintro - h'' ⟨hframed', harena, free', hcore', hmem⟩
        rw [howner]
        cases hfree : free' k with
        | nil =>
            have hfirst := (hmem (arena2block p k 0)).mpr ⟨0, (blocksPerArena_le k).1, rfl⟩
            rw [hfree] at hfirst
            exact absurd hfirst List.not_mem_nil
        | cons b rest =>
            obtain ⟨i, hi', hb⟩ := (hmem b).mp (hfree ▸ List.mem_cons_self)
            have hpage : block2arena b = p := by
              rw [hb, block2arena_arena2block (hcore.taken_aligned htaken).1 hi']
            refine htake hcore' hfree (fun q l x hq hx hxd => ?_) (hframed.trans hframed')
            have hqp : q ≠ p := fun heq => hq (heq.trans hpage.symm)
            rw [harena q hqp] at hx
            rw [hframed'.owner] at hxd
            exact hused q l x id hx hxd
  · cases hfree : free k with
    | nil => exact absurd (hi.core.lists.empty.mpr hfree) hempty
    | cons b rest =>
        exact htake hi.core hfree (fun q l x _ hx hxd => hi.used q l x id hx hxd) .rfl

/-- `mfree_page` of the page of an arena. -/
theorem mfreePage_returns (hp : p % pgSize = 0) (htaken : h.Taken p) {Q : Unit → Heap → Prop}
    (hQ : Q () (h.drop p)) : Returns (Heap.mfreePage p 1) h Q := by
  obtain ⟨i, hi, hpi, -⟩ := htaken
  have hidx : (p - h.vaddrStart) / pgSize = i := by
    rw [hpi, Nat.add_sub_cancel_left]
    exact Nat.mul_div_cancel _ (by decide)
  have hset : vaddrSet false 1 ((p - h.vaddrStart) / pgSize) h.vaddrBitmap =
      .ok (h.vaddrBitmap.set ((p - h.vaddrStart) / pgSize) false) := by
    rw [hidx]
    simp only [vaddrSet, bitmapSet_of_lt hi, bind, Except.bind]
  unfold Heap.mfreePage
  exact Wp.bind.mpr (returns_hassert ⟨Nat.le_refl 1, hp⟩ (Wp.bind.mpr (Wp.get.mpr
    (Wp.bind.mpr (Wp.lift_ok hset (Wp.set.mpr hQ))))))

theorem drop_framed (hforeign : ForeignSame h.owner h.links m) :
    h.Framed ((h.setLinks m).drop p) :=
  ⟨rfl, hforeign, fun _ _ hx => Or.inl (drop_cases hx).2⟩

/-- A block in use is freed. -/
theorem freeBlock_returns (hi : HeapInv h live free) (ha : h.arena p = some a)
    (hd : a.desc = some ⟨h.owner, k⟩) (hik : i < blocksPerArena k)
    (hb : arena2block p k i ∈ live.map Prod.fst) :
    Returns (Heap.freeBlock (arena2block p k i) a ⟨h.owner, k⟩) h (fun _ h' => h.Framed h' ∧
      ∃ free', HeapInv h' (live.filter fun x => x.1 ≠ arena2block p k i) free') := by
  have hc := hi.core
  have hp := (hc.aligned ha).1
  have hblock := block2arena_arena2block hp hik
  have hnot : ∀ l, arena2block p k i ∉ free l := by
    intro l hmem
    obtain ⟨q, j, hq, hj, heq⟩ := hc.freeBlock l _ hmem
    obtain ⟨rfl, rfl, rfl⟩ := hc.block_inj ⟨a, ha, hd⟩ hik hq hj heq
    exact (hc.part p k i ⟨a, ha, hd⟩ hik).mp hmem hb
  obtain ⟨hlists, hforeign⟩ := hc.lists.append (k := k) hnot
  obtain ⟨hlt, hcore⟩ := hc.give ha hd hik hb hlists
  have hcnt : (a.cnt + 1) % 2 ^ 32 = a.cnt + 1 := by
    have hbound := (blocksPerArena_le k).2
    omega
  have hframed := setArena_framed (p := p) (y := { a with cnt := a.cnt + 1 }) hd hforeign
  unfold Heap.freeBlock
  refine Wp.bind.mpr (Wp.modify.mpr (Wp.bind.mpr (Wp.modify.mpr ?_)))
  rw [hblock, hcnt]
  refine Wp.ite.mpr ⟨fun hfull => ?_, fun hfull => ?_⟩
  · have harena : ((h.setLinks (listAppend h.links (DescPtr.freeList ⟨h.owner, k⟩)
        (.block (arena2block p k i)))).setCnt p a (a.cnt + 1)).IsArena p k :=
      (setCnt_isArena ha).mpr ⟨a, ha, hd⟩
    have hcard := hcore.cnt p k _ (if_pos rfl) hd
    have hall : ∀ j, j < blocksPerArena k → arena2block p k j ∈
        Function.update free k (free k ++ [arena2block p k i]) k := fun j hj =>
      freeBlocks_full (hcard.symm.trans hfull) hj
    refine Wp.bind.mpr (Wp.mono (reclaim_returns (blocksPerArena k) 0 hcore.lists
      (fun b hb => hcore.free_lt hb) fun j _ hj => hall j (by omega)) (fun _ he => he) ?_)
    rintro - h' ⟨hh', hforeign', free', hlists', hother, hmem⟩
    have hdrop := hcore.dropArena (m := h'.links) harena hall hlists' hother fun b => by
      rw [hmem]
      exact and_congr_right fun _ => ⟨fun hne j hj => hne j (Nat.zero_le j) (by omega),
        fun hne j _ hj => hne j (by omega)⟩
    have heq : ((h.setLinks (listAppend h.links (DescPtr.freeList ⟨h.owner, k⟩)
        (.block (arena2block p k i)))).setCnt p a (a.cnt + 1)).setLinks h'.links = h' := hh'.symm
    rw [heq] at hdrop
    have htaken : h'.Taken p := by
      rw [hh']
      exact hc.page p a ha
    refine mfreePage_returns hp htaken ⟨hframed.trans ?_, free', hdrop, fun q l x _ hx hxd => ?_⟩
    · rw [hh']
      exact drop_framed hforeign'
    · obtain ⟨hqp, hx'⟩ := drop_cases hx
      have howner : (h'.drop p).owner = h.owner := by
        rw [hh']
        rfl
      rw [howner] at hxd
      rw [hh'] at hx'
      exact hi.used q l x id ((if_neg hqp).symm.trans hx') hxd
  · exact Wp.pure.mpr ⟨hframed, _, hcore, Heap.UsedBut.setCnt
      (fun q l x _ hx hxd => hi.used q l x id hx hxd) hd (Nat.lt_of_le_of_ne hlt hfull)⟩

theorem sysFree_returns (hi : HeapInv h live free) (hb : b ∈ live.map Prod.fst) :
    Returns (Heap.sysFree b) h (fun _ h' => h.Framed h' ∧
      ∃ free', HeapInv h' (live.filter fun x => x.1 ≠ b) free') := by
  obtain ⟨⟨c, s⟩, hlive, hcb⟩ := List.mem_map.mp hb
  have hcb' : c = b := hcb
  subst hcb'
  obtain ⟨p, k, i, ⟨a, ha, hd⟩, hik, rfl, -⟩ := hi.core.liveBlock c s hlive
  obtain ⟨hp, -⟩ := hi.core.aligned ha
  obtain ⟨hlo, -⟩ := arena2block_lt (p := p) hik
  have hstart : h.kernel = true → 0xc0100000 ≤ arena2block p k i := by
    intro hkernel
    obtain ⟨j, -, hpj, -⟩ := hi.core.page p a ha
    have hle := hi.core.kernel hkernel
    have har : arenaSize = 12 := rfl
    omega
  have hne : arena2block p k i ≠ 0 := by
    have har : arenaSize = 12 := rfl
    omega
  unfold Heap.sysFree
  refine Wp.bind.mpr (returns_hassert hne (Wp.bind.mpr (Wp.get.mpr
    (Wp.bind.mpr (returns_hassert hstart ?_)))))
  rw [block2arena_arena2block hp hik]
  simp only [ha, hd]
  exact freeBlock_returns hi ha hd hik hb

/-- A write to a block in use. -/
theorem HeapInv.write (hi : HeapInv h live free) (hb : (b, s) ∈ live) (c : Contents) :
    HeapInv (h.overwrite b s c) live free ∧ h.Framed (h.overwrite b s c) := by
  have hc := hi.core
  obtain ⟨p, k, i, harena, hik, rfl, hs⟩ := hc.liveBlock b s hb
  have hp := (hc.arena_aligned harena).1
  have hnot : arena2block p k i ∉ free k := fun hmem =>
    (hc.part p k i harena hik).mp hmem (List.mem_map.mpr ⟨_, hb, rfl⟩)
  obtain ⟨hlists, hforeign⟩ := hc.lists.overlay (arena2block p k i) s
    c.links fun l d hmem => hc.far harena hik hnot hs hmem
  rw [overwrite_eq fun q x hx => hc.far_header hp (inPage_block hik hs) hx]
  exact ⟨⟨hc.setLinks hlists, hi.used⟩, rfl, hforeign, fun _ _ hx => Or.inl hx⟩

end

end OsTruth
