/-
Page tables in memory, from `kernel/memory.c` and `page_dir_activate` of
`userprog/process.c`.

The tables are reached through the last entry of the page directory that is active, so
what `page_table_add` writes depends on `cr3`.  The locks of the pools are left out: a task
that finds them free takes and releases them.
-/
import Mathlib.Data.Finset.Card
import Mathlib.Data.Finset.Range
import OsTruth.Kernel.Pools
import OsTruth.Library.Fallible
import OsTruth.Library.Paging

namespace OsTruth

open ByteString Fallible Paging

/-- `cr3` is the frame of the active page directory. -/
structure Space where
  phys : Phys
  cr3 : Nat
  pools : Pools

abbrev Mmu := StateT Space (Except Fault)

/-- An access to a page that is not mapped does not return. -/
def mapped {α : Type} : Option α → Mmu α
  | none => throw .undefined
  | some a => pure a

def massert (c : Prop) [Decidable c] : Mmu Unit := StateT.lift (assert c)

def readWord (v : Nat) : Mmu UInt32 := do
  let s ← get
  mapped (loadWord s.phys s.cr3 v)

/-- A write to memory, with the memory behind it. -/
def writeMem (f : Nat → Phys → Option Phys) : Mmu Unit := do
  let s ← get
  let m ← mapped (f s.cr3 s.phys)
  set { s with phys := m }

def writeWord (v : Nat) (e : UInt32) : Mmu Unit := writeMem fun d m => storeWord m d v e

/-! ## Functions -/

def ptePtr (vaddr : Nat) : Nat := 0xffc00000 + vaddr / 2 ^ 22 * 2 ^ 12 + vaddr / 2 ^ 12 % 2 ^ 10 * 4

def pdePtr (vaddr : Nat) : Nat := 0xfffff000 + vaddr / 2 ^ 22 * 4

/-- `palloc(&kernel_pool)` and `palloc(&user_pool)`. -/
def pallocOf (pf : PoolFlags) : Mmu (Option UInt32) := do
  let s ← get
  let (a, p) ← StateT.lift (palloc (s.pools.pool pf))
  set { s with pools := s.pools.put pf p }
  pure a

/-- `page_phyaddr | PG_US_U | PG_RW_W | PG_P_1`. -/
def link (pagePhyaddr : UInt32) : UInt32 := pagePhyaddr ||| 4 ||| 2 ||| 1

/-- `ASSERT(!(*pte & 0x00000001))` and the write of `*pte`. -/
def writePte (pte : Nat) (pagePhyaddr : UInt32) : Mmu Unit := do
  let e ← readWord pte
  massert (¬e.toNat % 2 = 1)
  writeWord pte (link pagePhyaddr)

/-- `page_table_add`.  The frame of a new page table is not checked for `NULL`. -/
def pageTableAdd (vaddr : Nat) (pagePhyaddr : UInt32) : Mmu Unit := do
  let pde := pdePtr vaddr
  let pte := ptePtr vaddr
  let e ← readWord pde
  if e.toNat % 2 = 1 then writePte pte pagePhyaddr
  else do
    let pdePhyaddr ← pallocOf .pfKernel
    writeWord pde (link (pdePhyaddr.getD 0))
    writeMem fun d m => clearBytes d pgSize (pte / pgSize * pgSize) m
    writePte pte pagePhyaddr

def getAPageWithoutOpvaddrbitmap (pf : PoolFlags) (vaddr : Nat) : Mmu (Option Nat) := do
  match ← pallocOf pf with
  | none => pure none
  | some pagePhyaddr => do
      pageTableAdd vaddr pagePhyaddr
      pure (some vaddr)

def addrV2p (vaddr : Nat) : Mmu Nat := do
  let pte ← readWord (ptePtr vaddr)
  pure (pte.toNat / 2 ^ 12 * 2 ^ 12 + vaddr % 2 ^ 12)

/-- `page_dir_activate` for the virtual address of a page directory, `none` for `NULL`. -/
def pageDirActivate (pgdir : Option Nat) : Mmu Unit := do
  let pagedirPhyAddr ← match pgdir with
    | none => pure 0x100000
    | some vaddr => addrV2p vaddr
  modify fun s => { s with cr3 := pagedirPhyAddr / pgSize }

/-- `memcpy(dst, src, PG_SIZE)`. -/
def memcpyPage (dst src : Nat) : Mmu Unit := writeMem fun d m => copyBytes d pgSize dst src m

/-! ## Free frames -/

def FrameBit (ps : Pools) (v : Bool) (f : Nat) : Prop :=
  ∃ pf i, i < 8 * (ps.pool pf).poolBitmap.btmpBytesLen ∧
    (ps.pool pf).poolBitmap.bit i = v ∧ (frameAddr (ps.pool pf) i).toNat = pgSize * f

/-- A frame that a pool can still hand out. -/
abbrev FreeFrame (ps : Pools) : Nat → Prop := FrameBit ps false

/-- A frame that a pool has handed out. -/
abbrev InUse (ps : Pools) : Nat → Prop := FrameBit ps true

/-- How many frames of a pool are free. -/
def freeCount (ps : Pools) (pf : PoolFlags) : Nat :=
  ((Finset.range (8 * (ps.pool pf).poolBitmap.btmpBytesLen)).filter fun i =>
    (ps.pool pf).poolBitmap.bit i = false).card

/-- Frame `f` was taken from pool `pf`. -/
structure Took (ps qs : Pools) (pf : PoolFlags) (f : Nat) : Prop where
  was : FreeFrame ps f
  frames : ∀ v g, FrameBit qs v g ↔ if g = f then v = true else FrameBit ps v g
  count : freeCount qs pf + 1 = freeCount ps pf
  other : ∀ pf', pf' ≠ pf → freeCount qs pf' = freeCount ps pf'

section
variable {allMem : UInt32} {ps qs : Pools} {pf : PoolFlags} {s : Space} {F : Fault → Prop}

variable {f g : Nat}

theorem Took.free (h : Took ps qs pf f) (hf : FreeFrame qs g) : FreeFrame ps g ∧ g ≠ f := by
  have hiff := h.frames false g
  by_cases hg : g = f
  · rw [if_pos hg] at hiff
    cases hiff.mp hf
  · rw [if_neg hg] at hiff
    exact ⟨hiff.mp hf, hg⟩

theorem Took.inUse (h : Took ps qs pf f) (hf : g = f ∨ InUse ps g) : InUse qs g := by
  have hiff := h.frames true g
  by_cases hg : g = f
  · rw [if_pos hg] at hiff
    exact hiff.mpr rfl
  · rw [if_neg hg] at hiff
    exact hiff.mpr (hf.resolve_left hg)

/-- A frame has one bit. -/
theorem FrameBit.unique (h : PoolsLayout allMem ps) {v w : Bool} (hv : FrameBit ps v f)
    (hw : FrameBit ps w f) : v = w := by
  obtain ⟨pf, i, hi, hbit, haddr⟩ := hv
  obtain ⟨pf', j, hj, hbit', haddr'⟩ := hw
  obtain ⟨hpf, hij⟩ := h.frameAddr_inj hi hj (UInt32.toNat_inj.mp (haddr.trans haddr'.symm))
  rw [← hbit, ← hbit', hpf, hij]

/-- The frames of the pools are pages. -/
theorem PoolsLayout.frame_exists (h : PoolsLayout allMem ps) {i : Nat}
    (hi : i < 8 * (ps.pool pf).poolBitmap.btmpBytesLen) :
    (frameAddr (ps.pool pf) i).toNat = pgSize * ((frameAddr (ps.pool pf) i).toNat / pgSize) := by
  have hstart := h.aligned pf
  rw [h.frameAddr_toNat hi]
  unfold pgSize at *
  omega

theorem took_of_set (h : PoolsLayout allMem ps) {i : Nat}
    (hi : i < 8 * (ps.pool pf).poolBitmap.btmpBytesLen)
    (hclear : (ps.pool pf).poolBitmap.bit i = false) :
    Took ps (ps.put pf { ps.pool pf with poolBitmap := (ps.pool pf).poolBitmap.set i true }) pf
      ((frameAddr (ps.pool pf) i).toNat / pgSize) := by
  have hsame := fun pf' => setBit_pool ps pf pf' i true
  have haddr := h.frame_exists hi
  have hpg : 0 < pgSize := by decide
  refine ⟨⟨pf, i, hi, hclear, haddr⟩, fun v g => ⟨?_, ?_⟩, ?_, ?_⟩
  · rintro ⟨pf', j, hj, hbit, hg⟩
    rw [(hsame pf').2.1] at hj
    rw [(hsame pf').2.2] at hbit
    rw [(hsame pf').1] at hg
    by_cases hpair : pf' = pf ∧ j = i
    · obtain ⟨rfl, rfl⟩ := hpair
      rw [if_pos ⟨rfl, rfl⟩] at hbit
      rw [hg, Nat.mul_div_cancel_left g hpg, if_pos rfl]
      exact hbit.symm
    · rw [if_neg hpair] at hbit
      rw [if_neg]
      · exact ⟨pf', j, hj, hbit, hg⟩
      · intro heq
        apply hpair
        apply h.frameAddr_inj hj hi
        apply UInt32.toNat_inj.mp
        rw [hg, haddr, heq]
  · intro hv
    by_cases hg : g = (frameAddr (ps.pool pf) i).toNat / pgSize
    · rw [if_pos hg] at hv
      refine ⟨pf, i, ?_, ?_, ?_⟩
      · rw [(hsame pf).2.1]
        exact hi
      · rw [(hsame pf).2.2, if_pos ⟨rfl, rfl⟩, hv]
      · rw [(hsame pf).1, hg]
        exact haddr
    · rw [if_neg hg] at hv
      obtain ⟨pf', j, hj, hbit, haddr'⟩ := hv
      refine ⟨pf', j, ?_, ?_, ?_⟩
      · rw [(hsame pf').2.1]
        exact hj
      · rw [(hsame pf').2.2, if_neg]
        · exact hbit
        · rintro ⟨rfl, rfl⟩
          rw [haddr', Nat.mul_div_cancel_left g hpg] at hg
          exact hg rfl
      · rw [(hsame pf').1]
        exact haddr'
  · have hmem : i ∈ (Finset.range (8 * (ps.pool pf).poolBitmap.btmpBytesLen)).filter fun j =>
        (ps.pool pf).poolBitmap.bit j = false := by
      rw [Finset.mem_filter, Finset.mem_range]
      exact ⟨hi, hclear⟩
    unfold freeCount
    rw [← Finset.card_erase_add_one hmem]
    congr 2
    ext j
    rw [Finset.mem_filter, Finset.mem_erase, Finset.mem_filter, (hsame pf).2.1, (hsame pf).2.2]
    by_cases hj : j = i <;> simp [hj]
  · intro pf' hpf
    unfold freeCount
    rw [(hsame pf').2.1]
    congr 2
    funext j
    rw [(hsame pf').2.2, if_neg fun hpair => hpf hpair.1]

/-! ## Accesses to the tables -/

theorem wp_readWord {v : Nat} {e : UInt32} {Q : UInt32 → Space → Prop}
    (h : loadWord s.phys s.cr3 v = some e) (hQ : Q e s) : Wp (readWord v) s F Q := by
  unfold readWord
  rw [Wp.bind, Wp.get, h]
  exact hQ

theorem wp_writeMem {f : Nat → Phys → Option Phys} {m : Phys} {Q : Unit → Space → Prop}
    (h : f s.cr3 s.phys = some m) (hQ : Q () { s with phys := m }) : Wp (writeMem f) s F Q := by
  unfold writeMem
  rw [Wp.bind, Wp.get, Wp.bind, h]
  exact hQ

theorem wp_massert {c : Prop} [Decidable c] {Q : Unit → Space → Prop} (hc : c) (hQ : Q () s) :
    Wp (massert c) s F Q :=
  Wp.lift_ok (if_pos hc) hQ

variable {m : Phys} {d p t f : Nat} {a b e : UInt32}

theorem pdePtr_page (hp : p < 2 ^ 20) : pdePtr (pgSize * p) / 4096 = 1023 * 1024 + 1023 ∧
    pdePtr (pgSize * p) % 4096 / 4 = p / 1024 := by
  unfold pdePtr pgSize
  omega

theorem ptePtr_page : ptePtr (pgSize * p) / 4096 = 1023 * 1024 + p / 1024 ∧
    ptePtr (pgSize * p) % 4096 / 4 = p % 1024 := by
  unfold ptePtr pgSize
  omega

/-- `*pde`. -/
theorem loadWord_pde (hr : Recursive m d) (hp : p < 2 ^ 20) :
    loadWord m d (pdePtr (pgSize * p)) = some (entry m d (p / 1024)) := by
  unfold loadWord
  rw [(pdePtr_page hp).1, (pdePtr_page hp).2, hr.walk_dir]
  rfl

theorem storeWord_pde (hr : Recursive m d) (hp : p < 2 ^ 20) :
    storeWord m d (pdePtr (pgSize * p)) e = some (setEntry m d (p / 1024) e) := by
  unfold storeWord
  rw [(pdePtr_page hp).1, (pdePtr_page hp).2, hr.walk_dir]
  rfl

/-- `*pte`, when the page has a table. -/
theorem loadWord_pte (hr : Recursive m d) (hp : p < 2 ^ 20) (ht : table m d p = some t) :
    loadWord m d (ptePtr (pgSize * p)) = some (entry m t (p % 1024)) := by
  unfold loadWord
  rw [ptePtr_page.1, ptePtr_page.2, hr.walk_pte hp ht]
  rfl

theorem storeWord_pte (hr : Recursive m d) (hp : p < 2 ^ 20) (ht : table m d p = some t) :
    storeWord m d (ptePtr (pgSize * p)) e = some (setEntry m t (p % 1024) e) := by
  unfold storeWord
  rw [ptePtr_page.1, ptePtr_page.2, hr.walk_pte hp ht]
  rfl

theorem present_iff : e.toNat % 2 = 1 ↔ (target e).isSome = true := by
  unfold target
  by_cases h : e.toNat % 2 = 1 <;> simp [h]

/-! ## The functions -/

theorem wp_writePte {Q : Unit → Space → Prop} (hr : Recursive s.phys s.cr3) (hp : p < 2 ^ 20)
    (ht : table s.phys s.cr3 p = some t) (hnone : target (entry s.phys t (p % 1024)) = none)
    (hQ : Q () { s with phys := setEntry s.phys t (p % 1024) (link a) }) :
    Wp (writePte (ptePtr (pgSize * p)) a) s F Q := by
  unfold writePte
  rw [Wp.bind]
  apply wp_readWord (loadWord_pte hr hp ht)
  rw [Wp.bind]
  apply wp_massert
  · rw [present_iff, hnone]
    exact Bool.false_ne_true
  · exact wp_writeMem (storeWord_pte hr hp ht) hQ

/-- A page whose table exists. -/
theorem wp_pageTableAdd_some {Q : Unit → Space → Prop} (hr : Recursive s.phys s.cr3)
    (hp : p < 2 ^ 20) (ht : table s.phys s.cr3 p = some t)
    (hnone : target (entry s.phys t (p % 1024)) = none)
    (hQ : Q () { s with phys := setEntry s.phys t (p % 1024) (link a) }) :
    Wp (pageTableAdd (pgSize * p) a) s F Q := by
  have htarget : target (entry s.phys s.cr3 (p / 1024)) = some t := ht
  have hpresent : (entry s.phys s.cr3 (p / 1024)).toNat % 2 = 1 := by
    rw [present_iff, htarget]
    rfl
  unfold pageTableAdd
  rw [Wp.bind]
  apply wp_readWord (loadWord_pde hr hp)
  rw [if_pos hpresent]
  exact wp_writePte hr hp ht hnone hQ

theorem wp_pallocOf {Q : Option UInt32 → Space → Prop} (h : PoolsLayout allMem s.pools)
    (hfree : 1 ≤ freeCount s.pools pf)
    (hQ : ∀ b qs, b.toNat % pgSize = 0 → PoolsLayout allMem qs →
      Took s.pools qs pf (b.toNat / pgSize) → Q (some b) { s with pools := qs }) :
    Wp (pallocOf pf) s F Q := by
  have hfull : ¬(s.pools.pool pf).poolBitmap.Full := by
    intro hfull
    have hempty : freeCount s.pools pf = 0 := by
      unfold freeCount
      rw [Finset.card_eq_zero, Finset.filter_eq_empty_iff]
      intro i hi hclear
      rw [hfull i (Finset.mem_range.mp hi)] at hclear
      cases hclear
    omega
  obtain ⟨i, ⟨hi, hclear, -⟩, hrun⟩ := palloc_eq hfull
  unfold pallocOf
  rw [Wp.bind, Wp.get, Wp.bind]
  apply Wp.lift_ok hrun
  have haddr := h.frame_exists hi
  apply hQ _ _ _ (h.setBit pf i true) (took_of_set h hi hclear)
  rw [haddr]
  exact Nat.mul_mod_right _ _

theorem target_link_page (hb : b.toNat % pgSize = 0) :
    target (link b) = some (b.toNat / pgSize) := target_link hb

/-- A page whose table does not exist. -/
theorem wp_pageTableAdd_none {Q : Unit → Space → Prop} (hl : PoolsLayout allMem s.pools)
    (hfree : 1 ≤ freeCount s.pools .pfKernel) (hr : Recursive s.phys s.cr3)
    (hp : p < 1023 * 1024) (ht : table s.phys s.cr3 p = none) (hd : ¬FreeFrame s.pools s.cr3)
    (hQ : ∀ b qs, b.toNat % pgSize = 0 → PoolsLayout allMem qs →
      Took s.pools qs .pfKernel (b.toNat / pgSize) →
      Q () { s with
        pools := qs
        phys := setEntry (addTable s.phys s.cr3 (p / 1024) (link b) (b.toNat / pgSize))
          (b.toNat / pgSize) (p % 1024) (link a) }) :
    Wp (pageTableAdd (pgSize * p) a) s F Q := by
  have hp' : p < 2 ^ 20 := by omega
  have habsent : ¬(entry s.phys s.cr3 (p / 1024)).toNat % 2 = 1 := by
    have htarget : target (entry s.phys s.cr3 (p / 1024)) = none := ht
    rw [present_iff, htarget]
    exact Bool.false_ne_true
  unfold pageTableAdd
  rw [Wp.bind]
  apply wp_readWord (loadWord_pde hr hp')
  rw [if_neg habsent, Wp.bind]
  apply wp_pallocOf hl hfree
  intro b qs hb hqs htook
  let f := b.toNat / pgSize
  have hdf : s.cr3 ≠ f := by
    rintro heq
    apply hd
    rw [heq]
    exact htook.was
  rw [Wp.bind]
  apply wp_writeMem (storeWord_pde hr hp')
  -- the table is reached through the entry that was just written
  let m₁ := setEntry s.phys s.cr3 (p / 1024) (link b)
  have hentry : ∀ i, entry m₁ s.cr3 i = if i = p / 1024 then link b else entry s.phys s.cr3 i := by
    intro i
    rw [entry_setEntry]
    simp
  have hr₁ : Recursive m₁ s.cr3 := by
    unfold Recursive
    rw [hentry, if_neg (by omega)]
    exact hr
  have ht₁ : table m₁ s.cr3 p = some f := by
    unfold table
    rw [hentry, if_pos rfl]
    exact target_link_page hb
  have hwalk := hr₁.walk_pte hp' ht₁
  have hspared : Spared m₁ s.cr3 (1023 * 1024 + p / 1024) f := by
    refine ⟨hdf, ?_⟩
    have hdiv : (1023 * 1024 + p / 1024) / 1024 = 1023 := by omega
    unfold table
    rw [hdiv, hr₁]
    simpa using hdf
  have hclear : clearBytes s.cr3 pgSize (ptePtr (pgSize * p) / pgSize * pgSize) m₁ =
      some (addTable s.phys s.cr3 (p / 1024) (link b) f) := by
    have hpage : ptePtr (pgSize * p) / pgSize * pgSize = 4096 * (1023 * 1024 + p / 1024) := by
      rw [Nat.mul_comm]
      congr 1
      exact ptePtr_page.1
    rw [hpage]
    exact clearBytes_page hwalk hspared
  rw [Wp.bind]
  apply wp_writeMem hclear
  apply wp_writePte
  · show target (entry (addTable _ _ _ _ _) s.cr3 1023) = some s.cr3
    rw [entry_addTable_dir hdf, if_neg (by omega)]
    exact hr
  · exact hp'
  · show target (entry (addTable _ _ _ _ _) s.cr3 (p / 1024)) = some f
    rw [entry_addTable_dir hdf, if_pos rfl]
    exact target_link_page hb
  · show target (entry (addTable _ _ _ _ _) f (p % 1024)) = none
    rw [entry_addTable_new (Nat.mod_lt _ (by decide))]
    rfl
  · exact hQ b qs hb hqs htook

/-- The entry of a mapped page names the frame of the page. -/
theorem wp_addrV2p {Q : Nat → Space → Prop} (hr : Recursive s.phys s.cr3) (hp : p < 2 ^ 20)
    (hf : walk s.phys s.cr3 p = some f) (hQ : Q (pgSize * f) s) :
    Wp (addrV2p (pgSize * p)) s F Q := by
  obtain ⟨t, ht, he⟩ := Option.bind_eq_some_iff.mp hf
  unfold addrV2p
  rw [Wp.bind]
  apply wp_readWord (loadWord_pte hr hp ht)
  have hdiv : (entry s.phys t (p % 1024)).toNat / 2 ^ 12 = f := by
    unfold target at he
    split at he
    · exact Option.some.inj he
    · cases he
  have hmod : pgSize * p % 2 ^ 12 = 0 := Nat.mul_mod_right _ _
  rw [hdiv, hmod, Nat.add_zero, Nat.mul_comm]
  exact hQ

theorem wp_pageDirActivate {Q : Unit → Space → Prop} (hr : Recursive s.phys s.cr3)
    (hp : p < 2 ^ 20) (hf : walk s.phys s.cr3 p = some f) (hQ : Q () { s with cr3 := f }) :
    Wp (pageDirActivate (some (pgSize * p))) s F Q := by
  unfold pageDirActivate
  rw [Wp.bind]
  apply wp_addrV2p hr hp hf
  rw [Wp.modify, Nat.mul_div_cancel_left f (by decide)]
  exact hQ

theorem wp_memcpyPage {Q : Unit → Space → Prop} {q g : Nat} (hp : walk s.phys s.cr3 p = some f)
    (hq : walk s.phys s.cr3 q = some g) (hfg : f ≠ g) (hsp : Spared s.phys s.cr3 p g)
    (hsq : Spared s.phys s.cr3 q g)
    (hQ : Q () { s with
      phys := Function.update s.phys g (splice (s.phys g) 0 pgSize (s.phys f)) }) :
    Wp (memcpyPage (pgSize * q) (pgSize * p)) s F Q :=
  wp_writeMem (copyBytes_page hp hq hfg hsp hsq) hQ

end

end OsTruth
