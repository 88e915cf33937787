/-
The copy of the user pages in `userprog/fork.c`.

The pages are copied through a buffer in the kernel, with the page directories of the parent
and of the child active in turn.  The bitmap of the parent is a value here, and so are the
bitmaps of the pools: no page that is written holds them.
-/
import Mathlib.Data.Finset.Image
import OsTruth.Kernel.MallocPage

namespace OsTruth

open ByteString Fallible Paging

/-- The memory of a process, as `struct task_struct` has it. -/
structure UserMem where
  pgdir : Option Nat
  userprogVaddr : UserVaddr

/-! ## Functions -/

section
variable (childThread parentThread : UserMem) (bufPage : Nat)

/-- The copy of one page in `copy_body_stack3`.  The result of the allocation is not
checked. -/
def copyProgPage (progVaddr : Nat) : Mmu Unit := do
  memcpyPage bufPage progVaddr
  pageDirActivate childThread.pgdir
  let _ ← getAPageWithoutOpvaddrbitmap .pfUser progVaddr
  memcpyPage progVaddr bufPage
  pageDirActivate parentThread.pgdir

def copyBits (idxByte : Nat) : Nat → Nat → Mmu Unit
  | 0, _ => pure ()
  | left + 1, idxBit => do
      if (parentThread.userprogVaddr.vaddrBitmap.bits idxByte).toNat.testBit idxBit then
        copyProgPage childThread parentThread bufPage
          (((idxByte * 8 + idxBit) * pgSize + parentThread.userprogVaddr.vaddrStart) % 2 ^ 32)
      copyBits idxByte left (idxBit + 1)

def copyBytesOf : Nat → Nat → Mmu Unit
  | 0, _ => pure ()
  | left + 1, idxByte => do
      if parentThread.userprogVaddr.vaddrBitmap.bits idxByte ≠ 0 then
        copyBits childThread parentThread bufPage idxByte 8 0
      copyBytesOf left (idxByte + 1)

def copyBodyStack3 : Mmu Unit :=
  copyBytesOf childThread parentThread bufPage
    parentThread.userprogVaddr.vaddrBitmap.btmpBytesLen 0

end

/-! ## The property -/

namespace UserVaddr

/-- The page of bit `i`. -/
def page (v : UserVaddr) (i : Nat) : Nat := v.vaddrStart / pgSize + i

def used (v : UserVaddr) (k : Nat) : Finset Nat :=
  (Finset.range k).filter fun i => v.vaddrBitmap.bit i = true

/-- The number of bits. -/
def size (v : UserVaddr) : Nat := 8 * v.vaddrBitmap.btmpBytesLen

/-- The tables that the pages of the bits below `k` need. -/
def tables (v : UserVaddr) (k : Nat) : Finset Nat := (v.used k).image fun i => v.page i / 1024

end UserVaddr

/-- The number of pages below the kernel, and of the tables for them. -/
def userPages : Nat := 0xc0000000 / pgSize

def userTables : Nat := 768

/-- A frame of the address space of directory `d`: the directory, a table or a user page. -/
def Uses (m : Phys) (d f : Nat) : Prop :=
  f = d ∨ (∃ i < 1023, target (entry m d i) = some f) ∨
    ∃ p < userPages, walk m d p = some f

/-- Kernel page `p` is in frame `f`. -/
structure KernelPage (s : Space) (p f : Nat) : Prop where
  low : userPages ≤ p
  high : p < 1023 * 1024
  walk : walk s.phys s.cr3 p = some f

/-- The state before the copy.  The directory of the parent is active, and the directory of
the child, in frame `dc`, is as `create_page_dir` returns it: no user part, and the entries
of the parent for the kernel.  No frame that the parent uses is free, or is the directory of
the child or the buffer. -/
structure CopyReady (allMem : UInt32) (s : Space) (childThread parentThread : UserMem)
    (bufPage dc bf : Nat) : Prop where
  layout : PoolsLayout allMem s.pools
  parentSelf : Recursive s.phys s.cr3
  childSelf : Recursive s.phys dc
  kernel : ∀ i, 768 ≤ i → i < 1023 → entry s.phys dc i = entry s.phys s.cr3 i
  empty : ∀ i < 768, target (entry s.phys dc i) = none
  parentDir : ∃ p, parentThread.pgdir = some (pgSize * p) ∧ KernelPage s p s.cr3
  childDir : ∃ p, childThread.pgdir = some (pgSize * p) ∧ KernelPage s p dc
  buffer : ∃ p, bufPage = pgSize * p ∧ KernelPage s p bf
  used : ∀ f, Uses s.phys s.cr3 f → ¬FreeFrame s.pools f ∧ f ≠ dc ∧ f ≠ bf
  childUsed : ¬FreeFrame s.pools dc
  bufUsed : ¬FreeFrame s.pools bf
  apart : dc ≠ bf
  mapped : ∀ i ∈ parentThread.userprogVaddr.used parentThread.userprogVaddr.size,
    ∃ f, walk s.phys s.cr3 (parentThread.userprogVaddr.page i) = some f
  userFrames : (parentThread.userprogVaddr.used parentThread.userprogVaddr.size).card ≤
    freeCount s.pools .pfUser
  kernelFrames : (parentThread.userprogVaddr.tables parentThread.userprogVaddr.size).card ≤
    freeCount s.pools .pfKernel

/-- The user pages of the child are copies, in frames of their own. -/
structure CopiedPages (s t : Space) (v : UserVaddr) (dc bf : Nat) : Prop where
  active : t.cr3 = s.cr3
  mapped : ∀ p < userPages, (∃ f, walk t.phys dc p = some f) ↔ ∃ i ∈ v.used v.size, v.page i = p
  apart : ∀ p < userPages, ∀ q < userPages, ∀ f, walk t.phys dc p = some f →
    walk t.phys dc q = some f → p = q
  fresh : ∀ p < userPages, ∀ f, walk t.phys dc p = some f →
    FreeFrame s.pools f ∧ ¬InUse s.pools f ∧ ¬Uses s.phys s.cr3 f ∧ f ≠ dc ∧ f ≠ bf ∧
      InUse t.pools f
  content : ∀ p < userPages, ∀ f g, walk t.phys dc p = some f → walk s.phys s.cr3 p = some g →
    ∀ i < pgSize, t.phys f i = s.phys g i
  parent : ∀ p < userPages, walk t.phys s.cr3 p = walk s.phys s.cr3 p
  parentContent : ∀ p < userPages, ∀ g, walk s.phys s.cr3 p = some g → t.phys g = s.phys g

/-! ## The space of the child while it is built -/

/-- The frames that the child owns: its tables and its pages below the kernel. -/
def childSlots (t : Space) (dc : Nat) : Slot → Option Nat := slots t.phys dc userTables

/-- What holds all along.  The pages in `P` have the bytes of the parent. -/
structure Copying (allMem : UInt32) (s : Space) (dc bf : Nat) (P : Nat → Prop) (t : Space) :
    Prop where
  layout : PoolsLayout allMem t.pools
  inj : ∀ x y f, childSlots t dc x = some f → childSlots t dc y = some f → x = y
  fresh : ∀ x f, childSlots t dc x = some f → FreeFrame s.pools f ∧ InUse t.pools f
  free : ∀ f, FreeFrame t.pools f → FreeFrame s.pools f
  kept : ∀ f, ¬FreeFrame s.pools f → f ≠ dc → f ≠ bf → t.phys f = s.phys f
  high : ∀ i, userTables ≤ i → entry t.phys dc i = entry s.phys dc i
  content : ∀ p f g, P p → childSlots t dc (.page p) = some f →
    walk s.phys s.cr3 p = some g → ∀ i < pgSize, t.phys f i = s.phys g i

section
variable {allMem : UInt32} {s t : Space} {childThread parentThread : UserMem}
variable {bufPage dc bf : Nat} {P : Nat → Prop} {F : Fault → Prop}

/-- A frame of the child is not one of those that were in use. -/
theorem Copying.ne (h : Copying allMem s dc bf P t) {x : Slot} {f g : Nat}
    (hf : childSlots t dc x = some f) (hg : ¬FreeFrame s.pools g) : f ≠ g := by
  rintro rfl
  exact hg (h.fresh x f hf).1

theorem Copying.free_ne (h : Copying allMem s dc bf P t) {x : Slot} {f : Nat}
    (hf : FreeFrame t.pools f) : childSlots t dc x ≠ some f := by
  intro hx
  have hbit := hf.unique h.layout (h.fresh x f hx).2
  cases hbit

/-- A write into a frame that holds neither the directory nor a table of the child. -/
theorem Copying.write (h : Copying allMem s dc bf P t) {g : Nat} {x : Bytes} {Q : Nat → Prop}
    (hg : FreeFrame s.pools g ∨ g = bf) (hd : dc ≠ g)
    (ht : ∀ i, childSlots t dc (.table i) ≠ some g)
    (hQ : ∀ p f f', Q p → childSlots t dc (.page p) = some f → walk s.phys s.cr3 p = some f' →
      if f = g then ∀ i < pgSize, x i = s.phys f' i else P p) :
    Copying allMem s dc bf Q { t with phys := Function.update t.phys g x } := by
  have hslots : childSlots { t with phys := Function.update t.phys g x } dc = childSlots t dc :=
    slots_update hd ht
  refine ⟨h.layout, ?_, ?_, h.free, ?_, ?_, ?_⟩
  · rw [hslots]
    exact h.inj
  · rw [hslots]
    exact h.fresh
  · intro f hf hfd hfb
    have hfg : f ≠ g := by
      rintro rfl
      exact hg.elim hf hfb
    show Function.update t.phys g x f = s.phys f
    rw [Function.update_of_ne hfg]
    exact h.kept f hf hfd hfb
  · intro i hi
    show entry (Function.update t.phys g x) dc i = _
    unfold entry
    rw [Function.update_of_ne hd]
    exact h.high i hi
  · intro p f f' hp hf hf' i hi
    rw [hslots] at hf
    have hold := hQ p f f' hp hf hf'
    show Function.update t.phys g x f i = s.phys f' i
    by_cases hfg : f = g
    · rw [if_pos hfg] at hold
      rw [hfg, Function.update_self]
      exact hold i hi
    · rw [if_neg hfg] at hold
      rw [Function.update_of_ne hfg]
      exact h.content p f f' hold hf hf' i hi

theorem Copying.took (h : Copying allMem s dc bf P t) {qs : Pools} {pf : PoolFlags} {f : Nat}
    (hl : PoolsLayout allMem qs) (hf : Took t.pools qs pf f) :
    Copying allMem s dc bf P { t with pools := qs } where
  layout := hl
  inj := h.inj
  fresh x g hg := ⟨(h.fresh x g hg).1, hf.inUse (Or.inr (h.fresh x g hg).2)⟩
  free g hg := h.free g (hf.free hg).1
  kept := h.kept
  high := h.high
  content := h.content

theorem Copying.activate (h : Copying allMem s dc bf P t) (d : Nat) :
    Copying allMem s dc bf P { t with cr3 := d } :=
  ⟨h.layout, h.inj, h.fresh, h.free, h.kept, h.high, h.content⟩

/-- A frame more for the child. -/
theorem Copying.slot (h : Copying allMem s dc bf P t) (hdc : ¬FreeFrame s.pools dc)
    {u : Space} {x : Slot} {f : Nat}
    (hpools : u.pools = t.pools)
    (hslots : childSlots u dc = Function.update (childSlots t dc) x (some f))
    (hf : FreeFrame s.pools f) (huse : InUse t.pools f) (hnew : ∀ y, childSlots t dc y ≠ some f)
    (hphys : ∀ g, g = f ∨ g = dc ∨ (∃ i, childSlots t dc (.table i) = some g) ∨
      u.phys g = t.phys g)
    (hhigh : ∀ i, userTables ≤ i → entry u.phys dc i = entry t.phys dc i)
    (hx : ∀ p, x = .page p → ¬P p) : Copying allMem s dc bf P u := by
  have hother : ∀ y g, childSlots u dc y = some g → y = x ∧ g = f ∨ childSlots t dc y = some g := by
    intro y g hg
    rw [hslots] at hg
    by_cases hy : y = x
    · rw [hy, Function.update_self] at hg
      exact Or.inl ⟨hy, (Option.some.inj hg).symm⟩
    · rw [Function.update_of_ne hy] at hg
      exact Or.inr hg
  refine ⟨?_, ?_, ?_, ?_, ?_, ?_, ?_⟩
  · rw [hpools]
    exact h.layout
  · intro y z g hy hz
    rcases hother y g hy with ⟨rfl, rfl⟩ | hy
    · rcases hother z g hz with ⟨rfl, -⟩ | hz
      · rfl
      · exact absurd hz (hnew z)
    · rcases hother z g hz with ⟨rfl, rfl⟩ | hz
      · exact absurd hy (hnew y)
      · exact h.inj y z g hy hz
  · intro y g hy
    rw [hpools]
    rcases hother y g hy with ⟨-, rfl⟩ | hy
    · exact ⟨hf, huse⟩
    · exact h.fresh y g hy
  · rw [hpools]
    exact h.free
  · intro g hg hgd hgb
    rcases hphys g with rfl | rfl | ⟨i, hi⟩ | heq
    · exact absurd hf hg
    · exact absurd rfl hgd
    · exact absurd rfl (h.ne hi hg)
    · rw [heq]
      exact h.kept g hg hgd hgb
  · intro i hi
    rw [hhigh i hi]
    exact h.high i hi
  · intro p g g' hP hg hg' i hi
    rcases hother _ g hg with ⟨hp, -⟩ | hold
    · exact absurd hP (hx p hp.symm)
    · have hsame : u.phys g = t.phys g := by
        rcases hphys g with rfl | rfl | ⟨j, hj⟩ | heq
        · exact absurd hold (hnew _)
        · exact absurd rfl (h.ne hold hdc)
        · cases h.inj _ _ g hold hj
        · exact heq
      rw [hsame]
      exact h.content p g g' hP hold hg' i hi

/-! ## The two spaces meanwhile -/

variable {p q f g : Nat}

section
variable (h₀ : CopyReady allMem s childThread parentThread bufPage dc bf)
variable (h : Copying allMem s dc bf P t)
include h₀ h

theorem Copying.kept_used (hf : Uses s.phys s.cr3 f) : t.phys f = s.phys f := by
  obtain ⟨hfree, hfd, hfb⟩ := h₀.used f hf
  exact h.kept f hfree hfd hfb

theorem Copying.parent_entry (i : Nat) : entry t.phys s.cr3 i = entry s.phys s.cr3 i := by
  unfold entry
  rw [h.kept_used h₀ (Or.inl rfl)]

theorem Copying.parent_self : Recursive t.phys s.cr3 := by
  unfold Recursive
  rw [h.parent_entry h₀]
  exact h₀.parentSelf

theorem Copying.parent_walk (hp : p < 1023 * 1024) :
    walk t.phys s.cr3 p = walk s.phys s.cr3 p := by
  apply walk_congr (h.parent_entry h₀ _)
  intro i hi
  exact h.kept_used h₀ (Or.inr (Or.inl ⟨p / 1024, by omega, hi⟩))

/-- The parent does not read the frames that are written. -/
theorem Copying.parent_spared (hp : p < 1023 * 1024) : Spared t.phys s.cr3 p bf := by
  refine ⟨(h₀.used _ (Or.inl rfl)).2.2, ?_⟩
  unfold table
  rw [h.parent_entry h₀]
  intro ht
  exact (h₀.used bf (Or.inr (Or.inl ⟨p / 1024, by omega, ht⟩))).2.2 rfl

theorem Copying.child_self : Recursive t.phys dc := by
  unfold Recursive
  rw [h.high 1023 (by decide)]
  exact h₀.childSelf

theorem Copying.child_entry (hlow : userPages ≤ p) (hp : p < 1023 * 1024) :
    entry t.phys dc (p / 1024) = entry s.phys s.cr3 (p / 1024) := by
  have hdiv : 768 ≤ p / 1024 := by
    simp only [userPages, pgSize] at hlow
    omega
  rw [h.high _ hdiv]
  exact h₀.kernel _ hdiv (by omega)

/-- The kernel is at the same place in the space of the child. -/
theorem Copying.child_walk (hlow : userPages ≤ p) (hp : p < 1023 * 1024) :
    walk t.phys dc p = walk s.phys s.cr3 p := by
  apply walk_congr (h.child_entry h₀ hlow hp)
  intro i hi
  exact h.kept_used h₀ (Or.inr (Or.inl ⟨p / 1024, by omega, hi⟩))

theorem Copying.child_spared (hlow : userPages ≤ p) (hp : p < 1023 * 1024)
    (hf : FreeFrame s.pools f) : Spared t.phys dc p f := by
  constructor
  · rintro rfl
    exact h₀.childUsed hf
  · unfold table
    rw [h.child_entry h₀ hlow hp]
    intro ht
    exact (h₀.used f (Or.inr (Or.inl ⟨p / 1024, by omega, ht⟩))).1 hf

end

end

/-! ## The copy of a page -/

/-- Page `p` was added to the space of the child, with a table if it had none. -/
structure Added (t u : Space) (dc p f : Nat) : Prop where
  page : childSlots u dc (.page p) = some f
  others : ∀ q, q ≠ p → childSlots u dc (.page q) = childSlots t dc (.page q)
  tables : ∀ i, (∃ g, childSlots u dc (.table i) = some g) ↔
    (∃ g, childSlots t dc (.table i) = some g) ∨ i = p / 1024
  kernel : freeCount u.pools .pfKernel +
    (if childSlots t dc (.table (p / 1024)) = none then 1 else 0) = freeCount t.pools .pfKernel

section
variable {allMem : UInt32} {s t u : Space} {childThread parentThread : UserMem}
variable {bufPage dc bf p f : Nat} {P : Nat → Prop} {F : Fault → Prop}
variable (h₀ : CopyReady allMem s childThread parentThread bufPage dc bf)
include h₀

/-- The entry of the page is written into a table of the child. -/
theorem Copying.add_page (h : Copying allMem s dc bf P t) {a : UInt32} {i : Nat}
    (hi : childSlots t dc (.table (p / 1024)) = some i) (hp : p / 1024 < userTables)
    (ha : a.toNat % pgSize = 0) (hs : FreeFrame s.pools (a.toNat / pgSize))
    (hu : InUse t.pools (a.toNat / pgSize))
    (hnew : ∀ y, childSlots t dc y ≠ some (a.toNat / pgSize)) (hP : ¬P p) :
    childSlots { t with phys := setEntry t.phys i (p % 1024) (link a) } dc =
        Function.update (childSlots t dc) (.page p) (some (a.toNat / pgSize)) ∧
      Copying allMem s dc bf P { t with phys := setEntry t.phys i (p % 1024) (link a) } := by
  have hne : i ≠ dc := h.ne hi h₀.childUsed
  have hslots : childSlots { t with phys := setEntry t.phys i (p % 1024) (link a) } dc =
      Function.update (childSlots t dc) (.page p) (some (a.toNat / pgSize)) := by
    apply slots_setEntry hp hne hi
    · intro j hj
      cases h.inj _ _ i hj hi
      rfl
    · exact target_link_page ha
  refine ⟨hslots, h.slot h₀.childUsed rfl hslots hs hu hnew ?_ ?_ ?_⟩
  · intro g
    by_cases hg : g = i
    · rw [hg]
      exact Or.inr (Or.inr (Or.inl ⟨_, hi⟩))
    · exact Or.inr (Or.inr (Or.inr (setEntry_other hg)))
  · intro j _
    show entry (setEntry _ _ _ _) dc j = _
    rw [entry_setEntry, if_neg fun hd => hne hd.1.symm]
  · intro q hq
    cases hq
    exact hP

/-- An empty table is added to the child. -/
theorem Copying.add_table (h : Copying allMem s dc bf P t) {b : UInt32} {i : Nat}
    (hi : childSlots t dc (.table i) = none) (hlt : i < userTables) (hb : b.toNat % pgSize = 0)
    (hs : FreeFrame s.pools (b.toNat / pgSize)) (hu : InUse t.pools (b.toNat / pgSize))
    (hnew : ∀ y, childSlots t dc y ≠ some (b.toNat / pgSize)) :
    childSlots { t with phys := addTable t.phys dc i (link b) (b.toNat / pgSize) } dc =
        Function.update (childSlots t dc) (.table i) (some (b.toNat / pgSize)) ∧
      Copying allMem s dc bf P
        { t with phys := addTable t.phys dc i (link b) (b.toNat / pgSize) } := by
  have hne : dc ≠ b.toNat / pgSize := by
    intro heq
    apply h₀.childUsed
    rw [heq]
    exact hs
  have hslots : childSlots { t with phys := addTable t.phys dc i (link b) (b.toNat / pgSize) } dc =
      Function.update (childSlots t dc) (.table i) (some (b.toNat / pgSize)) := by
    apply slots_addTable hlt hne (target_link_page hb) hi
    · intro j hj
      exact h.ne hj h₀.childUsed rfl
    · intro j
      exact hnew _
  refine ⟨hslots, h.slot h₀.childUsed rfl hslots hs hu hnew ?_ ?_ ?_⟩
  · intro g
    by_cases hd : g = dc
    · exact Or.inr (Or.inl hd)
    · by_cases hg : g = b.toNat / pgSize
      · exact Or.inl hg
      · exact Or.inr (Or.inr (Or.inr (addTable_other hd hg)))
  · intro j hj
    show entry (addTable _ _ _ _ _) dc j = _
    rw [entry_addTable_dir hne, if_neg]
    omega
  · intro q hq
    cases hq

/-- Page `p` is added to the space of the child, which is active. -/
theorem Copying.wp_pageTableAdd (h : Copying allMem s dc bf P t) (hcr3 : t.cr3 = dc)
    (hp : p < userPages) (hP : ¬P p) (hnone : childSlots t dc (.page p) = none)
    (hkernel : childSlots t dc (.table (p / 1024)) = none → 1 ≤ freeCount t.pools .pfKernel)
    {a : UInt32} (ha : a.toNat % pgSize = 0) (hs : FreeFrame s.pools (a.toNat / pgSize))
    (hu : InUse t.pools (a.toNat / pgSize))
    (hnew : ∀ y, childSlots t dc y ≠ some (a.toNat / pgSize)) :
    Wp (pageTableAdd (pgSize * p) a) t F fun _ u =>
      u.cr3 = dc ∧ Copying allMem s dc bf P u ∧ Added t u dc p (a.toNat / pgSize) ∧
        freeCount u.pools .pfUser = freeCount t.pools .pfUser ∧ u.phys bf = t.phys bf := by
  subst hcr3
  have hdiv : p / 1024 < userTables := by
    simp only [userPages, pgSize, userTables] at *
    omega
  have hp' : p < 1023 * 1024 := by
    simp only [userPages, pgSize] at hp
    omega
  have hself := h.child_self h₀
  have htable : table t.phys t.cr3 p = childSlots t t.cr3 (.table (p / 1024)) := table_slot hdiv
  cases htab : childSlots t t.cr3 (.table (p / 1024)) with
  | some i =>
      rw [htab] at htable
      have hentry : target (entry t.phys i (p % 1024)) = none := by
        have hwalk : walk t.phys t.cr3 p = none := (slots_page hdiv).symm.trans hnone
        unfold walk at hwalk
        rw [htable, Option.bind_some] at hwalk
        exact hwalk
      obtain ⟨hslots, h₁⟩ := h.add_page h₀ htab hdiv ha hs hu hnew hP
      apply wp_pageTableAdd_some hself (by omega) htable hentry
      refine ⟨rfl, h₁, ⟨?_, ?_, ?_, ?_⟩, rfl,
        setEntry_other (h.ne htab h₀.bufUsed).symm⟩
      · rw [hslots, Function.update_self]
      · intro q hq
        rw [hslots, Function.update_of_ne (by simpa using hq)]
      · intro j
        rw [hslots, Function.update_of_ne (by simp)]
        constructor
        · exact Or.inl
        · rintro (hj | rfl)
          · exact hj
          · exact ⟨i, htab⟩
      · simp [htab]
  | none =>
      rw [htab] at htable
      have hdc : ¬FreeFrame t.pools t.cr3 := by
        intro hd
        exact h₀.childUsed (h.free _ hd)
      apply wp_pageTableAdd_none h.layout (hkernel htab) hself hp' htable hdc
      intro b qs hb hqs htook
      have hab : b.toNat / pgSize ≠ a.toNat / pgSize := by
        intro heq
        have hfree := htook.was
        rw [heq] at hfree
        cases hfree.unique h.layout hu
      obtain ⟨hslots₁, h₁⟩ := (h.took hqs htook).add_table h₀ htab hdiv hb (h.free _ htook.was)
        (htook.inUse (Or.inl rfl)) (fun y => h.free_ne htook.was)
      have hslots₁' : ∀ y, childSlots { t with
          pools := qs
          phys := addTable t.phys t.cr3 (p / 1024) (link b) (b.toNat / pgSize) } t.cr3 y =
            if y = .table (p / 1024) then some (b.toNat / pgSize) else childSlots t t.cr3 y := by
        intro y
        rw [hslots₁, Function.update_apply]
        rfl
      have htab₁ := hslots₁' (.table (p / 1024))
      rw [if_pos rfl] at htab₁
      have hnew₁ : ∀ y, childSlots { t with
          pools := qs
          phys := addTable t.phys t.cr3 (p / 1024) (link b) (b.toNat / pgSize) } t.cr3 y ≠
            some (a.toNat / pgSize) := by
        intro y
        rw [hslots₁']
        by_cases hy : y = .table (p / 1024)
        · rw [if_pos hy]
          simpa using hab
        · rw [if_neg hy]
          exact hnew y
      obtain ⟨hslots₂, h₂⟩ := h₁.add_page h₀ htab₁ hdiv ha hs (htook.inUse (Or.inr hu)) hnew₁ hP
      refine ⟨rfl, h₂, ⟨?_, ?_, ?_, ?_⟩, htook.other .pfUser (by decide), ?_⟩
      · rw [hslots₂, Function.update_self]
      · intro q hq
        rw [hslots₂, Function.update_of_ne (by simpa using hq), hslots₁', if_neg (by simp)]
      · intro j
        rw [hslots₂, Function.update_of_ne (by simp), hslots₁']
        by_cases hj : j = p / 1024
        · simp [hj]
        · simp [hj]
      · rw [if_pos htab]
        exact htook.count
      · have hbf : bf ≠ b.toNat / pgSize := by
          intro heq
          apply h₀.bufUsed
          rw [heq]
          exact h.free _ htook.was
        show setEntry _ _ _ _ bf = _
        rw [setEntry_other hbf, addTable_other h₀.apart.symm hbf]

/-- The allocation of page `p` in the space of the child. -/
theorem Copying.wp_getAPage (h : Copying allMem s dc bf P t) (hcr3 : t.cr3 = dc)
    (hp : p < userPages) (hP : ¬P p) (hnone : childSlots t dc (.page p) = none)
    (huser : 1 ≤ freeCount t.pools .pfUser)
    (hkernel : childSlots t dc (.table (p / 1024)) = none → 1 ≤ freeCount t.pools .pfKernel) :
    Wp (getAPageWithoutOpvaddrbitmap .pfUser (pgSize * p)) t F fun _ u =>
      u.cr3 = dc ∧ Copying allMem s dc bf P u ∧ (∃ f, Added t u dc p f) ∧
        freeCount u.pools .pfUser + 1 = freeCount t.pools .pfUser ∧ u.phys bf = t.phys bf := by
  unfold getAPageWithoutOpvaddrbitmap
  rw [Wp.bind]
  apply wp_pallocOf h.layout huser
  intro a qs ha hqs htook
  rw [Wp.bind]
  have hother := htook.other .pfKernel (by decide)
  apply ((h.took hqs htook).wp_pageTableAdd h₀ hcr3 hp hP hnone (by rwa [hother]) ha
    (h.free _ htook.was) (htook.inUse (Or.inl rfl)) (fun y => h.free_ne htook.was)).call
  intro _ u ⟨hu, hcopy, hadd, hcount, hbuf⟩
  refine ⟨hu, hcopy, ⟨_, hadd.page, hadd.others, hadd.tables, ?_⟩, ?_, hbuf⟩
  · rw [← hother]
    exact hadd.kernel
  · rw [hcount]
    exact htook.count

end

section
variable {allMem : UInt32} {s t u : Space} {childThread parentThread : UserMem}
variable {bufPage dc bf p f g : Nat} {P : Nat → Prop} {F : Fault → Prop}

theorem Added.congr {t' u' : Space} (h : Added t' u' dc p f)
    (ht : childSlots t' dc = childSlots t dc) (hu : childSlots u dc = childSlots u' dc)
    (htp : t'.pools = t.pools) (hup : u.pools = u'.pools) : Added t u dc p f where
  page := by
    rw [hu]
    exact h.page
  others := by
    rw [hu, ← ht]
    exact h.others
  tables := by
    rw [hu, ← ht]
    exact h.tables
  kernel := by
    rw [hup, ← htp, ← ht]
    exact h.kernel

variable (h₀ : CopyReady allMem s childThread parentThread bufPage dc bf)
include h₀

/-- One page of the parent is copied. -/
theorem Copying.wp_copyProgPage (h : Copying allMem s dc bf (fun _ => True) t)
    (hcr3 : t.cr3 = s.cr3) (hp : p < userPages) (hg : walk s.phys s.cr3 p = some g)
    (hnone : childSlots t dc (.page p) = none) (huser : 1 ≤ freeCount t.pools .pfUser)
    (hkernel : childSlots t dc (.table (p / 1024)) = none → 1 ≤ freeCount t.pools .pfKernel) :
    Wp (copyProgPage childThread parentThread bufPage (pgSize * p)) t F fun _ u =>
      u.cr3 = s.cr3 ∧ Copying allMem s dc bf (fun _ => True) u ∧ (∃ f, Added t u dc p f) ∧
        freeCount u.pools .pfUser + 1 = freeCount t.pools .pfUser := by
  have hp' : p < 1023 * 1024 := by
    simp only [userPages, pgSize] at hp
    omega
  have hdiv : p / 1024 < userTables := by
    simp only [userPages, pgSize, userTables] at *
    omega
  obtain ⟨pp, hpp, hparent⟩ := h₀.parentDir
  obtain ⟨cp, hcp, hchild⟩ := h₀.childDir
  obtain ⟨bp, rfl, hbuf⟩ := h₀.buffer
  have hg_used := h₀.used g (Or.inr (Or.inr ⟨p, hp, hg⟩))
  have hpages : ∀ q, q < 1023 * 1024 → q < 2 ^ 20 := by omega
  unfold copyProgPage
  -- the page goes to the buffer
  rw [Wp.bind]
  apply wp_memcpyPage (f := g) (g := bf)
  · rw [hcr3, h.parent_walk h₀ hp']
    exact hg
  · rw [hcr3, h.parent_walk h₀ hbuf.high]
    exact hbuf.walk
  · exact hg_used.2.2
  · rw [hcr3]
    exact h.parent_spared h₀ hp'
  · rw [hcr3]
    exact h.parent_spared h₀ hbuf.high
  have hbf : ∀ x, childSlots t dc x ≠ some bf := fun x hx => h.ne hx h₀.bufUsed rfl
  have hslots₁ : childSlots { t with
      phys := Function.update t.phys bf (splice (t.phys bf) 0 pgSize (t.phys g)) } dc =
        childSlots t dc := slots_update h₀.apart fun i => hbf _
  have h₁ := h.write (x := splice (t.phys bf) 0 pgSize (t.phys g)) (Q := (· ≠ p)) (Or.inr rfl)
    h₀.apart (fun i => hbf _) (by
      intro q f f' _ hf _
      rw [if_neg]
      · trivial
      · rintro rfl
        exact hbf _ hf)
  -- the child becomes active
  rw [hcp, Wp.bind]
  apply wp_pageDirActivate (f := dc)
  · have hself := h₁.parent_self h₀
    rw [← hcr3] at hself
    exact hself
  · exact hpages cp hchild.high
  · have hwalk := (h₁.parent_walk h₀ hchild.high).trans hchild.walk
    rw [← hcr3] at hwalk
    exact hwalk
  have h₂ := h₁.activate dc
  rw [Wp.bind]
  apply (h₂.wp_getAPage h₀ rfl hp (by simp) (by rw [← hnone, ← hslots₁]; rfl) huser (by
    intro hn
    apply hkernel
    rw [← hn, ← hslots₁]
    rfl)).call
  intro _ v ⟨hv, h₃, ⟨f, hadd⟩, hcount, hkept⟩
  -- the buffer goes to the new page
  have hwalk : walk v.phys dc p = some f := by
    rw [← hadd.page]
    exact (slots_page hdiv).symm
  have hfresh := (h₃.fresh _ f hadd.page).1
  have hfb : f ≠ bf := h₃.ne hadd.page h₀.bufUsed
  have htab : ∀ i, childSlots v dc (.table i) ≠ some f := by
    intro i hi
    cases h₃.inj _ _ f hi hadd.page
  have hfd : dc ≠ f := (h₃.ne hadd.page h₀.childUsed).symm
  rw [Wp.bind]
  apply wp_memcpyPage (f := bf) (g := f)
  · rw [hv, h₃.child_walk h₀ hbuf.low hbuf.high]
    exact hbuf.walk
  · rw [hv]
    exact hwalk
  · exact hfb.symm
  · rw [hv]
    exact h₃.child_spared h₀ hbuf.low hbuf.high hfresh
  · rw [hv]
    refine ⟨hfd, ?_⟩
    rw [table_slot hdiv]
    exact htab _
  have hslots₃ : childSlots { v with
      phys := Function.update v.phys f (splice (v.phys f) 0 pgSize (v.phys bf)) } dc =
        childSlots v dc := slots_update hfd htab
  have hbytes : ∀ i < pgSize, v.phys bf i = s.phys g i := by
    intro i hi
    have hbuf' : v.phys bf = splice (t.phys bf) 0 pgSize (t.phys g) := by
      rw [hkept]
      exact Function.update_self ..
    rw [hbuf', splice_inside (by omega) (by omega), Nat.sub_zero,
      h.kept g hg_used.1 hg_used.2.1 hg_used.2.2]
  have h₄ := h₃.write (x := splice (v.phys f) 0 pgSize (v.phys bf)) (Q := fun _ => True)
    (Or.inl hfresh) hfd htab (by
      intro q f' g' _ hf' hg'
      by_cases hq : f' = f
      · rw [if_pos hq]
        rw [hq] at hf'
        cases h₃.inj _ _ f hf' hadd.page
        rw [hg, Option.some.injEq] at hg'
        intro i hi
        rw [splice_inside (by omega) (by omega), Nat.sub_zero, hbytes i hi, hg']
      · rw [if_neg hq]
        rintro rfl
        rw [hadd.page, Option.some.injEq] at hf'
        exact hq hf'.symm)
  -- the parent becomes active again
  rw [hpp]
  apply wp_pageDirActivate (f := s.cr3)
  · have hself := h₄.child_self h₀
    rw [← hv] at hself
    exact hself
  · exact hpages pp hparent.high
  · have hwalk := (h₄.child_walk h₀ hparent.low hparent.high).trans hparent.walk
    rw [← hv] at hwalk
    exact hwalk
  refine ⟨rfl, h₄.activate _, ⟨f, hadd.congr ?_ ?_ rfl rfl⟩, hcount⟩
  · exact hslots₁
  · exact hslots₃

end

/-! ## The loops -/

structure CopiedTo (allMem : UInt32) (s : Space) (dc bf : Nat) (v : UserVaddr) (k : Nat)
    (t : Space) : Prop where
  active : t.cr3 = s.cr3
  copying : Copying allMem s dc bf (fun _ => True) t
  pages : ∀ p, (∃ f, childSlots t dc (.page p) = some f) ↔ ∃ i ∈ v.used k, v.page i = p
  tables : ∀ j, (∃ f, childSlots t dc (.table j) = some f) ↔ j ∈ v.tables k
  user : freeCount t.pools .pfUser + (v.used k).card = freeCount s.pools .pfUser
  kernel : freeCount t.pools .pfKernel + (v.tables k).card = freeCount s.pools .pfKernel

namespace UserVaddr

variable {v : UserVaddr} {k n : Nat}

theorem used_succ (h : v.vaddrBitmap.bit k = true) : v.used (k + 1) = insert k (v.used k) := by
  unfold used
  rw [Finset.range_add_one, Finset.filter_insert, if_pos h]

theorem used_skip (h : v.vaddrBitmap.bit k = false) : v.used (k + 1) = v.used k := by
  unfold used
  rw [Finset.range_add_one, Finset.filter_insert, if_neg (by simp [h])]

theorem not_mem_used : k ∉ v.used k := by simp [used]

theorem tables_succ (h : v.vaddrBitmap.bit k = true) :
    v.tables (k + 1) = insert (v.page k / 1024) (v.tables k) := by
  unfold tables
  rw [used_succ h, Finset.image_insert]

theorem used_mono (h : k ≤ n) : v.used k ⊆ v.used n :=
  Finset.filter_subset_filter _ (Finset.range_mono h)

theorem tables_mono (h : k ≤ n) : v.tables k ⊆ v.tables n :=
  Finset.image_subset_image (used_mono h)

theorem page_lt (hk : k < v.size) : v.page k < userPages := by
  have hb := v.below
  have ha := v.aligned
  simp only [size, page, userPages, pgSize] at *
  omega

theorem page_inj {i j : Nat} (h : v.page i = v.page j) : i = j := by
  unfold page at h
  omega

/-- The address of page `k`. -/
theorem page_addr (hk : k < v.size) : (k * pgSize + v.vaddrStart) % 2 ^ 32 = pgSize * v.page k := by
  have hb := v.below
  have ha := v.aligned
  simp only [size, page, pgSize] at *
  omega

end UserVaddr

section
variable {allMem : UInt32} {s t u : Space} {childThread parentThread : UserMem}
variable {bufPage dc bf k : Nat} {F : Fault → Prop}

theorem CopiedTo.skip {v : UserVaddr} (h : CopiedTo allMem s dc bf v k t)
    (hbit : v.vaddrBitmap.bit k = false) : CopiedTo allMem s dc bf v (k + 1) t where
  active := h.active
  copying := h.copying
  pages := by
    rw [UserVaddr.used_skip hbit]
    exact h.pages
  tables := by
    unfold UserVaddr.tables
    rw [UserVaddr.used_skip hbit]
    exact h.tables
  user := by
    rw [UserVaddr.used_skip hbit]
    exact h.user
  kernel := by
    unfold UserVaddr.tables
    rw [UserVaddr.used_skip hbit]
    exact h.kernel

variable (h₀ : CopyReady allMem s childThread parentThread bufPage dc bf)
include h₀

theorem CopiedTo.step (h : CopiedTo allMem s dc bf parentThread.userprogVaddr k t)
    (hk : k < parentThread.userprogVaddr.size)
    (hbit : parentThread.userprogVaddr.vaddrBitmap.bit k = true) :
    Wp (copyProgPage childThread parentThread bufPage
      (pgSize * parentThread.userprogVaddr.page k)) t F fun _ u =>
        CopiedTo allMem s dc bf parentThread.userprogVaddr (k + 1) u := by
  let v := parentThread.userprogVaddr
  have hmem : k ∈ v.used v.size := by simp [UserVaddr.used, hk, v, hbit]
  obtain ⟨g, hg⟩ := h₀.mapped k hmem
  have hused : v.used (k + 1) = insert k (v.used k) := UserVaddr.used_succ hbit
  have htables : v.tables (k + 1) = insert (v.page k / 1024) (v.tables k) :=
    UserVaddr.tables_succ hbit
  have hcard : (v.used (k + 1)).card = (v.used k).card + 1 := by
    rw [hused, Finset.card_insert_of_notMem UserVaddr.not_mem_used]
  have huser : _ + (v.used k).card = _ := h.user
  have hkernel : _ + (v.tables k).card = _ := h.kernel
  have hle := Finset.card_le_card (UserVaddr.used_mono (v := v) (show k + 1 ≤ v.size from hk))
  have hle' := Finset.card_le_card (UserVaddr.tables_mono (v := v) (show k + 1 ≤ v.size from hk))
  have hroom : (v.used v.size).card ≤ _ := h₀.userFrames
  have hroom' : (v.tables v.size).card ≤ _ := h₀.kernelFrames
  have hnone : childSlots t dc (.page (v.page k)) = none := by
    rw [Option.eq_none_iff_forall_ne_some]
    intro f hf
    obtain ⟨i, hi, hpage⟩ := (h.pages _).mp ⟨f, hf⟩
    rw [UserVaddr.page_inj hpage] at hi
    exact UserVaddr.not_mem_used hi
  have hnew : childSlots t dc (.table (v.page k / 1024)) = none ↔
      v.page k / 1024 ∉ v.tables k := by
    rw [← h.tables, Option.eq_none_iff_forall_ne_some]
    simp
  apply (h.copying.wp_copyProgPage h₀ h.active (UserVaddr.page_lt hk) hg hnone ?_ ?_).call
  · intro _ u ⟨hcr3, hcopy, ⟨f, hadd⟩, hcount⟩
    refine ⟨hcr3, hcopy, ?_, ?_, ?_, ?_⟩
    · intro p
      show _ ↔ ∃ i ∈ v.used (k + 1), v.page i = p
      rw [hused]
      by_cases hp : p = v.page k
      · rw [hp, hadd.page]
        simp
      · rw [hadd.others p hp, h.pages p]
        simp [Ne.symm hp, v]
    · intro j
      show _ ↔ j ∈ v.tables (k + 1)
      rw [htables, hadd.tables j, h.tables j, Finset.mem_insert, or_comm]
    · show _ + (v.used (k + 1)).card = _
      omega
    · show _ + (v.tables (k + 1)).card = _
      have hcount' := hadd.kernel
      rw [htables]
      by_cases hin : v.page k / 1024 ∈ v.tables k
      · rw [if_neg (by rw [hnew]; exact not_not.mpr hin)] at hcount'
        rw [Finset.insert_eq_of_mem hin]
        omega
      · rw [if_pos (hnew.mpr hin)] at hcount'
        rw [Finset.card_insert_of_notMem hin]
        omega
  · omega
  · intro hn
    rw [htables, Finset.card_insert_of_notMem (hnew.mp hn)] at hle'
    omega

/-- The loop over the bits. -/
theorem CopiedTo.bits {idxByte left idxBit : Nat}
    (hbyte : idxByte < parentThread.userprogVaddr.vaddrBitmap.btmpBytesLen)
    (hleft : left + idxBit = 8)
    (h : CopiedTo allMem s dc bf parentThread.userprogVaddr (idxByte * 8 + idxBit) t) :
    Wp (copyBits childThread parentThread bufPage idxByte left idxBit) t F fun _ u =>
      CopiedTo allMem s dc bf parentThread.userprogVaddr ((idxByte + 1) * 8) u := by
  induction left generalizing idxBit t with
  | zero =>
      have hbits : (idxByte + 1) * 8 = idxByte * 8 + idxBit := by omega
      rw [hbits]
      exact h
  | succ left ih =>
      have hk : idxByte * 8 + idxBit < parentThread.userprogVaddr.size := by
        unfold UserVaddr.size
        omega
      have hbit : parentThread.userprogVaddr.vaddrBitmap.bit (idxByte * 8 + idxBit) =
          (parentThread.userprogVaddr.vaddrBitmap.bits idxByte).toNat.testBit idxBit := by
        have hdiv : (idxByte * 8 + idxBit) / 8 = idxByte := by omega
        have hmod : (idxByte * 8 + idxBit) % 8 = idxBit := by omega
        unfold Bitmap.bit ByteString.testBit
        rw [hdiv, hmod]
      have hnext : ∀ u, CopiedTo allMem s dc bf parentThread.userprogVaddr
          (idxByte * 8 + idxBit + 1) u →
          Wp (copyBits childThread parentThread bufPage idxByte left (idxBit + 1)) u F fun _ w =>
            CopiedTo allMem s dc bf parentThread.userprogVaddr ((idxByte + 1) * 8) w :=
        fun u hu => ih (by omega) hu
      unfold copyBits
      by_cases hset : (parentThread.userprogVaddr.vaddrBitmap.bits idxByte).toNat.testBit idxBit =
          true
      · rw [if_pos hset, Wp.bind, UserVaddr.page_addr hk]
        exact (h.step h₀ hk (hbit.trans hset)).call fun _ u hu => hnext u hu
      · rw [if_neg hset]
        rw [Bool.not_eq_true] at hset
        exact hnext t (h.skip (hbit.trans hset))

/-- The loop over the bytes. -/
theorem CopiedTo.bytes {left idxByte : Nat}
    (hleft : left + idxByte = parentThread.userprogVaddr.vaddrBitmap.btmpBytesLen)
    (h : CopiedTo allMem s dc bf parentThread.userprogVaddr (idxByte * 8) t) :
    Wp (copyBytesOf childThread parentThread bufPage left idxByte) t F fun _ u =>
      CopiedTo allMem s dc bf parentThread.userprogVaddr parentThread.userprogVaddr.size u := by
  induction left generalizing idxByte t with
  | zero =>
      have hsize : parentThread.userprogVaddr.size = idxByte * 8 := by
        unfold UserVaddr.size
        omega
      rw [hsize]
      exact h
  | succ left ih =>
      unfold copyBytesOf
      by_cases hzero : parentThread.userprogVaddr.vaddrBitmap.bits idxByte = 0
      · rw [if_neg (not_not.mpr hzero)]
        -- the bits of a byte that is zero are skipped at once
        have hskip : ∀ n ≤ 8,
            CopiedTo allMem s dc bf parentThread.userprogVaddr (idxByte * 8 + n) t := by
          intro n
          induction n with
          | zero => exact fun _ => h
          | succ n ihn =>
              intro hn
              apply (ihn (by omega)).skip
              have hdiv : (idxByte * 8 + n) / 8 = idxByte := by omega
              unfold Bitmap.bit ByteString.testBit
              rw [hdiv, hzero]
              exact Nat.zero_testBit _
        have hnext := hskip 8 (Nat.le_refl 8)
        rw [show idxByte * 8 + 8 = (idxByte + 1) * 8 by omega] at hnext
        exact ih (by omega) hnext
      · rw [if_pos hzero, Wp.bind]
        have hbits : Wp (copyBits childThread parentThread bufPage idxByte 8 0) t F _ :=
          h.bits h₀ (by omega) rfl
        exact hbits.call fun _ u hu => ih (by omega) hu

/-- The state before the copy, in which the child has no pages. -/
theorem CopyReady.copiedTo :
    CopiedTo allMem s dc bf parentThread.userprogVaddr 0 s := by
  have hnone : ∀ x f, childSlots s dc x ≠ some f := by
    intro x f hf
    have htable : ∀ i, childSlots s dc (.table i) = none := by
      intro i
      by_cases hi : i < userTables
      · exact (slots_table hi).trans (h₀.empty i hi)
      · simp [childSlots, slots, hi]
    cases x with
    | table i =>
        rw [htable] at hf
        cases hf
    | page p =>
        obtain ⟨t, ht⟩ := slots_page_table hf
        cases (htable _).symm.trans ht
  refine ⟨rfl, ⟨h₀.layout, ?_, ?_, fun _ hf => hf, fun _ _ _ _ => rfl, fun _ _ => rfl, ?_⟩, ?_, ?_,
    ?_, ?_⟩
  · intro x y f hx
    exact absurd hx (hnone x f)
  · intro x f hx
    exact absurd hx (hnone x f)
  · intro p f g _ hf
    exact absurd hf (hnone _ f)
  · intro p
    simp [hnone, UserVaddr.used]
  · intro j
    simp [hnone, UserVaddr.tables, UserVaddr.used]
  · simp [UserVaddr.used]
  · simp [UserVaddr.tables, UserVaddr.used]

/-- At the end the child has copies of the pages. -/
theorem CopiedTo.copied
    (h : CopiedTo allMem s dc bf parentThread.userprogVaddr parentThread.userprogVaddr.size t) :
    CopiedPages s t parentThread.userprogVaddr dc bf := by
  have hslot : ∀ p < userPages, childSlots t dc (.page p) = walk t.phys dc p := by
    intro p hp
    apply slots_page
    simp only [userPages, pgSize, userTables] at *
    omega
  have hkernel : ∀ p < userPages, p < 1023 * 1024 := by
    intro p hp
    simp only [userPages, pgSize] at hp
    omega
  have hc := h.copying
  refine ⟨h.active, ?_, ?_, ?_, ?_, ?_, ?_⟩
  · intro p hp
    rw [← hslot p hp]
    exact h.pages p
  · intro p hp q hq f hf hf'
    rw [← hslot p hp] at hf
    rw [← hslot q hq] at hf'
    cases hc.inj _ _ f hf hf'
    rfl
  · intro p hp f hf
    rw [← hslot p hp] at hf
    obtain ⟨hfree, huse⟩ := hc.fresh _ f hf
    refine ⟨hfree, ?_, ?_, hc.ne hf h₀.childUsed, hc.ne hf h₀.bufUsed, huse⟩
    · intro hold
      cases hfree.unique h₀.layout hold
    · intro hold
      exact (h₀.used f hold).1 hfree
  · intro p hp f g hf hg
    rw [← hslot p hp] at hf
    exact hc.content p f g trivial hf hg
  · intro p hp
    exact hc.parent_walk h₀ (hkernel p hp)
  · intro p hp g hg
    exact hc.kept_used h₀ (Or.inr (Or.inr ⟨p, hp, hg⟩))

/-- The copy returns, and the child has copies of the pages of the parent. -/
theorem copyBodyStack3_copies :
    ∃ t, (copyBodyStack3 childThread parentThread bufPage).run s = .ok ((), t) ∧
      CopiedPages s t parentThread.userprogVaddr dc bf := by
  have hstart := h₀.copiedTo
  rw [show 0 = 0 * 8 from rfl] at hstart
  have hrun : Returns (copyBodyStack3 childThread parentThread bufPage) s fun _ t =>
      CopiedPages s t parentThread.userprogVaddr dc bf :=
    (hstart.bytes h₀ (Nat.add_zero _)).call fun _ t ht => ht.copied h₀
  obtain ⟨_, t, heq, hcopied⟩ := returns_iff.mp hrun
  exact ⟨t, heq, hcopied⟩

end

/-! ## An example -/

/-- A parent with the pages of bits 0 and 5, and the directory of a child in frame 4. -/
def twoPages : Space where
  phys
    | 1 => ofWords fun i => if i = 32 then 0x3007 else if i = 768 then 0x2007 else
        if i = 1023 then 0x1007 else 0
    | 2 => ofWords fun i => if i = 0 then 0x1007 else if i = 1 then 0x4007 else
        if i = 2 then 0x5007 else 0
    | 3 => ofWords fun i => if i = 72 then 0x6007 else if i = 77 then 0x7007 else 0
    | 4 => ofWords fun i => if i = 768 then 0x2007 else if i = 1023 then 0x4007 else 0
    | _ => fun _ => 0
  cr3 := 1
  pools := memPoolInit 0x400000

def twoPagesParent : UserMem where
  pgdir := some 0xc0000000
  userprogVaddr := UserVaddr.ofBits fun k => if k = 0 then 0x21 else 0

def twoPagesChild : UserMem := { twoPagesParent with pgdir := some 0xc0001000 }

section
open UserVaddr

theorem twoPages_entry (i : Nat) :
    entry twoPages.phys 1 i = (if i = 32 then 0x3007 else if i = 768 then 0x2007 else
      if i = 1023 then 0x1007 else 0) ∧
    entry twoPages.phys 3 i = (if i = 72 then 0x6007 else if i = 77 then 0x7007 else 0) ∧
    entry twoPages.phys 4 i = (if i = 768 then 0x2007 else if i = 1023 then 0x4007 else 0) :=
  ⟨wordAt_ofWords _ i, wordAt_ofWords _ i, wordAt_ofWords _ i⟩

theorem twoPages_used (k : Nat) : twoPagesParent.userprogVaddr.used k ⊆ {0, 5} := by
  intro i hi
  have hbit := (Finset.mem_filter.mp hi).2
  simp only [twoPagesParent, UserVaddr.ofBits, Bitmap.bit, ByteString.testBit] at hbit
  by_cases hlt : i < 8
  · rw [if_pos (by omega)] at hbit
    revert hbit
    clear hi
    revert i
    decide
  · rw [if_neg (by omega)] at hbit
    cases hbit.symm.trans (Nat.zero_testBit _)

theorem twoPages_low {f : Nat} (hf : f < 512) : ¬FreeFrame twoPages.pools f := by
  rintro ⟨pf, i, hi, -, haddr⟩
  have hl : PoolsLayout 0x400000 twoPages.pools := memPoolInit_layout (by decide)
  have hin := (hl.inside hi).1
  have hlow := hl.low
  have hapart := hl.apart
  simp only [pgSize] at haddr
  cases pf with
  | pfKernel =>
      simp only [Pools.pool] at hin haddr
      omega
  | pfUser =>
      simp only [Pools.pool] at hin haddr
      omega

theorem twoPages_free (pf : PoolFlags) : freeCount twoPages.pools pf = 256 := by
  have hlen : 8 * (twoPages.pools.pool pf).poolBitmap.btmpBytesLen = 256 := by
    cases pf <;> decide
  have hclear : ∀ i, (twoPages.pools.pool pf).poolBitmap.bit i = false := by
    intro i
    cases pf <;> exact Nat.zero_testBit _
  unfold freeCount
  rw [hlen]
  simp [hclear]

/-- The frames of the parent. -/
theorem twoPages_uses {f : Nat} (hf : Uses twoPages.phys 1 f) : f ∈ [1, 2, 3, 6, 7] := by
  have htable : ∀ i < 1023, ∀ t, target (entry twoPages.phys 1 i) = some t →
      i = 32 ∧ t = 3 ∨ i = 768 ∧ t = 2 := by
    intro i hi t ht
    rw [(twoPages_entry i).1] at ht
    split_ifs at ht with h₁ h₂ h₃
    · exact Or.inl ⟨h₁, (Option.some.inj ht).symm⟩
    · exact Or.inr ⟨h₂, (Option.some.inj ht).symm⟩
    · omega
    · cases ht
  rcases hf with rfl | ⟨i, hi, ht⟩ | ⟨p, hp, hw⟩
  · decide
  · rcases htable i hi f ht with ⟨-, rfl⟩ | ⟨-, rfl⟩ <;> decide
  · obtain ⟨t, ht, he⟩ := Option.bind_eq_some_iff.mp hw
    simp only [userPages, pgSize] at hp
    rcases htable _ (by omega) t ht with ⟨-, rfl⟩ | ⟨h768, -⟩
    · rw [(twoPages_entry _).2.1] at he
      split_ifs at he
      · rw [← Option.some.inj he]
        decide
      · rw [← Option.some.inj he]
        decide
      · cases he
    · omega

theorem twoPages_ready :
    CopyReady 0x400000 twoPages twoPagesChild twoPagesParent 0xc0002000 4 5 := by
  have hsize := twoPages_used twoPagesParent.userprogVaddr.size
  refine ⟨memPoolInit_layout (by decide), ?_, ?_, ?_, ?_, ⟨786432, rfl, ?_⟩,
    ⟨786433, rfl, ?_⟩, ⟨786434, rfl, ?_⟩, ?_, twoPages_low (by decide), twoPages_low (by decide),
    by decide, ?_, ?_, ?_⟩
  · unfold Recursive
    decide
  · unfold Recursive
    decide
  · intro i hlow hhigh
    rw [(twoPages_entry i).2.2]
    show _ = entry twoPages.phys 1 i
    rw [(twoPages_entry i).1]
    have h32 : i ≠ 32 := by omega
    have h1023 : i ≠ 1023 := by omega
    simp [h32, h1023]
  · intro i hi
    have h768 : i ≠ 768 := by omega
    have h1023 : i ≠ 1023 := by omega
    rw [(twoPages_entry i).2.2]
    simp [h768, h1023, target]
  · exact ⟨by decide, by decide, by decide⟩
  · exact ⟨by decide, by decide, by decide⟩
  · exact ⟨by decide, by decide, by decide⟩
  · intro f hf
    have hmem := twoPages_uses hf
    have hlt : ∀ g ∈ [1, 2, 3, 6, 7], g < 512 ∧ g ≠ 4 ∧ g ≠ 5 := by decide
    obtain ⟨hlow, hne⟩ := hlt f hmem
    exact ⟨twoPages_low hlow, hne⟩
  · intro i hi
    have hmem := hsize hi
    simp only [Finset.mem_insert, Finset.mem_singleton] at hmem
    rcases hmem with rfl | rfl
    · exact ⟨6, by decide⟩
    · exact ⟨7, by decide⟩
  · rw [twoPages_free]
    exact (Finset.card_le_card hsize).trans (by decide)
  · rw [twoPages_free]
    exact (Finset.card_le_card (Finset.image_subset_image hsize)).trans (by decide)

theorem copyBodyStack3_twoPages :
    ∃ t, (copyBodyStack3 twoPagesChild twoPagesParent 0xc0002000).run twoPages = .ok ((), t) ∧
      CopiedPages twoPages t twoPagesParent.userprogVaddr 4 5 :=
  copyBodyStack3_copies twoPages_ready

end

end OsTruth
