/-
What the functions that map, unmap and write pages do to the spaces of all processes.

Each keeps the invariant of the spaces.  They take their frames from the pools, where no frame
with an owner is free, and write to no frame that holds a directory or a table but through
the tables.
-/
import OsTruth.Userprog.AddressSpaces

namespace OsTruth

open ByteString Fallible Paging Runs Owners

section

variable {allMem : UInt32} {s : Space} {dirs : List MadeDir} {f p : Nat} {pf : PoolFlags}
variable {a : UInt32}

/-- A frame that `palloc` returns was free. -/
theorem ensures_pallocOf (hl : PoolsLayout allMem s.pools) :
    Ensures (pallocOf pf) s fun r t => ∃ a qs, r = some a ∧ t = { s with pools := qs } ∧
      a.toNat % pgSize = 0 ∧ PoolsLayout allMem qs ∧ Took s.pools qs pf (a.toNat / pgSize) := by
  rcases bitmapScan_one (s.pools.pool pf).poolBitmap with ⟨i, -, hi⟩ | ⟨hscan, -⟩
  · apply wp_pallocOf_first hi
    refine ⟨_, _, rfl, rfl, ?_, hl.setBit pf i true, took_of_set hl hi.1 hi.2.1⟩
    rw [hl.frame_exists hi.1]
    exact Nat.mul_mod_right _ _
  · unfold pallocOf
    rw [Ensures, Wp.bind, Wp.get, Wp.bind, Wp.lift]
    refine ⟨fun r hr => ?_, fun _ _ => True.intro⟩
    unfold palloc at hr
    rw [hscan] at hr
    cases hr

theorem ensures_writeMem {w : Nat → Phys → Option Phys} {Q : Unit → Space → Prop}
    (hQ : ∀ m, w s.cr3 s.phys = some m → Q () { s with phys := m }) :
    Ensures (writeMem w) s Q := by
  cases hm : w s.cr3 s.phys with
  | some m => exact wp_writeMem hm (hQ m hm)
  | none =>
      unfold writeMem
      rw [Ensures, Wp.bind, Wp.get, hm]
      exact True.intro

/-- `page_table_add` returns when the page is not mapped, and adds a table when it has none. -/
theorem ensures_pageTableAdd {Q : Unit → Space → Prop} (hl : PoolsLayout allMem s.pools)
    (hr : Recursive s.phys s.cr3) (hp : p < 1023 * 1024) (hd : ¬FreeFrame s.pools s.cr3)
    (hsome : ∀ t, table s.phys s.cr3 p = some t → target (entry s.phys t (p % 1024)) = none →
      Q () { s with phys := setEntry s.phys t (p % 1024) (link a) })
    (hnone : table s.phys s.cr3 p = none → ∀ b qs, b.toNat % pgSize = 0 →
      PoolsLayout allMem qs → Took s.pools qs .pfKernel (b.toNat / pgSize) →
      Q () { s with
        pools := qs
        phys := setEntry (addTable s.phys s.cr3 (p / 1024) (link b) (b.toNat / pgSize))
          (b.toNat / pgSize) (p % 1024) (link a) }) :
    Ensures (pageTableAdd (pgSize * p) a) s Q := by
  have hp' : p < 2 ^ 20 := by omega
  cases ht : table s.phys s.cr3 p with
  | some t =>
      cases he : target (entry s.phys t (p % 1024)) with
      | none => exact wp_pageTableAdd_some hr hp' ht he (hsome t ht he)
      | some f =>
          apply (pageTableAdd_present hr hp' ht he).mono
          · exact fun _ _ => True.intro
          · exact fun _ _ h => h.elim
  | none =>
      by_cases hfree : 1 ≤ freeCount s.pools .pfKernel
      · exact wp_pageTableAdd_none hl hfree hr hp ht hd (hnone ht)
      · -- no frame for the table
        have habsent : ¬(entry s.phys s.cr3 (p / 1024)).toNat % 2 = 1 := by
          have htarget : target (entry s.phys s.cr3 (p / 1024)) = none := ht
          rw [present_iff, htarget]
          exact Bool.false_ne_true
        unfold pageTableAdd
        rw [Ensures, Wp.bind]
        apply wp_readWord (loadWord_pde hr hp')
        rw [if_neg habsent, Wp.bind]
        refine (ensures_pallocOf hl).call fun r t hr => ?_
        obtain ⟨b, qs, -, -, -, -, htook⟩ := hr
        have hcount := htook.count
        omega

end

namespace Spaces

variable {allMem : UInt32} {s t : Space} {dirs : List MadeDir} {d f g i p : Nat} {b : Bytes}
variable {pf : PoolFlags} {x : Owner} {a : UInt32}

theorem self (h : Spaces allMem s dirs) : Recursive s.phys s.cr3 := by
  rcases h.active with h256 | hd
  · rw [h256]
    exact h.part.self
  · exact h.part.selves _ hd

/-- The directory that is active is in use. -/
theorem active_used (h : Spaces allMem s dirs) : ¬FreeFrame s.pools s.cr3 := by
  intro hfree
  rcases h.active with h256 | hd
  · have hhigh := hfree.high h.layout
    omega
  · obtain ⟨e, -, -, howner⟩ := h.dir_owner hd
    have hbit := hfree.unique h.layout (h.owners.held _ _ howner)
    cases hbit

theorem userPages_div (hp : p < userPages) : p / 1024 < userTables := by
  simp only [userPages, pgSize] at hp
  simp only [userTables]
  omega

/-- The entry of a page changes, of one that holds no directory. -/
theorem setPage (h : Spaces allMem s dirs) (hp : PartPage pf p)
    (hproc : pf = .pfUser → s.cr3 ≠ 256) (hdir : pf = .pfKernel → ∀ e ∈ dirs, e.page ≠ p)
    {t : Nat} (ht : table s.phys s.cr3 p = some t) {qs : Pools} (hl : PoolsLayout allMem qs)
    {w : UInt32} (howners : Owned (Function.update (frameOf s.phys (dirFrames dirs))
      (pageOwner s.cr3 p pf) (target w)) (InUse qs)) :
    Spaces allMem { s with phys := setEntry s.phys t (p % 1024) w, pools := qs } dirs ∧
      frameOf (setEntry s.phys t (p % 1024) w) (dirFrames dirs) =
        Function.update (frameOf s.phys (dirFrames dirs)) (pageOwner s.cr3 p pf) (target w) := by
  have hset : frameOf (setEntry s.phys t (p % 1024) w) (dirFrames dirs) =
      Function.update (frameOf s.phys (dirFrames dirs)) (pageOwner s.cr3 p pf) (target w) ∧
      KernelPart (setEntry s.phys t (p % 1024) w) (dirFrames dirs) := by
    cases pf with
    | pfKernel =>
        have hk := HeapPage.kernel hp
        refine frameOf_setKernel h.part hp (fun d => h.dir_high)
          (fun d hd i t ht => (h.table_owner hd ht).1) ?_
        rw [h.part.table (Or.inl rfl) hk, ← h.part.table h.active hk]
        exact ht
    | pfUser =>
        have hd := h.active.resolve_left (hproc rfl)
        rw [table_slot (userPages_div hp)] at ht
        obtain ⟨hhigh, hnot, hinj⟩ := h.table_owner hd ht
        exact frameOf_setUser h.part hd hp ht hhigh hnot hinj
  refine ⟨⟨hl, hset.2, ?_, fun e he => ?_, h.active⟩, hset.1⟩
  · show Owned (frameOf (setEntry _ _ _ _) _) (InUse qs)
    rw [hset.1]
    exact howners
  · show frameOf (setEntry _ _ _ _) _ _ = _
    rw [hset.1, Function.update_of_ne]
    · exact h.made e he
    · intro heq
      cases pf with
      | pfKernel =>
          cases heq
          exact hdir rfl e he rfl
      | pfUser => cases heq

structure Mapped (allMem : UInt32) (dirs : List MadeDir) (pf : PoolFlags) (d p f : Nat)
    (t : Space) : Prop where
  spaces : Spaces allMem t dirs
  active : t.cr3 = d
  owner : frameOf t.phys (dirFrames dirs) (pageOwner d p pf) = some f
  fresh : pf = .pfKernel → ∀ e ∈ dirs, e.page ≠ p

/-- A page that is not mapped holds no directory. -/
theorem unmapped (h : Spaces allMem s dirs) (hp : HeapPage p) (hnone : walk s.phys s.cr3 p = none) :
    ∀ e ∈ dirs, e.page ≠ p := by
  rintro e he rfl
  have hmade := h.made e he
  rw [h.frameOf_heap hp, hnone] at hmade
  cases hmade

/-- The entry of a page is written, for a frame that nobody owns. -/
theorem mapped (h : Spaces allMem s dirs) (pf : PoolFlags) (hp : PartPage pf p)
    (hproc : pf = .pfUser → s.cr3 ≠ 256) (hdir : pf = .pfKernel → ∀ e ∈ dirs, e.page ≠ p)
    {t : Nat} (ht : table s.phys s.cr3 p = some t) (ha : target (link a) = some f)
    (hf : InUse s.pools f) (hnew : ∀ x, frameOf s.phys (dirFrames dirs) x ≠ some f) :
    Mapped allMem dirs pf s.cr3 p f { s with phys := setEntry s.phys t (p % 1024) (link a) } := by
  have howners : Owned (Function.update (frameOf s.phys (dirFrames dirs))
      (pageOwner s.cr3 p pf) (target (link a))) (InUse s.pools) := by
    apply h.owners.update
    intro g hg
    rw [ha] at hg
    cases hg
    exact ⟨hf, fun y _ => hnew y⟩
  obtain ⟨hspaces, hframes⟩ := h.setPage hp hproc hdir ht h.layout howners
  refine ⟨hspaces, rfl, ?_, hdir⟩
  show frameOf (setEntry _ _ _ _) _ _ = _
  rw [hframes, Function.update_self, ha]

theorem pageTableAdd_kernel (h : Spaces allMem s dirs) (hp : HeapPage p)
    (ha : target (link a) = some f) (hf : InUse s.pools f)
    (hnew : ∀ x, frameOf s.phys (dirFrames dirs) x ≠ some f) :
    Ensures (pageTableAdd (pgSize * p) a) s fun _ => Mapped allMem dirs .pfKernel s.cr3 p f := by
  apply ensures_pageTableAdd h.layout h.self hp.2 h.active_used
  · intro t ht hnone
    have hwalk : walk s.phys s.cr3 p = none := by
      unfold walk
      rw [ht]
      exact hnone
    exact h.mapped .pfKernel hp (by simp) (fun _ => h.unmapped hp hwalk) ht ha hf hnew
  · -- the loader has made all tables of the kernel
    intro hnone
    rw [h.part.table h.active hp.kernel] at hnone
    cases hnone

theorem pageTableAdd_user (h : Spaces allMem s dirs) (hp : p < userPages) (hproc : s.cr3 ≠ 256)
    (ha : target (link a) = some f) (hf : InUse s.pools f)
    (hnew : ∀ x, frameOf s.phys (dirFrames dirs) x ≠ some f) :
    Ensures (pageTableAdd (pgSize * p) a) s fun _ => Mapped allMem dirs .pfUser s.cr3 p f := by
  have hd := h.active.resolve_left hproc
  have hdiv := userPages_div hp
  have hlt : p < 1023 * 1024 := by
    simp only [userPages, pgSize] at hp
    omega
  apply ensures_pageTableAdd h.layout h.self hlt h.active_used
  · intro t ht _
    exact h.mapped .pfUser hp (fun _ => hproc) (fun heq => by cases heq) ht ha hf hnew
  · intro hnone b qs hb hqs htook
    obtain ⟨hspaces, hbused, hbnew⟩ := h.took hqs htook
    have hplain := hspaces.plain_of_new (hbused.high hqs) hbnew
    have hdirs : ∀ d' ∈ dirFrames dirs, ∀ j, slots s.phys d' userTables (.table j) ≠ some s.cr3 :=
      fun d' hd' j hj => (h.table_owner hd' hj).2.1 hd
    rw [table_slot hdiv] at hnone
    obtain ⟨hframes, hpart⟩ := frameOf_addTable (w := link b) h.part hd hdiv hplain
      (target_link_page hb) (h.dir_high hd) hnone hdirs
    have hbf : b.toNat / pgSize ≠ f := by
      rintro rfl
      have hbit := htook.was.unique h.layout hf
      cases hbit
    -- the space with the new table
    let u : Space := { s with
      pools := qs
      phys := addTable s.phys s.cr3 (p / 1024) (link b) (b.toNat / pgSize) }
    have hu : Spaces allMem u dirs := by
      refine ⟨hqs, hpart, ?_, fun e he => ?_, h.active⟩
      · show Owned (frameOf (addTable _ _ _ _ _) _) (InUse qs)
        rw [hframes]
        apply hspaces.owners.update
        intro g hg
        cases hg
        exact ⟨hbused, fun y _ => hbnew y⟩
      · show frameOf (addTable _ _ _ _ _) _ _ = _
        rw [hframes, Function.update_of_ne (by simp)]
        exact h.made e he
    have hut : table u.phys u.cr3 p = some (b.toNat / pgSize) := by
      rw [table_slot hdiv]
      show slots (addTable _ _ _ _ _) _ _ _ = _
      rw [← frameOf_user hd, hframes, Function.update_self]
    apply hu.mapped .pfUser hp (fun _ => hproc) (fun heq => by cases heq) hut ha
    · exact htook.inUse (Or.inr hf)
    · intro x
      show frameOf (addTable _ _ _ _ _) _ x ≠ _
      rw [hframes]
      by_cases hx : x = .user s.cr3 (.table (p / 1024))
      · rw [hx, Function.update_self]
        simpa using hbf
      · rw [Function.update_of_ne hx]
        exact hnew x

theorem pageTableAdd_page (h : Spaces allMem s dirs) (hp : PartPage pf p)
    (hproc : pf = .pfUser → s.cr3 ≠ 256) (ha : target (link a) = some f) (hf : InUse s.pools f)
    (hnew : ∀ x, frameOf s.phys (dirFrames dirs) x ≠ some f) :
    Ensures (pageTableAdd (pgSize * p) a) s fun _ => Mapped allMem dirs pf s.cr3 p f := by
  cases pf with
  | pfKernel => exact h.pageTableAdd_kernel hp ha hf hnew
  | pfUser => exact h.pageTableAdd_user hp (hproc rfl) ha hf hnew

/-- What mapping `cnt` pages from page `p` on leaves. -/
structure MappedAll (allMem : UInt32) (dirs : List MadeDir) (pf : PoolFlags) (d p cnt : Nat)
    (t : Space) : Prop where
  spaces : Spaces allMem t dirs
  active : t.cr3 = d
  fresh : pf = .pfKernel → ∀ k < cnt, ∀ e ∈ dirs, e.page ≠ p + k

theorem mapPages (cnt : Nat) : ∀ {s : Space} {p : Nat}, Spaces allMem s dirs →
    (∀ k < cnt, PartPage pf (p + k)) → (pf = .pfUser → s.cr3 ≠ 256) →
    Ensures (OsTruth.mapPages pf cnt (pgSize * p)) s fun _ =>
      MappedAll allMem dirs pf s.cr3 p cnt := by
  induction cnt with
  | zero =>
      intro s p h _ _
      exact ⟨h, rfl, fun _ k hk => by omega⟩
  | succ cnt ih =>
      intro s p h hp hproc
      have hfirst := hp 0 (by omega)
      unfold OsTruth.mapPages
      rw [Ensures, Wp.bind]
      refine (ensures_pallocOf h.layout).call fun r t hr => ?_
      obtain ⟨a, qs, rfl, rfl, ha, hqs, htook⟩ := hr
      obtain ⟨hspaces, hused, hnew⟩ := h.took hqs htook
      show Wp (pageTableAdd (pgSize * p) a >>= fun _ => _) _ _ _
      rw [Wp.bind]
      refine (hspaces.pageTableAdd_page hfirst hproc (target_link_page ha) hused hnew).call
        fun _ t hmapped => ?_
      -- the address of the next page
      have hlt : p + 1 < 2 ^ 20 ∨ cnt = 0 := by
        by_cases hcnt : cnt = 0
        · exact Or.inr hcnt
        · have hsecond := hp 1 (by omega)
          apply Or.inl
          cases pf with
          | pfKernel =>
              have hkernel := HeapPage.kernel hsecond
              omega
          | pfUser =>
              simp only [PartPage, userPages, pgSize] at hsecond
              omega
      rcases hlt with hlt | rfl
      · have hnext : (pgSize * p + pgSize) % 2 ^ 32 = pgSize * (p + 1) := by
          unfold pgSize
          omega
        rw [hnext]
        have hactive := hmapped.active
        refine (ih hmapped.spaces (fun k hk => ?_) fun hpf => ?_).call fun _ u hu => ?_
        · have hpage := hp (k + 1) (by omega)
          rwa [show p + (k + 1) = p + 1 + k by omega] at hpage
        · rw [hactive]
          exact hproc hpf
        · refine ⟨hu.spaces, hu.active.trans hactive, fun hpf k hk e he => ?_⟩
          cases k with
          | zero => exact hmapped.fresh hpf e he
          | succ k =>
              have hne := hu.fresh hpf k (by omega) e he
              omega
      · refine ⟨hmapped.spaces, hmapped.active, fun hpf k hk e he => ?_⟩
        have hk0 : k = 0 := by omega
        rw [hk0]
        exact hmapped.fresh hpf e he

end Spaces

/-! ## Virtual pools -/

/-- The kernel's virtual pool lies in the kernel's heap. -/
structure HeapRange (v : KernelVaddr) : Prop where
  aligned : v.vaddrStart % pgSize = 0
  low : kHeapStart ≤ v.vaddrStart
  high : v.vaddrStart + 8 * v.vaddrBitmap.btmpBytesLen * pgSize ≤ 0xffc00000

structure AddrSpaces.Inv (allMem : UInt32) (σ : AddrSpaces) : Prop where
  spaces : Spaces allMem σ.pages.space σ.dirs
  heap : HeapRange σ.pages.kernelVaddr

section

variable {σ : Pages} {pf : PoolFlags} {cnt : Nat}

/-- All bits of the loop lie in the bitmap. -/
theorem vaddrSet_inside {v : Bool} {c : Bitmap} (cnt : Nat) : ∀ (i : Nat) (b : Bitmap),
    vaddrSet v cnt i b = .ok c → c.btmpBytesLen = b.btmpBytesLen ∧
      (cnt = 0 ∨ i + cnt ≤ 8 * b.btmpBytesLen) := by
  induction cnt with
  | zero =>
      intro i b h
      have hbc : b = c := Except.ok.inj h
      rw [hbc]
      exact ⟨rfl, Or.inl rfl⟩
  | succ cnt ih =>
      intro i b h
      have hfirst := vaddrSet_ok (by omega) h
      unfold vaddrSet at h
      cases hset : bitmapSet b i v with
      | error e =>
          rw [hset] at h
          cases h
      | ok b' =>
          rw [hset] at h
          obtain ⟨-, rfl⟩ := bitmapSet_eq_ok.mp hset
          obtain ⟨hlen, hin⟩ := ih (i + 1) (b.set i v) h
          have hsame : (b.set i v).btmpBytesLen = b.btmpBytesLen := rfl
          rw [hsame] at hlen hin
          exact ⟨hlen, Or.inr (by omega)⟩

theorem setBits_heap {bits : Bytes} (h : HeapRange σ.kernelVaddr) :
    HeapRange (σ.setBits pf bits).kernelVaddr := by
  cases pf with
  | pfKernel => exact ⟨h.aligned, h.low, h.high⟩
  | pfUser => exact h

theorem part_aligned (pf : PoolFlags) (h : HeapRange σ.kernelVaddr) :
    σ.vaddrStart pf % pgSize = 0 := by
  cases pf with
  | pfKernel => exact h.aligned
  | pfUser => exact σ.userprogVaddr.aligned

/-- A page of a virtual pool. -/
theorem part_page (pf : PoolFlags) (h : HeapRange σ.kernelVaddr) {k : Nat}
    (hk : k < 8 * (σ.vaddrBitmap pf).btmpBytesLen) :
    PartPage pf (σ.vaddrStart pf / pgSize + k) := by
  have hpg : pgSize = 4096 := rfl
  cases pf with
  | pfKernel =>
      have hlow := h.low
      have hhigh := h.high
      unfold kHeapStart at hlow
      rw [hpg] at hhigh ⊢
      simp only [PartPage, HeapPage, Pages.vaddrStart, Pages.vaddrBitmap] at hk ⊢
      omega
  | pfUser =>
      have haligned := σ.userprogVaddr.aligned
      have hbelow := σ.userprogVaddr.below
      rw [hpg] at hbelow haligned ⊢
      simp only [PartPage, userPages, Pages.vaddrStart, Pages.vaddrBitmap] at hk ⊢
      rw [hpg]
      omega

/-- `vaddr_get` returns pages of its part, and leaves the memory alone. -/
theorem ensures_vaddrGet (h : HeapRange σ.kernelVaddr) :
    Ensures (vaddrGet pf cnt) σ fun r τ => τ.space = σ.space ∧ HeapRange τ.kernelVaddr ∧
      ∀ v, r = some v → ∃ p, v = pgSize * p ∧ ∀ k < cnt, PartPage pf (p + k) := by
  unfold vaddrGet
  rw [Ensures, Wp.bind, Wp.get, Wp.bind, Wp.lift]
  refine ⟨fun bitIdxStart _ => ?_, fun _ _ => True.intro⟩
  rw [Wp.ite]
  constructor
  · intro _
    exact ⟨rfl, h, fun v hv => by cases hv⟩
  · intro _
    rw [Wp.bind, Wp.lift]
    refine ⟨fun b hb => ?_, fun _ _ => True.intro⟩
    rw [Wp.bind, Wp.set, Wp.bind, passert, Wp.lift]
    refine ⟨fun _ _ => ?_, fun _ _ => True.intro⟩
    rw [Wp.pure]
    refine ⟨σ.setBits_space pf b.bits, setBits_heap h, fun v hv => ?_⟩
    have hv' : v = (σ.vaddrStart pf + bitIdxStart.toNat * pgSize) % 2 ^ 32 := by
      split_ifs at hv
      exact (Option.some.inj hv).symm
    have hpg : pgSize = 4096 := rfl
    have haligned := part_aligned pf h
    by_cases hcnt : cnt = 0
    · refine ⟨v / pgSize, ?_, fun k hk => by omega⟩
      rw [hpg] at hv' haligned ⊢
      omega
    · have hin := (vaddrSet_inside cnt _ _ hb).2.resolve_left hcnt
      obtain ⟨-, hlt⟩ := σ.vaddr_bounds pf (k := bitIdxStart.toNat) (by omega)
      rw [Nat.mod_eq_of_lt hlt] at hv'
      refine ⟨σ.vaddrStart pf / pgSize + bitIdxStart.toNat, ?_, fun k hk => ?_⟩
      · rw [hpg] at hv' haligned ⊢
        omega
      · have hpage := part_page pf h (k := bitIdxStart.toNat + k) (by omega)
        rwa [← Nat.add_assoc] at hpage

end

namespace Spaces

variable {allMem : UInt32} {s t : Space} {dirs : List MadeDir} {d f g i p : Nat} {b : Bytes}
variable {pf : PoolFlags} {cnt : Nat} {m : Phys}

/-! ## Writes of the tasks -/

theorem plain_writable (h : Spaces allMem s dirs) (hp : Writable s.cr3 dirs p)
    (hw : walk s.phys s.cr3 p = some g) : Plain s.phys (dirFrames dirs) g := by
  rcases hp with ⟨huser, hproc⟩ | hlow | ⟨hheap, hdir⟩
  · have howner := (h.frameOf_own huser hproc).trans hw
    exact h.plain_of_page howner (fun e _ heq => by cases heq) fun d i heq => by cases heq
  · rw [h.part.walk_low h.active hlow] at hw
    have hg := Option.some.inj hw
    unfold LowPage at hlow
    refine ⟨Or.inl (by omega), fun hd => ?_, fun d hd i hi => ?_⟩
    · have hhigh := h.dir_high hd
      omega
    · have hhigh := (h.table_owner hd hi).1
      omega
  · have howner := (h.frameOf_heap hheap).trans hw
    refine h.plain_of_page howner (fun e he heq => ?_) fun d i heq => by cases heq
    cases heq
    exact hdir e he rfl

theorem store (h : Spaces allMem s dirs) {v : Nat} {x : UInt8}
    (hp : Writable s.cr3 dirs (v / 4096)) (hm : Paging.store s.phys s.cr3 v x = some m) :
    Spaces allMem { s with phys := m } dirs := by
  unfold Paging.store at hm
  cases hw : walk s.phys s.cr3 (v / 4096) with
  | none =>
      rw [hw] at hm
      cases hm
  | some g =>
      rw [hw] at hm
      cases hm
      exact h.write (h.plain_writable hp hw)

/-- `memset` over pages that are written to. -/
theorem clear (n : Nat) : ∀ {s : Space} {dst : Nat}, Spaces allMem s dirs →
    (∀ v, dst ≤ v → v < dst + n → Writable s.cr3 dirs (v / 4096)) →
    clearBytes s.cr3 n dst s.phys = some m → Spaces allMem { s with phys := m } dirs := by
  induction n with
  | zero =>
      intro s dst h _ hm
      cases hm
      exact h
  | succ n ih =>
      intro s dst h hp hm
      unfold clearBytes at hm
      obtain ⟨m₁, hstore, hrest⟩ := Option.bind_eq_some_iff.mp hm
      exact ih (s := { s with phys := m₁ }) 
        (h.store (hp dst (by omega) (by omega)) hstore)
        (fun v hlow hhigh => hp v (by omega) (by omega)) hrest

end Spaces

/-! ## Allocation -/

/-- What `malloc_page` leaves, with directory `d` active. -/
structure Allocated (allMem : UInt32) (dirs : List MadeDir) (pf : PoolFlags) (d cnt : Nat)
    (r : Option Nat) (τ : Pages) : Prop where
  spaces : Spaces allMem τ.space dirs
  heap : HeapRange τ.kernelVaddr
  active : τ.space.cr3 = d
  pages : ∀ v, r = some v → ∃ p, v = pgSize * p ∧ (∀ k < cnt, PartPage pf (p + k)) ∧
    (pf = .pfKernel → ∀ k < cnt, ∀ e ∈ dirs, e.page ≠ p + k)

section

variable {allMem : UInt32} {σ : Pages} {dirs : List MadeDir} {pf : PoolFlags} {cnt : Nat}

theorem ensures_mallocPage (h : Spaces allMem σ.space dirs) (hheap : HeapRange σ.kernelVaddr)
    (hproc : pf = .pfUser → σ.space.cr3 ≠ 256) :
    Ensures (mallocPage pf cnt) σ (Allocated allMem dirs pf σ.space.cr3 cnt) := by
  unfold mallocPage
  rw [Ensures, Wp.bind]
  refine (ensures_vaddrGet hheap).call fun r τ hr => ?_
  obtain ⟨hspace, hτ, hpages⟩ := hr
  cases r with
  | none =>
      refine ⟨?_, hτ, by rw [hspace], fun v hv => by cases hv⟩
      rw [hspace]
      exact h
  | some vaddrStart =>
      obtain ⟨p, rfl, hp⟩ := hpages vaddrStart rfl
      show Wp (onSpace (mapPages pf cnt (pgSize * p)) >>= fun _ => _) τ _ _
      rw [Wp.bind, wp_onSpace, hspace]
      refine (h.mapPages cnt hp hproc).call fun mapped t ht => ?_
      refine ⟨ht.spaces, hτ, ht.active, fun v hv => ?_⟩
      have hv' : v = pgSize * p := by
        split_ifs at hv
        exact (Option.some.inj hv).symm
      exact ⟨p, hv', hp, ht.fresh⟩

theorem ensures_getKernelPages (h : Spaces allMem σ.space dirs)
    (hheap : HeapRange σ.kernelVaddr) :
    Ensures (getKernelPages cnt) σ (Allocated allMem dirs .pfKernel σ.space.cr3 cnt) := by
  unfold getKernelPages
  rw [Ensures, Wp.bind]
  refine (ensures_mallocPage h hheap (by simp)).call fun r τ hr => ?_
  cases r with
  | none => exact hr
  | some vaddr =>
      obtain ⟨p, rfl, hp, hfresh⟩ := hr.pages vaddr rfl
      show Wp (onSpace (writeMem fun d m => clearBytes d (cnt * pgSize) (pgSize * p) m) >>=
        fun _ => _) τ _ _
      rw [Wp.bind, wp_onSpace]
      apply ensures_writeMem
      intro m hm
      refine ⟨hr.spaces.clear (cnt * pgSize) (fun v hlow hhigh => ?_) hm, hr.heap, hr.active,
        fun v hv => ?_⟩
      · -- every byte lies in one of the pages
        have hpg : pgSize = 4096 := rfl
        rw [hpg] at hlow hhigh
        have hk : v / 4096 - p < cnt := by omega
        have hpage : p + (v / 4096 - p) = v / 4096 := by omega
        have hheap := hp _ hk
        have hne := hfresh rfl _ hk
        rw [hpage] at hheap hne
        exact Or.inr (Or.inr ⟨hheap, hne⟩)
      · exact ⟨p, (Option.some.inj hv).symm, hp, hfresh⟩

end

/-! ## Freeing -/

section

variable {allMem : UInt32} {ps qs : Pools} {s : Space} {f g : Nat}

/-- `pfree` clears the bit of its frame and no other. -/
theorem pfree_frees (hl : PoolsLayout allMem ps) (hf : InUse ps f)
    (h : pfree ps (UInt32.ofNat (pgSize * f)) = .ok qs) :
    PoolsLayout allMem qs ∧ ∀ g, InUse ps g → g ≠ f → InUse qs g := by
  obtain ⟨pf, i, hi, -, haddr⟩ := hf
  have hword : UInt32.ofNat (pgSize * f) = frameAddr (ps.pool pf) i := by
    rw [← haddr, UInt32.ofNat_toNat]
  rw [hword, pfree_eq hl hi] at h
  cases h
  refine ⟨hl.setBit pf i false, fun g hg hgf => ?_⟩
  obtain ⟨pf', j, hj, hbit, haddr'⟩ := hg
  have hsame := setBit_pool ps pf pf' i false
  refine ⟨pf', j, ?_, ?_, ?_⟩
  · rw [hsame.2.1]
    exact hj
  · rw [hsame.2.2, if_neg]
    · exact hbit
    · rintro ⟨rfl, rfl⟩
      rw [haddr] at haddr'
      exact hgf (Nat.eq_of_mul_eq_mul_left (by decide) haddr').symm
  · rw [hsame.1]
    exact haddr'

/-- The P bit is cleared. -/
theorem target_removed (e : UInt32) : target (e &&& ~~~1) = none := by
  have hand : (e &&& ~~~1).toNat % 2 = 0 := by
    rw [UInt32.toNat_and]
    have hmod := Nat.and_mod_two_pow (a := e.toNat) (b := (~~~1 : UInt32).toNat) (n := 1)
    rw [Nat.pow_one] at hmod
    rw [hmod]
    exact Nat.and_zero _
  unfold target
  rw [if_neg (by omega)]

end

namespace Spaces

variable {allMem : UInt32} {s : Space} {dirs : List MadeDir} {p : Nat} {pf : PoolFlags}

/-- The page of a frame that is mapped is unmapped. -/
theorem pteRemove (h : Spaces allMem s dirs) {f : Nat} {qs : Pools}
    (hp : PartPage pf p) (hproc : pf = .pfUser → s.cr3 ≠ 256)
    (hdir : pf = .pfKernel → ∀ e ∈ dirs, e.page ≠ p) (hw : walk s.phys s.cr3 p = some f)
    (hl : PoolsLayout allMem qs) (hheld : ∀ g, InUse s.pools g → g ≠ f → InUse qs g) :
    Ensures (pageTablePteRemove (pgSize * p)) { s with pools := qs } fun _ t =>
      Spaces allMem t dirs ∧ t.cr3 = s.cr3 ∧ frameOf t.phys (dirFrames dirs) =
        Function.update (frameOf s.phys (dirFrames dirs)) (pageOwner s.cr3 p pf) none := by
  have hp20 : p < 2 ^ 20 := by
    cases pf with
    | pfKernel =>
        have hk := HeapPage.kernel hp
        omega
    | pfUser =>
        simp only [PartPage, userPages, pgSize] at hp
        omega
  obtain ⟨t, ht, -⟩ := Option.bind_eq_some_iff.mp hw
  unfold pageTablePteRemove
  rw [Ensures, Wp.bind]
  apply wp_readWord (s := { s with pools := qs }) (loadWord_pte h.self hp20 ht)
  apply wp_writeMem (s := { s with pools := qs }) (storeWord_pte h.self hp20 ht)
  have hnone := target_removed (entry s.phys t (p % 1024))
  have howner := (h.frameOf_page pf hp hproc).trans hw
  have howners := h.owners.release howner hheld
  rw [← hnone] at howners
  obtain ⟨hspaces, hframes⟩ := h.setPage hp hproc hdir ht hl howners
  rw [hnone] at hframes
  exact ⟨hspaces, rfl, hframes⟩

theorem freePages (pool : PoolFlags) (cnt : Nat) : ∀ {s : Space} {p : Nat},
    Spaces allMem s dirs → (pf = .pfUser → s.cr3 ≠ 256) →
    (∀ k < cnt, PartPage pf (p + k) ∧ walk s.phys s.cr3 (p + k) ≠ none ∧
      ∀ e ∈ dirs, e.page ≠ p + k) →
    Ensures (OsTruth.freePages pool cnt (pgSize * p)) s fun _ t =>
      Spaces allMem t dirs ∧ t.cr3 = s.cr3 := by
  induction cnt with
  | zero =>
      intro s p h _ _
      exact ⟨h, rfl⟩
  | succ cnt ih =>
      intro s p h hproc hp
      obtain ⟨hpage, hmapped, hdir⟩ := hp 0 (by omega)
      obtain ⟨f, hw⟩ := Option.ne_none_iff_exists'.mp hmapped
      rw [Nat.add_zero] at hpage hw hdir
      have hp20 : p < 2 ^ 20 := by
        cases pf with
        | pfKernel =>
            have hk := HeapPage.kernel hpage
            omega
        | pfUser =>
            simp only [PartPage, userPages, pgSize] at hpage
            omega
      have hused := h.owners.held _ _ ((h.frameOf_page pf hpage hproc).trans hw)
      unfold OsTruth.freePages
      rw [Ensures, Wp.bind]
      apply wp_addrV2p h.self hp20 hw
      rw [Wp.bind, Wp.get, Wp.bind, massert, Wp.lift]
      refine ⟨fun _ _ => ?_, fun _ _ => True.intro⟩
      rw [Wp.bind, Wp.lift]
      refine ⟨fun qs hfree => ?_, fun _ _ => True.intro⟩
      obtain ⟨hl, hheld⟩ := pfree_frees h.layout hused hfree
      rw [Wp.bind, Wp.set, Wp.bind]
      refine (h.pteRemove hpage hproc (fun _ => hdir) hw hl hheld).call fun _ t ht => ?_
      obtain ⟨hspaces, hcr3, hframes⟩ := ht
      cases cnt with
      | zero => exact ⟨hspaces, hcr3⟩
      | succ cnt =>
          have hlt : p + 1 < 2 ^ 20 := by
            have hsecond := (hp 1 (by omega)).1
            cases pf with
            | pfKernel =>
                have hk := HeapPage.kernel hsecond
                omega
            | pfUser =>
                simp only [PartPage, userPages, pgSize] at hsecond
                omega
          have hnext : (pgSize * p + pgSize) % 2 ^ 32 = pgSize * (p + 1) := by
            unfold pgSize
            omega
          rw [hnext]
          refine (ih hspaces (fun hpf => ?_) fun k hk => ?_).call fun _ u hu => ?_
          · rw [hcr3]
            exact hproc hpf
          · -- the other pages are still mapped
            obtain ⟨hpage', hmapped', hdir'⟩ := hp (k + 1) (by omega)
            rw [show p + (k + 1) = p + 1 + k by omega] at hpage' hmapped' hdir'
            refine ⟨hpage', ?_, hdir'⟩
            rw [← hspaces.frameOf_page pf hpage' (by rw [hcr3]; exact hproc), hframes, hcr3,
              Function.update_of_ne, h.frameOf_page pf hpage' hproc]
            · exact hmapped'
            · cases pf <;> simp [pageOwner] <;> omega
          · exact ⟨hu.1, hu.2.trans hcr3⟩

end Spaces

section

variable {allMem : UInt32} {σ : Pages} {dirs : List MadeDir} {pf : PoolFlags} {vaddr cnt : Nat}

/-- `addr_v2p` reads only. -/
theorem ensures_addrV2p {s : Space} {v : Nat} : Ensures (addrV2p v) s fun _ t => t = s := by
  unfold addrV2p readWord
  rw [Ensures, Wp.bind, Wp.bind, Wp.get]
  cases loadWord s.phys s.cr3 (ptePtr v) with
  | none => exact True.intro
  | some e => exact rfl

/-- `vaddr_remove` leaves the memory alone. -/
theorem ensures_vaddrRemove (hheap : HeapRange σ.kernelVaddr) :
    Ensures (vaddrRemove pf vaddr cnt) σ fun _ τ =>
      τ.space = σ.space ∧ HeapRange τ.kernelVaddr := by
  unfold vaddrRemove
  rw [Ensures, Wp.bind, Wp.get, Wp.bind, Wp.lift]
  refine ⟨fun b _ => ?_, fun _ _ => True.intro⟩
  exact ⟨σ.setBits_space pf b.bits, setBits_heap hheap⟩

theorem ensures_mfreePage (h : Spaces allMem σ.space dirs) (hheap : HeapRange σ.kernelVaddr)
    (hproc : pf = .pfUser → σ.space.cr3 ≠ 256)
    (hp : ∀ k < cnt, PartPage pf (vaddr / pgSize + k) ∧
      walk σ.space.phys σ.space.cr3 (vaddr / pgSize + k) ≠ none ∧
        ∀ e ∈ dirs, e.page ≠ vaddr / pgSize + k) :
    Ensures (mfreePage pf vaddr cnt) σ fun _ τ =>
      Spaces allMem τ.space dirs ∧ HeapRange τ.kernelVaddr := by
  unfold mfreePage
  rw [Ensures, Wp.bind, passert, Wp.lift]
  refine ⟨fun _ hassert => ?_, fun _ _ => True.intro⟩
  have haligned : vaddr % pgSize = 0 := by
    unfold assert at hassert
    split_ifs at hassert with hc
    exact hc.2
  have hvaddr : vaddr = pgSize * (vaddr / pgSize) := by
    unfold pgSize at haligned ⊢
    omega
  rw [Wp.bind, wp_onSpace]
  refine ensures_addrV2p.call fun pgPhyAddr t ht => ?_
  rw [ht, Wp.bind, passert, Wp.lift]
  refine ⟨fun _ _ => ?_, fun _ _ => True.intro⟩
  rw [Wp.bind, Wp.get]
  simp only
  rw [Wp.bind, wp_onSpace, hvaddr]
  refine (h.freePages _ cnt hproc hp).call fun _ u hu => ?_
  refine (ensures_vaddrRemove (σ := { σ with space := u }) hheap).call fun _ τ hτ => ?_
  rw [hτ.1]
  exact ⟨hu.1, hτ.2⟩

end

/-! ## New directories -/

section

variable {m : Phys} {d g i : Nat} {e : UInt32}

def clearedPage (m : Phys) (g : Nat) : Phys :=
  Function.update m g (splice (m g) 0 4096 fun _ => 0)

/-- The kernel's part of directory `d` is copied into frame `g`. -/
def copiedKernel (m : Phys) (d g : Nat) : Phys :=
  Function.update m g (splice (m g) 0xc00 1024 fun i => m d (0xc00 + i))

/-- The three writes of `create_page_dir`. -/
def copiedDir (m : Phys) (d g : Nat) (e : UInt32) : Phys :=
  setEntry (copiedKernel (clearedPage m g) d g) g 1023 e

theorem copiedKernel_entry (hi : i < 1024) :
    entry (copiedKernel m d g) g i = if 768 ≤ i then entry m d i else entry m g i := by
  unfold copiedKernel entry
  rw [Function.update_self]
  by_cases hhigh : 768 ≤ i
  · obtain ⟨j, rfl⟩ := Nat.exists_eq_add_of_le hhigh
    have hoff : 4 * (768 + j) = 0xc00 + 4 * j := by omega
    rw [if_pos hhigh, hoff, wordAt_splice_inside _ (by omega)]
    exact wordAt_view ..
  · rw [if_neg hhigh, wordAt_splice_outside (by omega)]

theorem copiedDir_entry (hne : d ≠ g) (hi : i < 1024) :
    entry (copiedDir m d g e) g i =
      if i = 1023 then e else if 768 ≤ i then entry m d i else 0 := by
  have hold : entry (clearedPage m g) d i = entry m d i := by
    unfold clearedPage entry
    rw [Function.update_of_ne hne]
  have hclear : entry (clearedPage m g) g i = 0 := entry_cleared hi
  unfold copiedDir
  rw [entry_setEntry, copiedKernel_entry hi, hold, hclear]
  simp only [true_and]

end

namespace Spaces

variable {allMem : UInt32} {s : Space} {dirs : List MadeDir} {g i p : Nat} {e : UInt32}

/-- The translation of a page of the kernel's heap does not read a frame behind the tables. -/
theorem spared (h : Spaces allMem s dirs) (hp : HeapPage p) (hg : 512 ≤ g)
    (hdir : g ∉ dirFrames dirs) : Spared s.phys s.cr3 p g := by
  have hk := hp.kernel
  refine ⟨?_, ?_⟩
  · rintro rfl
    rcases h.active with h256 | hd
    · omega
    · exact hdir hd
  · rw [h.part.table h.active hk]
    intro heq
    have heq' := Option.some.inj heq
    omega

/-- A page of the kernel becomes a directory. -/
theorem addDir (h : Spaces allMem s dirs) (hp : HeapPage p)
    (hw : walk s.phys s.cr3 p = some g)
    (hzero : ∀ i, i < 768 → entry s.phys g i = 0)
    (hsame : ∀ i, 768 ≤ i → i < 1023 → entry s.phys g i = entry s.phys s.cr3 i)
    (hself : Recursive s.phys g) : Spaces allMem s (⟨p, g⟩ :: dirs) := by
  have howner := (h.frameOf_heap hp).trans hw
  have hslots : ∀ x, slots s.phys g userTables x = none := by
    intro x
    cases x with
    | table i =>
        by_cases hi : i < userTables
        · rw [slots_table hi, hzero i hi]
          rfl
        · exact if_neg hi
    | page q =>
        by_cases hq : q / 1024 < userTables
        · rw [slots_page hq]
          unfold walk table
          rw [hzero _ hq]
          rfl
        · exact if_neg hq
  have hframes : frameOf s.phys (dirFrames (⟨p, g⟩ :: dirs)) =
      frameOf s.phys (dirFrames dirs) := by
    funext x
    cases x with
    | kernel q => rfl
    | user d x =>
        by_cases hd : d = g
        · have hin : g ∈ dirFrames (⟨p, g⟩ :: dirs) := List.mem_cons_self ..
          rw [hd, frameOf_user hin, hslots]
          by_cases hg : g ∈ dirFrames dirs
          · rw [frameOf_user hg, hslots]
          · exact (if_neg hg).symm
        · have hmem : d ∈ dirFrames (⟨p, g⟩ :: dirs) ↔ d ∈ dirFrames dirs := by
            simp [hd]
          by_cases hdirs : d ∈ dirFrames dirs
          · rw [frameOf_user hdirs, frameOf_user (hmem.mpr hdirs)]
          · simp only [frameOf, if_neg hdirs, if_neg fun hin => hdirs (hmem.mp hin)]
  have hdir256 : ∀ i, 768 ≤ i → i < 1023 → entry s.phys s.cr3 i = entry s.phys 256 i := by
    intro i hlow hhigh
    rcases h.active with h256 | hd
    · rw [h256]
    · exact h.part.same _ hd i hlow hhigh
  refine ⟨h.layout, ⟨h.part.loader, h.part.low, h.part.self, ?_, ?_⟩, ?_, ?_, ?_⟩
  · intro d hd i hlow hhigh
    rcases List.mem_cons.mp hd with rfl | hd
    · exact (hsame i hlow hhigh).trans (hdir256 i hlow hhigh)
    · exact h.part.same d hd i hlow hhigh
  · intro d hd
    rcases List.mem_cons.mp hd with rfl | hd
    · exact hself
    · exact h.part.selves d hd
  · rw [hframes]
    exact h.owners
  · intro e he
    rw [hframes]
    rcases List.mem_cons.mp he with rfl | he
    · exact howner
    · exact h.made e he
  · exact h.active.imp_right fun hd => List.mem_cons_of_mem _ hd

/-- A page of the kernel that holds no directory is made one. -/
theorem copied (h : Spaces allMem s dirs) (hp : HeapPage p)
    (hw : walk s.phys s.cr3 p = some g) (hfresh : ∀ e ∈ dirs, e.page ≠ p)
    (he : target e = some g) :
    Spaces allMem { s with phys := copiedDir s.phys s.cr3 g e } (⟨p, g⟩ :: dirs) ∧
      walk (clearedPage s.phys g) s.cr3 p = some g ∧
      walk (copiedKernel (clearedPage s.phys g) s.cr3 g) s.cr3 p = some g ∧
      walk (copiedDir s.phys s.cr3 g e) s.cr3 p = some g := by
  have howner := (h.frameOf_heap hp).trans hw
  have hhigh := h.high howner
  have hwritable : Writable s.cr3 dirs p := Or.inr (Or.inr ⟨hp, hfresh⟩)
  have hplain := h.plain_writable hwritable hw
  have hsp := h.spared hp hhigh hplain.dir
  -- one write after the other
  have h₁ : Spaces allMem { s with phys := clearedPage s.phys g } dirs := h.write hplain
  have hw₁ : walk (clearedPage s.phys g) s.cr3 p = some g := hsp.walk.trans hw
  have hplain₁ := h₁.plain_writable hwritable hw₁
  have h₂ : Spaces allMem { s with phys := copiedKernel (clearedPage s.phys g) s.cr3 g } dirs :=
    h₁.write hplain₁
  have hw₂ : walk (copiedKernel (clearedPage s.phys g) s.cr3 g) s.cr3 p = some g :=
    (h₁.spared hp hhigh hplain₁.dir).walk.trans hw₁
  have hplain₂ := h₂.plain_writable hwritable hw₂
  have h₃ : Spaces allMem { s with phys := copiedDir s.phys s.cr3 g e } dirs := h₂.write hplain₂
  have hw₃ : walk (copiedDir s.phys s.cr3 g e) s.cr3 p = some g :=
    (h₂.spared hp hhigh hplain₂.dir).walk.trans hw₂
  refine ⟨h₃.addDir hp hw₃ ?_ ?_ ?_, hw₁, hw₂, hw₃⟩
  · intro i hi
    refine (copiedDir_entry hsp.1 (by omega)).trans ?_
    rw [if_neg (by omega), if_neg (by omega)]
  · intro i hlow hi
    have hold : entry (copiedDir s.phys s.cr3 g e) s.cr3 i = entry s.phys s.cr3 i := by
      unfold copiedDir copiedKernel clearedPage entry
      rw [setEntry_other hsp.1, Function.update_of_ne hsp.1, Function.update_of_ne hsp.1]
    show entry (copiedDir s.phys s.cr3 g e) g i = entry (copiedDir s.phys s.cr3 g e) s.cr3 i
    rw [hold, copiedDir_entry hsp.1 (by omega), if_neg (by omega), if_pos hlow]
  · show target (entry (copiedDir s.phys s.cr3 g e) g 1023) = some g
    rw [copiedDir_entry hsp.1 (by decide), if_pos rfl]
    exact he

end Spaces

/-- A word of a page that is mapped. -/
theorem storeWord_page {m : Phys} {d g i p : Nat} {e : UInt32} (hw : walk m d p = some g)
    (hi : i < 1024) : storeWord m d (pgSize * p + i * 4) e = some (setEntry m g i e) := by
  have hdiv : (pgSize * p + i * 4) / 4096 = p := by
    unfold pgSize
    omega
  have hmod : (pgSize * p + i * 4) % 4096 / 4 = i := by
    unfold pgSize
    omega
  unfold storeWord
  rw [hdiv, hmod, hw]
  rfl

namespace Spaces

variable {allMem : UInt32} {s : Space} {dirs : List MadeDir} {g p : Nat} {F : Fault → Prop}

/-- The page of the new directory, cleared, is filled. -/
theorem wp_fill (h : Spaces allMem s dirs) (hp : HeapPage p) (hw : walk s.phys s.cr3 p = some g)
    (hfresh : ∀ e ∈ dirs, e.page ≠ p) :
    Wp (Forking.fillPageDir (pgSize * p)) { s with phys := clearedPage s.phys g } F fun _ t =>
      t = { s with phys := copiedDir s.phys s.cr3 g (link (UInt32.ofNat (pgSize * g))) } ∧
        Spaces allMem t (⟨p, g⟩ :: dirs) ∧ walk t.phys t.cr3 p = some g := by
  have howner := (h.frameOf_heap hp).trans hw
  have hplain := h.plain_writable (Or.inr (Or.inr ⟨hp, hfresh⟩)) hw
  have hsp := h.spared hp (h.high howner) hplain.dir
  have hk := hp.kernel
  -- the address of the frame is a word
  have hword : (UInt32.ofNat (pgSize * g)).toNat = pgSize * g := by
    obtain ⟨pf, j, -, -, haddr⟩ := h.owners.held _ _ howner
    rw [← haddr, UInt32.ofNat_toNat]
  have htarget : target (link (UInt32.ofNat (pgSize * g))) = some g := by
    rw [target_link_page (by rw [hword]; exact Nat.mul_mod_right _ _), hword,
      Nat.mul_div_cancel_left g (by decide)]
  obtain ⟨hdone, hw₁, hw₂, hw₃⟩ := h.copied hp hw hfresh htarget
  -- the directory that is active is not written
  have hentry : ∀ i, entry (clearedPage s.phys g) s.cr3 i = entry s.phys s.cr3 i := by
    intro i
    unfold clearedPage entry
    rw [Function.update_of_ne hsp.1]
  have hself₁ : Recursive (clearedPage s.phys g) s.cr3 := by
    unfold Recursive
    rw [hentry]
    exact h.self
  have hself₂ : Recursive (copiedKernel (clearedPage s.phys g) s.cr3 g) s.cr3 := by
    unfold copiedKernel Recursive entry
    rw [Function.update_of_ne hsp.1]
    exact hself₁
  have hsp₁ : Spared (clearedPage s.phys g) s.cr3 p g := by
    refine ⟨hsp.1, ?_⟩
    unfold clearedPage
    rw [table_update hsp.1]
    exact hsp.2
  have hsrc : Spared (clearedPage s.phys g) s.cr3 (1023 * 1024 + 1023) g := by
    have hdiv : (1023 * 1024 + 1023) / 1024 = 1023 := by omega
    refine ⟨hsp.1, ?_⟩
    unfold table
    rw [hdiv, hself₁]
    simpa using hsp.1
  have hcopy : copyBytes s.cr3 1024 (pgSize * p + 0x300 * 4) (0xfffff000 + 0x300 * 4)
      (clearedPage s.phys g) = some (copiedKernel (clearedPage s.phys g) s.cr3 g) :=
    copyBytes_part hself₁.walk_dir hw₁ hsp.1 hsrc hsp₁ (k := 0xc00) (n := 1024) (by decide)
  have hstore := storeWord_page (e := link (UInt32.ofNat (pgSize * g))) hw₂ (i := 1023) (by decide)
  unfold Forking.fillPageDir
  rw [Wp.bind]
  apply wp_writeMem (s := { s with phys := clearedPage s.phys g }) hcopy
  rw [Wp.bind]
  apply wp_addrV2p (s := { s with phys := copiedKernel (clearedPage s.phys g) s.cr3 g })
    hself₂ (by omega) hw₂
  apply wp_writeMem (s := { s with phys := copiedKernel (clearedPage s.phys g) s.cr3 g }) hstore
  exact ⟨rfl, hdone, hw₃⟩

end Spaces

section

variable {allMem : UInt32} {σ : Pages} {dirs : List MadeDir}

theorem clearBytes_first {m m' : Phys} {d n dst : Nat} (hn : 0 < n)
    (h : clearBytes d n dst m = some m') : ∃ m₁, store m d dst 0 = some m₁ := by
  cases n with
  | zero => omega
  | succ n =>
      unfold clearBytes at h
      obtain ⟨m₁, hstore, -⟩ := Option.bind_eq_some_iff.mp h
      exact ⟨m₁, hstore⟩

/-- The page directory that `create_page_dir` returns, if it does. -/
def WithDir (allMem : UInt32) (dirs : List MadeDir) (r : Option Nat) (s : Space) : Prop :=
  match r with
  | none => Spaces allMem s dirs
  | some vaddr =>
      Spaces allMem s (⟨vaddr / pgSize, (walk s.phys s.cr3 (vaddr / pgSize)).getD 0⟩ :: dirs)

theorem ensures_createPageDir (h : Spaces allMem σ.space dirs)
    (hheap : HeapRange σ.kernelVaddr) :
    Ensures Forking.createPageDir σ fun r τ =>
      WithDir allMem dirs r τ.space ∧ HeapRange τ.kernelVaddr := by
  unfold Forking.createPageDir getKernelPages
  rw [Ensures, Wp.bind, Wp.bind]
  refine (ensures_mallocPage h hheap (by simp)).call fun r τ hr => ?_
  cases r with
  | none => exact ⟨hr.spaces, hr.heap⟩
  | some vaddr =>
      obtain ⟨p, rfl, hp, hfresh⟩ := hr.pages vaddr rfl
      have hpage : HeapPage p := hp 0 (by omega)
      have hdir : ∀ e ∈ dirs, e.page ≠ p := hfresh rfl 0 (by omega)
      show Wp (onSpace (writeMem fun d m => clearBytes d (1 * pgSize) (pgSize * p) m) >>=
        fun _ => pure (some (pgSize * p))) τ _ _
      rw [Wp.bind, wp_onSpace]
      apply ensures_writeMem
      intro m₁ hm₁
      -- the page is mapped, or it could not be cleared
      cases hw : walk τ.space.phys τ.space.cr3 p with
      | none =>
          have hdiv : pgSize * p / 4096 = p := Nat.mul_div_cancel_left p (by decide)
          obtain ⟨m, hstore⟩ := clearBytes_first (n := 1 * pgSize) (by decide) hm₁
          unfold store at hstore
          rw [hdiv, hw] at hstore
          cases hstore
      | some g =>
          have hplain := hr.spaces.plain_writable (Or.inr (Or.inr ⟨hpage, hdir⟩)) hw
          have howner := (hr.spaces.frameOf_heap hpage).trans hw
          have hsp := hr.spaces.spared hpage (hr.spaces.high howner) hplain.dir
          have hclear : m₁ = clearedPage τ.space.phys g :=
            Option.some.inj (hm₁.symm.trans (clearBytes_page hw hsp))
          rw [hclear, Wp.pure]
          rw [Wp.bind, wp_onSpace]
          refine (hr.spaces.wp_fill hpage hw hdir).call fun _ s₁ hs₁ => ⟨?_, hr.heap⟩
          have hdiv : pgSize * p / pgSize = p := Nat.mul_div_cancel_left p (by decide)
          unfold WithDir
          simp only
          rw [hdiv, hs₁.2.2]
          exact hs₁.2.1

/-- A user page of the process that runs is mapped. -/
theorem ensures_getAPage {s : Space} {p : Nat} (h : Spaces allMem s dirs) (hp : p < userPages)
    (hproc : s.cr3 ≠ 256) :
    Ensures (getAPageWithoutOpvaddrbitmap .pfUser (pgSize * p)) s fun _ t =>
      ∃ f, Spaces.Mapped allMem dirs .pfUser s.cr3 p f t := by
  unfold getAPageWithoutOpvaddrbitmap
  rw [Ensures, Wp.bind]
  refine (ensures_pallocOf h.layout).call fun r t hr => ?_
  obtain ⟨a, qs, rfl, rfl, ha, hqs, htook⟩ := hr
  obtain ⟨hspaces, hused, hnew⟩ := h.took hqs htook
  simp only
  rw [Wp.bind]
  exact (hspaces.pageTableAdd_user hp hproc (target_link_page ha) hused hnew).call
    fun _ t ht => ⟨_, ht⟩

/-- The directory of a process is active. -/
theorem Spaces.wp_activate {s : Space} {e : MadeDir} {F : Fault → Prop}
    (h : Spaces allMem s dirs) (he : e ∈ dirs) :
    Wp (pageDirActivate (some (pgSize * e.page))) s F fun _ t =>
      t = { s with cr3 := e.frame } ∧ Spaces allMem t dirs := by
  have hmade := h.made e he
  have hheap : HeapPage e.page := by
    by_contra hheap
    rw [frameOf, if_neg hheap] at hmade
    cases hmade
  have hk := hheap.kernel
  have hw := (h.frameOf_heap hheap).symm.trans hmade
  apply wp_pageDirActivate h.self (by omega) hw
  exact ⟨rfl, h.layout, h.part, h.owners, h.made, Or.inr (List.mem_map_of_mem he)⟩

/-- The directory of the next task is active. -/
theorem ensures_pageDirActivate {s : Space} {pgdir : Option Nat} (h : Spaces allMem s dirs)
    (hpgdir : pgdir = none ∨ ∃ e ∈ dirs, pgdir = some (pgSize * e.page)) :
    Ensures (pageDirActivate pgdir) s fun _ t => Spaces allMem t dirs := by
  rcases hpgdir with rfl | ⟨e, he, rfl⟩
  · exact ⟨h.layout, h.part, h.owners, h.made, Or.inl rfl⟩
  · exact (h.wp_activate he).call fun _ t ht => ht.2

end

end OsTruth
