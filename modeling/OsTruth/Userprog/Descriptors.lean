/-
Descriptors over runs of `sys_open`, `sys_close` and `sys_fork` by any number of tasks.
-/
import OsTruth.Library.Runs
import OsTruth.Userprog.Fork

namespace OsTruth

open ByteString Fallible Runs OsTruth.System

/-! ## The property -/

inductive FdCall
  | open (pathname : Str) (flags : UInt8)
  | close (fd : Int)
  | fork (pages : Nat)

/-- A system with what each descriptor of each task was opened on: the inode and its
number. -/
structure Traced where
  sys : System
  origin : Nat → Nat → Option (Ptr × UInt32)

/-- The inode that descriptor `fd` of task `pid` refers to. -/
def System.resolve (σ : System) (pid fd : Nat) : Option (Ptr × UInt32) :=
  (σ.procs pid).bind fun pr =>
    (σ.kernel.fileTable (pr.task.fdTable fd).toNat).fdInode.bind fun p =>
      ((σ.enter pr).inodes p).map fun i => (p, i.iNo)

/-- The trace after descriptor `fd` of task `pid` was opened, or closed for `none`. -/
def setOrigin (origin : Nat → Nat → Option (Ptr × UInt32)) (pid fd : Nat)
    (o : Option (Ptr × UInt32)) : Nat → Nat → Option (Ptr × UInt32) :=
  fun pid' fd' => if pid' = pid then (if fd' = fd then o else origin pid fd') else origin pid' fd'

/-- The trace after task `pid` forked task `child`. -/
def setChild (origin : Nat → Nat → Option (Ptr × UInt32)) (pid child : Nat) :
    Nat → Nat → Option (Ptr × UInt32) :=
  fun pid' fd => if pid' = child then origin pid fd else origin pid' fd

/-- Task `c.1` makes the call `c.2`. -/
def fdStep (σ : Traced) (c : Nat × FdCall) : Except Fault Traced :=
  match c.2 with
  | .open pathname flags =>
      (σ.sys.exec c.1 (sysOpen pathname flags)).map fun r =>
        ⟨r.2, if 3 ≤ r.1 then setOrigin σ.origin c.1 r.1.toNat (r.2.resolve c.1 r.1.toNat)
          else σ.origin⟩
  | .close fd =>
      (σ.sys.exec c.1 (sysClose fd)).map fun r => ⟨r.2, setOrigin σ.origin c.1 fd.toNat none⟩
  | .fork pages =>
      (σ.sys.fork c.1 pages).map fun τ => ⟨τ, setChild σ.origin c.1 σ.sys.nextPid⟩

/-- Descriptor `fd` refers to the inode at `p`, which has number `n`. -/
def System.Denotes (σ : System) (pr : Proc) (fd : Nat) (p : Ptr) (n : UInt32) : Prop :=
  ∃ g : Nat, pr.task.fdTable fd = g ∧ σ.kernel.OpenOn g p ∧
    ∃ i, (σ.enter pr).inodes p = some i ∧ i.iNo = n

/-- Every descriptor that was not closed by its task refers to what it was opened on. -/
def Traced.DescriptorsKept (σ : Traced) : Prop :=
  ∀ pid pr fd p n, σ.sys.procs pid = some pr → σ.origin pid fd = some (p, n) →
    σ.sys.Denotes pr fd p n

/-! ## The condition -/

/-- No descriptor but `fd` of task `pid` is on the entry with number `g`. -/
def System.Alone (σ : System) (pid fd : Nat) (g : Int) : Prop :=
  ∀ pid', pid' < σ.nextPid → ∀ pr, σ.procs pid' = some pr → ∀ fd', fd' < maxFilesOpenPerProc →
    3 ≤ fd' → (pid' ≠ pid ∨ fd' ≠ fd) → pr.task.fdTable fd' ≠ g

instance (σ : System) (pid fd : Nat) (g : Int) : Decidable (σ.Alone pid fd g) :=
  have (pid' : Nat) (pr : Proc) : Decidable (∀ fd', fd' < maxFilesOpenPerProc →
      3 ≤ fd' → (pid' ≠ pid ∨ fd' ≠ fd) → pr.task.fdTable fd' ≠ g) :=
    inferInstance
  inferInstanceAs (Decidable (∀ pid', pid' < σ.nextPid → ∀ pr, σ.procs pid' = some pr → _))

/-- The entry that is closed is not shared. -/
def unsharedClose (σ : Traced) (c : Nat × FdCall) : Prop :=
  match c.2 with
  | .close fd => 3 ≤ fd → ∀ pr, σ.sys.procs c.1 = some pr →
      σ.sys.Alone c.1 fd.toNat (pr.task.fdTable fd.toNat)
  | _ => True

instance (σ : Traced) : ∀ c : Nat × FdCall, Decidable (unsharedClose σ c)
  | (_, .open _ _) => isTrue True.intro
  | (_, .fork _) => isTrue True.intro
  | (k, .close fd) => inferInstanceAs (Decidable (3 ≤ fd → ∀ pr, σ.sys.procs k = some pr →
      σ.sys.Alone k fd.toNat (pr.task.fdTable fd.toNat)))

/-! ## The invariant -/

/-- The references to the inode at `p`: entries of `file_table`, and the root directory. -/
def State.refs (s : State) (p : Ptr) : Nat :=
  s.holders p + if s.rootDir.inode = some p then 1 else 0

structure Linked (σ : Traced) : Prop where
  counted : ∀ pid pr, σ.sys.procs pid = some pr → Counted (σ.sys.enter pr) σ.sys.kernel.refs
  bound : ∀ g p, σ.sys.kernel.OpenOn g p → g < maxFileOpen
  below : ∀ pid pr, σ.sys.procs pid = some pr → pid < σ.sys.nextPid
  fds : ∀ pid pr fd p n, σ.sys.procs pid = some pr → σ.origin pid fd = some (p, n) →
    3 ≤ fd ∧ fd < maxFilesOpenPerProc ∧ σ.sys.Denotes pr fd p n

section

variable {σ τ : Traced} {s t : State} {pid : Nat} {pr : Proc}

theorem Linked.kept (h : Linked σ) : σ.DescriptorsKept :=
  fun pid pr fd p n hpr ho => (h.fds pid pr fd p n hpr ho).2.2

theorem denotes_resolve {σ : System} {fd : Nat} {p : Ptr} {n : UInt32} (hpr : σ.procs pid = some pr)
    (h : σ.Denotes pr fd p n) : σ.resolve pid fd = some (p, n) := by
  obtain ⟨g, hg, hopen, i, hi, hno⟩ := h
  have hp : (σ.kernel.fileTable g).fdInode = some p := hopen
  unfold System.resolve
  rw [hpr, Option.bind_some, hg, Int.toNat_natCast, hp, Option.bind_some, hi, Option.map_some, hno]

/-- What `resolve` finds through entry `g` is what the entry is open on. -/
theorem resolve_open {σ : System} {fd g : Nat} {p : Ptr} {n : UInt32} (hpr : σ.procs pid = some pr)
    (hg : pr.task.fdTable fd = g) (h : σ.resolve pid fd = some (p, n)) :
    σ.kernel.OpenOn g p ∧ ∃ i, (σ.enter pr).inodes p = some i ∧ i.iNo = n := by
  unfold System.resolve at h
  rw [hpr, Option.bind_some, hg, Int.toNat_natCast] at h
  obtain ⟨p', hp', hmap⟩ := Option.bind_eq_some_iff.mp h
  obtain ⟨i, hi, heq⟩ := Option.map_eq_some_iff.mp hmap
  rw [Prod.mk.injEq] at heq
  rw [heq.1] at hp' hi
  exact ⟨hp', i, hi, heq.2⟩

theorem refs_pos {g : Nat} {p : Ptr} (hg : g < maxFileOpen) (hp : s.OpenOn g p) : 0 < s.refs p :=
  Nat.lt_of_lt_of_le (holders_pos hg hp) (Nat.le_add_right _ _)

theorem refs_congr (hopen : ∀ g p, t.OpenOn g p ↔ s.OpenOn g p) (hroot : t.rootDir = s.rootDir) :
    t.refs = s.refs := by
  funext p
  have hsame : t.holders p = s.holders p :=
    Nat.le_antisymm (holders_mono fun g => (hopen g p).mp) (holders_mono fun g => (hopen g p).mpr)
  unfold State.refs
  rw [hsame, hroot]

/-- What task `pid` may leave behind: the references are counted, and what descriptors
refer to is still there. -/
structure Leaves (σ : Traced) (pid : Nat) (pr : Proc) (t : State) (own : Nat → Option (Ptr × UInt32)) :
    Prop where
  counted : Counted t t.refs
  next : σ.sys.kernel.next ≤ t.next
  bound : ∀ g p, t.OpenOn g p → g < maxFileOpen
  kept : ∀ pid' pr' (fd g : Nat) p, pid' ≠ pid → σ.sys.procs pid' = some pr' → 3 ≤ fd →
    fd < maxFilesOpenPerProc → pr'.task.fdTable fd = g → σ.sys.kernel.OpenOn g p → t.OpenOn g p
  stays : ∀ g p i, σ.sys.kernel.OpenOn g p → t.OpenOn g p →
    (σ.sys.enter pr).inodes p = some i → ∃ j, t.inodes p = some j ∧ j.iNo = i.iNo
  own : ∀ fd p n, own fd = some (p, n) → 3 ≤ fd ∧ fd < maxFilesOpenPerProc ∧
    ∃ g : Nat, t.cur.fdTable fd = g ∧ t.OpenOn g p ∧ ∃ i, t.inodes p = some i ∧ i.iNo = n

theorem Linked.leave (h : Linked σ) (hpr : σ.sys.procs pid = some pr)
    {own : Nat → Option (Ptr × UInt32)} (hl : Leaves σ pid pr t own) :
    Linked ⟨σ.sys.leave pid t, fun pid' fd => if pid' = pid then own fd else σ.origin pid' fd⟩ where
  counted k pr' hk := counted_leave (fun k' pr₁ p i hpr₁ => (h.counted k' pr₁ hpr₁).old p i)
    hl.counted hl.next hk
  bound := hl.bound
  below k pr' hk := by
    by_cases hkp : k = pid
    · rw [hkp]
      exact h.below pid pr hpr
    · exact h.below k pr' ((if_neg hkp).symm.trans hk)
  fds k pr' fd p n hk ho := by
    by_cases hkp : k = pid
    · rw [hkp] at hk
      have hpr' : procOf t = pr' := Option.some.inj ((if_pos rfl).symm.trans hk)
      obtain ⟨h3, h8, g, hg, hopen, i, hi, hno⟩ := hl.own fd p n ((if_pos hkp).symm.trans ho)
      rw [← hpr']
      refine ⟨h3, h8, g, hg, hopen, i, ?_, hno⟩
      rw [enter_leave_self, hi]
    · have hk' : σ.sys.procs k = some pr' := (if_neg hkp).symm.trans hk
      obtain ⟨h3, h8, g, hg, hopen, i, hi, hno⟩ :=
        h.fds k pr' fd p n hk' ((if_neg hkp).symm.trans ho)
      have hopen' := hl.kept k pr' fd g p hkp hk' h3 h8 hg hopen
      cases hp : p.user with
      | true =>
          rw [enter_user hp] at hi
          exact ⟨h3, h8, g, hg, hopen', i, (enter_user hp).trans hi, hno⟩
      | false =>
          rw [enter_kernel hp] at hi
          obtain ⟨j, hj, hno'⟩ := hl.stays g p i hopen hopen' ((enter_kernel hp).trans hi)
          exact ⟨h3, h8, g, hg, hopen', j, (enter_kernel hp).trans hj, hno'.trans hno⟩

/-- Only what is recorded for tasks matters. -/
theorem Linked.retrace {σ : System} {o o' : Nat → Nat → Option (Ptr × UInt32)} (h : Linked ⟨σ, o⟩)
    (hagree : ∀ pid pr fd, σ.procs pid = some pr → o' pid fd = o pid fd) : Linked ⟨σ, o'⟩ where
  counted := h.counted
  bound := h.bound
  below := h.below
  fds pid pr fd p n hpr ho := h.fds pid pr fd p n hpr ((hagree pid pr fd hpr).symm.trans ho)

/-! ## Opening -/

/-- An entry that was open stays open. -/
theorem Opened.openOn {f : Ptr → Nat} {o : Option (Nat × Ptr)} {r : Int} (ho : Opened s t f o r)
    {g : Nat} {p : Ptr} (hg : s.OpenOn g p) : t.OpenOn g p := by
  rw [State.OpenOn, ho.entry]
  cases o with
  | none => exact hg
  | some o =>
      refine (if_neg fun heq => ?_).trans hg
      have hfree := (ho.free o.1 o.2 rfl).2.1
      rw [← heq, hg] at hfree
      cases hfree

/-- The entry that was filled in is one reference more. -/
theorem Opened.refs_le {f : Ptr → Nat} {o : Option (Nat × Ptr)} {r : Int} (ho : Opened s t f o r)
    (q : Ptr) : t.refs q ≤ bumpOpt s.refs o q := by
  have hroot : ∀ a b : Nat, a ≤ b → a + (if t.rootDir.inode = some q then 1 else 0) ≤
      b + (if s.rootDir.inode = some q then 1 else 0) := by
    intro a b hab
    rw [ho.rootDir]
    exact Nat.add_le_add_right hab _
  cases o with
  | none =>
      refine hroot _ _ (holders_mono fun k hk => ?_)
      rw [State.OpenOn, ho.entry] at hk
      exact hk
  | some o =>
      obtain ⟨g, p⟩ := o
      have hentry : ∀ k, (t.fileTable k).fdInode =
          if k = g then some p else (s.fileTable k).fdInode := ho.entry
      obtain ⟨hg, hfree, -⟩ := ho.free g p rfl
      have hrest : ∀ k, k ≠ g → (t.OpenOn k q ↔ s.OpenOn k q) := by
        intro k hk
        rw [State.OpenOn, hentry, if_neg hk]
        exact Iff.rfl
      by_cases hq : q = p
      · have hold : ¬s.OpenOn g q := by
          rw [State.OpenOn, hfree]
          intro hnone
          cases hnone
        have hnew : t.OpenOn g q := by
          rw [State.OpenOn, hentry, if_pos rfl, hq]
        have hone := holders_insert hg hnew hold hrest
        show _ ≤ bump s.refs p q
        rw [hq, bump_self, ← hq]
        refine Nat.le_trans (hroot _ _ (Nat.le_of_eq hone)) ?_
        unfold State.refs
        omega
      · show _ ≤ bump s.refs p q
        rw [bump_other _ hq]
        refine hroot _ _ (holders_mono fun k hk => ?_)
        by_cases hkg : k = g
        · rw [State.OpenOn, hentry, if_pos hkg, Option.some.injEq] at hk
          exact absurd hk.symm hq
        · exact (hrest k hkg).mp hk

/-- A descriptor that the call did not set is as it was. -/
theorem Linked.own_opened (h : Linked σ) (hpr : σ.sys.procs pid = some pr) {o : Option (Nat × Ptr)}
    {r : Int} (ho : Opened (σ.sys.enter pr) t (σ.sys.enter pr).refs o r) {fd : Nat} {p : Ptr}
    {n : UInt32} (hfd : (fd : Int) ≠ r) (horigin : σ.origin pid fd = some (p, n)) :
    3 ≤ fd ∧ fd < maxFilesOpenPerProc ∧ ∃ g : Nat, t.cur.fdTable fd = g ∧ t.OpenOn g p ∧
      ∃ i, t.inodes p = some i ∧ i.iNo = n := by
  obtain ⟨h3, h8, g, hg, hopen, i, hi, hno⟩ := h.fds pid pr fd p n hpr horigin
  obtain ⟨j, hj, hno'⟩ := ho.stays p i hi (Or.inr (refs_pos (h.bound g p hopen) hopen))
  refine ⟨h3, h8, g, ?_, ho.openOn hopen, j, hj, hno'.trans hno⟩
  rcases ho.fds with ⟨-, hcur⟩ | ⟨g', p', fd', -, hr, -, -, -, hcur⟩
  · rw [hcur]
    exact hg
  · rw [hcur]
    refine (if_neg fun heq => hfd ?_).trans hg
    rw [hr, heq]

theorem Linked.openStep (h : Linked σ) (hpr : σ.sys.procs pid = some pr) {o : Option (Nat × Ptr)}
    {r : Int} (ho : Opened (σ.sys.enter pr) t (σ.sys.enter pr).refs o r)
    (hc : Counted t (bumpOpt (σ.sys.enter pr).refs o)) :
    Linked ⟨σ.sys.leave pid t, if 3 ≤ r then
      setOrigin σ.origin pid r.toNat ((σ.sys.leave pid t).resolve pid r.toNat) else σ.origin⟩ := by
  have hleaves : ∀ own : Nat → Option (Ptr × UInt32),
      (∀ fd p n, own fd = some (p, n) → 3 ≤ fd ∧ fd < maxFilesOpenPerProc ∧
        ∃ g : Nat, t.cur.fdTable fd = g ∧ t.OpenOn g p ∧ ∃ i, t.inodes p = some i ∧ i.iNo = n) →
      Leaves σ pid pr t own := by
    intro own hown
    refine ⟨hc.mono ho.refs_le, ho.next, fun g p hg => ?_, ?_, ?_, hown⟩
    · rw [State.OpenOn, ho.entry] at hg
      cases o with
      | none => exact h.bound g p hg
      | some o =>
          by_cases hgo : g = o.1
          · rw [hgo]
            exact (ho.free o.1 o.2 rfl).1
          · exact h.bound g p ((if_neg hgo).symm.trans hg)
    · exact fun _ _ _ _ _ _ _ _ _ _ hg => ho.openOn hg
    · exact fun g p i hg _ hi => ho.stays p i hi (Or.inr (refs_pos (h.bound g p hg) hg))
  by_cases h3 : 3 ≤ r
  · rw [if_pos h3]
    refine h.leave hpr (hleaves _ fun fd p n hown => ?_)
    by_cases hfd : fd = r.toNat
    · have hres : (σ.sys.leave pid t).resolve pid r.toNat = some (p, n) :=
        (if_pos hfd).symm.trans hown
      rcases ho.fds with ⟨hr, -⟩ | ⟨g, q, fd', -, hr, h3', h8, -, hcur⟩
      · omega
      · have hfd' : fd = fd' := by omega
        have hprocs : (σ.sys.leave pid t).procs pid = some (procOf t) := if_pos rfl
        have htable : t.cur.fdTable fd' = (g : Int) := by
          rw [hcur]
          exact if_pos rfl
        rw [← hfd, hfd'] at hres
        obtain ⟨hopen, i, hi, hno⟩ := resolve_open hprocs htable hres
        rw [enter_leave_self] at hi
        rw [hfd']
        exact ⟨h3', h8, g, htable, hopen, i, hi, hno⟩
    · exact h.own_opened hpr ho (by omega) ((if_neg hfd).symm.trans hown)
  · rw [if_neg h3]
    refine (h.leave hpr (hleaves (σ.origin pid) fun fd p n hown => ?_)).retrace fun k _ fd _ => ?_
    · have hfd := (h.fds pid pr fd p n hpr hown).1
      exact h.own_opened hpr ho (by omega) hown
    · by_cases hk : k = pid
      · rw [if_pos hk, hk]
      · rw [if_neg hk]

/-! ## Closing -/

theorem clearEntry_openOn {g k : Nat} {p : Ptr} :
    (s.clearEntry g).OpenOn k p ↔ k ≠ g ∧ s.OpenOn k p := by
  unfold State.OpenOn State.clearEntry
  by_cases hk : k = g
  · rw [hk, State.setFile_fileTable_same]
    simp
  · rw [State.setFile_fileTable_other _ _ hk]
    simp [hk]

theorem bump_clearEntry_le {g : Nat} {p : Ptr} (hg : g < maxFileOpen) (hp : s.OpenOn g p) (q : Ptr) :
    bump (s.clearEntry g).refs p q ≤ s.refs q := by
  have hle : (s.clearEntry g).holders q ≤ s.holders q :=
    holders_mono fun k hk => (clearEntry_openOn.mp hk).2
  have hroot : (s.clearEntry g).rootDir = s.rootDir := rfl
  by_cases hq : q = p
  · have hone : s.holders q = (s.clearEntry g).holders q + 1 := by
      refine holders_insert hg (hq ▸ hp) (fun hk => (clearEntry_openOn.mp hk).1 rfl) ?_
      intro k hk
      rw [clearEntry_openOn]
      exact ⟨fun h => ⟨hk, h⟩, fun h => h.2⟩
    rw [hq, bump_self, ← hq]
    unfold State.refs
    rw [hroot]
    omega
  · rw [bump_other _ hq]
    unfold State.refs
    rw [hroot]
    omega

/-- A call that leaves the system as it is. -/
theorem Linked.leaves_self (h : Linked σ) (hpr : σ.sys.procs pid = some pr)
    {own : Nat → Option (Ptr × UInt32)}
    (hown : ∀ fd p n, own fd = some (p, n) → σ.origin pid fd = some (p, n)) :
    Leaves σ pid pr (σ.sys.enter pr) own where
  counted := h.counted pid pr hpr
  next := Nat.le_refl _
  bound := h.bound
  kept _ _ _ _ _ _ _ _ _ _ hg := hg
  stays _ _ i _ _ hi := ⟨i, hi, rfl⟩
  own fd p n ho := h.fds pid pr fd p n hpr (hown fd p n ho)

theorem Linked.closeStep (h : Linked σ) (hpr : σ.sys.procs pid = some pr) {fd : Int} {g : Nat}
    (halone : σ.sys.Alone pid fd.toNat (pr.task.fdTable fd.toNat))
    (hc : Closed (σ.sys.enter pr) t ((σ.sys.enter pr).clearEntry g).refs fd g) :
    Leaves σ pid pr t (fun fd' => if fd' = fd.toNat then none else σ.origin pid fd') := by
  have hopen : ∀ k p, t.OpenOn k p ↔ k ≠ g ∧ σ.sys.kernel.OpenOn k p := by
    intro k p
    rw [State.OpenOn, hc.fileTable]
    exact clearEntry_openOn
  have hrefs : t.refs = ((σ.sys.enter pr).clearEntry g).refs :=
    refs_congr (fun k p => (hopen k p).trans clearEntry_openOn.symm) hc.rootDir
  have hentry : pr.task.fdTable fd.toNat = (g : Int) := hc.entry
  rw [hentry] at halone
  refine ⟨?_, hc.next, fun k p hk => h.bound k p ((hopen k p).mp hk).2, ?_, ?_, ?_⟩
  · rw [hrefs]
    exact hc.counted
  · intro pid' pr' fd' g' p hne hpr' h3 h8 hg' hk
    refine (hopen g' p).mpr ⟨fun heq => ?_, hk⟩
    exact halone pid' (h.below pid' pr' hpr') pr' hpr' fd' h8 h3 (Or.inl hne) (heq ▸ hg')
  · intro k p i hk hk' hi
    refine hc.stays p i hi (Or.inr (refs_pos (h.bound k p hk) ?_))
    exact clearEntry_openOn.mpr ((hopen k p).mp hk')
  · intro fd' p n ho
    by_cases heq : fd' = fd.toNat
    · have hnone : (none : Option (Ptr × UInt32)) = some (p, n) := (if_pos heq).symm.trans ho
      cases hnone
    · obtain ⟨h3, h8, k, hk, hkp, i, hi, hno⟩ :=
        h.fds pid pr fd' p n hpr ((if_neg heq).symm.trans ho)
      have hkg : k ≠ g := fun hkg =>
        halone pid (h.below pid pr hpr) pr hpr fd' h8 h3 (Or.inr heq) (hkg ▸ hk)
      have hpos := refs_pos (h.bound k p hkp) (clearEntry_openOn.mpr ⟨hkg, hkp⟩)
      obtain ⟨j, hj, hno'⟩ := hc.stays p i hi (Or.inr hpos)
      refine ⟨h3, h8, k, ?_, (hopen k p).mpr ⟨hkg, hkp⟩, j, hj, hno'.trans hno⟩
      rw [hc.cur]
      exact (if_neg heq).trans hk

/-! ## Forking -/

theorem Linked.growStep (h : Linked σ) (hpr : σ.sys.procs pid = some pr)
    (hg : Grows (σ.sys.enter pr) t) : Leaves σ pid pr t (σ.origin pid) := by
  have hopen : ∀ k p, t.OpenOn k p ↔ σ.sys.kernel.OpenOn k p := by
    intro k p
    rw [State.OpenOn, hg.fileTable]
    exact Iff.rfl
  have hrefs : t.refs = (σ.sys.enter pr).refs := refs_congr hopen hg.rootDir
  refine ⟨?_, hg.next, fun k p hk => h.bound k p ((hopen k p).mp hk), ?_, ?_, ?_⟩
  · rw [hrefs]
    exact (h.counted pid pr hpr).grows hg
  · exact fun _ _ _ g p _ _ _ _ _ hk => (hopen g p).mpr hk
  · intro k p i _ _ hi
    obtain ⟨j, hj, hno, -⟩ := hg.seen p i hi
    exact ⟨j, hj, hno⟩
  · intro fd p n ho
    obtain ⟨h3, h8, g, hfd, hgp, i, hi, hno⟩ := h.fds pid pr fd p n hpr ho
    obtain ⟨j, hj, hno', -⟩ := hg.seen p i hi
    exact ⟨h3, h8, g, by rw [hg.cur]; exact hfd, (hopen g p).mpr hgp, j, hj, hno'.trans hno⟩

/-- A child sees an inode that its parent saw. -/
theorem IsChild.seen (pid : Nat) {child : Proc} (hchild : IsChild (σ.sys.enter pr) child)
    (hg : Grows (σ.sys.enter pr) t) {p : Ptr} {i : Inode} (hi : (σ.sys.enter pr).inodes p = some i) :
    ∃ j, ((σ.sys.leave pid t).enter child).inodes p = some j ∧ j.iNo = i.iNo := by
  cases hp : p.user with
  | true =>
      refine ⟨i, (enter_user hp).trans ?_, rfl⟩
      rw [hchild.inodes, hi]
  | false =>
      obtain ⟨j, hj, hno, -⟩ := hg.seen p i hi
      exact ⟨j, (enter_kernel hp).trans hj, hno⟩

theorem IsChild.counted (pid : Nat) {child : Proc} (hchild : IsChild (σ.sys.enter pr) child)
    (hc : Counted (σ.sys.enter pr) (σ.sys.enter pr).refs) (hc' : Counted t t.refs)
    (hnext : σ.sys.kernel.next ≤ t.next) : Counted ((σ.sys.leave pid t).enter child) t.refs where
  old p i hi := by
    cases hp : p.user with
    | true =>
        have hi' : child.inodes p = some i := (enter_user hp).symm.trans hi
        rw [hchild.inodes] at hi'
        exact Nat.lt_of_lt_of_le (hc.old p i hi') hnext
    | false => exact hc'.old p i ((enter_kernel hp).symm.trans hi)
  cnt p hp hpos := by
    obtain ⟨i, hi, hle⟩ := hc'.cnt p hp hpos
    exact ⟨i, (enter_kernel hp).trans hi, hle⟩

theorem Linked.forkStep (h : Linked σ) (hpr : σ.sys.procs pid = some pr)
    (hg : Grows (σ.sys.enter pr) t) {child : Proc} (hchild : IsChild (σ.sys.enter pr) child) :
    Linked ⟨(σ.sys.leave pid t).addProc child, setChild σ.origin pid σ.sys.nextPid⟩ := by
  have hgrow := h.growStep hpr hg
  have hbase := h.leave hpr hgrow
  have hold : ∀ k pr', k ≠ σ.sys.nextPid → ((σ.sys.leave pid t).addProc child).procs k = some pr' →
      (σ.sys.leave pid t).procs k = some pr' :=
    fun k pr' hk hk' => (if_neg hk).symm.trans hk'
  have hnew : ∀ pr', ((σ.sys.leave pid t).addProc child).procs σ.sys.nextPid = some pr' →
      child = pr' :=
    fun pr' hk' => Option.some.inj ((if_pos rfl).symm.trans hk')
  refine ⟨fun k pr' hk => ?_, hbase.bound, fun k pr' hk => ?_, fun k pr' fd p n hk ho => ?_⟩
  · by_cases hkn : k = σ.sys.nextPid
    · rw [hkn] at hk
      rw [← hnew pr' hk]
      have hc := hchild.counted pid (h.counted pid pr hpr) hgrow.counted hgrow.next
      exact ⟨hc.old, hc.cnt⟩
    · exact hbase.counted k pr' (hold k pr' hkn hk)
  · by_cases hkn : k = σ.sys.nextPid
    · rw [hkn]
      exact Nat.lt_succ_self _
    · exact Nat.lt_succ_of_lt (hbase.below k pr' (hold k pr' hkn hk))
  · by_cases hkn : k = σ.sys.nextPid
    · rw [hkn] at hk
      rw [← hnew pr' hk]
      obtain ⟨h3, h8, g, hfd, hgp, i, hi, hno⟩ :=
        h.fds pid pr fd p n hpr ((if_pos hkn).symm.trans ho)
      obtain ⟨j, hj, hno'⟩ := hchild.seen pid hg hi
      refine ⟨h3, h8, g, by rw [hchild.fdTable]; exact hfd, ?_, j, hj, hno'.trans hno⟩
      show (t.fileTable g).fdInode = some p
      rw [hg.fileTable]
      exact hgp
    · refine hbase.fds k pr' fd p n (hold k pr' hkn hk) ?_
      have ho' : σ.origin k fd = some (p, n) := (if_neg hkn).symm.trans ho
      by_cases hkp : k = pid
      · rw [hkp] at ho'
        exact (if_pos hkp).trans ho'
      · exact (if_neg hkp).trans ho'

/-! ## Runs -/

theorem Linked.fdStep (h : Linked σ) {c : Nat × FdCall} (hok : unsharedClose σ c)
    (hstep : fdStep σ c = .ok τ) : Linked τ := by
  obtain ⟨pid, call⟩ := c
  cases call with
  | «open» pathname flags =>
      obtain ⟨pr, r, t, hpr, hrun, hτ⟩ := System.exec_map_eq_ok.mp hstep
      obtain ⟨o, ho, hc⟩ := ensures_iff.mp
        (sysOpen_opensFile (h.counted pid pr hpr) pathname flags) _ _ hrun
      rw [hτ]
      exact h.openStep hpr ho hc
  | close fd =>
      obtain ⟨pr, r, t, hpr, hrun, hτ⟩ := System.exec_map_eq_ok.mp hstep
      rw [hτ]
      have hs : ∀ p, (σ.sys.enter pr).OpenOn ((σ.sys.enter pr).cur.fdTable fd.toNat).toNat p →
          Counted (σ.sys.enter pr) (bump ((σ.sys.enter pr).clearEntry
            ((σ.sys.enter pr).cur.fdTable fd.toNat).toNat).refs p) :=
        fun p hp => (h.counted pid pr hpr).mono (bump_clearEntry_le (h.bound _ p hp) hp)
      rcases ensures_iff.mp (sysClose_closed hs) _ _ hrun with ⟨-, ht⟩ | ⟨h3, g, hc⟩
      · rw [ht]
        refine h.leave hpr (h.leaves_self hpr fun fd' p n ho => ?_)
        by_cases heq : fd' = fd.toNat
        · have hnone : (none : Option (Ptr × UInt32)) = some (p, n) :=
            (if_pos heq).symm.trans ho
          cases hnone
        · exact (if_neg heq).symm.trans ho
      · have hg : ((σ.sys.enter pr).cur.fdTable fd.toNat).toNat = g := by
          rw [hc.entry, Int.toNat_natCast]
        rw [hg] at hc
        exact h.leave hpr (h.closeStep hpr (hok h3 pr hpr) hc)
  | fork pages =>
      have hmap : OsTruth.fdStep σ (pid, .fork pages) =
          (σ.sys.exec pid (sysFork pages)).map fun r =>
            ⟨r.1.elim r.2 r.2.addProc, setChild σ.origin pid σ.sys.nextPid⟩ := by
        show ((σ.sys.exec pid (sysFork pages)).map _).map _ = _
        cases σ.sys.exec pid (sysFork pages) with
        | error e => rfl
        | ok r => rfl
      rw [hmap] at hstep
      obtain ⟨pr, child, t, hpr, hrun, hτ⟩ := System.exec_map_eq_ok.mp hstep
      obtain ⟨hg, hchild⟩ := ensures_iff.mp (sysFork_child pages) _ _ hrun
      rw [hτ]
      cases child with
      | some child => exact h.forkStep hpr hg (hchild child rfl)
      | none =>
          have hbase := h.leave hpr (h.growStep hpr hg)
          refine hbase.retrace fun k pr' fd hk => ?_
          have hlt : k ≠ σ.sys.nextPid := Nat.ne_of_lt (hbase.below k pr' hk)
          refine (if_neg hlt).trans ?_
          by_cases hkp : k = pid
          · rw [if_pos hkp, hkp]
          · rw [if_neg hkp]

theorem System.Booted.linked {σ : System} (h : σ.Booted) : Linked ⟨σ, fun _ _ => none⟩ := by
  obtain ⟨r, i, hroot, -, huser, hi, hcnt, -⟩ := h.root
  have hno : ∀ g p, ¬σ.kernel.OpenOn g p := by
    intro g p hg
    rw [State.OpenOn, h.noFile] at hg
    cases hg
  refine ⟨fun pid pr hpr => ⟨fun p j hj => ?_, fun p hp hpos => ?_⟩,
    fun g p hg => absurd hg (hno g p), h.below, fun _ _ _ _ _ _ hnone => ?_⟩
  · cases hp : p.user with
    | true =>
        rw [enter_user hp, h.noInode pid pr p hpr] at hj
        cases hj
    | false =>
        rw [enter_kernel hp] at hj
        exact h.old p j hj
  · have hzero : σ.kernel.holders p = 0 := holders_zero fun g => hno g p
    unfold State.refs at hpos ⊢
    rw [hzero, hroot] at hpos ⊢
    by_cases hp' : r = p
    · rw [if_pos (congrArg some hp'), ← hp']
      exact ⟨i, (enter_kernel huser).trans hi, hcnt⟩
    · rw [if_neg fun heq => hp' (Option.some.inj heq)] at hpos
      exact absurd hpos (Nat.lt_irrefl _)
  · cases hnone

/-- A descriptor keeps denoting its file as long as no shared entry is closed. -/
theorem descriptorsKept_of_unshared {σ : System} (h : σ.Booted)
    (hrun : Reach fdStep unsharedClose ⟨σ, fun _ _ => none⟩ τ) : τ.DescriptorsKept :=
  (hrun.invariant h.linked fun _ _ _ hl hok hstep => hl.fdStep hok hstep).kept

/-- Task 0 makes `/f`.  Task 1 opens it, forks, opens it again and closes that. -/
theorem descriptorsKept_fork :
    ∃ τ, Reach fdStep unsharedClose ⟨freshSystem, fun _ _ => none⟩ τ ∧ τ.DescriptorsKept ∧
      (τ.sys.procs 2).isSome ∧ (τ.origin 2 3).isSome := by
  obtain ⟨τ, hrun, hchild, horigin⟩ := exists_reach fdStep unsharedClose
    ⟨freshSystem, fun _ _ => none⟩
    [(0, .open [slash, 102] oCreat), (0, .close 3), (1, .open [slash, 102] 0), (1, .fork 1),
      (1, .open [slash, 102] 0), (1, .close 4)]
    (fun τ => (τ.sys.procs 2).isSome ∧ (τ.origin 2 3).isSome)
    (by decide +kernel) (by decide +kernel)
  exact ⟨τ, hrun, descriptorsKept_of_unshared freshSystem_booted hrun, hchild, horigin⟩

/-- The parent closes the entry that its child shares. -/
theorem fork_close :
    ∃ τ, Reach fdStep (fun _ _ => True) ⟨freshSystem, fun _ _ => none⟩ τ ∧ ¬τ.DescriptorsKept := by
  obtain ⟨τ, hrun, hchild, horigin, hgone⟩ := exists_reach fdStep (fun _ _ => True)
    ⟨freshSystem, fun _ _ => none⟩
    [(0, .open [slash, 102] oCreat), (0, .close 3), (1, .open [slash, 102] 0), (1, .fork 1),
      (1, .close 3)]
    (fun τ => (τ.sys.procs 2).isSome ∧ (τ.origin 2 3).isSome ∧ (τ.sys.resolve 2 3).isNone)
    (allOk_true _ _) (by decide +kernel)
  obtain ⟨pr, hpr⟩ := Option.isSome_iff_exists.mp hchild
  obtain ⟨⟨p, n⟩, ho⟩ := Option.isSome_iff_exists.mp horigin
  refine ⟨τ, hrun, fun hkept => ?_⟩
  rw [denotes_resolve hpr (hkept 2 pr 3 p n hpr ho)] at hgone
  cases hgone

end

end OsTruth
