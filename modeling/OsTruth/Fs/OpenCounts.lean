/-
Open counts as references.

`Counted s h` says that the count of an inode in the kernel heap is at least the number
`h` of references to it, so an inode that is referred to is not freed.  An inode in a
user heap is never freed by `inode_close`, which frees in the kernel heap only.
-/
import OsTruth.Fs.FileTable
import OsTruth.Fs.SearchRule

namespace OsTruth

open ByteString Fallible

def bump (h : Ptr → Nat) (p : Ptr) : Ptr → Nat := fun q => if q = p then h q + 1 else h q

structure Counted (s : State) (h : Ptr → Nat) : Prop where
  old : ∀ p i, s.inodes p = some i → p.id < s.next
  cnt : ∀ p, p.user = false → 0 < h p → ∃ i, s.inodes p = some i ∧ h p ≤ i.iOpenCnts

/-- An inode that is referred to, or that lies in a user heap, stays. -/
def Stays (s t : State) (h : Ptr → Nat) : Prop :=
  ∀ p i, s.inodes p = some i → (p.user = true ∨ 0 < h p) → ∃ j, t.inodes p = some j ∧ j.iNo = i.iNo

/-- A part of a call that leaves the tables alone. -/
structure Keeps (s t : State) (h : Ptr → Nat) : Prop where
  fileTable : t.fileTable = s.fileTable
  cur : t.cur = s.cur
  rootDir : t.rootDir = s.rootDir
  next : s.next ≤ t.next
  stays : Stays s t h

def Held (s : State) (h : Ptr → Nat) : DirPtr → Prop
  | .root => Counted s h
  | .heap q => ∃ r p, s.dirs q = some r ∧ r.inode = some p ∧ Counted s (bump h p)

section

variable {s t u : State} {h : Ptr → Nat} {p : Ptr} {F : Fault → Prop}

theorem le_bump (h : Ptr → Nat) (p q : Ptr) : h q ≤ bump h p q := by
  unfold bump
  by_cases hq : q = p
  · rw [if_pos hq]
    exact Nat.le_succ _
  · exact Nat.le_of_eq (if_neg hq).symm

theorem bump_self (h : Ptr → Nat) (p : Ptr) : bump h p p = h p + 1 := if_pos rfl

theorem bump_other (h : Ptr → Nat) {p q : Ptr} (hq : q ≠ p) : bump h p q = h q := if_neg hq

theorem bump_comm (h : Ptr → Nat) (p q : Ptr) : bump (bump h p) q = bump (bump h q) p := by
  funext r
  unfold bump
  split <;> split <;> rfl

theorem Counted.mono {h' : Ptr → Nat} (hs : Counted s h') (hle : ∀ p, h p ≤ h' p) : Counted s h where
  old := hs.old
  cnt p hp hpos := by
    obtain ⟨i, hi, hcnt⟩ := hs.cnt p hp (Nat.lt_of_lt_of_le hpos (hle p))
    exact ⟨i, hi, Nat.le_trans (hle p) hcnt⟩

theorem Counted.unbump (hs : Counted s (bump h p)) : Counted s h := hs.mono (le_bump h p)

theorem Held.counted {d : DirPtr} (hd : Held s h d) : Counted s h := by
  cases d with
  | root => exact hd
  | heap q =>
      obtain ⟨r, p, -, -, hs⟩ := hd
      exact hs.unbump

theorem Stays.trans (hst : Stays s t h) (htu : Stays t u h) : Stays s u h := by
  intro p i hi hp
  obtain ⟨j, hj, hno⟩ := hst p i hi hp
  obtain ⟨k, hk, hno'⟩ := htu p j hj hp
  exact ⟨k, hk, hno'.trans hno⟩

theorem Stays.mono {h' : Ptr → Nat} (hst : Stays s t h') (hle : ∀ p, h p ≤ h' p) : Stays s t h :=
  fun p i hi hp => hst p i hi (hp.imp_right fun hpos => Nat.lt_of_lt_of_le hpos (hle p))

theorem Keeps.refl (s : State) (h : Ptr → Nat) : Keeps s s h :=
  ⟨rfl, rfl, rfl, Nat.le_refl _, fun _ i hi _ => ⟨i, hi, rfl⟩⟩

theorem Keeps.trans (hst : Keeps s t h) (htu : Keeps t u h) : Keeps s u h :=
  ⟨htu.fileTable.trans hst.fileTable, htu.cur.trans hst.cur, htu.rootDir.trans hst.rootDir,
    Nat.le_trans hst.next htu.next, hst.stays.trans htu.stays⟩

/-! ## Quiet steps -/

theorem Quiet.stays (hq : Quiet s t) (h : Ptr → Nat) : Stays s t h := by
  intro p i hi _
  obtain ⟨j, hj, hhead⟩ := hq.of_inodes hi
  exact ⟨j, hj, congrArg Prod.fst hhead⟩

theorem Quiet.keeps (hq : Quiet s t) (h : Ptr → Nat) : Keeps s t h :=
  ⟨hq.fileTable, hq.cur, hq.rootDir, hq.next, hq.stays h⟩

theorem Counted.quiet (hs : Counted s h) (hq : Quiet s t) : Counted t h where
  old p j hj := by
    cases hi : s.inodes p with
    | none =>
        rw [hq.of_none hi] at hj
        cases hj
    | some i => exact Nat.lt_of_lt_of_le (hs.old p i hi) hq.next
  cnt p hp hpos := by
    obtain ⟨i, hi, hcnt⟩ := hs.cnt p hp hpos
    obtain ⟨j, hj, hhead⟩ := hq.of_inodes hi
    simp only [Inode.head, Prod.mk.injEq] at hhead
    exact ⟨j, hj, by rw [hhead.2.1]; exact hcnt⟩

theorem Held.quiet {d : DirPtr} (hd : Held s h d) (hq : Quiet s t) : Held t h d := by
  cases d with
  | root => exact Counted.quiet hd hq
  | heap q =>
      obtain ⟨r, p, hr, hp, hs⟩ := hd
      exact ⟨r, p, by rw [hq.dirs, hr], hp, hs.quiet hq⟩

/-! ## One inode changes -/

theorem Counted.congr (hs : Counted s h) (hinodes : t.inodes = s.inodes) (hnext : s.next ≤ t.next) :
    Counted t h where
  old p i hi := by
    rw [hinodes] at hi
    exact Nat.lt_of_lt_of_le (hs.old p i hi) hnext
  cnt := by
    rw [hinodes]
    exact hs.cnt

theorem Counted.le {i : Inode} (hs : Counted s h) (hi : s.inodes p = some i)
    (hp : p.user = false) : h p ≤ i.iOpenCnts := by
  by_cases hz : h p = 0
  · rw [hz]
    exact Nat.zero_le _
  · obtain ⟨i', hi', hle⟩ := hs.cnt p hp (Nat.pos_of_ne_zero hz)
    rw [hi, Option.some.injEq] at hi'
    rwa [hi']

/-- The inode at `p` changes, and the references to it with it. -/
theorem Counted.put {i j : Inode} {h' : Ptr → Nat} (hs : Counted s h) (hi : s.inodes p = some i)
    (hother : ∀ q, q ≠ p → h' q ≤ h q) (hself : p.user = false → h' p ≤ j.iOpenCnts) :
    Counted (s.putInode p (some j)) h' where
  old q k hk := by
    by_cases hq : q = p
    · rw [hq]
      exact hs.old p i hi
    · exact hs.old q k ((State.putInode_other _ _ hq).symm.trans hk)
  cnt q hq hpos := by
    by_cases hqp : q = p
    · rw [hqp]
      exact ⟨j, State.putInode_same .., hself (hqp ▸ hq)⟩
    · obtain ⟨k, hk, hle⟩ := hs.cnt q hq (Nat.lt_of_lt_of_le hpos (hother q hqp))
      exact ⟨k, (State.putInode_other _ _ hqp).trans hk, Nat.le_trans (hother q hqp) hle⟩

/-- The inode at `p` changes, but its number of openers does not fall. -/
theorem Counted.putInode {i j : Inode} (hs : Counted s h) (hi : s.inodes p = some i)
    (hcnt : i.iOpenCnts ≤ j.iOpenCnts) : Counted (s.putInode p (some j)) h :=
  hs.put hi (fun _ _ => Nat.le_refl _) fun hp => Nat.le_trans (hs.le hi hp) hcnt

/-- An inode without references goes. -/
theorem Counted.drop (hs : Counted s h) (hzero : p.user = false → h p = 0) :
    Counted (s.putInode p none) h where
  old q j hj := by
    by_cases hq : q = p
    · rw [hq, State.putInode_same] at hj
      cases hj
    · exact hs.old q j ((State.putInode_other _ _ hq).symm.trans hj)
  cnt q hq hpos := by
    have hqp : q ≠ p := by
      rintro rfl
      exact absurd (hzero hq) (Nat.ne_of_gt hpos)
    rw [State.putInode_other _ _ hqp]
    exact hs.cnt q hq hpos

theorem stays_putInode {i j : Inode} (hi : s.inodes p = some i) (hno : j.iNo = i.iNo) :
    Stays s (s.putInode p (some j)) h := by
  intro q k hk _
  by_cases hq : q = p
  · rw [hq, hi, Option.some.injEq] at hk
    rw [hq, ← hk]
    exact ⟨j, State.putInode_same .., hno⟩
  · exact ⟨k, (State.putInode_other _ _ hq).trans hk, rfl⟩

/-! ## Opening and closing inodes -/

theorem inodeOpen_counted (hs : Counted s h) (n : UInt32) :
    Ensures (inodeOpen n) s (fun p t => Counted t (bump h p) ∧ Keeps s t h ∧ t.dirs = s.dirs ∧
      ∃ i, t.inodes p = some i) := by
  refine wp_inodeOpen.mpr ⟨fun p i _ hi => ?_, fun _ => ?_, fun _ _ => True.intro⟩
  · refine ⟨hs.put hi (fun q hq => Nat.le_of_eq (bump_other h hq)) fun hp => ?_,
      ⟨rfl, rfl, rfl, Nat.le_refl _, stays_putInode hi rfl⟩, rfl, _, State.putInode_same ..⟩
    rw [bump_self]
    exact Nat.succ_le_succ (hs.le hi hp)
  · have hfresh : ∀ q j, s.inodes q = some j → q ≠ ⟨false, s.next⟩ := by
      rintro q j hj rfl
      exact Nat.lt_irrefl _ (hs.old _ j hj)
    have hother : ∀ q j, s.inodes q = some j → (s.loaded n).inodes q = some j :=
      fun q j hj => (if_neg (hfresh q j hj)).trans hj
    have hzero : h ⟨false, s.next⟩ = 0 := by
      by_contra hne
      obtain ⟨i, hi, -⟩ := hs.cnt _ rfl (Nat.pos_of_ne_zero hne)
      exact hfresh _ i hi rfl
    refine wp_inodeRead.mpr ⟨fun _ => ⟨fun _ => ⟨fun _ => ⟨fun _ => ?_, ?_⟩, ?_⟩, ?_⟩, ?_⟩
    · refine ⟨⟨?_, ?_⟩, ⟨rfl, rfl, rfl, by show _ ≤ s.next + 2; omega, ?_⟩, rfl, _, if_pos rfl⟩
      · intro q j hj
        show q.id < s.next + 2
        by_cases hq : q = ⟨false, s.next⟩
        · rw [hq]
          exact Nat.lt_add_of_pos_right (by omega)
        · exact Nat.lt_of_lt_of_le (hs.old q j ((if_neg hq).symm.trans hj)) (by omega)
      · intro q hq hpos
        by_cases hqp : q = ⟨false, s.next⟩
        · rw [hqp, bump_self, hzero]
          exact ⟨_, if_pos rfl, Nat.le_refl _⟩
        · rw [bump_other h hqp] at hpos ⊢
          obtain ⟨i, hi, hcnt⟩ := hs.cnt q hq hpos
          exact ⟨i, hother q i hi, hcnt⟩
      · exact fun q j hj _ => ⟨j, hother q j hj, rfl⟩
    all_goals exact fun _ => True.intro

theorem inodeClose_counted {i : Inode} (hs : Counted s (bump h p)) (hi : s.inodes p = some i) :
    Ensures (inodeClose p) s (fun _ t => Counted t h ∧ Keeps s t h ∧ t.dirs = s.dirs) := by
  have hcnt : p.user = false → h p + 1 ≤ i.iOpenCnts := by
    intro hp
    rw [← bump_self]
    exact hs.le hi hp
  refine (wp_inodeClose hi).mpr ⟨fun _ => ?_, fun hone => ⟨fun hp => ?_, fun _ => True.intro⟩⟩
  · refine ⟨hs.put hi (fun q _ => le_bump h p q) fun hp => ?_,
      ⟨rfl, rfl, rfl, Nat.le_refl _, stays_putInode hi rfl⟩, rfl⟩
    have hle := hcnt hp
    show h p ≤ decOpenCnts i.iOpenCnts
    unfold decOpenCnts
    rw [if_neg (by omega)]
    omega
  · -- the last reference goes, so nothing else refers to the inode
    have hzero : h p = 0 := by
      have hle := hcnt hp
      omega
    refine ⟨(hs.unbump.drop (p := p) fun _ => hzero).congr rfl (Nat.le_refl _),
      ⟨rfl, rfl, rfl, Nat.le_refl _, fun q j hj hkeep => ?_⟩, rfl⟩
    have hqp : q ≠ p := by
      rintro rfl
      rcases hkeep with huser | hpos
      · rw [hp] at huser
        cases huser
      · omega
    exact ⟨j, (if_neg hqp).trans hj, rfl⟩

/-! ## Directories -/

theorem dirOpen_held (hs : Counted s h) (n : UInt32) :
    Ensures (dirOpen n) s (fun d t => Held t h d ∧ Keeps s t h) := by
  refine wp_dirOpen.mpr ⟨fun _ => ?_, fun _ => ?_⟩
  · have hnew : Counted s.newDir h :=
      ⟨fun p i hi => Nat.lt_succ_of_lt (hs.old p i hi), hs.cnt⟩
    refine (inodeOpen_counted hnew n).call fun p t ht => ?_
    obtain ⟨hcounted, hkeeps, -, -⟩ := ht
    refine ⟨⟨_, p, if_pos rfl, rfl, ⟨hcounted.old, hcounted.cnt⟩⟩, ?_⟩
    exact ⟨hkeeps.fileTable, hkeeps.cur, hkeeps.rootDir,
      Nat.le_trans (Nat.le_succ s.next) hkeeps.next, hkeeps.stays⟩
  · exact Wp.mono (Fallible.Wp.trivial) (fun _ _ => True.intro) fun _ _ _ => True.intro

theorem sysFreeDir_keeps (q : Ptr) :
    Ensures (sysFreeDir q) s (fun _ t => t = s.putDir q none) := by
  unfold sysFreeDir
  rw [Ensures, wp_sysFree]
  exact ⟨fun _ _ => rfl, fun _ _ => True.intro, fun _ _ => True.intro, fun _ _ => True.intro⟩

theorem dirClose_counted {d : DirPtr} (hd : Held s h d) :
    Ensures (dirClose d) s (fun _ t => Counted t h ∧ Keeps s t h) := by
  cases d with
  | root => exact ⟨hd, Keeps.refl s h⟩
  | heap q =>
      obtain ⟨r, p, hr, hp, hs⟩ := hd
      have hclose : ∀ i, s.inodes p = some i → Ensures (dirClose (.heap q)) s
          (fun _ t => Counted t h ∧ Keeps s t h) := by
        intro i hi
        refine (wp_dirClose_heap hr hp).mpr ((inodeClose_counted hs hi).call fun _ t ht => ?_)
        obtain ⟨hcounted, hkeeps, -⟩ := ht
        refine (sysFreeDir_keeps q).call fun _ u hu => ?_
        rw [hu]
        exact ⟨⟨hcounted.old, hcounted.cnt⟩,
          ⟨hkeeps.fileTable, hkeeps.cur, hkeeps.rootDir, hkeeps.next, hkeeps.stays⟩⟩
      cases hi : s.inodes p with
      | some i => exact hclose i hi
      | none =>
          refine (wp_dirClose_heap hr hp).mpr ?_
          unfold inodeClose
          rw [Wp.bind, wp_loadInode]
          refine ⟨fun i hi' => ?_, fun _ => True.intro⟩
          rw [hi] at hi'
          cases hi'

/-! ## Searching a path -/

theorem searchRule_held (s : State) (h : Ptr → Nat) :
    SearchRule (fun t d => Held t h d ∧ Keeps s t h) (fun t => Counted t h ∧ Keeps s t h) where
  root _ ht := ht
  reads t u _ ht hr := ⟨ht.1.quiet (hr.quiet t u), ht.2.trans ((hr.quiet t u).keeps h)⟩
  opens _ n ht := (dirOpen_held ht.1 n).call fun _ _ hu => ⟨hu.1, ht.2.trans hu.2⟩
  closes _ _ ht := (dirClose_counted ht.1).call fun _ _ hu => ⟨hu.1, ht.2.trans hu.2⟩

theorem searchFile_held (hs : Counted s h) (path : Str) :
    Ensures (searchFile path) s (fun r t => Held t h r.2.parentDir ∧ Keeps s t h) :=
  (searchRule_held s h).searchFile ⟨hs, Keeps.refl s h⟩ path

theorem closeAndFail_counted {d : DirPtr} (hd : Held s h d) :
    Ensures (closeAndFail d) s (fun r t => r = -1 ∧ Counted t h ∧ Keeps s t h) := by
  unfold closeAndFail
  rw [Ensures, Wp.bind]
  exact (dirClose_counted hd).call fun _ t ht => ⟨rfl, ht⟩

/-! ## Opening and creating files -/

/-- The references after entry `g` was perhaps opened on `p`. -/
def bumpOpt (h : Ptr → Nat) : Option (Nat × Ptr) → Ptr → Nat
  | none => h
  | some (_, p) => bump h p

/-- How a call that opens changes the tables: entry `o` of `file_table` is filled in,
and perhaps a descriptor of the task. -/
structure Opened (s t : State) (h : Ptr → Nat) (o : Option (Nat × Ptr)) (r : Int) : Prop where
  next : s.next ≤ t.next
  rootDir : t.rootDir = s.rootDir
  stays : Stays s t h
  entry : ∀ k, (t.fileTable k).fdInode =
    match o with
    | none => (s.fileTable k).fdInode
    | some (g, p) => if k = g then some p else (s.fileTable k).fdInode
  free : ∀ g p, o = some (g, p) → g < maxFileOpen ∧ (s.fileTable g).fdInode = none ∧
    ∃ i, t.inodes p = some i
  fds : (r = -1 ∧ t.cur = s.cur) ∨ ∃ (g : Nat) (p : Ptr) (fd : Nat), o = some (g, p) ∧ r = fd ∧
    3 ≤ fd ∧ fd < maxFilesOpenPerProc ∧ s.cur.fdTable fd = -1 ∧
    t.cur = { s.cur with fdTable := fun k => if k = fd then (g : Int) else s.cur.fdTable k }

theorem Keeps.opened (hk : Keeps s t h) : Opened s t h none (-1) :=
  ⟨hk.next, hk.rootDir, hk.stays, fun _ => by rw [hk.fileTable], nofun, Or.inl ⟨rfl, hk.cur⟩⟩

/-- Whatever keeps the tables may come before. -/
theorem Keeps.trans_opened {o : Option (Nat × Ptr)} {r : Int} (hst : Keeps s t h)
    (htu : Opened t u h o r) : Opened s u h o r := by
  obtain ⟨hnext, hroot, hstays, hentry, hfree, hfds⟩ := htu
  rw [hst.fileTable] at hentry hfree
  rw [hst.cur] at hfds
  exact ⟨Nat.le_trans hst.next hnext, hroot.trans hst.rootDir, hst.stays.trans hstays, hentry,
    hfree, hfds⟩

/-- Whatever keeps the tables may come afterwards. -/
theorem Opened.trans_keeps {o : Option (Nat × Ptr)} {r : Int} (hst : Opened s t h o r)
    (htu : Keeps t u (bumpOpt h o)) : Opened s u h o r := by
  have hle : ∀ p, h p ≤ bumpOpt h o p := by
    intro p
    cases o with
    | none => exact Nat.le_refl _
    | some o => exact le_bump h o.2 p
  refine ⟨Nat.le_trans hst.next htu.next, htu.rootDir.trans hst.rootDir,
    hst.stays.trans (htu.stays.mono hle), ?_, ?_, ?_⟩
  · intro k
    rw [htu.fileTable]
    exact hst.entry k
  · intro g p ho
    obtain ⟨hg, hfree, i, hi⟩ := hst.free g p ho
    obtain ⟨j, hj, -⟩ := htu.stays p i hi (Or.inr (by
      rw [ho, bumpOpt, bump_self]
      exact Nat.succ_pos _))
    exact ⟨hg, hfree, j, hj⟩
  · rw [htu.cur]
    exact hst.fds

/-- The last step of opening: a descriptor for entry `g`, which is open on `p`. -/
theorem pcbFdInstall_opened {g : Nat} (hg : g < maxFileOpen)
    (hfree : (s.fileTable g).fdInode = none) (hnext : s.next ≤ t.next)
    (hroot : t.rootDir = s.rootDir) (hcur : t.cur = s.cur) (hstays : Stays s t h)
    (hentry : ∀ k, (t.fileTable k).fdInode = if k = g then some p else (s.fileTable k).fdInode)
    (hp : ∃ i, t.inodes p = some i) :
    Ensures (pcbFdInstall g) t (fun r u => Opened s u h (some (g, p)) r ∧
      u.inodes = t.inodes ∧ u.dirs = t.dirs ∧ u.next = t.next) := by
  have hentry' : ∀ g' p', some (g, p) = some (g', p') → g' < maxFileOpen ∧
      (s.fileTable g').fdInode = none ∧ ∃ i, t.inodes p' = some i := by
    intro g' p' heq
    rw [Option.some.injEq, Prod.mk.injEq] at heq
    rw [← heq.1, ← heq.2]
    exact ⟨hg, hfree, hp⟩
  refine wp_pcbFdInstall ?_ fun fd h₁ h₂ h₃ => ?_
  · exact ⟨⟨hnext, hroot, hstays, hentry, hentry', Or.inl ⟨rfl, hcur⟩⟩, rfl, rfl, rfl⟩
  · refine ⟨⟨hnext, hroot, hstays, hentry, hentry', Or.inr ⟨g, p, fd, rfl, rfl, h₁, h₂, ?_, ?_⟩⟩,
      rfl, rfl, rfl⟩
    · rwa [← hcur]
    · show ({ t.cur with fdTable := _ } : Task) = _
      rw [hcur]

theorem setFile_entry {g : Nat} {f : File} (hf : f.fdInode = some p)
    (htable : ∀ k, (t.fileTable k).fdInode = (s.fileTable k).fdInode) (k : Nat) :
    ((t.setFile g f).fileTable k).fdInode =
      if k = g then some p else (s.fileTable k).fdInode := by
  by_cases hk : k = g
  · rw [hk, State.setFile_fileTable_same, if_pos rfl, hf]
  · rw [State.setFile_fileTable_other _ _ hk, if_neg hk, htable]

theorem fileOpen_opened (hs : Counted s h) (n : UInt32) (flag : UInt8) :
    Ensures (fileOpen n flag) s
      (fun r t => ∃ o, Opened s t h o r ∧ Counted t (bumpOpt h o)) := by
  unfold fileOpen fileOpenAt
  rw [Ensures, Wp.bind]
  refine ensures_getFreeSlot ?_ fun g _ hg hfree => ?_
  · rw [if_pos rfl, Wp.pure]
    exact ⟨none, (Keeps.refl s h).opened, hs⟩
  · rw [if_neg (by omega), Wp.bind]
    refine (inodeOpen_counted hs n).call fun p u hu => ?_
    obtain ⟨hcounted, hkeeps, -, i, hi⟩ := hu
    have hset : Counted (u.setFile g ⟨0, flag.toUInt32, some p⟩) (bump h p) :=
      hcounted.congr rfl (Nat.le_refl _)
    have hentry := setFile_entry (s := s) (t := u) (g := g) (f := ⟨0, flag.toUInt32, some p⟩) rfl
      fun k => by rw [hkeeps.fileTable]
    have hinstall : ∀ v : State, v.next = u.next → v.rootDir = u.rootDir → v.cur = u.cur →
        v.fileTable = (u.setFile g ⟨0, flag.toUInt32, some p⟩).fileTable → Stays u v h →
        (∃ i, v.inodes p = some i) → Counted v (bump h p) →
        Ensures (pcbFdInstall g) v
          (fun r t => ∃ o, Opened s t h o r ∧ Counted t (bumpOpt h o)) := by
      intro v h₁ h₂ h₃ h₄ h₅ h₆ h₇
      refine (pcbFdInstall_opened hg hfree (by rw [h₁]; exact hkeeps.next)
        (h₂.trans hkeeps.rootDir) (h₃.trans hkeeps.cur) (hkeeps.stays.trans h₅)
        (by rw [h₄]; exact hentry) h₆).call fun r t ht => ?_
      obtain ⟨hopened, hinodes, -, hnext⟩ := ht
      exact ⟨some (g, p), hopened, h₇.congr hinodes (Nat.le_of_eq hnext.symm)⟩
    have hi' : (u.setFile g ⟨0, flag.toUInt32, some p⟩).inodes p = some i := hi
    rw [Wp.bind, Wp.modify, Int.toNat_natCast, Wp.ite]
    refine ⟨fun _ => ?_, fun _ => ?_⟩
    · rw [Wp.bind, wp_loadInode_some hi', Wp.ite]
      refine ⟨fun _ => ?_, fun _ => ?_⟩
      · rw [Wp.bind, wp_storeInode_some hi']
        exact hinstall _ rfl rfl rfl rfl (stays_putInode hi rfl) ⟨_, State.putInode_same ..⟩
          (hset.putInode hi' (Nat.le_refl _))
      · -- the writer is refused, and its entry stays
        refine ⟨some (g, p), ⟨hkeeps.next, hkeeps.rootDir, hkeeps.stays, hentry, ?_,
          Or.inl ⟨rfl, hkeeps.cur⟩⟩, hset⟩
        intro g' p' heq
        rw [Option.some.injEq, Prod.mk.injEq] at heq
        rw [← heq.1, ← heq.2]
        exact ⟨hg, hfree, i, hi⟩
    · exact hinstall _ rfl rfl rfl rfl (fun _ i hi _ => ⟨i, hi, rfl⟩) ⟨i, hi⟩ hset

/-! ## Creating a file -/

/-- `t` is `s` with a new inode at `p`, which nothing refers to. -/
structure Made (s t : State) (h : Ptr → Nat) (p : Ptr) : Prop where
  opened : Opened s t h none (-1)
  counted : Counted t h
  dirs : t.dirs = s.dirs
  absent : s.inodes p = none
  zero : p.user = false → h p = 0
  seen : ∃ i, t.inodes p = some i

/-- What a call ensures that perhaps opens an entry. -/
def Opens (s : State) (h : Ptr → Nat) (r : Int) (t : State) : Prop :=
  (∃ o, Opened s t h o r ∧ Counted t (bumpOpt h o)) ∧ t.dirs = s.dirs

theorem Made.quiet (hm : Made s t h p) (hq : Quiet t u) : Made s u h p where
  opened := hm.opened.trans_keeps (hq.keeps h)
  counted := hm.counted.quiet hq
  dirs := hq.dirs.trans hm.dirs
  absent := hm.absent
  zero := hm.zero
  seen := by
    obtain ⟨i, hi⟩ := hm.seen
    obtain ⟨j, hj, -⟩ := hq.of_inodes hi
    exact ⟨j, hj⟩

theorem createRollback1_opens (hs : Opened s t h none (-1)) (hc : Counted t h)
    (hdirs : t.dirs = s.dirs) (n : UInt32) (ioBuf : Ptr) :
    Ensures (createRollback1 n ioBuf) t (Opens s h) := by
  unfold createRollback1
  rw [Ensures, Wp.bind, wp_inodeBitmapClear]
  refine ⟨fun _ => ?_, fun _ => True.intro⟩
  rw [Wp.bind]
  refine (sysFreeBuf_quiet ioBuf _).call fun _ u hu => ?_
  have hc' : Counted (t.setInodeBitmap (t.part.inodeBitmap.set n.toNat false)) h :=
    hc.congr rfl (Nat.le_refl _)
  have hk : Keeps t (t.setInodeBitmap (t.part.inodeBitmap.set n.toNat false)) h :=
    ⟨rfl, rfl, rfl, Nat.le_refl _, fun _ i hi _ => ⟨i, hi, rfl⟩⟩
  exact ⟨⟨none, hs.trans_keeps (hk.trans (hu.keeps h)), hc'.quiet hu⟩, hu.dirs.trans hdirs⟩

theorem createRollback2_opens (hm : Made s t h p) (n : UInt32) (ioBuf : Ptr) :
    Ensures (createRollback2 p n ioBuf) t (Opens s h) := by
  unfold createRollback2
  rw [Ensures, Wp.bind, sysFreeInode, wp_sysFree]
  refine ⟨fun _ _ => ?_, fun _ _ => True.intro, fun _ _ => True.intro, fun _ _ => True.intro⟩
  have hother : ∀ q i, s.inodes q = some i → q ≠ p := by
    rintro q i hi rfl
    rw [hm.absent] at hi
    cases hi
  refine createRollback1_opens (t := t.putInode p none) ⟨hm.opened.next, hm.opened.rootDir, ?_,
    hm.opened.entry, fun _ _ h => (by cases h), hm.opened.fds⟩ (hm.counted.drop hm.zero) hm.dirs n
    ioBuf
  intro q i hi hkeep
  obtain ⟨j, hj, hno⟩ := hm.opened.stays q i hi hkeep
  exact ⟨j, (State.putInode_other _ _ (hother q i hi)).trans hj, hno⟩

/-- The entry that was filled in for the new inode is free again. -/
theorem Made.zeroEntry {g : Nat} (hm : Made s t h p) (hfree : (t.fileTable g).fdInode = none) :
    Made s (t.setFile g ⟨0, 0, none⟩) h p := by
  refine ⟨⟨hm.opened.next, hm.opened.rootDir, hm.opened.stays, fun k => ?_, nofun,
    hm.opened.fds⟩, hm.counted.congr rfl (Nat.le_refl _), hm.dirs, hm.absent, hm.zero, hm.seen⟩
  refine Eq.trans ?_ (hm.opened.entry k)
  by_cases hk : k = g
  · rw [hk, State.setFile_fileTable_same, hfree]
  · rw [State.setFile_fileTable_other _ _ hk]

theorem createRollback3_opens {g : Nat} {f : File} (hm : Made s t h p)
    (hfree : (t.fileTable g).fdInode = none) (hq : Quiet (t.setFile g f) u) (n : UInt32)
    (ioBuf : Ptr) : Ensures (createRollback3 g p n ioBuf) u (Opens s h) := by
  unfold createRollback3
  rw [Ensures, Wp.bind, Wp.modify]
  exact createRollback2_opens ((hm.zeroEntry hfree).quiet hq.setFile) n ioBuf

/-- The new inode is counted by its entry. -/
theorem Counted.created {j : Inode} (hc : Counted t h) (hj : t.inodes p = some j)
    (hzero : p.user = false → h p = 0) :
    Counted (t.putInode p (some { j with iOpenCnts := 1 })) (bump h p) := by
  refine hc.put hj (fun q hq => Nat.le_of_eq (bump_other h hq)) fun hp => ?_
  rw [bump_self, hzero hp]

theorem fileInstall_opens {g : Nat} {f : File} (hm : Made s t h p) (hg : g < maxFileOpen)
    (hfree : (t.fileTable g).fdInode = none) (hf : f.fdInode = some p) (d : DirPtr)
    (filename : Str) (n : UInt32) (ioBuf : Ptr) :
    Ensures (fileInstall d filename p n g ioBuf) (t.setFile g f) (Opens s h) := by
  refine fileInstall_rule (fun _ _ _ hq => createRollback3_opens hm hfree hq n ioBuf)
    fun u j v hq hj hv => ?_
  have hset : Opened s t h none (-1) := hm.opened
  have hcount : Counted u h := Counted.quiet (hm.counted.congr (t := t.setFile g f) rfl
    (Nat.le_refl _)) hq
  have hdone := Counted.created hcount hj hm.zero
  have hentry : ∀ k, (v.fileTable k).fdInode =
      if k = g then some p else (s.fileTable k).fdInode := by
    intro k
    rw [hv.fileTable]
    show (u.fileTable k).fdInode = _
    rw [hq.fileTable]
    exact setFile_entry hf hset.entry k
  have hcur : t.cur = s.cur := by
    rcases hset.fds with ⟨-, hcur⟩ | ⟨g', p', fd, ho, -⟩
    · exact hcur
    · cases ho
  have hstays : Stays s v h := by
    refine (hset.stays.trans ?_).trans (hv.stays h)
    exact Stays.trans (hq.stays h) (stays_putInode (s := u) hj rfl)
  refine (pcbFdInstall_opened (s := s) hg ?_ ?_ ?_ ?_ hstays hentry ?_).call fun r w hw => ?_
  · exact (hset.entry g).symm.trans hfree
  · exact Nat.le_trans hset.next (Nat.le_trans hq.next hv.next)
  · exact hv.rootDir.trans (hq.rootDir.trans hset.rootDir)
  · exact hv.cur.trans (hq.cur.trans hcur)
  · obtain ⟨k, hk, -⟩ := hv.of_inodes (State.putInode_same _ p _)
    exact ⟨k, hk⟩
  · obtain ⟨hopened, hinodes, hdirs, hnext⟩ := hw
    refine ⟨⟨some (g, p), hopened, Counted.congr (s := v) ?_ hinodes (Nat.le_of_eq hnext.symm)⟩, ?_⟩
    · exact Counted.quiet (hdone.congr (t := (u.pushOpen p).putInode p _) rfl (Nat.le_refl _)) hv
    · exact hdirs.trans (hv.dirs.trans (hq.dirs.trans hm.dirs))

/-- The new inode lies where nothing was. -/
theorem made_newInode (hs : Counted s h) (hc : Counted t h) (hk : Keeps s t h)
    (hd : t.dirs = s.dirs) (n : UInt32) : Made s (t.newInode n) h t.fresh := by
  have hfresh : ∀ q i, t.inodes q = some i → q ≠ t.fresh := by
    rintro q i hi rfl
    exact Nat.lt_irrefl _ (hc.old _ i hi)
  refine ⟨hk.opened.trans_keeps ⟨rfl, rfl, rfl, Nat.le_succ _, ?_⟩, ⟨?_, ?_⟩, hd, ?_, ?_, _,
    State.putInode_same ..⟩
  · intro q i hi _
    exact ⟨i, (State.putInode_other _ _ (hfresh q i hi)).trans hi, rfl⟩
  · intro q i hi
    show q.id < t.next + 1
    by_cases hq : q = t.fresh
    · rw [hq]
      exact Nat.lt_succ_self _
    · exact Nat.lt_succ_of_lt (hc.old q i ((State.putInode_other _ _ hq).symm.trans hi))
  · intro q hq hpos
    obtain ⟨i, hi, hle⟩ := hc.cnt q hq hpos
    exact ⟨i, (State.putInode_other _ _ (hfresh q i hi)).trans hi, hle⟩
  · cases hi : s.inodes t.fresh with
    | none => rfl
    | some i => exact absurd (hs.old _ i hi) (Nat.not_lt.mpr hk.next)
  · intro hp
    by_contra hne
    obtain ⟨i, hi, -⟩ := hc.cnt _ hp (Nat.pos_of_ne_zero hne)
    exact hfresh _ i hi rfl

theorem fileCreate_opens (hs : Counted s h) (d : DirPtr) (filename : Str) (flag : UInt8) :
    Ensures (fileCreate d filename flag) s (Opens s h) := by
  refine fileCreate_rule (fun t ht => ⟨⟨none, (ht.keeps h).opened, hs.quiet ht⟩, ht.dirs⟩)
    fun t b ioBuf ht _ => ?_
  have hc : Counted (t.takeInodeNo b) h := (hs.quiet ht).congr rfl (Nat.le_refl _)
  have hk : Keeps s (t.takeInodeNo b) h :=
    (ht.keeps h).trans ⟨rfl, rfl, rfl, Nat.le_refl _, fun _ i hi _ => ⟨i, hi, rfl⟩⟩
  have hd : (t.takeInodeNo b).dirs = s.dirs := ht.dirs
  have hm := made_newInode hs hc hk hd (UInt32.ofNat b)
  have hrefuse : Keeps s (t.takeInodeNo b).refuse h :=
    hk.trans ⟨rfl, rfl, rfl, Nat.le_refl _, fun _ i hi _ => ⟨i, hi, rfl⟩⟩
  exact ⟨⟨⟨none, hk.opened, hc⟩, hd⟩,
    createRollback1_opens hrefuse.opened (hc.congr rfl (Nat.le_refl _)) hd _ ioBuf,
    createRollback2_opens hm _ ioBuf, fun g hg hfree =>
      fileInstall_opens hm hg hfree rfl d filename _ ioBuf⟩

/-! ## The system calls -/

theorem Opened.mono {h' : Ptr → Nat} {o : Option (Nat × Ptr)} {r : Int} (ho : Opened s t h' o r)
    (hle : ∀ p, h p ≤ h' p) : Opened s t h o r :=
  ⟨ho.next, ho.rootDir, ho.stays.mono hle, ho.entry, ho.free, ho.fds⟩

theorem bumpOpt_bump (h : Ptr → Nat) (o : Option (Nat × Ptr)) (p : Ptr) :
    bumpOpt (bump h p) o = bump (bumpOpt h o) p := by
  cases o with
  | none => rfl
  | some o => exact bump_comm h p o.2

def OpensFile (s : State) (h : Ptr → Nat) (r : Int) (t : State) : Prop :=
  ∃ o, Opened s t h o r ∧ Counted t (bumpOpt h o)

theorem closeAndFail_opensFile {d : DirPtr} (hd : Held s h d) :
    Ensures (closeAndFail d) s (OpensFile s h) := by
  refine (closeAndFail_counted hd).call fun r t ht => ?_
  obtain ⟨hr, hc, hk⟩ := ht
  rw [hr]
  exact ⟨none, hk.opened, hc⟩

/-- A file is created in a directory that is then closed. -/
theorem createAndClose_opensFile {d : DirPtr} (hd : Held s h d) (filename : Str) (flag : UInt8) :
    Ensures (do
      let fd ← fileCreate d filename flag
      dirClose d
      pure fd) s (OpensFile s h) := by
  rw [Ensures, Wp.bind]
  have hclose : ∀ (r : Int) (t : State) (o : Option (Nat × Ptr)), Opened s t h o r →
      Held t (bumpOpt h o) d →
      Ensures (do
        dirClose d
        pure r) t (OpensFile s h) := by
    intro r t o ho hd'
    rw [Ensures, Wp.bind]
    refine (dirClose_counted hd').call fun _ u hu => ?_
    exact ⟨o, ho.trans_keeps hu.2, hu.1⟩
  cases d with
  | root =>
      refine (fileCreate_opens hd .root filename flag).call fun r t ht => ?_
      obtain ⟨⟨o, ho, hc⟩, -⟩ := ht
      exact hclose r t o ho hc
  | heap q =>
      obtain ⟨v, p, hv, hp, hc⟩ := hd
      refine (fileCreate_opens hc (.heap q) filename flag).call fun r t ht => ?_
      obtain ⟨⟨o, ho, hc'⟩, hdirs⟩ := ht
      refine hclose r t o (ho.mono (le_bump h p)) ⟨v, p, by rw [hdirs, hv], hp, ?_⟩
      rwa [bumpOpt_bump] at hc'

theorem openFound_opensFile {r : SearchRecord} (hd : Held s h r.parentDir) (pathname : Str)
    (flags : UInt8) (depth : Nat) (inodeNo : UInt32) :
    Ensures (openFound pathname flags depth inodeNo r) s (OpensFile s h) := by
  unfold openFound
  rw [Ensures, Wp.ite]
  refine ⟨fun _ => closeAndFail_opensFile hd, fun _ => ?_⟩
  rw [Wp.bind]
  refine (Within.lift (R := Quiet) _ s).call fun n t ht => ?_
  have hd' := hd.quiet ht
  have hback : ∀ {α : Type} {x : Kern Int}, Ensures x t (OpensFile t h) →
      Ensures x t (OpensFile s h) := by
    intro _ x hx
    refine hx.call fun r u hu => ?_
    obtain ⟨o, ho, hc⟩ := hu
    exact ⟨o, (ht.keeps h).trans_opened ho, hc⟩
  rw [Wp.ite, Wp.ite, Wp.ite, Wp.ite]
  refine ⟨fun _ => ?_, fun _ => ⟨fun _ => ?_, fun _ => ⟨fun _ => ?_, fun _ => ⟨fun _ => ?_,
    fun _ => ?_⟩⟩⟩⟩
  · exact hback (α := Int) (closeAndFail_opensFile hd')
  · exact hback (α := Int) (closeAndFail_opensFile hd')
  · exact hback (α := Int) (closeAndFail_opensFile hd')
  · rw [Wp.bind]
    refine (Within.lift (R := Quiet) _ t).call fun filename u hu => ?_
    refine (createAndClose_opensFile (hd'.quiet hu) filename flags).call fun r v hv => ?_
    obtain ⟨o, ho, hc⟩ := hv
    exact ⟨o, ((ht.keeps h).trans (hu.keeps h)).trans_opened ho, hc⟩
  · exact hback (α := Int) (fileOpen_opened hd'.counted inodeNo flags)

theorem sysOpen_opensFile (hs : Counted s h) (pathname : Str) (flags : UInt8) :
    Ensures (sysOpen pathname flags) s (OpensFile s h) := by
  unfold sysOpen
  cases pathname.getLast? with
  | none => exact True.intro
  | some c =>
      show Wp (if c = slash then _ else _) s _ _
      rw [Wp.ite]
      refine ⟨fun _ => ⟨none, (Keeps.refl s h).opened, hs⟩, fun _ => ?_⟩
      rw [Wp.bind]
      refine (kassert_quiet _ s).call fun _ s₁ h₁ => ?_
      rw [Wp.bind]
      refine (Within.lift (R := Quiet) _ s₁).call fun depth s₂ h₂ => ?_
      have hq := trans_of Quiet h₁ h₂
      rw [Wp.bind]
      refine (searchFile_held (hs.quiet hq) (parsedPath pathname)).call fun r s₃ h₃ => ?_
      refine (openFound_opensFile h₃.1 (parsedPath pathname) flags depth r.1).call fun r t ht => ?_
      obtain ⟨o, ho, hc⟩ := ht
      exact ⟨o, ((hq.keeps h).trans h₃.2).trans_opened ho, hc⟩

/-- How `sys_close` changes the tables when it closes entry `g`. -/
structure Closed (s t : State) (h : Ptr → Nat) (fd : Int) (g : Nat) : Prop where
  next : s.next ≤ t.next
  rootDir : t.rootDir = s.rootDir
  stays : Stays s t h
  counted : Counted t h
  small : fd < 8
  entry : s.cur.fdTable fd.toNat = g
  fileTable : t.fileTable = (s.clearEntry g).fileTable
  cur : t.cur =
    { s.cur with fdTable := fun k => if k = fd.toNat then -1 else s.cur.fdTable k }

theorem fileClose_counted {g : Nat} (hs : ∀ p, s.OpenOn g p → Counted s (bump h p)) :
    Ensures (fileClose g) s (fun _ t => Counted t h ∧ s.next ≤ t.next ∧ t.rootDir = s.rootDir ∧
      Stays s t h ∧ t.cur = s.cur ∧ t.fileTable = (s.clearEntry g).fileTable) := by
  refine fileClose_open fun p i hp hi => ?_
  have hp' : (s.fileTable g).fdInode = some p := hp
  unfold fileClose
  rw [Ensures, Wp.bind, Wp.get, hp']
  simp only [Wp.bind]
  rw [wp_loadInode_some hi, wp_storeInode_some hi]
  have hput : Counted (s.putInode p (some { i with writeDeny := 0 })) (bump h p) :=
    (hs p hp).putInode hi (Nat.le_refl _)
  refine (inodeClose_counted hput (State.putInode_same ..)).call fun _ t ht => ?_
  obtain ⟨hc, hk, -⟩ := ht
  refine ⟨hc.congr rfl (Nat.le_refl _), hk.next, hk.rootDir, ?_, hk.cur, ?_⟩
  · exact Stays.trans (stays_putInode (j := { i with writeDeny := 0 }) hi rfl) hk.stays
  · show (fun k => if k = g then { t.fileTable g with fdInode := none } else t.fileTable k) = _
    rw [hk.fileTable]
    rfl

theorem sysClose_closed {fd : Int}
    (hs : ∀ p, s.OpenOn (s.cur.fdTable fd.toNat).toNat p → Counted s (bump h p)) :
    Ensures (sysClose fd) s (fun _ t => (fd ≤ 2 ∧ t = s) ∨
      3 ≤ fd ∧ ∃ g, Closed s t h fd g) := by
  unfold sysClose
  rw [Ensures, Wp.ite]
  refine ⟨fun hfd => ?_, fun hfd => Or.inl ⟨by omega, rfl⟩⟩
  have hmax : maxFilesOpenPerProc = 8 := rfl
  unfold fdLocal2global
  rw [Wp.bind, Wp.bind, Wp.get, Wp.ite]
  refine ⟨fun hlt => ?_, fun _ => True.intro⟩
  rw [Wp.bind, wp_kassert]
  refine ⟨fun hrange => ?_, fun _ => True.intro⟩
  rw [Wp.pure, Wp.bind]
  refine (fileClose_counted hs).call fun r t ht => ?_
  obtain ⟨hc, hnext, hroot, hstays, hcur, htable⟩ := ht
  refine Or.inr ⟨by omega, _, hnext, hroot, hstays, hc.congr rfl (Nat.le_refl _), by omega,
    (Int.toNat_of_nonneg hrange.1).symm, htable, ?_⟩
  show ({ t.cur with fdTable := _ } : Task) = _
  rw [hcur]

end

end OsTruth
