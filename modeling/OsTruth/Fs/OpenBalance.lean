/-
Open counts, exactly.

`Fs/OpenCounts.lean` bounds the count of an inode from below.  Here the count is the number of
its references: the entries of `file_table`, the directories that are open, and `root_dir`.
`Tallied s h` says that `h` is the count of every inode; `Balanced s open` says that the counts
are the references when `open` are the directories that are open.  A function that opens and
closes keeps the balance up to the directories that it hands over.
-/
import OsTruth.Fs.DirCalls

namespace OsTruth

open ByteString Fallible

/-! ## Counting references -/

/-- `i_open_cnts` of the inode at `p`, and 0 when it is not on `open_inodes`. -/
def State.openCnts (s : State) (p : Ptr) : Nat :=
  if p ∈ s.part.openInodes then (s.inodes p).elim 0 fun i => i.iOpenCnts else 0

/-- The references to the inode at `p`, with the open directories `handles`. -/
def State.refsTo (s : State) (handles : List Ptr) (p : Ptr) : Nat :=
  s.holders p + handles.countP (fun q => decide (s.inodeOf (.heap q) = some p)) +
    if s.rootDir.inode = some p then 1 else 0

/-- The open directories with `d`, which is no block when it is `root_dir`. -/
def DirPtr.opened (handles : List Ptr) : DirPtr → List Ptr
  | .root => handles
  | .heap q => q :: handles

/-- `h` is the count of every inode. -/
structure Tallied (s : State) (h : Ptr → Nat) : Prop where
  old : ∀ p i, s.inodes p = some i → p.id < s.next
  listed : ∀ p, p ∈ s.part.openInodes → ∃ i, s.inodes p = some i ∧ i.iOpenCnts = h p
  unlisted : ∀ p, p ∉ s.part.openInodes → h p = 0
  nodup : s.part.openInodes.Nodup

/-- The state has the same references. -/
structure SameRefs (s t : State) : Prop where
  fileTable : t.fileTable = s.fileTable
  dirs : t.dirs = s.dirs
  rootDir : t.rootDir = s.rootDir
  next : s.next ≤ t.next

/-- The counts are the references, and `handles` are the directories in memory. -/
structure Balanced (s : State) (handles : List Ptr) : Prop where
  tallied : Tallied s (s.refsTo handles)
  nodup : handles.Nodup
  mem : ∀ q, q ∈ handles ↔ (s.dirs q).isSome
  old : ∀ q, q ∈ handles → q.id < s.next

section

variable {s t u : State} {h h' : Ptr → Nat} {p q : Ptr} {handles : List Ptr} {d : DirPtr}

/-! ## Tallies -/

theorem Tallied.openCnts (hs : Tallied s h) (p : Ptr) : s.openCnts p = h p := by
  unfold State.openCnts
  by_cases hp : p ∈ s.part.openInodes
  · obtain ⟨i, hi, hcnt⟩ := hs.listed p hp
    rw [if_pos hp, hi, Option.elim_some, hcnt]
  · rw [if_neg hp, hs.unlisted p hp]

theorem Tallied.congr (hs : Tallied s h) (hinodes : t.inodes = s.inodes)
    (hopen : t.part.openInodes = s.part.openInodes) (hnext : s.next ≤ t.next) : Tallied t h where
  old p i hi := by
    rw [hinodes] at hi
    exact Nat.lt_of_lt_of_le (hs.old p i hi) hnext
  listed := by
    rw [hinodes, hopen]
    exact hs.listed
  unlisted := by
    rw [hopen]
    exact hs.unlisted
  nodup := by
    rw [hopen]
    exact hs.nodup

theorem Tallied.quiet (hs : Tallied s h) (hq : Quiet s t) : Tallied t h where
  old p j hj := by
    cases hi : s.inodes p with
    | none =>
        rw [hq.of_none hi] at hj
        cases hj
    | some i => exact Nat.lt_of_lt_of_le (hs.old p i hi) hq.next
  listed p hp := by
    rw [hq.openInodes] at hp
    obtain ⟨i, hi, hcnt⟩ := hs.listed p hp
    obtain ⟨j, hj, hhead⟩ := hq.of_inodes hi
    simp only [Inode.head, Prod.mk.injEq] at hhead
    exact ⟨j, hj, hhead.2.1.trans hcnt⟩
  unlisted p hp := by
    rw [hq.openInodes] at hp
    exact hs.unlisted p hp
  nodup := by
    rw [hq.openInodes]
    exact hs.nodup

/-- An inode on the list changes, and its count with it. -/
theorem Tallied.put {i j : Inode} (hs : Tallied s h) (hi : s.inodes p = some i)
    (hp : p ∈ s.part.openInodes) (hother : ∀ q, q ≠ p → h' q = h q) (hself : j.iOpenCnts = h' p) :
    Tallied (s.putInode p (some j)) h' where
  old q k hk := by
    by_cases hq : q = p
    · rw [hq]
      exact hs.old p i hi
    · exact hs.old q k ((State.putInode_other _ _ hq).symm.trans hk)
  listed q hq := by
    by_cases hqp : q = p
    · rw [hqp]
      exact ⟨j, State.putInode_same .., hself⟩
    · obtain ⟨k, hk, hcnt⟩ := hs.listed q hq
      exact ⟨k, (State.putInode_other _ _ hqp).trans hk, hcnt.trans (hother q hqp).symm⟩
  unlisted q hq := by
    have hqp : q ≠ p := fun heq => hq (heq ▸ hp)
    rw [hother q hqp]
    exact hs.unlisted q hq
  nodup := hs.nodup

/-- An inode that is not on the list comes, changes or goes. -/
theorem Tallied.putOff (hs : Tallied s h) (hp : p ∉ s.part.openInodes) (hold : p.id < s.next)
    (o : Option Inode) : Tallied (s.putInode p o) h where
  old q k hk := by
    by_cases hq : q = p
    · rw [hq]
      exact hold
    · exact hs.old q k ((State.putInode_other _ _ hq).symm.trans hk)
  listed q hq := by
    have hqp : q ≠ p := fun heq => hp (heq ▸ hq)
    obtain ⟨k, hk, hcnt⟩ := hs.listed q hq
    exact ⟨k, (State.putInode_other _ _ hqp).trans hk, hcnt⟩
  unlisted := hs.unlisted
  nodup := hs.nodup

/-- An inode changes, but not its count. -/
theorem Tallied.update {i j : Inode} (hs : Tallied s h) (hi : s.inodes p = some i)
    (hcnt : j.iOpenCnts = i.iOpenCnts) : Tallied (s.putInode p (some j)) h := by
  by_cases hp : p ∈ s.part.openInodes
  · obtain ⟨k, hk, hkcnt⟩ := hs.listed p hp
    rw [hi, Option.some.injEq] at hk
    refine hs.put hi hp (fun _ _ => rfl) ?_
    rw [hcnt, hk, hkcnt]
  · exact hs.putOff hp (hs.old p i hi) _

/-- A new inode is linked with its first reference. -/
theorem Tallied.push {i j : Inode} (hs : Tallied s h) (hi : s.inodes p = some i)
    (hp : p ∉ s.part.openInodes) (hj : j.iOpenCnts = 1) :
    Tallied ((s.pushOpen p).putInode p (some j)) (bump h p) where
  old q k hk := by
    by_cases hq : q = p
    · rw [hq]
      exact hs.old p i hi
    · exact hs.old q k ((State.putInode_other (s.pushOpen p) _ hq).symm.trans hk)
  listed q hq := by
    by_cases hqp : q = p
    · rw [hqp, bump_self, hs.unlisted p hp]
      exact ⟨j, State.putInode_same .., hj⟩
    · rw [bump_other h hqp]
      obtain ⟨k, hk, hcnt⟩ := hs.listed q ((List.mem_cons.mp hq).resolve_left hqp)
      exact ⟨k, (State.putInode_other (s.pushOpen p) _ hqp).trans hk, hcnt⟩
  unlisted q hq := by
    have hqp : q ≠ p := fun heq => hq (heq ▸ List.mem_cons_self)
    rw [bump_other h hqp]
    exact hs.unlisted q fun hmem => hq (List.mem_cons_of_mem p hmem)
  nodup := List.nodup_cons.mpr ⟨hp, hs.nodup⟩

/-- The last reference goes, and the inode with it. -/
theorem Tallied.remove (hs : Tallied s (bump h p)) (hzero : h p = 0) : Tallied (s.dropped p) h where
  old q i hi := by
    by_cases hq : q = p
    · exact absurd ((if_pos hq).symm.trans hi) (by simp)
    · exact hs.old q i ((if_neg hq).symm.trans hi)
  listed q hq := by
    obtain ⟨hqp, hmem⟩ := (List.Nodup.mem_erase_iff hs.nodup).mp hq
    obtain ⟨i, hi, hcnt⟩ := hs.listed q hmem
    exact ⟨i, (if_neg hqp).trans hi, hcnt.trans (bump_other h hqp)⟩
  unlisted q hq := by
    by_cases hqp : q = p
    · rw [hqp, hzero]
    · rw [← bump_other h hqp]
      exact hs.unlisted q fun hmem => hq ((List.Nodup.mem_erase_iff hs.nodup).mpr ⟨hqp, hmem⟩)
  nodup := hs.nodup.erase p

/-! ## References -/

theorem SameRefs.trans (hst : SameRefs s t) (htu : SameRefs t u) : SameRefs s u :=
  ⟨htu.fileTable.trans hst.fileTable, htu.dirs.trans hst.dirs, htu.rootDir.trans hst.rootDir,
    Nat.le_trans hst.next htu.next⟩

theorem Quiet.sameRefs (hq : Quiet s t) : SameRefs s t :=
  ⟨hq.fileTable, hq.dirs, hq.rootDir, hq.next⟩

theorem holders_congr (hfile : t.fileTable = s.fileTable) (p : Ptr) : t.holders p = s.holders p := by
  refine List.countP_congr fun g _ => ?_
  rw [decide_eq_true_iff, decide_eq_true_iff]
  unfold State.OpenOn
  rw [hfile]

theorem refsTo_congr (hfile : t.fileTable = s.fileTable) (hroot : t.rootDir = s.rootDir)
    (hdirs : ∀ q, q ∈ handles → t.dirs q = s.dirs q) : t.refsTo handles = s.refsTo handles := by
  funext p
  unfold State.refsTo
  have hcount : handles.countP (fun q => decide (t.inodeOf (.heap q) = some p)) =
      handles.countP fun q => decide (s.inodeOf (.heap q) = some p) := by
    refine List.countP_congr fun q hq => ?_
    have hinode : t.inodeOf (.heap q) = s.inodeOf (.heap q) := by
      show (t.dirs q).bind _ = (s.dirs q).bind _
      rw [hdirs q hq]
    rw [hinode]
  rw [holders_congr hfile, hroot, hcount]

theorem SameRefs.refsTo (hst : SameRefs s t) (handles : List Ptr) :
    t.refsTo handles = s.refsTo handles :=
  refsTo_congr hst.fileTable hst.rootDir fun q _ => by rw [hst.dirs]

/-- A directory that is open is one reference. -/
theorem refsTo_cons (hq : s.inodeOf (.heap q) = some p) (handles : List Ptr) :
    s.refsTo (q :: handles) = bump (s.refsTo handles) p := by
  funext r
  unfold State.refsTo
  rw [List.countP_cons, hq]
  by_cases hr : r = p
  · rw [hr, bump_self]
    simp only [decide_true, if_true]
    omega
  · have hpr : ¬some p = some r := fun heq => hr (Option.some.inj heq).symm
    rw [bump_other _ hr]
    simp only [hpr, decide_false, Bool.false_eq_true, if_false, Nat.add_zero]

theorem refsTo_perm {handles' : List Ptr} (h : handles.Perm handles') :
    s.refsTo handles = s.refsTo handles' := by
  funext p
  unfold State.refsTo
  rw [h.countP_eq]

theorem holders_setFile {g : Nat} {f : File} (hg : g < maxFileOpen)
    (hfree : (s.fileTable g).fdInode = none) (hf : f.fdInode = some p) :
    (s.setFile g f).holders = bump s.holders p := by
  have hrest : ∀ r k, k ≠ g → ((s.setFile g f).OpenOn k r ↔ s.OpenOn k r) := by
    intro r k hk
    unfold State.OpenOn
    rw [State.setFile_fileTable_other _ _ hk]
  funext r
  by_cases hr : r = p
  · have hnew : (s.setFile g f).OpenOn g p := by
      unfold State.OpenOn
      rw [State.setFile_fileTable_same, hf]
    have hold : ¬s.OpenOn g p := by
      unfold State.OpenOn
      simp [hfree]
    rw [hr, bump_self]
    exact holders_insert hg hnew hold (hrest p)
  · rw [bump_other _ hr]
    refine List.countP_congr fun k _ => ?_
    rw [decide_eq_true_iff, decide_eq_true_iff]
    by_cases hk : k = g
    · have hpr : some p ≠ some r := fun heq => hr (Option.some.inj heq).symm
      unfold State.OpenOn
      rw [hk, State.setFile_fileTable_same, hf, hfree]
      simp [hpr]
    · exact hrest r k hk

/-- An entry that is filled in is one reference. -/
theorem refsTo_setFile {g : Nat} {f : File} (hg : g < maxFileOpen)
    (hfree : (s.fileTable g).fdInode = none) (hf : f.fdInode = some p) (handles : List Ptr) :
    (s.setFile g f).refsTo handles = bump (s.refsTo handles) p := by
  have hinode : (s.setFile g f).inodeOf = s.inodeOf := rfl
  have hroot : (s.setFile g f).rootDir = s.rootDir := rfl
  funext r
  unfold State.refsTo
  rw [holders_setFile hg hfree hf, hinode, hroot]
  by_cases hr : r = p
  · rw [hr, bump_self, bump_self]
    omega
  · rw [bump_other _ hr, bump_other _ hr]

/-- An entry that is cleared was one reference. -/
theorem refsTo_clearEntry {g : Nat} (hg : g < maxFileOpen) (hp : s.OpenOn g p)
    (handles : List Ptr) : s.refsTo handles = bump ((s.clearEntry g).refsTo handles) p := by
  have hback : (s.clearEntry g).setFile g (s.fileTable g) = s := by
    unfold State.clearEntry State.setFile
    congr 1
    funext k
    by_cases hk : k = g
    · rw [if_pos hk, hk]
    · rw [if_neg hk]
      exact if_neg hk
  have hfree : ((s.clearEntry g).fileTable g).fdInode = none := by
    unfold State.clearEntry
    rw [State.setFile_fileTable_same]
  rw [← refsTo_setFile hg hfree hp, hback]

/-! ## Opening and closing inodes -/

/-- `inode_open` takes one reference. -/
theorem inodeOpen_tallied (hs : Tallied s h) (n : UInt32) :
    Ensures (inodeOpen n) s fun p t => Tallied t (bump h p) ∧ SameRefs s t := by
  refine wp_inodeOpen.mpr ⟨fun p i hfirst hi => ?_, fun _ => ?_, fun _ _ => True.intro⟩
  · obtain ⟨hp, -⟩ := firstOpen_some hfirst
    obtain ⟨i', hi', hcnt⟩ := hs.listed p hp
    rw [hi, Option.some.injEq] at hi'
    refine ⟨hs.put hi hp (fun q hq => bump_other h hq) ?_, ⟨rfl, rfl, rfl, Nat.le_refl _⟩⟩
    show i.iOpenCnts + 1 = bump h p p
    rw [bump_self, hi', hcnt]
  · -- the inode is read into a block that is not on the list
    have hnew : (⟨false, s.next⟩ : Ptr) ∉ s.part.openInodes := by
      intro hmem
      obtain ⟨i, hi, -⟩ := hs.listed _ hmem
      exact Nat.lt_irrefl _ (hs.old _ i hi)
    have hwide : Tallied { s with next := s.next + 2 } h :=
      hs.congr rfl rfl (Nat.le_add_right _ 2)
    have hput := hwide.putOff hnew (show s.next < s.next + 2 by omega)
      (some { readSlot s.part s.disk n with iOpenCnts := 1 })
    have hpush := hput.push (State.putInode_same ..) hnew
      (j := { readSlot s.part s.disk n with iOpenCnts := 1 }) rfl
    have hloaded : Tallied (s.loaded n) (bump h ⟨false, s.next⟩) := by
      refine hpush.congr ?_ rfl (Nat.le_refl _)
      funext q
      show (if q = ⟨false, s.next⟩ then _ else s.inodes q) =
        if q = ⟨false, s.next⟩ then _ else if q = ⟨false, s.next⟩ then _ else s.inodes q
      by_cases hq : q = ⟨false, s.next⟩
      · rw [if_pos hq, if_pos hq]
      · rw [if_neg hq, if_neg hq]
    refine wp_inodeRead.mpr ⟨fun _ => ⟨fun _ => ⟨fun _ => ⟨fun _ => ?_, ?_⟩, ?_⟩, ?_⟩, ?_⟩
    · exact ⟨hloaded, ⟨rfl, rfl, rfl, Nat.le_add_right _ 2⟩⟩
    all_goals exact fun _ => True.intro

/-- `inode_close` gives one reference back. -/
theorem inodeClose_tallied (hs : Tallied s (bump h p)) :
    Ensures (inodeClose p) s fun _ t => Tallied t h ∧ SameRefs s t := by
  have hp : p ∈ s.part.openInodes := by
    by_contra hnot
    have hzero := hs.unlisted p hnot
    rw [bump_self] at hzero
    exact Nat.succ_ne_zero _ hzero
  obtain ⟨i, hi, hcnt⟩ := hs.listed p hp
  rw [bump_self] at hcnt
  refine (wp_inodeClose hi).mpr ⟨fun _ => ?_, fun hone => ⟨fun _ => ?_, fun _ => True.intro⟩⟩
  · refine ⟨hs.put hi hp (fun q hq => (bump_other h hq).symm) ?_, ⟨rfl, rfl, rfl, Nat.le_refl _⟩⟩
    show decOpenCnts i.iOpenCnts = h p
    rw [hcnt]
    exact if_neg (Nat.succ_ne_zero _)
  · exact ⟨hs.remove (by omega), ⟨rfl, rfl, rfl, Nat.le_refl _⟩⟩

/-! ## Balance -/

/-- The directories stay, and the counts are again the references. -/
theorem Balanced.retally (hb : Balanced s handles) (hdirs : t.dirs = s.dirs) (hnext : s.next ≤ t.next)
    (ht : Tallied t (t.refsTo handles)) : Balanced t handles where
  tallied := ht
  nodup := hb.nodup
  mem q := by
    rw [hdirs]
    exact hb.mem q
  old q hq := Nat.lt_of_lt_of_le (hb.old q hq) hnext

theorem Balanced.same (hb : Balanced s handles) (hst : SameRefs s t)
    (ht : Tallied t (s.refsTo handles)) : Balanced t handles := by
  refine hb.retally hst.dirs hst.next ?_
  rw [hst.refsTo]
  exact ht

theorem Balanced.congr (hb : Balanced s handles) (hst : SameRefs s t)
    (hinodes : t.inodes = s.inodes) (hopen : t.part.openInodes = s.part.openInodes) :
    Balanced t handles :=
  hb.same hst (hb.tallied.congr hinodes hopen hst.next)

theorem Balanced.quiet (hb : Balanced s handles) (hq : Quiet s t) : Balanced t handles :=
  hb.same hq.sameRefs (hb.tallied.quiet hq)

theorem Balanced.update {i j : Inode} (hb : Balanced s handles) (hi : s.inodes p = some i)
    (hcnt : j.iOpenCnts = i.iOpenCnts) : Balanced (s.putInode p (some j)) handles :=
  hb.same ⟨rfl, rfl, rfl, Nat.le_refl _⟩ (hb.tallied.update hi hcnt)

theorem Balanced.putOff (hb : Balanced s handles) (hp : p ∉ s.part.openInodes)
    (hold : p.id < s.next) (o : Option Inode) : Balanced (s.putInode p o) handles :=
  hb.same (t := s.putInode p o) ⟨rfl, rfl, rfl, Nat.le_refl _⟩ (hb.tallied.putOff hp hold o)

theorem Balanced.setInodeBitmap (hb : Balanced s handles) (b : Bitmap) :
    Balanced (s.setInodeBitmap b) handles :=
  hb.congr ⟨rfl, rfl, rfl, Nat.le_refl _⟩ rfl rfl

theorem Balanced.perm {handles' : List Ptr} (hb : Balanced s handles)
    (h : handles.Perm handles') : Balanced s handles' where
  tallied := by
    rw [← refsTo_perm h]
    exact hb.tallied
  nodup := h.nodup_iff.mp hb.nodup
  mem q := h.mem_iff.symm.trans (hb.mem q)
  old q hq := hb.old q (h.mem_iff.mpr hq)

/-- A quiet part of a call comes first. -/
theorem Balanced.bind {α β : Type} {x : Kern α} {f : α → Kern β} {Q : β → State → Prop}
    (hb : Balanced s handles) (hx : Within Quiet x)
    (hf : ∀ a t, Balanced t handles → Ensures (f a) t Q) : Ensures (x >>= f) s Q := by
  rw [Ensures, Wp.bind]
  exact (hx s).call fun a t ht => hf a t (hb.quiet ht)

/-! ## Directories -/

theorem dirOpen_balanced (hb : Balanced s handles) (n : UInt32) :
    Ensures (dirOpen n) s fun d t => Balanced t (d.opened handles) := by
  refine wp_dirOpen.mpr ⟨fun _ => ?_, fun _ => ?_⟩
  · have hnew : Tallied s.newDir (s.refsTo handles) :=
      hb.tallied.congr rfl rfl (Nat.le_succ s.next)
    refine (inodeOpen_tallied hnew n).call fun p t ht => ?_
    obtain ⟨htally, hsame⟩ := ht
    have hfresh : s.fresh ∉ handles := fun hmem => Nat.lt_irrefl _ (hb.old _ hmem)
    have hfile : (t.setDir s.fresh p).fileTable = s.fileTable := hsame.fileTable
    have hroot : (t.setDir s.fresh p).rootDir = s.rootDir := hsame.rootDir
    have hother : ∀ q, q ≠ s.fresh → (t.setDir s.fresh p).dirs q = s.dirs q := by
      intro q hq
      refine (if_neg hq).trans ?_
      rw [hsame.dirs]
      exact if_neg hq
    have hself : (t.setDir s.fresh p).dirs s.fresh = some { Dir.zero with inode := some p } :=
      if_pos rfl
    have hinode : (t.setDir s.fresh p).inodeOf (.heap s.fresh) = some p := by
      simp [State.inodeOf, hself]
    have hrefs : (t.setDir s.fresh p).refsTo handles = s.refsTo handles :=
      refsTo_congr hfile hroot fun q hq => hother q fun heq => hfresh (heq ▸ hq)
    refine ⟨?_, List.nodup_cons.mpr ⟨hfresh, hb.nodup⟩, fun q => ?_, fun q hq => ?_⟩
    · rw [DirPtr.opened, refsTo_cons hinode, hrefs]
      exact htally.congr rfl rfl (Nat.le_refl _)
    · rw [DirPtr.opened, List.mem_cons]
      by_cases hq : q = s.fresh
      · rw [hq, hself]
        simp
      · rw [hother q hq, ← hb.mem q]
        simp [hq]
    · show q.id < t.next
      refine Nat.lt_of_lt_of_le ?_ hsame.next
      rcases List.mem_cons.mp hq with hq | hq
      · rw [hq]
        exact Nat.lt_succ_self _
      · exact Nat.lt_succ_of_lt (hb.old q hq)
  · exact Wp.mono Fallible.Wp.trivial (fun _ _ => True.intro) fun _ _ _ => True.intro

theorem dirClose_balanced (hb : Balanced s (d.opened handles)) :
    Ensures (dirClose d) s fun _ t => Balanced t handles := by
  cases d with
  | root => exact hb
  | heap q =>
      have hsome := (hb.mem q).mp List.mem_cons_self
      obtain ⟨hfresh, hnodup⟩ := List.nodup_cons.mp hb.nodup
      cases hr : s.dirs q with
      | none =>
          rw [hr] at hsome
          cases hsome
      | some r =>
          cases hp : r.inode with
          | none =>
              unfold dirClose
              rw [Ensures, Wp.bind, wp_dirInode]
              refine ⟨fun p hp' => ?_, fun _ => True.intro⟩
              simp [State.inodeOf, hr, hp] at hp'
          | some p =>
              have hinode : s.inodeOf (.heap q) = some p := by
                simp [State.inodeOf, hr, hp]
              have htally : Tallied s (bump (s.refsTo handles) p) := by
                rw [← refsTo_cons hinode]
                exact hb.tallied
              refine (wp_dirClose_heap hr hp).mpr ((inodeClose_tallied htally).call fun _ t ht => ?_)
              obtain ⟨htally', hsame⟩ := ht
              refine (sysFreeDir_keeps q).call fun _ u hu => ?_
              have hother : ∀ q', q' ≠ q → (t.putDir q none).dirs q' = s.dirs q' := by
                intro q' hq'
                refine (if_neg hq').trans ?_
                rw [hsame.dirs]
              rw [hu]
              refine ⟨?_, hnodup, fun q' => ?_, fun q' hq' => ?_⟩
              · have hrefs : (t.putDir q none).refsTo handles = s.refsTo handles :=
                  refsTo_congr hsame.fileTable hsame.rootDir fun q' hq' =>
                    hother q' fun heq => hfresh (heq ▸ hq')
                rw [hrefs]
                exact htally'.congr rfl rfl (Nat.le_refl _)
              · by_cases hq' : q' = q
                · have hgone : (t.putDir q none).dirs q = none := if_pos rfl
                  rw [hq', hgone]
                  simp [hfresh]
                · rw [hother q' hq', ← hb.mem q', DirPtr.opened, List.mem_cons]
                  simp [hq']
              · exact Nat.lt_of_lt_of_le (hb.old q' (List.mem_cons_of_mem q hq')) hsame.next

theorem searchRule_balanced (handles : List Ptr) :
    SearchRule (fun t d => Balanced t (d.opened handles)) (fun t => Balanced t handles) where
  root _ ht := ht
  reads t u _ ht hr := ht.quiet (hr.quiet t u)
  opens _ n ht := dirOpen_balanced ht n
  closes _ _ ht := dirClose_balanced ht

/-- `search_file` hands one directory over. -/
theorem searchFile_balanced (hb : Balanced s handles) (path : Str) :
    Ensures (searchFile path) s fun r t => Balanced t (r.2.parentDir.opened handles) :=
  (searchRule_balanced handles).searchFile hb path

theorem closeAndFail_balanced (hb : Balanced s (d.opened handles)) :
    Ensures (closeAndFail d) s fun _ t => Balanced t handles := by
  unfold closeAndFail
  rw [Ensures, Wp.bind]
  exact (dirClose_balanced hb).call fun _ _ ht => ht

/-! ## Files -/

theorem pcbFdInstall_balanced (hb : Balanced s handles) (v : Int) :
    Ensures (pcbFdInstall v) s fun _ t => Balanced t handles :=
  wp_pcbFdInstall hb fun _ _ _ _ => hb.congr ⟨rfl, rfl, rfl, Nat.le_refl _⟩ rfl rfl

theorem fileOpen_balanced (hb : Balanced s handles) (n : UInt32) (flag : UInt8) :
    Ensures (fileOpen n flag) s fun _ t => Balanced t handles := by
  unfold fileOpen fileOpenAt
  rw [Ensures, Wp.bind]
  refine ensures_getFreeSlot ?_ fun g _ hg hfree => ?_
  · rw [if_pos rfl, Wp.pure]
    exact hb
  · rw [if_neg (by omega), Wp.bind]
    refine (inodeOpen_tallied hb.tallied n).call fun p u hu => ?_
    obtain ⟨htally, hsame⟩ := hu
    have hopen : Balanced (u.setFile g ⟨0, flag.toUInt32, some p⟩) handles := by
      refine hb.retally hsame.dirs hsame.next ?_
      have hfree' : (u.fileTable g).fdInode = none := by
        rw [hsame.fileTable]
        exact hfree
      rw [refsTo_setFile hg hfree' rfl, hsame.refsTo]
      exact htally.congr rfl rfl (Nat.le_refl _)
    rw [Wp.bind, Wp.modify, Int.toNat_natCast, Wp.ite]
    refine ⟨fun _ => ?_, fun _ => pcbFdInstall_balanced hopen _⟩
    rw [Wp.bind, wp_loadInode]
    refine ⟨fun i hi => ?_, fun _ => True.intro⟩
    rw [Wp.ite]
    refine ⟨fun _ => ?_, fun _ => hopen⟩
    rw [Wp.bind, wp_storeInode_some hi]
    exact pcbFdInstall_balanced (hopen.update (j := { i with writeDeny := 1 }) hi rfl) _

theorem fileClose_balanced {g : Nat} (hb : Balanced s handles) (hg : g < maxFileOpen) :
    Ensures (fileClose g) s fun _ t => Balanced t handles := by
  refine fileClose_open fun p i hp hi => ?_
  have hp' : (s.fileTable g).fdInode = some p := hp
  unfold fileClose
  rw [Ensures, Wp.bind, Wp.get, hp']
  simp only [Wp.bind]
  rw [wp_loadInode_some hi, wp_storeInode_some hi]
  have htally : Tallied (s.putInode p (some { i with writeDeny := 0 }))
      (bump ((s.clearEntry g).refsTo handles) p) := by
    rw [← refsTo_clearEntry hg hp]
    exact hb.tallied.update hi rfl
  refine (inodeClose_tallied htally).call fun _ t ht => ?_
  obtain ⟨htally', hsame⟩ := ht
  refine Balanced.retally (t := t.clearEntry g) hb hsame.dirs hsame.next ?_
  have hfile : (t.clearEntry g).fileTable = (s.clearEntry g).fileTable := by
    funext k
    show (if k = g then { t.fileTable g with fdInode := none } else t.fileTable k) =
      if k = g then { s.fileTable g with fdInode := none } else s.fileTable k
    rw [hsame.fileTable]
    rfl
  rw [refsTo_congr hfile hsame.rootDir fun q _ => congrFun hsame.dirs q]
  exact htally'.congr rfl rfl (Nat.le_refl _)

/-! ## Creating a file -/

theorem createRollback1_balanced (hb : Balanced s handles) (n : UInt32) (ioBuf : Ptr) :
    Ensures (createRollback1 n ioBuf) s fun _ t => Balanced t handles := by
  unfold createRollback1
  rw [Ensures, Wp.bind, wp_inodeBitmapClear]
  refine ⟨fun _ => ?_, fun _ => True.intro⟩
  exact (hb.setInodeBitmap _).bind (sysFreeBuf_quiet ioBuf) fun _ _ ht => ht

/-- The new inode goes, which is not on the list. -/
theorem createRollback2_balanced (hb : Balanced s handles) (hp : p ∉ s.part.openInodes)
    (hold : p.id < s.next) (n : UInt32) (ioBuf : Ptr) :
    Ensures (createRollback2 p n ioBuf) s fun _ t => Balanced t handles := by
  unfold createRollback2
  rw [Ensures, Wp.bind, sysFreeInode, wp_sysFree]
  refine ⟨fun _ _ => ?_, fun _ _ => True.intro, fun _ _ => True.intro, fun _ _ => True.intro⟩
  exact createRollback1_balanced (hb.putOff hp hold none) n ioBuf

/-- The entry that was filled in is free again. -/
theorem createRollback3_balanced {g : Nat} {f : File} (hb : Balanced s handles)
    (hfree : (s.fileTable g).fdInode = none) (hq : Quiet (s.setFile g f) t)
    (hp : p ∉ s.part.openInodes) (hold : p.id < s.next) (n : UInt32) (ioBuf : Ptr) :
    Ensures (createRollback3 g p n ioBuf) t fun _ u => Balanced u handles := by
  have hzero : Balanced (s.setFile g ⟨0, 0, none⟩) handles := by
    refine hb.retally rfl (Nat.le_refl _) ?_
    have hholders : (s.setFile g ⟨0, 0, none⟩).holders = s.holders := by
      funext r
      refine List.countP_congr fun k _ => ?_
      rw [decide_eq_true_iff, decide_eq_true_iff]
      unfold State.OpenOn
      by_cases hk : k = g
      · rw [hk, State.setFile_fileTable_same, hfree]
      · rw [State.setFile_fileTable_other _ _ hk]
    have hrefs : (s.setFile g ⟨0, 0, none⟩).refsTo handles = s.refsTo handles := by
      funext r
      unfold State.refsTo
      rw [hholders]
      rfl
    rw [hrefs]
    exact hb.tallied.congr rfl rfl (Nat.le_refl _)
  have hq' : Quiet (s.setFile g ⟨0, 0, none⟩) (t.setFile g ⟨0, 0, none⟩) := hq.setFile
  unfold createRollback3
  rw [Ensures, Wp.bind, Wp.modify]
  refine createRollback2_balanced (hzero.quiet hq') ?_ ?_ n ioBuf
  · rw [hq'.openInodes]
    exact hp
  · exact Nat.lt_of_lt_of_le hold hq'.next

theorem fileInstall_balanced {g : Nat} {f : File} (hb : Balanced s handles) (hg : g < maxFileOpen)
    (hfree : (s.fileTable g).fdInode = none) (hf : f.fdInode = some p)
    (hp : p ∉ s.part.openInodes) (hold : p.id < s.next) (d : DirPtr) (filename : Str) (n : UInt32)
    (ioBuf : Ptr) :
    Ensures (fileInstall d filename p n g ioBuf) (s.setFile g f) fun _ u => Balanced u handles := by
  refine fileInstall_rule
    (fun _ _ _ hq => createRollback3_balanced hb hfree hq hp hold n ioBuf) fun t i u hq hi hu => ?_
  -- the new inode is linked, and its entry is its reference
  have htally : Tallied t (s.refsTo handles) :=
    (hb.tallied.congr (t := s.setFile g f) rfl rfl (Nat.le_refl _)).quiet hq
  have hp' : p ∉ t.part.openInodes := by
    rw [hq.openInodes]
    exact hp
  have hpush := htally.push (j := { i with iOpenCnts := 1 }) hi hp' rfl
  have hlinked : Balanced ((t.pushOpen p).putInode p (some { i with iOpenCnts := 1 })) handles := by
    refine hb.retally hq.dirs hq.next ?_
    have hrefs : ((t.pushOpen p).putInode p (some { i with iOpenCnts := 1 })).refsTo handles =
        (s.setFile g f).refsTo handles :=
      refsTo_congr hq.fileTable hq.rootDir fun q _ => congrFun hq.dirs q
    rw [hrefs, refsTo_setFile hg hfree hf]
    exact hpush
  exact pcbFdInstall_balanced (hlinked.quiet hu) _

theorem fileCreate_balanced (hb : Balanced s handles) (d : DirPtr) (filename : Str)
    (flag : UInt8) : Ensures (fileCreate d filename flag) s fun _ t => Balanced t handles := by
  refine fileCreate_rule (fun t ht => hb.quiet ht) fun t b ioBuf ht _ => ?_
  have htaken : Balanced (t.takeInodeNo b) handles := (hb.quiet ht).setInodeBitmap _
  have hfresh : (t.takeInodeNo b).fresh ∉ (t.takeInodeNo b).part.openInodes := by
    intro hmem
    obtain ⟨i, hi, -⟩ := htaken.tallied.listed _ hmem
    exact Nat.lt_irrefl _ (htaken.tallied.old _ i hi)
  have hgrant : Balanced (t.takeInodeNo b).grant handles :=
    htaken.congr ⟨rfl, rfl, rfl, Nat.le_succ _⟩ rfl rfl
  have hold : (t.takeInodeNo b).fresh.id < (t.takeInodeNo b).grant.next := Nat.lt_succ_self _
  have hnew := hgrant.putOff hfresh hold
  have hrefuse : Balanced (t.takeInodeNo b).refuse handles :=
    htaken.congr ⟨rfl, rfl, rfl, Nat.le_refl _⟩ rfl rfl
  exact ⟨htaken, createRollback1_balanced hrefuse _ ioBuf,
    createRollback2_balanced (hnew _) hfresh hold _ ioBuf, fun g hg hfree =>
      fileInstall_balanced (hnew _) hg hfree rfl hfresh hold d filename _ ioBuf⟩

end

end OsTruth
