/-
`sys_opendir`, `sys_closedir`, `sys_readdir` and `sys_rewinddir` of `fs/fs.c`.

A `struct dir*` is `none` when it is `NULL`.
-/
import OsTruth.Fs.OpenCounts

namespace OsTruth

open ByteString Fallible

/-! ## The calls -/

/-- The names that `sys_opendir` takes for the root directory: `/`, and whatever begins
with `/.`. -/
def opensRoot : Str → Prop
  | [] => False
  | [c] => c = slash
  | c :: d :: _ => c = slash ∧ d = dot

instance : DecidablePred opensRoot
  | [] => isFalse id
  | [c] => inferInstanceAs (Decidable (c = slash))
  | c :: d :: _ => inferInstanceAs (Decidable (c = slash ∧ d = dot))

/-- The part of `sys_opendir` that decides on the result. -/
def openSearched (inodeNo : UInt32) (r : SearchRecord) : Kern (Option DirPtr) :=
  if inodeNo = -1 then pure none
  else if r.fileType = .directory then do
    let d ← dirOpen inodeNo
    pure (some d)
  else pure none

def opendirFound (inodeNo : UInt32) (r : SearchRecord) : Kern (Option DirPtr) := do
  let ret ← openSearched inodeNo r
  dirClose r.parentDir
  pure ret

def sysOpendir (name : Str) : Kern (Option DirPtr) := do
  kassert (name.length < maxFileNameLen)
  if opensRoot name then pure (some .root)
  else do
    let (inodeNo, r) ← searchFile name
    opendirFound inodeNo r

def sysClosedir : Option DirPtr → Kern Int
  | none => pure (-1)
  | some dir => do
      dirClose dir
      pure 0

def sysReaddir (dir : Option DirPtr) : Kern (Option DirEntry) := do
  kassert (dir ≠ none)
  match dir with
  | none => undefined
  | some dir => dirRead dir

def sysRewinddir : Option DirPtr → Kern Unit
  | none => undefined
  | some dir => do
      let d ← loadDir dir
      storeDir dir { d with dirPos := 0 }

/-! ## Reading one entry -/

/-- What `dirRead` does between loading the `struct dir` and storing it. -/
def readEntry (i : Inode) (d : Dir) : Kern (Option DirEntry × Dir) := do
  let allBlocks ← collectBlocks i
  let entrySize ← getEntrySize
  let blockCnt := if i.sector 12 ≠ 0 then 140 else 12
  let (found, dirBuf) ← readBlocks allBlocks entrySize d.dirPos i.iSize blockCnt 0 0 d.dirBuf
  match found with
  | some e => pure (some e, { d with dirPos := d.dirPos + entrySize, dirBuf := dirBuf })
  | none => pure (none, { d with dirBuf := dirBuf })

namespace State

def dirOf (s : State) : DirPtr → Option Dir
  | .root => some s.rootDir
  | .heap q => s.dirs q

def setDirOf (s : State) : DirPtr → Dir → State
  | .root, d => { s with rootDir := d }
  | .heap q, d => s.putDir q (some d)

/-- The directories of a state: the root, and the blocks that were allocated. -/
def HasDir (s : State) : DirPtr → Prop
  | .root => True
  | .heap q => q.id < s.next

/-- What reading a directory looks at, besides the directory. -/
def medium (s : State) : Bytes × SuperBlock := (s.disk, s.part.sb)

end State

section

variable {s t : State} {F : Fault → Prop} {dir dir' : DirPtr} {d : Dir} {i j : Inode} {p : Ptr}

theorem dirOf_setDirOf : (s.setDirOf dir d).dirOf dir = some d := by
  cases dir with
  | root => rfl
  | heap q => exact if_pos rfl

theorem dirOf_setDirOf_other (h : dir' ≠ dir) : (s.setDirOf dir d).dirOf dir' = s.dirOf dir' := by
  cases dir with
  | root =>
      cases dir' with
      | root => exact absurd rfl h
      | heap q => rfl
  | heap q =>
      cases dir' with
      | root => rfl
      | heap q' => exact if_neg fun hq => h (congrArg DirPtr.heap hq)

theorem inodeOf_dirOf (hd : s.dirOf dir = some d) : s.inodeOf dir = d.inode := by
  cases dir with
  | root =>
      cases hd
      rfl
  | heap q =>
      show (s.dirs q).bind _ = _
      rw [show s.dirs q = some d from hd]
      rfl

theorem wp_loadDir {Q : Dir → State → Prop} : Wp (loadDir dir) s F Q ↔
    (∀ d, s.dirOf dir = some d → Q d s) ∧ (s.dirOf dir = none → F .undefined) := by
  cases dir with
  | root =>
      unfold loadDir
      rw [Wp.bind, Wp.get, Wp.pure]
      simp [State.dirOf]
  | heap q =>
      unfold loadDir
      rw [Wp.bind, Wp.get]
      show _ ↔ (∀ d, s.dirs q = some d → Q d s) ∧ (s.dirs q = none → F .undefined)
      cases s.dirs q with
      | none => simp [wp_undefined]
      | some e => simp [Wp.pure]

theorem wp_storeDir {Q : Unit → State → Prop} :
    Wp (storeDir dir d) s F Q ↔ Q () (s.setDirOf dir d) := by
  cases dir with
  | root => exact Iff.rfl
  | heap q => exact Iff.rfl

/-- `dir_read` of a directory that is open. -/
theorem wp_dirRead {Q : Option DirEntry → State → Prop} (hd : s.dirOf dir = some d)
    (hp : d.inode = some p) (hi : s.inodes p = some i) :
    Wp (dirRead dir) s F Q ↔
      Wp (readEntry i d) s F fun r t => Q r.1 (t.setDirOf dir r.2) := by
  have hinode := (inodeOf_dirOf hd).trans hp
  unfold dirRead readEntry
  simp only [Wp.bind, wp_dirInode_some hinode, wp_loadInode_some hi, wp_loadDir, hd,
    Option.some.injEq, forall_eq', reduceCtorEq, false_implies, and_true]
  refine iff_of_eq ?_
  congr 1
  funext allBlocks t
  congr 1
  funext entrySize t
  congr 1
  funext r t
  obtain ⟨found, dirBuf⟩ := r
  cases found with
  | none =>
      show Wp (storeDir dir { d with dirBuf := dirBuf } >>= fun _ => pure none) t F Q = _
      rw [Wp.bind, wp_storeDir]
      rfl
  | some e =>
      show Wp (storeDir dir { d with dirPos := d.dirPos + entrySize, dirBuf := dirBuf } >>=
        fun _ => pure (some e)) t F Q = _
      rw [Wp.bind, wp_storeDir]
      rfl

/-! ## What reading looks at -/

theorem kassert_observes (c : Prop) [Decidable c] : Observes State.medium (kassert c) :=
  Observes.lift _

theorem ideRead_observes (lba : UInt32) (buf : Buf) (n : Nat) :
    Observes State.medium (ideRead lba buf n) :=
  (kassert_observes _).bind fun _ => Observes.get_bind
    (g := fun m : Bytes × SuperBlock => StateT.lift (buf.put 0 (512 * n) (view m.1 (sectorOff lba))))
    fun _ => Observes.lift _

theorem collectBlocks_observes (i : Inode) : Observes State.medium (collectBlocks i) :=
  Observes.ite ((ideRead_observes _ _ _).bind fun _ => Observes.pure _) (Observes.pure _)

theorem getEntrySize_observes : Observes State.medium getEntrySize :=
  Observes.get_bind (g := fun m : Bytes × SuperBlock => if m.2.dirEntrySize.toNat = dirEntrySize then
    pure m.2.dirEntrySize else undefined)
    fun _ => Observes.ite (Observes.pure _) (Observes.throw _)

theorem readBlocks_observes (allBlocks : BlockArray) (entrySize dirPos iSize : UInt32) :
    ∀ left blockIdx pos dirBuf, Observes State.medium
      (readBlocks allBlocks entrySize dirPos iSize left blockIdx pos dirBuf) := by
  intro left
  induction left with
  | zero => exact fun _ _ _ => Observes.pure _
  | succ left ih =>
      intro blockIdx pos dirBuf
      rw [readBlocks]
      refine Observes.ite (Observes.pure _) (Observes.ite (ih _ _ _) ?_)
      refine (ideRead_observes _ _ _).bind fun buf => (Observes.lift _).bind fun r => ?_
      obtain ⟨found, pos'⟩ := r
      cases found with
      | none => exact ih _ _ _
      | some e => exact Observes.pure _

theorem readEntry_observes (i : Inode) (d : Dir) : Observes State.medium (readEntry i d) := by
  refine (collectBlocks_observes i).bind fun allBlocks => getEntrySize_observes.bind fun entrySize =>
    (readBlocks_observes _ _ _ _ _ _ _ _).bind fun r => ?_
  obtain ⟨found, dirBuf⟩ := r
  cases found with
  | none => exact Observes.pure _
  | some e => exact Observes.pure _

theorem readEntry_inode (i : Inode) (d : Dir) (s : State) :
    Ensures (readEntry i d) s fun r _ => r.2.inode = d.inode := by
  unfold readEntry
  rw [Ensures, Wp.bind]
  refine Wp.trivial.call fun allBlocks _ _ => ?_
  rw [Wp.bind]
  refine Wp.trivial.call fun entrySize _ _ => ?_
  rw [Wp.bind]
  refine Wp.trivial.call fun r _ _ => ?_
  obtain ⟨found, dirBuf⟩ := r
  cases found with
  | none => exact rfl
  | some e => exact rfl

/-- Two inodes with the same size and the same sectors read alike. -/
theorem readEntry_congr (hsize : i.iSize = j.iSize) (hsectors : i.iSectors = j.iSectors) (d : Dir) :
    readEntry i d = readEntry j d := by
  have hsector : i.sector = j.sector := by
    funext k
    rw [Inode.sector, Inode.sector, hsectors]
  unfold readEntry collectBlocks directBlocks
  rw [hsize, hsector]

end

/-! ## What opening leaves alone -/

/-- What reading a directory looks at in its inode, with the number. -/
def Inode.content (i : Inode) : UInt32 × UInt32 × (Fin 13 → UInt32) := (i.iNo, i.iSize, i.iSectors)

/-- Between `s` and `t` inodes and directories were opened and closed.  The directories
in `S` stay as they are, and so do the inodes that are referred to. -/
structure Spares (S : DirPtr → Prop) (h : Ptr → Nat) (s t : State) : Prop where
  medium : t.medium = s.medium
  rootInode : t.rootDir.inode = s.rootDir.inode
  cur : t.cur = s.cur
  next : s.next ≤ t.next
  dirs : ∀ d, S d → t.dirOf d = s.dirOf d
  inodes : ∀ p i, s.inodes p = some i → (p.user = true ∨ 0 < h p) →
    ∃ j, t.inodes p = some j ∧ j.content = i.content
  user : ∀ p, p.user = true → (t.inodes p).map Inode.content = (s.inodes p).map Inode.content

section

variable {s t u : State} {S : DirPtr → Prop} {h : Ptr → Nat} {p q : Ptr} {d : DirPtr} {i j : Inode}

theorem State.HasDir.mono (hd : s.HasDir d) (hle : s.next ≤ t.next) : t.HasDir d := by
  cases d with
  | root => exact True.intro
  | heap q => exact Nat.lt_of_lt_of_le hd hle

/-- A directory that is there is not a new one. -/
theorem State.HasDir.ne_of_new {d' : DirPtr} (hd : s.HasDir d)
    (hnew : ∀ q, d' = .heap q → s.next ≤ q.id) : d ≠ d' ∨ d' = .root := by
  cases d' with
  | root => exact Or.inr rfl
  | heap q =>
      left
      rintro rfl
      exact absurd hd (Nat.not_lt.mpr (hnew q rfl))

theorem Spares.refl (S : DirPtr → Prop) (h : Ptr → Nat) (s : State) : Spares S h s s :=
  ⟨rfl, rfl, rfl, Nat.le_refl _, fun _ _ => rfl, fun _ i hi _ => ⟨i, hi, rfl⟩, fun _ _ => rfl⟩

theorem Spares.trans (hst : Spares S h s t) (htu : Spares S h t u) : Spares S h s u where
  medium := htu.medium.trans hst.medium
  rootInode := htu.rootInode.trans hst.rootInode
  cur := htu.cur.trans hst.cur
  next := Nat.le_trans hst.next htu.next
  dirs d hd := (htu.dirs d hd).trans (hst.dirs d hd)
  inodes p i hi hp := by
    obtain ⟨j, hj, hji⟩ := hst.inodes p i hi hp
    obtain ⟨k, hk, hkj⟩ := htu.inodes p j hj hp
    exact ⟨k, hk, hkj.trans hji⟩
  user p hp := (htu.user p hp).trans (hst.user p hp)

theorem Spares.mono {S' : DirPtr → Prop} {h' : Ptr → Nat} (hst : Spares S' h' s t)
    (hS : ∀ d, S d → S' d) (hle : ∀ p, h p ≤ h' p) : Spares S h s t where
  medium := hst.medium
  rootInode := hst.rootInode
  cur := hst.cur
  next := hst.next
  dirs d hd := hst.dirs d (hS d hd)
  inodes p i hi hp :=
    hst.inodes p i hi (hp.imp_right fun hpos => Nat.lt_of_lt_of_le hpos (hle p))
  user := hst.user

theorem Reads.spares (hr : Reads s t) (S : DirPtr → Prop) (h : Ptr → Nat) : Spares S h s t where
  medium := by
    unfold State.medium
    rw [hr.disk, hr.part]
  rootInode := by rw [hr.rootDir]
  cur := hr.cur
  next := hr.next
  dirs d _ := by
    cases d with
    | root => exact congrArg some hr.rootDir
    | heap q => exact congrFun hr.dirs q
  inodes p i hi _ := ⟨i, by rw [hr.inodes, hi], rfl⟩
  user p _ := by rw [hr.inodes]

/-- One inode changes its count. -/
theorem spares_putInode (hi : s.inodes p = some i) (hj : j.content = i.content) :
    Spares S h s (s.putInode p (some j)) := by
  refine ⟨rfl, rfl, rfl, Nat.le_refl _, fun _ _ => rfl, fun q k hk _ => ?_, fun q _ => ?_⟩
  · by_cases hq : q = p
    · rw [hq, hi, Option.some.injEq] at hk
      rw [hq, ← hk]
      exact ⟨j, State.putInode_same .., hj⟩
    · exact ⟨k, (State.putInode_other _ _ hq).trans hk, rfl⟩
  · by_cases hq : q = p
    · rw [hq, State.putInode_same, hi, Option.map_some, Option.map_some, hj]
    · rw [State.putInode_other _ _ hq]

theorem inodeOpen_spares (hs : Counted s h) (n : UInt32) :
    Ensures (inodeOpen n) s fun _ t => Spares S h s t := by
  rw [Ensures, wp_inodeOpen]
  refine ⟨fun p i _ hi => spares_putInode hi rfl, fun _ => ?_, fun _ _ => True.intro⟩
  rw [wp_inodeRead]
  refine ⟨fun _ => ⟨fun _ => ⟨fun _ => ⟨fun _ => ?_, ?_⟩, ?_⟩, ?_⟩, ?_⟩
  · refine ⟨rfl, rfl, rfl, Nat.le_add_right _ 2, fun _ _ => rfl, fun q j hj _ => ⟨j, ?_, rfl⟩,
      fun q hq => ?_⟩
    · have hold := hs.old q j hj
      refine (if_neg ?_).trans hj
      rintro rfl
      exact Nat.lt_irrefl _ hold
    · have hother : ((s.loaded n).inodes q) = s.inodes q := by
        refine if_neg ?_
        rintro rfl
        cases hq
      exact congrArg (Option.map Inode.content) hother
  all_goals exact fun _ => True.intro

theorem inodeClose_spares (hs : Counted s (bump h p)) (hi : s.inodes p = some i) :
    Ensures (inodeClose p) s fun _ t => Spares S h s t := by
  rw [Ensures, wp_inodeClose hi]
  refine ⟨fun _ => spares_putInode hi rfl, fun hone => ⟨fun huser => ?_, fun _ => True.intro⟩⟩
  refine ⟨rfl, rfl, rfl, Nat.le_refl _, fun _ _ => rfl, fun q j hj hq => ⟨j, ?_, rfl⟩, fun q hq => ?_⟩
  · -- the last reference goes, so `h` does not refer to the inode
    have hle := hs.le hi huser
    rw [bump_self] at hle
    refine (if_neg ?_).trans hj
    rintro rfl
    rcases hq with hq | hq
    · rw [huser] at hq
      cases hq
    · omega
  · have hother : ((s.dropped p).inodes q) = s.inodes q := by
      refine if_neg ?_
      rintro rfl
      rw [huser] at hq
      cases hq
    exact congrArg (Option.map Inode.content) hother

/-- A new directory. -/
structure NewDir (h : Ptr → Nat) (s t : State) (q p : Ptr) : Prop where
  fresh : q = s.fresh
  next : s.next < t.next
  dir : t.dirs q = some { Dir.zero with inode := some p }
  inode : ∃ i, t.inodes p = some i
  counted : Counted t (bump h p)
  spares : Spares s.HasDir h s t

theorem dirOpen_new (hs : Counted s h) (n : UInt32) :
    Ensures (dirOpen n) s fun d t => ∃ q p, d = .heap q ∧ NewDir h s t q p := by
  rw [Ensures, wp_dirOpen]
  refine ⟨fun _ => ?_, fun _ => Wp.mono Fallible.Wp.trivial (fun _ _ => True.intro) ?_⟩
  · have hnew : Counted s.newDir h := ⟨fun p i hi => Nat.lt_succ_of_lt (hs.old p i hi), hs.cnt⟩
    refine ((inodeOpen_counted hnew n).and
      (inodeOpen_spares (S := fun _ => True) hnew n)).call fun p t ht => ?_
    obtain ⟨⟨hcounted, -, -, hi⟩, hspares⟩ := ht
    have hnext : s.next + 1 ≤ t.next := hspares.next
    refine ⟨s.fresh, p, rfl, rfl, hnext, if_pos rfl, hi, ⟨hcounted.old, hcounted.cnt⟩, ?_⟩
    refine ⟨hspares.medium, hspares.rootInode, hspares.cur, Nat.le_of_succ_le hnext, fun d hd => ?_,
      hspares.inodes, hspares.user⟩
    have hdirs := hspares.dirs d True.intro
    cases d with
    | root => exact hdirs
    | heap q =>
        have hne : q ≠ s.fresh := by
          rintro rfl
          exact Nat.lt_irrefl _ hd
        exact (if_neg hne).trans (Eq.trans hdirs (if_neg hne))
  · exact fun _ _ _ => True.intro

theorem dirClose_spares (hd : Held s h d) :
    Ensures (dirClose d) s fun _ t => Spares (fun d' => d' ≠ d ∨ d = .root) h s t := by
  cases d with
  | root => exact Spares.refl _ h s
  | heap q =>
      obtain ⟨r, p, hr, hp, hs⟩ := hd
      rw [Ensures, wp_dirClose_heap hr hp]
      cases hi : s.inodes p with
      | none =>
          unfold inodeClose
          rw [Wp.bind, wp_loadInode, hi]
          exact ⟨fun i hnone => absurd hnone.symm (Option.some_ne_none i), fun _ => True.intro⟩
      | some i =>
          refine (inodeClose_spares (S := fun _ => True) hs hi).call fun _ t ht => ?_
          refine (sysFreeDir_keeps q).call fun _ u hu => ?_
          rw [hu]
          refine ⟨ht.medium, ht.rootInode, ht.cur, ht.next, fun d' hd' => ?_, ht.inodes, ht.user⟩
          have hdirs := ht.dirs d' True.intro
          have hne : d' ≠ .heap q := hd'.resolve_right DirPtr.noConfusion
          cases d' with
          | root => exact hdirs
          | heap x => exact (if_neg fun hx => hne (congrArg DirPtr.heap hx)).trans hdirs

/-- Closing a directory whose inode is referred to returns. -/
theorem dirClose_returns {r : Dir} (hr : s.dirs q = some r) (hp : r.inode = some p)
    (hs : Counted s (bump h p)) (hkernel : p.user = false) (hq : q.user = s.cur.pgdir) :
    Returns (dirClose (.heap q)) s fun _ t => t.dirs q = none := by
  obtain ⟨i, hi, -⟩ := hs.cnt p hkernel (by
    rw [bump_self]
    exact Nat.succ_pos _)
  have hfree : ∀ t : State, t.dirs = s.dirs → t.cur = s.cur →
      Wp (sysFreeDir q) t (fun _ => False) fun _ u => u.dirs q = none := by
    intro t hdirs hcur
    rw [wp_sysFreeDir (d := r) (by rw [hdirs, hr]), hcur, ← hq]
    refine ⟨fun _ => if_pos rfl, fun h₁ h₂ => ?_, fun h₁ h₂ => ?_⟩
    · rw [h₁] at h₂
      cases h₂
    · rw [h₁] at h₂
      cases h₂
  rw [Returns, wp_dirClose_heap hr hp, wp_inodeClose hi]
  refine ⟨fun _ => hfree _ rfl rfl, fun _ => ⟨fun _ => hfree _ rfl rfl, fun huser => ?_⟩⟩
  rw [hkernel] at huser
  cases huser

theorem setDirOf_spares {e : Dir} {e' : Dir} (he : s.dirOf d = some e) (hinode : e'.inode = e.inode) :
    Spares (fun d' => d' ≠ d) h s (s.setDirOf d e') := by
  have hstate : (s.setDirOf d e').medium = s.medium ∧ (s.setDirOf d e').cur = s.cur ∧
      (s.setDirOf d e').next = s.next ∧ (s.setDirOf d e').inodes = s.inodes := by
    cases d with
    | root => exact ⟨rfl, rfl, rfl, rfl⟩
    | heap q => exact ⟨rfl, rfl, rfl, rfl⟩
  obtain ⟨hmedium, hcur, hnext, hinodes⟩ := hstate
  refine ⟨hmedium, ?_, hcur, Nat.le_of_eq hnext.symm, fun d' hd' => dirOf_setDirOf_other hd',
    fun p i hi _ => ⟨i, by rw [hinodes, hi], rfl⟩, fun p _ => by rw [hinodes]⟩
  cases d with
  | root =>
      cases he
      exact hinode
  | heap q => rfl

/-- What a search needs to leave the other directories alone. -/
theorem searchRule_spares (s : State) (h : Ptr → Nat) :
    SearchRule (fun t d => Held t h d ∧ Spares s.HasDir h s t ∧
        ∀ q, d = .heap q → s.next ≤ q.id ∧ q.id < t.next)
      (fun t => Counted t h ∧ Spares s.HasDir h s t) where
  root _ ht := ⟨ht.1, ht.2, nofun⟩
  reads t u _ ht hr := by
    refine ⟨ht.1.quiet (hr.quiet t u), ht.2.1.trans (hr.spares _ h), fun q hq => ?_⟩
    obtain ⟨hnew, hold⟩ := ht.2.2 q hq
    exact ⟨hnew, Nat.lt_of_lt_of_le hold hr.next⟩
  opens t n ht := by
    refine (dirOpen_new ht.1 n).call fun d u hu => ?_
    obtain ⟨q, p, rfl, hq⟩ := hu
    refine ⟨⟨_, p, hq.dir, rfl, hq.counted⟩, ht.2.trans (hq.spares.mono ?_ fun _ => Nat.le_refl _),
      fun x hx => ?_⟩
    · exact fun d hd => hd.mono ht.2.next
    · cases hx
      rw [hq.fresh]
      exact ⟨ht.2.next, hq.next⟩
  closes t d ht := by
    refine ((dirClose_counted ht.1).and (dirClose_spares ht.1)).call fun _ u hu => ?_
    refine ⟨hu.1.1, ht.2.1.trans (hu.2.mono (fun x hx => ?_) fun _ => Nat.le_refl _)⟩
    exact hx.ne_of_new fun q hq => (ht.2.2 q hq).1

theorem openSearched_new (hs : Counted s h) (n : UInt32) (r : SearchRecord) :
    Ensures (openSearched n r) s fun ret t =>
      (ret = none ∧ t = s) ∨ ∃ q p, ret = some (.heap q) ∧ NewDir h s t q p := by
  unfold openSearched
  rw [Ensures, Wp.ite]
  refine ⟨fun _ => Or.inl ⟨rfl, rfl⟩, fun _ => ?_⟩
  rw [Wp.ite]
  refine ⟨fun _ => ?_, fun _ => Or.inl ⟨rfl, rfl⟩⟩
  rw [Wp.bind]
  refine (dirOpen_new hs n).call fun d t ht => ?_
  obtain ⟨q, p, rfl, hq⟩ := ht
  exact Or.inr ⟨q, p, rfl, hq⟩

/-- A directory that is open stays open beside the new one. -/
theorem openSearched_held (hd : Held s h d) (hold : ∀ q, d = .heap q → q.id < s.next) (n : UInt32)
    (r : SearchRecord) : Ensures (openSearched n r) s fun ret t =>
      (ret = none ∧ t = s) ∨ ∃ q p, ret = some (.heap q) ∧ d ≠ .heap q ∧ NewDir h s t q p ∧
        Held t (bump h p) d := by
  cases d with
  | root =>
      refine (openSearched_new hd n r).call fun ret t ht => ?_
      rcases ht with ht | ⟨q, p, hret, hq⟩
      · exact Or.inl ht
      · exact Or.inr ⟨q, p, hret, nofun, hq, hq.counted⟩
  | heap x =>
      obtain ⟨dir, y, hdir, hy, hs⟩ := hd
      refine (openSearched_new hs n r).call fun ret t ht => ?_
      rcases ht with ht | ⟨q, p, hret, hq⟩
      · exact Or.inl ht
      have hx := hold x rfl
      refine Or.inr ⟨q, p, hret, fun heq => ?_, ?_, dir, y, ?_, hy, ?_⟩
      · cases heq
        rw [hq.fresh] at hx
        exact Nat.lt_irrefl _ hx
      · refine ⟨hq.fresh, hq.next, hq.dir, hq.inode, ?_, hq.spares.mono (fun _ hz => hz) (le_bump h y)⟩
        have hcounted := hq.counted
        rw [bump_comm] at hcounted
        exact hcounted.unbump
      · exact (hq.spares.dirs (.heap x) hx).trans hdir
      · rw [bump_comm]
        exact hq.counted

/-- What `sys_opendir` returns: the root directory for its special names, otherwise a
directory of its own. -/
structure Opendir (s t : State) (h : Ptr → Nat) (name : Str) (r : Option DirPtr) : Prop where
  spares : Spares s.HasDir h s t
  root : opensRoot name → r = some .root ∧ Counted t h
  own : ¬opensRoot name → r ≠ some .root ∧ ∀ q, r = some (.heap q) →
    s.next ≤ q.id ∧ q.id < t.next ∧ q.user = s.cur.pgdir ∧
      ∃ p i, t.dirs q = some { Dir.zero with inode := some p } ∧ t.inodes p = some i ∧
        Counted t (bump h p)

theorem sysOpendir_opendir (hs : Counted s h) (name : Str) :
    Ensures (sysOpendir name) s fun r t => Opendir s t h name r := by
  unfold sysOpendir opendirFound
  rw [Ensures, Wp.bind, wp_kassert]
  refine ⟨fun _ => ?_, fun _ => True.intro⟩
  rw [Wp.ite]
  refine ⟨fun hroot => ⟨Spares.refl _ h s, fun _ => ⟨rfl, hs⟩, fun hno => absurd hroot hno⟩, ?_⟩
  intro hroot
  rw [Wp.bind]
  refine ((searchRule_spares s h).searchFile ⟨hs, Spares.refl _ h s⟩ name).call fun found t ht => ?_
  obtain ⟨hheld, hspares, hparent⟩ := ht
  rw [Wp.bind]
  refine (openSearched_held hheld (fun q hq => (hparent q hq).2) found.1 found.2).call
    fun ret u hu => ?_
  rw [Wp.bind]
  rcases hu with ⟨rfl, rfl⟩ | ⟨q, p, rfl, hne, hq, hu⟩
  · refine (dirClose_spares hheld).call fun _ v hv => ?_
    refine ⟨hspares.trans (hv.mono (fun x hx => ?_) fun _ => Nat.le_refl _),
      fun hyes => absurd hyes hroot, fun _ => ⟨by simp, by simp⟩⟩
    exact hx.ne_of_new fun q hq => (hparent q hq).1
  · refine ((dirClose_counted hu).and (dirClose_spares hu)).call fun _ v hv => ?_
    obtain ⟨⟨hcounted, -⟩, hv⟩ := hv
    obtain ⟨i, hi⟩ := hq.inode
    obtain ⟨j, hj, -⟩ := hv.inodes p i hi (Or.inr (by
      rw [bump_self]
      exact Nat.succ_pos _))
    have hnew : s.next ≤ q.id ∧ q.id < v.next := by
      rw [hq.fresh]
      exact ⟨hspares.next, Nat.lt_of_lt_of_le hq.next hv.next⟩
    refine ⟨?_, fun hyes => absurd hyes hroot, fun _ => ⟨by simp, fun x hx => ?_⟩⟩
    · refine hspares.trans ((hq.spares.mono ?_ fun _ => Nat.le_refl _).trans (hv.mono ?_ (le_bump h p)))
      · exact fun d hd => hd.mono hspares.next
      · exact fun d hd => hd.ne_of_new fun q hq => (hparent q hq).1
    · cases hx
      refine ⟨hnew.1, hnew.2, ?_, p, j, ?_, hj, hcounted⟩
      · rw [hq.fresh, ← hspares.cur]
        rfl
      · exact (hv.dirs (.heap q) (Or.inl hne.symm)).trans hq.dir

end

end OsTruth
