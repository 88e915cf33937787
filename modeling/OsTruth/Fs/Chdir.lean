/-
`sys_chdir` of `fs/fs.c`, and the walk from directory to directory that it follows.

A walk reads the entries on the disk, `.` and `..` among them.  `sys_chdir` goes where the
names of its path lead from the root, and otherwise it stays where it was.
-/
import OsTruth.Fs.OpenPath
import OsTruth.Fs.OpenRuns
import OsTruth.Fs.Getcwd

namespace OsTruth

open ByteString Fallible

/-! ## The working directory -/

def State.inDir (s : State) (n : UInt32) : State :=
  { s with cur := { s.cur with cwdInodeNr := n } }

section

variable {n : UInt32}

theorem dirInode_inDir (d : DirPtr) : Blind (fun s => s.inDir n) (dirInode d) := by
  refine .of_wp fun s F Q => ?_
  rw [wp_dirInode, wp_dirInode]
  have hsame : (s.inDir n).inodeOf d = s.inodeOf d := by
    cases d with
    | root => rfl
    | heap p => rfl
  rw [hsame]

theorem sysFreeDir_inDir (p : Ptr) : Blind (fun s => s.inDir n) (sysFreeDir p) := by
  refine .of_wp fun s F Q => ?_
  unfold sysFreeDir
  rw [wp_sysFree, wp_sysFree]
  rfl

theorem inodeClose_inDir (p : Ptr) : Blind (fun s => s.inDir n) (inodeClose p) := by
  unfold inodeClose
  have hinodes : ∀ s : State, (s.inDir n).inodes = s.inodes := fun _ => rfl
  refine (loadInode_blind hinodes).bind fun i =>
    (storeInode_blind hinodes fun _ _ => rfl).bind fun _ => ?_
  unfold when
  refine .ite (.of_wp fun s F Q => ?_) (.pure _)
  unfold inKernel sysFreeInode
  simp only [Wp.bind, Wp.modify, Wp.get, Wp.set, wp_sysFree]
  rfl

theorem dirClose_inDir (d : DirPtr) : Blind (fun s => s.inDir n) (dirClose d) := by
  cases d with
  | root => exact .pure _
  | heap p =>
      exact (dirInode_inDir _).bind fun q => (inodeClose_inDir q).bind fun _ => sysFreeDir_inDir p

end

/-! ## Walking -/

/-- The names lead from directory `n` to directory `m`. -/
inductive State.Walks (s : State) : UInt32 → List Str → UInt32 → Prop
  | nil {n : UInt32} : Walks s n [] n
  | cons {n m : UInt32} {name : Str} {names : List Str} {e : DirEntry} (h : s.HasEntry n name e)
      (hdir : e.fType = FileType.directory.code) (hrest : Walks s e.iNo names m) :
      Walks s n (name :: names) m

section

variable {s t u : State} {n m m' d : UInt32} {names : List Str} {e : DirEntry}

theorem State.SameTree.walks (h : s.SameTree t) (hw : s.Walks n names m) : t.Walks n names m := by
  induction hw with
  | nil => exact .nil
  | cons he hdir _ ih => exact .cons (h.hasEntry he) hdir ih

theorem State.Resolves.walks (h : s.Resolves n names d e)
    (hdir : e.fType = FileType.directory.code) : s.Walks n names e.iNo := by
  induction h with
  | last h => exact .cons h hdir .nil
  | next h htype _ ih => exact .cons h htype (ih hdir)

theorem State.Walks.resolves (h : s.Walks n names m) (hne : names ≠ []) :
    ∃ d e, s.Resolves n names d e ∧ e.fType = FileType.directory.code ∧ e.iNo = m := by
  induction h with
  | nil => exact absurd rfl hne
  | @cons n m name names e h hdir hrest ih =>
      by_cases hmore : names = []
      · subst hmore
        cases hrest
        exact ⟨n, e, .last h, hdir, rfl⟩
      · obtain ⟨d, f, hf, htype, hno⟩ := ih hmore
        exact ⟨d, f, .next h hdir hf, htype, hno⟩

theorem State.Walks.unique (ht : s.TreeOk) (hnames : ∀ name, name ∈ names → name ≠ [])
    (hn : s.IsDirectory n) (h : s.Walks n names m) (h' : s.Walks n names m') : m = m' := by
  by_cases hne : names = []
  · subst hne
    cases h
    cases h'
    rfl
  · obtain ⟨d, e, he, -, rfl⟩ := h.resolves hne
    obtain ⟨d', e', he', -, rfl⟩ := h'.resolves hne
    rw [he.unique ht hnames hn he']

theorem State.Walks.append {names' : List Str} (h : s.Walks n names m)
    (h' : s.Walks m names' m') : s.Walks n (names ++ names') m' := by
  induction h with
  | nil => exact h'
  | cons he hdir _ ih => exact .cons he hdir (ih h')

/-- The absolute path leads to its directory. -/
theorem State.PathTo.walks (h : s.PathTo names n) : s.Walks 0 names n := by
  induction h with
  | root => exact .nil
  | child _ he ih => exact ih.append (.cons he.entry he.type .nil)

/-! ## Changing the working directory -/

theorem State.Moved.refl (hs : s.Searchable) (hmem : ∀ m, s.supply m = true) :
    s.Moved s.cur.cwdInodeNr s :=
  ⟨⟨rfl, rfl, rfl⟩, rfl, rfl, rfl, List.suffix_refl _, hs, hmem, rfl⟩

theorem State.Moved.trans (h : s.Moved n t) (h' : t.Moved m u) : s.Moved m u where
  tree := ⟨h'.tree.disk.trans h.tree.disk, h'.tree.inodes.trans h.tree.inodes,
    h'.tree.part.trans h.tree.part⟩
  dirs := h'.dirs.trans h.dirs
  rootDir := h'.rootDir.trans h.rootDir
  fileTable := h'.fileTable.trans h.fileTable
  bufs := h.bufs.trans h'.bufs
  searchable := h'.searchable
  supply := h'.supply
  cur := by
    rw [h'.cur, h.cur]

/-- Behind a search that is closed. -/
theorem State.Moved.after (hs : s.Searchable) (hmem : ∀ m, s.supply m = true) (j : Nat) {k : Nat}
    (hk : s.next ≤ k) (n : UInt32) : s.Moved n ((s.after j k).inDir n) where
  tree := ⟨rfl, rfl, rfl⟩
  dirs := rfl
  rootDir := rfl
  fileTable := rfl
  bufs := List.suffix_refl _
  searchable :=
    have h := hs.after j hk
    ⟨h.mounted, h.fresh, h.opened, h.root⟩
  supply m := hmem (m + j)
  cur := rfl

theorem chdirFound_moves {k : Nat} {c inodeNo : UInt32} {r : SearchRecord} (hs : s.Searchable)
    (hmem : ∀ m, s.supply m = true) (hat : s.At k c r.parentDir t) :
    Returns (chdirFound inodeNo r) t fun x u =>
      if inodeNo ≠ -1 ∧ r.fileType = .directory then x = 0 ∧ s.Moved inodeNo u
      else x = -1 ∧ s.Moved s.cur.cwdInodeNr u := by
  unfold chdirFound
  by_cases hfound : inodeNo ≠ -1 ∧ r.fileType = .directory
  · simp only [if_pos hfound]
    rw [Returns, Wp.bind, Wp.modify, Wp.bind]
    show Wp (dirClose r.parentDir) (t.inDir inodeNo) _ _
    rw [(dirClose_inDir r.parentDir).wp_iff, hat.close_now]
    exact ⟨rfl, .after hs hmem k hat.next inodeNo⟩
  · simp only [if_neg hfound]
    refine (Wp.of_run (closeAndFail_run hat)).mpr ⟨rfl, ?_⟩
    exact .after hs hmem k hat.next s.cur.cwdInodeNr

/-- `sys_chdir` goes where the names lead from the root, and stays when they lead to no
directory. -/
theorem sysChdir_walks (hs : s.Searchable) (ht : s.TreeOk) (hmem : ∀ m, s.supply m = true)
    (hp : PathOk names) : Returns (sysChdir (joinPath names)) s fun x u =>
      (∀ n, s.Walks 0 names n → x = 0 ∧ s.Moved n u) ∧
        ((∀ n, ¬s.Walks 0 names n) → x = -1 ∧ s.Moved s.cur.cwdInodeNr u) := by
  have hne : ∀ c, c ∈ names → c ≠ [] := fun c hc => (hp.name c hc).ne
  unfold sysChdir
  rw [Returns, Wp.bind]
  refine (searchFile_found hs ht hmem hp).call fun r t hfound => ?_
  cases hfound with
  | missing h hat =>
      refine (chdirFound_moves hs hmem hat).call fun x u hx => ⟨fun n hn => ?_, fun _ => ?_⟩
      · obtain ⟨d, e, he, -⟩ := hn.resolves hp.ne
        exact absurd he (h.not_resolves ht hne .root)
      · simpa using hx
  | regular h htype hat =>
      refine (chdirFound_moves hs hmem hat).call fun x u hx => ⟨fun n hn => ?_, fun _ => ?_⟩
      · obtain ⟨d, e, he, hdir, -⟩ := hn.resolves hp.ne
        rw [he.unique ht hne .root h, htype] at hdir
        exact absurd hdir (by decide)
      · simpa using hx
  | @directory m e k d t searched h htype hat =>
      refine (chdirFound_moves hs hmem hat).call fun x u hx => ⟨fun n hn => ?_, fun hno => ?_⟩
      · rw [hn.unique ht hne .root (h.walks htype)]
        rwa [if_pos ⟨(h.ok ht hne .root).ne, rfl⟩] at hx
      · exact absurd (h.walks htype) (hno _)
  | stuck hsplit hfront hback hmissing hresolves hother hat =>
      refine (chdirFound_moves hs hmem hat).call fun x u hx => ⟨fun n hn => ?_, fun _ => ?_⟩
      · obtain ⟨d, e, he, -⟩ := hn.resolves hp.ne
        exact absurd he (hresolves d e)
      · rwa [if_neg fun hgo => hother hgo.2] at hx

end

/-- In a buffer of `MAX_PATH_LEN` bytes `sys_getcwd` writes every path, and moves nothing. -/
theorem sysGetcwd_moved {s : State} {names : List Str} (hs : s.Searchable) (ht : s.DirTree)
    (hmem : ∀ m, s.supply m = true) (h : s.PathTo names s.cur.cwdInodeNr)
    (hlen : (absolutePath names).length < maxPathLen) :
    Returns (sysGetcwd (some maxPathLen) (UInt32.ofNat maxPathLen)) s fun r t =>
      r = some (absolutePath names) ∧ s.Moved s.cur.cwdInodeNr t := by
  have hsize : (UInt32.ofNat maxPathLen).toNat = maxPathLen := by decide
  exact sysGetcwd_path hs ht hmem h hlen (Nat.le_of_eq hsize) (hsize ▸ Nat.le_of_lt hlen) hlen

end OsTruth
