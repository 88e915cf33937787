/-
`cd` and `pwd` of `shell/buildin_cmd.c`, and the prompt of `shell/shell.c`.

The shell keeps the path of the working directory a second time, in `cwd_cache`, and `cd`
finds the new path by text alone: `make_clear_abs_path` washes `.` and `..` out of it before
any directory is read.  In a tree of directories each name does to the stack of names what
the entry with this name does to the directory, so the two paths stay the same.
-/
import OsTruth.Fs.Chdir
import OsTruth.Fs.Mount
import OsTruth.Shell.Readline
import OsTruth.Shell.WashPath

namespace OsTruth

open ByteString Fallible Runs

/-! ## Functions -/

/-- `getcwd(buf, MAX_PATH_LEN)` on an array of `MAX_PATH_LEN` zeros. -/
def getcwdZero : Kern (Option Buf) := do
  match ← sysGetcwd (some maxPathLen) (UInt32.ofNat maxPathLen) with
  | none => pure none
  | some path => do
      let buf ← StateT.lift ((Buf.zero maxPathLen).put 0 (path.length + 1) (strBytes path))
      pure (some buf)

/-- A slash behind a path that is not the one of the root. -/
def addSlash (absPath : Buf) : Except Fault Buf := do
  let c ← absPath.load 0
  let d ← absPath.load 1
  if ¬(c = slash ∧ d = 0) then strcat absPath 0 (strBuf [slash]) 0
  else pure absPath

/-- `abs_path` of `make_clear_abs_path` before `path` is appended. -/
def absPathOf (path : Str) : Kern Buf := do
  let c ← StateT.lift ((strBuf path).load 0)
  if c ≠ slash then do
    match ← getcwdZero with
    | none => pure (.zero maxPathLen)
    | some absPath => StateT.lift (addSlash absPath)
  else pure (.zero maxPathLen)

/-- `make_clear_abs_path`, with what it leaves of `final_path`. -/
def makeClearAbsPath (path : Str) (finalPath : Buf) : Kern Buf := do
  let absPath ← absPathOf path
  let absPath ← StateT.lift (strcat absPath 0 (strBuf path) 0)
  let (finalPath, _) ← StateT.lift (washPathAt absPath finalPath)
  pure finalPath

/-- What a built-in command leaves: whether it did it, `final_path` and what it printed. -/
structure Built where
  done : Bool
  finalPath : Buf
  out : List Echo

/-- `final_path` in `buildin_cd`: the root, or the path that is given. -/
def cdFinalPath (finalPath : Buf) : List Str → Kern Buf
  | [] => do
      let finalPath ← StateT.lift (finalPath.store 0 slash)
      StateT.lift (finalPath.store 1 0)
  | path :: _ => makeClearAbsPath path finalPath

/-- The rest of `buildin_cd`, once `final_path` is filled in. -/
def chdirFinal (finalPath : Buf) : Kern Built := do
  let path ← StateT.lift (readStr finalPath finalPath.size 0)
  let ret ← sysChdir path
  if ret = -1 then pure ⟨false, finalPath, [.printf "cd: no such directory %s\n" [path]]⟩
  else pure ⟨true, finalPath, []⟩

/-- `buildin_cd`.  The words behind the command are `args`. -/
def buildinCd (args : List Str) (finalPath : Buf) : Kern Built := do
  if args.length > 1 then pure ⟨false, finalPath, [.printf "cd: only support 1 argument!\n" []]⟩
  else do
    let finalPath ← cdFinalPath finalPath args
    chdirFinal finalPath

/-- `buildin_pwd`.  `final_path` was cleared before. -/
def buildinPwd (args : List Str) (finalPath : Buf) : Kern Built := do
  if args.length ≠ 0 then pure ⟨false, finalPath, [.printf "pwd: no argument support!\n" []]⟩
  else do
    match ← getcwdZero with
    | none => pure ⟨false, finalPath, [.printf "pwd: get current work directory failed.\n" []]⟩
    | some finalPath => do
        let path ← StateT.lift (readStr finalPath finalPath.size 0)
        pure ⟨true, finalPath, [.printf "%s\n" [path]]⟩

structure Shell where
  fs : State
  cwdCache : Buf
  out : List Echo

inductive ShellCmd
  | cd (args : List Str)
  | pwd (args : List Str)

/-- A round of `my_shell` on a line with the command. -/
def shellRound (cwdCache : Buf) (c : ShellCmd) : Kern (Buf × List Echo) := do
  let prompt ← StateT.lift (readStr cwdCache cwdCache.size 0)
  let finalPath : Buf := .zero maxPathLen
  match c with
  | .cd args => do
      let r ← buildinCd args finalPath
      if r.done then do
        let cwdCache ← StateT.lift (strcpy (.zero maxPathLen) 0 r.finalPath 0)
        pure (cwdCache, printPrompt prompt :: r.out)
      else pure (cwdCache, printPrompt prompt :: r.out)
  | .pwd args => do
      let r ← buildinPwd args finalPath
      pure (cwdCache, printPrompt prompt :: r.out)

def shellStep (σ : Shell) (c : ShellCmd) : Except Fault Shell :=
  ((shellRound σ.cwdCache c).run σ.fs).map fun r => ⟨r.2, r.1.1, σ.out ++ r.1.2⟩

/-! ## What is to hold -/

/-- What `make_clear_abs_path` washes, in the directory with the path `cwd`. -/
def fullPath (cwd : List Str) (path : Str) : Str :=
  if path.head? = some slash then path else joinPath cwd ++ slash :: path

/-- The names on it. -/
def pathNames (cwd : List Str) (path : Str) : List Str := parsedNames (fullPath cwd path).tail

/-- The path of the new directory is in its array, and each name in the array of
`wash_path`. -/
structure PathFits (cwd : List Str) (path : Str) : Prop where
  str : 0 ∉ path
  short : (fullPath cwd path).length < maxPathLen
  names : ∀ c ∈ pathNames cwd path, c.length < maxFileNameLen

section

variable {s t : State} {n m : UInt32} {names cwd stack : List Str} {name path : Str}
variable {e : DirEntry}

/-! ## The names of the full path -/

theorem parsedNames_join (hnames : ∀ name, name ∈ names → NameOk name) (path : Str) :
    parsedNames (joinPath names ++ slash :: path).tail = names ++ parsedNames path := by
  induction names with
  | nil => rfl
  | cons name names ih =>
      have hname := hnames name List.mem_cons_self
      have hrest := ih fun c hc => hnames c (List.mem_cons_of_mem name hc)
      have hne : ∀ c, c ∈ name → decide (c ≠ slash) = true := fun c hc =>
        decide_eq_true fun heq => hname.noSlash (heq ▸ hc)
      obtain ⟨more, hmore⟩ : ∃ more, joinPath names ++ slash :: path = slash :: more := by
        rcases joinPath_slash names with h | ⟨rest, h⟩
        · exact ⟨path, by rw [h, List.nil_append]⟩
        · exact ⟨rest ++ slash :: path, by rw [h, List.cons_append]⟩
      have hcomp : component (name ++ slash :: more) = name := by
        rw [component, List.takeWhile_append_of_pos hne]
        simp
      have hbehind : behind (name ++ slash :: more) = slash :: more := by
        rw [behind, List.dropWhile_append_of_pos hne]
        simp
      rw [joinPath, List.cons_append, List.tail_cons, List.append_assoc, hmore]
      rw [hmore, List.tail_cons] at hrest
      rw [parsedNames_next (by rw [hcomp]; exact hname.ne) hbehind, hcomp, hrest,
        List.cons_append]

theorem pathNames_absolute (h : path.head? = some slash) (cwd : List Str) :
    pathNames cwd path = parsedNames path.tail := by
  rw [pathNames, fullPath, if_pos h]

theorem pathNames_relative (hcwd : ∀ name, name ∈ cwd → NameOk name)
    (h : path.head? ≠ some slash) : pathNames cwd path = cwd ++ parsedNames path := by
  rw [pathNames, fullPath, if_neg h, parsedNames_join hcwd]

/-! ## Washing and walking -/

/-- The names on an absolute path are kept by `wash_path`. -/
theorem State.PathTo.kept (ht : s.DirTree) (h : s.PathTo names n) : ∀ c ∈ names, IsKept c := by
  induction h with
  | root => simp
  | @child names n e h he ih =>
      intro c hc
      rcases List.mem_append.mp hc with hc | hc
      · exact ih c hc
      · rw [List.mem_singleton.mp hc]
        have hzero : (0 : UInt8) ∉ e.name := by
          intro h0
          simpa using List.mem_takeWhile_imp h0
        exact ⟨⟨he.name.ne, ht.noSlash n e h.isDirectory he.entry, hzero⟩, he.name.parent,
          he.name.self⟩

/-- A step from a directory does to its path what the name does to the stack. -/
theorem State.PathTo.washStep (ht : s.DirTree) (h : s.PathTo names n) (hname : name ≠ [])
    (he : s.HasEntry n name e) (hdir : e.fType = FileType.directory.code) :
    s.PathTo (washStep names name) e.iNo := by
  have hn := h.isDirectory
  have hok := ht.ok.directory n hn
  have hsame := (he.ok hok hname).2
  obtain ⟨parent, hdots⟩ := ht.dots n hn
  unfold OsTruth.washStep
  by_cases hup : name = [dot, dot]
  · rw [if_pos hup]
    rcases h.cases_on with ⟨rfl, rfl⟩ | ⟨names', m, e₁, rfl, rfl, hm, he₁⟩
    · obtain ⟨e₀, he₀, hno₀, -⟩ := ht.ok.root [dot, dot] (Or.inr rfl)
      rw [he.unique hok hname (hup ▸ he₀), hno₀]
      exact .root
    · obtain ⟨e₀, he₀, hname₀, hno₀, -⟩ := (ht.child m e₁ hm.isDirectory he₁).2.parent
      have hentry := State.hasEntry_iff.mpr ⟨0, 1, he₀, hname₀.trans hup.symm⟩
      rw [he.unique hok hname hentry, hno₀, List.dropLast_concat]
      exact hm
  · rw [if_neg hup]
    by_cases hhere : name = [dot]
    · obtain ⟨e₀, he₀, hname₀, hno₀, -⟩ := hdots.self
      have hentry := State.hasEntry_iff.mpr ⟨0, 0, he₀, hname₀.trans hhere.symm⟩
      rw [if_pos hhere, he.unique hok hname hentry, hno₀]
      exact h
    · rw [if_neg hhere]
      rw [← hsame] at hname hup hhere he ⊢
      exact h.child ⟨he, ⟨hname, hhere, hup⟩, hdir⟩

/-- Washing keeps where a path leads. -/
theorem State.PathTo.wash (ht : s.DirTree) (hnames : ∀ c ∈ names, c ≠ [])
    (h : s.PathTo stack n) (hw : s.Walks n names m) :
    s.PathTo (names.foldl OsTruth.washStep stack) m := by
  induction hw generalizing stack with
  | nil => exact h
  | cons he hdir _ ih =>
      exact ih (fun c hc => hnames c (List.mem_cons_of_mem _ hc))
        (h.washStep ht (hnames _ List.mem_cons_self) he hdir)

/-- Names that are kept lead to a directory when they are its path. -/
theorem walks_iff_pathTo (ht : s.DirTree) (hkept : ∀ c ∈ stack, IsKept c) :
    s.Walks 0 stack n ↔ s.PathTo stack n := by
  constructor
  · intro h
    have hpath := State.PathTo.root.wash ht (fun c hc => (hkept c hc).nonempty) h
    rwa [foldl_washStep_append hkept, List.nil_append] at hpath
  · exact State.PathTo.walks

/-! ## The full path in its array -/

theorem stackPath_eq (stack : List Str) : stackPath stack = absolutePath stack := by
  have hcons : ∀ (names : List Str) (name : Str),
      [slash].intercalate (name :: names) = name ++ joinPath names := by
    intro names
    induction names with
    | nil => simp [joinPath]
    | cons name' names ih =>
        intro name
        rw [List.intercalate_cons_of_ne_nil (List.cons_ne_nil _ _), ih name', joinPath]
        simp
  cases stack with
  | nil => rfl
  | cons name names =>
      rw [stackPath, hcons, absolutePath, if_neg (List.cons_ne_nil _ _), joinPath]

/-- The path of a stack is washed to the path of the stack behind it. -/
theorem washPath_holds {b x : Buf} {rest : Str} (hb : b.Holds 0 (slash :: rest))
    (hshort : ∀ c ∈ parsedNames rest, c.length < maxFileNameLen)
    (hlen : rest.length + 1 < maxPathLen) (hx : maxPathLen ≤ x.size) :
    ∃ x', washPathAt b x = .ok (x', b) ∧ x'.Holds 0 (absolutePath (washStack (parsedNames rest))) ∧
      maxPathLen ≤ x'.size := by
  have hsize := hb.size
  rw [List.length_cons] at hsize
  have hstr : 0 ∉ rest := fun h0 => hb.not_mem (List.mem_cons_of_mem _ h0)
  have hfit : namesLength (parsedNames rest) < maxPathLen :=
    Nat.lt_of_le_of_lt (parsedNames_isName rest hstr).2 hlen
  have hwash := washPath_onPath hb.load_cons ⟨hb.str, by omega⟩ hstr hshort hfit
  obtain ⟨x', hrun, hnew⟩ := washPathAt_eq hx hwash
  rw [stackPath_eq] at hnew
  exact ⟨x', hrun, hnew.holds, hnew.size⟩

theorem zero_not_mem_absolutePath (hstack : ∀ c ∈ stack, IsName c) : 0 ∉ absolutePath stack := by
  rw [← stackPath_eq, stackPath, List.mem_cons, not_or]
  exact ⟨by decide, zero_not_mem_intercalate hstack⟩

theorem getcwdZero_returns (hs : s.Searchable) (ht : s.DirTree) (hmem : ∀ m, s.supply m = true)
    (h : s.PathTo cwd s.cur.cwdInodeNr) (hlen : (absolutePath cwd).length < maxPathLen) :
    Returns getcwdZero s fun r t => (∃ b, r = some b ∧ b.Holds 0 (absolutePath cwd) ∧
      b.size = maxPathLen) ∧ s.Moved s.cur.cwdInodeNr t := by
  unfold getcwdZero
  rw [Returns, Wp.bind]
  refine (sysGetcwd_moved hs ht hmem h hlen).call fun r t hr => ?_
  obtain ⟨rfl, hmoved⟩ := hr
  have hempty : (Buf.zero maxPathLen).Holds 0 [] := ⟨rfl, by decide⟩
  have hstr := zero_not_mem_absolutePath fun c hc => (h.kept ht c hc).toIsName
  obtain ⟨b, hput, hb, hsize⟩ := hempty.put_append hstr (by simpa [Buf.zero] using hlen)
  show Wp (StateT.lift (Buf.put _ 0 _ _) >>= _) t _ _
  rw [Wp.bind]
  refine Wp.lift_ok hput ?_
  rw [Wp.pure]
  exact ⟨⟨b, rfl, hb, hsize⟩, hmoved⟩

theorem headD_eq_slash_iff : path.headD 0 = slash ↔ path.head? = some slash := by
  cases path with
  | nil => exact iff_of_false (by decide) (by decide)
  | cons c path => rw [List.headD_cons, List.head?_cons, Option.some_inj]

theorem absolutePath_fits (h : (joinPath cwd).length + 1 < maxPathLen) :
    (absolutePath cwd).length < maxPathLen := by
  unfold absolutePath
  by_cases hcwd : cwd = []
  · rw [if_pos hcwd]
    decide
  · rw [if_neg hcwd]
    exact Nat.lt_of_succ_lt h

/-- The slash behind the path of the working directory: the root has one already. -/
theorem addSlash_ok {b : Buf} (hne : ∀ c ∈ cwd, c ≠ []) (hb : b.Holds 0 (absolutePath cwd))
    (hroom : (joinPath cwd).length + 1 < b.size) :
    ∃ r, addSlash b = .ok r ∧ r.Holds 0 (joinPath cwd ++ [slash]) ∧ r.size = b.size := by
  by_cases hcwd : cwd = []
  · subst hcwd
    have hroot : b.Holds 0 [slash] := hb
    refine ⟨b, ?_, hroot, rfl⟩
    rw [addSlash, hroot.load_cons]
    show (b.load 1 >>= _) = _
    rw [hroot.tail.load_nil]
    rfl
  · obtain ⟨name, names, rfl⟩ := List.exists_cons_of_ne_nil hcwd
    rw [absolutePath, if_neg hcwd] at hb
    obtain ⟨c, cs, hcs⟩ := List.exists_cons_of_ne_nil (hne name List.mem_cons_self)
    have hb' : b.Holds 0 (slash :: c :: (cs ++ joinPath names)) := by
      rw [joinPath, hcs] at hb
      exact hb
    have hsl : (strBuf [slash]).Holds 0 [slash] := holds_strBuf (by decide)
    obtain ⟨x, hput, hx, hxsize⟩ := hb.put_append (s := [slash]) (by decide) (by
      rw [List.length_singleton]
      omega)
    refine ⟨x, ?_, hx, hxsize⟩
    rw [addSlash, hb'.load_cons]
    show (b.load 1 >>= _) = _
    rw [hb'.tail.load_cons]
    show (if ¬(slash = slash ∧ c = 0) then _ else _ : Except Fault Buf) = _
    rw [if_pos fun hzero => hb'.tail.ne_zero hzero.2]
    exact (strcat_eq hb hsl).trans hput

/-- The array holds the path of the working directory and a slash, or nothing. -/
theorem absPathOf_returns (hs : s.Searchable) (ht : s.DirTree) (hmem : ∀ m, s.supply m = true)
    (h : s.PathTo cwd s.cur.cwdInodeNr) (hstr : 0 ∉ path)
    (hlen : (fullPath cwd path).length < maxPathLen) :
    Returns (absPathOf path) s fun b t => (∃ front, fullPath cwd path = front ++ path ∧
      b.Holds 0 front ∧ b.size = maxPathLen) ∧ s.Moved s.cur.cwdInodeNr t := by
  have hload : (strBuf path).load 0 = .ok (path.headD 0) := by
    cases path with
    | nil => rfl
    | cons c path => rfl
  unfold absPathOf
  rw [Returns, Wp.bind]
  refine Wp.lift_ok hload ?_
  by_cases habs : path.head? = some slash
  · rw [if_neg (not_not_intro (headD_eq_slash_iff.mpr habs)), Wp.pure]
    refine ⟨⟨[], ?_, ⟨rfl, by decide⟩, rfl⟩, .refl hs hmem⟩
    rw [fullPath, if_pos habs, List.nil_append]
  · rw [fullPath, if_neg habs, List.length_append, List.length_cons] at hlen
    have hroom : (joinPath cwd).length + 1 < maxPathLen := by omega
    rw [if_pos (mt headD_eq_slash_iff.mp habs), Wp.bind]
    refine (getcwdZero_returns hs ht hmem h (absolutePath_fits hroom)).call fun r t hr => ?_
    obtain ⟨⟨b, rfl, hb, hsize⟩, hmoved⟩ := hr
    obtain ⟨x, hslash, hx, hxsize⟩ :=
      addSlash_ok (fun c hc => (h.nameOk ht c hc).ne) hb (hsize ▸ hroom)
    refine Wp.lift_ok hslash ?_
    refine ⟨⟨joinPath cwd ++ [slash], ?_, hx, hxsize.trans hsize⟩, hmoved⟩
    rw [fullPath, if_neg habs, List.append_assoc, List.singleton_append]

def cdTarget (cwd : List Str) (path : Str) : List Str := washStack (pathNames cwd path)

theorem fullPath_cons (cwd : List Str) (path : Str) :
    ∃ rest, fullPath cwd path = slash :: rest := by
  unfold fullPath
  by_cases habs : path.head? = some slash
  · rw [if_pos habs]
    exact List.head?_eq_some_iff.mp habs
  · rw [if_neg habs]
    rcases joinPath_slash cwd with hj | ⟨rest, hj⟩
    · exact ⟨path, by rw [hj, List.nil_append]⟩
    · exact ⟨rest ++ slash :: path, by rw [hj, List.cons_append]⟩

theorem makeClearAbsPath_returns (hs : s.Searchable) (ht : s.DirTree)
    (hmem : ∀ m, s.supply m = true) (h : s.PathTo cwd s.cur.cwdInodeNr)
    (hfits : PathFits cwd path) {finalPath : Buf} (hfinal : maxPathLen ≤ finalPath.size) :
    Returns (makeClearAbsPath path finalPath) s fun b t =>
      b.Holds 0 (absolutePath (cdTarget cwd path)) ∧ s.Moved s.cur.cwdInodeNr t := by
  unfold makeClearAbsPath
  rw [Returns, Wp.bind]
  refine (absPathOf_returns hs ht hmem h hfits.str hfits.short).call fun b t hb => ?_
  obtain ⟨⟨front, hfull, hfront, hsize⟩, hmoved⟩ := hb
  have hlen := hfits.short
  rw [hfull, List.length_append] at hlen
  obtain ⟨x, hput, hx, hxsize⟩ := hfront.put_append hfits.str (by omega)
  rw [Wp.bind]
  refine Wp.lift_ok ((strcat_eq hfront (holds_strBuf hfits.str)).trans hput) ?_
  obtain ⟨rest, hrest⟩ := fullPath_cons cwd path
  have hnames : pathNames cwd path = parsedNames rest := by
    rw [pathNames, hrest, List.tail_cons]
  rw [← hfull, hrest] at hx
  have hshort := hfits.names
  have htotal := hfits.short
  rw [hnames] at hshort
  rw [hrest, List.length_cons] at htotal
  obtain ⟨x', hwash, hx', -⟩ := washPath_holds hx hshort htotal hfinal
  rw [Wp.bind]
  refine Wp.lift_ok hwash ?_
  show Wp (pure x') t _ _
  rw [Wp.pure, cdTarget, hnames]
  exact ⟨hx', hmoved⟩

/-! ## The commands -/

theorem zero_not_mem_fullPath (hcwd : ∀ c ∈ cwd, IsName c) (hpath : 0 ∉ path) :
    0 ∉ fullPath cwd path := by
  unfold fullPath
  by_cases habs : path.head? = some slash
  · rwa [if_pos habs]
  · have hjoin : 0 ∉ joinPath cwd := by
      by_cases hne : cwd = []
      · simp [hne, joinPath]
      · have h := zero_not_mem_absolutePath hcwd
        rwa [absolutePath, if_neg hne] at h
    rw [if_neg habs, List.mem_append, List.mem_cons, not_or, not_or]
    exact ⟨hjoin, by decide, hpath⟩

/-- The path of the new directory is a path, and it fits. -/
theorem cdTarget_ok (hcwd : ∀ c ∈ cwd, IsKept c) (hfits : PathFits cwd path) :
    (∀ c ∈ cdTarget cwd path, IsKept c ∧ NameOk c) ∧
      (absolutePath (cdTarget cwd path)).length < maxPathLen := by
  have htail : 0 ∉ (fullPath cwd path).tail := fun h0 =>
    zero_not_mem_fullPath (fun c hc => (hcwd c hc).toIsName) hfits.str (List.mem_of_mem_tail h0)
  obtain ⟨hnames, hlength⟩ := parsedNames_isName _ htail
  have hshort := hfits.short
  rw [List.length_tail] at hlength
  have hmem : ∀ c ∈ cdTarget cwd path, IsKept c ∧ NameOk c := by
    intro c hc
    rcases mem_foldl_washStep hc with h | ⟨h, hup, hhere⟩
    · simp at h
    · have hname := hnames c h
      exact ⟨⟨hname, hup, hhere⟩, hname.nonempty, hfits.names c h, hname.slash⟩
  refine ⟨hmem, ?_⟩
  rw [← stackPath_eq]
  by_cases hnil : cdTarget cwd path = []
  · rw [hnil]
    decide
  · have hwash := foldl_washStep_length [] (pathNames cwd path)
    rw [length_stackPath hnil]
    have hzero : namesLength [] = 0 := rfl
    have hmax : maxPathLen = 512 := rfl
    unfold cdTarget washStack
    unfold pathNames at hwash ⊢
    omega

theorem State.PathTo.eq_root (h : s.PathTo [] n) : n = 0 := by
  rcases h.cases_on with ⟨-, hn⟩ | ⟨names', m, e, hnames, -⟩
  · exact hn
  · exact absurd hnames.symm (List.append_ne_nil_of_right_ne_nil _ (List.cons_ne_nil _ _))

/-- `sys_chdir` on an absolute path without `.` and `..`. -/
theorem sysChdir_absolute (hs : s.Searchable) (ht : s.DirTree) (hmem : ∀ m, s.supply m = true)
    (hstack : ∀ c ∈ stack, IsKept c ∧ NameOk c) (hlen : (absolutePath stack).length < maxPathLen) :
    Returns (sysChdir (absolutePath stack)) s fun x u =>
      (∀ n, s.PathTo stack n → x = 0 ∧ s.Moved n u) ∧
        ((∀ n, ¬s.PathTo stack n) → x = -1 ∧ s.Moved s.cur.cwdInodeNr u) := by
  by_cases hnil : stack = []
  · subst hnil
    have hroot : isRootName (absolutePath []) := Or.inl rfl
    unfold sysChdir searchFile
    rw [if_pos hroot, Returns, Wp.bind, Wp.pure]
    refine (chdirFound_moves hs hmem hs.at_root).call fun x u hx => ⟨fun n hn => ?_, fun hno => ?_⟩
    · rw [hn.eq_root]
      rwa [if_pos ⟨by decide, rfl⟩] at hx
    · exact absurd .root (hno 0)
  · rw [absolutePath, if_neg hnil] at hlen ⊢
    have hp : PathOk stack := ⟨hnil, fun c hc => (hstack c hc).2, hlen⟩
    have hwalks := fun n => walks_iff_pathTo (n := n) ht fun c hc => (hstack c hc).1
    simpa only [hwalks] using sysChdir_walks hs ht.ok hmem hp

/-- Where `cd` is to go. -/
def argTarget (cwd : List Str) : List Str → List Str
  | [] => []
  | path :: _ => cdTarget cwd path

/-- `cd` went to the directory with the path `target`, or it printed that there is none. -/
structure CdRight (s : State) (target : List Str) (r : Built) (t : State) : Prop where
  goes : ∀ n, s.PathTo target n → s.Moved n t ∧ r.done = true ∧
    r.finalPath.Holds 0 (absolutePath target) ∧ r.out = []
  stays : (∀ n, ¬s.PathTo target n) → s.Moved s.cur.cwdInodeNr t ∧ r.done = false ∧
    r.out = [.printf "cd: no such directory %s\n" [absolutePath target]]

/-- A path leads to one inode. -/
theorem State.PathTo.inodeNr_unique (h : s.PathTo names n) (ht : s.DirTree)
    (hm : s.PathTo names m) : m = n :=
  hm.walks.unique ht.ok (fun c hc => (h.nameOk ht c hc).ne) .root h.walks

theorem argTarget_ok (ht : s.DirTree) (h : s.PathTo cwd n) {args : List Str}
    (hargs : args.length ≤ 1) (hfits : ∀ path, args = [path] → PathFits cwd path) :
    (∀ c ∈ argTarget cwd args, IsKept c ∧ NameOk c) ∧
      (absolutePath (argTarget cwd args)).length < maxPathLen := by
  cases args with
  | nil => exact ⟨by simp [argTarget], show [slash].length < maxPathLen by decide⟩
  | cons path rest =>
      obtain rfl : rest = [] := by simpa using hargs
      exact cdTarget_ok (h.kept ht) (hfits path rfl)

/-- `buildin_cd` behind the new path. -/
theorem chdirFinal_returns (ht : s.DirTree) {target : List Str} {b : Buf}
    (htarget : ∀ c ∈ target, IsKept c ∧ NameOk c) (hlen : (absolutePath target).length < maxPathLen)
    (hmoved : s.Moved s.cur.cwdInodeNr t) (hb : b.Holds 0 (absolutePath target)) :
    Returns (chdirFinal b) t (CdRight s target) := by
  have hread : readStr b b.size 0 = .ok (absolutePath target) :=
    readStr_eq hb.str hb.size (Nat.lt_of_le_of_lt (Nat.le_add_left _ _) hb.size)
  unfold chdirFinal
  rw [Returns, Wp.bind]
  refine Wp.lift_ok hread ?_
  rw [Wp.bind]
  refine (sysChdir_absolute hmoved.searchable (hmoved.tree.dirTree ht) hmoved.supply htarget
    hlen).call fun x u hx => ?_
  by_cases hthere : ∃ n, s.PathTo target n
  · obtain ⟨n, hn⟩ := hthere
    obtain ⟨rfl, hu⟩ := hx.1 n (hmoved.tree.pathTo hn)
    rw [if_neg (by decide), Wp.pure]
    refine ⟨fun m hm => ?_, fun hno => absurd hn (hno n)⟩
    rw [hn.inodeNr_unique ht hm]
    exact ⟨hmoved.trans hu, rfl, hb, rfl⟩
  · have hno : ∀ n, ¬s.PathTo target n := fun n hn => hthere ⟨n, hn⟩
    obtain ⟨rfl, hu⟩ := hx.2 fun n hn => hno n (hmoved.tree.symm.pathTo hn)
    rw [if_pos rfl, Wp.pure]
    refine ⟨fun n hn => absurd hn (hno n), fun _ => ⟨?_, rfl, rfl⟩⟩
    have hback := hmoved.trans hu
    rwa [hmoved.cur] at hback

theorem buildinCd_returns (hs : s.Searchable) (ht : s.DirTree) (hmem : ∀ m, s.supply m = true)
    (h : s.PathTo cwd s.cur.cwdInodeNr) {args : List Str} (hargs : args.length ≤ 1)
    (hfits : ∀ path, args = [path] → PathFits cwd path) {finalPath : Buf}
    (hfinal : maxPathLen ≤ finalPath.size) :
    Returns (buildinCd args finalPath) s (CdRight s (argTarget cwd args)) := by
  obtain ⟨htarget, hlen⟩ := argTarget_ok ht h hargs hfits
  unfold buildinCd
  rw [if_neg (Nat.not_lt.mpr hargs), Returns, Wp.bind]
  cases args with
  | nil =>
      obtain ⟨b, b', hb, hb', hnew⟩ := (newPath_root hfinal).1
      rw [cdFinalPath, Wp.bind]
      refine Wp.lift_ok hb (Wp.lift_ok hb' ?_)
      exact chdirFinal_returns ht htarget hlen (.refl hs hmem) hnew.holds
  | cons path rest =>
      obtain rfl : rest = [] := by simpa using hargs
      refine (makeClearAbsPath_returns hs ht hmem h (hfits path rfl) hfinal).call fun b t hb => ?_
      exact chdirFinal_returns ht htarget hlen hb.2 hb.1

theorem buildinPwd_returns (hs : s.Searchable) (ht : s.DirTree) (hmem : ∀ m, s.supply m = true)
    (h : s.PathTo cwd s.cur.cwdInodeNr) (hlen : (absolutePath cwd).length < maxPathLen)
    (args : List Str) (finalPath : Buf) :
    Returns (buildinPwd args finalPath) s fun r t => s.Moved s.cur.cwdInodeNr t ∧
      r.out = [if args = [] then .printf "%s\n" [absolutePath cwd]
        else .printf "pwd: no argument support!\n" []] := by
  unfold buildinPwd
  cases args with
  | cons arg args =>
      rw [if_pos (by simp), Returns, Wp.pure]
      exact ⟨.refl hs hmem, rfl⟩
  | nil =>
      rw [if_neg (by simp), Returns, Wp.bind]
      refine (getcwdZero_returns hs ht hmem h hlen).call fun r t hr => ?_
      obtain ⟨⟨b, rfl, hb, -⟩, hmoved⟩ := hr
      have hread : readStr b b.size 0 = .ok (absolutePath cwd) :=
        readStr_eq hb.str hb.size (Nat.lt_of_le_of_lt (Nat.le_add_left _ _) hb.size)
      show Wp (StateT.lift (readStr b b.size 0) >>= _) t _ _
      rw [Wp.bind]
      exact Wp.lift_ok hread ⟨hmoved, rfl⟩

end

/-! ## Rounds of the shell -/

/-- The directories are a tree, memory is granted, and `cwd_cache` is the path of the working
directory. -/
structure Shell.Right (σ : Shell) : Prop where
  searchable : σ.fs.Searchable
  tree : σ.fs.DirTree
  supply : ∀ m, σ.fs.supply m = true
  size : σ.cwdCache.size = maxPathLen
  shows : ∃ cwd, σ.fs.PathTo cwd σ.fs.cur.cwdInodeNr ∧ σ.cwdCache.Holds 0 (absolutePath cwd)

/-- The path that `cd` is given fits in the arrays it is put into. -/
def ShellCmd.Fits (σ : Shell) : ShellCmd → Prop
  | .cd [path] => ∀ cwd, σ.fs.PathTo cwd σ.fs.cur.cwdInodeNr → PathFits cwd path
  | _ => True

/-- What a round does in the directory with the path `cwd`. -/
def RoundRight (σ : Shell) (cwd : List Str) : ShellCmd → Shell → Prop
  | .cd args, τ =>
      if args.length ≤ 1 then
        (∀ n, σ.fs.PathTo (argTarget cwd args) n → σ.fs.Moved n τ.fs ∧
          τ.cwdCache.Holds 0 (absolutePath (argTarget cwd args)) ∧
          τ.out = σ.out ++ [printPrompt (absolutePath cwd)]) ∧
        ((∀ n, ¬σ.fs.PathTo (argTarget cwd args) n) →
          σ.fs.Moved σ.fs.cur.cwdInodeNr τ.fs ∧ τ.cwdCache = σ.cwdCache ∧
          τ.out = σ.out ++ [printPrompt (absolutePath cwd),
            .printf "cd: no such directory %s\n" [absolutePath (argTarget cwd args)]])
      else σ.fs.Moved σ.fs.cur.cwdInodeNr τ.fs ∧ τ.cwdCache = σ.cwdCache ∧
        τ.out = σ.out ++ [printPrompt (absolutePath cwd),
          .printf "cd: only support 1 argument!\n" []]
  | .pwd args, τ => σ.fs.Moved σ.fs.cur.cwdInodeNr τ.fs ∧ τ.cwdCache = σ.cwdCache ∧
      τ.out = σ.out ++ [printPrompt (absolutePath cwd),
        if args = [] then .printf "%s\n" [absolutePath cwd]
        else .printf "pwd: no argument support!\n" []]

section

variable {σ τ : Shell} {cwd : List Str} {n : UInt32}

theorem Shell.Right.holds (h : σ.Right) (hcwd : σ.fs.PathTo cwd σ.fs.cur.cwdInodeNr) :
    σ.cwdCache.Holds 0 (absolutePath cwd) ∧ (absolutePath cwd).length < maxPathLen := by
  obtain ⟨cwd', hcwd', hholds⟩ := h.shows
  rw [hcwd'.unique h.tree hcwd] at hholds
  have hlen := hholds.size
  rw [h.size, Nat.zero_add] at hlen
  exact ⟨hholds, hlen⟩

/-- Behind a round that leaves a path of where the shell went. -/
theorem Shell.Right.moved (h : σ.Right) (hmoved : σ.fs.Moved n τ.fs)
    (hcwd : σ.fs.PathTo cwd n) (hsize : τ.cwdCache.size = maxPathLen)
    (hholds : τ.cwdCache.Holds 0 (absolutePath cwd)) : τ.Right where
  searchable := hmoved.searchable
  tree := hmoved.tree.dirTree h.tree
  supply := hmoved.supply
  size := hsize
  shows := by
    refine ⟨cwd, ?_, hholds⟩
    rw [hmoved.cur]
    exact hmoved.tree.pathTo hcwd

/-- A round in which the shell stays where it is. -/
theorem Shell.Right.stays (h : σ.Right) (hmoved : σ.fs.Moved σ.fs.cur.cwdInodeNr τ.fs)
    (hsame : τ.cwdCache = σ.cwdCache) : τ.Right := by
  obtain ⟨cwd, hcwd, hholds⟩ := h.shows
  exact h.moved hmoved hcwd (hsame ▸ h.size) (hsame ▸ hholds)

theorem shellStep_of_returns {c : ShellCmd} {Q : Shell → Prop}
    (h : Returns (shellRound σ.cwdCache c) σ.fs fun r t => Q ⟨t, r.1, σ.out ++ r.2⟩) :
    ∃ τ, shellStep σ c = .ok τ ∧ Q τ := by
  obtain ⟨r, t, hrun, hq⟩ := returns_iff.mp h
  refine ⟨_, ?_, hq⟩
  unfold shellStep
  rw [hrun]
  rfl

/-- A round does what it should, and the shell is right behind it. -/
theorem shellStep_right (h : σ.Right) (hcwd : σ.fs.PathTo cwd σ.fs.cur.cwdInodeNr)
    {c : ShellCmd} (hc : c.Fits σ) :
    ∃ τ, shellStep σ c = .ok τ ∧ τ.Right ∧ RoundRight σ cwd c τ := by
  obtain ⟨hholds, hlen⟩ := h.holds hcwd
  have hread : readStr σ.cwdCache σ.cwdCache.size 0 = .ok (absolutePath cwd) :=
    readStr_eq hholds.str hholds.size (Nat.lt_of_le_of_lt (Nat.le_add_left _ _) hholds.size)
  refine shellStep_of_returns ?_
  unfold shellRound
  rw [Returns, Wp.bind]
  refine Wp.lift_ok hread ?_
  cases c with
  | pwd args =>
      show Wp (buildinPwd args _ >>= _) σ.fs _ _
      rw [Wp.bind]
      refine (buildinPwd_returns h.searchable h.tree h.supply hcwd hlen args _).call
        fun r t hr => ?_
      rw [Wp.pure, hr.2]
      exact ⟨h.stays hr.1 rfl, hr.1, rfl, rfl⟩
  | cd args =>
      show Wp (buildinCd args _ >>= _) σ.fs _ _
      rw [Wp.bind]
      by_cases hargs : args.length ≤ 1
      · have hfits : ∀ path, args = [path] → PathFits cwd path := by
          intro path hpath
          rw [hpath] at hc
          exact hc cwd hcwd
        refine (buildinCd_returns h.searchable h.tree h.supply hcwd hargs hfits
          (Nat.le_refl maxPathLen)).call fun r t hr => ?_
        by_cases hthere : ∃ n, σ.fs.PathTo (argTarget cwd args) n
        · obtain ⟨n, hn⟩ := hthere
          obtain ⟨hmoved, hdone, hfinal, hout⟩ := hr.goes n hn
          have hempty : (Buf.zero maxPathLen).Holds 0 [] := ⟨rfl, by decide⟩
          obtain ⟨-, htarget⟩ := argTarget_ok h.tree hcwd hargs hfits
          obtain ⟨b, hput, hb, hsize⟩ := hempty.put_append hfinal.not_mem
            (by simpa [Buf.zero] using htarget)
          rw [if_pos hdone, Wp.bind]
          refine Wp.lift_ok ((strcpy_eq hfinal).trans hput) ?_
          rw [Wp.pure, hout]
          refine ⟨h.moved hmoved hn hsize hb, ?_⟩
          rw [RoundRight, if_pos hargs]
          refine ⟨fun m hm => ?_, fun hno => absurd hn (hno n)⟩
          rw [hn.inodeNr_unique h.tree hm]
          exact ⟨hmoved, hb, rfl⟩
        · have hno : ∀ n, ¬σ.fs.PathTo (argTarget cwd args) n := fun n hn => hthere ⟨n, hn⟩
          obtain ⟨hmoved, hdone, hout⟩ := hr.stays hno
          rw [if_neg (by simp [hdone]), Wp.pure, hout]
          refine ⟨h.stays hmoved rfl, ?_⟩
          rw [RoundRight, if_pos hargs]
          exact ⟨fun n hn => absurd hn (hno n), fun _ => ⟨hmoved, rfl, rfl⟩⟩
      · have hmoved := State.Moved.refl h.searchable h.supply
        unfold buildinCd
        rw [if_pos (Nat.lt_of_not_le hargs), Wp.pure, if_neg (by simp), Wp.pure]
        refine ⟨h.stays hmoved rfl, ?_⟩
        rw [RoundRight, if_neg hargs]
        exact ⟨hmoved, rfl, rfl⟩

end

/-! ## Runs of the shell -/

/-- A process that `my_shell` can start in: in the root directory of a tree, with memory granted. -/
structure State.ShellReady (s : State) : Prop where
  searchable : s.Searchable
  tree : s.DirTree
  supply : ∀ m, s.supply m = true
  root : s.cur.cwdInodeNr = 0

/-- As `my_shell` starts, with `/` in `cwd_cache`. -/
def shellStart (s : State) : Shell := ⟨s, ⟨maxPathLen, fun k => if k = 0 then slash else 0⟩, []⟩

/-- The directory from which a path is walked, and the names on it. -/
def Shell.walkStart (σ : Shell) (path : Str) : UInt32 :=
  if path.head? = some slash then 0 else σ.fs.cur.cwdInodeNr

def walkNames (path : Str) : List Str :=
  parsedNames (if path.head? = some slash then path.tail else path)

section

variable {σ τ : Shell} {cwd : List Str} {path : Str} {n : UInt32} {c : ShellCmd}

theorem State.ShellReady.right {s : State} (h : s.ShellReady) : (shellStart s).Right where
  searchable := h.searchable
  tree := h.tree
  supply := h.supply
  size := rfl
  shows := by
    refine ⟨[], ?_, ⟨⟨rfl, by decide, rfl⟩, show 0 + 1 < maxPathLen by decide⟩⟩
    show s.PathTo [] s.cur.cwdInodeNr
    rw [h.root]
    exact .root

/-- The first process finds what `filesys_init` made. -/
theorem State.NewFilesystem.shellReady {s : State} (h : s.NewFilesystem)
    (hmem : ∀ m, s.supply m = true) (hroot : s.cur.cwdInodeNr = 0) : s.ShellReady :=
  ⟨h.searchable, h.tree, hmem, hroot⟩

/-- No round changes a directory. -/
theorem RoundRight.tree (h : RoundRight σ cwd c τ) : σ.fs.SameTree τ.fs := by
  cases c with
  | pwd args => exact h.1.tree
  | cd args =>
      rw [RoundRight] at h
      by_cases hargs : args.length ≤ 1
      · rw [if_pos hargs] at h
        by_cases hthere : ∃ n, σ.fs.PathTo (argTarget cwd args) n
        · obtain ⟨n, hn⟩ := hthere
          exact (h.1 n hn).1.tree
        · exact (h.2 fun n hn => hthere ⟨n, hn⟩).1.tree
      · rw [if_neg hargs] at h
        exact h.1.tree

theorem right_of_run (h : σ.Right) (hrun : Reach shellStep (fun σ c => c.Fits σ) σ τ) :
    τ.Right ∧ σ.fs.SameTree τ.fs := by
  refine hrun.invariant (I := fun τ => τ.Right ∧ σ.fs.SameTree τ.fs) ⟨h, rfl, rfl, rfl⟩
    fun ρ c υ hρ hc hstep => ?_
  obtain ⟨cwd, hcwd, -⟩ := hρ.1.shows
  obtain ⟨υ', hstep', hright, hround⟩ := shellStep_right hρ.1 hcwd hc
  rw [hstep, Except.ok.injEq] at hstep'
  rw [hstep']
  have htree := hround.tree
  exact ⟨hright, htree.disk.trans hρ.2.disk, htree.inodes.trans hρ.2.inodes,
    htree.part.trans hρ.2.part⟩

/-- After any commands the prompt is the path of the working directory, and the next command does
what it should: `pwd` prints this path, and `cd` goes where the washed path leads or nowhere. -/
theorem prompt_right {s : State} (h : s.ShellReady)
    (hrun : Reach shellStep (fun σ c => c.Fits σ) (shellStart s) τ) :
    ∃ cwd, s.PathTo cwd τ.fs.cur.cwdInodeNr ∧ τ.cwdCache.Holds 0 (absolutePath cwd) ∧
      ∀ c : ShellCmd, c.Fits τ → ∃ υ, shellStep τ c = .ok υ ∧ RoundRight τ cwd c υ := by
  obtain ⟨hright, htree⟩ := right_of_run h.right hrun
  obtain ⟨cwd, hcwd, hholds⟩ := hright.shows
  refine ⟨cwd, htree.symm.pathTo hcwd, hholds, fun c hc => ?_⟩
  obtain ⟨υ, hstep, -, hround⟩ := shellStep_right hright hcwd hc
  exact ⟨υ, hstep, hround⟩

/-- When the names of a path lead to a directory by the entries on the disk, `cd` goes there. -/
theorem cd_follows (h : σ.Right) (hfits : (ShellCmd.cd [path]).Fits σ)
    (hwalks : σ.fs.Walks (σ.walkStart path) (walkNames path) n) :
    ∃ τ names, shellStep σ (.cd [path]) = .ok τ ∧ τ.fs.cur.cwdInodeNr = n ∧
      σ.fs.PathTo names n ∧ τ.cwdCache.Holds 0 (absolutePath names) := by
  obtain ⟨cwd, hcwd, -⟩ := h.shows
  have hnames : ∀ c ∈ walkNames path, c ≠ [] := fun c hc => by
    simpa using List.mem_takeWhile_imp hc
  have htarget : σ.fs.PathTo (cdTarget cwd path) n := by
    unfold cdTarget washStack
    unfold Shell.walkStart at hwalks
    by_cases habs : path.head? = some slash
    · rw [if_pos habs] at hwalks
      rw [pathNames_absolute habs]
      rw [walkNames, if_pos habs] at hwalks hnames
      exact State.PathTo.root.wash h.tree hnames hwalks
    · rw [if_neg habs] at hwalks
      rw [pathNames_relative (hcwd.nameOk h.tree) habs, List.foldl_append,
        foldl_washStep_append (hcwd.kept h.tree), List.nil_append]
      rw [walkNames, if_neg habs] at hwalks hnames
      exact hcwd.wash h.tree hnames hwalks
  obtain ⟨τ, hstep, -, hround⟩ := shellStep_right h hcwd hfits
  obtain ⟨hmoved, hholds, -⟩ := hround.1 n htarget
  refine ⟨τ, cdTarget cwd path, hstep, ?_, htarget, hholds⟩
  rw [hmoved.cur]

end

/-! ## A shell in the root directory -/

def subShell : Shell := shellStart subState

theorem subState_shellReady : subState.ShellReady where
  searchable :=
    have h := cwdState_searchable
    ⟨h.mounted, h.fresh, h.opened, h.root⟩
  tree := subState_dirTree
  supply _ := rfl
  root := rfl

theorem subShell_fits {path : Str} (h : PathFits [] path) : (ShellCmd.cd [path]).Fits subShell := by
  intro cwd hcwd
  rw [hcwd.unique subState_dirTree .root]
  exact h

/-- After `cd d` the prompt is `/d`. -/
theorem prompt_right_sub : ∃ τ : Shell, τ.fs.cur.cwdInodeNr = 1 ∧
    ∃ cwd, subState.PathTo cwd τ.fs.cur.cwdInodeNr ∧ τ.cwdCache.Holds 0 (absolutePath cwd) ∧
      ∀ c : ShellCmd, c.Fits τ → ∃ υ, shellStep τ c = .ok υ ∧ RoundRight τ cwd c υ := by
  have hfits : (ShellCmd.cd [[100]]).Fits subShell :=
    subShell_fits ⟨by decide, by decide, by decide⟩
  have hroot : subShell.fs.PathTo [] subShell.fs.cur.cwdInodeNr := .root
  obtain ⟨τ, hstep, -, hround⟩ := shellStep_right subState_shellReady.right hroot hfits
  obtain ⟨hmoved, -⟩ := hround.1 1 subState_path
  refine ⟨τ, by rw [hmoved.cur], prompt_right subState_shellReady (.single ⟨_, hfits, hstep⟩)⟩

/-- `cd d/..` stays in the root directory. -/
theorem cd_follows_up : ∃ τ names, shellStep subShell (.cd [[100, slash, dot, dot]]) = .ok τ ∧
    τ.fs.cur.cwdInodeNr = 0 ∧ subState.PathTo names 0 ∧
    τ.cwdCache.Holds 0 (absolutePath names) := by
  have hdown : subState.HasEntry 0 [100] (subRootEntry 2) :=
    subState_root.hasEntry_iff.mpr ⟨2, by decide, rfl, by decide⟩
  have hup : subState.HasEntry 1 [dot, dot] (subEntry 1) :=
    subState_sub.hasEntry_iff.mpr ⟨1, by decide, rfl, by decide⟩
  have hwalks : subState.Walks 0 [[100], [dot, dot]] 0 :=
    .cons hdown rfl (.cons hup rfl .nil)
  exact cd_follows subState_shellReady.right
    (subShell_fits ⟨by decide, by decide, by decide⟩) hwalks

end OsTruth
