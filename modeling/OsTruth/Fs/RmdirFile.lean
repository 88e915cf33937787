/-
`sys_rmdir` of a regular file.

The call does not look at the type that the search found.  It opens the file as a directory,
and a file of exactly two directory entries passes for an empty one.
-/
import OsTruth.Fs.DirCalls
import OsTruth.Fs.Getcwd
import OsTruth.Fs.OpenPath

namespace OsTruth

open ByteString Fallible

/-- The call returns -1 and leaves the disk, the bitmaps and the inodes as they were. -/
def RmdirRefused (s : State) (pathname : Str) : Prop :=
  Returns (sysRmdir pathname) s fun r t => r = -1 ∧ s.SameTree t

/-- How many requests `dir_open` makes for inode `m` while directory `n` is open. -/
def State.requestsBeside (s : State) (n m : UInt32) : Nat := if m = n then 1 else s.requests m

/-- Directory `n` is open in `t`, which has the tree of `s`. -/
structure State.Beside (s : State) (n : UInt32) (t : State) : Prop where
  searchable : t.Searchable
  content : ∀ m, (t.inodeNamed m).map Inode.content = (s.inodeNamed m).map Inode.content
  requests : ∀ m, t.requests m = s.requestsBeside n m
  sb : t.part.sb = s.part.sb

/-- `sysRmdir` behind the search. -/
def rmdirSearched (inodeNo : UInt32) (r : SearchRecord) : Kern Int := do
  kassert (inodeNo ≠ 0)
  if inodeNo = -1 then closeAndFail r.parentDir
  else rmdirFound inodeNo r.parentDir

theorem sysRmdir_eq (pathname : Str) :
    sysRmdir pathname = searchFile pathname >>= fun x => rmdirSearched x.1 x.2 := rfl

/-- After `r` requests, with directory `n` open, `sys_rmdir` refuses to remove file `m`. -/
def State.FileRefused (s : State) (r : Nat) (n m : UInt32) : Prop :=
  m ≠ 0 ∧ s.Granted r (s.requestsBeside n m) ∧ ∀ i, s.inodeNamed m = some i →
    i.iSize ≠ s.part.sb.dirEntrySize * 2 ∨
      (OsTruth.OneBlock i ∧ s.supply (r + s.requestsBeside n m) = false)

/-- `sys_rmdir` refuses to remove the regular file that the names lead to, from directory `n`
and after `r` requests. -/
def State.RmdirRefuses (s : State) : Nat → UInt32 → List Str → Prop
  | _, _, [] => True
  | r, n, name :: names =>
      s.supply r = false ∨ (s.supply (r + 1) = true ∧ ∀ e, s.HasEntry n name e →
        if names = [] then s.FileRefused (r + 2) n e.iNo
        else s.Granted (r + 2) (s.requests e.iNo) ∧
          s.RmdirRefuses (r + 2 + s.requests e.iNo) e.iNo names)

section

variable {s t : State} {n m : UInt32} {p : Ptr} {i j : Inode} {r : Nat} {d : DirPtr}

/-! ## A directory is opened -/

theorem content_openCnts (i : Inode) (k : Nat) :
    ({ i with iOpenCnts := k } : Inode).content = i.content := rfl

/-- The walk through the list depends on the numbers of the inodes only. -/
theorem firstOpen_congr {inodes inodes' : Ptr → Option Inode} (n : UInt32) : ∀ {l : List Ptr},
    (∀ p, p ∈ l → (inodes' p).map Inode.iNo = (inodes p).map Inode.iNo) →
      firstOpen inodes' n l = firstOpen inodes n l := by
  intro l
  induction l with
  | nil => exact fun _ => rfl
  | cons p rest ih =>
      intro h
      have hp := h p List.mem_cons_self
      have hrest := ih fun q hq => h q (List.mem_cons_of_mem p hq)
      unfold firstOpen
      rw [hrest]
      cases hi : inodes p with
      | none =>
          rw [hi, Option.map_none, Option.map_eq_none_iff] at hp
          rw [hp]
      | some i =>
          rw [hi, Option.map_some, Option.map_eq_some_iff] at hp
          obtain ⟨j, hj, hno⟩ := hp
          rw [hj]
          simp only [hno]

theorem State.Beside.after (h : s.Beside n t) (j : Nat) {k : Nat} (hk : t.next ≤ k) :
    s.Beside n (t.after j k) :=
  ⟨h.searchable.after j hk, h.content, h.requests, h.sb⟩

theorem State.Searchable.beside_root (hs : s.Searchable) : s.Beside 0 s where
  searchable := hs
  content _ := rfl
  requests m := by
    unfold State.requestsBeside
    by_cases hm : m = 0
    · obtain ⟨p, -, hfirst⟩ := hs.root
      rw [if_pos hm, hm, State.requests, hfirst]
    · rw [if_neg hm]
  sb := rfl

/-- The directory of an inode that is open already. -/
theorem State.Searchable.beside_again (hs : s.Searchable)
    (hfirst : firstOpen s.inodes n s.part.openInodes = .ok (some p)) (hi : s.inodes p = some i) :
    s.Beside n ((s.newDir.reopened p i).setDir s.fresh p) := by
  let t := (s.newDir.reopened p i).setDir s.fresh p
  have hinodes : ∀ q, t.inodes q =
      if q = p then some { i with iOpenCnts := i.iOpenCnts + 1 } else s.inodes q := fun q => rfl
  have hcontent : ∀ q, (t.inodes q).map Inode.content = (s.inodes q).map Inode.content := by
    intro q
    rw [hinodes]
    by_cases hq : q = p
    · rw [if_pos hq, hq, hi]
      rfl
    · rw [if_neg hq]
  have hwalk : ∀ m, firstOpen t.inodes m t.part.openInodes =
      firstOpen s.inodes m s.part.openInodes := by
    intro m
    refine firstOpen_congr m fun q _ => ?_
    have hq := congrArg (Option.map Prod.fst) (hcontent q)
    rw [Option.map_map, Option.map_map] at hq
    exact hq
  refine ⟨⟨hs.mounted, fun q hq => ?_, fun q hq => ?_, ?_⟩, fun m => ?_, fun m => ?_, rfl⟩
  · have hlt : s.next < q.id := hq
    have hold := hs.fresh q (Nat.le_of_lt hlt)
    refine ⟨?_, ?_⟩
    · rw [hinodes, if_neg]
      · exact hold.1
      · intro hqp
        rw [hqp, hi] at hold
        cases hold.1
    · have hne : q ≠ s.fresh := by
        intro heq
        rw [heq] at hlt
        exact Nat.lt_irrefl _ hlt
      show (if q = s.fresh then _ else if q = s.fresh then _ else s.dirs q) = none
      rw [if_neg hne, if_neg hne]
      exact hold.2
  · obtain ⟨j, hj, hcnt⟩ := hs.opened q hq
    rw [hinodes]
    by_cases hqp : q = p
    · exact ⟨_, if_pos hqp, Nat.succ_ne_zero _⟩
    · exact ⟨j, (if_neg hqp).trans hj, hcnt⟩
  · obtain ⟨q, hq, hroot⟩ := hs.root
    exact ⟨q, hq, (hwalk 0).trans hroot⟩
  · have hnamed : ∀ w, firstOpen s.inodes m s.part.openInodes = w →
        (t.inodeNamed m).map Inode.content = (s.inodeNamed m).map Inode.content := by
      intro w hw
      unfold State.inodeNamed
      rw [hwalk, hw]
      cases w with
      | error e => rfl
      | ok q =>
          cases q with
          | none => rfl
          | some q => exact hcontent q
    exact hnamed _ rfl
  · unfold State.requestsBeside State.requests
    rw [hwalk]
    by_cases hm : m = n
    · rw [if_pos hm, hm, hfirst]
    · rw [if_neg hm]

/-- The directory of an inode that is read from disk and has its own number. -/
theorem State.Searchable.beside_first (hs : s.Searchable)
    (hfirst : firstOpen s.inodes n s.part.openInodes = .ok none)
    (hno : (readSlot s.part s.disk n).iNo = n) :
    s.Beside n ((s.newDir.loaded n).setDir s.fresh ⟨false, s.newDir.next⟩) := by
  let t := (s.newDir.loaded n).setDir s.fresh ⟨false, s.newDir.next⟩
  let q₀ : Ptr := ⟨false, s.next + 1⟩
  have hnew : s.inodes q₀ = none := (hs.fresh q₀ (Nat.le_succ _)).1
  have hinodes : ∀ q, t.inodes q =
      if q = q₀ then some { readSlot s.part s.disk n with iOpenCnts := 1 } else s.inodes q :=
    fun q => rfl
  have hold : ∀ q, q ∈ s.part.openInodes → t.inodes q = s.inodes q := by
    intro q hq
    rw [hinodes, if_neg]
    intro heq
    obtain ⟨j, hj, -⟩ := hs.opened q hq
    rw [heq, hnew] at hj
    cases hj
  have hwalk : ∀ m, firstOpen t.inodes m t.part.openInodes =
      if m = n then .ok (some q₀) else firstOpen s.inodes m s.part.openInodes := by
    intro m
    have hrest := firstOpen_congr m (l := s.part.openInodes) fun q hq =>
      congrArg (Option.map Inode.iNo) (hold q hq)
    have hhead : t.inodes q₀ = some { readSlot s.part s.disk n with iOpenCnts := 1 } := if_pos rfl
    show firstOpen t.inodes m (q₀ :: s.part.openInodes) = _
    rw [firstOpen, hhead, hrest]
    simp only [hno, eq_comm]
  refine ⟨⟨{ hs.mounted with }, fun q hq => ?_, fun q hq => ?_, ?_⟩, fun m => ?_, fun m => ?_, rfl⟩
  · have hlt : s.next + 3 ≤ q.id := hq
    have hfree := hs.fresh q (by omega)
    refine ⟨?_, ?_⟩
    · rw [hinodes, if_neg]
      · exact hfree.1
      · intro heq
        rw [heq] at hlt
        exact absurd hlt (by show ¬s.next + 3 ≤ s.next + 1; omega)
    · have hne : q ≠ s.fresh := by
        intro heq
        rw [heq] at hlt
        exact absurd hlt (by show ¬s.next + 3 ≤ s.next; omega)
      show (if q = s.fresh then _ else if q = s.fresh then _ else s.dirs q) = none
      rw [if_neg hne, if_neg hne]
      exact hfree.2
  · rcases List.mem_cons.mp hq with heq | hq
    · exact ⟨_, (hinodes q).trans (if_pos heq), Nat.one_ne_zero⟩
    · rw [hold q hq]
      exact hs.opened q hq
  · obtain ⟨q, hq, hroot⟩ := hs.root
    refine ⟨q, hq, ?_⟩
    have hne : (0 : UInt32) ≠ n := by
      intro heq
      rw [heq, hfirst] at hroot
      cases hroot
    rw [hwalk, if_neg hne]
    exact hroot
  · by_cases hm : m = n
    · have hthere : t.inodeNamed m = some { readSlot s.part s.disk n with iOpenCnts := 1 } := by
        unfold State.inodeNamed
        rw [hwalk, if_pos hm]
        exact if_pos rfl
      have hhere : s.inodeNamed m = some (readSlot s.part s.disk n) := by
        unfold State.inodeNamed
        rw [hm, hfirst]
      rw [hthere, hhere, Option.map_some, Option.map_some, content_openCnts]
    · have hthere : t.inodeNamed m = s.inodeNamed m := by
        unfold State.inodeNamed
        rw [hwalk, if_neg hm]
        cases hw : firstOpen s.inodes m s.part.openInodes with
        | error e => rfl
        | ok w =>
            cases w with
            | none => rfl
            | some q => exact hold q (firstOpen_some hw).1
      rw [hthere]
  · unfold State.requestsBeside State.requests
    rw [hwalk]
    by_cases hm : m = n
    · rw [if_pos hm, if_pos hm]
    · rw [if_neg hm, if_neg hm]

/-- What `dir_open` leaves when its requests are granted. -/
structure State.Opens (s : State) (n : UInt32) (d : DirPtr) (t : State) : Prop where
  here : s.At (s.requests n) n d t
  inode : ∃ p i j, t.inodeOf d = some p ∧ t.inodes p = some i ∧ s.inodeNamed n = some j ∧
    i.content = j.content
  sb : t.part.sb = s.part.sb
  beside : s.DirectoryOk n → s.Beside n t

theorem State.Searchable.dirOpen_opens (hs : s.Searchable) (hn : n < 4096) :
    ∃ t, s.Opens n (.heap s.fresh) t ∧ ∀ Q : DirPtr → State → Prop,
      Returns (dirOpen n) s Q ↔ s.Granted 0 (s.requests n) ∧ Q (.heap s.fresh) t := by
  obtain ⟨t, ht, hopen⟩ := hs.dirOpen_cases hn
  refine ⟨t, ?_, hopen⟩
  have hinode : ∀ (u : State) (p : Ptr), (u.setDir s.fresh p).inodeOf (.heap s.fresh) = some p := by
    intro u p
    show Option.bind (if s.fresh = s.fresh then _ else _) _ = _
    rw [if_pos rfl]
    rfl
  rcases ht with ⟨p, i, hfirst, hi, rfl⟩ | ⟨hfirst, rfl⟩
  · have hreq : s.requests n = 1 := by rw [State.requests, hfirst]
    refine ⟨?_, ⟨p, _, i, hinode _ p, if_pos rfl, ?_, content_openCnts i _⟩, rfl,
      fun _ => hs.beside_again hfirst hi⟩
    · rw [hreq]
      exact hs.at_again hfirst hi
    · rw [State.inodeNamed, hfirst]
      exact hi
  · have hreq : s.requests n = 3 := by rw [State.requests, hfirst]
    have hnamed : s.inodeNamed n = some (readSlot s.part s.disk n) := by
      rw [State.inodeNamed, hfirst]
    refine ⟨?_, ⟨_, _, _, hinode _ _, if_pos rfl, hnamed, content_openCnts _ 1⟩, rfl,
      fun hdir => hs.beside_first hfirst ?_⟩
    · rw [hreq]
      exact hs.at_first hfirst
    · obtain ⟨i, hi, hno, -⟩ := hdir.inode
      rw [hnamed, Option.some.injEq] at hi
      rw [hi]
      exact hno

/-- The same in the middle of a search. -/
theorem State.Searchable.dirOpen_beside (hs : s.Searchable) (hdir : s.DirectoryOk n) (j : Nat)
    {k : Nat} (hk : s.next ≤ k) : ∃ d t, s.At (j + s.requests n) n d t ∧ s.Beside n t ∧
      ∀ Q : DirPtr → State → Prop,
        Returns (dirOpen n) (s.after j k) Q ↔ s.Granted j (s.requests n) ∧ Q d t := by
  have hdir' : (s.after j k).DirectoryOk n := ⟨hdir.number, hdir.inode, hdir.slot, hdir.unique⟩
  obtain ⟨t, hopens, hopen⟩ := (hs.after j hk).dirOpen_opens hdir.number
  have hbeside := hopens.beside hdir'
  refine ⟨_, t, hopens.here.of_after hk, ⟨hbeside.searchable, hbeside.content, hbeside.requests,
    hbeside.sb⟩, fun Q => (hopen Q).trans (and_congr_left fun _ => ?_)⟩
  refine forall_congr' fun m => forall_congr' fun _ => ?_
  show s.supply (0 + m + j) = true ↔ _
  rw [Nat.zero_add, Nat.add_comm]

/-! ## Behind the search -/

/-- With memory for its buffer, `dir_remove` reports success. -/
theorem dirRemove_zero (parentDir childDir : DirPtr) (hmem : s.supply 0 = true) :
    Ensures (dirRemove parentDir childDir) s fun x _ => x = 0 := by
  unfold dirRemove
  rw [Ensures, Wp.bind]
  refine (dirInode_same childDir s).call fun q t ht => ?_
  rw [Wp.bind]
  refine (loadInode_same q t).call fun i u hu => ?_
  rw [Wp.bind, wp_kassert]
  refine ⟨fun _ => ?_, fun _ => True.intro⟩
  rw [← hu, ← ht, Wp.bind, wp_sysMallocBuf, hmem]
  refine ⟨fun _ => ?_, fun hnone => Bool.noConfusion hnone⟩
  rw [Wp.bind]
  refine Wp.trivial.call fun _ _ _ => ?_
  rw [Wp.bind]
  refine Wp.trivial.call fun _ _ _ => ?_
  rw [Wp.bind]
  refine Wp.trivial.call fun _ _ _ => ?_
  rw [Wp.bind]
  exact Wp.trivial.call fun _ _ _ => rfl

/-- Closing the child and its parent gives back the state before the search. -/
theorem rmdirClose_iff {child : DirPtr} {u : State} {k : Nat} {x : Int} (hat : s.At r n d t)
    (hchild : t.At k m child u) (j : Nat) :
    Returns (rmdirClose child d x) (u.after j u.next) (fun x v => x = -1 ∧ s.SameTree v) ↔ x = -1 := by
  rw [Returns, rmdirClose, Wp.bind, hchild.close j u.next (Nat.le_refl _), Wp.bind,
    hat.close (k + j) u.next hchild.next, Wp.pure]
  exact and_iff_left ⟨rfl, rfl, rfl⟩

theorem rmdirOpened_iff {child : DirPtr} {u : State} {k : Nat} (hat : s.At r n d t)
    (hchild : t.At k m child u) (hsb : u.part.sb = s.part.sb)
    (hi : ∃ q j, u.inodeOf child = some q ∧ u.inodes q = some j ∧ j.content = i.content) :
    Returns (rmdirOpened child d) u (fun x v => x = -1 ∧ s.SameTree v) ↔
      (i.iSize ≠ s.part.sb.dirEntrySize * 2 ∨ (OneBlock i ∧ s.supply (r + k) = false)) := by
  obtain ⟨q, j, hq, hj, hcontent⟩ := hi
  have hsize : j.iSize = i.iSize := congrArg (fun c => c.2.1) hcontent
  have hsectors : j.iSectors = i.iSectors := congrArg (fun c => c.2.2) hcontent
  have hone : OneBlock j ↔ OneBlock i := by
    unfold OneBlock Inode.sector
    rw [hsectors]
  have hsupply : u.supply 0 = s.supply (r + k) := by
    rw [hchild.supply, hat.supply, Nat.add_zero]
  unfold rmdirOpened dirIsEmpty
  rw [Returns, Wp.bind, Wp.bind, wp_dirInode_some hq, Wp.bind, wp_loadInode_some hj, Wp.bind,
    Wp.get, Wp.pure, hsize, hsb]
  by_cases hempty : i.iSize = s.part.sb.dirEntrySize * 2
  · refine Iff.trans ?_ (or_iff_right (not_not.mpr hempty)).symm
    rw [decide_eq_true hempty, if_pos rfl, ← hone]
    cases hmem : s.supply (r + k) with
    | true =>
        refine iff_of_false (fun h => ?_) fun h => Bool.noConfusion h.2
        rw [hmem] at hsupply
        have hzero : Ensures (do
            let x ← dirRemove d child
            rmdirClose child d (if x = 0 then 0 else -1)) u fun x _ => x = 0 := by
          rw [Ensures, Wp.bind]
          refine (dirRemove_zero d child hsupply).call fun x v hx => ?_
          rw [rmdirClose, Wp.bind]
          refine Wp.trivial.call fun _ _ _ => ?_
          rw [Wp.bind]
          exact Wp.trivial.call fun _ _ _ => if_pos hx
        obtain ⟨x, v, hrun, hx, -⟩ := returns_iff.mp h
        have hx0 := ensures_iff.mp hzero x v hrun
        omega
    | false =>
        refine Iff.trans ?_ (and_iff_left rfl).symm
        rw [hmem] at hsupply
        unfold dirRemove
        rw [Wp.bind, Wp.bind, wp_dirInode_some hq, Wp.bind, wp_loadInode_some hj, Wp.bind,
          wp_kassert]
        constructor
        · intro h
          by_contra hnot
          exact h.2 hnot
        · intro hblock
          refine ⟨fun _ => ?_, fun hnot => hnot hblock⟩
          rw [Wp.bind, wp_sysMallocBuf, hsupply]
          refine ⟨fun hsome => Bool.noConfusion hsome, fun _ => ?_⟩
          exact (rmdirClose_iff hat hchild 1).mpr rfl
  · rw [decide_eq_false hempty, if_neg Bool.false_ne_true]
    exact iff_of_true ((rmdirClose_iff hat hchild 0).mpr rfl) (Or.inl hempty)

theorem rmdirSearched_iff (hat : s.At r n d t) (hb : s.Beside n t) (hm : m < 4096)
    (path : Str) (type : FileType) :
    Returns (rmdirSearched m ⟨path, d, type⟩) t (fun x u => x = -1 ∧ s.SameTree u) ↔
      s.FileRefused r n m := by
  have hne : m ≠ -1 := by
    intro heq
    rw [heq] at hm
    exact absurd hm (by decide)
  unfold rmdirSearched State.FileRefused
  rw [Returns, Wp.bind, wp_kassert, if_neg hne]
  by_cases hm0 : m = 0
  · exact iff_of_false (fun h => h.2 (not_not.mpr hm0)) fun h => h.1 hm0
  · obtain ⟨u, hopens, hopen⟩ := hb.searchable.dirOpen_opens hm
    obtain ⟨q, j, j', hq, hj, hnamed, hcontent⟩ := hopens.inode
    have hsame := hb.content m
    rw [hnamed, Option.map_some] at hsame
    obtain ⟨i, hi, hij⟩ := Option.map_eq_some_iff.mp hsame.symm
    have hgranted : t.Granted 0 (t.requests m) ↔ s.Granted r (s.requestsBeside n m) := by
      rw [hb.requests]
      refine forall_congr' fun k => forall_congr' fun _ => ?_
      rw [hat.supply, Nat.zero_add]
    refine (and_iff_left fun h => h hm0).trans ((forall_prop_of_true hm0).trans ?_)
    refine Iff.trans ?_ (and_iff_right hm0).symm
    unfold rmdirFound
    rw [Wp.bind]
    refine (hopen _).trans (and_congr hgranted ?_)
    have hrest := rmdirOpened_iff (i := i) hat hopens.here (hopens.sb.trans hb.sb)
      ⟨q, j, hq, hj, hcontent.trans hij.symm⟩
    refine hrest.trans ?_
    rw [hb.requests]
    constructor
    · intro h i' hi'
      rw [hi, Option.some.injEq] at hi'
      rw [← hi']
      exact h
    · exact fun h => h i hi

/-! ## The search -/

/-- Behind a search with the given result the call refuses. -/
def State.Refusal (s : State) (x : UInt32 × SearchRecord) (t : State) : Prop :=
  Returns (rmdirSearched x.1 x.2) t fun y u => y = -1 ∧ s.SameTree u

theorem refusal_missing (hat : s.At r n d t) (path : Str) (j : Nat) :
    s.Refusal (-1, ⟨path, d, .unknown⟩) (t.after j t.next) := by
  unfold State.Refusal rmdirSearched closeAndFail
  rw [Returns, Wp.bind, wp_kassert]
  have hne : (-1 : UInt32) ≠ 0 := by decide
  refine ⟨fun _ => ?_, fun h => h hne⟩
  rw [if_pos rfl, Wp.bind, hat.close j t.next (Nat.le_refl _), Wp.pure]
  exact ⟨rfl, rfl, rfl, rfl⟩

variable {name : Str} {names : List Str} {e f : DirEntry}

/-- One round of the loop. -/
theorem searchLoop_rmdir_round (ht : s.TreeOk) (hn : s.IsDirectory n)
    (hnames : ∀ c, c ∈ name :: names → NameOk c) (hat : s.At r n d t) (he : s.HasEntry n name e)
    (left : Nat) (parent : UInt32) (dirE : Option DirEntry) (path : Str)
    (hlen : path.length + (joinPath (name :: names)).length < maxPathLen)
    (hfound : Returns (searchFound (fun d' n' name' subPath =>
        searchLoop left d' n' (some e) name' subPath (path ++ slash :: name)) d parent e
          (nextPath names) (path ++ slash :: name)) (t.after 2 (t.next + 2)) s.Refusal ↔
      if names = [] then s.FileRefused (r + 2) n e.iNo
      else s.Granted (r + 2) (s.requests e.iNo) ∧
        s.RmdirRefuses (r + 2 + s.requests e.iNo) e.iNo names) :
    Returns (searchLoop (left + 1) d parent dirE name (nextPath names) path) t s.Refusal ↔
      s.RmdirRefuses r n (name :: names) := by
  have hdir := ht.directory n hn
  have hname := hnames name List.mem_cons_self
  have hone : ∀ e', s.HasEntry n name e' → e' = e := fun e' he' => he'.unique hdir hname.ne he
  refine (searchLoop_succ ht hn hnames hat left parent dirE path hlen).trans ?_
  unfold State.RmdirRefuses
  cases s.supply r with
  | false => exact iff_of_true ⟨fun h => Bool.noConfusion h, fun _ => refusal_missing hat _ 1⟩ (Or.inl rfl)
  | true =>
      refine (and_iff_left fun h => Bool.noConfusion h).trans ((forall_prop_of_true rfl).trans ?_)
      refine Iff.trans ?_ (or_iff_right Bool.true_eq_false.mp).symm
      refine and_congr_right fun _ => ?_
      constructor
      · rintro ⟨-, h⟩ e' he'
        rw [hone e' he']
        exact hfound.mp (h e he)
      · refine fun h => ⟨fun hnone => absurd he (hnone e), fun e' he' => ?_⟩
        rw [hone e' he']
        exact hfound.mpr (h e he)

/-- The loop, from a name on that leads to a regular file. -/
theorem searchLoop_rmdir_iff (hs : s.Searchable) (ht : s.TreeOk)
    (hfile : f.fType = FileType.regular.code) (names : List Str) :
    ∀ (name : Str) (left r : Nat) (n parent : UInt32) (d : DirPtr) (t : State)
      (dirE : Option DirEntry) (path : Str), (∀ c, c ∈ name :: names → NameOk c) →
      s.IsDirectory n → names.length < left →
      path.length + (joinPath (name :: names)).length < maxPathLen → s.At r n d t → s.Beside n t →
      s.Resolves n (name :: names) m f →
        (Returns (searchLoop left d parent dirE name (nextPath names) path) t s.Refusal ↔
          s.RmdirRefuses r n (name :: names)) := by
  induction names with
  | nil =>
      intro name left r n parent d t dirE path hnames hn hleft hlen hat hb hres
      obtain ⟨left, rfl⟩ := Nat.exists_eq_add_one_of_ne_zero (Nat.ne_of_gt hleft)
      cases hres with
      | last he =>
          have hok := (he.ok (ht.directory _ hn) (hnames name List.mem_cons_self).ne).1
          refine searchLoop_rmdir_round ht hn hnames hat he left parent dirE path hlen ?_
          rw [if_pos rfl]
          refine (searchFound_regular (fun c hc => absurd hc List.not_mem_nil) hfile _ parent
            _).trans ?_
          exact rmdirSearched_iff (hat.after 2 (Nat.le_add_right t.next 2))
            (hb.after 2 (Nat.le_add_right t.next 2)) hok.number _ _
      | next he hdir hrest => cases hrest
  | cons name' names ih =>
      intro name left r n parent d t dirE path hnames hn hleft hlen hat hb hres
      obtain ⟨left, rfl⟩ := Nat.exists_eq_add_one_of_ne_zero (Nat.ne_zero_of_lt hleft)
      have hname := (hnames name List.mem_cons_self).ne
      have hrestNames : ∀ c, c ∈ name' :: names → NameOk c :=
        fun c hc => hnames c (List.mem_cons_of_mem name hc)
      obtain ⟨e, he, htype, hrest⟩ : ∃ e, s.HasEntry n name e ∧
          e.fType = FileType.directory.code ∧ s.Resolves e.iNo (name' :: names) m f := by
        cases hres with
        | next he htype hrest => exact ⟨_, he, htype, hrest⟩
      have hchild : s.IsDirectory e.iNo := .entry hn hname he htype
      have hat' := hat.after 2 (Nat.le_add_right t.next 2)
      obtain ⟨d', t', hat'', hb'', hopen⟩ :=
        hs.dirOpen_beside (ht.directory e.iNo hchild) (r + 2) hat'.next
      refine searchLoop_rmdir_round ht hn hnames hat he left parent dirE path hlen ?_
      rw [if_neg (List.cons_ne_nil name' names)]
      refine (searchFound_open (ht.directory n hn) hrestNames htype hat' hopen _ parent _
        _).trans (and_congr_right fun _ => ?_)
      refine ih name' left _ e.iNo n d' t' (some e) (path ++ slash :: name) hrestNames hchild
        (Nat.lt_of_succ_lt_succ hleft) ?_ hat'' hb'' hrest
      rw [joinPath_length] at hlen
      rw [List.length_append, List.length_cons]
      omega

/-! ## The whole call -/

/-- `sys_rmdir` refuses a regular file, and leaves everything as it was, exactly when the file
does not have the size of two entries, as long as the memory for the search is there. -/
theorem sysRmdir_file_iff (hs : s.Searchable) (ht : s.TreeOk) (hp : PathOk names)
    (hres : s.Resolves 0 names m f) (hfile : f.fType = FileType.regular.code) :
    RmdirRefused s (joinPath names) ↔ s.RmdirRefuses 0 0 names := by
  have hroot : ¬isRootName (joinPath names) := by
    intro h
    have hdots : ∀ name, name ≠ [] → names = [name] → (name = [dot] ∨ name = [dot, dot]) →
        False := by
      intro name hne hnames hname
      rw [hnames] at hres
      obtain ⟨e, he, -, hdir⟩ := ht.root name hname
      obtain ⟨-, hf⟩ := (resolves_last_iff (ht.directory 0 .root) hne he _ _).mp hres
      rw [hf, hdir] at hfile
      exact absurd hfile (by decide)
    rcases (isRootName_join hp).mp h with h | h
    · exact hdots [dot] (List.cons_ne_nil _ _) h (Or.inl rfl)
    · exact hdots [dot, dot] (List.cons_ne_nil _ _) h (Or.inr rfl)
  obtain ⟨name, rest, rfl⟩ := List.exists_cons_of_ne_nil hp.ne
  have hlen := joinPath_length name rest
  have hle := length_le_joinPath rest
  unfold RmdirRefused
  rw [sysRmdir_eq, Returns, Wp.bind]
  refine (searchFile_loop hp hroot).trans ?_
  exact searchLoop_rmdir_iff hs ht hfile rest name _ 0 0 0 .root s none [] hp.name .root (by omega)
    (by rw [List.length_nil, Nat.zero_add]; exact hp.short) hs.at_root hs.beside_root hres

theorem not_refused_of_run {pathname : Str} {x : Int}
    (hrun : ((sysRmdir pathname).run s).toOption.map (fun r => r.1) = some x) (hx : x ≠ -1) :
    ¬RmdirRefused s pathname := by
  intro h
  obtain ⟨y, t, hy, hneg, -⟩ := returns_iff.mp h
  rw [hy] at hrun
  have hyx : y = x := Option.some.inj hrun
  exact hx (hyx.symm.trans hneg)

/-- The empty file `f` is refused. -/
theorem sysRmdir_file_empty : RmdirRefused fileState (joinPath [[102]]) := by
  have hentry : fileState.HasEntry 0 [102] (fileEntry 2) :=
    fileState_root.hasEntry_iff.mpr ⟨2, by decide, rfl, by decide⟩
  refine (sysRmdir_file_iff fileState_searchable fileState_treeOk pathOk_file (.last hentry)
    rfl).mpr (Or.inr ⟨rfl, fun e he => ?_⟩)
  obtain rfl := he.unique (fileState_treeOk.directory 0 .root) (by decide) hentry
  refine (if_pos rfl).mpr ⟨by decide, fun _ _ => rfl, fun i hi => Or.inl ?_⟩
  have hempty : (fileState.inodeNamed 1).map Inode.iSize = some 0 := by decide +kernel
  rw [show (fileEntry 2).iNo = 1 from rfl] at hi
  rw [hi] at hempty
  rw [Option.some.inj hempty]
  decide

end

/-! ## A file of 48 bytes -/

def shortInode : Inode :=
  { Inode.zero with iNo := 1, iSize := freshPart.sb.dirEntrySize * 2 }.setSector 0
    (freshPart.sb.dataStartLba + 1)

def shortState : State :=
  { fileState with
    disk := splice fileState.disk (slotOff freshPart 1) inodeSize shortInode.bytes
    part := { freshPart with
      blockBitmap := freshPart.blockBitmap.set 1 true
      inodeBitmap := freshPart.inodeBitmap.set 1 true } }

theorem shortState_root : shortState.OneBlock 0 freshPart.sb.dataStartLba fileEntry where
  inode := fileState_root.inode
  slot j hj := by
    have hbytes : ∀ j, j < 21 → ∀ k, k < 24 →
        shortState.disk (slotPlace freshPart.sb.dataStartLba j + k) = (fileEntry j).bytes k := by
      decide +kernel
    exact blockSlot_of_bytes (hbytes j hj)
  lba := fileState_root.lba

/-- The path `/f` leads to a regular file, and `sys_rmdir` removes it. -/
theorem sysRmdir_removes_file : shortState.Searchable ∧ shortState.TreeOk ∧ PathOk [[102]] ∧
    shortState.Resolves 0 [[102]] 0 (fileEntry 2) ∧
    (fileEntry 2).fType = FileType.regular.code ∧
    ((sysRmdir (joinPath [[102]])).run shortState).toOption.map (fun r => r.1) = some 0 ∧
    ¬RmdirRefused shortState (joinPath [[102]]) := by
  have hrun : ((sysRmdir (joinPath [[102]])).run shortState).toOption.map (fun r => r.1) =
      some 0 := by
    decide +kernel
  have hmounted : shortState.part.Mounted := { freshPart_mounted with }
  refine ⟨{ fileState_searchable with mounted := hmounted }, fileEntry_treeOk shortState_root,
    pathOk_file,
    .last (shortState_root.hasEntry_iff.mpr ⟨2, by decide, rfl, by decide⟩), rfl, hrun,
    not_refused_of_run hrun (by decide)⟩

end OsTruth
