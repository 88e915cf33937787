/-
`sys_opendir` of `fs/fs.c` against `search_file`.

The function asserts that the path is shorter than a name, and takes every path that begins
with `/.` for the root directory.  For the other paths it opens what the search found, while
the parent of it is open, and closes the parent.
-/
import OsTruth.Fs.DirCalls
import OsTruth.Fs.OpenPath
import OsTruth.Fs.RmdirFile

namespace OsTruth

open ByteString Fallible

/-! ## What the call is to do -/

/-- The names lead from the root to directory `n`. -/
def State.LeadsTo (s : State) (names : List Str) (n : UInt32) : Prop :=
  names = [] ∧ n = 0 ∨
    ∃ d e, s.Resolves 0 names d e ∧ e.fType = FileType.directory.code ∧ e.iNo = n

/-- `search_file` resolved the path to a directory with number `n`. -/
def FoundDirectory (x : UInt32 × SearchRecord) (n : UInt32) : Prop :=
  x.1 ≠ -1 ∧ x.2.fileType = .directory ∧ x.1 = n

/-- `sys_opendir` returns a directory with number `n` exactly when `search_file` resolves the
path to one, and `NULL` when it resolves it to none. -/
def State.OpendirRight (s : State) (path : Str) : Prop :=
  ∃ x u, (searchFile path).run s = .ok (x, u) ∧ Returns (sysOpendir path) s fun r t =>
    (∀ n, (∃ d, r = some d ∧ t.DirOn d n) ↔ FoundDirectory x n) ∧
      ((∀ n, ¬FoundDirectory x n) → r = none)

section

variable {s t u : State} {n m : UInt32} {d : DirPtr} {p q : Ptr} {r : Nat} {i : Inode}

/-! ## Closing a directory under another -/

/-- A directory that can be closed is closed in its own heap. -/
theorem State.At.closable (hat : s.At r n (.heap q) t) : ∃ e p i, t.dirs q = some e ∧
    e.inode = some p ∧ t.inodes p = some i ∧ q.user = t.cur.pgdir ∧
      (i.iOpenCnts = 1 → p.user = false) := by
  obtain ⟨p, i, -, hp, hi, -⟩ := hat.inode
  obtain ⟨e, he, hep⟩ := Option.bind_eq_some_iff.mp hp
  have hclose : Returns (dirClose (.heap q)) t fun _ _ => True := hat.close_now.mpr True.intro
  rw [Returns, wp_dirClose_heap he hep, wp_inodeClose hi] at hclose
  have huser : ∀ v : State, v.dirs = t.dirs → v.cur = t.cur →
      Wp (sysFreeDir q) v (fun _ => False) (fun _ _ => True) → q.user = t.cur.pgdir := by
    intro v hdirs hcur h
    rw [wp_sysFreeDir (hdirs ▸ he), hcur] at h
    cases hq : q.user with
    | true =>
        cases hc : t.cur.pgdir with
        | true => rfl
        | false => exact (h.2.1 hq hc).elim
    | false =>
        cases hc : t.cur.pgdir with
        | true => exact (h.2.2 hq hc).elim
        | false => rfl
  refine ⟨e, p, i, he, hep, hi, ?_, fun h1 => ?_⟩
  · by_cases h1 : i.iOpenCnts = 1
    · cases hp : p.user with
      | true => exact ((hclose.2 h1).2 hp).elim
      | false => exact huser (t.dropped p) rfl rfl ((hclose.2 h1).1 hp)
    · exact huser (t.putInode p _) rfl rfl (hclose.1 h1)
  · cases hp : p.user with
    | true => exact ((hclose.2 h1).2 hp).elim
    | false => rfl

/-- Closing a directory leaves the others open. -/
theorem dirClose_others {e : Dir} (he : u.dirs q = some e) (hp : e.inode = some p)
    (hi : u.inodes p = some i) (hq : q.user = u.cur.pgdir)
    (huser : i.iOpenCnts = 1 → p.user = false) :
    Returns (dirClose (.heap q)) u fun _ v => ∀ q' p' j, q' ≠ q → u.inodeOf (.heap q') = some p' →
      u.inodes p' = some j → (p' = p → i.iOpenCnts ≠ 1) → v.DirOn (.heap q') j.iNo := by
  have hfree : ∀ v : State, v.dirs = u.dirs → v.cur = u.cur →
      (∀ p' j, u.inodes p' = some j → (p' = p → i.iOpenCnts ≠ 1) →
        ∃ j', v.inodes p' = some j' ∧ j'.iNo = j.iNo) →
      Wp (sysFreeDir q) v (fun _ => False) fun _ v => ∀ q' p' j, q' ≠ q →
        u.inodeOf (.heap q') = some p' → u.inodes p' = some j → (p' = p → i.iOpenCnts ≠ 1) →
          v.DirOn (.heap q') j.iNo := by
    intro v hdirs hcur hinodes
    rw [wp_sysFreeDir_own (hdirs ▸ he) (hcur ▸ hq)]
    intro q' p' j hne hq' hj hone
    obtain ⟨j', hj', hno⟩ := hinodes p' j hj hone
    refine ⟨p', j', ?_, hj', hno⟩
    show Option.bind (if q' = q then none else v.dirs q') _ = _
    rw [if_neg hne, hdirs]
    exact hq'
  rw [Returns, wp_dirClose_heap he hp, wp_inodeClose hi]
  constructor
  · intro h1
    refine hfree (u.putInode p _) rfl rfl ?_
    intro p' j hj _
    by_cases hp' : p' = p
    · rw [hp', hi, Option.some.injEq] at hj
      refine ⟨_, if_pos hp', ?_⟩
      rw [← hj]
    · exact ⟨j, (if_neg hp').trans hj, rfl⟩
  · intro h1
    refine ⟨fun _ => ?_, fun h => Bool.noConfusion (h.symm.trans (huser h1))⟩
    refine hfree (u.dropped p) rfl rfl ?_
    intro p' j hj hone
    have hp' : p' ≠ p := fun h => hone h h1
    exact ⟨j, (if_neg hp').trans hj, rfl⟩

/-- What `dir_open` leaves in a state: directory `m` is open, and what was open before is too. -/
structure State.OpenedIn (t : State) (m : UInt32) (u : State) : Prop where
  cur : u.cur = t.cur
  here : ∃ p j, u.inodeOf (.heap t.fresh) = some p ∧ u.inodes p = some j ∧
    (∀ i, t.inodeNamed m = some i → j.iNo = i.iNo) ∧
    ∀ i, t.inodes p = some i → j.iOpenCnts ≠ 1
  dirs : ∀ q e, t.dirs q = some e → q ≠ t.fresh ∧ u.dirs q = some e
  inodes : ∀ p i, t.inodes p = some i →
    ∃ j, u.inodes p = some j ∧ (j.iOpenCnts = 1 → i.iOpenCnts = 1)

/-- The directory of an inode that is open already. -/
theorem State.Searchable.openedIn_again (ht : t.Searchable)
    (hfirst : firstOpen t.inodes m t.part.openInodes = .ok (some p)) (hi : t.inodes p = some i) :
    t.OpenedIn m ((t.newDir.reopened p i).setDir t.fresh p) where
  cur := rfl
  here := by
    obtain ⟨i', hi', hcnt⟩ := ht.opened p (firstOpen_some hfirst).1
    rw [hi, Option.some.injEq] at hi'
    refine ⟨p, { i with iOpenCnts := i.iOpenCnts + 1 }, ?_, if_pos rfl, fun k hk => ?_, ?_⟩
    · show Option.bind (if t.fresh = t.fresh then _ else _) _ = _
      rw [if_pos rfl]
      rfl
    · have hk' : t.inodes p = some k := by
        rwa [State.inodeNamed, hfirst] at hk
      rw [hi, Option.some.injEq] at hk'
      rw [← hk']
    · intro _ _ h
      rw [← hi'] at hcnt
      exact hcnt (Nat.succ.inj h)
  dirs q e he := by
    have hq : q ≠ t.fresh := by
      intro h
      rw [h, (ht.fresh t.fresh (Nat.le_refl _)).2] at he
      cases he
    refine ⟨hq, ?_⟩
    show (if q = t.fresh then _ else if q = t.fresh then _ else t.dirs q) = _
    rw [if_neg hq, if_neg hq, he]
  inodes p' i' hi' := by
    by_cases hp : p' = p
    · rw [hp, hi, Option.some.injEq] at hi'
      refine ⟨{ i with iOpenCnts := i.iOpenCnts + 1 }, if_pos hp, fun h => ?_⟩
      obtain ⟨k, hk, hcnt⟩ := ht.opened p (firstOpen_some hfirst).1
      rw [hi, Option.some.injEq] at hk
      rw [← hk] at hcnt
      exact absurd (Nat.succ.inj h) hcnt
    · exact ⟨i', (if_neg hp).trans hi', id⟩

/-- The directory of an inode that is read from disk. -/
theorem State.Searchable.openedIn_first (ht : t.Searchable)
    (hfirst : firstOpen t.inodes m t.part.openInodes = .ok none) :
    t.OpenedIn m ((t.newDir.loaded m).setDir t.fresh ⟨false, t.newDir.next⟩) where
  cur := rfl
  here := by
    refine ⟨⟨false, t.newDir.next⟩, _, ?_, if_pos rfl, fun k hk => ?_, fun k hk => ?_⟩
    · show Option.bind (if t.fresh = t.fresh then _ else _) _ = _
      rw [if_pos rfl]
      rfl
    · have hk' : some (readSlot t.part t.disk m) = some k := by
        rwa [State.inodeNamed, hfirst] at hk
      rw [Option.some.injEq] at hk'
      rw [← hk']
      rfl
    · have hnone := (ht.fresh ⟨false, t.next + 1⟩ (Nat.le_succ _)).1
      cases hk.symm.trans hnone
  dirs q e he := by
    have hq : q ≠ t.fresh := by
      intro h
      rw [h, (ht.fresh t.fresh (Nat.le_refl _)).2] at he
      cases he
    refine ⟨hq, ?_⟩
    show (if q = t.fresh then _ else if q = t.fresh then _ else t.dirs q) = _
    rw [if_neg hq, if_neg hq, he]
  inodes p' i' hi' := by
    have hp : p' ≠ ⟨false, t.newDir.next⟩ := by
      intro h
      rw [h] at hi'
      cases hi'.symm.trans (ht.fresh ⟨false, t.next + 1⟩ (Nat.le_succ _)).1
    exact ⟨i', (if_neg hp).trans hi', id⟩

/-- The parent is closed while the directory is open that was found in it. -/
theorem openUnder (hat : s.At r n d t) (ht : t.Searchable) (hm : m < 4096)
    (hno : ∃ i, t.inodeNamed m = some i ∧ i.iNo = m) (hmem : ∀ k, t.supply k = true) :
    Returns (do
      let c ← dirOpen m
      dirClose d
      pure (some c)) t fun x v => ∃ c, x = some c ∧ v.DirOn c m := by
  obtain ⟨u, hform, hopen⟩ := ht.dirOpen_cases hm
  have hin : t.OpenedIn m u := by
    rcases hform with ⟨p, i, hfirst, hi, rfl⟩ | ⟨hfirst, rfl⟩
    · exact ht.openedIn_again hfirst hi
    · exact ht.openedIn_first hfirst
  obtain ⟨i, hi, him⟩ := hno
  obtain ⟨p, j, hp, hj, hnumber, hcnt⟩ := hin.here
  have hjm : j.iNo = m := (hnumber i hi).trans him
  rw [Returns, Wp.bind]
  refine (hopen _).mpr ⟨fun k _ => hmem _, ?_⟩
  rw [Wp.bind]
  cases d with
  | root => exact ⟨_, rfl, p, j, hp, hj, hjm⟩
  | heap q =>
      obtain ⟨e, p', i', he, hep, hi', hq, huser⟩ := hat.closable
      obtain ⟨hfresh, he'⟩ := hin.dirs q e he
      obtain ⟨j', hj', hone⟩ := hin.inodes p' i' hi'
      refine (dirClose_others he' hep hj' (hq.trans (congrArg _ hin.cur.symm))
        fun h => huser (hone h)).call fun _ v hv => ?_
      refine ⟨_, rfl, ?_⟩
      rw [← hjm]
      refine hv t.fresh p j hfresh.symm hp hj fun hsame => ?_
      rw [hsame, hj', Option.some.injEq] at hj
      rw [hj]
      exact hcnt i' (hsame ▸ hi')

/-! ## The directory that the search leaves open -/

/-- The parent in the record is open, and the tree can be searched from there. -/
def State.LeftOpen (s : State) (x : UInt32 × SearchRecord) (u : State) : Prop :=
  ∃ k m, s.At k m x.2.parentDir u ∧ s.Beside m u

variable {name : Str} {names : List Str} {e : DirEntry} {path : Str}

/-- One round of the loop, when memory is granted. -/
theorem searchLoop_leftOpen_round (hs : s.Searchable) (ht : s.TreeOk)
    (hmem : ∀ m, s.supply m = true) (hn : s.IsDirectory n)
    (hnames : ∀ c, c ∈ name :: names → NameOk c) (hat : s.At r n d t) (hb : s.Beside n t)
    (left : Nat) (parent : UInt32) (dirE : Option DirEntry)
    (hlen : path.length + (joinPath (name :: names)).length < maxPathLen)
    (hnext : ∀ e d' t', s.HasEntry n name e → e.fType = FileType.directory.code →
      s.At (r + 2 + s.requests e.iNo) e.iNo d' t' → s.Beside e.iNo t' →
        Returns (searchLoop left d' n (some e) (names.headD []) (nextPath names.tail)
          (path ++ slash :: name)) t' s.LeftOpen) :
    Returns (searchLoop (left + 1) d parent dirE name (nextPath names) path) t s.LeftOpen := by
  have hname := (hnames name List.mem_cons_self).ne
  have hrest : ∀ c, c ∈ names → NameOk c := fun c hc => hnames c (List.mem_cons_of_mem _ hc)
  have hdir := ht.directory n hn
  have hat' := hat.after 2 (Nat.le_add_right t.next 2)
  have hb' := hb.after 2 (Nat.le_add_right t.next 2)
  refine (searchLoop_succ ht hn hnames hat left parent dirE path hlen).mpr ⟨fun _ => ?_, ?_⟩
  · refine ⟨hmem _, fun _ => ⟨_, n, hat', hb'⟩, fun e he => ?_⟩
    have heok := (he.ok hdir hname).1
    rcases heok.type with htype | htype
    · exact (searchFound_regular hrest htype _ parent _).mpr ⟨_, n, hat', hb'⟩
    · have hchild : s.IsDirectory e.iNo := .entry hn hname he htype
      obtain ⟨d', t', hat₁, hb₁, hopen⟩ :=
        hs.dirOpen_beside (ht.directory e.iNo hchild) (r + 2) hat'.next
      exact (searchFound_open hdir hrest htype hat' hopen _ parent _ _).mpr
        ⟨fun k _ => hmem _, hnext e d' t' he htype hat₁ hb₁⟩
  · intro h
    rw [hmem] at h
    cases h

/-- Behind the last name the directory is opened again in which it was looked up. -/
theorem searchEnd_leftOpen (hs : s.Searchable) (ht : s.TreeOk) (hmem : ∀ m, s.supply m = true)
    (hn : s.IsDirectory n) {c : UInt32} (hat : s.At r c d t) (e : DirEntry) (path : Str) :
    Returns (searchEnd d n (some e) path) t s.LeftOpen := by
  unfold searchEnd
  rw [Returns, Wp.bind, hat.close_now, Wp.bind]
  obtain ⟨d', u, hat', hb, hopen⟩ := hs.dirOpen_beside (ht.directory n hn) r hat.next
  exact (hopen _).mpr ⟨fun k _ => hmem _, _, n, hat', hb⟩

theorem searchLoop_leftOpen (hs : s.Searchable) (ht : s.TreeOk) (hmem : ∀ m, s.supply m = true)
    (names : List Str) : ∀ (name : Str) (left r : Nat) (n parent : UInt32) (d : DirPtr) (t : State)
      (dirE : Option DirEntry) (path : Str), (∀ c, c ∈ name :: names → NameOk c) →
      s.IsDirectory n → names.length < left →
      path.length + (joinPath (name :: names)).length < maxPathLen → s.At r n d t →
        s.Beside n t → Returns (searchLoop left d parent dirE name (nextPath names) path) t
          s.LeftOpen := by
  induction names with
  | nil =>
      intro name left r n parent d t dirE path hnames hn hleft hlen hat hb
      obtain ⟨left, rfl⟩ := Nat.exists_eq_add_one_of_ne_zero (Nat.ne_zero_of_lt hleft)
      refine searchLoop_leftOpen_round hs ht hmem hn hnames hat hb left parent dirE hlen
        fun e d' t' _ _ hat' _ => ?_
      have hend : searchLoop left d' n (some e) [] none (path ++ slash :: name) =
          searchEnd d' n (some e) (path ++ slash :: name) := by
        cases left with
        | zero => rfl
        | succ left => rfl
      show Returns (searchLoop left d' n (some e) [] none (path ++ slash :: name)) t' _
      rw [hend]
      exact searchEnd_leftOpen hs ht hmem hn hat' e _
  | cons name' names ih =>
      intro name left r n parent d t dirE path hnames hn hleft hlen hat hb
      obtain ⟨left, rfl⟩ := Nat.exists_eq_add_one_of_ne_zero (Nat.ne_zero_of_lt hleft)
      refine searchLoop_leftOpen_round hs ht hmem hn hnames hat hb left parent dirE hlen
        fun e d' t' he htype hat' hb' => ?_
      refine ih name' left _ e.iNo n d' t' (some e) (path ++ slash :: name)
        (fun c hc => hnames c (List.mem_cons_of_mem name hc))
        (.entry hn (hnames name List.mem_cons_self).ne he htype) (Nat.lt_of_succ_lt_succ hleft) ?_
        hat' hb'
      rw [joinPath_length] at hlen
      rw [List.length_append, List.length_cons]
      omega

theorem searchFile_leftOpen (hs : s.Searchable) (ht : s.TreeOk) (hmem : ∀ m, s.supply m = true)
    (hp : PathOk names) : Returns (searchFile (joinPath names)) s s.LeftOpen := by
  by_cases h : isRootName (joinPath names)
  · unfold searchFile
    rw [if_pos h, Returns, Wp.pure]
    exact ⟨0, 0, hs.at_root, hs.beside_root⟩
  · obtain ⟨name, rest, rfl⟩ := List.exists_cons_of_ne_nil hp.ne
    have hlen := joinPath_length name rest
    have hle := length_le_joinPath rest
    refine (searchFile_loop hp h).mpr ?_
    exact searchLoop_leftOpen hs ht hmem rest name _ 0 0 0 .root s none [] hp.name .root (by omega)
      (by rw [List.length_nil, Nat.zero_add]; exact hp.short) hs.at_root hs.beside_root

/-! ## What the search finds -/

theorem State.Resolves.isDirectory (hnames : ∀ c, c ∈ names → c ≠ []) (hn : s.IsDirectory n)
    (h : s.Resolves n names m e) (hdir : e.fType = FileType.directory.code) :
    s.IsDirectory e.iNo := by
  induction h with
  | last h => exact .entry hn (hnames _ List.mem_cons_self) h hdir
  | next h htype _ ih =>
      exact ih (fun c hc => hnames c (List.mem_cons_of_mem _ hc))
        (.entry hn (hnames _ List.mem_cons_self) h htype) hdir

theorem State.LeadsTo.isDirectory (hnames : ∀ c, c ∈ names → c ≠ []) (h : s.LeadsTo names n) :
    s.IsDirectory n := by
  rcases h with ⟨-, rfl⟩ | ⟨m, e, he, hdir, rfl⟩
  · exact .root
  · exact he.isDirectory hnames .root hdir

/-- The search finds a directory where the names lead to one. -/
theorem State.Found.directory_iff (ht : s.TreeOk) (hp : PathOk names)
    {x : UInt32 × SearchRecord} (h : s.Found 0 names [] x t) :
    FoundDirectory x n ↔ s.LeadsTo names n := by
  have hne : ∀ c, c ∈ names → c ≠ [] := fun c hc => (hp.name c hc).ne
  have hleads : s.LeadsTo names n ↔
      ∃ d e, s.Resolves 0 names d e ∧ e.fType = FileType.directory.code ∧ e.iNo = n :=
    or_iff_right fun h => hp.ne h.1
  rw [hleads]
  cases h with
  | missing hlast hat =>
      exact iff_of_false (fun h => h.1 rfl) fun ⟨d, e, he, _⟩ => hlast.not_resolves ht hne .root he
  | regular he htype hat =>
      refine iff_of_false (fun h => absurd h.2.1 (by simp)) fun ⟨d, e, he', hdir, _⟩ => ?_
      rw [← he.unique ht hne .root he', htype] at hdir
      exact absurd hdir (by decide)
  | directory he htype hat =>
      constructor
      · exact fun h => ⟨_, _, he, htype, h.2.2⟩
      · rintro ⟨d, e, he', hdir, hno⟩
        rw [← he.unique ht hne .root he'] at hno
        exact ⟨(he.ok ht hne .root).ne, rfl, hno⟩
  | stuck hsplit hfront hback hmissing hresolves htype hat =>
      exact iff_of_false (fun h => htype h.2.1) fun ⟨d, e, he, _⟩ => hresolves d e he

/-- The search returns for every path, the one of the root directory included. -/
theorem searchFile_directory (hs : s.Searchable) (ht : s.TreeOk) (hmem : ∀ m, s.supply m = true)
    (hnames : ∀ c, c ∈ names → NameOk c) (hlen : (absolutePath names).length < maxPathLen) :
    ∃ x u, (searchFile (absolutePath names)).run s = .ok (x, u) ∧
      (∀ n, FoundDirectory x n ↔ s.LeadsTo names n) ∧ s.LeftOpen x u := by
  by_cases hne : names = []
  · refine ⟨(0, ⟨[], .root, .directory⟩), s, by rw [hne]; rfl, fun n => ?_, 0, 0, hs.at_root,
      hs.beside_root⟩
    rw [hne]
    constructor
    · exact fun h => Or.inl ⟨rfl, h.2.2.symm⟩
    · rintro (⟨-, rfl⟩ | ⟨d, e, he, -⟩)
      · exact ⟨by decide, rfl, rfl⟩
      · cases he
  · have hpath : absolutePath names = joinPath names := if_neg hne
    rw [hpath] at hlen ⊢
    have hp : PathOk names := ⟨hne, hnames, hlen⟩
    obtain ⟨x, u, hrun, hfound⟩ := returns_iff.mp (searchFile_found hs ht hmem hp)
    obtain ⟨x', u', hrun', hopen⟩ := returns_iff.mp (searchFile_leftOpen hs ht hmem hp)
    cases hrun.symm.trans hrun'
    exact ⟨x, u, hrun, fun n => hfound.directory_iff ht hp, hopen⟩

/-! ## The call -/

theorem State.Searchable.dirOn_root (hs : s.Searchable) : s.DirOn .root n ↔ n = 0 := by
  obtain ⟨p, hp, hfirst⟩ := hs.root
  obtain ⟨-, i, hi, hno⟩ := firstOpen_some hfirst
  constructor
  · rintro ⟨p', i', hp', hi', rfl⟩
    cases hp.symm.trans hp'
    cases hi.symm.trans hi'
    exact hno
  · rintro rfl
    exact ⟨p, i, hp, hi, hno⟩

/-- The directory that was found is opened, or the result is `NULL`. -/
theorem opendirFound_leftOpen (ht : s.TreeOk) (hmem : ∀ m, s.supply m = true)
    {x : UInt32 × SearchRecord} (hopen : s.LeftOpen x u)
    (hdir : ∀ n, FoundDirectory x n → s.IsDirectory n) :
    Returns (opendirFound x.1 x.2) u fun ret v =>
      (∀ n, (∃ d, ret = some d ∧ v.DirOn d n) ↔ FoundDirectory x n) ∧
        ((∀ n, ¬FoundDirectory x n) → ret = none) := by
  obtain ⟨k, m, hat, hb⟩ := hopen
  have hnull : (∀ n, ¬FoundDirectory x n) → Returns (do
      dirClose x.2.parentDir
      pure (none : Option DirPtr)) u fun ret v =>
        (∀ n, (∃ d, ret = some d ∧ v.DirOn d n) ↔ FoundDirectory x n) ∧
          ((∀ n, ¬FoundDirectory x n) → ret = none) := by
    intro hnone
    rw [Returns, Wp.bind, hat.close_now]
    refine ⟨fun n => iff_of_false (fun hopened => ?_) (hnone n), fun _ => rfl⟩
    obtain ⟨d, hd, -⟩ := hopened
    cases hd
  unfold opendirFound openSearched
  by_cases hneg : x.1 = -1
  · rw [if_pos hneg]
    exact hnull fun n h => h.1 hneg
  · rw [if_neg hneg]
    by_cases htype : x.2.fileType = .directory
    · rw [if_pos htype, bind_assoc]
      simp only [pure_bind]
      have hok := ht.directory x.1 (hdir x.1 ⟨hneg, htype, rfl⟩)
      obtain ⟨i, hi, hno, -⟩ := hok.inode
      have hsame := hb.content x.1
      rw [hi, Option.map_some] at hsame
      obtain ⟨j, hj, hji⟩ := Option.map_eq_some_iff.mp hsame
      have hjno : j.iNo = x.1 := (congrArg Prod.fst hji).trans hno
      have hsupply : ∀ k, u.supply k = true := fun k => (hat.supply k).trans (hmem _)
      have hunder := openUnder hat hb.searchable hok.number ⟨j, hj, hjno⟩ hsupply
      refine hunder.call fun ret v hret => ?_
      obtain ⟨c, hc, hon⟩ := hret
      refine ⟨fun n => ?_, fun h => ?_⟩
      · constructor
        · rintro ⟨d, hd, p, i, hp, hi, rfl⟩
          obtain ⟨p', i', hp', hi', hno'⟩ := hon
          cases hc.symm.trans hd
          cases hp.symm.trans hp'
          cases hi.symm.trans hi'
          exact ⟨hneg, htype, hno'.symm⟩
        · exact fun h => ⟨c, hc, h.2.2 ▸ hon⟩
      · exact absurd ⟨hneg, htype, rfl⟩ (h x.1)
    · rw [if_neg htype]
      exact hnull fun n h => htype h.2.1

/-- `sys_opendir` agrees with `search_file` exactly on the paths that are shorter than a name
and that, when they begin with `/.`, lead to the root directory. -/
theorem sysOpendir_right_iff (hs : s.Searchable) (ht : s.TreeOk) (hmem : ∀ m, s.supply m = true)
    (hnames : ∀ c, c ∈ names → NameOk c) (hlen : (absolutePath names).length < maxPathLen) :
    s.OpendirRight (absolutePath names) ↔ (absolutePath names).length < maxFileNameLen ∧
      (opensRoot (absolutePath names) → s.LeadsTo names 0) := by
  obtain ⟨x, u, hrun, hfound, hopen⟩ := searchFile_directory hs ht hmem hnames hlen
  have hcall : s.OpendirRight (absolutePath names) ↔
      Returns (sysOpendir (absolutePath names)) s fun r t =>
        (∀ n, (∃ d, r = some d ∧ t.DirOn d n) ↔ FoundDirectory x n) ∧
          ((∀ n, ¬FoundDirectory x n) → r = none) := by
    constructor
    · rintro ⟨x', u', hrun', h⟩
      cases hrun.symm.trans hrun'
      exact h
    · exact fun h => ⟨x, u, hrun, h⟩
  rw [hcall]
  unfold sysOpendir
  rw [Returns, Wp.bind, wp_kassert]
  by_cases hshort : (absolutePath names).length < maxFileNameLen
  · refine (and_iff_left fun h => h hshort).trans ((forall_prop_of_true hshort).trans ?_)
    refine Iff.trans ?_ (and_iff_right hshort).symm
    by_cases hroot : opensRoot (absolutePath names)
    · rw [if_pos hroot, Wp.pure, ← hfound 0]
      refine Iff.trans ?_ (forall_prop_of_true hroot).symm
      constructor
      · exact fun h => (h.1 0).mp ⟨.root, rfl, hs.dirOn_root.mpr rfl⟩
      · intro h
        refine ⟨fun n => ?_, fun hnone => absurd h (hnone 0)⟩
        constructor
        · rintro ⟨d, hd, hon⟩
          cases hd
          rw [hs.dirOn_root.mp hon]
          exact h
        · intro hn
          exact ⟨.root, rfl, hs.dirOn_root.mpr (hn.2.2.symm.trans h.2.2)⟩
    · rw [if_neg hroot]
      refine iff_of_true ?_ fun h => absurd h hroot
      rw [Wp.bind, Wp.of_run hrun]
      exact opendirFound_leftOpen ht hmem hopen fun n hn =>
        ((hfound n).mp hn).isDirectory fun c hc => (hnames c hc).ne
  · exact iff_of_false (fun h => h.2 hshort) fun h => hshort h.1

/-- The path `/d` of a directory is opened. -/
theorem sysOpendir_right_sub : cwdState.OpendirRight (absolutePath [[100]]) := by
  have hsame : subState.SameTree cwdState := ⟨rfl, rfl, rfl⟩
  have hnames : ∀ c, c ∈ [[(100 : UInt8)]] → NameOk c := by
    intro c hc
    rw [List.mem_singleton.mp hc]
    exact ⟨List.cons_ne_nil _ _, by decide, by decide⟩
  exact (sysOpendir_right_iff cwdState_searchable (hsame.dirTree subState_dirTree).ok
    (fun _ => rfl) hnames (by decide)).mpr ⟨by decide, fun h => absurd h (by decide)⟩

/-- The path of a name of 15 characters fails the first assertion. -/
theorem sysOpendir_wrong_long : fileState.Searchable ∧ fileState.TreeOk ∧
    (∀ m, fileState.supply m = true) ∧ (∀ c, c ∈ [List.replicate 15 97] → NameOk c) ∧
    (absolutePath [List.replicate 15 97]).length < maxPathLen ∧
    ¬fileState.OpendirRight (absolutePath [List.replicate 15 97]) := by
  refine ⟨fileState_searchable, fileState_treeOk, fun _ => rfl, fun c hc => ?_, by decide, ?_⟩
  · rw [List.mem_singleton.mp hc]
    exact ⟨by decide, by decide, by decide⟩
  · rintro ⟨x, u, -, h⟩
    unfold sysOpendir at h
    rw [Returns, Wp.bind, wp_kassert] at h
    exact h.2 (by decide)

end

end OsTruth
