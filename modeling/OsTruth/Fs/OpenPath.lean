/-
What `sys_open` of `fs/fs.c` does with a path.

It compares the depth of the path with the depth of `searched_path`, looks at what
`search_file` found, and goes on to `file_create` or `file_open`, or gives up.  Here this
is compared with what the directories say: `Resolves` when the names lead to an entry,
`Missing` when only the last of them is not there.
-/
import OsTruth.Fs.Getcwd

namespace OsTruth

open ByteString Fallible

/-! ## The function and what it calls -/

/-- `openFound` with the two functions it ends in as parameters. -/
def openFoundWith (create : DirPtr → Str → UInt8 → Kern Int) (openFile : UInt32 → UInt8 → Kern Int)
    (pathname : Str) (flags : UInt8) (pathnameDepth : Nat) (inodeNo : UInt32)
    (r : SearchRecord) : Kern Int := do
  if r.fileType = .directory then closeAndFail r.parentDir
  else do
    let pathSearchedDepth ← StateT.lift (pathDepthCnt r.searchedPath)
    if pathnameDepth ≠ pathSearchedDepth then closeAndFail r.parentDir
    else if inodeNo = -1 ∧ flags &&& oCreat = 0 then closeAndFail r.parentDir
    else if inodeNo ≠ -1 ∧ flags &&& oCreat ≠ 0 then closeAndFail r.parentDir
    else if flags &&& oCreat ≠ 0 then do
      let filename ← StateT.lift (afterLastSlash pathname)
      let fd ← create r.parentDir filename flags
      dirClose r.parentDir
      pure fd
    else openFile inodeNo flags

/-- `sysOpen` with `file_create` and `file_open` as parameters. -/
def sysOpenWith (create : DirPtr → Str → UInt8 → Kern Int) (openFile : UInt32 → UInt8 → Kern Int)
    (pathname : Str) (flags : UInt8) : Kern Int :=
  match pathname.getLast? with
  | none => undefined
  | some c =>
      if c = slash then pure (-1)
      else do
        kassert (flags ≤ 7)
        let pathnameDepth ← StateT.lift (pathDepthCnt pathname)
        let (inodeNo, r) ← searchFile (parsedPath pathname)
        openFoundWith create openFile (parsedPath pathname) flags pathnameDepth inodeNo r

theorem sysOpenWith_eq : sysOpenWith fileCreate fileOpen = sysOpen := by
  funext pathname flags
  rw [sysOpenWith, sysOpen]
  cases pathname.getLast? with
  | none => rfl
  | some c => rfl

/-- A file is created in the directory that the search left open. -/
def createIn (create : DirPtr → Str → UInt8 → Kern Int) (dir : DirPtr) (filename : Str)
    (flags : UInt8) : Kern Int := do
  let fd ← create dir filename flags
  dirClose dir
  pure fd

/-! ## Depths -/

section

variable {name : Str} {names : List Str}

theorem depthLoop_join (hnames : ∀ c, c ∈ name :: names → NameOk c) (left depth : Nat)
    (hleft : names.length < left) :
    depthLoop left name (nextPath names) depth = .ok (depth + (name :: names).length) := by
  induction names generalizing name left depth with
  | nil =>
      obtain ⟨left, rfl⟩ := Nat.exists_eq_add_one_of_ne_zero (Nat.ne_zero_of_lt hleft)
      obtain ⟨c, rest, hc⟩ := List.exists_cons_of_ne_nil (hnames name List.mem_cons_self).ne
      rw [hc]
      rfl
  | cons name' names ih =>
      obtain ⟨left, rfl⟩ := Nat.exists_eq_add_one_of_ne_zero (Nat.ne_zero_of_lt hleft)
      obtain ⟨c, rest, hc⟩ := List.exists_cons_of_ne_nil (hnames name List.mem_cons_self).ne
      have hrest : ∀ c, c ∈ name' :: names → NameOk c :=
        fun c hc => hnames c (List.mem_cons_of_mem _ hc)
      rw [hc]
      show (pathParse (joinPath (name' :: names)) >>= fun r => depthLoop left r.1 r.2 (depth + 1)) = _
      rw [pathParse_join (hrest name' List.mem_cons_self)]
      show depthLoop left name' (nextPath names) (depth + 1) = _
      rw [ih hrest left (depth + 1) (Nat.lt_of_succ_lt_succ hleft)]
      simp only [List.length_cons]
      congr 1
      omega

/-- The depth of a path is the number of its names. -/
theorem pathDepthCnt_join (hne : names ≠ []) (hnames : ∀ c, c ∈ names → NameOk c) :
    pathDepthCnt (joinPath names) = .ok names.length := by
  obtain ⟨name, rest, rfl⟩ := List.exists_cons_of_ne_nil hne
  have hname := hnames name List.mem_cons_self
  have hlen := joinPath_length name rest
  have hle := length_le_joinPath rest
  rw [pathDepthCnt, pathParse_join hname]
  show (if name = [] then _ else _) = _
  rw [if_neg hname.ne, depthLoop_join hnames _ 0 (by omega), Nat.zero_add]

theorem afterLastSlash_join (hname : slash ∉ name) (front : List Str) :
    afterLastSlash (joinPath (front ++ [name])) = .ok name := by
  have hmem : slash ∈ joinPath front ++ slash :: name :=
    List.mem_append_right _ List.mem_cons_self
  rw [joinPath_append, joinPath_singleton, afterLastSlash, if_pos hmem, lastName_append _ hname]

/-- A path does not end in a slash. -/
theorem getLast_join (hne : names ≠ []) (hnames : ∀ c, c ∈ names → NameOk c) :
    ∃ c, (joinPath names).getLast? = some c ∧ c ≠ slash := by
  obtain ⟨front, name, rfl⟩ := List.eq_nil_or_concat names |>.resolve_left hne
  have hname := hnames name (by simp)
  have hlast : name.getLast? = some (name.getLast hname.ne) := List.getLast?_eq_some_getLast hname.ne
  refine ⟨name.getLast hname.ne, ?_, ?_⟩
  · rw [List.concat_eq_append, joinPath_append, joinPath_singleton, List.getLast?_append,
      List.getLast?_cons, hlast]
    rfl
  · intro hslash
    exact hname.noSlash (hslash ▸ List.getLast_mem hname.ne)

end

/-! ## What the search leaves -/

/-- The names lead to directory `m` and the name `last`, which is not there. -/
inductive State.Missing (s : State) : UInt32 → List Str → UInt32 → Str → Prop
  | last {n : UInt32} {name : Str} (h : ∀ e, ¬s.HasEntry n name e) : Missing s n [name] n name
  | next {n m : UInt32} {name last : Str} {names : List Str} {e : DirEntry}
      (h : s.HasEntry n name e) (hdir : e.fType = FileType.directory.code)
      (hrest : Missing s e.iNo names m last) : Missing s n (name :: names) m last

/-- The result of the search for the names from directory `n` on, with `path` searched
before.  The search is stuck when a name in the middle is missing or a regular file. -/
inductive State.Found (s : State) (n : UInt32) (names : List Str) (path : Str) :
    UInt32 × SearchRecord → State → Prop
  | missing {m : UInt32} {last : Str} {k : Nat} {d : DirPtr} {t : State}
      (h : s.Missing n names m last) (hat : s.At k m d t) :
      Found s n names path (-1, ⟨path ++ joinPath names, d, .unknown⟩) t
  | regular {m : UInt32} {e : DirEntry} {k : Nat} {d : DirPtr} {t : State}
      (h : s.Resolves n names m e) (htype : e.fType = FileType.regular.code) (hat : s.At k m d t) :
      Found s n names path (e.iNo, ⟨path ++ joinPath names, d, .regular⟩) t
  | directory {m : UInt32} {e : DirEntry} {k : Nat} {d : DirPtr} {t : State} {searched : Str}
      (h : s.Resolves n names m e) (htype : e.fType = FileType.directory.code)
      (hat : s.At k m d t) : Found s n names path (e.iNo, ⟨searched, d, .directory⟩) t
  | stuck {front back : List Str} {inodeNo m : UInt32} {type : FileType} {k : Nat} {d : DirPtr}
      {t : State} (hsplit : names = front ++ back) (hfront : front ≠ []) (hback : back ≠ [])
      (hmissing : ∀ m last, ¬s.Missing n names m last)
      (hresolves : ∀ m e, ¬s.Resolves n names m e) (htype : type ≠ .directory)
      (hat : s.At k m d t) :
      Found s n names path (inodeNo, ⟨path ++ joinPath front, d, type⟩) t

section

variable {s t : State} {n m m' : UInt32} {name last last' : Str} {names : List Str}
variable {e : DirEntry} {path : Str} {r : Nat} {d : DirPtr}

theorem State.Missing.split (h : s.Missing n names m last) : ∃ front, names = front ++ [last] := by
  induction h with
  | last _ => exact ⟨[], rfl⟩
  | @next _ _ name _ _ _ _ _ _ ih =>
      obtain ⟨front, hfront⟩ := ih
      exact ⟨name :: front, by rw [hfront, List.cons_append]⟩

/-- Behind the entry of a directory the names go on there. -/
theorem missing_next_iff (hdir : s.DirectoryOk n) (hname : name ≠ []) (he : s.HasEntry n name e) :
    s.Missing n (name :: names) m last ↔
      e.fType = FileType.directory.code ∧ s.Missing e.iNo names m last := by
  constructor
  · intro h
    cases h with
    | last h => exact absurd he (h e)
    | next h htype hrest =>
        rw [← h.unique hdir hname he]
        exact ⟨htype, hrest⟩
  · exact fun h => .next he h.1 h.2

theorem State.Missing.ne_nil (h : s.Missing n names m last) : names ≠ [] := by
  obtain ⟨front, hfront⟩ := h.split
  rw [hfront]
  exact List.append_ne_nil_of_right_ne_nil _ (List.cons_ne_nil _ _)

/-- The names lead to one directory. -/
theorem State.Missing.unique (ht : s.TreeOk) (hnames : ∀ c, c ∈ names → c ≠ [])
    (hn : s.IsDirectory n) (h : s.Missing n names m last) (h' : s.Missing n names m' last') :
    m = m' ∧ last = last' := by
  induction h with
  | last h =>
      cases h' with
      | last _ => exact ⟨rfl, rfl⟩
      | next he _ _ => exact absurd he (h _)
  | next he htype _ ih =>
      have hne := hnames _ List.mem_cons_self
      refine ih (fun c hc => hnames c (List.mem_cons_of_mem _ hc)) (.entry hn hne he htype) ?_
      exact ((missing_next_iff (ht.directory _ hn) hne he).mp h').2

/-- What is missing is not there. -/
theorem State.Missing.not_resolves (ht : s.TreeOk) (hnames : ∀ c, c ∈ names → c ≠ [])
    (hn : s.IsDirectory n) (h : s.Missing n names m last) : ¬s.Resolves n names m' e := by
  induction h with
  | last h =>
      intro h'
      cases h' with
      | last he => exact h _ he
      | next he _ _ => exact h _ he
  | next he htype hrest ih =>
      have hne := hnames _ List.mem_cons_self
      intro h'
      refine ih (fun c hc => hnames c (List.mem_cons_of_mem _ hc)) (.entry hn hne he htype) ?_
      exact ((resolves_next_iff (ht.directory _ hn) hne he hrest.ne_nil _ _).mp h').2

/-- The first name is the name of a directory, and the search goes on there. -/
theorem State.Found.next (hdir : s.DirectoryOk n) (hname : name ≠ []) (he : s.HasEntry n name e)
    (htype : e.fType = FileType.directory.code) (hne : names ≠ []) {x : UInt32 × SearchRecord}
    (h : s.Found e.iNo names (path ++ slash :: name) x t) :
    s.Found n (name :: names) path x t := by
  have hpath : ∀ front, path ++ slash :: name ++ joinPath front = path ++ joinPath (name :: front) :=
    fun front => by rw [joinPath, List.append_assoc, List.cons_append]
  cases h with
  | missing h hat =>
      rw [hpath]
      exact .missing (.next he htype h) hat
  | regular h hreg hat =>
      rw [hpath]
      exact .regular (.next he htype h) hreg hat
  | directory h hdirectory hat => exact .directory (.next he htype h) hdirectory hat
  | stuck hsplit hfront hback hmissing hresolves hother hat =>
      rw [hpath]
      refine .stuck (by rw [hsplit, List.cons_append]) (List.cons_ne_nil _ _) hback
        (fun m last h => ?_) (fun m f h => ?_) hother hat
      · exact hmissing m last ((missing_next_iff hdir hname he).mp h).2
      · exact hresolves m f ((resolves_next_iff hdir hname he hne m f).mp h).2

/-- A name without an entry. -/
theorem State.Found.absent (h : ∀ e, ¬s.HasEntry n name e) (hat : s.At r n d t) :
    s.Found n (name :: names) path (-1, ⟨path ++ slash :: name, d, .unknown⟩) t := by
  rw [← joinPath_singleton]
  by_cases hmore : names = []
  · rw [hmore]
    exact .missing (.last h) hat
  · refine .stuck rfl (List.cons_ne_nil name []) hmore (fun m last hm => ?_) (fun m e hm => ?_)
      (by simp) hat
    · cases hm with
      | last _ => exact hmore rfl
      | next he _ _ => exact h _ he
    · cases hm with
      | last he => exact h _ he
      | next he _ _ => exact h _ he

/-- A name of a regular file. -/
theorem State.Found.file (hdir : s.DirectoryOk n) (hname : name ≠ []) (he : s.HasEntry n name e)
    (htype : e.fType = FileType.regular.code) (hat : s.At r n d t) :
    s.Found n (name :: names) path (e.iNo, ⟨path ++ slash :: name, d, .regular⟩) t := by
  have hne : e.fType ≠ FileType.directory.code := by
    rw [htype]
    decide
  rw [← joinPath_singleton]
  by_cases hmore : names = []
  · rw [hmore]
    exact .regular (.last he) htype hat
  · refine .stuck rfl (List.cons_ne_nil name []) hmore (fun m last hm => ?_) (fun m f hm => ?_)
      (by simp) hat
    · exact hne ((missing_next_iff hdir hname he).mp hm).1
    · exact hne ((resolves_next_iff hdir hname he hmore m f).mp hm).1

/-- One round of the loop, when memory is granted. -/
theorem searchLoop_found_round (hs : s.Searchable) (ht : s.TreeOk) (hmem : ∀ m, s.supply m = true)
    (hn : s.IsDirectory n) (hnames : ∀ c, c ∈ name :: names → NameOk c) (hat : s.At r n d t)
    (left : Nat) (parent : UInt32) (dirE : Option DirEntry)
    (hlen : path.length + (joinPath (name :: names)).length < maxPathLen)
    (hnext : ∀ e d' t', s.HasEntry n name e → e.fType = FileType.directory.code →
      s.At (r + 2 + s.requests e.iNo) e.iNo d' t' →
        Returns (searchLoop left d' n (some e) (names.headD []) (nextPath names.tail)
          (path ++ slash :: name)) t' (s.Found n (name :: names) path)) :
    Returns (searchLoop (left + 1) d parent dirE name (nextPath names) path) t
      (s.Found n (name :: names) path) := by
  have hname := (hnames name List.mem_cons_self).ne
  have hrest : ∀ c, c ∈ names → NameOk c := fun c hc => hnames c (List.mem_cons_of_mem _ hc)
  have hdir := ht.directory n hn
  have hat' := hat.after 2 (Nat.le_add_right t.next 2)
  refine (searchLoop_succ ht hn hnames hat left parent dirE path hlen).mpr ⟨fun _ => ?_, ?_⟩
  · refine ⟨hmem _, fun hnone => .absent hnone hat', fun e he => ?_⟩
    have heok := (he.ok hdir hname).1
    rcases heok.type with htype | htype
    · exact (searchFound_regular hrest htype _ parent _).mpr (.file hdir hname he htype hat')
    · obtain ⟨d', t', hat₁, hloop⟩ :=
        searchFound_directory hs hdir hrest heok htype hat' _ parent (path ++ slash :: name)
      exact (hloop _).mpr ⟨fun k _ => hmem _, hnext e d' t' he htype hat₁⟩
  · intro h
    rw [hmem] at h
    cases h

theorem searchLoop_found (hs : s.Searchable) (ht : s.TreeOk) (hmem : ∀ m, s.supply m = true)
    (names : List Str) : ∀ (name : Str) (left r : Nat) (n parent : UInt32) (d : DirPtr) (t : State)
      (dirE : Option DirEntry) (path : Str), (∀ c, c ∈ name :: names → NameOk c) →
      s.IsDirectory n → names.length < left →
      path.length + (joinPath (name :: names)).length < maxPathLen → s.At r n d t →
        Returns (searchLoop left d parent dirE name (nextPath names) path) t
          (s.Found n (name :: names) path) := by
  induction names with
  | nil =>
      intro name left r n parent d t dirE path hnames hn hleft hlen hat
      obtain ⟨left, rfl⟩ := Nat.exists_eq_add_one_of_ne_zero (Nat.ne_zero_of_lt hleft)
      refine searchLoop_found_round hs ht hmem hn hnames hat left parent dirE hlen
        fun e d' t' he htype hat' => ?_
      have hend : searchLoop left d' n (some e) [] none (path ++ slash :: name) =
          searchEnd d' n (some e) (path ++ slash :: name) := by
        cases left with
        | zero => rfl
        | succ left => rfl
      obtain ⟨d₁, u, hat₁, hclose⟩ :=
        searchEnd_iff (e := e) hs (ht.directory n hn) hat' (path ++ slash :: name)
      show Returns (searchLoop left d' n (some e) [] none (path ++ slash :: name)) t' _
      rw [hend]
      exact (hclose _).mpr ⟨fun k _ => hmem _, .directory (.last he) htype hat₁⟩
  | cons name' names ih =>
      intro name left r n parent d t dirE path hnames hn hleft hlen hat
      obtain ⟨left, rfl⟩ := Nat.exists_eq_add_one_of_ne_zero (Nat.ne_zero_of_lt hleft)
      refine searchLoop_found_round hs ht hmem hn hnames hat left parent dirE hlen
        fun e d' t' he htype hat' => ?_
      have hname := (hnames name List.mem_cons_self).ne
      refine (ih name' left _ e.iNo n d' t' (some e) (path ++ slash :: name)
        (fun c hc => hnames c (List.mem_cons_of_mem name hc)) (.entry hn hname he htype)
        (Nat.lt_of_succ_lt_succ hleft) ?_ hat').call fun x u h => ?_
      · rw [joinPath_length] at hlen
        rw [List.length_append, List.length_cons]
        omega
      · exact h.next (ht.directory n hn) hname he htype (List.cons_ne_nil _ _)

theorem searchFile_found (hs : s.Searchable) (ht : s.TreeOk) (hmem : ∀ m, s.supply m = true)
    (hp : PathOk names) : Returns (searchFile (joinPath names)) s (s.Found 0 names []) := by
  unfold searchFile
  by_cases h : isRootName (joinPath names)
  · have hroot : ∃ name, names = [name] ∧ (name = [dot] ∨ name = [dot, dot]) := by
      rcases (isRootName_join hp).mp h with h | h
      · exact ⟨_, h, Or.inl rfl⟩
      · exact ⟨_, h, Or.inr rfl⟩
    obtain ⟨name, rfl, hname⟩ := hroot
    obtain ⟨e, he, hno, htype⟩ := ht.root name hname
    have hfound : s.Found 0 [name] [] (e.iNo, ⟨[], .root, .directory⟩) s :=
      .directory (.last he) htype hs.at_root
    rw [if_pos h, Returns, Wp.pure]
    rwa [hno] at hfound
  · rw [if_neg h, Returns, Wp.bind, wp_kassert]
    obtain ⟨name, rest, rfl⟩ := List.exists_cons_of_ne_nil hp.ne
    have hname := hp.name name List.mem_cons_self
    have hlen := joinPath_length name rest
    have hpos := List.length_pos_iff.mpr hname.ne
    have hassert : (joinPath (name :: rest)).head? = some slash ∧
        (joinPath (name :: rest)).length > 1 ∧ (joinPath (name :: rest)).length < maxPathLen :=
      ⟨rfl, by omega, hp.short⟩
    refine ⟨fun _ => ?_, fun h => h hassert⟩
    rw [Wp.bind, pathParse_join hname, Wp.lift_pure]
    have hle := length_le_joinPath rest
    exact searchLoop_found hs ht hmem rest name _ 0 0 0 .root s none [] hp.name .root (by omega)
      (by rw [List.length_nil, Nat.zero_add]; exact hp.short) hs.at_root

end

/-! ## The decision -/

section

variable {s t : State} {names : List Str} {flags : UInt8} {x : UInt32 × SearchRecord}
variable {create : DirPtr → Str → UInt8 → Kern Int} {openFile : UInt32 → UInt8 → Kern Int}

theorem closeAndFail_run {k : Nat} {n : UInt32} {d : DirPtr} (hat : s.At k n d t) :
    (closeAndFail d).run t = .ok (-1, s.after k t.next) := by
  have h : Returns (closeAndFail d) t fun r u => r = -1 ∧ u = s.after k t.next := by
    unfold closeAndFail
    rw [Returns, Wp.bind, hat.close_now]
    exact ⟨rfl, rfl⟩
  obtain ⟨r, u, hrun, rfl, rfl⟩ := returns_iff.mp h
  exact hrun

theorem bind_run {α β : Type} {y : Kern α} {f : α → Kern β} {a : α}
    (h : y.run s = .ok (a, t)) : (y >>= f).run s = (f a).run t := by
  rw [StateT.run_bind, h]
  rfl

/-- `sys_open` up to the end of the search. -/
theorem sysOpenWith_run (hp : PathOk names) (hflags : flags ≤ 7)
    (hsearch : (searchFile (joinPath names)).run s = .ok (x, t)) :
    (sysOpenWith create openFile (joinPath names) flags).run s =
      (openFoundWith create openFile (joinPath names) flags names.length x.1 x.2).run t := by
  obtain ⟨c, hc, hslash⟩ := getLast_join hp.ne hp.name
  have hparsed : parsedPath (joinPath names) = joinPath names := by
    obtain ⟨name, rest, rfl⟩ := List.exists_cons_of_ne_nil hp.ne
    rfl
  unfold sysOpenWith
  rw [hc, hparsed, pathDepthCnt_join hp.ne hp.name]
  show (if c = slash then _ else _ : Kern Int).run s = _
  have hassert : (kassert (flags ≤ 7)).run s = .ok ((), s) := by
    rw [kassert, assert, if_pos hflags]
    rfl
  rw [if_neg hslash]
  exact (bind_run hassert).trans ((bind_run rfl).trans (bind_run hsearch))

/-- The decision behind the search, for a path that is searched to its end. -/
theorem openFoundWith_whole {pathname : Str} {depth : Nat} {inodeNo : UInt32} {d : DirPtr}
    {type : FileType} {searched : Str} (htype : type ≠ .directory)
    (hdepth : pathDepthCnt searched = .ok depth) :
    openFoundWith create openFile pathname flags depth inodeNo ⟨searched, d, type⟩ =
      if inodeNo = -1 ∧ flags &&& oCreat = 0 then closeAndFail d
      else if inodeNo ≠ -1 ∧ flags &&& oCreat ≠ 0 then closeAndFail d
      else if flags &&& oCreat ≠ 0 then do
        let filename ← StateT.lift (afterLastSlash pathname)
        createIn create d filename flags
      else openFile inodeNo flags := by
  unfold openFoundWith
  rw [if_neg htype, hdepth]
  show (if depth ≠ depth then _ else _) = _
  rw [if_neg (fun h => h rfl)]
  rfl

/-- A path whose middle is missing, or is a file, is not searched to its end. -/
theorem openFoundWith_part {pathname : Str} {depth depth' : Nat} {inodeNo : UInt32} {d : DirPtr}
    {type : FileType} {searched : Str} (htype : type ≠ .directory)
    (hdepth : pathDepthCnt searched = .ok depth') (hne : depth ≠ depth') :
    openFoundWith create openFile pathname flags depth inodeNo ⟨searched, d, type⟩ =
      closeAndFail d := by
  unfold openFoundWith
  rw [if_neg htype, hdepth]
  exact if_pos hne

/-- What `sys_open` does behind a search that left `t`. -/
theorem openFoundWith_found (ht : s.TreeOk) (hp : PathOk names)
    (h : s.Found 0 names [] x t) (create : DirPtr → Str → UInt8 → Kern Int)
    (openFile : UInt32 → UInt8 → Kern Int) (flags : UInt8) :
    (∃ m last k, flags &&& oCreat ≠ 0 ∧ s.Missing 0 names m last ∧ s.At k m x.2.parentDir t ∧
      (openFoundWith create openFile (joinPath names) flags names.length x.1 x.2).run t =
        (createIn create x.2.parentDir last flags).run t) ∨
    (∃ m e k d, flags &&& oCreat = 0 ∧ s.Resolves 0 names m e ∧
      e.fType = FileType.regular.code ∧ s.At k m d t ∧
      (openFoundWith create openFile (joinPath names) flags names.length x.1 x.2).run t =
        (openFile e.iNo flags).run t) ∨
    (¬(flags &&& oCreat ≠ 0 ∧ ∃ m last, s.Missing 0 names m last) ∧
      ¬(flags &&& oCreat = 0 ∧ ∃ m e, s.Resolves 0 names m e ∧
        e.fType = FileType.regular.code) ∧ ∃ j k,
      (openFoundWith create openFile (joinPath names) flags names.length x.1 x.2).run t =
        .ok (-1, s.after j k)) := by
  have hne : ∀ c, c ∈ names → c ≠ [] := fun c hc => (hp.name c hc).ne
  have hdepth := pathDepthCnt_join hp.ne hp.name
  cases h with
  | @missing m last k d t hlast hat =>
      simp only [List.nil_append]
      rw [openFoundWith_whole (by simp) hdepth]
      by_cases hflag : flags &&& oCreat = 0
      · refine Or.inr (Or.inr ⟨fun h => h.1 hflag, ?_, k, t.next, ?_⟩)
        · rintro ⟨-, m', e, he, -⟩
          exact hlast.not_resolves ht hne .root he
        · rw [if_pos ⟨rfl, hflag⟩]
          exact closeAndFail_run hat
      · obtain ⟨front, hfront⟩ := hlast.split
        have hname := (hp.name last (by rw [hfront]; simp)).noSlash
        refine Or.inl ⟨m, last, k, hflag, hlast, hat, ?_⟩
        rw [if_neg (fun h => hflag h.2), if_neg (fun h => h.1 rfl), if_pos hflag, hfront,
          afterLastSlash_join hname]
        rfl
  | @regular m e k d t he htype hat =>
      have hno := (he.ok ht hne .root).ne
      simp only [List.nil_append]
      rw [openFoundWith_whole (by simp) hdepth, if_neg (fun h => hno h.1)]
      by_cases hflag : flags &&& oCreat = 0
      · refine Or.inr (Or.inl ⟨m, e, k, d, hflag, he, htype, hat, ?_⟩)
        rw [if_neg (fun h => h.2 hflag), if_neg (fun h => h hflag)]
      · refine Or.inr (Or.inr ⟨?_, fun h => hflag h.1, k, t.next, ?_⟩)
        · rintro ⟨-, m', last, hlast⟩
          exact hlast.not_resolves ht hne .root he
        · rw [if_pos ⟨hno, hflag⟩]
          exact closeAndFail_run hat
  | @directory m e k d t searched he htype hat =>
      refine Or.inr (Or.inr ⟨?_, ?_, k, t.next, closeAndFail_run hat⟩)
      · rintro ⟨-, m', last, hlast⟩
        exact hlast.not_resolves ht hne .root he
      · rintro ⟨-, m', e', he', hreg⟩
        rw [← he.unique ht hne .root he', htype] at hreg
        exact absurd hreg (by decide)
  | @stuck front back inodeNo m type k d t hsplit hfront hback hmissing hresolves htype hat =>
      have hfront' : ∀ c, c ∈ front → NameOk c :=
        fun c hc => hp.name c (by rw [hsplit]; exact List.mem_append_left _ hc)
      have hlen : names.length ≠ front.length := by
        have hpos := List.length_pos_iff.mpr hback
        rw [hsplit, List.length_append]
        omega
      refine Or.inr (Or.inr ⟨?_, ?_, k, t.next, ?_⟩)
      · rintro ⟨-, m', last, hlast⟩
        exact hmissing m' last hlast
      · rintro ⟨-, m', e, he, -⟩
        exact hresolves m' e he
      · simp only [List.nil_append]
        rw [openFoundWith_part htype (pathDepthCnt_join hfront hfront') hlen]
        exact closeAndFail_run hat

/-- `sys_open` creates a file exactly when it is to and only the last name is missing, opens
one exactly when it is not to create one and the path leads to a regular file, and fails
otherwise, whatever the two functions do that it hands over to. -/
theorem sysOpen_decides (hs : s.Searchable) (ht : s.TreeOk) (hmem : ∀ m, s.supply m = true)
    (hp : PathOk names) (hflags : flags ≤ 7) :
    sysOpenWith fileCreate fileOpen = sysOpen ∧
    ∀ (create : DirPtr → Str → UInt8 → Kern Int) (openFile : UInt32 → UInt8 → Kern Int),
      (∀ m last, flags &&& oCreat ≠ 0 → s.Missing 0 names m last → ∃ k d t, s.At k m d t ∧
        (sysOpenWith create openFile (joinPath names) flags).run s =
          (createIn create d last flags).run t) ∧
      (∀ m e, flags &&& oCreat = 0 → s.Resolves 0 names m e →
        e.fType = FileType.regular.code → ∃ k d t, s.At k m d t ∧
          (sysOpenWith create openFile (joinPath names) flags).run s =
            (openFile e.iNo flags).run t) ∧
      (¬(flags &&& oCreat ≠ 0 ∧ ∃ m last, s.Missing 0 names m last) →
        ¬(flags &&& oCreat = 0 ∧ ∃ m e, s.Resolves 0 names m e ∧
          e.fType = FileType.regular.code) → ∃ j k,
        (sysOpenWith create openFile (joinPath names) flags).run s = .ok (-1, s.after j k)) := by
  refine ⟨sysOpenWith_eq, fun create openFile => ?_⟩
  have hne : ∀ c, c ∈ names → c ≠ [] := fun c hc => (hp.name c hc).ne
  obtain ⟨x, t, hsearch, hfound⟩ := returns_iff.mp (searchFile_found hs ht hmem hp)
  rw [sysOpenWith_run hp hflags hsearch]
  rcases openFoundWith_found ht hp hfound create openFile flags with
    ⟨m, last, k, hset, hlast, hat, hrun⟩ | ⟨m, e, k, d, hunset, he, htype, hat, hrun⟩ |
    ⟨hno, hno', j, k, hrun⟩
  · refine ⟨fun m' last' _ hlast' => ?_, fun m' e hunset => absurd hunset hset,
      fun hno _ => absurd ⟨hset, m, last, hlast⟩ hno⟩
    obtain ⟨rfl, rfl⟩ := hlast.unique ht hne .root hlast'
    exact ⟨k, _, t, hat, hrun⟩
  · refine ⟨fun m' last' hset => absurd hunset hset, fun m' e' _ he' _ => ?_,
      fun _ hno => absurd ⟨hunset, m, e, he, htype⟩ hno⟩
    obtain ⟨rfl, rfl⟩ := he.unique_both ht hne .root he'
    exact ⟨k, d, t, hat, hrun⟩
  · exact ⟨fun m last hset hlast => absurd ⟨hset, m, last, hlast⟩ hno,
      fun m e hunset he htype => absurd ⟨hunset, m, e, he, htype⟩ hno', fun _ _ => ⟨j, k, hrun⟩⟩

/-- In `/d` the file `/d/a` is created. -/
theorem sysOpen_decides_sub :
    ∃ k d t, cwdState.At k 1 d t ∧
      (sysOpenWith fileCreate fileOpen (joinPath [[100], [97]]) 6).run cwdState =
        (createIn fileCreate d [97] 6).run t := by
  have hsame : subState.SameTree cwdState := ⟨rfl, rfl, rfl⟩
  have hp : PathOk [[100], [97]] := by
    refine ⟨List.cons_ne_nil _ _, fun name hname => ?_, by decide⟩
    rcases List.mem_cons.mp hname with rfl | hname
    · exact ⟨List.cons_ne_nil _ _, by decide, by decide⟩
    · rw [List.mem_singleton.mp hname]
      exact ⟨List.cons_ne_nil _ _, by decide, by decide⟩
  have hmissing : cwdState.Missing 0 [[100], [97]] 1 [97] := by
    have hentry : subState.HasEntry 0 [100] (subRootEntry 2) :=
      subState_root.hasEntry_iff.mpr ⟨2, by decide, rfl, by decide⟩
    refine .next (hsame.hasEntry hentry) rfl (.last fun e he => ?_)
    obtain ⟨j, hj, -, hname⟩ := subState_sub.hasEntry_iff.mp (hsame.symm.hasEntry he)
    have hall : ∀ j, j < 21 → (subEntry j).name ≠ [97] := by
      decide +kernel
    exact hall j hj hname
  exact ((sysOpen_decides cwdState_searchable (hsame.dirTree subState_dirTree).ok (fun _ => rfl)
    hp (by decide)).2 fileCreate fileOpen).1 1 [97] (by decide) hmissing

end

end OsTruth
