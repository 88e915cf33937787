/-
`search_file` against looking up the names of a path one after the other.

`Resolves` follows the names from a directory on, each but the last one naming a directory.
`searchFile_right_iff` says when `search_file` agrees: it does not look behind a regular
file, so a path through one finds that file.
-/
import OsTruth.Fs.DirOpen
import OsTruth.Fs.OneBlock

namespace OsTruth

open ByteString Fallible

/-! ## Paths -/

/-- The path `/a/b/c` of the names `a`, `b` and `c`. -/
def joinPath : List Str → Str
  | [] => []
  | name :: names => slash :: (name ++ joinPath names)

structure NameOk (name : Str) : Prop where
  ne : name ≠ []
  short : name.length < maxFileNameLen
  noSlash : slash ∉ name

structure PathOk (names : List Str) : Prop where
  ne : names ≠ []
  name : ∀ name, name ∈ names → NameOk name
  short : (joinPath names).length < maxPathLen

/-- What is left of the path behind a name. -/
def nextPath : List Str → Option Str
  | [] => none
  | name :: names => some (joinPath (name :: names))

theorem joinPath_slash (names : List Str) :
    joinPath names = [] ∨ ∃ rest, joinPath names = slash :: rest := by
  cases names with
  | nil => exact Or.inl rfl
  | cons name names => exact Or.inr ⟨_, rfl⟩

theorem joinPath_length (name : Str) (names : List Str) :
    (joinPath (name :: names)).length = 1 + name.length + (joinPath names).length := by
  rw [joinPath, List.length_cons, List.length_append]
  omega

theorem pathParse_join {name : Str} (hname : NameOk name) (names : List Str) :
    pathParse (joinPath (name :: names)) = .ok (name, nextPath names) := by
  have hne : ∀ c, c ∈ name → decide (c ≠ slash) = true := by
    intro c hc
    rw [decide_eq_true_eq]
    rintro rfl
    exact hname.noSlash hc
  have hend : (joinPath names).takeWhile (· ≠ slash) = [] ∧
      (joinPath names).dropWhile (· ≠ slash) = joinPath names := by
    rcases joinPath_slash names with h | ⟨rest, h⟩
    · rw [h]
      exact ⟨rfl, rfl⟩
    · rw [h]
      exact ⟨rfl, rfl⟩
  have htake : (name ++ joinPath names).takeWhile (· ≠ slash) = name := by
    rw [List.takeWhile_append_of_pos hne, hend.1, List.append_nil]
  have hdrop : (name ++ joinPath names).dropWhile (· ≠ slash) = joinPath names := by
    rw [List.dropWhile_append_of_pos hne, hend.2]
  unfold joinPath pathParse
  simp only [htake, hdrop, if_pos (Nat.le_of_lt hname.short)]
  cases names with
  | nil => rfl
  | cons name' names => rfl

theorem nextName_eq {names : List Str} (hnames : ∀ name, name ∈ names → NameOk name) :
    nextName (nextPath names) = .ok (names.headD [], nextPath names.tail) := by
  cases names with
  | nil => rfl
  | cons name names => exact pathParse_join (hnames name List.mem_cons_self) names

/-! ## Looking up a path -/

/-- The names lead from directory `n` to the entry `e` of directory `d`. -/
inductive State.Resolves (s : State) : UInt32 → List Str → UInt32 → DirEntry → Prop
  | last {n : UInt32} {name : Str} {e : DirEntry} (h : s.HasEntry n name e) :
      Resolves s n [name] n e
  | next {n d : UInt32} {name : Str} {names : List Str} {e f : DirEntry}
      (h : s.HasEntry n name e) (hdir : e.fType = FileType.directory.code)
      (hrest : Resolves s e.iNo names d f) : Resolves s n (name :: names) d f

def State.DirOn (t : State) (d : DirPtr) (n : UInt32) : Prop :=
  ∃ p i, t.inodeOf d = some p ∧ t.inodes p = some i ∧ i.iNo = n

/-- The result of `search_file` for the names from directory `n` on. -/
structure SearchRight (s : State) (n : UInt32) (names : List Str) (r : UInt32 × SearchRecord)
    (t : State) : Prop where
  found : ∀ m, m ≠ -1 → (r.1 = m ↔ ∃ d e, s.Resolves n names d e ∧ e.iNo = m)
  record : ∀ d e, s.Resolves n names d e →
    r.2.fileType.code = e.fType ∧ t.DirOn r.2.parentDir d
  missing : (¬∃ d e, s.Resolves n names d e) → r.1 = -1

section

variable {s t : State} {n : UInt32} {name : Str} {names : List Str} {e : DirEntry}

theorem State.Resolves.ok (ht : s.TreeOk) (hnames : ∀ name, name ∈ names → name ≠ [])
    {d : UInt32} (h : s.Resolves n names d e) (hn : s.IsDirectory n) : e.Ok := by
  induction h with
  | last h => exact (h.ok (ht.directory _ hn) (hnames _ List.mem_cons_self)).1
  | next h hdir _ ih =>
      have hne := hnames _ List.mem_cons_self
      exact ih (fun name hmem => hnames name (List.mem_cons_of_mem _ hmem))
        (.entry hn hne h hdir)

theorem DirEntry.Ok.ne (he : e.Ok) : e.iNo ≠ -1 := by
  intro h
  have hlt := he.number
  rw [h] at hlt
  exact absurd hlt (by decide)

theorem searchRight_missing_iff {r : SearchRecord}
    (hok : ∀ d e, s.Resolves n names d e → e.Ok) :
    SearchRight s n names (-1, r) t ↔ ¬∃ d e, s.Resolves n names d e := by
  constructor
  · rintro h ⟨d, e, he⟩
    have hne := (hok d e he).ne
    exact hne ((h.found e.iNo hne).mpr ⟨d, e, he, rfl⟩).symm
  · intro h
    refine ⟨fun m hm => ?_, fun d e he => absurd ⟨d, e, he⟩ h, fun _ => rfl⟩
    exact iff_of_false (fun heq => hm heq.symm) fun ⟨d, e, he, _⟩ => h ⟨d, e, he⟩

/-- The one entry that the names lead to. -/
theorem searchRight_of_resolves {d : UInt32} {r : SearchRecord}
    (hone : ∀ d' e', s.Resolves n names d' e' ↔ d' = d ∧ e' = e)
    (htype : r.fileType.code = e.fType) (hdir : t.DirOn r.parentDir d) :
    SearchRight s n names (e.iNo, r) t := by
  refine ⟨fun m _ => ⟨fun h => ⟨d, e, (hone d e).mpr ⟨rfl, rfl⟩, h⟩, ?_⟩, fun d' e' h => ?_,
    fun h => absurd ⟨d, e, (hone d e).mpr ⟨rfl, rfl⟩⟩ h⟩
  · rintro ⟨d', e', h, hm⟩
    rw [← ((hone d' e').mp h).2]
    exact hm
  · obtain ⟨rfl, rfl⟩ := (hone d' e').mp h
    exact ⟨htype, hdir⟩

theorem resolves_last_iff (hdir : s.DirectoryOk n) (hname : name ≠ []) (he : s.HasEntry n name e)
    (d' : UInt32) (e' : DirEntry) : s.Resolves n [name] d' e' ↔ d' = n ∧ e' = e := by
  constructor
  · intro h
    cases h with
    | last h => exact ⟨rfl, h.unique hdir hname he⟩
    | next _ _ hrest => cases hrest
  · rintro ⟨rfl, rfl⟩
    exact .last he

/-- Behind the first of several names the search goes on in the directory it names. -/
theorem resolves_next_iff (hdir : s.DirectoryOk n) (hname : name ≠ []) (he : s.HasEntry n name e)
    (hne : names ≠ []) (d : UInt32) (f : DirEntry) :
    s.Resolves n (name :: names) d f ↔
      e.fType = FileType.directory.code ∧ s.Resolves e.iNo names d f := by
  constructor
  · intro h
    cases h with
    | last h => exact absurd rfl hne
    | next h htype hrest =>
        rw [← h.unique hdir hname he]
        exact ⟨htype, hrest⟩
  · exact fun ⟨htype, hrest⟩ => .next he htype hrest

theorem searchRight_next_iff (hdir : s.DirectoryOk n) (hname : name ≠ [])
    (he : s.HasEntry n name e) (htype : e.fType = FileType.directory.code) (hne : names ≠ [])
    {r : UInt32 × SearchRecord} :
    SearchRight s n (name :: names) r t ↔ SearchRight s e.iNo names r t := by
  have hsame : ∀ d f, s.Resolves n (name :: names) d f ↔ s.Resolves e.iNo names d f := by
    intro d f
    rw [resolves_next_iff hdir hname he hne]
    exact and_iff_right htype
  constructor
  · intro h
    refine ⟨fun m hm => ?_, fun d f hf => h.record d f ((hsame d f).mpr hf), fun hno => ?_⟩
    · simp only [← hsame]
      exact h.found m hm
    · exact h.missing (by simpa only [hsame] using hno)
  · intro h
    refine ⟨fun m hm => ?_, fun d f hf => h.record d f ((hsame d f).mp hf), fun hno => ?_⟩
    · simp only [hsame]
      exact h.found m hm
    · exact h.missing (by simpa only [hsame] using hno)

end

/-! ## The loop -/

/-- The walk meets no regular file before its last name, and what it asks for is granted.
`search_dir_entry` may be refused its first request when there is nothing to be found. -/
def State.SearchClear (s : State) : Nat → UInt32 → List Str → Prop
  | _, _, [] => True
  | r, n, name :: names =>
      (s.supply r = true ∧ s.supply (r + 1) = true ∧ ∀ e, s.HasEntry n name e →
        (e.fType = FileType.directory.code → s.Granted (r + 2) (s.requests e.iNo) ∧
          if names = [] then s.Granted (r + 2 + s.requests e.iNo) (s.requests n)
          else s.SearchClear (r + 2 + s.requests e.iNo) e.iNo names) ∧
        (e.fType = FileType.regular.code → names = [])) ∨
      (s.supply r = false ∧ ¬∃ d e, s.Resolves n (name :: names) d e)

section

variable {s t : State} {n : UInt32} {r : Nat} {d : DirPtr} {name : Str} {names : List Str}
variable {e : DirEntry}

/-- Behind the last name the directory in which it was looked up is opened again. -/
theorem searchEnd_iff (hs : s.Searchable) (hdir : s.DirectoryOk n) {c : UInt32}
    (hat : s.At r c d t) (path : Str) :
    ∃ d' u, s.At (r + s.requests n) n d' u ∧ ∀ Q : UInt32 × SearchRecord → State → Prop,
      Returns (searchEnd d n (some e) path) t Q ↔
        s.Granted r (s.requests n) ∧ Q (e.iNo, ⟨path, d', .directory⟩) u := by
  obtain ⟨d', u, hat', hopen⟩ := hs.dirOpen_after hdir.number r hat.next
  refine ⟨d', u, hat', fun Q => ?_⟩
  unfold searchEnd
  rw [Returns, Wp.bind, hat.close_now, Wp.bind]
  exact hopen _

theorem searchEnd_right_iff (hs : s.Searchable) (hdir : s.DirectoryOk n) (hname : name ≠ [])
    (he : s.HasEntry n name e) (htype : e.fType = FileType.directory.code)
    (hat : s.At r e.iNo d t) (path : Str) :
    Returns (searchEnd d n (some e) path) t (SearchRight s n [name]) ↔
      s.Granted r (s.requests n) := by
  obtain ⟨d', u, hat', hend⟩ := searchEnd_iff (e := e) hs hdir hat path
  obtain ⟨i₀, hi₀, hno, -⟩ := hdir.inode
  obtain ⟨p, i, j, hp, hi, hj, hij, -⟩ := hat'.inode
  have hdirOn : u.DirOn d' n := by
    rw [hi₀, Option.some.injEq] at hj
    exact ⟨p, i, hp, hi, hij.trans (hj ▸ hno)⟩
  refine (hend _).trans (and_iff_left ?_)
  exact searchRight_of_resolves (resolves_last_iff hdir hname he) htype.symm hdirOn

/-- The rest of a round, once the entry is found: a directory is opened instead of `d`. -/
theorem searchFound_open (hdir : s.DirectoryOk n) (hnames : ∀ c, c ∈ names → NameOk c)
    (htype : e.fType = FileType.directory.code) (hat : s.At r n d t) {granted : Prop}
    {d' : DirPtr} {t' : State} (hopen : ∀ Q : DirPtr → State → Prop,
      Returns (dirOpen e.iNo) (s.after r t.next) Q ↔ granted ∧ Q d' t')
    (next : DirPtr → UInt32 → Str → Option Str → Kern (UInt32 × SearchRecord)) (parent : UInt32)
    (path : Str) (Q : UInt32 × SearchRecord → State → Prop) :
    Returns (searchFound next d parent e (nextPath names) path) t Q ↔
      granted ∧ Returns (next d' n (names.headD []) (nextPath names.tail)) t' Q := by
  obtain ⟨i₀, hi₀, hno, -⟩ := hdir.inode
  obtain ⟨p, i, j, hp, hi, hj, hij, -⟩ := hat.inode
  rw [hi₀, Option.some.injEq] at hj
  have hin : i.iNo = n := hij.trans (hj ▸ hno)
  unfold searchFound
  rw [Returns, Wp.bind, nextName_eq hnames]
  show Wp (if _ then _ else _) t _ _ ↔ _
  rw [if_pos htype, Wp.bind, wp_dirInode_some hp, Wp.bind, wp_loadInode_some hi, Wp.bind,
    hat.close_now, Wp.bind]
  refine (hopen _).trans ?_
  rw [hin]

theorem searchFound_directory (hs : s.Searchable) (hdir : s.DirectoryOk n)
    (hnames : ∀ c, c ∈ names → NameOk c) (heok : e.Ok) (htype : e.fType = FileType.directory.code)
    (hat : s.At r n d t)
    (next : DirPtr → UInt32 → Str → Option Str → Kern (UInt32 × SearchRecord)) (parent : UInt32)
    (path : Str) :
    ∃ d' t', s.At (r + s.requests e.iNo) e.iNo d' t' ∧
      ∀ Q : UInt32 × SearchRecord → State → Prop,
        Returns (searchFound next d parent e (nextPath names) path) t Q ↔
          s.Granted r (s.requests e.iNo) ∧
            Returns (next d' n (names.headD []) (nextPath names.tail)) t' Q := by
  obtain ⟨d', t', hat', hopen⟩ := hs.dirOpen_after heok.number r hat.next
  exact ⟨d', t', hat', searchFound_open hdir hnames htype hat hopen next parent path⟩

/-- A regular file ends the search. -/
theorem searchFound_regular (hnames : ∀ c, c ∈ names → NameOk c)
    (htype : e.fType = FileType.regular.code)
    (next : DirPtr → UInt32 → Str → Option Str → Kern (UInt32 × SearchRecord)) (parent : UInt32)
    (path : Str) {Q : UInt32 × SearchRecord → State → Prop} :
    Returns (searchFound next d parent e (nextPath names) path) t Q ↔
      Q (e.iNo, ⟨path, d, .regular⟩) t := by
  have hne : e.fType ≠ FileType.directory.code := by
    rw [htype]
    decide
  unfold searchFound
  rw [Returns, Wp.bind, nextName_eq hnames]
  show Wp (if _ then _ else _) t _ _ ↔ _
  rw [if_neg hne, if_pos htype, Wp.pure]

/-- One round of the loop.  Refused its first request, `search_dir_entry` finds nothing. -/
theorem searchLoop_succ (ht : s.TreeOk) (hn : s.IsDirectory n)
    (hnames : ∀ c, c ∈ name :: names → NameOk c) (hat : s.At r n d t) (left : Nat)
    (parent : UInt32) (dirE : Option DirEntry) (path : Str)
    (hlen : path.length + (joinPath (name :: names)).length < maxPathLen)
    {Q : UInt32 × SearchRecord → State → Prop} :
    Returns (searchLoop (left + 1) d parent dirE name (nextPath names) path) t Q ↔
      (s.supply r = true → s.supply (r + 1) = true ∧
        ((∀ e, ¬s.HasEntry n name e) →
          Q (-1, ⟨path ++ slash :: name, d, .unknown⟩) (t.after 2 (t.next + 2))) ∧
        ∀ e, s.HasEntry n name e → Returns (searchFound (fun d' n' name' subPath =>
          searchLoop left d' n' (some e) name' subPath (path ++ slash :: name)) d parent e
            (nextPath names) (path ++ slash :: name)) (t.after 2 (t.next + 2)) Q) ∧
      (s.supply r = false → Q (-1, ⟨path ++ slash :: name, d, .unknown⟩) (t.after 1 t.next)) := by
  have hname := hnames name List.mem_cons_self
  have hdir := ht.directory n hn
  have hlen' := joinPath_length name names
  have hpath : path.length < 512 := by
    unfold maxPathLen at hlen
    omega
  have happend : appendName path name = .ok (path ++ slash :: name) :=
    if_pos ⟨hname.short, by omega⟩
  obtain ⟨i, hi, hsearch⟩ := hat.searchDirEntry_iff hdir name
  obtain ⟨c, rest, hc⟩ := List.exists_cons_of_ne_nil hname.ne
  rw [hc, searchLoop, ← hc, Returns, Wp.bind, wp_kassert]
  refine (and_iff_left fun h => absurd hpath h).trans ((forall_prop_of_true hpath).trans ?_)
  rw [Wp.bind, happend, Wp.lift_pure, Wp.bind]
  refine (hsearch _).trans (and_congr_left fun _ => forall_congr' fun _ =>
    and_congr_right fun _ => ?_)
  cases hfound : findBlocks s.disk (allBlocksOf s.disk i) name 140 0 with
  | none =>
      have hnone : ∀ e, ¬s.HasEntry n name e := by
        intro e he
        rw [(findBlocks_iff hdir hname.ne hi).mpr he] at hfound
        cases hfound
      exact ⟨fun h => ⟨fun _ => h, fun e he => absurd he (hnone e)⟩, fun h => h.1 hnone⟩
  | some e =>
      have he := (findBlocks_iff hdir hname.ne hi).mp hfound
      constructor
      · refine fun h => ⟨fun hnone => absurd he (hnone e), fun e' he' => ?_⟩
        rw [he'.unique hdir hname.ne he]
        exact h
      · exact fun h => h.2 e he

/-- The rest of a round, against looking up the rest of the names. -/
theorem searchFound_right_iff (hs : s.Searchable) (ht : s.TreeOk) (hn : s.IsDirectory n)
    (hnames : ∀ c, c ∈ name :: names → NameOk c) (he : s.HasEntry n name e)
    (hat : s.At r n d t)
    (next : DirPtr → UInt32 → Str → Option Str → Kern (UInt32 × SearchRecord)) (parent : UInt32)
    (path : Str) (hnext : ∀ d' t', e.fType = FileType.directory.code →
      s.At (r + s.requests e.iNo) e.iNo d' t' →
        (Returns (next d' n (names.headD []) (nextPath names.tail)) t'
          (SearchRight s n (name :: names)) ↔
            if names = [] then s.Granted (r + s.requests e.iNo) (s.requests n)
            else s.SearchClear (r + s.requests e.iNo) e.iNo names)) :
    Returns (searchFound next d parent e (nextPath names) path) t
        (SearchRight s n (name :: names)) ↔
      (e.fType = FileType.directory.code → s.Granted r (s.requests e.iNo) ∧
          if names = [] then s.Granted (r + s.requests e.iNo) (s.requests n)
          else s.SearchClear (r + s.requests e.iNo) e.iNo names) ∧
        (e.fType = FileType.regular.code → names = []) := by
  have hname := hnames name List.mem_cons_self
  have hrest : ∀ c, c ∈ names → NameOk c := fun c hc => hnames c (List.mem_cons_of_mem _ hc)
  have hdir := ht.directory n hn
  have heok := (he.ok hdir hname.ne).1
  rcases heok.type with htype | htype
  · have hne : e.fType ≠ FileType.directory.code := by
      rw [htype]
      decide
    refine (searchFound_regular hrest htype next parent path).trans ?_
    constructor
    · refine fun h => ⟨fun h' => absurd h' hne, fun _ => ?_⟩
      by_contra hmore
      refine heok.ne (h.missing ?_)
      rintro ⟨d', f, hf⟩
      exact hne ((resolves_next_iff hdir hname.ne he hmore d' f).mp hf).1
    · intro h
      obtain ⟨i₀, hi₀, hno, -⟩ := hdir.inode
      obtain ⟨p, i, j, hp, hi, hj, hij, -⟩ := hat.inode
      rw [hi₀, Option.some.injEq] at hj
      rw [h.2 htype]
      exact searchRight_of_resolves (resolves_last_iff hdir hname.ne he) htype.symm
        ⟨p, i, hp, hi, hij.trans (hj ▸ hno)⟩
  · have hne : e.fType ≠ FileType.regular.code := by
      rw [htype]
      decide
    obtain ⟨d', t', hat', hloop⟩ :=
      searchFound_directory hs hdir hrest heok htype hat next parent path
    refine (hloop _).trans ((and_congr_right fun _ => hnext d' t' htype hat').trans ?_)
    exact ⟨fun h => ⟨fun _ => h, fun h' => absurd h' hne⟩, fun h => h.1 htype⟩

/-- One round of the loop, against looking the names up. -/
theorem searchLoop_round (hs : s.Searchable) (ht : s.TreeOk) (hn : s.IsDirectory n)
    (hnames : ∀ c, c ∈ name :: names → NameOk c) (hat : s.At r n d t) (left : Nat)
    (parent : UInt32) (dirE : Option DirEntry) (path : Str)
    (hlen : path.length + (joinPath (name :: names)).length < maxPathLen)
    (hnext : ∀ e d' t', s.HasEntry n name e → e.fType = FileType.directory.code →
      s.At (r + 2 + s.requests e.iNo) e.iNo d' t' →
        (Returns (searchLoop left d' n (some e) (names.headD []) (nextPath names.tail)
          (path ++ slash :: name)) t' (SearchRight s n (name :: names)) ↔
            if names = [] then s.Granted (r + 2 + s.requests e.iNo) (s.requests n)
            else s.SearchClear (r + 2 + s.requests e.iNo) e.iNo names)) :
    Returns (searchLoop (left + 1) d parent dirE name (nextPath names) path) t
      (SearchRight s n (name :: names)) ↔ s.SearchClear r n (name :: names) := by
  have hok : ∀ d e, s.Resolves n (name :: names) d e → e.Ok := fun d e h =>
    h.ok ht (fun c hc => (hnames c hc).ne) hn
  have hat' := hat.after 2 (Nat.le_add_right t.next 2)
  refine (searchLoop_succ ht hn hnames hat left parent dirE path hlen).trans ?_
  unfold State.SearchClear
  cases h0 : s.supply r with
  | false =>
      refine (and_iff_right fun h => Bool.noConfusion h).trans ((forall_prop_of_true rfl).trans ?_)
      refine (searchRight_missing_iff hok).trans ?_
      exact ⟨fun h => Or.inr ⟨rfl, h⟩, fun h => h.elim (fun h' => Bool.noConfusion h'.1) And.right⟩
  | true =>
      refine (and_iff_left fun h => Bool.noConfusion h).trans ((forall_prop_of_true rfl).trans ?_)
      refine Iff.trans ?_ (or_iff_left fun h => Bool.noConfusion h.1).symm
      refine Iff.trans (and_congr_right fun _ => ?_) (and_iff_right rfl).symm
      have hmissing : (∀ e, ¬s.HasEntry n name e) →
          SearchRight s n (name :: names) (-1, ⟨path ++ slash :: name, d, .unknown⟩)
            (t.after 2 (t.next + 2)) := by
        intro hnone
        refine (searchRight_missing_iff hok).mpr ?_
        rintro ⟨d', f, hf⟩
        cases hf with
        | last h => exact hnone _ h
        | next h => exact hnone _ h
      refine (and_iff_right hmissing).trans (forall_congr' fun e => forall_congr' fun he => ?_)
      exact searchFound_right_iff hs ht hn hnames he hat' _ parent (path ++ slash :: name)
        fun d' t' => hnext e d' t' he

/-- The loop, from a name on. -/
theorem searchLoop_right_iff (hs : s.Searchable) (ht : s.TreeOk) (names : List Str) :
    ∀ (name : Str) (left r : Nat) (n parent : UInt32) (d : DirPtr) (t : State)
      (dirE : Option DirEntry) (path : Str), (∀ c, c ∈ name :: names → NameOk c) →
      s.IsDirectory n → names.length < left →
      path.length + (joinPath (name :: names)).length < maxPathLen → s.At r n d t →
        (Returns (searchLoop left d parent dirE name (nextPath names) path) t
          (SearchRight s n (name :: names)) ↔ s.SearchClear r n (name :: names)) := by
  induction names with
  | nil =>
      intro name left r n parent d t dirE path hnames hn hleft hlen hat
      obtain ⟨left, rfl⟩ := Nat.exists_eq_add_one_of_ne_zero (Nat.ne_of_gt hleft)
      refine searchLoop_round hs ht hn hnames hat left parent dirE path hlen
        fun e d' t' he htype hat' => ?_
      have hend : searchLoop left d' n (some e) [] none (path ++ slash :: name) =
          searchEnd d' n (some e) (path ++ slash :: name) := by
        cases left with
        | zero => rfl
        | succ left => rfl
      rw [if_pos rfl]
      refine (iff_of_eq (congrArg (fun x => Returns x t' _) hend)).trans ?_
      exact searchEnd_right_iff hs (ht.directory n hn) (hnames name List.mem_cons_self).ne he htype
        hat' _
  | cons name' names ih =>
      intro name left r n parent d t dirE path hnames hn hleft hlen hat
      obtain ⟨left, rfl⟩ := Nat.exists_eq_add_one_of_ne_zero (Nat.ne_zero_of_lt hleft)
      refine searchLoop_round hs ht hn hnames hat left parent dirE path hlen
        fun e d' t' he htype hat' => ?_
      have hname := (hnames name List.mem_cons_self).ne
      have hsame : SearchRight s n (name :: name' :: names) = SearchRight s e.iNo (name' :: names) := by
        funext x u
        exact propext (searchRight_next_iff (ht.directory n hn) hname he htype
          (List.cons_ne_nil name' names))
      rw [if_neg (List.cons_ne_nil name' names), hsame]
      refine ih name' left _ e.iNo n d' t' (some e) (path ++ slash :: name)
        (fun c hc => hnames c (List.mem_cons_of_mem name hc)) (.entry hn hname he htype)
        (Nat.lt_of_succ_lt_succ hleft) ?_ hat'
      rw [joinPath_length] at hlen
      rw [List.length_append, List.length_cons]
      omega

end

/-! ## The function -/

/-- The names lead to a regular file, and more names follow. -/
def State.RegularBefore (s : State) (n : UInt32) (names : List Str) : Prop :=
  ∃ front back d e, names = front ++ back ∧ back ≠ [] ∧ s.Resolves n front d e ∧
    e.fType = FileType.regular.code

section

variable {s t : State} {n : UInt32} {r : Nat} {name : Str} {names : List Str} {e : DirEntry}

/-- With memory the search goes wrong only at a regular file. -/
theorem searchClear_iff (hmem : ∀ m, s.supply m = true) (names : List Str) :
    ∀ (r : Nat) (n : UInt32), s.SearchClear r n names ↔ ¬s.RegularBefore n names := by
  induction names with
  | nil =>
      intro r n
      refine iff_of_true True.intro ?_
      rintro ⟨front, back, d, e, hsplit, hback, -⟩
      exact hback (List.append_eq_nil_iff.mp hsplit.symm).2
  | cons name names ih =>
      intro r n
      constructor
      · rintro hclear ⟨front, back, d, f, hsplit, hback, hf, hreg⟩
        rcases hclear with ⟨-, -, hclear⟩ | ⟨hrefused, -⟩
        · cases hf with
          | last he =>
              rw [List.singleton_append, List.cons.injEq] at hsplit
              rw [← hsplit.1] at he
              exact hback (hsplit.2 ▸ (hclear f he).2 hreg)
          | next he hdir hrest =>
              rw [List.cons_append, List.cons.injEq] at hsplit
              rw [← hsplit.1] at he
              have hmore : names ≠ [] := by
                rw [hsplit.2]
                exact List.append_ne_nil_of_right_ne_nil _ hback
              have hrest' := ((hclear _ he).1 hdir).2
              rw [if_neg hmore] at hrest'
              exact (ih _ _).mp hrest' ⟨_, back, d, f, hsplit.2, hback, hrest, hreg⟩
        · rw [hmem] at hrefused
          cases hrefused
      · intro hno
        refine Or.inl ⟨hmem r, hmem (r + 1), fun e he => ⟨fun hdir => ⟨fun k _ => hmem _, ?_⟩, ?_⟩⟩
        · by_cases hmore : names = []
          · rw [if_pos hmore]
            exact fun k _ => hmem _
          · rw [if_neg hmore]
            refine (ih _ _).mpr ?_
            rintro ⟨front, back, d, f, hsplit, hback, hf, hreg⟩
            exact hno ⟨name :: front, back, d, f, by rw [hsplit, List.cons_append], hback,
              .next he hdir hf, hreg⟩
        · intro hreg
          by_contra hmore
          exact hno ⟨[name], names, n, e, rfl, hmore, .last he, hreg⟩

theorem isRootName_join (hp : PathOk names) :
    isRootName (joinPath names) ↔ names = [[dot]] ∨ names = [[dot, dot]] := by
  obtain ⟨name, rest, rfl⟩ := List.exists_cons_of_ne_nil hp.ne
  have hname := hp.name name List.mem_cons_self
  have hparse := pathParse_join hname rest
  have hback : ∀ other : Str, pathParse (slash :: other) = .ok (other, none) →
      joinPath (name :: rest) = slash :: other → name :: rest = [other] := by
    intro other hother heq
    rw [heq, hother, Except.ok.injEq, Prod.mk.injEq] at hparse
    obtain ⟨rfl, hrest⟩ := hparse
    cases rest with
    | nil => rfl
    | cons name' rest => cases hrest
  constructor
  · rintro (h | h | h)
    · have hlen := joinPath_length name rest
      have hpos := List.length_pos_iff.mpr hname.ne
      rw [h, List.length_singleton] at hlen
      omega
    · exact Or.inl (hback [dot] rfl h)
    · exact Or.inr (hback [dot, dot] rfl h)
  · rintro (h | h)
    · rw [h]
      exact Or.inr (Or.inl rfl)
    · rw [h]
      exact Or.inr (Or.inr rfl)

theorem length_le_joinPath (names : List Str) : names.length ≤ (joinPath names).length := by
  induction names with
  | nil => exact Nat.le_refl 0
  | cons name names ih =>
      rw [joinPath_length, List.length_cons]
      omega

/-- The root directory is where its own two entries say. -/
theorem searchRight_root (hs : s.Searchable) (ht : s.TreeOk)
    (hname : name = [dot] ∨ name = [dot, dot]) (path : Str) :
    SearchRight s 0 [name] (0, ⟨path, .root, .directory⟩) s := by
  have hne : name ≠ [] := by
    rcases hname with rfl | rfl
    · exact List.cons_ne_nil _ _
    · exact List.cons_ne_nil _ _
  have hdir := ht.directory 0 .root
  obtain ⟨e, he, hno, htype⟩ := ht.root name hname
  obtain ⟨i₀, hi₀, hno₀, -⟩ := hdir.inode
  obtain ⟨p, i, j, hp, hi, hj, hij, -⟩ := hs.at_root.inode
  rw [hi₀, Option.some.injEq] at hj
  have hright : SearchRight s 0 [name] (e.iNo, ⟨path, .root, .directory⟩) s :=
    searchRight_of_resolves (resolves_last_iff hdir hne he) htype.symm
      ⟨p, i, hp, hi, hij.trans (hj ▸ hno₀)⟩
  rwa [hno] at hright

/-- For another name than those of the root, `search_file` is its loop. -/
theorem searchFile_loop (hp : PathOk (name :: names)) (h : ¬isRootName (joinPath (name :: names)))
    {Q : UInt32 × SearchRecord → State → Prop} :
    Returns (searchFile (joinPath (name :: names))) s Q ↔
      Returns (searchLoop (joinPath (name :: names)).length .root 0 none name (nextPath names) [])
        s Q := by
  unfold searchFile
  rw [if_neg h, Returns, Wp.bind, wp_kassert]
  have hname := hp.name name List.mem_cons_self
  have hlen := joinPath_length name names
  have hpos := List.length_pos_iff.mpr hname.ne
  have hassert : (joinPath (name :: names)).head? = some slash ∧
      (joinPath (name :: names)).length > 1 ∧ (joinPath (name :: names)).length < maxPathLen :=
    ⟨rfl, by omega, hp.short⟩
  refine (and_iff_left fun h => absurd hassert h).trans
    ((forall_prop_of_true hassert).trans ?_)
  rw [Wp.bind, pathParse_join hname, Wp.lift_pure]

/-- The names of the root directory are looked up without a search. -/
theorem searchFile_rooted (hs : s.Searchable) (ht : s.TreeOk) (hp : PathOk names)
    (h : isRootName (joinPath names)) :
    Returns (searchFile (joinPath names)) s (SearchRight s 0 names) := by
  unfold searchFile
  rw [if_pos h, Returns, Wp.pure]
  rcases (isRootName_join hp).mp h with rfl | rfl
  · exact searchRight_root hs ht (Or.inl rfl) []
  · exact searchRight_root hs ht (Or.inr rfl) []

theorem searchFile_below_iff (hs : s.Searchable) (ht : s.TreeOk) (hp : PathOk names)
    (h : ¬isRootName (joinPath names)) :
    Returns (searchFile (joinPath names)) s (SearchRight s 0 names) ↔ s.SearchClear 0 0 names := by
  obtain ⟨name, rest, rfl⟩ := List.exists_cons_of_ne_nil hp.ne
  refine (searchFile_loop hp h).trans ?_
  have hlen := joinPath_length name rest
  have hle := length_le_joinPath rest
  exact searchLoop_right_iff hs ht rest name _ 0 0 0 .root s none [] hp.name .root (by omega)
    (by rw [List.length_nil, Nat.zero_add]; exact hp.short) hs.at_root

theorem searchFile_of_clear (hs : s.Searchable) (ht : s.TreeOk) (hp : PathOk names)
    (hclear : s.SearchClear 0 0 names) :
    Returns (searchFile (joinPath names)) s (SearchRight s 0 names) := by
  by_cases h : isRootName (joinPath names)
  · exact searchFile_rooted hs ht hp h
  · exact (searchFile_below_iff hs ht hp h).mpr hclear

/-- `search_file` does what looking the names up does exactly when no regular file is met
before the last name, as long as the memory for it is there. -/
theorem searchFile_right_iff (hs : s.Searchable) (ht : s.TreeOk) (hp : PathOk names) :
    Returns (searchFile (joinPath names)) s (SearchRight s 0 names) ↔
      names = [[dot]] ∨ names = [[dot, dot]] ∨ s.SearchClear 0 0 names := by
  have hroot := isRootName_join hp
  by_cases h : isRootName (joinPath names)
  · exact iff_of_true (searchFile_rooted hs ht hp h) (or_assoc.mp (Or.inl (hroot.mp h)))
  · rw [← or_assoc, or_iff_right fun h' => h (hroot.mpr h')]
    exact searchFile_below_iff hs ht hp h

end

/-! ## A regular file in the root directory -/

/-- The slots of the root directory: its own two entries and the file `f`. -/
def fileEntry (j : Nat) : DirEntry :=
  if j = 0 then ⟨fun k => if k.val < 1 then dot else 0, 0, FileType.directory.code⟩
  else if j = 1 then ⟨fun k => if k.val < 2 then dot else 0, 0, FileType.directory.code⟩
  else if j = 2 then ⟨fun k => if k.val < 1 then 102 else 0, 1, FileType.regular.code⟩
  else .zero

def fileState : State :=
  { freshState with
    disk := splice freshDisk (slotPlace freshPart.sb.dataStartLba 2) dirEntrySize (fileEntry 2).bytes }

theorem fileState_root : fileState.OneBlock 0 freshPart.sb.dataStartLba fileEntry where
  inode := by
    refine ⟨{ rootInode freshPart.sb with iOpenCnts := 1 }, rfl, rfl, fun k => ?_⟩
    have hsector := Inode.sector_setSector { Inode.zero with iSize := freshPart.sb.dirEntrySize * 2 }
      (show 0 < 13 by decide) freshPart.sb.dataStartLba k
    have hzero : Inode.sector { Inode.zero with iSize := freshPart.sb.dirEntrySize * 2 } k = 0 :=
      ite_self _
    rw [hzero] at hsector
    exact hsector
  slot j hj := by
    have hbytes : ∀ j, j < 21 → ∀ k, k < 24 →
        fileState.disk (slotPlace freshPart.sb.dataStartLba j + k) = (fileEntry j).bytes k := by
      decide +kernel
    exact blockSlot_of_bytes (hbytes j hj)
  lba := ⟨by decide, selectable_one.mpr (by decide)⟩

theorem fileEntry_ok : SlotsOk fileEntry 3 where
  used := by decide +kernel
  unused j hj := by
    unfold fileEntry
    rw [if_neg (by omega), if_neg (by omega), if_neg (by omega)]
  names := by decide +kernel

section

variable {s : State} {n lba : UInt32}

theorem fileEntry_directory (hroot : s.OneBlock 0 lba fileEntry) (h : s.IsDirectory n) : n = 0 := by
  induction h with
  | root => rfl
  | entry _ hname he hdir ih =>
      rw [ih] at he
      obtain ⟨j, hj, rfl, -⟩ := hroot.hasEntry_iff.mp he
      have hall : ∀ j, j < 21 → (fileEntry j).fType = FileType.directory.code →
          (fileEntry j).iNo = 0 := by
        decide +kernel
      exact hall j hj hdir

theorem fileEntry_treeOk (hroot : s.OneBlock 0 lba fileEntry) : s.TreeOk where
  directory n hn := by
    rw [fileEntry_directory hroot hn]
    exact hroot.directoryOk (by decide) fileEntry_ok
  root name hname := by
    rcases hname with rfl | rfl
    · exact ⟨_, hroot.hasEntry_iff.mpr ⟨0, by decide, rfl, by decide⟩, rfl, rfl⟩
    · exact ⟨_, hroot.hasEntry_iff.mpr ⟨1, by decide, rfl, by decide⟩, rfl, rfl⟩

end

theorem fileState_treeOk : fileState.TreeOk := fileEntry_treeOk fileState_root

theorem fileState_searchable : fileState.Searchable where
  mounted := freshPart_mounted
  fresh p hp := by
    refine ⟨if_neg ?_, rfl⟩
    rintro rfl
    exact absurd hp (by decide)
  opened p hp := by
    rw [List.mem_singleton.mp hp]
    exact ⟨_, rfl, Nat.one_ne_zero⟩
  root := ⟨⟨false, 0⟩, rfl, rfl⟩

theorem pathOk_file : PathOk [[102]] := by
  refine ⟨List.cons_ne_nil _ _, fun name hname => ?_, by decide⟩
  rw [List.mem_singleton.mp hname]
  exact ⟨List.cons_ne_nil _ _, by decide, by decide⟩

/-- The file itself is found. -/
theorem searchFile_right_file : PathOk [[102]] ∧
    Returns (searchFile (joinPath [[102]])) fileState (SearchRight fileState 0 [[102]]) := by
  refine ⟨pathOk_file, (searchFile_right_iff fileState_searchable fileState_treeOk pathOk_file).mpr
    (Or.inr (Or.inr ?_))⟩
  refine (searchClear_iff (fun _ => rfl) [[102]] 0 0).mpr ?_
  rintro ⟨front, back, d, e, hsplit, hback, hf, -⟩
  cases hf with
  | last _ =>
      rw [List.singleton_append, List.cons.injEq] at hsplit
      exact hback hsplit.2.symm
  | next _ _ hrest =>
      rw [List.cons_append, List.cons.injEq] at hsplit
      rw [(List.append_eq_nil_iff.mp hsplit.2.symm).1] at hrest
      cases hrest

/-- The path `/f/x` leads nowhere, but `search_file` reports the file `f`. -/
theorem searchFile_through_file : fileState.Searchable ∧ fileState.TreeOk ∧
    PathOk [[102], [120]] ∧ (∀ m, fileState.supply m = true) ∧
    ((searchFile (joinPath [[102], [120]])).run fileState).toOption.map (fun r => r.1.1) = some 1 ∧
    ¬Returns (searchFile (joinPath [[102], [120]])) fileState
      (SearchRight fileState 0 [[102], [120]]) := by
  have hrun : ((searchFile (joinPath [[102], [120]])).run fileState).toOption.map
      (fun r => r.1.1) = some 1 := by
    decide +kernel
  refine ⟨fileState_searchable, fileState_treeOk, ?_, fun _ => rfl, hrun, fun h => ?_⟩
  · refine ⟨List.cons_ne_nil _ _, fun name hname => ?_, by decide⟩
    rcases List.mem_cons.mp hname with rfl | hname
    · exact ⟨List.cons_ne_nil _ _, by decide, by decide⟩
    · rw [List.mem_singleton.mp hname]
      exact ⟨List.cons_ne_nil _ _, by decide, by decide⟩
  · obtain ⟨r, t, hr, hright⟩ := returns_iff.mp h
    rw [hr] at hrun
    have hone : r.1 = 1 := Option.some.inj hrun
    obtain ⟨d, e, hresolves, -⟩ := (hright.found 1 (by decide)).mp hone
    cases hresolves with
    | next he hdir hrest =>
        obtain ⟨j, hj, rfl, hname⟩ := fileState_root.hasEntry_iff.mp he
        have hall : ∀ j, j < 21 → (fileEntry j).name = [102] →
            (fileEntry j).fType ≠ FileType.directory.code := by
          decide +kernel
        exact hall j hj hname hdir

end OsTruth
