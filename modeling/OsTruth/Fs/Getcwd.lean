/-
`sys_getcwd` of `fs/fs.c`, and `search_file` on the path that it writes.

The function climbs from the working directory to the root.  At each step it looks up `..`
in the first block of the directory and then the number of the directory in its parent, so
the names come out from the last to the first and are turned round at the end.
-/
import Mathlib.Data.List.Induction
import OsTruth.Fs.Search

namespace OsTruth

open ByteString Fallible

/-! ## The functions -/

/-- The result of `inode_open` is used after `inode_close` for `i_sectors[0]` only, which
was read before. -/
def getParentDirInodeNr (childInodeNr : UInt32) : Kern UInt32 := do
  let p ← inodeOpen childInodeNr
  let i ← loadInode p
  let s ← get
  kassert (s.part.sb.dataStartLba ≤ i.sector 0)
  inodeClose p
  let ioBuf ← ideRead (i.sector 0) (.zero 512) 1
  let e := slotAt ioBuf.data 1
  kassert (e.iNo < 4096 ∧ e.fType = FileType.directory.code)
  pure e.iNo

/-- `get_child_dir_name`, with the new `path` for the result 0 and `none` for -1. -/
def getChildDirName (pInodeNr cInodeNr : UInt32) (path : Str) : Kern (Option Str) := do
  let p ← inodeOpen pInodeNr
  let i ← loadInode p
  let allBlocks ← collectBlocks i
  inodeClose p
  let _ ← getEntrySize
  let blockCnt := if i.sector 12 ≠ 0 then 140 else 12
  match ← scanBlocks (fun e => e.iNo = cInodeNr) allBlocks blockCnt 0 with
  | some e => do
      let path ← StateT.lift (appendName path e.name)
      pure (some path)
  | none => pure none

/-- The loop that climbs to the root.  Each round appends a slash at least to
`full_path_reverse`, so `maxPathLen` rounds do not fit. -/
def climb : Nat → UInt32 → Str → Kern (Option Str)
  | 0, childInodeNr, path => if childInodeNr = 0 then pure (some path) else undefined
  | left + 1, childInodeNr, path =>
      if childInodeNr = 0 then pure (some path)
      else do
        let parentInodeNr ← getParentDirInodeNr childInodeNr
        match ← getChildDirName parentInodeNr childInodeNr path with
        | none => pure none
        | some path => climb left parentInodeNr path

/-- `strrchr(s, '/')`, with what stands before it. -/
def splitLast (s : Str) : Option (Str × Str) :=
  if slash ∈ s then
    let name := (s.reverse.takeWhile (· ≠ slash)).reverse
    some (s.take (s.length - (name.length + 1)), slash :: name)
  else none

/-- The loop that turns the path round, into a buffer of `bufSize` bytes.  Each round takes
a slash away at least. -/
def turnPath (bufSize : Nat) : Nat → Str → Str → Except Fault Str
  | 0, _, _ => .error .undefined
  | left + 1, fullPathReverse, buf =>
      match splitLast fullPathReverse with
      | none => .ok buf
      | some (front, last) =>
          if buf.length + last.length < bufSize then turnPath bufSize left front (buf ++ last)
          else .error .undefined

/-- `sys_getcwd` with a buffer of `bufSize` bytes, or `NULL`.  The result is the string in
the buffer.  For the root the memory of `io_buf` is not freed. -/
def sysGetcwd (buf : Option Nat) (size : UInt32) : Kern (Option Str) := do
  kassert (buf ≠ none)
  match buf with
  | none => undefined
  | some bufSize =>
      match ← sysMallocBuf with
      | none => pure none
      | some ioBuf => do
          let s ← get
          let childInodeNr := s.cur.cwdInodeNr
          kassert (childInodeNr < 4096)
          if childInodeNr = 0 then
            if 2 ≤ bufSize then pure (some [slash]) else undefined
          else if bufSize < size.toNat then undefined
          else do
            match ← climb maxPathLen childInodeNr [] with
            | none => do
                sysFreeBuf ioBuf
                pure none
            | some path => do
                kassert (path.length ≤ size.toNat)
                let path ← StateT.lift (turnPath bufSize (path.length + 1) path [])
                sysFreeBuf ioBuf
                pure (some path)

/-! ## Turning the path round -/

section

variable {name : Str} {names : List Str} {acc : Str} {bufSize : Nat}

theorem joinPath_append (names names' : List Str) :
    joinPath (names ++ names') = joinPath names ++ joinPath names' := by
  induction names with
  | nil => rfl
  | cons name names ih =>
      simp only [List.cons_append, joinPath, ih, List.append_assoc]

theorem joinPath_singleton (name : Str) : joinPath [name] = slash :: name := by
  rw [joinPath, joinPath, List.append_nil]

theorem length_joinPath_reverse (names : List Str) :
    (joinPath names.reverse).length = (joinPath names).length := by
  induction names with
  | nil => rfl
  | cons name names ih =>
      rw [List.reverse_cons, joinPath_append, joinPath_singleton, List.length_append, ih,
        List.length_cons, joinPath_length]
      omega

theorem lastName_append (front : Str) (hname : slash ∉ name) :
    ((front ++ slash :: name).reverse.takeWhile (· ≠ slash)).reverse = name := by
  have hall : ∀ c, c ∈ name.reverse → decide (c ≠ slash) = true := by
    intro c hc
    rw [decide_eq_true_eq]
    rintro rfl
    exact hname (List.mem_reverse.mp hc)
  rw [List.reverse_append, List.reverse_cons, List.append_assoc,
    List.takeWhile_append_of_pos hall]
  simp

theorem splitLast_append (front : Str) (hname : slash ∉ name) :
    splitLast (front ++ slash :: name) = some (front, slash :: name) := by
  unfold splitLast
  rw [if_pos (List.mem_append_right front List.mem_cons_self)]
  show some (_, _) = _
  rw [lastName_append front hname]
  simp

/-- The names are copied in the opposite order, as far as the buffer goes. -/
theorem turnPath_join (hslash : ∀ name, name ∈ names → slash ∉ name) :
    ∀ (left : Nat) (acc : Str), names.length < left → acc.length < bufSize ∨ names ≠ [] →
      turnPath bufSize left (joinPath names) acc =
        if acc.length + (joinPath names).length < bufSize then .ok (acc ++ joinPath names.reverse)
        else .error .undefined := by
  induction names using List.reverseRecOn with
  | nil =>
      intro left acc hleft hacc
      obtain ⟨left, rfl⟩ := Nat.exists_eq_add_one_of_ne_zero (Nat.ne_zero_of_lt hleft)
      have hfit : acc.length + 0 < bufSize := hacc.resolve_right (not_not.mpr rfl)
      rw [List.reverse_nil, joinPath, List.append_nil, List.length_nil, if_pos hfit]
      rfl
  | append_singleton names name ih =>
      intro left acc hleft _
      obtain ⟨left, rfl⟩ := Nat.exists_eq_add_one_of_ne_zero (Nat.ne_zero_of_lt hleft)
      rw [joinPath_append, joinPath_singleton]
      rw [List.length_append] at hleft ⊢
      have hrest : ∀ c, c ∈ names → slash ∉ c := fun c hc => hslash c (List.mem_append_left _ hc)
      have hlast := splitLast_append (joinPath names)
        (hslash name (List.mem_append_right _ List.mem_cons_self))
      have hnames : names.length < left := by
        rw [List.length_singleton] at hleft
        omega
      rw [turnPath, hlast]
      show (if acc.length + (slash :: name).length < bufSize then _ else _) = _
      by_cases hfit : acc.length + (slash :: name).length < bufSize
      · have hlen : (acc ++ slash :: name).length = acc.length + (slash :: name).length :=
          List.length_append
        rw [if_pos hfit, ih hrest left _ hnames (Or.inl (by omega)), hlen, List.reverse_append,
          List.append_assoc, Nat.add_right_comm, Nat.add_assoc acc.length]
        rfl
      · rw [if_neg hfit, if_neg (by omega)]

end

/-! ## The tree of directories -/

/-- A name other than those of the directory itself and of its parent. -/
structure ProperName (name : Str) : Prop where
  ne : name ≠ []
  self : name ≠ [dot]
  parent : name ≠ [dot, dot]

def State.SlotOf (s : State) (n : UInt32) (k j : Nat) (e : DirEntry) : Prop :=
  ∃ i, s.inodeNamed n = some i ∧ k < 140 ∧ j < dirEntrysPerSec ∧ allBlocksOf s.disk i k ≠ 0 ∧
    blockSlot s.disk (allBlocksOf s.disk i k) j = e

/-- The entry of a subdirectory of `n`. -/
structure State.Child (s : State) (n : UInt32) (e : DirEntry) : Prop where
  entry : s.HasEntry n e.name e
  name : ProperName e.name
  type : e.fType = FileType.directory.code

structure State.StartsWithDots (s : State) (n parent : UInt32) : Prop where
  block : ∃ i, s.inodeNamed n = some i ∧ s.part.sb.dataStartLba ≤ i.sector 0
  self : ∃ e, s.SlotOf n 0 0 e ∧ e.name = [dot] ∧ e.iNo = n ∧ e.fType = FileType.directory.code
  parent : ∃ e, s.SlotOf n 0 1 e ∧ e.name = [dot, dot] ∧ e.iNo = parent ∧
    e.fType = FileType.directory.code

/-- A tree of directories.  A subdirectory is named by one entry of its parent, and no
entry names the root. -/
structure State.DirTree (s : State) : Prop where
  ok : s.TreeOk
  noSlash : ∀ n e, s.IsDirectory n → s.HasEntry n e.name e → slash ∉ e.name
  dots : ∀ n, s.IsDirectory n → ∃ parent, s.StartsWithDots n parent
  child : ∀ n e, s.IsDirectory n → s.Child n e → e.iNo ≠ 0 ∧ s.StartsWithDots e.iNo n
  once : ∀ n e k j k' j' e', s.IsDirectory n → s.Child n e → s.SlotOf n k j e →
    s.SlotOf n k' j' e' → ProperName e'.name → e'.iNo = e.iNo → k' = k ∧ j' = j

/-- The absolute path of a directory, as the names on it. -/
inductive State.PathTo (s : State) : List Str → UInt32 → Prop
  | root : PathTo s [] 0
  | child {names : List Str} {n : UInt32} {e : DirEntry} (h : PathTo s names n)
      (he : s.Child n e) : PathTo s (names ++ [e.name]) e.iNo

/-- The absolute path as a string. -/
def absolutePath (names : List Str) : Str := if names = [] then [slash] else joinPath names

section

variable {s : State} {n m parent parent' : UInt32} {names names' : List Str} {e e' : DirEntry}
variable {k j : Nat} {name : Str}

theorem State.hasEntry_iff : s.HasEntry n name e ↔ ∃ k j, s.SlotOf n k j e ∧ e.name = name := by
  constructor
  · rintro ⟨i, k, j, hi, ⟨hk, hj, hne, hname⟩, rfl⟩
    exact ⟨k, j, ⟨i, hi, hk, hj, hne, rfl⟩, hname⟩
  · rintro ⟨k, j, ⟨i, hi, hk, hj, hne, rfl⟩, hname⟩
    exact ⟨i, k, j, hi, ⟨hk, hj, hne, hname⟩, rfl⟩

theorem State.SlotOf.eq (h : s.SlotOf n k j e) (h' : s.SlotOf n k j e') : e = e' := by
  obtain ⟨i, hi, -, -, -, rfl⟩ := h
  obtain ⟨i', hi', -, -, -, rfl⟩ := h'
  rw [hi, Option.some.injEq] at hi'
  rw [hi']

theorem State.StartsWithDots.unique (h : s.StartsWithDots n parent)
    (h' : s.StartsWithDots n parent') : parent = parent' := by
  obtain ⟨e, he, -, hno, -⟩ := h.parent
  obtain ⟨e', he', -, hno', -⟩ := h'.parent
  rw [← hno, ← hno', he.eq he']

namespace State.PathTo

theorem isDirectory (h : s.PathTo names n) : s.IsDirectory n := by
  induction h with
  | root => exact .root
  | child _ he ih => exact .entry ih he.name.ne he.entry he.type

theorem cases_on (h : s.PathTo names n) : (names = [] ∧ n = 0) ∨
    ∃ names' m e, names = names' ++ [e.name] ∧ n = e.iNo ∧ s.PathTo names' m ∧ s.Child m e := by
  cases h with
  | root => exact Or.inl ⟨rfl, rfl⟩
  | child h he => exact Or.inr ⟨_, _, _, rfl, rfl, h, he⟩

/-- The entries of `n` that name the same subdirectory are one. -/
theorem child_eq (ht : s.DirTree) (hn : s.IsDirectory n) (he : s.Child n e) (he' : s.Child n e')
    (hno : e'.iNo = e.iNo) : e' = e := by
  obtain ⟨k, j, hslot, -⟩ := State.hasEntry_iff.mp he.entry
  obtain ⟨k', j', hslot', -⟩ := State.hasEntry_iff.mp he'.entry
  obtain ⟨rfl, rfl⟩ := ht.once n e k j k' j' e' hn he hslot hslot' he'.name hno
  exact hslot'.eq hslot

/-- A directory has one absolute path. -/
theorem unique (ht : s.DirTree) (h : s.PathTo names n) (h' : s.PathTo names' n) :
    names = names' := by
  induction h generalizing names' with
  | root =>
      rcases h'.cases_on with ⟨hnames, -⟩ | ⟨names₁, m, e, -, hno, hm, he⟩
      · exact hnames.symm
      · exact absurd hno.symm (ht.child m e hm.isDirectory he).1
  | @child names n e h he ih =>
      obtain ⟨hne, hdots⟩ := ht.child n e h.isDirectory he
      rcases h'.cases_on with ⟨-, hno⟩ | ⟨names₁, m, e', rfl, hno, hm, he'⟩
      · exact absurd hno hne
      · have hdots' := (ht.child m e' hm.isDirectory he').2
        rw [← hno] at hdots'
        have hparent := hdots.unique hdots'
        rw [← hparent] at hm he'
        rw [ih hm, child_eq ht h.isDirectory he he' hno.symm]

/-- Only one slot of the parent has the number of a subdirectory. -/
theorem number_unique (ht : s.DirTree) (h : s.PathTo names n) (he : s.Child n e)
    (hslot : s.SlotOf n k j e') (hno : e'.iNo = e.iNo) : e' = e := by
  have hn := h.isDirectory
  have hdir := ht.ok.directory n hn
  obtain ⟨hne, -⟩ := ht.child n e hn he
  have hpath : s.PathTo (names ++ [e.name]) e'.iNo := hno ▸ h.child he
  have hentry : s.HasEntry n e'.name e' := State.hasEntry_iff.mpr ⟨k, j, hslot, rfl⟩
  have hused : e'.name ≠ [] := by
    obtain ⟨i, hi, hk, hj, hblock, heq⟩ := hslot
    have hok := hdir.slot i k j hi hk hj hblock
    rw [heq] at hok
    rcases hok with hzero | hok
    · rw [hzero] at hno
      exact absurd hno.symm hne
    · exact hok.name.1
  -- a directory is named by itself and by its children, and its path would be longer
  have hself : e'.name ≠ [dot] := by
    intro hname
    obtain ⟨parent, hdots⟩ := ht.dots n hn
    obtain ⟨e₀, he₀, hname₀, hno₀, -⟩ := hdots.self
    have heq := hentry.unique hdir hused (State.hasEntry_iff.mpr ⟨0, 0, he₀, hname₀.trans hname.symm⟩)
    rw [heq, hno₀] at hpath
    have hlen := congrArg List.length (hpath.unique ht h)
    rw [List.length_append, List.length_singleton] at hlen
    omega
  have hparent : e'.name ≠ [dot, dot] := by
    intro hname
    rcases h.cases_on with ⟨hroot, hzero⟩ | ⟨names₁, m, e₁, hnames, hno₁, hm, he₁⟩
    · obtain ⟨e₀, he₀, hno₀, -⟩ := ht.ok.root [dot, dot] (Or.inr rfl)
      rw [hzero] at hentry hdir
      have heq := hentry.unique hdir hused (hname ▸ he₀)
      rw [heq, hno₀] at hno
      exact hne hno.symm
    · have hdots := (ht.child m e₁ hm.isDirectory he₁).2
      rw [← hno₁] at hdots
      obtain ⟨e₀, he₀, hname₀, hno₀, -⟩ := hdots.parent
      have heq := hentry.unique hdir hused
        (State.hasEntry_iff.mpr ⟨0, 1, he₀, hname₀.trans hname.symm⟩)
      rw [heq, hno₀] at hpath
      have hlen := congrArg List.length (hpath.unique ht hm)
      rw [hnames, List.length_append, List.length_append, List.length_singleton,
        List.length_singleton] at hlen
      omega
  obtain ⟨k', j', hslot', -⟩ := State.hasEntry_iff.mp he.entry
  obtain ⟨rfl, rfl⟩ := ht.once n e k' j' k j e' hn he hslot' hslot ⟨hused, hself, hparent⟩ hno
  exact hslot.eq hslot'

end State.PathTo

end

/-! ## Looking into an inode -/

/-- The state went on, and only memory was asked for. -/
def State.GoesOn (s t : State) : Prop := ∃ j k, s.next ≤ k ∧ t = s.after j k

/-- In `t` the inode `i` is open for a moment as `p`. -/
structure State.Visits (s : State) (i : Inode) (p : Ptr) (t : State) : Prop where
  inode : ∃ j, t.inodes p = some j ∧ j.iSectors = i.iSectors
  disk : t.disk = s.disk
  mounted : t.part.Mounted
  sb : t.part.sb = s.part.sb
  close : Returns (inodeClose p) t fun _ u => s.GoesOn u

section

variable {s t u : State} {n c : UInt32} {i j : Inode} {p : Ptr} {e : DirEntry} {path : Str}

theorem State.GoesOn.trans (h : s.GoesOn t) (h' : t.GoesOn u) : s.GoesOn u := by
  obtain ⟨j, k, hk, rfl⟩ := h
  obtain ⟨j', k', hk', rfl⟩ := h'
  exact ⟨j + j', k', Nat.le_trans hk hk', State.after_after s j k j' k'⟩

theorem State.Searchable.visit (hs : s.Searchable) (hn : n < 4096)
    (hmem : ∀ m, s.supply m = true) (hi : s.inodeNamed n = some i) :
    Returns (inodeOpen n) s (s.Visits i) := by
  obtain ⟨r, hfirst⟩ := firstOpen_ok n (l := s.part.openInodes) fun p hp =>
    (hs.opened p hp).imp fun _ h => h.1
  rw [State.inodeNamed, hfirst] at hi
  cases r with
  | some p =>
      have hp : s.inodes p = some i := hi
      obtain ⟨i', hi', hcnt⟩ := hs.opened p (firstOpen_some hfirst).1
      rw [hp, Option.some.injEq] at hi'
      rw [← hi'] at hcnt
      refine (inodeOpen_again hfirst hp).mpr ⟨⟨_, if_pos rfl, rfl⟩, rfl, hs.mounted, rfl, ?_⟩
      have hone : i.iOpenCnts + 1 ≠ 1 := fun h => hcnt (Nat.succ.inj h)
      have hdec : decOpenCnts (i.iOpenCnts + 1) = i.iOpenCnts := if_neg (Nat.succ_ne_zero _)
      rw [Returns, wp_inodeClose (i := { i with iOpenCnts := i.iOpenCnts + 1 }) (if_pos rfl)]
      refine ⟨fun _ => ⟨0, s.next, Nat.le_refl _, ?_⟩, fun h => absurd h hone⟩
      rw [hdec]
      exact (State.putInode_putInode s p _ _).trans (State.putInode_self hp)
  | none =>
      have hslot : readSlot s.part s.disk n = i := Option.some.inj hi
      refine (inodeOpen_first hs.mounted hn hfirst).mpr ⟨hmem 0, hmem 1, ⟨_, if_pos rfl, ?_⟩, rfl,
        { hs.mounted with }, rfl, ?_⟩
      · rw [← hslot]
      · rw [Returns, wp_inodeClose (i := { readSlot s.part s.disk n with iOpenCnts := 1 })
          (if_pos rfl)]
        refine ⟨fun h => absurd rfl h, fun _ => ⟨fun _ => ⟨2, s.next + 2, by omega, ?_⟩,
          Bool.noConfusion⟩⟩
        have hnone := (hs.fresh ⟨false, s.next⟩ (Nat.le_refl _)).1
        refine State.eq_after (r := 0) (j := 2) ?_ (fun q => ?_) (fun _ => rfl) rfl
        · have herase : (⟨false, s.next⟩ :: s.part.openInodes).erase ⟨false, s.next⟩ =
              s.part.openInodes := List.erase_cons_head _ _
          exact congrArg (fun l => { s.part with openInodes := l }) herase
        · show (if q = ⟨false, s.next⟩ then none else if q = ⟨false, s.next⟩ then _ else
            s.inodes q) = _
          by_cases hq : q = ⟨false, s.next⟩
          · rw [if_pos hq, hq, hnone]
          · rw [if_neg hq, if_neg hq]

theorem State.DirectoryOk.after (h : s.DirectoryOk n) (j k : Nat) : (s.after j k).DirectoryOk n :=
  ⟨h.number, h.inode, h.slot, h.unique⟩

theorem State.StartsWithDots.after {parent : UInt32} (h : s.StartsWithDots n parent) (j k : Nat) :
    (s.after j k).StartsWithDots n parent :=
  ⟨h.block, h.self, h.parent⟩

/-- The number in `..`. -/
theorem getParentDirInodeNr_returns (hs : s.Searchable) (hn : n < 4096)
    (hmem : ∀ m, s.supply m = true) {parent : UInt32} (hdir : s.DirectoryOk n)
    (hdots : s.StartsWithDots n parent) (hparent : parent < 4096) :
    Returns (getParentDirInodeNr n) s fun r t => r = parent ∧ s.GoesOn t := by
  obtain ⟨i, hi, hfirst⟩ := hdots.block
  obtain ⟨e, ⟨i', hi', -, -, hne, hslot⟩, -, hno, htype⟩ := hdots.parent
  obtain ⟨i₀, hi₀, -, hsel⟩ := hdir.inode
  rw [hi, Option.some.injEq] at hi' hi₀
  rw [← hi'] at hne hslot
  rw [← hi₀] at hsel
  have hblock : allBlocksOf s.disk i 0 = i.sector 0 := allBlocksOf_direct _ _ (by decide)
  have hselect : Selectable (i.sector 0) 1 := by
    rw [← hblock]
    exact selectable_allBlocks hsel (by decide) hne
  unfold getParentDirInodeNr
  rw [Returns, Wp.bind]
  refine (hs.visit hn hmem hi).call fun p t hv => ?_
  obtain ⟨j, hj, hsectors⟩ := hv.inode
  have hsector : j.sector 0 = i.sector 0 := by rw [Inode.sector, Inode.sector, hsectors]
  rw [Wp.bind, wp_loadInode_some hj, Wp.bind, Wp.get, Wp.bind, wp_kassert, hv.sb, hsector]
  refine ⟨fun _ => ?_, fun h => h hfirst⟩
  rw [Wp.bind]
  refine hv.close.call fun _ u hu => ?_
  obtain ⟨m, k, hk, rfl⟩ := hu
  rw [Wp.bind, wp_ideRead]
  refine ⟨fun _ => ⟨fun _ => ?_, fun h => h (Nat.le_refl _)⟩, fun h => h hselect⟩
  have hread : slotAt (splice (fun _ => 0) 0 (512 * 1) (view s.disk (sectorOff (i.sector 0)))) 1 = e := by
    rw [← hslot, hblock]
    refine DirEntry.ofBytes_congr fun b hb => ?_
    unfold dirEntrySize at *
    rw [splice_inside (Nat.zero_le _) (by omega), Nat.sub_zero]
  show Wp _ (s.after m k) _ _
  rw [Wp.bind, wp_kassert]
  have hok : e.iNo < 4096 ∧ e.fType = FileType.directory.code := ⟨hno.symm ▸ hparent, htype⟩
  rw [← hread] at hok
  exact ⟨fun _ => ⟨(congrArg DirEntry.iNo hread).trans hno, m, k, hk, rfl⟩, fun h => h hok⟩

/-- The name of the slot with the number, when there is only one, is appended if it fits. -/
theorem getChildDirName_iff (hs : s.Searchable) (hn : n < 4096)
    (hmem : ∀ m, s.supply m = true) (hdir : s.DirectoryOk n) {k₀ j₀ : Nat}
    (hslot : s.SlotOf n k₀ j₀ e) (honce : ∀ k j e', s.SlotOf n k j e' → e'.iNo = e.iNo → e' = e)
    (hname : e.name.length < maxFileNameLen) : ∃ u, s.GoesOn u ∧
      ∀ Q : Option Str → State → Prop, Returns (getChildDirName n e.iNo path) s Q ↔
        path.length + 1 + e.name.length < maxPathLen ∧ Q (some (path ++ slash :: e.name)) u := by
  obtain ⟨i, hi, hk₀, hj₀, hne₀, heq₀⟩ := hslot
  obtain ⟨i₀, hi₀, -, hsel⟩ := hdir.inode
  rw [hi, Option.some.injEq] at hi₀
  rw [← hi₀] at hsel
  have htable : i.sector 12 ≠ 0 → Selectable (i.sector 12) 1 := fun h => hsel _ ⟨h, Or.inl rfl⟩
  -- the blocks that are looked at hold all slots
  have hcnt : ∃ cnt, (if i.sector 12 ≠ 0 then 140 else 12) = cnt ∧ cnt ≤ 140 ∧ k₀ < cnt := by
    by_cases h : i.sector 12 = 0
    · refine ⟨12, if_neg (not_not.mpr h), by omega, ?_⟩
      by_contra hk
      rw [allBlocksOf_no_table _ (by omega) h] at hne₀
      exact hne₀ rfl
    · exact ⟨140, if_pos h, Nat.le_refl _, hk₀⟩
  obtain ⟨cnt, hcnt, hle, hk⟩ := hcnt
  have hfound : firstEntry (fun e' => e'.iNo = e.iNo) s.disk (allBlocksOf s.disk i) cnt 0 = some e := by
    cases hfirst : firstEntry (fun e' => e'.iNo = e.iNo) s.disk (allBlocksOf s.disk i) cnt 0 with
    | none =>
        exact absurd (congrArg DirEntry.iNo heq₀)
          (firstEntry_none hfirst k₀ j₀ (Nat.zero_le _) (by omega) hj₀ hne₀)
    | some e' =>
        obtain ⟨k, j, hk, hj, hne, heq, hno⟩ := firstEntry_some hfirst
        exact congrArg some (honce k j e' ⟨i, hi, by omega, hj, hne, heq⟩ hno)
  obtain ⟨p, t, hopen, hv⟩ := returns_iff.mp (hs.visit hn hmem hi)
  obtain ⟨_, u, hclose, hu⟩ := returns_iff.mp hv.close
  obtain ⟨j, hj, hsectors⟩ := hv.inode
  have hsector : j.sector 12 = i.sector 12 := by rw [Inode.sector, Inode.sector, hsectors]
  refine ⟨u, hu, fun Q => ?_⟩
  unfold getChildDirName
  rw [Returns, Wp.bind, Wp.of_run hopen, Wp.bind, wp_loadInode_some hj, Wp.bind, wp_collectBlocks,
    hsector, hv.disk, allBlocksOf_sectors s.disk hsectors, hcnt]
  refine (and_iff_left fun h h' => h' (htable h)).trans ((forall_prop_of_true htable).trans ?_)
  obtain ⟨m, k, hk', rfl⟩ := hu
  have hsize := hs.mounted.entrySize
  rw [Wp.bind, Wp.of_run hclose, Wp.bind, wp_getEntrySize]
  refine (and_iff_left fun h => h hsize).trans ((forall_prop_of_true hsize).trans ?_)
  rw [Wp.bind, wp_scanBlocks _ (fun k hk hne => selectable_allBlocks hsel hk hne) _ _ (by omega)]
  show Wp (match firstEntry (fun e' => e'.iNo = e.iNo) s.disk (allBlocksOf s.disk i) cnt 0 with
    | some e => _
    | none => _) _ _ _ ↔ _
  rw [hfound]
  show Wp (StateT.lift (appendName path e.name) >>= _) _ _ _ ↔ _
  by_cases hlen : path.length + 1 + e.name.length < maxPathLen
  · have happend : appendName path e.name = .ok (path ++ slash :: e.name) := if_pos ⟨hname, hlen⟩
    rw [Wp.bind, happend, Wp.lift_pure]
    exact (and_iff_right hlen).symm
  · have happend : appendName path e.name = .error .undefined := if_neg fun h => hlen h.2
    rw [Wp.bind, happend, Wp.lift]
    exact iff_of_false (fun h => h.2 .undefined rfl) fun h => hlen h.1

/-! ## Climbing -/

theorem State.PathTo.lt_4096 (ht : s.DirTree) {names : List Str} (h : s.PathTo names n) : n < 4096 :=
  (ht.ok.directory n h.isDirectory).number

/-- From a directory the climb collects the names on its path, as far as they fit. -/
theorem climb_iff (hs : s.Searchable) (ht : s.DirTree) (hmem : ∀ m, s.supply m = true)
    {names : List Str} (h : s.PathTo names n) :
    ∀ (left : Nat) (path : Str) (t : State), s.GoesOn t → maxPathLen ≤ left + path.length →
      path.length < maxPathLen → ∃ u, s.GoesOn u ∧ ∀ Q : Option Str → State → Prop,
        Returns (climb left n path) t Q ↔ path.length + (joinPath names).length < maxPathLen ∧
          Q (some (path ++ joinPath names.reverse)) u := by
  induction h with
  | root =>
      intro left path t hst _ hpath
      have hclimb : climb left 0 path = pure (some path) := by
        cases left with
        | zero => rfl
        | succ left => rfl
      refine ⟨t, hst, fun Q => ?_⟩
      rw [hclimb, Returns, Wp.pure, List.reverse_nil, joinPath, List.append_nil]
      exact (and_iff_right hpath).symm
  | @child names n e h he ih =>
      intro left path t hst hleft hpath
      obtain ⟨left, rfl⟩ := Nat.exists_eq_add_one_of_ne_zero (n := left) (by omega)
      obtain ⟨hne, hdots⟩ := ht.child n e h.isDirectory he
      have hdir := ht.ok.directory e.iNo (h.child he).isDirectory
      have hdirn := ht.ok.directory n h.isDirectory
      obtain ⟨j, k, hk, rfl⟩ := hst
      have hs₁ := hs.after j hk
      have hmem₁ : ∀ m, (s.after j k).supply m = true := fun m => hmem (m + j)
      obtain ⟨r, t₁, hparent, hr, j₁, k₁, hk₁, rfl⟩ := returns_iff.mp
        (getParentDirInodeNr_returns hs₁ hdir.number hmem₁ (hdir.after j k) (hdots.after j k)
          hdirn.number)
      rw [hr] at hparent
      obtain ⟨k₀, j₀, hslot, -⟩ := State.hasEntry_iff.mp he.entry
      obtain ⟨t₂, ht₂, hchild⟩ := @getChildDirName_iff _ _ e path (hs₁.after j₁ hk₁) hdirn.number
        (fun m => hmem₁ (m + j₁)) ((hdirn.after j k).after j₁ k₁) _ _ hslot
        (fun k j e' hslot' hno => h.number_unique ht he hslot' hno)
        (he.entry.ok hdirn he.name.ne).1.name.2
      have hgo : s.GoesOn t₂ := State.GoesOn.trans ⟨j, k, hk, rfl⟩
        (State.GoesOn.trans ⟨j₁, k₁, hk₁, rfl⟩ ht₂)
      have htotal : path.length + (joinPath (names ++ [e.name])).length =
          path.length + 1 + e.name.length + (joinPath names).length := by
        rw [joinPath_append, joinPath_singleton, List.length_append, List.length_cons]
        omega
      have hgrown : (path ++ slash :: e.name).length = path.length + 1 + e.name.length := by
        rw [List.length_append, List.length_cons]
        omega
      have hstep : ∀ Q : Option Str → State → Prop,
          Returns (climb (left + 1) e.iNo path) (s.after j k) Q ↔
            path.length + 1 + e.name.length < maxPathLen ∧
              Returns (climb left n (path ++ slash :: e.name)) t₂ Q := by
        intro Q
        rw [climb, if_neg hne, Returns, Wp.bind, Wp.of_run hparent, Wp.bind]
        exact hchild _
      by_cases hfit : path.length + 1 + e.name.length < maxPathLen
      · obtain ⟨u, hu, hrest⟩ := ih left (path ++ slash :: e.name) t₂ hgo (by omega) (by omega)
        refine ⟨u, hu, fun Q => ?_⟩
        rw [hstep, hrest, hgrown, htotal, List.reverse_append, List.append_assoc, and_iff_right hfit]
        rfl
      · refine ⟨t₂, hgo, fun Q => ?_⟩
        rw [hstep, htotal]
        exact iff_of_false (fun h => hfit h.1) fun h => hfit (by omega)

end

/-! ## Searching for the path -/

structure State.SameTree (s t : State) : Prop where
  disk : t.disk = s.disk
  inodes : t.inodes = s.inodes
  part : t.part = s.part

/-- Nothing of `s` is different but the working directory, which is `n`.  Blocks may have been
taken for buffers: in the root `sys_getcwd` keeps its `io_buf`. -/
structure State.Moved (s : State) (n : UInt32) (t : State) : Prop where
  tree : s.SameTree t
  dirs : t.dirs = s.dirs
  rootDir : t.rootDir = s.rootDir
  fileTable : t.fileTable = s.fileTable
  bufs : s.bufs <:+ t.bufs
  searchable : t.Searchable
  supply : ∀ m, t.supply m = true
  cur : t.cur = { s.cur with cwdInodeNr := n }

section

variable {s t : State} {n d d' : UInt32} {names : List Str} {name : Str} {e e' f : DirEntry}

theorem State.SameTree.symm (h : s.SameTree t) : t.SameTree s :=
  ⟨h.disk.symm, h.inodes.symm, h.part.symm⟩

theorem State.SameTree.inodeNamed (h : s.SameTree t) (n : UInt32) :
    t.inodeNamed n = s.inodeNamed n := by
  unfold State.inodeNamed
  rw [h.disk, h.inodes, h.part]

theorem State.SameTree.slotOf (h : s.SameTree t) {k j : Nat} (hslot : s.SlotOf n k j e) :
    t.SlotOf n k j e := by
  unfold State.SlotOf at *
  rw [h.inodeNamed, h.disk]
  exact hslot

theorem State.SameTree.hasEntry (h : s.SameTree t) (he : s.HasEntry n name e) :
    t.HasEntry n name e := by
  obtain ⟨k, j, hslot, hname⟩ := State.hasEntry_iff.mp he
  exact State.hasEntry_iff.mpr ⟨k, j, h.slotOf hslot, hname⟩

theorem State.SameTree.isDirectory (h : s.SameTree t) (hn : s.IsDirectory n) : t.IsDirectory n := by
  induction hn with
  | root => exact .root
  | entry _ hname he hdir ih => exact .entry ih hname (h.hasEntry he) hdir

theorem State.SameTree.child (h : s.SameTree t) (he : s.Child n e) : t.Child n e :=
  ⟨h.hasEntry he.entry, he.name, he.type⟩

theorem State.SameTree.startsWithDots (h : s.SameTree t) {parent : UInt32}
    (hdots : s.StartsWithDots n parent) : t.StartsWithDots n parent where
  block := by
    rw [h.inodeNamed, h.part]
    exact hdots.block
  self := hdots.self.imp fun _ he => ⟨h.slotOf he.1, he.2⟩
  parent := hdots.parent.imp fun _ he => ⟨h.slotOf he.1, he.2⟩

theorem State.SameTree.directoryOk (h : s.SameTree t) (hn : s.DirectoryOk n) : t.DirectoryOk n where
  number := hn.number
  inode := by
    rw [h.inodeNamed, h.disk]
    exact hn.inode
  slot := by
    rw [h.inodeNamed, h.disk]
    exact hn.slot
  unique := by
    rw [h.inodeNamed, h.disk]
    exact hn.unique

theorem State.SameTree.dirTree (h : s.SameTree t) (ht : s.DirTree) : t.DirTree where
  ok := {
    directory := fun n hn => h.directoryOk (ht.ok.directory n (h.symm.isDirectory hn))
    root := fun name hname => (ht.ok.root name hname).imp fun _ he => ⟨h.hasEntry he.1, he.2⟩ }
  noSlash n e hn he := ht.noSlash n e (h.symm.isDirectory hn) (h.symm.hasEntry he)
  dots n hn := (ht.dots n (h.symm.isDirectory hn)).imp fun _ => h.startsWithDots
  child n e hn he := (ht.child n e (h.symm.isDirectory hn) (h.symm.child he)).imp_right
    h.startsWithDots
  once n e k j k' j' e' hn he hslot hslot' :=
    ht.once n e k j k' j' e' (h.symm.isDirectory hn) (h.symm.child he) (h.symm.slotOf hslot)
      (h.symm.slotOf hslot')

theorem State.SameTree.pathTo (h : s.SameTree t) (hpath : s.PathTo names n) : t.PathTo names n := by
  induction hpath with
  | root => exact .root
  | child _ he ih => exact .child ih (h.child he)

theorem State.Resolves.ne_nil (h : s.Resolves n names d e) : names ≠ [] := by
  cases h with
  | last _ => exact List.cons_ne_nil _ _
  | next _ _ _ => exact List.cons_ne_nil _ _

theorem State.Resolves.snoc (h : s.Resolves n names d e) (hdir : e.fType = FileType.directory.code)
    (hf : s.HasEntry e.iNo name f) : s.Resolves n (names ++ [name]) e.iNo f := by
  induction h with
  | last h => exact .next h hdir (.last hf)
  | next h htype _ ih => exact .next h htype (ih hdir hf)

theorem State.Resolves.unique_both (ht : s.TreeOk) (hnames : ∀ name, name ∈ names → name ≠ [])
    (hn : s.IsDirectory n) (h : s.Resolves n names d e) (h' : s.Resolves n names d' e') :
    d = d' ∧ e = e' := by
  induction h with
  | last h =>
      have hne := hnames _ List.mem_cons_self
      obtain ⟨hd, he⟩ := (resolves_last_iff (ht.directory _ hn) hne h d' e').mp h'
      exact ⟨hd.symm, he.symm⟩
  | next h htype hrest ih =>
      have hne := hnames _ List.mem_cons_self
      obtain ⟨-, hrest'⟩ := (resolves_next_iff (ht.directory _ hn) hne h hrest.ne_nil d' e').mp h'
      exact ih (fun c hc => hnames c (List.mem_cons_of_mem _ hc)) (.entry hn hne h htype) hrest'

theorem State.Resolves.unique (ht : s.TreeOk) (hnames : ∀ name, name ∈ names → name ≠ [])
    (hn : s.IsDirectory n) (h : s.Resolves n names d e) (h' : s.Resolves n names d' e') : e = e' :=
  (h.unique_both ht hnames hn h').2

namespace State.PathTo

theorem nameOk (ht : s.DirTree) (h : s.PathTo names n) : ∀ name, name ∈ names → NameOk name := by
  induction h with
  | root => exact fun _ hmem => absurd hmem List.not_mem_nil
  | @child names n e h he ih =>
      intro name hmem
      rcases List.mem_append.mp hmem with hmem | hmem
      · exact ih name hmem
      · rw [List.mem_singleton.mp hmem]
        have hok := (he.entry.ok (ht.ok.directory n h.isDirectory) he.name.ne).1
        exact ⟨he.name.ne, hok.name.2, ht.noSlash n e h.isDirectory he.entry⟩

/-- Looking the names up leads to the directory. -/
theorem resolves (h : s.PathTo names n) (hne : names ≠ []) :
    ∃ d e, s.Resolves 0 names d e ∧ e.fType = FileType.directory.code ∧ e.iNo = n := by
  induction h with
  | root => exact absurd rfl hne
  | @child names n e h he ih =>
      rcases h.cases_on with ⟨rfl, rfl⟩ | ⟨names', m, e₁, hnames, -⟩
      · exact ⟨0, e, .last he.entry, he.type, rfl⟩
      · have hmore : names ≠ [] := by
          rw [hnames]
          exact List.append_ne_nil_of_right_ne_nil _ (List.cons_ne_nil _ _)
        obtain ⟨d, e₀, hres, htype, hno⟩ := ih hmore
        exact ⟨_, e, hres.snoc htype (hno ▸ he.entry), he.type, rfl⟩

/-- No regular file is met on the way. -/
theorem not_regularBefore (ht : s.DirTree) (h : s.PathTo names n) : ¬s.RegularBefore 0 names := by
  induction h with
  | root =>
      rintro ⟨front, back, d, e, hsplit, hback, -⟩
      exact hback (List.append_eq_nil_iff.mp hsplit.symm).2
  | @child names n e h he ih =>
      rintro ⟨front, back, d, f, hsplit, hback, hf, hreg⟩
      obtain ⟨back, last, rfl⟩ := (List.eq_nil_or_concat back).resolve_left hback
      rw [List.concat_eq_append, ← List.append_assoc] at hsplit
      have hnames : names = front ++ back := (List.append_inj' hsplit rfl).1
      by_cases hmore : back = []
      · rw [hmore, List.append_nil] at hnames
        rw [← hnames] at hf
        obtain ⟨d', e', he', htype, -⟩ := h.resolves hf.ne_nil
        have heq := hf.unique ht.ok (fun c hc => (h.nameOk ht c hc).ne) .root he'
        rw [heq, htype] at hreg
        exact absurd hreg (by decide)
      · exact ih ⟨front, back, d, f, hnames, hmore, hf, hreg⟩

end State.PathTo

theorem searchFile_path (hs : s.Searchable) (ht : s.DirTree) (hmem : ∀ m, s.supply m = true)
    (h : s.PathTo names n) (hlen : (absolutePath names).length < maxPathLen) :
    Returns (searchFile (absolutePath names)) s fun r _ => r.1 = n := by
  by_cases hne : names = []
  · rcases h.cases_on with ⟨-, rfl⟩ | ⟨names', m, e, hnames, -⟩
    · rw [hne, absolutePath, if_pos rfl]
      have hroot : isRootName [slash] := Or.inl rfl
      unfold searchFile
      rw [if_pos hroot]
      exact rfl
    · rw [hne] at hnames
      exact absurd hnames.symm (List.append_ne_nil_of_right_ne_nil _ (List.cons_ne_nil _ _))
  · rw [absolutePath, if_neg hne] at hlen ⊢
    have hp : PathOk names := ⟨hne, h.nameOk ht, hlen⟩
    have hclear := (searchClear_iff hmem names 0 0).mpr (h.not_regularBefore ht)
    refine (searchFile_of_clear hs ht.ok hp hclear).call fun r t hr => ?_
    obtain ⟨d, e, hres, -, hno⟩ := h.resolves hne
    refine (hr.found n ?_).mpr ⟨d, e, hres, hno⟩
    rintro rfl
    exact absurd (h.lt_4096 ht) (by decide)

/-! ## The working directory -/

/-- A directory has an absolute path. -/
theorem State.DirTree.exists_path (ht : s.DirTree) (hn : s.IsDirectory n) :
    ∃ names, s.PathTo names n := by
  induction hn with
  | root => exact ⟨[], .root⟩
  | @entry n name e hn hname he hdir ih =>
      obtain ⟨names, h⟩ := ih
      have hok := ht.ok.directory n hn
      have hsame := (he.ok hok hname).2
      obtain ⟨parent, hdots⟩ := ht.dots n hn
      by_cases hself : name = [dot]
      · obtain ⟨e₀, he₀, hname₀, hno₀, -⟩ := hdots.self
        have heq := he.unique hok hname (State.hasEntry_iff.mpr ⟨0, 0, he₀, hname₀.trans hself.symm⟩)
        rw [heq, hno₀]
        exact ⟨names, h⟩
      by_cases hparent : name = [dot, dot]
      · rcases h.cases_on with ⟨-, rfl⟩ | ⟨names', m, e₁, -, hno, hm, he₁⟩
        · obtain ⟨e₀, he₀, hno₀, -⟩ := ht.ok.root [dot, dot] (Or.inr rfl)
          rw [he.unique hok hname (hparent ▸ he₀), hno₀]
          exact ⟨[], .root⟩
        · have hdots₁ := (ht.child m e₁ hm.isDirectory he₁).2
          rw [← hno] at hdots₁
          obtain ⟨e₀, he₀, hname₀, hno₀, -⟩ := hdots₁.parent
          have heq := he.unique hok hname
            (State.hasEntry_iff.mpr ⟨0, 1, he₀, hname₀.trans hparent.symm⟩)
          rw [heq, hno₀]
          exact ⟨names', hm⟩
      · rw [← hsame] at hname hself hparent he
        exact ⟨_, h.child ⟨he, ⟨hname, hself, hparent⟩, hdir⟩⟩

/-- In a directory of the tree `sys_getcwd` writes the absolute path, when it fits. -/
theorem sysGetcwd_iff (hs : s.Searchable) (ht : s.DirTree) (hmem : ∀ m, s.supply m = true)
    (h : s.PathTo names s.cur.cwdInodeNr) {bufSize : Nat} {size : UInt32}
    (hsize : size.toNat ≤ bufSize) :
    ∃ u, s.Moved s.cur.cwdInodeNr u ∧
      ∀ Q : Option Str → State → Prop, Returns (sysGetcwd (some bufSize) size) s Q ↔
        ((absolutePath names).length < bufSize ∧
          (names ≠ [] → (absolutePath names).length < maxPathLen ∧
            (absolutePath names).length ≤ size.toNat)) ∧ Q (some (absolutePath names)) u := by
  have hs₁ : s.withBuf.Searchable :=
    ⟨hs.mounted, fun p hp => hs.fresh p (Nat.le_of_succ_le hp), hs.opened, hs.root⟩
  have hmem₁ : ∀ m, s.withBuf.supply m = true := fun m => hmem (m + 1)
  have hsame₁ : s.SameTree s.withBuf := ⟨rfl, rfl, rfl⟩
  -- up to the test for the root
  have hstart : ∀ Q : Option Str → State → Prop, Returns (sysGetcwd (some bufSize) size) s Q ↔
      Returns (if s.cur.cwdInodeNr = 0 then
        if 2 ≤ bufSize then pure (some [slash]) else undefined
      else if bufSize < size.toNat then undefined
      else do
        match ← climb maxPathLen s.cur.cwdInodeNr [] with
        | none => do
            sysFreeBuf s.fresh
            pure none
        | some path => do
            kassert (path.length ≤ size.toNat)
            let path ← StateT.lift (turnPath bufSize (path.length + 1) path [])
            sysFreeBuf s.fresh
            pure (some path)) s.withBuf Q := by
    intro Q
    unfold sysGetcwd
    rw [Returns, Wp.bind, wp_kassert]
    refine (and_iff_left fun hnull => hnull (Option.some_ne_none bufSize)).trans
      ((forall_prop_of_true (Option.some_ne_none bufSize)).trans ?_)
    show Wp (sysMallocBuf >>= _) s _ _ ↔ _
    rw [Wp.bind, wp_sysMallocBuf]
    refine (and_iff_left fun hrefused => ?_).trans ((forall_prop_of_true (hmem 0)).trans ?_)
    · rw [hmem 0] at hrefused
      cases hrefused
    · show Wp (get >>= _) s.withBuf _ _ ↔ _
      rw [Wp.bind, Wp.get, Wp.bind, wp_kassert]
      exact (and_iff_left fun hbig => hbig (h.lt_4096 ht)).trans
        (forall_prop_of_true (h.lt_4096 ht))
  by_cases hne : names = []
  · have hzero : s.cur.cwdInodeNr = 0 := by
      rcases h.cases_on with ⟨-, hroot⟩ | ⟨names', m, e, hnames, -⟩
      · exact hroot
      · rw [hne] at hnames
        exact absurd hnames.symm (List.append_ne_nil_of_right_ne_nil _ (List.cons_ne_nil _ _))
    have hmoved : s.Moved s.cur.cwdInodeNr s.withBuf :=
      ⟨hsame₁, rfl, rfl, rfl, List.suffix_cons _ _, hs₁, hmem₁, rfl⟩
    refine ⟨s.withBuf, hmoved, fun Q => ?_⟩
    rw [hstart, if_pos hzero, hne, absolutePath, if_pos rfl]
    by_cases hfit : 2 ≤ bufSize
    · rw [if_pos hfit, Returns, Wp.pure]
      exact (and_iff_right ⟨hfit, fun h => absurd rfl h⟩).symm
    · rw [if_neg hfit, Returns, wp_undefined]
      exact iff_of_false id fun h => hfit h.1.1
  · have hzero : ¬s.cur.cwdInodeNr = 0 := by
      intro hzero
      rcases h.cases_on with ⟨hnil, -⟩ | ⟨names', m, e, -, hno, hm, he⟩
      · exact hne hnil
      · exact (ht.child m e hm.isDirectory he).1 (hno.symm.trans hzero)
    have hback := length_joinPath_reverse names
    have hcount := length_le_joinPath names
    obtain ⟨t, ht', hclimb⟩ := climb_iff hs₁ (hsame₁.dirTree ht) hmem₁ (hsame₁.pathTo h) maxPathLen
      [] s.withBuf ⟨0, s.withBuf.next, Nat.le_refl _, rfl⟩ (Nat.le_refl _) (by decide)
    obtain ⟨j, k, hk, rfl⟩ := ht'
    let u : State := { s.withBuf.after j k with bufs := s.withBuf.bufs.erase s.fresh }
    have hbufs : u.bufs = s.bufs := List.erase_cons_head _ _
    have hu : u.Searchable :=
      ⟨hs.mounted, fun p hp => hs₁.fresh p (Nat.le_trans hk hp), hs.opened, hs.root⟩
    refine ⟨u, ⟨⟨rfl, rfl, rfl⟩, rfl, rfl, rfl, hbufs ▸ List.suffix_refl _, hu,
      fun m => hmem₁ (m + j), rfl⟩, fun Q => ?_⟩
    rw [hstart, if_neg hzero, if_neg (Nat.not_lt.mpr hsize), Returns, Wp.bind]
    refine (hclimb _).trans ?_
    rw [List.nil_append, List.length_nil, Nat.zero_add, absolutePath, if_neg hne]
    have hslash : ∀ name, name ∈ names.reverse → slash ∉ name :=
      fun name hname => (h.nameOk ht name (List.mem_reverse.mp hname)).noSlash
    have hturn := @turnPath_join names.reverse bufSize hslash ((joinPath names.reverse).length + 1)
      [] (by rw [List.length_reverse]; omega) (Or.inr (by simpa using hne))
    rw [List.reverse_reverse, List.nil_append, List.length_nil, Nat.zero_add, hback] at hturn
    show _ ∧ Wp (kassert _ >>= _) _ _ _ ↔ _
    rw [Wp.bind, wp_kassert, Wp.bind, hback, hturn]
    by_cases hsz : (joinPath names).length ≤ size.toNat
    · by_cases hfit : (joinPath names).length < bufSize
      · rw [if_pos hfit, Wp.lift_pure, Wp.bind, wp_sysFreeBuf_live rfl List.mem_cons_self]
        constructor
        · exact fun h => ⟨⟨hfit, fun _ => ⟨h.1, hsz⟩⟩, h.2.1 hsz⟩
        · exact fun h => ⟨(h.1.2 hne).1, fun _ => h.2, fun hbig => hbig hsz⟩
      · rw [if_neg hfit, Wp.lift]
        exact iff_of_false (fun h => (h.2.1 hsz).2 _ rfl) fun h => hfit h.1.1
    · exact iff_of_false (fun h => h.2.2 hsz) fun h => hsz (h.1.2 hne).2

/-- In a directory of the tree `sys_getcwd` writes the absolute path. -/
theorem sysGetcwd_path (hs : s.Searchable) (ht : s.DirTree) (hmem : ∀ m, s.supply m = true)
    (h : s.PathTo names s.cur.cwdInodeNr) (hlen : (absolutePath names).length < maxPathLen)
    {bufSize : Nat} {size : UInt32} (hsize : size.toNat ≤ bufSize)
    (hfit : (absolutePath names).length ≤ size.toNat)
    (hbuf : (absolutePath names).length < bufSize) :
    Returns (sysGetcwd (some bufSize) size) s fun r t =>
      r = some (absolutePath names) ∧ s.Moved s.cur.cwdInodeNr t := by
  obtain ⟨u, hu, hrun⟩ := sysGetcwd_iff hs ht hmem h hsize
  exact (hrun _).mpr ⟨⟨hbuf, fun _ => ⟨hlen, hfit⟩⟩, rfl, hu⟩

/-- In a buffer of just `size` bytes `sys_getcwd` returns, so it writes only there, and it
returns `NULL` when the path with its zero does not fit. -/
def State.GetcwdBounded (s : State) (size : UInt32) : Prop :=
  Returns (sysGetcwd (some size.toNat) size) s fun r _ =>
    ∀ names, s.PathTo names s.cur.cwdInodeNr → size.toNat ≤ (absolutePath names).length → r = none

/-- `sys_getcwd` keeps to its buffer exactly when the path with its zero fits, and the path
fits into `full_path_reverse`. -/
theorem sysGetcwd_bounded_iff (hs : s.Searchable) (ht : s.DirTree) (hmem : ∀ m, s.supply m = true)
    (hcwd : s.IsDirectory s.cur.cwdInodeNr) (size : UInt32) :
    ∃ names, s.PathTo names s.cur.cwdInodeNr ∧ (s.GetcwdBounded size ↔
      (absolutePath names).length < size.toNat ∧ (absolutePath names).length < maxPathLen) := by
  obtain ⟨names, h⟩ := ht.exists_path hcwd
  obtain ⟨u, -, hrun⟩ := sysGetcwd_iff hs ht hmem h (Nat.le_refl size.toNat)
  refine ⟨names, h, (hrun _).trans ?_⟩
  constructor
  · intro hbounded
    refine ⟨hbounded.1.1, ?_⟩
    by_cases hne : names = []
    · rw [hne]
      decide
    · exact (hbounded.1.2 hne).1
  · intro hfit
    refine ⟨⟨hfit.1, fun _ => ⟨hfit.2, Nat.le_of_lt hfit.1⟩⟩, fun names' h' hle => ?_⟩
    rw [h'.unique ht h] at hle
    omega

/-- In the working directory `sys_getcwd` writes the absolute path, and `search_file` finds
the directory under that path. -/
theorem sysGetcwd_searchFile (hs : s.Searchable) (ht : s.DirTree) (hmem : ∀ m, s.supply m = true)
    (hcwd : s.IsDirectory s.cur.cwdInodeNr) :
    ∃ names, s.PathTo names s.cur.cwdInodeNr ∧ ((absolutePath names).length < 511 →
      ∀ (bufSize : Nat) (size : UInt32), size.toNat ≤ bufSize →
        (absolutePath names).length ≤ size.toNat → (absolutePath names).length < bufSize →
          Returns (sysGetcwd (some bufSize) size) s fun r t => r = some (absolutePath names) ∧
            Returns (searchFile (absolutePath names)) t fun found _ =>
              found.1 = s.cur.cwdInodeNr) := by
  obtain ⟨names, h⟩ := ht.exists_path hcwd
  refine ⟨names, h, fun hlen bufSize size hsize hfit hbuf => ?_⟩
  have hshort : (absolutePath names).length < maxPathLen := Nat.lt_succ_of_lt hlen
  refine (sysGetcwd_path hs ht hmem h hshort hsize hfit hbuf).call fun r t ht' => ?_
  obtain ⟨hr, hmoved⟩ := ht'
  exact ⟨hr, searchFile_path hmoved.searchable (hmoved.tree.dirTree ht) hmoved.supply
    (hmoved.tree.pathTo h) hshort⟩

end

/-! ## A working directory in the root directory -/

theorem State.OneBlock.slotOf_iff {s : State} {n lba : UInt32} {entries : Nat → DirEntry}
    (h : s.OneBlock n lba entries) {k j : Nat} {e : DirEntry} :
    s.SlotOf n k j e ↔ k = 0 ∧ j < dirEntrysPerSec ∧ e = entries j := by
  obtain ⟨i, hi, -⟩ := h.inode
  constructor
  · rintro ⟨i', hi', -, hj, hne, rfl⟩
    rw [h.blocks hi'] at hne ⊢
    have hk : k = 0 := by
      by_contra hk
      exact hne (if_neg hk)
    rw [if_pos hk, h.slot j hj]
    exact ⟨hk, hj, rfl⟩
  · rintro ⟨rfl, hj, rfl⟩
    refine ⟨i, hi, by decide, hj, ?_, ?_⟩
    · rw [h.blocks hi]
      exact h.lba.1
    · rw [h.blocks hi, if_pos rfl, h.slot j hj]

theorem State.OneBlock.startsWithDots {s : State} {n lba parent : UInt32}
    {entries : Nat → DirEntry} (h : s.OneBlock n lba entries) (hdata : s.part.sb.dataStartLba ≤ lba)
    (hself : entries 0 = dotEntry n) (hparent : entries 1 = dotDotEntry parent) :
    s.StartsWithDots n parent where
  block := by
    obtain ⟨i, hi, -, hsector⟩ := h.inode
    refine ⟨i, hi, ?_⟩
    rw [hsector]
    exact hdata
  self := by
    refine ⟨_, h.slotOf_iff.mpr ⟨rfl, by decide, rfl⟩, ?_⟩
    rw [hself]
    have hname : (dotEntry 0).name = [dot] := by decide
    exact ⟨hname, rfl, rfl⟩
  parent := by
    refine ⟨_, h.slotOf_iff.mpr ⟨rfl, by decide, rfl⟩, ?_⟩
    rw [hparent]
    have hname : (dotDotEntry 0).name = [dot, dot] := by decide
    exact ⟨hname, rfl, rfl⟩

theorem subState_directory {n : UInt32} (h : subState.IsDirectory n) : n = 0 ∨ n = 1 := by
  induction h with
  | root => exact Or.inl rfl
  | entry _ hname he hdir ih =>
      rcases ih with rfl | rfl
      · obtain ⟨j, hj, rfl, -⟩ := subState_root.hasEntry_iff.mp he
        have hall : ∀ j, j < 21 → (subRootEntry j).iNo = 0 ∨ (subRootEntry j).iNo = 1 := by
          decide +kernel
        exact hall j hj
      · obtain ⟨j, hj, rfl, -⟩ := subState_sub.hasEntry_iff.mp he
        have hall : ∀ j, j < 21 → (subEntry j).iNo = 0 ∨ (subEntry j).iNo = 1 := by
          decide +kernel
        exact hall j hj

instance (name : Str) : Decidable (ProperName name) :=
  decidable_of_iff (name ≠ [] ∧ name ≠ [dot] ∧ name ≠ [dot, dot])
    ⟨fun h => ⟨h.1, h.2.1, h.2.2⟩, fun h => ⟨h.ne, h.self, h.parent⟩⟩

theorem subState_rootDots : subState.StartsWithDots 0 0 :=
  subState_root.startsWithDots (by decide) rfl rfl

theorem subState_subDots : subState.StartsWithDots 1 0 :=
  subState_sub.startsWithDots (by decide) rfl rfl

/-- The only subdirectory is `/d`. -/
theorem subState_child {n : UInt32} {e : DirEntry} (hn : subState.IsDirectory n)
    (h : subState.Child n e) : n = 0 ∧ e = subRootEntry 2 := by
  rcases subState_directory hn with rfl | rfl
  · obtain ⟨j, hj, rfl, -⟩ := subState_root.hasEntry_iff.mp h.entry
    have hall : ∀ j, j < 21 → ProperName (subRootEntry j).name → j = 2 := by
      decide +kernel
    rw [hall j hj h.name]
    exact ⟨rfl, rfl⟩
  · obtain ⟨j, hj, rfl, -⟩ := subState_sub.hasEntry_iff.mp h.entry
    have hall : ∀ j, j < 21 → ¬ProperName (subEntry j).name := by
      decide +kernel
    exact absurd h.name (hall j hj)

theorem subState_dirTree : subState.DirTree where
  ok := {
    directory := fun n hn => by
      rcases subState_directory hn with rfl | rfl
      · exact subState_root.directoryOk (by decide) subRootEntry_ok
      · exact subState_sub.directoryOk (by decide) subEntry_ok
    root := fun name hname => by
      rcases hname with rfl | rfl
      · exact ⟨_, subState_root.hasEntry_iff.mpr ⟨0, by decide, rfl, by decide⟩, rfl, rfl⟩
      · exact ⟨_, subState_root.hasEntry_iff.mpr ⟨1, by decide, rfl, by decide⟩, rfl, rfl⟩ }
  noSlash n e hn he := by
    rcases subState_directory hn with rfl | rfl
    · obtain ⟨j, hj, rfl, -⟩ := subState_root.hasEntry_iff.mp he
      have hall : ∀ j, j < 21 → slash ∉ (subRootEntry j).name := by
        decide +kernel
      exact hall j hj
    · obtain ⟨j, hj, rfl, -⟩ := subState_sub.hasEntry_iff.mp he
      have hall : ∀ j, j < 21 → slash ∉ (subEntry j).name := by
        decide +kernel
      exact hall j hj
  dots n hn := by
    rcases subState_directory hn with rfl | rfl
    · exact ⟨0, subState_rootDots⟩
    · exact ⟨0, subState_subDots⟩
  child n e hn he := by
    obtain ⟨rfl, rfl⟩ := subState_child hn he
    exact ⟨by decide, subState_subDots⟩
  once n e k j k' j' e' hn he hslot hslot' hname hno := by
    obtain ⟨rfl, rfl⟩ := subState_child hn he
    obtain ⟨rfl, hj, heq⟩ := subState_root.slotOf_iff.mp hslot
    obtain ⟨rfl, hj', rfl⟩ := subState_root.slotOf_iff.mp hslot'
    have hall : ∀ j, j < 21 → (subRootEntry j).iNo = 1 → j = 2 := by
      decide +kernel
    have hj2 := hall j hj (congrArg DirEntry.iNo heq.symm)
    exact ⟨rfl, (hall j' hj' hno).trans hj2.symm⟩

def cwdState : State := { subState with cur := { subState.cur with cwdInodeNr := 1 } }

theorem cwdState_searchable : cwdState.Searchable where
  mounted := freshPart_mounted
  fresh p hp := by
    refine ⟨if_neg ?_, rfl⟩
    rintro rfl
    exact absurd hp (by decide)
  opened p hp := by
    rw [List.mem_singleton.mp hp]
    exact ⟨_, rfl, Nat.one_ne_zero⟩
  root := ⟨⟨false, 0⟩, rfl, rfl⟩

theorem subState_path : subState.PathTo [[100]] 1 := by
  have hentry : subState.HasEntry 0 (subRootEntry 2).name (subRootEntry 2) :=
    subState_root.hasEntry_iff.mpr ⟨2, by decide, rfl, rfl⟩
  exact State.PathTo.root.child ⟨hentry, by decide, rfl⟩

/-- In `/d` the path `/d` is written. -/
theorem sysGetcwd_searchFile_sub :
    Returns (sysGetcwd (some 32) 32) cwdState fun r t => r = some [slash, 100] ∧
      Returns (searchFile [slash, 100]) t fun found _ => found.1 = 1 := by
  have hsame : subState.SameTree cwdState := ⟨rfl, rfl, rfl⟩
  have ht := hsame.dirTree subState_dirTree
  have hpath := hsame.pathTo subState_path
  obtain ⟨names, h, hrest⟩ := sysGetcwd_searchFile cwdState_searchable ht (fun _ => rfl)
    hpath.isDirectory
  have hnames : names = [[100]] := h.unique ht hpath
  rw [hnames] at hrest
  exact hrest (by decide) 32 32 (by decide) (by decide) (by decide)

/-- The path `/d` fits into three bytes. -/
theorem sysGetcwd_bounded_sub : cwdState.GetcwdBounded 3 := by
  have hsame : subState.SameTree cwdState := ⟨rfl, rfl, rfl⟩
  have htree := hsame.dirTree subState_dirTree
  have hpath : cwdState.PathTo [[100]] 1 := hsame.pathTo subState_path
  obtain ⟨names, h, hiff⟩ := sysGetcwd_bounded_iff cwdState_searchable htree (fun _ => rfl)
    hpath.isDirectory 3
  obtain rfl : names = [[100]] := h.unique htree hpath
  exact hiff.mpr (by decide)

/-- The zero of the path `/d` is written behind a buffer of two bytes. -/
theorem sysGetcwd_unbounded_two : cwdState.Searchable ∧ cwdState.DirTree ∧
    (∀ m, cwdState.supply m = true) ∧ cwdState.IsDirectory cwdState.cur.cwdInodeNr ∧
    ¬cwdState.GetcwdBounded 2 := by
  have hsame : subState.SameTree cwdState := ⟨rfl, rfl, rfl⟩
  have htree := hsame.dirTree subState_dirTree
  have hpath : cwdState.PathTo [[100]] cwdState.cur.cwdInodeNr := hsame.pathTo subState_path
  obtain ⟨u, -, hrun⟩ := sysGetcwd_iff cwdState_searchable htree (fun _ => rfl) hpath
    (Nat.le_refl (2 : UInt32).toNat)
  refine ⟨cwdState_searchable, htree, fun _ => rfl, hpath.isDirectory, fun h => ?_⟩
  have hfit := (hrun fun r _ => ∀ names, cwdState.PathTo names cwdState.cur.cwdInodeNr →
    (2 : UInt32).toNat ≤ (absolutePath names).length → r = none).mp h
  exact absurd hfit.1.1 (by decide)

end OsTruth
