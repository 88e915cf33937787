/-
What `file_open` and `file_create` leave behind when they fail.

Both take what they need one after the other and install the descriptor of the process at
the end.  `file_open` never gives anything back, and `file_create` gives back everything
except when the last step fails.
-/
import OsTruth.Fs.DirSlots
import OsTruth.Fs.FileTable

namespace OsTruth

open ByteString Fallible

/-! ## Free entries -/

def State.NoGlobal (s : State) : Prop :=
  ∀ g, 3 ≤ g → g < maxFileOpen → (s.fileTable g).fdInode ≠ none

def State.NoLocal (s : State) : Prop :=
  ∀ fd, 3 ≤ fd → fd < maxFilesOpenPerProc → s.cur.fdTable fd ≠ -1

/-- Entry `g` of `file_table` is one that can be taken. -/
structure State.FreeGlobal (s : State) (g : Nat) : Prop where
  ge : 3 ≤ g
  lt : g < maxFileOpen
  free : (s.fileTable g).fdInode = none

section

variable {s t : State} {F : Fault → Prop} {g fd : Nat}

theorem State.FreeGlobal.not_full (h : s.FreeGlobal g) : ¬s.NoGlobal :=
  fun hnone => hnone g h.ge h.lt h.free

theorem freeSlotFrom_used (fileTable : Nat → File) (left idx : Nat) :
    ∀ g, idx ≤ g → g < freeSlotFrom fileTable left idx → (fileTable g).fdInode ≠ none := by
  induction left generalizing idx with
  | zero =>
      intro g hge hlt
      rw [freeSlotFrom] at hlt
      omega
  | succ left ih =>
      intro g hge hlt
      rw [freeSlotFrom] at hlt
      by_cases h : (fileTable idx).fdInode = none
      · rw [if_pos h] at hlt
        omega
      · rw [if_neg h] at hlt
        by_cases hg : g = idx
        · rw [hg]
          exact h
        · exact ih (idx + 1) g (by omega) hlt

theorem freeLocalFrom_used (fdTable : Nat → Int) (left idx : Nat) :
    ∀ fd, idx ≤ fd → fd < freeLocalFrom fdTable left idx → fdTable fd ≠ -1 := by
  induction left generalizing idx with
  | zero =>
      intro fd hge hlt
      rw [freeLocalFrom] at hlt
      omega
  | succ left ih =>
      intro fd hge hlt
      rw [freeLocalFrom] at hlt
      by_cases h : fdTable idx = -1
      · rw [if_pos h] at hlt
        omega
      · rw [if_neg h] at hlt
        by_cases hfd : fd = idx
        · rw [hfd]
          exact h
        · exact ih (idx + 1) fd (by omega) hlt

/-- `get_free_slot_in_global` fails exactly when no entry is free. -/
theorem getFreeSlot_cases {Q : Int → State → Prop} (hnone : s.NoGlobal → Q (-1) s)
    (hfree : ∀ g : Nat, s.FreeGlobal g → Q g s) : Wp getFreeSlotInGlobal s F Q := by
  obtain ⟨h₁, h₂, h₃⟩ := freeSlotFrom_spec s.fileTable 29 3
  have hmax : maxFileOpen = 32 := rfl
  unfold getFreeSlotInGlobal
  rw [Wp.bind, Wp.get, Wp.ite]
  refine ⟨fun heq => hnone fun g hge hlt => ?_, fun hne => hfree _ ⟨h₁, by omega, h₃ (by omega)⟩⟩
  exact freeSlotFrom_used s.fileTable 29 3 g hge (by omega)

/-- `pcb_fd_install` fails exactly when no descriptor is free. -/
theorem pcbFdInstall_cases {v : Int} {Q : Int → State → Prop} (hnone : s.NoLocal → Q (-1) s)
    (hfree : ∀ fd : Nat, ¬s.NoLocal → Q fd (s.setFd fd v)) : Wp (pcbFdInstall v) s F Q := by
  obtain ⟨h₁, h₂, h₃⟩ := freeLocalFrom_spec s.cur.fdTable 5 3
  have hmax : maxFilesOpenPerProc = 8 := rfl
  unfold pcbFdInstall
  rw [Wp.bind, Wp.get, Wp.ite]
  refine ⟨fun heq => hnone fun fd hge hlt => ?_, fun hne => hfree _ fun hno => ?_⟩
  · exact freeLocalFrom_used s.cur.fdTable 5 3 fd hge (by omega)
  · exact hno _ h₁ (by omega) (h₃ (by omega))

end

/-! ## Opening -/

structure SameOpen (s t : State) : Prop where
  fileTable : t.fileTable = s.fileTable
  heads : ∀ p, (t.inodes p).map Inode.head = (s.inodes p).map Inode.head
  openInodes : t.part.openInodes = s.part.openInodes
  fdTable : t.cur.fdTable = s.cur.fdTable

/-- When `file_open` fails it leaves the tables as they were. -/
def OpenUndone (s : State) (inodeNo : UInt32) (flag : UInt8) : Prop :=
  Ensures (fileOpen inodeNo flag) s fun r t => r = -1 → SameOpen s t

/-- The steps of `file_open` after the entry of `file_table` was taken succeed: nobody else
writes the file, and a descriptor is free. -/
def State.OpenRoom (s : State) (inodeNo : UInt32) (flag : UInt8) : Prop :=
  ¬s.NoLocal ∧ (Writes flag → ∀ i, s.inodeNamed inodeNo = some i → i.writeDeny = 0)

section

variable {s t : State} {n : UInt32} {flag : UInt8} {g : Nat} {p : Ptr}

/-- What `file_open` uses of the inode that it opened. -/
theorem inodeOpen_named : Ensures (inodeOpen n) s fun p t =>
    t.cur = s.cur ∧ ∃ i j, s.inodeNamed n = some i ∧ t.inodes p = some j ∧
      j.writeDeny = i.writeDeny := by
  rw [Ensures, wp_inodeOpen]
  refine ⟨fun p i hfirst hi => ⟨rfl, i, _, ?_, if_pos rfl, rfl⟩, fun hfirst => ?_,
    fun _ _ => True.intro⟩
  · rw [State.inodeNamed, hfirst]
    exact hi
  · rw [wp_inodeRead]
    refine ⟨fun _ => ⟨fun _ => ⟨fun _ => ⟨fun _ => ?_, fun _ => True.intro⟩,
      fun _ => True.intro⟩, fun _ => True.intro⟩, fun _ => True.intro⟩
    refine ⟨rfl, readSlot s.part s.disk n, _, ?_, if_pos rfl, rfl⟩
    rw [State.inodeNamed, hfirst]

/-- With an entry of `file_table`, the call either succeeds or fails and keeps the entry. -/
theorem fileOpenAt_cases (g : Nat) :
    Ensures (fileOpenAt g n flag) s fun r t => (s.OpenRoom n flag ∧ r ≠ -1) ∨
      (¬s.OpenRoom n flag ∧ r = -1 ∧ (t.fileTable g).fdInode ≠ none) := by
  have hinstall : ∀ u : State, u.cur = s.cur → (u.fileTable g).fdInode ≠ none →
      (Writes flag → ∀ i, s.inodeNamed n = some i → i.writeDeny = 0) →
        Ensures (pcbFdInstall g) u fun r t => (s.OpenRoom n flag ∧ r ≠ -1) ∨
          (¬s.OpenRoom n flag ∧ r = -1 ∧ (t.fileTable g).fdInode ≠ none) := by
    intro u hcur hentry hdeny
    have hlocal : u.NoLocal ↔ s.NoLocal := by rw [State.NoLocal, State.NoLocal, hcur]
    refine pcbFdInstall_cases (fun hno => Or.inr ⟨fun h => h.1 (hlocal.mp hno), rfl, hentry⟩)
      fun fd hfree => Or.inl ⟨⟨fun hno => hfree (hlocal.mpr hno), hdeny⟩, by omega⟩
  unfold fileOpenAt
  rw [Ensures, Wp.bind]
  refine inodeOpen_named.call fun p u hopen => ?_
  obtain ⟨hcur, i, j, hi, hj, hdeny⟩ := hopen
  have hentry : ((u.setFile g ⟨0, flag.toUInt32, some p⟩).fileTable g).fdInode ≠ none := by
    rw [State.setFile_fileTable_same]
    exact Option.some_ne_none p
  have hj' : (u.setFile g ⟨0, flag.toUInt32, some p⟩).inodes p = some j := hj
  rw [Wp.bind, Wp.modify, Int.toNat_natCast, Wp.ite]
  refine ⟨fun hw => ?_, fun hr => hinstall _ hcur hentry fun hw => absurd hw hr⟩
  rw [Wp.bind, wp_loadInode_some hj', Wp.ite]
  refine ⟨fun hzero => ?_, fun hne => Or.inr ⟨fun h => ?_, rfl, hentry⟩⟩
  · rw [Wp.bind, wp_storeInode_some hj']
    refine hinstall _ hcur hentry fun _ i' hi' => ?_
    rw [hi, Option.some.injEq] at hi'
    rw [← hi', ← hdeny]
    exact hzero
  · exact hne (hdeny.trans (h.2 hw i hi))

theorem fileOpen_cases : Ensures (fileOpen n flag) s fun r t =>
    (s.NoGlobal ∧ t = s) ∨ (s.OpenRoom n flag ∧ r ≠ -1) ∨
      (¬s.OpenRoom n flag ∧ r = -1 ∧ ∃ g, s.FreeGlobal g ∧ (t.fileTable g).fdInode ≠ none) := by
  unfold fileOpen
  rw [Ensures, Wp.bind]
  refine getFreeSlot_cases (fun hnone => ?_) fun g hg => ?_
  · exact Or.inl ⟨hnone, rfl⟩
  · have hne : ¬(g : Int) = -1 := by omega
    rw [if_neg hne]
    refine (fileOpenAt_cases g).call fun r t h => Or.inr ?_
    exact h.imp_right fun h => ⟨h.1, h.2.1, g, hg, h.2.2⟩

theorem OpenUndone.same (h : OpenUndone s n flag)
    (hrun : (fileOpen n flag).run s = .ok (-1, t)) : SameOpen s t :=
  ensures_iff.mp h _ _ hrun rfl

/-- `file_open` fails without a trace exactly when it finds no entry in `file_table`; so it
undoes its steps only when none of them can fail. -/
theorem fileOpen_undone_iff (hrun : ∃ r t, (fileOpen n flag).run s = .ok (r, t)) :
    OpenUndone s n flag ↔ s.NoGlobal ∨ s.OpenRoom n flag := by
  obtain ⟨r, t, hrun⟩ := hrun
  constructor
  · intro h
    have hsame := ensures_iff.mp h r t hrun
    rcases ensures_iff.mp fileOpen_cases r t hrun with ⟨hnone, -⟩ | ⟨hroom, -⟩ | ⟨-, hr, g, hg, hne⟩
    · exact Or.inl hnone
    · exact Or.inr hroom
    · rw [(hsame hr).fileTable] at hne
      exact absurd hg.free hne
  · intro h
    refine fileOpen_cases.call fun r t hcases hr => ?_
    rcases hcases with ⟨-, rfl⟩ | ⟨-, hne⟩ | ⟨hroom, -, g, hg, -⟩
    · exact ⟨rfl, fun _ => rfl, rfl, rfl⟩
    · exact absurd hr hne
    · exact absurd (h.resolve_left hg.not_full) hroom

end

/-- A task that has the file with inode 1 open five times, which are all descriptors that
it may have. -/
def busyState : State :=
  { freshState with
    part := { freshPart with openInodes := [⟨false, 1⟩, ⟨false, 0⟩] }
    inodes := fun p => if p = ⟨false, 1⟩ then some { Inode.zero with iNo := 1, iOpenCnts := 5 }
      else freshState.inodes p
    next := 2
    fileTable := fun g => if 3 ≤ g ∧ g < 8 then ⟨0, 0, some ⟨false, 1⟩⟩ else ⟨0, 0, none⟩
    cur := { freshState.cur with fdTable := fun fd => if 3 ≤ fd ∧ fd < 8 then fd else -1 } }

/-- The same task with descriptor 7 closed. -/
def roomState : State :=
  { busyState with
    inodes := fun p => if p = ⟨false, 1⟩ then some { Inode.zero with iNo := 1, iOpenCnts := 4 }
      else freshState.inodes p
    fileTable := fun g => if 3 ≤ g ∧ g < 7 then ⟨0, 0, some ⟨false, 1⟩⟩ else ⟨0, 0, none⟩
    cur := { freshState.cur with fdTable := fun fd => if 3 ≤ fd ∧ fd < 7 then fd else -1 } }

/-- It can open the file once more, for writing. -/
theorem fileOpen_undone_room : OpenUndone roomState 1 oWronly := by
  refine (fileOpen_undone_iff ⟨7, _, rfl⟩).mpr (Or.inr ⟨fun h => h 7 (by decide) (by decide) rfl,
    fun _ i hi => ?_⟩)
  have hnamed : roomState.inodeNamed 1 = some { Inode.zero with iNo := 1, iOpenCnts := 4 } := rfl
  obtain rfl := Option.some.inj (hnamed.symm.trans hi)
  rfl

/-- The sixth open takes an entry and a reference and fails. -/
theorem fileOpen_leaks_busy : ¬OpenUndone busyState 1 0 := by
  intro h
  have hrun : (fileOpen 1 0).run busyState = .ok (-1,
      (busyState.reopened ⟨false, 1⟩ { Inode.zero with iNo := 1, iOpenCnts := 5 }).setFile 8
        ⟨0, 0, some ⟨false, 1⟩⟩) := rfl
  have hsame := (h.same hrun).fileTable
  have hentry := congrArg File.fdInode (congrFun hsame 8)
  cases hentry

/-! ## Adding an entry does not fail -/

section

variable {s : State} {p : Ptr} {k : Nat}

/-- The second allocation for a block map without an indirect table finds a block, or its
assertion fails. -/
theorem hookBlock_some (hm : s.part.Mounted) (allBlocks : BlockArray) (k : Nat) (lba : UInt32) :
    Ensures (hookBlock p allBlocks k lba) s fun r _ => r ≠ none := by
  unfold hookBlock
  rw [Ensures, Wp.ite]
  refine ⟨fun _ => ?_, fun _ => ?_⟩
  · rw [Wp.bind]
    refine Wp.trivial.call fun i _ _ => ?_
    rw [Wp.bind]
    exact Wp.trivial.call fun _ _ _ => Option.some_ne_none lba
  · rw [Wp.ite]
    refine ⟨fun _ => ?_, fun _ => ?_⟩
    · rw [Wp.bind, wp_loadInode]
      refine ⟨fun i hi => ?_, fun _ => True.intro⟩
      have hm' : (s.putInode p (some (i.setSector 12 lba))).part.Mounted := hm
      rw [Wp.bind, wp_storeInode_some hi, Wp.bind, wp_allocAndSync hm']
      refine ⟨fun b hb => ?_, fun _ => True.intro⟩
      rw [if_neg (blockAddr_ne hm' hb.1), Wp.bind]
      exact Wp.trivial.call fun _ _ _ => Option.some_ne_none _
    · rw [Wp.bind]
      refine Wp.trivial.call fun i _ _ => ?_
      rw [Wp.bind]
      exact Wp.trivial.call fun _ _ _ => Option.some_ne_none lba

theorem syncNewBlock_true (hm : s.part.Mounted) (e : DirEntry) (ioBuf : Buf)
    (allBlocks : BlockArray) (k : Nat) :
    Ensures (syncNewBlock p e ioBuf allBlocks k) s fun r _ => r = true := by
  unfold syncNewBlock
  rw [Ensures, Wp.bind, wp_allocAndSync hm]
  refine ⟨fun b hb => ?_, fun _ => True.intro⟩
  have hm' : (s.takeBlock b).part.Mounted := hm.setBlockBit b true
  rw [if_neg (blockAddr_ne hm hb.1), Wp.bind]
  refine (hookBlock_some hm' allBlocks k (blockAddr s.part b)).call fun r _ hr => ?_
  cases r with
  | none => exact absurd rfl hr
  | some lba =>
      show Wp (fillBlock p e ioBuf lba) _ _ _
      rw [fillBlock, Wp.bind]
      refine Wp.trivial.call fun ioBuf _ _ => ?_
      rw [Wp.bind]
      refine Wp.trivial.call fun ioBuf _ _ => ?_
      rw [Wp.bind]
      refine Wp.trivial.call fun _ _ _ => ?_
      rw [Wp.bind]
      exact Wp.trivial.call fun _ _ _ => rfl

/-- The loop ends at block 12 at the latest, since the indirect blocks are not read. -/
theorem syncBlocks_true (hm : s.part.Mounted) (e : DirEntry) (i : Inode) (left k : Nat)
    (ioBuf : Buf) (hk : k ≤ 12) (hleft : 12 < k + left) :
    Ensures (syncBlocks p e (directBlocks i) left k ioBuf) s fun r _ => r = true := by
  induction left generalizing k ioBuf with
  | zero => omega
  | succ left ih =>
      rw [syncBlocks]
      by_cases hzero : directBlocks i k = 0
      · rw [if_pos hzero]
        exact syncNewBlock_true hm e ioBuf _ k
      · have hlt : k < 12 := by
          by_contra hge
          exact hzero (if_neg hge)
        rw [if_neg hzero, Ensures, Wp.bind, wp_ideRead]
        refine ⟨fun _ => ⟨fun _ => ?_, fun _ => True.intro⟩, fun _ => True.intro⟩
        split
        · rw [Wp.bind]
          refine Wp.trivial.call fun ioBuf _ _ => ?_
          rw [Wp.bind]
          refine Wp.trivial.call fun _ _ _ => ?_
          rw [Wp.bind]
          exact Wp.trivial.call fun _ _ _ => rfl
        · exact ih (k + 1) _ (by omega) (by omega)

/-- `sync_dir_entry` returns `false` for no directory: it finds a place, or an assertion
fails. -/
theorem syncDirEntry_true (hm : s.part.Mounted) (d : DirPtr) (e : DirEntry) (ioBuf : Buf) :
    Ensures (syncDirEntry d e ioBuf) s fun r _ => r = true := by
  unfold syncDirEntry
  rw [Ensures, Wp.bind, wp_dirInode]
  refine ⟨fun p _ => ?_, fun _ => True.intro⟩
  rw [Wp.bind, wp_loadInode]
  refine ⟨fun i _ => ?_, fun _ => True.intro⟩
  rw [Wp.bind, wp_getEntrySize]
  refine ⟨fun _ => ?_, fun _ => True.intro⟩
  rw [Wp.bind, wp_kassert]
  exact ⟨fun _ => syncBlocks_true hm e i 140 0 ioBuf (by omega) (by omega), fun _ => True.intro⟩

end

/-! ## Creating -/

/-- What `file_create` is to leave as it was. -/
structure CreateSame (s t : State) (dir : DirPtr) : Prop where
  inodeBitmap : ∀ b, t.part.inodeBitmap.bit b = s.part.inodeBitmap.bit b
  blockBitmap : t.part.blockBitmap = s.part.blockBitmap
  parent : ∀ p i, s.inodeOf dir = some p → s.inodes p = some i →
    ∃ j, t.inodes p = some j ∧ j.iSize = i.iSize ∧ ∀ e, Live t.disk j e ↔ Live s.disk i e
  fileTable : t.fileTable = s.fileTable
  openInodes : t.part.openInodes = s.part.openInodes
  fdTable : t.cur.fdTable = s.cur.fdTable
  heap : t.bufs = s.bufs ∧ (∀ p, (t.inodes p).isSome = (s.inodes p).isSome) ∧
    ∀ p, (t.dirs p).isSome = (s.dirs p).isSome

/-- When `file_create` fails it leaves everything as it was. -/
def CreateUndone (s : State) (dir : DirPtr) (filename : Str) (flag : UInt8) : Prop :=
  Ensures (fileCreate dir filename flag) s fun r t => r = -1 → CreateSame s t dir

/-- One of the steps fails that `file_create` undoes: there is no memory for the buffer or
for the inode, or no entry of `file_table` is free. -/
def State.CreateRefused (s : State) : Prop :=
  s.supply 0 = false ∨ s.supply 1 = false ∨ s.NoGlobal

/-- In `t` the buffer `ioBuf` and inode number `b` of `s` are taken, and nothing else. -/
structure Takes (s t : State) (ioBuf : Ptr) (b : Nat) : Prop where
  clear : s.part.inodeBitmap.bit b = false ∧ b < 8 * s.part.inodeBitmap.btmpBytesLen
  part : t.part = { s.part with inodeBitmap := s.part.inodeBitmap.set b true }
  bufs : t.bufs = ioBuf :: s.bufs
  user : ioBuf.user = t.cur.pgdir
  inodes : t.inodes = s.inodes
  dirs : t.dirs = s.dirs
  disk : t.disk = s.disk
  fileTable : t.fileTable = s.fileTable
  cur : t.cur = s.cur

section

variable {s t : State} {dir : DirPtr} {b : Nat} {ioBuf p : Ptr} {n : UInt32}

theorem CreateSame.of_eq (h : t = { s with supply := t.supply }) : CreateSame s t dir := by
  rw [h]
  exact ⟨fun _ => rfl, rfl, fun p i _ hi => ⟨i, hi, rfl, fun _ => Iff.rfl⟩, rfl, rfl, rfl, rfl,
    fun _ => rfl, fun _ => rfl⟩

/-- `case 1` gives the number and the buffer back. -/
theorem createRollback1_same (h : Takes s t ioBuf b) (hn : n.toNat = b) :
    Ensures (createRollback1 n ioBuf) t fun r u => r = -1 ∧ CreateSame s u dir := by
  have hmem : ioBuf ∈ t.bufs := by
    rw [h.bufs]
    exact List.mem_cons_self
  unfold createRollback1
  rw [Ensures, Wp.bind, wp_inodeBitmapClear]
  refine ⟨fun _ => ?_, fun _ => True.intro⟩
  have hmem' : ioBuf ∈ (t.setInodeBitmap (t.part.inodeBitmap.set n.toNat false)).bufs := hmem
  have huser : ioBuf.user =
      (t.setInodeBitmap (t.part.inodeBitmap.set n.toNat false)).cur.pgdir := h.user
  rw [Wp.bind, wp_sysFreeBuf_live huser hmem']
  refine ⟨rfl, fun c => ?_, ?_, fun p i _ hi => ⟨i, ?_, rfl, fun e => ?_⟩, h.fileTable, ?_, ?_,
    ?_, fun p => ?_, fun p => ?_⟩
  · show (t.part.inodeBitmap.set n.toNat false).bit c = _
    rw [h.part, hn, Bitmap.bit_set, Bitmap.bit_set]
    by_cases hc : c = b
    · rw [if_pos hc, hc, h.clear.1]
    · rw [if_neg hc, if_neg hc]
  · show t.part.blockBitmap = _
    rw [h.part]
  · show t.inodes p = some i
    rw [h.inodes, hi]
  · show Live t.disk i e ↔ _
    rw [h.disk]
  · show t.part.openInodes = _
    rw [h.part]
  · show t.cur.fdTable = _
    rw [h.cur]
  · show t.bufs.erase ioBuf = _
    rw [h.bufs, List.erase_cons_head]
  · show (t.inodes p).isSome = _
    rw [h.inodes]
  · show (t.dirs p).isSome = _
    rw [h.dirs]

/-- `case 2` gives the inode back, too. -/
theorem createRollback2_same {u : State} (h : Takes s t ioBuf b) (hn : n.toNat = b)
    (hu : u.inodes = fun q => if q = p then u.inodes p else t.inodes q)
    (hp : t.inodes p = none) (hrest : t = { u with
      inodes := t.inodes, next := t.next, supply := t.supply }) :
    Ensures (createRollback2 p n ioBuf) u fun r v => r = -1 ∧ CreateSame s v dir := by
  unfold createRollback2
  rw [Ensures, Wp.bind, sysFreeInode, wp_sysFree]
  refine ⟨fun _ _ => ?_, fun _ _ => True.intro, fun _ _ => True.intro, fun _ _ => True.intro⟩
  refine createRollback1_same ?_ hn
  have hback : (u.putInode p none).inodes = t.inodes := by
    funext q
    show (if q = p then none else u.inodes q) = _
    by_cases hq : q = p
    · rw [if_pos hq, hq, hp]
    · rw [if_neg hq, hu]
      exact if_neg hq
  obtain ⟨hclear, hpart, hbufs, huser, hinodes, hdirs, hdisk, hfiles, hcur⟩ := h
  rw [hrest] at hpart hbufs huser hdirs hdisk hfiles hcur
  exact ⟨hclear, hpart, hbufs, huser, hback.trans hinodes, hdirs, hdisk, hfiles, hcur⟩

/-- What is left when the new entry of the directory is on disk: the inode is linked, and
the last step may fail. -/
theorem fileInstall_last {v : State} {g : Nat} (hm : v.part.Mounted) (hcur : v.cur = s.cur)
    (hopen : v.part.openInodes = s.part.openInodes) (filename : Str) :
    Ensures (fileInstall dir filename p n g ioBuf) v fun r t =>
      (s.NoLocal ∧ r = -1 ∧ t.part.openInodes ≠ s.part.openInodes) ∨ (¬s.NoLocal ∧ r ≠ -1) := by
  refine fileInstall_rule (fun e u hrun _ => ?_) fun u i w hq _ hw => ?_
  · exact absurd (ensures_iff.mp (syncDirEntry_true hm dir e _) _ _ hrun) Bool.false_ne_true
  have hlist : w.part.openInodes = p :: s.part.openInodes := by
    rw [hw.openInodes]
    show p :: u.part.openInodes = _
    rw [hq.openInodes, hopen]
  have hcurw : w.cur = s.cur := hw.cur.trans (hq.cur.trans hcur)
  have hlocal : w.NoLocal ↔ s.NoLocal := by rw [State.NoLocal, State.NoLocal, hcurw]
  refine pcbFdInstall_cases (fun hno => Or.inl ⟨hlocal.mp hno, rfl, ?_⟩)
    fun fd hfree => Or.inr ⟨fun hno => hfree (hlocal.mpr hno), by omega⟩
  rw [hlist]
  exact List.cons_ne_self p _

theorem fileCreate_cases (hm : s.part.Mounted)
    (hfresh : ∀ p : Ptr, s.next ≤ p.id → s.inodes p = none) (filename : Str) (flag : UInt8) :
    Ensures (fileCreate dir filename flag) s fun r t =>
      (s.CreateRefused ∧ CreateSame s t dir) ∨ (¬s.CreateRefused ∧
        ((s.NoLocal ∧ r = -1 ∧ t.part.openInodes ≠ s.part.openInodes) ∨
          (¬s.NoLocal ∧ r ≠ -1))) := by
  unfold fileCreate
  rw [Ensures, Wp.bind, wp_sysMallocBuf]
  refine ⟨fun h0 => ?_, fun h0 => Or.inl ⟨Or.inl h0, .of_eq rfl⟩⟩
  show Wp (inodeBitmapAlloc >>= _) s.withBuf _ _
  rw [Wp.bind, wp_inodeBitmapAlloc]
  refine ⟨fun b hb => ?_, fun _ => True.intro⟩
  have hb' : b < 8 * s.part.inodeBitmap.btmpBytesLen := hb.1
  have hlt : b < 4096 := by
    rw [hm.inodeBitmapLen] at hb'
    omega
  have hn : (UInt32.ofNat b).toNat = b := UInt32.toNat_ofNat_of_lt (by
    show b < 2 ^ 32
    omega)
  have hne : UInt32.ofNat b ≠ -1 := by
    intro h
    have h1 : (-1 : UInt32).toNat = 4294967295 := rfl
    rw [h] at hn
    omega
  rw [if_neg hne]
  generalize UInt32.ofNat b = n at hn
  have htakes : ∀ u : State, u = { s.withBuf.setInodeBitmap (s.part.inodeBitmap.set b true) with
      next := u.next, supply := u.supply } → Takes s u s.fresh b := by
    intro u hu
    rw [hu]
    exact ⟨⟨hb.2.1, hb'⟩, rfl, rfl, rfl, rfl, rfl, rfl, rfl, rfl⟩
  show Wp (sysMallocInode >>= _) (s.withBuf.setInodeBitmap (s.part.inodeBitmap.set b true)) _ _
  have hm₁ : (s.withBuf.setInodeBitmap (s.part.inodeBitmap.set b true)).part.Mounted :=
    { hm with }
  have hnone : (s.withBuf.setInodeBitmap (s.part.inodeBitmap.set b true)).inodes
      (s.withBuf.setInodeBitmap (s.part.inodeBitmap.set b true)).fresh = none :=
    hfresh _ (Nat.le_succ _)
  have hsupply : (s.withBuf.setInodeBitmap (s.part.inodeBitmap.set b true)).supply 0 =
      s.supply 1 := rfl
  generalize s.withBuf.setInodeBitmap (s.part.inodeBitmap.set b true) = s₁
    at hm₁ hnone hsupply htakes ⊢
  have hs₁ : Takes s s₁ s.fresh b := htakes s₁ rfl
  rw [Wp.bind, sysMallocInode, wp_sysMalloc]
  refine ⟨fun h1 => ?_, fun h1 => ?_⟩
  · rw [Wp.bind, wp_storeInode_some (State.putInode_same _ _ _), State.putInode_putInode, Wp.bind]
    refine getFreeSlot_cases (fun hno => ?_) fun g hg => ?_
    · have hglobal : s.NoGlobal := by
        rw [State.NoGlobal, ← hs₁.fileTable]
        exact hno
      rw [if_pos rfl]
      refine Wp.call (createRollback2_same hs₁ hn ?_ hnone rfl) fun r t h =>
        Or.inl ⟨Or.inr (Or.inr hglobal), h.2⟩
      funext q
      by_cases hq : q = s₁.fresh
      · rw [hq, if_pos rfl]
      · rw [if_neg hq]
        exact State.putInode_other _ _ hq
    · have hng : ¬(g : Int) = -1 := by omega
      have hglobal : ¬s.NoGlobal := by
        intro hno
        refine hno g hg.ge hg.lt ?_
        rw [← hs₁.fileTable]
        exact hg.free
      rw [if_neg hng, Wp.bind, Wp.modify]
      refine (fileInstall_last (s := s) ?_ ?_ ?_ filename).call fun r t h => Or.inr ⟨?_, h⟩
      · exact hm₁
      · exact hs₁.cur
      · show s₁.part.openInodes = _
        rw [hs₁.part]
      · rintro (h | h | h)
        · exact Bool.noConfusion (h0.symm.trans h)
        · exact Bool.noConfusion (h1.symm.trans (hsupply.trans h))
        · exact hglobal h
  · exact (createRollback1_same (htakes s₁.refuse rfl) hn).call fun r t h =>
      Or.inl ⟨Or.inr (Or.inl (hsupply.symm.trans h1)), h.2⟩

theorem CreateUndone.same {filename : Str} {flag : UInt8} (h : CreateUndone s dir filename flag)
    (hrun : (fileCreate dir filename flag).run s = .ok (-1, t)) : CreateSame s t dir :=
  ensures_iff.mp h _ _ hrun rfl

/-- `file_create` undoes its steps exactly when the last one does not fail: a descriptor of
the task is free, or the call ends before everything is on disk. -/
theorem fileCreate_undone_iff (hm : s.part.Mounted)
    (hfresh : ∀ p : Ptr, s.next ≤ p.id → s.inodes p = none) {filename : Str} {flag : UInt8}
    (hrun : ∃ r t, (fileCreate dir filename flag).run s = .ok (r, t)) :
    CreateUndone s dir filename flag ↔ s.CreateRefused ∨ ¬s.NoLocal := by
  obtain ⟨r, t, hrun⟩ := hrun
  have hcases : Ensures (fileCreate dir filename flag) s _ :=
    fileCreate_cases hm hfresh filename flag
  constructor
  · intro h
    rcases ensures_iff.mp hcases r t hrun with ⟨hrefused, -⟩ | ⟨-, ⟨-, hr, hne⟩ | ⟨hfree, -⟩⟩
    · exact Or.inl hrefused
    · rw [hr] at hrun
      exact absurd (h.same hrun).openInodes hne
    · exact Or.inr hfree
  · intro h
    refine hcases.call fun r t hcase hr => ?_
    rcases hcase with ⟨-, hsame⟩ | ⟨hnot, ⟨hno, -⟩ | ⟨-, hne⟩⟩
    · exact hsame
    · exact absurd hno (h.resolve_left hnot)
    · exact absurd hr hne

/-- The formatted partition with every entry of `file_table` in use. -/
def tableFull : State := { freshState with fileTable := fun _ => ⟨0, 0, some ⟨false, 0⟩⟩ }

/-- The inode number, the inode and the buffer that were taken are given back. -/
theorem fileCreate_undone_full : CreateUndone tableFull .root [102] oRdwr := by
  have hnext : tableFull.next = 1 := rfl
  refine (fileCreate_undone_iff freshPart_mounted (fun p hp => if_neg ?_) ⟨-1, _, rfl⟩).mpr
    (Or.inl (Or.inr (Or.inr fun g _ _ => Option.some_ne_none _)))
  rintro rfl
  rw [hnext] at hp
  exact absurd hp (by decide)

/-- A task on the formatted partition that has no free descriptor. -/
def fullState : State :=
  { freshState with cur := { freshState.cur with fdTable := fun _ => 0 } }

/-- The file is there, its inode is linked, and the call reports failure. -/
theorem fileCreate_leaves_file : ¬CreateUndone fullState .root [102] oRdwr := by
  have hrun : ((fileCreate .root [102] oRdwr).run fullState).toOption.map (fun r =>
      (r.1, r.2.part.openInodes.length)) = some (-1, 2) := by
    decide +kernel
  intro h
  cases hr : (fileCreate .root [102] oRdwr).run fullState with
  | error e =>
      rw [hr] at hrun
      cases hrun
  | ok r =>
      obtain ⟨fd, t⟩ := r
      rw [hr] at hrun
      obtain ⟨hfd, hlen⟩ := Prod.mk.inj (Option.some.inj hrun)
      have hfd' : fd = -1 := hfd
      rw [hfd'] at hr
      have hlen' : t.part.openInodes.length = 2 := hlen
      rw [(h.same hr).openInodes] at hlen'
      cases hlen'

end

end OsTruth
