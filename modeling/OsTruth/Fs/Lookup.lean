/-
Finding an entry of a directory by its name.

`HasEntry` is what the directories say: the directory with a number has an entry under a
name.  `findBlocks` is what `search_dir_entry` computes, the first slot with the name,
and the two agree where names are unique.
-/
import OsTruth.Fs.Fs
import OsTruth.Fs.OpenInodes
import OsTruth.Fs.FirstSlot

namespace OsTruth

open ByteString Fallible

/-! ## The directories -/

def NamedSlot (disk : Bytes) (i : Inode) (name : Str) (k j : Nat) : Prop :=
  k < 140 ∧ j < dirEntrysPerSec ∧ allBlocksOf disk i k ≠ 0 ∧
    (blockSlot disk (allBlocksOf disk i k) j).name = name

def State.HasEntry (s : State) (n : UInt32) (name : Str) (e : DirEntry) : Prop :=
  ∃ i k j, s.inodeNamed n = some i ∧ NamedSlot s.disk i name k j ∧
    blockSlot s.disk (allBlocksOf s.disk i k) j = e

/-- The directories that are reached from the root. -/
inductive State.IsDirectory (s : State) : UInt32 → Prop
  | root : IsDirectory s 0
  | entry {n : UInt32} {name : Str} {e : DirEntry} (h : IsDirectory s n) (hname : name ≠ [])
      (he : s.HasEntry n name e) (hdir : e.fType = FileType.directory.code) : IsDirectory s e.iNo

/-- An entry in use. -/
structure DirEntry.Ok (e : DirEntry) : Prop where
  name : e.name ≠ [] ∧ e.name.length < maxFileNameLen
  type : e.fType = FileType.regular.code ∨ e.fType = FileType.directory.code
  number : e.iNo < 4096

/-- A directory whose names are unique and whose unused slots are zero. -/
structure State.DirectoryOk (s : State) (n : UInt32) : Prop where
  number : n < 4096
  inode : ∃ i, s.inodeNamed n = some i ∧ i.iNo = n ∧
    ∀ lba, References s.disk i lba → Selectable lba 1
  slot : ∀ i k j, s.inodeNamed n = some i → k < 140 → j < dirEntrysPerSec →
    allBlocksOf s.disk i k ≠ 0 →
      blockSlot s.disk (allBlocksOf s.disk i k) j = .zero ∨
        (blockSlot s.disk (allBlocksOf s.disk i k) j).Ok
  unique : ∀ i name k j k' j', s.inodeNamed n = some i → name ≠ [] →
    NamedSlot s.disk i name k j → NamedSlot s.disk i name k' j' → k = k' ∧ j = j'

/-- A well-formed tree.  The root is its own parent. -/
structure State.TreeOk (s : State) : Prop where
  directory : ∀ n, s.IsDirectory n → s.DirectoryOk n
  root : ∀ name, name = [dot] ∨ name = [dot, dot] →
    ∃ e, s.HasEntry 0 name e ∧ e.iNo = 0 ∧ e.fType = FileType.directory.code

/-! ## The search in a directory -/

/-- The first slot with the name, in the blocks from `blockIdx` on. -/
def findBlocks (disk : Bytes) (allBlocks : BlockArray) (name : Str) :
    Nat → Nat → Option DirEntry
  | 0, _ => none
  | left + 1, blockIdx =>
      if allBlocks blockIdx = 0 then findBlocks disk allBlocks name left (blockIdx + 1)
      else
        match searchSlots (view disk (sectorOff (allBlocks blockIdx))) name dirEntrysPerSec 0 with
        | some e => some e
        | none => findBlocks disk allBlocks name left (blockIdx + 1)

section

variable {b : Bytes} {name : Str} {e : DirEntry} {s : State} {F : Fault → Prop}

theorem searchSlots_eq (left idx : Nat) :
    searchSlots b name left idx = firstSlot (fun e => e.name = name) b left idx := by
  induction left generalizing idx with
  | zero => rfl
  | succ left ih => rw [searchSlots, firstSlot, ih]

theorem findBlocks_eq (disk : Bytes) (allBlocks : BlockArray) (left k : Nat) :
    findBlocks disk allBlocks name left k =
      firstEntry (fun e => e.name = name) disk allBlocks left k := by
  induction left generalizing k with
  | zero => rfl
  | succ left ih =>
      rw [findBlocks, firstEntry, searchSlots_eq]
      by_cases h : allBlocks k = 0
      · rw [if_pos h, if_pos h, ih]
      · rw [if_neg h, if_neg h]
        cases firstSlot (fun e => e.name = name) (view disk (sectorOff (allBlocks k)))
            dirEntrysPerSec 0 with
        | none => exact ih (k + 1)
        | some e => rfl

theorem searchBlocks_eq (allBlocks : BlockArray) (left k : Nat) :
    searchBlocks allBlocks name left k = scanBlocks (fun e => e.name = name) allBlocks left k := by
  induction left generalizing k with
  | zero => rfl
  | succ left ih =>
      rw [searchBlocks, scanBlocks]
      by_cases h : allBlocks k = 0
      · rw [if_pos h, if_pos h, ih]
      · rw [if_neg h, if_neg h]
        refine congrArg (ideRead (allBlocks k) (.zero 512) 1 >>= ·) (funext fun buf => ?_)
        simp only [searchSlots_eq]
        cases firstSlot (fun e => e.name = name) buf.data dirEntrysPerSec 0 with
        | none => exact ih (k + 1)
        | some e => rfl

theorem wp_searchBlocks (allBlocks : BlockArray) {Q : Option DirEntry → State → Prop}
    (hsel : ∀ k, k < 140 → allBlocks k ≠ 0 → Selectable (allBlocks k) 1) (left k : Nat)
    (hle : k + left ≤ 140) : Wp (searchBlocks allBlocks name left k) s F Q ↔
      Q (findBlocks s.disk allBlocks name left k) s := by
  rw [searchBlocks_eq, findBlocks_eq]
  exact wp_scanBlocks allBlocks hsel left k hle

/-- The state after `j` requests for memory, with `k` the next address. -/
def State.after (s : State) (j k : Nat) : State :=
  { s with next := k, supply := fun m => s.supply (m + j) }

theorem State.after_after (s : State) (j k j' k' : Nat) :
    (s.after j k).after j' k' = s.after (j + j') k' := by
  have hsupply : (fun m => s.supply (m + j' + j)) = fun m => s.supply (m + (j + j')) := by
    funext m
    rw [Nat.add_assoc, Nat.add_comm j' j]
  show { s with next := k', supply := fun m => s.supply (m + j' + j) } = _
  rw [hsupply]
  rfl

/-- The blocks of a directory can be read when it references no others. -/
theorem selectable_allBlocks {i : Inode} {k : Nat}
    (hsel : ∀ lba, References s.disk i lba → Selectable lba 1) (hk : k < 140)
    (hne : allBlocksOf s.disk i k ≠ 0) : Selectable (allBlocksOf s.disk i k) 1 :=
  hsel _ ⟨hne, Or.inr ⟨k, hk, rfl⟩⟩

/-- `search_dir_entry`.  It finds nothing when its first request is refused, and with the
second it writes through `NULL`. -/
theorem wp_searchDirEntry {d : DirPtr} {p : Ptr} {i : Inode} {Q : Option DirEntry → State → Prop}
    (hd : s.inodeOf d = some p) (hi : s.inodes p = some i) (hm : s.part.Mounted)
    (hsel : ∀ lba, References s.disk i lba → Selectable lba 1) :
    Wp (searchDirEntry d name) s F Q ↔
      (s.supply 0 = true →
        (s.supply 1 = true → Q (findBlocks s.disk (allBlocksOf s.disk i) name 140 0)
          (s.after 2 (s.next + 2))) ∧ (s.supply 1 = false → F .undefined)) ∧
      (s.supply 0 = false → Q none (s.after 1 s.next)) := by
  have htable : i.sector 12 ≠ 0 → Selectable (i.sector 12) 1 :=
    fun h => hsel _ ⟨h, Or.inl rfl⟩
  have hd' : s.withBuf.inodeOf d = some p := hd
  have hi' : s.withBuf.inodes p = some i := hi
  have hentry : s.withBuf.withBuf.part.sb.dirEntrySize.toNat = dirEntrySize := hm.entrySize
  unfold searchDirEntry
  rw [Wp.bind, wp_sysMallocBuf]
  refine and_congr (forall_congr' fun _ => ?_) Iff.rfl
  show Wp _ s.withBuf F Q ↔ _
  rw [Wp.bind, wp_dirInode_some hd', Wp.bind, wp_loadInode_some hi', Wp.bind, wp_collectBlocks]
  refine (and_iff_left fun h hn => absurd (htable h) hn).trans ?_
  refine (forall_prop_of_true htable).trans ?_
  rw [Wp.bind, wp_sysMallocBuf]
  refine and_congr (forall_congr' fun _ => ?_) (forall_congr' fun _ => ?_)
  · show Wp _ s.withBuf.withBuf F Q ↔ _
    rw [Wp.bind, wp_getEntrySize]
    refine (and_iff_left fun h => absurd hentry h).trans ?_
    refine (forall_prop_of_true hentry).trans ?_
    show Wp _ s.withBuf.withBuf F Q ↔ _
    rw [Wp.bind]
    refine (wp_searchBlocks (s := s.withBuf.withBuf) (allBlocksOf s.disk i)
      (fun k hk hne => selectable_allBlocks hsel hk hne) 140 0 (Nat.le_refl _)).trans ?_
    rw [Wp.bind, wp_sysFreeBuf_live rfl List.mem_cons_self, Wp.bind]
    have herase : s.withBuf.withBuf.bufs.erase s.withBuf.fresh = s.fresh :: s.bufs :=
      List.erase_cons_head _ _
    refine (wp_sysFreeBuf_live rfl (herase ▸ List.mem_cons_self)).trans ?_
    rw [Wp.pure]
    show Q _ { s.withBuf.withBuf with
      bufs := (s.withBuf.withBuf.bufs.erase s.withBuf.fresh).erase s.fresh } ↔ _
    rw [herase, List.erase_cons_head]
    exact Iff.rfl
  · rw [Wp.bind, wp_getEntrySize]
    refine (and_iff_left fun h => absurd hentry h).trans ?_
    exact forall_prop_of_true hentry

/-! ## What the search finds -/

variable {n : UInt32}

theorem State.HasEntry.ok (hdir : s.DirectoryOk n) (hname : name ≠ []) (h : s.HasEntry n name e) :
    e.Ok ∧ e.name = name := by
  obtain ⟨i, k, j, hi, ⟨hk, hj, hne, hslot⟩, rfl⟩ := h
  refine ⟨?_, hslot⟩
  rcases hdir.slot i k j hi hk hj hne with hzero | hok
  · rw [hzero] at hslot
    exact absurd hslot.symm hname
  · exact hok

/-- The first slot with the name is the only one. -/
theorem findBlocks_iff (hdir : s.DirectoryOk n) (hname : name ≠ []) {i : Inode}
    (hi : s.inodeNamed n = some i) :
    findBlocks s.disk (allBlocksOf s.disk i) name 140 0 = some e ↔ s.HasEntry n name e := by
  have hplace : ∀ {e'}, findBlocks s.disk (allBlocksOf s.disk i) name 140 0 = some e' →
      ∃ k j, NamedSlot s.disk i name k j ∧ blockSlot s.disk (allBlocksOf s.disk i k) j = e' := by
    intro e' h
    rw [findBlocks_eq] at h
    obtain ⟨k, j, hk, hj, hne, hslot, hname'⟩ := firstEntry_some h
    exact ⟨k, j, ⟨by omega, hj, hne, hslot ▸ hname'⟩, hslot⟩
  constructor
  · intro h
    obtain ⟨k, j, hnamed, hslot⟩ := hplace h
    exact ⟨i, k, j, hi, hnamed, hslot⟩
  · rintro ⟨i', k, j, hi', hnamed, rfl⟩
    rw [hi, Option.some.injEq] at hi'
    rw [← hi'] at hnamed ⊢
    cases hfound : findBlocks s.disk (allBlocksOf s.disk i) name 140 0 with
    | none =>
        obtain ⟨hk, hj, hne, hslot⟩ := hnamed
        rw [findBlocks_eq] at hfound
        exact absurd hslot (firstEntry_none hfound k j (Nat.zero_le k) (by omega) hj hne)
    | some e' =>
        obtain ⟨k', j', hnamed', hslot'⟩ := hplace hfound
        obtain ⟨hk, hj⟩ := hdir.unique i name k j k' j' hi hname hnamed hnamed'
        rw [← hslot', hk, hj]

theorem State.HasEntry.unique (hdir : s.DirectoryOk n) (hname : name ≠ []) {e' : DirEntry}
    (h : s.HasEntry n name e) (h' : s.HasEntry n name e') : e = e' := by
  obtain ⟨i, hi, -⟩ := hdir.inode
  have hfound := (findBlocks_iff hdir hname hi).mpr h
  rw [(findBlocks_iff hdir hname hi).mpr h', Option.some.injEq] at hfound
  exact hfound.symm

end

end OsTruth
