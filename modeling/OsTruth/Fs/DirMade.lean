/-
The directory that `sys_mkdir` makes, and what it becomes.

`mkdirNew` is `sys_mkdir` once the name is known to be free.  It writes the block with `.` and
`..` and then the inode, through `inode_sync`, which takes the low byte of the number.  So
`dir_open` finds the inode again when the number is below 256, and from there on the
directory is in order.
-/
import OsTruth.Fs.DirOccupancy
import OsTruth.Fs.Fs
import OsTruth.Fs.OpenInodes

namespace OsTruth

open ByteString Fallible

/-! ## What is written -/

def newDirInode (n lba : UInt32) : Inode :=
  { (inodeInit n .zero).setSector 0 lba with iSize := 48 }

/-- In `t` the block of directory `n` is written, and its inode when the number fits into a
byte. -/
structure MadeOnDisk (t : State) (n lba parent : UInt32) : Prop where
  mounted : t.part.Mounted
  used : UsedBlock t.part lba
  dots : ∀ a, a < 512 → t.disk (sectorOff lba + a) = dotEntries n parent a
  slot : n < 256 → ∀ a, a < inodeSize →
    t.disk (slotOff t.part n.toNat + a) = (newDirInode n lba).bytes a

section

variable {s t : State} {q : Ptr} {i i' j : Inode} {n lba : UInt32} {a b : Nat}
variable {parentDir : DirPtr} {dirname : Str} {ioBuf : Ptr}

/-- `dir_close` closes an inode and frees memory. -/
theorem dirClose_frame (d : DirPtr) : Ensures (dirClose d) s fun _ t =>
    t.disk = s.disk ∧ t.part = { s.part with openInodes := t.part.openInodes } := by
  cases d with
  | root => exact ⟨rfl, rfl⟩
  | heap p =>
      have hfree : ∀ u : State, u.disk = s.disk ∧
          u.part = { s.part with openInodes := u.part.openInodes } →
            Ensures (sysFreeDir p) u fun _ t => t.disk = s.disk ∧
              t.part = { s.part with openInodes := t.part.openInodes } := by
        intro u hu
        rw [Ensures, sysFreeDir, wp_sysFree]
        exact ⟨fun _ _ => hu, fun _ _ => True.intro, fun _ _ => True.intro, fun _ _ => True.intro⟩
      unfold dirClose
      rw [Ensures, Wp.bind, wp_dirInode]
      refine ⟨fun r _ => ?_, fun _ => True.intro⟩
      rw [Wp.bind]
      cases hr : s.inodes r with
      | none =>
          unfold inodeClose
          rw [Wp.bind, wp_loadInode]
          refine ⟨fun i hi => ?_, fun _ => True.intro⟩
          rw [hr] at hi
          cases hi
      | some i =>
          rw [wp_inodeClose hr]
          exact ⟨fun _ => hfree _ ⟨rfl, rfl⟩,
            fun _ => ⟨fun _ => hfree _ ⟨rfl, rfl⟩, fun _ => True.intro⟩⟩

theorem mkdirFail_fails : Ensures (mkdirFail ioBuf) s fun r _ => r ≠ 0 := by
  unfold mkdirFail
  rw [Ensures, Wp.ite, wp_undefined]
  exact ⟨fun _ => True.intro, fun _ => Wp.pure.mpr (by decide)⟩

theorem mkdirRollback2_fails :
    Ensures (mkdirRollback2 n parentDir ioBuf) s fun r _ => r ≠ 0 := by
  unfold mkdirRollback2 mkdirRollback1
  rw [Ensures, Wp.bind]
  refine Wp.trivial.call fun _ t _ => ?_
  rw [Wp.bind]
  exact Wp.trivial.call fun _ u _ => mkdirFail_fails

/-- A write to the inode table or in front of it leaves the data area as it is. -/
theorem sameBlock_front (hm : s.part.Mounted) {off len : Nat} {d : Bytes} {disk : Bytes}
    (hoff : off + len ≤ sectorOff s.part.sb.dataStartLba)
    (hlba : s.part.sb.dataStartLba.toNat ≤ lba.toNat) :
    SameBlock disk (splice disk off len d) lba := by
  have hdata := hm.dataStartLba
  refine sameBlock_splice (Or.inl ?_)
  unfold sectorOff at *
  omega

def State.mkdirWritten (s : State) (parentInode : Inode) (n lba : UInt32) : State :=
  ((s.store (slotOff s.part (parentInode.iNo.toNat % 256)) inodeSize (pureInode parentInode).bytes).store
    (slotOff s.part (n.toNat % 256)) inodeSize (pureInode (newDirInode n lba)).bytes).store
      (sectorOff s.part.sb.inodeBitmapLba + 512 * (n.toNat / 4096)) 512
      (view s.part.blockBitmap.bits (n.toNat / 4096))

theorem mkdirWritten_sameBlock (hm : s.part.Mounted) (hn : n.toNat < 4096)
    (hlba : s.part.sb.dataStartLba.toNat ≤ lba.toNat) {b : UInt32} :
    SameBlock s.disk (s.mkdirWritten i n b).disk lba := by
  have h₁ := hm.inodeTableLba
  have h₂ := hm.dataStartLba
  have hslot : ∀ m, m < 256 → slotOff s.part m + inodeSize ≤ sectorOff s.part.sb.dataStartLba := by
    intro m hlt
    unfold slotOff sectorOff inodeSize
    omega
  refine (sameBlock_front hm (hslot _ (Nat.mod_lt _ (by decide))) hlba).trans
    ((sameBlock_front hm (hslot _ (Nat.mod_lt _ (by decide))) hlba).trans
      (sameBlock_front hm ?_ hlba))
  unfold sectorOff
  omega

theorem mkdirWritten_slot (hm : s.part.Mounted) (hn : n < 256) (ha : a < inodeSize) :
    (s.mkdirWritten i n lba).disk (slotOff s.part n.toNat + a) = (newDirInode n lba).bytes a := by
  have h₁ := hm.inodeTableLba
  have hn' : n.toNat < 256 := hn
  have hmod : n.toNat % 256 = n.toNat := Nat.mod_eq_of_lt hn'
  have hdiv : n.toNat / 4096 = 0 := by omega
  have hpure : pureInode (newDirInode n lba) = newDirInode n lba := rfl
  show splice (splice _ (slotOff s.part (n.toNat % 256)) inodeSize _)
    (sectorOff s.part.sb.inodeBitmapLba + 512 * (n.toNat / 4096)) 512 _ _ = _
  rw [hmod, hdiv, hpure, splice_outside, splice_inside (Nat.le_add_right _ _) (by omega),
    Nat.add_sub_cancel_left]
  unfold slotOff sectorOff
  omega

end

/-! ## The call -/

section

variable {s t : State} {q : Ptr} {i i' j : Inode} {n lba : UInt32} {a b : Nat}
variable {parentDir : DirPtr} {dirname : Str} {ioBuf : Ptr}

theorem mkdirEnd_makes (hm : s.part.Mounted) (hd : s.inodeOf parentDir = some q)
    (hq : s.inodes q = some i) (hn : n.toNat < 8 * s.part.inodeBitmap.btmpBytesLen)
    (hj : j = newDirInode n lba) (hused : UsedBlock s.part lba) {parent : UInt32}
    (hdots : ∀ a, a < 512 → s.disk (sectorOff lba + a) = dotEntries n parent a) :
    Ensures (mkdirEnd n j parentDir ioBuf) s fun _ t => MadeOnDisk t n lba parent := by
  have hn' : n.toNat < 4096 := by
    rw [hm.inodeBitmapLen] at hn
    omega
  have hin : n.toNat < 8 * (BitmapType.inodeBitmap.bitmap s.part).btmpBytesLen := hn
  rw [hj, Ensures, mkdirEnd, Wp.bind, wp_dirInode_some hd, Wp.bind, wp_loadInode_some hq, Wp.bind]
  refine (wp_inodeSync hm (show 1024 ≤ 1024 by decide)).mpr ?_
  rw [Wp.bind]
  refine (wp_inodeSync (s := s.store _ _ _) hm (show 1024 ≤ 1024 by decide)).mpr ?_
  rw [Wp.bind]
  refine (wp_bitmapSync (s := (s.store _ _ _).store _ _ _) hm hin).mpr ?_
  rw [Wp.bind]
  refine Wp.call (sysFreeBuf_reads ioBuf (s.mkdirWritten i n lba)) fun _ t ht => ?_
  rw [Wp.bind]
  refine (dirClose_frame parentDir).call fun _ u hu => ?_
  obtain ⟨hdisk, hpart⟩ := hu
  rw [ht.disk] at hdisk
  rw [ht.part] at hpart
  have hsb : u.part.sb = s.part.sb := by
    rw [hpart]
    rfl
  refine ⟨?_, ?_, fun a ha => ?_, fun hlow a ha => ?_⟩
  · rw [hpart]
    exact { hm with }
  · rw [hpart]
    exact hused
  · rw [hdisk, mkdirWritten_sameBlock hm hn' (hused.ge_data hm) a ha]
    exact hdots a ha
  · rw [hdisk, slotOff, hsb]
    exact mkdirWritten_slot hm hlow ha

/-- The block map of the parent while the new block is written. -/
theorem parent_map (hok : BlockMapOk s.part s.disk j)
    (hpart : t.part = { s.part with
      inodeBitmap := t.part.inodeBitmap, blockBitmap := s.part.blockBitmap.set b true })
    (hsame : ∀ lba, UsedBlock s.part lba → SameBlock s.disk t.disk lba) :
    BlockMapOk t.part t.disk j ∧ ∀ lba, References t.disk j lba → UsedBlock s.part lba := by
  have hmap : ∀ m, allBlocksOf t.disk j m = allBlocksOf s.disk j m := fun m =>
    allBlocksOf_congr (fun _ => rfl) rfl fun h12 => hsame _ (hok.used _ ⟨h12, Or.inl rfl⟩)
  have hrefs : ∀ lba, References t.disk j lba → UsedBlock s.part lba := by
    rintro lba ⟨hlba, h | ⟨m, hm', h⟩⟩
    · exact hok.used lba ⟨hlba, Or.inl h⟩
    · exact hok.used lba ⟨hlba, Or.inr ⟨m, hm', (hmap m).symm.trans h⟩⟩
  refine ⟨⟨fun lba h => ?_, fun m m' hm₁ hm₂ hne heq => ?_, fun m hm₁ h12 heq => ?_⟩, hrefs⟩
  · obtain ⟨c, hc, heq, hset, hsel⟩ := hrefs lba h
    rw [hpart]
    exact ⟨c, hc, heq, set_bit_mono _ _ hset, hsel⟩
  · rw [hmap, hmap] at heq
    rw [hmap] at hne
    exact hok.inj m m' hm₁ hm₂ hne heq
  · rw [hmap] at heq
    exact hok.table m hm₁ h12 heq

theorem createDirEntry_fType {fileType : FileType} {e : DirEntry}
    (h : createDirEntry dirname n fileType = .ok e) : e.fType = fileType.code := by
  unfold createDirEntry assert at h
  by_cases hlen : dirname.length ≤ maxFileNameLen
  · rw [if_pos hlen] at h
    cases h
    rfl
  · rw [if_neg hlen] at h
    cases h

/-- The state in which `sys_mkdir` puts the entry into the parent. -/
def State.withDots (s : State) (n b : Nat) (parent : UInt32) : State :=
  (((s.setInodeBitmap (s.part.inodeBitmap.set n true)).setBlockBitmap
    (s.part.blockBitmap.set b true)).store
      (sectorOff s.part.sb.blockBitmapLba + 512 * (b / 4096)) 512
      (view (s.part.blockBitmap.set b true).bits (b / 4096))).store
        (sectorOff (blockAddr s.part b)) 512 (dotEntries (UInt32.ofNat n) parent)

theorem withDots_mounted (hm : s.part.Mounted) (m b : Nat) (parent : UInt32) :
    (s.withDots m b parent).part.Mounted :=
  { hm with blockBitmapLen := hm.blockBitmapLen, inodeBitmapLen := hm.inodeBitmapLen }

theorem withDots_sameBlock (hm : s.part.Mounted) (hb : s.part.blockBitmap.FirstClear b)
    (m : Nat) (parent : UInt32) (hused : UsedBlock s.part lba) :
    SameBlock s.disk (s.withDots m b parent).disk lba := by
  have hge := hused.ge_data hm
  have htake : SameBlock s.disk (s.takeBlock b).disk lba := takeBlock_sameBlock hm hb.1 hge
  exact htake.trans (sameBlock_splice_block (hused.ne_fresh hm hb).symm)

/-- `sys_mkdir` once the inode and the block are taken. -/
theorem mkdirInstall_makes (hm : s.part.Mounted) (hd : s.inodeOf parentDir = some q)
    (hq : s.inodes q = some j) (hok : BlockMapOk s.part s.disk j) {m : Nat}
    (hn : s.part.inodeBitmap.FirstClear m) (hb : s.part.blockBitmap.FirstClear b) :
    Ensures (mkdirInstall dirname parentDir (UInt32.ofNat m) (blockAddr s.part b) ioBuf)
      ((s.setInodeBitmap (s.part.inodeBitmap.set m true)).setBlockBitmap
        (s.part.blockBitmap.set b true)) fun r t =>
        r = 0 → MadeOnDisk t (UInt32.ofNat m) (blockAddr s.part b) j.iNo := by
  have hm₁ : ((s.setInodeBitmap (s.part.inodeBitmap.set m true)).setBlockBitmap
      (s.part.blockBitmap.set b true)).part.Mounted :=
    { hm with blockBitmapLen := hm.blockBitmapLen, inodeBitmapLen := hm.inodeBitmapLen }
  have hm₂ := withDots_mounted hm m b j.iNo
  have hsub := blockAddr_sub hm hb.1
  have hidx : (blockAddr s.part b - s.part.sb.dataStartLba).toNat < 8 * (BitmapType.blockBitmap.bitmap
      ((s.setInodeBitmap (s.part.inodeBitmap.set m true)).setBlockBitmap
        (s.part.blockBitmap.set b true)).part).btmpBytesLen := by
    rw [hsub]
    exact hb.1
  have hmtoNat : (UInt32.ofNat m).toNat = m := by
    have hlt := hn.1
    rw [hm.inodeBitmapLen] at hlt
    exact UInt32.toNat_ofNat_of_lt (show m < 2 ^ 32 by omega)
  obtain ⟨hmap, hrefs⟩ := parent_map (t := s.withDots m b j.iNo) hok rfl
    fun lba hused => withDots_sameBlock hm hb m j.iNo hused
  unfold mkdirInstall
  rw [Ensures, Wp.bind, Wp.get, Wp.bind, wp_kassert]
  refine ⟨fun _ => ?_, fun _ => True.intro⟩
  rw [Wp.bind]
  refine (wp_bitmapSync hm₁ hidx).mpr ?_
  rw [Wp.bind, hsub]
  refine (wp_dirInode_some (p := q) ?_).mpr ?_
  · exact hd
  rw [Wp.bind]
  refine (wp_loadInode_some (i := j) ?_).mpr ?_
  · exact hq
  rw [Wp.bind, wp_ideWrite]
  refine ⟨fun hsel => ⟨fun _ => ?_, fun _ => True.intro⟩, fun _ => True.intro⟩
  have hused : UsedBlock (s.withDots m b j.iNo).part (blockAddr s.part b) :=
    usedBlock_take hb hsel
  show Wp _ (s.withDots m b j.iNo) _ _
  rw [Wp.bind, Wp.get, Wp.bind, Wp.lift]
  refine ⟨fun e he => ?_, fun _ _ => True.intro⟩
  have htype : e.fType ≠ 0 := by
    rw [createDirEntry_fType he]
    decide
  have hd₂ : (s.withDots m b j.iNo).inodeOf parentDir = some q := hd
  have hq₂ : (s.withDots m b j.iNo).inodes q = some j := hq
  rw [Wp.bind]
  refine (syncDirEntry_put hm₂ hd₂ hq₂ hmap htype (show 512 ≤ 1024 by decide)).call
    fun r u hput => ?_
  obtain ⟨i', k, l, honly, hput⟩ := hput
  have hdots : ∀ a, a < 512 → u.disk (sectorOff (blockAddr s.part b) + a) =
      dotEntries (UInt32.ofNat m) j.iNo a := by
    intro a ha
    rw [hput.disk _ hused (fun href => (hrefs _ href).ne_fresh hm hb rfl) a ha]
    refine (splice_inside (Nat.le_add_right _ _) (by omega)).trans ?_
    rw [Nat.add_sub_cancel_left]
  rw [Wp.ite]
  refine ⟨fun _ => ?_, fun _ => mkdirRollback2_fails.call fun r t hr hzero => absurd hzero hr⟩
  refine (mkdirEnd_makes (honly.mounted hm₂) ((honly.inodeOf parentDir).trans hd) honly.inode ?_ ?_
    (hused.mono honly hput.bit) hdots).call fun r t ht _ => ht
  · rw [hmtoNat, honly.part]
    exact hn.1
  · unfold newDirInode
    rw [entrySize_eq hm₂]
    rfl

theorem mkdirNew_makes (hm : s.part.Mounted) (hd : s.inodeOf parentDir = some q)
    (hq : s.inodes q = some j) (hok : BlockMapOk s.part s.disk j) :
    Ensures (mkdirNew dirname parentDir ioBuf) s fun r t => r = 0 →
      ∃ m lba, s.part.inodeBitmap.FirstClear m ∧ MadeOnDisk t (UInt32.ofNat m) lba j.iNo := by
  have hfail : ∀ u : State, Ensures (mkdirRollback1 parentDir ioBuf) u fun r t => r = 0 →
      ∃ m lba, s.part.inodeBitmap.FirstClear m ∧ MadeOnDisk t (UInt32.ofNat m) lba j.iNo := by
    intro u
    rw [Ensures, mkdirRollback1, Wp.bind]
    exact Wp.trivial.call fun _ v _ => mkdirFail_fails.call fun r t hr hzero => absurd hzero hr
  unfold mkdirNew
  rw [Ensures, Wp.bind, wp_inodeBitmapAlloc]
  refine ⟨fun m hn => ?_, fun _ => True.intro⟩
  rw [Wp.ite]
  refine ⟨fun _ => hfail _, fun _ => ?_⟩
  rw [Wp.bind, wp_blockBitmapAlloc]
  refine ⟨fun b hb => ?_, fun _ => True.intro⟩
  rw [Wp.ite]
  refine ⟨fun _ => mkdirRollback2_fails.call fun r t hr hzero => absurd hzero hr, fun _ => ?_⟩
  exact (mkdirInstall_makes hm hd hq hok hn hb).call fun r t ht hzero => ⟨m, _, hn, ht hzero⟩

end

/-! ## The directory that is opened -/

def dotSlot (n parent : UInt32) (l : Nat) : DirEntry :=
  if l = 0 then dotEntry n else if l = 1 then dotDotEntry parent else .zero

section

variable {s t : State} {p : Ptr} {i : Inode} {n lba parent : UInt32} {disk : Bytes} {l m : Nat}

theorem dotEntries_bytes (n parent : UInt32) (l : Nat) {k : Nat} (hk : k < dirEntrySize) :
    dotEntries n parent (dirEntrySize * l + k) = (dotSlot n parent l).bytes k := by
  have hentry : dirEntrySize = 24 := rfl
  have hdot : dotEntry n = ⟨fun j => if j.val = 0 then dot else 0, n, FileType.directory.code⟩ := by
    simp only [dotEntry, Nat.lt_one_iff]
  unfold dotEntries dotSlot
  by_cases h0 : l = 0
  · rw [if_pos h0, h0, Nat.mul_zero, Nat.zero_add, if_pos hk, hdot]
  rw [if_neg h0, if_neg (by rw [hentry]; omega)]
  by_cases h1 : l = 1
  · rw [if_pos h1, h1, Nat.mul_one, if_pos (by omega), Nat.add_sub_cancel_left]
    rfl
  · rw [if_neg h1, if_neg (by rw [hentry]; omega)]
    exact (zero_bytes k).symm

/-- The slots of the block with `.` and `..`. -/
theorem blockSlot_dots (h : ∀ a, a < 512 → disk (sectorOff lba + a) = dotEntries n parent a)
    (hl : l < dirEntrysPerSec) : blockSlot disk lba l = dotSlot n parent l := by
  have hper : dirEntrysPerSec = 21 := rfl
  have hentry : dirEntrySize = 24 := rfl
  refine blockSlot_of_bytes fun k hk => ?_
  rw [slotPlace, Nat.add_assoc, h _ (by rw [hentry] at hk ⊢; omega), dotEntries_bytes n parent l hk]

theorem dotSlot_live (n parent : UInt32) (l : Nat) : (dotSlot n parent l).fType ≠ 0 ↔ l < 2 := by
  unfold dotSlot
  by_cases h0 : l = 0
  · rw [if_pos h0]
    exact iff_of_true (show FileType.directory.code ≠ 0 by decide) (by omega)
  rw [if_neg h0]
  by_cases h1 : l = 1
  · rw [if_pos h1]
    exact iff_of_true (show FileType.directory.code ≠ 0 by decide) (by omega)
  · rw [if_neg h1]
    exact iff_of_false (fun h => h rfl) (by omega)

def referenced (s : State) (i : Inode) (b : Nat) : Prop :=
  ∃ lba, References s.disk i lba ∧ BitOf s.part lba b

/-- A directory with the block that `sys_mkdir` writes and the inode that it makes is in
order. -/
theorem DirKept.of_dots (hm : s.part.Mounted) (hp : s.inodes p = some i)
    (hused : UsedBlock s.part lba)
    (hdots : ∀ a, a < 512 → s.disk (sectorOff lba + a) = dotEntries n parent a)
    (hsector : ∀ m, i.sector m = if m = 0 then lba else 0) (hsize : i.iSize = 48) :
    DirKept s p i (referenced s i) := by
  have hmap := allBlocksOf_single s.disk hsector
  have h12 : i.sector 12 = 0 := (hsector 12).trans (if_neg (by omega))
  have hne : lba ≠ 0 := by
    obtain ⟨b, hb, rfl, -⟩ := hused
    exact blockAddr_pos hm hb
  have hper : dirEntrysPerSec = 21 := rfl
  have hentry : ∀ l, l < dirEntrysPerSec → entryIn s.disk i (0, l) = dotSlot n parent l := by
    intro l hl
    show blockSlot s.disk (allBlocksOf s.disk i 0) l = _
    rw [hmap, if_pos rfl]
    exact blockSlot_dots hdots hl
  have hlive : ∀ m l, LiveSlot s.disk i m l ↔ m = 0 ∧ l < 2 := by
    intro m l
    constructor
    · rintro ⟨-, hl, hblock, htype⟩
      rw [hmap] at hblock
      have hm0 : m = 0 := by
        by_contra hm0
        exact hblock (if_neg hm0)
      rw [hm0] at htype
      refine ⟨hm0, (dotSlot_live n parent l).mp ?_⟩
      rwa [← hentry l hl]
    · rintro ⟨rfl, hl⟩
      refine ⟨by omega, by omega, ?_, ?_⟩
      · rw [hmap]
        exact hne
      · have htype := (dotSlot_live n parent l).mpr hl
        rwa [← hentry l (by omega)] at htype
  refine ⟨hm, hp, ⟨blockMapOk_single s.disk hused hne hsector, ?_, ?_,
    fun m l hl _ => ((hlive m l).mp hl).1⟩, ⟨fun m hm' _ hblock => ?_,
    fun htable => absurd h12 htable, fun m hm' _ => ?_, fun l l' hl => ?_⟩, fun b hb => ?_,
    fun lba' b href hb => ⟨lba', href, hb⟩, [], ⟨List.nodup_nil, ?_, ?_, ?_⟩, ?_⟩
  · exact ⟨0, (hlive 0 0).mpr ⟨rfl, by decide⟩, by rw [hentry 0 (by decide)]; rfl⟩
  · exact ⟨1, (hlive 0 1).mpr ⟨rfl, by decide⟩, by rw [hentry 1 (by decide)]; rfl⟩
  · rw [hmap, if_neg (by omega)] at hblock
    exact absurd rfl hblock
  · rw [hmap, if_neg (by omega)]
  · have h0 := ((hlive 12 l).mp hl).1
    omega
  · obtain ⟨lba', href, hbit⟩ := hb
    rw [references_single hsector href] at hbit
    exact hused.bit hm hbit
  · exact fun b hb => absurd hb List.not_mem_nil
  · exact fun b hb => absurd hb List.not_mem_nil
  · exact fun b hb => absurd hb List.not_mem_nil
  · have hlist : (liveSlots s.disk i).length = 2 := by
      have hperm : (liveSlots s.disk i).Perm [(0, 0), (0, 1)] := by
        refine (List.perm_ext_iff_of_nodup (liveSlots_nodup _ _) (by decide)).mpr fun y => ?_
        obtain ⟨m, l⟩ := y
        rw [mem_liveSlots, hlive]
        simp only [List.mem_cons, Prod.mk.injEq, List.not_mem_nil, or_false]
        omega
      exact hperm.length_eq
    rw [hsize, hlist]
    rfl

/-- `dir_open` of a number that is not open takes the inode from disk. -/
theorem dirOpen_loaded (hfirst : firstOpen s.inodes n s.part.openInodes = .ok none) :
    Ensures (dirOpen n) s fun d t => t.disk = s.disk ∧
      t.part = { s.part with openInodes := t.part.openInodes } ∧ ∃ p, t.inodeOf d = some p ∧
        t.inodes p = some { readSlot s.part s.disk n with iOpenCnts := 1 } := by
  rw [Ensures, wp_dirOpen]
  refine ⟨fun _ => ?_, fun _ => Wp.trivial.call fun _ _ _ => True.intro⟩
  rw [wp_inodeOpen]
  refine ⟨fun p i hsome => ?_, fun _ => wp_inodeRead.mpr ⟨fun _ => ⟨fun _ => ⟨fun _ => ⟨fun _ => ?_,
    fun _ => True.intro⟩, fun _ => True.intro⟩, fun _ => True.intro⟩, fun _ => True.intro⟩,
    fun _ _ => True.intro⟩
  · have h := hfirst.symm.trans hsome
    rw [Except.ok.injEq] at h
    cases h
  · refine ⟨rfl, rfl, ⟨false, s.newDir.next⟩, ?_, if_pos rfl⟩
    show Option.bind (if s.fresh = s.fresh then _ else _) _ = _
    rw [if_pos rfl]
    rfl

/-- Between `s` and `t` `sys_mkdir` made directory `n`, and then `dir_open` opened it as `dir`,
with the inode `i` at `p`. -/
structure DirMade (s t u : State) (n : Nat) (dir : DirPtr) (p : Ptr) (i : Inode) : Prop where
  mounted : s.part.Mounted
  made : ∃ parentDir q j dirname ioBuf, s.inodeOf parentDir = some q ∧ s.inodes q = some j ∧
    BlockMapOk s.part s.disk j ∧ (mkdirNew dirname parentDir ioBuf).run s = .ok (0, t)
  number : s.part.inodeBitmap.FirstClear n
  opened : (dirOpen (UInt32.ofNat n)).run t = .ok (dir, u)
  handle : u.inodeOf dir = some p
  inode : u.inodes p = some i

theorem newDirInode_sector (n lba : UInt32) (m : Nat) :
    (newDirInode n lba).sector m = if m = 0 then lba else 0 := by
  refine (Inode.sector_setSector (inodeInit n .zero) (by omega) lba m).trans ?_
  by_cases hm : m = 0
  · rw [if_pos hm, if_pos hm]
  · rw [if_neg hm, if_neg hm]
    unfold Inode.sector inodeInit
    simp

/-- With a number below 256 that is not open, the inode in memory is the one that was made. -/
theorem DirMade.kept {u : State} {k : Nat} {dir : DirPtr} (h : DirMade s t u k dir p i)
    (hlow : k < 256)
    (hclosed : firstOpen t.inodes (UInt32.ofNat k) t.part.openInodes = .ok none) :
    DirKept u p i (referenced u i) := by
  obtain ⟨parentDir, q, j, dirname, ioBuf, hd, hq, hok, hrun⟩ := h.made
  obtain ⟨m, lba, hm, hdisk⟩ := ensures_iff.mp (mkdirNew_makes h.mounted hd hq hok) _ _ hrun rfl
  rw [hm.unique h.number] at hdisk
  have hk : (UInt32.ofNat k).toNat = k := UInt32.toNat_ofNat_of_lt (show k < 2 ^ 32 by omega)
  have hk256 : UInt32.ofNat k < 256 := by
    rw [UInt32.lt_iff_toNat_lt, hk]
    exact hlow
  have hk4096 : UInt32.ofNat k < 4096 := by
    rw [UInt32.lt_iff_toNat_lt, hk]
    show k < 4096
    omega
  obtain ⟨hsame, hpart, p', hp', hi'⟩ := ensures_iff.mp (dirOpen_loaded hclosed) _ _ h.opened
  have hpp : p' = p := by
    rw [h.handle, Option.some.injEq] at hp'
    exact hp'.symm
  have hslot : readSlot t.part t.disk (UInt32.ofNat k) = newDirInode (UInt32.ofNat k) lba := by
    rw [readSlot_eq hdisk.mounted hk4096]
    exact (Inode.ofBytes_eq_iff (show 0 < 2 ^ 32 by decide)).mpr (hdisk.slot hk256)
  rw [hpp, h.inode, Option.some.injEq, hslot] at hi'
  have hmounted : u.part.Mounted := by
    rw [hpart]
    exact { hdisk.mounted with }
  have hused : UsedBlock u.part lba := by
    rw [hpart]
    exact hdisk.used
  have hdots : ∀ a, a < 512 →
      u.disk (sectorOff lba + a) = dotEntries (UInt32.ofNat k) j.iNo a := by
    rw [hsame]
    exact hdisk.dots
  refine .of_dots hmounted h.inode hused hdots (fun m => ?_) ?_
  · rw [hi']
    exact newDirInode_sector _ lba m
  · rw [hi']
    rfl

/-- After any run of insertions and deletions on a directory that `sys_mkdir` made, every block
behind the first one is occupied, and `dir_remove` can remove it when it is empty. -/
theorem dirRun_accounted {u v : State} {k : Nat} {dir : DirPtr} {taken : Nat → Prop}
    (hmade : DirMade s t u k dir p i) (hlow : k < 256)
    (hclosed : firstOpen t.inodes (UInt32.ofNat k) t.part.openInodes = .ok none)
    (hrun : DirRun dir p u (referenced u i) v taken) :
    ∃ i', v.inodes p = some i' ∧ Accounted v dir i' := by
  obtain ⟨hd, i', hkept⟩ := hrun.kept hmade.handle (hmade.kept hlow hclosed)
  exact ⟨i', hkept.inode, hkept.accounted hd⟩

end

/-! ## Two insertions into `/d` -/

/-- The formatted partition with the inodes of `bits` in use, and a buffer. -/
def mkdirState (bits : Bytes) : State :=
  { freshState with
    part := { freshPart with inodeBitmap := ⟨512, bits⟩ }
    bufs := [⟨false, 1⟩]
    next := 2 }

/-- The regular file `g` with inode 6. -/
def entryG : DirEntry := ⟨fun j => if j.val = 0 then 103 else 0, 6, FileType.regular.code⟩

/-- Directory `n` is made in the root directory of `s` and opened, and `f` and `g` are
inserted; then `P` holds. -/
abbrev TwoPut (s : State) (n : Nat) (P : State → Prop) : Prop :=
  Returns (mkdirNew [100] .root ⟨false, 1⟩) s fun r t =>
    r = 0 ∧ firstOpen t.inodes (UInt32.ofNat n) t.part.openInodes = .ok none ∧
      Returns (dirOpen (UInt32.ofNat n)) t fun dir u =>
        dir = .heap ⟨false, 2⟩ ∧ u.inodeOf dir = some ⟨false, 3⟩ ∧
          (u.inodes ⟨false, 3⟩).isSome = true ∧
            Returns (syncDirEntry dir entryF (.zero 1024)) u fun a v => a = true ∧
              Returns (syncDirEntry dir entryG (.zero 1024)) v fun b w => b = true ∧ P w

theorem mkdirState_parent (bits : Bytes) :
    ∃ j, (mkdirState bits).inodes ⟨false, 0⟩ = some j ∧
      BlockMapOk (mkdirState bits).part (mkdirState bits).disk j := by
  have hsector : ∀ m, (rootInode freshPart.sb).sector m =
      if m = 0 then freshPart.sb.dataStartLba else 0 := by
    intro m
    refine (Inode.sector_setSector _ (by omega) _ m).trans ?_
    by_cases hm : m = 0
    · rw [if_pos hm, if_pos hm]
    · rw [if_neg hm, if_neg hm]
      unfold Inode.sector Inode.zero
      simp
  have hused : UsedBlock freshPart freshPart.sb.dataStartLba :=
    ⟨0, by decide, by decide, by decide +kernel, selectable_one.mpr (by decide)⟩
  exact ⟨{ rootInode freshPart.sb with iOpenCnts := 1 }, rfl,
    blockMapOk_single _ hused (by decide) hsector⟩

/-- The run that `TwoPut` describes. -/
theorem TwoPut.run {bits : Bytes} {n : Nat} {P : State → Prop} (h : TwoPut (mkdirState bits) n P)
    (hn : (mkdirState bits).part.inodeBitmap.FirstClear n) :
    ∃ t u w i taken, DirMade (mkdirState bits) t u n (.heap ⟨false, 2⟩) ⟨false, 3⟩ i ∧
      firstOpen t.inodes (UInt32.ofNat n) t.part.openInodes = .ok none ∧
        DirRun (.heap ⟨false, 2⟩) ⟨false, 3⟩ u (referenced u i) w taken ∧ P w := by
  obtain ⟨j, hj, hok⟩ := mkdirState_parent bits
  obtain ⟨r, t, hmake, rfl, hclosed, h⟩ := returns_iff.mp h
  obtain ⟨dir, u, hopen, rfl, hhandle, hsome, h⟩ := returns_iff.mp h
  obtain ⟨i, hi⟩ := Option.isSome_iff_exists.mp hsome
  obtain ⟨a, v, hput, rfl, h⟩ := returns_iff.mp h
  obtain ⟨b, w, hput', rfl, hP⟩ := returns_iff.mp h
  have hfirst : DirRun (.heap ⟨false, 2⟩) ⟨false, 3⟩ u (referenced u i) v _ :=
    DirRun.refl.tail (.sync (by decide) (by decide) hput)
  exact ⟨t, u, w, i, _, ⟨{ freshPart_mounted with }, ⟨.root, ⟨false, 0⟩, j, _, _, rfl, hj, hok, hmake⟩, hn, hopen,
    hhandle, hi⟩, hclosed, hfirst.tail (.sync (by decide) (by decide) hput'), hP⟩

set_option synthInstance.maxSize 4000 in
set_option synthInstance.maxHeartbeats 100000 in
/-- With inode 0 in use the new directory has number 1, and the two insertions go into its
first block. -/
theorem dirRun_accounted_two : ∃ t u w i i' taken,
    DirMade (mkdirState fun k => if k = 0 then 1 else 0) t u 1 (.heap ⟨false, 2⟩)
      ⟨false, 3⟩ i ∧
    firstOpen t.inodes 1 t.part.openInodes = .ok none ∧
    DirRun (.heap ⟨false, 2⟩) ⟨false, 3⟩ u (referenced u i) w taken ∧
    w.inodes ⟨false, 3⟩ = some i' ∧ Accounted w (.heap ⟨false, 2⟩) i' := by
  have hput : TwoPut (mkdirState fun k => if k = 0 then 1 else 0) 1 fun _ => True := by
    decide +kernel
  have hclear : (mkdirState fun k => if k = 0 then 1 else 0).part.inodeBitmap.FirstClear 1 :=
    ⟨by decide, by decide, by decide⟩
  obtain ⟨t, u, w, i, taken, hmade, hclosed, hrun, -⟩ := hput.run hclear
  obtain ⟨i', hi', hacc⟩ := dirRun_accounted hmade (by decide) hclosed hrun
  exact ⟨t, u, w, i, i', taken, hmade, hclosed, hrun, hi', hacc⟩

set_option synthInstance.maxSize 4000 in
set_option synthInstance.maxHeartbeats 100000 in
/-- With the inodes 0 to 255 in use the new directory has number 256, and `dir_open` reads an
empty inode.  After two insertions the directory counts as empty, with `f` and `g` in it. -/
theorem dirRun_unaccounted_256 : ∃ t u w i i' taken,
    DirMade (mkdirState fun k => if k < 32 then 0xff else 0) t u 256 (.heap ⟨false, 2⟩)
      ⟨false, 3⟩ i ∧
    firstOpen t.inodes 256 t.part.openInodes = .ok none ∧
    DirRun (.heap ⟨false, 2⟩) ⟨false, 3⟩ u (referenced u i) w taken ∧
    w.inodes ⟨false, 3⟩ = some i' ∧ ¬Accounted w (.heap ⟨false, 2⟩) i' := by
  have hput : TwoPut (mkdirState fun k => if k < 32 then 0xff else 0) 256 fun w =>
      Returns (dirIsEmpty (.heap ⟨false, 2⟩)) w fun r _ => r = true ∧
        (w.inodes ⟨false, 3⟩).any (fun i => LiveSlot w.disk i 0 0 ∧
          (entryIn w.disk i (0, 0)).name = [102]) = true := by
    decide +kernel
  have hclear : (mkdirState fun k => if k < 32 then 0xff else 0).part.inodeBitmap.FirstClear 256 :=
    ⟨by decide, by decide +kernel, by decide +kernel⟩
  obtain ⟨t, u, w, i, taken, hmade, hclosed, hrun, hempty⟩ := hput.run hclear
  obtain ⟨r, w', hempty, rfl, hlive⟩ := returns_iff.mp hempty
  obtain ⟨i', hi', hlive⟩ := (Option.any_eq_true _ _).mp hlive
  obtain ⟨hslot, hname⟩ := of_decide_eq_true hlive
  refine ⟨t, u, w, i, i', taken, hmade, hclosed, hrun, hi', fun hacc => ?_⟩
  rcases (hacc.entries w' hempty [102]).mp ⟨_, ⟨0, 0, hslot, rfl⟩, hname⟩ with h | h
  · exact absurd h (by decide)
  · exact absurd h (by decide)

end OsTruth
