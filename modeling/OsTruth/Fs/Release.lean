/-
What `inode_release` gives back.

`blockRelease` clears one bit of the block bitmap and writes a sector of it, so a
sequence of releases is described by the set of bits that it cleared.  `Freed` says that
and is composed along the function: the indirect table first, then the loop over the
blocks.
-/
import OsTruth.Fs.DirSlots
import OsTruth.Fs.DirOpen
import OsTruth.Fs.OneBlock

namespace OsTruth

open ByteString Fallible

/-! ## Blocks and their bits -/

/-- Bit `b` of the block bitmap is that of the block in sector `lba`. -/
def BitOf (part : Partition) (lba : UInt32) (b : Nat) : Prop :=
  b < 8 * part.blockBitmap.btmpBytesLen ∧ lba = blockAddr part b

/-- A data block other than block 0, which is the first block of the root directory. -/
def DataBlock (part : Partition) (lba : UInt32) : Prop :=
  Selectable lba 1 ∧ ∃ b, 0 < b ∧ BitOf part lba b

/-- The state after block `b` was given back and its bit written. -/
def State.giveBlock (s : State) (b : Nat) : State :=
  (s.setBlockBitmap (s.part.blockBitmap.set b false)).store
    (sectorOff s.part.sb.blockBitmapLba + 512 * (b / 4096)) 512
    (view (s.part.blockBitmap.set b false).bits (b / 4096))

/-- Between `s` and `t` the bits in `P` of the block bitmap were cleared, and what else
changed is on disk. -/
structure Freed (s t : State) (P : Nat → Prop) : Prop where
  state : t = { s with disk := t.disk, part := { s.part with blockBitmap := t.part.blockBitmap } }
  len : t.part.blockBitmap.btmpBytesLen = s.part.blockBitmap.btmpBytesLen
  bit : ∀ b, t.part.blockBitmap.bit b = true ↔ s.part.blockBitmap.bit b = true ∧ ¬P b

section

variable {s t u : State} {F : Fault → Prop} {P R : Nat → Prop} {lba idx : UInt32} {b c : Nat}

theorem BitOf.unique (hm : s.part.Mounted) (hb : BitOf s.part lba b) (hc : BitOf s.part lba c) :
    c = b :=
  blockAddr_inj hm hc.1 hb.1 (hc.2.symm.trans hb.2)

/-- The bit index that the code computes. -/
theorem BitOf.sub (hm : s.part.Mounted) (hb : BitOf s.part lba b) :
    (lba - s.part.sb.dataStartLba).toNat = b := by
  rw [hb.2]
  exact blockAddr_sub hm hb.1

namespace Freed

theorem refl (s : State) : Freed s s fun _ => False where
  state := rfl
  len := rfl
  bit b := by simp

theorem trans (h : Freed s t P) (h' : Freed t u R) : Freed s u fun b => P b ∨ R b where
  state := by
    rw [h'.state, h.state]
  len := h'.len.trans h.len
  bit b := by
    rw [h'.bit, h.bit]
    tauto

theorem congr (h : Freed s t P) (hiff : ∀ b, P b ↔ R b) : Freed s t R where
  state := h.state
  len := h.len
  bit b := by
    rw [h.bit, hiff]

theorem giveBlock (s : State) (b : Nat) : Freed s (s.giveBlock b) fun c => c = b where
  state := rfl
  len := rfl
  bit c := by
    show (s.part.blockBitmap.set b false).bit c = true ↔ _
    rw [Bitmap.bit_set]
    by_cases h : c = b
    · simp [h]
    · simp [h]

theorem sb (h : Freed s t P) : t.part.sb = s.part.sb := by
  rw [h.state]

theorem mounted (h : Freed s t P) (hm : s.part.Mounted) : t.part.Mounted := by
  have hlen := h.len
  have hpart : t.part = { s.part with blockBitmap := t.part.blockBitmap } :=
    congrArg State.part h.state
  rw [hpart]
  exact { hm with blockBitmapLen := hlen.trans hm.blockBitmapLen }

theorem bitOf (h : Freed s t P) : BitOf t.part lba b ↔ BitOf s.part lba b := by
  unfold BitOf blockAddr
  rw [h.len, h.sb]

theorem dataBlock (h : Freed s t P) (hb : DataBlock s.part lba) : DataBlock t.part lba :=
  ⟨hb.1, hb.2.imp fun _ hc => ⟨hc.1, h.bitOf.mpr hc.2⟩⟩

end Freed

theorem wp_blockRelease {Q : Unit → State → Prop} (hm : s.part.Mounted)
    (hb : idx.toNat < 8 * s.part.blockBitmap.btmpBytesLen) :
    Wp (blockRelease idx) s F Q ↔ Q () (s.giveBlock idx.toNat) := by
  have hm' : (s.setBlockBitmap (s.part.blockBitmap.set idx.toNat false)).part.Mounted :=
    hm.setBlockBit idx.toNat false
  unfold blockRelease
  rw [Wp.bind, wp_blockBitmapClear]
  have hb' : idx.toNat < 8 * (BitmapType.blockBitmap.bitmap
      (s.setBlockBitmap (s.part.blockBitmap.set idx.toNat false)).part).btmpBytesLen := hb
  have hsync := wp_bitmapSync (F := F) (Q := Q) hm' hb'
  constructor
  · exact fun h => hsync.mp (h.1 hb)
  · exact fun h => ⟨fun _ => hsync.mpr h, fun hge => absurd hb hge⟩

/-- One block, as `inode_release` and `delete_dir_entry` give it back. -/
theorem blockRelease_freed (hm : s.part.Mounted) (hblock : DataBlock s.part lba) :
    0 < lba - s.part.sb.dataStartLba ∧
      Returns (blockRelease (lba - s.part.sb.dataStartLba)) s
        fun _ t => Freed s t fun b => BitOf s.part lba b := by
  obtain ⟨-, b, hpos, hb⟩ := hblock
  have hidx := hb.sub hm
  constructor
  · rw [UInt32.lt_iff_toNat_lt, hidx]
    exact hpos
  · rw [Returns, wp_blockRelease hm (by rw [hidx]; exact hb.1), hidx]
    refine (Freed.giveBlock s b).congr fun c => ?_
    constructor
    · rintro rfl
      exact hb
    · exact hb.unique hm

/-- The loop gives back the blocks that it meets. -/
theorem releaseBlocks_freed (allBlocks : BlockArray) (left k : Nat) (hm : s.part.Mounted)
    (hblock : ∀ m, k ≤ m → m < k + left → allBlocks m ≠ 0 → DataBlock s.part (allBlocks m)) :
    Returns (releaseBlocks allBlocks left k) s fun _ t => Freed s t fun b =>
      ∃ m, k ≤ m ∧ m < k + left ∧ allBlocks m ≠ 0 ∧ BitOf s.part (allBlocks m) b := by
  induction left generalizing s k with
  | zero =>
      unfold releaseBlocks
      rw [Returns, Wp.pure]
      refine (Freed.refl s).congr fun b => ?_
      constructor
      · exact False.elim
      · rintro ⟨m, h₁, h₂, -⟩
        omega
  | succ left ih =>
      unfold releaseBlocks
      rw [Returns, Wp.bind, wp_when]
      constructor
      · intro hne
        obtain ⟨hpos, hfree⟩ := blockRelease_freed hm (hblock k (Nat.le_refl k) (by omega) hne)
        rw [Wp.bind, Wp.get, Wp.bind, wp_kassert]
        refine ⟨fun _ => hfree.call fun _ t ht => ?_, fun h => h hpos⟩
        refine (ih (k + 1) (ht.mounted hm) fun m h₁ h₂ hm' =>
          ht.dataBlock (hblock m (by omega) (by omega) hm')).call fun _ u hu => ?_
        refine (ht.trans hu).congr fun b => ?_
        simp only [ht.bitOf]
        constructor
        · rintro (hb | ⟨m, h₁, h₂, hm', hb⟩)
          · exact ⟨k, Nat.le_refl k, by omega, hne, hb⟩
          · exact ⟨m, by omega, by omega, hm', hb⟩
        · rintro ⟨m, h₁, h₂, hm', hb⟩
          by_cases h : m = k
          · exact Or.inl (h ▸ hb)
          · exact Or.inr ⟨m, by omega, by omega, hm', hb⟩
      · intro hzero
        refine (ih (k + 1) hm fun m h₁ h₂ hm' => hblock m (by omega) (by omega) hm').call
          fun _ t ht => ht.congr fun b => ?_
        constructor
        · rintro ⟨m, h₁, h₂, hm', hb⟩
          exact ⟨m, by omega, by omega, hm', hb⟩
        · rintro ⟨m, h₁, h₂, hm', hb⟩
          have hne : m ≠ k := fun h => hzero (h ▸ hm')
          exact ⟨m, by omega, by omega, hm', hb⟩

end

/-! ## The inode -/

/-- In `t` the inode `i` is open once more than in `s`, as `p`, and closing it brings
the open inodes of `s` back. -/
structure OpenedOnce (s : State) (i : Inode) (p : Ptr) (t : State) : Prop where
  inode : ∃ j, t.inodes p = some j ∧ j.iNo = i.iNo ∧ j.iSectors = i.iSectors
  state : t = { s with
    inodes := t.inodes, next := t.next, supply := t.supply,
    part := { s.part with openInodes := t.part.openInodes } }
  close : ∀ u : State, u.inodes = t.inodes → u.part.openInodes = t.part.openInodes →
    Returns (inodeClose p) u fun _ v => v = { u with
      inodes := s.inodes, part := { u.part with openInodes := s.part.openInodes } }

section

variable {s t u : State} {n : UInt32} {i : Inode} {p : Ptr}

/-- Closing what was open already. -/
theorem openedOnce_reopened (hp : s.inodes p = some i) (hcnt : i.iOpenCnts ≠ 0) :
    OpenedOnce s i p (s.reopened p i) where
  inode := ⟨{ i with iOpenCnts := i.iOpenCnts + 1 }, if_pos rfl, rfl, rfl⟩
  state := rfl
  close u hinodes hopen := by
    have hone : i.iOpenCnts + 1 ≠ 1 := fun h => hcnt (Nat.succ.inj h)
    have hdec : decOpenCnts (i.iOpenCnts + 1) = i.iOpenCnts := if_neg (Nat.succ_ne_zero _)
    have hpu : u.inodes p = some { i with iOpenCnts := i.iOpenCnts + 1 } := by
      rw [hinodes]
      exact if_pos rfl
    rw [Returns, wp_inodeClose hpu]
    refine ⟨fun _ => ?_, fun h => absurd h hone⟩
    have hback : (u.putInode p (some i)).inodes = s.inodes := by
      funext q
      show (if q = p then _ else u.inodes q) = _
      by_cases hq : q = p
      · rw [if_pos hq, hq, hp]
      · rw [if_neg hq, hinodes]
        exact if_neg hq
    have hopen' : u.part.openInodes = s.part.openInodes := hopen
    rw [hdec, ← hopen', ← hback]
    rfl

/-- Closing what was read from disk. -/
theorem openedOnce_loaded (hnone : s.inodes ⟨false, s.next⟩ = none) :
    OpenedOnce s (readSlot s.part s.disk n) ⟨false, s.next⟩ (s.loaded n) where
  inode := ⟨{ readSlot s.part s.disk n with iOpenCnts := 1 }, if_pos rfl, rfl, rfl⟩
  state := rfl
  close u hinodes hopen := by
    have hpu : u.inodes ⟨false, s.next⟩ = some { readSlot s.part s.disk n with iOpenCnts := 1 } := by
      rw [hinodes]
      exact if_pos rfl
    rw [Returns, wp_inodeClose hpu]
    refine ⟨fun h => absurd rfl h, fun _ => ⟨fun _ => ?_, Bool.noConfusion⟩⟩
    have hback : (u.dropped ⟨false, s.next⟩).inodes = s.inodes := by
      funext q
      show (if q = ⟨false, s.next⟩ then none else u.inodes q) = _
      by_cases hq : q = ⟨false, s.next⟩
      · rw [if_pos hq, hq, hnone]
      · rw [if_neg hq, hinodes]
        exact if_neg hq
    have hlist : (u.dropped ⟨false, s.next⟩).part.openInodes = s.part.openInodes := by
      show u.part.openInodes.erase _ = _
      rw [hopen]
      exact List.erase_cons_head _ _
    rw [← hback, ← hlist]
    rfl

/-- `inode_open`, with the memory that is left. -/
theorem inodeOpen_once (hm : s.part.Mounted) (hn : n < 4096)
    (hopen : ∀ p, p ∈ s.part.openInodes → ∃ i, s.inodes p = some i ∧ i.iOpenCnts ≠ 0)
    (hfresh : s.inodes ⟨false, s.next⟩ = none) (hmem : s.Granted 0 (s.requests n))
    (hi : s.inodeNamed n = some i) :
    Returns (inodeOpen n) s fun p t => OpenedOnce s i p t ∧ t.supply 0 = true := by
  obtain ⟨r, hfirst⟩ := firstOpen_ok n (l := s.part.openInodes) fun p hp =>
    (hopen p hp).imp fun _ h => h.1
  rw [State.inodeNamed, hfirst] at hi
  rw [State.requests, hfirst] at hmem
  cases r with
  | some p =>
      have hp : s.inodes p = some i := hi
      obtain ⟨i', hi', hcnt⟩ := hopen p (firstOpen_some hfirst).1
      rw [hp, Option.some.injEq] at hi'
      rw [← hi'] at hcnt
      exact (inodeOpen_again hfirst hp).mpr ⟨openedOnce_reopened hp hcnt, granted_one.mp hmem⟩
  | none =>
      have hslot : readSlot s.part s.disk n = i := Option.some.inj hi
      obtain ⟨h0, h1, h2⟩ := granted_three.mp hmem
      rw [← hslot]
      exact (inodeOpen_first hm hn hfirst).mpr ⟨h0, h1, openedOnce_loaded hfresh, h2⟩

end

/-! ## The whole call -/

/-- What `inode_release` does to the bitmaps and to the open inodes. -/
structure InodeReleased (s t : State) (n : UInt32) (i : Inode) : Prop where
  blocks : ∀ b, t.part.blockBitmap.bit b = true ↔
    s.part.blockBitmap.bit b = true ∧ ¬∃ lba, References s.disk i lba ∧ BitOf s.part lba b
  own : ∀ m, t.part.inodeBitmap.bit m =
    if m = n.toNat then false else s.part.inodeBitmap.bit m
  openInodes : t.part.openInodes = s.part.openInodes
  inodes : t.inodes = s.inodes

section

variable {s t : State} {n : UInt32} {i j : Inode} {b : Nat}

/-- The table and the blocks that the loop runs over are the blocks of the inode. -/
theorem references_bitOf (part : Partition) (disk : Bytes) (i : Inode) (b : Nat) :
    (i.sector 12 ≠ 0 ∧ BitOf part (i.sector 12) b) ∨
        (∃ m, 0 ≤ m ∧ m < 0 + (if i.sector 12 ≠ 0 then 140 else 12) ∧
          allBlocksOf disk i m ≠ 0 ∧ BitOf part (allBlocksOf disk i m) b) ↔
      ∃ lba, References disk i lba ∧ BitOf part lba b := by
  constructor
  · rintro (⟨hne, hb⟩ | ⟨m, -, hlt, hne, hb⟩)
    · exact ⟨_, ⟨hne, Or.inl rfl⟩, hb⟩
    · refine ⟨_, ⟨hne, Or.inr ⟨m, ?_, rfl⟩⟩, hb⟩
      split at hlt <;> omega
  · rintro ⟨lba, ⟨hne, rfl | ⟨m, hm, rfl⟩⟩, hb⟩
    · exact Or.inl ⟨hne, hb⟩
    · refine Or.inr ⟨m, Nat.zero_le m, ?_, hne, hb⟩
      by_cases htable : i.sector 12 = 0
      · have hlow : m < 12 := by
          by_contra hge
          exact hne (allBlocksOf_no_table disk (by omega) htable)
        rw [if_neg (by simp [htable])]
        omega
      · rw [if_pos htable]
        omega

theorem deleteClose_returns (hm : s.part.Mounted) (hn : n < 4096) (hmem : s.supply 0 = true) {p : Ptr}
    {Q : Unit → State → Prop}
    (hclose : ∀ u : State, u.inodes = s.inodes → u.part = s.part → Returns (inodeClose p) u Q) :
    Returns (deleteClose n p) s Q := by
  have hm₁ : s.withBuf.part.Mounted := hm
  rw [Returns, deleteClose, Wp.bind, wp_sysMallocBuf]
  refine ⟨fun _ => ?_, fun hnone => Bool.noConfusion (hmem.symm.trans hnone)⟩
  show Wp (inodeDelete n (.zero 1024) >>= _) s.withBuf _ _
  rw [Wp.bind, wp_inodeDelete hm₁ hn (by decide), Wp.bind,
    wp_sysFreeBuf_live rfl List.mem_cons_self]
  exact hclose _ rfl rfl

theorem releaseEnd_returns (hm : s.part.Mounted) (hn : n < 4096) (hmem : s.supply 0 = true) {p : Ptr}
    {Q : Unit → State → Prop}
    (hclose : ∀ u : State, u.inodes = s.inodes →
      u.part = { s.part with inodeBitmap := s.part.inodeBitmap.set n.toNat false } →
        Returns (inodeClose p) u Q) :
    Returns (releaseEnd n p) s Q := by
  have hn' : n.toNat < 4096 := hn
  have hbit : n.toNat < 8 * s.part.inodeBitmap.btmpBytesLen := by
    rw [hm.inodeBitmapLen]
    omega
  have hm₁ : (s.setInodeBitmap (s.part.inodeBitmap.set n.toNat false)).part.Mounted := { hm with }
  have hbit₁ : n.toNat < 8 * (BitmapType.inodeBitmap.bitmap
      (s.setInodeBitmap (s.part.inodeBitmap.set n.toNat false)).part).btmpBytesLen := hbit
  rw [Returns, releaseEnd, Wp.bind, wp_inodeBitmapClear]
  refine ⟨fun _ => ?_, fun hge => absurd hbit hge⟩
  rw [Wp.bind, wp_bitmapSync hm₁ hbit₁]
  refine deleteClose_returns ?_ hn ?_ ?_
  · exact hm₁
  · exact hmem
  · exact hclose

/-- `inode_release` gives back the blocks of the inode, its indirect table and its
number, and nothing else. -/
theorem inodeRelease_frees (hm : s.part.Mounted) (hn : n < 4096)
    (hopen : ∀ p, p ∈ s.part.openInodes → ∃ i, s.inodes p = some i ∧ i.iOpenCnts ≠ 0)
    (hfresh : s.inodes ⟨false, s.next⟩ = none) (hmem : s.Granted 0 (s.requests n))
    (hi : s.inodeNamed n = some i) (hno : i.iNo = n)
    (hblocks : ∀ lba, References s.disk i lba → DataBlock s.part lba) :
    Returns (inodeRelease n) s fun _ t => InodeReleased s t n i := by
  unfold inodeRelease
  rw [Returns, Wp.bind]
  refine (inodeOpen_once hm hn hopen hfresh hmem hi).call fun p s₁ h₁ => ?_
  obtain ⟨hp, hmem₁⟩ := h₁
  obtain ⟨j, hj, hjno, hsectors⟩ := hp.inode
  have hsector : ∀ k, j.sector k = i.sector k := by
    intro k
    rw [Inode.sector, Inode.sector, hsectors]
  have hdisk : s₁.disk = s.disk := by rw [hp.state]
  have hall : allBlocksOf s₁.disk j = allBlocksOf s.disk i := by
    funext k
    rw [hdisk]
    exact allBlocksOf_congr (fun _ => hsector k) (hsector 12) fun _ _ _ => rfl
  have hpart : s₁.part = { s.part with openInodes := s₁.part.openInodes } :=
    congrArg State.part hp.state
  have hm₁ : s₁.part.Mounted := by
    rw [hpart]
    exact { hm with }
  have hbitOf : ∀ lba b, BitOf s₁.part lba b ↔ BitOf s.part lba b := by
    intro lba b
    rw [hpart]
    exact Iff.rfl
  have hdata : ∀ lba, DataBlock s.part lba → DataBlock s₁.part lba := by
    intro lba h
    rw [hpart]
    exact h
  rw [Wp.bind, wp_loadInode_some hj, Wp.bind, wp_kassert]
  refine ⟨fun _ => ?_, fun h => h (hjno.trans hno)⟩
  rw [Wp.bind, wp_collectBlocks, hall, hsector]
  refine ⟨fun _ => ?_, fun hne hsel => hsel (hblocks _ ⟨hne, Or.inl rfl⟩).1⟩
  have hrelease : releaseTable j = releaseTable i := by
    unfold releaseTable
    rw [hsector]
  -- the indirect table
  have htable : Returns (releaseTable i) s₁ fun _ t =>
        Freed s₁ t fun b => i.sector 12 ≠ 0 ∧ BitOf s₁.part (i.sector 12) b := by
    rw [Returns, releaseTable, wp_when]
    constructor
    · intro hne
      obtain ⟨hpos, hfree⟩ :=
        blockRelease_freed hm₁ (hdata _ (hblocks _ ⟨hne, Or.inl rfl⟩))
      rw [Wp.bind, Wp.get, Wp.bind, wp_kassert]
      refine ⟨fun _ => hfree.call fun _ t ht => ht.congr fun b => ?_, fun h => h hpos⟩
      exact (and_iff_right hne).symm
    · intro hzero
      exact (Freed.refl s₁).congr fun b => ⟨False.elim, fun h => hzero h.1⟩
  rw [hrelease, Wp.bind]
  refine htable.call fun _ s₂ h₂ => ?_
  -- the blocks
  have hloop := releaseBlocks_freed (allBlocksOf s.disk i) (if i.sector 12 ≠ 0 then 140 else 12) 0
    (h₂.mounted hm₁) fun m _ hlt hne => by
      refine h₂.dataBlock (hdata _ (hblocks _ ⟨hne, Or.inr ⟨m, ?_, rfl⟩⟩))
      split at hlt <;> omega
  rw [Wp.bind]
  refine hloop.call fun _ s₃ h₃ => ?_
  have hfreed : Freed s₁ s₃ fun b => ∃ lba, References s.disk i lba ∧ BitOf s.part lba b := by
    refine (h₂.trans h₃).congr fun b => ?_
    simp only [h₂.bitOf, hbitOf]
    exact references_bitOf s.part s.disk i b
  have hmem₃ : s₃.supply 0 = true := by
    rw [hfreed.state]
    exact hmem₁
  refine releaseEnd_returns (hfreed.mounted hm₁) hn hmem₃ fun u hinodes hu => ?_
  have hinodes₁ : u.inodes = s₁.inodes := by rw [hinodes, hfreed.state]
  have hopenInodes : u.part.openInodes = s₁.part.openInodes := by rw [hu, hfreed.state]
  refine (hp.close u hinodes₁ hopenInodes).call fun _ v hv => ?_
  rw [hv]
  refine ⟨fun b => ?_, fun m => ?_, rfl, rfl⟩
  · show u.part.blockBitmap.bit b = true ↔ _
    rw [hu, hfreed.bit, hpart]
  · show u.part.inodeBitmap.bit m = _
    rw [hu, Bitmap.bit_set, hfreed.state, hpart]

def subInode : Inode := readSlot freshPart subDisk 1

/-- Releasing the directory `/d`, which has one block. -/
theorem inodeRelease_frees_sub :
    Returns (inodeRelease 1) subState fun _ t => InodeReleased subState t 1 subInode := by
  have hnamed : subState.inodeNamed 1 = some subInode := rfl
  refine inodeRelease_frees freshPart_mounted (by decide) ?_ rfl (fun _ _ => rfl) hnamed
    (by decide +kernel) ?_
  · intro p hp
    rw [List.mem_singleton.mp hp]
    exact ⟨_, rfl, Nat.one_ne_zero⟩
  · rintro lba ⟨hne, hlba⟩
    have hsub : lba = subLba := by
      rcases hlba with rfl | ⟨k, -, rfl⟩
      · obtain ⟨i, hi, -, hsector⟩ := subState_sub.inode
        rw [hnamed, Option.some.injEq] at hi
        rw [hi, hsector] at hne
        exact absurd rfl hne
      · rw [subState_sub.blocks hnamed] at hne ⊢
        by_cases hk : k = 0
        · exact if_pos hk
        · exact absurd (if_neg hk) hne
    rw [hsub]
    exact ⟨selectable_one.mpr (by decide), 1, by decide, by decide, rfl⟩

end

end OsTruth
