/-
What `file_read` stores and returns.

A read inside one block is right.  A read that ends on a block boundary copies from
sector 0 of the disk, since the block it starts in is never entered in `all_blocks`.
A longer read leaves a gap behind its first chunk, since `buf_dst` moves by four
bytes for each byte copied.
-/
import OsTruth.Fs.FileWrite

namespace OsTruth

open ByteString Fallible

/-- Every block that holds a byte of the file is mapped to a sector of the disk, and so
is the indirect table when such a block is behind the direct ones. -/
def BlocksMapped (disk : Bytes) (i : Inode) : Prop :=
  ∀ k, 512 * k < i.iSize.toNat → k < 140 ∧
    blockLba disk i k ≠ 0 ∧ blockLba disk i k ≤ maxLba ∧
      (12 ≤ k → i.sector 12 ≠ 0 ∧ i.sector 12 ≤ maxLba)

/-- How many bytes a read is to deliver. -/
def readLength (i : Inode) (fdPos count : UInt32) : Nat :=
  min count.toNat (i.iSize.toNat - fdPos.toNat)

/-- What a read of `n` bytes at `fdPos` is to do: `r` is the result with the stores that
were made. -/
def ReadDone (s t : State) (fdIdx : Nat) (i : Inode) (fdPos : UInt32) (n : Nat)
    (r : UInt32 × Stores) : Prop :=
  if n = 0 then r = (-1, fun _ => none) ∧ t = s
  else r.1.toNat = n ∧
    (∀ k, k < n → r.2 k = some (fileByte s.disk i (fdPos.toNat + k))) ∧
    (∀ k, n ≤ k → r.2 k = none) ∧
    (t.fileTable fdIdx).fdPos.toNat = fdPos.toNat + n

/-- When `file_read` does it: nothing is to be read, or there is memory for both buffers
and the read stays inside one block, or it ends on a block boundary and sector 0 of
the disk holds the bytes that are to be read. -/
def ReadsRight (s : State) (i : Inode) (fdPos : UInt32) (n : Nat) : Prop :=
  n = 0 ∨ (s.supply 0 = true ∧ s.supply 1 = true ∧
    ((fdPos.toNat % 512 + n < 512 ∧ fdPos.toNat / 512 < 139) ∨
      (fdPos.toNat % 512 + n = 512 ∧ fdPos.toNat / 512 < 138 ∧
        ∀ k, k < n → s.disk (fdPos.toNat % 512 + k) = fileByte s.disk i (fdPos.toNat + k))))

/-! ## The copy loop -/

/-- Stores are only made at and behind `buf_dst`. -/
theorem readLoop_below (fdIdx : Nat) (allBlocks : BlockArray) (size : UInt32) :
    ∀ (left bufDst : Nat) (bytesRead sizeLeft : UInt32) (out : Stores) (s : State),
      Ensures (readLoop fdIdx allBlocks size left bufDst bytesRead sizeLeft out) s
        (fun r _ => ∀ k, k < bufDst → r.2 k = out k) := by
  intro left
  induction left with
  | zero =>
      intro bufDst bytesRead sizeLeft out s
      exact True.intro
  | succ left ih =>
      intro bufDst bytesRead sizeLeft out s
      rw [readLoop]
      simp only [Ensures, Wp.ite, Wp.bind, Wp.get, wp_undefined, wp_ideRead, Wp.modify, Wp.pure,
        implies_true, and_true, true_and]
      intro _ _ _ _
      refine (ih ..).call fun r t hr k hk => ?_
      rw [hr k (by omega)]
      exact if_neg (by omega)

section

variable {s : State} {fdIdx : Nat} {size fdPos : UInt32} {allBlocks : BlockArray}

/-- The chunk of the first round. -/
theorem firstChunk (hsize : fdPos.toNat % 512 + size.toNat ≤ 512) :
    (if size < 512 - fdPos % 512 then size else 512 - fdPos % 512) = size := by
  have hmod : (fdPos % 512).toNat = fdPos.toNat % 512 := by
    rw [UInt32.toNat_mod]
    rfl
  have hleft : (512 - fdPos % 512).toNat = 512 - fdPos.toNat % 512 := by
    rw [UInt32.toNat_sub_of_le, hmod]
    · rfl
    · rw [UInt32.le_iff_toNat_le, hmod]
      show _ ≤ 512
      omega
  by_cases h : size < 512 - fdPos % 512
  · rw [if_pos h]
  · rw [if_neg h]
    rw [UInt32.lt_iff_toNat_lt, hleft] at h
    apply UInt32.toNat_inj.mp
    omega

def chunkStores (disk : Bytes) (lba : UInt32) (off n : Nat) : Stores := fun k =>
  if k < n then some (disk (sectorOff lba + off + k)) else none

/-- A read that ends in the block where it starts, or at the end of that block, takes one
round. -/
theorem wp_readLoop_one {F : Fault → Prop} {Q : UInt32 × Stores → State → Prop}
    (hpos : 0 < size) (hfd : (s.fileTable fdIdx).fdPos = fdPos)
    (hsize : fdPos.toNat % 512 + size.toNat ≤ 512) (hblock : fdPos.toNat / 512 < 140)
    (hsel : Selectable (allBlocks (fdPos.toNat / 512)) 1) :
    Wp (readLoop fdIdx allBlocks size 141 0 0 size (fun _ => none)) s F Q ↔
      Q (size, chunkStores s.disk (allBlocks (fdPos.toNat / 512)) (fdPos.toNat % 512) size.toNat)
        (s.advance fdIdx size) := by
  have hdiv : (fdPos / 512).toNat = fdPos.toNat / 512 := by
    rw [UInt32.toNat_div]
    rfl
  have hmod : (fdPos % 512).toNat = fdPos.toNat % 512 := by
    rw [UInt32.toNat_mod]
    rfl
  have hstores : Stores.put (fun _ => none) 0 size.toNat
      (view (splice (Buf.zero 512).data 0 (512 * 1)
        (view s.disk (sectorOff (allBlocks (fdPos.toNat / 512))))) (fdPos.toNat % 512)) =
        chunkStores s.disk (allBlocks (fdPos.toNat / 512)) (fdPos.toNat % 512) size.toNat := by
    funext k
    unfold Stores.put chunkStores
    by_cases hk : k < size.toNat
    · rw [if_pos ⟨Nat.zero_le k, by omega⟩, if_pos hk, view, Nat.sub_zero,
        splice_inside (Nat.zero_le _) (by omega), Nat.sub_zero, view, Nat.add_assoc]
    · rw [if_neg (by omega), if_neg hk]
  rw [readLoop, if_pos hpos]
  simp only [Wp.bind, Wp.get, hfd, Wp.ite, wp_undefined, wp_ideRead, Wp.modify, hdiv, hmod,
    firstChunk hsize, hstores, hsel, UInt32.zero_add]
  rw [readLoop, if_neg (UInt32.lt_irrefl size), Wp.pure]
  have hlt : ¬140 ≤ fdPos.toNat / 512 := by omega
  simp [hlt, Buf.zero]

/-- A read that goes on behind the block where it starts leaves the byte behind its first
chunk unwritten. -/
theorem readLoop_gap (hfd : (s.fileTable fdIdx).fdPos = fdPos)
    (hsize : 512 < fdPos.toNat % 512 + size.toNat) :
    Ensures (readLoop fdIdx allBlocks size 141 0 0 size (fun _ => none)) s
      (fun r _ => r.2 (512 - fdPos.toNat % 512) = none) := by
  have hmod : (fdPos % 512).toNat = fdPos.toNat % 512 := by
    rw [UInt32.toNat_mod]
    rfl
  have hleft : (512 - fdPos % 512).toNat = 512 - fdPos.toNat % 512 := by
    rw [UInt32.toNat_sub_of_le, hmod]
    · rfl
    · rw [UInt32.le_iff_toNat_le, hmod]
      show _ ≤ 512
      omega
  have hchunk : (if size < 512 - fdPos % 512 then size else 512 - fdPos % 512) =
      512 - fdPos % 512 := by
    refine if_neg ?_
    rw [UInt32.lt_iff_toNat_lt, hleft]
    omega
  rw [readLoop]
  simp only [Ensures, Wp.ite, Wp.bind, Wp.get, hfd, wp_undefined, wp_ideRead, Wp.modify, Wp.pure,
    hchunk, hleft, implies_true, and_true, true_and]
  intro _ _ _ _
  refine (readLoop_below ..).call fun r t hr => ?_
  rw [hr _ (by omega)]
  exact if_neg (by omega)

end

/-! ## The blocks of a read -/

section

variable {s : State} {i : Inode} {b : Nat}

/-- A read inside block `b` finds that block. -/
theorem gatherRead_same (hmap : BlocksMapped s.disk i) (hb : 512 * b < i.iSize.toNat) :
    ∃ allBlocks : BlockArray, allBlocks b = blockLba s.disk i b ∧
      ∀ (F : Fault → Prop) (Q : BlockArray → State → Prop),
        Wp (gatherRead i b b) s F Q ↔ Q allBlocks s := by
  obtain ⟨-, -, -, htable⟩ := hmap b hb
  by_cases hdirect : b < 12
  · refine ⟨noBlocks.set b (i.sector b), ?_, fun F Q => ?_⟩
    · unfold BlockArray.set blockLba
      rw [if_pos rfl, if_pos hdirect]
    · rw [gatherRead, if_pos rfl, if_pos hdirect, Wp.pure]
  · obtain ⟨-, hle⟩ := htable (by omega)
    have hsel : Selectable (i.sector 12) 1 := selectable_one.mpr hle
    refine ⟨withTable s.disk (i.sector 12) noBlocks, ?_, fun F Q => ?_⟩
    · have hk := (hmap b hb).1
      rw [withTable, if_pos ⟨by omega, hk⟩, blockLba, if_neg hdirect]
    · rw [gatherRead, if_pos rfl, if_neg hdirect, wp_ideReadTable]
      simp [hsel]

/-- A read from block `b` to block `b + 1` does not find block `b`. -/
theorem gatherRead_next :
    ∃ allBlocks : BlockArray, allBlocks b = 0 ∧
      ∀ (F : Fault → Prop) (Q : BlockArray → State → Prop),
        Wp (gatherRead i b (b + 1)) s F Q ↔ Q allBlocks s := by
  have hne : b ≠ b + 1 := by omega
  by_cases hdirect : b + 1 < 12
  · refine ⟨copySectors i.sector (b + 1 + 1 - (b + 1)) (b + 1) noBlocks, ?_, fun F Q => ?_⟩
    · have hone : b + 1 + 1 - (b + 1) = 1 := by omega
      rw [hone]
      exact if_neg hne
    · rw [gatherRead, if_neg hne, if_pos hdirect, Wp.pure]
  · have hmixed : ¬(b < 12 ∧ b + 1 > 12) := by omega
    refine ⟨noBlocks, rfl, fun F Q => ?_⟩
    rw [gatherRead, if_neg hne, if_neg hdirect, if_neg hmixed, Wp.pure]

end

/-! ## The whole read -/

section

variable {s : State} {fdIdx : Nat} {p ioBuf allBlocksPtr : Ptr} {i : Inode}
  {fdPos size count : UInt32}

/-- Both buffers of the running task are blocks in use. -/
structure BuffersLive (s : State) (ioBuf allBlocksPtr : Ptr) : Prop where
  ioUser : ioBuf.user = s.cur.pgdir
  allUser : allBlocksPtr.user = s.cur.pgdir
  bufs : ∃ rest, s.bufs = allBlocksPtr :: ioBuf :: rest

theorem wp_freeBuffers_live {F : Fault → Prop} {Q : UInt32 × Stores → State → Prop}
    {r : UInt32 × Stores} (hlive : BuffersLive s ioBuf allBlocksPtr) :
    ∃ t : State, t.fileTable = s.fileTable ∧
      (Wp (freeBuffers allBlocksPtr ioBuf r) s F Q ↔ Q r t) := by
  obtain ⟨rest, hbufs⟩ := hlive.bufs
  refine ⟨{ s with bufs := rest }, rfl, ?_⟩
  have herase : s.bufs.erase allBlocksPtr = ioBuf :: rest := by
    rw [hbufs, List.erase_cons_head]
  have hlast : (ioBuf :: rest).erase ioBuf = rest := List.erase_cons_head ..
  rw [freeBuffers, Wp.bind, wp_sysFreeBuf_live hlive.allUser (by simp [hbufs]), herase, Wp.bind,
    wp_sysFreeBuf_live (s := { s with bufs := ioBuf :: rest }) hlive.ioUser
      (List.mem_cons_self ..), Wp.pure]
  dsimp only
  rw [hlast]

/-- The read in one round, after both buffers were allocated. -/
theorem wp_readBody_one {F : Fault → Prop} {Q : UInt32 × Stores → State → Prop}
    {allBlocks : BlockArray} (hlive : BuffersLive s ioBuf allBlocksPtr)
    (hpos : 0 < size) (hfd : (s.fileTable fdIdx).fdPos = fdPos)
    (hsize : fdPos.toNat % 512 + size.toNat ≤ 512)
    (hblock : (fdPos / 512).toNat < 139 ∧ ((fdPos + size) / 512).toNat < 139)
    (hsel : Selectable (allBlocks (fdPos.toNat / 512)) 1)
    (hgather : ∀ (F : Fault → Prop) (Q : BlockArray → State → Prop),
      Wp (gatherRead i (fdPos / 512).toNat ((fdPos + size) / 512).toNat) s F Q ↔
        Q allBlocks s) :
    ∃ t : State, (t.fileTable fdIdx).fdPos = fdPos + size ∧
      (Wp (readBody i fdIdx fdPos size (some ioBuf) allBlocksPtr) s F Q ↔
        Q (size, chunkStores s.disk (allBlocks (fdPos.toNat / 512)) (fdPos.toNat % 512)
          size.toNat) t) := by
  have hlt : fdPos.toNat / 512 < 140 := by
    have h := hblock.1
    rw [UInt32.toNat_div] at h
    exact Nat.lt_succ_of_lt h
  have hlive' : BuffersLive (s.advance fdIdx size) ioBuf allBlocksPtr :=
    ⟨hlive.ioUser, hlive.allUser, hlive.bufs⟩
  obtain ⟨t, ht, hwp⟩ := wp_freeBuffers_live (F := F) (Q := Q) (r := (size, chunkStores s.disk
    (allBlocks (fdPos.toNat / 512)) (fdPos.toNat % 512) size.toNat)) hlive'
  refine ⟨t, ?_, ?_⟩
  · rw [ht, ← hfd]
    unfold State.advance State.setFile
    simp
  · unfold readBody
    simp only [Wp.bind, wp_kassert, hgather, hblock, wp_readLoop_one hpos hfd hsize hlt hsel]
    simp [hwp]

/-- `file_read` up to the point where the buffers are allocated. -/
theorem wp_fileRead {F : Fault → Prop} {Q : UInt32 × Stores → State → Prop}
    (hp : (s.fileTable fdIdx).fdInode = some p) (hi : s.inodes p = some i)
    (hfd : (s.fileTable fdIdx).fdPos = fdPos) (hsize : readSize fdPos i.iSize count = size) :
    Wp (fileRead fdIdx count) s F Q ↔
      (fdPos + count > i.iSize ∧ size = 0 → Q (-1, fun _ => none) s) ∧
        (¬(fdPos + count > i.iSize ∧ size = 0) →
          Wp (readBuffers i fdIdx fdPos size) s F Q) := by
  unfold fileRead fileInode
  simp only [Wp.bind, Wp.get, hp, Wp.pure, wp_loadInode, hi, Option.some.injEq, reduceCtorEq,
    false_implies, and_true, forall_eq', hfd, hsize, Wp.ite]

/-- With memory for both buffers the rest is `readBody`. -/
theorem wp_buffers {F : Fault → Prop} {Q : UInt32 × Stores → State → Prop}
    (h₀ : s.supply 0 = true) (h₁ : s.supply 1 = true) :
    Wp (readBuffers i fdIdx fdPos size) s F Q ↔
      Wp (readBody i fdIdx fdPos size (some s.fresh) s.withBuf.fresh) s.withBuf.withBuf F Q := by
  have h₁' : s.withBuf.supply 0 = true := h₁
  unfold readBuffers
  simp only [Wp.bind, wp_sysMallocBuf, h₀, h₁', true_implies, Bool.true_eq_false, false_implies,
    and_true]

/-- Without memory for one of the buffers `-1` is returned, or an assertion fails. -/
theorem noBuffers_result (h : ¬(s.supply 0 = true ∧ s.supply 1 = true)) :
    Ensures (readBuffers i fdIdx fdPos size) s (fun r _ => r.1 = -1) := by
  have hshift : s.withBuf.supply 0 = s.supply 1 := rfl
  unfold readBuffers
  simp only [Ensures, Wp.bind, wp_sysMallocBuf, Wp.pure]
  refine ⟨fun h₀ => ⟨fun h₁ => absurd ⟨h₀, hshift ▸ h₁⟩ h, fun _ => True.intro⟩, fun h₀ =>
    ⟨fun h₁ => ?_, fun _ => True.intro⟩⟩
  unfold readBody
  simp only [Wp.bind, wp_kassert, implies_true, and_true]
  intro _
  refine Wp.trivial.call fun _ _ _ => ?_
  exact True.intro

theorem buffersLive_withBuf : BuffersLive s.withBuf.withBuf s.fresh s.withBuf.fresh :=
  ⟨rfl, rfl, s.bufs, rfl⟩

/-- `size` in `file_read` is the number of bytes to deliver. -/
theorem toNat_readSize (hle : fdPos ≤ i.iSize) (hwrap : fdPos.toNat + count.toNat < 2 ^ 32) :
    (readSize fdPos i.iSize count).toNat = readLength i fdPos count ∧
      (fdPos + count > i.iSize ↔ i.iSize.toNat < fdPos.toNat + count.toNat) := by
  have hsum : (fdPos + count).toNat = fdPos.toNat + count.toNat := by
    rw [UInt32.toNat_add, Nat.mod_eq_of_lt hwrap]
  have hgt : fdPos + count > i.iSize ↔ i.iSize.toNat < fdPos.toNat + count.toNat := by
    rw [gt_iff_lt, UInt32.lt_iff_toNat_lt, hsum]
  have hle' : fdPos.toNat ≤ i.iSize.toNat := hle
  refine ⟨?_, hgt⟩
  unfold readSize readLength
  by_cases h : fdPos + count > i.iSize
  · rw [if_pos h, UInt32.toNat_sub_of_le _ _ hle]
    have h' := hgt.mp h
    omega
  · rw [if_neg h]
    have h' := mt hgt.mpr h
    omega

/-! ## When a read is right -/

/-- One chunk delivers the read exactly when it holds the bytes of the file. -/
theorem readDone_chunk_iff {t : State} {lba : UInt32} {off n : Nat} (hn : n ≠ 0)
    (hsize : size.toNat = n) (hend : fdPos.toNat + n < 2 ^ 32)
    (ht : (t.fileTable fdIdx).fdPos = fdPos + size) :
    ReadDone s t fdIdx i fdPos n (size, chunkStores s.disk lba off size.toNat) ↔
      ∀ k, k < n → s.disk (sectorOff lba + off + k) = fileByte s.disk i (fdPos.toNat + k) := by
  have hpos : (t.fileTable fdIdx).fdPos.toNat = fdPos.toNat + n := by
    rw [ht, UInt32.toNat_add, hsize, Nat.mod_eq_of_lt hend]
  unfold ReadDone chunkStores
  rw [if_neg hn, hsize]
  constructor
  · intro h k hk
    have hbyte := h.2.1 k hk
    dsimp only at hbyte
    rw [if_pos hk] at hbyte
    exact Option.some.inj hbyte
  · intro h
    refine ⟨rfl, fun k hk => ?_, fun k hk => if_neg (Nat.not_lt.mpr hk), hpos⟩
    dsimp only
    rw [if_pos hk, h k hk]

/-- The bytes of block `b` from the read position on are bytes of the file. -/
theorem fileByte_block (disk : Bytes) {n k : Nat} (hk : k < n)
    (hn : fdPos.toNat % 512 + n ≤ 512) :
    fileByte disk i (fdPos.toNat + k) =
      disk (sectorOff (blockLba disk i (fdPos.toNat / 512)) + fdPos.toNat % 512 + k) := by
  have hdiv : (fdPos.toNat + k) / 512 = fdPos.toNat / 512 := by omega
  have hmod : (fdPos.toNat + k) % 512 = fdPos.toNat % 512 + k := by omega
  unfold fileByte
  rw [hdiv, hmod, Nat.add_assoc]

theorem not_returns_of_ensures {α : Type} {x : Kern α} {Q R : α → State → Prop}
    (h : Ensures x s R) (hno : ∀ a t, R a t → ¬Q a t) : ¬Returns x s Q := by
  intro hx
  obtain ⟨a, t, hrun, hQ⟩ := returns_iff.mp hx
  exact hno a t (ensures_iff.mp h a t hrun) hQ

/-- A read behind block 138 fails the assertion on the block indices. -/
theorem readBody_out_of_range {ioBuf : Option Ptr} {Q : UInt32 × Stores → State → Prop}
    (h : ¬((fdPos / 512).toNat < 139 ∧ ((fdPos + size) / 512).toNat < 139)) :
    ¬Returns (readBody i fdIdx fdPos size ioBuf allBlocksPtr) s Q := by
  unfold readBody
  rw [Returns, Wp.bind, wp_kassert]
  exact fun hx => hx.2 h

/-- A read that goes on behind the block where it starts leaves a gap. -/
theorem readBody_gap {ioBuf : Option Ptr} (hfd : (s.fileTable fdIdx).fdPos = fdPos)
    (hsize : 512 < fdPos.toNat % 512 + size.toNat) :
    Ensures (readBody i fdIdx fdPos size ioBuf allBlocksPtr) s
      (fun r _ => r.2 (512 - fdPos.toNat % 512) = none) := by
  have hsame : Ensures (gatherRead i (fdPos / 512).toNat ((fdPos + size) / 512).toNat) s
      (fun _ t => t.fileTable = s.fileTable) := by
    unfold gatherRead
    simp [Ensures, Wp.ite, Wp.bind, wp_ideReadTable, wp_kassert, Wp.pure]
  unfold readBody
  simp only [Ensures, Wp.bind, wp_kassert, implies_true, and_true]
  refine fun _ => hsame.call fun allBlocks t ht => ?_
  cases ioBuf with
  | none => exact True.intro
  | some ioBufPtr =>
      have hfd' : (t.fileTable fdIdx).fdPos = fdPos := by rw [ht, hfd]
      rw [Wp.bind]
      refine (readLoop_gap hfd' hsize).call fun r u hr => ?_
      rw [freeBuffers, Wp.bind]
      refine Wp.trivial.call fun _ _ _ => ?_
      rw [Wp.bind]
      exact Wp.trivial.call fun _ _ _ => hr

/-- The block numbers of a read, without wrapping. -/
theorem blockIdx_spec {n : Nat} (hsize : size.toNat = n) (hend : fdPos.toNat + n < 2 ^ 32) :
    (fdPos / 512).toNat = fdPos.toNat / 512 ∧
      ((fdPos + size) / 512).toNat = (fdPos.toNat + n) / 512 := by
  have h512 : (512 : UInt32).toNat = 512 := rfl
  refine ⟨?_, ?_⟩
  · rw [UInt32.toNat_div, h512]
  · rw [UInt32.toNat_div, UInt32.toNat_add, hsize, Nat.mod_eq_of_lt hend, h512]

/-- With memory, a read of at least one byte is right when it stays in its block, or when
sector 0 holds its bytes and it ends with its block. -/
theorem readBody_iff {n : Nat} {s₀ : State} {ioBuf : Ptr} (hn : n ≠ 0) (hsize : size.toNat = n)
    (hend : fdPos.toNat + n < 2 ^ 32) (hfile : fdPos.toNat + n ≤ i.iSize.toNat)
    (hdisk : s.disk = s₀.disk) (hmap : BlocksMapped s.disk i)
    (hfd : (s.fileTable fdIdx).fdPos = fdPos) (hlive : BuffersLive s ioBuf allBlocksPtr) :
    Returns (readBody i fdIdx fdPos size (some ioBuf) allBlocksPtr) s
        (fun r t => ReadDone s₀ t fdIdx i fdPos n r) ↔
      (fdPos.toNat % 512 + n < 512 ∧ fdPos.toNat / 512 < 139) ∨
        (fdPos.toNat % 512 + n = 512 ∧ fdPos.toNat / 512 < 138 ∧
          ∀ k, k < n → s₀.disk (fdPos.toNat % 512 + k) =
            fileByte s₀.disk i (fdPos.toNat + k)) := by
  obtain ⟨hstart, hlast⟩ := blockIdx_spec hsize hend
  have hpos : 0 < size := by
    rw [UInt32.lt_iff_toNat_lt, hsize]
    exact Nat.pos_of_ne_zero hn
  by_cases hgap : 512 < fdPos.toNat % 512 + n
  · refine ⟨fun h => absurd h ?_, fun h => by omega⟩
    refine not_returns_of_ensures (readBody_gap hfd (by omega)) fun r t hr hdone => ?_
    unfold ReadDone at hdone
    rw [if_neg hn] at hdone
    have hbyte := hdone.2.1 (512 - fdPos.toNat % 512) (by omega)
    rw [hr] at hbyte
    exact absurd hbyte (by simp)
  · by_cases hrange : fdPos.toNat / 512 < 139 ∧ (fdPos.toNat + n) / 512 < 139
    · have hrange' : (fdPos / 512).toNat < 139 ∧ ((fdPos + size) / 512).toNat < 139 := by
        rwa [hstart, hlast]
      by_cases hin : fdPos.toNat % 512 + n < 512
      · have hsame : (fdPos.toNat + n) / 512 = fdPos.toNat / 512 := by omega
        obtain ⟨allBlocks, hblock, hgather⟩ := gatherRead_same (b := fdPos.toNat / 512) hmap
          (by omega)
        have hsel : Selectable (allBlocks (fdPos.toNat / 512)) 1 := by
          rw [hblock]
          exact selectable_one.mpr (hmap _ (by omega)).2.2.1
        obtain ⟨t, ht, hwp⟩ := wp_readBody_one (F := fun _ => False)
          (Q := fun r t => ReadDone s₀ t fdIdx i fdPos n r) (i := i) hlive hpos hfd (by omega)
          hrange' hsel (by rwa [hstart, hlast, hsame])
        rw [Returns, hwp, hdisk, readDone_chunk_iff hn hsize hend ht, hblock, hdisk]
        refine ⟨fun _ => Or.inl ⟨hin, hrange.1⟩, fun _ k hk => ?_⟩
        exact (fileByte_block s₀.disk hk (by omega)).symm
      · have hnext : (fdPos.toNat + n) / 512 = fdPos.toNat / 512 + 1 := by omega
        obtain ⟨allBlocks, hblock, hgather⟩ :=
          gatherRead_next (s := s) (i := i) (b := fdPos.toNat / 512)
        have hsel : Selectable (allBlocks (fdPos.toNat / 512)) 1 := by
          rw [hblock]
          exact selectable_one.mpr (by decide)
        obtain ⟨t, ht, hwp⟩ := wp_readBody_one (F := fun _ => False)
          (Q := fun r t => ReadDone s₀ t fdIdx i fdPos n r) (i := i) hlive hpos hfd (by omega)
          hrange' hsel (by rwa [hstart, hlast, hnext])
        have hzero : sectorOff 0 = 0 := rfl
        rw [Returns, hwp, hdisk, readDone_chunk_iff hn hsize hend ht, hblock, hzero]
        simp only [Nat.zero_add]
        refine ⟨fun h => Or.inr ⟨by omega, by omega, h⟩, fun h => ?_⟩
        rcases h with h | h
        · exact absurd h.1 hin
        · exact h.2.2
    · refine ⟨fun h => absurd h (readBody_out_of_range (by rwa [hstart, hlast])), fun h => ?_⟩
      exact absurd (by omega) hrange

/-- `file_read` does what it is to do exactly when `ReadsRight` says so. -/
theorem fileRead_right_iff (hp : (s.fileTable fdIdx).fdInode = some p)
    (hi : s.inodes p = some i) (hmap : BlocksMapped s.disk i)
    (hle : (s.fileTable fdIdx).fdPos ≤ i.iSize) (hcount : 0 < count)
    (hwrap : (s.fileTable fdIdx).fdPos.toNat + count.toNat < 2 ^ 32) :
    Returns (fileRead fdIdx count) s (fun r t => ReadDone s t fdIdx i (s.fileTable fdIdx).fdPos
        (readLength i (s.fileTable fdIdx).fdPos count) r) ↔
      ReadsRight s i (s.fileTable fdIdx).fdPos
        (readLength i (s.fileTable fdIdx).fdPos count) := by
  obtain ⟨hsize, hgt⟩ := toNat_readSize hle hwrap
  generalize hfd : (s.fileTable fdIdx).fdPos = fdPos at *
  have hcount' : 0 < count.toNat := hcount
  have hle' : fdPos.toNat ≤ i.iSize.toNat := hle
  have hshort : i.iSize.toNat ≤ 71680 := by
    by_contra h
    exact absurd (hmap 140 (by omega)).1 (by omega)
  have hlen : readLength i fdPos count = min count.toNat (i.iSize.toNat - fdPos.toNat) := rfl
  rw [Returns, wp_fileRead hp hi hfd rfl, hgt]
  by_cases hn : readLength i fdPos count = 0
  · have hend : i.iSize.toNat < fdPos.toNat + count.toNat ∧ readSize fdPos i.iSize count = 0 := by
      refine ⟨by omega, UInt32.toNat_inj.mp ?_⟩
      rw [hsize, hn]
      rfl
    refine ⟨fun _ => Or.inl hn, fun _ => ⟨fun _ => ?_, fun h => absurd hend h⟩⟩
    unfold ReadDone
    rw [if_pos hn]
    exact ⟨rfl, rfl⟩
  · have hne : ¬(i.iSize.toNat < fdPos.toNat + count.toNat ∧
        readSize fdPos i.iSize count = 0) := by
      intro h
      rw [h.2] at hsize
      exact hn hsize.symm
    have hright : ReadsRight s i fdPos (readLength i fdPos count) ↔
        (s.supply 0 = true ∧ s.supply 1 = true) ∧
          ((fdPos.toNat % 512 + readLength i fdPos count < 512 ∧ fdPos.toNat / 512 < 139) ∨
            (fdPos.toNat % 512 + readLength i fdPos count = 512 ∧ fdPos.toNat / 512 < 138 ∧
              ∀ k, k < readLength i fdPos count → s.disk (fdPos.toNat % 512 + k) =
                fileByte s.disk i (fdPos.toNat + k))) := by
      unfold ReadsRight
      rw [or_iff_right hn, and_assoc]
    rw [hright]
    by_cases hmem : s.supply 0 = true ∧ s.supply 1 = true
    · rw [wp_buffers hmem.1 hmem.2]
      have hbody := readBody_iff (s := s.withBuf.withBuf) hn hsize (by omega)
        (by omega) (show s.withBuf.withBuf.disk = s.disk from rfl) hmap hfd buffersLive_withBuf
      refine ⟨fun h => ⟨hmem, hbody.mp (h.2 hne)⟩, fun h => ⟨fun h' => absurd h' hne, fun _ => ?_⟩⟩
      exact hbody.mpr h.2
    · refine ⟨fun h => absurd (h.2 hne) ?_, fun h => absurd h.1 hmem⟩
      refine not_returns_of_ensures (noBuffers_result hmem) fun r t hr hdone => ?_
      unfold ReadDone at hdone
      rw [if_neg hn, hr] at hdone
      have h1 : (-1 : UInt32).toNat = 4294967295 := rfl
      omega

end

/-- A file of one full block, in sector 3000. -/
def oneBlock : Inode := { Inode.zero with iNo := 1, iSize := 512 }.setSector 0 3000

/-- The file is open as entry 3 of `file_table`; it starts with an `A` and the rest of
the disk is zero. -/
def oneBlockState : State :=
  { idleState (emptyPart 2048 8192) with
    disk := fun a => if a = 512 * 3000 then 65 else 0
    inodes := fun p => if p = ⟨false, 0⟩ then some oneBlock else none
    fileTable := fun k => ⟨0, 0, if k = 3 then some ⟨false, 0⟩ else none⟩ }

theorem oneBlock_mapped (disk : Bytes) : BlocksMapped disk oneBlock := by
  intro k hk
  have hsize : oneBlock.iSize.toNat = 512 := rfl
  have hk0 : k = 0 := by omega
  have hblock : blockLba disk oneBlock 0 = 3000 := rfl
  rw [hk0, hblock]
  exact ⟨by decide, by decide, by decide, fun h => absurd h (by decide)⟩

theorem fileRead_right_three_bytes :
    Returns (fileRead 3 3) oneBlockState
      (fun r t => ReadDone oneBlockState t 3 oneBlock 0 (readLength oneBlock 0 3) r) :=
  (fileRead_right_iff (s := oneBlockState) (i := oneBlock) (p := ⟨false, 0⟩) rfl rfl
    (oneBlock_mapped _) (by decide) (by decide) (by decide)).mpr
      (Or.inr ⟨rfl, rfl, Or.inl (by decide)⟩)

/-- Reading the whole block delivers sector 0 of the disk. -/
theorem fileRead_wrong_full_block :
    BlocksMapped oneBlockState.disk oneBlock ∧
      ((fileRead 3 512).run oneBlockState).toOption.map (fun r => (r.1.1, r.1.2 0)) =
        some (512, some 0) ∧
      fileByte oneBlockState.disk oneBlock 0 = 65 ∧
      ¬Returns (fileRead 3 512) oneBlockState
        (fun r t => ReadDone oneBlockState t 3 oneBlock 0 (readLength oneBlock 0 512) r) := by
  have hrun : ((fileRead 3 512).run oneBlockState).toOption.map (fun r => (r.1.1, r.1.2 0)) =
      some (512, some 0) := by
    decide +kernel
  refine ⟨oneBlock_mapped _, hrun, by decide +kernel, fun h => ?_⟩
  obtain ⟨r, t, hr, hdone⟩ := returns_iff.mp h
  rw [hr] at hrun
  have hbyte : r.2 0 = some 0 := (Prod.mk.inj (Option.some.inj hrun)).2
  have hwant : r.2 0 = some 65 := hdone.2.1 0 (by decide)
  rw [hbyte] at hwant
  exact absurd hwant (by decide)

end OsTruth
