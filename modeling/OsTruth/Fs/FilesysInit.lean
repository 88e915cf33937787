/-
The loops of `filesys_init` that look for a file system in each partition.

The loops go over the second disk of each channel, and one round reads the super block of a
partition and formats the partition if the magic number is not there.  `part_idx` is set to 0 in
front of the loops only, so the disk of the second channel gets no round.

What the rounds do to the disks is seen through the marks, the sectors that start with the magic
number: `partition_format` puts one on its super block and takes away those of the other sectors
that it writes.
-/
import OsTruth.Device.Partition
import OsTruth.Fs.FormatLayout

namespace OsTruth

open ByteString Fallible

/-! ## Functions -/

/-- The disks and the kernel's other data.  `examined` records the partitions whose super block
was read. -/
structure SearchState where
  kernel : State
  disks : DiskNo → Bytes
  examined : List PartSlot

abbrev Search := StateT SearchState (Except Fault)

namespace SearchState

/-- The kernel with the partition `info` of disk `hd`. -/
def on (σ : SearchState) (hd : DiskNo) (info : PartInfo) : State :=
  { σ.kernel with
    disk := σ.disks hd
    part := { σ.kernel.part with startLba := info.startLba, secCnt := info.secCnt } }

/-- The state with the disk and the heap of `s`. -/
def back (σ : SearchState) (hd : DiskNo) (s : State) : SearchState :=
  { σ with
    kernel := { s with disk := σ.kernel.disk, part := σ.kernel.part }
    disks := fun d => if d = hd then s.disk else σ.disks d }

end SearchState

/-- A function of the file system on a partition. -/
def onSlot {α : Type} (hd : DiskNo) (info : PartInfo) (x : Kern α) : Search α :=
  onPart (fun σ => σ.on hd info) (fun σ s => σ.back hd s) x

def PartSlot.Inside : PartSlot → Prop
  | .prim _ i => i < 4
  | .logic _ i => i < 8

instance : DecidablePred PartSlot.Inside
  | .prim _ i => inferInstanceAs (Decidable (i < 4))
  | .logic _ i => inferInstanceAs (Decidable (i < 8))

/-- `part ++`. -/
def PartSlot.next : PartSlot → PartSlot
  | .prim hd i => .prim hd (i + 1)
  | .logic hd i => .logic hd (i + 1)

/-- A round of the innermost loop.  `partition_format` writes to the disk that the partition names,
and `pad` is what the stack held under its super block. -/
def examinePart (pad : PartSlot → Bytes) (parts : PartSlot → PartInfo) (hd : DiskNo)
    (part : PartSlot) : Search Unit := do
  let info := parts part
  if info.secCnt ≠ 0 then do
    let sbBuf ← onSlot hd info (ideRead (info.startLba + 1) (.zero 512) 1)
    modify fun σ => { σ with examined := σ.examined ++ [part] }
    if (SuperBlock.ofBytes sbBuf.data).magic = 0x20050102 then pure ()
    else onSlot info.myDisk info (partitionFormat (pad part))
  else pure ()

/-- The innermost loop, with the value of `part_idx` behind it. -/
def partLoop (pad : PartSlot → Bytes) (parts : PartSlot → PartInfo) (hd : DiskNo) :
    Nat → Nat → PartSlot → Search Nat
  | 0, _, _ => throw .undefined
  | left + 1, partIdx, part =>
      if partIdx < 12 then do
        let part := if partIdx = 4 then .logic hd 0 else part
        if part.Inside then do
          examinePart pad parts hd part
          partLoop pad parts hd left (partIdx + 1) part.next
        else throw .undefined
      else pure partIdx

/-- A round of the loop over the disks of a channel. -/
def searchDisk (pad : PartSlot → Bytes) (parts : PartSlot → PartInfo)
    (channelNo devNo partIdx : Nat) : Search Nat :=
  if devNo = 0 then pure partIdx
  else
    let hd := channelNo * 2 + devNo
    partLoop pad parts hd 13 partIdx (.prim hd 0)

/-- A round of the loop over the channels.  There are two channels. -/
def searchChannel (pad : PartSlot → Bytes) (parts : PartSlot → PartInfo) (channelNo partIdx : Nat) :
    Search Nat :=
  if channelNo < 2 then
    (List.range 2).foldlM (fun partIdx devNo => searchDisk pad parts channelNo devNo partIdx)
      partIdx
  else throw .undefined

/-- The loops of `filesys_init`. -/
def searchFilesystems (pad : PartSlot → Bytes) (parts : PartSlot → PartInfo) (channelCnt : Nat) :
    Search Nat :=
  (List.range channelCnt).foldlM
    (fun partIdx channelNo => searchChannel pad parts channelNo partIdx) 0

section

variable {s t : State} {lba : UInt32} {n : Nat}

/-! ## What `partition_format` writes -/

/-- A run of sectors that can be selected ends near the end of the disk. -/
theorem Selectable.end_le (h : Selectable lba n) : lba.toNat + n ≤ maxLba.toNat + 256 := by
  have hmax := toNat_maxLba
  have hpos := h.1
  by_cases hfar : lba.toNat + n ≤ maxLba.toNat + 256
  · exact hfar
  · have hfirst : lba.toNat ≤ maxLba.toNat := by
      have := h.2 0 (by omega)
      simpa [UInt32.le_iff_toNat_le] using this
    have hk := h.2 ((maxLba.toNat - lba.toNat) / 256 + 1) (by omega)
    rw [UInt32.le_iff_toNat_le, UInt32.toNat_add, UInt32.toNat_ofNat'] at hk
    omega

structure FormatPlaces (startLba : UInt32) (sb : SuperBlock) : Prop where
  super : (startLba + 1).toNat ≤ maxLba.toNat
  blockBitmap : sb.blockBitmapLba.toNat = (startLba + 1).toNat + 1
  inodeBitmap : sb.inodeBitmapLba.toNat = sb.blockBitmapLba.toNat + sb.blockBitmapSects.toNat
  inodeTable : sb.inodeTableLba.toNat = sb.inodeBitmapLba.toNat + 1
  data : sb.dataStartLba.toNat = sb.inodeTableLba.toNat + 608

theorem formatPlaces {startLba secCnt : UInt32} {sb : SuperBlock}
    (hsb : formatSuperBlock startLba secCnt = sb) (hsuper : Selectable (startLba + 1) 1)
    (hblock : Selectable sb.blockBitmapLba sb.blockBitmapSects.toNat)
    (hinode : Selectable sb.inodeBitmapLba sb.inodeBitmapSects.toNat)
    (htable : Selectable sb.inodeTableLba sb.inodeTableSects.toNat) :
    FormatPlaces startLba sb := by
  have hmax := toNat_maxLba
  have hle := selectable_one.mp hsuper
  have hend := hblock.end_le
  have hend' := hinode.end_le
  have hend'' := htable.end_le
  have h1 : (1 : UInt32).toNat = 1 := rfl
  have hone : sb.inodeBitmapSects.toNat = 1 := by
    rw [← hsb]
    rfl
  have htab : sb.inodeTableSects.toNat = 608 := by
    rw [← hsb]
    rfl
  have hbb : sb.blockBitmapLba.toNat = (startLba + 1).toNat + 1 := by
    have hadd : sb.blockBitmapLba = startLba + 1 + 1 := by
      rw [← hsb, UInt32.add_assoc]
      rfl
    rw [hadd, UInt32.toNat_add, h1]
    omega
  have hib : sb.inodeBitmapLba.toNat = sb.blockBitmapLba.toNat + sb.blockBitmapSects.toNat := by
    have hadd : sb.inodeBitmapLba = sb.blockBitmapLba + sb.blockBitmapSects := by
      rw [← hsb]
      rfl
    rw [hadd, UInt32.toNat_add]
    omega
  have hit : sb.inodeTableLba.toNat = sb.inodeBitmapLba.toNat + 1 := by
    have hadd : sb.inodeTableLba = sb.inodeBitmapLba + sb.inodeBitmapSects := by
      rw [← hsb]
      rfl
    rw [hadd, UInt32.toNat_add, hone]
    omega
  refine ⟨hle, hbb, hib, hit, ?_⟩
  have hadd : sb.dataStartLba = sb.inodeTableLba + sb.inodeTableSects := by
    rw [← hsb]
    rfl
  rw [hadd, UInt32.toNat_add, htab]
  omega

def formatInodeBitmap : Bytes := fun k => if k = 0 then 1 else 0

def formatInodeTable (sb : SuperBlock) : Bytes :=
  splice (fun _ => 0) 0 inodeSize (rootInode sb).bytes

/-- The disk behind `partition_format`, with the block bitmap `bits`. -/
def formattedDisk (sb : SuperBlock) (superLba : UInt32) (pad bits disk : Bytes) : Bytes :=
  let disk := splice disk (sectorOff superLba) (512 * 1) (sb.bytes pad)
  let disk := splice disk (sectorOff sb.blockBitmapLba) (512 * sb.blockBitmapSects.toNat) bits
  let disk := splice disk (sectorOff sb.inodeBitmapLba) (512 * 1) formatInodeBitmap
  let disk := splice disk (sectorOff sb.inodeTableLba) (512 * 608) (formatInodeTable sb)
  splice disk (sectorOff sb.dataStartLba) (512 * 1) (dotEntries 0 0)

theorem partitionFormat_disk (pad : Bytes) {sb : SuperBlock}
    (hsb : formatSuperBlock s.part.startLba s.part.secCnt = sb) :
    Ensures (partitionFormat pad) s fun _ t => FormatPlaces s.part.startLba sb ∧ ∃ buf,
      formatBlockBitmap (blockBitmapBitLen s.part.secCnt) (.zero (formatBufSize sb).toNat) =
        .ok buf ∧
      t.disk = formattedDisk sb (s.part.startLba + 1) pad buf.data s.disk := by
  have hone : sb.inodeBitmapSects.toNat = 1 := by
    rw [← hsb]
    rfl
  have htab : sb.inodeTableSects.toNat = 608 := by
    rw [← hsb]
    rfl
  unfold partitionFormat
  rw [Ensures, Wp.bind, Wp.get]
  simp only [hsb]
  rw [Wp.bind, wp_ideWrite]
  refine ⟨fun hsuper => ⟨fun _ => ?_, fun _ => True.intro⟩, fun _ => True.intro⟩
  rw [Wp.bind]
  refine (sysMallocBuf_reads _).call fun bufPtr t₁ h₁ => ?_
  cases bufPtr with
  | none => exact True.intro
  | some bufPtr =>
      rw [Wp.bind, Wp.lift]
      refine ⟨fun buf hbuf => ?_, fun _ _ => True.intro⟩
      rw [Wp.bind, wp_ideWrite]
      refine ⟨fun hblock => ⟨fun _ => ?_, fun _ => True.intro⟩, fun _ => True.intro⟩
      rw [Wp.bind, wp_ideWrite]
      refine ⟨fun hinode => ⟨fun _ => ?_, fun _ => True.intro⟩, fun _ => True.intro⟩
      rw [Wp.bind, wp_ideWrite]
      refine ⟨fun htable => ⟨fun _ => ?_, fun _ => True.intro⟩, fun _ => True.intro⟩
      rw [Wp.bind, wp_ideWrite]
      refine ⟨fun _ => ⟨fun _ => ?_, fun _ => True.intro⟩, fun _ => True.intro⟩
      refine (sysFreeBuf_reads bufPtr _).call fun _ t h => ?_
      refine ⟨formatPlaces hsb hsuper hblock hinode htable, buf, hbuf, ?_⟩
      rw [h.disk]
      simp only [State.store, h₁.disk, hone, htab]
      rfl

/-! ## The sectors that carry the magic number -/

/-- The sectors that start with the magic number. -/
def marks (disk : Bytes) (lba : UInt32) : Bool := decide (wordAt disk (sectorOff lba) = 0x20050102)

/-- The sectors behind the super block that `partition_format` writes. -/
def FormatHits (startLba secCnt lba : UInt32) : Prop :=
  (formatSuperBlock startLba secCnt).blockBitmapLba ≤ lba ∧
    lba ≤ (formatSuperBlock startLba secCnt).dataStartLba

instance (startLba secCnt lba : UInt32) : Decidable (FormatHits startLba secCnt lba) :=
  inferInstanceAs (Decidable (_ ∧ _))

/-- What `partition_format` makes of the marks: the super block gets one, and the other sectors
that it writes have none. -/
def formatMarks (startLba secCnt : UInt32) (m : UInt32 → Bool) (lba : UInt32) : Bool :=
  if lba = startLba + 1 then true else if FormatHits startLba secCnt lba then false else m lba

/-- The second byte of the magic number. -/
theorem marks_byte {disk : Bytes} (h : marks disk lba = true) : disk (sectorOff lba + 1) = 1 := by
  rw [← byteOf_wordAt disk (sectorOff lba) (by omega : 1 < 4), of_decide_eq_true h]
  decide

theorem marks_false {disk : Bytes} (h : disk (sectorOff lba + 1) ≠ 1) : marks disk lba = false := by
  cases hm : marks disk lba with
  | false => rfl
  | true => exact absurd (marks_byte hm) h

/-- The second byte of a sector that a write covers. -/
theorem splice_second {b d : Bytes} {l : UInt32} (h₁ : l.toNat ≤ lba.toNat)
    (h₂ : lba.toNat < l.toNat + n) :
    splice b (sectorOff l) (512 * n) d (sectorOff lba + 1) =
      d (512 * (lba.toNat - l.toNat) + 1) := by
  have hoff : sectorOff lba + 1 = sectorOff l + (512 * (lba.toNat - l.toNat) + 1) := by
    unfold sectorOff
    omega
  rw [hoff, splice_at (by omega)]

/-- A sector that a write does not cover. -/
theorem splice_elsewhere {b d : Bytes} {l : UInt32} {k : Nat} (hk : k < 512)
    (h : lba.toNat < l.toNat ∨ l.toNat + n ≤ lba.toNat) :
    splice b (sectorOff l) (512 * n) d (sectorOff lba + k) = b (sectorOff lba + k) := by
  unfold sectorOff
  exact splice_outside (by omega)

theorem marks_elsewhere {b d : Bytes} {l : UInt32}
    (h : lba.toNat < l.toNat ∨ l.toNat + n ≤ lba.toNat) :
    marks (splice b (sectorOff l) (512 * n) d) lba = marks b lba := by
  unfold marks
  rw [wordAt_congr fun k hk => splice_elsewhere (by omega) h]

/-! ### The second byte of the sectors that are written -/

theorem clearLowBits_ne {j : Nat} (h : j < 8) : clearLowBits (j + 1) 0xff ≠ 1 := by
  have hall : ∀ j, j < 8 → clearLowBits (j + 1) 0xff ≠ 1 := by decide
  exact hall j h

theorem formatBlockBitmap_second {bitLen : UInt32} {size : Nat} {buf : Buf}
    (h : formatBlockBitmap bitLen (.zero size) = .ok buf) (q : Nat) :
    buf.data (512 * q + 1) ≠ 1 := by
  by_cases hsize : 1 ≤ size
  · rw [formatBlockBitmap_eq bitLen hsize] at h
    split at h
    · cases h
      show formatBytes bitLen.toNat (512 * q + 1) ≠ 1
      unfold formatBytes
      split
      · exact clearLowBits_ne (by omega)
      · split
        · decide
        · rw [if_neg (by omega)]
          decide
    · cases h
  · have hput : (Buf.zero size).put 0 1 (fun _ => (Buf.zero size).data 0 ||| 1) =
        .error .undefined := if_neg (show ¬0 + 1 ≤ size by omega)
    unfold formatBlockBitmap at h
    rw [hput] at h
    cases h

theorem formatInodeBitmap_second (q : Nat) : formatInodeBitmap (512 * q + 1) ≠ 1 := by
  show (if 512 * q + 1 = 0 then (1 : UInt8) else 0) ≠ 1
  rw [if_neg (by omega)]
  decide

theorem formatInodeTable_second (sb : SuperBlock) (q : Nat) :
    formatInodeTable sb (512 * q + 1) ≠ 1 := by
  have hsize : inodeSize = 76 := rfl
  unfold formatInodeTable
  cases q with
  | zero =>
      rw [splice_inside (by omega) (by omega)]
      show byteOf 0 1 ≠ 1
      decide
  | succ q =>
      rw [splice_outside (by omega)]
      decide

theorem dotEntries_second : dotEntries 0 0 (512 * 0 + 1) ≠ 1 := by
  decide

/-- The marks behind `partition_format`. -/
theorem marks_formattedDisk {startLba secCnt : UInt32} {sb : SuperBlock} {pad bits disk : Bytes}
    (hsb : formatSuperBlock startLba secCnt = sb) (hp : FormatPlaces startLba sb)
    (hbits : ∀ q, bits (512 * q + 1) ≠ 1) (lba : UInt32) :
    marks (formattedDisk sb (startLba + 1) pad bits disk) lba =
      formatMarks startLba secCnt (marks disk) lba := by
  obtain ⟨-, hbb, hib, hit, hdata⟩ := hp
  unfold formatMarks FormatHits formattedDisk
  simp only [hsb, UInt32.le_iff_toNat_le]
  by_cases hsuper : lba = startLba + 1
  · rw [if_pos hsuper, hsuper, marks_elsewhere (by omega), marks_elsewhere (by omega),
      marks_elsewhere (by omega), marks_elsewhere (by omega)]
    apply decide_eq_true
    have hfirst : wordAt (splice disk (sectorOff (startLba + 1)) (512 * 1) (sb.bytes pad))
        (sectorOff (startLba + 1) + 0) = wordAt (sb.bytes pad) 0 :=
      wordAt_splice_inside _ (by omega)
    have hword : wordAt (sb.bytes pad) 0 = sb.magic := wordAt_ofWords (sb.word pad) 0
    refine hfirst.trans (hword.trans ?_)
    rw [← hsb]
    rfl
  · have hne : lba.toNat ≠ (startLba + 1).toNat := fun h => hsuper (UInt32.toNat_inj.mp h)
    rw [if_neg hsuper]
    by_cases hhit : sb.blockBitmapLba.toNat ≤ lba.toNat ∧ lba.toNat ≤ sb.dataStartLba.toNat
    · rw [if_pos hhit]
      apply marks_false
      by_cases h₁ : lba.toNat = sb.dataStartLba.toNat
      · rw [splice_second (by omega) (by omega), h₁, Nat.sub_self]
        exact dotEntries_second
      rw [splice_elsewhere (by omega) (by omega)]
      by_cases h₂ : sb.inodeTableLba.toNat ≤ lba.toNat
      · rw [splice_second (by omega) (by omega)]
        exact formatInodeTable_second sb _
      rw [splice_elsewhere (by omega) (by omega)]
      by_cases h₃ : sb.inodeBitmapLba.toNat ≤ lba.toNat
      · rw [splice_second (by omega) (by omega)]
        exact formatInodeBitmap_second _
      rw [splice_elsewhere (by omega) (by omega), splice_second (by omega) (by omega)]
      exact hbits _
    · rw [if_neg hhit, marks_elsewhere (by omega), marks_elsewhere (by omega),
        marks_elsewhere (by omega), marks_elsewhere (by omega), marks_elsewhere (by omega)]

/-- A run of `partition_format` that returns does to the marks what `formatMarks` says. -/
theorem partitionFormat_marks (pad : Bytes) : Ensures (partitionFormat pad) s fun _ t =>
    marks t.disk = formatMarks s.part.startLba s.part.secCnt (marks s.disk) := by
  refine (partitionFormat_disk pad rfl).call fun _ t h => ?_
  obtain ⟨hp, buf, hbuf, hdisk⟩ := h
  funext lba
  rw [hdisk, marks_formattedDisk rfl hp (formatBlockBitmap_second hbuf) lba]

end

/-! ## Rounds -/

/-- The marks of all disks. -/
abbrev Marks := DiskNo → UInt32 → Bool

namespace SearchState

def marks (σ : SearchState) : Marks := fun d => OsTruth.marks (σ.disks d)

end SearchState

/-- What a round for the partition `info` of disk `hd` makes of the marks. -/
def examineMarks (hd : DiskNo) (info : PartInfo) (m : Marks) : Marks :=
  if info.secCnt ≠ 0 ∧ m hd (info.startLba + 1) = false then fun d =>
    if d = info.myDisk then formatMarks info.startLba info.secCnt (m d) else m d
  else m

/-- The rounds for the partitions `slots` of disk `hd`. -/
structure Rounds (parts : PartSlot → PartInfo) (hd : DiskNo) (slots : List PartSlot)
    (σ σ' : SearchState) : Prop where
  examined : σ'.examined = σ.examined ++ slots.filter fun s => (parts s).secCnt ≠ 0
  marks : σ'.marks = slots.foldl (fun m s => examineMarks hd (parts s) m) σ.marks

def diskSlots (hd : DiskNo) : List PartSlot :=
  (List.range 4).map (.prim hd) ++ (List.range 8).map (.logic hd)

/-- `part` in front of round `k`. -/
def pointer (hd : DiskNo) (k : Nat) : PartSlot := if k ≤ 4 then .prim hd k else .logic hd (k - 4)

section

variable {pad : PartSlot → Bytes} {parts : PartSlot → PartInfo} {hd : DiskNo} {σ σ' τ : SearchState}
variable {info : PartInfo} {slots slots' : List PartSlot} {part : PartSlot} {k left : Nat}

theorem Rounds.nil : Rounds parts hd [] σ σ := ⟨by simp, rfl⟩

theorem Rounds.append (h : Rounds parts hd slots σ σ') (h' : Rounds parts hd slots' σ' τ) :
    Rounds parts hd (slots ++ slots') σ τ where
  examined := by rw [h'.examined, h.examined, List.filter_append, List.append_assoc]
  marks := by rw [h'.marks, h.marks, List.foldl_append]

theorem back_marks (s : State) :
    (σ.back hd s).marks = fun d => if d = hd then OsTruth.marks s.disk else σ.marks d := by
  funext d
  show OsTruth.marks (if d = hd then s.disk else σ.disks d) = _
  by_cases hdisk : d = hd
  · rw [if_pos hdisk, if_pos hdisk]
  · rw [if_neg hdisk, if_neg hdisk]
    rfl

/-- Reading the super block changes nothing, and its first word says if there is a mark. -/
theorem onSlot_ideRead : Ensures (onSlot hd info (ideRead (info.startLba + 1) (.zero 512) 1)) σ
    fun sbBuf σ' => σ'.examined = σ.examined ∧ σ'.marks = σ.marks ∧
      decide ((SuperBlock.ofBytes sbBuf.data).magic = 0x20050102) =
        σ.marks hd (info.startLba + 1) := by
  unfold onSlot
  rw [Ensures, Wp.onPart, wp_ideRead]
  refine ⟨fun _ => ⟨fun _ => ⟨rfl, ?_, ?_⟩, fun _ => True.intro⟩, fun _ => True.intro⟩
  · rw [back_marks]
    funext d
    by_cases hdisk : d = hd
    · rw [if_pos hdisk, hdisk]
      rfl
    · rw [if_neg hdisk]
  · have hword : wordAt (splice (Buf.zero 512).data 0 (512 * 1)
        (view (σ.on hd info).disk (sectorOff (info.startLba + 1)))) (0 + 0) =
        wordAt (view (σ.on hd info).disk (sectorOff (info.startLba + 1))) 0 :=
      wordAt_splice_inside _ (by omega)
    show decide (wordAt _ (0 + 0) = 0x20050102) = _
    rw [hword]
    rfl

theorem onSlot_partitionFormat (pad : Bytes) :
    Ensures (onSlot info.myDisk info (partitionFormat pad)) σ fun _ σ' =>
      σ'.examined = σ.examined ∧ σ'.marks = fun d =>
        if d = info.myDisk then formatMarks info.startLba info.secCnt (σ.marks d)
        else σ.marks d := by
  unfold onSlot
  rw [Ensures, Wp.onPart]
  refine (partitionFormat_marks pad).call fun _ t h => ⟨rfl, ?_⟩
  rw [back_marks, h]
  funext d
  by_cases hdisk : d = info.myDisk
  · rw [if_pos hdisk, if_pos hdisk, hdisk]
    rfl
  · rw [if_neg hdisk, if_neg hdisk]

theorem examinePart_rounds :
    Ensures (examinePart pad parts hd part) σ fun _ σ' => Rounds parts hd [part] σ σ' := by
  unfold examinePart
  rw [Ensures, Wp.ite]
  constructor
  · intro hused
    rw [Wp.bind]
    refine onSlot_ideRead.call fun sbBuf σ₁ h₁ => ?_
    obtain ⟨hexamined, hmarks, hmagic⟩ := h₁
    have hlog : σ₁.examined ++ [part] = σ.examined ++ [part].filter fun s =>
        (parts s).secCnt ≠ 0 := by
      rw [hexamined, List.filter_cons_of_pos (by simpa using hused), List.filter_nil]
    rw [Wp.bind, Wp.modify, Wp.ite]
    constructor
    · intro h
      rw [decide_eq_true h] at hmagic
      refine ⟨hlog, hmarks.trans ?_⟩
      show _ = examineMarks hd (parts part) σ.marks
      unfold examineMarks
      rw [if_neg (by simp [← hmagic])]
    · intro h
      rw [decide_eq_false h] at hmagic
      refine (onSlot_partitionFormat (pad part)).call fun _ σ₂ h₂ => ⟨h₂.1.trans hlog, ?_⟩
      show _ = examineMarks hd (parts part) σ.marks
      unfold examineMarks
      rw [if_pos ⟨hused, hmagic.symm⟩, h₂.2]
      show (fun d => if d = _ then formatMarks _ _ (σ₁.marks d) else σ₁.marks d) = _
      rw [hmarks]
  · intro hfree
    refine ⟨?_, ?_⟩
    · rw [List.filter_cons_of_neg (by simpa using hfree), List.filter_nil, List.append_nil]
    · show _ = examineMarks hd (parts part) σ.marks
      unfold examineMarks
      rw [if_neg fun h => hfree h.1]

/-! ## The loops -/

theorem length_diskSlots (hd : DiskNo) : (diskSlots hd).length = 12 := by
  simp [diskSlots]

/-- The slot of a round is that of the pointer, set to `logic_parts` in round 4. -/
theorem getElem_diskSlots (hd : DiskNo) (hk : k < 12) :
    (diskSlots hd)[k]? = some (if k = 4 then .logic hd 0 else pointer hd k) := by
  unfold diskSlots pointer
  by_cases hprim : k < 4
  · rw [List.getElem?_append_left (by simpa using hprim), if_neg (by omega), if_pos (by omega)]
    simp [hprim]
  · have hlogic : k - 4 < 8 := by omega
    rw [List.getElem?_append_right (by simpa using hprim)]
    by_cases hfour : k = 4
    · rw [if_pos hfour]
      simp [hfour]
    · rw [if_neg hfour, if_neg (by omega)]
      simp [hlogic]

/-- The pointer moves on. -/
theorem next_pointer (hk : k < 12) :
    (if k = 4 then .logic hd 0 else pointer hd k).next = pointer hd (k + 1) := by
  unfold pointer
  by_cases hprim : k < 4
  · rw [if_neg (by omega), if_pos (by omega), if_pos (by omega)]
    rfl
  · rw [if_neg (by omega : ¬k + 1 ≤ 4)]
    by_cases hfour : k = 4
    · rw [if_pos hfour, hfour]
      rfl
    · have hsub : k - 4 + 1 = k + 1 - 4 := by omega
      rw [if_neg hfour, if_neg (by omega)]
      show PartSlot.logic hd (k - 4 + 1) = _
      rw [hsub]

/-- From round `k` on, the innermost loop goes over the partitions that are left. -/
theorem partLoop_rounds : Ensures (partLoop pad parts hd left k (pointer hd k)) σ fun k' σ' =>
    Rounds parts hd ((diskSlots hd).drop k) σ σ' ∧ k' = max k 12 := by
  induction left generalizing k σ with
  | zero => exact True.intro
  | succ left ih =>
      unfold partLoop
      rw [Ensures, Wp.ite]
      constructor
      · intro hk
        obtain ⟨hlen, hslot⟩ := List.getElem?_eq_some_iff.mp (getElem_diskSlots hd hk)
        simp only [Wp.ite]
        refine ⟨fun _ => ?_, fun _ => True.intro⟩
        rw [Wp.bind, next_pointer hk, ← hslot]
        refine examinePart_rounds.call fun _ σ₁ h₁ => ih.call fun k' σ' h => ?_
        rw [List.drop_eq_getElem_cons hlen]
        exact ⟨Rounds.append h₁ h.1, by omega⟩
      · intro hk
        rw [Wp.pure, List.drop_eq_nil_of_le (by rw [length_diskSlots]; omega)]
        exact ⟨Rounds.nil, by omega⟩

/-- The bound on the number of rounds is not reached. -/
theorem partLoop_enough (hleft : 0 < left) (h : 12 < left + k) :
    partLoop pad parts hd (left + 1) k part = partLoop pad parts hd left k part := by
  induction left generalizing k part with
  | zero => omega
  | succ left ih =>
      unfold partLoop
      by_cases hk : k < 12
      · have hstep : ∀ p, partLoop pad parts hd (left + 1) (k + 1) p =
            partLoop pad parts hd left (k + 1) p := fun p => ih (by omega) (by omega)
        simp only [if_pos hk, hstep]
      · rw [if_neg hk, if_neg hk]

theorem searchChannel_first : Ensures (searchChannel pad parts 0 0) σ fun k σ' =>
    Rounds parts 1 (diskSlots 1) σ σ' ∧ k = 12 := by
  show Ensures (pure 0 >>= fun k => searchDisk pad parts 0 1 k >>= fun k => pure k) σ _
  rw [Ensures, Wp.bind, Wp.pure, Wp.bind]
  have hloop : Ensures (partLoop pad parts 1 13 0 (pointer 1 0)) σ _ := partLoop_rounds
  exact hloop.call fun k σ' h => ⟨h.1, h.2⟩

/-- With `part_idx` at 12 there is no round. -/
theorem searchChannel_second : Ensures (searchChannel pad parts 1 12) σ fun _ σ' => σ' = σ := by
  show Ensures (pure 12 >>= fun k => searchDisk pad parts 1 1 k >>= fun k => pure k) σ _
  rw [Ensures, Wp.bind, Wp.pure, Wp.bind]
  exact rfl

/-- The loops go over the partitions of the second disk of the first channel only. -/
theorem searchFilesystems_rounds {channelCnt : Nat} (h : channelCnt ≤ 2) :
    Ensures (searchFilesystems pad parts channelCnt) σ fun _ σ' =>
      Rounds parts 1 (if 0 < channelCnt then diskSlots 1 else []) σ σ' := by
  have hcases : channelCnt = 0 ∨ channelCnt = 1 ∨ channelCnt = 2 := by omega
  rcases hcases with rfl | rfl | rfl
  · exact Rounds.nil
  · show Ensures (searchChannel pad parts 0 0 >>= fun k => pure k) σ _
    rw [Ensures, Wp.bind]
    exact searchChannel_first.call fun k σ' h => h.1
  · show Ensures (searchChannel pad parts 0 0 >>= fun k => searchChannel pad parts 1 k >>= fun k =>
      pure k) σ _
    rw [Ensures, Wp.bind]
    refine searchChannel_first.call fun k σ₁ h₁ => ?_
    rw [h₁.2, Wp.bind]
    refine searchChannel_second.call fun _ σ₂ h₂ => ?_
    rw [Wp.pure, h₂]
    exact h₁.1

/-! ## What the search leaves behind -/

/-- Every partition on the second disks was examined, and its super block carries the magic
number. -/
def FilesysRight (parts : PartSlot → PartInfo) (channelCnt : Nat) (σ : SearchState) : Prop :=
  ∀ channelNo, channelNo < channelCnt → ∀ slot ∈ diskSlots (channelNo * 2 + 1),
    (parts slot).secCnt ≠ 0 → slot ∈ σ.examined ∧
      wordAt (σ.disks (channelNo * 2 + 1)) (sectorOff ((parts slot).startLba + 1)) = 0x20050102

instance (channelCnt : Nat) : Decidable (FilesysRight parts channelCnt σ) :=
  inferInstanceAs (Decidable (∀ channelNo, channelNo < channelCnt → _))

/-- Only the first channel has partitions on its second disk. -/
def LaterEmpty (parts : PartSlot → PartInfo) (channelCnt : Nat) : Prop :=
  ∀ channelNo, channelNo < channelCnt → 0 < channelNo →
    ∀ slot ∈ diskSlots (channelNo * 2 + 1), (parts slot).secCnt = 0

instance (channelCnt : Nat) : Decidable (LaterEmpty parts channelCnt) :=
  inferInstanceAs (Decidable (∀ channelNo, channelNo < channelCnt → _))

/-- With the marks `m` in front of the rounds, no super block of the first channel's second disk
is lost to a partition that is formatted later. -/
def MarksKept (parts : PartSlot → PartInfo) (channelCnt : Nat) (m : Marks) : Prop :=
  0 < channelCnt → ∀ slot ∈ diskSlots 1, (parts slot).secCnt ≠ 0 →
    (diskSlots 1).foldl (fun m s => examineMarks 1 (parts s) m) m 1
      ((parts slot).startLba + 1) = true

instance (channelCnt : Nat) (m : Marks) : Decidable (MarksKept parts channelCnt m) :=
  inferInstanceAs (Decidable (0 < channelCnt → _))

/-- Partitions that name their disk, none of which is formatted over the super block of an earlier
one. -/
structure SlotsApart (parts : PartSlot → PartInfo) (hd : DiskNo) (slots : List PartSlot) :
    Prop where
  own : ∀ s ∈ slots, (parts s).secCnt ≠ 0 → (parts s).myDisk = hd
  apart : slots.Pairwise fun s s' => (parts s).secCnt ≠ 0 → (parts s').secCnt ≠ 0 →
    ¬FormatHits (parts s').startLba (parts s').secCnt ((parts s).startLba + 1)

/-- A round marks the super block of its partition. -/
theorem examineMarks_self (m : Marks) (hused : info.secCnt ≠ 0) (hown : info.myDisk = hd) :
    examineMarks hd info m hd (info.startLba + 1) = true := by
  unfold examineMarks
  cases hm : m hd (info.startLba + 1) with
  | false =>
      rw [if_pos ⟨hused, rfl⟩]
      show (if hd = info.myDisk then formatMarks info.startLba info.secCnt (m hd) else m hd) _ =
        true
      rw [if_pos hown.symm]
      exact if_pos rfl
  | true =>
      rw [if_neg fun h => Bool.noConfusion h.2]
      exact hm

theorem examineMarks_other {m : Marks} {lba : UInt32} (hm : m hd lba = true)
    (h : info.secCnt ≠ 0 → ¬FormatHits info.startLba info.secCnt lba) :
    examineMarks hd info m hd lba = true := by
  unfold examineMarks
  split
  · rename_i hround
    show (if hd = info.myDisk then formatMarks info.startLba info.secCnt (m hd) else m hd) lba =
      true
    by_cases hown : hd = info.myDisk
    · rw [if_pos hown]
      unfold formatMarks
      rw [if_neg (h hround.1), hm]
      simp
    · rw [if_neg hown]
      exact hm
  · exact hm

theorem foldl_examineMarks_other {m : Marks} {lba : UInt32} (hm : m hd lba = true)
    (h : ∀ s ∈ slots, (parts s).secCnt ≠ 0 →
      ¬FormatHits (parts s).startLba (parts s).secCnt lba) :
    slots.foldl (fun m s => examineMarks hd (parts s) m) m hd lba = true := by
  induction slots generalizing m with
  | nil => exact hm
  | cons s slots ih =>
      rw [List.foldl_cons]
      exact ih (examineMarks_other hm (h s List.mem_cons_self))
        fun s' hs' => h s' (List.mem_cons_of_mem s hs')

theorem SlotsApart.foldl (h : SlotsApart parts hd slots) (m : Marks) :
    ∀ s ∈ slots, (parts s).secCnt ≠ 0 →
      slots.foldl (fun m s => examineMarks hd (parts s) m) m hd ((parts s).startLba + 1) =
        true := by
  induction slots generalizing m with
  | nil => simp
  | cons s slots ih =>
      obtain ⟨hhead, htail⟩ := List.pairwise_cons.mp h.apart
      have hrest : SlotsApart parts hd slots :=
        ⟨fun s' hs' => h.own s' (List.mem_cons_of_mem s hs'), htail⟩
      intro s' hs' hused
      rw [List.foldl_cons]
      rcases List.mem_cons.mp hs' with hself | hin
      · rw [hself] at hused ⊢
        have hown := h.own s List.mem_cons_self hused
        exact foldl_examineMarks_other (examineMarks_self m hused hown)
          fun s'' hs'' => hhead s'' hs'' hused
      · exact ih hrest _ s' hin hused

/-- Partitions that do not overlap keep their super blocks, whatever is on the disk. -/
theorem marksKept_of_apart (h : SlotsApart parts 1 (diskSlots 1)) (channelCnt : Nat) (m : Marks) :
    MarksKept parts channelCnt m :=
  fun _ => h.foldl m

theorem hd_of_mem_diskSlots {hd' : DiskNo} (h : part ∈ diskSlots hd) (h' : part ∈ diskSlots hd') :
    hd = hd' := by
  unfold diskSlots at h h'
  rw [List.mem_append, List.mem_map, List.mem_map] at h h'
  rcases h with ⟨i, -, rfl⟩ | ⟨i, -, rfl⟩
  · have hin : i < 4 ∧ hd' = hd := by simpa using h'
    exact hin.2.symm
  · have hin : i < 8 ∧ hd' = hd := by simpa using h'
    exact hin.2.symm

/-- When the loops are done, the partitions are examined and have their super blocks exactly when
the second channel has no partition there and no super block was lost. -/
theorem searchFilesystems_right_iff {channelCnt : Nat} (h : channelCnt ≤ 2)
    (hlog : σ.examined = []) :
    Ensures (searchFilesystems pad parts channelCnt) σ fun _ σ' =>
      (FilesysRight parts channelCnt σ' ↔
        LaterEmpty parts channelCnt ∧ MarksKept parts channelCnt σ.marks) := by
  refine (searchFilesystems_rounds h).call fun _ σ' hrounds => ?_
  constructor
  · intro hright
    constructor
    · intro channelNo hlt hpos slot hslot
      by_contra hused
      have hmem := (hright channelNo hlt slot hslot hused).1
      rw [hrounds.examined, hlog, List.nil_append, if_pos (by omega), List.mem_filter] at hmem
      have hdisk : channelNo * 2 + 1 = 1 := hd_of_mem_diskSlots hslot hmem.1
      omega
    · intro hpos slot hslot hused
      have hmark := (hright 0 hpos slot hslot hused).2
      have hmarks := hrounds.marks
      rw [if_pos hpos] at hmarks
      rw [← hmarks]
      exact decide_eq_true hmark
  · intro ⟨hempty, hkept⟩ channelNo hlt slot hslot hused
    have hfirst : channelNo = 0 := by
      by_contra hne
      exact hused (hempty channelNo hlt (by omega) slot hslot)
    have hpos : 0 < channelCnt := by omega
    have hmarks := hrounds.marks
    have hexamined := hrounds.examined
    rw [if_pos hpos] at hmarks hexamined
    rw [hfirst] at hslot ⊢
    constructor
    · rw [hexamined]
      exact List.mem_append_right _ (List.mem_filter.mpr ⟨hslot, by simpa using hused⟩)
    · have hmark := hkept hpos slot hslot hused
      rw [← hmarks] at hmark
      exact of_decide_eq_true hmark

/-- Two channels with one partition, on the second disk of the first. -/
def firstParts (slot : PartSlot) : PartInfo :=
  if slot = .prim 1 0 then ⟨2048, 8192, 1, partName 1 1⟩ else ⟨0, 0, 0, []⟩

/-- Two channels with one partition, on the second disk of the second. -/
def secondParts (slot : PartSlot) : PartInfo :=
  if slot = .prim 3 0 then ⟨2048, 8192, 3, partName 3 1⟩ else ⟨0, 0, 0, []⟩

def blankSearch : SearchState where
  kernel := idleState (emptyPart 2048 8192)
  disks _ _ := 0
  examined := []

/-- The partition of the first channel gets its file system. -/
theorem searchFilesystems_right_first :
    Returns (searchFilesystems (fun _ _ => 0) firstParts 2) blankSearch fun _ σ' =>
      FilesysRight firstParts 2 σ' := by
  have hrun : Returns (searchFilesystems (fun _ _ => 0) firstParts 2) blankSearch
      fun _ _ => True := by decide +kernel
  have hlog : blankSearch.examined = [] := rfl
  have hkept : MarksKept firstParts 2 blankSearch.marks := by decide +kernel
  generalize blankSearch = σ at hrun hlog hkept ⊢
  exact (hrun.and (searchFilesystems_right_iff (Nat.le_refl 2) hlog)).call fun _ _ h =>
    h.2.mpr ⟨by decide +kernel, hkept⟩

/-- The partition of the second channel is not looked at. -/
theorem searchFilesystems_second_missed :
    Returns (searchFilesystems (fun _ _ => 0) secondParts 2) blankSearch fun _ σ' =>
      ¬FilesysRight secondParts 2 σ' := by
  decide +kernel

end

end OsTruth
