/-
What `delete_dir_entry` does to a well-formed directory.

The function looks for the slot with the inode number, block by block, and counts the
entries of the block on the way.  A block that held only this entry goes, unless it is the
first one, and with the last indirect block goes the table; in any other block the slot is
zeroed.  `EntryGone` says what each of these leaves.
-/
import OsTruth.Fs.DirInstall
import OsTruth.Fs.DirRead
import OsTruth.Fs.Release

namespace OsTruth

open ByteString Fallible

/-! ## The scan of a block -/

namespace DirEntry

/-- The entry `.`, which marks the first block. -/
def IsDot (e : DirEntry) : Prop := e.fType ≠ FileType.unknown.code ∧ e.name = [dot]

def Counts (e : DirEntry) : Prop :=
  e.fType ≠ FileType.unknown.code ∧ e.name ≠ [dot] ∧ e.name ≠ [dot, dot]

instance (e : DirEntry) : Decidable e.IsDot := inferInstanceAs (Decidable (_ ∧ _))

instance (e : DirEntry) : Decidable e.Counts := inferInstanceAs (Decidable (_ ∧ _ ∧ _))

end DirEntry

/-- What the scan of `left` slots from slot `idx` on makes of `r`. -/
structure Scanned (b : Bytes) (n : UInt32) (left idx : Nat) (r r' : SlotScan) : Prop where
  first : r'.isDirFirstBlock = true ↔
    r.isDirFirstBlock = true ∨ ∃ j, idx ≤ j ∧ j < idx + left ∧ (slotAt b j).IsDot
  cnt : r'.dirEntryCnt =
    r.dirEntryCnt + (List.range' idx left).countP fun j => (slotAt b j).Counts
  found : ∀ j, r'.dirEntryFound = some j ↔ r.dirEntryFound = some j ∨
    idx ≤ j ∧ j < idx + left ∧ (slotAt b j).Counts ∧ (slotAt b j).iNo = n

section

variable {b : Bytes} {n : UInt32} {left idx : Nat} {r r' r'' : SlotScan}

theorem Scanned.refl (b : Bytes) (n : UInt32) (idx : Nat) (r : SlotScan) :
    Scanned b n 0 idx r r where
  first := by
    refine (or_iff_left ?_).symm
    rintro ⟨j, h₁, h₂, -⟩
    omega
  cnt := rfl
  found j := by
    refine (or_iff_left ?_).symm
    rintro ⟨h₁, h₂, -⟩
    omega

/-- One slot and then the others. -/
theorem Scanned.cons (h : Scanned b n 1 idx r r') (h' : Scanned b n left (idx + 1) r' r'') :
    Scanned b n (left + 1) idx r r'' where
  first := by
    rw [h'.first, h.first, or_assoc]
    refine or_congr_right ?_
    constructor
    · rintro (⟨j, h₁, h₂, hj⟩ | ⟨j, h₁, h₂, hj⟩)
      · exact ⟨j, h₁, by omega, hj⟩
      · exact ⟨j, by omega, by omega, hj⟩
    · rintro ⟨j, h₁, h₂, hj⟩
      by_cases heq : j = idx
      · exact Or.inl ⟨j, h₁, by omega, hj⟩
      · exact Or.inr ⟨j, by omega, by omega, hj⟩
  cnt := by
    rw [h'.cnt, h.cnt, List.range'_succ, List.countP_cons]
    simp only [List.range'_succ, List.range'_zero, List.countP_cons, List.countP_nil]
    omega
  found j := by
    rw [h'.found, h.found, or_assoc]
    refine or_congr_right ?_
    constructor
    · rintro (⟨h₁, h₂, hj⟩ | ⟨h₁, h₂, hj⟩)
      · exact ⟨h₁, by omega, hj⟩
      · exact ⟨by omega, by omega, hj⟩
    · rintro ⟨h₁, h₂, hj⟩
      by_cases heq : j = idx
      · exact Or.inl ⟨h₁, by omega, hj⟩
      · exact Or.inr ⟨by omega, by omega, hj⟩

/-- One slot.  The assertion holds as long as the slot is not a second one with the number. -/
theorem scanSlot_scanned (hone : r.dirEntryFound ≠ none →
    ¬((slotAt b idx).Counts ∧ (slotAt b idx).iNo = n)) :
    ∃ r', scanSlot n (slotAt b idx) idx r = .ok r' ∧ Scanned b n 1 idx r r' := by
  have hrange : ∀ P : DirEntry → Prop, (∃ j, idx ≤ j ∧ j < idx + 1 ∧ P (slotAt b j)) ↔
      P (slotAt b idx) := by
    intro P
    constructor
    · rintro ⟨j, h₁, h₂, hj⟩
      rwa [show j = idx by omega] at hj
    · exact fun h => ⟨idx, Nat.le_refl idx, by omega, h⟩
  have hplace : ∀ (j : Nat) (P : DirEntry → Prop), idx ≤ j ∧ j < idx + 1 ∧ P (slotAt b j) ↔
      j = idx ∧ P (slotAt b idx) := by
    intro j P
    constructor
    · rintro ⟨h₁, h₂, hj⟩
      have heq : j = idx := by omega
      exact ⟨heq, heq ▸ hj⟩
    · rintro ⟨rfl, h⟩
      exact ⟨Nat.le_refl j, by omega, h⟩
  have hstep : ∀ r', (r'.isDirFirstBlock = true ↔
      r.isDirFirstBlock = true ∨ (slotAt b idx).IsDot) →
      r'.dirEntryCnt = r.dirEntryCnt + (if (slotAt b idx).Counts then 1 else 0) →
      (∀ j, r'.dirEntryFound = some j ↔ r.dirEntryFound = some j ∨
        j = idx ∧ (slotAt b idx).Counts ∧ (slotAt b idx).iNo = n) → Scanned b n 1 idx r r' := by
    intro r' hfirst hcnt hfound
    refine ⟨?_, ?_, fun j => ?_⟩
    · rw [hfirst, hrange]
    · rw [hcnt]
      simp [List.range'_succ, List.countP_cons]
    · rw [hfound, hplace j fun e => e.Counts ∧ e.iNo = n]
  unfold scanSlot
  by_cases hdead : (slotAt b idx).fType = FileType.unknown.code
  · rw [if_pos hdead]
    refine ⟨r, rfl, hstep r ?_ ?_ fun j => ?_⟩
    · simp [DirEntry.IsDot, hdead]
    · simp [DirEntry.Counts, hdead]
    · simp [DirEntry.Counts, hdead]
  rw [if_neg hdead]
  by_cases hdot : (slotAt b idx).name = [dot]
  · rw [if_pos hdot]
    refine ⟨_, rfl, hstep _ ?_ ?_ fun j => ?_⟩
    · simp [DirEntry.IsDot, hdead, hdot]
    · simp [DirEntry.Counts, hdot]
    · simp [DirEntry.Counts, hdot]
  rw [if_neg hdot]
  by_cases hparent : (slotAt b idx).name = [dot, dot]
  · rw [if_pos hparent]
    refine ⟨r, rfl, hstep r ?_ ?_ fun j => ?_⟩
    · simp [DirEntry.IsDot, hdot]
    · simp [DirEntry.Counts, hparent]
    · simp [DirEntry.Counts, hparent]
  have hcounts : (slotAt b idx).Counts := ⟨hdead, hdot, hparent⟩
  rw [if_neg hparent]
  by_cases hno : (slotAt b idx).iNo = n
  · have hnone : r.dirEntryFound = none := by
      by_contra h
      exact hone h ⟨hcounts, hno⟩
    rw [if_pos hno, assert, if_pos hnone]
    refine ⟨_, rfl, hstep _ ?_ ?_ fun j => ?_⟩
    · simp [DirEntry.IsDot, hdot]
    · simp [hcounts]
    · simp [hcounts, hno, hnone, eq_comm]
  · rw [if_neg hno]
    refine ⟨_, rfl, hstep _ ?_ ?_ fun j => ?_⟩
    · simp [DirEntry.IsDot, hdot]
    · simp [hcounts]
    · simp [hno]

/-- The scan of a block in which at most one slot carries the number. -/
theorem scanSlots_scanned (left idx : Nat) (r : SlotScan)
    (hone : ∀ j j', idx ≤ j → j < idx + left → idx ≤ j' → j' < idx + left →
      (slotAt b j).Counts ∧ (slotAt b j).iNo = n → (slotAt b j').Counts ∧ (slotAt b j').iNo = n →
        j = j')
    (hfound : r.dirEntryFound ≠ none → ∀ j, idx ≤ j → j < idx + left →
      ¬((slotAt b j).Counts ∧ (slotAt b j).iNo = n)) :
    ∃ r', scanSlots b n left idx r = .ok r' ∧ Scanned b n left idx r r' := by
  induction left generalizing idx r with
  | zero => exact ⟨r, rfl, .refl b n idx r⟩
  | succ left ih =>
      obtain ⟨r₁, hr₁, h₁⟩ := scanSlot_scanned fun h => hfound h idx (Nat.le_refl idx) (by omega)
      have hnext : r₁.dirEntryFound ≠ none → ∀ j, idx + 1 ≤ j → j < idx + 1 + left →
          ¬((slotAt b j).Counts ∧ (slotAt b j).iNo = n) := by
        intro hsome j hle hlt hj
        obtain ⟨l, hl⟩ := Option.ne_none_iff_exists'.mp hsome
        rcases (h₁.found l).mp hl with hold | ⟨hl₁, hl₂, hcarries⟩
        · exact hfound (by simp [hold]) j (by omega) (by omega) hj
        · have heq := hone l j (by omega) (by omega) (by omega) (by omega) hcarries hj
          omega
      obtain ⟨r₂, hr₂, h₂⟩ := ih (idx + 1) r₁
        (fun j j' hj₁ hj₂ hj₁' hj₂' => hone j j' (by omega) (by omega) (by omega) (by omega)) hnext
      refine ⟨r₂, ?_, h₁.cons h₂⟩
      rw [scanSlots, hr₁]
      exact hr₂

end

/-! ## The directory -/

/-- The blocks of a directory are different data blocks in use, and `.` and `..` are in the
first block and in no other. -/
structure DirPlaced (part : Partition) (disk : Bytes) (i : Inode) : Prop where
  map : BlockMapOk part disk i
  self : ∃ l, LiveSlot disk i 0 l ∧ (entryIn disk i (0, l)).name = [dot]
  parent : ∃ l, LiveSlot disk i 0 l ∧ (entryIn disk i (0, l)).name = [dot, dot]
  first : ∀ m l, LiveSlot disk i m l → (entryIn disk i (m, l)).name = [dot] ∨
    (entryIn disk i (m, l)).name = [dot, dot] → m = 0

/-- A well-formed directory: `i_size` counts the live entries. -/
structure DirWell (part : Partition) (disk : Bytes) (i : Inode) : Prop
    extends DirPlaced part disk i where
  size : i.iSize.toNat = dirEntrySize * (liveSlots disk i).length

/-- Exactly one live entry other than `.` and `..` carries the number `n`: that in slot `j`
of block `k`. -/
structure Sole (disk : Bytes) (i : Inode) (n : UInt32) (k j : Nat) : Prop where
  slot : LiveSlot disk i k j
  counts : (entryIn disk i (k, j)).Counts
  number : (entryIn disk i (k, j)).iNo = n
  only : ∀ m l, LiveSlot disk i m l → (entryIn disk i (m, l)).Counts →
    (entryIn disk i (m, l)).iNo = n → m = k ∧ l = j

/-- Block `k` holds no other live entry than slot `j`, and is not the first. -/
def Alone (disk : Bytes) (i : Inode) (k j : Nat) : Prop :=
  k ≠ 0 ∧ ∀ l, LiveSlot disk i k l → l = j

def LastIndirect (disk : Bytes) (i : Inode) (k : Nat) : Prop :=
  12 ≤ k ∧ ∀ m, 12 ≤ m → m < 140 → allBlocksOf disk i m ≠ 0 → m = k

def GivenBack (disk : Bytes) (i : Inode) (k j : Nat) (lba : UInt32) : Prop :=
  Alone disk i k j ∧ (lba = allBlocksOf disk i k ∨ LastIndirect disk i k ∧ lba = i.sector 12)

/-- From `s` with the directory inode `i` to `t` with `i'` the entry in slot `j` of block `k`
is gone, and with it what was given back. -/
structure EntryGone (s t : State) (i i' : Inode) (k j : Nat) : Prop where
  gone : Alone s.disk i k j → allBlocksOf t.disk i' k = 0
  map : ∀ m, ¬(m = k ∧ Alone s.disk i k j) → allBlocksOf t.disk i' m = allBlocksOf s.disk i m
  zero : ¬Alone s.disk i k j → entryIn t.disk i' (k, j) = .zero
  slot : ∀ m l, m < 140 → l < dirEntrysPerSec → allBlocksOf t.disk i' m ≠ 0 → ¬(m = k ∧ l = j) →
    entryIn t.disk i' (m, l) = entryIn s.disk i (m, l)
  dropped : Alone s.disk i k j → LastIndirect s.disk i k → i'.sector 12 = 0
  table : ¬(Alone s.disk i k j ∧ LastIndirect s.disk i k) → i'.sector 12 = i.sector 12
  bit : ∀ b, t.part.blockBitmap.bit b = true ↔ s.part.blockBitmap.bit b = true ∧
    ¬∃ lba, GivenBack s.disk i k j lba ∧ BitOf s.part lba b
  disk : ∀ lba, s.part.sb.dataStartLba ≤ lba → lba ≠ allBlocksOf s.disk i k →
    lba ≠ i.sector 12 → SameBlock s.disk t.disk lba

/-! ## The search -/

/-- A list without repetition has one element with the property when all with it are equal. -/
theorem countP_eq_one_iff {l : List Nat} {P : Nat → Bool} {j : Nat} (hl : l.Nodup) (hj : j ∈ l)
    (hP : P j = true) : l.countP P = 1 ↔ ∀ m, m ∈ l → P m = true → m = j := by
  obtain ⟨front, back, rfl⟩ := List.append_of_mem hj
  have hcount : (front ++ j :: back).countP P = front.countP P + (back.countP P + 1) := by
    rw [List.countP_append, List.countP_cons_of_pos hP]
  rw [hcount]
  constructor
  · intro h m hm hPm
    have hfront : front.countP P = 0 := by omega
    have hback : back.countP P = 0 := by omega
    rcases List.mem_append.mp hm with hm | hm
    · exact absurd hPm (List.countP_eq_zero.mp hfront m hm)
    · rcases List.mem_cons.mp hm with rfl | hm
      · rfl
      · exact absurd hPm (List.countP_eq_zero.mp hback m hm)
  · intro h
    rw [List.nodup_append, List.nodup_cons] at hl
    have hfront : front.countP P = 0 := by
      refine List.countP_eq_zero.mpr fun m hm hPm => ?_
      have heq := h m (List.mem_append_left _ hm) hPm
      exact hl.2.2 m hm j List.mem_cons_self heq
    have hback : back.countP P = 0 := by
      refine List.countP_eq_zero.mpr fun m hm hPm => ?_
      have heq := h m (List.mem_append_right _ (List.mem_cons_of_mem j hm)) hPm
      exact hl.2.1.1 (heq ▸ hm)
    omega

section

variable {s t : State} {p : Ptr} {i i' : Inode} {n : UInt32} {k j : Nat}

/-- The buffer of `delete_dir_entry` with the block in sector `lba`. -/
def blockBuf (disk : Bytes) (lba : UInt32) : Buf :=
  ⟨1024, splice (fun _ => 0) 0 (512 * 1) (view disk (sectorOff lba))⟩

/-- The result of the scan of the block with the entry. -/
theorem Scanned.counted (hw : DirPlaced s.part s.disk i) (h : Sole s.disk i n k j) {r : SlotScan}
    (hr : Scanned (blockBuf s.disk (allBlocksOf s.disk i k)).data n dirEntrysPerSec 0
      ⟨false, 0, none⟩ r) :
    1 ≤ r.dirEntryCnt ∧ ((r.dirEntryCnt = 1 ∧ r.isDirFirstBlock = false) ↔
      Alone s.disk i k j) := by
  have hslot : ∀ l, l < dirEntrysPerSec →
      slotAt (blockBuf s.disk (allBlocksOf s.disk i k)).data l = entryIn s.disk i (k, l) :=
    fun l hl => slotAt_read s.disk _ hl
  obtain ⟨hk, hj, hne, -⟩ := h.slot
  have hmem : ∀ l, l ∈ List.range' 0 dirEntrysPerSec ↔ l < dirEntrysPerSec := by
    intro l
    rw [List.mem_range'_1]
    omega
  have hcnt := hr.cnt
  rw [Nat.zero_add] at hcnt
  have hPj : decide (slotAt (blockBuf s.disk (allBlocksOf s.disk i k)).data j).Counts = true := by
    rw [hslot j hj]
    exact decide_eq_true h.counts
  have hone := countP_eq_one_iff (P := fun l =>
    decide (slotAt (blockBuf s.disk (allBlocksOf s.disk i k)).data l).Counts)
    (List.nodup_range' 1) ((hmem j).mpr hj) hPj
  have hfirst : r.isDirFirstBlock = false ↔ k ≠ 0 := by
    rw [← Bool.not_eq_true, hr.first]
    constructor
    · rintro h' rfl
      obtain ⟨l, hl, hname⟩ := hw.self
      refine h' (Or.inr ⟨l, Nat.zero_le l, by rw [Nat.zero_add]; exact hl.2.1, ?_⟩)
      rw [hslot l hl.2.1]
      exact ⟨hl.2.2.2, hname⟩
    · intro hk0 h'
      rcases h' with h' | ⟨l, -, hl, hdot⟩
      · cases h'
      · rw [Nat.zero_add] at hl
        rw [hslot l hl] at hdot
        exact hk0 (hw.first k l ⟨hk, hl, hne, hdot.1⟩ (Or.inl hdot.2))
  constructor
  · rw [hcnt, Nat.succ_le_iff, List.countP_pos_iff]
    exact ⟨j, (hmem j).mpr hj, hPj⟩
  · rw [hcnt, hone, hfirst, and_comm]
    refine and_congr_right fun hk0 => ?_
    constructor
    · intro hall l hl
      refine hall l ((hmem l).mpr hl.2.1) ?_
      rw [hslot l hl.2.1]
      refine decide_eq_true ⟨hl.2.2.2, fun hd => hk0 (hw.first k l hl (Or.inl hd)),
        fun hd => hk0 (hw.first k l hl (Or.inr hd))⟩
    · intro hall l hl hcounts
      rw [hmem] at hl
      rw [hslot l hl] at hcounts
      exact hall l ⟨hk, hl, hne, (of_decide_eq_true hcounts).1⟩

theorem wp_ideRead_block {lba : UInt32} (hsel : Selectable lba 1) {F : Fault → Prop}
    {Q : Buf → State → Prop} :
    Wp (ideRead lba (.zero 1024) 1) s F Q ↔ Q (blockBuf s.disk lba) s := by
  have hsize : 512 * 1 ≤ 1024 := by decide
  rw [wp_ideRead]
  refine (and_iff_left fun hns => absurd hsel hns).trans ((forall_prop_of_true hsel).trans ?_)
  exact (and_iff_left fun hns => absurd hsize hns).trans (forall_prop_of_true hsize)

/-- The round of the loop at a block in which at most one slot carries the number. -/
theorem wp_deleteBlocks_block (hmap : BlockMapOk s.part s.disk i) (hk : k < 140)
    (hne : allBlocksOf s.disk i k ≠ 0)
    (hone : ∀ l l', LiveSlot s.disk i k l → (entryIn s.disk i (k, l)).Counts →
      (entryIn s.disk i (k, l)).iNo = n → LiveSlot s.disk i k l' →
        (entryIn s.disk i (k, l')).Counts → (entryIn s.disk i (k, l')).iNo = n → l = l') :
    ∃ r, Scanned (blockBuf s.disk (allBlocksOf s.disk i k)).data n dirEntrysPerSec 0
      ⟨false, 0, none⟩ r ∧ ∀ (left : Nat) (F : Fault → Prop) (Q : Bool → State → Prop),
        (r.dirEntryFound = none →
          (Wp (deleteBlocks p n (allBlocksOf s.disk i) (left + 1) k) s F Q ↔
            Wp (deleteBlocks p n (allBlocksOf s.disk i) left (k + 1)) s F Q)) ∧
        ∀ l, r.dirEntryFound = some l →
          (Wp (deleteBlocks p n (allBlocksOf s.disk i) (left + 1) k) s F Q ↔
            Wp (deleteFound p (allBlocksOf s.disk i) k
              (blockBuf s.disk (allBlocksOf s.disk i k)) r l) s F fun _ t => Q true t) := by
  obtain ⟨-, -, -, -, hsel⟩ := hmap.used _ ⟨hne, Or.inr ⟨k, hk, rfl⟩⟩
  have hslot : ∀ l, l < 0 + dirEntrysPerSec →
      slotAt (blockBuf s.disk (allBlocksOf s.disk i k)).data l = entryIn s.disk i (k, l) :=
    fun l hl => slotAt_read s.disk _ (by rwa [Nat.zero_add] at hl)
  have hlive : ∀ l, l < 0 + dirEntrysPerSec → (entryIn s.disk i (k, l)).Counts →
      LiveSlot s.disk i k l :=
    fun l hl hcounts => ⟨hk, by rwa [Nat.zero_add] at hl, hne, hcounts.1⟩
  obtain ⟨r, hscan, hr⟩ := scanSlots_scanned (n := n)
    (b := (blockBuf s.disk (allBlocksOf s.disk i k)).data) dirEntrysPerSec 0 ⟨false, 0, none⟩
    (fun l l' _ h _ h' hl hl' => by
      rw [hslot l h] at hl
      rw [hslot l' h'] at hl'
      exact hone l l' (hlive l h hl.1) hl.1 hl.2 (hlive l' h' hl'.1) hl'.1 hl'.2)
    (fun hnone => absurd rfl hnone)
  refine ⟨r, hr, fun left F Q => ⟨fun hnone => ?_, fun l hl => ?_⟩⟩
  · rw [deleteBlocks, if_neg hne, Wp.bind, wp_ideRead_block hsel, Wp.bind, hscan, Wp.lift_pure,
      hnone]
  · rw [deleteBlocks, if_neg hne, Wp.bind, wp_ideRead_block hsel, Wp.bind, hscan, Wp.lift_pure, hl]
    exact Wp.bind

/-- The loop gets to the block with the entry. -/
theorem deleteBlocks_returns {Q : State → Prop} (hw : DirPlaced s.part s.disk i)
    (h : Sole s.disk i n k j) (left idx : Nat) (hidx : idx + left = 140) (hle : idx ≤ k)
    (hfound : ∀ r, Scanned (blockBuf s.disk (allBlocksOf s.disk i k)).data n dirEntrysPerSec 0
      ⟨false, 0, none⟩ r → Returns (deleteFound p (allBlocksOf s.disk i) k
        (blockBuf s.disk (allBlocksOf s.disk i k)) r j) s fun _ t => Q t) :
    Returns (deleteBlocks p n (allBlocksOf s.disk i) left idx) s fun r t => r = true ∧ Q t := by
  obtain ⟨hk, hj, hne, -⟩ := h.slot
  induction left generalizing idx with
  | zero => omega
  | succ left ih =>
      have hlt : idx < 140 := by omega
      by_cases hzero : allBlocksOf s.disk i idx = 0
      · rw [deleteBlocks, if_pos hzero]
        refine ih (idx + 1) (by omega) ?_
        by_contra hgt
        exact hne (by rw [show k = idx by omega]; exact hzero)
      obtain ⟨r, hr, hround⟩ := wp_deleteBlocks_block (p := p) (n := n) hw.map hlt hzero
        fun l l' hl hc hno hl' hc' hno' =>
          (h.only idx l hl hc hno).2.trans (h.only idx l' hl' hc' hno').2.symm
      by_cases heq : idx = k
      · rw [heq] at hr hround ⊢
        have hsome : r.dirEntryFound = some j := by
          refine (hr.found j).mpr (Or.inr ⟨Nat.zero_le j, by omega, ?_⟩)
          rw [blockBuf, slotAt_read s.disk _ hj]
          exact ⟨h.counts, h.number⟩
        refine ((hround left _ _).2 j hsome).mpr ?_
        exact (hfound r hr).call fun _ t ht => ⟨rfl, ht⟩
      · have hnone : r.dirEntryFound = none := by
          cases hf : r.dirEntryFound with
          | none => rfl
          | some l =>
              rcases (hr.found l).mp hf with hold | ⟨-, hl, hcounts, hno⟩
              · cases hold
              · rw [Nat.zero_add] at hl
                rw [blockBuf, slotAt_read s.disk _ hl] at hcounts hno
                exact absurd (h.only idx l ⟨hlt, hl, hzero, hcounts.1⟩ hcounts hno).1 heq
        exact ((hround left _ _).1 hnone).mpr (ih (idx + 1) (by omega) (by omega))

/-- Without an entry that carries the number the loop goes through all blocks. -/
theorem deleteBlocks_missing (hmap : BlockMapOk s.part s.disk i)
    (hnone : ∀ m l, LiveSlot s.disk i m l → (entryIn s.disk i (m, l)).Counts →
      (entryIn s.disk i (m, l)).iNo ≠ n) (left idx : Nat) (hidx : idx + left = 140) :
    Returns (deleteBlocks p n (allBlocksOf s.disk i) left idx) s fun r _ => r = false := by
  induction left generalizing idx with
  | zero => exact Wp.pure.mpr rfl
  | succ left ih =>
      have hlt : idx < 140 := by omega
      by_cases hzero : allBlocksOf s.disk i idx = 0
      · rw [deleteBlocks, if_pos hzero]
        exact ih (idx + 1) (by omega)
      obtain ⟨r, hr, hround⟩ := wp_deleteBlocks_block (p := p) (n := n) hmap hlt hzero
        fun l _ hl hc hno => absurd hno (hnone idx l hl hc)
      refine ((hround left _ _).1 ?_).mpr (ih (idx + 1) (by omega))
      cases hf : r.dirEntryFound with
      | none => rfl
      | some l =>
          rcases (hr.found l).mp hf with hold | ⟨-, hl, hcounts, hno⟩
          · cases hold
          · rw [Nat.zero_add] at hl
            rw [blockBuf, slotAt_read s.disk _ hl] at hcounts hno
            exact absurd hno (hnone idx l ⟨hlt, hl, hzero, hcounts.1⟩ hcounts)

end

/-! ## Giving blocks back -/

section

variable {s t : State} {p : Ptr} {i i' : Inode} {n lba : UInt32} {k j b : Nat}

/-- Giving a block back leaves the data area as it is. -/
theorem giveBlock_sameBlock (hm : s.part.Mounted) (hb : b < 8 * s.part.blockBitmap.btmpBytesLen)
    (h : s.part.sb.dataStartLba.toNat ≤ lba.toNat) :
    SameBlock s.disk (s.giveBlock b).disk lba := by
  have h₁ := hm.blockBitmapLen
  have h₂ := hm.inodeBitmapLba
  have h₃ := hm.inodeTableLba
  have h₄ := hm.dataStartLba
  refine sameBlock_splice (Or.inl ?_)
  unfold sectorOff
  omega

theorem giveBlock_mounted (hm : s.part.Mounted) (b : Nat) : (s.giveBlock b).part.Mounted :=
  (Freed.giveBlock s b).mounted hm

/-- How `delete_dir_entry` gives a block in use back. -/
theorem wp_giveBlock {F : Fault → Prop} {Q : Unit → State → Prop} (hm : s.part.Mounted)
    (hb : BitOf s.part lba b) :
    Wp (blockRelease (lba - s.part.sb.dataStartLba)) s F Q ↔ Q () (s.giveBlock b) := by
  have hidx := hb.sub hm
  rw [wp_blockRelease hm (by rw [hidx]; exact hb.1), hidx]

theorem UsedBlock.bitOf (h : UsedBlock s.part lba) : ∃ b, BitOf s.part lba b := by
  obtain ⟨b, hb, heq, -⟩ := h
  exact ⟨b, hb, heq⟩

theorem bitOf_iff (hm : s.part.Mounted) (hb : BitOf s.part lba b) (c : Nat) :
    BitOf s.part lba c ↔ c = b := by
  constructor
  · exact hb.unique hm
  · rintro rfl
    exact hb

theorem countBlocks_eq (allBlocks : BlockArray) (left idx : Nat) :
    countBlocks allBlocks left idx = (List.range' idx left).countP fun m => allBlocks m ≠ 0 := by
  induction left generalizing idx with
  | zero => rfl
  | succ left ih =>
      rw [countBlocks, ih, List.range'_succ, List.countP_cons]
      by_cases h : allBlocks idx = 0
      · simp [h]
      · simp [h]
        omega

/-- The count of `delete_dir_entry` tells whether an indirect block is the last one. -/
theorem countBlocks_indirect (hk : 12 ≤ k) (hk' : k < 140) (hne : allBlocksOf s.disk i k ≠ 0) :
    1 ≤ countBlocks (allBlocksOf s.disk i) 128 12 ∧
      (1 < countBlocks (allBlocksOf s.disk i) 128 12 ↔ ¬LastIndirect s.disk i k) := by
  have hmem : ∀ m, m ∈ List.range' 12 128 ↔ 12 ≤ m ∧ m < 140 := fun m => List.mem_range'_1
  have hP : decide (allBlocksOf s.disk i k ≠ 0) = true := decide_eq_true hne
  have hone := countP_eq_one_iff (P := fun m => decide (allBlocksOf s.disk i m ≠ 0))
    (List.nodup_range' 1) ((hmem k).mpr ⟨hk, hk'⟩) hP
  have hpos : 1 ≤ countBlocks (allBlocksOf s.disk i) 128 12 := by
    rw [countBlocks_eq, Nat.succ_le_iff, List.countP_pos_iff]
    exact ⟨k, (hmem k).mpr ⟨hk, hk'⟩, hP⟩
  have hlast : countBlocks (allBlocksOf s.disk i) 128 12 = 1 ↔ LastIndirect s.disk i k := by
    rw [countBlocks_eq, hone]
    constructor
    · exact fun h => ⟨hk, fun m h₁ h₂ hm => h m ((hmem m).mpr ⟨h₁, h₂⟩) (decide_eq_true hm)⟩
    · exact fun h m hm hPm => h.2 m ((hmem m).mp hm).1 ((hmem m).mp hm).2 (of_decide_eq_true hPm)
  refine ⟨hpos, ?_⟩
  rw [← hlast]
  omega

/-- Without a table there is no indirect block. -/
theorem table_of_indirect (hk : 12 ≤ k) (hne : allBlocksOf s.disk i k ≠ 0) : i.sector 12 ≠ 0 :=
  fun h => hne (allBlocksOf_no_table s.disk hk h)

/-- The last steps of the three ways to give a block back. -/
theorem EntryGone.of_alone (hm : s.part.Mounted) (hw : DirPlaced s.part s.disk i)
    (halone : Alone s.disk i k j) (hgone : allBlocksOf t.disk i' k = 0)
    (hmap : ∀ m, m ≠ k → allBlocksOf t.disk i' m = allBlocksOf s.disk i m)
    (hdropped : LastIndirect s.disk i k → i'.sector 12 = 0)
    (htable : ¬LastIndirect s.disk i k → i'.sector 12 = i.sector 12)
    (hbit : ∀ b, t.part.blockBitmap.bit b = true ↔ s.part.blockBitmap.bit b = true ∧
      ¬(BitOf s.part (allBlocksOf s.disk i k) b ∨
        LastIndirect s.disk i k ∧ BitOf s.part (i.sector 12) b))
    (hdisk : ∀ lba, s.part.sb.dataStartLba ≤ lba → lba ≠ i.sector 12 →
      SameBlock s.disk t.disk lba) : EntryGone s t i i' k j where
  gone _ := hgone
  map m hne := hmap m fun h => hne ⟨h, halone⟩
  zero hnot := absurd halone hnot
  slot m l hm' hl hne _ := by
    have hmk : m ≠ k := by
      rintro rfl
      exact hne hgone
    have hold := hmap m hmk
    rw [hold] at hne
    have hused := hw.map.used _ ⟨hne, Or.inr ⟨m, hm', rfl⟩⟩
    show blockSlot t.disk (allBlocksOf t.disk i' m) l = blockSlot s.disk (allBlocksOf s.disk i m) l
    rw [hold]
    refine (hdisk _ (UInt32.le_iff_toNat_le.mpr (hused.ge_data hm)) fun heq => ?_).blockSlot hl
    by_cases h12 : i.sector 12 = 0
    · exact hne (heq.trans h12)
    · exact hw.map.table m hm' h12 heq
  dropped _ hlast := hdropped hlast
  table hnot := htable fun hlast => hnot ⟨halone, hlast⟩
  bit b := by
    rw [hbit]
    refine and_congr_right fun _ => not_congr ?_
    constructor
    · rintro (hb | ⟨hlast, hb⟩)
      · exact ⟨_, ⟨halone, Or.inl rfl⟩, hb⟩
      · exact ⟨_, ⟨halone, Or.inr ⟨hlast, rfl⟩⟩, hb⟩
    · rintro ⟨lba, ⟨-, rfl | ⟨hlast, rfl⟩⟩, hb⟩
      · exact Or.inl hb
      · exact Or.inr ⟨hlast, hb⟩
  disk lba hge _ hne := hdisk lba hge hne

/-- What `delete_dir_entry` changes besides the disk: the inode of the directory and the
block bitmap. -/
structure DirOnly (s t : State) (p : Ptr) (i' : Inode) : Prop where
  state : t = { s.putInode p (some i') with
    disk := t.disk, part := { s.part with blockBitmap := t.part.blockBitmap } }
  len : t.part.blockBitmap.btmpBytesLen = s.part.blockBitmap.btmpBytesLen

theorem DirOnly.inode (h : DirOnly s t p i') : t.inodes p = some i' := by
  rw [h.state]
  exact if_pos rfl

theorem DirOnly.part (h : DirOnly s t p i') :
    t.part = { s.part with blockBitmap := t.part.blockBitmap } :=
  congrArg State.part h.state

theorem DirOnly.mounted (h : DirOnly s t p i') (hm : s.part.Mounted) : t.part.Mounted := by
  rw [h.part]
  exact { hm with blockBitmapLen := h.len.trans hm.blockBitmapLen }

/-- The inode of the directory is stored once more. -/
theorem DirOnly.put (h : DirOnly s t p i') (i'' : Inode) :
    DirOnly s (t.putInode p (some i'')) p i'' where
  state := by
    refine (congrArg (fun u => State.putInode u p (some i'')) h.state).trans ?_
    show { (s.putInode p (some i')).putInode p (some i'') with
      disk := t.disk, part := { s.part with blockBitmap := t.part.blockBitmap } } = _
    rw [State.putInode_putInode]
    rfl
  len := h.len

theorem DirOnly.store (h : DirOnly s t p i') (off len : Nat) (d : Bytes) :
    DirOnly s (t.store off len d) p i' where
  state := congrArg (fun u => State.store u off len d) h.state
  len := h.len

theorem giveBlock_bit (s : State) (b c : Nat) : (s.giveBlock b).part.blockBitmap.bit c = true ↔
    s.part.blockBitmap.bit c = true ∧ c ≠ b :=
  (Freed.giveBlock s b).bit c

/-- A direct block that held only the entry. -/
theorem unhook_direct (hm : s.part.Mounted) (hi : s.inodes p = some i)
    (hw : DirPlaced s.part s.disk i) (halone : Alone s.disk i k j) (hk : k < 12)
    (hb : BitOf s.part (allBlocksOf s.disk i k) b) :
    Returns (unhookBlock p (allBlocksOf s.disk i) k) (s.giveBlock b) fun _ t =>
      ∃ i', i' = { i with iSectors := i'.iSectors } ∧ DirOnly s t p i' ∧ EntryGone s t i i' k j := by
  have hsector : ∀ m, (i.setSector k 0).sector m = if m = k then 0 else i.sector m :=
    fun m => Inode.sector_setSector i (by omega) 0 m
  have h12 : (i.setSector k 0).sector 12 = i.sector 12 := by
    rw [hsector, if_neg (by omega)]
  have hi' : (s.giveBlock b).inodes p = some i := hi
  have hnot : ¬LastIndirect s.disk i k := fun h => absurd h.1 (by omega)
  unfold unhookBlock
  rw [if_pos hk, Returns, Wp.bind, wp_loadInode_some hi', wp_storeInode_some hi']
  refine ⟨i.setSector k 0, rfl, ⟨rfl, rfl⟩, .of_alone hm hw halone ?_ (fun m hmk => ?_)
    (fun h => absurd h hnot) (fun _ => h12) (fun c => ?_) fun lba hge _ => ?_⟩
  · rw [allBlocksOf_direct _ _ hk, hsector, if_pos rfl]
  · refine allBlocksOf_congr (fun _ => by rw [hsector, if_neg hmk]) h12 fun htable => ?_
    exact giveBlock_sameBlock hm hb.1 ((hw.map.used _ ⟨htable, Or.inl rfl⟩).ge_data hm)
  · refine (giveBlock_bit s b c).trans (and_congr_right fun _ => not_congr ?_)
    rw [← bitOf_iff hm hb c]
    exact (or_iff_left fun h => hnot h.1).symm
  · exact giveBlock_sameBlock hm hb.1 (UInt32.le_iff_toNat_le.mp hge)

/-- The block map once the table was written. -/
theorem allBlocksOf_written {disk : Bytes} (blocks : BlockArray) {m : Nat}
    (h12 : i.sector 12 ≠ 0) (hm : 12 ≤ m) (hm' : m < 140) :
    allBlocksOf (splice disk (sectorOff (i.sector 12)) 512 (ofWords fun l => blocks (12 + l))) i m =
      blocks m := by
  have hback : 12 + (m - 12) = m := by omega
  rw [allBlocksOf_table _ hm hm' h12, wordAt_splice_inside _ (by omega), wordAt_ofWords, hback]

/-- An indirect block that held only the entry, beside others. -/
theorem unhook_indirect (hm : s.part.Mounted) (hi : s.inodes p = some i)
    (hw : DirPlaced s.part s.disk i) (hlive : LiveSlot s.disk i k j) (halone : Alone s.disk i k j)
    (hk : 12 ≤ k) (hnot : ¬LastIndirect s.disk i k)
    (hb : BitOf s.part (allBlocksOf s.disk i k) b) :
    Returns (unhookBlock p (allBlocksOf s.disk i) k) (s.giveBlock b) fun _ t =>
      ∃ i', i' = { i with iSectors := i'.iSectors } ∧ DirOnly s t p i' ∧ EntryGone s t i i' k j := by
  obtain ⟨hk', -, hne, -⟩ := hlive
  obtain ⟨hpos, hmore⟩ := countBlocks_indirect hk hk' hne
  have h12 := table_of_indirect hk hne
  obtain ⟨-, -, -, -, hsel⟩ := hw.map.used _ ⟨h12, Or.inl rfl⟩
  have hi' : (s.giveBlock b).inodes p = some i := hi
  have hself : (s.giveBlock b).putInode p (some i) = s.giveBlock b := State.putInode_self hi
  unfold unhookBlock
  rw [if_neg (by omega), Returns, Wp.bind, wp_kassert]
  refine ⟨fun _ => ?_, fun h => h hpos⟩
  rw [Wp.bind, wp_loadInode_some hi', if_pos (hmore.mpr hnot), wp_ideWriteTable]
  refine ⟨fun _ => ?_, fun h => h hsel⟩
  have hwritten : ∀ m, 12 ≤ m → m < 140 → allBlocksOf ((s.giveBlock b).store
      (sectorOff (i.sector 12)) 512 (ofWords fun l => if 12 + l = k then 0 else
        allBlocksOf s.disk i (12 + l))).disk i m = if m = k then 0 else allBlocksOf s.disk i m :=
    fun m h₁ h₂ => allBlocksOf_written
      (fun m => if m = k then 0 else allBlocksOf s.disk i m) h12 h₁ h₂
  refine ⟨i, rfl, ⟨?_, rfl⟩, .of_alone hm hw halone ?_ (fun m hmk => ?_)
    (fun h => absurd h hnot) (fun _ => rfl) (fun c => ?_) fun lba hge hne' => ?_⟩
  · rw [State.putInode_self hi]
    rfl
  · rw [hwritten k hk hk', if_pos rfl]
  · by_cases hlow : m < 12
    · rw [allBlocksOf_direct _ _ hlow, allBlocksOf_direct _ _ hlow]
    · by_cases hhigh : m < 140
      · rw [hwritten m (by omega) hhigh, if_neg hmk]
      · rw [allBlocksOf_ge _ _ (by omega), allBlocksOf_ge _ _ (by omega)]
  · refine (giveBlock_bit s b c).trans (and_congr_right fun _ => not_congr ?_)
    rw [← bitOf_iff hm hb c]
    exact (or_iff_left fun h => hnot h.1).symm
  · exact (giveBlock_sameBlock hm hb.1 (UInt32.le_iff_toNat_le.mp hge)).trans
      (sameBlock_splice_block hne'.symm)

/-- The last indirect block goes together with the table. -/
theorem unhook_table (hm : s.part.Mounted) (hi : s.inodes p = some i)
    (hw : DirPlaced s.part s.disk i) (hlive : LiveSlot s.disk i k j) (halone : Alone s.disk i k j)
    (hlast : LastIndirect s.disk i k) (hb : BitOf s.part (allBlocksOf s.disk i k) b) :
    Returns (unhookBlock p (allBlocksOf s.disk i) k) (s.giveBlock b) fun _ t =>
      ∃ i', i' = { i with iSectors := i'.iSectors } ∧ DirOnly s t p i' ∧ EntryGone s t i i' k j := by
  obtain ⟨hk', -, hne, -⟩ := hlive
  obtain ⟨hpos, hmore⟩ := countBlocks_indirect hlast.1 hk' hne
  have h12 := table_of_indirect hlast.1 hne
  have hused := hw.map.used _ ⟨h12, Or.inl rfl⟩
  obtain ⟨c, hc⟩ := hused.bitOf
  have hc' : BitOf (s.giveBlock b).part (i.sector 12) c := (Freed.giveBlock s b).bitOf.mpr hc
  have hm' := giveBlock_mounted hm b
  have hi' : (s.giveBlock b).inodes p = some i := hi
  have hi'' : ((s.giveBlock b).giveBlock c).inodes p = some i := hi
  have hsector : ∀ m, (i.setSector 12 0).sector m = if m = 12 then 0 else i.sector m :=
    fun m => Inode.sector_setSector i (by omega) 0 m
  have hzero : (i.setSector 12 0).sector 12 = 0 := by
    rw [hsector, if_pos rfl]
  unfold unhookBlock
  rw [if_neg (by have h := hlast.1; omega), Returns, Wp.bind, wp_kassert]
  refine ⟨fun _ => ?_, fun h => h hpos⟩
  rw [Wp.bind, wp_loadInode_some hi', if_neg fun h => hmore.mp h hlast, Wp.bind, Wp.get, Wp.bind]
  refine (wp_giveBlock hm' hc').mpr ?_
  rw [wp_storeInode_some hi'']
  have hnone : ∀ m, 12 ≤ m → m ≠ k → allBlocksOf s.disk i m = 0 := by
    intro m h₁ hmk
    by_contra hm0
    by_cases hhigh : m < 140
    · exact hmk (hlast.2 m h₁ hhigh hm0)
    · exact hm0 (allBlocksOf_ge _ _ (by omega))
  refine ⟨i.setSector 12 0, rfl, ⟨rfl, rfl⟩, .of_alone hm hw halone ?_ (fun m hmk => ?_)
    (fun _ => hzero) (fun h => absurd hlast h) (fun d => ?_) fun lba hge _ => ?_⟩
  · exact allBlocksOf_no_table _ hlast.1 hzero
  · by_cases hlow : m < 12
    · rw [allBlocksOf_direct _ _ hlow, allBlocksOf_direct _ _ hlow, hsector, if_neg (by omega)]
    · rw [allBlocksOf_no_table _ (by omega) hzero, hnone m (by omega) hmk]
  · refine (giveBlock_bit (s.giveBlock b) c d).trans ?_
    rw [giveBlock_bit, and_assoc]
    refine and_congr_right fun _ => ?_
    rw [bitOf_iff hm hb d, bitOf_iff hm hc d]
    constructor
    · rintro ⟨h₁, h₂⟩ (h | ⟨-, h⟩)
      · exact h₁ h
      · exact h₂ h
    · exact fun h => ⟨fun h' => h (Or.inl h'), fun h' => h (Or.inr ⟨hlast, h'⟩)⟩
  · have hge' := UInt32.le_iff_toNat_le.mp hge
    exact (giveBlock_sameBlock hm hb.1 hge').trans (giveBlock_sameBlock hm' hc'.1 hge')

/-- A slot that was zeroed. -/
theorem zero_bytes (a : Nat) : DirEntry.zero.bytes a = 0 := by
  unfold DirEntry.bytes
  by_cases h : a < 16
  · rw [dif_pos h]
    rfl
  · rw [dif_neg h]
    show ofWords (fun l => if l = 4 then 0 else 0) a = 0
    simp [ofWords, byteOf]

/-- In a block with other entries, and in the first block, the slot is zeroed. -/
theorem zeroed_gone (hw : DirPlaced s.part s.disk i) (hlive : LiveSlot s.disk i k j)
    (hnot : ¬Alone s.disk i k j) (ht : t.disk = splice s.disk
      (slotPlace (allBlocksOf s.disk i k) j) dirEntrySize fun _ => 0)
    (hpart : t.part = s.part) : EntryGone s t i i k j := by
  obtain ⟨hk, hj, hne, -⟩ := hlive
  have hzero : (fun _ => 0 : Bytes) = DirEntry.zero.bytes := funext fun a => (zero_bytes a).symm
  have hmap : ∀ m, allBlocksOf t.disk i m = allBlocksOf s.disk i m := by
    intro m
    rw [ht]
    exact allBlocksOf_congr (fun _ => rfl) rfl fun htable =>
      sameBlock_slot _ _ hj (hw.map.table k hk htable).symm
  refine ⟨fun h => absurd h hnot, fun m _ => hmap m, fun _ => ?_, fun m l hm' hl hne' hpos => ?_,
    fun h => absurd h hnot, fun _ => rfl, fun b => ?_, fun lba _ hlba _ => ?_⟩
  · show blockSlot t.disk (allBlocksOf t.disk i k) j = .zero
    rw [hmap, ht, hzero]
    exact blockSlot_splice_same _ _ _ _
  · show blockSlot t.disk (allBlocksOf t.disk i m) l = blockSlot s.disk (allBlocksOf s.disk i m) l
    rw [hmap] at hne' ⊢
    rw [ht]
    by_cases hmk : m = k
    · rw [hmk]
      exact blockSlot_splice_other _ _ _ fun hlj => hpos ⟨hmk, hlj⟩
    · refine SameBlock.blockSlot (sameBlock_slot _ _ hj fun heq => hmk ?_) hl
      exact hw.map.inj m k hm' hk hne' heq
  · rw [hpart]
    refine (and_iff_left ?_).symm
    rintro ⟨lba, hgiven, -⟩
    exact hnot hgiven.1
  · rw [ht]
    exact sameBlock_slot _ _ hj hlba

/-- The block goes, or the slot is zeroed. -/
theorem clearFound_gone (hm : s.part.Mounted) (hi : s.inodes p = some i)
    (hw : DirPlaced s.part s.disk i) (hlive : LiveSlot s.disk i k j) {r : SlotScan}
    (hr : (r.dirEntryCnt = 1 ∧ r.isDirFirstBlock = false) ↔ Alone s.disk i k j) :
    Returns (clearFound p (allBlocksOf s.disk i) k (blockBuf s.disk (allBlocksOf s.disk i k)) r j)
      s fun _ t => ∃ i', i' = { i with iSectors := i'.iSectors } ∧ DirOnly s t p i' ∧
        EntryGone s t i i' k j := by
  obtain ⟨hk, hj, hne, htype⟩ := hlive
  have hused := hw.map.used _ ⟨hne, Or.inr ⟨k, hk, rfl⟩⟩
  unfold clearFound
  by_cases halone : Alone s.disk i k j
  · obtain ⟨b, hb⟩ := hused.bitOf
    rw [if_pos (hr.mpr halone), Returns, Wp.bind, Wp.get, Wp.bind]
    refine (wp_giveBlock hm hb).mpr ?_
    by_cases hlow : k < 12
    · exact unhook_direct hm hi hw halone hlow hb
    · by_cases hlast : LastIndirect s.disk i k
      · exact unhook_table hm hi hw ⟨hk, hj, hne, htype⟩ halone hlast hb
      · exact unhook_indirect hm hi hw ⟨hk, hj, hne, htype⟩ halone (by omega) hlast hb
  · obtain ⟨-, -, -, -, hsel⟩ := hused
    have hper : dirEntrysPerSec = 21 := rfl
    have hsize : dirEntrySize * j + dirEntrySize ≤ 512 := by
      unfold dirEntrySize
      omega
    have hput : dirEntrySize * j + dirEntrySize ≤
        (blockBuf s.disk (allBlocksOf s.disk i k)).size := Nat.le_trans hsize (show 512 ≤ 1024 by decide)
    rw [if_neg fun h => halone (hr.mp h), Returns, Wp.bind, wp_put]
    refine ⟨fun _ => ?_, fun h => h hput⟩
    rw [wp_ideWrite]
    refine ⟨fun _ => ⟨fun _ => ?_, fun h => h (show 512 ≤ 1024 by decide)⟩, fun h => h hsel⟩
    have hdisk := slot_overwrite s.disk (fun _ => 0) (fun _ => 0) (dirEntrySize * j)
      (o := sectorOff (allBlocksOf s.disk i k)) (L := 512 * 1) (n := dirEntrySize) hsize
    refine ⟨i, rfl, ⟨?_, rfl⟩, zeroed_gone hw ⟨hk, hj, hne, htype⟩ halone hdisk rfl⟩
    rw [State.putInode_self hi]
    rfl

/-- `inode_sync` leaves the data area as it is. -/
theorem inodeSync_sameBlock (hm : s.part.Mounted) (d : Bytes) {m : Nat} (hlt : m < 256)
    (hge : s.part.sb.dataStartLba ≤ lba) :
    SameBlock s.disk (s.store (slotOff s.part m) inodeSize d).disk lba := by
  have h₁ := hm.dataStartLba
  have h₂ := UInt32.le_iff_toNat_le.mp hge
  refine sameBlock_splice (Or.inl ?_)
  unfold slotOff sectorOff inodeSize
  omega

/-- The entry stays gone when the inode gets its new size and the data area is left alone. -/
theorem EntryGone.sized {u : State} {i'' : Inode} (h : EntryGone s t i i' k j)
    (hm : s.part.Mounted) (hw : DirPlaced s.part s.disk i) (hlive : LiveSlot s.disk i k j)
    (hsectors : i''.iSectors = i'.iSectors)
    (hbits : u.part.blockBitmap = t.part.blockBitmap)
    (hsame : ∀ lba, s.part.sb.dataStartLba ≤ lba → SameBlock t.disk u.disk lba) :
    EntryGone s u i i'' k j := by
  have hsector : i''.sector = i'.sector := by
    funext m
    rw [Inode.sector, Inode.sector, hsectors]
  have hge : ∀ lba, References s.disk i lba → s.part.sb.dataStartLba ≤ lba :=
    fun lba href => UInt32.le_iff_toNat_le.mpr ((hw.map.used lba href).ge_data hm)
  have htable : i'.sector 12 ≠ 0 → i'.sector 12 = i.sector 12 := by
    intro h12
    refine h.table fun hgone => h12 (h.dropped hgone.1 hgone.2)
  have hmap : ∀ m, allBlocksOf u.disk i'' m = allBlocksOf t.disk i' m := by
    intro m
    refine allBlocksOf_congr (fun _ => by rw [hsector]) (by rw [hsector]) fun h12 => ?_
    refine hsame _ (hge _ ⟨h12, Or.inl (htable h12)⟩)
  have hblock : ∀ m, m < 140 → allBlocksOf t.disk i' m ≠ 0 →
      allBlocksOf t.disk i' m = allBlocksOf s.disk i m := by
    intro m _ hne
    refine h.map m ?_
    rintro ⟨rfl, halone⟩
    exact hne (h.gone halone)
  have hentry : ∀ m l, m < 140 → l < dirEntrysPerSec → allBlocksOf t.disk i' m ≠ 0 →
      entryIn u.disk i'' (m, l) = entryIn t.disk i' (m, l) := by
    intro m l hm' hl hne
    have hold := hblock m hm' hne
    show blockSlot u.disk (allBlocksOf u.disk i'' m) l = blockSlot t.disk (allBlocksOf t.disk i' m) l
    rw [hmap]
    refine (hsame _ (hge _ ⟨hne, Or.inr ⟨m, hm', hold.symm⟩⟩)).blockSlot hl
  refine ⟨fun halone => (hmap k).trans (h.gone halone), fun m hne => (hmap m).trans (h.map m hne),
    fun hnot => ?_, fun m l hm' hl hne hpos => ?_, fun halone hlast => ?_, fun hnot => ?_,
    fun b => ?_, fun lba hge' h₁ h₂ => (h.disk lba hge' h₁ h₂).trans (hsame lba hge')⟩
  · rw [hentry k j hlive.1 hlive.2.1 ?_]
    · exact h.zero hnot
    · rw [h.map k fun hgone => hnot hgone.2]
      exact hlive.2.2.1
  · rw [hmap] at hne
    rw [hentry m l hm' hl hne]
    exact h.slot m l hm' hl hne hpos
  · rw [hsector]
    exact h.dropped halone hlast
  · rw [hsector]
    exact h.table hnot
  · rw [hbits]
    exact h.bit b

/-- The live slots are the old ones without the deleted one. -/
theorem EntryGone.liveSlot_iff (h : EntryGone s t i i' k j) (m l : Nat) :
    LiveSlot t.disk i' m l ↔ LiveSlot s.disk i m l ∧ ¬(m = k ∧ l = j) := by
  by_cases hgone : m = k ∧ Alone s.disk i k j
  · refine iff_of_false (fun hlive => hlive.2.2.1 ?_) fun hlive => ?_
    · rw [hgone.1]
      exact h.gone hgone.2
    · rw [hgone.1] at hlive
      exact hlive.2 ⟨rfl, hgone.2.2 l hlive.1⟩
  · have hmap := h.map m hgone
    by_cases hpos : m = k ∧ l = j
    · refine iff_of_false (fun hlive => ?_) fun hlive => hlive.2 hpos
      have hzero := h.zero fun halone => hgone ⟨hpos.1, halone⟩
      obtain ⟨-, -, -, htype⟩ := hlive
      rw [hpos.1, hpos.2] at htype
      exact htype (congrArg DirEntry.fType hzero)
    · have hslot : m < 140 → l < dirEntrysPerSec → allBlocksOf s.disk i m ≠ 0 →
          blockSlot t.disk (allBlocksOf t.disk i' m) l =
            blockSlot s.disk (allBlocksOf s.disk i m) l :=
        fun hm hl hne => h.slot m l hm hl (by rwa [hmap]) hpos
      constructor
      · rintro ⟨hm, hl, hne, htype⟩
        have hne' : allBlocksOf s.disk i m ≠ 0 := by rwa [← hmap]
        rw [hslot hm hl hne'] at htype
        exact ⟨⟨hm, hl, hne', htype⟩, hpos⟩
      · rintro ⟨⟨hm, hl, hne, htype⟩, -⟩
        refine ⟨hm, hl, by rwa [hmap], ?_⟩
        rwa [hslot hm hl hne]

theorem EntryGone.liveSlots (h : EntryGone s t i i' k j) :
    liveSlots t.disk i' = (liveSlots s.disk i).erase (k, j) := by
  rw [(liveSlots_nodup s.disk i).erase_eq_filter]
  unfold OsTruth.liveSlots
  rw [List.filter_filter]
  refine List.filter_congr fun x _ => ?_
  have hiff := h.liveSlot_iff x.1 x.2
  have hpos : x = (k, j) ↔ x.1 = k ∧ x.2 = j := Prod.ext_iff
  rw [Bool.eq_iff_iff]
  simp only [hiff, bne_iff_ne, ne_eq, hpos, decide_eq_true_eq, Bool.and_eq_true]
  exact and_comm

/-- The entries that are left are the old ones. -/
theorem EntryGone.entryIn (h : EntryGone s t i i' k j) {m l : Nat}
    (hlive : LiveSlot t.disk i' m l) : entryIn t.disk i' (m, l) = OsTruth.entryIn s.disk i (m, l) :=
  h.slot m l hlive.1 hlive.2.1 hlive.2.2.1 ((h.liveSlot_iff m l).mp hlive).2

/-! ## The function -/

theorem liveSlots_pos (h : LiveSlot s.disk i k j) : 1 ≤ (liveSlots s.disk i).length :=
  List.length_pos_of_mem (mem_liveSlots.mpr h)

theorem deleteFound_gone (hm : s.part.Mounted) (hi : s.inodes p = some i)
    (hw : DirPlaced s.part s.disk i) (hsize : dirEntrySize ≤ i.iSize.toNat)
    (h : Sole s.disk i n k j) {r : SlotScan}
    (hr : Scanned (blockBuf s.disk (allBlocksOf s.disk i k)).data n dirEntrysPerSec 0
      ⟨false, 0, none⟩ r) :
    Returns (deleteFound p (allBlocksOf s.disk i) k
      (blockBuf s.disk (allBlocksOf s.disk i k)) r j) s fun _ t => ∃ i', DirOnly s t p i' ∧
        i'.iSize.toNat + dirEntrySize = i.iSize.toNat ∧ EntryGone s t i i' k j := by
  obtain ⟨hcnt, halone⟩ := hr.counted hw h
  have hentry : dirEntrySize = 24 := rfl
  unfold deleteFound
  rw [Returns, Wp.bind, wp_kassert]
  refine ⟨fun _ => ?_, fun hno => hno hcnt⟩
  rw [Wp.bind]
  refine (clearFound_gone hm hi hw h.slot halone).call fun _ t ht => ?_
  obtain ⟨i', hsectors, honly, hgone⟩ := ht
  have hmt := honly.mounted hm
  have hi' := honly.inode
  have hsize' : i'.iSize = i.iSize := by rw [hsectors]
  have hno' : i'.iNo = i.iNo := by rw [hsectors]
  have hle : (24 : UInt32) ≤ i'.iSize := by
    rw [UInt32.le_iff_toNat_le, hsize']
    exact hsize
  rw [Wp.bind, wp_getEntrySize_mounted hmt, Wp.bind, wp_loadInode_some hi', Wp.bind, wp_kassert]
  refine ⟨fun _ => ?_, fun hlt => hlt hle⟩
  rw [Wp.bind, wp_storeInode_some hi', Wp.bind, wp_loadInode_some (State.putInode_same _ _ _)]
  refine (wp_inodeSync (s := t.putInode p (some { i' with iSize := i'.iSize - 24 })) hmt
    (show 1024 ≤ 1024 by decide)).mpr ?_
  have hsb : t.part.sb = s.part.sb := by rw [honly.part]
  refine ⟨{ i' with iSize := i'.iSize - 24 }, (honly.put _).store _ _ _, ?_,
    hgone.sized hm hw h.slot rfl rfl fun lba hge => ?_⟩
  · show (i'.iSize - 24).toNat + dirEntrySize = _
    rw [UInt32.toNat_sub_of_le _ _ hle, hsize', hentry]
    show _ - 24 + 24 = _
    omega
  · exact inodeSync_sameBlock hmt _ (Nat.mod_lt _ (by decide)) (by rwa [hsb])

/-- `delete_dir_entry` up to its loop. -/
theorem wp_deleteDirEntry {dir : DirPtr} {F : Fault → Prop} {Q : Bool → State → Prop}
    (hm : s.part.Mounted) (hd : s.inodeOf dir = some p) (hi : s.inodes p = some i)
    (hmap : BlockMapOk s.part s.disk i) : Wp (deleteDirEntry dir n) s F Q ↔
      Wp (deleteBlocks p n (allBlocksOf s.disk i) 140 0) s F Q := by
  have htable : i.sector 12 ≠ 0 → Selectable (i.sector 12) 1 := by
    intro h12
    obtain ⟨-, -, -, -, hsel⟩ := hmap.used _ ⟨h12, Or.inl rfl⟩
    exact hsel
  unfold deleteDirEntry
  rw [Wp.bind, wp_dirInode_some hd, Wp.bind, wp_loadInode_some hi, Wp.bind, wp_collectBlocks,
    Wp.bind, wp_getEntrySize_mounted hm]
  exact (and_iff_left fun h12 hns => absurd (htable h12) hns).trans (forall_prop_of_true htable)

/-- `delete_dir_entry` on a well-formed directory takes out exactly the entry with the
inode number, and the blocks that are not needed any more. -/
theorem deleteDirEntry_gone {dir : DirPtr} (hm : s.part.Mounted) (hd : s.inodeOf dir = some p)
    (hi : s.inodes p = some i) (hw : DirPlaced s.part s.disk i)
    (hsize : dirEntrySize ≤ i.iSize.toNat) (h : Sole s.disk i n k j) :
    Returns (deleteDirEntry dir n) s fun r t => r = true ∧ ∃ i', DirOnly s t p i' ∧
      i'.iSize.toNat + dirEntrySize = i.iSize.toNat ∧ EntryGone s t i i' k j :=
  (wp_deleteDirEntry hm hd hi hw.map).mpr (deleteBlocks_returns hw h 140 0 (by omega)
    (Nat.zero_le k) fun _ hr => deleteFound_gone hm hi hw hsize h hr)

/-- The call succeeds only when an entry carries the number. -/
theorem deleteDirEntry_missing {dir : DirPtr} (hm : s.part.Mounted) (hd : s.inodeOf dir = some p)
    (hi : s.inodes p = some i) (hmap : BlockMapOk s.part s.disk i)
    (hnone : ∀ m l, LiveSlot s.disk i m l → (entryIn s.disk i (m, l)).Counts →
      (entryIn s.disk i (m, l)).iNo ≠ n) :
    Returns (deleteDirEntry dir n) s fun r _ => r = false :=
  (wp_deleteDirEntry hm hd hi hmap).mpr (deleteBlocks_missing hmap hnone 140 0 (by omega))

/-- From `s` to `t` the entry in slot `j` of block `k` of the directory `i` was deleted, and
the directory is `i'` now. -/
structure EntryDeleted (s t : State) (i i' : Inode) (k j : Nat) : Prop where
  live : liveSlots t.disk i' = (liveSlots s.disk i).erase (k, j)
  entries : ∀ x, x ∈ liveSlots t.disk i' → entryIn t.disk i' x = entryIn s.disk i x
  size : i'.iSize.toNat + dirEntrySize = i.iSize.toNat
  unlinked : allBlocksOf t.disk i' k = 0 ↔ Alone s.disk i k j
  block : ∀ b, BitOf s.part (allBlocksOf s.disk i k) b →
    (t.part.blockBitmap.bit b = false ↔ Alone s.disk i k j)
  dropped : i.sector 12 ≠ 0 →
    (i'.sector 12 = 0 ↔ Alone s.disk i k j ∧ LastIndirect s.disk i k)
  table : i.sector 12 ≠ 0 → ∀ b, BitOf s.part (i.sector 12) b →
    (t.part.blockBitmap.bit b = false ↔ Alone s.disk i k j ∧ LastIndirect s.disk i k)
  bits : ∀ b, ¬BitOf s.part (allBlocksOf s.disk i k) b → ¬BitOf s.part (i.sector 12) b →
    t.part.blockBitmap.bit b = s.part.blockBitmap.bit b
  inodeBits : t.part.inodeBitmap = s.part.inodeBitmap
  blocks : ∀ lba, s.part.sb.dataStartLba ≤ lba → lba ≠ allBlocksOf s.disk i k →
    lba ≠ i.sector 12 → SameBlock s.disk t.disk lba

theorem UsedBlock.bit (hm : s.part.Mounted) (h : UsedBlock s.part lba) (hb : BitOf s.part lba b) :
    s.part.blockBitmap.bit b = true := by
  obtain ⟨c, hc, heq, hbit, -⟩ := h
  have hbc : b = c := BitOf.unique hm ⟨hc, heq⟩ hb
  rw [hbc]
  exact hbit

theorem EntryGone.deleted (h : EntryGone s t i i' k j) (hm : s.part.Mounted)
    (hw : DirPlaced s.part s.disk i) (hlive : LiveSlot s.disk i k j) (honly : DirOnly s t p i')
    (hsize : i'.iSize.toNat + dirEntrySize = i.iSize.toNat) : EntryDeleted s t i i' k j := by
  obtain ⟨hk, hj, hne, htype⟩ := hlive
  have hused := hw.map.used _ ⟨hne, Or.inr ⟨k, hk, rfl⟩⟩
  have hother : i.sector 12 ≠ 0 → ∀ b, BitOf s.part (i.sector 12) b →
      ¬BitOf s.part (allBlocksOf s.disk i k) b :=
    fun h12 b hb hb' => hw.map.table k hk h12 (hb'.2.trans hb.2.symm)
  have hclear : ∀ b, s.part.blockBitmap.bit b = true → (t.part.blockBitmap.bit b = false ↔
      ∃ lba, GivenBack s.disk i k j lba ∧ BitOf s.part lba b) := by
    intro b hb
    have hbit := h.bit b
    rw [← Bool.not_eq_true, hbit, hb]
    simp
  refine ⟨h.liveSlots, fun x hx => h.entryIn (mem_liveSlots.mp hx), hsize, ?_, fun b hb => ?_,
    fun h12 => ?_, fun h12 b hb => ?_, fun b hb hb' => ?_, ?_, h.disk⟩
  · constructor
    · intro hzero
      by_contra hnot
      exact hne ((h.map k fun hgone => hnot hgone.2).symm.trans hzero)
    · exact h.gone
  · rw [hclear b (hused.bit hm hb)]
    constructor
    · rintro ⟨lba, hgiven, -⟩
      exact hgiven.1
    · exact fun halone => ⟨_, ⟨halone, Or.inl rfl⟩, hb⟩
  · constructor
    · intro hzero
      by_contra hnot
      exact h12 ((h.table hnot).symm.trans hzero)
    · exact fun hgone => h.dropped hgone.1 hgone.2
  · rw [hclear b ((hw.map.used _ ⟨h12, Or.inl rfl⟩).bit hm hb)]
    constructor
    · rintro ⟨lba, ⟨halone, rfl | ⟨hlast, -⟩⟩, hb'⟩
      · exact absurd hb' (hother h12 b hb)
      · exact ⟨halone, hlast⟩
    · exact fun hgone => ⟨_, ⟨hgone.1, Or.inr ⟨hgone.2, rfl⟩⟩, hb⟩
  · rw [Bool.eq_iff_iff, h.bit b]
    refine and_iff_left ?_
    rintro ⟨lba, ⟨-, rfl | ⟨-, rfl⟩⟩, hlba⟩
    · exact hb hlba
    · exact hb' hlba
  · rw [honly.part]

/-- `delete_dir_entry` takes the one entry with the inode number out of a well-formed
directory, with the blocks that are not needed any more, and nothing else. -/
theorem deleteDirEntry_deletes {dir : DirPtr} (hm : s.part.Mounted) (hd : s.inodeOf dir = some p)
    (hi : s.inodes p = some i) (hw : DirWell s.part s.disk i) (h : Sole s.disk i n k j) :
    Returns (deleteDirEntry dir n) s fun r t =>
      r = true ∧ ∃ i', t.inodes p = some i' ∧ EntryDeleted s t i i' k j := by
  have hsize : dirEntrySize ≤ i.iSize.toNat := by
    rw [hw.size]
    exact Nat.le_mul_of_pos_right _ (liveSlots_pos h.slot)
  refine (deleteDirEntry_gone hm hd hi hw.toDirPlaced hsize h).call fun r t ht => ?_
  obtain ⟨hr, i', honly, hless, hgone⟩ := ht
  exact ⟨hr, i', honly.inode, hgone.deleted hm hw.toDirPlaced h.slot honly hless⟩

end

/-! ## The directory in the root directory -/

theorem subState_live {m l : Nat} : LiveSlot subState.disk subRootInode m l ↔ m = 0 ∧ l < 3 := by
  have hnamed : subState.inodeNamed 0 = some subRootInode := rfl
  have hper : dirEntrysPerSec = 21 := rfl
  have htypes : ∀ l, l < 21 → ((subRootEntry l).fType ≠ 0 ↔ l < 3) := by
    decide +kernel
  constructor
  · rintro ⟨-, hl, hne, htype⟩
    rw [subState_root.blocks hnamed] at hne htype
    have hm : m = 0 := by
      by_contra hm
      exact hne (if_neg hm)
    rw [if_pos hm, subState_root.slot l hl] at htype
    exact ⟨hm, (htypes l (by omega)).mp htype⟩
  · rintro ⟨rfl, hl⟩
    refine ⟨by decide, by omega, ?_, ?_⟩
    · rw [subState_root.blocks hnamed]
      exact subState_root.lba.1
    · rw [subState_root.blocks hnamed, if_pos rfl, subState_root.slot l (by omega)]
      exact (htypes l (by omega)).mpr hl

theorem subState_entryIn {l : Nat} (hl : l < 3) :
    entryIn subState.disk subRootInode (0, l) = subRootEntry l := by
  have hnamed : subState.inodeNamed 0 = some subRootInode := rfl
  have hper : dirEntrysPerSec = 21 := rfl
  show blockSlot subState.disk (allBlocksOf subState.disk subRootInode 0) l = _
  rw [subState_root.blocks hnamed, if_pos rfl, subState_root.slot l (by omega)]

theorem subState_dirWell : DirWell subState.part subState.disk subRootInode where
  map := by
    obtain ⟨i, hi, -, hsector⟩ := subState_root.inode
    have hroot : subRootInode = i := Option.some.inj hi
    rw [← hroot] at hsector
    refine blockMapOk_single _ ⟨0, by decide, ?_, ?_, subState_root.lba.2⟩ subState_root.lba.1 hsector
    · decide
    · decide +kernel
  self := ⟨0, subState_live.mpr ⟨rfl, by decide⟩, by
    rw [subState_entryIn (by decide)]
    decide⟩
  parent := ⟨1, subState_live.mpr ⟨rfl, by decide⟩, by
    rw [subState_entryIn (by decide)]
    decide⟩
  first m l h _ := (subState_live.mp h).1
  size := subState_listed.size

/-- The directory `d` is taken out of the root directory. -/
theorem deleteDirEntry_deletes_sub :
    Returns (deleteDirEntry .root 1) subState fun r t =>
      r = true ∧ ∃ i', t.inodes ⟨false, 0⟩ = some i' ∧
        EntryDeleted subState t subRootInode i' 0 2 := by
  refine deleteDirEntry_deletes freshPart_mounted rfl rfl subState_dirWell
    ⟨subState_live.mpr ⟨rfl, by decide⟩, ?_, ?_, fun m l h hcounts hno => ?_⟩
  · rw [subState_entryIn (by decide)]
    decide
  · rw [subState_entryIn (by decide)]
    rfl
  · obtain ⟨rfl, hl⟩ := subState_live.mp h
    rw [subState_entryIn hl] at hno
    have hall : ∀ l, l < 3 → (subRootEntry l).iNo = 1 → l = 2 := by
      decide +kernel
    exact ⟨rfl, hall l hl hno⟩

end OsTruth
