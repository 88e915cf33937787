/-
Which blocks of a directory are occupied, over any number of insertions and deletions.

`sync_dir_entry` does not read the indirect table.  When the direct blocks are full it makes
a new table, and the old one is lost with its block and the one entry in it, while `i_size`
goes on counting that entry.  So the invariant counts the live entries and the tables that
were lost, whose bits stay set.
-/
import Mathlib.Data.List.Perm.Subperm
import OsTruth.Fs.DirPut

namespace OsTruth

open ByteString Fallible

/-! ## The invariant -/

/-- Every block behind the first one holds a live entry, and an indirect table has one block
with one entry. -/
structure Occupied (disk : Bytes) (i : Inode) : Prop where
  block : ∀ m, 1 ≤ m → m < 140 → allBlocksOf disk i m ≠ 0 → ∃ l, LiveSlot disk i m l
  table : i.sector 12 ≠ 0 → allBlocksOf disk i 12 ≠ 0
  indirect : ∀ m, 12 < m → m < 140 → allBlocksOf disk i m = 0
  single : ∀ l l', LiveSlot disk i 12 l → LiveSlot disk i 12 l' → l = l'

/-- Blocks of the set `taken` that the directory does not reference. -/
structure LostBlocks (part : Partition) (disk : Bytes) (i : Inode) (taken : Nat → Prop)
    (lost : List Nat) : Prop where
  nodup : lost.Nodup
  held : ∀ b, b ∈ lost → taken b
  onDisk : ∀ b, b ∈ lost →
    b < 8 * part.blockBitmap.btmpBytesLen ∧ Selectable (blockAddr part b) 1
  unreferenced : ∀ b, b ∈ lost → ¬References disk i (blockAddr part b)

/-- The directory with the inode `i` at `p` is in order, and has taken the blocks `taken`. -/
structure DirKept (s : State) (p : Ptr) (i : Inode) (taken : Nat → Prop) : Prop where
  mounted : s.part.Mounted
  inode : s.inodes p = some i
  placed : DirPlaced s.part s.disk i
  occupied : Occupied s.disk i
  set : ∀ b, taken b → s.part.blockBitmap.bit b = true
  held : ∀ lba b, References s.disk i lba → BitOf s.part lba b → taken b
  size : ∃ lost, LostBlocks s.part s.disk i taken lost ∧
    i.iSize.toNat = dirEntrySize * ((liveSlots s.disk i).length + lost.length)

/-- The blocks that a directory has after a call from `s` to `t`: those that are still in use
and that it had before or that were free. -/
def takenAfter (s t : State) (taken : Nat → Prop) (b : Nat) : Prop :=
  t.part.blockBitmap.bit b = true ∧ (taken b ∨ s.part.blockBitmap.bit b = false)

section

variable {s t : State} {p : Ptr} {i i' : Inode} {lba : UInt32} {k j b : Nat} {e : DirEntry}
variable {taken : Nat → Prop} {lost : List Nat}

theorem DirOnly.bitOf (h : DirOnly s t p i') : BitOf t.part lba b ↔ BitOf s.part lba b := by
  unfold BitOf blockAddr
  rw [h.len, h.part]

/-! ## Counting -/

/-- One element more. -/
theorem length_of_mem_iff {α : Type} {l l' : List α} {x : α} (hl : l.Nodup) (hl' : l'.Nodup)
    (hx : x ∉ l) (h : ∀ y, y ∈ l' ↔ y = x ∨ y ∈ l) : l'.length = l.length + 1 := by
  have hperm : l'.Perm (x :: l) :=
    (List.perm_ext_iff_of_nodup hl' (List.nodup_cons.mpr ⟨hx, hl⟩)).mpr fun y => by
      rw [h, List.mem_cons]
  rw [hperm.length_eq, List.length_cons]

/-- A lost block is on the disk, so there are not more of them than sectors. -/
theorem LostBlocks.length_le (hm : s.part.Mounted) (h : LostBlocks s.part s.disk i taken lost) :
    lost.length ≤ 163840 := by
  have hsub : lost ⊆ List.range 163840 := by
    intro b hb
    obtain ⟨hlt, hsel⟩ := h.onDisk b hb
    have haddr := (toNat_blockAddr hm hlt).1
    rw [selectable_one, toNat_maxLba, haddr] at hsel
    rw [List.mem_range]
    omega
  have hle := (List.Nodup.subperm h.nodup hsub).length_le
  rwa [List.length_range] at hle

/-- `i_size` does not wrap. -/
theorem DirKept.grown_size (h : DirKept s p i taken) :
    (i.iSize + 24).toNat = i.iSize.toNat + dirEntrySize := by
  obtain ⟨lost, hlost, hsize⟩ := h.size
  have hle := hlost.length_le h.mounted
  have hlive := liveSlots_length_le s.disk i
  have hper : dirEntrysPerSec = 21 := rfl
  have h24 : (24 : UInt32).toNat = dirEntrySize := rfl
  have hentry : dirEntrySize = 24 := rfl
  rw [UInt32.toNat_add, h24]
  refine Nat.mod_eq_of_lt ?_
  rw [hsize, hentry]
  omega

/-- There is one live slot more when nothing is lost. -/
theorem EntryPut.length_grown (h : EntryPut s t i i' e k j) (hk : k = 12 → i.sector 12 = 0) :
    (liveSlots t.disk i').length = (liveSlots s.disk i).length + 1 := by
  have hlow : ∀ m l, LiveSlot s.disk i m l → ¬(k = 12 ∧ 12 ≤ m) := by
    rintro m l hlive ⟨h12, hm⟩
    exact hlive.2.2.1 (allBlocksOf_no_table s.disk hm (hk h12))
  refine length_of_mem_iff (x := (k, j)) (liveSlots_nodup _ _) (liveSlots_nodup _ _)
    (fun hmem => ?_) fun y => ?_
  · have hlive := mem_liveSlots.mp hmem
    have h12 := h.fresh hlive
    exact hlow k j hlive ⟨h12, by omega⟩
  · obtain ⟨m, l⟩ := y
    rw [mem_liveSlots, mem_liveSlots, h.live, Prod.mk.injEq]
    exact or_congr_right (and_iff_left_of_imp (hlow m l))

/-- With a table the new entry takes the place of the one that is lost. -/
theorem EntryPut.length_kept (h : EntryPut s t i i' e k j) (hocc : Occupied s.disk i)
    (hk : k = 12) (h12 : i.sector 12 ≠ 0) :
    (liveSlots t.disk i').length = (liveSlots s.disk i).length := by
  obtain ⟨l₀, hl₀⟩ := hocc.block 12 (by omega) (by omega) (hocc.table h12)
  -- Both have one slot of block 12 besides the slots of the direct blocks.
  have hlow : ((liveSlots s.disk i).filter fun x => x.1 < 12).Nodup :=
    (liveSlots_nodup s.disk i).filter _
  have hmem : ∀ m l, (m, l) ∈ (liveSlots s.disk i).filter (fun x => x.1 < 12) ↔
      LiveSlot s.disk i m l ∧ m < 12 := by
    intro m l
    rw [List.mem_filter, mem_liveSlots, decide_eq_true_eq]
  have hnot : ∀ l, (12, l) ∉ (liveSlots s.disk i).filter fun x => x.1 < 12 := by
    intro l hl
    have hlt := ((hmem 12 l).mp hl).2
    omega
  have hold := length_of_mem_iff (x := (12, l₀)) hlow (liveSlots_nodup s.disk i) (hnot l₀) fun y => by
    obtain ⟨m, l⟩ := y
    rw [mem_liveSlots, hmem, Prod.mk.injEq]
    constructor
    · intro hlive
      by_cases hm : m < 12
      · exact Or.inr ⟨hlive, hm⟩
      · have hm12 : m = 12 := by
          by_contra hne
          exact hlive.2.2.1 (hocc.indirect m (by omega) hlive.1)
        rw [hm12] at hlive
        exact Or.inl ⟨hm12, hocc.single l l₀ hlive hl₀⟩
    · rintro (⟨rfl, rfl⟩ | ⟨hlive, -⟩)
      · exact hl₀
      · exact hlive
  have hnew := length_of_mem_iff (x := (12, j)) hlow (liveSlots_nodup t.disk i') (hnot j) fun y => by
    obtain ⟨m, l⟩ := y
    have hm : ¬(k = 12 ∧ 12 ≤ m) ↔ m < 12 := by omega
    rw [mem_liveSlots, hmem, Prod.mk.injEq, h.live, hm, hk]
  rw [hold, hnew]

end

/-! ## Inserting keeps the invariant -/

section

variable {s t : State} {p : Ptr} {i i' : Inode} {n lba : UInt32} {k j b : Nat} {e : DirEntry}
variable {taken : Nat → Prop} {lost : List Nat}

theorem EntryPut.placed (h : EntryPut s t i i' e k j) (hw : DirPlaced s.part s.disk i)
    (he : e.Counts) : DirPlaced t.part t.disk i' := by
  have hkeep : ∀ l, LiveSlot s.disk i 0 l →
      LiveSlot t.disk i' 0 l ∧ entryIn t.disk i' (0, l) = entryIn s.disk i (0, l) := by
    intro l hl
    have hlive := (h.live 0 l).mpr (Or.inr ⟨hl, by omega⟩)
    refine ⟨hlive, h.entry 0 l hlive ?_⟩
    rintro ⟨rfl, rfl⟩
    have h12 := h.fresh hl
    omega
  refine ⟨h.map, ?_, ?_, fun m l hlive hname => ?_⟩
  · obtain ⟨l, hl, hname⟩ := hw.self
    obtain ⟨hlive, heq⟩ := hkeep l hl
    exact ⟨l, hlive, by rwa [heq]⟩
  · obtain ⟨l, hl, hname⟩ := hw.parent
    obtain ⟨hlive, heq⟩ := hkeep l hl
    exact ⟨l, hlive, by rwa [heq]⟩
  · rcases (h.live m l).mp hlive with ⟨rfl, rfl⟩ | ⟨hold, hlow⟩
    · rw [h.slot] at hname
      rcases hname with hname | hname
      · exact absurd hname he.2.1
      · exact absurd hname he.2.2
    · by_cases hpos : m = k ∧ l = j
      · rw [hpos.1, hpos.2] at hname
        rw [h.slot] at hname
        rcases hname with hname | hname
        · exact absurd hname he.2.1
        · exact absurd hname he.2.2
      · rw [h.entry m l hlive hpos] at hname
        exact hw.first m l hold hname

theorem EntryPut.occupied (h : EntryPut s t i i' e k j) (hocc : Occupied s.disk i) :
    Occupied t.disk i' := by
  have hpos : LiveSlot t.disk i' k j := (h.live k j).mpr (Or.inl ⟨rfl, rfl⟩)
  have hlow := h.low
  refine ⟨fun m hm hm' hne => ?_, fun h12 => ?_, fun m hm hm' => ?_, fun l l' hl hl' => ?_⟩
  · by_cases hmk : m = k
    · rw [hmk]
      exact ⟨j, hpos⟩
    · obtain ⟨hold, hkept⟩ := h.blocks m hm' hmk hne
      obtain ⟨l, hl⟩ := hocc.block m hm hm' hold
      exact ⟨l, (h.live m l).mpr (Or.inr ⟨hl, hkept⟩)⟩
  · by_cases hk : k = 12
    · rw [hk] at hpos
      exact hpos.2.2.1
    · rw [h.table hk] at h12
      obtain ⟨l, hl⟩ := hocc.block 12 (by omega) (by omega) (hocc.table h12)
      exact ((h.live 12 l).mpr (Or.inr ⟨hl, fun hkept => hk hkept.1⟩)).2.2.1
  · by_contra hne
    obtain ⟨hold, -⟩ := h.blocks m hm' (by omega) hne
    exact hold (hocc.indirect m hm hm')
  · rcases (h.live 12 l).mp hl with ⟨hk, rfl⟩ | ⟨hold, hkept⟩
    · rcases (h.live 12 l').mp hl' with ⟨-, rfl⟩ | ⟨-, hkept⟩
      · rfl
      · exact absurd ⟨hk.symm, Nat.le_refl 12⟩ hkept
    · rcases (h.live 12 l').mp hl' with ⟨hk, -⟩ | ⟨hold', -⟩
      · exact absurd ⟨hk.symm, Nat.le_refl 12⟩ hkept
      · exact hocc.single l l' hold hold'

/-- Nothing that was lost comes back. -/
theorem EntryPut.unreferenced (h : EntryPut s t i i' e k j) (hm : s.part.Mounted)
    (hb : BitOf s.part lba b) (hset : s.part.blockBitmap.bit b = true)
    (hno : References s.disk i lba → k = 12 ∧ lba = i.sector 12) : ¬References t.disk i' lba := by
  intro href
  rcases h.kept lba href with ⟨hold, hkept⟩ | ⟨c, hc, hclear⟩
  · obtain ⟨hk, heq⟩ := hno hold
    exact hkept hk heq
  · rw [← BitOf.unique hm hc hb, hset] at hclear
    exact Bool.noConfusion hclear

theorem DirKept.put (h : DirKept s p i taken) (he : e.Counts) (honly : DirOnly s t p i')
    (hput : EntryPut s t i i' e k j) : DirKept t p i' (takenAfter s t taken) := by
  have hentry : dirEntrySize = 24 := rfl
  have hm := h.mounted
  have hmt := honly.mounted hm
  have haddr : ∀ b, blockAddr t.part b = blockAddr s.part b := by
    intro b
    rw [blockAddr, blockAddr, honly.part]
  have hafter : ∀ b, taken b → takenAfter s t taken b :=
    fun b hb => ⟨hput.bit b (h.set b hb), Or.inl hb⟩
  refine ⟨hmt, honly.inode, hput.placed h.placed he, hput.occupied h.occupied, fun b hb => hb.1,
    fun lba b href hb => ⟨(hput.map.used lba href).bit hmt hb, ?_⟩, ?_⟩
  · have hb' := honly.bitOf.mp hb
    rcases hput.kept lba href with ⟨hold, -⟩ | ⟨c, hc, hclear⟩
    · exact Or.inl (h.held lba b hold hb')
    · rw [← BitOf.unique hm hc hb'] at hclear
      exact Or.inr hclear
  · obtain ⟨lost, hlost, hsize⟩ := h.size
    have hgrown : i'.iSize.toNat = i.iSize.toNat + dirEntrySize := by
      rw [hput.size]
      exact h.grown_size
    have hstill : ∀ b, b ∈ lost → ¬References t.disk i' (blockAddr t.part b) := by
      intro b hb
      rw [haddr]
      exact hput.unreferenced hm ⟨(hlost.onDisk b hb).1, rfl⟩ (h.set b (hlost.held b hb))
        fun href => absurd href (hlost.unreferenced b hb)
    have hdisk : ∀ b, b ∈ lost → b < 8 * t.part.blockBitmap.btmpBytesLen ∧
        Selectable (blockAddr t.part b) 1 := by
      intro b hb
      rw [haddr, honly.len]
      exact hlost.onDisk b hb
    by_cases hnew : k = 12 → i.sector 12 = 0
    · refine ⟨lost, ⟨hlost.nodup, fun b hb => hafter b (hlost.held b hb), hdisk, hstill⟩, ?_⟩
      rw [hgrown, hsize, hput.length_grown hnew, hentry]
      omega
    · -- A table is lost, with the entry in its block.
      obtain ⟨hk, h12⟩ : k = 12 ∧ i.sector 12 ≠ 0 := by tauto
      have href : References s.disk i (i.sector 12) := ⟨h12, Or.inl rfl⟩
      obtain ⟨b, hb, heq, hset, hsel⟩ := h.placed.map.used _ href
      have hbit : BitOf s.part (i.sector 12) b := ⟨hb, heq⟩
      have hnot : b ∉ lost := by
        intro hmem
        refine hlost.unreferenced b hmem ?_
        rwa [← heq]
      refine ⟨b :: lost, ⟨List.nodup_cons.mpr ⟨hnot, hlost.nodup⟩, fun c hc => ?_, fun c hc => ?_,
        fun c hc => ?_⟩, ?_⟩
      · rcases List.mem_cons.mp hc with rfl | hc
        · exact hafter c (h.held _ c href hbit)
        · exact hafter c (hlost.held c hc)
      · rcases List.mem_cons.mp hc with rfl | hc
        · rw [haddr, honly.len, ← heq]
          exact ⟨hb, hsel⟩
        · exact hdisk c hc
      · rcases List.mem_cons.mp hc with rfl | hc
        · rw [haddr, ← heq]
          exact hput.unreferenced hm hbit hset fun _ => ⟨hk, rfl⟩
        · exact hstill c hc
      · rw [hgrown, hsize, hput.length_kept h.occupied hk h12, List.length_cons, hentry]
        omega

/-! ## Deleting keeps the invariant -/

theorem EntryGone.references (h : EntryGone s t i i' k j) (href : References t.disk i' lba) :
    References s.disk i lba := by
  obtain ⟨hlba, heq | ⟨m, hm, heq⟩⟩ := href
  · refine ⟨hlba, Or.inl (heq.trans (h.table fun hgone => ?_))⟩
    exact hlba (heq.trans (h.dropped hgone.1 hgone.2))
  · refine ⟨hlba, Or.inr ⟨m, hm, (h.map m fun hgone => ?_).symm.trans heq⟩⟩
    rw [hgone.1, h.gone hgone.2] at heq
    exact hlba heq.symm

/-- What is still referenced was not given back. -/
theorem EntryGone.not_givenBack (h : EntryGone s t i i' k j) (hmap : BlockMapOk s.part s.disk i)
    (hk : k < 140) (href : References t.disk i' lba) : ¬GivenBack s.disk i k j lba := by
  rintro ⟨halone, heq | ⟨hlast, heq⟩⟩
  · obtain ⟨hlba, h12 | ⟨m, hm, hblock⟩⟩ := href
    · have htable : i'.sector 12 = i.sector 12 := h.table fun hgone =>
        hlba (h12.trans (h.dropped hgone.1 hgone.2))
      rw [htable] at h12
      exact hmap.table k hk (by rwa [← h12]) (heq.symm.trans h12)
    · have hmk : m ≠ k := by
        rintro rfl
        exact hlba (hblock.symm.trans (h.gone halone))
      rw [h.map m fun hgone => hmk hgone.1] at hblock
      exact hmk (hmap.inj m k hm hk (by rwa [hblock]) (hblock.trans heq))
  · obtain ⟨hlba, h12 | ⟨m, hm, hblock⟩⟩ := href
    · exact hlba (h12.trans (h.dropped halone hlast))
    · have hmk : m ≠ k := by
        rintro rfl
        exact hlba (hblock.symm.trans (h.gone halone))
      rw [h.map m fun hgone => hmk hgone.1] at hblock
      exact hmap.table m hm (by rwa [← heq]) (hblock.trans heq)

theorem entryGone_placed (h : EntryGone s t i i' k j) (hw : DirPlaced s.part s.disk i)
    (honly : DirOnly s t p i') (hlive : LiveSlot s.disk i k j)
    (hcounts : (entryIn s.disk i (k, j)).Counts) : DirPlaced t.part t.disk i' := by
  have hblock : ∀ m, allBlocksOf t.disk i' m ≠ 0 →
      allBlocksOf t.disk i' m = allBlocksOf s.disk i m := by
    intro m hne
    refine h.map m fun hgone => hne ?_
    rw [hgone.1]
    exact h.gone hgone.2
  have hkeep : ∀ l, LiveSlot s.disk i 0 l → ¬(entryIn s.disk i (0, l)).Counts →
      LiveSlot t.disk i' 0 l ∧ entryIn t.disk i' (0, l) = entryIn s.disk i (0, l) := by
    intro l hl hno
    have hlive' : LiveSlot t.disk i' 0 l := by
      refine (h.liveSlot_iff 0 l).mpr ⟨hl, ?_⟩
      rintro ⟨rfl, rfl⟩
      exact hno hcounts
    exact ⟨hlive', h.entryIn hlive'⟩
  refine ⟨⟨fun lba href => ?_, fun m m' hm₁ hm₂ hne heq => ?_, fun m hm₁ h12 heq => ?_⟩, ?_, ?_,
    fun m l hl hname => ?_⟩
  · have hno := h.not_givenBack hw.map hlive.1 href
    obtain ⟨b, hb, heq, hset, hsel⟩ := hw.map.used lba (h.references href)
    refine ⟨b, by rwa [honly.len], ?_, (h.bit b).mpr ⟨hset, ?_⟩, hsel⟩
    · rw [heq, blockAddr, blockAddr, honly.part]
    · rintro ⟨lba', hgiven, hlba'⟩
      rw [hlba'.2, ← heq] at hgiven
      exact hno hgiven
  · have hne' : allBlocksOf t.disk i' m' ≠ 0 := by rwa [← heq]
    rw [hblock m hne, hblock m' hne'] at heq
    rw [hblock m hne] at hne
    exact hw.map.inj m m' hm₁ hm₂ hne heq
  · have htable : i'.sector 12 = i.sector 12 := h.table fun hgone => h12 (h.dropped hgone.1 hgone.2)
    rw [hblock m (by rwa [heq]), htable] at heq
    rw [htable] at h12
    exact hw.map.table m hm₁ h12 heq
  · obtain ⟨l, hl, hname⟩ := hw.self
    obtain ⟨hl', heq⟩ := hkeep l hl fun hc => hc.2.1 hname
    exact ⟨l, hl', by rwa [heq]⟩
  · obtain ⟨l, hl, hname⟩ := hw.parent
    obtain ⟨hl', heq⟩ := hkeep l hl fun hc => hc.2.2 hname
    exact ⟨l, hl', by rwa [heq]⟩
  · rw [h.entryIn hl] at hname
    exact hw.first m l ((h.liveSlot_iff m l).mp hl).1 hname

theorem EntryGone.occupied (h : EntryGone s t i i' k j) (hocc : Occupied s.disk i) :
    Occupied t.disk i' := by
  have hblock : ∀ m, allBlocksOf t.disk i' m ≠ 0 →
      ¬(m = k ∧ Alone s.disk i k j) ∧ allBlocksOf s.disk i m ≠ 0 := by
    intro m hne
    have hnot : ¬(m = k ∧ Alone s.disk i k j) := by
      intro hgone
      rw [hgone.1] at hne
      exact hne (h.gone hgone.2)
    exact ⟨hnot, by rwa [← h.map m hnot]⟩
  refine ⟨fun m hm hm' hne => ?_, fun h12 hzero => ?_, fun m hm hm' => ?_, fun l l' hl hl' => ?_⟩
  · obtain ⟨hnot, hold⟩ := hblock m hne
    obtain ⟨l, hl⟩ := hocc.block m hm hm' hold
    by_cases hpos : m = k ∧ l = j
    · -- The block keeps another entry, or it would have been given back.
      by_contra hnone
      refine hnot ⟨hpos.1, by omega, fun l' hl' => ?_⟩
      by_contra hne'
      rw [← hpos.1] at hl'
      exact hnone ⟨l', (h.liveSlot_iff m l').mpr ⟨hl', fun h' => hne' h'.2⟩⟩
    · exact ⟨l, (h.liveSlot_iff m l).mpr ⟨hl, hpos⟩⟩
  · have hkeep : ¬(Alone s.disk i k j ∧ LastIndirect s.disk i k) :=
      fun hgone => h12 (h.dropped hgone.1 hgone.2)
    rw [h.table hkeep] at h12
    have hold := hocc.table h12
    by_cases hgone : 12 = k ∧ Alone s.disk i k j
    · refine hkeep ⟨hgone.2, by omega, fun m h₁ h₂ hne => ?_⟩
      by_contra hmk
      exact hne (hocc.indirect m (by omega) h₂)
    · rw [h.map 12 hgone] at hzero
      exact hold hzero
  · by_contra hne
    exact (hblock m hne).2 (hocc.indirect m hm hm')
  · exact hocc.single l l' ((h.liveSlot_iff 12 l).mp hl).1 ((h.liveSlot_iff 12 l').mp hl').1

theorem DirKept.gone (h : DirKept s p i taken) (honly : DirOnly s t p i')
    (hgone : EntryGone s t i i' k j) (hlive : LiveSlot s.disk i k j)
    (hcounts : (entryIn s.disk i (k, j)).Counts)
    (hless : i'.iSize.toNat + dirEntrySize = i.iSize.toNat) :
    DirKept t p i' (takenAfter s t taken) := by
  have hentry : dirEntrySize = 24 := rfl
  have hm := h.mounted
  have hmt := honly.mounted hm
  have haddr : ∀ b, blockAddr t.part b = blockAddr s.part b := by
    intro b
    rw [blockAddr, blockAddr, honly.part]
  have hplaced := entryGone_placed hgone h.placed honly hlive hcounts
  refine ⟨hmt, honly.inode, hplaced, hgone.occupied h.occupied, fun b hb => hb.1,
    fun lba b href hb => ⟨(hplaced.map.used lba href).bit hmt hb, Or.inl ?_⟩, ?_⟩
  · exact h.held lba b (hgone.references href) (honly.bitOf.mp hb)
  · obtain ⟨lost, hlost, hsize⟩ := h.size
    refine ⟨lost, ⟨hlost.nodup, fun b hb => ⟨(hgone.bit b).mpr ⟨h.set b (hlost.held b hb), ?_⟩,
      Or.inl (hlost.held b hb)⟩, fun b hb => ?_, fun b hb href => ?_⟩, ?_⟩
    · -- Only blocks that were referenced are given back.
      rintro ⟨lba, ⟨-, hblock⟩, hbit⟩
      refine hlost.unreferenced b hb ?_
      rw [← hbit.2]
      rcases hblock with rfl | ⟨hlast, rfl⟩
      · exact ⟨hlive.2.2.1, Or.inr ⟨k, hlive.1, rfl⟩⟩
      · exact ⟨table_of_indirect hlast.1 hlive.2.2.1, Or.inl rfl⟩
    · rw [haddr, honly.len]
      exact hlost.onDisk b hb
    · rw [haddr] at href
      exact hlost.unreferenced b hb (hgone.references href)
    · have hlength : (liveSlots t.disk i').length + 1 = (liveSlots s.disk i).length := by
        rw [hgone.liveSlots, List.length_erase_of_mem (mem_liveSlots.mpr hlive)]
        have hpos := liveSlots_pos hlive
        omega
      rw [← hlength] at hsize
      rw [hentry] at hless hsize ⊢
      omega

end

/-! ## Runs -/

/-- Between `s` and `t` something else went on: the directory keeps its size, its blocks and
what is in them, and the blocks it has taken stay in use. -/
structure Elsewhere (s t : State) (dir : DirPtr) (p : Ptr) (i i' : Inode) (taken : Nat → Prop) :
    Prop where
  mounted : t.part.Mounted
  sb : t.part.sb = s.part.sb
  len : t.part.blockBitmap.btmpBytesLen = s.part.blockBitmap.btmpBytesLen
  handle : t.inodeOf dir = some p
  inode : t.inodes p = some i'
  size : i'.iSize = i.iSize
  sectors : i'.iSectors = i.iSectors
  blocks : ∀ lba, References s.disk i lba → SameBlock s.disk t.disk lba
  set : ∀ b, taken b → t.part.blockBitmap.bit b = true

/-- At most one entry other than `.` and `..` carries the number `n`. -/
def CarriedOnce (disk : Bytes) (i : Inode) (n : UInt32) : Prop :=
  ∀ k j m l, LiveSlot disk i k j → (entryIn disk i (k, j)).Counts →
    (entryIn disk i (k, j)).iNo = n → LiveSlot disk i m l → (entryIn disk i (m, l)).Counts →
      (entryIn disk i (m, l)).iNo = n → m = k ∧ l = j

/-- A successful call on the directory `dir`, whose inode is at `p`, or something elsewhere.
No caller passes an entry without a type, or one with the name `.` or `..`. -/
inductive DirStep (dir : DirPtr) (p : Ptr) :
    State → (Nat → Prop) → State → (Nat → Prop) → Prop
  | sync {s t : State} {taken : Nat → Prop} {pDe : DirEntry} {ioBuf : Buf} (he : pDe.Counts)
      (hio : 512 ≤ ioBuf.size) (hrun : (syncDirEntry dir pDe ioBuf).run s = .ok (true, t)) :
      DirStep dir p s taken t (takenAfter s t taken)
  | delete {s t : State} {taken : Nat → Prop} {inodeNo : UInt32} {i : Inode}
      (hi : s.inodes p = some i) (hone : CarriedOnce s.disk i inodeNo)
      (hrun : (deleteDirEntry dir inodeNo).run s = .ok (true, t)) :
      DirStep dir p s taken t (takenAfter s t taken)
  | elsewhere {s t : State} {taken : Nat → Prop} {i i' : Inode} (hi : s.inodes p = some i)
      (h : Elsewhere s t dir p i i' taken) : DirStep dir p s taken t taken

inductive DirRun (dir : DirPtr) (p : Ptr) (s : State) (taken : Nat → Prop) :
    State → (Nat → Prop) → Prop
  | refl : DirRun dir p s taken s taken
  | tail {t u : State} {taken' taken'' : Nat → Prop} (hrun : DirRun dir p s taken t taken')
      (hstep : DirStep dir p t taken' u taken'') : DirRun dir p s taken u taken''

section

variable {s t : State} {dir : DirPtr} {p : Ptr} {i i' : Inode} {n lba : UInt32} {k j m l b : Nat}
variable {taken taken' : Nat → Prop}

theorem DirOnly.inodeOf (h : DirOnly s t p i') (dir : DirPtr) : t.inodeOf dir = s.inodeOf dir := by
  rw [h.state]
  rfl

namespace Elsewhere

theorem allBlocks (h : Elsewhere s t dir p i i' taken) (m : Nat) :
    allBlocksOf t.disk i' m = allBlocksOf s.disk i m := by
  rw [allBlocksOf_sectors t.disk h.sectors]
  exact allBlocksOf_congr (fun _ => rfl) rfl fun h12 => h.blocks _ ⟨h12, Or.inl rfl⟩

theorem sector (h : Elsewhere s t dir p i i' taken) (m : Nat) : i'.sector m = i.sector m := by
  rw [Inode.sector, Inode.sector, h.sectors]

theorem references (h : Elsewhere s t dir p i i' taken) :
    References t.disk i' lba ↔ References s.disk i lba := by
  unfold References
  simp only [h.allBlocks, h.sector]

theorem slot (h : Elsewhere s t dir p i i' taken) (hm : m < 140) (hl : l < dirEntrysPerSec)
    (hne : allBlocksOf s.disk i m ≠ 0) :
    blockSlot t.disk (allBlocksOf s.disk i m) l = blockSlot s.disk (allBlocksOf s.disk i m) l :=
  (h.blocks _ ⟨hne, Or.inr ⟨m, hm, rfl⟩⟩).blockSlot hl

theorem liveSlot (h : Elsewhere s t dir p i i' taken) (m l : Nat) :
    LiveSlot t.disk i' m l ↔ LiveSlot s.disk i m l := by
  unfold LiveSlot
  rw [h.allBlocks]
  refine and_congr_right fun hm => and_congr_right fun hl => and_congr_right fun hne => ?_
  rw [h.slot hm hl hne]

theorem entryAt (h : Elsewhere s t dir p i i' taken) (hlive : LiveSlot s.disk i m l) :
    entryIn t.disk i' (m, l) = entryIn s.disk i (m, l) := by
  show blockSlot t.disk (allBlocksOf t.disk i' m) l = blockSlot s.disk (allBlocksOf s.disk i m) l
  rw [h.allBlocks]
  exact h.slot hlive.1 hlive.2.1 hlive.2.2.1

theorem bitOf (h : Elsewhere s t dir p i i' taken) : BitOf t.part lba b ↔ BitOf s.part lba b := by
  unfold BitOf blockAddr
  rw [h.len, h.sb]

theorem placed (h : Elsewhere s t dir p i i' taken) (hk : DirKept s p i taken) :
    DirPlaced t.part t.disk i' := by
  have hw := hk.placed
  refine ⟨⟨fun lba href => ?_, fun m m' hm hm' hne heq => ?_, fun m hm h12 heq => ?_⟩, ?_, ?_,
    fun m l hl hname => ?_⟩
  · have hold := h.references.mp href
    obtain ⟨b, hb, heq, -, hsel⟩ := hw.map.used lba hold
    have hbit := h.bitOf.mpr ⟨hb, heq⟩
    exact ⟨b, hbit.1, hbit.2, h.set b (hk.held lba b hold ⟨hb, heq⟩), hsel⟩
  · rw [h.allBlocks, h.allBlocks] at heq
    rw [h.allBlocks] at hne
    exact hw.map.inj m m' hm hm' hne heq
  · rw [h.allBlocks, h.sector] at heq
    rw [h.sector] at h12
    exact hw.map.table m hm h12 heq
  · obtain ⟨l, hl, hname⟩ := hw.self
    exact ⟨l, (h.liveSlot 0 l).mpr hl, by rwa [h.entryAt hl]⟩
  · obtain ⟨l, hl, hname⟩ := hw.parent
    exact ⟨l, (h.liveSlot 0 l).mpr hl, by rwa [h.entryAt hl]⟩
  · have hold := (h.liveSlot m l).mp hl
    rw [h.entryAt hold] at hname
    exact hw.first m l hold hname

theorem occupied (h : Elsewhere s t dir p i i' taken) (hocc : Occupied s.disk i) :
    Occupied t.disk i' := by
  refine ⟨fun m hm hm' hne => ?_, fun h12 => ?_, fun m hm hm' => ?_, fun l l' hl hl' => ?_⟩
  · rw [h.allBlocks] at hne
    obtain ⟨l, hl⟩ := hocc.block m hm hm' hne
    exact ⟨l, (h.liveSlot m l).mpr hl⟩
  · rw [h.sector] at h12
    rw [h.allBlocks]
    exact hocc.table h12
  · rw [h.allBlocks]
    exact hocc.indirect m hm hm'
  · exact hocc.single l l' ((h.liveSlot 12 l).mp hl) ((h.liveSlot 12 l').mp hl')

theorem kept (h : Elsewhere s t dir p i i' taken) (hk : DirKept s p i taken) :
    DirKept t p i' taken := by
  have haddr : ∀ b, blockAddr t.part b = blockAddr s.part b := by
    intro b
    rw [blockAddr, blockAddr, h.sb]
  refine ⟨h.mounted, h.inode, h.placed hk, h.occupied hk.occupied, h.set,
    fun lba b href hb => hk.held lba b (h.references.mp href) (h.bitOf.mp hb), ?_⟩
  obtain ⟨lost, hlost, hsize⟩ := hk.size
  refine ⟨lost, ⟨hlost.nodup, hlost.held, fun b hb => ?_, fun b hb href => ?_⟩, ?_⟩
  · rw [haddr, h.len]
    exact hlost.onDisk b hb
  · rw [haddr] at href
    exact hlost.unreferenced b hb (h.references.mp href)
  · have hlive : liveSlots t.disk i' = liveSlots s.disk i := by
      unfold liveSlots
      simp only [h.liveSlot]
    rw [h.size, hsize, hlive]

end Elsewhere

/-- An entry with the number is there when the call succeeds. -/
theorem exists_sole {dir : DirPtr} (hm : s.part.Mounted) (hd : s.inodeOf dir = some p)
    (hi : s.inodes p = some i) (hmap : BlockMapOk s.part s.disk i)
    (hone : CarriedOnce s.disk i n) (hrun : (deleteDirEntry dir n).run s = .ok (true, t)) :
    ∃ k j, Sole s.disk i n k j := by
  by_contra hnone
  obtain ⟨r, u, hrun', hr⟩ := returns_iff.mp (deleteDirEntry_missing (n := n) hm hd hi hmap
    fun m l hl hc hno => hnone ⟨m, l, hl, hc, hno,
      fun m' l' hl' hc' hno' => hone m l m' l' hl hc hno hl' hc' hno'⟩)
  rw [hrun, Except.ok.injEq, Prod.mk.injEq] at hrun'
  rw [← hrun'.1] at hr
  exact Bool.noConfusion hr

theorem DirKept.size_ge (h : DirKept s p i taken) (hlive : LiveSlot s.disk i k j) :
    dirEntrySize ≤ i.iSize.toNat := by
  obtain ⟨lost, -, hsize⟩ := h.size
  have hpos := liveSlots_pos hlive
  rw [hsize]
  exact Nat.le_mul_of_pos_right _ (by omega)

/-- A step keeps the directory in order. -/
theorem DirStep.kept (hstep : DirStep dir p s taken t taken') (hd : s.inodeOf dir = some p)
    (h : DirKept s p i taken) :
    t.inodeOf dir = some p ∧ ∃ i', DirKept t p i' taken' := by
  cases hstep with
  | sync he hio hrun =>
      obtain ⟨i', k, j, honly, hput⟩ := ensures_iff.mp
        (syncDirEntry_put h.mounted hd h.inode h.placed.map he.1 hio) _ _ hrun
      exact ⟨(honly.inodeOf dir).trans hd, i', h.put he honly hput⟩
  | delete hi hone hrun =>
      rw [h.inode, Option.some.injEq] at hi
      rw [← hi] at hone
      obtain ⟨k, j, hsole⟩ := exists_sole h.mounted hd h.inode h.placed.map hone hrun
      obtain ⟨r, u, hrun', -, i', honly, hless, hgone⟩ := returns_iff.mp
        (deleteDirEntry_gone h.mounted hd h.inode h.placed (h.size_ge hsole.slot) hsole)
      rw [hrun, Except.ok.injEq, Prod.mk.injEq] at hrun'
      rw [← hrun'.2] at honly hgone
      exact ⟨(honly.inodeOf dir).trans hd, i', h.gone honly hgone hsole.slot hsole.counts hless⟩
  | elsewhere hi helse =>
      rw [h.inode, Option.some.injEq] at hi
      rw [← hi] at helse
      exact ⟨helse.handle, _, helse.kept h⟩

theorem DirRun.kept (hrun : DirRun dir p s taken t taken') (hd : s.inodeOf dir = some p)
    (h : DirKept s p i taken) :
    t.inodeOf dir = some p ∧ ∃ i', DirKept t p i' taken' := by
  induction hrun with
  | refl => exact ⟨hd, i, h⟩
  | tail _ hstep ih =>
      obtain ⟨hd', i', h'⟩ := ih
      exact hstep.kept hd' h'

/-! ## The empty directory -/

/-- The blocks of the directory behind the first one are occupied, and when `dir_is_empty`
says that it is empty, it holds only `.` and `..` and the assertion of `dir_remove` holds. -/
structure Accounted (s : State) (dir : DirPtr) (i : Inode) : Prop where
  direct : ∀ m, 1 ≤ m → m < 12 → i.sector m ≠ 0 → ∃ l, LiveSlot s.disk i m l
  indirect : ∀ m, 12 ≤ m → m < 140 → allBlocksOf s.disk i m ≠ 0 → ∃ l, LiveSlot s.disk i m l
  entries : ∀ t, (dirIsEmpty dir).run s = .ok (true, t) →
    ∀ name, (∃ e, Live s.disk i e ∧ e.name = name) ↔ name = [dot] ∨ name = [dot, dot]
  oneBlock : ∀ t, (dirIsEmpty dir).run s = .ok (true, t) → OneBlock i

theorem DirKept.empty_slots (h : DirKept s p i taken) (hsize : i.iSize.toNat = 2 * dirEntrySize) :
    ∃ l₁ l₂, (LiveSlot s.disk i 0 l₁ ∧ (entryIn s.disk i (0, l₁)).name = [dot]) ∧
      (LiveSlot s.disk i 0 l₂ ∧ (entryIn s.disk i (0, l₂)).name = [dot, dot]) ∧
        ∀ k j, LiveSlot s.disk i k j → k = 0 ∧ (j = l₁ ∨ j = l₂) := by
  obtain ⟨l₁, hl₁, hself⟩ := h.placed.self
  obtain ⟨l₂, hl₂, hparent⟩ := h.placed.parent
  obtain ⟨lost, -, hcount⟩ := h.size
  have hentry : dirEntrySize = 24 := rfl
  have hne : ((0, l₁) : Nat × Nat) ≠ (0, l₂) := by
    intro heq
    rw [heq, hparent] at hself
    exact absurd hself (by decide)
  have hsub : [(0, l₁), (0, l₂)] ⊆ liveSlots s.disk i := by
    intro x hx
    rcases List.mem_cons.mp hx with rfl | hx
    · exact mem_liveSlots.mpr hl₁
    · rw [List.mem_singleton.mp hx]
      exact mem_liveSlots.mpr hl₂
  have hlen : (liveSlots s.disk i).length ≤ 2 := by
    rw [hsize, hentry] at hcount
    omega
  have hnodup : [(0, l₁), (0, l₂)].Nodup := by
    simp [hne]
  have hperm := (List.Nodup.subperm hnodup hsub).perm_of_length_le hlen
  refine ⟨l₁, l₂, ⟨hl₁, hself⟩, ⟨hl₂, hparent⟩, fun k j hlive => ?_⟩
  have hmem := hperm.mem_iff.mpr (mem_liveSlots.mpr hlive)
  simp only [List.mem_cons, Prod.mk.injEq, List.not_mem_nil, or_false] at hmem
  omega

theorem DirKept.accounted (h : DirKept s p i taken) (hd : s.inodeOf dir = some p) :
    Accounted s dir i := by
  have hempty : ∀ t, (dirIsEmpty dir).run s = .ok (true, t) → i.iSize.toNat = 2 * dirEntrySize := by
    intro t hrun
    have hwp : Ensures (dirIsEmpty dir) s fun r _ => r = true → i.iSize = 48 := by
      unfold dirIsEmpty
      rw [Ensures, Wp.bind, wp_dirInode_some hd, Wp.bind, wp_loadInode_some h.inode, Wp.bind, Wp.get,
        Wp.pure, entrySize_eq h.mounted]
      exact fun hdec => of_decide_eq_true hdec
    rw [ensures_iff.mp hwp _ _ hrun rfl]
    rfl
  refine ⟨fun m hm hm' hne => ?_, fun m hm hm' hne => ?_, fun t hrun name => ?_,
    fun t hrun m hm => ?_⟩
  · rw [← allBlocksOf_direct s.disk i hm'] at hne
    exact h.occupied.block m hm (by omega) hne
  · exact h.occupied.block m (by omega) hm' hne
  · obtain ⟨l₁, l₂, ⟨hl₁, hself⟩, ⟨hl₂, hparent⟩, hall⟩ := h.empty_slots (hempty t hrun)
    constructor
    · rintro ⟨e, ⟨k, j, hlive, rfl⟩, rfl⟩
      obtain ⟨rfl, rfl | rfl⟩ := hall k j hlive
      · exact Or.inl hself
      · exact Or.inr hparent
    · rintro (rfl | rfl)
      · exact ⟨_, ⟨0, l₁, hl₁, rfl⟩, hself⟩
      · exact ⟨_, ⟨0, l₂, hl₂, rfl⟩, hparent⟩
  · obtain ⟨l₁, l₂, -, -, hall⟩ := h.empty_slots (hempty t hrun)
    by_contra hne
    -- The block would hold a live entry, but all live entries are in the first block.
    by_cases hlow : m + 1 < 12
    · rw [← allBlocksOf_direct s.disk i hlow] at hne
      obtain ⟨l, hl⟩ := h.occupied.block (m + 1) (by omega) (by omega) hne
      have hfirst := (hall _ _ hl).1
      omega
    · have hm12 : m + 1 = 12 := by omega
      rw [hm12] at hne
      obtain ⟨l, hl⟩ := h.occupied.block 12 (by omega) (by omega) (h.occupied.table hne)
      have hfirst := (hall _ _ hl).1
      omega

end

end OsTruth
