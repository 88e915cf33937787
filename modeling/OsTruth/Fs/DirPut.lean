/-
What `sync_dir_entry` does to a directory whose blocks are in order.

`EntryPut` says it for the three places that the entry can get: a free slot, a new direct
block, and the first block of a new table.
-/
import OsTruth.Fs.DirDelete

namespace OsTruth

open ByteString Fallible

/-- From `s` to `t` the entry `e` was put into slot `j` of block `k` of the directory `i`,
which is `i'` now.  Block 12 comes with a new table, and what was behind the direct blocks
is gone then. -/
structure EntryPut (s t : State) (i i' : Inode) (e : DirEntry) (k j : Nat) : Prop where
  low : k ≤ 12
  live : ∀ m l, LiveSlot t.disk i' m l ↔
    m = k ∧ l = j ∨ LiveSlot s.disk i m l ∧ ¬(k = 12 ∧ 12 ≤ m)
  fresh : LiveSlot s.disk i k j → k = 12
  slot : entryIn t.disk i' (k, j) = e
  entry : ∀ m l, LiveSlot t.disk i' m l → ¬(m = k ∧ l = j) →
    entryIn t.disk i' (m, l) = entryIn s.disk i (m, l)
  blocks : ∀ m, m < 140 → m ≠ k → allBlocksOf t.disk i' m ≠ 0 →
    allBlocksOf s.disk i m ≠ 0 ∧ ¬(k = 12 ∧ 12 ≤ m)
  table : k ≠ 12 → i'.sector 12 = i.sector 12
  map : BlockMapOk t.part t.disk i'
  kept : ∀ lba, References t.disk i' lba → References s.disk i lba ∧ (k = 12 → lba ≠ i.sector 12) ∨
    ∃ b, BitOf s.part lba b ∧ s.part.blockBitmap.bit b = false
  size : i'.iSize = i.iSize + 24
  bit : ∀ b, s.part.blockBitmap.bit b = true → t.part.blockBitmap.bit b = true
  disk : ∀ lba, UsedBlock s.part lba → ¬References s.disk i lba → SameBlock s.disk t.disk lba

section

variable {s t : State} {p : Ptr} {i i' : Inode} {lba : UInt32} {k j b c : Nat} {e : DirEntry}

/-- Blocks stay in use while bits are only set. -/
theorem UsedBlock.mono (h : UsedBlock s.part lba) (honly : DirOnly s t p i')
    (hbit : ∀ b, s.part.blockBitmap.bit b = true → t.part.blockBitmap.bit b = true) :
    UsedBlock t.part lba := by
  obtain ⟨b, hb, heq, hset, hsel⟩ := h
  refine ⟨b, by rwa [honly.len], ?_, hbit b hset, hsel⟩
  rw [heq, blockAddr, blockAddr, honly.part]

/-- The live slots, when nothing is lost. -/
theorem Installed.liveSlot_iff {disk disk' : Bytes} (h : Installed disk disk' i i' e k j)
    (hkeep : KeepsLive disk disk' i i' k j) (he : e.fType ≠ 0) (m l : Nat) :
    LiveSlot disk' i' m l ↔ m = k ∧ l = j ∨ LiveSlot disk i m l := by
  constructor
  · rintro ⟨hm, hl, hne, htype⟩
    by_cases hpos : m = k ∧ l = j
    · exact Or.inl hpos
    · rcases h.others m l hm hl hpos hne with hzero | ⟨hblock, hslot⟩
      · rw [hzero] at htype
        exact absurd rfl htype
      · exact Or.inr ⟨hm, hl, by rwa [← hblock], by rwa [← hslot]⟩
  · rintro (⟨rfl, rfl⟩ | hlive)
    · exact ⟨h.lt.1, h.lt.2, h.block, by rwa [h.slot]⟩
    · obtain ⟨-, hblock, hsame⟩ := hkeep m l hlive
      obtain ⟨hm, hl, hne, htype⟩ := hlive
      exact ⟨hm, hl, by rwa [hblock], by rwa [hblock, hsame]⟩

/-- What the two places among the direct blocks have in common. -/
theorem EntryPut.of_installed (hk : k < 12) (he : e.fType ≠ 0)
    (hinst : Installed s.disk t.disk i i' e k j) (hkeep : KeepsLive s.disk t.disk i i' k j)
    (hblocks : ∀ m, m ≠ k → allBlocksOf t.disk i' m = allBlocksOf s.disk i m)
    (htable : i'.sector 12 = i.sector 12) (hmap : BlockMapOk t.part t.disk i')
    (hkept : ∀ lba, References t.disk i' lba → References s.disk i lba ∨
      ∃ b, BitOf s.part lba b ∧ s.part.blockBitmap.bit b = false)
    (hsize : i'.iSize = i.iSize + 24)
    (hbit : ∀ b, s.part.blockBitmap.bit b = true → t.part.blockBitmap.bit b = true)
    (hdisk : ∀ lba, UsedBlock s.part lba → ¬References s.disk i lba →
      SameBlock s.disk t.disk lba) : EntryPut s t i i' e k j where
  low := by omega
  live m l := by
    have hlow : ¬(k = 12 ∧ 12 ≤ m) := by omega
    rw [hinst.liveSlot_iff hkeep he, and_iff_left hlow]
  fresh hlive := absurd ⟨rfl, rfl⟩ (hkeep k j hlive).1
  slot := hinst.slot
  entry m l hlive hpos := by
    rcases (hinst.liveSlot_iff hkeep he m l).mp hlive with h | h
    · exact absurd h hpos
    · obtain ⟨-, hblock, hsame⟩ := hkeep m l h
      show blockSlot t.disk (allBlocksOf t.disk i' m) l = blockSlot s.disk (allBlocksOf s.disk i m) l
      rw [hblock, hsame]
  blocks m _ hmk hne := by
    rw [hblocks m hmk] at hne
    exact ⟨hne, by omega⟩
  table _ := htable
  map := hmap
  kept lba h := (hkept lba h).imp_left fun h => ⟨h, by omega⟩
  size := hsize
  bit := hbit
  disk := hdisk

/-- The block map after the entry went into a free slot. -/
theorem hole_references (hok : BlockMapOk s.part s.disk i) (hk : k < 12) (hne : i.sector k ≠ 0)
    (hfree : freeIn s.disk (i.sector k) = some j)
    (h : References (splice s.disk (slotPlace (i.sector k) j) dirEntrySize e.bytes) i.grown lba) :
    References s.disk i lba := by
  obtain ⟨-, -, hmap⟩ := installed_hole (e := e) hok hk hne hfree
  obtain ⟨hlba, h | ⟨m, hm, h⟩⟩ := h
  · exact ⟨hlba, Or.inl h⟩
  · exact ⟨hlba, Or.inr ⟨m, hm, (hmap m).symm.trans h⟩⟩

theorem hole_map (hok : BlockMapOk s.part s.disk i) (hk : k < 12) (hne : i.sector k ≠ 0)
    (hfree : freeIn s.disk (i.sector k) = some j) :
    BlockMapOk s.part (splice s.disk (slotPlace (i.sector k) j) dirEntrySize e.bytes) i.grown := by
  obtain ⟨-, -, hmap⟩ := installed_hole (e := e) hok hk hne hfree
  refine ⟨fun lba h => hok.used lba (hole_references hok hk hne hfree h), ?_, ?_⟩
  · intro m m' hm hm' hm0 heq
    refine hok.inj m m' hm hm' ?_ ?_
    · rwa [← hmap m]
    · rw [← hmap m, ← hmap m']
      exact heq
  · intro m hm h12 heq
    exact hok.table m hm h12 ((hmap m).symm.trans heq)

/-- The entry went into a free slot. -/
theorem entryPut_hole (hok : BlockMapOk s.part s.disk i) (he : e.fType ≠ 0) (hk : k < 12)
    (hne : i.sector k ≠ 0) (hfree : freeIn s.disk (i.sector k) = some j) :
    EntryPut s ((s.store (slotPlace (i.sector k) j) dirEntrySize e.bytes).putInode p
      (some i.grown)) i i.grown e k j := by
  obtain ⟨hinst, hkeep, hmap⟩ := installed_hole (e := e) hok hk hne hfree
  obtain ⟨-, hj, -⟩ := freeSlot_some hfree
  refine .of_installed hk he hinst hkeep (fun m _ => hmap m) rfl (hole_map hok hk hne hfree)
    (fun lba h => Or.inl (hole_references hok hk hne hfree h)) rfl (fun _ h => h)
    fun lba _ hno => ?_
  refine sameBlock_slot _ _ (by omega) fun heq => hno ⟨?_, Or.inr ⟨k, by omega, ?_⟩⟩
  · rwa [heq]
  · rw [allBlocksOf_direct _ _ hk, heq]

theorem set_bit_mono (bm : Bitmap) (b : Nat) {c : Nat} (h : bm.bit c = true) :
    (bm.set b true).bit c = true := by
  rw [Bitmap.bit_set]
  by_cases hc : c = b
  · rw [if_pos hc]
  · rw [if_neg hc, h]

/-- A block that was just taken is in use. -/
theorem usedBlock_take (hb : s.part.blockBitmap.FirstClear b)
    (hsel : Selectable (blockAddr s.part b) 1) :
    UsedBlock (s.takeBlock b).part (blockAddr s.part b) := by
  refine ⟨b, hb.1, rfl, ?_, hsel⟩
  show (s.part.blockBitmap.set b true).bit b = true
  rw [Bitmap.bit_set, if_pos rfl]

/-- The block map after the entry went into a new direct block. -/
theorem direct_references (hm : s.part.Mounted) (hok : BlockMapOk s.part s.disk i) (hk : k < 12)
    (hz : i.sector k = 0) (hb : s.part.blockBitmap.FirstClear b)
    (h : References (directDisk s b e) (directInode s i k b) lba) :
    References s.disk i lba ∨ lba = blockAddr s.part b := by
  obtain ⟨-, -, hmap, h12⟩ := installed_direct (e := e) hm hok hk hz hb
  obtain ⟨hlba, h | ⟨m, hm', h⟩⟩ := h
  · exact Or.inl ⟨hlba, Or.inl (h.trans h12)⟩
  · rw [hmap] at h
    by_cases hmk : m = k
    · rw [if_pos hmk] at h
      exact Or.inr h.symm
    · rw [if_neg hmk] at h
      exact Or.inl ⟨hlba, Or.inr ⟨m, hm', h⟩⟩

theorem direct_map (hm : s.part.Mounted) (hok : BlockMapOk s.part s.disk i) (hk : k < 12)
    (hz : i.sector k = 0) (hb : s.part.blockBitmap.FirstClear b)
    (hsel : Selectable (blockAddr s.part b) 1) :
    BlockMapOk (s.takeBlock b).part (directDisk s b e) (directInode s i k b) := by
  obtain ⟨-, -, hmap, h12⟩ := installed_direct (e := e) hm hok hk hz hb
  have hfresh : ∀ m, m < 140 → allBlocksOf s.disk i m ≠ blockAddr s.part b := by
    intro m hm' heq
    have hne : allBlocksOf s.disk i m ≠ 0 := by
      rw [heq]
      exact blockAddr_pos hm hb.1
    exact (hok.used _ ⟨hne, Or.inr ⟨m, hm', rfl⟩⟩).ne_fresh hm hb heq
  refine ⟨fun lba h => ?_, fun m m' hm₁ hm₂ hm0 heq => ?_, fun m hm₁ htable heq => ?_⟩
  · rcases direct_references hm hok hk hz hb h with h | rfl
    · exact (hok.used lba h).takeBlock
    · exact usedBlock_take hb hsel
  · rw [hmap] at hm0
    rw [hmap, hmap] at heq
    by_cases hmk : m = k
    · by_cases hmk' : m' = k
      · rw [hmk, hmk']
      · rw [if_pos hmk, if_neg hmk'] at heq
        exact absurd heq.symm (hfresh m' hm₂)
    · rw [if_neg hmk] at hm0 heq
      by_cases hmk' : m' = k
      · rw [if_pos hmk'] at heq
        exact absurd heq (hfresh m hm₁)
      · rw [if_neg hmk'] at heq
        exact hok.inj m m' hm₁ hm₂ hm0 heq
  · rw [h12] at htable
    rw [hmap, h12] at heq
    by_cases hmk : m = k
    · rw [if_pos hmk] at heq
      exact (hok.used _ ⟨htable, Or.inl rfl⟩).ne_fresh hm hb heq.symm
    · rw [if_neg hmk] at heq
      exact hok.table m hm₁ htable heq

/-- The entry went into a new direct block. -/
theorem entryPut_direct (hm : s.part.Mounted) (hok : BlockMapOk s.part s.disk i)
    (he : e.fType ≠ 0) (hk : k < 12) (hz : i.sector k = 0) (hb : s.part.blockBitmap.FirstClear b)
    (hsel : Selectable (blockAddr s.part b) 1) :
    EntryPut s ((s.takeBlock b).withEntryBlock p (i.setSector k (blockAddr s.part b)) e
      (blockAddr s.part b)) i (directInode s i k b) e k 0 := by
  obtain ⟨hinst, hkeep, hmap, h12⟩ := installed_direct (e := e) hm hok hk hz hb
  refine .of_installed hk he hinst hkeep (fun m hmk => (hmap m).trans (if_neg hmk)) h12
    (direct_map hm hok hk hz hb hsel) (fun lba h => ?_) rfl (fun c => set_bit_mono _ _)
    fun lba hused _ => directDisk_sameBlock hm hb hused
  rcases direct_references hm hok hk hz hb h with h | rfl
  · exact Or.inl h
  · exact Or.inr ⟨b, ⟨hb.1, rfl⟩, hb.2.1⟩

/-! A new table: the references, the live slots and the block map. -/

theorem tableInode_sector (s : State) (i : Inode) (b : Nat) :
    (tableInode s i b).sector 12 = blockAddr s.part b :=
  (Inode.sector_setSector i (by omega) _ 12).trans (if_pos rfl)

/-- Neither of the new blocks was referenced. -/
theorem table_fresh (hm : s.part.Mounted) (hok : BlockMapOk s.part s.disk i)
    (hb : s.part.blockBitmap.FirstClear b) (hc : (s.takeBlock b).part.blockBitmap.FirstClear c)
    {m : Nat} (hlow : m < 12) (hne : i.sector m ≠ 0) :
    i.sector m ≠ blockAddr s.part b ∧ i.sector m ≠ blockAddr s.part c := by
  have hused := hok.used _ ⟨hne, Or.inr ⟨m, by omega, allBlocksOf_direct _ _ hlow⟩⟩
  have hused' : UsedBlock (s.takeBlock b).part (i.sector m) := hused.takeBlock
  exact ⟨hused.ne_fresh hm hb, fun h => hused'.ne_fresh (State.takeBlock_mounted hm b) hc h⟩

theorem tableDisk_references (hm : s.part.Mounted) (hb : s.part.blockBitmap.FirstClear b)
    (hc : (s.takeBlock b).part.blockBitmap.FirstClear c)
    (h : References (tableDisk s i b c e) (tableInode s i b) lba) :
    (∃ m, m < 12 ∧ i.sector m ≠ 0 ∧ lba = i.sector m) ∨ lba = blockAddr s.part b ∨
      lba = blockAddr s.part c := by
  obtain ⟨hlba, h | ⟨m, hm', h⟩⟩ := h
  · exact Or.inr (Or.inl (h.trans (tableInode_sector s i b)))
  · rw [tableDisk_blocks hm hb hc hm'] at h
    by_cases hlow : m < 12
    · rw [if_pos hlow] at h
      exact Or.inl ⟨m, hlow, by rwa [h], h.symm⟩
    · rw [if_neg hlow] at h
      by_cases h12 : m = 12
      · rw [if_pos h12] at h
        exact Or.inr (Or.inr h.symm)
      · rw [if_neg h12] at h
        exact absurd h.symm hlba

theorem tableDisk_liveSlot (hm : s.part.Mounted) (hok : BlockMapOk s.part s.disk i)
    (he : e.fType ≠ 0) (hb : s.part.blockBitmap.FirstClear b)
    (hc : (s.takeBlock b).part.blockBitmap.FirstClear c) (m l : Nat) :
    LiveSlot (tableDisk s i b c e) (tableInode s i b) m l ↔
      m = 12 ∧ l = 0 ∨ LiveSlot s.disk i m l ∧ m < 12 := by
  obtain ⟨hinst, -⟩ := installed_table (e := e) hm hok hb hc
  constructor
  · rintro ⟨hm', hl, hne, htype⟩
    by_cases hlow : m < 12
    · rw [tableDisk_blocks hm hb hc hm', if_pos hlow] at hne
      obtain ⟨hblock, hslot⟩ := tableDisk_direct (e := e) hm hok hb hc hlow hl hne
      rw [hblock, hslot] at htype
      refine Or.inr ⟨⟨hm', hl, ?_, htype⟩, hlow⟩
      rwa [allBlocksOf_direct _ _ hlow]
    · rw [tableDisk_blocks hm hb hc hm', if_neg hlow] at hne htype
      by_cases h12 : m = 12
      · rw [if_pos h12] at htype
        refine Or.inl ⟨h12, ?_⟩
        by_contra hl0
        have hzero : blockSlot (tableDisk s i b c e) (blockAddr s.part c) l = .zero :=
          (blockSlot_entryBlock _ _ _ hl).trans (if_neg hl0)
        rw [hzero] at htype
        exact htype rfl
      · rw [if_neg h12] at hne
        exact absurd rfl hne
  · rintro (⟨rfl, rfl⟩ | ⟨⟨hm', hl, hne, htype⟩, hlow⟩)
    · exact ⟨hinst.lt.1, hinst.lt.2, hinst.block, by rwa [hinst.slot]⟩
    · rw [allBlocksOf_direct _ _ hlow] at hne
      obtain ⟨hblock, hslot⟩ := tableDisk_direct (e := e) hm hok hb hc hlow hl hne
      refine ⟨hm', hl, ?_, by rwa [hblock, hslot]⟩
      rwa [hblock, allBlocksOf_direct _ _ hlow]

theorem tableDisk_map (hm : s.part.Mounted) (hok : BlockMapOk s.part s.disk i)
    (hb : s.part.blockBitmap.FirstClear b) (hc : (s.takeBlock b).part.blockBitmap.FirstClear c)
    (hsb : Selectable (blockAddr s.part b) 1) (hsc : Selectable (blockAddr s.part c) 1) :
    BlockMapOk ((s.takeBlock b).takeBlock c).part (tableDisk s i b c e) (tableInode s i b) where
  used lba h := by
    rcases tableDisk_references hm hb hc h with ⟨m, hlow, hne, rfl⟩ | rfl | rfl
    · have hused := hok.used _ ⟨hne, Or.inr ⟨m, by omega, allBlocksOf_direct _ _ hlow⟩⟩
      exact hused.takeBlock.takeBlock
    · exact (usedBlock_take hb hsb).takeBlock
    · exact usedBlock_take (s := s.takeBlock b) hc hsc
  inj m m' hm₁ hm₂ hm0 heq := by
    rw [tableDisk_blocks hm hb hc hm₁] at hm0
    rw [tableDisk_blocks hm hb hc hm₁, tableDisk_blocks hm hb hc hm₂] at heq
    by_cases hlow : m < 12
    · rw [if_pos hlow] at hm0 heq
      by_cases hlow' : m' < 12
      · rw [if_pos hlow'] at heq
        refine hok.inj m m' hm₁ hm₂ ?_ ?_
        · rwa [allBlocksOf_direct _ _ hlow]
        · rwa [allBlocksOf_direct _ _ hlow, allBlocksOf_direct _ _ hlow']
      · rw [if_neg hlow'] at heq
        by_cases h12 : m' = 12
        · rw [if_pos h12] at heq
          exact absurd heq (table_fresh hm hok hb hc hlow hm0).2
        · rw [if_neg h12] at heq
          exact absurd heq hm0
    · rw [if_neg hlow] at hm0 heq
      have h12 : m = 12 := by
        by_contra h12
        exact hm0 (if_neg h12)
      rw [if_pos h12] at hm0 heq
      by_cases hlow' : m' < 12
      · rw [if_pos hlow'] at heq
        exact absurd heq.symm (table_fresh hm hok hb hc hlow' (by rwa [← heq])).2
      · rw [if_neg hlow'] at heq
        by_cases h12' : m' = 12
        · rw [h12, h12']
        · rw [if_neg h12'] at heq
          exact absurd heq hm0
  table m hm₁ _ heq := by
    obtain ⟨hcb, -, hclt⟩ := firstClear_second hc
    rw [tableDisk_blocks hm hb hc hm₁, tableInode_sector] at heq
    by_cases hlow : m < 12
    · rw [if_pos hlow] at heq
      have hne : i.sector m ≠ 0 := by
        rw [heq]
        exact blockAddr_pos hm hb.1
      exact (table_fresh hm hok hb hc hlow hne).1 heq
    · rw [if_neg hlow] at heq
      by_cases h12 : m = 12
      · rw [if_pos h12] at heq
        exact hcb (blockAddr_inj hm hclt hb.1 heq)
      · rw [if_neg h12] at heq
        exact blockAddr_pos hm hb.1 heq.symm

/-- The entry went into the first block of a new table. -/
theorem entryPut_table (hm : s.part.Mounted) (hok : BlockMapOk s.part s.disk i)
    (he : e.fType ≠ 0) (hb : s.part.blockBitmap.FirstClear b)
    (hc : (s.takeBlock b).part.blockBitmap.FirstClear c)
    (hsb : Selectable (blockAddr s.part b) 1) (hsc : Selectable (blockAddr s.part c) 1)
    (ht : t.disk = tableDisk s i b c e) (hpart : t.part = ((s.takeBlock b).takeBlock c).part) :
    EntryPut s t i (tableInode s i b) e 12 0 := by
  obtain ⟨hinst, -⟩ := installed_table (e := e) hm hok hb hc
  obtain ⟨-, hcbit, hclt⟩ := firstClear_second hc
  have hlive := tableDisk_liveSlot hm hok he hb hc
  have hlow : ∀ m, ¬(12 = 12 ∧ 12 ≤ m) ↔ m < 12 := fun m => by omega
  refine ⟨Nat.le_refl 12, fun m l => ?_, fun _ => rfl, ?_, fun m l h hpos => ?_,
    fun m hm₁ hmk hne => ?_, fun h => absurd rfl h, ?_, fun lba h => ?_, rfl, fun d h => ?_,
    fun lba hused _ => ?_⟩
  · rw [ht, hlive, hlow]
  · rw [ht]
    exact hinst.slot
  · rw [ht] at h ⊢
    rcases (hlive m l).mp h with h | ⟨⟨hm₁, hl, hne, -⟩, hm12⟩
    · exact absurd h hpos
    · rw [allBlocksOf_direct _ _ hm12] at hne
      obtain ⟨hblock, hslot⟩ := tableDisk_direct (e := e) hm hok hb hc hm12 hl hne
      show blockSlot _ (allBlocksOf _ _ m) l = blockSlot s.disk (allBlocksOf s.disk i m) l
      rw [hblock, hslot]
  · rw [ht, tableDisk_blocks hm hb hc hm₁, if_neg hmk] at hne
    have hm12 : m < 12 := by
      by_contra hm12
      exact hne (if_neg hm12)
    rw [if_pos hm12] at hne
    rw [allBlocksOf_direct _ _ hm12]
    exact ⟨hne, by omega⟩
  · rw [ht, hpart]
    exact tableDisk_map hm hok hb hc hsb hsc
  · rw [ht] at h
    rcases tableDisk_references hm hb hc h with ⟨m, hm12, hne, rfl⟩ | rfl | rfl
    · have hblock : allBlocksOf s.disk i m = i.sector m := allBlocksOf_direct _ _ hm12
      refine Or.inl ⟨⟨hne, Or.inr ⟨m, by omega, hblock⟩⟩, fun _ heq => ?_⟩
      exact hok.table m (by omega) (by rwa [← heq]) (hblock.trans heq)
    · exact Or.inr ⟨b, ⟨hb.1, rfl⟩, hb.2.1⟩
    · exact Or.inr ⟨c, ⟨hclt, rfl⟩, hcbit⟩
  · rw [hpart]
    exact set_bit_mono _ _ (set_bit_mono _ _ h)
  · rw [ht]
    exact tableDisk_sameBlock hm hb hc hused

/-- The rule for `sync_dir_entry` in a directory whose blocks are in order: one case for each
of the three places. -/
theorem syncDirEntry_places {d : DirPtr} {ioBuf : Buf} {Q : Bool → State → Prop}
    (hm : s.part.Mounted) (hd : s.inodeOf d = some p) (hi : s.inodes p = some i)
    (hok : BlockMapOk s.part s.disk i) (hio : 512 ≤ ioBuf.size)
    (hhole : ∀ k j, k < 12 → i.sector k ≠ 0 → freeIn s.disk (i.sector k) = some j →
      Q true ((s.store (slotPlace (i.sector k) j) dirEntrySize e.bytes).putInode p (some i.grown)))
    (hdirect : ∀ k b, k < 12 → i.sector k = 0 → s.part.blockBitmap.FirstClear b →
      Selectable (blockAddr s.part b) 1 →
        Q true ((s.takeBlock b).withEntryBlock p (i.setSector k (blockAddr s.part b)) e
          (blockAddr s.part b)))
    (htable : ∀ b c, s.part.blockBitmap.FirstClear b →
      (s.takeBlock b).part.blockBitmap.FirstClear c → Selectable (blockAddr s.part b) 1 →
        Selectable (blockAddr s.part c) 1 →
          Q true ((((s.takeBlock b).takeBlock c).store (sectorOff (blockAddr s.part b)) 512
            (newTable (directBlocks i) (blockAddr s.part c))).withEntryBlock p
              (i.setSector 12 (blockAddr s.part b)) e (blockAddr s.part c))) :
    Ensures (syncDirEntry d e ioBuf) s Q := by
  have hsel : ∀ k, k < 12 → i.sector k ≠ 0 → Selectable (i.sector k) 1 := by
    intro k hk hne
    obtain ⟨-, -, -, -, hsel⟩ := hok.used _ ⟨hne, Or.inr ⟨k, by omega, allBlocksOf_direct _ _ hk⟩⟩
    exact hsel
  rcases exists_place s.disk i hsel with hfull | ⟨k, hk, hfull, hz | ⟨j, hne, hfree⟩⟩
  · refine (wp_syncDirEntry_table hm hd hi hio hfull).mpr
      ⟨fun _ => ⟨fun b hb => ⟨fun c hc => ⟨fun hsb => ⟨fun hsc => ?_, ?_⟩, ?_⟩, ?_⟩, ?_⟩, ?_⟩
    · exact htable b c hb hc hsb hsc
    all_goals exact fun _ => True.intro
  · refine (wp_syncDirEntry_direct hm hd hi hio hk hfull hz).mpr
      ⟨fun _ => ⟨fun b hb => ⟨fun hsel => ?_, ?_⟩, ?_⟩, ?_⟩
    · exact hdirect k b hk hz hb hsel
    all_goals exact fun _ => True.intro
  · exact (wp_syncDirEntry_hole hm hd hi hio hk hfull hne (hsel k hk hne) hfree).mpr
      ⟨fun _ => hhole k j hk hne hfree, fun _ => True.intro⟩

/-- What `sync_dir_entry` does to a directory whose blocks are in order. -/
theorem syncDirEntry_put {d : DirPtr} {ioBuf : Buf} (hm : s.part.Mounted)
    (hd : s.inodeOf d = some p) (hi : s.inodes p = some i) (hok : BlockMapOk s.part s.disk i)
    (he : e.fType ≠ 0) (hio : 512 ≤ ioBuf.size) :
    Ensures (syncDirEntry d e ioBuf) s fun _ t => ∃ i' k j, DirOnly s t p i' ∧
      EntryPut s t i i' e k j := by
  refine syncDirEntry_places hm hd hi hok hio (fun k j hk hne hfree => ?_)
    (fun k b hk hz hb hsel => ?_) fun b c hb hc hsb hsc => ?_
  · exact ⟨i.grown, k, j, ⟨rfl, rfl⟩, entryPut_hole hok he hk hne hfree⟩
  · exact ⟨directInode s i k b, k, 0, ⟨rfl, rfl⟩, entryPut_direct hm hok he hk hz hb hsel⟩
  · exact ⟨tableInode s i b, 12, 0, ⟨rfl, rfl⟩, entryPut_table hm hok he hb hc hsb hsc rfl rfl⟩

end

end OsTruth
