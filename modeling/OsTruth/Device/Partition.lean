/-
`partition_scan` of `device/ide.c`.

The recursion follows the sector addresses of extended entries and has no bound, so it gets a
depth.  A scan returns when some depth is enough for it.  `ext_lba_base`, `p_no` and `l_no` are
part of the state, as are the partitions of the disks and `partition_list`.  The heap always has
room for a boot sector.

`Items` is the tree of the boot records that a scan reads.  A scan returns if and only if there is
such a finite tree whose partitions fit into the arrays.
-/
import OsTruth.Device.Sectors
import OsTruth.Lib.Stdio

namespace OsTruth

open ByteString Fallible

/-! ## Boot sectors -/

/-- The fields of `struct partition_table_entry` that the scan reads. -/
structure PartitionTableEntry where
  fsType : UInt8
  startLba : UInt32
  secCnt : UInt32
  deriving DecidableEq

/-- `bs->partition_table[i]`. -/
def tableEntry (bs : Bytes) (i : Nat) : PartitionTableEntry where
  fsType := bs (446 + 16 * i + 4)
  startLba := wordAt bs (446 + 16 * i + 8)
  secCnt := wordAt bs (446 + 16 * i + 12)

/-- `ide_read(hd, ext_lba, bs, 1)`. -/
def readBoot (disk : Bytes) (lba : UInt32) : Except Fault Bytes := do
  assert (lba ≤ maxLba)
  .ok (view disk (sectorOff lba))

/-- The driver reads the boot sector of its disk. -/
theorem readBoot_driver {d : Ata} {devNo : UInt8} {lba : UInt32} {buf : Buf} (hready : d.Ready)
    (h : lba ≤ maxLba) (hbuf : 512 ≤ buf.size) :
    Returns (Driver.ideRead devNo lba buf 1) d fun buf' _ =>
      ∃ bs, readBoot (d.disk (devNo = 1)) lba = .ok bs ∧ ∀ k, k < 512 → buf'.data k = bs k := by
  have h1 : (1 : UInt32).toNat = 1 := rfl
  have hle : lba.toNat ≤ maxLba.toNat := UInt32.le_iff_toNat_le.mp h
  have hread : Returns (Driver.ideRead devNo lba buf 1) d _ :=
    ideRead_returns hready (by decide) (by omega) (by omega)
  refine hread.call fun buf' _ hbuf' => ⟨_, assert_bind h _, fun k hk => ?_⟩
  rw [hbuf'.1]
  exact (splice_inside (Nat.zero_le k) (by omega)).trans rfl

/-! ## Partitions -/

abbrev DiskNo := Nat

/-- An element of the arrays `prim_parts` and `logic_parts` of a disk. -/
inductive PartSlot
  | prim (hd : DiskNo) (i : Nat)
  | logic (hd : DiskNo) (i : Nat)
  deriving DecidableEq, Repr

/-- The fields of `struct partition` that the scan writes. -/
structure PartInfo where
  startLba : UInt32
  secCnt : UInt32
  myDisk : DiskNo
  name : Str
  deriving DecidableEq

structure ScanState where
  extLbaBase : UInt32
  pNo : Nat
  lNo : Nat
  parts : PartSlot → PartInfo
  partitionList : List PartSlot

/-- `sprintf(hd->name, "sd%c", ...)`. -/
def diskName (hd : DiskNo) : Str := [115, 100, UInt8.ofNat (97 + hd)]

/-- `sprintf(name, "%s%d", hd->name, n)`. -/
def partName (hd : DiskNo) (n : Nat) : Str := diskName hd ++ decimal n

/-- The name is what the format prints. -/
theorem partName_text (hd : DiskNo) {n : Nat} (h : n < 2 ^ 31) :
    textOf [.str (strBuf (diskName hd)) 0 (diskName hd), .dec (UInt32.ofNat n)] = partName hd n := by
  have hnat : (UInt32.ofNat n).toNat = n := by
    rw [UInt32.toNat_ofNat']
    omega
  have hint : (UInt32.ofNat n).toInt32.toInt = n := by
    rw [toInt_toInt32, hnat, if_pos (by omega)]
  show diskName hd ++ (decimal (UInt32.ofNat n).toInt32.toInt ++ []) = _
  rw [hint, List.append_nil]
  rfl

/-- The partition of an entry of the record at `extLba`. -/
def partInfo (hd : DiskNo) (extLba : UInt32) (p : PartitionTableEntry) (n : Nat) : PartInfo :=
  ⟨extLba + p.startLba, p.secCnt, hd, partName hd n⟩

namespace ScanState

/-- The fields of a partition are stored, and its tag is appended to the list. -/
def append (σ : ScanState) (slot : PartSlot) (info : PartInfo) : ScanState :=
  { σ with
    parts := fun s => if s = slot then info else σ.parts s
    partitionList := σ.partitionList ++ [slot] }

end ScanState

def scanInit : ScanState where
  extLbaBase := 0
  pNo := 0
  lNo := 0
  parts _ := ⟨0, 0, 0, []⟩
  partitionList := []

/-! ## Functions -/

def scanPrim (hd : DiskNo) (extLba : UInt32) (p : PartitionTableEntry) (σ : ScanState) :
    Except Fault ScanState :=
  if σ.pNo < 4 then do
    let σ := σ.append (.prim hd σ.pNo) (partInfo hd extLba p (σ.pNo + 1))
    let σ := { σ with pNo := σ.pNo + 1 }
    assert (σ.pNo < 4)
    .ok σ
  else .error .undefined

def scanLogic (hd : DiskNo) (extLba : UInt32) (p : PartitionTableEntry) (σ : ScanState) :
    Except Fault ScanState :=
  if σ.lNo < 8 then
    let σ := σ.append (.logic hd σ.lNo) (partInfo hd extLba p (σ.lNo + 5))
    .ok { σ with lNo := σ.lNo + 1 }
  else .error .undefined

def entryTarget (base : UInt32) (p : PartitionTableEntry) : UInt32 :=
  if base ≠ 0 then p.startLba + base else p.startLba

/-- `ext_lba_base` behind an extended entry. -/
def latch (base : UInt32) (p : PartitionTableEntry) : UInt32 :=
  if base ≠ 0 then base else p.startLba

/-- The loop over the entries from `i` on. -/
def scanEntries (scan : UInt32 → ScanState → Except Fault ScanState) (hd : DiskNo)
    (extLba : UInt32) (bs : Bytes) : Nat → Nat → ScanState → Except Fault ScanState
  | 0, _, σ => .ok σ
  | left + 1, i, σ =>
      let p := tableEntry bs i
      if p.fsType = 5 then do
        let σ ← scan (entryTarget σ.extLbaBase p) { σ with extLbaBase := latch σ.extLbaBase p }
        scanEntries scan hd extLba bs left (i + 1) σ
      else if p.fsType ≠ 0 then
        if extLba = 0 then do
          let σ ← scanPrim hd extLba p σ
          scanEntries scan hd extLba bs left (i + 1) σ
        else do
          let σ ← scanLogic hd extLba p σ
          if σ.lNo ≥ 8 then .ok σ else scanEntries scan hd extLba bs left (i + 1) σ
      else scanEntries scan hd extLba bs left (i + 1) σ

def partitionScan (disk : Bytes) (hd : DiskNo) : Nat → UInt32 → ScanState → Except Fault ScanState
  | 0, _, _ => .error .undefined
  | depth + 1, extLba, σ => do
      let bs ← readBoot disk extLba
      scanEntries (partitionScan disk hd depth) hd extLba bs 4 0 σ

/-! ## Trees of boot records -/

/-- The entries of a boot record from some place on, with the record that an extended entry leads
to.  `last` is a logical entry behind which the record is not read. -/
inductive Items
  | nil
  | skip (rest : Items)
  | prim (p : PartitionTableEntry) (rest : Items)
  | logic (p : PartitionTableEntry) (rest : Items)
  | last (p : PartitionTableEntry)
  | ext (p : PartitionTableEntry) (record rest : Items)

/-- A type of a partition that is not extended. -/
def PartitionTableEntry.Used (p : PartitionTableEntry) : Prop := p.fsType ≠ 0 ∧ p.fsType ≠ 5

namespace Items

/-- `ext_lba_base` behind the entries. -/
def base : Items → UInt32 → UInt32
  | nil, b => b
  | skip rest, b => rest.base b
  | prim _ rest, b => rest.base b
  | logic _ rest, b => rest.base b
  | last _, b => b
  | ext p record rest, b => rest.base (record.base (latch b p))

/-- The entries are those of the record at address `a` from entry `i` on. -/
def Describes (disk : Bytes) : Items → UInt32 → UInt32 → Nat → Prop
  | nil, _, _, i => i = 4
  | skip rest, b, a, i => i < 4 ∧ (tableEntry (view disk (sectorOff a)) i).fsType = 0 ∧
      rest.Describes disk b a (i + 1)
  | prim p rest, b, a, i => i < 4 ∧ tableEntry (view disk (sectorOff a)) i = p ∧ p.Used ∧ a = 0 ∧
      rest.Describes disk b a (i + 1)
  | logic p rest, b, a, i => i < 4 ∧ tableEntry (view disk (sectorOff a)) i = p ∧ p.Used ∧ a ≠ 0 ∧
      rest.Describes disk b a (i + 1)
  | last p, _, a, i => i < 4 ∧ tableEntry (view disk (sectorOff a)) i = p ∧ p.Used ∧ a ≠ 0
  | ext p record rest, b, a, i => i < 4 ∧ tableEntry (view disk (sectorOff a)) i = p ∧
      p.fsType = 5 ∧ entryTarget b p ≤ maxLba ∧
      record.Describes disk (latch b p) (entryTarget b p) 0 ∧
      rest.Describes disk (record.base (latch b p)) a (i + 1)

def prims : Items → Nat
  | nil => 0
  | skip rest => rest.prims
  | prim _ rest => rest.prims + 1
  | logic _ rest => rest.prims
  | last _ => 0
  | ext _ record rest => record.prims + rest.prims

def logics : Items → Nat
  | nil => 0
  | skip rest => rest.logics
  | prim _ rest => rest.logics
  | logic _ rest => rest.logics + 1
  | last _ => 1
  | ext _ record rest => record.logics + rest.logics

/-- With `n` logical entries in front, a record ends at the eighth one and only there. -/
def EndsAtEighth : Items → Nat → Prop
  | nil, _ => True
  | skip rest, n => rest.EndsAtEighth n
  | prim _ rest, n => rest.EndsAtEighth n
  | logic _ rest, n => n + 1 < 8 ∧ rest.EndsAtEighth (n + 1)
  | last _, n => n + 1 = 8
  | ext _ record rest, n => record.EndsAtEighth n ∧ rest.EndsAtEighth (n + record.logics)

def depth : Items → Nat
  | nil => 0
  | skip rest => rest.depth
  | prim _ rest => rest.depth
  | logic _ rest => rest.depth
  | last _ => 0
  | ext _ record rest => max (record.depth + 1) rest.depth

/-- The partitions of the entries of the record at `a`, in the order of the scan. -/
def infos (hd : DiskNo) : Items → UInt32 → UInt32 → Nat → Nat → List PartInfo
  | nil, _, _, _, _ => []
  | skip rest, b, a, p, l => rest.infos hd b a p l
  | prim e rest, b, a, p, l => partInfo hd a e (p + 1) :: rest.infos hd b a (p + 1) l
  | logic e rest, b, a, p, l => partInfo hd a e (l + 5) :: rest.infos hd b a p (l + 1)
  | last e, _, a, _, l => [partInfo hd a e (l + 5)]
  | ext e record rest, b, a, p, l =>
      record.infos hd (latch b e) (entryTarget b e) p l ++
        rest.infos hd (record.base (latch b e)) a (p + record.prims) (l + record.logics)

end Items

/-! ## What a scan adds -/

/-- The counters passed this partition of the disk on the way from `σ` to `σ'`. -/
def PartSlot.Between (hd : DiskNo) (σ σ' : ScanState) : PartSlot → Prop
  | .prim d i => d = hd ∧ σ.pNo ≤ i ∧ i < σ'.pNo
  | .logic d i => d = hd ∧ σ.lNo ≤ i ∧ i < σ'.lNo

/-- The partitions `infos` of the disk came to the list, and nothing else changed. -/
structure Adds (hd : DiskNo) (σ σ' : ScanState) (infos : List PartInfo) : Prop where
  pNo : σ.pNo ≤ σ'.pNo
  lNo : σ.lNo ≤ σ'.lNo
  list : ∃ slots, σ'.partitionList = σ.partitionList ++ slots ∧ slots.map σ'.parts = infos ∧
    slots.Nodup ∧ ∀ s, s ∈ slots → s.Between hd σ σ'
  frame : ∀ s, ¬s.Between hd σ σ' → σ'.parts s = σ.parts s

section

variable {disk bs : Bytes} {hd depth i left : Nat} {a b : UInt32} {p : PartitionTableEntry}
variable {σ σ' τ : ScanState} {infos infos' : List PartInfo} {s : PartSlot} {t : Items}

theorem PartSlot.Between.mono (h : s.Between hd σ σ') (hp : σ'.pNo ≤ τ.pNo) (hl : σ'.lNo ≤ τ.lNo) :
    s.Between hd σ τ := by
  cases s with
  | prim d i => exact ⟨h.1, h.2.1, Nat.lt_of_lt_of_le h.2.2 hp⟩
  | logic d i => exact ⟨h.1, h.2.1, Nat.lt_of_lt_of_le h.2.2 hl⟩

theorem PartSlot.Between.mono_left (h : s.Between hd σ' τ) (hp : σ.pNo ≤ σ'.pNo)
    (hl : σ.lNo ≤ σ'.lNo) : s.Between hd σ τ := by
  cases s with
  | prim d i => exact ⟨h.1, Nat.le_trans hp h.2.1, h.2.2⟩
  | logic d i => exact ⟨h.1, Nat.le_trans hl h.2.1, h.2.2⟩

/-- The counters pass a partition once. -/
theorem PartSlot.Between.once (h : s.Between hd σ σ') : ¬s.Between hd σ' τ := by
  cases s with
  | prim d i => exact fun h' => absurd h.2.2 (Nat.not_lt_of_le h'.2.1)
  | logic d i => exact fun h' => absurd h.2.2 (Nat.not_lt_of_le h'.2.1)

namespace Adds

/-- Only `ext_lba_base` may change. -/
theorem none (hp : σ'.pNo = σ.pNo) (hl : σ'.lNo = σ.lNo) (hparts : σ'.parts = σ.parts)
    (hlist : σ'.partitionList = σ.partitionList) : Adds hd σ σ' [] where
  pNo := Nat.le_of_eq hp.symm
  lNo := Nat.le_of_eq hl.symm
  list := ⟨[], by rw [hlist, List.append_nil], rfl, List.nodup_nil, by simp⟩
  frame s _ := by rw [hparts]

theorem trans (h : Adds hd σ σ' infos) (h' : Adds hd σ' τ infos') :
    Adds hd σ τ (infos ++ infos') where
  pNo := Nat.le_trans h.pNo h'.pNo
  lNo := Nat.le_trans h.lNo h'.lNo
  list := by
    obtain ⟨slots, hlist, hinfos, hnodup, hslots⟩ := h.list
    obtain ⟨slots', hlist', hinfos', hnodup', hslots'⟩ := h'.list
    have hkept : slots.map τ.parts = slots.map σ'.parts :=
      List.map_congr_left fun s hs => h'.frame s (hslots s hs).once
    refine ⟨slots ++ slots', ?_, ?_, ?_, fun s hs => ?_⟩
    · rw [hlist', hlist, List.append_assoc]
    · rw [List.map_append, hkept, hinfos, hinfos']
    · refine List.nodup_append.mpr ⟨hnodup, hnodup', fun s hs s' hs' heq => ?_⟩
      exact (hslots s hs).once (heq ▸ hslots' s' hs')
    · rcases List.mem_append.mp hs with hs | hs
      · exact (hslots s hs).mono h'.pNo h'.lNo
      · exact (hslots' s hs).mono_left h.pNo h.lNo
  frame s hs := by
    rw [h'.frame s fun hb => hs (hb.mono_left h.pNo h.lNo),
      h.frame s fun hb => hs (hb.mono h'.pNo h'.lNo)]

/-- A partition is stored, and its counter goes up. -/
theorem one {slot : PartSlot} {info : PartInfo} (hp : σ.pNo ≤ σ'.pNo) (hl : σ.lNo ≤ σ'.lNo)
    (hparts : σ'.parts = (σ.append slot info).parts)
    (hlist : σ'.partitionList = σ.partitionList ++ [slot]) (hslot : slot.Between hd σ σ') :
    Adds hd σ σ' [info] where
  pNo := hp
  lNo := hl
  list := by
    refine ⟨[slot], hlist, ?_, by simp, fun s hs => ?_⟩
    · rw [hparts]
      simp [ScanState.append]
    · rw [List.mem_singleton.mp hs]
      exact hslot
  frame s hs := by
    rw [hparts]
    exact if_neg fun heq : s = slot => hs (heq ▸ hslot)

end Adds

/-! ## One entry -/

theorem scanPrim_ok (h : σ.pNo + 1 ≤ 3) : ∃ σ', scanPrim hd a p σ = .ok σ' ∧
    σ'.extLbaBase = σ.extLbaBase ∧ σ'.pNo = σ.pNo + 1 ∧ σ'.lNo = σ.lNo ∧
    Adds hd σ σ' [partInfo hd a p (σ.pNo + 1)] := by
  have hrun : scanPrim hd a p σ = .ok { σ.append (.prim hd σ.pNo)
      (partInfo hd a p (σ.pNo + 1)) with pNo := σ.pNo + 1 } := by
    have hassert : assert (σ.pNo + 1 < 4) = .ok () := if_pos (by omega)
    rw [scanPrim, if_pos (by omega)]
    show (assert (σ.pNo + 1 < 4) >>= _) = _
    rw [hassert]
    rfl
  refine ⟨_, hrun, rfl, rfl, rfl, .one (Nat.le_succ _) (Nat.le_refl _) rfl rfl ?_⟩
  exact ⟨rfl, Nat.le_refl _, Nat.lt_succ_self _⟩

theorem scanLogic_ok (h : σ.lNo < 8) : ∃ σ', scanLogic hd a p σ = .ok σ' ∧
    σ'.extLbaBase = σ.extLbaBase ∧ σ'.pNo = σ.pNo ∧ σ'.lNo = σ.lNo + 1 ∧
    Adds hd σ σ' [partInfo hd a p (σ.lNo + 5)] := by
  refine ⟨_, if_pos h, rfl, rfl, rfl, .one (Nat.le_refl _) (Nat.le_succ _) rfl rfl ?_⟩
  exact ⟨rfl, Nat.le_refl _, Nat.lt_succ_self _⟩

theorem scanPrim_fits (h : scanPrim hd a p σ = .ok σ') : σ.pNo + 1 ≤ 3 := by
  unfold scanPrim at h
  by_cases hlt : σ.pNo < 4
  · rw [if_pos hlt] at h
    change (assert (σ.pNo + 1 < 4) >>= _) = _ at h
    by_cases hnext : σ.pNo + 1 < 4
    · omega
    · rw [assert_bind_false hnext] at h
      cases h
  · rw [if_neg hlt] at h
    cases h

theorem scanLogic_fits (h : scanLogic hd a p σ = .ok σ') : σ.lNo < 8 := by
  unfold scanLogic at h
  by_cases hlt : σ.lNo < 8
  · exact hlt
  · rw [if_neg hlt] at h
    cases h

/-! ## The loop along a tree -/

/-- The counters and the partitions behind the entries `t` of the record at `a`. -/
structure ScannedItems (hd : DiskNo) (t : Items) (a : UInt32) (σ σ' : ScanState) : Prop where
  base : σ'.extLbaBase = t.base σ.extLbaBase
  pNo : σ'.pNo = σ.pNo + t.prims
  lNo : σ'.lNo = σ.lNo + t.logics
  adds : Adds hd σ σ' (t.infos hd σ.extLbaBase a σ.pNo σ.lNo)

/-- A round of the loop for each kind of entry. -/
theorem scanEntries_succ {scan : UInt32 → ScanState → Except Fault ScanState} :
    scanEntries scan hd a bs (left + 1) i σ =
      if (tableEntry bs i).fsType = 5 then
        (scan (entryTarget σ.extLbaBase (tableEntry bs i))
          { σ with extLbaBase := latch σ.extLbaBase (tableEntry bs i) } >>= fun σ =>
          scanEntries scan hd a bs left (i + 1) σ)
      else if (tableEntry bs i).fsType ≠ 0 then
        if a = 0 then
          (scanPrim hd a (tableEntry bs i) σ >>= fun σ =>
            scanEntries scan hd a bs left (i + 1) σ)
        else
          (scanLogic hd a (tableEntry bs i) σ >>= fun σ =>
            if σ.lNo ≥ 8 then .ok σ else scanEntries scan hd a bs left (i + 1) σ)
      else scanEntries scan hd a bs left (i + 1) σ := rfl

theorem partitionScan_succ (h : a ≤ maxLba) : partitionScan disk hd (depth + 1) a σ =
    scanEntries (partitionScan disk hd depth) hd a (view disk (sectorOff a)) 4 0 σ := by
  have hassert : assert (a ≤ maxLba) = .ok () := if_pos h
  rw [partitionScan, readBoot, hassert]
  rfl

/-- A loop whose entries are a tree that fits returns. -/
theorem scanEntries_ok (h : t.Describes disk σ.extLbaBase a i) (hi : i + left = 4)
    (hp : σ.pNo + t.prims ≤ 3) (hl : t.EndsAtEighth σ.lNo) (hdepth : t.depth ≤ depth) :
    ∃ σ', scanEntries (partitionScan disk hd depth) hd a (view disk (sectorOff a)) left i σ =
      .ok σ' ∧ ScannedItems hd t a σ σ' := by
  induction t generalizing a i left σ depth with
  | nil =>
      have hi' : i = 4 := h
      obtain rfl : left = 0 := by omega
      exact ⟨σ, rfl, rfl, rfl, rfl, .none rfl rfl rfl rfl⟩
  | skip rest ih =>
      obtain ⟨hlt, htype, hrest⟩ := h
      obtain ⟨left, rfl⟩ : ∃ n, left = n + 1 := ⟨left - 1, by omega⟩
      have hi' : i + 1 + left = 4 := by omega
      rw [scanEntries_succ, htype, if_neg (by decide), if_neg (by decide)]
      obtain ⟨σ', hrun, hscan⟩ := ih hrest hi' hp hl hdepth
      exact ⟨σ', hrun, hscan.base, hscan.pNo, hscan.lNo, hscan.adds⟩
  | prim p rest ih =>
      obtain ⟨hlt, hentry, hused, hzero, hrest⟩ := h
      obtain ⟨left, rfl⟩ : ∃ n, left = n + 1 := ⟨left - 1, by omega⟩
      have hi' : i + 1 + left = 4 := by omega
      have hp' : σ.pNo + 1 + rest.prims ≤ 3 := by
        have : (Items.prim p rest).prims = rest.prims + 1 := rfl
        omega
      obtain ⟨σ₁, hone, hbase, hpNo, hlNo, hadd⟩ : ∃ σ', scanPrim hd a p σ = .ok σ' ∧ _ :=
        scanPrim_ok (by omega)
      rw [← hbase] at hrest
      rw [← hpNo] at hp'
      have hl' : rest.EndsAtEighth σ₁.lNo := by rwa [hlNo]
      obtain ⟨σ', hrun, hscan⟩ := ih hrest hi' hp' hl' hdepth
      rw [scanEntries_succ, hentry, if_neg hused.2, if_pos hused.1, if_pos hzero, hone]
      refine ⟨σ', hrun, ?_, ?_, ?_, ?_⟩
      · rw [hscan.base, hbase]
        rfl
      · rw [hscan.pNo, hpNo, Nat.add_assoc, Nat.add_comm 1]
        rfl
      · rw [hscan.lNo, hlNo]
        rfl
      · have hadds := hscan.adds
        rw [hbase, hpNo, hlNo] at hadds
        exact hadd.trans hadds
  | logic p rest ih =>
      obtain ⟨hlt, hentry, hused, hzero, hrest⟩ := h
      obtain ⟨left, rfl⟩ : ∃ n, left = n + 1 := ⟨left - 1, by omega⟩
      have hi' : i + 1 + left = 4 := by omega
      have hcount : σ.lNo + 1 < 8 := hl.1
      obtain ⟨σ₁, hone, hbase, hpNo, hlNo, hadd⟩ : ∃ σ', scanLogic hd a p σ = .ok σ' ∧ _ :=
        scanLogic_ok (by omega)
      rw [← hbase] at hrest
      have hp' : σ₁.pNo + rest.prims ≤ 3 := by rwa [hpNo]
      have hl' : rest.EndsAtEighth σ₁.lNo := by
        rw [hlNo]
        exact hl.2
      obtain ⟨σ', hrun, hscan⟩ := ih hrest hi' hp' hl' hdepth
      rw [scanEntries_succ, hentry, if_neg hused.2, if_pos hused.1, if_neg hzero, hone]
      refine ⟨σ', (if_neg (by omega)).trans hrun, ?_, ?_, ?_, ?_⟩
      · rw [hscan.base, hbase]
        rfl
      · rw [hscan.pNo, hpNo]
        rfl
      · rw [hscan.lNo, hlNo, Nat.add_assoc, Nat.add_comm 1]
        rfl
      · have hadds := hscan.adds
        rw [hbase, hpNo, hlNo] at hadds
        exact hadd.trans hadds
  | last p =>
      obtain ⟨hlt, hentry, hused, hzero⟩ := h
      obtain ⟨left, rfl⟩ : ∃ n, left = n + 1 := ⟨left - 1, by omega⟩
      have hcount : σ.lNo + 1 = 8 := hl
      obtain ⟨σ₁, hone, hbase, hpNo, hlNo, hadd⟩ : ∃ σ', scanLogic hd a p σ = .ok σ' ∧ _ :=
        scanLogic_ok (by omega)
      rw [scanEntries_succ, hentry, if_neg hused.2, if_pos hused.1, if_neg hzero, hone]
      exact ⟨σ₁, if_pos (by omega), hbase, hpNo, hlNo, hadd⟩
  | ext p record rest ihrec ihrest =>
      obtain ⟨hlt, hentry, htype, hle, hrecord, hrest⟩ := h
      obtain ⟨left, rfl⟩ : ∃ n, left = n + 1 := ⟨left - 1, by omega⟩
      have hi' : i + 1 + left = 4 := by omega
      have hdepth' : max (record.depth + 1) rest.depth ≤ depth := hdepth
      obtain ⟨depth, rfl⟩ : ∃ n, depth = n + 1 := ⟨depth - 1, by omega⟩
      have hdepth₁ : record.depth ≤ depth := by omega
      have hdepth₂ : rest.depth ≤ depth + 1 := by omega
      have hp' : σ.pNo + (record.prims + rest.prims) ≤ 3 := hp
      obtain ⟨σ₁, hone, hscan₁⟩ : ∃ σ', scanEntries (partitionScan disk hd depth) hd
          (entryTarget σ.extLbaBase p) (view disk (sectorOff (entryTarget σ.extLbaBase p))) 4 0
          { σ with extLbaBase := latch σ.extLbaBase p } = .ok σ' ∧ ScannedItems hd record _ _ σ' :=
        ihrec hrecord (Nat.zero_add 4) (by show σ.pNo + record.prims ≤ 3; omega) hl.1 hdepth₁
      have hbase : σ₁.extLbaBase = record.base (latch σ.extLbaBase p) := hscan₁.base
      have hpNo : σ₁.pNo = σ.pNo + record.prims := hscan₁.pNo
      have hlNo : σ₁.lNo = σ.lNo + record.logics := hscan₁.lNo
      rw [← hbase] at hrest
      have hl' : rest.EndsAtEighth σ₁.lNo := by
        rw [hlNo]
        exact hl.2
      obtain ⟨σ', hrun, hscan⟩ := ihrest hrest hi' (by omega) hl' hdepth₂
      rw [scanEntries_succ, hentry, if_pos htype, partitionScan_succ hle, hone]
      refine ⟨σ', hrun, ?_, ?_, ?_, ?_⟩
      · rw [hscan.base, hbase]
        rfl
      · rw [hscan.pNo, hpNo, Nat.add_assoc]
        rfl
      · rw [hscan.lNo, hlNo, Nat.add_assoc]
        rfl
      · have hadds := hscan.adds
        rw [hbase, hpNo, hlNo] at hadds
        have hlatch : Adds hd σ { σ with extLbaBase := latch σ.extLbaBase p } [] :=
          .none rfl rfl rfl rfl
        exact (hlatch.trans hscan₁.adds).trans hadds

theorem partitionScan_ok (h : t.Describes disk σ.extLbaBase a 0) (ha : a ≤ maxLba)
    (hp : σ.pNo + t.prims ≤ 3) (hl : t.EndsAtEighth σ.lNo) (hdepth : t.depth + 1 ≤ depth) :
    ∃ σ', partitionScan disk hd depth a σ = .ok σ' ∧ ScannedItems hd t a σ σ' := by
  obtain ⟨depth, rfl⟩ : ∃ n, depth = n + 1 := ⟨depth - 1, by omega⟩
  rw [partitionScan_succ ha]
  exact scanEntries_ok h (Nat.zero_add 4) hp hl (Nat.le_of_succ_le_succ hdepth)

/-- A loop that returns has such a tree. -/
theorem items_of_scanEntries (hi : i + left = 4) (hpNo : σ.pNo ≤ 3)
    (hrecord : ∀ a (σ σ' : ScanState), partitionScan disk hd depth a σ = .ok σ' → σ.pNo ≤ 3 →
      ∃ t : Items, a ≤ maxLba ∧ t.Describes disk σ.extLbaBase a 0 ∧ σ.pNo + t.prims ≤ 3 ∧
        t.EndsAtEighth σ.lNo ∧ t.depth + 1 ≤ depth)
    (h : scanEntries (partitionScan disk hd depth) hd a (view disk (sectorOff a)) left i σ =
      .ok σ') :
    ∃ t : Items, t.Describes disk σ.extLbaBase a i ∧ σ.pNo + t.prims ≤ 3 ∧
      t.EndsAtEighth σ.lNo ∧ t.depth ≤ depth := by
  induction left generalizing i σ with
  | zero => exact ⟨.nil, hi, hpNo, trivial, Nat.zero_le _⟩
  | succ left ih =>
      have hlt : i < 4 := by omega
      have hi' : i + 1 + left = 4 := by omega
      rw [scanEntries_succ] at h
      by_cases htype : (tableEntry (view disk (sectorOff a)) i).fsType = 5
      · rw [if_pos htype] at h
        cases hone : partitionScan disk hd depth
            (entryTarget σ.extLbaBase (tableEntry (view disk (sectorOff a)) i))
            { σ with extLbaBase := latch σ.extLbaBase (tableEntry (view disk (sectorOff a)) i) } with
        | error e =>
            rw [hone] at h
            cases h
        | ok σ₁ =>
            rw [hone] at h
            obtain ⟨record, hle, hdesc, hp, hl, hdep⟩ := hrecord _ _ _ hone hpNo
            -- the state behind the record is the one of its tree
            obtain ⟨σ₂, hrun, hscan⟩ : ∃ σ', partitionScan disk hd depth _ _ = .ok σ' ∧ _ :=
              partitionScan_ok hdesc hle hp hl hdep
            obtain rfl : σ₁ = σ₂ := Except.ok.inj (hone.symm.trans hrun)
            have hbase : σ₁.extLbaBase = record.base _ := hscan.base
            have hp₁ : σ₁.pNo = σ.pNo + record.prims := hscan.pNo
            have hl₁ : σ₁.lNo = σ.lNo + record.logics := hscan.lNo
            have hpNo₁ : σ₁.pNo ≤ 3 := by rw [hp₁]; exact hp
            obtain ⟨rest, hdesc', hp', hl', hdep'⟩ := ih hi' hpNo₁ h
            rw [hbase] at hdesc'
            rw [hl₁] at hl'
            have hp'' : σ.pNo + (record.prims + rest.prims) ≤ 3 := by omega
            exact ⟨.ext _ record rest, ⟨hlt, rfl, htype, hle, hdesc, hdesc'⟩, hp'', ⟨hl, hl'⟩,
              Nat.max_le.mpr ⟨hdep, hdep'⟩⟩
      · rw [if_neg htype] at h
        by_cases hempty : (tableEntry (view disk (sectorOff a)) i).fsType = 0
        · rw [if_neg (not_not.mpr hempty)] at h
          obtain ⟨t, ht, hp, hl, hdep⟩ := ih hi' hpNo h
          exact ⟨.skip t, ⟨hlt, hempty, ht⟩, hp, hl, hdep⟩
        · rw [if_pos hempty] at h
          by_cases hzero : a = 0
          · rw [if_pos hzero] at h
            cases hone : scanPrim hd a (tableEntry (view disk (sectorOff a)) i) σ with
            | error e =>
                rw [hone] at h
                cases h
            | ok σ₁ =>
                rw [hone] at h
                have hfit := scanPrim_fits hone
                obtain ⟨σ₂, hrun, hbase, hp₁, hl₁, -⟩ : ∃ σ', scanPrim hd a _ σ = .ok σ' ∧ _ :=
                  scanPrim_ok hfit
                obtain rfl : σ₁ = σ₂ := Except.ok.inj (hone.symm.trans hrun)
                have hpNo₁ : σ₁.pNo ≤ 3 := by rw [hp₁]; exact hfit
                obtain ⟨rest, hdesc, hp, hl, hdep⟩ := ih hi' hpNo₁ h
                rw [hbase] at hdesc
                rw [hl₁] at hl
                have hp' : σ.pNo + (rest.prims + 1) ≤ 3 := by omega
                exact ⟨.prim _ rest, ⟨hlt, rfl, ⟨hempty, htype⟩, hzero, hdesc⟩, hp', hl, hdep⟩
          · rw [if_neg hzero] at h
            cases hone : scanLogic hd a (tableEntry (view disk (sectorOff a)) i) σ with
            | error e =>
                rw [hone] at h
                cases h
            | ok σ₁ =>
                rw [hone] at h
                change (if σ₁.lNo ≥ 8 then Except.ok σ₁ else _) = _ at h
                have hfit := scanLogic_fits hone
                obtain ⟨σ₂, hrun, hbase, hp₁, hl₁, -⟩ : ∃ σ', scanLogic hd a _ σ = .ok σ' ∧ _ :=
                  scanLogic_ok hfit
                obtain rfl : σ₁ = σ₂ := Except.ok.inj (hone.symm.trans hrun)
                by_cases hend : σ₁.lNo ≥ 8
                · have hl : σ.lNo + 1 = 8 := by omega
                  exact ⟨.last _, ⟨hlt, rfl, ⟨hempty, htype⟩, hzero⟩, hpNo, hl, Nat.zero_le _⟩
                · rw [if_neg hend] at h
                  have hpNo₁ : σ₁.pNo ≤ 3 := by rw [hp₁]; exact hpNo
                  obtain ⟨rest, hdesc, hp, hl, hdep⟩ := ih hi' hpNo₁ h
                  rw [hbase] at hdesc
                  rw [hp₁] at hp
                  rw [hl₁] at hl
                  have hl' : σ.lNo + 1 < 8 := by omega
                  exact ⟨.logic _ rest, ⟨hlt, rfl, ⟨hempty, htype⟩, hzero, hdesc⟩, hp, ⟨hl', hl⟩,
                    hdep⟩

theorem items_of_partitionScan (h : partitionScan disk hd depth a σ = .ok σ') (hpNo : σ.pNo ≤ 3) :
    ∃ t : Items, a ≤ maxLba ∧ t.Describes disk σ.extLbaBase a 0 ∧ σ.pNo + t.prims ≤ 3 ∧
      t.EndsAtEighth σ.lNo ∧ t.depth + 1 ≤ depth := by
  induction depth generalizing a σ σ' with
  | zero => cases h
  | succ depth ih =>
      by_cases ha : a ≤ maxLba
      · rw [partitionScan_succ ha] at h
        obtain ⟨t, hdesc, hp, hl, hdep⟩ :=
          items_of_scanEntries (Nat.zero_add 4) hpNo (fun _ _ _ hrun hle => ih hrun hle) h
        exact ⟨t, ha, hdesc, hp, hl, Nat.succ_le_succ hdep⟩
      · rw [partitionScan, readBoot, assert, if_neg ha] at h
        cases h

/-! ## The scan of a disk -/

/-- The scan returns with at most `depth` records open at a time: no `ASSERT` fails and no store
leaves its array. -/
def ScansWithin (disk : Bytes) (hd : DiskNo) (σ : ScanState) (depth : Nat) : Prop :=
  ∃ σ', partitionScan disk hd depth 0 σ = .ok σ'

def ScanReturns (disk : Bytes) (hd : DiskNo) (σ : ScanState) : Prop :=
  ∃ depth, ScansWithin disk hd σ depth

/-- From the boot record on, the extended entries lead to finitely many readable records, with
less than `depth` levels of them, at most three primary entries and a logical entry behind the
eighth only where nothing is read any more. -/
def RecordsWithin (disk : Bytes) (base : UInt32) (depth : Nat) : Prop :=
  ∃ t : Items, t.Describes disk base 0 0 ∧ t.prims ≤ 3 ∧ t.EndsAtEighth 0 ∧ t.depth < depth

/-- The same without a bound on the levels. -/
def BoundedRecords (disk : Bytes) (base : UInt32) : Prop :=
  ∃ t : Items, t.Describes disk base 0 0 ∧ t.prims ≤ 3 ∧ t.EndsAtEighth 0

theorem scansWithin_iff (hpNo : σ.pNo = 0) (hlNo : σ.lNo = 0) :
    ScansWithin disk hd σ depth ↔ RecordsWithin disk σ.extLbaBase depth := by
  have hzero : (0 : UInt32) ≤ maxLba := UInt32.le_iff_toNat_le.mpr (Nat.zero_le _)
  constructor
  · intro h
    obtain ⟨σ', hrun⟩ := h
    obtain ⟨t, -, hdesc, hp, hl, hdepth⟩ := items_of_partitionScan hrun (by omega)
    rw [hlNo] at hl
    exact ⟨t, hdesc, by omega, hl, hdepth⟩
  · intro h
    obtain ⟨t, hdesc, hp, hl, hdepth⟩ := h
    rw [← hlNo] at hl
    obtain ⟨σ', hrun, -⟩ := partitionScan_ok hdesc hzero (by omega) hl hdepth
    exact ⟨σ', hrun⟩

theorem scanReturns_iff (hpNo : σ.pNo = 0) (hlNo : σ.lNo = 0) :
    ScanReturns disk hd σ ↔ BoundedRecords disk σ.extLbaBase := by
  constructor
  · intro h
    obtain ⟨depth, h⟩ := h
    obtain ⟨t, hdesc, hp, hl, -⟩ := (scansWithin_iff hpNo hlNo).mp h
    exact ⟨t, hdesc, hp, hl⟩
  · intro h
    obtain ⟨t, hdesc, hp, hl⟩ := h
    exact ⟨t.depth + 1, (scansWithin_iff hpNo hlNo).mpr ⟨t, hdesc, hp, hl, Nat.lt_succ_self _⟩⟩

/-- A scan returns within a depth exactly when the records have fewer levels than that and fit,
and for some depth exactly when they are finitely many and fit. -/
theorem partitionScan_returns_iff (hpNo : σ.pNo = 0) (hlNo : σ.lNo = 0) :
    (∀ depth, ScansWithin disk hd σ depth ↔ RecordsWithin disk σ.extLbaBase depth) ∧
      (ScanReturns disk hd σ ↔ BoundedRecords disk σ.extLbaBase) :=
  ⟨fun _ => scansWithin_iff hpNo hlNo, scanReturns_iff hpNo hlNo⟩

/-- Bytes that are zero but for a list of them. -/
def sparse (l : List (Nat × UInt8)) : Bytes := fun k => (l.lookup k).getD 0

/-- A primary partition, an extended entry with start 8, and a chain of records in the sectors 8
and 24 with a logical partition each. -/
def chainedDisk : Bytes := sparse
  [(450, 0x83), (454, 1), (458, 6), (466, 5), (470, 8), (474, 32),
    (4096 + 450, 0x83), (4096 + 454, 1), (4096 + 458, 10), (4096 + 466, 5), (4096 + 470, 16),
    (12288 + 450, 0x83), (12288 + 454, 2), (12288 + 458, 12)]

theorem partitionScan_returns_chained : ScansWithin chainedDisk 1 scanInit 3 :=
  ((partitionScan_returns_iff rfl rfl).1 3).mpr
    ⟨.prim ⟨0x83, 1, 6⟩ (.ext ⟨5, 8, 32⟩
        (.logic ⟨0x83, 1, 10⟩ (.ext ⟨5, 16, 0⟩
          (.logic ⟨0x83, 2, 12⟩ (.skip (.skip (.skip .nil)))) (.skip (.skip .nil))))
        (.skip (.skip .nil))),
      ⟨by decide, by decide, ⟨by decide, by decide⟩, rfl, by decide, by decide, rfl, by decide,
        ⟨by decide, by decide, ⟨by decide, by decide⟩, by decide, by decide, by decide, rfl,
          by decide,
          ⟨by decide, by decide, ⟨by decide, by decide⟩, by decide, by decide, by decide, by decide,
            by decide, by decide, by decide, rfl⟩,
          by decide, by decide, by decide, by decide, rfl⟩,
        by decide, by decide, by decide, by decide, rfl⟩,
      by decide, ⟨⟨by decide, ⟨by decide, trivial⟩, trivial⟩, trivial⟩, by decide⟩

/-- A boot record with four primary partitions of type 0x83. -/
def fourPrimaries : Bytes := fun k => if k = 450 ∨ k = 466 ∨ k = 482 ∨ k = 498 then 0x83 else 0

/-- The fourth one is stored, and then `ASSERT(p_no < 4)` fails. -/
theorem partitionScan_four_primaries : ¬ScanReturns fourPrimaries 1 scanInit := by
  intro h
  obtain ⟨depth, σ', hrun⟩ := h
  cases depth with
  | zero => cases hrun
  | succ depth =>
      have hfail : partitionScan fourPrimaries 1 (depth + 1) 0 scanInit = .error .assert := rfl
      rw [hfail] at hrun
      cases hrun

end

end OsTruth
