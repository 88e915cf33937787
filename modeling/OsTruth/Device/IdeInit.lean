/-
The scanning loop of `ide_init` over two disks.

The loop scans the second disk of each channel and clears `p_no` and `l_no` behind each disk, but
not `ext_lba_base`.  So the base that the extended entry of one disk leaves is the base of the
next disk.
-/
import OsTruth.Device.Chain

namespace OsTruth

open ByteString

/-! ## Functions -/

/-- A round of the inner loop: the first disk of a channel is not scanned. -/
def initDevice (disk : DiskNo → Bytes) (depth channelNo devNo : Nat) (σ : ScanState) :
    Except Fault ScanState := do
  let hd := channelNo * 2 + devNo
  let σ ← if devNo ≠ 0 then partitionScan (disk hd) hd depth 0 σ else .ok σ
  .ok { σ with pNo := 0, lNo := 0 }

/-- A round of the outer loop.  There are two channels. -/
def initChannel (disk : DiskNo → Bytes) (depth channelNo : Nat) (σ : ScanState) :
    Except Fault ScanState :=
  if channelNo < 2 then
    (List.range 2).foldlM (fun σ devNo => initDevice disk depth channelNo devNo σ) σ
  else .error .undefined

/-- `ide_init`, as far as the partitions of the disks go. -/
def ideInitDisks (disk : DiskNo → Bytes) (depth : Nat) (hdCnt : UInt8) (σ : ScanState) :
    Except Fault ScanState := do
  assert (hdCnt > 0)
  let channelCnt := (hdCnt.toNat + 1) / 2
  (List.range channelCnt).foldlM (fun σ channelNo => initChannel disk depth channelNo σ)
    { σ with partitionList := [] }

/-! ## The partitions of a disk -/

def PartSlot.disk : PartSlot → DiskNo
  | .prim hd _ => hd
  | .logic hd _ => hd

def ScanState.infosOf (σ : ScanState) (hd : DiskNo) : List PartInfo :=
  (σ.partitionList.filter fun s => s.disk = hd).map σ.parts

/-- What `ide_init` records for the disk `hd` of four disks. -/
def InitRecords (disk : DiskNo → Bytes) (hd : DiskNo) (infos : List PartInfo) : Prop :=
  ∃ depth σ, ideInitDisks disk depth 4 scanInit = .ok σ ∧ σ.infosOf hd = infos

def ScanRecords (disk : Bytes) (hd : DiskNo) (infos : List PartInfo) : Prop :=
  ∃ depth σ, partitionScan disk hd depth 0 scanInit = .ok σ ∧ σ.infosOf hd = infos

def twoDisks (d₀ d₁ : Bytes) : DiskNo → Bytes := fun hd => if hd = 1 then d₀ else d₁

/-- The second disk is recorded as if it were alone. -/
def Independent (d₀ d₁ : Bytes) : Prop :=
  ∀ infos, InitRecords (twoDisks d₀ d₁) 3 infos ↔ ScanRecords d₁ 3 infos

def NoExtended (disk : Bytes) : Prop := ∀ i, i < 4 → (entryOf disk 0 i).fsType ≠ 5

/-- The boot record holds primary partitions only, and the scan has room for them. -/
structure PlainBoot (disk : Bytes) : Prop where
  noExtended : NoExtended disk
  prims : (List.range 4).countP (bootPrim disk) ≤ 3

section

variable {disk d₀ d₁ : Bytes} {hd : DiskNo} {σ σ' : ScanState} {base : UInt32}
variable {infos : List PartInfo} {t : Items}

/-! ## One scan -/

def DiskRecords (disk : Bytes) (base : UInt32) (hd : DiskNo) (infos : List PartInfo) : Prop :=
  ∃ t : Items, t.Describes disk base 0 0 ∧ t.prims ≤ 3 ∧ t.EndsAtEighth 0 ∧
    t.infos hd base 0 0 0 = infos

theorem PartSlot.Between.disk_eq {s : PartSlot} (h : s.Between hd σ σ') : s.disk = hd := by
  cases s with
  | prim d i => exact h.1
  | logic d i => exact h.1

theorem Adds.mem (h : Adds hd σ σ' infos) {s : PartSlot} (hs : s ∈ σ'.partitionList) :
    s ∈ σ.partitionList ∨ s.disk = hd := by
  obtain ⟨slots, hlist, -, -, hslots⟩ := h.list
  rw [hlist] at hs
  exact (List.mem_append.mp hs).imp_right fun hs => (hslots s hs).disk_eq

theorem Adds.infosOf (h : Adds hd σ σ' infos) (hnew : ∀ s, s ∈ σ.partitionList → s.disk ≠ hd) :
    σ'.infosOf hd = infos := by
  obtain ⟨slots, hlist, hinfos, -, hslots⟩ := h.list
  have hold : σ.partitionList.filter (fun s => s.disk = hd) = [] :=
    List.filter_eq_nil_iff.mpr fun s hs => by simpa using hnew s hs
  have hall : slots.filter (fun s => s.disk = hd) = slots :=
    List.filter_eq_self.mpr fun s hs => decide_eq_true (hslots s hs).disk_eq
  rw [ScanState.infosOf, hlist, List.filter_append, hold, hall]
  exact hinfos

/-- The tree behind a scan that returned. -/
theorem partitionScan_items {depth : Nat} (h : partitionScan disk hd depth 0 σ = .ok σ')
    (hpNo : σ.pNo = 0) (hlNo : σ.lNo = 0) :
    ∃ t : Items, t.Describes disk σ.extLbaBase 0 0 ∧ t.prims ≤ 3 ∧ t.EndsAtEighth 0 ∧
      t.depth + 1 ≤ depth ∧ ScannedItems hd t 0 σ σ' := by
  obtain ⟨t, hle, hdesc, hp, hl, hdep⟩ := items_of_partitionScan h (by omega)
  obtain ⟨σ'', hrun, hscan⟩ : ∃ σ', partitionScan disk hd depth 0 σ = .ok σ' ∧ _ :=
    partitionScan_ok hdesc hle hp hl hdep
  obtain rfl : σ' = σ'' := Except.ok.inj (h.symm.trans hrun)
  rw [hlNo] at hl
  exact ⟨t, hdesc, by omega, hl, hdep, hscan⟩

/-- A tree that fits is the tree of a scan of every greater depth. -/
theorem partitionScan_fits {depth : Nat} (hdesc : t.Describes disk σ.extLbaBase 0 0)
    (hp : t.prims ≤ 3) (hl : t.EndsAtEighth 0) (hpNo : σ.pNo = 0) (hlNo : σ.lNo = 0)
    (hdepth : t.depth + 1 ≤ depth) :
    ∃ σ', partitionScan disk hd depth 0 σ = .ok σ' ∧ ScannedItems hd t 0 σ σ' := by
  rw [← hlNo] at hl
  exact partitionScan_ok hdesc (UInt32.le_iff_toNat_le.mpr (Nat.zero_le _)) (by omega) hl hdepth

theorem ScannedItems.infosOf (h : ScannedItems hd t 0 σ σ') (hpNo : σ.pNo = 0) (hlNo : σ.lNo = 0)
    (hnew : ∀ s, s ∈ σ.partitionList → s.disk ≠ hd) :
    σ'.infosOf hd = t.infos hd σ.extLbaBase 0 0 0 := by
  have hadds := h.adds
  rw [hpNo, hlNo] at hadds
  exact hadds.infosOf hnew

theorem scanRecords_iff : ScanRecords disk hd infos ↔ DiskRecords disk 0 hd infos := by
  have hnew : ∀ s, s ∈ scanInit.partitionList → s.disk ≠ hd := fun s hs => by cases hs
  constructor
  · intro h
    obtain ⟨depth, σ', hrun, hinfos⟩ := h
    obtain ⟨t, hdesc, hp, hl, -, hscan⟩ := partitionScan_items hrun rfl rfl
    exact ⟨t, hdesc, hp, hl, (hscan.infosOf rfl rfl hnew).symm.trans hinfos⟩
  · intro h
    obtain ⟨t, hdesc, hp, hl, hinfos⟩ := h
    obtain ⟨σ', hrun, hscan⟩ : ∃ σ', partitionScan disk hd (t.depth + 1) 0 scanInit = .ok σ' ∧ _ :=
      partitionScan_fits hdesc hp hl rfl rfl (Nat.le_refl _)
    exact ⟨_, σ', hrun, (hscan.infosOf rfl rfl hnew).trans hinfos⟩

/-! ## Two scans -/

/-- `p_no = 0, l_no = 0`. -/
def ScanState.cleared (σ : ScanState) : ScanState := { σ with pNo := 0, lNo := 0 }

/-- A channel scans its second disk. -/
theorem initChannel_eq {disk : DiskNo → Bytes} {depth channelNo : Nat} (h : channelNo < 2) :
    initChannel disk depth channelNo σ =
      (partitionScan (disk (channelNo * 2 + 1)) (channelNo * 2 + 1) depth 0 σ.cleared >>= fun σ =>
        .ok σ.cleared) := by
  have hrange : List.range 2 = [0, 1] := rfl
  rw [initChannel, if_pos h, hrange]
  show (partitionScan (disk (channelNo * 2 + 1)) (channelNo * 2 + 1) depth 0 σ.cleared >>=
    fun σ => .ok σ.cleared) >>= _ = _
  cases partitionScan (disk (channelNo * 2 + 1)) (channelNo * 2 + 1) depth 0 σ.cleared with
  | error e => rfl
  | ok σ => rfl

/-- The loop over four disks scans two of them. -/
theorem ideInitDisks_eq (depth : Nat) : ideInitDisks (twoDisks d₀ d₁) depth 4 scanInit =
    (partitionScan d₀ 1 depth 0 scanInit >>= fun σ =>
      partitionScan d₁ 3 depth 0 σ.cleared >>= fun σ => .ok σ.cleared) := by
  have hrange : List.range (((4 : UInt8).toNat + 1) / 2) = [0, 1] := rfl
  rw [ideInitDisks, assert_bind (by decide)]
  show List.foldlM _ _ (List.range (((4 : UInt8).toNat + 1) / 2)) = _
  rw [hrange, List.foldlM_cons, initChannel_eq (by omega)]
  show (partitionScan d₀ 1 depth 0 scanInit >>= fun σ => .ok σ.cleared) >>= _ = _
  cases partitionScan d₀ 1 depth 0 scanInit with
  | error e => rfl
  | ok σ =>
      show initChannel _ depth 1 σ.cleared >>= _ = _
      rw [initChannel_eq (by omega)]
      show (partitionScan d₁ 3 depth 0 σ.cleared >>= fun σ => .ok σ.cleared) >>= _ =
        (partitionScan d₁ 3 depth 0 σ.cleared >>= fun σ => .ok σ.cleared)
      cases partitionScan d₁ 3 depth 0 σ.cleared with
      | error e => rfl
      | ok σ => rfl

/-- The state in which the second disk is scanned. -/
theorem second_start {σ₁ : ScanState} (h : ScannedItems 1 t 0 scanInit σ₁) :
    σ₁.cleared.extLbaBase = t.base 0 ∧ ∀ s, s ∈ σ₁.cleared.partitionList → s.disk ≠ 3 := by
  refine ⟨h.base, fun s hs => ?_⟩
  rcases h.adds.mem hs with hold | hone
  · cases hold
  · rw [hone]
    decide

/-- What is recorded of the second disk are its records from the base on that the first leaves. -/
theorem initRecords_iff : InitRecords (twoDisks d₀ d₁) 3 infos ↔
    ∃ t : Items, t.Describes d₀ 0 0 0 ∧ t.prims ≤ 3 ∧ t.EndsAtEighth 0 ∧
      DiskRecords d₁ (t.base 0) 3 infos := by
  constructor
  · intro h
    obtain ⟨depth, σ, hrun, hinfos⟩ := h
    rw [ideInitDisks_eq] at hrun
    cases hfirst : partitionScan d₀ 1 depth 0 scanInit with
    | error e =>
        rw [hfirst] at hrun
        cases hrun
    | ok σ₁ =>
        rw [hfirst] at hrun
        change (partitionScan d₁ 3 depth 0 σ₁.cleared >>= fun σ => .ok σ.cleared) = _ at hrun
        cases hsecond : partitionScan d₁ 3 depth 0 σ₁.cleared with
        | error e =>
            rw [hsecond] at hrun
            cases hrun
        | ok σ₂ =>
            rw [hsecond] at hrun
            obtain rfl : σ₂.cleared = σ := Except.ok.inj hrun
            obtain ⟨t, hdesc, hp, hl, -, hscan⟩ := partitionScan_items hfirst rfl rfl
            obtain ⟨t', hdesc', hp', hl', -, hscan'⟩ := partitionScan_items hsecond rfl rfl
            obtain ⟨hbase, hnew⟩ := second_start hscan
            have hrecords : σ₂.infosOf 3 = _ := hscan'.infosOf rfl rfl hnew
            rw [hbase] at hdesc' hrecords
            exact ⟨t, hdesc, hp, hl, t', hdesc', hp', hl', hrecords.symm.trans hinfos⟩
  · intro h
    obtain ⟨t, hdesc, hp, hl, t', hdesc', hp', hl', hinfos⟩ := h
    have hdepth := Nat.le_max_left (t.depth + 1) (t'.depth + 1)
    have hdepth' := Nat.le_max_right (t.depth + 1) (t'.depth + 1)
    obtain ⟨σ₁, hfirst, hscan⟩ : ∃ σ, partitionScan d₀ 1 _ 0 scanInit = .ok σ ∧ _ :=
      partitionScan_fits hdesc hp hl rfl rfl hdepth
    obtain ⟨hbase, hnew⟩ := second_start hscan
    rw [← hbase] at hdesc' hinfos
    obtain ⟨σ₂, hsecond, hscan'⟩ : ∃ σ, partitionScan d₁ 3 _ 0 σ₁.cleared = .ok σ ∧ _ :=
      partitionScan_fits hdesc' hp' hl' rfl rfl hdepth'
    refine ⟨max (t.depth + 1) (t'.depth + 1), σ₂.cleared, ?_, (hscan'.infosOf rfl rfl hnew).trans hinfos⟩
    rw [ideInitDisks_eq, hfirst]
    show (partitionScan d₁ 3 _ 0 σ₁.cleared >>= fun σ => .ok σ.cleared) = _
    rw [hsecond]
    rfl

/-! ## Independence -/

/-- Without an extended entry the base does not matter. -/
theorem diskRecords_base (h : NoExtended disk) :
    DiskRecords disk base hd infos ↔ DiskRecords disk 0 hd infos := by
  have hplain : ∀ j, 0 ≤ j → j < 4 → (entryOf disk 0 j).fsType ≠ 5 := fun j _ => h j
  constructor
  · intro hrec
    obtain ⟨t, hdesc, hp, hl, hinfos⟩ := hrec
    have ht : PlainTree disk 0 4 t := plainTree_of_describes hplain rfl hdesc
    exact ⟨t, ht.describes 0, hp, hl, (ht.infos hd base 0 0).symm.trans hinfos⟩
  · intro hrec
    obtain ⟨t, hdesc, hp, hl, hinfos⟩ := hrec
    have ht : PlainTree disk 0 4 t := plainTree_of_describes hplain rfl hdesc
    exact ⟨t, ht.describes base, hp, hl, (ht.infos hd base 0 0).trans hinfos⟩

theorem independent_of_second (h : NoExtended d₁) (hfirst : BoundedRecords d₀ 0) :
    Independent d₀ d₁ := by
  intro infos
  obtain ⟨t, hdesc, hp, hl⟩ := hfirst
  rw [initRecords_iff, scanRecords_iff]
  constructor
  · intro hrec
    obtain ⟨t, -, -, -, hsecond⟩ := hrec
    exact (diskRecords_base h).mp hsecond
  · intro hrec
    exact ⟨t, hdesc, hp, hl, (diskRecords_base h).mpr hrec⟩

theorem independent_of_first (h : PlainBoot d₀) : Independent d₀ d₁ := by
  have hplain : ∀ j, 0 ≤ j → j < 4 → (entryOf d₀ 0 j).fsType ≠ 5 := fun j _ => h.noExtended j
  intro infos
  rw [initRecords_iff, scanRecords_iff]
  constructor
  · intro hrec
    obtain ⟨t, hdesc, -, -, hsecond⟩ := hrec
    have ht : PlainTree d₀ 0 4 t := plainTree_of_describes hplain rfl hdesc
    rwa [ht.keeps] at hsecond
  · intro hrec
    obtain ⟨t, ht⟩ : ∃ t, PlainTree d₀ 0 4 t := plain_items hplain rfl
    refine ⟨t, ht.describes 0, ?_, ht.eighth 0, ?_⟩
    · rw [ht.prims, ← List.range_eq_range']
      exact h.prims
    · rwa [ht.keeps]

/-- Once it is set, the base stays. -/
theorem base_eq (t : Items) (h : base ≠ 0) : t.base base = base := by
  induction t with
  | nil => rfl
  | skip rest ih => exact ih
  | prim p rest ih => exact ih
  | logic p rest ih => exact ih
  | last p => rfl
  | ext p record rest ihrec ihrest =>
      show rest.base (record.base (latch base p)) = base
      rw [latch_eq h, ihrec, ihrest]

/-- An extended entry sets the base, to an address of the disk. -/
theorem base_of_extended {i : Nat} (h : t.Describes disk 0 0 i)
    (hext : ∃ j, i ≤ j ∧ j < 4 ∧ (entryOf disk 0 j).fsType = 5) :
    t.base 0 ≠ 0 ∧ t.base 0 ≤ maxLba := by
  induction t generalizing i with
  | nil =>
      obtain rfl : i = 4 := h
      obtain ⟨j, hle, hlt, -⟩ := hext
      omega
  | skip rest ih =>
      obtain ⟨j, hle, hlt, htype⟩ := hext
      obtain ⟨-, hempty, hrest⟩ := h
      have hne : i ≠ j := by
        rintro rfl
        rw [hempty] at htype
        exact absurd htype (by decide)
      exact ih hrest ⟨j, by omega, hlt, htype⟩
  | prim p rest ih =>
      obtain ⟨j, hle, hlt, htype⟩ := hext
      obtain ⟨-, rfl, hused, -, hrest⟩ := h
      have hne : i ≠ j := by
        rintro rfl
        exact hused.2 htype
      exact ih hrest ⟨j, by omega, hlt, htype⟩
  | logic p rest ih => exact absurd rfl h.2.2.2.1
  | last p => exact absurd rfl h.2.2.2
  | ext p record rest ihrec ihrest =>
      obtain ⟨hlt, hentry, htype, hle, hrecord, hrest⟩ := h
      have hlatch : latch 0 p = p.startLba := rfl
      have htarget : entryTarget 0 p = p.startLba := rfl
      show rest.base (record.base (latch 0 p)) ≠ 0 ∧ rest.base (record.base (latch 0 p)) ≤ maxLba
      rw [htarget] at hle
      rw [hlatch, htarget] at hrecord
      rw [hlatch]
      by_cases hzero : p.startLba = 0
      -- the boot record again, further down in the tree
      · rw [hzero] at hrecord ⊢
        rw [← hentry] at htype
        obtain ⟨hne, hle'⟩ := ihrec hrecord ⟨i, Nat.zero_le i, hlt, htype⟩
        rw [base_eq rest hne]
        exact ⟨hne, hle'⟩
      · rw [base_eq record hzero, base_eq rest hzero]
        exact ⟨hzero, hle⟩

/-- The scan from another base reads behind the end of the disk. -/
theorem not_records_far (h : base ≠ 0) (hle : base ≤ maxLba) :
    ¬DiskRecords (oneLogical maxLba) base hd infos := by
  intro hrec
  obtain ⟨t, hdesc, -⟩ := hrec
  have hmax : maxLba.toNat = 163839 := rfl
  have hpos : 0 < base.toNat := Nat.pos_of_ne_zero fun h0 => h (UInt32.toNat_inj.mp h0)
  have hle' : base.toNat ≤ maxLba.toNat := UInt32.le_iff_toNat_le.mp hle
  have htarget : entryTarget base ⟨5, maxLba, 0⟩ = maxLba + base := target_eq h _
  have hfar := oneLogical_target (by decide) hdesc
  rw [htarget, UInt32.le_iff_toNat_le, UInt32.toNat_add] at hfar
  omega

/-- Alone that disk is scanned. -/
theorem scanRecords_far : ∃ infos, ScanRecords (oneLogical maxLba) 3 infos := by
  have hmem : ∀ a, a ∈ [maxLba] → a ≤ maxLba := fun a ha => by
    rw [List.mem_singleton.mp ha]
    exact UInt32.le_refl _
  obtain ⟨t, hdesc, hp, hl, -⟩ := chainDisk_items (oneLogical_chainDisk (by decide)) hmem
  exact ⟨_, scanRecords_iff.mpr ⟨t, hdesc, hp, hl, rfl⟩⟩

/-- The second disk is recorded as if it were alone, whatever it holds, if and only if the first
disk has primary partitions only.  Otherwise a second disk without an extended entry is. -/
theorem second_disk_iff (d₀ : Bytes) :
    ((∀ d₁, Independent d₀ d₁) ↔ PlainBoot d₀) ∧
      ∀ d₁, BoundedRecords d₀ 0 ∧ NoExtended d₁ → Independent d₀ d₁ := by
  refine ⟨⟨fun h => ?_, fun h _ => independent_of_first h⟩,
    fun d₁ h => independent_of_second h.2 h.1⟩
  obtain ⟨infos, hrec⟩ := scanRecords_far
  obtain ⟨t, hdesc, hp, -, hsecond⟩ := initRecords_iff.mp ((h _ infos).mpr hrec)
  have hplain : NoExtended d₀ := by
    intro i hlt htype
    obtain ⟨hne, hle⟩ := base_of_extended hdesc ⟨i, Nat.zero_le i, hlt, htype⟩
    exact not_records_far hne hle hsecond
  have ht : PlainTree d₀ 0 4 t :=
    plainTree_of_describes (fun j _ => hplain j) rfl hdesc
  refine ⟨hplain, ?_⟩
  rw [List.range_eq_range', ← ht.prims]
  exact hp

/-- Behind a first disk with base 1 the record of the second disk is looked for in sector 6 and not
in sector 5, and its logical partition is lost. -/
theorem second_disk_lost : ¬Independent (oneLogical 1) (oneLogical 5) := by
  intro h
  have hlost : InitRecords (twoDisks (oneLogical 1) (oneLogical 5)) 3 [] := ⟨2, _, rfl, rfl⟩
  obtain ⟨depth, σ, hrun, hinfos⟩ := (h []).mp hlost
  cases depth with
  | zero => cases hrun
  | succ depth =>
      cases depth with
      | zero =>
          have hfail : partitionScan (oneLogical 5) 3 1 0 scanInit = .error .undefined := rfl
          rw [hfail] at hrun
          cases hrun
      | succ depth =>
          have hone : (partitionScan (oneLogical 5) 3 (depth + 2) 0 scanInit).map
              (fun σ => (σ.infosOf 3).length) = .ok 1 := rfl
          rw [hrun] at hone
          have hlen : (σ.infosOf 3).length = 1 := Except.ok.inj hone
          rw [hinfos] at hlen
          exact absurd hlen (by decide)

end

end OsTruth
