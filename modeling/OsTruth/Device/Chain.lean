/-
A disk with one chain of extended boot records.

Each record of the chain has its logical partition in the first entry and the way to the next
record in the second one.  The way is relative to the first record, a logical partition to its
own record.  The scan follows the chain in place of the extended entry.
-/
import Mathlib.Data.List.Nodup
import OsTruth.Device.Partition

namespace OsTruth

open ByteString

abbrev entryOf (disk : Bytes) (a : UInt32) (i : Nat) : PartitionTableEntry :=
  tableEntry (view disk (sectorOff a)) i

/-- A record of a chain without its second entry. -/
structure ChainRecord (disk : Bytes) (a : UInt32) : Prop where
  logical : (entryOf disk a 0).Used
  third : (entryOf disk a 2).fsType = 0
  fourth : (entryOf disk a 3).fsType = 0

/-- The addresses of the records from some record of the chain on. -/
inductive Chain (disk : Bytes) (base : UInt32) : List UInt32 → Prop
  | last {a : UInt32} (record : ChainRecord disk a) (end_ : (entryOf disk a 1).fsType = 0) :
      Chain disk base [a]
  | next {a b : UInt32} {l : List UInt32} (record : ChainRecord disk a)
      (type : (entryOf disk a 1).fsType = 5) (start : (entryOf disk a 1).startLba + base = b)
      (rest : Chain disk base (b :: l)) : Chain disk base (a :: b :: l)

/-- Entry `i` of the boot record is a primary partition. -/
def bootPrim (disk : Bytes) (i : Nat) : Bool :=
  decide ((entryOf disk 0 i).fsType ≠ 0 ∧ (entryOf disk 0 i).fsType ≠ 5)

/-- The boot record of the disk, with the chain `l` behind its extended entry. -/
structure ChainDisk (disk : Bytes) (l : List UInt32) : Prop where
  prims : (List.range 4).countP (bootPrim disk) ≤ 3
  one : ∀ i j, i < 4 → j < 4 → (entryOf disk 0 i).fsType = 5 → (entryOf disk 0 j).fsType = 5 → i = j
  start : ∀ i, i < 4 → (entryOf disk 0 i).fsType = 5 → (entryOf disk 0 i).startLba ≠ 0
  head : ∀ i, i < 4 → (entryOf disk 0 i).fsType = 5 → l.head? = some (entryOf disk 0 i).startLba
  chain : ∀ i, i < 4 → (entryOf disk 0 i).fsType = 5 → Chain disk (entryOf disk 0 i).startLba l
  length : l.length ≤ 8

/-- The start and the number of sectors of a partition. -/
def PartInfo.span (info : PartInfo) : UInt32 × UInt32 := (info.startLba, info.secCnt)

def entrySpan (disk : Bytes) (a : UInt32) (i : Nat) : UInt32 × UInt32 :=
  (a + (entryOf disk a i).startLba, (entryOf disk a i).secCnt)

/-- The partitions of the entry `i` of the boot record: none, itself or those of the chain. -/
def bootSpans (disk : Bytes) (l : List UInt32) (i : Nat) : List (UInt32 × UInt32) :=
  if (entryOf disk 0 i).fsType = 0 then []
  else if (entryOf disk 0 i).fsType = 5 then l.map fun a => entrySpan disk a 0
  else [entrySpan disk 0 i]

section

variable {disk : Bytes} {base a b : UInt32} {l l' : List UInt32} {i n left : Nat} {hd : DiskNo}

/-! ## The records of a chain differ -/

theorem Chain.unique (h : Chain disk base l) (h' : Chain disk base l')
    (hhead : l.head? = l'.head?) : l = l' := by
  induction h generalizing l' with
  | last record hend =>
      cases h' with
      | last _ _ => simpa using hhead
      | next _ htype _ _ =>
          obtain rfl : _ = _ := Option.some.inj hhead
          rw [htype] at hend
          exact absurd hend (by decide)
  | next record htype hstart rest ih =>
      cases h' with
      | last _ hend =>
          obtain rfl : _ = _ := Option.some.inj hhead
          rw [htype] at hend
          exact absurd hend (by decide)
      | next _ _ hstart' rest' =>
          obtain rfl : _ = _ := Option.some.inj hhead
          obtain rfl : _ = _ := hstart.symm.trans hstart'
          rw [ih rest' rfl]

theorem Chain.suffix {front : List UInt32} (h : Chain disk base (front ++ a :: l)) :
    Chain disk base (a :: l) := by
  induction front with
  | nil => exact h
  | cons b front ih =>
      cases front with
      | nil =>
          cases h with
          | next _ _ _ rest => exact rest
      | cons c front =>
          cases h with
          | next _ _ _ rest => exact ih rest

theorem Chain.nodup (h : Chain disk base l) : l.Nodup := by
  induction h with
  | last record hend => simp
  | next record htype hstart rest ih =>
      rename_i a b l
      refine List.nodup_cons.mpr ⟨fun hmem => ?_, ih⟩
      obtain ⟨front, back, heq⟩ := List.append_of_mem hmem
      have hback : Chain disk base (a :: back) := by
        rw [heq] at rest
        exact rest.suffix
      have hsame := (Chain.next record htype hstart rest).unique hback rfl
      have hlen := congrArg List.length hsame
      have hlen' := congrArg List.length heq
      simp only [List.length_cons, List.length_append] at hlen hlen'
      omega

/-! ## The tree of a chain -/

theorem target_eq (h : base ≠ 0) (p : PartitionTableEntry) :
    entryTarget base p = p.startLba + base :=
  if_pos h

theorem latch_eq (h : base ≠ 0) (p : PartitionTableEntry) : latch base p = base := if_pos h

/-- The tree of the records of a chain, with `n` logical entries in front. -/
structure ChainTree (disk : Bytes) (base : UInt32) (l : List UInt32) (n : Nat) (a : UInt32)
    (t : Items) : Prop where
  head : l.head? = some a
  describes : t.Describes disk base a 0
  keeps : t.base base = base
  prims : t.prims = l.count 0
  eighth : t.EndsAtEighth n
  spans : ∀ hd p, (t.infos hd base a p n).map PartInfo.span = l.map fun a => entrySpan disk a 0

theorem chain_last (record : ChainRecord disk a) (hend : (entryOf disk a 1).fsType = 0)
    (hn : n + 1 ≤ 8) : ∃ t, ChainTree disk base [a] n a t := by
  have hskips : Items.Describes disk (.skip (.skip (.skip .nil))) base a 1 :=
    ⟨by omega, hend, by omega, record.third, by omega, record.fourth, rfl⟩
  by_cases hzero : a = 0
  · refine ⟨.prim (entryOf disk a 0) (.skip (.skip (.skip .nil))), rfl,
      ⟨by omega, rfl, record.logical, hzero, hskips⟩, rfl, ?_, trivial, fun _ _ => rfl⟩
    rw [hzero]
    rfl
  · have hcount : 0 = [a].count 0 := by simp [hzero]
    by_cases heighth : n + 1 = 8
    · exact ⟨.last (entryOf disk a 0), rfl, ⟨by omega, rfl, record.logical, hzero⟩, rfl, hcount,
        heighth, fun _ _ => rfl⟩
    · have hlt : n + 1 < 8 := by omega
      exact ⟨.logic (entryOf disk a 0) (.skip (.skip (.skip .nil))), rfl,
        ⟨by omega, rfl, record.logical, hzero, hskips⟩, rfl, hcount, ⟨hlt, trivial⟩,
        fun _ _ => rfl⟩

/-- The record of the chain behind `a` is in place of its second entry. -/
theorem chain_next {t : Items} (hbase : base ≠ 0) (record : ChainRecord disk a)
    (htype : (entryOf disk a 1).fsType = 5) (hstart : (entryOf disk a 1).startLba + base = b)
    (hle : b ≤ maxLba) (hn : n + 2 ≤ 8)
    (h : ChainTree disk base (b :: l) (if a = 0 then n else n + 1) b t) :
    ∃ t, ChainTree disk base (a :: b :: l) n a t := by
  have htarget : entryTarget base (entryOf disk a 1) = b := (target_eq hbase _).trans hstart
  have hlatch := latch_eq hbase (entryOf disk a 1)
  have hdesc := h.describes
  have hspans := h.spans
  have heighth := h.eighth
  have hrest : Items.Describes disk (.ext (entryOf disk a 1) t (.skip (.skip .nil))) base a 1 := by
    refine ⟨by omega, rfl, htype, by rwa [htarget], ?_, by omega, record.third, by omega,
      record.fourth, rfl⟩
    rwa [htarget, hlatch]
  have hkeep : t.base (latch base (entryOf disk a 1)) = base := by rw [hlatch, h.keeps]
  by_cases hzero : a = 0
  · rw [if_pos hzero] at hspans heighth
    refine ⟨.prim (entryOf disk a 0) (.ext (entryOf disk a 1) t (.skip (.skip .nil))), rfl,
      ⟨by omega, rfl, record.logical, hzero, hrest⟩, hkeep, ?_, ⟨heighth, trivial⟩,
      fun hd p => ?_⟩
    · have hprims := h.prims
      show t.prims + 0 + 1 = (a :: b :: l).count 0
      rw [hprims, hzero, List.count_cons_self, Nat.add_zero]
    · show _ :: (t.infos hd _ _ (p + 1) n ++ []).map PartInfo.span = _ :: _
      rw [htarget, hlatch, List.append_nil, hspans]
      rfl
  · rw [if_neg hzero] at hspans heighth
    have hlt : n + 1 < 8 := by omega
    refine ⟨.logic (entryOf disk a 0) (.ext (entryOf disk a 1) t (.skip (.skip .nil))), rfl,
      ⟨by omega, rfl, record.logical, hzero, hrest⟩, hkeep, ?_, ⟨hlt, heighth, trivial⟩,
      fun hd p => ?_⟩
    · have hprims := h.prims
      show t.prims + 0 = (a :: b :: l).count 0
      rw [hprims, List.count_cons_of_ne hzero, Nat.add_zero]
    · show _ :: (t.infos hd _ _ p (n + 1) ++ []).map PartInfo.span = _ :: _
      rw [htarget, hlatch, List.append_nil, hspans]
      rfl

theorem chain_items (h : Chain disk base l) (hbase : base ≠ 0) (hmax : ∀ a, a ∈ l → a ≤ maxLba)
    (hn : n + l.length ≤ 8) : ∃ a t, ChainTree disk base l n a t := by
  induction h generalizing n with
  | last record hend => exact ⟨_, chain_last record hend hn⟩
  | next record htype hstart rest ih =>
      rename_i a b l
      simp only [List.length_cons] at hn ih
      have hn' : (if a = 0 then n else n + 1) + (l.length + 1) ≤ 8 := by
        split <;> omega
      obtain ⟨c, t, ht⟩ := ih (fun c hc => hmax c (List.mem_cons_of_mem a hc)) hn'
      obtain rfl : b = c := Option.some.inj ht.head
      exact ⟨a, chain_next hbase record htype hstart (hmax b (by simp)) (by omega) ht⟩

/-! ## The tree of the boot record -/

/-- The tree of the entries of the boot record from `i` on, none of them extended. -/
structure PlainTree (disk : Bytes) (i left : Nat) (t : Items) : Prop where
  describes : ∀ b, t.Describes disk b 0 i
  keeps : ∀ b, t.base b = b
  prims : t.prims = (List.range' i left).countP (bootPrim disk)
  eighth : ∀ n, t.EndsAtEighth n
  infos : ∀ hd b p n, t.infos hd b 0 p n = t.infos hd 0 0 p 0
  spans : ∀ hd p l, (t.infos hd 0 0 p 0).map PartInfo.span =
    (List.range' i left).flatMap (bootSpans disk l)

theorem bootPrim_eq (hempty : (entryOf disk 0 i).fsType ≠ 0) (htype : (entryOf disk 0 i).fsType ≠ 5) :
    bootPrim disk i = true :=
  decide_eq_true ⟨hempty, htype⟩

/-- Every tree of such entries is one. -/
theorem plainTree_of_describes {t : Items}
    (hplain : ∀ j, i ≤ j → j < 4 → (entryOf disk 0 j).fsType ≠ 5) (hi : i + left = 4)
    (h : t.Describes disk b 0 i) : PlainTree disk i left t := by
  induction t generalizing i left b with
  | nil =>
      obtain rfl : i = 4 := h
      obtain rfl : left = 0 := by omega
      exact ⟨fun _ => rfl, fun _ => rfl, rfl, fun _ => trivial, fun _ _ _ _ => rfl, fun _ _ _ => rfl⟩
  | skip rest ih =>
      obtain ⟨hlt, hempty, hrest⟩ := h
      obtain ⟨left, rfl⟩ : ∃ n, left = n + 1 := ⟨left - 1, by omega⟩
      have ht : PlainTree disk (i + 1) left rest :=
        ih (fun j hj => hplain j (by omega)) (by omega) hrest
      have hnot : bootPrim disk i = false := decide_eq_false fun h => h.1 hempty
      refine ⟨fun b => ⟨hlt, hempty, ht.describes b⟩, ht.keeps, ?_, ht.eighth, ht.infos,
        fun hd p l => ?_⟩
      · rw [List.range'_succ, List.countP_cons, hnot]
        exact ht.prims
      · rw [List.range'_succ, List.flatMap_cons, bootSpans, if_pos hempty]
        exact ht.spans hd p l
  | prim p rest ih =>
      obtain ⟨hlt, rfl, hused, hzero, hrest⟩ := h
      obtain ⟨left, rfl⟩ : ∃ n, left = n + 1 := ⟨left - 1, by omega⟩
      have ht : PlainTree disk (i + 1) left rest :=
        ih (fun j hj => hplain j (by omega)) (by omega) hrest
      refine ⟨fun b => ⟨hlt, rfl, hused, hzero, ht.describes b⟩, ht.keeps, ?_, ht.eighth,
        fun hd b p n => ?_, fun hd p l => ?_⟩
      · rw [List.range'_succ, List.countP_cons, bootPrim_eq hused.1 hused.2]
        exact congrArg (· + 1) ht.prims
      · exact congrArg _ ((ht.infos hd b (p + 1) n).trans (ht.infos hd 0 (p + 1) 0).symm)
      · rw [List.range'_succ, List.flatMap_cons, bootSpans, if_neg hused.1, if_neg hused.2]
        exact congrArg _ (ht.spans hd (p + 1) l)
  | logic p rest ih => exact absurd rfl h.2.2.2.1
  | last p => exact absurd rfl h.2.2.2
  | ext p record rest ihrec ihrest =>
      obtain ⟨hlt, rfl, htype, -⟩ := h
      exact absurd htype (hplain i (Nat.le_refl i) hlt)

theorem plain_items (hplain : ∀ j, i ≤ j → j < 4 → (entryOf disk 0 j).fsType ≠ 5)
    (hi : i + left = 4) : ∃ t, PlainTree disk i left t := by
  have hsome : ∃ t : Items, t.Describes disk 0 0 i := by
    induction left generalizing i with
    | zero => exact ⟨.nil, hi⟩
    | succ left ih =>
        have hlt : i < 4 := by omega
        obtain ⟨t, ht⟩ := ih (i := i + 1) (fun j hj => hplain j (by omega)) (by omega)
        by_cases hempty : (entryOf disk 0 i).fsType = 0
        · exact ⟨.skip t, hlt, hempty, ht⟩
        · exact ⟨.prim (entryOf disk 0 i) t, hlt, rfl,
            ⟨hempty, hplain i (Nat.le_refl i) hlt⟩, rfl, ht⟩
  obtain ⟨t, ht⟩ := hsome
  exact ⟨t, plainTree_of_describes hplain hi ht⟩

/-- The tree of the entries from `i` on, with the chain in place of the extended entry `e`. -/
theorem boot_items {e : Nat} (h : ChainDisk disk l) (hmax : ∀ a, a ∈ l → a ≤ maxLba) (he : e < 4)
    (htype : (entryOf disk 0 e).fsType = 5) (hie : i ≤ e) (hi : i + left = 4) :
    ∃ t : Items, t.Describes disk 0 0 i ∧
      t.prims = (List.range' i left).countP (bootPrim disk) + l.count 0 ∧ t.EndsAtEighth 0 ∧
      ∀ hd p, (t.infos hd 0 0 p 0).map PartInfo.span =
        (List.range' i left).flatMap (bootSpans disk l) := by
  induction left generalizing i with
  | zero => omega
  | succ left ih =>
      have hlt : i < 4 := by omega
      rw [List.range'_succ, List.countP_cons, List.flatMap_cons]
      by_cases hhere : i = e
      · subst hhere
        have hstart := h.start i he htype
        obtain ⟨a, record, hrecord⟩ := chain_items (n := 0) (h.chain i he htype) hstart hmax
          (by have := h.length; omega)
        obtain rfl : a = (entryOf disk 0 i).startLba :=
          Option.some.inj (hrecord.head.symm.trans (h.head i he htype))
        obtain ⟨rest, hrest⟩ : ∃ t, PlainTree disk (i + 1) left t := by
          refine plain_items (fun j hj hlt' htype' => ?_) (by omega)
          have := h.one i j he hlt' htype htype'
          omega
        have htarget : entryTarget 0 (entryOf disk 0 i) = (entryOf disk 0 i).startLba := rfl
        have hlatch : latch 0 (entryOf disk 0 i) = (entryOf disk 0 i).startLba := rfl
        have hempty : (entryOf disk 0 i).fsType ≠ 0 := by
          rw [htype]
          decide
        have hnot : bootPrim disk i = false := decide_eq_false fun h => h.2 htype
        have hle : (entryOf disk 0 i).startLba ≤ maxLba :=
          hmax _ (List.mem_of_mem_head? (h.head i he htype))
        refine ⟨.ext (entryOf disk 0 i) record rest, ⟨hlt, rfl, htype, hle, hrecord.describes,
          hrest.describes _⟩, ?_, ⟨hrecord.eighth, hrest.eighth _⟩, fun hd p => ?_⟩
        · show record.prims + rest.prims = _
          rw [hrecord.prims, hrest.prims, hnot, Nat.add_comm]
          rfl
        · show (record.infos hd _ _ p 0 ++ rest.infos hd _ 0 _ _).map PartInfo.span = _
          rw [List.map_append, htarget, hlatch, hrecord.spans, hrest.infos, hrest.spans hd _ l,
            bootSpans, if_neg hempty, if_pos htype]
      · obtain ⟨t, hdesc, hprims, heighth, hspans⟩ := ih (i := i + 1) (by omega) (by omega)
        have hne : (entryOf disk 0 i).fsType ≠ 5 := fun h5 => hhere (h.one i e hlt he h5 htype)
        by_cases hempty : (entryOf disk 0 i).fsType = 0
        · have hnot : bootPrim disk i = false := decide_eq_false fun h => h.1 hempty
          refine ⟨.skip t, ⟨hlt, hempty, hdesc⟩, ?_, heighth, fun hd p => ?_⟩
          · rw [hnot]
            exact hprims
          · rw [bootSpans, if_pos hempty]
            exact hspans hd p
        · refine ⟨.prim (entryOf disk 0 i) t, ⟨hlt, rfl, ⟨hempty, hne⟩, rfl, hdesc⟩, ?_, heighth,
            fun hd p => ?_⟩
          · show t.prims + 1 = _
            rw [bootPrim_eq hempty hne, hprims, if_pos rfl]
            omega
          · rw [bootSpans, if_neg hempty, if_neg hne]
            exact congrArg _ (hspans hd (p + 1))

theorem Chain.record (h : Chain disk base l) (hmem : a ∈ l) : ChainRecord disk a := by
  induction h with
  | last record _ =>
      rw [List.mem_singleton.mp hmem]
      exact record
  | next record _ _ _ ih =>
      rcases List.mem_cons.mp hmem with rfl | hmem
      · exact record
      · exact ih hmem

/-- The chain comes back to the boot record at most once, and then that has one primary entry. -/
theorem prims_le {e : Nat} (h : ChainDisk disk l) (he : e < 4)
    (htype : (entryOf disk 0 e).fsType = 5) :
    (List.range 4).countP (bootPrim disk) + l.count 0 ≤ 3 := by
  have hprims := h.prims
  by_cases hmem : 0 ∈ l
  · have hchain := h.chain e he htype
    have hrecord := hchain.record hmem
    have hcount : l.count 0 ≤ 1 := List.nodup_iff_count_le_one.mp hchain.nodup 0
    have hone : bootPrim disk 1 = false := by
      have hzero : e ≠ 0 := fun h0 => hrecord.logical.2 (h0 ▸ htype)
      have htwo : e ≠ 2 := by
        intro h2
        rw [h2, hrecord.third] at htype
        exact absurd htype (by decide)
      have hthree : e ≠ 3 := by
        intro h3
        rw [h3, hrecord.fourth] at htype
        exact absurd htype (by decide)
      obtain rfl : e = 1 := by omega
      exact decide_eq_false fun h => h.2 htype
    have htwo : bootPrim disk 2 = false := decide_eq_false fun h => h.1 hrecord.third
    have hthree : bootPrim disk 3 = false := decide_eq_false fun h => h.1 hrecord.fourth
    have hfew : (List.range 4).countP (bootPrim disk) ≤ 1 := by
      simp only [List.range_succ, List.range_zero, List.nil_append, List.cons_append,
        List.countP_cons, List.countP_nil, hone, htwo, hthree, Bool.false_eq_true, if_false]
      split <;> omega
    omega
  · rw [List.count_eq_zero_of_not_mem hmem]
    exact hprims

/-! ## The scan of the disk -/

theorem chainDisk_items (h : ChainDisk disk l) (hmax : ∀ a, a ∈ l → a ≤ maxLba) :
    ∃ t : Items, t.Describes disk 0 0 0 ∧ t.prims ≤ 3 ∧ t.EndsAtEighth 0 ∧
      ∀ hd p, (t.infos hd 0 0 p 0).map PartInfo.span =
        (List.range 4).flatMap (bootSpans disk l) := by
  by_cases hext : ∃ e, e < 4 ∧ (entryOf disk 0 e).fsType = 5
  · obtain ⟨e, he, htype⟩ := hext
    obtain ⟨t, hdesc, hprims, heighth, hspans⟩ : ∃ t : Items, t.Describes disk 0 0 0 ∧
        t.prims = (List.range' 0 4).countP (bootPrim disk) + l.count 0 ∧ _ :=
      boot_items h hmax he htype (Nat.zero_le e) rfl
    refine ⟨t, hdesc, ?_, heighth, ?_⟩
    · rw [hprims, ← List.range_eq_range']
      exact prims_le h he htype
    · rw [List.range_eq_range']
      exact hspans
  · obtain ⟨t, ht⟩ : ∃ t, PlainTree disk 0 4 t :=
      plain_items (fun j _ hlt htype => hext ⟨j, hlt, htype⟩) rfl
    refine ⟨t, ht.describes 0, ?_, ht.eighth 0, fun hd p => ?_⟩
    · rw [ht.prims, ← List.range_eq_range']
      exact h.prims
    · rw [ht.spans hd p l, List.range_eq_range']

/-- The scan appends the partitions of the boot record in their order, with those of the chain in
place of the extended entry. -/
theorem partitionScan_chain {σ : ScanState} (h : ChainDisk disk l)
    (hmax : ∀ a, a ∈ l → a ≤ maxLba) (hbase : σ.extLbaBase = 0) (hpNo : σ.pNo = 0)
    (hlNo : σ.lNo = 0) :
    ∃ depth σ' slots, partitionScan disk hd depth 0 σ = .ok σ' ∧
      σ'.partitionList = σ.partitionList ++ slots ∧ slots.Nodup ∧
      slots.map (fun s => (σ'.parts s).span) = (List.range 4).flatMap (bootSpans disk l) := by
  obtain ⟨t, hdesc, hp, hl, hspans⟩ := chainDisk_items h hmax
  have hzero : (0 : UInt32) ≤ maxLba := by decide
  have hdesc' : t.Describes disk σ.extLbaBase 0 0 := by rwa [hbase]
  rw [← hlNo] at hl
  obtain ⟨σ', hrun, hscan⟩ : ∃ σ', partitionScan disk hd (t.depth + 1) 0 σ = .ok σ' ∧ _ :=
    partitionScan_ok hdesc' hzero (by omega) hl (Nat.le_refl _)
  obtain ⟨slots, hlist, hinfos, hnodup, -⟩ := hscan.adds.list
  refine ⟨_, σ', slots, hrun, hlist, hnodup, ?_⟩
  have hmap : slots.map (fun s => (σ'.parts s).span) = (slots.map σ'.parts).map PartInfo.span := by
    rw [List.map_map]
    rfl
  rw [hmap, hinfos, hbase, hlNo, hspans]

/-! ## A chain of two records -/

theorem chainedDisk_chain : ChainDisk chainedDisk [8, 24] := by
  have hext : ∀ i, i < 4 → (entryOf chainedDisk 0 i).fsType = 5 → i = 1 := by decide
  have hentry : entryOf chainedDisk 0 1 = ⟨5, 8, 32⟩ := by decide
  refine ⟨by decide, fun i j hi hj hi' hj' => (hext i hi hi').trans (hext j hj hj').symm,
    fun i hi htype => ?_, fun i hi htype => ?_, fun i hi htype => ?_, by decide⟩
  · rw [hext i hi htype, hentry]
    decide
  · rw [hext i hi htype, hentry]
    rfl
  · rw [hext i hi htype, hentry]
    exact .next ⟨⟨by decide, by decide⟩, by decide, by decide⟩ (by decide) (by decide)
      (.last ⟨⟨by decide, by decide⟩, by decide, by decide⟩ (by decide))

theorem partitionScan_chain_two : ∃ depth σ' slots,
    partitionScan chainedDisk 1 depth 0 scanInit = .ok σ' ∧
      σ'.partitionList = scanInit.partitionList ++ slots ∧ slots.Nodup ∧
      slots.map (fun s => (σ'.parts s).span) =
        (List.range 4).flatMap (bootSpans chainedDisk [8, 24]) := by
  refine partitionScan_chain chainedDisk_chain (fun a ha => ?_) rfl rfl rfl
  rcases List.mem_pair.mp ha with rfl | rfl
  · decide
  · decide

/-! ## A chain of one record -/

/-- A disk with an extended entry of start `lba`, and one logical partition at its first sector. -/
def oneLogical (lba : UInt32) : Bytes := fun k =>
  if k = 450 then 5
  else if k < 458 ∧ 454 ≤ k then byteOf lba (k - 454)
  else if k = 512 * lba.toNat + 450 then 0x83
  else 0

theorem oneLogical_zero {k : Nat} (h : k ≠ 450) (h' : ¬(k < 458 ∧ 454 ≤ k))
    (hk : k ≠ 512 * a.toNat + 450) : oneLogical a k = 0 := by
  unfold oneLogical
  rw [if_neg h, if_neg h', if_neg hk]

/-- The extended entry is the first one of the boot record. -/
theorem oneLogical_boot (h : a ≠ 0) : entryOf (oneLogical a) 0 0 = ⟨5, a, 0⟩ ∧
    ∀ i, 0 < i → i < 4 → (entryOf (oneLogical a) 0 i).fsType = 0 := by
  have hpos : 0 < a.toNat := Nat.pos_of_ne_zero fun h0 => h (UInt32.toNat_inj.mp h0)
  have hlba : ∀ i, i < 4 → view (oneLogical a) 454 i = ofWords (fun _ => a) i := by
    intro i hi
    have hmod : i % 4 = i := Nat.mod_eq_of_lt hi
    rw [view, ofWords, hmod, oneLogical, if_neg (by omega), if_pos (by omega),
      Nat.add_sub_cancel_left]
  have hcnt : ∀ i, i < 4 → view (oneLogical a) 458 i = ofWords (fun _ => 0) i := by
    intro i hi
    rw [view, ofWords, oneLogical_zero (by omega) (by omega) (by omega), byteOf]
    simp
  have hword : ∀ w, wordAt (ofWords fun _ => w) 0 = w := fun w => wordAt_ofWords (fun _ => w) 0
  have hstart : wordAt (view (oneLogical a) 454) 0 = a :=
    (wordAt_congr fun i hi => by rw [Nat.zero_add, hlba i hi]).trans (hword a)
  have hsecs : wordAt (view (oneLogical a) 458) 0 = 0 :=
    (wordAt_congr fun i hi => by rw [Nat.zero_add, hcnt i hi]).trans (hword 0)
  rw [wordAt_view] at hstart hsecs
  have htype : oneLogical a 450 = 5 := if_pos rfl
  have hoff : sectorOff 0 = 0 := rfl
  refine ⟨?_, fun i hi hlt => ?_⟩
  · rw [entryOf, tableEntry, wordAt_view, wordAt_view, view, hoff]
    show PartitionTableEntry.mk (oneLogical a 450) (wordAt (oneLogical a) 454)
      (wordAt (oneLogical a) 458) = _
    rw [htype, hstart, hsecs]
  · rw [entryOf, hoff]
    show oneLogical a (0 + (446 + 16 * i + 4)) = 0
    exact oneLogical_zero (by omega) (by omega) (by omega)

/-- The logical partition is the first entry of its record. -/
theorem oneLogical_record (h : a ≠ 0) : (entryOf (oneLogical a) a 0).fsType = 0x83 ∧
    ∀ i, 0 < i → i < 4 → (entryOf (oneLogical a) a i).fsType = 0 := by
  have hpos : 0 < a.toNat := Nat.pos_of_ne_zero fun h0 => h (UInt32.toNat_inj.mp h0)
  refine ⟨?_, fun i hi hlt => ?_⟩
  · show oneLogical a (512 * a.toNat + 450) = 0x83
    rw [oneLogical, if_neg (by omega), if_neg (by omega), if_pos rfl]
  · show oneLogical a (512 * a.toNat + (446 + 16 * i + 4)) = 0
    exact oneLogical_zero (by omega) (by omega) (by omega)

theorem oneLogical_chainDisk (h : a ≠ 0) : ChainDisk (oneLogical a) [a] := by
  obtain ⟨hboot, hboot'⟩ := oneLogical_boot h
  obtain ⟨hrecord, hrecord'⟩ := oneLogical_record h
  have hfirst : ∀ i, i < 4 → (entryOf (oneLogical a) 0 i).fsType = 5 → i = 0 := by
    intro i hlt htype
    rcases Nat.eq_zero_or_pos i with h0 | hi
    · exact h0
    · rw [hboot' i hi hlt] at htype
      exact absurd htype (by decide)
  have hrecords : ChainRecord (oneLogical a) a := by
    refine ⟨?_, hrecord' 2 (by omega) (by omega), hrecord' 3 (by omega) (by omega)⟩
    rw [PartitionTableEntry.Used, hrecord]
    exact ⟨by decide, by decide⟩
  refine ⟨?_, fun i j hi hj hi' hj' => (hfirst i hi hi').trans (hfirst j hj hj').symm,
    fun i hi htype => ?_, fun i hi htype => ?_, fun i hi htype => ?_, by simp⟩
  · have hnone : (List.range 4).countP (bootPrim (oneLogical a)) = 0 := by
      refine List.countP_eq_zero.mpr fun i hi htrue => ?_
      have hlt := List.mem_range.mp hi
      have hprim := of_decide_eq_true htrue
      rcases Nat.eq_zero_or_pos i with h0 | hi
      · rw [h0, hboot] at hprim
        exact hprim.2 rfl
      · exact hprim.1 (hboot' i hi hlt)
    omega
  · rw [hfirst i hi htype, hboot]
    exact h
  · rw [hfirst i hi htype, hboot]
    rfl
  · rw [hfirst i hi htype, hboot]
    exact .last hrecords (hrecord' 1 (by omega) (by omega))

/-- Every tree of the disk has the extended entry. -/
theorem oneLogical_target {t : Items} (h : a ≠ 0) (hdesc : t.Describes (oneLogical a) base 0 0) :
    entryTarget base ⟨5, a, 0⟩ ≤ maxLba := by
  obtain ⟨hboot, -⟩ := oneLogical_boot h
  have htype : (entryOf (oneLogical a) 0 0).fsType = 5 := by rw [hboot]
  cases t with
  | nil =>
      have hlen : 0 = 4 := hdesc
      exact absurd hlen (by decide)
  | skip rest =>
      rw [hdesc.2.1] at htype
      exact absurd htype (by decide)
  | prim p rest =>
      obtain ⟨-, rfl, hused, -⟩ := hdesc
      exact absurd htype hused.2
  | logic p rest => exact absurd rfl hdesc.2.2.2.1
  | last p => exact absurd rfl hdesc.2.2.2
  | ext p record rest =>
      obtain ⟨-, hentry, -, hle, -⟩ := hdesc
      obtain rfl : p = ⟨5, a, 0⟩ := hentry.symm.trans hboot
      exact hle

/-- The record is the first sector behind 80 MB, which the driver does not read. -/
theorem partitionScan_chain_far : ChainDisk (oneLogical 163840) [163840] ∧
    ¬ScanReturns (oneLogical 163840) 1 scanInit := by
  refine ⟨oneLogical_chainDisk (by decide), fun h => ?_⟩
  obtain ⟨t, hdesc, -⟩ := (scanReturns_iff rfl rfl).mp h
  exact absurd (oneLogical_target (by decide) hdesc) (by decide)

end

end OsTruth
