/-
A name that `create_dir_entry` stores, and whether `search_dir_entry` finds it again.

A name of 16 characters fills the field `filename`, so what `strcmp` compares goes on in the
inode number behind it.
-/
import OsTruth.Fs.DirDelete
import OsTruth.Fs.DirPut
import OsTruth.Fs.Lookup
import OsTruth.Library.CString

namespace OsTruth

open ByteString Fallible

/-! ## The name of a new entry -/

section

variable {name : Str} {n : UInt32} {type : FileType} {e : DirEntry}

/-- A name is compared like the string in the packed entry. -/
theorem DirEntry.name_eq_iff (e : DirEntry) (hlen : name.length < dirEntrySize) :
    e.name = name ↔ StrAt e.bytes 0 name := by
  unfold DirEntry.name
  rw [List.range_eq_range']
  exact takeWhile_eq_iff e.bytes hlen

theorem createDirEntry_eq (h : createDirEntry name n type = .ok e) :
    name.length ≤ maxFileNameLen ∧ e = ⟨fun k => name.getD k.val 0, n, type.code⟩ := by
  unfold createDirEntry assert at h
  by_cases hlen : name.length ≤ maxFileNameLen
  · rw [if_pos hlen] at h
    exact ⟨hlen, (Except.ok.inj h).symm⟩
  · rw [if_neg hlen] at h
    cases h

/-- The byte behind `filename` is the last one of the inode number. -/
theorem DirEntry.bytes_iNo (e : DirEntry) : e.bytes 16 = 0 ↔ e.iNo.toNat % 256 = 0 := by
  have hbyte : (e.bytes 16).toNat = e.iNo.toNat / 256 ^ 0 % 256 := toNat_byteOf e.iNo 0
  rw [← UInt8.toNat_inj, hbyte, Nat.pow_zero, Nat.div_one]
  exact Iff.rfl

/-- The stored name is the name exactly when `filename` or the inode number ends it. -/
theorem createDirEntry_name_iff (hzero : 0 ∉ name) (h : createDirEntry name n type = .ok e) :
    e.name = name ↔ name.length < maxFileNameLen ∨ n.toNat % 256 = 0 := by
  obtain ⟨hlen, rfl⟩ := createDirEntry_eq h
  have hlen16 : name.length ≤ 16 := hlen
  let e : DirEntry := ⟨fun k => name.getD k.val 0, n, type.code⟩
  have hbytes : ∀ k, k < 16 → e.bytes k = name.getD k 0 := fun k hk => e.bytes_filename hk
  have hend : name.getD name.length 0 = 0 := by simp
  rw [DirEntry.name_eq_iff e (by unfold dirEntrySize; omega)]
  show _ ↔ name.length < 16 ∨ _
  constructor
  · intro hstr
    have hget := hstr.get (Nat.le_refl name.length)
    by_cases hshort : name.length < 16
    · exact Or.inl hshort
    · have heq : name.length = 16 := by omega
      rw [hend, heq] at hget
      exact Or.inr (e.bytes_iNo.mp hget)
  · intro hcase
    apply strAt_of_get hzero
    intro k hk
    rw [Nat.zero_add]
    by_cases hk16 : k < 16
    · exact hbytes k hk16
    · have heq : k = 16 := by omega
      have hfull : name.length = 16 := by omega
      rw [heq, ← hfull, hend, hfull]
      apply e.bytes_iNo.mpr
      exact hcase.resolve_left (by omega)

end

/-! ## The first slot with a name -/

section

variable {p : DirEntry → Prop} [DecidablePred p] {b c : Bytes} {e : DirEntry}

/-- The slots that have the property are the same. -/
theorem firstSlot_same : ∀ {left idx : Nat},
    (∀ j, idx ≤ j → j < idx + left → p (slotAt b j) ∨ p (slotAt c j) → slotAt b j = slotAt c j) →
      firstSlot p b left idx = firstSlot p c left idx := by
  intro left
  induction left with
  | zero => exact fun _ => rfl
  | succ left ih =>
      intro idx h
      have hrest := @ih (idx + 1) fun j hj hlt => h j (by omega) (by omega)
      have hhere := h idx (Nat.le_refl idx) (by omega)
      unfold firstSlot
      by_cases hb : p (slotAt b idx)
      · have heq := hhere (Or.inl hb)
        rw [if_pos hb, if_pos (heq ▸ hb), heq]
      · by_cases hc : p (slotAt c idx)
        · have heq := hhere (Or.inr hc)
          exact absurd (heq ▸ hc) hb
        · rw [if_neg hb, if_neg hc, hrest]

def SlotHas (p : DirEntry → Prop) (disk : Bytes) (blocks : BlockArray) (k j : Nat) : Prop :=
  blocks k ≠ 0 ∧ p (blockSlot disk (blocks k) j)

theorem firstSlot_none_of {left : Nat} : ∀ {idx : Nat},
    (∀ j, idx ≤ j → j < idx + left → ¬p (slotAt b j)) → firstSlot p b left idx = none := by
  induction left with
  | zero => exact fun _ => rfl
  | succ left ih =>
      intro idx h
      unfold firstSlot
      rw [if_neg (h idx (Nat.le_refl idx) (by omega))]
      exact ih fun j hj hlt => h j (by omega) (by omega)

theorem firstEntry_same {disk disk' : Bytes} {blocks blocks' : BlockArray} : ∀ {left k : Nat},
    (∀ m j, k ≤ m → m < k + left → j < dirEntrysPerSec →
      SlotHas p disk blocks m j ∨ SlotHas p disk' blocks' m j →
        blocks m ≠ 0 ∧ blocks' m ≠ 0 ∧
          blockSlot disk (blocks m) j = blockSlot disk' (blocks' m) j) →
      firstEntry p disk blocks left k = firstEntry p disk' blocks' left k := by
  intro left
  induction left with
  | zero => exact fun _ => rfl
  | succ left ih =>
      intro k h
      have hrest := @ih (k + 1) fun m j hm hlt => h m j (by omega) (by omega)
      have hhere := fun j => h k j (Nat.le_refl k) (by omega)
      have hmissing : ∀ (d : Bytes) (bs : BlockArray), bs k ≠ 0 →
          (∀ j, j < dirEntrysPerSec → ¬p (blockSlot d (bs k) j)) →
          firstEntry p d bs (left + 1) k = firstEntry p d bs left (k + 1) := by
        intro d bs hne hno
        rw [firstEntry, if_neg hne, firstSlot_none_of fun j _ hj => hno j (by omega)]
      by_cases hz : blocks k = 0
      · have hleft : firstEntry p disk blocks (left + 1) k = firstEntry p disk blocks left (k + 1) := by
          rw [firstEntry, if_pos hz]
        by_cases hz' : blocks' k = 0
        · rw [hleft, hrest, firstEntry, if_pos hz']
        · rw [hleft, hrest, hmissing disk' blocks' hz']
          exact fun j hj hp => (hhere j hj (Or.inr ⟨hz', hp⟩)).1 hz
      · by_cases hz' : blocks' k = 0
        · rw [hmissing disk blocks hz, hrest, firstEntry, if_pos hz']
          exact fun j hj hp => (hhere j hj (Or.inl ⟨hz, hp⟩)).2.1 hz'
        · have hslot : firstSlot p (view disk (sectorOff (blocks k))) dirEntrysPerSec 0 =
              firstSlot p (view disk' (sectorOff (blocks' k))) dirEntrysPerSec 0 := by
            refine firstSlot_same fun j _ hj hp => ?_
            exact (hhere j (by omega) (hp.imp (fun h => ⟨hz, h⟩) fun h => ⟨hz', h⟩)).2.2
          rw [firstEntry, firstEntry, if_neg hz, if_neg hz', hslot, hrest]

/-- One slot has the property. -/
theorem firstEntry_only {disk : Bytes} {blocks : BlockArray} {left k m l : Nat}
    (hm : k ≤ m ∧ m < k + left) (hl : l < dirEntrysPerSec) (hhas : SlotHas p disk blocks m l)
    (honly : ∀ m' l', m' < k + left → l' < dirEntrysPerSec → SlotHas p disk blocks m' l' →
      m' = m ∧ l' = l) :
    firstEntry p disk blocks left k = some (blockSlot disk (blocks m) l) := by
  cases hfound : firstEntry p disk blocks left k with
  | none => exact absurd hhas.2 (firstEntry_none hfound m l hm.1 hm.2 hl hhas.1)
  | some e =>
      obtain ⟨m', l', hm', hl', hne, hslot, hp⟩ := firstEntry_some hfound
      obtain ⟨rfl, rfl⟩ := honly m' l' hm' hl' ⟨hne, hslot ▸ hp⟩
      rw [hslot]

end

/-! ## A directory with a new entry -/

/-- Slots that are not in use have no name. -/
def BlankSlots (disk : Bytes) (i : Inode) : Prop :=
  ∀ k j, k < 140 → j < dirEntrysPerSec → allBlocksOf disk i k ≠ 0 →
    (blockSlot disk (allBlocksOf disk i k) j).fType = 0 →
      (blockSlot disk (allBlocksOf disk i k) j).name = []

/-- What is left by a `sync_dir_entry` that stored `e` without losing another entry. -/
structure Stored (s t : State) (d : DirPtr) (p : Ptr) (i i' : Inode) (e : DirEntry)
    (k j : Nat) : Prop where
  dir : t.inodeOf d = some p
  inode : t.inodes p = some i'
  mounted : t.part.Mounted
  supply : t.supply = s.supply
  installed : Installed s.disk t.disk i i' e k j
  keeps : KeepsLive s.disk t.disk i i' k j
  map : BlockMapOk t.part t.disk i'

section

variable {s t : State} {d : DirPtr} {p : Ptr} {i i' : Inode} {e : DirEntry} {k j : Nat}
variable {name : Str}

theorem BlockMapOk.selectable {part : Partition} {disk : Bytes} (h : BlockMapOk part disk i)
    {lba : UInt32} (href : References disk i lba) : Selectable lba 1 := by
  obtain ⟨-, -, -, -, hsel⟩ := h.used lba href
  exact hsel

theorem syncDirEntry_stored {ioBuf : Buf} (hm : s.part.Mounted) (hd : s.inodeOf d = some p)
    (hi : s.inodes p = some i) (hok : BlockMapOk s.part s.disk i) (htable : i.sector 12 = 0)
    (hio : 512 ≤ ioBuf.size) :
    Ensures (syncDirEntry d e ioBuf) s fun _ t => ∃ i' k j, Stored s t d p i i' e k j := by
  refine syncDirEntry_places hm hd hi hok hio (fun k j hk hne hfree => ?_)
    (fun k b hk hz hb hsel => ?_) fun b c hb hc hsb hsc => ?_
  · obtain ⟨hinst, hkeep, -⟩ := installed_hole (e := e) hok hk hne hfree
    exact ⟨i.grown, k, j, hd, if_pos rfl, hm, rfl, hinst, hkeep, hole_map hok hk hne hfree⟩
  · obtain ⟨hinst, hkeep, -⟩ := installed_direct (e := e) hm hok hk hz hb
    exact ⟨directInode s i k b, k, 0, hd, if_pos rfl, State.takeBlock_mounted hm b, rfl, hinst,
      hkeep, direct_map hm hok hk hz hb hsel⟩
  · obtain ⟨hinst, hkeep⟩ := installed_table (e := e) hm hok hb hc
    exact ⟨tableInode s i b, 12, 0, hd, if_pos rfl,
      State.takeBlock_mounted (State.takeBlock_mounted hm b) c, rfl, hinst, hkeep htable,
      tableDisk_map hm hok hb hc hsb hsc⟩

/-- A slot with a name is as it was. -/
theorem Stored.old (h : Stored s t d p i i' e k j) (hblank : BlankSlots s.disk i)
    (hname : name ≠ []) {m l : Nat} (hm : m < 140) (hl : l < dirEntrysPerSec)
    (hhas : SlotHas (fun x => x.name = name) s.disk (allBlocksOf s.disk i) m l) :
    ¬(m = k ∧ l = j) ∧ allBlocksOf t.disk i' m = allBlocksOf s.disk i m ∧
      blockSlot t.disk (allBlocksOf s.disk i m) l = blockSlot s.disk (allBlocksOf s.disk i m) l := by
  obtain ⟨hne, hslot⟩ := hhas
  refine h.keeps m l ⟨hm, hl, hne, fun htype => hname ?_⟩
  rw [← hslot]
  exact hblank m l hm hl hne htype

/-- A slot that has a name now is the one with the new entry, or had it before. -/
theorem Stored.new (h : Stored s t d p i i' e k j) (hname : name ≠ []) {m l : Nat} (hm : m < 140)
    (hl : l < dirEntrysPerSec)
    (hhas : SlotHas (fun x => x.name = name) t.disk (allBlocksOf t.disk i') m l) :
    (m = k ∧ l = j ∧ e.name = name) ∨
      SlotHas (fun x => x.name = name) s.disk (allBlocksOf s.disk i) m l := by
  obtain ⟨hne, hslot⟩ := hhas
  by_cases hpos : m = k ∧ l = j
  · obtain ⟨rfl, rfl⟩ := hpos
    rw [h.installed.slot] at hslot
    exact Or.inl ⟨rfl, rfl, hslot⟩
  · rcases h.installed.others m l hm hl hpos hne with hzero | ⟨hblock, hsame⟩
    · rw [hzero] at hslot
      exact absurd hslot.symm hname
    · refine Or.inr ⟨?_, ?_⟩
      · rwa [← hblock]
      · show (blockSlot _ _ _).name = name
        rwa [← hsame]

/-- The search for the name of the entry, which was not there before. -/
theorem Stored.findBlocks_self (h : Stored s t d p i i' e k j) (hname : name ≠ [])
    (habsent : ∀ m l, ¬NamedSlot s.disk i name m l) :
    findBlocks t.disk (allBlocksOf t.disk i') name 140 0 =
      if e.name = name then some e else none := by
  have hnew : ∀ m l, m < 140 → l < dirEntrysPerSec →
      SlotHas (fun x => x.name = name) t.disk (allBlocksOf t.disk i') m l →
        m = k ∧ l = j ∧ e.name = name := by
    intro m l hm hl hhas
    rcases h.new hname hm hl hhas with h | hold
    · exact h
    · exact absurd ⟨hm, hl, hold.1, hold.2⟩ (habsent m l)
  rw [findBlocks_eq]
  by_cases he : e.name = name
  · have hhas : SlotHas (fun x => x.name = name) t.disk (allBlocksOf t.disk i') k j := by
      refine ⟨h.installed.block, ?_⟩
      rw [h.installed.slot]
      exact he
    have hlt := h.installed.lt
    rw [if_pos he, firstEntry_only ⟨Nat.zero_le k, by omega⟩ hlt.2 hhas, h.installed.slot]
    intro m l hm hl hslot
    obtain ⟨h₁, h₂, -⟩ := hnew m l (by omega) hl hslot
    exact ⟨h₁, h₂⟩
  · rw [if_neg he]
    cases hfound : firstEntry (fun x => x.name = name) t.disk (allBlocksOf t.disk i') 140 0 with
    | none => rfl
    | some x =>
        obtain ⟨m, l, hm, hl, hne, hslot, hx⟩ := firstEntry_some hfound
        exact absurd (hnew m l (by omega) hl ⟨hne, hslot ▸ hx⟩).2.2 he

/-- The search for another name finds what it found before. -/
theorem Stored.findBlocks_other (h : Stored s t d p i i' e k j) (hblank : BlankSlots s.disk i)
    (hname : name ≠ []) (hother : e.name ≠ name) :
    findBlocks t.disk (allBlocksOf t.disk i') name 140 0 =
      findBlocks s.disk (allBlocksOf s.disk i) name 140 0 := by
  rw [findBlocks_eq, findBlocks_eq]
  apply firstEntry_same
  intro m l _ hm hl hhas
  have hold : SlotHas (fun x => x.name = name) s.disk (allBlocksOf s.disk i) m l := by
    rcases hhas with hnew | hold
    · rcases h.new hname (by omega) hl hnew with ⟨-, -, hself⟩ | hold
      · exact absurd hself hother
      · exact hold
    · exact hold
  obtain ⟨-, hblock, hsame⟩ := h.old hblank hname (by omega) hl hold
  rw [hblock]
  exact ⟨hold.1, hold.1, hsame⟩

/-! ## The search after the call -/

/-- After an entry `name` with number `n` was stored between `s` and `t`, the search in the
directory `d` finds it, and finds what it found before under every other name. -/
structure EntryFound (s t : State) (d : DirPtr) (name : Str) (n : UInt32) (type : FileType) :
    Prop where
  found : Returns (searchDirEntry d name) t fun r _ =>
    ∃ e, r = some e ∧ e.iNo = n ∧ e.fType = type.code
  others : ∀ other, other ≠ [] → other ≠ name → 0 ∉ other → other.length ≤ maxFileNameLen →
    ∀ r, Returns (searchDirEntry d other) t (fun r' _ => r' = r) ↔
      Returns (searchDirEntry d other) s (fun r' _ => r' = r)

theorem returns_searchDirEntry (name : Str) (Q : Option DirEntry → Prop) (hm : s.part.Mounted)
    (hd : s.inodeOf d = some p) (hi : s.inodes p = some i) (hok : BlockMapOk s.part s.disk i) :
    Returns (searchDirEntry d name) s (fun r _ => Q r) ↔
      (s.supply 0 = true → s.supply 1 = true ∧
        Q (findBlocks s.disk (allBlocksOf s.disk i) name 140 0)) ∧
      (s.supply 0 = false → Q none) := by
  refine (wp_searchDirEntry hd hi hm fun _ => hok.selectable).trans ?_
  refine and_congr_left fun _ => forall_congr' fun _ => ?_
  cases s.supply 1 with
  | false => exact iff_of_false (fun h => h.2 rfl) fun h => Bool.noConfusion h.1
  | true => exact ⟨fun h => ⟨rfl, h.1 rfl⟩, fun h => ⟨fun _ => h.2, fun h' => Bool.noConfusion h'⟩⟩

theorem Stored.found_iff {n : UInt32} {type : FileType} (h : Stored s t d p i i' e k j)
    (hm : s.part.Mounted) (hd : s.inodeOf d = some p) (hi : s.inodes p = some i)
    (hok : BlockMapOk s.part s.disk i) (hblank : BlankSlots s.disk i)
    (hname : name ≠ []) (hzero : 0 ∉ name) (habsent : ∀ m l, ¬NamedSlot s.disk i name m l)
    (he : createDirEntry name n type = .ok e) :
    EntryFound s t d name n type ↔ (s.supply 0 = true ∧ s.supply 1 = true) ∧
      (name.length < maxFileNameLen ∨ n.toNat % 256 = 0) := by
  obtain ⟨hlen, hfields⟩ := createDirEntry_eq he
  have hsearch := fun (x : Str) (Q : Option DirEntry → Prop) =>
    returns_searchDirEntry x Q h.mounted h.dir h.inode h.map
  rw [← createDirEntry_name_iff hzero he]
  constructor
  · intro hfound
    have hself := (hsearch name _).mp hfound.found
    rw [h.supply, h.findBlocks_self hname habsent] at hself
    cases h0 : s.supply 0 with
    | false =>
        obtain ⟨x, hx, -⟩ := hself.2 h0
        cases hx
    | true =>
        obtain ⟨h1, x, hx, -⟩ := hself.1 h0
        refine ⟨⟨rfl, h1⟩, ?_⟩
        by_contra hne
        rw [if_neg hne] at hx
        cases hx
  · rintro ⟨⟨h0, h1⟩, hself⟩
    refine ⟨(hsearch name _).mpr ?_, fun other hother hne hzero' hlen' r => ?_⟩
    · rw [h.supply, h.findBlocks_self hname habsent, if_pos hself]
      refine ⟨fun _ => ⟨h1, e, rfl, ?_, ?_⟩, fun hnone => ?_⟩
      · rw [hfields]
      · rw [hfields]
      · rw [h0] at hnone
        cases hnone
    · have hdiff : e.name ≠ other := by
        rw [hself]
        exact hne.symm
      rw [hsearch other, returns_searchDirEntry other _ hm hd hi hok, h.supply,
        h.findBlocks_other hblank hother hdiff]

/-- The name that `create_dir_entry` stored is found again exactly when it is shorter than
`filename` or the inode number ends it, with memory for the two buffers of the search. -/
theorem createDirEntry_found_iff {n : UInt32} {type : FileType} {ioBuf : Buf}
    (hm : s.part.Mounted) (hd : s.inodeOf d = some p) (hi : s.inodes p = some i)
    (hok : BlockMapOk s.part s.disk i) (htable : i.sector 12 = 0) (hblank : BlankSlots s.disk i)
    (hname : name ≠ []) (hzero : 0 ∉ name) (habsent : ∀ m l, ¬NamedSlot s.disk i name m l)
    (he : createDirEntry name n type = .ok e) (hio : 512 ≤ ioBuf.size)
    (hsync : (syncDirEntry d e ioBuf).run s = .ok (true, t)) :
    EntryFound s t d name n type ↔ (s.supply 0 = true ∧ s.supply 1 = true) ∧
      (name.length < maxFileNameLen ∨ n.toNat % 256 = 0) := by
  obtain ⟨i', k, j, h⟩ := ensures_iff.mp (syncDirEntry_stored hm hd hi hok htable hio) _ _ hsync
  exact h.found_iff hm hd hi hok hblank hname hzero habsent he

end

/-! ## The root directory with the directory `d` -/

theorem subState_blank : BlankSlots subState.disk subRootInode := by
  have hnamed : subState.inodeNamed 0 = some subRootInode := rfl
  have hslots : ∀ j, j < 21 → (subRootEntry j).fType = 0 → (subRootEntry j).name = [] := by
    decide +kernel
  intro k j _ hj hne htype
  rw [subState_root.blocks hnamed] at hne htype ⊢
  have hk : k = 0 := by
    by_contra hk
    exact hne (if_neg hk)
  rw [if_pos hk, subState_root.slot j hj] at htype ⊢
  exact hslots j hj htype

theorem subState_absent {name : Str} (hname : ∀ j, j < 21 → (subRootEntry j).name ≠ name)
    (m l : Nat) : ¬NamedSlot subState.disk subRootInode name m l := by
  intro h
  have hnamed : subState.inodeNamed 0 = some subRootInode := rfl
  obtain ⟨-, hl, hslot⟩ := subState_root.namedSlot hnamed h
  exact hname l hl hslot

/-- `sync_dir_entry` has room for one more entry. -/
theorem subState_stores (e : DirEntry)
    (hrun : ((syncDirEntry .root e (.zero 1024)).run subState).toOption.map (fun r => r.1) =
      some true) :
    ∃ t, (syncDirEntry .root e (.zero 1024)).run subState = .ok (true, t) := by
  cases h : (syncDirEntry .root e (.zero 1024)).run subState with
  | error x =>
      rw [h] at hrun
      cases hrun
  | ok r =>
      rw [h] at hrun
      obtain ⟨ok, t⟩ := r
      have hok : ok = true := Option.some.inj hrun
      rw [hok]
      exact ⟨t, rfl⟩

def regularEntry (name : Str) (n : UInt32) : DirEntry :=
  ⟨fun k => name.getD k.val 0, n, FileType.regular.code⟩

/-- The file `f` with inode 2. -/
theorem createDirEntry_found_f :
    ∃ t, (syncDirEntry .root (regularEntry [102] 2) (.zero 1024)).run subState = .ok (true, t) ∧
      EntryFound subState t .root [102] 2 .regular := by
  obtain ⟨t, ht⟩ := subState_stores (regularEntry [102] 2) (by decide +kernel)
  refine ⟨t, ht, (createDirEntry_found_iff (i := subRootInode) freshPart_mounted rfl rfl
    subState_dirWell.map (by decide) subState_blank (by decide) (by decide)
    (subState_absent (by decide +kernel)) rfl (by decide) ht).mpr ⟨⟨rfl, rfl⟩, Or.inl (by decide)⟩⟩

/-- A name of 16 characters with inode 5 is not found. -/
theorem createDirEntry_sixteen_lost :
    BlockMapOk subState.part subState.disk subRootInode ∧ subRootInode.sector 12 = 0 ∧
      BlankSlots subState.disk subRootInode ∧
      (∀ m l, ¬NamedSlot subState.disk subRootInode (List.replicate 16 97) m l) ∧
      createDirEntry (List.replicate 16 97) 5 .regular =
        .ok (regularEntry (List.replicate 16 97) 5) ∧
      ∃ t, (syncDirEntry .root (regularEntry (List.replicate 16 97) 5) (.zero 1024)).run subState =
          .ok (true, t) ∧
        ¬EntryFound subState t .root (List.replicate 16 97) 5 .regular := by
  have habsent := subState_absent (show ∀ j, j < 21 → (subRootEntry j).name ≠
    List.replicate 16 97 by decide +kernel)
  obtain ⟨t, ht⟩ := subState_stores (regularEntry (List.replicate 16 97) 5) (by decide +kernel)
  obtain ⟨i', k, j, h⟩ := ensures_iff.mp (syncDirEntry_stored (i := subRootInode) freshPart_mounted
    rfl rfl subState_dirWell.map (by decide) (by decide)) _ _ ht
  refine ⟨subState_dirWell.map, by decide, subState_blank, habsent, rfl, t, ht, fun hfound => ?_⟩
  rw [h.found_iff freshPart_mounted rfl rfl subState_dirWell.map subState_blank (by decide)
    (by decide) habsent rfl] at hfound
  rcases hfound.2 with hshort | hends
  · exact absurd hshort (by decide)
  · exact absurd hends (by decide)

end OsTruth
