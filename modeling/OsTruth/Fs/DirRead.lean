/-
`dir_read` goes through the live entries.

Each call scans the directory from its first slot and counts live entries until it is as
far as `dir_pos` says.  `liveEntries` lists them in the order of the scan, so a call returns
the entry whose place in the list is `dir_pos / 24`, and moves on by one.
-/
import OsTruth.Fs.DirCalls
import OsTruth.Fs.DirSlots
import OsTruth.Fs.OneBlock

namespace OsTruth

open ByteString Fallible

/-! ## The live slots in order -/

instance (disk : Bytes) (i : Inode) (k j : Nat) : Decidable (LiveSlot disk i k j) :=
  inferInstanceAs (Decidable (_ ∧ _ ∧ _ ∧ _))

def slotsFrom (k left : Nat) : List (Nat × Nat) :=
  (List.range' k left).flatMap fun k => (List.range' 0 dirEntrysPerSec).map (Prod.mk k)

/-- The live slots of a directory, block by block. -/
def liveSlots (disk : Bytes) (i : Inode) : List (Nat × Nat) :=
  (slotsFrom 0 140).filter fun x => LiveSlot disk i x.1 x.2

def entryIn (disk : Bytes) (i : Inode) (x : Nat × Nat) : DirEntry :=
  blockSlot disk (allBlocksOf disk i x.1) x.2

/-- The live entries of a directory, in the order of their slots. -/
def liveEntries (disk : Bytes) (i : Inode) : List DirEntry :=
  (liveSlots disk i).map (entryIn disk i)

/-- The order of the slots. -/
def SlotBefore (x y : Nat × Nat) : Prop := x.1 < y.1 ∨ x.1 = y.1 ∧ x.2 < y.2

def liveAmong (disk : Bytes) (i : Inode) (l : List (Nat × Nat)) : List DirEntry :=
  (l.filter fun x => LiveSlot disk i x.1 x.2).map (entryIn disk i)

section

variable {disk : Bytes} {i : Inode} {k j left : Nat}

theorem mem_slotsFrom : (k, j) ∈ slotsFrom 0 140 ↔ k < 140 ∧ j < dirEntrysPerSec := by
  simp [slotsFrom, List.mem_range']

theorem mem_liveSlots : (k, j) ∈ liveSlots disk i ↔ LiveSlot disk i k j := by
  unfold liveSlots
  rw [List.mem_filter, decide_eq_true_eq, mem_slotsFrom]
  exact and_iff_right_of_imp fun h => ⟨h.1, h.2.1⟩

theorem slotsFrom_pairwise (k left : Nat) : (slotsFrom k left).Pairwise SlotBefore := by
  induction left generalizing k with
  | zero => exact List.Pairwise.nil
  | succ left ih =>
      have hsplit : slotsFrom k (left + 1) =
          (List.range' 0 dirEntrysPerSec).map (Prod.mk k) ++ slotsFrom (k + 1) left := by
        unfold slotsFrom
        rw [List.range'_succ, List.flatMap_cons]
      rw [hsplit, List.pairwise_append]
      refine ⟨?_, ih (k + 1), fun x hx y hy => Or.inl ?_⟩
      · have hlt : (List.range' 0 dirEntrysPerSec).Pairwise (· < ·) := List.pairwise_lt_range' 1
        rw [List.pairwise_map]
        exact hlt.imp fun h => Or.inr ⟨rfl, h⟩
      · simp only [slotsFrom, List.mem_map, List.mem_flatMap, List.mem_range'] at hx hy
        obtain ⟨_, -, rfl⟩ := hx
        obtain ⟨_, ⟨m, -, rfl⟩, _, -, rfl⟩ := hy
        show k < k + 1 + 1 * m
        omega

theorem liveSlots_pairwise (disk : Bytes) (i : Inode) :
    (liveSlots disk i).Pairwise SlotBefore :=
  (slotsFrom_pairwise 0 140).filter _

theorem liveSlots_nodup (disk : Bytes) (i : Inode) : (liveSlots disk i).Nodup := by
  refine (liveSlots_pairwise disk i).imp fun {x y} hbefore heq => ?_
  rw [heq] at hbefore
  unfold SlotBefore at hbefore
  omega

theorem liveAmong_append (l l' : List (Nat × Nat)) :
    liveAmong disk i (l ++ l') = liveAmong disk i l ++ liveAmong disk i l' := by
  unfold liveAmong
  rw [List.filter_append, List.map_append]

theorem liveAmong_cons (x : Nat × Nat) (l : List (Nat × Nat)) :
    liveAmong disk i (x :: l) = if LiveSlot disk i x.1 x.2 then entryIn disk i x ::
      liveAmong disk i l else liveAmong disk i l := by
  unfold liveAmong
  rw [List.filter_cons]
  by_cases h : LiveSlot disk i x.1 x.2
  · simp [h]
  · simp [h]

/-- The live entries of `left` blocks from block `k` on. -/
def entriesFrom (disk : Bytes) (i : Inode) (k left : Nat) : List DirEntry :=
  liveAmong disk i (slotsFrom k left)

theorem entriesFrom_succ (disk : Bytes) (i : Inode) (k left : Nat) :
    entriesFrom disk i k (left + 1) =
      liveAmong disk i ((List.range' 0 dirEntrysPerSec).map (Prod.mk k)) ++
        entriesFrom disk i (k + 1) left := by
  unfold entriesFrom slotsFrom
  rw [List.range'_succ, List.flatMap_cons, liveAmong_append]

/-- A block that does not exist has no live entry. -/
theorem liveAmong_hole (h : allBlocksOf disk i k = 0) (l : List Nat) :
    liveAmong disk i (l.map (Prod.mk k)) = [] := by
  induction l with
  | nil => rfl
  | cons j l ih =>
      rw [List.map_cons, liveAmong_cons, if_neg fun hlive => hlive.2.2.1 h, ih]

theorem entriesFrom_holes (h : ∀ m, k ≤ m → allBlocksOf disk i m = 0) :
    entriesFrom disk i k left = [] := by
  induction left generalizing k with
  | zero => rfl
  | succ left ih =>
      rw [entriesFrom_succ, liveAmong_hole (h k (Nat.le_refl k)), List.nil_append]
      exact ih fun m hm => h m (by omega)

/-- Without an indirect table the first twelve blocks hold all entries. -/
theorem liveEntries_eq (disk : Bytes) (i : Inode) :
    liveEntries disk i = entriesFrom disk i 0 (if i.sector 12 ≠ 0 then 140 else 12) := by
  by_cases h : i.sector 12 = 0
  · have hsplit : slotsFrom 0 140 = slotsFrom 0 12 ++ slotsFrom 12 128 := by
      unfold slotsFrom
      rw [← List.flatMap_append, List.range'_append_1]
    have hnone : entriesFrom disk i 12 128 = [] :=
      entriesFrom_holes fun m hm => allBlocksOf_no_table disk hm h
    show liveAmong disk i (slotsFrom 0 140) = _
    rw [hsplit, liveAmong_append, if_neg (by simp [h])]
    show _ ++ entriesFrom disk i 12 128 = _
    rw [hnone, List.append_nil]
    rfl
  · rw [if_pos h]
    rfl

theorem slotsFrom_length (k left : Nat) : (slotsFrom k left).length = left * dirEntrysPerSec := by
  simp [slotsFrom, List.length_flatMap, List.map_const']

theorem liveSlots_length_le (disk : Bytes) (i : Inode) :
    (liveSlots disk i).length ≤ 140 * dirEntrysPerSec := by
  rw [← slotsFrom_length 0 140]
  exact List.length_filter_le _ _

theorem liveEntries_length (disk : Bytes) (i : Inode) :
    (liveEntries disk i).length = (liveSlots disk i).length :=
  List.length_map _

end

/-! ## One call -/

section

variable {s : State} {i : Inode} {k : Nat} {dirPos iSize : UInt32}

/-- The byte offset of the entry with the given place. -/
def entryPos (n : Nat) : UInt32 := UInt32.ofNat (dirEntrySize * n)

theorem toNat_entryPos {n : Nat} (h : n ≤ 140 * dirEntrysPerSec) :
    (entryPos n).toNat = dirEntrySize * n := by
  have hper : dirEntrysPerSec = 21 := rfl
  refine UInt32.toNat_ofNat_of_lt ?_
  unfold dirEntrySize
  show _ < 2 ^ 32
  omega

theorem entryPos_succ (n : Nat) : entryPos n + 24 = entryPos (n + 1) := by
  unfold entryPos dirEntrySize
  rw [Nat.mul_add, UInt32.ofNat_add]
  rfl

theorem entryPos_lt {m n : Nat} (hm : m ≤ 140 * dirEntrysPerSec) (hn : n ≤ 140 * dirEntrysPerSec) :
    entryPos m < entryPos n ↔ m < n := by
  rw [UInt32.lt_iff_toNat_lt, toNat_entryPos hm, toNat_entryPos hn]
  unfold dirEntrySize
  omega

/-- The scan of one block, with `c` entries counted before slot `idx`. -/
theorem readSlots_eq {b : Bytes} {n : Nat} (hblock : allBlocksOf s.disk i k ≠ 0) (hk : k < 140)
    (hb : ∀ j, j < dirEntrysPerSec → slotAt b j = entryIn s.disk i (k, j)) (hn : n ≤ 140 * dirEntrysPerSec)
    (left idx c : Nat) (hidx : idx + left = dirEntrysPerSec) (hc : c ≤ n) :
    readSlots b 24 (entryPos n) left idx (entryPos c) =
      match (liveAmong s.disk i ((List.range' idx left).map (Prod.mk k)))[n - c]? with
      | some e => .ok (some e, entryPos n)
      | none => .ok (none, entryPos
          (c + (liveAmong s.disk i ((List.range' idx left).map (Prod.mk k))).length)) := by
  induction left generalizing idx c with
  | zero => rfl
  | succ left ih =>
      rw [readSlots, List.range'_succ, List.map_cons, liveAmong_cons, hb idx (by omega)]
      by_cases hlive : (entryIn s.disk i (k, idx)).fType = FileType.unknown.code
      · have hdead : ¬LiveSlot s.disk i k idx := fun h => h.2.2.2 hlive
        rw [if_pos hlive, if_neg hdead]
        exact ih (idx + 1) c (by omega) hc
      · have hslot : LiveSlot s.disk i k idx := ⟨hk, by omega, hblock, hlive⟩
        have hpos : entryPos c < entryPos n ↔ c < n := entryPos_lt (by omega) hn
        rw [if_neg hlive, if_pos hslot]
        by_cases hlt : c < n
        · have hrest := ih (idx + 1) (c + 1) (by omega) (by omega)
          have hstep : n - c = n - (c + 1) + 1 := by omega
          rw [if_pos (hpos.mpr hlt), entryPos_succ, hrest, hstep, List.getElem?_cons_succ,
            List.length_cons]
          have hlen : ∀ m, c + 1 + m = c + (m + 1) := by omega
          rw [hlen]
        · have heq : c = n := by omega
          rw [if_neg fun h => hlt (hpos.mp h), heq, Nat.sub_self]
          simp [assert, bind, Except.bind]

/-- A block that was read into a buffer has the same slots there. -/
theorem slotAt_read (disk : Bytes) (lba : UInt32) {j : Nat} (hj : j < dirEntrysPerSec) :
    slotAt (splice (fun _ => 0) 0 (512 * 1) (view disk (sectorOff lba))) j = blockSlot disk lba j := by
  have hper : dirEntrysPerSec = 21 := rfl
  refine DirEntry.ofBytes_congr fun a ha => ?_
  unfold dirEntrySize at *
  rw [splice_inside (Nat.zero_le _) (by omega), Nat.sub_zero]

/-- The scan of the blocks, with `c` entries counted before block `k`, finds the entry
with place `n`. -/
theorem readBlocks_returns (hsel : ∀ m, m < 140 → allBlocksOf s.disk i m ≠ 0 →
      Selectable (allBlocksOf s.disk i m) 1)
    {n total : Nat} (hn : n < total) (htotal : total ≤ 140 * dirEntrysPerSec)
    (left k c : Nat) (buf : Bytes) (hk : k + left ≤ 140) (hc : c ≤ n)
    (hlen : c + (entriesFrom s.disk i k left).length = total) :
    Returns (readBlocks (allBlocksOf s.disk i) 24 (entryPos n) (entryPos total) left k
      (entryPos c) buf) s fun r t => t = s ∧ r.1 = (entriesFrom s.disk i k left)[n - c]? := by
  induction left generalizing k c buf with
  | zero =>
      have hnil : (entriesFrom s.disk i k 0).length = 0 := rfl
      omega
  | succ left ih =>
      have hlt : entryPos n < entryPos total := (entryPos_lt (by omega) htotal).mpr hn
      have hsplit := entriesFrom_succ s.disk i k left
      rw [readBlocks, if_neg (UInt32.not_le.mpr hlt), hsplit]
      rw [hsplit, List.length_append] at hlen
      by_cases hzero : allBlocksOf s.disk i k = 0
      · rw [liveAmong_hole hzero] at hlen ⊢
        rw [if_pos hzero, List.nil_append]
        exact ih (k + 1) c buf (by omega) hc (by simpa using hlen)
      · rw [if_neg hzero, Returns, Wp.bind, wp_ideRead]
        refine ⟨fun _ => ⟨fun _ => ?_, fun hsize => hsize (Nat.le_refl _)⟩,
          fun h => h (hsel k (by omega) hzero)⟩
        have hscan := readSlots_eq (i := i) hzero (by omega)
          (fun j hj => slotAt_read s.disk (allBlocksOf s.disk i k) hj) (by omega : n ≤ _)
          dirEntrysPerSec 0 c (by omega) hc
        show Wp (StateT.lift (readSlots (splice (fun _ => 0) 0 (512 * 1) _) _ _ _ _ _) >>= _) s _ _
        rw [Wp.bind, hscan]
        generalize liveAmong s.disk i ((List.range' 0 dirEntrysPerSec).map (Prod.mk k)) = here
          at hlen ⊢
        cases hfound : here[n - c]? with
        | some e =>
            rw [Wp.lift_pure]
            have hin : n - c < here.length := by
              by_contra hge
              rw [List.getElem?_eq_none (by omega)] at hfound
              cases hfound
            refine ⟨rfl, ?_⟩
            rw [List.getElem?_append_left hin, hfound]
        | none =>
            have hge : here.length ≤ n - c := List.getElem?_eq_none_iff.mp hfound
            rw [Wp.lift_pure]
            refine (ih (k + 1) (c + here.length) _ (by omega) (by omega) (by omega)).call
              fun r t h => ⟨h.1, ?_⟩
            rw [h.2, List.getElem?_append_right hge]
            exact congrArg _ (by omega)

end

/-! ## A sequence of calls -/

/-- The directory is open with inode `i`, and the size of the inode counts its live
entries. -/
structure State.Listed (s : State) (dir : DirPtr) (i : Inode) : Prop where
  inode : ∃ d p, s.dirOf dir = some d ∧ d.inode = some p ∧ s.inodes p = some i
  select : ∀ lba, References s.disk i lba → Selectable lba 1
  size : i.iSize.toNat = dirEntrySize * (liveSlots s.disk i).length
  entrySize : s.part.sb.dirEntrySize.toNat = dirEntrySize

/-- `n` calls of `dir_read` in a row. -/
def readDir (dir : DirPtr) : Nat → Kern (List (Option DirEntry))
  | 0 => pure []
  | n + 1 => do
      let e ← dirRead dir
      let es ← readDir dir n
      pure (e :: es)

section

variable {s t : State} {i : Inode} {dir : DirPtr} {d : Dir} {n : Nat}

/-- What one call returns, and the place it leaves. -/
theorem readEntry_returns (h : s.Listed dir i) (hn : n ≤ (liveSlots s.disk i).length)
    (hpos : d.dirPos = entryPos n) :
    Returns (readEntry i d) s fun r t => t = s ∧ r.1 = (liveEntries s.disk i)[n]? ∧
      r.2.inode = d.inode ∧ r.2.dirPos = entryPos (min (n + 1) (liveSlots s.disk i).length) := by
  have htotal := liveSlots_length_le s.disk i
  have hsize : i.iSize = entryPos (liveSlots s.disk i).length := by
    apply UInt32.toNat_inj.mp
    rw [h.size, toNat_entryPos htotal]
  have hentry : s.part.sb.dirEntrySize = 24 := UInt32.toNat_inj.mp h.entrySize
  have hlen := liveEntries_length s.disk i
  rw [liveEntries_eq] at hlen
  unfold readEntry
  rw [Returns, Wp.bind, wp_collectBlocks]
  refine ⟨fun _ => ?_, fun hne hsel => hsel (h.select _ ⟨hne, Or.inl rfl⟩)⟩
  rw [Wp.bind, wp_getEntrySize]
  refine ⟨fun _ => ?_, fun hne => hne h.entrySize⟩
  rw [hentry, hsize, hpos, Wp.bind]
  by_cases hlt : n < (liveSlots s.disk i).length
  · refine (readBlocks_returns (fun m hm hne => h.select _ ⟨hne, Or.inr ⟨m, hm, rfl⟩⟩) hlt
      htotal (if i.sector 12 ≠ 0 then 140 else 12) 0 0 d.dirBuf (by split <;> omega)
      (Nat.zero_le n) (by omega)).call fun r t hread => ?_
    obtain ⟨ht, hr⟩ := hread
    obtain ⟨found, dirBuf⟩ := r
    rw [← liveEntries_eq, Nat.sub_zero] at hr
    have hin : n < (liveEntries s.disk i).length := by
      rw [liveEntries_length]
      exact hlt
    rw [List.getElem?_eq_getElem hin] at hr ⊢
    have hfound : found = some (liveEntries s.disk i)[n] := hr
    rw [hfound]
    refine ⟨ht, rfl, rfl, ?_⟩
    show entryPos n + 24 = _
    rw [entryPos_succ, Nat.min_eq_left hlt]
  · have heq : n = (liveSlots s.disk i).length := by omega
    have hend : ∀ left, readBlocks (allBlocksOf s.disk i) 24 (entryPos n)
        (entryPos (liveSlots s.disk i).length) left 0 0 d.dirBuf =
          (pure (none, d.dirBuf) : Kern _) := by
      intro left
      cases left with
      | zero => rfl
      | succ left =>
          rw [readBlocks, heq]
          exact if_pos (UInt32.le_refl _)
    have hnone : (liveEntries s.disk i)[n]? = none := by
      rw [List.getElem?_eq_none_iff, liveEntries_length]
      omega
    rw [hend, Wp.pure, hnone]
    refine ⟨rfl, rfl, rfl, ?_⟩
    show entryPos n = _
    rw [Nat.min_eq_right (by omega), heq]

/-- Storing the `struct dir` keeps the directory. -/
theorem State.Listed.setDirOf (h : s.Listed dir i) {d' : Dir} (hd : s.dirOf dir = some d)
    (hinode : d'.inode = d.inode) : (s.setDirOf dir d').Listed dir i := by
  obtain ⟨d₀, p, hd₀, hp, hi⟩ := h.inode
  rw [hd, Option.some.injEq] at hd₀
  have hp' : d'.inode = some p := by rw [hinode, hd₀, hp]
  cases dir with
  | root => exact ⟨⟨d', p, rfl, hp', hi⟩, h.select, h.size, h.entrySize⟩
  | heap q => exact ⟨⟨d', p, if_pos rfl, hp', hi⟩, h.select, h.size, h.entrySize⟩

theorem setDirOf_disk (s : State) (dir : DirPtr) (d : Dir) : (s.setDirOf dir d).disk = s.disk := by
  cases dir with
  | root => rfl
  | heap q => rfl

theorem dirRead_returns (h : s.Listed dir i) (hn : n ≤ (liveSlots s.disk i).length)
    (hd : s.dirOf dir = some d) (hpos : d.dirPos = entryPos n) :
    Returns (dirRead dir) s fun e t => e = (liveEntries s.disk i)[n]? ∧ t.Listed dir i ∧
      t.disk = s.disk ∧ ∃ d', t.dirOf dir = some d' ∧
        d'.dirPos = entryPos (min (n + 1) (liveSlots s.disk i).length) := by
  obtain ⟨d₀, p, hd₀, hp, hi⟩ := h.inode
  rw [hd, Option.some.injEq] at hd₀
  rw [← hd₀] at hp
  rw [Returns, wp_dirRead hd hp hi]
  refine (readEntry_returns h hn hpos).call fun r t hread => ?_
  obtain ⟨ht, hr, hinode, hnext⟩ := hread
  rw [ht]
  exact ⟨hr, h.setDirOf hd hinode, setDirOf_disk s dir r.2, r.2, dirOf_setDirOf, hnext⟩

/-- From place `m` on. -/
theorem readDir_returns (n : Nat) {m : Nat} (h : s.Listed dir i)
    (hd : s.dirOf dir = some d) (hpos : d.dirPos = entryPos (min m (liveSlots s.disk i).length)) :
    Returns (readDir dir n) s fun es _ =>
      es = (List.range' m n).map fun k => (liveEntries s.disk i)[k]? := by
  induction n generalizing s m d with
  | zero => exact rfl
  | succ n ih =>
      have hget : (liveEntries s.disk i)[min m (liveSlots s.disk i).length]? =
          (liveEntries s.disk i)[m]? := by
        by_cases hm : m ≤ (liveSlots s.disk i).length
        · rw [Nat.min_eq_left hm]
        · rw [Nat.min_eq_right (by omega), List.getElem?_eq_none, List.getElem?_eq_none]
          · rw [liveEntries_length]
            omega
          · rw [liveEntries_length]
      have hmin : min (min m (liveSlots s.disk i).length + 1) (liveSlots s.disk i).length =
          min (m + 1) (liveSlots s.disk i).length := by omega
      unfold readDir
      rw [Returns, Wp.bind]
      refine (dirRead_returns h (Nat.min_le_right _ _) hd hpos).call
        fun e t hread => ?_
      obtain ⟨he, ht, hdisk, d', hd', hpos'⟩ := hread
      rw [hmin, ← hdisk] at hpos'
      rw [Wp.bind]
      refine (ih ht hd' hpos').call fun es u hes => ?_
      rw [Wp.pure, hes, he, hget, hdisk, List.range'_succ, List.map_cons]

/-- After `sys_rewinddir`, calls of `dir_read` return the live entries one after the
other, and then nothing more. -/
theorem dirRead_enumerates (h : s.Listed dir i) (n : Nat) :
    Returns (do
        sysRewinddir (some dir)
        readDir dir n) s
      (fun es _ => es = (List.range n).map fun k =>
        ((liveSlots s.disk i).map (entryIn s.disk i))[k]?) ∧
      (∀ k j, (k, j) ∈ liveSlots s.disk i ↔ LiveSlot s.disk i k j) ∧
      (liveSlots s.disk i).Pairwise SlotBefore := by
  refine ⟨?_, fun _ _ => mem_liveSlots, liveSlots_pairwise s.disk i⟩
  obtain ⟨d, p, hd, hp, hi⟩ := h.inode
  have hdisk := setDirOf_disk s dir { d with dirPos := 0 }
  have hset : (s.setDirOf dir { d with dirPos := 0 }).dirOf dir =
      some { d with dirPos := 0 } := dirOf_setDirOf
  have hlisted : (s.setDirOf dir { d with dirPos := 0 }).Listed dir i := h.setDirOf hd rfl
  have hstart : ({ d with dirPos := 0 } : Dir).dirPos =
      entryPos (min 0 (liveSlots (s.setDirOf dir { d with dirPos := 0 }).disk i).length) := by
    rw [Nat.zero_min]
    rfl
  unfold sysRewinddir
  rw [Returns, Wp.bind, Wp.bind, wp_loadDir]
  refine ⟨fun d₀ hd₀ => ?_, fun hnone => absurd (hd.symm.trans hnone) (Option.some_ne_none d)⟩
  rw [hd, Option.some.injEq] at hd₀
  rw [← hd₀, wp_storeDir]
  refine (readDir_returns n hlisted hset hstart).call fun es _ hes => ?_
  rw [hes, hdisk, List.range_eq_range']
  rfl

def subRootInode : Inode :=
  { dirInodeOf 0 3 freshPart.sb.dataStartLba with iOpenCnts := 1 }

theorem subState_listed : subState.Listed .root subRootInode where
  inode := ⟨_, _, rfl, rfl, rfl⟩
  select := by
    have hnamed : subState.inodeNamed 0 = some subRootInode := rfl
    rintro lba ⟨hne, hlba⟩
    rcases hlba with rfl | ⟨k, -, rfl⟩
    · exact absurd (by decide) hne
    · rw [subState_root.blocks hnamed] at hne ⊢
      by_cases hk : k = 0
      · rw [if_pos hk]
        exact subState_root.lba.2
      · exact absurd (if_neg hk) hne
  size := by decide +kernel
  entrySize := by decide

/-- The root directory with `.`, `..` and one directory: the fourth call finds nothing. -/
theorem dirRead_enumerates_root :
    Returns (do
        sysRewinddir (some .root)
        readDir .root 4) subState
      (fun es _ => es = (List.range 4).map fun k =>
        ((liveSlots subState.disk subRootInode).map (entryIn subState.disk subRootInode))[k]?) ∧
      (∀ k j, (k, j) ∈ liveSlots subState.disk subRootInode ↔
        LiveSlot subState.disk subRootInode k j) ∧
      (liveSlots subState.disk subRootInode).Pairwise SlotBefore :=
  dirRead_enumerates subState_listed 4

end

end OsTruth
