/-
The first slot of a directory that has a property.

`search_dir_entry` looks for a name and `get_child_dir_name` for a number, in the slots of
one block after the other.  `scanBlocks` is that loop, and `firstEntry` what it finds.
-/
import OsTruth.Fs.Dir
import OsTruth.Fs.DirSlots

namespace OsTruth

open ByteString Fallible

section

variable (p : DirEntry → Prop) [DecidablePred p]

def firstSlot (b : Bytes) : Nat → Nat → Option DirEntry
  | 0, _ => none
  | left + 1, idx => if p (slotAt b idx) then some (slotAt b idx) else firstSlot b left (idx + 1)

def firstEntry (disk : Bytes) (allBlocks : BlockArray) : Nat → Nat → Option DirEntry
  | 0, _ => none
  | left + 1, blockIdx =>
      if allBlocks blockIdx = 0 then firstEntry disk allBlocks left (blockIdx + 1)
      else
        match firstSlot p (view disk (sectorOff (allBlocks blockIdx))) dirEntrysPerSec 0 with
        | some e => some e
        | none => firstEntry disk allBlocks left (blockIdx + 1)

def scanBlocks (allBlocks : BlockArray) : Nat → Nat → Kern (Option DirEntry)
  | 0, _ => pure none
  | left + 1, blockIdx =>
      if allBlocks blockIdx = 0 then scanBlocks allBlocks left (blockIdx + 1)
      else do
        let buf ← ideRead (allBlocks blockIdx) (.zero 512) 1
        match firstSlot p buf.data dirEntrysPerSec 0 with
        | some e => pure (some e)
        | none => scanBlocks allBlocks left (blockIdx + 1)

end

section

variable {p : DirEntry → Prop} [DecidablePred p] {b c : Bytes} {e : DirEntry} {s : State}
variable {F : Fault → Prop}

theorem firstSlot_congr (h : ∀ a, a < 512 → b a = c a) :
    ∀ left idx, idx + left ≤ dirEntrysPerSec → firstSlot p b left idx = firstSlot p c left idx := by
  intro left
  induction left with
  | zero => exact fun _ _ => rfl
  | succ left ih =>
      intro idx hle
      have hper : dirEntrysPerSec = 21 := rfl
      have hslot : slotAt b idx = slotAt c idx := by
        refine DirEntry.ofBytes_congr (fun k hk => h _ ?_)
        unfold dirEntrySize at *
        omega
      rw [firstSlot, firstSlot, hslot, ih (idx + 1) (by omega)]

theorem firstSlot_some :
    ∀ {left idx : Nat}, firstSlot p b left idx = some e →
      ∃ j, j < idx + left ∧ slotAt b j = e ∧ p e := by
  intro left
  induction left with
  | zero =>
      intro idx h
      cases h
  | succ left ih =>
      intro idx h
      rw [firstSlot] at h
      by_cases hp : p (slotAt b idx)
      · rw [if_pos hp, Option.some.injEq] at h
        exact ⟨idx, by omega, h, h ▸ hp⟩
      · rw [if_neg hp] at h
        obtain ⟨j, hj, hslot⟩ := ih h
        exact ⟨j, by omega, hslot⟩

theorem firstSlot_none :
    ∀ {left idx : Nat}, firstSlot p b left idx = none →
      ∀ j, idx ≤ j → j < idx + left → ¬p (slotAt b j) := by
  intro left
  induction left with
  | zero =>
      intro idx _ j hle hlt
      omega
  | succ left ih =>
      intro idx h j hle hlt
      rw [firstSlot] at h
      by_cases hp : p (slotAt b idx)
      · rw [if_pos hp] at h
        cases h
      · rw [if_neg hp] at h
        by_cases hj : j = idx
        · rw [hj]
          exact hp
        · exact ih h j (by omega) (by omega)

theorem firstEntry_some {disk : Bytes} {allBlocks : BlockArray} :
    ∀ {left k : Nat}, firstEntry p disk allBlocks left k = some e →
      ∃ k' j, k' < k + left ∧ j < dirEntrysPerSec ∧ allBlocks k' ≠ 0 ∧
        blockSlot disk (allBlocks k') j = e ∧ p e := by
  intro left
  induction left with
  | zero =>
      intro k h
      cases h
  | succ left ih =>
      intro k h
      have hnext : firstEntry p disk allBlocks left (k + 1) = some e → _ := ih
      rw [firstEntry] at h
      by_cases hzero : allBlocks k = 0
      · rw [if_pos hzero] at h
        obtain ⟨k', j, hk', hrest⟩ := hnext h
        exact ⟨k', j, by omega, hrest⟩
      · rw [if_neg hzero] at h
        cases hfound : firstSlot p (view disk (sectorOff (allBlocks k))) dirEntrysPerSec 0 with
        | some e' =>
            rw [hfound] at h
            obtain ⟨j, hj, hslot, hp⟩ := firstSlot_some hfound
            rw [← Option.some.inj h]
            exact ⟨k, j, by omega, by omega, hzero, hslot, hp⟩
        | none =>
            rw [hfound] at h
            obtain ⟨k', j, hk', hrest⟩ := hnext h
            exact ⟨k', j, by omega, hrest⟩

theorem firstEntry_none {disk : Bytes} {allBlocks : BlockArray} :
    ∀ {left k : Nat}, firstEntry p disk allBlocks left k = none →
      ∀ k' j, k ≤ k' → k' < k + left → j < dirEntrysPerSec → allBlocks k' ≠ 0 →
        ¬p (blockSlot disk (allBlocks k') j) := by
  intro left
  induction left with
  | zero =>
      intro k _ k' j hle hlt
      omega
  | succ left ih =>
      intro k h k' j hle hlt hj hne
      rw [firstEntry] at h
      by_cases hzero : allBlocks k = 0
      · rw [if_pos hzero] at h
        have hk : k' ≠ k := fun heq => hne (heq ▸ hzero)
        exact ih h k' j (by omega) (by omega) hj hne
      · rw [if_neg hzero] at h
        cases hfound : firstSlot p (view disk (sectorOff (allBlocks k))) dirEntrysPerSec 0 with
        | some e' =>
            rw [hfound] at h
            cases h
        | none =>
            rw [hfound] at h
            by_cases hk : k' = k
            · rw [hk]
              exact firstSlot_none hfound j (Nat.zero_le j) (by omega)
            · exact ih h k' j (by omega) (by omega) hj hne

theorem wp_scanBlocks (allBlocks : BlockArray) {Q : Option DirEntry → State → Prop}
    (hsel : ∀ k, k < 140 → allBlocks k ≠ 0 → Selectable (allBlocks k) 1) :
    ∀ left k, k + left ≤ 140 → (Wp (scanBlocks p allBlocks left k) s F Q ↔
      Q (firstEntry p s.disk allBlocks left k) s) := by
  intro left
  induction left with
  | zero => exact fun _ _ => Wp.pure
  | succ left ih =>
      intro k hle
      rw [scanBlocks, firstEntry]
      by_cases hzero : allBlocks k = 0
      · rw [if_pos hzero, if_pos hzero]
        exact ih (k + 1) (by omega)
      · have hread : firstSlot p (splice (fun _ => 0) 0 (512 * 1)
            (view s.disk (sectorOff (allBlocks k)))) dirEntrysPerSec 0 =
            firstSlot p (view s.disk (sectorOff (allBlocks k))) dirEntrysPerSec 0 := by
          refine firstSlot_congr (fun a ha => ?_) dirEntrysPerSec 0 (by omega)
          rw [splice_inside (Nat.zero_le a) (by omega), Nat.sub_zero]
        rw [if_neg hzero, if_neg hzero, Wp.bind, wp_ideRead]
        simp only [hsel k (by omega) hzero, Buf.zero, Nat.mul_one, Nat.le_refl, true_implies,
          not_true_eq_false, false_implies, and_true]
        rw [Nat.mul_one] at hread
        rw [hread]
        cases firstSlot p (view s.disk (sectorOff (allBlocks k))) dirEntrysPerSec 0 with
        | some e => exact Wp.pure
        | none => exact ih (k + 1) (by omega)

end

end OsTruth
