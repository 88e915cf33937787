/-
Virtual memory through page tables of two levels.

Physical memory is a byte string for each frame.  `walk m d p` is the frame of page `p` in
the address space whose directory is frame `d`.  Every access goes through it, also the
accesses to the tables themselves, which lie in the space when an entry of the directory
names the directory.
-/
import Mathlib.Logic.Function.Basic
import OsTruth.Library.ByteString

namespace Paging

open ByteString

abbrev Phys := Nat → Bytes

/-! ## Entries -/

/-- The frame that an entry names, when its P bit is set. -/
def target (e : UInt32) : Option Nat :=
  if e.toNat % 2 = 1 then some (e.toNat / 4096) else none

def entry (m : Phys) (f i : Nat) : UInt32 := wordAt (m f) (4 * i)

def setEntry (m : Phys) (f i : Nat) (e : UInt32) : Phys :=
  Function.update m f (splice (m f) (4 * i) 4 (ofWords fun _ => e))

/-- The table in which page `p` has its entry. -/
def table (m : Phys) (d p : Nat) : Option Nat := target (entry m d (p / 1024))

def walk (m : Phys) (d p : Nat) : Option Nat :=
  (table m d p).bind fun t => target (entry m t (p % 1024))

/-! ## Accesses -/

def load (m : Phys) (d v : Nat) : Option UInt8 :=
  (walk m d (v / 4096)).map fun f => m f (v % 4096)

def store (m : Phys) (d v : Nat) (b : UInt8) : Option Phys :=
  (walk m d (v / 4096)).map fun f => Function.update m f (Function.update (m f) (v % 4096) b)

/-- The word at an address that is a multiple of 4. -/
def loadWord (m : Phys) (d v : Nat) : Option UInt32 :=
  (walk m d (v / 4096)).map fun f => entry m f (v % 4096 / 4)

def storeWord (m : Phys) (d v : Nat) (e : UInt32) : Option Phys :=
  (walk m d (v / 4096)).map fun f => setEntry m f (v % 4096 / 4) e

def copyBytes (d : Nat) : Nat → Nat → Nat → Phys → Option Phys
  | 0, _, _, m => some m
  | n + 1, dst, src, m => do
      let b ← load m d src
      let m ← store m d dst b
      copyBytes d n (dst + 1) (src + 1) m

def clearBytes (d : Nat) : Nat → Nat → Phys → Option Phys
  | 0, _, m => some m
  | n + 1, dst, m => do
      let m ← store m d dst 0
      clearBytes d n (dst + 1) m

section
variable {m : Phys} {d f g i p q t : Nat} {e : UInt32} {x : Bytes}

theorem or_seven {a : Nat} (ha : a % 4096 = 0) : a ||| 7 = a + 7 := by
  have h := Nat.two_pow_add_eq_or_of_lt (i := 3) (b := 7) (by decide) (a / 8)
  have ha' : 2 ^ 3 * (a / 8) = a := by omega
  rw [ha'] at h
  exact h.symm

/-- An entry made of an address and its flags. -/
theorem target_link {a : UInt32} (ha : a.toNat % 4096 = 0) :
    target (a ||| 4 ||| 2 ||| 1) = some (a.toNat / 4096) := by
  have hor : (a ||| 4 ||| 2 ||| 1).toNat = a.toNat + 7 := by
    have h : (a ||| 4 ||| 2 ||| 1).toNat = a.toNat ||| 7 := by
      simp only [UInt32.toNat_or, Nat.or_assoc]
      rfl
    rw [h, or_seven ha]
  unfold target
  rw [hor, if_pos (by omega)]
  congr 1
  omega

theorem entry_setEntry : entry (setEntry m f i e) g q =
    if g = f ∧ q = i then e else entry m g q := by
  unfold entry setEntry
  by_cases hg : g = f
  · rw [hg, Function.update_self]
    by_cases hq : q = i
    · rw [hq, if_pos ⟨rfl, rfl⟩]
      have h := @wordAt_splice_inside (m f) (ofWords fun _ => e) 4 0 (4 * i) (by omega)
      rw [Nat.add_zero] at h
      rw [h]
      exact wordAt_ofWords (fun _ => e) 0
    · rw [if_neg fun h => hq h.2]
      exact wordAt_splice_outside (by omega)
  · rw [if_neg fun h => hg h.1, Function.update_of_ne hg]

theorem setEntry_other (hg : g ≠ f) : setEntry m f i e g = m g := Function.update_of_ne hg ..

/-- A write into a frame that is neither the directory nor the table. -/
theorem table_update (hd : d ≠ g) : table (Function.update m g x) d p = table m d p := by
  unfold table entry
  rw [Function.update_of_ne hd]

theorem walk_update (hd : d ≠ g) (ht : table m d p ≠ some g) :
    walk (Function.update m g x) d p = walk m d p := by
  unfold walk
  rw [table_update hd]
  cases h : table m d p with
  | none => rfl
  | some t =>
      have htg : t ≠ g := by
        rintro rfl
        exact ht h
      simp only [Option.bind_some, entry, Function.update_of_ne htg]

/-- The space depends on the directory and the table of the page only. -/
theorem walk_congr {m' : Phys} {d' : Nat} (hd : entry m' d' (p / 1024) = entry m d (p / 1024))
    (ht : ∀ t, table m d p = some t → m' t = m t) : walk m' d' p = walk m d p := by
  have htable : table m' d' p = table m d p := by
    unfold table
    rw [hd]
  unfold walk
  rw [htable]
  cases h : table m d p with
  | none => rfl
  | some t => simp only [Option.bind_some, entry, ht t h]

/-! ## The tables in their own space -/

/-- The last entry of the directory names the directory. -/
def Recursive (m : Phys) (d : Nat) : Prop := target (entry m d 1023) = some d

theorem Recursive.walk_table (h : Recursive m d) (hi : i < 1024) :
    walk m d (1023 * 1024 + i) = target (entry m d i) := by
  have hdiv : (1023 * 1024 + i) / 1024 = 1023 := by omega
  have hmod : (1023 * 1024 + i) % 1024 = i := by omega
  unfold walk table
  rw [hdiv, hmod, h, Option.bind_some]

/-- The table of a page is a page too. -/
theorem Recursive.walk_pte (h : Recursive m d) (hp : p < 2 ^ 20) (ht : table m d p = some t) :
    walk m d (1023 * 1024 + p / 1024) = some t := by
  rw [h.walk_table (by omega)]
  exact ht

theorem Recursive.walk_dir (h : Recursive m d) : walk m d (1023 * 1024 + 1023) = some d := by
  rw [h.walk_table (by omega)]
  exact h

/-! ## Whole pages -/

/-- A frame that the translation of page `p` does not read. -/
def Spared (m : Phys) (d p g : Nat) : Prop := d ≠ g ∧ table m d p ≠ some g

theorem Spared.walk (h : Spared m d p g) : walk (Function.update m g x) d p = walk m d p :=
  walk_update h.1 h.2

/-- The first bytes of a page, one after the other. -/
theorem splice_next {b c : Bytes} {k : Nat} :
    Function.update (splice b 0 k c) k (c k) = splice b 0 (k + 1) c := by
  funext a
  by_cases ha : a = k
  · rw [ha, Function.update_self, splice_inside (by omega) (by omega), Nat.sub_zero]
  · rw [Function.update_of_ne ha]
    by_cases hlt : a < k
    · rw [splice_inside (by omega) (by omega), splice_inside (by omega) (by omega)]
    · rw [splice_outside (by omega), splice_outside (by omega)]

theorem store_page {k : Nat} (hk : k < 4096) (hq : walk m d q = some g) (hsp : Spared m d q g)
    (c : Bytes) :
    store (Function.update m g (splice (m g) 0 k c)) d (4096 * q + k) (c k) =
      some (Function.update m g (splice (m g) 0 (k + 1) c)) := by
  have hdiv : (4096 * q + k) / 4096 = q := by omega
  have hmod : (4096 * q + k) % 4096 = k := by omega
  unfold store
  rw [hdiv, hmod, hsp.walk, hq, Option.map_some, Function.update_self, splice_next,
    Function.update_idem]

/-- `memcpy` of a page. -/
theorem copyBytes_page (hp : walk m d p = some f) (hq : walk m d q = some g) (hfg : f ≠ g)
    (hsp : Spared m d p g) (hsq : Spared m d q g) :
    copyBytes d 4096 (4096 * q) (4096 * p) m =
      some (Function.update m g (splice (m g) 0 4096 (m f))) := by
  have h : ∀ n k, n + k = 4096 → copyBytes d n (4096 * q + k) (4096 * p + k)
      (Function.update m g (splice (m g) 0 k (m f))) =
        some (Function.update m g (splice (m g) 0 4096 (m f))) := by
    intro n
    induction n with
    | zero =>
        intro k hk
        rw [show k = 4096 by omega]
        rfl
    | succ n ih =>
        intro k hk
        have hdiv : (4096 * p + k) / 4096 = p := by omega
        have hmod : (4096 * p + k) % 4096 = k := by omega
        have hload : load (Function.update m g (splice (m g) 0 k (m f))) d (4096 * p + k) =
            some (m f k) := by
          unfold load
          rw [hdiv, hmod, hsp.walk, hp, Option.map_some, Function.update_of_ne hfg]
        have hstore := store_page (k := k) (by omega) hq hsq (m f)
        simp only [copyBytes, hload, hstore, Option.bind_eq_bind, Option.bind_some]
        exact ih (k + 1) (by omega)
  have h0 := h 4096 0 rfl
  have hnone : splice (m g) 0 0 (m f) = m g := by
    funext a
    exact splice_outside (by omega)
  rwa [hnone, Function.update_eq_self] at h0

/-- `memcpy` of a part of a page, to the same place in another. -/
theorem copyBytes_part (hp : walk m d p = some f) (hq : walk m d q = some g) (hfg : f ≠ g)
    (hsp : Spared m d p g) (hsq : Spared m d q g) {k n : Nat} (hk : k + n ≤ 4096) :
    copyBytes d n (4096 * q + k) (4096 * p + k) m =
      some (Function.update m g (splice (m g) k n fun i => m f (k + i))) := by
  let c : Bytes := fun i => m f (k + i)
  have hnext : ∀ j, Function.update (splice (m g) k j c) (k + j) (c j) =
      splice (m g) k (j + 1) c := by
    intro j
    funext a
    by_cases ha : a = k + j
    · rw [ha, Function.update_self, splice_inside (by omega) (by omega), Nat.add_sub_cancel_left]
    · rw [Function.update_of_ne ha]
      by_cases hin : k ≤ a ∧ a < k + j
      · rw [splice_inside hin.1 hin.2, splice_inside hin.1 (by omega)]
      · rw [splice_outside (by omega), splice_outside (by omega)]
  have h : ∀ left j, left + j = n → copyBytes d left (4096 * q + k + j) (4096 * p + k + j)
      (Function.update m g (splice (m g) k j c)) =
        some (Function.update m g (splice (m g) k n c)) := by
    intro left
    induction left with
    | zero =>
        intro j hj
        rw [show j = n by omega]
        rfl
    | succ left ih =>
        intro j hj
        have hload : load (Function.update m g (splice (m g) k j c)) d (4096 * p + k + j) =
            some (c j) := by
          have hdiv : (4096 * p + k + j) / 4096 = p := by omega
          have hmod : (4096 * p + k + j) % 4096 = k + j := by omega
          unfold load
          rw [hdiv, hmod, hsp.walk, hp, Option.map_some, Function.update_of_ne hfg]
        have hstore : store (Function.update m g (splice (m g) k j c)) d (4096 * q + k + j) (c j) =
            some (Function.update m g (splice (m g) k (j + 1) c)) := by
          have hdiv : (4096 * q + k + j) / 4096 = q := by omega
          have hmod : (4096 * q + k + j) % 4096 = k + j := by omega
          unfold store
          rw [hdiv, hmod, hsq.walk, hq, Option.map_some, Function.update_self, hnext,
            Function.update_idem]
        simp only [copyBytes, hload, hstore, Option.bind_eq_bind, Option.bind_some]
        exact ih (j + 1) (by omega)
  have h0 := h n 0 rfl
  have hnone : splice (m g) k 0 c = m g := by
    funext a
    exact splice_outside (by omega)
  rwa [hnone, Function.update_eq_self] at h0

/-- `memset` of a page. -/
theorem clearBytes_page (hq : walk m d q = some g) (hsq : Spared m d q g) :
    clearBytes d 4096 (4096 * q) m =
      some (Function.update m g (splice (m g) 0 4096 fun _ => 0)) := by
  have h : ∀ n k, n + k = 4096 → clearBytes d n (4096 * q + k)
      (Function.update m g (splice (m g) 0 k fun _ => 0)) =
        some (Function.update m g (splice (m g) 0 4096 fun _ => 0)) := by
    intro n
    induction n with
    | zero =>
        intro k hk
        rw [show k = 4096 by omega]
        rfl
    | succ n ih =>
        intro k hk
        have hstore := store_page (k := k) (by omega) hq hsq fun _ => 0
        simp only [clearBytes, hstore, Option.bind_eq_bind, Option.bind_some]
        exact ih (k + 1) (by omega)
  have h0 := h 4096 0 rfl
  have hnone : splice (m g) 0 0 (fun _ => 0) = m g := by
    funext a
    exact splice_outside (by omega)
  rwa [hnone, Function.update_eq_self] at h0

/-- A table that was cleared has no entries. -/
theorem entry_cleared (hi : i < 1024) :
    entry (Function.update m g (splice (m g) 0 4096 fun _ => 0)) g i = 0 := by
  unfold entry
  rw [Function.update_self]
  have h := @wordAt_splice_inside (m g) (fun _ => 0) 4096 (4 * i) 0 (by omega)
  rw [Nat.zero_add] at h
  rw [h]
  rfl

end

/-! ## The frames that a directory leads to -/

/-- A table of the space, or a page of it. -/
inductive Slot
  | table (i : Nat)
  | page (p : Nat)
  deriving DecidableEq

/-- What the first `n` entries of directory `d` lead to. -/
def slots (m : Phys) (d n : Nat) : Slot → Option Nat
  | .table i => if i < n then target (entry m d i) else none
  | .page p => if p / 1024 < n then walk m d p else none

/-- An empty table in frame `f`, that entry `i` of the directory names from now on. -/
def addTable (m : Phys) (d i : Nat) (e : UInt32) (f : Nat) : Phys :=
  Function.update (setEntry m d i e) f (splice (setEntry m d i e f) 0 4096 fun _ => 0)

section
variable {m : Phys} {d f g i j n p t : Nat} {e : UInt32} {x : Bytes}

theorem slots_table (hi : i < n) : slots m d n (.table i) = target (entry m d i) := if_pos hi

theorem slots_page (hp : p / 1024 < n) : slots m d n (.page p) = walk m d p := if_pos hp

theorem table_slot (hp : p / 1024 < n) : table m d p = slots m d n (.table (p / 1024)) :=
  (slots_table hp).symm

/-- A page has a table. -/
theorem slots_page_table (hp : slots m d n (.page p) = some f) :
    ∃ t, slots m d n (.table (p / 1024)) = some t := by
  by_cases hlt : p / 1024 < n
  · rw [slots_page hlt] at hp
    obtain ⟨t, ht, -⟩ := Option.bind_eq_some_iff.mp hp
    exact ⟨t, (slots_table hlt).trans ht⟩
  · simp [slots, if_neg hlt] at hp

/-- A write into a frame that holds neither the directory nor a table. -/
theorem slots_update (hd : d ≠ g) (ht : ∀ i, slots m d n (.table i) ≠ some g) :
    slots (Function.update m g x) d n = slots m d n := by
  funext o
  cases o with
  | table i =>
      simp only [slots, entry, Function.update_of_ne hd]
  | page p =>
      by_cases hlt : p / 1024 < n
      · rw [slots_page hlt, slots_page hlt]
        apply walk_update hd
        rw [table_slot hlt]
        exact ht (p / 1024)
      · simp only [slots, if_neg hlt]

theorem addTable_other (hd : g ≠ d) (hf : g ≠ f) : addTable m d i e f g = m g := by
  unfold addTable
  rw [Function.update_of_ne hf, setEntry_other hd]

theorem entry_addTable_dir (hd : d ≠ f) :
    entry (addTable m d i e f) d j = if j = i then e else entry m d j := by
  have h : entry (addTable m d i e f) d j = entry (setEntry m d i e) d j := by
    unfold addTable entry
    rw [Function.update_of_ne hd]
  rw [h, entry_setEntry]
  simp

theorem entry_addTable_new (hj : j < 1024) : entry (addTable m d i e f) f j = 0 :=
  entry_cleared hj

/-- A new table adds itself and no page. -/
theorem slots_addTable (hi : i < n) (hd : d ≠ f) (he : target e = some f)
    (hnone : slots m d n (.table i) = none) (hdir : ∀ j, slots m d n (.table j) ≠ some d)
    (hf : ∀ j, slots m d n (.table j) ≠ some f) :
    slots (addTable m d i e f) d n = Function.update (slots m d n) (.table i) (some f) := by
  funext o
  cases o with
  | table j =>
      by_cases hj : j = i
      · rw [hj, Function.update_self, slots_table hi, entry_addTable_dir hd, if_pos rfl, he]
      · rw [Function.update_of_ne (by simpa using hj)]
        simp only [slots, entry_addTable_dir hd, if_neg hj]
  | page p =>
      rw [Function.update_of_ne (by simp)]
      by_cases hlt : p / 1024 < n
      · rw [slots_page hlt, slots_page hlt]
        by_cases hp : p / 1024 = i
        · have hold : table m d p = none := by
            rw [table_slot hlt, hp]
            exact hnone
          have hnew : table (addTable m d i e f) d p = some f := by
            unfold table
            rw [entry_addTable_dir hd, if_pos hp, he]
          unfold walk
          rw [hold, hnew, Option.bind_some, entry_addTable_new (Nat.mod_lt _ (by decide))]
          rfl
        · apply walk_congr
          · rw [entry_addTable_dir hd, if_neg hp]
          · intro t ht
            rw [table_slot hlt] at ht
            apply addTable_other
            · rintro rfl
              exact hdir _ ht
            · rintro rfl
              exact hf _ ht
      · simp only [slots, if_neg hlt]

/-- An entry of a table adds a page, or takes one away. -/
theorem slots_setEntry {o : Option Nat} (hp : p / 1024 < n) (htd : t ≠ d)
    (ht : slots m d n (.table (p / 1024)) = some t)
    (hinj : ∀ j, slots m d n (.table j) = some t → j = p / 1024) (he : target e = o) :
    slots (setEntry m t (p % 1024) e) d n = Function.update (slots m d n) (.page p) o := by
  have hentry : ∀ j, entry (setEntry m t (p % 1024) e) d j = entry m d j := by
    intro j
    rw [entry_setEntry, if_neg fun h => htd h.1.symm]
  funext o
  cases o with
  | table j =>
      rw [Function.update_of_ne (by simp)]
      simp only [slots, hentry]
  | page q =>
      have htable : table (setEntry m t (p % 1024) e) d q = table m d q := by
        unfold table
        rw [hentry]
      by_cases hlt : q / 1024 < n
      · by_cases hq : q = p
        · rw [hq, Function.update_self, slots_page hp]
          rw [hq] at htable
          unfold walk
          rw [htable, table_slot hp, ht, Option.bind_some, entry_setEntry, if_pos ⟨rfl, rfl⟩, he]
        · rw [Function.update_of_ne (by simpa using hq), slots_page hlt, slots_page hlt]
          unfold walk
          rw [htable]
          cases hold : table m d q with
          | none => rfl
          | some u =>
              rw [Option.bind_some, Option.bind_some, entry_setEntry, if_neg]
              -- another page with the same table has another entry
              rintro ⟨rfl, hmod⟩
              rw [table_slot hlt] at hold
              have hdiv := hinj _ hold
              omega
      · have hne : q ≠ p := by
          rintro rfl
          exact hlt hp
        rw [Function.update_of_ne (by simpa using hne)]
        simp only [slots, if_neg hlt]

end

end Paging
