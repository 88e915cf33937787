/-
Paging as the loader leaves it: `setup_page` in `boot/loader.S`.

Paging is off while it runs, so its addresses are physical.  It clears the page directory and
nothing else, and the entries of the tables that it does not write keep what the memory held.
-/
import OsTruth.Kernel.PageTables

namespace OsTruth

open ByteString Fallible Paging

def pageDirTablePos : UInt32 := 0x100000

/-- `PG_US_U | PG_RW_W | PG_P`. -/
def pgFlags : UInt32 := 4 ||| 2 ||| 1

/-- `mov byte [a], b`. -/
def pokeByte (m : Phys) (a : UInt32) (b : UInt8) : Phys :=
  let f := a.toNat / 4096
  Function.update m f (Function.update (m f) (a.toNat % 4096) b)

/-- `mov [a], w`, for an address that is a multiple of 4. -/
def pokeDword (m : Phys) (a w : UInt32) : Phys :=
  setEntry m (a.toNat / 4096) (a.toNat % 4096 / 4) w

/-- `.clear_page_dir`, with `ecx` and `esi`. -/
def clearPageDir : Nat → UInt32 → Phys → Phys
  | 0, _, m => m
  | ecx + 1, esi, m => clearPageDir ecx (esi + 1) (pokeByte m (pageDirTablePos + esi) 0)

/-- The loops over the entries of a table: `n` entries from `esi` on, a page apart. -/
def fillEntries (base : UInt32) : Nat → UInt32 → UInt32 → Phys → Phys
  | 0, _, _, m => m
  | n + 1, esi, e, m =>
      fillEntries base n (esi + 1) (e + 0x1000) (pokeDword m (base + esi * 4) e)

/-- `.create_pte`: `eax` is the first table, and `ebx` the entry. -/
def createPte (m : Phys) : Phys := fillEntries (pageDirTablePos + 0x1000) 256 0 pgFlags m

/-- `.create_kernel_pde`: `ebx` is the directory, and `eax` the entry. -/
def createKernelPde (m : Phys) : Phys :=
  fillEntries pageDirTablePos 254 769 (pageDirTablePos + 0x2000 ||| pgFlags) m

/-- `.create_pde`: the two entries for the low memory, and the entry for the directory. -/
def createPde (m : Phys) : Phys :=
  let eax := pageDirTablePos + 0x1000 ||| pgFlags
  let m := pokeDword m (pageDirTablePos + 0x0) eax
  let m := pokeDword m (pageDirTablePos + 0xc00) eax
  pokeDword m (pageDirTablePos + 4092) (eax - 0x1000)

def setupPage (m : Phys) : Phys := createKernelPde (createPte (createPde (clearPageDir 4096 0 m)))

/-! ## What the entries name -/

/-- The table that entry `i` of the directory names. -/
def bootTable (i : Nat) : Option Nat :=
  if i = 0 then some 257
  else if 768 ≤ i ∧ i < 1023 then some (i - 511)
  else if i = 1023 then some 256
  else none

/-- The frame of page `p`, over a memory that held `m`. -/
def bootFrame (m : Phys) (p : Nat) : Option Nat :=
  if p / 1024 = 1023 then bootTable (p % 1024)
  else (bootTable (p / 1024)).bind fun t =>
    if t = 257 ∧ p % 1024 < 256 then some (p % 1024) else target (entry m t (p % 1024))

section

variable {m : Phys} {f i n p : Nat} {e : UInt32}

/-- The frames of the directory and of the first table. -/
theorem pokeDword_entry {a w : UInt32} {g j : Nat} (ha : a.toNat = 4096 * g + 4 * j)
    (hj : j < 1024) :
    pokeDword m a w = setEntry m g j w := by
  have hdiv : a.toNat / 4096 = g := by omega
  have hmod : a.toNat % 4096 / 4 = j := by omega
  unfold pokeDword
  rw [hdiv, hmod]

theorem clearPageDir_bytes : ∀ (n : Nat) (esi : UInt32) (m : Phys), esi.toNat + n ≤ 4096 →
    ∀ f a, clearPageDir n esi m f a =
      if f = 256 ∧ esi.toNat ≤ a ∧ a < esi.toNat + n then 0 else m f a := by
  intro n
  induction n with
  | zero =>
      intro esi m _ f a
      rw [if_neg (by omega)]
      rfl
  | succ n ih =>
      intro esi m hn f a
      have hnext : (esi + 1).toNat = esi.toNat + 1 := by
        rw [UInt32.toNat_add]
        show (esi.toNat + 1) % 2 ^ 32 = _
        omega
      have haddr : (pageDirTablePos + esi).toNat = 4096 * 256 + esi.toNat := by
        rw [UInt32.toNat_add]
        show (0x100000 + esi.toNat) % 2 ^ 32 = _
        omega
      have hdiv : (pageDirTablePos + esi).toNat / 4096 = 256 := by omega
      have hmod : (pageDirTablePos + esi).toNat % 4096 = esi.toNat := by omega
      unfold clearPageDir
      rw [ih _ _ (by omega), hnext]
      simp only [pokeByte, hdiv, hmod]
      by_cases hf : f = 256
      · rw [hf, Function.update_self]
        by_cases ha : a = esi.toNat
        · rw [ha, Function.update_self, ite_self, if_pos (by omega)]
        · rw [Function.update_of_ne ha]
          split_ifs <;> first | rfl | omega
      · rw [if_neg fun h => hf h.1, if_neg fun h => hf h.1, Function.update_of_ne hf]

theorem clearPageDir_entry (hi : i < 1024) : entry (clearPageDir 4096 0 m) 256 i = 0 := by
  have hbyte : ∀ k, k < 4 → clearPageDir 4096 0 m 256 (4 * i + k) = 0 := by
    intro k hk
    rw [clearPageDir_bytes 4096 0 m (by decide)]
    exact if_pos ⟨rfl, Nat.zero_le _, by show _ < 0 + 4096; omega⟩
  have h0 := hbyte 0 (by omega)
  have h1 := hbyte 1 (by omega)
  have h2 := hbyte 2 (by omega)
  have h3 := hbyte 3 (by omega)
  unfold entry wordAt
  rw [Nat.add_zero] at h0
  rw [h0, h1, h2, h3]
  rfl

theorem clearPageDir_other (hf : f ≠ 256) : clearPageDir 4096 0 m f = m f := by
  funext a
  rw [clearPageDir_bytes 4096 0 m (by decide), if_neg fun h => hf h.1]

theorem toNat_add_of_lt {a b : UInt32} (h : a.toNat + b.toNat < 2 ^ 32) :
    (a + b).toNat = a.toNat + b.toNat := by
  rw [UInt32.toNat_add, Nat.mod_eq_of_lt h]

/-- The loop writes its own entries and nothing else. -/
theorem fillEntries_spec {b : UInt32} {g : Nat} (hb : b.toNat = 4096 * g)
    (hg : g < 1024) : ∀ (n : Nat) (esi e : UInt32) (m : Phys), esi.toNat + n ≤ 1024 →
    (∀ f i, entry (fillEntries b n esi e m) f i =
      if f = g ∧ esi.toNat ≤ i ∧ i < esi.toNat + n then
        e + UInt32.ofNat (i - esi.toNat) * 0x1000
      else entry m f i) ∧
    ∀ f, f ≠ g → fillEntries b n esi e m f = m f := by
  intro n
  induction n with
  | zero =>
      intro esi e m _
      exact ⟨fun f i => (if_neg (by omega)).symm, fun f _ => rfl⟩
  | succ n ih =>
      intro esi e m hn
      have hnext : (esi + 1).toNat = esi.toNat + 1 := toNat_add_of_lt (by
        show esi.toNat + 1 < _
        omega)
      have hmul : (esi * 4).toNat = 4 * esi.toNat := by
        rw [UInt32.toNat_mul]
        show esi.toNat * 4 % 2 ^ 32 = _
        omega
      have haddr : (b + esi * 4).toNat = 4096 * g + 4 * esi.toNat := by
        rw [toNat_add_of_lt (by omega), hb, hmul]
      obtain ⟨hentry, hother⟩ := ih (esi + 1) (e + 0x1000)
        (pokeDword m (b + esi * 4) e) (by omega)
      rw [hnext] at hentry
      rw [pokeDword_entry haddr (by omega)] at hentry hother
      unfold fillEntries
      rw [pokeDword_entry haddr (by omega)]
      refine ⟨fun f i => ?_, fun f hf => ?_⟩
      · rw [hentry, entry_setEntry]
        by_cases hf : f = g
        · by_cases hi : i = esi.toNat
          · rw [if_neg (by omega), if_pos ⟨hf, hi⟩, if_pos (by omega), hi, Nat.sub_self]
            simp
          · by_cases hin : esi.toNat + 1 ≤ i ∧ i < esi.toNat + 1 + n
            · have hsub : i - esi.toNat = (i - (esi.toNat + 1)) + 1 := by omega
              rw [if_pos ⟨hf, hin⟩, if_pos (by omega), hsub]
              have hone : UInt32.ofNat (i - (esi.toNat + 1) + 1) =
                  UInt32.ofNat (i - (esi.toNat + 1)) + 1 := UInt32.ofNat_add ..
              rw [hone]
              grind
            · rw [if_neg fun h => hin h.2, if_neg fun h => hi h.2, if_neg (by omega)]
        · rw [if_neg fun h => hf h.1, if_neg fun h => hf h.1, if_neg fun h => hf h.1]
      · rw [hother f hf, setEntry_other hf]

/-- The writes of the loader into the directory. -/
theorem createPde_entry {j : Nat} : entry (createPde m) 256 j =
    if j = 1023 then 0x100007 else if j = 768 then 0x101007 else if j = 0 then 0x101007
    else entry m 256 j := by
  have h0 : ∀ w n, pokeDword n (pageDirTablePos + 0x0) w = setEntry n 256 0 w :=
    fun w n => pokeDword_entry rfl (by decide)
  have h768 : ∀ w n, pokeDword n (pageDirTablePos + 0xc00) w = setEntry n 256 768 w :=
    fun w n => pokeDword_entry rfl (by decide)
  have h1023 : ∀ w n, pokeDword n (pageDirTablePos + 4092) w = setEntry n 256 1023 w :=
    fun w n => pokeDword_entry rfl (by decide)
  unfold createPde
  simp only [h0, h768, h1023, entry_setEntry, true_and]
  rfl

theorem createPde_other (hf : f ≠ 256) : createPde m f = m f := by
  have h : ∀ n a w, a.toNat / 4096 = 256 → pokeDword n a w f = n f := by
    intro n a w ha
    apply setEntry_other
    rw [ha]
    exact hf
  unfold createPde
  rw [h _ _ _ (by decide), h _ _ _ (by decide), h _ _ _ (by decide)]

/-- An entry of a sequence of pages. -/
theorem target_page {a k : Nat} (e : UInt32) (he : e.toNat = 4096 * a + 7) (hk : a + k < 2 ^ 20) :
    target (e + UInt32.ofNat k * 0x1000) = some (a + k) := by
  have hmul : (UInt32.ofNat k * 0x1000).toNat = 4096 * k := by
    rw [UInt32.toNat_mul, UInt32.toNat_ofNat']
    show k % 2 ^ 32 * 4096 % 2 ^ 32 = _
    omega
  have hsum : (e + UInt32.ofNat k * 0x1000).toNat = 4096 * (a + k) + 7 := by
    rw [toNat_add_of_lt (by omega), he, hmul]
    omega
  unfold target
  rw [hsum, if_pos (by omega)]
  congr 1
  omega

/-- Every entry of the directory is written. -/
theorem setupPage_dir (hi : i < 1024) : target (entry (setupPage m) 256 i) = bootTable i := by
  have hkernel := (fillEntries_spec (b := pageDirTablePos) (g := 256) rfl (by decide) 254 769
    (pageDirTablePos + 0x2000 ||| pgFlags)
    (createPte (createPde (clearPageDir 4096 0 m))) (by decide)).1 256 i
  have hpte := (fillEntries_spec (b := pageDirTablePos + 0x1000) (g := 257) rfl (by decide)
    256 0 pgFlags (createPde (clearPageDir 4096 0 m)) (by decide)).1 256 i
  rw [if_neg fun h => absurd h.1 (by decide)] at hpte
  unfold setupPage createKernelPde
  rw [hkernel]
  unfold createPte
  rw [hpte, createPde_entry, clearPageDir_entry hi]
  show target (if 256 = 256 ∧ 769 ≤ i ∧ i < 769 + 254 then
    (0x102007 : UInt32) + UInt32.ofNat (i - 769) * 0x1000 else _) = _
  unfold bootTable
  by_cases hrange : 769 ≤ i ∧ i < 1023
  · rw [if_pos ⟨rfl, hrange.1, by omega⟩, if_neg (by omega), if_pos (by omega),
      target_page (a := 258) _ (by decide) (by omega)]
    exact congrArg some (by omega)
  · rw [if_neg fun h => hrange ⟨h.2.1, by omega⟩]
    by_cases hlast : i = 1023
    · subst hlast
      decide
    · by_cases hfirst : i = 768
      · subst hfirst
        decide
      · by_cases hzero : i = 0
        · subst hzero
          decide
        · rw [if_neg hlast, if_neg hfirst, if_neg hzero, if_neg hzero, if_neg (by omega),
            if_neg hlast]
          rfl

/-- The first table is written for the low memory. -/
theorem setupPage_table : target (entry (setupPage m) 257 i) =
    if i < 256 then some i else target (entry m 257 i) := by
  have hkernel := (fillEntries_spec (b := pageDirTablePos) (g := 256) rfl (by decide) 254 769
    (pageDirTablePos + 0x2000 ||| pgFlags)
    (createPte (createPde (clearPageDir 4096 0 m))) (by decide)).1 257 i
  have hpte := (fillEntries_spec (b := pageDirTablePos + 0x1000) (g := 257) rfl (by decide)
    256 0 pgFlags (createPde (clearPageDir 4096 0 m)) (by decide)).1 257 i
  rw [if_neg fun h => absurd h.1 (by decide)] at hkernel
  have hold : entry (createPde (clearPageDir 4096 0 m)) 257 i = entry m 257 i := by
    unfold entry
    rw [createPde_other (by decide), clearPageDir_other (by decide)]
  unfold setupPage createKernelPde
  rw [hkernel]
  unfold createPte
  rw [hpte, hold]
  show target (if 257 = 257 ∧ 0 ≤ i ∧ i < 0 + 256 then
    (7 : UInt32) + UInt32.ofNat (i - 0) * 0x1000 else _) = _
  by_cases hlow : i < 256
  · rw [if_pos (by omega), if_pos hlow, target_page (a := 0) _ (by decide) (by omega)]
    exact congrArg some (by omega)
  · rw [if_neg (by omega), if_neg hlow]

theorem setupPage_other (h256 : f ≠ 256) (h257 : f ≠ 257) : setupPage m f = m f := by
  have hkernel := (fillEntries_spec (b := pageDirTablePos) (g := 256) rfl (by decide) 254 769
    (pageDirTablePos + 0x2000 ||| pgFlags)
    (createPte (createPde (clearPageDir 4096 0 m))) (by decide)).2 f h256
  have hpte := (fillEntries_spec (b := pageDirTablePos + 0x1000) (g := 257) rfl (by decide)
    256 0 pgFlags (createPde (clearPageDir 4096 0 m)) (by decide)).2 f h257
  unfold setupPage createKernelPde
  rw [hkernel]
  unfold createPte
  rw [hpte, createPde_other h256, clearPageDir_other h256]

attribute [irreducible] setupPage

/-- The directory is its own last table. -/
theorem setupPage_recursive (m : Phys) : Recursive (setupPage m) 256 := setupPage_dir (by decide)

/-- The tables are the directory and the frames behind it. -/
theorem bootTable_some {t : Nat} (h : bootTable i = some t) :
    i = 0 ∧ t = 257 ∨ 768 ≤ i ∧ i < 1023 ∧ t = i - 511 ∨ i = 1023 ∧ t = 256 := by
  unfold bootTable at h
  split_ifs at h with h0 hkernel hlast
  · exact Or.inl ⟨h0, (Option.some.inj h).symm⟩
  · exact Or.inr (Or.inl ⟨hkernel.1, hkernel.2, (Option.some.inj h).symm⟩)
  · exact Or.inr (Or.inr ⟨hlast, (Option.some.inj h).symm⟩)

end

/-- The address space that the loader hands to the kernel, for every content of the memory:
the low megabyte at 0 and at 3 GiB, the directory and its tables at the top, and in the rest of
the first 4 MiB and of the kernel's part whatever the memory held where the tables lie. -/
theorem setupPage_walk (m : Phys) (v : UInt32) :
    walk (setupPage m) 256 (v.toNat / 4096) = bootFrame m (v.toNat / 4096) := by
  have hv := v.toNat_lt
  have hp : v.toNat / 4096 / 1024 < 1024 := by omega
  generalize v.toNat / 4096 = p at hp
  have htable : table (setupPage m) 256 p = bootTable (p / 1024) := setupPage_dir hp
  have hmod : p % 1024 < 1024 := Nat.mod_lt _ (by decide)
  unfold walk bootFrame
  rw [htable]
  by_cases htop : p / 1024 = 1023
  · have hlast : bootTable 1023 = some 256 := by decide
    rw [if_pos htop, htop, hlast, Option.bind_some]
    exact setupPage_dir hmod
  · rw [if_neg htop]
    cases ht : bootTable (p / 1024) with
    | none => rfl
    | some t =>
        rw [Option.bind_some, Option.bind_some]
        have hrange := bootTable_some ht
        by_cases h257 : t = 257
        · rw [h257, setupPage_table]
          split_ifs <;> first | rfl | omega
        · rw [if_neg fun h => h257 h.1]
          unfold entry
          rw [setupPage_other (by omega) h257]

/-! ## The first mappings of the kernel -/

section

variable {m : Phys} {ps : Pools} {a : UInt32} {p : Nat}

/-- The table of a page of the kernel's heap exists, and the loader has not written its entry. -/
theorem setupPage_heap (hlow : 768 * 1024 + 256 ≤ p) (hhigh : p < 1023 * 1024) :
    table (setupPage m) 256 p = some (p / 1024 - 511) ∧
      target (entry (setupPage m) (p / 1024 - 511) (p % 1024)) =
        target (entry m (p / 1024 - 511) (p % 1024)) := by
  have htable : table (setupPage m) 256 p = bootTable (p / 1024) := setupPage_dir (by omega)
  have hboot : bootTable (p / 1024) = some (p / 1024 - 511) := by
    unfold bootTable
    rw [if_neg (by omega), if_pos (by omega)]
  refine ⟨htable.trans hboot, ?_⟩
  by_cases h257 : p / 1024 - 511 = 257
  · rw [h257, setupPage_table, if_neg (by omega)]
  · unfold entry
    rw [setupPage_other (by omega) h257]

/-- A page that is mapped is not mapped again. -/
theorem pageTableAdd_present {s : Space} {t f : Nat} (hr : Recursive s.phys s.cr3)
    (hp : p < 2 ^ 20) (ht : table s.phys s.cr3 p = some t)
    (hf : target (entry s.phys t (p % 1024)) = some f) :
    Wp (pageTableAdd (pgSize * p) a) s (fun e => e = .assert) fun _ _ => False := by
  have hdir : target (entry s.phys s.cr3 (p / 1024)) = some t := ht
  have hpde : (entry s.phys s.cr3 (p / 1024)).toNat % 2 = 1 := by
    rw [present_iff, hdir]
    rfl
  have hpte : (entry s.phys t (p % 1024)).toNat % 2 = 1 := by
    rw [present_iff, hf]
    rfl
  unfold pageTableAdd
  rw [Wp.bind]
  apply wp_readWord (loadWord_pde hr hp)
  rw [if_pos hpde]
  unfold writePte
  rw [Wp.bind]
  apply wp_readWord (loadWord_pte hr hp ht)
  rw [Wp.bind]
  unfold massert assert
  rw [if_neg fun h => h hpte]
  rfl

/-- Mapping a page of the kernel's heap takes no frame for a table.  It succeeds exactly when
the memory held no present entry where the entry of the page lies, and else its assertion
fails. -/
theorem setupPage_pageTableAdd (hlow : 768 * 1024 + 256 ≤ p) (hhigh : p < 1023 * 1024) :
    Wp (pageTableAdd (pgSize * p) a) ⟨setupPage m, 256, ps⟩
      (fun e => e = .assert ∧ target (entry m (p / 1024 - 511) (p % 1024)) ≠ none)
      (fun _ t => target (entry m (p / 1024 - 511) (p % 1024)) = none ∧ t.pools = ps ∧
        t.phys = setEntry (setupPage m) (p / 1024 - 511) (p % 1024) (link a)) := by
  have hheap := setupPage_heap (m := m) hlow hhigh
  have htable := hheap.1
  have hentry := hheap.2
  have hr := setupPage_recursive m
  have hp : p < 2 ^ 20 := by omega
  generalize setupPage m = n at hr htable hentry ⊢
  cases hold : target (entry m (p / 1024 - 511) (p % 1024)) with
  | none =>
      rw [hold] at hentry
      apply wp_pageTableAdd_some (s := ⟨n, 256, ps⟩) hr hp htable hentry
      refine ⟨rfl, rfl, ?_⟩
      dsimp only
  | some f =>
      rw [hold] at hentry
      have hassert := pageTableAdd_present (s := ⟨n, 256, ps⟩) (a := a) hr hp htable hentry
      apply hassert.mono
      · exact fun e he => ⟨he, Option.some_ne_none f⟩
      · exact fun _ _ h => h.elim

end

/-- Over a memory of zeros the first page of the heap is mapped. -/
theorem setupPage_pageTableAdd_first :
    Wp (pageTableAdd (pgSize * 786688) 0x200000)
      ⟨setupPage fun _ _ => 0, 256, memPoolInit 0x400000⟩
      (fun e => e = .assert ∧
        target (entry (fun _ _ => 0) (786688 / 1024 - 511) (786688 % 1024)) ≠ none)
      (fun _ t => target (entry (fun _ _ => 0) (786688 / 1024 - 511) (786688 % 1024)) = none ∧
        t.pools = memPoolInit 0x400000 ∧
        t.phys = setEntry (setupPage fun _ _ => 0) (786688 / 1024 - 511) (786688 % 1024)
          (link 0x200000)) :=
  setupPage_pageTableAdd (by omega) (by omega)

end OsTruth
