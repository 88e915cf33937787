/-
The exclusion of writers that `write_deny` is there to give.

`Exclusive` is kept by `file_create`, `file_open` and `file_close` on states in which
they use `write_deny` as it is meant.  Each inode in memory keeps the number `num` that
it had when it was read or made.
-/
import OsTruth.Fs.FileTable

namespace OsTruth

open ByteString Fallible

/-- What holds of the tables that all tasks share. -/
structure TableOk (s : State) (num : Ptr → UInt32) : Prop where
  bound : ∀ g p, s.OpenOn g p → g < maxFileOpen ∧ p ∈ s.part.openInodes
  old : ∀ p, p ∈ s.part.openInodes → p.id < s.next
  inj : ∀ p q, p ∈ s.part.openInodes → q ∈ s.part.openInodes → num p = num q → p = q
  taken : ∀ p, p ∈ s.part.openInodes → s.part.inodeBitmap.bit (num p).toNat = true
  bits : 8 * s.part.inodeBitmap.btmpBytesLen ≤ 2 ^ 32
  one : ∀ g g' p, s.OpenOn g p → s.OpenOn g' p → (s.fileTable g).Writes →
    (s.fileTable g').Writes → g = g'

/-- What holds of the inodes that the running task sees. -/
structure ViewOk (s : State) (num : Ptr → UInt32) : Prop where
  old : ∀ p i, s.inodes p = some i → p.id < s.next
  seen : ∀ p i, p ∈ s.part.openInodes → s.inodes p = some i → i.iNo = num p ∧
    s.holders p ≤ i.iOpenCnts ∧
      (i.writeDeny = 0 → ∀ g, s.OpenOn g p → ¬(s.fileTable g).Writes)

/-- How a call of one task changes what the others rely on. -/
structure Evolves (s : State) (num : Ptr → UInt32) (t : State) (num' : Ptr → UInt32) : Prop where
  table : TableOk t num'
  view : ViewOk t num'
  num : ∀ p, p.id < s.next → num' p = num p
  next : s.next ≤ t.next
  listed : ∀ p, p ∈ t.part.openInodes →
    p ∈ s.part.openInodes ∨ (∃ j, s.inodes p = some j) ∨ s.next ≤ p.id
  heap : ∀ p i, t.inodes p = some i → (∃ j, s.inodes p = some j) ∨ s.next ≤ p.id
  unseen : ∀ g p, p.id < s.next → s.inodes p = none → t.OpenOn g p →
    t.fileTable g = s.fileTable g

section

variable {s t u : State} {num num' num'' : Ptr → UInt32} {p : Ptr} {g : Nat}

theorem Evolves.trans (h : Evolves s num t num') (k : Evolves t num' u num'') :
    Evolves s num u num'' where
  table := k.table
  view := k.view
  num p hp := (k.num p (Nat.lt_of_lt_of_le hp h.next)).trans (h.num p hp)
  next := Nat.le_trans h.next k.next
  listed p hp := by
    rcases k.listed p hp with hl | ⟨j, hj⟩ | hl
    · exact h.listed p hl
    · exact Or.inr (h.heap p j hj)
    · exact Or.inr (Or.inr (Nat.le_trans h.next hl))
  heap p i hi := by
    rcases k.heap p i hi with ⟨j, hj⟩ | hl
    · exact h.heap p j hj
    · exact Or.inr (Nat.le_trans h.next hl)
  unseen g p hp hnone hopen := by
    have hnone' : t.inodes p = none := by
      cases ht : t.inodes p with
      | none => rfl
      | some j =>
          rcases h.heap p j ht with ⟨i, hi⟩ | hl
          · rw [hnone] at hi
            cases hi
          · omega
    have hmid := k.unseen g p (Nat.lt_of_lt_of_le hp h.next) hnone' hopen
    refine hmid.trans (h.unseen g p hp hnone ?_)
    unfold State.OpenOn at hopen ⊢
    rwa [← hmid]

/-! ### Fewer open entries, one more open inode -/

/-- Each entry of `t` that is open on `p` was open on it in `s`, and is the same. -/
def Fewer (s t : State) (p : Ptr) : Prop :=
  ∀ g, t.OpenOn g p → t.fileTable g = s.fileTable g ∧ s.OpenOn g p

theorem Fewer.of_fileTable (h : t.fileTable = s.fileTable) (p : Ptr) : Fewer s t p := by
  intro g hg
  unfold State.OpenOn at hg ⊢
  rw [h] at hg
  exact ⟨congrFun h g, hg⟩

/-- The tables stay right when entries and open inodes only go. -/
theorem TableOk.fewer (ht : TableOk s num) (hfew : ∀ p, Fewer s t p)
    (hlist : ∀ p, p ∈ t.part.openInodes → p ∈ s.part.openInodes)
    (hheld : ∀ g p, g < maxFileOpen → t.OpenOn g p → p ∈ t.part.openInodes)
    (hbitmap : t.part.inodeBitmap = s.part.inodeBitmap) (hnext : s.next ≤ t.next) :
    TableOk t num where
  bound g p hg := by
    have hlt := (ht.bound g p (hfew p g hg).2).1
    exact ⟨hlt, hheld g p hlt hg⟩
  old p hp := Nat.lt_of_lt_of_le (ht.old p (hlist p hp)) hnext
  inj p q hp hq := ht.inj p q (hlist p hp) (hlist q hq)
  taken p hp := by
    rw [hbitmap]
    exact ht.taken p (hlist p hp)
  bits := by
    rw [hbitmap]
    exact ht.bits
  one g g' p hg hg' := by
    obtain ⟨hsame, hgs⟩ := hfew p g hg
    obtain ⟨hsame', hgs'⟩ := hfew p g' hg'
    rw [hsame, hsame']
    exact ht.one g g' p hgs hgs'

/-- An open inode is still seen right when its entries only go and its count does not
fall. -/
theorem ViewOk.fewer (hv : ViewOk s num) {i j : Inode} (hp : p ∈ s.part.openInodes)
    (hi : s.inodes p = some i) (hfew : Fewer s t p) (hno : j.iNo = i.iNo)
    (hcnt : i.iOpenCnts ≤ j.iOpenCnts) (hdeny : j.writeDeny = i.writeDeny) :
    j.iNo = num p ∧ t.holders p ≤ j.iOpenCnts ∧
      (j.writeDeny = 0 → ∀ g, t.OpenOn g p → ¬(t.fileTable g).Writes) := by
  obtain ⟨hno', hcnt', hclear⟩ := hv.seen p i hp hi
  refine ⟨hno.trans hno', ?_, fun hz g hg => ?_⟩
  · have hmono : t.holders p ≤ s.holders p := holders_mono fun g hg => (hfew g hg).2
    omega
  · obtain ⟨hsame, hgs⟩ := hfew g hg
    rw [hsame]
    exact hclear (hdeny ▸ hz) g hgs

/-- A call that puts no new inode on the heap keeps the rest once its tables are right. -/
theorem Evolves.of_heap (hv : ViewOk s num) (ht : TableOk t num)
    (hseen : ∀ p i, p ∈ t.part.openInodes → t.inodes p = some i → i.iNo = num p ∧
      t.holders p ≤ i.iOpenCnts ∧
        (i.writeDeny = 0 → ∀ g, t.OpenOn g p → ¬(t.fileTable g).Writes))
    (hback : ∀ p i, t.inodes p = some i → ∃ j, s.inodes p = some j) (hnext : s.next ≤ t.next)
    (hlisted : ∀ p, p ∈ t.part.openInodes → p ∈ s.part.openInodes ∨ ∃ j, s.inodes p = some j)
    (hunseen : ∀ g p, s.inodes p = none → t.OpenOn g p → t.fileTable g = s.fileTable g) :
    Evolves s num t num where
  table := ht
  view.old p i hi := by
    obtain ⟨j, hj⟩ := hback p i hi
    exact Nat.lt_of_lt_of_le (hv.old p j hj) hnext
  view.seen := hseen
  num _ _ := rfl
  next := hnext
  listed p hp := (hlisted p hp).imp_right Or.inl
  heap p i hi := Or.inl (hback p i hi)
  unseen g p _ := hunseen g p

/-- `t` is `s` with the inode at `p`, whose number no open inode has, in front of the
open ones. -/
structure Pushed (s : State) (num : Ptr → UInt32) (t : State) (num' : Ptr → UInt32) (p : Ptr) :
    Prop where
  closed : p ∉ s.part.openInodes
  openInodes : t.part.openInodes = p :: s.part.openInodes
  fileTable : t.fileTable = s.fileTable
  inodeBitmap : t.part.inodeBitmap = s.part.inodeBitmap
  next : s.next ≤ t.next
  lt : p.id < t.next
  known : (∃ j, s.inodes p = some j) ∨ s.next ≤ p.id
  inodes : ∀ q, q ≠ p → t.inodes q = s.inodes q
  iNo : ∀ i, t.inodes p = some i → i.iNo = num' p
  same : ∀ q, q.id < s.next → num' q = num q
  bit : s.part.inodeBitmap.bit (num' p).toNat = true
  other : ∀ q, q ∈ s.part.openInodes → num q ≠ num' p

theorem Pushed.cases (h : Pushed s num t num' p) {q : Ptr} (hq : q ∈ t.part.openInodes) :
    q = p ∨ q ≠ p ∧ q ∈ s.part.openInodes := by
  rw [h.openInodes] at hq
  rcases List.mem_cons.mp hq with hq | hq
  · exact Or.inl hq
  · exact Or.inr ⟨fun heq => h.closed (heq ▸ hq), hq⟩

theorem Pushed.table (h : Pushed s num t num' p) (ht : TableOk s num) : TableOk t num' where
  bound g q hg := by
    obtain ⟨hlt, hq⟩ := ht.bound g q (Fewer.of_fileTable h.fileTable q g hg).2
    rw [h.openInodes]
    exact ⟨hlt, List.mem_cons_of_mem p hq⟩
  old q hq := by
    rcases h.cases hq with rfl | ⟨-, hq⟩
    · exact h.lt
    · exact Nat.lt_of_lt_of_le (ht.old q hq) h.next
  inj q r hq hr heq := by
    rcases h.cases hq with rfl | ⟨-, hq⟩
    · rcases h.cases hr with rfl | ⟨-, hr⟩
      · rfl
      · rw [h.same r (ht.old r hr)] at heq
        exact absurd heq.symm (h.other r hr)
    · rw [h.same q (ht.old q hq)] at heq
      rcases h.cases hr with rfl | ⟨-, hr⟩
      · exact absurd heq (h.other q hq)
      · rw [h.same r (ht.old r hr)] at heq
        exact ht.inj q r hq hr heq
  taken q hq := by
    rw [h.inodeBitmap]
    rcases h.cases hq with rfl | ⟨-, hq⟩
    · exact h.bit
    · rw [h.same q (ht.old q hq)]
      exact ht.taken q hq
  bits := by
    rw [h.inodeBitmap]
    exact ht.bits
  one g g' q hg hg' := by
    rw [h.fileTable]
    exact ht.one g g' q (Fewer.of_fileTable h.fileTable q g hg).2
      (Fewer.of_fileTable h.fileTable q g' hg').2

/-- No entry is open on the inode that is pushed. -/
theorem Pushed.unopened (h : Pushed s num t num' p) (ht : TableOk s num) (g : Nat) :
    ¬t.OpenOn g p :=
  fun hg => h.closed (ht.bound g p (Fewer.of_fileTable h.fileTable p g hg).2).2

theorem Pushed.view (h : Pushed s num t num' p) (ht : TableOk s num) (hv : ViewOk s num) :
    ViewOk t num' where
  old q i hi := by
    by_cases hq : q = p
    · rw [hq]
      exact h.lt
    · rw [h.inodes q hq] at hi
      exact Nat.lt_of_lt_of_le (hv.old q i hi) h.next
  seen q i hq hi := by
    rcases h.cases hq with rfl | ⟨hne, hq⟩
    · refine ⟨h.iNo i hi, ?_, fun _ g hg => absurd hg (h.unopened ht g)⟩
      rw [holders_zero (h.unopened ht)]
      exact Nat.zero_le _
    · rw [h.inodes q hne] at hi
      rw [h.same q (ht.old q hq)]
      exact hv.fewer hq hi (Fewer.of_fileTable h.fileTable q) rfl (Nat.le_refl _) rfl

theorem Pushed.evolves (h : Pushed s num t num' p) (ht : TableOk s num) (hv : ViewOk s num) :
    Evolves s num t num' where
  table := h.table ht
  view := h.view ht hv
  num := h.same
  next := h.next
  listed q hq := by
    rcases h.cases hq with rfl | ⟨-, hq⟩
    · exact Or.inr h.known
    · exact Or.inl hq
  heap q i hi := by
    by_cases hq : q = p
    · rw [hq]
      exact h.known
    · rw [h.inodes q hq] at hi
      exact Or.inl ⟨i, hi⟩
  unseen g q _ _ _ := by rw [h.fileTable]

/-- Quiet steps keep everything. -/
theorem Evolves.quiet (ht : TableOk s num) (hv : ViewOk s num) (h : Quiet s t) :
    Evolves s num t num := by
  have hfew := Fewer.of_fileTable h.fileTable
  have hlist : ∀ p, p ∈ t.part.openInodes → p ∈ s.part.openInodes := by
    rw [h.openInodes]
    exact fun _ => id
  have hseen : ∀ p i, t.inodes p = some i → ∃ j, s.inodes p = some j ∧ i.head = j.head := by
    intro p i hi
    cases hs : s.inodes p with
    | none =>
        rw [h.of_none hs] at hi
        cases hi
    | some j =>
        obtain ⟨i', hi', hhead⟩ := h.of_inodes hs
        rw [hi, Option.some.injEq] at hi'
        exact ⟨j, rfl, hi' ▸ hhead⟩
  refine Evolves.of_heap hv (ht.fewer hfew hlist ?_ h.inodeBitmap h.next) ?_ ?_ h.next
    (fun p hp => Or.inl (hlist p hp)) fun g p _ hg => (hfew p g hg).1
  · intro g p _ hg
    rw [h.openInodes]
    exact (ht.bound g p (hfew p g hg).2).2
  · intro p i hp hi
    obtain ⟨j, hj, hhead⟩ := hseen p i hi
    simp only [Inode.head, Prod.mk.injEq] at hhead
    exact hv.fewer (hlist p hp) hj (hfew p) hhead.1 (Nat.le_of_eq hhead.2.1.symm) hhead.2.2
  · intro p i hi
    obtain ⟨j, hj, -⟩ := hseen p i hi
    exact ⟨j, hj⟩

/-! ## Closing -/

/-- When an entry is closed, its inode has no writer left, or `write_deny` was clear. -/
def ClosesRight (s : State) (g : Nat) : Prop :=
  (s.fileTable g).Writes ∨
    ∀ p, (s.fileTable g).fdInode = some p → ∀ i, s.inodes p = some i → i.writeDeny = 0

instance (s : State) (g : Nat) : Decidable (ClosesRight s g) :=
  inferInstanceAs (Decidable (_ ∨ _))

/-- What closing entry `g` leaves of the tables, whether or not the inode `p` goes. -/
theorem Evolves.close {o : Option Inode} {l : List Ptr} (ht : TableOk s num) (hv : ViewOk s num)
    {i : Inode} (hg : s.OpenOn g p) (hi : s.inodes p = some i) (hright : ClosesRight s g)
    (hl : ∀ q, q ∈ l → q ∈ s.part.openInodes) (hl' : ∀ q, q ∈ s.part.openInodes → q ≠ p → q ∈ l)
    (ho : (∃ n, o = some { i with writeDeny := 0, iOpenCnts := n } ∧ n + 1 = i.iOpenCnts ∧ p ∈ l) ∨
      (o = none ∧ i.iOpenCnts = 1)) :
    Evolves s num (({ s with
      inodes := fun q => if q = p then o else s.inodes q
      part := { s.part with openInodes := l } } : State).clearEntry g) num := by
  obtain ⟨hglt, hplist⟩ := ht.bound g p hg
  obtain ⟨hno, hcnt, hdeny⟩ := hv.seen p i hplist hi
  generalize hstate : (({ s with
    inodes := fun q => if q = p then o else s.inodes q
    part := { s.part with openInodes := l } } : State).clearEntry g) = t
  have hopenInodes : t.part.openInodes = l := by rw [← hstate]; rfl
  have hbitmap : t.part.inodeBitmap = s.part.inodeBitmap := by rw [← hstate]; rfl
  have hnext : t.next = s.next := by rw [← hstate]; rfl
  have hinodes : ∀ q, t.inodes q = if q = p then o else s.inodes q := by
    intro q
    rw [← hstate]
    rfl
  have hother : ∀ k, k ≠ g → t.fileTable k = s.fileTable k := by
    intro k hk
    rw [← hstate]
    exact if_neg hk
  have hself : (t.fileTable g).fdInode = none := by
    rw [← hstate]
    show (if g = g then _ else _ : File).fdInode = none
    rw [if_pos rfl]
  have hopen : ∀ k q, t.OpenOn k q → k ≠ g ∧ s.OpenOn k q := by
    intro k q hk
    have hne : k ≠ g := by
      rintro rfl
      rw [State.OpenOn, hself] at hk
      cases hk
    refine ⟨hne, ?_⟩
    rw [State.OpenOn, hother k hne] at hk
    exact hk
  have hfew : ∀ q, Fewer s t q := fun q k hk =>
    ⟨hother k (hopen k q hk).1, (hopen k q hk).2⟩
  have hless : t.holders p + 1 = s.holders p := by
    refine (holders_insert hglt hg (fun h => (hopen g p h).1 rfl) fun k hk => ?_).symm
    unfold State.OpenOn
    rw [hother k hk]
  have hlist : ∀ q, q ∈ t.part.openInodes → q ∈ s.part.openInodes := by
    rw [hopenInodes]
    exact hl
  refine Evolves.of_heap hv (ht.fewer hfew hlist ?_ hbitmap (Nat.le_of_eq hnext.symm)) ?_ ?_
    (Nat.le_of_eq hnext.symm) (fun q hq => Or.inl (hlist q hq)) fun k q _ hk => (hfew q k hk).1
  · intro k q hklt hk
    rw [hopenInodes]
    by_cases hq : q = p
    · rw [hq] at hk ⊢
      rcases ho with ⟨n, -, -, hp⟩ | ⟨-, hone⟩
      · exact hp
      · -- the only holder was entry `g`
        exact absurd hk (not_openOn_of_holders (by omega) hklt)
    · exact hl' q (ht.bound k q (hopen k q hk).2).2 hq
  · intro q j hq hj
    rw [hinodes] at hj
    by_cases hqp : q = p
    · rw [if_pos hqp] at hj
      rcases ho with ⟨n, ho, hn, -⟩ | ⟨ho, -⟩
      · rw [ho, Option.some.injEq] at hj
        rw [hqp, ← hj]
        refine ⟨hno, by show _ ≤ n; omega, fun _ k hk => ?_⟩
        obtain ⟨hne, hks⟩ := hopen k p hk
        rw [hother k hne]
        rcases hright with hw | hz
        · exact fun hw' => hne (ht.one k g p hks hg hw' hw)
        · exact hdeny (hz p hg i hi) k hks
      · rw [ho] at hj
        cases hj
    · rw [if_neg hqp] at hj
      exact hv.fewer (hlist q hq) hj (hfew q) rfl (Nat.le_refl _) rfl
  · intro q j hj
    rw [hinodes] at hj
    by_cases hq : q = p
    · rw [hq]
      exact ⟨i, hi⟩
    · rw [if_neg hq] at hj
      exact ⟨j, hj⟩

theorem fileClose_evolves (ht : TableOk s num) (hv : ViewOk s num) (hright : ClosesRight s g) :
    Ensures (fileClose g) s (fun _ t => ∃ num', Evolves s num t num') := by
  refine fileClose_open fun p i hg hi => ?_
  obtain ⟨hglt, hplist⟩ := ht.bound g p hg
  obtain ⟨-, hcnt, -⟩ := hv.seen p i hplist hi
  have hpos := holders_pos hglt hg
  refine (wp_fileClose hg hi).mpr ⟨fun hne => ⟨num, ?_⟩, fun hone => ⟨fun _ => ⟨num, ?_⟩, ?_⟩⟩
  · have hdec : decOpenCnts i.iOpenCnts + 1 = i.iOpenCnts := by
      unfold decOpenCnts
      rw [if_neg (by omega)]
      omega
    exact Evolves.close ht hv hg hi hright (fun _ => id) (fun _ h _ => h)
      (Or.inl ⟨_, rfl, hdec, hplist⟩)
  · exact Evolves.close ht hv hg hi hright (fun _ h => List.mem_of_mem_erase h)
      (fun _ h hne => (List.mem_erase_of_ne hne).mpr h) (Or.inr ⟨rfl, hone⟩)
  · exact fun _ => True.intro

/-! ## Opening -/

/-- A file that is opened exists: its bit is set, and what `inode_open` finds has its
number.  Nobody writes a file that is opened for writing. -/
def OpensRight (s : State) (n : UInt32) (flag : UInt8) : Prop :=
  s.part.inodeBitmap.bit n.toNat = true ∧
    ∀ i, s.inodeNamed n = some i → i.iNo = n ∧ (Writes flag → i.writeDeny = 0)

instance (s : State) (n : UInt32) (flag : UInt8) : Decidable (OpensRight s n flag) :=
  inferInstanceAs (Decidable (_ ∧ _))

theorem Evolves.reopen (ht : TableOk s num) (hv : ViewOk s num) {i : Inode}
    (hi : s.inodes p = some i) : Evolves s num (s.reopened p i) num := by
  have hinodes : ∀ q j, (s.reopened p i).inodes q = some j → ∃ j', s.inodes q = some j' ∧
      j.iNo = j'.iNo ∧ j'.iOpenCnts ≤ j.iOpenCnts ∧ j.writeDeny = j'.writeDeny := by
    intro q j hj
    by_cases hq : q = p
    · rw [hq, State.reopened, State.putInode_same, Option.some.injEq] at hj
      rw [hq, ← hj]
      exact ⟨i, hi, rfl, Nat.le_succ _, rfl⟩
    · rw [State.reopened, State.putInode_other _ _ hq] at hj
      exact ⟨j, hj, rfl, Nat.le_refl _, rfl⟩
  refine Evolves.of_heap hv ⟨ht.bound, ht.old, ht.inj, ht.taken, ht.bits, ht.one⟩ ?_ ?_
    (Nat.le_refl _) (fun _ => Or.inl) fun _ _ _ _ => rfl
  · intro q j hq hj
    obtain ⟨j', hj', hno, hcnt, hdeny⟩ := hinodes q j hj
    exact hv.fewer hq hj' (Fewer.of_fileTable rfl q) hno hcnt hdeny
  · intro q j hj
    obtain ⟨j', hj', -⟩ := hinodes q j hj
    exact ⟨j', hj'⟩

theorem Evolves.load (ht : TableOk s num) (hv : ViewOk s num) {n : UInt32}
    (hbit : s.part.inodeBitmap.bit n.toNat = true) (hno : (readSlot s.part s.disk n).iNo = n)
    (hother : ∀ p, p ∈ s.part.openInodes → num p ≠ n) :
    Evolves s num (s.loaded n) (fun q => if q = ⟨false, s.next⟩ then n else num q) := by
  have hold : ∀ q, q ∈ s.part.openInodes → q ≠ ⟨false, s.next⟩ := by
    rintro q hq rfl
    exact Nat.lt_irrefl _ (ht.old _ hq)
  have hpushed : Pushed s num (s.loaded n) (fun q => if q = ⟨false, s.next⟩ then n else num q)
      ⟨false, s.next⟩ := by
    refine ⟨fun hq => hold _ hq rfl, rfl, rfl, rfl, Nat.le_add_right _ _, ?_, Or.inr (Nat.le_refl _),
      fun q hq => if_neg hq, fun i hi => ?_, fun q hq => if_neg ?_, ?_, fun q hq => ?_⟩
    · show s.next < s.next + 2
      omega
    · rw [← Option.some.inj ((if_pos rfl).symm.trans hi), if_pos rfl]
      exact hno
    · rintro rfl
      exact Nat.lt_irrefl s.next hq
    · rw [if_pos rfl]
      exact hbit
    · rw [if_pos rfl]
      exact hother q hq
  exact hpushed.evolves ht hv

/-- The inode at `p` is open with a count that has room for one more entry. -/
def Ready (s : State) (p : Ptr) (i : Inode) : Prop :=
  p ∈ s.part.openInodes ∧ s.inodes p = some i ∧ s.holders p + 1 ≤ i.iOpenCnts

theorem inodeOpen_evolves (ht : TableOk s num) (hv : ViewOk s num) {n : UInt32} {flag : UInt8}
    (hright : OpensRight s n flag) :
    Ensures (inodeOpen n) s (fun p t => t.fileTable = s.fileTable ∧
      ∃ num' i, Evolves s num t num' ∧ Ready t p i ∧ (Writes flag → i.writeDeny = 0)) := by
  obtain ⟨hbit, hnamed⟩ := hright
  refine wp_inodeOpen.mpr ⟨fun p i hfirst hi => ?_, fun hfirst => ?_, fun _ _ => True.intro⟩
  · obtain ⟨hp, -, -⟩ := firstOpen_some hfirst
    obtain ⟨-, hcnt, -⟩ := hv.seen p i hp hi
    obtain ⟨-, hdeny⟩ := hnamed i (by rw [State.inodeNamed, hfirst]; exact hi)
    exact ⟨rfl, num, _, Evolves.reopen ht hv hi, ⟨hp, State.putInode_same .., Nat.succ_le_succ hcnt⟩,
      hdeny⟩
  · obtain ⟨hno, hdeny⟩ := hnamed (readSlot s.part s.disk n) (by rw [State.inodeNamed, hfirst])
    have hother : ∀ p, p ∈ s.part.openInodes → num p ≠ n := by
      intro p hp
      obtain ⟨i, hi, hne⟩ := firstOpen_none hfirst p hp
      rwa [← (hv.seen p i hp hi).1]
    have hnone : (s.loaded n).holders ⟨false, s.next⟩ = 0 :=
      holders_zero fun g hg => Nat.lt_irrefl s.next (ht.old _ (ht.bound g _ hg).2)
    refine wp_inodeRead.mpr ⟨fun _ => ⟨fun _ => ⟨fun _ => ⟨fun _ => ?_, ?_⟩, ?_⟩, ?_⟩, ?_⟩
    · refine ⟨rfl, _, { readSlot s.part s.disk n with iOpenCnts := 1 },
        Evolves.load ht hv hbit hno hother, ⟨List.mem_cons_self, if_pos rfl, ?_⟩, hdeny⟩
      exact Nat.succ_le_succ (Nat.le_of_eq hnone)
    all_goals exact fun _ => True.intro

/-- A free entry is opened on an inode that is ready; a writer sets `write_deny`. -/
theorem Evolves.install (ht : TableOk s num) (hv : ViewOk s num) {i : Inode} {flag : UInt8}
    (hg : g < maxFileOpen) (hfree : (s.fileTable g).fdInode = none) (hready : Ready s p i)
    (hdeny : Writes flag → i.writeDeny = 0) (w : UInt32) (hw : Writes flag → w ≠ 0)
    (hw' : ¬Writes flag → w = i.writeDeny) :
    Evolves s num ((s.setFile g ⟨0, flag.toUInt32, some p⟩).putInode p
      (some { i with writeDeny := w })) num := by
  obtain ⟨hp, hi, hcnt⟩ := hready
  generalize hstate : (s.setFile g ⟨0, flag.toUInt32, some p⟩).putInode p
    (some { i with writeDeny := w }) = t
  have hpart : t.part = s.part := by rw [← hstate]; rfl
  have hnext : t.next = s.next := by rw [← hstate]; rfl
  have hinodes : ∀ q, t.inodes q = if q = p then some { i with writeDeny := w }
      else s.inodes q := by
    intro q
    rw [← hstate]
    rfl
  have hother : ∀ k, k ≠ g → t.fileTable k = s.fileTable k := by
    intro k hk
    rw [← hstate]
    exact if_neg hk
  have hself : t.fileTable g = ⟨0, flag.toUInt32, some p⟩ := by
    rw [← hstate]
    exact if_pos rfl
  have hfree' : ∀ q, ¬s.OpenOn g q := by
    intro q hq
    rw [State.OpenOn, hfree] at hq
    cases hq
  have hopen : ∀ k q, t.OpenOn k q → k = g ∧ q = p ∨ k ≠ g ∧ s.OpenOn k q := by
    intro k q hk
    by_cases hkg : k = g
    · rw [State.OpenOn, hkg, hself, Option.some.injEq] at hk
      exact Or.inl ⟨hkg, hk.symm⟩
    · rw [State.OpenOn, hother k hkg] at hk
      exact Or.inr ⟨hkg, hk⟩
  have hmore : t.holders p = s.holders p + 1 := by
    refine holders_insert hg ?_ (hfree' p) fun k hk => ?_
    · rw [State.OpenOn, hself]
    · unfold State.OpenOn
      rw [hother k hk]
  obtain ⟨hno, -, hclear⟩ := hv.seen p i hp hi
  refine Evolves.of_heap hv ⟨?_, ?_, ?_, ?_, ?_, ?_⟩ ?_ ?_ (Nat.le_of_eq hnext.symm) ?_ ?_
  · intro k q hk
    rw [hpart]
    rcases hopen k q hk with ⟨rfl, rfl⟩ | ⟨-, hks⟩
    · exact ⟨hg, hp⟩
    · exact ht.bound k q hks
  · rw [hpart, hnext]
    exact ht.old
  · rw [hpart]
    exact ht.inj
  · rw [hpart]
    exact ht.taken
  · rw [hpart]
    exact ht.bits
  · -- the new entry is the only one that writes, or it does not write
    have hone : ∀ k, k ≠ g → s.OpenOn k p → (s.fileTable k).Writes →
        ¬(t.fileTable g).Writes := by
      intro k _ hk hkw hgw
      rw [hself, newFile_writes] at hgw
      exact hclear (hdeny hgw) k hk hkw
    intro k k' q hk hk' hkw hkw'
    rcases hopen k q hk with ⟨rfl, rfl⟩ | ⟨hne, hks⟩
    · rcases hopen k' q hk' with ⟨rfl, -⟩ | ⟨hne', hks'⟩
      · rfl
      · rw [hother k' hne'] at hkw'
        exact absurd hkw (hone k' hne' hks' hkw')
    · rw [hother k hne] at hkw
      rcases hopen k' q hk' with ⟨rfl, rfl⟩ | ⟨hne', hks'⟩
      · exact absurd hkw' (hone k hne hks hkw)
      · rw [hother k' hne'] at hkw'
        exact ht.one k k' q hks hks' hkw hkw'
  · intro q j hq hj
    rw [hpart] at hq
    rw [hinodes] at hj
    by_cases hqp : q = p
    · rw [if_pos hqp, Option.some.injEq] at hj
      rw [hqp, ← hj, hmore]
      refine ⟨hno, hcnt, fun hz k hk => ?_⟩
      have hflag : ¬Writes flag := fun hf => hw hf hz
      rcases hopen k p hk with ⟨rfl, -⟩ | ⟨hne, hks⟩
      · rwa [hself, newFile_writes]
      · rw [hother k hne]
        exact hclear ((hw' hflag).symm.trans hz) k hks
    · rw [if_neg hqp] at hj
      have hfew : Fewer s t q := by
        intro k hk
        rcases hopen k q hk with ⟨-, h⟩ | ⟨hne, hks⟩
        · exact absurd h hqp
        · exact ⟨hother k hne, hks⟩
      exact hv.fewer hq hj hfew rfl (Nat.le_refl _) rfl
  · intro q j hj
    rw [hinodes] at hj
    by_cases hq : q = p
    · rw [hq]
      exact ⟨i, hi⟩
    · rw [if_neg hq] at hj
      exact ⟨j, hj⟩
  · rw [hpart]
    exact fun q => Or.inl
  · intro k q hnone hk
    rcases hopen k q hk with ⟨-, rfl⟩ | ⟨hne, -⟩
    · rw [hi] at hnone
      cases hnone
    · exact hother k hne

theorem Evolves.refl (ht : TableOk s num) (hv : ViewOk s num) : Evolves s num s num :=
  Evolves.quiet ht hv (refl_of Quiet s)

theorem pcbFdInstall_evolves {v : Int} (h : Evolves s num t num') :
    Ensures (pcbFdInstall v) t (fun _ u => ∃ num', Evolves s num u num') :=
  wp_pcbFdInstall ⟨num', h⟩ fun _ _ _ _ =>
    ⟨num', ⟨h.table.bound, h.table.old, h.table.inj, h.table.taken, h.table.bits, h.table.one⟩,
      ⟨h.view.old, h.view.seen⟩, h.num, h.next, h.listed, h.heap, h.unseen⟩

theorem fileOpen_evolves (ht : TableOk s num) (hv : ViewOk s num) {n : UInt32} {flag : UInt8}
    (hright : OpensRight s n flag) :
    Ensures (fileOpen n flag) s (fun _ t => ∃ num', Evolves s num t num') := by
  unfold fileOpen fileOpenAt
  rw [Ensures, Wp.bind]
  refine ensures_getFreeSlot ?_ fun g _ hg hfree => ?_
  · rw [if_pos rfl, Wp.pure]
    exact ⟨num, Evolves.refl ht hv⟩
  · rw [if_neg (by omega), Wp.bind]
    refine (inodeOpen_evolves ht hv hright).call fun p u hu => ?_
    obtain ⟨hsame, num', i, hevol, hready, hdeny⟩ := hu
    have hfree' : (u.fileTable g).fdInode = none := by rw [hsame, hfree]
    have hinstall := fun w => Evolves.install (w := w) hevol.table hevol.view hg hfree' hready hdeny
    have hi : (u.setFile g ⟨0, flag.toUInt32, some p⟩).inodes p = some i := hready.2.1
    rw [Wp.bind, Wp.modify, Int.toNat_natCast, Wp.ite]
    refine ⟨fun hflag => ?_, fun hflag => ?_⟩
    · rw [Wp.bind, wp_loadInode_some hi, if_pos (hdeny hflag), Wp.bind, wp_storeInode_some hi]
      exact pcbFdInstall_evolves
        (hevol.trans (hinstall 1 (fun _ => by decide) fun h => absurd hflag h))
    · have hkeep := hinstall i.writeDeny (fun h => absurd h hflag) fun _ => rfl
      rw [State.putInode_self hi] at hkeep
      exact pcbFdInstall_evolves (hevol.trans hkeep)

/-! ## Creating -/

/-- A bit of the inode bitmap is set, or one that no open inode has is cleared. -/
theorem Evolves.setBit (ht : TableOk s num) (hv : ViewOk s num) (i : Nat) (v : Bool)
    (h : v = true ∨ ∀ q, q ∈ s.part.openInodes → (num q).toNat ≠ i) :
    Evolves s num (s.setInodeBitmap (s.part.inodeBitmap.set i v)) num := by
  refine ⟨⟨ht.bound, ht.old, ht.inj, ?_, ht.bits, ht.one⟩, ⟨hv.old, hv.seen⟩, fun _ _ => rfl,
    Nat.le_refl _, fun _ => Or.inl, fun _ j hj => Or.inl ⟨j, hj⟩, fun _ _ _ _ _ => rfl⟩
  intro q hq
  show (s.part.inodeBitmap.set i v).bit (num q).toNat = true
  rw [Bitmap.bit_set]
  by_cases hi : (num q).toNat = i
  · rcases h with hv' | hne
    · rw [if_pos hi, hv']
    · exact absurd hi (hne q hq)
  · rw [if_neg hi]
    exact ht.taken q hq

/-- A new block of the heap becomes an inode that is not open. -/
theorem Evolves.newInode (ht : TableOk s num) (hv : ViewOk s num) (n : UInt32) (j : Inode) :
    Evolves s num (s.grant.putInode s.fresh (some j))
      (fun q => if q = s.fresh then n else num q) := by
  have hfresh : ∀ q, q ∈ s.part.openInodes → q ≠ s.fresh := by
    rintro q hq rfl
    exact Nat.lt_irrefl _ (ht.old _ hq)
  refine ⟨⟨ht.bound, ?_, ?_, ?_, ht.bits, ht.one⟩, ⟨?_, ?_⟩, ?_, Nat.le_succ _, fun _ => Or.inl,
    ?_, fun _ _ _ _ _ => rfl⟩
  · exact fun q hq => Nat.lt_succ_of_lt (ht.old q hq)
  · intro q r hq hr heq
    rw [if_neg (hfresh q hq), if_neg (hfresh r hr)] at heq
    exact ht.inj q r hq hr heq
  · intro q hq
    rw [if_neg (hfresh q hq)]
    exact ht.taken q hq
  · intro q i hi
    by_cases hq : q = s.fresh
    · rw [hq]
      exact Nat.lt_succ_self _
    · exact Nat.lt_succ_of_lt (hv.old q i ((State.putInode_other _ _ hq).symm.trans hi))
  · intro q i hq hi
    rw [if_neg (hfresh q hq)]
    exact hv.seen q i hq ((State.putInode_other _ _ (hfresh q hq)).symm.trans hi)
  · exact fun q hq => if_neg fun h => Nat.lt_irrefl s.next (by rw [h] at hq; exact hq)
  · intro q i hi
    by_cases hq : q = s.fresh
    · rw [hq]
      exact Or.inr (Nat.le_refl _)
    · exact Or.inl ⟨i, (State.putInode_other _ _ hq).symm.trans hi⟩

/-- An inode that is not open changes or goes. -/
theorem Evolves.putClosed (ht : TableOk s num) (hv : ViewOk s num) {j : Inode}
    (hp : p ∉ s.part.openInodes) (hj : s.inodes p = some j) (o : Option Inode) :
    Evolves s num (s.putInode p o) num := by
  have hne : ∀ q, q ∈ s.part.openInodes → q ≠ p := fun q hq h => hp (h ▸ hq)
  have hback : ∀ q i, (s.putInode p o).inodes q = some i → ∃ j, s.inodes q = some j := by
    intro q i hi
    by_cases hq : q = p
    · rw [hq]
      exact ⟨j, hj⟩
    · exact ⟨i, (State.putInode_other _ _ hq).symm.trans hi⟩
  refine Evolves.of_heap hv ⟨ht.bound, ht.old, ht.inj, ht.taken, ht.bits, ht.one⟩ ?_ hback
    (Nat.le_refl _) (fun _ => Or.inl) fun _ _ _ _ => rfl
  intro q i hq hi
  exact hv.seen q i hq ((State.putInode_other _ _ (hne q hq)).symm.trans hi)

/-- An entry is set to zero. -/
theorem Evolves.zeroEntry (ht : TableOk s num) (hv : ViewOk s num) (g : Nat) :
    Evolves s num (s.setFile g ⟨0, 0, none⟩) num := by
  have hfew : ∀ q, Fewer s (s.setFile g ⟨0, 0, none⟩) q := by
    intro q k hk
    by_cases hkg : k = g
    · rw [State.OpenOn, hkg, State.setFile_fileTable_same] at hk
      cases hk
    · have hsame := State.setFile_fileTable_other s ⟨0, 0, none⟩ hkg
      rw [State.OpenOn, hsame] at hk
      exact ⟨hsame, hk⟩
  have hheld : ∀ k q, k < maxFileOpen → (s.setFile g ⟨0, 0, none⟩).OpenOn k q →
      q ∈ s.part.openInodes := fun k q _ hk => (ht.bound k q (hfew q k hk).2).2
  exact Evolves.of_heap hv (ht.fewer hfew (fun _ => id) hheld rfl (Nat.le_refl _))
    (fun q i hq hi => hv.fewer hq hi (hfew q) rfl (Nat.le_refl _) rfl) (fun _ j hj => ⟨j, hj⟩)
    (Nat.le_refl _) (fun _ => Or.inl) fun k q _ hk => (hfew q k hk).1

/-- An inode that was not open is pushed to the open ones with count 1. -/
theorem Evolves.push (ht : TableOk s num) (hv : ViewOk s num) {j : Inode}
    (hp : p ∉ s.part.openInodes) (hj : s.inodes p = some j) (hno : j.iNo = num p)
    (hbit : s.part.inodeBitmap.bit (num p).toNat = true)
    (hother : ∀ q, q ∈ s.part.openInodes → num q ≠ num p) :
    Evolves s num ((s.pushOpen p).putInode p (some { j with iOpenCnts := 1 })) num := by
  have hpushed : Pushed s num ((s.pushOpen p).putInode p (some { j with iOpenCnts := 1 })) num p := by
    refine ⟨hp, rfl, rfl, rfl, Nat.le_refl _, hv.old p j hj, Or.inl ⟨j, hj⟩,
      fun q hq => State.putInode_other _ _ hq, fun i hi => ?_, fun _ _ => rfl, hbit, hother⟩
    rw [State.putInode_same, Option.some.injEq] at hi
    rw [← hi]
    exact hno
  exact hpushed.evolves ht hv

/-- The inode at `p` is new: it has number `n`, whose bit is set, and it is not open. -/
structure Pending (s : State) (num : Ptr → UInt32) (p : Ptr) (n : UInt32) : Prop where
  closed : p ∉ s.part.openInodes
  seen : ∃ j, s.inodes p = some j ∧ j.iNo = n
  number : num p = n
  bit : s.part.inodeBitmap.bit n.toNat = true
  other : ∀ q, q ∈ s.part.openInodes → num q ≠ n

theorem createRollback1_evolves (h : Evolves s num t num') {n : UInt32} {ioBuf : Ptr}
    (hother : ∀ q, q ∈ t.part.openInodes → num' q ≠ n) :
    Ensures (createRollback1 n ioBuf) t (fun _ u => ∃ num', Evolves s num u num') := by
  unfold createRollback1
  rw [Ensures, Wp.bind, wp_inodeBitmapClear]
  refine ⟨fun _ => ?_, fun _ => True.intro⟩
  have hclear := h.trans (Evolves.setBit h.table h.view n.toNat false
    (Or.inr fun q hq heq => hother q hq (UInt32.toNat_inj.mp heq)))
  rw [Wp.bind]
  refine (sysFreeBuf_quiet ioBuf _).call fun _ u hu => ?_
  exact ⟨num', hclear.trans (Evolves.quiet hclear.table hclear.view hu)⟩

theorem createRollback2_evolves (h : Evolves s num t num') {n : UInt32} {ioBuf : Ptr}
    (hp : Pending t num' p n) :
    Ensures (createRollback2 p n ioBuf) t (fun _ u => ∃ num', Evolves s num u num') := by
  obtain ⟨j, hj, -⟩ := hp.seen
  unfold createRollback2
  rw [Ensures, Wp.bind, sysFreeInode, wp_sysFree]
  refine ⟨fun _ _ => ?_, fun _ _ => True.intro, fun _ _ => True.intro, fun _ _ => True.intro⟩
  exact createRollback1_evolves
    (h.trans (Evolves.putClosed h.table h.view hp.closed hj none)) hp.other

theorem createRollback3_evolves {f : File} (h : Evolves s num t num') {n : UInt32} {ioBuf : Ptr}
    (hp : Pending t num' p n) (hq : Quiet (t.setFile g f) u) :
    Ensures (createRollback3 g p n ioBuf) u (fun _ v => ∃ num', Evolves s num v num') := by
  unfold createRollback3
  rw [Ensures, Wp.bind, Wp.modify]
  have hzero := h.trans (Evolves.zeroEntry h.table h.view g)
  have hq' : Quiet (t.setFile g ⟨0, 0, none⟩) (u.setFile g ⟨0, 0, none⟩) := hq.setFile
  refine createRollback2_evolves (hzero.trans (Evolves.quiet hzero.table hzero.view hq')) ?_
  obtain ⟨j, hj, hno⟩ := hp.seen
  obtain ⟨j', hj', hhead⟩ := hq'.of_inodes (p := p) hj
  simp only [Inode.head, Prod.mk.injEq] at hhead
  refine ⟨?_, ⟨j', hj', hhead.1.trans hno⟩, hp.number, ?_, ?_⟩
  · rw [hq'.openInodes]
    exact hp.closed
  · rw [hq'.inodeBitmap]
    exact hp.bit
  · rw [hq'.openInodes]
    exact hp.other

/-- The new file is open in a free entry. -/
theorem Evolves.created {flag : UInt8} {n : UInt32} {j : Inode} (h : Evolves s num t num')
    (hp : Pending t num' p n) (hg : g < maxFileOpen) (hfree : (t.fileTable g).fdInode = none)
    (hflag : ¬Writes flag) (hq : Quiet (t.setFile g ⟨0, flag.toUInt32, some p⟩) u)
    (hj : u.inodes p = some j) :
    Evolves s num ((u.pushOpen p).putInode p (some { j with iOpenCnts := 1 })) num' := by
  obtain ⟨i, hi, hno⟩ := hp.seen
  have hpush := Evolves.push h.table h.view hp.closed hi (hno.trans hp.number.symm)
    (by rw [hp.number]; exact hp.bit) (by rw [hp.number]; exact hp.other)
  have hnone : ((t.pushOpen p).putInode p (some { i with iOpenCnts := 1 })).holders p = 0 :=
    holders_zero fun k hk => hp.closed (h.table.bound k p hk).2
  have hready : Ready ((t.pushOpen p).putInode p (some { i with iOpenCnts := 1 })) p
      { i with iOpenCnts := 1 } := by
    refine ⟨List.mem_cons_self, State.putInode_same .., ?_⟩
    exact Nat.succ_le_succ (Nat.le_of_eq hnone)
  have hinstall := Evolves.install (w := i.writeDeny) hpush.table hpush.view hg hfree hready
    (fun hf => absurd hf hflag) (fun hf => absurd hf hflag) (fun _ => rfl)
  refine h.trans (hpush.trans (hinstall.trans (Evolves.quiet hinstall.table hinstall.view ?_)))
  have hhead := hq.heads p
  have hi' : (t.setFile g ⟨0, flag.toUInt32, some p⟩).inodes p = some i := hi
  rw [hj, hi', Option.map_some, Option.map_some, Option.some.injEq] at hhead
  simp only [Inode.head, Prod.mk.injEq] at hhead
  refine ⟨hq.fileTable, hq.cur, hq.rootDir, hq.dirs, congrArg (p :: ·) hq.openInodes,
    hq.inodeBitmap, hq.next, fun q => ?_⟩
  by_cases hqp : q = p
  · rw [hqp, State.putInode_same, State.putInode_same]
    simp [Inode.head, hhead.1, hhead.2.2]
  · rw [State.putInode_other _ _ hqp, State.putInode_other _ _ hqp]
    exact (hq.heads q).trans (congrArg _ (State.putInode_other _ _ hqp).symm)

theorem fileInstall_evolves {flag : UInt8} {n : UInt32} {parentDir : DirPtr} {filename : Str}
    {ioBuf : Ptr} (h : Evolves s num t num') (hp : Pending t num' p n) (hg : g < maxFileOpen)
    (hfree : (t.fileTable g).fdInode = none) (hflag : ¬Writes flag) :
    Ensures (fileInstall parentDir filename p n g ioBuf)
      (t.setFile g ⟨0, flag.toUInt32, some p⟩) (fun _ u => ∃ num', Evolves s num u num') := by
  refine fileInstall_rule (fun _ _ _ hq => createRollback3_evolves h hp hq) fun u j v hq hj hv => ?_
  have hdone := h.created hp hg hfree hflag hq hj
  exact pcbFdInstall_evolves (hdone.trans (Evolves.quiet hdone.table hdone.view hv))

/-- The inode of a new file, with number `n` taken. -/
theorem pending_newInode {n : UInt32} (h : Evolves s num t num')
    (hbit : t.part.inodeBitmap.bit n.toNat = true)
    (hother : ∀ q, q ∈ t.part.openInodes → num' q ≠ n) :
    ∃ num'', Evolves s num (t.newInode n) num'' ∧ Pending (t.newInode n) num'' t.fresh n := by
  have hnew := h.trans (Evolves.newInode h.table h.view n (inodeInit n .zero))
  have hclosed : t.fresh ∉ t.part.openInodes :=
    fun hp => Nat.lt_irrefl t.next (h.table.old _ hp)
  refine ⟨_, hnew, hclosed, ⟨_, State.putInode_same .., rfl⟩, if_pos rfl, hbit, fun q hq => ?_⟩
  have hne : q ≠ t.fresh := fun heq => hclosed (heq ▸ hq)
  rw [if_neg hne]
  exact hother q hq

theorem fileCreate_evolves (ht : TableOk s num) (hv : ViewOk s num) {parentDir : DirPtr}
    {filename : Str} {flag : UInt8} (hflag : ¬Writes flag) :
    Ensures (fileCreate parentDir filename flag) s (fun _ t => ∃ num', Evolves s num t num') := by
  refine fileCreate_rule (fun t hq => ⟨num, Evolves.quiet ht hv hq⟩) fun t b ioBuf hq hb => ?_
  have hquiet := Evolves.quiet ht hv hq
  have hlt : b < 2 ^ 32 := Nat.lt_of_lt_of_le hb.1 hquiet.table.bits
  have hnat : (UInt32.ofNat b).toNat = b := by
    rw [UInt32.toNat_ofNat']
    exact Nat.mod_eq_of_lt hlt
  have htaken : Evolves s num (t.takeInodeNo b) num :=
    hquiet.trans (Evolves.setBit hquiet.table hquiet.view b true (Or.inl rfl))
  have hother : ∀ q, q ∈ (t.takeInodeNo b).part.openInodes → num q ≠ UInt32.ofNat b := by
    intro q hq' heq
    have hbit := hquiet.table.taken q hq'
    rw [heq, hnat, hb.2.1] at hbit
    exact Bool.false_ne_true hbit
  have hbit : (t.takeInodeNo b).part.inodeBitmap.bit (UInt32.ofNat b).toNat = true := by
    rw [hnat]
    exact (Bitmap.bit_set ..).trans (if_pos rfl)
  have hrefuse : Quiet (t.takeInodeNo b) (t.takeInodeNo b).refuse :=
    ⟨rfl, rfl, rfl, rfl, rfl, rfl, Nat.le_refl _, fun _ => rfl⟩
  obtain ⟨num'', hnew, hpending⟩ := pending_newInode htaken hbit hother
  exact ⟨⟨num, htaken⟩,
    createRollback1_evolves (htaken.trans (Evolves.quiet htaken.table htaken.view hrefuse)) hother,
    createRollback2_evolves hnew hpending, fun g hg hfree =>
      fileInstall_evolves hnew hpending hg hfree hflag⟩

end

end OsTruth
