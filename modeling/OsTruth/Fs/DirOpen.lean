/-
Opening and closing one directory after the other.

At every moment of a search one directory is open.  `At` says which, and that closing it
gives back the state in which the search began, up to the memory that was asked for; so
each round of the search starts afresh.
-/
import OsTruth.Fs.Lookup

namespace OsTruth

open ByteString Fallible

/-- A mounted partition whose root directory is open.  Addresses from `next` on were
never handed out, and who is in the list of open inodes is open. -/
structure State.Searchable (s : State) : Prop where
  mounted : s.part.Mounted
  fresh : ∀ p, s.next ≤ p.id → s.inodes p = none ∧ s.dirs p = none
  opened : ∀ p, p ∈ s.part.openInodes → ∃ i, s.inodes p = some i ∧ i.iOpenCnts ≠ 0
  root : ∃ p, s.rootDir.inode = some p ∧
    firstOpen s.inodes 0 s.part.openInodes = .ok (some p)

/-- How many requests for memory `dir_open` makes. -/
def State.requests (s : State) (n : UInt32) : Nat :=
  match firstOpen s.inodes n s.part.openInodes with
  | .ok (some _) => 1
  | _ => 3

def State.Granted (s : State) (j m : Nat) : Prop := ∀ k, k < m → s.supply (j + k) = true

/-- After `r` requests the search of `s` has the directory `n` open as `d`. -/
structure State.At (s : State) (r : Nat) (n : UInt32) (d : DirPtr) (t : State) : Prop where
  inode : ∃ p i j, t.inodeOf d = some p ∧ t.inodes p = some i ∧ s.inodeNamed n = some j ∧
    i.iNo = j.iNo ∧ i.iSectors = j.iSectors
  disk : t.disk = s.disk
  mounted : t.part.Mounted
  supply : ∀ m, t.supply m = s.supply (r + m)
  next : s.next ≤ t.next
  close : ∀ j k, t.next ≤ k → ∀ (F : Fault → Prop) (Q : Unit → State → Prop),
    Wp (dirClose d) (t.after j k) F Q ↔ Q () (s.after (r + j) k)

section

variable {s t : State} {n : UInt32} {r : Nat} {d : DirPtr} {F : Fault → Prop}

theorem State.Searchable.after (hs : s.Searchable) (j : Nat) {k : Nat} (hk : s.next ≤ k) :
    (s.after j k).Searchable :=
  ⟨hs.mounted, fun p hp => hs.fresh p (Nat.le_trans hk hp), hs.opened, hs.root⟩

theorem State.At.after (h : s.At r n d t) (j : Nat) {k : Nat} (hk : t.next ≤ k) :
    s.At (r + j) n d (t.after j k) where
  inode := h.inode
  disk := h.disk
  mounted := h.mounted
  supply m := by
    show t.supply (m + j) = _
    rw [h.supply, Nat.add_assoc, Nat.add_comm m j]
  next := Nat.le_trans h.next hk
  close j' k' hk' F Q := by
    rw [State.after_after, h.close _ _ (Nat.le_trans hk hk'), Nat.add_assoc]

theorem State.At.of_after {j k : Nat} (hk : s.next ≤ k) (h : (s.after j k).At r n d t) :
    s.At (j + r) n d t where
  inode := h.inode
  disk := h.disk
  mounted := h.mounted
  supply m := by
    rw [h.supply]
    show s.supply (r + m + j) = _
    rw [Nat.add_comm (r + m) j, Nat.add_assoc]
  next := Nat.le_trans hk h.next
  close j' k' hk' F Q := by
    rw [h.close _ _ hk', State.after_after, Nat.add_assoc]

/-- Closing at once. -/
theorem State.At.close_now (h : s.At r n d t) {Q : Unit → State → Prop} :
    Wp (dirClose d) t F Q ↔ Q () (s.after r t.next) :=
  h.close 0 t.next (Nat.le_refl _) F Q

/-- The root directory is open from the beginning, and closing it does nothing. -/
theorem State.Searchable.at_root (hs : s.Searchable) : s.At 0 0 .root s where
  inode := by
    obtain ⟨p, hp, hfirst⟩ := hs.root
    obtain ⟨hmem, i, hi, -⟩ := firstOpen_some hfirst
    refine ⟨p, i, i, hp, hi, ?_, rfl, rfl⟩
    rw [State.inodeNamed, hfirst]
    exact hi
  disk := rfl
  mounted := hs.mounted
  supply m := by rw [Nat.zero_add]
  next := Nat.le_refl _
  close j k _ F Q := by
    rw [Nat.zero_add]
    exact Wp.pure

/-- The new `struct dir` is freed in the heap it came from. -/
theorem wp_sysFreeDir_own {q : Ptr} {e : Dir} {Q : Unit → State → Prop} (hq : s.dirs q = some e)
    (huser : q.user = s.cur.pgdir) : Wp (sysFreeDir q) s F Q ↔ Q () (s.putDir q none) := by
  rw [wp_sysFreeDir hq, huser]
  cases s.cur.pgdir with
  | true => simp
  | false => simp

/-- A state that went back to `s`. -/
theorem State.eq_after {u : State} {j k : Nat} (hpart : u.part = s.part)
    (hinodes : ∀ q, u.inodes q = s.inodes q) (hdirs : ∀ q, u.dirs q = s.dirs q)
    (hrest : u = { (s.after r s.next).after j k with
      part := u.part, inodes := u.inodes, dirs := u.dirs }) : u = s.after (r + j) k := by
  rw [← State.after_after s r s.next, hrest, hpart, funext hinodes, funext hdirs]
  rfl

/-- The directory of an inode that is open already. -/
theorem State.Searchable.at_again (hs : s.Searchable) {p : Ptr} {i : Inode}
    (hfirst : firstOpen s.inodes n s.part.openInodes = .ok (some p)) (hi : s.inodes p = some i) :
    s.At 1 n (.heap s.fresh) ((s.newDir.reopened p i).setDir s.fresh p) where
  inode := by
    refine ⟨p, _, i, ?_, if_pos rfl, ?_, rfl, rfl⟩
    · show Option.bind (if s.fresh = s.fresh then _ else _) _ = _
      rw [if_pos rfl]
      rfl
    · rw [State.inodeNamed, hfirst]
      exact hi
  disk := rfl
  mounted := hs.mounted
  supply m := by
    rw [Nat.add_comm]
    rfl
  next := Nat.le_succ _
  close j k _ F Q := by
    have hcnt : i.iOpenCnts ≠ 0 := by
      obtain ⟨i', hi', hcnt⟩ := hs.opened p (firstOpen_some hfirst).1
      rw [hi, Option.some.injEq] at hi'
      rwa [hi']
    have hone : i.iOpenCnts + 1 ≠ 1 := fun h => hcnt (Nat.succ.inj h)
    have hdec : decOpenCnts (i.iOpenCnts + 1) = i.iOpenCnts := if_neg (Nat.succ_ne_zero _)
    rw [wp_dirClose_heap (if_pos rfl) rfl,
      wp_inodeClose (i := { i with iOpenCnts := i.iOpenCnts + 1 }) (if_pos rfl)]
    refine (and_iff_left fun h => absurd h hone).trans ((forall_prop_of_true hone).trans ?_)
    rw [wp_sysFreeDir_own (if_pos rfl) rfl, hdec]
    refine iff_of_eq (congrArg (Q ()) (State.eq_after rfl (fun q => ?_) (fun q => ?_) rfl))
    · show (if q = p then some i else if q = p then _ else s.inodes q) = _
      by_cases hq : q = p
      · rw [if_pos hq, hq, hi]
      · rw [if_neg hq, if_neg hq]
    · show (if q = s.fresh then none else if q = s.fresh then _ else if q = s.fresh then _ else
        s.dirs q) = _
      by_cases hq : q = s.fresh
      · rw [if_pos hq, hq, (hs.fresh s.fresh (Nat.le_refl _)).2]
      · rw [if_neg hq, if_neg hq, if_neg hq]

/-- The directory of an inode that is read from disk. -/
theorem State.Searchable.at_first (hs : s.Searchable)
    (hfirst : firstOpen s.inodes n s.part.openInodes = .ok none) :
    s.At 3 n (.heap s.fresh)
      ((s.newDir.loaded n).setDir s.fresh ⟨false, s.newDir.next⟩) where
  inode := by
    refine ⟨_, _, readSlot s.part s.disk n, ?_, if_pos rfl, ?_, rfl, rfl⟩
    · show Option.bind (if s.fresh = s.fresh then _ else _) _ = _
      rw [if_pos rfl]
      rfl
    · rw [State.inodeNamed, hfirst]
  disk := rfl
  mounted := { hs.mounted with }
  supply m := by
    rw [Nat.add_comm]
    rfl
  next := Nat.le_add_right s.next 3
  close j k _ F Q := by
    have hnone := (hs.fresh ⟨false, s.next + 1⟩ (Nat.le_succ _)).1
    rw [wp_dirClose_heap (if_pos rfl) rfl, wp_inodeClose
      (i := { readSlot s.part s.disk n with iOpenCnts := 1 }) (if_pos rfl)]
    refine (and_iff_right fun h => absurd rfl h).trans ((forall_prop_of_true rfl).trans ?_)
    refine (and_iff_left fun h => Bool.noConfusion h).trans ((forall_prop_of_true rfl).trans ?_)
    rw [wp_sysFreeDir_own (if_pos rfl) rfl]
    refine iff_of_eq (congrArg (Q ()) (State.eq_after ?_ (fun q => ?_) (fun q => ?_) rfl))
    · have herase : (⟨false, s.next + 1⟩ :: s.part.openInodes).erase ⟨false, s.next + 1⟩ =
          s.part.openInodes := List.erase_cons_head _ _
      exact congrArg (fun l => { s.part with openInodes := l }) herase
    · show (if q = ⟨false, s.next + 1⟩ then none else if q = ⟨false, s.next + 1⟩ then _ else
        s.inodes q) = _
      by_cases hq : q = ⟨false, s.next + 1⟩
      · rw [if_pos hq, hq, hnone]
      · rw [if_neg hq, if_neg hq]
    · show (if q = s.fresh then none else if q = s.fresh then _ else if q = s.fresh then _ else
        s.dirs q) = _
      by_cases hq : q = s.fresh
      · rw [if_pos hq, hq, (hs.fresh s.fresh (Nat.le_refl _)).2]
      · rw [if_neg hq, if_neg hq, if_neg hq]

theorem granted_one : s.Granted 0 1 ↔ s.supply 0 = true := by
  constructor
  · exact fun h => h 0 (Nat.zero_lt_one)
  · intro h k hk
    have hk0 : k = 0 := by omega
    rw [hk0]
    exact h

theorem granted_three :
    s.Granted 0 3 ↔ s.supply 0 = true ∧ s.supply 1 = true ∧ s.supply 2 = true := by
  constructor
  · exact fun h => ⟨h 0 (by omega), h 1 (by omega), h 2 (by omega)⟩
  · intro ⟨h0, h1, h2⟩ k hk
    have hcases : k = 0 ∨ k = 1 ∨ k = 2 := by omega
    rcases hcases with rfl | rfl | rfl
    · exact h0
    · exact h1
    · exact h2

theorem not_returns_false {α : Type} {x : Kern α} : ¬Returns x s (fun _ _ => False) := by
  rw [returns_iff]
  exact fun ⟨_, _, _, h⟩ => h

/-- `inode_open` of an inode that is open. -/
theorem inodeOpen_again {p : Ptr} {i : Inode} {Q : Ptr → State → Prop}
    (hfirst : firstOpen s.inodes n s.part.openInodes = .ok (some p)) (hi : s.inodes p = some i) :
    Returns (inodeOpen n) s Q ↔ Q p (s.reopened p i) := by
  rw [Returns, wp_inodeOpen, hfirst]
  constructor
  · exact fun h => h.1 p i rfl hi
  · intro h
    refine ⟨fun q j hq hj => ?_, fun hnone => ?_, fun e he => ?_⟩
    · cases hq
      rw [hi, Option.some.injEq] at hj
      rw [← hj]
      exact h
    · cases hnone
    · cases he

/-- `inode_open` of an inode on disk. -/
theorem inodeOpen_first {Q : Ptr → State → Prop} (hm : s.part.Mounted) (hn : n < 4096)
    (hfirst : firstOpen s.inodes n s.part.openInodes = .ok none) :
    Returns (inodeOpen n) s Q ↔
      s.supply 0 = true ∧ s.supply 1 = true ∧ Q ⟨false, s.next⟩ (s.loaded n) := by
  have hsel := (inodePos_selectable hm hn).1
  rw [Returns, wp_inodeOpen, hfirst]
  constructor
  · intro h
    have hread := (wp_inodeRead.mp (h.2.1 rfl)).1 hn
    cases h1 : s.supply 1 with
    | false => exact (hread.2 h1).elim
    | true =>
        have hload := (hread.1 h1).1 hsel
        cases h0 : s.supply 0 with
        | false => exact (hload.2 h0).elim
        | true => exact ⟨rfl, rfl, hload.1 h0⟩
  · rintro ⟨h0, h1, h⟩
    refine ⟨fun q j hq => ?_, fun _ => wp_inodeRead.mpr ⟨fun _ => ⟨fun _ => ⟨fun _ => ?_, ?_⟩, ?_⟩,
      fun hlt => hlt hn⟩, fun e he => ?_⟩
    · cases hq
    · exact ⟨fun _ => h, fun h0' => Bool.false_ne_true (h0'.symm.trans h0)⟩
    · exact fun hns => hns hsel
    · exact fun h1' => Bool.false_ne_true (h1'.symm.trans h1)
    · cases he

/-- `dir_open` returns when its requests are granted, and ends in one of two states. -/
theorem State.Searchable.dirOpen_cases (hs : s.Searchable) (hn : n < 4096) :
    ∃ t, ((∃ p i, firstOpen s.inodes n s.part.openInodes = .ok (some p) ∧ s.inodes p = some i ∧
        t = (s.newDir.reopened p i).setDir s.fresh p) ∨
      (firstOpen s.inodes n s.part.openInodes = .ok none ∧
        t = (s.newDir.loaded n).setDir s.fresh ⟨false, s.newDir.next⟩)) ∧
      ∀ Q : DirPtr → State → Prop,
        Returns (dirOpen n) s Q ↔ s.Granted 0 (s.requests n) ∧ Q (.heap s.fresh) t := by
  obtain ⟨r, hfirst⟩ := firstOpen_ok n (l := s.part.openInodes) fun p hp =>
    (hs.opened p hp).imp fun _ h => h.1
  have hdir : ∀ Q : DirPtr → State → Prop, Returns (dirOpen n) s Q ↔ s.supply 0 = true ∧
      Returns (inodeOpen n) s.newDir fun p t => Q (.heap s.fresh) (t.setDir s.fresh p) := by
    intro Q
    rw [Returns, wp_dirOpen]
    cases h0 : s.supply 0 with
    | false =>
        refine iff_of_false (fun h => not_returns_false (h.2 rfl)) fun h => ?_
        exact Bool.false_ne_true h.1
    | true => exact ⟨fun h => ⟨rfl, h.1 rfl⟩, fun h => ⟨fun _ => h.2, fun h' => Bool.noConfusion h'⟩⟩
  cases r with
  | some p =>
      obtain ⟨-, i, hi, -⟩ := firstOpen_some hfirst
      have hreq : s.requests n = 1 := by rw [State.requests, hfirst]
      rw [hreq, granted_one]
      refine ⟨_, Or.inl ⟨p, i, hfirst, hi, rfl⟩, fun Q => ?_⟩
      rw [hdir, inodeOpen_again (s := s.newDir) hfirst hi]
  | none =>
      have hreq : s.requests n = 3 := by rw [State.requests, hfirst]
      rw [hreq, granted_three]
      refine ⟨_, Or.inr ⟨hfirst, rfl⟩, fun Q => ?_⟩
      rw [hdir, inodeOpen_first (s := s.newDir) hs.mounted hn hfirst, and_assoc, and_assoc]
      exact Iff.rfl

/-- `dir_open` returns with the directory open when its requests are granted. -/
theorem State.Searchable.dirOpen_returns (hs : s.Searchable) (hn : n < 4096) :
    ∃ t, s.At (s.requests n) n (.heap s.fresh) t ∧ ∀ Q : DirPtr → State → Prop,
      Returns (dirOpen n) s Q ↔ s.Granted 0 (s.requests n) ∧ Q (.heap s.fresh) t := by
  obtain ⟨t, ht, hopen⟩ := hs.dirOpen_cases hn
  refine ⟨t, ?_, hopen⟩
  rcases ht with ⟨p, i, hfirst, hi, rfl⟩ | ⟨hfirst, rfl⟩
  · have hreq : s.requests n = 1 := by rw [State.requests, hfirst]
    rw [hreq]
    exact hs.at_again hfirst hi
  · have hreq : s.requests n = 3 := by rw [State.requests, hfirst]
    rw [hreq]
    exact hs.at_first hfirst

/-- The same in the middle of the search. -/
theorem State.Searchable.dirOpen_after (hs : s.Searchable) (hn : n < 4096) (j : Nat) {k : Nat}
    (hk : s.next ≤ k) : ∃ d t, s.At (j + s.requests n) n d t ∧ ∀ Q : DirPtr → State → Prop,
      Returns (dirOpen n) (s.after j k) Q ↔ s.Granted j (s.requests n) ∧ Q d t := by
  obtain ⟨t, hat, hopen⟩ := (hs.after j hk).dirOpen_returns hn
  refine ⟨_, t, hat.of_after hk, fun Q => (hopen Q).trans (and_congr_left fun _ => ?_)⟩
  refine forall_congr' fun m => forall_congr' fun _ => ?_
  show s.supply (0 + m + j) = true ↔ _
  rw [Nat.zero_add, Nat.add_comm]

theorem allBlocksOf_sectors (disk : Bytes) {i j : Inode} (h : i.iSectors = j.iSectors) :
    allBlocksOf disk i = allBlocksOf disk j := by
  have hsector : i.sector = j.sector := by
    funext k
    rw [Inode.sector, Inode.sector, h]
  unfold allBlocksOf directBlocks
  rw [hsector]

/-- One search in the directory that is open. -/
theorem State.At.searchDirEntry_iff (hdir : s.DirectoryOk n) (hat : s.At r n d t) (name : Str) :
    ∃ i, s.inodeNamed n = some i ∧ ∀ Q : Option DirEntry → State → Prop,
      Returns (searchDirEntry d name) t Q ↔
        (s.supply r = true → s.supply (r + 1) = true ∧
          Q (findBlocks s.disk (allBlocksOf s.disk i) name 140 0) (t.after 2 (t.next + 2))) ∧
        (s.supply r = false → Q none (t.after 1 t.next)) := by
  obtain ⟨i₀, hi₀, -, hsel⟩ := hdir.inode
  obtain ⟨p, i, j, hp, hi, hj, -, hsectors⟩ := hat.inode
  rw [hi₀, Option.some.injEq] at hj
  rw [← hj] at hsectors
  have hblocks := allBlocksOf_sectors s.disk hsectors
  have hsel' : ∀ lba, References t.disk i lba → Selectable lba 1 := by
    intro lba ⟨hne, href⟩
    refine hsel lba ⟨hne, ?_⟩
    rw [hat.disk, hblocks, Inode.sector, hsectors] at href
    exact href
  refine ⟨i₀, hi₀, fun Q => (wp_searchDirEntry hp hi hat.mounted hsel').trans ?_⟩
  rw [hat.supply, hat.supply, Nat.add_zero, hat.disk, hblocks]
  refine and_congr_left fun _ => forall_congr' fun _ => ?_
  cases s.supply (r + 1) with
  | false => exact iff_of_false (fun h => h.2 rfl) fun h => Bool.false_ne_true h.1
  | true => exact ⟨fun h => ⟨rfl, h.1 rfl⟩, fun h => ⟨fun _ => h.2, fun h' => Bool.noConfusion h'⟩⟩

end

end OsTruth
