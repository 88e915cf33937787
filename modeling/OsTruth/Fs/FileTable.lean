/-
Entries of `file_table`: who holds an inode open, and which entries write.
-/
import OsTruth.Fs.OpenInodes
import OsTruth.Fs.Quiet

namespace OsTruth

open ByteString Fallible

/-- Entry `g` of `file_table` is open on the inode at `p`. -/
def State.OpenOn (s : State) (g : Nat) (p : Ptr) : Prop := (s.fileTable g).fdInode = some p

instance (s : State) (g : Nat) (p : Ptr) : Decidable (s.OpenOn g p) :=
  inferInstanceAs (Decidable (_ = _))

/-- `fd_flag` has `O_WRONLY` or `O_RDWR`. -/
def File.Writes (f : File) : Prop := f.fdFlag &&& 1 ≠ 0 ∨ f.fdFlag &&& 2 ≠ 0

instance (f : File) : Decidable f.Writes := inferInstanceAs (Decidable (_ ∨ _))

/-- The entry that `file_open` and `file_create` fill in. -/
theorem newFile_writes {flag : UInt8} {p : Ptr} :
    File.Writes ⟨0, flag.toUInt32, some p⟩ ↔ Writes flag := by
  have hand : ∀ m : UInt8, flag.toUInt32 &&& m.toUInt32 = 0 ↔ flag &&& m = 0 := by
    intro m
    rw [← UInt32.toNat_inj, ← UInt8.toNat_inj, UInt32.toNat_and, UInt8.toNat_and]
    exact Iff.rfl
  unfold File.Writes Writes
  exact or_congr (not_congr (hand 1)) (not_congr (hand 2))

/-- How many entries are open on the inode at `p`. -/
def State.holders (s : State) (p : Ptr) : Nat :=
  (List.range maxFileOpen).countP fun g => decide (s.OpenOn g p)

section

variable {s t : State} {p : Ptr} {g : Nat}

theorem holders_mono (h : ∀ g, t.OpenOn g p → s.OpenOn g p) : t.holders p ≤ s.holders p :=
  List.countP_mono_left fun g _ hg => decide_eq_true (h g (of_decide_eq_true hg))

/-- One entry more is one holder more. -/
theorem countP_insert {l : List Nat} (hnodup : l.Nodup) (hg : g ∈ l) {P P' : Nat → Bool}
    (hnew : P g = true) (hold : P' g = false) (hrest : ∀ k, k ≠ g → P k = P' k) :
    l.countP P = l.countP P' + 1 := by
  induction l with
  | nil => exact absurd hg List.not_mem_nil
  | cons a rest ih =>
      obtain ⟨hnot, hnodup'⟩ := List.nodup_cons.mp hnodup
      rw [List.countP_cons, List.countP_cons]
      rcases List.mem_cons.mp hg with rfl | hmem
      · have hsame : rest.countP P = rest.countP P' := by
          refine List.countP_congr fun k hk => ?_
          rw [hrest k fun h => hnot (h ▸ hk)]
        rw [hnew, hold, hsame]
        rfl
      · have hne : a ≠ g := fun h => hnot (h ▸ hmem)
        rw [ih hnodup' hmem, hrest a hne]
        omega

theorem holders_insert (hg : g < maxFileOpen) (hnew : t.OpenOn g p) (hold : ¬s.OpenOn g p)
    (hrest : ∀ k, k ≠ g → (t.OpenOn k p ↔ s.OpenOn k p)) : t.holders p = s.holders p + 1 :=
  countP_insert List.nodup_range (List.mem_range.mpr hg) (decide_eq_true hnew)
    (decide_eq_false hold) fun k hk => decide_eq_decide.mpr (hrest k hk)

theorem holders_pos (hg : g < maxFileOpen) (h : s.OpenOn g p) : 0 < s.holders p :=
  List.countP_pos_iff.mpr ⟨g, List.mem_range.mpr hg, decide_eq_true h⟩

theorem holders_zero (h : ∀ g, ¬s.OpenOn g p) : s.holders p = 0 :=
  List.countP_eq_zero.mpr fun g _ hg => h g (of_decide_eq_true hg)

/-- Without a holder there is no entry below the bound. -/
theorem not_openOn_of_holders (h : s.holders p = 0) (hg : g < maxFileOpen) : ¬s.OpenOn g p :=
  fun hopen => absurd (holders_pos hg hopen) (by omega)

/-! ## Small rules -/

@[simp] theorem State.setFile_fileTable_same (s : State) (g : Nat) (f : File) :
    (s.setFile g f).fileTable g = f := if_pos rfl

theorem State.setFile_fileTable_other (s : State) {g k : Nat} (f : File) (h : k ≠ g) :
    (s.setFile g f).fileTable k = s.fileTable k := if_neg h

/-- Quiet steps after an entry was set are quiet under another setting of the entry. -/
theorem Quiet.setFile {f f' : File} (h : Quiet (s.setFile g f) t) :
    Quiet (s.setFile g f') (t.setFile g f') := by
  refine ⟨?_, h.cur, h.rootDir, h.dirs, h.openInodes, h.inodeBitmap, h.next, h.heads⟩
  funext k
  by_cases hk : k = g
  · rw [hk, State.setFile_fileTable_same, State.setFile_fileTable_same]
  · rw [State.setFile_fileTable_other _ _ hk, State.setFile_fileTable_other _ _ hk, h.fileTable,
      State.setFile_fileTable_other _ _ hk]

variable {F : Fault → Prop}

theorem freeSlotFrom_spec (fileTable : Nat → File) :
    ∀ left idx, idx ≤ freeSlotFrom fileTable left idx ∧
      freeSlotFrom fileTable left idx ≤ idx + left ∧
      (freeSlotFrom fileTable left idx < idx + left →
        (fileTable (freeSlotFrom fileTable left idx)).fdInode = none) := by
  intro left
  induction left with
  | zero => exact fun idx => ⟨Nat.le_refl _, Nat.le_refl _, fun h => absurd h (Nat.lt_irrefl _)⟩
  | succ left ih =>
      intro idx
      rw [freeSlotFrom]
      by_cases h : (fileTable idx).fdInode = none
      · rw [if_pos h]
        exact ⟨Nat.le_refl _, by omega, fun _ => h⟩
      · rw [if_neg h]
        obtain ⟨h₁, h₂, h₃⟩ := ih (idx + 1)
        exact ⟨by omega, by omega, fun hlt => h₃ (by omega)⟩

/-- `get_free_slot_in_global` returns a free entry or `-1`. -/
theorem ensures_getFreeSlot {Q : Int → State → Prop} (hnone : Q (-1) s)
    (hfree : ∀ g : Nat, 3 ≤ g → g < maxFileOpen → (s.fileTable g).fdInode = none → Q g s) :
    Wp getFreeSlotInGlobal s F Q := by
  obtain ⟨h₁, h₂, h₃⟩ := freeSlotFrom_spec s.fileTable 29 3
  unfold getFreeSlotInGlobal
  rw [Wp.bind, Wp.get, Wp.ite]
  refine ⟨fun _ => hnone, fun hne => ?_⟩
  have hmax : maxFileOpen = 32 := rfl
  exact hfree _ h₁ (by omega) (h₃ (by omega))

theorem freeLocalFrom_spec (fdTable : Nat → Int) :
    ∀ left idx, idx ≤ freeLocalFrom fdTable left idx ∧
      freeLocalFrom fdTable left idx ≤ idx + left ∧
      (freeLocalFrom fdTable left idx < idx + left →
        fdTable (freeLocalFrom fdTable left idx) = -1) := by
  intro left
  induction left with
  | zero => exact fun idx => ⟨Nat.le_refl _, Nat.le_refl _, fun h => absurd h (Nat.lt_irrefl _)⟩
  | succ left ih =>
      intro idx
      rw [freeLocalFrom]
      by_cases h : fdTable idx = -1
      · rw [if_pos h]
        exact ⟨Nat.le_refl _, by omega, fun _ => h⟩
      · rw [if_neg h]
        obtain ⟨h₁, h₂, h₃⟩ := ih (idx + 1)
        exact ⟨by omega, by omega, fun hlt => h₃ (by omega)⟩

/-- `pcb_fd_install` fills a free descriptor of the task or returns `-1`. -/
theorem wp_pcbFdInstall {v : Int} {Q : Int → State → Prop} (hnone : Q (-1) s)
    (hfree : ∀ fd : Nat, 3 ≤ fd → fd < maxFilesOpenPerProc → s.cur.fdTable fd = -1 →
      Q fd (s.setFd fd v)) :
    Wp (pcbFdInstall v) s F Q := by
  obtain ⟨h₁, h₂, h₃⟩ := freeLocalFrom_spec s.cur.fdTable 5 3
  unfold pcbFdInstall
  rw [Wp.bind, Wp.get, Wp.ite]
  refine ⟨fun _ => hnone, fun hne => ?_⟩
  have hmax : maxFilesOpenPerProc = 8 := rfl
  exact hfree _ h₁ (by omega) (h₃ (by omega))

/-! ## Closing -/

/-- The state after entry `g` was made usable again. -/
def State.clearEntry (s : State) (g : Nat) : State :=
  s.setFile g { s.fileTable g with fdInode := none }

theorem State.dropped_putInode (s : State) (p : Ptr) (o : Option Inode) :
    (s.putInode p o).dropped p = s.dropped p := by
  unfold State.dropped State.putInode
  congr 1
  funext q
  by_cases hq : q = p
  · simp [hq]
  · simp [hq]

/-- `file_close` on an open entry. -/
theorem wp_fileClose {i : Inode} {Q : Int → State → Prop} (hp : s.OpenOn g p)
    (hi : s.inodes p = some i) :
    Wp (fileClose g) s F Q ↔
      (i.iOpenCnts ≠ 1 → Q 0 ((s.putInode p (some { i with
        writeDeny := 0, iOpenCnts := decOpenCnts i.iOpenCnts })).clearEntry g)) ∧
      (i.iOpenCnts = 1 → (p.user = false → Q 0 ((s.dropped p).clearEntry g)) ∧
        (p.user = true → F .assert)) := by
  have hp' : (s.fileTable g).fdInode = some p := hp
  unfold fileClose
  rw [Wp.bind, Wp.get, hp']
  simp only [Wp.bind]
  rw [wp_loadInode_some hi, wp_storeInode_some hi, wp_inodeClose (State.putInode_same ..),
    State.putInode_putInode, State.dropped_putInode]
  exact Iff.rfl

/-- Any entry that `file_close` returns from was open on an inode that the task sees. -/
theorem fileClose_open {Q : Int → State → Prop}
    (h : ∀ p i, s.OpenOn g p → s.inodes p = some i → Ensures (fileClose g) s Q) :
    Ensures (fileClose g) s Q := by
  cases hp : (s.fileTable g).fdInode with
  | none =>
      unfold fileClose
      rw [Ensures, Wp.bind, Wp.get, hp]
      exact True.intro
  | some p =>
      cases hi : s.inodes p with
      | none =>
          unfold fileClose
          rw [Ensures, Wp.bind, Wp.get, hp]
          simp only [Wp.bind]
          rw [wp_loadInode]
          refine ⟨fun i hi' => ?_, fun _ => True.intro⟩
          rw [hi] at hi'
          cases hi'
      | some i => exact h p i hp hi

/-! ## Creating -/

/-- The rule for `fileInstall`.  A part that `R` allows adds the entry to the directory.  Then
the new inode is linked and a descriptor is looked for, or, when the directory is full, the
call is undone. -/
theorem fileInstall_within {R : State → State → Prop} [Std.Refl R] [IsTrans State R] {d : DirPtr}
    {filename : Str} {n : UInt32} {ioBuf : Ptr} {Q : Int → State → Prop} (h : Allows R)
    (hfree : Within R (sysFreeBuf ioBuf))
    (hdir : ∀ q, s.inodeOf d = some q → AllowsInode R q)
    (hundo : ∀ e u, (syncDirEntry d e (.zero 1024)).run s = .ok (false, u) → R s u →
      Ensures (createRollback3 g p n ioBuf) u Q)
    (hlink : ∀ u i v, R s u → u.inodes p = some i →
      R ((u.pushOpen p).putInode p (some { i with iOpenCnts := 1 })) v →
        Ensures (pcbFdInstall g) v Q) :
    Ensures (fileInstall d filename p n g ioBuf) s Q := by
  unfold fileInstall
  rw [Ensures, Wp.bind, Wp.lift]
  refine ⟨fun e _ => ?_, fun _ _ => True.intro⟩
  rw [Wp.bind]
  refine ensures_iff.mpr fun r v₂ hrun => ?_
  have h₂ : R s v₂ := ensures_iff.mp (syncDirEntry_within hdir e _) r v₂ hrun
  rw [Wp.ite]
  refine ⟨fun _ => ?_, fun hr => ?_⟩
  · rw [Wp.bind]
    refine (h.dirInode d v₂).call fun q v₃ h₃ => ?_
    rw [Wp.bind]
    refine (h.loadInode q v₃).call fun i v₄ h₄ => ?_
    rw [Wp.bind]
    refine (h.inodeSync i _ v₄).call fun _ v₅ h₅ => ?_
    rw [Wp.bind]
    refine (h.loadInode p v₅).call fun j v₆ h₆ => ?_
    rw [Wp.bind]
    refine (h.inodeSync j _ v₆).call fun _ v₇ h₇ => ?_
    rw [Wp.bind]
    refine (h.bitmapSync n _ v₇).call fun _ v₈ h₈ => ?_
    have h₅' := trans_of R (trans_of R (trans_of R h₂ h₃) h₄) h₅
    have h₈' := trans_of R (trans_of R (trans_of R h₅' h₆) h₇) h₈
    rw [Wp.bind, Wp.modify, Wp.bind, wp_loadInode]
    refine ⟨fun k hk => ?_, fun _ => True.intro⟩
    rw [Wp.bind, wp_storeInode_some hk, Wp.bind]
    exact (hfree _).call fun _ v hv => hlink v₈ k v h₈' hk hv
  · rw [Bool.not_eq_true] at hr
    rw [hr] at hrun
    exact hundo e v₂ hrun h₂

theorem fileInstall_rule {d : DirPtr} {filename : Str} {n : UInt32} {ioBuf : Ptr}
    {Q : Int → State → Prop}
    (hundo : ∀ e u, (syncDirEntry d e (.zero 1024)).run s = .ok (false, u) → Quiet s u →
      Ensures (createRollback3 g p n ioBuf) u Q)
    (hlink : ∀ u i v, Quiet s u → u.inodes p = some i →
      Quiet ((u.pushOpen p).putInode p (some { i with iOpenCnts := 1 })) v →
        Ensures (pcbFdInstall g) v Q) :
    Ensures (fileInstall d filename p n g ioBuf) s Q :=
  fileInstall_within quiet_allows (sysFreeBuf_quiet ioBuf) (fun q _ => quiet_allowsInode q)
    hundo hlink

def State.takeInodeNo (s : State) (b : Nat) : State :=
  s.setInodeBitmap (s.part.inodeBitmap.set b true)

def State.newInode (s : State) (n : UInt32) : State :=
  s.grant.putInode s.fresh (some (inodeInit n .zero))

/-- The rule for `file_create`: it ends in one of its failures or in `fileInstall`. -/
theorem fileCreate_reads {d : DirPtr} {filename : Str} {flag : UInt8} {Q : Int → State → Prop}
    (hbuf : ∀ t, Reads s t → Q (-1) t)
    (hnew : ∀ t b ioBuf, Reads s t → t.part.inodeBitmap.FirstClear b →
      Q (-1) (t.takeInodeNo b) ∧
      Ensures (createRollback1 (UInt32.ofNat b) ioBuf) (t.takeInodeNo b).refuse Q ∧
      Ensures (createRollback2 (t.takeInodeNo b).fresh (UInt32.ofNat b) ioBuf)
        ((t.takeInodeNo b).newInode (UInt32.ofNat b)) Q ∧
      ∀ g, g < maxFileOpen → (t.fileTable g).fdInode = none →
        Ensures (fileInstall d filename (t.takeInodeNo b).fresh (UInt32.ofNat b) g ioBuf)
          (((t.takeInodeNo b).newInode (UInt32.ofNat b)).setFile g
            ⟨0, flag.toUInt32, some (t.takeInodeNo b).fresh⟩) Q) :
    Ensures (fileCreate d filename flag) s Q := by
  unfold fileCreate
  rw [Ensures, Wp.bind]
  refine (sysMallocBuf_reads s).call fun r t ht => ?_
  cases r with
  | none => exact hbuf t ht
  | some ioBuf =>
      show Wp (inodeBitmapAlloc >>= _) t _ _
      rw [Wp.bind, wp_inodeBitmapAlloc]
      refine ⟨fun b hb => ?_, fun _ => True.intro⟩
      obtain ⟨hfull, hmemory, hslot, hinstall⟩ := hnew t b ioBuf ht hb
      rw [Wp.ite]
      refine ⟨fun _ => hfull, fun _ => ?_⟩
      rw [Wp.bind, sysMallocInode, wp_sysMalloc]
      refine ⟨fun _ => ?_, fun _ => hmemory⟩
      show Wp (storeInode _ _ >>= _) _ _ _
      rw [Wp.bind, wp_storeInode_some (State.putInode_same ..), State.putInode_putInode, Wp.bind]
      refine ensures_getFreeSlot ?_ fun g _ hg hfree => ?_
      · rw [if_pos rfl]
        exact hslot
      · rw [if_neg (by omega), Wp.bind, Wp.modify, Int.toNat_natCast]
        exact hinstall g hg hfree

theorem fileCreate_rule {d : DirPtr} {filename : Str} {flag : UInt8} {Q : Int → State → Prop}
    (hbuf : ∀ t, Quiet s t → Q (-1) t)
    (hnew : ∀ t b ioBuf, Quiet s t → t.part.inodeBitmap.FirstClear b →
      Q (-1) (t.takeInodeNo b) ∧
      Ensures (createRollback1 (UInt32.ofNat b) ioBuf) (t.takeInodeNo b).refuse Q ∧
      Ensures (createRollback2 (t.takeInodeNo b).fresh (UInt32.ofNat b) ioBuf)
        ((t.takeInodeNo b).newInode (UInt32.ofNat b)) Q ∧
      ∀ g, g < maxFileOpen → (t.fileTable g).fdInode = none →
        Ensures (fileInstall d filename (t.takeInodeNo b).fresh (UInt32.ofNat b) g ioBuf)
          (((t.takeInodeNo b).newInode (UInt32.ofNat b)).setFile g
            ⟨0, flag.toUInt32, some (t.takeInodeNo b).fresh⟩) Q) :
    Ensures (fileCreate d filename flag) s Q :=
  fileCreate_reads (fun t ht => hbuf t (Reads.quiet s t ht)) fun t b ioBuf ht =>
    hnew t b ioBuf (Reads.quiet s t ht)

end

end OsTruth
