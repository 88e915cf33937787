/-
The exclusion of writers over runs of `file_create`, `file_open` and `file_close` by
any number of tasks.
-/
import OsTruth.Fs.WriteDeny
import OsTruth.Library.Runs
import OsTruth.Userprog.System

namespace OsTruth

open ByteString Fallible Runs OsTruth.System

/-! ## The property -/

inductive FileCall
  | create (parentDir : DirPtr) (filename : Str) (flag : UInt8)
  | open (inodeNo : UInt32) (flag : UInt8)
  | close (fdIdx : Nat)

def FileCall.run : FileCall → Kern Int
  | .create parentDir filename flag => fileCreate parentDir filename flag
  | .open inodeNo flag => fileOpen inodeNo flag
  | .close fdIdx => fileClose fdIdx

/-- Task `c.1` makes the call `c.2`. -/
def fileStep (σ : System) (c : Nat × FileCall) : Except Fault System :=
  (σ.exec c.1 c.2.run).map fun r => r.2

/-- Some task sees an inode with number `n` at `p`. -/
def System.Names (σ : System) (p : Ptr) (n : UInt32) : Prop :=
  ∃ pid pr i, σ.procs pid = some pr ∧ (σ.enter pr).inodes p = some i ∧ i.iNo = n

/-- At most one open entry that writes refers to a given inode. -/
def System.WritersExclusive (σ : System) : Prop :=
  ∀ g g' p p', σ.kernel.OpenOn g p → σ.kernel.OpenOn g' p' → (σ.kernel.fileTable g).Writes →
    (σ.kernel.fileTable g').Writes → (p = p' ∨ ∃ n, σ.Names p n ∧ σ.Names p' n) → g = g'

/-! ## The condition -/

/-- The call uses `write_deny` as it is meant: no file is created for writing, a file
that is opened exists and is not refused to a writer, and a reader is not closed while
somebody writes. -/
def FileCall.Right (s : State) : FileCall → Prop
  | .create _ _ flag => ¬Writes flag
  | .open inodeNo flag => OpensRight s inodeNo flag
  | .close fdIdx => ClosesRight s fdIdx

instance (s : State) : ∀ c : FileCall, Decidable (c.Right s)
  | .create _ _ flag => inferInstanceAs (Decidable (¬Writes flag))
  | .open inodeNo flag => inferInstanceAs (Decidable (OpensRight s inodeNo flag))
  | .close fdIdx => inferInstanceAs (Decidable (ClosesRight s fdIdx))

def rightCall (σ : System) (c : Nat × FileCall) : Prop :=
  ∀ pr, σ.procs c.1 = some pr → c.2.Right (σ.enter pr)

instance (σ : System) (c : Nat × FileCall) : Decidable (rightCall σ c) :=
  inferInstanceAs (Decidable (∀ pr, σ.procs c.1 = some pr → c.2.Right (σ.enter pr)))

/-! ## The invariant -/

structure Sound (σ : System) (num : Ptr → UInt32) : Prop where
  table : TableOk σ.kernel num
  views : ∀ pid pr, σ.procs pid = some pr → ViewOk (σ.enter pr) num
  apart : ∀ j k pr pr' p i i', σ.procs j = some pr → σ.procs k = some pr' → p.user = true →
    pr.inodes p = some i → pr'.inodes p = some i' → j = k

section

variable {σ τ : System} {num num' : Ptr → UInt32} {pid k : Nat} {pr pr' : Proc} {p : Ptr} {t : State}

theorem Sound.exclusive (h : Sound σ num) : σ.WritersExclusive := by
  intro g g' p p' hg hg' hw hw' hsame
  have hnum : ∀ g p n, σ.kernel.OpenOn g p → σ.Names p n → num p = n := by
    rintro g p n hg ⟨pid, pr, i, hpr, hi, rfl⟩
    exact ((h.views pid pr hpr).seen p i (h.table.bound g p hg).2 hi).1.symm
  have hp : p = p' := by
    rcases hsame with heq | ⟨n, hn, hn'⟩
    · exact heq
    · exact h.table.inj p p' (h.table.bound g p hg).2 (h.table.bound g' p' hg').2
        ((hnum g p n hg hn).trans (hnum g' p' n hg' hn').symm)
  rw [← hp] at hg'
  exact h.table.one g g' p hg hg' hw hw'

/-- What another task has in its heap, the running task does not see. -/
theorem Sound.hidden (h : Sound σ num) (hpr : σ.procs pid = some pr) {i : Inode} (hk : k ≠ pid)
    (hpr' : σ.procs k = some pr') (hp : p.user = true) (hi : pr'.inodes p = some i) :
    p.id < σ.kernel.next ∧ (σ.enter pr).inodes p = none := by
  refine ⟨(h.views k pr' hpr').old p i ((enter_user hp).trans hi), ?_⟩
  rw [enter_user hp]
  cases hmine : pr.inodes p with
  | none => rfl
  | some j => exact absurd (h.apart k pid pr' pr p i j hpr' hpr hp hi hmine) hk

/-- A call of one task leaves what another sees right. -/
theorem Sound.otherView (h : Sound σ num) (hpr : σ.procs pid = some pr)
    (hevol : Evolves (σ.enter pr) num t num') (hk : k ≠ pid) (hpr' : σ.procs k = some pr') :
    ViewOk ((σ.leave pid t).enter pr') num' where
  old p i hi := by
    cases hp : p.user with
    | true =>
        rw [enter_user hp] at hi
        exact Nat.lt_of_lt_of_le (h.hidden hpr hk hpr' hp hi).1 hevol.next
    | false =>
        rw [enter_kernel hp] at hi
        exact hevol.view.old p i hi
  seen p i hp hi := by
    cases huser : p.user with
    | false =>
        rw [enter_kernel huser] at hi
        exact hevol.view.seen p i hp hi
    | true =>
        rw [enter_user huser] at hi
        obtain ⟨hold, hnone⟩ := h.hidden hpr hk hpr' huser hi
        have hlisted : p ∈ σ.kernel.part.openInodes := by
          rcases hevol.listed p hp with hl | ⟨j, hj⟩ | hl
          · exact hl
          · rw [hnone] at hj
            cases hj
          · exact absurd hold (Nat.not_lt.mpr hl)
        have hfew : Fewer (σ.enter pr') ((σ.leave pid t).enter pr') p := by
          intro g hg
          have hsame : t.fileTable g = σ.kernel.fileTable g := hevol.unseen g p hold hnone hg
          have hg' : (t.fileTable g).fdInode = some p := hg
          rw [hsame] at hg'
          exact ⟨hsame, hg'⟩
        rw [hevol.num p hold]
        exact (h.views k pr' hpr').fewer hlisted ((enter_user huser).trans hi) hfew rfl
          (Nat.le_refl _) rfl

theorem Sound.step (h : Sound σ num) (hpr : σ.procs pid = some pr)
    (hevol : Evolves (σ.enter pr) num t num') : Sound (σ.leave pid t) num' := by
  have hother : ∀ k pr', k ≠ pid → (σ.leave pid t).procs k = some pr' → σ.procs k = some pr' :=
    fun k pr' hk hk' => (if_neg hk).symm.trans hk'
  have hself : ∀ pr', (σ.leave pid t).procs pid = some pr' → pr' = System.procOf t := by
    intro pr' h'
    have h'' := (if_pos rfl).symm.trans h'
    rw [Option.some.injEq] at h''
    exact h''.symm
  have hcross : ∀ k pr' p i i', k ≠ pid → σ.procs k = some pr' → p.user = true →
      pr'.inodes p = some i → t.inodes p = some i' → False := by
    intro k pr' p i i' hk hk' hp hi hi'
    obtain ⟨hold, hnone⟩ := h.hidden hpr hk hk' hp hi
    rcases hevol.heap p i' hi' with ⟨j, hj⟩ | hl
    · rw [hnone] at hj
      cases hj
    · exact absurd hold (Nat.not_lt.mpr hl)
  refine ⟨hevol.table, fun k pr' hk => ?_, fun j k pr₁ pr₂ p i i' hj hk hp hi hi' => ?_⟩
  · by_cases hkp : k = pid
    · rw [hkp] at hk
      rw [hself pr' hk]
      refine ⟨fun p i hi => hevol.view.old p i ?_, fun p i hp hi => hevol.view.seen p i hp ?_⟩
      · rwa [enter_leave_self] at hi
      · rwa [enter_leave_self] at hi
    · exact h.otherView hpr hevol hkp (hother k pr' hkp hk)
  · by_cases hjp : j = pid
    · by_cases hkp : k = pid
      · rw [hjp, hkp]
      · rw [hjp] at hj
        rw [hself pr₁ hj] at hi
        exact (hcross k pr₂ p i' i hkp (hother k pr₂ hkp hk) hp hi' hi).elim
    · by_cases hkp : k = pid
      · rw [hkp] at hk
        rw [hself pr₂ hk] at hi'
        exact (hcross j pr₁ p i i' hjp (hother j pr₁ hjp hj) hp hi hi').elim
      · exact h.apart j k pr₁ pr₂ p i i' (hother j pr₁ hjp hj) (hother k pr₂ hkp hk) hp hi hi'

theorem FileCall.evolves {s : State} {c : FileCall} (ht : TableOk s num) (hv : ViewOk s num)
    (hright : c.Right s) : Ensures c.run s (fun _ t => ∃ num', Evolves s num t num') := by
  cases c with
  | create parentDir filename flag => exact fileCreate_evolves ht hv hright
  | «open» inodeNo flag => exact fileOpen_evolves ht hv hright
  | close fdIdx => exact fileClose_evolves ht hv hright

theorem Sound.fileStep {c : Nat × FileCall} (h : Sound σ num) (hright : rightCall σ c)
    (hstep : fileStep σ c = .ok τ) : ∃ num', Sound τ num' := by
  unfold OsTruth.fileStep at hstep
  cases hexec : σ.exec c.1 c.2.run with
  | error e =>
      rw [hexec] at hstep
      cases hstep
  | ok r =>
      rw [hexec] at hstep
      cases hstep
      obtain ⟨pr, t, hpr, hrun, hτ⟩ := System.exec_eq_ok.mp hexec
      have ht : TableOk (σ.enter pr) num :=
        ⟨h.table.bound, h.table.old, h.table.inj, h.table.taken, h.table.bits, h.table.one⟩
      obtain ⟨num', hevol⟩ :=
        ensures_iff.mp (FileCall.evolves ht (h.views c.1 pr hpr) (hright pr hpr)) _ _ hrun
      show ∃ num', Sound r.2 num'
      rw [hτ]
      exact ⟨num', h.step hpr hevol⟩

theorem System.Booted.sound (h : σ.Booted) : ∃ num, Sound σ num := by
  obtain ⟨r, i, -, hopen, huser, hi, -, hbit⟩ := h.root
  have hroot : ∀ p, p ∈ σ.kernel.part.openInodes → p = r := by
    intro p hp
    rw [hopen] at hp
    exact List.mem_singleton.mp hp
  have hno : ∀ g p, ¬σ.kernel.OpenOn g p := by
    intro g p hg
    rw [State.OpenOn, h.noFile] at hg
    cases hg
  have hseen : ∀ pid pr p j, σ.procs pid = some pr → (σ.enter pr).inodes p = some j →
      p.user = false ∧ σ.kernel.inodes p = some j := by
    intro pid pr p j hpr hj
    cases hp : p.user with
    | true =>
        rw [enter_user hp, h.noInode pid pr p hpr] at hj
        cases hj
    | false =>
        rw [enter_kernel hp] at hj
        exact ⟨rfl, hj⟩
  refine ⟨fun _ => i.iNo, ⟨⟨fun g p hg => absurd hg (hno g p), ?_, ?_, fun _ _ => hbit, h.bits,
    fun g _ p hg => absurd hg (hno g p)⟩, fun pid pr hpr => ⟨?_, ?_⟩, ?_⟩⟩
  · intro p hp
    rw [hroot p hp]
    exact h.old r i hi
  · intro p q hp hq _
    rw [hroot p hp, hroot q hq]
  · exact fun p j hj => h.old p j (hseen pid pr p j hpr hj).2
  · intro p j hp hj
    obtain ⟨-, hj'⟩ := hseen pid pr p j hpr hj
    rw [hroot p hp, hi, Option.some.injEq] at hj'
    refine ⟨hj' ▸ rfl, ?_, fun _ g hg => absurd hg (hno g p)⟩
    have hzero : (σ.enter pr).holders p = 0 := holders_zero fun g => hno g p
    rw [hzero]
    exact Nat.zero_le _
  · intro j k pr pr' p i' _ hj _ _ hi'
    rw [h.noInode j pr p hj] at hi'
    cases hi'

/-- Calls that use `write_deny` as it is meant keep writers apart. -/
theorem writersExclusive_of_rightCalls (h : σ.Booted) (hrun : Reach fileStep rightCall σ τ) :
    τ.WritersExclusive := by
  have hinv := hrun.invariant (I := fun σ => ∃ num, Sound σ num) h.sound ?_
  · obtain ⟨num, hs⟩ := hinv
    exact hs.exclusive
  · rintro s c t ⟨num, hs⟩ hok hstep
    exact hs.fileStep hok hstep

/-- The file `f` is made, closed, and opened by a reader and a writer. -/
theorem writersExclusive_reader_writer :
    ∃ τ, Reach fileStep rightCall freshSystem τ ∧ τ.WritersExclusive ∧
      (τ.kernel.fileTable 4).Writes := by
  obtain ⟨τ, hrun, hw⟩ := exists_reach fileStep rightCall freshSystem
    [(0, .create .root [102] oCreat), (0, .close 3), (0, .open 1 0), (1, .open 1 oWronly)]
    (fun τ => (τ.kernel.fileTable 4).Writes) (by decide +kernel) (by decide +kernel)
  exact ⟨τ, hrun, writersExclusive_of_rightCalls freshSystem_booted hrun, hw⟩

/-- The second writer is refused, but its entry stays. -/
theorem two_writers :
    ∃ τ, Reach fileStep (fun _ _ => True) freshSystem τ ∧ ¬τ.WritersExclusive := by
  obtain ⟨τ, hrun, h3, h4, hw3, hw4⟩ := exists_reach fileStep (fun _ _ => True) freshSystem
    [(0, .create .root [102] oCreat), (0, .close 3), (0, .open 1 oWronly),
      (1, .open 1 oWronly)]
    (fun τ => τ.kernel.OpenOn 3 ⟨false, 3⟩ ∧ τ.kernel.OpenOn 4 ⟨false, 3⟩ ∧
      (τ.kernel.fileTable 3).Writes ∧ (τ.kernel.fileTable 4).Writes)
    (allOk_true _ _) (by decide +kernel)
  refine ⟨τ, hrun, fun h => ?_⟩
  exact absurd (h 3 4 _ _ h3 h4 hw3 hw4 (Or.inl rfl)) (by decide)

end

end OsTruth
