/-
The positions of open files over runs of the file functions by any number of tasks.
-/
import OsTruth.Fs.FilePos
import OsTruth.Library.Runs
import OsTruth.Userprog.System

namespace OsTruth

open ByteString Fallible Runs OsTruth.System

/-! ## The property -/

inductive PosCall
  | create (parentDir : DirPtr) (filename : Str) (flag : UInt8)
  | open (inodeNo : UInt32) (flag : UInt8)
  | read (fdIdx : Nat) (count : UInt32)
  | write (fdIdx : Nat) (buf : Bytes) (count : UInt32)
  | lseek (fd : Int) (offset : UInt32) (whence : UInt8)
  | close (fdIdx : Nat)

/-- What a call returns does not matter for the runs. -/
def PosCall.run : PosCall → Kern Unit
  | .create parentDir filename flag => do
      let _ ← fileCreate parentDir filename flag
      pure ()
  | .open inodeNo flag => do
      let _ ← fileOpen inodeNo flag
      pure ()
  | .read fdIdx count => do
      let _ ← fileRead fdIdx count
      pure ()
  | .write fdIdx buf count => do
      let _ ← fileWrite fdIdx buf count
      pure ()
  | .lseek fd offset whence => do
      let _ ← sysLseek fd offset whence
      pure ()
  | .close fdIdx => do
      let _ ← fileClose fdIdx
      pure ()

/-- Task `c.1` makes the call `c.2`. -/
def posStep (σ : System) (c : Nat × PosCall) : Except Fault System :=
  (σ.exec c.1 c.2.run).map fun r => r.2

namespace System

/-- Some task has the directory open whose inode is at `p`. -/
def DirInode (σ : System) (p : Ptr) : Prop :=
  ∃ pid pr, σ.procs pid = some pr ∧ (σ.enter pr).DirInode p

/-- No open entry of a regular file stands behind the end of the file. -/
def PositionsKept (σ : System) : Prop :=
  ∀ pid pr g p i, σ.procs pid = some pr → σ.kernel.OpenOn g p → ¬σ.DirInode p →
    (σ.enter pr).inodes p = some i → (σ.kernel.fileTable g).fdPos ≤ i.iSize

/-- No file is open.  Directories may be, and the inodes are older than what comes next. -/
structure FilesClosed (σ : System) : Prop where
  noFile : ∀ g, (σ.kernel.fileTable g).fdInode = none
  old : ∀ pid pr p i, σ.procs pid = some pr → (σ.enter pr).inodes p = some i →
    p.id < σ.kernel.next
  apart : ∀ j k pr pr' p i i', σ.procs j = some pr → σ.procs k = some pr' → p.user = true →
    pr.inodes p = some i → pr'.inodes p = some i' → j = k

end System

/-! ## The condition -/

/-- Nothing is written to an empty file in no bytes. -/
def PosCall.WritesSome (s : State) : PosCall → Prop
  | .write fdIdx _ count =>
      count = 0 → ∀ p, (s.fileTable fdIdx).fdInode = some p →
        ∀ i, s.inodes p = some i → i.iSize ≠ 0
  | _ => True

instance (s : State) : ∀ c : PosCall, Decidable (c.WritesSome s)
  | .write fdIdx _ count =>
      inferInstanceAs (Decidable (count = 0 → ∀ p, (s.fileTable fdIdx).fdInode = some p →
        ∀ i, s.inodes p = some i → i.iSize ≠ 0))
  | .create _ _ _ | .open _ _ | .read _ _ | .lseek _ _ _ | .close _ => isTrue True.intro

def writesSome (σ : System) (c : Nat × PosCall) : Prop :=
  ∀ pr, σ.procs c.1 = some pr → c.2.WritesSome (σ.enter pr)

instance (σ : System) (c : Nat × PosCall) : Decidable (writesSome σ c) :=
  inferInstanceAs (Decidable (∀ pr, σ.procs c.1 = some pr → c.2.WritesSome (σ.enter pr)))

/-! ## The invariant -/

structure PosSound (D : Ptr → Prop) (σ : System) : Prop where
  views : ∀ pid pr, σ.procs pid = some pr → PosOk D (σ.enter pr)
  dirs : ∀ p, σ.DirInode p ↔ D p
  apart : ∀ j k pr pr' p i i', σ.procs j = some pr → σ.procs k = some pr' → p.user = true →
    pr.inodes p = some i → pr'.inodes p = some i' → j = k

section

variable {D : Ptr → Prop} {σ τ : System} {pid k : Nat} {pr pr' : Proc} {t : State} {p : Ptr}

theorem System.FilesClosed.sound (h : σ.FilesClosed) : PosSound σ.DirInode σ where
  views pid pr hpr := by
    have hno : ∀ g p, ¬(σ.enter pr).OpenOn g p := by
      intro g p hg
      have hg' : (σ.kernel.fileTable g).fdInode = some p := hg
      rw [h.noFile] at hg'
      cases hg'
    exact ⟨fun g p i hg => absurd hg (hno g p), fun g p hg => absurd hg (hno g p),
      fun p i hi => h.old pid pr p i hpr hi⟩
  dirs _ := Iff.rfl
  apart := h.apart

theorem PosSound.kept (h : PosSound D σ) : σ.PositionsKept :=
  fun pid pr g p i hpr hg hp hi =>
    (h.views pid pr hpr).pos g p i hg (fun hD => hp ((h.dirs p).mpr hD)) hi

/-- A call opens and closes no directory, for no task. -/
theorem inodeOf_leave (pid : Nat) (pr' : Proc) (hroot : t.rootDir = (σ.enter pr).rootDir)
    (hdirs : t.dirs = (σ.enter pr).dirs) (d : DirPtr) :
    ((σ.leave pid t).enter (procOf t)).inodeOf d = (σ.enter pr).inodeOf d ∧
      ((σ.leave pid t).enter pr').inodeOf d = (σ.enter pr').inodeOf d := by
  cases d with
  | root =>
      have hroot' : t.rootDir.inode = σ.kernel.rootDir.inode := congrArg Dir.inode hroot
      exact ⟨hroot', hroot'⟩
  | heap q =>
      have hown : (if q.user then t.dirs q else t.dirs q) = (σ.enter pr).dirs q := by
        rw [ite_self, hdirs]
      have hother : ((σ.leave pid t).enter pr').dirs q = (σ.enter pr').dirs q := by
        show (if q.user then pr'.dirs q else t.dirs q) = if q.user then pr'.dirs q else σ.kernel.dirs q
        cases hq : q.user with
        | true => rfl
        | false =>
            rw [hdirs]
            show (if q.user then pr.dirs q else σ.kernel.dirs q) = _
            rw [hq]
            rfl
      exact ⟨congrArg (fun o => o.bind Dir.inode) hown, congrArg (fun o => o.bind Dir.inode) hother⟩

theorem procs_leave_self (h : (σ.leave pid t).procs pid = some pr') : pr' = procOf t := by
  have h' := (if_pos rfl).symm.trans h
  rw [Option.some.injEq] at h'
  exact h'.symm

theorem procs_leave_other (hk : k ≠ pid) (h : (σ.leave pid t).procs k = some pr') :
    σ.procs k = some pr' :=
  (if_neg hk).symm.trans h

theorem dirInode_leave (hpr : σ.procs pid = some pr) (hroot : t.rootDir = (σ.enter pr).rootDir)
    (hdirs : t.dirs = (σ.enter pr).dirs) (p : Ptr) :
    (σ.leave pid t).DirInode p ↔ σ.DirInode p := by
  constructor
  · rintro ⟨k, pr', hk, d, hd⟩
    by_cases hkp : k = pid
    · rw [hkp] at hk
      rw [procs_leave_self hk, (inodeOf_leave pid pr hroot hdirs d).1] at hd
      exact ⟨pid, pr, hpr, d, hd⟩
    · rw [(inodeOf_leave pid pr' hroot hdirs d).2] at hd
      exact ⟨k, pr', procs_leave_other hkp hk, d, hd⟩
  · rintro ⟨k, pr', hk, d, hd⟩
    by_cases hkp : k = pid
    · rw [hkp, hpr, Option.some.injEq] at hk
      rw [← hk, ← (inodeOf_leave pid pr hroot hdirs d).1] at hd
      exact ⟨pid, procOf t, if_pos rfl, d, hd⟩
    · rw [← (inodeOf_leave pid pr' hroot hdirs d).2] at hd
      exact ⟨k, pr', (if_neg hkp).trans hk, d, hd⟩

/-- What one task does leaves the entries of the others right. -/
theorem PosSound.leave (h : PosSound D σ) (hpr : σ.procs pid = some pr)
    (hmoves : Moves D (σ.enter pr) t) : PosSound D (σ.leave pid t) := by
  have hok := hmoves.ok (h.views pid pr hpr)
  have hhidden : ∀ k pr' p i, k ≠ pid → σ.procs k = some pr' → p.user = true →
      pr'.inodes p = some i → p.id < σ.kernel.next ∧ (σ.enter pr).inodes p = none := by
    intro k pr' p i hk hpr' hp hi
    refine ⟨(h.views k pr' hpr').heap p i ((enter_user hp).trans hi), ?_⟩
    rw [enter_user hp]
    cases hmine : pr.inodes p with
    | none => rfl
    | some j => exact absurd (h.apart k pid pr' pr p i j hpr' hpr hp hi hmine) hk
  have hcross : ∀ k pr' p i j, k ≠ pid → σ.procs k = some pr' → p.user = true →
      pr'.inodes p = some i → t.inodes p = some j → False := by
    intro k pr' p i j hk hpr' hp hi hj
    obtain ⟨hold, hnone⟩ := hhidden k pr' p i hk hpr' hp hi
    rcases hmoves.heap p j hj with ⟨j', hj'⟩ | hnew
    · rw [hnone] at hj'
      cases hj'
    · exact absurd hold (Nat.not_lt.mpr hnew)
  refine ⟨fun k pr' hk => ?_, fun p => ?_, fun j k pr₁ pr₂ p i i' hj hk hp hi hi' => ?_⟩
  · by_cases hkp : k = pid
    · rw [hkp] at hk
      rw [procs_leave_self hk]
      refine ⟨fun g p i hg hp hi => hok.pos g p i hg hp ?_, hok.table, fun p i hi => hok.heap p i ?_⟩
      · rwa [enter_leave_self] at hi
      · rwa [enter_leave_self] at hi
    · have hk' := procs_leave_other hkp hk
      refine ⟨fun g p i hg hp hi => ?_, hok.table, fun p i hi => ?_⟩
      · cases hu : p.user with
        | false =>
            rw [enter_kernel hu] at hi
            exact hok.pos g p i hg hp hi
        | true =>
            rw [enter_user hu] at hi
            obtain ⟨hold, hnone⟩ := hhidden k pr' p i hkp hk' hu hi
            rcases hmoves.entry g p hg with hsame | ⟨j, hj⟩ | hnew
            · have hg' : (σ.enter pr').OpenOn g p := by
                have hg' : (t.fileTable g).fdInode = some p := hg
                rw [hsame] at hg'
                exact hg'
              show (t.fileTable g).fdPos ≤ _
              rw [hsame]
              exact (h.views k pr' hk').pos g p i hg' hp ((enter_user hu).trans hi)
            · rw [hnone] at hj
              cases hj
            · exact absurd hold (Nat.not_lt.mpr hnew)
      · cases hu : p.user with
        | false =>
            rw [enter_kernel hu] at hi
            exact hok.heap p i hi
        | true =>
            rw [enter_user hu] at hi
            exact Nat.lt_of_lt_of_le (hhidden k pr' p i hkp hk' hu hi).1 hmoves.next
  · rw [← h.dirs p]
    exact dirInode_leave hpr hmoves.rootDir hmoves.dirs p
  · by_cases hjp : j = pid
    · by_cases hkp : k = pid
      · rw [hjp, hkp]
      · rw [hjp] at hj
        rw [procs_leave_self hj] at hi
        exact (hcross k pr₂ p i' i hkp (procs_leave_other hkp hk) hp hi' hi).elim
    · by_cases hkp : k = pid
      · rw [hkp] at hk
        rw [procs_leave_self hk] at hi'
        exact (hcross j pr₁ p i i' hjp (procs_leave_other hjp hj) hp hi hi').elim
      · exact h.apart j k pr₁ pr₂ p i i' (procs_leave_other hjp hj) (procs_leave_other hkp hk) hp hi hi'

theorem PosCall.moves {s : State} {c : PosCall} (hD : ∀ p, s.DirInode p → D p)
    (hright : c.WritesSome s ∨ ∀ p, D p) : Ensures c.run s fun _ t => Moves D s t := by
  cases c with
  | create d filename flag =>
      rw [run, Ensures, Wp.bind]
      exact fileCreate_moves fun p hp => hD p ⟨d, hp⟩
  | «open» n flag =>
      rw [run, Ensures, Wp.bind]
      exact fileOpen_moves n flag
  | read g count =>
      rw [run, Ensures, Wp.bind]
      exact fileRead_moves g count
  | write g buf count =>
      rw [run, Ensures, Wp.bind]
      refine fileWrite_moves g buf count fun hzero p i hp hD' hi => ?_
      rcases hright with hright | hall
      · exact hright hzero p hp i hi
      · exact absurd (hall p) hD'
  | lseek fd offset whence =>
      rw [run, Ensures, Wp.bind]
      exact sysLseek_moves fd offset whence
  | close g =>
      rw [run, Ensures, Wp.bind]
      exact fileClose_moves g

theorem PosSound.posStep {c : Nat × PosCall} (h : PosSound D σ) (hright : writesSome σ c)
    (hstep : posStep σ c = .ok τ) : PosSound D τ := by
  obtain ⟨pr, a, t, hpr, hrun, rfl⟩ := exec_map_eq_ok.mp hstep
  have hD : ∀ p, (σ.enter pr).DirInode p → D p := fun p hp => (h.dirs p).mp ⟨c.1, pr, hpr, hp⟩
  exact h.leave hpr (ensures_iff.mp (PosCall.moves hD (.inl (hright pr hpr))) a t hrun)

/-- No run opens or closes a directory. -/
theorem dirInode_of_run {ok : System → Nat × PosCall → Prop} (hrun : Reach posStep ok σ τ) (p : Ptr) :
    τ.DirInode p ↔ σ.DirInode p := by
  refine hrun.invariant (I := fun τ => τ.DirInode p ↔ σ.DirInode p) Iff.rfl fun ρ c ρ' hρ _ hstep => ?_
  obtain ⟨pr, a, t, hpr, hcall, rfl⟩ := exec_map_eq_ok.mp hstep
  have hmoves := ensures_iff.mp (PosCall.moves (D := fun _ => True) (fun _ _ => True.intro)
    (.inr fun _ => True.intro)) a t hcall
  exact (dirInode_leave hpr hmoves.rootDir hmoves.dirs p).trans hρ

/-- As long as no empty file is written to in no bytes, positions stay inside their files. -/
theorem positionsKept_of_run (h : σ.FilesClosed) (hrun : Reach posStep writesSome σ τ) :
    τ.PositionsKept :=
  (hrun.invariant (I := PosSound σ.DirInode) h.sound fun _ _ _ hs hok hstep =>
    hs.posStep hok hstep).kept

theorem freshSystem_filesClosed : freshSystem.FilesClosed where
  noFile := freshSystem_booted.noFile
  old pid pr p i hpr hi := by
    cases hp : p.user with
    | true =>
        rw [enter_user hp, freshSystem_booted.noInode pid pr p hpr] at hi
        cases hi
    | false =>
        rw [enter_kernel hp] at hi
        exact freshSystem_booted.old p i hi
  apart j _ pr _ p i _ hj _ _ hi _ := by
    rw [freshSystem_booted.noInode j pr p hj] at hi
    cases hi

/-- The file `f` is made and written, and another task reads two of its bytes. -/
theorem positionsKept_reader :
    ∃ τ, Reach posStep writesSome freshSystem τ ∧ τ.PositionsKept ∧
      (τ.kernel.fileTable 4).fdPos = 2 := by
  obtain ⟨τ, hrun, hpos⟩ := exists_reach posStep writesSome freshSystem
    [(0, .create .root [102] 7), (0, .write 3 (fun _ => 97) 5), (1, .open 1 0), (1, .read 4 2)]
    (fun τ => (τ.kernel.fileTable 4).fdPos = 2) (by decide +kernel) (by decide +kernel)
  exact ⟨τ, hrun, positionsKept_of_run freshSystem_filesClosed hrun, hpos⟩

/-- Nothing is written to the new file `f`, and its position wraps. -/
theorem position_wraps :
    ∃ τ, Reach posStep (fun _ _ => True) freshSystem τ ∧ ¬τ.PositionsKept := by
  obtain ⟨τ, hrun, hopen, hpos, hsize, hproc⟩ := exists_reach posStep (fun _ _ => True) freshSystem
    [(0, .create .root [102] 7), (0, .write 3 (fun _ => 97) 0)]
    (fun τ => τ.kernel.OpenOn 3 ⟨false, 2⟩ ∧ (τ.kernel.fileTable 3).fdPos = 0xffffffff ∧
      (τ.kernel.inodes ⟨false, 2⟩).map Inode.iSize = some 0 ∧ (τ.procs 0).isSome)
    (allOk_true _ _) (by decide +kernel)
  refine ⟨τ, hrun, fun hkept => ?_⟩
  obtain ⟨pr, hpr⟩ := Option.isSome_iff_exists.mp hproc
  obtain ⟨i, hi, hzero⟩ := Option.map_eq_some_iff.mp hsize
  have hfile : ¬τ.DirInode ⟨false, 2⟩ := by
    rw [dirInode_of_run hrun]
    rintro ⟨pid, pr, hpr, d, hd⟩
    rw [freshSystem_procs hpr] at hd
    cases d with
    | root =>
        have hroot : (some ⟨false, 0⟩ : Option Ptr) = some ⟨false, 2⟩ := hd
        exact absurd hroot (by decide)
    | heap q =>
        have hnone : ((if q.user then none else none : Option Dir).bind Dir.inode) =
          some ⟨false, 2⟩ := hd
        rw [ite_self] at hnone
        cases hnone
  have hle := hkept 0 pr 3 _ i hpr hopen hfile ((enter_kernel rfl).trans hi)
  rw [hpos, hzero] at hle
  exact absurd hle (by decide)

end

end OsTruth
