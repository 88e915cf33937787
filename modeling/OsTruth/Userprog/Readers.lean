/-
Two readers of one directory.

A reader opens the directory with `sys_opendir` and then calls `sys_readdir`,
`sys_rewinddir` and `sys_closedir` on its handle.  The position and the sector buffer lie
in the `struct dir` behind the handle, so the readers are apart when their handles are
different.  `sys_opendir` allocates a `struct dir`, except for the names of the root
directory, for which it returns the one `root_dir`.
-/
import OsTruth.Fs.DirCalls
import OsTruth.Fs.OneBlock
import OsTruth.Library.Interleave
import OsTruth.Library.Runs
import OsTruth.Userprog.System

namespace OsTruth

open ByteString Fallible Interleave Runs OsTruth.System

inductive DirCall
  | readdir | rewinddir | closedir
  deriving DecidableEq

inductive DirAnswer
  | entry (e : Option DirEntry)
  | done
  | closed (n : Int)

def DirCall.run (dir : Option DirPtr) : DirCall → Kern DirAnswer
  | .readdir => do
      let e ← sysReaddir dir
      pure (.entry e)
  | .rewinddir => do
      sysRewinddir dir
      pure .done
  | .closedir => do
      let n ← sysClosedir dir
      pure (.closed n)

/-- Reader `r` makes a call on its handle. -/
def dirStep (pid : Bool → Nat) (dir : Bool → DirPtr) (σ : System) (r : Bool) (c : DirCall) :
    Except Fault (DirAnswer × System) :=
  σ.exec (pid r) (c.run (some (dir r)))

/-- The root directory is open, and no file in a user heap has the number of the directory
`n`. -/
structure DirReady (σ : System) (n : UInt32) : Prop where
  root : ∃ p i, σ.kernel.rootDir.inode = some p ∧ p.user = false ∧ σ.kernel.inodes p = some i ∧
    1 ≤ i.iOpenCnts
  old : ∀ k pr p i, σ.procs k = some pr → (σ.enter pr).inodes p = some i → p.id < σ.kernel.next
  files : ∀ k pr p i, σ.procs k = some pr → p.user = true → pr.inodes p = some i → i.iNo ≠ n

/-- The number of the directory that task `pid` has open behind a handle. -/
def System.dirNumber (σ : System) (pid : Nat) (dir : DirPtr) : Option UInt32 := do
  let pr ← σ.procs pid
  let d ← (σ.enter pr).dirOf dir
  let p ← d.inode
  let i ← (σ.enter pr).inodes p
  pure i.iNo

/-- Task `pid` opens the directory `n` under the name `name`. -/
structure OpensDir (σ τ : System) (pid : Nat) (name : Str) (dir : DirPtr) (n : UInt32) : Prop where
  call : σ.exec pid (sysOpendir name) = .ok (some dir, τ)
  on : τ.dirNumber pid dir = some n

/-- Reader `false` opens the directory `n` and reads in it, and then reader `true` opens it:
`σ` is the state before that and `τ` the state afterwards. -/
structure TwoReaders (pid : Bool → Nat) (name : Bool → Str) (dir : Bool → DirPtr) (n : UInt32)
    (σ τ : System) : Prop where
  first : ∃ ρ ρ', DirReady ρ n ∧ OpensDir ρ ρ' (pid false) (name false) (dir false) n ∧
    Reach (fun ρ c => (dirStep pid dir ρ false c).map Prod.snd) (fun _ c => c ≠ .closedir) ρ' σ
  second : OpensDir σ τ (pid true) (name true) (dir true) n

theorem OpensDir.inode {σ τ : System} {pid : Nat} {name : Str} {dir : DirPtr} {n : UInt32}
    (h : OpensDir σ τ pid name dir n) : ∃ pr d p i, τ.procs pid = some pr ∧
      (τ.enter pr).dirOf dir = some d ∧ d.inode = some p ∧ (τ.enter pr).inodes p = some i ∧
      i.iNo = n := by
  have hon := h.on
  simp only [System.dirNumber, Option.bind_eq_bind, Option.bind_eq_some_iff, Option.pure_def,
    Option.some.injEq] at hon
  obtain ⟨pr, hpr, d, hd, p, hp, i, hi, hno⟩ := hon
  exact ⟨pr, d, p, i, hpr, hd, hp, hi, hno⟩

/-! ## Readers with a `struct dir` each -/

/-- What stays the same while the readers read: their tasks, their handles and the inodes
behind them, and a state `base` with the directory on its disk. -/
structure Readers where
  pid : Bool → Nat
  dir : Bool → DirPtr
  ptr : Bool → Ptr
  inode : Bool → Inode
  root : Ptr
  n : UInt32
  base : State

namespace Readers

variable (R : Readers)

/-- What a reader does to its own `struct dir`, which is `none` when it is closed. -/
def locally (r : Bool) : Option Dir → DirCall → Except Fault (DirAnswer × Option Dir)
  | none, _ => .error .undefined
  | some d, .readdir =>
      ((readEntry (R.inode r) d).run R.base).map fun x => (.entry x.1.1, some x.1.2)
  | some d, .rewinddir => .ok (.done, some { d with dirPos := 0 })
  | some d, .closedir => .ok (.closed 0, if R.dir r = .root then some d else none)

/-- The reference of one reader to the inode at `p`. -/
def held (f : Bool → Option Dir) (r : Bool) (p : Ptr) : Nat :=
  if (f r).isSome ∧ R.dir r ≠ .root ∧ R.ptr r = p then 1 else 0

/-- The references of the root directory and of the readers. -/
def refs (f : Bool → Option Dir) (p : Ptr) : Nat :=
  (if p = R.root then 1 else 0) + (R.held f false p + R.held f true p)

/-- The `struct dir` of reader `r`, with its inode. -/
structure Open (t : State) (r : Bool) (d : Dir) : Prop where
  inode : d.inode = some (R.ptr r)
  kernel : (R.ptr r).user = false
  root : R.dir r = .root → R.ptr r = R.root
  content : ∃ i, t.inodes (R.ptr r) = some i ∧ i.content = (R.inode r).content

/-- The system follows the `struct dir`s of the readers in `P`. -/
structure Tracks (P : Bool → Prop) (σ : System) (f : Bool → Option Dir) : Prop where
  counted : ∀ k pr, σ.procs k = some pr → Counted (σ.enter pr) (R.refs f)
  files : ∀ k pr p i, σ.procs k = some pr → p.user = true → pr.inodes p = some i → i.iNo ≠ R.n
  medium : σ.kernel.medium = R.base.medium
  root : σ.kernel.rootDir.inode = some R.root
  own : ∀ r, P r → ∃ pr, σ.procs (R.pid r) = some pr ∧ (σ.enter pr).dirOf (R.dir r) = f r ∧
    σ.kernel.HasDir (R.dir r) ∧ ∀ q, R.dir r = .heap q → q.user = pr.task.pgdir
  opened : ∀ r d, f r = some d → R.Open σ.kernel r d

variable {R} {P : Bool → Prop} {σ : System} {pr : Proc} {s t : State} {f : Bool → Option Dir}
variable {r : Bool} {d : Dir} {x : Option Dir}

theorem held_other {k : Bool} (hk : k ≠ r) (p : Ptr) :
    R.held (Function.update f r x) k p = R.held f k p := by
  simp [held, Function.update_of_ne hk]

/-- Reader `r` opens or closes its handle. -/
theorem refs_update (f : Bool → Option Dir) (r : Bool) (x : Option Dir) (p : Ptr) :
    R.refs (Function.update f r x) p + R.held f r p =
      R.refs f p + R.held (Function.update f r x) r p := by
  unfold refs
  cases r with
  | false =>
      rw [held_other (k := true) (r := false) (by decide)]
      omega
  | true =>
      rw [held_other (k := false) (r := true) (by decide)]
      omega

/-- A reader that is open refers to its inode, and so does the root directory. -/
theorem refs_pos (hd : f r = some d) (hroot : R.dir r = .root → R.ptr r = R.root) :
    0 < R.refs f (R.ptr r) := by
  unfold refs
  by_cases hdir : R.dir r = .root
  · rw [if_pos (hroot hdir)]
    omega
  · have hheld : R.held f r (R.ptr r) = 1 := if_pos ⟨by rw [hd]; rfl, hdir, rfl⟩
    cases r with
    | false => omega
    | true => omega

/-- A read leaves the references as they are. -/
theorem refs_same (hx : (f r).isSome = x.isSome) : R.refs (Function.update f r x) = R.refs f := by
  funext p
  have h := R.refs_update f r x p
  have hheld : R.held (Function.update f r x) r p = R.held f r p := by
    unfold held
    rw [Function.update_self, hx]
  omega

theorem refs_of_root (hdir : R.dir r = .root) : R.refs (Function.update f r x) = R.refs f := by
  funext p
  have h := R.refs_update f r x p
  have hheld : ∀ g, R.held g r p = 0 := fun g => if_neg fun hg => hg.2.1 hdir
  rw [hheld, hheld] at h
  exact h

/-- An open handle that is not the root directory is one reference. -/
theorem refs_some (hx : f r = none) (hdir : R.dir r ≠ .root) (d : Dir) :
    R.refs (Function.update f r (some d)) = bump (R.refs f) (R.ptr r) := by
  funext p
  have h := R.refs_update f r (some d) p
  have hzero : R.held f r p = 0 := if_neg (by simp [hx])
  have hself : R.held (Function.update f r (some d)) r p = if R.ptr r = p then 1 else 0 := by
    unfold held
    rw [Function.update_self]
    simp [hdir]
  rw [hzero, hself] at h
  unfold bump
  by_cases hp : p = R.ptr r
  · rw [if_pos hp.symm] at h
    rw [if_pos hp]
    exact h
  · rw [if_neg (Ne.symm hp)] at h
    rw [if_neg hp]
    exact h

theorem dirOf_leave_self {pid : Nat} (dir : DirPtr) :
    ((σ.leave pid t).enter (procOf t)).dirOf dir = t.dirOf dir := by
  cases dir with
  | root => rfl
  | heap q => exact ite_self _

theorem dirOf_leave_other {pid : Nat} {pr' : Proc} {dir : DirPtr}
    (h : t.dirOf dir = (σ.enter pr).dirOf dir) :
    ((σ.leave pid t).enter pr').dirOf dir = (σ.enter pr').dirOf dir := by
  cases dir with
  | root => exact h
  | heap q =>
      show (if q.user then pr'.dirs q else t.dirs q) = if q.user then pr'.dirs q else σ.kernel.dirs q
      cases hq : q.user with
      | true => rfl
      | false =>
          rw [if_neg Bool.false_ne_true, if_neg Bool.false_ne_true]
          exact Eq.trans h (if_neg (by rw [hq]; exact Bool.false_ne_true))

/-- Reader `r` ran and left its `struct dir` as `x`. -/
theorem Tracks.leave {P' : Bool → Prop} {S : DirPtr → Prop} {g : Bool → Option Dir}
    (h : R.Tracks P σ f) (hpr : σ.procs (R.pid r) = some pr)
    (hothers : ∀ k, k ≠ r → P' k → P k ∧ S (R.dir k)) (hg : ∀ k, k ≠ r → g k = f k)
    (ht : Spares S (R.refs g) (σ.enter pr) t)
    (hcounted : Counted t (R.refs (Function.update f r x)))
    (hdir : t.dirOf (R.dir r) = x) (hhas : t.HasDir (R.dir r))
    (huser : ∀ q, R.dir r = .heap q → q.user = pr.task.pgdir)
    (hopen : ∀ d, x = some d → R.Open t r d) :
    R.Tracks P' (σ.leave (R.pid r) t) (Function.update f r x) where
  counted k pr' hk := counted_leave (fun k' pr₁ p i hpr₁ => (h.counted k' pr₁ hpr₁).old p i)
    hcounted ht.next hk
  files k pr' p i hk hp hi := by
    by_cases hkp : k = R.pid r
    · rw [hkp] at hk
      have hpr' : procOf t = pr' := Option.some.inj ((if_pos rfl).symm.trans hk)
      rw [← hpr'] at hi
      have hcontent := ht.user p hp
      rw [show t.inodes p = some i from hi, enter_user hp, Option.map_some] at hcontent
      obtain ⟨j, hj, hji⟩ := Option.map_eq_some_iff.mp hcontent.symm
      have hno : j.iNo = i.iNo := congrArg Prod.fst hji
      rw [← hno]
      exact h.files _ pr p j hpr hp hj
    · exact h.files k pr' p i ((if_neg hkp).symm.trans hk) hp hi
  medium := ht.medium.trans h.medium
  root := ht.rootInode.trans h.root
  own k hk := by
    have hcur : t.cur = pr.task := ht.cur
    by_cases hkr : k = r
    · rw [hkr]
      refine ⟨procOf t, if_pos rfl, ?_, hhas, fun q hq => ?_⟩
      · rw [dirOf_leave_self, hdir, Function.update_self]
      · rw [huser q hq]
        exact congrArg Task.pgdir hcur.symm
    · obtain ⟨hPk, hSk⟩ := hothers k hkr hk
      obtain ⟨pr', hpr', hdir', hhas', huser'⟩ := h.own k hPk
      have hsame := ht.dirs _ hSk
      rw [Function.update_of_ne hkr]
      by_cases hpid : R.pid k = R.pid r
      · rw [hpid, hpr, Option.some.injEq] at hpr'
        refine ⟨procOf t, if_pos hpid, ?_, hhas'.mono ht.next, fun q hq => ?_⟩
        · rw [dirOf_leave_self, hsame, ← hdir', hpr']
        · rw [huser' q hq, ← hpr']
          exact congrArg Task.pgdir hcur.symm
      · refine ⟨pr', (if_neg hpid).trans hpr', ?_, hhas'.mono ht.next, huser'⟩
        rw [dirOf_leave_other hsame, hdir']
  opened k d hk := by
    by_cases hkr : k = r
    · rw [hkr] at hk ⊢
      rw [Function.update_self] at hk
      exact hopen d hk
    · have hfk : f k = some d := by rw [← hk, Function.update_of_ne hkr]
      obtain ⟨hinode, hkernel, hroot, i, hi, hcontent⟩ := h.opened k d hfk
      -- the reference of reader `k` keeps its inode
      obtain ⟨j, hj, hji⟩ := ht.inodes (R.ptr k) i ((enter_kernel hkernel).trans hi)
        (Or.inr (refs_pos ((hg k hkr).trans hfk) hroot))
      exact ⟨hinode, hkernel, hroot, j, hj, hji.trans hcontent⟩

/-! ## The three calls -/

theorem wp_readdir {dir : DirPtr} {p : Ptr} {i j : Inode} {u : State} {F : Fault → Prop}
    {Q : DirAnswer → State → Prop} (hd : s.dirOf dir = some d) (hp : d.inode = some p)
    (hi : s.inodes p = some i) (hcontent : i.content = j.content) (hmedium : s.medium = u.medium) :
    Wp (DirCall.readdir.run (some dir)) s F Q ↔
      Wp (readEntry j d) u F fun y _ => Q (.entry y.1) (s.setDirOf dir y.2) := by
  simp only [Inode.content, Prod.mk.injEq] at hcontent
  unfold DirCall.run sysReaddir
  rw [Wp.bind, Wp.bind, wp_kassert, and_iff_left (fun h => absurd nofun h), forall_prop_of_true nofun]
  show Wp (dirRead dir) s F _ ↔ _
  rw [wp_dirRead hd hp hi, readEntry_congr hcontent.2.1 hcontent.2.2,
    (readEntry_observes j d).wp_iff hmedium.symm]
  rfl

theorem wp_rewinddir {dir : DirPtr} {F : Fault → Prop} {Q : DirAnswer → State → Prop}
    (hd : s.dirOf dir = some d) : Wp (DirCall.rewinddir.run (some dir)) s F Q ↔
      Q .done (s.setDirOf dir { d with dirPos := 0 }) := by
  unfold DirCall.run sysRewinddir
  rw [Wp.bind, Wp.bind, wp_loadDir]
  simp only [hd, Option.some.injEq, forall_eq', reduceCtorEq, false_implies, and_true]
  rw [wp_storeDir]
  rfl

/-- A handle that was closed is `NULL` or dangles. -/
theorem run_closed {dir : DirPtr} (hd : s.dirOf dir = none) (c : DirCall) :
    Wp (c.run (some dir)) s (fun _ => True) fun _ _ => False := by
  cases dir with
  | root => cases hd
  | heap q =>
      have hdir : Wp (dirInode (.heap q)) s (fun _ => True) fun _ _ => False := by
        rw [wp_dirInode]
        refine ⟨fun p hp => ?_, fun _ => True.intro⟩
        have hnone : s.inodeOf (.heap q) = none := by
          show (s.dirs q).bind _ = none
          rw [show s.dirs q = none from hd]
          rfl
        rw [hnone] at hp
        cases hp
      have hread : Wp (dirRead (.heap q)) s (fun _ => True) fun _ _ => False := by
        unfold dirRead
        rw [Wp.bind]
        exact hdir.call fun _ _ => False.elim
      cases c with
      | readdir =>
          unfold DirCall.run sysReaddir
          rw [Wp.bind, Wp.bind, wp_kassert]
          exact ⟨fun _ => hread.call fun _ _ => False.elim, fun _ => True.intro⟩
      | rewinddir =>
          unfold DirCall.run sysRewinddir
          rw [Wp.bind, Wp.bind, wp_loadDir, hd]
          exact ⟨nofun, fun _ => True.intro⟩
      | closedir =>
          unfold DirCall.run sysClosedir dirClose
          rw [Wp.bind, Wp.bind, Wp.bind]
          exact hdir.call fun _ _ => False.elim

/-! ## One call -/

theorem dirStep_returns {pid : Bool → Nat} {dir : Bool → DirPtr} {c : DirCall} {a : DirAnswer}
    {I : System → Prop} (hpr : σ.procs (pid r) = some pr)
    (hrun : Returns (c.run (some (dir r))) (σ.enter pr) fun b t => b = a ∧ I (σ.leave (pid r) t)) :
    ∃ τ, dirStep pid dir σ r c = .ok (a, τ) ∧ I τ := by
  obtain ⟨b, t, ht, rfl, hI⟩ := returns_iff.mp hrun
  exact ⟨_, exec_eq_ok.mpr ⟨pr, t, hpr, ht, rfl⟩, hI⟩

theorem dirStep_fails {pid : Bool → Nat} {dir : Bool → DirPtr} {c : DirCall}
    (hpr : σ.procs (pid r) = some pr)
    (hrun : Wp (c.run (some (dir r))) (σ.enter pr) (fun _ => True) fun _ _ => False) :
    ∃ e, dirStep pid dir σ r c = .error e := by
  cases hstep : dirStep pid dir σ r c with
  | error e => exact ⟨e, rfl⟩
  | ok y =>
      obtain ⟨pr', t, hpr', ht, -⟩ := exec_eq_ok.mp hstep
      rw [hpr, Option.some.injEq] at hpr'
      rw [← hpr'] at ht
      exact (ensures_iff.mp hrun _ _ ht).elim

theorem setDirOf_root (hd : s.dirOf .root = some d) : s.setDirOf .root d = s := by
  cases hd
  rfl

/-- Reader `r` stores its `struct dir`. -/
theorem Tracks.store {d' : Dir} (h : R.Tracks P σ f) (hr : P r)
    (hapart : ∀ k, P k → k ≠ r → R.dir k ≠ R.dir r) (hpr : σ.procs (R.pid r) = some pr)
    (hf : f r = some d) (hinode : d'.inode = d.inode) :
    R.Tracks P (σ.leave (R.pid r) ((σ.enter pr).setDirOf (R.dir r) d'))
      (Function.update f r (some d')) := by
  obtain ⟨pr', hpr', hdir, hhas, huser⟩ := h.own r hr
  rw [hpr, Option.some.injEq] at hpr'
  rw [← hpr'] at hdir huser
  rw [hf] at hdir
  have hspares := setDirOf_spares (h := R.refs (Function.update f r (some d'))) hdir hinode
  have hinodes : ((σ.enter pr).setDirOf (R.dir r) d').inodes = (σ.enter pr).inodes := by
    cases R.dir r with
    | root => rfl
    | heap q => rfl
  have hsame : R.refs (Function.update f r (some d')) = R.refs f := refs_same (by rw [hf]; rfl)
  refine h.leave hpr (fun k hk hPk => ⟨hPk, hapart k hPk hk⟩)
    (fun k hk => Function.update_of_ne hk _ f) hspares ?_ dirOf_setDirOf
    (State.HasDir.mono (s := σ.kernel) hhas hspares.next) huser ?_
  · rw [hsame]
    exact (h.counted _ pr hpr).congr hinodes hspares.next
  · intro e he
    cases he
    obtain ⟨hi, hkernel, hroot, i, hp, hcontent⟩ := h.opened r d hf
    refine ⟨hinode.trans hi, hkernel, hroot, i, ?_, hcontent⟩
    rw [hinodes, enter_kernel hkernel, hp]

/-- Reader `r` closes a handle that is not the root directory. -/
theorem Tracks.close (h : R.Tracks P σ f) (hr : P r)
    (hapart : ∀ k, P k → k ≠ r → R.dir k ≠ R.dir r) (hpr : σ.procs (R.pid r) = some pr)
    (hf : f r = some d) (hdir : R.dir r ≠ .root) :
    Returns (dirClose (R.dir r)) (σ.enter pr) fun _ t =>
      R.Tracks P (σ.leave (R.pid r) t) (Function.update f r none) := by
  obtain ⟨pr', hpr', hdirOf, hhas, huser⟩ := h.own r hr
  rw [hpr, Option.some.injEq] at hpr'
  rw [← hpr'] at hdirOf huser
  rw [hf] at hdirOf
  obtain ⟨hinode, hkernel, -, -⟩ := h.opened r d hf
  have hrefs : R.refs f = bump (R.refs (Function.update f r none)) (R.ptr r) := by
    rw [← refs_some (by rw [Function.update_self]) hdir d, Function.update_idem, ← hf,
      Function.update_eq_self]
  have hcounted := h.counted _ pr hpr
  rw [hrefs] at hcounted
  cases hq : R.dir r with
  | root => exact absurd hq hdir
  | heap q =>
      rw [hq] at hdirOf
      have hheld : Held (σ.enter pr) (R.refs (Function.update f r none)) (.heap q) :=
        ⟨d, R.ptr r, hdirOf, hinode, hcounted⟩
      refine (((dirClose_returns hdirOf hinode hcounted hkernel (huser q hq)).and
        (dirClose_counted hheld)).and (dirClose_spares hheld)).call fun _ t ht => ?_
      obtain ⟨⟨hclosed, hcounted', -⟩, hspares⟩ := ht
      refine h.leave hpr (fun k hk hPk => ⟨hPk, ?_⟩) (fun k hk => Function.update_of_ne hk _ f)
        hspares hcounted' ?_ ?_ huser nofun
      · rw [← hq]
        exact Or.inl (hapart k hPk hk)
      · rw [hq]
        exact hclosed
      · exact State.HasDir.mono (s := σ.kernel) hhas hspares.next

theorem follows (hapart : ∀ k r, P k → P r → k ≠ r → R.dir k ≠ R.dir r) :
    Follows P (dirStep R.pid R.dir) R.locally (R.Tracks P) := by
  intro σ f r c hr h
  obtain ⟨pr, hpr, hdir, -, -⟩ := h.own r hr
  have hothers : ∀ k, P k → k ≠ r → R.dir k ≠ R.dir r := fun k hk => hapart k r hk hr
  cases hf : f r with
  | none =>
      rw [hf] at hdir
      exact dirStep_fails hpr (run_closed hdir c)
  | some d =>
      rw [hf] at hdir
      have hstore : ∀ d' : Dir, d'.inode = d.inode → R.Tracks P (σ.leave (R.pid r)
          ((σ.enter pr).setDirOf (R.dir r) d')) (Function.update f r (some d')) :=
        fun d' hd' => h.store hr hothers hpr hf hd'
      cases c with
      | readdir =>
          obtain ⟨hinode, hkernel, -, i, hi, hcontent⟩ := h.opened r d hf
          have hread := fun F Q => wp_readdir (F := F) (Q := Q) (u := R.base) hdir hinode
            ((enter_kernel hkernel).trans hi) hcontent h.medium
          rw [locally]
          cases hrun : (readEntry (R.inode r) d).run R.base with
          | error e =>
              refine dirStep_fails hpr ((hread _ _).mpr ?_)
              unfold Wp
              rw [hrun]
              exact True.intro
          | ok y =>
              have hkeep := ensures_iff.mp (readEntry_inode (R.inode r) d R.base) y.1 y.2 hrun
              refine dirStep_returns hpr ((hread _ _).mpr ?_)
              unfold Wp
              rw [hrun]
              exact ⟨rfl, hstore y.1.2 hkeep⟩
      | rewinddir => exact dirStep_returns hpr ((wp_rewinddir hdir).mpr ⟨rfl, hstore _ rfl⟩)
      | closedir =>
          refine dirStep_returns hpr ?_
          unfold DirCall.run sysClosedir
          rw [Returns, Wp.bind, Wp.bind]
          by_cases hroot : R.dir r = .root
          · have hkeep := hstore d rfl
            rw [hroot] at hdir hkeep
            rw [if_pos hroot, hroot]
            refine ⟨rfl, ?_⟩
            rw [setDirOf_root hdir] at hkeep
            exact hkeep
          · rw [if_neg hroot]
            exact (h.close hr hothers hpr hf hroot).call fun _ t ht => ⟨rfl, ht⟩

/-! ## Opening -/

/-- Reader `r` opens a handle on the inode that `R` has for it. -/
theorem Tracks.opens {Q : Bool → Prop} {τ : System} {name : Str} {i : Inode}
    (h : R.Tracks P σ f) (hP : ∀ k, Q k → P k ∨ k = r) (hr : f r = none) (hopens : OpensDir σ τ (R.pid r) name (R.dir r) R.n)
    (hon : ∃ pr d, τ.procs (R.pid r) = some pr ∧ (τ.enter pr).dirOf (R.dir r) = some d ∧
      d.inode = some (R.ptr r) ∧ (τ.enter pr).inodes (R.ptr r) = some i ∧ i.iNo = R.n ∧
      i.content = (R.inode r).content) :
    (∃ d, R.Tracks Q τ (Function.update f r (some d))) ∧
      ((opensRoot name ∧ R.dir r = .root) ∨
        (R.dir r ≠ .root ∧ ∀ k, P k → R.dir k ≠ R.dir r)) := by
  obtain ⟨pr, t, hpr, hrun, rfl⟩ := exec_eq_ok.mp hopens.call
  have ho := ensures_iff.mp (sysOpendir_opendir (h.counted _ pr hpr) name) _ _ hrun
  obtain ⟨pr', d, hpr', hdir, hinode, hi, hno, hcontent⟩ := hon
  have hself : procOf t = pr' := Option.some.inj ((if_pos rfl).symm.trans hpr')
  rw [← hself, dirOf_leave_self] at hdir
  rw [← hself, enter_leave_self] at hi
  have hkernel : (R.ptr r).user = false := by
    cases huser : (R.ptr r).user with
    | false => rfl
    | true =>
        have hsame := ho.spares.user _ huser
        rw [hi, enter_user huser, Option.map_some] at hsame
        obtain ⟨j, hj, hji⟩ := Option.map_eq_some_iff.mp hsame.symm
        exact absurd ((congrArg Prod.fst hji).trans hno) (h.files _ pr _ j hpr huser hj)
  have hothers : ∀ k, k ≠ r → Q k → P k ∧ (σ.enter pr).HasDir (R.dir k) := by
    intro k hk hPk
    have hold := (hP k hPk).resolve_right hk
    obtain ⟨-, -, -, hhas, -⟩ := h.own k hold
    exact ⟨hold, hhas⟩
  by_cases hroot : opensRoot name
  · obtain ⟨hr₀, hcounted⟩ := ho.root hroot
    rw [Option.some.injEq] at hr₀
    have hptr : R.ptr r = R.root := by
      rw [hr₀] at hdir
      cases hdir
      rw [ho.spares.rootInode] at hinode
      exact Option.some.inj (hinode.symm.trans h.root)
    refine ⟨⟨d, h.leave hpr hothers (fun _ _ => rfl) ho.spares ?_ hdir ?_ ?_ ?_⟩,
      Or.inl ⟨hroot, hr₀⟩⟩
    · rw [refs_of_root hr₀]
      exact hcounted
    · rw [hr₀]
      exact True.intro
    · intro q hq
      rw [hr₀] at hq
      cases hq
    · intro e he
      cases he
      exact ⟨hinode, hkernel, fun _ => hptr, i, hi, hcontent⟩
  · obtain ⟨hne, hown⟩ := ho.own hroot
    cases hq : R.dir r with
    | root => exact absurd (congrArg some hq) hne
    | heap q =>
        obtain ⟨hnew, hold, huser, p, j, hd, -, hcounted⟩ := hown q (congrArg some hq)
        rw [hq] at hdir
        have hp : p = R.ptr r := by
          rw [show d = { Dir.zero with inode := some p } from
            Option.some.inj (hdir.symm.trans hd)] at hinode
          exact Option.some.inj hinode
        have hnotroot : R.dir r ≠ .root := by
          rw [hq]
          nofun
        refine ⟨⟨d, h.leave hpr hothers (fun _ _ => rfl) ho.spares ?_ ?_ ?_ ?_ ?_⟩,
          Or.inr ⟨nofun, ?_⟩⟩
        · rw [refs_some hr hnotroot, ← hp]
          exact hcounted
        · rw [hq]
          exact hdir
        · rw [hq]
          exact hold
        · intro q' hq'
          rw [hq] at hq'
          cases hq'
          exact huser
        · intro e he
          cases he
          exact ⟨hinode, hkernel, fun hdir' => absurd hdir' hnotroot, i, hi, hcontent⟩
        · intro k hPk heq
          obtain ⟨-, -, -, hhas, -⟩ := h.own k hPk
          rw [heq] at hhas
          exact absurd hhas (Nat.not_lt.mpr hnew)

/-- Before the first reader opens. -/
theorem tracks_ready (hready : DirReady σ R.n) (hroot : σ.kernel.rootDir.inode = some R.root)
    (hbase : R.base = σ.kernel) : R.Tracks (fun _ => False) σ fun _ => none where
  counted k pr hk := by
    refine ⟨fun p i => hready.old k pr p i hk, fun p hp hpos => ?_⟩
    obtain ⟨p₀, i, hp₀, -, hi, hcnt⟩ := hready.root
    have hrefs : R.refs (fun _ => none) p = if p = R.root then 1 else 0 := by
      simp [refs, held]
    rw [hrefs] at hpos ⊢
    by_cases heq : p = R.root
    · rw [hroot, Option.some.injEq, ← heq] at hp₀
      rw [← hp₀] at hi
      rw [if_pos heq]
      exact ⟨i, (enter_kernel hp).trans hi, hcnt⟩
    · rw [if_neg heq] at hpos
      exact absurd hpos (Nat.lt_irrefl 0)
  files := hready.files
  medium := by rw [hbase]
  root := hroot
  own _ := False.elim
  opened _ _ := nofun

/-- Reading keeps a handle open. -/
theorem locally_open {c : DirCall} {a : DirAnswer} (hc : c ≠ .closedir)
    (h : R.locally r (some d) c = .ok (a, x)) : ∃ d', x = some d' := by
  cases c with
  | readdir =>
      rw [locally] at h
      cases hrun : (readEntry (R.inode r) d).run R.base with
      | error e =>
          rw [hrun] at h
          cases h
      | ok y =>
          rw [hrun] at h
          cases h
          exact ⟨_, rfl⟩
  | rewinddir =>
      cases h
      exact ⟨_, rfl⟩
  | closedir => exact absurd rfl hc

theorem Tracks.reads {τ : System} {c : DirCall} {a : DirAnswer} (h : R.Tracks P σ f) (hr : P r)
    (hapart : ∀ k r, P k → P r → k ≠ r → R.dir k ≠ R.dir r) (hf : f r = some d)
    (hc : c ≠ .closedir) (hstep : dirStep R.pid R.dir σ r c = .ok (a, τ)) :
    ∃ d', R.Tracks P τ (Function.update f r (some d')) := by
  have hfollows := follows hapart σ f r c hr h
  rw [hf] at hfollows
  cases hlocal : R.locally r (some d) c with
  | error e =>
      rw [hlocal] at hfollows
      obtain ⟨e', he⟩ := hfollows
      rw [he] at hstep
      cases hstep
  | ok y =>
      obtain ⟨b, x⟩ := y
      rw [hlocal] at hfollows
      obtain ⟨τ', hτ', htracks⟩ := hfollows
      rw [hτ'] at hstep
      cases hstep
      obtain ⟨d', rfl⟩ := locally_open hc hlocal
      exact ⟨d', htracks⟩

end Readers

/-- Two readers are apart, unless both of them opened the directory under a name of the
root.  For reader `false` it does not even matter that the other one opened it. -/
theorem readers_apart {pid : Bool → Nat} {name : Bool → Str} {dir : Bool → DirPtr} {n : UInt32}
    {σ τ : System} (h : TwoReaders pid name dir n σ τ)
    (hnames : ¬(opensRoot (name false) ∧ opensRoot (name true))) :
    Apart (dirStep pid dir) τ ∧ ∀ l os, play (dirStep pid dir) σ (only false l) = .ok os ↔
      play (dirStep pid dir) τ (only false l) = .ok os := by
  obtain ⟨ρ, ρ', hready, hfirst, hreads⟩ := h.first
  obtain ⟨p₀, -, hp₀, -⟩ := hready.root
  obtain ⟨prA, dA, pA, iA, hprA, hdirA, hinodeA, hiA, hnoA⟩ := hfirst.inode
  obtain ⟨prB, dB, pB, iB, hprB, hdirB, hinodeB, hiB, hnoB⟩ := h.second.inode
  let R : Readers := ⟨pid, dir, fun r => if r then pB else pA, fun r => if r then iB else iA, p₀, n,
    ρ.kernel⟩
  have h₀ : R.Tracks (fun _ => False) ρ fun _ => none := Readers.tracks_ready hready hp₀ rfl
  obtain ⟨⟨d, h₁⟩, hA⟩ := h₀.opens (Q := (· = false)) (r := false) (fun _ => Or.inr) rfl hfirst
    ⟨prA, dA, hprA, hdirA, hinodeA, hiA, hnoA, rfl⟩
  have hone : ∀ k r, k = false → r = false → k ≠ r → R.dir k ≠ R.dir r := by
    rintro k r rfl rfl hne
    exact absurd rfl hne
  have h₂ : ∃ d, R.Tracks (· = false) σ (Function.update (fun _ => none) false (some d)) := by
    refine hreads.invariant (I := fun σ => ∃ d, R.Tracks (· = false) σ
      (Function.update (fun _ => none) false (some d))) ⟨d, h₁⟩ ?_
    rintro s c t ⟨d, hs⟩ hc hstep
    cases hcall : dirStep pid dir s false c with
    | error e =>
        rw [hcall] at hstep
        cases hstep
    | ok y =>
        rw [hcall] at hstep
        cases hstep
        obtain ⟨d', hd'⟩ := hs.reads rfl hone rfl hc hcall
        exact ⟨d', by rwa [Function.update_idem] at hd'⟩
  obtain ⟨d₂, h₂⟩ := h₂
  have hboth : ∀ k : Bool, True → k = false ∨ k = true := fun k _ => by cases k <;> simp
  obtain ⟨⟨d₃, h₃⟩, hB⟩ := h₂.opens (Q := fun _ => True) (r := true) hboth rfl h.second
    ⟨prB, dB, hprB, hdirB, hinodeB, hiB, hnoB, rfl⟩
  have hne : dir false ≠ dir true := by
    rcases hB with ⟨hrootB, hdirB⟩ | ⟨-, hnew⟩
    · rcases hA with ⟨hrootA, -⟩ | ⟨hdirA, -⟩
      · exact absurd ⟨hrootA, hrootB⟩ hnames
      · intro heq
        exact hdirA (heq.trans hdirB)
    · exact hnew false rfl
  have hapart : ∀ k r, True → True → k ≠ r → R.dir k ≠ R.dir r := by
    intro k r _ _ hkr
    cases k with
    | false =>
        cases r with
        | false => exact absurd rfl hkr
        | true => exact hne
    | true =>
        cases r with
        | false => exact hne.symm
        | true => exact absurd rfl hkr
  have hfollows := Readers.follows (P := fun _ => True) hapart
  refine ⟨hfollows.apart h₃, fun l os => ?_⟩
  have hfalse : (false = false) ∧ True := ⟨rfl, True.intro⟩
  exact (Readers.follows hone).only_iff hfollows hfalse h₂ h₃ rfl l os

/-! ## Readers of one directory -/

/-- Reader `false` is a kernel thread and reader `true` a process. -/
def readerPid (r : Bool) : Nat := if r then 1 else 0

def subSystem : System := { freshSystem with kernel := subState }

/-- Only the root directory is open. -/
theorem dirReady_of_root {s : State} {i : Inode} (n : UInt32)
    (hroot : s.rootDir.inode = some ⟨false, 0⟩)
    (hinodes : ∀ p, s.inodes p = if p = ⟨false, 0⟩ then some i else none) (hcnt : 1 ≤ i.iOpenCnts)
    (hnext : 0 < s.next) : DirReady { freshSystem with kernel := s } n where
  root := ⟨⟨false, 0⟩, i, hroot, rfl, by rw [hinodes, if_pos rfl], hcnt⟩
  old k pr p j hpr hj := by
    rw [freshSystem_procs hpr] at hj
    cases hp : p.user with
    | true =>
        rw [enter_user hp] at hj
        cases hj
    | false =>
        rw [enter_kernel hp, hinodes] at hj
        by_cases heq : p = ⟨false, 0⟩
        · rw [heq]
          exact hnext
        · rw [if_neg heq] at hj
          cases hj
  files k pr p i hpr _ hi := by
    rw [freshSystem_procs hpr] at hi
    cases hi

theorem subSystem_ready : DirReady subSystem 1 :=
  dirReady_of_root 1 rfl (fun _ => rfl) (Nat.le_refl _) Nat.one_pos

theorem freshSystem_ready : DirReady freshSystem 0 :=
  dirReady_of_root 0 rfl (fun _ => rfl) (Nat.le_refl _) Nat.one_pos

/-- Task `pid` opens the directory `n`, and `k` is true of its handle. -/
def opensThen (σ : System) (pid : Nat) (name : Str) (n : UInt32) (k : DirPtr → System → Bool) :
    Bool :=
  match σ.exec pid (sysOpendir name) with
  | .ok (some d, τ) => τ.dirNumber pid d = some n && k d τ
  | _ => false

theorem opensThen_eq_true {σ : System} {pid : Nat} {name : Str} {n : UInt32}
    {k : DirPtr → System → Bool} (h : opensThen σ pid name n k = true) :
    ∃ d τ, OpensDir σ τ pid name d n ∧ k d τ = true := by
  unfold opensThen at h
  cases hexec : σ.exec pid (sysOpendir name) with
  | error e =>
      rw [hexec] at h
      cases h
  | ok y =>
      obtain ⟨ret, τ⟩ := y
      rw [hexec] at h
      cases ret with
      | none => cases h
      | some d =>
          obtain ⟨hon, hk⟩ := (Bool.and_eq_true _ _).mp h
          exact ⟨d, τ, ⟨hexec, of_decide_eq_true hon⟩, hk⟩

/-- Both readers open under the same name, the one after the other. -/
theorem twoReaders_of_opensThen {σ : System} {n : UInt32} (name : Str)
    (k : (Bool → DirPtr) → System → Bool) (hready : DirReady σ n)
    (h : (opensThen σ 0 name n fun d τ => opensThen τ 1 name n fun d' υ =>
      k (fun r => if r then d' else d) υ) = true) :
    ∃ dir τ υ, TwoReaders readerPid (fun _ => name) dir n τ υ ∧ k dir υ = true := by
  obtain ⟨d, τ, hfirst, h⟩ := opensThen_eq_true h
  obtain ⟨d', υ, hsecond, hk⟩ := opensThen_eq_true h
  exact ⟨fun r => if r then d' else d, τ, υ, ⟨⟨σ, τ, hready, hfirst, Relation.ReflTransGen.refl⟩, hsecond⟩, hk⟩

/-- Both readers open the directory `/d`. -/
theorem readers_apart_sub : ∃ dir σ τ, TwoReaders readerPid (fun _ => [slash, 100]) dir 1 σ τ ∧
    Apart (dirStep readerPid dir) τ ∧ ∀ l os, play (dirStep readerPid dir) σ (only false l) = .ok os ↔
      play (dirStep readerPid dir) τ (only false l) = .ok os := by
  obtain ⟨dir, σ, τ, h, -⟩ := twoReaders_of_opensThen [slash, 100] (fun _ _ => true)
    subSystem_ready (by decide +kernel)
  exact ⟨dir, σ, τ, h, readers_apart h (by decide)⟩

def readBoth : List (Bool × DirCall) := [(false, .readdir), (true, .readdir)]

def DirAnswer.names : DirAnswer → Option Str
  | .entry e => e.map DirEntry.name
  | .done | .closed _ => none

/-- Reader `true` gets another entry than alone. -/
def readsOther (dir : Bool → DirPtr) (τ : System) : Bool :=
  match play (dirStep readerPid dir) τ readBoth,
    play (dirStep readerPid dir) τ (only true readBoth) with
  | .ok os, .ok os' =>
      decide ((only true os).map (fun x => x.2.names) ≠ os'.map fun x => x.2.names)
  | _, _ => false

/-- Both readers open `/`, and each of them reads once. -/
theorem readers_root : ∃ dir σ τ, TwoReaders readerPid (fun _ => [slash]) dir 0 σ τ ∧
    ¬Apart (dirStep readerPid dir) τ := by
  obtain ⟨dir, σ, τ, h, hother⟩ := twoReaders_of_opensThen [slash] readsOther
    freshSystem_ready (by decide +kernel)
  refine ⟨dir, σ, τ, h, fun hapart => ?_⟩
  unfold readsOther at hother
  cases hboth : play (dirStep readerPid dir) τ readBoth with
  | error e =>
      rw [hboth] at hother
      cases hother
  | ok os =>
      rw [hboth, hapart.answers readBoth os true hboth] at hother
      exact of_decide_eq_true hother rfl

end OsTruth
