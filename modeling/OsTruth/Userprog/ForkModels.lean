/-
`userprog/fork.c` with the pages of the tasks and without them.

In `Fork` the pages of a process are requests for memory.  `ForkUndo` takes them from the pools
and writes them through the page tables, and what it does to the files is what `Fork` does when
its requests are answered alike.  `ForkStack` builds the stack of the child in linear memory, and
the page of the child is the same.
-/
import OsTruth.Userprog.SpaceCalls

namespace OsTruth

open ByteString Fallible Paging

/-! ## The requests for pages -/

def State.withMem (s : State) (next : Nat) (supply : Nat → Bool) : State :=
  { s with next := next, supply := supply }

section

variable {s : State} {n : Nat} {supply : Nat → Bool} {F : Fault → Prop}

theorem getPages_granted {Q : Bool → State → Prop} (h : supply 0 = true)
    (hQ : Q true (s.withMem (n + 1) fun m => supply (m + 1))) :
    Wp getPages (s.withMem n supply) F Q :=
  wp_getPages.mpr ⟨fun _ => hQ, fun hno => Bool.noConfusion (h.symm.trans hno)⟩

theorem getPages_refused {Q : Bool → State → Prop} (h : supply 0 = false)
    (hQ : Q false (s.withMem n fun m => supply (m + 1))) :
    Wp getPages (s.withMem n supply) F Q :=
  wp_getPages.mpr ⟨fun hyes => Bool.noConfusion (h.symm.trans hyes), fun _ => hQ⟩

theorem copyPcb_granted {Q : Option Task → State → Prop} (h : supply 0 = true)
    (hshort : s.cur.name.length < 11)
    (hQ : Q (some { s.cur with name := s.cur.name ++ forkSuffix })
      (s.withMem (n + 1) fun m => supply (m + 1))) : Wp copyPcb (s.withMem n supply) F Q := by
  unfold copyPcb
  rw [Wp.bind]
  refine getPages_granted h ?_
  rw [if_pos rfl, Wp.bind, Wp.get, Wp.bind, wp_kassert]
  exact ⟨fun _ => hQ, fun hlong => absurd hshort hlong⟩

/-- With memory the pages are copied. -/
theorem copyBody_withMem (pages : Nat) : ∀ n, Returns (copyBody pages)
    (s.withMem n fun _ => true) fun _ t => t = s.withMem (n + pages) fun _ => true := by
  induction pages with
  | zero => exact fun n => rfl
  | succ pages ih =>
      intro n
      unfold copyBody
      rw [Returns, Wp.bind]
      refine getPages_granted rfl ?_
      rw [if_pos rfl, ← Nat.add_assoc, Nat.add_right_comm]
      exact ih (n + 1)

/-- `copy_process` stops at the first request that is refused. -/
theorem copyProcess_refused {pages k : Nat} (hk : k < 3)
    (hshort : k = 2 → s.cur.name.length < 11) (n : Nat) :
    Returns (copyProcess pages) (s.withMem n fun i => decide (i < k)) fun child t =>
      child = none ∧ ∃ m supply, t = s.withMem m supply := by
  unfold copyProcess
  rw [Returns, Wp.bind]
  obtain rfl | rfl | rfl : k = 0 ∨ k = 1 ∨ k = 2 := by omega
  · exact getPages_refused rfl ⟨rfl, _, _, rfl⟩
  · refine getPages_granted rfl ?_
    rw [if_pos rfl, copyPcb, Wp.bind, Wp.bind]
    exact getPages_refused rfl ⟨rfl, _, _, rfl⟩
  · refine getPages_granted rfl ?_
    rw [if_pos rfl, Wp.bind]
    refine copyPcb_granted rfl (hshort rfl) ?_
    show Wp (getPages >>= _) _ _ _
    rw [Wp.bind]
    exact getPages_refused rfl ⟨rfl, _, _, rfl⟩

theorem bumpOpenCnts_withMem (globalFd : Int) :
    Blind (fun s => s.withMem n supply) (bumpOpenCnts globalFd) := by
  have hinodes : ∀ s : State, (s.withMem n supply).inodes = s.inodes := fun _ => rfl
  refine .get_bind (fun _ => rfl) fun s => .ite (.throw _) ?_
  cases (s.fileTable globalFd.toNat).fdInode with
  | none => exact .throw _
  | some p =>
      exact (loadInode_blind hinodes).bind fun i => storeInode_blind hinodes fun _ _ => rfl

theorem updateInodeOpenCnts_withMem (thread : Task) (left : Nat) : ∀ localFd,
    Blind (fun s => s.withMem n supply) (updateInodeOpenCnts thread left localFd) := by
  induction left with
  | zero => exact fun _ => .pure _
  | succ left ih =>
      intro localFd
      unfold updateInodeOpenCnts when
      exact .bind (.lift _) fun _ =>
        .bind (.ite (bumpOpenCnts_withMem _) (.pure _)) fun _ => ih (localFd + 1)

/-- With memory `copy_process` comes to the open counts, and returns the child. -/
theorem copyProcess_granted {pages : Nat} (hshort : s.cur.name.length < 11)
    {Q : Option Proc → State → Prop}
    (hcounts : ∀ m supply, Returns (updateInodeOpenCnts
      { s.cur with name := s.cur.name ++ forkSuffix } 5 3) (s.withMem m supply) fun _ t =>
        Q (some { System.procOf (s.withMem m supply) with
          task := { s.cur with name := s.cur.name ++ forkSuffix, pgdir := true } }) t) (n : Nat) :
    Returns (copyProcess pages) (s.withMem n fun _ => true) Q := by
  unfold copyProcess
  rw [Returns, Wp.bind]
  refine getPages_granted rfl ?_
  rw [if_pos rfl, Wp.bind]
  refine copyPcb_granted rfl hshort ?_
  show Wp (getPages >>= _) _ _ _
  rw [Wp.bind]
  refine getPages_granted rfl ?_
  rw [if_pos rfl, Wp.bind]
  refine (copyBody_withMem pages _).call fun _ u hu => ?_
  rw [hu, Wp.bind, Wp.get, Wp.bind]
  exact (hcounts _ _).call fun _ t ht => ht

end

/-! ## The files -/

namespace Forking

section

variable {σ : ForkState} {F : Fault → Prop}

theorem ensures_fassert {c : Prop} [Decidable c] {Q : Unit → ForkState → Prop} (hQ : c → Q () σ) :
    Ensures (fassert c) σ Q := by
  unfold fassert assert
  by_cases hc : c
  · rw [if_pos hc, Ensures, Wp.lift_pure]
    exact hQ hc
  · rw [if_neg hc]
    exact True.intro

/-- Pages do not touch the files, nor the next number. -/
theorem ensures_onPages {α : Type} {x : PageM α} {Q : α → ForkState → Prop}
    (hQ : ∀ a p, Q a { σ with pages := p }) : Ensures (onPages x) σ Q := by
  rw [Ensures, wp_onPages]
  exact Wp.trivial.call fun a p _ => hQ a p

/-- The control block of the child, when there are pages for its bitmap. -/
theorem copyPcb_child (childThread : Nat) :
    Ensures (copyPcbVaddrbitmapStack0 childThread) σ fun r τ => τ.files = σ.files ∧
      ∀ child, r = some child → τ.nextPid = child.pid ∧ σ.files.cur.name.length < 11 ∧
        child.task = { σ.files.cur with name := σ.files.cur.name ++ forkSuffix } := by
  unfold copyPcbVaddrbitmapStack0 forkPid
  rw [Ensures, Wp.bind, Wp.get, Wp.bind]
  refine ensures_onPages fun _ p => ?_
  rw [Wp.bind, Wp.bind, Wp.modify, Wp.bind, Wp.get, Wp.pure, Wp.bind]
  refine ensures_onPages fun r p => ?_
  cases r with
  | none => exact ⟨rfl, fun child h => absurd h (Option.some_ne_none child).symm⟩
  | some vaddrBtmp =>
      show Wp (onPages _ >>= _) _ _ _
      rw [Wp.bind]
      refine ensures_onPages fun _ p => ?_
      rw [Wp.bind]
      refine ensures_fassert fun hshort => ⟨rfl, fun child h => ?_⟩
      rw [← Option.some.inj h]
      exact ⟨rfl, hshort, rfl⟩

/-- What a call with pages and one that asks for them have in common: the child, and the files
behind the call. -/
def Alike (σ : ForkState) (r : Option ForkChild) (τ : ForkState) (child : Option Proc)
    (t : State) : Prop :=
  child.map Proc.task = r.map (fun c => { c.task with pgdir := true }) ∧
    τ.files = t.withMem σ.files.next σ.files.supply ∧ ∀ c, r = some c → τ.nextPid = c.pid

theorem Alike.of_refused {τ : ForkState} {child : Option Proc} {t : State}
    (hfiles : τ.files = σ.files) (h : child = none ∧ ∃ m supply, t = σ.files.withMem m supply) :
    Alike σ none τ child t := by
  obtain ⟨rfl, m, supply, rfl⟩ := h
  exact ⟨rfl, hfiles, fun c hc => absurd hc (Option.some_ne_none c).symm⟩

/-- The open counts go up the same with other memory to come. -/
theorem updateInodeOpenCnts_files (thread : Task) :
    Ensures (onFiles (updateInodeOpenCnts thread 5 3)) σ fun _ τ => τ.nextPid = σ.nextPid ∧
      ∀ n supply, Returns (updateInodeOpenCnts thread 5 3) (σ.files.withMem n supply)
        fun _ t => τ.files = t.withMem σ.files.next σ.files.supply := by
  rw [Ensures, onFiles, Wp.onPart, ← Ensures, ensures_iff]
  intro _ t hrun
  refine ⟨rfl, fun n supply => ?_⟩
  rw [Returns, (updateInodeOpenCnts_withMem thread 5 3).wp_iff, Wp.of_run hrun]
  -- what the run leaves of the memory is what it found
  have hsame : (updateInodeOpenCnts thread 5 3).run σ.files =
      ((updateInodeOpenCnts thread 5 3).run σ.files).map fun r =>
        (r.1, r.2.withMem σ.files.next σ.files.supply) :=
    updateInodeOpenCnts_withMem thread 5 3 σ.files
  rw [hrun] at hsame
  exact congrArg Prod.snd (Except.ok.inj hsame)

/-- The requests are answered as the pages of `copy_process` are found. -/
theorem copyProcess_answers (intrExitAt : UInt32) (childThread pages : Nat) :
    Ensures (copyProcess intrExitAt childThread) σ fun r τ => ∃ supply, ∀ n,
      Returns (OsTruth.copyProcess pages) (σ.files.withMem n supply) (Alike σ r τ) := by
  unfold copyProcess
  rw [Ensures, Wp.bind]
  refine ensures_onPages fun r p => ?_
  cases r with
  | none =>
      exact ⟨_, fun n => (copyProcess_refused (k := 0) (by decide)
        (fun h => absurd h (by decide)) n).call fun child t h => .of_refused rfl h⟩
  | some bufPage =>
      show Wp (copyPcbVaddrbitmapStack0 childThread >>= _) _ _ _
      rw [Wp.bind]
      refine (copyPcb_child childThread).call fun r τ hcopy => ?_
      obtain ⟨hfiles, hchild⟩ := hcopy
      cases r with
      | none =>
          exact ⟨_, fun n => (copyProcess_refused (k := 1) (by decide)
            (fun h => absurd h (by decide)) n).call fun child t h => .of_refused hfiles h⟩
      | some child =>
          obtain ⟨hpid, hshort, htask⟩ := hchild child rfl
          show Wp (onPages createPageDir >>= _) τ _ _
          rw [Wp.bind]
          refine ensures_onPages fun r p => ?_
          cases r with
          | none =>
              exact ⟨_, fun n => (copyProcess_refused (k := 2) (by decide) (fun _ => hshort) n).call
                fun child t h => .of_refused hfiles h⟩
          | some pgdir =>
              show Wp (get >>= _) _ _ _
              rw [Wp.bind, Wp.get, Wp.bind]
              refine ensures_onPages fun _ p => ?_
              rw [Wp.bind]
              refine ensures_onPages fun _ p => ?_
              rw [Wp.bind]
              refine (updateInodeOpenCnts_files child.task).call fun _ υ hcounts => ?_
              obtain ⟨hnext, hcounts⟩ := hcounts
              rw [Wp.bind]
              refine ensures_onPages fun _ p => ⟨_, copyProcess_granted hshort fun m supply => ?_⟩
              rw [← htask, ← hfiles]
              refine (hcounts m supply).call fun _ t ht => ⟨?_, ?_, fun c hc => ?_⟩
              · rw [hfiles]
                exact (congrArg (fun c : Task => some { c with pgdir := true }) htask).symm
              · rw [← hfiles]
                exact ht
              · rw [← Option.some.inj hc]
                exact hnext.trans hpid

theorem Alike.pid {r : Option ForkChild} {τ : ForkState} {child : Option Proc} {t : State}
    (h : Alike σ r τ child t) :
    r.elim (-1) (fun c => c.pid.toInt) = child.elim (-1) fun _ => τ.nextPid.toInt := by
  obtain ⟨htask, -, hpid⟩ := h
  cases r with
  | none =>
      rw [Option.map_eq_none_iff.mp htask]
      rfl
  | some c =>
      obtain ⟨p, hp, -⟩ := Option.map_eq_some_iff.mp htask
      rw [hp]
      exact congrArg Int16.toInt (hpid c rfl).symm

/-- What `sys_fork` returns and what it does to the files is what it does for some answers to its
requests. -/
theorem sysFork_answers (hpgdir : σ.files.cur.pgdir = σ.pgdir.isSome) (intrExitAt : UInt32)
    (pages : Nat) :
    Ensures (sysFork intrExitAt) σ fun r τ => ∃ supply, ∀ n,
      Returns (OsTruth.sysFork pages) (σ.files.withMem n supply) fun child t =>
        r = child.elim (-1) (fun _ => τ.nextPid.toInt) ∧
          τ.files = t.withMem σ.files.next σ.files.supply := by
  unfold sysFork OsTruth.sysFork
  rw [Ensures, Wp.bind]
  refine ensures_onPages fun r p => ?_
  cases r with
  | none =>
      refine ⟨fun _ => false, fun n => ?_⟩
      rw [Returns, Wp.bind]
      exact getPages_refused rfl ⟨rfl, rfl⟩
  | some childThread =>
      show Wp (get >>= _) _ _ _
      rw [Wp.bind, Wp.get, Wp.bind]
      refine ensures_fassert fun hdir => ?_
      have huser : σ.files.cur.pgdir = true := hpgdir.trans (Option.isSome_iff_ne_none.mpr hdir)
      rw [Wp.bind]
      refine (copyProcess_answers intrExitAt childThread pages).call fun r τ hcopy => ?_
      obtain ⟨supply, hcopy⟩ := hcopy
      -- behind the request for the control block
      have hfork : ∀ {Q : Option Proc → State → Prop} n,
          Returns (OsTruth.copyProcess pages) (σ.files.withMem (n + 1) supply) Q →
          Returns (OsTruth.sysFork pages)
            (σ.files.withMem n fun k => k.casesOn true supply) Q := by
        intro Q n h
        unfold OsTruth.sysFork
        rw [Returns, Wp.bind]
        refine getPages_granted rfl ?_
        rw [if_pos rfl, Wp.bind, Wp.get, Wp.bind, wp_kassert]
        exact ⟨fun _ => h, fun hno => hno huser⟩
      cases r with
      | none =>
          exact ⟨_, fun n => hfork n ((hcopy _).call fun child t h => ⟨h.pid, h.2.1⟩)⟩
      | some child =>
          show Wp (onThreads _ >>= _) τ _ _
          rw [Wp.bind, onThreads, Wp.onPart]
          refine Wp.trivial.call fun _ threads _ => ?_
          exact ⟨_, fun n => hfork n ((hcopy _).call fun child t h => ⟨h.pid, h.2.1⟩)⟩

end

end Forking

/-! ## The stack of the child -/

open Processor

/-- Frame `g` holds the page of linear memory from `base` on. -/
def PageAt (m : Phys) (g : Nat) (flat : Mem) (base : Word) : Prop :=
  ∀ i, i < pgSize → flat (base + BitVec.ofNat 32 i) = (m g i).toBitVec

section

variable {m : Phys} {g i k p : Nat} {flat : Mem} {base : Word} {e : UInt32} {s t : Space}

theorem byteOf_toBitVec (e : UInt32) (j : Nat) :
    (byteOf e j).toBitVec = e.toBitVec.extractLsb' (8 * j) 8 := by
  apply BitVec.eq_of_toNat_eq
  rw [BitVec.extractLsb'_toNat, Nat.shiftRight_eq_div_pow, Nat.pow_mul]
  exact toNat_byteOf e j

/-- A word of the page. -/
theorem PageAt.setEntry (h : PageAt m g flat base) (hk : k < 1024) (e : UInt32) :
    PageAt (setEntry m g k e) g (write32 flat (base + BitVec.ofNat 32 (4 * k)) e.toBitVec) base := by
  intro i hi
  have hlt : i < 4096 := hi
  unfold Paging.setEntry
  rw [Function.update_self]
  by_cases hin : 4 * k ≤ i ∧ i < 4 * k + 4
  · have hsub : (base + BitVec.ofNat 32 i - (base + BitVec.ofNat 32 (4 * k))).toNat = i - 4 * k := by
      bv_omega
    unfold write32
    rw [hsub, if_pos (by omega), splice_inside hin.1 hin.2, ofWords, byteOf_toBitVec,
      Nat.mod_eq_of_lt (by omega)]
  · rw [splice_outside (by omega), write32_outside]
    · exact h i hi
    · bv_omega

/-- Page `p` is mapped to frame `g`, which holds the page of linear memory from `base` on and is
all that was written since `s`. -/
structure StackPage (s : Space) (p g : Nat) (base : Word) (flat : Mem) (t : Space) : Prop where
  only : ∃ x, t = { s with phys := Function.update s.phys g x }
  walk : walk t.phys t.cr3 p = some g
  spared : Spared t.phys t.cr3 p g
  page : PageAt t.phys g flat base

/-- A word of the stack is written. -/
theorem StackPage.writeWord (h : StackPage s p g base flat t) (hk : k < 1024) {v : Nat} {a w : Word}
    (hv : v = pgSize * p + k * 4) (ha : a = base + BitVec.ofNat 32 (4 * k)) (hw : w = e.toBitVec)
    {F : Fault → Prop} {Q : Unit → Space → Prop}
    (hQ : ∀ u, StackPage s p g base (write32 flat a w) u → Q () u) :
    Wp (OsTruth.writeWord v e) t F Q := by
  subst hv ha hw
  refine wp_writeMem (storeWord_page h.walk hk) (hQ _ ⟨?_, ?_, ?_, h.page.setEntry hk e⟩)
  · obtain ⟨x, rfl⟩ := h.only
    refine ⟨splice x (4 * k) 4 (ofWords fun _ => e), ?_⟩
    simp only [Paging.setEntry, Function.update_self, Function.update_idem]
  · exact h.spared.walk.trans h.walk
  · refine ⟨h.spared.1, ?_⟩
    unfold Paging.setEntry
    rw [table_update h.spared.1]
    exact h.spared.2

/-- In the page of the child `build_child_stack` leaves the stack of the linear memory. -/
theorem buildChildStack_page (hw : walk s.phys s.cr3 p = some g) (hsp : Spared s.phys s.cr3 p g)
    (hpage : PageAt s.phys g flat base) (hbase : base = BitVec.ofNat 32 (pgSize * p))
    (hp : p < 2 ^ 20) (intrExitAt : UInt32) {F : Fault → Prop} :
    Wp (Forking.buildChildStack intrExitAt (pgSize * p)) s F fun _ t =>
      StackPage s p g base (buildChildStack intrExitAt.toBitVec base flat) t := by
  have hstart : StackPage s p g base flat s :=
    ⟨⟨s.phys g, by rw [Function.update_eq_self]⟩, hw, hsp, hpage⟩
  have hpg : pgSize = 4096 := rfl
  have hsize : intrStackSize = 76 := rfl
  let a := base + BitVec.ofNat 32 (pgSize - intrStackSize)
  have ha : a = base + BitVec.ofNat 32 4020 := rfl
  have hat : a - 20 = (UInt32.ofNat (pgSize * p + pgSize - intrStackSize - 20)).toBitVec := by
    show a - 20 = BitVec.ofNat 32 _
    rw [ha, hbase, hpg, hsize]
    bv_omega
  unfold Forking.buildChildStack
  rw [Wp.bind]
  refine hstart.writeWord (k := 1013) (a := a + 32) (w := 0) (by decide) (by omega)
    (by bv_omega) rfl fun s₁ h₁ => ?_
  rw [Wp.bind]
  refine h₁.writeWord (k := 1004) (a := a - 4) (by decide) (by omega) (by bv_omega) rfl
    fun s₂ h₂ => ?_
  rw [Wp.bind]
  refine h₂.writeWord (k := 1003) (a := a - 8) (w := 0) (by decide) (by omega) (by bv_omega) rfl
    fun s₃ h₃ => ?_
  rw [Wp.bind]
  refine h₃.writeWord (k := 1002) (a := a - 12) (w := 0) (by decide) (by omega) (by bv_omega) rfl
    fun s₄ h₄ => ?_
  rw [Wp.bind]
  refine h₄.writeWord (k := 1001) (a := a - 16) (w := 0) (by decide) (by omega) (by bv_omega) rfl
    fun s₅ h₅ => ?_
  rw [Wp.bind]
  refine h₅.writeWord (k := 1000) (a := a - 20) (w := 0) (by decide) (by omega) (by bv_omega) rfl
    fun s₆ h₆ => ?_
  exact h₆.writeWord (k := 0) (a := base) (by decide) (by omega) (by simp) hat fun s₇ h₇ => h₇

end

end OsTruth
