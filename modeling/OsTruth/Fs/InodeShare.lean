/-
`inode_open` and `inode_close` called by several tasks on one partition.

A task that runs `inode_open` is switched away from while it is inside `ide_read`, so the
call is cut there: `inodeOpenEnter` is what runs before the switch and `inodeOpenLeave`
what runs after it, and `inodeOpen_eq` says that they make up `inodeOpen`.
-/
import Mathlib.Data.List.Nodup
import OsTruth.Fs.OpenInodes
import OsTruth.Library.Runs

namespace OsTruth

open ByteString Fallible Runs

/-- What a task keeps on its stack while it is inside the `ide_read` of `inode_open`. -/
structure InodeReading where
  inodeNo : UInt32
  inodePos : InodePosition
  inodeFound : Option Ptr
  inodeBuf : Ptr

/-- `inode_open` up to its return or up to the switch in `ide_read`. -/
def inodeOpenEnter (inodeNo : UInt32) : Kern (Ptr ⊕ InodeReading) := do
  let s ← get
  match ← findOpen inodeNo s.part.openInodes with
  | some inodeFound => do
      let i ← loadInode inodeFound
      storeInode inodeFound { i with iOpenCnts := i.iOpenCnts + 1 }
      pure (.inl inodeFound)
  | none => do
      let s ← get
      let inodePos ← StateT.lift (inodeLocate s.part inodeNo)
      let inodeFound ← inKernel sysMallocInode
      let inodeBuf ← sysMallocBuf
      match inodeBuf with
      | none => undefined
      | some inodeBuf => pure (.inr ⟨inodeNo, inodePos, inodeFound, inodeBuf⟩)

/-- The rest of `inode_open`, from the `ide_read` that returns. -/
def inodeOpenLeave (r : InodeReading) : Kern Ptr := do
  let b ← ideRead r.inodePos.secLba (.zero (512 * r.inodePos.secCnt)) r.inodePos.secCnt
  match r.inodeFound with
  | none => throw .assert
  | some inodeFound =>
      openLoaded inodeFound (Inode.ofBytes b.data r.inodePos.offSize.toNat) r.inodeBuf

theorem inodeOpen_eq (inodeNo : UInt32) :
    inodeOpen inodeNo = (do
      match ← inodeOpenEnter inodeNo with
      | .inl inode => pure inode
      | .inr r => inodeOpenLeave r) := by
  unfold inodeOpen inodeOpenEnter inodeRead
  simp only [bind_assoc]
  refine bind_congr fun s => bind_congr fun r => ?_
  cases r with
  | some inodeFound => simp only [bind_assoc, pure_bind]
  | none =>
      simp only [bind_assoc]
      refine bind_congr fun s => bind_congr fun inodePos => bind_congr fun inodeFound =>
        bind_congr fun inodeBuf => ?_
      cases inodeBuf with
      | none => rfl
      | some inodeBuf =>
          rw [pure_bind]
          rfl

/-- The partition, the tasks, and which of them are inside `ide_read`. -/
structure InodeTasks where
  fs : State
  task : Nat → Task
  asleep : Nat → Option InodeReading

/-- A task starts a call of `inode_open`, returns from `ide_read`, or calls
`inode_close`. -/
inductive InodeCall
  | inodeOpen (t : Nat) (inodeNo : UInt32)
  | ideRead (t : Nat)
  | inodeClose (t : Nat) (inode : Ptr)

namespace InodeTasks

def exec {α : Type} (σ : InodeTasks) (t : Nat) (x : Kern α) : Except Fault (α × State) :=
  x.run { σ.fs with cur := σ.task t }

/-- Task `t` is inside `ide_read` when `r` says so. -/
def goto (σ : InodeTasks) (t : Nat) (r : Option InodeReading) (fs : State) : InodeTasks :=
  { σ with
    fs := fs
    asleep := fun k => if k = t then r else σ.asleep k }

end InodeTasks

def inodeStep (σ : InodeTasks) : InodeCall → Except Fault InodeTasks
  | .inodeOpen t inodeNo => do
      let (r, fs) ← σ.exec t (inodeOpenEnter inodeNo)
      pure (σ.goto t r.getRight? fs)
  | .ideRead t =>
      match σ.asleep t with
      | none => .error .undefined
      | some r => do
          let (_, fs) ← σ.exec t (inodeOpenLeave r)
          pure (σ.goto t none fs)
  | .inodeClose t inode => do
      let (_, fs) ← σ.exec t (inodeClose inode)
      pure { σ with fs := fs }

/-- One of `n` tasks runs: one that is inside `ide_read` returns from it, another one makes
a call. -/
def inodeCall (n : Nat) (σ : InodeTasks) : InodeCall → Prop
  | .inodeOpen t _ | .inodeClose t _ => t < n ∧ (σ.asleep t).isNone
  | .ideRead t => t < n ∧ (σ.asleep t).isSome

/-- No task is inside the `ide_read` of the same inode when one is opened, and the slot
that is read holds its own number. -/
def inodeCallAlone (n : Nat) (σ : InodeTasks) (c : InodeCall) : Prop :=
  inodeCall n σ c ∧
    match c with
    | .inodeOpen _ inodeNo =>
        ∀ u, u < n → (σ.asleep u).map InodeReading.inodeNo ≠ some inodeNo
    | .ideRead t =>
        (σ.asleep t).all fun r => (readSlot σ.fs.part σ.fs.disk r.inodeNo).iNo = r.inodeNo
    | .inodeClose _ _ => True

def State.numberOf (s : State) (p : Ptr) : Option UInt32 := (s.inodes p).map Inode.iNo

/-- `open_inodes` links live inodes with different numbers. -/
def State.OneCopy (s : State) : Prop :=
  (∀ p, p ∈ s.part.openInodes → (s.numberOf p).isSome) ∧
    (s.part.openInodes.map s.numberOf).Nodup

/-! ## What each part of a call does -/

section

variable {s : State} {n : UInt32} {p : Ptr}

theorem State.numberOf_putInode (s : State) (p q : Ptr) (o : Option Inode) :
    (s.putInode p o).numberOf q = if q = p then o.map Inode.iNo else s.numberOf q := by
  unfold numberOf putInode
  by_cases h : q = p
  · rw [if_pos h]
    simp only [h, if_true]
  · rw [if_neg h]
    simp only [h, if_false]

/-- Only the counter of the inode changes. -/
theorem State.numberOf_count {i : Inode} (hi : s.inodes p = some i) (k : Nat) (q : Ptr) :
    (s.putInode p (some { i with iOpenCnts := k })).numberOf q = s.numberOf q := by
  rw [numberOf_putInode]
  by_cases h : q = p
  · rw [if_pos h, h, numberOf, hi]
    rfl
  · rw [if_neg h]

/-- A call that goes to sleep has found no copy and owns the block it allocated. -/
theorem inodeOpenEnter_ensures : Ensures (inodeOpenEnter n) s (fun a t =>
    t.part = s.part ∧ s.next ≤ t.next ∧ (∀ q, q.id < s.next → t.numberOf q = s.numberOf q) ∧
      ∀ r, a.getRight? = some r →
        r.inodeNo = n ∧ r.inodePos = inodePos s.part n ∧
          (∀ q, q ∈ s.part.openInodes → s.numberOf q ≠ some n) ∧
          ∀ q, r.inodeFound = some q → s.next ≤ q.id ∧ q.id < t.next) := by
  unfold inodeOpenEnter
  refine Wp.bind.mpr (Wp.get.mpr (Wp.bind.mpr ((wp_findOpen _).mpr
    ⟨fun r hfirst => ?_, fun _ _ => True.intro⟩)))
  cases r with
  | some p =>
      obtain ⟨-, i, hi, -⟩ := firstOpen_some hfirst
      refine Wp.bind.mpr ((wp_loadInode_some hi).mpr (Wp.bind.mpr ((wp_storeInode_some hi).mpr
        (Wp.pure.mpr ⟨rfl, Nat.le_refl _, fun q _ => State.numberOf_count hi _ q, nofun⟩))))
  | none =>
      have hmiss : ∀ q, q ∈ s.part.openInodes → s.numberOf q ≠ some n := by
        intro q hq
        obtain ⟨i, hi, hne⟩ := firstOpen_none hfirst q hq
        rw [State.numberOf, hi]
        exact fun h => hne (Option.some.inj h)
      refine Wp.bind.mpr (Wp.get.mpr (Wp.bind.mpr (wp_inodeLocate.mpr
        ⟨fun _ => Wp.bind.mpr (wp_inKernel.mpr (wp_sysMalloc.mpr ⟨fun _ => ?_, fun _ => ?_⟩)),
          fun _ => True.intro⟩)))
      · refine Wp.bind.mpr (wp_sysMalloc.mpr ⟨fun _ => Wp.pure.mpr ?_, fun _ => True.intro⟩)
        refine ⟨rfl, Nat.le_add_right s.next 2, fun q hq => ?_, fun r hr => ?_⟩
        · refine (State.numberOf_putInode s ⟨false, s.next⟩ q (some .zero)).trans (if_neg ?_)
          rintro rfl
          exact Nat.lt_irrefl _ hq
        · cases hr
          refine ⟨rfl, rfl, hmiss, fun q hq => ?_⟩
          cases hq
          exact ⟨Nat.le_refl s.next, Nat.lt_succ_of_lt (Nat.lt_succ_self s.next)⟩
      · refine Wp.bind.mpr (wp_sysMalloc.mpr ⟨fun _ => Wp.pure.mpr ?_, fun _ => True.intro⟩)
        refine ⟨rfl, Nat.le_succ _, fun q _ => rfl, fun r hr => ?_⟩
        cases hr
        exact ⟨rfl, rfl, hmiss, nofun⟩

/-- The call links its block, which now holds the slot that was read. -/
theorem inodeOpenLeave_ensures {r : InodeReading} (hpos : r.inodePos = inodePos s.part r.inodeNo) :
    Ensures (inodeOpenLeave r) s (fun p t =>
      r.inodeFound = some p ∧ t.part = { s.part with openInodes := p :: s.part.openInodes } ∧
        t.next = s.next ∧ ∀ q, t.numberOf q =
          if q = p then some (readSlot s.part s.disk r.inodeNo).iNo else s.numberOf q) := by
  unfold inodeOpenLeave
  rw [Ensures, Wp.bind, wp_ideRead, hpos]
  refine ⟨fun _ => ⟨fun _ => ?_, fun _ => True.intro⟩, fun _ => True.intro⟩
  have hslot : Inode.ofBytes (splice (Buf.zero (512 * (inodePos s.part r.inodeNo).secCnt)).data 0
      (512 * (inodePos s.part r.inodeNo).secCnt)
      (view s.disk (sectorOff (inodePos s.part r.inodeNo).secLba)))
      (inodePos s.part r.inodeNo).offSize.toNat = readSlot s.part s.disk r.inodeNo := by
    unfold readSlot Buf.zero
    rfl
  rw [hslot]
  cases hp : r.inodeFound with
  | none => exact True.intro
  | some p =>
      refine Wp.bind.mpr (wp_storeInode.mpr ⟨fun _ => ?_, fun _ => True.intro⟩)
      refine Wp.bind.mpr (Wp.modify.mpr (Wp.bind.mpr (wp_sysFree.mpr
        ⟨fun _ _ => ?_, fun _ _ => True.intro, fun _ _ => True.intro, fun _ _ => True.intro⟩)))
      rw [Wp.pure]
      refine ⟨rfl, rfl, rfl, fun q => ?_⟩
      exact State.numberOf_putInode s p q _

/-- A close leaves the list as it is or takes the inode out and frees it. -/
theorem inodeClose_ensures : Ensures (inodeClose p) s (fun _ t =>
    t.next = s.next ∧ ((t.part = s.part ∧ t.numberOf = s.numberOf) ∨
      (t.part = { s.part with openInodes := s.part.openInodes.erase p } ∧
        ∀ q, t.numberOf q = if q = p then none else s.numberOf q))) := by
  cases hi : s.inodes p with
  | none =>
      unfold inodeClose
      refine Wp.bind.mpr (wp_loadInode.mpr ⟨fun i h => ?_, fun _ => True.intro⟩)
      rw [hi] at h
      cases h
  | some i =>
      refine (wp_inodeClose hi).mpr ⟨fun _ => ?_, fun _ => ⟨fun _ => ?_, fun _ => True.intro⟩⟩
      · exact ⟨rfl, Or.inl ⟨rfl, funext fun q => State.numberOf_count hi _ q⟩⟩
      · exact ⟨rfl, Or.inr ⟨rfl, fun q => State.numberOf_putInode s p q none⟩⟩

end

/-! ## The invariant -/

/-- What holds of the call of a task inside `ide_read`. -/
structure State.Pending (s : State) (r : InodeReading) : Prop where
  inodePos : r.inodePos = OsTruth.inodePos s.part r.inodeNo
  missing : ∀ p, p ∈ s.part.openInodes → s.numberOf p ≠ some r.inodeNo
  own : ∀ p, r.inodeFound = some p → p ∉ s.part.openInodes ∧ p.id < s.next

/-- Two calls neither read the same inode nor into the same block. -/
def InodeReading.Apart (r q : InodeReading) : Prop :=
  r.inodeNo ≠ q.inodeNo ∧ ∀ p, r.inodeFound = some p → q.inodeFound ≠ some p

theorem InodeReading.Apart.symm {r q : InodeReading} (h : r.Apart q) : q.Apart r :=
  ⟨h.1.symm, fun p hq hr => h.2 p hr hq⟩

structure InodeTasks.Shared (n : Nat) (σ : InodeTasks) : Prop where
  copies : σ.fs.OneCopy
  below : ∀ p, p ∈ σ.fs.part.openInodes → p.id < σ.fs.next
  tasks : ∀ t, n ≤ t → σ.asleep t = none
  asleep : ∀ t r, σ.asleep t = some r → σ.fs.Pending r
  apart : ∀ t u r q, σ.asleep t = some r → σ.asleep u = some q → t ≠ u → r.Apart q

section

variable {n t : Nat} {s u : State} {σ τ : InodeTasks} {p : Ptr} {c : InodeCall}

/-- The list of open inodes stays, and so do the numbers in it. -/
theorem State.OneCopy.same (h : s.OneCopy) (hlist : u.part.openInodes = s.part.openInodes)
    (hnumber : ∀ p, p ∈ s.part.openInodes → u.numberOf p = s.numberOf p) : u.OneCopy := by
  unfold OneCopy
  rw [hlist, List.map_congr_left hnumber]
  refine ⟨fun p hp => ?_, h.2⟩
  rw [hnumber p hp]
  exact h.1 p hp

/-- An inode with a new number is linked. -/
theorem State.OneCopy.push (h : s.OneCopy) {k : UInt32}
    (hlist : u.part.openInodes = p :: s.part.openInodes) (hp : p ∉ s.part.openInodes)
    (hnumber : ∀ q, u.numberOf q = if q = p then some k else s.numberOf q)
    (hnew : ∀ q, q ∈ s.part.openInodes → s.numberOf q ≠ some k) : u.OneCopy := by
  have hrest : ∀ q, q ∈ s.part.openInodes → u.numberOf q = s.numberOf q := fun q hq =>
    (hnumber q).trans (if_neg (ne_of_mem_of_not_mem hq hp))
  have hself : u.numberOf p = some k := (hnumber p).trans (if_pos rfl)
  unfold OneCopy
  rw [hlist, List.map_cons, hself, List.map_congr_left hrest]
  refine ⟨fun q hq => ?_, List.nodup_cons.mpr ⟨fun hmem => ?_, h.2⟩⟩
  · rcases List.mem_cons.mp hq with rfl | hq
    · rw [hself]
      rfl
    · rw [hrest q hq]
      exact h.1 q hq
  · obtain ⟨q, hq, hqk⟩ := List.mem_map.mp hmem
    exact hnew q hq hqk

/-- An inode is taken out of the list. -/
theorem State.OneCopy.erase (h : s.OneCopy)
    (hlist : u.part.openInodes = s.part.openInodes.erase p)
    (hnumber : ∀ q, u.numberOf q = if q = p then none else s.numberOf q) : u.OneCopy := by
  have hnodup : s.part.openInodes.Nodup := List.Nodup.of_map s.numberOf h.2
  have hrest : ∀ q, q ∈ s.part.openInodes.erase p → u.numberOf q = s.numberOf q := fun q hq =>
    (hnumber q).trans (if_neg ((hnodup.mem_erase_iff).mp hq).1)
  unfold OneCopy
  rw [hlist, List.map_congr_left hrest]
  refine ⟨fun q hq => ?_, h.2.sublist (List.erase_sublist.map _)⟩
  rw [hrest q hq]
  exact h.1 q (List.mem_of_mem_erase hq)

/-- A state with the same list, the same numbers and no smaller `next` keeps what a sleeping
call knows. -/
theorem State.Pending.same {r : InodeReading} (h : s.Pending r) (hpart : u.part = s.part)
    (hnext : s.next ≤ u.next)
    (hnumber : ∀ p, p ∈ s.part.openInodes → u.numberOf p = s.numberOf p) : u.Pending r where
  inodePos := by
    rw [hpart]
    exact h.inodePos
  missing p hp := by
    rw [hpart] at hp
    rw [hnumber p hp]
    exact h.missing p hp
  own p hp := by
    rw [hpart]
    exact ⟨(h.own p hp).1, Nat.lt_of_lt_of_le (h.own p hp).2 hnext⟩

/-- Task `t` starts a call, of an inode that no sleeping task reads. -/
theorem InodeTasks.Shared.enter (h : σ.Shared n) (ht : t < n) {inodeNo : UInt32}
    (halone : ∀ u, u < n → (σ.asleep u).map InodeReading.inodeNo ≠ some inodeNo)
    {a : Ptr ⊕ InodeReading} {fs : State}
    (hrun : σ.exec t (inodeOpenEnter inodeNo) = .ok (a, fs)) :
    (σ.goto t a.getRight? fs).Shared n := by
  obtain ⟨hpart, hnext, hkeep, hasleep⟩ := ensures_iff.mp inodeOpenEnter_ensures a fs hrun
  have hnumber : ∀ p, p ∈ σ.fs.part.openInodes → fs.numberOf p = σ.fs.numberOf p := fun p hp =>
    hkeep p (h.below p hp)
  have hlist : fs.part.openInodes = σ.fs.part.openInodes := by rw [hpart]
  have hnew : ∀ r, a.getRight? = some r → fs.Pending r ∧
      ∀ u q, u ≠ t → σ.asleep u = some q → r.Apart q := by
    intro r hr
    obtain ⟨hno, hpos, hmiss, hown⟩ := hasleep r hr
    refine ⟨⟨?_, fun p hp => ?_, fun p hp => ⟨fun hmem => ?_, (hown p hp).2⟩⟩,
      fun u q _ hq => ⟨fun hrq => ?_, fun p hp hqp => ?_⟩⟩
    · rw [hpart, hno]
      exact hpos
    · rw [hlist] at hp
      rw [hnumber p hp, hno]
      exact hmiss p hp
    · rw [hlist] at hmem
      exact Nat.not_lt_of_le (hown p hp).1 (h.below p hmem)
    · by_cases hu : u < n
      · refine halone u hu ?_
        rw [hq, Option.map_some, ← hrq, hno]
      · rw [h.tasks u (Nat.le_of_not_lt hu)] at hq
        cases hq
    · exact Nat.not_lt_of_le (hown p hp).1 ((h.asleep u q hq).own p hqp).2
  refine ⟨h.copies.same hlist hnumber, fun p hp => ?_, fun u hu => ?_, fun u r hr => ?_,
    fun u v r q hr hq huv => ?_⟩
  · have hp' : p ∈ σ.fs.part.openInodes := hlist ▸ hp
    exact Nat.lt_of_lt_of_le (h.below p hp') hnext
  · exact (if_neg (Nat.ne_of_gt (Nat.lt_of_lt_of_le ht hu))).trans (h.tasks u hu)
  · by_cases hut : u = t
    · exact (hnew r ((if_pos hut).symm.trans hr)).1
    · exact (h.asleep u r ((if_neg hut).symm.trans hr)).same hpart hnext hnumber
  · by_cases hut : u = t
    · have hvt : v ≠ t := fun hvt => huv (hut.trans hvt.symm)
      exact (hnew r ((if_pos hut).symm.trans hr)).2 v q hvt ((if_neg hvt).symm.trans hq)
    · have hr' := (if_neg hut).symm.trans hr
      by_cases hvt : v = t
      · exact ((hnew q ((if_pos hvt).symm.trans hq)).2 u r hut hr').symm
      · exact h.apart u v r q hr' ((if_neg hvt).symm.trans hq) huv

/-- Task `t` returns from `ide_read`. -/
theorem InodeTasks.Shared.leave (h : σ.Shared n) {r : InodeReading} (hr : σ.asleep t = some r)
    (hslot : (readSlot σ.fs.part σ.fs.disk r.inodeNo).iNo = r.inodeNo) {fs : State}
    (hrun : σ.exec t (inodeOpenLeave r) = .ok (p, fs)) : (σ.goto t none fs).Shared n := by
  have hpending := h.asleep t r hr
  obtain ⟨hfound, hpart, hnext, hnumber⟩ :=
    ensures_iff.mp (inodeOpenLeave_ensures (s := { σ.fs with cur := σ.task t })
      hpending.inodePos) p fs hrun
  rw [show (readSlot _ _ r.inodeNo).iNo = r.inodeNo from hslot] at hnumber
  have hlist : fs.part.openInodes = p :: σ.fs.part.openInodes := by rw [hpart]
  obtain ⟨hp, hbelow⟩ := hpending.own p hfound
  have hother : ∀ u q, (σ.goto t none fs).asleep u = some q → σ.asleep u = some q ∧ u ≠ t := by
    intro u q hq
    by_cases hut : u = t
    · exact absurd ((if_pos hut).symm.trans hq) nofun
    · exact ⟨(if_neg hut).symm.trans hq, hut⟩
  refine ⟨h.copies.push hlist hp hnumber hpending.missing, fun q hq => ?_, fun u hu => ?_,
    fun u q hq => ?_, fun u v q q' hq hq' huv => ?_⟩
  · show q.id < fs.next
    have hq' : q ∈ p :: σ.fs.part.openInodes := hlist ▸ hq
    rw [hnext]
    rcases List.mem_cons.mp hq' with rfl | hq'
    · exact hbelow
    · exact h.below q hq'
  · by_cases hut : u = t
    · exact if_pos hut
    · exact (if_neg hut).trans (h.tasks u hu)
  · obtain ⟨hq, hut⟩ := hother u q hq
    have hold := h.asleep u q hq
    have hapart := h.apart t u r q hr hq (Ne.symm hut)
    refine ⟨?_, fun w hw => ?_, fun w hw => ⟨fun hmem => ?_, ?_⟩⟩
    · show q.inodePos = OsTruth.inodePos fs.part q.inodeNo
      rw [hpart]
      exact hold.inodePos
    · have hw' : w ∈ p :: σ.fs.part.openInodes := hlist ▸ hw
      show fs.numberOf w ≠ some q.inodeNo
      rw [hnumber]
      by_cases hwp : w = p
      · rw [if_pos hwp]
        exact fun heq => hapart.1 (Option.some.inj heq)
      · rw [if_neg hwp]
        exact hold.missing w (List.mem_of_ne_of_mem hwp hw')
    · have hmem' : w ∈ p :: σ.fs.part.openInodes := hlist ▸ hmem
      rcases List.mem_cons.mp hmem' with rfl | hmem'
      · exact hapart.2 w hfound hw
      · exact (hold.own w hw).1 hmem'
    · show w.id < fs.next
      rw [hnext]
      exact (hold.own w hw).2
  · exact h.apart u v q q' (hother u q hq).1 (hother v q' hq').1 huv

/-- A task closes an inode. -/
theorem InodeTasks.Shared.close (h : σ.Shared n) {fs : State}
    (hrun : σ.exec t (inodeClose p) = .ok ((), fs)) : ({ σ with fs := fs }).Shared n := by
  obtain ⟨hnext, hcase⟩ := ensures_iff.mp inodeClose_ensures () fs hrun
  have hle : σ.fs.next ≤ fs.next := Nat.le_of_eq hnext.symm
  rcases hcase with ⟨hpart, hnumber⟩ | ⟨hpart, hnumber⟩
  · have hlist : fs.part.openInodes = σ.fs.part.openInodes := by rw [hpart]
    have hkeep : ∀ q, q ∈ σ.fs.part.openInodes → fs.numberOf q = σ.fs.numberOf q := fun q _ =>
      congrFun hnumber q
    refine ⟨h.copies.same hlist hkeep, fun q hq => ?_, h.tasks,
      fun u r hr => (h.asleep u r hr).same hpart hle hkeep, h.apart⟩
    have hq' : q ∈ σ.fs.part.openInodes := hlist ▸ hq
    exact Nat.lt_of_lt_of_le (h.below q hq') hle
  · have hlist : fs.part.openInodes = σ.fs.part.openInodes.erase p := by rw [hpart]
    have hmem : ∀ q, q ∈ fs.part.openInodes → q ∈ σ.fs.part.openInodes := fun q hq =>
      List.mem_of_mem_erase (hlist ▸ hq)
    refine ⟨h.copies.erase hlist hnumber,
      fun q hq => Nat.lt_of_lt_of_le (h.below q (hmem q hq)) hle, h.tasks, fun u r hr => ?_,
      h.apart⟩
    have hold := h.asleep u r hr
    refine ⟨?_, fun q hq => ?_, fun q hq =>
      ⟨fun hin => (hold.own q hq).1 (hmem q hin), Nat.lt_of_lt_of_le (hold.own q hq).2 hle⟩⟩
    · rw [hpart]
      exact hold.inodePos
    · rw [hnumber]
      by_cases hqp : q = p
      · rw [if_pos hqp]
        nofun
      · rw [if_neg hqp]
        exact hold.missing q (hmem q hq)

/-- A step that meets the condition keeps the invariant. -/
theorem InodeTasks.Shared.step (h : σ.Shared n) (hok : inodeCallAlone n σ c)
    (hstep : inodeStep σ c = .ok τ) : τ.Shared n := by
  cases c with
  | inodeOpen t inodeNo =>
      obtain ⟨⟨ht, -⟩, halone⟩ := hok
      rw [inodeStep] at hstep
      cases hrun : σ.exec t (inodeOpenEnter inodeNo) with
      | error e =>
          rw [hrun] at hstep
          cases hstep
      | ok r =>
          rw [hrun] at hstep
          cases hstep
          exact h.enter ht halone hrun
  | ideRead t =>
      obtain ⟨-, hslot⟩ := hok
      rw [inodeStep] at hstep
      cases hr : σ.asleep t with
      | none =>
          rw [hr] at hstep
          cases hstep
      | some r =>
          have hslot' : ((σ.asleep t).all fun r =>
            (readSlot σ.fs.part σ.fs.disk r.inodeNo).iNo = r.inodeNo) = true := hslot
          rw [hr] at hstep
          rw [hr, Option.all_some, decide_eq_true_iff] at hslot'
          cases hrun : σ.exec t (inodeOpenLeave r) with
          | error e =>
              simp only [hrun, bind, Except.bind, reduceCtorEq] at hstep
          | ok a =>
              simp only [hrun, bind, Except.bind] at hstep
              cases hstep
              exact h.leave hr hslot' hrun
  | inodeClose t inode =>
      rw [inodeStep] at hstep
      cases hrun : σ.exec t (inodeClose inode) with
      | error e =>
          rw [hrun] at hstep
          cases hstep
      | ok a =>
          rw [hrun] at hstep
          cases hstep
          exact h.close hrun

/-- No task is in `inode_open`, and the list links different inodes that were allocated. -/
def InodeTasks.Quiet (σ : InodeTasks) : Prop :=
  σ.fs.OneCopy ∧ (∀ p, p ∈ σ.fs.part.openInodes → p.id < σ.fs.next) ∧ ∀ t, σ.asleep t = none

theorem InodeTasks.Quiet.shared (h : σ.Quiet) (n : Nat) : σ.Shared n where
  copies := h.1
  below := h.2.1
  tasks t _ := h.2.2 t
  asleep t r hr := by
    rw [h.2.2 t] at hr
    cases hr
  apart t u r q hr := by
    rw [h.2.2 t] at hr
    cases hr

/-- Over every run whose steps meet the condition, the open inodes have different numbers. -/
theorem inodesShared_of_run (h : σ.Quiet) (hrun : Reach inodeStep (inodeCallAlone n) σ τ) :
    τ.fs.OneCopy := by
  have hτ : τ.Shared n := hrun.invariant (h.shared n) fun _ _ _ hσ hok hstep => hσ.step hok hstep
  exact hτ.copies

instance (n : Nat) (σ : InodeTasks) : DecidablePred (inodeCall n σ)
  | .inodeOpen t _ | .inodeClose t _ =>
      inferInstanceAs (Decidable (t < n ∧ (σ.asleep t).isNone = true))
  | .ideRead t => inferInstanceAs (Decidable (t < n ∧ (σ.asleep t).isSome = true))

instance (n : Nat) (σ : InodeTasks) : DecidablePred (inodeCallAlone n σ)
  | .inodeOpen t inodeNo => inferInstanceAs (Decidable (inodeCall n σ (.inodeOpen t inodeNo) ∧
      ∀ u, u < n → (σ.asleep u).map InodeReading.inodeNo ≠ some inodeNo))
  | .ideRead t => inferInstanceAs (Decidable (inodeCall n σ (.ideRead t) ∧
      ((σ.asleep t).all fun r => (readSlot σ.fs.part σ.fs.disk r.inodeNo).iNo = r.inodeNo) = true))
  | .inodeClose t inode => inferInstanceAs (Decidable (inodeCall n σ (.inodeClose t inode) ∧ True))

instance (s : State) : Decidable s.OneCopy := inferInstanceAs (Decidable (_ ∧ _))

/-- Kernel threads on an empty partition. -/
def idleTasks : InodeTasks where
  fs := idleState (emptyPart 2048 8192)
  task _ := (idleState (emptyPart 2048 8192)).cur
  asleep _ := none

theorem idleTasks_quiet : idleTasks.Quiet :=
  ⟨⟨fun _ hp => absurd hp List.not_mem_nil, List.nodup_nil⟩,
    fun _ hp => absurd hp List.not_mem_nil, fun _ => rfl⟩

/-- Two tasks open the root inode, one after the other. -/
theorem inodesShared_root : ∃ τ, Reach inodeStep (inodeCallAlone 2) idleTasks τ ∧
    τ.fs.OneCopy ∧ τ.fs.part.openInodes = [⟨false, 0⟩] := by
  obtain ⟨τ, hrun, hτ⟩ := exists_reach inodeStep (inodeCallAlone 2) idleTasks
    [.inodeOpen 0 0, .ideRead 0, .inodeOpen 1 0, .inodeClose 0 ⟨false, 0⟩]
    (fun τ => τ.fs.part.openInodes = [⟨false, 0⟩])
    (by decide +kernel) (by decide +kernel)
  exact ⟨τ, hrun, inodesShared_of_run idleTasks_quiet hrun, hτ⟩

/-- Task 1 looks for the root inode while task 0 reads it, and both link a copy. -/
theorem inodesShared_root_twice :
    ∃ τ, Reach inodeStep (inodeCall 2) idleTasks τ ∧ ¬τ.fs.OneCopy := by
  obtain ⟨τ, hrun, hτ⟩ := exists_reach inodeStep (inodeCall 2) idleTasks
    [.inodeOpen 0 0, .inodeOpen 1 0, .ideRead 0, .ideRead 1]
    (fun τ => ¬τ.fs.OneCopy)
    (by decide +kernel) (by decide +kernel)
  exact ⟨τ, hrun, hτ⟩

end

end OsTruth
