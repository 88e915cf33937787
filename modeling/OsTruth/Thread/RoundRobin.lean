/-
Every ready task gets the processor.

`thread_unblock` puts a task at the front of the ready list, so tasks that wake each other
pass those that wait there.  But blocking gives no new time slice: `ticks` is set only when
the slice is over, and then the task goes to the end.  So a ready task `t` waits for at
most what is left of the slices of all others, whatever calls they make.

With nothing but the clock, the tasks run in the order of the list, each for one tick more
than its slice.
-/
import OsTruth.Library.Rota
import OsTruth.Thread.Schedule

namespace OsTruth

open Fallible Runs

/-- The tasks, the ready list and what is left of each time slice. -/
def Threads.rota (σ : Threads) (f : Queue → List Nat) : Rota Nat :=
  ⟨Finset.range σ.taskCnt, f .ready, fun t => (σ.thread t).ticks.toNat⟩

/-- `t` has the processor, or `n` ticks of its wait are over. -/
def Nears (t n : Nat) (r : Rota Nat) (τ : Threads) : Prop :=
  τ.cur = t ∨ ∃ g, Queues τ.links g ∧ Rota.Waits t n r (τ.rota g)

section

variable {σ τ : Threads} {f g : Queue → List Nat} {t u n : Nat} {r : Rota Nat} {q : List Nat}

theorem Queues.unique {m : Links Node} {g : Queue → List Nat} (h : Queues m f) (h' : Queues m g) :
    f .ready = g .ready := by
  have hmap := (h.holds .ready).unique (h'.holds .ready)
  refine List.map_injective_iff.mpr (fun x y hxy => ?_) hmap
  exact (Queue.tag_inj hxy).1

@[simp]
theorem Threads.setThread_ticks (σ : Threads) (t u : Nat) (p : Thread) :
    ((σ.setThread t p).thread u).ticks = if u = t then p.ticks else (σ.thread u).ticks := by
  rw [setThread_thread]
  exact apply_ite Thread.ticks ..

@[simp]
theorem Threads.setStatus_ticks (σ : Threads) (t u : Nat) (stat : TaskStatus) :
    ((σ.setStatus t stat).thread u).ticks = (σ.thread u).ticks := by
  simp +contextual [setStatus]

@[simp]
theorem Threads.setThread_priority (σ : Threads) (t u : Nat) (p : Thread) :
    ((σ.setThread t p).thread u).priority =
      if u = t then p.priority else (σ.thread u).priority := by
  rw [setThread_thread]
  exact apply_ite Thread.priority ..

@[simp]
theorem Threads.setStatus_priority (σ : Threads) (t u : Nat) (stat : TaskStatus) :
    ((σ.setStatus t stat).thread u).priority = (σ.thread u).priority := by
  simp +contextual [setStatus]

@[simp]
theorem Threads.setInDown_ticks (σ : Threads) (t u : Nat) (d : Option Nat) :
    ((σ.setInDown t d).thread u).ticks = (σ.thread u).ticks := by
  simp +contextual [setInDown]

/-- The ready list changes, and the time slices stay. -/
theorem waits_queue (h : Rota.Waits t n r { σ.rota f with queue := q })
    (hcnt : τ.taskCnt = σ.taskCnt) (hq : g .ready = q)
    (hticks : ∀ u, (τ.thread u).ticks = (σ.thread u).ticks) : Rota.Waits t n r (τ.rota g) := by
  unfold Threads.rota
  rw [hcnt, hq]
  simp only [hticks]
  exact h

/-- The ready list changes, and one task gets another time slice. -/
theorem waits_budget {b : UInt8} (h : Rota.Waits t n r
      ⟨(σ.rota f).members, q, Function.update (σ.rota f).budget u b.toNat⟩)
    (hcnt : τ.taskCnt = σ.taskCnt) (hq : g .ready = q)
    (hticks : ∀ v, (τ.thread v).ticks = if v = u then b else (σ.thread v).ticks) :
    Rota.Waits t n r (τ.rota g) := by
  have hbudget : (τ.rota g).budget = Function.update (σ.rota f).budget u b.toNat := by
    funext v
    by_cases hv : v = u
    · rw [hv, Function.update_self]
      exact congrArg UInt8.toNat ((hticks u).trans (if_pos rfl))
    · rw [Function.update_of_ne hv]
      exact congrArg UInt8.toNat ((hticks v).trans (if_neg hv))
  have hrota : τ.rota g = ⟨(σ.rota f).members, q, (τ.rota g).budget⟩ := by
    unfold Threads.rota
    rw [hcnt, hq]
  rw [hrota, hbudget]
  exact h

/-! ## Functions -/

theorem update_waiters_ready (f : Queue → List Nat) (us : List Nat) (s : Nat) :
    Function.update f (.waiters s) us .ready = f .ready := by
  have hne : Queue.ready ≠ .waiters s := nofun
  exact Function.update_of_ne hne ..

/-- The first waiter of a semaphore leaves its list and goes to the front of the ready list. -/
theorem Scheduled.first_waiter (h : Scheduled σ f) {psema : Nat} {us : List Nat}
    (hf : f (.waiters psema) = u :: us) :
    (listPop σ.links (Queue.waiters psema).ends).1 = .generalTag u ∧
      Queues (listPop σ.links (Queue.waiters psema).ends).2
        (Function.update f (.waiters psema) us) ∧
      Queues (listPush (listPop σ.links (Queue.waiters psema).ends).2 Queue.ready.ends
        (.generalTag u)) (Function.update (Function.update f (.waiters psema) us) .ready
          (u :: f .ready)) ∧
      u ∉ f .ready ∧ (σ.thread u).status = .blocked := by
  obtain ⟨hfirst, hg⟩ := h.queues.pop hf
  have hmem : u ∈ f (.waiters psema) := by
    rw [hf]
    exact List.mem_cons_self
  have hsame := update_waiters_ready f us psema
  have hnodup := h.queues.nodup (.waiters psema)
  rw [hf] at hnodup
  have hnew : ∀ q', q'.tag u = Queue.ready.tag u →
      u ∉ Function.update f (.waiters psema) us q' := by
    intro q' htag hq'
    rcases mem_update.mp hq' with ⟨-, hus⟩ | ⟨hq, hother⟩
    · exact (List.nodup_cons.mp hnodup).1 hus
    · exact hq (h.queues.one _ _ (tag_eq_generalTag htag) nofun hother hmem)
  have hpush := hg.push (q := .ready) hnew
  rw [hsame] at hpush
  refine ⟨hfirst, hg, hpush, fun hr => ?_, ((h.waits psema u (h.small _ u hmem)).mp hmem).1⟩
  cases h.queues.one .ready (.waiters psema) nofun nofun hr hmem

/-- The first of `q` has the processor, and the others are ready. -/
structure TookFirst (σ : Threads) (q : List Nat) (τ : Threads) (g : Queue → List Nat) : Prop where
  queues : Queues τ.links g
  order : τ.cur :: g .ready = q
  tasks : τ.taskCnt = σ.taskCnt
  ticks : ∀ u, (τ.thread u).ticks = (σ.thread u).ticks
  priority : ∀ u, (τ.thread u).priority = (σ.thread u).priority

theorem switchNext_took (hf : Queues σ.links f) (hne : f .ready ≠ []) :
    Returns switchNext σ fun _ τ => ∃ g, TookFirst σ (f .ready) τ g := by
  obtain ⟨next, ts, hts⟩ := List.exists_cons_of_ne_nil hne
  obtain ⟨hfirst, hg⟩ := hf.pop hts
  have hempty : listEmpty σ.links Queue.ready.ends = false := by
    rw [hf.listEmpty_eq, decide_eq_false hne]
  refine Wp.bind.mpr (Wp.get.mpr (Wp.bind.mpr (sassert_returns hempty ?_)))
  show Returns (elem2entry (listPop σ.links Queue.ready.ends).1 >>= _) σ _
  rw [hfirst]
  refine ⟨_, hg, ?_, rfl, fun u => Threads.setStatus_ticks ..,
    fun u => Threads.setStatus_priority ..⟩
  rw [Function.update_self]
  exact hts.symm

/-- The idle thread is not needed while somebody is ready. -/
theorem scheduleNext_took (hf : Queues σ.links f) (hne : f .ready ≠ []) :
    Returns scheduleNext σ fun _ τ => ∃ g, TookFirst σ (f .ready) τ g := by
  refine Wp.bind.mpr (Wp.get.mpr (Wp.ite.mpr ⟨fun hempty => ?_, fun _ => switchNext_took hf hne⟩))
  rw [hf.listEmpty_eq, decide_eq_true_iff] at hempty
  exact absurd hempty hne

theorem Scheduled.not_ready (h : Scheduled σ f) : σ.cur ∉ f .ready :=
  h.not_mem (by simp)

/-- The slice is over: the current task goes to the end with a new one. -/
theorem Scheduled.expire_took (h : Scheduled σ f) : Returns schedule σ fun _ τ => ∃ g,
    TookFirst (σ.setThread σ.cur { σ.thread σ.cur with
      ticks := (σ.thread σ.cur).priority, status := .ready }) (f .ready ++ [σ.cur]) τ g := by
  have hready : (Function.update f .ready (f .ready ++ [σ.cur])) .ready = f .ready ++ [σ.cur] :=
    Function.update_self ..
  refine Wp.bind.mpr (Wp.get.mpr (Wp.ite.mpr ⟨fun _ => ?_, fun hrun => absurd h.runs hrun⟩))
  refine Wp.bind.mpr (appendNew_returns .ready h.queues (h.small .ready) h.not_ready
    (Wp.bind.mpr (Wp.modify.mpr ?_)))
  rw [← hready]
  refine (scheduleNext_took (h.queues.append (q := .ready) h.cur_new) ?_).call ?_
  · rw [hready]
    exact List.append_ne_nil_of_right_ne_nil _ (List.cons_ne_nil _ _)
  · rintro _ τ ⟨g, hg⟩
    exact ⟨g, hg.queues, hg.order, hg.tasks, hg.ticks, hg.priority⟩

/-- A ready task stays ready unless it is the first. -/
theorem TookFirst.nears (h : TookFirst σ (f .ready) τ g) (ht : t ∈ f .ready)
    (hr : Rota.Waits t n r (σ.rota f)) : Nears t n r τ := by
  by_cases hcur : τ.cur = t
  · exact Or.inl hcur
  · exact Or.inr ⟨g, h.queues,
      waits_queue (hr.trans (.pop ht h.order.symm hcur)) h.tasks rfl h.ticks⟩

/-- `schedule` when the current task is not the one to go on. -/
theorem schedule_nears (hf : Queues σ.links f) (ht : t ∈ f .ready)
    (hcur : (σ.thread σ.cur).status ≠ .running) (hr : Rota.Waits t n r (σ.rota f)) :
    Returns schedule σ fun _ τ => Nears t n r τ := by
  refine Wp.bind.mpr (Wp.get.mpr (Wp.ite.mpr ⟨fun hrun => absurd hrun hcur, fun _ => ?_⟩))
  refine (scheduleNext_took hf (List.ne_nil_of_mem ht)).call ?_
  rintro _ τ ⟨g, hg⟩
  exact hg.nears ht hr

theorem Scheduled.cur_ne (h : Scheduled σ f) (ht : t ∈ f .ready) : σ.cur ≠ t := by
  intro heq
  rw [← heq] at ht
  exact h.not_ready ht

theorem Scheduled.expire_nears (h : Scheduled σ f) (ht : t ∈ f .ready) :
    Returns schedule σ fun _ τ => Nears t 1 (σ.rota f) τ := by
  have hready : (Function.update f .ready (f .ready ++ [σ.cur])) .ready = f .ready ++ [σ.cur] :=
    Function.update_self ..
  refine h.expire_took.call ?_
  rintro _ τ ⟨g, hg⟩
  rw [← hready] at hg
  refine hg.nears ?_ (waits_budget (Rota.Waits.toEnd (r := σ.rota f) ht
    (Finset.mem_range.mpr h.cur) (h.cur_ne ht) h.not_ready _) rfl hready
    fun v => Threads.setThread_ticks ..)
  rw [hready]
  exact List.mem_append_left _ ht

theorem Scheduled.yield_nears (h : Scheduled σ f) (ht : t ∈ f .ready) :
    Returns threadYield σ fun _ τ => Nears t 0 (σ.rota f) τ := by
  have hne := h.cur_ne ht
  have hready : (Function.update f .ready (f .ready ++ [σ.cur])) .ready = f .ready ++ [σ.cur] :=
    Function.update_self ..
  have hqueues := h.queues.append (q := .ready) h.cur_new
  refine Wp.bind.mpr (Wp.get.mpr (Wp.bind.mpr (appendNew_returns .ready h.queues (h.small .ready)
    h.not_ready (Wp.bind.mpr (Wp.modify.mpr ?_)))))
  refine schedule_nears hqueues ?_ ?_ ?_
  · rw [hready]
    exact List.mem_append_left _ ht
  · show (if σ.cur = σ.cur then _ else _ : Thread).status ≠ .running
    rw [if_pos rfl]
    exact nofun
  · have hend := Rota.Waits.toEnd (r := σ.rota f) ht (Finset.mem_range.mpr h.cur) hne
      h.not_ready ((σ.rota f).budget σ.cur)
    rw [Function.update_eq_self] at hend
    exact waits_queue (hend.weaken (Nat.zero_le 1)) rfl hready
      fun u => Threads.setStatus_ticks ..

theorem toNat_sub_one {x : UInt8} (hx : x.toNat = n + 1) : (x - 1).toNat = n := by
  have hle : (1 : UInt8) ≤ x := by
    rw [UInt8.le_iff_toNat_le, hx]
    exact Nat.succ_le_succ (Nat.zero_le n)
  have hone : (1 : UInt8).toNat = 1 := rfl
  rw [UInt8.toNat_sub_of_le _ _ hle, hx, hone, Nat.add_sub_cancel]

theorem Scheduled.tick_nears (h : Scheduled σ f) (ht : t ∈ f .ready) :
    Returns intrTimerHandler σ fun _ τ => Nears t 1 (σ.rota f) τ := by
  have hne := h.cur_ne ht
  refine Wp.bind.mpr (Wp.get.mpr (Wp.ite.mpr ⟨fun _ => h.expire_nears ht, fun hticks => ?_⟩))
  refine Or.inr ⟨f, h.queues, ?_⟩
  obtain ⟨k, hk⟩ := Nat.exists_eq_succ_of_ne_zero fun h0 => hticks (UInt8.toNat_inj.mp h0)
  have hb : (σ.thread σ.cur).ticks.toNat = ((σ.thread σ.cur).ticks - 1).toNat + 1 := by
    rw [toNat_sub_one hk, hk]
  exact waits_budget (Rota.Waits.spend (r := σ.rota f) ht (Finset.mem_range.mpr h.cur) hne
    h.not_ready hb) rfl rfl fun v => Threads.setThread_ticks ..

theorem threadBlock_nears (hf : Queues σ.links f) (ht : t ∈ f .ready)
    (hr : Rota.Waits t n r (σ.rota f)) {stat : TaskStatus} (hstat : stat.Blocks) :
    Returns (threadBlock stat) σ fun _ τ => Nears t n r τ := by
  refine Wp.bind.mpr (sassert_returns hstat (Wp.bind.mpr (Wp.modify.mpr ?_)))
  refine schedule_nears hf ht ?_ ?_
  · show (if σ.cur = σ.cur then _ else _ : Thread).status ≠ .running
    rw [if_pos rfl]
    rcases hstat with rfl | rfl | rfl <;> exact nofun
  · exact waits_queue (f := f) hr rfl rfl fun u => Threads.setStatus_ticks ..

theorem Scheduled.unblock_nears (h : Scheduled σ f) (ht : t ∈ f .ready) (hu : u < σ.taskCnt)
    (hstat : (σ.thread u).status.Blocks) (hdown : (σ.thread u).inDown = none) :
    Returns (threadUnblock u) σ fun _ τ => Nears t 0 (σ.rota f) τ := by
  have hne : (σ.thread u).status ≠ .ready := by
    rcases hstat with h | h | h <;> rw [h] <;> exact nofun
  have hnone : ∀ q, q ≠ .all → u ∉ f q := fun q hq =>
    h.toQueued.not_mem hu hne (fun _ => hdown) hq
  have hut : u ≠ t := by
    rintro rfl
    exact hnone .ready nofun ht
  refine threadUnblock_returns h.queues (h.small .ready) (hnone .ready nofun) hstat ?_
  refine Or.inr ⟨_, h.queues.push (q := .ready)
    fun q' htag => hnone q' (tag_eq_generalTag htag), ?_⟩
  exact waits_queue (Rota.Waits.push (r := σ.rota f) ht hut) rfl (Function.update_self ..)
    fun v => Threads.setStatus_ticks ..

theorem Scheduled.down_nears (h : Scheduled σ f) (ht : t ∈ f .ready) (psema : Nat) :
    Returns (semaDown psema) σ fun _ τ => Nears t 0 (σ.rota f) τ := by
  have hwait := Rota.Waits.refl (r := σ.rota f) ht
  refine Wp.bind.mpr (Wp.get.mpr (Wp.ite.mpr ⟨fun _ => ?_, fun hzero => ?_⟩))
  · refine Wp.bind.mpr (appendNew_returns (.waiters psema) h.queues (h.small _)
      (h.not_mem nofun) (Wp.bind.mpr (Wp.modify.mpr ?_)))
    refine threadBlock_nears (h.queues.append (q := .waiters psema) h.cur_new) ?_ ?_ (Or.inl rfl)
    · rw [update_waiters_ready]
      exact ht
    · exact waits_queue (f := f) hwait rfl (update_waiters_ready ..)
        fun u => Threads.setInDown_ticks ..
  · have hone : σ.values psema = 1 := (h.values psema).resolve_left hzero
    refine Wp.bind.mpr (sassert_returns (by rw [hone]; rfl) (Wp.set.mpr (Or.inr ⟨f, h.queues, ?_⟩)))
    exact waits_queue (f := f) hwait rfl rfl fun u => Threads.setInDown_ticks ..

/-- The end of `sema_up`. -/
theorem Nears.value (h : Nears t n r τ) {psema : Nat} (hzero : τ.values psema = 0) :
    Returns (do
      let σ ← get
      sassert (σ.values psema + 1 = 1)
      set (σ.setValue psema (σ.values psema + 1))) τ fun _ υ => Nears t n r υ := by
  have hone : τ.values psema + 1 = 1 := by
    rw [hzero]
    rfl
  exact Wp.bind.mpr (Wp.get.mpr (Wp.bind.mpr (sassert_returns hone (Wp.set.mpr h))))

theorem Scheduled.up_nears (h : Scheduled σ f) (ht : t ∈ f .ready) {psema : Nat}
    (hzero : σ.values psema = 0) :
    Returns (semaUp psema) σ fun _ τ => Nears t 0 (σ.rota f) τ := by
  have hwait := Rota.Waits.refl (r := σ.rota f) ht
  refine Wp.bind.mpr (Wp.get.mpr (Wp.bind.mpr (sassert_returns hzero ?_)))
  refine Wp.ite.mpr ⟨fun hempty => ?_, fun _ => Nears.value (Or.inr ⟨f, h.queues, hwait⟩) hzero⟩
  rw [h.queues.listEmpty_eq, decide_eq_false_iff_not] at hempty
  obtain ⟨u, us, hf⟩ := List.exists_cons_of_ne_nil hempty
  obtain ⟨hfirst, hg, hpush, hready, hblocked⟩ := h.first_waiter hf
  have hut : u ≠ t := by
    rintro rfl
    exact hready ht
  have hsame := update_waiters_ready f us psema
  show Returns (elem2entry (listPop σ.links (Queue.waiters psema).ends).1 >>= _) σ _
  rw [hfirst]
  refine Wp.bind.mpr (Wp.pure.mpr (Wp.bind.mpr (Wp.set.mpr (Wp.bind.mpr ?_))))
  refine threadUnblock_returns (f := Function.update f (.waiters psema) us) (t := u)
    (σ := σ.setLinks (listPop σ.links (Queue.waiters psema).ends).2) hg ?_ ?_
    (Or.inl hblocked) (Nears.value (Or.inr ⟨_, hpush, ?_⟩) hzero)
  · rw [hsame]
    exact h.small .ready
  · rw [hsame]
    exact hready
  · exact waits_queue (Rota.Waits.push (r := σ.rota f) ht hut) rfl (Function.update_self ..)
      fun v => Threads.setStatus_ticks ..

/-- The new task comes last. -/
theorem Scheduled.start_nears (h : Scheduled σ f) (ht : t ∈ f .ready) (prio : UInt8) :
    Returns (threadStart prio) σ fun _ τ => Nears t 0 (σ.rota f) τ := by
  have hnew : ∀ q, σ.taskCnt ∉ f q := fun q hmem => Nat.lt_irrefl _ (h.small q _ hmem)
  have hready := h.queues.append (q := .ready) fun q _ => hnew q
  have hne : Queue.all ≠ .ready := nofun
  have hall : Function.update f .ready (f .ready ++ [σ.taskCnt]) .all = f .all :=
    Function.update_of_ne hne ..
  have hnewAll : ∀ q, q.tag σ.taskCnt = Queue.all.tag σ.taskCnt →
      σ.taskCnt ∉ Function.update f .ready (f .ready ++ [σ.taskCnt]) q := by
    intro q htag
    cases q with
    | all =>
        rw [hall]
        exact hnew .all
    | ready => cases htag
    | waiters s => cases htag
  refine Wp.bind.mpr (Wp.get.mpr (Wp.bind.mpr (Wp.set.mpr (Wp.bind.mpr ?_))))
  refine appendNew_returns (f := f) (t := σ.taskCnt) (σ := { σ.setThread σ.taskCnt ⟨.ready, prio,
    prio, none⟩ with taskCnt := σ.taskCnt + 1 }) .ready h.queues
    (fun u hu => Nat.lt_succ_of_lt (h.small .ready u hu)) (hnew .ready) ?_
  refine appendNew_returns (t := σ.taskCnt) (σ := { (σ.setThread σ.taskCnt ⟨.ready, prio, prio,
    none⟩).setLinks (listAppend σ.links Queue.ready.ends (Queue.ready.tag σ.taskCnt)) with
    taskCnt := σ.taskCnt + 1 }) .all hready (fun u hu => ?_) (hnewAll .all rfl) ?_
  · rw [hall] at hu
    exact Nat.lt_succ_of_lt (h.small .all u hu)
  · refine Or.inr ⟨_, hready.append (q := .all) hnewAll, ?_⟩
    have hjoin := Rota.Waits.join (r := σ.rota f) (y := σ.taskCnt) ht
      (fun hmem => Nat.lt_irrefl _ (Finset.mem_range.mp hmem)) prio.toNat
    have hmembers : insert σ.taskCnt (σ.rota f).members = Finset.range (σ.taskCnt + 1) :=
      Finset.range_add_one.symm
    rw [hmembers] at hjoin
    have hlast : (Function.update f .ready (f .ready ++ [σ.taskCnt])) .ready =
        f .ready ++ [σ.taskCnt] := Function.update_self ..
    exact waits_budget (σ := { σ with taskCnt := σ.taskCnt + 1 }) (f := f) (b := prio) hjoin rfl
      ((Function.update_of_ne (Ne.symm hne) ..).trans hlast) fun v => Threads.setThread_ticks ..

/-- The ticks of the clock among some calls. -/
def ThreadCall.ticks : ThreadCall → Nat
  | .tick => 1
  | _ => 0

def ticksOf (cs : List ThreadCall) : Nat := (cs.map ThreadCall.ticks).sum

/-- What one call does to a ready task. -/
theorem Scheduled.call_nears (h : Scheduled σ f) {c : ThreadCall} (hok : threadCall σ c)
    (ht : t ∈ f .ready) : Returns c.run σ fun _ τ => Nears t c.ticks (σ.rota f) τ := by
  cases c with
  | tick => exact h.tick_nears ht
  | start prio => exact h.start_nears ht prio
  | yield => exact h.yield_nears ht
  | block stat => exact threadBlock_nears h.queues ht (Rota.Waits.refl ht) hok.2.1
  | unblock u => exact h.unblock_nears ht hok.2.1 hok.2.2.1 hok.2.2.2.1
  | down psema => exact h.down_nears ht psema
  | up psema => exact h.up_nears ht hok.2
  | resume =>
      refine Wp.bind.mpr (Wp.get.mpr ?_)
      cases hdown : (σ.thread σ.cur).inDown with
      | none => exact absurd hdown hok
      | some psema => exact h.down_nears ht psema

/-- After a call `t` has the processor or is still ready, nearer to its turn. -/
theorem Scheduled.step_nears (h : Scheduled σ f) {c : ThreadCall} (hok : threadCall σ c)
    (ht : t ∈ f .ready) : ∃ τ, threadStep σ c = .ok τ ∧ (τ.cur = t ∨
      ∃ g, Scheduled τ g ∧ Rota.Waits t c.ticks (σ.rota f) (τ.rota g)) := by
  obtain ⟨_, τ, hrun, hnears⟩ := returns_iff.mp (h.call_nears hok ht)
  obtain ⟨_, τ', hrun', g, hg⟩ := returns_iff.mp (h.call_returns hok)
  have hsame := Except.ok.inj (hrun.symm.trans hrun')
  have hτ : τ = τ' := congrArg Prod.snd hsame
  have hstep : threadStep σ c = .ok τ := by
    rw [threadStep, hrun]
    rfl
  refine ⟨τ, hstep, hnears.imp_right ?_⟩
  rintro ⟨g', hg', hwaits⟩
  rw [← hτ] at hg
  refine ⟨g, hg, ?_⟩
  unfold Threads.rota
  rw [hg.queues.unique hg']
  exact hwaits

/-- What the calls of a run do to a ready task. -/
theorem Scheduled.run_nears (cs : List ThreadCall) : ∀ {σ : Threads} {f : Queue → List Nat},
    Scheduled σ f → t ∈ f .ready → AllOk threadStep threadCall σ cs →
    (∃ cs₁ cs₂ τ, cs = cs₁ ++ cs₂ ∧ runAll threadStep σ cs₁ = .ok τ ∧ τ.cur = t ∧
        ticksOf cs₁ ≤ (σ.rota f).wait t) ∨
      ∃ τ g, Scheduled τ g ∧ Rota.Waits t (ticksOf cs) (σ.rota f) (τ.rota g) := by
  induction cs with
  | nil => exact fun h ht _ => Or.inr ⟨_, _, h, Rota.Waits.refl ht⟩
  | cons c cs ih =>
      intro σ f h ht hok
      obtain ⟨τ, hstep, hτ⟩ := h.step_nears hok.1 ht
      have hrest : AllOk threadStep threadCall τ cs := by
        have hall := hok.2
        rw [hstep] at hall
        exact hall
      have hrunAll : ∀ ds, runAll threadStep σ (c :: ds) = runAll threadStep τ ds := by
        intro ds
        rw [runAll, hstep]
      rcases hτ with hcur | ⟨g, hg, hwaits⟩
      · refine Or.inl ⟨[c], cs, τ, rfl, hrunAll [], hcur, ?_⟩
        have hpos : 0 < (σ.rota f).wait t :=
          Rota.wait_pos (Finset.mem_range.mpr h.cur) (h.cur_ne ht) h.not_ready
        have hc : ticksOf [c] ≤ 1 := by
          cases c <;> simp [ticksOf, ThreadCall.ticks]
        omega
      · have hsum : ∀ ds, ticksOf (c :: ds) = c.ticks + ticksOf ds := fun ds => by
          simp [ticksOf]
        rcases ih hg hwaits.mem hrest with ⟨cs₁, cs₂, υ, hcs, hrun, hcur, hle⟩ | ⟨υ, k, hk, hw⟩
        · refine Or.inl ⟨c :: cs₁, cs₂, υ, by rw [hcs, List.cons_append], ?_, hcur, ?_⟩
          · rw [hrunAll, hrun]
          · have hfirst := hwaits.le
            rw [hsum]
            omega
        · refine Or.inr ⟨υ, k, hk, ?_⟩
          rw [hsum]
          exact hwaits.trans hw

theorem scheduled_of_run (values : Nat → UInt8) (hvalues : ∀ s, values s = 0 ∨ values s = 1) :
    ∃ σ₀, threadInit.run (bootThreads values) = .ok ((), σ₀) ∧
      ∀ σ, Reach threadStep threadCall σ₀ σ → ∃ f, Scheduled σ f := by
  obtain ⟨_, σ₀, hinit, hσ₀, -⟩ := returns_iff.mp (threadInit_returns hvalues)
  refine ⟨σ₀, hinit, fun σ hreach => ?_⟩
  refine hreach.invariant (I := fun σ => ∃ f, Scheduled σ f) hσ₀ fun σ c τ hσ hok hc => ?_
  obtain ⟨f, h⟩ := hσ
  obtain ⟨_, τ', hrun, hτ'⟩ := returns_iff.mp (h.call_returns hok)
  rw [threadStep, hrun] at hc
  cases hc
  exact hτ'

/-- From `thread_init` on, a ready task has the processor as soon as the clock ticked once
more for each other task than is left of all their time slices, whatever they call. -/
theorem ready_runs (values : Nat → UInt8) (hvalues : ∀ s, values s = 0 ∨ values s = 1) :
    ∃ σ₀, threadInit.run (bootThreads values) = .ok ((), σ₀) ∧
      ∀ σ, Reach threadStep threadCall σ₀ σ →
      ∀ t, t < σ.taskCnt → (σ.thread t).status = .ready →
      ∀ cs, AllOk threadStep threadCall σ cs →
      ∑ u ∈ (Finset.range σ.taskCnt).erase t, ((σ.thread u).ticks.toNat + 1) ≤ ticksOf cs →
      ∃ cs₁ cs₂ τ, cs = cs₁ ++ cs₂ ∧ runAll threadStep σ cs₁ = .ok τ ∧ τ.cur = t ∧
        ticksOf cs₁ ≤ ∑ u ∈ (Finset.range σ.taskCnt).erase t, ((σ.thread u).ticks.toNat + 1) := by
  obtain ⟨σ₀, hinit, hscheduled⟩ := scheduled_of_run values hvalues
  refine ⟨σ₀, hinit, fun σ hreach t hlt hready cs hok hticks => ?_⟩
  obtain ⟨f, h⟩ := hscheduled σ hreach
  have hle := Rota.wait_le (σ.rota f) t
  have ht := (h.ready t hlt).mpr hready
  rcases h.run_nears cs ht hok with ⟨cs₁, cs₂, τ, hcs, hrun, hcur, hwait⟩ | ⟨τ, g, hg, hwaits⟩
  · exact ⟨cs₁, cs₂, τ, hcs, hrun, hcur, Nat.le_trans hwait hle⟩
  · have hpos : 0 < (τ.rota g).wait t :=
      Rota.wait_pos (Finset.mem_range.mpr hg.cur) (hg.cur_ne hwaits.mem)
        hg.not_ready
    have hspent := hwaits.le
    have hsum : (σ.rota f).wait t ≤ ticksOf cs := Nat.le_trans hle hticks
    omega

/-- With nothing but the clock, `init` runs 43 ticks after `thread_init` at the latest. -/
theorem ready_runs_init : ∃ σ₀ cs τ, threadInit.run (bootThreads fun _ => 1) = .ok ((), σ₀) ∧
    runAll threadStep σ₀ cs = .ok τ ∧ τ.cur = 1 ∧ ticksOf cs ≤ 43 := by
  obtain ⟨σ₀, hinit, hruns⟩ := ready_runs (fun _ => 1) fun _ => Or.inr rfl
  have hstart : (match threadInit.run (bootThreads fun _ => 1) with
      | .ok (_, σ) => decide (AllOk threadStep threadCall σ (List.replicate 43 .tick) ∧
        1 < σ.taskCnt ∧ (σ.thread 1).status = .ready ∧
        ∑ u ∈ (Finset.range σ.taskCnt).erase 1, ((σ.thread u).ticks.toNat + 1) = 43 ∧
        ticksOf (List.replicate 43 .tick) = 43)
      | .error _ => false) = true := by decide +kernel
  rw [hinit] at hstart
  obtain ⟨hok, hlt, hready, hsum, hticks⟩ := of_decide_eq_true hstart
  obtain ⟨cs₁, cs₂, τ, -, hrun, hcur, hle⟩ := hruns σ₀ Relation.ReflTransGen.refl 1 hlt hready _ hok
    (Nat.le_of_eq (hsum.trans hticks.symm))
  exact ⟨σ₀, cs₁, τ, hinit, hrun, hcur, Nat.le_trans hle (Nat.le_of_eq hsum)⟩

/-! ## Rounds -/

/-- `n` ticks of the clock, with the tasks whose `elapsed_ticks` they count in. -/
def tickRun (σ : Threads) : Nat → Except Fault (List Nat × Threads)
  | 0 => .ok ([], σ)
  | n + 1 =>
      match threadStep σ .tick with
      | .error e => .error e
      | .ok τ => (tickRun τ n).map fun p => (σ.cur :: p.1, p.2)

theorem tickRun_succ {us : List Nat} {υ : Threads} (hstep : threadStep σ .tick = .ok τ)
    (hrun : tickRun τ n = .ok (us, υ)) : tickRun σ (n + 1) = .ok (σ.cur :: us, υ) := by
  rw [tickRun, hstep]
  simp only [hrun]
  rfl

theorem tickRun_add {k : Nat} {us vs : List Nat} {υ : Threads} :
    ∀ {σ : Threads}, tickRun σ n = .ok (us, τ) → tickRun τ k = .ok (vs, υ) →
      tickRun σ (n + k) = .ok (us ++ vs, υ) := by
  induction n generalizing us with
  | zero =>
      intro σ h hk
      cases h
      rw [Nat.zero_add]
      exact hk
  | succ n ih =>
      intro σ h hk
      rw [tickRun] at h
      cases hstep : threadStep σ .tick with
      | error e =>
          rw [hstep] at h
          cases h
      | ok ρ =>
          rw [hstep] at h
          cases hrun : tickRun ρ n with
          | error e =>
              simp only [hrun] at h
              cases h
          | ok p =>
              simp only [hrun] at h
              cases h
              rw [Nat.succ_add, tickRun_succ hstep (ih hrun hk), List.cons_append]

/-- The tasks of `as` had their turns: they have a whole slice again. -/
structure Served (σ : Threads) (as : List Nat) (τ : Threads) (q : List Nat) : Prop where
  scheduled : ∃ g, Scheduled τ g ∧ τ.cur :: g .ready = q
  ticks : ∀ u, (τ.thread u).ticks = if u ∈ as then (σ.thread u).priority else (σ.thread u).ticks
  priority : ∀ u, (τ.thread u).priority = (σ.thread u).priority

/-- The last tick of a slice. -/
theorem Scheduled.tick_expires (h : Scheduled σ f) (hticks : (σ.thread σ.cur).ticks = 0) :
    ∃ τ, threadStep σ .tick = .ok τ ∧ Served σ [σ.cur] τ (f .ready ++ [σ.cur]) := by
  have hsched := intrTimerHandler_returns h
  have htook : Returns intrTimerHandler σ fun _ τ => ∃ g,
      TookFirst (σ.setThread σ.cur { σ.thread σ.cur with
        ticks := (σ.thread σ.cur).priority, status := .ready }) (f .ready ++ [σ.cur]) τ g :=
    Wp.bind.mpr (Wp.get.mpr (Wp.ite.mpr ⟨fun _ => h.expire_took, fun hne => absurd hticks hne⟩))
  obtain ⟨_, τ, hrun, k, hk⟩ := returns_iff.mp hsched
  obtain ⟨_, τ', hrun', g, hg⟩ := returns_iff.mp htook
  have hτ : τ' = τ := congrArg Prod.snd (Except.ok.inj (hrun'.symm.trans hrun))
  rw [hτ] at hg
  refine ⟨τ, ?_, ⟨k, hk, ?_⟩, fun u => ?_, fun u => ?_⟩
  · rw [threadStep, ThreadCall.run, hrun]
    rfl
  · rw [hk.queues.unique hg.queues]
    exact hg.order
  · rw [hg.ticks, Threads.setThread_ticks]
    by_cases hu : u = σ.cur
    · rw [if_pos hu, if_pos (List.mem_singleton.mpr hu), hu]
    · rw [if_neg hu, if_neg fun hmem => hu (List.mem_singleton.mp hmem)]
  · rw [hg.priority, Threads.setThread_priority]
    by_cases hu : u = σ.cur
    · rw [if_pos hu, hu]
    · rw [if_neg hu]

/-- Any other tick of a slice. -/
theorem Scheduled.tick_spends (h : Scheduled σ f) (hticks : (σ.thread σ.cur).ticks ≠ 0) :
    ∃ τ, threadStep σ .tick = .ok τ ∧ Scheduled τ f ∧
      τ = σ.setThread σ.cur { σ.thread σ.cur with ticks := (σ.thread σ.cur).ticks - 1 } := by
  have hspent : Returns intrTimerHandler σ fun _ τ =>
      τ = σ.setThread σ.cur { σ.thread σ.cur with ticks := (σ.thread σ.cur).ticks - 1 } :=
    Wp.bind.mpr (Wp.get.mpr (Wp.ite.mpr ⟨fun h0 => absurd h0 hticks, fun _ => rfl⟩))
  obtain ⟨_, τ, hrun, hτ⟩ := returns_iff.mp hspent
  refine ⟨τ, ?_, ?_, hτ⟩
  · rw [threadStep, ThreadCall.run, hrun]
    rfl
  · rw [hτ]
    exact ⟨h.move (m := σ.links) (c := σ.cur) h.queues (fun _ _ _ => Iff.rfl) h.cur h.cur
      (h.ready σ.cur h.cur) (fun s => h.waits s σ.cur h.cur) (fun _ => rfl)
      (fun u hu _ => h.running u hu) (fun hid => ⟨hid ▸ h.idleDown, hid ▸ h.idles⟩),
      (congrArg Thread.status (if_pos rfl)).trans h.runs⟩

/-- A turn takes one tick more than is left of the slice. -/
theorem Scheduled.turn : ∀ {σ : Threads}, Scheduled σ f → (σ.thread σ.cur).ticks.toNat = n →
    ∃ τ, tickRun σ (n + 1) = .ok (List.replicate (n + 1) σ.cur, τ) ∧
      Served σ [σ.cur] τ (f .ready ++ [σ.cur]) := by
  induction n with
  | zero =>
      intro σ h hn
      obtain ⟨τ, hstep, hserved⟩ := h.tick_expires (UInt8.toNat_inj.mp hn)
      exact ⟨τ, tickRun_succ hstep rfl, hserved⟩
  | succ n ih =>
      intro σ h hn
      have hne : (σ.thread σ.cur).ticks ≠ 0 := by
        intro h0
        rw [h0] at hn
        cases hn
      obtain ⟨ρ, hstep, hρ, heq⟩ := h.tick_spends hne
      have hcur : ρ.cur = σ.cur := by rw [heq]; rfl
      have hticks : ∀ u, (ρ.thread u).ticks =
          if u = σ.cur then (σ.thread σ.cur).ticks - 1 else (σ.thread u).ticks := by
        intro u
        rw [heq]
        exact Threads.setThread_ticks ..
      have hpriority : ∀ u, (ρ.thread u).priority = (σ.thread u).priority := by
        intro u
        rw [heq, Threads.setThread_priority]
        by_cases hu : u = σ.cur
        · rw [if_pos hu, hu]
        · rw [if_neg hu]
      have hleft : (ρ.thread ρ.cur).ticks.toNat = n := by
        rw [hcur, hticks, if_pos rfl]
        exact toNat_sub_one hn
      obtain ⟨τ, hrun, hserved⟩ := ih hρ hleft
      rw [hcur] at hrun hserved
      refine ⟨τ, tickRun_succ hstep hrun, hserved.scheduled, fun u => ?_, fun u => ?_⟩
      · rw [hserved.ticks, hpriority, hticks]
        by_cases hu : u ∈ [σ.cur]
        · rw [if_pos hu, if_pos hu]
        · rw [if_neg hu, if_neg hu, if_neg fun heq => hu (List.mem_singleton.mpr heq)]
      · rw [hserved.priority, hpriority]

/-- The turns of the tasks of `as`, which come first. -/
theorem Scheduled.turns (as : List Nat) : ∀ {σ : Threads} {f : Queue → List Nat} {bs : List Nat},
    Scheduled σ f → σ.cur :: f .ready = as ++ bs →
    ∃ τ, tickRun σ (as.map fun u => (σ.thread u).ticks.toNat + 1).sum =
        .ok (as.flatMap fun u => List.replicate ((σ.thread u).ticks.toNat + 1) u, τ) ∧
      Served σ as τ (bs ++ as) := by
  induction as with
  | nil =>
      intro σ f bs h hq
      refine ⟨σ, rfl, ⟨f, h, ?_⟩, fun u => (if_neg List.not_mem_nil).symm, fun _ => rfl⟩
      rw [hq, List.append_nil, List.nil_append]
  | cons a as ih =>
      intro σ f bs h hq
      rw [List.cons_append] at hq
      obtain ⟨hcur, hready⟩ := List.cons.inj hq
      obtain ⟨ρ, hturn, hρ⟩ := h.turn rfl
      obtain ⟨g, hg, horder⟩ := hρ.scheduled
      have hnot : σ.cur ∉ as := by
        intro hmem
        refine h.not_ready ?_
        rw [hready]
        exact List.mem_append_left _ hmem
      have hticks : ∀ u ∈ as, (ρ.thread u).ticks = (σ.thread u).ticks := by
        intro u hu
        rw [hρ.ticks, if_neg]
        rw [List.mem_singleton]
        rintro rfl
        exact hnot hu
      have hnext : ρ.cur :: g .ready = as ++ (bs ++ [a]) := by
        rw [horder, hready, hcur, List.append_assoc]
      obtain ⟨τ, hrun, hτ⟩ := ih hg hnext
      have hsum : (as.map fun u => (ρ.thread u).ticks.toNat + 1) =
          as.map fun u => (σ.thread u).ticks.toNat + 1 :=
        List.map_congr_left fun u hu => by rw [hticks u hu]
      have hlist : (as.flatMap fun u => List.replicate ((ρ.thread u).ticks.toNat + 1) u) =
          as.flatMap fun u => List.replicate ((σ.thread u).ticks.toNat + 1) u :=
        List.flatMap_congr fun u hu => by rw [hticks u hu]
      rw [hsum, hlist] at hrun
      refine ⟨τ, ?_, ?_, fun u => ?_, fun u => ?_⟩
      · rw [List.map_cons, List.sum_cons, List.flatMap_cons, ← hcur]
        exact tickRun_add hturn hrun
      · have hτ' := hτ.scheduled
        rw [List.append_assoc] at hτ'
        exact hτ'
      · rw [hτ.ticks, hρ.ticks, hρ.priority, hcur]
        by_cases hu : u ∈ as
        · rw [if_pos hu, if_pos (List.mem_cons_of_mem a hu)]
        · simp [hu]
      · rw [hτ.priority, hρ.priority]

/-- From `thread_init` on, and with nothing but the clock: the current task and the ready
ones have their turns in the order of the list, each for what is left of its slice and one
tick more, and then stand as before with a whole slice each. -/
theorem round_in_order (values : Nat → UInt8) (hvalues : ∀ s, values s = 0 ∨ values s = 1) :
    ∃ σ₀, threadInit.run (bootThreads values) = .ok ((), σ₀) ∧
      ∀ σ, Reach threadStep threadCall σ₀ σ → ∃ f, SchedRight σ f ∧
      ∃ τ g, tickRun σ ((σ.cur :: f .ready).map fun u => (σ.thread u).ticks.toNat + 1).sum =
          .ok ((σ.cur :: f .ready).flatMap fun u =>
            List.replicate ((σ.thread u).ticks.toNat + 1) u, τ) ∧
        SchedRight τ g ∧ τ.cur :: g .ready = σ.cur :: f .ready ∧
        (∀ u ∈ σ.cur :: f .ready, (τ.thread u).ticks = (σ.thread u).priority) ∧
        ∀ u, (τ.thread u).priority = (σ.thread u).priority := by
  obtain ⟨σ₀, hinit, hscheduled⟩ := scheduled_of_run values hvalues
  refine ⟨σ₀, hinit, fun σ hreach => ?_⟩
  obtain ⟨f, h⟩ := hscheduled σ hreach
  have hall : σ.cur :: f .ready = (σ.cur :: f .ready) ++ [] := (List.append_nil _).symm
  obtain ⟨τ, hrun, hτ⟩ := h.turns (σ.cur :: f .ready) hall
  obtain ⟨g, hg, horder⟩ := hτ.scheduled
  refine ⟨f, h.right, τ, g, hrun, hg.right, horder, fun u hu => ?_, hτ.priority⟩
  rw [hτ.ticks, if_pos hu]

/-- The first round after `thread_init`. -/
theorem round_in_order_boot : ∃ (σ₀ τ : Threads) (f g : Queue → List Nat),
    threadInit.run (bootThreads fun _ => 1) = .ok ((), σ₀) ∧ SchedRight σ₀ f ∧
    tickRun σ₀ ((σ₀.cur :: f .ready).map fun u => (σ₀.thread u).ticks.toNat + 1).sum =
      .ok ((σ₀.cur :: f .ready).flatMap fun u =>
        List.replicate ((σ₀.thread u).ticks.toNat + 1) u, τ) ∧
    τ.cur :: g .ready = σ₀.cur :: f .ready := by
  obtain ⟨σ₀, hinit, hround⟩ := round_in_order (fun _ => 1) fun _ => Or.inr rfl
  obtain ⟨f, hright, τ, g, hrun, -, horder, -⟩ := hround σ₀ Relation.ReflTransGen.refl
  exact ⟨σ₀, τ, f, g, hinit, hright, hrun, horder⟩

end

end OsTruth
