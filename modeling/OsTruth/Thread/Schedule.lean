/-
The ready list, the waiters of the semaphores and the status of the tasks agree.

`Queues m f` says that the links hold each list, with the tasks of `f`.  `Placed σ f` ties
the tasks of the lists to their status.  A call changes the place of one task at a time,
and `Queued.move` is the only lemma about that; `Scheduled` holds in between two calls,
when the running task has its status back.
-/
import Mathlib.Data.List.Perm.Subperm
import OsTruth.Library.Framing
import OsTruth.Library.Runs
import OsTruth.Thread.Thread

namespace OsTruth

open Fallible Runs

/-! ## The lists -/

/-- The node by which a task is linked into a list. -/
def Queue.tag : Queue → Nat → Node
  | .all, t => .allListTag t
  | _, t => .generalTag t

/-- List `q` holds the tasks `f q`. -/
def Queues (m : Links Node) (f : Queue → List Nat) : Prop :=
  Links.Lists m Node.head Node.tail fun q => (f q).map q.tag

section

variable {m : Links Node} {f g : Queue → List Nat} {q : Queue} {t : Nat} {ts : List Nat}

theorem Queue.tag_inj {q q' : Queue} {t u : Nat} (h : q.tag t = q'.tag u) :
    t = u ∧ q.tag t = q'.tag t := by
  cases q <;> cases q' <;> simp_all [Queue.tag]

theorem Queue.tag_ne (q : Queue) (t : Nat) :
    (∀ q', q.tag t ≠ .head q') ∧ ∀ q', q.tag t ≠ .tail q' := by
  cases q <;> exact ⟨fun _ => nofun, fun _ => nofun⟩

/-- The node of a task is in a list exactly when the task is. -/
theorem tag_mem_nodes (q' : Queue) : q.tag t ∈ Links.nodes (.head q') (.tail q')
    ((f q').map q'.tag) ↔ t ∈ f q' ∧ q'.tag t = q.tag t := by
  rw [Links.mem_nodes, List.mem_map]
  constructor
  · rintro (h | ⟨u, hu, heq⟩ | h)
    · exact absurd h ((q.tag_ne t).1 q')
    · obtain ⟨rfl, htag⟩ := Queue.tag_inj heq
      exact ⟨hu, htag.trans (htag.symm.trans heq)⟩
    · exact absurd h ((q.tag_ne t).2 q')
  · exact fun h => Or.inr (Or.inl ⟨t, h.1, h.2⟩)

/-- A list of tasks is replaced. -/
theorem map_update (q : Queue) (ts : List Nat) :
    (fun q' => (Function.update f q ts q').map q'.tag) =
      Function.update (fun q' => (f q').map q'.tag) q (ts.map q.tag) := by
  funext q'
  by_cases h : q' = q
  · rw [h, Function.update_self, Function.update_self]
  · rw [Function.update_of_ne h, Function.update_of_ne h]

theorem Queues.append (h : Queues m f) (hnew : ∀ q', q'.tag t = q.tag t → t ∉ f q') :
    Queues (listAppend m q.ends (q.tag t)) (Function.update f q (f q ++ [t])) := by
  unfold Queues
  rw [map_update, List.map_append]
  exact Links.Lists.append h q fun q' hmem =>
    hnew q' ((tag_mem_nodes q').mp hmem).2 ((tag_mem_nodes q').mp hmem).1

theorem Queues.push (h : Queues m f) (hnew : ∀ q', q'.tag t = q.tag t → t ∉ f q') :
    Queues (listPush m q.ends (q.tag t)) (Function.update f q (t :: f q)) := by
  unfold Queues
  rw [map_update, List.map_cons]
  exact Links.Lists.push h q fun q' hmem =>
    hnew q' ((tag_mem_nodes q').mp hmem).2 ((tag_mem_nodes q').mp hmem).1

/-- The first task goes. -/
theorem Queues.pop (h : Queues m f) (hq : f q = t :: ts) :
    (listPop m q.ends).1 = q.tag t ∧
      Queues (listPop m q.ends).2 (Function.update f q ts) := by
  obtain ⟨hnext, hlists⟩ := Links.Lists.pop (e := q.tag t) h q (ts.map q.tag) (by
    show (f q).map q.tag = _
    rw [hq, List.map_cons])
  have hfirst : (listPop m q.ends).1 = q.tag t := hnext
  refine ⟨hfirst, ?_⟩
  unfold Queues
  rw [map_update]
  show Links.Lists (m.remove (listPop m q.ends).1) _ _ _
  rw [hfirst]
  exact hlists

theorem Queues.listEmpty_eq (h : Queues m f) : listEmpty m q.ends = decide (f q = []) := by
  refine decide_eq_decide.mpr ((h.holds q).next_eq.trans ?_)
  exact List.map_eq_nil_iff

theorem Queues.nodup (h : Queues m f) (q : Queue) : (f q).Nodup := by
  have hnodup := (h.holds q).nodup
  have hmid : ((f q).map q.tag).Nodup :=
    (List.nodup_append.mp (List.nodup_cons.mp hnodup).2).1
  exact hmid.of_map

/-- No list is longer than there are tasks. -/
theorem Queues.length_le (h : Queues m f) {n : Nat} (hsmall : ∀ t, t ∈ f q → t < n) :
    (f q).length ≤ n := by
  have hsub : f q ⊆ List.range n := fun t ht => List.mem_range.mpr (hsmall t ht)
  have hlen := (List.subperm_of_subset (h.nodup q) hsub).length_le
  rwa [List.length_range] at hlen

theorem Queues.elemFind_eq (h : Queues m f) {n : Nat} (hsmall : ∀ t, t ∈ f q → t < n) (t : Nat) :
    elemFind m q.ends (q.tag t) (n + 1) = .ok (decide (t ∈ f q)) := by
  have hlen : ((f q).map q.tag).length < n + 1 := by
    rw [List.length_map]
    exact Nat.lt_succ_of_le (h.length_le hsmall)
  have hwalk := (h.holds q).walk (q.tag t) _ hlen
  have hmem : q.tag t ∈ (f q).map q.tag ↔ t ∈ f q := by
    rw [List.mem_map]
    constructor
    · rintro ⟨u, hu, heq⟩
      obtain ⟨rfl, -⟩ := Queue.tag_inj heq
      exact hu
    · exact fun ht => ⟨t, ht, rfl⟩
  rw [decide_eq_decide.mpr hmem] at hwalk
  have hwalk' : m.walk q.ends.tail (q.tag t) (n + 1) (m.next q.ends.head) =
      some (decide (t ∈ f q)) := hwalk
  rw [elemFind, hwalk']

/-- A task is in one of the lists that use its `general_tag`. -/
theorem Queues.one (h : Queues m f) (q q' : Queue) (hq : q ≠ .all) (hq' : q' ≠ .all)
    (ht : t ∈ f q) (ht' : t ∈ f q') : q = q' := by
  have htag : q.tag t = q'.tag t := by
    cases q <;> cases q' <;> first | rfl | exact absurd rfl hq | exact absurd rfl hq'
  exact h.apart q q' (q.tag t) ((tag_mem_nodes q).mpr ⟨ht, rfl⟩)
    ((tag_mem_nodes q').mpr ⟨ht', htag.symm⟩)

theorem mem_update {u : Nat} {q q' : Queue} : u ∈ Function.update f q ts q' ↔
    (q' = q ∧ u ∈ ts) ∨ (q' ≠ q ∧ u ∈ f q') := by
  by_cases h : q' = q
  · rw [h, Function.update_self]
    simp
  · rw [Function.update_of_ne h]
    simp [h]

end

/-! ## Tasks in their places -/

/-- What the idle thread's status can be: it blocks itself with `TASK_BLOCKED` only. -/
def TaskStatus.Idles (stat : TaskStatus) : Prop :=
  stat = .running ∨ stat = .ready ∨ stat = .blocked

/-- The lists hold the tasks that their status says. -/
structure Queued (σ : Threads) (f : Queue → List Nat) : Prop where
  queues : Queues σ.links f
  small : ∀ q t, t ∈ f q → t < σ.taskCnt
  cur : σ.cur < σ.taskCnt
  idle : σ.idleThread < σ.taskCnt
  ready : ∀ t, t < σ.taskCnt → (t ∈ f .ready ↔ (σ.thread t).status = .ready)
  waits : ∀ s t, t < σ.taskCnt → (t ∈ f (.waiters s) ↔
    (σ.thread t).status = .blocked ∧ (σ.thread t).inDown = some s)
  running : ∀ t, t < σ.taskCnt → (σ.thread t).status = .running → t = σ.cur
  values : ∀ s, σ.values s = 0 ∨ σ.values s = 1
  idleDown : (σ.thread σ.idleThread).inDown = none
  idles : (σ.thread σ.idleThread).status.Idles

/-- In between two calls the current task is the one that runs. -/
structure Scheduled (σ : Threads) (f : Queue → List Nat) : Prop extends Queued σ f where
  runs : (σ.thread σ.cur).status = .running

section

variable {σ τ : Threads} {f g : Queue → List Nat} {m : Links Node} {t u c : Nat} {p : Thread}

theorem Threads.setThread_thread (σ : Threads) (t u : Nat) (p : Thread) :
    (σ.setThread t p).thread u = if u = t then p else σ.thread u :=
  rfl

/-- A task may change its record and its place together. -/
theorem Queued.move (h : Queued σ f) (hg : Queues m g)
    (hsame : ∀ q u, u ≠ t → (u ∈ g q ↔ u ∈ f q)) (ht : t < σ.taskCnt) (hc : c < σ.taskCnt)
    (hready : t ∈ g .ready ↔ p.status = .ready)
    (hwaits : ∀ s, t ∈ g (.waiters s) ↔ p.status = .blocked ∧ p.inDown = some s)
    (hrun : p.status = .running → t = c)
    (hruns : ∀ u, u < σ.taskCnt → u ≠ t → (σ.thread u).status = .running → u = c)
    (hidle : t = σ.idleThread → p.inDown = none ∧ p.status.Idles) :
    Queued { (σ.setLinks m).setThread t p with cur := c } g where
  queues := hg
  small q u hu := by
    by_cases hut : u = t
    · exact Nat.lt_of_le_of_lt (Nat.le_of_eq hut) ht
    · exact h.small q u ((hsame q u hut).mp hu)
  cur := hc
  idle := h.idle
  ready u hu := by
    show u ∈ g .ready ↔ (((σ.setLinks m).setThread t p).thread u).status = .ready
    rw [Threads.setThread_thread]
    by_cases hut : u = t
    · rw [if_pos hut, hut]
      exact hready
    · rw [if_neg hut, hsame .ready u hut]
      exact h.ready u hu
  waits s u hu := by
    show u ∈ g (.waiters s) ↔ (((σ.setLinks m).setThread t p).thread u).status = .blocked ∧
      (((σ.setLinks m).setThread t p).thread u).inDown = some s
    rw [Threads.setThread_thread]
    by_cases hut : u = t
    · rw [if_pos hut, hut]
      exact hwaits s
    · rw [if_neg hut, hsame (.waiters s) u hut]
      exact h.waits s u hu
  running u hu hstat := by
    have hstat' : (((σ.setLinks m).setThread t p).thread u).status = .running := hstat
    rw [Threads.setThread_thread] at hstat'
    by_cases hut : u = t
    · rw [if_pos hut] at hstat'
      exact hut.trans (hrun hstat')
    · rw [if_neg hut] at hstat'
      exact hruns u hu hut hstat'
  values := h.values
  idleDown := by
    show (((σ.setLinks m).setThread t p).thread σ.idleThread).inDown = none
    rw [Threads.setThread_thread]
    by_cases hut : σ.idleThread = t
    · rw [if_pos hut]
      exact (hidle hut.symm).1
    · rw [if_neg hut]
      exact h.idleDown
  idles := by
    show (((σ.setLinks m).setThread t p).thread σ.idleThread).status.Idles
    rw [Threads.setThread_thread]
    by_cases hut : σ.idleThread = t
    · rw [if_pos hut]
      exact (hidle hut.symm).2
    · rw [if_neg hut]
      exact h.idles

/-- A task that is not ready and waits for nothing is in none of these lists. -/
theorem Queued.not_mem (h : Queued σ f) (ht : t < σ.taskCnt)
    (hready : (σ.thread t).status ≠ .ready)
    (hwaits : (σ.thread t).status = .blocked → (σ.thread t).inDown = none) {q : Queue}
    (hq : q ≠ .all) : t ∉ f q := by
  intro hmem
  cases q with
  | ready => exact hready ((h.ready t ht).mp hmem)
  | all => exact hq rfl
  | waiters s =>
      obtain ⟨hstat, hdown⟩ := (h.waits s t ht).mp hmem
      rw [hwaits hstat] at hdown
      cases hdown

/-! ## Linking a task -/

theorem tag_eq_generalTag {q' : Queue} (h : q'.tag t = .generalTag t) : q' ≠ .all := by
  rintro rfl
  cases h

theorem sassert_returns {b : Prop} [Decidable b] (hb : b) {Q : Unit → Threads → Prop}
    (hQ : Q () σ) : Returns (sassert b) σ Q :=
  Wp.lift_ok (if_pos hb) hQ

/-- What `appendNew` does with a task that is not in the list. -/
theorem appendNew_returns (q : Queue) (hf : Queues σ.links f)
    (hsmall : ∀ u, u ∈ f q → u < σ.taskCnt) (hnew : t ∉ f q) {Q : Unit → Threads → Prop}
    (hQ : Q () (σ.setLinks (listAppend σ.links q.ends (q.tag t)))) :
    Returns (appendNew q (q.tag t)) σ Q := by
  have hfind := hf.elemFind_eq hsmall t
  rw [decide_eq_false hnew] at hfind
  refine Wp.bind.mpr (Wp.get.mpr (Wp.bind.mpr (Wp.lift_ok hfind ?_)))
  exact Wp.bind.mpr (sassert_returns rfl hQ)

theorem threadUnblock_returns (hf : Queues σ.links f)
    (hsmall : ∀ u, u ∈ f .ready → u < σ.taskCnt) (hnew : t ∉ f .ready)
    (hstat : (σ.thread t).status.Blocks) {Q : Unit → Threads → Prop}
    (hQ : Q () ((σ.setLinks (listPush σ.links Queue.ready.ends (.generalTag t))).setStatus t
      .ready)) :
    Returns (threadUnblock t) σ Q := by
  have hfind := hf.elemFind_eq hsmall t
  rw [decide_eq_false hnew] at hfind
  have hne : (σ.thread t).status ≠ .ready := by
    intro h
    rw [h] at hstat
    rcases hstat with h | h | h <;> cases h
  refine Wp.bind.mpr (Wp.get.mpr (Wp.bind.mpr (sassert_returns hstat ?_)))
  rw [if_pos hne]
  exact Wp.bind.mpr (Wp.lift_ok hfind (Wp.bind.mpr (sassert_returns rfl hQ)))

/-- The tasks of the other lists, and the other tasks of this one, stay. -/
theorem mem_update_ne {q : Queue} {ts : List Nat} (hts : ∀ u, u ≠ t → (u ∈ ts ↔ u ∈ f q))
    (q' : Queue) (u : Nat) (hu : u ≠ t) : u ∈ Function.update f q ts q' ↔ u ∈ f q' := by
  by_cases h : q' = q
  · rw [h, Function.update_self]
    exact hts u hu
  · rw [Function.update_of_ne h]

theorem mem_append_ne {ts : List Nat} (hu : u ≠ t) : u ∈ ts ++ [t] ↔ u ∈ ts := by
  simp [hu]

theorem mem_cons_ne {ts : List Nat} (hu : u ≠ t) : u ∈ t :: ts ↔ u ∈ ts := by
  simp [hu]

theorem update_ready_waiters (f : Queue → List Nat) (ts : List Nat) (s : Nat) :
    Function.update f .ready ts (.waiters s) = f (.waiters s) := by
  have hne : Queue.waiters s ≠ .ready := nofun
  exact Function.update_of_ne hne ..

/-- A task that is in no list becomes ready. -/
theorem Queued.toReady (h : Queued σ f) {ts : List Nat} (hg : Queues m (Function.update f .ready ts))
    (hts : ∀ u, u ≠ t → (u ∈ ts ↔ u ∈ f .ready)) (hmem : t ∈ ts) (ht : t < σ.taskCnt)
    (hnew : ∀ q, q ≠ .all → t ∉ f q) (hstat : p.status = .ready)
    (hidle : t = σ.idleThread → p.inDown = none) :
    Queued ((σ.setLinks m).setThread t p) (Function.update f .ready ts) := by
  refine h.move hg (mem_update_ne hts) ht h.cur ?_ (fun s => ?_) (fun hrun => ?_)
    (fun u hu _ => h.running u hu) fun hid => ⟨hidle hid, Or.inr (Or.inl hstat)⟩
  · rw [Function.update_self]
    exact iff_of_true hmem hstat
  · rw [update_ready_waiters]
    refine iff_of_false (hnew (.waiters s) nofun) fun hblocked => ?_
    rw [hstat] at hblocked
    cases hblocked.1
  · rw [hstat] at hrun
    cases hrun

/-! ## Switching -/

/-- Nobody runs, and the first of the ready list is taken. -/
theorem switchNext_returns (h : Queued σ f) (hready : f .ready ≠ [])
    (hcur : (σ.thread σ.cur).status ≠ .running) :
    Returns switchNext σ fun _ τ => ∃ g, Scheduled τ g := by
  obtain ⟨next, ts, hf⟩ := List.exists_cons_of_ne_nil hready
  obtain ⟨hfirst, hg⟩ := h.queues.pop hf
  have hmem : next ∈ f .ready := by
    rw [hf]
    exact List.mem_cons_self
  have hnext : next < σ.taskCnt := h.small .ready next hmem
  have hnodup := h.queues.nodup .ready
  rw [hf] at hnodup
  have hempty : listEmpty σ.links Queue.ready.ends = false := by
    rw [h.queues.listEmpty_eq, decide_eq_false hready]
  have hwait : ∀ s, next ∉ f (.waiters s) := by
    intro s hs
    cases h.queues.one .ready (.waiters s) nofun nofun hmem hs
  refine Wp.bind.mpr (Wp.get.mpr (Wp.bind.mpr (sassert_returns hempty ?_)))
  show Returns (elem2entry (listPop σ.links Queue.ready.ends).1 >>= _) σ _
  rw [hfirst]
  refine ⟨Function.update f .ready ts, ?_⟩
  have hqueued : Queued { (σ.setLinks (listPop σ.links Queue.ready.ends).2).setStatus next
      .running with cur := next } (Function.update f .ready ts) := by
    refine h.move hg (mem_update_ne fun u hu => ?_) hnext hnext ?_ (fun s => ?_)
      (fun _ => rfl) (fun u hu _ hrun => ?_) fun hid => ⟨?_, Or.inl rfl⟩
    · rw [hf]
      exact (mem_cons_ne hu).symm
    · rw [Function.update_self]
      exact iff_of_false (List.nodup_cons.mp hnodup).1 nofun
    · rw [update_ready_waiters]
      exact iff_of_false (hwait s) fun hblocked => nomatch hblocked.1
    · rw [h.running u hu hrun] at hrun
      exact absurd hrun hcur
    · show (σ.thread next).inDown = none
      rw [hid]
      exact h.idleDown
  exact ⟨hqueued, congrArg Thread.status (if_pos rfl)⟩

/-- The idle thread is woken when nobody is ready. -/
theorem scheduleNext_returns (h : Queued σ f) (hcur : (σ.thread σ.cur).status ≠ .running) :
    Returns scheduleNext σ fun _ τ => ∃ g, Scheduled τ g := by
  refine Wp.bind.mpr (Wp.get.mpr (Wp.ite.mpr ⟨fun hempty => ?_, fun hempty => ?_⟩))
  · rw [h.queues.listEmpty_eq, decide_eq_true_iff] at hempty
    have hnew : σ.idleThread ∉ f .ready := by
      rw [hempty]
      exact List.not_mem_nil
    have hblocked : (σ.thread σ.idleThread).status = .blocked := by
      rcases h.idles with hrun | hready | hblocked
      · rw [h.running _ h.idle hrun] at hrun
        exact absurd hrun hcur
      · exact absurd ((h.ready _ h.idle).mpr hready) hnew
      · exact hblocked
    have hnone : ∀ q, q ≠ .all → σ.idleThread ∉ f q := fun q hq =>
      h.not_mem h.idle (by rw [hblocked]; exact nofun) (fun _ => h.idleDown) hq
    refine Wp.bind.mpr (threadUnblock_returns h.queues (h.small .ready) hnew
      (Or.inl hblocked) ?_)
    have hqueued := h.toReady (p := { σ.thread σ.idleThread with status := .ready })
      (h.queues.push (q := .ready) (t := σ.idleThread)
        fun q' htag => hnone q' (tag_eq_generalTag htag))
      (fun u hu => mem_cons_ne hu) List.mem_cons_self h.idle hnone rfl fun _ => h.idleDown
    refine switchNext_returns hqueued ?_ ?_
    · rw [Function.update_self]
      exact List.cons_ne_nil _ _
    · show (if σ.cur = σ.idleThread then { σ.thread σ.idleThread with status := .ready }
        else σ.thread σ.cur).status ≠ .running
      by_cases hid : σ.cur = σ.idleThread
      · rw [if_pos hid]
        exact nofun
      · rw [if_neg hid]
        exact hcur
  · rw [h.queues.listEmpty_eq, decide_eq_true_iff] at hempty
    exact switchNext_returns h hempty hcur

theorem schedule_returns (h : Queued σ f) :
    Returns schedule σ fun _ τ => ∃ g, Scheduled τ g := by
  refine Wp.bind.mpr (Wp.get.mpr (Wp.ite.mpr ⟨fun hrun => ?_, fun hrun => ?_⟩))
  · have hnone : ∀ q, q ≠ .all → σ.cur ∉ f q := fun q hq =>
      h.not_mem h.cur (by rw [hrun]; exact nofun) (fun hb => by rw [hrun] at hb; cases hb) hq
    refine Wp.bind.mpr (appendNew_returns .ready h.queues (h.small .ready)
      (hnone .ready nofun) (Wp.bind.mpr (Wp.modify.mpr ?_)))
    refine scheduleNext_returns (h.toReady (h.queues.append (q := .ready) (t := σ.cur)
      fun q' htag => hnone q' (tag_eq_generalTag htag)) (fun u hu => mem_append_ne hu)
      (List.mem_append_right _ List.mem_cons_self) h.cur hnone rfl
      fun hid => hid ▸ h.idleDown) ?_
    show (if σ.cur = σ.cur then _ else _ : Thread).status ≠ .running
    rw [if_pos rfl]
    exact nofun
  · exact scheduleNext_returns h hrun

/-! ## Functions -/

theorem Scheduled.not_mem (h : Scheduled σ f) {q : Queue} (hq : q ≠ .all) : σ.cur ∉ f q :=
  h.toQueued.not_mem h.cur (by rw [h.runs]; exact nofun)
    (fun hb => by rw [h.runs] at hb; cases hb) hq

theorem Scheduled.cur_new (h : Scheduled σ f) (q' : Queue) (htag : q'.tag σ.cur = .generalTag σ.cur) :
    σ.cur ∉ f q' :=
  h.not_mem (tag_eq_generalTag htag)

theorem threadYield_returns (h : Scheduled σ f) :
    Returns threadYield σ fun _ τ => ∃ g, Scheduled τ g := by
  refine Wp.bind.mpr (Wp.get.mpr (Wp.bind.mpr ?_))
  refine appendNew_returns .ready h.queues (h.small .ready) (h.not_mem nofun) ?_
  refine Wp.bind.mpr (Wp.modify.mpr ?_)
  exact schedule_returns (h.toReady (h.queues.append (q := .ready) h.cur_new)
    (fun u hu => mem_append_ne hu) (List.mem_append_right _ List.mem_cons_self) h.cur
    (fun q hq => h.not_mem hq) rfl fun hid => hid ▸ h.idleDown)

theorem threadBlock_returns (h : Scheduled σ f) {stat : TaskStatus} (hstat : stat.Blocks)
    (hdown : (σ.thread σ.cur).inDown = none) (hidle : σ.cur = σ.idleThread → stat = .blocked) :
    Returns (threadBlock stat) σ fun _ τ => ∃ g, Scheduled τ g := by
  refine Wp.bind.mpr (sassert_returns hstat (Wp.bind.mpr (Wp.modify.mpr ?_)))
  have hne : stat ≠ .ready ∧ stat ≠ .running := by
    rcases hstat with rfl | rfl | rfl <;> exact ⟨nofun, nofun⟩
  have hqueued : Queued (σ.setStatus σ.cur stat) f :=
    h.move (m := σ.links) (c := σ.cur) h.queues (fun _ _ _ => Iff.rfl) h.cur h.cur
      (iff_of_false (h.not_mem nofun) hne.1)
      (fun s => iff_of_false (h.not_mem nofun) fun hb => by
        have hsome : (σ.thread σ.cur).inDown = some s := hb.2
        rw [hdown] at hsome
        cases hsome)
      (fun hrun => absurd hrun hne.2) (fun u hu _ => h.running u hu)
      fun hid => ⟨hdown, Or.inr (Or.inr (hidle hid))⟩
  exact schedule_returns hqueued

theorem intrTimerHandler_returns (h : Scheduled σ f) :
    Returns intrTimerHandler σ fun _ τ => ∃ g, Scheduled τ g := by
  refine Wp.bind.mpr (Wp.get.mpr (Wp.ite.mpr ⟨fun _ => schedule_returns h.toQueued, fun _ => ?_⟩))
  refine ⟨f, h.move (m := σ.links) (c := σ.cur) h.queues (fun _ _ _ => Iff.rfl) h.cur h.cur
    (h.ready σ.cur h.cur) (fun s => h.waits s σ.cur h.cur) (fun _ => rfl)
    (fun u hu _ => h.running u hu) (fun hid => ⟨hid ▸ h.idleDown, hid ▸ h.idles⟩), ?_⟩
  exact (congrArg Thread.status (if_pos rfl)).trans h.runs

theorem Scheduled.unblock_returns (h : Scheduled σ f) (ht : t < σ.taskCnt)
    (hstat : (σ.thread t).status.Blocks) (hdown : (σ.thread t).inDown = none) :
    Returns (threadUnblock t) σ fun _ τ => ∃ g, Scheduled τ g := by
  have hne : (σ.thread t).status ≠ .ready ∧ (σ.thread t).status ≠ .running := by
    rcases hstat with h | h | h <;> rw [h] <;> exact ⟨nofun, nofun⟩
  have hnone : ∀ q, q ≠ .all → t ∉ f q := fun q hq =>
    h.toQueued.not_mem ht hne.1 (fun _ => hdown) hq
  have htc : σ.cur ≠ t := by
    rintro rfl
    exact hne.2 h.runs
  refine threadUnblock_returns h.queues (h.small .ready) (hnone .ready nofun) hstat ?_
  refine ⟨_, h.toReady (h.queues.push (q := .ready)
    fun q' htag => hnone q' (tag_eq_generalTag htag)) (fun u hu => mem_cons_ne hu)
    List.mem_cons_self ht hnone rfl fun hid => hid ▸ h.idleDown, ?_⟩
  exact (congrArg Thread.status (if_neg htc)).trans h.runs

theorem Queued.setValue (h : Queued σ f) (psema : Nat) {v : UInt8} (hv : v = 0 ∨ v = 1) :
    Queued (σ.setValue psema v) f := by
  refine { h with values := fun s => ?_ }
  show (if s = psema then v else σ.values s) = 0 ∨ (if s = psema then v else σ.values s) = 1
  by_cases hs : s = psema
  · rw [if_pos hs]
    exact hv
  · rw [if_neg hs]
    exact h.values s

theorem Threads.setStatus_setInDown (σ : Threads) (t : Nat) (d : Option Nat) (stat : TaskStatus) :
    (σ.setInDown t d).setStatus t stat =
      σ.setThread t { σ.thread t with status := stat, inDown := d } := by
  have hthread : (σ.setInDown t d).thread t = { σ.thread t with inDown := d } := if_pos rfl
  unfold setStatus
  rw [hthread]
  unfold setInDown setThread
  congr 1
  funext k
  by_cases hk : k = t
  · rw [if_pos hk, if_pos hk]
  · rw [if_neg hk, if_neg hk]
    exact if_neg hk

/-- The task that runs waits for a semaphore. -/
theorem Scheduled.wait (h : Scheduled σ f) {psema : Nat} (hid : σ.cur ≠ σ.idleThread)
    (hg : Queues m (Function.update f (.waiters psema) (f (.waiters psema) ++ [σ.cur]))) :
    Queued (((σ.setLinks m).setInDown σ.cur (some psema)).setStatus σ.cur .blocked)
      (Function.update f (.waiters psema) (f (.waiters psema) ++ [σ.cur])) := by
  rw [Threads.setStatus_setInDown]
  refine h.move (c := σ.cur) hg (mem_update_ne fun u hu => mem_append_ne hu) h.cur h.cur ?_
    (fun s => ?_) (fun _ => rfl) (fun u hu _ => h.running u hu) fun hid' => absurd hid' hid
  · have hne : Queue.ready ≠ .waiters psema := nofun
    rw [Function.update_of_ne hne]
    exact iff_of_false (h.not_mem nofun) nofun
  · rw [mem_update, Queue.waiters.injEq]
    show _ ↔ TaskStatus.blocked = .blocked ∧ some psema = some s
    by_cases hs : s = psema
    · rw [hs]
      exact iff_of_true (Or.inl ⟨rfl, List.mem_append_right _ List.mem_cons_self⟩) ⟨rfl, rfl⟩
    · refine iff_of_false ?_ fun heq => hs (Option.some.inj heq.2).symm
      rintro (⟨heq, -⟩ | ⟨-, hmem⟩)
      · exact hs heq
      · exact h.not_mem (q := .waiters s) nofun hmem

theorem semaDown_returns (h : Scheduled σ f) {psema : Nat} (hid : σ.cur ≠ σ.idleThread) :
    Returns (semaDown psema) σ fun _ τ => ∃ g, Scheduled τ g := by
  refine Wp.bind.mpr (Wp.get.mpr (Wp.ite.mpr ⟨fun _ => ?_, fun hzero => ?_⟩))
  · refine Wp.bind.mpr (appendNew_returns (.waiters psema) h.queues (h.small _)
      (h.not_mem nofun) (Wp.bind.mpr (Wp.modify.mpr ?_)))
    refine Wp.bind.mpr (sassert_returns (Or.inl rfl) (Wp.bind.mpr (Wp.modify.mpr ?_)))
    exact schedule_returns (h.wait hid (h.queues.append (q := .waiters psema) h.cur_new))
  · have hone : σ.values psema = 1 := (h.values psema).resolve_left hzero
    refine Wp.bind.mpr (sassert_returns (by rw [hone]; rfl) (Wp.set.mpr ⟨f, ?_, ?_⟩))
    · have hqueued := h.toQueued.setValue psema (v := σ.values psema - 1)
        (by rw [hone]; exact Or.inl rfl)
      refine hqueued.move (m := σ.links) (c := σ.cur) hqueued.queues (fun _ _ _ => Iff.rfl)
        h.cur h.cur (h.ready σ.cur h.cur) (fun s => ?_) (fun _ => rfl)
        (fun u hu _ => h.running u hu) fun hid' => absurd hid' hid
      exact iff_of_false (h.not_mem nofun) nofun
    · exact (congrArg Thread.status (if_pos rfl)).trans h.runs

/-- The first waiter of a semaphore becomes ready. -/
theorem Scheduled.wake (h : Scheduled σ f) {psema : Nat} {ts : List Nat}
    (hf : f (.waiters psema) = t :: ts)
    (hg : Queues m (Function.update (Function.update f (.waiters psema) ts) .ready
      (t :: f .ready))) :
    Scheduled ((σ.setLinks m).setStatus t .ready)
      (Function.update (Function.update f (.waiters psema) ts) .ready (t :: f .ready)) := by
  have hmem : t ∈ f (.waiters psema) := by
    rw [hf]
    exact List.mem_cons_self
  have ht := h.small _ t hmem
  have hblocked := ((h.waits psema t ht).mp hmem).1
  have hnodup := h.queues.nodup (.waiters psema)
  rw [hf] at hnodup
  have htc : σ.cur ≠ t := by
    rintro rfl
    rw [h.runs] at hblocked
    cases hblocked
  refine ⟨?_, (congrArg Thread.status (if_neg htc)).trans h.runs⟩
  refine h.move (c := σ.cur) hg (fun q u hu => ?_) ht h.cur ?_ (fun s => ?_) nofun
    (fun u hu _ => h.running u hu) fun hid => ⟨?_, Or.inr (Or.inl rfl)⟩
  · rw [mem_update_ne (f := Function.update f (.waiters psema) ts) (fun v hv => ?_) q u hu]
    · refine mem_update_ne (fun v hv => ?_) q u hu
      rw [hf]
      exact (mem_cons_ne hv).symm
    · have hne : Queue.ready ≠ .waiters psema := nofun
      rw [Function.update_of_ne hne]
      exact mem_cons_ne hv
  · rw [Function.update_self]
    exact iff_of_true List.mem_cons_self rfl
  · rw [update_ready_waiters]
    refine iff_of_false (fun hs => ?_) fun hb => nomatch hb.1
    rcases mem_update.mp hs with ⟨-, hts⟩ | ⟨hne, hother⟩
    · exact (List.nodup_cons.mp hnodup).1 hts
    · exact hne (h.queues.one _ _ nofun nofun hother hmem)
  · show (σ.thread t).inDown = none
    rw [hid]
    exact h.idleDown

theorem semaUp_returns (h : Scheduled σ f) {psema : Nat} (hzero : σ.values psema = 0) :
    Returns (semaUp psema) σ fun _ τ => ∃ g, Scheduled τ g := by
  have hone : ∀ τ : Threads, ∀ g, τ.values = σ.values → Scheduled τ g →
      Returns (do
        let σ ← get
        sassert (σ.values psema + 1 = 1)
        set (σ.setValue psema (σ.values psema + 1))) τ fun _ υ => ∃ g, Scheduled υ g := by
    intro τ g hvalues hτ
    have hzero' : τ.values psema + 1 = 1 := by
      rw [hvalues, hzero]
      rfl
    refine Wp.bind.mpr (Wp.get.mpr (Wp.bind.mpr (sassert_returns hzero' ?_)))
    exact ⟨g, hτ.toQueued.setValue psema (by rw [hzero']; exact Or.inr rfl), hτ.runs⟩
  refine Wp.bind.mpr (Wp.get.mpr (Wp.bind.mpr (sassert_returns hzero ?_)))
  refine Wp.ite.mpr ⟨fun hempty => ?_, fun _ => hone σ f rfl h⟩
  rw [h.queues.listEmpty_eq, decide_eq_false_iff_not] at hempty
  obtain ⟨t, ts, hf⟩ := List.exists_cons_of_ne_nil hempty
  obtain ⟨hfirst, hg⟩ := h.queues.pop hf
  have hmem : t ∈ f (.waiters psema) := by
    rw [hf]
    exact List.mem_cons_self
  have ht := h.small _ t hmem
  have hblocked := ((h.waits psema t ht).mp hmem).1
  have hready : t ∉ f .ready := fun hr => by
    cases h.queues.one .ready (.waiters psema) nofun nofun hr hmem
  have hne : Queue.ready ≠ .waiters psema := nofun
  show Returns (elem2entry (listPop σ.links (Queue.waiters psema).ends).1 >>= _) σ _
  rw [hfirst]
  have hsame : Function.update f (.waiters psema) ts .ready = f .ready :=
    Function.update_of_ne hne ..
  have hnew : ∀ q', q'.tag t = Queue.ready.tag t →
      t ∉ Function.update f (.waiters psema) ts q' := by
    intro q' htag hq'
    rcases mem_update.mp hq' with ⟨-, hts⟩ | ⟨hq, hother⟩
    · have hnodup := h.queues.nodup (.waiters psema)
      rw [hf] at hnodup
      exact (List.nodup_cons.mp hnodup).1 hts
    · exact hq (h.queues.one _ _ (tag_eq_generalTag htag) nofun hother hmem)
  have hpush := hg.push (q := .ready) hnew
  rw [hsame] at hpush
  refine Wp.bind.mpr (Wp.pure.mpr (Wp.bind.mpr (Wp.set.mpr (Wp.bind.mpr ?_))))
  refine threadUnblock_returns (f := Function.update f (.waiters psema) ts) (t := t)
    (σ := σ.setLinks (listPop σ.links (Queue.waiters psema).ends).2) hg ?_ ?_
    (Or.inl hblocked) ?_
  · rw [hsame]
    exact h.small .ready
  · rw [hsame]
    exact hready
  · exact hone _ _ rfl (h.wake hf hpush)

/-- The new task is the last one, and ready. -/
theorem Scheduled.grow (h : Scheduled σ f) (hp : p.status = .ready) (hdown : p.inDown = none)
    (hg : Queues m g) (hready : g .ready = f .ready ++ [σ.taskCnt])
    (hall : g .all = f .all ++ [σ.taskCnt]) (hwaits : ∀ s, g (.waiters s) = f (.waiters s)) :
    Scheduled { (σ.setLinks m).setThread σ.taskCnt p with taskCnt := σ.taskCnt + 1 } g := by
  have hnew : ∀ q, σ.taskCnt ∉ f q := fun q hmem => Nat.lt_irrefl _ (h.small q _ hmem)
  have hold : ∀ u, u < σ.taskCnt →
      ((σ.setLinks m).setThread σ.taskCnt p).thread u = σ.thread u := fun u hu =>
    if_neg (Nat.ne_of_lt hu)
  have hthread : ((σ.setLinks m).setThread σ.taskCnt p).thread σ.taskCnt = p := if_pos rfl
  have hsmall : ∀ q u, u ∈ f q ++ [σ.taskCnt] → u < σ.taskCnt + 1 := by
    intro q u hu
    rcases List.mem_append.mp hu with hu | hu
    · exact Nat.lt_succ_of_lt (h.small q u hu)
    · rw [List.mem_singleton.mp hu]
      exact Nat.lt_succ_self _
  refine ⟨⟨hg, fun q u hu => ?_, Nat.lt_succ_of_lt h.cur, Nat.lt_succ_of_lt h.idle,
    fun u hu => ?_, fun s u hu => ?_, fun u hu hrun => ?_, h.values, ?_, ?_⟩, ?_⟩
  · cases q with
    | ready =>
        rw [hready] at hu
        exact hsmall .ready u hu
    | all =>
        rw [hall] at hu
        exact hsmall .all u hu
    | waiters s =>
        rw [hwaits s] at hu
        exact Nat.lt_succ_of_lt (h.small _ u hu)
  · show _ ↔ (((σ.setLinks m).setThread σ.taskCnt p).thread u).status = .ready
    rw [hready]
    rcases Nat.lt_succ_iff_lt_or_eq.mp hu with hlt | rfl
    · rw [hold u hlt, mem_append_ne (Nat.ne_of_lt hlt)]
      exact h.ready u hlt
    · rw [hthread]
      exact iff_of_true (List.mem_append_right _ List.mem_cons_self) hp
  · show _ ↔ (((σ.setLinks m).setThread σ.taskCnt p).thread u).status = .blocked ∧
      (((σ.setLinks m).setThread σ.taskCnt p).thread u).inDown = some s
    rw [hwaits s]
    rcases Nat.lt_succ_iff_lt_or_eq.mp hu with hlt | rfl
    · rw [hold u hlt]
      exact h.waits s u hlt
    · rw [hthread, hdown]
      exact iff_of_false (hnew _) fun hb => nomatch hb.2
  · have hrun' : (((σ.setLinks m).setThread σ.taskCnt p).thread u).status = .running := hrun
    rcases Nat.lt_succ_iff_lt_or_eq.mp hu with hlt | rfl
    · rw [hold u hlt] at hrun'
      exact h.running u hlt hrun'
    · rw [hthread, hp] at hrun'
      cases hrun'
  · exact (congrArg Thread.inDown (hold _ h.idle)).trans h.idleDown
  · show (((σ.setLinks m).setThread σ.taskCnt p).thread σ.idleThread).status.Idles
    rw [hold _ h.idle]
    exact h.idles
  · exact (congrArg Thread.status (hold _ h.cur)).trans h.runs

theorem threadStart_returns (h : Scheduled σ f) (prio : UInt8) :
    Returns (threadStart prio) σ fun _ τ => ∃ g, Scheduled τ g ∧
      g .all = f .all ++ [σ.taskCnt] ∧ τ.taskCnt = σ.taskCnt + 1 ∧
        τ.thread σ.taskCnt = ⟨.ready, prio, prio, none⟩ ∧ τ.cur = σ.cur := by
  have hnew : ∀ q, σ.taskCnt ∉ f q := fun q hmem => Nat.lt_irrefl _ (h.small q _ hmem)
  have hall : Queue.all ≠ .ready := nofun
  have hready := h.queues.append (q := .ready) fun q _ => hnew q
  have hsame : Function.update f .ready (f .ready ++ [σ.taskCnt]) .all = f .all :=
    Function.update_of_ne hall ..
  have hnewAll : ∀ q, q.tag σ.taskCnt = Queue.all.tag σ.taskCnt →
      σ.taskCnt ∉ Function.update f .ready (f .ready ++ [σ.taskCnt]) q := by
    intro q htag
    cases q with
    | all =>
        rw [hsame]
        exact hnew .all
    | ready => cases htag
    | waiters s => cases htag
  have hqueues := hready.append (q := .all) hnewAll
  rw [hsame] at hqueues
  refine Wp.bind.mpr (Wp.get.mpr (Wp.bind.mpr (Wp.set.mpr (Wp.bind.mpr ?_))))
  refine appendNew_returns (f := f) (t := σ.taskCnt) (σ := { σ.setThread σ.taskCnt ⟨.ready, prio,
    prio, none⟩ with taskCnt := σ.taskCnt + 1 }) .ready h.queues
    (fun u hu => Nat.lt_succ_of_lt (h.small .ready u hu)) (hnew .ready) ?_
  refine appendNew_returns (t := σ.taskCnt) (σ := { (σ.setThread σ.taskCnt ⟨.ready, prio, prio,
    none⟩).setLinks (listAppend σ.links Queue.ready.ends (Queue.ready.tag σ.taskCnt)) with
    taskCnt := σ.taskCnt + 1 }) .all hready (fun u hu => ?_) (hnewAll .all rfl) ?_
  · rw [hsame] at hu
    exact Nat.lt_succ_of_lt (h.small .all u hu)
  · refine ⟨_, h.grow (p := ⟨.ready, prio, prio, none⟩) rfl rfl hqueues ?_ ?_ fun s => ?_,
      Function.update_self .., rfl, if_pos rfl, rfl⟩
    · rw [Function.update_of_ne (Ne.symm hall), Function.update_self]
    · exact Function.update_self ..
    · have hne : Queue.waiters s ≠ .all := nofun
      rw [Function.update_of_ne hne, update_ready_waiters]

/-! ## Booting -/

theorem bootThreads_scheduled {values : Nat → UInt8} (hvalues : ∀ s, values s = 0 ∨ values s = 1) :
    Scheduled (bootThreads values) fun _ => [] where
  queues := {
    holds := fun q => ⟨List.isChain_cons_cons.mpr ⟨⟨rfl, rfl⟩, List.isChain_singleton _⟩,
      List.nodup_cons.mpr ⟨List.mem_singleton.not.mpr nofun, List.nodup_singleton _⟩⟩
    apart := fun q q' a ha ha' => by
      rcases Links.mem_nodes.mp ha with rfl | hmem | rfl
      · rcases Links.mem_nodes.mp ha' with heq | hmem | heq
        · exact Node.head.inj heq
        · exact absurd hmem List.not_mem_nil
        · cases heq
      · exact absurd hmem List.not_mem_nil
      · rcases Links.mem_nodes.mp ha' with heq | hmem | heq
        · cases heq
        · exact absurd hmem List.not_mem_nil
        · exact Node.tail.inj heq }
  small _ _ ht := absurd ht List.not_mem_nil
  cur := Nat.zero_lt_one
  idle := Nat.zero_lt_one
  ready _ _ := iff_of_false List.not_mem_nil nofun
  waits _ _ _ := iff_of_false List.not_mem_nil fun hb => nomatch hb.1
  running t ht _ := Nat.lt_one_iff.mp ht
  values := hvalues
  idleDown := rfl
  idles := Or.inl rfl
  runs := rfl

/-- `main` is linked into the list of all tasks. -/
theorem Scheduled.appendAll (h : Scheduled σ f) (ht : t < σ.taskCnt) (hnew : t ∉ f .all) :
    Returns (appendNew .all (.allListTag t)) σ fun _ τ =>
      (∃ g, Scheduled τ g) ∧ τ.taskCnt = σ.taskCnt := by
  have hqueues := h.queues.append (q := .all) (t := t) fun q htag hmem => by
    cases q with
    | all => exact hnew hmem
    | ready => cases htag
    | waiters s => cases htag
  have hsame : ∀ q, q ≠ .all → Function.update f .all (f .all ++ [t]) q = f q := fun q hq =>
    Function.update_of_ne hq ..
  refine appendNew_returns .all h.queues (h.small .all) hnew
    ⟨⟨Function.update f .all (f .all ++ [t]), ?_, h.runs⟩, rfl⟩
  refine { h.toQueued with
    queues := hqueues
    small := fun q u hu => ?_
    ready := fun u hu => ?_
    waits := fun s u hu => ?_ }
  · rcases mem_update.mp hu with ⟨-, hts⟩ | ⟨-, hother⟩
    · rcases List.mem_append.mp hts with hts | hts
      · exact h.small .all u hts
      · rw [List.mem_singleton.mp hts]
        exact ht
    · exact h.small q u hother
  · rw [hsame .ready nofun]
    exact h.ready u hu
  · rw [hsame (.waiters s) nofun]
    exact h.waits s u hu

/-- `thread_init` makes `init` and the idle thread. -/
theorem threadInit_returns {v : Nat → UInt8} (hvalues : ∀ s, v s = 0 ∨ v s = 1) :
    Returns threadInit (bootThreads v) fun _ τ => (∃ g, Scheduled τ g) ∧ τ.taskCnt = 3 := by
  refine Wp.bind.mpr ((threadStart_returns (bootThreads_scheduled hvalues) 31).call ?_)
  rintro _ σ₁ ⟨f₁, h₁, hall, hcnt, -⟩
  have hcnt₁ : σ₁.taskCnt = 2 := hcnt
  have hmain : 0 ∉ f₁ .all := by
    rw [hall]
    exact List.mem_singleton.not.mpr nofun
  refine Wp.bind.mpr ((h₁.appendAll (by omega) hmain).call ?_)
  rintro _ σ₂ ⟨⟨f₂, h₂⟩, hcnt₂⟩
  refine Wp.bind.mpr ((threadStart_returns h₂ 10).call ?_)
  rintro _ σ₃ ⟨f₃, h₃, -, hcnt₃, hthread, -⟩
  have htwo : σ₂.taskCnt = 2 := hcnt₂.trans hcnt₁
  rw [htwo] at hcnt₃ hthread
  refine Wp.modify.mpr ⟨⟨f₃, { h₃.toQueued with idle := ?_, idleDown := ?_, idles := ?_ },
    h₃.runs⟩, hcnt₃⟩
  · rw [hcnt₃]
    exact Nat.lt_succ_self 2
  · exact congrArg Thread.inDown hthread
  · show (σ₃.thread 2).status.Idles
    rw [hthread]
    exact Or.inr (Or.inl rfl)

/-! ## Runs -/

inductive ThreadCall
  | tick
  | start (prio : UInt8)
  | yield
  | block (stat : TaskStatus)
  | unblock (pthread : Nat)
  | down (psema : Nat)
  | up (psema : Nat)
  | resume

/-- `resume` is the next round of a task that was switched out in the loop of `sema_down`. -/
def ThreadCall.run : ThreadCall → Sched Unit
  | .tick => intrTimerHandler
  | .start prio => threadStart prio
  | .yield => threadYield
  | .block stat => threadBlock stat
  | .unblock pthread => threadUnblock pthread
  | .down psema => semaDown psema
  | .up psema => semaUp psema
  | .resume => do
      let σ ← get
      match (σ.thread σ.cur).inDown with
      | some psema => semaDown psema
      | none => pure ()

def threadStep (σ : Threads) (c : ThreadCall) : Except Fault Threads :=
  (c.run.run σ).map Prod.snd

/-- The calls that are made: a task in `sema_down` can only go on there, as its interrupts
are off, and the idle thread only blocks itself. -/
def threadCall (σ : Threads) (c : ThreadCall) : Prop :=
  match c with
  | .resume => (σ.thread σ.cur).inDown ≠ none
  | c => (σ.thread σ.cur).inDown = none ∧
      match c with
      | .block stat => stat.Blocks ∧ (σ.cur = σ.idleThread → stat = .blocked)
      | .unblock t => t < σ.taskCnt ∧ (σ.thread t).status.Blocks ∧ (σ.thread t).inDown = none ∧
          t ≠ σ.idleThread
      | .down _ => σ.cur ≠ σ.idleThread
      | .up psema => σ.values psema = 0
      | _ => True

theorem Scheduled.call_returns (h : Scheduled σ f) {c : ThreadCall} (hok : threadCall σ c) :
    Returns c.run σ fun _ τ => ∃ g, Scheduled τ g := by
  cases c with
  | tick => exact intrTimerHandler_returns h
  | start prio => exact (threadStart_returns h prio).call fun _ _ hτ => ⟨hτ.choose, hτ.choose_spec.1⟩
  | yield => exact threadYield_returns h
  | block stat => exact threadBlock_returns h hok.2.1 hok.1 hok.2.2
  | unblock t => exact h.unblock_returns hok.2.1 hok.2.2.1 hok.2.2.2.1
  | down psema => exact semaDown_returns h hok.2
  | up psema => exact semaUp_returns h hok.2
  | resume =>
      have hid : σ.cur ≠ σ.idleThread := fun heq => hok (heq ▸ h.idleDown)
      refine Wp.bind.mpr (Wp.get.mpr ?_)
      cases hdown : (σ.thread σ.cur).inDown with
      | none => exact absurd hdown hok
      | some psema => exact semaDown_returns h hid

/-- The property of the lists and the status of the tasks. -/
structure SchedRight (σ : Threads) (f : Queue → List Nat) : Prop where
  lists : ∀ q, Links.Holds σ.links (.head q) (.tail q) ((f q).map q.tag)
  cur : σ.cur < σ.taskCnt
  running : ∀ t, t < σ.taskCnt → ((σ.thread t).status = .running ↔ t = σ.cur)
  free : ∀ q, q ≠ .all → σ.cur ∉ f q
  once : (f .ready).Nodup
  ready : ∀ t, t ∈ f .ready ↔ t < σ.taskCnt ∧ (σ.thread t).status = .ready
  one : ∀ t q q', q ≠ .all → q' ≠ .all → t ∈ f q → t ∈ f q' → q = q'
  idle : σ.cur ≠ σ.idleThread → listEmpty σ.links Queue.ready.ends = true →
    (σ.thread σ.idleThread).status = .blocked

theorem Scheduled.right (h : Scheduled σ f) : SchedRight σ f where
  lists := h.queues.holds
  cur := h.cur
  running t ht := ⟨h.running t ht, fun heq => heq ▸ h.runs⟩
  free q hq := h.not_mem hq
  once := h.queues.nodup .ready
  ready t := ⟨fun hmem => ⟨h.small .ready t hmem, (h.ready t (h.small .ready t hmem)).mp hmem⟩,
    fun hmem => (h.ready t hmem.1).mpr hmem.2⟩
  one t q q' hq hq' := h.queues.one _ _ hq hq'
  idle hcur hempty := by
    rw [h.queues.listEmpty_eq, decide_eq_true_iff] at hempty
    rcases h.idles with hrun | hready | hblocked
    · exact absurd (h.running _ h.idle hrun).symm hcur
    · have hmem := (h.ready _ h.idle).mpr hready
      rw [hempty] at hmem
      exact absurd hmem List.not_mem_nil
    · exact hblocked

/-- `thread_init` returns, and from there on every state is right and no call fails. -/
theorem schedRight_of_run (values : Nat → UInt8) (hvalues : ∀ s, values s = 0 ∨ values s = 1) :
    ∃ σ, threadInit.run (bootThreads values) = .ok ((), σ) ∧
      ∀ τ, Reach threadStep threadCall σ τ → (∃ f, SchedRight τ f) ∧
        ∀ c, threadCall τ c → ∃ υ, threadStep τ c = .ok υ := by
  obtain ⟨_, σ, hinit, hσ, -⟩ := returns_iff.mp (threadInit_returns hvalues)
  have hstep : ∀ σ c, (∃ f, Scheduled σ f) → threadCall σ c →
      ∃ τ, threadStep σ c = .ok τ ∧ ∃ g, Scheduled τ g := by
    rintro σ c ⟨f, h⟩ hok
    obtain ⟨_, τ, hrun, hτ⟩ := returns_iff.mp (h.call_returns hok)
    refine ⟨τ, ?_, hτ⟩
    rw [threadStep, hrun]
    rfl
  refine ⟨σ, hinit, fun τ hrun => ?_⟩
  have hτ : ∃ f, Scheduled τ f := by
    refine hrun.invariant (I := fun σ => ∃ f, Scheduled σ f) hσ fun σ c τ hσ hok hc => ?_
    obtain ⟨τ', hc', hτ'⟩ := hstep σ c hσ hok
    rw [hc, Except.ok.injEq] at hc'
    rw [hc']
    exact hτ'
  refine ⟨hτ.imp fun _ h => h.right, fun c hok => ?_⟩
  obtain ⟨υ, hc, -⟩ := hstep τ c hτ hok
  exact ⟨υ, hc⟩

instance (σ : Threads) : ∀ c, Decidable (threadCall σ c)
  | .resume => inferInstanceAs (Decidable (_ ≠ _))
  | .block _ => inferInstanceAs (Decidable (_ ∧ _ ∧ (_ → _)))
  | .unblock _ => inferInstanceAs (Decidable (_ ∧ _ ∧ _ ∧ _ ∧ _ ≠ _))
  | .down _ => inferInstanceAs (Decidable (_ ∧ _ ≠ _))
  | .up _ => inferInstanceAs (Decidable (_ ∧ _ = _))
  | .tick => inferInstanceAs (Decidable (_ ∧ True))
  | .start _ => inferInstanceAs (Decidable (_ ∧ True))
  | .yield => inferInstanceAs (Decidable (_ ∧ True))

/-- `main` takes a semaphore and yields to `init`, which waits for it; so does the idle
thread's turn come, and a tick later `main` gives it up. -/
theorem schedRight_semaphore :
    ∃ σ τ, threadInit.run (bootThreads fun _ => 1) = .ok ((), σ) ∧
      Reach threadStep threadCall σ τ ∧ (∃ f, SchedRight τ f) ∧
      (τ.thread 1).inDown = some 0 ∧ (τ.thread 1).status = .ready := by
  obtain ⟨σ, hinit, hright⟩ := schedRight_of_run (fun _ => 1) fun _ => Or.inr rfl
  have hrun : (match threadInit.run (bootThreads fun _ => 1) with
      | .ok (_, σ) => decide (AllOk threadStep threadCall σ
          [.down 0, .yield, .down 0, .block .blocked, .tick, .up 0] ∧
        EndsIn threadStep σ [.down 0, .yield, .down 0, .block .blocked, .tick, .up 0]
          fun τ => (τ.thread 1).inDown = some 0 ∧ (τ.thread 1).status = .ready)
      | .error _ => false) = true := by decide +kernel
  rw [hinit] at hrun
  obtain ⟨hok, hends⟩ := of_decide_eq_true hrun
  obtain ⟨τ, hreach, hτ⟩ := exists_reach _ _ _ _ _ hok hends
  exact ⟨σ, τ, hinit, hreach, (hright τ hreach).1, hτ⟩

end

/-! ## The number of tasks -/

def SameTasks (σ τ : Threads) : Prop := τ.taskCnt = σ.taskCnt

instance : Std.Refl SameTasks := ⟨fun _ => rfl⟩

instance : IsTrans Threads SameTasks := ⟨fun _ _ _ h k => Eq.trans k h⟩

theorem appendNew_sameTasks (q : Queue) (elem : Node) : Within SameTasks (appendNew q elem) := by
  apply Within.get_bind
  intro σ
  rw [Ensures, Wp.bind]
  apply (Within.lift (R := Eq) _ σ).call
  intro found τ hτ
  rw [Wp.bind]
  apply (Within.lift (R := Eq) _ τ).call
  intro _ υ _
  exact rfl

theorem elem2entry_sameTasks (x : Node) : Within SameTasks (elem2entry x) := by
  cases x with
  | generalTag t => exact Within.pure t
  | head q => exact Within.throw _
  | tail q => exact Within.throw _
  | allListTag t => exact Within.throw _

theorem threadUnblock_sameTasks (pthread : Nat) : Within SameTasks (threadUnblock pthread) := by
  apply Within.get_bind
  intro σ
  rw [Ensures, Wp.bind]
  apply (Within.lift (R := Eq) _ σ).call
  intro _ τ hτ
  rw [Wp.ite]
  refine ⟨fun _ => ?_, fun _ => ?_⟩
  · rw [Wp.bind]
    apply (Within.lift (R := Eq) _ τ).call
    intro _ υ _
    rw [Wp.bind]
    apply (Within.lift (R := Eq) _ υ).call
    intro _ _ _
    exact rfl
  · rw [← hτ]
    exact rfl

theorem switchNext_sameTasks : Within SameTasks switchNext := by
  apply Within.get_bind
  intro σ
  rw [Ensures, Wp.bind]
  apply (Within.lift (R := Eq) _ σ).call
  intro _ τ hτ
  show Wp (elem2entry _ >>= _) τ _ _
  rw [Wp.bind]
  apply (elem2entry_sameTasks _ τ).call
  intro _ _ _
  exact rfl

theorem schedule_sameTasks : Within SameTasks schedule := by
  have hrest : Within SameTasks (do
      let σ ← get
      if listEmpty σ.links Queue.ready.ends = true then threadUnblock σ.idleThread else pure ()
      switchNext) := by
    apply Within.bind Within.get
    intro σ
    exact Within.ite ((threadUnblock_sameTasks _).bind fun _ => switchNext_sameTasks)
      switchNext_sameTasks
  unfold schedule
  apply Within.bind Within.get
  intro σ
  apply Within.ite _ hrest
  apply (appendNew_sameTasks _ _).bind
  intro _
  exact Within.bind (Within.modify (by intro σ; rfl)) fun _ => hrest

theorem threadBlock_sameTasks (stat : TaskStatus) : Within SameTasks (threadBlock stat) := by
  apply (Within.lift (R := SameTasks) _).bind
  intro _
  exact Within.bind (Within.modify (by intro σ; rfl)) fun _ => schedule_sameTasks

theorem threadYield_sameTasks : Within SameTasks threadYield := by
  apply Within.bind Within.get
  intro σ
  apply (appendNew_sameTasks _ _).bind
  intro _
  exact Within.bind (Within.modify (by intro σ; rfl)) fun _ => schedule_sameTasks

theorem semaDown_sameTasks (psema : Nat) : Within SameTasks (semaDown psema) := by
  apply Within.get_bind
  intro σ
  rw [Ensures, Wp.ite]
  refine ⟨fun _ => ?_, fun _ => ?_⟩
  · apply (appendNew_sameTasks _ _).bind _ σ
    intro _
    exact Within.bind (Within.modify (by intro σ; rfl)) fun _ => threadBlock_sameTasks _
  · rw [Wp.bind]
    apply (Within.lift (R := Eq) _ σ).call
    intro _ _ _
    exact rfl

theorem semaUp_sameTasks (psema : Nat) : Within SameTasks (semaUp psema) := by
  have hrest : Within SameTasks (do
      let σ ← get
      sassert (σ.values psema + 1 = 1)
      set (σ.setValue psema (σ.values psema + 1))) := by
    apply Within.get_bind
    intro σ
    rw [Ensures, Wp.bind]
    apply (Within.lift (R := Eq) _ σ).call
    intro _ _ _
    exact rfl
  apply Within.get_bind
  intro σ
  rw [Ensures, Wp.bind]
  apply (Within.lift (R := Eq) _ σ).call
  intro _ τ hτ
  rw [← hτ, Wp.ite]
  refine ⟨fun _ => ?_, fun _ => hrest σ⟩
  show Wp (elem2entry _ >>= _) σ _ _
  rw [Wp.bind]
  apply (elem2entry_sameTasks _ σ).call
  intro t υ _
  rw [Wp.bind, Wp.set]
  exact ((threadUnblock_sameTasks t).bind fun _ => hrest) (σ.setLinks _)

theorem intrTimerHandler_sameTasks : Within SameTasks intrTimerHandler := by
  apply Within.get_bind
  intro σ
  rw [Ensures, Wp.ite]
  exact ⟨fun _ => schedule_sameTasks σ, fun _ => rfl⟩

/-- Only `start` makes a task. -/
theorem ThreadCall.run_sameTasks {c : ThreadCall} (hc : ∀ prio, c ≠ .start prio) :
    Within SameTasks c.run := by
  cases c with
  | tick => exact intrTimerHandler_sameTasks
  | start prio => exact absurd rfl (hc prio)
  | yield => exact threadYield_sameTasks
  | block stat => exact threadBlock_sameTasks stat
  | unblock t => exact threadUnblock_sameTasks t
  | down psema => exact semaDown_sameTasks psema
  | up psema => exact semaUp_sameTasks psema
  | resume =>
      apply Within.bind Within.get
      intro σ
      cases (σ.thread σ.cur).inDown with
      | none => exact Within.pure _
      | some psema => exact semaDown_sameTasks psema

end OsTruth
