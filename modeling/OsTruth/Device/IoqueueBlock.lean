/-
One task that puts bytes and one that takes them can block each other for ever.

A task that finds the queue full or empty while the other still holds the lock waits for
the lock, and what it found is not tested again behind `lock_acquire`.  `IoqPair` is what
holds of the two tasks as long as this does no harm.
-/
import OsTruth.Device.IoqueueOrder

namespace OsTruth

open Runs

def Side.other : Side → Side
  | .producer => .consumer
  | .consumer => .producer

def Side.task : Side → Nat
  | .producer => 0
  | .consumer => 1

def Place.isDown : Place → Bool
  | .down _ => true
  | _ => false

/-- Task 0 puts and task 1 takes. -/
def ioqPairCall (σ : IoqState) (s : IoqStep) : Prop :=
  ioqCall σ s ∧ match s with
    | .putchar t _ => t = 0
    | .getchar t => t = 1
    | .resume _ => True

/-- No call finds the queue full or empty while the other task is in the loop of
`sema_down`, and no task that waited for the lock takes it to wait for the other to put
into a full queue or to take from an empty one. -/
def ioqPairClear (σ : IoqState) (s : IoqStep) : Prop :=
  ioqPairCall σ s ∧ match s with
    | .putchar _ _ => σ.stuck .producer = true → ∀ u, u < 2 → (σ.place u).isDown = false
    | .getchar _ => σ.stuck .consumer = true → ∀ u, u < 2 → (σ.place u).isDown = false
    | .resume t =>
        match σ.place t with
        | .outside => True
        | .down c => σ.holder = none → σ.stuck c.side.other = false
        | .wait c => σ.stuck c.side = true → ∀ u, u < 2 → (σ.place u).isDown = false

/-- The two tasks do not block each other. -/
structure IoqPair (σ : IoqState) : Prop where
  who : ∀ t c, σ.place t = .down c ∨ σ.place t = .wait c → t = c.side.task
  awake : ∀ t u c d, σ.place u = .down c → σ.place t = .wait d → σ.blocked t = false
  held : σ.waiters ≠ [] → σ.holder ≠ none
  unstuck : ∀ side, σ.waiter side ≠ none → σ.stuck side.other = false
  one : ∀ t u c d, σ.place t = .down c → σ.place u = .down d → t = u

section

variable {σ τ : IoqState} {o : Option Nat} {t : Nat} {c : IoCall}

theorem Side.task_lt (side : Side) : side.task < 2 := by
  cases side <;> decide

theorem Side.eq_other {side side' : Side} (h : side ≠ side') : side = side'.other := by
  cases side <;> cases side' <;> first | rfl | exact absurd rfl h

theorem Side.other_other (side : Side) : side.other.other = side := by
  cases side <;> rfl

theorem ioqueueInit_pair : IoqPair ioqueueInit where
  who _ _ h := h.elim nofun nofun
  awake _ _ _ _ := nofun
  held h := absurd rfl h
  unstuck _ h := absurd rfl h
  one _ _ _ _ := nofun

/-- A queue is not full and empty at once. -/
theorem stuck_other {h t : Nat} {q : List UInt8} (hr : Ringed σ h t q) {side : Side}
    (hstuck : σ.stuck side = true) : σ.stuck side.other = false := by
  have hboth : ¬(ioqFull σ = true ∧ ioqEmpty σ = true) := by
    rintro ⟨hfull, hempty⟩
    have hlen := hr.full_iff.mp hfull
    rw [hr.empty_iff.mp hempty] at hlen
    cases hlen
  rw [← Bool.not_eq_true]
  intro hother
  cases side with
  | producer => exact hboth ⟨hstuck, hother⟩
  | consumer => exact hboth ⟨hother, hstuck⟩

/-- A task that waited for the lock, or was in `ioq_wait`, runs. -/
theorem IoqPair.resumed (hp : IoqPair σ) (t : Nat) : IoqPair (σ.resumed t) := by
  have hold : ∀ u d, ((σ.resumed t).place u = .down d → σ.place u = .down d) ∧
      ((σ.resumed t).place u = .wait d → σ.place u = .wait d) := by
    intro u d
    by_cases hut : u = t
    · have hself : (σ.resumed t).place u = .outside := by
        rw [hut]
        exact Function.update_self ..
      rw [hself]
      exact ⟨nofun, nofun⟩
    · have hother : (σ.resumed t).place u = σ.place u := Function.update_of_ne hut ..
      rw [hother]
      exact ⟨id, id⟩
  exact ⟨fun u d h => hp.who u d (h.imp (hold u d).1 (hold u d).2),
    fun u v d e hv hu => hp.awake u v d e ((hold v d).1 hv) ((hold u e).2 hu),
    hp.held, hp.unstuck, fun u v d e hu hv => hp.one u v d e ((hold u d).1 hu) ((hold v e).1 hv)⟩

/-- At most one task waits for the lock. -/
theorem IoqPair.waiters (hp : IoqPair σ) (ht : IoqTasks σ o) :
    σ.waiters = [] ∨ ∃ w, σ.waiters = [w] := by
  cases hws : σ.waiters with
  | nil => exact Or.inl rfl
  | cons w ws =>
      refine Or.inr ⟨w, ?_⟩
      have hall : ∀ u, u ∈ ws → u = w := by
        intro u hu
        obtain ⟨-, d, hd⟩ := (ht.waits u).mp (by rw [hws]; exact List.mem_cons_of_mem w hu)
        obtain ⟨-, e, he⟩ := (ht.waits w).mp (by rw [hws]; exact List.mem_cons_self)
        exact hp.one u w d e hd he
      have hnodup := ht.nodup
      rw [hws] at hnodup
      cases ws with
      | nil => rfl
      | cons u ws =>
          rw [hall u List.mem_cons_self] at hnodup
          exact absurd List.mem_cons_self (List.nodup_cons.mp hnodup).1

theorem release_fields (σ : IoqState) : σ.release.waiter = σ.waiter ∧ σ.release.head = σ.head ∧
    σ.release.tail = σ.tail ∧ ∀ u, σ.blocked u = false → σ.release.blocked u = false := by
  unfold IoqState.release
  cases σ.waiters with
  | nil => exact ⟨rfl, rfl, rfl, fun _ h => h⟩
  | cons w ws =>
      refine ⟨rfl, rfl, rfl, fun u hu => ?_⟩
      show Function.update σ.blocked w false u = false
      by_cases huw : u = w
      · rw [huw, Function.update_self]
      · rw [Function.update_of_ne huw]
        exact hu

theorem stuck_congr (hhead : τ.head = σ.head) (htail : τ.tail = σ.tail) (side : Side) :
    τ.stuck side = σ.stuck side := by
  cases side with
  | producer =>
      show ioqFull τ = ioqFull σ
      rw [ioqFull, ioqFull, hhead, htail]
  | consumer =>
      show ioqEmpty τ = ioqEmpty σ
      rw [ioqEmpty, ioqEmpty, hhead, htail]

theorem IoqPair.release (hp : IoqPair σ)
    (hws : σ.waiters = [] ∨ ∃ w, σ.waiters = [w]) : IoqPair σ.release := by
  obtain ⟨hwaiter, hhead, htail, hblocked⟩ := release_fields σ
  have hempty : σ.release.waiters = [] := by
    unfold IoqState.release
    rcases hws with h | ⟨w, h⟩
    · simp only [h]
    · simp only [h]
      rfl
  refine ⟨?_, ?_, fun h => absurd hempty h, fun side hside => ?_, ?_⟩
  · rw [release_place]
    exact hp.who
  · rw [release_place]
    exact fun u v d e hv hu => hblocked u (hp.awake u v d e hv hu)
  · rw [stuck_congr hhead htail]
    rw [hwaiter] at hside
    exact hp.unstuck side hside
  · rw [release_place]
    exact hp.one

theorem notify_fields (σ : IoqState) (side : Side) : (σ.notify side).place = σ.place ∧
    (σ.notify side).toLock = σ.toLock ∧
    (∀ u, σ.blocked u = false → (σ.notify side).blocked u = false) ∧
    ∀ side', (σ.notify side).waiter side' = if side' = side then none else σ.waiter side' := by
  unfold IoqState.notify
  cases hw : σ.waiter side with
  | none =>
      refine ⟨rfl, rfl, fun _ h => h, fun side' => ?_⟩
      by_cases hs : side' = side
      · rw [if_pos hs, hs]
        exact hw
      · rw [if_neg hs]
  | some w =>
      refine ⟨rfl, rfl, fun u hu => ?_, fun side' => ?_⟩
      · show Function.update σ.blocked w false u = false
        by_cases huw : u = w
        · rw [huw, Function.update_self]
        · rw [Function.update_of_ne huw]
          exact hu
      · show Function.update σ.waiter side none side' = _
        by_cases hs : side' = side
        · rw [if_pos hs, hs, Function.update_self]
        · rw [if_neg hs, Function.update_of_ne hs]

/-- A call ends: the other task is awake, and this one is not noted. -/
theorem IoqPair.finish (hp : IoqPair σ) (ht : IoqTasks σ o) (hplace : σ.place t = .outside)
    (htask : t = c.side.task) : IoqPair (σ.finish c) := by
  obtain ⟨ρ, hfinish, hρ⟩ : ∃ ρ : IoqState, σ.finish c = ρ.notify c.side.other ∧
      ρ.place = σ.place ∧ ρ.toLock = σ.toLock ∧ ρ.blocked = σ.blocked ∧ ρ.waiter = σ.waiter := by
    cases c with
    | put byte => exact ⟨σ.putByte byte, rfl, rfl, rfl, rfl, rfl⟩
    | get => exact ⟨σ.takeByte, rfl, rfl, rfl, rfl, rfl⟩
  obtain ⟨hplace', hlock, hblocked, hwaiter⟩ := notify_fields ρ c.side.other
  rw [hρ.1] at hplace'
  rw [hρ.2.1] at hlock
  rw [hρ.2.2.1] at hblocked
  have hnone : ∀ side, (ρ.notify c.side.other).waiter side = none := by
    intro side
    rw [hwaiter, hρ.2.2.2]
    by_cases hs : side = c.side.other
    · rw [if_pos hs]
    · rw [if_neg hs]
      have hside : side = c.side := by
        rw [Side.eq_other hs, Side.other_other]
      cases hw : σ.waiter side with
      | none => rfl
      | some u =>
          obtain ⟨-, d, hd, hu⟩ := (ht.noted side u).mp hw
          have hut : u = t := by
            rw [hp.who u d (Or.inr hu), hd, hside, ← htask]
          rw [hut, hplace] at hu
          cases hu
  rw [hfinish]
  refine ⟨?_, ?_, ?_, fun side hside => absurd (hnone side) hside, ?_⟩
  · rw [hplace']
    exact hp.who
  · rw [hplace']
    exact fun u v d e hv hu => hblocked u (hp.awake u v d e hv hu)
  · rw [hlock]
    exact hp.held
  · rw [hplace']
    exact hp.one

/-- A task waits in `ioq_wait`; the other is not in `sema_down`. -/
theorem IoqPair.register (hp : IoqPair σ) (ht : IoqTasks σ none)
    (htask : t = c.side.task) (hdown : ∀ u d, σ.place u ≠ .down d)
    (hunstuck : σ.stuck c.side.other = false) : IoqPair (σ.register t c) := by
  have hother : ∀ u, u ≠ t → (σ.register t c).place u = σ.place u := fun u hu =>
    Function.update_of_ne hu ..
  have hself : (σ.register t c).place t = .wait c := Function.update_self ..
  have hnone : ∀ u d, (σ.register t c).place u ≠ .down d := by
    intro u d
    by_cases hut : u = t
    · rw [hut, hself]
      exact nofun
    · rw [hother u hut]
      exact hdown u d
  refine ⟨fun u d h => ?_, fun _ u _ d hu => absurd hu (hnone u _), fun _ => nofun,
    fun side hside => ?_, fun u _ d _ hu => absurd hu (hnone u d)⟩
  · by_cases hut : u = t
    · rw [hut, hself] at h
      rcases h with h | h
      · cases h
      · cases h
        exact hut.trans htask
    · rw [hother u hut] at h
      exact hp.who u d h
  · have hside' : side = c.side := by
      by_contra hs
      have hw : (σ.register t c).waiter side = σ.waiter side := Function.update_of_ne hs ..
      rw [hw] at hside
      cases hold : σ.waiter side with
      | none => exact hside hold
      | some u =>
          obtain ⟨-, d, -, hd⟩ := (ht.noted side u).mp hold
          cases (ht.owner u).mpr ⟨d, hd⟩
    rw [hside']
    exact (stuck_congr rfl rfl _).trans hunstuck

/-- A task waits for the lock; the other is awake. -/
theorem IoqPair.contend (hp : IoqPair σ) (ht : IoqTasks σ o) (ho : o ≠ none)
    (hplace : σ.place t = .outside) (htask : t = c.side.task)
    (hawake : ∀ u d, σ.place u = .wait d → σ.blocked u = false) : IoqPair (σ.contend t c) := by
  have hother : ∀ u, u ≠ t → (σ.contend t c).place u = σ.place u := fun u hu =>
    Function.update_of_ne hu ..
  have hself : (σ.contend t c).place t = .down c := Function.update_self ..
  obtain ⟨w, hw⟩ := Option.ne_none_iff_exists'.mp ho
  obtain ⟨e, he⟩ := (ht.owner w).mp hw
  -- the owner of the lock is the only other task
  have hdown : ∀ u d, u ≠ t → (σ.contend t c).place u ≠ .down d := by
    intro u d hut hd
    rw [hother u hut] at hd
    have hwt : w ≠ t := by
      rintro rfl
      rw [hplace] at he
      cases he
    have hu := hp.who u d (Or.inl hd)
    have hw' := hp.who w e (Or.inr he)
    have hd' : d.side = c.side.other := Side.eq_other fun h => hut (by rw [hu, h, ← htask])
    have he' : e.side = c.side.other := Side.eq_other fun h => hwt (by rw [hw', h, ← htask])
    have huw : u = w := by
      rw [hu, hw', hd', he']
    rw [huw, he] at hd
    cases hd
  refine ⟨fun u d h => ?_, fun u v d e' hv hu => ?_, fun _ => ?_, fun side hside => ?_,
    fun u v d e' hu hv => ?_⟩
  · by_cases hut : u = t
    · rw [hut, hself] at h
      rcases h with h | h
      · cases h
        exact hut.trans htask
      · cases h
    · rw [hother u hut] at h
      exact hp.who u d h
  · have hut : u ≠ t := by
      rintro rfl
      rw [hself] at hu
      cases hu
    rw [hother u hut] at hu
    show Function.update σ.blocked t true u = false
    rw [Function.update_of_ne hut]
    exact hawake u e' hu
  · show σ.holder ≠ none
    rw [ht.holder]
    exact ho
  · exact (stuck_congr rfl rfl _).trans (hp.unstuck side hside)
  · by_cases hut : u = t
    · by_cases hvt : v = t
      · rw [hut, hvt]
      · exact absurd hv (hdown v e' hvt)
    · exact absurd hu (hdown u d hut)

theorem IoqPair.await (hp : IoqPair σ) (ht : IoqTasks σ o) (hplace : σ.place t = .outside)
    (htask : t = c.side.task)
    (hfree : σ.holder = none → (∀ u d, σ.place u ≠ .down d) ∧ σ.stuck c.side.other = false)
    (hawake : σ.holder ≠ none → ∀ u d, σ.place u = .wait d → σ.blocked u = false) :
    IoqPair (σ.await t c) := by
  unfold IoqState.await
  by_cases hholder : σ.holder = none
  · rw [if_pos hholder]
    have ho : o = none := ht.holder.symm.trans hholder
    rw [ho] at ht
    exact hp.register ht htask (hfree hholder).1 (hfree hholder).2
  · rw [if_neg hholder]
    exact hp.contend ht (ht.holder ▸ hholder) hplace htask (hawake hholder)

/-- No task is in `sema_down` when the queue is found full or empty. -/
theorem IoqPair.loop (hp : IoqPair σ) (hσ : IoqInv σ) (hplace : σ.place t = .outside)
    (htask : t = c.side.task)
    (hclear : σ.stuck c.side = true → ∀ u, u < 2 → (σ.place u).isDown = false) :
    IoqPair (σ.loop t c) := by
  obtain ⟨⟨o, ht⟩, _, _, _, hr⟩ := hσ
  unfold IoqState.loop
  by_cases hstuck : σ.stuck c.side = true
  · rw [if_pos hstuck]
    have hother := stuck_other hr hstuck
    refine hp.await ht hplace htask (fun _ => ⟨fun u d hu => ?_, hother⟩) fun _ u d hu => ?_
    · have hlt : u < 2 := by
        rw [hp.who u d (Or.inl hu)]
        exact d.side.task_lt
      have hdown := hclear hstuck u hlt
      rw [hu] at hdown
      cases hdown
    · rw [← Bool.not_eq_true]
      intro hblocked
      have hnoted := (ht.noted d.side u).mpr ⟨hblocked, d, rfl, hu⟩
      have hside : d.side ≠ c.side := by
        intro hs
        have hut : u = t := by
          rw [hp.who u d (Or.inr hu), hs, htask]
        rw [hut, hplace] at hu
        cases hu
      have hopen := hp.unstuck d.side (by rw [hnoted]; exact nofun)
      rw [Side.eq_other hside, Side.other_other, hstuck] at hopen
      cases hopen
  · rw [if_neg hstuck]
    exact hp.finish ht hplace htask

/-- A step that meets the condition. -/
theorem IoqPair.step (hp : IoqPair σ) (hσ : IoqInv σ) {s : IoqStep} (hok : ioqPairClear σ s) :
    IoqPair (σ.next s) := by
  obtain ⟨⟨hcall, hwho⟩, hclear⟩ := hok
  cases s with
  | putchar t byte => exact hp.loop hσ hcall hwho hclear
  | getchar t => exact hp.loop hσ hcall hwho hclear
  | resume t =>
      obtain ⟨⟨o, ht⟩, _, _, _, hr⟩ := id hσ
      have hself : (σ.resumed t).place t = .outside := Function.update_self ..
      have hother : ∀ u, u ≠ t → (σ.resumed t).place u = σ.place u := fun u hu =>
        Function.update_of_ne hu ..
      show IoqPair (match σ.place t with
        | .outside => σ.resumed t
        | .down c => (σ.resumed t).await t c
        | .wait c => (σ.resumed t).release.loop t c)
      have hclear' : match σ.place t with
          | .outside => True
          | .down c => σ.holder = none → σ.stuck c.side.other = false
          | .wait c => σ.stuck c.side = true → ∀ u, u < 2 → (σ.place u).isDown = false := hclear
      cases hplace : σ.place t with
      | outside => exact hp.resumed t
      | down c =>
          rw [hplace] at hclear'
          refine (hp.resumed t).await (ht.resumed hcall hplace) hself (hp.who t c (Or.inl hplace))
            (fun hnone => ⟨fun u d hu => ?_, (stuck_congr rfl rfl _).trans (hclear' hnone)⟩)
            fun _ u d hu => ?_
          · have hut : u ≠ t := by
              rintro rfl
              rw [hself] at hu
              cases hu
            rw [hother u hut] at hu
            exact hut (hp.one u t d c hu hplace)
          · have hut : u ≠ t := by
              rintro rfl
              rw [hself] at hu
              cases hu
            rw [hother u hut] at hu
            exact hp.awake u t c d hplace hu
      | wait c =>
          rw [hplace] at hclear'
          have hself' : (σ.resumed t).release.place t = .outside := by
            rw [release_place]
            exact hself
          obtain ⟨-, hhead, htail, -⟩ := release_fields (σ.resumed t)
          refine ((hp.resumed t).release (hp.waiters ht)).loop (hσ.released hcall hplace) hself'
            (hp.who t c (Or.inr hplace)) fun hstuck u hu => ?_
          rw [stuck_congr (σ := σ) hhead htail] at hstuck
          rw [release_place]
          by_cases hut : u = t
          · rw [hut, hself]
            rfl
          · rw [hother u hut]
            exact hclear' hstuck u hu

/-- Two blocked tasks would both wait in `ioq_wait`, or one of them for the other. -/
theorem IoqPair.not_blocked (hp : IoqPair σ) (ht : IoqTasks σ o) :
    ¬(σ.blocked 0 = true ∧ σ.blocked 1 = true) := by
  rintro ⟨hzero, hone⟩
  have hdown : ∀ u d, σ.blocked u = true → σ.place u = .down d → False := by
    intro u d hb hd
    have hmem : u ∈ σ.waiters := (ht.waits u).mpr ⟨hb, d, hd⟩
    have hheld := hp.held (List.ne_nil_of_mem hmem)
    rw [ht.holder] at hheld
    obtain ⟨w, hw⟩ := Option.ne_none_iff_exists'.mp hheld
    obtain ⟨e, he⟩ := (ht.owner w).mp hw
    have hawake := hp.awake w u d e hd he
    have hlt : w < 2 := by
      rw [hp.who w e (Or.inr he)]
      exact e.side.task_lt
    have hw' : w = 0 ∨ w = 1 := by omega
    rcases hw' with rfl | rfl
    · rw [hzero] at hawake
      cases hawake
    · rw [hone] at hawake
      cases hawake
  have hwait : ∀ u, σ.blocked u = true → o = some u := by
    intro u hb
    cases hplace : σ.place u with
    | outside =>
        rw [ht.outside u hplace] at hb
        cases hb
    | down d => exact (hdown u d hb hplace).elim
    | wait d => exact (ht.owner u).mpr ⟨d, hplace⟩
  have heq := (hwait 0 hzero).symm.trans (hwait 1 hone)
  cases heq

/-- Over every run whose steps meet the condition the two tasks are never both blocked. -/
theorem ioqPair_of_run (hrun : Reach ioqStep ioqPairClear ioqueueInit τ) :
    ¬(τ.blocked 0 = true ∧ τ.blocked 1 = true) := by
  have hτ : IoqInv τ ∧ IoqPair τ := by
    refine hrun.invariant (I := fun σ => IoqInv σ ∧ IoqPair σ)
      ⟨ioqueueInit_inv, ioqueueInit_pair⟩ ?_
    rintro σ s τ ⟨hσ, hp⟩ hok hstep
    obtain ⟨hnext, hinv⟩ := hσ.step hok.1.1
    rw [hstep, Except.ok.injEq] at hnext
    rw [hnext]
    exact ⟨hinv, hp.step hσ hok⟩
  obtain ⟨⟨o, ht⟩, -⟩ := hτ.1
  exact hτ.2.not_blocked ht

instance (σ : IoqState) : ∀ s, Decidable (ioqPairCall σ s)
  | .putchar _ _ => inferInstanceAs (Decidable (_ ∧ _ = _))
  | .getchar _ => inferInstanceAs (Decidable (_ ∧ _ = _))
  | .resume _ => inferInstanceAs (Decidable (_ ∧ True))

instance (σ : IoqState) (t : Nat) : Decidable (match σ.place t with
    | .outside => True
    | .down c => σ.holder = none → σ.stuck c.side.other = false
    | .wait c => σ.stuck c.side = true → ∀ u, u < 2 → (σ.place u).isDown = false) :=
  match σ.place t with
  | .outside => isTrue True.intro
  | .down _ => inferInstanceAs (Decidable (_ → _))
  | .wait _ => inferInstanceAs (Decidable (_ → ∀ u, u < 2 → _))

instance (σ : IoqState) : ∀ s, Decidable (ioqPairClear σ s)
  | .putchar _ _ => inferInstanceAs (Decidable (_ ∧ (_ → ∀ u, u < 2 → _)))
  | .getchar _ => inferInstanceAs (Decidable (_ ∧ (_ → ∀ u, u < 2 → _)))
  | .resume _ => inferInstanceAs (Decidable (_ ∧ _))

/-- The task that takes waits in `ioq_wait` until the other puts a byte. -/
theorem ioqPair_one : ∃ τ, Reach ioqStep ioqPairClear ioqueueInit τ ∧
    ¬(τ.blocked 0 = true ∧ τ.blocked 1 = true) ∧ τ.taken = [7] := by
  obtain ⟨τ, hrun, hτ⟩ := exists_reach ioqStep ioqPairClear ioqueueInit
    [.getchar 1, .putchar 0 7, .resume 1] (fun τ => τ.taken = [7])
    (by decide +kernel) (by decide +kernel)
  exact ⟨τ, hrun, ioqPair_of_run hrun, hτ⟩

/-- Task 1 sleeps with the lock, task 0 fills the queue and waits for the lock; task 1 gives
it up, takes all bytes, finds the queue empty and takes the lock to sleep again before
task 0 has tested it. -/
theorem ioqPair_blocked : ∃ τ, Reach ioqStep ioqPairCall ioqueueInit τ ∧
    τ.blocked 0 = true ∧ τ.blocked 1 = true := by
  obtain ⟨τ, hrun, hτ⟩ := exists_reach ioqStep ioqPairCall ioqueueInit
    (.getchar 1 :: List.replicate 64 (.putchar 0 7) ++ .resume 1 ::
      List.replicate 63 (.getchar 1) ++ [.resume 0])
    (fun τ => τ.blocked 0 = true ∧ τ.blocked 1 = true)
    (by decide +kernel) (by decide +kernel)
  exact ⟨τ, hrun, hτ⟩

end

end OsTruth
