/-
The bytes of a queue between tasks come out as they went in.

`Ringed` is about the buffer and `IoqTasks` about the tasks and the lock.  A step of a task
ends its call, or it finds the lock taken and waits for it, or it takes the lock and waits
in `ioq_wait`: `IoqState.next` is the state behind it.
-/
import OsTruth.Device.Ioqueue

namespace OsTruth

open Fallible Runs

/-! ## The buffer -/

/-- The slots from `tail` to `head` hold the bytes put and not yet taken. -/
structure Ringed (σ : IoqState) (h t : Nat) (q : List UInt8) : Prop where
  head : σ.head = Int32.ofNat h
  tail : σ.tail = Int32.ofNat t
  holds : Ring.Holds bufsize σ.buf h t q
  puts : σ.puts = σ.taken ++ q

section

variable {σ τ : IoqState} {h t i : Nat} {q : List UInt8} {o : Option Nat} {c : IoCall}
variable {side : Side}

theorem nextPos_ofNat (hh : h < bufsize) :
    nextPos (Int32.ofNat h) = Int32.ofNat ((h + 1) % bufsize) := by
  have hall : ∀ h, h < 64 → nextPos (Int32.ofNat h) = Int32.ofNat ((h + 1) % 64) := by decide
  exact hall h hh

theorem toInt_pos (hh : h < bufsize) : (Int32.ofNat h).toInt = h := by
  have hlt : h < 64 := hh
  exact Int32.toInt_ofNat_of_lt (by omega)

theorem pos_inj {j : Nat} (hi : i < bufsize) (hj : j < bufsize) :
    Int32.ofNat i = Int32.ofNat j ↔ i = j := by
  constructor
  · intro heq
    have hint := congrArg Int32.toInt heq
    rw [toInt_pos hi, toInt_pos hj] at hint
    exact Int.ofNat.inj hint
  · exact fun heq => congrArg _ heq

theorem Ringed.empty_iff (hr : Ringed σ h t q) : ioqEmpty σ = true ↔ q = [] := by
  rw [ioqEmpty, decide_eq_true_iff, hr.head, hr.tail, pos_inj hr.holds.head_lt hr.holds.tail_lt]
  exact hr.holds.empty_iff

theorem Ringed.full_iff (hr : Ringed σ h t q) : ioqFull σ = true ↔ q.length + 1 = bufsize := by
  rw [ioqFull, decide_eq_true_iff, hr.head, hr.tail, nextPos_ofNat hr.holds.head_lt,
    pos_inj (Nat.mod_lt _ (by decide)) hr.holds.tail_lt]
  exact hr.holds.full_iff

/-- A position inside the buffer can be read. -/
theorem ioqAccess_returns (hi : i < bufsize) {Q : Nat → IoqState → Prop} (hQ : Q i σ) :
    Returns (ioqAccess (Int32.ofNat i)) σ Q := by
  have hint := toInt_pos hi
  have hlt : (i : Int) < 64 := by exact_mod_cast hi
  have hin : 0 ≤ Int32.ofNat i ∧ Int32.ofNat i < 64 := by
    rw [Int32.le_iff_toInt_le, Int32.lt_iff_toInt_lt, hint]
    exact ⟨Int.natCast_nonneg i, hlt⟩
  unfold ioqAccess
  rw [if_pos hin, hint]
  exact hQ

/-! ## The tasks -/

/-- `o` is the task in `ioq_wait`, which holds the lock. -/
structure IoqTasks (σ : IoqState) (o : Option Nat) : Prop where
  holder : σ.holder = o
  value : σ.value = if o = none then 1 else 0
  nr : σ.holderRepeatNr = if o = none then 0 else 1
  owner : ∀ t, o = some t ↔ ∃ c, σ.place t = .wait c
  nodup : σ.waiters.Nodup
  readyNodup : σ.ready.Nodup
  waits : ∀ t, t ∈ σ.waiters ↔ σ.blocked t = true ∧ ∃ c, σ.place t = .down c
  ready : ∀ t, t ∈ σ.ready ↔ σ.blocked t = false ∧ σ.place t ≠ .outside
  outside : ∀ t, σ.place t = .outside → σ.blocked t = false
  noted : ∀ side t, σ.waiter side = some t ↔
    σ.blocked t = true ∧ ∃ c, c.side = side ∧ σ.place t = .wait c

theorem IoqTasks.congr (ht : IoqTasks σ o) (hlock : τ.toLock = σ.toLock)
    (hplace : τ.place = σ.place) (hblocked : τ.blocked = σ.blocked) (hready : τ.ready = σ.ready)
    (hwaiter : τ.waiter = σ.waiter) : IoqTasks τ o where
  holder := by rw [hlock]; exact ht.holder
  value := by rw [hlock]; exact ht.value
  nr := by rw [hlock]; exact ht.nr
  owner := by rw [hplace]; exact ht.owner
  nodup := by rw [hlock]; exact ht.nodup
  readyNodup := by rw [hready]; exact ht.readyNodup
  waits := by rw [hlock, hplace, hblocked]; exact ht.waits
  ready := by rw [hready, hplace, hblocked]; exact ht.ready
  outside := by rw [hplace, hblocked]; exact ht.outside
  noted := by rw [hwaiter, hplace, hblocked]; exact ht.noted

/-! ## The ready list -/

/-- What `IoqTasks` says of the ready list. -/
structure Runnable (σ : IoqState) : Prop where
  nodup : σ.ready.Nodup
  ready : ∀ t, t ∈ σ.ready ↔ σ.blocked t = false ∧ σ.place t ≠ .outside
  outside : ∀ t, σ.place t = .outside → σ.blocked t = false

theorem IoqTasks.runnable (ht : IoqTasks σ o) : Runnable σ :=
  ⟨ht.readyNodup, ht.ready, ht.outside⟩

theorem Runnable.not_ready (hr : Runnable σ) (hblocked : σ.blocked t = true) : t ∉ σ.ready := by
  rw [hr.ready, hblocked]
  exact fun h => nomatch h.1

theorem update_blocked {f : Nat → Bool} (u : Nat) :
    Function.update f t true u = true ↔ u = t ∨ f u = true := by
  by_cases hut : u = t
  · rw [hut, Function.update_self]
    simp
  · rw [Function.update_of_ne hut]
    simp [hut]

theorem update_awake {f : Nat → Bool} (u : Nat) :
    Function.update f t false u = true ↔ u ≠ t ∧ f u = true := by
  by_cases hut : u = t
  · rw [hut, Function.update_self]
    simp
  · rw [Function.update_of_ne hut]
    simp [hut]

/-- A task is switched out. -/
theorem Runnable.block (hr : Runnable σ) (hplace : σ.place t = .outside) {p : Place}
    (hp : p ≠ .outside) : Runnable (σ.block t p) where
  nodup := hr.nodup
  ready u := by
    show u ∈ σ.ready ↔ Function.update σ.blocked t true u = false ∧
      Function.update σ.place t p u ≠ .outside
    rw [hr.ready, ← Bool.not_eq_true, ← Bool.not_eq_true, update_blocked]
    by_cases hut : u = t
    · rw [hut, hplace]
      exact iff_of_false (fun h => h.2 rfl) fun h => h.1 (Or.inl rfl)
    · rw [Function.update_of_ne hut]
      simp [hut]
  outside u hu := by
    have hu' : Function.update σ.place t p u = .outside := hu
    have hut : u ≠ t := by
      rintro rfl
      rw [Function.update_self] at hu'
      exact hp hu'
    rw [Function.update_of_ne hut] at hu'
    show Function.update σ.blocked t true u = false
    rw [← Bool.not_eq_true, update_blocked, hr.outside u hu']
    simp [hut]

/-- A task goes on. -/
theorem Runnable.wake (hr : Runnable σ) (hblocked : σ.blocked t = true) : Runnable (σ.wake t) where
  nodup := List.nodup_cons.mpr ⟨hr.not_ready hblocked, hr.nodup⟩
  ready u := by
    show u ∈ t :: σ.ready ↔ Function.update σ.blocked t false u = false ∧ σ.place u ≠ .outside
    rw [List.mem_cons, hr.ready]
    by_cases hut : u = t
    · rw [hut, Function.update_self]
      refine iff_of_true (Or.inl rfl) ⟨rfl, fun hout => ?_⟩
      rw [hr.outside t hout] at hblocked
      cases hblocked
    · rw [Function.update_of_ne hut]
      exact or_iff_right hut
  outside u hu := by
    show Function.update σ.blocked t false u = false
    rw [← Bool.not_eq_true, update_awake]
    exact fun h => nomatch (hr.outside u hu).symm.trans h.2

/-- A task that was switched out runs. -/
def IoqState.resumed (σ : IoqState) (t : Nat) : IoqState :=
  { σ.setPlace t .outside with ready := σ.ready.erase t }

theorem Runnable.resumed (hr : Runnable σ) (hblocked : σ.blocked t = false) :
    Runnable (σ.resumed t) where
  nodup := hr.nodup.erase t
  ready u := by
    show u ∈ σ.ready.erase t ↔ σ.blocked u = false ∧ Function.update σ.place t .outside u ≠ .outside
    rw [hr.nodup.mem_erase_iff, hr.ready]
    by_cases hut : u = t
    · rw [hut, Function.update_self]
      exact iff_of_false (fun h => h.1 rfl) fun h => h.2 rfl
    · rw [Function.update_of_ne hut]
      simp [hut]
  outside u hu := by
    show σ.blocked u = false
    by_cases hut : u = t
    · rw [hut]
      exact hblocked
    · exact hr.outside u ((Function.update_of_ne hut ..).symm.trans hu)

/-- A blocked task is where it was. -/
theorem blocked_resumed (hblocked : σ.blocked t = false) (u : Nat) (P : Place → Prop) :
    σ.blocked u = true ∧ P ((σ.resumed t).place u) ↔ σ.blocked u = true ∧ P (σ.place u) := by
  refine and_congr_right fun hb => ?_
  have hut : u ≠ t := by
    rintro rfl
    rw [hblocked] at hb
    cases hb
  have hsame : (σ.resumed t).place u = σ.place u := Function.update_of_ne hut ..
  rw [hsame]

/-! ## The lock -/

/-- The task that is noted goes on. -/
theorem IoqTasks.wakeNoted (ht : IoqTasks σ o) (hside : σ.waiter side = some t) :
    IoqTasks ((σ.wake t).setWaiter side none) o := by
  obtain ⟨hblocked, c, hc, hplace⟩ := (ht.noted side t).mp hside
  have hr := ht.runnable.wake hblocked
  refine ⟨ht.holder, ht.value, ht.nr, ht.owner, ht.nodup, hr.nodup, fun u => ?_, hr.ready,
    hr.outside, fun side' u => ?_⟩
  · show u ∈ σ.waiters ↔ Function.update σ.blocked t false u = true ∧ ∃ c, σ.place u = .down c
    rw [update_awake, ht.waits]
    constructor
    · rintro ⟨hb, d, hd⟩
      refine ⟨⟨?_, hb⟩, d, hd⟩
      rintro rfl
      rw [hplace] at hd
      cases hd
    · exact fun h => ⟨h.1.2, h.2⟩
  · show Function.update σ.waiter side none side' = some u ↔
      Function.update σ.blocked t false u = true ∧ ∃ c, c.side = side' ∧ σ.place u = .wait c
    rw [update_awake]
    by_cases hs : side' = side
    · rw [hs, Function.update_self]
      refine iff_of_false nofun ?_
      rintro ⟨⟨hut, hb⟩, hrest⟩
      have hu := (ht.noted side u).mpr ⟨hb, hrest⟩
      rw [hside] at hu
      exact hut (Option.some.inj hu).symm
    · rw [Function.update_of_ne hs, ht.noted]
      constructor
      · rintro ⟨hb, d, hd, hu⟩
        refine ⟨⟨?_, hb⟩, d, hd, hu⟩
        rintro rfl
        rw [hplace] at hu
        cases hu
        exact hs (hd.symm.trans hc)
      · exact fun h => ⟨h.1.2, h.2⟩

theorem wakeup_returns (ht : IoqTasks σ o) (hside : σ.waiter side = some t)
    {Q : Unit → IoqState → Prop} (hQ : Q () ((σ.wake t).setWaiter side none)) :
    Returns (wakeup side) σ Q := by
  obtain ⟨hblocked, -⟩ := (ht.noted side t).mp hside
  have hnew := ht.runnable.not_ready hblocked
  refine Wp.bind.mpr (Wp.get.mpr ?_)
  rw [hside]
  refine Wp.bind.mpr (Wp.bind.mpr (Wp.get.mpr (Wp.bind.mpr (Wp.lift_ok (if_pos hblocked) ?_))))
  exact Wp.bind.mpr (Wp.lift_ok (if_pos hnew) hQ)

def IoqState.contend (σ : IoqState) (t : Nat) (c : IoCall) : IoqState :=
  { σ with waiters := σ.waiters ++ [t] }.block t (.down c)

/-- A task takes the lock and waits in `ioq_wait`. -/
def IoqState.register (σ : IoqState) (t : Nat) (c : IoCall) : IoqState :=
  ({ σ with holder := some t, value := σ.value - 1, holderRepeatNr := 1 }.setWaiter c.side
    (some t)).block t (.wait c)

theorem IoqTasks.contend (ht : IoqTasks σ o) (hplace : σ.place t = .outside) (c : IoCall) :
    IoqTasks (σ.contend t c) o := by
  have hnew : t ∉ σ.waiters := by
    rw [ht.waits, ht.outside t hplace]
    exact fun h => nomatch h.1
  have hother : ∀ u, u ≠ t → (σ.contend t c).place u = σ.place u := fun u hu =>
    Function.update_of_ne hu ..
  have hself : (σ.contend t c).place t = .down c := Function.update_self ..
  have hblocked : ∀ u, (σ.contend t c).blocked u = true ↔ u = t ∨ σ.blocked u = true :=
    update_blocked
  have hr := ht.runnable.block hplace (p := .down c) nofun
  refine ⟨ht.holder, ht.value, ht.nr, fun u => ?_, ?_, hr.nodup, fun u => ?_, hr.ready, hr.outside,
    fun side u => ?_⟩
  · rw [ht.owner]
    by_cases hut : u = t
    · rw [hut, hself, hplace]
      exact iff_of_false (fun ⟨_, h⟩ => nomatch h) fun ⟨_, h⟩ => nomatch h
    · rw [hother u hut]
  · refine List.nodup_append.mpr ⟨ht.nodup, List.nodup_singleton t, fun a ha b hb => ?_⟩
    rw [List.mem_singleton.mp hb]
    rintro rfl
    exact hnew ha
  · show u ∈ σ.waiters ++ [t] ↔ _
    rw [List.mem_append, List.mem_singleton, hblocked, ht.waits]
    by_cases hut : u = t
    · rw [hut, hself]
      exact iff_of_true (Or.inr rfl) ⟨Or.inl rfl, c, rfl⟩
    · rw [hother u hut]
      simp [hut]
  · show σ.waiter side = some u ↔ _
    rw [ht.noted, hblocked]
    by_cases hut : u = t
    · rw [hut, hself, hplace]
      exact iff_of_false (fun ⟨_, _, _, h⟩ => nomatch h) fun ⟨_, _, _, h⟩ => nomatch h
    · rw [hother u hut]
      simp [hut]

/-- While the lock is free no task waits in `ioq_wait`. -/
theorem IoqTasks.no_wait (ht : IoqTasks σ none) (u : Nat) (d : IoCall) : σ.place u ≠ .wait d :=
  fun hd => by cases (ht.owner u).mpr ⟨d, hd⟩

theorem IoqTasks.waiter_none (ht : IoqTasks σ none) (side : Side) : σ.waiter side = none := by
  cases hw : σ.waiter side with
  | none => rfl
  | some u =>
      obtain ⟨-, d, -, hd⟩ := (ht.noted side u).mp hw
      exact absurd hd (ht.no_wait u d)

theorem IoqTasks.register (ht : IoqTasks σ none) (hplace : σ.place t = .outside) (c : IoCall) :
    IoqTasks (σ.register t c) (some t) := by
  have hother : ∀ u, u ≠ t → (σ.register t c).place u = σ.place u := fun u hu =>
    Function.update_of_ne hu ..
  have hself : (σ.register t c).place t = .wait c := Function.update_self ..
  have hblocked : ∀ u, (σ.register t c).blocked u = true ↔ u = t ∨ σ.blocked u = true :=
    update_blocked
  have hr := ht.runnable.block hplace (p := .wait c) nofun
  refine ⟨rfl, ?_, rfl, fun u => ?_, ht.nodup, hr.nodup, fun u => ?_, hr.ready, hr.outside,
    fun side u => ?_⟩
  · show σ.value - 1 = 0
    rw [ht.value]
    rfl
  · by_cases hut : u = t
    · rw [hut, hself]
      exact iff_of_true rfl ⟨c, rfl⟩
    · rw [hother u hut]
      exact iff_of_false (fun h => hut (Option.some.inj h).symm) fun ⟨d, hd⟩ => ht.no_wait u d hd
  · show u ∈ σ.waiters ↔ _
    rw [ht.waits, hblocked]
    by_cases hut : u = t
    · rw [hut, hself, hplace]
      exact iff_of_false (fun ⟨_, _, h⟩ => nomatch h) fun ⟨_, _, h⟩ => nomatch h
    · rw [hother u hut]
      simp [hut]
  · show Function.update σ.waiter c.side (some t) side = some u ↔ _
    rw [hblocked]
    by_cases hut : u = t
    · rw [hut, hself]
      by_cases hs : side = c.side
      · rw [hs, Function.update_self]
        exact iff_of_true rfl ⟨Or.inl rfl, c, rfl, rfl⟩
      · rw [Function.update_of_ne hs, ht.waiter_none]
        refine iff_of_false nofun ?_
        rintro ⟨-, d, hd, hd'⟩
        cases hd'
        exact hs hd.symm
    · rw [hother u hut]
      refine iff_of_false (fun h => ?_) fun ⟨_, d, _, hd⟩ => ht.no_wait u d hd
      by_cases hs : side = c.side
      · rw [hs, Function.update_self] at h
        exact hut (Option.some.inj h).symm
      · rw [Function.update_of_ne hs, ht.waiter_none] at h
        cases h

/-- A task that waited for the lock runs. -/
theorem IoqTasks.resumed (ht : IoqTasks σ o) (hready : t ∈ σ.ready) {c : IoCall}
    (hplace : σ.place t = .down c) : IoqTasks (σ.resumed t) o := by
  have hblocked : σ.blocked t = false := ((ht.ready t).mp hready).1
  have hself : (σ.resumed t).place t = .outside := Function.update_self ..
  have hr := ht.runnable.resumed hblocked
  have hsame := blocked_resumed hblocked
  refine ⟨ht.holder, ht.value, ht.nr, fun u => ?_, ht.nodup, hr.nodup, fun u => ?_, hr.ready,
    hr.outside, fun side u => ?_⟩
  · rw [ht.owner]
    by_cases hut : u = t
    · rw [hut, hself, hplace]
      exact iff_of_false (fun ⟨_, h⟩ => nomatch h) fun ⟨_, h⟩ => nomatch h
    · rw [show (σ.resumed t).place u = σ.place u from Function.update_of_ne hut ..]
  · exact (ht.waits u).trans (hsame u fun p => ∃ c, p = .down c).symm
  · exact (ht.noted side u).trans (hsame u fun p => ∃ c, c.side = side ∧ p = .wait c).symm

/-- The task in `ioq_wait` runs and gives the lock up. -/
theorem IoqTasks.leave (ht : IoqTasks σ (some t)) (hready : t ∈ σ.ready) :
    IoqTasks { σ.resumed t with holder := none, holderRepeatNr := 0, value := 1 } none := by
  have hblocked : σ.blocked t = false := ((ht.ready t).mp hready).1
  have hself : (σ.resumed t).place t = .outside := Function.update_self ..
  have hr := ht.runnable.resumed hblocked
  have hsame := blocked_resumed hblocked
  refine ⟨rfl, rfl, rfl, fun u => ?_, ht.nodup, hr.nodup, fun u => ?_, hr.ready, hr.outside,
    fun side u => ?_⟩
  · show none = some u ↔ ∃ c, (σ.resumed t).place u = .wait c
    by_cases hut : u = t
    · rw [hut, hself]
      exact iff_of_false nofun fun ⟨_, h⟩ => nomatch h
    · rw [show (σ.resumed t).place u = σ.place u from Function.update_of_ne hut ..]
      refine iff_of_false nofun fun ⟨d, hd⟩ => hut ?_
      exact (Option.some.inj ((ht.owner u).mpr ⟨d, hd⟩)).symm
  · exact (ht.waits u).trans (hsame u fun p => ∃ c, p = .down c).symm
  · exact (ht.noted side u).trans (hsame u fun p => ∃ c, c.side = side ∧ p = .wait c).symm

/-- The first task that waits for the lock goes on. -/
theorem IoqTasks.wakeFirst (ht : IoqTasks σ o) {ws : List Nat} (hws : σ.waiters = t :: ws) :
    IoqTasks ({ σ with waiters := ws }.wake t) o := by
  have hmem : t ∈ σ.waiters := by
    rw [hws]
    exact List.mem_cons_self
  obtain ⟨hblocked, c, hplace⟩ := (ht.waits t).mp hmem
  have hnodup := ht.nodup
  rw [hws] at hnodup
  obtain ⟨hnot, hnodup'⟩ := List.nodup_cons.mp hnodup
  have hr := ht.runnable.wake hblocked
  refine ⟨ht.holder, ht.value, ht.nr, ht.owner, hnodup', hr.nodup, fun u => ?_, hr.ready,
    hr.outside, fun side u => ?_⟩
  · show u ∈ ws ↔ Function.update σ.blocked t false u = true ∧ ∃ c, σ.place u = .down c
    have hold := ht.waits u
    rw [hws, List.mem_cons] at hold
    rw [update_awake]
    by_cases hut : u = t
    · rw [hut]
      exact iff_of_false hnot fun h => h.1.1 rfl
    · rw [or_iff_right hut] at hold
      rw [hold]
      simp [hut]
  · show σ.waiter side = some u ↔ Function.update σ.blocked t false u = true ∧ _
    rw [update_awake, ht.noted]
    constructor
    · rintro ⟨hb, d, hd, hu⟩
      refine ⟨⟨?_, hb⟩, d, hd, hu⟩
      rintro rfl
      rw [hplace] at hu
      cases hu
    · exact fun h => ⟨h.1.2, h.2⟩

/-! ## What a step does -/

namespace IoqState

/-- A task that cannot finish its call waits, for the lock or in `ioq_wait`. -/
def await (σ : IoqState) (t : Nat) (c : IoCall) : IoqState :=
  if σ.holder = none then σ.register t c else σ.contend t c

/-- The lock is given up, and the first task that waits for it goes on. -/
def release (σ : IoqState) : IoqState :=
  let τ := { σ with holder := none, holderRepeatNr := 0, value := 1 }
  match σ.waiters with
  | [] => τ
  | w :: ws => { τ with waiters := ws }.wake w

/-- The task noted on a side goes on. -/
def notify (σ : IoqState) (side : Side) : IoqState :=
  match σ.waiter side with
  | none => σ
  | some t => (σ.wake t).setWaiter side none

def putByte (σ : IoqState) (byte : UInt8) : IoqState :=
  { σ with
    buf := Function.update σ.buf σ.head.toInt.toNat byte
    head := nextPos σ.head
    puts := σ.puts ++ [byte] }

def takeByte (σ : IoqState) : IoqState :=
  { σ with
    tail := nextPos σ.tail
    taken := σ.taken ++ [σ.buf σ.tail.toInt.toNat] }

def finish (σ : IoqState) : IoCall → IoqState
  | .put byte => (σ.putByte byte).notify .consumer
  | .get => σ.takeByte.notify .producer

def loop (σ : IoqState) (t : Nat) (c : IoCall) : IoqState :=
  if σ.stuck c.side = true then σ.await t c else σ.finish c

def next (σ : IoqState) : IoqStep → IoqState
  | .putchar t byte => σ.loop t (.put byte)
  | .getchar t => σ.loop t .get
  | .resume t =>
      match σ.place t with
      | .outside => σ.resumed t
      | .down c => (σ.resumed t).await t c
      | .wait c => (σ.resumed t).release.loop t c

end IoqState

theorem ioqSemaDown_returns (ht : IoqTasks σ o) (hplace : σ.place t = .outside) (c : IoCall)
    {Q : Unit → IoqState → Prop} (hQ : Q () (σ.await t c)) : Returns (ioqSemaDown t c) σ Q := by
  unfold IoqState.await at hQ
  by_cases hzero : σ.value = 0
  · have hholder : σ.holder ≠ none := by
      intro hnone
      have hvalue := ht.value
      rw [← ht.holder, hnone, if_pos rfl, hzero] at hvalue
      cases hvalue
    rw [if_neg hholder] at hQ
    have hnew : t ∉ σ.waiters := by
      rw [ht.waits, ht.outside t hplace]
      exact fun h => nomatch h.1
    refine Wp.bind.mpr (Wp.get.mpr (Wp.bind.mpr ?_))
    exact Wp.lift_ok (Semaphore.down_zero hzero hnew) (Wp.bind.mpr (Wp.set.mpr (Wp.modify.mpr hQ)))
  · have ho : o = none := by
      by_contra ho
      exact hzero (ht.value.trans (if_neg ho))
    rw [ho] at ht
    rw [if_pos ht.holder] at hQ
    have hone : σ.value = 1 := ht.value
    have hnone := ht.waiter_none c.side
    have hnr : σ.holderRepeatNr = 0 := ht.nr
    refine Wp.bind.mpr (Wp.get.mpr (Wp.bind.mpr ?_))
    refine Wp.lift_ok (Semaphore.down_one hone) (Wp.bind.mpr (Wp.set.mpr ?_))
    refine Wp.bind.mpr (Wp.modify.mpr (Wp.bind.mpr (Wp.get.mpr (Wp.bind.mpr ?_))))
    refine Wp.lift_ok (if_pos hnr) (Wp.bind.mpr (Wp.set.mpr (Wp.bind.mpr (Wp.get.mpr ?_))))
    exact Wp.bind.mpr (Wp.lift_ok (if_pos hnone) hQ)

theorem ioqRelease_returns (ht : IoqTasks σ (some t)) {Q : Unit → IoqState → Prop}
    (hQ : Q () (σ.resumed t).release) : Returns (ioqRelease t) (σ.resumed t) Q := by
  have hholder : σ.holder = some t := ht.holder
  have hnr : σ.holderRepeatNr = 1 := ht.nr
  have hzero : σ.value = 0 := ht.value
  have hone : σ.value + 1 = 1 := by
    rw [hzero]
    rfl
  have hgt : ¬σ.holderRepeatNr > 1 := by
    rw [hnr]
    decide
  refine Wp.bind.mpr (Wp.get.mpr (Wp.bind.mpr (Wp.lift_ok (if_pos hholder) ?_)))
  refine Wp.ite.mpr ⟨fun h => absurd h hgt, fun _ => ?_⟩
  refine Wp.bind.mpr (Wp.lift_ok (if_pos hnr) (Wp.bind.mpr (Wp.set.mpr ?_)))
  refine Wp.bind.mpr (Wp.get.mpr (Wp.bind.mpr ?_))
  unfold IoqState.release at hQ
  cases hws : σ.waiters with
  | nil =>
      refine Wp.lift_ok (Semaphore.up_nil hzero hws) (Wp.bind.mpr (Wp.set.mpr (Wp.pure.mpr ?_)))
      simp only [IoqState.resumed, IoqState.setPlace, hws, hone] at hQ ⊢
      exact hQ
  | cons w ws =>
      have hws' : (σ.resumed t).waiters = w :: ws := hws
      obtain ⟨hblocked, -⟩ := (ht.waits w).mp (by rw [hws]; exact List.mem_cons_self)
      have hnew : w ∉ σ.ready.erase t := by
        intro hmem
        have hb := ((ht.ready w).mp (List.mem_of_mem_erase hmem)).1
        rw [hblocked] at hb
        cases hb
      simp only [hws'] at hQ
      refine Wp.lift_ok (Semaphore.up_cons hzero hws) (Wp.bind.mpr (Wp.set.mpr ?_))
      refine Wp.bind.mpr (Wp.get.mpr (Wp.bind.mpr (Wp.lift_ok (if_pos hblocked) ?_)))
      refine Wp.bind.mpr (Wp.lift_ok (if_pos hnew) (Wp.set.mpr ?_))
      simp only [IoqState.resumed, IoqState.setPlace, IoqState.wake, hone] at hQ ⊢
      exact hQ

theorem ioqAcquire_returns (ht : IoqTasks σ o) (hplace : σ.place t = .outside) (c : IoCall)
    {Q : Unit → IoqState → Prop} (hQ : Q () (σ.await t c)) : Returns (ioqAcquire t c) σ Q := by
  have hholder : σ.holder ≠ some t := by
    intro hsome
    rw [ht.holder, ht.owner, hplace] at hsome
    obtain ⟨d, hd⟩ := hsome
    cases hd
  refine Wp.bind.mpr (Wp.get.mpr (Wp.ite.mpr ⟨fun _ => ?_, fun h => absurd hholder h⟩))
  exact ioqSemaDown_returns ht hplace c hQ

theorem notify_returns (ht : IoqTasks σ o) (side : Side) {Q : Unit → IoqState → Prop}
    (hQ : Q () (σ.notify side)) :
    Returns (if σ.waiter side ≠ none then wakeup side else pure ()) σ Q := by
  unfold IoqState.notify at hQ
  cases hw : σ.waiter side with
  | none =>
      rw [hw] at hQ
      exact hQ
  | some u =>
      rw [hw] at hQ
      exact wakeup_returns ht hw hQ

theorem IoqTasks.notify (ht : IoqTasks σ o) (side : Side) : IoqTasks (σ.notify side) o := by
  unfold IoqState.notify
  cases hw : σ.waiter side with
  | none => exact ht
  | some u => exact ht.wakeNoted hw

theorem Ringed.congr (hr : Ringed σ h t q) (hhead : τ.head = σ.head) (htail : τ.tail = σ.tail)
    (hbuf : τ.buf = σ.buf) (hputs : τ.puts = σ.puts) (htaken : τ.taken = σ.taken) :
    Ringed τ h t q where
  head := hhead.trans hr.head
  tail := htail.trans hr.tail
  holds := by rw [hbuf]; exact hr.holds
  puts := by rw [hputs, htaken]; exact hr.puts

theorem Ringed.notify (hr : Ringed σ h t q) (side : Side) : Ringed (σ.notify side) h t q := by
  unfold IoqState.notify
  cases σ.waiter side with
  | none => exact hr
  | some u => exact hr.congr rfl rfl rfl rfl rfl

theorem IoqTasks.finish (ht : IoqTasks σ o) (c : IoCall) : IoqTasks (σ.finish c) o := by
  cases c with
  | put byte =>
      exact IoqTasks.notify (σ := σ.putByte byte) (ht.congr rfl rfl rfl rfl rfl) .consumer
  | get => exact IoqTasks.notify (σ := σ.takeByte) (ht.congr rfl rfl rfl rfl rfl) .producer

/-- The queue is not full, or not empty. -/
theorem Ringed.finish (hr : Ringed σ h t q) {c : IoCall} (hstuck : ¬σ.stuck c.side = true) :
    ∃ h t q, Ringed (σ.finish c) h t q := by
  cases c with
  | put byte =>
      have hroom : q.length + 1 ≠ bufsize := fun heq => hstuck (hr.full_iff.mpr heq)
      refine ⟨(h + 1) % bufsize, t, q ++ [byte],
        Ringed.notify (σ := σ.putByte byte) ⟨?_, hr.tail, ?_, ?_⟩ .consumer⟩
      · show nextPos σ.head = _
        rw [hr.head, nextPos_ofNat hr.holds.head_lt]
      · show Ring.Holds bufsize (Function.update σ.buf σ.head.toInt.toNat byte) _ _ _
        rw [hr.head, toInt_pos hr.holds.head_lt]
        exact hr.holds.put hroom byte
      · show σ.puts ++ [byte] = σ.taken ++ (q ++ [byte])
        rw [hr.puts, List.append_assoc]
  | get =>
      cases q with
      | nil => exact absurd (hr.empty_iff.mpr rfl) hstuck
      | cons x q =>
          obtain ⟨hx, hholds⟩ := hr.holds.take
          refine ⟨h, (t + 1) % bufsize, q,
            Ringed.notify (σ := σ.takeByte) ⟨hr.head, ?_, hholds, ?_⟩ .producer⟩
          · show nextPos σ.tail = _
            rw [hr.tail, nextPos_ofNat hr.holds.tail_lt]
          · show σ.puts = σ.taken ++ [σ.buf σ.tail.toInt.toNat] ++ q
            rw [hr.tail, toInt_pos hr.holds.tail_lt, Int.toNat_natCast, hx, hr.puts,
              List.append_assoc]
            rfl

theorem finish_returns (ht : IoqTasks σ o) (hr : Ringed σ h t q) (c : IoCall)
    {Q : Unit → IoqState → Prop} (hQ : Q () (σ.finish c)) : Returns c.finish σ Q := by
  cases c with
  | put byte =>
      have hset : Returns (do
          set (σ.putByte byte)
          if σ.waiter .consumer ≠ none then wakeup .consumer else pure ()) σ Q :=
        Wp.bind.mpr (Wp.set.mpr (notify_returns (σ := σ.putByte byte)
          (ht.congr rfl rfl rfl rfl rfl) .consumer hQ))
      unfold IoqState.putByte at hset
      rw [hr.head, toInt_pos hr.holds.head_lt] at hset
      refine Wp.bind.mpr (Wp.get.mpr (Wp.bind.mpr ?_))
      rw [hr.head]
      exact ioqAccess_returns hr.holds.head_lt hset
  | get =>
      have hset : Returns (do
          set σ.takeByte
          if σ.waiter .producer ≠ none then wakeup .producer else pure ()) σ Q :=
        Wp.bind.mpr (Wp.set.mpr (notify_returns (σ := σ.takeByte)
          (ht.congr rfl rfl rfl rfl rfl) .producer hQ))
      unfold IoqState.takeByte at hset
      rw [hr.tail, toInt_pos hr.holds.tail_lt] at hset
      refine Wp.bind.mpr (Wp.get.mpr (Wp.bind.mpr ?_))
      rw [hr.tail]
      exact ioqAccess_returns hr.holds.tail_lt hset

theorem ioqLoop_returns {u : Nat} (ht : IoqTasks σ o) (hr : Ringed σ h t q)
    (hplace : σ.place u = .outside) (c : IoCall) {Q : Unit → IoqState → Prop}
    (hQ : Q () (σ.loop u c)) : Returns (ioqLoop u c) σ Q := by
  unfold IoqState.loop at hQ
  refine Wp.bind.mpr (Wp.get.mpr (Wp.ite.mpr ⟨fun hstuck => ?_, fun hstuck => ?_⟩))
  · rw [if_pos hstuck] at hQ
    exact ioqAcquire_returns ht hplace c hQ
  · rw [if_neg hstuck] at hQ
    exact finish_returns ht hr c hQ

/-! ## Runs -/

/-- The tasks and the buffer of a state between two steps. -/
structure IoqInv (σ : IoqState) : Prop where
  tasks : ∃ o, IoqTasks σ o
  ring : ∃ h t q, Ringed σ h t q

theorem ioqueueInit_inv : IoqInv ioqueueInit where
  tasks := ⟨none, {
    holder := rfl
    value := rfl
    nr := rfl
    owner := fun _ => iff_of_false nofun fun ⟨_, h⟩ => nomatch h
    nodup := List.nodup_nil
    readyNodup := List.nodup_nil
    waits := fun _ => iff_of_false List.not_mem_nil fun h => nomatch h.1
    ready := fun _ => iff_of_false List.not_mem_nil fun h => h.2 rfl
    outside := fun _ _ => rfl
    noted := fun _ _ => iff_of_false nofun fun h => nomatch h.1 }⟩
  ring := ⟨0, 0, [], rfl, rfl, Ring.holds_nil (by decide) _, rfl⟩

theorem IoqInv.await (hσ : IoqInv σ) (hplace : σ.place t = .outside) (c : IoCall) :
    IoqInv (σ.await t c) := by
  obtain ⟨⟨o, ht⟩, h, t', q, hr⟩ := hσ
  unfold IoqState.await
  by_cases hholder : σ.holder = none
  · rw [if_pos hholder]
    have ho : o = none := ht.holder.symm.trans hholder
    rw [ho] at ht
    exact ⟨⟨some t, ht.register hplace c⟩, h, t', q, hr.congr rfl rfl rfl rfl rfl⟩
  · rw [if_neg hholder]
    exact ⟨⟨o, ht.contend hplace c⟩, h, t', q, hr.congr rfl rfl rfl rfl rfl⟩

theorem IoqInv.loop (hσ : IoqInv σ) (hplace : σ.place t = .outside) (c : IoCall) :
    IoqInv (σ.loop t c) := by
  unfold IoqState.loop
  by_cases hstuck : σ.stuck c.side = true
  · rw [if_pos hstuck]
    exact hσ.await hplace c
  · rw [if_neg hstuck]
    obtain ⟨⟨o, ht⟩, h, t', q, hr⟩ := hσ
    exact ⟨⟨o, ht.finish c⟩, hr.finish hstuck⟩

/-- A task that waited for the lock, or the task in `ioq_wait`, runs. -/
theorem IoqInv.resumed (hσ : IoqInv σ) (hready : t ∈ σ.ready) {c : IoCall}
    (hplace : σ.place t = .down c) : IoqInv (σ.resumed t) := by
  obtain ⟨⟨o, ht⟩, h, t', q, hr⟩ := hσ
  exact ⟨⟨o, ht.resumed hready hplace⟩, h, t', q, hr.congr rfl rfl rfl rfl rfl⟩

theorem IoqInv.released (hσ : IoqInv σ) (hready : t ∈ σ.ready) {c : IoCall}
    (hplace : σ.place t = .wait c) : IoqInv (σ.resumed t).release := by
  obtain ⟨⟨o, ht⟩, h, t', q, hr⟩ := hσ
  have ho : o = some t := (ht.owner t).mpr ⟨c, hplace⟩
  rw [ho] at ht
  have hleave := ht.leave hready
  unfold IoqState.release
  cases hws : (σ.resumed t).waiters with
  | nil =>
      have hlock : (⟨⟨1, []⟩, none, 0⟩ : Lock) = ⟨⟨1, (σ.resumed t).waiters⟩, none, 0⟩ := by
        rw [hws]
      exact ⟨⟨none, hleave.congr hlock rfl rfl rfl rfl⟩, h, t', q, hr.congr rfl rfl rfl rfl rfl⟩
  | cons w ws => exact ⟨⟨none, hleave.wakeFirst hws⟩, h, t', q, hr.congr rfl rfl rfl rfl rfl⟩

theorem release_place (σ : IoqState) : σ.release.place = σ.place := by
  unfold IoqState.release
  cases σ.waiters <;> rfl

/-- Every step returns, in the state that `next` gives. -/
theorem IoqInv.step (hσ : IoqInv σ) {s : IoqStep} (hok : ioqCall σ s) :
    ioqStep σ s = .ok (σ.next s) ∧ IoqInv (σ.next s) := by
  obtain ⟨⟨o, ht⟩, h, t', q, hr⟩ := id hσ
  have hrun : Returns s.run σ (fun _ τ => τ = σ.next s) ∧ IoqInv (σ.next s) := by
    cases s with
    | putchar t byte => exact ⟨ioqLoop_returns ht hr hok (.put byte) rfl, hσ.loop hok _⟩
    | getchar t => exact ⟨ioqLoop_returns ht hr hok .get rfl, hσ.loop hok _⟩
    | resume t =>
        have hself : (σ.resumed t).place t = .outside := Function.update_self ..
        have hnot : σ.place t ≠ .outside := ((ht.ready t).mp hok).2
        show Returns (ioqResume t) σ (fun _ τ => τ = match σ.place t with
            | .outside => σ.resumed t
            | .down c => (σ.resumed t).await t c
            | .wait c => (σ.resumed t).release.loop t c) ∧ IoqInv (match σ.place t with
            | .outside => σ.resumed t
            | .down c => (σ.resumed t).await t c
            | .wait c => (σ.resumed t).release.loop t c)
        cases hplace : σ.place t with
        | outside => exact absurd hplace hnot
        | down c =>
            have hinv := hσ.resumed hok hplace
            refine ⟨Wp.bind.mpr (Wp.get.mpr (Wp.bind.mpr (Wp.set.mpr ?_))), hinv.await hself c⟩
            rw [hplace]
            exact ioqSemaDown_returns (ht.resumed hok hplace) hself c rfl
        | wait c =>
            have hinv := hσ.released hok hplace
            have hself' : (σ.resumed t).release.place t = .outside := by
              rw [release_place]
              exact hself
            obtain ⟨⟨o', ht'⟩, h', t'', q', hr'⟩ := id hinv
            refine ⟨Wp.bind.mpr (Wp.get.mpr (Wp.bind.mpr (Wp.set.mpr ?_))), hinv.loop hself' c⟩
            rw [hplace]
            have ho : o = some t := (ht.owner t).mpr ⟨c, hplace⟩
            rw [ho] at ht
            exact Wp.bind.mpr (ioqRelease_returns ht (ioqLoop_returns ht' hr' hself' c rfl))
  obtain ⟨_, τ, hτ, heq⟩ := returns_iff.mp hrun.1
  refine ⟨?_, hrun.2⟩
  rw [ioqStep, hτ, ← heq]
  rfl

structure IoqRight (σ : IoqState) : Prop where
  order : σ.taken <+: σ.puts
  few : σ.puts.length - σ.taken.length ≤ 63
  head : 0 ≤ σ.head.toInt ∧ σ.head.toInt ≤ 63
  tail : 0 ≤ σ.tail.toInt ∧ σ.tail.toInt ≤ 63
  kept : ∀ i byte, σ.puts[σ.taken.length + i]? = some byte →
    σ.buf ((σ.tail.toInt.toNat + i) % 64) = byte

theorem Ringed.right (hr : Ringed σ h t q) : IoqRight σ := by
  have hhead : h < 64 := hr.holds.head_lt
  have htail : t < 64 := hr.holds.tail_lt
  have hshort : q.length < 64 := hr.holds.short
  refine ⟨⟨q, hr.puts.symm⟩, ?_, ?_, ?_, fun i byte hi => ?_⟩
  · rw [hr.puts, List.length_append]
    omega
  · rw [hr.head, toInt_pos hhead]
    omega
  · rw [hr.tail, toInt_pos htail]
    omega
  · rw [hr.tail, toInt_pos htail, Int.toNat_natCast]
    rw [hr.puts, List.getElem?_append_right (Nat.le_add_right _ _), Nat.add_sub_cancel_left] at hi
    exact hr.holds.kept i byte hi

/-- Over every run the bytes come out in order and none is lost, and no assertion fails. -/
theorem ioqRight_of_run (hrun : Reach ioqStep ioqCall ioqueueInit τ) :
    IoqRight τ ∧ ∀ s, ioqCall τ s → ∃ υ, ioqStep τ s = .ok υ := by
  have hτ : IoqInv τ := by
    refine hrun.invariant ioqueueInit_inv fun σ s τ hσ hok hstep => ?_
    obtain ⟨hnext, hinv⟩ := hσ.step hok
    rw [hstep, Except.ok.injEq] at hnext
    rw [hnext]
    exact hinv
  obtain ⟨h, t, q, hr⟩ := hτ.ring
  exact ⟨hr.right, fun s hok => ⟨_, (hτ.step hok).1⟩⟩

instance (σ : IoqState) : ∀ s, Decidable (ioqCall σ s)
  | .putchar _ _ => inferInstanceAs (Decidable (_ = _))
  | .getchar _ => inferInstanceAs (Decidable (_ = _))
  | .resume _ => inferInstanceAs (Decidable (_ ∈ _))

/-- Two tasks wait for a byte, one in `ioq_wait` and one for the lock, and a third puts one:
the first takes it, and the second waits on. -/
theorem ioqRight_consumers : ∃ τ, Reach ioqStep ioqCall ioqueueInit τ ∧ IoqRight τ ∧
    τ.taken = [7] ∧ τ.waiter .consumer = some 1 := by
  obtain ⟨τ, hrun, hτ⟩ := exists_reach ioqStep ioqCall ioqueueInit
    [.getchar 0, .getchar 1, .putchar 2 7, .resume 0, .resume 1]
    (fun τ => τ.taken = [7] ∧ τ.waiter .consumer = some 1)
    (by decide +kernel) (by decide +kernel)
  exact ⟨τ, hrun, (ioqRight_of_run hrun).1, hτ⟩

end

end OsTruth
