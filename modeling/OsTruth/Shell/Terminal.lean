/-
From the keys to what the shell reads.

The keyboard interrupts any task, and its handler puts a character into `kbd_buf` when there
is room, so it never waits there.  The shell takes the characters out one by one and sleeps
while there is none.  Whatever the order of these steps, the shell reads what the keys queue
as long as no key comes while `kbd_buf` is full.
-/
import OsTruth.Device.IoqueueBlock
import OsTruth.Device.Keyboard
import OsTruth.Shell.Readline

namespace OsTruth

open ByteString Fallible Runs

/-- `kbd_buf` and the flags of its handler, with all codes that the keyboard sent so far. -/
structure Terminal where
  flags : KbdFlags
  kbdBuf : IoqState
  codes : List UInt8

def terminalInit : Terminal := ⟨kbdInit, ioqueueInit, []⟩

/-- A code arrives while task `t` runs, or a task reads a character or goes on with it. -/
inductive TerminalStep
  | code (t : Nat) (code : UInt8)
  | getchar (t : Nat)
  | resume (t : Nat)

/-- `ioq_putchar` on what the handler queues, in the task that it interrupted. -/
def putQueued (t : Nat) (kbdBuf : IoqState) : Option UInt8 → Except Fault IoqState
  | none => .ok kbdBuf
  | some char => ioqStep kbdBuf (.putchar t char)

def terminalStep (σ : Terminal) : TerminalStep → Except Fault Terminal
  | .code t code => do
      let r ← intrKeyboardHandler (ioqFull σ.kbdBuf) code σ.flags
      let kbdBuf ← putQueued t σ.kbdBuf r.2
      .ok ⟨r.1, kbdBuf, σ.codes ++ [code]⟩
  | .getchar t => (ioqStep σ.kbdBuf (.getchar t)).map fun kbdBuf => { σ with kbdBuf := kbdBuf }
  | .resume t => (ioqStep σ.kbdBuf (.resume t)).map fun kbdBuf => { σ with kbdBuf := kbdBuf }

/-- A task that runs is in no call of `kbd_buf`. -/
def terminalCall (σ : Terminal) : TerminalStep → Prop
  | .code t _ | .getchar t => σ.kbdBuf.place t = .outside
  | .resume t => t ∈ σ.kbdBuf.ready

/-- No code comes while `kbd_buf` is full. -/
def terminalPrompt (σ : Terminal) : TerminalStep → Prop
  | .code t _ => σ.kbdBuf.place t = .outside ∧ ioqFull σ.kbdBuf = false
  | .getchar t => σ.kbdBuf.place t = .outside
  | .resume t => t ∈ σ.kbdBuf.ready

instance (σ : Terminal) : ∀ s, Decidable (terminalCall σ s)
  | .code _ _ => inferInstanceAs (Decidable (_ = _))
  | .getchar _ => inferInstanceAs (Decidable (_ = _))
  | .resume _ => inferInstanceAs (Decidable (_ ∈ _))

instance (σ : Terminal) : ∀ s, Decidable (terminalPrompt σ s)
  | .code _ _ => inferInstanceAs (Decidable (_ ∧ _))
  | .getchar _ => inferInstanceAs (Decidable (_ = _))
  | .resume _ => inferInstanceAs (Decidable (_ ∈ _))

section

variable {σ τ : Terminal} {q : IoqState} {t : Nat} {events : List KeyEvent}

/-! ## The handler -/

/-- A full queue changes nothing but what is queued. -/
theorem intrKeyboardHandler_full (full : Bool) (code : UInt8) (f : KbdFlags) :
    intrKeyboardHandler full code f = (intrKeyboardHandler false code f).map fun r =>
      (r.1, if full = true then none else r.2) := by
  have hnone : ∀ f : KbdFlags, (.ok (f, none) : Except Fault (KbdFlags × Option UInt8)) =
      .ok (f, if full = true then none else none) := fun f => by
    rw [ite_self]
  have hchar : ∀ (p : Prop) [Decidable p] (c : UInt8) (f g : KbdFlags),
      (if p then .ok (f, if full = true then none else some c) else .ok (g, none)) =
        ((if p then .ok (f, if false = true then none else some c) else .ok (g, none) :
          Except Fault (KbdFlags × Option UInt8))).map fun r =>
            (r.1, if full = true then none else r.2) := by
    intro p _ c f g
    by_cases hp : p
    · rw [if_pos hp, if_pos hp]
      rfl
    · rw [if_neg hp, if_neg hp]
      exact hnone g
  unfold intrKeyboardHandler
  dsimp only
  generalize (if f.extScancode = true then 0xe000 ||| code.toUInt16 else code.toUInt16) = s
  by_cases hext : code.toUInt16 = 0xe0
  · rw [if_pos hext, if_pos hext]
    exact hnone _
  · rw [if_neg hext, if_neg hext]
    by_cases hbreak : s &&& 0x0080 ≠ 0
    · rw [if_pos hbreak, if_pos hbreak]
      exact hnone _
    · rw [if_neg hbreak, if_neg hbreak]
      by_cases hmake : (0 < s ∧ s < 0x3b) ∨ s = altRMake ∨ s = ctrlRMake
      · rw [if_pos hmake, if_pos hmake, List.getElem?_eq_getElem (keymap_index hmake)]
        exact hchar _ _ _ _
      · rw [if_neg hmake, if_neg hmake]
        exact hnone _

theorem Key.index_lt (k : Key) : k.index < 0x3b := by
  cases k with
  | plain make h => exact h.2
  | ctrlR => decide
  | altR => decide

/-- The character of a key is not 0. -/
theorem zero_not_mem_expected (h : Keys) (events : List KeyEvent) : 0 ∉ expected h events := by
  induction events generalizing h with
  | nil => exact List.not_mem_nil
  | cons e events ih =>
      rw [expected, List.mem_append, not_or]
      refine ⟨?_, ih _⟩
      cases e with
      | release k => exact List.not_mem_nil
      | press k =>
          rw [Keys.queued]
          by_cases hnone : k.entry = (0, 0)
          · rw [if_pos hnone]
            exact List.not_mem_nil
          · rw [if_neg hnone, List.mem_singleton]
            have hne : selected k.entry h.shiftHeld h.caps ≠ 0 := fun hzero =>
              hnone ((selected_eq_zero k.index_lt _ _).mp hzero)
            rw [keyChar]
            generalize selected k.entry h.shiftHeld h.caps = c at hne ⊢
            by_cases hctrl : (h.ctrlHeld && (decide (c = lowerL) || decide (c = lowerU))) = true
            · rw [if_pos hctrl]
              rw [Bool.and_eq_true, Bool.or_eq_true, decide_eq_true_iff,
                decide_eq_true_iff] at hctrl
              rcases hctrl.2 with rfl | rfl <;> decide
            · rw [if_neg hctrl]
              exact hne.symm

/-! ## The queue -/

/-- Who waits is in `ioq_getchar`. -/
def GetOnly (place : Nat → Place) : Prop :=
  ∀ t c, place t = .down c ∨ place t = .wait c → c = .get

theorem GetOnly.update {place : Nat → Place} (h : GetOnly place) (t : Nat) {p : Place}
    (hp : ∀ c, p = .down c ∨ p = .wait c → c = .get) : GetOnly (Function.update place t p) := by
  intro u c hu
  by_cases hut : u = t
  · rw [hut, Function.update_self] at hu
    exact hp c hu
  · rw [Function.update_of_ne hut] at hu
    exact h u c hu

/-- Only readers wait. -/
structure ReadersWait (q : IoqState) : Prop where
  inv : IoqInv q
  get : GetOnly q.place

theorem ioqueueInit_readersWait : ReadersWait ioqueueInit where
  inv := ioqueueInit_inv
  get _ _ h := by rcases h with h | h <;> cases h

theorem notify_bytes (q : IoqState) (side : Side) : (q.notify side).puts = q.puts := by
  unfold IoqState.notify
  cases q.waiter side <;> rfl

theorem await_get (h : GetOnly q.place) (t : Nat) :
    (q.await t .get).puts = q.puts ∧ GetOnly (q.await t .get).place := by
  unfold IoqState.await
  by_cases hholder : q.holder = none
  · rw [if_pos hholder]
    exact ⟨rfl, h.update t fun c hc => by rcases hc with hc | hc <;> cases hc; rfl⟩
  · rw [if_neg hholder]
    exact ⟨rfl, h.update t fun c hc => by rcases hc with hc | hc <;> cases hc; rfl⟩

theorem loop_get (h : GetOnly q.place) (t : Nat) :
    (q.loop t .get).puts = q.puts ∧ GetOnly (q.loop t .get).place := by
  unfold IoqState.loop
  by_cases hstuck : q.stuck IoCall.get.side = true
  · rw [if_pos hstuck]
    exact await_get h t
  · rw [if_neg hstuck]
    refine ⟨notify_bytes q.takeByte .producer, ?_⟩
    show GetOnly (q.takeByte.notify .producer).place
    rw [(notify_fields q.takeByte .producer).1]
    exact h

theorem release_puts (q : IoqState) : q.release.puts = q.puts := by
  unfold IoqState.release
  cases q.waiters <;> rfl

/-- A reader puts nothing. -/
theorem next_reads (h : GetOnly q.place) {s : IoqStep} (hs : ∀ t byte, s ≠ .putchar t byte) :
    (q.next s).puts = q.puts ∧ GetOnly (q.next s).place := by
  cases s with
  | putchar t byte => exact absurd rfl (hs t byte)
  | getchar t => exact loop_get h t
  | resume t =>
      have hresumed : GetOnly (q.resumed t).place :=
        h.update t fun c hc => by rcases hc with hc | hc <;> cases hc
      rw [IoqState.next]
      cases hplace : q.place t with
      | outside => exact ⟨rfl, hresumed⟩
      | down c =>
          obtain rfl := h t c (.inl hplace)
          exact await_get hresumed t
      | wait c =>
          obtain rfl := h t c (.inr hplace)
          have hrelease : GetOnly (q.resumed t).release.place := by
            rw [release_place]
            exact hresumed
          obtain ⟨hputs, hget⟩ := loop_get hrelease t
          exact ⟨hputs.trans (release_puts _), hget⟩

theorem ReadersWait.reads (h : ReadersWait q) {s : IoqStep} (hok : ioqCall q s)
    (hs : ∀ t byte, s ≠ .putchar t byte) :
    ∃ ρ, ioqStep q s = .ok ρ ∧ ReadersWait ρ ∧ ρ.puts = q.puts := by
  obtain ⟨hstep, hinv⟩ := h.inv.step hok
  obtain ⟨hputs, hget⟩ := next_reads h.get hs
  exact ⟨_, hstep, ⟨hinv, hget⟩, hputs⟩

/-- With room in the queue `ioq_putchar` puts the character and does not wait. -/
theorem ReadersWait.puts (h : ReadersWait q) (hplace : q.place t = .outside)
    (hroom : ¬ioqFull q = true) (char : UInt8) :
    ∃ ρ, ioqStep q (.putchar t char) = .ok ρ ∧ ReadersWait ρ ∧ ρ.puts = q.puts ++ [char] ∧
      ρ.place = q.place := by
  obtain ⟨hstep, hinv⟩ := h.inv.step (s := .putchar t char) hplace
  have hnext : q.next (.putchar t char) = (q.putByte char).notify .consumer := if_neg hroom
  have hsame : (q.next (.putchar t char)).place = q.place := by
    rw [hnext]
    exact (notify_fields (q.putByte char) .consumer).1
  have hget : GetOnly (q.next (.putchar t char)).place := by
    rw [hsame]
    exact h.get
  refine ⟨_, hstep, ⟨hinv, hget⟩, ?_, hsame⟩
  rw [hnext]
  exact notify_bytes (q.putByte char) .consumer

theorem ReadersWait.queued (h : ReadersWait q) (hplace : q.place t = .outside)
    (o : Option UInt8) :
    ∃ ρ, putQueued t q (if ioqFull q = true then none else o) = .ok ρ ∧ ReadersWait ρ ∧
      ρ.puts = q.puts ++ (if ioqFull q = true then [] else o.toList) ∧ ρ.place = q.place := by
  by_cases hfull : ioqFull q = true
  · rw [if_pos hfull, if_pos hfull]
    exact ⟨q, rfl, h, (List.append_nil _).symm, rfl⟩
  · rw [if_neg hfull, if_neg hfull]
    cases o with
    | none => exact ⟨q, rfl, h, (List.append_nil _).symm, rfl⟩
    | some char => exact h.puts hplace hfull char

/-! ## Runs -/

/-- What a step does; the handler does not wait. -/
def TerminalWent (σ : Terminal) : TerminalStep → Terminal → Prop
  | .code _ code, τ => ∃ o, intrKeyboardHandler false code σ.flags = .ok (τ.flags, o) ∧
      τ.codes = σ.codes ++ [code] ∧
      τ.kbdBuf.puts = σ.kbdBuf.puts ++ (if ioqFull σ.kbdBuf = true then [] else o.toList) ∧
      τ.kbdBuf.place = σ.kbdBuf.place
  | .getchar _, τ | .resume _, τ => τ.flags = σ.flags ∧ τ.codes = σ.codes ∧
      τ.kbdBuf.puts = σ.kbdBuf.puts

theorem terminalStep_went (h : ReadersWait σ.kbdBuf) {s : TerminalStep} (hok : terminalCall σ s) :
    ∃ τ, terminalStep σ s = .ok τ ∧ ReadersWait τ.kbdBuf ∧ TerminalWent σ s τ := by
  cases s with
  | code t code =>
      obtain ⟨⟨g, o⟩, hhandler⟩ := intrKeyboardHandler_ok false code σ.flags
      obtain ⟨ρ, hput, hρ, hputs, hplace⟩ := h.queued hok o
      refine ⟨⟨g, ρ, σ.codes ++ [code]⟩, ?_, hρ, o, hhandler, rfl, hputs, hplace⟩
      rw [terminalStep, intrKeyboardHandler_full, hhandler]
      show (putQueued t σ.kbdBuf _ >>= _) = _
      rw [hput]
      rfl
  | getchar t =>
      obtain ⟨ρ, hstep, hρ, hputs⟩ := h.reads (s := .getchar t) hok nofun
      refine ⟨{ σ with kbdBuf := ρ }, ?_, hρ, rfl, rfl, hputs⟩
      rw [terminalStep, hstep]
      rfl
  | resume t =>
      obtain ⟨ρ, hstep, hρ, hputs⟩ := h.reads (s := .resume t) hok nofun
      refine ⟨{ σ with kbdBuf := ρ }, ?_, hρ, rfl, rfl, hputs⟩
      rw [terminalStep, hstep]
      rfl

/-- What the handler queued for the codes, and what of it is in `kbd_buf` or taken. -/
theorem TerminalWent.handled {s : TerminalStep} (h : TerminalWent σ s τ) {sent : List UInt8}
    (hsent : handleCodes σ.codes kbdInit = .ok (σ.flags, sent)) :
    ∃ more, handleCodes τ.codes kbdInit = .ok (τ.flags, sent ++ more) ∧
      τ.kbdBuf.puts = σ.kbdBuf.puts ++ (if ioqFull σ.kbdBuf = true then [] else more) := by
  have hquiet : τ.flags = σ.flags ∧ τ.codes = σ.codes ∧ τ.kbdBuf.puts = σ.kbdBuf.puts →
      ∃ more, handleCodes τ.codes kbdInit = .ok (τ.flags, sent ++ more) ∧
        τ.kbdBuf.puts = σ.kbdBuf.puts ++ (if ioqFull σ.kbdBuf = true then [] else more) := by
    rintro ⟨hflags, hcodes, hputs⟩
    refine ⟨[], ?_, ?_⟩
    · rw [hcodes, hflags, List.append_nil]
      exact hsent
    · rw [ite_self, List.append_nil]
      exact hputs
  cases s with
  | code t code =>
      obtain ⟨o, hhandler, hcodes, hputs, -⟩ := h
      refine ⟨o.toList, ?_, hputs⟩
      rw [hcodes]
      exact handleCodes_append hsent (handleCodes_one hhandler)
  | getchar t => exact hquiet h
  | resume t => exact hquiet h

/-- Over every run: in `kbd_buf` only what the handler queued, in this order. -/
theorem handled_of_run (hrun : Reach terminalStep terminalCall terminalInit σ) :
    ReadersWait σ.kbdBuf ∧ ∃ sent, handleCodes σ.codes kbdInit = .ok (σ.flags, sent) ∧
      σ.kbdBuf.puts.Sublist sent := by
  refine hrun.invariant (I := fun σ => ReadersWait σ.kbdBuf ∧
    ∃ sent, handleCodes σ.codes kbdInit = .ok (σ.flags, sent) ∧ σ.kbdBuf.puts.Sublist sent)
    ⟨ioqueueInit_readersWait, [], rfl, .refl _⟩ fun σ s τ hσ hok hstep => ?_
  obtain ⟨hwait, sent, hsent, hsub⟩ := hσ
  obtain ⟨τ', hstep', hwait', hwent⟩ := terminalStep_went hwait hok
  rw [hstep, Except.ok.injEq] at hstep'
  rw [← hstep'] at hwait' hwent
  obtain ⟨more, hmore, hputs⟩ := hwent.handled hsent
  refine ⟨hwait', _, hmore, ?_⟩
  rw [hputs]
  by_cases hfull : ioqFull σ.kbdBuf = true
  · rw [if_pos hfull]
    exact hsub.append (List.nil_sublist more)
  · rw [if_neg hfull]
    exact hsub.append (.refl more)

theorem terminalPrompt_call {s : TerminalStep} (h : terminalPrompt σ s) : terminalCall σ s := by
  cases s with
  | code t code => exact h.1
  | getchar t => exact h
  | resume t => exact h

/-- Nothing is lost while no code comes into a full queue. -/
theorem kept_of_run (hrun : Reach terminalStep terminalPrompt terminalInit σ) :
    ReadersWait σ.kbdBuf ∧ handleCodes σ.codes kbdInit = .ok (σ.flags, σ.kbdBuf.puts) := by
  refine hrun.invariant (I := fun σ => ReadersWait σ.kbdBuf ∧
    handleCodes σ.codes kbdInit = .ok (σ.flags, σ.kbdBuf.puts))
    ⟨ioqueueInit_readersWait, rfl⟩ fun σ s τ hσ hok hstep => ?_
  obtain ⟨hwait, hsent⟩ := hσ
  obtain ⟨τ', hstep', hwait', hwent⟩ := terminalStep_went hwait (terminalPrompt_call hok)
  rw [hstep, Except.ok.injEq] at hstep'
  rw [← hstep'] at hwait' hwent
  refine ⟨hwait', ?_⟩
  cases s with
  | code t code =>
      obtain ⟨more, hmore, hputs⟩ := hwent.handled hsent
      rw [if_neg (by rw [hok.2]; exact Bool.false_ne_true)] at hputs
      rw [hputs]
      exact hmore
  | getchar t =>
      obtain ⟨hflags, hcodes, hputs⟩ := hwent
      rw [hflags, hcodes, hputs]
      exact hsent
  | resume t =>
      obtain ⟨hflags, hcodes, hputs⟩ := hwent
      rw [hflags, hcodes, hputs]
      exact hsent

/-- However codes and readers take turns, no assertion fails, the handler never waits, and what is
read was queued by the handler in this order. -/
theorem terminal_right (hrun : Reach terminalStep terminalCall terminalInit σ) :
    (∃ sent, handleCodes σ.codes kbdInit = .ok (σ.flags, sent) ∧
      σ.kbdBuf.taken.Sublist sent) ∧
    ∀ s, terminalCall σ s → ∃ τ, terminalStep σ s = .ok τ ∧
      ∀ t code, s = .code t code → τ.kbdBuf.place = σ.kbdBuf.place := by
  obtain ⟨hwait, sent, hsent, hsub⟩ := handled_of_run hrun
  obtain ⟨h, t, q, hr⟩ := hwait.inv.ring
  refine ⟨⟨sent, hsent, hr.right.order.sublist.trans hsub⟩, fun s hok => ?_⟩
  obtain ⟨τ, hstep, -, hwent⟩ := terminalStep_went hwait hok
  refine ⟨τ, hstep, fun t code hs => ?_⟩
  rw [hs] at hwent
  obtain ⟨o, -, -, -, hplace⟩ := hwent
  exact hplace

/-- The shell sleeps in `ioq_wait` until a key wakes it. -/
theorem terminal_right_waked : ∃ σ : Terminal, σ.kbdBuf.place 1 = .wait .get ∧
    σ.kbdBuf.ready = [1] ∧ σ.kbdBuf.puts = [0x6c] ∧
    ((∃ sent, handleCodes σ.codes kbdInit = .ok (σ.flags, sent) ∧ σ.kbdBuf.taken.Sublist sent) ∧
      ∀ s, terminalCall σ s → ∃ τ, terminalStep σ s = .ok τ ∧
        ∀ t code, s = .code t code → τ.kbdBuf.place = σ.kbdBuf.place) := by
  obtain ⟨σ, hrun, hplace, hready, hputs⟩ := exists_reach terminalStep terminalCall terminalInit
    [.getchar 1, .code 0 0x26]
    (fun σ => σ.kbdBuf.place 1 = .wait .get ∧ σ.kbdBuf.ready = [1] ∧ σ.kbdBuf.puts = [0x6c])
    (by decide +kernel) (by decide +kernel)
  exact ⟨σ, hplace, hready, hputs, terminal_right hrun⟩

/-- What is read is a first part of what the keys should queue. -/
theorem taken_of_run (hrun : Reach terminalStep terminalPrompt terminalInit σ)
    (hcodes : σ.codes <+: events.flatMap KeyEvent.codes) (hclear : AllClear .init events) :
    σ.kbdBuf.taken <+: expected .init events := by
  obtain ⟨hwait, hsent⟩ := kept_of_run hrun
  obtain ⟨h, t, q, hr⟩ := hwait.inv.ring
  obtain ⟨ds, hds⟩ := hcodes
  -- the events queue what was put and then the rest
  obtain ⟨f, hevents⟩ := handleCodes_events tracks_init events
  obtain ⟨⟨f', more⟩, hmore⟩ := handleCodes_ok ds σ.flags
  rw [← hds, handleCodes_append hsent hmore, (sentAll_eq_iff _ _).mpr hclear] at hevents
  refine ⟨q ++ more, ?_⟩
  rw [← (Prod.mk.inj (Except.ok.inj hevents)).2, hr.puts, List.append_assoc]

end

end OsTruth
