/-
`device/console.c`, run by any number of tasks.

The lock is that of `thread/sync.c`, statement by statement.  `put_char` is two steps, as another
task may run between the reading of the cursor and what the function does with it.  What is on the
screen is then what the strings give one after the other, each of them whole, and each task's
strings are in the order of its calls.  The functions that use `put_str` without the lock, and
`cls_screen` as a system call, do not take part in this.
-/
import OsTruth.Lib.PutInt
import OsTruth.Lib.Print
import OsTruth.Thread.Mutex

namespace OsTruth

open ByteString Runs

/-! ## Functions -/

/-- `put_char` behind the reading of the cursor. -/
def putCharAt (bx : UInt16) (cl : UInt8) : Video Unit :=
  if cl = 0x0d then lineFeed bx
  else if cl = 0x0a then lineFeed bx
  else if cl = 0x08 then backSpace bx
  else putOther bx cl

/-- The calls of `console_put_str`, `console_put_char` and `console_put_int`. -/
inductive ConsoleText
  | str (s : Str)
  | char (charAsci : UInt8)
  | int (buf : Bytes) (num : UInt32)

/-- The bytes that are passed to `put_char`. -/
def ConsoleText.bytes : ConsoleText → Except Fault Str
  | .str s => .ok s
  | .char charAsci => .ok [charAsci]
  | .int buf num => putInt buf num

/-- Where a task is in `console_put_str`: the bytes of the call, and those that are still to be
printed. -/
inductive ConsolePc
  | outside
  | acquire (text : Str)
  | print (text rest : Str)
  | put (text : Str) (bx : UInt16) (cl : UInt8) (rest : Str)
  | release

/-- `started` are the calls in the order of their starts, and `printed` those that are printed. -/
structure ConsoleState where
  consoleLock : LockState
  screen : Screen
  pc : Nat → ConsolePc
  started : List (Nat × Str)
  printed : List (Nat × Str)

def ConsoleState.goto (σ : ConsoleState) (t : Nat) (pc : ConsolePc) : ConsoleState :=
  { σ with pc := fun k => if k = t then pc else σ.pc k }

inductive ConsoleCall
  | call (t : Nat) (text : ConsoleText)
  | go (t : Nat)

/-- The next statement of a task that is in a function. -/
def ConsoleState.go (σ : ConsoleState) (t : Nat) : Except Fault ConsoleState :=
  match σ.pc t with
  | .outside => .error .undefined
  | .acquire text => do
      let l ← lockStep σ.consoleLock (.go t)
      pure ({ σ with consoleLock := l }.goto t
        (if l.phase t = Phase.inside then .print text text else .acquire text))
  | .print text [] => do
      let l ← lockStep σ.consoleLock (.release t)
      pure ({ σ with consoleLock := l, printed := σ.printed ++ [(t, text)] }.goto t .release)
  | .print text (cl :: rest) => do
      let r ← getCursor.run σ.screen
      pure ({ σ with screen := r.2 }.goto t (.put text r.1 cl rest))
  | .put text bx cl rest => do
      let r ← (putCharAt bx cl).run σ.screen
      pure ({ σ with screen := r.2 }.goto t (.print text rest))
  | .release => do
      let l ← lockStep σ.consoleLock (.go t)
      pure ({ σ with consoleLock := l }.goto t
        (if l.phase t = Phase.free then .outside else .release))

def consoleStep (σ : ConsoleState) : ConsoleCall → Except Fault ConsoleState
  | .call t text => do
      let bytes ← text.bytes
      let l ← lockStep σ.consoleLock (.acquire t)
      pure ({ σ with consoleLock := l, started := σ.started ++ [(t, bytes)] }.goto t
        (.acquire bytes))
  | .go t => σ.go t

/-- `console_init`, with the screen `s`. -/
def consoleInit (s : Screen) : ConsoleState := ⟨lockUnused, s, fun _ => .outside, [], []⟩

/-- A task makes one call after another, and a task that is blocked does not run. -/
def consoleCall (σ : ConsoleState) : ConsoleCall → Prop
  | .call t _ => σ.pc t = .outside
  | .go t => σ.pc t ≠ .outside ∧ (σ.consoleLock.thread t).blocked = false

/-! ## What is on the screen -/

/-- The screen `t` shows `bytes`, printed on the screen `s`. -/
def Displays (s : Screen) (bytes : Str) (t : Screen) : Prop :=
  (putChars bytes).run s = .ok ((), t)

/-- The bytes of calls, one after the other. -/
def texts (calls : List (Nat × Str)) : Str := calls.flatMap fun c => c.2

/-- The call that a task has started and not yet printed. -/
def ConsolePc.pending (t : Nat) : ConsolePc → List (Nat × Str)
  | .acquire text => [(t, text)]
  | .print text _ => [(t, text)]
  | .put text _ _ _ => [(t, text)]
  | _ => []

/-- Where a task is with respect to the lock. -/
def ConsolePc.phase : ConsolePc → Phase
  | .outside => .free
  | .acquire _ => .acquiring
  | .print _ _ => .inside
  | .put _ _ _ _ => .inside
  | .release => .releasing

def ofTask (t : Nat) (calls : List (Nat × Str)) : List (Nat × Str) :=
  calls.filter fun c => c.1 = t

structure ConsoleInv (s : Screen) (σ : ConsoleState) : Prop where
  lock : Mutex σ.consoleLock
  phase : ∀ t, σ.consoleLock.phase t = (σ.pc t).phase
  idle : (∀ t, σ.consoleLock.phase t ≠ .inside) → Displays s (texts σ.printed) σ.screen
  print : ∀ t text rest, σ.pc t = .print text rest →
    ∃ pre, text = pre ++ rest ∧ Displays s (texts σ.printed ++ pre) σ.screen
  put : ∀ t text bx cl rest, σ.pc t = .put text bx cl rest →
    ∃ pre r, text = pre ++ cl :: rest ∧ Displays s (texts σ.printed ++ pre) r ∧
      getCursor.run r = .ok (bx, σ.screen)
  calls : ∀ t, ofTask t σ.started = ofTask t σ.printed ++ (σ.pc t).pending t

section

variable {s r u : Screen} {σ τ : ConsoleState} {t : Nat} {a b text rest : Str} {cl : UInt8}
variable {bx : UInt16} {pc : ConsolePc}

theorem putChar_eq (cl : UInt8) : putChar cl = getCursor >>= fun bx => putCharAt bx cl := rfl

theorem putChars_append (a b : Str) : putChars (a ++ b) = putChars a >>= fun _ => putChars b := by
  induction a with
  | nil => rfl
  | cons c a ih =>
      show (putChar c >>= fun _ => putChars (a ++ b)) = (putChar c >>= fun _ => putChars a) >>= _
      rw [ih, bind_assoc]

/-- A byte behind others. -/
theorem Displays.snoc (h : Displays s a r) (hcursor : getCursor.run r = .ok (bx, u)) {v : Screen}
    (hput : (putCharAt bx cl).run u = .ok ((), v)) : Displays s (a ++ [cl]) v := by
  unfold Displays at h ⊢
  rw [putChars_append, StateT.run_bind, h]
  show (putChars [cl]).run r = _
  show (putChar cl >>= fun _ => pure ()).run r = _
  rw [putChar_eq, bind_assoc, StateT.run_bind, hcursor]
  show (putCharAt bx cl >>= fun _ => pure ()).run u = _
  rw [StateT.run_bind, hput]
  rfl

theorem texts_snoc (calls : List (Nat × Str)) (t : Nat) (text : Str) :
    texts (calls ++ [(t, text)]) = texts calls ++ text := by
  simp [texts]

theorem ofTask_snoc (calls : List (Nat × Str)) (t u : Nat) (text : Str) :
    ofTask u (calls ++ [(t, text)]) = ofTask u calls ++ if t = u then [(t, text)] else [] := by
  by_cases h : t = u
  · simp [ofTask, h]
  · simp [ofTask, h]

theorem ConsoleState.goto_pc (σ : ConsoleState) (t u : Nat) (pc : ConsolePc) :
    (σ.goto t pc).pc u = if u = t then pc else σ.pc u :=
  rfl

/-! ## A step -/

/-- Task `t` goes to another place.  Only the task inside changes the screen. -/
theorem ConsoleInv.move (pc : ConsolePc) (h : ConsoleInv s σ) (hpc : τ.pc = (σ.goto t pc).pc)
    (hlock : Mutex τ.consoleLock) (hself : τ.consoleLock.phase t = pc.phase)
    (hother : ∀ u, u ≠ t → τ.consoleLock.phase u = σ.consoleLock.phase u)
    (hinside : σ.consoleLock.phase t = .inside ∨ τ.screen = σ.screen ∧ τ.printed = σ.printed)
    (hidle : (∀ u, τ.consoleLock.phase u ≠ .inside) → Displays s (texts τ.printed) τ.screen)
    (hprint : ∀ text rest, pc = .print text rest →
      ∃ pre, text = pre ++ rest ∧ Displays s (texts τ.printed ++ pre) τ.screen)
    (hput : ∀ text bx cl rest, pc = .put text bx cl rest →
      ∃ pre r, text = pre ++ cl :: rest ∧ Displays s (texts τ.printed ++ pre) r ∧
        getCursor.run r = .ok (bx, τ.screen))
    (hcalls : ofTask t τ.started = ofTask t τ.printed ++ pc.pending t)
    (hothers : ∀ u, u ≠ t → ofTask u τ.started = ofTask u σ.started ∧
      ofTask u τ.printed = ofTask u σ.printed) : ConsoleInv s τ := by
  have hsame : ∀ u, u ≠ t → τ.pc u = σ.pc u := by
    intro u hu
    rw [hpc]
    exact if_neg hu
  have hpct : τ.pc t = pc := by
    rw [hpc]
    exact if_pos rfl
  -- another task that is inside keeps what it has printed
  have hscreen : ∀ u, u ≠ t → (σ.pc u).phase = .inside →
      τ.screen = σ.screen ∧ τ.printed = σ.printed := by
    intro u hu hphase
    rcases hinside with ht | hsame
    · exact absurd (h.lock.one ((h.phase u).trans hphase) ht) hu
    · exact hsame
  constructor
  · exact hlock
  · intro u
    by_cases hu : u = t
    · rw [hu, hpct]
      exact hself
    · rw [hsame u hu, hother u hu]
      exact h.phase u
  · exact hidle
  · intro u text rest hu
    by_cases hut : u = t
    · rw [hut, hpct] at hu
      exact hprint text rest hu
    · rw [hsame u hut] at hu
      obtain ⟨hsc, hpr⟩ := hscreen u hut (by rw [hu]; rfl)
      rw [hsc, hpr]
      exact h.print u text rest hu
  · intro u text bx cl rest hu
    by_cases hut : u = t
    · rw [hut, hpct] at hu
      exact hput text bx cl rest hu
    · rw [hsame u hut] at hu
      obtain ⟨hsc, hpr⟩ := hscreen u hut (by rw [hu]; rfl)
      rw [hsc, hpr]
      exact h.put u text bx cl rest hu
  · intro u
    by_cases hut : u = t
    · rw [hut, hpct]
      exact hcalls
    · rw [hsame u hut, (hothers u hut).1, (hothers u hut).2]
      exact h.calls u

/-- No task is inside when none of the others is and `t` is not. -/
theorem nobody_inside {l : LockState} (ht : σ.consoleLock.phase t ≠ .inside)
    (hother : ∀ u, u ≠ t → l.phase u = σ.consoleLock.phase u)
    (hl : ∀ u, u ≠ t → l.phase u ≠ .inside) : ∀ u, σ.consoleLock.phase u ≠ .inside := by
  intro u
  by_cases hu : u = t
  · rw [hu]
    exact ht
  · rw [← hother u hu]
    exact hl u hu

theorem ConsoleInv.call (h : ConsoleInv s σ) (hpc : σ.pc t = .outside) (text : Str)
    {l : LockState} (hl : lockStep σ.consoleLock (.acquire t) = .ok l) :
    ConsoleInv s ({ σ with consoleLock := l, started := σ.started ++ [(t, text)] }.goto t
      (.acquire text)) := by
  have hphase : σ.consoleLock.phase t = .free := by
    rw [h.phase t, hpc]
    rfl
  obtain ⟨l', hl', hmutex, hself, hother⟩ := h.lock.acquire hphase
  obtain rfl : l = l' := Except.ok.inj (hl.symm.trans hl')
  refine h.move (.acquire text) rfl hmutex hself hother (Or.inr ⟨rfl, rfl⟩) (fun hnobody => ?_)
    (fun _ _ he => by cases he) (fun _ _ _ _ he => by cases he) ?_ (fun u hu => ⟨?_, rfl⟩)
  · exact h.idle (nobody_inside (by rw [hphase]; decide) hother fun u _ => hnobody u)
  · have hold := h.calls t
    rw [hpc] at hold
    show ofTask t (σ.started ++ [(t, text)]) = _
    rw [ofTask_snoc, if_pos rfl, hold]
    exact congrArg (· ++ _) (List.append_nil _)
  · show ofTask u (σ.started ++ [(t, text)]) = _
    rw [ofTask_snoc, if_neg (Ne.symm hu), List.append_nil]

/-- A task that has just got the lock finds what the others printed. -/
theorem ConsoleInv.enter (h : ConsoleInv s σ) (hpc : σ.pc t = .acquire text)
    {l : LockState} (hmutex : Mutex l) (hself : l.phase t = .acquiring ∨ l.phase t = .inside)
    (hother : ∀ u, u ≠ t → l.phase u = σ.consoleLock.phase u) :
    ConsoleInv s ({ σ with consoleLock := l }.goto t
      (if l.phase t = Phase.inside then .print text text else .acquire text)) := by
  have hphase : σ.consoleLock.phase t = .acquiring := by
    rw [h.phase t, hpc]
    rfl
  have hcalls : ofTask t σ.started = ofTask t σ.printed ++ [(t, text)] := by
    have hold := h.calls t
    rw [hpc] at hold
    exact hold
  have hout : σ.consoleLock.phase t ≠ .inside := by
    rw [hphase]
    decide
  rcases hself with hself | hself
  · rw [if_neg (by rw [hself]; decide)]
    refine h.move (.acquire text) rfl hmutex hself hother (Or.inr ⟨rfl, rfl⟩) (fun hnobody => ?_)
      (fun _ _ he => by cases he) (fun _ _ _ _ he => by cases he) hcalls (fun _ _ => ⟨rfl, rfl⟩)
    exact h.idle (nobody_inside hout hother fun u _ => hnobody u)
  · rw [if_pos hself]
    refine h.move (.print text text) rfl hmutex hself hother (Or.inr ⟨rfl, rfl⟩)
      (fun hnobody => absurd hself (hnobody t)) (fun text' rest he => ?_)
      (fun _ _ _ _ he => by cases he) hcalls (fun _ _ => ⟨rfl, rfl⟩)
    cases he
    refine ⟨[], rfl, ?_⟩
    rw [List.append_nil]
    refine h.idle (nobody_inside hout hother fun u hu hin => hu ?_)
    exact hmutex.one hin hself

/-- A task leaves when its bytes are on the screen. -/
theorem ConsoleInv.leave (h : ConsoleInv s σ) (hpc : σ.pc t = .print text []) {l : LockState}
    (hmutex : Mutex l) (hself : l.phase t = .releasing)
    (hother : ∀ u, u ≠ t → l.phase u = σ.consoleLock.phase u) :
    ConsoleInv s ({ σ with consoleLock := l, printed := σ.printed ++ [(t, text)] }.goto t
      .release) := by
  have hphase : σ.consoleLock.phase t = .inside := by
    rw [h.phase t, hpc]
    rfl
  obtain ⟨pre, htext, hshows⟩ := h.print t text [] hpc
  rw [List.append_nil] at htext
  refine h.move .release rfl hmutex hself hother (Or.inl hphase) (fun _ => ?_)
    (fun _ _ he => by cases he) (fun _ _ _ _ he => by cases he) ?_ (fun u hu => ⟨rfl, ?_⟩)
  · show Displays s (texts (σ.printed ++ [(t, text)])) σ.screen
    rw [texts_snoc, htext]
    exact hshows
  · have hold := h.calls t
    rw [hpc] at hold
    show ofTask t σ.started = ofTask t (σ.printed ++ [(t, text)]) ++ []
    rw [ofTask_snoc, if_pos rfl, List.append_nil]
    exact hold
  · show ofTask u (σ.printed ++ [(t, text)]) = _
    rw [ofTask_snoc, if_neg (Ne.symm hu), List.append_nil]

theorem ConsoleInv.exit (h : ConsoleInv s σ) (hpc : σ.pc t = .release) {l : LockState}
    (hmutex : Mutex l) (hself : l.phase t = .releasing ∨ l.phase t = .free)
    (hother : ∀ u, u ≠ t → l.phase u = σ.consoleLock.phase u) :
    ConsoleInv s ({ σ with consoleLock := l }.goto t
      (if l.phase t = Phase.free then .outside else .release)) := by
  have hphase : σ.consoleLock.phase t = .releasing := by
    rw [h.phase t, hpc]
    rfl
  have hcalls : ofTask t σ.started = ofTask t σ.printed ++ [] := by
    have hold := h.calls t
    rw [hpc] at hold
    exact hold
  have hidle : (∀ u, l.phase u ≠ .inside) → Displays s (texts σ.printed) σ.screen := fun hnobody =>
    h.idle (nobody_inside (by rw [hphase]; decide) hother fun u _ => hnobody u)
  rcases hself with hself | hself
  · rw [if_neg (by rw [hself]; decide)]
    exact h.move .release rfl hmutex hself hother (Or.inr ⟨rfl, rfl⟩) hidle
      (fun _ _ he => by cases he) (fun _ _ _ _ he => by cases he) hcalls (fun _ _ => ⟨rfl, rfl⟩)
  · rw [if_pos hself]
    exact h.move .outside rfl hmutex hself hother (Or.inr ⟨rfl, rfl⟩) hidle
      (fun _ _ he => by cases he) (fun _ _ _ _ he => by cases he) hcalls (fun _ _ => ⟨rfl, rfl⟩)

/-- The screen and the task inside. -/
theorem ConsoleInv.inside (pc : ConsolePc) (h : ConsoleInv s σ) (hσ : (σ.pc t).phase = .inside)
    (hpc : pc.phase = .inside) (hpending : pc.pending t = (σ.pc t).pending t)
    (hprint : ∀ text rest, pc = .print text rest →
      ∃ pre, text = pre ++ rest ∧ Displays s (texts σ.printed ++ pre) u)
    (hput : ∀ text bx cl rest, pc = .put text bx cl rest →
      ∃ pre r, text = pre ++ cl :: rest ∧ Displays s (texts σ.printed ++ pre) r ∧
        getCursor.run r = .ok (bx, u)) : ConsoleInv s ({ σ with screen := u }.goto t pc) := by
  have hphase : σ.consoleLock.phase t = .inside := (h.phase t).trans hσ
  refine h.move (τ := { σ with screen := u }.goto t pc) pc rfl h.lock (hphase.trans hpc.symm)
    (fun _ _ => rfl) (Or.inl hphase) (fun hnobody => absurd hphase (hnobody t)) hprint hput ?_
    (fun _ _ => ⟨rfl, rfl⟩)
  rw [hpending]
  exact h.calls t

theorem ConsoleInv.go (h : ConsoleInv s σ) (hblocked : (σ.consoleLock.thread t).blocked = false)
    (hstep : σ.go t = .ok τ) : ConsoleInv s τ := by
  have hphase := h.phase t
  unfold ConsoleState.go at hstep
  cases hpc : σ.pc t with
  | outside =>
      rw [hpc] at hstep
      cases hstep
  | acquire text =>
      rw [hpc] at hphase hstep
      obtain ⟨l, hl, hmutex, hself, -, hother⟩ := h.lock.go (Or.inl hphase) hblocked
      simp only [hl, bind, Except.bind, pure, Except.pure] at hstep
      rw [← Except.ok.inj hstep]
      exact h.enter hpc hmutex (hself hphase) hother
  | print text rest =>
      rw [hpc] at hphase hstep
      cases rest with
      | nil =>
          obtain ⟨l, hl, hmutex, hself, hother⟩ := h.lock.release hphase
          simp only [hl, bind, Except.bind, pure, Except.pure] at hstep
          rw [← Except.ok.inj hstep]
          exact h.leave hpc hmutex hself hother
      | cons cl rest =>
          cases hcursor : getCursor.run σ.screen with
          | error e =>
              simp only [hcursor, bind, Except.bind] at hstep
              cases hstep
          | ok r =>
              simp only [hcursor, bind, Except.bind, pure, Except.pure] at hstep
              rw [← Except.ok.inj hstep]
              obtain ⟨pre, htext, hshows⟩ := h.print t text (cl :: rest) hpc
              refine h.inside _ (by rw [hpc]; rfl) rfl (by rw [hpc]; rfl)
                (fun _ _ he => by cases he) fun text' bx cl' rest' he => ?_
              cases he
              exact ⟨pre, σ.screen, htext, hshows, hcursor⟩
  | put text bx cl rest =>
      rw [hpc] at hphase hstep
      cases hput : (putCharAt bx cl).run σ.screen with
      | error e =>
          simp only [hput, bind, Except.bind] at hstep
          cases hstep
      | ok r =>
          simp only [hput, bind, Except.bind, pure, Except.pure] at hstep
          rw [← Except.ok.inj hstep]
          obtain ⟨pre, r', htext, hshows, hcursor⟩ := h.put t text bx cl rest hpc
          refine h.inside _ (by rw [hpc]; rfl) rfl (by rw [hpc]; rfl)
            (fun text' rest' he => ?_) (fun _ _ _ _ he => by cases he)
          cases he
          refine ⟨pre ++ [cl], ?_, ?_⟩
          · rw [htext, List.append_assoc]
            rfl
          · rw [← List.append_assoc]
            exact hshows.snoc hcursor hput
  | release =>
      rw [hpc] at hphase hstep
      obtain ⟨l, hl, hmutex, -, hself, hother⟩ := h.lock.go (Or.inr hphase) hblocked
      simp only [hl, bind, Except.bind, pure, Except.pure] at hstep
      rw [← Except.ok.inj hstep]
      exact h.exit hpc hmutex (hself hphase) hother

theorem ConsoleInv.step {c : ConsoleCall} (h : ConsoleInv s σ) (hok : consoleCall σ c)
    (hstep : consoleStep σ c = .ok τ) : ConsoleInv s τ := by
  cases c with
  | call t text =>
      unfold consoleStep at hstep
      cases hbytes : text.bytes with
      | error e =>
          simp only [hbytes, bind, Except.bind] at hstep
          cases hstep
      | ok bytes =>
          cases hl : lockStep σ.consoleLock (.acquire t) with
          | error e =>
              simp only [hbytes, hl, bind, Except.bind] at hstep
              cases hstep
          | ok l =>
              simp only [hbytes, hl, bind, Except.bind, pure, Except.pure] at hstep
              rw [← Except.ok.inj hstep]
              exact h.call hok bytes hl
  | go t => exact h.go hok.2 hstep

theorem consoleInit_inv (s : Screen) : ConsoleInv s (consoleInit s) where
  lock := lockUnused_mutex
  phase _ := rfl
  idle _ := rfl
  print _ _ _ he := by cases he
  put _ _ _ _ _ he := by cases he
  calls _ := rfl

/-! ## Runs -/

/-- The strings are on the screen one after the other, in the order in which they were finished, and
the task inside has printed the front of its string.  The strings of a task are printed in the order
of its calls, and all of them but for the one that it is at. -/
structure ConsoleRight (s : Screen) (σ : ConsoleState) : Prop where
  whole : (∀ t, (σ.pc t).phase ≠ .inside) → Displays s (texts σ.printed) σ.screen
  part : ∀ t text rest, σ.pc t = .print text rest →
    ∃ pre, text = pre ++ rest ∧ Displays s (texts σ.printed ++ pre) σ.screen
  alone : ∀ t u, (σ.pc t).phase = .inside → (σ.pc u).phase = .inside → t = u
  order : ∀ t, ofTask t σ.started = ofTask t σ.printed ++ (σ.pc t).pending t

/-- However the tasks take turns, the strings that they print do not mix. -/
theorem console_right (hrun : Reach consoleStep consoleCall (consoleInit s) τ) :
    ConsoleRight s τ := by
  have h : ConsoleInv s τ :=
    hrun.invariant (consoleInit_inv s) fun _ _ _ hinv hok hstep => hinv.step hok hstep
  refine ⟨fun hnobody => h.idle fun t => ?_, h.print, fun t u ht hu => ?_, h.calls⟩
  · rw [h.phase t]
    exact hnobody t
  · exact h.lock.one ((h.phase t).trans ht) ((h.phase u).trans hu)

instance (pc : ConsolePc) : Decidable (pc = .outside) :=
  match pc with
  | .outside => isTrue rfl
  | .acquire _ => isFalse nofun
  | .print _ _ => isFalse nofun
  | .put _ _ _ _ => isFalse nofun
  | .release => isFalse nofun

instance (σ : ConsoleState) : DecidablePred (consoleCall σ)
  | .call _ _ => inferInstanceAs (Decidable (_ = _))
  | .go _ => inferInstanceAs (Decidable (¬_ ∧ _))

/-- Task 1 calls while task 0 prints. -/
theorem console_right_two : ∃ τ, Reach consoleStep consoleCall (consoleInit blankScreen) τ ∧
    ConsoleRight blankScreen τ ∧ τ.printed = [(0, [65, 66])] ∧
      ofTask 1 τ.started = [(1, [67])] := by
  obtain ⟨τ, hrun, hτ⟩ := exists_reach consoleStep consoleCall (consoleInit blankScreen)
    (.call 0 (.str [65, 66]) :: List.replicate 5 (.go 0) ++ [.call 1 (.char 67), .go 1] ++
      List.replicate 6 (.go 0))
    (fun τ => τ.printed = [(0, [65, 66])] ∧ ofTask 1 τ.started = [(1, [67])])
    (by decide +kernel) (by decide +kernel)
  exact ⟨τ, hrun, console_right hrun, hτ⟩

end

end OsTruth
