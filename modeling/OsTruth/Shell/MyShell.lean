/-
A round of `my_shell` of `shell/shell.c` from the first key to the command.

`cmd_line[0]` is tested for an empty line, but a line of blanks has no word either: `argv[0]`
is `NULL` then, and the first `strcmp` asserts that it is not.
-/
import OsTruth.Shell.CmdParse
import OsTruth.Shell.Terminal

namespace OsTruth

open ByteString Fallible Runs Separated

/-! ## Functions -/

inductive Command
  | ls
  | cd
  | pwd
  | ps
  | clear
  | mkdir
  | rmdir
  | rm
  | tianjiao
  | external
  deriving DecidableEq, Repr

def ascii (chars : List Char) : Str := chars.map Char.toUInt8

def commandNames : List (Str × Command) :=
  [(ascii ['l', 's'], .ls), (ascii ['c', 'd'], .cd), (ascii ['p', 'w', 'd'], .pwd),
    (ascii ['p', 's'], .ps), (ascii ['c', 'l', 'e', 'a', 'r'], .clear),
    (ascii ['m', 'k', 'd', 'i', 'r'], .mkdir), (ascii ['r', 'm', 'd', 'i', 'r'], .rmdir),
    (ascii ['r', 'm'], .rm), (ascii ['t', 'i', 'a', 'n', 'j', 'i', 'a', 'o'], .tianjiao)]

/-- `if (!strcmp(name, argv[0]))`, one after the other. -/
def chooseFrom (cmdStr : Buf) (p : Nat) : List (Str × Command) → Except Fault Command
  | [] => .ok .external
  | (name, c) :: rest => do
      let r ← strcmp (strBuf name) 0 cmdStr p
      if r = 0 then .ok c else chooseFrom cmdStr p rest

/-- The branch that is taken.  `strcmp` asserts that its arguments are not `NULL`. -/
def chooseCommand (r : CmdParsed) : Except Fault Command :=
  match r.argv.get 0 with
  | none => .error .assert
  | some p => chooseFrom r.cmdStr p commandNames

def argWord (r : CmdParsed) (i : Nat) : Except Fault Str :=
  match r.argv.get i with
  | none => .error .undefined
  | some p => readStr r.cmdStr r.cmdStr.size p

def argWords (r : CmdParsed) (i : Nat) : Nat → Except Fault (List Str)
  | 0 => .ok []
  | left + 1 => do
      let word ← argWord r i
      let rest ← argWords r (i + 1) left
      .ok (word :: rest)

def cmdLine (s : LineState) : Buf := ⟨maxPathLen, fun k => s.mem k⟩

inductive Round
  | waiting
  | empty
  | tooMany
  | command (c : Command) (args : List Str)
  deriving DecidableEq, Repr

/-- `my_shell` behind `readline`, up to the call of the built-in command. -/
def lineCommand (line : Buf) (argv : Nat → Option Nat) : Except Fault Round := do
  let c ← line.load 0
  if c = 0 then .ok .empty
  else do
    let r ← cmdParse line 0 argv 0x20
    if r.ret = -1 then .ok .tooMany
    else do
      let c ← chooseCommand r
      let args ← argWords r 1 (r.ret - 1).toNat
      .ok (.command c args)

/-- A round of `my_shell` on these keys.  `cmd_line` was cleared. -/
def readCommand (cwdCache : Str) (keys : List UInt8) (argv : Nat → Option Nat) :
    Except Fault Round := do
  match ← readline cwdCache maxPathLen keys fun _ => 0 with
  | .waiting _ => .ok .waiting
  | .returned s _ => lineCommand (cmdLine s) argv

/-! ## What it should do -/

def commandOf (name : Str) : Command :=
  ((commandNames.find? fun e => e.1 = name).map Prod.snd).getD .external

/-- What a line with few enough words comes to. -/
def roundOf (line : Str) : Except Fault Round :=
  if line = [] then .ok .empty
  else
    match words 0x20 line with
    | [] => .error .assert
    | name :: args => .ok (.command (commandOf name) args)

section

variable {b : Buf} {p n : Nat} {s w : Str} {r : CmdParsed} {keys : List UInt8}

/-! ## The command -/

theorem chooseFrom_eq (h : b.Holds p w) {names : List (Str × Command)}
    (hnames : ∀ e ∈ names, 0 ∉ e.1) :
    chooseFrom b p names = .ok (((names.find? fun e => e.1 = w).map Prod.snd).getD .external) := by
  induction names with
  | nil => rfl
  | cons e names ih =>
      obtain ⟨name, c⟩ := e
      obtain ⟨r, hr, hzero⟩ := strcmp_zero (holds_strBuf (hnames _ List.mem_cons_self)) h
      rw [chooseFrom, hr]
      show (if r = 0 then Except.ok c else chooseFrom b p names) = _
      by_cases heq : name = w
      · rw [if_pos (hzero.mpr heq), List.find?_cons_of_pos (by simpa using heq)]
        rfl
      · rw [if_neg (fun h0 => heq (hzero.mp h0)), List.find?_cons_of_neg (by simpa using heq)]
        exact ih fun e he => hnames e (List.mem_cons_of_mem _ he)

theorem argWord_eq {token : UInt8} (h : PointsTo token s p r n w) : argWord r n = .ok w := by
  obtain ⟨k, hget, hholds, -⟩ := h
  rw [argWord, hget]
  exact readStr_eq hholds.str hholds.size (Nat.lt_of_le_of_lt (Nat.le_add_left _ _) hholds.size)

theorem argWords_eq {ws : List Str} {i : Nat}
    (h : ∀ j w, ws[j]? = some w → argWord r (i + j) = .ok w) :
    argWords r i ws.length = .ok ws := by
  induction ws generalizing i with
  | nil => rfl
  | cons w ws ih =>
      have hfirst : argWord r i = .ok w := h 0 w rfl
      have hrest : argWords r (i + 1) ws.length = .ok ws := ih fun j w' hj => by
        rw [Nat.add_assoc, Nat.add_comm 1 j]
        exact h (j + 1) w' hj
      rw [List.length_cons, argWords, hfirst]
      show (argWords r (i + 1) ws.length >>= fun rest => .ok (w :: rest)) = _
      rw [hrest]
      rfl

/-- The command and the words behind it. -/
theorem command_eq {argv : Nat → Option Nat} (h : CmdParseRight b p s argv 0x20)
    (hfew : (words 0x20 s).length ≤ maxArgNr) :
    ∃ r, cmdParse b p argv 0x20 = .ok r ∧ r.ret = (words 0x20 s).length ∧
      (words 0x20 s = [] → chooseCommand r = .error .assert) ∧
      ∀ name args, words 0x20 s = name :: args → chooseCommand r = .ok (commandOf name) ∧
        argWords r 1 args.length = .ok args := by
  obtain ⟨r, hr, -, hright, -⟩ := h
  obtain ⟨hret, hpoints, hnull⟩ := hright hfew
  refine ⟨r, hr, hret, fun hnil => ?_, fun name args hwords => ⟨?_, ?_⟩⟩
  · rw [chooseCommand, hnull 0 (by rw [hnil]; exact Nat.le_refl 0) (by decide)]
  · obtain ⟨k, hget, hholds, -⟩ := hpoints 0 name (by rw [hwords]; rfl)
    rw [chooseCommand, hget]
    exact chooseFrom_eq hholds (by decide)
  · refine argWords_eq fun j w hj => ?_
    refine argWord_eq (hpoints (1 + j) w ?_)
    rw [hwords, Nat.add_comm, List.getElem?_cons_succ]
    exact hj

theorem lineCommand_eq {argv : Nat → Option Nat} (h : b.Holds 0 s)
    (hfew : (words 0x20 s).length ≤ maxArgNr) : lineCommand b argv = roundOf s := by
  obtain ⟨r, hr, hret, hnone, hsome⟩ := command_eq (cmdParse_few (by decide) h hfew) hfew
  rw [lineCommand, h.load, roundOf]
  show (if s.headD 0 = 0 then Except.ok Round.empty else _) = _
  by_cases hline : s = []
  · rw [hline]
    rfl
  · rw [if_neg (h.headD_ne hline), if_neg hline, hr]
    show (if r.ret = -1 then Except.ok Round.tooMany else _) = _
    rw [if_neg (by omega)]
    cases hwords : words 0x20 s with
    | nil =>
        rw [hnone hwords]
        rfl
    | cons name args =>
        obtain ⟨hchoose, hargs⟩ := hsome name args hwords
        have hcount : (r.ret - 1).toNat = args.length := by
          rw [hret, hwords, List.length_cons]
          omega
        rw [hchoose, hcount]
        show (argWords r 1 args.length >>= fun args =>
          Except.ok (Round.command (commandOf name) args)) = _
        rw [hargs]
        rfl

/-- A round comes to the command that the edited line names, with the words behind it, and fails on
a line of blanks. -/
theorem readCommand_eq (cwdCache : Str) (argv : Nat → Option Nat) (hzero : 0 ∉ keys)
    (heol : ∃ c ∈ keys, IsEol c)
    (hshort : ∀ p, p <+: typed keys → ((edited p).length : Int) < maxPathLen)
    (hfew : (words 0x20 (edited (typed keys))).length ≤ maxArgNr) :
    readCommand cwdCache keys argv = roundOf (edited (typed keys)) := by
  obtain ⟨s, rest, hrun, -, hstr, -⟩ := readline_returns cwdCache (fun _ => 0) hzero heol hshort
  have hlen := hshort (typed keys) (List.prefix_refl _)
  have hholds : (cmdLine s).Holds 0 (edited (typed keys)) := ⟨hstr, by
    show 0 + _ < maxPathLen
    omega⟩
  rw [readCommand, hrun]
  exact lineCommand_eq hholds hfew

/-- A line with few enough words makes the shell fail if and only if it is of blanks alone. -/
theorem roundOf_error_iff (line : Str) :
    (∃ e, roundOf line = .error e) ↔ line ≠ [] ∧ ∀ c ∈ line, c = 0x20 := by
  rw [← words_eq_nil_iff, roundOf]
  by_cases hline : line = []
  · rw [if_pos hline]
    constructor
    · rintro ⟨e, he⟩
      cases he
    · exact fun h => absurd hline h.1
  · rw [if_neg hline]
    cases hwords : words 0x20 line with
    | nil => exact ⟨fun _ => ⟨hline, rfl⟩, fun _ => ⟨_, rfl⟩⟩
    | cons name args =>
        constructor
        · rintro ⟨e, he⟩
          cases he
        · exact fun h => absurd h.2 (List.cons_ne_nil _ _)

/-! ## From the keys to the command -/

/-- Up to the end of the line that is typed, the rest does not matter. -/
theorem typed_prefix {keys more : List UInt8} (heol : ∃ c ∈ keys, IsEol c) :
    typed (keys ++ more) = typed keys := by
  induction keys with
  | nil =>
      obtain ⟨c, hc, -⟩ := heol
      exact absurd hc List.not_mem_nil
  | cons key keys ih =>
      rw [List.cons_append]
      by_cases hkey : IsEol key
      · rw [typed_cons_eol hkey, typed_cons_eol hkey]
      · rw [typed_cons hkey, typed_cons hkey, ih]
        obtain ⟨c, hc, hend⟩ := heol
        rcases List.mem_cons.mp hc with rfl | hc
        · exact absurd hend hkey
        · exact ⟨c, hc, hend⟩

/-- The shell comes to the command of the line that is typed, whatever the order in which the codes
arrive and the shell reads. -/
theorem typing_right {σ : Terminal} {events : List KeyEvent} (cwdCache : Str)
    (argv : Nat → Option Nat) (hrun : Reach terminalStep terminalPrompt terminalInit σ)
    (hcodes : σ.codes <+: events.flatMap KeyEvent.codes) (hclear : AllClear .init events)
    (heol : ∃ c ∈ σ.kbdBuf.taken, IsEol c)
    (hshort : ∀ p, p <+: typed (expected .init events) →
      ((edited p).length : Int) < maxPathLen)
    (hfew : (words 0x20 (edited (typed (expected .init events)))).length ≤ maxArgNr) :
    readCommand cwdCache σ.kbdBuf.taken argv =
      roundOf (edited (typed (expected .init events))) := by
  obtain ⟨more, hall⟩ := taken_of_run hrun hcodes hclear
  have hzero : 0 ∉ σ.kbdBuf.taken := fun hmem => by
    have hnot := zero_not_mem_expected .init events
    rw [← hall] at hnot
    exact hnot (List.mem_append_left _ hmem)
  rw [← hall, typed_prefix heol] at hshort hfew ⊢
  exact readCommand_eq cwdCache argv hzero heol hshort hfew

def cdKeys : List KeyEvent :=
  [.press (.plain 0x2e (by omega)), .release (.plain 0x2e (by omega)),
    .press (.plain 0x20 (by omega)), .release (.plain 0x20 (by omega)),
    .press (.plain 0x39 (by omega)), .release (.plain 0x39 (by omega)),
    .press (.plain 0x20 (by omega)), .press (.plain 0x1c (by omega))]

/-- The shell sleeps three times while `cd d` is typed. -/
theorem typing_right_cd : ∃ σ, Reach terminalStep terminalPrompt terminalInit σ ∧
    readCommand [slash] σ.kbdBuf.taken (fun _ => none) = .ok (.command .cd [ascii ['d']]) := by
  obtain ⟨σ, hrun, hcodes, htaken⟩ := exists_reach terminalStep terminalPrompt terminalInit
    [.getchar 1, .code 0 0x2e, .resume 1, .getchar 1, .code 0 0xae, .code 0 0x20, .resume 1,
      .code 0 0xa0, .code 0 0x39, .code 0 0xb9, .code 0 0x20, .getchar 1, .getchar 1, .getchar 1,
      .code 0 0x1c, .resume 1]
    (fun σ => σ.codes = cdKeys.flatMap KeyEvent.codes ∧
      σ.kbdBuf.taken = [0x63, 0x64, 0x20, 0x64, 0x0d])
    (by decide +kernel) (by decide +kernel)
  have htyped : typed (expected .init cdKeys) = [0x63, 0x64, 0x20, 0x64] := by decide
  have hsent : σ.codes <+: cdKeys.flatMap KeyEvent.codes := hcodes ▸ List.prefix_rfl
  have hclear : AllClear .init cdKeys := (sentAll_eq_iff _ _).mp (by decide)
  have hright := typing_right [slash] (fun _ => none) hrun hsent hclear
    ⟨0x0d, by rw [htaken]; decide, .inr rfl⟩ (fun p hp => ?_) (by decide)
  · exact ⟨σ, hrun, hright.trans (by decide)⟩
  · rw [htyped] at hp
    have hlen := foldl_editKey_length_le [] p
    have hp : p.length ≤ 4 := hp.length_le
    rw [← edited, List.length_nil] at hlen
    show _ < (512 : Int)
    omega

end

end OsTruth
