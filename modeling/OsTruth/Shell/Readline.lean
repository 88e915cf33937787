/-
`readline` of `shell/shell.c`.

The characters that arrive are a list.  `read` on `stdin_no` waits for one and never fails, so a
list that ends without an end of line leaves `readline` waiting.  An address is the distance from
`buf`, which is `cmd_line` in the only call, and the logs keep every store and every value of
`pos`.
-/
import Mathlib.Data.List.GetD
import OsTruth.Fs.Path
import OsTruth.Kernel.Global
import OsTruth.Library.CString

namespace OsTruth

open ByteString

/-! ## The function -/

/-- What goes to the screen. -/
inductive Echo where
  | putchar (c : UInt8)
  | clear
  | printf (format : String) (args : List Str)

/-- The memory around `buf`, the position, the addresses stored to, the values that `pos` took and
what was printed. -/
structure LineState where
  mem : Int → UInt8
  pos : Int
  stores : List Int
  moves : List Int
  out : List Echo

namespace LineState

/-- `*pos = c`. -/
def store (s : LineState) (c : UInt8) : LineState :=
  { s with
    mem := fun a => if a = s.pos then c else s.mem a
    stores := s.stores ++ [s.pos] }

def moveTo (s : LineState) (p : Int) : LineState :=
  { s with
    pos := p
    moves := s.moves ++ [p] }

def echo (s : LineState) (es : List Echo) : LineState := { s with out := s.out ++ es }

/-- The string at `buf`, of which `*pos` is an end. -/
def text (s : LineState) : Str :=
  ((List.range (s.pos.toNat + 1)).map fun (k : Nat) => s.mem k).takeWhile (· ≠ 0)

end LineState

def printPrompt (cwdCache : Str) : Echo := .printf "[tianjiao@localhost %s]$ " [cwdCache]

/-- `'l' - 'a'`. -/
def ctrlLChar : UInt8 := 'l'.toUInt8 - 'a'.toUInt8

/-- `'u' - 'a'`. -/
def ctrlUChar : UInt8 := 'u'.toUInt8 - 'a'.toUInt8

def backspaceChar : UInt8 := 0x08

def newlineChar : UInt8 := 0x0a

def returnChar : UInt8 := 0x0d

/-- `while (buf != pos)`.  Below `buf` the loop would not meet it again. -/
def killLine : Nat → LineState → Except Fault LineState
  | 0, s => if s.pos ≠ 0 then .error .undefined else .ok s
  | left + 1, s =>
      if s.pos ≠ 0 then
        let s := (s.echo [.putchar backspaceChar]).store 0
        killLine left (s.moveTo (s.pos - 1))
      else .ok s

/-- The `switch` of `readline`, which says whether the function returns. -/
def switchKey (cwdCache : Str) (s : LineState) : Except Fault (LineState × Bool) :=
  let c := s.mem s.pos
  if c = ctrlLChar then
    let s := s.store 0
    .ok (s.echo [.clear, printPrompt cwdCache, .printf "%s" [s.text]], false)
  else if c = ctrlUChar then do
    let s ← killLine s.pos.toNat s
    .ok (s, false)
  else if c = newlineChar ∨ c = returnChar then
    .ok ((s.store 0).echo [.putchar newlineChar], true)
  else if c = backspaceChar then
    -- `cmd_line[0]`
    if s.mem 0 ≠ backspaceChar then
      .ok ((s.moveTo (s.pos - 1)).echo [.putchar backspaceChar], false)
    else .ok (s, false)
  else .ok ((s.echo [.putchar c]).moveTo (s.pos + 1), false)

/-- `readline` waits for a key, or has returned and left the keys that came later. -/
inductive Reading where
  | waiting (s : LineState)
  | returned (s : LineState) (rest : List UInt8)

def Reading.state : Reading → LineState
  | waiting s => s
  | returned s _ => s

/-- The loop of `readline`, with the message behind it. -/
def readlineLoop (cwdCache : Str) (count : Int) : List UInt8 → LineState → Except Fault Reading
  | [], s => .ok (.waiting s)
  | key :: keys, s =>
      -- `read` stores the key before `pos` is compared
      let s := s.store key
      if s.pos < count then do
        let (s, done) ← switchKey cwdCache s
        if done then .ok (.returned s keys) else readlineLoop cwdCache count keys s
      else
        .ok (.returned (s.echo [.printf
          "readline: can't find entry_key in the cmd_line, max num of char is 128\n" []]) keys)

/-- `readline` on the memory `mem`. -/
def readline (cwdCache : Str) (count : Int) (keys : List UInt8) (mem : Int → UInt8) :
    Except Fault Reading := do
  assert (0 < count)
  readlineLoop cwdCache count keys ⟨mem, 0, [], [], []⟩

/-! ## The line that is typed -/

abbrev IsEol (key : UInt8) : Prop := key = newlineChar ∨ key = returnChar

/-- One key in an editor that keeps the line as a list. -/
def editKey (line : Str) (key : UInt8) : Str :=
  if key = ctrlLChar then line
  else if key = ctrlUChar then []
  else if key = backspaceChar then line.dropLast
  else line ++ [key]

/-- The line after some keys. -/
def edited (keys : List UInt8) : Str := keys.foldl editKey []

/-- The keys in front of the first end of line. -/
def typed (keys : List UInt8) : List UInt8 := keys.takeWhile fun key => ¬IsEol key

/-- Whenever a key comes before the end of the line, the line from `line` on is shorter than
`count`. -/
def Fits (count : Int) (line : Str) (keys : List UInt8) : Prop :=
  ∀ p key, p ++ [key] <+: keys → (∀ c ∈ p, ¬IsEol c) → ((p.foldl editKey line).length : Int) < count

/-- `readline` stores only inside `buf[0..count)`, and leaves a string there when it returns. -/
def ReadlineSafe (cwdCache : Str) (count : Int) (keys : List UInt8) (mem : Int → UInt8) : Prop :=
  ∃ r, readline cwdCache count keys mem = .ok r ∧
    (∀ a ∈ r.state.stores, 0 ≤ a ∧ a < count) ∧
    ∀ s rest, r = .returned s rest → ∃ k, 0 ≤ k ∧ k < count ∧ s.mem k = 0

/-! ## The editor -/

section

variable {cwdCache line : Str} {count : Int} {key : UInt8} {keys : List UInt8} {s : LineState}

theorem editKey_length_le (line : Str) (key : UInt8) :
    (editKey line key).length ≤ line.length + 1 := by
  unfold editKey
  split
  · omega
  · split
    · simp
    · split
      · rw [List.length_dropLast]
        omega
      · simp

theorem foldl_editKey_length_le (line : Str) (keys : List UInt8) :
    (keys.foldl editKey line).length ≤ line.length + keys.length := by
  induction keys generalizing line with
  | nil => simp
  | cons key keys ih =>
    have hkey := editKey_length_le line key
    have hkeys := ih (editKey line key)
    rw [List.foldl_cons, List.length_cons]
    omega

/-- What holds of the line and of the key holds of the edited line. -/
theorem mem_editKey {c : UInt8} (h : c ∈ editKey line key) : c ∈ line ∨ c = key := by
  unfold editKey at h
  split at h
  · exact .inl h
  · split at h
    · cases h
    · split at h
      · exact .inl (List.dropLast_subset _ h)
      · simpa using h

theorem zero_not_mem_foldl (hline : 0 ∉ line) (hkeys : 0 ∉ keys) :
    0 ∉ keys.foldl editKey line := by
  induction keys generalizing line with
  | nil => exact hline
  | cons key keys ih =>
    simp only [List.mem_cons, not_or] at hkeys
    apply ih _ hkeys.2
    intro hm
    rcases mem_editKey hm with hm | hm
    · exact hline hm
    · exact hkeys.1 hm

theorem typed_cons_eol (h : IsEol key) : typed (key :: keys) = [] := by
  rw [typed, List.takeWhile_cons_of_neg (by rw [decide_eq_true_iff]; exact not_not_intro h)]

theorem typed_cons (h : ¬IsEol key) : typed (key :: keys) = key :: typed keys := by
  rw [typed, List.takeWhile_cons_of_pos (by simpa using h)]
  rfl

theorem fits_nil : Fits count line [] := by
  intro p key hp
  have := hp.length_le
  simp at this

theorem fits_cons : Fits count line (key :: keys) ↔
    (line.length : Int) < count ∧ (¬IsEol key → Fits count (editKey line key) keys) := by
  constructor
  · intro h
    constructor
    · exact h [] key (by simp) (by simp)
    · intro hkey p k hp heol
      apply h (key :: p) k
      · rw [List.cons_append, List.cons_prefix_cons]
        exact ⟨rfl, hp⟩
      · intro c hc
        rcases List.mem_cons.mp hc with rfl | hc
        · exact hkey
        · exact heol c hc
  · intro ⟨hline, h⟩ p k hp heol
    cases p with
    | nil => exact hline
    | cons c p =>
      rw [List.cons_append, List.cons_prefix_cons] at hp
      obtain ⟨rfl, hp⟩ := hp
      apply h (heol c (by simp)) p k hp
      intro d hd
      exact heol d (by simp [hd])

/-! ## One key -/

/-- The line is in the buffer, and everything so far was inside. -/
structure Shows (s : LineState) (count : Int) (line : Str) : Prop where
  pos : s.pos = line.length
  get : ∀ k : Nat, k < line.length → s.mem k = line.getD k 0
  short : (line.length : Int) ≤ count
  plain : backspaceChar ∉ line
  stores : ∀ a ∈ s.stores, 0 ≤ a ∧ a < count
  moves : ∀ a ∈ s.moves, 0 ≤ a

theorem shows_init (hcount : 0 < count) (mem : Int → UInt8) :
    Shows ⟨mem, 0, [], [], []⟩ count [] where
  pos := rfl
  get := by simp
  short := Int.le_of_lt hcount
  plain := by simp
  stores := by simp
  moves := by simp

namespace LineState

/-- The key that was stored is the one that is read. -/
theorem mem_store_pos (s : LineState) (c : UInt8) : (s.store c).mem (s.store c).pos = c :=
  if_pos rfl

theorem stores_store (hs : ∀ a ∈ s.stores, 0 ≤ a ∧ a < count) (hpos : 0 ≤ s.pos ∧ s.pos < count)
    (c : UInt8) : ∀ a ∈ (s.store c).stores, 0 ≤ a ∧ a < count := by
  intro a ha
  rcases List.mem_append.mp ha with ha | ha
  · exact hs a ha
  · rw [List.mem_singleton.mp ha]
    exact hpos

theorem moves_moveTo (hs : ∀ a ∈ s.moves, 0 ≤ a) {p : Int} (hp : 0 ≤ p) :
    ∀ a ∈ (s.moveTo p).moves, 0 ≤ a := by
  intro a ha
  rcases List.mem_append.mp ha with ha | ha
  · exact hs a ha
  · rw [List.mem_singleton.mp ha]
    exact hp

end LineState

/-- The loop for ctrl and u clears what is behind `buf`, down to the second byte. -/
theorem killLine_ok {n : Nat} (hpos : s.pos = n) (hn : (n : Int) < count)
    (hstores : ∀ a ∈ s.stores, 0 ≤ a ∧ a < count) (hmoves : ∀ a ∈ s.moves, 0 ≤ a) :
    ∃ s', killLine n s = .ok s' ∧ s'.pos = 0 ∧ (∀ a ∈ s'.stores, 0 ≤ a ∧ a < count) ∧
      ∀ a ∈ s'.moves, 0 ≤ a := by
  induction n generalizing s with
  | zero => exact ⟨s, if_neg fun h => h hpos, hpos, hstores, hmoves⟩
  | succ n ih =>
    rw [killLine, if_pos (by omega)]
    have hpos' : s.pos - 1 = n := by omega
    apply ih hpos' (by omega)
    · exact LineState.stores_store (s := s.echo [.putchar backspaceChar]) hstores
        ⟨by show 0 ≤ s.pos; omega, by show s.pos < count; omega⟩ 0
    · exact LineState.moves_moveTo hmoves (by show 0 ≤ s.pos - 1; omega)

namespace Shows

/-- A store behind the line. -/
theorem store (h : Shows s count line) (hshort : (line.length : Int) < count) (c : UInt8) :
    Shows (s.store c) count line where
  pos := h.pos
  get := by
    intro k hk
    show (if (k : Int) = s.pos then c else s.mem k) = _
    rw [if_neg (by rw [h.pos]; omega)]
    exact h.get k hk
  short := h.short
  plain := h.plain
  stores := LineState.stores_store h.stores (by rw [h.pos]; omega) c
  moves := h.moves

/-- There is room for the key that is read. -/
theorem pos_lt (h : Shows s count line) (hshort : (line.length : Int) < count) (c : UInt8) :
    (s.store c).pos < count := by
  show s.pos < count
  rw [h.pos]
  exact hshort

theorem echo (h : Shows s count line) (es : List Echo) : Shows (s.echo es) count line :=
  ⟨h.pos, h.get, h.short, h.plain, h.stores, h.moves⟩

theorem dropLast (h : Shows s count line) (hne : line ≠ []) :
    Shows (s.moveTo (s.pos - 1)) count line.dropLast := by
  have hlen : line.dropLast.length + 1 = line.length := by
    have := List.length_pos_iff.mpr hne
    rw [List.length_dropLast]
    omega
  have hpos : s.pos - 1 = line.dropLast.length := by
    rw [h.pos]
    omega
  refine ⟨hpos, ?_, ?_, ?_, h.stores, LineState.moves_moveTo h.moves (by rw [hpos]; omega)⟩
  · intro k hk
    rw [show (s.moveTo (s.pos - 1)).mem k = s.mem k from rfl, h.get k (by omega)]
    simp only [List.getD_eq_getElem?_getD]
    rw [List.getElem?_dropLast, if_pos (by omega)]
  · have := h.short
    omega
  · exact fun hm => h.plain (List.dropLast_subset _ hm)

/-- A character that was stored behind the line joins it. -/
theorem push (h : Shows s count line) (hshort : (line.length : Int) < count) {c : UInt8}
    (hc : s.mem s.pos = c) (hplain : c ≠ backspaceChar) :
    Shows (s.moveTo (s.pos + 1)) count (line ++ [c]) where
  pos := by
    show s.pos + 1 = _
    rw [h.pos]
    simp
  get := by
    intro k hk
    rw [List.length_append, List.length_singleton] at hk
    show s.mem k = _
    rcases Nat.lt_or_ge k line.length with hlt | hge
    · rw [h.get k hlt, List.getD_append _ _ _ _ hlt]
    · obtain rfl : k = line.length := by omega
      rw [← h.pos, hc, List.getD_append_right _ _ _ _ hge]
      simp
  short := by
    rw [List.length_append, List.length_singleton]
    omega
  plain := by simp [h.plain, Ne.symm hplain]
  stores := h.stores
  moves := LineState.moves_moveTo h.moves (by rw [h.pos]; omega)

theorem nil (hcount : 0 ≤ count) (hpos : s.pos = 0) (hstores : ∀ a ∈ s.stores, 0 ≤ a ∧ a < count)
    (hmoves : ∀ a ∈ s.moves, 0 ≤ a) : Shows s count [] where
  pos := hpos
  get := by simp
  short := hcount
  plain := by simp
  stores := hstores
  moves := hmoves

end Shows

/-- One key other than an end of line does to the line what the editor does. -/
theorem switchKey_edit (cwdCache : Str) (h : Shows s count line)
    (hshort : (line.length : Int) < count) (hkey : ¬IsEol key) :
    ∃ s', switchKey cwdCache (s.store key) = .ok (s', false) ∧
      Shows s' count (editKey line key) := by
  have hs := h.store hshort key
  have hc := s.mem_store_pos key
  unfold switchKey editKey
  simp only [hc, if_neg hkey]
  split
  · exact ⟨_, rfl, (hs.store hshort 0).echo _⟩
  · split
    · have hnat : (s.store key).pos = ((s.store key).pos.toNat : Int) := by
        rw [hs.pos, Int.toNat_natCast]
      have hlt : ((s.store key).pos.toNat : Int) < count := by
        rw [← hnat, hs.pos]
        exact hshort
      have ⟨s', hs', hpos, hstores, hmoves⟩ := killLine_ok hnat hlt hs.stores hs.moves
      rw [hs']
      exact ⟨s', rfl, .nil (by omega) hpos hstores hmoves⟩
    · split
      case isTrue hback =>
        -- the guard reads the first byte, which is the key itself when the line is empty
        cases line with
        | nil =>
          have hfirst : (s.store key).mem 0 = backspaceChar := by
            rw [show (s.store key).pos = 0 from hs.pos] at hc
            exact hc.trans hback
          rw [if_neg (not_not_intro hfirst)]
          exact ⟨_, rfl, hs⟩
        | cons c line =>
          have hfirst : (s.store key).mem 0 = c := hs.get 0 (by simp)
          have hne : c ≠ backspaceChar := fun hc' => h.plain (by simp [hc'])
          rw [if_pos (by rw [hfirst]; exact hne)]
          exact ⟨_, rfl, (hs.dropLast (by simp)).echo _⟩
      case isFalse hback => exact ⟨_, rfl, (hs.echo _).push hshort hc hback⟩

/-- An end of line puts the zero behind the line. -/
theorem switchKey_eol (cwdCache : Str) (h : Shows s count line)
    (hshort : (line.length : Int) < count) (hkey : IsEol key) :
    ∃ s', switchKey cwdCache (s.store key) = .ok (s', true) ∧ Shows s' count line ∧
      s'.mem line.length = 0 := by
  have hs := h.store hshort key
  have hc := s.mem_store_pos key
  have hl : key ≠ ctrlLChar := by rcases hkey with rfl | rfl <;> decide
  have hu : key ≠ ctrlUChar := by rcases hkey with rfl | rfl <;> decide
  unfold switchKey
  simp only [hc, if_neg hl, if_neg hu, if_pos hkey]
  refine ⟨_, rfl, (hs.store hshort 0).echo _, ?_⟩
  show (if (line.length : Int) = s.pos then 0 else _) = _
  rw [if_pos h.pos.symm]

end

/-! ## A whole line -/

section

variable {cwdCache line : Str} {count : Int} {keys : List UInt8} {s : LineState}

/-- From a line in the buffer on, `readline` returns at the first end of line with the edited
line. -/
theorem readlineLoop_returns (cwdCache : Str) (h : Shows s count line)
    (hfits : Fits count line keys) (heol : ∃ c ∈ keys, IsEol c) :
    ∃ s' rest, readlineLoop cwdCache count keys s = .ok (.returned s' rest) ∧
      (∃ e, IsEol e ∧ keys = typed keys ++ e :: rest) ∧
      Shows s' count ((typed keys).foldl editKey line) ∧
      s'.mem ((typed keys).foldl editKey line).length = 0 := by
  induction keys generalizing line s with
  | nil => simp at heol
  | cons key keys ih =>
    have ⟨hshort, hrest⟩ := fits_cons.mp hfits
    rw [readlineLoop, if_pos (h.pos_lt hshort key)]
    by_cases hkey : IsEol key
    · have ⟨s', hs', h', hzero⟩ := switchKey_eol cwdCache h hshort hkey
      rw [hs', typed_cons_eol hkey]
      exact ⟨s', keys, rfl, ⟨key, hkey, rfl⟩, h', hzero⟩
    · have ⟨s', hs', h'⟩ := switchKey_edit cwdCache h hshort hkey
      have heol' : ∃ c ∈ keys, IsEol c := by
        have ⟨c, hc, hceol⟩ := heol
        rcases List.mem_cons.mp hc with rfl | hc
        · exact absurd hceol hkey
        · exact ⟨c, hc, hceol⟩
      have ⟨s₂, rest, hrun, ⟨e, he, hkeys⟩, hend⟩ := ih h' (hrest hkey) heol'
      rw [hs', typed_cons hkey]
      refine ⟨s₂, rest, hrun, ⟨e, he, ?_⟩, hend⟩
      rw [List.cons_append, ← hkeys]

/-- The loop stays inside the buffer if and only if the line stays short enough. -/
theorem readlineLoop_safe_iff (h : Shows s count line) :
    (∃ r, readlineLoop cwdCache count keys s = .ok r ∧
      (∀ a ∈ r.state.stores, 0 ≤ a ∧ a < count) ∧
      ∀ s' rest, r = .returned s' rest → ∃ k, 0 ≤ k ∧ k < count ∧ s'.mem k = 0) ↔
    Fits count line keys := by
  induction keys generalizing line s with
  | nil =>
    simp only [fits_nil, iff_true]
    exact ⟨_, rfl, h.stores, by simp⟩
  | cons key keys ih =>
    rw [readlineLoop, fits_cons]
    by_cases hshort : (line.length : Int) < count
    · rw [if_pos (h.pos_lt hshort key)]
      by_cases hkey : IsEol key
      · have ⟨s', hs', h', hzero⟩ := switchKey_eol cwdCache h hshort hkey
        rw [hs']
        simp only [hshort, hkey, not_true_eq_false, false_imp_iff, and_true, iff_true]
        refine ⟨.returned s' keys, rfl, h'.stores, ?_⟩
        intro s₂ rest hr
        cases hr
        exact ⟨line.length, by omega, hshort, hzero⟩
      · have ⟨s', hs', h'⟩ := switchKey_edit cwdCache h hshort hkey
        rw [hs']
        simp only [hshort, hkey, not_false_eq_true, true_imp_iff, true_and]
        exact ih h'
    · -- the key was stored at `buf[count]`
      have hfull : s.pos = count := by
        have := h.short
        rw [h.pos]
        omega
      have hpos : ¬(s.store key).pos < count := by
        show ¬s.pos < count
        omega
      rw [if_neg hpos]
      simp only [hshort, false_and, iff_false]
      intro ⟨r, hr, hstores, _⟩
      cases hr
      have := (hstores s.pos (by simp [Reading.state, LineState.echo, LineState.store])).2
      omega

theorem readline_eq (hcount : 0 < count) (mem : Int → UInt8) :
    readline cwdCache count keys mem = readlineLoop cwdCache count keys ⟨mem, 0, [], [], []⟩ :=
  assert_bind hcount _

theorem prefix_typed {p : List UInt8} (hp : p <+: keys) (heol : ∀ c ∈ p, ¬IsEol c) :
    p <+: typed keys := by
  obtain ⟨t, rfl⟩ := hp
  rw [typed, List.takeWhile_append_of_pos (by simpa using heol)]
  exact List.prefix_append _ _

theorem fits_of_typed (h : ∀ p, p <+: typed keys → ((edited p).length : Int) < count) :
    Fits count [] keys := by
  intro p key hp heol
  exact h p (prefix_typed ((List.prefix_append p [key]).trans hp) heol)

theorem zero_not_mem_edited (h : 0 ∉ keys) : 0 ∉ edited (typed keys) :=
  zero_not_mem_foldl (by simp) fun hm => h (List.takeWhile_subset _ hm)

theorem Shows.strAt (h : Shows s count line) (hzero : 0 ∉ line) (hend : s.mem line.length = 0) :
    StrAt (fun k => s.mem k) 0 line := by
  apply strAt_of_get hzero
  intro k hk
  rw [Nat.zero_add]
  rcases Nat.lt_or_eq_of_le hk with hlt | rfl
  · exact h.get k hlt
  · rw [hend]
    simp

/-- The edited line is at `buf` when `readline` returns. -/
theorem readline_returns (cwdCache : Str) (mem : Int → UInt8) (hzero : 0 ∉ keys)
    (heol : ∃ c ∈ keys, IsEol c)
    (hshort : ∀ p, p <+: typed keys → ((edited p).length : Int) < count) :
    ∃ s rest, readline cwdCache count keys mem = .ok (.returned s rest) ∧
      (∃ e, IsEol e ∧ keys = typed keys ++ e :: rest) ∧
      StrAt (fun k => s.mem k) 0 (edited (typed keys)) ∧ ∀ a ∈ s.moves, 0 ≤ a := by
  have hcount : 0 < count := hshort [] List.nil_prefix
  have ⟨s, rest, hrun, hkeys, h, hend⟩ := readlineLoop_returns cwdCache
    (shows_init hcount mem) (fits_of_typed hshort) heol
  rw [← edited] at h hend
  exact ⟨s, rest, (readline_eq hcount mem).trans hrun, hkeys,
    h.strAt (zero_not_mem_edited hzero) hend, h.moves⟩

end

/-- While the edited line stays shorter than `count`, `readline` returns at the first end of line
with that line at `buf`, and `pos` never went below `buf`. -/
theorem readline_right (cwdCache : Str) (count : Int) (keys : List UInt8) (mem : Int → UInt8)
    (hzero : 0 ∉ keys) (heol : ∃ c ∈ keys, IsEol c)
    (hshort : ∀ p, p <+: typed keys → ((edited p).length : Int) < count) :
    ∃ s rest, readline cwdCache count keys mem = .ok (.returned s rest) ∧
      (∃ e, IsEol e ∧ keys = typed keys ++ e :: rest) ∧
      StrAt (fun k => s.mem k) 0 (edited (typed keys)) ∧ ∀ a ∈ s.moves, 0 ≤ a :=
  readline_returns cwdCache mem hzero heol hshort

/-- A line with a correction. -/
theorem readline_right_ls : ∃ s rest,
    readline [slash] maxPathLen [0x6c, 0x78, 0x08, 0x73, 0x0d] (fun _ => 0) =
        .ok (.returned s rest) ∧
      (∃ e, IsEol e ∧ [0x6c, 0x78, 0x08, 0x73, 0x0d] =
        typed [0x6c, 0x78, 0x08, 0x73, 0x0d] ++ e :: rest) ∧
      StrAt (fun k => s.mem k) 0 [0x6c, 0x73] ∧ ∀ a ∈ s.moves, 0 ≤ a := by
  apply readline_right [slash] maxPathLen [0x6c, 0x78, 0x08, 0x73, 0x0d] (fun _ => 0)
  · decide
  · exact ⟨0x0d, by simp, .inr rfl⟩
  · intro p hp
    have hlen := foldl_editKey_length_le [] p
    have hp : p.length ≤ 4 := hp.length_le
    rw [← edited, List.length_nil] at hlen
    show _ < (512 : Int)
    omega

/-- `readline` is safe if and only if no key comes before the end of the line while the line
already has `count` characters: that key is stored at `buf[count]`. -/
theorem readline_safe_iff (cwdCache : Str) (count : Int) (keys : List UInt8) (mem : Int → UInt8)
    (hcount : 0 < count) :
    ReadlineSafe cwdCache count keys mem ↔ Fits count [] keys := by
  rw [ReadlineSafe, readline_eq hcount]
  exact readlineLoop_safe_iff (shows_init hcount mem)

theorem readline_safe_ls : ReadlineSafe [slash] maxPathLen [0x6c, 0x73, 0x0d] fun _ => 0 := by
  refine (readline_safe_iff _ _ _ _ (by decide)).mpr fun p key hp _ => ?_
  have hlen := foldl_editKey_length_le [] p
  have hp : (p ++ [key]).length ≤ 3 := hp.length_le
  rw [List.length_append, List.length_singleton] at hp
  rw [List.length_nil] at hlen
  show _ < (512 : Int)
  omega

theorem edited_replicate (n : Nat) (line : Str) :
    (List.replicate n 'a'.toUInt8).foldl editKey line = line ++ List.replicate n 'a'.toUInt8 := by
  induction n generalizing line with
  | zero => simp
  | succ n ih =>
    rw [List.replicate_succ, List.foldl_cons, ih]
    show line ++ ['a'.toUInt8] ++ _ = _
    simp

theorem replicate_push (n : Nat) (c : UInt8) :
    List.replicate n c ++ [c] <+: List.replicate (n + 1) c :=
  ⟨[], by rw [List.append_nil, List.replicate_succ']⟩

/-- The key after 512 characters is stored behind `cmd_line`. -/
theorem readline_overflow :
    ¬ReadlineSafe [slash] maxPathLen (List.replicate 513 'a'.toUInt8) (fun _ => 0) := by
  have hcount : (0 : Int) < maxPathLen := by decide
  rw [ReadlineSafe, readline_eq hcount, readlineLoop_safe_iff (shows_init hcount _)]
  intro h
  have hfull := h (List.replicate 512 'a'.toUInt8) 'a'.toUInt8 (replicate_push 512 _) (by
    intro c hc
    rw [List.eq_of_mem_replicate hc]
    decide)
  rw [edited_replicate, List.nil_append, List.length_replicate] at hfull
  exact absurd hfull (by decide)

end OsTruth
