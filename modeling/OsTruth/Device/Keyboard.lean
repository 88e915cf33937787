/-
`intr_keyboard_handler` of `device/keyboard.c`.

A call handles one scan code.  What it puts into `kbd_buf` is returned, and `full` is the answer of
`ioq_full`.  A shift or ctrl flag says whether the last event of either key of the pair was a press.
That is whether one is held, unless one was released while the other stayed down.
-/
import Mathlib.Logic.Function.Basic
import OsTruth.Kernel.Global

namespace OsTruth

/-! ## The handler -/

def ctrlLMake : UInt16 := 0x1d

def ctrlRMake : UInt16 := 0xe01d

def shiftLMake : UInt16 := 0x2a

def shiftRMake : UInt16 := 0x36

def altLMake : UInt16 := 0x38

def altRMake : UInt16 := 0xe038

def capsLockMake : UInt16 := 0x3a

/-- The characters of each key without and with shift. -/
def keymap : List (UInt8 × UInt8) :=
  [(0, 0),
    -- esc and the row of digits, with backspace
    (0x1b, 0x1b), (0x31, 0x21), (0x32, 0x40), (0x33, 0x23), (0x34, 0x24), (0x35, 0x25),
    (0x36, 0x5e), (0x37, 0x26), (0x38, 0x2a), (0x39, 0x28), (0x30, 0x29), (0x2d, 0x5f),
    (0x3d, 0x2b), (0x08, 0x08),
    -- tab, q to p, the square brackets and enter
    (0x09, 0x09), (0x71, 0x51), (0x77, 0x57), (0x65, 0x45), (0x72, 0x52), (0x74, 0x54),
    (0x79, 0x59), (0x75, 0x55), (0x69, 0x49), (0x6f, 0x4f), (0x70, 0x50), (0x5b, 0x7b),
    (0x5d, 0x7d), (0x0d, 0x0d),
    -- left ctrl, a to l, semicolon, quote and grave
    (0, 0), (0x61, 0x41), (0x73, 0x53), (0x64, 0x44), (0x66, 0x46), (0x67, 0x47), (0x68, 0x48),
    (0x6a, 0x4a), (0x6b, 0x4b), (0x6c, 0x4c), (0x3b, 0x3a), (0x27, 0x22), (0x60, 0x7e),
    -- left shift, backslash, z to m, comma, full stop, slash and right shift
    (0, 0), (0x5c, 0x7c), (0x7a, 0x5a), (0x78, 0x58), (0x63, 0x43), (0x76, 0x56), (0x62, 0x42),
    (0x6e, 0x4e), (0x6d, 0x4d), (0x2c, 0x3c), (0x2e, 0x3e), (0x2f, 0x3f), (0, 0),
    -- the star of the keypad, left alt, space and caps lock
    (0x2a, 0x2a), (0, 0), (0x20, 0x20), (0, 0)]

def lowerL : UInt8 := 'l'.toUInt8

def lowerU : UInt8 := 'u'.toUInt8

structure KbdFlags where
  ctrlStatus : Bool
  shiftStatus : Bool
  altStatus : Bool
  capsLockStatus : Bool
  extScancode : Bool
  deriving DecidableEq

/-- The keys for which only shift counts. -/
def shiftOnly (scancode : UInt16) : Bool :=
  scancode < 0x0e || scancode = 0x29 || scancode = 0x1a || scancode = 0x1b || scancode = 0x2b ||
    scancode = 0x27 || scancode = 0x28 || scancode = 0x33 || scancode = 0x34 || scancode = 0x35

def handleBreak (makeCode : UInt16) (f : KbdFlags) : KbdFlags :=
  if makeCode = ctrlLMake ∨ makeCode = ctrlRMake then { f with ctrlStatus := false }
  else if makeCode = shiftLMake ∨ makeCode = shiftRMake then { f with shiftStatus := false }
  else if makeCode = altLMake ∨ makeCode = altRMake then { f with altStatus := false }
  else f

/-- The handler for a make code of a control key. -/
def handleControl (scancode : UInt16) (f : KbdFlags) : KbdFlags :=
  if scancode = ctrlLMake ∨ scancode = ctrlRMake then { f with ctrlStatus := true }
  else if scancode = shiftLMake ∨ scancode = shiftRMake then { f with shiftStatus := true }
  else if scancode = altLMake ∨ scancode = altRMake then { f with altStatus := true }
  else if scancode = capsLockMake then { f with capsLockStatus := !f.capsLockStatus }
  else f

/-- `intr_keyboard_handler` on the scan code that `inb` reads, with the character that it puts into
`kbd_buf`. -/
def intrKeyboardHandler (full : Bool) (code : UInt8) (f : KbdFlags) :
    Except Fault (KbdFlags × Option UInt8) :=
  let scancode := code.toUInt16
  if scancode = 0xe0 then .ok ({ f with extScancode := true }, none)
  else
    let scancode := if f.extScancode then 0xe000 ||| scancode else scancode
    let f := { f with extScancode := false }
    if scancode &&& 0x0080 ≠ 0 then .ok (handleBreak (scancode &&& 0xff7f) f, none)
    else if (0 < scancode ∧ scancode < 0x3b) ∨ scancode = altRMake ∨ scancode = ctrlRMake then
      let shift :=
        if shiftOnly scancode then f.shiftStatus
        else if f.shiftStatus && f.capsLockStatus then false
        else f.shiftStatus || f.capsLockStatus
      -- the high byte is gone from here on
      let scancode := scancode &&& 0x00ff
      match keymap[scancode.toUInt8.toNat]? with
      | none => .error .undefined
      | some entry =>
          let curChar := if shift then entry.2 else entry.1
          if curChar ≠ 0 then
            let curChar :=
              if f.ctrlStatus && curChar = lowerL || f.ctrlStatus && curChar = lowerU then
                curChar - 'a'.toUInt8
              else curChar
            .ok (f, if full then none else some curChar)
          else .ok (handleControl scancode f, none)
    else .ok (f, none)

/-- The handler on one code after another while `kbd_buf` is never full, with what is queued. -/
def handleCodes : List UInt8 → KbdFlags → Except Fault (KbdFlags × List UInt8)
  | [], f => .ok (f, [])
  | code :: codes, f => do
      let (f, queued) ← intrKeyboardHandler false code f
      let (f, rest) ← handleCodes codes f
      .ok (f, queued.toList ++ rest)

/-- The flags before the first interrupt. -/
def kbdInit : KbdFlags := ⟨false, false, false, false, false⟩

/-! ## Keys -/

/-- A key with a make code of one byte, or the right ctrl or alt key. -/
inductive Key
  | plain (make : Nat) (h : 0 < make ∧ make < 0x3b)
  | ctrlR
  | altR
  deriving DecidableEq

inductive KeyEvent
  | press (k : Key)
  | release (k : Key)

namespace Key

def ctrlL : Key := .plain 0x1d (by omega)

def shiftL : Key := .plain 0x2a (by omega)

def shiftR : Key := .plain 0x36 (by omega)

/-- The last byte of the make code, which is the place of the key in `keymap`. -/
def index : Key → Nat
  | plain make _ => make
  | ctrlR => 0x1d
  | altR => 0x38

def makeCodes : Key → List UInt8
  | plain make _ => [UInt8.ofNat make]
  | ctrlR => [0xe0, 0x1d]
  | altR => [0xe0, 0x38]

def breakCodes : Key → List UInt8
  | plain make _ => [UInt8.ofNat make ||| 0x80]
  | ctrlR => [0xe0, 0x9d]
  | altR => [0xe0, 0xb8]

def entry (k : Key) : UInt8 × UInt8 := keymap.getD k.index (0, 0)

def isCtrl (k : Key) : Bool := k.index = 0x1d

def isShift (k : Key) : Bool := k.index = 0x2a || k.index = 0x36

def isAlt (k : Key) : Bool := k.index = 0x38

def isCaps (k : Key) : Bool := k.index = 0x3a

end Key

def KeyEvent.codes : KeyEvent → List UInt8
  | press k => k.makeCodes
  | release k => k.breakCodes

/-! ## What should be queued -/

/-- The keys that are held and the state of caps lock.  `shiftPressed` and `ctrlPressed` say whether
the last event of such a key was a press. -/
structure Keys where
  down : Key → Bool
  caps : Bool
  shiftPressed : Bool
  ctrlPressed : Bool

namespace Keys

def init : Keys := ⟨fun _ => false, false, false, false⟩

def step (h : Keys) : KeyEvent → Keys
  | .press k =>
      { down := Function.update h.down k true
        caps := if k.isCaps then !h.caps else h.caps
        shiftPressed := h.shiftPressed || k.isShift
        ctrlPressed := h.ctrlPressed || k.isCtrl }
  | .release k =>
      { down := Function.update h.down k false
        caps := h.caps
        shiftPressed := h.shiftPressed && !k.isShift
        ctrlPressed := h.ctrlPressed && !k.isCtrl }

def shiftHeld (h : Keys) : Bool := h.down .shiftL || h.down .shiftR

def ctrlHeld (h : Keys) : Bool := h.down .ctrlL || h.down .ctrlR

end Keys

def isLetter (entry : UInt8 × UInt8) : Bool := 'a'.toUInt8 ≤ entry.1 && entry.1 ≤ 'z'.toUInt8

/-- The entry that is selected: for a letter by shift or caps lock, but not both. -/
def selected (entry : UInt8 × UInt8) (shift caps : Bool) : UInt8 :=
  if (if isLetter entry then xor shift caps else shift) then entry.2 else entry.1

/-- The selected entry, with `l` and `u` turned into control characters. -/
def keyChar (entry : UInt8 × UInt8) (shift ctrl caps : Bool) : UInt8 :=
  let c := selected entry shift caps
  if ctrl && (c = lowerL || c = lowerU) then c - 'a'.toUInt8 else c

/-- What an event should queue after those that led to `h`. -/
def Keys.queued (h : Keys) : KeyEvent → List UInt8
  | .press k =>
      if k.entry = (0, 0) then [] else [keyChar k.entry h.shiftHeld h.ctrlHeld h.caps]
  | .release _ => []

def expected : Keys → List KeyEvent → List UInt8
  | _, [] => []
  | h, e :: es => h.queued e ++ expected (h.step e) es

/-- The handler queues what it should for these events. -/
def QueuesRight (events : List KeyEvent) : Prop :=
  ∃ f, handleCodes (events.flatMap KeyEvent.codes) kbdInit = .ok (f, expected .init events)

/-- A key is not pressed after one key of a pair was released while the other stays down, if the
pair matters for it. -/
def Keys.Clear (h : Keys) : KeyEvent → Prop
  | .press k =>
      (k.entry.1 ≠ k.entry.2 → h.shiftPressed = h.shiftHeld) ∧
        (selected k.entry h.shiftHeld h.caps = lowerL ∨
          selected k.entry h.shiftHeld h.caps = lowerU → h.ctrlPressed = h.ctrlHeld)
  | .release _ => True

def AllClear : Keys → List KeyEvent → Prop
  | _, [] => True
  | h, e :: es => h.Clear e ∧ AllClear (h.step e) es

/-! ## One event -/

namespace KbdFlags

def pressed (f : KbdFlags) (k : Key) : KbdFlags :=
  { ctrlStatus := f.ctrlStatus || k.isCtrl
    shiftStatus := f.shiftStatus || k.isShift
    altStatus := f.altStatus || k.isAlt
    capsLockStatus := if k.isCaps then !f.capsLockStatus else f.capsLockStatus
    extScancode := false }

def released (f : KbdFlags) (k : Key) : KbdFlags :=
  { ctrlStatus := f.ctrlStatus && !k.isCtrl
    shiftStatus := f.shiftStatus && !k.isShift
    altStatus := f.altStatus && !k.isAlt
    capsLockStatus := f.capsLockStatus
    extScancode := false }

def queues (f : KbdFlags) (k : Key) : List UInt8 :=
  if k.entry = (0, 0) then []
  else [keyChar k.entry f.shiftStatus f.ctrlStatus f.capsLockStatus]

end KbdFlags

/-- The place that is read for a make code lies in `keymap`. -/
theorem keymap_index {s : UInt16} (h : (0 < s ∧ s < 0x3b) ∨ s = altRMake ∨ s = ctrlRMake) :
    (s &&& 0x00ff).toUInt8.toNat < keymap.length := by
  show _ < 59
  rcases h with ⟨-, h⟩ | h | h
  · have hs : s.toNat < 59 := h
    have hle : s.toNat &&& 255 ≤ s.toNat := Nat.and_le_left
    have h255 : UInt16.toNat 255 = 255 := rfl
    simp only [UInt16.toNat_toUInt8, UInt16.toNat_and, h255]
    omega
  · subst h
    decide
  · subst h
    decide

/-- The handler never reads past `keymap`, whatever arrives. -/
theorem intrKeyboardHandler_ok (full : Bool) (code : UInt8) (f : KbdFlags) :
    ∃ r, intrKeyboardHandler full code f = .ok r := by
  unfold intrKeyboardHandler
  dsimp only
  generalize (if f.extScancode = true then 0xe000 ||| code.toUInt16 else code.toUInt16) = s
  by_cases hext : code.toUInt16 = 0xe0
  · rw [if_pos hext]
    exact ⟨_, rfl⟩
  · rw [if_neg hext]
    by_cases hbreak : s &&& 0x0080 ≠ 0
    · rw [if_pos hbreak]
      exact ⟨_, rfl⟩
    · rw [if_neg hbreak]
      by_cases hmake : (0 < s ∧ s < 0x3b) ∨ s = altRMake ∨ s = ctrlRMake
      · rw [if_pos hmake, List.getElem?_eq_getElem (keymap_index hmake)]
        exact ⟨_, (apply_ite Except.ok _ _ _).symm⟩
      · rw [if_neg hmake]
        exact ⟨_, rfl⟩

/-- The codes of a key with one make code, as the handler tests them. -/
theorem plain_codes : ∀ n < 0x3b,
    let s := (UInt8.ofNat n).toUInt16
    let t := (UInt8.ofNat n ||| 0x80).toUInt16
    (s ≠ 0xe0 ∧ s &&& 0x0080 = 0 ∧ s < 0x3b ∧ s &&& 0x00ff = s ∧ s.toUInt8.toNat = n ∧
      (0 < n → 0 < s)) ∧
    (t ≠ 0xe0 ∧ t &&& 0x0080 ≠ 0 ∧ t &&& 0xff7f = s) := by
  decide +kernel

/-- The places of `keymap`: where only shift counts there is no letter, elsewhere a letter or one
character, and a key without a character is a control key. -/
theorem plain_entries : ∀ n < 0x3b,
    let e := keymap.getD n (0, 0)
    keymap[n]? = some e ∧
    (shiftOnly (UInt8.ofNat n).toUInt16 = true → isLetter e = false) ∧
    (shiftOnly (UInt8.ofNat n).toUInt16 = false → isLetter e = true ∨ e.1 = e.2) ∧
    (e.1 = 0 ∨ e.2 = 0 → e = (0, 0)) ∧
    (e = (0, 0) ↔ n = 0 ∨ n = 0x1d ∨ n = 0x2a ∨ n = 0x36 ∨ n = 0x38 ∨ n = 0x3a) := by
  decide +kernel

/-- The index that the handler computes gives the selected character. -/
theorem selected_handler {n : Nat} (hn : n < 0x3b) (shift caps : Bool) :
    (if (if shiftOnly (UInt8.ofNat n).toUInt16 then shift
        else if shift && caps then false else shift || caps) = true
      then (keymap.getD n (0, 0)).2 else (keymap.getD n (0, 0)).1) =
      selected (keymap.getD n (0, 0)) shift caps := by
  obtain ⟨-, honly, hletter, -, -⟩ := plain_entries n hn
  unfold selected
  cases h : shiftOnly (UInt8.ofNat n).toUInt16 with
  | true =>
    rw [honly h]
    rfl
  | false =>
    rcases hletter h with hl | heq
    · rw [hl]
      cases shift <;> cases caps <;> rfl
    · rw [heq]
      simp

theorem selected_eq_zero {n : Nat} (hn : n < 0x3b) (shift caps : Bool) :
    selected (keymap.getD n (0, 0)) shift caps = 0 ↔ keymap.getD n (0, 0) = (0, 0) := by
  obtain ⟨-, -, -, hzero, -⟩ := plain_entries n hn
  constructor
  · intro h
    apply hzero
    unfold selected at h
    generalize (if isLetter _ = true then shift ^^ caps else shift) = upper at h
    cases upper
    · exact .inl h
    · exact .inr h
  · intro h
    rw [h]
    simp [selected]

theorem code_eq_iff {n : Nat} (hn : n < 0x3b) (c : UInt16) :
    (UInt8.ofNat n).toUInt16 = c ↔ n = c.toNat := by
  rw [← UInt16.toNat_inj, UInt8.toNat_toUInt16, UInt8.toNat_ofNat']
  omega

/-- The control keys among them. -/
theorem handleControl_plain {n : Nat} (hn : 0 < n ∧ n < 0x3b) (f : KbdFlags)
    (h : n = 0x1d ∨ n = 0x2a ∨ n = 0x36 ∨ n = 0x38 ∨ n = 0x3a) :
    handleControl (UInt8.ofNat n).toUInt16 { f with extScancode := false } =
      f.pressed (.plain n hn) := by
  obtain ⟨c, s, a, l, e⟩ := f
  rcases h with rfl | rfl | rfl | rfl | rfl <;>
    simp [handleControl, ctrlLMake, ctrlRMake, shiftLMake, shiftRMake, altLMake, altRMake,
      capsLockMake, KbdFlags.pressed, Key.isCtrl, Key.isShift, Key.isAlt, Key.isCaps, Key.index]

theorem handleBreak_plain {n : Nat} (hn : 0 < n ∧ n < 0x3b) (f : KbdFlags) :
    handleBreak (UInt8.ofNat n).toUInt16 { f with extScancode := false } =
      f.released (.plain n hn) := by
  have hr : n ≠ 0xe01d ∧ n ≠ 0xe038 := by omega
  obtain ⟨c, s, a, l, e⟩ := f
  simp only [handleBreak, code_eq_iff hn.2, KbdFlags.released, Key.isCtrl, Key.isShift, Key.isAlt,
    Key.index]
  show (if n = 0x1d ∨ n = 0xe01d then _ else if n = 0x2a ∨ n = 0x36 then _
    else if n = 0x38 ∨ n = 0xe038 then _ else _) = _
  by_cases h₁ : n = 0x1d
  · simp [h₁]
  · by_cases h₂ : n = 0x2a ∨ n = 0x36
    · rcases h₂ with rfl | rfl <;> simp
    · simp only [not_or] at h₂
      by_cases h₃ : n = 0x38
      · simp [h₃]
      · simp [h₁, h₂, h₃, hr]

/-- A press of a key with one make code. -/
theorem intrKeyboardHandler_make {n : Nat} (hn : 0 < n ∧ n < 0x3b) {f : KbdFlags}
    (hf : f.extScancode = false) :
    intrKeyboardHandler false (UInt8.ofNat n) f =
      .ok (f.pressed (.plain n hn), (f.queues (.plain n hn)).head?) := by
  obtain ⟨⟨h0, hbreak, hlt, hlow, hnat, hpos⟩, -⟩ := plain_codes n hn.2
  obtain ⟨hget, -, -, -, hcontrol⟩ := plain_entries n hn.2
  have hrange : (0 < (UInt8.ofNat n).toUInt16 ∧ (UInt8.ofNat n).toUInt16 < 0x3b) ∨
      (UInt8.ofNat n).toUInt16 = altRMake ∨ (UInt8.ofNat n).toUInt16 = ctrlRMake :=
    .inl ⟨hpos hn.1, hlt⟩
  unfold intrKeyboardHandler
  simp only [hf, Bool.false_eq_true, if_false, if_neg h0, hbreak, ne_eq, not_true_eq_false,
    if_pos hrange, hlow, hnat, hget, selected_handler hn.2, selected_eq_zero hn.2]
  have hentry : Key.entry (.plain n hn) = keymap.getD n (0, 0) := rfl
  by_cases he : keymap.getD n (0, 0) = (0, 0)
  · have hkeys := (hcontrol.mp he).resolve_left (Nat.ne_of_gt hn.1)
    rw [if_neg (not_not_intro he), handleControl_plain hn f hkeys, KbdFlags.queues, hentry,
      if_pos he]
    rfl
  · have hkeys : ¬(n = 0x1d ∨ n = 0x2a ∨ n = 0x36 ∨ n = 0x38 ∨ n = 0x3a) :=
      fun h => he (hcontrol.mpr (.inr h))
    have hpressed : f.pressed (.plain n hn) = { f with extScancode := false } := by
      simp only [not_or] at hkeys
      simp [KbdFlags.pressed, Key.isCtrl, Key.isShift, Key.isAlt, Key.isCaps, Key.index, hkeys]
    rw [if_pos he, hpressed, KbdFlags.queues, hentry, if_neg he]
    simp only [keyChar, Bool.and_or_distrib_left]
    rfl

/-- Its release. -/
theorem intrKeyboardHandler_break {n : Nat} (hn : 0 < n ∧ n < 0x3b) {f : KbdFlags}
    (hf : f.extScancode = false) :
    intrKeyboardHandler false (UInt8.ofNat n ||| 0x80) f =
      .ok (f.released (.plain n hn), none) := by
  obtain ⟨-, h0, hbreak, hmake⟩ := plain_codes n hn.2
  unfold intrKeyboardHandler
  simp only [hf, Bool.false_eq_true, if_false, if_neg h0, if_pos hbreak, hmake]
  rw [handleBreak_plain hn]

theorem handleCodes_cons {c : UInt8} {cs : List UInt8} {f g f₁ : KbdFlags} {o : Option UInt8}
    {q : List UInt8} (hc : intrKeyboardHandler false c f = .ok (g, o))
    (hcs : handleCodes cs g = .ok (f₁, q)) :
    handleCodes (c :: cs) f = .ok (f₁, o.toList ++ q) := by
  rw [handleCodes, hc]
  show (do
    let (f, rest) ← handleCodes cs g
    .ok (f, o.toList ++ rest)) = _
  rw [hcs]
  rfl

theorem handleCodes_one {c : UInt8} {f g : KbdFlags} {o : Option UInt8}
    (hc : intrKeyboardHandler false c f = .ok (g, o)) : handleCodes [c] f = .ok (g, o.toList) := by
  have h : handleCodes [] g = .ok (g, []) := rfl
  rw [handleCodes_cons hc h, List.append_nil]

/-- The right ctrl and alt keys send a code in front. -/
theorem handleCodes_right (f : KbdFlags) (h : f.extScancode = false) :
    ∀ k ∈ [Key.ctrlR, Key.altR],
      handleCodes k.makeCodes f = .ok (f.pressed k, f.queues k) ∧
        handleCodes k.breakCodes f = .ok (f.released k, []) := by
  obtain ⟨c, s, a, l, e⟩ := f
  simp only at h
  subst h
  have hall : ∀ c s a l : Bool, ∀ k ∈ [Key.ctrlR, Key.altR],
      let f : KbdFlags := ⟨c, s, a, l, false⟩
      handleCodes k.makeCodes f = .ok (f.pressed k, f.queues k) ∧
        handleCodes k.breakCodes f = .ok (f.released k, []) := by
    decide +kernel
  exact hall c s a l

theorem queues_head (f : KbdFlags) (k : Key) : (f.queues k).head?.toList = f.queues k := by
  unfold KbdFlags.queues
  split <;> rfl

theorem handleCodes_key (k : Key) (f : KbdFlags) (h : f.extScancode = false) :
    handleCodes k.makeCodes f = .ok (f.pressed k, f.queues k) ∧
      handleCodes k.breakCodes f = .ok (f.released k, []) := by
  cases k with
  | plain n hn =>
    constructor
    · rw [← queues_head]
      exact handleCodes_one (intrKeyboardHandler_make hn h)
    · exact handleCodes_one (intrKeyboardHandler_break hn h)
  | ctrlR => exact handleCodes_right f h _ (by simp)
  | altR => exact handleCodes_right f h _ (by simp)

/-- `keymap` is never read out of bounds, so every code is handled. -/
theorem handleCodes_ok (cs : List UInt8) (f : KbdFlags) : ∃ r, handleCodes cs f = .ok r := by
  induction cs generalizing f with
  | nil => exact ⟨_, rfl⟩
  | cons c cs ih =>
    have ⟨⟨g, o⟩, hc⟩ := intrKeyboardHandler_ok false c f
    have ⟨r, hr⟩ := ih g
    exact ⟨_, handleCodes_cons hc hr⟩

theorem handleCodes_append {cs ds : List UInt8} {f f₁ f₂ : KbdFlags} {q r : List UInt8}
    (h₁ : handleCodes cs f = .ok (f₁, q)) (h₂ : handleCodes ds f₁ = .ok (f₂, r)) :
    handleCodes (cs ++ ds) f = .ok (f₂, q ++ r) := by
  induction cs generalizing f q with
  | nil =>
    cases h₁
    exact h₂
  | cons c cs ih =>
    have ⟨⟨g, o⟩, hc⟩ := intrKeyboardHandler_ok false c f
    have ⟨⟨f', q'⟩, hcs⟩ := handleCodes_ok cs g
    rw [handleCodes_cons hc hcs] at h₁
    cases h₁
    rw [List.append_assoc]
    exact handleCodes_cons hc (ih hcs)

/-! ## A history -/

/-- What the handler queues for an event after those that led to `h`. -/
def Keys.sent (h : Keys) : KeyEvent → List UInt8
  | .press k =>
      if k.entry = (0, 0) then [] else [keyChar k.entry h.shiftPressed h.ctrlPressed h.caps]
  | .release _ => []

def sentAll : Keys → List KeyEvent → List UInt8
  | _, [] => []
  | h, e :: es => h.sent e ++ sentAll (h.step e) es

/-- The flags are those of the history. -/
structure KbdFlags.Tracks (f : KbdFlags) (h : Keys) : Prop where
  ext : f.extScancode = false
  shift : f.shiftStatus = h.shiftPressed
  ctrl : f.ctrlStatus = h.ctrlPressed
  caps : f.capsLockStatus = h.caps

theorem tracks_init : kbdInit.Tracks .init := ⟨rfl, rfl, rfl, rfl⟩

/-- One event keeps the flags in step with the history. -/
theorem handleCodes_event {f : KbdFlags} {h : Keys} (t : f.Tracks h) (e : KeyEvent) :
    ∃ f', handleCodes e.codes f = .ok (f', h.sent e) ∧ f'.Tracks (h.step e) := by
  cases e with
  | press k =>
    have hq : f.queues k = h.sent (.press k) := by
      simp only [KbdFlags.queues, Keys.sent, t.shift, t.ctrl, t.caps]
    have hk := (handleCodes_key k f t.ext).1
    rw [hq] at hk
    exact ⟨_, hk, ⟨rfl, by simp [KbdFlags.pressed, Keys.step, t.shift],
      by simp [KbdFlags.pressed, Keys.step, t.ctrl],
      by simp [KbdFlags.pressed, Keys.step, t.caps]⟩⟩
  | release k =>
    have hk := (handleCodes_key k f t.ext).2
    exact ⟨_, hk, ⟨rfl, by simp [KbdFlags.released, Keys.step, t.shift],
      by simp [KbdFlags.released, Keys.step, t.ctrl], t.caps⟩⟩

/-- So do the events of a run. -/
theorem handleCodes_events {f : KbdFlags} {h : Keys} (t : f.Tracks h) (es : List KeyEvent) :
    ∃ f', handleCodes (es.flatMap KeyEvent.codes) f = .ok (f', sentAll h es) := by
  induction es generalizing f h with
  | nil => exact ⟨f, rfl⟩
  | cons e es ih =>
    have ⟨f₁, h₁, t₁⟩ := handleCodes_event t e
    have ⟨f₂, h₂⟩ := ih t₁
    exact ⟨f₂, handleCodes_append h₁ h₂⟩

/-- Shift changes what an entry gives if its two characters differ. -/
theorem selected_eq_iff (e : UInt8 × UInt8) (s s' l : Bool) :
    selected e s l = selected e s' l ↔ (e.1 ≠ e.2 → s = s') := by
  obtain ⟨a, b⟩ := e
  simp only [selected]
  cases s <;> cases s' <;> cases l <;> by_cases h : isLetter (a, b) <;>
    simp [h, eq_comm (a := a)]

/-- No entry is one of the two control characters, which ctrl makes of `l` and `u`. -/
theorem keymap_plain {e : UInt8 × UInt8} (he : e ∈ keymap) :
    (e.1 ≠ lowerL - 'a'.toUInt8 ∧ e.1 ≠ lowerU - 'a'.toUInt8) ∧
      (e.2 ≠ lowerL - 'a'.toUInt8 ∧ e.2 ≠ lowerU - 'a'.toUInt8) := by
  have h : keymap.all (fun e =>
      decide ((e.1 ≠ lowerL - 'a'.toUInt8 ∧ e.1 ≠ lowerU - 'a'.toUInt8) ∧
        (e.2 ≠ lowerL - 'a'.toUInt8 ∧ e.2 ≠ lowerU - 'a'.toUInt8))) = true := by decide
  exact of_decide_eq_true (List.all_eq_true.mp h e he)

theorem selected_plain {e : UInt8 × UInt8} (he : e ∈ keymap) (s l : Bool) :
    selected e s l ≠ lowerL - 'a'.toUInt8 ∧ selected e s l ≠ lowerU - 'a'.toUInt8 := by
  have hp := keymap_plain he
  unfold selected
  generalize (if isLetter e = true then s ^^ l else s) = shift
  cases shift
  · exact hp.1
  · exact hp.2

/-- What a press gives depends on shift and ctrl in this way. -/
theorem keyChar_eq_iff {e : UInt8 × UInt8} (he : e ∈ keymap) (s s' c c' l : Bool) :
    keyChar e s c l = keyChar e s' c' l ↔
      (e.1 ≠ e.2 → s = s') ∧
        (selected e s' l = lowerL ∨ selected e s' l = lowerU → c = c') := by
  have hx := selected_plain he s l
  have hy := selected_plain he s' l
  have hne : lowerL - 'a'.toUInt8 ≠ lowerU - 'a'.toUInt8 := by decide
  rw [← selected_eq_iff e s s' l]
  simp only [keyChar]
  generalize selected e s l = x at *
  generalize selected e s' l = y at *
  generalize 'a'.toUInt8 = z at *
  cases c <;> cases c' <;> grind

theorem Key.entry_mem (k : Key) : k.entry ∈ keymap := by
  have h : k.index < keymap.length := by
    show _ < 59
    cases k with
    | plain n hn => exact hn.2
    | ctrlR => decide
    | altR => decide
  rw [Key.entry, List.getD_eq_getElem?_getD, List.getElem?_eq_getElem h, Option.getD_some]
  exact List.getElem_mem h

theorem Keys.sent_length (h : Keys) (e : KeyEvent) : (h.sent e).length = (h.queued e).length := by
  cases e with
  | press k =>
    simp only [Keys.sent, Keys.queued]
    split <;> rfl
  | release k => rfl

theorem Keys.sent_eq_iff (h : Keys) (e : KeyEvent) : h.sent e = h.queued e ↔ h.Clear e := by
  cases e with
  | press k =>
    have ht := keyChar_eq_iff k.entry_mem h.shiftPressed h.shiftHeld h.ctrlPressed
      h.ctrlHeld h.caps
    by_cases h0 : k.entry = (0, 0)
    · have hs : selected (0, 0) h.shiftHeld h.caps = 0 := by simp [selected]
      have hl : 0 ≠ lowerL := by decide
      have hu : 0 ≠ lowerU := by decide
      simp [Keys.sent, Keys.queued, Keys.Clear, h0, hs, hl, hu]
    · simp only [Keys.sent, Keys.queued, if_neg h0, Keys.Clear, List.cons.injEq, and_true, ht]
  | release k => simp [Keys.sent, Keys.queued, Keys.Clear]

theorem sentAll_eq_iff (h : Keys) (es : List KeyEvent) :
    sentAll h es = expected h es ↔ AllClear h es := by
  induction es generalizing h with
  | nil => simp [sentAll, expected, AllClear]
  | cons e es ih =>
    simp only [sentAll, expected, AllClear, ← ih, ← h.sent_eq_iff e]
    constructor
    · intro heq
      exact List.append_inj heq (h.sent_length e)
    · intro ⟨h₁, h₂⟩
      rw [h₁, h₂]

/-- What is queued is right if and only if no key is pressed that depends on a pair of which one key
was released last while the other stays down. -/
theorem keyboard_iff (events : List KeyEvent) : QueuesRight events ↔ AllClear .init events := by
  have ⟨f, hf⟩ := handleCodes_events tracks_init events
  rw [← sentAll_eq_iff, QueuesRight, hf]
  simp

/-- With both shift keys down, the release of the right one ends shift although the left one is
still held, so the `A` key gives `a`. -/
theorem keyboard_two_shifts :
    ¬QueuesRight [.press .shiftL, .press .shiftR, .release .shiftR,
      .press (.plain 0x1e (by omega))] := by
  intro ⟨f, hf⟩
  have hq : handleCodes [0x2a, 0x36, 0xb6, 0x1e] kbdInit = .ok (kbdInit, ['a'.toUInt8]) := rfl
  have he : expected .init [.press .shiftL, .press .shiftR, .release .shiftR,
      .press (.plain 0x1e (by omega))] = ['A'.toUInt8] := by decide
  rw [he] at hf
  cases hq.symm.trans hf

end OsTruth
