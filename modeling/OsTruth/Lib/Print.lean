/-
`put_char` and `cls_screen` of `lib/kernel/print.S`.

The cursor lives in two registers of the CRT controller.  Video memory is reached through `gs`,
whose segment has 32 KB, and by `rep movsd` through the flat data segment.  A store behind the end
of the segment faults.  `bx` is a 16-bit register, so the backspace at position 0 leaves the
screen.
-/
import OsTruth.Kernel.Global
import OsTruth.Library.ByteString
import OsTruth.Library.Fallible

namespace OsTruth

open ByteString Fallible

/-! ## The machine -/

/-- The CRT controller with its index register, the memory by linear addresses, and the addresses
of the bytes stored so far. -/
structure Screen where
  index : UInt8
  regs : UInt8 → UInt8
  mem : Bytes
  stores : List Nat

abbrev Video := StateT Screen (Except Fault)

def videoBase : Nat := 0xc00b8000

/-- The limit of `SELECTOR_VIDEO`, with a granularity of 4 KB. -/
def videoLimit : Nat := 0x7fff

namespace Screen

def cursor (s : Screen) : Nat := (s.regs 0x0e).toNat * 256 + (s.regs 0x0f).toNat

def poke (s : Screen) (a : Nat) (v : UInt8) : Screen :=
  { s with
    mem := fun b => if b = a then v else s.mem b
    stores := s.stores ++ [a] }

end Screen

/-- `out dx, al` with the port in `dx`. -/
def outPort (dx : UInt16) (al : UInt8) : Video Unit :=
  modify fun s =>
    if dx = 0x03d4 then { s with index := al }
    else if dx = 0x03d5 then { s with regs := fun r => if r = s.index then al else s.regs r }
    else s

/-- `in al, dx` on the data port. -/
def inData : Video UInt8 := do
  let s ← get
  pure (s.regs s.index)

/-- A store through the flat data segment. -/
def storeByte (a : Nat) (v : UInt8) : Video Unit := modify fun s => s.poke a v

/-- `mov byte [gs: off], v`. -/
def movGsByte (off : Nat) (v : UInt8) : Video Unit :=
  if off ≤ videoLimit then storeByte (videoBase + off) v else throw .undefined

/-- `mov word [gs: off], v`. -/
def movGsWord (off : Nat) (v : UInt16) : Video Unit :=
  if off + 1 ≤ videoLimit then do
    storeByte (videoBase + off) v.toUInt8
    storeByte (videoBase + off + 1) (v >>> 8).toUInt8
  else throw .undefined

def movsd (esi edi : Nat) : Video Unit := do
  let s ← get
  storeByte edi (s.mem esi)
  storeByte (edi + 1) (s.mem (esi + 1))
  storeByte (edi + 2) (s.mem (esi + 2))
  storeByte (edi + 3) (s.mem (esi + 3))

def repMovsd : Nat → Nat → Nat → Video Unit
  | 0, _, _ => pure ()
  | ecx + 1, esi, edi => do
      movsd esi edi
      repMovsd ecx (esi + 4) (edi + 4)

/-! ## Functions -/

def clearLoop : Nat → Nat → Video Unit
  | 0, _ => pure ()
  | ecx + 1, ebx => do
      movGsWord ebx 0x0720
      clearLoop ecx (ebx + 2)

/-- The code at the labels `.set_cursor`. -/
def setCursor (bx : UInt16) : Video Unit := do
  outPort 0x03d4 0x0e
  outPort 0x03d5 (bx >>> 8).toUInt8
  outPort 0x03d4 0x0f
  outPort 0x03d5 bx.toUInt8

def getCursor : Video UInt16 := do
  outPort 0x03d4 0x0e
  let ah ← inData
  outPort 0x03d4 0x0f
  let al ← inData
  pure (ah.toUInt16 * 256 + al.toUInt16)

def clsScreen : Video Unit := do
  clearLoop (80 * 25) 0
  setCursor 0

def rollScreen : Video Unit := do
  repMovsd 960 0xc00b80a0 0xc00b8000
  clearLoop 80 3840
  setCursor 1920

/-- `.is_line_feed` and `.is_carriage_return`, which are the same place.  `div si` leaves the column
in `dx`. -/
def lineFeed (bx : UInt16) : Video Unit := do
  let dx := bx % 80
  let bx := bx - dx + 80
  if bx.toInt16 < 2000 then setCursor bx else rollScreen

def backSpace (bx : UInt16) : Video Unit := do
  let bx := (bx - 1) <<< 1
  movGsWord bx.toNat 0x0720
  setCursor (bx >>> 1)

/-- `.put_other`, which goes on with a line feed at the end of the screen. -/
def putOther (bx : UInt16) (cl : UInt8) : Video Unit := do
  let bx := bx <<< 1
  movGsByte bx.toNat cl
  let bx := bx + 1
  movGsByte bx.toNat 0x07
  let bx := (bx + 1) >>> 1
  if bx.toInt16 < 2000 then setCursor bx else lineFeed bx

def putChar (cl : UInt8) : Video Unit := do
  let bx ← getCursor
  if cl = 0x0d then lineFeed bx
  else if cl = 0x0a then lineFeed bx
  else if cl = 0x08 then backSpace bx
  else putOther bx cl

def putChars : List UInt8 → Video Unit
  | [] => pure ()
  | b :: bs => do
      putChar b
      putChars bs

/-! ## The property -/

/-- Every byte stored lies in the first 4000 bytes of video memory. -/
def Screen.Inside (s : Screen) : Prop :=
  ∀ a ∈ s.stores, videoBase ≤ a ∧ a < videoBase + 4000

/-- The cursor is on the screen, and nothing was stored outside. -/
structure ScreenOk (s : Screen) : Prop where
  cursor : s.cursor < 2000
  inside : s.Inside

/-- After each of the bytes, the screen is as it should be. -/
def PrintsInside (s : Screen) (bytes : List UInt8) : Prop :=
  ∀ pre, pre <+: bytes →
    Returns (clsScreen >>= fun _ => putChars pre) s fun _ t => ScreenOk t

/-- The start of the next line, or of the last line. -/
def nextLine (c : Nat) : Nat := if c / 80 * 80 + 80 < 2000 then c / 80 * 80 + 80 else 1920

def nextCursor (c : Nat) (b : UInt8) : Nat :=
  if b = 0x0d ∨ b = 0x0a then nextLine c
  else if b = 0x08 then c - 1
  else if c + 1 < 2000 then c + 1
  else nextLine (c + 1)

/-- No backspace comes while the cursor is at the first place of the screen. -/
def NoBackspaceAtStart : Nat → List UInt8 → Prop
  | _, [] => True
  | c, b :: bs => (b = 0x08 → c ≠ 0) ∧ NoBackspaceAtStart (nextCursor c b) bs

instance decidableNoBackspaceAtStart : ∀ c bytes, Decidable (NoBackspaceAtStart c bytes)
  | _, [] => isTrue True.intro
  | c, b :: bs =>
      have := decidableNoBackspaceAtStart (nextCursor c b) bs
      inferInstanceAs (Decidable (_ ∧ _))

section

variable {s t : Screen} {F : Fault → Prop} {bx : UInt16} {b cl : UInt8} {off n ebx : Nat}

/-! ## The parts of the code -/

def Screen.atCursor (s : Screen) (bx : UInt16) : Screen :=
  { s with
    index := 0x0f
    regs := fun r =>
      if r = 0x0f then bx.toUInt8 else if r = 0x0e then (bx >>> 8).toUInt8 else s.regs r }

theorem wp_setCursor {Q : Unit → Screen → Prop} :
    Wp (setCursor bx) s F Q ↔ Q () (s.atCursor bx) := by
  unfold setCursor outPort
  simp only [Wp.bind, Wp.modify]
  exact Iff.rfl

theorem cursor_atCursor (s : Screen) (bx : UInt16) : (s.atCursor bx).cursor = bx.toNat := by
  have hlt := bx.toNat_lt
  show (bx >>> 8).toUInt8.toNat * 256 + bx.toUInt8.toNat = _
  rw [UInt16.toNat_toUInt8, UInt16.toNat_toUInt8, UInt16.toNat_shiftRight]
  show (bx.toNat >>> 8) % 2 ^ 8 * 256 + bx.toNat % 2 ^ 8 = _
  rw [Nat.shiftRight_eq_div_pow]
  omega

theorem wp_getCursor {Q : UInt16 → Screen → Prop} :
    Wp getCursor s F Q ↔
      Q ((s.regs 0x0e).toUInt16 * 256 + (s.regs 0x0f).toUInt16) { s with index := 0x0f } := by
  unfold getCursor outPort inData
  simp only [Wp.bind, Wp.modify, Wp.get, Wp.pure]
  exact Iff.rfl

theorem toNat_getCursor (s : Screen) :
    ((s.regs 0x0e).toUInt16 * 256 + (s.regs 0x0f).toUInt16).toNat = s.cursor := by
  have hhi := (s.regs 0x0e).toNat_lt
  have hlo := (s.regs 0x0f).toNat_lt
  rw [UInt16.toNat_add, UInt16.toNat_mul, UInt8.toNat_toUInt16, UInt8.toNat_toUInt16]
  show ((s.regs 0x0e).toNat * 256 % 2 ^ 16 + (s.regs 0x0f).toNat) % 2 ^ 16 = _
  unfold Screen.cursor
  omega

/-- The code left the cursor alone and stored on the screen only. -/
structure Draws (s t : Screen) : Prop where
  regs : t.regs = s.regs
  inside : s.Inside → t.Inside

theorem draws_refl (s : Screen) : Draws s s := ⟨rfl, id⟩

theorem Draws.trans {u : Screen} (h : Draws s t) (h' : Draws t u) : Draws s u :=
  ⟨h'.regs.trans h.regs, fun hs => h'.inside (h.inside hs)⟩

theorem draws_poke (s : Screen) (v : UInt8) {a : Nat} (h : videoBase ≤ a)
    (h' : a < videoBase + 4000) : Draws s (s.poke a v) where
  regs := rfl
  inside hs c hc := by
    rcases List.mem_append.mp hc with hc | hc
    · exact hs c hc
    · rw [List.mem_singleton.mp hc]
      exact ⟨h, h'⟩

theorem movGsByte_draws (v : UInt8) (h : off < 4000) :
    Returns (movGsByte off v) s fun _ t => Draws s t := by
  have hlimit : off ≤ videoLimit := by
    show off ≤ 0x7fff
    omega
  unfold movGsByte
  rw [if_pos hlimit]
  exact draws_poke s v (Nat.le_add_right _ _) (by omega)

theorem movGsWord_draws (v : UInt16) (h : off + 1 < 4000) :
    Returns (movGsWord off v) s fun _ t => Draws s t := by
  have hlimit : off + 1 ≤ videoLimit := by
    show off + 1 ≤ 0x7fff
    omega
  unfold movGsWord
  rw [if_pos hlimit, Returns, Wp.bind]
  exact (draws_poke s _ (Nat.le_add_right _ _) (by omega)).trans
    (draws_poke _ _ (by omega) (by omega))

theorem clearLoop_draws (h : ebx + 2 * n ≤ 4000) :
    Returns (clearLoop n ebx) s fun _ t => Draws s t := by
  induction n generalizing ebx s with
  | zero => exact draws_refl s
  | succ n ih =>
      unfold clearLoop
      rw [Returns, Wp.bind]
      refine (movGsWord_draws 0x0720 (by omega)).call fun _ t ht => ?_
      exact (ih (by omega)).call fun _ u hu => ht.trans hu

theorem movsd_draws {esi edi : Nat} (h : videoBase ≤ edi) (h' : edi + 4 ≤ videoBase + 4000) :
    Returns (movsd esi edi) s fun _ t => Draws s t := by
  unfold movsd
  simp only [Returns, Wp.bind, Wp.get, storeByte, Wp.modify]
  exact (((draws_poke s _ h (by omega)).trans (draws_poke _ _ (by omega) (by omega))).trans
    (draws_poke _ _ (by omega) (by omega))).trans (draws_poke _ _ (by omega) (by omega))

theorem repMovsd_draws {esi edi : Nat} (h : videoBase ≤ edi)
    (h' : edi + 4 * n ≤ videoBase + 4000) :
    Returns (repMovsd n esi edi) s fun _ t => Draws s t := by
  induction n generalizing esi edi s with
  | zero => exact draws_refl s
  | succ n ih =>
      unfold repMovsd
      rw [Returns, Wp.bind]
      refine (movsd_draws h (by omega)).call fun _ t ht => ?_
      exact (ih (by omega) (by omega)).call fun _ u hu => ht.trans hu

/-! ## One character -/

/-- A word below 2000 is below it as a signed number too. -/
theorem int16_lt (bx : UInt16) (h : bx.toNat < 2 ^ 15) : bx.toInt16 < 2000 ↔ bx.toNat < 2000 := by
  have hint : bx.toInt16.toInt = bx.toNat := by
    show bx.toBitVec.toInt = _
    rw [BitVec.toInt_eq_toNat_of_lt]
    · rfl
    · show 2 * bx.toNat < 2 ^ 16
      omega
  have h2000 : (2000 : Int16).toInt = 2000 := rfl
  rw [Int16.lt_iff_toInt_lt, hint, h2000]
  omega

theorem rollScreen_returns (h : s.Inside) :
    Returns rollScreen s fun _ t => t.Inside ∧ t.cursor = 1920 := by
  unfold rollScreen
  -- with the numbers of rounds the loops would be evaluated
  generalize hmoves : 960 = moves
  generalize hcells : 80 = cells
  rw [Returns, Wp.bind]
  refine (repMovsd_draws (Nat.le_refl _) (by omega)).call fun _ t ht => ?_
  rw [Wp.bind]
  refine (clearLoop_draws (by omega)).call fun _ u hu => ?_
  rw [wp_setCursor]
  exact ⟨hu.inside (ht.inside h), cursor_atCursor u 1920⟩

-- its loops are long, and what is needed of it is stated above
attribute [irreducible] rollScreen

theorem lineFeed_returns (h : s.Inside) (hbx : bx.toNat ≤ 2000) :
    Returns (lineFeed bx) s fun _ t => t.Inside ∧ t.cursor = nextLine bx.toNat := by
  have hmod : (bx % 80).toNat = bx.toNat % 80 := by
    rw [UInt16.toNat_mod]
    rfl
  have hnext : (bx - bx % 80 + 80).toNat = bx.toNat / 80 * 80 + 80 := by
    rw [UInt16.toNat_add, UInt16.toNat_sub, hmod]
    show ((2 ^ 16 - bx.toNat % 80 + bx.toNat) % 2 ^ 16 + 80) % 2 ^ 16 = _
    omega
  have hlt := int16_lt (bx - bx % 80 + 80) (by omega)
  unfold lineFeed nextLine
  rw [Returns, Wp.ite, hlt, hnext, wp_setCursor]
  constructor
  · intro hline
    rw [if_pos hline]
    exact ⟨h, (cursor_atCursor s _).trans hnext⟩
  · intro hline
    rw [if_neg hline]
    exact rollScreen_returns h

/-- Twice the position is the place of its character. -/
theorem toNat_shl (h : bx.toNat < 2 ^ 15) : (bx <<< 1).toNat = 2 * bx.toNat := by
  have h1 : (1 : UInt16).toNat % 16 = 1 := rfl
  rw [UInt16.toNat_shiftLeft, h1, Nat.shiftLeft_eq]
  omega

theorem toNat_shr (bx : UInt16) : (bx >>> 1).toNat = bx.toNat / 2 := by
  have h1 : (1 : UInt16).toNat % 16 = 1 := rfl
  rw [UInt16.toNat_shiftRight, h1, Nat.shiftRight_eq_div_pow]

theorem backSpace_returns (h : s.Inside) (hbx : bx.toNat < 2000) (hpos : bx.toNat ≠ 0) :
    Returns (backSpace bx) s fun _ t => t.Inside ∧ t.cursor = bx.toNat - 1 := by
  have hdec : (bx - 1).toNat = bx.toNat - 1 := by
    rw [UInt16.toNat_sub]
    show (2 ^ 16 - 1 + bx.toNat) % 2 ^ 16 = _
    omega
  have hshl : ((bx - 1) <<< 1).toNat = 2 * (bx.toNat - 1) := by
    rw [toNat_shl (by omega), hdec]
  unfold backSpace
  rw [Returns, Wp.bind]
  refine (movGsWord_draws 0x0720 (by omega)).call fun _ t ht => ?_
  rw [wp_setCursor]
  refine ⟨ht.inside h, ?_⟩
  rw [cursor_atCursor, toNat_shr, hshl]
  omega

/-- The backspace in front of the screen stores behind the end of the segment. -/
theorem backSpace_fails (Q : Unit → Screen → Prop) : ¬Returns (backSpace 0) s Q :=
  fun h => h

theorem putOther_returns (cl : UInt8) (h : s.Inside) (hbx : bx.toNat < 2000) :
    Returns (putOther bx cl) s fun _ t => t.Inside ∧
      t.cursor = if bx.toNat + 1 < 2000 then bx.toNat + 1 else nextLine (bx.toNat + 1) := by
  have h1 : (1 : UInt16).toNat = 1 := rfl
  have hshl : (bx <<< 1).toNat = 2 * bx.toNat := toNat_shl (by omega)
  have hinc : (bx <<< 1 + 1).toNat = 2 * bx.toNat + 1 := by
    rw [UInt16.toNat_add, hshl, h1]
    omega
  have hnext : ((bx <<< 1 + 1 + 1) >>> 1).toNat = bx.toNat + 1 := by
    rw [toNat_shr, UInt16.toNat_add, hinc, h1]
    omega
  have hlt := int16_lt ((bx <<< 1 + 1 + 1) >>> 1) (by omega)
  unfold putOther
  rw [Returns, Wp.bind]
  refine (movGsByte_draws cl (by omega)).call fun _ t ht => ?_
  rw [Wp.bind]
  refine (movGsByte_draws 0x07 (by omega)).call fun _ u hu => ?_
  have hin : u.Inside := hu.inside (ht.inside h)
  rw [Wp.ite, hlt, hnext, wp_setCursor]
  constructor
  · intro hrow
    rw [if_pos hrow]
    exact ⟨hin, (cursor_atCursor u _).trans hnext⟩
  · intro hrow
    have hline : Returns (lineFeed ((bx <<< 1 + 1 + 1) >>> 1)) u _ :=
      lineFeed_returns hin (by omega)
    rw [hnext] at hline
    rw [if_neg hrow]
    exact hline

theorem nextLine_lt (c : Nat) : nextLine c < 2000 := by
  unfold nextLine
  split
  · omega
  · omega

theorem nextCursor_lt {c : Nat} (b : UInt8) (h : c < 2000) : nextCursor c b < 2000 := by
  have hline := nextLine_lt
  unfold nextCursor
  split
  · exact hline c
  · split
    · omega
    · split
      · omega
      · exact hline (c + 1)

/-- A character that is not a backspace at the start keeps everything on the screen. -/
theorem putChar_ok (h : ScreenOk s) (hb : b = 0x08 → s.cursor ≠ 0) :
    Returns (putChar b) s fun _ t => ScreenOk t ∧ t.cursor = nextCursor s.cursor b := by
  have hbx := toNat_getCursor s
  have hlt := h.cursor
  have hnext := nextCursor_lt b h.cursor
  have hin : ({ s with index := 0x0f } : Screen).Inside := h.inside
  unfold putChar
  rw [Returns, Wp.bind, wp_getCursor]
  generalize (s.regs 0x0e).toUInt16 * 256 + (s.regs 0x0f).toUInt16 = bx at hbx ⊢
  rw [← hbx] at hlt hb hnext ⊢
  unfold nextCursor at hnext ⊢
  simp only [Wp.ite]
  refine ⟨fun hcr => ?_, fun hcr => ⟨fun hlf => ?_, fun hlf => ⟨fun hbs => ?_, fun hbs => ?_⟩⟩⟩
  · rw [if_pos (Or.inl hcr)] at hnext ⊢
    exact (lineFeed_returns hin (by omega)).call fun _ t ht => ⟨⟨by omega, ht.1⟩, ht.2⟩
  · rw [if_pos (Or.inr hlf)] at hnext ⊢
    exact (lineFeed_returns hin (by omega)).call fun _ t ht => ⟨⟨by omega, ht.1⟩, ht.2⟩
  · have hline : ¬(b = 0x0d ∨ b = 0x0a) := fun h => h.elim hcr hlf
    rw [if_neg hline, if_pos hbs] at hnext ⊢
    exact (backSpace_returns hin hlt (hb hbs)).call fun _ t ht => ⟨⟨by omega, ht.1⟩, ht.2⟩
  · have hline : ¬(b = 0x0d ∨ b = 0x0a) := fun h => h.elim hcr hlf
    rw [if_neg hline, if_neg hbs] at hnext ⊢
    exact (putOther_returns b hin hlt).call fun _ t ht =>
      ⟨⟨by rw [ht.2]; exact hnext, ht.1⟩, ht.2⟩

/-- The backspace at the start does not return. -/
theorem putChar_fails (h : s.cursor = 0) (Q : Unit → Screen → Prop) :
    ¬Returns (putChar 0x08) s Q := by
  have hbx := toNat_getCursor s
  unfold putChar
  rw [Returns, Wp.bind, wp_getCursor]
  generalize (s.regs 0x0e).toUInt16 * 256 + (s.regs 0x0f).toUInt16 = bx at hbx ⊢
  have hzero : bx = 0 := UInt16.toNat_inj.mp (hbx.trans h)
  rw [hzero]
  exact backSpace_fails Q

/-! ## Runs -/

theorem putChars_iff (bytes : List UInt8) (h : ScreenOk s) :
    Returns (putChars bytes) s (fun _ t => ScreenOk t) ↔ NoBackspaceAtStart s.cursor bytes := by
  induction bytes generalizing s with
  | nil => exact iff_of_true h True.intro
  | cons b bs ih =>
      unfold putChars NoBackspaceAtStart
      rw [Returns, Wp.bind]
      constructor
      · intro hrun
        have hb : b = 0x08 → s.cursor ≠ 0 := by
          intro hbs hzero
          rw [hbs] at hrun
          exact putChar_fails hzero _ hrun
        refine ⟨hb, ?_⟩
        obtain ⟨a, t, ht, hrest⟩ := returns_iff.mp hrun
        have hstep := (Wp.of_run ht).mp (putChar_ok h hb)
        rw [← hstep.2]
        exact (ih hstep.1).mp hrest
      · intro ⟨hb, hbs⟩
        refine (putChar_ok h hb).call fun _ t ht => ?_
        rw [← ht.2] at hbs
        exact (ih ht.1).mpr hbs

theorem clsScreen_ok (h : s.stores = []) :
    Returns clsScreen s fun _ t => ScreenOk t ∧ t.cursor = 0 := by
  have hin : s.Inside := by
    intro a ha
    rw [h] at ha
    simp at ha
  unfold clsScreen
  generalize hcells : 80 * 25 = cells
  rw [Returns, Wp.bind]
  refine (clearLoop_draws (by omega)).call fun _ t ht => ?_
  rw [wp_setCursor]
  exact ⟨⟨by rw [cursor_atCursor]; decide, ht.inside hin⟩, cursor_atCursor t 0⟩

attribute [irreducible] clsScreen

theorem clsScreen_putChars (h : s.stores = []) (bytes : List UInt8) :
    Returns (clsScreen >>= fun _ => putChars bytes) s (fun _ t => ScreenOk t) ↔
      NoBackspaceAtStart 0 bytes := by
  rw [Returns, Wp.bind]
  obtain ⟨a, t, ht, hok, hcursor⟩ := returns_iff.mp (clsScreen_ok h)
  rw [Wp.of_run ht, ← hcursor]
  exact putChars_iff bytes hok

theorem NoBackspaceAtStart.start {c : Nat} {pre bytes : List UInt8} (hpre : pre <+: bytes)
    (h : NoBackspaceAtStart c bytes) : NoBackspaceAtStart c pre := by
  induction pre generalizing c bytes with
  | nil => exact True.intro
  | cons b pre ih =>
      obtain ⟨rest, hbytes⟩ := hpre
      rw [← hbytes] at h
      exact ⟨h.1, ih (List.prefix_append pre rest) h.2⟩

/-- What is printed after `cls_screen` stays on the screen exactly when no backspace comes at its
first place. -/
theorem printsInside_iff (h : s.stores = []) (bytes : List UInt8) :
    PrintsInside s bytes ↔ NoBackspaceAtStart 0 bytes := by
  constructor
  · intro hprints
    exact (clsScreen_putChars h bytes).mp (hprints bytes (List.prefix_refl bytes))
  · intro hbytes pre hpre
    exact (clsScreen_putChars h pre).mpr (hbytes.start hpre)

end

def blankScreen : Screen := ⟨0, fun _ => 0, fun _ => 0, []⟩

/-- A line, a backspace and a new line. -/
theorem printsInside_line : PrintsInside blankScreen [0x61, 0x62, 0x08, 0x0a] :=
  (printsInside_iff rfl _).mpr (by decide)

/-- A backspace right after `cls_screen`. -/
theorem printsInside_backspace : ¬PrintsInside blankScreen [0x08] := by
  intro h
  have hrun := (clsScreen_putChars rfl [0x08]).mp (h [0x08] (List.prefix_refl _))
  exact hrun.1 rfl rfl

end OsTruth
