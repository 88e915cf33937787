/-
`wash_path` of `shell/buildin_cmd.c` against a stack of names.

The stack is kept as a path whose last component is cut off at the last slash.
`washPath` of `Fs/PathBytes.lean` has the new path as a string; `washPathAt` has it in an array
that held anything before, and its rounds follow those of `washPath`.
-/
import Mathlib.Data.List.Induction
import OsTruth.Fs.PathSafe
import OsTruth.Lib.Strings

namespace OsTruth

open ByteString

/-! ## The stack -/

/-- What a component does to the stack of names. -/
def washStep (stack : List Str) (name : Str) : List Str :=
  if name = [dot, dot] then stack.dropLast
  else if name = [dot] then stack
  else stack ++ [name]

/-- The stack behind all components. -/
def washStack (names : List Str) : List Str := names.foldl washStep []

/-- A slash, and the names with slashes between them. -/
def stackPath (stack : List Str) : Str := slash :: [slash].intercalate stack

/-! ## Functions -/

/-- A round of `wash_path` on the bytes of the new path. -/
def washNameAt (name newAbsPath : Buf) : Except Fault Buf := do
  let up ← strcmp (strBuf [dot, dot]) 0 name 0
  if up = 0 then do
    match ← strrchr newAbsPath 0 slash with
    -- a write behind `NULL`
    | none => .error .undefined
    | some slashPtr =>
        if slashPtr ≠ 0 then newAbsPath.store slashPtr 0
        else newAbsPath.store (slashPtr + 1) 0
  else do
    let here ← strcmp (strBuf [dot]) 0 name 0
    if here ≠ 0 then do
      let root ← strcmp newAbsPath 0 (strBuf [slash]) 0
      let newAbsPath ← if root ≠ 0 then strcat newAbsPath 0 (strBuf [slash]) 0 else .ok newAbsPath
      strcat newAbsPath 0 name 0
    else .ok newAbsPath

/-- `wash_path`, with what it leaves of both paths. -/
def washPathAt (oldAbsPath newAbsPath : Buf) : Except Fault (Buf × Buf) := do
  let c ← oldAbsPath.load 0
  assert (c = slash)
  let (p, path, name) ← pathParseAt oldAbsPath 0 zeroName
  let c ← name.load 0
  if c = 0 then do
    let newAbsPath ← newAbsPath.store 0 slash
    let newAbsPath ← newAbsPath.store 1 0
    .ok (newAbsPath, path)
  else do
    let newAbsPath ← newAbsPath.store 0 0
    let newAbsPath ← strcat newAbsPath 0 (strBuf [slash]) 0
    nameRounds washNameAt (path.size + 1) path p name newAbsPath

section

variable {stack names : List Str} {name s s' : Str} {b x : Buf}

/-! ## A round on bytes follows a round on strings -/

/-- The array holds the new path, with room for the longest. -/
structure NewPath (x : Buf) (s : Str) : Prop where
  holds : x.Holds 0 s
  size : maxPathLen ≤ x.size

/-- A string with a slash, at its last slash. -/
theorem last_slash (h : slash ∈ s) : ∃ front back, s = front ++ slash :: back ∧ slash ∉ back ∧
    ((s.reverse.dropWhile (· ≠ slash)).drop 1).reverse = front := by
  obtain ⟨as, bs, heq, has⟩ := List.eq_append_cons_of_mem (List.mem_reverse.mpr h)
  refine ⟨bs.reverse, as.reverse, ?_, by simpa using has, ?_⟩
  · rw [← List.reverse_reverse s, heq]
    simp
  · have hdrop : as.dropWhile (· ≠ slash) = [] := by
      apply List.dropWhile_eq_nil_iff.mpr
      intro c hc
      simpa using fun heq : c = slash => has (heq ▸ hc)
    rw [heq, List.dropWhile_append, hdrop]
    simp

theorem NewPath.strcat {t : Str} (h : NewPath x s) (hb : b.Holds 0 t)
    (hcat : catPath s t = .ok s') : ∃ x', OsTruth.strcat x 0 b 0 = .ok x' ∧ NewPath x' s' := by
  unfold catPath at hcat
  by_cases hfit : s.length + t.length < maxPathLen
  · rw [if_pos hfit] at hcat
    cases hcat
    have hsize := h.size
    obtain ⟨x', hput, hx', hsize'⟩ := h.holds.put_append hb.not_mem (by omega)
    exact ⟨x', (strcat_eq h.holds hb).trans hput, hx', by omega⟩
  · rw [if_neg hfit] at hcat
    cases hcat

theorem washNameAt_up (hname : b.Holds 0 [dot, dot]) (h : NewPath x s)
    (hrun : washName [dot, dot] s = .ok s') : ∃ x', washNameAt b x = .ok x' ∧ NewPath x' s' := by
  obtain ⟨r, hr, hzero⟩ := strcmp_zero (holds_strBuf (s := [dot, dot]) (by decide)) hname
  obtain rfl := hzero.mpr rfl
  unfold washNameAt
  rw [hr]
  show ∃ x', (OsTruth.strrchr x 0 slash >>= _) = _ ∧ _
  rw [washName, if_pos rfl] at hrun
  by_cases hmem : slash ∈ s
  · obtain ⟨front, back, hs, hback, hcut⟩ := last_slash hmem
    rw [if_pos hmem, hcut] at hrun
    have hholds := h.holds
    rw [hs] at hholds
    rw [strrchr_last hholds hback, Nat.zero_add]
    show ∃ x', (if front.length ≠ 0 then _ else _) = _ ∧ _
    by_cases hfront : front = []
    · rw [if_neg (by simp [hfront])]
      obtain rfl : [slash] = s' := by simpa [hfront] using hrun
      rw [hfront] at hholds ⊢
      obtain ⟨x', hstore, hx', hsize⟩ := @Buf.Holds.cut x 0 [slash] back hholds
      exact ⟨x', hstore, hx', hsize ▸ h.size⟩
    · rw [if_pos (by simpa using hfront)]
      obtain rfl : front = s' := by simpa [hfront] using hrun
      obtain ⟨x', hstore, hx', hsize⟩ := hholds.cut
      rw [Nat.zero_add] at hstore
      exact ⟨x', hstore, hx', hsize ▸ h.size⟩
  · rw [if_neg hmem] at hrun
    cases hrun

theorem washNameAt_eq (hname : b.Holds 0 name) (h : NewPath x s)
    (hrun : washName name s = .ok s') : ∃ x', washNameAt b x = .ok x' ∧ NewPath x' s' := by
  by_cases hup : name = [dot, dot]
  · exact washNameAt_up (hup ▸ hname) h (hup ▸ hrun)
  · obtain ⟨r, hr, hzero⟩ := strcmp_zero (holds_strBuf (s := [dot, dot]) (by decide)) hname
    have hr0 : ¬r = 0 := fun h0 => hup (hzero.mp h0).symm
    obtain ⟨q, hq, hqzero⟩ := strcmp_zero (holds_strBuf (s := [dot]) (by decide)) hname
    rw [washName, if_neg hup] at hrun
    unfold washNameAt
    rw [hr]
    show ∃ x', (if r = 0 then _ else _) = _ ∧ _
    rw [if_neg hr0, hq]
    show ∃ x', (if q ≠ 0 then _ else _) = _ ∧ _
    by_cases hdot : name = [dot]
    · rw [if_pos hdot] at hrun
      cases hrun
      rw [if_neg (not_not.mpr (hqzero.mpr hdot.symm))]
      exact ⟨x, rfl, h⟩
    · rw [if_neg hdot] at hrun
      rw [if_pos fun h0 => hdot (hqzero.mp h0).symm]
      have hslash : (strBuf [slash]).Holds 0 [slash] := holds_strBuf (by decide)
      obtain ⟨u, hu, huzero⟩ := strcmp_zero h.holds hslash
      rw [hu]
      show ∃ x', (if u ≠ 0 then
        OsTruth.strcat x 0 (strBuf [slash]) 0 >>= fun y => OsTruth.strcat y 0 b 0
        else OsTruth.strcat x 0 b 0) = .ok x' ∧ _
      by_cases hroot : s = [slash]
      · rw [if_pos hroot] at hrun
        rw [if_neg (not_not.mpr (huzero.mpr hroot))]
        exact h.strcat hname hrun
      · rw [if_neg hroot] at hrun
        rw [if_pos fun h0 => hroot (huzero.mp h0)]
        cases hcat : catPath s [slash] with
        | error e =>
            rw [hcat] at hrun
            cases hrun
        | ok t =>
            rw [hcat] at hrun
            obtain ⟨y, hy, hnew⟩ := h.strcat hslash hcat
            rw [hy]
            exact hnew.strcat hname hrun

/-- The rounds on bytes follow the rounds on strings. -/
theorem nameRounds_newPath {left : Nat} {path path' : Buf} {p : Option Nat} (h : NewPath x s)
    (hrun : nameRounds (fun name newAbsPath => do washName (← readName name) newAbsPath)
      left path p b s = .ok (s', path')) :
    ∃ x', nameRounds washNameAt left path p b x = .ok (x', path') ∧ NewPath x' s' := by
  induction left generalizing path p b s x with
  | zero => cases hrun
  | succ left ih =>
      rw [nameRounds] at hrun ⊢
      cases hload : b.load 0 with
      | error e =>
          rw [hload] at hrun
          cases hrun
      | ok c =>
          rw [hload] at hrun
          change (if c ≠ 0 then _ else _) = _ at hrun
          show ∃ x', (if c ≠ 0 then _ else _) = _ ∧ _
          by_cases hc : c ≠ 0
          · rw [if_pos hc] at hrun ⊢
            cases hname : readName b with
            | error e =>
                rw [hname] at hrun
                cases hrun
            | ok name =>
                rw [hname] at hrun
                change (washName name s >>= _) = _ at hrun
                cases hwash : washName name s with
                | error e =>
                    rw [hwash] at hrun
                    cases hrun
                | ok t =>
                    obtain ⟨y, hy, hnew⟩ := washNameAt_eq (holds_of_readName hname) h hwash
                    rw [hwash] at hrun
                    change (parseNext path p >>= _) = _ at hrun
                    rw [hy]
                    show ∃ x', (parseNext path p >>= _) = _ ∧ _
                    cases hparse : parseNext path p with
                    | error e =>
                        rw [hparse] at hrun
                        cases hrun
                    | ok next =>
                        rw [hparse] at hrun
                        exact ih hnew hrun
          · rw [if_neg hc] at hrun ⊢
            cases hrun
            exact ⟨x, rfl, h⟩

/-- `/` in an array that held anything. -/
theorem newPath_root (hsize : maxPathLen ≤ x.size) :
    (∃ y x', x.store 0 slash = .ok y ∧ y.store 1 0 = .ok x' ∧ NewPath x' [slash]) ∧
      ∃ y x', x.store 0 0 = .ok y ∧ strcat y 0 (strBuf [slash]) 0 = .ok x' ∧
        NewPath x' [slash] := by
  have hpos : 1 < x.size := Nat.lt_of_lt_of_le (by decide) hsize
  constructor
  · have hstr : StrAt (splice (splice x.data 0 1 fun _ => slash) 1 1 fun _ => 0) 0 [slash] := by
      refine ⟨?_, by decide, ?_⟩
      · rw [splice_outside (Or.inl (by omega)), splice_inside (by omega) (by omega)]
      · exact splice_inside (by omega) (by omega)
    exact ⟨_, _, if_pos (by omega), if_pos hpos, ⟨hstr, hpos⟩, hsize⟩
  · have hzero : splice x.data 0 1 (fun _ => 0) 0 = 0 := splice_inside (by omega) (by omega)
    have hempty : NewPath ⟨x.size, splice x.data 0 1 fun _ => 0⟩ [] :=
      ⟨⟨hzero, Nat.lt_trans Nat.zero_lt_one hpos⟩, hsize⟩
    have hslash : catPath [] [slash] = .ok [slash] := rfl
    obtain ⟨x', hcat, hnew⟩ := hempty.strcat (holds_strBuf (by decide)) hslash
    exact ⟨_, x', if_pos (by omega), hcat, hnew⟩

/-- What `washPath` has as a string, `wash_path` leaves in the array. -/
theorem washPathAt_eq {oldAbsPath path' : Buf} (hsize : maxPathLen ≤ x.size)
    (hrun : washPath oldAbsPath = .ok (s, path')) :
    ∃ x', washPathAt oldAbsPath x = .ok (x', path') ∧ NewPath x' s := by
  obtain ⟨⟨y, x', hy, hx', hnew⟩, z, z', hz, hz', hnew'⟩ := newPath_root hsize
  unfold washPath at hrun
  unfold washPathAt
  cases hload : oldAbsPath.load 0 with
  | error e =>
      rw [hload] at hrun
      cases hrun
  | ok c =>
      rw [hload] at hrun
      change (assert (c = slash) >>= _) = _ at hrun
      show ∃ x', (assert (c = slash) >>= _) = _ ∧ _
      by_cases hc : c = slash
      · rw [assert_bind hc] at hrun ⊢
        cases hparse : pathParseAt oldAbsPath 0 zeroName with
        | error e =>
            rw [hparse] at hrun
            cases hrun
        | ok r =>
            obtain ⟨p, path, name⟩ := r
            rw [hparse] at hrun
            change nameRounds (fun name newAbsPath => do washName (← readName name) newAbsPath)
              (path.size + 1) path p name [slash] = .ok (s, path') at hrun
            show ∃ x', (name.load 0 >>= _) = _ ∧ _
            cases hname : name.load 0 with
            | error e =>
                rw [nameRounds, hname] at hrun
                cases hrun
            | ok first =>
                show ∃ x', (if first = 0 then _ else _) = _ ∧ _
                by_cases hzero : first = 0
                · rw [nameRounds, hname] at hrun
                  change (if first ≠ 0 then _ else _) = _ at hrun
                  rw [if_neg (not_not.mpr hzero)] at hrun
                  cases hrun
                  rw [if_pos hzero, hy]
                  show ∃ x', (y.store 1 0 >>= _) = _ ∧ _
                  rw [hx']
                  exact ⟨x', rfl, hnew⟩
                · rw [if_neg hzero, hz]
                  show ∃ x', (strcat z 0 (strBuf [slash]) 0 >>= _) = _ ∧ _
                  rw [hz']
                  exact nameRounds_newPath hnew' hrun
      · rw [assert, if_neg hc] at hrun
        cases hrun

/-! ## The strings are a stack -/

/-- A component as the copy loop of `path_parse` leaves it. -/
structure IsName (c : Str) : Prop where
  nonempty : c ≠ []
  slash : slash ∉ c
  zero : 0 ∉ c

/-- The characters that the names take with a slash in front of each. -/
def namesLength (names : List Str) : Nat := (names.map fun c => c.length + 1).sum

theorem stackPath_append (stack : List Str) (name : Str) :
    stackPath (stack ++ [name]) =
      (if stack = [] then [] else stackPath stack) ++ slash :: name := by
  have hjoin : ∀ names : List Str, names ≠ [] →
      [slash].intercalate (names ++ [name]) = [slash].intercalate names ++ slash :: name := by
    intro names hne
    induction names with
    | nil => exact absurd rfl hne
    | cons c names ih =>
        cases names with
        | nil => simp [List.intercalate_cons_cons]
        | cons d names =>
            have hfront : [slash].intercalate (c :: (d :: names ++ [name])) =
                c ++ [slash] ++ [slash].intercalate (d :: names ++ [name]) :=
              List.intercalate_cons_of_ne_nil (by simp)
            rw [List.cons_append, hfront, ih (by simp), List.intercalate_cons_cons]
            simp
  by_cases h : stack = []
  · simp [h, stackPath]
  · rw [if_neg h, stackPath, hjoin stack h, stackPath, List.cons_append]

theorem length_stackPath (hne : stack ≠ []) : (stackPath stack).length = namesLength stack := by
  induction stack using List.reverseRecOn with
  | nil => exact absurd rfl hne
  | append_singleton stack name ih =>
      rw [stackPath_append]
      by_cases h : stack = []
      · simp [h, namesLength]
      · have := ih h
        simp only [namesLength, List.map_append, List.sum_append, if_neg h, List.length_append,
          List.length_cons] at this ⊢
        rw [this]
        simp

theorem stackPath_root (hstack : ∀ c ∈ stack, IsName c) : stackPath stack = [slash] ↔ stack = [] := by
  constructor
  · intro h
    by_contra hne
    have hlen := length_stackPath hne
    obtain ⟨c, stack, rfl⟩ := List.exists_cons_of_ne_nil hne
    have hc := List.length_pos_iff.mpr (hstack c List.mem_cons_self).nonempty
    rw [h] at hlen
    simp [namesLength] at hlen
    omega
  · intro h
    rw [h]
    rfl

/-- A round of `wash_path` is a step of the stack. -/
theorem washName_stack (hstack : ∀ c ∈ stack, IsName c)
    (hfit : namesLength stack + name.length + 1 < maxPathLen) :
    washName name (stackPath stack) = .ok (stackPath (washStep stack name)) := by
  unfold washName washStep
  by_cases hup : name = [dot, dot]
  · rw [if_pos hup, if_pos hup]
    rw [if_pos (show slash ∈ stackPath stack from List.mem_cons_self)]
    rcases List.eq_nil_or_concat stack with h | ⟨rest, c, h⟩
    · rw [h]
      rfl
    · obtain rfl : stack = rest ++ [c] := by simpa using h
      have hc := (hstack c (by simp)).slash
      have hcut : ((stackPath (rest ++ [c])).reverse.dropWhile (· ≠ slash)).drop 1 =
          (if rest = [] then [] else stackPath rest).reverse := by
        rw [stackPath_append, List.reverse_append, List.reverse_cons, List.append_assoc,
          List.dropWhile_append_of_pos (by
            intro d hd
            simpa using fun heq : d = slash => hc (heq ▸ List.mem_reverse.mp hd))]
        simp
      rw [hcut, List.reverse_reverse]
      by_cases hrest : rest = []
      · simp [hrest, stackPath]
      · simp [hrest, stackPath]
  · rw [if_neg hup, if_neg hup]
    by_cases hdot : name = [dot]
    · rw [if_pos hdot, if_pos hdot]
    · rw [if_neg hdot, if_neg hdot, stackPath_append]
      by_cases hroot : stack = []
      · have hfit' : [slash].length + name.length < maxPathLen := by
          simp [hroot, namesLength] at hfit ⊢
          omega
        simp only [hroot, stackPath, List.intercalate_nil, if_true]
        show catPath [slash] name = _
        rw [catPath, if_pos hfit']
        rfl
      · rw [if_neg fun h => hroot ((stackPath_root hstack).mp h), if_neg hroot]
        have hlen := length_stackPath hroot
        have hfirst : catPath (stackPath stack) [slash] = .ok (stackPath stack ++ [slash]) :=
          if_pos (by simp; omega)
        rw [hfirst]
        show catPath (stackPath stack ++ [slash]) name = _
        rw [catPath, if_pos (by simp; omega)]
        simp

theorem namesLength_append (stack : List Str) (name : Str) :
    namesLength (stack ++ [name]) = namesLength stack + (name.length + 1) := by
  simp [namesLength]

theorem mem_washStep {c : Str} (h : c ∈ washStep stack name) :
    c ∈ stack ∨ c = name ∧ name ≠ [dot, dot] ∧ name ≠ [dot] := by
  unfold washStep at h
  by_cases hup : name = [dot, dot]
  · rw [if_pos hup] at h
    exact Or.inl (List.dropLast_subset _ h)
  · by_cases hdot : name = [dot]
    · rw [if_neg hup, if_pos hdot] at h
      exact Or.inl h
    · rw [if_neg hup, if_neg hdot] at h
      simpa [hup, hdot] using h

theorem namesLength_washStep (stack : List Str) (name : Str) :
    namesLength (washStep stack name) ≤ namesLength stack + (name.length + 1) := by
  unfold washStep
  by_cases hup : name = [dot, dot]
  · rw [if_pos hup]
    induction stack using List.reverseRecOn with
    | nil => simp [namesLength]
    | append_singleton stack c ih =>
        rw [List.dropLast_concat, namesLength_append]
        omega
  · by_cases hdot : name = [dot]
    · rw [if_neg hup, if_pos hdot]
      omega
    · rw [if_neg hup, if_neg hdot, namesLength_append]

/-- The rounds of `wash_path` are the steps of the stack. -/
theorem foldlM_washName (hstack : ∀ c ∈ stack, IsName c) (hnames : ∀ c ∈ names, IsName c)
    (hfit : namesLength stack + namesLength names < maxPathLen) :
    names.foldlM (fun newAbsPath c => washName c newAbsPath) (stackPath stack) =
      .ok (stackPath (names.foldl washStep stack)) := by
  induction names generalizing stack with
  | nil => rfl
  | cons c names ih =>
      have hlen : namesLength (c :: names) = c.length + 1 + namesLength names := by
        simp [namesLength]
      rw [hlen] at hfit
      have hc := hnames c List.mem_cons_self
      have hstep := namesLength_washStep stack c
      rw [List.foldlM_cons, washName_stack hstack (by omega)]
      apply ih
      · intro d hd
        rcases mem_washStep hd with h | ⟨h, _⟩
        · exact hstack d h
        · exact h ▸ hc
      · exact fun d hd => hnames d (List.mem_cons_of_mem _ hd)
      · omega

/-! ## The components of a path -/

/-- The callers get names, and no longer than the path. -/
theorem parsedNames_isName (rest : Str) (hstr : 0 ∉ rest) :
    (∀ c ∈ parsedNames rest, IsName c) ∧ namesLength (parsedNames rest) ≤ rest.length + 1 := by
  induction hlen : rest.length using Nat.strong_induction_on generalizing rest with
  | _ n ih =>
      by_cases hcomp : component rest = []
      · rw [parsedNames_empty hcomp]
        simp [namesLength]
      · have happ := component_append_behind rest
        have hmem : ∀ d ∈ component rest, d ∈ rest := fun d hd => by
          rw [← happ]
          exact List.mem_append_left _ hd
        have hname : IsName (component rest) :=
          ⟨hcomp, slash_not_mem_component rest, fun h0 => hstr (hmem 0 h0)⟩
        have hsum := congrArg List.length happ
        rw [List.length_append] at hsum
        rcases behind_cases rest with hb | ⟨more, hb⟩
        · rw [parsedNames_last hcomp hb]
          refine ⟨by simpa using hname, ?_⟩
          simp [namesLength]
          omega
        · rw [hb, List.length_cons] at hsum
          have hmore : 0 ∉ more := fun h0 => hstr (by
            rw [← happ, hb]
            simp [h0])
          obtain ⟨hnames, hlength⟩ := ih more.length (by omega) more hmore rfl
          rw [parsedNames_next hcomp hb]
          refine ⟨?_, ?_⟩
          · intro c hc
            rcases List.mem_cons.mp hc with h | h
            · exact h ▸ hname
            · exact hnames c h
          · simp [namesLength] at hlength ⊢
            omega

/-- A path without two slashes in a row. -/
theorem singleSlashes_inner {path : Str} (h : ¬[slash, slash] <:+: path) :
    SingleSlashes path := by
  induction path with
  | nil => exact True.intro
  | cons c path ih =>
      have htail : ¬[slash, slash] <:+: path := fun hin => h (hin.trans (List.infix_cons_iff.mpr
        (Or.inr (List.infix_rfl))))
      cases path with
      | nil => exact True.intro
      | cons d path =>
          refine ⟨fun hc hd => absurd ?_ h, ih htail⟩
          rw [hc, hd]
          exact (List.prefix_append [slash, slash] path).isInfix

/-- `wash_path` on the components that it gets. -/
theorem washPath_onPath {b : Buf} {rest : Str} (hload : b.load 0 = .ok slash)
    (hon : OnPath b 0 rest) (hstr : 0 ∉ rest)
    (hshort : ∀ c ∈ parsedNames rest, c.length < maxFileNameLen)
    (hfit : namesLength (parsedNames rest) < maxPathLen) :
    washPath b = .ok (stackPath (washStack (parsedNames rest)), b) := by
  have hrun := @foldlM_washName [] (parsedNames rest) (by simp) (parsedNames_isName rest hstr).1
    (by simpa [namesLength] using hfit)
  rw [washPath_rounds hload hon hshort, show ([slash] : Str) = stackPath [] from rfl, hrun]
  rfl

theorem washPath_stack {rest : Str} (hstr : 0 ∉ rest)
    (hshort : ∀ c ∈ parsedNames rest, c.length < maxFileNameLen)
    (hfit : namesLength (parsedNames rest) < maxPathLen) :
    washPath (strBuf (slash :: rest)) =
      .ok (stackPath (washStack (parsedNames rest)), strBuf (slash :: rest)) :=
  washPath_onPath rfl (onPath_strBuf hstr) hstr hshort hfit

/-! ## The stack of a stack -/

structure IsKept (c : Str) : Prop extends IsName c where
  up : c ≠ [dot, dot]
  here : c ≠ [dot]

theorem mem_foldl_washStep {c : Str} (h : c ∈ names.foldl washStep stack) :
    c ∈ stack ∨ c ∈ names ∧ c ≠ [dot, dot] ∧ c ≠ [dot] := by
  induction names generalizing stack with
  | nil => exact Or.inl h
  | cons d names ih =>
      rcases ih h with hstep | ⟨hmem, hkept⟩
      · rcases mem_washStep hstep with hstack | ⟨hd, hkept⟩
        · exact Or.inl hstack
        · exact Or.inr ⟨by simp [hd], hd ▸ hkept⟩
      · exact Or.inr ⟨List.mem_cons_of_mem _ hmem, hkept⟩

theorem foldl_washStep_length (stack names : List Str) :
    namesLength (names.foldl washStep stack) ≤ namesLength stack + namesLength names := by
  induction names generalizing stack with
  | nil => simp [namesLength]
  | cons c names ih =>
      have hlen : namesLength (c :: names) = c.length + 1 + namesLength names := by
        simp [namesLength]
      have hstep := namesLength_washStep stack c
      have hrest := ih (washStep stack c)
      rw [List.foldl_cons]
      omega

/-- Kept names are all pushed. -/
theorem foldl_washStep_append (hnames : ∀ c ∈ names, IsKept c) :
    names.foldl washStep stack = stack ++ names := by
  induction names generalizing stack with
  | nil => simp
  | cons c names ih =>
      have hc := hnames c List.mem_cons_self
      rw [List.foldl_cons, ih fun d hd => hnames d (List.mem_cons_of_mem _ hd), washStep,
        if_neg hc.up, if_neg hc.here]
      simp

theorem zero_not_mem_intercalate (hstack : ∀ c ∈ stack, IsName c) :
    0 ∉ [slash].intercalate stack := by
  induction stack with
  | nil => simp
  | cons c stack ih =>
      have hc := (hstack c List.mem_cons_self).zero
      have hrest := ih fun d hd => hstack d (List.mem_cons_of_mem _ hd)
      by_cases h : stack = []
      · rw [h, List.intercalate_singleton]
        exact hc
      · rw [List.intercalate_cons_of_ne_nil h]
        simp only [List.mem_append, not_or]
        exact ⟨⟨hc, by decide⟩, hrest⟩

/-- The path of a stack is parsed into the stack. -/
theorem parsedNames_intercalate (hstack : ∀ c ∈ stack, IsName c) :
    parsedNames ([slash].intercalate stack) = stack := by
  by_cases h : stack = []
  · rw [h]
    rfl
  · rw [parsedNames, List.splitOn_intercalate slash (fun c hc => (hstack c hc).slash) h,
      List.takeWhile_eq_self_iff]
    intro c hc
    simpa using (hstack c hc).nonempty

/-- For a path without two slashes in a row, `wash_path` leaves a slash and the names on the
stack, whatever the new path held before; and what it leaves it does not change. -/
theorem washPathAt_stack {path : Str} {x y : Buf} (habs : path.head? = some slash)
    (hstr : 0 ∉ path) (hlen : path.length < maxPathLen) (hslashes : ¬[slash, slash] <:+: path)
    (hshort : ∀ c ∈ components path, c.length < maxFileNameLen) (hx : maxPathLen ≤ x.size)
    (hy : maxPathLen ≤ y.size) :
    (∃ x', washPathAt (strBuf path) x = .ok (x', strBuf path) ∧
      x'.Holds 0 (stackPath (washStack (components path)))) ∧
    ∃ y', washPathAt (strBuf (stackPath (washStack (components path)))) y =
        .ok (y', strBuf (stackPath (washStack (components path)))) ∧
      y'.Holds 0 (stackPath (washStack (components path))) := by
  obtain ⟨rest, rfl⟩ : ∃ rest, path = slash :: rest := by
    cases path with
    | nil => cases habs
    | cons c rest => exact ⟨rest, by simpa using habs⟩
  have hrest : 0 ∉ rest := fun h0 => hstr (List.mem_cons_of_mem _ h0)
  have hall := (singleSlashes_iff rest).mp (singleSlashes_inner hslashes)
  rw [← hall] at hshort ⊢
  obtain ⟨hnames, hlength⟩ := parsedNames_isName rest hrest
  rw [List.length_cons] at hlen
  have hmem : ∀ c ∈ washStack (parsedNames rest), c ∈ parsedNames rest ∧ IsKept c := by
    intro c hc
    rcases mem_foldl_washStep hc with h | ⟨h, hup, hhere⟩
    · simp at h
    · exact ⟨h, hnames c h, hup, hhere⟩
  have hkept := fun c hc => (hmem c hc).2
  have hkeptLength : namesLength (washStack (parsedNames rest)) < maxPathLen := by
    have := foldl_washStep_length [] (parsedNames rest)
    rw [show namesLength [] = 0 from rfl] at this
    unfold washStack
    omega
  have hparsed := parsedNames_intercalate fun c hc => (hkept c hc).toIsName
  constructor
  · obtain ⟨x', hrun, hnew⟩ := washPathAt_eq hx (washPath_stack hrest hshort (by omega))
    exact ⟨x', hrun, hnew.holds⟩
  · have hagain := washPath_stack (zero_not_mem_intercalate fun c hc => (hkept c hc).toIsName)
      (by
        rw [hparsed]
        exact fun c hc => hshort c (hmem c hc).1) (by
        rw [hparsed]
        exact hkeptLength)
    rw [hparsed] at hagain
    have hsame : washStack (washStack (parsedNames rest)) = washStack (parsedNames rest) := by
      rw [washStack, foldl_washStep_append hkept, List.nil_append]
    rw [hsame] at hagain
    obtain ⟨y', hrun, hnew⟩ := washPathAt_eq hy hagain
    exact ⟨y', hrun, hnew.holds⟩

/-- `/a/./../b/` becomes `/b`. -/
theorem washPathAt_up :
    ∃ x', washPathAt (strBuf [47, 97, 47, 46, 47, 46, 46, 47, 98, 47]) ⟨512, fun _ => 1⟩ =
        .ok (x', strBuf [47, 97, 47, 46, 47, 46, 46, 47, 98, 47]) ∧ x'.Holds 0 [47, 98] := by
  have h := @washPathAt_stack [47, 97, 47, 46, 47, 46, 46, 47, 98, 47] ⟨512, fun _ => 1⟩
    ⟨512, fun _ => 1⟩ rfl (by decide) (by decide) (by decide) (by decide) (Nat.le_refl 512)
    (Nat.le_refl 512)
  exact h.1

end

end OsTruth
