/-
The components that the callers of `path_parse` get.

`components` is what a path consists of.  `path_parse` stores a slash in the first byte and
skips one slash at a time, so the callers stop at the first component that is empty:
`pathParsed_iff` says which paths they take apart rightly.
-/
import Mathlib.Data.List.TakeWhile
import OsTruth.Fs.PathBytes

namespace OsTruth

open ByteString

/-! ## The components of a path -/

/-- The components of a path: what stands between its slashes and is not empty. -/
def components (path : Str) : List Str := (path.splitOn slash).filter (· ≠ [])

/-- Behind two slashes in a row come only slashes. -/
def SingleSlashes : Str → Prop
  | c :: d :: s => (c = slash → d = slash → ∀ x ∈ s, x = slash) ∧ SingleSlashes (d :: s)
  | _ => True

/-- The components behind a slash, up to the first that is empty. -/
def parsedNames (rest : Str) : List Str := (rest.splitOn slash).takeWhile (· ≠ [])

/-- What the callers are to get from a path, with `stack` in the array of `path_depth_cnt`.
A read behind the zero of the path makes the run fail. -/
structure PathParsed (path : Str) (stack : Bytes) : Prop where
  names : parseNames (path.length + 1) (strBuf path) 0 = .ok (components path, strBuf path)
  depth : pathDepthCntAt (strBuf path) stack = .ok ((components path).length, strBuf path)

instance decidableSingleSlashes : ∀ path : Str, Decidable (SingleSlashes path)
  | [] => isTrue True.intro
  | [_] => isTrue True.intro
  | _ :: d :: s =>
      have := decidableSingleSlashes (d :: s)
      inferInstanceAs (Decidable (_ ∧ SingleSlashes (d :: s)))

section

variable {rest more : Str}

theorem slash_not_mem_component (rest : Str) : slash ∉ component rest := fun h => by
  simpa using List.mem_takeWhile_imp h

theorem splitOn_last (h : behind rest = []) : rest.splitOn slash = [component rest] := by
  have happ := component_append_behind rest
  rw [h, List.append_nil] at happ
  have hmem := slash_not_mem_component rest
  rw [happ] at hmem ⊢
  exact List.splitOn_eq_singleton hmem

theorem splitOn_next (h : behind rest = slash :: more) :
    rest.splitOn slash = component rest :: more.splitOn slash := by
  have happ := component_append_behind rest
  rw [h] at happ
  conv_lhs => rw [← happ]
  rw [List.splitOn_append_cons_self, List.splitOn_eq_singleton (slash_not_mem_component rest)]
  rfl

theorem parsedNames_empty (h : component rest = []) : parsedNames rest = [] := by
  rcases behind_cases rest with hb | ⟨more, hb⟩
  · rw [parsedNames, splitOn_last hb, h]
    rfl
  · rw [parsedNames, splitOn_next hb, h]
    rfl

theorem parsedNames_last (h : component rest ≠ []) (hb : behind rest = []) :
    parsedNames rest = [component rest] := by
  rw [parsedNames, splitOn_last hb]
  simp [h]

theorem parsedNames_next (h : component rest ≠ []) (hb : behind rest = slash :: more) :
    parsedNames rest = component rest :: parsedNames more := by
  rw [parsedNames, splitOn_next hb]
  simp [h, parsedNames]

/-- The slash in front adds no component. -/
theorem components_slash (rest : Str) :
    components (slash :: rest) = (rest.splitOn slash).filter (· ≠ []) := by
  rw [components, List.splitOn_cons_eq_if_modifyHead]
  simp

/-- Nothing but slashes has no component. -/
theorem splitOn_slashes : (∀ c ∈ rest.splitOn slash, c = []) ↔ ∀ x ∈ rest, x = slash := by
  induction rest with
  | nil => simp
  | cons x rest ih =>
      rw [List.splitOn_cons_eq_if_modifyHead]
      by_cases hx : x = slash
      · simp [hx, ih]
      · obtain ⟨c, cs, hcs⟩ := List.exists_cons_of_ne_nil (List.splitOn_ne_nil slash rest)
        simp [hx, hcs]

theorem singleSlashes_slashes (h : ∀ x ∈ rest, x = slash) : SingleSlashes (slash :: rest) := by
  induction rest with
  | nil => exact True.intro
  | cons x rest ih =>
      have hrest : ∀ x ∈ rest, x = slash := fun y hy => h y (List.mem_cons_of_mem x hy)
      rw [h x List.mem_cons_self]
      exact ⟨fun _ _ => hrest, ih hrest⟩

theorem singleSlashes_skip {c : UInt8} (h : c ≠ slash) (s : Str) :
    SingleSlashes (c :: s) ↔ SingleSlashes s := by
  cases s with
  | nil => exact Iff.rfl
  | cons d s => exact ⟨fun hs => hs.2, fun hs => ⟨fun hc => absurd hc h, hs⟩⟩

/-- A component between slashes is of no account. -/
theorem singleSlashes_component {comp : Str} (h : slash ∉ comp) (hne : comp ≠ []) (s : Str) :
    SingleSlashes (slash :: (comp ++ s)) ↔ SingleSlashes s := by
  have hall : ∀ comp : Str, slash ∉ comp → (SingleSlashes (comp ++ s) ↔ SingleSlashes s) := by
    intro comp h
    induction comp with
    | nil => exact Iff.rfl
    | cons d comp ih =>
        simp only [List.mem_cons, not_or] at h
        rw [List.cons_append, singleSlashes_skip fun hd => h.1 hd.symm]
        exact ih h.2
  cases comp with
  | nil => exact absurd rfl hne
  | cons d comp =>
      have hd : d ≠ slash := fun hd => h (by simp [hd])
      rw [← hall (d :: comp) h]
      exact ⟨fun hs => hs.2, fun hs => ⟨fun _ hd' => absurd hd' hd, hs⟩⟩

/-- The callers get all components exactly when none stands behind two slashes. -/
theorem singleSlashes_iff (rest : Str) :
    SingleSlashes (slash :: rest) ↔ parsedNames rest = components (slash :: rest) := by
  rw [components_slash]
  induction hn : rest.length using Nat.strong_induction_on generalizing rest with
  | _ n ih =>
    have happ := component_append_behind rest
    have hmem := slash_not_mem_component rest
    rcases behind_cases rest with hb | ⟨more, hb⟩
    · rw [parsedNames, splitOn_last hb]
      by_cases hcomp : component rest = []
      · rw [hb, hcomp] at happ
        simp [component, ← happ, SingleSlashes]
      · rw [hb, List.append_nil] at happ
        have := singleSlashes_component hmem hcomp []
        rw [List.append_nil, happ] at this
        simp [hcomp, this, SingleSlashes]
    · rw [splitOn_next hb]
      rw [hb] at happ
      by_cases hcomp : component rest = []
      · rw [hcomp, List.nil_append] at happ
        rw [parsedNames_empty hcomp, hcomp, ← happ]
        have hslashes := @splitOn_slashes more
        simp only [ne_eq, not_true_eq_false, decide_false, Bool.false_eq_true, not_false_eq_true,
          List.filter_cons_of_neg]
        rw [eq_comm, List.filter_eq_nil_iff]
        simp only [decide_eq_true_eq, not_not]
        rw [hslashes]
        exact ⟨fun h => h.1 rfl rfl, fun h => ⟨fun _ _ => h, singleSlashes_slashes h⟩⟩
      · have hlt : more.length < n := by
          rw [← hn, ← happ]
          simp
          omega
        have hsingle := singleSlashes_component hmem hcomp (slash :: more)
        rw [happ] at hsingle
        rw [parsedNames_next hcomp hb, hsingle, ih more.length hlt more rfl]
        simp [hcomp]

/-! ## What the callers get -/

variable {path : Buf} {p left d : Nat}

theorem OnPath.not_mem (h : OnPath path p rest) : 0 ∉ component rest := fun h0 =>
  h.str.2.2.not_mem ((List.takeWhile_subset _) h0)

theorem OnPath.headD_ne (h : OnPath path p rest) (hcomp : component rest ≠ []) :
    (component rest).headD 0 ≠ 0 := by
  intro h0
  have hnot := h.not_mem
  obtain ⟨c, cs, hcs⟩ := List.exists_cons_of_ne_nil hcomp
  rw [hcs] at h0 hnot
  have hc : c = 0 := h0
  exact hnot (by simp [hc])

theorem component_mem (hcomp : component rest ≠ []) : component rest ∈ parsedNames rest := by
  rcases behind_cases rest with hb | ⟨more, hb⟩
  · simp [parsedNames_last hcomp hb]
  · simp [parsedNames_next hcomp hb]

theorem component_le {n : Nat} (h : ∀ c ∈ parsedNames rest, c.length ≤ n) :
    (component rest).length ≤ n := by
  by_cases hcomp : component rest = []
  · simp [hcomp]
  · exact h _ (component_mem hcomp)

theorem length_behind (hb : behind rest = slash :: more) : more.length < rest.length := by
  have happ := component_append_behind rest
  rw [hb] at happ
  rw [← happ]
  simp
  omega

/-- A call with a component that fits into the array. -/
theorem pathParseAt_fits (h : OnPath path p rest)
    (hfits : (component rest).length ≤ maxFileNameLen) (stack : Bytes) :
    pathParseAt path p (nameBuf stack) =
      .ok (if behind rest = [] then none else some (p + 1 + (component rest).length), path,
        (nameBuf stack).putStr 0 (component rest)) := by
  rw [pathParseAt_eq h]
  exact if_pos hfits

/-- The components up to an empty one, and the path as it was. -/
theorem parseNames_eq (h : OnPath path p rest)
    (hshort : ∀ c ∈ parsedNames rest, c.length < maxFileNameLen) (hleft : rest.length < left) :
    parseNames left path p = .ok (parsedNames rest, path) := by
  induction left generalizing p rest with
  | zero => omega
  | succ left ih =>
      by_cases hcomp : component rest = []
      · have hcall := pathParseAt_fits h (by simp [hcomp]) (fun _ => 0)
        rw [parseNames, zeroName, Buf.zero, ← nameBuf, hcall, parsedNames_empty hcomp]
        show (readName (zeroName.putStr 0 (component rest)) >>= _) = _
        rw [hcomp, readName_zeroName (by simp) (by decide)]
        rfl
      · have hlt := hshort _ (component_mem hcomp)
        have hcall := pathParseAt_fits h (Nat.le_of_lt hlt) (fun _ => 0)
        rw [parseNames, zeroName, Buf.zero, ← nameBuf, hcall]
        show (readName (zeroName.putStr 0 (component rest)) >>= _) = _
        rw [readName_zeroName h.not_mem hlt]
        show (if component rest = [] then _ else _) = _
        rw [if_neg hcomp]
        rcases behind_cases rest with hb | ⟨more, hb⟩
        · rw [parsedNames_last hcomp hb, if_pos hb]
        · rw [parsedNames_next hcomp hb] at hshort ⊢
          rw [if_neg (by rw [hb]; exact List.cons_ne_nil _ _)]
          show (parseNames left path _ >>= _) = _
          have hlen := length_behind hb
          rw [ih (h.next hb) (fun c hc => hshort c (List.mem_cons_of_mem _ hc)) (by omega)]
          rfl

/-- The first byte of the array after a call. -/
theorem load_putStr (stack : Bytes) (cs : Str) :
    ((nameBuf stack).putStr 0 cs).load 0 = .ok (if cs = [] then stack 0 else cs.headD 0) := by
  rw [Buf.load_of_lt (show 0 < maxFileNameLen by decide)]
  cases cs with
  | nil => rw [Buf.putStr_nil, if_pos rfl, nameBuf]
  | cons c cs => rfl

/-- A call of `path_parse` and the rounds that follow, when a round does with the array what
`step` does with the string in it. -/
theorem nameRounds_eq {σ : Type} {body : Buf → σ → Except Fault σ}
    {step : Str → σ → Except Fault σ} {stack : Bytes} {x : σ} (h : OnPath path p rest)
    (hfits : ∀ c ∈ parsedNames rest, c.length ≤ maxFileNameLen)
    (hstack : component rest ≠ [] ∨ stack 0 = 0) (hleft : rest.length < left)
    (hbody : ∀ b c x, b = stack ∨ b = (fun _ => 0) → c ∈ parsedNames rest → 0 ∉ c →
      body ((nameBuf b).putStr 0 c) x = step c x) :
    (do let (p, path, name) ← pathParseAt path p (nameBuf stack)
        nameRounds body (left + 1) path p name x) =
      (do let x ← (parsedNames rest).foldlM (fun x c => step c x) x
          .ok (x, path)) := by
  induction left generalizing p rest stack x with
  | zero => omega
  | succ left ih =>
      by_cases hcomp : component rest = []
      · have h0 : stack 0 = 0 := hstack.resolve_left (not_not.mpr hcomp)
        rw [pathParseAt_fits h (by simp [hcomp]), parsedNames_empty hcomp]
        show nameRounds body _ path _ ((nameBuf stack).putStr 0 (component rest)) x = _
        rw [nameRounds, load_putStr, hcomp, if_pos rfl, h0]
        rfl
      · have hmem := component_mem hcomp
        rw [pathParseAt_fits h (hfits _ hmem)]
        show nameRounds body _ path _ ((nameBuf stack).putStr 0 (component rest)) x = _
        rw [nameRounds, load_putStr, if_neg hcomp]
        show (if (component rest).headD 0 ≠ 0 then _ else _) = _
        rw [if_pos (h.headD_ne hcomp), hbody stack _ x (Or.inl rfl) hmem h.not_mem]
        rcases behind_cases rest with hb | ⟨more, hb⟩
        · rw [parsedNames_last hcomp hb, if_pos hb, List.foldlM_cons]
          cases step (component rest) x <;> rfl
        · rw [parsedNames_next hcomp hb] at hfits hbody ⊢
          have hlen := length_behind hb
          rw [if_neg (by rw [hb]; exact List.cons_ne_nil _ _), List.foldlM_cons]
          cases step (component rest) x with
          | error e => rfl
          | ok y =>
              exact @ih more _ (fun _ => 0) y (h.next hb)
                (fun c hc => hfits c (List.mem_cons_of_mem _ hc)) (Or.inr rfl) (by omega)
                fun b c x hb hc => hbody b c x (Or.inr (hb.elim id id)) (List.mem_cons_of_mem _ hc)

/-- A round of `path_depth_cnt` for each name. -/
theorem foldlM_depth (names : List Str) (d : Nat) :
    names.foldlM (fun depth _ => (.ok (depth + 1) : Except Fault Nat)) d =
      .ok (d + names.length) := by
  induction names generalizing d with
  | nil => rfl
  | cons c names ih =>
      rw [List.foldlM_cons]
      show names.foldlM _ (d + 1) = _
      rw [ih (d + 1), List.length_cons]
      congr 1
      omega

/-- The callers change no byte behind the first. -/
theorem parseNames_path {names : List Str} {path' : Buf} (h : OnPath path p rest)
    (hrun : parseNames left path p = .ok (names, path')) : path' = path := by
  induction left generalizing p rest names with
  | zero => cases hrun
  | succ left ih =>
      rw [parseNames, pathParseAt_eq h] at hrun
      by_cases hfit : (component rest).length ≤ zeroName.size
      · rw [if_pos hfit] at hrun
        cases hread : readName (zeroName.putStr 0 (component rest)) with
        | error e =>
            simp only [bind, Except.bind, hread] at hrun
            cases hrun
        | ok s =>
            simp only [bind, Except.bind, hread] at hrun
            by_cases hs : s = []
            · rw [if_pos hs] at hrun
              cases hrun
              rfl
            · rw [if_neg hs] at hrun
              rcases behind_cases rest with hb | ⟨more, hb⟩
              · rw [if_pos hb] at hrun
                cases hrun
                rfl
              · rw [if_neg (by rw [hb]; exact List.cons_ne_nil _ _)] at hrun
                cases hmore : parseNames left path (p + 1 + (component rest).length) with
                | error e =>
                    simp only [hmore] at hrun
                    cases hrun
                | ok r =>
                    simp only [hmore] at hrun
                    cases hrun
                    exact ih (h.next hb) hmore
      · rw [if_neg hfit] at hrun
        cases hrun

/-- The loop of `path_depth_cnt` only counts up. -/
theorem depthRounds_le {name path' : Buf} {q : Option Nat} {n : Nat}
    (hrun : nameRounds (fun _ depth => .ok (depth + 1)) left path q name d = .ok (n, path')) :
    d ≤ n := by
  induction left generalizing path q name d with
  | zero => cases hrun
  | succ left ih =>
      rw [nameRounds] at hrun
      cases hload : name.load 0 with
      | error e =>
          simp only [bind, Except.bind, hload] at hrun
          cases hrun
      | ok c =>
          simp only [bind, Except.bind, hload] at hrun
          by_cases hc : c ≠ 0
          · rw [if_pos hc] at hrun
            cases hnext : parseNext path q with
            | error e =>
                simp only [hnext] at hrun
                cases hrun
            | ok r =>
                simp only [hnext] at hrun
                have := ih hrun
                omega
          · rw [if_neg hc] at hrun
            cases hrun
            exact Nat.le_refl _

theorem onPath_strBuf (h : 0 ∉ rest) : OnPath (strBuf (slash :: rest)) 0 rest where
  str := strAt_strBytes (by simpa [slash] using h)
  size := by
    show 0 + 1 + rest.length < (slash :: rest).length + 1
    rw [List.length_cons]
    omega

theorem mem_components {x : Str} (h : x ∈ parsedNames rest) : x ∈ components (slash :: rest) := by
  rw [components_slash, List.mem_filter]
  exact ⟨(List.takeWhile_subset _) h,
    List.mem_takeWhile_imp (p := fun x : Str => decide (x ≠ [])) h⟩

/-- `path_depth_cnt` counts the components that it gets. -/
theorem pathDepthCntAt_eq (stack : Bytes) (h : OnPath path 0 rest)
    (hfits : ∀ c ∈ parsedNames rest, c.length ≤ maxFileNameLen)
    (hstack : component rest ≠ [] ∨ stack 0 = 0) :
    pathDepthCntAt path stack = .ok ((parsedNames rest).length, path) := by
  have hsize := h.size
  have hcall := pathParseAt_fits h (component_le hfits) stack
  have hrounds := @nameRounds_eq rest path 0 path.size Nat (fun _ depth => .ok (depth + 1))
    (fun _ depth => .ok (depth + 1)) stack 0 h hfits hstack (by omega) fun _ _ _ _ _ _ => rfl
  rw [foldlM_depth, Nat.zero_add, hcall] at hrounds
  rw [pathDepthCntAt, hcall]
  exact hrounds

/-- With a byte in the array and no component, `path_depth_cnt` counts that byte. -/
theorem pathDepthCntAt_stack {stack : Bytes} {n : Nat} {path' : Buf} (h : OnPath path 0 rest)
    (hcomp : component rest = []) (hstack : stack 0 ≠ 0)
    (hrun : pathDepthCntAt path stack = .ok (n, path')) : n ≠ 0 := by
  rw [pathDepthCntAt, pathParseAt_fits h (by simp [hcomp])] at hrun
  have hround : nameRounds (fun _ depth => .ok (depth + 1)) (path.size + 1) path
      (if behind rest = [] then none else some (0 + 1 + (component rest).length))
      ((nameBuf stack).putStr 0 (component rest)) 0 = .ok (n, path') := hrun
  rw [nameRounds, load_putStr, hcomp, if_pos rfl] at hround
  simp only [bind, Except.bind, hstack, ne_eq, not_false_eq_true, if_true] at hround
  cases hnext : parseNext path (if behind rest = [] then none else some (0 + 1 + [].length)) with
  | error e =>
      rw [hnext] at hround
      cases hround
  | ok r =>
      rw [hnext] at hround
      have := depthRounds_le hround
      omega

/-- The callers take a path apart rightly exactly when it starts with a slash, no component
stands behind two slashes, and `path_depth_cnt` does not look at an array that nothing was
stored in. -/
theorem pathParsed_iff {path : Str} {stack : Bytes} (hne : path ≠ []) (hstr : 0 ∉ path)
    (hshort : ∀ c ∈ components path, c.length < maxFileNameLen) :
    PathParsed path stack ↔
      path.head? = some slash ∧ SingleSlashes path ∧ (components path ≠ [] ∨ stack 0 = 0) := by
  obtain ⟨c, rest, rfl⟩ := List.exists_cons_of_ne_nil hne
  simp only [List.mem_cons, not_or] at hstr
  have hon := onPath_strBuf hstr.2
  have hfirst : ∀ left, parseNames (left + 1) (strBuf (c :: rest)) 0 =
      parseNames (left + 1) (strBuf (slash :: rest)) 0 := by
    intro left
    rw [parseNames, pathParseAt_first, ← parseNames]
  have hleft : rest.length < (slash :: rest).length + 1 := by
    rw [List.length_cons]
    omega
  constructor
  · intro h
    have hnames := h.names
    rw [hfirst] at hnames
    have hc : c = slash := by
      have hpath := congrArg (fun b : Buf => b.data 0) (parseNames_path hon hnames)
      simpa [strBuf, strBytes] using hpath
    subst hc
    rw [parseNames_eq hon (fun x hx => hshort x (mem_components hx)) hleft] at hnames
    have hall : parsedNames rest = components (slash :: rest) := by
      have := Except.ok.inj hnames
      exact congrArg Prod.fst this
    refine ⟨rfl, (singleSlashes_iff rest).mpr hall, ?_⟩
    by_contra hstack
    simp only [not_or, not_not] at hstack
    rw [hstack.1] at hall
    have hcomp : component rest = [] := by
      by_contra hcomp
      have := component_mem hcomp
      simp [hall] at this
    have hdepth := h.depth
    rw [hstack.1] at hdepth
    exact pathDepthCntAt_stack hon hcomp hstack.2 hdepth rfl
  · rintro ⟨hhead, hsingle, hstack⟩
    obtain rfl : c = slash := by simpa using hhead
    have hall := (singleSlashes_iff rest).mp hsingle
    have hshort' : ∀ x ∈ parsedNames rest, x.length < maxFileNameLen := fun x hx =>
      hshort x (mem_components hx)
    have hfirstName : component rest ≠ [] ∨ stack 0 = 0 := by
      refine hstack.imp_left fun hne hcomp => hne ?_
      rw [← hall, parsedNames_empty hcomp]
    constructor
    · rw [← hall]
      exact parseNames_eq hon hshort' hleft
    · rw [← hall]
      exact pathDepthCntAt_eq _ hon (fun x hx => Nat.le_of_lt (hshort' x hx)) hfirstName

/-- The path `/a/b//`. -/
theorem pathParsed_trailing : PathParsed [47, 97, 47, 98, 47, 47] (fun _ => 1) :=
  (pathParsed_iff (by decide) (by decide) (by decide)).mpr
    ⟨rfl, by decide +kernel, Or.inl (by decide)⟩

/-- The path `a` loses its only component, and its first byte. -/
theorem not_pathParsed_relative : ¬PathParsed [97] (fun _ => 0) := by
  intro h
  have hnames := congrArg (fun r => r.toOption.map Prod.fst) h.names
  revert hnames
  decide

/-! ## Against the functions on strings -/

theorem pathParse_cons (c : UInt8) (rest : Str) :
    pathParse (c :: rest) =
      if (component rest).length ≤ maxFileNameLen then
        .ok (component rest, if behind rest = [] then none else some (behind rest))
      else .error .undefined := rfl

/-- `pathParse` says what the call at a slash stores, and where the rest is. -/
theorem pathParseAt_pathParse {name : Str} {sub : Option Str} (h : OnPath path p rest)
    (hrun : pathParse (slash :: rest) = .ok (name, sub)) (stack : Bytes) :
    pathParseAt path p (nameBuf stack) =
      .ok (sub.map fun _ => p + 1 + name.length, path, (nameBuf stack).putStr 0 name) := by
  rw [pathParse_cons] at hrun
  by_cases hfits : (component rest).length ≤ maxFileNameLen
  · rw [if_pos hfits] at hrun
    cases hrun
    rw [pathParseAt_fits h hfits]
    by_cases hb : behind rest = []
    · rw [if_pos hb, if_pos hb]
      rfl
    · rw [if_neg hb, if_neg hb]
      rfl
  · rw [if_neg hfits] at hrun
    cases hrun

theorem depthLoop_names {sub : Option Str} {name : Str} {n : Nat} (hname : name ≠ [])
    (hsub : sub = if behind rest = [] then none else some (behind rest)) (hcomp : name = component rest)
    (hfits : name.length ≤ maxFileNameLen) (hrun : depthLoop left name sub d = .ok n) :
    (∀ c ∈ parsedNames rest, c.length ≤ maxFileNameLen) ∧ n = d + (parsedNames rest).length := by
  induction left generalizing rest name sub d with
  | zero =>
      cases name with
      | nil => exact absurd rfl hname
      | cons c cs => cases hrun
  | succ left ih =>
      obtain ⟨c, cs, hcs⟩ := List.exists_cons_of_ne_nil hname
      subst hcomp
      rcases behind_cases rest with hb | ⟨more, hb⟩
      · rw [if_pos hb] at hsub
        rw [hsub, hcs] at hrun
        cases hrun
        rw [parsedNames_last hname hb]
        simpa using hfits
      · rw [if_neg (by rw [hb]; exact List.cons_ne_nil _ _), hb] at hsub
        rw [hsub, hcs] at hrun
        have hparse : (do let parsed ← pathParse (slash :: more)
                          depthLoop left parsed.1 parsed.2 (d + 1)) = .ok n := hrun
        rw [pathParse_cons] at hparse
        rw [parsedNames_next hname hb]
        by_cases hmore : (component more).length ≤ maxFileNameLen
        · rw [if_pos hmore] at hparse
          have hloop : depthLoop left (component more)
              (if behind more = [] then none else some (behind more)) (d + 1) = .ok n := hparse
          by_cases hempty : component more = []
          · rw [hempty, depthLoop] at hloop
            cases hloop
            rw [parsedNames_empty hempty]
            simpa using hfits
          · obtain ⟨hall, hn⟩ := ih hempty rfl rfl hmore hloop
            refine ⟨fun x hx => ?_, by rw [List.length_cons]; omega⟩
            rcases List.mem_cons.mp hx with rfl | hx
            · exact hfits
            · exact hall x hx
        · rw [if_neg hmore] at hparse
          cases hparse

/-- A depth that `pathDepthCnt` has is the depth of the bytes, whatever the array holds. -/
theorem pathDepthCntAt_pathDepthCnt {path : Str} {n : Nat} (hstr : 0 ∉ path)
    (hrun : pathDepthCnt path = .ok n) (stack : Bytes) :
    pathDepthCntAt (strBuf path) stack = .ok (n, strBuf (parsedPath path)) := by
  cases path with
  | nil => cases hrun
  | cons c rest =>
      simp only [List.mem_cons, not_or] at hstr
      rw [pathDepthCnt, pathParse_cons] at hrun
      by_cases hfits : (component rest).length ≤ maxFileNameLen
      · rw [if_pos hfits] at hrun
        have hloop : (if component rest = [] then .error .undefined
          else depthLoop (c :: rest).length (component rest)
            (if behind rest = [] then none else some (behind rest)) 0) = .ok n := hrun
        by_cases hcomp : component rest = []
        · rw [if_pos hcomp] at hloop
          cases hloop
        · rw [if_neg hcomp] at hloop
          obtain ⟨hall, hn⟩ := depthLoop_names hcomp rfl rfl hfits hloop
          have hdepth := pathDepthCntAt_eq stack (onPath_strBuf hstr.2) hall (Or.inl hcomp)
          rw [hn, Nat.zero_add]
          unfold pathDepthCntAt at hdepth ⊢
          rw [pathParseAt_first]
          exact hdepth
      · rw [if_neg hfits] at hrun
        cases hrun

end

end OsTruth
