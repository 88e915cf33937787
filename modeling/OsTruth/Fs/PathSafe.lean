/-
The calls of `path_parse` that `search_file`, `path_depth_cnt` and `wash_path` make.

The copy loop of `path_parse` is bounded by the path alone and stores no zero, so what it
leaves in an array of 16 bytes depends on the component and on what the array held before.
-/
import OsTruth.Fs.PathNames
import OsTruth.Fs.Fs

namespace OsTruth

open ByteString Fallible

/-! ## The calls -/

/-- The loop of `search_file`: does it come to the call of `path_parse` behind so many
rounds?  The call comes before the type of the entry is looked at. -/
def searchParses : Nat → DirPtr → Str → Option Str → Str → Kern Bool
  | _, _, [], _, _ => pure false
  | k, parentDir, name@(_ :: _), subPath, searchedPath => do
      kassert (searchedPath.length < 512)
      let searchedPath ← StateT.lift (appendName searchedPath name)
      match ← searchDirEntry parentDir name, subPath with
      | some e, some p =>
          match k with
          | 0 => pure true
          | k + 1 => do
              let (name, subPath) ← StateT.lift (pathParse p)
              if e.fType = FileType.directory.code then do
                let _ ← loadInode (← dirInode parentDir)
                dirClose parentDir
                let parentDir ← dirOpen e.iNo
                searchParses k parentDir name subPath searchedPath
              else if e.fType = FileType.regular.code then pure false
              else searchParses k parentDir name subPath searchedPath
      | _, _ => pure false

/-- `search_file`, up to call `k + 1` of `path_parse`. -/
def searchFileParses (pathname : Str) (k : Nat) : Kern Bool :=
  if isRootName pathname then pure false
  else do
    kassert (pathname.head? = some slash ∧ pathname.length > 1 ∧ pathname.length < maxPathLen)
    let (name, subPath) ← StateT.lift (pathParse pathname)
    searchParses k .root name subPath []

/-- A function that takes a path apart, with what decides about its calls: the state of the
file system, or what its array holds at first. -/
inductive PathCaller
  | searchFile (s : State)
  | pathDepthCnt (stack : Bytes)
  | washPath

namespace PathCaller

/-- The array at the first call. -/
def name : PathCaller → Buf
  | searchFile _ | washPath => zeroName
  | pathDepthCnt stack => nameBuf stack

/-- The function calls `path_parse` at all. -/
def Starts (path : Str) : PathCaller → Prop
  | searchFile _ => ¬isRootName path ∧ path.length < maxPathLen
  | pathDepthCnt _ | washPath => True

/-- With a component and a rest from call `k`, the function makes the next call. -/
def GoesOn (path : Str) (k : Nat) : PathCaller → Prop
  | searchFile s => Returns (searchFileParses path k) s fun r _ => r = true
  | pathDepthCnt _ | washPath => True

/-- The function calls `path_parse` for time `k` with this path, pointer and array. -/
inductive Call (path : Str) (f : PathCaller) : Nat → Buf → Nat → Buf → Prop
  | first (h : f.Starts path) : Call path f 0 (strBuf path) 0 f.name
  | next {k p q : Nat} {mem mem' name name' : Buf} (h : Call path f k mem p name)
      (hrun : pathParseAt mem p name = .ok (some q, mem', name')) (hname : name'.data 0 ≠ 0)
      (hgo : f.GoesOn path k) : Call path f (k + 1) mem' q zeroName

/-- A call stores only inside the array, and what the array then holds up to a zero in it is
the component. -/
def GoodCall (mem : Buf) (p : Nat) (name : Buf) : Prop :=
  ∃ r mem' name' rest, pathParseAt mem p name = .ok (r, mem', name') ∧
    StrAt mem.data (p + 1) rest ∧ readName name' = .ok (component rest)

/-- Every call is good. -/
def Safe (path : Str) (f : PathCaller) : Prop :=
  ∀ k mem p name, f.Call path k mem p name → GoodCall mem p name

/-- The array has a zero behind the first component, and every component that the function
comes to leaves room for one. -/
def Fits (path : Str) (f : PathCaller) : Prop :=
  f.Starts path → f.name.data (component (path.drop 1)).length = 0 ∧
    ∀ k c, (parsedNames (path.drop 1))[k]? = some c → (∀ j, j < k → f.GoesOn path j) →
      c.length < maxFileNameLen

end PathCaller

section

variable {f : PathCaller} {rest r : Str} {mem name : Buf} {p k : Nat}

namespace PathCaller

theorem name_eq (f : PathCaller) : f.name = nameBuf f.name.data := by
  cases f <;> rfl

theorem goodCall_iff (h : OnPath mem p r) (stack : Bytes) :
    GoodCall mem p (nameBuf stack) ↔
      (component r).length < maxFileNameLen ∧ stack (component r).length = 0 := by
  rw [← readName_putStr stack h.not_mem]
  constructor
  · rintro ⟨q, mem', name', rest, hrun, hstr, hread⟩
    obtain rfl : rest = r := hstr.unique h.str.2.2
    rw [pathParseAt_eq h] at hrun
    by_cases hfits : (component rest).length ≤ (nameBuf stack).size
    · rw [if_pos hfits] at hrun
      cases hrun
      exact hread
    · rw [if_neg hfits] at hrun
      cases hrun
  · intro hread
    have hfits := ((readName_putStr stack h.not_mem).mp hread).1
    exact ⟨_, _, _, r, pathParseAt_fits h (Nat.le_of_lt hfits) stack, h.str.2.2, hread⟩

/-- Where the calls are, as long as the components fit. -/
structure At (rest : Str) (f : PathCaller) (k : Nat) (mem : Buf) (p : Nat) (name : Buf) (r : Str) :
    Prop where
  path : OnPath mem p r
  names : parsedNames r = (parsedNames rest).drop k
  goesOn : ∀ j, j < k → f.GoesOn (slash :: rest) j
  stack : ∃ b, name = nameBuf b ∧ b (component r).length = 0

/-- The component at a call. -/
theorem At.get (h : At rest f k mem p name r) (hcomp : component r ≠ []) :
    (parsedNames rest)[k]? = some (component r) := by
  have hhead := congrArg (fun l => l[0]?) h.names
  rw [List.getElem?_drop, Nat.add_zero] at hhead
  rw [← hhead]
  rcases behind_cases r with hb | ⟨more, hb⟩
  · rw [parsedNames_last hcomp hb]
    rfl
  · rw [parsedNames_next hcomp hb]
    rfl

theorem At.short (h : At rest f k mem p name r) (hcomp : component r ≠ [])
    (hfits : ∀ k c, (parsedNames rest)[k]? = some c → (∀ j, j < k → f.GoesOn (slash :: rest) j) →
      c.length < maxFileNameLen) : (component r).length < maxFileNameLen :=
  hfits k _ (h.get hcomp) h.goesOn

/-- The call behind a component that fits. -/
theorem At.next {more : Str} (h : At rest f k mem p name r) (hcomp : component r ≠ [])
    (hb : behind r = slash :: more) (hgo : f.GoesOn (slash :: rest) k) :
    At rest f (k + 1) mem (p + 1 + (component r).length) zeroName more where
  path := h.path.next hb
  names := by
    have htail := congrArg (List.drop 1) h.names
    rw [List.drop_drop, parsedNames_next hcomp hb] at htail
    exact htail
  goesOn j hj := by
    rcases Nat.lt_succ_iff_lt_or_eq.mp hj with hlt | rfl
    · exact h.goesOn j hlt
    · exact hgo
  stack := ⟨fun _ => 0, rfl, rfl⟩

theorem At.first (hstr : 0 ∉ rest) (hzero : f.name.data (component rest).length = 0) :
    At rest f 0 (strBuf (slash :: rest)) 0 f.name rest where
  path := onPath_strBuf hstr
  names := rfl
  goesOn j hj := absurd hj (Nat.not_lt_zero j)
  stack := ⟨f.name.data, f.name_eq, hzero⟩

/-- What the first byte of the array says after a call. -/
theorem data_putStr (b : Bytes) (h : OnPath mem p r) (hb : b (component r).length = 0) :
    ((nameBuf b).putStr 0 (component r)).data 0 ≠ 0 ↔ component r ≠ [] := by
  have hload := load_putStr b (component r)
  rw [Buf.load_of_lt (show 0 < maxFileNameLen by decide)] at hload
  rw [Except.ok.inj hload]
  by_cases hcomp : component r = []
  · rw [hcomp] at hb
    simp only [hcomp, if_true]
    exact ⟨fun hne => absurd hb hne, fun hne => absurd rfl hne⟩
  · rw [if_neg hcomp]
    exact ⟨fun _ => hcomp, fun _ => h.headD_ne hcomp⟩

/-- When the components fit, every call is at one of them. -/
theorem Call.at (hstr : 0 ∉ rest) (hfits : f.Fits (slash :: rest))
    (h : f.Call (slash :: rest) k mem p name) :
    f.Starts (slash :: rest) ∧ ∃ r, At rest f k mem p name r := by
  induction h with
  | first hstart => exact ⟨hstart, rest, At.first hstr (hfits hstart).1⟩
  | next _ hrun hname hgo ih =>
      obtain ⟨hstart, r, hat⟩ := ih
      refine ⟨hstart, ?_⟩
      obtain ⟨b, rfl, hb⟩ := hat.stack
      by_cases hcomp : component r = []
      · rw [pathParseAt_fits hat.path (by simp [hcomp])] at hrun
        simp only [Except.ok.injEq, Prod.mk.injEq] at hrun
        obtain ⟨-, -, rfl⟩ := hrun
        exact absurd hcomp ((data_putStr b hat.path hb).mp hname)
      · have hlt := hat.short hcomp (hfits hstart).2
        rw [pathParseAt_fits hat.path (Nat.le_of_lt hlt)] at hrun
        rcases behind_cases r with hbe | ⟨more, hbe⟩
        · rw [if_pos hbe] at hrun
          cases hrun
        · rw [if_neg (by rw [hbe]; exact List.cons_ne_nil _ _)] at hrun
          cases hrun
          exact ⟨more, hat.next hcomp hbe hgo⟩

/-- When every call is good, the calls come to every component that the function goes on
to. -/
theorem Safe.reaches (hsafe : f.Safe (slash :: rest)) (hstart : f.Starts (slash :: rest))
    (hstr : 0 ∉ rest) (hzero : f.name.data (component rest).length = 0) :
    ∀ k, k < (parsedNames rest).length → (∀ j, j < k → f.GoesOn (slash :: rest) j) →
      ∃ mem p name r, f.Call (slash :: rest) k mem p name ∧ At rest f k mem p name r ∧
        component r ≠ [] := by
  have hne : ∀ {k r}, k < (parsedNames rest).length → parsedNames r = (parsedNames rest).drop k →
      component r ≠ [] := by
    intro k r hk hnames hcomp
    rw [parsedNames_empty hcomp] at hnames
    have := congrArg List.length hnames
    rw [List.length_drop] at this
    simp at this
    omega
  intro k
  induction k with
  | zero =>
      intro hk _
      have hat := At.first hstr hzero
      exact ⟨_, _, _, rest, .first hstart, hat, hne hk hat.names⟩
  | succ k ih =>
      intro hk hgo
      obtain ⟨mem, p, name, r, hcall, hat, hcomp⟩ :=
        ih (by omega) fun j hj => hgo j (by omega)
      have hgood := hsafe k mem p name hcall
      obtain ⟨b, rfl, hb⟩ := hat.stack
      have hlt := ((goodCall_iff hat.path b).mp hgood).1
      have hrun := pathParseAt_fits hat.path (Nat.le_of_lt hlt) b
      rcases behind_cases r with hbe | ⟨more, hbe⟩
      · have := congrArg List.length hat.names
        rw [parsedNames_last hcomp hbe, List.length_drop] at this
        simp at this
        omega
      · rw [if_neg (by rw [hbe]; exact List.cons_ne_nil _ _)] at hrun
        have hnext := hat.next hcomp hbe (hgo k (by omega))
        exact ⟨_, _, _, more, .next hcall hrun ((data_putStr b hat.path hb).mpr hcomp)
          (hgo k (by omega)), hnext, hne hk hnext.names⟩

/-- Every call is good exactly when the components that the function comes to fit and the
first leaves a zero behind it. -/
theorem safe_iff {path : Str} (f : PathCaller) (habs : path.head? = some slash) (hstr : 0 ∉ path) :
    f.Safe path ↔ f.Fits path := by
  cases path with
  | nil => cases habs
  | cons c rest =>
      obtain rfl : c = slash := by simpa using habs
      simp only [List.mem_cons, not_or] at hstr
      constructor
      · intro hsafe hstart
        have hfirst := hsafe 0 _ _ _ (.first hstart)
        rw [f.name_eq, goodCall_iff (onPath_strBuf hstr.2)] at hfirst
        refine ⟨hfirst.2, fun k c hc hgo => ?_⟩
        obtain ⟨mem, p, name, r, hcall, hat, hcomp⟩ :=
          hsafe.reaches hstart hstr.2 hfirst.2 k (List.getElem?_eq_some_iff.mp hc).1 hgo
        have hgood := hsafe k mem p name hcall
        obtain ⟨b, rfl, hb⟩ := hat.stack
        have hget := hat.get hcomp
        rw [show (parsedNames rest)[k]? = some c from hc] at hget
        rw [Option.some.inj hget]
        exact ((goodCall_iff hat.path b).mp hgood).1
      · intro hfits k mem p name hcall
        obtain ⟨hstart, r, hat⟩ := hcall.at hstr.2 hfits
        obtain ⟨b, rfl, hb⟩ := hat.stack
        rw [goodCall_iff hat.path]
        refine ⟨?_, hb⟩
        by_cases hcomp : component r = []
        · rw [hcomp]
          decide
        · exact hat.short hcomp (hfits hstart).2

/-- The components of `/a/b` fit. -/
theorem safe_two : washPath.Safe [slash, 97, slash, 98] := by
  apply (safe_iff washPath rfl (by decide)).mpr
  intro _
  refine ⟨rfl, fun k c hc _ => ?_⟩
  have hmem : c ∈ parsedNames [97, slash, 98] := List.mem_iff_getElem?.mpr ⟨k, hc⟩
  have hall : ∀ c ∈ parsedNames [97, slash, 98], c.length < maxFileNameLen := by decide
  exact hall c hmem

/-- Sixteen characters fill the array, and no zero is left in it. -/
theorem not_safe_sixteen : ¬washPath.Safe (slash :: List.replicate 16 97) := by
  intro hsafe
  have hfirst := hsafe 0 _ _ _ (.first True.intro)
  have hon : OnPath (strBuf (slash :: List.replicate 16 97)) 0 (List.replicate 16 97) :=
    onPath_strBuf (by decide)
  have hfits := (goodCall_iff hon _).mp hfirst
  exact absurd hfits.1 (by decide)

end PathCaller

/-! ## Against `search_file` and `wash_path` -/

/-- A loop of `search_file` that returns runs to any of its calls. -/
theorem searchParses_returns {left : Nat} {s : State} {d : DirPtr} {n : UInt32}
    {e : Option DirEntry} {name : Str} {sub : Option Str} {path : Str} (k : Nat)
    (h : Returns (searchLoop left d n e name sub path) s fun _ _ => True) :
    Returns (searchParses k d name sub path) s fun _ _ => True := by
  induction left generalizing s d n e name sub path k with
  | zero =>
      cases name with
      | nil =>
          rw [searchParses]
          exact True.intro
      | cons c name =>
          rw [searchLoop] at h
          exact h.elim
  | succ left ih =>
      cases name with
      | nil =>
          rw [searchParses]
          exact True.intro
      | cons c name =>
          rw [searchLoop, Returns, Wp.bind] at h
          rw [searchParses, Returns, Wp.bind]
          refine h.call fun _ s₁ h₁ => ?_
          rw [Wp.bind] at h₁ ⊢
          refine h₁.call fun path' s₂ h₂ => ?_
          rw [Wp.bind] at h₂ ⊢
          refine h₂.call fun r s₃ h₃ => ?_
          cases r with
          | none => exact True.intro
          | some e' =>
              cases sub with
              | none => exact True.intro
              | some p =>
                  cases k with
                  | zero => exact True.intro
                  | succ k =>
                      unfold searchFound at h₃
                      rw [Wp.bind] at h₃ ⊢
                      refine h₃.call fun next s₄ h₄ => ?_
                      rw [Wp.ite] at h₄ ⊢
                      refine ⟨fun hdir => ?_, fun hdir => ?_⟩
                      · have h₅ := h₄.1 hdir
                        rw [Wp.bind] at h₅ ⊢
                        refine h₅.call fun q s₅ h₆ => ?_
                        rw [Wp.bind] at h₆ ⊢
                        refine h₆.call fun i s₆ h₇ => ?_
                        rw [Wp.bind] at h₇ ⊢
                        refine h₇.call fun _ s₇ h₈ => ?_
                        rw [Wp.bind] at h₈ ⊢
                        exact h₈.call fun d' s₈ h₉ => ih k h₉
                      · have h₅ := h₄.2 hdir
                        rw [Wp.ite] at h₅ ⊢
                        exact ⟨fun _ => True.intro, fun hreg => ih k (h₅.2 hreg)⟩

/-- When `search_file` returns, it is decided which calls of `path_parse` it made. -/
theorem searchFileParses_returns {s : State} {path : Str} (k : Nat)
    (h : Returns (searchFile path) s fun _ _ => True) :
    Returns (searchFileParses path k) s fun _ _ => True := by
  rw [searchFile, Returns, Wp.ite] at h
  rw [searchFileParses, Returns, Wp.ite]
  refine ⟨fun _ => True.intro, fun hroot => ?_⟩
  have h₁ := h.2 hroot
  rw [Wp.bind] at h₁ ⊢
  refine h₁.call fun _ s₁ h₂ => ?_
  rw [Wp.bind] at h₂ ⊢
  exact h₂.call fun next s₂ h₃ => searchParses_returns k h₃

/-- The rounds of `wash_path` on the components of a path that fit. -/
theorem washPath_rounds {b : Buf} (hload : b.load 0 = .ok slash) (hon : OnPath b 0 rest)
    (hshort : ∀ c ∈ parsedNames rest, c.length < maxFileNameLen) :
    washPath b = (do
      let newAbsPath ← (parsedNames rest).foldlM (fun newAbsPath c => washName c newAbsPath) [slash]
      .ok (newAbsPath, b)) := by
  have hsize := hon.size
  have hrounds := @nameRounds_eq rest b 0 b.size Str
    (fun name newAbsPath => do washName (← readName name) newAbsPath)
    (fun c newAbsPath => washName c newAbsPath) (fun _ => 0) [slash] hon
    (fun c hc => Nat.le_of_lt (hshort c hc)) (.inr rfl) (by omega) (by
      intro a c x ha hc h0
      obtain rfl : a = fun _ => 0 := ha.elim id id
      show (readName (zeroName.putStr 0 c) >>= fun s => washName s x) = washName c x
      rw [readName_zeroName h0 (hshort c hc)]
      rfl)
  have hcall := pathParseAt_fits hon
    (component_le fun c hc => Nat.le_of_lt (hshort c hc)) fun _ => 0
  rw [hcall] at hrounds
  rw [washPath, hload, show zeroName = nameBuf fun _ => 0 from rfl]
  simp only [bind, Except.bind]
  rw [hcall]
  exact hrounds

end

end OsTruth
