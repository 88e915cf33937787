/-
`path_parse` of `fs/fs.c` on the bytes of a path and of the name array, and the loops that
call it.

`Fs/Path.lean` has the component and the rest of a path as strings.  Here a path is a buffer
that ends with its terminating zero, and `name_store` is a buffer of its own, so an access
behind the end of either is seen.
-/
import OsTruth.Fs.Path
import OsTruth.Library.CString

namespace OsTruth

open ByteString

/-! ## Bytes of a buffer -/

namespace Buf

/-- `*p`. -/
def load (b : Buf) (p : Nat) : Except Fault UInt8 :=
  if p < b.size then .ok (b.data p) else .error .undefined

/-- `*p = c`. -/
def store (b : Buf) (p : Nat) (c : UInt8) : Except Fault Buf := b.put p 1 fun _ => c

end Buf

/-- A string with the zero behind it, and nothing more. -/
def strBuf (s : Str) : Buf := ⟨s.length + 1, strBytes s⟩

/-- `char name[MAX_FILE_NAME_LEN]`. -/
def nameBuf (data : Bytes) : Buf := ⟨maxFileNameLen, data⟩

/-- `char name[MAX_FILE_NAME_LEN] = {0}`, and the array after `memset`. -/
def zeroName : Buf := .zero maxFileNameLen

/-! ## Functions -/

/-- The copy loop of `path_parse`.  Each round reads a byte of the path, so its size is
enough rounds. -/
def copyName (path : Buf) : Nat → Nat → Nat → Buf → Except Fault (Nat × Buf)
  | 0, _, _, _ => .error .undefined
  | left + 1, pathname, nameStore, name => do
      let c ← path.load pathname
      if c ≠ slash ∧ c ≠ 0 then do
        let name ← name.store nameStore c
        copyName path left (pathname + 1) (nameStore + 1) name
      else .ok (pathname, name)

/-- `path_parse`, with the pointer that it returns.  The first condition is an assignment,
and the loop behind it compares the pointer with the character, which no path is at. -/
def pathParseAt (path : Buf) (pathname : Nat) (name : Buf) :
    Except Fault (Option Nat × Buf × Buf) := do
  let path ← path.store pathname slash
  let (pathname, name) ← copyName path path.size (pathname + 1) 0 name
  let c ← path.load pathname
  .ok (if c = 0 then none else some pathname, path, name)

/-- The end of a round in the loop of `path_depth_cnt`, of `search_file` and of
`wash_path`: the array is cleared, and the next component is parsed unless the path is at
its end. -/
def parseNext (path : Buf) : Option Nat → Except Fault (Option Nat × Buf × Buf)
  | none => .ok (none, path, zeroName)
  | some p => pathParseAt path p zeroName

/-- The loop of `path_depth_cnt` and of `wash_path`, with what it does with the array in each
round.  Every round but the last parses, so the size of the path is enough rounds. -/
def nameRounds {σ : Type} (body : Buf → σ → Except Fault σ) :
    Nat → Buf → Option Nat → Buf → σ → Except Fault (σ × Buf)
  | 0, _, _, _, _ => .error .undefined
  | left + 1, path, p, name, x => do
      let c ← name.load 0
      if c ≠ 0 then do
        let x ← body name x
        let (p, path, name) ← parseNext path p
        nameRounds body left path p name x
      else .ok (x, path)

/-- `path_depth_cnt`, with what it leaves of the path.  `name` is not initialised: `stack`
is what the array holds. -/
def pathDepthCntAt (path : Buf) (stack : Bytes) : Except Fault (Nat × Buf) := do
  let (p, path, name) ← pathParseAt path 0 (nameBuf stack)
  nameRounds (fun _ depth => .ok (depth + 1)) (path.size + 1) path p name 0

def readStr (name : Buf) : Nat → Nat → Except Fault Str
  | 0, _ => .error .undefined
  | left + 1, p => do
      let c ← name.load p
      if c = 0 then .ok []
      else do
        let s ← readStr name left (p + 1)
        .ok (c :: s)

/-- The string in a name array, which has to end inside it. -/
def readName (name : Buf) : Except Fault Str := readStr name name.size 0

/-- `strcat(new_abs_path, s)`, on an array of `MAX_PATH_LEN` bytes. -/
def catPath (newAbsPath s : Str) : Except Fault Str :=
  if newAbsPath.length + s.length < maxPathLen then .ok (newAbsPath ++ s) else .error .undefined

/-- A round of `wash_path`.  For `..` the last slash is replaced by a zero, or kept when it
is the first character. -/
def washName (name newAbsPath : Str) : Except Fault Str :=
  if name = [dot, dot] then
    if slash ∈ newAbsPath then
      let front := ((newAbsPath.reverse.dropWhile (· ≠ slash)).drop 1).reverse
      .ok (if front = [] then [slash] else front)
    else .error .undefined
  else if name = [dot] then .ok newAbsPath
  else do
    let newAbsPath ← if newAbsPath = [slash] then .ok newAbsPath else catPath newAbsPath [slash]
    catPath newAbsPath name

/-- `wash_path`, with what it leaves of the old path. -/
def washPath (oldAbsPath : Buf) : Except Fault (Str × Buf) := do
  let c ← oldAbsPath.load 0
  assert (c = slash)
  let (p, path, name) ← pathParseAt oldAbsPath 0 zeroName
  nameRounds (fun name newAbsPath => do washName (← readName name) newAbsPath)
    (path.size + 1) path p name [slash]

/-- The names that a caller gets: it calls `path_parse` on the pointer that came back, until
that is `NULL` or the name is empty. -/
def parseNames : Nat → Buf → Nat → Except Fault (List Str × Buf)
  | 0, _, _ => .error .undefined
  | left + 1, path, p => do
      let (p, path, name) ← pathParseAt path p zeroName
      let s ← readName name
      if s = [] then .ok ([], path)
      else
        match p with
        | none => .ok ([s], path)
        | some p => do
            let (names, path) ← parseNames left path p
            .ok (s :: names, path)

/-! ## One component -/

def component (rest : Str) : Str := rest.takeWhile (· ≠ slash)

/-- The path from the slash behind that component on. -/
def behind (rest : Str) : Str := rest.dropWhile (· ≠ slash)

theorem component_append_behind (rest : Str) : component rest ++ behind rest = rest :=
  List.takeWhile_append_dropWhile

theorem behind_cases (rest : Str) :
    behind rest = [] ∨ ∃ more, behind rest = slash :: more := by
  cases h : behind rest with
  | nil => exact Or.inl rfl
  | cons c more =>
      right
      have hc : ¬(c ≠ slash) := by
        have := List.head?_dropWhile_not (· ≠ slash) rest
        unfold behind at h
        rw [h] at this
        simpa using this
      rw [not_not.mp hc]
      exact ⟨more, rfl⟩

section

variable {path name : Buf} {p q left : Nat} {rest : Str} {c : UInt8}

theorem Buf.load_of_lt (h : p < path.size) : path.load p = .ok (path.data p) := if_pos h

theorem Buf.store_eq (p : Nat) (c : UInt8) : path.store p c =
    if p < path.size then .ok ⟨path.size, splice path.data p 1 fun _ => c⟩
    else .error .undefined := rfl

/-- The array after `cs` was stored from place `q` on. -/
def Buf.putStr (name : Buf) (q : Nat) (cs : Str) : Buf :=
  ⟨name.size, splice name.data q cs.length (strBytes cs)⟩

theorem Buf.putStr_nil (name : Buf) (q : Nat) : name.putStr q [] = name := by
  unfold putStr
  rw [List.length_nil, splice_zero]

theorem Buf.putStr_cons (name : Buf) (q : Nat) (c : UInt8) (cs : Str) :
    Buf.putStr ⟨name.size, splice name.data q 1 fun _ => c⟩ (q + 1) cs =
      name.putStr q (c :: cs) := by
  have hview : view (strBytes (c :: cs)) 1 = strBytes cs := by
    funext k
    simp [view, strBytes, Nat.add_comm 1]
  have hone : splice name.data q 1 (strBytes (c :: cs)) = splice name.data q 1 fun _ => c := by
    apply splice_congr
    intro k hk
    obtain rfl : k = 0 := by omega
    rfl
  unfold putStr
  rw [List.length_cons, Nat.add_comm cs.length 1, splice_add, hview, hone]

/-- The copy loop stores the component, or it runs out of the array. -/
theorem copyName_eq (hs : StrAt path.data p rest) (hsize : p + rest.length < path.size)
    (hleft : rest.length < left) (hq : q ≤ name.size) :
    copyName path left p q name =
      if q + (component rest).length ≤ name.size then
        .ok (p + (component rest).length, name.putStr q (component rest))
      else .error .undefined := by
  induction rest generalizing p q left name with
  | nil =>
      obtain ⟨left, rfl⟩ := Nat.exists_eq_succ_of_ne_zero (Nat.ne_of_gt hleft)
      rw [copyName, Buf.load_of_lt (by simpa using hsize)]
      have hc : path.data p = 0 := hs
      simp [component, bind, Except.bind, hc, Buf.putStr_nil, hq]
  | cons c rest ih =>
      obtain ⟨left, rfl⟩ := Nat.exists_eq_succ_of_ne_zero (Nat.ne_of_gt (Nat.zero_lt_of_lt hleft))
      obtain ⟨hc, hc0, hrest⟩ := hs
      simp only [List.length_cons] at hsize hleft
      rw [copyName, Buf.load_of_lt (by omega), hc]
      by_cases hslash : c = slash
      · simp [component, bind, Except.bind, hslash, Buf.putStr_nil, hq]
      · have hcomp : component (c :: rest) = c :: component rest := by
          simp [component, hslash]
        rw [hcomp, List.length_cons]
        simp only [bind, Except.bind, hslash, hc0, ne_eq, not_false_eq_true, and_self, if_true]
        rw [Buf.store_eq]
        by_cases hlt : q < name.size
        · rw [if_pos hlt]
          have hnext := @ih ⟨name.size, splice name.data q 1 fun _ => c⟩ (p + 1) (q + 1) left
            hrest (by omega) (by omega) hlt
          rw [Buf.putStr_cons, Nat.add_assoc q 1, Nat.add_assoc p 1, Nat.add_comm 1] at hnext
          exact hnext
        · rw [if_neg hlt, if_neg (by omega)]

/-! ## One call -/

/-- `p` points to a slash in front of `rest`. -/
structure OnPath (path : Buf) (p : Nat) (rest : Str) : Prop where
  str : StrAt path.data p (slash :: rest)
  size : p + 1 + rest.length < path.size

theorem OnPath.next {more : Str} (h : OnPath path p rest) (hmore : behind rest = slash :: more) :
    OnPath path (p + 1 + (component rest).length) more := by
  have happ : component rest ++ slash :: more = rest := by
    rw [← hmore]
    exact component_append_behind rest
  have hstr := h.str.2.2
  have hsize := h.size
  rw [← happ] at hstr hsize
  rw [List.length_append, List.length_cons] at hsize
  exact ⟨hstr.append_right, by omega⟩

/-- The first character of a path does not matter: a slash is stored in its place. -/
theorem pathParseAt_first (c : UInt8) (rest : Str) (name : Buf) :
    pathParseAt (strBuf (c :: rest)) 0 name = pathParseAt (strBuf (slash :: rest)) 0 name := by
  have hstore : ∀ c : UInt8, (strBuf (c :: rest)).store 0 slash = .ok (strBuf (slash :: rest)) := by
    intro c
    have hpos : 0 < (strBuf (c :: rest)).size := Nat.succ_pos _
    have hdata : splice (strBytes (c :: rest)) 0 1 (fun _ => slash) = strBytes (slash :: rest) := by
      funext k
      cases k with
      | zero => rfl
      | succ k =>
          rw [splice_outside (Or.inr (by omega))]
          rfl
    rw [Buf.store_eq, if_pos hpos]
    show Except.ok (Buf.mk _ (splice (strBytes (c :: rest)) 0 1 fun _ => slash)) = _
    rw [hdata]
    rfl
  unfold pathParseAt
  rw [hstore c, hstore slash]

/-- A call of `path_parse` at a slash. -/
theorem pathParseAt_eq (h : OnPath path p rest) (name : Buf) :
    pathParseAt path p name =
      if (component rest).length ≤ name.size then
        .ok (if behind rest = [] then none else some (p + 1 + (component rest).length), path,
          name.putStr 0 (component rest))
      else .error .undefined := by
  have hsize := h.size
  have hstore : path.store p slash = .ok path := by
    rw [Buf.store_eq, if_pos (by omega)]
    congr 1
    obtain ⟨n, d⟩ := path
    congr 1
    funext k
    by_cases hk : k = p
    · rw [hk, splice_inside (Nat.le_refl _) (by omega)]
      exact h.str.1.symm
    · exact splice_outside (by omega)
  have hcopy := @copyName_eq path name (p + 1) 0 path.size rest h.str.2.2 hsize (by omega)
    (Nat.zero_le _)
  rw [Nat.zero_add] at hcopy
  unfold pathParseAt
  rw [hstore]
  show (copyName path path.size (p + 1) 0 name >>= _) = _
  rw [hcopy]
  by_cases hfit : (component rest).length ≤ name.size
  · rw [if_pos hfit, if_pos hfit]
    have hlen : (component rest).length ≤ rest.length :=
      (List.takeWhile_prefix _).length_le
    show (path.load (p + 1 + (component rest).length) >>= _) = _
    rw [Buf.load_of_lt (by omega)]
    have hbehind : StrAt path.data (p + 1 + (component rest).length) (behind rest) := by
      have hstr := h.str.2.2
      rw [← component_append_behind rest] at hstr
      exact hstr.append_right
    rcases behind_cases rest with hb | ⟨more, hb⟩
    · rw [hb] at hbehind ⊢
      have hzero : path.data (p + 1 + (component rest).length) = 0 := hbehind
      simp [bind, Except.bind, hzero]
    · rw [hb] at hbehind ⊢
      have hslash : path.data (p + 1 + (component rest).length) = slash := hbehind.1
      simp [bind, Except.bind, hslash, slash]
  · rw [if_neg hfit, if_neg hfit]
    rfl

/-! ## Reading the name -/

theorem readStr_eq {s : Str} (hs : StrAt name.data p s) (hsize : p + s.length < name.size)
    (hleft : s.length < left) : readStr name left p = .ok s := by
  induction s generalizing p left with
  | nil =>
      obtain ⟨left, rfl⟩ := Nat.exists_eq_succ_of_ne_zero (Nat.ne_of_gt hleft)
      rw [readStr, Buf.load_of_lt (by simpa using hsize)]
      exact if_pos hs
  | cons c s ih =>
      obtain ⟨left, rfl⟩ := Nat.exists_eq_succ_of_ne_zero (Nat.ne_of_gt (Nat.zero_lt_of_lt hleft))
      simp only [List.length_cons] at hsize hleft
      rw [readStr, Buf.load_of_lt (by omega), hs.1]
      show (if c = 0 then _ else _) = _
      rw [if_neg hs.2.1, ih hs.2.2 (by omega) (by omega)]
      rfl

theorem strAt_of_readStr {s : Str} (hrun : readStr name left p = .ok s) :
    StrAt name.data p s ∧ p + s.length < name.size := by
  induction left generalizing p s with
  | zero => cases hrun
  | succ left ih =>
      rw [readStr] at hrun
      by_cases hlt : p < name.size
      · rw [Buf.load_of_lt hlt] at hrun
        by_cases hc : name.data p = 0
        · have hend : (Except.ok [] : Except Fault Str) = .ok s := by
            simpa [bind, Except.bind, hc] using hrun
          cases hend
          exact ⟨hc, hlt⟩
        · cases hmore : readStr name left (p + 1) with
          | error e =>
              simp only [bind, Except.bind, hc, if_false, hmore] at hrun
              cases hrun
          | ok t =>
              simp only [bind, Except.bind, hc, if_false, hmore] at hrun
              cases hrun
              obtain ⟨hstr, hsize⟩ := ih hmore
              refine ⟨⟨rfl, hc, hstr⟩, ?_⟩
              rw [List.length_cons]
              omega
      · rw [Buf.load, if_neg hlt] at hrun
        cases hrun

/-- A name is read back when there is a zero behind it in the array. -/
theorem readName_putStr {s : Str} (stack : Bytes) (hs : 0 ∉ s) :
    readName ((nameBuf stack).putStr 0 s) = .ok s ↔
      s.length < maxFileNameLen ∧ stack s.length = 0 := by
  have hzero : splice stack 0 s.length (strBytes s) s.length = stack s.length :=
    splice_outside (Or.inr (Nat.le_of_eq (Nat.zero_add _)))
  constructor
  · intro hrun
    obtain ⟨hstr, hsize⟩ := strAt_of_readStr hrun
    have hend := hstr.get (Nat.le_refl _)
    rw [Nat.zero_add] at hsize hend
    refine ⟨hsize, hzero.symm.trans (hend.trans ?_)⟩
    rw [List.getD_eq_getElem?_getD, List.getElem?_eq_none (Nat.le_refl _)]
    rfl
  · rintro ⟨hlen, hstack⟩
    apply readStr_eq
    · apply strAt_of_get hs
      intro k hk
      show splice stack 0 s.length (strBytes s) (0 + k) = _
      by_cases hlt : k < s.length
      · rw [splice_at hlt, strBytes]
      · obtain rfl : k = s.length := by omega
        rw [Nat.zero_add, hzero, hstack, List.getD_eq_getElem?_getD,
          List.getElem?_eq_none (Nat.le_refl _)]
        rfl
    · rw [Nat.zero_add]
      exact hlen
    · exact hlen

theorem readName_zeroName {s : Str} (hs : 0 ∉ s) (hlen : s.length < maxFileNameLen) :
    readName (zeroName.putStr 0 s) = .ok s :=
  (readName_putStr (fun _ => 0) hs).mpr ⟨hlen, rfl⟩

end

end OsTruth
