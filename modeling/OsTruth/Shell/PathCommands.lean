/-
`mkdir`, `rmdir` and `rm` of `shell/buildin_cmd.c`.

Each washes its path before it makes its call.  So the shell makes no call on a path with `.`
or `..`, and none on the root.
-/
import OsTruth.Shell.Cd

namespace OsTruth

open ByteString Fallible

/-! ## Functions -/

/-- The three commands behind `make_clear_abs_path`.  `differs` is the `strcmp` with `/`. -/
def pathCall (differs : Buf → Except Fault Int) (call : Str → Kern Int) (failed : String)
    (path : Str) (finalPath : Buf) : Kern Built := do
  let r ← StateT.lift (differs finalPath)
  if r ≠ 0 then do
    let pathname ← StateT.lift (readStr finalPath finalPath.size 0)
    let ret ← call pathname
    if ret = 0 then pure ⟨true, finalPath, []⟩
    else pure ⟨false, finalPath, [.printf failed [path]]⟩
  else pure ⟨false, finalPath, []⟩

def buildinPath (differs : Buf → Except Fault Int) (call : Str → Kern Int) (only failed : String)
    (finalPath : Buf) : List Str → Kern Built
  | [path] => do
      let finalPath ← makeClearAbsPath path finalPath
      pathCall differs call failed path finalPath
  | _ => pure ⟨false, finalPath, [.printf only []]⟩

def buildinMkdir (args : List Str) (finalPath : Buf) : Kern Built :=
  buildinPath (fun b => strcmp (strBuf [slash]) 0 b 0) sysMkdir
    "mkdir: only support 1 argument!\n" "mkdir: create directory %s failed\n" finalPath args

def buildinRmdir (args : List Str) (finalPath : Buf) : Kern Built :=
  buildinPath (fun b => strcmp b 0 (strBuf [slash]) 0) sysRmdir
    "rmdir: only support 1 argument!\n" "rmdir: remove %s failed\n" finalPath args

def buildinRm (args : List Str) (finalPath : Buf) : Kern Built :=
  buildinPath (fun b => strcmp b 0 (strBuf [slash]) 0) sysUnlink
    "rm: only support 1 argument!\n" "rm: delete %s failed\n" finalPath args

/-- The three commands, with their calls. -/
inductive PathCommand
  | mkdir
  | rmdir
  | rm

namespace PathCommand

def run : PathCommand → List Str → Buf → Kern Built
  | mkdir => buildinMkdir
  | rmdir => buildinRmdir
  | rm => buildinRm

def call : PathCommand → Str → Kern Int
  | mkdir => sysMkdir
  | rmdir => sysRmdir
  | rm => sysUnlink

def failed : PathCommand → String
  | mkdir => "mkdir: create directory %s failed\n"
  | rmdir => "rmdir: remove %s failed\n"
  | rm => "rm: delete %s failed\n"

end PathCommand

/-! ## The calls -/

/-- What the command returns for the value of its call. -/
def answer (failed : String) (path : Str) (b : Buf) (ret : Int) : Built :=
  if ret = 0 then ⟨true, b, []⟩ else ⟨false, b, [.printf failed [path]]⟩

/-- The command makes the call on the washed path, and none on the root. -/
structure CallsWashed (run : Buf → Kern Built) (call : Str → Kern Int) (failed : String)
    (s : State) (stack : List Str) (path : Str) (finalPath : Buf) : Prop where
  root : stack = [] → ∃ b t, s.Moved s.cur.cwdInodeNr t ∧
    (run finalPath).run s = .ok (⟨false, b, []⟩, t)
  call : stack ≠ [] → PathOk stack ∧ (∀ name ∈ stack, IsKept name) ∧
    ∃ b t, s.Moved s.cur.cwdInodeNr t ∧ (run finalPath).run s =
      ((call (joinPath stack)).run t).map fun r => (answer failed path b r.1, r.2)

section

variable {s : State} {cwd stack : List Str} {path : Str} {finalPath b : Buf}
variable {differs : Buf → Except Fault Int} {call : Str → Kern Int} {failed : String}

theorem absolutePath_eq_root (hstack : ∀ name ∈ stack, name ≠ []) :
    absolutePath stack = [slash] ↔ stack = [] := by
  cases stack with
  | nil => exact iff_of_true rfl rfl
  | cons name stack =>
      refine iff_of_false (fun h => ?_) (List.cons_ne_nil _ _)
      obtain ⟨c, cs, hname⟩ := List.exists_cons_of_ne_nil (hstack name List.mem_cons_self)
      rw [absolutePath, if_neg (List.cons_ne_nil _ _), joinPath, hname] at h
      cases h

theorem pathCall_run (t : State) (call : Str → Kern Int) (failed : String) (path : Str)
    (hdiffers : ∃ r, differs b = .ok r ∧ (r = 0 ↔ absolutePath stack = [slash]))
    (hb : b.Holds 0 (absolutePath stack)) (hstack : ∀ name ∈ stack, name ≠ []) :
    (stack = [] → (pathCall differs call failed path b).run t = .ok (⟨false, b, []⟩, t)) ∧
      (stack ≠ [] → (pathCall differs call failed path b).run t =
        ((call (joinPath stack)).run t).map fun r => (answer failed path b r.1, r.2)) := by
  obtain ⟨r, hr, hzero⟩ := hdiffers
  rw [absolutePath_eq_root hstack] at hzero
  have hread : readStr b b.size 0 = .ok (absolutePath stack) :=
    readStr_eq hb.str hb.size (Nat.lt_of_le_of_lt (Nat.le_add_left _ _) hb.size)
  have hrun : (pathCall differs call failed path b).run t = (if r ≠ 0 then do
      let ret ← call (absolutePath stack)
      if ret = 0 then pure ⟨true, b, []⟩ else pure ⟨false, b, [.printf failed [path]]⟩
      else pure ⟨false, b, []⟩ : Kern Built).run t := by
    rw [pathCall, StateT.run_bind, StateT.run_lift, hr]
    by_cases h0 : r ≠ 0
    · show (if r ≠ 0 then _ else _ : Kern Built).run t = _
      rw [if_pos h0, if_pos h0, StateT.run_bind, StateT.run_lift, hread]
      rfl
    · show (if r ≠ 0 then _ else _ : Kern Built).run t = _
      rw [if_neg h0, if_neg h0]
  refine ⟨fun hnil => ?_, fun hne => ?_⟩
  · rw [hrun, if_neg (not_not_intro (hzero.mpr hnil))]
    rfl
  · rw [hrun, if_pos (fun h0 => hne (hzero.mp h0)), StateT.run_bind, absolutePath, if_neg hne]
    cases (call (joinPath stack)).run t with
    | error e => rfl
    | ok p =>
        obtain ⟨ret, u⟩ := p
        show (if ret = 0 then _ else _ : Kern Built).run u = .ok (answer failed path b ret, u)
        unfold answer
        by_cases hret : ret = 0
        · rw [if_pos hret, if_pos hret]
          rfl
        · rw [if_neg hret, if_neg hret]
          rfl

theorem buildinPath_calls (hs : s.Searchable) (ht : s.DirTree) (hmem : ∀ m, s.supply m = true)
    (h : s.PathTo cwd s.cur.cwdInodeNr) (hfits : PathFits cwd path)
    (hfinal : maxPathLen ≤ finalPath.size) (only : String)
    (hdiffers : ∀ b names, b.Holds 0 (absolutePath names) →
      ∃ r, differs b = .ok r ∧ (r = 0 ↔ absolutePath names = [slash])) :
    CallsWashed (fun finalPath => buildinPath differs call only failed finalPath [path]) call failed
      s (cdTarget cwd path) path finalPath := by
  obtain ⟨b, t, hrun, hb, hmoved⟩ :=
    returns_iff.mp (makeClearAbsPath_returns hs ht hmem h hfits hfinal)
  obtain ⟨hclean, hlen⟩ := cdTarget_ok (h.kept ht) hfits
  have hbuildin : (buildinPath differs call only failed finalPath [path]).run s =
      (pathCall differs call failed path b).run t := by
    rw [buildinPath, StateT.run_bind, hrun]
    rfl
  obtain ⟨hroot, hcall⟩ := pathCall_run t call failed path (hdiffers b _ hb) hb
    fun name hname => (hclean name hname).2.ne
  refine ⟨fun hnil => ⟨b, t, hmoved, hbuildin.trans (hroot hnil)⟩, fun hne => ?_⟩
  rw [absolutePath, if_neg hne] at hlen
  exact ⟨⟨hne, fun name hname => (hclean name hname).2, hlen⟩,
    fun name hname => (hclean name hname).1, b, t, hmoved, hbuildin.trans (hcall hne)⟩

/-- In a tree of directories each command makes its call on the absolute path that the given path
is washed to. -/
theorem path_commands (c : PathCommand) (hs : s.Searchable) (ht : s.DirTree)
    (hmem : ∀ m, s.supply m = true) (h : s.PathTo cwd s.cur.cwdInodeNr) (hfits : PathFits cwd path)
    (hfinal : maxPathLen ≤ finalPath.size) :
    CallsWashed (c.run [path]) c.call c.failed s (cdTarget cwd path) path finalPath := by
  have hslash : (strBuf [slash]).Holds 0 [slash] := holds_strBuf (by decide)
  cases c with
  | mkdir =>
      refine buildinPath_calls hs ht hmem h hfits hfinal "mkdir: only support 1 argument!\n"
        fun b names hb => ?_
      obtain ⟨r, hr, hzero⟩ := strcmp_zero hslash hb
      exact ⟨r, hr, hzero.trans eq_comm⟩
  | rmdir =>
      exact buildinPath_calls hs ht hmem h hfits hfinal "rmdir: only support 1 argument!\n"
        fun b names hb => strcmp_zero hb hslash
  | rm =>
      exact buildinPath_calls hs ht hmem h hfits hfinal "rm: only support 1 argument!\n"
        fun b names hb => strcmp_zero hb hslash

/-- `rmdir d/.` makes its call on `/d`. -/
theorem path_commands_rmdir : ∃ b t, subState.Moved 0 t ∧
    (buildinRmdir [[100, slash, dot]] (.zero maxPathLen)).run subState =
      ((sysRmdir [slash, 100]).run t).map fun r =>
        (answer "rmdir: remove %s failed\n" [100, slash, dot] b r.1, r.2) := by
  have h := subState_shellReady
  have hroot : subState.PathTo [] subState.cur.cwdInodeNr := .root
  have hfits : PathFits [] [100, slash, dot] := ⟨by decide, by decide, by decide⟩
  have hcalls := path_commands .rmdir h.searchable h.tree h.supply hroot hfits
    (Nat.le_refl (Buf.zero maxPathLen).size)
  obtain ⟨-, -, b, t, hmoved, hrun⟩ := hcalls.call (by decide)
  exact ⟨b, t, hmoved, hrun⟩

end

end OsTruth
