/-
`cmd_parse` of `shell/shell.c`.

A pointer into the command string is a place in its buffer.  The log of `argv` keeps every index
stored to, also behind the array, where the memory is not that of the string.  Each loop reads a
byte of the string in each round, so the size of its buffer is enough rounds.
-/
import OsTruth.Lib.Strings
import OsTruth.Library.Words

namespace OsTruth

open ByteString Separated

/-! ## The function -/

def maxArgNr : Nat := 16

/-- `argv` with the indices stored to.  `none` is `NULL`. -/
structure Argv where
  get : Nat → Option Nat
  stores : List Nat

def Argv.store (argv : Argv) (i : Nat) (p : Option Nat) : Argv where
  get := fun j => if j = i then p else argv.get j
  stores := argv.stores ++ [i]

/-- The first loop of `cmd_parse`. -/
def clearArgv (argv : Argv) : Argv :=
  (List.range maxArgNr).foldl (fun argv argIdx => argv.store argIdx none) argv

/-- `while (test(*next)) next ++;` -/
def scanWhile (cmdStr : Buf) (test : UInt8 → Bool) : Nat → Nat → Except Fault Nat
  | 0, _ => .error .undefined
  | left + 1, next => do
      let c ← cmdStr.load next
      if test c then scanWhile cmdStr test left (next + 1) else .ok next

/-- `while (*next == token) next ++;` -/
def skipTokens (cmdStr : Buf) (token : UInt8) (next : Nat) : Except Fault Nat :=
  scanWhile cmdStr (fun c => c = token) cmdStr.size next

/-- `while (*next && *next != token) next ++;` -/
def skipWord (cmdStr : Buf) (token : UInt8) (next : Nat) : Except Fault Nat :=
  scanWhile cmdStr (fun c => c ≠ 0 ∧ c ≠ token) cmdStr.size next

/-- `if (*next) *next ++ = 0;` -/
def endWord (cmdStr : Buf) (next : Nat) : Except Fault (Buf × Nat) := do
  let c ← cmdStr.load next
  if c ≠ 0 then do
    let cmdStr ← cmdStr.store next 0
    .ok (cmdStr, next + 1)
  else .ok (cmdStr, next)

/-- What `cmd_parse` returns, with what it leaves behind. -/
structure CmdParsed where
  ret : Int
  cmdStr : Buf
  argv : Argv

/-- The outer loop of `cmd_parse`. -/
def cmdParseLoop (token : UInt8) : Nat → Buf → Argv → Nat → Nat → Except Fault CmdParsed
  | 0, _, _, _, _ => .error .undefined
  | left + 1, cmdStr, argv, next, argc => do
      let c ← cmdStr.load next
      if c = 0 then .ok ⟨argc, cmdStr, argv⟩
      else do
        let next ← skipTokens cmdStr token next
        let c ← cmdStr.load next
        if c = 0 then .ok ⟨argc, cmdStr, argv⟩
        else do
          let argv := argv.store argc (some next)
          let next ← skipWord cmdStr token next
          let (cmdStr, next) ← endWord cmdStr next
          -- the test comes behind the store
          if maxArgNr < argc then .ok ⟨-1, cmdStr, argv⟩
          else cmdParseLoop token left cmdStr argv next (argc + 1)

/-- `cmd_parse`, where `argv` held anything before. -/
def cmdParse (cmdStr : Buf) (p : Nat) (argv : Nat → Option Nat) (token : UInt8) :
    Except Fault CmdParsed :=
  cmdParseLoop token cmdStr.size cmdStr (clearArgv ⟨argv, []⟩) p 0

/-! ## What it should do -/

/-- `argv[i]` points to the word with `i` words in front of it, and a zero ends that word. -/
def PointsTo (token : UInt8) (s : Str) (p : Nat) (r : CmdParsed) (i : Nat) (word : Str) : Prop :=
  ∃ k, r.argv.get i = some (p + k) ∧ r.cmdStr.Holds (p + k) word ∧
    words token (s.take k) = (words token s).take i

/-- `cmd_parse` on the string `s` at `p` stores inside `argv` only and takes the string apart, or
says that it has too many words. -/
def CmdParseRight (cmdStr : Buf) (p : Nat) (s : Str) (argv : Nat → Option Nat)
    (token : UInt8) : Prop :=
  ∃ r, cmdParse cmdStr p argv token = .ok r ∧
    (∀ i ∈ r.argv.stores, i < maxArgNr) ∧
    ((words token s).length ≤ maxArgNr →
      r.ret = (words token s).length ∧
        (∀ i word, (words token s)[i]? = some word → PointsTo token s p r i word) ∧
        ∀ i, (words token s).length ≤ i → i < maxArgNr → r.argv.get i = none) ∧
    (maxArgNr < (words token s).length → r.ret = -1)

/-! ## One word -/

section

variable {b b' : Buf} {token : UInt8} {s rest word ys : Str} {a : Argv} {p q n left argc : Nat}

theorem Buf.Holds.load (h : b.Holds p s) : b.load p = .ok (s.headD 0) := by
  cases s with
  | nil => exact h.load_nil
  | cons c s => exact h.load_cons

theorem Buf.Holds.headD_ne (h : b.Holds p s) (hne : s ≠ []) : s.headD 0 ≠ 0 := by
  cases s with
  | nil => exact absurd rfl hne
  | cons c s => exact h.ne_zero

theorem Buf.Holds.length_lt (h : b.Holds p s) : s.length < b.size :=
  Nat.lt_of_le_of_lt (Nat.le_add_left _ _) h.size

theorem Buf.Holds.dropWhile (h : b.Holds p s) (test : UInt8 → Bool) :
    b.Holds (p + (s.takeWhile test).length) (s.dropWhile test) := by
  rw [← List.takeWhile_append_dropWhile (p := test) (l := s)] at h
  exact h.append_right

/-- A scan that stops at the zero stops where the test first fails. -/
theorem scanWhile_eq {test : UInt8 → Bool} (hzero : test 0 = false) (h : b.Holds p s)
    (hleft : s.length < left) :
    scanWhile b test left p = .ok (p + (s.takeWhile test).length) := by
  induction s generalizing p left with
  | nil =>
    obtain ⟨left, rfl⟩ := Nat.exists_eq_succ_of_ne_zero (Nat.ne_of_gt hleft)
    rw [scanWhile, h.load_nil]
    show (if test 0 then _ else _) = _
    rw [hzero]
    rfl
  | cons c s ih =>
    obtain ⟨left, rfl⟩ := Nat.exists_eq_succ_of_ne_zero (Nat.ne_of_gt (Nat.zero_lt_of_lt hleft))
    rw [scanWhile, h.load_cons]
    show (if test c then _ else _) = _
    by_cases hc : test c
    · rw [if_pos hc, ih h.tail (Nat.lt_of_succ_lt_succ hleft), List.takeWhile_cons_of_pos hc,
        List.length_cons, Nat.add_assoc, Nat.add_comm 1]
    · rw [if_neg hc, List.takeWhile_cons_of_neg hc]
      rfl

theorem skipTokens_eq (htoken : token ≠ 0) (h : b.Holds p s) :
    skipTokens b token p = .ok (p + (s.takeWhile (· = token)).length) :=
  scanWhile_eq (by simpa using htoken.symm) h h.length_lt

theorem skipWord_eq (h : b.Holds p (word ++ rest)) (hword : token ∉ word)
    (hrest : rest.headD token = token) : skipWord b token p = .ok (p + word.length) := by
  have htake : (word ++ rest).takeWhile (fun c => c ≠ 0 ∧ c ≠ token) = word := by
    rw [List.takeWhile_append_of_pos]
    · cases rest with
      | nil => simp
      | cons c rest =>
        have hc : c = token := hrest
        simp [hc]
    · intro c hc
      have hzero : c ≠ 0 := fun h0 => h.not_mem (by simp [← h0, hc])
      have htok : c ≠ token := fun ht => hword (ht ▸ hc)
      simp [hzero, htok]
  rw [skipWord, scanWhile_eq (by simp) h h.length_lt, htake]

/-- The end of a word is the end of the string, or a separator that becomes a zero. -/
theorem endWord_eq (htoken : token ≠ 0) (h : b.Holds q rest)
    (hrest : rest = [] ∧ ys = [] ∨ rest = token :: ys) :
    ∃ b' n, endWord b q = .ok (b', n) ∧ b'.Holds n ys ∧ b'.size = b.size ∧ b'.data q = 0 ∧
      (∀ k < q, b'.data k = b.data k) ∧ n + ys.length = q + rest.length ∧ q ≤ n := by
  rcases hrest with ⟨rfl, rfl⟩ | rfl
  · refine ⟨b, q, ?_, h, rfl, h.str, fun _ _ => rfl, rfl, Nat.le_refl q⟩
    rw [endWord, h.load_nil]
    rfl
  · have hq : q < b.size := Nat.lt_of_le_of_lt (Nat.le_add_right _ _) h.size
    have hload : endWord b q =
        .ok (⟨b.size, splice b.data q 1 fun _ => 0⟩, q + 1) := by
      rw [endWord, h.load_cons]
      show (if token ≠ 0 then _ else _) = _
      rw [if_pos htoken, Buf.store_eq, if_pos hq]
      rfl
    have hstr : StrAt (splice b.data q 1 fun _ => 0) (q + 1) ys :=
      h.tail.str.splice_before (Nat.le_refl _)
    refine ⟨_, _, hload, ⟨hstr, h.tail.size⟩, rfl, ?_, ?_, ?_, ?_⟩
    · show splice b.data q 1 (fun _ => 0) q = 0
      rw [splice_inside (Nat.le_refl _) (by omega)]
    · intro k hk
      show splice b.data q 1 (fun _ => 0) k = b.data k
      rw [splice_outside (.inl hk)]
    · rw [List.length_cons]
      omega
    · omega

/-- What a round that finds a word at `q` leaves in the buffer, with `ys` still to come at `n`. -/
structure AfterWord (b : Buf) (next : Nat) (s word ys : Str) (q : Nat) (b' : Buf) (n : Nat) :
    Prop where
  holds : b'.Holds n ys
  size : b'.size = b.size
  stop : b'.data (q + word.length) = 0
  front : ∀ k < q + word.length, b'.data k = b.data k
  length : n + ys.length = next + s.length
  le : q + word.length ≤ n

/-- A round of the outer loop on a string with a word. -/
theorem cmdParseLoop_word (htoken : token ≠ 0) (h : b.Holds p s)
    (htail : s.dropWhile (· = token) = word ++ rest) (hne : word ≠ []) (hmem : token ∉ word)
    (hrest : rest = [] ∧ ys = [] ∨ rest = token :: ys)
    (hq : q = p + (s.takeWhile (· = token)).length) :
    ∃ b' n, AfterWord b p s word ys q b' n ∧
      ∀ left a argc, cmdParseLoop token (left + 1) b a p argc =
        if maxArgNr < argc then .ok ⟨-1, b', a.store argc (some q)⟩
        else cmdParseLoop token left b' (a.store argc (some q)) n (argc + 1) := by
  have happ : s.takeWhile (· = token) ++ (word ++ rest) = s := by
    rw [← htail]
    exact List.takeWhile_append_dropWhile
  have htail' : b.Holds q (word ++ rest) := by
    rw [hq, ← htail]
    exact h.dropWhile _
  have hlen : p + s.length = q + (word ++ rest).length := by
    rw [hq, ← congrArg List.length happ, List.length_append]
    omega
  have hhead : rest.headD token = token := by rcases hrest with ⟨rfl, -⟩ | rfl <;> rfl
  have ⟨b', n, hend, hys, hsize, hstop, hfront, hn, hle⟩ :=
    endWord_eq htoken htail'.append_right hrest
  refine ⟨b', n, ⟨hys, hsize, hstop, hfront, ?_, hle⟩, ?_⟩
  · rw [hn, hlen, List.length_append]
    omega
  · intro left a argc
    have hs : s.headD 0 ≠ 0 := h.headD_ne fun h0 => hne (by rw [h0] at happ; simp_all)
    have hword : (word ++ rest).headD 0 ≠ 0 := htail'.headD_ne (by simp [hne])
    rw [cmdParseLoop, h.load]
    show (if s.headD 0 = 0 then _ else _) = _
    rw [if_neg hs, skipTokens_eq htoken h, ← hq]
    show (do
      let c ← b.load q
      _) = _
    rw [htail'.load]
    show (if (word ++ rest).headD 0 = 0 then _ else _) = _
    rw [if_neg hword, skipWord_eq htail' hmem hhead]
    show (do
      let (cmdStr, next) ← endWord b (q + word.length)
      _) = _
    rw [hend]
    rfl

/-- A string of separators is read to its end. -/
theorem cmdParseLoop_nil (htoken : token ≠ 0) (h : b.Holds p s)
    (htail : s.dropWhile (· = token) = []) (left : Nat) (a : Argv) (argc : Nat) :
    cmdParseLoop token (left + 1) b a p argc = .ok ⟨argc, b, a⟩ := by
  rw [cmdParseLoop, h.load]
  show (if s.headD 0 = 0 then _ else _) = _
  by_cases hs : s = []
  · rw [hs]
    rfl
  · have happ : s.takeWhile (· = token) = s := by
      have := List.takeWhile_append_dropWhile (p := (· = token)) (l := s)
      rwa [htail, List.append_nil] at this
    have hend : b.Holds (p + s.length) [] := by
      rw [← List.append_nil s] at h
      exact h.append_right
    rw [if_neg (h.headD_ne hs), skipTokens_eq htoken h, happ]
    show (do
      let c ← b.load (p + s.length)
      _) = _
    rw [hend.load_nil]
    rfl

/-- The word is there in every buffer that agrees up to `n`. -/
theorem AfterWord.holdsWord {d : Buf} (hw : AfterWord b p s word ys q b' n)
    (h : b.Holds q (word ++ rest)) (hsize : d.size = b'.size) (hd : ∀ k ≤ n, d.data k = b'.data k) : d.Holds q word where
  str := by
    have hmem := h.not_mem
    rw [List.mem_append, not_or] at hmem
    apply strAt_of_get hmem.1
    intro k hk
    have hle := hw.le
    rw [hd (q + k) (by omega)]
    rcases Nat.lt_or_eq_of_le hk with hlt | rfl
    · rw [hw.front (q + k) (by omega), h.str.get (by rw [List.length_append]; omega)]
      simp [List.getElem?_append_left hlt]
    · rw [hw.stop]
      simp
  size := by
    have hend := h.size
    rw [List.length_append] at hend
    rw [hsize, hw.size]
    omega

/-! ## All words -/

/-- What the outer loop does from `next` on, with `argc` words in `argv`. -/
structure Parses (token : UInt8) (s : Str) (p argc : Nat) (a : Argv) (b : Buf) (r : CmdParsed) :
    Prop where
  size : r.cmdStr.size = b.size
  front : ∀ k ≤ p, r.cmdStr.data k = b.data k
  stores : r.argv.stores =
    a.stores ++ List.range' argc (min (words token s).length (maxArgNr + 2 - argc))
  ret : r.ret = if argc + (words token s).length ≤ maxArgNr + 1
    then ((argc + (words token s).length : Nat) : Int) else -1
  kept : ∀ j, j < argc ∨ argc + (words token s).length ≤ j → r.argv.get j = a.get j
  points : ∀ i word, (words token s)[i]? = some word → argc + i ≤ maxArgNr + 1 →
    ∃ k, r.argv.get (argc + i) = some (p + k) ∧ r.cmdStr.Holds (p + k) word ∧
      words token (s.take k) = (words token s).take i

theorem parses_nil (hwords : words token s = []) (hargc : argc ≤ maxArgNr + 1) :
    Parses token s p argc a b ⟨argc, b, a⟩ where
  size := rfl
  front := fun _ _ => rfl
  stores := by simp [hwords]
  ret := by rw [hwords, if_pos (by simpa using hargc)]; rfl
  kept := fun _ _ => rfl
  points := by simp [hwords]

/-- The words in front of what comes behind the word. -/
theorem words_take (hmem : token ∉ word) (hne : word ≠ [])
    (htail : s.dropWhile (· = token) = word ++ token :: ys) (j : Nat) :
    words token (s.take ((s.takeWhile (· = token)).length + word.length + 1 + j)) =
      word :: words token (ys.take j) := by
  have happ : s.takeWhile (· = token) ++ (word ++ token :: ys) = s := by
    rw [← htail]
    exact List.takeWhile_append_dropWhile
  have htake : s.take ((s.takeWhile (· = token)).length + word.length + 1 + j) =
      s.takeWhile (· = token) ++ (word ++ token :: ys.take j) := by
    conv_lhs =>
      arg 2
      rw [← happ]
    rw [Nat.add_assoc, Nat.add_assoc, List.take_length_add_append, List.take_length_add_append,
      Nat.add_comm 1, List.take_succ_cons]
  rw [htake, words_run (mem_takeWhile_sep token s), words_append_sep, words_word hmem hne]
  rfl

theorem take_takeWhile (token : UInt8) (s : Str) :
    s.take (s.takeWhile (· = token)).length = s.takeWhile (· = token) := by
  conv_lhs =>
    arg 2
    rw [← List.takeWhile_append_dropWhile (p := (· = token)) (l := s)]
  rw [List.take_left]

/-- The words of a round and those of the rounds behind it. -/
theorem Parses.cons {r : CmdParsed} (hw : AfterWord b p s word ys q b' n)
    (hq : q = p + (s.takeWhile (· = token)).length) (hne : word ≠ [])
    (hhere : r.cmdStr.Holds q word) (hwords : words token s = word :: words token ys)
    (hargc : argc ≤ maxArgNr)
    (htake : ∀ j, words token ys ≠ [] →
      words token (s.take (n - p + j)) = word :: words token (ys.take j))
    (h : Parses token ys n (argc + 1) (a.store argc (some q)) b' r) :
    Parses token s p argc a b r where
  size := h.size.trans hw.size
  front := by
    intro k hk
    have hlen := List.length_pos_iff.mpr hne
    have hle := hw.le
    rw [h.front k (by omega), hw.front k (by omega)]
  stores := by
    have hmin : min (words token s).length (maxArgNr + 2 - argc) =
        min (words token ys).length (maxArgNr + 2 - (argc + 1)) + 1 := by
      rw [hwords, List.length_cons]
      omega
    rw [h.stores, hmin, List.range'_succ]
    simp [Argv.store]
  ret := by
    rw [h.ret, hwords, List.length_cons, Nat.add_assoc, Nat.add_comm 1]
  kept := by
    intro j hj
    rw [hwords, List.length_cons] at hj
    rw [h.kept j (by omega)]
    exact if_neg (by omega)
  points := by
    intro i x hx hi
    rw [hwords] at hx ⊢
    cases i with
    | zero =>
      obtain rfl : word = x := by simpa using hx
      exists (s.takeWhile (· = token)).length
      rw [← hq, take_takeWhile, words_takeWhile]
      refine ⟨?_, hhere, rfl⟩
      rw [Nat.add_zero, h.kept argc (.inl (by omega))]
      exact if_pos rfl
    | succ i =>
      rw [List.getElem?_cons_succ] at hx
      have hne' : words token ys ≠ [] := by
        intro h0
        simp [h0] at hx
      have ⟨k, hget, hholds, hk⟩ := h.points i x hx (by omega)
      have hle := hw.le
      have hn : p + (n - p + k) = n + k := by omega
      exists n - p + k
      rw [hn, htake k hne', hk, List.take_succ_cons, ← hget, Nat.add_assoc, Nat.add_comm 1]
      exact ⟨rfl, hholds, rfl⟩

/-- The round that finds `argv` too full. -/
theorem parses_full (hw : AfterWord b p s word ys q b' n)
    (hq : q = p + (s.takeWhile (· = token)).length) (hne : word ≠ []) (hhere : b'.Holds q word)
    (hwords : words token s = word :: words token ys) (hargc : argc = maxArgNr + 1) :
    Parses token s p argc a b ⟨-1, b', a.store argc (some q)⟩ where
  size := hw.size
  front := by
    intro k hk
    have hlen := List.length_pos_iff.mpr hne
    exact hw.front k (by omega)
  stores := by
    have hmin : min (words token s).length (maxArgNr + 2 - argc) = 1 := by
      rw [hwords, List.length_cons]
      omega
    rw [hmin]
    rfl
  ret := by rw [hwords, List.length_cons, if_neg (by omega)]
  kept := by
    intro j hj
    rw [hwords, List.length_cons] at hj
    exact if_neg (by omega)
  points := by
    intro i x hx hi
    obtain rfl : i = 0 := by omega
    obtain rfl : word = x := by simpa [hwords] using hx
    exists (s.takeWhile (· = token)).length
    rw [← hq, take_takeWhile, words_takeWhile]
    exact ⟨if_pos rfl, hhere, rfl⟩

/-- The outer loop. -/
theorem cmdParseLoop_parses (htoken : token ≠ 0) (h : b.Holds p s) (hargc : argc ≤ maxArgNr + 1)
    (hleft : s.length < left) :
    ∃ r, cmdParseLoop token left b a p argc = .ok r ∧ Parses token s p argc a b r := by
  induction left generalizing b a p argc s with
  | zero => omega
  | succ left ih =>
    rcases words_cases token s with ⟨htail, hwords⟩ | ⟨word, rest, htail, hne, hmem, hrest⟩
    · exact ⟨_, cmdParseLoop_nil htoken h htail left a argc, parses_nil hwords hargc⟩
    · have ⟨ys, hys, hwords⟩ : ∃ ys, (rest = [] ∧ ys = [] ∨ rest = token :: ys) ∧
          words token s = word :: words token ys := by
        rcases hrest with ⟨hnil, hwords⟩ | ⟨ys, hys, hwords⟩
        · exact ⟨[], .inl ⟨hnil, rfl⟩, by rw [hwords, words_nil]⟩
        · exact ⟨ys, .inr hys, hwords⟩
      obtain ⟨q, hq⟩ : ∃ q, q = p + (s.takeWhile (· = token)).length := ⟨_, rfl⟩
      have ⟨b', n, hw, hround⟩ := cmdParseLoop_word htoken h htail hne hmem hys hq
      have hat := h.dropWhile (· = token)
      rw [htail, ← hq] at hat
      rw [hround]
      split
      case isTrue hfull =>
        exact ⟨_, rfl, parses_full hw hq hne (hw.holdsWord hat rfl fun _ _ => rfl) hwords
          (by omega)⟩
      case isFalse hroom =>
        have hlen := hw.length
        have hle := hw.le
        have hpos := List.length_pos_iff.mpr hne
        have htake (j : Nat) (hmore : words token ys ≠ []) :
            words token (s.take (n - p + j)) = word :: words token (ys.take j) := by
          rcases hys with ⟨-, rfl⟩ | rfl
          · simp at hmore
          · have hs : s.length = (s.takeWhile (· = token)).length +
                (word.length + (ys.length + 1)) := by
              have := congrArg List.length
                (List.takeWhile_append_dropWhile (p := (· = token)) (l := s))
              rw [htail] at this
              simpa using this.symm
            rw [← words_take hmem hne htail, show n - p =
              (s.takeWhile (· = token)).length + word.length + 1 by omega]
        have ⟨r, hr, hparses⟩ : ∃ r,
            cmdParseLoop token left b' (a.store argc (some q)) n (argc + 1) = .ok r ∧
              Parses token ys n (argc + 1) (a.store argc (some q)) b' r :=
          ih hw.holds (by omega) (by omega)
        exact ⟨r, hr, hparses.cons hw hq hne
          (hw.holdsWord hat hparses.size hparses.front) hwords (by omega) htake⟩

theorem clear_stores (a : Argv) (n : Nat) :
    ((List.range n).foldl (fun argv i => argv.store i none) a).stores =
      a.stores ++ List.range n := by
  induction n with
  | zero => simp
  | succ n ih =>
    rw [List.range_succ, List.foldl_append, ← List.append_assoc, ← ih]
    rfl

theorem clear_get (a : Argv) {n i : Nat} (hi : i < n) :
    ((List.range n).foldl (fun argv i => argv.store i none) a).get i = none := by
  induction n with
  | zero => omega
  | succ n ih =>
    rw [List.range_succ, List.foldl_append]
    show (if i = n then none else _) = none
    split
    · rfl
    · exact ih (by omega)

/-- `cmd_parse` terminates on every string. -/
theorem cmdParse_parses (argv : Nat → Option Nat) (htoken : token ≠ 0) (h : b.Holds p s) :
    ∃ r, cmdParse b p argv token = .ok r ∧ Parses token s p 0 (clearArgv ⟨argv, []⟩) b r :=
  cmdParseLoop_parses htoken h (Nat.zero_le _) h.length_lt

/-- The 17th word is stored behind `argv`. -/
theorem cmdParse_many {argv : Nat → Option Nat} (htoken : token ≠ 0) (h : b.Holds p s)
    (hmany : maxArgNr < (words token s).length) : ¬CmdParseRight b p s argv token := by
  have ⟨r, hr, hparses⟩ := cmdParse_parses argv htoken h
  intro ⟨r', hr', hin, _⟩
  obtain rfl : r = r' := Except.ok.inj (hr.symm.trans hr')
  have hmem : maxArgNr ∈ r.argv.stores := by
    rw [hparses.stores, List.mem_append, List.mem_range'_1]
    omega
  exact Nat.lt_irrefl _ (hin _ hmem)

theorem cmdParse_few {argv : Nat → Option Nat} (htoken : token ≠ 0) (h : b.Holds p s)
    (hfew : (words token s).length ≤ maxArgNr) : CmdParseRight b p s argv token := by
  have ⟨r, hr, hparses⟩ := cmdParse_parses argv htoken h
  refine ⟨r, hr, ?_, fun _ => ⟨?_, ?_, ?_⟩, fun hmany => absurd hfew (Nat.not_le_of_lt hmany)⟩
  · intro i hi
    rw [hparses.stores, clearArgv, clear_stores, List.nil_append, List.mem_append, List.mem_range,
      List.mem_range'_1] at hi
    omega
  · rw [hparses.ret, if_pos (by omega), Nat.zero_add]
  · intro i word hword
    have hi : i < (words token s).length := (List.getElem?_eq_some_iff.mp hword).1
    have ⟨k, hk⟩ := hparses.points i word hword (by omega)
    rw [Nat.zero_add] at hk
    exact ⟨k, hk⟩
  · intro i hle hi
    rw [hparses.kept i (.inr (by omega))]
    exact clear_get _ hi

end

/-- `cmd_parse` stores inside `argv` only and takes the string apart as it should if and only if the
string has at most 16 words: the 17th is stored before the number is tested. -/
theorem cmdParse_right_iff {b : Buf} {p : Nat} {s : Str} {argv : Nat → Option Nat} {token : UInt8}
    (htoken : token ≠ 0) (h : b.Holds p s) :
    CmdParseRight b p s argv token ↔ (words token s).length ≤ maxArgNr := by
  constructor
  · intro hright
    apply Nat.le_of_not_lt
    intro hmany
    exact cmdParse_many htoken h hmany hright
  · exact cmdParse_few htoken h

/-- `ls -l` with a separator behind it. -/
theorem cmdParse_right_ls :
    CmdParseRight (strBuf [0x6c, 0x73, 0x20, 0x2d, 0x6c, 0x20]) 0
        [0x6c, 0x73, 0x20, 0x2d, 0x6c, 0x20] (fun _ => none) 0x20 :=
  (cmdParse_right_iff (by decide) (holds_strBuf (by decide))).mpr (by decide)

def longCommand : Str := 0x61 :: (List.replicate 16 [0x20, 0x61]).flatten

theorem cmdParse_longCommand :
    ¬CmdParseRight (strBuf longCommand) 0 longCommand (fun _ => none) 0x20 :=
  cmdParse_many (by decide) (holds_strBuf (by decide)) (by decide)

end OsTruth
