/-
The rule for `search_file`.

A search reads, and opens one directory after the other.  What an open directory is worth is
an invariant `I` of the state with the directory, and `J` is what is left when it is closed.
-/
import OsTruth.Fs.Fs
import OsTruth.Fs.Reads

namespace OsTruth

open ByteString Fallible

structure SearchRule (I : State → DirPtr → Prop) (J : State → Prop) : Prop where
  root : ∀ s, J s → I s .root
  reads : ∀ s t d, I s d → Reads s t → I t d
  opens : ∀ s n, J s → Ensures (dirOpen n) s fun d t => I t d
  closes : ∀ s d, I s d → Ensures (dirClose d) s fun _ t => J t

namespace SearchRule

variable {I : State → DirPtr → Prop} {J : State → Prop} {s : State} {d : DirPtr}

theorem searchEnd (h : SearchRule I J) (hd : I s d) (n : UInt32) (e : Option DirEntry) (path : Str) :
    Ensures (OsTruth.searchEnd d n e path) s fun r t => I t r.2.parentDir := by
  unfold OsTruth.searchEnd
  rw [Ensures, Wp.bind]
  refine (h.closes s d hd).call fun _ t ht => ?_
  rw [Wp.bind]
  refine (h.opens t n ht).call fun d' u hu => ?_
  cases e with
  | none => exact True.intro
  | some e => exact hu

theorem searchLoop (h : SearchRule I J) (left : Nat) (hd : I s d) (n : UInt32)
    (e : Option DirEntry) (name : Str) (sub : Option Str) (path : Str) :
    Ensures (OsTruth.searchLoop left d n e name sub path) s fun r t => I t r.2.parentDir := by
  induction left generalizing s d n e name sub path with
  | zero =>
      cases name with
      | nil =>
          unfold OsTruth.searchLoop
          exact h.searchEnd hd n e path
      | cons c name =>
          unfold OsTruth.searchLoop
          exact True.intro
  | succ left ih =>
      cases name with
      | nil =>
          unfold OsTruth.searchLoop
          exact h.searchEnd hd n e path
      | cons c name =>
          unfold OsTruth.searchLoop
          rw [Ensures, Wp.bind]
          refine (kassert_reads _ s).call fun _ s₁ h₁ => ?_
          rw [Wp.bind]
          refine (Within.lift (R := Reads) _ s₁).call fun path' s₂ h₂ => ?_
          rw [Wp.bind]
          refine (searchDirEntry_reads d (c :: name) s₂).call fun r s₃ h₃ => ?_
          have hd₃ := h.reads _ _ _ (h.reads _ _ _ (h.reads _ _ _ hd h₁) h₂) h₃
          cases r with
          | none => exact hd₃
          | some e' =>
              unfold searchFound
              rw [Wp.bind]
              refine (Within.lift (R := Reads) _ s₃).call fun next s₄ h₄ => ?_
              have hd₄ := h.reads _ _ _ hd₃ h₄
              rw [Wp.ite]
              refine ⟨fun _ => ?_, fun _ => ?_⟩
              · rw [Wp.bind]
                refine (dirInode_reads d s₄).call fun p s₅ h₅ => ?_
                rw [Wp.bind]
                refine (loadInode_reads p s₅).call fun i s₆ h₆ => ?_
                have hd₆ := h.reads _ _ _ (h.reads _ _ _ hd₄ h₅) h₆
                rw [Wp.bind]
                refine (h.closes s₆ d hd₆).call fun _ s₇ h₇ => ?_
                rw [Wp.bind]
                refine (h.opens s₇ e'.iNo h₇).call fun d' s₈ h₈ => ?_
                exact ih h₈ i.iNo (some e') next.1 next.2 path'
              · rw [Wp.ite]
                exact ⟨fun _ => hd₄, fun _ => ih hd₄ n (some e') next.1 next.2 path'⟩

theorem searchFile (h : SearchRule I J) (hs : J s) (path : Str) :
    Ensures (OsTruth.searchFile path) s fun r t => I t r.2.parentDir := by
  unfold OsTruth.searchFile
  rw [Ensures, Wp.ite]
  refine ⟨fun _ => h.root s hs, fun _ => ?_⟩
  rw [Wp.bind]
  refine (kassert_reads _ s).call fun _ s₁ h₁ => ?_
  rw [Wp.bind]
  refine (Within.lift (R := Reads) _ s₁).call fun next s₂ h₂ => ?_
  have hroot := h.reads _ _ _ (h.reads _ _ _ (h.root s hs) h₁) h₂
  exact h.searchLoop _ hroot 0 none next.1 next.2 []

end SearchRule

end OsTruth
