/-
The words of a list: what stands between its separators and is not empty.

Cutting a list at a separator cuts its words, a run of separators has none, and a list with a word
starts with separators and that word.
-/
import Mathlib.Data.List.TakeWhile

namespace Separated

variable {α : Type} [DecidableEq α] {sep : α} {xs ys run word : List α}

def words (sep : α) (xs : List α) : List (List α) := (xs.splitOn sep).filter (· ≠ [])

@[simp] theorem words_nil (sep : α) : words sep [] = [] := by simp [words]

@[simp] theorem words_append_sep (sep : α) (xs ys : List α) :
    words sep (xs ++ sep :: ys) = words sep xs ++ words sep ys := by
  rw [words, List.splitOn_append_cons_self, List.filter_append]
  rfl

@[simp] theorem words_sep (sep : α) (ys : List α) : words sep (sep :: ys) = words sep ys :=
  words_append_sep sep [] ys

theorem words_run (h : ∀ c ∈ run, c = sep) (ys : List α) :
    words sep (run ++ ys) = words sep ys := by
  induction run with
  | nil => rfl
  | cons c run ih =>
    rw [List.cons_append, h c (by simp), words_sep]
    exact ih fun d hd => h d (by simp [hd])

theorem words_word (h : sep ∉ word) (hne : word ≠ []) : words sep word = [word] := by
  rw [words, List.splitOn_eq_singleton h]
  simp [hne]

theorem mem_takeWhile_sep (sep : α) (xs : List α) : ∀ c ∈ xs.takeWhile (· = sep), c = sep := by
  intro c hc
  simpa using List.mem_takeWhile_imp hc

theorem words_dropWhile (sep : α) (xs : List α) :
    words sep (xs.dropWhile (· = sep)) = words sep xs := by
  have h := words_run (mem_takeWhile_sep sep xs) (xs.dropWhile (· = sep))
  rw [List.takeWhile_append_dropWhile] at h
  exact h.symm

/-- The separators in front hold no word. -/
theorem words_takeWhile (sep : α) (xs : List α) : words sep (xs.takeWhile (· = sep)) = [] := by
  have h := words_run (mem_takeWhile_sep sep xs) []
  rwa [List.append_nil, words_nil] at h

/-- Behind its first separators a list is empty, or is its first word up to the end or up to a
separator. -/
theorem words_cases (sep : α) (xs : List α) :
    (xs.dropWhile (· = sep) = [] ∧ words sep xs = []) ∨
      ∃ word rest, xs.dropWhile (· = sep) = word ++ rest ∧ word ≠ [] ∧ sep ∉ word ∧
        ((rest = [] ∧ words sep xs = [word]) ∨
          ∃ ys, rest = sep :: ys ∧ words sep xs = word :: words sep ys) := by
  rw [← words_dropWhile]
  have hhead := List.head?_dropWhile_not (· = sep) xs
  generalize xs.dropWhile (· = sep) = tail at hhead ⊢
  cases tail with
  | nil => simp
  | cons c tail =>
    right
    have hc : c ≠ sep := by simpa using hhead
    have hmem : sep ∉ (c :: tail).takeWhile (· ≠ sep) := fun h => by
      simpa using List.mem_takeWhile_imp h
    have hne : (c :: tail).takeWhile (· ≠ sep) ≠ [] := by
      rw [List.takeWhile_cons_of_pos (by simpa using hc)]
      simp
    have happ : (c :: tail).takeWhile (· ≠ sep) ++ (c :: tail).dropWhile (· ≠ sep) = c :: tail :=
      List.takeWhile_append_dropWhile
    have hstop := List.head?_dropWhile_not (· ≠ sep) (c :: tail)
    generalize (c :: tail).takeWhile (· ≠ sep) = word at *
    generalize (c :: tail).dropWhile (· ≠ sep) = rest at *
    refine ⟨word, rest, happ.symm, hne, hmem, ?_⟩
    rw [← happ]
    cases rest with
    | nil => simp [words_word hmem hne]
    | cons d ys =>
      have hd : d = sep := by simpa using hstop
      subst hd
      right
      exact ⟨ys, rfl, by rw [words_append_sep, words_word hmem hne]; rfl⟩

theorem words_eq_nil_iff : words sep xs = [] ↔ ∀ c ∈ xs, c = sep := by
  constructor
  · intro h
    rcases words_cases sep xs with ⟨hdrop, -⟩ | ⟨word, rest, -, -, -, ⟨-, hwords⟩ | ⟨ys, -, hwords⟩⟩
    · intro c hc
      simpa using List.dropWhile_eq_nil_iff.mp hdrop c hc
    · exact absurd (hwords.symm.trans h) (List.cons_ne_nil _ _)
    · exact absurd (hwords.symm.trans h) (List.cons_ne_nil _ _)
  · intro h
    have hwords := words_run h []
    rwa [List.append_nil, words_nil] at hwords

end Separated
