/-
Runs of the calls of `lib/kernel/list.c` on several lists.

The end nodes of the lists, the elements and `NULL` are different objects.  A run keeps the
sequences that the lists should hold, with none for a list that was never initialised, and every
call does to the links what it does to the sequences.  The loops follow the links and get a number
of rounds; a list shorter than that is followed to its end.
-/
import OsTruth.Lib.List

namespace OsTruth

open Links

/-! ## Objects -/

/-- What a pointer to `struct list_elem` can point to: nothing, an end of list `i`, or an
element. -/
inductive ListNode (ι ε : Type)
  | null
  | head (i : ι)
  | tail (i : ι)
  | elem (e : ε)
  deriving DecidableEq

def ListNode.ends {ι : Type} (ε : Type) (i : ι) : ListEnds (ListNode ι ε) := ⟨.head i, .tail i⟩

section

variable {α : Type} [DecidableEq α]

/-! ## Functions -/

/-- `list_init`, with its `NULL`s. -/
def listInitNull (null : α) (m : Links α) (plist : ListEnds α) : Links α where
  next := Function.update (listInit m plist).next plist.tail null
  prev := Function.update (listInit m plist).prev plist.head null

def listInsertBefore (m : Links α) (before elem : α) : Links α := m.insertBefore before elem

/-- The loop of `list_len`. -/
def listLenLoop (m : Links α) (plist : ListEnds α) : Nat → α → UInt32 → Except Fault UInt32
  | 0, _, _ => .error .undefined
  | left + 1, elem, length =>
      if elem ≠ plist.tail then listLenLoop m plist left (m.next elem) (length + 1)
      else .ok length

def listLen (m : Links α) (plist : ListEnds α) (bound : Nat) : Except Fault UInt32 :=
  listLenLoop m plist bound (m.next plist.head) 0

/-- The loop of `list_traversal`. -/
def listTraversalLoop (m : Links α) (plist : ListEnds α) (func : α → Bool) :
    Nat → α → Except Fault (Option α)
  | 0, _ => .error .undefined
  | left + 1, elem =>
      if elem ≠ plist.tail then
        if func elem then .ok (some elem)
        else listTraversalLoop m plist func left (m.next elem)
      else .ok none

/-- `list_traversal`, with `none` for `NULL`. -/
def listTraversal (m : Links α) (plist : ListEnds α) (func : α → Bool) (bound : Nat) :
    Except Fault (Option α) :=
  if listEmpty m plist then .ok none
  else listTraversalLoop m plist func bound (m.next plist.head)

variable {m : Links α} {plist : ListEnds α} {xs : List α} {left : Nat} {a : α}

/-- The loop counts the nodes up to the tail. -/
theorem listLenLoop_eq (h : Follows m.next a xs plist.tail) (ht : plist.tail ∉ xs)
    (hleft : xs.length < left) (length : UInt32) :
    listLenLoop m plist left (m.next a) length = .ok (length + UInt32.ofNat xs.length) := by
  induction xs generalizing a left length with
  | nil =>
      obtain ⟨left, rfl⟩ := Nat.exists_eq_succ_of_ne_zero (Nat.ne_of_gt hleft)
      have ha : m.next a = plist.tail := h
      rw [ha, listLenLoop, if_neg (by simp)]
      simp
  | cons x xs ih =>
      obtain ⟨left, rfl⟩ := Nat.exists_eq_succ_of_ne_zero (Nat.ne_of_gt (Nat.zero_lt_of_lt hleft))
      simp only [List.mem_cons, not_or] at ht
      have hsum : length + 1 + UInt32.ofNat xs.length = length + UInt32.ofNat (xs.length + 1) := by
        rw [UInt32.ofNat_add, UInt32.add_assoc, UInt32.add_comm 1]
        rfl
      rw [h.1, listLenLoop, if_pos (Ne.symm ht.1),
        ih h.2 ht.2 (Nat.lt_of_succ_lt_succ hleft) (length + 1), hsum, List.length_cons]

/-- The loop finds the first node that the function accepts. -/
theorem listTraversalLoop_eq (h : Follows m.next a xs plist.tail) (ht : plist.tail ∉ xs)
    (hleft : xs.length < left) (func : α → Bool) :
    listTraversalLoop m plist func left (m.next a) = .ok (xs.find? func) := by
  induction xs generalizing a left with
  | nil =>
      obtain ⟨left, rfl⟩ := Nat.exists_eq_succ_of_ne_zero (Nat.ne_of_gt hleft)
      have ha : m.next a = plist.tail := h
      rw [ha, listTraversalLoop, if_neg (by simp), List.find?_nil]
  | cons x xs ih =>
      obtain ⟨left, rfl⟩ := Nat.exists_eq_succ_of_ne_zero (Nat.ne_of_gt (Nat.zero_lt_of_lt hleft))
      simp only [List.mem_cons, not_or] at ht
      rw [h.1, listTraversalLoop, if_pos (Ne.symm ht.1), List.find?_cons]
      cases hx : func x with
      | true => simp
      | false => simpa using ih h.2 ht.2 (Nat.lt_of_succ_lt_succ hleft)

theorem listEmpty_iff (h : Holds m plist.head plist.tail xs) :
    listEmpty m plist = true ↔ xs = [] := by
  rw [listEmpty, decide_eq_true_iff]
  exact h.next_eq

end

/-! ## Runs -/

section

variable {ι ε : Type} [DecidableEq ι] [DecidableEq ε]

inductive ListOp (ι ε : Type)
  | init (i : ι)
  | push (i : ι) (elem : ε)
  | append (i : ι) (elem : ε)
  | remove (elem : ε)
  | pop (i : ι)
  | insertBefore (before elem : ε)

/-- The sequences of the lists that were initialised. -/
abbrev Seqs (ι ε : Type) := ι → Option (List ε)

/-- `e` in front of `b`. -/
def insertInFront (b e : ε) : List ε → List ε
  | [] => []
  | x :: xs => if x = b then e :: x :: xs else x :: insertInFront b e xs

/-- No list has the element. -/
def Seqs.Free (s : Seqs ι ε) (e : ε) : Prop := ∀ i xs, s i = some xs → e ∉ xs

namespace ListOp

/-- The call does this to the links. -/
def run (m : Links (ListNode ι ε)) : ListOp ι ε → Links (ListNode ι ε)
  | init i => listInitNull .null m (ListNode.ends ε i)
  | push i e => listPush m (ListNode.ends ε i) (.elem e)
  | append i e => listAppend m (ListNode.ends ε i) (.elem e)
  | remove e => listRemove m (.elem e)
  | pop i => (listPop m (ListNode.ends ε i)).2
  | insertBefore b e => listInsertBefore m (.elem b) (.elem e)

/-- It should do this to the sequences. -/
def apply (s : Seqs ι ε) : ListOp ι ε → Seqs ι ε
  | init i => Function.update s i (some [])
  | push i e => Function.update s i ((s i).map (e :: ·))
  | append i e => Function.update s i ((s i).map (· ++ [e]))
  | remove e => fun i => (s i).map (·.erase e)
  | pop i => Function.update s i ((s i).map List.tail)
  | insertBefore b e => fun i => (s i).map (insertInFront b e)

/-- An element goes into a list when it is in none, and only elements of lists are taken out or
inserted before. -/
def Allowed (s : Seqs ι ε) : ListOp ι ε → Prop
  | init _ => True
  | push i e => (∃ xs, s i = some xs) ∧ s.Free e
  | append i e => (∃ xs, s i = some xs) ∧ s.Free e
  | remove e => ∃ i xs, s i = some xs ∧ e ∈ xs
  | pop i => ∃ e xs, s i = some (e :: xs)
  | insertBefore b e => (∃ i xs, s i = some xs ∧ b ∈ xs) ∧ s.Free e

/-- Every call of the run is allowed where it is made. -/
def AllAllowed (s : Seqs ι ε) : List (ListOp ι ε) → Prop
  | [] => True
  | op :: ops => op.Allowed s ∧ AllAllowed (op.apply s) ops

end ListOp

/-- The links hold the sequences, in lists that share no element. -/
structure Rep (m : Links (ListNode ι ε)) (s : Seqs ι ε) : Prop where
  holds : ∀ i xs, s i = some xs → Holds m (.head i) (.tail i) (xs.map .elem)
  apart : ∀ i j xs ys e, s i = some xs → s j = some ys → e ∈ xs → e ∈ ys → i = j

/-- What a list whose sequence is `xs` looks like from outside. -/
structure ListRight (m : Links (ListNode ι ε)) (i : ι) (xs : List ε) : Prop where
  next : Follows m.next (.head i) (xs.map .elem) (.tail i)
  prev : Follows m.prev (.tail i) (xs.map .elem).reverse (.head i)
  nodup : xs.Nodup
  len : ∀ bound, xs.length < bound →
    listLen m (ListNode.ends ε i) bound = .ok (UInt32.ofNat xs.length)
  empty : listEmpty m (ListNode.ends ε i) = true ↔ xs = []
  find : ∀ e bound, xs.length < bound →
    elemFind m (ListNode.ends ε i) (.elem e) bound = .ok (decide (e ∈ xs))
  traversal : ∀ func bound, xs.length < bound →
    listTraversal m (ListNode.ends ε i) func bound = .ok ((xs.map ListNode.elem).find? func)
  pop : ∀ e, xs.head? = some e → (listPop m (ListNode.ends ε i)).1 = .elem e

/-- The lists look like their sequences, and different lists share no element. -/
structure ListsRight (m : Links (ListNode ι ε)) (s : Seqs ι ε) : Prop where
  right : ∀ i xs, s i = some xs → ListRight m i xs
  apart : ∀ i j xs ys, s i = some xs → s j = some ys → i ≠ j → xs.Disjoint ys

variable {m m' : Links (ListNode ι ε)} {s : Seqs ι ε} {i j : ι} {e b : ε} {xs ys : List ε}

/-! ### The property -/

omit [DecidableEq ι] [DecidableEq ε] in
theorem mem_map_elem : ListNode.elem e ∈ xs.map (ListNode.elem (ι := ι)) ↔ e ∈ xs := by
  simp

/-- A list that is held looks like its sequence. -/
theorem listRight_of_holds (h : Holds m (.head i) (.tail i) (xs.map .elem)) :
    ListRight m i xs where
  next := follows_next _ _ h.chain
  prev := follows_prev _ _ h.chain
  nodup := by
    have hnodup := (List.nodup_cons.mp h.nodup).2
    exact List.Nodup.of_map _ (List.nodup_append.mp hnodup).1
  len bound hbound := by
    have hlen : (xs.map (ListNode.elem (ι := ι))).length < bound := by simpa using hbound
    unfold listLen
    rw [listLenLoop_eq (follows_next _ _ h.chain) h.tail_not_mem hlen]
    simp
  empty := by
    rw [listEmpty_iff h]
    simp
  find e bound hbound := by
    have hlen : (xs.map (ListNode.elem (ι := ι))).length < bound := by simpa using hbound
    have hwalk : m.walk (ListNode.ends ε i).tail (.elem e) bound
        (m.next (ListNode.ends ε i).head) = _ := h.walk (.elem e) bound hlen
    unfold elemFind
    rw [hwalk]
    simp only [mem_map_elem]
  traversal func bound hbound := by
    have hlen : (xs.map (ListNode.elem (ι := ι))).length < bound := by simpa using hbound
    unfold listTraversal
    by_cases hempty : listEmpty m (ListNode.ends ε i) = true
    · have hnil := (listEmpty_iff h).mp hempty
      rw [if_pos hempty, hnil]
      rfl
    · rw [if_neg hempty]
      exact listTraversalLoop_eq (follows_next _ _ h.chain) h.tail_not_mem hlen func
  pop e he := by
    cases xs with
    | nil => simp at he
    | cons x xs =>
        have hx : x = e := by simpa using he
        rw [← hx]
        exact h.pop.1

theorem Rep.right (h : Rep m s) : ListsRight m s where
  right i xs hxs := listRight_of_holds (h.holds i xs hxs)
  apart i j xs ys hxs hys hne e he he' := hne (h.apart i j xs ys e hxs hys he he')

/-! ### One call -/

/-- The lists that were initialised, with their sequences. -/
abbrev Seqs.Live (s : Seqs ι ε) := {i // (s i).isSome}

def Seqs.nodes (s : Seqs ι ε) (k : s.Live) : List (ListNode ι ε) := ((s k.1).get k.2).map .elem

omit [DecidableEq ι] [DecidableEq ε] in
theorem nodes_of_eq (h : s i = some xs) (hi : (s i).isSome) :
    s.nodes ⟨i, hi⟩ = xs.map .elem := by
  unfold Seqs.nodes
  simp [h]

omit [DecidableEq ι] [DecidableEq ε] in
theorem Rep.lists (h : Rep m s) :
    Lists m (fun k : s.Live => .head k.1) (fun k => .tail k.1) s.nodes where
  holds k := by
    have hk : s k.1 = some ((s k.1).get k.2) := by simp
    exact h.holds k.1 _ hk
  apart k l a hk hl := by
    have hget : ∀ k : s.Live, s k.1 = some ((s k.1).get k.2) := by simp
    apply Subtype.ext
    rw [mem_nodes] at hk hl
    unfold Seqs.nodes at hk hl
    cases a with
    | null => simp at hk
    | head i =>
        have hk' : i = k.1 := by simpa using hk
        have hl' : i = l.1 := by simpa using hl
        exact hk'.symm.trans hl'
    | tail i =>
        have hk' : i = k.1 := by simpa using hk
        have hl' : i = l.1 := by simpa using hl
        exact hk'.symm.trans hl'
    | elem e =>
        have hk' : e ∈ (s k.1).get k.2 := by simpa using hk
        have hl' : e ∈ (s l.1).get l.2 := by simpa using hl
        exact h.apart k.1 l.1 _ _ e (hget k) (hget l) hk' hl'

omit [DecidableEq ε] in
/-- One list got another sequence. -/
theorem Rep.of_update (hi : (s i).isSome) (h : Lists m' (fun k : s.Live => .head k.1)
    (fun k => .tail k.1) (Function.update s.nodes ⟨i, hi⟩ (ys.map .elem))) :
    Rep m' (Function.update s i (some ys)) := by
  have hget : ∀ j xs, Function.update s i (some ys) j = some xs → ∃ hj : (s j).isSome,
      Function.update s.nodes ⟨i, hi⟩ (ys.map .elem) ⟨j, hj⟩ = xs.map .elem := by
    intro j xs hj
    by_cases hji : j = i
    · rw [hji, Function.update_self] at hj
      cases hj
      cases hji
      exact ⟨hi, Function.update_self ..⟩
    · rw [Function.update_of_ne hji] at hj
      have hlive : (s j).isSome := by simp [hj]
      refine ⟨hlive, ?_⟩
      rw [Function.update_of_ne fun heq => hji (congrArg Subtype.val heq)]
      exact nodes_of_eq hj hlive
  constructor
  · intro j xs hj
    obtain ⟨hlive, hnodes⟩ := hget j xs hj
    rw [← hnodes]
    exact h.holds ⟨j, hlive⟩
  · intro j k xs zs e hj hk he he'
    obtain ⟨hlive, hnodes⟩ := hget j xs hj
    obtain ⟨hlive', hnodes'⟩ := hget k zs hk
    have hin : ListNode.elem e ∈ Links.nodes (.head j) (.tail j) (xs.map ListNode.elem) :=
      mem_nodes.mpr (Or.inr (Or.inl (mem_map_elem.mpr he)))
    have hin' : ListNode.elem e ∈ Links.nodes (.head k) (.tail k) (zs.map ListNode.elem) :=
      mem_nodes.mpr (Or.inr (Or.inl (mem_map_elem.mpr he')))
    rw [← hnodes] at hin
    rw [← hnodes'] at hin'
    exact congrArg Subtype.val (h.apart ⟨j, hlive⟩ ⟨k, hlive'⟩ (.elem e) hin hin')

omit [DecidableEq ι] [DecidableEq ε] in
/-- An element of no list is none of the nodes. -/
theorem Seqs.Free.not_mem (h : s.Free e) (k : s.Live) :
    ListNode.elem e ∉ Links.nodes (.head k.1) (.tail k.1) (s.nodes k) := by
  have hk : s k.1 = some ((s k.1).get k.2) := by simp
  intro hmem
  have he : e ∈ (s k.1).get k.2 := by simpa [mem_nodes, Seqs.nodes] using hmem
  exact h k.1 _ hk he

omit [DecidableEq ε] in
/-- A change that only list `i` can notice. -/
theorem map_eq_update (hi : s i = some xs) (f : List ε → List ε)
    (hother : ∀ j ys, j ≠ i → s j = some ys → f ys = ys) :
    (fun j => (s j).map f) = Function.update s i (some (f xs)) := by
  funext j
  by_cases hji : j = i
  · rw [hji, Function.update_self, hi]
    rfl
  · rw [Function.update_of_ne hji]
    cases hj : s j with
    | none => rfl
    | some ys => exact congrArg some (hother j ys hji hj)

omit [DecidableEq ι] in
theorem insertInFront_of_not_mem (h : b ∉ xs) : insertInFront b e xs = xs := by
  induction xs with
  | nil => rfl
  | cons x xs ih =>
      simp only [List.mem_cons, not_or] at h
      rw [insertInFront, if_neg (Ne.symm h.1), ih h.2]

omit [DecidableEq ι] in
theorem insertInFront_split (h : b ∈ xs) :
    ∃ l r, xs = l ++ b :: r ∧ insertInFront b e xs = l ++ e :: b :: r := by
  induction xs with
  | nil => simp at h
  | cons x xs ih =>
      by_cases hx : x = b
      · rw [insertInFront, if_pos hx, hx]
        exact ⟨[], xs, rfl, rfl⟩
      · have hmem : b ∈ xs := (List.mem_cons.mp h).resolve_left (Ne.symm hx)
        obtain ⟨l, r, hsplit, hinsert⟩ := ih hmem
        rw [insertInFront, if_neg hx, hinsert, hsplit]
        exact ⟨x :: l, r, rfl, rfl⟩

theorem Rep.init (h : Rep m s) (i : ι) :
    Rep (listInitNull .null m (ListNode.ends ε i)) (Function.update s i (some [])) := by
  have hnext : ∀ a, a ≠ .head i → a ≠ .tail i →
      (listInitNull .null m (ListNode.ends ε i)).next a = m.next a := by
    intro a hhead htail
    show Function.update (Function.update m.next (.head i) (.tail i)) (.tail i) .null a = _
    rw [Function.update_of_ne htail, Function.update_of_ne hhead]
  have hprev : ∀ a, a ≠ .head i → a ≠ .tail i →
      (listInitNull .null m (ListNode.ends ε i)).prev a = m.prev a := by
    intro a hhead htail
    show Function.update (Function.update m.prev (.tail i) (.head i)) (.head i) .null a = _
    rw [Function.update_of_ne hhead, Function.update_of_ne htail]
  constructor
  · intro j xs hj
    by_cases hji : j = i
    · rw [hji, Function.update_self] at hj
      cases hj
      rw [hji]
      refine ⟨List.isChain_cons_cons.mpr ⟨⟨?_, ?_⟩, List.isChain_singleton _⟩, by simp [nodes]⟩
      · show Function.update (Function.update m.next (.head i) (.tail i)) (.tail i) .null
          (.head i) = _
        rw [Function.update_of_ne (by simp), Function.update_self]
      · show Function.update (Function.update m.prev (.tail i) (.head i)) (.head i) .null
          (.tail i) = _
        rw [Function.update_of_ne (by simp), Function.update_self]
    · rw [Function.update_of_ne hji] at hj
      have hends : ∀ a, a ∈ nodes (.head j) (.tail j) (xs.map ListNode.elem) →
          a ≠ .head i ∧ a ≠ .tail i := by
        intro a ha
        rw [mem_nodes] at ha
        rcases ha with ha | ha | ha
        · rw [ha]
          simpa using hji
        · obtain ⟨e, -, rfl⟩ := List.mem_map.mp ha
          simp
        · rw [ha]
          simpa using hji
      exact (h.holds j xs hj).congr (fun a ha => hnext a (hends a ha).1 (hends a ha).2)
        fun a ha => hprev a (hends a ha).1 (hends a ha).2
  · intro j k xs ys e hj hk he he'
    by_cases hji : j = i
    · rw [hji, Function.update_self] at hj
      cases hj
      simp at he
    · by_cases hki : k = i
      · rw [hki, Function.update_self] at hk
        cases hk
        simp at he'
      · rw [Function.update_of_ne hji] at hj
        rw [Function.update_of_ne hki] at hk
        exact h.apart j k xs ys e hj hk he he'

/-- An allowed call does to the links what it does to the sequences. -/
theorem Rep.call (h : Rep m s) (op : ListOp ι ε) (hop : op.Allowed s) :
    Rep (op.run m) (op.apply s) := by
  cases op with
  | init i => exact h.init i
  | push i e =>
      obtain ⟨⟨xs, hxs⟩, hfree⟩ := hop
      have hi : (s i).isSome := by simp [hxs]
      have hlists := h.lists.push ⟨i, hi⟩ hfree.not_mem
      rw [nodes_of_eq hxs hi] at hlists
      show Rep _ (Function.update s i ((s i).map (e :: ·)))
      rw [hxs]
      have hrep : Rep _ (Function.update s i (some (e :: xs))) := Rep.of_update hi hlists
      exact hrep
  | append i e =>
      obtain ⟨⟨xs, hxs⟩, hfree⟩ := hop
      have hi : (s i).isSome := by simp [hxs]
      have hlists := h.lists.append ⟨i, hi⟩ hfree.not_mem
      have hmap : xs.map ListNode.elem ++ [.elem e] = (xs ++ [e]).map (ListNode.elem (ι := ι)) := by
        simp
      rw [nodes_of_eq hxs hi, hmap] at hlists
      show Rep _ (Function.update s i ((s i).map (· ++ [e])))
      rw [hxs]
      exact Rep.of_update hi hlists
  | remove e =>
      obtain ⟨i, xs, hxs, he⟩ := hop
      have hi : (s i).isSome := by simp [hxs]
      have hmem : ListNode.elem e ∈ s.nodes ⟨i, hi⟩ := by
        rw [nodes_of_eq hxs hi]
        exact mem_map_elem.mpr he
      have hlists := h.lists.erase hmem
      have hmap : (xs.map ListNode.elem).erase (.elem e) =
          (xs.erase e).map (ListNode.elem (ι := ι)) :=
        (List.map_erase (fun _ _ => ListNode.elem.inj) xs).symm
      rw [nodes_of_eq hxs hi, hmap] at hlists
      have hother : ∀ j ys, j ≠ i → s j = some ys → ys.erase e = ys := fun j ys hji hys =>
        List.erase_of_not_mem fun he' => hji (h.apart j i ys xs e hys hxs he' he)
      show Rep _ fun j => (s j).map (·.erase e)
      rw [map_eq_update hxs (·.erase e) hother]
      exact Rep.of_update hi hlists
  | pop i =>
      obtain ⟨e, xs, hxs⟩ := hop
      have hi : (s i).isSome := by simp [hxs]
      have hlists := h.lists.pop ⟨i, hi⟩ (xs.map .elem) (nodes_of_eq hxs hi)
      show Rep (m.remove (m.next (.head i))) (Function.update s i ((s i).map List.tail))
      rw [hlists.1, hxs]
      exact Rep.of_update hi hlists.2
  | insertBefore b e =>
      obtain ⟨⟨i, xs, hxs, hb⟩, hfree⟩ := hop
      have hi : (s i).isSome := by simp [hxs]
      obtain ⟨l, r, hsplit, hinsert⟩ := insertInFront_split (e := e) hb
      have hmap : ∀ zs : List ε, (l ++ zs).map (ListNode.elem (ι := ι)) =
          l.map .elem ++ zs.map .elem := fun zs => List.map_append
      have hnodes : s.nodes ⟨i, hi⟩ = l.map .elem ++ .elem b :: r.map .elem := by
        rw [nodes_of_eq hxs hi, hsplit, hmap]
        rfl
      have hlists := h.lists.insert hnodes hfree.not_mem
      have hother : ∀ j ys, j ≠ i → s j = some ys → insertInFront b e ys = ys :=
        fun j ys hji hys => insertInFront_of_not_mem
          fun hb' => hji (h.apart j i ys xs b hys hxs hb' hb)
      show Rep _ fun j => (s j).map (insertInFront b e)
      rw [map_eq_update hxs (insertInFront b e) hother, hinsert]
      refine Rep.of_update hi ?_
      rw [hmap]
      exact hlists

/-! ### The runs -/

omit [DecidableEq ι] [DecidableEq ε] in
theorem rep_none (m : Links (ListNode ι ε)) : Rep m fun _ => none :=
  ⟨fun _ _ h => by simp at h, fun _ _ _ _ _ h => by simp at h⟩

theorem Rep.calls (ops : List (ListOp ι ε)) (h : Rep m s) (hops : ListOp.AllAllowed s ops) :
    Rep (ops.foldl ListOp.run m) (ops.foldl ListOp.apply s) := by
  induction ops generalizing m s with
  | nil => exact h
  | cons op ops ih => exact ih (h.call op hops.1) hops.2

/-- Whatever is called on lists that start with any links, each list is its sequence. -/
theorem listOps_right (m : Links (ListNode ι ε)) (ops : List (ListOp ι ε))
    (hops : ListOp.AllAllowed (fun _ => none) ops) :
    ListsRight (ops.foldl ListOp.run m) (ops.foldl ListOp.apply fun _ => none) :=
  ((rep_none m).calls ops hops).right

end

/-- An element that moves from one list to another. -/
def moveOps : List (ListOp Bool Nat) :=
  [.init false, .append false 7, .init true, .remove 7, .push true 7]

theorem listOps_right_move : ListsRight
    (moveOps.foldl ListOp.run (⟨fun _ => .null, fun _ => .null⟩ : Links (ListNode Bool Nat)))
    (moveOps.foldl ListOp.apply fun _ => none) := by
  refine listOps_right _ moveOps ⟨True.intro, ⟨⟨[], rfl⟩, fun i xs h => ?_⟩, True.intro,
    ⟨false, [7], rfl, by simp⟩, ⟨⟨[], rfl⟩, fun i xs h => ?_⟩, True.intro⟩
  · cases i with
    | false =>
        have hxs : some [] = some xs := h
        cases hxs
        simp
    | true =>
        have hxs : none = some xs := h
        cases hxs
  · cases i with
    | false =>
        have hxs : some [] = some xs := h
        cases hxs
        simp
    | true =>
        have hxs : some [] = some xs := h
        cases hxs
        simp

end OsTruth
