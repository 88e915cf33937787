/-
Doubly linked lists whose links are stored in their elements.

`Links α` gives each node a successor and a predecessor.  `Holds m h t xs` says that the
nodes between the two end nodes `h` and `t` are `xs`, in this order, and that the links
lead along them in both directions.  What the links of other nodes are does not matter.
`Lists` is a family of such lists that have no node in common, so a node that one of
them contains is in no other.
-/
import Mathlib.Data.List.Chain
import Mathlib.Data.List.Nodup
import Mathlib.Logic.Function.Basic

structure Links (α : Type) where
  next : α → α
  prev : α → α

namespace Links

variable {α : Type}

/-! ## One list -/

def Adj (m : Links α) (a b : α) : Prop := m.next a = b ∧ m.prev b = a

def nodes (h t : α) (xs : List α) : List α := h :: (xs ++ [t])

structure Holds (m : Links α) (h t : α) (xs : List α) : Prop where
  chain : (nodes h t xs).IsChain m.Adj
  nodup : (nodes h t xs).Nodup

variable {m m' : Links α} {h t e : α} {xs ys : List α}

theorem mem_nodes {a : α} : a ∈ nodes h t xs ↔ a = h ∨ a ∈ xs ∨ a = t := by
  unfold nodes
  rw [List.mem_cons, List.mem_append, List.mem_singleton]

/-- The links that a chain does not use may change. -/
theorem chain_congr : ∀ {l : List α}, l.IsChain m.Adj →
    (∀ a ∈ l.dropLast, m'.next a = m.next a) → (∀ a ∈ l.tail, m'.prev a = m.prev a) →
    l.IsChain m'.Adj := by
  intro l
  induction l with
  | nil => exact fun _ _ _ => List.IsChain.nil
  | cons a l ih =>
      intro hl hnext hprev
      cases l with
      | nil => exact List.isChain_singleton a
      | cons b l =>
          obtain ⟨hab, hl'⟩ := List.isChain_cons_cons.mp hl
          refine List.isChain_cons_cons.mpr ⟨⟨?_, ?_⟩, ih hl' ?_ ?_⟩
          · rw [hnext a List.mem_cons_self]
            exact hab.1
          · rw [hprev b List.mem_cons_self]
            exact hab.2
          · exact fun c hc => hnext c (List.mem_cons_of_mem a hc)
          · exact fun c hc => hprev c (List.mem_cons_of_mem b hc)

theorem Holds.congr (hm : Holds m h t xs) (hnext : ∀ a ∈ nodes h t xs, m'.next a = m.next a)
    (hprev : ∀ a ∈ nodes h t xs, m'.prev a = m.prev a) : Holds m' h t xs where
  chain := chain_congr hm.chain (fun a ha => hnext a (List.dropLast_subset _ ha))
    fun a ha => hprev a (List.mem_of_mem_tail ha)
  nodup := hm.nodup

/-- Steps of `f` lead from `a` over `xs` to `b`. -/
def Follows (f : α → α) : α → List α → α → Prop
  | a, [], b => f a = b
  | a, x :: xs, b => f a = x ∧ Follows f x xs b

theorem Follows.concat {f : α → α} {a b x : α} (h : Follows f a xs x) (hx : f x = b) :
    Follows f a (xs ++ [x]) b := by
  induction xs generalizing a with
  | nil => exact ⟨h, hx⟩
  | cons y ys ih => exact ⟨h.1, ih h.2⟩

theorem follows_next (h : α) (xs : List α) (hl : (nodes h t xs).IsChain m.Adj) :
    Follows m.next h xs t := by
  induction xs generalizing h with
  | nil => exact (List.isChain_cons_cons.mp hl).1.1
  | cons x xs ih =>
      obtain ⟨hadj, hrest⟩ := List.isChain_cons_cons.mp hl
      exact ⟨hadj.1, ih x hrest⟩

theorem follows_prev (h : α) (xs : List α) (hl : (nodes h t xs).IsChain m.Adj) :
    Follows m.prev t xs.reverse h := by
  induction xs generalizing h with
  | nil => exact (List.isChain_cons_cons.mp hl).1.2
  | cons x xs ih =>
      obtain ⟨hadj, hrest⟩ := List.isChain_cons_cons.mp hl
      rw [List.reverse_cons]
      exact (ih x hrest).concat hadj.2

/-- The end of a list is none of its nodes. -/
theorem Holds.tail_not_mem (hm : Holds m h t xs) : t ∉ xs := by
  have hnodup := (List.nodup_cons.mp hm.nodup).2
  exact fun hmem => (List.nodup_append.mp hnodup).2.2 t hmem t List.mem_cons_self rfl

/-- There is one way to get to `b` without passing it. -/
theorem Follows.unique {f : α → α} {a b : α} (h : Follows f a xs b) (h' : Follows f a ys b)
    (hx : b ∉ xs) (hy : b ∉ ys) : xs = ys := by
  induction xs generalizing a ys with
  | nil =>
      cases ys with
      | nil => rfl
      | cons y ys => exact absurd (h.symm.trans h'.1) fun heq => hy (heq ▸ List.mem_cons_self)
  | cons x xs ih =>
      cases ys with
      | nil => exact absurd (h'.symm.trans h.1) fun heq => hx (heq ▸ List.mem_cons_self)
      | cons y ys =>
          have hxy : x = y := h.1.symm.trans h'.1
          have hrest := ih h.2 (hxy ▸ h'.2) (fun hmem => hx (List.mem_cons_of_mem x hmem))
            fun hmem => hy (List.mem_cons_of_mem y hmem)
          rw [hxy, hrest]

/-- The links determine the elements. -/
theorem Holds.unique (hm : Holds m h t xs) (hm' : Holds m h t ys) : xs = ys :=
  (follows_next h xs hm.chain).unique (follows_next h ys hm'.chain) hm.tail_not_mem
    hm'.tail_not_mem

variable [DecidableEq α]

/-! ## Operations -/

def insertBefore (m : Links α) (b e : α) : Links α where
  next := Function.update (Function.update m.next (m.prev b) e) e b
  prev := Function.update (Function.update m.prev e (m.prev b)) b e

def remove (m : Links α) (e : α) : Links α where
  next := Function.update m.next (m.prev e) (m.next e)
  prev := Function.update m.prev (m.next e) (m.prev e)

/-- Follow the links from `x` to `t` in search of `e`.  No result means that neither was
met within so many nodes. -/
def walk (m : Links α) (t e : α) : Nat → α → Option Bool
  | 0, _ => none
  | left + 1, x =>
      if x = t then some false
      else if x = e then some true
      else walk m t e left (m.next x)

/-! ## What the operations do to a list -/

/-- A node goes between two neighbours. -/
theorem insertBefore_chain {l r : List α} {p b : α} (hl : (l ++ p :: b :: r).IsChain m.Adj)
    (hnodup : (l ++ p :: b :: r).Nodup) (he : e ∉ l ++ p :: b :: r) :
    (l ++ p :: e :: b :: r).IsChain (m.insertBefore b e).Adj := by
  obtain ⟨hlp, hpb, hbr⟩ := List.isChain_append_cons_cons.mp hl
  have hprev : m.prev b = p := hpb.2
  simp only [List.mem_append, List.mem_cons, not_or] at he
  obtain ⟨hel, hep, heb, her⟩ := he
  obtain ⟨-, hpbr, hdisj⟩ := List.nodup_append.mp hnodup
  obtain ⟨hpn, hbr'⟩ := List.nodup_cons.mp hpbr
  obtain ⟨hbn, -⟩ := List.nodup_cons.mp hbr'
  have hpb' : p ≠ b := fun h => hpn (h ▸ List.mem_cons_self)
  have hnext : ∀ a, a ≠ e → a ≠ p → (m.insertBefore b e).next a = m.next a := by
    intro a ha hap
    show Function.update (Function.update m.next (m.prev b) e) e b a = _
    rw [Function.update_of_ne ha, hprev, Function.update_of_ne hap]
  have hprev' : ∀ a, a ≠ e → a ≠ b → (m.insertBefore b e).prev a = m.prev a := by
    intro a ha hab
    show Function.update (Function.update m.prev e (m.prev b)) b e a = _
    rw [Function.update_of_ne hab, Function.update_of_ne ha]
  refine List.isChain_append_cons_cons.mpr ⟨?_, ⟨?_, ?_⟩, List.isChain_cons_cons.mpr
    ⟨⟨?_, ?_⟩, ?_⟩⟩
  · refine chain_congr hlp (fun a ha => ?_) fun a ha => ?_
    · rw [List.dropLast_concat] at ha
      exact hnext a (fun h => hel (h ▸ ha)) (fun h => hdisj a ha p List.mem_cons_self h)
    · have ha' : a ∈ l ++ [p] := List.mem_of_mem_tail ha
      rw [List.mem_append, List.mem_singleton] at ha'
      rcases ha' with ha' | rfl
      · exact hprev' a (fun h => hel (h ▸ ha'))
          (fun h => hdisj a ha' b (List.mem_cons_of_mem p List.mem_cons_self) h)
      · exact hprev' a (Ne.symm hep) hpb'
  · show Function.update (Function.update m.next (m.prev b) e) e b p = e
    rw [Function.update_of_ne (Ne.symm hep), hprev, Function.update_self]
  · show Function.update (Function.update m.prev e (m.prev b)) b e e = p
    rw [Function.update_of_ne heb, Function.update_self, hprev]
  · exact Function.update_self ..
  · exact Function.update_self ..
  · refine chain_congr hbr (fun a ha => ?_) fun a ha => ?_
    · have ha' := List.dropLast_subset _ ha
      refine hnext a (fun h => ?_) (fun h => hpn (h ▸ ha'))
      rw [h] at ha'
      exact (List.mem_cons.mp ha').elim heb her
    · exact hprev' a (fun h => her (h ▸ ha)) (fun h => hbn (h ▸ ha))

/-- A node between two others goes. -/
theorem remove_chain {l r : List α} {p b : α} (hl : (l ++ p :: e :: b :: r).IsChain m.Adj)
    (hnodup : (l ++ p :: e :: b :: r).Nodup) :
    (l ++ p :: b :: r).IsChain (m.remove e).Adj := by
  obtain ⟨hlp, hpe, heb⟩ := List.isChain_append_cons_cons.mp hl
  obtain ⟨heb', hbr⟩ := List.isChain_cons_cons.mp heb
  have hprev : m.prev e = p := hpe.2
  have hnext : m.next e = b := heb'.1
  obtain ⟨-, hpn, hdisj⟩ := List.nodup_append.mp hnodup
  obtain ⟨hp, hen⟩ := List.nodup_cons.mp hpn
  obtain ⟨-, hbn⟩ := List.nodup_cons.mp hen
  obtain ⟨hb, -⟩ := List.nodup_cons.mp hbn
  have hnext' : ∀ a, a ≠ p → (m.remove e).next a = m.next a := by
    intro a ha
    show Function.update m.next (m.prev e) (m.next e) a = _
    rw [hprev, Function.update_of_ne ha]
  have hprev' : ∀ a, a ≠ b → (m.remove e).prev a = m.prev a := by
    intro a ha
    show Function.update m.prev (m.next e) (m.prev e) a = _
    rw [hnext, Function.update_of_ne ha]
  have hpb : p ≠ b := fun h => hp (h ▸ List.mem_cons_of_mem e List.mem_cons_self)
  refine List.isChain_append_cons_cons.mpr ⟨?_, ⟨?_, ?_⟩, ?_⟩
  · refine chain_congr hlp (fun a ha => ?_) fun a ha => ?_
    · rw [List.dropLast_concat] at ha
      exact hnext' a (fun h => hdisj a ha p List.mem_cons_self h)
    · have ha' : a ∈ l ++ [p] := List.mem_of_mem_tail ha
      rw [List.mem_append, List.mem_singleton] at ha'
      rcases ha' with ha' | rfl
      · exact hprev' a (fun h => hdisj a ha' b
          (List.mem_cons_of_mem p (List.mem_cons_of_mem e List.mem_cons_self)) h)
      · exact hprev' a hpb
  · show Function.update m.next (m.prev e) (m.next e) p = b
    rw [hprev, Function.update_self, hnext]
  · show Function.update m.prev (m.next e) (m.prev e) b = p
    rw [hnext, Function.update_self, hprev]
  · refine chain_congr hbr (fun a ha => ?_) fun a ha => ?_
    · have ha' := List.dropLast_subset _ ha
      exact hnext' a (fun h => hp (h ▸ List.mem_cons_of_mem e ha'))
    · exact hprev' a (fun h => hb (h ▸ ha))

omit [DecidableEq α] in
theorem nodes_append : nodes h t (xs ++ ys) = (h :: xs) ++ (ys ++ [t]) := by
  simp [nodes]

omit [DecidableEq α] in
theorem nodes_nodup : (nodes h t (xs ++ e :: ys)).Nodup ↔
    e ∉ nodes h t (xs ++ ys) ∧ (nodes h t (xs ++ ys)).Nodup := by
  rw [nodes_append, nodes_append]
  show ((h :: xs) ++ e :: (ys ++ [t])).Nodup ↔ _
  rw [List.nodup_middle]
  exact List.nodup_cons

omit [DecidableEq α] in
/-- The last of a list that is not empty. -/
theorem exists_concat (a : α) (l : List α) : ∃ l' p, a :: l = l' ++ [p] :=
  ⟨(a :: l).dropLast, (a :: l).getLast (List.cons_ne_nil a l), by
    rw [List.dropLast_append_getLast]⟩

omit [DecidableEq α] in
/-- The first of a list that is not empty. -/
theorem exists_cons (l : List α) (a : α) : ∃ b r, l ++ [a] = b :: r := by
  cases l with
  | nil => exact ⟨a, [], rfl⟩
  | cons b l => exact ⟨b, l ++ [a], rfl⟩

theorem Holds.insert (xs ys : List α) (hm : Holds m h t (xs ++ ys)) {b : α} {r : List α}
    (hb : ys ++ [t] = b :: r) (he : e ∉ nodes h t (xs ++ ys)) :
    Holds (m.insertBefore b e) h t (xs ++ e :: ys) := by
  obtain ⟨l, p, hlp⟩ := exists_concat h xs
  have hsplit : nodes h t (xs ++ ys) = l ++ p :: b :: r := by
    rw [nodes_append, hlp, hb, List.append_assoc]
    rfl
  have hsplit' : nodes h t (xs ++ e :: ys) = l ++ p :: e :: b :: r := by
    rw [nodes_append, hlp, List.cons_append, hb, List.append_assoc]
    rfl
  refine ⟨?_, ?_⟩
  · have hchain := hm.chain
    have hnodup := hm.nodup
    rw [hsplit] at hchain hnodup he
    rw [hsplit']
    exact insertBefore_chain hchain hnodup he
  · exact nodes_nodup.mpr ⟨he, hm.nodup⟩

/-- At the end. -/
theorem Holds.append (hm : Holds m h t xs) (he : e ∉ nodes h t xs) :
    Holds (m.insertBefore t e) h t (xs ++ [e]) :=
  Holds.insert xs [] (r := []) (by rwa [List.append_nil]) rfl (by rwa [List.append_nil])

/-- At the front. -/
theorem Holds.push (hm : Holds m h t xs) (he : e ∉ nodes h t xs) :
    Holds (m.insertBefore (m.next h) e) h t (e :: xs) := by
  obtain ⟨b, r, hb⟩ := exists_cons xs t
  have hchain := hm.chain
  rw [nodes, hb] at hchain
  have hnext : m.next h = b := (List.isChain_cons_cons.mp hchain).1.1
  rw [hnext]
  exact Holds.insert [] xs hm hb he

theorem Holds.remove (xs : List α) (hm : Holds m h t (xs ++ e :: ys)) :
    Holds (m.remove e) h t (xs ++ ys) := by
  obtain ⟨l, p, hlp⟩ := exists_concat h xs
  obtain ⟨b, r, hb⟩ := exists_cons ys t
  have hsplit : nodes h t (xs ++ e :: ys) = l ++ p :: e :: b :: r := by
    rw [nodes_append, hlp, List.cons_append, hb, List.append_assoc]
    rfl
  have hsplit' : nodes h t (xs ++ ys) = l ++ p :: b :: r := by
    rw [nodes_append, hlp, hb, List.append_assoc]
    rfl
  refine ⟨?_, ?_⟩
  · have hchain := hm.chain
    have hnodup := hm.nodup
    rw [hsplit] at hchain hnodup
    rw [hsplit']
    exact remove_chain hchain hnodup
  · exact (nodes_nodup.mp hm.nodup).2

theorem Holds.erase (hm : Holds m h t xs) (he : e ∈ xs) : Holds (m.remove e) h t (xs.erase e) := by
  obtain ⟨ys, zs, -, hxs, herase⟩ := List.exists_erase_eq he
  rw [herase]
  rw [hxs] at hm
  exact hm.remove ys

/-- The first element is the successor of the front end. -/
theorem Holds.pop (hm : Holds m h t (e :: xs)) : m.next h = e ∧ Holds (m.remove e) h t xs := by
  have hchain : (h :: e :: (xs ++ [t])).IsChain m.Adj := hm.chain
  exact ⟨(List.isChain_cons_cons.mp hchain).1.1, Holds.remove [] hm⟩

omit [DecidableEq α] in
theorem Holds.next_eq (hm : Holds m h t xs) : m.next h = t ↔ xs = [] := by
  cases xs with
  | nil =>
      have hchain : [h, t].IsChain m.Adj := hm.chain
      exact iff_of_true (List.isChain_cons_cons.mp hchain).1.1 rfl
  | cons a xs =>
      have hchain : (h :: a :: (xs ++ [t])).IsChain m.Adj := hm.chain
      have hnodup : (h :: a :: (xs ++ [t])).Nodup := hm.nodup
      have hnext : m.next h = a := (List.isChain_cons_cons.mp hchain).1.1
      have hat : a ≠ t := by
        rintro rfl
        have ha := (List.nodup_cons.mp (List.nodup_cons.mp hnodup).2).1
        exact ha (List.mem_append_right xs List.mem_cons_self)
      rw [hnext]
      exact iff_of_false hat (List.cons_ne_nil a xs)

theorem walk_chain : ∀ (xs : List α) (left : Nat) {x : α} {r : List α}, xs ++ [t] = x :: r →
    (xs ++ [t]).IsChain m.Adj → t ∉ xs → xs.length < left →
    m.walk t e left x = some (decide (e ∈ xs)) := by
  intro xs
  induction xs with
  | nil =>
      intro left x r hx _ _ hleft
      obtain ⟨rfl, -⟩ := List.cons_eq_cons.mp hx
      cases left with
      | zero => exact absurd hleft (Nat.not_lt_zero _)
      | succ left =>
          rw [walk, if_pos rfl]
          rfl
  | cons a xs ih =>
      intro left x r hx hchain ht hleft
      obtain ⟨rfl, -⟩ := List.cons_eq_cons.mp hx
      cases left with
      | zero => exact absurd hleft (Nat.not_lt_zero _)
      | succ left =>
          have hat : a ≠ t := fun h => ht (h ▸ List.mem_cons_self)
          rw [walk, if_neg hat]
          by_cases hae : a = e
          · rw [if_pos hae, decide_eq_true (hae ▸ List.mem_cons_self)]
          · rw [if_neg hae]
            obtain ⟨b, r', hb⟩ := exists_cons xs t
            have hchain' : (a :: b :: r').IsChain m.Adj := by
              rw [← hb]
              exact hchain
            obtain ⟨hadj, hrest⟩ := List.isChain_cons_cons.mp hchain'
            rw [hadj.1, ih left hb (by rw [hb]; exact hrest)
              (fun h => ht (List.mem_cons_of_mem a h)) (Nat.lt_of_succ_lt_succ hleft)]
            have hmem : e ∈ a :: xs ↔ e ∈ xs :=
              ⟨fun h => (List.mem_cons.mp h).resolve_left (Ne.symm hae), List.mem_cons_of_mem a⟩
            rw [decide_eq_decide.mpr hmem]

/-- The search finds exactly the elements. -/
theorem Holds.walk (hm : Holds m h t xs) (e : α) (left : Nat) (hleft : xs.length < left) :
    m.walk t e left (m.next h) = some (decide (e ∈ xs)) := by
  obtain ⟨b, r, hb⟩ := exists_cons xs t
  have hchain : (h :: b :: r).IsChain m.Adj := by
    rw [← hb]
    exact hm.chain
  obtain ⟨hadj, hrest⟩ := List.isChain_cons_cons.mp hchain
  rw [hadj.1]
  exact walk_chain xs left hb (by rw [hb]; exact hrest) hm.tail_not_mem hleft

omit [DecidableEq α] in
theorem chain_prev_mem : ∀ {l : List α}, l.IsChain m.Adj → ∀ b ∈ l.tail, m.prev b ∈ l := by
  intro l
  induction l with
  | nil => exact fun _ b hb => absurd hb List.not_mem_nil
  | cons a l ih =>
      intro hl b hb
      cases l with
      | nil => exact absurd hb List.not_mem_nil
      | cons c l =>
          obtain ⟨hac, hl'⟩ := List.isChain_cons_cons.mp hl
          rcases List.mem_cons.mp hb with rfl | hb'
          · rw [hac.2]
            exact List.mem_cons_self
          · exact List.mem_cons_of_mem a (ih hl' b hb')

omit [DecidableEq α] in
theorem chain_next_mem : ∀ {l : List α}, l.IsChain m.Adj → ∀ b ∈ l.dropLast, m.next b ∈ l := by
  intro l
  induction l with
  | nil => exact fun _ b hb => absurd hb List.not_mem_nil
  | cons a l ih =>
      intro hl b hb
      cases l with
      | nil => exact absurd hb List.not_mem_nil
      | cons c l =>
          obtain ⟨hac, hl'⟩ := List.isChain_cons_cons.mp hl
          rcases List.mem_cons.mp hb with rfl | hb'
          · rw [hac.1]
            exact List.mem_cons_of_mem b List.mem_cons_self
          · exact List.mem_cons_of_mem a (ih hl' b hb')

omit [DecidableEq α] in
theorem Holds.prev_mem (hm : Holds m h t xs) {b : α} (hb : b ∈ xs ∨ b = t) :
    m.prev b ∈ nodes h t xs := by
  refine chain_prev_mem hm.chain b (List.mem_append.mpr (hb.imp_right fun hbt => ?_))
  rw [hbt]
  exact List.mem_cons_self

omit [DecidableEq α] in
theorem Holds.next_mem (hm : Holds m h t xs) {b : α} (hb : b = h ∨ b ∈ xs) :
    m.next b ∈ nodes h t xs := by
  refine chain_next_mem hm.chain b ?_
  have hdrop : (nodes h t xs).dropLast = h :: xs := @List.dropLast_concat α (h :: xs) t
  rw [hdrop]
  exact List.mem_cons.mpr hb

/-! ## Families of lists -/

/-- List `i` lies between `hd i` and `tl i` and has the elements `f i`. -/
structure Lists {ι : Type} (m : Links α) (hd tl : ι → α) (f : ι → List α) : Prop where
  holds : ∀ i, Holds m (hd i) (tl i) (f i)
  apart : ∀ i j a, a ∈ nodes (hd i) (tl i) (f i) → a ∈ nodes (hd j) (tl j) (f j) → i = j

section

variable {ι : Type} [DecidableEq ι] {hd tl : ι → α} {f : ι → List α} {i : ι}

omit [DecidableEq α] [DecidableEq ι] in
/-- Links of nodes outside the lists may change. -/
theorem Lists.congr (hf : Lists m hd tl f)
    (hsame : ∀ i a, a ∈ nodes (hd i) (tl i) (f i) → m'.next a = m.next a ∧ m'.prev a = m.prev a) :
    Lists m' hd tl f where
  holds i := (hf.holds i).congr (fun a ha => (hsame i a ha).1) fun a ha => (hsame i a ha).2
  apart := hf.apart

omit [DecidableEq α] in
/-- What a change of one list has to keep of the others. -/
theorem Lists.change (hf : Lists m hd tl f) {xs : List α} (hi : Holds m' (hd i) (tl i) xs)
    (hother : ∀ j, j ≠ i → Holds m' (hd j) (tl j) (f j))
    (hnew : ∀ a, a ∈ xs → a ∈ f i ∨ ∀ j, a ∉ nodes (hd j) (tl j) (f j)) :
    Lists m' hd tl (Function.update f i xs) := by
  have hmem : ∀ a, a ∈ nodes (hd i) (tl i) xs →
      a ∈ nodes (hd i) (tl i) (f i) ∨ ∀ j, a ∉ nodes (hd j) (tl j) (f j) := by
    intro a ha
    rcases mem_nodes.mp ha with h | h | h
    · exact Or.inl (mem_nodes.mpr (Or.inl h))
    · exact (hnew a h).imp_left fun h => mem_nodes.mpr (Or.inr (Or.inl h))
    · exact Or.inl (mem_nodes.mpr (Or.inr (Or.inr h)))
  refine ⟨fun j => ?_, fun j k a hj hk => ?_⟩
  · by_cases hji : j = i
    · rw [hji, Function.update_self]
      exact hi
    · rw [Function.update_of_ne hji]
      exact hother j hji
  · by_cases hji : j = i
    · by_cases hki : k = i
      · rw [hji, hki]
      · rw [hji, Function.update_self] at hj
        rw [Function.update_of_ne hki] at hk
        rw [hji]
        exact (hmem a hj).elim (fun h => hf.apart i k a h hk) fun h => absurd hk (h k)
    · rw [Function.update_of_ne hji] at hj
      by_cases hki : k = i
      · rw [hki, Function.update_self] at hk
        rw [hki]
        exact (hmem a hk).elim (fun h => hf.apart j i a hj h) fun h => absurd hj (h j)
      · rw [Function.update_of_ne hki] at hk
        exact hf.apart j k a hj hk

omit [DecidableEq α] [DecidableEq ι] in
/-- Nodes of a list are not among those of another. -/
theorem Lists.other (hf : Lists m hd tl f) {j : ι} (hji : j ≠ i) {a b : α}
    (ha : a ∈ nodes (hd j) (tl j) (f j)) (hb : b ∈ nodes (hd i) (tl i) (f i)) : a ≠ b := by
  rintro rfl
  exact hji (hf.apart j i a ha hb)

omit [DecidableEq ι] in
/-- The links of the nodes of list `i` and of `e` may change for the other lists. -/
theorem Lists.insertBefore_other (hf : Lists m hd tl f) {b : α}
    (hb : b ∈ nodes (hd i) (tl i) (f i)) (hp : m.prev b ∈ nodes (hd i) (tl i) (f i))
    (he : ∀ j, e ∉ nodes (hd j) (tl j) (f j)) {j : ι} (hji : j ≠ i) :
    Holds (m.insertBefore b e) (hd j) (tl j) (f j) := by
  refine (hf.holds j).congr (fun a ha => ?_) fun a ha => ?_
  · have hae : a ≠ e := fun h => he j (h ▸ ha)
    show Function.update (Function.update m.next (m.prev b) e) e b a = _
    rw [Function.update_of_ne hae, Function.update_of_ne (hf.other hji ha hp)]
  · have hae : a ≠ e := fun h => he j (h ▸ ha)
    show Function.update (Function.update m.prev e (m.prev b)) b e a = _
    rw [Function.update_of_ne (hf.other hji ha hb), Function.update_of_ne hae]

omit [DecidableEq ι] in
theorem Lists.remove_other (hf : Lists m hd tl f) (he : e ∈ f i) {j : ι} (hji : j ≠ i) :
    Holds (m.remove e) (hd j) (tl j) (f j) := by
  have hp := (hf.holds i).prev_mem (Or.inl he)
  have hn := (hf.holds i).next_mem (Or.inr he)
  refine (hf.holds j).congr (fun a ha => ?_) fun a ha => ?_
  · exact Function.update_of_ne (hf.other hji ha hp) ..
  · exact Function.update_of_ne (hf.other hji ha hn) ..

theorem Lists.append (hf : Lists m hd tl f) (i : ι) (he : ∀ j, e ∉ nodes (hd j) (tl j) (f j)) :
    Lists (m.insertBefore (tl i) e) hd tl (Function.update f i (f i ++ [e])) := by
  have ht : tl i ∈ nodes (hd i) (tl i) (f i) := mem_nodes.mpr (Or.inr (Or.inr rfl))
  refine hf.change ((hf.holds i).append (he i)) (fun j hji => ?_) fun a ha => ?_
  · exact hf.insertBefore_other ht ((hf.holds i).prev_mem (Or.inr rfl)) he hji
  · rcases List.mem_append.mp ha with h | h
    · exact Or.inl h
    · rw [List.mem_singleton.mp h]
      exact Or.inr he

theorem Lists.push (hf : Lists m hd tl f) (i : ι) (he : ∀ j, e ∉ nodes (hd j) (tl j) (f j)) :
    Lists (m.insertBefore (m.next (hd i)) e) hd tl (Function.update f i (e :: f i)) := by
  have hn := (hf.holds i).next_mem (Or.inl rfl)
  have hb : m.next (hd i) ∈ f i ∨ m.next (hd i) = tl i := by
    refine (mem_nodes.mp hn).resolve_left fun heq => ?_
    obtain ⟨b, r, hb⟩ := exists_cons (f i) (tl i)
    have hchain : (hd i :: b :: r).IsChain m.Adj := by
      rw [← hb]
      exact (hf.holds i).chain
    have hnodup : (hd i :: b :: r).Nodup := by
      rw [← hb]
      exact (hf.holds i).nodup
    rw [(List.isChain_cons_cons.mp hchain).1.1] at heq
    exact (List.nodup_cons.mp hnodup).1 (heq ▸ List.mem_cons_self)
  refine hf.change ((hf.holds i).push (he i)) (fun j hji => ?_) fun a ha => ?_
  · exact hf.insertBefore_other hn ((hf.holds i).prev_mem hb) he hji
  · rcases List.mem_cons.mp ha with h | h
    · rw [h]
      exact Or.inr he
    · exact Or.inl h

/-- In front of an element. -/
theorem Lists.insert (hf : Lists m hd tl f) {b : α} {xs ys : List α} (hxs : f i = xs ++ b :: ys)
    (he : ∀ j, e ∉ nodes (hd j) (tl j) (f j)) :
    Lists (m.insertBefore b e) hd tl (Function.update f i (xs ++ e :: b :: ys)) := by
  have hb : b ∈ f i := by
    rw [hxs]
    exact List.mem_append_right xs List.mem_cons_self
  have hi := hf.holds i
  have hei := he i
  rw [hxs] at hi hei
  refine hf.change (Holds.insert xs (b :: ys) hi rfl hei) (fun j hji => ?_) fun a ha => ?_
  · exact hf.insertBefore_other (mem_nodes.mpr (Or.inr (Or.inl hb)))
      ((hf.holds i).prev_mem (Or.inl hb)) he hji
  · rw [hxs]
    rcases List.mem_append.mp ha with h | h
    · exact Or.inl (List.mem_append_left _ h)
    · rcases List.mem_cons.mp h with h | h
      · rw [h]
        exact Or.inr he
      · exact Or.inl (List.mem_append_right xs h)

theorem Lists.erase (hf : Lists m hd tl f) (he : e ∈ f i) :
    Lists (m.remove e) hd tl (Function.update f i ((f i).erase e)) :=
  hf.change ((hf.holds i).erase he) (fun _ hji => hf.remove_other he hji)
    fun _ ha => Or.inl (List.mem_of_mem_erase ha)

theorem Lists.pop (hf : Lists m hd tl f) (i : ι) (xs : List α) (hxs : f i = e :: xs) :
    m.next (hd i) = e ∧ Lists (m.remove e) hd tl (Function.update f i xs) := by
  have hi := hf.holds i
  rw [hxs] at hi
  have he : e ∈ f i := by
    rw [hxs]
    exact List.mem_cons_self
  refine ⟨hi.pop.1, hf.change hi.pop.2 (fun _ hji => hf.remove_other he hji) fun a ha => ?_⟩
  rw [hxs]
  exact Or.inl (List.mem_cons_of_mem e ha)

end

end Links
