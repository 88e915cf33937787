/-
The size check of `file_write` and the indices into `all_blocks`.

The check adds in 32 bits, and the limit that it allows is a multiple of the block size, so
a file of that size has one block more than the table.  `Request` has what the indices
depend on, and the lemmas at the end say that the loops of the model use no other index.
-/
import OsTruth.Fs.FileWrite

namespace OsTruth

open ByteString Fallible

/-! ## The indices -/

/-- The size of a file, the count of a call, and what the variable `block_idx` holds before
the first assignment to it. -/
structure Request where
  iSize : UInt32
  count : UInt32
  blockIdx : UInt32

/-- The size check lets the request through. -/
def Request.Accepted (r : Request) : Prop := ¬r.iSize + r.count > 512 * 140

instance (r : Request) : Decidable r.Accepted := inferInstanceAs (Decidable (¬_))

/-- The size behind the write. -/
def Request.sum (r : Request) : Nat := r.iSize.toNat + r.count.toNat

def Request.hasUsed (r : Request) : Nat := (r.iSize / 512 + 1).toNat

def Request.willUse (r : Request) : Nat := ((r.iSize + r.count) / 512 + 1).toNat

/-- The indices that `ide_read` and `ide_write` use from `all_blocks + 12` on. -/
def tableIndices : List Nat := List.range' 12 128

/-- The indices of the part that gathers the blocks, when no allocation fails. -/
def Request.gatherIndices (r : Request) : List Nat :=
  let grown := List.range' r.hasUsed (r.willUse - r.hasUsed)
  if r.willUse = r.hasUsed then
    if r.willUse ≤ 12 then [r.hasUsed - 1] else tableIndices
  else if r.willUse ≤ 12 then (r.hasUsed - 1) :: grown
  else if r.hasUsed ≤ 12 then r.blockIdx.toNat :: (grown ++ tableIndices)
  else tableIndices ++ grown

/-- `chunk_size` at a file size.  `size_left` stays `count`. -/
def chunkSize (count iSize : UInt32) : UInt32 :=
  if count < 512 - iSize % 512 then count else 512 - iSize % 512

theorem toNat_chunkSize (count iSize : UInt32) :
    (chunkSize count iSize).toNat = min count.toNat (512 - iSize.toNat % 512) := by
  have hmod : (iSize % 512).toNat = iSize.toNat % 512 := UInt32.toNat_mod ..
  have hle : iSize % 512 ≤ 512 := by
    rw [UInt32.le_iff_toNat_le, hmod]
    show _ ≤ 512
    omega
  have hleft : (512 - iSize % 512).toNat = 512 - iSize.toNat % 512 := by
    rw [UInt32.toNat_sub_of_le _ _ hle, hmod]
    rfl
  unfold chunkSize
  by_cases h : count < 512 - iSize % 512
  · rw [if_pos h]
    rw [UInt32.lt_iff_toNat_lt, hleft] at h
    omega
  · rw [if_neg h, hleft]
    rw [UInt32.lt_iff_toNat_lt, hleft] at h
    omega

/-- The indices of the first rounds of the copy loop. -/
def copyIndices (count : UInt32) : Nat → UInt32 → UInt32 → List Nat
  | 0, _, _ => []
  | rounds + 1, iSize, bytesWritten =>
      if bytesWritten < count then
        (iSize / 512).toNat ::
          copyIndices count rounds (iSize + chunkSize count iSize)
            (bytesWritten - chunkSize count iSize)
      else []

/-- The limit holds, the assertion holds, and every index is inside `all_blocks`. -/
structure Request.Bounded (r : Request) : Prop where
  sum : r.sum ≤ 512 * 140
  willUse : r.willUse ≤ 140
  gather : ∀ k ∈ r.gatherIndices, k < 140
  copy : ∀ rounds, ∀ k ∈ copyIndices r.count rounds r.iSize 0, k < 140

namespace Request

variable {r : Request}

theorem toNat_blocks (n : UInt32) : (n / 512 + 1).toNat = n.toNat / 512 + 1 := by
  have hn := n.toNat_lt
  rw [UInt32.toNat_add, UInt32.toNat_div]
  show (n.toNat / 512 + 1) % 2 ^ 32 = _
  omega

theorem hasUsed_eq (r : Request) : r.hasUsed = r.iSize.toNat / 512 + 1 := toNat_blocks r.iSize

/-- Without a wrap the block count is the count of the true size. -/
theorem willUse_eq (h : r.sum < 2 ^ 32) : r.willUse = r.sum / 512 + 1 := by
  unfold willUse sum at *
  rw [toNat_blocks, UInt32.toNat_add, Nat.mod_eq_of_lt h]

/-- A request below the limit passes the check. -/
theorem accepted_of_lt (h : r.sum < 512 * 140) : r.Accepted := by
  unfold Accepted
  unfold sum at h
  rw [gt_iff_lt, UInt32.lt_iff_toNat_lt, UInt32.toNat_add, Nat.mod_eq_of_lt (by omega)]
  show ¬71680 < _
  omega

theorem mem_gatherIndices_blockIdx (h : r.hasUsed ≤ 12) (hw : 12 < r.willUse) :
    r.blockIdx.toNat ∈ r.gatherIndices := by
  have hne : r.willUse ≠ r.hasUsed := by omega
  have hnot : ¬r.willUse ≤ 12 := by omega
  unfold gatherIndices
  simp only [hne, hnot, h, if_false, if_true]
  exact List.mem_cons_self ..

theorem mem_tableIndices {k : Nat} (h : k ∈ tableIndices) : 12 ≤ k ∧ k < 140 := by
  rw [tableIndices, List.mem_range'_1] at h
  omega

/-- Below the limit only the uninitialised index can be out of the table. -/
theorem gatherIndices_lt (h : r.sum < 512 * 140)
    (hidx : r.hasUsed ≤ 12 → 12 < r.willUse → r.blockIdx.toNat < 140) :
    ∀ k ∈ r.gatherIndices, k < 140 := by
  have hused := r.hasUsed_eq
  have hwill := willUse_eq (r := r) (by omega)
  unfold sum at h hwill
  have hgrown : ∀ k ∈ List.range' r.hasUsed (r.willUse - r.hasUsed), k < 140 := by
    intro k hk
    rw [List.mem_range'_1] at hk
    omega
  have htable : ∀ k ∈ tableIndices, k < 140 := fun k hk => (mem_tableIndices hk).2
  intro k hk
  unfold gatherIndices at hk
  simp only at hk
  by_cases hsame : r.willUse = r.hasUsed
  · rw [if_pos hsame] at hk
    by_cases hdirect : r.willUse ≤ 12
    · rw [if_pos hdirect, List.mem_singleton] at hk
      omega
    · rw [if_neg hdirect] at hk
      exact htable k hk
  · rw [if_neg hsame] at hk
    by_cases hdirect : r.willUse ≤ 12
    · rw [if_pos hdirect, List.mem_cons] at hk
      rcases hk with hk | hk
      · omega
      · exact hgrown k hk
    · rw [if_neg hdirect] at hk
      by_cases hlow : r.hasUsed ≤ 12
      · rw [if_pos hlow, List.mem_cons, List.mem_append] at hk
        rcases hk with hk | hk | hk
        · rw [hk]
          exact hidx hlow (by omega)
        · exact hgrown k hk
        · exact htable k hk
      · rw [if_neg hlow, List.mem_append] at hk
        exact hk.elim (htable k) (hgrown k)

/-- Below the limit the copy loop has one round. -/
theorem copyIndices_lt (h : r.sum < 512 * 140) (rounds : Nat) :
    ∀ k ∈ copyIndices r.count rounds r.iSize 0, k < 140 := by
  unfold sum at h
  intro k hk
  cases rounds with
  | zero => cases hk
  | succ rounds =>
      rw [copyIndices] at hk
      by_cases hpos : 0 < r.count
      · rw [if_pos hpos, List.mem_cons] at hk
        have hoff : (r.iSize % 512).toNat < 512 := by
          rw [UInt32.toNat_mod]
          exact Nat.mod_lt _ (by decide)
        have hend : ¬0 - chunkSize r.count r.iSize < r.count :=
          (sub_chunk_not_lt (by omega) hpos hoff).1
        rcases hk with hk | hk
        · rw [hk, UInt32.toNat_div]
          show r.iSize.toNat / 512 < 140
          omega
        · cases rounds with
          | zero => cases hk
          | succ rounds =>
              rw [copyIndices, if_neg hend] at hk
              cases hk
      · rw [if_neg hpos] at hk
        cases hk

/-- An accepted request keeps the bounds exactly when the file stays below the limit and the
index that was never assigned is not used, or happens to be inside the table. -/
theorem bounded_iff (r : Request) :
    (r.Accepted → r.Bounded) ↔
      ¬r.Accepted ∨
        (r.sum < 512 * 140 ∧ (r.hasUsed ≤ 12 → 12 < r.willUse → r.blockIdx.toNat < 140)) := by
  by_cases haccept : r.Accepted
  · simp only [haccept, true_implies, not_true_eq_false, false_or]
    constructor
    · intro hb
      have hsum := hb.sum
      have hwill := hb.willUse
      rw [willUse_eq (by omega)] at hwill
      refine ⟨by omega, fun hlow hhigh => ?_⟩
      exact hb.gather _ (mem_gatherIndices_blockIdx hlow hhigh)
    · intro ⟨hsum, hidx⟩
      have hwill := willUse_eq (r := r) (by omega)
      exact {
        sum := Nat.le_of_lt hsum
        willUse := by omega
        gather := gatherIndices_lt hsum hidx
        copy := copyIndices_lt hsum }
  · simp only [haccept, false_implies, not_false_eq_true, true_or]

/-- An empty file and a count of 140 blocks: the check lets it through, and the number of
blocks is 141. -/
theorem not_bounded_limit :
    ¬((Request.mk 0 71680 0).Accepted → (Request.mk 0 71680 0).Bounded) := by
  intro h
  have hwill := (h (by decide)).willUse
  exact absurd hwill (by decide)

end Request

/-! ## Against the loops of the model -/

section

variable {s : State} {p : Ptr}

/-- The loop that allocates stores at the indices that it runs over. -/
theorem growLoop_frame (left blockIdx : Nat) (allBlocks : BlockArray) :
    Ensures (growLoop p left blockIdx allBlocks) s fun o _ =>
      ∀ b, o = some b → ∀ k, k ∉ List.range' blockIdx left → b k = allBlocks k := by
  induction left generalizing s blockIdx allBlocks with
  | zero =>
      intro b hb k _
      cases hb
      rfl
  | succ left ih =>
      rw [growLoop, Ensures, Wp.bind]
      refine Wp.trivial.call fun blockLba s₁ _ => ?_
      rw [Wp.ite]
      refine ⟨fun _ b hb => (by cases hb), fun _ => ?_⟩
      rw [Wp.bind]
      refine Wp.trivial.call fun _ s₂ _ => ?_
      rw [Wp.bind, Wp.get, Wp.bind]
      refine Wp.trivial.call fun _ s₃ _ => ?_
      refine (ih _ _).call fun o t hframe b hb k hk => ?_
      rw [List.range'_succ, List.mem_cons, not_or] at hk
      rw [hframe b hb k hk.2]
      exact if_neg hk.1

theorem ideReadTable_frame (lba : UInt32) (allBlocks : BlockArray) :
    Ensures (ideReadTable lba allBlocks) s fun b _ =>
      ∀ k, k < 140 → k ∉ tableIndices → b k = allBlocks k := by
  rw [ideReadTable, Ensures, Wp.bind]
  refine Wp.trivial.call fun b t _ k hlt hk => ?_
  rw [tableIndices, List.mem_range'_1] at hk
  exact if_pos (by omega)

/-- The blocks that a write needs are stored at no other index. -/
theorem gatherWrite_frame (r : Request) :
    Ensures (gatherWrite p r.hasUsed r.willUse) s fun o _ =>
      ∀ b, o = some b → ∀ k, k < 140 → k ∉ r.gatherIndices → b k = 0 := by
  rw [gatherWrite, Ensures, Wp.bind]
  refine Wp.trivial.call fun i s₁ _ => ?_
  simp only [Request.gatherIndices, Wp.ite]
  refine ⟨fun hsame => ⟨fun hdirect b hb k _ hk => ?_, fun hdirect => ?_⟩,
    fun hsame => ⟨fun hdirect => ?_, fun hdirect => ⟨fun _ => True.intro, fun hlow => ?_⟩⟩⟩
  · obtain rfl := Option.some.inj hb
    rw [if_pos hsame, if_pos hdirect, List.mem_singleton] at hk
    exact if_neg hk
  · rw [Wp.bind]
    refine Wp.trivial.call fun _ s₂ _ => ?_
    rw [Wp.bind]
    refine (ideReadTable_frame _ _).call fun a s₃ ha b hb k hlt hk => ?_
    obtain rfl := Option.some.inj hb
    rw [if_pos hsame, if_neg hdirect] at hk
    exact ha k hlt hk
  · refine ⟨fun _ => True.intro, fun _ => ?_⟩
    rw [Wp.bind]
    refine Wp.trivial.call fun _ s₂ _ => ?_
    refine (growLoop_frame _ _ _).call fun o s₃ ho b hb k _ hk => ?_
    rw [if_neg hsame, if_pos hdirect, List.mem_cons, not_or] at hk
    rw [ho b hb k hk.2]
    exact if_neg hk.1
  · rw [Wp.bind]
    refine Wp.trivial.call fun _ s₂ _ => ?_
    rw [Wp.bind]
    refine (ideReadTable_frame _ _).call fun a s₃ ha => ?_
    rw [Wp.bind]
    refine (growLoop_frame _ _ _).call fun o s₄ ho => ?_
    cases o with
    | none =>
        intro b hb
        cases hb
    | some grown =>
        rw [Wp.bind]
        refine Wp.trivial.call fun _ s₅ _ b hb k hlt hk => ?_
        obtain rfl := Option.some.inj hb
        rw [if_neg hsame, if_neg hdirect, if_neg hlow, List.mem_append, not_or] at hk
        rw [ho _ rfl k hk.2]
        exact ha k hlt hk.1

/-- A copy loop that ends used only indices inside the table. -/
theorem writeLoop_indices {fdIdx : Nat} {src : Bytes} {count : UInt32} {allBlocks : BlockArray}
    {i : Inode} (left srcOff : Nat) (bytesWritten : UInt32) (first : Bool)
    (hi : s.inodes p = some i) :
    Ensures (writeLoop p fdIdx src count count allBlocks left srcOff bytesWritten first) s
      fun _ _ => ∀ k ∈ copyIndices count left i.iSize bytesWritten, k < 140 := by
  induction left generalizing s srcOff bytesWritten first i with
  | zero => exact True.intro
  | succ left ih =>
      rw [writeLoop, Ensures, Wp.ite]
      refine ⟨fun hlt => ?_, fun hend k hk => ?_⟩
      · rw [Wp.bind, wp_loadInode_some hi, Wp.ite]
        refine ⟨fun _ => True.intro, fun hidx => ?_⟩
        have hnext : ∀ u : State, u.inodes p = some { i with iSize := i.iSize + chunkSize count i.iSize } →
            Ensures (writeLoop p fdIdx src count count allBlocks left
              (srcOff + (chunkSize count i.iSize).toNat)
              (bytesWritten - chunkSize count i.iSize) false) u
              fun _ _ => ∀ k ∈ copyIndices count (left + 1) i.iSize bytesWritten, k < 140 := by
          intro u hu
          refine (ih _ _ _ hu).call fun _ _ hrest k hk => ?_
          rw [copyIndices, if_pos hlt, List.mem_cons] at hk
          rcases hk with hk | hk
          · omega
          · exact hrest k hk
        simp only [Wp.ite, Wp.bind, wp_ideRead, Wp.pure, wp_put, wp_ideWrite, wp_storeInode,
          Wp.modify, implies_true, and_true]
        exact ⟨fun _ _ _ _ _ _ _ => hnext _ (if_pos rfl), fun _ _ _ _ _ => hnext _ (if_pos rfl)⟩
      · rw [copyIndices, if_neg hend] at hk
        cases hk

end

end OsTruth
