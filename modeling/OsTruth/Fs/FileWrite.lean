/-
What `file_write` returns.

The copy loop subtracts the chunk from `bytes_written`, so the counter passes below
zero in the first round, the loop ends there, and the negated chunk is returned.
-/
import OsTruth.Fs.Layout

namespace OsTruth

open ByteString Fallible

/-! ## The content of a file -/

/-- Block `k` of a file: a direct block, or one that the indirect table names. -/
def blockLba (disk : Bytes) (i : Inode) (k : Nat) : UInt32 :=
  if k < 12 then i.sector k else wordAt disk (sectorOff (i.sector 12) + 4 * (k - 12))

def fileByte (disk : Bytes) (i : Inode) (n : Nat) : UInt8 :=
  disk (sectorOff (blockLba disk i (n / 512)) + n % 512)

/-- The blocks of a file: the blocks that hold its bytes and its indirect table. -/
def Owns (disk : Bytes) (i : Inode) (lba : UInt32) : Prop :=
  lba = i.sector 12 ∨ ∃ k, 512 * k ≤ i.iSize.toNat ∧ lba = blockLba disk i k

/-- Between `s` and `t` the bytes `buf[0 .. count)` were appended to the file behind
`fdIdx`, and the call that did it returned `r`. -/
def Appended (s t : State) (fdIdx : Nat) (buf : Bytes) (count r : UInt32) : Prop :=
  r = count ∧ ∃ p i j, (s.fileTable fdIdx).fdInode = some p ∧ s.inodes p = some i ∧
    t.inodes p = some j ∧ j.iSize.toNat = i.iSize.toNat + count.toNat ∧
    (∀ k, k < i.iSize.toNat → fileByte t.disk j k = fileByte s.disk i k) ∧
    (∀ k, k < count.toNat → fileByte t.disk j (i.iSize.toNat + k) = buf k) ∧
    ∀ lba, s.part.sb.dataStartLba ≤ lba → ¬Owns t.disk j lba → ∀ k, k < 512 →
      t.disk (sectorOff lba + k) = s.disk (sectorOff lba + k)

/-- Every call of a sequence of `file_write` calls appends its buffer. -/
def AppendsAll (fdIdx : Nat) : List (Bytes × UInt32) → State → Prop
  | [], _ => True
  | (buf, count) :: calls, s =>
      Returns (fileWrite fdIdx buf count) s fun r t =>
        Appended s t fdIdx buf count r ∧ AppendsAll fdIdx calls t

/-! ## The counter of the copy loop -/

/-- The first round leaves a number behind that is not below `count`. -/
theorem sub_chunk_not_lt {count off : UInt32} (h : count.toNat < 71680) (hpos : 0 < count)
    (hoff : off.toNat < 512) :
    ¬(0 : UInt32) - (if count < 512 - off then count else 512 - off) < count ∧
      (0 : UInt32) - (if count < 512 - off then count else 512 - off) ≠ count := by
  have hpos' : 0 < count.toNat := hpos
  have hleft : (512 - off).toNat = 512 - off.toNat := by
    rw [UInt32.toNat_sub_of_le]
    · rfl
    · rw [UInt32.le_iff_toNat_le]
      show _ ≤ 512
      omega
  have hchunk : ∀ c : UInt32, 0 < c.toNat → c.toNat ≤ 512 → ((0 : UInt32) - c).toNat ≥ 4294966784 := by
    intro c h₁ h₂
    rw [UInt32.toNat_sub]
    show (2 ^ 32 - c.toNat + 0) % 2 ^ 32 ≥ _
    omega
  have hge : ((0 : UInt32) - (if count < 512 - off then count else 512 - off)).toNat ≥ 4294966784 := by
    by_cases hlt : count < 512 - off
    · rw [if_pos hlt]
      rw [UInt32.lt_iff_toNat_lt, hleft] at hlt
      exact hchunk _ hpos' (by omega)
    · rw [if_neg hlt]
      exact hchunk _ (by omega) (by omega)
  constructor
  · rw [UInt32.lt_iff_toNat_lt]
    omega
  · intro heq
    rw [heq] at hge
    omega

theorem writeLoop_result {p : Ptr} {fdIdx : Nat} {src : Bytes} {count : UInt32}
    {allBlocks : BlockArray} {s : State} (h : count.toNat < 71680) (hpos : 0 < count) :
    Ensures (writeLoop p fdIdx src count count allBlocks 141 0 0 true) s
      (fun r _ => r ≠ count) := by
  rw [writeLoop]
  simp only [hpos, if_true, Ensures, Wp.bind, wp_loadInode, Wp.ite, wp_undefined, wp_ideRead,
    wp_put, wp_ideWrite, wp_storeInode, Wp.modify, implies_true, and_true, true_and]
  intro i _ _ _ _ _ _ _ _
  have hoff : (i.iSize % 512).toNat < 512 := by
    rw [UInt32.toNat_mod]
    exact Nat.mod_lt _ (by decide)
  obtain ⟨hnlt, hne⟩ := sub_chunk_not_lt h hpos hoff
  rw [writeLoop, if_neg hnlt, Wp.pure]
  exact hne

/-- Whatever the state, `file_write` does not return the count that it was given. -/
theorem fileWrite_result {fdIdx : Nat} {buf : Bytes} {count : UInt32} {s : State}
    (h : count.toNat < 71680) (hpos : 0 < count) :
    Ensures (fileWrite fdIdx buf count) s (fun r _ => r ≠ count) := by
  have hne : (-1 : UInt32) ≠ count := by
    intro heq
    rw [← heq] at h
    exact absurd h (by decide)
  have hbody : ∀ p ioBuf allBlocksPtr t,
      Ensures (writeBody p fdIdx buf count ioBuf allBlocksPtr) t (fun r _ => r ≠ count) := by
    intro p ioBuf allBlocksPtr t
    unfold writeBody writeBlocks writeCopy freeBuffers
    rw [Ensures, Wp.bind]
    refine Wp.trivial.call fun first t _ => ?_
    rw [Wp.ite, Wp.pure]
    refine ⟨fun _ => ?_, fun _ => hne⟩
    simp only [Wp.bind, wp_loadInode, wp_kassert, implies_true, and_true]
    intro i _ _
    refine Wp.trivial.call fun gathered t _ => ?_
    cases gathered with
    | none => exact hne
    | some allBlocks =>
        simp only [Wp.bind, wp_loadInode, Wp.modify, implies_true, and_true]
        intro i _
        refine (writeLoop_result h hpos).call fun r t hr i _ => ?_
        refine Wp.trivial.call fun _ _ _ => ?_
        refine Wp.trivial.call fun _ _ _ => ?_
        refine Wp.trivial.call fun _ _ _ => ?_
        exact hr
  unfold fileWrite writeBuffers sysMallocBuf
  rw [Ensures, Wp.bind]
  refine Wp.trivial.call fun p t _ => ?_
  simp only [Wp.bind, wp_loadInode, Wp.ite, Wp.pure, wp_sysMalloc, implies_true, and_true]
  intro i _
  exact ⟨fun _ => hne, fun _ => ⟨fun _ => ⟨fun _ => hbody _ _ _ _, fun _ => hne⟩, fun _ => hne⟩⟩

/-- No call of `file_write` appends its buffer, so the only sequence of calls that all
do is the empty one. -/
theorem appendsAll_iff (fdIdx : Nat) (calls : List (Bytes × UInt32)) (s : State)
    (hcount : ∀ c ∈ calls, 0 < c.2 ∧ c.2.toNat < 71680) :
    AppendsAll fdIdx calls s ↔ calls = [] := by
  cases calls with
  | nil => exact ⟨fun _ => rfl, fun _ => True.intro⟩
  | cons call calls =>
      obtain ⟨hpos, hlt⟩ := hcount call (List.mem_cons_self ..)
      refine ⟨fun h => ?_, nofun⟩
      obtain ⟨r, t, hrun, happend, -⟩ := returns_iff.mp h
      exact absurd happend.1 (ensures_iff.mp (fileWrite_result hlt hpos) r t hrun)

theorem appendsAll_one_byte :
    ¬AppendsAll 3 [(fun _ => 65, 1)] (idleState (emptyPart 2048 8192)) := by
  have hcount : ∀ c ∈ [((fun _ => 65 : Bytes), (1 : UInt32))], 0 < c.2 ∧ c.2.toNat < 71680 := by
    intro c hc
    rw [List.mem_singleton.mp hc]
    decide
  rw [appendsAll_iff 3 _ _ hcount]
  exact List.cons_ne_nil _ _

/-- A new partition with one new file, which is open for writing as descriptor 3. -/
def createF : Kern Int := do
  filesysInit fun _ => 0
  fileCreate .root [102] oRdwr

/-- The first byte that is written to a new file is reported as `-1`. -/
theorem fileWrite_fails_on_new_file :
    ∃ t, createF.run (idleState (emptyPart 2048 8192)) = .ok (3, t) ∧
      ((fileWrite 3 (fun _ => 65) 1).run t).toOption.map (fun r => r.1) = some (-1) ∧
      ¬AppendsAll 3 [(fun _ => 65, 1)] t := by
  have hrun : (createF.run (idleState (emptyPart 2048 8192))).toOption.map (fun r =>
      (r.1, ((fileWrite 3 (fun _ => 65) 1).run r.2).toOption.map (fun r => r.1))) =
        some (3, some (-1)) := by
    decide +kernel
  cases h : createF.run (idleState (emptyPart 2048 8192)) with
  | error e =>
      rw [h] at hrun
      cases hrun
  | ok p =>
      obtain ⟨fd, t⟩ := p
      rw [h] at hrun
      obtain ⟨hfd, hwrite⟩ := Prod.mk.inj (Option.some.inj hrun)
      refine ⟨t, by rw [← hfd], hwrite, fun happends => ?_⟩
      obtain ⟨r, u, hr, happend, -⟩ := returns_iff.mp happends
      exact absurd happend.1
        (ensures_iff.mp (fileWrite_result (by decide) (by decide)) r u hr)

end OsTruth
