/-
The spaces of all processes over every run, from the loader on.
-/
import OsTruth.Kernel.MemPool
import OsTruth.Userprog.SpaceCalls

namespace OsTruth

open ByteString Fallible Paging Runs Owners

/-! ## The property -/

namespace AddrSpaces

/-- The loader has made its tables over a memory without entries for the kernel's heap, and
`mem_pool_init` has run. -/
structure AtBoot (allMem : UInt32) (σ : AddrSpaces) : Prop where
  enough : 0x200000 ≤ allMem.toNat
  phys : ∃ m, σ.phys = setupPage m
  active : σ.kernelThread
  heap : ∀ p, HeapPage p → walk σ.phys σ.cr3 p = none
  pools : σ.pages.space.pools = memPoolInit allMem
  vaddrStart : σ.pages.kernelVaddr.vaddrStart = kHeapStart
  bytesLen : σ.pages.kernelVaddr.vaddrBitmap.btmpBytesLen = (kbmLength allMem).toNat
  dirs : σ.dirs = []

end AddrSpaces

/-! ## Runs -/

section

variable {allMem : UInt32} {σ τ : AddrSpaces} {c : SpaceCall}

theorem AddrSpaces.exec_ok {α : Type} {x : PageM α} {a : α} {Q : α → Pages → Prop}
    (hx : Ensures x σ.pages Q) (h : σ.exec x = .ok (a, τ)) : Q a τ.pages ∧ τ.dirs = σ.dirs := by
  unfold AddrSpaces.exec at h
  cases hrun : x.run σ.pages with
  | error e =>
      rw [hrun] at h
      cases h
  | ok r =>
      rw [hrun] at h
      cases h
      exact ⟨ensures_iff.mp hx _ _ hrun, rfl⟩

/-- A call runs a function of the pages, and records what was made. -/
theorem AddrSpaces.exec_cases {α : Type} {x : PageM α} {Q : α → Pages → Prop}
    {f : α × AddrSpaces → AddrSpaces} (hx : Ensures x σ.pages Q)
    (h : (do let r ← σ.exec x; pure (f r)) = (.ok τ : Except Fault AddrSpaces)) :
    ∃ a ρ, τ = f (a, ρ) ∧ Q a ρ.pages ∧ ρ.dirs = σ.dirs := by
  cases hexec : σ.exec x with
  | error e =>
      rw [hexec] at h
      cases h
  | ok r =>
      rw [hexec] at h
      cases h
      exact ⟨r.1, r.2, rfl, AddrSpaces.exec_ok hx hexec⟩

/-- A call that makes no directory. -/
theorem AddrSpaces.Inv.keep {α : Type} {x : PageM α} (hx : Ensures x σ.pages fun _ ρ =>
    Spaces allMem ρ.space σ.dirs ∧ HeapRange ρ.kernelVaddr)
    (h : (do let r ← σ.exec x; pure r.2) = (.ok τ : Except Fault AddrSpaces)) :
    AddrSpaces.Inv allMem τ := by
  obtain ⟨a, ρ, rfl, hρ, hdirs⟩ := AddrSpaces.exec_cases (f := Prod.snd) hx h
  rw [← hdirs] at hρ
  exact ⟨hρ.1, hρ.2⟩

/-- Every call keeps the spaces. -/
theorem spaceStep_inv (h : AddrSpaces.Inv allMem σ) (hc : spaceCall σ c)
    (hstep : spaceStep σ c = .ok τ) : AddrSpaces.Inv allMem τ := by
  obtain ⟨hspaces, hheap⟩ := h
  cases c with
  | mallocPage pf pgCnt =>
      exact .keep ((ensures_mallocPage hspaces hheap hc).call
        fun _ _ hr => ⟨hr.spaces, hr.heap⟩) hstep
  | getKernelPages pgCnt =>
      exact .keep ((ensures_getKernelPages hspaces hheap).call
        fun _ _ hr => ⟨hr.spaces, hr.heap⟩) hstep
  | mfreePage pf vaddr pgCnt =>
      exact .keep (ensures_mfreePage hspaces hheap hc.1 hc.2) hstep
  | createPageDir =>
      obtain ⟨r, ρ, rfl, ⟨hwith, hheap'⟩, hdirs⟩ := AddrSpaces.exec_cases
        (f := fun r => r.2.withDir r.1) (ensures_createPageDir hspaces hheap) hstep
      rw [← hdirs] at hwith
      cases r with
      | none => exact ⟨hwith, hheap'⟩
      | some vaddr => exact ⟨hwith, hheap'⟩
  | activate pgdir v positive =>
      have hact := (ensures_pageDirActivate hspaces hc).call
        (R := fun _ t => Spaces allMem t σ.dirs ∧ HeapRange σ.pages.kernelVaddr)
        fun _ t ht => ⟨ht, hheap⟩
      obtain ⟨r, ρ, rfl, hρ, hdirs⟩ := AddrSpaces.exec_cases
        (f := fun r => r.2.withVaddr v positive)
        (Q := fun _ ρ => Spaces allMem ρ.space σ.dirs ∧ HeapRange ρ.kernelVaddr)
        (wp_onSpace.mpr hact) hstep
      rw [← hdirs] at hρ
      exact ⟨hρ.1, hρ.2⟩
  | getAPage vaddr =>
      obtain ⟨hproc, haligned, huser⟩ := hc
      have hvaddr : vaddr = pgSize * (vaddr / pgSize) := by
        unfold pgSize at haligned ⊢
        omega
      have hget := ensures_getAPage hspaces huser hproc
      rw [← hvaddr] at hget
      refine .keep (wp_onSpace.mpr (hget.call fun _ t ht => ?_)) hstep
      obtain ⟨f, hmapped⟩ := ht
      exact ⟨hmapped.spaces, hheap⟩
  | store v b =>
      have hstore : Ensures (writeMem fun d m => Paging.store m d v b) σ.pages.space fun _ t =>
          Spaces allMem t σ.dirs :=
        ensures_writeMem fun m hm => hspaces.store hc hm
      exact .keep (wp_onSpace.mpr (hstore.call fun _ t ht => ⟨ht, hheap⟩)) hstep

theorem AddrSpaces.AtBoot.inv (h : σ.AtBoot allMem) : AddrSpaces.Inv allMem σ := by
  obtain ⟨m, hm⟩ := h.phys
  have hphys : σ.pages.space.phys = setupPage m := hm
  have hcr3 : σ.pages.space.cr3 = 256 := h.active
  have hnobody : ∀ x, frameOf σ.pages.space.phys (dirFrames σ.dirs) x = none := by
    intro x
    rw [h.dirs]
    cases x with
    | kernel p =>
        by_cases hp : HeapPage p
        · rw [frameOf_kernel hp, ← hcr3]
          exact h.heap p hp
        · exact if_neg hp
    | user d x =>
        unfold frameOf
        exact if_neg List.not_mem_nil
  have hno : ∀ d, d ∉ dirFrames σ.dirs := by
    intro d hd
    rw [h.dirs] at hd
    exact List.not_mem_nil hd
  refine ⟨⟨?_, ⟨?_, ?_, ?_, ?_, ?_⟩, ⟨?_, ?_⟩, ?_, Or.inl hcr3⟩, ⟨?_, ?_, ?_⟩⟩
  · rw [h.pools]
    exact memPoolInit_layout h.enough
  · intro i hlow hhigh
    rw [hphys, setupPage_dir (by omega)]
    unfold bootTable
    rw [if_neg (by omega), if_pos ⟨hlow, hhigh⟩]
  · intro i hi
    rw [hphys, setupPage_table, if_pos hi]
  · rw [hphys]
    exact setupPage_recursive m
  · exact fun d hd => (hno d hd).elim
  · exact fun d hd => (hno d hd).elim
  · intro x y f hx
    rw [hnobody] at hx
    cases hx
  · intro x f hx
    rw [hnobody] at hx
    cases hx
  · intro e he
    rw [h.dirs] at he
    exact (List.not_mem_nil he).elim
  · rw [h.vaddrStart]
    decide
  · rw [h.vaddrStart]
  · -- the numbers of pages are 16-bit words
    have hlen : (kbmLength allMem).toNat < 2 ^ 16 / 8 := by
      unfold kbmLength
      rw [UInt32.toNat_div, UInt16.toNat_toUInt32]
      have hlt := (kernelFreePages allMem).toNat_lt
      show _ / 8 < _
      omega
    rw [h.vaddrStart, h.bytesLen]
    unfold kHeapStart pgSize
    omega

end

namespace Spaces

variable {allMem : UInt32} {s : Space} {dirs : List MadeDir} {d e f p q : Nat}

/-- No other page of a process is mapped to the frame of a user page. -/
theorem apart (h : Spaces allMem s dirs) (hd : d ∈ dirFrames dirs) (hp : p < userPages)
    (hf : walk s.phys d p = some f) (he : e ∈ dirFrames dirs) (hq : q < 2 ^ 20)
    (hfq : walk s.phys e q = some f) : e = d ∧ q = p := by
  have howner : frameOf s.phys (dirFrames dirs) (.user d (.page p)) = some f := by
    rw [frameOf_user hd, slots_page (userPages_div hp)]
    exact hf
  have hhigh := h.high howner
  by_cases huser : q < userPages
  · have hother : frameOf s.phys (dirFrames dirs) (.user e (.page q)) = some f := by
      rw [frameOf_user he, slots_page (userPages_div huser)]
      exact hfq
    cases h.owners.inj _ _ f howner hother
    exact ⟨rfl, rfl⟩
  · have hge : 768 * 1024 ≤ q := by
      simp only [userPages, pgSize] at huser
      omega
    by_cases htop : q < 1023 * 1024
    · rw [h.part.walk (Or.inr he) ⟨hge, htop⟩] at hfq
      by_cases hlow : q < 768 * 1024 + 256
      · rw [h.part.walk_low (Or.inl rfl) ⟨hge, hlow⟩] at hfq
        have hfq' := Option.some.inj hfq
        omega
      · have hother : frameOf s.phys (dirFrames dirs) (.kernel q) = some f := by
          rw [frameOf_kernel ⟨by omega, htop⟩]
          exact hfq
        cases h.owners.inj _ _ f howner hother
    · -- the tables, seen at the top
      have hdiv : q / 1024 = 1023 := by omega
      have hself := h.part.selves e he
      have hentry : target (entry s.phys e (q % 1024)) = some f := by
        unfold walk table at hfq
        rw [hdiv, hself] at hfq
        exact hfq
      have hmod := Nat.mod_lt q (by decide : 1024 > 0)
      generalize q % 1024 = i at hentry hmod
      by_cases htable : i < userTables
      · have hother : frameOf s.phys (dirFrames dirs) (.user e (.table i)) = some f := by
          rw [frameOf_user he, slots_table htable]
          exact hentry
        cases h.owners.inj _ _ f howner hother
      · have hge' : 768 ≤ i := by
          simp only [userTables] at htable
          omega
        by_cases hlast : i < 1023
        · rw [h.part.same e he i hge' hlast, h.part.loader i hge' hlast] at hentry
          have hentry' := Option.some.inj hentry
          omega
        · have hi : i = 1023 := by omega
          rw [hi, hself] at hentry
          cases hentry
          obtain ⟨x, -, -, hdir⟩ := h.dir_owner he
          cases h.owners.inj _ _ _ howner hdir

end Spaces

/-! ## The first process -/

section

variable {allMem : UInt32} {σ τ ρ : AddrSpaces} {v : Nat} {b : UInt8}

theorem AddrSpaces.AtBoot.run (h : σ.AtBoot allMem) (hrun : Reach spaceStep spaceCall σ τ) :
    AddrSpaces.Inv allMem τ :=
  hrun.invariant h.inv fun _ _ _ hinv hc hstep => spaceStep_inv hinv hc hstep

end

end OsTruth
