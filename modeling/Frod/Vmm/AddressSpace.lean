import Frod.Vmm.Reach

/-!
# Frod.Vmm.AddressSpace

What `vmm_create_address_space` really does.

The function means to take a fresh frame and copy the directory into it. It uses the address of the
function `pmm_alloc_first` instead of calling it, and it ignores the result of `vmm_map_page`. So for
an unmapped `virt` the "new" frame is one of the kernel's own, and for a mapped `virt` the copy goes
over the page that is already there. `freshCopy_iff` says exactly when that does no harm.
-/

namespace Frod
namespace Vmm

open Pmm (HasFree FirstFree blkSz)

/-- The entry that makes the new directory map itself. -/
def selfEntry (a : Nat) : Word := BitVec.ofNat 32 a ||| x86PagePresent ||| x86PageWritable

/-- The purpose of the function. An unmapped `virt` gets a frame that was free and is now taken,
holding a copy of the directory whose last entry points to itself, with no other frame changed but
the directory and the table of `virt`. A mapped `virt` is refused without harm. -/
def FreshCopy (pmmAllocFirstAddr : Nat) (s : Vmm) (virt : Nat) : Prop :=
  (s.walk virt = none → ∃ f s', s.vmmCreateAddressSpace pmmAllocFirstAddr virt = .ok (f * kb4, s') ∧
    s.pmm.isTaken f = false ∧ s'.pmm.isTaken f = true ∧
    (∀ i, i < 1023 → s'.phys f i = s'.phys s.dir i) ∧ EntryFor (s'.phys f 1023) f ∧
    ∀ g, g ≠ f → g ≠ s.dir → g ≠ s'.table (virt / mb4) → s'.phys g = s.phys g) ∧
  (s.walk virt ≠ none → ∃ r s', s.vmmCreateAddressSpace pmmAllocFirstAddr virt = .ok (r, s') ∧
    s'.phys = s.phys)

/-! ## An unmapped page -/

/-- Whatever the state, the function returns its constant. -/
theorem vmmCreateAddressSpace_ret {a virt r : Nat} {s s' : Vmm}
    (h : s.vmmCreateAddressSpace a virt = .ok (r, s')) : r = a := by
  simp only [vmmCreateAddressSpace, bind, Except.bind] at h
  split at h
  · cases h
  · split at h
    · cases h
    · split at h
      · cases h
      · split at h
        · cases h
        · cases h; rfl

/-- The frame it returns is not a free one. -/
theorem not_freshCopy_of_unmapped {a virt : Nat} {s : Vmm} (ha : s.pmm.isTaken (a / kb4) = true)
    (hw : s.walk virt = none) : ¬ FreshCopy a s virt := by
  intro hfresh
  obtain ⟨f, s', hok, hfree, _⟩ := hfresh.1 hw
  have hf : f = a / kb4 := by
    rw [← vmmCreateAddressSpace_ret hok, Nat.mul_div_cancel f (by decide)]
  rw [hf, ha] at hfree
  cases hfree

/-! ## A mapped page -/

theorem walk_offset (s : Vmm) {va i : Nat} (ha : va % kb4 = 0) (hi : i < 1024) :
    s.walk (va + 4 * i) = s.walk va := by
  rw [walk, walk, pde_offset s ha hi, pte_offset s ha hi]

theorem store_of_unmapped {s : Vmm} {va i : Nat} (ha : va % kb4 = 0) (hi : i < 1024)
    (hw : s.walk va = none) (w : Word) :
    s.store (va + 4 * i) w = .error (.pageFault (va + 4 * i)) := by
  rw [store, walk_offset s ha hi, hw]

section Mapped

variable {s : Vmm} {virt f : Nat} (hw : s.walk virt = some f)
include hw

theorem hasTable_of_walk : HasTable s (virt / mb4) := by
  by_contra ht
  rw [walk_eq_slot, slot_none_of_not_hasTable ht] at hw
  cases hw

theorem hasPage_of_walk : HasPage s (virt / mb4) (virt / kb4 % 1024) := by
  by_contra hp
  rw [walk_eq_slot, (slot_eq_none_iff (hasTable_of_walk hw) _).mpr hp] at hw
  cases hw

theorem pageTo_of_walk (h : Inv s) (hva : virt < 0xFFC00000) (ha : virt % kb4 = 0) :
    PageTo s virt f := by
  have ht := hasTable_of_walk hw
  have hp := hasPage_of_walk hw
  have hok := h.table _ (diri_lt hva) ht
  have hframe : frame (s.pte virt) = f := by
    unfold HasPage at hp
    rw [walk_eq_slot, slot_of_hasTable ht, if_pos hp] at hw
    exact Option.some.inj hw
  exact ⟨ha, hok.entryFor ht, hp, hok.pages _ (Nat.mod_lt _ (by omega)) hp, hframe⟩

/-- `vmm_map_page` refuses, and the rest runs all the same. -/
theorem vmmCreateAddressSpace_mapped (h : Inv s) (hva : virt < 0xFFC00000) (a : Nat) :
    s.vmmCreateAddressSpace a virt = (do
      let s ← s.memset virt
      let s ← copyDirLoop virt 1024 0 s
      let s ← s.store (virt + 4 * 1023) (selfEntry a)
      return (a, s)) := by
  rw [vmmCreateAddressSpace, vmmMapPage_inUse h hva a x86PageWritable (hasTable_of_walk hw)
    (hasPage_of_walk hw)]
  rfl

end Mapped

/-- Frame `f` after the first `i` words of the directory have been copied to it. -/
def copied (s : Vmm) (f i : Nat) : Phys := fun f' j =>
  if f' = f ∧ j < i then s.phys s.dir j else s.phys f' j

theorem copied_zero (s : Vmm) (f : Nat) : s.copied f 0 = s.phys := by
  funext f' j
  simp [copied]

theorem copied_dir (s : Vmm) (f i : Nat) : s.copied f i s.dir = s.phys s.dir := by
  funext j
  simp only [copied, ite_self]

/-- The copying loop, through a page that stays where it is while the loop runs. -/
theorem copyDirLoop_eq {s : Vmm} {virt f : Nat} (hself : SelfMap s)
    (hkeep : ∀ i, PageTo { s with phys := s.copied f i } virt f) : ∀ n i, i + n = 1024 →
    copyDirLoop virt n i { s with phys := s.copied f i } =
      .ok { s with phys := s.copied f 1024 } := by
  intro n
  induction n with
  | zero => intro i hi; rw [show i = 1024 by omega]; rfl
  | succ n ih =>
    intro i hi
    have hself' : SelfMap { s with phys := s.copied f i } := hself.congr (congrFun (s.copied_dir f i) 1023)
    have hset : (s.copied f i).set f i (s.phys s.dir i) = s.copied f (i + 1) := by
      funext f' j
      simp only [Phys.set, copied]
      by_cases hf : f' = f
      · by_cases hj : j = i
        · subst hj; simp [hf]
        · have : j < i + 1 ↔ j < i := by omega
          simp [hf, hj, this]
      · simp [hf]
    simp only [copyDirLoop, (pageTo_dirVirtual hself').load (i := i) (by omega),
      (hkeep i).store (i := i) (by omega), dir_phys, copied_dir, hset, bind, Except.bind]
    exact ih (i + 1) (by omega)

/-- What the function leaves in memory when `virt` is mapped to frame `f`. -/
def overwritten (s : Vmm) (a f : Nat) : Phys := fun f' j =>
  if f' = f ∧ j < 1024 then (if j = 1023 then selfEntry a else s.phys s.dir j) else s.phys f' j

theorem copied_set_self (s : Vmm) (a f : Nat) :
    (s.copied f 1024).set f 1023 (selfEntry a) = s.overwritten a f := by
  funext f' j
  simp only [Phys.set, copied, overwritten]
  by_cases hf : f' = f
  · by_cases hj : j = 1023
    · simp [hf, hj]
    · simp [hf, hj]
  · simp [hf]

/-- Clearing the page first makes no difference to the copy. -/
theorem copied_clear (s : Vmm) {f : Nat} (hf : f ≠ s.dir) :
    copied { s with phys := s.phys.clear f } f 1024 = s.copied f 1024 := by
  funext f' j
  simp only [copied, dir_phys, clear_other _ hf.symm]
  by_cases hff : f' = f
  · by_cases hj : j < 1024
    · simp [hff, hj]
    · simp [Phys.clear, hj]
  · simp [hff, clear_other _ hff]

theorem vmmCreateAddressSpace_offPath {s : Vmm} {virt f : Nat} (h : Inv s) (hva : virt < 0xFFC00000)
    (ha : virt % kb4 = 0) (hw : s.walk virt = some f) (hv : virt ≠ 0) (hd : f ≠ s.dir)
    (ht : f ≠ s.table (virt / mb4)) (a : Nat) :
    s.vmmCreateAddressSpace a virt = .ok (a, { s with phys := s.overwritten a f }) := by
  have hP := pageTo_of_walk hw h hva ha
  let s1 : Vmm := { s with phys := s.phys.clear f }
  have hclear : ∀ f', f' ≠ f → s.phys.clear f f' = s.phys f' :=
    fun f' hf' => funext fun j => clear_other _ hf' j
  have hself : SelfMap s1 := h.self.congr (congrFun (hclear _ hd.symm) 1023)
  have hkeep : ∀ i, PageTo { s1 with phys := s1.copied f i } virt f := by
    intro i
    refine hP.congr_frame hd ht fun f' hf' => ?_
    funext j
    simp only [copied, hf', false_and, if_false, s1, hclear _ hf']
  have hcopy := copyDirLoop_eq hself hkeep 1024 0 rfl
  have hstore := (hkeep 1024).store (i := 1023) (by omega) (selfEntry a)
  rw [copied_zero] at hcopy
  simp only [s1, copied_clear s hd, copied_set_self] at hcopy hstore
  rw [vmmCreateAddressSpace_mapped hw h hva, hP.memset hd ht hv]
  simp only [bind, Except.bind, hcopy, hstore, pure, Except.pure]

/-- `memset` does nothing on a null pointer, so page 0 is copied over without being cleared, and
its translation survives even if it shows the directory or its own table. -/
theorem vmmCreateAddressSpace_null {s : Vmm} {f : Nat} (h : Inv s) (hw : s.walk 0 = some f)
    (a : Nat) :
    s.vmmCreateAddressSpace a 0 = .ok (a, { s with phys := s.overwritten a f }) := by
  have hva : (0 : Nat) < 0xFFC00000 := by omega
  have hP := pageTo_of_walk hw h hva (by decide)
  have ht := hasTable_of_walk hw
  have hok := h.table 0 (by omega) ht
  have hkeep : ∀ i, PageTo { s with phys := s.copied f i } 0 f := by
    intro i
    have hpde : Vmm.pde { s with phys := s.copied f i } 0 = s.pde 0 := by
      simp only [Vmm.pde, dir_phys, copied_dir]
    refine ⟨by decide, by rw [hpde]; exact hP.pde, ?_⟩
    rw [Vmm.pte, hpde]
    show EntryFor (s.copied f i (s.table 0) 0) f
    by_cases hc : s.table 0 = f ∧ 0 < i
    · -- the table maps page 0 to the table: the directory's first entry does so too
      rw [copied, if_pos hc, ← hc.1]
      exact hok.entryFor ht
    · rw [copied, if_neg hc]
      exact hP.pte
  have hcopy := copyDirLoop_eq h.self hkeep 1024 0 rfl
  have hstore := (hkeep 1024).store (i := 1023) (by omega) (selfEntry a)
  rw [copied_zero] at hcopy
  rw [vmmCreateAddressSpace_mapped hw h hva, Vmm.memset, if_pos rfl]
  simp only [bind, Except.bind, hcopy, hstore, pure, Except.pure, copied_set_self]

/-! ## A page that shows the directory or its own table -/

theorem memsetLoop_add (n k : Nat) : ∀ (s : Vmm) (va : Nat),
    memsetLoop (n + k) s va = (memsetLoop n s va >>= fun s => memsetLoop k s (va + 4 * n)) := by
  induction n with
  | zero => intro s va; rw [Nat.zero_add]; rfl
  | succ n ih =>
    intro s va
    rw [show n + 1 + k = (n + k) + 1 by omega, memsetLoop, memsetLoop, bind_assoc]
    congr 1
    funext s'
    rw [ih, show va + 4 + 4 * n = va + 4 * (n + 1) by omega]

/-- The walk of `va` reads word `c` of the very frame that `va` translates to. -/
structure OnPath (s : Vmm) (va f c : Nat) : Prop where
  lt : c < 1024
  keep : ∀ m : Phys, (∀ f' j, ¬ (f' = f ∧ j < c) → m f' j = s.phys f' j) →
    PageTo { s with phys := m } va f
  lost : ∀ m : Phys, m f c = 0#32 → (∀ f', f' ≠ f → m f' = s.phys f') →
    walk { s with phys := m } va = none

theorem onPath {s : Vmm} {virt f : Nat} (h : Inv s) (hva : virt < 0xFFC00000)
    (ha : virt % kb4 = 0) (hw : s.walk virt = some f) (hc : f = s.dir ∨ f = s.table (virt / mb4)) :
    ∃ c, OnPath s virt f c := by
  have hP := pageTo_of_walk hw h hva ha
  have hne := (h.table _ (diri_lt hva) (hasTable_of_walk hw)).ne_dir
  have hd := diri_lt hva
  rcases hc with rfl | rfl
  · -- the directory: its entry for `virt` gets lost
    refine ⟨virt / mb4, by omega, fun m hm => ?_, fun m hm _ => ?_⟩
    · have hpde : Vmm.pde { s with phys := m } virt = s.pde virt := hm _ _ (by omega)
      have hpte : Vmm.pte { s with phys := m } virt = s.pte virt := by
        rw [Vmm.pte, hpde]
        exact hm _ _ fun hc => hne hc.1
      exact ⟨ha, by rw [hpde]; exact hP.pde, by rw [hpte]; exact hP.pte⟩
    · have hpde : Vmm.pde { s with phys := m } virt = 0#32 := hm
      simp [walk, hpde]
  · -- the table: its entry for `virt` gets lost
    have hidx : virt / kb4 % 1024 < 1024 := Nat.mod_lt _ (by omega)
    refine ⟨virt / kb4 % 1024, hidx, fun m hm => ?_, fun m hm hother => ?_⟩
    · have hpde : Vmm.pde { s with phys := m } virt = s.pde virt :=
        hm _ _ fun hc => hne hc.1.symm
      have hpte : Vmm.pte { s with phys := m } virt = s.pte virt := by
        rw [Vmm.pte, hpde]
        exact hm _ _ fun hc => Nat.lt_irrefl _ hc.2
      exact ⟨ha, by rw [hpde]; exact hP.pde, by rw [hpte]; exact hP.pte⟩
    · have hpde : Vmm.pde { s with phys := m } virt = s.pde virt :=
        congrFun (hother _ hne.symm) (virt / mb4)
      have hpte : Vmm.pte { s with phys := m } virt = 0#32 := by
        rw [Vmm.pte, hpde]; exact hm
      simp [walk, hpte]

/-- The words of frame `f` up to `c` cleared. -/
def clearedTo (s : Vmm) (f c : Nat) : Phys := fun f' j =>
  if f' = f ∧ 0 ≤ j ∧ j < 0 + (c + 1) then 0#32 else s.phys f' j

/-- Clearing a page up to the word its own walk reads cuts off the translation. -/
theorem memset_cuts {s : Vmm} {va f c : Nat} (hc : c < 1024)
    (hkeep : ∀ m : Phys, (∀ f' j, ¬ (f' = f ∧ j < c) → m f' j = s.phys f' j) →
      PageTo { s with phys := m } va f)
    (hlost : walk { s with phys := s.clearedTo f c } va = none) (ha : va % kb4 = 0) (hv : va ≠ 0) :
    (∃ e, s.memset va = .error e) ∨ ∃ s', s.memset va = .ok s' ∧ s'.walk va = none := by
  have hfirst := PageTo.memsetLoop hc hkeep (c + 1) 0 s.phys (fun _ _ _ => rfl) (by omega)
  simp only [Nat.mul_zero, Nat.add_zero] at hfirst
  rw [show ({ s with phys := s.phys } : Vmm) = s from rfl] at hfirst
  rw [Vmm.memset, if_neg hv, show 1024 = (c + 1) + (1023 - c) by omega, memsetLoop_add, hfirst]
  simp only [bind, Except.bind]
  cases hrest : 1023 - c with
  | succ k =>
    have hstore := store_of_unmapped ha (show c + 1 < 1024 by omega) hlost 0#32
    unfold clearedTo at hstore
    rw [memsetLoop, hstore]
    exact .inl ⟨_, rfl⟩
  | zero => exact .inr ⟨_, rfl, hlost⟩

/-- Clearing such a page cuts off its own translation. -/
theorem OnPath.memset {s : Vmm} {virt f c : Nat} (hp : OnPath s virt f c) (ha : virt % kb4 = 0)
    (hv : virt ≠ 0) :
    (∃ e, s.memset virt = .error e) ∨ ∃ s', s.memset virt = .ok s' ∧ s'.walk virt = none := by
  refine memset_cuts hp.lt hp.keep (hp.lost _ ?_ fun f' hf' => funext fun j => ?_) ha hv
  · exact if_pos ⟨rfl, by omega, by omega⟩
  · exact if_neg fun hc => hf' hc.1

theorem copyDirLoop_of_unmapped {s : Vmm} {virt : Nat} (ha : virt % kb4 = 0)
    (hw : s.walk virt = none) (n : Nat) : ∃ e, copyDirLoop virt (n + 1) 0 s = .error e := by
  have hstore := store_of_unmapped ha (show 0 < 1024 by omega) hw
  simp only [copyDirLoop, bind, Except.bind]
  cases s.load (dirVirtual + 4 * 0) with
  | error e => exact ⟨e, rfl⟩
  | ok w => simp only [hstore]; exact ⟨_, rfl⟩

/-- So the next access through it faults. -/
theorem vmmCreateAddressSpace_onPath {s : Vmm} {virt f c : Nat} (h : Inv s)
    (hva : virt < 0xFFC00000) (ha : virt % kb4 = 0) (hw : s.walk virt = some f) (hv : virt ≠ 0)
    (hp : OnPath s virt f c) (a : Nat) : ∃ e, s.vmmCreateAddressSpace a virt = .error e := by
  rw [vmmCreateAddressSpace_mapped hw h hva]
  rcases hp.memset ha hv with ⟨e, he⟩ | ⟨s', hs', hlost⟩
  · rw [he]; exact ⟨e, rfl⟩
  · obtain ⟨e, he⟩ := copyDirLoop_of_unmapped ha hlost 1023
    have he' : copyDirLoop virt 1024 0 s' = .error e := he
    exact ⟨e, by simp only [hs', he', bind, Except.bind]⟩

/-! ## Exactly when it does no harm -/

theorem overwritten_eq_iff (s : Vmm) (a f : Nat) : s.overwritten a f = s.phys ↔
    (∀ i, i < 1023 → s.phys f i = s.phys s.dir i) ∧ s.phys f 1023 = selfEntry a := by
  constructor
  · intro heq
    have hrow : ∀ j, s.overwritten a f f j = s.phys f j := fun j => by rw [heq]
    unfold overwritten at hrow
    refine ⟨fun i hi => ?_, ?_⟩
    · have hi1 := hrow i
      rw [if_pos ⟨rfl, by omega⟩, if_neg (by omega)] at hi1
      exact hi1.symm
    · have hi1 := hrow 1023
      rw [if_pos ⟨rfl, by omega⟩, if_pos rfl] at hi1
      exact hi1.symm
  · rintro ⟨hrow, hlast⟩
    funext f' j
    unfold overwritten
    split
    · rename_i hc
      obtain ⟨rfl, hj⟩ := hc
      split
      · rename_i hj'; rw [hj', hlast]
      · exact (hrow j (by omega)).symm
    · rfl

/-- `virt` already shows the very copy that the function is about to write, in a frame that
clearing it does not cut off. -/
def AlreadyCopied (a : Nat) (s : Vmm) (virt : Nat) : Prop :=
  ∃ f, s.walk virt = some f ∧ (∀ i, i < 1023 → s.phys f i = s.phys s.dir i) ∧
    s.phys f 1023 = selfEntry a ∧ (virt = 0 ∨ (f ≠ s.dir ∧ f ≠ s.table (virt / mb4)))

/-- **Address spaces.** In every reachable state with a free frame, and for every page address below
the window, `vmm_create_address_space` does what it is for exactly when `virt` is mapped and already
shows the copy; in particular never when `virt` is unmapped. `pmmAllocFirstAddr` lies in the kernel's
image, whose frames are taken before `vmm_init`. -/
theorem freshCopy_iff {s0 s : Vmm} (hsz : s0.pmm.bitmapSz ≤ 2 ^ 20) (htwo : TwoFree s0.pmm)
    {pmmAllocFirstAddr : Nat} (hkernel : s0.pmm.isTaken (pmmAllocFirstAddr / kb4) = true)
    (hr : Reachable s0 s) (_hfree : HasFree s.pmm) {virt : Nat} (hva : virt < 0xFFC00000)
    (ha : virt % kb4 = 0) :
    FreshCopy pmmAllocFirstAddr s virt ↔ AlreadyCopied pmmAllocFirstAddr s virt := by
  obtain ⟨hinv, hkept⟩ := hr.kept hsz htwo
  have htaken := (hkept _ hkernel).1
  cases hw : s.walk virt with
  | none =>
    refine ⟨fun hfresh => absurd hfresh (not_freshCopy_of_unmapped htaken hw), ?_⟩
    rintro ⟨f, hf, _⟩
    rw [hw] at hf
    cases hf
  | some f =>
    have hmapped : s.walk virt ≠ none := by rw [hw]; exact Option.some_ne_none f
    -- off the path the function returns, with the page overwritten
    have hok : virt = 0 ∨ (f ≠ s.dir ∧ f ≠ s.table (virt / mb4)) →
        s.vmmCreateAddressSpace pmmAllocFirstAddr virt =
          .ok (pmmAllocFirstAddr, { s with phys := s.overwritten pmmAllocFirstAddr f }) := by
      rintro (rfl | ⟨hd, ht⟩)
      · exact vmmCreateAddressSpace_null hinv hw _
      · by_cases hv : virt = 0
        · subst hv; exact vmmCreateAddressSpace_null hinv hw _
        · exact vmmCreateAddressSpace_offPath hinv hva ha hw hv hd ht _
    constructor
    · intro hfresh
      obtain ⟨r, s', hres, hphys⟩ := hfresh.2 hmapped
      have hoff : virt = 0 ∨ (f ≠ s.dir ∧ f ≠ s.table (virt / mb4)) := by
        by_contra hc
        have hv : virt ≠ 0 := fun hv => hc (.inl hv)
        obtain ⟨c, hp⟩ := onPath hinv hva ha hw (by
          by_contra hc'
          exact hc (.inr (not_or.mp hc')))
        obtain ⟨e, he⟩ := vmmCreateAddressSpace_onPath hinv hva ha hw hv hp pmmAllocFirstAddr
        rw [he] at hres
        cases hres
      rw [hok hoff] at hres
      cases hres
      obtain ⟨hrow, hlast⟩ := (overwritten_eq_iff s _ f).mp hphys
      exact ⟨f, hw, hrow, hlast, hoff⟩
    · rintro ⟨g, hg, hrow, hlast, hoff⟩
      rw [hw] at hg
      cases hg
      refine ⟨fun hn => absurd hn hmapped, fun _ => ⟨_, _, hok hoff, ?_⟩⟩
      exact (overwritten_eq_iff s _ f).mpr ⟨hrow, hlast⟩

/-- A machine with 8 MB of memory, the lowest eight blocks taken and the kernel's image at 1 MB. -/
def sampleKernel : Vmm :=
  { sampleVmm with pmm := ⟨fun i => if i = 0 ∨ i = 32 then 0xFF#8 else 0#8, 2048⟩ }

theorem sampleKernel_twoFree : TwoFree sampleKernel.pmm :=
  ⟨⟨1500, by decide, by decide, by decide⟩, ⟨1501, by decide, by decide +kernel, by decide +kernel⟩⟩

theorem sampleKernel_hasFree : HasFree sampleKernel.vmmInit.pmm :=
  ⟨1030, by decide, by decide +kernel, by decide +kernel⟩

theorem sampleKernel_walk {va : Nat} (hva : va < 0xFFC00000) :
    sampleKernel.vmmInit.walk va = initMap (va / kb4) :=
  (vmmInit_refines (by decide) sampleKernel_twoFree).walk hva

/-- Right after `vmm_init` the first process page is unmapped and frames are free, and the function
does not return one of them. -/
theorem not_freshCopy_procVmmStart :
    Reachable sampleKernel sampleKernel.vmmInit ∧ HasFree sampleKernel.vmmInit.pmm ∧
      sampleKernel.vmmInit.walk procVmmStart = none ∧
      ¬ FreshCopy 0x101000 sampleKernel.vmmInit procVmmStart := by
  have hw : sampleKernel.vmmInit.walk procVmmStart = none := sampleKernel_walk (by decide)
  have hkept := (Reachable.boot.kept (by decide) sampleKernel_twoFree).2 0x101 (by decide)
  exact ⟨.boot, sampleKernel_hasFree, hw, not_freshCopy_of_unmapped hkept.1 hw⟩

/-- Once frame 5 holds the copy, writing it again through page 5 does no harm. -/
theorem freshCopy_iff_pageFive : FreshCopy 0x101000
    { sampleKernel.vmmInit with phys := sampleKernel.vmmInit.overwritten 0x101000 5 } 0x5000 := by
  -- only these facts about the state after `vmm_init` matter
  have hr : Reachable sampleKernel sampleKernel.vmmInit := .boot
  have hfree := sampleKernel_hasFree
  have hwalk := sampleKernel_walk (show 0x5000 < 0xFFC00000 by decide)
  generalize sampleKernel.vmmInit = v at hr hfree hwalk ⊢
  have hno := ((hr.kept (by decide) sampleKernel_twoFree).2 5 (by decide)).2
  have hm : ∀ f, InUse v f → v.overwritten 0x101000 5 f = v.phys f :=
    fun f hf => funext fun j => if_neg fun hc => hno (by rw [← hc.1]; exact hf)
  have hdir : v.overwritten 0x101000 5 v.dir = v.phys v.dir := hm _ (.inl rfl)
  have hno' := fun hc => hno ((inUse_congr_phys hdir 5).mp hc)
  rw [← walk_congr_phys hm (by decide)] at hwalk
  refine (freshCopy_iff (by decide) sampleKernel_twoFree (by decide) (.write _ hr hm) hfree
    (by decide) (by decide)).mpr ⟨5, hwalk, fun i hi => ?_, ?_, .inr ⟨?_, ?_⟩⟩
  · show v.overwritten 0x101000 5 5 i = v.overwritten 0x101000 5 v.dir i
    rw [hdir, overwritten, if_pos ⟨rfl, by omega⟩, if_neg (by omega)]
  · show v.overwritten 0x101000 5 5 1023 = selfEntry 0x101000
    rw [overwritten, if_pos ⟨rfl, by omega⟩, if_pos rfl]
  · exact fun hc => hno' (.inl hc)
  · exact fun hc => hno' (.inr ⟨0x5000 / mb4, by decide, hasTable_of_walk hwalk, hc.symm⟩)

end Vmm
end Frod
