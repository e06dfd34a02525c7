import Frod.Vmm.Freed

/-!
# Frod.Vmm.Agree

When the kernel's mappings are the same in all address spaces.

A directory is copied once, when the address space is made. Pages that are mapped later in a table
that already existed then show up everywhere, since the table is shared; a table that is added to
the loaded directory, or taken out of it, stays unknown to the others, and a directory that is made
through a mapped window is not copied at all (`Good.not_kernelAgrees_window`).
`kernel_mappings_agree` says that nothing else can make the directories differ below `KERNEL_MAX_VM`.
-/

namespace Frod
namespace Vmm

open Pmm (HasFree FirstFree blkSz)

/-- `KERNEL_MAX_VM`. -/
def kernelMaxVm : Nat := heapEnd

/-- The first directory entry that is not the kernel's. -/
def kernelEntries : Nat := kernelMaxVm / mb4

theorem diri_lt_kernelEntries (va : Nat) : va / mb4 < kernelEntries ↔ va < kernelMaxVm := by
  have h : kernelMaxVm = kernelEntries * mb4 := by decide
  rw [h, Nat.div_lt_iff_lt_mul (by decide)]

/-- Every kernel page translates to the same frame, or to none, in all live address spaces. -/
def Spaces.KernelAgrees (t : Spaces) : Prop :=
  ∀ f ∈ t.live, ∀ g ∈ t.live, ∀ va, va < kernelMaxVm →
    (t.vmm.loaded f).walk va = (t.vmm.loaded g).walk va

/-- While there is another address space than the loaded one, the operation neither adds a table for
a kernel page to the loaded directory nor takes one out of it. -/
def Spaces.KeepsKernelTables (t : Spaces) (op : SpaceOp) : Prop :=
  (∃ f ∈ t.live, f ≠ t.vmm.dir) →
    match op with
    | .call (.mapPage _ va _) => va < kernelMaxVm → HasTable t.vmm (va / mb4)
    | .call (.unmapPage va) => va < kernelMaxVm → ¬ Empties t.vmm va
    | .createAddressSpace virt => virt < kernelMaxVm → HasTable t.vmm (virt / mb4)
    | _ => True

/-- The kernel's entries are the same in all live directories. -/
def Spaces.SameRows (t : Spaces) : Prop :=
  ∀ f ∈ t.live, ∀ g ∈ t.live, ∀ d, d < kernelEntries → t.vmm.phys f d = t.vmm.phys g d

theorem Spaces.SameRows.agrees {t : Spaces} (h : t.SameRows) : t.KernelAgrees := by
  intro f hf g hg va hva
  have hrow := h f hf g hg _ ((diri_lt_kernelEntries va).mpr hva)
  simp only [walk, pte, pde, loaded_dir, loaded_phys, hrow]

theorem Spaces.SameRows.of_single {t : Spaces} (h : ∀ f ∈ t.live, f = t.vmm.dir) : t.SameRows := by
  intro f hf g hg d _
  rw [h f hf, h g hg]

section Rows

variable {s s' : Vmm} {live : List Nat}

/-- A call that keeps the kernel's tables keeps the kernel's entries of the loaded directory. -/
theorem Good.call_row (h : Good ⟨s, live⟩) {c : Call} {r : Int} (hpre : Pre s c)
    (hs : Vmm.step s c = .ok (r, s')) (hother : ∃ f ∈ live, f ≠ s.dir)
    (hk : Spaces.KeepsKernelTables ⟨s, live⟩ (.call c)) {d : Nat} (hd : d < kernelEntries) :
    s'.phys s.dir d = s.phys s.dir d := by
  have hi := h.inv_current
  have hk := hk hother
  cases c with
  | mapPage pa va acl =>
    refine mapPage_row hi hpre hs ?_
    rintro rfl
    exact hk ((diri_lt_kernelEntries va).mp hd)
  | unmapPage va =>
    obtain rfl | ⟨d', i, e, hd', ht, _, rfl⟩ | ⟨_, _, _, _, hc, _⟩ | ⟨_, hc, he, rfl⟩ :=
      step_cases hi hpre hs
    · rfl
    · exact set_other_frame _ (hi.table d' hd' ht).ne_dir.symm _ _ _
    · cases hc
    · cases hc
      rw [dropTable_dir hi (diri_lt hpre) he.1, if_neg]
      rintro rfl
      exact hk ((diri_lt_kernelEntries va).mp hd) he

/-- The rows stay the same if those of the loaded directory and of the others do. -/
theorem Spaces.SameRows.congr (h : Spaces.SameRows ⟨s, live⟩)
    (hrows : ∀ f ∈ live, ∀ d, d < kernelEntries → s'.phys f d = s.phys f d) :
    Spaces.SameRows ⟨s', live⟩ := by
  intro f hf g hg d hd
  exact (hrows f hf d hd).trans ((h f hf g hg d hd).trans (hrows g hg d hd).symm)

theorem Good.call_sameRows (h : Good ⟨s, live⟩) (hr : Spaces.SameRows ⟨s, live⟩) {c : Call} {r : Int}
    (hpre : Pre s c) (hs : Vmm.step s c = .ok (r, s'))
    (hk : Spaces.KeepsKernelTables ⟨s, live⟩ (.call c)) : Spaces.SameRows ⟨s', live⟩ := by
  obtain ⟨hcr3, hrows⟩ := h.call_other hpre hs
  by_cases hother : ∃ f ∈ live, f ≠ s.dir
  · refine hr.congr fun f hf d hd => ?_
    by_cases hfd : f = s.dir
    · rw [hfd]
      exact h.call_row hpre hs hother hk hd
    · rw [hrows f hf hfd]
  · simp only [not_exists, not_and, not_not] at hother
    refine .of_single fun f hf => ?_
    rw [hother f hf, Vmm.dir, Vmm.dir, hcr3]

theorem Good.create_sameRows (h : Good ⟨s, live⟩) (hr : Spaces.SameRows ⟨s, live⟩) {virt pdir : Nat}
    (hpre : Spaces.Pre ⟨s, live⟩ (.createAddressSpace virt)) (hun : s.walk virt = none)
    (hs : s.createAddressSpace virt = .ok (pdir, s'))
    (hk : Spaces.KeepsKernelTables ⟨s, live⟩ (.createAddressSpace virt)) :
    Spaces.SameRows ⟨s', pdir / kb4 :: live⟩ := by
  obtain ⟨k, s₃, heq, _, _, hcopy, _, hrows, hrow, _⟩ := h.create hpre hun
  obtain ⟨rfl, rfl⟩ := Machine.ok_inj heq hs
  rw [Nat.mul_div_cancel k (by decide)]
  have hlt : ∀ d, d < kernelEntries → d < 1023 := fun d hd => Nat.lt_trans hd (by decide)
  -- all old directories have the loaded one's entries
  have hold : ∀ f ∈ live, ∀ d, d < kernelEntries → s₃.phys f d = s₃.phys s.dir d := by
    intro f hf d hd
    by_cases hfd : f = s.dir
    · rw [hfd]
    · have hdir : s₃.phys s.dir d = s.phys s.dir d := by
        refine hrow d ?_
        rintro rfl
        exact hk ⟨f, hf, hfd⟩ ((diri_lt_kernelEntries virt).mp hd)
      rw [hrows f hf hfd, hdir]
      exact hr f hf s.dir h.dir_mem.1 d hd
  have hall : ∀ f ∈ k :: live, ∀ d, d < kernelEntries → s₃.phys f d = s₃.phys s.dir d := by
    intro f hf d hd
    rcases List.mem_cons.mp hf with rfl | hf
    · exact hcopy d (hlt d hd)
    · exact hold f hf d hd
  intro f hf g hg d hd
  exact (hall f hf d hd).trans (hall g hg d hd).symm

end Rows

theorem Good.step_sameRows {t t' : Spaces} {u : Unit} (h : Good t) (hr : t.SameRows) {op : SpaceOp}
    (hpre : t.Pre op) (hwin : t.FreshWindow op) (hk : t.KeepsKernelTables op)
    (hs : t.step op = .ok (u, t')) : t'.SameRows := by
  obtain ⟨s, live⟩ := t
  cases op with
  | call c =>
    obtain ⟨⟨r, s'⟩, hs', heq⟩ := Machine.bind_eq_ok.mp hs
    cases heq
    exact h.call_sameRows hr hpre hs' hk
  | createAddressSpace virt =>
    obtain ⟨⟨pdir, s'⟩, hs', heq⟩ := Machine.bind_eq_ok.mp hs
    cases heq
    exact h.create_sameRows hr hpre hwin hs' hk
  | switchPdir pdir => cases hs; exact hr
  | switchKernel => cases hs; exact hr
  | allocFirst => cases hs; exact hr

/-- Through a window that is mapped to a kernel page the new directory stays empty, and the page is
not mapped in it. -/
theorem Good.not_kernelAgrees_window {t : Spaces} (h : Good t) {virt : Nat}
    (hpre : t.Pre (.createAddressSpace virt)) (hwin : ¬ t.FreshWindow (.createAddressSpace virt))
    (hva : virt < kernelMaxVm) :
    ∃ t', t.step (.createAddressSpace virt) = .ok ((), t') ∧ ¬ t'.KernelAgrees := by
  obtain ⟨s, live⟩ := t
  obtain ⟨x, hx⟩ := Option.ne_none_iff_exists'.mp hwin
  obtain ⟨k, s', _, heq, hg, _, hblank, _, _, hwalk, _⟩ := createAddressSpace_window h hpre hx
  refine ⟨⟨s', k :: live⟩, ?_, fun hagree => ?_⟩
  · simp only [Spaces.step, heq, Machine.ok_bind, Nat.mul_div_cancel k (show 0 < kb4 by decide)]
    rfl
  · obtain ⟨hdir, hcr3⟩ := hg.dir_mem
    have hsame := hagree k List.mem_cons_self s'.dir (List.mem_cons_of_mem _ hdir) virt hva
    have hd := diri_lt hpre.2.1
    have hnone : (s'.loaded k).walk virt = none := by
      rw [walk, pde, loaded_dir, loaded_phys, hblank (virt / mb4) (by omega)]
      rfl
    rw [hnone, loaded_self hcr3, hwalk virt hpre.2.1, hx] at hsame
    cases hsame

/-- **Kernel mappings agree.** In every run from `vmm_init` whose calls meet `Pre`, in which the
window of each new address space is unmapped, no kernel page table is added to or taken out of one
directory while there are others, and no shared table is given back: in every state reached, kernel
pages translate alike in all address spaces. -/
theorem kernel_mappings_agree {s : Vmm} (hsz : s.pmm.bitmapSz ≤ 2 ^ 20) (hfree : TwoFree s.pmm)
    {ops : List SpaceOp} {os : List Unit} {t : Spaces}
    (hadm : Machine.Admissible
      (fun t op => t.Pre op ∧ t.FreshWindow op ∧ t.KeepsShared op ∧ t.KeepsKernelTables op)
      Spaces.step (Spaces.start s) ops)
    (hrun : Machine.runAll Spaces.step (Spaces.start s) ops = .ok (os, t)) : t.KernelAgrees := by
  have hstep : ∀ (t : Spaces) (op : SpaceOp) (u : Unit) (t' : Spaces), Good t ∧ t.SameRows →
      (t.Pre op ∧ t.FreshWindow op ∧ t.KeepsShared op ∧ t.KeepsKernelTables op) →
        t.step op = .ok (u, t') → Good t' ∧ t'.SameRows := by
    rintro t op u t' ⟨h, hr⟩ ⟨hpre, hwin, hk, hkt⟩ hs
    obtain ⟨t₁, hs₁, h₁⟩ := h.step hpre hwin hk
    obtain ⟨_, rfl⟩ := Machine.ok_inj hs₁ hs
    exact ⟨h₁, h.step_sameRows hr hpre hwin hkt hs⟩
  have hstart : (Spaces.start s).SameRows :=
    .of_single fun f hf => List.mem_singleton.mp hf
  exact (Machine.invariant hstep ops ⟨Good.start hsz hfree, hstart⟩ hadm hrun).2.agrees

/-- Two address spaces that share the heap's first table, and a switch back to the kernel's. -/
theorem kernel_mappings_agree_twoSpaces : ∃ os t, Machine.runAll Spaces.step (Spaces.start sampleVmm)
      [sampleMapOp, .createAddressSpace procVmmStart, .switchKernel] = .ok (os, t) ∧
    t.live.length = 2 ∧ t.KernelAgrees := by
  obtain ⟨t₁, t, k, hpre, hs, hpre₁, hwin₁, hs₁, ht⟩ := sample_twoSpaces
  have hs₂ : t.step .switchKernel = .ok ((), { t with vmm := t.vmm.vmmSwitchKernel }) := rfl
  have hrun : Machine.runAll Spaces.step (Spaces.start sampleVmm)
      [sampleMapOp, .createAddressSpace procVmmStart, .switchKernel] =
        .ok ([(), (), ()], { t with vmm := t.vmm.vmmSwitchKernel }) :=
    Machine.runAll_cons_of hs (Machine.runAll_cons_of hs₁ (Machine.runAll_cons_of hs₂ rfl))
  -- there is one address space until the second is made
  have hsingle : ∀ f ∈ (Spaces.start sampleVmm).live, f = (Spaces.start sampleVmm).vmm.dir :=
    fun f hf => List.mem_singleton.mp hf
  obtain ⟨s, _, hs', _⟩ := sample_heapPage
  obtain ⟨_, rfl⟩ := Machine.ok_inj hs' hs
  refine ⟨_, _, hrun, by rw [ht.live]; rfl,
    kernel_mappings_agree (by decide) sampleVmm_twoFree ?_ hrun⟩
  refine .cons_of ⟨hpre, trivial, trivial, fun ⟨f, hf, hne⟩ => absurd (hsingle f hf) hne⟩ hs
    (.cons_of ⟨hpre₁, hwin₁, trivial, fun ⟨f, hf, hne⟩ => absurd (List.mem_singleton.mp hf) hne⟩ hs₁
      (.cons_of ⟨trivial, trivial, trivial, fun _ => trivial⟩ hs₂ trivial))

/-- A page of the next 4 MB of the heap, mapped while there are two address spaces. -/
def growOp : SpaceOp := .call (.mapPage 0x801000 (heapStart + mb4) x86PageWritable)

/-- The second address space does not see the page. -/
theorem not_kernelAgrees_grow : ∃ os t, Machine.Admissible Spaces.Pre Spaces.step
      (Spaces.start sampleVmm) [sampleMapOp, .createAddressSpace procVmmStart, growOp] ∧
    Machine.runAll Spaces.step (Spaces.start sampleVmm)
      [sampleMapOp, .createAddressSpace procVmmStart, growOp] = .ok (os, t) ∧ ¬ t.KernelAgrees := by
  obtain ⟨t₁, ⟨s, live⟩, k, hpre, hs, hpre₁, _, hs₁, ht⟩ := sample_twoSpaces
  have hi : Inv s := ht.good.inv_current
  have hd : (heapStart + mb4) / mb4 = 129 := by decide
  have hno : ¬ HasTable s 129 := by
    refine hi.not_hasTable (by decide) fun va hva => ?_
    unfold mb4 at hva
    rw [ht.walk va (by omega), if_neg, if_neg, initMap_high (by unfold kb4; omega)]
    · unfold heapStart procVmmEnd procVmmStart mb256 kb4; omega
    · unfold procVmmStart mb256 kb4; omega
  have hpre₂ : Pre s (.mapPage 0x801000 (heapStart + mb4) x86PageWritable) :=
    ⟨by decide, by decide, by decide, aclOk_writable,
      fun _ => ht.free.hasFree (by decide) (by decide)⟩
  have hR : Refines s fun p => s.slot (p / 1024) (p % 1024) := hi.refines_slots
  obtain ⟨s', hmap, hR'⟩ := mapPage_refines hR hpre₂
  have hun : s.walk (heapStart + mb4) = none := by
    rw [walk_eq_slot, hd]
    exact slot_none_of_not_hasTable hno _
  rw [hR.walk (by decide)] at hun
  rw [spec, if_pos hun] at hmap hR'
  dsimp only at hmap hR'
  have hstep : Vmm.step s (.mapPage 0x801000 (heapStart + mb4) x86PageWritable) =
    .ok (vmmSuccess, s') := hmap
  have hs₂ : Spaces.step ⟨s, live⟩ growOp = .ok ((), ⟨s', live⟩) := by
    simp only [growOp, Spaces.step, hstep, Machine.ok_bind]
    rfl
  refine ⟨_, ⟨s', live⟩, .cons_of hpre hs (.cons_of hpre₁ hs₁ (.cons_of hpre₂ hs₂ trivial)),
    Machine.runAll_cons_of hs (Machine.runAll_cons_of hs₁ (Machine.runAll_cons_of hs₂ rfl)), ?_⟩
  intro hagree
  obtain ⟨hcr3, hother⟩ := ht.good.call_other hpre₂ hstep
  have hlive : live = [k, s.dir] := ht.live
  have hself : s'.loaded s.dir = s' := loaded_self (hcr3.trans ht.good.dir_mem.2)
  have hsame := hagree s.dir (by simp [hlive]) k (by simp [hlive]) (heapStart + mb4) (by decide)
  -- the page is mapped in the first, and the second has no table for it
  rw [hself, hR'.walk (by decide), Function.update_self, walk_eq_slot, hd,
    slot_none_of_not_hasTable] at hsame
  · cases hsame
  · rw [hasTable_loaded, hother k (by simp [hlive]) ht.ne]
    rw [ht.rows 129 (by decide)]
    exact hno

end Vmm
end Frod
