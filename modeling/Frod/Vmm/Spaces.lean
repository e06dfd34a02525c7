import Frod.Vmm.AddressSpace

/-!
# Frod.Vmm.Spaces

Several address spaces at once.

`vmm_create_address_space` copies the entries of the loaded directory, so from then on two
directories point to the same page tables, and no count is kept of them. `Good` is what remains
true of all live directories together: each of them satisfies `Inv`, none of their tables is a
directory, and a table that two of them share stands at the same index in both. Every operation
keeps it, except that `vmm_unmap_page` may give back a table that another directory still points to
(`KeepsShared` excludes that).
-/

namespace Frod
namespace Vmm

open Pmm (HasFree FirstFree blkSz)

/-! ## The model -/

/-- `vmm_create_address_space` with the frame its commented-out line asks for, a fresh zeroed one,
in place of the address of `pmm_alloc_first`. -/
def createAddressSpace (s : Vmm) (virt : Nat) : Except Stop (Nat × Vmm) :=
  let (addrSpace, s) := s.vmmGetPhysicalPage
  s.vmmCreateAddressSpace addrSpace virt

/-- The machine, with the frames of the directories that were made. -/
structure Spaces where
  vmm : Vmm
  live : List Nat

/-- When `vmm_init` has run. -/
def Spaces.start (s : Vmm) : Spaces := ⟨s.vmmInit, [s.vmmInit.dir]⟩

/-- Heap growth and kernel stacks are `allocFirst` followed by `mapPage`. -/
inductive SpaceOp where
  | call (c : Call)
  | createAddressSpace (virt : Nat)
  | switchPdir (pdir : Nat)
  | switchKernel
  | allocFirst

def Spaces.step (t : Spaces) : SpaceOp → Except Stop (Unit × Spaces)
  | .call c => do
    let (_, s) ← t.vmm.step c
    return ((), { t with vmm := s })
  | .createAddressSpace virt => do
    let (pdir, s) ← t.vmm.createAddressSpace virt
    return ((), ⟨s, pdir / kb4 :: t.live⟩)
  | .switchPdir pdir => .ok ((), { t with vmm := t.vmm.vmmSwitchPdir pdir })
  | .switchKernel => .ok ((), { t with vmm := t.vmm.vmmSwitchKernel })
  | .allocFirst => .ok ((), { t with vmm := { t.vmm with pmm := t.vmm.pmm.allocFirst.2 } })

/-! ## One directory of several -/

/-- The machine with the directory in frame `f` loaded. -/
def loaded (s : Vmm) (f : Nat) : Vmm := { s with cr3 := f * kb4 }

/-- Entry `d` of the directory in frame `f` points to the table in frame `T`. -/
def Points (s : Vmm) (f d T : Nat) : Prop := present (s.phys f d) = true ∧ frame (s.phys f d) = T

@[simp] theorem loaded_dir (s : Vmm) (f : Nat) : (s.loaded f).dir = f := Nat.mul_div_cancel f (by decide)
@[simp] theorem loaded_phys (s : Vmm) (f : Nat) : (s.loaded f).phys = s.phys := rfl

@[simp] theorem hasTable_loaded (s : Vmm) (f d : Nat) :
    HasTable (s.loaded f) d ↔ present (s.phys f d) = true := by
  rw [HasTable, loaded_dir, loaded_phys]

@[simp] theorem table_loaded (s : Vmm) (f d : Nat) : (s.loaded f).table d = frame (s.phys f d) := by
  rw [Vmm.table, loaded_dir, loaded_phys]

theorem loaded_self {s : Vmm} {c : Nat} (h : s.cr3 = c * kb4) : s.loaded c = s := by
  rw [loaded, ← h]

theorem inUse_loaded (s : Vmm) (f x : Nat) :
    InUse (s.loaded f) x ↔ x = f ∨ ∃ d, d < 1023 ∧ Points s f d x := by
  simp only [InUse, loaded_dir, hasTable_loaded, table_loaded, Points]

/-- Frame `x` is a live directory or a table of one. -/
def Spaces.Used (t : Spaces) (x : Nat) : Prop :=
  x ∈ t.live ∨ ∃ f ∈ t.live, ∃ d, d < 1023 ∧ Points t.vmm f d x

/-- What the callers guarantee: for a new address space a page that, if it is mapped, shows a frame
that was taken for it, no directory and no table of one, and the frames that are needed; a switch is
to a live directory. -/
def Spaces.Pre (t : Spaces) : SpaceOp → Prop
  | .call c => Vmm.Pre t.vmm c
  | .createAddressSpace virt =>
    virt % kb4 = 0 ∧ virt < 0xFFC00000 ∧
      (∀ x, t.vmm.walk virt = some x → t.vmm.pmm.isTaken x = true ∧ ¬ t.Used x) ∧ HasFree t.vmm.pmm ∧
      (¬ HasTable t.vmm (virt / mb4) → HasFree t.vmm.pmm.allocFirst.2)
  | .switchPdir pdir => ∃ f ∈ t.live, pdir = f * kb4
  | .switchKernel => True
  | .allocFirst => True

/-- The window of a new address space is not mapped. -/
def Spaces.FreshWindow (t : Spaces) : SpaceOp → Prop
  | .createAddressSpace virt => t.vmm.walk virt = none
  | _ => True

/-- What every run keeps, as long as no window is mapped and no shared table is given back. -/
structure Good (t : Spaces) : Prop where
  current : ∃ c ∈ t.live, t.vmm.cr3 = c * kb4
  kernel : ∃ c ∈ t.live, t.vmm.kernelDir = c * kb4
  inv : ∀ f ∈ t.live, Inv (t.vmm.loaded f)
  apart : ∀ f ∈ t.live, ∀ d T, d < 1023 → Points t.vmm f d T → T ∉ t.live
  shared : ∀ f ∈ t.live, ∀ g ∈ t.live, ∀ d d' T, d < 1023 → d' < 1023 →
    Points t.vmm f d T → Points t.vmm g d' T → d = d'

theorem used_of_inUse {s : Vmm} {live : List Nat} {f x : Nat} (hf : f ∈ live)
    (hx : InUse (s.loaded f) x) : Spaces.Used ⟨s, live⟩ x := by
  rcases (inUse_loaded s f x).mp hx with rfl | ⟨d, hd, hp⟩
  · exact .inl hf
  · exact .inr ⟨f, hf, d, hd, hp⟩

section Good

variable {s s' : Vmm} {live : List Nat} (h : Good ⟨s, live⟩)
include h

theorem Good.inv_current : Inv s := by
  obtain ⟨c, hc, hcr3⟩ := h.current
  have := h.inv c hc
  rwa [loaded_self hcr3] at this

theorem Good.dir_mem : s.dir ∈ live ∧ s.cr3 = s.dir * kb4 := by
  obtain ⟨c, hc, hcr3⟩ := h.current
  have hdir : s.dir = c := by rw [Vmm.dir, hcr3]; exact Nat.mul_div_cancel c (by decide)
  rw [hdir]
  exact ⟨hc, hcr3⟩

theorem Good.taken {x : Nat} (hx : Spaces.Used ⟨s, live⟩ x) : s.pmm.isTaken x = true := by
  rcases hx with hx | ⟨f, hf, d, hd, hp, rfl⟩
  · have := (h.inv x hx).dir_taken
    rwa [loaded_dir] at this
  · have := ((h.inv f hf).table d hd ((hasTable_loaded s f d).mpr hp)).taken
    rwa [table_loaded] at this

theorem Good.not_used_of_free {k : Nat} (hk : FirstFree s.pmm k) : ¬ Spaces.Used ⟨s, live⟩ k := by
  intro hu
  exact hk.ne_of_taken (h.taken hu) rfl

/-- Code that leaves the used frames alone. -/
theorem Good.congr {m : Phys} {p : Pmm} (hsz : p.bitmapSz = s.pmm.bitmapSz)
    (hm : ∀ x, Spaces.Used ⟨s, live⟩ x → m x = s.phys x)
    (hp : ∀ x, Spaces.Used ⟨s, live⟩ x → s.pmm.isTaken x = true → p.isTaken x = true) :
    Good ⟨{ s with phys := m, pmm := p }, live⟩ := by
  have hpoints : ∀ f ∈ live, ∀ d T, Points { s with phys := m, pmm := p } f d T → Points s f d T := by
    intro f hf d T hpt
    have hrow := hm f (.inl hf)
    simp only [Points, hrow] at hpt
    exact hpt
  refine ⟨h.current, h.kernel, fun f hf => ?_, fun f hf d T hd hpt => ?_, ?_⟩
  · have hm' : ∀ x, InUse (s.loaded f) x → m x = (s.loaded f).phys x :=
      fun x hx => hm x (used_of_inUse hf hx)
    refine ((h.inv f hf).congr_phys hm').congr_pmm hsz fun x hx => ?_
    rw [inUse_congr_phys (hm' _ (.inl rfl))] at hx
    exact hp x (used_of_inUse hf hx)
  · exact h.apart f hf d T hd (hpoints f hf d T hpt)
  · intro f hf g hg d d' T hd hd' h1 h2
    exact h.shared f hf g hg d d' T hd hd' (hpoints f hf d T h1) (hpoints g hg d' T h2)

/-- The directories keep their entries, except that a frame `k` that was not used may get into
entry `d₀`. -/
theorem Good.of_rows (d₀ k : Nat) (hcr3 : s'.cr3 = s.cr3) (hkernel : s'.kernelDir = s.kernelDir)
    (hinv : ∀ f ∈ live, Inv (s'.loaded f))
    (hrows : ∀ f ∈ live, ∀ d T, d < 1023 → Points s' f d T →
      Points s f d T ∨ d = d₀ ∧ T = k ∧ ¬ Spaces.Used ⟨s, live⟩ T) :
    Good ⟨s', live⟩ := by
  refine ⟨by rw [hcr3]; exact h.current, by rw [hkernel]; exact h.kernel, hinv, ?_, ?_⟩
  · intro f hf d T hd hp
    rcases hrows f hf d T hd hp with hp | ⟨_, _, hno⟩
    · exact h.apart f hf d T hd hp
    · exact fun hmem => hno (.inl hmem)
  · intro f hf g hg d d' T hd hd' h1 h2
    rcases hrows f hf d T hd h1 with h1 | ⟨hd1, _, hno⟩ <;>
      rcases hrows g hg d' T hd' h2 with h2 | ⟨hd2, _, hno'⟩
    · exact h.shared f hf g hg d d' T hd hd' h1 h2
    · exact absurd (.inr ⟨f, hf, d, hd, h1⟩) hno'
    · exact absurd (.inr ⟨g, hg, d', hd', h2⟩) hno
    · rw [hd1, hd2]

/-- The frames another directory uses are not the loaded directory. -/
theorem Good.inUse_ne_dir {f x : Nat} (hf : f ∈ live) (hne : f ≠ s.dir)
    (hx : InUse (s.loaded f) x) : x ≠ s.dir := by
  rcases (inUse_loaded s f x).mp hx with rfl | ⟨d, hd, hp⟩
  · exact hne
  · intro heq
    exact h.apart f hf d x hd hp (heq ▸ h.dir_mem.1)

/-! ## The three updates -/

/-- A change of one table changes it in all directories that share it. -/
theorem Good.entry {d : Nat} {m : Phys} (hd : d < 1023) (ht : HasTable s d)
    (hm : ∀ f, f ≠ s.table d → m f = s.phys f) (hinv : Inv { s with phys := m }) :
    Good ⟨{ s with phys := m }, live⟩ := by
  obtain ⟨hdir, hcr3⟩ := h.dir_mem
  have hpoints : Points s s.dir d (s.table d) := ⟨ht, rfl⟩
  have hrow : ∀ f ∈ live, m f = s.phys f := fun f hf => hm f fun heq =>
    h.apart s.dir hdir d _ hd hpoints (heq ▸ hf)
  have htab := table_congr (hrow _ hdir) d
  have hok := hinv.table d hd (by unfold HasTable; simp only [dir_phys, hrow _ hdir]; exact ht)
  refine h.of_rows d 0 rfl rfl (fun f hf => ?_) fun f hf d' T _ hp => ?_
  · by_cases hsh : Points s f d (s.table d)
    · -- the directory shares the table
      have htf : (s.loaded f).table d = s.table d := (table_loaded s f d).trans hsh.2
      refine (h.inv f hf).congr_table hd ((hasTable_loaded s f d).mpr hsh.1) ?_ ?_ ?_
      · rw [htf]
        exact hm
      · obtain ⟨i, hi, hp⟩ := hok.nonempty
        unfold HasPage at hp
        rw [htab] at hp
        rw [htf]
        exact ⟨i, hi, hp⟩
      · intro i hi hp
        have hpage := hok.pages i hi
        unfold HasPage at hpage
        rw [htab] at hpage
        rw [htf] at hp ⊢
        exact hpage hp
    · refine (h.inv f hf).congr_phys fun x hx => hm x ?_
      rintro rfl
      rcases (inUse_loaded s f _).mp hx with heq | ⟨d', hd', hp⟩
      · exact h.apart s.dir hdir d _ hd hpoints (heq ▸ hf)
      · have := h.shared f hf s.dir hdir d' d _ hd' hd hp hpoints
        exact hsh (this ▸ hp)
  · simp only [Points, hrow f hf] at hp
    exact .inl hp

/-- A new table only concerns the loaded directory. -/
theorem Good.newTable {d k i : Nat} {acl e : Word} (hk : FirstFree s.pmm k)
    (hinv : Inv (s.newTable k d i acl e)) (hacl : AclOk acl) :
    Good ⟨s.newTable k d i acl e, live⟩ := by
  obtain ⟨hdir, hcr3⟩ := h.dir_mem
  have hfree := h.not_used_of_free hk
  have hkd : k ≠ s.dir := fun heq => hfree (.inl (heq ▸ hdir))
  refine h.of_rows d k rfl rfl (fun f hf => ?_) fun f hf d' T _ hp => ?_
  · by_cases hf' : f = s.dir
    · rw [hf', loaded_self (s := s.newTable k d i acl e) hcr3]
      exact hinv
    · have hm : ∀ x, InUse (s.loaded f) x →
          (s.newTable k d i acl e).phys x = (s.loaded f).phys x := fun x hx =>
        newTable_other (fun heq : x = k => hfree (heq ▸ used_of_inUse hf hx)) (h.inUse_ne_dir hf hf' hx) i acl e
      refine ((h.inv f hf).congr_phys hm).congr_pmm rfl fun x _ hx => ?_
      exact (Pmm.isTaken_set s.pmm k x).mpr (.inr hx)
  · by_cases hf' : f = s.dir
    · subst hf'
      unfold Points at hp
      rw [newTable_dir hkd] at hp
      by_cases hdd : d' = d
      · rw [if_pos hdd, (newTable_entry h.inv_current hk hacl).frame] at hp
        exact .inr ⟨hdd, hp.2.symm, hp.2 ▸ hfree⟩
      · rw [if_neg hdd] at hp
        exact .inl hp
    · unfold Points at hp
      rw [newTable_other (fun heq : f = k => hfree (.inl (heq ▸ hf))) hf'] at hp
      exact .inl hp

/-- Giving back a table that no other directory shares. -/
theorem Good.dropTable {d : Nat} (hd : d < 1023) (ht : HasTable s d) (i : Nat)
    (hsole : ∀ f ∈ live, f ≠ s.dir → ¬ Points s f d (s.table d)) :
    Good ⟨s.dropTable d i, live⟩ := by
  obtain ⟨hdir, hcr3⟩ := h.dir_mem
  have hi := h.inv_current
  have hpoints : Points s s.dir d (s.table d) := ⟨ht, rfl⟩
  have hlive : ∀ f ∈ live, f ≠ s.table d := fun f hf heq =>
    h.apart s.dir hdir d _ hd hpoints (heq ▸ hf)
  refine h.of_rows d 0 rfl rfl (fun f hf => ?_) fun f hf d' T _ hp => ?_
  · by_cases hf' : f = s.dir
    · rw [hf', loaded_self (s := s.dropTable d i) hcr3]
      exact dropTable_inv hi hd ht i
    · have hne : ∀ x, InUse (s.loaded f) x → x ≠ s.table d := by
        rintro x hx rfl
        rcases (inUse_loaded s f _).mp hx with heq | ⟨d', hd', hp⟩
        · exact hlive f hf heq.symm
        · have := h.shared f hf s.dir hdir d' d _ hd' hd hp hpoints
          exact hsole f hf hf' (this ▸ hp)
      have hm : ∀ x, InUse (s.loaded f) x → (s.dropTable d i).phys x = (s.loaded f).phys x :=
        fun x hx => dropTable_other (h.inUse_ne_dir hf hf' hx) (hne x hx) i
      refine ((h.inv f hf).congr_phys hm).congr_pmm rfl fun x hx hxt => ?_
      rw [inUse_congr_phys (hm _ (.inl rfl))] at hx
      exact (dropTable_taken s d i x).mpr ⟨hne x hx, hxt⟩
  · by_cases hf' : f = s.dir
    · subst hf'
      unfold Points at hp
      rw [dropTable_dir hi hd ht] at hp
      by_cases hdd : d' = d
      · rw [if_pos hdd, present_zero] at hp
        exact absurd hp.1 (by decide)
      · rw [if_neg hdd] at hp
        exact .inl hp
    · unfold Points at hp
      rw [dropTable_other hf' (hlive f hf)] at hp
      exact .inl hp

end Good

/-! ## Calls -/

/-- `vmm_unmap_page` does not give back a table that another live directory points to. -/
def Spaces.KeepsShared (t : Spaces) : SpaceOp → Prop
  | .call (.unmapPage va) => Empties t.vmm va →
      ∀ f ∈ t.live, f ≠ t.vmm.dir → ¬ Points t.vmm f (va / mb4) (t.vmm.table (va / mb4))
  | _ => True

/-- A call changes no frame that is taken, but the loaded directory and its tables. -/
theorem step_frame {s s' : Vmm} {c : Call} {r : Int} (h : Inv s) (hpre : Pre s c)
    (hs : Vmm.step s c = .ok (r, s')) {b : Nat} (htaken : s.pmm.isTaken b = true) (hb : ¬ InUse s b) :
    s'.phys b = s.phys b := by
  have hdir : b ≠ s.dir := fun heq => hb (.inl heq)
  have htable : ∀ d, d < 1023 → HasTable s d → b ≠ s.table d := fun d hd ht heq =>
    hb (.inr ⟨d, hd, ht, heq.symm⟩)
  obtain rfl | ⟨d, i, e, hd, ht, _, rfl⟩ | ⟨pa, va, acl, k, rfl, _, hfirst, rfl⟩ | ⟨va, rfl, he, rfl⟩ :=
    step_cases h hpre hs
  · rfl
  · exact set_row _ (htable d hd ht) _ _
  · exact newTable_other (hfirst.ne_of_taken htaken).symm hdir _ _ _
  · exact dropTable_other hdir (htable _ (diri_lt hpre) he.1) _

section Call

variable {s s' : Vmm} {live : List Nat} {c : Call} {r : Int} (h : Good ⟨s, live⟩) (hpre : Pre s c)
  (hs : Vmm.step s c = .ok (r, s'))
include h hpre hs

theorem Good.call (hk : Spaces.KeepsShared ⟨s, live⟩ (.call c)) : Good ⟨s', live⟩ := by
  have hi := h.inv_current
  have hinv := step_inv hi hpre hs
  obtain rfl | ⟨d, i, e, hd, ht, _, rfl⟩ | ⟨pa, va, acl, k, rfl, _, hfirst, rfl⟩ | ⟨va, rfl, he, rfl⟩ :=
    step_cases hi hpre hs
  · exact h
  · exact h.entry hd ht (fun f hf => set_row _ hf _ _) hinv
  · exact h.newTable hfirst hinv hpre.2.2.2.1
  · exact h.dropTable (diri_lt hpre) he.1 _ (hk he)

/-- A call leaves the other directories alone, and does not load another one. -/
theorem Good.call_other : s'.cr3 = s.cr3 ∧ ∀ f ∈ live, f ≠ s.dir → s'.phys f = s.phys f := by
  have hi := h.inv_current
  refine ⟨?_, fun f hf hne => step_frame hi hpre hs (h.taken (.inl hf)) ?_⟩
  · obtain rfl | ⟨_, _, _, _, _, _, rfl⟩ | ⟨_, _, _, _, _, _, _, rfl⟩ | ⟨_, _, _, rfl⟩ :=
      step_cases hi hpre hs
    · rfl
    · rfl
    · rfl
    · rfl
  · rintro (heq | ⟨d, hd, ht, heq⟩)
    · exact hne heq
    · exact h.apart s.dir h.dir_mem.1 d f hd ⟨ht, heq⟩ hf

/-- A call leaves a frame alone that was taken for something else. -/
theorem Good.call_kept {b : Nat} (htaken : s.pmm.isTaken b = true) (hno : ¬ Spaces.Used ⟨s, live⟩ b) :
    s'.pmm.isTaken b = true ∧ ¬ Spaces.Used ⟨s', live⟩ b ∧ s'.phys b = s.phys b := by
  have hi := h.inv_current
  obtain ⟨hdir, hcr3⟩ := h.dir_mem
  obtain ⟨hcr3', hother⟩ := h.call_other hpre hs
  have hdir' : s'.dir = s.dir := by rw [Vmm.dir, hcr3', Vmm.dir]
  have hb : ¬ InUse s b := fun hc => hno (used_of_inUse hdir (by rwa [loaded_self hcr3]))
  have hkept : Kept s' b := (step_update hi hpre hs).kept hi ⟨htaken, hb⟩
  refine ⟨hkept.1, ?_, step_frame hi hpre hs htaken hb⟩
  rintro (hmem | ⟨f, hf, d, hd, hp⟩)
  · exact hno (.inl hmem)
  · by_cases hfd : f = s.dir
    · rw [hfd, ← hdir'] at hp
      exact hkept.2 (.inr ⟨d, hd, hp.1, hp.2⟩)
    · rw [Points, hother f hf hfd] at hp
      exact hno (.inr ⟨f, hf, d, hd, hp⟩)

end Call

/-! ## A new directory -/

/-- A directory whose entries are those of the loaded one. -/
theorem Inv.copy {s : Vmm} (h : Inv s) {k : Nat} (hself : EntryFor (s.phys k 1023) k)
    (hrow : ∀ d, d < 1023 → s.phys k d = s.phys s.dir d) (htaken : s.pmm.isTaken k = true)
    (hne : ∀ d, d < 1023 → HasTable s d → s.table d ≠ k) : Inv (s.loaded k) := by
  have htab : ∀ d, d < 1023 → (s.loaded k).table d = s.table d := by
    intro d hd
    rw [table_loaded, hrow d hd, Vmm.table]
  have hhas : ∀ d, d < 1023 → (HasTable (s.loaded k) d ↔ HasTable s d) := by
    intro d hd
    rw [hasTable_loaded, hrow d hd, HasTable]
  refine ⟨?_, h.sz_le, by rw [loaded_dir]; exact htaken, fun d hd ht => ?_, ?_⟩
  · rw [SelfMap, loaded_dir]
    exact hself
  · rw [hhas d hd] at ht
    have hok := h.table d hd ht
    refine ⟨?_, ?_, ?_, ?_, ?_⟩
    · rw [loaded_dir, loaded_phys, hrow d hd]
      exact hok.writable
    · rw [htab d hd, loaded_dir]
      exact hne d hd ht
    · rw [htab d hd]
      exact hok.taken
    · obtain ⟨i, hi, hp⟩ := hok.nonempty
      exact ⟨i, hi, by unfold HasPage; rw [htab d hd]; exact hp⟩
    · intro i hi hp
      unfold HasPage at hp
      rw [htab d hd] at hp ⊢
      exact hok.pages i hi hp
  · intro d d' hd hd' ht ht' heq
    rw [htab d hd, htab d' hd'] at heq
    exact h.inj d d' hd hd' ((hhas d hd).mp ht) ((hhas d' hd').mp ht') heq

theorem Good.addDir {s : Vmm} {live : List Nat} (h : Good ⟨s, live⟩) {k : Nat}
    (hself : EntryFor (s.phys k 1023) k) (hrow : ∀ d, d < 1023 → s.phys k d = s.phys s.dir d)
    (htaken : s.pmm.isTaken k = true) (hno : ¬ Spaces.Used ⟨s, live⟩ k) : Good ⟨s, k :: live⟩ := by
  have hdir := h.dir_mem.1
  have hpoints : ∀ d T, d < 1023 → Points s k d T → Points s s.dir d T := by
    intro d T hd hp
    rw [Points, hrow d hd] at hp
    exact hp
  -- what any of the directories points to, one of the old ones does
  have hold : ∀ f ∈ k :: live, ∃ g ∈ live, ∀ d T, d < 1023 → Points s f d T → Points s g d T := by
    intro f hf
    rcases List.mem_cons.mp hf with rfl | hf
    · exact ⟨s.dir, hdir, hpoints⟩
    · exact ⟨f, hf, fun _ _ _ hp => hp⟩
  refine ⟨?_, ?_, fun f hf => ?_, fun f hf d T hd hp hmem => ?_, ?_⟩
  · obtain ⟨c, hc, hcr3⟩ := h.current
    exact ⟨c, List.mem_cons_of_mem _ hc, hcr3⟩
  · obtain ⟨c, hc, hk⟩ := h.kernel
    exact ⟨c, List.mem_cons_of_mem _ hc, hk⟩
  · rcases List.mem_cons.mp hf with rfl | hf
    · exact h.inv_current.copy hself hrow htaken fun d hd ht heq =>
        hno (.inr ⟨s.dir, hdir, d, hd, ht, heq⟩)
    · exact h.inv f hf
  · obtain ⟨g, hg, hgp⟩ := hold f hf
    have hpg := hgp d T hd hp
    rcases List.mem_cons.mp hmem with rfl | hmem
    · exact hno (.inr ⟨g, hg, d, hd, hpg⟩)
    · exact h.apart g hg d T hd hpg hmem
  · intro f hf g hg d d' T hd hd' h1 h2
    obtain ⟨f', hf', hfp⟩ := hold f hf
    obtain ⟨g', hg', hgp⟩ := hold g hg
    exact h.shared f' hf' g' hg' d d' T hd hd' (hfp d T hd h1) (hgp d' T hd' h2)

end Vmm
end Frod
