import Frod.Vmm.Boot

/-!
# Frod.Vmm.Reach

The states the rest of the kernel can bring the page tables and the allocator to.

Beside `vmm_map_page` and `vmm_unmap_page`, other code takes and gives back frames and writes to
memory. It may do so in any order; what it may not do is free or overwrite a frame that the page
tables use (`InUse`), or free a frame that was taken before `vmm_init` ran, such as those of the
kernel's image. `Reachable.kept` says that these frames stay taken and never become tables.
-/

namespace Frod
namespace Vmm

open Pmm (HasFree FirstFree blkSz)

/-- Frame `f` is the loaded directory or one of its tables. -/
def InUse (s : Vmm) (f : Nat) : Prop := f = s.dir ∨ ∃ d, d < 1023 ∧ HasTable s d ∧ s.table d = f

/-- The states reached from the tables that `vmm_init` builds on `s0`. -/
inductive Reachable (s0 : Vmm) : Vmm → Prop where
  | boot : Reachable s0 s0.vmmInit
  | call {s s' : Vmm} {c : Call} {r : Int} :
      Reachable s0 s → Pre s c → step s c = .ok (r, s') → Reachable s0 s'
  | allocFirst {s : Vmm} : Reachable s0 s → Reachable s0 { s with pmm := s.pmm.allocFirst.2 }
  | allocFirstNBlocks {s : Vmm} (n : Nat) :
      Reachable s0 s → Reachable s0 { s with pmm := (s.pmm.allocFirstNBlocks n).2 }
  | markMemTaken {s : Vmm} (start stop : Nat) :
      Reachable s0 s → Reachable s0 { s with pmm := s.pmm.markMemTaken start stop }
  | free {s : Vmm} (block : Nat) :
      Reachable s0 s → ¬ InUse s (block / blkSz) → s0.pmm.isTaken (block / blkSz) = false →
      Reachable s0 { s with pmm := s.pmm.free block }
  | write {s : Vmm} (m : Phys) :
      Reachable s0 s → (∀ f, InUse s f → m f = s.phys f) → Reachable s0 { s with phys := m }

/-! ## What a call can do -/

/-- The four updates a call amounts to. -/
inductive Update (s : Vmm) : Vmm → Prop where
  | none : Update s s
  | entry {d : Nat} {m : Phys} : d < 1023 → HasTable s d → (∀ f, f ≠ s.table d → m f = s.phys f) →
      Update s { s with phys := m }
  | newTable {k d i : Nat} {acl e : Word} : AclOk acl → FirstFree s.pmm k →
      Update s (s.newTable k d i acl e)
  | dropTable {d i : Nat} : d < 1023 → HasTable s d → Update s (s.dropTable d i)

/-- The table of `va`'s region has no page beside the one of `va`. -/
def Empties (s : Vmm) (va : Nat) : Prop :=
  HasTable s (va / mb4) ∧ ∀ j, j < 1024 → j ≠ va / kb4 % 1024 → ¬ HasPage s (va / mb4) j

/-- Whether the entries that are left when `va` is unmapped are all absent. -/
theorem empties_iff {s : Vmm} {va : Nat} (ht : HasTable s (va / mb4)) : Empties s va ↔
    ∀ j, j < 1024 →
      present (s.unmapEntry (va / mb4) (va / kb4 % 1024) (s.table (va / mb4)) j) = false := by
  have hrow : ∀ j, j ≠ va / kb4 % 1024 →
      s.unmapEntry (va / mb4) (va / kb4 % 1024) (s.table (va / mb4)) j =
        s.phys (s.table (va / mb4)) j := by
    intro j hj
    rw [unmapEntry]
    split
    · exact set_other_index _ _ _ hj _
    · rfl
  constructor
  · rintro ⟨_, hall⟩ j hj
    by_cases hji : j = va / kb4 % 1024
    · subst hji
      rw [unmapEntry]
      split
      · rw [set_same, present_zero]
      · rename_i hp
        simpa using hp
    · rw [hrow j hji, ← Bool.not_eq_true]
      exact hall j hj hji
  · intro hall
    refine ⟨ht, fun j hj hji hp => ?_⟩
    have := hall j hj
    rw [hrow j hji] at this
    rw [HasPage, this] at hp
    cases hp

/-- Everything a call can do. -/
theorem step_cases {s s' : Vmm} {c : Call} {r : Int} (h : Inv s) (hpre : Pre s c)
    (hs : step s c = .ok (r, s')) :
    s' = s ∨
    (∃ d i e, d < 1023 ∧ HasTable s d ∧ (present e = true ∨ e = 0#32) ∧
      s' = { s with phys := s.phys.set (s.table d) i e }) ∨
    (∃ pa va acl k, c = .mapPage pa va acl ∧ ¬ HasTable s (va / mb4) ∧ FirstFree s.pmm k ∧
      s' = s.newTable k (va / mb4) (va / kb4 % 1024) acl (mapEntry pa acl)) ∨
    (∃ va, c = .unmapPage va ∧ Empties s va ∧ s' = s.dropTable (va / mb4) (va / kb4 % 1024)) := by
  cases c with
  | mapPage pa va acl =>
    obtain ⟨hva, hpa, hpa32, hacl, hfree⟩ := hpre
    have hd := diri_lt hva
    simp only [step] at hs
    by_cases ht : HasTable s (va / mb4)
    · by_cases hp : HasPage s (va / mb4) (va / kb4 % 1024)
      · rw [vmmMapPage_inUse h hva pa acl ht hp] at hs
        cases hs
        exact .inl rfl
      · rw [vmmMapPage_present h hva pa acl ht hp] at hs
        cases hs
        exact .inr (.inl ⟨_, _, _, hd, ht, .inl (entryFor_acl hpa hpa32 hacl).present, rfl⟩)
    · obtain ⟨k, hk, halloc⟩ := Pmm.allocFirst_of_hasFree (hfree ht)
      rw [vmmMapPage_absent h hva pa hacl ht hk halloc] at hs
      cases hs
      exact .inr (.inr (.inl ⟨pa, va, acl, k, rfl, ht, hk, rfl⟩))
  | unmapPage va =>
    have hd := diri_lt hpre
    simp only [step] at hs
    by_cases ht : HasTable s (va / mb4)
    · rcases vmmUnmapPage_present h hpre ht with ⟨heq, _⟩ | ⟨heq, hall⟩
      · rw [heq] at hs
        cases hs
        rw [unmapEntry]
        split
        · exact .inr (.inl ⟨_, _, _, hd, ht, .inr rfl, rfl⟩)
        · exact .inl rfl
      · rw [heq] at hs
        cases hs
        exact .inr (.inr (.inr ⟨va, rfl, (empties_iff ht).mpr hall, rfl⟩))
    · rw [vmmUnmapPage_absent h.self hpre ht] at hs
      cases hs
      exact .inl rfl

theorem step_update {s s' : Vmm} {c : Call} {r : Int} (h : Inv s) (hpre : Pre s c)
    (hs : step s c = .ok (r, s')) : Update s s' := by
  obtain rfl | ⟨d, i, e, hd, ht, _, rfl⟩ | ⟨pa, va, acl, k, rfl, _, hk, rfl⟩ | ⟨va, rfl, he, rfl⟩ :=
    step_cases h hpre hs
  · exact .none
  · exact .entry hd ht fun f hf => set_row _ hf _ _
  · exact .newTable hpre.2.2.2.1 hk
  · exact .dropTable (diri_lt hpre) he.1

/-- Every state that satisfies the invariant refines its own translation. -/
theorem Inv.refines_slots {s : Vmm} (h : Inv s) : Refines s fun p => s.slot (p / 1024) (p % 1024) :=
  ⟨h, fun d i _ hi => by
    have hd : (1024 * d + i) / 1024 = d := by omega
    have hi : (1024 * d + i) % 1024 = i := by omega
    rw [hd, hi]⟩

theorem step_inv {s s' : Vmm} {c : Call} {r : Int} (h : Inv s) (hpre : Pre s c)
    (hs : step s c = .ok (r, s')) : Inv s' := by
  obtain ⟨s2, h2, hR2⟩ := step_refines s _ c h.refines_slots hpre
  rw [hs] at h2
  cases h2
  exact hR2.inv

/-! ## What other code can do -/

theorem Inv.congr_pmm {s : Vmm} (h : Inv s) {p : Pmm} (hsz : p.bitmapSz = s.pmm.bitmapSz)
    (hp : ∀ b, InUse s b → s.pmm.isTaken b = true → p.isTaken b = true) :
    Inv { s with pmm := p } := by
  refine ⟨h.self, by rw [hsz]; exact h.sz_le, hp _ (.inl rfl) h.dir_taken, ?_, h.inj⟩
  intro d hd ht
  have hok := h.table d hd ht
  exact ⟨hok.writable, hok.ne_dir, hp _ (.inr ⟨d, hd, ht, rfl⟩) hok.taken, hok.nonempty, hok.pages⟩

theorem Inv.congr_phys {s : Vmm} (h : Inv s) {m : Phys} (hm : ∀ f, InUse s f → m f = s.phys f) :
    Inv { s with phys := m } := by
  have hdir : m s.dir = s.phys s.dir := hm _ (.inl rfl)
  have htab := table_congr hdir
  have hhas := hasTable_congr hdir
  refine ⟨h.self.congr (congrFun hdir 1023), h.sz_le, h.dir_taken, ?_, ?_⟩
  · intro d hd ht
    rw [hhas] at ht
    have hok := h.table d hd ht
    have hrow : m (s.table d) = s.phys (s.table d) := hm _ (.inr ⟨d, hd, ht, rfl⟩)
    refine ⟨by simp only [dir_phys, hdir]; exact hok.writable, by rw [htab]; exact hok.ne_dir,
      by rw [htab]; exact hok.taken, ?_, ?_⟩
    · obtain ⟨i, hi, hp⟩ := hok.nonempty
      exact ⟨i, hi, by unfold HasPage; rw [htab]; simp only [hrow]; exact hp⟩
    · intro i hi hp
      unfold HasPage at hp
      rw [htab] at hp ⊢
      simp only [hrow] at hp ⊢
      exact hok.pages i hi hp
  · intro d1 d2 hd1 hd2 ht1 ht2 he
    rw [htab, htab] at he
    exact h.inj d1 d2 hd1 hd2 ((hhas d1).mp ht1) ((hhas d2).mp ht2) he

theorem inUse_congr_phys {s : Vmm} {m : Phys} (hdir : m s.dir = s.phys s.dir) (f : Nat) :
    InUse { s with phys := m } f ↔ InUse s f := by
  simp only [InUse, hasTable_congr hdir, table_congr hdir, dir_phys]

theorem walk_congr_phys {s : Vmm} {m : Phys} (hm : ∀ f, InUse s f → m f = s.phys f) {va : Nat}
    (hva : va < 0xFFC00000) : walk { s with phys := m } va = s.walk va := by
  have hdir : m s.dir = s.phys s.dir := hm _ (.inl rfl)
  have hpde : pde { s with phys := m } va = s.pde va := by simp only [pde, dir_phys, hdir]
  by_cases ht : HasTable s (va / mb4)
  · have hrow : m (frame (s.pde va)) = s.phys (frame (s.pde va)) :=
      hm _ (.inr ⟨_, diri_lt hva, ht, rfl⟩)
    have hpte : pte { s with phys := m } va = s.pte va := by simp only [pte, hpde, hrow]
    rw [walk, walk, hpde, hpte]
  · have hno : present (s.pde va) = false := by simpa [HasTable, pde] using ht
    rw [walk, walk, hpde, hno]
    rfl

/-! ## Frames taken before `vmm_init` -/

/-- Frame `b` is taken and the page tables do not use it. -/
def Kept (s : Vmm) (b : Nat) : Prop := s.pmm.isTaken b = true ∧ ¬ InUse s b

theorem Update.kept {s s' : Vmm} (h : Inv s) (hu : Update s s') {b : Nat} (hb : Kept s b) :
    Kept s' b := by
  obtain ⟨htaken, hno⟩ := hb
  cases hu with
  | none => exact ⟨htaken, hno⟩
  | entry hd ht hm =>
    have hdir := hm _ (h.table _ hd ht).ne_dir.symm
    exact ⟨htaken, fun hc => hno ((inUse_congr_phys hdir b).mp hc)⟩
  | @newTable k d i acl e hacl hk =>
    refine ⟨(Pmm.isTaken_set s.pmm k b).mpr (.inr htaken), ?_⟩
    rintro (hc | ⟨d', hd', ht', hc⟩)
    · exact hno (.inl hc)
    · rw [newTable_table h hk hacl] at hc
      rw [newTable_hasTable h hk hacl] at ht'
      by_cases hdd : d' = d
      · -- the new table was a free frame
        rw [if_pos hdd] at hc
        exact hk.ne_of_taken htaken hc
      · rw [if_neg hdd] at hc
        exact hno (.inr ⟨d', hd', ht'.resolve_left hdd, hc⟩)
  | @dropTable d i hd ht =>
    refine ⟨(dropTable_taken s d i b).mpr ⟨fun hc => hno (.inr ⟨d, hd, ht, hc.symm⟩), htaken⟩, ?_⟩
    rintro (hc | ⟨d', hd', ht', hc⟩)
    · exact hno (.inl hc)
    · obtain ⟨hne, ht'⟩ := (dropTable_hasTable h hd ht i d').mp ht'
      rw [dropTable_table h hd ht i hne] at hc
      exact hno (.inr ⟨d', hd', ht', hc⟩)

/-- In every reachable state the invariant holds, and what was taken before `vmm_init` still is. -/
theorem Reachable.kept {s0 s : Vmm} (hsz : s0.pmm.bitmapSz ≤ 2 ^ 20) (hfree : TwoFree s0.pmm)
    (h : Reachable s0 s) : Inv s ∧ ∀ b, s0.pmm.isTaken b = true → Kept s b := by
  -- a change of the allocator alone, by code that frees no frame in use and none taken at boot
  have halloc : ∀ {s : Vmm} {p : Pmm}, (Inv s ∧ ∀ b, s0.pmm.isTaken b = true → Kept s b) →
      p.bitmapSz = s.pmm.bitmapSz →
      (∀ b, InUse s b ∨ s0.pmm.isTaken b = true → s.pmm.isTaken b = true → p.isTaken b = true) →
      Inv { s with pmm := p } ∧ ∀ b, s0.pmm.isTaken b = true → Kept { s with pmm := p } b :=
    fun ⟨hi, hk⟩ hs hp => ⟨hi.congr_pmm hs fun b hb => hp b (.inl hb),
      fun b hb => ⟨hp b (.inr hb) (hk b hb).1, (hk b hb).2⟩⟩
  induction h with
  | boot =>
    obtain ⟨k1, k2, hb⟩ := vmmInit_built hsz hfree
    refine ⟨hb.inv hsz, fun b ht => ⟨(hb.taken b).mpr (.inr (.inr (.inr ht))), ?_⟩⟩
    rintro (hc | ⟨d, hd, htab, hc⟩)
    · rw [hc, hb.dir, hb.first1.clear] at ht; cases ht
    · obtain rfl := (hb.hasTable_iff hd).mp htab
      rw [← hc, hb.table_zero, hb.free2] at ht; cases ht
  | call _ hpre hs ih =>
    exact ⟨step_inv ih.1 hpre hs, fun b hb => (step_update ih.1 hpre hs).kept ih.1 (ih.2 b hb)⟩
  | @allocFirst s _ ih =>
    refine halloc ih (Pmm.allocFirst_bitmapSz _) fun b _ hb => ?_
    rcases Pmm.allocFirst_spec s.pmm with ⟨k, _, heq⟩ | ⟨_, heq⟩
    · rw [heq]; exact (Pmm.isTaken_set ..).mpr (.inr hb)
    · rw [heq]; exact hb
  | @allocFirstNBlocks s n _ ih =>
    refine halloc ih (Pmm.allocFirstNBlocks_bitmapSz _ n) fun b _ hb => ?_
    rcases Pmm.allocFirstNBlocks_spec s.pmm n with ⟨_, _, _, hbits⟩ | heq
    · exact (hbits b).mpr (.inr hb)
    · rw [heq]; exact hb
  | markMemTaken start stop _ ih =>
    exact halloc ih rfl fun b _ hb => (Pmm.isTaken_markMemTaken ..).mpr (.inr hb)
  | free block _ hno h0 ih =>
    refine halloc ih rfl fun b hb ht => (Pmm.isTaken_free ..).mpr ⟨?_, ht⟩
    rintro rfl
    rcases hb with hb | hb
    · exact hno hb
    · rw [h0] at hb; cases hb
  | write m _ hm ih =>
    exact ⟨ih.1.congr_phys hm,
      fun b hb => ⟨(ih.2 b hb).1, fun hc => (ih.2 b hb).2 ((inUse_congr_phys (hm _ (.inl rfl)) b).mp hc)⟩⟩

end Vmm
end Frod
