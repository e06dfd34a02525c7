import Frod.Vmm.Window

/-!
# Frod.Vmm.Tables

The invariant of the page tables, and what `vmm_map_page` and `vmm_unmap_page` compute under it.

`Inv` ties together the loaded directory, its tables and the allocator: the last entry points back
to the directory, distinct entries have distinct tables, every table and the directory are taken
frames, and a directory entry is present exactly when its table has a present entry (there is no
empty table). Under it every access of the two functions translates, and each function is one of
the memory updates listed by `vmmMapPage_spec` and `vmmUnmapPage_spec`.
-/

namespace Frod
namespace Vmm

open Pmm (HasFree FirstFree blkSz)

/-- The frame of directory entry `d`'s table. -/
def table (s : Vmm) (d : Nat) : Nat := frame (s.phys s.dir d)

/-- Directory entry `d` is present. -/
def HasTable (s : Vmm) (d : Nat) : Prop := present (s.phys s.dir d) = true

/-- Entry `i` of the table of directory entry `d` is present. -/
def HasPage (s : Vmm) (d i : Nat) : Prop := present (s.phys (s.table d) i) = true

theorem table_congr {s : Vmm} {m : Phys} (hdir : m s.dir = s.phys s.dir) (d : Nat) :
    Vmm.table { s with phys := m } d = s.table d := by
  simp only [Vmm.table, dir_phys, hdir]

theorem hasTable_congr {s : Vmm} {m : Phys} (hdir : m s.dir = s.phys s.dir) (d : Nat) :
    HasTable { s with phys := m } d ↔ HasTable s d := by
  simp only [HasTable, dir_phys, hdir]

/-- What holds of a present directory entry below the recursive one. -/
structure TableOk (s : Vmm) (d : Nat) : Prop where
  writable : writable (s.phys s.dir d) = true
  ne_dir : s.table d ≠ s.dir
  taken : s.pmm.isTaken (s.table d) = true
  nonempty : ∃ i, i < 1024 ∧ HasPage s d i
  pages : ∀ i, i < 1024 → HasPage s d i → Vmm.writable (s.phys (s.table d) i) = true

structure Inv (s : Vmm) : Prop where
  self : SelfMap s
  sz_le : s.pmm.bitmapSz ≤ 2 ^ 20
  dir_taken : s.pmm.isTaken s.dir = true
  table : ∀ d, d < 1023 → HasTable s d → TableOk s d
  inj : ∀ d d', d < 1023 → d' < 1023 → HasTable s d → HasTable s d' → s.table d = s.table d' → d = d'

theorem TableOk.entryFor {s : Vmm} {d : Nat} (h : TableOk s d) (hd : HasTable s d) :
    EntryFor (s.phys s.dir d) (s.table d) := ⟨hd, h.writable, rfl⟩

/-- A table is as it should be in every state that has the same entry for it, the same row and its
frame taken. -/
theorem TableOk.congr {s s' : Vmm} {d : Nat} (h : TableOk s d) (hdir : s'.dir = s.dir)
    (hent : s'.phys s'.dir d = s.phys s.dir d) (hrow : s'.phys (s.table d) = s.phys (s.table d))
    (htaken : s'.pmm.isTaken (s.table d) = true) : TableOk s' d := by
  have htab : s'.table d = s.table d := by rw [Vmm.table, hent, Vmm.table]
  refine ⟨by rw [hent]; exact h.writable, by rw [htab, hdir]; exact h.ne_dir,
    by rw [htab]; exact htaken, ?_, ?_⟩
  · obtain ⟨i, hi, hp⟩ := h.nonempty
    exact ⟨i, hi, by unfold HasPage; rw [htab, hrow]; exact hp⟩
  · intro i hi hp
    unfold HasPage at hp
    rw [htab, hrow] at hp ⊢
    exact h.pages i hi hp

theorem Inv.window {s : Vmm} (h : Inv s) {d : Nat} (hd : d < 1023) (ht : HasTable s d) :
    PageTo s (ptableVirtual d) (s.table d) :=
  pageTo_window h.self (by omega) ((h.table d hd ht).entryFor ht)

/-! ## Indices -/

theorem addr2Index_eq (va : Nat) : addr2Index va = (va / mb4, va / kb4 % 1024) := by
  unfold addr2Index kb4 mb4
  simp only [Prod.mk.injEq]
  omega

theorem diri_lt {va : Nat} (h : va < 0xFFC00000) : va / mb4 < 1023 := by unfold mb4; omega

/-! ## `vmm_map_page` -/

/-- The entry `vmm_map_page` writes for `physAddr`. -/
def mapEntry (physAddr : Nat) (acl : Word) : Word := BitVec.ofNat 32 physAddr ||| x86PagePresent ||| acl

/-- The state after a new table in frame `k` for directory entry `d` has received `e` at index `i`. -/
def newTable (s : Vmm) (k d i : Nat) (acl e : Word) : Vmm :=
  { s with
    pmm := { s.pmm with bitmap := s.pmm.bitmap.set k },
    phys := ((s.phys.set s.dir d (mapEntry (k * blkSz) acl)).clear k).set k i e }

theorem vmmMapPage_inUse {s : Vmm} (h : Inv s) {va : Nat} (hva : va < 0xFFC00000) (pa : Nat)
    (acl : Word) (ht : HasTable s (va / mb4)) (hp : HasPage s (va / mb4) (va / kb4 % 1024)) :
    s.vmmMapPage pa va acl = .ok (vmmErrPageInUse, s) := by
  have hd := diri_lt hva
  have hi : va / kb4 % 1024 < 1024 := Nat.mod_lt _ (by omega)
  unfold HasTable at ht
  unfold HasPage at hp
  simp only [vmmMapPage, addr2Index_eq, (pageTo_dirVirtual h.self).load (i := va / mb4) (by omega),
    (h.window hd ht).load hi, bind, Except.bind, ht, hp, if_true, pure, Except.pure]

theorem vmmMapPage_present {s : Vmm} (h : Inv s) {va : Nat} (hva : va < 0xFFC00000) (pa : Nat)
    (acl : Word) (ht : HasTable s (va / mb4)) (hp : ¬ HasPage s (va / mb4) (va / kb4 % 1024)) :
    s.vmmMapPage pa va acl = .ok (vmmSuccess,
      { s with phys := s.phys.set (s.table (va / mb4)) (va / kb4 % 1024) (mapEntry pa acl) }) := by
  have hd := diri_lt hva
  have hi : va / kb4 % 1024 < 1024 := Nat.mod_lt _ (by omega)
  unfold HasTable at ht
  unfold HasPage at hp
  simp only [vmmMapPage, addr2Index_eq, (pageTo_dirVirtual h.self).load (i := va / mb4) (by omega),
    (h.window hd ht).load hi, (h.window hd ht).store hi, bind, Except.bind, ht, hp, if_true, pure,
    Except.pure]
  rfl

theorem mapEntry_present (a : Nat) (acl : Word) : present (mapEntry a acl) = true := by
  rw [mapEntry, present_eq_getLsbD, BitVec.getLsbD_or, BitVec.getLsbD_or]
  simp [show x86PagePresent.getLsbD 0 = true from rfl]

theorem mapEntry_writable (a : Nat) {acl : Word} (h : writable acl = true) :
    writable (mapEntry a acl) = true := by
  rw [writable_eq_getLsbD] at h ⊢
  rw [mapEntry, BitVec.getLsbD_or, h, Bool.or_true]

/-- Without a table, whatever `pmm_alloc_first` returned becomes one: its frame is named by the
directory, cleared and given the entry. The frame must not be the directory itself. -/
theorem vmmMapPage_fills {s : Vmm} (h : SelfMap s) {va : Nat} (hva : va < 0xFFC00000) (pa : Nat)
    {acl : Word} (hacl : writable acl = true) (ht : ¬ HasTable s (va / mb4)) {np f : Nat} {p : Pmm}
    (halloc : s.pmm.allocFirst = (np, p)) (hf : frame (mapEntry np acl) = f) (hne : f ≠ s.dir) :
    s.vmmMapPage pa va acl = .ok (vmmSuccess, { s with
      pmm := p,
      phys := ((s.phys.set s.dir (va / mb4) (mapEntry np acl)).clear f).set f (va / kb4 % 1024)
        (mapEntry pa acl) }) := by
  have hd := diri_lt hva
  have hi : va / kb4 % 1024 < 1024 := Nat.mod_lt _ (by omega)
  unfold HasTable at ht
  -- the state after the directory entry has been written
  let s1 : Vmm := { s with pmm := p, phys := s.phys.set s.dir (va / mb4) (mapEntry np acl) }
  have hself0 : SelfMap { s with pmm := p } := h
  have hself : SelfMap s1 := hself0.congr (set_other_index _ _ _ (by omega) _)
  have hent : EntryFor (s1.phys s1.dir (va / mb4)) f := by
    have : s1.phys s1.dir (va / mb4) = mapEntry np acl := set_same ..
    rw [this]
    exact ⟨mapEntry_present np acl, mapEntry_writable np hacl, hf⟩
  have hwin : PageTo s1 (ptableVirtual (va / mb4)) f := pageTo_window hself (by omega) hent
  have hpde : f ≠ frame (s1.pde (ptableVirtual (va / mb4))) := by
    rw [frame_pde_window hself (by omega)]; exact hne
  have hzero : ptableVirtual (va / mb4) ≠ 0 := by unfold ptableVirtual; omega
  have hwin2 : PageTo { s1 with phys := s1.phys.clear f } (ptableVirtual (va / mb4)) f :=
    hwin.congr_frame hne hpde fun f' hf' => funext fun j => clear_other _ hf' j
  have hstore : ({ s with pmm := p } : Vmm).store (dirVirtual + 4 * (va / mb4))
      (BitVec.ofNat 32 np ||| x86PagePresent ||| acl) = .ok s1 :=
    (pageTo_dirVirtual hself0).store (by omega) _
  simp only [vmmMapPage, addr2Index_eq, (pageTo_dirVirtual h).load (i := va / mb4) (by omega),
    bind, Except.bind, ht, halloc, hstore, hwin.memset hne hpde hzero, hwin2.store hi, pure,
    Except.pure]
  rfl

theorem vmmMapPage_absent {s : Vmm} (h : Inv s) {va : Nat} (hva : va < 0xFFC00000) (pa : Nat)
    {acl : Word} (hacl : AclOk acl) (ht : ¬ HasTable s (va / mb4)) {k : Nat} (hk : FirstFree s.pmm k)
    (halloc : s.pmm.allocFirst =
      (k * blkSz % 2 ^ 32, { s.pmm with bitmap := s.pmm.bitmap.set k })) :
    s.vmmMapPage pa va acl = .ok (vmmSuccess,
      s.newTable k (va / mb4) (va / kb4 % 1024) acl (mapEntry pa acl)) := by
  have hk20 : k < 2 ^ 20 := Nat.lt_of_lt_of_le hk.lt h.sz_le
  have hk32 : k * blkSz < 2 ^ 32 := by unfold blkSz; omega
  -- the new frame was free, so it is not the directory
  have hkd : k ≠ s.dir := hk.ne_of_taken h.dir_taken
  have hframe : frame (mapEntry (k * blkSz) acl) = k := by
    have hent := entryFor_acl (a := k * blkSz) (by unfold blkSz kb4; omega) hk32 hacl
    rw [show k * blkSz / kb4 = k from Nat.mul_div_cancel k (by decide)] at hent
    exact hent.frame
  rw [Nat.mod_eq_of_lt hk32] at halloc
  exact vmmMapPage_fills h.self hva pa hacl.writable ht halloc hframe hkd

/-! ## `vmm_unmap_page` -/

/-- The scan stops at the first present entry, or at 1024 when there is none. -/
theorem scanLoop_spec {s : Vmm} {va f : Nat} (h : PageTo s va f) : ∀ (n i : Nat), i + n = 1024 →
    ∃ r, s.scanLoop va n i = .ok r ∧
      ((r < 1024 ∧ present (s.phys f r) = true) ∨
        (r = 1024 ∧ ∀ j, i ≤ j → j < 1024 → present (s.phys f j) = false)) := by
  intro n
  induction n with
  | zero => intro i hi; exact ⟨i, rfl, .inr ⟨by omega, fun j h1 h2 => absurd h2 (by omega)⟩⟩
  | succ n ih =>
    intro i hi
    simp only [scanLoop, h.load (show i < 1024 by omega), bind, Except.bind]
    cases hp : present (s.phys f i) with
    | true => exact ⟨i, rfl, .inl ⟨by omega, hp⟩⟩
    | false =>
      obtain ⟨r, hr, hcase⟩ := ih (i + 1) (by omega)
      refine ⟨r, by simpa using hr, ?_⟩
      rcases hcase with hcase | ⟨hr1, hall⟩
      · exact .inl hcase
      · refine .inr ⟨hr1, fun j h1 h2 => ?_⟩
        by_cases hj : j = i
        · rw [hj]; exact hp
        · exact hall j (by omega) h2

/-- Physical memory after the entry has been cleared, if it was present. -/
def unmapEntry (s : Vmm) (d i : Nat) : Phys :=
  if present (s.phys (s.table d) i) then s.phys.set (s.table d) i 0#32 else s.phys

/-- The state after the table of directory entry `d`, found empty, has been given back. -/
def dropTable (s : Vmm) (d i : Nat) : Vmm :=
  { s with
    pmm := s.pmm.free (s.phys s.dir d &&& x86PageFrame).toNat,
    phys := (s.unmapEntry d i).set s.dir d 0#32 }

theorem vmmUnmapPage_absent {s : Vmm} (h : SelfMap s) {va : Nat} (hva : va < 0xFFC00000)
    (ht : ¬ HasTable s (va / mb4)) : s.vmmUnmapPage va = .ok (vmmErrNoPagedirEntry, s) := by
  have hd := diri_lt hva
  unfold HasTable at ht
  simp only [vmmUnmapPage, addr2Index_eq, (pageTo_dirVirtual h).load (i := va / mb4) (by omega),
    bind, Except.bind, ht, pure, Except.pure]
  rfl

theorem unmapEntry_other {s : Vmm} {d i f : Nat} (hf : f ≠ s.table d) :
    s.unmapEntry d i f = s.phys f := by
  unfold unmapEntry
  split
  · exact set_row _ hf _ _
  · rfl

theorem PageTo.clearIfPresent {s : Vmm} {va d i : Nat} (h : PageTo s va (s.table d)) (hi : i < 1024) :
    s.clearIfPresent (va + 4 * i) = .ok { s with phys := s.unmapEntry d i } := by
  simp only [Vmm.clearIfPresent, h.load hi, bind, Except.bind]
  by_cases hp : present (s.phys (s.table d) i) = true
  · rw [if_pos hp, h.store hi]; simp only [unmapEntry, if_pos hp]
  · rw [if_neg hp]; simp only [unmapEntry, if_neg hp]; rfl

/-- With a table that can be written and is not the directory, the entry is cleared, and the table
given back if no other entry is present. -/
theorem vmmUnmapPage_clears {s : Vmm} (h : SelfMap s) {va : Nat} (hva : va < 0xFFC00000)
    (hent : EntryFor (s.phys s.dir (va / mb4)) (s.table (va / mb4)))
    (hne : s.table (va / mb4) ≠ s.dir) :
    (s.vmmUnmapPage va = .ok (vmmSuccess, { s with phys := s.unmapEntry (va / mb4) (va / kb4 % 1024) }) ∧
      ∃ j, j < 1024 ∧
        present (s.unmapEntry (va / mb4) (va / kb4 % 1024) (s.table (va / mb4)) j) = true) ∨
    (s.vmmUnmapPage va = .ok (vmmSuccess, s.dropTable (va / mb4) (va / kb4 % 1024)) ∧
      ∀ j, j < 1024 →
        present (s.unmapEntry (va / mb4) (va / kb4 % 1024) (s.table (va / mb4)) j) = false) := by
  have hd := diri_lt hva
  have hi : va / kb4 % 1024 < 1024 := Nat.mod_lt _ (by omega)
  have hwin := pageTo_window h (by omega) hent
  have hpde : s.table (va / mb4) ≠ frame (s.pde (ptableVirtual (va / mb4))) := by
    rw [frame_pde_window h (by omega)]; exact hne
  -- the state after the conditional store
  let s1 : Vmm := { s with phys := s.unmapEntry (va / mb4) (va / kb4 % 1024) }
  have hs1 : s.clearIfPresent (ptableVirtual (va / mb4) + 4 * (va / kb4 % 1024)) = .ok s1 :=
    hwin.clearIfPresent hi
  have hwin1 : PageTo s1 (ptableVirtual (va / mb4)) (s.table (va / mb4)) :=
    hwin.congr_frame hne hpde fun f' hf' => unmapEntry_other hf'
  have hdir1 : s1.phys s1.dir = s.phys s.dir := unmapEntry_other hne.symm
  have hself1 : SelfMap s1 := h.congr (congrFun hdir1 1023)
  obtain ⟨r, hr, hcase⟩ := scanLoop_spec hwin1 1024 0 rfl
  have ht := hent.present
  have hunfold : s.vmmUnmapPage va = (if r ≥ 1024 then do
      let s ← ({ s1 with pmm := s.pmm.free (s.phys s.dir (va / mb4) &&& x86PageFrame).toNat } : Vmm).store
        (dirVirtual + 4 * (va / mb4)) 0#32
      return (vmmSuccess, s)
    else return (vmmSuccess, s1)) := by
    simp only [vmmUnmapPage, addr2Index_eq,
      (pageTo_dirVirtual h).load (i := va / mb4) (by omega), bind, Except.bind, ht,
      if_true, hs1, hr, (pageTo_dirVirtual hself1).load (i := va / mb4) (by omega), hdir1]
    rfl
  rcases hcase with ⟨hlt, hpres⟩ | ⟨heq, hall⟩
  · refine .inl ⟨?_, r, hlt, hpres⟩
    rw [hunfold, if_neg (by omega)]
    rfl
  · refine .inr ⟨?_, fun j hj => hall j (by omega) hj⟩
    have hself2 : SelfMap { s1 with
        pmm := s.pmm.free (s.phys s.dir (va / mb4) &&& x86PageFrame).toNat } := hself1
    rw [hunfold, if_pos (by omega), (pageTo_dirVirtual hself2).store (by omega)]
    rfl

theorem vmmUnmapPage_present {s : Vmm} (h : Inv s) {va : Nat} (hva : va < 0xFFC00000)
    (ht : HasTable s (va / mb4)) :
    (s.vmmUnmapPage va = .ok (vmmSuccess, { s with phys := s.unmapEntry (va / mb4) (va / kb4 % 1024) }) ∧
      ∃ j, j < 1024 ∧
        present (s.unmapEntry (va / mb4) (va / kb4 % 1024) (s.table (va / mb4)) j) = true) ∨
    (s.vmmUnmapPage va = .ok (vmmSuccess, s.dropTable (va / mb4) (va / kb4 % 1024)) ∧
      ∀ j, j < 1024 →
        present (s.unmapEntry (va / mb4) (va / kb4 % 1024) (s.table (va / mb4)) j) = false) :=
  have hok := h.table _ (diri_lt hva) ht
  vmmUnmapPage_clears h.self hva (hok.entryFor ht) hok.ne_dir

end Vmm
end Frod
