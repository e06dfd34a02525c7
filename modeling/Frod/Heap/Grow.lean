import Frod.Heap.Model
import Frod.Vmm.Reach

/-!
# Frod.Heap.Grow

How the heap gets pages: the mapping loop of `heap_get_new_block` over the page tables.

With a frame for every page and for every table that is missing (`GetsFrames`), the loop maps the
next pages of the heap, and it stops with a panic when it comes to a page that is mapped already. In
particular the heap never grows into the window of the page tables, whose first page shows the table
of the first 4 MB.
-/

namespace Frod
namespace Heap

open Vmm (Refines PageMap HasTable)
open Pmm (HasFree FirstFree blkSz)

/-- The page tables below the heap, as the map they stand for. Something in the first 4 MB, where the
kernel itself is, is mapped. -/
structure VmOk (vm : Vmm) (A : PageMap) : Prop where
  refines : Refines vm A
  low : ∃ i, i < 1024 ∧ A i ≠ none

/-- Every one of the next `n` iterations of the mapping loop gets a frame for its page, and one for
a new page table if there is none yet. -/
def GetsFrames : Nat → Heap → Prop
  | 0, _ => True
  | n + 1, s => HasFree s.vm.pmm ∧
      (¬ HasTable s.vm (s.nextPage / mb4) → HasFree s.vm.pmm.allocFirst.2) ∧
      ∀ s', s.mapHeapPage = .ok s' → GetsFrames n s'

/-- The heap with one more page, on page tables `vm`. -/
def grown (s : Heap) (vm : Vmm) (n : Nat) : Heap :=
  { s with vm := vm, blocksAllocked := s.blocksAllocked + n }

theorem Refines.congr_pmm {vm : Vmm} {A : PageMap} (h : Refines vm A) {p : Pmm}
    (hsz : p.bitmapSz = vm.pmm.bitmapSz)
    (hp : ∀ b, vm.pmm.isTaken b = true → p.isTaken b = true) : Refines { vm with pmm := p } A :=
  ⟨h.inv.congr_pmm hsz fun b _ hb => hp b hb, h.slot_eq⟩

theorem VmOk.hasTable_zero {vm : Vmm} {A : PageMap} (h : VmOk vm A) : HasTable vm 0 := by
  obtain ⟨i, hi, hA⟩ := h.low
  refine (h.refines.inv.hasTable_iff (by omega)).mpr ⟨i, hi, ?_⟩
  rw [h.refines.slot_eq 0 i (by omega) hi, Nat.mul_zero, Nat.zero_add]
  exact hA

/-- The first page of the window shows the table of the first 4 MB. -/
theorem vmmMapPage_window {vm : Vmm} {A : PageMap} (h : VmOk vm A) (pa : Nat) (acl : Word) :
    vm.vmmMapPage pa 0xFFC00000 acl = .ok (Vmm.vmmErrPageInUse, vm) := by
  have hself := h.refines.inv.self
  have hdir := Vmm.pageTo_dirVirtual hself
  have h0 : Vmm.present (vm.phys vm.dir 0) = true := h.hasTable_zero
  have hl1 := hdir.load (i := 1023) (by omega)
  have hl0 := hdir.load (i := 0) (by omega)
  have hidx : Vmm.addr2Index 0xFFC00000 = (1023, 0) := by decide
  have hwin : Vmm.ptableVirtual 1023 = Vmm.dirVirtual := by decide
  simp only [Vmm.vmmMapPage, hidx, hwin, hl1, hl0, bind, Except.bind, hself.present, h0, if_true,
    pure, Except.pure]

theorem mapHeapPage_of_map {s : Heap} {p : Pmm} {pa : Nat} {r : Int} {vm : Vmm}
    (halloc : s.vm.pmm.allocFirst = (pa, p))
    (hmap : Vmm.vmmMapPage { s.vm with pmm := p } pa s.nextPage Vmm.x86PageWritable = .ok (r, vm)) :
    s.mapHeapPage = if r ≠ 0 then .error (.panic "Unable to map page")
      else .ok { s with vm := vm, blocksAllocked := (s.blocksAllocked + 1) % 2 ^ 32 } := by
  simp only [mapHeapPage, halloc, hmap, Machine.ok_bind]
  split <;> rfl

/-- The page tables stay as they should be when an unmapped page is mapped. -/
theorem VmOk.update {vm v : Vmm} {A : PageMap} (h : VmOk vm A) {p f : Nat} (hA : A p = none)
    (hv : Refines v (Function.update A p (some f))) : VmOk v (Function.update A p (some f)) := by
  obtain ⟨i, hi, hAi⟩ := h.low
  refine ⟨hv, i, hi, ?_⟩
  rw [Function.update_of_ne]
  · exact hAi
  · rintro rfl
    exact hAi hA

section MapPage

variable {s : Heap} {A : PageMap} (hv : VmOk s.vm A)
include hv

/-- An unmapped page below the window gets the lowest free frame. -/
theorem mapHeapPage_maps (hlt : s.nextPage < 0xFFC00000) (hA : A (s.nextPage / kb4) = none)
    (hf : GetsFrames 1 s) : ∃ v k, FirstFree s.vm.pmm k ∧
      Vmm.Pre { s.vm with pmm := { s.vm.pmm with bitmap := s.vm.pmm.bitmap.set k } }
        (.mapPage (k * blkSz) s.nextPage Vmm.x86PageWritable) ∧
      Vmm.vmmMapPage { s.vm with pmm := { s.vm.pmm with bitmap := s.vm.pmm.bitmap.set k } }
        (k * blkSz) s.nextPage Vmm.x86PageWritable = .ok (Vmm.vmmSuccess, v) ∧
      s.mapHeapPage =
        .ok { s with vm := v, blocksAllocked := (s.blocksAllocked + 1) % 2 ^ 32 } ∧
      VmOk v (Function.update A (s.nextPage / kb4) (some k)) := by
  obtain ⟨hfree, htab, _⟩ := hf
  obtain ⟨k, hk, halloc⟩ := Pmm.allocFirst_of_hasFree hfree
  have hk20 : k < 2 ^ 20 := Nat.lt_of_lt_of_le hk.lt hv.refines.inv.sz_le
  rw [Nat.mod_eq_of_lt (by unfold blkSz; omega)] at halloc
  rw [halloc] at htab
  have hR1 : Refines { s.vm with pmm := { s.vm.pmm with bitmap := s.vm.pmm.bitmap.set k } } A :=
    Refines.congr_pmm hv.refines rfl fun b hb => (Pmm.isTaken_set ..).mpr (.inr hb)
  have hpre : Vmm.Pre { s.vm with pmm := { s.vm.pmm with bitmap := s.vm.pmm.bitmap.set k } }
      (.mapPage (k * blkSz) s.nextPage Vmm.x86PageWritable) :=
    ⟨hlt, by unfold blkSz kb4; omega, by unfold blkSz; omega, Vmm.aclOk_writable, htab⟩
  obtain ⟨v, hmap, hRv⟩ := Vmm.mapPage_refines hR1 hpre
  simp only [Vmm.spec, if_pos hA] at hmap hRv
  rw [show k * blkSz / kb4 = k from Nat.mul_div_cancel k (by decide)] at hRv
  refine ⟨v, k, hk, hpre, hmap, ?_, hv.update hA hRv⟩
  rw [mapHeapPage_of_map halloc hmap]
  rfl

/-- One page: a page that is not mapped yet is mapped, below the window. -/
theorem mapHeapPage_cases (hb : heapStart + 4096 * s.blocksAllocked ≤ 0xFFC00000)
    (hf : GetsFrames 1 s) :
    (∃ v k, s.mapHeapPage = .ok (s.grown v 1) ∧
        VmOk v (Function.update A (heapStart / kb4 + s.blocksAllocked) (some k)) ∧
        A (heapStart / kb4 + s.blocksAllocked) = none ∧
        heapStart + 4096 * s.blocksAllocked < 0xFFC00000 ∧
        ∃ f, FirstFree s.vm.pmm f ∧ Vmm.Update
          { s.vm with pmm := { s.vm.pmm with bitmap := s.vm.pmm.bitmap.set f } } v) ∨
      ((A (heapStart / kb4 + s.blocksAllocked) ≠ none ∨
          heapStart + 4096 * s.blocksAllocked = 0xFFC00000) ∧
        s.mapHeapPage = .error (.panic "Unable to map page")) := by
  have hpage : s.nextPage = heapStart + 4096 * s.blocksAllocked := by
    unfold nextPage; omega
  have hblocks : (s.blocksAllocked + 1) % 2 ^ 32 = s.blocksAllocked + 1 := by omega
  have hidx : s.nextPage / kb4 = heapStart / kb4 + s.blocksAllocked := by
    rw [hpage]
    unfold heapStart procVmmEnd procVmmStart mb256 kb4; omega
  by_cases hA : A (s.nextPage / kb4) = none ∧ s.nextPage < 0xFFC00000
  · obtain ⟨hA, hlt⟩ := hA
    obtain ⟨v, k, hk, hpre, hmap, hret, hv'⟩ := mapHeapPage_maps hv hlt hA hf
    have hR1 : Refines { s.vm with pmm := { s.vm.pmm with bitmap := s.vm.pmm.bitmap.set k } } A :=
      Refines.congr_pmm hv.refines rfl fun b hb => (Pmm.isTaken_set ..).mpr (.inr hb)
    have hu := Vmm.step_update hR1.inv hpre hmap
    rw [hblocks] at hret
    rw [hidx] at hA hv'
    exact .inl ⟨v, k, hret, hv', hA, by omega, k, hk, hu⟩
  · -- the page is mapped already
    obtain ⟨hfree, htab, _⟩ := hf
    obtain ⟨k, hk, halloc⟩ := Pmm.allocFirst_of_hasFree hfree
    have hR1 : Refines { s.vm with pmm := { s.vm.pmm with bitmap := s.vm.pmm.bitmap.set k } } A :=
      Refines.congr_pmm hv.refines rfl fun b hb => (Pmm.isTaken_set ..).mpr (.inr hb)
    have hinuse : ∃ vm, Vmm.vmmMapPage
        { s.vm with pmm := { s.vm.pmm with bitmap := s.vm.pmm.bitmap.set k } }
        (k * blkSz % 2 ^ 32) s.nextPage Vmm.x86PageWritable = .ok (Vmm.vmmErrPageInUse, vm) := by
      by_cases hwin : s.nextPage = 0xFFC00000
      · rw [hwin]
        exact ⟨_, vmmMapPage_window ⟨hR1, hv.low⟩ _ _⟩
      · have hlt : s.nextPage < 0xFFC00000 := by omega
        have hpre : Vmm.Pre { s.vm with pmm := { s.vm.pmm with bitmap := s.vm.pmm.bitmap.set k } }
            (.mapPage (k * blkSz % 2 ^ 32) s.nextPage Vmm.x86PageWritable) := by
          refine ⟨hlt, by unfold blkSz kb4; omega, by omega, Vmm.aclOk_writable, ?_⟩
          rw [halloc] at htab
          exact htab
        obtain ⟨v, hmap, _⟩ := Vmm.mapPage_refines hR1 hpre
        simp only [Vmm.spec, if_neg fun hc => hA ⟨hc, hlt⟩] at hmap
        exact ⟨v, hmap⟩
    obtain ⟨vm, hmap⟩ := hinuse
    refine .inr ⟨?_, by rw [mapHeapPage_of_map halloc hmap]; rfl⟩
    rw [← hidx, ← hpage]
    by_cases hn : A (s.nextPage / kb4) = none
    · have hge : ¬ s.nextPage < 0xFFC00000 := fun hlt => hA ⟨hn, hlt⟩
      exact .inr (by omega)
    · exact .inl hn

end MapPage

/-- `A'` maps the `n` pages from `p` on, which `A` did not, and is `A` elsewhere. -/
structure Adds (A A' : PageMap) (p n : Nat) : Prop where
  new : ∀ j, j < n → A (p + j) = none ∧ A' (p + j) ≠ none
  old : ∀ q, q < p ∨ p + n ≤ q → A' q = A q

theorem Adds.zero (A : PageMap) (p : Nat) : Adds A A p 0 :=
  ⟨fun j hj => absurd hj (Nat.not_lt_zero j), fun _ _ => rfl⟩

theorem Adds.one {A : PageMap} {p : Nat} (h : A p = none) (k : Nat) :
    Adds A (Function.update A p (some k)) p 1 := by
  refine ⟨fun j hj => ?_, fun q hq => Function.update_of_ne (by omega) _ _⟩
  obtain rfl : j = 0 := by omega
  simp [h]

theorem Adds.trans {A B C : PageMap} {p n m : Nat} (h : Adds A B p n) (h' : Adds B C (p + n) m) :
    Adds A C p (n + m) := by
  refine ⟨fun j hj => ?_, fun q hq => ?_⟩
  · by_cases hjn : j < n
    · rw [h'.old (p + j) (by omega)]
      exact h.new j hjn
    · obtain ⟨h1, h2⟩ := h'.new (j - n) (by omega)
      rw [show p + n + (j - n) = p + j by omega] at h1 h2
      exact ⟨(h.old (p + j) (by omega)).symm.trans h1, h2⟩
  · rw [h'.old q (by omega), h.old q (by omega)]

/-- The page after one below the window is below it or its first page. -/
theorem grown_bound {s : Heap} (h : heapStart + 4096 * s.blocksAllocked < 0xFFC00000) (v : Vmm) :
    heapStart + 4096 * (s.grown v 1).blocksAllocked ≤ 0xFFC00000 := by
  simp only [grown]
  unfold heapStart procVmmEnd procVmmStart mb256 at *
  omega

/-- When the loop returns, it has mapped `n` pages below the window and done nothing else. -/
theorem mapLoop_spec : ∀ {n : Nat} {s s' : Heap} {A : PageMap}, VmOk s.vm A →
    heapStart + 4096 * s.blocksAllocked ≤ 0xFFC00000 → GetsFrames n s → mapLoop n s = .ok s' →
    ∃ v A', s' = s.grown v n ∧ VmOk v A' ∧ heapStart + 4096 * (s.blocksAllocked + n) ≤ 0xFFC00000 ∧
      Adds A A' (heapStart / kb4 + s.blocksAllocked) n := by
  intro n
  induction n with
  | zero =>
    intro s s' A hv hb _ h
    cases h
    exact ⟨s.vm, A, rfl, hv, hb, Adds.zero _ _⟩
  | succ n ih =>
    intro s s' A hv hb hf h
    rw [mapLoop] at h
    have hf1 : GetsFrames 1 s := ⟨hf.1, hf.2.1, fun _ _ => trivial⟩
    rcases mapHeapPage_cases hv hb hf1 with ⟨v, k, hmap, hv1, hA, hlt, _⟩ | ⟨_, hmap⟩
    · rw [hmap] at h
      obtain ⟨v', A', rfl, hv', hb', hadds⟩ := ih hv1 (grown_bound hlt v) (hf.2.2 _ hmap) h
      refine ⟨v', A', ?_, hv', ?_, ?_⟩
      · simp only [grown]
        rw [Nat.add_assoc, Nat.add_comm 1 n]
      · simp only [grown] at hb'
        omega
      · rw [Nat.add_comm n 1]
        exact (Adds.one hA k).trans hadds
    · rw [hmap] at h
      cases h

/-- With frames the loop returns or comes to a page that is mapped already, and there it panics. -/
theorem mapLoop_cases : ∀ {n : Nat} {s : Heap} {A : PageMap}, VmOk s.vm A →
    heapStart + 4096 * s.blocksAllocked ≤ 0xFFC00000 → GetsFrames n s →
    (∃ s', mapLoop n s = .ok s') ∨ mapLoop n s = .error (.panic "Unable to map page") := by
  intro n
  induction n with
  | zero =>
    intro s A _ _ _
    exact .inl ⟨s, rfl⟩
  | succ n ih =>
    intro s A hv hb hf
    have hf1 : GetsFrames 1 s := ⟨hf.1, hf.2.1, fun _ _ => trivial⟩
    rcases mapHeapPage_cases hv hb hf1 with ⟨v, k, hmap, hv1, _, hlt, _⟩ | ⟨_, hmap⟩
    · rw [mapLoop, hmap, Machine.ok_bind]
      exact ih hv1 (grown_bound hlt v) (hf.2.2 _ hmap)
    · rw [mapLoop, hmap]
      exact .inr rfl

/-- With frames and unmapped pages below the window the loop does return. -/
theorem mapLoop_ok : ∀ {n : Nat} {s : Heap} {A : PageMap}, VmOk s.vm A →
    heapStart + 4096 * (s.blocksAllocked + n) ≤ 0xFFC00000 → GetsFrames n s →
    (∀ p, heapStart / kb4 + s.blocksAllocked ≤ p → A p = none) →
    ∃ v A', mapLoop n s = .ok (s.grown v n) ∧ VmOk v A' ∧
      ∀ p, heapStart / kb4 + (s.blocksAllocked + n) ≤ p → A' p = none := by
  intro n
  induction n with
  | zero =>
    intro s A hv hb _ hA
    exact ⟨s.vm, A, rfl, hv, hA⟩
  | succ n ih =>
    intro s A hv hb hf hA
    have hf1 : GetsFrames 1 s := ⟨hf.1, hf.2.1, fun _ _ => trivial⟩
    rcases mapHeapPage_cases hv (by omega) hf1 with ⟨v, k, hmap, hv1, _, _, _⟩ | ⟨hbad, _⟩
    · have hA1 : ∀ p, heapStart / kb4 + (s.grown v 1).blocksAllocked ≤ p →
          Function.update A (heapStart / kb4 + s.blocksAllocked) (some k) p = none := by
        intro p hp
        simp only [grown] at hp
        rw [Function.update_of_ne (by omega)]
        exact hA p (by omega)
      have hb1 : heapStart + 4096 * ((s.grown v 1).blocksAllocked + n) ≤ 0xFFC00000 := by
        simp only [grown]
        rwa [Nat.add_assoc, Nat.add_comm 1 n]
      obtain ⟨v', A', hloop, hv', hA'⟩ := ih hv1 hb1 (hf.2.2 _ hmap) hA1
      refine ⟨v', A', ?_, hv', ?_⟩
      · rw [mapLoop, hmap]
        refine hloop.trans ?_
        simp only [grown]
        rw [Nat.add_assoc, Nat.add_comm 1 n]
      · simp only [grown] at hA'
        rwa [Nat.add_assoc, Nat.add_comm 1 n] at hA'
    · rcases hbad with hbad | hbad
      · exact absurd (hA _ (Nat.le_refl _)) hbad
      · omega

/-! ## Enough memory -/

/-- Every block from `k` on is free. -/
def FreeFrom (k : Nat) (p : Pmm) : Prop := ∀ j, k ≤ j → j < p.bitmapSz → p.isTaken j = false

theorem FreeFrom.hasFree {k : Nat} {p : Pmm} (h : FreeFrom k p) (h1 : 1 ≤ k) (hk : k < p.bitmapSz) :
    HasFree p := ⟨k, h1, hk, h k (Nat.le_refl k) hk⟩

/-- Taking the lowest free block costs at most the first of them. -/
theorem FreeFrom.set {k f : Nat} {p : Pmm} (h : FreeFrom k p) (h1 : 1 ≤ k) (hk : k < p.bitmapSz)
    (hf : FirstFree p f) : FreeFrom (k + 1) { p with bitmap := p.bitmap.set f } := by
  have hfk : f ≤ k := by
    by_contra hc
    have := hf.below k h1 (by omega)
    rw [h k (Nat.le_refl k) hk] at this
    cases this
  intro j hj hlt
  rw [← Bool.not_eq_true, Pmm.isTaken_set]
  rintro (rfl | ht)
  · omega
  · rw [h j (by omega) hlt] at ht
    cases ht

theorem FreeFrom.update {k : Nat} {vm vm' : Vmm} (h : FreeFrom k vm.pmm) (h1 : 1 ≤ k)
    (hk : k < vm.pmm.bitmapSz) (hu : Vmm.Update vm vm') :
    FreeFrom (k + 1) vm'.pmm ∧ vm'.pmm.bitmapSz = vm.pmm.bitmapSz := by
  have hweak : FreeFrom (k + 1) vm.pmm := fun j hj hlt => h j (by omega) hlt
  cases hu with
  | none => exact ⟨hweak, rfl⟩
  | entry _ _ _ => exact ⟨hweak, rfl⟩
  | newTable _ hf => exact ⟨h.set h1 hk hf, rfl⟩
  | @dropTable d i _ _ =>
    refine ⟨fun j hj hlt => ?_, rfl⟩
    rw [← Bool.not_eq_true, Vmm.dropTable_taken]
    rintro ⟨_, ht⟩
    rw [hweak j hj hlt] at ht
    cases ht

theorem FreeFrom.page {k : Nat} {s : Heap} {A : PageMap} (hfree : FreeFrom k s.vm.pmm)
    (hv : VmOk s.vm A) (hb : heapStart + 4096 * s.blocksAllocked ≤ 0xFFC00000) (h1 : 1 ≤ k)
    (hk : k + 2 ≤ s.vm.pmm.bitmapSz) :
    GetsFrames 1 s ∧ ∀ s', s.mapHeapPage = .ok s' → (∃ A', VmOk s'.vm A') ∧
      s'.blocksAllocked = s.blocksAllocked + 1 ∧ FreeFrom (k + 2) s'.vm.pmm ∧
      s'.vm.pmm.bitmapSz = s.vm.pmm.bitmapSz := by
  have hhas := hfree.hasFree h1 (by omega)
  obtain ⟨f, hf, halloc⟩ := Pmm.allocFirst_of_hasFree hhas
  have hfree1 := hfree.set h1 (by omega) hf
  have hf1 : GetsFrames 1 s := by
    refine ⟨hhas, fun _ => ?_, fun _ _ => trivial⟩
    rw [halloc]
    exact hfree1.hasFree (by omega) (by simp only; omega)
  refine ⟨hf1, fun s' hs' => ?_⟩
  rcases mapHeapPage_cases hv hb hf1 with ⟨v, _, hmap, hv1, _, _, g, hg, hu⟩ | ⟨_, hmap⟩
  · rw [hmap] at hs'
    cases hs'
    obtain ⟨hfv, hsv⟩ := (hfree.set h1 (by omega) hg).update (by omega) (by simp only; omega) hu
    exact ⟨⟨_, hv1⟩, rfl, hfv, hsv⟩
  · rw [hmap] at hs'
    cases hs'

/-- Two frames a page are enough. -/
theorem getsFrames_of_freeFrom : ∀ {n k : Nat} {s : Heap} {A : PageMap}, VmOk s.vm A →
    heapStart + 4096 * (s.blocksAllocked + n) ≤ 0xFFC00000 → FreeFrom k s.vm.pmm → 1 ≤ k →
    k + 2 * n < s.vm.pmm.bitmapSz → GetsFrames n s := by
  intro n
  induction n with
  | zero => intros; trivial
  | succ n ih =>
    intro k s A hv hb hfree h1 hk
    obtain ⟨hf, hpage⟩ := hfree.page hv (by omega) h1 (by omega)
    refine ⟨hf.1, hf.2.1, fun s' hs' => ?_⟩
    obtain ⟨⟨_, hv'⟩, hblocks, hfree', hsz⟩ := hpage s' hs'
    exact ih hv' (by omega) hfree' (by omega) (by omega)

/-- They are all that the loop takes. -/
theorem mapLoop_freeFrom : ∀ {n k : Nat} {s s' : Heap} {A : PageMap}, VmOk s.vm A →
    heapStart + 4096 * (s.blocksAllocked + n) ≤ 0xFFC00000 → FreeFrom k s.vm.pmm → 1 ≤ k →
    k + 2 * n < s.vm.pmm.bitmapSz → mapLoop n s = .ok s' →
    FreeFrom (k + 2 * n) s'.vm.pmm ∧ s'.vm.pmm.bitmapSz = s.vm.pmm.bitmapSz := by
  intro n
  induction n with
  | zero =>
    intro k s s' A _ _ hfree _ _ h
    cases h
    exact ⟨hfree, rfl⟩
  | succ n ih =>
    intro k s s' A hv hb hfree h1 hk h
    obtain ⟨s₁, hs₁, h⟩ := Machine.bind_eq_ok.mp h
    obtain ⟨⟨_, hv₁⟩, hblocks, hfree₁, hsz⟩ := (hfree.page hv (by omega) h1 (by omega)).2 s₁ hs₁
    obtain ⟨hfree', hsz'⟩ := ih hv₁ (by omega) hfree₁ (by omega) (by omega) h
    rw [show k + 2 * (n + 1) = k + 2 + 2 * n by omega]
    exact ⟨hfree', hsz'.trans hsz⟩

end Heap
end Frod
