import Frod.Heap.Run
import Frod.Vmm.Fail

/-!
# Frod.Heap.Backed

What stands behind the pages of a new heap region.

`heap_get_new_block` takes a frame for each of its pages, and `vmm_map_page` one for each table that
is missing; neither looks at what `pmm_alloc_first` returned. With as many free frames as pages and
missing tables, every page gets a frame of its own. With fewer, the loop goes on with frame 0 and
returns as if nothing had happened: `heapGetNewBlock_backed_iff`.
-/

namespace Frod
namespace Heap

open Vmm (Refines PageMap HasTable Usable)
open Pmm (HasFree FirstFree blkSz)

/-! ## Counting frames -/

/-- Striking one element off a predicate lowers its count by one, if it had the element. -/
theorem countP_strike {p q : Nat → Bool} {k c : Nat} (hq : q k = false)
    (hp : (if p k then 1 else 0) = c) : ∀ {l : List Nat}, (∀ x ∈ l, x ≠ k → q x = p x) →
    l.Nodup → k ∈ l → l.countP p = l.countP q + c := by
  intro l
  induction l with
  | nil => intro _ _ hk; cases hk
  | cons a l ih =>
    intro h hnd hk
    rw [List.nodup_cons] at hnd
    rw [List.countP_cons, List.countP_cons]
    rcases List.mem_cons.mp hk with rfl | hk
    · have hrest : l.countP q = l.countP p := by
        refine List.countP_congr fun x hx => ?_
        rw [h x (List.mem_cons_of_mem _ hx) fun he => hnd.1 (he ▸ hx)]
      rw [hrest, hq, hp]
      rfl
    · have hne : a ≠ k := fun he => hnd.1 (he ▸ hk)
      have := ih (fun x hx => h x (List.mem_cons_of_mem a hx)) hnd.2 hk
      rw [h a List.mem_cons_self hne]
      omega

/-- The number of blocks `pmm_alloc_first` can still hand out. -/
def freeBlocks (p : Pmm) : Nat :=
  (List.range p.bitmapSz).countP fun b => decide (1 ≤ b) && !p.isTaken b

theorem hasFree_of_freeBlocks {p : Pmm} (h : 0 < freeBlocks p) : HasFree p := by
  obtain ⟨b, hb, hfree⟩ := List.countP_pos_iff.mp h
  simp only [Bool.and_eq_true, decide_eq_true_eq, Bool.not_eq_true'] at hfree
  exact ⟨b, hfree.1, List.mem_range.mp hb, hfree.2⟩

theorem freeBlocks_set {p : Pmm} {k : Nat} (hk : FirstFree p k) :
    freeBlocks { p with bitmap := p.bitmap.set k } + 1 = freeBlocks p := by
  have hset := Pmm.isTaken_set p k
  refine (countP_strike (k := k) ?_ ?_ (fun b _ hb => ?_) List.nodup_range
    (List.mem_range.mpr hk.lt)).symm
  · simp [(hset k).mpr (.inl rfl)]
  · simp [hk.pos, hk.clear]
  · have : Pmm.isTaken { p with bitmap := p.bitmap.set k } b = p.isTaken b := by
      rw [Bool.eq_iff_iff, hset]
      exact ⟨fun h => h.resolve_left hb, .inr⟩
    rw [this]

/-- The number of directory entries without a table among those of the `n` pages from `va` on. -/
def missingTables (vm : Vmm) (va n : Nat) : Nat :=
  (List.range 1023).countP fun d =>
    !Vmm.present (vm.phys vm.dir d) && (List.range n).any fun j => (va + 4096 * j) / mb4 == d

theorem missingTables_le (vm : Vmm) (va n : Nat) : missingTables vm va n ≤ 1023 := by
  have hlen : (List.range 1023).length = 1023 := List.length_range
  exact hlen ▸ List.countP_le_length

theorem any_page_succ (va n d : Nat) :
    ((List.range (n + 1)).any fun j => (va + 4096 * j) / mb4 == d) =
      (va / mb4 == d || (List.range n).any fun j => (va + 4096 + 4096 * j) / mb4 == d) := by
  rw [List.range_succ_eq_map, List.any_cons, List.any_map]
  congr 1
  refine List.any_congr rfl fun j => ?_
  rw [Function.comp_apply, show va + 4096 * (j + 1) = va + 4096 + 4096 * j by omega]

/-- The first page needs no table, or it needs one which is then there for the others. -/
theorem missingTables_succ {vm v : Vmm} {va : Nat} (hva : va / mb4 < 1023)
    (hv : ∀ d, HasTable v d ↔ HasTable vm d ∨ d = va / mb4) (n : Nat) :
    missingTables vm va (n + 1) =
      missingTables v (va + 4096) n + if Vmm.present (vm.phys vm.dir (va / mb4)) then 0 else 1 := by
  have hother : ∀ d, d ≠ va / mb4 →
      Vmm.present (v.phys v.dir d) = Vmm.present (vm.phys vm.dir d) := by
    intro d hd
    rw [Bool.eq_iff_iff]
    exact (hv d).trans ⟨fun h => h.resolve_right hd, .inl⟩
  have hsame : Vmm.present (v.phys v.dir (va / mb4)) = true := (hv _).mpr (.inr rfl)
  unfold missingTables
  simp only [any_page_succ]
  refine countP_strike (k := va / mb4) ?_ ?_ (fun d _ hd => ?_) List.nodup_range
    (List.mem_range.mpr hva)
  · simp [hsame]
  · cases Vmm.present (vm.phys vm.dir (va / mb4)) with
    | true => rfl
    | false => simp
  · rw [hother d hd, beq_false_of_ne (Ne.symm hd), Bool.false_or]

/-! ## One page -/

/-- What mapping a page of region `d` to frame `k` takes from the allocator. -/
structure Took (vm v : Vmm) (k d : Nat) : Prop where
  sz : v.pmm.bitmapSz = vm.pmm.bitmapSz
  taken : ∀ b, vm.pmm.isTaken b = true → v.pmm.isTaken b = true
  new : v.pmm.isTaken k = true
  count : freeBlocks v.pmm + 1 + (if Vmm.present (vm.phys vm.dir d) then 0 else 1) =
    freeBlocks vm.pmm
  tables : ∀ d', HasTable v d' ↔ HasTable vm d' ∨ d' = d

theorem vmmMapPage_took {vm v : Vmm} {A : PageMap} (hR : Refines vm A) {k va : Nat}
    (hk : FirstFree vm.pmm k) (hA : A (va / kb4) = none)
    (hpre : Vmm.Pre { vm with pmm := { vm.pmm with bitmap := vm.pmm.bitmap.set k } }
      (.mapPage (k * blkSz) va Vmm.x86PageWritable))
    (hmap : Vmm.vmmMapPage { vm with pmm := { vm.pmm with bitmap := vm.pmm.bitmap.set k } }
      (k * blkSz) va Vmm.x86PageWritable = .ok (Vmm.vmmSuccess, v)) : Took vm v k (va / mb4) := by
  have hR1 : Refines { vm with pmm := { vm.pmm with bitmap := vm.pmm.bitmap.set k } } A :=
    Refines.congr_pmm hR rfl fun b hb => (Pmm.isTaken_set ..).mpr (.inr hb)
  have hcount := freeBlocks_set hk
  obtain ⟨hva, _, _, hacl, hfree⟩ := hpre
  have hun : vm.walk va = none := by rw [hR.walk hva, hA]
  obtain ⟨htook, htables⟩ := Vmm.vmmMapPage_takes hR1.inv hva hacl hun hfree hmap
  rcases htook with ⟨ht, hp⟩ | ⟨ht, g, hg, hp⟩
  · refine ⟨by rw [hp], fun b hb => ?_, ?_, ?_, htables⟩
    · rw [hp]
      exact (Pmm.isTaken_set ..).mpr (.inr hb)
    · rw [hp]
      exact (Pmm.isTaken_set ..).mpr (.inl rfl)
    · have hyes : Vmm.present (vm.phys vm.dir (va / mb4)) = true := ht
      rw [hyes, hp]
      exact hcount
  · have hcount2 := freeBlocks_set hg
    refine ⟨by rw [hp], fun b hb => ?_, ?_, ?_, htables⟩
    · rw [hp]
      exact (Pmm.isTaken_set _ g b).mpr (.inr ((Pmm.isTaken_set ..).mpr (.inr hb)))
    · rw [hp]
      exact (Pmm.isTaken_set _ g k).mpr (.inr ((Pmm.isTaken_set ..).mpr (.inl rfl)))
    · have hno : Vmm.present (vm.phys vm.dir (va / mb4)) = false := Bool.eq_false_iff.mpr ht
      rw [hno, hp, ← hcount, ← hcount2]
      rfl

/-! ## The loop, with enough frames -/

/-- The `j`th of the next pages of the heap. -/
def heapPage (s : Heap) (j : Nat) : Nat := (s.nextPage + 4096 * j) % 2 ^ 32

theorem nextPage_mod (s : Heap) : s.nextPage % 4096 = 0 := by
  unfold nextPage heapStart procVmmEnd procVmmStart mb256
  omega

theorem nextPage_succ {s : Heap} (v : Vmm) (hlt : s.nextPage + 4096 < 2 ^ 32) :
    nextPage { s with vm := v, blocksAllocked := (s.blocksAllocked + 1) % 2 ^ 32 } =
      s.nextPage + 4096 := by
  unfold nextPage at hlt ⊢
  simp only
  omega

/-- The first `n` pages of the translation `tr` have frames of their own that were free in `p`. -/
structure Backed (p : Pmm) (tr : Nat → Option Nat) (n : Nat) (F : Nat → Nat) : Prop where
  maps : ∀ j, j < n → tr j = some (F j)
  free : ∀ j, j < n → 1 ≤ F j ∧ F j < p.bitmapSz ∧ p.isTaken (F j) = false
  inj : ∀ i j, i < n → j < n → F i = F j → i = j

/-- One page in front of others that were backed after its frame had been taken. -/
theorem Backed.cons {vm v : Vmm} {tr : Nat → Option Nat} {n k d : Nat} {F : Nat → Nat}
    (h : Backed v.pmm (fun j => tr (j + 1)) n F) (hk : FirstFree vm.pmm k) (ht : Took vm v k d)
    (h0 : tr 0 = some k) : Backed vm.pmm tr (n + 1) (Nat.rec k fun j _ => F j) := by
  have hne : ∀ j, j < n → F j ≠ k := by
    intro j hj he
    have hfree := (h.free j hj).2.2
    rw [he, ht.new] at hfree
    cases hfree
  refine ⟨fun j hj => ?_, fun j hj => ?_, fun i j hi hj he => ?_⟩
  · cases j with
    | zero => exact h0
    | succ j => exact h.maps j (by omega)
  · cases j with
    | zero => exact ⟨hk.pos, hk.lt, hk.clear⟩
    | succ j =>
      obtain ⟨h1, h2, h3⟩ := h.free j (by omega)
      refine ⟨h1, ht.sz ▸ h2, ?_⟩
      rw [← Bool.not_eq_true]
      intro htaken
      rw [ht.taken _ htaken] at h3
      cases h3
  · cases i with
    | zero =>
      cases j with
      | zero => rfl
      | succ j => exact absurd he.symm (hne j (by omega))
    | succ i =>
      cases j with
      | zero => exact absurd he (hne i (by omega))
      | succ j => rw [h.inj i j (by omega) (by omega) he]

/-- The count leaves the first page the two frames it may need. -/
theorem getsFrames_of_count {s : Heap} {n : Nat} (hlt : s.nextPage < 0xFFC00000)
    (h : n + 1 + missingTables s.vm s.nextPage (n + 1) ≤ freeBlocks s.vm.pmm) : GetsFrames 1 s := by
  have hhas : HasFree s.vm.pmm := hasFree_of_freeBlocks (by omega)
  obtain ⟨k, hk, halloc⟩ := Pmm.allocFirst_of_hasFree hhas
  refine ⟨hhas, fun ht => ?_, fun _ _ => trivial⟩
  rw [halloc]
  refine hasFree_of_freeBlocks ?_
  have hset := freeBlocks_set hk
  have hmiss : 0 < missingTables s.vm s.nextPage (n + 1) := by
    refine List.countP_pos_iff.mpr ⟨s.nextPage / mb4, List.mem_range.mpr (Vmm.diri_lt hlt), ?_⟩
    rw [any_page_succ]
    simpa [HasTable] using ht
  simp only at hset ⊢
  omega

/-- With a frame for every page and every missing table, every iteration gets its frames, and the loop
gives each page a free frame of its own and leaves the pages before alone. -/
theorem mapLoop_backed : ∀ {n : Nat} {s : Heap} {A : PageMap}, VmOk s.vm A →
    s.nextPage + 4096 * n ≤ 0xFFC00000 → (∀ j, j < n → A (s.nextPage / kb4 + j) = none) →
    n + missingTables s.vm s.nextPage n ≤ freeBlocks s.vm.pmm →
    GetsFrames n s ∧ ∃ s' A' F, mapLoop n s = .ok s' ∧ VmOk s'.vm A' ∧ (∀ p, p < s.nextPage / kb4 → A' p = A p) ∧
      Backed s.vm.pmm (fun j => A' (s.nextPage / kb4 + j)) n F := by
  intro n
  induction n with
  | zero =>
    intro s A hv _ _ _
    refine ⟨trivial, s, A, fun _ => 0, rfl, hv, fun _ _ => rfl, ?_, ?_, ?_⟩
    · intro j hj; omega
    · intro j hj; omega
    · intro i j hi; omega
  | succ n ih =>
    intro s A hv hb hA hcount
    have hlt : s.nextPage < 0xFFC00000 := by omega
    have hd := Vmm.diri_lt hlt
    have hmod := nextPage_mod s
    have hA0 : A (s.nextPage / kb4) = none := hA 0 (by omega)
    have hf := getsFrames_of_count hlt hcount
    obtain ⟨v, k, hk, hpre, hmap, hret, hv1⟩ := mapHeapPage_maps hv hlt hA0 hf
    have htook := vmmMapPage_took hv.refines hk hA0 hpre hmap
    have hcount1 := htook.count
    have hmiss := missingTables_succ hd htook.tables n
    have hpage := nextPage_succ (s := s) v (by omega)
    have hidx : (s.nextPage + 4096) / kb4 = s.nextPage / kb4 + 1 := by unfold kb4; omega
    obtain ⟨hframes, s', A', F, hloop, hv', hsame, hback⟩ :=
      ih (s := { s with vm := v, blocksAllocked := (s.blocksAllocked + 1) % 2 ^ 32 }) hv1
        (by rw [hpage]; omega)
        (fun j hj => by
          rw [hpage, hidx, Function.update_of_ne (by omega)]
          have := hA (j + 1) (by omega)
          rwa [show s.nextPage / kb4 + 1 + j = s.nextPage / kb4 + (j + 1) by omega])
        (by rw [hpage]; simp only; omega)
    rw [hpage, hidx] at hsame hback
    have hshift : (fun j => A' (s.nextPage / kb4 + 1 + j)) =
        fun j => A' (s.nextPage / kb4 + (j + 1)) := by
      funext j
      rw [show s.nextPage / kb4 + 1 + j = s.nextPage / kb4 + (j + 1) by omega]
    have hfirst : A' (s.nextPage / kb4 + 0) = some k := by
      rw [Nat.add_zero, hsame _ (by omega), Function.update_self]
    rw [hshift] at hback
    have hcons := @Backed.cons _ _ (fun j => A' (s.nextPage / kb4 + j)) _ _ _ _ hback hk htook hfirst
    refine ⟨⟨hf.1, hf.2.1, fun s₁ hs₁ => ?_⟩, s', A', _, ?_, hv', fun p hp => ?_, hcons⟩
    · rw [hret] at hs₁
      obtain rfl := Except.ok.inj hs₁
      exact hframes
    · rw [mapLoop, hret]
      exact hloop
    · rw [hsame p (by omega), Function.update_of_ne (by omega)]

/-! ## The loop, with or without frames -/

/-- The loop always returns: nothing in it notices that there are no frames left. -/
theorem mapLoop_total : ∀ {n : Nat} {s : Heap}, Usable s.vm → n ≤ 1024 →
    s.nextPage + 4096 * n ≤ 0xFFC00000 →
    (∀ j, j < n → s.vm.walk (s.nextPage + 4096 * j) = none) → ∃ s', mapLoop n s = .ok s' := by
  intro n
  induction n with
  | zero => intro s _ _ _ _; exact ⟨s, rfl⟩
  | succ n ih =>
    intro s hu hn hb hun
    have hmod := nextPage_mod s
    have hva : s.nextPage < 0xFFC00000 := by omega
    obtain ⟨v, hmap, hv, hkeep⟩ := hu.allocFirst.vmmMapPage hva
      (hun 0 (by omega)) s.vm.pmm.allocFirst.1
    have hret : s.mapHeapPage =
        .ok { s with vm := v, blocksAllocked := (s.blocksAllocked + 1) % 2 ^ 32 } := by
      rw [mapHeapPage_of_map rfl hmap]
      rfl
    have hpage := nextPage_succ (s := s) v (by omega)
    obtain ⟨s', hloop⟩ :=
      ih (s := { s with vm := v, blocksAllocked := (s.blocksAllocked + 1) % 2 ^ 32 }) hv (by omega)
        (by rw [hpage]; omega)
        (fun j hj => by
          rw [hpage, show s.nextPage + 4096 + 4096 * j = s.nextPage + 4096 * (j + 1) by omega]
          -- at most 1024 pages, so the indices differ
          refine hkeep _ (by omega) ?_ (hun (j + 1) (by omega))
          unfold kb4
          omega)
    refine ⟨s', ?_⟩
    rw [mapLoop, hret]
    exact hloop

/-! ## `heap_get_new_block` -/

/-- The next pages of the heap are not mapped. -/
def Unmapped (s : Heap) : Prop := ∀ j, j < heapBlocks → s.vm.walk (s.heapPage j) = none

/-- There is a free frame for every new page and for every page table that is missing. -/
def Enough (s : Heap) : Prop :=
  heapBlocks + missingTables s.vm s.nextPage heapBlocks ≤ freeBlocks s.vm.pmm

def Panics (s : Heap) (prev : Nat) : Prop := ∃ msg, s.heapGetNewBlock prev = .error (.panic msg)

/-- The call panics or maps the next pages to free frames of their own, and it does panic when there
are too few frames. -/
def BackedOrPanics (s : Heap) (prev : Nat) : Prop :=
  (Panics s prev ∨ ∃ ret s' F, s.heapGetNewBlock prev = .ok (ret, s') ∧
    Backed s.vm.pmm (fun j => s'.vm.walk (s.heapPage j)) heapBlocks F) ∧
  (¬ Enough s → Panics s prev)

section NewBlock

variable {s : Heap} {A : PageMap} (hv : VmOk s.vm A) (hun : Unmapped s)
include hv hun

/-- Unmapped pages lie below the window: its first page shows the table of the first 4 MB and its
last one the directory. -/
theorem Unmapped.below : s.nextPage + 4096 * heapBlocks ≤ 0xFFC00000 := by
  have hself := hv.refines.inv.self
  have h0 := hv.hasTable_zero
  unfold HasTable at h0
  have hmod := nextPage_mod s
  have hlt : s.nextPage < 2 ^ 32 := Nat.mod_lt _ (by omega)
  have hmapped : ∀ d, d < 1024 → Vmm.present (s.vm.phys s.vm.dir d) = true →
      s.vm.walk (Vmm.ptableVirtual d) ≠ none := by
    intro d hd hp
    rw [Vmm.walk, Vmm.pde_window _ hd, Vmm.pte_window hself hd, hself.present, hp]
    simp
  have hout : ∀ d, d < 1024 → Vmm.present (s.vm.phys s.vm.dir d) = true →
      ¬ (s.nextPage ≤ Vmm.ptableVirtual d ∧ Vmm.ptableVirtual d < s.nextPage + 4096 * heapBlocks) := by
    rintro d hd hp ⟨h1, h2⟩
    refine hmapped d hd hp ?_
    unfold Vmm.ptableVirtual kb4 at *
    unfold heapBlocks at h2
    have hj := hun ((0xFFC00000 + d * 4096 - s.nextPage) / 4096) (by unfold heapBlocks; omega)
    rw [heapPage] at hj
    rwa [show (s.nextPage + 4096 * ((0xFFC00000 + d * 4096 - s.nextPage) / 4096)) % 2 ^ 32 =
      0xFFC00000 + d * 4096 by omega] at hj
  have hfirst := hout 0 (by omega) h0
  have hlast := hout 1023 (by omega) hself.present
  unfold Vmm.ptableVirtual kb4 heapBlocks at *
  omega

theorem Unmapped.heapPage_eq {j : Nat} (hj : j < heapBlocks) :
    s.heapPage j = s.nextPage + 4096 * j := by
  have := Unmapped.below hv hun
  unfold heapPage heapBlocks at *
  omega

theorem heapGetNewBlock_backed (hen : Enough s) (prev : Nat) :
    GetsFrames heapBlocks s ∧ ∃ ret s' F, s.heapGetNewBlock prev = .ok (ret, s') ∧
      Backed s.vm.pmm (fun j => s'.vm.walk (s.heapPage j)) heapBlocks F := by
  have hbelow := Unmapped.below hv hun
  have hmod := nextPage_mod s
  have hidx : ∀ j, (s.nextPage + 4096 * j) / kb4 = s.nextPage / kb4 + j := by
    intro j; unfold kb4; omega
  have hA : ∀ j, j < heapBlocks → A (s.nextPage / kb4 + j) = none := by
    intro j hj
    rw [← hidx, ← hv.refines.walk (by unfold heapBlocks at *; omega), ← hun.heapPage_eq hv hj]
    exact hun j hj
  obtain ⟨hframes, s', A', F, hloop, hv', _, hback⟩ := mapLoop_backed hv hbelow hA hen
  refine ⟨hframes, _, _, F, by rw [heapGetNewBlock, hloop]; rfl, fun j hj => ?_, hback.free, hback.inj⟩
  have hpage := hun.heapPage_eq hv hj
  show s'.vm.walk (s.heapPage j) = some (F j)
  rw [hpage, hv'.refines.walk (by unfold heapBlocks at *; omega), hidx]
  exact hback.maps j hj

theorem heapGetNewBlock_total (hdir : s.vm.dir ≠ 0) (prev : Nat) : ¬ Panics s prev := by
  have hbelow := Unmapped.below hv hun
  obtain ⟨s', hloop⟩ := mapLoop_total (hv.refines.inv.usable hdir) (show heapBlocks ≤ 1024 by decide)
    hbelow fun j hj => by rw [← hun.heapPage_eq hv hj]; exact hun j hj
  rintro ⟨msg, hpanic⟩
  rw [heapGetNewBlock, hloop] at hpanic
  cases hpanic

/-- **When heap growth is backed.** Over page tables as the kernel keeps them and with the next pages
unmapped, `heap_get_new_block` is backed by free frames or panics exactly when there are frames for
all its pages and the missing tables. -/
theorem heapGetNewBlock_backed_iff (hdir : s.vm.dir ≠ 0) (prev : Nat) :
    BackedOrPanics s prev ↔ Enough s := by
  constructor
  · rintro ⟨_, hpanic⟩
    by_contra hen
    exact heapGetNewBlock_total hv hun hdir prev (hpanic hen)
  · intro hen
    exact ⟨.inr (heapGetNewBlock_backed hv hun hen prev).2, fun hno => absurd hen hno⟩

end NewBlock

/-! ## Two machines -/

theorem le_countP_range {p : Nat → Bool} {k : Nat} : ∀ {n : Nat},
    (∀ j, k ≤ j → j < n → p j = true) → n - k ≤ (List.range n).countP p := by
  intro n
  induction n with
  | zero => intro _; omega
  | succ n ih =>
    intro h
    have hn := ih fun j h1 h2 => h j h1 (by omega)
    rw [List.range_succ, List.countP_append, List.countP_singleton]
    by_cases hk : k ≤ n
    · rw [h n hk (by omega), if_pos rfl]
      omega
    · omega

theorem le_freeBlocks {p : Pmm} {k : Nat} (h : FreeFrom k p) (hk : 1 ≤ k) :
    p.bitmapSz - k ≤ freeBlocks p := by
  refine le_countP_range fun j h1 h2 => ?_
  simp only [h j h1 h2, Bool.not_false, Bool.and_true, decide_eq_true_eq]
  omega

theorem unmapped_init {s : Heap} (h0 : s.blocksAllocked = 0)
    (hR : Refines s.vm Vmm.initMap) : Unmapped s := by
  intro j hj
  have hpage : s.heapPage j = heapStart + 4096 * j := by
    unfold heapBlocks at hj
    unfold heapPage nextPage heapStart procVmmEnd procVmmStart mb256
    omega
  unfold heapBlocks at hj
  unfold heapStart procVmmEnd procVmmStart mb256 at hpage
  rw [hR.walk (by omega), Vmm.initMap, if_neg (by unfold kb4; omega)]

/-- With 16 MB the first region is backed. -/
theorem heapGetNewBlock_backed_sample : BackedOrPanics sampleHeap 0 := by
  have hun : Unmapped sampleHeap := unmapped_init rfl sampleHeap_vmOk.refines
  have hdir : sampleHeap.vm.dir ≠ 0 := by
    rw [sampleHeap_vm]
    exact Vmm.vmmInit_dir_ne_zero (by decide) Vmm.sampleVmm_twoFree
  refine (heapGetNewBlock_backed_iff sampleHeap_vmOk hun hdir 0).mpr ?_
  obtain ⟨hfree, hsz⟩ := sampleHeap_freeFrom
  have hcount := le_freeBlocks hfree (by omega)
  have hmiss := missingTables_le sampleHeap.vm sampleHeap.nextPage heapBlocks
  have hblocks : heapBlocks = 1024 := rfl
  rw [hsz] at hcount
  unfold Enough
  omega

/-- A machine with 4 MB after `vmm_init`. -/
def smallHeap : Heap :=
  { vm := Vmm.smallVmm.vmmInit, mem := fun _ => 0#8, kernHeap := 0, blocksAllocked := 0 }

/-- Without a single free frame `heap_get_new_block` returns a region. -/
theorem heapGetNewBlock_noFrame :
    freeBlocks smallHeap.vm.pmm = 0 ∧ Unmapped smallHeap ∧ ¬ BackedOrPanics smallHeap 0 := by
  have hvm : smallHeap.vm = Vmm.smallVmm.vmmInit := rfl
  obtain ⟨_, _, hfull⟩ := Vmm.smallVmm_full
  have hR : Refines smallHeap.vm Vmm.initMap := by
    rw [hvm]
    exact Vmm.vmmInit_refines (by decide) Vmm.smallVmm_twoFree
  have hv : VmOk smallHeap.vm Vmm.initMap := ⟨hR, 0, by omega, by decide⟩
  have hun : Unmapped smallHeap := unmapped_init rfl hR
  have hdir : smallHeap.vm.dir ≠ 0 := by
    rw [hvm]
    exact Vmm.vmmInit_dir_ne_zero (by decide) Vmm.smallVmm_twoFree
  have hnone : freeBlocks smallHeap.vm.pmm = 0 := by
    rw [hvm]
    by_contra hc
    exact hfull (hasFree_of_freeBlocks (Nat.pos_of_ne_zero hc))
  refine ⟨hnone, hun, fun hback => heapGetNewBlock_total hv hun hdir 0 (hback.2 fun hen => ?_)⟩
  have hblocks : heapBlocks = 1024 := rfl
  unfold Enough at hen
  omega

end Heap
end Frod
