import Frod.Heap.Backed
import Frod.Kernel.Stack

/-!
# Frod.Kernel.Leak

Frames that are taken for a page which is mapped already.

`move_stack` and `cpu_common_main` take a frame before they know whether the page needs one, and do not
look at what `vmm_map_page` returns. Each of their steps takes one frame, and one more when it creates a
page table, so a step keeps the accounts exactly if its page was not mapped before (`Stepped`).
-/

namespace Frod
namespace Kernel

open Pmm (HasFree FirstFree blkSz)
open Vmm (HasTable Refines PageMap AclOk x86PageWritable x86PageUser)
open Heap (freeBlocks countP_strike)

/-- The number of frames that are taken. -/
def takenBlocks (p : Pmm) : Nat := (List.range p.bitmapSz).countP p.isTaken

/-- The pages below the window that are mapped after and not before, and the page tables that are
there after and not before. -/
def newPages (vm vm' : Vmm) : Nat :=
  (List.range (1023 * 1024)).countP fun p => (vm.walk (p * kb4)).isNone && (vm'.walk (p * kb4)).isSome

def newTables (vm vm' : Vmm) : Nat :=
  (List.range 1023).countP fun d =>
    !Vmm.present (vm.phys vm.dir d) && Vmm.present (vm'.phys vm'.dir d)

/-- Every frame that was taken is mapped, or is a page table. -/
def Kept (vm vm' : Vmm) : Prop :=
  takenBlocks vm'.pmm = takenBlocks vm.pmm + newPages vm vm' + newTables vm vm'

/-! ## One page -/

/-- What `mapNew` does with frames left. -/
structure Stepped (vm vm' : Vmm) (va : Nat) : Prop where
  refines : ∃ A, Refines vm' A
  taken : takenBlocks vm'.pmm = takenBlocks vm.pmm + 1 +
    if Vmm.present (vm.phys vm.dir (va / mb4)) then 0 else 1
  free : freeBlocks vm'.pmm + 1 + (if Vmm.present (vm.phys vm.dir (va / mb4)) then 0 else 1) =
    freeBlocks vm.pmm
  tables : ∀ d, HasTable vm' d ↔ HasTable vm d ∨ d = va / mb4
  pages : ∀ va', va' < 0xFFC00000 → (vm'.walk va' = none ↔ vm.walk va' = none ∧ va' / kb4 ≠ va / kb4)

theorem takenBlocks_set {p : Pmm} {k : Nat} (hk : FirstFree p k) :
    takenBlocks { p with bitmap := p.bitmap.set k } = takenBlocks p + 1 := by
  have hset := Pmm.isTaken_set p k
  refine countP_strike hk.clear (if_pos ((hset k).mpr (.inl rfl))) (fun b _ hb => ?_)
    List.nodup_range (List.mem_range.mpr hk.lt)
  rw [Bool.eq_iff_iff, hset]
  exact ⟨.inr, fun h => h.resolve_left hb⟩

section Step

variable {vm : Vmm} {A : PageMap} {va : Nat} {acl : Word} (h : Refines vm A) (hva : va < 0xFFC00000)
  (hacl : AclOk acl) (hfree : HasFree vm.pmm)
  (htable : ¬ HasTable vm (va / mb4) → HasFree vm.pmm.allocFirst.2)
include h hva hacl hfree htable

theorem mapNew_stepped : ∃ vm', mapNew acl vm va = .ok vm' ∧ Stepped vm vm' va := by
  obtain ⟨k, hk, halloc⟩ := Pmm.allocFirst_of_hasFree hfree
  have hk20 : k < 2 ^ 20 := Nat.lt_of_lt_of_le hk.lt h.inv.sz_le
  have hk32 : k * blkSz < 2 ^ 32 := by unfold blkSz; omega
  rw [Nat.mod_eq_of_lt hk32] at halloc
  rw [halloc] at htable
  have hR : Refines { vm with pmm := { vm.pmm with bitmap := vm.pmm.bitmap.set k } } A :=
    Heap.Refines.congr_pmm h rfl fun b hb => (Pmm.isTaken_set ..).mpr (.inr hb)
  have htaken := takenBlocks_set hk
  have hcount := Heap.freeBlocks_set hk
  by_cases hw : vm.walk va = none
  · have hA : A (va / kb4) = none := by rw [← h.walk hva, hw]
    have hpre : Vmm.Pre { vm with pmm := { vm.pmm with bitmap := vm.pmm.bitmap.set k } }
        (.mapPage (k * blkSz) va acl) :=
      ⟨hva, by unfold blkSz kb4; omega, hk32, hacl, htable⟩
    obtain ⟨vm', hmap, hR'⟩ := Vmm.mapPage_refines hR hpre
    rw [Vmm.spec, if_pos hA] at hR'
    dsimp only at hR'
    obtain ⟨htakes, htables⟩ := Vmm.vmmMapPage_takes hR.inv hva hacl hw htable hmap
    have hpages : ∀ va', va' < 0xFFC00000 →
        (vm'.walk va' = none ↔ vm.walk va' = none ∧ va' / kb4 ≠ va / kb4) := by
      intro va' hva'
      rw [hR'.walk hva', h.walk hva', Function.update_apply]
      split
      · simp [*]
      · simp [*]
    rcases htakes with ⟨ht, hp⟩ | ⟨ht, g, hg, hp⟩
    · have hyes : Vmm.present (vm.phys vm.dir (va / mb4)) = true := ht
      refine ⟨vm', mapNew_of_map halloc hmap, ⟨_, hR'⟩, ?_, ?_, htables, hpages⟩
      · rw [hp, htaken, hyes]
        rfl
      · rw [hp, hyes]
        exact hcount
    · have hno : Vmm.present (vm.phys vm.dir (va / mb4)) = false := Bool.eq_false_iff.mpr ht
      refine ⟨vm', mapNew_of_map halloc hmap, ⟨_, hR'⟩, ?_, ?_, htables, hpages⟩
      · rw [hp, takenBlocks_set hg, htaken, hno]
        rfl
      · rw [hp, hno, ← hcount, ← Heap.freeBlocks_set hg]
        rfl
  · obtain ⟨f, hf⟩ := Option.ne_none_iff_exists'.mp hw
    have ht : Vmm.present (vm.phys vm.dir (va / mb4)) = true := Vmm.hasTable_of_walk hf
    refine ⟨_, mapNew_of_map halloc (Vmm.vmmMapPage_mapped hR.inv.self hva _ hw), ⟨A, hR⟩, ?_, ?_,
      fun d => ⟨.inl, ?_⟩, fun va' hva' => ⟨fun hnone => ⟨hnone, fun heq => hw ?_⟩, And.left⟩⟩
    · rw [if_pos ht]
      exact htaken
    · rw [if_pos ht]
      exact hcount
    · rintro (hd | rfl)
      · exact hd
      · exact ht
    · rw [h.walk hva, ← heq, ← h.walk hva']
      exact hnone

end Step

/-! ## Counting -/

section Count

variable {vm vm₁ vm' : Vmm} {va : Nat} (h : Stepped vm vm₁ va) (hva : va < 0xFFC00000)
include h hva

theorem Stepped.newTables_eq (hkeep : ∀ d, HasTable vm₁ d → HasTable vm' d) :
    newTables vm vm' =
      newTables vm₁ vm' + if Vmm.present (vm.phys vm.dir (va / mb4)) then 0 else 1 := by
  have hsame : Vmm.present (vm₁.phys vm₁.dir (va / mb4)) = true := (h.tables _).mpr (.inr rfl)
  have hother : ∀ d, d ≠ va / mb4 →
      Vmm.present (vm₁.phys vm₁.dir d) = Vmm.present (vm.phys vm.dir d) := by
    intro d hd
    rw [Bool.eq_iff_iff]
    exact (h.tables d).trans ⟨fun hd' => hd'.resolve_right hd, .inl⟩
  have hafter : Vmm.present (vm'.phys vm'.dir (va / mb4)) = true := hkeep _ hsame
  refine countP_strike (k := va / mb4) ?_ ?_ (fun d _ hd => ?_) List.nodup_range
    (List.mem_range.mpr (Vmm.diri_lt hva))
  · simp [hsame]
  · rw [hafter]
    cases Vmm.present (vm.phys vm.dir (va / mb4)) with
    | true => rfl
    | false => rfl
  · rw [hother d hd]

theorem Stepped.newPages_eq
    (hkeep : ∀ va', va' < 0xFFC00000 → vm₁.walk va' ≠ none → vm'.walk va' ≠ none) :
    newPages vm vm' = newPages vm₁ vm' + if vm.walk va = none then 1 else 0 := by
  have hbelow : ∀ p ∈ List.range (1023 * 1024), p * kb4 < 0xFFC00000 := by
    intro p hp
    have hlt := List.mem_range.mp hp
    unfold kb4
    omega
  have hdiv : ∀ p, p * kb4 / kb4 = p := fun p => Nat.mul_div_cancel p (by decide)
  have hother : ∀ p ∈ List.range (1023 * 1024), p ≠ va / kb4 →
      (vm₁.walk (p * kb4)).isNone = (vm.walk (p * kb4)).isNone := by
    intro p hp hne
    have hpage := h.pages _ (hbelow p hp)
    rw [hdiv] at hpage
    rw [Bool.eq_iff_iff, Option.isNone_iff_eq_none, Option.isNone_iff_eq_none, hpage]
    exact ⟨And.left, fun hnone => ⟨hnone, hne⟩⟩
  have hsame : vm₁.walk (va / kb4 * kb4) ≠ none := by
    intro hnone
    refine ((h.pages _ ?_).mp hnone).2 (hdiv _)
    unfold kb4
    omega
  have hin : va / kb4 ∈ List.range (1023 * 1024) := by
    rw [List.mem_range]
    unfold kb4
    omega
  have hafter := hkeep _ (hbelow _ hin) hsame
  refine countP_strike (k := va / kb4) ?_ ?_ (fun p hp hne => ?_) List.nodup_range hin
  · simp [hsame]
  · rw [Vmm.walk_pageStart vm, Option.isSome_iff_ne_none.mpr hafter, Bool.and_true]
    simp only [Option.isNone_iff_eq_none]
  · rw [hother p hp hne]

end Count

/-! ## Several pages -/

/-- Every `pmm_alloc_first` on the way through `l` finds a frame. -/
def GetsAll (acl : Word) : List Nat → Vmm → Prop
  | [], _ => True
  | va :: l, vm => HasFree vm.pmm ∧ (¬ HasTable vm (va / mb4) → HasFree vm.pmm.allocFirst.2) ∧
      ∀ vm', mapNew acl vm va = .ok vm' → GetsAll acl l vm'

/-- What mapping the pages at `l` does to the accounts. -/
structure Grown (vm vm' : Vmm) (l : List Nat) : Prop where
  taken : takenBlocks vm'.pmm = takenBlocks vm.pmm + l.length + newTables vm vm'
  pages_le : newPages vm vm' ≤ l.length
  pages_eq : newPages vm vm' = l.length ↔
    (l.map (· / kb4)).Nodup ∧ ∀ va ∈ l, vm.walk va = none
  keepsTables : ∀ d, HasTable vm d → HasTable vm' d
  keepsPages : ∀ va, va < 0xFFC00000 → vm.walk va ≠ none → vm'.walk va ≠ none

theorem Grown.refl (vm : Vmm) : Grown vm vm [] := by
  have hpages : newPages vm vm = 0 := by
    refine List.countP_eq_zero.mpr fun p _ => ?_
    cases vm.walk (p * kb4) <;> simp
  have htables : newTables vm vm = 0 := by
    refine List.countP_eq_zero.mpr fun d _ => ?_
    cases Vmm.present (vm.phys vm.dir d) <;> simp
  refine ⟨by rw [htables]; rfl, by rw [hpages]; rfl, ?_, fun d hd => hd, fun va _ hw => hw⟩
  simp [hpages]

theorem Stepped.grown {vm vm₁ vm' : Vmm} {va : Nat} {l : List Nat} (h : Stepped vm vm₁ va)
    (hva : va < 0xFFC00000) (hl : ∀ va ∈ l, va < 0xFFC00000) (hgrown : Grown vm₁ vm' l) :
    Grown vm vm' (va :: l) := by
  have htables := h.newTables_eq hva hgrown.keepsTables
  have hpages := h.newPages_eq hva hgrown.keepsPages
  have htaken := hgrown.taken
  have hstep := h.taken
  have hle := hgrown.pages_le
  refine ⟨?_, ?_, ?_, fun d hd => ?_, fun va' hva' hw => ?_⟩
  · rw [List.length_cons]
    omega
  · rw [List.length_cons]
    split at hpages <;> omega
  · have hrest : (newPages vm vm' = (va :: l).length) ↔
        vm.walk va = none ∧ newPages vm₁ vm' = l.length := by
      rw [List.length_cons, hpages]
      split
      · simp [*]
      · simp [*]
        omega
    rw [hrest, hgrown.pages_eq, List.map_cons, List.nodup_cons]
    constructor
    · rintro ⟨hw, hnodup, hnone⟩
      refine ⟨⟨fun hin => ?_, hnodup⟩, fun va' hva' => ?_⟩
      · obtain ⟨va', hva', heq⟩ := List.mem_map.mp hin
        exact ((h.pages va' (hl va' hva')).mp (hnone va' hva')).2 heq
      · rcases List.mem_cons.mp hva' with rfl | hva'
        · exact hw
        · exact ((h.pages va' (hl va' hva')).mp (hnone va' hva')).1
    · rintro ⟨⟨hnotin, hnodup⟩, hnone⟩
      refine ⟨hnone va List.mem_cons_self, hnodup, fun va' hva' => (h.pages va' (hl va' hva')).mpr ?_⟩
      exact ⟨hnone va' (List.mem_cons_of_mem va hva'),
        fun heq => hnotin (List.mem_map.mpr ⟨va', hva', heq⟩)⟩
  · exact hgrown.keepsTables d ((h.tables d).mpr (.inl hd))
  · exact hgrown.keepsPages va' hva' fun hnone => hw ((h.pages va' hva').mp hnone).1

theorem foldlM_grown {acl : Word} (hacl : AclOk acl) : ∀ {l : List Nat} {vm : Vmm} {A : PageMap},
    Refines vm A → (∀ va ∈ l, va < 0xFFC00000) → GetsAll acl l vm →
    ∃ vm', l.foldlM (mapNew acl) vm = .ok vm' ∧ Grown vm vm' l := by
  intro l
  induction l with
  | nil => intro vm A _ _ _; exact ⟨vm, rfl, Grown.refl vm⟩
  | cons va l ih =>
    intro vm A hR hl hgets
    have hva := hl va List.mem_cons_self
    obtain ⟨vm₁, hmap, hstep⟩ := mapNew_stepped hR hva hacl hgets.1 hgets.2.1
    obtain ⟨A₁, hR₁⟩ := hstep.refines
    have hl' : ∀ va' ∈ l, va' < 0xFFC00000 := fun va' hva' => hl va' (List.mem_cons_of_mem va hva')
    obtain ⟨vm', hloop, hgrown⟩ := ih hR₁ hl' (hgets.2.2 _ hmap)
    refine ⟨vm', ?_, hstep.grown hva hl' hgrown⟩
    rw [List.foldlM_cons, hmap]
    exact hloop

/-- No frame is lost exactly if the pages are different ones and none of them was mapped. -/
theorem Grown.kept_iff {vm vm' : Vmm} {l : List Nat} (h : Grown vm vm' l) :
    Kept vm vm' ↔ (l.map (· / kb4)).Nodup ∧ ∀ va ∈ l, vm.walk va = none := by
  have htaken := h.taken
  rw [← h.pages_eq, Kept]
  omega

/-! ## The two functions -/

/-- `move_stack` returns and has lost no frame. -/
def StackKept (s : Cpu) (newStack sz initEsp : Nat) : Prop :=
  ∃ s', moveStack s newStack sz initEsp = .ok s' ∧ Kept s.vm s'.vm

/-- `n` processors come through `cpu_common_main`, one after the other, and none of them loses a
frame. They share the page tables. -/
def MainsKept : Nat → Cpu → Prop
  | 0, _ => True
  | n + 1, s => ∃ s', cpuCommonMain s = .ok s' ∧ Kept s.vm s'.vm ∧ MainsKept n s'

section Functions

variable {s : Cpu} {A : PageMap} {newStack sz : Nat} (h : Refines s.vm A)
include h

theorem stackKept_iff (hwin : newStack < 0xFFC00000) (hsz : sz < 2 ^ 32)
    (hgets : GetsAll x86PageWritable (downTo 4096 (stackLimit newStack sz) newStack) s.vm)
    (initEsp : Nat) : StackKept s newStack sz initEsp ↔ Ends newStack sz ∧
      ∀ va ∈ downTo 4096 (stackLimit newStack sz) newStack, s.vm.walk va = none := by
  have hn : newStack < 2 ^ 32 := by omega
  have hlow : ∀ va ∈ downTo 4096 (stackLimit newStack sz) newStack, va < 0xFFC00000 := by
    intro va hva
    obtain ⟨_, t, ht⟩ := (mem_downTo (by decide)).mp hva
    omega
  -- pages that lie 4096 apart are different ones
  have hnodup : ((downTo 4096 (stackLimit newStack sz) newStack).map (· / kb4)).Nodup := by
    rw [List.Nodup, List.pairwise_map]
    refine (pairwise_downTo (by decide)).imp fun {va va'} hlt heq => ?_
    unfold kb4 at heq
    omega
  obtain ⟨vm', hmap, hgrown⟩ := foldlM_grown Vmm.aclOk_writable h hlow hgets
  have hkept := hgrown.kept_iff
  constructor
  · rintro ⟨s', hret, hk⟩
    obtain ⟨vm, hvm, hrest⟩ := Machine.bind_eq_ok.mp hret
    have hends := ends_of_mapStack hn hvm
    rw [mapStack_eq hends hn hsz, hmap] at hvm
    obtain rfl := Except.ok.inj hvm
    obtain ⟨m, _, hs'⟩ := Machine.bind_eq_ok.mp hrest
    obtain rfl := Except.ok.inj hs'
    exact ⟨hends, (hkept.mp hk).2⟩
  · rintro ⟨hends, hnone⟩
    rw [← mapStack_eq hends hn hsz] at hmap
    obtain ⟨s', hmove, rfl⟩ : ∃ s', moveStack s newStack sz initEsp = .ok s' ∧ s'.vm = vm' := by
      rw [moveStack, hmap, Machine.ok_bind]
      dsimp only
      rw [rewriteStack_eq hends hn hsz]
      exact ⟨_, rfl, rfl⟩
    exact ⟨s', hmove, hkept.mpr ⟨hnodup, hnone⟩⟩

omit h

theorem aclOk_user : AclOk (x86PageUser ||| x86PageWritable) := ⟨by decide, by decide⟩

/-- One processor: it loses its frame exactly if the page is mapped, and leaves it mapped. -/
theorem cpuCommonMain_kept (h : Refines s.vm A)
    (hgets : GetsAll (x86PageUser ||| x86PageWritable) [gb1] s.vm) :
    ∃ s', cpuCommonMain s = .ok s' ∧ (Kept s.vm s'.vm ↔ s.vm.walk gb1 = none) ∧
      mapNew (x86PageUser ||| x86PageWritable) s.vm gb1 = .ok s'.vm ∧
      Stepped s.vm s'.vm gb1 := by
  obtain ⟨vm', hmap, hstep⟩ := mapNew_stepped h (by decide) aclOk_user hgets.1 hgets.2.1
  have hgrown := hstep.grown (by decide) (fun _ hva => absurd hva List.not_mem_nil) (Grown.refl vm')
  refine ⟨_, by rw [cpuCommonMain, hmap]; rfl, ?_, hmap, hstep⟩
  rw [hgrown.kept_iff]
  simp

theorem mainsKept_iff : ∀ {n : Nat} {s : Cpu} {A : PageMap}, Refines s.vm A →
    GetsAll (x86PageUser ||| x86PageWritable) (List.replicate n gb1) s.vm →
    (MainsKept n s ↔ n = 0 ∨ n = 1 ∧ s.vm.walk gb1 = none) := by
  intro n
  induction n with
  | zero => intro s A _ _; exact iff_of_true trivial (.inl rfl)
  | succ n ih =>
    intro s A h hgets
    obtain ⟨s', hmain, hkept, hmap, hstep⟩ :=
      cpuCommonMain_kept h ⟨hgets.1, hgets.2.1, fun _ _ => trivial⟩
    obtain ⟨A', hR⟩ := hstep.refines
    have hrest := ih hR (hgets.2.2 _ hmap)
    have hmapped : s'.vm.walk gb1 ≠ none := fun hnone =>
      ((hstep.pages gb1 (by decide)).mp hnone).2 rfl
    constructor
    · rintro ⟨s₁, hret, hk, hmore⟩
      rw [hmain] at hret
      obtain rfl := Except.ok.inj hret
      rcases hrest.mp hmore with rfl | ⟨_, hnone⟩
      · exact .inr ⟨rfl, hkept.mp hk⟩
      · exact absurd hnone hmapped
    · rintro (hzero | ⟨hone, hnone⟩)
      · cases hzero
      · obtain rfl : n = 0 := by omega
        exact ⟨s', hmain, hkept.mpr hnone, trivial⟩

end Functions

/-- **Frames are kept** by `move_stack` exactly if it returns and none of the pages it maps was mapped
before, and by `n` processors in `cpu_common_main` exactly if there is at most one and it finds the page
unmapped. -/
theorem frames_kept_iff {s : Cpu} {A : PageMap} (h : Refines s.vm A) {newStack sz : Nat}
    (hwin : newStack < 0xFFC00000) (hsz : sz < 2 ^ 32)
    (hstack : GetsAll x86PageWritable (downTo 4096 (stackLimit newStack sz) newStack) s.vm)
    (initEsp : Nat) {n : Nat}
    (hcpus : GetsAll (x86PageUser ||| x86PageWritable) (List.replicate n gb1) s.vm) :
    (StackKept s newStack sz initEsp ↔ Ends newStack sz ∧
      ∀ va ∈ downTo 4096 (stackLimit newStack sz) newStack, s.vm.walk va = none) ∧
    (MainsKept n s ↔ n = 0 ∨ n = 1 ∧ s.vm.walk gb1 = none) :=
  ⟨stackKept_iff h hwin hsz hstack initEsp, mainsKept_iff h hcpus⟩

/-! ## The sample machine -/

/-- Two free frames for every page are enough. -/
theorem getsAll_of_freeBlocks {acl : Word} (hacl : AclOk acl) : ∀ {l : List Nat} {vm : Vmm}
    {A : PageMap}, Refines vm A → (∀ va ∈ l, va < 0xFFC00000) → 2 * l.length ≤ freeBlocks vm.pmm →
    GetsAll acl l vm := by
  intro l
  induction l with
  | nil => intro vm A _ _ _; trivial
  | cons va l ih =>
    intro vm A hR hl hcount
    rw [List.length_cons] at hcount
    have hfree : HasFree vm.pmm := Heap.hasFree_of_freeBlocks (by omega)
    have htable : HasFree vm.pmm.allocFirst.2 := by
      obtain ⟨k, hk, halloc⟩ := Pmm.allocFirst_of_hasFree hfree
      have hset := Heap.freeBlocks_set hk
      rw [halloc]
      refine Heap.hasFree_of_freeBlocks ?_
      simp only at hset ⊢
      omega
    refine ⟨hfree, fun _ => htable, fun vm' hmap => ?_⟩
    obtain ⟨v, hv, hstep⟩ := mapNew_stepped hR (hl va List.mem_cons_self) hacl hfree fun _ => htable
    rw [hmap] at hv
    obtain rfl := Except.ok.inj hv
    obtain ⟨A', hR'⟩ := hstep.refines
    have hleft := hstep.free
    refine ih hR' (fun va' hva' => hl va' (List.mem_cons_of_mem va hva')) ?_
    split at hleft <;> omega

theorem sampleVmm_refines : Refines Vmm.sampleVmm.vmmInit Vmm.initMap :=
  Vmm.vmmInit_refines (by decide) Vmm.sampleVmm_twoFree

theorem sampleVmm_getsAll {acl : Word} (hacl : AclOk acl) {l : List Nat} (hlen : l.length ≤ 3)
    (hl : ∀ va ∈ l, va < 0xFFC00000) : GetsAll acl l Vmm.sampleVmm.vmmInit := by
  obtain ⟨hfree, hsz⟩ := Heap.sampleHeap_freeFrom
  have hcount := Heap.le_freeBlocks hfree (by omega)
  rw [hsz, Heap.sampleHeap_vm] at hcount
  exact getsAll_of_freeBlocks hacl sampleVmm_refines hl (by omega)

/-- A stack at 8 MB, where nothing is mapped, and one processor. -/
theorem frames_kept_iff_sample :
    StackKept (oneWord fun _ => 0#8) 0x800000 kernelStackSz 0x110000 ∧
      MainsKept 1 (oneWord fun _ => 0#8) := by
  have hpages : downTo 4096 (stackLimit 0x800000 kernelStackSz) 0x800000 =
      [0x800000, 0x7FF000, 0x7FE000] := by decide
  have hnone : ∀ va, va < 0xFFC00000 → 1024 ≤ va / kb4 → Vmm.sampleVmm.vmmInit.walk va = none := by
    intro va hva hpage
    rw [sampleVmm_refines.walk hva, Vmm.initMap, if_neg (by omega)]
  have hgets : GetsAll x86PageWritable (downTo 4096 (stackLimit 0x800000 kernelStackSz) 0x800000)
      Vmm.sampleVmm.vmmInit := by
    rw [hpages]
    exact sampleVmm_getsAll Vmm.aclOk_writable (by decide) (by decide)
  have hgets' : GetsAll (x86PageUser ||| x86PageWritable) (List.replicate 1 gb1)
      Vmm.sampleVmm.vmmInit := sampleVmm_getsAll aclOk_user (by decide) (by decide)
  have hwin : 0x800000 < 0xFFC00000 := by decide
  have hsz : kernelStackSz < 2 ^ 32 := by decide
  obtain ⟨hstack, hmains⟩ := frames_kept_iff (s := oneWord fun _ => 0#8) sampleVmm_refines hwin hsz
    hgets 0x110000 hgets'
  refine ⟨hstack.mpr ⟨fun _ => by decide, ?_⟩, hmains.mpr (.inr ⟨rfl, hnone _ (by decide) (by decide)⟩)⟩
  rw [hpages]
  intro va hva
  simp only [List.mem_cons, List.not_mem_nil, or_false] at hva
  rcases hva with rfl | rfl | rfl
  · exact hnone _ (by decide) (by decide)
  · exact hnone _ (by decide) (by decide)
  · exact hnone _ (by decide) (by decide)

/-- The call of `kmain`: two of the three pages are mapped since `vmm_init`. With two processors the
second one finds the page of the first. -/
theorem not_frames_kept_kmain :
    ¬ StackKept (oneWord fun _ => 0#8) kernelStackTop kernelStackSz 0x110000 ∧
      ¬ MainsKept 2 (oneWord fun _ => 0#8) := by
  have hpages : downTo 4096 (stackLimit kernelStackTop kernelStackSz) kernelStackTop =
      [0x400000, 0x3FF000, 0x3FE000] := by decide
  have hgets : GetsAll x86PageWritable
      (downTo 4096 (stackLimit kernelStackTop kernelStackSz) kernelStackTop) Vmm.sampleVmm.vmmInit := by
    rw [hpages]
    exact sampleVmm_getsAll Vmm.aclOk_writable (by decide) (by decide)
  have hgets' : GetsAll (x86PageUser ||| x86PageWritable) (List.replicate 2 gb1)
      Vmm.sampleVmm.vmmInit := sampleVmm_getsAll aclOk_user (by decide) (by decide)
  have hwin : kernelStackTop < 0xFFC00000 := by decide
  have hsz : kernelStackSz < 2 ^ 32 := by decide
  constructor
  · rw [stackKept_iff (s := oneWord fun _ => 0#8) sampleVmm_refines hwin hsz hgets, hpages]
    rintro ⟨_, hnone⟩
    have hmapped := hnone 0x3FF000 (by decide)
    rw [oneWord, sampleVmm_refines.walk (by decide)] at hmapped
    exact absurd hmapped (by decide)
  · rw [mainsKept_iff (s := oneWord fun _ => 0#8) sampleVmm_refines hgets']
    simp

end Kernel
end Frod
