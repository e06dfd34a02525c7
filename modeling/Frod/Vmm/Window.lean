import Frod.Vmm.Entry

/-!
# Frod.Vmm.Window

Accesses through a mapped page, and through the two special pages the last directory entry gives:
`dir_virtual`, which is the directory itself, and the window page of a directory entry, which is
that entry's table.

`PageTo s va f` says that the page at `va` translates to frame `f` and may be written. A store
through it changes frame `f` only, and keeps the translation as long as `f` is not one of the two
frames the walk itself reads (`PageTo.store`).
-/

namespace Frod
namespace Vmm

@[simp] theorem dir_phys (s : Vmm) (m : Phys) : dir { s with phys := m } = s.dir := rfl

theorem set_same (m : Phys) (f i : Nat) (w : Word) : m.set f i w f i = w := by simp [Phys.set]

theorem set_other_frame (m : Phys) {f f' : Nat} (h : f' ≠ f) (i i' : Nat) (w : Word) :
    m.set f i w f' i' = m f' i' := by simp [Phys.set, h]

theorem set_row (m : Phys) {f f' : Nat} (h : f' ≠ f) (i : Nat) (w : Word) : m.set f i w f' = m f' :=
  funext fun j => set_other_frame m h i j w

theorem set_other_index (m : Phys) (f f' : Nat) {i i' : Nat} (h : i' ≠ i) (w : Word) :
    m.set f i w f' i' = m f' i' := by simp [Phys.set, h]

theorem clear_same (m : Phys) (f : Nat) {i : Nat} (h : i < 1024) : m.clear f f i = 0#32 := by
  simp [Phys.clear, h]

theorem clear_other (m : Phys) {f f' : Nat} (h : f' ≠ f) (i : Nat) : m.clear f f' i = m f' i := by
  simp [Phys.clear, h]

/-- The page at `va` translates to frame `f`, writable at both levels. -/
structure PageTo (s : Vmm) (va f : Nat) : Prop where
  aligned : va % kb4 = 0
  pde : EntryFor (s.pde va) (frame (s.pde va))
  pte : EntryFor (s.pte va) f

/-- Addresses inside one page share their entries. -/
theorem pde_offset (s : Vmm) {va i : Nat} (ha : va % kb4 = 0) (hi : i < 1024) :
    s.pde (va + 4 * i) = s.pde va := by
  have : (va + 4 * i) / mb4 = va / mb4 := by unfold kb4 at ha; unfold mb4; omega
  rw [Vmm.pde, Vmm.pde, this]

theorem pte_offset (s : Vmm) {va i : Nat} (ha : va % kb4 = 0) (hi : i < 1024) :
    s.pte (va + 4 * i) = s.pte va := by
  have : (va + 4 * i) / kb4 = va / kb4 := by unfold kb4 at *; omega
  rw [Vmm.pte, Vmm.pte, pde_offset s ha hi, this]

theorem word_offset {va i : Nat} (ha : va % kb4 = 0) (hi : i < 1024) :
    (va + 4 * i) % kb4 / 4 = i := by
  unfold kb4 at *; omega

namespace PageTo

variable {s : Vmm} {va f i : Nat}

theorem walk_offset (h : PageTo s va f) (hi : i < 1024) : s.walk (va + 4 * i) = some f := by
  rw [Vmm.walk, pde_offset s h.aligned hi, pte_offset s h.aligned hi, h.pde.present, h.pte.present,
    h.pte.frame]
  rfl

theorem load (h : PageTo s va f) (hi : i < 1024) : s.load (va + 4 * i) = .ok (s.phys f i) := by
  rw [Vmm.load, h.walk_offset hi, word_offset h.aligned hi]

theorem store (h : PageTo s va f) (hi : i < 1024) (w : Word) :
    s.store (va + 4 * i) w = .ok { s with phys := s.phys.set f i w } := by
  rw [Vmm.store, h.walk_offset hi, word_offset h.aligned hi, pde_offset s h.aligned hi,
    pte_offset s h.aligned hi, h.pde.writable, h.pte.writable]
  rfl

/-- The translation only depends on the directory and on the table. -/
theorem congr (h : PageTo s va f) {m : Phys} (hd : m s.dir = s.phys s.dir)
    (ht : m (frame (s.pde va)) = s.phys (frame (s.pde va))) : PageTo { s with phys := m } va f := by
  have hpde : Vmm.pde { s with phys := m } va = s.pde va := by
    simp only [Vmm.pde, dir_phys, hd]
  have hpte : Vmm.pte { s with phys := m } va = s.pte va := by
    rw [Vmm.pte, hpde]
    show m (frame (s.pde va)) (va / kb4 % 1024) = s.pte va
    rw [ht, Vmm.pte]
  exact ⟨h.aligned, by rw [hpde]; exact h.pde, by rw [hpte]; exact h.pte⟩

/-- A change of frame `f` alone keeps the page where it is, if the walk does not read `f`. -/
theorem congr_frame (h : PageTo s va f) (h1 : f ≠ s.dir) (h2 : f ≠ frame (s.pde va)) {m : Phys}
    (hm : ∀ f', f' ≠ f → m f' = s.phys f') : PageTo { s with phys := m } va f :=
  h.congr (hm _ h1.symm) (hm _ h2.symm)

/-- Clearing words `i`, `i + 1`, … through a page that keeps its translation while the words below
`c` of its frame change. -/
theorem memsetLoop {c : Nat} (hc : c < 1024)
    (hkeep : ∀ m : Phys, (∀ f' j, ¬ (f' = f ∧ j < c) → m f' j = s.phys f' j) →
      PageTo { s with phys := m } va f) : ∀ (n i : Nat) (m : Phys),
    (∀ f' j, ¬ (f' = f ∧ j < i) → m f' j = s.phys f' j) → i + n ≤ c + 1 →
    Vmm.memsetLoop n { s with phys := m } (va + 4 * i) =
      .ok { s with phys := fun f' j => if f' = f ∧ i ≤ j ∧ j < i + n then 0#32 else m f' j } := by
  intro n
  induction n with
  | zero =>
    intro i m _ _
    have : ∀ f' j, ¬ (f' = f ∧ i ≤ j ∧ j < i + 0) := by intro f' j h; omega
    simp only [Vmm.memsetLoop, this, if_false]
  | succ n ih =>
    intro i m hm hle
    have hP : PageTo { s with phys := m } va f :=
      hkeep m fun f' j hj => hm f' j fun h => hj ⟨h.1, by omega⟩
    have hm' : ∀ f' j, ¬ (f' = f ∧ j < i + 1) → m.set f i 0#32 f' j = s.phys f' j := by
      intro f' j hj
      rw [Phys.set, if_neg (fun h => hj ⟨h.1, by omega⟩)]
      exact hm f' j fun h => hj ⟨h.1, by omega⟩
    rw [Vmm.memsetLoop, hP.store (by omega)]
    show Vmm.memsetLoop n { s with phys := m.set f i 0#32 } (va + 4 * i + 4) = _
    rw [show va + 4 * i + 4 = va + 4 * (i + 1) by omega, ih (i + 1) _ hm' (by omega)]
    congr 2
    funext f' j
    simp only [Phys.set]
    by_cases hf : f' = f
    · by_cases hj : j = i
      · subst hj; simp [hf]
      · have : (i + 1 ≤ j ∧ j < i + 1 + n) ↔ (i ≤ j ∧ j < i + (n + 1)) := by omega
        simp only [hf, hj, this, true_and, and_false, if_false]
    · simp [hf]

theorem memset (h : PageTo s va f) (h1 : f ≠ s.dir) (h2 : f ≠ frame (s.pde va)) (hva : va ≠ 0) :
    s.memset va = .ok { s with phys := s.phys.clear f } := by
  rw [Vmm.memset, if_neg hva]
  have hkeep : ∀ m : Phys, (∀ f' j, ¬ (f' = f ∧ j < 1023) → m f' j = s.phys f' j) →
      PageTo { s with phys := m } va f := fun m hm =>
    h.congr_frame h1 h2 fun f' hf' => funext fun j => hm f' j fun hc => hf' hc.1
  have := memsetLoop (by omega) hkeep 1024 0 s.phys (fun _ _ _ => rfl) (by omega)
  simp only [Nat.mul_zero, Nat.add_zero] at this
  rw [show ({ s with phys := s.phys } : Vmm) = s from rfl] at this
  rw [this]
  congr 2
  funext f' j
  simp [Phys.clear]

end PageTo

/-! ## The recursive entry -/

/-- The last entry of the loaded directory points back to the directory. -/
def SelfMap (s : Vmm) : Prop := EntryFor (s.phys s.dir 1023) s.dir

theorem SelfMap.congr {s : Vmm} (h : SelfMap s) {m : Phys}
    (hd : m s.dir 1023 = s.phys s.dir 1023) : SelfMap { s with phys := m } := by
  show EntryFor (m s.dir 1023) s.dir
  rw [hd]
  exact h

theorem pde_window (s : Vmm) {d : Nat} (hd : d < 1024) :
    s.pde (ptableVirtual d) = s.phys s.dir 1023 := by
  have : ptableVirtual d / mb4 = 1023 := by unfold ptableVirtual kb4 mb4; omega
  rw [Vmm.pde, this]

theorem pte_window {s : Vmm} (h : SelfMap s) {d : Nat} (hd : d < 1024) :
    s.pte (ptableVirtual d) = s.phys s.dir d := by
  have : ptableVirtual d / kb4 % 1024 = d := by unfold ptableVirtual kb4; omega
  rw [Vmm.pte, pde_window s hd, h.frame, this]

/-- The window page of a directory entry is the frame of that entry's table. -/
theorem pageTo_window {s : Vmm} (h : SelfMap s) {d f : Nat} (hd : d < 1024)
    (he : EntryFor (s.phys s.dir d) f) : PageTo s (ptableVirtual d) f := by
  refine ⟨by unfold ptableVirtual kb4; omega, ?_, by rw [pte_window h hd]; exact he⟩
  rw [pde_window s hd, h.frame]
  exact h

theorem frame_pde_window {s : Vmm} (h : SelfMap s) {d : Nat} (hd : d < 1024) :
    frame (s.pde (ptableVirtual d)) = s.dir := by
  rw [pde_window s hd, h.frame]

/-- `dir_virtual` is the window page of the recursive entry itself. -/
theorem pageTo_dirVirtual {s : Vmm} (h : SelfMap s) : PageTo s dirVirtual s.dir :=
  pageTo_window (d := 1023) h (by omega) h

end Vmm
end Frod
