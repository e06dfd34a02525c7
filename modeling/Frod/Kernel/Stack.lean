import Frod.Kernel.Model
import Frod.Str.Move
import Frod.Vmm.Fail

/-!
# Frod.Kernel.Stack

`move_stack` as a relocation.

The copy takes the bytes between `esp` and `init_esp` to below `new_stack`, and the loop after it moves
every pointer into the old stack that it finds. The loop goes over other words than the copy: it begins
with the word at `new_stack`, which is above the copy, and goes on to `new_stack - sz`, below it. It also
leaves a pointer to the top of the old stack, `old_stack` itself, alone. `moveStack_relocates_iff` says
when none of this matters.
-/

namespace Frod
namespace Kernel

open Bytes (rd wr)
open Vmm (Usable x86PageWritable)

/-! ## The rewrite loop -/

section Rewrite

variable {oldStack initEsp offset : Nat}

/-- The words at `l` are rewritten from `m` to `m'`, and nothing else. -/
structure Rewritten (oldStack initEsp offset : Nat) (m m' : Mem) (l : List Nat) : Prop where
  word : ∀ i ∈ l, oldStack < rd m i 4 → rd m i 4 < initEsp → rd m' i 4 = (rd m i 4 + offset) % 2 ^ 32
  byte : ∀ x, (∀ i ∈ l, i ≤ x → x < i + 4 → ¬ (oldStack < rd m i 4 ∧ rd m i 4 < initEsp)) → m' x = m x

theorem rewriteWord_other {m : Mem} {i x : Nat} (hi : i + 4 ≤ 2 ^ 32)
    (hx : i ≤ x → x < i + 4 → ¬ (oldStack < rd m i 4 ∧ rd m i 4 < initEsp)) :
    rewriteWord oldStack initEsp offset m i x = m x := by
  rw [rewriteWord]
  split
  · rename_i hin
    refine Bytes.wr_other _ _ hi ?_
    by_contra hc
    exact hx (by omega) (by omega) hin
  · rfl

/-- The loop over words that do not overlap, from the top down. -/
theorem foldl_rewriteWord : ∀ {l : List Nat} {m : Mem}, (∀ i ∈ l, i + 4 ≤ 2 ^ 32) →
    l.Pairwise (fun i j => j + 4 ≤ i) →
    Rewritten oldStack initEsp offset m (l.foldl (rewriteWord oldStack initEsp offset) m) l := by
  intro l
  induction l with
  | nil => intro m _ _; exact ⟨fun i hi => absurd hi List.not_mem_nil, fun x _ => rfl⟩
  | cons i l ih =>
    intro m hl hp
    obtain ⟨hbelow, hp⟩ := List.pairwise_cons.mp hp
    have hi := hl i List.mem_cons_self
    have hrest := ih (m := rewriteWord oldStack initEsp offset m i)
      (fun j hj => hl j (List.mem_cons_of_mem i hj)) hp
    have hread : ∀ j ∈ l, rd (rewriteWord oldStack initEsp offset m i) j 4 = rd m j 4 := by
      intro j hj
      have hji := hbelow j hj
      refine Bytes.rd_congr (by omega) fun x _ hx => rewriteWord_other hi ?_
      omega
    rw [List.foldl_cons]
    constructor
    · intro j hj h1 h2
      rcases List.mem_cons.mp hj with rfl | hj
      · -- nothing below it is written to later
        have hkeep : rd (l.foldl (rewriteWord oldStack initEsp offset)
            (rewriteWord oldStack initEsp offset m j)) j 4 =
            rd (rewriteWord oldStack initEsp offset m j) j 4 := by
          refine Bytes.rd_congr hi fun x hx _ => hrest.byte x fun j' hj' _ _ => ?_
          have hjj := hbelow j' hj'
          omega
        rw [hkeep, rewriteWord, if_pos ⟨h1, h2⟩, Bytes.rd_wr_same _ _ hi]
        exact Nat.mod_mod _ _
      · have hword := hrest.word j hj
        rw [hread j hj] at hword
        exact hword h1 h2
    · intro x hx
      have hlater : ∀ j ∈ l, j ≤ x → x < j + 4 →
          ¬ (oldStack < rd (rewriteWord oldStack initEsp offset m i) j 4 ∧
            rd (rewriteWord oldStack initEsp offset m i) j 4 < initEsp) := by
        intro j hj
        rw [hread j hj]
        exact hx j (List.mem_cons_of_mem i hj)
      rw [hrest.byte x hlater]
      exact rewriteWord_other hi (hx i List.mem_cons_self)

end Rewrite

/-! ## The loops end -/

section Loops

variable {newStack sz : Nat}

theorem stackLimit_of_le (h : sz ≤ newStack) (hn : newStack < 2 ^ 32) :
    stackLimit newStack sz = newStack - sz := by
  unfold stackLimit
  omega

/-- A stack larger than the address of its top: both loops do nothing. -/
theorem lt_stackLimit (h : newStack < sz) (hsz : sz < 2 ^ 32) : newStack < stackLimit newStack sz := by
  unfold stackLimit
  omega

/-- The loops end exactly if the lowest page that counting down from `new_stack` can reach is below the
new stack. -/
def Ends (newStack sz : Nat) : Prop := sz ≤ newStack → newStack % 4096 < newStack - sz

theorem Ends.limit (h : Ends newStack sz) (hn : newStack < 2 ^ 32) (hsz : sz < 2 ^ 32) :
    stackLimit newStack sz ≤ newStack → newStack % 4096 < stackLimit newStack sz := by
  intro hle
  by_cases hcase : sz ≤ newStack
  · rw [stackLimit_of_le hcase hn]
    exact h hcase
  · have hlt := lt_stackLimit (Nat.not_le.mp hcase) hsz
    omega

theorem rewriteStack_eq (h : Ends newStack sz) (hn : newStack < 2 ^ 32) (hsz : sz < 2 ^ 32) (m : Mem)
    (oldStack initEsp offset : Nat) : rewriteStack m newStack sz oldStack initEsp offset =
      .ok ((downTo 4 (stackLimit newStack sz) newStack).foldl
        (rewriteWord oldStack initEsp offset) m) := by
  have hlimit := h.limit hn hsz
  rw [rewriteStack, countdown_eq (by decide) _ hn (by omega) (by omega)]
  exact List.foldlM_pure

/-- Taking a frame and mapping a page returns in every state with a recursive directory entry. -/
theorem mapNew_total {vm : Vmm} (h : Usable vm) {va : Nat} (hva : va < 0xFFC00000) :
    ∃ vm', mapNew x86PageWritable vm va = .ok vm' ∧ Usable vm' := by
  by_cases hw : vm.walk va = none
  · obtain ⟨v, hmap, hv, _⟩ := h.allocFirst.vmmMapPage hva hw vm.pmm.allocFirst.1
    exact ⟨v, mapNew_of_map rfl hmap, hv⟩
  · exact ⟨_, mapNew_of_map rfl (Vmm.vmmMapPage_mapped h.allocFirst.self hva _ hw), h.allocFirst⟩

theorem foldlM_mapNew : ∀ {l : List Nat} {vm : Vmm}, Usable vm → (∀ va ∈ l, va < 0xFFC00000) →
    ∃ vm', l.foldlM (mapNew x86PageWritable) vm = .ok vm' := by
  intro l
  induction l with
  | nil => intro vm _ _; exact ⟨vm, rfl⟩
  | cons va l ih =>
    intro vm h hl
    obtain ⟨v, hmap, hv⟩ := mapNew_total h (hl va List.mem_cons_self)
    obtain ⟨vm', hloop⟩ := ih hv fun va' hva' => hl va' (List.mem_cons_of_mem va hva')
    refine ⟨vm', ?_⟩
    rw [List.foldlM_cons, hmap]
    exact hloop

theorem mapStack_eq (h : Ends newStack sz) (hn : newStack < 2 ^ 32) (hsz : sz < 2 ^ 32) (vm : Vmm) :
    mapStack vm newStack sz =
      (downTo 4096 (stackLimit newStack sz) newStack).foldlM (mapNew x86PageWritable) vm :=
  countdown_eq (by decide) _ hn (by omega) (h.limit hn hsz)

theorem ends_of_mapStack (hn : newStack < 2 ^ 32) {vm vm' : Vmm}
    (hret : mapStack vm newStack sz = .ok vm') : Ends newStack sz := by
  intro hle
  by_contra hstuck
  refine countdown_stuck (by decide) (by decide) _ ?_ hret
  rw [stackLimit_of_le hle hn]
  omega

theorem mapStack_returns_iff {vm : Vmm} (h : Usable vm) (hn : newStack < 0xFFC00000)
    (hsz : sz < 2 ^ 32) : (∃ vm', mapStack vm newStack sz = .ok vm') ↔ Ends newStack sz := by
  have hn32 : newStack < 2 ^ 32 := by omega
  constructor
  · rintro ⟨vm', hret⟩
    exact ends_of_mapStack hn32 hret
  · intro hends
    rw [mapStack_eq hends hn32 hsz]
    refine foldlM_mapNew h fun va hva => ?_
    obtain ⟨_, t, ht⟩ := (mem_downTo (by decide)).mp hva
    omega

end Loops

/-! ## Relocation -/

/-- `new_stack - init_esp`. -/
def offset (newStack initEsp : Nat) : Nat := (newStack + 2 ^ 32 - initEsp) % 2 ^ 32

/-- The stack of `s` is found again in `s'`, pointers into it moved along, and nothing else has
changed. -/
structure Relocated (s s' : Cpu) (newStack initEsp : Nat) : Prop where
  words : ∀ a, s.esp ≤ a → a < initEsp → a % 4 = 0 →
    rd s'.mem ((a + offset newStack initEsp) % 2 ^ 32) 4 =
      if s.esp ≤ rd s.mem a 4 ∧ rd s.mem a 4 < initEsp then
        (rd s.mem a 4 + offset newStack initEsp) % 2 ^ 32
      else rd s.mem a 4
  others : ∀ x, (∀ a, s.esp ≤ a → a < initEsp → x ≠ (a + offset newStack initEsp) % 2 ^ 32) →
    s'.mem x = s.mem x
  esp : s'.esp = (s.esp + offset newStack initEsp) % 2 ^ 32
  ebp : s'.ebp = (s.ebp + offset newStack initEsp) % 2 ^ 32

def Relocates (s : Cpu) (newStack sz initEsp : Nat) : Prop :=
  ∃ s', moveStack s newStack sz initEsp = .ok s' ∧ Relocated s s' newStack initEsp

/-- The old stack is a range of words that fits into the new one, and the two places are disjoint. None
of them begins at `NULL` or reaches into the window of the page tables. -/
structure Apart (s : Cpu) (newStack sz initEsp : Nat) : Prop where
  le : s.esp ≤ initEsp
  lt : initEsp < 2 ^ 32
  aligned : s.esp % 4 = 0 ∧ initEsp % 4 = 0
  fits : initEsp - s.esp ≤ sz
  sz_lt : sz < 2 ^ 32
  window : newStack < 0xFFC00000
  pos : 0 < s.esp
  room : initEsp - s.esp < newStack
  disjoint : newStack ≤ s.esp ∨ initEsp ≤ newStack - (initEsp - s.esp)

/-- No pointer to the top of the stack is on the stack, and none of the words that the loop looks at
beyond the copy could be taken for a pointer into the stack. When the loops do nothing there must be no
pointer at all. -/
def Spared (s : Cpu) (newStack sz initEsp : Nat) : Prop :=
  if sz ≤ newStack then
    newStack % 4096 < newStack - sz ∧
    (∀ a, s.esp ≤ a → a < initEsp → a % 4 = 0 → rd s.mem a 4 ≠ s.esp) ∧
    ∀ i, newStack - sz ≤ i → i ≤ newStack → (newStack - i) % 4 = 0 →
      i = newStack ∨ i < newStack - (initEsp - s.esp) →
      ¬ (s.esp < rd s.mem i 4 ∧ rd s.mem i 4 < initEsp)
  else ∀ a, s.esp ≤ a → a < initEsp → a % 4 = 0 → ¬ (s.esp ≤ rd s.mem a 4 ∧ rd s.mem a 4 < initEsp)

section Relocate

variable {s : Cpu} {newStack sz initEsp : Nat} (h : Apart s newStack sz initEsp)
include h

theorem Apart.dest {a : Nat} (ha : s.esp ≤ a) (ha' : a ≤ initEsp) :
    (a + offset newStack initEsp) % 2 ^ 32 = newStack - (initEsp - a) := by
  obtain ⟨_, hlt, _, _, _, hwin, _, hroom, _⟩ := h
  unfold offset
  omega

/-- Memory after the copy. -/
def copied (s : Cpu) (newStack initEsp : Nat) : Mem :=
  Ram.memcpy s.mem (newStack - (initEsp - s.esp)) s.esp (initEsp - s.esp)

theorem Apart.memcpy_copied : Str.Copied s.mem (copied s newStack initEsp)
    (newStack - (initEsp - s.esp)) s.esp (initEsp - s.esp) := by
  obtain ⟨_, hlt, _, _, _, hwin, hpos, hroom, _⟩ := h
  exact Str.memcpy_copied (by omega) (by omega) (by omega) (by omega)

theorem Apart.copied_word {a : Nat} (ha : s.esp ≤ a) (ha' : a < initEsp) (h4 : a % 4 = 0) :
    rd (copied s newStack initEsp) (newStack - (initEsp - a)) 4 = rd s.mem a 4 := by
  have hcopy := h.memcpy_copied
  obtain ⟨hle, hlt, haligned, _, _, hwin, hpos, hroom, hdis⟩ := h
  refine Bytes.rd_eq_of_bytes fun k hk => ?_
  -- the copy does not read what it has written
  have hdist : a - s.esp + k < Str.dist s.esp (newStack - (initEsp - s.esp)) := by
    unfold Str.dist
    omega
  have hbyte := hcopy.copied (a - s.esp + k) (by omega)
  rw [Nat.mod_eq_of_lt hdist] at hbyte
  rw [show newStack - (initEsp - a) + k = newStack - (initEsp - s.esp) + (a - s.esp + k) by omega,
    hbyte, show s.esp + (a - s.esp + k) = a + k by omega]

theorem Apart.copied_other {x : Nat} (hx : x < newStack - (initEsp - s.esp) ∨ newStack ≤ x) :
    copied s newStack initEsp x = s.mem x := by
  have hcopy := h.memcpy_copied
  obtain ⟨_, hlt, _, _, _, hwin, _, hroom, _⟩ := h
  exact hcopy.outside x fun j hj => by omega

/-- What no byte of the old stack goes to is outside of the copy. -/
theorem Apart.outside {x : Nat}
    (hx : ∀ a, s.esp ≤ a → a < initEsp → x ≠ (a + offset newStack initEsp) % 2 ^ 32) :
    x < newStack - (initEsp - s.esp) ∨ newStack ≤ x := by
  have hroom := h.room
  by_contra hc
  refine hx (x - (newStack - (initEsp - s.esp)) + s.esp) (by omega) (by omega) ?_
  rw [h.dest (by omega) (by omega)]
  omega

/-- Memory after the loop. -/
def rewritten (s : Cpu) (newStack sz initEsp : Nat) : Mem :=
  (downTo 4 (stackLimit newStack sz) newStack).foldl
    (rewriteWord s.esp initEsp (offset newStack initEsp)) (copied s newStack initEsp)

/-- The processor after `move_stack`. -/
def moved (s : Cpu) (vm : Vmm) (newStack sz initEsp : Nat) : Cpu :=
  ⟨vm, rewritten s newStack sz initEsp, (s.esp + offset newStack initEsp) % 2 ^ 32,
    (s.ebp + offset newStack initEsp) % 2 ^ 32⟩

theorem Apart.moveStack_eq (hends : Ends newStack sz) {vm : Vmm}
    (hmap : mapStack s.vm newStack sz = .ok vm) :
    moveStack s newStack sz initEsp = .ok (moved s vm newStack sz initEsp) := by
  have hdest := h.dest (Nat.le_refl _) h.le
  have hnum : (initEsp + 2 ^ 32 - s.esp) % 2 ^ 32 = initEsp - s.esp := by
    have hle := h.le
    have hlt := h.lt
    omega
  have hn : newStack < 2 ^ 32 := Nat.lt_trans h.window (by decide)
  have hrewrite := rewriteStack_eq hends hn h.sz_lt (copied s newStack initEsp) s.esp initEsp
    (offset newStack initEsp)
  have hcopy : Ram.memcpy s.mem ((s.esp + offset newStack initEsp) % 2 ^ 32) s.esp
      ((initEsp + 2 ^ 32 - s.esp) % 2 ^ 32) = copied s newStack initEsp := by
    rw [hnum, hdest]
    rfl
  rw [moveStack, hmap, Machine.ok_bind]
  dsimp only
  rw [show (newStack + 2 ^ 32 - initEsp) % 2 ^ 32 = offset newStack initEsp from rfl, hcopy, hrewrite]
  rfl

/-- The words the loop goes over are those of the copy and those beyond it. -/
theorem Apart.slot {i : Nat} (hle : sz ≤ newStack) :
    i ∈ downTo 4 (stackLimit newStack sz) newStack ↔
      newStack - sz ≤ i ∧ i ≤ newStack ∧ (newStack - i) % 4 = 0 := by
  rw [mem_downTo (by decide), stackLimit_of_le hle (Nat.lt_trans h.window (by decide))]
  constructor
  · rintro ⟨hi, k, hk⟩
    omega
  · rintro ⟨hi, hi', h4⟩
    exact ⟨hi, (newStack - i) / 4, by omega⟩

theorem Apart.rewrites : Rewritten s.esp initEsp (offset newStack initEsp)
    (copied s newStack initEsp) (rewritten s newStack sz initEsp)
    (downTo 4 (stackLimit newStack sz) newStack) := by
  refine foldl_rewriteWord (fun i hi => ?_) (pairwise_downTo (by decide))
  have hwin := h.window
  obtain ⟨_, k, hk⟩ := (mem_downTo (by decide)).mp hi
  omega

/-- The offset is not 0 when there is a word to move. -/
theorem Apart.offset_ne {w : Nat} (hw : s.esp ≤ w) (hw' : w < initEsp) :
    (w + offset newStack initEsp) % 2 ^ 32 ≠ w := by
  obtain ⟨_, hlt, _, _, _, hwin, _, hroom, hdis⟩ := h
  unfold offset
  omega

theorem Apart.copied_beyond {i : Nat} (hi : i = newStack ∨ i + 4 ≤ newStack - (initEsp - s.esp)) :
    rd (copied s newStack initEsp) i 4 = rd s.mem i 4 := by
  have hwin := h.window
  refine Bytes.rd_congr (by omega) fun x _ _ => h.copied_other ?_
  omega

/-- With room for the new stack, every word of the copy is looked at. -/
theorem Apart.relocated_iff (hle : sz ≤ newStack) (vm : Vmm) :
    Relocated s (moved s vm newStack sz initEsp) newStack initEsp ↔
    (∀ a, s.esp ≤ a → a < initEsp → a % 4 = 0 → rd s.mem a 4 ≠ s.esp) ∧
    ∀ i, newStack - sz ≤ i → i ≤ newStack → (newStack - i) % 4 = 0 →
      i = newStack ∨ i < newStack - (initEsp - s.esp) →
      ¬ (s.esp < rd s.mem i 4 ∧ rd s.mem i 4 < initEsp) := by
  have hrew := h.rewrites
  have halign := h.aligned
  have hroom := h.room
  have hfits := h.fits
  have hwin := h.window
  have hsp := h.le
  unfold moved
  generalize rewritten s newStack sz initEsp = m at hrew ⊢
  -- a word that is not rewritten is as the copy left it
  have hkeep : ∀ i, i ≤ newStack → (newStack - i) % 4 = 0 →
      ¬ (s.esp < rd (copied s newStack initEsp) i 4 ∧ rd (copied s newStack initEsp) i 4 < initEsp) →
      rd m i 4 = rd (copied s newStack initEsp) i 4 := by
    intro i hi h4 hno
    refine Bytes.rd_congr (by omega) fun x hx hx' => hrew.byte x fun j hj hjx hjx' => ?_
    obtain ⟨_, hj', hj4⟩ := (h.slot hle).mp hj
    obtain rfl : j = i := by omega
    exact hno
  constructor
  · rintro ⟨hwords, hothers, _, _⟩
    refine ⟨fun a ha ha' h4 heq => ?_, fun i hi hi' h4 hout hin => ?_⟩
    · have hword := hwords a ha ha' h4
      have hcopy := h.copied_word ha ha' h4
      rw [h.dest ha ha'.le, heq, if_pos ⟨Nat.le_refl _, by omega⟩, hkeep _ (by omega) (by omega)
        (by rw [hcopy, heq]; omega), hcopy, heq] at hword
      exact h.offset_ne (Nat.le_refl _) (by omega) hword.symm
    · have hbeyond := h.copied_beyond (i := i) (by omega)
      have hword := hrew.word i ((h.slot hle).mpr ⟨hi, hi', h4⟩) (by omega) (by omega)
      have hsame : rd m i 4 = rd s.mem i 4 := by
        refine Bytes.rd_congr (by omega) fun x hx hx' => hothers x fun a ha ha' hxa => ?_
        rw [h.dest ha ha'.le] at hxa
        omega
      rw [hsame, hbeyond] at hword
      exact h.offset_ne hin.1.le hin.2 hword.symm
  · rintro ⟨htop, hbeyond⟩
    refine ⟨fun a ha ha' h4 => ?_, fun x hx => ?_, rfl, rfl⟩
    · have hcopy := h.copied_word ha ha' h4
      have hne := htop a ha ha' h4
      rw [h.dest ha ha'.le]
      dsimp only
      by_cases hin : s.esp ≤ rd s.mem a 4 ∧ rd s.mem a 4 < initEsp
      · rw [if_pos hin, hrew.word _ ((h.slot hle).mpr ⟨by omega, by omega, by omega⟩) (by omega)
          (by omega), hcopy]
      · rw [if_neg hin, hkeep _ (by omega) (by omega) (by rw [hcopy]; omega), hcopy]
    · have hout := h.outside hx
      rw [← h.copied_other hout]
      refine hrew.byte x fun i hi hix hix' => ?_
      obtain ⟨hi1, hi2, hi4⟩ := (h.slot hle).mp hi
      rw [h.copied_beyond (by omega)]
      exact hbeyond i hi1 hi2 hi4 (by omega)

/-- `move_stack` returns exactly when its loops end. -/
theorem Apart.relocates_iff (hu : Usable s.vm) : Relocates s newStack sz initEsp ↔
    Ends newStack sz ∧ ∀ vm, Relocated s (moved s vm newStack sz initEsp) newStack initEsp := by
  have hmap : (∃ vm, mapStack s.vm newStack sz = .ok vm) ↔ Ends newStack sz :=
    mapStack_returns_iff hu h.window h.sz_lt
  constructor
  · rintro ⟨s', hret, hrel⟩
    obtain ⟨vm, hvm, _⟩ := Machine.bind_eq_ok.mp hret
    have hends := hmap.mp ⟨vm, hvm⟩
    rw [h.moveStack_eq hends hvm] at hret
    obtain rfl := Except.ok.inj hret
    exact ⟨hends, fun _ => ⟨hrel.words, hrel.others, hrel.esp, hrel.ebp⟩⟩
  · rintro ⟨hends, hrel⟩
    obtain ⟨vm, hvm⟩ := hmap.mpr hends
    exact ⟨_, h.moveStack_eq hends hvm, hrel vm⟩

theorem Apart.relocates_of_le (hu : Usable s.vm) (hle : sz ≤ newStack) :
    Relocates s newStack sz initEsp ↔ Spared s newStack sz initEsp := by
  rw [h.relocates_iff hu, Spared, if_pos hle]
  constructor
  · rintro ⟨hends, hrel⟩
    exact ⟨hends hle, (h.relocated_iff hle s.vm).mp (hrel s.vm)⟩
  · rintro ⟨hlt, hspared⟩
    exact ⟨fun _ => hlt, fun vm => (h.relocated_iff hle vm).mpr hspared⟩

/-- A stack larger than the address of its top is copied and not looked at. -/
theorem Apart.relocates_of_lt (hu : Usable s.vm) (hlt : newStack < sz) :
    Relocates s newStack sz initEsp ↔ Spared s newStack sz initEsp := by
  have hends : Ends newStack sz := fun hle => absurd hle (Nat.not_le.mpr hlt)
  have hnone : rewritten s newStack sz initEsp = copied s newStack initEsp := by
    rw [rewritten, downTo_of_lt (lt_stackLimit hlt h.sz_lt)]
    rfl
  simp only [h.relocates_iff hu, Spared, if_neg (Nat.not_le.mpr hlt), moved, hnone]
  constructor
  · rintro ⟨_, hrel⟩ a ha ha' h4 hin
    have hword := (hrel s.vm).words a ha ha' h4
    rw [if_pos hin, h.dest ha ha'.le] at hword
    exact h.offset_ne hin.1 hin.2 (hword.symm.trans (h.copied_word ha ha' h4))
  · intro hno
    refine ⟨hends, fun vm => ⟨fun a ha ha' h4 => ?_,
      fun x hx => h.copied_other (h.outside hx), rfl, rfl⟩⟩
    rw [if_neg (hno a ha ha' h4), h.dest ha ha'.le]
    exact h.copied_word ha ha' h4

end Relocate

/-- **The stack is relocated** exactly when the words on it and around its new place spare the loop. -/
theorem moveStack_relocates_iff {s : Cpu} {newStack sz initEsp : Nat} (hu : Usable s.vm)
    (h : Apart s newStack sz initEsp) :
    Relocates s newStack sz initEsp ↔ Spared s newStack sz initEsp := by
  by_cases hle : sz ≤ newStack
  · exact h.relocates_of_le hu hle
  · exact h.relocates_of_lt hu (Nat.not_le.mp hle)

/-- A stack of one word, the processor being the sample machine after `vmm_init`. -/
def oneWord (m : Mem) : Cpu := ⟨Vmm.sampleVmm.vmmInit, m, 0x10FFFC, 0x110000⟩

theorem oneWord_usable (m : Mem) : Usable (oneWord m).vm :=
  (Vmm.vmmInit_refines (by decide) Vmm.sampleVmm_twoFree).inv.usable
    (Vmm.vmmInit_dir_ne_zero (by decide) Vmm.sampleVmm_twoFree)

theorem oneWord_apart (m : Mem) : Apart (oneWord m) kernelStackTop kernelStackSz 0x110000 where
  le := show 0x10FFFC ≤ 0x110000 by decide
  lt := by decide
  aligned := show 0x10FFFC % 4 = 0 ∧ 0x110000 % 4 = 0 by decide
  fits := show 0x110000 - 0x10FFFC ≤ kernelStackSz by decide
  sz_lt := by decide
  window := by decide
  pos := show 0 < 0x10FFFC by decide
  room := show 0x110000 - 0x10FFFC < kernelStackTop by decide
  disjoint := .inr (show 0x110000 ≤ kernelStackTop - (0x110000 - 0x10FFFC) by decide)

/-- Two words, the upper one 0 and the lower one a pointer to it. -/
def twoWords : Cpu :=
  ⟨Vmm.sampleVmm.vmmInit, wr (fun _ => 0#8) 0x10FFF8 0x10FFFC 4, 0x10FFF8, 0x110000⟩

theorem twoWords_apart : Apart twoWords kernelStackTop kernelStackSz 0x110000 where
  le := show 0x10FFF8 ≤ 0x110000 by decide
  lt := by decide
  aligned := show 0x10FFF8 % 4 = 0 ∧ 0x110000 % 4 = 0 by decide
  fits := show 0x110000 - 0x10FFF8 ≤ kernelStackSz by decide
  sz_lt := by decide
  window := by decide
  pos := show 0 < 0x10FFF8 by decide
  room := show 0x110000 - 0x10FFF8 < kernelStackTop by decide
  disjoint := .inr (show 0x110000 ≤ kernelStackTop - (0x110000 - 0x10FFF8) by decide)

theorem twoWords_usable : Usable twoWords.vm := oneWord_usable fun _ => 0#8

theorem twoWords_lower : rd twoWords.mem 0x10FFF8 4 = 0x10FFFC := Bytes.rd_wr_same _ _ (by decide)

theorem twoWords_other {a : Nat} (ha : a + 4 ≤ 2 ^ 32) (h : 0x10FFFC ≤ a) :
    rd twoWords.mem a 4 = 0 := by
  have hzero : rd (fun _ => 0#8) a 4 = 0 := by simp [rd]
  rw [← hzero]
  exact Bytes.rd_wr_disjoint (by decide) ha (.inr h)

theorem twoWords_spared : Spared twoWords kernelStackTop kernelStackSz 0x110000 := by
  have hesp : twoWords.esp = 0x10FFF8 := rfl
  have htop : kernelStackTop = 0x400000 := rfl
  have hsz : kernelStackSz = 0x2000 := rfl
  rw [Spared, if_pos (by decide), hesp, htop, hsz]
  refine ⟨by decide, fun a h1 h2 h4 => ?_, fun i h1 h2 _ _ hin => ?_⟩
  · by_cases ha : a = 0x10FFF8
    · rw [ha, twoWords_lower]
      decide
    · rw [twoWords_other (by omega) (by omega)]
      decide
  · rw [twoWords_other (by omega) (by omega)] at hin
    exact absurd hin.1 (Nat.not_lt_zero _)

/-- `kmain` moves the stack of two words, and the pointer follows. -/
theorem moveStack_relocates_iff_twoWords : ∃ s',
    moveStack twoWords kernelStackTop kernelStackSz 0x110000 = .ok s' ∧
      Relocated twoWords s' kernelStackTop 0x110000 ∧ rd s'.mem 0x3FFFF8 4 = 0x3FFFFC := by
  obtain ⟨s', hmove, h⟩ := (moveStack_relocates_iff twoWords_usable twoWords_apart).mpr twoWords_spared
  have hword := h.words 0x10FFF8 (Nat.le_refl _) (by decide) (by decide)
  rw [twoWords_lower, if_pos ⟨by decide, by decide⟩] at hword
  exact ⟨s', hmove, h, hword⟩

/-- The word is a pointer to itself, to the top of the stack, and stays one. -/
theorem not_relocates_top : ¬ Relocates (oneWord fun x => [0xFC, 0xFF, 0x10, 0].getD (x % 4) 0)
    kernelStackTop kernelStackSz 0x110000 := by
  rw [(oneWord_apart _).relocates_of_le (oneWord_usable _) (by decide), Spared, if_pos (by decide)]
  rintro ⟨_, htop, _⟩
  exact htop 0x10FFFC (by decide) (by decide) (by decide) (by decide)

end Kernel
end Frod
