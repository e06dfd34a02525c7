import Frod.Boot.Modules
import Frod.Vmm.Boot

/-!
# Frod.Boot.Words

The page tables that the boot code leaves in memory are those of the word-level model.

`Holds` relates memory to a machine of `Frod.Vmm`: its frames apart from the bitmap have the
machine's words, and the bitmap its bits. Each operation of `vmm_init` keeps it, so that
`kmain_translates` carries the result on the tables of `vmm_init` over to the bytes that `kmain`
leaves behind.
-/

namespace Frod
namespace Ram

open BitArray Bytes
open Pmm (blkSz markLo markHi blocksBitmap topAvailable FirstFree HasFree)

/-- Frame `f` has none of the `n` bytes from `ptr` on. -/
def Apart (ptr n f : Nat) : Prop := ∀ x, InFrame (f * blkSz) x → ¬ (ptr ≤ x ∧ x < ptr + n)

/-- Memory holds the words and the bits of `v`, with the bitmap in `n` bytes. -/
structure Holds (n : Nat) (s : Ram) (v : Vmm) : Prop where
  bound : s.bitmap + n ≤ 2 ^ 32
  sz : v.pmm.bitmapSz = s.bitmapSz
  taken : ∀ b, b < 8 * n → v.pmm.isTaken b = s.pmmIsTaken b
  word : ∀ f i, f < 2 ^ 20 → i < 1024 → Apart s.bitmap n f →
    rd s.mem (f * blkSz + 4 * i) 4 = (v.phys f i).toNat

/-- The word-level machine that memory holds, before paging is enabled. -/
def words (s : Ram) : Vmm :=
  { phys := fun f i => BitVec.ofNat 32 (rd s.mem (f * blkSz + 4 * i) 4), pmm := ⟨s.bits, s.bitmapSz⟩,
    kernelDir := 0, currentDir := 0, cr3 := 0 }

theorem holds_words {n : Nat} {s : Ram} (h : s.bitmap + n ≤ 2 ^ 32) : Holds n s s.words := by
  refine ⟨h, rfl, fun _ _ => rfl, fun f i _ _ _ => ?_⟩
  have hlt := rd_lt s.mem 4 (f * blkSz + 4 * i)
  rw [words, BitVec.toNat_ofNat, Nat.mod_eq_of_lt (by omega)]

section Holds

variable {n : Nat} {s s' : Ram} {v : Vmm}

theorem Holds.take (h : Holds n s v) {T : Nat → Prop} (he : Extends n (fun _ => False) T s s') {p : Pmm}
    (hsz : p.bitmapSz = v.pmm.bitmapSz)
    (hp : ∀ b, p.isTaken b = true ↔ T b ∨ v.pmm.isTaken b = true) : Holds n s' { v with pmm := p } := by
  refine ⟨by rw [he.bitmap_eq]; exact h.bound, hsz.trans (h.sz.trans he.bitmapSz_eq.symm),
    fun b hb => ?_, fun f i hf hi ha => ?_⟩
  · rw [Bool.eq_iff_iff, hp, he.taken b hb, h.taken b hb]
  · rw [he.bitmap_eq] at ha
    rw [← h.word f i hf hi ha]
    refine rd_congr (by unfold blkSz; omega) fun x h1 h2 => he.outside x (ha x ?_) id
    unfold InFrame blkSz at *
    omega

theorem pmmMarkMemTaken_bitmap (s : Ram) (start stop : Nat) :
    (s.pmmMarkMemTaken start stop).bitmap = s.bitmap := rfl

theorem Holds.mark (h : Holds n s v) (start : Nat) {stop : Nat} (hhi : markHi stop ≤ 8 * n) :
    Holds n (s.pmmMarkMemTaken start stop) { v with pmm := v.pmm.markMemTaken start stop } :=
  h.take (extends_pmmMarkMemTaken h.bound start hhi) (Pmm.markMemTaken_bitmapSz _ _ _)
    (Pmm.isTaken_markMemTaken v.pmm start stop)

theorem Holds.write (h : Holds n s v) {m : Mem} {w : Phys}
    (hm : ∀ x, InBitmap s n x → m x = s.mem x)
    (hw : ∀ f i, f < 2 ^ 20 → i < 1024 → Apart s.bitmap n f →
      rd m (f * blkSz + 4 * i) 4 = (w f i).toNat) :
    Holds n { s with mem := m } { v with phys := w } := by
  refine ⟨h.bound, h.sz, fun b hb => ?_, hw⟩
  exact (h.taken b hb).trans (pmmIsTaken_congr { s with mem := m } h.bound rfl hm hb).symm

section Write

variable (h : Holds n s v) {f : Nat} (hf : f < 2 ^ 20) (ha : Apart s.bitmap n f)
include h hf ha

theorem Holds.store {i : Nat} (hi : i < 1024) (e : Word) :
    Holds n { s with mem := wr s.mem (f * blkSz + 4 * i) e.toNat 4 }
      { v with phys := v.phys.set f i e } := by
  have hend : f * blkSz + 4 * i + 4 ≤ 2 ^ 32 := by unfold blkSz; omega
  refine h.write (fun x hx => ?_) fun g j hg hj hag => ?_
  · have hx : ¬ InFrame (f * blkSz) x := fun hc => ha x hc hx
    refine wr_other _ _ hend ?_
    unfold InFrame blkSz at *
    omega
  · by_cases hgf : g = f ∧ j = i
    · obtain ⟨rfl, rfl⟩ := hgf
      have hlt := e.isLt
      rw [Vmm.set_same, rd_wr_same _ _ hend, Nat.mod_eq_of_lt (by omega)]
    · rw [Phys.set, if_neg hgf, ← h.word g j hg hj hag]
      refine rd_wr_disjoint hend ?_ ?_
      · unfold blkSz
        omega
      · unfold blkSz
        omega

theorem Holds.clear :
    Holds n { s with mem := clearBytes s.mem (f * blkSz) blkSz } { v with phys := v.phys.clear f } := by
  have hend : f * blkSz + blkSz ≤ 2 ^ 32 := by unfold blkSz; omega
  refine h.write (fun x hx => ?_) fun g j hg hj hag => ?_
  · rw [clearBytes_apply _ hend]
    exact if_neg fun hc => ha x hc hx
  · by_cases hgf : g = f
    · subst hgf
      have hzero : rd (clearBytes s.mem (g * blkSz) blkSz) (g * blkSz + 4 * j) 4 =
          rd (fun _ => 0) (g * blkSz + 4 * j) 4 := by
        refine rd_congr (by unfold blkSz; omega) fun x h1 h2 => ?_
        rw [clearBytes_apply _ hend, if_pos (by unfold blkSz at *; omega)]
      rw [Vmm.clear_same _ _ hj, hzero]
      rfl
    · rw [Vmm.clear_other _ hgf, ← h.word g j hg hj hag]
      refine rd_congr (by unfold blkSz; omega) fun x h1 h2 => ?_
      rw [clearBytes_apply _ hend, if_neg (by unfold blkSz at *; omega)]

theorem Holds.identityLoop : ∀ {i : Nat}, i ≤ 1024 →
    Holds n { s with mem := Ram.identityLoop (f * blkSz) i s.mem }
      { v with phys := Vmm.identityLoop f i v.phys } := by
  intro i
  induction i with
  | zero => intro _; exact h
  | succ i ih =>
    intro hi
    exact (ih (by omega)).store hf ha (by omega) _

end Write

/-! ## `vmm_init` -/

theorem Holds.firstFree (h : Holds n s v) (hp : Placed n s) {k : Nat} (hk : Lowest s k) :
    FirstFree v.pmm k := by
  have hcovers := hp.covers
  have hlt := hk.1.2.1
  refine ⟨hk.1.1, by rw [h.sz]; exact hlt, by rw [h.taken k (by omega)]; exact hk.1.2.2, fun j h1 h2 => ?_⟩
  by_contra hc
  rw [h.taken j (by omega), Bool.not_eq_true] at hc
  have := hk.2 j ⟨h1, by omega, hc⟩
  omega

theorem Holds.getPhysicalPage (h : Holds n s v) (hp : Placed n s) {k : Nat} (hk : Lowest s k) :
    v.vmmGetPhysicalPage.1 = k * blkSz ∧
      Holds n s.vmmGetPhysicalPage.2 v.vmmGetPhysicalPage.2 := by
  obtain ⟨haddr, hne, _⟩ := hk.1.addr hp
  have hcovers := hp.covers
  have hblocks := hp.blocks
  have hlt := hk.1.2.1
  have hfirst := h.firstFree hp hk
  obtain ⟨k', hk', halloc⟩ := Pmm.allocFirst_of_hasFree ⟨k, hfirst.pos, hfirst.lt, hfirst.clear⟩
  obtain rfl : k' = k := hk'.unique hfirst
  rw [Vmm.vmmGetPhysicalPage_eq hk' (by rw [h.sz]; exact hblocks) halloc]
  refine ⟨rfl, ?_⟩
  rw [vmmGetPhysicalPage, pmmAllocFirst_lowest hk, haddr]
  dsimp only
  rw [memset, if_neg hne]
  have hset := extends_bitmapSet hp.bound (show k' < 8 * n by omega)
  have htake := h.take hset (p := { v.pmm with bitmap := v.pmm.bitmap.set k' }) rfl
    fun b => Pmm.isTaken_set v.pmm k' b
  exact htake.clear (by omega) (hp.apart hk.1)

/-- What `vmm_init` stores when it has the two pages. -/
theorem Holds.writeTables (h : Holds n s v) (hp : Placed n s) {k₁ k₂ : Nat} (h₁ : k₁ < 2 ^ 20)
    (h₂ : k₂ < 2 ^ 20) (ha₁ : Apart s.bitmap n k₁) (ha₂ : Apart s.bitmap n k₂) :
    Holds n (s.writeTables (k₁ * blkSz) (k₂ * blkSz))
      { v with
        phys := (((Vmm.identityLoop k₂ 1024 v.phys).set k₂ (lapicPhysVirtAddr / kb4)
          (0xFEE00000#32 ||| Vmm.initFlags ||| Vmm.x86PageCacheDis)).set
          k₁ 0 (BitVec.ofNat 32 (k₂ * blkSz) ||| Vmm.initFlags)).set
          k₁ 1023 (BitVec.ofNat 32 (k₁ * blkSz) ||| Vmm.initFlags),
        pmm := v.pmm.markMemTaken 0 mb4 } := by
  have hhi : markHi mb4 ≤ 8 * n := le_trans (by decide) hp.low
  have hid := h.identityLoop h₂ ha₂ (Nat.le_refl 1024)
  have hlapic := hid.store h₂ ha₂ (show lapicPhysVirtAddr / kb4 < 1024 by decide)
    (0xFEE00000#32 ||| Vmm.initFlags ||| Vmm.x86PageCacheDis)
  have hmark := hlapic.mark 0 hhi
  have hdir := hmark.store h₁ (by rw [pmmMarkMemTaken_bitmap]; exact ha₁) (show 0 < 1024 by decide)
    (BitVec.ofNat 32 (k₂ * blkSz) ||| Vmm.initFlags)
  rw [Nat.mul_zero, Nat.add_zero] at hdir
  have hself := hdir.store h₁ (by rw [pmmMarkMemTaken_bitmap]; exact ha₁) (show 1023 < 1024 by decide)
    (BitVec.ofNat 32 (k₁ * blkSz) ||| Vmm.initFlags)
  unfold Ram.writeTables
  exact hself

theorem Holds.vmmInit (h : Holds n s v) (hp : Placed n s) {k₁ k₂ : Nat} (h₁ : Lowest s k₁)
    (h₂ : Free s k₂ ∧ k₂ ≠ k₁ ∧ ∀ j, Free s j → j ≠ k₁ → k₂ ≤ j) :
    Holds n s.vmmInit.2.2 v.vmmInit ∧ v.vmmInit.cr3 = s.vmmInit.1 := by
  obtain ⟨hr₁, he⟩ := vmmGetPhysicalPage_spec hp h₁
  obtain ⟨hv₁, hw₁⟩ := h.getPhysicalPage hp h₁
  have hp₁ := hp.extends he
  have hfree := he.free_iff hp
  have hlow : Lowest s.vmmGetPhysicalPage.2 k₂ :=
    ⟨(hfree k₂).mpr ⟨h₂.1, h₂.2.1⟩, fun j hj => h₂.2.2 j ((hfree j).mp hj).1 ((hfree j).mp hj).2⟩
  obtain ⟨hr₂, he₂⟩ := vmmGetPhysicalPage_spec hp₁ hlow
  obtain ⟨hv₂, hw₂⟩ := hw₁.getPhysicalPage hp₁ hlow
  have hblocks := hp.blocks
  have hlt₁ := h₁.1.2.1
  have hlt₂ := h₂.1.2.1
  have hapart : ∀ {k : Nat}, Free s k → Apart s.vmmGetPhysicalPage.2.vmmGetPhysicalPage.2.bitmap n k := by
    intro k hk
    rw [he₂.bitmap_eq, he.bitmap_eq]
    exact hp.apart hk
  have hw := hw₂.writeTables (hp₁.extends he₂) (by omega) (by omega) (hapart h₁.1) (hapart h₂.1)
  have hd₁ : k₁ * blkSz / kb4 = k₁ := Nat.mul_div_cancel k₁ (by decide)
  have hd₂ : k₂ * blkSz / kb4 = k₂ := Nat.mul_div_cancel k₂ (by decide)
  have hlapic : 0xFEE00000#32 ||| Vmm.x86PagePresent ||| Vmm.x86PageWritable ||| Vmm.x86PageCacheDis |||
    Vmm.x86PageUser = 0xFEE00000#32 ||| Vmm.initFlags ||| Vmm.x86PageCacheDis := by decide
  rw [Ram.vmmInit, Vmm.vmmInit]
  dsimp only
  rw [hr₁, hr₂, hv₁, hv₂, hd₁, hd₂, hlapic, Vmm.or_initFlags, Vmm.or_initFlags]
  exact ⟨⟨hw.bound, hw.sz, hw.taken, hw.word⟩, rfl⟩

theorem Holds.twoFree (h : Holds n s v) (hp : Placed n s) {k₁ k₂ : Nat} (h₁ : Lowest s k₁)
    (h₂ : Free s k₂) (hne : k₂ ≠ k₁) : Vmm.TwoFree v.pmm := by
  have hcovers := hp.covers
  have hlt := h₂.2.1
  have hfirst := h.firstFree hp h₁
  have hfree : HasFree v.pmm := ⟨k₁, hfirst.pos, hfirst.lt, hfirst.clear⟩
  obtain ⟨k, hk, halloc⟩ := Pmm.allocFirst_of_hasFree hfree
  obtain rfl : k = k₁ := hk.unique hfirst
  refine ⟨hfree, k₂, h₂.1, ?_, ?_⟩
  · rw [Pmm.allocFirst_bitmapSz, h.sz]
    exact hlt
  · rw [halloc, ← Bool.not_eq_true, Pmm.isTaken_set, not_or, h.taken k₂ (by omega), h₂.2.2]
    exact ⟨hne, Bool.false_ne_true⟩

end Holds

/-- **Paging after boot.** For every accepted boot whose bitmap and destinations are apart, with two
blocks left: the bytes that `kmain` leaves behind are those of tables that translate the first 4 MB
to themselves, the LAPIC's page to its registers, and nothing else below the recursive window. -/
theorem kmain_translates {s : Ram} {fuel : Nat} {i : BootInfo} {es : List MmapEntry} {base : Nat}
    {sc2 ap : Module} (h : Accepted s fuel i es base sc2 ap)
    (hbitmap : ∀ x, InDest sc2 ap x →
      ¬ (base ≤ x ∧ x < base + blocksBitmap (topAvailable es / blkSz) * blkSz))
    (hsep : ∀ x, Dest module1Location sc2.len x → ¬ Dest bootApLocation ap.len x)
    (htwo : ∃ j k, j < k ∧ Unreserved i es base sc2 ap j ∧ Unreserved i es base sc2 ap k) :
    ∃ s₁ s₂ v, s.kmainSc2 fuel i = .ok s₁ ∧ s₁.kmainBootAp i = .ok s₂ ∧
      Holds (blocksBitmap (topAvailable es / blkSz) * blkSz) s₂.vmmInit.2.2 v ∧
      v.cr3 = s₂.vmmInit.1 ∧ Vmm.Refines v Vmm.initMap := by
  obtain ⟨s₁, s₂, hs₁, hs₂, hp, _, _, hfree⟩ := kmain_spec h hbitmap hsep
  obtain ⟨j, k, hjk, hj, hk⟩ := htwo
  obtain ⟨k₁, k₂, h₁, h₂⟩ := exists_two_lowest ⟨j, k, hjk, (hfree j).mpr hj, (hfree k).mpr hk⟩
  have hwords := holds_words hp.bound
  obtain ⟨hholds, hcr3⟩ := hwords.vmmInit hp h₁ h₂
  refine ⟨s₁, s₂, s₂.words.vmmInit, hs₁, hs₂, hholds, hcr3, ?_⟩
  exact Vmm.vmmInit_refines hp.blocks (hwords.twoFree hp h₁ h₂.1 h₂.2.1)

end Ram
end Frod
