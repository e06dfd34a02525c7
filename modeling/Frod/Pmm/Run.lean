import Mathlib.Logic.Relation
import Mathlib.Data.List.Nodup
import Frod.Pmm.Alloc

/-!
# Frod.Pmm.Run

Runs of the allocator: any sequence of `pmm_alloc_first`, `pmm_alloc_first_n_blocks`,
`pmm_mark_mem_taken` and `pmm_free`, where a block is freed only while it is outstanding.

A run carries two pieces of history beside the bitmap: the frames handed out and not yet freed, and
the blocks that must never be handed out again, because their bit was set at the start or was set
by `pmm_mark_mem_taken` while the block was not outstanding. `Inv` ties both to the bitmap and
`Step.inv` shows that every call keeps it.
-/

namespace Frod
namespace Pmm

/-- The frames a call hands out when it returns `addr` for `n` blocks; `NULL` is none. -/
def handed (n addr : Nat) : List Nat :=
  if addr = 0 then [] else (List.range n).map fun i => addr + i * blkSz

/-- The allocator and its history. -/
structure History where
  pmm : Pmm
  /-- Addresses of the frames handed out and not freed. -/
  outstanding : List Nat
  /-- Blocks that are set and that no call handed out. -/
  reserved : Nat → Prop

/-- The history at the start of a run. -/
def History.start (p : Pmm) : History := ⟨p, [], fun b => p.isTaken b = true⟩

/-- One call. The label is the list of frames it hands out. -/
inductive Step : History → List Nat → History → Prop where
  | allocFirst {h : History} :
      Step h (handed 1 h.pmm.allocFirst.1)
        ⟨h.pmm.allocFirst.2, handed 1 h.pmm.allocFirst.1 ++ h.outstanding, h.reserved⟩
  | allocFirstNBlocks {h : History} (n : Nat) :
      Step h (handed n (h.pmm.allocFirstNBlocks n).1)
        ⟨(h.pmm.allocFirstNBlocks n).2,
          handed n (h.pmm.allocFirstNBlocks n).1 ++ h.outstanding, h.reserved⟩
  | markMemTaken {h : History} (start stop : Nat) (hs : start ≤ stop)
      (hin : stop ≤ h.pmm.bitmapSz * blkSz) (h32 : stop < 2 ^ 32) :
      Step h []
        ⟨h.pmm.markMemTaken start stop, h.outstanding, fun b => h.reserved b ∨
          ((markLo start ≤ b ∧ b < markHi stop) ∧ b * blkSz ∉ h.outstanding)⟩
  | free {h : History} (block : Nat) (hb : block ∈ h.outstanding) :
      Step h [] ⟨h.pmm.free block, h.outstanding.erase block, h.reserved⟩

/-- A run of any length. -/
def Runs : History → History → Prop := Relation.ReflTransGen fun h h' => ∃ fs, Step h fs h'

/-- What every run keeps, for a bitmap of `sz` bits. -/
structure Inv (sz : Nat) (h : History) : Prop where
  sz_eq : h.pmm.bitmapSz = sz
  nodup : h.outstanding.Nodup
  frame : ∀ f ∈ h.outstanding, ∃ b, f = b * blkSz ∧ 1 ≤ b ∧ b < sz
  taken : ∀ b, b * blkSz ∈ h.outstanding → h.pmm.isTaken b = true
  reserved_taken : ∀ b, h.reserved b → h.pmm.isTaken b = true
  reserved_kept : ∀ b, h.reserved b → b * blkSz ∉ h.outstanding

theorem Inv.start (p : Pmm) : Inv p.bitmapSz (History.start p) where
  sz_eq := rfl
  nodup := List.nodup_nil
  frame := by intro f hf; cases hf
  taken := by intro b hb; cases hb
  reserved_taken := fun _ h => h
  reserved_kept := by intro b _ hb; cases hb

theorem blkSz_inj {a b : Nat} (h : a * blkSz = b * blkSz) : a = b := by
  unfold blkSz at h; omega

/-- The frames handed out for a run of blocks that fits below `2^20`. -/
theorem handed_run {n s : Nat} (hs : 1 ≤ s) (hn : s + n ≤ 2 ^ 20) :
    handed n (s * blkSz % 2 ^ 32) = (List.range n).map fun i => (s + i) * blkSz := by
  rcases Nat.eq_zero_or_pos n with rfl | hpos
  · simp [handed]
  · have h1 : s * blkSz % 2 ^ 32 = s * blkSz := Nat.mod_eq_of_lt (by unfold blkSz; omega)
    have h2 : s * blkSz ≠ 0 := by unfold blkSz; omega
    rw [handed, h1, if_neg h2]
    apply List.map_congr_left
    intro i _
    rw [Nat.add_mul]

theorem mem_run {n s f : Nat} :
    f ∈ (List.range n).map (fun i => (s + i) * blkSz) ↔ ∃ b, f = b * blkSz ∧ s ≤ b ∧ b < s + n := by
  simp only [List.mem_map, List.mem_range]
  constructor
  · rintro ⟨i, hi, rfl⟩; exact ⟨s + i, rfl, by omega, by omega⟩
  · rintro ⟨b, rfl, h1, h2⟩; exact ⟨b - s, by omega, by rw [Nat.add_sub_cancel' h1]⟩

/-- Handing out a run of free blocks, whichever allocator found it, keeps the invariant. -/
theorem Inv.handOut {sz : Nat} (hsz : sz ≤ 2 ^ 20) {h : History} (hi : Inv sz h) {n s : Nat}
    (hr : FreeRun h.pmm n s) {p' : Pmm} (hp : p'.bitmapSz = h.pmm.bitmapSz)
    (hbits : ∀ b, p'.isTaken b = true ↔ (s ≤ b ∧ b < s + n) ∨ h.pmm.isTaken b = true) :
    Inv sz ⟨p', handed n (s * blkSz % 2 ^ 32) ++ h.outstanding, h.reserved⟩ ∧
      ∀ f ∈ handed n (s * blkSz % 2 ^ 32),
        h.pmm.isTaken (f / blkSz) = false ∧ ¬ h.reserved (f / blkSz) := by
  have hle := hr.le
  rw [hi.sz_eq] at hle
  rw [handed_run hr.pos (by omega)]
  have hclear : ∀ b, s ≤ b → b < s + n → ¬ h.pmm.isTaken b = true := by
    intro b h1 h2; rw [hr.clear b h1 h2]; simp
  refine ⟨?_, ?_⟩
  · constructor
    · exact hp.trans hi.sz_eq
    · rw [List.nodup_append]
      refine ⟨?_, hi.nodup, ?_⟩
      · exact List.nodup_range.map fun a b hab => by have := blkSz_inj hab; omega
      · -- an outstanding frame has its bit set, a frame of the run does not
        intro f hf g hg hfg
        subst hfg
        obtain ⟨b, rfl, h1, h2⟩ := mem_run.mp hf
        exact hclear b h1 h2 (hi.taken b hg)
    · intro f hf
      rcases List.mem_append.mp hf with hf | hf
      · obtain ⟨b, rfl, h1, h2⟩ := mem_run.mp hf
        have := hr.pos
        exact ⟨b, rfl, by omega, by omega⟩
      · exact hi.frame f hf
    · intro b hb
      rw [hbits]
      rcases List.mem_append.mp hb with hb | hb
      · obtain ⟨c, hc, h1, h2⟩ := mem_run.mp hb
        rw [blkSz_inj hc]
        exact .inl ⟨h1, h2⟩
      · exact .inr (hi.taken b hb)
    · intro b hb
      rw [hbits]
      exact .inr (hi.reserved_taken b hb)
    · intro b hb hmem
      rcases List.mem_append.mp hmem with hmem | hmem
      · obtain ⟨c, hc, h1, h2⟩ := mem_run.mp hmem
        rw [← blkSz_inj hc] at h1 h2
        exact hclear b h1 h2 (hi.reserved_taken b hb)
      · exact hi.reserved_kept b hb hmem
  · intro f hf
    obtain ⟨b, rfl, h1, h2⟩ := mem_run.mp hf
    have hb : b * blkSz / blkSz = b := Nat.mul_div_cancel b (by decide)
    rw [hb]
    exact ⟨hr.clear b h1 h2, fun hres => hclear b h1 h2 (hi.reserved_taken b hres)⟩

theorem FirstFree.freeRun {p : Pmm} {k : Nat} (h : FirstFree p k) : FreeRun p 1 k :=
  ⟨Nat.le_refl 1, h.pos, h.lt, fun j h1 h2 => by rw [show j = k by omega]; exact h.clear⟩

theorem handed_null (n : Nat) : handed n 0 = [] := if_pos rfl

/-- Every call keeps the invariant, and hands out only blocks that were free and not reserved. -/
theorem Step.inv {sz : Nat} (hsz : sz ≤ 2 ^ 20) {h h' : History} {fs : List Nat}
    (hi : Inv sz h) (hstep : Step h fs h') :
    Inv sz h' ∧ ∀ f ∈ fs, h.pmm.isTaken (f / blkSz) = false ∧ ¬ h.reserved (f / blkSz) := by
  cases hstep with
  | allocFirst =>
    rcases allocFirst_spec h.pmm with ⟨k, hk, heq⟩ | ⟨_, heq⟩
    · rw [heq]
      refine hi.handOut hsz hk.freeRun rfl fun b => ?_
      rw [isTaken_set, show (k ≤ b ∧ b < k + 1) ↔ b = k by omega]
    · rw [heq, handed_null]
      exact ⟨hi, fun f hf => absurd hf (List.not_mem_nil)⟩
  | allocFirstNBlocks n =>
    rcases allocFirstNBlocks_spec h.pmm n with ⟨s, hs, heq, hbits⟩ | heq
    · rw [heq]
      exact hi.handOut hsz hs (allocFirstNBlocks_bitmapSz _ _) hbits
    · rw [heq, handed_null]
      exact ⟨hi, fun f hf => absurd hf (List.not_mem_nil)⟩
  | markMemTaken start stop _ _ _ =>
    refine ⟨⟨hi.sz_eq, hi.nodup, hi.frame, ?_, ?_, ?_⟩, fun f hf => absurd hf (List.not_mem_nil)⟩
    · intro b hb
      exact (isTaken_markMemTaken ..).mpr (.inr (hi.taken b hb))
    · rintro b (hb | ⟨hb, _⟩)
      · exact (isTaken_markMemTaken ..).mpr (.inr (hi.reserved_taken b hb))
      · exact (isTaken_markMemTaken ..).mpr (.inl hb)
    · rintro b (hb | ⟨_, hb⟩)
      · exact hi.reserved_kept b hb
      · exact hb
  | free block hmem =>
    obtain ⟨c, rfl, _, _⟩ := hi.frame block hmem
    have hc : c * blkSz / blkSz = c := Nat.mul_div_cancel c (by decide)
    refine ⟨⟨hi.sz_eq, hi.nodup.erase _, ?_, ?_, ?_, ?_⟩,
      fun f hf => absurd hf (List.not_mem_nil)⟩
    · intro f hf
      exact hi.frame f (List.mem_of_mem_erase hf)
    · intro b hb
      rw [isTaken_free, hc]
      obtain ⟨hne, hb⟩ := hi.nodup.mem_erase_iff.mp hb
      exact ⟨fun hbc => hne (by rw [hbc]), hi.taken b hb⟩
    · -- the freed block was outstanding, so it is not a reserved one
      intro b hb
      rw [isTaken_free, hc]
      exact ⟨fun hbc => hi.reserved_kept b hb (by rw [hbc]; exact hmem), hi.reserved_taken b hb⟩
    · intro b hb hmem'
      exact hi.reserved_kept b hb (List.mem_of_mem_erase hmem')

theorem Runs.inv {p : Pmm} (hsz : p.bitmapSz ≤ 2 ^ 20) {h : History}
    (hr : Runs (History.start p) h) : Inv p.bitmapSz h := by
  induction hr with
  | refl => exact Inv.start p
  | tail _ hstep ih =>
    obtain ⟨fs, hstep⟩ := hstep
    exact (hstep.inv hsz ih).1

/-- **No frame is handed out twice.** At every point of every run the outstanding frames are
pairwise distinct non-zero multiples of the block size inside the managed memory with their bits
set, and the next call hands out only frames whose bit is clear and that are not reserved. -/
theorem frame_handed_out_once {p : Pmm} (hsz : p.bitmapSz ≤ 2 ^ 20) {h : History}
    (hr : Runs (History.start p) h) :
    h.outstanding.Nodup ∧
      (∀ f ∈ h.outstanding, f ≠ 0 ∧ f % blkSz = 0 ∧ f < p.bitmapSz * blkSz ∧
        h.pmm.isTaken (f / blkSz) = true) ∧
      ∀ fs h', Step h fs h' →
        ∀ f ∈ fs, h.pmm.isTaken (f / blkSz) = false ∧ ¬ h.reserved (f / blkSz) := by
  have hi := Runs.inv hsz hr
  refine ⟨hi.nodup, ?_, fun fs h' hstep => (hstep.inv hsz hi).2⟩
  intro f hf
  obtain ⟨b, rfl, h1, h2⟩ := hi.frame f hf
  have hb : b * blkSz / blkSz = b := Nat.mul_div_cancel b (by decide)
  refine ⟨by unfold blkSz; omega, Nat.mul_mod_left b blkSz,
    Nat.mul_lt_mul_of_pos_right h2 (by decide), ?_⟩
  rw [hb]
  exact hi.taken b hf

/-- Sixteen blocks with block 0 taken, after one `pmm_alloc_first`. -/
def sampleHistory : History :=
  let p : Pmm := ⟨fun i => if i = 0 then 1#8 else 0#8, 16⟩
  ⟨p.allocFirst.2, handed 1 p.allocFirst.1 ++ [], fun b => p.isTaken b = true⟩

/-- Block 1 is handed out, and the next call hands out another one. -/
theorem frame_handed_out_once_block_one :
    sampleHistory.outstanding = [4096] ∧ sampleHistory.pmm.isTaken 1 = true ∧
      ∀ fs h', Step sampleHistory fs h' → 4096 ∉ fs := by
  have hrun : Runs (History.start ⟨fun i => if i = 0 then 1#8 else 0#8, 16⟩) sampleHistory :=
    Relation.ReflTransGen.single ⟨_, .allocFirst⟩
  obtain ⟨_, hout, hnext⟩ := frame_handed_out_once (by decide) hrun
  have hone : sampleHistory.pmm.isTaken 1 = true := (hout 4096 (by decide)).2.2.2
  refine ⟨by decide, hone, fun fs h' hstep hmem => ?_⟩
  have hfree := (hnext fs h' hstep 4096 hmem).1
  rw [show 4096 / blkSz = 1 by decide, hone] at hfree
  cases hfree

end Pmm
end Frod
