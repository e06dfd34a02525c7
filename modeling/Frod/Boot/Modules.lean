import Frod.Boot.Frames

/-!
# Frod.Boot.Modules

Which boots keep the modules that `kmain` relocates.

`kmain` marks where the modules come from, not where they go to. `kmain_spec` says which blocks are
still free when `vmm_init` is called, in terms of the memory map, the kernel's image and the modules;
`modules_kept_iff` then says for which of these the destinations are never handed out.
-/

namespace Frod
namespace Ram

open BitArray Bytes
open Pmm (blkSz markLo markHi blocksBitmap topAvailable placeBitmap)

/-- Address `x` is one of the `len` bytes from `dst` on. -/
def Dest (dst len x : Nat) : Prop := ∃ i < len, x = (dst + i) % 2 ^ 32

theorem memcpyLoop_outside {dst src x : Nat} : ∀ {n i : Nat} {m : Mem},
    (∀ j, i ≤ j → j < i + n → x ≠ (dst + j) % 2 ^ 32) → memcpyLoop dst src n i m x = m x := by
  intro n
  induction n with
  | zero => intro i m _; rfl
  | succ n ih =>
    intro i m h
    rw [memcpyLoop, ih fun j h1 h2 => h j (by omega) (by omega),
      Function.update_of_ne (h i (Nat.le_refl i) (by omega))]

theorem memcpy_outside {m : Mem} {dst src len x : Nat} (h : ¬ Dest dst len x) :
    memcpy m dst src len x = m x := by
  rw [memcpy]
  split
  · rfl
  · exact memcpyLoop_outside fun j _ h2 hx => h ⟨j, by omega, hx⟩

/-- `move_module` acts on the first module with the name. -/
theorem moveModule_eq {s : Ram} {name : String} {dst : Nat} {mm : Module} :
    ∀ {mods : List Module}, mods.find? (fun m => m.name = name) = some mm →
      s.moveModule mods name dst = (true,
        { s with mem := memcpy s.mem dst mm.start.toNat mm.len }.pmmMarkMemTaken
          mm.start.toNat mm.stop.toNat) := by
  intro mods
  induction mods with
  | nil => intro h; cases h
  | cons m mods ih =>
    intro h
    rw [List.find?_cons] at h
    rw [moveModule]
    by_cases hm : m.name = name
    · simp only [hm, decide_true, Option.some.injEq] at h
      rw [if_pos hm, h]
    · simp only [hm, decide_false] at h
      rw [if_neg hm]
      exact ih h

/-- A module's destination is written and the blocks it comes from are taken. -/
theorem extends_moveModule {n : Nat} {s : Ram} {name : String} {mods : List Module} {mm : Module}
    (dst : Nat) (hp : Placed n s) (hfind : mods.find? (fun m => m.name = name) = some mm)
    (hapart : ∀ x, Dest dst mm.len x → ¬ InBitmap s n x) (hhi : markHi mm.stop.toNat ≤ 8 * n) :
    ∃ s', s.moveModule mods name dst = (true, s') ∧
      Extends n (Dest dst mm.len)
        (fun b => markLo mm.start.toNat ≤ b ∧ b < markHi mm.stop.toNat) s s' := by
  refine ⟨_, moveModule_eq hfind, ?_⟩
  have h₁ : Extends n (Dest dst mm.len) (fun _ => False) s
      { s with mem := memcpy s.mem dst mm.start.toNat mm.len } :=
    extends_write hp.bound (fun x hx => memcpy_outside hx) hapart
  have h₂ := extends_pmmMarkMemTaken (hp.extends h₁).bound mm.start.toNat hhi
  exact (h₁.trans h₂).weaken (fun _ hx => hx.elim id False.elim) fun _ => or_iff_right id

/-! ## The free blocks when `vmm_init` is called -/

/-- The boot that `kmain` accepts: the memory map is well-formed, `init_pmm` finds room for the
bitmap at `base` and does not overwrite the map with it, the kernel is not too large, and the two
modules are there, in memory that the bitmap covers. -/
structure Accepted (s : Ram) (fuel : Nat) (i : BootInfo) (es : List MmapEntry) (base : Nat)
    (sc2 ap : Module) : Prop where
  map : HoldsMap s.mem i.mmapAddr es
  length : i.mmapLength = 24 * es.length
  below : i.mmapAddr + i.mmapLength < 2 ^ 32
  fuel : es.length < fuel
  wellFormed : Pmm.WellFormed es
  available : ∃ e ∈ es, e.type = 1
  place : placeBitmap (blocksBitmap (topAvailable es / blkSz)) es = some base
  mapApart : i.mmapAddr + i.mmapLength ≤ base ∨
    base + (topAvailable es / blkSz + 7) / 8 ≤ i.mmapAddr
  image : i.memEnd ≤ maxKernelMem
  hasSc2 : i.mods.find? (fun m => m.name = "sc2.bin") = some sc2
  hasAp : i.mods.find? (fun m => m.name = "bootap.bin") = some ap
  sc2Managed : sc2.stop.toNat ≤ topAvailable es / blkSz * blkSz
  apManaged : ap.stop.toNat ≤ topAvailable es / blkSz * blkSz

/-- The blocks that are marked before `vmm_init`: block 0, the bitmap's own, those with an address
that is not available, the kernel's, and those the two modules come from. -/
def Reserved (i : BootInfo) (es : List MmapEntry) (base : Nat) (sc2 ap : Module) (b : Nat) : Prop :=
  b = 0 ∨ (base / blkSz ≤ b ∧ b < base / blkSz + blocksBitmap (topAvailable es / blkSz)) ∨
  (∃ a < topAvailable es, a / blkSz = b ∧ ∀ e ∈ es, e.type = 1 → ¬ (e.base ≤ a ∧ a < e.stop)) ∨
  (markLo i.memStart ≤ b ∧ b < markHi i.memEnd) ∨
  (markLo sc2.start.toNat ≤ b ∧ b < markHi sc2.stop.toNat) ∨
  (markLo ap.start.toNat ≤ b ∧ b < markHi ap.stop.toNat)

/-- The managed blocks that are left. -/
def Unreserved (i : BootInfo) (es : List MmapEntry) (base : Nat) (sc2 ap : Module) (b : Nat) : Prop :=
  1 ≤ b ∧ b < topAvailable es / blkSz ∧ ¬ Reserved i es base sc2 ap b

theorem markHi_le {stop k : Nat} (h : stop ≤ k * blkSz) : markHi stop ≤ k := by
  unfold markHi Pmm.alignUpwards
  unfold blkSz at *
  split <;> omega

/-- After `init_pmm` the bitmap lies in blocks of its own. -/
theorem placed_of_initialised {es : List MmapEntry} {before after : Mem} {base : Nat}
    (h : Pmm.Initialised es before after (topAvailable es) base) (hwf : Pmm.WellFormed es)
    (ht : ∃ e ∈ es, e.type = 1)
    (hplace : placeBitmap (blocksBitmap (topAvailable es / blkSz)) es = some base) :
    Placed (blocksBitmap (topAvailable es / blkSz) * blkSz) ⟨after, base, topAvailable es / blkSz⟩ ∧
      ∀ b < topAvailable es / blkSz,
        pmmIsTaken ⟨after, base, topAvailable es / blkSz⟩ b = isSet (fun i => after (base + i)) b := by
  have hpos := hwf.blocksBitmap_pos ht
  have hown := hwf.own_le ht hplace
  have hlt := (hwf.topAvailable_bounds ht).2
  obtain ⟨e, he, het, _, hfit⟩ := h.inEntry
  have hetop := le_trans hfit (Pmm.le_topAvailable e he het)
  have hcovers := h.covers
  have halign := h.aligned
  have hbits := h.bits
  generalize hsz : topAvailable es / blkSz = sz at *
  generalize blocksBitmap sz = n at *
  have hszle : sz ≤ 2 ^ 20 := by
    rw [← hsz]
    unfold blkSz
    omega
  have hview : ∀ b < sz, pmmIsTaken ⟨after, base, sz⟩ b = isSet (fun i => after (base + i)) b := by
    intro b hb
    refine isSet_congr _ _ ?_
    rw [bits, Nat.mod_eq_of_lt]
    dsimp only
    omega
  have hin : ∀ x, InBitmap ⟨after, base, sz⟩ (n * blkSz) x →
      base / blkSz ≤ x / blkSz ∧ x / blkSz < base / blkSz + n := by
    rintro x ⟨h1, h2⟩
    unfold blkSz at *
    dsimp only at h1 h2
    omega
  refine ⟨⟨by dsimp only; omega, by dsimp only; omega, by unfold blkSz; omega, hszle, fun x hx => ?_,
    fun x hx => ?_⟩, hview⟩
  · have := (hin x hx).2
    omega
  · have hx := hin x hx
    rw [hview _ (by omega), hbits _ (by omega)]
    exact .inr (.inl hx)

/-- The bytes of the two destinations. -/
def InDest (sc2 ap : Module) (x : Nat) : Prop :=
  Dest module1Location sc2.len x ∨ Dest bootApLocation ap.len x

section Accepted

variable {s : Ram} {fuel : Nat} {i : BootInfo} {es : List MmapEntry} {base : Nat} {sc2 ap : Module}
  (h : Accepted s fuel i es base sc2 ap)
  (hbitmap : ∀ x, InDest sc2 ap x →
    ¬ (base ≤ x ∧ x < base + blocksBitmap (topAvailable es / blkSz) * blkSz))
  (hsep : ∀ x, Dest module1Location sc2.len x → ¬ Dest bootApLocation ap.len x)
include h hbitmap hsep

/-- `kmain` reaches `vmm_init`, with the unreserved blocks free. -/
theorem kmain_spec : ∃ s₁ s₂, s.kmainSc2 fuel i = .ok s₁ ∧ s₁.kmainBootAp i = .ok s₂ ∧
    Placed (blocksBitmap (topAvailable es / blkSz) * blkSz) s₂ ∧ s₂.bitmap = base ∧
    (∀ x, Dest module1Location sc2.len x → s₂.mem x = s₁.mem x) ∧
    ∀ b, Free s₂ b ↔ Unreserved i es base sc2 ap b := by
  obtain ⟨after, hinit, hafter⟩ := Pmm.initPmm_initialised h.map h.length h.below h.wellFormed
    h.available h.place h.mapApart h.fuel
  obtain ⟨hp₀, hview⟩ := placed_of_initialised hafter h.wellFormed h.available h.place
  have hbits := hafter.bits
  have hsc2 := markHi_le h.sc2Managed
  have hap := markHi_le h.apManaged
  have himage : markHi i.memEnd ≤ 1024 := by
    refine markHi_le (le_trans h.image ?_)
    decide
  have hlow := hp₀.low
  have hcovers := hp₀.covers
  dsimp only at hcovers
  -- the image, then the two modules
  have h₀ := extends_pmmMarkMemTaken hp₀.bound i.memStart (le_trans himage hlow)
  have hp₁ := hp₀.extends h₀
  obtain ⟨s₁, hs₁, h₁⟩ := extends_moveModule module1Location hp₁ h.hasSc2
    (fun x hx hb => hbitmap x (.inl hx) hb) (le_trans hsc2 hcovers)
  have hp₂ := hp₁.extends h₁
  have hbase₁ : s₁.bitmap = base := h₁.bitmap_eq
  obtain ⟨s₂, hs₂, h₂⟩ := extends_moveModule bootApLocation hp₂ h.hasAp
    (fun x hx hb => by rw [InBitmap, hbase₁] at hb; exact hbitmap x (.inr hx) hb)
    (le_trans hap hcovers)
  refine ⟨s₁, s₂, ?_, ?_, hp₂.extends h₂, h₂.bitmap_eq.trans hbase₁, fun x hx => ?_, fun b => ?_⟩
  · rw [kmainSc2, if_neg (Nat.not_lt.mpr h.image), hinit, Machine.ok_bind]
    dsimp only
    rw [hs₁]
  · rw [kmainBootAp, hs₂]
  · refine h₂.outside x (fun hb => ?_) (hsep x hx)
    rw [InBitmap, hbase₁] at hb
    exact hbitmap x (.inl hx) hb
  · rw [h₂.free_iff hp₂, h₁.free_iff hp₁, h₀.free_iff hp₀, Unreserved, Reserved, Free]
    dsimp only
    by_cases hb : b < topAvailable es / blkSz
    · rw [hview b hb, ← Bool.not_eq_true, hbits b hb]
      simp only [not_or, and_assoc]
    · simp only [hb, false_and, and_false]

end Accepted

/-- In every run from `vmm_init` on the frames that are returned stay apart from the destinations,
and the bytes there are those `move_module` has put there. -/
def ModulesKept (s₁ s₂ : Ram) (sc2 ap : Module) : Prop :=
  ∀ ops os t, Machine.Admissible Frames.Allowed Frames.step (Frames.start s₂) ops →
    Machine.runAll Frames.step (Frames.start s₂) ops = .ok (os, t) →
      t.Safe (Dest module1Location sc2.len) s₁.mem ∧ t.Safe (Dest bootApLocation ap.len) s₂.mem

theorem modulesKept_iff_alwaysSafe {s₁ s₂ : Ram} {sc2 ap : Module}
    (hmem : ∀ x, Dest module1Location sc2.len x → s₂.mem x = s₁.mem x) :
    ModulesKept s₁ s₂ sc2 ap ↔ AlwaysSafe s₂ (InDest sc2 ap) := by
  constructor
  · intro h ops os t hadm hrun
    obtain ⟨h1, h2⟩ := h ops os t hadm hrun
    refine ⟨fun f hf hne x hx => ?_, fun x hx => ?_⟩
    · exact hx.elim (h1.apart f hf hne x) (h2.apart f hf hne x)
    · exact hx.elim (fun hx => (h1.intact x hx).trans (hmem x hx).symm) (h2.intact x)
  · intro h ops os t hadm hrun
    have h := h ops os t hadm hrun
    refine ⟨⟨fun f hf hne x hx => h.apart f hf hne x (.inl hx), fun x hx => ?_⟩,
      fun f hf hne x hx => h.apart f hf hne x (.inr hx), fun x hx => h.intact x (.inr hx)⟩
    exact (h.intact x (.inl hx)).trans (hmem x hx)

/-- **When relocated modules are kept.** For every accepted boot whose bitmap is apart from the two
destinations, which are apart from each other, and which leaves two blocks for `vmm_init`: the
destinations are kept in every run exactly if each block of them that is not reserved lies in the
first 4 MB and has two unreserved blocks below it. -/
theorem modules_kept_iff {s : Ram} {fuel : Nat} {i : BootInfo} {es : List MmapEntry} {base : Nat}
    {sc2 ap : Module} (h : Accepted s fuel i es base sc2 ap)
    (hbitmap : ∀ x, InDest sc2 ap x →
      ¬ (base ≤ x ∧ x < base + blocksBitmap (topAvailable es / blkSz) * blkSz))
    (hsep : ∀ x, Dest module1Location sc2.len x → ¬ Dest bootApLocation ap.len x)
    (htwo : ∃ j k, j < k ∧ Unreserved i es base sc2 ap j ∧ Unreserved i es base sc2 ap k) :
    ∃ s₁ s₂, s.kmainSc2 fuel i = .ok s₁ ∧ s₁.kmainBootAp i = .ok s₂ ∧
      (ModulesKept s₁ s₂ sc2 ap ↔ Clear (Unreserved i es base sc2 ap) (InDest sc2 ap)) := by
  obtain ⟨s₁, s₂, hs₁, hs₂, hp, hbase, hmem, hfree⟩ := kmain_spec h hbitmap hsep
  have hunres : Unreserved i es base sc2 ap = Free s₂ := by
    funext b
    exact propext (hfree b).symm
  refine ⟨s₁, s₂, hs₁, hs₂, ?_⟩
  rw [hunres] at htwo ⊢
  rw [modulesKept_iff_alwaysSafe hmem]
  refine alwaysSafe_iff hp htwo fun x hx hb => ?_
  rw [InBitmap, hbase] at hb
  exact hbitmap x hx hb

/-! ## Two machines

Both have the usual low memory, the kernel at 1 MB and the two modules after it; they differ in the
memory above. With 8 MB the bitmap takes one block, with 816 MB it takes seven, and the lowest free
block is the one `bootap.bin` was moved to. -/

def sampleSc2 : Module := ⟨0x200000#32, 0x200400#32, "sc2.bin"⟩
def sampleAp : Module := ⟨0x201000#32, 0x201200#32, "bootap.bin"⟩

/-- The boot loader's information, with the memory map at `mmap`. -/
def sampleInfo (mmap : Nat) : BootInfo := ⟨mmap, 48, [sampleSc2, sampleAp], 0x100000, 0x180000⟩

def largeMap : List MmapEntry := [⟨0, 0, 0x9F000, 0, 1⟩, ⟨0x100000, 0, 0x32F00000, 0, 1⟩]

/-- The large map in a buffer at `0x9000`. -/
def largeRam : Ram where
  mem a := [0x14, 0, 0, 0, 0, 0, 0, 0, 0, 0, 0, 0, 0, 0xF0, 9, 0, 0, 0, 0, 0, 1, 0, 0, 0,
    0x14, 0, 0, 0, 0, 0, 0x10, 0, 0, 0, 0, 0, 0, 0, 0xF0, 0x32, 0, 0, 0, 0, 1, 0, 0, 0].getD
      (a - 0x9000) 0
  bitmap := 0
  bitmapSz := 0

/-- What is left to check for a map that has the low memory. -/
theorem accepted_sample {s : Ram} {mmap : Nat} {es : List MmapEntry} (hmap : HoldsMap s.mem mmap es)
    (hes : es.length = 2 ∧ ⟨0, 0, 0x9F000, 0, 1⟩ ∈ es) (hmmap : mmap + 48 < 2 ^ 32)
    (hwf : Pmm.WellFormed es)
    (hplace : placeBitmap (blocksBitmap (topAvailable es / blkSz)) es = some 0)
    (hapart : (topAvailable es / blkSz + 7) / 8 ≤ mmap)
    (hsz : 0x201200 ≤ topAvailable es / blkSz * blkSz) :
    Accepted s 3 (sampleInfo mmap) es 0 sampleSc2 sampleAp where
  map := hmap
  length := by rw [hes.1]; rfl
  below := hmmap
  fuel := by rw [hes.1]; decide
  wellFormed := hwf
  available := ⟨_, hes.2, rfl⟩
  place := hplace
  mapApart := .inr (by rw [Nat.zero_add]; exact hapart)
  image := show 0x180000 ≤ maxKernelMem by decide
  hasSc2 := show [sampleSc2, sampleAp].find? (fun m => m.name = "sc2.bin") = some sampleSc2 by decide
  hasAp := show [sampleSc2, sampleAp].find? (fun m => m.name = "bootap.bin") = some sampleAp by decide
  sc2Managed := le_trans (by decide) hsz
  apManaged := le_trans (by decide) hsz

theorem accepted_small :
    Accepted Pmm.sampleRam 3 (sampleInfo 0x5000) Pmm.sampleMap 0 sampleSc2 sampleAp :=
  accepted_sample ⟨by decide, by decide, by decide, by decide, trivial⟩ (by decide) (by decide)
    ⟨by decide, by decide, by decide, by decide, by decide⟩ (by decide) (by decide) (by decide)

theorem accepted_large : Accepted largeRam 3 (sampleInfo 0x9000) largeMap 0 sampleSc2 sampleAp :=
  accepted_sample ⟨by decide, by decide, by decide, by decide, trivial⟩ (by decide) (by decide)
    ⟨by decide, by decide, by decide, by decide, by decide⟩ (by decide) (by decide) (by decide)

theorem inDest_sample {x : Nat} (h : InDest sampleSc2 sampleAp x) :
    (0x3EE000 ≤ x ∧ x < 0x3EE400) ∨ (0x7000 ≤ x ∧ x < 0x7200) := by
  rcases h with ⟨j, hj, rfl⟩ | ⟨j, hj, rfl⟩
  · rw [show sampleSc2.len = 0x400 by decide] at hj
    rw [show module1Location = 0x3EE000 by decide]
    omega
  · rw [show sampleAp.len = 0x200 by decide] at hj
    rw [bootApLocation]
    omega

theorem dest_sample_apart (x : Nat) (h : Dest module1Location sampleSc2.len x) :
    ¬ Dest bootApLocation sampleAp.len x := by
  rintro ⟨k, hk, rfl⟩
  obtain ⟨j, hj, heq⟩ := h
  rw [show sampleSc2.len = 0x400 by decide] at hj
  rw [show sampleAp.len = 0x200 by decide] at hk
  rw [show module1Location = 0x3EE000 by decide, bootApLocation] at heq
  omega

theorem unreserved_low {mmap b : Nat} {es : List MmapEntry} (he : ⟨0, 0, 0x9F000, 0, 1⟩ ∈ es)
    (hsz : b < topAvailable es / blkSz) (hb : blocksBitmap (topAvailable es / blkSz) ≤ b)
    (hpos : 0 < b) (hlow : b < 0x9F) : Unreserved (sampleInfo mmap) es 0 sampleSc2 sampleAp b := by
  refine ⟨hpos, hsz, ?_⟩
  rintro (h | h | ⟨a, _, hab, hno⟩ | h | h | h)
  · omega
  · rw [Nat.zero_div] at h
    omega
  · refine hno _ he rfl ⟨Nat.zero_le a, ?_⟩
    rw [show MmapEntry.stop ⟨0, 0, 0x9F000, 0, 1⟩ = 0x9F000 by decide]
    unfold blkSz at hab
    omega
  · rw [sampleInfo, show markLo 0x100000 = 0x100 by decide] at h
    omega
  · rw [show markLo sampleSc2.start.toNat = 0x200 by decide] at h
    omega
  · rw [show markLo sampleAp.start.toNat = 0x201 by decide] at h
    omega

/-- With 8 MB the modules are kept. -/
theorem modules_kept_iff_small : ∃ s₁ s₂, Pmm.sampleRam.kmainSc2 3 (sampleInfo 0x5000) = .ok s₁ ∧
    s₁.kmainBootAp (sampleInfo 0x5000) = .ok s₂ ∧ ModulesKept s₁ s₂ sampleSc2 sampleAp := by
  have hmem : (⟨0, 0, 0x9F000, 0, 1⟩ : MmapEntry) ∈ Pmm.sampleMap := by decide
  have hsz : topAvailable Pmm.sampleMap / blkSz = 2048 := by decide
  have hblocks : blocksBitmap 2048 = 1 := by decide
  have hun : ∀ b, 0 < b → b < 0x9F →
      Unreserved (sampleInfo 0x5000) Pmm.sampleMap 0 sampleSc2 sampleAp b := fun b h1 h2 =>
    unreserved_low hmem (by rw [hsz]; omega) (by rw [hsz, hblocks]; omega) h1 h2
  obtain ⟨s₁, s₂, h₁, h₂, hiff⟩ := modules_kept_iff accepted_small
    (fun x hx hb => by rw [hsz, hblocks, blkSz] at hb; have := inDest_sample hx; omega)
    dest_sample_apart ⟨1, 2, by decide, hun 1 (by decide) (by decide), hun 2 (by decide) (by decide)⟩
  refine ⟨s₁, s₂, h₁, h₂, hiff.mpr fun x hx _ => ?_⟩
  have hx := inDest_sample hx
  refine ⟨?_, 1, 2, by decide, ?_, hun 1 (by decide) (by decide), hun 2 (by decide) (by decide)⟩
  · rw [blkSz]
    omega
  · rw [blkSz]
    omega

/-- With 816 MB `vmm_init` makes the frame of `bootap.bin` the page directory. -/
theorem not_modulesKept_large : ∃ s₁ s₂, largeRam.kmainSc2 3 (sampleInfo 0x9000) = .ok s₁ ∧
    s₁.kmainBootAp (sampleInfo 0x9000) = .ok s₂ ∧ s₂.vmmInit.1 = bootApLocation ∧
      ¬ ModulesKept s₁ s₂ sampleSc2 sampleAp := by
  have hmem : (⟨0, 0, 0x9F000, 0, 1⟩ : MmapEntry) ∈ largeMap := by decide
  have hsz : topAvailable largeMap / blkSz = 0x33000 := by decide
  have hblocks : blocksBitmap 0x33000 = 7 := by decide
  have hbitmap : ∀ x, InDest sampleSc2 sampleAp x →
      ¬ (0 ≤ x ∧ x < 0 + blocksBitmap (topAvailable largeMap / blkSz) * blkSz) := by
    intro x hx hb
    rw [hsz, hblocks, blkSz] at hb
    have := inDest_sample hx
    omega
  have hun : ∀ b, 7 ≤ b → b < 0x9F →
      Unreserved (sampleInfo 0x9000) largeMap 0 sampleSc2 sampleAp b := fun b h1 h2 =>
    unreserved_low hmem (by rw [hsz]; omega) (by rw [hsz, hblocks]; exact h1) (by omega) h2
  obtain ⟨s₁, s₂, h₁, h₂, hp, hbase, hsc2, hfree⟩ :=
    kmain_spec accepted_large hbitmap dest_sample_apart
  have hlow : Lowest s₂ 7 := by
    refine ⟨(hfree 7).mpr (hun 7 (by decide) (by decide)), fun j hj => Nat.le_of_not_lt fun hlt => ?_⟩
    refine ((hfree j).mp hj).2.2 (.inr (.inl ⟨Nat.zero_le j, ?_⟩))
    rw [hsz, hblocks, Nat.zero_div]
    omega
  refine ⟨s₁, s₂, h₁, h₂, (vmmGetPhysicalPage_spec hp hlow).1, fun hkept => ?_⟩
  rw [modulesKept_iff_alwaysSafe hsc2, alwaysSafe_iff hp ⟨7, 8, by decide,
    (hfree 7).mpr (hun 7 (by decide) (by decide)), (hfree 8).mpr (hun 8 (by decide) (by decide))⟩
    (fun x hx hb => hbitmap x hx (by rw [InBitmap, hbase] at hb; exact hb))] at hkept
  obtain ⟨_, j, k, hjk, hk, hj, _⟩ :=
    hkept 0x7000 (.inr ⟨0, by decide, by decide⟩) (by rw [blkSz]; exact hlow.1)
  have := hlow.2 j hj
  rw [blkSz] at hk
  omega

end Ram
end Frod
