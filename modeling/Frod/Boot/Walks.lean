import Frod.Lib.Walk
import Frod.Pmm.Place
import Frod.Smp.Discover

/-!
# Frod.Boot.Walks

The walks over tables that firmware and boot loader leave in memory: the records of the MADT, and the
entries of the memory map in `pmm_get_max_space` and in the passes of `init_pmm`. Each of them goes on
by a length it reads from the table, in 32-bit arithmetic, and checks nothing but the end.

A table `Fits` when its bytes are records, one behind the other, whose lengths are not 0 and stay in
the address space. `walks_of_fits`: over such a table the walks end and stay inside, and a table over
which they do is one, unless a length in it wraps. The marking pass of `init_pmm` reads the map again
while it sets bits, so there the bitmap must leave the entries alone, and no counter of its marking
loops may wrap.
-/

namespace Frod
namespace Boot

open StateTransition Bytes
open Pmm (blkSz blocksBitmap bitmapBase getMaxSpace Withheld lastBlock)
open Ram (entryAt nextEntry MapAt entryStep InEntry KeepsByte)

/-- Every record a loop looks at has its header, which is `h` bytes, between `lo` and `hi`. -/
def HeadersInside {σ : Type} (f : σ → Option σ) (pos : σ → Nat) (s : σ) (stop lo hi h : Nat) : Prop :=
  ∀ t, Reaches f s t → pos t < stop → lo ≤ pos t ∧ pos t + h ≤ hi

/-- The table from `lo` to `hi` lies in the address space, and from `start` on it consists of records,
each with a header of `h` bytes in the table and a length that is not 0 and does not wrap. Where the
end of the walk does not lie behind its start, there is nothing to fit. -/
def Fits (len : Nat → Nat) (h lo hi start : Nat) : Prop :=
  hi % 2 ^ 32 ≤ start ∨ lo ≤ start ∧ hi < 2 ^ 32 ∧ Records len h (2 ^ 32) hi start

/-- A length that the walk comes to leads beyond the end of the address space. -/
def Wraps (len : Nat → Nat) (hi start : Nat) : Prop :=
  ∃ p, Reaches (lengthStep len (2 ^ 32) (hi % 2 ^ 32)) start p ∧ p < hi % 2 ^ 32 ∧ 2 ^ 32 ≤ p + len p

section Table

variable {len : Nat → Nat} {h lo hi start : Nat}

theorem Fits.ends (hfits : Fits len h lo hi start) :
    Ends (lengthStep len (2 ^ 32) (hi % 2 ^ 32)) start := by
  rcases hfits with hstop | ⟨_, hhi, hrec⟩
  · exact ⟨start, .refl, recordStep_eq_none.mpr hstop⟩
  · rw [Nat.mod_eq_of_lt hhi]
    exact hrec.ends

theorem Fits.inside (hfits : Fits len h lo hi start) :
    HeadersInside (lengthStep len (2 ^ 32) (hi % 2 ^ 32)) id start (hi % 2 ^ 32) lo hi h := by
  intro p hp hlt
  rcases hfits with hstop | ⟨hlo, hhi, hrec⟩
  · rcases Relation.ReflTransGen.cases_head hp with rfl | ⟨u, hu, _⟩
    · exact absurd hstop (Nat.not_le.mpr hlt)
    · exact absurd hstop (Nat.not_le.mpr (recordStep_eq_some.mp hu).1)
  · rw [Nat.mod_eq_of_lt hhi] at hp hlt
    have hin := hrec.inside hp hlt
    exact ⟨hlo.trans hin.1, hin.2⟩

/-- A walk that ends and stays in its table has gone over a table that fits, or over a length that
wraps. -/
theorem fits_of_walk (hlo : lo < 2 ^ 32) (hhi : hi < lo + 2 ^ 32)
    (hends : Ends (lengthStep len (2 ^ 32) (hi % 2 ^ 32)) start)
    (hin : HeadersInside (lengthStep len (2 ^ 32) (hi % 2 ^ 32)) id start (hi % 2 ^ 32) lo hi h) :
    Fits len h lo hi start ∨ Wraps len hi start := by
  by_cases hstart : hi % 2 ^ 32 ≤ start
  · exact .inl (.inl hstart)
  · have hfirst : lo ≤ start := (hin start .refl (Nat.lt_of_not_le hstart)).1
    have hlt : hi < 2 ^ 32 := by omega
    by_cases hwrap : Wraps len hi start
    · exact .inr hwrap
    · refine .inl (.inr ⟨hfirst, hlt, ?_⟩)
      rw [Wraps] at hwrap
      rw [Nat.mod_eq_of_lt hlt] at hends hin hwrap
      refine records_of_ends hends (fun q hq hqlt => (hin q hq hqlt).2) fun q hq hqlt => ?_
      exact Nat.lt_of_not_le fun hle => hwrap ⟨q, hq, hqlt, hle⟩

end Table

/-! ## The MADT -/

section Madt

open Smp

/-- The record after the one at `p`. -/
def nextRecord (m : Mem) (p : Nat) : Nat := (p + rd m (p + 1) 1) % 2 ^ 32

/-- The end of the MADT at `a` and its first record, as `apic_find_cpus` computes them. -/
def madtStop (m : Mem) (a : Nat) : Nat := (a + rd m (a + 4) 4) % 2 ^ 32
def madtStart (a : Nat) : Nat := (a + madtSz) % 2 ^ 32

/-- `apic_find_cpus` returns, and reads the headers of records in the table at `a` only. -/
def ApicWalks (mem : Mem) (rsdt : Nat) (s₀ : Cpus) (a : Nat) : Prop :=
  (∃ fuel r, apicFindCpus fuel mem rsdt s₀ = .ok r) ∧
  ∀ tmp f, Pass mem (madtStop mem a) (madtStart a)
      ⟨{ s₀ with localApic := rd mem (a + sdthSz) 4 }, 0, 0⟩ tmp f →
    a ≤ tmp ∧ tmp + 2 ≤ a + rd mem (a + 4) 4

theorem apicLoop_fuelled (m : Mem) (stop : Nat) :
    Fuelled (recordStep (nextRecord m) stop) (apicLoop m stop) := by
  refine ⟨fun t f => ⟨.diverges, rfl⟩, fun t u f hu => ?_, fun t f hnone => ?_⟩
  · obtain ⟨hlt, rfl⟩ := recordStep_eq_some.mp hu
    exact ⟨apicRecord m t f, fun n => by rw [apicLoop, if_pos hlt, nextRecord]⟩
  · have hge := recordStep_eq_none.mp hnone
    exact ⟨f, fun n => by rw [apicLoop, if_neg (by omega)]⟩

/-- The loop of `find_sdt_entry`. -/
def sdtStep (m : Mem) (rsdt sig p : Nat) : Option Nat :=
  if p < (rsdt + rd m (rsdt + 4) 4) % 2 ^ 32 ∧ rd m (rd m p 4) 4 ≠ sig then some ((p + 4) % 2 ^ 32)
  else none

theorem findSdtLoop_fuelled (m : Mem) (rsdt sig : Nat) :
    Fuelled (sdtStep m rsdt sig) (fun n p (_ : Unit) => findSdtLoop m rsdt sig n p) := by
  refine ⟨fun t _ => ⟨.diverges, rfl⟩, fun t u _ hu => ⟨(), fun n => ?_⟩, fun t _ hnone => ?_⟩
  · rw [sdtStep] at hu
    split at hu
    · rename_i h
      obtain rfl := Option.some.inj hu
      rw [findSdtLoop, if_pos h.1]
      exact if_neg h.2
    · cases hu
  · rw [sdtStep] at hnone
    split at hnone
    · cases hnone
    · rename_i h
      by_cases hlt : t < (rsdt + rd m (rsdt + 4) 4) % 2 ^ 32
      · have hsig : rd m (rd m t 4) 4 = sig := by
          by_contra hne
          exact h ⟨hlt, hne⟩
        exact ⟨rd m t 4, fun n => by rw [findSdtLoop, if_pos hlt]; exact if_pos hsig⟩
      · exact ⟨0, fun n => by rw [findSdtLoop, if_neg hlt]⟩

/-- Once the table is found, `apic_find_cpus` returns exactly when its walk over the records ends. -/
theorem apicFindCpus_returns_iff {mem : Mem} {rsdt fuel₀ a : Nat} {s₀ : Cpus}
    (hfind : findSdtEntry fuel₀ mem rsdt apicSignature = .ok a) (ha : a ≠ 0) :
    (∃ fuel r, apicFindCpus fuel mem rsdt s₀ = .ok r) ↔
      Ends (recordStep (nextRecord mem) (madtStop mem a)) (madtStart a) := by
  have hsdt := findSdtLoop_fuelled mem rsdt apicSignature
  have hloop := apicLoop_fuelled mem (madtStop mem a)
  have hfound : ∀ k, findSdtEntry (fuel₀ + k) mem rsdt apicSignature = .ok a :=
    fun k => hsdt.mono (d := ()) hfind
  rw [← hloop.returns_iff_ends (d := ⟨{ s₀ with localApic := rd mem (a + sdthSz) 4 }, 0, 0⟩)]
  constructor
  · rintro ⟨fuel, r, hok⟩
    rw [apicFindCpus] at hok
    split at hok
    · cases hok
    · rename_i a' ha'
      -- with more fuel both searches find the same table
      have hsame : findSdtEntry (fuel + fuel₀) mem rsdt apicSignature = .ok a' :=
        hsdt.mono (d := ()) ha'
      rw [Nat.add_comm, hfound fuel] at hsame
      obtain rfl := Except.ok.inj hsame
      rw [if_neg ha] at hok
      dsimp only at hok
      split at hok
      · cases hok
      · rename_i f hf
        exact ⟨fuel, f, hf⟩
  · rintro ⟨fuel, f, hf⟩
    have hf' := hloop.mono (k := fuel₀) hf
    rw [Nat.add_comm] at hf'
    refine ⟨fuel₀ + fuel, ?_⟩
    rw [madtStop, madtStart] at hf'
    rw [apicFindCpus, hfound fuel]
    dsimp only
    rw [if_neg ha, hf']
    exact ⟨_, rfl⟩

/-- Where a pass begins is a record the walk comes to. -/
theorem exists_pass_iff {m : Mem} {stop tmp₀ tmp : Nat} {f₀ : Found} :
    (∃ f, Pass m stop tmp₀ f₀ tmp f) ↔ Reaches (recordStep (nextRecord m) stop) tmp₀ tmp ∧ tmp < stop := by
  constructor
  · rintro ⟨f, h⟩
    induction h with
    | first hlt => exact ⟨.refl, hlt⟩
    | next _ hlt ih => exact ⟨ih.1.tail (recordStep_eq_some.mpr ⟨ih.2, rfl⟩), hlt⟩
  · rintro ⟨h, hlt⟩
    induction h with
    | refl => exact ⟨f₀, .first hlt⟩
    | tail _ hu ih =>
      obtain ⟨hlt', rfl⟩ := recordStep_eq_some.mp hu
      obtain ⟨f, hf⟩ := ih hlt'
      exact ⟨_, hf.next hlt⟩

/-- The records of the MADT at `a` and their lengths. -/
def recordLength (m : Mem) (p : Nat) : Nat := rd m (p + 1) 1
def MadtFits (m : Mem) (a : Nat) : Prop :=
  Fits (recordLength m) 2 a (a + rd m (a + 4) 4) (madtStart a)

theorem findSdtLoop_lt {m : Mem} {rsdt sig a : Nat} : ∀ {fuel p : Nat},
    findSdtLoop m rsdt sig fuel p = .ok a → a < 2 ^ 32 := by
  intro fuel
  induction fuel with
  | zero => intro p h; cases h
  | succ fuel ih =>
    intro p h
    rw [findSdtLoop] at h
    split at h
    · dsimp only at h
      split at h
      · obtain rfl := Except.ok.inj h
        exact rd_lt m 4 p
      · exact ih h
    · obtain rfl := Except.ok.inj h
      exact Nat.two_pow_pos 32

theorem headersInside_iff_pass {mem : Mem} {a : Nat} {f₀ : Found} :
    (∀ tmp f, Pass mem (madtStop mem a) (madtStart a) f₀ tmp f →
      a ≤ tmp ∧ tmp + 2 ≤ a + rd mem (a + 4) 4) ↔
    HeadersInside (recordStep (nextRecord mem) (madtStop mem a)) id (madtStart a) (madtStop mem a) a
      (a + rd mem (a + 4) 4) 2 := by
  refine ⟨fun h t ht hlt => ?_, fun h tmp f hpass => ?_⟩
  · obtain ⟨f, hf⟩ := exists_pass_iff.mpr ⟨ht, hlt⟩
    exact h t f hf
  · obtain ⟨ht, hlt⟩ := exists_pass_iff.mp ⟨f, hpass⟩
    exact h tmp ht hlt

/-- A length of one byte wraps in the last bytes of the address space only, and leads to the first. -/
theorem madt_of_wraps {m : Mem} {a : Nat}
    (hwrap : Wraps (recordLength m) (a + rd m (a + 4) 4) (madtStart a))
    (hin : HeadersInside (recordStep (nextRecord m) (madtStop m a)) id (madtStart a) (madtStop m a) a
      (a + rd m (a + 4) 4) 2) :
    a < 255 ∧ 2 ^ 32 ≤ a + rd m (a + 4) 4 + 255 := by
  obtain ⟨p, hp, hlt, hle⟩ := hwrap
  have hlen : recordLength m p < 256 := rd_lt m 1 (p + 1)
  have hinside := (hin p hp hlt).2
  have hnext := hin ((p + recordLength m p) % 2 ^ 32) (hp.tail (recordStep_eq_some.mpr ⟨hlt, rfl⟩))
  simp only [id, madtStop] at hinside hnext
  omega

theorem apicWalks_of_fits {mem : Mem} {rsdt fuel a : Nat} {s₀ : Cpus}
    (hfind : findSdtEntry fuel mem rsdt apicSignature = .ok a) (ha : a ≠ 0) :
    (MadtFits mem a → ApicWalks mem rsdt s₀ a) ∧
    (ApicWalks mem rsdt s₀ a → MadtFits mem a ∨ a < 255 ∧ 2 ^ 32 ≤ a + rd mem (a + 4) 4 + 255) := by
  have hlt : a < 2 ^ 32 := findSdtLoop_lt hfind
  have hlen : rd mem (a + 4) 4 < 2 ^ 32 := rd_lt mem 4 (a + 4)
  rw [ApicWalks, apicFindCpus_returns_iff hfind ha, headersInside_iff_pass]
  refine ⟨fun hfits => ⟨hfits.ends, hfits.inside⟩, fun ⟨hends, hin⟩ => ?_⟩
  refine (fits_of_walk hlt (by omega) hends hin).imp_right fun hwrap => ?_
  exact madt_of_wraps hwrap hin

end Madt

/-! ## The memory map -/

section Map

open Ram (passStep Point placeLoop getMaxSpaceLoop)

/-- The entries of a map, and what their size fields lead on by. -/
def entryLength (m : Mem) (p : Nat) : Nat := (Ram.word m p).toNat + 4
def MapFits (m : Mem) (mmap len : Nat) : Prop := Fits (entryLength m) 4 mmap (mmap + len) mmap
def MapWraps (m : Mem) (mmap len : Nat) : Prop := Wraps (entryLength m) (mmap + len) mmap

/-- `pmm_get_max_space` returns, and reads the size fields of entries in the buffer only. -/
def GetMaxSpaceWalks (m : Mem) (mmap len : Nat) : Prop :=
  (∃ fuel r, getMaxSpaceLoop m ((mmap + len) % 2 ^ 32) fuel mmap 0 = .ok r) ∧
  HeadersInside (entryStep m ((mmap + len) % 2 ^ 32)) id mmap ((mmap + len) % 2 ^ 32) mmap
    (mmap + len) 4

theorem getMaxSpaceLoop_fuelled (m : Mem) (stop : Nat) :
    Fuelled (entryStep m stop) (getMaxSpaceLoop m stop) := by
  refine ⟨fun t max => ⟨.diverges, rfl⟩, fun t u max hu => ?_, fun t max hnone => ?_⟩
  · obtain ⟨hlt, rfl⟩ := recordStep_eq_some.mp hu
    exact ⟨_, fun n => by rw [getMaxSpaceLoop, if_pos hlt]⟩
  · have hge := recordStep_eq_none.mp hnone
    exact ⟨max, fun n => by rw [getMaxSpaceLoop, if_neg (by omega)]⟩

theorem mapAt_iff_ends {m : Mem} {stop p : Nat} :
    (∃ es, MapAt m stop p es) ↔ Ends (entryStep m stop) p := by
  rw [← (getMaxSpaceLoop_fuelled m stop).returns_iff_ends (d := 0)]
  constructor
  · rintro ⟨es, hes⟩
    exact ⟨_, _, hes.getMaxSpaceLoop (Nat.lt_succ_self _)⟩
  · rintro ⟨fuel, r, hok⟩
    obtain ⟨es, hes, _⟩ := Ram.mapAt_of_getMaxSpaceLoop hok
    exact ⟨es, hes⟩

theorem getMaxSpaceWalks_of_fits {m : Mem} {mmap len : Nat} (hmmap : mmap < 2 ^ 32) (hlen : len < 2 ^ 32) :
    (MapFits m mmap len → GetMaxSpaceWalks m mmap len) ∧
    (GetMaxSpaceWalks m mmap len → MapFits m mmap len ∨ MapWraps m mmap len) := by
  rw [GetMaxSpaceWalks, (getMaxSpaceLoop_fuelled m _).returns_iff_ends]
  exact ⟨fun hfits => ⟨hfits.ends, hfits.inside⟩,
    fun ⟨hends, hin⟩ => fits_of_walk hmmap (by omega) hends hin⟩

/-- The search for a place for the bitmap, which may stop earlier. -/
def placeStep (m : Mem) (stop blocks p : Nat) : Option Nat :=
  if p < stop ∧ bitmapBase blocks (entryAt m p) = none then some (nextEntry m p) else none

theorem placeStep_le {m : Mem} {stop blocks p q : Nat} (h : placeStep m stop blocks p = some q) :
    entryStep m stop p = some q := by
  rw [placeStep] at h
  split at h
  · rename_i hc
    exact recordStep_eq_some.mpr ⟨hc.1, Option.some.inj h⟩
  · cases h

/-- `init_pmm` returns, and reads the size fields of entries in the buffer only: in
`pmm_get_max_space`, in the search with the highest address that returned, and at every step of the
marking pass over memory with the bitmap placed. -/
def InitWalks (s : Ram) (mmap len : Nat) : Prop :=
  (∃ fuel r, s.initPmm fuel mmap len = .ok r) ∧
  HeadersInside (entryStep s.mem ((mmap + len) % 2 ^ 32)) id mmap ((mmap + len) % 2 ^ 32) mmap
    (mmap + len) 4 ∧
  (∀ fuel max, getMaxSpaceLoop s.mem ((mmap + len) % 2 ^ 32) fuel mmap 0 = .ok max →
    HeadersInside (placeStep s.mem ((mmap + len) % 2 ^ 32) (blocksBitmap (max / blkSz))) id mmap
      ((mmap + len) % 2 ^ 32) mmap (mmap + len) 4) ∧
  ∀ fuel max s', s.placePmm fuel mmap len = .ok (max, s') →
    HeadersInside (passStep s'.bitmap max ((mmap + len) % 2 ^ 32)) (fun t => t.1.copy)
      (.head mmap 0, s'.mem) ((mmap + len) % 2 ^ 32) mmap (mmap + len) 4

/-- `init_pmm` leaves the bytes of the entries alone. -/
def EntriesKept (s : Ram) (mmap len : Nat) (es : List MmapEntry) : Prop :=
  ∀ x, InEntry s.mem ((mmap + len) % 2 ^ 32) mmap x → KeepsByte s es x

/-- No range that is withheld makes the counter of its marking loop wrap. -/
def NoneWraps (es : List MmapEntry) : Prop := ∀ lo hi, Withheld es lo hi → hi ≤ lastBlock

theorem initWalks_of_fits {s : Ram} {mmap len : Nat} (hmmap : mmap < 2 ^ 32) (hlen : len < 2 ^ 32)
    (hbitmap : s.bitmap < 2 ^ 32) :
    (MapFits s.mem mmap len →
      (∀ es, MapAt s.mem ((mmap + len) % 2 ^ 32) mmap es → EntriesKept s mmap len es ∧ NoneWraps es) →
      InitWalks s mmap len) ∧
    (InitWalks s mmap len → (MapFits s.mem mmap len ∨ MapWraps s.mem mmap len) ∧
      ∀ es, MapAt s.mem ((mmap + len) % 2 ^ 32) mmap es → EntriesKept s mmap len es → NoneWraps es) := by
  constructor
  · intro hfits hmap
    obtain ⟨es, hes⟩ := mapAt_iff_ends.mpr hfits.ends
    obtain ⟨hkept, hnone⟩ := hmap es hes
    refine ⟨?_, hfits.inside, fun fuel max _ t ht hlt => ?_, fun fuel max s' hok t ht hlt => ?_⟩
    · rcases Ram.initPmm_kept (Ram.bitmapAt_lt hbitmap es) hes hkept (Nat.lt_succ_self _) with
        ⟨a, _, hok, _⟩ | ⟨⟨lo, hi, h, hlast⟩, _⟩
      · exact ⟨_, _, hok⟩
      · exact absurd (hnone lo hi h) (Nat.not_le.mpr hlast)
    · -- the search goes the way of `pmm_get_max_space`
      exact hfits.inside t (reaches_mono (fun _ _ => placeStep_le) ht) hlt
    · -- and so does the marking pass, over entries that it leaves alone
      obtain ⟨es', ⟨hes', _⟩, rfl, rfl⟩ := Ram.placePmm_eq_ok hok
      obtain rfl := hes.unique hes'
      rw [Ram.placed_eq] at ht
      obtain ⟨_, _, _, hway⟩ :=
        Ram.keeps_of_keepsByte (Ram.bitmapAt_lt hbitmap _) hes (fun _ => Ram.inEntry_lt) (fun _ hx => hx) hkept ht
      exact hfits.inside t.1.copy hway.reaches hlt
  · rintro ⟨⟨fuel, ⟨max, s'⟩, hok⟩, hin, _, _⟩
    refine ⟨?_, fun es hes hkept => (Ram.initPmm_kept_ok (Ram.bitmapAt_lt hbitmap es) hes hkept hok).1⟩
    rw [Ram.initPmm_eq] at hok
    obtain ⟨_, hplace, _⟩ := Machine.bind_eq_ok.mp hok
    obtain ⟨es, ⟨hes, _⟩, _⟩ := Ram.placePmm_eq_ok hplace
    exact fits_of_walk hmmap (by omega) (mapAt_iff_ends.mp ⟨es, hes⟩) hin

end Map

/-- Each walk over a table that fits ends and stays in it; a table over which a walk does fits, unless a
length wraps. For the marking pass of `init_pmm` the entries must be left alone by what it writes, and
then no counter of its loops may wrap. -/
theorem walks_of_fits (s : Ram) (rsdt fuel a mmap len : Nat) (s₀ : Smp.Cpus) :
    (Smp.findSdtEntry fuel s.mem rsdt Smp.apicSignature = .ok a → a ≠ 0 →
      (MadtFits s.mem a → ApicWalks s.mem rsdt s₀ a) ∧
      (ApicWalks s.mem rsdt s₀ a →
        MadtFits s.mem a ∨ a < 255 ∧ 2 ^ 32 ≤ a + rd s.mem (a + 4) 4 + 255)) ∧
    (mmap < 2 ^ 32 → len < 2 ^ 32 →
      (MapFits s.mem mmap len → GetMaxSpaceWalks s.mem mmap len) ∧
      (GetMaxSpaceWalks s.mem mmap len → MapFits s.mem mmap len ∨ MapWraps s.mem mmap len)) ∧
    (mmap < 2 ^ 32 → len < 2 ^ 32 → s.bitmap < 2 ^ 32 →
      (MapFits s.mem mmap len →
        (∀ es, MapAt s.mem ((mmap + len) % 2 ^ 32) mmap es → EntriesKept s mmap len es ∧ NoneWraps es) →
        InitWalks s mmap len) ∧
      (InitWalks s mmap len → (MapFits s.mem mmap len ∨ MapWraps s.mem mmap len) ∧
        ∀ es, MapAt s.mem ((mmap + len) % 2 ^ 32) mmap es → EntriesKept s mmap len es → NoneWraps es)) :=
  ⟨fun hfind ha => apicWalks_of_fits hfind ha, fun h1 h2 => getMaxSpaceWalks_of_fits h1 h2,
    fun h1 h2 h3 => initWalks_of_fits h1 h2 h3⟩

/-! ## Sample tables -/

/-- The tables with two processors, and the small map. -/
theorem walks_of_fits_sample : ApicWalks (Smp.sampleTables 1) 0x1000 Smp.zeroCpus 0x2000 ∧
    GetMaxSpaceWalks Pmm.sampleRam.mem 0x5000 48 ∧ InitWalks Pmm.sampleRam 0x5000 48 := by
  have hfits : MapFits Pmm.sampleRam.mem 0x5000 48 := by
    refine .inr ⟨Nat.le_refl _, by decide, ?_⟩
    refine .record (by decide) (Nat.succ_pos _) (by decide) ?_
    rw [show 0x5000 + entryLength Pmm.sampleRam.mem 0x5000 = 0x5018 by decide]
    refine .record (by decide) (Nat.succ_pos _) (by decide) ?_
    exact .done (by decide)
  have hmap := walks_of_fits Pmm.sampleRam 0 0 0 0x5000 48 Smp.zeroCpus
  refine ⟨?_, ?_, ?_⟩
  · refine ((walks_of_fits ⟨Smp.sampleTables 1, 0, 0⟩ 0x1000 _ 0x2000 0 0 _).1 (Smp.sample_find 1)
      (by decide)).1 (.inr ⟨by decide, by decide, ?_⟩)
    refine .record (by decide) (by decide) (by decide) ?_
    rw [show madtStart 0x2000 + recordLength (Smp.sampleTables 1) (madtStart 0x2000) = 0x2034 by decide]
    refine .record (by decide) (by decide) (by decide) ?_
    exact .done (by decide)
  · exact (hmap.2.1 (by decide) (by decide)).1 hfits
  · refine (hmap.2.2 (by decide) (by decide) (by decide)).1 hfits fun es hes => ?_
    obtain rfl := hes.unique (Ram.sample_holdsMap.mapAt (by decide) (by decide))
    refine ⟨fun x hx => ?_, fun lo hi hw => ?_⟩
    · obtain ⟨h1, h2⟩ := Ram.sample_holdsMap.inMap (by decide) (by decide) (.inr hx)
      exact Ram.sample_keepsByte h1 h2
    · rw [Pmm.withheld_iff, show Pmm.markedRanges (getMaxSpace Pmm.sampleMap) 0 Pmm.sampleMap =
        [(0x9F000, 0x100000)] by decide, List.mem_singleton] at hw
      obtain ⟨_, rfl⟩ := Prod.mk.inj hw
      decide

/-- An RSDT at 0x1000 with a MADT at 0x2000 whose only record has length 0. -/
def stuckTables : Mem := fun x =>
  if x = 0x1004 then 40 else if x = 0x1025 then 0x20
  else if x = 0x2000 then 0x41 else if x = 0x2001 then 0x50 else if x = 0x2002 then 0x49
  else if x = 0x2003 then 0x43 else if x = 0x2004 then 52 else 0

/-- A map at 0x5000 whose first entry has the size -4. -/
def stuckMap : Mem := fun x => if x = 0x5000 then 0xFC else if x < 0x5004 then 0xFF else 0

/-- None of the three walks ends. -/
theorem not_walks_stuck :
    (Smp.findSdtEntry 2 stuckTables 0x1000 Smp.apicSignature = .ok 0x2000 ∧
      ¬ ApicWalks stuckTables 0x1000 Smp.zeroCpus 0x2000) ∧
    ¬ GetMaxSpaceWalks stuckMap 0x5000 48 ∧ ¬ InitWalks ⟨stuckMap, 0, 0⟩ 0x5000 48 := by
  have hfind : Smp.findSdtEntry 2 stuckTables 0x1000 Smp.apicSignature = .ok 0x2000 := by decide
  have hself : entryStep stuckMap ((0x5000 + 48) % 2 ^ 32) 0x5000 = some 0x5000 :=
    recordStep_eq_some.mpr (by decide)
  refine ⟨⟨hfind, fun h => ?_⟩, fun h => ?_, fun h => ?_⟩
  · have hends := (apicFindCpus_returns_iff hfind (by decide)).mp h.1
    exact not_ends_of_self (recordStep_eq_some.mpr (by decide)) hends
  · exact not_ends_of_self hself ((getMaxSpaceLoop_fuelled _ _).returns_iff_ends.mp h.1)
  · obtain ⟨⟨fuel, r, hok⟩, _⟩ := h
    rw [Ram.initPmm_eq] at hok
    obtain ⟨_, hplace, _⟩ := Machine.bind_eq_ok.mp hok
    obtain ⟨es, ⟨hes, _⟩, _⟩ := Ram.placePmm_eq_ok hplace
    exact not_ends_of_self hself (mapAt_iff_ends.mp ⟨es, hes⟩)

end Boot
end Frod
