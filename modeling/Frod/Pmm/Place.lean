import Frod.Pmm.Pass

/-!
# Frod.Pmm.Place

What `init_pmm` does to the memory map, from the placement of the bitmap to the last bit it sets.

The bitmap goes to the first entry with enough room, and nothing looks where the map itself is. So the
bytes of the map may be cleared before the marking pass reads them, and may change while it does.
`keepsMap_iff` says of the bytes which of them survive. Addresses wrap, as the bitmap's may.
-/

namespace Frod
namespace Ram

open StateTransition BitArray Bytes
open Pmm (blkSz alignDownwards alignUpwards pmmBytes blocksBitmap bitmapBase placeBitmap getMaxSpace
  lowTop home ownCount Own Marked Withheld Sweeps markedRanges lastBlock)

/-- `init_pmm` before the marking pass: the highest address, and memory with the bitmap placed. -/
def placePmm (s : Ram) (fuel mmap len : Nat) : Except Stop (Nat × Ram) := do
  let stop := (mmap + len) % 2 ^ 32
  let max ← getMaxSpaceLoop s.mem stop fuel mmap 0
  let sz := max / blkSz
  let s : Ram := match ← placeLoop s.mem stop (blocksBitmap sz) fuel mmap with
    | some base =>
      let m := clearBytes s.mem base (pmmBytes sz)
      ⟨setBlocks base m (base / blkSz) (blocksBitmap sz), base, sz⟩
    | none => ⟨s.mem, s.bitmap, sz⟩
  return (max, s)

theorem initPmm_eq (s : Ram) (fuel mmap len : Nat) :
    s.initPmm fuel mmap len = (do
      let (max, s) ← s.placePmm fuel mmap len
      let m ← markWalk s.bitmap max ((mmap + len) % 2 ^ 32) fuel mmap 0 s.mem
      return (max, { s with mem := bitmapSet s.bitmap m 0 })) := by
  rw [initPmm, placePmm]
  dsimp only
  cases getMaxSpaceLoop s.mem ((mmap + len) % 2 ^ 32) fuel mmap 0 with
  | error e => rfl
  | ok max =>
    rw [Machine.ok_bind, Machine.ok_bind]
    cases placeLoop s.mem ((mmap + len) % 2 ^ 32) (blocksBitmap (max / blkSz)) fuel mmap with
    | error e => rfl
    | ok base => rfl

/-- Memory and the globals after the bitmap was placed for the entries `es`. -/
def placed (s : Ram) (es : List MmapEntry) : Ram :=
  let sz := getMaxSpace es / blkSz
  match placeBitmap (blocksBitmap sz) es with
  | some base => ⟨setBlocks base (clearBytes s.mem base (pmmBytes sz)) (base / blkSz) (blocksBitmap sz),
      base, sz⟩
  | none => ⟨s.mem, s.bitmap, sz⟩

theorem placePmm_of_mapAt {s : Ram} {mmap len fuel : Nat} {es : List MmapEntry}
    (h : MapAt s.mem ((mmap + len) % 2 ^ 32) mmap es) (hfuel : es.length < fuel) :
    s.placePmm fuel mmap len = .ok (getMaxSpace es, s.placed es) := by
  refine Machine.bind_eq_ok.mpr ⟨_, h.getMaxSpaceLoop hfuel, ?_⟩
  exact Machine.bind_eq_ok.mpr ⟨_, h.placeLoop _ hfuel, rfl⟩

theorem placePmm_eq_ok {s s' : Ram} {mmap len fuel max : Nat}
    (h : s.placePmm fuel mmap len = .ok (max, s')) :
    ∃ es, (MapAt s.mem ((mmap + len) % 2 ^ 32) mmap es ∧ es.length < fuel) ∧
      max = getMaxSpace es ∧ s' = s.placed es := by
  obtain ⟨r, hr, _⟩ := Machine.bind_eq_ok.mp h
  obtain ⟨es, hes, hfuel⟩ := mapAt_of_getMaxSpaceLoop hr
  rw [placePmm_of_mapAt hes hfuel] at h
  obtain ⟨rfl, rfl⟩ := Prod.mk.inj (Except.ok.inj h)
  exact ⟨es, ⟨hes, hfuel⟩, rfl, rfl⟩

/-! ## The placement as a bitmap laid over memory -/

/-- Where `pmm_bitmap` points after the placement, how many of its bytes were cleared, and the bits
that were set. -/
def bitmapAt (s : Ram) (es : List MmapEntry) : Nat := (home es).getD s.bitmap
def cleared (es : List MmapEntry) : Nat := (home es).elim 0 fun _ => pmmBytes (lowTop es / blkSz)
def ownBits (es : List MmapEntry) : BitArray :=
  (home es).elim (fun _ => 0) fun base => setRange (fun _ => 0) (base / blkSz) (ownCount es)

section Placed

variable {base x : Nat}

theorem clearBytes_wrap (m : Mem) (hbase : base < 2 ^ 32) (hx : x < 2 ^ 32) : ∀ {k : Nat},
    k ≤ 2 ^ 32 → clearBytes m base k x = if byteNo base x < k then 0 else m x := by
  intro k
  induction k with
  | zero => intro _; rw [clearBytes, if_neg (Nat.not_lt_zero _)]
  | succ k ih =>
    intro hk
    have hiff := eq_iff_byteNo hbase hx (show k < 2 ^ 32 by omega)
    rw [clearBytes, Function.update_apply, ih (by omega)]
    by_cases heq : x = (base + k) % 2 ^ 32
    · rw [if_pos heq, if_pos (by omega)]
    · rw [if_neg heq]
      exact if_congr (by omega) rfl rfl

theorem clearBytes_above (m : Mem) (hx : ¬ x < 2 ^ 32) : ∀ k, clearBytes m base k x = m x := by
  intro k
  induction k with
  | zero => rfl
  | succ k ih => rw [clearBytes, Function.update_of_ne (by omega), ih]

theorem clearBytes_eq (m : Mem) (hbase : base < 2 ^ 32) {k : Nat} (hk : k ≤ 2 ^ 32) :
    clearBytes m base k = overlay m base k fun _ => 0 := by
  funext x
  rw [overlay]
  split
  · rename_i hx
    rw [clearBytes_wrap m hbase hx hk]
    exact BitVec.or_zero.symm
  · rename_i hx
    exact clearBytes_above m hx k

theorem setBlocks_overlay {m : Mem} {k : Nat} (hbase : base < 2 ^ 32) : ∀ {n lo : Nat} {a : BitArray},
    lo + n ≤ 2 ^ 32 →
      setBlocks base (overlay m base k a) lo n = overlay m base k (setRange a lo n) := by
  intro n
  induction n with
  | zero => intro lo a _; rfl
  | succ n ih =>
    intro lo a hlo
    rw [setBlocks, overlay_bitmapSet hbase (by omega), ih (by omega), setRange]

end Placed

theorem isSet_zero (b : Nat) : isSet (fun _ => 0) b = false := by
  rw [isSet_eq_getLsbD]
  simp

theorem isSet_ownBits {es : List MmapEntry} {b : Nat} : isSet (ownBits es) b = true ↔ Own es b := by
  rw [ownBits, Own]
  cases home es with
  | none =>
    rw [Option.elim_none, isSet_zero]
    exact ⟨nofun, fun ⟨_, h, _⟩ => nomatch h⟩
  | some base =>
    rw [Option.elim_some, isSet_setRange, isSet_zero]
    constructor
    · rintro (h | h)
      · exact ⟨base, rfl, h⟩
      · cases h
    · rintro ⟨base', h, h1⟩
      obtain rfl := Option.some.inj h
      exact .inl h1

theorem pmmBytes_le (es : List MmapEntry) : pmmBytes (lowTop es / blkSz) ≤ 2 ^ 17 := by
  have := Pmm.lowTop_lt es
  unfold pmmBytes blkSz
  split <;> omega

theorem ownCount_le (es : List MmapEntry) : ownCount es ≤ 2 ^ 6 := by
  have := Pmm.lowTop_lt es
  unfold ownCount blocksBitmap pmmBytes blkSz
  split <;> split <;> omega

theorem cleared_le (es : List MmapEntry) : cleared es ≤ 2 ^ 17 := by
  rw [cleared]
  cases home es with
  | none => exact Nat.zero_le _
  | some base => exact pmmBytes_le es

section Start

variable {s : Ram}

theorem bitmapAt_lt (hbitmap : s.bitmap < 2 ^ 32) (es : List MmapEntry) : s.bitmapAt es < 2 ^ 32 := by
  rw [bitmapAt]
  cases h : home es with
  | none => exact hbitmap
  | some base => exact Pmm.home_lt h

theorem placed_eq (es : List MmapEntry) : s.placed es =
    ⟨overlay s.mem (s.bitmapAt es) (cleared es) (ownBits es), s.bitmapAt es, lowTop es / blkSz⟩ := by
  have hbytes := pmmBytes_le es
  have hcount := ownCount_le es
  rw [placed, Pmm.placeBitmap_eq, Pmm.getMaxSpace_eq, bitmapAt, cleared, ownBits]
  cases h : home es with
  | none =>
    have hsame : overlay s.mem s.bitmap 0 (fun _ => 0) = s.mem := by
      funext x
      rw [overlay, if_neg (Nat.not_lt_zero _)]
      split
      · exact BitVec.or_zero
      · rfl
    rw [Option.getD_none, Option.elim_none, Option.elim_none, hsame]
  | some base =>
    have hbase := Pmm.home_lt h
    have hlo : base / blkSz + ownCount es ≤ 2 ^ 32 := by
      simp only [blkSz]
      omega
    rw [Option.getD_some, Option.elim_some, Option.elim_some, ← setBlocks_overlay hbase hlo,
      ← clearBytes_eq s.mem hbase (by omega)]
    rfl

end Start

/-! ## The bytes that are kept -/

/-- The byte at `x` keeps what it holds: every bit that `init_pmm` sets in it is set already, and if it
is one of the bytes that are cleared before, the bitmap's own blocks are all that it has set. -/
structure KeepsByte (s : Ram) (es : List MmapEntry) (x : Nat) : Prop where
  set : ∀ b, Marked es b → b / 8 = byteNo (s.bitmapAt es) x → (s.mem x).getLsbD (b % 8) = true
  clear : byteNo (s.bitmapAt es) x < cleared es → ∀ b, b / 8 = byteNo (s.bitmapAt es) x →
    (s.mem x).getLsbD (b % 8) = true → Own es b

/-- A byte in which nothing is set or cleared. -/
theorem keepsByte_of_apart {s : Ram} {es : List MmapEntry} {x : Nat}
    (hcleared : cleared es ≤ byteNo (s.bitmapAt es) x)
    (hmarked : ∀ b, Marked es b → b / 8 ≠ byteNo (s.bitmapAt es) x) : KeepsByte s es x :=
  ⟨fun b hb heq => absurd heq (hmarked b hb), fun hlt => absurd hlt (Nat.not_lt.mpr hcleared)⟩

/-- Behind the first `0x20008` bytes from `pmm_bitmap` on nothing is set or cleared. -/
theorem keepsByte_of_far {s : Ram} {es : List MmapEntry} {x : Nat}
    (hfar : 0x20008 ≤ byteNo (s.bitmapAt es) x) : KeepsByte s es x := by
  have hcleared := cleared_le es
  have hcount := ownCount_le es
  refine keepsByte_of_apart (by omega) fun b hb => ?_
  have hlt : b < 2 ^ 20 + 2 ^ 6 := by
    rcases hb with rfl | ⟨base, hbase, _, h2⟩ | ⟨lo, hi, h, hb⟩
    · decide
    · have hbase := Pmm.home_lt hbase
      simp only [blkSz] at h2
      omega
    · have := hb.lt h.lt
      omega
  omega

/-- The bits of the bitmap at some time after it was placed. -/
structure Between (es : List MmapEntry) (a : BitArray) : Prop where
  marked : ∀ b, isSet a b = true → Marked es b
  own : ∀ b, Own es b → isSet a b = true

theorem between_ownBits (es : List MmapEntry) : Between es (ownBits es) :=
  ⟨fun _ hb => .inr (.inl (isSet_ownBits.mp hb)), fun _ hb => isSet_ownBits.mpr hb⟩

theorem Between.set {es : List MmapEntry} {a : BitArray} (h : Between es a) {b : Nat}
    (hb : Marked es b) : Between es (set a b) := by
  refine ⟨fun c hc => ?_, fun c hc => (isSet_set a b c).mpr (.inr (h.own c hc))⟩
  rcases (isSet_set a b c).mp hc with rfl | hc
  · exact hb
  · exact h.marked c hc

section Kept

variable {s : Ram} {es : List MmapEntry} {mmap stop : Nat} {D : Nat → Prop}

theorem Between.same {a : BitArray} (h : Between es a) (hlt : ∀ x, D x → x < 2 ^ 32)
    (hkeeps : ∀ x, D x → KeepsByte s es x) :
    Same D s.mem (overlay s.mem (s.bitmapAt es) (cleared es) a) := by
  intro x hx
  refine (overlay_eq_iff (hlt x hx)).mpr fun b hb => ⟨fun ha => ?_, fun hn hm => ?_⟩
  · exact (hkeeps x hx).set b (h.marked b ha) hb
  · exact h.own b ((hkeeps x hx).clear hn b hb hm)

theorem covers_marked (es : List MmapEntry) : Covers (Marked es) (markedRanges (getMaxSpace es) 0 es) :=
  fun r hr _ hb => .inr (.inr ⟨r.1, r.2, Pmm.withheld_iff.mpr hr, hb⟩)

/-- If the bytes of the entries are kept, so they are all the way of the pass, with the rest of `D`. -/
theorem keeps_of_keepsByte (hptr : s.bitmapAt es < 2 ^ 32) (hes : MapAt s.mem stop mmap es)
    (hlt : ∀ x, D x → x < 2 ^ 32) (hD : ∀ x, InEntry s.mem stop mmap x → D x)
    (hkeeps : ∀ x, D x → KeepsByte s es x) {t : Point × Mem}
    (ht : Reaches (passStep (s.bitmapAt es) (getMaxSpace es) stop)
      (.head mmap 0, overlay s.mem (s.bitmapAt es) (cleared es) (ownBits es)) t) :
    ∃ a, t.2 = overlay s.mem (s.bitmapAt es) (cleared es) a ∧ Between es a ∧
      OnWay (Marked es) s.mem (getMaxSpace es) stop mmap t.1 :=
  pass_onWay hptr hD (fun _ ha => ha.same hlt hkeeps) (fun _ _ ha hb => ha.set hb)
    hes (covers_marked es) (between_ownBits es) ht

theorem inEntry_lt {m : Mem} {x : Nat} (h : InEntry m stop mmap x) : x < 2 ^ 32 := by
  obtain ⟨p, _, _, k, _, rfl⟩ := h
  exact Nat.mod_lt _ (by decide)

end Kept

/-! ## `init_pmm` on a map that is kept -/

section Init

variable {s : Ram} {es : List MmapEntry} {mmap len fuel : Nat} (hptr : s.bitmapAt es < 2 ^ 32)
  (hes : MapAt s.mem ((mmap + len) % 2 ^ 32) mmap es)

theorem initPmm_of_mapAt (hes : MapAt s.mem ((mmap + len) % 2 ^ 32) mmap es) (hfuel : es.length < fuel) :
    s.initPmm fuel mmap len = (do
      let m ← markWalk (s.bitmapAt es) (getMaxSpace es) ((mmap + len) % 2 ^ 32) fuel mmap 0
        (overlay s.mem (s.bitmapAt es) (cleared es) (ownBits es))
      return (lowTop es, ⟨bitmapSet (s.bitmapAt es) m 0, s.bitmapAt es, lowTop es / blkSz⟩)) := by
  rw [initPmm_eq, placePmm_of_mapAt hes hfuel, placed_eq, Machine.ok_bind, Pmm.getMaxSpace_eq]

include hptr hes

/-- As long as the marking pass leaves the entries alone, `init_pmm` sets what is `Marked`, or never
returns because a counter wraps. -/
theorem initPmm_keeps {D : Nat → Prop} (hD : ∀ x, InEntry s.mem ((mmap + len) % 2 ^ 32) mmap x → D x)
    (hkeeps : Keeps D s.mem (s.bitmapAt es) (getMaxSpace es) ((mmap + len) % 2 ^ 32)
      (.head mmap 0, overlay s.mem (s.bitmapAt es) (cleared es) (ownBits es)))
    (hfuel : es.length < fuel) :
    (∃ a, (∀ lo hi, Withheld es lo hi → hi ≤ lastBlock) ∧
      s.initPmm fuel mmap len = .ok (lowTop es,
        ⟨overlay s.mem (s.bitmapAt es) (cleared es) a, s.bitmapAt es, lowTop es / blkSz⟩) ∧
      ∀ b, isSet a b = true ↔ Marked es b) ∨
    ((∃ lo hi, Withheld es lo hi ∧ lastBlock < hi) ∧ s.initPmm fuel mmap len = .error .diverges) := by
  have hwalk := (markWalk_same hptr hD hes .refl (Nat.two_pow_pos 32) hfuel hkeeps).2
  rw [initPmm_of_mapAt hes hfuel, hwalk, Pmm.markEntries_eq]
  by_cases hwrap : ∀ r ∈ markedRanges (getMaxSpace es) 0 es, r.2 ≤ lastBlock
  · obtain ⟨a, ha, hbits⟩ := Pmm.markRanges_ok (ownBits es) hwrap
    refine .inl ⟨set a 0, fun lo hi h => hwrap _ (Pmm.withheld_iff.mp h), ?_, fun b => ?_⟩
    · rw [ha, ← overlay_bitmapSet hptr (Nat.two_pow_pos 32)]
      rfl
    · rw [isSet_set, hbits, isSet_ownBits, Marked, or_comm (b := Own es b)]
      refine or_congr_right (or_congr_right ?_)
      constructor
      · rintro ⟨r, hr, hm⟩
        exact ⟨r.1, r.2, Pmm.withheld_iff.mpr hr, .inl hm⟩
      · rintro ⟨lo, hi, h, hm | ⟨hlast, _⟩⟩
        · exact ⟨(lo, hi), Pmm.withheld_iff.mp h, hm⟩
        · exact absurd (hwrap _ (Pmm.withheld_iff.mp h)) (Nat.not_le.mpr hlast)
  · simp only [not_forall, Nat.not_le] at hwrap
    obtain ⟨r, hr, hlast⟩ := hwrap
    refine .inr ⟨⟨r.1, r.2, Pmm.withheld_iff.mpr hr, hlast⟩, ?_⟩
    rw [Pmm.markRanges_diverges _ (Pmm.markedRanges_lt (by decide)) ⟨r, hr, hlast⟩]
    rfl

/-- On a map that is kept `init_pmm` returns when no counter wraps, -/
theorem initPmm_kept (hkept : ∀ x, InEntry s.mem ((mmap + len) % 2 ^ 32) mmap x → KeepsByte s es x)
    (hfuel : es.length < fuel) :
    (∃ a, (∀ lo hi, Withheld es lo hi → hi ≤ lastBlock) ∧
      s.initPmm fuel mmap len = .ok (lowTop es,
        ⟨overlay s.mem (s.bitmapAt es) (cleared es) a, s.bitmapAt es, lowTop es / blkSz⟩) ∧
      ∀ b, isSet a b = true ↔ Marked es b) ∨
    ((∃ lo hi, Withheld es lo hi ∧ lastBlock < hi) ∧ s.initPmm fuel mmap len = .error .diverges) := by
  refine initPmm_keeps hptr hes (fun _ hx => hx) (fun t ht => ?_) hfuel
  obtain ⟨a, ha, hbetween, _⟩ := keeps_of_keepsByte hptr hes (fun _ => inEntry_lt) (fun _ hx => hx) hkept ht
  rw [ha]
  exact hbetween.same (fun _ => inEntry_lt) hkept

/-- and when it has returned, none has. -/
theorem initPmm_kept_ok (hkept : ∀ x, InEntry s.mem ((mmap + len) % 2 ^ 32) mmap x → KeepsByte s es x)
    {max : Nat} {s' : Ram} (hok : s.initPmm fuel mmap len = .ok (max, s')) :
    (∀ lo hi, Withheld es lo hi → hi ≤ lastBlock) ∧
      ∃ a, s' = ⟨overlay s.mem (s.bitmapAt es) (cleared es) a, s.bitmapAt es, lowTop es / blkSz⟩ ∧
        ∀ b, isSet a b = true ↔ Marked es b := by
  have hfuel : es.length < fuel := by
    rw [initPmm_eq] at hok
    obtain ⟨_, hplace, _⟩ := Machine.bind_eq_ok.mp hok
    obtain ⟨es', ⟨hes', hfuel⟩, _⟩ := placePmm_eq_ok hplace
    rwa [hes'.unique hes]
  rcases initPmm_kept hptr hes hkept hfuel with ⟨a, hwrap, hinit, hbits⟩ | ⟨_, hinit⟩
  · obtain ⟨_, rfl⟩ := Prod.mk.inj (Except.ok.inj (hinit.symm.trans hok))
    exact ⟨hwrap, a, rfl, hbits⟩
  · rw [hok] at hinit
    cases hinit

end Init

/-! ## The map -/

/-- The byte at `x` belongs to the map: to its buffer, or to an entry that the size fields lead to. -/
def InMap (m : Mem) (mmap len x : Nat) : Prop :=
  (mmap ≤ x ∧ x < mmap + len) ∨ InEntry m ((mmap + len) % 2 ^ 32) mmap x

/-- In `m'` every byte of the buffer is as it was in `m`, and the entries read the same. -/
def SameMap (m : Mem) (mmap len : Nat) (m' : Mem) : Prop :=
  (∀ x, mmap ≤ x → x < mmap + len → m' x = m x) ∧
  ∀ p, Reaches (entryStep m ((mmap + len) % 2 ^ 32)) mmap p → p < (mmap + len) % 2 ^ 32 →
    entryAt m' p = entryAt m p ∧ nextEntry m' p = nextEntry m p

/-- `init_pmm` leaves the map alone: from the placement of the bitmap on, at every step of the marking
pass, and when it returns. -/
def KeepsMap (s : Ram) (mmap len : Nat) : Prop :=
  (∀ fuel max s', s.placePmm fuel mmap len = .ok (max, s') →
    ∀ t, Reaches (passStep s'.bitmap max ((mmap + len) % 2 ^ 32)) (.head mmap 0, s'.mem) t →
      SameMap s.mem mmap len t.2) ∧
  ∀ fuel max s', s.initPmm fuel mmap len = .ok (max, s') → SameMap s.mem mmap len s'.mem

theorem sameMap_iff {m m' : Mem} {mmap len : Nat} :
    SameMap m mmap len m' ↔ Same (InMap m mmap len) m m' := by
  constructor
  · rintro ⟨hbuf, hentry⟩ x (⟨h1, h2⟩ | ⟨p, hp, hlt, k, hk, rfl⟩)
    · exact hbuf x h1 h2
    · obtain ⟨h1, h2⟩ := hentry p hp hlt
      exact bytes_of_entryAt h1 h2 k hk
  · intro h
    refine ⟨fun x h1 h2 => h x (.inl ⟨h1, h2⟩), fun p hp hlt => entryAt_of_bytes fun k hk => ?_⟩
    exact h _ (.inr ⟨p, hp, hlt, k, hk, rfl⟩)

section KeepsMap

variable {s : Ram} {es : List MmapEntry} {mmap len : Nat}

theorem KeepsMap.keeps (h : KeepsMap s mmap len) (hes : MapAt s.mem ((mmap + len) % 2 ^ 32) mmap es) :
    Keeps (InMap s.mem mmap len) s.mem (s.bitmapAt es) (getMaxSpace es) ((mmap + len) % 2 ^ 32)
      (.head mmap 0, overlay s.mem (s.bitmapAt es) (cleared es) (ownBits es)) := by
  intro t ht
  have hplace := placePmm_of_mapAt hes (Nat.lt_succ_self _)
  rw [placed_eq] at hplace
  exact sameMap_iff.mp (h.1 _ _ _ hplace t ht)

/-- Every bit that is marked is set at some time: in the placement, in the pass, or at last. -/
theorem KeepsMap.setIn (h : KeepsMap s mmap len) (hptr : s.bitmapAt es < 2 ^ 32)
    (hes : MapAt s.mem ((mmap + len) % 2 ^ 32) mmap es) {b : Nat} (hb : Marked es b) :
    SetIn (InMap s.mem mmap len) s.mem (s.bitmapAt es) (cleared es) b := by
  have hD : ∀ x, InEntry s.mem ((mmap + len) % 2 ^ 32) mmap x → InMap s.mem mmap len x :=
    fun x hx => .inr hx
  have hkeeps := h.keeps hes
  have hcovers := (markWalk_same hptr hD hes .refl (Nat.two_pow_pos 32) (Nat.lt_succ_self _) hkeeps).1
  rcases hb with rfl | hown | ⟨lo, hi, hw, hb⟩
  · -- block 0 is set when the pass has returned, or by the loop that never ends
    rcases initPmm_keeps hptr hes hD hkeeps (Nat.lt_succ_self _) with
      ⟨a, _, hok, hbits⟩ | ⟨⟨lo, hi, hw, hlast⟩, _⟩
    · exact ⟨a, (hbits 0).mpr (.inl rfl), sameMap_iff.mp (h.2 _ _ _ hok)⟩
    · exact hcovers _ (Pmm.withheld_iff.mp hw) 0 (.inr ⟨hlast, by decide⟩)
  · exact ⟨ownBits es, isSet_ownBits.mpr hown, hkeeps.same⟩
  · exact hcovers _ (Pmm.withheld_iff.mp hw) b hb

variable (hend : mmap + len ≤ 2 ^ 32) (hbitmap : s.bitmap < 2 ^ 32)
include hend

theorem inMap_lt {x : Nat} (hx : InMap s.mem mmap len x) : x < 2 ^ 32 := by
  rcases hx with ⟨_, hx⟩ | hx
  · omega
  · exact inEntry_lt hx

include hbitmap

theorem KeepsMap.keepsByte (h : KeepsMap s mmap len)
    (hes : MapAt s.mem ((mmap + len) % 2 ^ 32) mmap es) {x : Nat} (hx : InMap s.mem mmap len x) :
    KeepsByte s es x := by
  have hlt := inMap_lt hend hx
  refine ⟨fun b hb hno => ?_, fun hn b hno hm => ?_⟩
  · obtain ⟨a, ha, hsame⟩ := h.setIn (bitmapAt_lt hbitmap es) hes hb
    exact ((overlay_eq_iff hlt).mp (hsame x hx) b hno).1 ha
  · exact isSet_ownBits.mp (((overlay_eq_iff hlt).mp ((h.keeps hes).same x hx) b hno).2 hn hm)

/-- What is written into bytes that hold it already changes nothing. -/
theorem keepsMap_of_keepsByte (hkept : ∀ es, MapAt s.mem ((mmap + len) % 2 ^ 32) mmap es →
    ∀ x, InMap s.mem mmap len x → KeepsByte s es x) : KeepsMap s mmap len := by
  have hlt : ∀ x, InMap s.mem mmap len x → x < 2 ^ 32 := fun x => inMap_lt hend
  have hpass : ∀ es, MapAt s.mem ((mmap + len) % 2 ^ 32) mmap es → ∀ t,
      Reaches (passStep (s.bitmapAt es) (getMaxSpace es) ((mmap + len) % 2 ^ 32))
        (.head mmap 0, overlay s.mem (s.bitmapAt es) (cleared es) (ownBits es)) t →
      ∃ a, t.2 = overlay s.mem (s.bitmapAt es) (cleared es) a ∧ Between es a := by
    intro es hes t ht
    obtain ⟨a, h1, h2, _⟩ :=
      keeps_of_keepsByte (bitmapAt_lt hbitmap es) hes hlt (fun x hx => .inr hx) (hkept es hes) ht
    exact ⟨a, h1, h2⟩
  constructor
  · intro fuel max s' hok t ht
    obtain ⟨es, ⟨hes, _⟩, rfl, rfl⟩ := placePmm_eq_ok hok
    rw [placed_eq] at ht
    obtain ⟨a, ha, hbetween⟩ := hpass es hes t ht
    rw [ha]
    exact sameMap_iff.mpr (hbetween.same hlt (hkept es hes))
  · intro fuel max s' hok
    rw [initPmm_eq] at hok
    obtain ⟨⟨max', s''⟩, hplace, hok⟩ := Machine.bind_eq_ok.mp hok
    obtain ⟨es, ⟨hes, _⟩, rfl, rfl⟩ := placePmm_eq_ok hplace
    obtain ⟨m, hm, hok⟩ := Machine.bind_eq_ok.mp hok
    obtain ⟨_, rfl⟩ := Prod.mk.inj (Except.ok.inj hok)
    rw [placed_eq] at hm ⊢
    obtain ⟨p, hp, _⟩ := reaches_of_markWalk hm
    obtain ⟨a, ha, hbetween⟩ := hpass es hes _ hp
    dsimp only at ha ⊢
    rw [ha, overlay_bitmapSet (bitmapAt_lt hbitmap es) (Nat.two_pow_pos 32)]
    exact sameMap_iff.mpr ((hbetween.set (.inl rfl)).same hlt (hkept es hes))

end KeepsMap

/-- `init_pmm` leaves the map alone exactly when each of its bytes holds what is written there. -/
theorem keepsMap_iff {s : Ram} {mmap len : Nat} (hend : mmap + len ≤ 2 ^ 32)
    (hbitmap : s.bitmap < 2 ^ 32) :
    KeepsMap s mmap len ↔
      ∀ es, MapAt s.mem ((mmap + len) % 2 ^ 32) mmap es → ∀ x, InMap s.mem mmap len x → KeepsByte s es x :=
  ⟨fun h _ hes _ hx => h.keepsByte hend hbitmap hes hx, keepsMap_of_keepsByte hend hbitmap⟩

/-- Entries of the usual size lie in the buffer. -/
theorem HoldsMap.inEntry {m : Mem} {es : List MmapEntry} {mmap stop x : Nat} (h : HoldsMap m mmap es)
    (hstop : mmap + 24 * es.length = stop) (hlt : stop < 2 ^ 32) (hx : InEntry m stop mmap x) :
    mmap ≤ x ∧ x < stop := by
  obtain ⟨p, hp, hpstop, k, hk, rfl⟩ := hx
  have hrest : ∃ rest, mmap ≤ p ∧ HoldsMap m p rest ∧ p + 24 * rest.length = stop := by
    refine reaches_induction (P := fun p => ∃ rest, mmap ≤ p ∧ HoldsMap m p rest ∧
      p + 24 * rest.length = stop) ⟨es, Nat.le_refl _, h, hstop⟩ ?_ hp
    rintro q u ⟨rest, hq, hrest, hlen⟩ hu
    obtain ⟨hqstop, rfl⟩ := recordStep_eq_some.mp hu
    cases rest with
    | nil => rw [List.length_nil] at hlen; omega
    | cons e rest =>
      rw [List.length_cons] at hlen
      rw [nextEntry_eq hrest.1 (by omega)]
      exact ⟨rest, by omega, hrest.2.2, by omega⟩
  obtain ⟨rest, hq, _, hlen⟩ := hrest
  cases rest with
  | nil => rw [List.length_nil] at hlen; omega
  | cons e rest =>
    rw [List.length_cons] at hlen
    rw [Nat.mod_eq_of_lt (by omega)]
    omega

theorem HoldsMap.inMap {m : Mem} {es : List MmapEntry} {mmap len x : Nat} (h : HoldsMap m mmap es)
    (hlen : len = 24 * es.length) (hend : mmap + len < 2 ^ 32) (hx : InMap m mmap len x) :
    mmap ≤ x ∧ x < mmap + len := by
  rcases hx with hx | hx
  · exact hx
  · rw [Nat.mod_eq_of_lt hend] at hx
    exact h.inEntry (by omega) hend hx

end Ram

namespace Pmm

/-- Two regions of memory with the usual hole below 1 MB between them. -/
def sampleMap : List MmapEntry := [⟨0, 0, 0x9F000, 0, 1⟩, ⟨0x100000, 0, 0x700000, 0, 1⟩]

/-- The same map in a buffer at `0x5000`. -/
def sampleRam : Ram where
  mem a := [0x14, 0, 0, 0, 0, 0, 0, 0, 0, 0, 0, 0, 0, 0xF0, 9, 0, 0, 0, 0, 0, 1, 0, 0, 0,
    0x14, 0, 0, 0, 0, 0, 0x10, 0, 0, 0, 0, 0, 0, 0, 0x70, 0, 0, 0, 0, 0, 1, 0, 0, 0].getD
      (a - 0x5000) 0
  bitmap := 0
  bitmapSz := 0

end Pmm

namespace Ram

open BitArray
open Pmm (blkSz getMaxSpace home ownCount Sweeps markedRanges lastBlock)

/-- The map with the small memory is not in the way of its bitmap of 256 bytes. -/
theorem sample_keepsByte {x : Nat} (hx1 : 0x5000 ≤ x) (hx2 : x < 0x5030) :
    KeepsByte Pmm.sampleRam Pmm.sampleMap x := by
  have hhome : home Pmm.sampleMap = some 0 := by decide
  have hno : byteNo (Pmm.sampleRam.bitmapAt Pmm.sampleMap) x = x := by
    rw [bitmapAt, hhome, byteNo, Option.getD_some]
    omega
  refine keepsByte_of_apart ?_ fun b hb => ?_
  · rw [hno, show cleared Pmm.sampleMap = 256 by decide]
    omega
  · rw [hno]
    rcases hb with rfl | ⟨base, hbase, h1, h2⟩ | ⟨lo, hi, h, hb⟩
    · omega
    · rw [hhome] at hbase
      obtain rfl := Option.some.inj hbase
      rw [show ownCount Pmm.sampleMap = 1 by decide, Nat.zero_div] at h2
      omega
    · rw [Pmm.withheld_iff, show markedRanges (getMaxSpace Pmm.sampleMap) 0 Pmm.sampleMap =
        [(0x9F000, 0x100000)] by decide, List.mem_singleton] at h
      obtain ⟨rfl, rfl⟩ := Prod.mk.inj h
      simp only [Sweeps, Pmm.Meets, lastBlock, blkSz] at hb
      omega

theorem sample_holdsMap : HoldsMap Pmm.sampleRam.mem 0x5000 Pmm.sampleMap :=
  ⟨by decide, by decide, by decide, by decide, trivial⟩

theorem keepsMap_iff_sample : KeepsMap Pmm.sampleRam 0x5000 48 := by
  refine (keepsMap_iff (by decide) (by decide)).mpr fun es hes x hx => ?_
  obtain rfl := hes.unique (sample_holdsMap.mapAt (by decide) (by decide))
  obtain ⟨h1, h2⟩ := sample_holdsMap.inMap (by decide) (by decide) hx
  exact sample_keepsByte h1 h2

/-- 816 MB of memory, and its map in a buffer at `0x5000`. -/
def overlapMap : List MmapEntry := [⟨0, 0, 0x9F000, 0, 1⟩, ⟨0x100000, 0, 0x32F00000, 0, 1⟩]
def overlapRam : Ram where
  mem a := [0x14, 0, 0, 0, 0, 0, 0, 0, 0, 0, 0, 0, 0, 0xF0, 9, 0, 0, 0, 0, 0, 1, 0, 0, 0,
    0x14, 0, 0, 0, 0, 0, 0x10, 0, 0, 0, 0, 0, 0, 0, 0xF0, 0x32, 0, 0, 0, 0, 1, 0, 0, 0].getD
      (a - 0x5000) 0
  bitmap := 0
  bitmapSz := 0

/-- The bitmap of that memory takes `0x6600` bytes from address 0 on, and the buffer is cleared. -/
theorem not_keepsMap_overlap : HoldsMap overlapRam.mem 0x5000 overlapMap ∧
    (∃ e ∈ overlapMap, e.type = 1 ∧ e.base ≤ 0x5000 ∧ 0x5000 + 48 ≤ e.stop) ∧
    ¬ KeepsMap overlapRam 0x5000 48 := by
  have hmap : HoldsMap overlapRam.mem 0x5000 overlapMap :=
    ⟨by decide, by decide, by decide, by decide, trivial⟩
  refine ⟨hmap, ⟨⟨0, 0, 0x9F000, 0, 1⟩, by decide, rfl, by decide, by decide⟩, fun hkeeps => ?_⟩
  have hplace := @placePmm_of_mapAt overlapRam _ 48 _ _ (hmap.mapAt (by decide) (by decide))
    (Nat.lt_succ_self _)
  have hbyte := (hkeeps.1 _ _ _ hplace _ .refl).1 0x5000 (by decide) (by decide)
  have hno : byteNo (overlapRam.bitmapAt overlapMap) 0x5000 = 0x5000 := by decide
  rw [placed_eq, overlay_eq_iff (by decide), hno] at hbyte
  have hown := (hbyte (8 * 0x5000 + 2) (by decide)).2 (by decide) (by decide)
  rw [isSet_ownBits] at hown
  obtain ⟨base, hbase, _, hlt⟩ := hown
  rw [show home overlapMap = some 0 by decide] at hbase
  obtain rfl := Option.some.inj hbase
  revert hlt
  decide

end Ram
end Frod
