import Frod.Pmm.Init

/-!
# Frod.Pmm.Entries

What `init_pmm` does with a memory map, said of the entries: which address it takes for the end of
memory, which entry it puts the bitmap into, which ranges it withholds from the allocator. All of
this is about the low words of the addresses.

`getMaxSpace_eq`, `placeBitmap_eq` and `withheld_iff` connect these to the passes.
-/

namespace Frod
namespace Pmm

open BitArray

/-- The low word of the end of the last available entry. -/
def lowTop (es : List MmapEntry) : Nat :=
  ((es.filter fun e => e.type = 1).getLast?.map MmapEntry.endL).getD 0

/-- An entry that begins at this address or above ends the marking. -/
def limit (es : List MmapEntry) : Nat := (lowTop es + 2 ^ 32 - 1) % 2 ^ 32

/-- The low end of the entry behind which the next one is expected. -/
def lowEnd (pre : List MmapEntry) : Nat := (pre.getLast?.map MmapEntry.endL).getD 0

/-- The entries `pre` and `e` behind them are the first of the map, and none of them is at the limit
or above. -/
structure Visited (es pre : List MmapEntry) (e : MmapEntry) : Prop where
  isPrefix : pre ++ [e] <+: es
  below : ∀ f ∈ pre ++ [e], f.baseAddrL.toNat < limit es

/-- The ranges of addresses that are withheld from the allocator: the gap before an entry, and an
entry of another type than available that ends below the limit. -/
inductive Withheld (es : List MmapEntry) : Nat → Nat → Prop
  | gap {pre : List MmapEntry} {e : MmapEntry} : Visited es pre e → lowEnd pre < e.baseAddrL.toNat →
      Withheld es (lowEnd pre) e.baseAddrL.toNat
  | entry {pre : List MmapEntry} {e : MmapEntry} : Visited es pre e → e.type ≠ 1 →
      e.endL < limit es → Withheld es e.baseAddrL.toNat e.endL

/-- The entry is available and has room for `n` blocks behind its base, aligned upwards. -/
def HasRoom (n : Nat) (e : MmapEntry) : Prop :=
  e.type = 1 ∧ n ≤ e.lengthL.toNat / blkSz ∧
    n ≤ (e.endL + 2 ^ 32 - alignUpwards e.baseAddrL.toNat blkSz) % 2 ^ 32 / blkSz

instance (n : Nat) (e : MmapEntry) : Decidable (HasRoom n e) := by unfold HasRoom; infer_instance

/-- The number of blocks that the bitmap takes, and where it goes: to the first entry with room. -/
def ownCount (es : List MmapEntry) : Nat := blocksBitmap (lowTop es / blkSz)
def home (es : List MmapEntry) : Option Nat :=
  (es.find? fun e => HasRoom (ownCount es) e).map fun e => alignUpwards e.baseAddrL.toNat blkSz

/-- Block `b` is one of those the bitmap lies in. -/
def Own (es : List MmapEntry) (b : Nat) : Prop :=
  ∃ base, home es = some base ∧ base / blkSz ≤ b ∧ b < base / blkSz + ownCount es

/-- The blocks that marking the range from `lo` to `hi` takes: those that meet it, or all there are if
the loop's counter wraps. -/
def Sweeps (lo hi b : Nat) : Prop := Meets (lo, hi) b ∨ lastBlock < hi ∧ b < 2 ^ 20

/-- Block `b` is marked: as one of the bitmap's own, in the marking pass, or as block 0. -/
def Marked (es : List MmapEntry) (b : Nat) : Prop :=
  b = 0 ∨ Own es b ∨ ∃ lo hi, Withheld es lo hi ∧ Sweeps lo hi b

/-! ## The first two passes -/

theorem getMaxSpaceLoop_eq : ∀ (es : List MmapEntry) (max : Nat),
    getMaxSpaceLoop max es = ((es.filter fun e => e.type = 1).getLast?.map MmapEntry.endL).getD max := by
  intro es
  induction es with
  | nil => intro max; rfl
  | cons e es ih =>
    intro max
    rw [getMaxSpaceLoop, ih]
    by_cases ht : e.type = 1
    · rw [if_pos ht, List.filter_cons_of_pos (by simpa using ht), List.getLast?_cons]
      cases (es.filter fun e => e.type = 1).getLast? with
      | none => rfl
      | some f => rfl
    · rw [if_neg ht, List.filter_cons_of_neg (by simpa using ht)]

theorem getMaxSpace_eq (es : List MmapEntry) : getMaxSpace es = lowTop es := getMaxSpaceLoop_eq es 0

theorem lowTop_lt (es : List MmapEntry) : lowTop es < 2 ^ 32 := by
  rw [← getMaxSpace_eq]
  exact getMaxSpace_lt es

theorem alignUpwards_lt {a : Nat} (ha : a < 2 ^ 32) : alignUpwards a blkSz < 2 ^ 32 := by
  unfold alignUpwards
  split
  · exact Nat.mod_lt _ (by decide)
  · exact ha

theorem alignUpwards_mod (a : Nat) : alignUpwards a blkSz % blkSz = 0 := by
  unfold alignUpwards
  by_cases ha : a % blkSz = 0
  · rw [if_neg fun hn => hn ha]
    exact ha
  · rw [if_pos ha]
    simp only [blkSz]
    omega

theorem bitmapBase_eq (n : Nat) (e : MmapEntry) :
    bitmapBase n e = if HasRoom n e then some (alignUpwards e.baseAddrL.toNat blkSz) else none := by
  have halign : alignDownwards (alignUpwards e.baseAddrL.toNat blkSz) blkSz =
      alignUpwards e.baseAddrL.toNat blkSz := by
    rw [alignDownwards, alignUpwards_mod, Nat.sub_zero]
  rw [bitmapBase, halign]
  by_cases h : e.type = 1 ∧ e.lengthL.toNat / blkSz ≥ n
  · rw [if_pos h]
    exact if_congr ⟨fun hr => ⟨h.1, h.2, hr⟩, fun hr => hr.2.2⟩ rfl rfl
  · rw [if_neg h, if_neg fun hr => h ⟨hr.1, hr.2.1⟩]

theorem findSome?_bitmapBase (n : Nat) : ∀ es : List MmapEntry, es.findSome? (bitmapBase n) =
    (es.find? fun e => HasRoom n e).map fun e => alignUpwards e.baseAddrL.toNat blkSz := by
  intro es
  induction es with
  | nil => rfl
  | cons e es ih =>
    rw [List.findSome?_cons, bitmapBase_eq, List.find?_cons]
    by_cases h : HasRoom n e
    · rw [if_pos h, decide_eq_true h]
      rfl
    · rw [if_neg h, decide_eq_false h]
      exact ih

theorem placeBitmap_eq (es : List MmapEntry) :
    placeBitmap (blocksBitmap (getMaxSpace es / blkSz)) es = home es := by
  rw [getMaxSpace_eq]
  exact findSome?_bitmapBase _ es

theorem home_lt {es : List MmapEntry} {base : Nat} (h : home es = some base) : base < 2 ^ 32 := by
  obtain ⟨e, _, rfl⟩ := Option.map_eq_some_iff.mp h
  exact alignUpwards_lt e.baseAddrL.isLt

/-! ## The marking pass -/

theorem lowEnd_append (pre : List MmapEntry) (e : MmapEntry) : lowEnd (pre ++ [e]) = e.endL := by
  rw [lowEnd, List.getLast?_concat]
  rfl

section Visited

variable {es pre mid rest : List MmapEntry} {e f : MmapEntry}

/-- The next entry is visited if none so far is at the limit. -/
theorem visited_next (hsplit : pre ++ e :: rest = es)
    (hbelow : ∀ f ∈ pre ++ [e], f.baseAddrL.toNat < limit es) : Visited es pre e :=
  ⟨⟨rest, by rw [List.append_assoc]; exact hsplit⟩, hbelow⟩

/-- What is visited behind `pre` is the next entry, or lies behind that. -/
theorem Visited.next_cases (h : Visited es (pre ++ mid) f) (hsplit : pre ++ e :: rest = es) :
    e.baseAddrL.toNat < limit es ∧ (mid = [] ∧ f = e ∨ ∃ mid', mid = e :: mid') := by
  obtain ⟨post, hpost⟩ := h.isPrefix
  rw [← hsplit, List.append_assoc, List.append_assoc] at hpost
  have hrest := List.append_cancel_left hpost
  cases mid with
  | nil =>
    obtain ⟨rfl, _⟩ := List.cons.inj hrest
    exact ⟨h.below f (by simp), .inl ⟨rfl, rfl⟩⟩
  | cons g mid =>
    obtain ⟨rfl, _⟩ := List.cons.inj hrest
    exact ⟨h.below g (by simp), .inr ⟨mid, rfl⟩⟩

end Visited

/-- Behind the entries `pre` the pass marks what is withheld at the entries it comes to. -/
theorem mem_markedRanges_iff {es : List MmapEntry} {lo hi : Nat} : ∀ {rest pre : List MmapEntry},
    pre ++ rest = es → (∀ f ∈ pre, f.baseAddrL.toNat < limit es) →
      ((lo, hi) ∈ markedRanges (lowTop es) (lowEnd pre) rest ↔
        ∃ mid e, Visited es (pre ++ mid) e ∧
          (lo = lowEnd (pre ++ mid) ∧ hi = e.baseAddrL.toNat ∧ lo < hi ∨
            lo = e.baseAddrL.toNat ∧ hi = e.endL ∧ e.type ≠ 1 ∧ hi < limit es)) := by
  intro rest
  induction rest with
  | nil =>
    intro pre hsplit _
    refine ⟨fun h => absurd h List.not_mem_nil, ?_⟩
    rintro ⟨mid, e, hv, _⟩
    have hlen := hv.isPrefix.length_le
    simp only [← hsplit, List.length_append, List.length_nil, List.length_cons] at hlen
    omega
  | cons e rest ih =>
    intro pre hsplit hbelow
    rw [markedRanges, ← limit]
    by_cases hlim : e.baseAddrL.toNat < limit es
    · have hbelow' : ∀ f ∈ pre ++ [e], f.baseAddrL.toNat < limit es := by
        intro f hf
        rcases List.mem_append.mp hf with hf | hf
        · exact hbelow f hf
        · rw [List.mem_singleton.mp hf]
          exact hlim
      have hvisited : Visited es (pre ++ []) e := by
        rw [List.append_nil]
        exact visited_next hsplit hbelow'
      have htail := @ih (pre ++ [e]) (by rw [List.append_assoc]; exact hsplit) hbelow'
      rw [lowEnd_append] at htail
      rw [if_pos hlim, List.mem_append, List.mem_append, htail]
      constructor
      · rintro ((hgap | hentry) | ⟨mid, f, hv, hf⟩)
        · split at hgap
          · rename_i hg
            obtain ⟨rfl, rfl⟩ := Prod.mk.inj (List.mem_singleton.mp hgap)
            exact ⟨[], e, hvisited, .inl ⟨by rw [List.append_nil], rfl, hg⟩⟩
          · cases hgap
        · split at hentry
          · rename_i hr
            obtain ⟨rfl, rfl⟩ := Prod.mk.inj (List.mem_singleton.mp hentry)
            exact ⟨[], e, hvisited, .inr ⟨rfl, rfl, hr.1, hr.2⟩⟩
          · cases hentry
        · rw [List.append_assoc] at hv hf
          exact ⟨e :: mid, f, hv, hf⟩
      · rintro ⟨mid, f, hv, hf⟩
        obtain ⟨_, ⟨rfl, rfl⟩ | ⟨mid', rfl⟩⟩ := hv.next_cases hsplit
        · rw [List.append_nil] at hf
          rcases hf with ⟨rfl, rfl, hlt⟩ | ⟨rfl, rfl, hr⟩
          · rw [if_pos hlt]
            exact .inl (.inl (List.mem_singleton.mpr rfl))
          · rw [if_pos hr]
            exact .inl (.inr (List.mem_singleton.mpr rfl))
        · refine .inr ⟨mid', f, ?_, ?_⟩
          · rw [List.append_assoc]
            exact hv
          · rw [List.append_assoc]
            exact hf
    · rw [if_neg hlim]
      refine ⟨fun h => absurd h List.not_mem_nil, ?_⟩
      rintro ⟨mid, f, hv, _⟩
      exact absurd (hv.next_cases hsplit).1 hlim

/-- What is withheld are the ranges that the pass marks. -/
theorem withheld_iff {es : List MmapEntry} {lo hi : Nat} :
    Withheld es lo hi ↔ (lo, hi) ∈ markedRanges (getMaxSpace es) 0 es := by
  have h := @mem_markedRanges_iff es lo hi es [] rfl (fun f hf => by cases hf)
  rw [getMaxSpace_eq]
  refine Iff.trans ?_ h.symm
  constructor
  · rintro (⟨hv, hlt⟩ | ⟨hv, ht, hlt⟩)
    · exact ⟨_, _, hv, .inl ⟨rfl, rfl, hlt⟩⟩
    · exact ⟨_, _, hv, .inr ⟨rfl, rfl, ht, hlt⟩⟩
  · rintro ⟨pre, e, hv, ⟨rfl, rfl, hlt⟩ | ⟨rfl, rfl, ht, hlt⟩⟩
    · exact .gap hv hlt
    · exact .entry hv ht hlt

theorem Withheld.lt {es : List MmapEntry} {lo hi : Nat} (h : Withheld es lo hi) : hi < 2 ^ 32 := by
  cases h with
  | gap _ _ => exact BitVec.isLt _
  | entry _ _ _ => exact MmapEntry.endL_lt _

theorem Sweeps.lt {lo hi b : Nat} (hhi : hi < 2 ^ 32) (h : Sweeps lo hi b) : b < 2 ^ 20 := by
  rcases h with ⟨_, h⟩ | ⟨_, h⟩
  · simp only [blkSz] at h
    omega
  · exact h

end Pmm
end Frod
