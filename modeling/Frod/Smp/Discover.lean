import Frod.Smp.Own

/-!
# Frod.Smp.Discover

What `apic_find_cpus` makes of a whole MADT.

`Processed` is its loop invariant: the entries filled so far are those of the processors among the
records seen so far. Nothing in the loop compares `ret` with `MAX_CPUS`, so `discovers_iff` holds for
tables with at most `MAX_CPUS` processors. A table that ends at the last byte of memory has the end 0
in 32-bit arithmetic, and none of its records is seen.
-/

namespace Frod
namespace Smp

open Bytes

/-- The MADT at `a`: its records fill it, and it lies in memory. -/
structure IsMadt (m : Mem) (a : Nat) (rs : List Record) : Prop where
  nonNull : a ≠ 0
  length : rd m (a + 4) 4 = madtSz + (rs.map Record.length).sum
  bound : a + rd m (a + 4) 4 ≤ 2 ^ 32
  records : HoldsRecords m (a + madtSz) rs

def hasType (t : Nat) (rs : List Record) : Bool := rs.any fun r => r.type = t

/-- Where the loop of `apic_find_cpus` begins a pass, and with what. -/
inductive Pass (m : Mem) (stop tmp₀ : Nat) (f₀ : Found) : Nat → Found → Prop
  | first : tmp₀ < stop → Pass m stop tmp₀ f₀ tmp₀ f₀
  | next {tmp : Nat} {f : Found} : Pass m stop tmp₀ f₀ tmp f →
      (tmp + rd m (tmp + 1) 1) % 2 ^ 32 < stop →
      Pass m stop tmp₀ f₀ ((tmp + rd m (tmp + 1) 1) % 2 ^ 32) (apicRecord m tmp f)

/-- The array is written in bounds, and the result describes the records `rs` of the table at `a`. -/
def Discovers (fuel : Nat) (mem : Mem) (rsdt : Nat) (s₀ : Cpus) (a : Nat) (rs : List Record) : Prop :=
  ∃ n s, apicFindCpus fuel mem rsdt s₀ = .ok (n, s) ∧
    (∀ tmp f, Pass mem ((a + rd mem (a + 4) 4) % 2 ^ 32) ((a + madtSz) % 2 ^ 32)
        ⟨{ s₀ with localApic := rd mem (a + sdthSz) 4 }, 0, 0⟩ tmp f →
      rd mem tmp 1 = madtTypeLapic → f.ret < maxCpus) ∧
    s.numCpus = min maxCpus (lapicIds rs).length ∧
    (∀ i < s.numCpus, (lapicIds rs)[i]? = some (s.cpus i).id ∧ (s.cpus i).bootCpu = decide (i = 0) ∧
      (s.cpus i).started = if i = 0 then 1 else 0) ∧
    n = if hasType madtTypeLapic rs ∧ hasType madtTypeIoapic rs then s.numCpus else 0

/-! ## The loop invariant -/

/-- What the loop keeps after the records `rs`. -/
structure Processed (f : Found) (rs : List Record) : Prop where
  ret : f.ret = (lapicIds rs).length
  entry : ∀ i < f.ret, (lapicIds rs)[i]? = some (f.state.cpus i).id ∧
    (f.state.cpus i).bootCpu = decide (i = 0) ∧ (f.state.cpus i).started = if i = 0 then 1 else 0
  flags : f.flags = (if hasType madtTypeLapic rs then 1 else 0) |||
    if hasType madtTypeIoapic rs then 2 else 0

theorem lapicIds_append : ∀ (xs ys : List Record), lapicIds (xs ++ ys) = lapicIds xs ++ lapicIds ys := by
  intro xs
  induction xs with
  | nil => intro ys; rfl
  | cons r xs ih =>
    intro ys
    rw [List.cons_append, lapicIds, lapicIds, ih]
    split
    · rfl
    · rfl

theorem hasType_snoc (t : Nat) (rs : List Record) (r : Record) :
    hasType t (rs ++ [r]) = (hasType t rs || decide (r.type = t)) := by
  simp [hasType]

theorem Processed.init (s : Cpus) : Processed ⟨s, 0, 0⟩ [] :=
  ⟨rfl, fun i hi => absurd hi (Nat.not_lt_zero i), rfl⟩

theorem Processed.step {m : Mem} {tmp : Nat} {f : Found} {rs : List Record} {r : Record}
    (h : Processed f rs) (htype : rd m tmp 1 = r.type)
    (hid : r.type = madtTypeLapic → BitVec.ofNat 8 (rd m (tmp + 3) 1) = r.apicId) :
    Processed (apicRecord m tmp f) (rs ++ [r]) := by
  have hret := h.ret
  by_cases hlapic : r.type = madtTypeLapic
  · have hio : r.type ≠ madtTypeIoapic := by rw [hlapic]; decide
    have hids : lapicIds (rs ++ [r]) = lapicIds rs ++ [r.apicId] := by
      rw [lapicIds_append, lapicIds, if_pos hlapic, lapicIds]
    rw [apicRecord, if_pos (htype.trans hlapic)]
    refine ⟨?_, fun i hi => ?_, ?_⟩
    · rw [hids, List.length_append, List.length_singleton, ← hret]
    · dsimp only at hi ⊢
      rw [hids]
      by_cases hlast : i = f.ret
      · subst hlast
        rw [Function.update_self, hret, List.getElem?_concat_length, hid hlapic]
        exact ⟨rfl, rfl, rfl⟩
      · have hlt : i < f.ret := by omega
        rw [Function.update_of_ne hlast, List.getElem?_append_left (by omega)]
        exact h.entry i hlt
    · dsimp only
      rw [hasType_snoc, hasType_snoc, decide_eq_true hlapic, decide_eq_false hio, Bool.or_true,
        Bool.or_false, h.flags]
      split
      · split <;> rfl
      · split <;> rfl
  · have hids : lapicIds (rs ++ [r]) = lapicIds rs := by
      rw [lapicIds_append, lapicIds, if_neg hlapic, lapicIds, List.append_nil]
    have hno : hasType madtTypeLapic (rs ++ [r]) = hasType madtTypeLapic rs := by
      rw [hasType_snoc, decide_eq_false hlapic, Bool.or_false]
    rw [apicRecord, if_neg fun hl => hlapic (htype.symm.trans hl)]
    by_cases hioapic : r.type = madtTypeIoapic
    · rw [if_pos (htype.trans hioapic)]
      refine ⟨by rw [hids]; exact hret, by rw [hids]; exact h.entry, ?_⟩
      dsimp only
      rw [hno, hasType_snoc, decide_eq_true hioapic, Bool.or_true, h.flags]
      split
      · split <;> rfl
      · split <;> rfl
    · rw [if_neg fun hi => hioapic (htype.symm.trans hi)]
      refine ⟨by rw [hids]; exact hret, by rw [hids]; exact h.entry, ?_⟩
      rw [hno, hasType_snoc, decide_eq_false hioapic, Bool.or_false]
      exact h.flags

/-- The whole loop, from the middle of the table on. -/
theorem Processed.loop {m : Mem} {stop : Nat} : ∀ {rs seen : List Record} {a fuel : Nat} {f : Found},
    HoldsRecords m a rs → a + (rs.map Record.length).sum = stop → stop < 2 ^ 32 →
    rs.length < fuel → Processed f seen →
    ∃ f', apicLoop m stop fuel a f = .ok f' ∧ Processed f' (seen ++ rs) := by
  intro rs
  induction rs with
  | nil =>
    intro seen a fuel f _ hend _ hfuel h
    obtain ⟨n, rfl⟩ := Nat.exists_eq_succ_of_ne_zero (Nat.ne_of_gt hfuel)
    rw [List.map_nil, List.sum_nil] at hend
    refine ⟨f, ?_, by rwa [List.append_nil]⟩
    rw [apicLoop, if_neg (by omega)]
  | cons r rs ih =>
    intro seen a fuel f hold hend hlt hfuel h
    obtain ⟨n, rfl⟩ := Nat.exists_eq_succ_of_ne_zero (Nat.ne_of_gt (Nat.zero_lt_of_lt hfuel))
    rw [List.map_cons, List.sum_cons] at hend
    obtain ⟨htype, hlen, hpos, hid, hrest⟩ := hold
    obtain ⟨f', hok, h'⟩ := ih hrest (by omega) hlt (Nat.lt_of_succ_lt_succ hfuel) (h.step htype hid)
    refine ⟨f', ?_, by rwa [List.append_assoc] at h'⟩
    rw [apicLoop, if_pos (by omega), hlen, Nat.mod_eq_of_lt (by omega)]
    exact hok

/-- A pass begins at a record of the table, with the records before it processed. -/
theorem Pass.processed {m : Mem} {stop a : Nat} {f₀ : Found} {rs : List Record}
    (hold : HoldsRecords m a rs) (hend : a + (rs.map Record.length).sum = stop) (hstop : stop < 2 ^ 32)
    (h₀ : Processed f₀ []) {tmp : Nat} {f : Found} (h : Pass m stop a f₀ tmp f) :
    ∃ seen r rest, rs = seen ++ r :: rest ∧ HoldsRecords m tmp (r :: rest) ∧
      tmp + ((r :: rest).map Record.length).sum = stop ∧ Processed f seen := by
  induction h with
  | first hlt =>
    cases rs with
    | nil => rw [List.map_nil, List.sum_nil] at hend; omega
    | cons r rest => exact ⟨[], r, rest, rfl, hold, hend, h₀⟩
  | next _ hlt ih =>
    obtain ⟨seen, r, rest, hrs, hrec, hsum, hproc⟩ := ih
    obtain ⟨htype, hlen, hpos, hid, hrest⟩ := hrec
    rw [List.map_cons, List.sum_cons] at hsum
    rw [hlen, Nat.mod_eq_of_lt (by omega)] at hlt ⊢
    cases rest with
    | nil => rw [List.map_nil, List.sum_nil] at hsum; omega
    | cons r' rest =>
      refine ⟨seen ++ [r], r', rest, ?_, hrest, by omega, hproc.step htype hid⟩
      rw [hrs, List.append_assoc]
      rfl

theorem hasType_lapic {rs : List Record} : hasType madtTypeLapic rs = true ↔ lapicIds rs ≠ [] := by
  induction rs with
  | nil => simp [hasType, lapicIds]
  | cons r rs ih =>
    rw [lapicIds]
    split
    · rename_i h
      simp [hasType, h]
    · rename_i h
      rw [← ih]
      simp [hasType, h]

section Discovers

variable {mem : Mem} {rsdt fuel a : Nat} {rs : List Record} (s₀ : Cpus)

theorem apicFindCpus_processed (hfind : findSdtEntry fuel mem rsdt apicSignature = .ok a)
    (hmadt : IsMadt mem a rs) (hlt : a + rd mem (a + 4) 4 < 2 ^ 32) (hfuel : rs.length < fuel) :
    ∃ f, Processed f rs ∧ apicFindCpus fuel mem rsdt s₀ =
      .ok (if hasType madtTypeLapic rs ∧ hasType madtTypeIoapic rs then f.ret else 0,
        { f.state with numCpus := f.ret }) := by
  have hlen := hmadt.length
  obtain ⟨f, hloop, hf⟩ := Processed.loop hmadt.records (by omega) hlt hfuel
    (Processed.init { s₀ with localApic := rd mem (a + sdthSz) 4 })
  rw [List.nil_append] at hf
  refine ⟨f, hf, ?_⟩
  rw [apicFindCpus, hfind]
  dsimp only
  rw [if_neg hmadt.nonNull, Nat.mod_eq_of_lt hlt, Nat.mod_eq_of_lt (by omega), hloop]
  dsimp only
  rw [hf.flags]
  cases hasType madtTypeLapic rs with
  | true =>
    cases hasType madtTypeIoapic rs with
    | true => rfl
    | false => rfl
  | false =>
    cases hasType madtTypeIoapic rs with
    | true => rfl
    | false => rfl

/-- A table that ends with the last byte of memory is not read. -/
theorem apicFindCpus_top (hfind : findSdtEntry fuel mem rsdt apicSignature = .ok a)
    (hmadt : IsMadt mem a rs) (htop : a + rd mem (a + 4) 4 = 2 ^ 32) (hfuel : 0 < fuel) :
    apicFindCpus fuel mem rsdt s₀ =
      .ok (0, { s₀ with localApic := rd mem (a + sdthSz) 4, numCpus := 0 }) := by
  obtain ⟨n, rfl⟩ := Nat.exists_eq_succ_of_ne_zero (Nat.ne_of_gt hfuel)
  rw [apicFindCpus, hfind]
  dsimp only
  rw [if_neg hmadt.nonNull, htop, Nat.mod_self, apicLoop, if_neg (Nat.not_lt_zero _)]
  dsimp only
  rw [if_pos (by decide)]

variable {s₀}

theorem discovers_of_le (hfind : findSdtEntry fuel mem rsdt apicSignature = .ok a)
    (hmadt : IsMadt mem a rs) (hlt : a + rd mem (a + 4) 4 < 2 ^ 32) (hfuel : rs.length < fuel)
    (hmax : (lapicIds rs).length ≤ maxCpus) : Discovers fuel mem rsdt s₀ a rs := by
  have hlen := hmadt.length
  obtain ⟨f, hf, hok⟩ := apicFindCpus_processed s₀ hfind hmadt hlt hfuel
  refine ⟨_, _, hok, fun tmp g hpass htype => ?_, ?_, hf.entry, rfl⟩
  · rw [Nat.mod_eq_of_lt hlt, Nat.mod_eq_of_lt (by omega)] at hpass
    obtain ⟨seen, r, rest, rfl, hrec, _, hg⟩ :=
      hpass.processed hmadt.records (by omega) hlt (Processed.init _)
    have hids : (lapicIds (seen ++ r :: rest)).length = (lapicIds seen).length + 1 + (lapicIds rest).length := by
      rw [lapicIds_append, lapicIds, if_pos (hrec.1.symm.trans htype), List.length_append,
        List.length_cons]
      omega
    rw [hg.ret]
    omega
  · rw [hf.ret]
    exact (Nat.min_eq_right hmax).symm

theorem Discovers.length_le (h : Discovers fuel mem rsdt s₀ a rs)
    (hfind : findSdtEntry fuel mem rsdt apicSignature = .ok a) (hmadt : IsMadt mem a rs)
    (hlt : a + rd mem (a + 4) 4 < 2 ^ 32) (hfuel : rs.length < fuel) :
    (lapicIds rs).length ≤ maxCpus := by
  obtain ⟨n, s, hok, _, hnum, _⟩ := h
  obtain ⟨f, hf, hok'⟩ := apicFindCpus_processed s₀ hfind hmadt hlt hfuel
  rw [hok] at hok'
  obtain ⟨_, rfl⟩ := Prod.mk.inj (Except.ok.inj hok')
  have hmin : f.ret = min maxCpus (lapicIds rs).length := hnum
  rw [hf.ret] at hmin
  omega

/-- `apic_find_cpus` finds the processors of a table exactly when there are at most `MAX_CPUS` of
them; in a table that ends with the last byte of memory it finds none. -/
theorem discovers_iff (hfind : findSdtEntry fuel mem rsdt apicSignature = .ok a)
    (hmadt : IsMadt mem a rs) (hfuel : rs.length < fuel) :
    Discovers fuel mem rsdt s₀ a rs ↔
      (lapicIds rs).length ≤ maxCpus ∧ (a + rd mem (a + 4) 4 < 2 ^ 32 ∨ lapicIds rs = []) := by
  have hbound := hmadt.bound
  by_cases hlt : a + rd mem (a + 4) 4 < 2 ^ 32
  · constructor
    · intro h
      exact ⟨h.length_le hfind hmadt hlt hfuel, .inl hlt⟩
    · rintro ⟨hmax, _⟩
      exact discovers_of_le hfind hmadt hlt hfuel hmax
  · have htop : a + rd mem (a + 4) 4 = 2 ^ 32 := by omega
    have hfind₀ := apicFindCpus_top s₀ hfind hmadt htop (by omega)
    constructor
    · rintro ⟨n, s, hok, _, hnum, _⟩
      rw [hfind₀] at hok
      obtain ⟨_, rfl⟩ := Prod.mk.inj (Except.ok.inj hok)
      have hmin : 0 = min maxCpus (lapicIds rs).length := hnum
      have hpos : 0 < maxCpus := by decide
      have hnil : (lapicIds rs).length = 0 := by omega
      exact ⟨by omega, .inr (List.length_eq_zero_iff.mp hnil)⟩
    · rintro ⟨_, hbad | hnil⟩
      · exact absurd hbad hlt
      · have hnone : hasType madtTypeLapic rs = false := by
          rw [Bool.eq_false_iff]
          exact fun h => hasType_lapic.mp h hnil
        refine ⟨_, _, hfind₀, fun tmp f hpass _ => ?_, ?_, ?_, ?_⟩
        · exfalso
          rw [htop, Nat.mod_self] at hpass
          cases hpass with
          | first h => exact Nat.not_lt_zero _ h
          | next _ h => exact Nat.not_lt_zero _ h
        · rw [hnil]
          rfl
        · exact fun i hi => absurd hi (Nat.not_lt_zero i)
        · rw [hnone]
          rfl

end Discovers

/-! ## Many processors -/

/-- An RSDT at 0x1000 with a MADT at 0x2000 that lists the processors 0 to `n - 1` and then an I/O
APIC. -/
def manyTables (n : Nat) : Mem := fun x =>
  if x = 0x1004 then 40 else if x = 0x1025 then 0x20
  else if x = 0x2000 then 0x41 else if x = 0x2001 then 0x50 else if x = 0x2002 then 0x49
  else if x = 0x2003 then 0x43 else if x = 0x2004 then BitVec.ofNat 8 (56 + 8 * n)
  else if x < 0x202C then 0
  else if x < 0x202C + 8 * n then
    if x % 8 = 5 then 8 else if x % 8 = 7 then BitVec.ofNat 8 ((x - 0x202C) / 8) else 0
  else if x = 0x202C + 8 * n then 1 else if x = 0x202D + 8 * n then 12 else 0

def manyRecords (n : Nat) : List Record :=
  (List.range n).map (fun k => ⟨0, 8, BitVec.ofNat 8 k⟩) ++ [⟨1, 12, 0⟩]

instance decidableHoldsRecords (m : Mem) : (a : Nat) → (rs : List Record) → Decidable (HoldsRecords m a rs)
  | _, [] => isTrue trivial
  | a, r :: rs =>
    have := decidableHoldsRecords m (a + r.length) rs
    inferInstanceAs (Decidable (_ ∧ _ ∧ _ ∧ (_ → _) ∧ _))

theorem discovers_iff_two : Discovers 4 (manyTables 2) 0x1000 zeroCpus 0x2000 (manyRecords 2) := by
  have hmadt : IsMadt (manyTables 2) 0x2000 (manyRecords 2) :=
    ⟨by decide, by decide, by decide, by decide⟩
  exact (discovers_iff (by decide) hmadt (by decide)).mpr ⟨by decide, .inl (by decide)⟩

/-- Nine processors: the ninth is written behind the array, and all nine are counted. -/
theorem not_discovers_nine :
    findSdtEntry 11 (manyTables 9) 0x1000 apicSignature = .ok 0x2000 ∧
    IsMadt (manyTables 9) 0x2000 (manyRecords 9) ∧
    ¬ Discovers 11 (manyTables 9) 0x1000 zeroCpus 0x2000 (manyRecords 9) := by
  have hfind : findSdtEntry 11 (manyTables 9) 0x1000 apicSignature = .ok 0x2000 := by decide
  have hmadt : IsMadt (manyTables 9) 0x2000 (manyRecords 9) :=
    ⟨by decide, by decide, by decide, by decide⟩
  refine ⟨hfind, hmadt, fun h => ?_⟩
  have hle := h.length_le hfind hmadt (by decide) (by decide)
  revert hle
  decide

end Smp
end Frod
