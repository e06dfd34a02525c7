import Frod.Vmm.Fail

/-!
# Frod.Vmm.Perm

What a page may be used for: the permissions of its table entry and of its directory entry together.

`vmm_map_page` gives a directory entry the permissions of the call that creates the table, and never
touches it again. A page that is mapped for user mode into a table that an earlier call made for the
kernel alone stays out of reach of user mode. `perms_granted_iff` is the exact account of a run: every
page has the permissions that were asked for as long as no call maps a user page into such a table.
-/

namespace Frod
namespace Vmm

open Pmm (HasFree FirstFree blkSz)

/-! ## Permission bits -/

def user (e : Word) : Bool := (e &&& x86PageUser) != 0#32

theorem user_eq_getLsbD (e : Word) : user e = e.getLsbD 2 :=
  and_single_bne_zero fun i => getLsbD_one_shl 2 i (by decide)

/-- An aligned address and the present bit leave the other flags to the permissions. -/
theorem mapEntry_bit {a : Nat} (ha : a % kb4 = 0) (acl : Word) {i : Nat} (h1 : i ≠ 0) (h2 : i < 12) :
    (mapEntry a acl).getLsbD i = acl.getLsbD i := by
  have haddr : a.testBit i = false := by
    have hmod := Nat.testBit_mod_two_pow a 12 i
    rw [show a % 2 ^ 12 = 0 from ha, Nat.zero_testBit] at hmod
    simpa [h2] using hmod.symm
  have hpres : x86PagePresent.getLsbD i = false := by
    rw [x86PagePresent, show (0x01#32 : Word) = BitVec.ofNat 32 (2 ^ 0) from rfl,
      getLsbD_one_shl 0 i (by decide)]
    simp [h1]
  rw [mapEntry, BitVec.getLsbD_or, BitVec.getLsbD_or, BitVec.getLsbD_ofNat, haddr, hpres]
  simp

theorem writable_mapEntry {a : Nat} (ha : a % kb4 = 0) (acl : Word) :
    writable (mapEntry a acl) = writable acl := by
  rw [writable_eq_getLsbD, writable_eq_getLsbD, mapEntry_bit ha acl (by decide) (by decide)]

theorem user_mapEntry {a : Nat} (ha : a % kb4 = 0) (acl : Word) :
    user (mapEntry a acl) = user acl := by
  rw [user_eq_getLsbD, user_eq_getLsbD, mapEntry_bit ha acl (by decide) (by decide)]

theorem frame_mapEntry {k : Nat} (hk : k < 2 ^ 20) {acl : Word} (hacl : acl.toNat < kb4) :
    frame (mapEntry (k * blkSz) acl) = k := by
  have hfl : (x86PagePresent ||| acl).toNat < kb4 := by
    rw [BitVec.toNat_or]
    exact Nat.or_lt_two_pow (by decide : _ < 2 ^ 12) hacl
  rw [mapEntry, BitVec.or_assoc, frame_or (by unfold blkSz kb4; omega) (by unfold blkSz; omega) hfl]
  exact Nat.mul_div_cancel k (by decide)

/-! ## Page tables with pages of any permission -/

/-- The part of the invariant that does not depend on what the pages may be used for. -/
structure Core (s : Vmm) : Prop where
  self : SelfMap s
  sz_le : s.pmm.bitmapSz ≤ 2 ^ 20
  dir_taken : s.pmm.isTaken s.dir = true
  writable : ∀ d, d < 1023 → HasTable s d → writable (s.phys s.dir d) = true
  ne_dir : ∀ d, d < 1023 → HasTable s d → s.table d ≠ s.dir
  taken : ∀ d, d < 1023 → HasTable s d → s.pmm.isTaken (s.table d) = true
  inj : ∀ d d', d < 1023 → d' < 1023 → HasTable s d → HasTable s d' → s.table d = s.table d' → d = d'

theorem Inv.core {s : Vmm} (h : Inv s) : Core s :=
  ⟨h.self, h.sz_le, h.dir_taken, fun d hd ht => (h.table d hd ht).writable,
    fun d hd ht => (h.table d hd ht).ne_dir, fun d hd ht => (h.table d hd ht).taken, h.inj⟩

/-- The directory entry and the table entry of a mapped page. -/
def entryAt (s : Vmm) (d i : Nat) : Option (Word × Word) :=
  if present (s.phys s.dir d) && present (s.phys (s.table d) i) then
    some (s.phys s.dir d, s.phys (s.table d) i)
  else none

theorem entryAt_of_not_hasTable {s : Vmm} {d : Nat} (h : ¬ HasTable s d) (i : Nat) :
    s.entryAt d i = none := by
  simp only [HasTable, Bool.not_eq_true] at h
  simp [entryAt, h]

theorem entryAt_eq_none_iff {s : Vmm} {d i : Nat} : s.entryAt d i = none ↔ s.slot d i = none := by
  unfold entryAt slot
  split <;> simp

/-- `s'` is `s` with `de` as directory entry `d`, and other changes in the tables of that entry
alone. -/
structure Edits (s s' : Vmm) (d : Nat) (de : Word) : Prop where
  dir : s'.dir = s.dir
  sz : s'.pmm.bitmapSz = s.pmm.bitmapSz
  row : ∀ j, s'.phys s.dir j = if j = d then de else s.phys s.dir j
  rest : ∀ d', d' < 1023 → d' ≠ d → HasTable s d' → s'.phys (s.table d') = s.phys (s.table d')

section Edits

variable {s s' : Vmm} {d : Nat} {de : Word} (he : Edits s s' d de)
include he

theorem Edits.hasTable {d' : Nat} (hne : d' ≠ d) : HasTable s' d' ↔ HasTable s d' := by
  unfold HasTable
  rw [he.dir, he.row, if_neg hne]

theorem Edits.table {d' : Nat} (hne : d' ≠ d) : s'.table d' = s.table d' := by
  rw [Vmm.table, Vmm.table, he.dir, he.row, if_neg hne]

theorem Edits.table_same : s'.table d = frame de := by
  rw [Vmm.table, he.dir, he.row, if_pos rfl]

theorem Edits.entryAt_other {d' : Nat} (hd' : d' < 1023) (hne : d' ≠ d) (i : Nat) :
    s'.entryAt d' i = s.entryAt d' i := by
  by_cases ht : HasTable s d'
  · rw [entryAt, entryAt, he.table hne, he.dir, he.row, if_neg hne, he.rest d' hd' hne ht]
  · rw [entryAt_of_not_hasTable ht,
      entryAt_of_not_hasTable fun hc => ht ((he.hasTable hne).mp hc)]

theorem Edits.entryAt_same (i : Nat) : s'.entryAt d i =
    if present de && present (s'.phys (frame de) i) then some (de, s'.phys (frame de) i)
    else none := by
  rw [entryAt, he.table_same, he.dir, he.row, if_pos rfl]

/-- The invariant is kept if the new entry is absent or names a taken frame of its own. -/
theorem Core.edits (h : Core s) (hd : d < 1023) (hdt : s'.pmm.isTaken s.dir = true)
    (hother : ∀ d', d' < 1023 → d' ≠ d → HasTable s d' →
      s'.pmm.isTaken (s.table d') = true ∧ (present de = true → s.table d' ≠ frame de))
    (hde : present de = true →
      Vmm.writable de = true ∧ frame de ≠ s.dir ∧ s'.pmm.isTaken (frame de) = true) : Core s' := by
  have hpres : HasTable s' d → present de = true := by
    unfold HasTable
    rw [he.dir, he.row, if_pos rfl]
    exact id
  refine ⟨?_, by rw [he.sz]; exact h.sz_le, by rw [he.dir]; exact hdt, ?_, ?_, ?_, ?_⟩
  · unfold SelfMap
    rw [he.dir, he.row, if_neg (by omega)]
    exact h.self
  · intro d' hd' ht'
    rw [he.dir, he.row]
    by_cases hdd : d' = d
    · subst hdd
      rw [if_pos rfl]
      exact (hde (hpres ht')).1
    · rw [if_neg hdd]
      exact h.writable d' hd' ((he.hasTable hdd).mp ht')
  · intro d' hd' ht'
    rw [he.dir]
    by_cases hdd : d' = d
    · subst hdd
      rw [he.table_same]
      exact (hde (hpres ht')).2.1
    · rw [he.table hdd]
      exact h.ne_dir d' hd' ((he.hasTable hdd).mp ht')
  · intro d' hd' ht'
    by_cases hdd : d' = d
    · subst hdd
      rw [he.table_same]
      exact (hde (hpres ht')).2.2
    · rw [he.table hdd]
      exact (hother d' hd' hdd ((he.hasTable hdd).mp ht')).1
  · intro d1 d2 hd1 hd2 ht1 ht2 heq
    by_cases h1 : d1 = d
    · subst h1
      by_cases h2 : d2 = d1
      · exact h2.symm
      · rw [he.table_same, he.table h2] at heq
        exact absurd heq.symm ((hother d2 hd2 h2 ((he.hasTable h2).mp ht2)).2 (hpres ht1))
    · by_cases h2 : d2 = d
      · subst h2
        rw [he.table_same, he.table h1] at heq
        exact absurd heq ((hother d1 hd1 h1 ((he.hasTable h1).mp ht1)).2 (hpres ht2))
      · rw [he.table h1, he.table h2] at heq
        exact h.inj d1 d2 hd1 hd2 ((he.hasTable h1).mp ht1) ((he.hasTable h2).mp ht2) heq

end Edits

/-! ## The three updates -/

section Updates

variable {s : Vmm} {d : Nat} (h : Core s) (hd : d < 1023)
include h

theorem Core.ne_of_free {k : Nat} (hk : FirstFree s.pmm k) :
    k ≠ s.dir ∧ ∀ d, d < 1023 → HasTable s d → s.table d ≠ k :=
  ⟨hk.ne_of_taken h.dir_taken, fun d hd ht => (hk.ne_of_taken (h.taken d hd ht)).symm⟩

/-- What becomes of the pages: the one at `d`, `i` becomes `r`, the others stay. -/
def Becomes (s s' : Vmm) (d i : Nat) (r : Option (Word × Word)) : Prop :=
  Core s' ∧ ∀ d' i', d' < 1023 → i' < 1024 →
    s'.entryAt d' i' = if d' = d ∧ i' = i then r else s.entryAt d' i'

include hd

theorem Core.set (ht : HasTable s d) (i : Nat) (e : Word) :
    Becomes s { s with phys := s.phys.set (s.table d) i e } d i
      (if present e then some (s.phys s.dir d, e) else none) := by
  have hne := h.ne_dir d hd ht
  have he : Edits s { s with phys := s.phys.set (s.table d) i e } d (s.phys s.dir d) := by
    refine ⟨rfl, rfl, fun j => ?_, fun d' hd' hdd ht' => ?_⟩
    · simp only [set_other_frame _ hne.symm]
      by_cases hj : j = d
      · rw [hj, if_pos rfl]
      · rw [if_neg hj]
    · exact set_row _ (fun heq => hdd (h.inj d' d hd' hd ht' ht heq)) _ _
  refine ⟨h.edits he hd h.dir_taken (fun d' hd' hdd ht' => ⟨h.taken d' hd' ht', fun _ heq => ?_⟩)
    fun _ => ⟨h.writable d hd ht, hne, h.taken d hd ht⟩, fun d' i' hd' _ => ?_⟩
  · exact hdd (h.inj d' d hd' hd ht' ht heq)
  · by_cases hdd : d' = d
    · subst hdd
      rw [he.entryAt_same]
      unfold HasTable at ht
      simp only [entryAt, ht, Bool.true_and, true_and]
      by_cases hi : i' = i
      · subst hi
        rw [if_pos rfl, show frame (s.phys s.dir d') = s.table d' from rfl, set_same]
      · rw [if_neg hi, set_other_index _ _ _ hi]
        rfl
    · rw [he.entryAt_other hd' hdd, if_neg fun hc => hdd hc.1]

theorem Core.newTable {k : Nat} (hk : FirstFree s.pmm k) (ht : ¬ HasTable s d) {acl : Word}
    (hacl : acl.toNat < kb4) (hw : Vmm.writable acl = true) (i : Nat) {e : Word}
    (hp : present e = true) :
    Becomes s (s.newTable k d i acl e) d i (some (mapEntry (k * blkSz) acl, e)) := by
  obtain ⟨hkd, hkt⟩ := h.ne_of_free hk
  have hframe := frame_mapEntry (Nat.lt_of_lt_of_le hk.lt h.sz_le) hacl
  have he : Edits s (s.newTable k d i acl e) d (mapEntry (k * blkSz) acl) :=
    ⟨rfl, rfl, newTable_dir hkd i acl e,
      fun d' hd' _ ht' => newTable_other (hkt d' hd' ht') (h.ne_dir d' hd' ht') i acl e⟩
  have htaken : ∀ b, b = k ∨ s.pmm.isTaken b = true →
      (s.newTable k d i acl e).pmm.isTaken b = true := fun b => (Pmm.isTaken_set s.pmm k b).mpr
  refine ⟨h.edits he hd (htaken _ (.inr h.dir_taken))
    (fun d' hd' _ ht' => ⟨htaken _ (.inr (h.taken d' hd' ht')), fun _ => ?_⟩) fun _ => ?_,
    fun d' i' hd' hi' => ?_⟩
  · rw [hframe]
    exact hkt d' hd' ht'
  · rw [hframe]
    exact ⟨mapEntry_writable _ hw, hkd, htaken _ (.inl rfl)⟩
  · by_cases hdd : d' = d
    · subst hdd
      rw [he.entryAt_same, hframe, newTable_new i acl e hi', mapEntry_present,
        entryAt_of_not_hasTable ht]
      by_cases hii : i' = i
      · simp [hii, hp]
      · simp [hii]
    · rw [he.entryAt_other hd' hdd, if_neg fun hc => hdd hc.1]

/-- A table given back when the page at `i` was the only one. -/
theorem Core.dropTable (ht : HasTable s d) (i : Nat)
    (hlast : ∀ j, j < 1024 → j ≠ i → s.entryAt d j = none) :
    Becomes s (s.dropTable d i) d i none := by
  have hne := h.ne_dir d hd ht
  have hzero : present 0#32 = false := present_zero
  have he : Edits s (s.dropTable d i) d 0#32 := by
    refine ⟨rfl, rfl, fun j => ?_, fun d' hd' hdd ht' => ?_⟩
    · simp only [Vmm.dropTable]
      by_cases hj : j = d
      · rw [hj, set_same, if_pos rfl]
      · rw [set_other_index _ _ _ hj, if_neg hj, unmapEntry_other hne.symm]
    · exact dropTable_other (h.ne_dir d' hd' ht') (fun heq => hdd (h.inj d' d hd' hd ht' ht heq)) i
  refine ⟨h.edits he hd ((dropTable_taken s d i _).mpr ⟨hne.symm, h.dir_taken⟩)
    (fun d' hd' hdd ht' => ⟨(dropTable_taken s d i _).mpr ⟨?_, h.taken d' hd' ht'⟩, ?_⟩) ?_,
    fun d' i' hd' hi' => ?_⟩
  · exact fun heq => hdd (h.inj d' d hd' hd ht' ht heq)
  · intro hp
    rw [hzero] at hp
    cases hp
  · intro hp
    rw [hzero] at hp
    cases hp
  · by_cases hdd : d' = d
    · subst hdd
      rw [he.entryAt_same, hzero]
      by_cases hii : i' = i
      · simp [hii]
      · simp [hii, hlast i' hi' hii]
    · rw [he.entryAt_other hd' hdd, if_neg fun hc => hdd hc.1]

end Updates

/-! ## The two calls -/

/-- A new table without the writable bit cannot be cleared. -/
theorem vmmMapPage_readOnly_faults {s : Vmm} (h : SelfMap s) {va : Nat} (hva : va < 0xFFC00000)
    (pa : Nat) {acl : Word} (hro : writable acl = false) (ht : ¬ HasTable s (va / mb4))
    (hnp : s.pmm.allocFirst.1 % kb4 = 0) : ∃ e, s.vmmMapPage pa va acl = .error e := by
  have hd := diri_lt hva
  unfold HasTable at ht
  let s1 : Vmm := { s with
    pmm := s.pmm.allocFirst.2,
    phys := s.phys.set s.dir (va / mb4) (mapEntry s.pmm.allocFirst.1 acl) }
  have hself0 : SelfMap { s with pmm := s.pmm.allocFirst.2 } := h
  have hself : SelfMap s1 := hself0.congr (set_other_index _ _ _ (by omega) _)
  have hent : s1.phys s1.dir (va / mb4) = mapEntry s.pmm.allocFirst.1 acl := set_same ..
  have hstore : ({ s with pmm := s.pmm.allocFirst.2 } : Vmm).store (dirVirtual + 4 * (va / mb4))
      (BitVec.ofNat 32 s.pmm.allocFirst.1 ||| x86PagePresent ||| acl) = .ok s1 :=
    (pageTo_dirVirtual hself0).store (by omega) _
  obtain ⟨e, hfault⟩ := store_window_of_not_writable hself hva
    (by rw [hent, writable_mapEntry hnp, hro]) (show 0 < 1024 by omega) 0#32
  have hzero : ptableVirtual (va / mb4) ≠ 0 := by unfold ptableVirtual; omega
  refine ⟨e, ?_⟩
  simp only [vmmMapPage, addr2Index_eq, (pageTo_dirVirtual h).load (i := va / mb4) (by omega),
    Machine.ok_bind, ht, Bool.false_eq_true, if_false, hstore, memset, if_neg hzero]
  rw [show (1024 : Nat) = 1023 + 1 from rfl, memsetLoop]
  rw [Nat.mul_zero, Nat.add_zero] at hfault
  rw [hfault]
  rfl

theorem allocFirst_aligned (p : Pmm) : p.allocFirst.1 % kb4 = 0 := by
  rcases Pmm.allocFirst_spec p with ⟨k, _, halloc⟩ | ⟨_, halloc⟩
  · rw [halloc]
    unfold blkSz kb4
    omega
  · rw [halloc]
    rfl

section Calls

variable {s : Vmm} (h : Core s) {va : Nat} (hva : va < 0xFFC00000)
include h hva

theorem Core.entryFor (ht : HasTable s (va / mb4)) :
    EntryFor (s.phys s.dir (va / mb4)) (s.table (va / mb4)) :=
  ⟨ht, h.writable _ (diri_lt hva) ht, rfl⟩

theorem Core.mapPage_present (ht : HasTable s (va / mb4)) (hw : s.walk va = none) (pa : Nat)
    (acl : Word) : ∃ s', s.vmmMapPage pa va acl = .ok (vmmSuccess, s') ∧
      Becomes s s' (va / mb4) (va / kb4 % 1024)
        (some (s.phys s.dir (va / mb4), mapEntry pa acl)) := by
  have hi : va / kb4 % 1024 < 1024 := Nat.mod_lt _ (by omega)
  have hwin := pageTo_window h.self (Nat.lt_succ_of_lt (diri_lt hva)) (h.entryFor hva ht)
  have hset := h.set (diri_lt hva) ht (va / kb4 % 1024) (mapEntry pa acl)
  rw [mapEntry_present, if_pos rfl] at hset
  exact ⟨_, by rw [vmmMapPage_unmapped h.self hva pa ht hw, hwin.store hi]; rfl, hset⟩

/-- Mapping a page into a region without a table, which takes the permissions of the page. -/
theorem Core.mapPage_absent (ht : ¬ HasTable s (va / mb4)) (hfree : HasFree s.pmm) {pa : Nat}
    {acl : Word} (hacl : acl.toNat < kb4) {r : Int} {s' : Vmm}
    (hret : s.vmmMapPage pa va acl = .ok (r, s')) : r = vmmSuccess ∧
      ∃ de, Vmm.user de = Vmm.user acl ∧
        Becomes s s' (va / mb4) (va / kb4 % 1024) (some (de, mapEntry pa acl)) := by
  have hwr : Vmm.writable acl = true := by
    rw [← Bool.not_eq_false]
    intro hro
    obtain ⟨e, he⟩ := vmmMapPage_readOnly_faults h.self hva pa hro ht (allocFirst_aligned s.pmm)
    rw [he] at hret
    cases hret
  obtain ⟨k, hk, halloc⟩ := Pmm.allocFirst_of_hasFree hfree
  have hk20 : k < 2 ^ 20 := Nat.lt_of_lt_of_le hk.lt h.sz_le
  rw [Nat.mod_eq_of_lt (by unfold blkSz; omega)] at halloc
  rw [vmmMapPage_fills h.self hva pa hwr ht halloc (frame_mapEntry hk20 hacl) (h.ne_of_free hk).1]
    at hret
  obtain ⟨rfl, rfl⟩ := Prod.mk.inj (Except.ok.inj hret)
  exact ⟨rfl, _, user_mapEntry (by unfold blkSz kb4; omega) acl,
    h.newTable (diri_lt hva) hk ht hacl hwr _ (mapEntry_present pa acl)⟩

theorem Core.unmapPage (ht : HasTable s (va / mb4)) : ∃ s', s.vmmUnmapPage va = .ok (vmmSuccess, s') ∧
    Becomes s s' (va / mb4) (va / kb4 % 1024) none := by
  have hd := diri_lt hva
  have hset := h.set hd ht (va / kb4 % 1024) 0#32
  rw [present_zero, if_neg Bool.false_ne_true] at hset
  have hclear : Becomes s { s with phys := s.unmapEntry (va / mb4) (va / kb4 % 1024) } (va / mb4)
      (va / kb4 % 1024) none := by
    unfold unmapEntry
    split
    · exact hset
    · rename_i hp
      refine ⟨h, fun d' i' _ _ => ?_⟩
      split
      · rename_i hc
        rw [hc.1, hc.2, entryAt_eq_none_iff, slot_eq_none_iff ht]
        exact hp
      · rfl
  rcases vmmUnmapPage_clears h.self hva (h.entryFor hva ht) (h.ne_dir _ hd ht) with
    ⟨hret, _⟩ | ⟨hret, hall⟩
  · exact ⟨_, hret, hclear⟩
  · refine ⟨_, hret, h.dropTable hd ht _ fun j hj hji => ?_⟩
    rw [entryAt_eq_none_iff, slot_eq_none_iff ht, HasPage]
    have hpj := hall j hj
    rw [unmapEntry] at hpj
    split at hpj
    · rw [set_other_index _ _ _ hji] at hpj
      rw [hpj]
      exact Bool.false_ne_true
    · rw [hpj]
      exact Bool.false_ne_true

end Calls

/-! ## Runs -/

/-- The machine, and the permissions that were asked for when each page was mapped. -/
structure Perms where
  vm : Vmm
  acls : Nat → Option Word

def record (acls : Nat → Option Word) : Call → Nat → Option Word
  | .mapPage _ va acl => Function.update acls (va / kb4) (some acl)
  | .unmapPage va => Function.update acls (va / kb4) none

/-- A call, which is recorded if it is successful. -/
def permStep (r : Perms) (c : Call) : Except Stop (Int × Perms) :=
  match step r.vm c with
  | .error e => .error e
  | .ok (res, vm) => .ok (res, ⟨vm, if res = vmmSuccess then record r.acls c else r.acls⟩)

theorem permStep_ok {r : Perms} {c : Call} {res : Int} {vm : Vmm} (h : step r.vm c = .ok (res, vm)) :
    permStep r c = .ok (res, ⟨vm, if res = vmmSuccess then record r.acls c else r.acls⟩) := by
  rw [permStep, h]

/-- What the callers guarantee: addresses in the regions `vmm_init` leaves alone, aligned frames,
flag bits as permissions, and a free frame whenever a table must be created. -/
def PermPre (r : Perms) : Call → Prop
  | .mapPage pa va acl => mb4 ≤ va ∧ va < 0xFFC00000 ∧ pa % kb4 = 0 ∧ acl.toNat < kb4 ∧
      (¬ HasTable r.vm (va / mb4) → HasFree r.vm.pmm)
  | .unmapPage va => mb4 ≤ va ∧ va < 0xFFC00000

/-- The permissions of every mapped page, as the processor combines them, are those asked for. -/
def Granted (r : Perms) : Prop :=
  ∀ va, mb4 ≤ va → va < 0xFFC00000 → r.vm.walk va ≠ none →
    ∃ acl, r.acls (va / kb4) = some acl ∧
      (writable (r.vm.pde va) && writable (r.vm.pte va)) = writable acl ∧
      (user (r.vm.pde va) && user (r.vm.pte va)) = user acl

/-- A page for user mode goes into a new table or into one that is open to user mode. -/
def Covered (r : Perms) : Call → Prop
  | .mapPage _ va acl => r.vm.walk va = none → HasTable r.vm (va / mb4) → user acl = true →
      user (r.vm.pde va) = true
  | .unmapPage _ => True

/-- The table entries carry the permissions that were asked for. -/
structure Tracks (r : Perms) : Prop where
  core : Core r.vm
  pages : ∀ d i de e, 1 ≤ d → d < 1023 → i < 1024 → r.vm.entryAt d i = some (de, e) →
    ∃ acl, r.acls (1024 * d + i) = some acl ∧ writable e = writable acl ∧ user e = user acl

/-- No page for user mode stands in a table that is not. -/
def Open (r : Perms) : Prop :=
  ∀ d i de e, 1 ≤ d → d < 1023 → i < 1024 → r.vm.entryAt d i = some (de, e) →
    user e = true → user de = true

theorem region_pos {va : Nat} (h : mb4 ≤ va) : 1 ≤ va / mb4 :=
  (Nat.one_le_div_iff (by decide)).mpr h

theorem entryAt_walk {s : Vmm} {va : Nat} (hw : s.walk va ≠ none) :
    s.entryAt (va / mb4) (va / kb4 % 1024) = some (s.pde va, s.pte va) := by
  rw [walk_eq_slot] at hw
  unfold slot at hw
  unfold entryAt
  split at hw
  · rename_i hp
    rw [if_pos hp]
    rfl
  · exact absurd rfl hw

theorem Tracks.granted_iff {r : Perms} (h : Tracks r) : Granted r ↔ Open r := by
  constructor
  · intro hg d i de e h1 hd hi he hu
    have hda : (d * mb4 + i * kb4) / mb4 = d := by unfold mb4 kb4; omega
    have hia : (d * mb4 + i * kb4) / kb4 % 1024 = i := by unfold mb4 kb4; omega
    have hpage : (d * mb4 + i * kb4) / kb4 = 1024 * d + i := by unfold mb4 kb4; omega
    have hw : r.vm.walk (d * mb4 + i * kb4) ≠ none := by
      rw [walk_eq_slot, hda, hia]
      intro hn
      rw [entryAt_eq_none_iff.mpr hn] at he
      cases he
    have hent := entryAt_walk hw
    rw [hda, hia, he] at hent
    obtain ⟨hde, hpe⟩ := Prod.mk.inj (Option.some.inj hent)
    obtain ⟨acl, hacl, _, hgu⟩ := hg _ (by unfold mb4 kb4; omega) (by unfold mb4 kb4; omega) hw
    obtain ⟨acl', hacl', _, hue⟩ := h.pages d i de e h1 hd hi he
    rw [hpage, hacl'] at hacl
    cases hacl
    rw [← hde, ← hpe, ← hue, hu, Bool.and_true] at hgu
    exact hgu
  · intro ho va hva1 hva2 hw
    have hd := diri_lt hva2
    have hi : va / kb4 % 1024 < 1024 := Nat.mod_lt _ (by omega)
    have hent := entryAt_walk hw
    obtain ⟨acl, hacl, hwe, hue⟩ := h.pages _ _ _ _ (region_pos hva1) hd hi hent
    rw [← page_eq] at hacl
    obtain ⟨f, hf⟩ := Option.ne_none_iff_exists'.mp hw
    have hde : writable (r.vm.pde va) = true := h.core.writable _ hd (hasTable_of_walk hf)
    refine ⟨acl, hacl, by rw [hde, hwe, Bool.true_and], ?_⟩
    cases hu : user acl with
    | false => rw [hue, hu, Bool.and_false]
    | true => rw [hue, hu, ho _ _ _ _ (region_pos hva1) hd hi hent (hue.trans hu)]; rfl

/-- Recording a page that becomes `x`. -/
theorem Tracks.becomes {r : Perms} (h : Tracks r) {vm : Vmm} {va : Nat} {x : Option (Word × Word)}
    {a : Option Word} (hb : Becomes r.vm vm (va / mb4) (va / kb4 % 1024) x)
    (hx : ∀ de e, x = some (de, e) → ∃ acl, a = some acl ∧ writable e = writable acl ∧
      user e = user acl) : Tracks ⟨vm, Function.update r.acls (va / kb4) a⟩ := by
  have hm : va / kb4 % 1024 < 1024 := Nat.mod_lt _ (by omega)
  refine ⟨hb.1, fun d i de e h1 hd hi he => ?_⟩
  have hent := hb.2 d i hd hi
  rw [he] at hent
  simp only [Function.update_apply]
  by_cases hc : d = va / mb4 ∧ i = va / kb4 % 1024
  · rw [if_pos hc] at hent
    rw [if_pos (by rw [hc.1, hc.2]; exact (page_eq va).symm)]
    exact hx de e hent.symm
  · rw [if_neg hc] at hent
    rw [if_neg fun heq => hc (page_inj hi hm (heq.trans (page_eq va)))]
    exact h.pages d i de e h1 hd hi hent.symm

/-- The pages stay open if the one that changes is. -/
theorem Open.becomes {r : Perms} (h : Open r) {vm : Vmm} {va : Nat} {x : Option (Word × Word)}
    (hva1 : mb4 ≤ va) (hva2 : va < 0xFFC00000) (acls : Nat → Option Word)
    (hb : Becomes r.vm vm (va / mb4) (va / kb4 % 1024) x) :
    Open ⟨vm, acls⟩ ↔ ∀ de e, x = some (de, e) → user e = true → user de = true := by
  have hm : va / kb4 % 1024 < 1024 := Nat.mod_lt _ (by omega)
  constructor
  · intro ho de e hx hu
    refine ho _ _ de e (region_pos hva1) (diri_lt hva2) hm ?_ hu
    rw [hb.2 _ _ (diri_lt hva2) hm, if_pos ⟨rfl, rfl⟩, hx]
  · intro hx d i de e h1 hd hi he hu
    have hent := hb.2 d i hd hi
    rw [he] at hent
    by_cases hc : d = va / mb4 ∧ i = va / kb4 % 1024
    · rw [if_pos hc] at hent
      exact hx de e hent.symm hu
    · rw [if_neg hc] at hent
      exact h d i de e h1 hd hi hent.symm hu

/-- A call keeps the record true, and keeps the pages open exactly when it is covered. -/
theorem permStep_spec {r r' : Perms} {c : Call} {res : Int} (h : Tracks r) (ho : Open r)
    (hpre : PermPre r c) (hs : permStep r c = .ok (res, r')) :
    Tracks r' ∧ (Open r' ↔ Covered r c) := by
  cases c with
  | mapPage pa va acl =>
    obtain ⟨hva1, hva2, hpa, hacl, hfree⟩ := hpre
    simp only [permStep, step] at hs
    by_cases hw : r.vm.walk va = none
    · have hx : ∀ de₀ de e : Word, some (de₀, mapEntry pa acl) = some (de, e) →
          ∃ a, some acl = some a ∧ writable e = writable a ∧ user e = user a := by
        intro de₀ de e hx
        cases hx
        exact ⟨acl, rfl, writable_mapEntry hpa acl, user_mapEntry hpa acl⟩
      by_cases ht : HasTable r.vm (va / mb4)
      · obtain ⟨s', hret, hb⟩ := h.core.mapPage_present hva2 ht hw pa acl
        rw [hret] at hs
        cases hs
        refine ⟨h.becomes hb (hx _), (ho.becomes hva1 hva2 _ hb).trans ⟨?_, ?_⟩⟩
        · intro hopen _ _ hu
          exact hopen _ _ rfl ((user_mapEntry hpa acl).trans hu)
        · intro hcov de e heq hu
          cases heq
          exact hcov hw ht ((user_mapEntry hpa acl).symm.trans hu)
      · cases hret : r.vm.vmmMapPage pa va acl with
        | error e => rw [hret] at hs; cases hs
        | ok q =>
          obtain ⟨res', s'⟩ := q
          obtain ⟨rfl, de, hde, hb⟩ := h.core.mapPage_absent hva2 ht (hfree ht) hacl hret
          rw [hret] at hs
          cases hs
          refine ⟨h.becomes hb (hx _), (ho.becomes hva1 hva2 _ hb).trans ⟨?_, ?_⟩⟩
          · exact fun _ _ hc => absurd hc ht
          · intro _ de' e heq hu
            cases heq
            exact hde.trans ((user_mapEntry hpa acl).symm.trans hu)
    · rw [vmmMapPage_mapped h.core.self hva2 pa hw] at hs
      cases hs
      exact ⟨h, fun _ hc => absurd hc hw, fun _ => ho⟩
  | unmapPage va =>
    obtain ⟨hva1, hva2⟩ := hpre
    simp only [permStep, step] at hs
    by_cases ht : HasTable r.vm (va / mb4)
    · obtain ⟨s', hret, hb⟩ := h.core.unmapPage hva2 ht
      rw [hret] at hs
      cases hs
      refine ⟨h.becomes hb (fun de e hx => ?_), fun _ => trivial, fun _ => ?_⟩
      · cases hx
      · refine (ho.becomes hva1 hva2 _ hb).mpr fun de e hx => ?_
        cases hx
    · rw [vmmUnmapPage_absent h.core.self hva2 ht] at hs
      cases hs
      exact ⟨h, fun _ => trivial, fun _ => ho⟩

/-- A call that is not covered does return. -/
theorem permStep_of_not_covered {r : Perms} {c : Call} (h : Tracks r) (hpre : PermPre r c)
    (hc : ¬ Covered r c) : ∃ res r', permStep r c = .ok (res, r') := by
  cases c with
  | mapPage pa va acl =>
    have hw : r.vm.walk va = none := by
      by_contra hw
      exact hc fun hn => absurd hn hw
    have ht : HasTable r.vm (va / mb4) := by
      by_contra ht
      exact hc fun _ hn => absurd hn ht
    obtain ⟨s', hret, _⟩ := h.core.mapPage_present hpre.2.1 ht hw pa acl
    exact ⟨_, _, permStep_ok hret⟩
  | unmapPage va => exact absurd trivial hc

/-- The record and the openness of the pages are the invariant of a run. -/
theorem always_granted_iff (calls : List Call) {r : Perms} (h : Tracks r) (ho : Open r)
    (hadm : Machine.Admissible PermPre permStep r calls) :
    Machine.Always Granted permStep r calls ↔ Machine.Admissible Covered permStep r calls := by
  refine Machine.always_iff (I := fun r => Tracks r ∧ Open r)
    (fun r h => h.1.granted_iff.mpr h.2) ?_ ?_ ⟨h, ho⟩ hadm
  · rintro r c res r' ⟨h, ho⟩ hpre hcov hs
    obtain ⟨h', hiff⟩ := permStep_spec h ho hpre hs
    exact ⟨h', hiff.mpr hcov⟩
  · rintro r c ⟨h, ho⟩ hpre hcov
    obtain ⟨res, r', hs⟩ := permStep_of_not_covered h hpre hcov
    obtain ⟨h', hiff⟩ := permStep_spec h ho hpre hs
    exact ⟨res, r', hs, fun hg => hcov (hiff.mp (h'.granted_iff.mp hg))⟩

/-- Nothing is mapped in the regions that `vmm_init` leaves alone. -/
theorem tracks_init {s : Vmm} (hsz : s.pmm.bitmapSz ≤ 2 ^ 20) (hfree : TwoFree s.pmm) :
    Tracks ⟨s.vmmInit, fun _ => none⟩ ∧ Open ⟨s.vmmInit, fun _ => none⟩ := by
  obtain ⟨k1, k2, hb⟩ := vmmInit_built hsz hfree
  have hnone : ∀ d i, 1 ≤ d → d < 1023 → s.vmmInit.entryAt d i = none := by
    intro d i h1 hd
    refine entryAt_of_not_hasTable (fun ht => ?_) i
    have := (hb.hasTable_iff hd).mp ht
    omega
  refine ⟨⟨(hb.inv hsz).core, fun d i de e h1 hd _ he => ?_⟩, fun d i de e h1 hd _ he => ?_⟩
  · rw [hnone d i h1 hd] at he
    cases he
  · rw [hnone d i h1 hd] at he
    cases he

/-- **When pages get the permissions asked for.** In every run of `vmm_map_page` and `vmm_unmap_page`
over the regions that `vmm_init` leaves alone: the permissions of all mapped pages are those asked
for in every state, exactly when no call maps a page for user mode into a table that was created by
a call without user permission. -/
theorem perms_granted_iff {s : Vmm} (hsz : s.pmm.bitmapSz ≤ 2 ^ 20) (hfree : TwoFree s.pmm)
    (calls : List Call)
    (hpre : Machine.Admissible PermPre permStep ⟨s.vmmInit, fun _ => none⟩ calls) :
    Machine.Always Granted permStep ⟨s.vmmInit, fun _ => none⟩ calls ↔
      Machine.Admissible Covered permStep ⟨s.vmmInit, fun _ => none⟩ calls := by
  obtain ⟨h, ho⟩ := tracks_init hsz hfree
  exact always_granted_iff calls h ho hpre

/-! ## A kernel page and a user page in one region -/

/-- The first page of a region, mapped for the kernel. -/
def kernelPage : Call := .mapPage 0x800000 0x10000000 x86PageWritable

/-- The page behind it, mapped for user mode. -/
def userPage : Call := .mapPage 0x801000 0x10001000 (x86PageWritable ||| x86PageUser)

/-- After the kernel's page the region has a table that is closed to user mode, and the next page is
not mapped. -/
theorem kernelPage_closes : ∃ r', permStep ⟨sampleVmm.vmmInit, fun _ => none⟩ kernelPage =
      .ok (vmmSuccess, r') ∧ r'.vm.walk 0x10001000 = none ∧ HasTable r'.vm (0x10001000 / mb4) ∧
      user (r'.vm.pde 0x10001000) = false := by
  have hR := vmmInit_refines (s := sampleVmm) (by decide) sampleVmm_twoFree
  have hd : (0x10000000 / mb4) < 1023 := by decide
  have ht : ¬ HasTable sampleVmm.vmmInit (0x10000000 / mb4) := by
    obtain ⟨k1, k2, hb⟩ := vmmInit_built (s := sampleVmm) (by decide) sampleVmm_twoFree
    rw [hb.hasTable_iff hd]
    decide
  have hpre : Pre sampleVmm.vmmInit (.mapPage 0x800000 0x10000000 x86PageWritable) :=
    ⟨by decide, by decide, by decide, aclOk_writable, fun _ => sampleVmm_hasFree⟩
  obtain ⟨s', hret, _⟩ := mapPage_refines hR hpre
  obtain ⟨hsucc, de, hde, hb⟩ :=
    hR.inv.core.mapPage_absent (by decide) ht sampleVmm_hasFree (by decide) hret
  rw [hsucc] at hret
  have hfirst := hb.2 (0x10000000 / mb4) (0x10000000 / kb4 % 1024) hd (by decide)
  have hnext := hb.2 (0x10000000 / mb4) 1 hd (by decide)
  rw [if_pos ⟨rfl, rfl⟩] at hfirst
  rw [if_neg (by decide), entryAt_of_not_hasTable ht, entryAt_eq_none_iff] at hnext
  have hpde : HasTable s' (0x10000000 / mb4) ∧ s'.phys s'.dir (0x10000000 / mb4) = de := by
    unfold entryAt at hfirst
    split at hfirst
    · rename_i hp
      obtain ⟨he, _⟩ := Prod.mk.inj (Option.some.inj hfirst)
      rw [Bool.and_eq_true] at hp
      exact ⟨hp.1, he⟩
    · cases hfirst
  refine ⟨_, permStep_ok hret, hnext, hpde.1, ?_⟩
  show user (s'.phys s'.dir (0x10000000 / mb4)) = false
  rw [hpde.2, hde]
  decide

/-- The two calls in this order leave a page without the user permission it was mapped with. -/
theorem perms_kernel_then_user :
    ¬ Machine.Always Granted permStep ⟨sampleVmm.vmmInit, fun _ => none⟩ [kernelPage, userPage] := by
  obtain ⟨h, ho⟩ := tracks_init (s := sampleVmm) (by decide) sampleVmm_twoFree
  obtain ⟨r', hstep, hw, ht, hu⟩ := kernelPage_closes
  have hpre : Machine.Admissible PermPre permStep ⟨sampleVmm.vmmInit, fun _ => none⟩
      [kernelPage, userPage] := by
    refine Machine.Admissible.cons_of ⟨by decide, by decide, by decide, by decide,
      fun _ => sampleVmm_hasFree⟩ hstep ⟨⟨by decide, by decide, by decide, by decide, ?_⟩,
        fun _ _ _ => trivial⟩
    exact fun hno => absurd ht hno
  rw [always_granted_iff _ h ho hpre]
  rintro ⟨_, hrest⟩
  have hcov := (hrest _ _ hstep).1 hw ht (by decide)
  rw [hu] at hcov
  cases hcov

/-- A user page on its own has its permissions. -/
theorem perms_user_alone :
    Machine.Always Granted permStep ⟨sampleVmm.vmmInit, fun _ => none⟩ [userPage] := by
  have hpre : Machine.Admissible PermPre permStep ⟨sampleVmm.vmmInit, fun _ => none⟩ [userPage] :=
    ⟨⟨by decide, by decide, by decide, by decide, fun _ => sampleVmm_hasFree⟩, fun _ _ _ => trivial⟩
  refine (perms_granted_iff (by decide) sampleVmm_twoFree _ hpre).mpr ⟨?_, fun _ _ _ => trivial⟩
  intro _ ht
  obtain ⟨k1, k2, hb⟩ := vmmInit_built (s := sampleVmm) (by decide) sampleVmm_twoFree
  have := (hb.hasTable_iff (by decide)).mp ht
  exact absurd this (by decide)

end Vmm
end Frod
