import Mathlib.Data.List.Rotate
import Frod.Dllist.Order

/-!
# Frod.Dllist.Find

Looking an element up and removing it.

`dllist_find` stops when an element compares equal or greater and not when it is back at the first
one, so `looksUp_iff` needs an element that is not before the key. `dllist_remove` takes what
`dllist_find` returns, the caller's data, for a node and leaves the counter alone: `removes_iff` is
about keys that are not in the list only.
-/

namespace Frod
namespace Dllist

variable {l : Head} {val : Word} {ns : List Word}

/-- What `lessthan_find` says about the data of the node `n`. -/
def cmpOf (l : Head) (val n : Word) : Int := l.lessthanFind l.nodes (l.nodes n).element val

/-- First the elements before the key, then those that match it, then those after it. -/
def SortedAt (l : Head) (val : Word) (ns : List Word) : Prop :=
  ns.Pairwise fun a b => (0 ≤ cmpOf l val a → 0 ≤ cmpOf l val b) ∧ (0 < cmpOf l val a → 0 < cmpOf l val b)

def Present (l : Head) (val : Word) (ns : List Word) : Prop := ∃ n ∈ ns, cmpOf l val n = 0

/-- `dllist_find` returns an element that matches, or null when none does. -/
def LooksUp (l : Head) (val : Word) (ns : List Word) : Prop :=
  ∃ fuel out, dllistFind fuel l val = .ok out ∧
    (Present l val ns → ∃ n ∈ ns, cmpOf l val n = 0 ∧ out = (l.nodes n).element) ∧
    (¬ Present l val ns → out = 0)

/-! ## The loop of `dllist_find` -/

/-- It passes the nodes that are before the key. -/
theorem findLoop_path {n : Word} {fuel : Nat} {ns : List Word} : ∀ {curr : Word},
    Path (nextOf l.nodes) curr ns n → (∀ a ∈ ns, cmpOf l val a < 0) →
    findLoop l val (ns.length + fuel) curr = findLoop l val fuel n := by
  induction ns with
  | nil =>
    intro curr hpath _
    rw [show curr = n from hpath, List.length_nil, Nat.zero_add]
  | cons x ns ih =>
    intro curr hpath hneg
    obtain ⟨rfl, hpath⟩ := hpath
    have hx : l.lessthanFind l.nodes (l.nodes curr).element val < 0 := hneg curr List.mem_cons_self
    have hlen : (curr :: ns).length + fuel = (ns.length + fuel) + 1 := by
      rw [List.length_cons]
      omega
    rw [hlen, findLoop, if_neg (by omega), if_pos (by omega)]
    exact ih hpath fun a ha => hneg a (List.mem_cons_of_mem _ ha)

theorem findLoop_stop {n : Word} (fuel : Nat) (hn : 0 ≤ cmpOf l val n) :
    findLoop l val (fuel + 1) n = .ok (if cmpOf l val n = 0 then (l.nodes n).element else 0) := by
  have hcmp : 0 ≤ l.lessthanFind l.nodes (l.nodes n).element val := hn
  rw [findLoop, cmpOf]
  split
  · rfl
  · rw [if_neg (by omega)]

/-- Where every node is before the key, it goes round for ever. -/
theorem findLoop_diverges (hring : Once (nextOf l.nodes) l.elem ns)
    (hneg : ∀ n ∈ ns, cmpOf l val n < 0) : ∀ (fuel : Nat) {curr : Word}, curr ∈ ns →
    findLoop l val fuel curr = .error .diverges := by
  intro fuel
  induction fuel with
  | zero => intro curr _; rfl
  | succ fuel ih =>
    intro curr hcurr
    have hlt : l.lessthanFind l.nodes (l.nodes curr).element val < 0 := hneg curr hcurr
    rw [findLoop, if_neg (by omega), if_pos (by omega)]
    exact ih (hring.next_mem hcurr)

/-- What `dllist_find` returns is decided by the first node that is not before the key. -/
theorem dllistFind_first (hring : Once (nextOf l.nodes) l.elem ns) (hnull : l.elem ≠ 0)
    (hsome : ∃ n ∈ ns, 0 ≤ cmpOf l val n) :
    ∃ as n bs, ns = as ++ n :: bs ∧ (∀ a ∈ as, cmpOf l val a < 0) ∧ 0 ≤ cmpOf l val n ∧
      dllistFind (as.length + 1) l val =
        .ok (if cmpOf l val n = 0 then (l.nodes n).element else 0) := by
  obtain ⟨n₀, hn₀, hge⟩ := hsome
  have hfind : (ns.find? fun n => decide (0 ≤ cmpOf l val n)).isSome := by
    rw [List.find?_isSome]
    exact ⟨n₀, hn₀, decide_eq_true hge⟩
  obtain ⟨n, hn⟩ := Option.isSome_iff_exists.mp hfind
  obtain ⟨hdec, as, bs, rfl, has⟩ := List.find?_eq_some_iff_append.mp hn
  have hbefore : ∀ a ∈ as, cmpOf l val a < 0 := by
    intro a ha
    have h := has a ha
    simp only [Bool.not_eq_true', decide_eq_false_iff_not] at h
    omega
  have hcmp : 0 ≤ cmpOf l val n := of_decide_eq_true hdec
  refine ⟨as, n, bs, rfl, hbefore, hcmp, ?_⟩
  obtain ⟨c, hpath, hrest⟩ := Path.append.mp hring.path
  obtain ⟨rfl, _⟩ := hrest
  rw [dllistFind, if_neg hnull, findLoop_path hpath hbefore, findLoop_stop 0 hcmp]

/-- Lookup ends with the right answer exactly when some element is not before the key. -/
theorem looksUp_iff (hring : Once (nextOf l.nodes) l.elem ns) (hnull : l.elem ≠ 0)
    (hsorted : SortedAt l val ns) : LooksUp l val ns ↔ ∃ n ∈ ns, 0 ≤ cmpOf l val n := by
  constructor
  · rintro ⟨fuel, out, hfind, _⟩
    by_contra hnone
    have hneg : ∀ n ∈ ns, cmpOf l val n < 0 := by
      intro n hn
      by_contra hge
      exact hnone ⟨n, hn, by omega⟩
    rw [dllistFind, if_neg hnull, findLoop_diverges hring hneg fuel hring.mem] at hfind
    cases hfind
  · intro hsome
    obtain ⟨as, n, bs, rfl, hbefore, hge, hfind⟩ := dllistFind_first hring hnull hsome
    refine ⟨_, _, hfind, fun hpres => ?_, fun habs => ?_⟩
    · by_cases hzero : cmpOf l val n = 0
      · exact ⟨n, by simp, hzero, if_pos hzero⟩
      · -- the nodes in front are before the key and the ones behind are after it
        exfalso
        obtain ⟨a, ha, hcmp⟩ := hpres
        have hafter := (List.pairwise_cons.mp (List.pairwise_append.mp hsorted).2.1).1
        rcases List.mem_append.mp ha with ha | ha
        · have hlt := hbefore a ha
          omega
        · rcases List.mem_cons.mp ha with rfl | ha
          · exact hzero hcmp
          · have hgt := (hafter a ha).2 (by omega)
            omega
    · exact if_neg fun hzero => habs ⟨n, by simp, hzero⟩

/-! ## Removal -/

/-- A list of any length: no node at all, or a ring from `l->elem` on. -/
structure IsList (l : Head) (ns : List Word) : Prop where
  empty : ns = [] → l.elem = 0
  ring : ns ≠ [] → Once (nextOf l.nodes) l.elem ns
  nonNull : 0 ∉ ns
  next_prev : ∀ n ∈ ns, (l.nodes (l.nodes n).next).prev = n
  prev_next : ∀ n ∈ ns, (l.nodes (l.nodes n).prev).next = n
  count : l.elements.toNat = ns.length

/-- `dllist_remove` frees the node of an element that matches and returns its data, and what is left
is the list of the others; without a match it returns null and changes nothing. -/
def Removes (l : Head) (ns : List Word) (val : Word) (freed : Except Stop Unit) : Prop :=
  (Present l val ns → ∃ fuel n l', n ∈ ns ∧ cmpOf l val n = 0 ∧
    dllistRemove fuel l val freed = .ok (n, (l.nodes n).element, l') ∧ l'.elements + 1 = l.elements ∧
    ∃ ns', IsList l' ns' ∧ ns' ~r ns.erase n ∧ elementsOf l'.nodes ns' = elementsOf l.nodes ns') ∧
  (¬ Present l val ns → ∃ fuel, dllistRemove fuel l val freed = .ok (0, 0, l))

theorem dllistRemove_elements {l' : Head} {fuel : Nat} {freed : Except Stop Unit} {elem ret : Word}
    (h : dllistRemove fuel l val freed = .ok (elem, ret, l')) : l'.elements = l.elements := by
  rw [dllistRemove] at h
  split at h
  · cases h
  · dsimp only at h
    split at h
    · cases h
      rfl
    · split at h
      · cases h
      · cases h
        rfl

/-- The counter stays as it is, so no element is ever removed. -/
theorem not_removes_of_present {freed : Except Stop Unit} (hpres : Present l val ns) :
    ¬ Removes l ns val freed := by
  intro h
  obtain ⟨fuel, n, l', _, _, hremove, hcount, _⟩ := h.1 hpres
  rw [dllistRemove_elements hremove] at hcount
  have hsucc := congrArg BitVec.toNat hcount
  rw [BitVec.toNat_add] at hsucc
  have hlt := l.elements.isLt
  have hone : (1 : Word).toNat = 1 := rfl
  omega

theorem IsList.elem_ne_zero (h : IsList l ns) (hne : ns ≠ []) : l.elem ≠ 0 := by
  intro hzero
  exact h.nonNull (hzero ▸ (h.ring hne).mem)

/-- Removal does what it is for exactly when there is nothing to remove and the search for it ends. -/
theorem removes_iff {freed : Except Stop Unit} (h : IsList l ns) :
    Removes l ns val freed ↔
      (∀ n ∈ ns, cmpOf l val n ≠ 0) ∧ (ns = [] ∨ ∃ n ∈ ns, 0 < cmpOf l val n) := by
  constructor
  · intro hrem
    have habs : ∀ n ∈ ns, cmpOf l val n ≠ 0 := by
      intro n hn hzero
      exact not_removes_of_present ⟨n, hn, hzero⟩ hrem
    refine ⟨habs, or_iff_not_imp_left.mpr fun hne => ?_⟩
    by_contra hnone
    have hneg : ∀ n ∈ ns, cmpOf l val n < 0 := by
      intro n hn
      have hz := habs n hn
      by_contra hge
      exact hnone ⟨n, hn, by omega⟩
    obtain ⟨fuel, hok⟩ := hrem.2 fun ⟨n, hn, hzero⟩ => habs n hn hzero
    have hring := h.ring hne
    rw [dllistRemove, dllistFind, if_neg (h.elem_ne_zero hne),
      findLoop_diverges hring hneg fuel hring.mem] at hok
    cases hok
  · rintro ⟨habs, hend⟩
    refine ⟨fun ⟨n, hn, hzero⟩ => absurd hzero (habs n hn), fun _ => ?_⟩
    rcases hend with hnil | ⟨n₀, hn₀, hpos⟩
    · refine ⟨0, ?_⟩
      rw [dllistRemove, dllistFind, if_pos (h.empty hnil)]
      rfl
    · have hne : ns ≠ [] := List.ne_nil_of_mem hn₀
      have hsome : ∃ n ∈ ns, 0 ≤ cmpOf l val n := ⟨n₀, hn₀, hpos.le⟩
      obtain ⟨as, n, bs, hns, _, _, hfind⟩ :=
        dllistFind_first (h.ring hne) (h.elem_ne_zero hne) hsome
      rw [if_neg (habs n (by rw [hns]; simp))] at hfind
      refine ⟨as.length + 1, ?_⟩
      rw [dllistRemove, hfind]
      rfl

/-! ## A list of three elements -/

/-- Nodes 0x10, 0x20 and 0x30 with the data 0x100, 0x200 and 0x300, compared by address. -/
def sampleRing : Head :=
  ⟨fun _ a b => (b.toNat : Int) - a.toNat, fun _ a b => (a.toNat : Int) - b.toNat, 0x10, 3,
    fun a => if a = 0x10 then ⟨0x100, 0x30, 0x20⟩ else if a = 0x20 then ⟨0x200, 0x10, 0x30⟩
      else ⟨0x300, 0x20, 0x10⟩⟩

theorem sampleRing_isList : IsList sampleRing [0x10, 0x20, 0x30] := by
  refine ⟨fun h => absurd h (List.cons_ne_nil _ _),
    fun _ => ⟨⟨rfl, rfl, rfl, rfl⟩, by decide, List.cons_ne_nil _ _⟩, by decide, fun n hn => ?_,
    fun n hn => ?_, rfl⟩
  · simp only [List.mem_cons, List.not_mem_nil, or_false] at hn
    rcases hn with rfl | rfl | rfl
    · rfl
    · rfl
    · rfl
  · simp only [List.mem_cons, List.not_mem_nil, or_false] at hn
    rcases hn with rfl | rfl | rfl
    · rfl
    · rfl
    · rfl

/-- The three comparisons for a key. -/
theorem sampleRing_cmp (val : Word) : cmpOf sampleRing val 0x10 = 0x100 - (val.toNat : Int) ∧
    cmpOf sampleRing val 0x20 = 0x200 - (val.toNat : Int) ∧
    cmpOf sampleRing val 0x30 = 0x300 - (val.toNat : Int) := ⟨rfl, rfl, rfl⟩

theorem sampleRing_sorted (val : Word) : SortedAt sampleRing val [0x10, 0x20, 0x30] := by
  obtain ⟨h1, h2, h3⟩ := sampleRing_cmp val
  refine List.pairwise_cons.mpr ⟨fun b hb => ?_, List.pairwise_cons.mpr ⟨fun b hb => ?_,
    List.pairwise_singleton _ _⟩⟩
  · simp only [List.mem_cons, List.not_mem_nil, or_false] at hb
    rcases hb with rfl | rfl
    · omega
    · omega
  · rw [List.mem_singleton.mp hb]
    omega

/-- A key in the middle is found, and one between two elements is not. -/
theorem looksUp_iff_sampleRing : LooksUp sampleRing 0x200 [0x10, 0x20, 0x30] ∧
    LooksUp sampleRing 0x280 [0x10, 0x20, 0x30] := by
  have hring := sampleRing_isList.ring (List.cons_ne_nil _ _)
  have hnull : sampleRing.elem ≠ 0 := by decide
  exact ⟨(looksUp_iff hring hnull (sampleRing_sorted _)).mpr ⟨0x20, by decide, by decide⟩,
    (looksUp_iff hring hnull (sampleRing_sorted _)).mpr ⟨0x30, by decide, by decide⟩⟩

/-- A key between two elements is not there and nothing is removed, one that is there should be. -/
theorem removes_iff_sampleRing : Removes sampleRing [0x10, 0x20, 0x30] 0x280 (.ok ()) ∧
    ¬ Removes sampleRing [0x10, 0x20, 0x30] 0x200 (.ok ()) := by
  have habs : ∀ n ∈ [(0x10 : Word), 0x20, 0x30], cmpOf sampleRing 0x280 n ≠ 0 := by
    intro n hn
    simp only [List.mem_cons, List.not_mem_nil, or_false] at hn
    rcases hn with rfl | rfl | rfl
    · decide
    · decide
    · decide
  exact ⟨(removes_iff sampleRing_isList).mpr ⟨habs, .inr ⟨0x30, by decide, by decide⟩⟩,
    fun h => ((removes_iff sampleRing_isList).mp h).1 0x20 (by decide) (by decide)⟩

/-! ## The list of one element -/

theorem sample_isList : IsList sample.list [0x20000010] := by
  refine ⟨fun h => absurd h (List.cons_ne_nil _ _), fun _ => ⟨⟨rfl, rfl⟩, by decide, List.cons_ne_nil _ _⟩,
    by decide, ?_, ?_, rfl⟩
  · intro n hn
    rw [List.mem_singleton.mp hn]
    rfl
  · intro n hn
    rw [List.mem_singleton.mp hn]
    rfl

/-- A key behind the last element: the search does not end. -/
theorem not_looksUp_beyond : Once (nextOf sample.list.nodes) sample.list.elem [0x20000010] ∧
    sample.list.elem ≠ 0 ∧ SortedAt sample.list 0x20000110 [0x20000010] ∧
    ¬ LooksUp sample.list 0x20000110 [0x20000010] := by
  have hring := sample_isList.ring (List.cons_ne_nil _ _)
  refine ⟨hring, by decide, List.pairwise_singleton _ _, ?_⟩
  rintro ⟨fuel, out, hfind, _⟩
  have hneg : ∀ n ∈ [(0x20000010 : Word)], cmpOf sample.list 0x20000110 n < 0 := by
    intro n hn
    rw [List.mem_singleton.mp hn]
    decide
  have hnull : sample.list.elem ≠ 0 := by decide
  rw [dllistFind, if_neg hnull, findLoop_diverges hring hneg fuel hring.mem] at hfind
  cases hfind

theorem not_removes_sample : IsList sample.list [0x20000010] ∧
    Present sample.list 0x20000100 [0x20000010] ∧
    ¬ Removes sample.list [0x20000010] 0x20000100 (.ok ()) := by
  have hpres : Present sample.list 0x20000100 [0x20000010] := ⟨0x20000010, by decide, by decide⟩
  exact ⟨sample_isList, hpres, not_removes_of_present hpres⟩

end Dllist
end Frod
