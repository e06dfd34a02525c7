import Frod.Lib.Path
import Frod.Dllist.Ring

/-!
# Frod.Dllist.Order

The order `dllist_insert` gives a list.

No insertion writes a `prev` field of a node that was there, so in a list that only insertions built
every `prev` is the first node, and every insertion hangs its node in right after that one, whatever
the comparison says (`Fan.insert`). The list is the first element and then the others, the last
inserted in front, which `insertAll_ordered_iff` compares with the order the comparison asks for.
-/

namespace Frod
namespace Dllist

/-- The data of the nodes `ns`. -/
def elementsOf (m : Nodes) (ns : List Word) : List Word := ns.map fun n => (m n).element

/-- `dllist_insert` of one element after the other, each with the node `heap_malloc` returns. -/
def insertAll (fuel : Nat) : Head → List (Word × Word) → Except Stop Head
  | l, [] => .ok l
  | l, (n, el) :: els =>
    match dllistInsert fuel l n el with
    | .error e => .error e
    | .ok l => insertAll fuel l els

/-- Once around from `l->elem`, the list is sorted and has exactly the elements `els`. -/
def Ordered (less : Word → Word → Int) (l : Head) (els : List Word) : Prop :=
  ∃ ns, Once (nextOf l.nodes) l.elem ns ∧
    (elementsOf l.nodes ns).Pairwise (fun a b => ¬ less b a > 0) ∧ (elementsOf l.nodes ns).Perm els

/-- The ring of a list that only insertions built: every node names the first one as the one before
it. -/
structure Fan (l : Head) (rest : List Word) : Prop where
  ring : Once (nextOf l.nodes) l.elem (l.elem :: rest)
  prev : ∀ n ∈ l.elem :: rest, (l.nodes n).prev = l.elem
  nonNull : l.elem ≠ 0

namespace Fan

variable {l : Head} {rest : List Word} {n el : Word}

theorem init {m : Nodes} {n el : Word} {f1 f2 : Lessthan} (hn : n ≠ 0) :
    Fan (dllistInit m n el f1 f2) [] := by
  refine ⟨⟨⟨rfl, ?_⟩, List.nodup_singleton n, List.cons_ne_nil _ _⟩, ?_, hn⟩
  · simp [Path, nextOf, dllistInit]
  · simp [dllistInit]

/-- Wherever the loop stops, it hangs the node in after the first one and leaves the first one
first. The rest of the ring is what it has still to look at. -/
theorem insertLoop_eq (h : Fan l rest) : ∀ {ns : List Word} {curr : Word} {fuel : Nat},
    curr ∈ l.elem :: rest → (∀ a ∈ ns, a ∈ l.elem :: rest) → l.elem ∉ ns →
    Path (nextOf l.nodes) (nextOf l.nodes curr) ns l.elem → ns.length < fuel →
    insertLoop l n el fuel curr =
      .ok { l with nodes := dllistInsertLocation l.nodes n l.elem el } := by
  intro ns
  induction ns with
  | nil =>
    intro curr fuel hcurr _ _ hpath hfuel
    obtain ⟨fuel, rfl⟩ : ∃ k, fuel = k + 1 := ⟨fuel - 1, by omega⟩
    have hnext : (l.nodes curr).next = l.elem := hpath
    rw [insertLoop]
    dsimp only
    rw [h.prev curr hcurr, hnext, h.prev _ List.mem_cons_self]
    simp only [ne_eq, not_true_eq_false, if_false, ite_self]
  | cons x ns ih =>
    intro curr fuel hcurr hns helem hpath hfuel
    obtain ⟨fuel, rfl⟩ : ∃ k, fuel = k + 1 := ⟨fuel - 1, by omega⟩
    have hnext : (l.nodes curr).next = x := hpath.1
    have hx : l.elem ≠ x := fun hx => helem (hx ▸ List.mem_cons_self)
    have hlen : ns.length < fuel := by
      rw [List.length_cons] at hfuel
      omega
    have hloop := ih (hns x List.mem_cons_self) (fun a ha => hns a (List.mem_cons_of_mem _ ha))
      (fun ha => helem (List.mem_cons_of_mem _ ha)) hpath.2 hlen
    rw [insertLoop]
    dsimp only
    rw [h.prev curr hcurr, hnext, if_pos hx, hloop]
    simp only [ite_self]

/-- The new node after `dllist_insert_location` behind the first one, the first one and the others. -/
theorem insertLocation_new (hne : l.elem ≠ n) :
    dllistInsertLocation l.nodes n l.elem el n = ⟨el, l.elem, (l.nodes l.elem).next⟩ := by
  rw [insertLocation_eq_hang hne, hang, Function.update_self]

theorem insertLocation_first (hne : l.elem ≠ n) :
    dllistInsertLocation l.nodes n l.elem el l.elem = { l.nodes l.elem with next := n } := by
  rw [insertLocation_eq_hang hne, hang, Function.update_of_ne hne, Function.update_self]

theorem insertLocation_rest (h : Fan l rest) (hfresh : n ∉ l.elem :: rest) :
    ∀ a ∈ rest, dllistInsertLocation l.nodes n l.elem el a = l.nodes a := by
  intro a ha
  have hne : l.elem ≠ n := fun hn => hfresh (hn ▸ List.mem_cons_self)
  have han : a ≠ n := fun hn => hfresh (hn ▸ List.mem_cons_of_mem _ ha)
  have hal : a ≠ l.elem := fun hal => (List.nodup_cons.mp h.ring.nodup).1 (hal ▸ ha)
  rw [insertLocation_eq_hang hne, hang, Function.update_of_ne han, Function.update_of_ne hal]

theorem insertLocation (h : Fan l rest) (el : Word) (hfresh : n ∉ l.elem :: rest) {k : Word} :
    Fan { l with nodes := dllistInsertLocation l.nodes n l.elem el, elements := k } (n :: rest) := by
  have hne : l.elem ≠ n := fun hn => hfresh (hn ▸ List.mem_cons_self)
  have hnd := List.nodup_cons.mp h.ring.nodup
  refine ⟨⟨⟨rfl, ?_, ?_⟩, ?_, List.cons_ne_nil _ _⟩, ?_, h.nonNull⟩
  · change (dllistInsertLocation l.nodes n l.elem el l.elem).next = n
    rw [insertLocation_first hne]
  · change Path (nextOf (dllistInsertLocation l.nodes n l.elem el))
      (dllistInsertLocation l.nodes n l.elem el n).next rest l.elem
    rw [insertLocation_new hne]
    refine Path.congr h.ring.path.2 fun a ha => ?_
    rw [nextOf, nextOf, h.insertLocation_rest hfresh a ha]
  · refine List.nodup_cons.mpr ⟨fun hmem => ?_, List.nodup_cons.mpr ⟨fun hmem => ?_, hnd.2⟩⟩
    · rcases List.mem_cons.mp hmem with hmem | hmem
      · exact hne hmem
      · exact hnd.1 hmem
    · exact hfresh (List.mem_cons_of_mem _ hmem)
  · intro a ha
    change (dllistInsertLocation l.nodes n l.elem el a).prev = l.elem
    rcases List.mem_cons.mp ha with rfl | ha
    · rw [insertLocation_first hne]
      exact h.prev _ List.mem_cons_self
    · rcases List.mem_cons.mp ha with rfl | ha
      · rw [insertLocation_new hne]
      · rw [h.insertLocation_rest hfresh a ha]
        exact h.prev a (List.mem_cons_of_mem _ ha)

/-- One insertion: the new node is the second of the ring. -/
theorem insert (h : Fan l rest) {fuel : Nat} (el : Word) (hfresh : n ∉ l.elem :: rest)
    (hfuel : rest.length < fuel) :
    ∃ l', dllistInsert fuel l n el = .ok l' ∧ l'.elem = l.elem ∧ Fan l' (n :: rest) ∧
      elementsOf l'.nodes (n :: rest) = el :: elementsOf l.nodes rest ∧
      (l'.nodes l.elem).element = (l.nodes l.elem).element := by
  have hne : l.elem ≠ n := fun hn => hfresh (hn ▸ List.mem_cons_self)
  refine ⟨{ l with nodes := dllistInsertLocation l.nodes n l.elem el, elements := l.elements + 1 },
    ?_, rfl, h.insertLocation el hfresh, ?_, ?_⟩
  · rw [dllistInsert]
    dsimp only
    rw [if_neg h.nonNull]
    have hcount : Fan { l with elements := l.elements + 1 } rest := ⟨h.ring, h.prev, h.nonNull⟩
    exact hcount.insertLoop_eq List.mem_cons_self (fun a ha => List.mem_cons_of_mem _ ha)
      (List.nodup_cons.mp h.ring.nodup).1 h.ring.path.2 hfuel
  · change (dllistInsertLocation l.nodes n l.elem el n).element ::
      rest.map (fun a => (dllistInsertLocation l.nodes n l.elem el a).element) = _
    rw [insertLocation_new hne]
    refine congrArg (el :: ·) (List.map_congr_left fun a ha => ?_)
    rw [h.insertLocation_rest hfresh a ha]
  · change (dllistInsertLocation l.nodes n l.elem el l.elem).element = _
    rw [insertLocation_first hne]

/-- All of them: the ring has the nodes in the opposite order of their insertion. -/
theorem insertAll_eq {els : List (Word × Word)} : ∀ {l : Head} {rest : List Word} {fuel : Nat},
    Fan l rest → (∀ e ∈ els, e.1 ∉ l.elem :: rest) → (els.map Prod.fst).Nodup →
    rest.length + els.length ≤ fuel →
    ∃ l', insertAll fuel l els = .ok l' ∧ l'.elem = l.elem ∧
      Fan l' ((els.map Prod.fst).reverse ++ rest) ∧
      elementsOf l'.nodes ((els.map Prod.fst).reverse ++ rest) =
        (els.map Prod.snd).reverse ++ elementsOf l.nodes rest ∧
      (l'.nodes l.elem).element = (l.nodes l.elem).element := by
  induction els with
  | nil =>
    intro l rest fuel h _ _ _
    exact ⟨l, rfl, rfl, h, rfl, rfl⟩
  | cons e els ih =>
    intro l rest fuel h hfresh hnd hfuel
    obtain ⟨n, el⟩ := e
    rw [List.length_cons] at hfuel
    obtain ⟨hn, hnd⟩ := List.nodup_cons.mp hnd
    obtain ⟨l₁, h₁, helem₁, hfan₁, hels₁, hfirst₁⟩ :=
      h.insert el (hfresh (n, el) List.mem_cons_self) (show rest.length < fuel by omega)
    have hfresh₁ : ∀ e ∈ els, e.1 ∉ l₁.elem :: n :: rest := by
      intro e he hmem
      rw [helem₁] at hmem
      rcases List.mem_cons.mp hmem with hmem | hmem
      · exact hfresh e (List.mem_cons_of_mem _ he) (hmem ▸ List.mem_cons_self)
      · rcases List.mem_cons.mp hmem with hmem | hmem
        · exact hn (List.mem_map.mpr ⟨e, he, hmem⟩)
        · exact hfresh e (List.mem_cons_of_mem _ he) (List.mem_cons_of_mem _ hmem)
    have hlen : (n :: rest).length + els.length ≤ fuel := by
      rw [List.length_cons]
      omega
    obtain ⟨l', h', helem', hfan', hels', hfirst'⟩ := ih hfan₁ hfresh₁ hnd hlen
    refine ⟨l', ?_, helem'.trans helem₁, ?_, ?_, ?_⟩
    · rw [insertAll, h₁]
      exact h'
    · simpa using hfan'
    · simpa [hels₁] using hels'
    · rw [helem₁] at hfirst'
      exact hfirst'.trans hfirst₁

end Fan

/-- A list made by `dllist_init` and `dllist_insert` is sorted exactly when no element sorts before
the first one or before one that was inserted after it. -/
theorem insertAll_ordered_iff {less : Word → Word → Int} {m : Nodes} {n first : Word} {f2 : Lessthan}
    {els : List (Word × Word)} {fuel : Nat} (hn : n ≠ 0) (hnodup : (n :: els.map Prod.fst).Nodup)
    (hfuel : els.length ≤ fuel) :
    ∃ l, insertAll fuel (dllistInit m n first (fun _ => less) f2) els = .ok l ∧
      (Ordered less l (first :: els.map Prod.snd) ↔
        (∀ e ∈ els.map Prod.snd, ¬ less e first > 0) ∧
          (els.map Prod.snd).Pairwise fun a b => ¬ less a b > 0) := by
  have hnodes := List.nodup_cons.mp hnodup
  have hfresh : ∀ e ∈ els, e.1 ∉ [n] := by
    intro e he hmem
    exact hnodes.1 (List.mem_singleton.mp hmem ▸ List.mem_map_of_mem he)
  have hlen : ([] : List Word).length + els.length ≤ fuel := by
    rw [List.length_nil]
    omega
  have hinit : Fan (dllistInit m n first (fun _ => less) f2) [] := Fan.init hn
  obtain ⟨l, hl, helem, hfan, hels, hfirst⟩ := hinit.insertAll_eq hfresh hnodes.2 hlen
  have hread : elementsOf l.nodes (l.elem :: ((els.map Prod.fst).reverse ++ [])) =
      first :: (els.map Prod.snd).reverse := by
    have hdata : ((dllistInit m n first (fun _ => less) f2).nodes n).element = first := by
      simp [dllistInit]
    rw [elementsOf, List.map_cons, helem]
    refine congrArg₂ List.cons (hfirst.trans hdata) ?_
    simpa [elementsOf] using hels
  refine ⟨l, hl, ?_⟩
  have hsorted : (first :: (els.map Prod.snd).reverse).Pairwise (fun a b => ¬ less b a > 0) ↔
      (∀ e ∈ els.map Prod.snd, ¬ less e first > 0) ∧
        (els.map Prod.snd).Pairwise fun a b => ¬ less a b > 0 := by
    rw [List.pairwise_cons, List.pairwise_reverse]
    simp only [List.mem_reverse]
  rw [← hsorted]
  constructor
  · rintro ⟨ns, hring, hsort, _⟩
    rwa [hring.unique hfan.ring, hread] at hsort
  · intro hsort
    refine ⟨_, hfan.ring, ?_, ?_⟩
    · rwa [hread]
    · rw [hread]
      exact (List.reverse_perm _).cons first

/-- A comparison that induces a total preorder: `less a b > 0` is its strict part. -/
structure Sorts (less : Word → Word → Int) : Prop where
  total : ∀ a b, less a b > 0 → ¬ less b a > 0
  trans : ∀ a b c, ¬ less b a > 0 → ¬ less c b > 0 → ¬ less c a > 0

/-- Elements sorted by their addresses. -/
def byAddress (a b : Word) : Int := if a < b then 1 else if b < a then -1 else 0

theorem byAddress_pos {a b : Word} : byAddress a b > 0 ↔ a < b := by
  rw [byAddress]
  split
  · rename_i hlt
    exact ⟨fun _ => hlt, fun _ => by decide⟩
  · rename_i hle
    refine ⟨fun hpos => ?_, fun hlt => absurd hlt hle⟩
    split at hpos
    · exact absurd hpos (by decide)
    · exact absurd hpos (by decide)

theorem sorts_byAddress : Sorts byAddress := by
  refine ⟨fun a b hab hba => ?_, fun a b c hab hbc hac => ?_⟩
  · rw [byAddress_pos] at hab hba
    exact BitVec.lt_asymm hab hba
  · rw [byAddress_pos] at hab hbc hac
    rw [BitVec.lt_def] at hab hbc hac
    omega

/-- A list of one element, sorted by address. -/
def byAddressInit : Head :=
  dllistInit (fun _ => ⟨0, 0, 0⟩) 0x10 0x100 (fun _ => byAddress) fun _ => byAddress

/-- Descending elements after the lowest one. -/
theorem insertAll_ordered_iff_descending :
    ∃ l, insertAll 2 byAddressInit [(0x20, 0x300), (0x30, 0x200)] = .ok l ∧
      Ordered byAddress l [0x100, 0x300, 0x200] := by
  have hnodup : ((0x10 : Word) :: [((0x20 : Word), (0x300 : Word)), (0x30, 0x200)].map Prod.fst).Nodup := by
    decide
  obtain ⟨l, hl, hiff⟩ := insertAll_ordered_iff (by decide) hnodup (Nat.le_refl 2)
  exact ⟨l, hl, hiff.mpr ⟨by simp [byAddress_pos], by simp [byAddress_pos]⟩⟩

/-- Ascending elements: the third one stands before the second. -/
theorem not_ordered_ascending : Sorts byAddress ∧
    ∃ l, insertAll 2 byAddressInit [(0x20, 0x200), (0x30, 0x300)] = .ok l ∧
      ¬ Ordered byAddress l [0x100, 0x200, 0x300] := by
  have hring : ∀ l, insertAll 2 byAddressInit [(0x20, 0x200), (0x30, 0x300)] = .ok l →
      l.elem = 0x10 ∧ elementsOf l.nodes [0x10, 0x30, 0x20] = [0x100, 0x300, 0x200] ∧
        Path (nextOf l.nodes) 0x10 [0x10, 0x30, 0x20] 0x10 := by
    rintro l ⟨⟩
    exact ⟨rfl, rfl, rfl, rfl, rfl, rfl⟩
  obtain ⟨l, hl⟩ : ∃ l, insertAll 2 byAddressInit [(0x20, 0x200), (0x30, 0x300)] = .ok l := ⟨_, rfl⟩
  obtain ⟨helem, hread, hpath⟩ := hring l hl
  refine ⟨sorts_byAddress, l, hl, ?_⟩
  rintro ⟨ns, hns, hsorted, _⟩
  have hone : Once (nextOf l.nodes) l.elem [0x10, 0x30, 0x20] := by
    rw [helem]
    exact ⟨hpath, by decide, List.cons_ne_nil _ _⟩
  rw [hns.unique hone, hread] at hsorted
  exact absurd hsorted (by simp [byAddress_pos])

end Dllist
end Frod
