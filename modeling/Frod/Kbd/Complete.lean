import Frod.Kbd.Decode
import Frod.Kbd.Refs

/-!
# Frod.Kbd.Complete

Which tables the key-set generator turns into blocks without losing a sequence.

A sequence is put into a block if it is one byte, or a listed prefix and one byte more; what fits
nowhere is left over and never looked at again. It is found again if the references lead to that
block and none of them is written over its element. As only one-byte prefixes are remembered for the
references, no sequence of more than three bytes is found at all. `dropsNoKey_iff` collects these
conditions and says that they are all.
-/

namespace Frod
namespace Kbd

/-! ## Following a sequence -/

/-- The element that the bytes of a sequence lead to from block `n`: every byte but the last has to
be at a reference. -/
def lookup (data : List Block) : Nat → List Byte → Option Elem
  | _, [] => none
  | n, [x] => data[n]?.map fun B => B x
  | n, x :: y :: s =>
    match data[n]? with
    | none => none
    | some B => if pending (B x) then lookup data (B x).1.toNat (y :: s) else none

section Lookup

variable {data : List Block} {n : Nat} {B : Block} (hB : data[n]? = some B)
include hB

theorem lookup_last (x : Byte) : lookup data n [x] = some (B x) := by
  rw [lookup, hB]
  rfl

theorem lookup_reference {x : Byte} {m : Nat} (hx : B x = reference m) (hm : m < 256) (y : Byte)
    (s : List Byte) : lookup data n (x :: y :: s) = lookup data m (y :: s) := by
  have hnum : (reference m).1.toNat = m := by
    show (BitVec.ofNat 8 m).toNat = m
    rw [BitVec.toNat_ofNat, Nat.mod_eq_of_lt hm]
  simp only [lookup, hB, hx, pending_reference, if_true, hnum]

theorem lookup_stop {x : Byte} (hx : pending (B x) = false) (y : Byte) (s : List Byte) :
    lookup data n (x :: y :: s) = none := by
  simp only [lookup, hB, hx]
  rfl

end Lookup

/-- The sequences of every row lead to its key code and the flag of the sequence. -/
def Represented (rows : List Row) (data : List Block) : Prop :=
  ∀ r ∈ rows, lookup data 0 r.make = some (r.keycode, 0) ∧ lookup data 0 r.brk = some (r.keycode, 1)

/-- The generator stops with an error or represents every row. -/
def DropsNoKey (rows : List Row) (head : List (List Byte)) : Prop :=
  ∀ data, getAllBlocks (transformList rows) head = .ok data → Represented rows data

theorem represented_iff {rows : List Row} {data : List Block} : Represented rows data ↔
    ∀ l ∈ transformList rows, lookup data 0 l.scancode = some l.elem := by
  constructor
  · intro h l hl
    obtain ⟨r, hr, hl⟩ := List.mem_flatMap.mp ((transformList_perm rows).mem_iff.mp hl)
    simp only [List.mem_cons, List.not_mem_nil, or_false] at hl
    rcases hl with rfl | rfl
    · exact (h r hr).2
    · exact (h r hr).1
  · intro h r hr
    have hmem : ∀ l ∈ [(⟨r.brk, r.keycode, true⟩ : Item), ⟨r.make, r.keycode, false⟩],
        l ∈ transformList rows := fun l hl =>
      (transformList_perm rows).mem_iff.mpr (List.mem_flatMap.mpr ⟨r, hr, hl⟩)
    exact ⟨h _ (hmem ⟨r.make, r.keycode, false⟩ (by simp)),
      h _ (hmem ⟨r.brk, r.keycode, true⟩ (by simp))⟩

/-! ## The condition -/

/-- Of the prefixes before `[a]`, the first that ends with `a` and `x`. -/
def ending (head : List (List Byte)) (a x : Byte) : Option (List Byte) :=
  (head.takeWhile fun h => h ≠ [a]).find? fun h => [a, x].isSuffixOf h

/-- The prefix list has room for the sequence of `l`. -/
def Listed (head : List (List Byte)) (l : Item) : Prop :=
  match l.scancode with
  | [x] => [x] ∉ head
  | [a, x] => [a] ∈ head ∧ ending head a x = none
  -- a longer prefix with this ending has an empty block if no sequence is longer than three bytes
  | [a, b, _] => [a] ∈ head ∧ ∃ h, ending head a b = some h ∧ (h = [a, b] ∨ l.elem = (0, 0))
  | _ => False

/-- No sequence stands for two elements, and the prefix list has room for all of them. -/
structure Complete (li : List Item) (head : List (List Byte)) : Prop where
  agree : ∀ k ∈ li, ∀ l ∈ li, k.scancode = l.scancode → k.elem = l.elem
  listed : ∀ l ∈ li, Listed head l

/-! ## Where the references lead -/

theorem number_spec {a : Byte} {n : Nat} : ∀ {hs : List (List Byte)}, number a hs = some n →
    hs[hs.length - n]? = some [a] ∧ [a] ∉ hs.take (hs.length - n) := by
  intro hs
  induction hs with
  | nil => intro h; cases h
  | cons h hs ih =>
    intro hn
    rw [number] at hn
    split at hn
    · rename_i ha
      cases hn
      simp [ha]
    · rename_i ha
      obtain ⟨h1, h2⟩ := ih hn
      have hle := (number_bounds hn).2
      rw [List.length_cons, Nat.succ_sub hle, List.getElem?_cons_succ, List.take_succ_cons]
      exact ⟨h1, fun hin => (List.mem_cons.mp hin).elim (fun he => ha he.symm) h2⟩

theorem ending_cons (h : List Byte) (hs : List (List Byte)) (a x : Byte) : ending (h :: hs) a x =
    if h = [a] then none else if [a, x].isSuffixOf h then some h else ending hs a x := by
  rw [ending]
  by_cases ha : h = [a]
  · simp [ha]
  · rw [if_neg ha, List.takeWhile_cons_of_pos (by simpa using ha), List.find?_cons]
    cases [a, x].isSuffixOf h <;> rfl

theorem link_eq_none {a x : Byte} : ∀ {hs : List (List Byte)},
    link a x hs = none ↔ ending hs a x = none := by
  intro hs
  induction hs with
  | nil => simp [link, ending]
  | cons h hs ih =>
    rw [link, ending_cons]
    split
    · simp
    · split
      · simp
      · exact ih

/-- The prefix whose block a reference leads to, and that it is the first of its kind. -/
theorem link_spec {a x : Byte} {m : Nat} : ∀ {hs : List (List Byte)}, link a x hs = some m →
    1 ≤ m ∧ m ≤ hs.length ∧ ∃ h, ending hs a x = some h ∧ hs[hs.length - m]? = some h ∧
      [a, x] <:+ h ∧ h ∉ hs.take (hs.length - m) := by
  intro hs
  induction hs with
  | nil => intro h; cases h
  | cons h hs ih =>
    intro hm
    rw [link] at hm
    rw [ending_cons]
    split at hm
    · cases hm
    · rename_i ha
      rw [if_neg ha]
      split at hm
      · rename_i hsuf
        cases hm
        rw [if_pos hsuf]
        exact ⟨by omega, by simp, h, rfl, by simp, List.isSuffixOf_iff_suffix.mp hsuf, by simp⟩
      · rename_i hsuf
        obtain ⟨h1, h2, g, hend, hget, hg, hfirst⟩ := ih hm
        rw [if_neg hsuf, List.length_cons, Nat.succ_sub h2, List.getElem?_cons_succ,
          List.take_succ_cons]
        refine ⟨h1, by omega, g, hend, hget, hg, fun hin => ?_⟩
        rcases List.mem_cons.mp hin with rfl | hin
        · exact hsuf (List.isSuffixOf_iff_suffix.mpr hg)
        · exact hfirst hin

/-! ## What the bytes lead to -/

section Net

variable {block : Block} {head : List (List Byte)} {blocks data : List Block}
  (h : Net block (head.zip blocks) data) (hfst : (head.zip blocks).map Prod.fst = head)
include h hfst

/-- The first block has its own elements where no one-byte prefix is listed. -/
theorem Net.lookup_byte (x : Byte) : lookup data 0 [x] =
    some ((number x head).elim (block x) reference) := by
  obtain ⟨B, hB, hx⟩ := h.first
  rw [lookup_last hB, hx, hfst]

theorem Net.lookup_unlisted (h0 : Plain block) {a : Byte} (ha : [a] ∉ head) (y : Byte)
    (s : List Byte) : lookup data 0 (a :: y :: s) = none := by
  obtain ⟨B, hB, hx⟩ := h.first
  refine lookup_stop hB ?_ y s
  rw [hx, hfst, number_eq_none.mpr ha]
  exact h0 a

/-- A listed byte leads to its block. There a second byte is the end, or it leads to the block of the
longer prefix that ends with both, from which no byte goes on. -/
theorem Net.lookup_listed (hT : ∀ b ∈ blocks, Plain b) {a : Byte} (ha : [a] ∈ head) :
    ∃ i b, (head.zip blocks)[i]? = some ([a], b) ∧ [a] ∉ head.take i ∧ ∀ x,
      (ending head a x = none → lookup data 0 [a, x] = some (b x) ∧
        ∀ y s, lookup data 0 (a :: x :: y :: s) = none) ∧
      ∀ q, ending head a x = some q → (∃ m, lookup data 0 [a, x] = some (reference m)) ∧
        ∃ j c, (head.zip blocks)[j]? = some (q, c) ∧ q ∉ head.take j ∧ [a, x] <:+ q ∧
          ∀ y s, lookup data 0 (a :: x :: y :: s) = if s = [] then some (c y) else none := by
  have hlen : (head.zip blocks).length = head.length := by rw [← List.length_map Prod.fst, hfst]
  have hplain : ∀ {i q c}, (head.zip blocks)[i]? = some (q, c) → Plain c := fun hi =>
    hT _ (List.of_mem_zip (List.mem_of_getElem? hi)).2
  have hsmall := h.small
  rw [hlen] at hsmall
  obtain ⟨B₀, hB₀, hx₀⟩ := h.first
  rw [hfst] at hx₀
  cases hn : number a head with
  | none => exact absurd ha (number_eq_none.mp hn)
  | some n =>
    obtain ⟨_, hfirst⟩ := number_spec hn
    have hn256 : n < 256 := by
      have := (number_bounds hn).2
      omega
    obtain ⟨B, b, hB, hb, hx⟩ := h.single (by rw [hfst]; exact hn)
    rw [hfst] at hx
    rw [hlen] at hb
    have hgo : ∀ y s, lookup data 0 (a :: y :: s) = lookup data n (y :: s) :=
      lookup_reference hB₀ (by rw [hx₀, hn]; rfl) hn256
    refine ⟨_, b, hb, hfirst, fun x => ⟨fun hend => ?_, fun q hend => ?_⟩⟩
    · have hown : B x = b x := by rw [hx, link_eq_none.mpr hend]; rfl
      refine ⟨by rw [hgo, lookup_last hB, hown], fun y s => ?_⟩
      rw [hgo, lookup_stop hB (by rw [hown]; exact hplain hb x)]
    · cases hm : link a x head with
      | none =>
        rw [link_eq_none.mp hm] at hend
        cases hend
      | some m =>
        obtain ⟨h1, h2, q', hend', hget, hsuf, hq⟩ := link_spec hm
        obtain rfl : q' = q := Option.some.inj (hend'.symm.trans hend)
        have href : B x = reference m := by rw [hx, hm]; rfl
        obtain ⟨⟨q, c⟩, hc, rfl⟩ : ∃ p, (head.zip blocks)[head.length - m]? = some p ∧ p.1 = q' := by
          have hmap := congrArg (fun l => l[head.length - m]?) hfst
          rw [List.getElem?_map, hget] at hmap
          exact Option.map_eq_some_iff.mp hmap
        have hdeep := h.deep hc hsuf.length_le
        rw [hlen, show head.length - (head.length - m) = m by omega] at hdeep
        refine ⟨⟨m, by rw [hgo, lookup_last hB, href]⟩, _, c, hc, hq, hsuf, fun y s => ?_⟩
        rw [hgo, lookup_reference hB href (by omega)]
        cases s with
        | nil => exact lookup_last hdeep y
        | cons z s => exact lookup_stop hdeep (hplain hc y) z s

end Net

/-! ## What the blocks hold -/

/-- The block of a prefix has nothing where no sequence ends. -/
theorem fillBlocks_zero {h : List Byte} {x : Byte} : ∀ {head : List (List Byte)} {li : List Item}
    {blocks : List Block}, fillBlocks head li = .ok blocks → (∀ k ∈ li, k.scancode.length ≠ 1) →
    (∀ k ∈ li, k.scancode ≠ h ++ [x]) → ∀ {i : Nat} {b : Block}, head[i]? = some h →
    blocks[i]? = some b → b x = (0, 0) := by
  intro head
  induction head with
  | nil => intro li blocks _ _ _ i b hi; simp at hi
  | cons g hs ih =>
    intro li blocks hok hone hno i b hi hb
    obtain ⟨block, rest, hblock, hrest, rfl⟩ := fillBlocks_cons hok
    rw [removeAll_takes hone] at hrest
    cases i with
    | zero =>
      obtain rfl : g = h := by simpa using hi
      obtain rfl : block = b := by simpa using hb
      rw [getBinary_other hblock]
      · rfl
      · intro l hl hsc
        obtain ⟨k, hk, hform, _⟩ := scancode_of_mem_cut hl hsc
        exact hno k hk hform
    | succ i =>
      exact ih hrest (fun k hk => hone k (List.mem_filter.mp hk).1)
        (fun k hk => hno k (List.mem_filter.mp hk).1) (by simpa using hi) (by simpa using hb)

section Items

variable {li : List Item} {head : List (List Byte)} {blocks : List Block}
  (hblocks : fillBlocks head (removeAll li (li.filter fun l => l.scancode.length = 1)) = .ok blocks)
include hblocks

theorem zip_prefixes : (head.zip blocks).map Prod.fst = head :=
  List.map_fst_zip (Nat.le_of_eq (fillBlocks_length hblocks).symm)

/-- A sequence has its element in the block of its prefix. -/
theorem elem_of_listed {l : Item} (hl : l ∈ li)
    (hagree : ∀ k ∈ li, k.scancode = l.scancode → k.elem = l.elem) {h : List Byte} {x : Byte}
    (hform : l.scancode = h ++ [x]) (hne : h ≠ []) {i : Nat} {b : Block}
    (hi : (head.zip blocks)[i]? = some (h, b)) (hfirst : h ∉ head.take i) : b x = l.elem := by
  rw [removeAll_filter] at hblocks
  rw [List.getElem?_zip_eq_some] at hi
  obtain ⟨b', hb', hx⟩ := elem_of_prefix hblocks hl hagree hform hne hi.1 hfirst
  rw [hi.2] at hb'
  obtain rfl : b = b' := Option.some.inj hb'
  exact hx

theorem zero_of_prefix {h : List Byte} {x : Byte} (hno : ∀ k ∈ li, k.scancode ≠ h ++ [x]) {i : Nat}
    {b : Block} (hi : (head.zip blocks)[i]? = some (h, b)) : b x = (0, 0) := by
  rw [removeAll_filter] at hblocks
  rw [List.getElem?_zip_eq_some] at hi
  exact fillBlocks_zero hblocks (fun k hk => by simpa using (List.mem_filter.mp hk).2)
    (fun k hk => hno k (List.mem_filter.mp hk).1) hi.1 hi.2

/-- The block of a prefix of more than two bytes is empty if no sequence has more than three. -/
theorem zero_of_long (hshort : ∀ l ∈ li, l.scancode.length ≤ 3) {a b : Byte} {q : List Byte}
    (hsuf : [a, b] <:+ q) (hne : q ≠ [a, b]) {i : Nat} {c : Block}
    (hi : (head.zip blocks)[i]? = some (q, c)) (x : Byte) : c x = (0, 0) := by
  refine zero_of_prefix hblocks (fun k hk hks => ?_) hi
  have hle := hshort k hk
  rw [hks, List.length_append, List.length_singleton] at hle
  have hq : q.length ≤ [a, b].length := Nat.le_of_succ_le_succ hle
  exact hne (hsuf.eq_of_length_le hq).symm

end Items

/-! ## Complete tables -/

theorem Listed.length_le {head : List (List Byte)} {l : Item} (h : Listed head l) :
    l.scancode.length ≤ 3 := by
  unfold Listed at h
  split at h
  · rename_i hs; simp [hs]
  · rename_i hs; simp [hs]
  · rename_i hs; simp [hs]
  · cases h

theorem elem_ne_reference (l : Item) (n : Nat) : some l.elem ≠ some (reference n) := by
  intro he
  have hp := pending_elem l
  rw [Option.some.inj he, pending_reference] at hp
  cases hp

section Represented

variable {head : List (List Byte)} {block : Block} {blocks data : List Block}
  (hnet : Net block (head.zip blocks) data) (hfst : (head.zip blocks).map Prod.fst = head)
  (hT : ∀ b ∈ blocks, Plain b) (h0 : Plain block) {l : Item}
  (hlook : lookup data 0 l.scancode = some l.elem)
include hnet hfst hlook

/-- A byte that is a whole sequence is not listed. -/
theorem Net.byte_item {x : Byte} (hs : l.scancode = [x]) : [x] ∉ head := by
  rw [hs, hnet.lookup_byte hfst] at hlook
  rw [← number_eq_none]
  cases hn : number x head with
  | none => rfl
  | some n =>
    rw [hn] at hlook
    exact absurd hlook.symm (elem_ne_reference l n)

include h0 in
/-- A sequence of two bytes or more starts with a listed one. -/
theorem Net.first_listed {a y : Byte} {s : List Byte} (hs : l.scancode = a :: y :: s) :
    [a] ∈ head := by
  by_contra ha
  rw [hs, hnet.lookup_unlisted hfst h0 ha] at hlook
  cases hlook

include hT in
theorem Net.pair_item {a x : Byte} (ha : [a] ∈ head) (hs : l.scancode = [a, x]) :
    ending head a x = none := by
  obtain ⟨_, _, _, _, hx⟩ := hnet.lookup_listed hfst hT ha
  cases hend : ending head a x with
  | none => rfl
  | some q =>
    obtain ⟨⟨m, hm⟩, _⟩ := (hx x).2 q hend
    rw [hs, hm] at hlook
    exact absurd hlook.symm (elem_ne_reference l m)

include hT h0 in
/-- A sequence of three bytes or more has three, the first two of which a longer prefix ends with. -/
theorem Net.long_item {a b y : Byte} {s : List Byte} (hs : l.scancode = a :: b :: y :: s) :
    s = [] ∧ ∃ (q : List Byte) (j : Nat) (c : Block), ending head a b = some q ∧ [a, b] <:+ q ∧
      (head.zip blocks)[j]? = some (q, c) ∧ l.elem = c y := by
  obtain ⟨_, _, _, _, hx⟩ := hnet.lookup_listed hfst hT (hnet.first_listed hfst h0 hlook hs)
  cases hend : ending head a b with
  | none =>
    rw [hs, ((hx b).1 hend).2] at hlook
    cases hlook
  | some q =>
    obtain ⟨_, j, c, hc, _, hsuf, heq⟩ := (hx b).2 q hend
    rw [hs, heq] at hlook
    split at hlook
    · rename_i hnil
      exact ⟨hnil, q, j, c, rfl, hsuf, hc, (Option.some.inj hlook).symm⟩
    · cases hlook

end Represented

section Table

variable {li : List Item} {head : List (List Byte)} {data : List Block}
  (hok : getAllBlocks li head = .ok data)
include hok

theorem lookup_of_complete (hc : Complete li head) {l : Item} (hl : l ∈ li) :
    lookup data 0 l.scancode = some l.elem := by
  obtain ⟨block, blocks, hblock, hblocks, hnet⟩ := getAllBlocks_net hok
  have hfst := zip_prefixes hblocks
  have hT := fillBlocks_plain hblocks
  have hagree : ∀ k ∈ li, k.scancode = l.scancode → k.elem = l.elem := fun k hk => hc.agree k hk l hl
  have hlisted := hc.listed l hl
  unfold Listed at hlisted
  split at hlisted
  · rename_i x hs
    rw [hs, hnet.lookup_byte hfst, number_eq_none.mpr hlisted, ← elem_of_byte hblock hl hagree hs]
    rfl
  · rename_i a x hs
    obtain ⟨ha, hend⟩ := hlisted
    obtain ⟨i, b, hb, hfirst, hx⟩ := hnet.lookup_listed hfst hT ha
    rw [hs, ((hx x).1 hend).1, elem_of_listed hblocks hl hagree (h := [a]) hs (by simp) hb hfirst]
  · rename_i a b x hs
    obtain ⟨ha, q, hend, hq⟩ := hlisted
    obtain ⟨_, _, _, _, hx⟩ := hnet.lookup_listed hfst hT ha
    obtain ⟨_, j, c, hc', hfirst, hsuf, hlook⟩ := (hx b).2 q hend
    rw [hs, hlook x [], if_pos rfl]
    by_cases hqab : q = [a, b]
    · subst hqab
      rw [elem_of_listed hblocks hl hagree (h := [a, b]) hs (by simp) hc' hfirst]
    · rw [zero_of_long hblocks (fun k hk => (hc.listed k hk).length_le) hsuf hqab hc' x,
        hq.resolve_left hqab]
  · cases hlisted

theorem complete_of_lookup (h : ∀ l ∈ li, lookup data 0 l.scancode = some l.elem) :
    Complete li head := by
  obtain ⟨block, blocks, hblock, hblocks, hnet⟩ := getAllBlocks_net hok
  have hfst := zip_prefixes hblocks
  have hT := fillBlocks_plain hblocks
  have h0 := getBinary_plain plain_zeroBlock hblock
  have hshort : ∀ l ∈ li, l.scancode.length ≤ 3 := by
    intro l hl
    rcases hs : l.scancode with _ | ⟨a, _ | ⟨b, _ | ⟨y, s⟩⟩⟩
    · simp
    · simp
    · simp
    · obtain ⟨rfl, _⟩ := hnet.long_item hfst hT h0 (h l hl) hs
      simp
  refine ⟨fun k hk l hl he => ?_, fun l hl => ?_⟩
  · have hlook := h k hk
    rw [he, h l hl] at hlook
    exact (Option.some.inj hlook).symm
  · unfold Listed
    split
    · rename_i x hs
      exact hnet.byte_item hfst (h l hl) hs
    · rename_i a x hs
      have ha := hnet.first_listed hfst h0 (h l hl) hs
      exact ⟨ha, hnet.pair_item hfst hT (h l hl) ha hs⟩
    · rename_i a b x hs
      obtain ⟨_, q, j, c, hend, hsuf, hc, he⟩ := hnet.long_item hfst hT h0 (h l hl) hs
      refine ⟨hnet.first_listed hfst h0 (h l hl) hs, q, hend, ?_⟩
      by_cases hqab : q = [a, b]
      · exact .inl hqab
      · rw [he]
        exact .inr (zero_of_long hblocks hshort hsuf hqab hc x)
    · rename_i h1 h2 h3
      rcases hs : l.scancode with _ | ⟨a, _ | ⟨b, _ | ⟨y, s⟩⟩⟩
      · have hlook := h l hl
        rw [hs] at hlook
        cases hlook
      · exact h1 a hs
      · exact h2 a b hs
      · obtain ⟨rfl, _⟩ := hnet.long_item hfst hT h0 (h l hl) hs
        exact h3 a b y hs

end Table

/-! ## When the generator returns -/

/-- Every prefix has a byte, and those before its last one have a block of their own by the time the
references to it are made: they are listed behind it. -/
def Mappable : List (List Byte) → Prop
  | [] => True
  | h :: hs => (h ≠ [] ∧ ∀ a ∈ h.dropLast, [a] ∈ hs) ∧ Mappable hs

theorem Mappable.right : ∀ {hs ks : List (List Byte)}, Mappable (hs ++ ks) → Mappable ks := by
  intro hs
  induction hs with
  | nil => intro ks h; exact h
  | cons g hs ih => intro ks h; exact ih h.2

theorem Net.mappable {block : Block} {T : List (List Byte × Block)} {ret : List Block}
    (h : Net block T ret) : Mappable (T.map Prod.fst) := by
  induction h with
  | root => trivial
  | byte _ _ ih => exact ⟨⟨by simp, by simp⟩, ih⟩
  | @more T _ p a c _ _ _ _ hp hj ih =>
    refine ⟨⟨by simp, fun x hx => ?_⟩, ih⟩
    rw [show p ++ [a, c] = p ++ [a] ++ [c] by simp, List.dropLast_concat, List.mem_append,
      List.mem_singleton] at hx
    rcases hx with hx | rfl
    · exact hp x hx
    · by_contra hno
      rw [number_eq_none.mpr hno] at hj
      cases hj

theorem fillReferences_returns : ∀ {rest T : List (List Byte × Block)} {mappings : Byte → Option Nat}
    (ret : List Block), (∀ a, mappings a = number a (T.map Prod.fst)) →
    Mappable ((rest.reverse ++ T).map Prod.fst) → (rest.reverse ++ T).length < 256 →
    ∃ out, fillReferences rest T.length mappings ret = .ok out := by
  intro rest
  induction rest with
  | nil => intro T mappings ret _ _ _; exact ⟨ret, rfl⟩
  | cons q rest ih =>
    intro T mappings ret hmaps hmappable hsmall
    obtain ⟨h, b⟩ := q
    rw [List.reverse_cons, List.append_assoc, List.singleton_append] at hmappable hsmall
    have hpack : pack (T.length + 1) = .ok (BitVec.ofNat 8 (T.length + 1)) := if_pos (by
      rw [List.length_append, List.length_cons] at hsmall
      omega)
    have hright := hmappable
    rw [List.map_append] at hright
    obtain ⟨⟨hne, hlisted⟩, _⟩ := hright.right
    by_cases hone : ∃ c, h = [c]
    · obtain ⟨c, rfl⟩ := hone
      have hmaps' : ∀ a, Function.update mappings c (some (T.length + 1)) a =
          number a ((([c], b) :: T).map Prod.fst) := fun a => by
        have := number_update hmaps c a
        rwa [List.length_map] at this
      obtain ⟨out, hout⟩ := ih (refer (ret ++ [b]) 0 c (BitVec.ofNat 8 (T.length + 1))) hmaps'
        hmappable hsmall
      exact ⟨out, by rw [fillReferences, hpack]; exact hout⟩
    · have hmapped : ∀ a ∈ h.dropLast, mappings a ≠ none := by
        intro a ha hno
        rw [hmaps, number_eq_none] at hno
        exact hno (hlisted a ha)
      obtain ⟨j, hj⟩ := changeIndex_returns.mpr hmapped
      have hmaps' : ∀ a, mappings a = number a (((h, b) :: T).map Prod.fst) := fun a => by
        rw [List.map_cons, number, if_neg fun ha => hone ⟨a, ha⟩, hmaps]
      obtain ⟨out, hout⟩ := ih (refer (ret ++ [b]) j (h.getLast hne) (BitVec.ofNat 8 (T.length + 1)))
        hmaps' hmappable hsmall
      refine ⟨out, ?_⟩
      rw [fillReferences.eq_3 _ _ _ _ _ _ fun c hc => hone ⟨c, hc⟩, hj,
        List.getLast?_eq_getLast_of_ne_nil hne, hpack]
      exact hout

theorem getBinary_returns : ∀ {li : List Item} (ret : Block), (∀ l ∈ li, l.scancode ≠ []) →
    ∃ b, getBinary li ret = .ok b := by
  intro li
  induction li with
  | nil => intro ret _; exact ⟨ret, rfl⟩
  | cons l li ih =>
    intro ret h
    obtain ⟨hl, h⟩ := List.forall_mem_cons.mp h
    rw [getBinary]
    split
    · rename_i hs
      exact absurd hs hl
    · exact ih _ h

theorem fillBlocks_returns : ∀ (head : List (List Byte)) (li : List Item),
    ∃ blocks, fillBlocks head li = .ok blocks := by
  intro head
  induction head with
  | nil => intro li; exact ⟨[], rfl⟩
  | cons g hs ih =>
    intro li
    have hne : ∀ l ∈ (li.filter (takes g)).map (cut g), l.scancode ≠ [] := by
      intro l hl
      obtain ⟨k, hk, rfl⟩ := List.mem_map.mp hl
      obtain ⟨x, hx⟩ := takes_iff.mp (List.mem_filter.mp hk).2
      rw [cut, hx]
      simp
    obtain ⟨block, hblock⟩ := getBinary_returns zeroBlock hne
    obtain ⟨blocks, hblocks⟩ := ih (removeAll (li.map fun l => if takes g l then cut g l else l)
      ((li.filter (takes g)).map (cut g)))
    exact ⟨block :: blocks, by rw [fillBlocks, hblock, Machine.ok_bind, hblocks]; rfl⟩

/-- Whether the generator returns depends on the prefix list only. -/
theorem getAllBlocks_returns_iff (li : List Item) (head : List (List Byte)) :
    (∃ data, getAllBlocks li head = .ok data) ↔ Mappable head ∧ head.length < 256 := by
  constructor
  · rintro ⟨data, hok⟩
    obtain ⟨block, blocks, _, hblocks, hnet⟩ := getAllBlocks_net hok
    have hfst := zip_prefixes hblocks
    have hmappable := hnet.mappable
    have hsmall := hnet.small
    rw [hfst] at hmappable
    rw [← List.length_map Prod.fst, hfst] at hsmall
    exact ⟨hmappable, hsmall⟩
  · rintro ⟨hmappable, hsmall⟩
    have hne : ∀ l ∈ li.filter fun l => l.scancode.length = 1, l.scancode ≠ [] := by
      intro l hl hs
      have hlen := of_decide_eq_true (List.mem_filter.mp hl).2
      rw [hs] at hlen
      cases hlen
    obtain ⟨block, hblock⟩ := getBinary_returns zeroBlock hne
    obtain ⟨blocks, hblocks⟩ := fillBlocks_returns head
      (removeAll li (li.filter fun l => l.scancode.length = 1))
    have hfst := zip_prefixes hblocks
    have hlen : (head.zip blocks).length = head.length := by rw [← List.length_map Prod.fst, hfst]
    obtain ⟨data, hdata⟩ := @fillReferences_returns (head.zip blocks).reverse [] _ [block]
      (fun _ => rfl) (by rw [List.reverse_reverse, List.append_nil, hfst]; exact hmappable)
      (by rw [List.reverse_reverse, List.append_nil, hlen]; exact hsmall)
    exact ⟨data, by rw [getAllBlocks, hblock, Machine.ok_bind, hblocks]; exact hdata⟩

/-- **When the generator drops no key.** For every table and every prefix list: `get_all_blocks`
stops with an error or represents every sequence of every row, exactly if a prefix list that it gets
through has room for all sequences and no two of them collide. -/
theorem dropsNoKey_iff (rows : List Row) (head : List (List Byte)) :
    DropsNoKey rows head ↔
      (Mappable head ∧ head.length < 256 → Complete (transformList rows) head) := by
  rw [← getAllBlocks_returns_iff (transformList rows) head]
  constructor
  · rintro h ⟨data, hok⟩
    exact complete_of_lookup hok (represented_iff.mp (h data hok))
  · intro h data hok
    exact represented_iff.mpr fun l hl => lookup_of_complete hok (h ⟨data, hok⟩) hl

/-- The print screen key of the shipped table, whose make sequence has four bytes. -/
def printScreen : Row := ⟨0x0E, [0xE0, 0x12, 0xE0, 0x7C], [0xE0, 0xF0, 0x7C, 0xE0, 0xF0, 0x12]⟩

/-- With the shipped prefixes the generator returns, and print screen is lost. -/
theorem not_dropsNoKey_printScreen :
    (∃ data, getAllBlocks (transformList [printScreen]) shippedHead = .ok data) ∧
      ¬ DropsNoKey [printScreen] shippedHead := by
  have hreturns : Mappable shippedHead ∧ shippedHead.length < 256 := by
    exact ⟨⟨⟨by decide, by decide⟩, ⟨by decide, by decide⟩, ⟨by decide, by decide⟩, trivial⟩, by decide⟩
  obtain ⟨data, hok⟩ := (getAllBlocks_returns_iff (transformList [printScreen]) shippedHead).mpr hreturns
  refine ⟨⟨data, hok⟩, fun h => ?_⟩
  have hmem : (⟨printScreen.make, 0x0E, false⟩ : Item) ∈ transformList [printScreen] :=
    (transformList_perm _).mem_iff.mpr (by simp [printScreen])
  have hlisted := (complete_of_lookup hok (represented_iff.mp (h data hok))).listed _ hmem
  exact absurd hlisted.length_le (by decide)

end Kbd
end Frod
