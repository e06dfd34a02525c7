import Frod.Kbd.Keyset

/-!
# Frod.Kbd.Refs

The references between the blocks, for prefixes of any length and in any order.

The second phase of `get_all_blocks` only remembers the blocks of one-byte prefixes, in `mappings`. A
reference therefore leads from the first block to the block of a one-byte prefix, or from there to the
block of a longer one, and it always leads to a block that was added later. `Net` says what the phase
builds, in the order of the prefix list, and the lemmas after it what an element of each kind of block
is.
-/

namespace Frod
namespace Kbd

theorem append_pair_ne (p : List Byte) (a c x : Byte) : p ++ [a, c] ≠ [x] := by
  intro h
  have := congrArg List.length h
  simp at this

/-- The number of the block of the first prefix `[a]` in the list. -/
def number (a : Byte) : List (List Byte) → Option Nat
  | [] => none
  | h :: hs => if h = [a] then some (hs.length + 1) else number a hs

theorem number_eq_none {a : Byte} : ∀ {hs : List (List Byte)}, number a hs = none ↔ [a] ∉ hs := by
  intro hs
  induction hs with
  | nil => simp [number]
  | cons h hs ih =>
    rw [number, List.mem_cons, not_or, ← ih]
    split
    · rename_i ha
      simp [ha]
    · rename_i ha
      simp [Ne.symm ha]

theorem number_update {mappings : Byte → Option Nat} {hs : List (List Byte)}
    (h : ∀ a, mappings a = number a hs) (c a : Byte) :
    Function.update mappings c (some (hs.length + 1)) a = number a ([c] :: hs) := by
  rw [number]
  by_cases ha : a = c
  · rw [ha, Function.update_self, if_pos rfl]
  · rw [Function.update_of_ne ha, if_neg (by simpa using Ne.symm ha), h]

/-- The number of the block of the first prefix that ends with `a` and `x`, if it comes before `[a]`.
-/
def link (a x : Byte) : List (List Byte) → Option Nat
  | [] => none
  | h :: hs =>
    if h = [a] then none else if [a, x].isSuffixOf h then some (hs.length + 1) else link a x hs

/-- What becomes of the first block `block` and the blocks of the prefixes. The phase goes from the
last prefix to the first, so that of the first comes on top. -/
inductive Net (block : Block) : List (List Byte × Block) → List Block → Prop where
  | root : Net block [] [block]
  | byte {T : List (List Byte × Block)} {ret : List Block} {c : Byte} {b : Block} :
      Net block T ret → T.length + 1 < 256 →
      Net block (([c], b) :: T) (refer (ret ++ [b]) 0 c (BitVec.ofNat 8 (T.length + 1)))
  | more {T : List (List Byte × Block)} {ret : List Block} {p : List Byte} {a c : Byte} {b : Block}
      {j : Nat} : Net block T ret → T.length + 1 < 256 → (∀ x ∈ p, [x] ∈ T.map Prod.fst) →
      number a (T.map Prod.fst) = some j →
      Net block ((p ++ [a, c], b) :: T) (refer (ret ++ [b]) j c (BitVec.ofNat 8 (T.length + 1)))

theorem fillReferences_net {block : Block} : ∀ {rest T : List (List Byte × Block)}
    {mappings : Byte → Option Nat} {ret out : List Block}, Net block T ret →
    (∀ a, mappings a = number a (T.map Prod.fst)) →
    fillReferences rest T.length mappings ret = .ok out → Net block (rest.reverse ++ T) out := by
  intro rest
  induction rest with
  | nil =>
    intro T mappings ret out hnet _ hok
    rw [← Except.ok.inj hok]
    exact hnet
  | cons q rest ih =>
    intro T mappings ret out hnet hmaps hok
    obtain ⟨h, b⟩ := q
    rw [List.reverse_cons, List.append_assoc, List.singleton_append]
    obtain ⟨hlt, j, c, mappings', hrest, hcase⟩ := fillReferences_cons hok
    rcases hcase with ⟨rfl, rfl, rfl⟩ | ⟨p, a, rfl, hp, hj, rfl⟩
    · refine ih (hnet.byte hlt) (fun a => ?_) hrest
      have := number_update hmaps c a
      rwa [List.length_map] at this
    · have hlisted : ∀ x ∈ p, [x] ∈ T.map Prod.fst := by
        intro x hx
        by_contra hno
        exact hp x hx (by rw [hmaps, number_eq_none.mpr hno])
      refine ih (hnet.more hlt hlisted (by rw [← hmaps, hj])) (fun a' => ?_) hrest
      rw [List.map_cons, number, if_neg (append_pair_ne p a c a'), hmaps]

theorem number_bounds {a : Byte} {n : Nat} : ∀ {hs : List (List Byte)}, number a hs = some n →
    1 ≤ n ∧ n ≤ hs.length := by
  intro hs
  induction hs with
  | nil => intro h; cases h
  | cons h hs ih =>
    intro hn
    rw [number] at hn
    split at hn
    · cases hn
      simp
    · have := ih hn
      rw [List.length_cons]
      omega

theorem number_inj {a a' : Byte} {n : Nat} : ∀ {hs : List (List Byte)}, number a hs = some n →
    number a' hs = some n → a = a' := by
  intro hs
  induction hs with
  | nil => intro h; cases h
  | cons h hs ih =>
    intro hn hn'
    rw [number] at hn hn'
    split at hn
    · rename_i ha
      cases hn
      split at hn'
      · rename_i ha'
        simpa using ha.symm.trans ha'
      · have := number_bounds hn'
        omega
    · split at hn'
      · cases hn'
        have := number_bounds hn
        omega
      · exact ih hn hn'

/-! ## The elements -/

section Refer

variable {ret : List Block} {b : Block} {j n : Nat} {c w : Byte}

theorem refer_old (hn : n < ret.length) : (refer (ret ++ [b]) j c w)[n]? =
    ret[n]?.map fun B => if n = j then Function.update B c (w, 0x80) else B := by
  rw [refer, List.getElem?_modify, List.getElem?_append_left hn]
  by_cases hj : j = n
  · simp [hj]
  · simp [hj, Ne.symm hj]

theorem refer_new (hj : j < ret.length) : (refer (ret ++ [b]) j c w)[ret.length]? = some b := by
  rw [refer, List.getElem?_modify, List.getElem?_append_right (Nat.le_refl _)]
  simp [Nat.ne_of_lt hj]

end Refer

section Net

variable {block : Block} {T : List (List Byte × Block)} {ret : List Block}

theorem Net.length (h : Net block T ret) : ret.length = T.length + 1 := by
  induction h with
  | root => rfl
  | byte _ _ ih => rw [refer, List.length_modify, List.length_append, ih]; rfl
  | more _ _ _ _ ih => rw [refer, List.length_modify, List.length_append, ih]; rfl

theorem Net.small (h : Net block T ret) : T.length < 256 := by
  cases h with
  | root => decide
  | byte _ hlt => exact hlt
  | more _ hlt _ _ => exact hlt

/-- The first block refers to the blocks of the one-byte prefixes. -/
theorem Net.first (h : Net block T ret) : ∃ B, ret[0]? = some B ∧
    ∀ x, B x = (number x (T.map Prod.fst)).elim (block x) reference := by
  induction h with
  | root => exact ⟨block, rfl, fun x => rfl⟩
  | @byte T ret c b hnet _ ih =>
    obtain ⟨B, hB, hx⟩ := ih
    refine ⟨_, by rw [refer_old (by rw [hnet.length]; omega), hB, Option.map_some, if_pos rfl],
      fun x => ?_⟩
    rw [List.map_cons, number, List.length_map]
    by_cases hxc : x = c
    · rw [hxc, Function.update_self, if_pos rfl]
      rfl
    · rw [Function.update_of_ne hxc, if_neg (by simpa using Ne.symm hxc), hx]
  | @more T ret p a c b j hnet _ _ hj ih =>
    obtain ⟨B, hB, hx⟩ := ih
    have hpos := (number_bounds hj).1
    refine ⟨B, by rw [refer_old (by rw [hnet.length]; omega), hB, Option.map_some, if_neg (by omega)],
      fun x => ?_⟩
    rw [List.map_cons, number, if_neg (append_pair_ne p a c x), hx]

/-- The block of a one-byte prefix refers to the blocks of the longer ones before it that end with
that byte and one more. -/
theorem Net.single (h : Net block T ret) {a : Byte} {n : Nat}
    (hn : number a (T.map Prod.fst) = some n) : ∃ B b, ret[n]? = some B ∧
      T[T.length - n]? = some ([a], b) ∧
      ∀ x, B x = (link a x (T.map Prod.fst)).elim (b x) reference := by
  induction h with
  | root => cases hn
  | @byte T ret c b hnet _ ih =>
    rw [List.map_cons, number] at hn
    split at hn
    · rename_i hc
      obtain rfl : c = a := by simpa using hc
      obtain rfl := Option.some.inj hn
      rw [List.length_map, ← hnet.length]
      refine ⟨b, b, refer_new (by rw [hnet.length]; omega), ?_, fun x => ?_⟩
      · rw [hnet.length, List.length_cons, Nat.sub_self, List.getElem?_cons_zero]
      · rw [List.map_cons, link, if_pos hc]
        rfl
    · rename_i hc
      obtain ⟨B, b', hB, hT, hx⟩ := ih hn
      have hbounds := number_bounds hn
      rw [List.length_map] at hbounds
      refine ⟨B, b', ?_, ?_, fun x => ?_⟩
      · rw [refer_old (by rw [hnet.length]; omega), hB, Option.map_some, if_neg (by omega)]
      · rw [List.length_cons, Nat.succ_sub hbounds.2, List.getElem?_cons_succ, hT]
      · rw [hx, List.map_cons, link, if_neg hc, if_neg (by simp [List.isSuffixOf, List.isPrefixOf])]
  | @more T ret p a' c b j hnet _ _ hj ih =>
    rw [List.map_cons, number, if_neg (append_pair_ne p a' c a)] at hn
    obtain ⟨B, b', hB, hT, hx⟩ := ih hn
    have hbounds := number_bounds hn
    rw [List.length_map] at hbounds
    -- the new prefix ends with `a` and `x` only if its reference is put here, at `x`
    have hsuffix : ∀ x, ([a, x].isSuffixOf (p ++ [a', c]) = true ↔ n = j ∧ x = c) := by
      intro x
      rw [List.isSuffixOf_iff_suffix, show p ++ [a', c] = p ++ [a'] ++ [c] by simp]
      constructor
      · intro hs
        obtain ⟨t, ht⟩ := hs
        have heq : t ++ [a] ++ [x] = p ++ [a'] ++ [c] := by simpa using ht
        obtain ⟨h1, h2⟩ := List.append_inj' heq rfl
        obtain ⟨_, h3⟩ := List.append_inj' h1 rfl
        obtain rfl : a = a' := by simpa using h3
        rw [hj] at hn
        exact ⟨(Option.some.inj hn).symm, by simpa using h2⟩
      · rintro ⟨rfl, rfl⟩
        rw [number_inj hn hj]
        exact ⟨p, by simp⟩
    refine ⟨_, b', by rw [refer_old (by rw [hnet.length]; omega), hB, Option.map_some], ?_, fun x => ?_⟩
    · rw [List.length_cons, Nat.succ_sub hbounds.2, List.getElem?_cons_succ, hT]
    · rw [List.map_cons, link, if_neg (append_pair_ne p a' c a), List.length_map]
      by_cases hnj : n = j ∧ x = c
      · rw [if_pos ((hsuffix x).mpr hnj), if_pos hnj.1, hnj.2, Function.update_self]
        rfl
      · rw [if_neg fun hs => hnj ((hsuffix x).mp hs), ← hx]
        by_cases hj' : n = j
        · rw [if_pos hj', Function.update_of_ne fun hc => hnj ⟨hj', hc⟩]
        · rw [if_neg hj']

/-- The block of a longer prefix refers to nothing. -/
theorem Net.deep (h : Net block T ret) {i : Nat} {q : List Byte} {b : Block}
    (hi : T[i]? = some (q, b)) (hq : 2 ≤ q.length) : ret[T.length - i]? = some b := by
  induction h generalizing i with
  | root => cases hi
  | @byte T ret c b' hnet _ ih =>
    cases i with
    | zero =>
      obtain ⟨rfl, _⟩ := Prod.mk.inj (Option.some.inj hi)
      simp at hq
    | succ i =>
      rw [List.getElem?_cons_succ] at hi
      have hlt := (List.getElem?_eq_some_iff.mp hi).1
      rw [List.length_cons, Nat.add_sub_add_right, refer_old (by rw [hnet.length]; omega), ih hi,
        Option.map_some, if_neg (by omega)]
  | @more T ret p a c b' j hnet _ _ hj ih =>
    have hbounds := number_bounds hj
    rw [List.length_map] at hbounds
    cases i with
    | zero =>
      obtain ⟨_, rfl⟩ := Prod.mk.inj (Option.some.inj hi)
      rw [List.length_cons, Nat.sub_zero, ← hnet.length]
      exact refer_new (by rw [hnet.length]; omega)
    | succ i =>
      rw [List.getElem?_cons_succ] at hi
      have hlt := (List.getElem?_eq_some_iff.mp hi).1
      -- the reference is put into the block of a one-byte prefix
      have hne : T.length - i ≠ j := by
        rintro rfl
        obtain ⟨_, _, _, hT, _⟩ := hnet.single hj
        rw [show T.length - (T.length - i) = i by omega, hi] at hT
        obtain ⟨rfl, _⟩ := Prod.mk.inj (Option.some.inj hT)
        simp at hq
      rw [List.length_cons, Nat.add_sub_add_right, refer_old (by rw [hnet.length]; omega), ih hi,
        Option.map_some, if_neg hne]

end Net

/-! ## Blocks without references -/

/-- The flag `0x80` of an element. -/
def pending (e : Elem) : Bool := e.2 &&& 0x80 != 0

/-- A block that refers to nothing. -/
def Plain (b : Block) : Prop := ∀ x, pending (b x) = false

theorem pending_elem (l : Item) : pending l.elem = false := by
  show ((if l.brk then 1 else 0 : Byte) &&& 0x80 != 0) = false
  cases l.brk <;> decide

theorem pending_reference (n : Nat) : pending (reference n) = true := by
  show ((0x80 : Byte) &&& 0x80 != 0) = true
  decide

theorem getBinary_plain : ∀ {li : List Item} {ret b : Block}, Plain ret → getBinary li ret = .ok b →
    Plain b := by
  intro li
  induction li with
  | nil =>
    intro ret b hret h
    rw [← Except.ok.inj h]
    exact hret
  | cons l li ih =>
    intro ret b hret h
    rw [getBinary] at h
    split at h
    · cases h
    · rename_i sc t _
      refine ih (fun x => ?_) h
      by_cases hx : x = sc
      · rw [hx, Function.update_self, pending_elem]
      · rw [Function.update_of_ne hx, hret]

theorem plain_zeroBlock : Plain zeroBlock := by
  intro x
  show ((0 : Byte) &&& 0x80 != 0) = false
  decide

theorem fillBlocks_plain : ∀ {head : List (List Byte)} {li : List Item} {blocks : List Block},
    fillBlocks head li = .ok blocks → ∀ b ∈ blocks, Plain b := by
  intro head
  induction head with
  | nil =>
    intro li blocks h b hb
    rw [← Except.ok.inj h] at hb
    cases hb
  | cons g hs ih =>
    intro li blocks hok b hb
    obtain ⟨block, rest, hblock, hrest, rfl⟩ := fillBlocks_cons hok
    rcases List.mem_cons.mp hb with rfl | hb
    · exact getBinary_plain plain_zeroBlock hblock
    · exact ih hrest b hb

/-- What `get_all_blocks` returns, whatever the prefixes. -/
theorem getAllBlocks_net {li : List Item} {head : List (List Byte)} {data : List Block}
    (hok : getAllBlocks li head = .ok data) :
    ∃ block blocks, getBinary (li.filter fun l => l.scancode.length = 1) zeroBlock = .ok block ∧
      fillBlocks head (removeAll li (li.filter fun l => l.scancode.length = 1)) = .ok blocks ∧
      Net block (head.zip blocks) data := by
  rw [getAllBlocks] at hok
  obtain ⟨block, hblock, hok⟩ := Machine.bind_eq_ok.mp hok
  obtain ⟨blocks, hblocks, hok⟩ := Machine.bind_eq_ok.mp hok
  refine ⟨block, blocks, hblock, hblocks, ?_⟩
  have hnet := fillReferences_net Net.root (fun _ => rfl) hok
  rwa [List.reverse_reverse, List.append_nil] at hnet

end Kbd
end Frod
