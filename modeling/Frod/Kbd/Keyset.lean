import Mathlib.Data.List.Basic
import Frod.Lib.Machine
import Frod.Lib.BitArray

/-!
# Frod.Kbd.Keyset

The key-set generator `tools/create_keyset.py`. From the rows of a scan code table it builds blocks of
256 two-byte elements: block 0 is indexed by the first byte of a scan code, and an element with the
flag `0x80` refers to the block for the next byte.

The prefixes are listed in `head`. `get_all_blocks` works in two phases: it sorts the scan codes into
one block for each prefix (`fillBlocks`), and then numbers the blocks in reverse order and patches
the references into them (`fillReferences`). The two spec lemmas are `fillBlocks_spec` and
`fillReferences_spec`; the second says that the numbered blocks form a trie.
-/

namespace Frod
namespace Kbd

/-- A row of the table. -/
structure Row where
  keycode : Byte
  make : List Byte
  brk : List Byte

/-- An element of the list that `transform_list` makes: one make or break sequence. -/
structure Item where
  scancode : List Byte
  keycode : Byte
  brk : Bool
  deriving DecidableEq

/-- Ways the script stops: an index out of range, a number that does not fit into a byte, and the
`ERROR` for a prefix whose own prefix has no block yet. -/
inductive KeysetError where
  | indexError
  | structError
  | noMapping
  deriving DecidableEq, Repr

/-- The two bytes of an element, key code and flag. -/
abbrev Elem := Byte × Byte

/-- A block of 256 elements. -/
abbrev Block := Byte → Elem

def zeroBlock : Block := fun _ => (0, 0)

/-- `transform_list`. -/
def transformList (sc : List Row) : List Item :=
  (sc.flatMap fun s => [⟨s.brk, s.keycode, true⟩, ⟨s.make, s.keycode, false⟩]).mergeSort
    fun a b => decide (a.scancode ≤ b.scancode)

/-- The element `get_binary` writes for an item. -/
def Item.elem (l : Item) : Elem := (l.keycode, if l.brk then 1 else 0)

/-- `get_binary`. -/
def getBinary : List Item → Block → Except KeysetError Block
  | [], ret => .ok ret
  | l :: li, ret =>
    match l.scancode with
    | [] => .error .indexError
    | sc :: _ => getBinary li (Function.update ret sc l.elem)

/-- The test on an item for prefix `h`: it is `h` and one byte more. -/
def takes (h : List Byte) (l : Item) : Bool :=
  decide (l.scancode.length > h.length) && decide (l.scancode.take h.length = h) &&
    decide (h.length + 1 = l.scancode.length)

/-- An item without the prefix. -/
def cut (h : List Byte) (l : Item) : Item := { l with scancode := l.scancode.drop h.length }

/-- `for b in bl1: li.remove(b)`. -/
def removeAll (li bl : List Item) : List Item := bl.foldl List.erase li

/-- The blocks of the prefixes in their order. The items that are taken lose their prefix in the
list itself, before they are removed from it. -/
def fillBlocks : List (List Byte) → List Item → Except KeysetError (List Block)
  | [], _ => .ok []
  | h :: hs, li => do
    let bl := (li.filter (takes h)).map (cut h)
    let li := removeAll (li.map fun l => if takes h l then cut h l else l) bl
    let block ← getBinary bl zeroBlock
    let blocks ← fillBlocks hs li
    return block :: blocks

/-- `struct.pack("<B", n)`. -/
def pack (n : Nat) : Except KeysetError Byte :=
  if n < 256 then .ok (BitVec.ofNat 8 n) else .error .structError

/-- The loop over a prefix without its last byte; the block of the last one looked at counts. -/
def changeIndex (mappings : Byte → Option Nat) : List Byte → Nat → Except KeysetError Nat
  | [], index => .ok index
  | a :: as, _ =>
    match mappings a with
    | none => .error .noMapping
    | some index => changeIndex mappings as index

/-- `ret[index][sc] = struct.pack("<B", block_index) + "\x80"`. -/
def refer (ret : List Block) (index : Nat) (sc : Byte) (n : Byte) : List Block :=
  ret.modify index fun b => Function.update b sc (n, 0x80)

/-- The second phase, over the prefixes with their blocks in reverse order. -/
def fillReferences : List (List Byte × Block) → Nat → (Byte → Option Nat) → List Block →
    Except KeysetError (List Block)
  | [], _, _, ret => .ok ret
  | (h, block) :: rest, blockIndex, mappings, ret => do
    let ret := ret ++ [block]
    let blockIndex := blockIndex + 1
    match h with
    | [a] =>
      let n ← pack blockIndex
      fillReferences rest blockIndex (Function.update mappings a (some blockIndex)) (refer ret 0 a n)
    | _ =>
      let index ← changeIndex mappings h.dropLast 0
      match h.getLast? with
      | none => .error .indexError
      | some sc =>
        let n ← pack blockIndex
        fillReferences rest blockIndex mappings (refer ret index sc n)

/-- `get_all_blocks`. -/
def getAllBlocks (li : List Item) (head : List (List Byte)) : Except KeysetError (List Block) := do
  let bl := li.filter fun l => l.scancode.length = 1
  let li := removeAll li bl
  let block ← getBinary bl zeroBlock
  let blocks ← fillBlocks head li
  fillReferences (head.zip blocks).reverse 0 (fun _ => none) [block]

/-- `write_binary_file`. -/
def writeBinaryFile (data : List Block) : List Byte :=
  data.flatMap fun dd => (List.range 256).flatMap fun i =>
    [(dd (BitVec.ofNat 8 i)).1, (dd (BitVec.ofNat 8 i)).2]

/-! ## `get_binary` -/

theorem getBinary_other {sc : Byte} : ∀ {li : List Item} {ret b : Block}, getBinary li ret = .ok b →
    (∀ l ∈ li, l.scancode.head? ≠ some sc) → b sc = ret sc := by
  intro li
  induction li with
  | nil =>
    intro ret b h _
    rw [← Except.ok.inj h]
  | cons l li ih =>
    intro ret b h hne
    have hl := hne l (by simp)
    rw [getBinary] at h
    split at h
    · cases h
    · rename_i c t hc
      rw [ih h fun l hl => hne l (by simp [hl]), Function.update_of_ne]
      rintro rfl
      rw [hc] at hl
      exact hl rfl

/-- The element at a byte, if the items that start with it agree on it. -/
theorem getBinary_mem {sc : Byte} {e : Elem} : ∀ {li : List Item} {ret b : Block},
    getBinary li ret = .ok b → (∃ l ∈ li, l.scancode.head? = some sc) →
    (∀ l ∈ li, l.scancode.head? = some sc → l.elem = e) → b sc = e := by
  intro li
  induction li with
  | nil =>
    rintro ret b _ ⟨l, hl, _⟩
    cases hl
  | cons k li ih =>
    rintro ret b h ⟨l, hl, hsc⟩ hone
    rw [getBinary] at h
    split at h
    · cases h
    · rename_i c t hc
      by_cases hin : ∃ l ∈ li, l.scancode.head? = some sc
      · exact ih h hin fun l' hl' => hone l' (by simp [hl'])
      · obtain rfl : l = k := by
          rcases List.mem_cons.mp hl with hk | hk
          · exact hk
          · exact absurd ⟨l, hk, hsc⟩ hin
        have hce : l.elem = e := hone l (by simp) hsc
        obtain rfl : c = sc := by
          rw [hc] at hsc
          exact Option.some.inj hsc
        rw [getBinary_other h fun l' hl' hsc' => hin ⟨l', hl', hsc'⟩, Function.update_self, hce]

/-! ## The blocks of the prefixes -/

theorem takes_iff {h : List Byte} {l : Item} : takes h l = true ↔ ∃ x, l.scancode = h ++ [x] := by
  simp only [takes, Bool.and_eq_true, decide_eq_true_eq]
  constructor
  · rintro ⟨⟨_, h2⟩, h3⟩
    have hd : (l.scancode.drop h.length).length = 1 := by rw [List.length_drop]; omega
    obtain ⟨x, hx⟩ := List.length_eq_one_iff.mp hd
    exact ⟨x, by rw [← hx, ← h2, List.length_take, Nat.min_eq_left (by omega), List.take_append_drop]⟩
  · rintro ⟨x, hx⟩
    rw [hx]
    simp

/-- Removing the items that were picked, in their order, leaves the others. -/
theorem removeAll_map (p : Item → Bool) (f : Item → Item) : ∀ {li : List Item},
    (∀ a ∈ li, p a = false → ∀ b ∈ li, p b = true → f b ≠ a) →
    removeAll (li.map fun l => if p l then f l else l) ((li.filter p).map f) =
      li.filter fun l => !p l := by
  have herase : ∀ (bl li : List Item) (a : Item), (∀ b ∈ bl, b ≠ a) →
      bl.foldl List.erase (a :: li) = a :: bl.foldl List.erase li := by
    intro bl
    induction bl with
    | nil => intro li a _; rfl
    | cons b bl ih =>
      intro li a hne
      rw [List.foldl_cons, List.erase_cons_tail (by simpa using (hne b (by simp)).symm),
        ih _ _ fun c hc => hne c (by simp [hc]), List.foldl_cons]
  intro li
  induction li with
  | nil => intro _; rfl
  | cons a li ih =>
    intro hne
    have hih := ih fun a ha hpa b hb => hne a (by simp [ha]) hpa b (by simp [hb])
    unfold removeAll at hih ⊢
    cases hp : p a with
    | true =>
      rw [List.filter_cons_of_pos hp, List.filter_cons_of_neg (by simp [hp]), List.map_cons,
        List.map_cons, hp, if_pos rfl, List.foldl_cons, List.erase_cons_head, hih]
    | false =>
      rw [List.filter_cons_of_neg (by simp [hp]), List.filter_cons_of_pos (by simp [hp]), List.map_cons,
        hp, if_neg (by simp), herase, hih]
      intro b hb
      obtain ⟨c, hc, rfl⟩ := List.mem_map.mp hb
      obtain ⟨hc1, hc2⟩ := List.mem_filter.mp hc
      exact hne a (by simp) hp c (by simp [hc1]) hc2

/-- What a prefix leaves for those after it: no scan code of one byte is in the list, so the items
that were cut down to one byte are the ones that are removed. -/
theorem removeAll_takes {h : List Byte} {li : List Item} (hone : ∀ l ∈ li, l.scancode.length ≠ 1) :
    removeAll (li.map fun l => if takes h l then cut h l else l) ((li.filter (takes h)).map (cut h)) =
      li.filter fun l => !takes h l := by
  refine removeAll_map (takes h) (cut h) fun a ha _ b _ hb heq => hone a ha ?_
  obtain ⟨x, hx⟩ := takes_iff.mp hb
  rw [← heq, cut, hx]
  simp

theorem fillBlocks_cons {h : List Byte} {hs : List (List Byte)} {li : List Item}
    {blocks : List Block} (hok : fillBlocks (h :: hs) li = .ok blocks) :
    ∃ block rest, getBinary ((li.filter (takes h)).map (cut h)) zeroBlock = .ok block ∧
      fillBlocks hs (removeAll (li.map fun l => if takes h l then cut h l else l)
        ((li.filter (takes h)).map (cut h))) = .ok rest ∧ block :: rest = blocks := by
  rw [fillBlocks] at hok
  obtain ⟨block, hblock, hok⟩ := Machine.bind_eq_ok.mp hok
  obtain ⟨rest, hrest, hok⟩ := Machine.bind_eq_ok.mp hok
  exact ⟨block, rest, hblock, hrest, Except.ok.inj hok⟩

/-- An item that is left with a byte `x` was the prefix and `x`. -/
theorem scancode_of_mem_cut {h : List Byte} {li : List Item} {l : Item} {x : Byte}
    (hl : l ∈ (li.filter (takes h)).map (cut h)) (hsc : l.scancode.head? = some x) :
    ∃ k ∈ li, k.scancode = h ++ [x] ∧ l = cut h k := by
  obtain ⟨k, hk, rfl⟩ := List.mem_map.mp hl
  obtain ⟨hk1, hk2⟩ := List.mem_filter.mp hk
  obtain ⟨y, hy⟩ := takes_iff.mp hk2
  rw [cut, hy] at hsc
  obtain rfl : y = x := by simpa using hsc
  exact ⟨k, hk1, hy, rfl⟩

/-- The block of prefix `h` has the element of a scan code that is `h` and one byte more. -/
theorem fillBlocks_spec {h : List Byte} {x : Byte} {l : Item} (hl : l.scancode = h ++ [x]) :
    ∀ {head : List (List Byte)} {li : List Item} {blocks : List Block},
      fillBlocks head li = .ok blocks → (∀ k ∈ li, k.scancode.length ≠ 1) → l ∈ li →
      (∀ k ∈ li, k.scancode = l.scancode → k.elem = l.elem) → ∀ i, head[i]? = some h →
      h ∉ head.take i → ∃ b, blocks[i]? = some b ∧ b x = l.elem := by
  intro head
  induction head with
  | nil => intro li blocks _ _ _ _ i hi; simp at hi
  | cons g hs ih =>
    intro li blocks hok hone hmem huniq i hi hfirst
    obtain ⟨block, rest, hblock, hrest, rfl⟩ := fillBlocks_cons hok
    rw [removeAll_takes hone] at hrest
    cases i with
    | zero =>
      obtain rfl : g = h := by simpa using hi
      refine ⟨block, by simp, getBinary_mem hblock ⟨cut g l, ?_, ?_⟩ ?_⟩
      · exact List.mem_map.mpr ⟨l, List.mem_filter.mpr ⟨hmem, takes_iff.mpr ⟨x, hl⟩⟩, rfl⟩
      · rw [cut, hl]
        simp
      · intro l' hl' hsc
        obtain ⟨k, hk, hform, rfl⟩ := scancode_of_mem_cut hl' hsc
        exact huniq k hk (by rw [hform, hl])
    | succ i =>
      have hne : g ≠ h := by
        rintro rfl
        exact hfirst (by simp)
      have hstay : (!takes g l) = true := by
        rw [Bool.not_eq_true', Bool.eq_false_iff]
        intro ht
        obtain ⟨y, hy⟩ := takes_iff.mp ht
        rw [hl] at hy
        exact hne (List.append_inj_left' hy rfl).symm
      have := ih hrest (fun k hk => hone k (List.mem_filter.mp hk).1)
        (List.mem_filter.mpr ⟨hmem, hstay⟩) (fun k hk => huniq k (List.mem_filter.mp hk).1) i
        (by simpa using hi) (fun hin => hfirst (by simp [hin]))
      simpa using this

theorem fillBlocks_length : ∀ {head : List (List Byte)} {li : List Item} {blocks : List Block},
    fillBlocks head li = .ok blocks → blocks.length = head.length := by
  intro head
  induction head with
  | nil =>
    intro li blocks h
    rw [← Except.ok.inj h]
    rfl
  | cons g hs ih =>
    intro li blocks hok
    obtain ⟨block, rest, _, hrest, rfl⟩ := fillBlocks_cons hok
    rw [List.length_cons, ih hrest, List.length_cons]

/-! ## The references -/

theorem pack_eq_ok {n : Nat} {b : Byte} (h : pack n = .ok b) : n < 256 ∧ b = BitVec.ofNat 8 n := by
  unfold pack at h
  split at h
  · exact ⟨‹_›, (Except.ok.inj h).symm⟩
  · cases h

theorem changeIndex_returns {mappings : Byte → Option Nat} : ∀ {p : List Byte} {i : Nat},
    (∃ j, changeIndex mappings p i = .ok j) ↔ ∀ a ∈ p, mappings a ≠ none := by
  intro p
  induction p with
  | nil => intro i; simp [changeIndex]
  | cons a p ih =>
    intro i
    rw [changeIndex]
    cases hm : mappings a with
    | none => simp [hm]
    | some k => simpa [hm] using ih

/-- Of a prefix without its last byte only the last byte counts. -/
theorem changeIndex_append {mappings : Byte → Option Nat} {a : Byte} {j : Nat} :
    ∀ {p : List Byte} {i : Nat}, changeIndex mappings (p ++ [a]) i = .ok j → mappings a = some j := by
  intro p
  induction p with
  | nil =>
    intro i h
    rw [List.nil_append, changeIndex] at h
    split at h
    · cases h
    · rename_i m hm
      rw [hm, Except.ok.inj h]
  | cons b p ih =>
    intro i h
    rw [List.cons_append, changeIndex] at h
    split at h
    · cases h
    · exact ih h

theorem fillReferences_cons {h : List Byte} {block : Block} {rest : List (List Byte × Block)} {k : Nat}
    {mappings : Byte → Option Nat} {ret out : List Block}
    (hok : fillReferences ((h, block) :: rest) k mappings ret = .ok out) :
    k + 1 < 256 ∧ ∃ (j : Nat) (c : Byte) (mappings' : Byte → Option Nat),
      fillReferences rest (k + 1) mappings' (refer (ret ++ [block]) j c (BitVec.ofNat 8 (k + 1))) =
        .ok out ∧
      ((h = [c] ∧ j = 0 ∧ mappings' = Function.update mappings c (some (k + 1))) ∨
        ∃ p a, h = p ++ [a, c] ∧ (∀ x ∈ p, mappings x ≠ none) ∧ mappings a = some j ∧
          mappings' = mappings) := by
  by_cases hone : ∃ c, h = [c]
  · obtain ⟨c, rfl⟩ := hone
    rw [fillReferences] at hok
    obtain ⟨n, hn, hok⟩ := Machine.bind_eq_ok.mp hok
    obtain ⟨hlt, rfl⟩ := pack_eq_ok hn
    exact ⟨hlt, 0, c, _, hok, .inl ⟨rfl, rfl, rfl⟩⟩
  · rw [fillReferences.eq_3 _ _ _ _ _ _ fun c hc => hone ⟨c, hc⟩] at hok
    obtain ⟨j, hj, hlast⟩ := Machine.bind_eq_ok.mp hok
    rcases List.eq_nil_or_concat h with rfl | ⟨q, c, rfl⟩
    · cases hlast
    · rw [List.concat_eq_append, List.dropLast_concat] at hj
      rw [List.concat_eq_append, List.getLast?_concat] at hlast
      obtain ⟨n, hn, hrest⟩ := Machine.bind_eq_ok.mp hlast
      obtain ⟨hlt, rfl⟩ := pack_eq_ok hn
      rcases List.eq_nil_or_concat q with rfl | ⟨p, a, rfl⟩
      · exact absurd ⟨c, rfl⟩ hone
      · rw [List.concat_eq_append] at hj
        have hmapped := changeIndex_returns.mp ⟨j, hj⟩
        exact ⟨hlt, j, c, mappings, hrest, .inr ⟨p, a, by simp, fun x hx => hmapped x (by simp [hx]),
          changeIndex_append hj, rfl⟩⟩

/-- The element that refers to block `n`. -/
def reference (n : Nat) : Elem := (BitVec.ofNat 8 n, 0x80)

/-- The blocks in `ret` refer to each other like the nodes of a trie. `nodes` gives for each block the
bytes that lead to it, and what it holds itself. -/
def Linked (nodes : List (List Byte × Block)) (ret : List Block) : Prop :=
  ∀ (n : Nat) (h : List Byte) (b : Block), nodes[n]? = some (h, b) → ∃ B : Block, ret[n]? = some B ∧
    ∀ x : Byte, (∀ m b', nodes[m]? = some (h ++ [x], b') → B x = reference m) ∧
      (h ++ [x] ∉ nodes.map Prod.fst → B x = b x)

/-- What the second phase keeps. -/
structure Trie (nodes : List (List Byte × Block)) (mappings : Byte → Option Nat) (ret : List Block) :
    Prop where
  length : ret.length = nodes.length
  small : nodes.length ≤ 256
  short : ∀ h ∈ nodes.map Prod.fst, h.length ≤ 2
  nodup : (nodes.map Prod.fst).Nodup
  root : ∃ b, nodes[0]? = some ([], b)
  maps : ∀ a n, mappings a = some n → ∃ b, nodes[n]? = some ([a], b)
  closed : ∀ a x, [a, x] ∈ nodes.map Prod.fst → [a] ∈ nodes.map Prod.fst
  linked : Linked nodes ret

section Trie

variable {nodes : List (List Byte × Block)} {mappings : Byte → Option Nat} {ret : List Block}

theorem Trie.index_unique (t : Trie nodes mappings ret) {n m : Nat} {h : List Byte} {b b' : Block}
    (hn : nodes[n]? = some (h, b)) (hm : nodes[m]? = some (h, b')) : n = m := by
  have hlt : n < (nodes.map Prod.fst).length := by
    rw [List.length_map]
    exact (List.getElem?_eq_some_iff.mp hn).1
  apply (List.getElem?_inj hlt t.nodup).mp
  rw [List.getElem?_map, List.getElem?_map, hn, hm]
  rfl

/-- A new block at the end, with a reference to it from the block of `g`. -/
theorem Trie.linked_add (t : Trie nodes mappings ret) {j : Nat} {g : List Byte} {c : Byte} {bg : Block}
    (hj : nodes[j]? = some (g, bg)) (hfresh : g ++ [c] ∉ nodes.map Prod.fst)
    (hleaf : ∀ x, g ++ [c] ++ [x] ∉ nodes.map Prod.fst) (block : Block) :
    Linked (nodes ++ [(g ++ [c], block)])
      (refer (ret ++ [block]) j c (BitVec.ofNat 8 nodes.length)) := by
  have hmem : ∀ {m : Nat} {h : List Byte} {b : Block}, nodes[m]? = some (h, b) →
      h ∈ nodes.map Prod.fst := fun hm => List.mem_map.mpr ⟨_, List.mem_of_getElem? hm, rfl⟩
  have hsplit : ∀ {m : Nat} {h : List Byte} {b : Block},
      (nodes ++ [(g ++ [c], block)])[m]? = some (h, b) →
        nodes[m]? = some (h, b) ∨ (m = nodes.length ∧ h = g ++ [c] ∧ b = block) := by
    intro m h b hm
    rw [List.getElem?_append] at hm
    split at hm
    · exact .inl hm
    · right
      obtain ⟨h1, h2⟩ := List.getElem?_eq_some_iff.mp hm
      rw [List.length_singleton] at h1
      have h0 : m - nodes.length = 0 := by omega
      simp only [h0, List.getElem_cons_zero, Prod.mk.injEq] at h2
      exact ⟨by omega, h2.1.symm, h2.2.symm⟩
  have hout : ∀ {h : List Byte} {x : Byte},
      h ++ [x] ∉ (nodes ++ [(g ++ [c], block)]).map Prod.fst → h ++ [x] ∉ nodes.map Prod.fst :=
    fun hx hin => hx (by rw [List.map_append]; exact List.mem_append_left _ hin)
  have hjlt : j < nodes.length := (List.getElem?_eq_some_iff.mp hj).1
  intro n h b hn
  rcases hsplit hn with hin' | ⟨rfl, rfl, rfl⟩
  · obtain ⟨B, hB, hrefs⟩ := t.linked n h b hin'
    have hlt : n < ret.length := (List.getElem?_eq_some_iff.mp hB).1
    by_cases hjn : j = n
    · -- the block that gets the reference
      subst hjn
      obtain ⟨rfl, rfl⟩ : g = h ∧ bg = b := by
        rw [hj] at hin'
        exact Prod.mk.inj (Option.some.inj hin')
      refine ⟨Function.update B c (BitVec.ofNat 8 nodes.length, 0x80), ?_, fun x => ⟨?_, ?_⟩⟩
      · rw [refer, List.getElem?_modify, List.getElem?_append_left hlt, hB]
        simp
      · intro m b' hm
        rcases hsplit hm with hin | ⟨rfl, hx, _⟩
        · have hx : x ≠ c := by
            rintro rfl
            exact hfresh (hmem hin)
          rw [Function.update_of_ne hx]
          exact (hrefs x).1 m b' hin
        · obtain rfl : x = c := by simpa using List.append_cancel_left hx
          rw [Function.update_self]
          rfl
      · intro hx
        have hxc : x ≠ c := by
          rintro rfl
          exact hx (by simp)
        rw [Function.update_of_ne hxc]
        exact (hrefs x).2 (hout hx)
    · refine ⟨B, ?_, fun x => ⟨?_, fun hx => (hrefs x).2 (hout hx)⟩⟩
      · rw [refer, List.getElem?_modify, List.getElem?_append_left hlt, hB]
        simp [hjn]
      · intro m b' hm
        rcases hsplit hm with hin | ⟨rfl, hx, _⟩
        · exact (hrefs x).1 m b' hin
        · obtain ⟨hgh, _⟩ := List.append_inj' hx rfl
          rw [hgh] at hin'
          exact absurd (t.index_unique hj hin') hjn
  · -- the new block itself
    refine ⟨b, ?_, fun x => ⟨?_, fun _ => rfl⟩⟩
    · rw [refer, List.getElem?_modify, List.getElem?_append_right (Nat.le_of_eq t.length),
        t.length]
      simp [Nat.ne_of_lt hjlt]
    · intro m b' hm
      rcases hsplit hm with hm | ⟨_, hx, _⟩
      · exact absurd (hmem hm) (hleaf x)
      · simp at hx

/-- One prefix of the second phase: its block is added, with a reference from the block of the bytes
before its last. -/
theorem Trie.add (t : Trie nodes mappings ret) {j : Nat} {g : List Byte} {c : Byte} {bg block : Block}
    {mappings' : Byte → Option Nat} (hj : nodes[j]? = some (g, bg)) (hg : g.length ≤ 1)
    (hfresh : g ++ [c] ∉ nodes.map Prod.fst) (hlt : nodes.length < 256)
    (hmaps : ∀ a n, mappings' a = some n → mappings a = some n ∨ (n = nodes.length ∧ g ++ [c] = [a])) :
    Trie (nodes ++ [(g ++ [c], block)]) mappings'
      (refer (ret ++ [block]) j c (BitVec.ofNat 8 nodes.length)) := by
  have hgmem : g ∈ nodes.map Prod.fst := List.mem_map.mpr ⟨_, List.mem_of_getElem? hj, rfl⟩
  have hfst : (nodes ++ [(g ++ [c], block)]).map Prod.fst = nodes.map Prod.fst ++ [g ++ [c]] := by
    rw [List.map_append]
    rfl
  -- no listed prefix goes on from the new one: it would have needed its block before
  have hleaf : ∀ x, g ++ [c] ++ [x] ∉ nodes.map Prod.fst := by
    intro x hx
    match g, hg with
    | [], _ => exact hfresh (t.closed c x hx)
    | [a], _ => exact absurd (t.short _ hx) (by simp)
  constructor
  · rw [refer, List.length_modify, List.length_append, t.length, List.length_append]
    rfl
  · rw [List.length_append, List.length_singleton]
    exact hlt
  · intro h hh
    rw [hfst, List.mem_append, List.mem_singleton] at hh
    rcases hh with hh | rfl
    · exact t.short h hh
    · rw [List.length_append, List.length_singleton]
      omega
  · rw [hfst]
    exact List.nodup_append.mpr ⟨t.nodup, by simp, fun a ha b hb => by
      rw [List.mem_singleton.mp hb]; rintro rfl; exact hfresh ha⟩
  · obtain ⟨b, hb⟩ := t.root
    exact ⟨b, by rw [List.getElem?_append_left (List.getElem?_eq_some_iff.mp hb).1, hb]⟩
  · intro a n han
    rcases hmaps a n han with hold | ⟨rfl, ha⟩
    · obtain ⟨b, hb⟩ := t.maps a n hold
      exact ⟨b, by rw [List.getElem?_append_left (List.getElem?_eq_some_iff.mp hb).1, hb]⟩
    · exact ⟨block, by rw [List.getElem?_append_right (Nat.le_refl _)]; simp [ha]⟩
  · intro a x hax
    rw [hfst, List.mem_append, List.mem_singleton] at hax ⊢
    rcases hax with hax | hax
    · exact .inl (t.closed a x hax)
    · obtain ⟨rfl, _⟩ := List.append_inj' (show [a] ++ [x] = g ++ [c] from hax) rfl
      exact .inl hgmem
  · exact t.linked_add hj hfresh hleaf block

theorem fillReferences_spec : ∀ {rest : List (List Byte × Block)} {nodes : List (List Byte × Block)}
    {mappings : Byte → Option Nat} {ret out : List Block} {k : Nat}, Trie nodes mappings ret →
    k + 1 = nodes.length → (∀ h ∈ rest.map Prod.fst, h.length = 1 ∨ h.length = 2) →
    ((nodes ++ rest).map Prod.fst).Nodup → fillReferences rest k mappings ret = .ok out →
      ∃ mappings', Trie (nodes ++ rest) mappings' out := by
  intro rest
  induction rest with
  | nil =>
    intro nodes mappings ret out k t _ _ _ hok
    rw [← Except.ok.inj hok, List.append_nil]
    exact ⟨mappings, t⟩
  | cons p rest ih =>
    intro nodes mappings ret out k t hk hlen hnodup hok
    obtain ⟨h, block⟩ := p
    have hfresh : h ∉ nodes.map Prod.fst := by
      rw [List.map_append, List.nodup_append] at hnodup
      exact fun hin => hnodup.2.2 h hin h (by simp) rfl
    have happ : nodes ++ (h, block) :: rest = nodes ++ [(h, block)] ++ rest := by simp
    have hlen' : ∀ g ∈ rest.map Prod.fst, g.length = 1 ∨ g.length = 2 :=
      fun g hg => hlen g (by rw [List.map_cons]; exact List.mem_cons_of_mem _ hg)
    rw [happ] at hnodup ⊢
    obtain ⟨hlt, j, c, mappings', hrest, hcase⟩ := fillReferences_cons hok
    rw [hk] at hlt hrest
    rcases hcase with ⟨rfl, rfl, rfl⟩ | ⟨p, a, rfl, _, hj, rfl⟩
    · obtain ⟨b0, hroot⟩ := t.root
      refine ih (t.add (g := []) hroot (by simp) hfresh hlt ?_) (by simp) hlen' hnodup hrest
      intro a n hn
      by_cases ha : a = c
      · rw [ha, Function.update_self, hk] at hn
        exact .inr ⟨(Option.some.inj hn).symm, by rw [ha]; rfl⟩
      · rw [Function.update_of_ne ha] at hn
        exact .inl hn
    · -- a prefix of two bytes
      obtain rfl : p = [] := by
        have := hlen (p ++ [a, c]) (by simp)
        rw [List.length_append, List.length_cons, List.length_singleton] at this
        exact List.eq_nil_of_length_eq_zero (by omega)
      obtain ⟨bg, hbg⟩ := t.maps a j hj
      exact ih (t.add (g := [a]) hbg (by simp) hfresh hlt fun _ _ hn => .inl hn)
        (by simp) hlen' hnodup hrest

end Trie

end Kbd
end Frod
