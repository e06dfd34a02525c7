import Mathlib.Data.List.Nodup
import Frod.Kbd.Keyset
import Frod.Lib.Bytes

/-!
# Frod.Kbd.Decode

The keyboard state machine of `sys/kbd.c`, and that it inverts the key-set generator.

`kbd_add_scancode` walks the loaded image by pointer arithmetic: the flag `0x80` sends it to another
block, everything else is reported and sends it back to the first. `Trie.reach` says where the bytes
of a listed prefix lead, and `decode_generated` that a scan code from the table is reported as the key
code of its row.
-/

namespace Frod
namespace Kbd

/-- The globals `orig_map` and `curr_map`. -/
structure State where
  origMap : Nat
  currMap : Nat

/-- `KBD_FLAG_MASK_PEND_MORE`. -/
def kbdFlagMaskPendMore : Byte := 1 <<< 7

/-- `kbd_init`. -/
def kbdInit (keymap : Nat) : State := ⟨keymap, keymap⟩

/-- The bytes `curr_map->map[sc].kc` and `curr_map->map[sc].flag`. -/
def kc (m : Mem) (s : State) (sc : Byte) : Byte := m ((s.currMap + 2 * sc.toNat) % 2 ^ 32)
def flag (m : Mem) (s : State) (sc : Byte) : Byte := m ((s.currMap + 2 * sc.toNat + 1) % 2 ^ 32)

/-- `kbd_add_scancode`, with the key code it reports. -/
def kbdAddScancode (m : Mem) (s : State) (sc : Byte) : Option Byte × State :=
  if flag m s sc &&& kbdFlagMaskPendMore ≠ 0 then
    (none, { s with currMap := (s.origMap + (kc m s sc).toNat * 256 * 2) % 2 ^ 32 })
  else (some (kc m s sc), { s with currMap := s.origMap })

/-- Bytes fed one after the other. -/
def feed (m : Mem) : State → List Byte → List (Option Byte) × State
  | s, [] => ([], s)
  | s, sc :: scs =>
    let (o, s) := kbdAddScancode m s sc
    let (os, s) := feed m s scs
    (o :: os, s)

theorem feed_cons_snd (m : Mem) (s : State) (sc : Byte) (scs : List Byte) :
    (feed m s (sc :: scs)).2 = (feed m (kbdAddScancode m s sc).2 scs).2 := rfl

theorem feed_append (m : Mem) : ∀ (l₁ l₂ : List Byte) (s : State),
    feed m s (l₁ ++ l₂) =
      ((feed m s l₁).1 ++ (feed m (feed m s l₁).2 l₂).1, (feed m (feed m s l₁).2 l₂).2) := by
  intro l₁
  induction l₁ with
  | nil => intro l₂ s; rfl
  | cons a l₁ ih =>
    intro l₂ s
    simp only [List.cons_append, feed, ih]

/-! ## The image in memory -/

/-- The image lies in memory from `a` on. -/
def Loaded (m : Mem) (a : Nat) (image : List Byte) : Prop :=
  ∀ k b, image[k]? = some b → m ((a + k) % 2 ^ 32) = b

/-- Elements of equal length laid out one after the other. -/
theorem getElem?_flatMap {α β : Type} {f : α → List β} {n j : Nat} (hf : ∀ a, (f a).length = n)
    (hj : j < n) : ∀ (l : List α) (i : Nat),
      (l.flatMap f)[n * i + j]? = l[i]?.bind fun a => (f a)[j]? := by
  intro l
  induction l with
  | nil => intro i; simp
  | cons a l ih =>
    intro i
    rw [List.flatMap_cons]
    cases i with
    | zero => rw [List.getElem?_append_left (by rw [hf]; omega)]; simp
    | succ i =>
      have : n * (i + 1) + j - (f a).length = n * i + j := by rw [hf, Nat.mul_add]; omega
      rw [List.getElem?_append_right (by rw [hf, Nat.mul_add]; omega), this, ih]
      simp

theorem length_flatMap {α β : Type} {f : α → List β} {n : Nat} (hf : ∀ a, (f a).length = n) :
    ∀ l : List α, (l.flatMap f).length = n * l.length := by
  intro l
  induction l with
  | nil => rfl
  | cons a l ih => rw [List.flatMap_cons, List.length_append, hf, ih, List.length_cons, Nat.mul_succ,
      Nat.add_comm]

/-- The two bytes of element `sc` of block `n` in the file. -/
theorem writeBinaryFile_elem {data : List Block} {n : Nat} {B : Block} (h : data[n]? = some B)
    (sc : Byte) :
    (writeBinaryFile data)[512 * n + 2 * sc.toNat]? = some (B sc).1 ∧
      (writeBinaryFile data)[512 * n + (2 * sc.toNat + 1)]? = some (B sc).2 := by
  have hsc : sc.toNat < 256 := sc.isLt
  have hpair : ∀ (B : Block) (i : Nat),
      [(B (BitVec.ofNat 8 i)).1, (B (BitVec.ofNat 8 i)).2].length = 2 := fun _ _ => rfl
  have hblock : ∀ B : Block, ((List.range 256).flatMap fun i =>
      [(B (BitVec.ofNat 8 i)).1, (B (BitVec.ofNat 8 i)).2]).length = 512 := fun B => by
    rw [length_flatMap (hpair B), List.length_range]
  unfold writeBinaryFile
  rw [getElem?_flatMap hblock (by omega), getElem?_flatMap hblock (by omega), h]
  have h0 := getElem?_flatMap (hpair B) (show 0 < 2 by omega) (List.range 256) sc.toNat
  have h1 := getElem?_flatMap (hpair B) (show 1 < 2 by omega) (List.range 256) sc.toNat
  rw [Nat.add_zero] at h0
  simp only [Option.bind_some, h0, h1, List.getElem?_range hsc]
  simp

/-- The state machine looks at block `n`. -/
def atBlock (keymap n : Nat) : State := ⟨keymap, (keymap + 512 * n) % 2 ^ 32⟩

theorem kbdInit_eq {keymap : Nat} (hk : keymap < 2 ^ 32) : kbdInit keymap = atBlock keymap 0 := by
  rw [atBlock, Nat.mul_zero, Nat.add_zero, Nat.mod_eq_of_lt hk]
  rfl

section Loaded

variable {m : Mem} {keymap n : Nat} {data : List Block} {B : Block}
  (hload : Loaded m keymap (writeBinaryFile data)) (hB : data[n]? = some B)
include hload hB

theorem elem_loaded (sc : Byte) :
    kc m (atBlock keymap n) sc = (B sc).1 ∧ flag m (atBlock keymap n) sc = (B sc).2 := by
  obtain ⟨h1, h2⟩ := writeBinaryFile_elem hB sc
  refine ⟨?_, ?_⟩
  · rw [kc, atBlock, ← hload _ _ h1]
    congr 1
    dsimp only
    omega
  · rw [flag, atBlock, ← hload _ _ h2]
    congr 1
    dsimp only
    omega

theorem kbdAddScancode_reference {sc : Byte} {k : Nat} (hk : k < 256) (hsc : B sc = reference k) :
    kbdAddScancode m (atBlock keymap n) sc = (none, atBlock keymap k) := by
  obtain ⟨h1, h2⟩ := elem_loaded hload hB sc
  simp only [hsc, reference] at h1 h2
  have hflag : (0x80 : Byte) &&& kbdFlagMaskPendMore ≠ 0 := by decide
  rw [kbdAddScancode, h1, h2, if_pos hflag, BitVec.toNat_ofNat, Nat.mod_eq_of_lt hk, atBlock, atBlock,
    Nat.mul_assoc, Nat.mul_comm k]

/-- An element without the flag is reported, and the next byte starts in the first block. -/
theorem kbdAddScancode_key {sc : Byte} (hsc : (B sc).2 &&& kbdFlagMaskPendMore = 0) :
    kbdAddScancode m (atBlock keymap n) sc = (some (B sc).1, kbdInit keymap) := by
  obtain ⟨h1, h2⟩ := elem_loaded hload hB sc
  rw [kbdAddScancode, h1, h2, if_neg (not_not.mpr hsc)]
  rfl

theorem kbdAddScancode_elem {sc : Byte} {l : Item} (hsc : B sc = l.elem) :
    kbdAddScancode m (atBlock keymap n) sc = (some l.keycode, kbdInit keymap) := by
  have hflag : (B sc).2 &&& kbdFlagMaskPendMore = 0 := by
    rw [hsc]
    show (if l.brk then 1 else 0 : Byte) &&& kbdFlagMaskPendMore = 0
    cases l.brk <;> decide
  rw [kbdAddScancode_key hload hB hflag, hsc]
  rfl

end Loaded

/-- The bytes of a listed prefix lead to its block, and nothing is reported on the way. -/
theorem Trie.reach {nodes : List (List Byte × Block)} {mappings : Byte → Option Nat}
    {data : List Block} (t : Trie nodes mappings data) {m : Mem} {keymap : Nat} (hk : keymap < 2 ^ 32)
    (hload : Loaded m keymap (writeBinaryFile data)) {n : Nat} {h : List Byte} {b : Block}
    (hn : nodes[n]? = some (h, b)) :
    feed m (kbdInit keymap) h = (List.replicate h.length none, atBlock keymap n) := by
  have hlt : ∀ {n : Nat} {h : List Byte} {b : Block}, nodes[n]? = some (h, b) → n < 256 :=
    fun hn => Nat.lt_of_lt_of_le (List.getElem?_eq_some_iff.mp hn).1 t.small
  obtain ⟨b₀, h₀⟩ := t.root
  obtain ⟨B₀, hB₀, hrefs₀⟩ := t.linked _ _ _ h₀
  -- one byte leads from the first block to that of a listed byte
  have hone : ∀ {a : Byte} {n : Nat} {b : Block}, nodes[n]? = some ([a], b) →
      kbdAddScancode m (atBlock keymap 0) a = (none, atBlock keymap n) := fun hn =>
    kbdAddScancode_reference hload hB₀ (hlt hn) ((hrefs₀ _).1 _ _ hn)
  have hshort : h.length ≤ 2 := t.short h (List.mem_map.mpr ⟨_, List.mem_of_getElem? hn, rfl⟩)
  rw [kbdInit_eq hk]
  match h, hshort with
  | [], _ =>
    rw [t.index_unique hn h₀]
    rfl
  | [a], _ =>
    simp only [feed, hone hn]
    rfl
  | [a, c], _ =>
    obtain ⟨⟨h₁, b₁⟩, hmem, rfl⟩ : ∃ p ∈ nodes, p.1 = [a] :=
      List.mem_map.mp (t.closed a c (List.mem_map.mpr ⟨_, List.mem_of_getElem? hn, rfl⟩))
    obtain ⟨k, hk₁⟩ := List.mem_iff_getElem?.mp hmem
    obtain ⟨B₁, hB₁, hrefs₁⟩ := t.linked _ _ _ hk₁
    have htwo := kbdAddScancode_reference hload hB₁ (hlt hn) ((hrefs₁ c).1 _ _ hn)
    simp only [feed, hone hk₁, htwo]
    rfl

/-! ## The generated image -/

theorem removeAll_filter (p : Item → Bool) (li : List Item) :
    removeAll li (li.filter p) = li.filter fun l => !p l := by
  have hne : ∀ a ∈ li, p a = false → ∀ b ∈ li, p b = true → id b ≠ a := by
    intro a _ ha b _ hb heq
    rw [← heq, id, hb] at ha
    cases ha
  simpa using removeAll_map p id hne

theorem transformList_perm (rows : List Row) : (transformList rows).Perm
    (rows.flatMap fun s => [⟨s.brk, s.keycode, true⟩, ⟨s.make, s.keycode, false⟩]) :=
  List.mergeSort_perm _ _

theorem transformList_inj {rows : List Row} (h : (rows.flatMap fun r => [r.brk, r.make]).Nodup)
    {k l : Item} (hk : k ∈ transformList rows) (hl : l ∈ transformList rows)
    (heq : k.scancode = l.scancode) : k = l := by
  have hperm := (transformList_perm rows).map Item.scancode
  have hmap : (rows.flatMap fun s => [(⟨s.brk, s.keycode, true⟩ : Item), ⟨s.make, s.keycode, false⟩]).map
      Item.scancode = rows.flatMap fun r => [r.brk, r.make] := by
    rw [List.map_flatMap]
    rfl
  rw [hmap] at hperm
  exact List.inj_on_of_nodup_map (hperm.nodup_iff.mpr h) hk hl heq

/-- What `get_all_blocks` makes: block 0 for the scan codes of one byte, then the blocks of the
prefixes from last to first. -/
theorem getAllBlocks_trie {li : List Item} {head : List (List Byte)} {data : List Block}
    (hlen : ∀ h ∈ head, h.length = 1 ∨ h.length = 2) (hhead : head.Nodup)
    (hok : getAllBlocks li head = .ok data) :
    ∃ block blocks mappings, getBinary (li.filter fun l => l.scancode.length = 1) zeroBlock = .ok block ∧
      fillBlocks head (li.filter fun l => !decide (l.scancode.length = 1)) = .ok blocks ∧
      Trie (([], block) :: (head.zip blocks).reverse) mappings data := by
  rw [getAllBlocks, removeAll_filter] at hok
  obtain ⟨block, hblock, hok⟩ := Machine.bind_eq_ok.mp hok
  obtain ⟨blocks, hblocks, hok⟩ := Machine.bind_eq_ok.mp hok
  have hfst : (head.zip blocks).reverse.map Prod.fst = head.reverse := by
    rw [List.map_reverse, List.map_fst_zip (Nat.le_of_eq (fillBlocks_length hblocks).symm)]
  have hstart : Trie [([], block)] (fun _ => none) [block] := by
    refine ⟨rfl, by simp, by simp, by simp, ⟨block, rfl⟩, by simp, by simp, ?_⟩
    intro n h b hn
    obtain ⟨hlt, heq⟩ := List.getElem?_eq_some_iff.mp hn
    obtain rfl : n = 0 := by simpa using hlt
    obtain ⟨rfl, rfl⟩ := Prod.mk.inj heq
    refine ⟨block, rfl, fun x => ⟨fun m b' hm => ?_, fun _ => rfl⟩⟩
    have := List.mem_of_getElem? hm
    simp at this
  have hnodup : (([([], block)] ++ (head.zip blocks).reverse).map Prod.fst).Nodup := by
    rw [List.map_append, hfst]
    refine List.nodup_append.mpr ⟨by simp, List.nodup_reverse.mpr hhead, fun a ha b hb => ?_⟩
    rw [List.map_singleton, List.mem_singleton] at ha
    rw [ha]
    rintro rfl
    rcases hlen _ (List.mem_reverse.mp hb) with h | h <;> cases h
  obtain ⟨mappings, t⟩ := fillReferences_spec hstart rfl
    (by rw [hfst]; exact fun h hh => hlen h (List.mem_reverse.mp hh)) hnodup hok
  exact ⟨block, blocks, mappings, hblock, hblocks, t⟩

/-- A scan code of one byte has its element in the first block. -/
theorem elem_of_byte {li : List Item} {block : Block}
    (hblock : getBinary (li.filter fun l => l.scancode.length = 1) zeroBlock = .ok block) {l : Item}
    (hl : l ∈ li) (huniq : ∀ k ∈ li, k.scancode = l.scancode → k.elem = l.elem) {x : Byte}
    (hform : l.scancode = [x]) : block x = l.elem := by
  refine getBinary_mem hblock ⟨l, List.mem_filter.mpr ⟨hl, by simp [hform]⟩, by rw [hform]; rfl⟩ ?_
  intro k hk hx
  obtain ⟨hk, hk1⟩ := List.mem_filter.mp hk
  obtain ⟨y, hy⟩ := List.length_eq_one_iff.mp (of_decide_eq_true hk1)
  rw [hy] at hx
  obtain rfl : y = x := by simpa using hx
  exact huniq k hk (by rw [hy, hform])

/-- A longer one has it in the block of its prefix, where the prefix stands first. -/
theorem elem_of_prefix {li : List Item} {head : List (List Byte)} {blocks : List Block}
    (hblocks : fillBlocks head (li.filter fun l => !decide (l.scancode.length = 1)) = .ok blocks)
    {l : Item} (hl : l ∈ li) (huniq : ∀ k ∈ li, k.scancode = l.scancode → k.elem = l.elem)
    {h : List Byte} {x : Byte} (hform : l.scancode = h ++ [x]) (hne : h ≠ []) {i : Nat}
    (hi : head[i]? = some h) (hfirst : h ∉ head.take i) :
    ∃ b, blocks[i]? = some b ∧ b x = l.elem := by
  have hlong : (!decide (l.scancode.length = 1)) = true := by
    have := List.length_pos_iff.mpr hne
    rw [hform, List.length_append, List.length_singleton, Bool.not_eq_true', decide_eq_false_iff_not]
    omega
  exact fillBlocks_spec hform hblocks (fun k hk => by simpa using (List.mem_filter.mp hk).2)
    (List.mem_filter.mpr ⟨hl, hlong⟩) (fun k hk => huniq k (List.mem_filter.mp hk).1) i hi hfirst

/-- A scan code that is a listed prefix, or nothing, and one byte more has its element in the block of
that prefix. -/
theorem node_of_item {li : List Item} {head : List (List Byte)} {block : Block} {blocks : List Block}
    (hblock : getBinary (li.filter fun l => l.scancode.length = 1) zeroBlock = .ok block)
    (hblocks : fillBlocks head (li.filter fun l => !decide (l.scancode.length = 1)) = .ok blocks)
    (hhead : head.Nodup) {l : Item} (hl : l ∈ li)
    (huniq : ∀ k ∈ li, k.scancode = l.scancode → k.elem = l.elem)
    {h : List Byte} {x : Byte} (hform : l.scancode = h ++ [x]) (hh : h = [] ∨ (h ∈ head ∧ h ≠ [])) :
    ∃ (n : Nat) (b : Block), (([], block) :: (head.zip blocks).reverse)[n]? = some (h, b) ∧
      b x = l.elem := by
  rcases hh with rfl | ⟨hin, hne⟩
  · exact ⟨0, block, rfl, elem_of_byte hblock hl huniq hform⟩
  · obtain ⟨i, hi⟩ := List.mem_iff_getElem?.mp hin
    have hfirst : h ∉ head.take i := by
      intro hm
      obtain ⟨j, hj⟩ := List.mem_iff_getElem?.mp hm
      rw [List.getElem?_take] at hj
      split at hj
      · rename_i hji
        have hlt := (List.getElem?_eq_some_iff.mp hj).1
        have := (List.getElem?_inj hlt hhead).mp (hj.trans hi.symm)
        omega
      · cases hj
    obtain ⟨b, hb, hbx⟩ := elem_of_prefix hblocks hl huniq hform hne hi hfirst
    have hzip : (h, b) ∈ (head.zip blocks).reverse := by
      refine List.mem_reverse.mpr (List.mem_of_getElem? (i := i) ?_)
      rw [List.getElem?_zip_eq_some]
      exact ⟨hi, hb⟩
    obtain ⟨n, hn⟩ := List.mem_iff_getElem?.mp hzip
    exact ⟨n + 1, b, List.getElem?_cons_succ.trans hn, hbx⟩

/-- The decoder inverts the generator: of every row, each sequence that is one byte, or a listed
prefix and one byte more, is reported as the row's key code with its last byte and nothing before. -/
theorem decode_generated {rows : List Row} {head : List (List Byte)} {data : List Block}
    (hlen : ∀ h ∈ head, h.length = 1 ∨ h.length = 2) (hhead : head.Nodup)
    (hdistinct : (rows.flatMap fun r => [r.brk, r.make]).Nodup)
    (hlisted : ∀ r ∈ rows, r.make ∉ head ∧ r.brk ∉ head)
    (hok : getAllBlocks (transformList rows) head = .ok data)
    {m : Mem} {keymap : Nat} (hk : keymap < 2 ^ 32) (hload : Loaded m keymap (writeBinaryFile data))
    {r : Row} (hr : r ∈ rows) {s : List Byte} (hs : s = r.make ∨ s = r.brk)
    (hform : (∃ x, s = [x]) ∨ ∃ h ∈ head, ∃ x, s = h ++ [x]) :
    feed m (kbdInit keymap) s =
      (List.replicate (s.length - 1) none ++ [some r.keycode], kbdInit keymap) := by
  obtain ⟨block, blocks, mappings, hblock, hblocks, t⟩ := getAllBlocks_trie hlen hhead hok
  obtain ⟨l, hl, hls, hlk⟩ : ∃ l ∈ transformList rows, l.scancode = s ∧ l.keycode = r.keycode := by
    have hmem : ∀ l : Item, l ∈ [(⟨r.brk, r.keycode, true⟩ : Item), ⟨r.make, r.keycode, false⟩] →
        l ∈ transformList rows := fun l hl =>
      (transformList_perm rows).mem_iff.mpr (List.mem_flatMap.mpr ⟨r, hr, hl⟩)
    rcases hs with rfl | rfl
    · exact ⟨_, hmem ⟨r.make, r.keycode, false⟩ (by simp), rfl, rfl⟩
    · exact ⟨_, hmem ⟨r.brk, r.keycode, true⟩ (by simp), rfl, rfl⟩
  have hnot : s ∉ head := by
    rcases hs with rfl | rfl
    · exact (hlisted r hr).1
    · exact (hlisted r hr).2
  obtain ⟨h, x, rfl, hh⟩ : ∃ h x, s = h ++ [x] ∧ (h = [] ∨ (h ∈ head ∧ h ≠ [])) := by
    rcases hform with ⟨x, rfl⟩ | ⟨h, hin, x, rfl⟩
    · exact ⟨[], x, rfl, .inl rfl⟩
    · refine ⟨h, x, rfl, .inr ⟨hin, ?_⟩⟩
      rintro rfl
      rcases hlen _ hin with h | h <;> cases h
  obtain ⟨n, b, hn, hbx⟩ := node_of_item hblock hblocks hhead hl
    (fun k hkm he => by rw [transformList_inj hdistinct hkm hl he]) hls hh
  obtain ⟨B, hB, hrefs⟩ := t.linked n h b hn
  have hout : h ++ [x] ∉ (([], block) :: (head.zip blocks).reverse).map Prod.fst := by
    rw [List.map_cons, List.map_reverse, List.map_fst_zip (Nat.le_of_eq (fillBlocks_length hblocks).symm)]
    intro hin
    rcases List.mem_cons.mp hin with h0 | hin
    · simp at h0
    · exact hnot (List.mem_reverse.mp hin)
  have hlast : feed m (atBlock keymap n) [x] = ([some r.keycode], kbdInit keymap) := by
    simp only [feed, kbdAddScancode_elem hload hB (((hrefs x).2 hout).trans hbx), hlk]
  rw [feed_append, t.reach hk hload hn, hlast, List.length_append, List.length_singleton,
    Nat.add_sub_cancel]

theorem length_writeBinaryFile (data : List Block) :
    (writeBinaryFile data).length = 512 * data.length := by
  rw [writeBinaryFile, length_flatMap (n := 512)]
  intro dd
  rw [length_flatMap (n := 2) (fun _ => rfl), List.length_range]

/-- Memory that holds a file of at most 256 blocks. -/
theorem exists_loaded {data : List Block} (h : data.length ≤ 256) :
    ∃ m, Loaded m 0x100000 (writeBinaryFile data) := by
  refine ⟨fun a => (writeBinaryFile data).getD (a - 0x100000) 0, fun k b hb => ?_⟩
  have hlt := (List.getElem?_eq_some_iff.mp hb).1
  rw [length_writeBinaryFile] at hlt
  have hk : (0x100000 + k) % 2 ^ 32 - 0x100000 = k := by omega
  simp only [hk, List.getD_eq_getElem?_getD, hb, Option.getD_some]

/-- The up arrow, and the prefixes of the shipped table. -/
def arrowUp : Row := ⟨0x48, [0xE0, 0x75], [0xE0, 0xF0, 0x75]⟩
def shippedHead : List (List Byte) := [[0xE0, 0xF0], [0xE0], [0xF0]]

theorem transformList_arrowUp : transformList [arrowUp] =
    [⟨[0xE0, 0x75], 0x48, false⟩, ⟨[0xE0, 0xF0, 0x75], 0x48, true⟩] := by
  simp [transformList, arrowUp, List.mergeSort, List.MergeSort.Internal.splitInTwo,
    List.cons_merge_cons]
  decide

theorem getAllBlocks_arrowUp :
    ∃ data, getAllBlocks (transformList [arrowUp]) shippedHead = .ok data := by
  rw [transformList_arrowUp]
  exact ⟨_, rfl⟩

theorem decode_generated_arrowUp : ∃ data m,
    getAllBlocks (transformList [arrowUp]) shippedHead = .ok data ∧
    Loaded m 0x100000 (writeBinaryFile data) ∧
    feed m (kbdInit 0x100000) [0xE0, 0xF0, 0x75] =
      ([none, none, some 0x48], kbdInit 0x100000) := by
  obtain ⟨data, hok⟩ := getAllBlocks_arrowUp
  have hlen : ∀ h ∈ shippedHead, h.length = 1 ∨ h.length = 2 := by decide
  have hhead : shippedHead.Nodup := by decide
  obtain ⟨_, _, _, _, _, t⟩ := getAllBlocks_trie hlen hhead hok
  obtain ⟨m, hload⟩ := exists_loaded (t.length ▸ t.small)
  refine ⟨data, m, hok, hload, ?_⟩
  exact decode_generated hlen hhead (by decide) (by decide) hok (by decide) hload
    (List.mem_singleton.mpr rfl) (.inr rfl) (.inr ⟨[0xE0, 0xF0], by decide, 0x75, rfl⟩)

end Kbd
end Frod
