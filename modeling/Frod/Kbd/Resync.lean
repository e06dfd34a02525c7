import Frod.Kbd.Decode
import Frod.Kbd.Refs

/-!
# Frod.Kbd.Resync

The keyboard state machine on arbitrary bytes.

`kbd_add_scancode` takes the number of the next block from the image and checks nothing. That it never
leaves the image, and comes back to the first block after a few bytes, follows from how the image was
made: every element with the flag `0x80` refers to a block with a larger number.
-/

namespace Frod
namespace Kbd

/-- Every reference leads to a block with a larger number, up to `k`. -/
def Forward (k : Nat) (data : List Block) : Prop :=
  ∀ n B x, data[n]? = some B → pending (B x) = true → ∃ m, n < m ∧ m ≤ k ∧ B x = reference m

/-- A new block at the end, with a reference to it. -/
theorem Forward.refer {k j : Nat} {ret : List Block} {b : Block} (h : Forward k ret)
    (hlen : ret.length = k + 1) (hj : j ≤ k) (hb : Plain b) (c : Byte) :
    Forward (k + 1) (refer (ret ++ [b]) j c (BitVec.ofNat 8 (k + 1))) := by
  intro n B x hB hx
  by_cases hn : n < ret.length
  · rw [refer_old hn] at hB
    obtain ⟨B₀, hB₀, rfl⟩ := Option.map_eq_some_iff.mp hB
    have hold : pending (B₀ x) = true → ∃ m, n < m ∧ m ≤ k + 1 ∧ B₀ x = reference m := by
      intro hp
      obtain ⟨m, h1, h2, h3⟩ := h n B₀ x hB₀ hp
      exact ⟨m, h1, by omega, h3⟩
    by_cases hnj : n = j
    · rw [if_pos hnj] at hx ⊢
      by_cases hxc : x = c
      · rw [hxc, Function.update_self]
        exact ⟨k + 1, by omega, Nat.le_refl _, rfl⟩
      · rw [Function.update_of_ne hxc] at hx ⊢
        exact hold hx
    · rw [if_neg hnj] at hx ⊢
      exact hold hx
  · -- the new block has no references
    have hlt := (List.getElem?_eq_some_iff.mp hB).1
    rw [Kbd.refer, List.length_modify, List.length_append, List.length_singleton] at hlt
    obtain rfl : n = ret.length := by omega
    rw [refer_new (by omega)] at hB
    obtain rfl := Option.some.inj hB
    rw [hb x] at hx
    cases hx

theorem Net.forward {block : Block} {T : List (List Byte × Block)} {ret : List Block}
    (h : Net block T ret) (h0 : Plain block) (hT : ∀ q ∈ T, Plain q.2) : Forward T.length ret := by
  induction h with
  | root =>
    intro n B x hB hx
    obtain ⟨hn, rfl⟩ := List.getElem?_eq_some_iff.mp hB
    obtain rfl : n = 0 := by simpa using hn
    have := h0 x
    rw [List.getElem_cons_zero, this] at hx
    cases hx
  | byte hnet _ ih =>
    obtain ⟨hb, hT⟩ := List.forall_mem_cons.mp hT
    exact (ih hT).refer hnet.length (Nat.zero_le _) hb _
  | more hnet _ _ hj ih =>
    obtain ⟨hb, hT⟩ := List.forall_mem_cons.mp hT
    have hbounds := number_bounds hj
    rw [List.length_map] at hbounds
    exact (ih hT).refer hnet.length hbounds.2 hb _

theorem getAllBlocks_forward {li : List Item} {head : List (List Byte)} {data : List Block}
    (hok : getAllBlocks li head = .ok data) : data.length = head.length + 1 ∧ head.length < 256 ∧
      Forward head.length data := by
  obtain ⟨block, blocks, hblock, hblocks, hnet⟩ := getAllBlocks_net hok
  have hlen : (head.zip blocks).length = head.length := by
    rw [List.length_zip, fillBlocks_length hblocks, Nat.min_self]
  have hforward := hnet.forward (getBinary_plain plain_zeroBlock hblock) fun q hq =>
    fillBlocks_plain hblocks q.2 (List.of_mem_zip hq).2
  rw [← hlen]
  exact ⟨hnet.length, hnet.small, hforward⟩

/-! ## One byte -/

section Forward

variable {m : Mem} {keymap k n : Nat} {data : List Block} (hforward : Forward k data) (hk : k < 256)
  (hlen : data.length = k + 1) (hload : Loaded m keymap (writeBinaryFile data))
include hforward hk hlen hload

/-- A byte leads to a later block or to the first one. -/
theorem kbdAddScancode_cases (hn : n ≤ k) (sc : Byte) :
    (∃ n', n < n' ∧ n' ≤ k ∧ (kbdAddScancode m (atBlock keymap n) sc).2 = atBlock keymap n') ∨
      (kbdAddScancode m (atBlock keymap n) sc).2 = kbdInit keymap := by
  obtain ⟨B, hB⟩ : ∃ B, data[n]? = some B := ⟨data[n], List.getElem?_eq_getElem (by omega)⟩
  cases hp : pending (B sc) with
  | true =>
    obtain ⟨n', h1, h2, href⟩ := hforward n B sc hB hp
    refine .inl ⟨n', h1, h2, ?_⟩
    rw [kbdAddScancode_reference hload hB (by omega) href]
  | false =>
    right
    have hflag : (B sc).2 &&& kbdFlagMaskPendMore = 0 := by
      rw [show kbdFlagMaskPendMore = 0x80 by decide]
      simpa [pending] using hp
    rw [kbdAddScancode_key hload hB hflag]

/-- After the bytes that are left at most, the first block comes again. -/
theorem feed_resyncs : ∀ {j n : Nat} {scs : List Byte}, n + j = k → j + 1 ≤ scs.length →
    ∃ d, 1 ≤ d ∧ d ≤ j + 1 ∧ (feed m (atBlock keymap n) (scs.take d)).2 = kbdInit keymap := by
  intro j
  induction j using Nat.strongRecOn with
  | ind j ih =>
    intro n scs hnj hscs
    cases scs with
    | nil => simp at hscs
    | cons sc scs =>
      rw [List.length_cons] at hscs
      rcases kbdAddScancode_cases hforward hk hlen hload (n := n) (by omega) sc with
        ⟨n', h1, h2, hstep⟩ | hstep
      · have hleft : k - n' + 1 ≤ scs.length := by omega
        obtain ⟨d, hd1, hd2, hfeed⟩ := ih (k - n') (by omega) (n := n') (by omega) hleft
        refine ⟨d + 1, by omega, by omega, ?_⟩
        rw [List.take_succ_cons, feed_cons_snd, hstep]
        exact hfeed
      · exact ⟨1, Nat.le_refl _, by omega, hstep⟩

theorem feed_atBlock (h0 : keymap < 2 ^ 32) : ∀ (scs : List Byte) {n : Nat}, n ≤ k →
    ∃ n', n' ≤ k ∧ (feed m (atBlock keymap n) scs).2 = atBlock keymap n' := by
  intro scs
  induction scs with
  | nil => intro n hn; exact ⟨n, hn, rfl⟩
  | cons sc scs ih =>
    intro n hn
    rw [feed_cons_snd]
    rcases kbdAddScancode_cases hforward hk hlen hload hn sc with ⟨n', _, h2, hstep⟩ | hstep
    · rw [hstep]
      exact ih h2
    · rw [hstep, kbdInit_eq h0]
      exact ih (Nat.zero_le k)

end Forward

/-! ## The generated image -/

/-- An address inside the image of `len` bytes at `keymap`. -/
def InImage (keymap len a : Nat) : Prop := ∃ i, i < len ∧ a = (keymap + i) % 2 ^ 32

/-- **The state machine stays in its image.** Whatever bytes it has been fed, `curr_map` points to one
of the blocks, so that both bytes it looks at next lie in the image; and of the next bytes, one more
than there are prefixes, one leads back to the first block. -/
theorem kbd_resyncs {rows : List Row} {head : List (List Byte)} {data : List Block}
    (hok : getAllBlocks (transformList rows) head = .ok data) {m : Mem} {keymap : Nat}
    (hk : keymap < 2 ^ 32) (hload : Loaded m keymap (writeBinaryFile data)) (scs : List Byte) :
    (∃ k, k ≤ head.length ∧
      (feed m (kbdInit keymap) scs).2 = ⟨keymap, (keymap + 512 * k) % 2 ^ 32⟩) ∧
    (∀ sc : Byte,
      InImage keymap (writeBinaryFile data).length
        (((feed m (kbdInit keymap) scs).2.currMap + 2 * sc.toNat) % 2 ^ 32) ∧
      InImage keymap (writeBinaryFile data).length
        (((feed m (kbdInit keymap) scs).2.currMap + 2 * sc.toNat + 1) % 2 ^ 32)) ∧
    ∀ more : List Byte, more.length = head.length + 1 → ∃ d, 1 ≤ d ∧ d ≤ head.length + 1 ∧
      (feed m (kbdInit keymap) (scs ++ more.take d)).2 = kbdInit keymap := by
  obtain ⟨hlen, hsmall, hforward⟩ := getAllBlocks_forward hok
  obtain ⟨n, hn, hfeed⟩ := feed_atBlock hforward hsmall hlen hload hk scs (Nat.zero_le _)
  rw [← kbdInit_eq hk] at hfeed
  refine ⟨⟨n, hn, hfeed⟩, fun sc => ?_, fun more hmore => ?_⟩
  · have hsc : sc.toNat < 256 := sc.isLt
    rw [hfeed, length_writeBinaryFile, hlen]
    refine ⟨⟨512 * n + 2 * sc.toNat, by omega, ?_⟩, ⟨512 * n + 2 * sc.toNat + 1, by omega, ?_⟩⟩
    · show ((keymap + 512 * n) % 2 ^ 32 + 2 * sc.toNat) % 2 ^ 32 = _
      omega
    · show ((keymap + 512 * n) % 2 ^ 32 + 2 * sc.toNat + 1) % 2 ^ 32 = _
      omega
  · have hleft : head.length - n + 1 ≤ more.length := by omega
    obtain ⟨d, hd1, hd2, hback⟩ := feed_resyncs hforward hsmall hlen hload (n := n) (by omega) hleft
    refine ⟨d, hd1, by omega, ?_⟩
    rw [feed_append, hfeed]
    exact hback

/-- The table with the up arrow only, after the first byte of its break code. -/
theorem kbd_resyncs_arrowUp : ∃ data m,
    getAllBlocks (transformList [arrowUp]) shippedHead = .ok data ∧
    Loaded m 0x100000 (writeBinaryFile data) ∧
    ∀ more : List Byte, more.length = 4 → ∃ d, 1 ≤ d ∧ d ≤ 4 ∧
      (feed m (kbdInit 0x100000) ([0xE0] ++ more.take d)).2 = kbdInit 0x100000 := by
  obtain ⟨data, hok⟩ := getAllBlocks_arrowUp
  obtain ⟨hlen, hsmall, _⟩ := getAllBlocks_forward hok
  have hfits : data.length ≤ 256 := by omega
  obtain ⟨m, hload⟩ := exists_loaded hfits
  exact ⟨data, m, hok, hload, (kbd_resyncs hok (by decide) hload [0xE0]).2.2⟩

end Kbd
end Frod
