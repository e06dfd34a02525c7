import Frod.Str.Move

/-!
# Frod.Str.Copy

`strncpy` of `lib/string.c`, with the addresses it reads and writes.

The copy goes on to the terminator of the source or the end of the buffer, the rest of the buffer is
padded with 0, and the last byte is made 0 whatever it was. For `num = 0` the last byte is
`dst[num-1]` with `num - 1` in unsigned arithmetic, the byte in front of the buffer. A buffer that
begins inside the source's text is written before the text is read (`Copied`).
-/

namespace Frod
namespace Str

inductive Access where
  | read (a : Nat)
  | write (a : Nat)
  deriving DecidableEq

/-- Memory and the accesses to it, the last one first. -/
structure Traced where
  mem : Mem
  log : List Access

namespace Traced

def get (s : Traced) (a : Nat) : Byte × Traced :=
  (s.mem (a % 2 ^ 32), { s with log := .read (a % 2 ^ 32) :: s.log })

def put (s : Traced) (a : Nat) (v : Byte) : Traced :=
  ⟨Function.update s.mem (a % 2 ^ 32) v, .write (a % 2 ^ 32) :: s.log⟩

end Traced

/-- The copy loop of `strncpy` at index `i`, with `n` bytes left: the index it stops at. The source
byte is read for the test and again for the copy. -/
def strncpyLoop (dst src : Nat) : Nat → Nat → Traced → Nat × Traced
  | 0, i, s => (i, s)
  | n + 1, i, s =>
    let (c, s) := s.get (src + i)
    if c ≠ 0 then
      let (c, s) := s.get (src + i)
      strncpyLoop dst src n (i + 1) (s.put (dst + i) c)
    else (i, s)

/-- `while(i < num) dst[i++] = 0x00`, with `n` bytes left. -/
def padLoop (dst : Nat) : Nat → Nat → Traced → Traced
  | 0, _, s => s
  | n + 1, i, s => padLoop dst n (i + 1) (s.put (dst + i) 0)

def strncpy (s : Traced) (dst src num : Nat) : Traced :=
  if dst = 0 ∨ src = 0 then s
  else
    let (i, s) := strncpyLoop dst src num 0 s
    let s := padLoop dst (num - i) i s
    s.put (dst + (num + 2 ^ 32 - 1) % 2 ^ 32) 0

/-- The number of characters of the text at `src` from index `i` on, `n` at most. -/
def textFrom (m : Mem) (src : Nat) : Nat → Nat → Nat
  | 0, _ => 0
  | n + 1, i => if m ((src + i) % 2 ^ 32) = 0 then 0 else textFrom m src n (i + 1) + 1

/-- `strlen`, of a text that may go on behind the first `num` bytes. -/
def textLen (m : Mem) (src num : Nat) : Nat := textFrom m src num 0

/-- `strncpy` keeps to the source up to its terminator and to the buffer, and leaves the text in the
buffer, as far as it fits, followed by 0. -/
structure Copies (m : Mem) (dst src num : Nat) : Prop where
  reads : ∀ a, .read a ∈ (strncpy ⟨m, []⟩ dst src num).log →
    ∃ i < num, i ≤ textLen m src num ∧ a = (src + i) % 2 ^ 32
  writes : ∀ a, .write a ∈ (strncpy ⟨m, []⟩ dst src num).log → ∃ i < num, a = (dst + i) % 2 ^ 32
  text : ∀ i < num, (strncpy ⟨m, []⟩ dst src num).mem ((dst + i) % 2 ^ 32) =
    if i < min (textLen m src num) (num - 1) then m ((src + i) % 2 ^ 32) else 0
  outside : ∀ x, (∀ i < num, x ≠ (dst + i) % 2 ^ 32) →
    (strncpy ⟨m, []⟩ dst src num).mem x = m x

/-! ## The text -/

section Text

variable {m : Mem} {src : Nat}

theorem textFrom_le : ∀ n i, textFrom m src n i ≤ n := by
  intro n
  induction n with
  | zero => intro i; exact Nat.le_refl 0
  | succ n ih =>
    intro i
    rw [textFrom]
    split
    · exact Nat.zero_le _
    · exact Nat.succ_le_succ (ih (i + 1))

theorem textFrom_ne : ∀ {n i k : Nat}, k < textFrom m src n i → m ((src + (i + k)) % 2 ^ 32) ≠ 0 := by
  intro n
  induction n with
  | zero => intro i k hk; exact absurd hk (Nat.not_lt_zero k)
  | succ n ih =>
    intro i k hk
    rw [textFrom] at hk
    split at hk
    · exact absurd hk (Nat.not_lt_zero k)
    · rename_i hne
      cases k with
      | zero => exact hne
      | succ k =>
        rw [← Nat.succ_add_eq_add_succ]
        exact ih (Nat.lt_of_succ_lt_succ hk)

theorem textFrom_end : ∀ {n i : Nat}, textFrom m src n i < n →
    m ((src + (i + textFrom m src n i)) % 2 ^ 32) = 0 := by
  intro n
  induction n with
  | zero => intro i hlt; exact absurd hlt (Nat.not_lt_zero _)
  | succ n ih =>
    intro i hlt
    rw [textFrom] at hlt ⊢
    split
    · rename_i h0
      exact h0
    · rename_i hne
      rw [if_neg hne] at hlt
      rw [← Nat.succ_add_eq_add_succ]
      exact ih (Nat.lt_of_succ_lt_succ hlt)

/-- The characters of a text are not 0, and the byte behind them is. -/
theorem textLen_ne {num k : Nat} (hk : k < textLen m src num) : m ((src + k) % 2 ^ 32) ≠ 0 := by
  have h := textFrom_ne hk
  rwa [Nat.zero_add] at h

theorem textLen_end {num : Nat} (h : textLen m src num < num) :
    m ((src + textLen m src num) % 2 ^ 32) = 0 := by
  have hend := textFrom_end h
  rwa [Nat.zero_add] at hend

theorem textLen_le (num : Nat) : textLen m src num ≤ num := textFrom_le num 0

end Text

/-! ## The loops -/

section Loops

variable {m₀ : Mem} {dst src num : Nat}

def Traced.copied (s : Traced) (dst src i : Nat) : Traced :=
  ⟨Function.update s.mem ((dst + i) % 2 ^ 32) (s.mem ((src + i) % 2 ^ 32)),
    .write ((dst + i) % 2 ^ 32) :: .read ((src + i) % 2 ^ 32) :: .read ((src + i) % 2 ^ 32) :: s.log⟩

theorem strncpyLoop_succ (dst src n i : Nat) (s : Traced) : strncpyLoop dst src (n + 1) i s =
    if s.mem ((src + i) % 2 ^ 32) ≠ 0 then strncpyLoop dst src n (i + 1) (s.copied dst src i)
    else (i, ⟨s.mem, .read ((src + i) % 2 ^ 32) :: s.log⟩) := rfl

/-- What the copy loop leaves when it comes from `i` and stops at `e`. -/
structure CopyEnd (m₀ : Mem) (dst src num : Nat) (s s' : Traced) (i e : Nat) : Prop where
  ge : i ≤ e
  le : e ≤ num
  copied : Copied m₀ s'.mem dst src e
  ne : ∀ k, i ≤ k → k < e → m₀ ((src + k % dist src dst) % 2 ^ 32) ≠ 0
  stops : e < num → m₀ ((src + e % dist src dst) % 2 ^ 32) = 0
  reads : ∀ a, .read a ∈ s'.log → .read a ∈ s.log ∨ ∃ k < num, k ≤ e ∧ a = (src + k) % 2 ^ 32
  writes : ∀ a, .write a ∈ s'.log → .write a ∈ s.log ∨ ∃ k < num, a = (dst + k) % 2 ^ 32

theorem strncpyLoop_end (hsrc : src < 2 ^ 32) (hnum : num ≤ 2 ^ 32) : ∀ {n i : Nat} {s : Traced},
    Copied m₀ s.mem dst src i → i + n = num →
    CopyEnd m₀ dst src num s (strncpyLoop dst src n i s).2 i (strncpyLoop dst src n i s).1 := by
  intro n
  induction n with
  | zero =>
    intro i s h hi
    exact ⟨Nat.le_refl i, by simp [strncpyLoop]; omega, h, fun k h1 h2 => absurd h1 (Nat.not_le.mpr h2),
      fun hlt => absurd hlt (by simp [strncpyLoop]; omega), fun a ha => .inl ha, fun a ha => .inl ha⟩
  | succ n ih =>
    intro i s h hi
    have hread := h.read hsrc (show i < 2 ^ 32 by omega)
    rw [strncpyLoop_succ]
    split
    · rename_i hne
      have hstep : Copied m₀ (s.copied dst src i).mem dst src (i + 1) := h.step hsrc (by omega)
      obtain ⟨hge, hle, hcop, hnz, hstop, hreads, hwrites⟩ := ih hstep (by omega)
      refine ⟨by omega, hle, hcop, fun k h1 h2 => ?_, hstop, fun a ha => ?_, fun a ha => ?_⟩
      · rcases Nat.eq_or_lt_of_le h1 with rfl | h1
        · rw [← hread]
          exact hne
        · exact hnz k h1 h2
      · rcases hreads a ha with ha | ha
        · simp only [Traced.copied, List.mem_cons, reduceCtorEq, Access.read.injEq, false_or] at ha
          rcases ha with rfl | rfl | ha
          · exact .inr ⟨i, by omega, by omega, rfl⟩
          · exact .inr ⟨i, by omega, by omega, rfl⟩
          · exact .inl ha
        · exact .inr ha
      · rcases hwrites a ha with ha | ha
        · simp only [Traced.copied, List.mem_cons, reduceCtorEq, Access.write.injEq, false_or] at ha
          rcases ha with rfl | ha
          · exact .inr ⟨i, by omega, rfl⟩
          · exact .inl ha
        · exact .inr ha
    · rename_i heq
      refine ⟨Nat.le_refl i, by dsimp only; omega, h, fun k h1 h2 => absurd h1 (Nat.not_le.mpr h2),
        fun _ => ?_, fun a ha => ?_, fun a ha => ?_⟩
      · rw [← hread]
        exact not_not.mp heq
      · simp only [List.mem_cons, Access.read.injEq] at ha
        rcases ha with rfl | ha
        · exact .inr ⟨i, by omega, Nat.le_refl i, rfl⟩
        · exact .inl ha
      · simp only [List.mem_cons, reduceCtorEq, false_or] at ha
        exact .inl ha

/-- Where the copy loop stops: at the end of the text, unless the copy has overwritten it. -/
theorem CopyEnd.eq {s s' : Traced} {e : Nat} (h : CopyEnd m₀ dst src num s s' 0 e) :
    e = if 0 < dist src dst ∧ dist src dst ≤ textLen m₀ src num then num else textLen m₀ src num := by
  have hle : textLen m₀ src num ≤ num := textLen_le num
  split
  · rename_i hd
    have hmod : e % dist src dst < dist src dst := Nat.mod_lt _ hd.1
    have hstop := h.stops
    have hnz := textLen_ne (Nat.lt_of_lt_of_le hmod hd.2)
    have hle := h.le
    by_contra hlt
    exact hnz (hstop (by omega))
  · rename_i hd
    have hmod : ∀ k ≤ textLen m₀ src num, k % dist src dst = k :=
      fun k hk => mod_of_not_le fun hle => hd ⟨hle.1, hle.2.trans hk⟩
    rcases Nat.lt_trichotomy e (textLen m₀ src num) with hlt | heq | hgt
    · have hz := h.stops (Nat.lt_of_lt_of_le hlt hle)
      rw [hmod e (Nat.le_of_lt hlt)] at hz
      exact absurd hz (textLen_ne hlt)
    · exact heq
    · have hz := h.ne _ (Nat.zero_le _) hgt
      rw [hmod _ (Nat.le_refl _)] at hz
      exact absurd (textLen_end (Nat.lt_of_lt_of_le hgt h.le)) hz

theorem padLoop_outside {x : Nat} : ∀ {n i : Nat} {s : Traced},
    (∀ k, i ≤ k → k < i + n → x ≠ (dst + k) % 2 ^ 32) → (padLoop dst n i s).mem x = s.mem x := by
  intro n
  induction n with
  | zero => intro i s _; rfl
  | succ n ih =>
    intro i s h
    rw [padLoop, ih fun k h1 h2 => h k (by omega) (by omega), Traced.put]
    exact Function.update_of_ne (h i (Nat.le_refl i) (by omega)) _ _

theorem padLoop_inside : ∀ {n i k : Nat} {s : Traced}, i ≤ k → k < i + n → i + n ≤ 2 ^ 32 →
    (padLoop dst n i s).mem ((dst + k) % 2 ^ 32) = 0 := by
  intro n
  induction n with
  | zero => intro i k s h1 h2 _; omega
  | succ n ih =>
    intro i k s h1 h2 hn
    rw [padLoop]
    by_cases hk : k = i
    · subst hk
      rw [padLoop_outside fun j h1 h2 => by omega]
      exact Function.update_self _ _ _
    · exact ih (by omega) (by omega) (by omega)

theorem padLoop_log (dst : Nat) : ∀ {n i : Nat} {s : Traced} {e : Access},
    e ∈ (padLoop dst n i s).log →
      e ∈ s.log ∨ ∃ k < i + n, e = .write ((dst + k) % 2 ^ 32) := by
  intro n
  induction n with
  | zero => intro i s e h; exact .inl h
  | succ n ih =>
    intro i s e h
    rcases ih h with h | ⟨k, hk, rfl⟩
    · simp only [Traced.put, List.mem_cons] at h
      rcases h with rfl | h
      · exact .inr ⟨i, by omega, rfl⟩
      · exact .inl h
    · exact .inr ⟨k, by omega, rfl⟩

end Loops

/-! ## `strncpy` -/

section Strncpy

variable {m : Mem} {dst src num : Nat}

/-- The index at which the copy of the text at `src` ends. -/
def copyStop (m : Mem) (dst src num : Nat) : Nat :=
  if 0 < dist src dst ∧ dist src dst ≤ textLen m src num then num else textLen m src num

/-- The parts of `strncpy`: copy, padding, and the last byte. -/
theorem strncpy_eq (hdst : dst ≠ 0) (hsrc : src ≠ 0) (hlt : src < 2 ^ 32) (hnum : num < 2 ^ 32) :
    ∃ s, CopyEnd m dst src num ⟨m, []⟩ s 0 (copyStop m dst src num) ∧
      strncpy ⟨m, []⟩ dst src num =
        (padLoop dst (num - copyStop m dst src num) (copyStop m dst src num) s).put
          (dst + (num + 2 ^ 32 - 1) % 2 ^ 32) 0 := by
  have hend := strncpyLoop_end hlt (Nat.le_of_lt hnum) (s := ⟨m, []⟩) (Copied.start m dst src)
    (Nat.zero_add num)
  have heq := hend.eq
  rw [← copyStop] at heq
  refine ⟨(strncpyLoop dst src num 0 ⟨m, []⟩).2, ?_, ?_⟩
  · rw [← heq]
    exact hend
  · rw [strncpy, if_neg (not_or.mpr ⟨hdst, hsrc⟩), ← heq]

variable (hdst : dst ≠ 0) (hsrc : src ≠ 0) (hlt : src < 2 ^ 32) (hnum : num < 2 ^ 32)
include hdst hsrc hlt hnum

/-- In a buffer that is not empty, the last byte is its own. -/
theorem strncpy_eq_of_pos (hpos : 0 < num) :
    ∃ s, CopyEnd m dst src num ⟨m, []⟩ s 0 (copyStop m dst src num) ∧
      copyStop m dst src num ≤ num ∧ strncpy ⟨m, []⟩ dst src num =
        (padLoop dst (num - copyStop m dst src num) (copyStop m dst src num) s).put
          (dst + (num - 1)) 0 := by
  obtain ⟨s, hs, heq⟩ := strncpy_eq (m := m) hdst hsrc hlt hnum
  have hlast : (num + 2 ^ 32 - 1) % 2 ^ 32 = num - 1 := by omega
  rw [hlast] at heq
  exact ⟨s, hs, hs.le, heq⟩

theorem strncpy_text (hpos : 0 < num) {i : Nat} (hi : i < num) :
    (strncpy ⟨m, []⟩ dst src num).mem ((dst + i) % 2 ^ 32) =
      if i < min (copyStop m dst src num) (num - 1) then m ((src + i % dist src dst) % 2 ^ 32) else 0 := by
  obtain ⟨s, hs, hle, heq⟩ := strncpy_eq_of_pos (m := m) hdst hsrc hlt hnum hpos
  rw [heq, Traced.put]
  dsimp only
  by_cases hi' : i = num - 1
  · rw [hi', Function.update_self, if_neg (by omega)]
  · have hne : (dst + i) % 2 ^ 32 ≠ (dst + (num - 1)) % 2 ^ 32 := by omega
    rw [Function.update_of_ne hne]
    by_cases hcut : i < copyStop m dst src num
    · rw [padLoop_outside fun k h1 h2 => by omega, hs.copied.copied i hcut, if_pos (by omega)]
    · rw [padLoop_inside (by omega) (by omega) (by omega), if_neg (by omega)]

theorem strncpy_writes (hpos : 0 < num) {a : Nat}
    (ha : .write a ∈ (strncpy ⟨m, []⟩ dst src num).log) : ∃ i < num, a = (dst + i) % 2 ^ 32 := by
  obtain ⟨s, hs, hle, heq⟩ := strncpy_eq_of_pos (m := m) hdst hsrc hlt hnum hpos
  rw [heq] at ha
  simp only [Traced.put, List.mem_cons, Access.write.injEq] at ha
  rcases ha with rfl | ha
  · exact ⟨num - 1, by omega, rfl⟩
  · rcases padLoop_log dst ha with ha | ⟨k, hk, hw⟩
    · rcases hs.writes a ha with ha | ha
      · cases ha
      · exact ha
    · cases hw
      exact ⟨k, by omega, rfl⟩

theorem strncpy_reads {a : Nat} (ha : .read a ∈ (strncpy ⟨m, []⟩ dst src num).log) :
    ∃ i < num, i ≤ copyStop m dst src num ∧ a = (src + i) % 2 ^ 32 := by
  obtain ⟨s, hs, heq⟩ := strncpy_eq (m := m) hdst hsrc hlt hnum
  rw [heq] at ha
  simp only [Traced.put, List.mem_cons, reduceCtorEq, false_or] at ha
  rcases padLoop_log dst ha with ha | ⟨k, hk, hw⟩
  · rcases hs.reads a ha with ha | ha
    · cases ha
    · exact ha
  · cases hw

theorem strncpy_outside (hpos : 0 < num) {x : Nat} (hx : ∀ i < num, x ≠ (dst + i) % 2 ^ 32) :
    (strncpy ⟨m, []⟩ dst src num).mem x = m x := by
  obtain ⟨s, hs, hle, heq⟩ := strncpy_eq_of_pos (m := m) hdst hsrc hlt hnum hpos
  rw [heq, Traced.put]
  dsimp only
  rw [Function.update_of_ne (hx (num - 1) (by omega)), padLoop_outside fun k h1 h2 => hx k (by omega)]
  exact hs.copied.outside x fun j hj => hx j (by omega)

theorem not_copies_zero (h0 : num = 0) : ¬ Copies m dst src num := by
  intro h
  obtain ⟨s, _, heq⟩ := strncpy_eq (m := m) hdst hsrc hlt hnum
  have hlog : .write ((dst + (num + 2 ^ 32 - 1) % 2 ^ 32) % 2 ^ 32) ∈
      (strncpy ⟨m, []⟩ dst src num).log := by
    rw [heq]
    exact List.mem_cons_self
  obtain ⟨i, hi, _⟩ := h.writes _ hlog
  omega

/-- `strncpy` keeps to its buffer and leaves the text in it exactly when the buffer has room for the
terminator, and does not begin inside the text above its start, or the part of the text that fits
fills the buffer and repeats itself at that distance. -/
theorem copies_iff : Copies m dst src num ↔ 0 < num ∧
    (dist src dst = 0 ∨ textLen m src num < dist src dst ∨
      num - 1 ≤ textLen m src num ∧ Repeats m src (num - 1) (dist src dst)) := by
  have hlen : textLen m src num ≤ num := textLen_le num
  by_cases h0 : num = 0
  · exact ⟨fun h => absurd h (not_copies_zero hdst hsrc hlt hnum h0), fun h => absurd h.1 (by omega)⟩
  have hpos : 0 < num := by omega
  by_cases hin : 0 < dist src dst ∧ dist src dst ≤ textLen m src num
  · -- the copy overwrites the text before it reads it, and goes on to the end of the buffer
    have hstop : copyStop m dst src num = num := if_pos hin
    have htext := fun i hi => strncpy_text (m := m) hdst hsrc hlt hnum hpos (i := i) hi
    rw [hstop, Nat.min_eq_right (Nat.sub_le num 1)] at htext
    constructor
    · intro h
      have hfill : num - 1 ≤ textLen m src num := by
        by_contra hshort
        have htail := h.text (textLen m src num) (by omega)
        rw [htext _ (by omega), if_pos (by omega), if_neg (by omega)] at htail
        exact textLen_ne (Nat.lt_of_lt_of_le (Nat.mod_lt _ hin.1) hin.2) htail
      refine ⟨hpos, .inr (.inr ⟨hfill, repeats_iff.mpr fun i hi => ?_⟩)⟩
      have hbyte := h.text i (by omega)
      rwa [htext i (by omega), if_pos hi, if_pos (by omega)] at hbyte
    · rintro ⟨_, hd | hd | ⟨hfill, hrep⟩⟩
      · omega
      · omega
      refine ⟨fun a ha => ?_, fun a ha => strncpy_writes hdst hsrc hlt hnum hpos ha, fun i hi => ?_,
        fun x hx => strncpy_outside hdst hsrc hlt hnum hpos hx⟩
      · obtain ⟨i, hi, _, rfl⟩ := strncpy_reads hdst hsrc hlt hnum ha
        exact ⟨i, hi, by omega, rfl⟩
      · rw [htext i hi, Nat.min_eq_right hfill]
        split
        · rename_i hlast
          exact repeats_iff.mp hrep i hlast
        · rfl
  · have hstop : copyStop m dst src num = textLen m src num := if_neg hin
    refine ⟨fun _ => ⟨hpos, by omega⟩, fun _ => ⟨fun a ha => ?_,
      fun a ha => strncpy_writes hdst hsrc hlt hnum hpos ha, fun i hi => ?_,
      fun x hx => strncpy_outside hdst hsrc hlt hnum hpos hx⟩⟩
    · rw [← hstop]
      exact strncpy_reads hdst hsrc hlt hnum ha
    · rw [strncpy_text hdst hsrc hlt hnum hpos hi, hstop]
      split
      · have hmod : i % dist src dst = i := mod_of_not_le (by omega)
        rw [hmod]
      · rfl

end Strncpy

/-- The text "AB" at 0x100. -/
def shortText : Mem := fun x =>
  if x = 0x100 then 0x41 else if x = 0x101 then 0x42 else if x < 0x100 then 0xFF else 0

theorem copies_iff_two : Copies shortText 0x200 0x100 2 := by
  refine (copies_iff (by decide) (by decide) (by decide) (by decide)).mpr ⟨by decide, .inr (.inl ?_)⟩
  decide

/-- A buffer of no bytes: the byte in front of it becomes 0. -/
theorem not_copies_empty : ¬ Copies shortText 0x80 0x100 0 ∧
    (strncpy ⟨shortText, []⟩ 0x80 0x100 0).mem 0x7F ≠ shortText 0x7F :=
  ⟨not_copies_zero (by decide) (by decide) (by decide) (by decide) rfl, by decide⟩

end Str
end Frod
