import Mathlib.Data.List.Iterate
import Mathlib.Data.Finset.Card
import Frod.Dllist.Model

/-!
# Frod.Dllist.Ring

When the nodes of a list form a ring. `insert_not_ring` and `insertEnd_not_ring` say that from a
ring of any length, an insertion leads to nodes that form none: the node after the new one keeps its
old `prev`. So `keepsRing_iff`: the lists of a run are rings exactly when the run inserts nothing.
-/

namespace Frod
namespace Dllist

/-- Following `next` once. -/
def nextOf (m : Nodes) (a : Word) : Word := (m a).next

/-- The nodes `ns` are the ring of `s`, in the order of `next` from `l->elem` on. -/
structure RingOf (s : Store) (ns : List Word) : Prop where
  walk : ns = List.iterate (nextOf s.list.nodes) s.list.elem ns.length
  back : (nextOf s.list.nodes)^[ns.length] s.list.elem = s.list.elem
  nodup : ns.Nodup
  nonNull : 0 ∉ ns
  stored : (ns.map fun n => (s.list.nodes n).element).Perm s.stored
  next_prev : ∀ n ∈ ns, (s.list.nodes (s.list.nodes n).next).prev = n
  prev_next : ∀ n ∈ ns, (s.list.nodes (s.list.nodes n).prev).next = n
  count : s.list.elements.toNat = ns.length

/-- A list that stores something is a ring. -/
def KeepsRing (s : Store) : Prop := s.stored ≠ [] → ∃ ns, RingOf s ns

theorem iterate_closed {f : Word → Word} {P : Word → Prop} (hstep : ∀ a, P a → P (f a)) :
    ∀ (k : Nat) {a : Word}, P a → ∀ x ∈ List.iterate f a k, P x := by
  intro k
  induction k with
  | zero => intro a _ x hx; cases hx
  | succ k ih =>
    intro a ha x hx
    rcases List.mem_cons.mp hx with rfl | hx
    · exact ha
    · exact ih (hstep a ha) x hx

section Ring

variable {s s' : Store} {ns : List Word}

theorem RingOf.length_stored (h : RingOf s ns) : ns.length = s.stored.length := by
  rw [← h.stored.length_eq, List.length_map]

theorem RingOf.elem_mem (h : RingOf s ns) (hne : ns ≠ []) : s.list.elem ∈ ns := by
  rw [h.walk]
  cases hl : ns.length with
  | zero => exact absurd (List.length_eq_zero_iff.mp hl) hne
  | succ k => exact List.mem_cons_self

/-- A ring is closed under `next`: after its last node comes `l->elem`. -/
theorem RingOf.next_mem (h : RingOf s ns) {n : Word} (hn : n ∈ ns) : (s.list.nodes n).next ∈ ns := by
  have hne : ns ≠ [] := List.ne_nil_of_mem hn
  rw [h.walk] at hn
  obtain ⟨k, hk, rfl⟩ := List.mem_iterate.mp hn
  have hsucc : (s.list.nodes ((nextOf s.list.nodes)^[k] s.list.elem)).next =
      (nextOf s.list.nodes)^[k + 1] s.list.elem := by
    rw [Function.iterate_succ_apply', nextOf]
  rw [hsucc]
  by_cases hlast : k + 1 = ns.length
  · rw [hlast, h.back]
    exact h.elem_mem hne
  · rw [h.walk]
    exact List.mem_iterate.mpr ⟨k + 1, by omega, rfl⟩

/-- It is closed under `prev` too: the nodes that `next` leads to are all of them. -/
theorem RingOf.prev_mem (h : RingOf s ns) {n : Word} (hn : n ∈ ns) : (s.list.nodes n).prev ∈ ns := by
  have hinj : Set.InjOn (fun n => (s.list.nodes n).next) ns.toFinset := by
    intro a ha b hb hab
    rw [← h.next_prev a (List.mem_toFinset.mp ha), ← h.next_prev b (List.mem_toFinset.mp hb)]
    exact congrArg (fun x => (s.list.nodes x).prev) hab
  obtain ⟨b, hb, hbn⟩ := Finset.surjOn_of_injOn_of_card_le (fun n => (s.list.nodes n).next)
    (fun a ha => List.mem_toFinset.mpr (h.next_mem (List.mem_toFinset.mp ha))) hinj le_rfl
    (List.mem_toFinset.mpr hn)
  have hprev : (s.list.nodes n).prev = b := by
    rw [← hbn]
    exact h.next_prev b (List.mem_toFinset.mp hb)
  rw [hprev]
  exact List.mem_toFinset.mp hb

/-- The node `n` is hung in after `bef`, and nothing else in the ring changes. -/
def hang (m : Nodes) (n bef : Word) (e : Element) : Nodes :=
  Function.update (Function.update m bef { m bef with next := n }) n e

/-- Nodes with one hung in are no ring: as many nodes as stored elements would include the new one,
and the node after that one points back to `bef`. -/
theorem RingOf.not_ring_of_hang (h : RingOf s ns) {n bef el : Word} {e : Element} (hfresh : n ∉ ns)
    (hbef : bef ∈ ns) (he : e.next = (s.list.nodes bef).next)
    (hnodes : s'.list.nodes = hang s.list.nodes n bef e) (helem : s'.list.elem ∈ ns)
    (hstored : s'.stored = el :: s.stored) : ¬ KeepsRing s' := by
  intro hkeeps
  obtain ⟨ns', h'⟩ := hkeeps (by rw [hstored]; exact List.cons_ne_nil _ _)
  have hne : ∀ a ∈ ns, a ≠ n := fun a ha hn => hfresh (hn ▸ ha)
  have hold : ∀ a ∈ ns, s'.list.nodes a = if a = bef then { s.list.nodes bef with next := n }
      else s.list.nodes a := by
    intro a ha
    rw [hnodes, hang, Function.update_of_ne (hne a ha), Function.update_apply]
  have hnew : s'.list.nodes n = e := by rw [hnodes, hang, Function.update_self]
  have hsub : ns'.toFinset ⊆ insert n ns.toFinset := by
    have hclosed : ∀ a, a ∈ n :: ns → nextOf s'.list.nodes a ∈ n :: ns := by
      intro a ha
      rw [nextOf]
      rcases List.mem_cons.mp ha with rfl | ha
      · rw [hnew, he]
        exact List.mem_cons_of_mem _ (h.next_mem hbef)
      · rw [hold a ha]
        split
        · exact List.mem_cons_self
        · exact List.mem_cons_of_mem _ (h.next_mem ha)
    intro x hx
    rw [List.mem_toFinset, h'.walk] at hx
    rw [← List.toFinset_cons, List.mem_toFinset]
    exact iterate_closed hclosed _ (List.mem_cons_of_mem n helem) x hx
  have hlen : ns'.length = ns.length + 1 := by
    rw [h'.length_stored, h.length_stored, hstored, List.length_cons]
  have hcard : (insert n ns.toFinset).card ≤ ns'.toFinset.card := by
    rw [Finset.card_insert_of_notMem (by rwa [List.mem_toFinset]),
      List.toFinset_card_of_nodup h.nodup, List.toFinset_card_of_nodup h'.nodup, hlen]
  have hn : n ∈ ns' := by
    rw [← List.mem_toFinset, Finset.eq_of_subset_of_card_le hsub hcard]
    exact Finset.mem_insert_self _ _
  have hback := h'.next_prev n hn
  have hprev := h.next_prev bef hbef
  rw [hnew, he, hold _ (h.next_mem hbef)] at hback
  split at hback
  · rename_i hself
    rw [hself] at hprev
    exact hne bef hbef (hprev.symm.trans hback)
  · exact hne bef hbef (hprev.symm.trans hback)

/-! ## The two insertions hang a node in -/

theorem insertLocation_eq_hang {m : Nodes} {n bef el : Word} (hn : bef ≠ n) :
    dllistInsertLocation m n bef el = hang m n bef ⟨el, bef, (m bef).next⟩ := by
  funext a
  by_cases ha : a = n
  · subst ha
    simp [dllistInsertLocation, hang, hn, Ne.symm hn]
  · by_cases hb : a = bef
    · subst hb
      simp [dllistInsertLocation, hang, ha]
    · simp [dllistInsertLocation, hang, ha, hb]

/-- Wherever its loop stops, `dllist_insert` hangs the node in after a node of the ring. -/
theorem RingOf.insertLoop_ok (h : RingOf s ns) {n el : Word} {l : Head}
    (hl : l.nodes = s.list.nodes) (helem : l.elem ∈ ns) :
    ∀ {fuel : Nat} {curr : Word} {l' : Head}, curr ∈ ns → insertLoop l n el fuel curr = .ok l' →
      l'.elem ∈ ns ∧ ∃ bef ∈ ns, l'.nodes = dllistInsertLocation s.list.nodes n bef el := by
  intro fuel
  induction fuel with
  | zero => intro curr l' _ hok; cases hok
  | succ fuel ih =>
    intro curr l' hcurr hok
    rw [insertLoop] at hok
    dsimp only at hok
    rw [hl] at hok
    split at hok
    · split at hok
      · cases hok
        exact ⟨h.prev_mem hcurr, _, h.prev_mem hcurr, rfl⟩
      · cases hok
        exact ⟨helem, _, h.prev_mem hcurr, rfl⟩
    · split at hok
      · exact ih (h.next_mem hcurr) hok
      · cases hok
        exact ⟨helem, _, h.prev_mem (h.next_mem hcurr), rfl⟩

variable {fuel : Nat} {n el o : Word}

theorem insert_not_ring (h : RingOf s ns) (hne : ns ≠ []) (hfresh : n ∉ ns)
    (hstep : step fuel s (.insert n el) = .ok (o, s')) : ¬ KeepsRing s' := by
  have helem := h.elem_mem hne
  have hnull : s.list.elem ≠ 0 := fun h0 => h.nonNull (h0 ▸ helem)
  rw [step, dllistInsert] at hstep
  dsimp only at hstep
  rw [if_neg hnull] at hstep
  split at hstep
  · cases hstep
  · rename_i l hl
    obtain ⟨_, rfl⟩ := Prod.mk.inj (Except.ok.inj hstep)
    obtain ⟨helem', bef, hbef, hnodes⟩ := h.insertLoop_ok (by rfl) (by exact helem) helem hl
    have hbn : bef ≠ n := fun hbn => hfresh (hbn ▸ hbef)
    rw [insertLocation_eq_hang hbn] at hnodes
    refine h.not_ring_of_hang hfresh hbef ?_ hnodes helem' rfl
    rfl

theorem insertEnd_not_ring (h : RingOf s ns) (hne : ns ≠ []) (hfresh : n ∉ ns)
    (hstep : step fuel s (.insertEnd n el) = .ok (o, s')) : ¬ KeepsRing s' := by
  have helem := h.elem_mem hne
  have hnull : s.list.elem ≠ 0 := fun h0 => h.nonNull (h0 ▸ helem)
  have hlast := h.prev_mem helem
  have hn : s.list.elem ≠ n := fun heq => hfresh (heq ▸ helem)
  have hln : (s.list.nodes s.list.elem).prev ≠ n := fun heq => hfresh (heq ▸ hlast)
  obtain ⟨_, rfl⟩ := Prod.mk.inj (Except.ok.inj hstep)
  have hnodes : (dllistInsertEnd s.list n el).nodes = hang s.list.nodes n
      (s.list.nodes s.list.elem).prev
      ⟨el, (s.list.nodes n).prev, (s.list.nodes (s.list.nodes s.list.elem).prev).next⟩ := by
    rw [dllistInsertEnd]
    dsimp only
    rw [if_neg hnull]
    funext a
    by_cases ha : a = n
    · subst ha
      simp [hang, hn, hln, Ne.symm hln]
    · by_cases hb : a = (s.list.nodes s.list.elem).prev
      · subst hb
        simp [hang, hn, hln]
      · simp [hang, hn, ha, hb]
  refine h.not_ring_of_hang hfresh hlast ?_ hnodes ?_ rfl
  · rfl
  · dsimp only
    rw [dllistInsertEnd]
    dsimp only
    rw [if_neg hnull]
    exact helem

end Ring

/-! ## Whole runs -/

section Run

variable {fuel : Nat} {m : Nodes} {n el : Word} {f1 f2 : Lessthan}

theorem init_ring (hn : n ≠ 0) (hel : el ≠ 0) : RingOf (init m n el f1 f2) [n] := by
  refine ⟨rfl, ?_, List.nodup_singleton n, ?_, ?_, ?_, ?_, ?_⟩
  · simp [nextOf, init, dllistInit]
  · simpa using Ne.symm hn
  · simp [init, dllistInit]
  · simp [init, dllistInit]
  · simp [init, dllistInit]
  · change (if el = 0 then (0 : Word) else 1).toNat = 1
    rw [if_neg hel]
    rfl

theorem init_remove {val o : Word} {freed : Except Stop Unit} {s : Store} (hn : n ≠ 0) (hel : el ≠ 0)
    (hready : Ready (init m n el f1 f2) (.remove val freed))
    (hstep : step fuel (init m n el f1 f2) (.remove val freed) = .ok (o, s)) :
    s.stored = [] ∧ s.list.elements = 1 := by
  have hval : ((init m n el f1 f2).list.nodes n).element = el := by simp [init, dllistInit]
  have hfind : dllistFind fuel (init m n el f1 f2).list val = .error .diverges ∨
      dllistFind fuel (init m n el f1 f2).list val = .ok el := by
    obtain ⟨e, he, hcmp⟩ := hready
    obtain rfl : e = el := List.mem_singleton.mp he
    have hnull : (init m n e f1 f2).list.elem ≠ 0 := hn
    rw [dllistFind, if_neg hnull]
    cases fuel with
    | zero => exact .inl rfl
    | succ fuel =>
      refine .inr ?_
      rw [findLoop]
      change (if (init m n e f1 f2).list.lessthanFind _ ((init m n e f1 f2).list.nodes n).element val = 0
        then _ else _) = _
      rw [hval, if_pos hcmp]
      exact congrArg Except.ok hval
  rw [step, dllistRemove] at hstep
  rcases hfind with hf | hf
  · rw [hf] at hstep
    cases hstep
  · rw [hf] at hstep
    dsimp only at hstep
    rw [if_neg hel] at hstep
    cases freed with
    | error e => cases hstep
    | ok u =>
      obtain ⟨_, rfl⟩ := Prod.mk.inj (Except.ok.inj hstep)
      refine ⟨?_, if_neg hel⟩
      change [el].erase el = []
      simp

theorem insertLoop_elements {l l' : Head} {n el : Word} : ∀ {fuel : Nat} {curr : Word},
    insertLoop l n el fuel curr = .ok l' → l'.elements = l.elements := by
  intro fuel
  induction fuel with
  | zero => intro curr h; cases h
  | succ fuel ih =>
    intro curr h
    rw [insertLoop] at h
    dsimp only at h
    split at h
    · split at h
      · cases h
        rfl
      · cases h
        rfl
    · split at h
      · exact ih h
      · cases h
        rfl

/-- An insertion counts up, whatever else it does. -/
theorem step_elements {s s' : Store} {op : Op} {o : Word} (hop : ¬ op.isRemove)
    (hstep : step fuel s op = .ok (o, s')) :
    s'.list.elements = s.list.elements + 1 ∧ ∃ e, s'.stored = e :: s.stored := by
  cases op with
  | remove val freed => exact absurd trivial hop
  | insert n el =>
    rw [step] at hstep
    split at hstep
    · cases hstep
    · rename_i l hl
      obtain ⟨_, rfl⟩ := Prod.mk.inj (Except.ok.inj hstep)
      refine ⟨?_, el, rfl⟩
      rw [dllistInsert] at hl
      dsimp only at hl ⊢
      split at hl
      · cases hl
        rfl
      · exact insertLoop_elements hl
  | insertEnd n el =>
    obtain ⟨_, rfl⟩ := Prod.mk.inj (Except.ok.inj hstep)
    refine ⟨?_, el, rfl⟩
    dsimp only
    rw [dllistInsertEnd]
    dsimp only
    split
    · rfl
    · rfl

/-- A list that counted one element too many is no ring. -/
theorem not_ring_of_elements {s : Store} {e : Word} (hstored : s.stored = [e])
    (hcount : s.list.elements = 1 + 1) : ¬ KeepsRing s := by
  intro hkeeps
  obtain ⟨ns, h⟩ := hkeeps (by rw [hstored]; exact List.cons_ne_nil _ _)
  have hlen := h.length_stored
  have hns := h.count
  rw [hcount, hlen, hstored] at hns
  have htwo : ((1 : Word) + 1).toNat = 2 := by decide
  rw [htwo, List.length_singleton] at hns
  omega

/-- The lists of a run are rings exactly when nothing is inserted after `dllist_init`. -/
theorem keepsRing_iff {ops : List Op} {os : List Word} {s : Store} (hn : n ≠ 0) (hel : el ≠ 0)
    (hready : Machine.Admissible Ready (step fuel) (init m n el f1 f2) ops)
    (hrun : Machine.runAll (step fuel) (init m n el f1 f2) ops = .ok (os, s)) :
    Machine.Always KeepsRing (step fuel) (init m n el f1 f2) ops ↔ ∀ op ∈ ops, op.isRemove := by
  have hring : RingOf (init m n el f1 f2) [n] := init_ring hn hel
  cases ops with
  | nil =>
    refine ⟨fun _ op hop => ?_, fun _ _ => ⟨_, hring⟩⟩
    cases hop
  | cons op ops =>
    obtain ⟨o, s₁, os', _, hstep, hrest⟩ := Machine.runAll_cons hrun
    by_cases hop : op.isRemove
    · cases op with
      | insert n' el' => exact absurd hop id
      | insertEnd n' el' => exact absurd hop id
      | remove val freed =>
        obtain ⟨hempty, hone⟩ := init_remove hn hel hready.1 hstep
        -- there is nothing left to remove, so a second call inserts
        cases ops with
        | nil =>
          refine ⟨fun _ op hop => ?_, fun _ => ⟨fun _ => ⟨_, hring⟩, fun o' s' hs' => ?_⟩⟩
          · rw [List.mem_singleton.mp hop]
            trivial
          · rw [hstep] at hs'
            cases hs'
            exact fun hne => absurd hempty hne
        | cons op₂ ops =>
          obtain ⟨o₂, s₂, os₂, _, hstep₂, _⟩ := Machine.runAll_cons hrest
          have hop₂ : ¬ op₂.isRemove := by
            intro hrem
            cases op₂ with
            | insert n' el' => exact hrem
            | insertEnd n' el' => exact hrem
            | remove val' freed' =>
              obtain ⟨e, he, _⟩ := (hready.2 _ _ hstep).1
              rw [hempty] at he
              cases he
          obtain ⟨hcount, e, hstored⟩ := step_elements hop₂ hstep₂
          rw [hempty] at hstored
          rw [hone] at hcount
          refine ⟨fun halways => ?_, fun hall => absurd (hall op₂ (by simp)) hop₂⟩
          exact absurd ((halways.2 _ _ hstep).2 _ _ hstep₂).head (not_ring_of_elements hstored hcount)
    · refine ⟨fun halways => ?_, fun hall => absurd (hall op (by simp)) hop⟩
      have hkeeps : KeepsRing s₁ := (halways.2 _ _ hstep).head
      cases op with
      | remove val freed => exact absurd trivial hop
      | insert n' el' => exact absurd hkeeps (insert_not_ring hring (by simp) hready.1.2 hstep)
      | insertEnd n' el' => exact absurd hkeeps (insertEnd_not_ring hring (by simp) hready.1.2 hstep)

end Run

/-- A list of one element, whose two comparisons compare the pointers. -/
def sample : Store :=
  init (fun _ => ⟨0, 0, 0⟩) 0x20000010 0x20000100 (fun _ a b => (b.toNat : Int) - a.toNat)
    (fun _ a b => (a.toNat : Int) - b.toNat)

theorem keepsRing_iff_remove :
    Machine.Always KeepsRing (step 1) sample [.remove 0x20000100 (.ok ())] := by
  obtain ⟨os, s, hrun⟩ : ∃ os s,
      Machine.runAll (step 1) sample [.remove 0x20000100 (.ok ())] = .ok (os, s) := ⟨_, _, rfl⟩
  have hready : Machine.Admissible Ready (step 1) sample [.remove 0x20000100 (.ok ())] :=
    ⟨⟨0x20000100, List.mem_singleton.mpr rfl, rfl⟩, fun _ _ _ => trivial⟩
  refine (keepsRing_iff (by decide) (by decide) hready hrun).mpr ?_
  intro op hop
  rw [List.mem_singleton.mp hop]
  trivial

/-- Inserting a second element: `prev` is not the inverse of `next` afterwards. -/
theorem not_keepsRing_insert : Machine.Admissible Ready (step 1) sample [.insert 0x20000040 0x20000200] ∧
    (∃ os s, Machine.runAll (step 1) sample [.insert 0x20000040 0x20000200] = .ok (os, s)) ∧
    ¬ Machine.Always KeepsRing (step 1) sample [.insert 0x20000040 0x20000200] := by
  have hfresh : (0x20000040 : Word) ∉ [(0x20000010 : Word)] := by decide
  refine ⟨⟨⟨by decide, hfresh⟩, fun _ _ _ => trivial⟩, ⟨_, _, rfl⟩, fun halways => ?_⟩
  obtain ⟨o, s, hstep⟩ : ∃ o s, step 1 sample (.insert 0x20000040 0x20000200) = .ok (o, s) :=
    ⟨_, _, rfl⟩
  exact insert_not_ring (init_ring (by decide) (by decide)) (List.cons_ne_nil _ _) hfresh hstep
    (halways.2 _ _ hstep).head

end Dllist
end Frod
