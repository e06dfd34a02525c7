import Mathlib.Logic.Function.Basic
import Frod.Lib.Machine
import Frod.Layout

/-!
# Frod.Dllist.Model

The linked list of `sys/dllist.c`.

Nodes are objects by address, and whatever an address holds can be read as a node: `dllist_remove`
does so with the caller's data. Addresses that `heap_malloc` returns and what `heap_free` does are
inputs of the calls. Comparison functions get their two pointers and may read memory.

`Store` adds to the list what its callers know: the elements they stored and the nodes in use.
-/

namespace Frod
namespace Dllist

/-- `dllist_element`. -/
structure Element where
  element : Word
  prev : Word
  next : Word

abbrev Nodes := Word → Element

/-- `dllist_lessthan`. -/
abbrev Lessthan := Nodes → Word → Word → Int

/-- `dllist_head`, with the memory its nodes are in. -/
structure Head where
  lessthan : Lessthan
  lessthanFind : Lessthan
  elem : Word
  elements : Word
  nodes : Nodes

/-- `dllist_init`, where the node is `n`. -/
def dllistInit (m : Nodes) (n el : Word) (f1 f2 : Lessthan) : Head :=
  let m := Function.update m n { m n with element := el }
  let m := Function.update m n { m n with prev := n }
  let m := Function.update m n { m n with next := n }
  ⟨f1, f2, n, if el = 0 then 0 else 1, m⟩

/-- `dllist_insert_location`, where the new node is `n`. -/
def dllistInsertLocation (m : Nodes) (n bef el : Word) : Nodes :=
  let m := Function.update m n { m n with element := el }
  let m := Function.update m n { m n with next := (m bef).next }
  let m := Function.update m bef { m bef with next := n }
  Function.update m n { m n with prev := bef }

/-- The loop of `dllist_insert` from `curr` on. -/
def insertLoop (l : Head) (n el : Word) : Nat → Word → Except Stop Head
  | 0, _ => .error .diverges
  | fuel + 1, curr =>
    if l.lessthan l.nodes el (l.nodes curr).element > 0 then
      let prev := (l.nodes curr).prev
      let nodes := dllistInsertLocation l.nodes n prev el
      -- the new node stands before the first one, but it is not made the first
      if l.elem = curr then .ok { l with nodes := nodes, elem := prev }
      else .ok { l with nodes := nodes }
    else
      let curr := (l.nodes curr).next
      if l.elem ≠ curr then insertLoop l n el fuel curr
      else .ok { l with nodes := dllistInsertLocation l.nodes n (l.nodes curr).prev el }

/-- `dllist_insert`. -/
def dllistInsert (fuel : Nat) (l : Head) (n el : Word) : Except Stop Head :=
  let l := { l with elements := l.elements + 1 }
  if l.elem = 0 then
    let nodes := Function.update l.nodes n { l.nodes n with element := el }
    .ok { l with elem := n, nodes := nodes }
  else insertLoop l n el fuel l.elem

/-- `dllist_insert_end`. -/
def dllistInsertEnd (l : Head) (n el : Word) : Head :=
  let m := Function.update l.nodes n { l.nodes n with element := el }
  let l := { l with nodes := m, elements := l.elements + 1 }
  if l.elem = 0 then
    -- `l->elem` is the null pointer here
    { l with nodes := Function.update m l.elem { m l.elem with element := el } }
  else
    let curr := (m l.elem).prev
    let m := Function.update m n { m n with next := (m curr).next }
    { l with nodes := Function.update m curr { m curr with next := n } }

/-- The loop of `dllist_find` from `curr` on. -/
def findLoop (l : Head) (val : Word) : Nat → Word → Except Stop Word
  | 0, _ => .error .diverges
  | fuel + 1, curr =>
    let cmp := l.lessthanFind l.nodes (l.nodes curr).element val
    if cmp = 0 then .ok (l.nodes curr).element
    else if cmp ≤ 0 then findLoop l val fuel (l.nodes curr).next
    else .ok 0

/-- `dllist_find`: the caller's data, not the node. -/
def dllistFind (fuel : Nat) (l : Head) (val : Word) : Except Stop Word :=
  if l.elem = 0 then .ok 0 else findLoop l val fuel l.elem

/-- `dllist_remove`: it takes what `dllist_find` returns for a node. The pointer it took, the value
it returns and the list after it. -/
def dllistRemove (fuel : Nat) (l : Head) (val : Word) (freed : Except Stop Unit) :
    Except Stop (Word × Word × Head) :=
  match dllistFind fuel l val with
  | .error e => .error e
  | .ok elem =>
    if elem = 0 then .ok (0, 0, l)
    else
      let e := l.nodes elem
      let m := Function.update l.nodes e.prev { l.nodes e.prev with next := e.next }
      let ret := (m elem).element
      let l := { l with nodes := m, elem := if l.elem = elem then 0 else l.elem }
      match freed with
      | .error e => .error e
      | .ok () => .ok (elem, ret, l)

/-! ## Runs -/

inductive Op where
  | insert (n el : Word)
  | insertEnd (n el : Word)
  | remove (val : Word) (freed : Except Stop Unit)

def Op.isRemove : Op → Prop
  | .remove _ _ => True
  | _ => False

/-- A list, the elements its callers stored in it and have not removed, and its nodes. -/
structure Store where
  list : Head
  stored : List Word
  live : List Word

def init (m : Nodes) (n el : Word) (f1 f2 : Lessthan) : Store :=
  ⟨dllistInit m n el f1 f2, [el], [n]⟩

def step (fuel : Nat) (s : Store) : Op → Except Stop (Word × Store)
  | .insert n el =>
    match dllistInsert fuel s.list n el with
    | .error e => .error e
    | .ok l => .ok (0, ⟨l, el :: s.stored, n :: s.live⟩)
  | .insertEnd n el => .ok (0, ⟨dllistInsertEnd s.list n el, el :: s.stored, n :: s.live⟩)
  | .remove val freed =>
    match dllistRemove fuel s.list val freed with
    | .error e => .error e
    | .ok (elem, ret, l) => .ok (ret, ⟨l, s.stored.erase elem, s.live.erase elem⟩)

/-- New nodes come from `heap_malloc`, and keys to remove are present. -/
def Ready (s : Store) : Op → Prop
  | .insert n _ => n ≠ 0 ∧ n ∉ s.live
  | .insertEnd n _ => n ≠ 0 ∧ n ∉ s.live
  | .remove val _ => ∃ el ∈ s.stored, s.list.lessthanFind s.list.nodes el val = 0

end Dllist
end Frod
