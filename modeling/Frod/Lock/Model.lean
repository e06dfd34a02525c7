import Mathlib.Algebra.BigOperators.Group.Finset.Basic
import Mathlib.Data.Fintype.Basic
import Frod.Layout
import Frod.Lib.Interleave

/-!
# Frod.Lock.Model

The spinlock of `sys/lock.c`, and processors that use several of them.

`alock` is the one atomic instruction. A processor that finds the lock taken has written 1 over 1
and tries again in its next turn. A processor is the list of the lock operations it still has to do,
with whatever else it does left out. `held` is a record of the calls of `spinlock_acquire` that have
returned and whose lock has not been released; the code keeps none. `pushcli` and `popcli` are
empty.
-/

namespace Frod
namespace Lock

/-- `lock_resource`. -/
inductive LockResource where
  | proc | vfs | ata | console | heap | unknown
  deriving DecidableEq

def LockResource.value : LockResource → Nat
  | .proc => 0
  | .vfs => 1
  | .ata => 2
  | .console => 3
  | .heap => 4
  | .unknown => 5

/-- `spinlock`, with the fields that are used. -/
structure Spinlock where
  id : LockResource
  locked : Word
  deriving DecidableEq

def initSpinlock (id : LockResource) : Spinlock := ⟨id, 0⟩

inductive Op (lock : Type) where
  | acquire (l : lock)
  | release (l : lock)
  deriving DecidableEq

structure State (cpu lock : Type) where
  locks : lock → Spinlock
  todo : cpu → List (Op lock)
  held : cpu → List lock

variable {cpu lock : Type} [DecidableEq cpu] [DecidableEq lock]

namespace State

/-- `alock`: the old value, and the lock with the new one. -/
def alock (s : State cpu lock) (l : lock) (nVal : Word) : Word × State cpu lock :=
  ((s.locks l).locked,
    { s with locks := Function.update s.locks l { s.locks l with locked := nVal } })

/-- The next operation is done. -/
def next (s : State cpu lock) (c : cpu) (todo : List (Op lock)) (held : List lock) : State cpu lock :=
  { s with todo := Function.update s.todo c todo, held := Function.update s.held c held }

/-- A turn of the loop of `spinlock_acquire`. -/
def spinlockAcquire (s : State cpu lock) (c : cpu) (l : lock) (rest : List (Op lock)) :
    State cpu lock :=
  let (ret, s) := s.alock l 1
  if ret ≠ 0 then s else s.next c rest (l :: s.held c)

def spinlockRelease (s : State cpu lock) (c : cpu) (l : lock) (rest : List (Op lock)) :
    State cpu lock :=
  let (_, s) := s.alock l 0
  s.next c rest ((s.held c).erase l)

/-- A turn of the processor `c`. -/
def step (c : cpu) (s : State cpu lock) : State cpu lock :=
  match s.todo c with
  | [] => s
  | .acquire l :: rest => s.spinlockAcquire c l rest
  | .release l :: rest => s.spinlockRelease c l rest

end State

/-- The processors before their first turn, the locks being initialised. -/
def start (id : lock → LockResource) (prog : cpu → List (Op lock)) : State cpu lock where
  locks l := initSpinlock (id l)
  todo := prog
  held _ := []

/-- A program that releases the locks it holds, and only these. -/
def Bracketed : List lock → List (Op lock) → Prop
  | _, [] => True
  | held, .acquire l :: p => Bracketed (l :: held) p
  | held, .release l :: p => l ∈ held ∧ Bracketed (held.erase l) p

/-- A program that takes its locks in the order of their ids and gives all of them back. -/
def Ordered (id : lock → LockResource) : List lock → List (Op lock) → Prop
  | held, [] => held = []
  | held, .acquire l :: p => (∀ h ∈ held, (id h).value < (id l).value) ∧ Ordered id (l :: held) p
  | held, .release l :: p => l ∈ held ∧ Ordered id (held.erase l) p

theorem Ordered.bracketed {id : lock → LockResource} : ∀ {p : List (Op lock)} {held : List lock},
    Ordered id held p → Bracketed held p := by
  intro p
  induction p with
  | nil => intro held _; trivial
  | cons o p ih =>
    intro held h
    cases o with
    | acquire l => exact ih h.2
    | release l => exact ⟨h.1, ih h.2⟩

end Lock
end Frod
