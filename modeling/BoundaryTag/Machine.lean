import BoundaryTag.Event
import BoundaryTag.Heap

/-! Actions: what changes a heap.  An action sees the heap, the segment that its region may share
with others, and the log.  A fault ends it and keeps the state that it had reached. -/

namespace BoundaryTag

inductive Store
  | padding
  | tag (offset : Nat) (tag : Tag)
  | link (offset : Nat) (target : Option Nat)
  | data (start : Nat) (bytes : ByteArray)
  | copy (source count target : Nat)

def Store.apply (r : Region) : Store → Region
  | padding => r.setWord 0 0
  | tag offset t => r.setWord offset t.pack
  | link offset target => r.setWord offset (Links.encode target)
  | data start bytes => r.write start bytes
  | copy source count target => r.copyWithin source count target

structure Machine where
  heap : Heap
  segment : Segment
  log : Array Event

/-- A state around a machine.  It is told of every store, and keeps of it what it wants to. -/
class Host (σ : Type) where
  machine : σ → Machine
  update : (Machine → Machine) → σ → σ
  hook : Store → σ → σ

instance : Host Machine := ⟨id, id, fun _ => id⟩

abbrev ActionOn (σ : Type) := EStateM Fault σ

abbrev Action := ActionOn Machine

namespace Machine

section host

variable {σ : Type}

def lift (result : Except Fault α) : ActionOn σ α :=
  match result with
  | .ok a => pure a
  | .error fault => throw fault

instance : MonadLift (Except Fault) (ActionOn σ) := ⟨lift⟩

variable [Host σ]

def current : ActionOn σ Machine := return Host.machine (← get)

@[inline] def update (change : Machine → Machine) : ActionOn σ Unit := modify (Host.update change)

def observe (read : Heap → Except Fault α) : ActionOn σ α := do
  lift (read (← current).heap)

@[inline] def edit (change : Heap → Heap) : ActionOn σ Unit :=
  update fun m => { m with heap := change m.heap }

def note (event : Event) : ActionOn σ Unit :=
  update fun m => { m with log := m.log.push event }

def store (s : Store) : ActionOn σ Unit := do
  edit fun h => { h with region := s.apply h.region }
  modify (Host.hook s)

def put (offset : Nat) (s : Store) : ActionOn σ Unit := do
  observe (·.locate offset)
  store s

def putTag (offset : Nat) (tag : Tag) : ActionOn σ Unit := put offset (.tag offset tag)

def putLink (offset : Nat) (target : Option Nat) : ActionOn σ Unit :=
  put offset (.link offset target)

def setBlock (bp : Nat) (tag : Tag) : ActionOn σ Unit := do
  putTag (← Heap.headerOf bp) tag
  putTag (← Heap.footerOf bp tag.size) tag

def setNextLink (bp : Nat) (next : Option Nat) : ActionOn σ Unit := do
  putLink (← Offset.add bp Links.nextOffset) next

def setPrevLink (bp : Nat) (prev : Option Nat) : ActionOn σ Unit := do
  putLink (← Offset.add bp Links.prevOffset) prev

def moveCursor (target : Nat → Nat) : ActionOn σ Unit :=
  edit fun h => if h.strategy = .nextFit then { h with cursor := target h.cursor } else h

def growRegion (extra : Nat) : ActionOn σ (Except RegionError Nat) := do
  let m ← current
  let (result, segment) := m.heap.region.attempt extra m.segment
  update ({ · with segment })
  match result with
  | .error error => return .error error
  | .ok () =>
    edit fun h => { h with region := h.region.extended extra segment }
    return .ok m.heap.size

end host

@[simp] theorem lift_ok (a : α) (m : Machine) : lift (.ok a) m = .ok a m := rfl

@[simp] theorem lift_error (fault : Fault) (m : Machine) :
    (lift (.error fault) : Action α) m = .error fault m := rfl

theorem observe_eq (read : Heap → Except Fault α) (m : Machine) :
    observe read m = lift (read m.heap) m := rfl

@[simp] theorem edit_eq (change : Heap → Heap) (m : Machine) :
    edit change m = .ok () { m with heap := change m.heap } := rfl

@[simp] theorem store_eq (s : Store) (m : Machine) :
    store s m = .ok () { m with heap := { m.heap with region := s.apply m.heap.region } } := rfl

@[simp] theorem note_eq (event : Event) (m : Machine) :
    note event m = .ok () { m with log := m.log.push event } := rfl

theorem bind_current (next : Machine → Action α) (m : Machine) :
    (current >>= next) m = next m m := rfl

theorem bind_of_ok {action : EStateM ε σ α} {next : α → EStateM ε σ β} {m n : σ} {a : α}
    (ran : action m = .ok a n) : (action >>= next) m = next a n := by
  simp [bind, EStateM.bind, ran]

theorem bind_of_error {action : EStateM ε σ α} {next : α → EStateM ε σ β} {m n : σ} {error : ε}
    (failed : action m = .error error n) : (action >>= next) m = .error error n := by
  simp [bind, EStateM.bind, failed]

theorem put_of_locate {m : Machine} {offset : Nat} (located : m.heap.locate offset = .ok ())
    (s : Store) : put offset s m =
      .ok () { m with heap := { m.heap with region := s.apply m.heap.region } } := by
  have seen : observe (·.locate offset) m = .ok () m := by
    rw [observe_eq, located, lift_ok]
  rw [put, bind_of_ok seen, store_eq]

end Machine

end BoundaryTag
