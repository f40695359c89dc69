import BoundaryTag.Fit
import BoundaryTag.Growth
import BoundaryTag.Payload

namespace BoundaryTag.Machine

variable {σ : Type} [Host σ]

/-- Allocates `wanted` of the `size` bytes at `bp`.  A remainder that can stand as a block stays
free; it is followed by an allocated block, so it has nothing to merge with. -/
def splitAllocated (bp size wanted : Nat) : ActionOn σ Unit := do
  let remainder ← Offset.sub size wanted
  if minBlock ≤ remainder then
    setBlock bp (← Tag.make wanted true)
    let rest ← Offset.add bp wanted
    setBlock rest (← Tag.make remainder false)
    indexInsert rest
    note (.split bp wanted remainder)
  else
    setBlock bp (← Tag.make size true)

def place (bp wanted : Nat) : ActionOn σ Unit := do
  let size ← observe (·.blockSize bp)
  requires (wanted ≤ size) .assertion
  indexRemove bp
  splitAllocated bp size wanted
  if (← current).heap.strategy = .nextFit then
    let next ← observe (·.nextBlock bp)
    moveCursor fun _ => next

def acquire (wanted : Nat) : ActionOn σ (Except HeapError Nat) := do
  match ← findFit wanted with
  | some bp => return .ok bp
  | none => extend (max wanted (← current).heap.config.chunk / wordSize)

/-- Allocates a block with at least `count` usable bytes.  No block serves a request of zero bytes,
one that no tag can describe, or one for which the region cannot grow. -/
def allocate (count : Nat) : ActionOn σ (Option Payload) := do
  observe (·.requireInitialized)
  if count = 0 then return none
  match adjustedSize count with
  | none =>
    note (.requestTooLarge count)
    return none
  | some wanted =>
    match ← acquire wanted with
    | .error error =>
      note (.allocationFailed count error)
      return none
    | .ok bp =>
      place bp wanted
      note (.allocated count wanted bp)
      return some ⟨bp⟩

def release (p : Payload) : ActionOn σ Unit := do
  observe (·.requireInitialized)
  let tag ← observe (·.allocatedTag p.offset .release)
  setBlock p.offset (← Tag.make tag.size false)
  let merged ← coalesce p.offset
  note (.released p.offset tag.size merged)

end BoundaryTag.Machine
