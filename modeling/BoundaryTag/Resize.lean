import BoundaryTag.Allocation

namespace BoundaryTag.Machine

variable {σ : Type} [Host σ]

def shrink (bp size wanted : Nat) : ActionOn σ Unit := do
  let remainder ← Offset.sub size wanted
  if minBlock ≤ remainder then
    setBlock bp (← Tag.make wanted true)
    let rest ← Offset.add bp wanted
    setBlock rest (← Tag.make remainder false)
    let _ ← coalesce rest

def absorbNext (bp size wanted : Nat) : ActionOn σ Bool := do
  let next ← observe (·.nextBlock bp)
  let after ← observe (·.tag next)
  if after.allocated then return false
  let total ← Offset.add size after.size
  if total < wanted then return false
  indexRemove next
  splitAllocated bp total wanted
  let stop ← observe (·.nextBlock bp)
  moveCursor fun cursor => if bp < cursor ∧ cursor < stop then stop else cursor
  return true

def resizeInPlace (bp size wanted : Nat) : ActionOn σ Bool := do
  if wanted ≤ size then
    shrink bp size wanted
    return true
  else absorbNext bp size wanted

def copyBytes (source count target : Nat) : ActionOn σ Unit := do
  let sourceStop ← Offset.add source count
  let top := (← current).heap.size
  requires (sourceStop ≤ top && target + count ≤ top) .range
  store (.copy source count target)

def resizeByCopy (p : Payload) (old : Tag) (count : Nat) : ActionOn σ (Option Payload) := do
  match ← allocate count with
  | none => return none
  | some target =>
    let capacity ← Offset.sub old.size tagBytes
    copyBytes p.offset (min capacity count) target.offset
    release p
    note (.resizedByCopy p.offset target.offset count)
    return some target

/-- Resizes a block and keeps its bytes, as far as both sizes reach.  Without a block this
allocates, and down to zero bytes it releases. -/
def resize (p : Option Payload) (count : Nat) : ActionOn σ (Option Payload) := do
  observe (·.requireInitialized)
  match p, count with
  | none, count => allocate count
  | some p, 0 =>
    release p
    return none
  | some p, count =>
    match adjustedSize count with
    | none =>
      note (.resizeTooLarge count)
      return none
    | some wanted =>
      let tag ← observe (·.allocatedTag p.offset .resize)
      if (← current).heap.config.inPlaceResize then
        if ← resizeInPlace p.offset tag.size wanted then
          note (.resizedInPlace p.offset count)
          return some p
      resizeByCopy p tag count

end BoundaryTag.Machine
