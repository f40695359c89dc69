import BoundaryTag.FreeIndex

namespace BoundaryTag.Machine

variable {σ : Type} [Host σ]

/-- Takes the free ones of the neighbours of a block out of the index.  Yields where the merged
block starts and how long it is. -/
def absorb (bp size next : Nat) (before after : Tag) : ActionOn σ (Nat × Nat) :=
  match before.allocated, after.allocated with
  | true, true => return (bp, size)
  | true, false => do
    indexRemove next
    return (bp, ← Offset.add size (← observe (·.blockSize next)))
  | false, true => do
    let prev ← observe (·.prevBlock bp)
    indexRemove prev
    return (prev, ← Offset.add size (← observe (·.blockSize prev)))
  | false, false => do
    let prev ← observe (·.prevBlock bp)
    indexRemove prev
    indexRemove next
    let both ← Offset.add (← observe (·.blockSize prev)) (← observe (·.blockSize next))
    return (prev, ← Offset.add size both)

/-- Merges the free block at `bp`, which is not indexed yet, with its free neighbours, and indexes
the result.  A cursor inside the merged block moves to its start. -/
def coalesce (bp : Nat) : ActionOn σ Nat := do
  let before ← observe (·.prevTag bp)
  let next ← observe (·.nextBlock bp)
  let after ← observe (·.tag next)
  let own ← observe (·.blockSize bp)
  let (start, size) ← absorb bp own next before after
  setBlock start (← Tag.make size false)
  indexInsert start
  let stop ← Offset.add start size
  moveCursor fun cursor => if start < cursor ∧ cursor < stop then start else cursor
  if size ≠ own then note (.coalesced start size)
  return start

end BoundaryTag.Machine
