import BoundaryTag.Coalesce

namespace BoundaryTag.Machine

variable {σ : Type} [Host σ]

/-- Makes a free block of the `size` bytes at `bp`, which are new, and closes the heap behind it.
The block takes the place of the epilogue and merges with a free block below it. -/
def annex (bp size : Nat) : ActionOn σ Nat := do
  setBlock bp (← Tag.make size false)
  let top ← Offset.add bp size
  putTag (← Heap.headerOf top) .epilogue
  note (.extended size (← current).heap.size)
  coalesce bp

def extend (words : Nat) : ActionOn σ (Except HeapError Nat) := do
  let words ← Offset.add words (words % 2)
  let size := words * wordSize
  if maxBlock < size then return .error (.tooLarge (min size (Offset.limit - 1)))
  if Heap.maxRegion < (← Offset.add (← current).heap.size size) then return .error (.tooLarge size)
  match ← growRegion size with
  | .error error => return .error (.region error)
  | .ok bp => return .ok (← annex bp size)

def layOut : ActionOn σ Unit := do
  put 0 .padding
  setBlock Heap.prologue .prologue
  putTag (← Heap.headerOf Heap.firstBlock) .epilogue
  edit fun h => { h with cursor := Heap.prologue, initialized := true }

def init : ActionOn σ (Except HeapError Unit) := do
  let config := (← current).heap.config
  if (← current).heap.initialized then return .error .alreadyInitialized
  if !config.isValid then return .error (.invalidChunk config.chunk)
  match ← growRegion (4 * wordSize) with
  | .error error => return .error (.region error)
  | .ok base =>
    requires (base == 0) .regionInUse
    layOut
    match ← extend (config.chunk / wordSize) with
    | .error error => return .error error
    | .ok _ =>
      note (.initialized config.chunk config.strategy)
      return .ok ()

end BoundaryTag.Machine
