import BoundaryTag.Machine

namespace BoundaryTag

namespace Heap

def nodeAfter (h : Heap) : Option Nat → Except Fault (Option Nat)
  | some node => return (← h.links node).next
  | none => return h.freeHead

def lastBelow (h : Heap) (bp : Nat) (prev : Option Nat) :
    Nat → Option Nat → Except Fault (Option Nat)
  | _, none => return prev
  | 0, some _ => throw .endless
  | fuel + 1, some node => do
    if bp < node then return prev
    h.lastBelow bp (some node) fuel (← h.links node).next

def listFrom (h : Heap) : Nat → Option Nat → Except Fault (List Nat)
  | _, none => return []
  | 0, some _ => throw .endless
  | fuel + 1, some node => return node :: (← h.listFrom fuel (← h.links node).next)

/-- More nodes than a list in this heap can have without meeting one twice. -/
def listBound (h : Heap) : Nat := h.size + 1

def freeList (h : Heap) : Except Fault (List Nat) := h.listFrom h.listBound h.freeHead

end Heap

namespace Machine

variable {σ : Type} [Host σ]

def setAfter (x y : Option Nat) : ActionOn σ Unit :=
  match x with
  | some node => setNextLink node y
  | none => edit fun h => { h with freeHead := y }

def setBefore (y x : Option Nat) : ActionOn σ Unit :=
  match y with
  | some node => setPrevLink node x
  | none => return ()

def linkAfter (prev : Option Nat) (bp : Nat) : ActionOn σ Unit := do
  let next ← observe (·.nodeAfter prev)
  setPrevLink bp prev
  setNextLink bp next
  setAfter prev (some bp)
  setBefore next (some bp)

def indexInsert (bp : Nat) : ActionOn σ Unit := do
  requires (← observe (·.tag bp)).isFree .assertion
  edit fun h => { h with freeBlocks := h.freeBlocks + 1 }
  match (← current).heap.strategy with
  | .explicitList .lifo => linkAfter none bp
  | .explicitList .addressOrdered =>
    let prev ← observe fun h => h.lastBelow bp none h.listBound h.freeHead
    linkAfter prev bp
  | .nextFit | .firstFit => return ()

def unlink (bp : Nat) : ActionOn σ Unit := do
  let links ← observe (·.links bp)
  setAfter links.prev links.next
  setBefore links.next links.prev

def indexRemove (bp : Nat) : ActionOn σ Unit := do
  requires (← observe (·.tag bp)).isFree .assertion
  requires (0 < (← current).heap.freeBlocks) .assertion
  edit fun h => { h with freeBlocks := h.freeBlocks - 1 }
  if (← current).heap.strategy.usesList then unlink bp

end Machine

end BoundaryTag
