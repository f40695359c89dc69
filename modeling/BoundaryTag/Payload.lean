import BoundaryTag.Machine

namespace BoundaryTag

/-- A claim to the block whose payload starts at `offset`. -/
structure Payload where
  offset : Nat
  deriving DecidableEq

namespace Heap

def payloadSize (h : Heap) (p : Payload) : Except Fault Nat := do
  Offset.sub (← h.allocatedTag p.offset .access).size tagBytes

def payloadRange (h : Heap) (p : Payload) : Except Fault Nat := do
  let count ← h.payloadSize p
  let stop ← Offset.add p.offset count
  requires (stop ≤ h.size) .range
  return count

def payload (h : Heap) (p : Payload) : Except Fault ByteArray := do
  return h.region.memory.slice p.offset (← h.payloadRange p)

end Heap

namespace Machine

variable {σ : Type} [Host σ]

def writePayload (p : Payload) (start : Nat) (data : ByteArray) : ActionOn σ Unit := do
  let count ← observe (·.payloadRange p)
  requires (start + data.size ≤ count) .range
  store (.data (p.offset + start) data)

end Machine

end BoundaryTag
