import BoundaryTag.Tag

namespace BoundaryTag

inductive ListOrder
  | lifo
  | addressOrdered
  deriving DecidableEq

def ListOrder.text : ListOrder → String
  | lifo => "Lifo"
  | addressOrdered => "AddressOrdered"

/-- Which free block serves a request.  The first two walk all blocks, resuming at the last
placement or starting over; the third walks a list that is threaded through the free blocks. -/
inductive Strategy
  | nextFit
  | firstFit
  | explicitList (order : ListOrder)
  deriving DecidableEq

namespace Strategy

def usesList : Strategy → Bool
  | explicitList _ => true
  | _ => false

def text : Strategy → String
  | nextFit => "NextFit"
  | firstFit => "FirstFit"
  | explicitList order => Text.wrap "ExplicitList" order.text

end Strategy

structure Config where
  chunk : Nat := 256
  strategy : Strategy := .explicitList .lifo
  inPlaceResize : Bool := true
  deriving DecidableEq

namespace Config

def isValid (config : Config) : Bool :=
  minBlock ≤ config.chunk && config.chunk ≤ maxBlock && isAligned config.chunk

def text (config : Config) : String :=
  Text.record "HeapConfig"
    [("chunk_size", toString config.chunk), ("strategy", config.strategy.text),
      ("in_place_resize", Text.ofBool config.inPlaceResize)]

end Config

end BoundaryTag
