import BoundaryTag.Region

namespace BoundaryTag

inductive HeapError
  | region (error : RegionError)
  | invalidChunk (chunk : Nat)
  | alreadyInitialized
  | tooLarge (count : Nat)
  deriving DecidableEq

namespace HeapError

def message : HeapError → String
  | region error => error.message
  | invalidChunk chunk => s!"chunk size {chunk} must be a multiple of 8 and at least 16 bytes"
  | alreadyInitialized => "heap is already initialized"
  | tooLarge count => s!"request of {count} bytes exceeds the largest representable block"

def text : HeapError → String
  | region error => Text.wrap "Region" error.text
  | invalidChunk chunk => Text.wrap "InvalidChunkSize" (toString chunk)
  | alreadyInitialized => "AlreadyInitialized"
  | tooLarge count => Text.wrap "TooLarge" (toString count)

end HeapError

end BoundaryTag
