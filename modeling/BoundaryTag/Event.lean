import BoundaryTag.Config
import BoundaryTag.Error

namespace BoundaryTag

inductive Event
  | initialized (chunk : Nat) (strategy : Strategy)
  | extended (size top : Nat)
  | allocated (size adjusted payload : Nat)
  | released (payload size merged : Nat)
  | split (payload adjusted remainder : Nat)
  | coalesced (payload size : Nat)
  | resizedInPlace (payload size : Nat)
  | resizedByCopy (source target size : Nat)
  | requestTooLarge (size : Nat)
  | resizeTooLarge (size : Nat)
  | allocationFailed (size : Nat) (error : HeapError)
  deriving DecidableEq

namespace Event

inductive Level
  | trace
  | debug
  | warn
  deriving DecidableEq

def Level.name : Level → String
  | trace => "TRACE"
  | debug => "DEBUG"
  | warn => "WARN"

def level : Event → Level
  | initialized .. | extended .. => .debug
  | requestTooLarge _ | resizeTooLarge _ | allocationFailed .. => .warn
  | _ => .trace

def title : Event → String
  | initialized .. => "heap initialized"
  | extended .. => "heap extended"
  | allocated .. => "allocate"
  | released .. => "release"
  | split .. => "split"
  | coalesced .. => "coalesce"
  | resizedInPlace .. => "resize in place"
  | resizedByCopy .. => "resize by copy"
  | requestTooLarge _ => "allocation request too large"
  | resizeTooLarge _ => "resize request too large"
  | allocationFailed .. => "allocation failed"

def fields : Event → List (String × String)
  | initialized chunk strategy =>
    [("chunk_size", toString chunk), ("strategy", strategy.text)]
  | extended size top => [("size", toString size), ("top", toString top)]
  | allocated size adjusted payload =>
    [("size", toString size), ("asize", toString adjusted), ("payload", toString payload)]
  | released payload size merged =>
    [("payload", toString payload), ("size", toString size), ("merged", toString merged)]
  | split payload adjusted remainder =>
    [("payload", toString payload), ("asize", toString adjusted),
      ("remainder", toString remainder)]
  | coalesced payload size => [("payload", toString payload), ("size", toString size)]
  | resizedInPlace payload size => [("payload", toString payload), ("size", toString size)]
  | resizedByCopy source target size =>
    [("from", toString source), ("to", toString target), ("size", toString size)]
  | requestTooLarge size | resizeTooLarge size => [("size", toString size)]
  | allocationFailed size error => [("size", toString size), ("err", error.message)]

def text (event : Event) : String :=
  let written := event.fields.map fun (field, value) => " " ++ field ++ "=" ++ value
  event.level.name ++ " " ++ event.title ++ String.join written

end Event

end BoundaryTag
