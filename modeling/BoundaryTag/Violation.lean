import BoundaryTag.Links

namespace BoundaryTag

inductive Violation
  | uninitialized
  | badPrologue
  | outOfBounds (bp : Nat)
  | misaligned (bp : Nat)
  | badSize (bp size : Nat)
  | tagMismatch (bp : Nat) (header footer : Tag)
  | uncoalesced (prev bp : Nat)
  | badEpilogue (bp : Nat)
  | strayCursor (cursor : Nat)
  | notFree (bp : Nat)
  | brokenLink (bp : Nat) (expected found : Option Nat)
  | unordered (bp : Nat)
  | cycle
  | listCount (listed walked : Nat)
  | counter (counted walked : Nat)
  deriving DecidableEq

namespace Violation

def message : Violation → String
  | uninitialized => "heap is not initialized"
  | badPrologue => "prologue is damaged"
  | outOfBounds bp => s!"block {bp} extends past the end of the heap"
  | misaligned bp => s!"block {bp} payload is misaligned"
  | badSize bp size => s!"block {bp} has invalid size {size}"
  | tagMismatch bp header footer =>
    s!"block {bp} header {header.text} does not match footer {footer.text}"
  | uncoalesced prev bp => s!"blocks {prev} and {bp} are both free"
  | badEpilogue bp => s!"epilogue at {bp} does not end the heap"
  | strayCursor cursor => s!"next-fit cursor {cursor} is not at a block boundary"
  | notFree bp => s!"free list node {bp} is not a free block"
  | brokenLink bp expected found =>
    s!"free list node {bp} has prev link {Text.ofOption found}, " ++
      s!"expected {Text.ofOption expected}"
  | unordered bp => s!"free list is not in address order at {bp}"
  | cycle => "free list has a cycle"
  | listCount listed walked => s!"free list has {listed} nodes, heap has {walked} free blocks"
  | counter counted walked => s!"free block counter is {counted}, heap has {walked} free blocks"

def text : Violation → String
  | uninitialized => "Uninitialized"
  | badPrologue => "BadPrologue"
  | outOfBounds bp => Text.record "OutOfBounds" [("bp", toString bp)]
  | misaligned bp => Text.record "Misaligned" [("bp", toString bp)]
  | badSize bp size => Text.record "BadSize" [("bp", toString bp), ("size", toString size)]
  | tagMismatch bp header footer =>
    Text.record "TagMismatch"
      [("bp", toString bp), ("header", header.text), ("footer", footer.text)]
  | uncoalesced prev bp =>
    Text.record "Uncoalesced" [("prev", toString prev), ("bp", toString bp)]
  | badEpilogue bp => Text.record "BadEpilogue" [("bp", toString bp)]
  | strayCursor cursor => Text.record "StrayCursor" [("cursor", toString cursor)]
  | notFree bp => Text.record "NotFree" [("bp", toString bp)]
  | brokenLink bp expected found =>
    Text.record "BrokenLink" [("bp", toString bp), ("expected", Text.ofOption expected),
      ("found", Text.ofOption found)]
  | unordered bp => Text.record "Unordered" [("bp", toString bp)]
  | cycle => "Cycle"
  | listCount listed walked =>
    Text.record "ListCount" [("listed", toString listed), ("walked", toString walked)]
  | counter counted walked =>
    Text.record "Counter" [("counted", toString counted), ("walked", toString walked)]

end Violation

end BoundaryTag
