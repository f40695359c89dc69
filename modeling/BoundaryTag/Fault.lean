import BoundaryTag.Violation

namespace BoundaryTag

inductive Purpose
  | access
  | release
  | resize
  deriving DecidableEq

def Purpose.name : Purpose → String
  | access => "access"
  | release => "release"
  | resize => "resize"

inductive Fault
  | beforeInit
  | outsideHeap (purpose : Purpose) (bp : Nat)
  | notAllocated (purpose : Purpose) (bp : Nat)
  | inconsistent (violation : Violation)
  | wordOutside (offset size : Nat)
  | blockBefore (bp size : Nat)
  | regionInUse
  | tag (error : TagError)
  | arithmetic
  /-- A block that ought to be free, large enough or counted is not. -/
  | assertion
  | range
  | endless
  deriving DecidableEq

namespace Fault

def message? : Fault → Option String
  | beforeInit => some "heap used before init()"
  | outsideHeap purpose bp => some s!"{purpose.name} of {bp} outside the heap"
  | notAllocated purpose bp => some s!"{purpose.name} of {bp}, which is not an allocated block"
  | inconsistent violation => some s!"heap consistency check failed: {violation.message}"
  | wordOutside offset size => some s!"word at {offset} outside heap of {size} bytes"
  | blockBefore bp size => some s!"block before {bp} claims {size} bytes"
  | regionInUse => some "heap region must be empty before init"
  | tag error => some error.message
  | arithmetic | assertion | range | endless => none

/-- Whether the heap can no longer be used.  The other faults are found by a check that comes before
any change. -/
def fatal : Fault → Bool
  | beforeInit | outsideHeap .. | notAllocated .. | inconsistent _ => false
  | _ => true

end Fault

namespace Offset

def add (a b : Nat) : Except Fault Nat :=
  if a + b < limit then .ok (a + b) else .error .arithmetic

def sub (a b : Nat) : Except Fault Nat :=
  if b ≤ a then .ok (a - b) else .error .arithmetic

@[simp] theorem add_eq_ok_iff {a b c : Nat} : add a b = .ok c ↔ a + b < limit ∧ a + b = c := by
  by_cases inside : a + b < limit <;> simp [add, inside]

@[simp] theorem sub_eq_ok_iff {a b c : Nat} : sub a b = .ok c ↔ b ≤ a ∧ a - b = c := by
  by_cases inside : b ≤ a <;> simp [sub, inside]

end Offset

def Tag.make (size : Nat) (allocated : Bool) : Except Fault Tag :=
  (Tag.ofSize size allocated).mapError .tag

def requires (holds : Bool) (fault : Fault) : Except Fault Unit :=
  if holds then .ok () else .error fault

@[simp] theorem requires_eq_ok_iff {holds : Bool} {fault : Fault} {u : Unit} :
    requires holds fault = .ok u ↔ holds = true := by
  cases holds <;> simp [requires]

theorem bind_eq_ok_iff {x : Except ε α} {f : α → Except ε β} {b : β} :
    x >>= f = .ok b ↔ ∃ a, x = .ok a ∧ f a = .ok b := by
  cases x <;> simp [bind, Except.bind]

end BoundaryTag
