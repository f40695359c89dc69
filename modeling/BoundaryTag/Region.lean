import BoundaryTag.Memory
import BoundaryTag.Segment
import BoundaryTag.Text

/-! Regions: memory that only grows, at its top.  An arena has its whole capacity to itself.  A
region in the shared segment owns the bytes from its base up to the break, for as long as nobody
else moves the break. -/

namespace BoundaryTag

inductive RegionError
  | exhausted (requested available : Nat)
  | refused
  | discontiguous
  deriving DecidableEq

namespace RegionError

def message : RegionError → String
  | exhausted requested available =>
    s!"region exhausted: requested {requested} bytes, {available} available"
  | refused => "sbrk refused to move the program break"
  | discontiguous => "program break was moved by another caller"

def text : RegionError → String
  | exhausted requested available =>
    Text.record "Exhausted"
      [("requested", toString requested), ("available", toString available)]
  | refused => "Sbrk"
  | discontiguous => "Discontiguous"

end RegionError

inductive Backing
  | arena (capacity : Nat)
  | segment (base limit : Nat)
  deriving DecidableEq

def Backing.bound : Backing → Nat
  | arena capacity => capacity
  | segment _ limit => limit

structure Region where
  backing : Backing
  memory : Memory

namespace Region

def defaultCapacity : Nat := 20 * 1024 * 1024

def maxStep : Nat := 9223372036854775807

def arena (capacity : Nat) : Region :=
  ⟨.arena (capacity / alignment * alignment), .empty⟩

/-- An empty region at the break, which is padded to the grid first.  Nobody moves the break between
padding it and starting there, so this is never `discontiguous`. -/
def inSegment (limit : Nat) (s : Segment) : Except RegionError (Region × Segment) :=
  match s.pad? with
  | none => .error .refused
  | some s => .ok (⟨.segment s.top limit, .empty⟩, s)

def size (r : Region) : Nat := r.memory.size

def isEmpty (r : Region) : Bool := r.size == 0

def available (r : Region) : Nat := r.backing.bound - r.size

/-- Asks for `extra` more bytes, and yields the segment as the attempt leaves it.  In the segment,
the break has moved by the time that the region finds out whether the bytes follow its own; if they
do not, they are handed back. -/
def attempt (r : Region) (extra : Nat) (s : Segment) : Except RegionError Unit × Segment :=
  if r.available < extra then (.error (.exhausted extra r.available), s)
  else
    match r.backing with
    | .arena _ => (.ok (), s)
    | .segment base _ =>
      if maxStep < extra then (.error (.exhausted extra r.available), s)
      else
        match s.extend? extra with
        | none => (.error .refused, s)
        | some grown =>
          if s.top = base + r.size then (.ok (), grown)
          else (.error .discontiguous, grown.retract extra)

def reserve (r : Region) (extra : Nat) (s : Segment) : Except RegionError Segment :=
  (r.attempt extra s).1.map fun _ => (r.attempt extra s).2

/-- The byte that a region finds at `i` when it grows past it.  An arena is cleared when it is made;
the segment shows whatever is there. -/
def fresh (r : Region) (s : Segment) (i : Nat) : UInt8 :=
  match r.backing with
  | .arena _ => 0
  | .segment base _ => s.bytes (base + i)

def extended (r : Region) (extra : Nat) (s : Segment) : Region :=
  { r with memory := r.memory.grow (r.fresh s) extra }

def grow (r : Region) (extra : Nat) (s : Segment) : Except RegionError (Region × Segment) :=
  (r.reserve extra s).map fun s => (r.extended extra s, s)

def setWord (r : Region) (offset : Nat) (w : Word) : Region :=
  { r with memory := r.memory.setWord offset w }

def write (r : Region) (start : Nat) (data : ByteArray) : Region :=
  { r with memory := r.memory.write start data }

def copyWithin (r : Region) (source count target : Nat) : Region :=
  { r with memory := r.memory.copyWithin source count target }

def text (r : Region) : String :=
  match r.backing with
  | .arena capacity =>
    Text.record "ArenaRegion" [("len", toString r.size), ("capacity", toString capacity)]
  | .segment .. => "SbrkRegion"

theorem attempt_error {r : Region} {extra : Nat} {s t : Segment} {error : RegionError}
    (failed : r.attempt extra s = (.error error, t)) : t = s := by
  unfold attempt at failed
  split at failed
  · cases failed
    rfl
  · split at failed
    · cases failed
    · split at failed
      · cases failed
        rfl
      · split at failed
        · cases failed
          rfl
        · rename_i grown granted
          split at failed
          · cases failed
          · cases failed
            exact Segment.retract_extend granted

theorem attempt_of_reserve {r : Region} {extra : Nat} {s t : Segment}
    (granted : r.reserve extra s = .ok t) : r.attempt extra s = (.ok (), t) := by
  unfold reserve at granted
  cases tried : r.attempt extra s with
  | mk result left =>
    rw [tried] at granted
    cases result with
    | ok =>
      cases granted
      rfl
    | error => cases granted

theorem attempt_of_refused {r : Region} {extra : Nat} {s : Segment} {error : RegionError}
    (refused : r.reserve extra s = .error error) : r.attempt extra s = (.error error, s) := by
  unfold reserve at refused
  cases tried : r.attempt extra s with
  | mk result left =>
    rw [tried] at refused
    cases result with
    | ok => cases refused
    | error =>
      cases refused
      rw [attempt_error tried]

theorem le_available_of_reserve {r : Region} {extra : Nat} {s t : Segment}
    (granted : r.reserve extra s = .ok t) : extra ≤ r.available := by
  have tried := attempt_of_reserve granted
  unfold attempt at tried
  split at tried
  · cases tried
  · omega

theorem bytes_of_reserve {r : Region} {extra : Nat} {s t : Segment}
    (granted : r.reserve extra s = .ok t) : t.bytes = s.bytes := by
  have tried := attempt_of_reserve granted
  unfold attempt at tried
  split at tried
  · cases tried
  · split at tried
    · cases tried
      rfl
    · split at tried
      · cases tried
      · split at tried
        · cases tried
        · rename_i grown moved
          split at tried
          · cases tried
            exact Segment.bytes_extend moved
          · cases tried

theorem fresh_of_reserve {r : Region} {extra : Nat} {s t : Segment}
    (granted : r.reserve extra s = .ok t) : r.fresh t = r.fresh s := by
  funext i
  rw [fresh, fresh, bytes_of_reserve granted]

@[simp] theorem size_extended (r : Region) (extra : Nat) (s : Segment) :
    (r.extended extra s).size = r.size + extra := by
  simp [extended, size]

@[simp] theorem size_setWord (r : Region) (offset : Nat) (w : Word) :
    (r.setWord offset w).size = r.size := by
  simp [setWord, size]

@[simp] theorem size_write (r : Region) (start : Nat) (data : ByteArray) :
    (r.write start data).size = r.size := by
  simp [write, size]

@[simp] theorem size_copyWithin (r : Region) (source count target : Nat) :
    (r.copyWithin source count target).size = r.size := by
  simp [copyWithin, Memory.copyWithin, size]

end Region

end BoundaryTag
