import BoundaryTag.Align

namespace BoundaryTag

structure Segment where
  top : Nat
  refuses : Nat → Nat → Bool
  /-- What is found at each place beyond the break once the break has moved past it. -/
  bytes : Nat → UInt8

namespace Segment

def extend? (s : Segment) (count : Nat) : Option Segment :=
  if s.refuses s.top count then none else some { s with top := s.top + count }

def retract (s : Segment) (count : Nat) : Segment := { s with top := s.top - count }

def shift (s : Segment) (distance : Int) : Segment :=
  { s with top := (s.top + distance).toNat }

def pad? (s : Segment) : Option Segment :=
  if isAligned s.top then some s else s.extend? (alignUp s.top - s.top)

theorem extend?_eq_some_iff {s t : Segment} {count : Nat} : s.extend? count = some t ↔
    s.refuses s.top count = false ∧ t = { s with top := s.top + count } := by
  cases refused : s.refuses s.top count <;> simp [extend?, refused, eq_comm]

theorem top_extend {s t : Segment} {count : Nat} (granted : s.extend? count = some t) :
    t.top = s.top + count := by
  obtain ⟨_, rfl⟩ := extend?_eq_some_iff.1 granted
  rfl

theorem bytes_extend {s t : Segment} {count : Nat} (granted : s.extend? count = some t) :
    t.bytes = s.bytes := by
  obtain ⟨_, rfl⟩ := extend?_eq_some_iff.1 granted
  rfl

theorem retract_extend {s t : Segment} {count : Nat} (granted : s.extend? count = some t) :
    t.retract count = s := by
  obtain ⟨_, rfl⟩ := extend?_eq_some_iff.1 granted
  rw [retract, Nat.add_sub_cancel]

theorem top_pad {s t : Segment} (granted : s.pad? = some t) : t.top = alignUp s.top := by
  unfold pad? at granted
  split at granted
  · rename_i aligned
    cases granted
    have := isAligned_iff.1 aligned
    unfold alignUp alignment
    omega
  · rw [top_extend granted]
    have := le_alignUp s.top
    omega

end Segment

end BoundaryTag
