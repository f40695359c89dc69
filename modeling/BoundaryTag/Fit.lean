import BoundaryTag.Machine
import BoundaryTag.FreeIndex

namespace BoundaryTag

/-- The size of a block whose payload holds `count` bytes, if a tag can hold that size. -/
def adjustedSize (count : Nat) : Option Nat := do
  if count ≤ tagBytes then return minBlock
  let adjusted ← alignUp? (← Offset.add? count tagBytes)
  if adjusted ≤ maxBlock then some adjusted else none

theorem adjustedSize_eq_some_iff {count a : Nat} : adjustedSize count = some a ↔
    alignUp (max 16 (count + 8)) = a ∧ a ≤ maxBlock := by
  rw [adjustedSize]
  by_cases small : count ≤ tagBytes
  · have smallest : max 16 (count + 8) = 16 := by
      simp only [tagBytes] at small
      omega
    rw [if_pos small, smallest]
    constructor
    · rintro ⟨⟩
      exact ⟨rfl, by decide⟩
    · rintro ⟨rfl, _⟩
      rfl
  · have larger : max 16 (count + 8) = count + 8 := by
      simp only [tagBytes] at small
      omega
    have above := le_alignUp (count + 8)
    rw [if_neg small, larger]
    simp only [tagBytes, Option.bind_eq_bind, Option.bind_eq_some_iff, Offset.add?_eq_some_iff,
      alignUp?_eq_some_iff, Option.ite_none_right_eq_some, Option.some_inj, Offset.limit]
    constructor
    · rintro ⟨_, ⟨_, rfl⟩, _, ⟨_, rfl⟩, fits, rfl⟩
      exact ⟨rfl, fits⟩
    · rintro ⟨rfl, fits⟩
      have below := fits
      simp only [maxBlock] at below
      exact ⟨_, ⟨by omega, rfl⟩, _, ⟨by omega, rfl⟩, fits, rfl⟩

theorem adjustedSize_bounds {count wanted : Nat} (adjusted : adjustedSize count = some wanted) :
    16 ≤ wanted ∧ wanted % 8 = 0 ∧ wanted ≤ maxBlock ∧ count + 8 ≤ wanted := by
  obtain ⟨rfl, fits⟩ := adjustedSize_eq_some_iff.1 adjusted
  have := le_alignUp (max 16 (count + 8))
  exact ⟨by omega, alignUp_mod _, fits, by omega⟩

namespace Heap

def scan (h : Heap) (wanted : Nat) (stop : Option Nat) (bp : Nat) :
    Except Fault (Option Nat) :=
  if stop.any (· ≤ bp) then .ok none
  else
    match _read : h.tag bp with
    | .error fault => .error fault
    | .ok tag =>
      if tag.size = 0 then .ok none
      else if tag.isFree && wanted ≤ tag.size then .ok (some bp)
      else
        match _sum : Offset.add bp tag.size with
        | .error fault => .error fault
        | .ok next => h.scan wanted stop next
termination_by h.size + 1 - bp
decreasing_by
  have := le_size_of_tag _read
  have := (Offset.add_eq_ok_iff.1 _sum).2
  omega

def searchList (h : Heap) (wanted : Nat) : Nat → Option Nat → Except Fault (Option Nat)
  | _, none => return none
  | 0, some _ => throw .endless
  | fuel + 1, some node => do
    if wanted ≤ (← h.blockSize node) then return some node
    h.searchList wanted fuel (← h.links node).next

def fit (h : Heap) (wanted : Nat) : Except Fault (Option Nat) :=
  match h.strategy with
  | .firstFit => h.scan wanted none firstBlock
  | .nextFit => do
    match ← h.scan wanted none h.cursor with
    | some bp => return some bp
    | none => h.scan wanted (some h.cursor) firstBlock
  | .explicitList _ => h.searchList wanted h.listBound h.freeHead

end Heap

namespace Machine

variable {σ : Type} [Host σ]

def findFit (wanted : Nat) : ActionOn σ (Option Nat) := do
  match ← observe (·.fit wanted) with
  | some bp =>
    moveCursor fun _ => bp
    return some bp
  | none => return none

end Machine

end BoundaryTag
