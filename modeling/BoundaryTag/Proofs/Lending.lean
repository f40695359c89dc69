import BoundaryTag.Proofs.Reading
import BoundaryTag.Proofs.Resizing

namespace BoundaryTag

namespace Heap

def Lends (h : Heap) (bp : Nat) : Prop :=
  ∃ blocks, h.layout = .ok blocks ∧ ∃ b ∈ blocks, b.allocated = true ∧ b.payload = bp

instance (h : Heap) (bp : Nat) : Decidable (h.Lends bp) :=
  match walked : h.layout with
  | .ok blocks =>
    decidable_of_iff (∃ b ∈ blocks, b.allocated = true ∧ b.payload = bp) (by simp [Lends, walked])
  | .error _ => .isFalse (by simp [Lends, walked])

section settled

variable {h : Heap} {blocks : List Block} {nodes : List Nat} {bp : Nat}
  (settled : h.Settled blocks nodes)
include settled

theorem Settled.lends_iff (bp : Nat) :
    h.Lends bp ↔ ∃ b ∈ blocks, b.allocated = true ∧ b.payload = bp := by
  simp [Lends, layout_eq settled.initialized settled.keeps.spelt]

theorem Settled.onGrid_of_lends (lends : h.Lends bp) : bp % 8 = 0 := by
  obtain ⟨b, mem, _, rfl⟩ := (settled.lends_iff bp).1 lends
  exact settled.keeps.spelt.onGrid mem

end settled

end Heap

namespace Machine

variable {m n : Machine} {blocks new : List Block} {nodes nodes' : List Nat} {b : Block}
  {count : Nat} (settled : m.heap.Settled blocks nodes)
include settled

theorem Allots.lends_iff {reply : Option Payload}
    (allots : m.Allots blocks nodes count reply n) (bp : Nat) :
    n.heap.Lends bp ↔ m.heap.Lends bp ∨ ∃ p ∈ reply, p.offset = bp := by
  cases allots with
  | denied heap => simp [heap]
  | @served _ p _ _ _ _ _ adjusted settled' serves =>
    obtain ⟨large, even, _⟩ := adjustedSize_bounds adjusted
    obtain ⟨size, _, handed⟩ :=
      serves.allocates.live_iff settled.keeps.spelt.tiled large even
    rw [settled'.lends_iff, settled.lends_iff]
    constructor
    · rintro ⟨c, mem, live, rfl⟩
      rcases (handed c live).1 mem with old | rfl
      · exact .inl ⟨c, old, live, rfl⟩
      · exact .inr ⟨p, rfl, rfl⟩
    · rintro (⟨c, mem, live, rfl⟩ | ⟨_, ⟨⟩, rfl⟩)
      · exact ⟨c, (handed c live).2 (.inl mem), live, rfl⟩
      · exact ⟨_, (handed ⟨p.offset, size, true⟩ rfl).2 (.inr rfl), rfl, rfl⟩

theorem lends_of_releases (settled' : n.heap.Settled new nodes')
    (releases : Block.Releases b.payload blocks new) (bp : Nat) :
    n.heap.Lends bp ↔ m.heap.Lends bp ∧ bp ≠ b.payload := by
  have left := releases.live_iff settled.keeps.spelt.tiled settled.coalesced
  rw [settled'.lends_iff, settled.lends_iff]
  constructor
  · rintro ⟨c, mem, live, rfl⟩
    obtain ⟨old, other⟩ := (left c live).1 mem
    exact ⟨⟨c, old, live, rfl⟩, other⟩
  · rintro ⟨⟨c, mem, live, rfl⟩, other⟩
    exact ⟨c, (left c live).2 ⟨mem, other⟩, live, rfl⟩

theorem Resized.lends_iff {q : Payload} (resized : m.Resized blocks b count (some q) n)
    (bp : Nat) :
    n.heap.Lends bp ↔ bp = q.offset ∨ m.heap.Lends bp ∧ bp ≠ b.payload := by
  cases resized with
  | served adjusted settled' _ resizes =>
    obtain ⟨large, even, _⟩ := adjustedSize_bounds adjusted
    obtain ⟨size, _, left⟩ :=
      resizes.live_iff settled.keeps.spelt.tiled settled.coalesced large even
    rw [settled'.lends_iff, settled.lends_iff]
    constructor
    · rintro ⟨c, mem', live', rfl⟩
      rcases (left c live').1 mem' with ⟨old, other⟩ | rfl
      · exact .inr ⟨⟨c, old, live', rfl⟩, other⟩
      · exact .inl rfl
    · rintro (rfl | ⟨⟨c, old, live', rfl⟩, other⟩)
      · exact ⟨_, (left ⟨q.offset, size, true⟩ rfl).2 (.inr rfl), rfl, rfl⟩
      · exact ⟨c, (left c live').2 (.inl ⟨old, other⟩), live', rfl⟩

end Machine

end BoundaryTag
