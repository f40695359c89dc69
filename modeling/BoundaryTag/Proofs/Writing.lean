import BoundaryTag.Payload
import BoundaryTag.Proofs.Keeping

namespace BoundaryTag

theorem Memory.slice_congr {m n : Memory} {start target count : Nat}
    (fits : start + count ≤ m.size) (fits' : target + count ≤ n.size)
    (same : ∀ i < count, n.byte (target + i) = m.byte (start + i)) :
    n.slice target count = m.slice start count := by
  have size : (⟨m.slice start count⟩ : Memory).size = count := size_slice fits
  have size' : (⟨n.slice target count⟩ : Memory).size = count := size_slice fits'
  refine congrArg bytes (ext (m := ⟨n.slice target count⟩) (n := ⟨m.slice start count⟩)
    (size'.trans size.symm) fun i => ?_)
  rcases Nat.lt_or_ge i count with inside | outside
  · rw [byte_slice inside, byte_slice inside, same i inside]
  · rw [byte_of_le (size'.symm ▸ outside), byte_of_le (size.symm ▸ outside)]

theorem Memory.extract_slice (m : Memory) {start count part : Nat} (inside : part ≤ count) :
    (m.slice start count).extract 0 part = m.slice start part := by
  rw [slice, ByteArray.extract_extract, slice, Nat.add_zero, Nat.min_eq_left (by omega)]

namespace Heap

def overwritten (h : Heap) (start : Nat) (data : ByteArray) : Heap :=
  { h with region := h.region.write start data }

variable {h : Heap} {blocks : List Block} {b : Block} {nodes : List Nat} {start : Nat}
  {data : ByteArray}

@[simp] theorem size_overwritten : (h.overwritten start data).size = h.size :=
  Region.size_write _ _ _

theorem byte_overwritten (fits : start + data.size ≤ h.size) (i : Nat) :
    (h.overwritten start data).byte i =
      if start ≤ i ∧ i < start + data.size then (⟨data⟩ : Memory).byte (i - start)
      else h.byte i :=
  Memory.byte_write fits i

theorem Settled.overwrite (settled : h.Settled blocks nodes) (mem : b ∈ blocks)
    (live : b.allocated = true) (low : b.payload ≤ start)
    (high : start + data.size + 8 ≤ b.payload + b.size) :
    (h.overwritten start data).Settled blocks nodes := by
  have spelt := settled.keeps.spelt
  have bounds := spelt.bounds mem
  have same (i : Nat) (kept : ¬b.Owns i) : (h.overwritten start data).byte i = h.byte i := by
    rw [byte_overwritten (by omega), if_neg]
    rintro ⟨above, below⟩
    exact kept ⟨by omega, by omega⟩
  refine ⟨settled.initialized, settled.valid, ⟨?_, ?_, settled.keeps.listed⟩, settled.coalesced,
    ?_⟩
  · exact spelt.transfer size_overwritten fun i kept => same i (kept b mem)
  · refine settled.keeps.indexed.transfer rfl rfl rfl fun n listed i low high => same i ?_
    obtain ⟨c, mem', free, rfl⟩ := settled.keeps.freeNodes n listed
    have := spelt.bounds mem'
    intro owned
    cases spelt.tiled.eq_of_covers mem mem' owned.covers ⟨by omega, by omega⟩
    rw [live] at free
    cases free
  · intro kind
    rw [size_overwritten]
    exact settled.aims kind

section live

variable (settled : h.Settled blocks nodes) (mem : b ∈ blocks) (live : b.allocated = true)
include settled mem live

theorem payloadSize_eq : h.payloadSize ⟨b.payload⟩ = .ok (b.size - 8) := by
  have bounds := settled.keeps.spelt.bounds mem
  obtain ⟨tag, read, size, _⟩ := settled.keeps.spelt.allocatedTag mem live .access
  rw [payloadSize, read]
  exact Offset.sub_eq_ok_iff.2 ⟨by simp only [tagBytes]; omega, by rw [size]; rfl⟩

theorem payloadRange_eq : h.payloadRange ⟨b.payload⟩ = .ok (b.size - 8) := by
  have bounds := settled.keeps.spelt.bounds mem
  have stop : Offset.add b.payload (b.size - 8) = .ok (b.payload + (b.size - 8)) :=
    Offset.add_eq_ok_iff.2 ⟨by simp only [Offset.limit]; omega, rfl⟩
  have inside : b.payload + (b.size - 8) ≤ h.size := by omega
  simp [payloadRange, payloadSize_eq settled mem live, stop, inside, requires, bind, Except.bind,
    pure, Except.pure]

theorem payload_eq : h.payload ⟨b.payload⟩ =
    .ok (h.region.memory.slice b.payload (b.size - 8)) := by
  rw [payload, payloadRange_eq settled mem live]
  rfl

end live

end Heap

namespace Machine

theorem run_writePayload {m : Machine} {blocks : List Block} {b : Block} {nodes : List Nat}
    {start : Nat} {data : ByteArray} (settled : m.heap.Settled blocks nodes) (mem : b ∈ blocks)
    (live : b.allocated = true) (fits : start + data.size + 8 ≤ b.size) :
    writePayload ⟨b.payload⟩ start data m =
      .ok () { m with heap := m.heap.overwritten (b.payload + start) data } := by
  have bounds := settled.keeps.spelt.bounds mem
  have inside : requires (start + data.size ≤ b.size - 8) .range = .ok () := by
    have : start + data.size ≤ b.size - 8 := by omega
    simp [this]
  rw [writePayload, bind_of_ok (observe_of_ok (Heap.payloadRange_eq settled mem live)), inside,
    bind_of_ok (liftM_ok _ _), store_eq]
  rfl

end Machine

end BoundaryTag
