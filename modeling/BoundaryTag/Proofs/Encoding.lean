import BoundaryTag.Machine
import BoundaryTag.Proofs.Rounding

namespace BoundaryTag

namespace Tag

theorem ofSize_self (tag : Tag) : ofSize tag.size tag.allocated = .ok tag :=
  ofSize_eq_ok_iff.2 ⟨rfl, rfl⟩

theorem exists_ofSize_iff (size : Nat) (allocated : Bool) :
    (∃ tag, ofSize size allocated = .ok tag) ↔ size % 8 = 0 ∧ size ≤ 4294967288 := by
  constructor
  · rintro ⟨tag, made⟩
    obtain ⟨rfl, _⟩ := ofSize_eq_ok_iff.1 made
    exact ⟨tag.aligned, tag.fits⟩
  · rintro ⟨aligned, fits⟩
    have made := ofSize_self ⟨size, allocated, aligned, fits⟩
    exact ⟨_, made⟩

theorem pack_unpack_masked (w : Word) : (unpack w).pack = w &&& ~~~6 := by
  have size : (w &&& ~~~7).toNat = w.toNat / 8 * 8 := toNat_masked w.toBitVec
  have flag : (w &&& 1).toNat = w.toNat % 2 := Nat.and_one_is_mod w.toNat
  have parts : (w &&& ~~~7) ||| (w &&& 1) = w &&& ~~~6 := by
    apply UInt32.toBitVec_inj.1
    simp only [UInt32.toBitVec_or, UInt32.toBitVec_and]
    rw [← BitVec.and_or_distrib_left]
    rfl
  apply UInt32.toNat_inj.1
  rw [pack_unpack, ← parts, UInt32.toNat_or, size, flag, Nat.mul_comm]
  exact @Nat.two_pow_add_eq_or_of_lt 3 (w.toNat % 2) (by omega) (w.toNat / 8)

end Tag

namespace Links

def Fits (target : Option Nat) : Prop := ∀ bp ∈ target, 0 < bp ∧ bp < 4294967296

theorem fits_none : Fits none := nofun

theorem fits_decode (word : Word) : Fits (decode word) := by
  intro bp found
  unfold decode at found
  split at found
  · cases found
  · rename_i nonzero
    cases found
    refine ⟨Nat.pos_of_ne_zero fun zero => nonzero ?_, word.toNat_lt⟩
    exact UInt32.toNat_inj.1 zero

theorem decode_encode {target : Option Nat} (fits : Fits target) :
    decode (encode target) = target := by
  cases target with
  | none => rfl
  | some bp =>
    obtain ⟨positive, below⟩ := fits bp rfl
    exact decode_encode_some positive below

end Links

namespace Heap

variable {h : Heap} {offset other : Nat} {w : Word}

theorem word?_eq_some_iff_word : h.word? offset = some w ↔ h.word offset = .ok w :=
  word?_eq_some_iff.trans word_eq_ok_iff.symm

theorem exists_word_iff : (∃ w, h.word offset = .ok w) ↔
    offset + 4 < Offset.limit ∧ offset + 4 ≤ h.size := by
  constructor
  · rintro ⟨w, read⟩
    obtain ⟨bound, fits, _⟩ := word_eq_ok_iff.1 read
    exact ⟨bound, fits⟩
  · rintro ⟨bound, fits⟩
    exact ⟨_, word_eq_ok_iff.2 ⟨bound, fits, rfl⟩⟩

section beside

variable (fits : offset + 4 ≤ h.size) (beside : other + 4 ≤ offset ∨ offset + 4 ≤ other)
include fits beside

theorem memory_setWord_beside :
    (h.setWord offset w).region.memory.word other = h.region.memory.word other :=
  Memory.word_setWord_of_disjoint fits w beside

theorem word_setWord_beside : (h.setWord offset w).word other = h.word other := by
  simp only [word, locate, size_setWord, memory_setWord_beside fits beside]

theorem word?_setWord_beside : (h.setWord offset w).word? other = h.word? other := by
  simp only [word?, size_setWord, memory_setWord_beside fits beside]

end beside

theorem word_setWord (bound : offset + 4 < Offset.limit) (fits : offset + 4 ≤ h.size) :
    (h.setWord offset w).word offset = .ok w := by
  refine word_eq_ok_iff.2 ⟨bound, ?_, Memory.word_setWord fits w⟩
  rw [size_setWord]
  exact fits

end Heap

namespace Machine

structure Stores (m : Machine) (offset : Nat) (tag : Tag) (n : Machine) : Prop where
  ran : putTag offset tag m = .ok () n
  read : ∃ word, n.heap.word offset = .ok word ∧ Tag.unpack word = tag
  found : ∃ word, n.heap.word? offset = some word ∧ Tag.unpack word = tag
  beside : ∀ other, other + 4 ≤ offset ∨ offset + 4 ≤ other →
    n.heap.word other = m.heap.word other ∧ n.heap.word? other = m.heap.word? other

theorem exists_stores {m : Machine} {offset : Nat} (tag : Tag)
    (bound : offset + 4 < Offset.limit) (fits : offset + 4 ≤ m.heap.size) :
    ∃ n, m.Stores offset tag n := by
  have stored : (m.heap.setWord offset tag.pack).word offset = .ok tag.pack :=
    Heap.word_setWord bound fits
  have located : m.heap.locate offset = .ok () := Heap.locate_eq_ok_iff.2 ⟨bound, fits⟩
  refine ⟨_, put_of_locate located (.tag offset tag), ?_, ?_, ?_⟩
  · exact ⟨tag.pack, stored, Tag.unpack_pack tag⟩
  · exact ⟨tag.pack, Heap.word?_eq_some_iff_word.2 stored, Tag.unpack_pack tag⟩
  · intro other beside
    exact ⟨Heap.word_setWord_beside fits beside, Heap.word?_setWord_beside fits beside⟩

/-- How tags and links go into the words of a heap, whatever its bytes, and come out again. -/
structure Encodes (m : Machine) : Prop where
  makes : ∀ size allocated,
    (∃ tag, Tag.ofSize size allocated = .ok tag) ↔ size % 8 = 0 ∧ size ≤ 4294967288
  stores : ∀ size allocated tag, Tag.ofSize size allocated = .ok tag →
    tag.size = size ∧ tag.allocated = allocated ∧
      ∀ offset, offset + 4 < Offset.limit → offset + 4 ≤ m.heap.size → ∃ n, m.Stores offset tag n
  unpacks : ∀ w, Tag.ofSize (Tag.unpack w).size (Tag.unpack w).allocated = .ok (Tag.unpack w) ∧
    (Tag.unpack w).pack = w &&& ~~~6
  leads : ∀ x, Links.Fits x → Links.decode (Links.encode x) = x
  links : ∀ w, Links.encode (Links.decode w) = w
  reads : ∀ offset, (∃ w, m.heap.word offset = .ok w) ↔
    offset + 4 < Offset.limit ∧ offset + 4 ≤ m.heap.size
  finds : ∀ offset w, m.heap.word? offset = some w ↔ m.heap.word offset = .ok w

theorem encodes (m : Machine) : m.Encodes where
  makes := Tag.exists_ofSize_iff
  stores := by
    intro size allocated tag made
    obtain ⟨sized, flagged⟩ := Tag.ofSize_eq_ok_iff.1 made
    exact ⟨sized, flagged, fun _ => exists_stores tag⟩
  unpacks w := ⟨Tag.ofSize_self _, Tag.pack_unpack_masked w⟩
  leads _ := Links.decode_encode
  links := Links.encode_decode
  reads := fun _ => Heap.exists_word_iff
  finds _ _ := Heap.word?_eq_some_iff_word

end Machine

end BoundaryTag
