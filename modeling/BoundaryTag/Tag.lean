import BoundaryTag.Align
import BoundaryTag.Text
import BoundaryTag.Word

namespace BoundaryTag

def wordSize : Nat := 4

def tagBytes : Nat := 8

def minBlock : Nat := 16

def maxBlock : Nat := 4294967288

structure Tag where
  size : Nat
  allocated : Bool
  aligned : size % 8 = 0 := by omega
  fits : size ≤ maxBlock := by unfold maxBlock; omega
  deriving DecidableEq

inductive TagError
  | misaligned
  | tooLarge
  deriving DecidableEq

def TagError.message : TagError → String
  | .misaligned => "tag size is not a multiple of the alignment"
  | .tooLarge => "tag size does not fit in a word"

namespace Tag

def ofSize (size : Nat) (allocated : Bool) : Except TagError Tag :=
  if aligned : size % 8 = 0 then
    if fits : size ≤ maxBlock then .ok ⟨size, allocated, aligned, fits⟩ else .error .tooLarge
  else .error .misaligned

def epilogue : Tag := ⟨0, true, by decide, by decide⟩

def prologue : Tag := ⟨tagBytes, true, by decide, by decide⟩

def isFree (tag : Tag) : Bool := !tag.allocated

def pack (tag : Tag) : Word := UInt32.ofNat (tag.size + tag.allocated.toNat)

def unpack (word : Word) : Tag where
  size := word.toNat / 8 * 8
  allocated := word.toNat % 2 == 1
  fits := by have := word.toNat_lt; unfold maxBlock; omega

def text (tag : Tag) : String :=
  Text.record "Tag" [("size", toString tag.size), ("allocated", Text.ofBool tag.allocated)]

@[ext] theorem ext {s t : Tag} (size : s.size = t.size) (allocated : s.allocated = t.allocated) :
    s = t := by
  cases s
  cases t
  simp_all

theorem toNat_pack (tag : Tag) : tag.pack.toNat = tag.size + tag.allocated.toNat := by
  have fits := tag.fits
  have flag := tag.allocated.toNat_le
  unfold maxBlock at fits
  rw [pack, UInt32.toNat_ofNat_of_lt']
  change _ < 4294967296
  omega

@[simp] theorem unpack_pack (tag : Tag) : unpack tag.pack = tag := by
  have aligned := tag.aligned
  ext
  · simp only [unpack, toNat_pack]
    cases tag.allocated <;> simp <;> omega
  · simp only [unpack, toNat_pack]
    cases tag.allocated <;> simp <;> omega

theorem pack_unpack (word : Word) :
    (unpack word).pack.toNat = word.toNat / 8 * 8 + word.toNat % 2 := by
  rw [toNat_pack]
  have parity : word.toNat % 2 = 0 ∨ word.toNat % 2 = 1 := by omega
  rcases parity with h | h <;> simp [unpack, h]

theorem ofSize_eq_ok_iff {size : Nat} {allocated : Bool} {tag : Tag} :
    ofSize size allocated = .ok tag ↔ tag.size = size ∧ tag.allocated = allocated := by
  constructor
  · unfold ofSize
    split
    · split
      · rintro ⟨⟩
        simp
      · simp
    · simp
  · rintro ⟨rfl, rfl⟩
    simp [ofSize, tag.aligned, tag.fits]

end Tag

end BoundaryTag
