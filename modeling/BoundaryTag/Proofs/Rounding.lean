import BoundaryTag.Fit
import Mathlib.Order.Bounds.Basic

namespace BoundaryTag

def gridFrom (low : Nat) : Set Nat := {a | a % 8 = 0 ∧ low ≤ a}

structure Rounds (low bound : Nat) (result : Option Nat) : Prop where
  some_iff : ∀ a, result = some a ↔ IsLeast (gridFrom low) a ∧ a ≤ bound
  none_iff : result = none ↔ ∃ a, IsLeast (gridFrom low) a ∧ bound < a

variable {low high bound : Nat} {x y : Option Nat}

theorem gridFrom_subset (le : low ≤ high) : gridFrom high ⊆ gridFrom low :=
  fun _ ⟨onGrid, above⟩ => ⟨onGrid, Nat.le_trans le above⟩

theorem isLeast_alignUp (n : Nat) : IsLeast (gridFrom n) (alignUp n) := by
  refine ⟨⟨alignUp_mod n, le_alignUp n⟩, ?_⟩
  rintro a ⟨onGrid, above⟩
  have := alignUp_lt n
  have := alignUp_mod n
  omega

theorem rounds_of_iff (cut : ∀ a, x = some a ↔ alignUp low = a ∧ a ≤ bound) :
    Rounds low bound x := by
  have least := isLeast_alignUp low
  refine ⟨fun a => by rw [cut, least.isLeast_iff_eq], ?_⟩
  constructor
  · rintro rfl
    refine ⟨alignUp low, least, Nat.lt_of_not_le fun within => ?_⟩
    cases (cut _).2 ⟨rfl, within⟩
  · rintro ⟨a, least', beyond⟩
    cases least.unique least'
    refine Option.eq_none_iff_forall_ne_some.2 fun b found => ?_
    obtain ⟨rfl, within⟩ := (cut b).1 found
    omega

theorem Rounds.mono (lower : Rounds low bound x) (upper : Rounds high bound y) (le : low ≤ high) :
    ∀ b, y = some b → ∃ a ≤ b, x = some a := by
  intro b found
  obtain ⟨least, within⟩ := (upper.some_iff b).1 found
  have least' := isLeast_alignUp low
  have smaller := least.mono least' (gridFrom_subset le)
  exact ⟨alignUp low, smaller, (lower.some_iff _).2 ⟨least', Nat.le_trans smaller within⟩⟩

theorem rounds_alignUp? (n : Nat) : Rounds n 18446744073709551615 (alignUp? n) := by
  apply rounds_of_iff
  intro a
  have := le_alignUp n
  have := alignUp_lt n
  have := alignUp_mod n
  rw [alignUp?_eq_some_iff]
  simp only [Offset.limit]
  omega

theorem rounds_adjustedSize (count : Nat) :
    Rounds (max 16 (count + 8)) 4294967288 (adjustedSize count) :=
  rounds_of_iff fun _ => adjustedSize_eq_some_iff

example : adjustedSize 4294967280 = some 4294967288 ∧ adjustedSize 4294967281 = none := by decide

theorem toNat_masked {width : Nat} (x : BitVec width) : (x &&& ~~~7).toNat = x.toNat / 8 * 8 := by
  have mask (i : Nat) : (7 : BitVec width).getLsbD i = (decide (i < width) && decide (i < 3)) :=
    (BitVec.getLsbD_ofNat width 7 i).trans (congrArg _ (Nat.testBit_two_pow_sub_one 3 i))
  have shifted (i : Nat) : (x.toNat / 8 * 8).testBit i =
      (decide (3 ≤ i) && x.toNat.testBit (i - 3 + 3)) :=
    (Nat.testBit_mul_two_pow (x.toNat / 8) i 3).trans
      (congrArg _ (@Nat.testBit_div_two_pow 3 x.toNat (i - 3)))
  apply Nat.eq_of_testBit_eq
  intro i
  rw [shifted, BitVec.testBit_toNat, BitVec.getLsbD_and, BitVec.getLsbD_not, mask]
  by_cases low : i < 3
  · have : ¬3 ≤ i := Nat.not_le.2 low
    simp [*]
  · have high : 3 ≤ i := Nat.not_lt.1 low
    rw [Nat.sub_add_cancel high, BitVec.testBit_toNat]
    cases bit : x.getLsbD i with
    | false => simp
    | true => simp [low, high, BitVec.lt_of_getLsbD bit]

structure Aligns (n : UInt64) : Prop where
  least : Rounds n.toNat 18446744073709551615 (alignUp? n.toNat)
  unwrapped : ∀ a, alignUp? n.toNat = some a →
    (n + 7).toNat = n.toNat + 7 ∧ ((n + 7) &&& ~~~7).toNat = a

structure Adjusts (n : UInt64) : Prop where
  least : Rounds (max 16 (n.toNat + 8)) 4294967288 (adjustedSize n.toNat)
  monotone : ∀ k, n ≤ k → ∀ b, adjustedSize k.toNat = some b →
    ∃ a ≤ b, adjustedSize n.toNat = some a
  roomy : ∀ a, adjustedSize n.toNat = some a →
    ∃ room, Offset.sub a tagBytes = .ok room ∧ n.toNat ≤ room
  unwrapped : ∀ a, 8 < n → adjustedSize n.toNat = some a →
    (n + 8).toNat = n.toNat + 8 ∧ (n + 8 + 7).toNat = n.toNat + 8 + 7 ∧
      ((n + 8 + 7) &&& ~~~7).toNat = a

section words

variable {n : UInt64}

theorem toNat_add_of_room {k : UInt64} (room : n.toNat + k.toNat < Offset.limit) :
    (n + k).toNat = n.toNat + k.toNat :=
  (UInt64.toNat_add n k).trans (Nat.mod_eq_of_lt room)

theorem toNat_alignUp (room : n.toNat + 7 < Offset.limit) :
    (n + 7).toNat = n.toNat + 7 ∧ ((n + 7) &&& ~~~7).toNat = alignUp n.toNat := by
  have sum : (n + 7).toNat = n.toNat + 7 := toNat_add_of_room room
  refine ⟨sum, ?_⟩
  calc ((n + 7) &&& ~~~7).toNat
    _ = (n + 7).toNat / 8 * 8 := toNat_masked (n + 7).toBitVec
    _ = alignUp n.toNat := by rw [sum, alignUp, alignment]

theorem toNat_adjustedSize {a : Nat} (large : 8 < n.toNat)
    (found : adjustedSize n.toNat = some a) :
    (n + 8).toNat = n.toNat + 8 ∧ (n + 8 + 7).toNat = n.toNat + 8 + 7 ∧
      ((n + 8 + 7) &&& ~~~7).toNat = a := by
  obtain ⟨rfl, fits⟩ := adjustedSize_eq_some_iff.1 found
  have larger : max 16 (n.toNat + 8) = n.toNat + 8 := by omega
  rw [larger] at fits ⊢
  have above := le_alignUp (n.toNat + 8)
  have room : n.toNat + 8 + 7 < Offset.limit := by
    simp only [maxBlock] at fits
    simp only [Offset.limit]
    omega
  have sum : (n + 8).toNat = n.toNat + 8 :=
    toNat_add_of_room (Nat.lt_of_le_of_lt (Nat.le_add_right _ 7) room)
  rw [← sum] at room ⊢
  exact ⟨rfl, toNat_alignUp room⟩

end words

theorem aligns (n : UInt64) : Aligns n where
  least := rounds_alignUp? n.toNat
  unwrapped := by
    intro a found
    obtain ⟨room, rfl⟩ := alignUp?_eq_some_iff.1 found
    exact toNat_alignUp room

theorem adjusts (n : UInt64) : Adjusts n where
  least := rounds_adjustedSize n.toNat
  monotone := by
    intro k le
    have le : n.toNat ≤ k.toNat := le
    exact (rounds_adjustedSize n.toNat).mono (rounds_adjustedSize k.toNat) (by omega)
  roomy := by
    intro a found
    obtain ⟨large, _, _, fits⟩ := adjustedSize_bounds found
    refine ⟨a - tagBytes, Offset.sub_eq_ok_iff.2 ⟨?_, rfl⟩, ?_⟩
    · simp only [tagBytes]
      omega
    · simp only [tagBytes]
      omega
  unwrapped _ := toNat_adjustedSize

theorem adjusts_and_aligns (n : UInt64) : Adjusts n ∧ Aligns n := ⟨adjusts n, aligns n⟩

end BoundaryTag
