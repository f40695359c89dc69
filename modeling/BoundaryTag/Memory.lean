import BoundaryTag.Word

namespace BoundaryTag

structure Memory where
  bytes : ByteArray

namespace Memory

def empty : Memory := ⟨ByteArray.empty⟩

def size (m : Memory) : Nat := m.bytes.size

def byte (m : Memory) (i : Nat) : UInt8 :=
  if h : i < m.bytes.size then m.bytes[i] else 0

def setByte (m : Memory) (i : Nat) (b : UInt8) : Memory :=
  if h : i < m.bytes.size then ⟨m.bytes.set i b h⟩ else m

/-- Adds `extra` bytes at the top.  The new byte at `i` is `fresh i`. -/
def grow (m : Memory) (fresh : Nat → UInt8) (extra : Nat) : Memory :=
  ⟨Nat.repeat (fun bytes => bytes.push (fresh bytes.size)) extra m.bytes⟩

def word (m : Memory) (offset : Nat) : Word :=
  Word.ofBytes (m.byte offset) (m.byte (offset + 1)) (m.byte (offset + 2)) (m.byte (offset + 3))

def setWord (m : Memory) (offset : Nat) (w : Word) : Memory :=
  (((m.setByte offset (w.byte 0)).setByte (offset + 1) (w.byte 1)).setByte
    (offset + 2) (w.byte 2)).setByte (offset + 3) (w.byte 3)

def slice (m : Memory) (start count : Nat) : ByteArray :=
  m.bytes.extract start (start + count)

def write (m : Memory) (start : Nat) (data : ByteArray) : Memory :=
  if start + data.size ≤ m.bytes.size then ⟨data.copySlice 0 m.bytes start data.size⟩ else m

def copyWithin (m : Memory) (source count target : Nat) : Memory :=
  m.write target (m.slice source count)

@[ext] theorem ext {m n : Memory} (size : m.size = n.size) (byte : ∀ i, m.byte i = n.byte i) :
    m = n := by
  obtain ⟨a⟩ := m
  obtain ⟨b⟩ := n
  congr 1
  apply ByteArray.ext_getElem size
  intro i ha hb
  simpa [Memory.byte, ha, hb] using byte i

@[simp] theorem size_empty : empty.size = 0 := rfl

theorem byte_of_le {m : Memory} {i : Nat} (outside : m.size ≤ i) : m.byte i = 0 := by
  have : ¬i < m.bytes.size := Nat.not_lt.2 outside
  simp [byte, this]

theorem byte_eq_getD (m : Memory) (i : Nat) : m.byte i = m.bytes.data[i]?.getD 0 := by
  unfold byte
  split
  · rename_i inside
    rw [ByteArray.getElem_eq_getElem_data, Array.getElem?_eq_getElem inside]
    rfl
  · rename_i outside
    rw [Array.getElem?_eq_none (Nat.not_lt.1 outside)]
    rfl

@[simp] theorem size_setByte (m : Memory) (i : Nat) (b : UInt8) :
    (m.setByte i b).size = m.size := by
  unfold setByte
  split
  · exact Array.size_set _
  · rfl

theorem byte_setByte (m : Memory) (i j : Nat) (b : UInt8) :
    (m.setByte i b).byte j = if i = j ∧ i < m.size then b else m.byte j := by
  unfold setByte
  split
  · rename_i inside
    have here : i < m.size := inside
    have within : i < m.bytes.data.size := inside
    simp only [byte_eq_getD, ByteArray.set, Array.getElem?_set, here, and_true]
    split <;> rfl
  · rename_i outside
    have : ¬i < m.size := outside
    simp [this]

section grow

variable (m : Memory) (fresh : Nat → UInt8) (extra : Nat)

theorem grow_succ : m.grow fresh (extra + 1) =
    ⟨(m.grow fresh extra).bytes.push (fresh (m.grow fresh extra).size)⟩ := rfl

@[simp] theorem size_grow : (m.grow fresh extra).size = m.size + extra := by
  induction extra with
  | zero => rfl
  | succ extra ih =>
    rw [grow_succ]
    simp only [size, ByteArray.size_push] at ih ⊢
    omega

theorem byte_grow (i : Nat) : (m.grow fresh extra).byte i =
    if m.size ≤ i ∧ i < m.size + extra then fresh i else m.byte i := by
  induction extra with
  | zero =>
    rw [if_neg (by omega)]
    rfl
  | succ extra ih =>
    have size : (m.grow fresh extra).bytes.data.size = m.size + extra := size_grow m fresh extra
    rw [grow_succ]
    simp only [byte_eq_getD, ByteArray.data_push, Array.getElem?_push, size] at ih ⊢
    split
    · rename_i last
      rw [if_pos (by omega), last, size_grow]
      rfl
    · rename_i other
      rw [ih]
      by_cases new : m.size ≤ i ∧ i < m.size + extra
      · rw [if_pos new, if_pos (by omega)]
      · rw [if_neg new, if_neg (by omega)]

theorem byte_grow_of_lt {i : Nat} (old : i < m.size) :
    (m.grow fresh extra).byte i = m.byte i := by
  rw [byte_grow, if_neg (by omega)]

end grow

@[simp] theorem size_setWord (m : Memory) (offset : Nat) (w : Word) :
    (m.setWord offset w).size = m.size := by
  simp [setWord]

theorem byte_setWord {m : Memory} {offset : Nat} (fits : offset + 4 ≤ m.size) (w : Word)
    (i : Nat) :
    (m.setWord offset w).byte i =
      if offset ≤ i ∧ i < offset + 4 then w.byte (i - offset) else m.byte i := by
  simp only [setWord, byte_setByte, size_setByte]
  by_cases h₃ : offset + 3 = i
  · subst h₃
    have : offset + 3 < m.size := by omega
    simp [this]
  by_cases h₂ : offset + 2 = i
  · subst h₂
    have : offset + 2 < m.size := by omega
    simp [this]
  by_cases h₁ : offset + 1 = i
  · subst h₁
    have : offset + 1 < m.size := by omega
    simp [this]
  by_cases h₀ : offset = i
  · subst h₀
    have : offset < m.size := by omega
    simp [this]
  · have : ¬(offset ≤ i ∧ i < offset + 4) := by omega
    simp [h₀, h₁, h₂, h₃, this]

theorem byte_setWord_of_outside {m : Memory} {offset : Nat} {w : Word} {i : Nat}
    (outside : ¬(offset ≤ i ∧ i < offset + 4)) : (m.setWord offset w).byte i = m.byte i := by
  have h₀ : offset ≠ i := by omega
  have h₁ : offset + 1 ≠ i := by omega
  have h₂ : offset + 2 ≠ i := by omega
  have h₃ : offset + 3 ≠ i := by omega
  simp [setWord, byte_setByte, h₀, h₁, h₂, h₃]

theorem word_setWord {m : Memory} {offset : Nat} (fits : offset + 4 ≤ m.size) (w : Word) :
    (m.setWord offset w).word offset = w := by
  simp [word, byte_setWord fits]

theorem word_setWord_of_disjoint {m : Memory} {offset other : Nat}
    (fits : offset + 4 ≤ m.size) (w : Word)
    (disjoint : other + 4 ≤ offset ∨ offset + 4 ≤ other) :
    (m.setWord offset w).word other = m.word other := by
  simp only [word, byte_setWord fits]
  have h₀ : ¬(offset ≤ other ∧ other < offset + 4) := by omega
  have h₁ : ¬(offset ≤ other + 1 ∧ other + 1 < offset + 4) := by omega
  have h₂ : ¬(offset ≤ other + 2 ∧ other + 2 < offset + 4) := by omega
  have h₃ : ¬(offset ≤ other + 3 ∧ other + 3 < offset + 4) := by omega
  simp only [h₀, h₁, h₂, h₃, if_false]

theorem size_slice {m : Memory} {start count : Nat} (fits : start + count ≤ m.size) :
    (m.slice start count).size = count := by
  have : start + count ≤ m.bytes.size := fits
  rw [slice, ByteArray.size_extract]
  omega

@[simp] theorem size_write (m : Memory) (start : Nat) (data : ByteArray) :
    (m.write start data).size = m.size := by
  unfold write
  split
  · rename_i fits
    simp only [size, ByteArray.copySlice_eq_append, ByteArray.size_append,
      ByteArray.size_extract, ByteArray.size_data]
    omega
  · rfl

theorem slice_data (m : Memory) (start count : Nat) :
    (m.slice start count).data = m.bytes.data.extract start (start + count) := by
  have : start + (start + count - start) = start + count := by omega
  simp only [slice, ByteArray.extract, ByteArray.copySlice, this]
  simp

theorem byte_slice {m : Memory} {start count i : Nat} (inside : i < count) :
    (⟨m.slice start count⟩ : Memory).byte i = m.byte (start + i) := by
  simp only [byte_eq_getD, slice_data, Array.getElem?_extract]
  split
  · rfl
  · rw [Array.getElem?_eq_none (by omega)]

theorem byte_write {m : Memory} {start : Nat} {data : ByteArray}
    (fits : start + data.size ≤ m.size) (i : Nat) :
    (m.write start data).byte i =
      if start ≤ i ∧ i < start + data.size then (⟨data⟩ : Memory).byte (i - start)
      else m.byte i := by
  have room : start + data.size ≤ m.bytes.size := fits
  have top : m.bytes.data.size = m.bytes.size := rfl
  have length : data.data.size = data.size := rfl
  have below : (m.bytes.data.extract 0 start).size = start := by
    rw [Array.size_extract]
    omega
  have within : (data.data.extract 0 (0 + data.size)).size = data.size := by
    rw [Array.size_extract]
    omega
  rw [write, if_pos room]
  simp only [byte_eq_getD, ByteArray.copySlice]
  rw [Array.getElem?_append, Array.getElem?_append, Array.size_append, below, within]
  simp only [Array.getElem?_extract]
  by_cases before : i < start
  · have : i < start + data.size := by omega
    have : ¬start ≤ i := by omega
    have : i < min start m.bytes.size := by omega
    simp [*]
  · by_cases inside : i < start + data.size
    · have : start ≤ i := by omega
      have : i - start < data.size := by omega
      simp [*]
    · have : start + min data.size (data.data.size - 0) + (i - (start + data.size)) = i := by omega
      simp only [inside, before, and_false, if_false, this]
      split
      · rfl
      · rw [Array.getElem?_eq_none (by omega)]

theorem byte_write_of_outside {m : Memory} {start : Nat} {data : ByteArray} {i : Nat}
    (outside : ¬(start ≤ i ∧ i < start + data.size)) : (m.write start data).byte i = m.byte i := by
  by_cases fits : start + data.size ≤ m.size
  · rw [byte_write fits, if_neg outside]
  · have : ¬start + data.size ≤ m.bytes.size := fits
    rw [write, if_neg this]

theorem byte_copyWithin_of_outside {m : Memory} {source count target i : Nat}
    (outside : ¬(target ≤ i ∧ i < target + count)) :
    (m.copyWithin source count target).byte i = m.byte i := by
  refine byte_write_of_outside fun inside => outside ⟨inside.1, ?_⟩
  have below := inside.2
  rw [slice, ByteArray.size_extract] at below
  omega

attribute [irreducible] grow setWord write

end Memory

end BoundaryTag
