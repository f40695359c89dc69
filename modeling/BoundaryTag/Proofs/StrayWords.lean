import BoundaryTag.Proofs.Staleness

namespace BoundaryTag

namespace Heap

def Heads (h : Heap) (i : Nat) : Prop :=
  i + wordSize = prologue ∨ i + wordSize = h.size ∨
    ∃ blocks, h.layout = .ok blocks ∧ ∃ b ∈ blocks, b.payload = i + wordSize

instance (h : Heap) (i : Nat) : Decidable (h.Heads i) :=
  decidable_of_iff
    (i + wordSize = prologue ∨ i + wordSize = h.size ∨
      h.layout.toOption.any (·.any (·.payload == i + wordSize)) = true) (by
    rw [Heads]
    cases h.layout with
    | ok blocks => simp [Except.toOption]
    | error fault => simp [Except.toOption])

def StrayWordsClear (h : Heap) : Prop :=
  ∀ i, i % 8 = 4 → i + wordSize ≤ h.size → ¬h.Heads i →
    ∃ word, h.word i = .ok word ∧ (Tag.unpack word).allocated = false

variable {h : Heap} {i : Nat}

theorem heads_of_lends (lends : h.Lends (i + wordSize)) : h.Heads i := by
  obtain ⟨blocks, read, b, mem, _, place⟩ := lends
  exact .inr (.inr ⟨blocks, read, b, mem, place⟩)

theorem Blank.strayWordsClear (blank : h.Blank) : h.StrayWordsClear := by
  intro i _ inside
  rw [blank.size] at inside
  simp only [wordSize] at inside
  omega

theorem strayWordsClear_of_noStaleHeader (bounded : h.size ≤ maxRegion)
    (noStale : h.NoStaleHeader) : h.StrayWordsClear := by
  intro i place inside stray
  have notPrologue : i + 4 ≠ 8 := fun here => stray (.inl here)
  have notEpilogue : i + 4 ≠ h.size := fun here => stray (.inr (.inl here))
  simp only [wordSize] at inside
  refine ⟨_, word_eq bounded inside, Bool.eq_false_iff.2 fun claimed => stray ?_⟩
  have odd := (Memory.allocated_tag h.region.memory i).1 claimed
  have poses : h.HeaderLike i := ⟨by omega, place, by omega, odd⟩
  exact heads_of_lends (noStale i poses)

end Heap

namespace Session

variable {s : Session} {handed : List Payload}

/-- Merging, growing over a neighbour and growing over the epilogue make headers disappear.  On a
run that brings no odd byte to where headers stand, what is left of them is free. -/
theorem strayWordsClear_of_course (course : Course Machine.BringsEven Request.Gentle s handed) :
    s.machine.heap.StrayWordsClear := by
  cases tame_of_course course with
  | blank blank => exact blank.strayWordsClear
  | settled settled _ noStale =>
    exact Heap.strayWordsClear_of_noStaleHeader settled.keeps.spelt.bounded noStale

def overgrown : Session :=
  (lone.respond (.allocate 8)).play
    [.release ⟨32⟩, .resize (some ⟨16⟩) 24, .write ⟨16⟩ 11 ⟨#[17, 18]⟩]

theorem strayWordsClear_overgrown : ¬overgrown.machine.heap.Heads 28 ∧
    ∃ word, overgrown.machine.heap.word 28 = .ok word ∧ (Tag.unpack word).allocated = false := by
  have stray : ¬overgrown.machine.heap.Heads 28 := by decide +kernel
  obtain ⟨_, course, _⟩ := course_second
  obtain ⟨_, course, _⟩ := course.play
    [.release ⟨32⟩, .resize (some ⟨16⟩) 24, .write ⟨16⟩ 11 ⟨#[17, 18]⟩] (by decide)
    (by decide +kernel) (by decide +kernel)
  exact ⟨stray, strayWordsClear_of_course course 28 (by decide) (by decide +kernel) stray⟩

end Session

end BoundaryTag
