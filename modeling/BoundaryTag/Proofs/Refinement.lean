import BoundaryTag.Proofs.Reading
import BoundaryTag.Proofs.Sessions

namespace BoundaryTag.Session

variable {s : Session}

/-- Each admitted request takes the blocks that the tags spell to those that a transition of the
list leads to, and the region grows by as much as that transition says. -/
theorem refines_of_reachable (reachable : s.Reachable)
    (used : s.machine.heap.initialized = true) :
    ∃ old, s.machine.heap.layout = .ok old ∧ ∀ request, s.Admits request →
      ∃ reply m growth new, request.perform s.machine = .ok reply m ∧
        m.heap.layout = .ok new ∧ m.heap.size = s.machine.heap.size + growth ∧
        Transition s.machine.terms request reply growth old new := by
  cases sound_of_reachable reachable with
  | blank blank => simp [blank.initialized] at used
  | @settled blocks _ settled accounts =>
    refine ⟨blocks, Heap.layout_eq used settled.keeps.spelt, fun request admitted => ?_⟩
    obtain ⟨reply, m, new, _, answers⟩ := exists_answer settled accounts admitted
    obtain ⟨growth, grown, transition⟩ := answers.transition
    have read := Heap.layout_eq answers.settled.initialized answers.settled.keeps.spelt
    exact ⟨reply, m, growth, new, answers.ran, read, grown, transition⟩

/-- The block at 48 has no room for 25 bytes where it lies.  The heap grows, the block goes to the
new top, and the place that it leaves is merged with the free block below. -/
theorem refines_sample :
    Transition (sample (.explicitList .lifo)).machine.terms (.resize (some ⟨48⟩) 25)
      (.handed (some ⟨64⟩)) 40 [⟨16, 32, false⟩, ⟨48, 16, true⟩, ⟨64, 16, false⟩]
      [⟨16, 48, false⟩, ⟨64, 40, true⟩, ⟨104, 16, false⟩] := by
  -- one evaluation for all: each one runs the sample again
  obtain ⟨used, walked, held, answered, before, walked'⟩ :
      (sample (.explicitList .lifo)).machine.heap.initialized = true ∧
      (sample (.explicitList .lifo)).machine.heap.layout =
        .ok [⟨16, 32, false⟩, ⟨48, 16, true⟩, ⟨64, 16, false⟩] ∧
      (sample (.explicitList .lifo)).Admits (.resize (some ⟨48⟩) 25) ∧
      outcome (Machine.resize (some ⟨48⟩) 25 (sample (.explicitList .lifo)).machine) =
        some (some ⟨64⟩, 120) ∧
      (sample (.explicitList .lifo)).machine.heap.size = 80 ∧
      ((sample (.explicitList .lifo)).respond (.resize (some ⟨48⟩) 25)).machine.heap.layout =
        .ok [⟨16, 48, false⟩, ⟨64, 40, true⟩, ⟨104, 16, false⟩] := by decide +kernel
  obtain ⟨old, read, refines⟩ := refines_of_reachable (reachable_sample _) used
  cases read.symm.trans walked
  obtain ⟨reply, m, growth, new, ran, read', grown, transition⟩ := refines _ held
  obtain ⟨_, ran', size⟩ := exists_of_outcome answered
  cases ran.symm.trans (Machine.bind_of_ok ran')
  obtain rfl : growth = 40 := by omega
  have responded :
      ((sample (.explicitList .lifo)).respond (.resize (some ⟨48⟩) 25)).machine = m := by
    rw [respond, ran]
  rw [responded] at walked'
  cases read'.symm.trans walked'
  exact transition

end BoundaryTag.Session
