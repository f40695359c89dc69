import BoundaryTag.Proofs.Sessions

namespace BoundaryTag

structure Session.Untouched (s : Session) (m : Machine) : Prop where
  heap : m.heap = s.machine.heap
  segment : m.segment = s.machine.segment

namespace Session

variable {s : Session} {blocks : List Block} {nodes : List Nat} {b : Block} {count : Nat}
  {m : Machine}

theorem untouched_of_allocate (settled : s.machine.heap.Settled blocks nodes)
    (refused : Machine.allocate count s.machine = .ok none m) : s.Untouched m := by
  obtain ⟨reply, n, ran, allots⟩ := Machine.run_allocate settled count
  cases refused.symm.trans ran
  cases allots with
  | denied heap segment _ => exact ⟨heap, segment⟩

theorem untouched_of_resize (settled : s.machine.heap.Settled blocks nodes) (mem : b ∈ blocks)
    (live : b.allocated = true) (positive : 0 < count)
    (refused : Machine.resize (some ⟨b.payload⟩) count s.machine = .ok none m) :
    s.Untouched m := by
  obtain ⟨reply, n, ran, resized⟩ := Machine.run_resize settled mem live positive
  cases refused.symm.trans ran
  cases resized with
  | denied heap segment => exact ⟨heap, segment⟩

/-- Whatever the reason, a request for a block that is refused changes nothing, and a payload that
could not be resized stays with its owner, byte for byte. -/
theorem atomic_of_reachable (reachable : s.Reachable)
    (used : s.machine.heap.initialized = true) :
    (∀ count m, Machine.allocate count s.machine = .ok none m → s.Untouched m) ∧
      ∀ p count m, s.Live p → 0 < count → Machine.resize (some p) count s.machine = .ok none m →
        s.Untouched m ∧ s.ledger.settle (.resize (some p) count) (.handed none) = s.ledger ∧
          ∃ data, s.machine.heap.payload p = .ok data ∧ m.heap.payload p = .ok data := by
  cases sound_of_reachable reachable with
  | blank blank => simp [blank.initialized] at used
  | settled settled accounts =>
    refine ⟨fun count m => untouched_of_allocate settled, ?_⟩
    intro p count m held positive refused
    obtain ⟨b, mem, live, rfl⟩ := exists_live accounts held
    have untouched := untouched_of_resize settled mem live positive refused
    refine ⟨untouched, (s.ledger.settle_resize positive _).1, _,
      Heap.payload_eq settled mem live, ?_⟩
    rw [untouched.heap]
    exact Heap.payload_eq settled mem live

def cornered : Session :=
  let s := (start (.segment 0 4096) ⟨32, .nextFit, true⟩ ⟨0, fun _ _ => false, fun _ => 255⟩).play
    [.init, .allocate 24, .write ⟨16⟩ 0 ⟨#[7]⟩]
  ⟨{ s.machine with segment := s.machine.segment.shift 8 }, s.ledger⟩

theorem reachable_cornered : cornered.Reachable := by
  refine .step ((Reachable.start _ _ _).play ?_) (.disturbance _ _)
  decide +kernel

def isRefused : EStateM.Result Fault Machine (Option Payload) → Bool
  | .ok none _ => true
  | _ => false

theorem exists_of_isRefused {result : EStateM.Result Fault Machine (Option Payload)}
    (refused : isRefused result = true) : ∃ m, result = .ok none m := by
  unfold isRefused at refused
  split at refused
  · exact ⟨_, rfl⟩
  · cases refused

theorem atomic_cornered : ∃ m n, Machine.allocate 64 cornered.machine = .ok none m ∧
    Machine.resize (some ⟨16⟩) 64 cornered.machine = .ok none n ∧
    cornered.Untouched m ∧ cornered.Untouched n := by
  have first : isRefused (Machine.allocate 64 cornered.machine) = true := by decide +kernel
  have second : isRefused (Machine.resize (some ⟨16⟩) 64 cornered.machine) = true := by
    decide +kernel
  obtain ⟨m, allocated⟩ := exists_of_isRefused first
  obtain ⟨n, resized⟩ := exists_of_isRefused second
  obtain ⟨first, second⟩ := atomic_of_reachable reachable_cornered (by decide +kernel)
  exact ⟨m, n, allocated, resized, first _ _ allocated,
    (second _ _ _ (by decide +kernel) (by decide) resized).1⟩

end Session

end BoundaryTag
