import BoundaryTag.Proofs.Growing

namespace BoundaryTag

theorem Region.reserve_of_lt {r : Region} {extra : Nat} (short : r.available < extra)
    (s : Segment) : r.reserve extra s = .error (.exhausted extra r.available) := by
  rw [reserve, attempt, if_pos short]
  rfl

namespace Machine

structure Spares (m n : Machine) : Prop where
  heap : n.heap = m.heap
  segment : n.segment = m.segment
  log : n.log = m.log
  again : ∀ segment log k,
    init (⟨n.heap, segment, log⟩ : Machine) ≠ .ok (.error .alreadyInitialized) k

structure Strands (m n : Machine) : Prop where
  initialized : n.heap.initialized = true
  size : n.heap.size = 16
  config : n.heap.config = m.heap.config
  cursor : n.heap.cursor = Heap.prologue
  freeHead : n.heap.freeHead = m.heap.freeHead
  freeBlocks : n.heap.freeBlocks = m.heap.freeBlocks
  log : n.log = m.log
  again : ∀ segment log,
    init (⟨n.heap, segment, log⟩ : Machine) =
      .ok (.error .alreadyInitialized) ⟨n.heap, segment, log⟩

/-- The bytes of the sentinels are granted, those of the first chunk are not. -/
def Halfway (m : Machine) : Prop :=
  ∃ segment error, m.heap.config.isValid = true ∧
    m.heap.region.reserve 16 m.segment = .ok segment ∧
    (m.founded segment).grant m.heap.config.chunk = .error error

inductive Fails (m : Machine) : HeapError → Machine → Prop
  | invalid (misfit : m.heap.config.isValid = false) :
    Fails m (.invalidChunk m.heap.config.chunk) m
  | refused {error : RegionError} (valid : m.heap.config.isValid = true)
    (refused : m.heap.region.reserve 16 m.segment = .error error) : Fails m (.region error) m
  | halfway {segment : Segment} {error : HeapError} (valid : m.heap.config.isValid = true)
    (granted : m.heap.region.reserve 16 m.segment = .ok segment)
    (refused : (m.founded segment).grant m.heap.config.chunk = .error error) :
    Fails m error (m.founded segment)

variable {m n : Machine} {error : HeapError}

theorem grant_error {extra : Nat} (refused : m.grant extra = .error error) :
    error = .tooLarge extra ∨ ∃ reason, error = .region reason := by
  rw [grant] at refused
  split at refused
  · cases refused
    exact .inl rfl
  · cases reserved : m.heap.region.reserve extra m.segment with
    | ok segment =>
      rw [reserved] at refused
      cases refused
    | error reason =>
      rw [reserved] at refused
      cases refused
      exact .inr ⟨reason, rfl⟩

theorem Fails.ne_again (fails : m.Fails error n) : error ≠ .alreadyInitialized := by
  cases fails with
  | invalid _ => simp
  | refused _ _ => simp
  | halfway _ _ refused => rcases grant_error refused with rfl | ⟨reason, rfl⟩ <;> simp

theorem init_eq_error_iff (fresh : m.heap.initialized = false) (empty : m.heap.size = 0) :
    init m = .ok (.error error) n ↔ m.Fails error n := by
  constructor
  · intro failed
    cases valid : m.heap.config.isValid with
    | false =>
      cases failed.symm.trans (init_invalid fresh valid)
      exact .invalid valid
    | true =>
      cases granted : m.heap.region.reserve 16 m.segment with
      | error reason =>
        cases failed.symm.trans (init_refused fresh valid granted)
        exact .refused valid granted
      | ok segment =>
        have opened := failed.symm.trans (init_eq fresh empty valid granted)
        cases seeded : (m.founded segment).grant m.heap.config.chunk with
        | error reason =>
          rw [seeded] at opened
          cases opened
          exact .halfway valid granted seeded
        | ok grown =>
          -- all that is left to do either succeeds or faults
          rw [seeded] at opened
          dsimp only at opened
          obtain ⟨_, _, _, opened⟩ := exists_of_bind opened.symm
          cases opened
  · intro fails
    cases fails with
    | invalid misfit => exact init_invalid fresh misfit
    | refused valid refused => exact init_refused fresh valid refused
    | halfway valid granted refused => rw [init_eq fresh empty valid granted, refused]

theorem spares_self (fresh : m.heap.initialized = false) (empty : m.heap.size = 0) :
    m.Spares m := by
  refine ⟨rfl, rfl, rfl, fun segment log k again => ?_⟩
  have fails := (init_eq_error_iff (m := ⟨m.heap, segment, log⟩) fresh empty).1 again
  exact fails.ne_again rfl

theorem strands_founded (segment : Segment) (empty : m.heap.size = 0) :
    m.Strands (m.founded segment) :=
  ⟨rfl, size_founded segment empty, rfl, rfl, rfl, rfl, rfl, fun _ _ => init_again rfl⟩

theorem Strands.not_spares (strands : m.Strands n) (fresh : m.heap.initialized = false) :
    ¬m.Spares n := by
  intro spares
  have both := (congrArg Heap.initialized spares.heap).symm.trans strands.initialized
  rw [fresh] at both
  cases both

theorem Halfway.strands (halfway : m.Halfway) (fresh : m.heap.initialized = false)
    (empty : m.heap.size = 0) : ∃ error n, init m = .ok (.error error) n ∧ m.Strands n := by
  obtain ⟨segment, error, valid, granted, refused⟩ := halfway
  exact ⟨error, _, (init_eq_error_iff fresh empty).2 (.halfway valid granted refused),
    strands_founded segment empty⟩

theorem init_spares_iff (fresh : m.heap.initialized = false) (empty : m.heap.size = 0)
    (failed : init m = .ok (.error error) n) : m.Spares n ↔ ¬m.Halfway := by
  constructor
  · intro spares halfway
    obtain ⟨_, k, again, strands⟩ := halfway.strands fresh empty
    cases failed.symm.trans again
    exact strands.not_spares fresh spares
  · intro whole
    cases (init_eq_error_iff fresh empty).1 failed with
    | invalid _ => exact spares_self fresh empty
    | refused _ _ => exact spares_self fresh empty
    | halfway valid granted refused => exact absurd ⟨_, _, valid, granted, refused⟩ whole

def bare (capacity chunk : Nat) : Machine :=
  ⟨.ofRegion (.arena capacity) ⟨chunk, .nextFit, true⟩, ⟨0, fun _ _ => false, fun _ => 255⟩, #[]⟩

theorem init_spares_cramped : ∃ error n, init (bare 8 256) = .ok (.error error) n ∧
    ((bare 8 256).Spares n ↔ ¬(bare 8 256).Halfway) :=
  have failed : init (bare 8 256) = .ok (.error (.region (.exhausted 16 8))) (bare 8 256) := rfl
  ⟨_, _, failed, init_spares_iff rfl rfl failed⟩

theorem not_spares_cramped : ∃ n,
    init (bare 128 256) = .ok (.error (.region (.exhausted 256 112))) n ∧
    n.heap.initialized = true ∧ n.heap.size = 16 ∧
    init n = .ok (.error .alreadyInitialized) n ∧ ¬(bare 128 256).Spares n := by
  let founded := (bare 128 256).founded ⟨0, fun _ _ => false, fun _ => 255⟩
  have size : founded.heap.size = 16 := size_founded _ rfl
  have available : founded.heap.region.available = 112 := congrArg (128 - ·) size
  have refused : founded.grant 256 = .error (.region (.exhausted 256 112)) := by
    rw [grant, size, if_neg (by decide), Region.reserve_of_lt (by rw [available]; decide),
      available]
    rfl
  have strands : (bare 128 256).Strands founded := strands_founded _ rfl
  exact ⟨founded, (init_eq_error_iff rfl rfl).2 (.halfway rfl rfl refused), strands.initialized,
    size, init_again rfl, strands.not_spares rfl⟩

end Machine

end BoundaryTag
