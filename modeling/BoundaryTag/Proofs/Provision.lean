import BoundaryTag.Proofs.Reading
import BoundaryTag.Proofs.Sessions
import BoundaryTag.Proofs.Sharing

namespace BoundaryTag

/-- The region has `extra` bytes left.  In the segment it must also end at the break, and the system
must agree to move the break so far. -/
def Region.Grants (r : Region) (extra : Nat) (s : Segment) : Prop :=
  match r.backing with
  | .arena capacity => extra ≤ capacity - r.size
  | .segment base limit => extra ≤ limit - r.size ∧ extra ≤ maxStep ∧
      s.refuses s.top extra = false ∧ s.top = base + r.size

instance (r : Region) (extra : Nat) (s : Segment) : Decidable (r.Grants extra s) :=
  match kind : r.backing with
  | .arena capacity => decidable_of_iff (extra ≤ capacity - r.size) (by simp [Region.Grants, kind])
  | .segment base limit =>
    decidable_of_iff (extra ≤ limit - r.size ∧ extra ≤ Region.maxStep ∧
      s.refuses s.top extra = false ∧ s.top = base + r.size) (by simp [Region.Grants, kind])

namespace Region

variable {r : Region} {extra : Nat} {s : Segment}

theorem exists_reserve_iff_attempt :
    (∃ t, r.reserve extra s = .ok t) ↔ ∃ t, r.attempt extra s = (.ok (), t) := by
  refine exists_congr fun t => ⟨attempt_of_reserve, fun tried => ?_⟩
  rw [reserve, tried]
  rfl

theorem exists_reserve_iff : (∃ t, r.reserve extra s = .ok t) ↔ r.Grants extra s := by
  rw [exists_reserve_iff_attempt, Grants]
  cases kind : r.backing with
  | arena capacity =>
    have room : r.available = capacity - r.size := by rw [available, kind, Backing.bound]
    rw [attempt, kind, room]
    by_cases short : capacity - r.size < extra
    · simp [short]
    · simpa [short] using Nat.not_lt.1 short
  | segment base limit =>
    have based : r.base = base := by rw [Region.base, kind, Backing.base]
    have room : r.available = limit - r.size := by rw [available, kind, Backing.bound]
    have shared : r.backing = .segment r.base limit := by rw [based, kind]
    simp only [attempt_eq_ok_iff shared, room, stop, based, Segment.extend?]
    cases s.refuses s.top extra <;> simp

end Region

namespace Machine

variable {m n : Machine} {blocks : List Block} {nodes : List Nat} {count wanted extra : Nat}
  {reply : Option Payload}

theorem exists_grant_iff : (∃ segment, m.grant extra = .ok segment) ↔
    m.heap.size + extra ≤ Heap.maxRegion ∧ m.heap.region.Grants extra m.segment := by
  rw [← Region.exists_reserve_iff]
  constructor
  · rintro ⟨segment, granted⟩
    obtain ⟨narrow, reserved⟩ := size_le_of_grant granted
    exact ⟨narrow, segment, reserved⟩
  · rintro ⟨narrow, segment, reserved⟩
    refine ⟨segment, ?_⟩
    rw [grant, if_neg (Nat.not_lt.2 narrow), reserved]
    rfl

structure Provides (m : Machine) (blocks : List Block) (count : Nat) (reply : Option Payload)
    (n : Machine) : Prop where
  unfit : adjustedSize count = none → reply = none
  housed : ∀ wanted ∈ adjustedSize count,
    (∃ b ∈ blocks, b.allocated = false ∧ wanted ≤ b.size) →
      reply.isSome = true ∧ n.heap.size = m.heap.size
  grown : ∀ wanted ∈ adjustedSize count, (∀ b ∈ blocks, b.allocated = false → b.size < wanted) →
    (reply.isSome = true ↔ m.heap.size + max wanted m.heap.config.chunk ≤ Heap.maxRegion ∧
        m.heap.region.Grants (max wanted m.heap.config.chunk) m.segment) ∧
      (reply.isSome = true → n.heap.size = m.heap.size + max wanted m.heap.config.chunk)

section allots

variable (settled : m.heap.Settled blocks nodes) (positive : 0 < count)
  (adjusted : adjustedSize count = some wanted) (allots : m.Allots blocks nodes count reply n)
include settled positive adjusted allots

theorem Allots.housed (room : ∃ b ∈ blocks, b.allocated = false ∧ wanted ≤ b.size) :
    reply.isSome = true ∧ n.heap.size = m.heap.size := by
  have found : m.heap.candidate blocks nodes wanted ≠ none := by
    rw [Ne, Heap.candidate_eq_none_iff settled.keeps]
    obtain ⟨b, mem, free, enough⟩ := room
    exact fun small => Nat.not_lt.2 enough (small b mem free)
  cases allots with
  | denied heap segment denies => exact absurd (denies wanted positive adjusted).1 found
  | @served _ p other growth _ _ _ adjusted' _ serves =>
    cases adjusted.symm.trans adjusted'
    have chosen := serves.chosen
    split at chosen
    · rename_i still
      exact ⟨rfl, by rw [serves.size, still, Nat.add_zero]⟩
    · exact absurd chosen found

theorem Allots.grown (full : ∀ b ∈ blocks, b.allocated = false → b.size < wanted) :
    (reply.isSome = true ↔ ∃ segment, m.grant (m.heap.need wanted) = .ok segment) ∧
      (reply.isSome = true → n.heap.size = m.heap.size + m.heap.need wanted) := by
  have missing := (Heap.candidate_eq_none_iff settled.keeps).2 full
  cases allots with
  | denied heap segment denies =>
    obtain ⟨_, error, refused⟩ := denies wanted positive adjusted
    simp [refused]
  | @served _ p other growth _ _ _ adjusted' _ serves =>
    cases adjusted.symm.trans adjusted'
    have chosen := serves.chosen
    have granted := serves.granted
    split at chosen
    · cases missing.symm.trans chosen
    · rename_i moved
      rw [if_neg moved] at granted
      obtain ⟨rfl, granted⟩ := granted
      exact ⟨iff_of_true rfl ⟨_, granted⟩, fun _ => serves.size⟩

end allots

theorem Allots.provides (settled : m.heap.Settled blocks nodes) (positive : 0 < count)
    (allots : m.Allots blocks nodes count reply n) : m.Provides blocks count reply n := by
  refine ⟨fun unfit => ?_, fun wanted adjusted room => ?_, fun wanted adjusted full => ?_⟩
  · cases allots with
    | denied => rfl
    | served _ adjusted => cases unfit.symm.trans adjusted
  · exact allots.housed settled positive adjusted room
  · rw [← exists_grant_iff]
    exact allots.grown settled positive adjusted full

end Machine

namespace Session

variable {s : Session}

/-- Whatever has been done to a heap and under every strategy, a request is granted if and only if
there is a free block for it or growth is granted, and the heap grows only in the second case. -/
theorem provides_of_reachable (reachable : s.Reachable)
    (used : s.machine.heap.initialized = true) :
    ∃ blocks, s.machine.heap.layout = .ok blocks ∧ ∀ count, 0 < count →
      ∃ reply m, Machine.allocate count s.machine = .ok reply m ∧
        s.machine.Provides blocks count reply m := by
  cases sound_of_reachable reachable with
  | blank blank => simp [blank.initialized] at used
  | @settled blocks nodes settled accounts =>
    refine ⟨blocks, Heap.layout_eq used settled.keeps.spelt, fun count positive => ?_⟩
    obtain ⟨reply, m, ran, allots⟩ := Machine.run_allocate settled count
    exact ⟨reply, m, ran, allots.provides settled positive⟩

theorem provides_sample :
    (∃ reply m, Machine.allocate 424 (sample .firstFit).machine = .ok reply m ∧
      reply.isSome = true ∧ m.heap.size = 512) ∧
    ∃ reply m, Machine.allocate 425 (sample .firstFit).machine = .ok reply m ∧
      reply.isSome = false := by
  have spelt : (sample .firstFit).machine.heap.layout =
      .ok [⟨16, 32, false⟩, ⟨48, 16, true⟩, ⟨64, 16, false⟩] := by decide +kernel
  have size : (sample .firstFit).machine.heap.size = 80 := by decide +kernel
  have chunk : (sample .firstFit).machine.heap.config.chunk = 32 := by decide +kernel
  obtain ⟨blocks, walked, provides⟩ :=
    provides_of_reachable (reachable_sample .firstFit) (by decide +kernel)
  cases walked.symm.trans spelt
  obtain ⟨reply, m, ran, provided⟩ := provides 424 (by decide)
  obtain ⟨reply', m', ran', provided'⟩ := provides 425 (by decide)
  obtain ⟨granted, grown⟩ := provided.grown 432 (by decide) (by decide)
  obtain ⟨refused, _⟩ := provided'.grown 440 (by decide) (by decide)
  rw [size, chunk] at granted grown refused
  have served := granted.2 (by decide +kernel)
  refine ⟨⟨reply, m, ran, served, grown served⟩, reply', m', ran', ?_⟩
  exact Bool.eq_false_iff.2 (mt refused.1 (by decide +kernel))

end Session

end BoundaryTag
