import BoundaryTag.Proofs.Concurring
import BoundaryTag.Proofs.Lending
import BoundaryTag.Proofs.Sessions

namespace BoundaryTag

namespace Block

variable {b : Block} {wanted : Nat} {above : List Block}

def Stretches (b : Block) (wanted : Nat) (above : List Block) : Prop :=
  wanted ≤ b.size ∨ ∃ c ∈ above.head?, c.allocated = false ∧ wanted ≤ b.size + c.size

theorem stretches_iff : b.Stretches wanted above ↔ ¬b.Outgrown wanted above := by
  constructor
  · rintro (enough | ⟨c, next, free, enough⟩) ⟨short, blocked⟩
    · omega
    · rcases blocked c next with live | narrow
      · simp [free] at live
      · omega
  · intro room
    by_cases enough : wanted ≤ b.size
    · exact .inl enough
    · have short : b.size < wanted := by omega
      obtain ⟨c, blocked⟩ := Classical.not_forall.1 fun blocked => room ⟨short, blocked⟩
      obtain ⟨next, open'⟩ := Classical.not_imp.1 blocked
      obtain ⟨free, wide⟩ := not_or.1 open'
      exact .inr ⟨c, next, by simpa using free, by omega⟩

end Block

namespace Machine

variable {m n : Machine} {blocks l₁ l₂ : List Block} {b : Block} {nodes : List Nat} {count : Nat}
  {reply : Option Payload}

def Fits (m : Machine) (b : Block) (above : List Block) (count : Nat) : Prop :=
  m.heap.config.inPlaceResize = true ∧
    ∃ wanted, adjustedSize count = some wanted ∧ b.Stretches wanted above

theorem Moves.eq_none_iff (settled : m.heap.Settled blocks nodes)
    (moves : m.Moves blocks nodes b count reply n) :
    reply = none ↔ ∃ k, allocate count m = .ok none k := by
  obtain ⟨reply', k, ran, allots⟩ := run_allocate settled count
  cases moves with
  | denied _ _ denies =>
    cases allots with
    | denied => exact ⟨fun _ => ⟨k, ran⟩, fun _ => rfl⟩
    | served positive adjusted _ serves =>
      exact absurd denies ((Concurs.refl settled).not_denies positive adjusted serves)
  | served positive adjusted _ serves =>
    cases allots with
    | denied _ _ denies =>
      exact absurd denies ((Concurs.refl settled).not_denies positive adjusted serves)
    | served =>
      constructor
      · rintro ⟨⟩
      · rintro ⟨_, refused⟩
        cases ran.symm.trans refused

theorem resize_outcome (settled : m.heap.Settled (l₁ ++ b :: l₂) nodes)
    (live : b.allocated = true) (positive : 0 < count) :
    ∃ reply n, resize (some ⟨b.payload⟩) count m = .ok reply n ∧
      (reply = some ⟨b.payload⟩ ↔ m.Fits b l₂ count) ∧
      (reply = none ↔ adjustedSize count = none ∨
        ¬m.Fits b l₂ count ∧ ∃ k, allocate count m = .ok none k) := by
  cases adjusted : adjustedSize count with
  | none =>
    have unfit : ¬m.Fits b l₂ count := by
      rintro ⟨_, wanted, fits, _⟩
      cases adjusted.symm.trans fits
    exact ⟨none, _, resize_tooLarge settled positive _ adjusted, by simp [unfit], by simp⟩
  | some wanted =>
    have fits_iff : m.Fits b l₂ count ↔
        ¬(m.heap.config.inPlaceResize = true → b.Outgrown wanted l₂) := by
      rw [Classical.not_imp, ← Block.stretches_iff]
      simp [Fits, adjusted]
    by_cases outgrown : m.heap.config.inPlaceResize = true → b.Outgrown wanted l₂
    · have unfit : ¬m.Fits b l₂ count := fun fits => fits_iff.1 fits outgrown
      obtain ⟨reply, n, ran, moves⟩ := resize_away settled live positive adjusted outgrown
      refine ⟨reply, n, ran, ?_, by simpa [unfit] using moves.eq_none_iff settled⟩
      refine ⟨?_, fun fits => absurd fits unfit⟩
      rintro rfl
      cases moves with
      | served _ _ _ serves =>
        exact absurd rfl (serves.allocates.fresh settled.keeps.spelt.tiled (by simp) live)
    · have fits : m.Fits b l₂ count := fits_iff.2 outgrown
      obtain ⟨allowed, room⟩ := Classical.not_imp.1 outgrown
      obtain ⟨run, refitted⟩ := Option.ne_none_iff_exists'.1 (mt Block.refit_eq_none_iff.1 room)
      obtain ⟨n, _, ran, _⟩ := resize_here settled live positive adjusted allowed refitted
      exact ⟨_, n, ran, by simp [fits], by simp [fits]⟩

end Machine

namespace Session

variable {s : Session} {blocks : List Block} {nodes : List Nat} {b : Block} {count : Nat}

structure Replaces (s : Session) (b : Block) (q : Payload) (count : Nat) (m : Machine) : Prop where
  sized : ∃ size, m.heap.payloadSize q = .ok size ∧ count ≤ size
  carried : ∃ data data', s.machine.heap.payload ⟨b.payload⟩ = .ok data ∧
    m.heap.payload q = .ok data' ∧
    data'.extract 0 (min (b.size - 8) count) = data.extract 0 (min (b.size - 8) count)
  lent : ∀ bp, m.heap.Lends bp ↔ bp = q.offset ∨ s.machine.heap.Lends bp ∧ bp ≠ b.payload
  spared : ∀ r : Payload, s.machine.heap.Lends r.offset → r.offset ≠ b.payload →
    m.heap.payloadSize r = s.machine.heap.payloadSize r ∧
      m.heap.payload r = s.machine.heap.payload r

structure Retains (s : Session) (b : Block) (above : List Block) (count : Nat)
    (reply : Option Payload) (m : Machine) : Prop where
  replaced : ∀ q ∈ reply, s.Replaces b q count m
  stayed : reply = some ⟨b.payload⟩ ↔ s.machine.Fits b above count
  refused : reply = none ↔ adjustedSize count = none ∨
    ¬s.machine.Fits b above count ∧ ∃ n, Machine.allocate count s.machine = .ok none n

theorem replaces_of_resized (settled : s.machine.heap.Settled blocks nodes) (mem : b ∈ blocks)
    (live : b.allocated = true) {q : Payload} {m : Machine}
    (resized : s.machine.Resized blocks b count (some q) m) : s.Replaces b q count m := by
  have lent := resized.lends_iff settled
  cases resized with
  | @served _ _ wanted _ new nodes' adjusted settled' _ resizes _ _ preserves carries =>
    obtain ⟨large, even, _, enough⟩ := adjustedSize_bounds adjusted
    obtain ⟨size, sized, left⟩ :=
      resizes.live_iff settled.keeps.spelt.tiled settled.coalesced large even
    have there : (⟨q.offset, size, true⟩ : Block) ∈ new := (left _ rfl).2 (.inr rfl)
    have bounds := settled.keeps.spelt.bounds mem
    have bounds' := settled'.keeps.spelt.bounds there
    have measured := Heap.payloadSize_eq settled' there rfl
    have viewed := Heap.payload_eq settled' there rfl
    simp only at bounds'
    refine ⟨⟨_, measured, by simp only; omega⟩, ?_, lent, ?_⟩
    · refine ⟨_, _, Heap.payload_eq settled mem live, viewed, ?_⟩
      rw [Memory.extract_slice _ (by simp only; omega), Memory.extract_slice _ (by omega)]
      have fits : b.payload + min (b.size - 8) count ≤ s.machine.heap.size := by omega
      have fits' : q.offset + min (b.size - 8) count ≤ m.heap.size := by omega
      exact Memory.slice_congr fits fits' carries
    · rintro ⟨_⟩ held other
      obtain ⟨c, old, live', rfl⟩ := (settled.lends_iff _).1 held
      have new := (left c live').2 (.inl ⟨old, other⟩)
      refine ⟨?_, (preserves c old live' other).payload_eq settled settled' old new live'⟩
      rw [Heap.payloadSize_eq settled' new live', Heap.payloadSize_eq settled old live']

theorem retains_of_reachable (reachable : s.Reachable) {p : Payload} (held : s.Live p)
    (positive : 0 < count) :
    ∃ before b above reply m, s.machine.heap.layout = .ok (before ++ b :: above) ∧
      b.allocated = true ∧ p = ⟨b.payload⟩ ∧
      Machine.resize (some p) count s.machine = .ok reply m ∧ s.Retains b above count reply m := by
  cases sound_of_reachable reachable with
  | blank _ vacant => exact absurd held (not_live vacant p)
  | settled settled accounts =>
    obtain ⟨b, mem, live, rfl⟩ := exists_live accounts held
    obtain ⟨before, above, rfl⟩ := List.append_of_mem mem
    obtain ⟨reply, m, ran, resized⟩ := Machine.run_resize settled mem live positive
    obtain ⟨_, _, ran', stayed, refused⟩ := Machine.resize_outcome settled live positive
    cases ran.symm.trans ran'
    refine ⟨before, b, above, reply, m, Heap.layout_eq settled.initialized settled.keeps.spelt,
      live, rfl, ran, ?_, stayed, refused⟩
    rintro q rfl
    exact replaces_of_resized settled mem live resized

theorem retains_sample : (sample .nextFit).Live ⟨48⟩ ∧ ∃ before b above m,
    (sample .nextFit).machine.heap.layout = .ok (before ++ b :: above) ∧
      Machine.resize (some ⟨48⟩) 25 (sample .nextFit).machine = .ok (some ⟨64⟩) m ∧
      (sample .nextFit).Retains b above 25 (some ⟨64⟩) m := by
  have held : (sample .nextFit).Live ⟨48⟩ := by decide +kernel
  obtain ⟨before, b, above, reply, m, walked, _, _, ran, retains⟩ :=
    retains_of_reachable (reachable_sample .nextFit) held (by decide : 0 < 25)
  have answered : outcome (Machine.resize (some ⟨48⟩) 25 (sample .nextFit).machine) =
      some (some ⟨64⟩, 120) := by decide +kernel
  obtain ⟨_, ran', _⟩ := exists_of_outcome answered
  cases ran.symm.trans ran'
  exact ⟨held, before, b, above, m, walked, ran', retains⟩

end Session

end BoundaryTag
