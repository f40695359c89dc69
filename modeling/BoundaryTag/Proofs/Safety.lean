import BoundaryTag.Proofs.Auditing
import BoundaryTag.Proofs.Reading
import BoundaryTag.Proofs.Sessions

/-! Safety.  Whatever its clients have done to a heap, the next thing that they ask for comes to an
end: no word is read outside the region, no sum leaves the range of offsets, no assertion fails and
no walk goes on for ever.  A fault stands for each of these, so it is enough that there is a result.
Two bounds are no faults in the operations: the counter of free blocks, and the room that a region
has left, which is a difference.  They are invariants of their own. -/

namespace BoundaryTag

namespace Heap

def Within (h : Heap) : Prop := h.size ≤ h.region.backing.bound

end Heap

namespace Machine

variable {m n : Machine} {blocks new : List Block} {nodes : List Nat} {b : Block}
  {count wanted growth target : Nat} {reply : Option Payload} {segment : Segment}

theorem bound_of_grant (within : m.heap.Within) (granted : m.grant growth = .ok segment) :
    m.heap.size + growth ≤ m.heap.region.backing.bound := by
  have room := Region.le_available_of_reserve (size_le_of_grant granted).2
  change m.heap.size ≤ _ at within
  change growth ≤ m.heap.region.backing.bound - m.heap.size at room
  omega

theorem Stays.within (stays : m.Stays n) (within : m.heap.Within) : n.heap.Within := by
  rw [Heap.Within, stays.size, stays.backing]
  exact within

theorem Serves.within (serves : m.Serves n blocks nodes wanted growth target new)
    (within : m.heap.Within) : n.heap.Within := by
  have granted := serves.granted
  rw [Heap.Within, serves.size, serves.backing]
  split at granted
  · rename_i nothing
    rw [nothing]
    exact within
  · exact bound_of_grant within granted.2

theorem Allots.within (allots : m.Allots blocks nodes count reply n) (within : m.heap.Within) :
    n.heap.Within := by
  cases allots with
  | denied heap =>
    rw [heap]
    exact within
  | served _ _ _ serves => exact serves.within within

theorem Moves.within (moves : m.Moves blocks nodes b count reply n) (within : m.heap.Within) :
    n.heap.Within := by
  cases moves with
  | denied heap =>
    rw [heap]
    exact within
  | served _ _ _ serves _ stays => exact stays.within (serves.within within)

theorem resize_within (settled : m.heap.Settled blocks nodes) (mem : b ∈ blocks)
    (live : b.allocated = true) (within : m.heap.Within) (count : Nat) :
    ∃ reply n, resize (some ⟨b.payload⟩) count m = .ok reply n ∧ n.heap.Within := by
  rcases Nat.eq_zero_or_pos count with rfl | positive
  · obtain ⟨n, _, _, ran, _, _, stays, _⟩ := releases settled mem live
    exact ⟨none, n, (resize_zero settled _).trans (bind_of_ok ran), stays.within within⟩
  obtain ⟨l₁, l₂, rfl⟩ := List.append_of_mem mem
  cases adjusted : adjustedSize count with
  | none => exact ⟨none, _, resize_tooLarge settled positive _ adjusted, within⟩
  | some wanted =>
    by_cases outgrown : m.heap.config.inPlaceResize = true → b.Outgrown wanted l₂
    · obtain ⟨reply, n, ran, moves⟩ := resize_away settled live positive adjusted outgrown
      exact ⟨reply, n, ran, moves.within within⟩
    · obtain ⟨allowed, room⟩ := Classical.not_imp.1 outgrown
      obtain ⟨run, fits⟩ := Option.ne_none_iff_exists'.1 (mt Block.refit_eq_none_iff.1 room)
      obtain ⟨n, _, ran, _, stays, _⟩ := resize_here settled live positive adjusted allowed fits
      exact ⟨_, n, ran, stays.within within⟩

theorem within_founded (blank : m.heap.Blank)
    (granted : m.heap.region.reserve 16 m.segment = .ok segment) :
    (m.founded segment).heap.Within := by
  have room := Region.le_available_of_reserve granted
  have empty := blank.size
  rw [Heap.Within, size_founded segment blank.size]
  change 16 ≤ m.heap.region.backing.bound
  change 16 ≤ m.heap.region.backing.bound - m.heap.size at room
  omega

theorem init_within (blank : m.heap.Blank) (within : m.heap.Within) :
    ∃ result n, init m = .ok result n ∧ n.heap.Within := by
  cases valid : m.heap.config.isValid with
  | false => exact ⟨_, m, init_invalid blank.initialized valid, within⟩
  | true =>
    cases granted : m.heap.region.reserve 16 m.segment with
    | error error => exact ⟨_, m, init_refused blank.initialized valid granted, within⟩
    | ok segment =>
      have first := within_founded blank granted
      cases seeded : (m.founded segment).grant m.heap.config.chunk with
      | error error =>
        refine ⟨.error error, m.founded segment, ?_, first⟩
        rw [init_eq blank.initialized blank.size valid granted, seeded]
      | ok grown =>
        obtain ⟨n, ran, settled, _, backing, _⟩ := run_init blank valid granted seeded
        have bound := bound_of_grant first seeded
        rw [size_founded segment blank.size] at bound
        refine ⟨_, n, ran, ?_⟩
        rw [Heap.Within, settled.keeps.spelt.tiled.stop_eq, backing]
        exact bound

end Machine

structure Session.Safe (s : Session) : Prop where
  allocates : ∀ count, ∃ reply m, Machine.allocate count s.machine = .ok reply m
  releases : ∀ p, s.Live p → ∃ m, Machine.release p s.machine = .ok () m
  resizes : ∀ p count, (∀ q ∈ p, s.Live q) →
    ∃ reply m, Machine.resize p count s.machine = .ok reply m
  measures : ∀ p, s.Live p → ∃ size, s.machine.heap.payloadSize p = .ok size
  reads : ∀ p, s.Live p → ∃ data, s.machine.heap.payload p = .ok data
  walks : ∃ views, s.machine.heap.blocks = .ok views ∧ ∀ count,
    s.machine.heap.walkSteps count s.machine.heap.walkStart =
      .ok ((List.range count).map (views[·]?))
  lists : ∃ nodes, s.machine.heap.freeList = .ok nodes
  audits : ∃ report, s.machine.heap.audit = .ok report ∧
    Heap.firstBlock + report.freeBytes + report.allocatedBytes = s.machine.heap.size
  counts : Heap.firstBlock + minBlock * s.machine.heap.freeBlocks ≤ s.machine.heap.size
  within : s.machine.heap.Within

namespace Session

variable {s : Session} {blocks : List Block} {nodes : List Nat}

theorem perform_within (sound : s.Sound) (within : s.machine.heap.Within) {request : Request}
    (admitted : s.Admits request) :
    ∃ reply m, request.perform s.machine = .ok reply m ∧ m.heap.Within := by
  cases sound with
  | blank blank vacant =>
    cases admits_blank blank vacant admitted
    obtain ⟨result, m, ran, within'⟩ := Machine.init_within blank within
    exact ⟨_, m, Machine.bind_of_ok ran, within'⟩
  | settled settled accounts =>
    cases request with
    | init =>
      have ran := Machine.init_again settled.initialized
      exact ⟨_, _, Machine.bind_of_ok ran, within⟩
    | allocate count =>
      obtain ⟨reply, m, ran, allots⟩ := Machine.run_allocate settled count
      exact ⟨_, m, Machine.bind_of_ok ran, allots.within within⟩
    | release p =>
      obtain ⟨b, mem, live, rfl⟩ := exists_live accounts admitted
      obtain ⟨m, _, _, ran, _, _, stays, _⟩ := Machine.releases settled mem live
      exact ⟨_, m, Machine.bind_of_ok ran, stays.within within⟩
    | resize p count =>
      cases p with
      | none =>
        obtain ⟨reply, m, ran, allots⟩ := Machine.run_allocate settled count
        rw [← Machine.resize_none settled] at ran
        exact ⟨_, m, Machine.bind_of_ok ran, allots.within within⟩
      | some p =>
        obtain ⟨b, mem, live, rfl⟩ := exists_live accounts admitted
        obtain ⟨reply, m, ran, within'⟩ := Machine.resize_within settled mem live within count
        exact ⟨_, m, Machine.bind_of_ok ran, within'⟩
    | write p start data =>
      obtain ⟨b, mem, live, rfl, room⟩ := exists_room settled accounts admitted
      have ran := Machine.run_writePayload settled mem live room
      refine ⟨_, _, Machine.bind_of_ok ran, ?_⟩
      rw [Heap.Within, Heap.size_overwritten]
      exact within

theorem within_of_reachable (reachable : s.Reachable) : s.machine.heap.Within := by
  induction reachable with
  | start backing config segment => exact Nat.zero_le _
  | step reachable step ih =>
    cases step with
    | request admitted ran =>
      obtain ⟨reply, m, ran', within⟩ :=
        perform_within (sound_of_reachable reachable) ih admitted
      cases ran.symm.trans ran'
      exact within
    | disturbance segment => exact ih

theorem safe_of_reachable (reachable : s.Reachable)
    (used : s.machine.heap.initialized = true) : s.Safe := by
  have within := within_of_reachable reachable
  cases sound_of_reachable reachable with
  | blank blank => simp [blank.initialized] at used
  | @settled blocks nodes settled accounts =>
    refine ⟨?_, ?_, ?_, ?_, ?_, ?_, ?_, ?_, ?_, within⟩
    · intro count
      obtain ⟨reply, m, ran, _⟩ := Machine.run_allocate settled count
      exact ⟨reply, m, ran⟩
    · intro p held
      obtain ⟨b, mem, live, rfl⟩ := exists_live accounts held
      obtain ⟨m, _, _, ran, _⟩ := Machine.releases settled mem live
      exact ⟨m, ran⟩
    · intro p count held
      cases p with
      | none =>
        obtain ⟨reply, m, ran, _⟩ := Machine.run_allocate settled count
        exact ⟨reply, m, (Machine.resize_none settled count).trans ran⟩
      | some p =>
        obtain ⟨b, mem, live, rfl⟩ := exists_live accounts (held p rfl)
        obtain ⟨reply, m, ran, _⟩ := Machine.resize_within settled mem live within count
        exact ⟨reply, m, ran⟩
    · intro p held
      obtain ⟨b, mem, live, rfl⟩ := exists_live accounts held
      exact ⟨_, Heap.payloadSize_eq settled mem live⟩
    · intro p held
      obtain ⟨b, mem, live, rfl⟩ := exists_live accounts held
      exact ⟨_, Heap.payload_eq settled mem live⟩
    · obtain ⟨views, walked, _⟩ := Heap.blocksFrom_eq [] settled.keeps.spelt
      refine ⟨views, (if_pos used).trans walked, fun count => ?_⟩
      rw [Heap.walkStart, if_pos used]
      exact Heap.walkSteps_eq walked count
    · obtain ⟨nodes, read, _⟩ := Heap.exists_freeList settled.keeps
      exact ⟨nodes, read⟩
    · exact settled.exists_report
    · have counted := settled.keeps.counted
      have room := settled.keeps.spelt.tiled.length_le
      have fewer : (Block.free blocks).length ≤ blocks.length := List.length_filter_le _ _
      simp only [minBlock]
      omega

theorem safe_sample : (sample (.explicitList .addressOrdered)).machine.heap.initialized = true ∧
    (sample (.explicitList .addressOrdered)).Safe :=
  ⟨by decide +kernel, safe_of_reachable (reachable_sample _) (by decide +kernel)⟩

end Session

end BoundaryTag
