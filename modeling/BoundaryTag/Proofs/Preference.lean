import BoundaryTag.Proofs.Lending
import BoundaryTag.Proofs.Sessions

namespace BoundaryTag

def Block.Foremost (blocks : List Block) (wanted : Nat) (route : List Nat) (bp : Nat) : Prop :=
  ∃ before after, route = before ++ bp :: after ∧ suits blocks wanted bp = true ∧
    ∀ n ∈ before, suits blocks wanted n = false

theorem Block.find?_suits_iff {blocks : List Block} {wanted bp : Nat} {route : List Nat} :
    route.find? (suits blocks wanted) = some bp ↔ Foremost blocks wanted route bp := by
  rw [List.find?_eq_some_iff_append]
  constructor
  · rintro ⟨suited, before, after, split, unsuited⟩
    exact ⟨before, after, split, suited, fun n mem => by simpa using unsuited n mem⟩
  · rintro ⟨before, after, split, suited, unsuited⟩
    exact ⟨suited, before, after, split, fun n mem => by simp [unsuited n mem]⟩

namespace Heap

structure Prefers (h : Heap) (blocks : List Block) (nodes : List Nat) (wanted : Nat)
    (found : Option Nat) : Prop where
  foremost : ∀ bp, found = some bp ↔
    Block.Foremost blocks wanted (h.strategy.route h.cursor blocks nodes) bp
  missing : found = none ↔ ∀ b ∈ blocks, b.allocated = false → b.size < wanted

variable {h : Heap} {blocks : List Block} {nodes listed : List Nat}

theorem prefers_candidate (keeps : h.Keeps blocks nodes []) (wanted : Nat) :
    h.Prefers blocks nodes wanted (h.candidate blocks nodes wanted) :=
  ⟨fun _ => Block.find?_suits_iff, candidate_eq_none_iff keeps⟩

theorem route_eq (unlisted : h.strategy.usesList = false) :
    h.strategy.route h.cursor blocks listed = h.strategy.route h.cursor blocks nodes := by
  cases kind : h.strategy with
  | nextFit | firstFit => rfl
  | explicitList order => simp [usesList_of_kind kind] at unlisted

theorem exists_route (keeps : h.Keeps blocks nodes []) : ∃ listed, h.freeList = .ok listed ∧
    h.strategy.route h.cursor blocks listed = h.strategy.route h.cursor blocks nodes := by
  cases list : h.strategy.usesList with
  | true => exact ⟨nodes, freeList_eq keeps list, rfl⟩
  | false => exact ⟨[], freeList_nil (keeps.indexed.headless list), route_eq list⟩

end Heap

namespace Machine

variable {m n : Machine} {blocks : List Block} {nodes : List Nat} {count wanted : Nat}
  {reply : Option Payload}

theorem run_findFit (settled : m.heap.Settled blocks nodes) (wanted : Nat) :
    ∃ n, findFit wanted m = .ok (m.heap.candidate blocks nodes wanted) n := by
  cases found : m.heap.candidate blocks nodes wanted with
  | none => exact ⟨_, findFit_none settled.keeps settled.aims found⟩
  | some bp => exact ⟨_, findFit_some settled.keeps settled.aims found⟩

theorem Allots.unmoved_iff (allots : m.Allots blocks nodes count reply n) (positive : 0 < count)
    (adjusted : adjustedSize count = some wanted) (bp : Nat) :
    (reply = some ⟨bp⟩ ∧ n.heap.size = m.heap.size) ↔
      m.heap.candidate blocks nodes wanted = some bp := by
  cases allots with
  | denied heap segment denies => simp [(denies wanted positive adjusted).1]
  | @served _ p other growth _ _ _ adjusted' _ serves =>
    cases adjusted.symm.trans adjusted'
    rw [serves.chosen, serves.size]
    by_cases still : growth = 0
    · obtain ⟨target⟩ := p
      simp [still]
    · simp [still]

end Machine

namespace Session

variable {s : Session}

/-- Whatever has been done to a heap, a search finds the first block on the route of the strategy
that is large enough, and nothing just if there is none; and that block is the one that serves a
request for which the heap need not grow. -/
theorem prefers_of_reachable (reachable : s.Reachable)
    (used : s.machine.heap.initialized = true) :
    ∃ blocks nodes, s.machine.heap.layout = .ok blocks ∧
      (Block.payloads blocks).Pairwise (· < ·) ∧ s.machine.heap.freeList = .ok nodes ∧
      ∀ wanted, (∃ found m, Machine.findFit wanted s.machine = .ok found m ∧
          s.machine.heap.Prefers blocks nodes wanted found) ∧
        ∀ count, 0 < count → adjustedSize count = some wanted →
          ∃ reply m, Machine.allocate count s.machine = .ok reply m ∧
            (∀ p ∈ reply, m.heap.Lends p.offset) ∧
            ∀ bp, (reply = some ⟨bp⟩ ∧ m.heap.size = s.machine.heap.size) ↔
              Block.Foremost blocks wanted
                (s.machine.heap.strategy.route s.machine.heap.cursor blocks nodes) bp := by
  cases sound_of_reachable reachable with
  | blank blank => simp [blank.initialized] at used
  | @settled blocks nodes settled accounts =>
    obtain ⟨listed, read, same⟩ := Heap.exists_route settled.keeps
    have spelt := settled.keeps.spelt
    refine ⟨blocks, listed, Heap.layout_eq used spelt, spelt.tiled.ascending, read,
      fun wanted => ⟨?_, fun count positive adjusted => ?_⟩⟩
    · obtain ⟨m, ran⟩ := Machine.run_findFit settled wanted
      have prefers := Heap.prefers_candidate settled.keeps wanted
      exact ⟨_, m, ran, same ▸ prefers.foremost, prefers.missing⟩
    · obtain ⟨reply, m, ran, allots⟩ := Machine.run_allocate settled count
      refine ⟨reply, m, ran, fun p mem => ?_, fun bp => ?_⟩
      · exact (allots.lends_iff settled p.offset).2 (.inr ⟨p, mem, rfl⟩)
      · rw [allots.unmoved_iff positive adjusted bp, same]
        exact Block.find?_suits_iff

theorem prefers_sample : (sample .nextFit).machine.heap.cursor = 64 ∧ ∃ m,
    Machine.allocate 24 (sample .nextFit).machine = .ok (some ⟨16⟩) m ∧ m.heap.Lends 16 := by
  have cursor : (sample .nextFit).machine.heap.cursor = 64 := by decide +kernel
  have kind : (sample .nextFit).machine.heap.strategy = .nextFit := by decide +kernel
  have spelt : (sample .nextFit).machine.heap.layout =
      .ok [⟨16, 32, false⟩, ⟨48, 16, true⟩, ⟨64, 16, false⟩] := by decide +kernel
  obtain ⟨blocks, nodes, walked, _, _, prefers⟩ :=
    prefers_of_reachable (reachable_sample .nextFit) (by decide +kernel)
  cases walked.symm.trans spelt
  obtain ⟨reply, m, ran, lent, placed⟩ := (prefers 32).2 24 (by decide) (by decide)
  rw [kind, cursor] at placed
  obtain ⟨rfl, _⟩ := (placed 16).2 ⟨[64], [48], rfl, by decide, by decide⟩
  exact ⟨cursor, m, ran, lent _ rfl⟩

end Session

end BoundaryTag
