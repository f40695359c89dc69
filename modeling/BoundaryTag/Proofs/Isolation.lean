import BoundaryTag.Proofs.Reading
import BoundaryTag.Proofs.Sessions

namespace BoundaryTag

/-- The bytes that the heap needs for itself: prologue, tags, links and epilogue. -/
inductive Block.Metadata (blocks : List Block) (nodes : List Nat) (top i : Nat) : Prop
  | opening (high : i < 12)
  | header {b : Block} (mem : b ∈ blocks) (low : b.payload ≤ i + 4) (high : i < b.payload)
  | footer {b : Block} (mem : b ∈ blocks) (low : b.payload + b.size ≤ i + 8)
      (high : i + 4 < b.payload + b.size)
  | link {n : Nat} (mem : n ∈ nodes) (low : n ≤ i) (high : i < n + 8)
  | closing (low : top ≤ i + 4)

def Session.Holds (s : Session) (p : Payload) (size : Nat) : Prop :=
  s.Live p ∧ s.machine.heap.payloadSize p = .ok size

structure Session.Isolated (s : Session) (blocks : List Block) (nodes : List Nat) : Prop where
  walked : s.machine.heap.layout = .ok blocks
  listed : s.machine.heap.freeList = .ok nodes
  aligned : ∀ p, s.Live p → p.offset % 8 = 0
  sized : ∀ p holding, s.ledger p.offset = some holding → 0 < holding.count ∧
    (s.Holds p (max 8 (alignUp holding.count)) ∨ s.Holds p (max 8 (alignUp holding.count) + 8))
  apart : ∀ p q size size', s.Holds p size → s.Holds q size' → p ≠ q →
    p.offset + size ≤ q.offset ∨ q.offset + size' ≤ p.offset
  clear : ∀ p size, s.Holds p size → ∀ i, p.offset ≤ i → i < p.offset + size →
    ¬Block.Metadata blocks nodes s.machine.heap.size i

namespace Block

variable {blocks : List Block} {nodes : List Nat} {b : Block} {top i : Nat}

theorem not_metadata (tiled : Tiles Heap.firstBlock blocks top)
    (free : Heap.FreeNodes nodes blocks) (mem : b ∈ blocks) (live : b.allocated = true)
    (owned : b.Owns i) : ¬Metadata blocks nodes top i := by
  have bounds := tiled.bounds mem
  have low : 16 ≤ Heap.firstBlock := Nat.le_refl _
  have covered := owned.covers
  obtain ⟨start, stop⟩ := owned
  intro metadata
  cases metadata with
  | opening high => omega
  | @header c mem' low high =>
    have bounds := tiled.bounds mem'
    cases tiled.eq_of_covers mem' mem ⟨low, by omega⟩ covered
    omega
  | @footer c mem' low high =>
    have bounds := tiled.bounds mem'
    cases tiled.eq_of_covers mem' mem ⟨by omega, high⟩ covered
    omega
  | @link n listed low high =>
    obtain ⟨c, mem', flag, rfl⟩ := free n listed
    have bounds := tiled.bounds mem'
    cases tiled.eq_of_covers mem' mem ⟨by omega, by omega⟩ covered
    simp [live] at flag
  | closing low => omega

end Block

namespace Session

variable {s : Session} {blocks : List Block} {nodes : List Nat}

section settled

variable (settled : s.machine.heap.Settled blocks nodes) (accounts : s.ledger.Accounts blocks)
include settled accounts

theorem Holds.exists_block {p : Payload} {size : Nat} (holds : s.Holds p size) :
    ∃ b ∈ blocks, b.allocated = true ∧ p = ⟨b.payload⟩ ∧ size + 8 = b.size := by
  obtain ⟨b, mem, live, rfl⟩ := exists_live accounts holds.1
  have bounds := settled.keeps.spelt.bounds mem
  have read := holds.2
  rw [Heap.payloadSize_eq settled mem live] at read
  cases read
  exact ⟨b, mem, live, rfl, by omega⟩

theorem isolated_of_settled : ∃ nodes', s.Isolated blocks nodes' := by
  have spelt := settled.keeps.spelt
  obtain ⟨nodes', listed, free⟩ := Heap.exists_freeList settled.keeps
  refine ⟨nodes', Heap.layout_eq settled.initialized spelt, listed, ?_, ?_, ?_, ?_⟩
  · intro p held
    obtain ⟨b, mem, _, rfl⟩ := exists_live accounts held
    exact (spelt.tiled.aligned rfl).2 b mem
  · intro p holding found
    obtain ⟨b, mem, live, here, ⟨positive, wanted, adjusted, sized⟩, _⟩ := accounts.held _ _ found
    have held : s.Live p := Option.isSome_iff_exists.2 ⟨holding, found⟩
    have read : s.machine.heap.payloadSize p = .ok (b.size - 8) := by
      have read := Heap.payloadSize_eq settled mem live
      rw [here] at read
      exact read
    obtain ⟨rfl, _⟩ := adjustedSize_eq adjusted
    refine ⟨positive, sized.imp (fun same => ⟨held, ?_⟩) fun same => ⟨held, ?_⟩⟩
    · rw [read, same]
      rfl
    · rw [read, same]
      rfl
  · intro p q size size' first second different
    obtain ⟨b, mem, _, rfl, sized⟩ := first.exists_block settled accounts
    obtain ⟨c, mem', _, rfl, sized'⟩ := second.exists_block settled accounts
    have other : b ≠ c := fun same => different (by rw [same])
    have apart := spelt.tiled.apart mem mem' other
    simp only
    omega
  · intro p size holds i low high
    obtain ⟨b, mem, live, rfl, sized⟩ := holds.exists_block settled accounts
    exact Block.not_metadata spelt.tiled free mem live ⟨low, by simp only at high; omega⟩

end settled

theorem isolated_of_vacant (unused : s.machine.heap.initialized = false)
    (headless : s.machine.heap.freeHead = none) (vacant : s.ledger = .empty) :
    s.Isolated [] [] := by
  have unheld := not_live vacant
  refine ⟨Heap.layout_blank unused, Heap.freeList_nil headless, ?_, ?_, ?_, ?_⟩
  · exact fun p held => absurd held (unheld p)
  · intro p holding found
    exact absurd (Option.isSome_iff_exists.2 ⟨holding, found⟩) (unheld p)
  · exact fun p _ _ _ first => absurd first.1 (unheld p)
  · exact fun p _ holds => absurd holds.1 (unheld p)

theorem Answers.bypasses {request : Request} {reply : Reply} {m : Machine} {new : List Block}
    {nodes' : List Nat} {b : Block} (answers : s.Answers blocks request reply m new nodes')
    (settled : s.machine.heap.Settled blocks nodes) (mem : b ∈ blocks) (live : b.allocated = true)
    (bypassed : request.Bypasses b.payload) :
    s.ledger.settle request reply b.payload = s.ledger b.payload ∧
      m.heap.payloadSize ⟨b.payload⟩ = s.machine.heap.payloadSize ⟨b.payload⟩ ∧
      m.heap.payload ⟨b.payload⟩ = s.machine.heap.payload ⟨b.payload⟩ := by
  obtain ⟨mem', preserves, kept⟩ := answers.bypassed b mem live bypassed
  refine ⟨kept, ?_, preserves.payload_eq settled answers.settled mem mem' live⟩
  rw [Heap.payloadSize_eq settled mem live, Heap.payloadSize_eq answers.settled mem' live]

/-- In every reachable session live payloads are isolated, and they are stable: each admitted
request is answered without touching those that it is not about. -/
theorem isolated_of_reachable (reachable : s.Reachable) :
    (∃ blocks nodes, s.Isolated blocks nodes) ∧
      ∀ request, s.Admits request → ∃ reply m, request.perform s.machine = .ok reply m ∧
        ∀ p, s.Live p → request.Bypasses p.offset →
          s.ledger.settle request reply p.offset = s.ledger p.offset ∧
            m.heap.payloadSize p = s.machine.heap.payloadSize p ∧
            m.heap.payload p = s.machine.heap.payload p := by
  cases sound_of_reachable reachable with
  | blank blank vacant =>
    refine ⟨⟨[], [], isolated_of_vacant blank.initialized blank.freeHead vacant⟩, ?_⟩
    intro request admitted
    obtain ⟨reply, m, ran, _⟩ := (Sound.blank blank vacant).perform admitted
    exact ⟨reply, m, ran, fun p held => absurd held (not_live vacant p)⟩
  | settled settled accounts =>
    obtain ⟨nodes', isolated⟩ := isolated_of_settled settled accounts
    refine ⟨⟨_, nodes', isolated⟩, fun request admitted => ?_⟩
    obtain ⟨reply, m, new, nodes', answers⟩ := exists_answer settled accounts admitted
    refine ⟨reply, m, answers.ran, fun p held bypassed => ?_⟩
    obtain ⟨b, mem, live, rfl⟩ := exists_live accounts held
    exact answers.bypasses settled mem live bypassed

theorem isolated_sample : (∃ blocks nodes, (sample .nextFit).Isolated blocks nodes) ∧
    ∃ reply m, Request.perform (.allocate 24) (sample .nextFit).machine = .ok reply m ∧
      m.heap.payload ⟨48⟩ = (sample .nextFit).machine.heap.payload ⟨48⟩ := by
  obtain ⟨isolated, stable⟩ := isolated_of_reachable (reachable_sample .nextFit)
  obtain ⟨reply, m, ran, kept⟩ := stable (.allocate 24) (by decide +kernel)
  exact ⟨isolated, reply, m, ran, (kept ⟨48⟩ (by decide +kernel) trivial).2.2⟩

end Session

end BoundaryTag
