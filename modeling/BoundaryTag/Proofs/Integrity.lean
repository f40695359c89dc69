import BoundaryTag.Proofs.Reading
import BoundaryTag.Proofs.Sessions

namespace BoundaryTag

structure Heap.Intact (h : Heap) (blocks : List Block) (nodes : List Nat) : Prop where
  walked : h.layout = .ok blocks
  tiled : Block.Tiles firstBlock blocks h.size
  sized : ∀ b ∈ blocks, 16 ≤ b.size ∧ b.size % 8 = 0
  tagged : ∀ b ∈ blocks, ∃ tag : Tag, h.tag b.payload = .ok tag ∧
    h.prevTag (b.payload + b.size) = .ok tag ∧ tag.size = b.size ∧ tag.allocated = b.allocated
  coalesced : Block.Coalesced blocks
  opened : h.tag prologue = .ok .prologue ∧ h.prevTag firstBlock = .ok .prologue
  closed : h.tag h.size = .ok .epilogue
  counted : h.freeBlocks = (Block.free blocks).length
  listed : h.strategy.usesList = true → h.freeList = .ok nodes ∧ nodes.Nodup ∧
    nodes.Perm (Block.payloads (Block.free blocks))
  linked : h.strategy.usesList = true → ∀ before n after, nodes = before ++ n :: after →
    h.links n = .ok ⟨after.head?, before.getLast?⟩
  ascending : h.strategy = .explicitList .addressOrdered → nodes.Pairwise (· < ·)
  aimed : h.strategy = .nextFit →
    h.cursor = prologue ∨ h.cursor ∈ Block.payloads blocks ∨ h.cursor = h.size

theorem Heap.Settled.intact {h : Heap} {blocks : List Block} {nodes : List Nat}
    (settled : h.Settled blocks nodes) : h.Intact blocks nodes := by
  have spelt := settled.keeps.spelt
  have indexed := settled.keeps.indexed
  refine ⟨layout_eq settled.initialized spelt, spelt.tiled, ?_, fun b mem => spelt.bothTags mem,
    settled.coalesced, spelt.firstTags, spelt.topTag, settled.keeps.counted, ?_, ?_,
    indexed.ascending, ?_⟩
  · intro b mem
    have bounds := spelt.bounds mem
    exact ⟨bounds.2.2.1, bounds.2.2.2.1⟩
  · exact fun list => ⟨freeList_eq settled.keeps list, indexed.distinct, settled.keeps.perm⟩
  · intro list before n after split
    exact links_of_threads (spelt.roomy settled.keeps.freeNodes) (indexed.threaded list) split
  · exact fun resumes => (settled.aims resumes).imp_right Or.symm

/-- After any run, whatever the regions refused and wherever others moved the break, clients are
answered and the heap, once laid out, is intact. -/
theorem Session.intact_of_reachable {s : Session} (reachable : s.Reachable) :
    (∀ request, s.Admits request → ∃ reply m, request.perform s.machine = .ok reply m) ∧
      (s.machine.heap.initialized = true →
        ∃ blocks nodes, s.machine.heap.Intact blocks nodes) := by
  have sound := sound_of_reachable reachable
  constructor
  · intro request admitted
    obtain ⟨reply, m, ran, _⟩ := sound.perform admitted
    exact ⟨reply, m, ran⟩
  · intro used
    cases sound with
    | blank blank => simp [blank.initialized] at used
    | settled settled => exact ⟨_, _, settled.intact⟩

theorem Session.intact_sample :
    (sample (.explicitList .addressOrdered)).machine.heap.layout =
        .ok [⟨16, 32, false⟩, ⟨48, 16, true⟩, ⟨64, 16, false⟩] ∧
      ∃ blocks nodes, (sample (.explicitList .addressOrdered)).machine.heap.Intact blocks nodes :=
  ⟨by decide +kernel, (intact_of_reachable (reachable_sample _)).2 (by decide +kernel)⟩

end BoundaryTag
