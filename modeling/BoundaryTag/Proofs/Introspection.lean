import BoundaryTag.Proofs.Auditing
import BoundaryTag.Proofs.Isolation

namespace BoundaryTag

namespace Heap

/-- What the ways to look at a heap show: the walk shows `views`, the audit `report`, and the free
list `nodes`. -/
structure Reveals (h : Heap) (views : List BlockView) (report : Report) (nodes : List Nat) :
    Prop where
  walked : h.blocks = .ok views
  stepped : ∀ count, h.walkSteps count h.walkStart = .ok ((List.range count).map (views[·]?))
  tiled : Block.Tiles firstBlock (views.map (·.toBlock)) h.size
  ascending : (Block.payloads (views.map (·.toBlock))).Pairwise (· < ·)
  audited : h.audit = .ok report
  counted : h.freeBlocks = (Block.free (views.map (·.toBlock))).length
  reported : report.freeBlocks = h.freeBlocks
  freeBytes : report.freeBytes = Block.totalSize (Block.free (views.map (·.toBlock)))
  allocatedBytes : report.allocatedBytes =
    Block.totalSize ((views.map (·.toBlock)).filter (·.allocated))
  listed : h.freeList = .ok nodes
  unlinked : ∀ v ∈ views, v.allocated = true → v.links = none
  linked : h.strategy.usesList = true →
    nodes.Perm (Block.payloads (Block.free (views.map (·.toBlock)))) ∧
      ∀ v ∈ views, v.allocated = false → ∃ before after, nodes = before ++ v.payload :: after ∧
        v.links = some ⟨after.head?, before.getLast?⟩
  unlisted : h.strategy.usesList = false → nodes = [] ∧ ∀ v ∈ views, v.links = none

variable {h : Heap} {blocks : List Block} {nodes : List Nat} {views : List BlockView}
  {v : BlockView} {bp : Nat}

theorem blockAt?_eq_some (read : h.blockAt? bp = .ok (some v)) : v.payload = bp ∧
    ∃ tag : Tag, tag.allocated = v.allocated ∧ h.viewLinks bp tag = .ok v.links := by
  simp only [blockAt?, bind_eq_ok_iff] at read
  obtain ⟨tag, _, read⟩ := read
  split at read
  · cases read
  · obtain ⟨links, viewed, same⟩ := bind_eq_ok_iff.1 read
    cases same
    exact ⟨rfl, tag, rfl, viewed⟩

theorem viewLinks_of_mem (walked : h.blocksFrom bp = .ok views) (mem : v ∈ views) :
    ∃ tag : Tag, tag.allocated = v.allocated ∧ h.viewLinks v.payload tag = .ok v.links := by
  induction views generalizing bp with
  | nil => cases mem
  | cons w rest ih =>
    obtain ⟨read, next, _, walked⟩ := blocksFrom_eq_cons walked
    rcases List.mem_cons.1 mem with rfl | mem
    · obtain ⟨here, seen⟩ := blockAt?_eq_some read
      exact here ▸ seen
    · exact ih walked mem

theorem links_eq_none (walked : h.blocksFrom bp = .ok views) (mem : v ∈ views)
    (hidden : v.allocated = true ∨ h.strategy.usesList = false) : v.links = none := by
  obtain ⟨tag, flag, viewed⟩ := viewLinks_of_mem walked mem
  rw [viewLinks, flag, if_pos (by simpa using hidden)] at viewed
  exact (Except.ok.inj viewed).symm

theorem exists_links (walked : h.blocksFrom bp = .ok views) (mem : v ∈ views)
    (free : v.allocated = false) (list : h.strategy.usesList = true) :
    ∃ links, h.links v.payload = .ok links ∧ v.links = some links := by
  obtain ⟨tag, flag, viewed⟩ := viewLinks_of_mem walked mem
  rw [viewLinks, flag, if_neg (by simp [free, list])] at viewed
  cases read : h.links v.payload with
  | error fault =>
    rw [read] at viewed
    cases viewed
  | ok links =>
    rw [read] at viewed
    exact ⟨links, rfl, (Except.ok.inj viewed).symm⟩

theorem exists_listed (keeps : h.Keeps blocks nodes []) : ∃ listed, h.freeList = .ok listed ∧
    (h.strategy.usesList = true → listed = nodes) ∧
      (h.strategy.usesList = false → listed = []) := by
  cases list : h.strategy.usesList with
  | true => exact ⟨nodes, freeList_eq keeps list, by simp, by simp⟩
  | false => exact ⟨[], freeList_nil (keeps.indexed.headless list), by simp, by simp⟩

theorem Settled.reveals (settled : h.Settled blocks nodes) :
    ∃ views report listed, h.Reveals views report listed ∧ views.map (·.toBlock) = blocks := by
  have keeps := settled.keeps
  obtain ⟨views, walked, rfl⟩ := blocksFrom_eq [] keeps.spelt
  have walked : h.blocksFrom firstBlock = .ok views := walked
  obtain ⟨listed, read, known, none⟩ := exists_listed keeps
  refine ⟨views, _, listed, ⟨?_, ?_, keeps.spelt.tiled, keeps.spelt.tiled.ascending,
    settled.audit_eq, keeps.counted, keeps.counted.symm, rfl, rfl, read, ?_, ?_, ?_⟩, rfl⟩
  · rw [Heap.blocks, if_pos settled.initialized, walked]
  · intro count
    rw [walkStart, if_pos settled.initialized, walkSteps_eq walked]
  · exact fun v mem live => links_eq_none walked mem (.inl live)
  · intro list
    rw [known list]
    refine ⟨keeps.perm, fun v mem free => ?_⟩
    obtain ⟨links, linked, shown⟩ := exists_links walked mem free list
    obtain ⟨before, after, split⟩ :=
      List.append_of_mem (keeps.mem_nodes (List.mem_map_of_mem mem) free)
    have seen := links_of_threads (keeps.spelt.roomy keeps.freeNodes)
      (keeps.indexed.threaded list) split
    cases linked.symm.trans seen
    exact ⟨before, after, split, shown⟩
  · exact fun list => ⟨none list, fun v mem => links_eq_none walked mem (.inr list)⟩

end Heap

namespace Session

variable {s : Session}

theorem holds_iff {blocks : List Block} {nodes : List Nat}
    (settled : s.machine.heap.Settled blocks nodes) (accounts : s.ledger.Accounts blocks)
    (p : Payload) (size : Nat) : s.Holds p size ↔
      ∃ b ∈ blocks, b.allocated = true ∧ b.payload = p.offset ∧ b.size = size + 8 := by
  constructor
  · intro holds
    obtain ⟨b, mem, live, rfl, sized⟩ := holds.exists_block settled accounts
    exact ⟨b, mem, live, rfl, sized.symm⟩
  · rintro ⟨b, mem, live, here, sized⟩
    have read := Heap.payloadSize_eq settled mem live
    rw [here, sized, Nat.add_sub_cancel] at read
    have known := accounts.known b mem live
    rw [here] at known
    exact ⟨known, read⟩

theorem reveals_of_reachable (reachable : s.Reachable)
    (used : s.machine.heap.initialized = true) :
    ∃ views report nodes, s.machine.heap.Reveals views report nodes ∧
      ∀ p size, s.Holds p size ↔
        ∃ v ∈ views, v.allocated = true ∧ v.payload = p.offset ∧ v.size = size + 8 := by
  cases sound_of_reachable reachable with
  | blank blank => simp [blank.initialized] at used
  | settled settled accounts =>
    obtain ⟨views, report, nodes, reveals, rfl⟩ := settled.reveals
    refine ⟨views, report, nodes, reveals, fun p size => ?_⟩
    rw [holds_iff settled accounts]
    simp

theorem reveals_sample : ∃ views report nodes,
    (sample (.explicitList .lifo)).machine.heap.Reveals views report nodes ∧
      views = [⟨⟨16, 32, false⟩, some ⟨some 64, none⟩⟩, ⟨⟨48, 16, true⟩, none⟩,
        ⟨⟨64, 16, false⟩, some ⟨none, some 16⟩⟩] ∧
      report = ⟨3, 2, 48, 1, 16, 80⟩ ∧ nodes = [16, 64] ∧
      (sample (.explicitList .lifo)).Holds ⟨48⟩ 8 := by
  obtain ⟨used, walked, listed, audited⟩ :
      (sample (.explicitList .lifo)).machine.heap.initialized = true ∧
      (sample (.explicitList .lifo)).machine.heap.blocks =
        .ok [⟨⟨16, 32, false⟩, some ⟨some 64, none⟩⟩, ⟨⟨48, 16, true⟩, none⟩,
          ⟨⟨64, 16, false⟩, some ⟨none, some 16⟩⟩] ∧
      (sample (.explicitList .lifo)).machine.heap.freeList = .ok [16, 64] ∧
      (sample (.explicitList .lifo)).machine.heap.audit = .ok ⟨3, 2, 48, 1, 16, 80⟩ := by
    decide +kernel
  obtain ⟨views, report, nodes, reveals, shown⟩ :=
    reveals_of_reachable (reachable_sample (.explicitList .lifo)) used
  cases reveals.walked.symm.trans walked
  cases reveals.listed.symm.trans listed
  cases reveals.audited.symm.trans audited
  exact ⟨_, _, _, reveals, rfl, rfl, rfl, (shown ⟨48⟩ 8).2 ⟨⟨⟨48, 16, true⟩, none⟩, by simp⟩⟩

end Session

end BoundaryTag
