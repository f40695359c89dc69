import BoundaryTag.Audit
import BoundaryTag.Proofs.Keeping

/-! What the audit accepts.  A heap is consistent if some blocks tile it between the prologue and
the epilogue, and if its cursor, its counter and its list agree with these blocks.  The audit reads
tags and links as it finds them, so each of its steps is compared with one step of that statement:
a step of its walk with the first block of a tiling, a step of its list with the first node of a
chain.  Neither the blocks nor the nodes are known beforehand; the bytes determine them. -/

namespace BoundaryTag

theorem Block.Tiles.links_inside {start stop : Nat} {blocks : List Block}
    (tiled : Tiles start blocks stop) : ∀ n ∈ payloads (free blocks), n + 8 ≤ stop := by
  intro n listed
  obtain ⟨b, mem, rfl⟩ := List.mem_map.1 listed
  have bounds := tiled.bounds (mem_free.1 mem).1
  omega

namespace Heap

/-- The heap is laid out as `blocks`, and its index lists the free ones in the order `nodes`. -/
structure Consistent (h : Heap) (blocks : List Block) (nodes : List Nat) : Prop where
  initialized : h.initialized = true
  opened : h.word? 4 = some 9 ∧ h.word? 8 = some 9
  tiled : Block.Tiles firstBlock blocks h.size
  bracketed : ∀ b ∈ blocks, b.Bracketed h.region.memory
  closed : h.region.memory.tag (h.size - 4) = .epilogue
  coalesced : Block.Coalesced blocks
  aims : h.Aims blocks
  counted : h.freeBlocks = (Block.free blocks).length
  listed : h.strategy.usesList = true →
    h.Threads nodes ∧ nodes.Perm (Block.payloads (Block.free blocks))
  ascending : h.strategy = .explicitList .addressOrdered → nodes.Pairwise (· < ·)

variable {h : Heap} {bp offset : Nat} {b : Block} {blocks : List Block} {nodes free : List Nat}
  {prev : Option Nat} {tag : Tag}

theorem auditTag_eq_ok_iff : h.auditTag bp offset = .ok tag ↔
    offset + 4 < Offset.limit ∧ offset + 4 ≤ h.size ∧ h.region.memory.tag offset = tag := by
  rw [auditTag]
  cases read : h.word? offset with
  | none =>
    simp only [Audit.violates, reduceCtorEq, false_iff]
    rintro ⟨bound, inside, _⟩
    rw [word?_eq_some_iff.2 ⟨bound, inside, rfl⟩] at read
    cases read
  | some w =>
    obtain ⟨bound, inside, here⟩ := word?_eq_some_iff.1 read
    simp [bound, inside, here, Memory.tag, pure, Except.pure]

theorem auditPrologue_eq : h.auditPrologue =
    Audit.demand (h.word? 4 == some 9 && h.word? 8 == some 9) .badPrologue := by
  have header : headerOf prologue = .ok 4 := rfl
  have footer : footerOf prologue tagBytes = .ok 8 := rfl
  have nine : Tag.prologue.pack = 9 := by decide
  rw [auditPrologue, header, footer, nine]
  rfl

theorem auditPrologue_eq_ok_iff {u : Unit} :
    h.auditPrologue = .ok u ↔ h.word? 4 = some 9 ∧ h.word? 8 = some 9 := by
  simp [auditPrologue_eq]

theorem auditBlock_eq_none_iff : h.auditBlock bp = .ok none ↔
    bp % 8 = 0 ∧ 4 ≤ bp ∧ bp = h.size ∧ h.size < Offset.limit ∧
      h.region.memory.tag (h.size - 4) = .epilogue := by
  simp only [auditBlock, bind_eq_ok_iff, Audit.demand_eq_ok_iff, Audit.liftM_eq_ok_iff, headerOf,
    Offset.sub_eq_ok_iff, auditTag_eq_ok_iff, isAligned_iff, wordSize]
  constructor
  · rintro ⟨_, aligned, _, ⟨low, rfl⟩, header, ⟨bound, inside, read⟩, formed⟩
    split at formed
    · rename_i empty
      simp only [bind_eq_ok_iff, Audit.demand_eq_ok_iff, Bool.and_eq_true, beq_iff_eq] at formed
      obtain ⟨_, ⟨live, top⟩, _⟩ := formed
      refine ⟨aligned, low, top, by omega, ?_⟩
      rw [← top, read]
      exact Tag.ext empty live
    · simp only [bind_eq_ok_iff] at formed
      obtain ⟨_, _, _, _, _, _, _, _, _, _, _, _, _, _, same⟩ := formed
      cases same
  · rintro ⟨aligned, low, rfl, bound, read⟩
    refine ⟨(), aligned, _, ⟨low, rfl⟩, _, ⟨by omega, by omega, read⟩, ?_⟩
    simp [Tag.epilogue, bind, Except.bind, Audit.demand, pure, Except.pure]

theorem auditBlock_eq_some_iff : h.auditBlock bp = .ok (some b) ↔
    bp % 8 = 0 ∧ 4 ≤ bp ∧ b.payload = bp ∧ minBlock ≤ b.size ∧ bp + b.size ≤ h.size ∧
      bp + b.size < Offset.limit ∧ b.Bracketed h.region.memory := by
  simp only [auditBlock, bind_eq_ok_iff, Audit.demand_eq_ok_iff, Audit.liftM_eq_ok_iff, headerOf,
    Offset.sub_eq_ok_iff, auditTag_eq_ok_iff, isAligned_iff, wordSize]
  constructor
  · rintro ⟨_, aligned, _, ⟨low, rfl⟩, header, ⟨bound, inside, read⟩, formed⟩
    split at formed
    · simp only [bind_eq_ok_iff] at formed
      obtain ⟨_, _, same⟩ := formed
      cases same
    · simp only [bind_eq_ok_iff, Audit.demand_eq_ok_iff, Audit.liftM_eq_ok_iff,
        footerOf_eq_ok_iff, Offset.sub_eq_ok_iff, Offset.add_eq_ok_iff, auditTag_eq_ok_iff,
        Bool.and_eq_true, decide_eq_true_eq, beq_iff_eq, tagBytes] at formed
      obtain ⟨_, ⟨large, _⟩, _, ⟨_, rfl⟩, _, ⟨_, rfl⟩, _, within, _, ⟨top, _, rfl⟩, _,
        ⟨_, _, rfl⟩, _, agree, same⟩ := formed
      cases same
      refine ⟨aligned, low, rfl, large, by simp only; omega, top, ⟨?_, ?_⟩⟩
      · exact ⟨congrArg _ read, congrArg _ read⟩
      · exact ⟨congrArg _ agree.symm, congrArg _ agree.symm⟩
  · rintro ⟨aligned, low, rfl, large, inside, bound, header, footer⟩
    have positive : 16 ≤ b.size := large
    have agree : h.region.memory.tag (b.payload + b.size - 8) =
        h.region.memory.tag (b.payload - 4) :=
      Tag.ext (footer.1.trans header.1.symm) (footer.2.trans header.2.symm)
    refine ⟨(), aligned, _, ⟨low, rfl⟩, _, ⟨by omega, by omega, rfl⟩, ?_⟩
    rw [if_neg (by rw [header.1]; omega)]
    simp only [bind_eq_ok_iff, Audit.demand_eq_ok_iff, Audit.liftM_eq_ok_iff,
      footerOf_eq_ok_iff, Offset.sub_eq_ok_iff, Offset.add_eq_ok_iff, auditTag_eq_ok_iff,
      Bool.and_eq_true, decide_eq_true_eq, beq_iff_eq, tagBytes, isAligned_iff, header.1, header.2]
    refine ⟨(), ⟨large, ?_⟩, _, ⟨by omega, rfl⟩, _, ⟨by omega, rfl⟩, (), by omega, _,
      ⟨bound, by omega, rfl⟩, _, ⟨by omega, by omega, agree⟩, (), rfl, rfl⟩
    rw [← header.1]
    exact Tag.aligned _

theorem auditNeighbours_eq_ok_iff {u : Unit} :
    auditNeighbours prev b = .ok u ↔ (prev.isSome = true → b.allocated = true) := by
  cases prev <;> simp [auditNeighbours]

theorem auditBlocks_eq_nil_iff :
    h.auditBlocks prev bp = .ok [] ↔ h.auditBlock bp = .ok none := by
  rw [auditBlocks]
  split
  · rename_i found
    simp [found]
  · rename_i found
    simp [found]
  · rename_i found
    simp [found, bind_eq_ok_iff, pure, Except.pure]

theorem auditBlocks_eq_cons_iff {rest : List Block} :
    h.auditBlocks prev bp = .ok (b :: rest) ↔ h.auditBlock bp = .ok (some b) ∧
      (prev.isSome = true → b.allocated = true) ∧
      h.auditBlocks (if b.allocated then none else some bp) (bp + b.size) = .ok rest := by
  rw [auditBlocks]
  split
  · rename_i found
    simp [found]
  · rename_i found
    simp [found]
  · rename_i c found
    simp only [found, bind_eq_ok_iff, auditNeighbours_eq_ok_iff, pure, Except.pure]
    constructor
    · rintro ⟨_, apart, _, walked, same⟩
      cases same
      exact ⟨rfl, apart, walked⟩
    · rintro ⟨same, apart, walked⟩
      cases same
      exact ⟨(), apart, _, walked, rfl⟩

theorem auditBlocks_eq_ok_iff (low : 4 ≤ bp) (aligned : bp % 8 = 0) :
    h.auditBlocks prev bp = .ok blocks ↔ h.size < Offset.limit ∧ Block.Tiles bp blocks h.size ∧
      (∀ b ∈ blocks, b.Bracketed h.region.memory) ∧
      h.region.memory.tag (h.size - 4) = .epilogue ∧ Block.Coalesced blocks ∧
      (prev.isSome = true → ∀ b ∈ blocks.head?, b.allocated = true) := by
  induction blocks generalizing bp prev with
  | nil =>
    rw [auditBlocks_eq_nil_iff, auditBlock_eq_none_iff]
    simp [low, aligned, Block.Tiles, Block.Coalesced, and_left_comm]
  | cons b rest ih =>
    rw [auditBlocks_eq_cons_iff, auditBlock_eq_some_iff]
    constructor
    · rintro ⟨⟨_, _, here, large, inside, _, bracketed⟩, apart, walked⟩
      have even : b.size % 8 = 0 := bracketed.header.1 ▸ Tag.aligned _
      obtain ⟨bound, tiled, others, closed, coalesced, seam⟩ :=
        (ih (by omega) (by omega)).1 walked
      refine ⟨bound, ⟨here, large, even, tiled⟩, List.forall_mem_cons.2 ⟨bracketed, others⟩, closed,
        List.isChain_cons.2 ⟨fun c first => ?_, coalesced⟩, by simpa using apart⟩
      cases live : b.allocated with
      | true => exact .inl rfl
      | false => exact .inr (seam (by simp [live]) c first)
    · rintro ⟨bound, ⟨here, large, even, tiled⟩, bracketed, closed, coalesced, apart⟩
      obtain ⟨first, others⟩ := List.forall_mem_cons.1 bracketed
      obtain ⟨seam, above⟩ := List.isChain_cons.1 coalesced
      have inside := tiled.le
      refine ⟨⟨aligned, low, here, large, inside, by omega, first⟩, by simpa using apart,
        (ih (by omega) (by omega)).2 ⟨bound, tiled, others, closed, above, fun free c head => ?_⟩⟩
      refine (seam c head).resolve_left fun live => ?_
      simp [live] at free

theorem auditList_of_mem {order : ListOrder} {left : Nat} (bound : h.size < Offset.limit)
    (inside : ∀ n ∈ free, n + 8 ≤ h.size) (listed : bp ∈ free) :
    h.auditList order free prev (left + 1) (some bp) = (do
      Audit.demand (h.before bp == prev) (.brokenLink bp prev (h.before bp))
      Audit.demand (order != .addressOrdered || prev.all (· < bp)) (.unordered bp)
      h.auditList order free (some bp) left (h.after (some bp))) := by
  have room := inside bp listed
  have start : Offset.add bp Links.nextOffset = .ok bp :=
    Offset.add_eq_ok_iff.2 ⟨by simp only [Links.nextOffset]; omega, rfl⟩
  have stop : Offset.add bp Links.prevOffset = .ok (bp + 4) :=
    Offset.add_eq_ok_iff.2 ⟨by simp only [Links.prevOffset, wordSize]; omega, rfl⟩
  have next : h.word? bp = some (h.region.memory.word bp) :=
    word?_eq_some_iff.2 ⟨by omega, by omega, rfl⟩
  have back : h.word? (bp + 4) = some (h.region.memory.word (bp + 4)) :=
    word?_eq_some_iff.2 ⟨by omega, by omega, rfl⟩
  have known : Audit.demand (bp ∈ free) (.notFree bp) = .ok () :=
    Audit.demand_eq_ok_iff.2 (decide_eq_true listed)
  rw [auditList, known, start, stop]
  change (do
    Audit.demand ((h.word? (bp + 4)).bind Links.decode == prev)
      (.brokenLink bp prev ((h.word? (bp + 4)).bind Links.decode))
    Audit.demand (order != ListOrder.addressOrdered || prev.all (· < bp)) (.unordered bp)
    h.auditList order free (some bp) left ((h.word? bp).bind Links.decode)) = _
  rw [next, back]
  rfl

theorem ordered_iff {order : ListOrder} :
    (order != .addressOrdered || prev.all (· < bp)) = true ↔
      (order = .addressOrdered → ∀ p ∈ prev, p < bp) := by
  cases order <;> cases prev <;> simp

theorem auditList_eq_ok_iff_of_node {order : ListOrder} {left : Nat} {u : Unit}
    (bound : h.size < Offset.limit) (inside : ∀ n ∈ free, n + 8 ≤ h.size) :
    h.auditList order free prev (left + 1) (some bp) = .ok u ↔ bp ∈ free ∧ h.before bp = prev ∧
      (order = .addressOrdered → ∀ p ∈ prev, p < bp) ∧
      h.auditList order free (some bp) left (h.after (some bp)) = .ok u := by
  by_cases listed : bp ∈ free
  · simp only [auditList_of_mem bound inside listed, bind_eq_ok_iff, Audit.demand_eq_ok_iff,
      beq_iff_eq, ordered_iff, listed, true_and, exists_const]
  · simp [auditList, bind_eq_ok_iff, listed]

theorem auditList_eq_ok_iff {order : ListOrder} {left : Nat} {u : Unit}
    (bound : h.size < Offset.limit) (inside : ∀ n ∈ free, n + 8 ≤ h.size) :
    h.auditList order free prev left (h.after prev) = .ok u ↔ ∃ nodes : List Nat,
      nodes.length = left ∧ (prev :: (nodes.map some ++ [none])).IsChain h.Adjoins ∧
        (∀ n ∈ nodes, n ∈ free) ∧
        (order = .addressOrdered → (prev.toList ++ nodes).IsChain (· < ·)) := by
  -- one step of the walk is the first link of the chain
  induction left generalizing prev with
  | zero =>
    constructor
    · intro walked
      cases next : h.after prev with
      | none =>
        refine ⟨[], rfl, List.isChain_cons_cons.2 ⟨⟨next, by simp⟩, List.isChain_singleton _⟩,
          by simp, fun _ => ?_⟩
        cases prev <;> simp
      | some bp =>
        rw [next] at walked
        simp [auditList, Audit.violates] at walked
    · rintro ⟨nodes, length, chain, _⟩
      cases List.length_eq_zero_iff.1 length
      have next : h.after prev = none := (List.isChain_cons_cons.1 chain).1.next
      rw [next, auditList]
      rfl
  | succ left ih =>
    constructor
    · intro walked
      cases next : h.after prev with
      | none =>
        rw [next] at walked
        simp [auditList] at walked
      | some bp =>
        rw [next, auditList_eq_ok_iff_of_node bound inside, ih] at walked
        obtain ⟨listed, back, below, nodes, length, chain, members, ascending⟩ := walked
        refine ⟨bp :: nodes, congrArg _ length,
          List.isChain_cons_cons.2 ⟨⟨next, by simpa using back⟩, chain⟩,
          List.forall_mem_cons.2 ⟨listed, members⟩, fun ordered => ?_⟩
        cases prev with
        | none => exact ascending ordered
        | some p => exact List.isChain_cons_cons.2 ⟨below ordered p rfl, ascending ordered⟩
    · rintro ⟨nodes, length, chain, members, ascending⟩
      cases nodes with
      | nil => cases length
      | cons bp rest =>
        obtain ⟨seam, chain⟩ := List.isChain_cons_cons.1 chain
        obtain ⟨listed, members⟩ := List.forall_mem_cons.1 members
        rw [seam.next, auditList_eq_ok_iff_of_node bound inside, ih]
        refine ⟨listed, seam.prev bp rfl, fun ordered p mem => ?_, rest, Nat.succ.inj length, chain,
          members, fun ordered => ?_⟩
        · cases mem
          exact (List.isChain_cons_cons.1 (ascending ordered)).1
        · cases prev with
          | none => exact ascending ordered
          | some p => exact (List.isChain_cons_cons.1 (ascending ordered)).2

theorem nodup_of_isChain (chain : (none :: nodes.map some).IsChain h.Adjoins) : nodes.Nodup := by
  induction nodes using List.reverseRecOn with
  | nil => exact List.nodup_nil
  | append_singleton front n ih =>
    obtain ⟨below, seam⟩ := isChain_below_iff.1 chain
    have distinct := ih below
    refine List.nodup_append.2 ⟨distinct, List.pairwise_singleton _ n, fun k listed m last => ?_⟩
    rw [List.mem_singleton.1 last]
    rintro rfl
    obtain ⟨l₁, l₂, rfl⟩ := List.append_of_mem listed
    have parts : none :: (l₁ ++ k :: l₂).map some =
        (none :: (l₁ ++ [k]).map some) ++ l₂.map some := by
      simp
    rw [parts] at below
    have first := (isChain_below_iff.1 (List.isChain_append.1 below).1).2.prev k rfl
    have again := seam.prev k rfl
    obtain ⟨x, final⟩ : ∃ x, (k :: l₂).getLast? = some x := ⟨_, List.getLast?_cons⟩
    rw [List.getLast?_append, final, Option.some_or] at again
    have before := List.mem_of_getLast? (first.symm.trans again)
    exact (List.nodup_append.1 distinct).2.2 x before x (List.mem_of_getLast? final) rfl

theorem Threads.nodup (threads : h.Threads nodes) : nodes.Nodup :=
  nodup_of_isChain (List.isChain_append.1 threads).1

theorem cursorIsValid_iff : h.cursorIsValid blocks = true ↔
    h.cursor = prologue ∨ h.cursor = h.size ∨ h.cursor ∈ Block.payloads blocks := by
  simp [cursorIsValid, Block.payloads, or_assoc]

theorem auditList_free_iff {order : ListOrder} {u : Unit} (bound : h.size < Offset.limit)
    (tiled : Block.Tiles firstBlock blocks h.size) :
    h.auditList order (Block.payloads (Block.free blocks)) none
        (Block.payloads (Block.free blocks)).length h.freeHead = .ok u ↔
      ∃ nodes, h.Threads nodes ∧ nodes.Perm (Block.payloads (Block.free blocks)) ∧
        (order = .addressOrdered → nodes.Pairwise (· < ·)) := by
  have walked := @auditList_eq_ok_iff h _ none order
    (Block.payloads (Block.free blocks)).length u bound tiled.links_inside
  refine walked.trans (exists_congr fun nodes => ?_)
  simp only [Option.toList_none, List.nil_append, List.isChain_iff_pairwise]
  constructor
  · rintro ⟨length, threads, members, ascending⟩
    have within := (Threads.nodup threads).subperm members
    exact ⟨threads, within.perm_of_length_le (Nat.le_of_eq length.symm), ascending⟩
  · rintro ⟨threads, listed, ascending⟩
    exact ⟨listed.length_eq, threads, fun n => listed.mem_iff.1, ascending⟩

theorem consistent_of_audit {report : Report} (accepted : h.audit = .ok report) :
    h.size < Offset.limit ∧
      ∃ blocks nodes, h.Consistent blocks nodes ∧ report = .ofBlocks blocks h.size := by
  have walk (blocks : List Block) := @auditBlocks_eq_ok_iff h firstBlock blocks none (by decide)
    (by decide)
  simp only [audit, bind_eq_ok_iff, Audit.demand_eq_ok_iff, auditPrologue_eq_ok_iff, walk]
    at accepted
  obtain ⟨_, initialized, _, opened, blocks, ⟨bound, tiled, bracketed, closed, coalesced, _⟩, _,
    cursor, _, counter, listing⟩ := accepted
  have aims : h.Aims blocks := by
    intro kind
    simpa [kind, cursorIsValid_iff] using cursor
  have counted : h.freeBlocks = (Block.free blocks).length := by
    simpa [Block.free] using counter
  refine ⟨bound, blocks, ?_⟩
  cases kind : h.strategy with
  | explicitList order =>
    simp only [kind, bind_eq_ok_iff] at listing
    obtain ⟨_, list, same⟩ := listing
    cases same
    obtain ⟨nodes, threads, listed, ascending⟩ := (auditList_free_iff bound tiled).1 list
    refine ⟨nodes, ⟨initialized, opened, tiled, bracketed, closed, coalesced, aims, counted,
      fun _ => ⟨threads, listed⟩, fun ordered => ascending ?_⟩, rfl⟩
    rw [kind] at ordered
    cases ordered
    rfl
  | nextFit | firstFit =>
    rw [kind] at listing
    cases listing
    exact ⟨[], ⟨initialized, opened, tiled, bracketed, closed, coalesced, aims, counted,
      by simp [kind, Strategy.usesList], by simp [kind]⟩, rfl⟩

theorem audit_of_consistent (bound : h.size < Offset.limit)
    (consistent : h.Consistent blocks nodes) :
    h.audit = .ok (.ofBlocks blocks h.size) := by
  have walk (blocks : List Block) := @auditBlocks_eq_ok_iff h firstBlock blocks none (by decide)
    (by decide)
  have cursor : (h.strategy != .nextFit || h.cursorIsValid blocks) = true := by
    cases kind : h.strategy with
    | nextFit => simpa [cursorIsValid_iff] using consistent.aims kind
    | firstFit | explicitList => rfl
  have counter : (h.freeBlocks ==
      ((blocks.filter (!·.allocated)).map (·.payload)).length) = true := by
    simpa [Block.free] using consistent.counted
  simp only [audit, bind_eq_ok_iff, Audit.demand_eq_ok_iff, auditPrologue_eq_ok_iff, walk]
  refine ⟨(), consistent.initialized, (), consistent.opened, blocks, ⟨bound, consistent.tiled,
    consistent.bracketed, consistent.closed, consistent.coalesced, by simp⟩, (), cursor, (),
    counter, ?_⟩
  cases kind : h.strategy with
  | explicitList order =>
    obtain ⟨threads, listed⟩ := consistent.listed (usesList_of_kind kind)
    refine bind_eq_ok_iff.2 ⟨(), ?_, rfl⟩
    exact (auditList_free_iff bound consistent.tiled).2 ⟨nodes, threads, listed,
      fun ordered => consistent.ascending (by rw [kind, ordered])⟩
  | nextFit | firstFit => rfl

/-- The audit reports a heap if and only if the heap is consistent, and then it sums up the blocks.
The size of a region is a number of bytes, which is below the limit of offsets. -/
theorem audit_eq_ok_iff {report : Report} : h.audit = .ok report ↔ h.size < Offset.limit ∧
    ∃ blocks nodes, h.Consistent blocks nodes ∧ report =
      { blocks := blocks.length
        freeBlocks := (blocks.filter (!·.allocated)).length
        freeBytes := Block.totalSize (blocks.filter (!·.allocated))
        allocatedBlocks := (blocks.filter (·.allocated)).length
        allocatedBytes := Block.totalSize (blocks.filter (·.allocated))
        heapSize := h.size } := by
  constructor
  · exact consistent_of_audit
  · rintro ⟨bound, blocks, nodes, consistent, rfl⟩
    exact audit_of_consistent bound consistent

theorem Settled.consistent (settled : h.Settled blocks nodes) : h.Consistent blocks nodes := by
  have spelt := settled.keeps.spelt
  have indexed := settled.keeps.indexed
  have low := spelt.size_pos
  have bounded := spelt.bounded
  simp only [maxRegion] at bounded
  refine ⟨settled.initialized, ⟨?_, ?_⟩, spelt.tiled, spelt.bracketed, spelt.epilogue,
    settled.coalesced, settled.aims, settled.keeps.counted,
    fun list => ⟨indexed.threaded list, settled.keeps.perm⟩, indexed.ascending⟩
  · exact word?_eq_some_iff.2 ⟨by decide, by omega, spelt.prologueHeader⟩
  · exact word?_eq_some_iff.2 ⟨by decide, by omega, spelt.prologueFooter⟩

theorem Settled.audit_eq (settled : h.Settled blocks nodes) :
    h.audit = .ok (.ofBlocks blocks h.size) := by
  have bounded := settled.keeps.spelt.bounded
  simp only [maxRegion] at bounded
  refine audit_of_consistent ?_ settled.consistent
  simp only [Offset.limit]
  omega

theorem Settled.exists_report (settled : h.Settled blocks nodes) :
    ∃ report, h.audit = .ok report ∧
      firstBlock + report.freeBytes + report.allocatedBytes = h.size := by
  refine ⟨_, settled.audit_eq, ?_⟩
  have parts := Block.totalSize_filter blocks
  have whole := settled.keeps.spelt.tiled.stop_eq
  simp only [Report.ofBlocks]
  omega

end Heap

end BoundaryTag
