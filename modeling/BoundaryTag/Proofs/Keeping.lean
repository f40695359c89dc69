import BoundaryTag.Proofs.HeaderWords
import BoundaryTag.Proofs.Merging

/-! Heaps whose blocks and index agree.  A loose block is free but not on the index.  Operations
take free blocks off the index, exchange a run of loose blocks for another one, and put what is free
of it back. -/

namespace BoundaryTag

def Block.Spare (blocks : List Block) (i : Nat) : Prop := ∃ b ∈ free blocks, b.Covers i

theorem Block.Spare.mono {blocks wider : List Block} {i : Nat} (spare : Spare blocks i)
    (sub : ∀ b ∈ blocks, b ∈ wider) : Spare wider i := by
  obtain ⟨b, mem, inside⟩ := spare
  obtain ⟨mem, free⟩ := mem_free.1 mem
  exact ⟨b, mem_free.2 ⟨sub b mem, free⟩, inside⟩

theorem Block.mem_insert {l₁ l₂ : List Block} (b : Block) :
    ∀ c ∈ l₁ ++ l₂, c ∈ l₁ ++ b :: l₂ := by
  intro c mem
  rcases List.mem_append.1 mem with below | above
  · simp [below]
  · simp [above]

namespace Heap

/-- The heap spells `blocks`; the free ones are indexed as `nodes`, or else loose. -/
structure Keeps (h : Heap) (blocks : List Block) (nodes loose : List Nat) : Prop where
  spelt : h.Spells blocks
  indexed : h.Indexes nodes
  listed : (nodes ++ loose).Perm (Block.payloads (Block.free blocks))

def Aims (h : Heap) (blocks : List Block) : Prop :=
  h.strategy = .nextFit →
    h.cursor = prologue ∨ h.cursor = h.size ∨ h.cursor ∈ Block.payloads blocks

theorem Aims.transfer {h k : Heap} {old new : List Block} (aims : h.Aims old)
    (config : k.config = h.config) (size : k.size = h.size) (cursor : k.cursor = h.cursor)
    (kept : Block.payloads old ⊆ Block.payloads new) : k.Aims new := by
  intro kind
  rw [strategy_eq config] at kind
  rw [cursor, size]
  exact (aims kind).imp_right (Or.imp_right fun block => kept block)

/-- A heap at rest: laid out, without free neighbours, and with all free blocks on the index. -/
structure Settled (h : Heap) (blocks : List Block) (nodes : List Nat) : Prop where
  initialized : h.initialized = true
  valid : h.config.isValid = true
  keeps : h.Keeps blocks nodes []
  coalesced : Block.Coalesced blocks
  aims : h.Aims blocks

def FreeNodes (nodes : List Nat) (blocks : List Block) : Prop :=
  ∀ n ∈ nodes, ∃ b ∈ blocks, b.allocated = false ∧ b.payload = n

section nodes

variable {h : Heap} {blocks : List Block} {nodes : List Nat} (spelt : h.Spells blocks)
  (free : FreeNodes nodes blocks)
include spelt free

theorem Spells.roomy : h.Roomy nodes := by
  refine ⟨spelt.bounded, ?_, ?_⟩
  · intro n listed
    obtain ⟨b, mem, _, rfl⟩ := free n listed
    have := spelt.bounds mem
    omega
  · intro n listed k listed'
    obtain ⟨b, mem, _, rfl⟩ := free n listed
    obtain ⟨c, mem', _, rfl⟩ := free k listed'
    have := spelt.bounds mem
    have := spelt.bounds mem'
    by_cases same : b = c
    · exact .inl (by rw [same])
    · have := spelt.tiled.apart mem mem' same
      omega

theorem Spells.owns_of_linkBytes {i : Nat} (linked : LinkBytes nodes i) :
    ∃ b ∈ Block.free blocks, b.Owns i := by
  obtain ⟨n, listed, low, high⟩ := linked
  obtain ⟨b, mem, flag, rfl⟩ := free n listed
  have := spelt.bounds mem
  exact ⟨b, Block.mem_free.2 ⟨mem, flag⟩, low, by omega⟩

theorem Spells.spare_of_linkBytes {i : Nat} (linked : LinkBytes nodes i) :
    Block.Spare blocks i := by
  obtain ⟨b, mem, owned⟩ := spelt.owns_of_linkBytes free linked
  exact ⟨b, mem, owned.covers⟩

omit free in
theorem Spells.onGrid {b : Block} (mem : b ∈ blocks) : b.payload % 8 = 0 :=
  (spelt.tiled.aligned rfl).2 b mem

theorem Spells.nodes_onGrid : ∀ n ∈ nodes, n % 8 = 0 := by
  intro n listed
  obtain ⟨b, mem, _, rfl⟩ := free n listed
  exact spelt.onGrid mem

theorem Spells.relink {k : Heap} (size : k.size = h.size)
    (same : ∀ i, ¬LinkBytes nodes i → k.byte i = h.byte i) : k.Spells blocks := by
  refine spelt.transfer size fun i kept => same i fun linked => ?_
  obtain ⟨b, mem, owned⟩ := spelt.owns_of_linkBytes free linked
  exact kept b (Block.mem_free.1 mem).1 owned

end nodes

section keeps

variable {h : Heap} {blocks : List Block} {nodes loose : List Nat}
  (keeps : h.Keeps blocks nodes loose)
include keeps

theorem Keeps.mem_iff {n : Nat} :
    n ∈ nodes ∨ n ∈ loose ↔ ∃ b ∈ blocks, b.allocated = false ∧ b.payload = n := by
  rw [← List.mem_append, keeps.listed.mem_iff]
  simp [Block.payloads, and_assoc]

theorem Keeps.freeNodes : FreeNodes nodes blocks := fun _ mem => keeps.mem_iff.1 (.inl mem)

theorem Keeps.nodup : (nodes ++ loose).Nodup := by
  have free : (Block.payloads (Block.free blocks)).Sublist (Block.payloads blocks) :=
    List.filter_sublist.map _
  exact keeps.listed.nodup_iff.2 (keeps.spelt.tiled.payloads_nodup.sublist free)

end keeps

theorem Keeps.mem_nodes {h : Heap} {blocks : List Block} {nodes : List Nat} {b : Block}
    (keeps : h.Keeps blocks nodes []) (mem : b ∈ blocks) (free : b.allocated = false) :
    b.payload ∈ nodes := by
  rcases keeps.mem_iff.2 ⟨b, mem, free, rfl⟩ with listed | loose
  · exact listed
  · cases loose

theorem Keeps.perm {h : Heap} {blocks : List Block} {nodes : List Nat}
    (keeps : h.Keeps blocks nodes []) : nodes.Perm (Block.payloads (Block.free blocks)) := by
  simpa using keeps.listed

theorem Keeps.counted {h : Heap} {blocks : List Block} {nodes : List Nat}
    (keeps : h.Keeps blocks nodes []) : h.freeBlocks = (Block.free blocks).length := by
  rw [keeps.indexed.counted, keeps.perm.length_eq, Block.payloads, List.length_map]

theorem Keeps.exchange {h k : Heap} {before old new after : List Block} {nodes loose : List Nat}
    (keeps : h.Keeps (before ++ old ++ after) nodes loose)
    (loosened : loose.Perm (Block.payloads (Block.free old)))
    (fits : ∀ lo hi, Block.Tiles lo old hi → Block.Tiles lo new hi) (size : k.size = h.size)
    (counter : k.freeBlocks = h.freeBlocks) (head : k.freeHead = h.freeHead)
    (config : k.config = h.config)
    (same : ∀ i, (∀ b ∈ old, ¬b.Covers i) → k.byte i = h.byte i)
    (written : ∀ b ∈ new, b.Bracketed k.region.memory) :
    k.Keeps (before ++ new ++ after) nodes (Block.payloads (Block.free new)) := by
  have parts (run : List Block) : (Block.payloads (Block.free (before ++ run ++ after))).Perm
      (Block.payloads (Block.free before ++ Block.free after) ++
        Block.payloads (Block.free run)) := by
    simp only [Block.free_append, Block.payloads, List.map_append, List.append_assoc]
    exact List.perm_append_comm.append_left _
  have others : nodes.Perm (Block.payloads (Block.free before ++ Block.free after)) := by
    apply (List.perm_append_right_iff (Block.payloads (Block.free old))).1
    exact ((List.Perm.append_left nodes loosened).symm.trans keeps.listed).trans (parts old)
  have outside : ∀ n ∈ nodes, ∀ i, n ≤ i → i < n + 8 → k.byte i = h.byte i := by
    intro n mem i low high
    obtain ⟨b, here, _, rfl⟩ : ∃ b ∈ before ++ after, b.allocated = false ∧ b.payload = n := by
      simpa [Block.payloads, and_assoc, or_and_right, exists_or] using others.mem_iff.1 mem
    apply same i
    intro c run covered
    have mem : b ∈ before ++ old ++ after := by
      rcases List.mem_append.1 here with below | above
      · simp [below]
      · simp [above]
    have bounds := keeps.spelt.bounds mem
    have apart : b.payload + b.size ≤ c.payload ∨ c.payload + c.size ≤ b.payload := by
      rcases List.mem_append.1 here with below | above
      · exact .inl (keeps.spelt.tiled.split.1.below below run)
      · exact .inr (keeps.spelt.tiled.below (List.mem_append_right before run) above)
    obtain ⟨lo, hi⟩ := covered
    omega
  exact ⟨keeps.spelt.exchange size fits same written,
    keeps.indexed.transfer counter head config outside,
    (others.append_right _).trans (parts new).symm⟩

theorem Keeps.reorder {h : Heap} {blocks : List Block} {nodes loose loose' : List Nat}
    (keeps : h.Keeps blocks nodes loose) (perm : loose.Perm loose') :
    h.Keeps blocks nodes loose' :=
  ⟨keeps.spelt, keeps.indexed, (perm.symm.append_left nodes).trans keeps.listed⟩

end Heap

namespace Machine

variable {m : Machine} {blocks : List Block} {nodes loose : List Nat} {c : Block}

theorem Edits.settled {n : Machine} {touched : Nat → Prop} {old new : List Block}
    {nodes' : List Nat} (edits : Edits touched m n) (settled : m.heap.Settled old nodes)
    (keeps : n.heap.Keeps new nodes' []) (coalesced : Block.Coalesced new)
    (aims : n.heap.Aims new) : n.heap.Settled new nodes' :=
  ⟨edits.initialized.trans settled.initialized, (congrArg _ edits.config).trans settled.valid,
    keeps, coalesced, aims⟩

theorem run_loosen (keeps : m.heap.Keeps blocks nodes loose) (mem : c ∈ blocks)
    (listed : c.payload ∈ nodes) :
    ∃ n, indexRemove c.payload m = .ok () n ∧
      n.heap.Keeps blocks (nodes.erase c.payload) (c.payload :: loose) ∧
      n.heap.cursor = m.heap.cursor ∧ Tidies none (Block.Spare blocks) m n := by
  obtain ⟨d, mem', free, same⟩ := keeps.freeNodes c.payload listed
  cases keeps.spelt.tiled.eq_of_payload mem mem' same.symm
  have flag := (keeps.spelt.bracketed c mem).header.2.trans free
  have roomy := keeps.spelt.roomy keeps.freeNodes
  obtain ⟨n, ran, indexed, cursor, edits⟩ := run_indexRemove keeps.indexed roomy listed flag
  have headerLike {i : Nat} (poses : n.heap.HeaderLike i) :=
    headerLike_indexRemove keeps.indexed flag roomy
    (keeps.spelt.nodes_onGrid keeps.freeNodes) listed ran poses
  refine ⟨n, ran, ⟨keeps.spelt.relink keeps.freeNodes edits.size edits.byte, indexed, ?_⟩, cursor,
    edits.mono fun _ => keeps.spelt.spare_of_linkBytes keeps.freeNodes, fun _ => .inl ∘ headerLike⟩
  refine List.Perm.trans ?_ keeps.listed
  exact List.perm_middle.trans ((List.perm_cons_erase listed).symm.append_right loose)

theorem run_enlist (keeps : m.heap.Keeps blocks nodes (c.payload :: loose)) (mem : c ∈ blocks) :
    ∃ n, indexInsert c.payload m = .ok () n ∧
      n.heap.Keeps blocks (m.heap.strategy.enlist c.payload nodes) loose ∧
      n.heap.cursor = m.heap.cursor ∧ Tidies none (Block.Spare blocks) m n := by
  obtain ⟨d, mem', free, same⟩ := keeps.mem_iff.1 (.inr List.mem_cons_self)
  cases keeps.spelt.tiled.eq_of_payload mem mem' same.symm
  have flag := (keeps.spelt.bracketed c mem).header.2.trans free
  have distinct := keeps.nodup
  rw [List.perm_middle.nodup_iff, List.nodup_cons, List.mem_append, not_or] at distinct
  have whole : Heap.FreeNodes (c.payload :: nodes) blocks := by
    intro n listed
    rcases List.mem_cons.1 listed with rfl | listed
    · exact ⟨c, mem, free, rfl⟩
    · exact keeps.freeNodes n listed
  have roomy := keeps.spelt.roomy whole
  obtain ⟨n, ran, indexed, cursor, edits⟩ :=
    run_indexInsert keeps.indexed roomy distinct.1.1 flag
  have headerLike {i : Nat} (poses : n.heap.HeaderLike i) :=
    headerLike_indexInsert keeps.indexed flag roomy
    (keeps.spelt.nodes_onGrid whole) ran poses
  refine ⟨n, ran, ⟨keeps.spelt.relink whole edits.size edits.byte, indexed, ?_⟩, cursor,
    edits.mono fun _ => keeps.spelt.spare_of_linkBytes whole, fun _ => .inl ∘ headerLike⟩
  refine List.Perm.trans ?_ (List.perm_middle.symm.trans keeps.listed)
  exact (m.heap.strategy.enlist_perm c.payload nodes).append_right loose

theorem make_ok (size : Nat) (allocated : Bool) (even : size % 8 = 0)
    (fits : size ≤ Heap.maxRegion) :
    ∃ tag, Tag.make size allocated = .ok tag ∧ tag.size = size ∧ tag.allocated = allocated := by
  have fits : size ≤ maxBlock := by
    simp only [Heap.maxRegion] at fits
    simp only [maxBlock]
    omega
  exact ⟨⟨size, allocated, even, fits⟩, by simp [Tag.make, Tag.ofSize, even, fits, Except.mapError]⟩

theorem run_setBlock {before old after : List Block}
    (keeps : m.heap.Keeps (before ++ old ++ after) nodes loose)
    (loosened : loose.Perm (Block.payloads (Block.free old)))
    (fits : ∀ lo hi, Block.Tiles lo old hi → Block.Tiles lo [c] hi) :
    ∃ tag n, Tag.make c.size c.allocated = .ok tag ∧ setBlock c.payload tag m = .ok () n ∧
      n.heap.Keeps (before ++ [c] ++ after) nodes (Block.payloads (Block.free [c])) ∧
      n.heap.cursor = m.heap.cursor ∧
      Tidies (if c.allocated then some c.payload else none) c.Marks m n := by
  have parted := keeps.spelt.tiled.split
  have whole := fits _ _ parted.1.split.2
  have bounds := whole.bounds List.mem_cons_self
  have stop := parted.2.le
  have small := keeps.spelt.bounded
  have covered (i : Nat) : c.Covers i ↔ ∃ b ∈ old, b.Covers i := by
    rw [parted.1.split.2.covers_iff, ← whole.covers_iff]
    simp
  have low : 4 ≤ c.payload := by
    have : 16 ≤ Heap.firstBlock := Nat.le_refl _
    omega
  have onGrid : c.payload % 8 = 0 :=
    (whole.aligned (parted.1.split.1.aligned rfl).1).2 c List.mem_cons_self
  obtain ⟨tag, made, size, flag⟩ := make_ok c.size c.allocated bounds.2.2.2 (by omega)
  have large : 8 ≤ tag.size := by omega
  have inside : c.payload + tag.size ≤ m.heap.size + 4 := by omega
  refine ⟨tag, _, made, setBlock_ok _ _ small low large inside, ?_, rfl, ?_⟩
  · refine keeps.exchange loosened fits (Heap.size_setTags _ _ _) rfl rfl rfl ?_ ?_
    · intro i kept
      apply Heap.byte_setTags low large inside
      intro mark
      rw [size] at mark
      obtain ⟨b, mem, here⟩ := (covered i).1 mark.1
      exact kept b mem here
    · intro b mem
      rw [List.mem_singleton] at mem
      have written := Heap.bracketed_setTags (h := m.heap) low large inside
      rw [size, flag] at written
      exact mem ▸ written
  · have tidies := tidies_setTags _ _ _ low onGrid large inside
    rw [flag] at tidies
    apply tidies.mono
    intro i mark
    rw [size] at mark
    exact mark

end Machine

end BoundaryTag
