import BoundaryTag.Resize
import BoundaryTag.Proofs.Allocating
import BoundaryTag.Proofs.Writing

namespace BoundaryTag

theorem Block.beyond_fuse {lo hi wanted i : Nat} {b c : Block} {rest : List Block}
    (tiled : Block.Tiles lo (b :: c :: rest) hi) (beyond : (Block.fuse b [c]).Beyond wanted i) :
    b.Beyond wanted i ∨ c.Covers i := by
  obtain ⟨here, _, _, next, _⟩ := tiled
  obtain ⟨⟨low, high⟩, past⟩ := beyond
  simp only [Block.fuse, Block.totalSize_cons, Block.totalSize_nil] at low high past
  rcases Nat.lt_or_ge (i + 4) (b.payload + b.size) with below | above
  · exact .inl ⟨⟨low, below⟩, past⟩
  · exact .inr ⟨by omega, by omega⟩

namespace Machine

/-- How moving the block ends.  In between, at `k`, both blocks are live. -/
inductive Moves (m : Machine) (blocks : List Block) (nodes : List Nat) (b : Block) (count : Nat) :
    Option Payload → Machine → Prop
  | denied {n : Machine} (heap : n.heap = m.heap) (segment : n.segment = m.segment)
      (denies : m.Denies blocks nodes count) : Moves m blocks nodes b count none n
  | served {k n : Machine} {p : Payload} {wanted growth : Nat} {middle new : List Block}
      {nodes' : List Nat} (positive : 0 < count) (adjusted : adjustedSize count = some wanted)
      (settled : n.heap.Settled new nodes')
      (serves : m.Serves k blocks nodes wanted growth p.offset middle)
      (releases : Block.Releases b.payload middle new) (stays : k.Stays n)
      (preserves : ∀ c ∈ blocks, c.allocated = true → c.payload ≠ b.payload → m.Preserves n c)
      (carries : ∀ i < min (b.size - 8) count,
        n.heap.byte (p.offset + i) = m.heap.byte (b.payload + i))
      (headerLike : m.BringsEven n → (∀ i, b.Owns i → ¬m.heap.HeaderLike i) →
        ∀ i, n.heap.HeaderLike i → m.heap.HeaderLike i ∧ b.payload ≠ i + 4 ∨ p.offset = i + 4) :
      Moves m blocks nodes b count (some p) n

inductive Resized (m : Machine) (blocks : List Block) (b : Block) (count : Nat) :
    Option Payload → Machine → Prop
  | denied {n : Machine} (heap : n.heap = m.heap) (segment : n.segment = m.segment)
      (refuses : m.terms.Refuses b.payload count blocks) : Resized m blocks b count none n
  | served {n : Machine} {p : Payload} {wanted growth : Nat} {new : List Block}
      {nodes' : List Nat} (adjusted : adjustedSize count = some wanted)
      (settled : n.heap.Settled new nodes')
      (expands : m.terms.Expands blocks wanted growth)
      (resizes : Block.Resizes m.heap.config.inPlaceResize wanted b.payload growth blocks
        p.offset new)
      (config : n.heap.config = m.heap.config) (size : n.heap.size = m.heap.size + growth)
      (preserves : ∀ c ∈ blocks, c.allocated = true → c.payload ≠ b.payload → m.Preserves n c)
      (carries : ∀ i < min (b.size - 8) count,
        n.heap.byte (p.offset + i) = m.heap.byte (b.payload + i))
      (headerLike : m.BringsEven n → (∀ i, b.Owns i → ¬m.heap.HeaderLike i) →
        ∀ i, n.heap.HeaderLike i → m.heap.HeaderLike i ∧ b.payload ≠ i + 4 ∨ p.offset = i + 4) :
      Resized m blocks b count (some p) n

variable {m : Machine} {blocks l₁ l₂ : List Block} {b c : Block} {nodes : List Nat}
  {count wanted : Nat}

theorem run_shrink (settled : m.heap.Settled (l₁ ++ b :: l₂) nodes) (live : b.allocated = true)
    (large : 16 ≤ wanted) (even : wanted % 8 = 0) (enough : wanted ≤ b.size) :
    ∃ n nodes', shrink b.payload b.size wanted m = .ok () n ∧
      n.heap.Settled (l₁ ++ b.shrunk wanted l₂) nodes' ∧
      Tidies (some b.payload) (fun i => b.Beyond wanted i ∨ Block.Spare (l₁ ++ b :: l₂) i)
        m n := by
  have remains : Offset.sub b.size wanted = .ok (b.size - wanted) :=
    Offset.sub_eq_ok_iff.2 ⟨enough, rfl⟩
  rw [shrink, remains, bind_of_ok (liftM_ok _ _)]
  by_cases room : minBlock ≤ b.size - wanted
  · have parted : m.heap.Keeps (l₁ ++ [b] ++ l₂) nodes [] := by simpa using settled.keeps
    obtain ⟨first, second, k, n, made, made', ran, rest, ran', kept, cursor, edits⟩ :=
      run_cut (t := b) parted (by simp [Block.free, live]) (fun _ _ tiled => tiled) large even room
    rw [if_pos room, made, bind_of_ok (liftM_ok _ _), bind_of_ok ran, rest,
      bind_of_ok (liftM_ok _ _), made', bind_of_ok (liftM_ok _ _), bind_of_ok ran']
    obtain ⟨below, here, _⟩ := List.isChain_append.1 settled.coalesced
    have above : Block.Coalesced l₂ := here.tail
    have below : Block.Coalesced (l₁ ++ [⟨b.payload, wanted, true⟩]) :=
      List.isChain_append.2 ⟨below, List.isChain_singleton _, fun _ _ c mem => by
        cases mem
        exact .inr rfl⟩
    have split : l₁ ++ b.carve wanted ++ l₂ = l₁ ++ [⟨b.payload, wanted, true⟩] ++
        ⟨b.payload + wanted, b.size - wanted, false⟩ :: l₂ := by
      simp [Block.carve, room]
    have aims : n.heap.Aims (l₁ ++ b.carve wanted ++ l₂) :=
      settled.aims.transfer edits.config edits.size cursor (Block.payloads_carve b wanted l₁ l₂)
    have spare : ∀ i, Block.Spare (l₁ ++ b.carve wanted ++ l₂) i →
        b.Beyond wanted i ∨ Block.Spare (l₁ ++ b :: l₂) i := by
      intro i spare
      exact (Block.spare_carve spare).imp_right fun spare => spare.mono (Block.mem_insert b)
    rw [split] at kept spare aims
    obtain ⟨k, front, w, back, ran'', merged, _, _, _, kept', _, aims', edits'⟩ :=
      run_merge kept below above aims
    have changes := (edits.mono fun i beyond => .inl beyond).trans ((edits'.open _).mono spare)
    have whole := (Block.merge_behind below rfl above).symm.trans merged
    rw [bind_of_ok ran'', Block.shrunk, if_pos room, whole]
    exact ⟨k, _, rfl, changes.settled settled kept' (merged ▸ Block.coalesced_merge _) aims',
      changes⟩
  · rw [if_neg room, Block.shrunk, if_neg room]
    exact ⟨m, nodes, rfl, settled, .refl _ _ m⟩

theorem absorbNext_false (settled : m.heap.Settled (l₁ ++ b :: l₂) nodes)
    (blocked : ∀ c ∈ l₂.head?, c.allocated = true ∨ b.size + c.size < wanted) :
    absorbNext b.payload b.size wanted m = .ok false m := by
  have spelt := settled.keeps.spelt
  rw [absorbNext, bind_of_ok (observe_of_ok (spelt.nextBlock (by simp)))]
  by_cases closed : ∀ c ∈ l₂.head?, c.allocated = true
  · obtain ⟨tag, read, flag⟩ := spelt.nextTag_of_closed closed
    rw [bind_of_ok (observe_of_ok read), if_pos flag]
    rfl
  · cases l₂ with
    | nil => simp at closed
    | cons c rest =>
      have open' : ¬c.allocated = true := by simpa using closed
      have short : b.size + c.size < wanted := (blocked c rfl).resolve_left open'
      have place := spelt.tiled.meets
      have bounds := spelt.bounds (b := c) (by simp)
      obtain ⟨tag, read, size, flag⟩ := spelt.tag (b := c) (by simp)
      rw [← place] at read
      have total : Offset.add b.size tag.size = .ok (b.size + tag.size) :=
        add_of_le spelt.bounded (by omega)
      rw [bind_of_ok (observe_of_ok read), if_neg (flag ▸ open'), total,
        bind_of_ok (liftM_ok _ _), size, if_pos short]
      rfl

theorem aims_absorbed {k : Heap} (settled : m.heap.Settled (l₁ ++ b :: c :: l₂) nodes)
    (config : k.config = m.heap.config) (size : k.size = m.heap.size)
    (cursor : k.cursor = m.heap.cursor) (short : b.size < wanted)
    (enough : wanted ≤ (Block.fuse b [c]).size)
    (spelt : k.Spells (l₁ ++ (Block.fuse b [c]).carve wanted ++ l₂)) :
    (k.steer fun cursor =>
      if b.payload < cursor ∧ cursor < b.payload + (Block.fuse b [c]).share wanted
        then b.payload + (Block.fuse b [c]).share wanted else cursor).Aims
      (l₁ ++ (Block.fuse b [c]).carve wanted ++ l₂) := by
  have place := settled.keeps.spelt.tiled.meets
  have bounds := settled.keeps.spelt.bounds (b := b) (by simp)
  have share := Block.le_share enough
  obtain ⟨rest, split⟩ := Block.carve_eq_cons (Block.fuse b [c]) wanted
  apply Heap.aims_steer
  intro kind
  rw [Heap.strategy_eq config] at kind
  rw [cursor]
  split
  · exact .inr (nextBlock_carve spelt).2
  · rename_i away
    rcases settled.aims kind with prologue | epilogue | block
    · exact .inl prologue
    · exact .inr (.inl (epilogue.trans size.symm))
    · refine .inr (.inr ?_)
      rw [split]
      simp only [Block.payloads_append, Block.payloads_cons, List.mem_append,
        List.mem_cons] at block ⊢
      rcases block with below | same | absorbed | above
      · exact .inl (.inl below)
      · exact .inl (.inr (.inl same))
      · exact absurd ⟨by omega, by omega⟩ away
      · exact .inr above

theorem run_absorbNext (settled : m.heap.Settled (l₁ ++ b :: c :: l₂) nodes)
    (live : b.allocated = true) (free : c.allocated = false) (large : 16 ≤ wanted)
    (even : wanted % 8 = 0) (enough : wanted ≤ b.size + c.size) (short : b.size < wanted) :
    ∃ n nodes', absorbNext b.payload b.size wanted m = .ok true n ∧
      n.heap.Settled (l₁ ++ (Block.fuse b [c]).carve wanted ++ l₂) nodes' ∧
      Tidies (some b.payload) (fun i => (Block.fuse b [c]).Beyond wanted i ∨
        Block.Spare (l₁ ++ b :: c :: l₂) i) m n := by
  have spelt := settled.keeps.spelt
  have place := spelt.tiled.meets
  have bounds := spelt.bounds (b := c) (by simp)
  obtain ⟨tag, read, size, flag⟩ := spelt.tag (b := c) (by simp)
  have total : Offset.add b.size tag.size = .ok (b.size + c.size) := by
    rw [size]
    exact add_of_le spelt.bounded (by omega)
  obtain ⟨k, ran, kept, cursor, edits⟩ :=
    run_loosen settled.keeps (by simp) (settled.keeps.mem_nodes (by simp) free)
  have parted : k.heap.Keeps (l₁ ++ [b, c] ++ l₂) (nodes.erase c.payload) [c.payload] := by
    simpa using kept
  have fused : (Block.fuse b [c]).size = b.size + c.size := by simp [Block.fuse]
  have room : wanted ≤ (Block.fuse b [c]).size := fused ▸ enough
  obtain ⟨n, ran', kept', cursor', edits'⟩ := run_splitAllocated (t := Block.fuse b [c]) parted
    (by simp [Block.free, live, free, Block.payloads]) (fun _ _ tiled => tiled.fuse) large even room
  rw [fused] at ran'
  rw [← place] at ran read
  have changes : Tidies (some b.payload) (fun i => (Block.fuse b [c]).Beyond wanted i ∨
      Block.Spare (l₁ ++ b :: c :: l₂) i) m n := by
    refine ((edits.open _).mono fun i spare => .inr spare).trans (edits'.mono fun i => ?_)
    refine Or.imp_right fun spare => spare.mono ?_
    intro d mem
    rcases List.mem_append.1 mem with below | above
    · simp [below]
    · simp [above]
  have config := changes.config
  have size' := changes.size
  obtain ⟨next, _⟩ := nextBlock_carve kept'.spelt
  rw [absorbNext, bind_of_ok (observe_of_ok (spelt.nextBlock (by simp))),
    bind_of_ok (observe_of_ok read), if_neg (by rw [flag, free]; exact Bool.false_ne_true), total,
    bind_of_ok (liftM_ok _ _), if_neg (Nat.not_lt.2 enough)]
  have changes := changes.trans (tidies_steer _ _ n fun cursor =>
    if b.payload < cursor ∧ cursor < b.payload + (Block.fuse b [c]).share wanted
      then b.payload + (Block.fuse b [c]).share wanted else cursor)
  refine ⟨_, _, ?_, changes.settled settled (kept'.steer _) ?_ ?_, changes⟩
  · refine (bind_of_ok ran).trans ((bind_of_ok ran').trans ?_)
    exact (bind_of_ok (observe_of_ok next)).trans rfl
  · obtain ⟨below, here, _⟩ := List.isChain_append.1 settled.coalesced
    obtain ⟨closed, above⟩ := List.isChain_cons.1 (List.isChain_cons.1 here).2
    exact Block.Coalesced.carve below above (fun d mem => by simpa [free] using closed d mem) _ _
  · exact aims_absorbed settled config size' (cursor'.trans cursor) short room kept'.spelt

theorem resizeInPlace_true (settled : m.heap.Settled (l₁ ++ b :: l₂) nodes)
    (live : b.allocated = true) (large : 16 ≤ wanted) (even : wanted % 8 = 0) {run : List Block}
    (fits : b.refit wanted l₂ = some run) :
    ∃ n nodes', resizeInPlace b.payload b.size wanted m = .ok true n ∧
      n.heap.Settled (l₁ ++ run) nodes' ∧
      Tidies (some b.payload) (fun i => b.Beyond wanted i ∨ Block.Spare (l₁ ++ b :: l₂) i)
        m n := by
  rcases Block.refit_cases fits with ⟨enough, rfl⟩ | ⟨c, rest, rfl, free, short, enough, rfl⟩
  · obtain ⟨n, nodes', ran, settled', edits⟩ := run_shrink settled live large even enough
    refine ⟨n, nodes', ?_, settled', edits⟩
    rw [resizeInPlace, if_pos enough, bind_of_ok ran]
    rfl
  · obtain ⟨n, nodes', ran, settled', edits⟩ :=
      run_absorbNext settled live free large even enough short
    rw [List.append_assoc] at settled'
    refine ⟨n, nodes', ?_, settled', edits.mono ?_⟩
    · rw [resizeInPlace, if_neg (Nat.not_le.2 short), ran]
    · rintro i (beyond | spare)
      · apply (Block.beyond_fuse settled.keeps.spelt.tiled.split.2 beyond).imp_right
        exact fun inside => ⟨c, Block.mem_free.2 ⟨by simp, free⟩, inside⟩
      · exact .inr spare

theorem resizeInPlace_false (settled : m.heap.Settled (l₁ ++ b :: l₂) nodes)
    (outgrown : b.Outgrown wanted l₂) :
    resizeInPlace b.payload b.size wanted m = .ok false m := by
  rw [resizeInPlace, if_neg (Nat.not_le.2 outgrown.1)]
  exact absorbNext_false settled outgrown.2

theorem copyBytes_ok {source target : Nat} (small : m.heap.size ≤ Heap.maxRegion)
    (start : source + count ≤ m.heap.size) (stop : target + count ≤ m.heap.size) :
    copyBytes source count target m = .ok () { m with
      heap := m.heap.overwritten target (m.heap.region.memory.slice source count) } := by
  have inside : requires (source + count ≤ m.heap.size && target + count ≤ m.heap.size) .range =
      .ok () := by
    simp [start, stop]
  rw [copyBytes, add_of_le small start, bind_of_ok (liftM_ok _ _), bind_current, inside,
    bind_of_ok (liftM_ok _ _), store_eq]
  rfl

theorem byte_copied {source target : Nat} (start : source + count ≤ m.heap.size)
    (stop : target + count ≤ m.heap.size) (i : Nat) :
    (m.heap.overwritten target (m.heap.region.memory.slice source count)).byte i =
      if target ≤ i ∧ i < target + count then m.heap.byte (source + (i - target))
      else m.heap.byte i := by
  have size : (m.heap.region.memory.slice source count).size = count := Memory.size_slice start
  rw [Heap.byte_overwritten (by rw [size]; exact stop), size]
  split
  · rename_i within
    exact Memory.byte_slice (by omega)
  · rfl

theorem run_copyBytes {d : Block} (settled : m.heap.Settled blocks nodes) (source : b ∈ blocks)
    (target : d ∈ blocks) (live : d.allocated = true) (first : count + 8 ≤ b.size)
    (second : count + 8 ≤ d.size) :
    ∃ n, copyBytes b.payload count d.payload m = .ok () n ∧ n.heap.Settled blocks nodes ∧
      m.Stays n ∧ (∀ c ∈ blocks, c ≠ d → m.Preserves n c) ∧
      ∀ i < count, n.heap.byte (d.payload + i) = m.heap.byte (b.payload + i) := by
  have spelt := settled.keeps.spelt
  have low := spelt.bounds source
  have high := spelt.bounds target
  have start : b.payload + count ≤ m.heap.size := by omega
  have stop : d.payload + count ≤ m.heap.size := by omega
  have size : (m.heap.region.memory.slice b.payload count).size = count := Memory.size_slice start
  refine ⟨_, copyBytes_ok spelt.bounded start stop, ?_, ⟨rfl, rfl, rfl, ?_⟩, ?_, ?_⟩
  · exact settled.overwrite target live (Nat.le_refl _) (by rw [size]; omega)
  · exact Heap.size_overwritten
  · intro c mem other i inside
    refine (byte_copied start stop i).trans (if_neg fun within => other ?_)
    exact spelt.tiled.eq_of_covers mem target inside ⟨by omega, by omega⟩
  · intro i below
    apply (byte_copied start stop (d.payload + i)).trans
    rw [if_pos ⟨by omega, by omega⟩, Nat.add_sub_cancel_left]

theorem headerLike_copyBytes {d : Block} {n : Machine} (settled : m.heap.Settled blocks nodes)
    (source : b ∈ blocks) (target : d ∈ blocks) (first : count + 8 ≤ b.size)
    (second : count + 8 ≤ d.size) (still : ∀ i, b.Owns i → ¬m.heap.HeaderLike i)
    (ran : copyBytes b.payload count d.payload m = .ok () n) {i : Nat}
    (poses : n.heap.HeaderLike i) :
    m.heap.HeaderLike i := by
  have spelt := settled.keeps.spelt
  have low := spelt.bounds source
  have high := spelt.bounds target
  have onGrid := spelt.onGrid source
  have onGrid' := spelt.onGrid target
  have start : b.payload + count ≤ m.heap.size := by omega
  have stop : d.payload + count ≤ m.heap.size := by omega
  have copied := copyBytes_ok spelt.bounded start stop
  cases ran.symm.trans copied
  have above := poses.above
  have place := poses.place
  have below := poses.below
  have flag := poses.flag
  rw [Heap.size_overwritten] at below
  rw [byte_copied start stop] at flag
  split at flag
  · rename_i within
    have owned : b.Owns (b.payload + (i - d.payload)) := ⟨by omega, by omega⟩
    exact absurd ⟨by omega, by omega, by omega, flag⟩ (still _ owned)
  · exact ⟨above, place, below, flag⟩

theorem Serves.still {k : Machine} {middle : List Block} {nodes' : List Nat}
    {wanted growth target share : Nat} (settled' : k.heap.Settled middle nodes')
    (serves : m.Serves k blocks nodes wanted growth target middle) (here : b ∈ middle)
    (there : ⟨target, share, true⟩ ∈ middle) (different : b.payload ≠ target)
    (even : m.BringsEven k) (still : ∀ i, b.Owns i → ¬m.heap.HeaderLike i) :
    ∀ i, b.Owns i → ¬k.heap.HeaderLike i := by
  intro i owned poses
  -- the only new header is that of the block handed out, which is not this one
  rcases serves.headerLike even i poses with poses | opened
  · exact still i owned poses
  · have bounds := settled'.keeps.spelt.bounds there
    have inside : b.Covers (i + 4) := ⟨by have := owned.1; omega, by have := owned.2; omega⟩
    have own : Block.Covers ⟨target, share, true⟩ (i + 4) :=
      ⟨by simp only; omega, by simp only at bounds ⊢; omega⟩
    cases settled'.keeps.spelt.tiled.eq_of_covers here there inside own
    exact different rfl

theorem resizeByCopy_eq {k : Machine} {p : Payload} {middle : List Block} {growth : Nat}
    (settled : m.heap.Settled blocks nodes) (mem : b ∈ blocks) (live : b.allocated = true)
    {tag : Tag} (size : tag.size = b.size) (ran : allocate count m = .ok (some p) k)
    (adjusted : adjustedSize count = some wanted)
    (serves : m.Serves k blocks nodes wanted growth p.offset middle) :
    ∃ share, b ∈ middle ∧ ⟨p.offset, share, true⟩ ∈ middle ∧
      min (b.size - 8) count + 8 ≤ b.size ∧ min (b.size - 8) count + 8 ≤ share ∧
      resizeByCopy ⟨b.payload⟩ tag count m = (do
        copyBytes b.payload (min (b.size - 8) count) p.offset
        release ⟨b.payload⟩
        note (.resizedByCopy b.payload p.offset count)
        return some p) k := by
  obtain ⟨large, even, _, enough⟩ := adjustedSize_bounds adjusted
  have tiled := settled.keeps.spelt.tiled
  have bounds := settled.keeps.spelt.bounds mem
  obtain ⟨share, sized, handed⟩ := serves.allocates.live_iff tiled large even
  have capacity : Offset.sub tag.size tagBytes = .ok (b.size - 8) :=
    Offset.sub_eq_ok_iff.2 ⟨by simp only [tagBytes]; omega, by rw [size]; rfl⟩
  refine ⟨share, (handed b live).2 (.inl mem), (handed ⟨p.offset, share, true⟩ rfl).2 (.inr rfl),
    by omega, by omega, ?_⟩
  rw [resizeByCopy, bind_of_ok ran]
  dsimp only
  rw [capacity, bind_of_ok (liftM_ok _ _)]

theorem run_resizeByCopy (settled : m.heap.Settled blocks nodes) (mem : b ∈ blocks)
    (live : b.allocated = true) {tag : Tag} (size : tag.size = b.size) (count : Nat) :
    ∃ reply n, resizeByCopy ⟨b.payload⟩ tag count m = .ok reply n ∧
      m.Moves blocks nodes b count reply n := by
  obtain ⟨reply, k, ran, allots⟩ := run_allocate settled count
  cases allots with
  | denied heap segment denies =>
    refine ⟨none, k, ?_, .denied heap segment denies⟩
    rw [resizeByCopy, bind_of_ok ran]
    rfl
  | @served _ p wanted growth middle _ positive adjusted settled' serves =>
    obtain ⟨large, even, _⟩ := adjustedSize_bounds adjusted
    have tiled := settled.keeps.spelt.tiled
    have bounds := settled.keeps.spelt.bounds mem
    obtain ⟨share, here, there, first, second, same⟩ :=
      resizeByCopy_eq settled mem live size ran adjusted serves
    obtain ⟨_, _, handed⟩ := serves.allocates.live_iff tiled large even
    have different := serves.allocates.fresh tiled mem live
    obtain ⟨l, ran', copied, stays, kept, carried⟩ :=
      run_copyBytes settled' here there rfl first second
    obtain ⟨n, new, nodes', ran'', settled'', releases, stays', kept'⟩ :=
      releases copied here live
    refine ⟨some p, n.noting (.resizedByCopy b.payload p.offset count), ?_,
      .served positive adjusted settled'' serves releases ((stays.trans stays').noting _) ?_ ?_
        ?_⟩
    · rw [same, bind_of_ok ran', bind_of_ok ran'']
      rfl
    · intro c mem' live' other
      have moved : c ≠ ⟨p.offset, share, true⟩ := fun same =>
        serves.allocates.fresh tiled mem' live' (congrArg _ same)
      have still := (handed c live').2 (.inl mem')
      exact (serves.preserves c mem' live').trans
        ((kept c still moved).trans (kept' c still live' other))
    · intro i below
      have inside : Block.Covers ⟨p.offset, share, true⟩ (p.offset + i) :=
        ⟨by simp only; omega, by simp only; omega⟩
      have outside : b.Covers (b.payload + i) := ⟨by omega, by omega⟩
      exact (kept' _ there rfl (Ne.symm different) _ inside).trans
        ((carried i below).trans (serves.preserves b mem live _ outside))
    · intro even still i poses
      have even := even.congr (k := k) (stays'.size.trans stays.size).symm
      have still' := serves.still settled' here there different even still
      obtain ⟨poses, away⟩ := headerLike_release copied here live ran'' poses
      have poses := headerLike_copyBytes settled' here there first second still' ran' poses
      exact (serves.headerLike even i poses).imp_left fun poses => ⟨poses, away⟩

theorem resize_none (settled : m.heap.Settled blocks nodes) (count : Nat) :
    resize none count m = allocate count m := by
  rw [resize, bind_of_ok (observe_of_ok (initialized_ok settled))]

theorem resize_zero (settled : m.heap.Settled blocks nodes) (p : Payload) :
    resize (some p) 0 m = (do release p; return none) m := by
  rw [resize, bind_of_ok (observe_of_ok (initialized_ok settled))]

section sized

variable (settled : m.heap.Settled (l₁ ++ b :: l₂) nodes) (live : b.allocated = true)
  (positive : 0 < count)
include settled positive

theorem resize_tooLarge (p : Payload) (unfit : adjustedSize count = none) :
    resize (some p) count m = .ok none (m.noting (.resizeTooLarge count)) := by
  rw [resize, bind_of_ok (observe_of_ok (initialized_ok settled))]
  · simp only [unfit]
    rfl
  · exact Nat.ne_of_gt positive

variable (adjusted : adjustedSize count = some wanted)
include live adjusted

theorem resize_eq : ∃ tag : Tag, tag.size = b.size ∧
    resize (some ⟨b.payload⟩) count m = (do
      if m.heap.config.inPlaceResize then
        if ← resizeInPlace b.payload b.size wanted then
          note (.resizedInPlace b.payload count)
          return some (⟨b.payload⟩ : Payload)
      resizeByCopy ⟨b.payload⟩ tag count) m := by
  obtain ⟨tag, read, size, _⟩ := settled.keeps.spelt.allocatedTag (b := b) (by simp) live .resize
  refine ⟨tag, size, ?_⟩
  rw [resize, bind_of_ok (observe_of_ok (initialized_ok settled))]
  · simp only [adjusted]
    rw [bind_of_ok (observe_of_ok read), bind_current, size]
  · exact Nat.ne_of_gt positive

theorem resize_here {run : List Block} (allowed : m.heap.config.inPlaceResize = true)
    (fits : b.refit wanted l₂ = some run) :
    ∃ n nodes', resize (some ⟨b.payload⟩) count m = .ok (some ⟨b.payload⟩) n ∧
      n.heap.Settled (l₁ ++ run) nodes' ∧ m.Stays n ∧
      (∀ c ∈ l₁ ++ b :: l₂, c.allocated = true → c.payload ≠ b.payload → m.Preserves n c) ∧
      (∀ i < min (b.size - 8) count,
        n.heap.byte (b.payload + i) = m.heap.byte (b.payload + i)) ∧
      ∀ i, n.heap.HeaderLike i → m.heap.HeaderLike i ∧ b.payload ≠ i + 4 ∨ b.payload = i + 4 := by
  obtain ⟨large, even, _, enough⟩ := adjustedSize_bounds adjusted
  obtain ⟨tag, _, same⟩ := resize_eq settled live positive adjusted
  obtain ⟨n, nodes', ran, settled', edits⟩ := resizeInPlace_true settled live large even fits
  have tiled := settled.keeps.spelt.tiled
  have bounds := settled.keeps.spelt.bounds (b := b) (by simp)
  refine ⟨n.noting (.resizedInPlace b.payload count), nodes', ?_, settled',
    edits.stays.noting _, ?_, ?_, ?_⟩
  · rw [same, if_pos allowed, bind_of_ok ran]
    rfl
  · intro c mem live' different i inside
    apply edits.byte i
    rintro (beyond | spare)
    · exact different (congrArg _ (tiled.eq_of_covers mem (by simp) inside beyond.1))
    · exact Block.not_spare tiled mem live' inside spare
  · intro i below
    apply edits.byte (b.payload + i)
    rintro (beyond | spare)
    · exact beyond.2 ⟨by omega, by omega⟩
    · exact Block.not_spare tiled (by simp) live ⟨by omega, by omega⟩ spare
  · intro i poses
    by_cases here : b.payload = i + 4
    · exact .inr here
    · exact .inl ⟨(edits.headerLike i poses).resolve_right (here ∘ Option.some.inj), here⟩

theorem resize_away
    (outgrown : m.heap.config.inPlaceResize = true → b.Outgrown wanted l₂) :
    ∃ reply n, resize (some ⟨b.payload⟩) count m = .ok reply n ∧
      m.Moves (l₁ ++ b :: l₂) nodes b count reply n := by
  obtain ⟨tag, size, same⟩ := resize_eq settled live positive adjusted
  obtain ⟨reply, n, ran, moves⟩ := run_resizeByCopy settled (by simp) live size count
  refine ⟨reply, n, ?_, moves⟩
  rw [same]
  split
  · rename_i allowed
    rw [bind_of_ok (resizeInPlace_false settled (outgrown allowed))]
    exact ran
  · exact ran

end sized

theorem run_resize (settled : m.heap.Settled blocks nodes) (mem : b ∈ blocks)
    (live : b.allocated = true) (positive : 0 < count) :
    ∃ reply n, resize (some ⟨b.payload⟩) count m = .ok reply n ∧
      m.Resized blocks b count reply n := by
  obtain ⟨l₁, l₂, rfl⟩ := List.append_of_mem mem
  cases adjusted : adjustedSize count with
  | none =>
    refine ⟨none, _, resize_tooLarge settled positive _ adjusted,
      .denied rfl rfl (.cornered rfl live ?_ ?_)⟩
    · intro wanted fits
      cases adjusted.symm.trans fits
    · intro wanted _ fits
      cases adjusted.symm.trans fits
  | some wanted =>
    by_cases outgrown : m.heap.config.inPlaceResize = true → b.Outgrown wanted l₂
    · obtain ⟨reply, n, ran, moves⟩ := resize_away settled live positive adjusted outgrown
      refine ⟨reply, n, ran, ?_⟩
      cases moves with
      | denied heap segment denies =>
        refine .denied heap segment (.cornered rfl live ?_ (denies.terms settled))
        intro other fits
        cases adjusted.symm.trans fits
        exact outgrown
      | served _ adjusted' settled' serves releases stays preserves carries headerLike =>
        cases adjusted.symm.trans adjusted'
        exact .served adjusted settled' (serves.expands settled)
          (.moved rfl live outgrown serves.allocates releases) (stays.config.trans serves.config)
          (stays.size.trans serves.size) preserves carries headerLike
    · obtain ⟨allowed, room⟩ := Classical.not_imp.1 outgrown
      obtain ⟨run, fits⟩ := Option.ne_none_iff_exists'.1 (mt Block.refit_eq_none_iff.1 room)
      obtain ⟨n, nodes', ran, settled', stays, preserves, carries, headerLike⟩ :=
        resize_here settled live positive adjusted allowed fits
      have resizes : Block.Resizes m.heap.config.inPlaceResize wanted b.payload 0
          (l₁ ++ b :: l₂) b.payload (l₁ ++ run) := by
        rw [allowed]
        exact .of_refit live fits
      exact ⟨_, n, ran, .served adjusted settled' (.inl rfl) resizes stays.config stays.size
        preserves carries fun _ _ => headerLike⟩

end Machine

end BoundaryTag
