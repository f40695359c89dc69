import BoundaryTag.Proofs.Reading
import BoundaryTag.Proofs.Searching
import BoundaryTag.Proofs.Sessions

/-! Clearing.  What is left once some payloads are released depends on which ones they were, not on
the order.  A release merges its block with what is free around it, so two orders differ at every
step; but it makes no difference whether free neighbours are merged before or after more blocks
become free.  So there is a normal form, in which all blocks are marked first and merged once: one
release leads to that of its own payload, and normal forms compose.  The cursor has one as well.
It stays with the byte that it points to, and goes to the start of the block that this byte ends up
in. -/

namespace BoundaryTag

namespace Block

variable {b c v : Block} {blocks : List Block} {ps : List Payload} {start stop x : Nat}

def marked (ps : List Payload) (b : Block) : Block := if ⟨b.payload⟩ ∈ ps then b.released else b

def cleared (ps : List Payload) (blocks : List Block) : List Block :=
  merge (blocks.map (marked ps))

/-- The start of the block that a cursor is in, if it is in one. -/
def seat (blocks : List Block) (cursor : Nat) : Nat :=
  match blocks.find? fun b => b.payload ≤ cursor && cursor < b.payload + b.size with
  | some b => b.payload
  | none => cursor

@[simp] theorem payload_marked (ps : List Payload) (b : Block) :
    (b.marked ps).payload = b.payload := by
  unfold marked
  split <;> rfl

@[simp] theorem size_marked (ps : List Payload) (b : Block) : (b.marked ps).size = b.size := by
  unfold marked
  split <;> rfl

theorem marked_of_free (free : b.allocated = false) : b.marked ps = b := by
  unfold marked released
  split
  · rw [← free]
  · rfl

@[simp] theorem marked_nil (b : Block) : b.marked [] = b := rfl

theorem marked_marked (p : Payload) : (b.marked [p]).marked ps = b.marked (p :: ps) := by
  by_cases first : (⟨b.payload⟩ : Payload) = p
  · have free : (b.marked [p]).allocated = false := by simp [marked, first, released]
    rw [marked_of_free free]
    simp [marked, first]
  · simp [marked, first]

theorem attach_attach (first : b.allocated = false) (second : c.allocated = false)
    (l : List Block) :
    attach b (attach c l) = attach ⟨b.payload, b.size + c.size, false⟩ l := by
  cases l with
  | nil => simp [attach, first, second]
  | cons d rest =>
    cases live : d.allocated with
    | true => simp [attach, first, second, live]
    | false => simp [attach, first, second, live, Nat.add_assoc]

/-- It does not matter whether free neighbours are merged before more blocks become free. -/
theorem merge_map_merge {f : Block → Block} (keeps : ∀ b, b.allocated = false → f b = b)
    (blocks : List Block) : merge ((merge blocks).map f) = merge (blocks.map f) := by
  have step (b : Block) (l : List Block) : merge ((attach b l).map f) = merge ((b :: l).map f) := by
    cases l with
    | nil => rfl
    | cons c rest =>
      rw [attach]
      split
      · rfl
      · rename_i neither
        obtain ⟨first, second⟩ : b.allocated = false ∧ c.allocated = false := by
          simpa using neither
        simp only [List.map_cons, merge_cons]
        rw [keeps b first, keeps c second, keeps _ rfl, attach_attach first second]
  induction blocks with
  | nil => rfl
  | cons b rest ih =>
    rw [merge_cons, step, List.map_cons, merge_cons, ih, List.map_cons, merge_cons]

theorem cleared_nil (coalesced : Coalesced blocks) : cleared [] blocks = blocks := by
  have same : blocks.map (marked []) = blocks := List.map_id'' marked_nil blocks
  rw [cleared, same, merge_eq_self coalesced]

theorem cleared_cleared (p : Payload) (ps : List Payload) (blocks : List Block) :
    cleared ps (cleared [p] blocks) = cleared (p :: ps) blocks := by
  rw [cleared, cleared, merge_map_merge fun b free => marked_of_free free, List.map_map]
  refine congrArg merge (List.map_congr_left fun b _ => ?_)
  exact marked_marked p

theorem cleared_one {l₁ l₂ : List Block} (tiled : Tiles start (l₁ ++ b :: l₂) stop) :
    cleared [⟨b.payload⟩] (l₁ ++ b :: l₂) = merge (l₁ ++ b.released :: l₂) := by
  have here : b.marked [⟨b.payload⟩] = b.released := by simp [marked]
  have others : ∀ c ∈ l₁ ++ l₂, c.marked [⟨b.payload⟩] = c := by
    intro c mem
    have different := (tiled.others_iff.2 (List.mem_append.1 mem)).2
    simp [marked, different]
  have below : l₁.map (marked [⟨b.payload⟩]) = l₁.map id :=
    List.map_congr_left fun c mem => others c (List.mem_append_left l₂ mem)
  have above : l₂.map (marked [⟨b.payload⟩]) = l₂.map id :=
    List.map_congr_left fun c mem => others c (List.mem_append_right l₁ mem)
  rw [cleared, List.map_append, List.map_cons, here, below, above, List.map_id, List.map_id]

theorem tiles_marked (tiled : Tiles start blocks stop) (ps : List Payload) :
    Tiles start (blocks.map (marked ps)) stop := by
  induction blocks generalizing start with
  | nil => exact tiled
  | cons b rest ih =>
    obtain ⟨here, large, even, tiled⟩ := tiled
    have size : (b.marked ps).size = b.size := size_marked ps b
    exact ⟨(payload_marked ps b).trans here, size ▸ large, size ▸ even, size ▸ ih tiled⟩

theorem Tiles.cleared (tiled : Tiles start blocks stop) (ps : List Payload) :
    Tiles start (cleared ps blocks) stop :=
  (tiles_marked tiled ps).merge

theorem mem_cleared (mem : b ∈ blocks) (live : b.allocated = true)
    (kept : (⟨b.payload⟩ : Payload) ∉ ps) : b ∈ cleared ps blocks := by
  have same : b.marked ps = b := if_neg kept
  exact (mem_merge_of_allocated live).2 (List.mem_map.2 ⟨b, mem, same⟩)

theorem Tiles.eq_of_free (tiled : Tiles start [b] stop) (free : b.allocated = false) :
    b = ⟨start, stop - start, false⟩ := by
  obtain ⟨here, _, _, top⟩ := tiles_singleton.1 tiled
  obtain ⟨payload, size, flag⟩ := b
  cases here
  cases free
  rw [← top, Nat.add_sub_cancel_left]

theorem cleared_all (tiled : Tiles start blocks stop) (room : start < stop)
    (all : ∀ b ∈ blocks, b.allocated = true → (⟨b.payload⟩ : Payload) ∈ ps) :
    cleared ps blocks = [⟨start, stop - start, false⟩] := by
  have free : ∀ b ∈ blocks, (b.marked ps).allocated = false := by
    intro b mem
    cases live : b.allocated with
    | false => rw [marked_of_free live, live]
    | true => rw [marked, if_pos (all b mem live), released]
  cases blocks with
  | nil =>
    have empty : start = stop := tiled
    omega
  | cons b rest =>
    obtain ⟨first, others⟩ := List.forall_mem_cons.1 free
    have run : ∀ c ∈ rest.map (marked ps), c.allocated = false := by
      intro c mem
      obtain ⟨d, listed, rfl⟩ := List.mem_map.1 mem
      exact others d listed
    have merged := merge_free_run first run List.isChain_nil (by simp)
    rw [List.append_nil] at merged
    have whole := tiled.cleared ps
    rw [cleared, List.map_cons, merged] at whole ⊢
    rw [whole.eq_of_free rfl]

theorem exists_host (tiled : Tiles start blocks stop) (mem : b ∈ blocks) :
    ∃ v ∈ merge blocks, v.payload ≤ b.payload ∧ b.payload + b.size ≤ v.payload + v.size := by
  induction blocks generalizing start with
  | nil => cases mem
  | cons c rest ih =>
    obtain ⟨here, large, even, tiled⟩ := tiled
    have step {v : Block} (mem : v ∈ c :: merge rest) :
        ∃ w ∈ attach c (merge rest), w.payload ≤ v.payload ∧
          v.payload + v.size ≤ w.payload + w.size := by
      have joined : Tiles start (c :: merge rest) stop := ⟨here, large, even, tiled.merge⟩
      cases rest' : merge rest with
      | nil =>
        rw [rest'] at mem
        exact ⟨v, mem, Nat.le_refl _, Nat.le_refl _⟩
      | cons d more =>
        rw [rest'] at mem joined
        have meets : c.payload + c.size = d.payload := by
          rw [here, joined.2.2.2.1]
        rw [attach]
        split
        · exact ⟨v, mem, Nat.le_refl _, Nat.le_refl _⟩
        · rcases List.mem_cons.1 mem with rfl | mem
          · exact ⟨_, List.mem_cons_self, Nat.le_refl _, by simp only; omega⟩
          · rcases List.mem_cons.1 mem with rfl | mem
            · exact ⟨_, List.mem_cons_self, by simp only; omega, by simp only; omega⟩
            · exact ⟨v, List.mem_cons_of_mem _ mem, Nat.le_refl _, Nat.le_refl _⟩
    rcases List.mem_cons.1 mem with rfl | above
    · exact step List.mem_cons_self
    · obtain ⟨v, mem, low, high⟩ := ih tiled above
      obtain ⟨w, mem, low', high'⟩ := step (List.mem_cons_of_mem c mem)
      exact ⟨w, mem, by omega, by omega⟩

theorem seat_eq_of_mem (tiled : Tiles start blocks stop) (low : 4 ≤ start) (mem : v ∈ blocks)
    (above : v.payload ≤ x) (below : x < v.payload + v.size) : seat blocks x = v.payload := by
  have bounds := tiled.bounds mem
  unfold seat
  split
  · rename_i w found
    have within : w.payload ≤ x ∧ x < w.payload + w.size := by
      simpa using List.find?_some found
    have same := tiled.eq_of_covers (i := x - 4) mem (List.mem_of_find?_eq_some found)
      ⟨by omega, by omega⟩ ⟨by omega, by omega⟩
    rw [same]
  · rename_i missed
    have outside := List.find?_eq_none.1 missed v mem
    simp [above, below] at outside

theorem seat_eq_self (outside : ∀ b ∈ blocks, b.payload ≤ x → b.payload + b.size ≤ x) :
    seat blocks x = x := by
  unfold seat
  split
  · rename_i w found
    have within : w.payload ≤ x ∧ x < w.payload + w.size := by
      simpa using List.find?_some found
    have := outside w (List.mem_of_find?_eq_some found) within.1
    omega
  · rfl

theorem rewind_eq_seat (tiled : Tiles start blocks stop) (low : 4 ≤ start) (mem : b ∈ blocks)
    (still : seat blocks (b.rewind x) = b.rewind x) : b.rewind x = seat blocks x := by
  by_cases inside : b.payload ≤ x ∧ x < b.payload + b.size
  · rw [seat_eq_of_mem tiled low mem inside.1 inside.2, rewind]
    split <;> omega
  · have away : b.rewind x = x := if_neg (by omega)
    rw [away] at still ⊢
    exact still.symm

theorem seat_seat (tiled : Tiles start blocks stop) (low : 4 ≤ start) (ps : List Payload)
    (x : Nat) : seat (cleared ps blocks) (seat blocks x) = seat (cleared ps blocks) x := by
  by_cases within : ∃ b ∈ blocks, b.payload ≤ x ∧ x < b.payload + b.size
  · obtain ⟨b, mem, above, below⟩ := within
    have bounds := tiled.bounds mem
    have marked : b.marked ps ∈ blocks.map (marked ps) := List.mem_map_of_mem mem
    obtain ⟨v, host, first, last⟩ := exists_host (tiles_marked tiled ps) marked
    rw [payload_marked, size_marked] at last
    rw [payload_marked] at first
    have whole := tiled.cleared ps
    rw [seat_eq_of_mem tiled low mem above below,
      seat_eq_of_mem whole low host first (by omega),
      seat_eq_of_mem whole low host (by omega) (by omega)]
  · have away : seat blocks x = x := seat_eq_self fun b mem above =>
      Nat.le_of_not_lt fun below => within ⟨b, mem, above, below⟩
    rw [away]

end Block

namespace Heap

variable {h : Heap} {blocks : List Block} {w : Block}

theorem Aims.seat_eq (aims : h.Aims blocks) (spelt : h.Spells blocks)
    (resumes : h.strategy = .nextFit) : Block.seat blocks h.cursor = h.cursor := by
  rcases aims resumes with first | last | within
  · refine Block.seat_eq_self fun b mem above => ?_
    have := (spelt.bounds mem).1
    simp only [first, prologue] at above
    omega
  · refine Block.seat_eq_self fun b mem _ => ?_
    rw [last]
    exact (spelt.bounds mem).2.1
  · obtain ⟨b, mem, here⟩ := List.mem_map.1 within
    have large := (spelt.bounds mem).2.2.1
    rw [Block.seat_eq_of_mem spelt.tiled (by decide) mem (by omega) (by omega), here]

theorem Settled.cursor_eq {k : Heap} {nodes : List Nat} (settled : k.Settled blocks nodes)
    (config : k.config = h.config) (mem : w ∈ blocks)
    (cursor : k.cursor = (h.steer w.rewind).cursor) :
    k.cursor = (h.steer (Block.seat blocks)).cursor := by
  have spelt := settled.keeps.spelt
  rw [cursor_steer] at cursor ⊢
  split
  · rename_i resumes
    rw [if_pos resumes] at cursor
    have still := settled.aims.seat_eq spelt ((strategy_eq config).trans resumes)
    rw [cursor] at still ⊢
    exact Block.rewind_eq_seat spelt.tiled (by decide) mem still
  · rename_i other
    rw [cursor, if_neg other]

end Heap

namespace Machine

structure Clears (m n : Machine) (blocks : List Block) (ps : List Payload) (nodes : List Nat) :
    Prop where
  settled : n.heap.Settled (Block.cleared ps blocks) nodes
  stays : m.Stays n
  cursor : n.heap.cursor = (m.heap.steer (Block.seat (Block.cleared ps blocks))).cursor
  preserves : ∀ c ∈ blocks, c.allocated = true → (⟨c.payload⟩ : Payload) ∉ ps → m.Preserves n c

variable {m k n : Machine} {blocks : List Block} {nodes : List Nat} {b : Block} {p : Payload}
  {ps : List Payload}

theorem Clears.refl (settled : m.heap.Settled blocks nodes) : m.Clears m blocks [] nodes := by
  have same := Block.cleared_nil settled.coalesced
  refine ⟨same.symm ▸ settled, ⟨rfl, rfl, rfl, rfl⟩, ?_, fun _ _ _ _ _ _ => rfl⟩
  rw [same, Heap.cursor_steer]
  split
  · rename_i resumes
    exact (settled.aims.seat_eq settled.keeps.spelt resumes).symm
  · rfl

theorem Clears.trans {nodes' : List Nat} (tiled : Block.Tiles Heap.firstBlock blocks m.heap.size)
    (first : m.Clears k blocks [p] nodes)
    (rest : k.Clears n (Block.cleared [p] blocks) ps nodes') :
    m.Clears n blocks (p :: ps) nodes' := by
  have whole := Block.cleared_cleared p ps blocks
  refine ⟨whole ▸ rest.settled, first.stays.trans rest.stays, ?_, ?_⟩
  · rw [← whole, rest.cursor, Heap.cursor_steer, Heap.cursor_steer, first.cursor,
      Heap.cursor_steer, Heap.strategy_eq first.stays.config]
    split
    · exact Block.seat_seat (tiled.cleared [p]) (by decide) ps _
    · rfl
  · intro c mem live kept
    obtain ⟨other, kept⟩ := not_or.1 (mt List.mem_cons.2 kept)
    have alone : (⟨c.payload⟩ : Payload) ∉ [p] := by simpa using other
    exact (first.preserves c mem live alone).trans
      (rest.preserves c (Block.mem_cleared mem live alone) live kept)

theorem Clears.perm {qs : List Payload} (clears : m.Clears n blocks qs nodes)
    (same : qs.Perm ps) : m.Clears n blocks ps nodes := by
  have marked : Block.cleared qs blocks = Block.cleared ps blocks := by
    refine congrArg Block.merge (List.map_congr_left fun b _ => ?_)
    simp only [Block.marked, same.mem_iff]
  exact ⟨marked ▸ clears.settled, clears.stays, marked ▸ clears.cursor,
    fun c mem live kept => clears.preserves c mem live (mt same.mem_iff.1 kept)⟩

theorem run_release_one (settled : m.heap.Settled blocks nodes) (mem : b ∈ blocks)
    (live : b.allocated = true) : ∃ n nodes', release ⟨b.payload⟩ m = .ok () n ∧
      m.Clears n blocks [⟨b.payload⟩] nodes' := by
  obtain ⟨n, _, _, ran, _, _, stays, preserves⟩ := releases settled mem live
  have tiled := settled.keeps.spelt.tiled
  obtain ⟨l₁, l₂, rfl⟩ := List.append_of_mem mem
  obtain ⟨n', front, w, back, ran', merged, _, _, _, settled', cursor, _⟩ :=
    run_release settled live
  cases ran.symm.trans ran'
  have one := (Block.cleared_one tiled).trans merged
  refine ⟨_, _, ran, ⟨one ▸ settled', stays, ?_, ?_⟩⟩
  · rw [one]
    exact settled'.cursor_eq stays.config (by simp) cursor
  · intro c mem' live' other
    exact preserves c mem' live' fun same => other (by simp [same])

theorem run_releases (settled : m.heap.Settled blocks nodes) (distinct : ps.Nodup)
    (live : ∀ p ∈ ps, ∃ b ∈ blocks, b.allocated = true ∧ p = ⟨b.payload⟩) :
    ∃ n nodes', ps.forM release m = .ok () n ∧ m.Clears n blocks ps nodes' := by
  -- each release reaches the normal form of its own payload, and normal forms compose
  induction ps generalizing m blocks nodes with
  | nil => exact ⟨m, nodes, rfl, .refl settled⟩
  | cons p rest ih =>
    obtain ⟨apart, single⟩ := List.nodup_cons.1 distinct
    obtain ⟨first, others⟩ := List.forall_mem_cons.1 live
    obtain ⟨b, mem, allocated, rfl⟩ := first
    obtain ⟨k, nodes', ran, clears⟩ := run_release_one settled mem allocated
    have left : ∀ p ∈ rest, ∃ c ∈ Block.cleared [⟨b.payload⟩] blocks,
        c.allocated = true ∧ p = ⟨c.payload⟩ := by
      intro p listed
      obtain ⟨c, mem', live', rfl⟩ := others p listed
      refine ⟨c, Block.mem_cleared mem' live' fun same => apart ?_, live', rfl⟩
      rw [← List.mem_singleton.1 same]
      exact listed
    obtain ⟨n, nodes'', ran', clears'⟩ := ih clears.settled single left
    exact ⟨n, nodes'', (bind_of_ok ran).trans ran', clears.trans settled.keeps.spelt.tiled clears'⟩

end Machine

namespace Session

structure Cleared (s : Session) (blocks : List Block) (ps : List Payload) (m : Machine) :
    Prop where
  layout : m.heap.layout = .ok (Block.cleared ps blocks)
  size : m.heap.size = s.machine.heap.size
  counter : m.heap.freeBlocks = (Block.free (Block.cleared ps blocks)).length
  cursor : m.heap.cursor = if s.machine.heap.strategy = .nextFit then
      Block.seat (Block.cleared ps blocks) s.machine.heap.cursor
    else s.machine.heap.cursor
  listed : s.machine.heap.strategy = .explicitList .addressOrdered →
    m.heap.freeList = .ok (Block.payloads (Block.free (Block.cleared ps blocks)))
  kept : ∀ q, s.Live q → q ∉ ps →
    ∃ data, s.machine.heap.payload q = .ok data ∧ m.heap.payload q = .ok data
  emptied : (∀ q, s.Live q → q ∈ ps) → Heap.firstBlock < s.machine.heap.size →
    m.heap.layout =
      .ok [⟨Heap.firstBlock, s.machine.heap.size - Heap.firstBlock, false⟩]

variable {s : Session} {blocks : List Block} {nodes nodes' : List Nat} {ps : List Payload}
  {m : Machine}

theorem cleared_of_clears (settled : s.machine.heap.Settled blocks nodes)
    (accounts : s.ledger.Accounts blocks) (clears : s.machine.Clears m blocks ps nodes') :
    s.Cleared blocks ps m := by
  have settled' := clears.settled
  have keeps := settled'.keeps
  have layout := Heap.layout_eq settled'.initialized keeps.spelt
  have strategy := Heap.strategy_eq clears.stays.config
  refine ⟨layout, clears.stays.size, keeps.counted, ?_, ?_, ?_, ?_⟩
  · rw [clears.cursor, Heap.cursor_steer]
  · intro ordered
    have ordered := strategy.trans ordered
    rw [Heap.freeList_eq keeps (by rw [ordered]; rfl), keeps.nodes_eq ordered]
  · intro q held away
    obtain ⟨b, mem, live, rfl⟩ := exists_live accounts held
    have mem' := Block.mem_cleared mem live away
    refine ⟨_, Heap.payload_eq settled mem live, ?_⟩
    rw [(clears.preserves b mem live away).payload_eq settled settled' mem mem' live]
    exact Heap.payload_eq settled mem live
  · intro all room
    rw [layout, Block.cleared_all settled.keeps.spelt.tiled room fun b mem live => ?_]
    exact all _ (accounts.known b mem live)

/-- Releases commute: in whichever order the payloads are released, they leave behind the same row
of blocks, with the same bytes in what is still live. -/
theorem cleared_of_reachable (reachable : s.Reachable) :
    ∃ blocks, s.machine.heap.layout = .ok blocks ∧ ∀ ps qs : List Payload, ps.Nodup →
      (∀ p ∈ ps, s.Live p) → qs.Perm ps →
        ∃ m, qs.forM Machine.release s.machine = .ok () m ∧ s.Cleared blocks ps m := by
  cases sound_of_reachable reachable with
  | blank blank vacant =>
    refine ⟨[], Heap.layout_blank blank.initialized, ?_⟩
    intro ps qs _ held same
    have none : ps = [] := List.eq_nil_iff_forall_not_mem.2 fun p mem =>
      not_live vacant p (held p mem)
    subst none
    cases same.eq_nil
    refine ⟨s.machine, rfl, Heap.layout_blank blank.initialized, rfl, blank.freeBlocks, ?_,
      fun _ => Heap.freeList_nil blank.freeHead, fun q held => absurd held (not_live vacant q), ?_⟩
    · split <;> rfl
    · intro _ room
      rw [blank.size] at room
      cases room
  | @settled blocks nodes settled accounts =>
    refine ⟨blocks, Heap.layout_eq settled.initialized settled.keeps.spelt, ?_⟩
    intro ps qs distinct held same
    have live : ∀ q ∈ qs, ∃ b ∈ blocks, b.allocated = true ∧ q = ⟨b.payload⟩ :=
      fun q mem => exists_live accounts (held q (same.mem_iff.1 mem))
    obtain ⟨m, nodes', ran, clears⟩ :=
      Machine.run_releases settled (same.nodup_iff.2 distinct) live
    exact ⟨m, ran, cleared_of_clears settled accounts (clears.perm same)⟩

def crowded (strategy : Strategy) : Session :=
  (start (.arena 512) ⟨32, strategy, true⟩ ⟨0, fun _ _ => false, fun _ => 255⟩).play
    [.init, .allocate 24, .allocate 8, .allocate 40, .write ⟨48⟩ 0 ⟨#[7]⟩]

theorem reachable_crowded : (crowded .nextFit).Reachable := by
  refine (Reachable.start _ _ _).play ?_
  decide +kernel

theorem cleared_crowded :
    ∃ m, [⟨64⟩, ⟨16⟩].forM Machine.release (crowded .nextFit).machine = .ok () m ∧
      (crowded .nextFit).Cleared
        [⟨16, 32, true⟩, ⟨48, 16, true⟩, ⟨64, 48, true⟩, ⟨112, 16, false⟩] [⟨16⟩, ⟨64⟩] m := by
  have row : (crowded .nextFit).machine.heap.layout =
      .ok [⟨16, 32, true⟩, ⟨48, 16, true⟩, ⟨64, 48, true⟩, ⟨112, 16, false⟩] := by
    decide +kernel
  obtain ⟨blocks, layout, clears⟩ := cleared_of_reachable reachable_crowded
  cases layout.symm.trans row
  exact clears [⟨16⟩, ⟨64⟩] [⟨64⟩, ⟨16⟩] (by decide) (by decide +kernel) (.swap _ _ _)

end Session

end BoundaryTag
