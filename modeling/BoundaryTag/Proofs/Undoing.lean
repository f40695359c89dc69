import BoundaryTag.Proofs.Reading
import BoundaryTag.Proofs.Sessions

namespace BoundaryTag

theorem Strategy.enlist_lifo (bp : Nat) (nodes : List Nat) :
    enlist (.explicitList .lifo) bp nodes = bp :: nodes := rfl

namespace Block

def padded (blocks : List Block) (top extra : Nat) : List Block :=
  if extra = 0 then blocks
  else
    match blocks.getLast? with
    | none => [⟨top, extra, false⟩]
    | some last =>
      if last.allocated then blocks ++ [⟨top, extra, false⟩]
      else blocks.dropLast ++ [{ last with size := last.size + extra }]

def remains (b : Block) (wanted : Nat) : List Block :=
  if minBlock ≤ b.size - wanted then [⟨b.payload + wanted, b.size - wanted, false⟩] else []

variable {l₁ l₂ front : List Block} {b : Block} {last : Option Block}
  {wanted top extra x : Nat} {nodes : List Nat}

@[simp] theorem padded_zero (blocks : List Block) (top : Nat) : padded blocks top 0 = blocks := rfl

theorem padded_eq (tiled : Tiles Heap.firstBlock (front ++ last.toList) top)
    (free : ∀ c ∈ last, c.allocated = false) (closed : ∀ c ∈ front.getLast?, c.allocated = true)
    (grows : 0 < extra) :
    padded (front ++ last.toList) top extra = front ++ [topped front last extra] := by
  rw [padded, if_neg (by omega)]
  cases last with
  | some last =>
    have open' := free last rfl
    have here := tiled.payload_eq
    simp [open', topped, here]
  | none =>
    have stop := tiled.stop_eq
    simp only [Option.toList_none, List.append_nil] at stop ⊢
    have new : topped front none extra = ⟨top, extra, false⟩ := by simp [topped, stop]
    rw [new]
    cases ends : front.getLast? with
    | none =>
      rw [List.getLast?_eq_none_iff.1 ends]
      rfl
    | some c => simp [closed c ends]

theorem carve_eq (b : Block) (wanted : Nat) :
    b.carve wanted = ⟨b.payload, b.share wanted, true⟩ :: b.remains wanted := by
  unfold carve share remains
  split <;> rfl

theorem fuse_remains (free : b.allocated = false) (enough : wanted ≤ b.size) :
    fuse ⟨b.payload, b.share wanted, false⟩ (b.remains wanted) = b := by
  obtain ⟨payload, size, _⟩ := b
  cases free
  simp only at enough
  unfold fuse share remains
  split
  · simp [Nat.add_sub_cancel' enough]
  · rfl

theorem merge_carved (coalesced : Coalesced (l₁ ++ b :: l₂)) (free : b.allocated = false)
    (enough : wanted ≤ b.size) :
    merge (l₁ ++ ⟨b.payload, b.share wanted, false⟩ :: (b.remains wanted ++ l₂)) =
      l₁ ++ b :: l₂ := by
  obtain ⟨below, above, closedBelow, closedAbove⟩ := coalesced.around free
  have runFree : ∀ c ∈ b.remains wanted, c.allocated = false := by
    intro c mem
    rw [remains] at mem
    split at mem
    · rw [List.mem_singleton.1 mem]
    · cases mem
  rw [merge_run below closedBelow rfl runFree above closedAbove, fuse_remains free enough]

theorem outside_outside (b : Block) (nodes : List Nat) :
    b.outside (b.outside nodes) = b.outside nodes := by
  simp [outside, List.filter_filter]

theorem outside_relist (large : 0 < wanted) :
    b.outside (b.relist wanted (.explicitList .lifo) nodes) = b.outside nodes := by
  rw [relist]
  split
  · rename_i room
    simp only [minBlock] at room
    have inside : ¬(b.payload + wanted < b.payload ∨ b.payload + b.size ≤ b.payload + wanted) := by
      omega
    exact List.filter_cons_of_neg (by simpa using inside)
  · rfl

end Block

theorem Heap.Keeps.outside_eq {h : Heap} {blocks : List Block} {nodes : List Nat} {b : Block}
    (keeps : h.Keeps blocks nodes []) (large : 0 < b.size)
    (apart : ∀ c ∈ blocks, c.allocated = false →
      c.payload = b.payload ∨ c.payload < b.payload ∨ b.payload + b.size ≤ c.payload) :
    b.outside nodes = nodes.erase b.payload := by
  rw [keeps.indexed.distinct.erase_eq_filter, Block.outside]
  refine List.filter_congr fun n listed => ?_
  obtain ⟨c, mem, free, rfl⟩ := keeps.freeNodes n listed
  have := apart c mem free
  rw [Bool.eq_iff_iff]
  simp only [Bool.or_eq_true, decide_eq_true_eq, bne_iff_ne]
  omega

namespace Machine

theorem allocate_fresh {m : Machine} (fresh : m.heap.initialized = false) (count : Nat) :
    allocate count m = .error .beforeInit m := by
  have failed : observe (·.requireInitialized) m = .error .beforeInit m := by
    rw [observe_eq, Heap.requireInitialized, fresh]
    rfl
  rw [allocate, bind_of_error failed]

theorem preserves_of_allocate {m n : Machine} {blocks : List Block} {nodes : List Nat}
    {count : Nat} {p : Payload} (settled : m.heap.Settled blocks nodes)
    (handed : allocate count m = .ok (some p) n) : n.heap.config = m.heap.config ∧
      ∀ c ∈ blocks, c.allocated = true → m.Preserves n c := by
  obtain ⟨_, k, ran, allots⟩ := run_allocate settled count
  cases handed.symm.trans ran
  cases allots with
  | served _ _ _ serves => exact ⟨serves.config, serves.preserves⟩

theorem run_restore {m : Machine} {l₁ l₂ : List Block} {b : Block} {nodes : List Nat}
    {wanted : Nat} (settled : m.heap.Settled (l₁ ++ b.carve wanted ++ l₂) nodes)
    (coalesced : Block.Coalesced (l₁ ++ b :: l₂)) (free : b.allocated = false)
    (enough : wanted ≤ b.size) :
    ∃ n, release ⟨b.payload⟩ m = .ok () n ∧
      n.heap.Settled (l₁ ++ b :: l₂) (m.heap.strategy.enlist b.payload (b.outside nodes)) ∧
      m.Stays n ∧ ∀ c ∈ l₁ ++ l₂, c.allocated = true → m.Preserves n c := by
  have carved : l₁ ++ b.carve wanted ++ l₂ =
      l₁ ++ ⟨b.payload, b.share wanted, true⟩ :: (b.remains wanted ++ l₂) := by
    rw [Block.carve_eq, List.append_assoc, List.cons_append]
  rw [carved] at settled
  have mem : ⟨b.payload, b.share wanted, true⟩ ∈
      l₁ ++ ⟨b.payload, b.share wanted, true⟩ :: (b.remains wanted ++ l₂) := by simp
  obtain ⟨n, front, w, back, ran, merged, _, start, stop, settled', _⟩ := run_release settled rfl
  obtain ⟨k, _, _, ran', _, _, stays, preserves⟩ := releases settled mem rfl
  cases ran.symm.trans ran'
  have same : front ++ w :: back = l₁ ++ b :: l₂ :=
    merged.symm.trans (Block.merge_carved coalesced free enough)
  rw [same] at settled'
  have tiled := settled'.keeps.spelt.tiled
  have here : b ∈ l₁ ++ b :: l₂ := by simp
  have large := (settled.keeps.spelt.bounds mem).2.2.1
  have large' := (settled'.keeps.spelt.bounds here).2.2.1
  simp only at large start stop
  -- the united block covers what was handed out, and so it is the old one
  have covered : w.Covers b.payload := ⟨by omega, by omega⟩
  cases tiled.eq_of_covers (same ▸ (by simp : w ∈ front ++ w :: back)) here covered
    ⟨by omega, by omega⟩
  refine ⟨_, ran, settled', stays, fun c other live => ?_⟩
  obtain ⟨_, different⟩ := tiled.others_iff.2 (List.mem_append.1 other)
  refine preserves c ?_ live different
  rcases List.mem_append.1 other with below | above
  · exact List.mem_append_left _ below
  · exact List.mem_append_right _ (by simp [above])

end Machine

namespace Session

structure Undoes (s : Session) (blocks : List Block) (p : Payload) (m n : Machine) : Prop where
  size : n.heap.size = m.heap.size
  layout : n.heap.layout = .ok
    (Block.padded blocks s.machine.heap.size (m.heap.size - s.machine.heap.size))
  counted : n.heap.freeBlocks = (Block.free
    (Block.padded blocks s.machine.heap.size (m.heap.size - s.machine.heap.size))).length
  still : m.heap.size = s.machine.heap.size → n.heap.freeBlocks = s.machine.heap.freeBlocks
  kept : ∀ q, s.Live q → ∃ data, s.machine.heap.payload q = .ok data ∧ n.heap.payload q = .ok data
  ordered : s.machine.heap.strategy = .explicitList .addressOrdered →
    m.heap.size = s.machine.heap.size → n.heap.freeList = s.machine.heap.freeList
  lifo : s.machine.heap.strategy = .explicitList .lifo → ∃ nodes,
    s.machine.heap.freeList = .ok nodes ∧ n.heap.freeList = .ok (p.offset :: nodes.erase p.offset)

variable {s : Session} {blocks l₁ l₂ : List Block} {b : Block} {nodes nodes' : List Nat}
  {wanted count : Nat} {m : Machine} {p : Payload}

theorem undoes_of_carved (settled : s.machine.heap.Settled blocks nodes)
    (accounts : s.ledger.Accounts blocks)
    (handed : Machine.allocate count s.machine = .ok (some ⟨b.payload⟩) m)
    (carved : m.heap.Settled (l₁ ++ b.carve wanted ++ l₂) nodes')
    (whole : l₁ ++ b :: l₂ =
      Block.padded blocks s.machine.heap.size (m.heap.size - s.machine.heap.size))
    (others : ∀ c ∈ blocks, c.allocated = true → c ∈ l₁ ++ l₂)
    (coalesced : Block.Coalesced (l₁ ++ b :: l₂)) (free : b.allocated = false)
    (enough : wanted ≤ b.size)
    (relisted : s.machine.heap.strategy = .explicitList .lifo →
      b.outside nodes' = nodes.erase b.payload) :
    ∃ n, Machine.release ⟨b.payload⟩ m = .ok () n ∧ s.Undoes blocks ⟨b.payload⟩ m n := by
  obtain ⟨config, preserves⟩ := Machine.preserves_of_allocate settled handed
  obtain ⟨n, ran, settled', stays, preserves'⟩ :=
    Machine.run_restore carved coalesced free enough
  have counted := settled'.keeps.counted
  have kind : n.heap.strategy = s.machine.heap.strategy :=
    Heap.strategy_eq (stays.config.trans config)
  have layout := Heap.layout_eq settled'.initialized settled'.keeps.spelt
  rw [whole] at counted layout
  refine ⟨n, ran, stays.size, layout, counted, ?_, ?_, ?_, ?_⟩
  · intro still
    rw [counted, still, Nat.sub_self, Block.padded_zero, settled.keeps.counted]
  · intro q held
    obtain ⟨c, mem, live, rfl⟩ := exists_live accounts held
    have other := others c mem live
    have mem' : c ∈ l₁ ++ b :: l₂ := Block.mem_insert b c other
    have same := ((preserves c mem live).trans (preserves' c other live)).payload_eq settled
      settled' mem mem' live
    exact ⟨_, Heap.payload_eq settled mem live, same.trans (Heap.payload_eq settled mem live)⟩
  · intro order still
    have list : s.machine.heap.strategy.usesList = true := by rw [order]; rfl
    rw [Heap.freeList_eq settled'.keeps (kind ▸ list), Heap.freeList_eq settled.keeps list,
      settled'.keeps.nodes_eq (kind.trans order), settled.keeps.nodes_eq order, whole, still,
      Nat.sub_self, Block.padded_zero]
  · intro order
    have list : s.machine.heap.strategy.usesList = true := by rw [order]; rfl
    refine ⟨nodes, Heap.freeList_eq settled.keeps list, ?_⟩
    rw [Heap.freeList_eq settled'.keeps (kind ▸ list), relisted order,
      Heap.strategy_eq config, order]
    rfl

section settled

variable (settled : s.machine.heap.Settled blocks nodes) (accounts : s.ledger.Accounts blocks)
include settled accounts

theorem undoes_found (positive : 0 < count) (adjusted : adjustedSize count = some wanted)
    {bp : Nat} (found : s.machine.heap.candidate blocks nodes wanted = some bp)
    (handed : Machine.allocate count s.machine = .ok (some p) m) :
    ∃ n, Machine.release p m = .ok () n ∧ s.Undoes blocks p m n := by
  obtain ⟨large, _⟩ := adjustedSize_bounds adjusted
  obtain ⟨b, mem, rfl, free, enough⟩ := Heap.exists_of_candidate found
  obtain ⟨l₁, l₂, rfl⟩ := List.append_of_mem mem
  obtain ⟨k, ran, carved, _, edits⟩ :=
    Machine.run_allocate_found settled positive adjusted found
  cases handed.symm.trans ran
  have tiled := settled.keeps.spelt.tiled
  have bounds := tiled.bounds mem
  have still : k.heap.size - s.machine.heap.size = 0 := by rw [edits.size, Nat.sub_self]
  refine undoes_of_carved settled accounts handed carved ?_ ?_ settled.coalesced free enough ?_
  · rw [Machine.heap_noting, still, Block.padded_zero]
  · intro c mem' live
    have other : c ≠ b := by
      rintro rfl
      rw [free] at live
      cases live
    simpa [other] using mem'
  · intro order
    have outside : b.outside nodes = nodes.erase b.payload := by
      refine settled.keeps.outside_eq (by omega) fun c mem' _ => ?_
      by_cases same : c = b
      · exact .inl (by rw [same])
      · have := tiled.apart mem' mem same
        have := tiled.bounds mem'
        omega
    rw [order, Block.outside_relist (by omega), ← outside, Block.outside_outside]

theorem undoes_grown (positive : 0 < count) (adjusted : adjustedSize count = some wanted)
    (none : s.machine.heap.candidate blocks nodes wanted = none) {segment : Segment}
    (granted : s.machine.grant (s.machine.heap.need wanted) = .ok segment)
    (handed : Machine.allocate count s.machine = .ok (some p) m) :
    ∃ n, Machine.release p m = .ok () n ∧ s.Undoes blocks p m n := by
  obtain ⟨large, _⟩ := adjustedSize_bounds adjusted
  obtain ⟨_, _, _, enough⟩ := Machine.need_bounds settled adjusted
  obtain ⟨k, front, w, ran, merged, free, wide, carved, _, grows⟩ :=
    Machine.run_allocate_grown settled positive adjusted none granted
  cases handed.symm.trans ran
  have tiled := settled.keeps.spelt.tiled
  have coalesced : Block.Coalesced (front ++ [w]) := merged ▸ Block.coalesced_merge _
  obtain ⟨before, last, rfl, open', closed⟩ := Block.exists_closed_below settled.coalesced
  obtain ⟨rfl, same⟩ := List.append_inj' ((Block.merge_topped tiled settled.coalesced open'
    closed).symm.trans merged) rfl
  cases List.singleton_inj.1 same
  -- what is carved is the top: the last free block, if there is one, with the new bytes
  have growth : k.heap.size - s.machine.heap.size = s.machine.heap.need wanted := by
    rw [grows.size, Nat.add_sub_cancel_left]
  rw [← List.append_nil (before ++ Block.carve _ _)] at carved
  refine undoes_of_carved settled accounts handed carved ?_ ?_ coalesced free
    (Nat.le_trans enough wide) ?_
  · rw [Machine.heap_noting, growth, Block.padded_eq tiled open' closed (by omega)]
  · intro c mem live
    rcases List.mem_append.1 mem with below | top
    · simp [below]
    · rw [open' c (Option.mem_toList.1 top)] at live
      cases live
  · intro order
    have outside : (Block.topped before last (s.machine.heap.need wanted)).outside nodes =
        nodes.erase (Block.topped before last (s.machine.heap.need wanted)).payload := by
      refine settled.keeps.outside_eq (by omega) fun c mem _ => ?_
      rcases List.mem_append.1 mem with below | top
      · have := tiled.split.1.bounds below
        exact .inr (.inl (by simp only [Block.topped]; omega))
      · obtain ⟨rfl⟩ := Option.mem_toList.1 top
        exact .inl tiled.payload_eq
    rw [order, Block.outside_relist (by omega), Strategy.enlist_lifo, List.erase_cons_head,
      Block.outside_outside, outside]

end settled

/-- A block that is handed out and given back right away leaves no trace, except that a heap which
had to grow for it stays as large as it is. -/
theorem undoes_of_reachable (reachable : s.Reachable) :
    ∃ blocks, s.machine.heap.layout = .ok blocks ∧ ∀ count p m,
      Machine.allocate count s.machine = .ok (some p) m →
        ∃ n, Machine.release p m = .ok () n ∧ s.Undoes blocks p m n := by
  cases sound_of_reachable reachable with
  | blank blank =>
    refine ⟨[], Heap.layout_blank blank.initialized, fun count p m handed => ?_⟩
    rw [Machine.allocate_fresh blank.initialized] at handed
    cases handed
  | @settled blocks nodes settled accounts =>
    refine ⟨blocks, Heap.layout_eq settled.initialized settled.keeps.spelt, ?_⟩
    intro count p m handed
    cases Machine.allocate_ends settled handed with
    | found positive adjusted found =>
      exact undoes_found settled accounts positive adjusted found handed
    | grown positive adjusted none granted =>
      exact undoes_grown settled accounts positive adjusted none granted handed

theorem undoes_sample :
    (∃ m n, Machine.allocate 8 (sample (.explicitList .lifo)).machine = .ok (some ⟨16⟩) m ∧
      Machine.release ⟨16⟩ m = .ok () n ∧ n.heap.freeList = .ok [16, 64] ∧
      n.heap.layout = .ok [⟨16, 32, false⟩, ⟨48, 16, true⟩, ⟨64, 16, false⟩]) ∧
    ∃ m n, Machine.allocate 64 (sample (.explicitList .lifo)).machine = .ok (some ⟨64⟩) m ∧
      Machine.release ⟨64⟩ m = .ok () n ∧ n.heap.freeList = .ok [64, 16] ∧
      n.heap.layout = .ok [⟨16, 32, false⟩, ⟨48, 16, true⟩, ⟨64, 88, false⟩] := by
  let s := sample (.explicitList .lifo)
  have first : outcome (Machine.allocate 8 s.machine) = some (some ⟨16⟩, 80) := by decide +kernel
  have second : outcome (Machine.allocate 64 s.machine) = some (some ⟨64⟩, 152) := by
    decide +kernel
  obtain ⟨size, kind, listed, spelt⟩ : s.machine.heap.size = 80 ∧
      s.machine.heap.strategy = .explicitList .lifo ∧ s.machine.heap.freeList = .ok [16, 64] ∧
      s.machine.heap.layout = .ok [⟨16, 32, false⟩, ⟨48, 16, true⟩, ⟨64, 16, false⟩] := by
    decide +kernel
  obtain ⟨blocks, walked, undoes⟩ := undoes_of_reachable (reachable_sample (.explicitList .lifo))
  cases walked.symm.trans spelt
  obtain ⟨m, ran, still⟩ := exists_of_outcome first
  obtain ⟨m', ran', grown⟩ := exists_of_outcome second
  obtain ⟨n, released, undone⟩ := undoes _ _ _ ran
  obtain ⟨n', released', undone'⟩ := undoes _ _ _ ran'
  obtain ⟨_, read, list⟩ := undone.lifo kind
  obtain ⟨_, read', list'⟩ := undone'.lifo kind
  cases read.symm.trans listed
  cases read'.symm.trans listed
  have layout := undone.layout
  have layout' := undone'.layout
  rw [still, size] at layout
  rw [grown, size] at layout'
  exact ⟨⟨m, n, ran, released, list, layout⟩, m', n', ran', released', list', layout'⟩

end Session

end BoundaryTag
