import BoundaryTag.Allocation
import BoundaryTag.Proofs.Coalescing

namespace BoundaryTag

namespace Block

def Beyond (b : Block) (wanted i : Nat) : Prop :=
  b.Covers i ∧ ¬(b.payload ≤ i ∧ i + 8 < b.payload + wanted)

def relist (b : Block) (wanted : Nat) (s : Strategy) (nodes : List Nat) : List Nat :=
  if minBlock ≤ b.size - wanted then s.enlist (b.payload + wanted) nodes else nodes

theorem spare_carve {before after : List Block} {t : Block} {wanted i : Nat}
    (spare : Spare (before ++ t.carve wanted ++ after) i) :
    t.Beyond wanted i ∨ Spare (before ++ after) i := by
  obtain ⟨c, mem, inside⟩ := spare
  obtain ⟨mem, free⟩ := mem_free.1 mem
  simp only [List.mem_append] at mem
  rcases mem with (below | within) | above
  · exact .inr ⟨c, mem_free.2 ⟨List.mem_append_left _ below, free⟩, inside⟩
  · refine .inl ?_
    rw [carve] at within
    split at within
    · rename_i room
      simp only [minBlock] at room
      simp only [List.mem_cons, List.not_mem_nil, or_false] at within
      rcases within with rfl | rfl
      · simp at free
      · simp only [Covers] at inside
        exact ⟨⟨by omega, by omega⟩, by omega⟩
    · simp only [List.mem_singleton] at within
      subst within
      simp at free
  · exact .inr ⟨c, mem_free.2 ⟨List.mem_append_right _ above, free⟩, inside⟩

end Block

namespace Machine

variable {m : Machine} {before old after : List Block} {t : Block} {wanted : Nat}
  {nodes loose : List Nat}

section cut

variable {first second : Tag} (low : 16 ≤ t.payload) (high : t.payload + t.size ≤ m.heap.size)
  (large : 16 ≤ wanted) (room : wanted + 16 ≤ t.size) (size : first.size = wanted)
  (size' : second.size = t.size - wanted)
include low high large room size size'

theorem tidies_cut (onGrid : t.payload % 8 = 0) (flag : first.allocated = true)
    (flag' : second.allocated = false) : Tidies (some t.payload) (t.Beyond wanted) m
    { m with heap := (m.heap.setTags t.payload first).setTags (t.payload + wanted) second } := by
  have aligned := first.aligned
  have opened := tidies_setTags m t.payload first (by omega) onGrid (by omega) (by omega)
  have closed := tidies_setTags { m with heap := m.heap.setTags t.payload first }
    (t.payload + wanted) second (by omega) (by omega) (by omega) (by simp; omega)
  rw [if_pos flag] at opened
  rw [flag', if_neg Bool.false_ne_true] at closed
  refine (opened.mono ?_).trans ((closed.open _).mono ?_)
  · intro i mark
    simp only [Block.Marks, Block.Covers, Block.Owns] at mark
    exact ⟨⟨by omega, by omega⟩, by omega⟩
  · intro i mark
    simp only [Block.Marks, Block.Covers, Block.Owns] at mark
    exact ⟨⟨by omega, by omega⟩, by omega⟩

theorem bracketed_cut : ∀ b ∈ [(⟨t.payload, first.size, first.allocated⟩ : Block),
    ⟨t.payload + wanted, second.size, second.allocated⟩],
    b.Bracketed ((m.heap.setTags t.payload first).setTags (t.payload + wanted)
      second).region.memory := by
  have opened : (⟨t.payload, first.size, first.allocated⟩ : Block).Bracketed
      (m.heap.setTags t.payload first).region.memory :=
    Heap.bracketed_setTags (by omega) (by omega) (by omega)
  intro b mem
  simp only [List.mem_cons, List.not_mem_nil, or_false] at mem
  rcases mem with rfl | rfl
  · apply opened.congr (by simp; omega) (by simp; omega)
    intro i mark
    apply Heap.byte_setTags (by omega) (by omega) (by simp; omega)
    intro mark'
    have high := mark.1.2
    have low := mark'.1.1
    simp only at high low
    omega
  · exact Heap.bracketed_setTags (by omega) (by omega) (by simp; omega)

end cut

theorem run_cut (keeps : m.heap.Keeps (before ++ old ++ after) nodes loose)
    (loosened : loose.Perm (Block.payloads (Block.free old)))
    (fits : ∀ lo hi, Block.Tiles lo old hi → Block.Tiles lo [t] hi)
    (large : 16 ≤ wanted) (even : wanted % 8 = 0) (room : minBlock ≤ t.size - wanted) :
    ∃ first second k n, Tag.make wanted true = .ok first ∧
      Tag.make (t.size - wanted) false = .ok second ∧ setBlock t.payload first m = .ok () k ∧
      Offset.add t.payload wanted = .ok (t.payload + wanted) ∧
      setBlock (t.payload + wanted) second k = .ok () n ∧
      n.heap.Keeps (before ++ t.carve wanted ++ after) nodes [t.payload + wanted] ∧
      n.heap.cursor = m.heap.cursor ∧ Tidies (some t.payload) (t.Beyond wanted) m n := by
  have parted := keeps.spelt.tiled.split
  have tiled := parted.1.split.2
  have whole := fits _ _ tiled
  have bounds := whole.bounds List.mem_cons_self
  have stop := parted.2.le
  have small := keeps.spelt.bounded
  have wide : wanted + 16 ≤ t.size := by
    simp only [minBlock] at room
    omega
  have low : 16 ≤ t.payload := by
    have : 16 ≤ Heap.firstBlock := Nat.le_refl _
    omega
  have high : t.payload + t.size ≤ m.heap.size := by omega
  have fits' (lo hi : Nat) (tiled : Block.Tiles lo old hi) :=
    (fits lo hi tiled).carve large even (by omega)
  obtain ⟨first, made, size, flag⟩ := make_ok wanted true even (by omega)
  obtain ⟨second, made', size', flag'⟩ := make_ok (t.size - wanted) false (by omega)
    (by omega)
  have sum : Offset.add t.payload wanted = .ok (t.payload + wanted) := add_of_le small (by omega)
  have ran := setBlock_ok t.payload first small (by omega) (by omega) (by omega)
  have ran' := setBlock_ok (m := { m with heap := m.heap.setTags t.payload first })
    (t.payload + wanted) second (by simpa using small) (by omega) (by omega)
    (by simp; omega)
  have onGrid : t.payload % 8 = 0 :=
    (whole.aligned (parted.1.split.1.aligned rfl).1).2 t List.mem_cons_self
  have edits := tidies_cut low high large wide size size' onGrid flag flag'
  have split : t.carve wanted = [⟨t.payload, first.size, first.allocated⟩,
      ⟨t.payload + wanted, second.size, second.allocated⟩] := by
    rw [Block.carve, if_pos room, size, size', flag, flag']
  refine ⟨first, second, _, _, made, made', ran, sum, ran', ?_, rfl, edits⟩
  have alone : Block.payloads (Block.free (t.carve wanted)) = [t.payload + wanted] := by
    simp [split, Block.free, Block.payloads, flag, flag']
  rw [← alone]
  refine keeps.exchange loosened fits' (by simp) rfl rfl rfl ?_ ?_
  · intro i kept
    apply edits.byte i
    intro beyond
    obtain ⟨b, mem, covered⟩ := tiled.covers_iff.2 (whole.covers_iff.1 ⟨t, by simp, beyond.1⟩)
    exact kept b mem covered
  · rw [split]
    exact bracketed_cut low high large wide size size'

theorem run_splitAllocated (keeps : m.heap.Keeps (before ++ old ++ after) nodes loose)
    (loosened : loose.Perm (Block.payloads (Block.free old)))
    (fits : ∀ lo hi, Block.Tiles lo old hi → Block.Tiles lo [t] hi)
    (large : 16 ≤ wanted) (even : wanted % 8 = 0) (enough : wanted ≤ t.size) :
    ∃ n, splitAllocated t.payload t.size wanted m = .ok () n ∧
      n.heap.Keeps (before ++ t.carve wanted ++ after)
        (t.relist wanted m.heap.strategy nodes) [] ∧
      n.heap.cursor = m.heap.cursor ∧
      Tidies (some t.payload) (fun i => t.Beyond wanted i ∨ Block.Spare (before ++ after) i)
        m n := by
  have remains : Offset.sub t.size wanted = .ok (t.size - wanted) :=
    Offset.sub_eq_ok_iff.2 ⟨enough, rfl⟩
  rw [splitAllocated, remains, bind_of_ok (liftM_ok _ _)]
  by_cases room : minBlock ≤ t.size - wanted
  · obtain ⟨first, second, k, n, made, made', ran, rest, ran', kept, cursor, edits⟩ :=
      run_cut keeps loosened fits large even room
    rw [if_pos room, made, bind_of_ok (liftM_ok _ _), bind_of_ok ran, rest,
      bind_of_ok (liftM_ok _ _), made', bind_of_ok (liftM_ok _ _), bind_of_ok ran']
    have back : (⟨t.payload + wanted, t.size - wanted, false⟩ : Block) ∈
        before ++ t.carve wanted ++ after := by
      simp [Block.carve, room]
    obtain ⟨l, ran'', kept', cursor', edits'⟩ := run_enlist kept back
    rw [bind_of_ok ran'', note_eq]
    refine ⟨_, rfl, ?_, cursor'.trans cursor, ?_⟩
    · rw [Heap.strategy_eq edits.config] at kept'
      rw [Block.relist, if_pos room]
      exact kept'
    · refine (edits.mono fun i beyond => .inl beyond).trans ?_
      refine ((edits'.open _).mono fun i spare => Block.spare_carve spare).trans ?_
      exact tidies_note rfl
  · obtain ⟨tag, n, made, ran, kept, cursor, edits⟩ :=
      run_setBlock (c := ⟨t.payload, t.size, true⟩) keeps loosened fun lo hi tiled => by
        simpa [Block.Tiles] using fits lo hi tiled
    rw [if_neg room, made, bind_of_ok (liftM_ok _ _), ran]
    refine ⟨n, rfl, ?_, cursor, edits.mono fun i mark => .inl ?_⟩
    · simpa [Block.carve, Block.relist, room, Block.free, Block.payloads] using kept
    · simp only [Block.Marks, Block.Covers, Block.Owns, Block.Beyond] at mark ⊢
      omega

theorem nextBlock_carve {h : Heap} {l₁ l₂ : List Block}
    (spelt : h.Spells (l₁ ++ t.carve wanted ++ l₂)) :
    h.nextBlock t.payload = .ok (t.payload + t.share wanted) ∧
      (t.payload + t.share wanted = h.size ∨
        t.payload + t.share wanted ∈ Block.payloads (l₁ ++ t.carve wanted ++ l₂)) := by
  obtain ⟨rest, split⟩ := Block.carve_eq_cons t wanted
  rw [split] at spelt ⊢
  refine ⟨spelt.nextBlock (b := ⟨t.payload, t.share wanted, true⟩) (by simp), ?_⟩
  have tiled : Block.Tiles Heap.firstBlock
      (l₁ ++ ⟨t.payload, t.share wanted, true⟩ :: (rest ++ l₂)) h.size := by
    simpa using spelt.tiled
  refine tiled.next.imp_right fun block => List.map_subset _ ?_ block
  intro c mem
  rcases List.mem_append.1 mem with remainder | above
  · simp [remainder]
  · simp [above]

theorem run_place {l₁ l₂ : List Block} (keeps : m.heap.Keeps (l₁ ++ t :: l₂) nodes [])
    (free : t.allocated = false) (large : 16 ≤ wanted) (even : wanted % 8 = 0)
    (enough : wanted ≤ t.size) :
    ∃ n, place t.payload wanted m = .ok () n ∧
      n.heap.Keeps (l₁ ++ t.carve wanted ++ l₂)
        (t.relist wanted m.heap.strategy (nodes.erase t.payload)) [] ∧
      n.heap.cursor = (m.heap.steer fun _ => t.payload + t.share wanted).cursor ∧
      n.heap.Aims (l₁ ++ t.carve wanted ++ l₂) ∧
      Tidies (some t.payload) (Block.Spare (l₁ ++ t :: l₂)) m n := by
  have mem : t ∈ l₁ ++ t :: l₂ := by simp
  have passed : requires (wanted ≤ t.size) .assertion = .ok () := by simp [enough]
  obtain ⟨k, ran, kept, cursor, edits⟩ := run_loosen keeps mem (keeps.mem_nodes mem free)
  have parted : k.heap.Keeps (l₁ ++ [t] ++ l₂) (nodes.erase t.payload) [t.payload] := by
    simpa using kept
  obtain ⟨n, ran', kept', cursor', edits'⟩ := run_splitAllocated (t := t) parted
    (by simp [Block.free, free, Block.payloads]) (fun _ _ tiled => tiled) large even enough
  have changes : Tidies (some t.payload) (Block.Spare (l₁ ++ t :: l₂)) m n := by
    refine (edits.open _).trans (edits'.mono ?_)
    rintro i (beyond | spare)
    · exact ⟨t, Block.mem_free.2 ⟨mem, free⟩, beyond.1⟩
    · exact spare.mono (Block.mem_insert t)
  rw [Heap.strategy_eq edits.config] at kept'
  rw [place, bind_of_ok (observe_of_ok (keeps.spelt.blockSize mem)), passed,
    bind_of_ok (liftM_ok _ _), bind_of_ok ran, bind_of_ok ran', bind_current]
  simp only [Heap.strategy_eq changes.config]
  by_cases kind : m.heap.strategy = .nextFit
  · obtain ⟨next, boundary⟩ := nextBlock_carve kept'.spelt
    rw [if_pos kind, bind_of_ok (observe_of_ok next), moveCursor_eq]
    refine ⟨_, rfl, kept'.steer fun _ => t.payload + t.share wanted, ?_, ?_,
      changes.trans (tidies_steer _ _ _ _)⟩
    · rw [Heap.cursor_steer, Heap.cursor_steer, Heap.strategy_eq changes.config, if_pos kind,
        if_pos kind]
    · exact Heap.aims_steer fun _ => .inr boundary
  · rw [if_neg kind, Heap.cursor_steer, if_neg kind]
    exact ⟨n, rfl, kept', cursor'.trans cursor,
      fun kind' => absurd (Heap.strategy_eq changes.config ▸ kind') kind, changes⟩

end Machine

end BoundaryTag
