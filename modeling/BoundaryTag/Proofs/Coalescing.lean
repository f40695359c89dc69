import BoundaryTag.Coalesce
import BoundaryTag.Proofs.Keeping

namespace BoundaryTag

namespace Block

def unite (lower : Option Block) (b : Block) (upper : Option Block) : Block :=
  match lower with
  | none => fuse b upper.toList
  | some c => fuse c (b :: upper.toList)

def rewind (b : Block) (cursor : Nat) : Nat :=
  if b.payload < cursor ∧ cursor < b.payload + b.size then b.payload else cursor

def outside (b : Block) (nodes : List Nat) : List Nat :=
  nodes.filter fun n => n < b.payload || b.payload + b.size ≤ n

def without (lower upper : Option Block) (nodes : List Nat) : List Nat :=
  nodes.filter fun n => lower.all (·.payload != n) && upper.all (·.payload != n)

@[simp] theorem unite_allocated (lower upper : Option Block) (b : Block) :
    (b.unite lower upper).allocated = false := by
  cases lower <;> rfl

theorem merge_unite {before after : List Block} {lower upper : Option Block} {b : Block}
    (runFree : ∀ c ∈ lower.toList ++ b :: upper.toList, c.allocated = false)
    (below : Coalesced before) (closedBelow : ∀ c ∈ before.getLast?, c.allocated = true)
    (above : Coalesced after) (closedAbove : ∀ c ∈ after.head?, c.allocated = true) :
    merge (before ++ (lower.toList ++ b :: upper.toList) ++ after) =
      before ++ b.unite lower upper :: after := by
  cases lower with
  | none =>
    have merged : merge (before ++ b :: (upper.toList ++ after)) = _ :=
      merge_run below closedBelow (runFree b (by simp))
        (fun c mem => runFree c (List.mem_cons_of_mem b mem)) above closedAbove
    simpa [unite] using merged
  | some d =>
    have merged : merge (before ++ d :: (b :: upper.toList ++ after)) = _ :=
      merge_run below closedBelow (runFree d (by simp))
        (fun c mem => runFree c (List.mem_cons_of_mem d mem)) above closedAbove
    simpa [unite] using merged

theorem Tiles.unite {lo hi : Nat} {lower upper : Option Block} {b : Block}
    (tiled : Tiles lo (lower.toList ++ b :: upper.toList) hi) :
    Tiles lo [b.unite lower upper] hi := by
  cases lower with
  | none => exact tiled.fuse
  | some c => exact tiled.fuse

theorem rewind_eq_or (b : Block) (x : Nat) : b.rewind x = b.payload ∨ b.rewind x = x := by
  unfold rewind
  split
  · exact .inl rfl
  · exact .inr rfl

theorem mem_payloads_rewind {lo hi x : Nat} {before run after : List Block} {w : Block}
    (tiled : Tiles lo run hi) (start : w.payload = lo) (stop : w.payload + w.size = hi)
    (listed : x ∈ payloads (before ++ run ++ after)) :
    w.rewind x ∈ payloads (before ++ w :: after) := by
  unfold rewind
  split
  · simp
  · rename_i away
    obtain ⟨c, mem, rfl⟩ := List.mem_map.1 listed
    rcases List.mem_append.1 mem with mem | above
    · rcases List.mem_append.1 mem with below | within
      · exact List.mem_map_of_mem (List.mem_append_left _ below)
      · have bounds := tiled.bounds within
        have here : c.payload = w.payload := by omega
        rw [here]
        simp
    · exact List.mem_map_of_mem (List.mem_append_right _ (List.mem_cons_of_mem w above))

end Block

namespace Heap

def steer (h : Heap) (target : Nat → Nat) : Heap :=
  if h.strategy = .nextFit then { h with cursor := target h.cursor } else h

theorem steer_eq (h : Heap) (target : Nat → Nat) :
    h.steer target =
      { h with cursor := if h.strategy = .nextFit then target h.cursor else h.cursor } := by
  unfold steer
  split <;> rfl

@[simp] theorem cursor_steer (h : Heap) (target : Nat → Nat) : (h.steer target).cursor =
    if h.strategy = .nextFit then target h.cursor else h.cursor := by
  rw [steer_eq]

@[simp] theorem config_steer (h : Heap) (target : Nat → Nat) :
    (h.steer target).config = h.config := by
  rw [steer_eq]

@[simp] theorem strategy_steer (h : Heap) (target : Nat → Nat) :
    (h.steer target).strategy = h.strategy :=
  strategy_eq (config_steer h target)

theorem cursor_steer_congr {h k : Heap} (config : k.config = h.config)
    (cursor : k.cursor = h.cursor) (target : Nat → Nat) :
    (k.steer target).cursor = (h.steer target).cursor := by
  rw [cursor_steer, cursor_steer, strategy_eq config, cursor]

theorem cursor_steer_const {h k : Heap} {target : Nat → Nat} (config : k.config = h.config)
    (cursor : k.cursor = (h.steer target).cursor) (x : Nat) :
    (k.steer fun _ => x).cursor = (h.steer fun _ => x).cursor := by
  rw [cursor_steer, cursor_steer, strategy_eq config]
  split
  · rfl
  · rename_i other
    rw [cursor, cursor_steer, if_neg other]

theorem aims_steer {h : Heap} {blocks : List Block} {target : Nat → Nat}
    (valid : h.strategy = .nextFit → target h.cursor = prologue ∨ target h.cursor = h.size ∨
      target h.cursor ∈ Block.payloads blocks) : (h.steer target).Aims blocks := by
  intro kind
  rw [strategy_steer] at kind
  rw [steer_eq, if_pos kind]
  exact valid kind

theorem Aims.rewind {h k : Heap} {lo hi : Nat} {before run after : List Block} {w : Block}
    (aims : h.Aims (before ++ run ++ after)) (config : k.config = h.config)
    (size : k.size = h.size) (cursor : k.cursor = (h.steer w.rewind).cursor)
    (tiled : Block.Tiles lo run hi) (start : w.payload = lo) (stop : w.payload + w.size = hi) :
    k.Aims (before ++ w :: after) := by
  intro kind
  rw [strategy_eq config] at kind
  rw [cursor, cursor_steer, if_pos kind, size]
  rcases w.rewind_eq_or h.cursor with here | same
  · exact .inr (.inr (by simp [here]))
  · rcases aims kind with prologue | epilogue | block
    · exact .inl (same.trans prologue)
    · exact .inr (.inl (same.trans epilogue))
    · exact .inr (.inr (Block.mem_payloads_rewind tiled start stop block))

theorem Keeps.steer {h : Heap} {blocks : List Block} {nodes loose : List Nat}
    (keeps : h.Keeps blocks nodes loose) (target : Nat → Nat) :
    (h.steer target).Keeps blocks nodes loose := by
  rw [steer_eq]
  exact ⟨keeps.spelt.transfer rfl fun _ _ => rfl,
    keeps.indexed.transfer rfl rfl rfl fun _ _ _ _ _ => rfl, keeps.listed⟩

end Heap

namespace Machine

variable {m : Machine} {before after : List Block} {lower upper : Option Block} {b : Block}
  {nodes : List Nat} {below above : Tag}

theorem add_of_le {h : Heap} {x y : Nat} (small : h.size ≤ Heap.maxRegion)
    (fits : x + y ≤ h.size) : Offset.add x y = .ok (x + y) := by
  simp only [Heap.maxRegion] at small
  refine Offset.add_eq_ok_iff.2 ⟨?_, rfl⟩
  simp only [Offset.limit]
  omega

def Absorbs (m : Machine) (before after : List Block) (lower upper : Option Block) (b : Block)
    (nodes : List Nat) (below above : Tag) : Prop :=
  ∃ n, absorb b.payload b.size (b.payload + b.size) below above m =
      .ok ((b.unite lower upper).payload, (b.unite lower upper).size) n ∧
    n.heap.Keeps (before ++ (lower.toList ++ b :: upper.toList) ++ after)
      (Block.without lower upper nodes) (Block.payloads (lower.toList ++ b :: upper.toList)) ∧
    n.heap.cursor = m.heap.cursor ∧
    Tidies none (Block.Spare (before ++ (lower.toList ++ b :: upper.toList) ++ after)) m n

section absorb

variable {c d : Block}

theorem absorbs_neither (keeps : m.heap.Keeps (before ++ [b] ++ after) nodes [b.payload])
    (closedBelow : below.allocated = true) (closedAbove : above.allocated = true) :
    m.Absorbs before after none none b nodes below above := by
  refine ⟨m, ?_, ?_, rfl, .refl _ _ m⟩
  · rw [absorb, closedBelow, closedAbove]
    rfl
  · simpa [Block.without, Block.payloads] using keeps

theorem absorbs_upper (keeps : m.heap.Keeps (before ++ [b, d] ++ after) nodes [b.payload])
    (listed : d.payload ∈ nodes) (closedBelow : below.allocated = true)
    (openAbove : above.allocated = false) :
    m.Absorbs before after none (some d) b nodes below above := by
  have spelt : m.heap.Spells (before ++ b :: d :: after) := by simpa using keeps.spelt
  have place := spelt.tiled.meets
  have stop := (spelt.bounds (b := d) (by simp)).2.1
  obtain ⟨n, ran, kept, cursor, edits⟩ := run_loosen keeps (by simp) listed
  have size := kept.spelt.blockSize (b := d) (by simp)
  have sum : Offset.add b.size d.size = .ok (b.size + d.size) :=
    add_of_le spelt.bounded (by omega)
  rw [← place] at ran size
  refine ⟨n, ?_, ?_, cursor, edits⟩
  · rw [absorb, closedBelow, openAbove]
    dsimp only
    rw [bind_of_ok ran, bind_of_ok (observe_of_ok size), sum, bind_of_ok (liftM_ok _ _)]
    rfl
  · have kept := kept.reorder (List.Perm.swap b.payload d.payload [])
    rw [keeps.indexed.distinct.erase_eq_filter] at kept
    simpa [Block.without, Block.payloads, bne_comm] using kept

theorem absorbs_lower (keeps : m.heap.Keeps (before ++ [c, b] ++ after) nodes [b.payload])
    (listed : c.payload ∈ nodes) (openBelow : below.allocated = false)
    (closedAbove : above.allocated = true) :
    m.Absorbs before after (some c) none b nodes below above := by
  have spelt : m.heap.Spells (before ++ c :: b :: after) := by simpa using keeps.spelt
  have place := spelt.tiled.meets
  have stop := (spelt.bounds (b := b) (by simp)).2.1
  obtain ⟨n, ran, kept, cursor, edits⟩ := run_loosen keeps (by simp) listed
  have size := kept.spelt.blockSize (b := c) (by simp)
  have sum : Offset.add b.size c.size = .ok (c.size + b.size) := by
    rw [Nat.add_comm c.size]
    exact add_of_le spelt.bounded (by omega)
  refine ⟨n, ?_, ?_, cursor, edits⟩
  · rw [absorb, openBelow, closedAbove]
    dsimp only
    rw [bind_of_ok (observe_of_ok spelt.prevBlock), bind_of_ok ran, bind_of_ok (observe_of_ok size),
      sum, bind_of_ok (liftM_ok _ _)]
    rfl
  · rw [keeps.indexed.distinct.erase_eq_filter] at kept
    simpa [Block.without, Block.payloads, bne_comm] using kept

theorem absorbs_both (keeps : m.heap.Keeps (before ++ [c, b, d] ++ after) nodes [b.payload])
    (first : c.payload ∈ nodes) (second : d.payload ∈ nodes) (openBelow : below.allocated = false)
    (openAbove : above.allocated = false) :
    m.Absorbs before after (some c) (some d) b nodes below above := by
  have spelt : m.heap.Spells (before ++ c :: b :: d :: after) := by simpa using keeps.spelt
  have small := spelt.bounded
  have start := spelt.tiled.meets
  have place : b.payload + b.size = d.payload := by
    have tiled : Block.Tiles Heap.firstBlock (before ++ [c] ++ b :: d :: after) m.heap.size := by
      simpa using spelt.tiled
    exact tiled.meets
  have stop := (spelt.bounds (b := d) (by simp)).2.1
  have large := (spelt.bounds (b := b) (by simp)).2.2.1
  have different : d.payload ≠ c.payload := by omega
  obtain ⟨k, ran, kept, cursor, edits⟩ := run_loosen keeps (by simp) first
  obtain ⟨n, ran', kept', cursor', edits'⟩ := run_loosen kept (c := d) (by simp)
    ((List.mem_erase_of_ne different).2 second)
  have lowerSize := kept'.spelt.blockSize (b := c) (by simp)
  have upperSize := kept'.spelt.blockSize (b := d) (by simp)
  have both : Offset.add c.size d.size = .ok (c.size + d.size) := add_of_le small (by omega)
  have sum : Offset.add b.size (c.size + d.size) = .ok (c.size + (b.size + d.size)) := by
    rw [Nat.add_left_comm c.size]
    exact add_of_le small (by omega)
  rw [← place] at ran' upperSize
  refine ⟨n, ?_, ?_, cursor'.trans cursor, edits.trans edits'⟩
  · rw [absorb, openBelow, openAbove]
    dsimp only
    rw [bind_of_ok (observe_of_ok spelt.prevBlock), bind_of_ok ran, bind_of_ok ran',
      bind_of_ok (observe_of_ok lowerSize), bind_of_ok (observe_of_ok upperSize), both,
      bind_of_ok (liftM_ok _ _), sum, bind_of_ok (liftM_ok _ _)]
    rfl
  · have distinct := keeps.indexed.distinct
    have order : ([d.payload] ++ [c.payload, b.payload]).Perm
        ([c.payload, b.payload] ++ [d.payload]) :=
      List.perm_append_comm
    have kept' := kept'.reorder order
    rw [(distinct.erase _).erase_eq_filter, distinct.erase_eq_filter, List.filter_filter] at kept'
    simpa [Block.without, Block.payloads, bne_comm, Bool.and_comm] using kept'

end absorb

theorem run_absorb
    (keeps : m.heap.Keeps (before ++ (lower.toList ++ b :: upper.toList) ++ after) nodes
      [b.payload])
    (first : ∀ c ∈ lower, c.payload ∈ nodes) (second : ∀ c ∈ upper, c.payload ∈ nodes)
    (flagBelow : below.allocated = lower.isNone) (flagAbove : above.allocated = upper.isNone) :
    m.Absorbs before after lower upper b nodes below above := by
  cases lower with
  | none =>
    cases upper with
    | none => exact absorbs_neither keeps flagBelow flagAbove
    | some d => exact absorbs_upper keeps (second d rfl) flagBelow flagAbove
  | some c =>
    cases upper with
    | none => exact absorbs_lower keeps (first c rfl) flagBelow flagAbove
    | some d => exact absorbs_both keeps (first c rfl) (second d rfl) flagBelow flagAbove

theorem unite_ends {lo hi : Nat} (tiled : Block.Tiles lo (lower.toList ++ b :: upper.toList) hi) :
    (b.unite lower upper).payload = lo ∧
      (b.unite lower upper).payload + (b.unite lower upper).size = hi := by
  obtain ⟨here, _, _, stop⟩ := Block.tiles_singleton.1 tiled.unite
  exact ⟨here, by rw [here, stop]⟩

theorem covers_unite {lo hi : Nat}
    (tiled : Block.Tiles lo (lower.toList ++ b :: upper.toList) hi) (i : Nat) :
    (b.unite lower upper).Covers i ↔ ∃ c ∈ lower.toList ++ b :: upper.toList, c.Covers i := by
  rw [tiled.covers_iff, ← tiled.unite.covers_iff]
  simp

section run

variable {h : Heap} {loose : List Nat}
  (keeps : h.Keeps (before ++ (lower.toList ++ b :: upper.toList) ++ after) nodes
    (b.payload :: loose))
include keeps

theorem without_eq_outside :
    Block.without lower upper nodes = (b.unite lower upper).outside nodes := by
  have parted := keeps.spelt.tiled.split
  have tiled := parted.1.split.2
  obtain ⟨start, stop⟩ := unite_ends tiled
  apply List.filter_congr
  intro n listed
  obtain ⟨c, mem, _, rfl⟩ := keeps.freeNodes n listed
  have bounds := keeps.spelt.bounds mem
  have run (d : Block) (mem : d ∈ lower.toList ++ b :: upper.toList) := tiled.bounds mem
  have apart (away : c.payload + c.size ≤ (b.unite lower upper).payload ∨
      (b.unite lower upper).payload + (b.unite lower upper).size ≤ c.payload) :
      (lower.all (·.payload != c.payload) && upper.all (·.payload != c.payload)) = true := by
    simp only [Bool.and_eq_true, Option.all_eq_true, bne_iff_ne]
    constructor
    · rintro d rfl
      have := run d (by simp)
      omega
    · rintro d rfl
      have := run d (by simp)
      omega
  rcases List.mem_append.1 mem with mem | above
  · rcases List.mem_append.1 mem with below | within
    · have := (parted.1.split.1.bounds below).2.1
      rw [apart (by omega), Eq.comm, Bool.or_eq_true, decide_eq_true_eq, decide_eq_true_eq]
      omega
    · have inside := run c within
      -- the block itself is loose, so a node in the run is one of its neighbours
      have neighbour : lower = some c ∨ upper = some c := by
        simp only [List.mem_append, List.mem_cons, Option.mem_toList] at within
        rcases within with below | rfl | above
        · exact .inl below
        · exact absurd rfl ((List.nodup_append.1 keeps.nodup).2.2 _ listed _ List.mem_cons_self)
        · exact .inr above
      have away : ¬(c.payload < (b.unite lower upper).payload ∨
          (b.unite lower upper).payload + (b.unite lower upper).size ≤ c.payload) := by
        omega
      have outside : (decide (c.payload < (b.unite lower upper).payload) ||
          decide ((b.unite lower upper).payload + (b.unite lower upper).size ≤ c.payload)) =
            false := by
        simpa using away
      rw [outside]
      rcases neighbour with rfl | rfl <;> simp
  · have := (parted.2.bounds above).1
    rw [apart (by omega), Eq.comm, Bool.or_eq_true, decide_eq_true_eq, decide_eq_true_eq]
    omega

variable (freeBelow : ∀ c ∈ lower, c.allocated = false)
  (freeAbove : ∀ c ∈ upper, c.allocated = false)
include freeBelow freeAbove

theorem run_free : ∀ c ∈ lower.toList ++ b :: upper.toList, c.allocated = false := by
  intro c mem
  simp only [List.mem_append, List.mem_cons, Option.mem_toList] at mem
  rcases mem with below | rfl | above
  · exact freeBelow c below
  · obtain ⟨d, mem, free, same⟩ := keeps.mem_iff.1 (.inr List.mem_cons_self)
    cases keeps.spelt.tiled.eq_of_payload mem (by simp) same
    exact free
  · exact freeAbove c above

theorem spare_of_run {i : Nat} (covered : ∃ c ∈ lower.toList ++ b :: upper.toList, c.Covers i) :
    Block.Spare (before ++ (lower.toList ++ b :: upper.toList) ++ after) i := by
  obtain ⟨c, mem, covered⟩ := covered
  have here := List.mem_append_left after (List.mem_append_right before mem)
  exact ⟨c, Block.mem_free.2 ⟨here, run_free keeps freeBelow freeAbove c mem⟩, covered⟩

theorem spare_of_united {i : Nat}
    (spare : Block.Spare (before ++ [b.unite lower upper] ++ after) i) :
    Block.Spare (before ++ (lower.toList ++ b :: upper.toList) ++ after) i := by
  obtain ⟨c, mem, inside⟩ := spare
  obtain ⟨mem, free⟩ := Block.mem_free.1 mem
  simp only [List.mem_append, List.mem_singleton] at mem
  rcases mem with (below | rfl) | above
  · exact ⟨c, Block.mem_free.2 ⟨by simp [below], free⟩, inside⟩
  · have tiled := keeps.spelt.tiled.split.1.split.2
    exact spare_of_run keeps freeBelow freeAbove ((covers_unite tiled i).1 inside)
  · exact ⟨c, Block.mem_free.2 ⟨by simp [above], free⟩, inside⟩

end run

theorem neighbours_listed
    (keeps : m.heap.Keeps (before ++ (lower.toList ++ b :: upper.toList) ++ after) nodes
      [b.payload])
    (freeBelow : ∀ c ∈ lower, c.allocated = false)
    (freeAbove : ∀ c ∈ upper, c.allocated = false) :
    (∀ c ∈ lower, c.payload ∈ nodes) ∧ ∀ c ∈ upper, c.payload ∈ nodes := by
  have tiled := keeps.spelt.tiled.split.1.split.2
  have large := (keeps.spelt.bounds (b := b) (by simp)).2.2.1
  have indexed {c : Block} (mem : c ∈ lower.toList ++ b :: upper.toList)
      (different : c.payload ≠ b.payload) : c.payload ∈ nodes := by
    have free := run_free keeps freeBelow freeAbove c mem
    have mem := List.mem_append_left after (List.mem_append_right before mem)
    rcases keeps.mem_iff.2 ⟨c, mem, free, rfl⟩ with listed | own
    · exact listed
    · exact absurd (List.mem_singleton.1 own) different
  constructor
  · rintro c rfl
    have := (keeps.spelt.bounds (b := c) (by simp)).2.2.1
    have parted : Block.Tiles _ ([c] ++ b :: upper.toList) _ := tiled
    have := parted.below (b := c) (c := b) (by simp) (by simp)
    exact indexed (by simp) (by omega)
  · rintro c rfl
    have parted : Block.Tiles _ ([b] ++ [c]) _ := tiled.split.2
    have := parted.below (b := b) (c := c) (by simp) (by simp)
    exact indexed (by simp) (by omega)

theorem exists_prevTag {h : Heap} (spelt : h.Spells (before ++ (lower.toList ++ b :: after)))
    (free : ∀ c ∈ lower, c.allocated = false)
    (closed : ∀ c ∈ before.getLast?, c.allocated = true) :
    ∃ tag, h.prevTag b.payload = .ok tag ∧ tag.allocated = lower.isNone := by
  cases lower with
  | none => exact spelt.prevTag_of_closed closed
  | some c =>
    obtain ⟨tag, read, _, flag⟩ := Heap.Spells.prevTag (by simpa using spelt)
    exact ⟨tag, read, flag.trans (free c rfl)⟩

theorem exists_nextTag {h : Heap} (spelt : h.Spells (before ++ b :: (upper.toList ++ after)))
    (free : ∀ c ∈ upper, c.allocated = false)
    (closed : ∀ c ∈ after.head?, c.allocated = true) :
    ∃ tag, h.tag (b.payload + b.size) = .ok tag ∧ tag.allocated = upper.isNone := by
  cases upper with
  | none => exact spelt.nextTag_of_closed closed
  | some c =>
    have place : b.payload + b.size = c.payload := spelt.tiled.meets
    obtain ⟨tag, read, _, flag⟩ := spelt.tag (b := c) (by simp)
    rw [← place] at read
    exact ⟨tag, read, flag.trans (free c rfl)⟩

theorem moveCursor_eq (target : Nat → Nat) (m : Machine) :
    moveCursor target m = .ok () { m with heap := m.heap.steer target } := rfl

theorem tidies_steer (opened : Option Nat) (touched : Nat → Prop) (m : Machine)
    (target : Nat → Nat) : Tidies opened touched m { m with heap := m.heap.steer target } := by
  rw [Heap.steer_eq]
  exact Edits.tidies ⟨rfl, rfl, rfl, rfl, rfl, fun _ _ => rfl, #[], by simp⟩ rfl

theorem run_remark (p : Prop) [Decidable p] (event : Event) (quiet : event.isRemark = true)
    (touched : Nat → Prop) (a : α) (m : Machine) :
    ∃ n, (do
        if p then note event
        return a : Action α) m = .ok a n ∧ n.heap = m.heap ∧ Edits touched m n := by
  by_cases holds : p
  · exact ⟨{ m with log := m.log.push event }, by rw [if_pos holds]; rfl, rfl, edits_note quiet⟩
  · exact ⟨m, by rw [if_neg holds]; rfl, rfl, .refl touched m⟩

theorem run_unite
    (keeps : m.heap.Keeps (before ++ (lower.toList ++ b :: upper.toList) ++ after) nodes
      [b.payload])
    (freeBelow : ∀ c ∈ lower, c.allocated = false) (freeAbove : ∀ c ∈ upper, c.allocated = false)
    (flagBelow : below.allocated = lower.isNone) (flagAbove : above.allocated = upper.isNone) :
    ∃ tag n₁ n₂ n, absorb b.payload b.size (b.payload + b.size) below above m =
        .ok ((b.unite lower upper).payload, (b.unite lower upper).size) n₁ ∧
      Tag.make (b.unite lower upper).size false = .ok tag ∧
      setBlock (b.unite lower upper).payload tag n₁ = .ok () n₂ ∧
      indexInsert (b.unite lower upper).payload n₂ = .ok () n ∧
      n.heap.Keeps (before ++ [b.unite lower upper] ++ after)
        (m.heap.strategy.enlist (b.unite lower upper).payload
          ((b.unite lower upper).outside nodes)) [] ∧
      n.heap.cursor = m.heap.cursor ∧
      Tidies none (Block.Spare (before ++ (lower.toList ++ b :: upper.toList) ++ after)) m n := by
  have runFree := run_free keeps freeBelow freeAbove
  have loosened : (Block.payloads (lower.toList ++ b :: upper.toList)).Perm
      (Block.payloads (Block.free (lower.toList ++ b :: upper.toList))) := by
    rw [Block.free, List.filter_eq_self.2 fun c mem => by simp [runFree c mem]]
  obtain ⟨first, second⟩ := neighbours_listed keeps freeBelow freeAbove
  obtain ⟨n₁, ran₁, keeps₁, cursor₁, edits₁⟩ := run_absorb keeps first second flagBelow flagAbove
  obtain ⟨tag, n₂, made, ran₂, keeps₂, cursor₂, edits₂⟩ :=
    run_setBlock (c := b.unite lower upper) keeps₁ loosened fun _ _ => Block.Tiles.unite
  rw [Block.unite_allocated] at made
  have alone : Block.payloads (Block.free [b.unite lower upper]) =
      [(b.unite lower upper).payload] := by
    simp [Block.free, Block.payloads]
  rw [alone, without_eq_outside keeps] at keeps₂
  rw [Block.unite_allocated, if_neg Bool.false_ne_true] at edits₂
  obtain ⟨n, ran, kept, cursor, edits⟩ := run_enlist keeps₂ (by simp)
  rw [Heap.strategy_eq edits₂.config, Heap.strategy_eq edits₁.config] at kept
  have marked : ∀ i, (b.unite lower upper).Marks i →
      Block.Spare (before ++ (lower.toList ++ b :: upper.toList) ++ after) i := fun i mark =>
    spare_of_run keeps freeBelow freeAbove
      ((covers_unite keeps.spelt.tiled.split.1.split.2 i).1 mark.1)
  exact ⟨tag, n₁, n₂, n, ran₁, made, ran₂, ran, kept, cursor.trans (cursor₂.trans cursor₁),
    (edits₁.trans (edits₂.mono marked)).trans
      (edits.mono fun _ => spare_of_united keeps freeBelow freeAbove)⟩

theorem run_coalesce
    (keeps : m.heap.Keeps (before ++ (lower.toList ++ b :: upper.toList) ++ after) nodes
      [b.payload])
    (freeBelow : ∀ c ∈ lower, c.allocated = false) (freeAbove : ∀ c ∈ upper, c.allocated = false)
    (closedBelow : ∀ c ∈ before.getLast?, c.allocated = true)
    (closedAbove : ∀ c ∈ after.head?, c.allocated = true) :
    ∃ n, coalesce b.payload m = .ok (b.unite lower upper).payload n ∧
      n.heap.Keeps (before ++ b.unite lower upper :: after)
        (m.heap.strategy.enlist (b.unite lower upper).payload
          ((b.unite lower upper).outside nodes)) [] ∧
      n.heap.cursor = (m.heap.steer (b.unite lower upper).rewind).cursor ∧
      Tidies none (Block.Spare (before ++ (lower.toList ++ b :: upper.toList) ++ after)) m n := by
  have spelt : m.heap.Spells (before ++ (lower.toList ++ b :: (upper.toList ++ after))) := by
    simpa using keeps.spelt
  have mem : b ∈ before ++ (lower.toList ++ b :: (upper.toList ++ after)) := by simp
  obtain ⟨below, readBelow, flagBelow⟩ := exists_prevTag spelt freeBelow closedBelow
  have spelt' : m.heap.Spells (before ++ lower.toList ++ b :: (upper.toList ++ after)) := by
    simpa using spelt
  obtain ⟨above, readAbove, flagAbove⟩ := exists_nextTag spelt' freeAbove closedAbove
  obtain ⟨tag, n₁, n₂, n₃, ran₁, made, ran₂, ran₃, kept, cursor, edits⟩ :=
    run_unite keeps freeBelow freeAbove flagBelow flagAbove
  rw [coalesce, bind_of_ok (observe_of_ok readBelow),
    bind_of_ok (observe_of_ok (spelt.nextBlock mem)), bind_of_ok (observe_of_ok readAbove),
    bind_of_ok (observe_of_ok (spelt.blockSize mem)), bind_of_ok ran₁]
  dsimp only
  rw [made, bind_of_ok (liftM_ok _ _), bind_of_ok ran₂, bind_of_ok ran₃]
  have stop : Offset.add (b.unite lower upper).payload (b.unite lower upper).size =
      .ok ((b.unite lower upper).payload + (b.unite lower upper).size) :=
    add_of_le kept.spelt.bounded (kept.spelt.bounds (by simp)).2.1
  rw [stop, bind_of_ok (liftM_ok _ _), bind_of_ok (moveCursor_eq _ _)]
  obtain ⟨n, ran, same, quiet⟩ := run_remark ((b.unite lower upper).size ≠ b.size)
    (.coalesced (b.unite lower upper).payload (b.unite lower upper).size) rfl
    (Block.Spare (before ++ (lower.toList ++ b :: upper.toList) ++ after))
    (b.unite lower upper).payload
    { n₃ with heap := n₃.heap.steer (b.unite lower upper).rewind }
  refine ⟨n, ran, ?_, ?_, (edits.trans (tidies_steer _ _ _ _)).trans
    (quiet.tidies (congrArg _ same))⟩
  · rw [same]
    simpa using kept.steer _
  · rw [same]
    exact Heap.cursor_steer_congr edits.config cursor _

theorem run_merge {l₁ l₂ : List Block}
    (keeps : m.heap.Keeps (l₁ ++ b :: l₂) nodes [b.payload]) (below : Block.Coalesced l₁)
    (above : Block.Coalesced l₂) (aims : m.heap.Aims (l₁ ++ b :: l₂)) :
    ∃ n front w back, coalesce b.payload m = .ok w.payload n ∧
      Block.merge (l₁ ++ b :: l₂) = front ++ w :: back ∧ w.allocated = false ∧
      w.payload ≤ b.payload ∧ b.payload + b.size ≤ w.payload + w.size ∧
      n.heap.Keeps (front ++ w :: back)
        (m.heap.strategy.enlist w.payload (w.outside nodes)) [] ∧
      n.heap.cursor = (m.heap.steer w.rewind).cursor ∧ n.heap.Aims (front ++ w :: back) ∧
      Tidies none (Block.Spare (l₁ ++ b :: l₂)) m n := by
  obtain ⟨before, lower, rfl, freeBelow, closedBelow⟩ := Block.exists_closed_below below
  obtain ⟨upper, after, rfl, freeAbove, closedAbove⟩ := Block.exists_closed_above above
  have shape : before ++ lower.toList ++ b :: (upper.toList ++ after) =
      before ++ (lower.toList ++ b :: upper.toList) ++ after := by
    simp
  rw [shape] at keeps aims ⊢
  obtain ⟨n, ran, kept, cursor, edits⟩ :=
    run_coalesce keeps freeBelow freeAbove closedBelow closedAbove
  have tiled := keeps.spelt.tiled.split.1.split.2
  obtain ⟨start, stop⟩ := unite_ends tiled
  have inside := tiled.bounds (b := b) (by simp)
  refine ⟨n, before, b.unite lower upper, after, ran, ?_, Block.unite_allocated _ _ _, by omega,
    by omega, kept, cursor, ?_, edits⟩
  · exact Block.merge_unite (run_free keeps freeBelow freeAbove)
      (List.isChain_append.1 below).1 closedBelow (List.isChain_append.1 above).2.1 closedAbove
  · exact aims.rewind edits.config edits.size cursor tiled start stop

end Machine

end BoundaryTag
