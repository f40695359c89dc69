import BoundaryTag.Growth
import BoundaryTag.Proofs.Coalescing

namespace BoundaryTag

namespace Heap

structure Blank (h : Heap) : Prop where
  initialized : h.initialized = false
  size : h.size = 0
  cursor : h.cursor = prologue
  freeHead : h.freeHead = none
  freeBlocks : h.freeBlocks = 0

def laidOut (h : Heap) : Heap :=
  { ((h.setWord 0 0).setTags prologue .prologue).setWord 12 Tag.epilogue.pack with
    cursor := prologue, initialized := true }

@[simp] theorem size_laidOut (h : Heap) : h.laidOut.size = h.size := by
  change (((h.setWord 0 0).setTags prologue .prologue).setWord 12 Tag.epilogue.pack).size = h.size
  simp

theorem keeps_laidOut {h : Heap} (size : h.size = 16) (head : h.freeHead = none)
    (counter : h.freeBlocks = 0) : h.laidOut.Keeps [] [] [] := by
  have memory : h.laidOut.region.memory = (((h.region.memory.setWord 0 0).setWord 4
      Tag.prologue.pack).setWord 8 Tag.prologue.pack).setWord 12 Tag.epilogue.pack := rfl
  have top : h.region.memory.size = 16 := size
  refine ⟨⟨?_, ?_, ?_, ?_, by simp, ?_⟩, ⟨counter, .nil, ?_, fun _ => head, fun _ => .nil⟩, .nil⟩
  · rw [size_laidOut, size]
    rfl
  · rw [size_laidOut, size]
    decide
  · rw [memory, Memory.word_setWord_of_disjoint (by simp [top]) _ (by omega),
      Memory.word_setWord_of_disjoint (by simp [top]) _ (by omega),
      Memory.word_setWord (by simp [top])]
  · rw [memory, Memory.word_setWord_of_disjoint (by simp [top]) _ (by omega),
      Memory.word_setWord (by simp [top])]
  · rw [size_laidOut, size, Memory.tag, memory, Memory.word_setWord (by simp [top]),
      Tag.unpack_pack]
  · intro _
    exact List.isChain_cons_cons.2 ⟨⟨head, by simp⟩, List.isChain_singleton _⟩

end Heap

namespace Machine

def grant (m : Machine) (extra : Nat) : Except HeapError Segment :=
  if Heap.maxRegion < m.heap.size + extra then .error (.tooLarge extra)
  else (m.heap.region.reserve extra m.segment).mapError .region

def raised (m : Machine) (extra : Nat) (segment : Segment) : Machine :=
  { m with heap := { m.heap with region := m.heap.region.extended extra segment }, segment }

/-- On the way from `m` to `n` the region brings only even bytes where headers may start. -/
def BringsEven (m n : Machine) : Prop :=
  ∀ i, m.heap.size ≤ i → i < n.heap.size → i % 8 = 4 →
    (m.heap.region.fresh m.segment i).toNat % 2 = 0

/-- What growth leaves alone: the bytes outside `touched`, and all but the extent of the region.  If
it brings even bytes, no word is newly like a header, but for that of the payload that is opened. -/
structure Grows (opened : Option Nat) (extra : Nat) (touched : Nat → Prop) (m n : Machine) :
    Prop where
  segment : m.grant extra = .ok n.segment
  backing : n.heap.region.backing = m.heap.region.backing
  config : n.heap.config = m.heap.config
  initialized : n.heap.initialized = m.heap.initialized
  size : n.heap.size = m.heap.size + extra
  byte : ∀ i, ¬touched i → n.heap.byte i = m.heap.byte i
  log : ∃ remarks, n.log = m.log.push (.extended extra n.heap.size) ++ remarks ∧
    ∀ event ∈ remarks, event.isRemark = true
  headerLike : m.BringsEven n → ∀ i, n.heap.HeaderLike i →
    m.heap.HeaderLike i ∨ opened = some (i + 4)

instance (m n : Machine) : Decidable (m.BringsEven n) :=
  decidable_of_iff (((List.range' m.heap.size (n.heap.size - m.heap.size)).all fun i =>
    i % 8 != 4 || (m.heap.region.fresh m.segment i).toNat % 2 == 0) = true) (by
    simp only [List.all_eq_true, List.mem_range'_1, Bool.or_eq_true, bne_iff_ne, beq_iff_eq]
    constructor
    · intro even i old below place
      exact (even i ⟨old, by omega⟩).resolve_left (· place)
    · intro even i within
      by_cases place : i % 8 = 4
      · exact .inr (even i within.1 (by omega) place)
      · exact .inl place)

theorem bringsEven_of_arena {m n : Machine} {capacity : Nat}
    (arena : m.heap.region.backing = .arena capacity) : m.BringsEven n := by
  intro i _ _ _
  rw [Region.fresh, arena]
  rfl

theorem BringsEven.congr {m n k : Machine} (even : m.BringsEven n)
    (size : k.heap.size = n.heap.size) : m.BringsEven k :=
  fun i old below => even i old (size ▸ below)

theorem Grows.trans {opened : Option Nat} {extra : Nat} {touched : Nat → Prop} {m n k : Machine}
    (grows : Grows none extra touched m n) (edits : Tidies opened touched n k) :
    Grows opened extra touched m k := by
  obtain ⟨before, written, quiet⟩ := grows.log
  obtain ⟨after, written', quiet'⟩ := edits.log
  refine ⟨edits.segment ▸ grows.segment, edits.backing.trans grows.backing,
    edits.config.trans grows.config, edits.initialized.trans grows.initialized,
    edits.size.trans grows.size, fun i kept => (edits.byte i kept).trans (grows.byte i kept),
    ⟨before ++ after, ?_, ?_⟩, ?_⟩
  · rw [written', written, edits.size, Array.append_assoc]
  · intro event mem
    rcases Array.mem_append.1 mem with mem | mem
    · exact quiet event mem
    · exact quiet' event mem
  · intro even i poses
    rcases edits.headerLike i poses with poses | here
    · exact .inl ((grows.headerLike (even.congr edits.size.symm) i poses).resolve_right nofun)
    · exact .inr here

theorem Grows.settled {opened : Option Nat} {extra : Nat} {touched : Nat → Prop} {m n : Machine}
    {old new : List Block} {nodes nodes' : List Nat} (grows : Grows opened extra touched m n)
    (settled : m.heap.Settled old nodes) (keeps : n.heap.Keeps new nodes' [])
    (coalesced : Block.Coalesced new) (aims : n.heap.Aims new) : n.heap.Settled new nodes' :=
  ⟨grows.initialized.trans settled.initialized, (congrArg _ grows.config).trans settled.valid,
    keeps, coalesced, aims⟩

variable {m : Machine} {extra : Nat} {segment : Segment} {blocks : List Block} {nodes : List Nat}

theorem growRegion_ok (granted : m.heap.region.reserve extra m.segment = .ok segment) :
    growRegion extra m = .ok (.ok m.heap.size) (m.raised extra segment) := by
  rw [growRegion, bind_current, Region.attempt_of_reserve granted]
  rfl

theorem growRegion_error {error : RegionError}
    (refused : m.heap.region.reserve extra m.segment = .error error) :
    growRegion extra m = .ok (.error error) m := by
  rw [growRegion, bind_current, Region.attempt_of_refused refused]
  rfl

@[simp] theorem size_raised : (m.raised extra segment).heap.size = m.heap.size + extra :=
  Region.size_extended _ _ _

theorem byte_raised {i : Nat} (old : i < m.heap.size) :
    (m.raised extra segment).heap.byte i = m.heap.byte i :=
  Memory.byte_grow_of_lt _ _ _ old

theorem byte_raised_of_ge {i : Nat} (new : m.heap.size ≤ i) (below : i < m.heap.size + extra)
    (granted : m.heap.region.reserve extra m.segment = .ok segment) :
    (m.raised extra segment).heap.byte i = m.heap.region.fresh m.segment i := by
  have brought : (m.raised extra segment).heap.byte i = m.heap.region.fresh segment i :=
    (Memory.byte_grow _ _ _ _).trans (if_pos ⟨new, below⟩)
  rw [brought, Region.fresh_of_reserve granted]

theorem words_eq (even : extra % 8 = 0) (fits : extra ≤ maxBlock) :
    ∃ words, Offset.add (extra / wordSize) (extra / wordSize % 2) = .ok words ∧
      words * wordSize = extra := by
  simp only [maxBlock] at fits
  refine ⟨_, Offset.add_eq_ok_iff.2 ⟨?_, rfl⟩, ?_⟩
  · simp only [Offset.limit, wordSize]
    omega
  · simp only [wordSize]
    omega

theorem extend_eq (even : extra % 8 = 0) (fits : extra ≤ maxBlock)
    (small : m.heap.size ≤ Heap.maxRegion) :
    extend (extra / wordSize) m = match m.grant extra with
      | .error error => .ok (.error error) m
      | .ok segment =>
        (annex m.heap.size extra >>= fun bp => return .ok bp) (m.raised extra segment) := by
  obtain ⟨words, sum, size⟩ := words_eq even fits
  have total : Offset.add m.heap.size extra = .ok (m.heap.size + extra) := by
    simp only [maxBlock] at fits
    simp only [Heap.maxRegion] at small
    refine Offset.add_eq_ok_iff.2 ⟨?_, rfl⟩
    simp only [Offset.limit]
    omega
  rw [extend, sum, bind_of_ok (liftM_ok _ _)]
  simp only [size]
  rw [if_neg (Nat.not_lt.2 fits), bind_current, total, bind_of_ok (liftM_ok _ _), grant]
  by_cases wide : Heap.maxRegion < m.heap.size + extra
  · rw [if_pos wide, if_pos wide]
    rfl
  · rw [if_neg wide, if_neg wide]
    cases reserved : m.heap.region.reserve extra m.segment with
    | error error =>
      rw [bind_of_ok (growRegion_error reserved)]
      rfl
    | ok segment =>
      rw [bind_of_ok (growRegion_ok reserved)]
      rfl

theorem size_le_of_grant (granted : m.grant extra = .ok segment) :
    m.heap.size + extra ≤ Heap.maxRegion ∧
      m.heap.region.reserve extra m.segment = .ok segment := by
  rw [grant] at granted
  split at granted
  · cases granted
  · rename_i narrow
    refine ⟨Nat.not_lt.1 narrow, ?_⟩
    cases reserved : m.heap.region.reserve extra m.segment with
    | error error => simp [reserved, Except.mapError] at granted
    | ok s => simpa [reserved, Except.mapError] using granted

def capped (m : Machine) (extra : Nat) (segment : Segment) (tag : Tag) : Machine :=
  { m.raised extra segment with
    heap := ((m.raised extra segment).heap.setTags m.heap.size tag).setWord
      (m.heap.size + extra - 4) Tag.epilogue.pack
    log := m.log.push (.extended extra (m.heap.size + extra)) }

section capped

variable {tag : Tag}

@[simp] theorem size_capped :
    (m.capped extra segment tag).heap.size = m.heap.size + extra := by
  rw [capped, Heap.size_setWord, Heap.size_setTags, size_raised]

theorem epilogue_capped (large : 16 ≤ extra) :
    (m.capped extra segment tag).heap.region.memory.tag (m.heap.size + extra - 4) =
      .epilogue := by
  have top : m.heap.size + extra - 4 + 4 ≤
      ((m.raised extra segment).heap.setTags m.heap.size tag).size := by
    simp
    omega
  rw [capped, Memory.tag, Heap.setWord, Region.setWord, Memory.word_setWord top, Tag.unpack_pack]

variable (low : 16 ≤ m.heap.size) (large : 16 ≤ extra) (size : tag.size = extra)
include low large size

theorem byte_capped {i : Nat} (old : i + 4 < m.heap.size) :
    (m.capped extra segment tag).heap.byte i = m.heap.byte i := by
  rw [capped, Heap.byte_setWord (by simp; omega) (by omega), Heap.byte_setTags (by omega)
    (by omega) (by simp; omega) (fun mark => by have := mark.1.1; simp only at this; omega),
    byte_raised (by omega)]

theorem bracketed_capped (flag : tag.allocated = false) :
    (⟨m.heap.size, extra, false⟩ : Block).Bracketed
      (m.capped extra segment tag).heap.region.memory := by
  have written : (⟨m.heap.size, tag.size, tag.allocated⟩ : Block).Bracketed
      ((m.raised extra segment).heap.setTags m.heap.size tag).region.memory :=
    Heap.bracketed_setTags (by omega) (by omega) (by simp; omega)
  rw [size, flag] at written
  apply written.congr (by simp; omega) (by simp; omega)
  intro i mark
  have inside := mark.1.2
  simp only at inside
  exact Heap.byte_setWord (by simp; omega) (by omega)

theorem headerLike_capped (granted : m.grant extra = .ok segment) (onGrid : m.heap.size % 8 = 0)
    (flag : tag.allocated = false) (brought : m.BringsEven (m.capped extra segment tag)) {i : Nat}
    (poses : (m.capped extra segment tag).heap.HeaderLike i) : m.heap.HeaderLike i := by
  have below := poses.below
  have place := poses.place
  have aligned := tag.aligned
  rw [size_capped] at below
  rcases Heap.headerLike_setWord (by simp; omega) (by omega) poses with ⟨rfl, _⟩ | ⟨_, poses⟩
  · omega
  · rcases Heap.headerLike_setTags (by omega) onGrid (by omega) (by simp; omega) poses with
      ⟨_, live⟩ | ⟨away, poses⟩
    · simp [flag] at live
    · have odd := poses.flag
      have old : i < m.heap.size := by
        refine Nat.not_le.1 fun new => ?_
        have even := brought i new (by rw [size_capped]; omega) place
        rw [byte_raised_of_ge new (by omega) (size_le_of_grant granted).2] at odd
        omega
      rw [byte_raised old] at odd
      exact ⟨poses.above, place, by omega, odd⟩

theorem grows_capped (granted : m.grant extra = .ok segment) (onGrid : m.heap.size % 8 = 0)
    (flag : tag.allocated = false) {touched : Nat → Prop}
    (high : ∀ i, m.heap.size ≤ i + 4 → touched i) :
    Grows none extra touched m (m.capped extra segment tag) := by
  refine ⟨granted, rfl, rfl, rfl, size_capped, ?_, ⟨#[], ?_, by simp⟩, fun brought i poses =>
    .inl (headerLike_capped low large size granted onGrid flag brought poses)⟩
  · intro i kept
    exact byte_capped low large size (Nat.not_le.1 (mt (high i) kept))
  · rw [size_capped, Array.append_empty]
    rfl

theorem annex_eq (made : Tag.make extra false = .ok tag)
    (bounded : m.heap.size + extra ≤ Heap.maxRegion) :
    annex m.heap.size extra (m.raised extra segment) =
      coalesce m.heap.size (m.capped extra segment tag) := by
  have small : (m.raised extra segment).heap.size ≤ Heap.maxRegion := by
    simpa using bounded
  have ran := setBlock_ok (m := m.raised extra segment) m.heap.size tag small (by omega)
    (by omega) (by simp; omega)
  have ran' := putTag_ok (m := { m.raised extra segment with
      heap := (m.raised extra segment).heap.setTags m.heap.size tag })
    (m.heap.size + extra - 4) (by simpa using bounded) (by simp; omega) .epilogue
  have top : Offset.add m.heap.size extra = .ok (m.heap.size + extra) :=
    add_of_le small (by simp)
  have header : Heap.headerOf (m.heap.size + extra) = .ok (m.heap.size + extra - 4) :=
    Offset.sub_eq_ok_iff.2 ⟨by simp only [wordSize]; omega, rfl⟩
  rw [annex, made, bind_of_ok (liftM_ok _ _), bind_of_ok ran, top, bind_of_ok (liftM_ok _ _),
    header, bind_of_ok (liftM_ok _ _), bind_of_ok ran', bind_current, bind_of_ok (note_eq _ _),
    capped]
  simp only [Heap.size_setWord, Heap.size_setTags, size_raised]
  rfl

end capped

theorem keeps_capped {tag : Tag} (keeps : m.heap.Keeps blocks nodes []) (large : 16 ≤ extra)
    (even : extra % 8 = 0) (bounded : m.heap.size + extra ≤ Heap.maxRegion)
    (size : tag.size = extra) (flag : tag.allocated = false) :
    (m.capped extra segment tag).heap.Keeps (blocks ++ [⟨m.heap.size, extra, false⟩]) nodes
      [m.heap.size] := by
  have low := keeps.spelt.size_pos
  refine ⟨keeps.spelt.extend rfl size_capped large even (by simpa using bounded)
    (fun i => byte_capped low large size) (bracketed_capped low large size flag) ?_, ?_, ?_⟩
  · rw [size_capped]
    exact epilogue_capped large
  · refine keeps.indexed.transfer rfl rfl rfl fun n listed i _ high => ?_
    obtain ⟨b, mem, _, rfl⟩ := keeps.freeNodes n listed
    have bounds := keeps.spelt.bounds mem
    exact byte_capped low large size (by omega)
  · have listed := keeps.listed.append_right [m.heap.size]
    simpa [Block.free, Block.payloads] using listed

theorem aims_capped (aims : m.heap.Aims blocks) (tag : Tag) :
    (m.capped extra segment tag).heap.Aims (blocks ++ [⟨m.heap.size, extra, false⟩]) := by
  intro resumes
  have same : (m.capped extra segment tag).heap.cursor = m.heap.cursor := rfl
  rw [same]
  rcases aims resumes with prologue | epilogue | block
  · exact .inl prologue
  · exact .inr (.inr (by simp [epilogue]))
  · exact .inr (.inr (by simp [block]))

theorem run_annex (keeps : m.heap.Keeps blocks nodes []) (coalesced : Block.Coalesced blocks)
    (aims : m.heap.Aims blocks) (granted : m.grant extra = .ok segment) (large : 16 ≤ extra)
    (even : extra % 8 = 0) :
    ∃ n front w, annex m.heap.size extra (m.raised extra segment) = .ok w.payload n ∧
      Block.merge (blocks ++ [⟨m.heap.size, extra, false⟩]) = front ++ [w] ∧
      w.allocated = false ∧ extra ≤ w.size ∧
      n.heap.Keeps (front ++ [w]) (m.heap.strategy.enlist w.payload (w.outside nodes)) [] ∧
      n.heap.cursor = (m.heap.steer w.rewind).cursor ∧ n.heap.Aims (front ++ [w]) ∧
      Grows none extra (fun i => m.heap.size ≤ i + 4 ∨ Block.Spare blocks i) m n := by
  obtain ⟨bounded, _⟩ := size_le_of_grant granted
  have low := keeps.spelt.size_pos
  obtain ⟨tag, made, size, flag⟩ := make_ok extra false even (by omega)
  have onGrid : m.heap.size % 8 = 0 := (keeps.spelt.tiled.aligned rfl).1
  have grows : Grows none extra (fun i => m.heap.size ≤ i + 4 ∨ Block.Spare blocks i) m
      (m.capped extra segment tag) := grows_capped low large size granted onGrid flag fun _ => .inl
  have capped : (m.capped extra segment tag).heap.Keeps
      (blocks ++ [⟨m.heap.size, extra, false⟩]) nodes [m.heap.size] :=
    keeps_capped keeps large even bounded size flag
  obtain ⟨n, front, w, back, ran, merged, free, start, stop, kept, cursor, aims', edits⟩ :=
    run_merge capped coalesced List.isChain_nil (aims_capped aims tag)
  simp only at start stop
  -- the new block reaches up to the top, so there is nothing behind the merged one
  have last : back = [] := by
    have grown : n.heap.size = m.heap.size + extra := edits.size.trans size_capped
    exact kept.spelt.tiled.eq_nil_of_le (by omega)
  subst last
  refine ⟨n, front, w, ?_, merged, free, by omega, kept, ?_, aims', grows.trans ?_⟩
  · rw [annex_eq low large size made bounded]
    exact ran
  · exact cursor.trans (Heap.cursor_steer_congr grows.config rfl _)
  · apply edits.mono
    rintro i ⟨c, mem, covered⟩
    rw [Block.free_append, List.mem_append] at mem
    rcases mem with old | new
    · exact .inr ⟨c, old, covered⟩
    · have here : c = ⟨m.heap.size, extra, false⟩ := by simpa [Block.free] using new
      rw [here] at covered
      exact .inl covered.1

theorem layOut_ok (size : m.heap.size = 16) :
    layOut m = .ok () { m with heap := m.heap.laidOut } := by
  have small : m.heap.size ≤ Heap.maxRegion := by
    rw [size]
    decide
  have padded : put 0 .padding m = .ok () { m with heap := m.heap.setWord 0 0 } :=
    put_ok small (by omega) .padding
  have opened := setBlock_ok (m := { m with heap := m.heap.setWord 0 0 }) Heap.prologue
    .prologue (by simpa using small) (by decide) (by decide)
    (by simp [size, Heap.prologue, Tag.prologue, tagBytes])
  have header : Heap.headerOf Heap.firstBlock = .ok 12 := rfl
  have closed := putTag_ok
    (m := { m with heap := (m.heap.setWord 0 0).setTags Heap.prologue .prologue })
    12 (by simpa using small) (by simp [size]) .epilogue
  rw [layOut, bind_of_ok padded, bind_of_ok opened, header, bind_of_ok (liftM_ok _ _),
    bind_of_ok closed, edit_eq]
  rfl

def founded (m : Machine) (segment : Segment) : Machine :=
  { m.raised 16 segment with heap := (m.raised 16 segment).heap.laidOut }

theorem size_founded (segment : Segment) (empty : m.heap.size = 0) :
    (m.founded segment).heap.size = 16 := by
  rw [founded, Heap.size_laidOut, size_raised, empty]

theorem settled_founded (segment : Segment) (blank : m.heap.Blank)
    (valid : m.heap.config.isValid = true) : (m.founded segment).heap.Settled [] [] := by
  have size : (m.raised 16 segment).heap.size = 16 := by
    rw [size_raised, blank.size]
  exact ⟨rfl, valid, Heap.keeps_laidOut size blank.freeHead blank.freeBlocks, List.isChain_nil,
    fun _ => .inl rfl⟩

theorem init_again (laidOut : m.heap.initialized = true) :
    init m = .ok (.error .alreadyInitialized) m := by
  rw [init, bind_current, bind_current, if_pos laidOut]
  rfl

theorem init_invalid (fresh : m.heap.initialized = false)
    (invalid : m.heap.config.isValid = false) :
    init m = .ok (.error (.invalidChunk m.heap.config.chunk)) m := by
  rw [init, bind_current, bind_current, fresh, invalid]
  rfl

theorem init_refused (fresh : m.heap.initialized = false) (valid : m.heap.config.isValid = true)
    {error : RegionError} (refused : m.heap.region.reserve 16 m.segment = .error error) :
    init m = .ok (.error (.region error)) m := by
  rw [init, bind_current, bind_current, fresh, valid]
  exact bind_of_ok (growRegion_error refused)

theorem chunk_bounds (valid : m.heap.config.isValid = true) :
    16 ≤ m.heap.config.chunk ∧ m.heap.config.chunk ≤ maxBlock ∧ m.heap.config.chunk % 8 = 0 := by
  simp only [Config.isValid, Bool.and_eq_true, decide_eq_true_eq, isAligned_iff] at valid
  exact ⟨valid.1.1, valid.1.2, valid.2⟩

theorem init_eq (fresh : m.heap.initialized = false) (empty : m.heap.size = 0)
    (valid : m.heap.config.isValid = true)
    (granted : m.heap.region.reserve 16 m.segment = .ok segment) :
    init m = match (m.founded segment).grant m.heap.config.chunk with
      | .error error => .ok (.error error) (m.founded segment)
      | .ok grown =>
        (annex 16 m.heap.config.chunk >>= fun _ => do
          note (.initialized m.heap.config.chunk m.heap.config.strategy)
          return .ok ()) ((m.founded segment).raised m.heap.config.chunk grown) := by
  obtain ⟨large, fits, even⟩ := chunk_bounds valid
  have size : (m.raised 16 segment).heap.size = 16 := by
    rw [size_raised, empty]
  have bare := size_founded segment empty
  have extended := extend_eq (m := m.founded segment) even fits (by rw [bare]; decide)
  have grown := growRegion_ok granted
  rw [empty] at grown
  rw [init, bind_current, bind_current, fresh, valid, if_neg Bool.false_ne_true,
    Bool.not_true, if_neg Bool.false_ne_true]
  apply (bind_of_ok grown).trans
  have unused : requires ((0 : Nat) == 0) .regionInUse = .ok () := rfl
  simp only [unused]
  rw [bind_of_ok (liftM_ok _ _), bind_of_ok (layOut_ok size)]
  rw [bare] at extended
  change (extend (m.heap.config.chunk / wordSize) >>= _) (m.founded segment) = _
  cases granted' : (m.founded segment).grant m.heap.config.chunk with
  | error error =>
    rw [granted'] at extended
    exact bind_of_ok extended
  | ok grown =>
    rw [granted'] at extended
    dsimp only at extended
    apply (bind_of_eq extended _).trans
    rw [bind_assoc]
    rfl

theorem run_init (blank : m.heap.Blank) (valid : m.heap.config.isValid = true)
    (granted : m.heap.region.reserve 16 m.segment = .ok segment) {grown : Segment}
    (seeded : (m.founded segment).grant m.heap.config.chunk = .ok grown) :
    ∃ n, init m = .ok (.ok ()) n ∧
      n.heap.Settled [⟨16, m.heap.config.chunk, false⟩] [16] ∧ n.segment = grown ∧
      n.heap.region.backing = m.heap.region.backing ∧ n.heap.config = m.heap.config := by
  obtain ⟨large, fits, even⟩ := chunk_bounds valid
  have settled := settled_founded segment blank valid
  have bare := size_founded segment blank.size
  obtain ⟨n, front, w, ran, merged, _, _, kept, _, aims, grows⟩ :=
    run_annex settled.keeps settled.coalesced settled.aims seeded large even
  rw [bare] at ran merged
  obtain ⟨rfl, rfl⟩ : front = [] ∧ w = ⟨16, m.heap.config.chunk, false⟩ := by
    have alone : [(⟨16, m.heap.config.chunk, false⟩ : Block)] = front ++ [w] := merged
    cases front with
    | nil => simpa using alone.symm
    | cons c rest => simp at alone
  have shared : grown = n.segment := by
    have both := seeded.symm.trans grows.segment
    simpa using both
  have nodes : (m.founded segment).heap.strategy.enlist 16
      (Block.outside ⟨16, m.heap.config.chunk, false⟩ []) = [16] := by
    rw [Block.outside, List.filter_nil, Strategy.enlist_nil]
  rw [nodes] at kept
  refine ⟨{ n with log := n.log.push (.initialized m.heap.config.chunk m.heap.config.strategy) },
    ?_, grows.settled settled kept (List.isChain_singleton _) aims, shared.symm, grows.backing,
    grows.config⟩
  rw [init_eq blank.initialized blank.size valid granted, seeded]
  dsimp only
  rw [bind_of_ok ran]
  rfl

end Machine

end BoundaryTag
