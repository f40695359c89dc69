import BoundaryTag.Machine
import BoundaryTag.Proofs.Tiling

namespace BoundaryTag

def Memory.tag (m : Memory) (offset : Nat) : Tag := Tag.unpack (m.word offset)

theorem Memory.word_congr {m n : Memory} {offset : Nat}
    (same : ∀ i, offset ≤ i → i < offset + 4 → n.byte i = m.byte i) :
    n.word offset = m.word offset := by
  simp only [word]
  rw [same offset, same (offset + 1), same (offset + 2), same (offset + 3)] <;> omega

theorem Memory.tag_congr {m n : Memory} {offset : Nat}
    (same : ∀ i, offset ≤ i → i < offset + 4 → n.byte i = m.byte i) :
    n.tag offset = m.tag offset := by
  rw [tag, word_congr same, tag]

def Tag.Describes (tag : Tag) (b : Block) : Prop :=
  tag.size = b.size ∧ tag.allocated = b.allocated

structure Block.Bracketed (b : Block) (m : Memory) : Prop where
  header : (m.tag (b.payload - 4)).Describes b
  footer : (m.tag (b.payload + b.size - 8)).Describes b

theorem Block.Bracketed.congr {b : Block} {m n : Memory} (bracketed : b.Bracketed m)
    (low : 4 ≤ b.payload) (large : 8 ≤ b.size) (same : ∀ i, b.Marks i → n.byte i = m.byte i) :
    b.Bracketed n := by
  constructor
  · rw [Memory.tag_congr fun i _ _ => same i ⟨⟨by omega, by omega⟩, fun owned => by
      have := owned.1
      omega⟩]
    exact bracketed.header
  · rw [Memory.tag_congr fun i _ _ => same i ⟨⟨by omega, by omega⟩, fun owned => by
      have := owned.2
      omega⟩]
    exact bracketed.footer

namespace Heap

def byte (h : Heap) (i : Nat) : UInt8 := h.region.memory.byte i

def header (h : Heap) (bp : Nat) : Tag := h.region.memory.tag (bp - wordSize)

structure Spells (h : Heap) (blocks : List Block) : Prop where
  tiled : Block.Tiles firstBlock blocks h.size
  bounded : h.size ≤ maxRegion
  prologueHeader : h.region.memory.word 4 = Tag.prologue.pack
  prologueFooter : h.region.memory.word 8 = Tag.prologue.pack
  bracketed : ∀ b ∈ blocks, b.Bracketed h.region.memory
  epilogue : h.region.memory.tag (h.size - 4) = .epilogue

def setTags (h : Heap) (bp : Nat) (tag : Tag) : Heap :=
  (h.setWord (bp - 4) tag.pack).setWord (bp + tag.size - 8) tag.pack

theorem word_eq {h : Heap} {offset : Nat} (small : h.size ≤ maxRegion)
    (fits : offset + 4 ≤ h.size) : h.word offset = .ok (h.region.memory.word offset) := by
  simp only [maxRegion] at small
  refine word_eq_ok_iff.2 ⟨?_, fits, rfl⟩
  simp only [Offset.limit]
  omega

theorem tag_eq {h : Heap} {bp : Nat} (small : h.size ≤ maxRegion) (low : 4 ≤ bp)
    (fits : bp ≤ h.size) : h.tag bp = .ok (h.region.memory.tag (bp - 4)) := by
  have start : headerOf bp = .ok (bp - 4) := Offset.sub_eq_ok_iff.2 ⟨low, rfl⟩
  have read : h.word (bp - 4) = .ok (h.region.memory.word (bp - 4)) := word_eq small (by omega)
  rw [tag, start]
  simp only [bind, Except.bind, read]
  rfl

theorem prevTag_eq {h : Heap} {bp : Nat} (small : h.size ≤ maxRegion) (low : 8 ≤ bp)
    (fits : bp ≤ h.size) : h.prevTag bp = .ok (h.region.memory.tag (bp - 8)) := by
  have start : prevFooterOf bp = .ok (bp - 8) := Offset.sub_eq_ok_iff.2 ⟨low, rfl⟩
  have read : h.word (bp - 8) = .ok (h.region.memory.word (bp - 8)) := word_eq small (by omega)
  rw [prevTag, start]
  simp only [bind, Except.bind, read]
  rfl

theorem links_eq {h : Heap} {bp : Nat} (small : h.size ≤ maxRegion) (fits : bp + 8 ≤ h.size) :
    h.links bp = .ok ⟨Links.decode (h.region.memory.word bp),
      Links.decode (h.region.memory.word (bp + 4))⟩ := by
  have bound : bp + 8 < Offset.limit := by
    simp only [maxRegion] at small
    simp only [Offset.limit]
    omega
  have next : Offset.add bp Links.nextOffset = .ok bp :=
    Offset.add_eq_ok_iff.2 ⟨by simp only [Links.nextOffset]; omega, rfl⟩
  have prev : Offset.add bp Links.prevOffset = .ok (bp + 4) :=
    Offset.add_eq_ok_iff.2 ⟨by simp only [Links.prevOffset, wordSize]; omega, rfl⟩
  have readNext : h.word bp = .ok (h.region.memory.word bp) := word_eq small (by omega)
  have readPrev : h.word (bp + 4) = .ok (h.region.memory.word (bp + 4)) :=
    word_eq small (by omega)
  rw [links, next, prev]
  simp only [bind, Except.bind, readNext, readPrev]
  rfl

@[simp] theorem size_setTags (h : Heap) (bp : Nat) (tag : Tag) :
    (h.setTags bp tag).size = h.size := by
  simp [setTags]

theorem byte_setWord {h : Heap} {offset i : Nat} {w : Word} (fits : offset + 4 ≤ h.size)
    (outside : ¬(offset ≤ i ∧ i < offset + 4)) : (h.setWord offset w).byte i = h.byte i := by
  simp only [byte, setWord, Region.setWord]
  rw [Memory.byte_setWord fits, if_neg outside]

section setTags

variable {h : Heap} {bp : Nat} {tag : Tag}

theorem memory_setTags : (h.setTags bp tag).region.memory =
    (h.region.memory.setWord (bp - 4) tag.pack).setWord (bp + tag.size - 8) tag.pack := by
  simp only [setTags, setWord, Region.setWord]

theorem byte_setTags (low : 4 ≤ bp) (large : 8 ≤ tag.size) (fits : bp + tag.size ≤ h.size + 4)
    {i : Nat} (outside : ¬(⟨bp, tag.size, tag.allocated⟩ : Block).Marks i) :
    (h.setTags bp tag).byte i = h.byte i := by
  simp only [Block.Marks, Block.Covers, Block.Owns] at outside
  rw [setTags, byte_setWord (by simp; omega) (by omega), byte_setWord (by omega) (by omega)]

theorem bracketed_setTags (low : 4 ≤ bp) (large : 8 ≤ tag.size)
    (fits : bp + tag.size ≤ h.size + 4) :
    (⟨bp, tag.size, tag.allocated⟩ : Block).Bracketed (h.setTags bp tag).region.memory := by
  have start : bp - 4 + 4 ≤ h.region.memory.size := by
    change bp - 4 + 4 ≤ h.size
    omega
  have stop : bp + tag.size - 8 + 4 ≤ (h.region.memory.setWord (bp - 4) tag.pack).size := by
    rw [Memory.size_setWord]
    change bp + tag.size - 8 + 4 ≤ h.size
    omega
  have header : (h.setTags bp tag).region.memory.word (bp - 4) = tag.pack := by
    rw [memory_setTags, Memory.word_setWord_of_disjoint stop _ (by omega),
      Memory.word_setWord start]
  have footer : (h.setTags bp tag).region.memory.word (bp + tag.size - 8) = tag.pack := by
    rw [memory_setTags, Memory.word_setWord stop]
  constructor
  · simp [Memory.tag, header, Tag.Describes]
  · simp [Memory.tag, footer, Tag.Describes]

end setTags

namespace Spells

variable {h k : Heap} {blocks before old new after : List Block} {b c : Block}

theorem size_pos (spelt : h.Spells blocks) : 16 ≤ h.size := spelt.tiled.le

theorem bounds (spelt : h.Spells blocks) (mem : b ∈ blocks) :
    16 ≤ b.payload ∧ b.payload + b.size ≤ h.size ∧ 16 ≤ b.size ∧ b.size % 8 = 0 ∧
      h.size ≤ 4294967295 :=
  have ⟨low, high, large, even⟩ := spelt.tiled.bounds mem
  ⟨low, high, large, even, spelt.bounded⟩

theorem tag (spelt : h.Spells blocks) (mem : b ∈ blocks) :
    ∃ tag, h.tag b.payload = .ok tag ∧ tag.Describes b := by
  have := spelt.bounds mem
  exact ⟨_, tag_eq spelt.bounded (by omega) (by omega), (spelt.bracketed b mem).header⟩

theorem allocatedTag (spelt : h.Spells blocks) (mem : b ∈ blocks) (live : b.allocated = true)
    (purpose : Purpose) :
    ∃ tag, h.allocatedTag b.payload purpose = .ok tag ∧ tag.Describes b := by
  have bounds := spelt.bounds mem
  obtain ⟨tag, read, size, flag⟩ := spelt.tag mem
  have low : Heap.prologue < b.payload := by
    simp only [Heap.prologue]
    omega
  have high : b.payload < h.size := by omega
  have sized : 0 < tag.size := by omega
  have live : tag.allocated = true := flag.trans live
  refine ⟨tag, ?_, size, flag⟩
  simp [Heap.allocatedTag, low, high, read, sized, live, requires, bind, Except.bind, pure,
    Except.pure]

theorem blockSize (spelt : h.Spells blocks) (mem : b ∈ blocks) :
    h.blockSize b.payload = .ok b.size := by
  obtain ⟨tag, read, size, _⟩ := spelt.tag mem
  rw [Heap.blockSize, read]
  simp only [bind, Except.bind, size]
  rfl

theorem nextBlock (spelt : h.Spells blocks) (mem : b ∈ blocks) :
    h.nextBlock b.payload = .ok (b.payload + b.size) := by
  have := spelt.bounds mem
  have sum : Offset.add b.payload b.size = .ok (b.payload + b.size) :=
    Offset.add_eq_ok_iff.2 ⟨by simp only [Offset.limit]; omega, rfl⟩
  rw [Heap.nextBlock, spelt.blockSize mem]
  exact sum

theorem topTag (spelt : h.Spells blocks) : h.tag h.size = .ok .epilogue := by
  have low := spelt.size_pos
  rw [tag_eq spelt.bounded (by omega) (Nat.le_refl _), spelt.epilogue]

theorem firstTags (spelt : h.Spells blocks) :
    h.tag prologue = .ok .prologue ∧ h.prevTag firstBlock = .ok .prologue := by
  have low := spelt.size_pos
  rw [tag_eq spelt.bounded (by decide) (by simp only [prologue]; omega),
    prevTag_eq spelt.bounded (by decide) (by simp only [firstBlock]; omega)]
  constructor
  · exact congrArg _ ((congrArg _ spelt.prologueHeader).trans (Tag.unpack_pack _))
  · exact congrArg _ ((congrArg _ spelt.prologueFooter).trans (Tag.unpack_pack _))

theorem prevTag (spelt : h.Spells (before ++ b :: c :: after)) :
    ∃ tag, h.prevTag c.payload = .ok tag ∧ tag.Describes b := by
  have here := spelt.tiled.meets.symm
  have bounds := spelt.bounds (b := b) (by simp)
  have footer := (spelt.bracketed b (by simp)).footer
  rw [← here] at footer
  exact ⟨_, prevTag_eq spelt.bounded (by omega) (by omega), footer⟩

theorem prevBlock (spelt : h.Spells (before ++ b :: c :: after)) :
    h.prevBlock c.payload = .ok b.payload := by
  have here := spelt.tiled.meets.symm
  obtain ⟨tag, read, size, _⟩ := spelt.prevTag
  have back : c.payload - tag.size = b.payload := by omega
  have fits : tag.size ≤ c.payload := by omega
  rw [Heap.prevBlock, read]
  simp [bind, Except.bind, requires, fits, back, pure, Except.pure]

theorem prevTag_of_closed (spelt : h.Spells (before ++ b :: after))
    (closed : ∀ c ∈ before.getLast?, c.allocated = true) :
    ∃ tag, h.prevTag b.payload = .ok tag ∧ tag.allocated = true := by
  rcases List.eq_nil_or_concat before with rfl | ⟨front, last, rfl⟩
  · have here : b.payload = 16 := spelt.tiled.1
    have := spelt.bounds (b := b) (by simp)
    refine ⟨_, prevTag_eq spelt.bounded (by omega) (by omega), ?_⟩
    rw [here, Memory.tag, spelt.prologueFooter, Tag.unpack_pack]
    rfl
  · rw [List.concat_eq_append] at spelt closed
    have live : last.allocated = true := closed last (by simp)
    obtain ⟨tag, read, _, flag⟩ := Spells.prevTag (by simpa using spelt)
    exact ⟨tag, read, flag.trans live⟩

theorem nextTag_of_closed (spelt : h.Spells (before ++ b :: after))
    (closed : ∀ c ∈ after.head?, c.allocated = true) :
    ∃ tag, h.tag (b.payload + b.size) = .ok tag ∧ tag.allocated = true := by
  have bounds := spelt.bounds (b := b) (by simp)
  have rest := spelt.tiled.split.2
  cases after with
  | nil =>
    have top : b.payload + b.size = h.size := by
      rw [rest.1]
      exact rest.2.2.2
    refine ⟨_, tag_eq spelt.bounded (by omega) (by omega), ?_⟩
    rw [top, spelt.epilogue]
    rfl
  | cons c after =>
    have here : c.payload = b.payload + b.size := rest.2.2.2.1.trans (by rw [rest.1])
    obtain ⟨tag, read, _, flag⟩ := spelt.tag (b := c) (by simp)
    rw [here] at read
    exact ⟨tag, read, flag.trans (closed c (by simp))⟩

theorem of_sentinels {target : List Block} (spelt : h.Spells blocks) (size : k.size = h.size)
    (same : ∀ i, i < 12 ∨ h.size ≤ i + 4 → k.byte i = h.byte i)
    (tiled : Block.Tiles firstBlock target h.size)
    (bracketed : ∀ b ∈ target, b.Bracketed k.region.memory) : k.Spells target := by
  have low := spelt.size_pos
  refine ⟨size ▸ tiled, size ▸ spelt.bounded, ?_, ?_, bracketed, ?_⟩
  · rw [← spelt.prologueHeader]
    exact Memory.word_congr fun i _ _ => same i (by omega)
  · rw [← spelt.prologueFooter]
    exact Memory.word_congr fun i _ _ => same i (by omega)
  · rw [← spelt.epilogue, size]
    exact Memory.tag_congr fun i _ _ => same i (by omega)

theorem transfer (spelt : h.Spells blocks) (size : k.size = h.size)
    (same : ∀ i, (∀ b ∈ blocks, ¬b.Owns i) → k.byte i = h.byte i) : k.Spells blocks := by
  have tags : ∀ b ∈ blocks, ∀ i, b.Covers i → ¬b.Owns i → k.byte i = h.byte i := by
    intro b mem i covered kept
    apply same i
    intro c mem' owned
    cases spelt.tiled.eq_of_covers mem mem' covered owned.covers
    exact kept owned
  have outside : ∀ i, i < 12 ∨ h.size ≤ i + 4 → k.byte i = h.byte i := by
    intro i apart
    apply same i
    intro c mem owned
    have := spelt.bounds mem
    obtain ⟨above, below⟩ := owned
    omega
  refine spelt.of_sentinels size outside spelt.tiled fun b mem => ?_
  have bounds := spelt.bounds mem
  exact (spelt.bracketed b mem).congr (by omega) (by omega) fun i mark =>
    tags b mem i mark.1 mark.2

theorem exchange (spelt : h.Spells (before ++ old ++ after)) (size : k.size = h.size)
    (fits : ∀ lo hi, Block.Tiles lo old hi → Block.Tiles lo new hi)
    (same : ∀ i, (∀ b ∈ old, ¬b.Covers i) → k.byte i = h.byte i)
    (written : ∀ b ∈ new, b.Bracketed k.region.memory) :
    k.Spells (before ++ new ++ after) := by
  have outside : ∀ i, i < 12 ∨ h.size ≤ i + 4 → k.byte i = h.byte i := by
    intro i apart
    apply same i
    intro c mem covered
    have := spelt.bounds (b := c) (by simp [mem])
    obtain ⟨above, below⟩ := covered
    omega
  have others : ∀ b ∈ before ++ after, b.Bracketed k.region.memory := by
    intro b mem
    have mem' : b ∈ before ++ old ++ after := by
      rcases List.mem_append.1 mem with below | above
      · simp [below]
      · simp [above]
    have bounds := spelt.bounds mem'
    have kept : ∀ i, b.Covers i → k.byte i = h.byte i := by
      intro i covered
      apply same i
      intro c run covered'
      -- blocks below the run end before it starts, those above start where it has ended
      have apart : b.payload + b.size ≤ c.payload ∨ c.payload + c.size ≤ b.payload := by
        rcases List.mem_append.1 mem with below | above
        · exact .inl (spelt.tiled.split.1.below below run)
        · exact .inr (spelt.tiled.below (List.mem_append_right before run) above)
      obtain ⟨lo, hi⟩ := covered
      obtain ⟨lo', hi'⟩ := covered'
      omega
    exact (spelt.bracketed b mem').congr (by omega) (by omega) fun i mark => kept i mark.1
  refine spelt.of_sentinels size outside (spelt.tiled.exchange fits) fun b mem => ?_
  simp only [List.mem_append] at mem
  rcases mem with (below | run) | above
  · exact others b (by simp [below])
  · exact written b run
  · exact others b (by simp [above])

theorem extend (spelt : h.Spells blocks) (top : b.payload = h.size)
    (size : k.size = h.size + b.size) (large : 16 ≤ b.size) (even : b.size % 8 = 0)
    (bounded : k.size ≤ maxRegion)
    (same : ∀ i, i + 4 < h.size → k.byte i = h.byte i)
    (written : b.Bracketed k.region.memory)
    (epilogue : k.region.memory.tag (k.size - 4) = .epilogue) :
    k.Spells (blocks ++ [b]) := by
  have low := spelt.size_pos
  refine ⟨?_, bounded, ?_, ?_, ?_, epilogue⟩
  · rw [Block.tiles_append]
    exact ⟨h.size, spelt.tiled, Block.tiles_singleton.2 ⟨top, large, even, size.symm⟩⟩
  · rw [← spelt.prologueHeader]
    exact Memory.word_congr fun i _ _ => same i (by omega)
  · rw [← spelt.prologueFooter]
    exact Memory.word_congr fun i _ _ => same i (by omega)
  · intro c mem
    rcases List.mem_append.1 mem with mem | mem
    · have bounds := spelt.bounds mem
      refine (spelt.bracketed c mem).congr (by omega) (by omega) fun i mark => same i ?_
      have := mark.1.2
      omega
    · rw [List.mem_singleton] at mem
      exact mem ▸ written

end Spells

end Heap

end BoundaryTag
