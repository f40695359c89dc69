import BoundaryTag.Config
import BoundaryTag.Fault
import BoundaryTag.Region

/-! A heap in a region, and what can be read from it.

The region opens with a padding word and the prologue, an allocated block that is only its two tags.
Blocks follow without gaps; a lone header of size zero, the epilogue, closes the heap.  A block is
named by the offset of its payload, which starts one word after its header. -/

namespace BoundaryTag

structure Heap where
  region : Region
  config : Config
  initialized : Bool
  cursor : Nat
  freeHead : Option Nat
  freeBlocks : Nat

namespace Heap

def prologue : Nat := 8

def firstBlock : Nat := 16

/-- The largest word.  Links are words, so no block may start past this point. -/
def maxRegion : Nat := 4294967295

def ofRegion (region : Region) (config : Config) : Heap :=
  ⟨region, config, false, prologue, none, 0⟩

def headerOf (bp : Nat) : Except Fault Nat := Offset.sub bp wordSize

def footerOf (bp size : Nat) : Except Fault Nat := do
  Offset.sub (← Offset.add bp size) tagBytes

def prevFooterOf (bp : Nat) : Except Fault Nat := Offset.sub bp tagBytes

def size (h : Heap) : Nat := h.region.size

def strategy (h : Heap) : Strategy := h.config.strategy

def locate (h : Heap) (offset : Nat) : Except Fault Unit := do
  let stop ← Offset.add offset wordSize
  requires (stop ≤ h.size) (.wordOutside offset h.size)

def word (h : Heap) (offset : Nat) : Except Fault Word := do
  h.locate offset
  return h.region.memory.word offset

def word? (h : Heap) (offset : Nat) : Option Word := do
  let stop ← Offset.add? offset wordSize
  if stop ≤ h.size then some (h.region.memory.word offset) else none

def tag (h : Heap) (bp : Nat) : Except Fault Tag := do
  return Tag.unpack (← h.word (← headerOf bp))

def prevTag (h : Heap) (bp : Nat) : Except Fault Tag := do
  return Tag.unpack (← h.word (← prevFooterOf bp))

def blockSize (h : Heap) (bp : Nat) : Except Fault Nat := do
  return (← h.tag bp).size

def nextBlock (h : Heap) (bp : Nat) : Except Fault Nat := do
  Offset.add bp (← h.blockSize bp)

def prevBlock (h : Heap) (bp : Nat) : Except Fault Nat := do
  let before ← h.prevTag bp
  requires (before.size ≤ bp) (.blockBefore bp before.size)
  return bp - before.size

def links (h : Heap) (bp : Nat) : Except Fault Links := do
  let next ← h.word (← Offset.add bp Links.nextOffset)
  let prev ← h.word (← Offset.add bp Links.prevOffset)
  return ⟨Links.decode next, Links.decode prev⟩

def allocatedTag (h : Heap) (bp : Nat) (purpose : Purpose) : Except Fault Tag := do
  requires (prologue < bp && bp < h.size) (.outsideHeap purpose bp)
  let tag ← h.tag bp
  requires (tag.allocated && 0 < tag.size) (.notAllocated purpose bp)
  return tag

def requireInitialized (h : Heap) : Except Fault Unit :=
  requires h.initialized .beforeInit

def setWord (h : Heap) (offset : Nat) (w : Word) : Heap :=
  { h with region := h.region.setWord offset w }

def text (h : Heap) : String :=
  Text.record "Heap"
    [("region", h.region.text), ("config", h.config.text),
      ("initialized", Text.ofBool h.initialized), ("cursor", toString h.cursor),
      ("free_head", Text.ofOption h.freeHead), ("free_blocks", toString h.freeBlocks)]

theorem locate_eq_ok_iff {h : Heap} {offset : Nat} {u : Unit} :
    h.locate offset = .ok u ↔ offset + 4 < Offset.limit ∧ offset + 4 ≤ h.size := by
  simp [locate, bind_eq_ok_iff, wordSize, and_assoc]

theorem word_eq_ok_iff {h : Heap} {offset : Nat} {w : Word} :
    h.word offset = .ok w ↔
      offset + 4 < Offset.limit ∧ offset + 4 ≤ h.size ∧ h.region.memory.word offset = w := by
  simp [word, bind_eq_ok_iff, locate_eq_ok_iff, pure, Except.pure, and_assoc]

theorem word?_eq_some_iff {h : Heap} {offset : Nat} {w : Word} :
    h.word? offset = some w ↔
      offset + 4 < Offset.limit ∧ offset + 4 ≤ h.size ∧ h.region.memory.word offset = w := by
  unfold word?
  by_cases bound : offset + 4 < Offset.limit
  · by_cases inside : offset + 4 ≤ h.size <;>
      simp [Offset.add?, wordSize, bound, inside]
  · simp [Offset.add?, wordSize, bound]

theorem footerOf_eq_ok_iff {bp size offset : Nat} : footerOf bp size = .ok offset ↔
    bp + size < Offset.limit ∧ tagBytes ≤ bp + size ∧ bp + size - tagBytes = offset := by
  simp [footerOf, bind_eq_ok_iff, and_assoc]

theorem le_size_of_tag {h : Heap} {bp : Nat} {tag : Tag} (read : h.tag bp = .ok tag) :
    bp ≤ h.size := by
  unfold Heap.tag headerOf Offset.sub at read
  split at read
  · simp only [bind, Except.bind] at read
    split at read
    · contradiction
    · rename_i word found
      have := (word_eq_ok_iff.1 found).2.1
      simp only [wordSize] at *
      omega
  · contradiction

@[simp] theorem size_setWord (h : Heap) (offset : Nat) (w : Word) :
    (h.setWord offset w).size = h.size := by
  simp [setWord, size]

end Heap

end BoundaryTag
