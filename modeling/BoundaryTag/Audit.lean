import BoundaryTag.Blocks

namespace BoundaryTag

structure Report where
  blocks : Nat := 0
  freeBlocks : Nat := 0
  freeBytes : Nat := 0
  allocatedBlocks : Nat := 0
  allocatedBytes : Nat := 0
  heapSize : Nat := 0
  deriving DecidableEq

namespace Report

def ofBlocks (blocks : List Block) (heapSize : Nat) : Report :=
  let free := blocks.filter (!·.allocated)
  let live := blocks.filter (·.allocated)
  { blocks := blocks.length
    freeBlocks := free.length
    freeBytes := Block.totalSize free
    allocatedBlocks := live.length
    allocatedBytes := Block.totalSize live
    heapSize }

def text (r : Report) : String :=
  Text.record "HeapReport"
    [("blocks", toString r.blocks), ("free_blocks", toString r.freeBlocks),
      ("free_bytes", toString r.freeBytes), ("allocated_blocks", toString r.allocatedBlocks),
      ("allocated_bytes", toString r.allocatedBytes), ("heap_size", toString r.heapSize)]

end Report

inductive Finding
  | violation (violation : Violation)
  | fault (fault : Fault)
  deriving DecidableEq

abbrev Audit := Except Finding

namespace Audit

def violates (violation : Violation) : Audit α := .error (.violation violation)

def demand (holds : Bool) (violation : Violation) : Audit Unit :=
  if holds then .ok () else violates violation

def lift : Except Fault α → Audit α
  | .ok a => .ok a
  | .error fault => .error (.fault fault)

instance : MonadLift (Except Fault) Audit := ⟨lift⟩

@[simp] theorem demand_eq_ok_iff {holds : Bool} {violation : Violation} {u : Unit} :
    demand holds violation = .ok u ↔ holds = true := by
  cases holds <;> simp [demand, violates]

@[simp] theorem liftM_eq_ok_iff {x : Except Fault α} {a : α} :
    (liftM x : Audit α) = .ok a ↔ x = .ok a := by
  cases x <;> simp [liftM, monadLift, MonadLift.monadLift, lift]

end Audit

namespace Heap

def auditTag (h : Heap) (bp offset : Nat) : Audit Tag :=
  match h.word? offset with
  | some word => return Tag.unpack word
  | none => Audit.violates (.outOfBounds bp)

def auditPrologue (h : Heap) : Audit Unit := do
  let header := h.word? (← headerOf prologue)
  let footer := h.word? (← footerOf prologue tagBytes)
  let intact := some Tag.prologue.pack
  Audit.demand (header == intact && footer == intact) .badPrologue

def auditBlock (h : Heap) (bp : Nat) : Audit (Option Block) := do
  Audit.demand (isAligned bp) (.misaligned bp)
  let start ← headerOf bp
  let header ← h.auditTag bp start
  if header.size = 0 then
    Audit.demand (header.allocated && bp == h.size) (.badEpilogue bp)
    return none
  Audit.demand (minBlock ≤ header.size && isAligned header.size) (.badSize bp header.size)
  let stop ← Offset.add start header.size
  let last ← Offset.sub h.size wordSize
  Audit.demand (stop ≤ last) (.outOfBounds bp)
  let footer ← h.auditTag bp (← footerOf bp header.size)
  Audit.demand (header == footer) (.tagMismatch bp header footer)
  return some ⟨bp, header.size, header.allocated⟩

def auditNeighbours (prevFree : Option Nat) (block : Block) : Audit Unit :=
  match prevFree with
  | some prev => Audit.demand block.allocated (.uncoalesced prev block.payload)
  | none => .ok ()

theorem bounds_of_auditBlock {h : Heap} {bp : Nat} {block : Block}
    (formed : h.auditBlock bp = .ok (some block)) : 0 < block.size ∧ bp + block.size ≤ h.size := by
  simp only [auditBlock, bind_eq_ok_iff] at formed
  obtain ⟨_, _, start, atStart, header, _, formed⟩ := formed
  split at formed
  · simp [bind_eq_ok_iff, pure, Except.pure] at formed
  · simp only [bind_eq_ok_iff] at formed
    obtain ⟨_, sized, stop, atStop, last, atLast, _, inside, _, _, _, _, _, _, same⟩ := formed
    cases same
    simp [headerOf, wordSize, minBlock] at *
    omega

/-- The well-formed blocks from `bp` on.  `prevFree` is the block before, if it is free. -/
def auditBlocks (h : Heap) (prevFree : Option Nat) (bp : Nat) : Audit (List Block) :=
  match _formed : h.auditBlock bp with
  | .error finding => .error finding
  | .ok none => .ok []
  | .ok (some block) => do
    auditNeighbours prevFree block
    let next := if block.allocated then none else some bp
    return block :: (← h.auditBlocks next (bp + block.size))
termination_by h.size - bp
decreasing_by
  have := bounds_of_auditBlock _formed
  omega

def auditList (h : Heap) (order : ListOrder) (free : List Nat) (prev : Option Nat) :
    Nat → Option Nat → Audit Unit
  | left, none =>
    Audit.demand (left == 0) (.listCount (free.length - left) free.length)
  | 0, some bp => Audit.violates (if bp ∈ free then .cycle else .notFree bp)
  | left + 1, some bp => do
    Audit.demand (bp ∈ free) (.notFree bp)
    let next := (h.word? (← Offset.add bp Links.nextOffset)).bind Links.decode
    let found := (h.word? (← Offset.add bp Links.prevOffset)).bind Links.decode
    Audit.demand (found == prev) (.brokenLink bp prev found)
    Audit.demand (order != .addressOrdered || prev.all (· < bp)) (.unordered bp)
    h.auditList order free (some bp) left next

def cursorIsValid (h : Heap) (blocks : List Block) : Bool :=
  h.cursor == prologue || h.cursor == h.size || blocks.any (·.payload == h.cursor)

def audit (h : Heap) : Audit Report := do
  Audit.demand h.initialized .uninitialized
  h.auditPrologue
  let blocks ← h.auditBlocks none firstBlock
  let free := (blocks.filter (!·.allocated)).map (·.payload)
  Audit.demand (h.strategy != .nextFit || h.cursorIsValid blocks) (.strayCursor h.cursor)
  Audit.demand (h.freeBlocks == free.length) (.counter h.freeBlocks free.length)
  match h.strategy with
  | .explicitList order => h.auditList order free none free.length h.freeHead
  | .nextFit | .firstFit => .ok ()
  return .ofBlocks blocks h.size

def check (h : Heap) : Except Fault Unit :=
  match h.audit with
  | .ok _ => .ok ()
  | .error (.violation violation) => .error (.inconsistent violation)
  | .error (.fault fault) => .error fault

end Heap

end BoundaryTag
