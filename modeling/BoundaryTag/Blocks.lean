import BoundaryTag.Heap

namespace BoundaryTag

structure Block where
  payload : Nat
  size : Nat
  allocated : Bool
  deriving DecidableEq

def Block.totalSize : List Block → Nat
  | [] => 0
  | block :: rest => block.size + totalSize rest

/-- A block and, when free blocks are kept on a list, the links of a free one. -/
structure BlockView extends Block where
  links : Option Links
  deriving DecidableEq

namespace Heap

def viewLinks (h : Heap) (bp : Nat) (tag : Tag) : Except Fault (Option Links) :=
  if tag.allocated || !h.strategy.usesList then .ok none else some <$> h.links bp

def blockAt? (h : Heap) (bp : Nat) : Except Fault (Option BlockView) := do
  let tag ← h.tag bp
  if tag.size = 0 then return none
  return some ⟨⟨bp, tag.size, tag.allocated⟩, ← h.viewLinks bp tag⟩

def walkStart (h : Heap) : Option Nat :=
  if h.initialized then some firstBlock else none

/-- One step of a walk: the block it stands before, and where it stands afterwards.  A walk that
has ended stays ended. -/
def walkStep (h : Heap) : Option Nat → Except Fault (Option BlockView × Option Nat)
  | none => return (none, none)
  | some bp => do
    match ← h.blockAt? bp with
    | none => return (none, none)
    | some block => return (some block, some (← Offset.add bp block.size))

def walkSteps (h : Heap) : Nat → Option Nat → Except Fault (List (Option BlockView))
  | 0, _ => return []
  | count + 1, position => do
    let (block, position) ← h.walkStep position
    return block :: (← h.walkSteps count position)

theorem size_pos_of_blockAt {h : Heap} {bp : Nat} {view : BlockView}
    (read : h.blockAt? bp = .ok (some view)) : 0 < view.size ∧ bp ≤ h.size := by
  simp only [blockAt?, bind_eq_ok_iff] at read
  obtain ⟨tag, atTag, read⟩ := read
  split at read
  · cases read
  · rename_i sized
    simp only [bind_eq_ok_iff] at read
    obtain ⟨_, _, same⟩ := read
    cases same
    exact ⟨Nat.pos_of_ne_zero sized, le_size_of_tag atTag⟩

def blocksFrom (h : Heap) (bp : Nat) : Except Fault (List BlockView) :=
  match _read : h.blockAt? bp with
  | .error fault => .error fault
  | .ok none => .ok []
  | .ok (some view) =>
    match _sum : Offset.add bp view.size with
    | .error fault => .error fault
    | .ok next => return view :: (← h.blocksFrom next)
termination_by h.size + 1 - bp
decreasing_by
  have := size_pos_of_blockAt _read
  have := (Offset.add_eq_ok_iff.1 _sum).2
  omega

def blocks (h : Heap) : Except Fault (List BlockView) :=
  if h.initialized then h.blocksFrom firstBlock else .ok []

end Heap

end BoundaryTag
