import BoundaryTag.Fit
import BoundaryTag.Proofs.Coalescing

namespace BoundaryTag

namespace Block

def suits (blocks : List Block) (wanted n : Nat) : Bool :=
  blocks.any fun b => b.payload == n && !b.allocated && wanted ≤ b.size

theorem suits_iff {blocks : List Block} {wanted n : Nat} :
    suits blocks wanted n = true ↔
      ∃ b ∈ blocks, b.payload = n ∧ b.allocated = false ∧ wanted ≤ b.size := by
  simp [suits, and_assoc]

end Block

/-- Where a strategy looks for free blocks, in its order. -/
def Strategy.route (s : Strategy) (cursor : Nat) (blocks : List Block) (nodes : List Nat) :
    List Nat :=
  match s with
  | .firstFit => Block.payloads blocks
  | .nextFit => (Block.payloads blocks).filter (cursor ≤ ·) ++
      (Block.payloads blocks).filter (· < cursor)
  | .explicitList _ => nodes

namespace Heap

def candidate (h : Heap) (blocks : List Block) (nodes : List Nat) (wanted : Nat) : Option Nat :=
  (h.strategy.route h.cursor blocks nodes).find? (Block.suits blocks wanted)

variable {h : Heap} {blocks l₁ l₂ : List Block} {b : Block} {nodes : List Nat}
  {wanted bp : Nat}

theorem Spells.suits_payload (spelt : h.Spells blocks) (mem : b ∈ blocks) :
    Block.suits blocks wanted b.payload = (!b.allocated && decide (wanted ≤ b.size)) := by
  rw [Bool.eq_iff_iff, Block.suits_iff]
  constructor
  · rintro ⟨c, mem', same, free, enough⟩
    cases spelt.tiled.eq_of_payload mem' mem same
    simp [free, enough]
  · intro holds
    simp only [Bool.and_eq_true, Bool.not_eq_eq_eq_not, Bool.not_true, decide_eq_true_eq] at holds
    exact ⟨b, mem, rfl, holds.1, holds.2⟩

theorem scan_top (spelt : h.Spells blocks) (stop : Option Nat) :
    h.scan wanted stop h.size = .ok none := by
  have read := spelt.topTag
  rw [scan]
  split
  · rfl
  · split
    · rename_i found
      rw [read] at found
      cases found
    · rename_i tag found
      rw [read] at found
      cases found
      rfl

theorem scan_read {bp : Nat} {tag : Tag} {stop : Option Nat} (read : h.tag bp = .ok tag)
    (sized : 0 < tag.size) (ahead : stop.any (· ≤ bp) = false)
    (sum : Offset.add bp tag.size = .ok (bp + tag.size)) :
    h.scan wanted stop bp =
      if tag.isFree && wanted ≤ tag.size then .ok (some bp)
      else h.scan wanted stop (bp + tag.size) := by
  conv_lhs => rw [scan]
  rw [ahead, if_neg Bool.false_ne_true]
  split
  · rename_i found
    rw [read] at found
    cases found
  · rename_i found
    rw [read] at found
    cases found
    rw [if_neg (Nat.ne_of_gt sized)]
    split
    · rfl
    · split
      · rename_i found
        rw [sum] at found
        cases found
      · rename_i found
        rw [sum] at found
        cases found
        rfl

theorem scan_step (spelt : h.Spells blocks) (mem : b ∈ blocks) {stop : Option Nat}
    (ahead : stop.any (· ≤ b.payload) = false) :
    h.scan wanted stop b.payload =
      if Block.suits blocks wanted b.payload then .ok (some b.payload)
      else h.scan wanted stop (b.payload + b.size) := by
  obtain ⟨tag, read, size, flag⟩ := spelt.tag mem
  have bounds := spelt.bounds mem
  have sum : Offset.add b.payload tag.size = .ok (b.payload + tag.size) := by
    refine Offset.add_eq_ok_iff.2 ⟨?_, rfl⟩
    simp only [Offset.limit]
    omega
  rw [scan_read read (by omega) ahead sum, spelt.suits_payload mem, Tag.isFree, size, flag]

theorem scan_eq (l₁ : List Block) (spelt : h.Spells (l₁ ++ l₂)) (stop : Option Nat) :
    h.scan wanted stop (firstBlock + Block.totalSize l₁) =
      .ok (((Block.payloads l₂).filter fun n => stop.all (n < ·)).find?
        (Block.suits (l₁ ++ l₂) wanted)) := by
  induction l₂ generalizing l₁ with
  | nil =>
    have top := spelt.tiled.stop_eq
    rw [List.append_nil] at top
    rw [← top]
    exact scan_top spelt stop
  | cons b rest ih =>
    have here := spelt.tiled.payload_eq
    rw [← here]
    have next := ih (l₁ ++ [b]) (by simpa using spelt)
    have shifted : firstBlock + Block.totalSize (l₁ ++ [b]) = b.payload + b.size := by
      simp [here, Nat.add_assoc]
    rw [shifted] at next
    cases ahead : stop.any (· ≤ b.payload) with
    | false =>
      have kept : stop.all (b.payload < ·) = true := by
        cases stop with
        | none => rfl
        | some s => simpa using ahead
      rw [List.append_assoc, List.singleton_append] at next
      rw [scan_step spelt (by simp) ahead, next, Block.payloads_cons, List.filter_cons,
        if_pos kept, List.find?_cons]
      cases Block.suits (l₁ ++ b :: rest) wanted b.payload <;> rfl
    | true =>
      have none : ((Block.payloads (b :: rest)).filter fun n => stop.all (n < ·)) = [] := by
        apply List.filter_eq_nil_iff.2
        intro n listed
        obtain ⟨c, mem, rfl⟩ := List.mem_map.1 listed
        have above := (spelt.tiled.split.2.bounds mem).1
        cases stop with
        | none => simp at ahead
        | some s =>
          have : s ≤ b.payload := by simpa using ahead
          simp only [Option.all_some, decide_eq_true_eq]
          omega
      rw [scan, if_pos ahead, none, List.find?_nil]

theorem scan_prologue (spelt : h.Spells blocks) (stop : Option Nat)
    (ahead : stop.any (· ≤ prologue) = false) :
    h.scan wanted stop prologue = h.scan wanted stop firstBlock := by
  have sum : Offset.add prologue Tag.prologue.size = .ok (prologue + Tag.prologue.size) := rfl
  rw [scan_read spelt.firstTags.1 (by decide) ahead sum]
  rfl

theorem searchList_eq (spelt : h.Spells blocks) (l₁ : List Nat) {l₂ : List Nat}
    (threads : h.Threads (l₁ ++ l₂)) (free : FreeNodes l₂ blocks) {fuel : Nat}
    (enough : l₂.length ≤ fuel) :
    h.searchList wanted fuel l₂.head? = .ok (l₂.find? (Block.suits blocks wanted)) := by
  induction l₂ generalizing l₁ fuel with
  | nil => cases fuel <;> rfl
  | cons n rest ih =>
    cases fuel with
    | zero => simp at enough
    | succ fuel =>
      obtain ⟨b, mem, flag, rfl⟩ := free n (by simp)
      have bounds := spelt.bounds mem
      have threads : h.Threads (l₁ ++ [b.payload] ++ rest) := by simpa using threads
      have next : h.after (some b.payload) = rest.head? := by simpa using threads.after_eq
      have rest := ih _ threads (fun k mem => free k (by simp [mem])) (by simpa using enough)
      have links := @links_eq h b.payload spelt.bounded (by omega)
      rw [List.head?_cons, searchList, spelt.blockSize mem, links, List.find?_cons,
        spelt.suits_payload mem, flag]
      simp only [after] at next
      simp only [bind, Except.bind, Bool.not_false, Bool.true_and, next, rest]
      by_cases enough : wanted ≤ b.size
      · simp [enough, pure, Except.pure]
      · simp [enough]

theorem scan_all (l₁ : List Block) (spelt : h.Spells (l₁ ++ l₂)) :
    h.scan wanted none (firstBlock + Block.totalSize l₁) =
      .ok ((Block.payloads l₂).find? (Block.suits (l₁ ++ l₂) wanted)) := by
  have all : ((Block.payloads l₂).filter fun n => (none : Option Nat).all (n < ·)) =
      Block.payloads l₂ :=
    List.filter_eq_self.2 fun _ _ => rfl
  rw [scan_eq l₁ spelt, all]

theorem scan_from (spelt : h.Spells blocks) {x : Nat}
    (start : x = prologue ∨ x = h.size ∨ x ∈ Block.payloads blocks) :
    h.scan wanted none x =
      .ok (((Block.payloads blocks).filter (x ≤ ·)).find? (Block.suits blocks wanted)) := by
  rcases start with rfl | rfl | listed
  · rw [scan_prologue spelt none rfl, List.filter_eq_self.2]
    · exact scan_all [] spelt
    · intro n listed
      obtain ⟨b, mem, rfl⟩ := List.mem_map.1 listed
      have := spelt.bounds mem
      exact decide_eq_true (by simp only [prologue]; omega)
  · rw [scan_top spelt, List.filter_eq_nil_iff.2, List.find?_nil]
    intro n listed
    obtain ⟨b, mem, rfl⟩ := List.mem_map.1 listed
    have := spelt.bounds mem
    simp only [decide_eq_true_eq]
    omega
  · obtain ⟨b, mem, rfl⟩ := List.mem_map.1 listed
    obtain ⟨l₁, l₂, rfl⟩ := List.append_of_mem mem
    have here := spelt.tiled.payload_eq
    have none : (Block.payloads l₁).filter (b.payload ≤ ·) = [] := by
      apply List.filter_eq_nil_iff.2
      intro n listed
      obtain ⟨c, mem, rfl⟩ := List.mem_map.1 listed
      have := spelt.bounds (b := c) (by simp [mem])
      have := spelt.tiled.below mem (List.mem_cons_self (a := b))
      simp only [decide_eq_true_eq]
      omega
    have all : (Block.payloads (b :: l₂)).filter (b.payload ≤ ·) = Block.payloads (b :: l₂) := by
      apply List.filter_eq_self.2
      intro n listed
      obtain ⟨c, mem, rfl⟩ := List.mem_map.1 listed
      have := (spelt.tiled.split.2.bounds mem).1
      simp only [decide_eq_true_eq]
      omega
    rw [Block.payloads_append, List.filter_append, none, all, List.nil_append, here]
    exact scan_all l₁ spelt

theorem fit_eq (keeps : h.Keeps blocks nodes []) (aims : h.Aims blocks) :
    h.fit wanted = .ok (h.candidate blocks nodes wanted) := by
  rw [fit, candidate]
  cases kind : h.strategy with
  | firstFit => exact scan_all [] keeps.spelt
  | nextFit =>
    have again := @scan_eq h blocks wanted [] keeps.spelt (some h.cursor)
    simp only [scan_from keeps.spelt (aims kind)]
    rw [Strategy.route, List.find?_append]
    cases (((Block.payloads blocks).filter (h.cursor ≤ ·)).find? (Block.suits blocks wanted)) with
    | some bp => rfl
    | none => exact again
  | explicitList order =>
    have threads := keeps.indexed.threaded (usesList_of_kind kind)
    have head : h.freeHead = nodes.head? := @Threads.after_eq h [] nodes threads
    have length := (keeps.spelt.roomy keeps.freeNodes).length_le keeps.indexed.distinct
    simp only [Strategy.route, head]
    exact searchList_eq keeps.spelt [] threads keeps.freeNodes (Nat.le_succ_of_le length)

theorem mem_route (keeps : h.Keeps blocks nodes []) (mem : b ∈ blocks)
    (free : b.allocated = false) : b.payload ∈ h.strategy.route h.cursor blocks nodes := by
  have listed : b.payload ∈ Block.payloads blocks := List.mem_map_of_mem mem
  cases h.strategy with
  | firstFit => exact listed
  | nextFit =>
    rw [Strategy.route, List.mem_append, List.mem_filter, List.mem_filter, decide_eq_true_eq,
      decide_eq_true_eq]
    rcases Nat.lt_or_ge b.payload h.cursor with below | above
    · exact .inr ⟨listed, below⟩
    · exact .inl ⟨listed, above⟩
  | explicitList order =>
    exact keeps.mem_nodes mem free

theorem exists_of_candidate (found : h.candidate blocks nodes wanted = some bp) :
    ∃ b ∈ blocks, b.payload = bp ∧ b.allocated = false ∧ wanted ≤ b.size :=
  Block.suits_iff.1 (List.find?_some found)

theorem candidate_eq_none_iff (keeps : h.Keeps blocks nodes []) :
    h.candidate blocks nodes wanted = none ↔
      ∀ b ∈ blocks, b.allocated = false → b.size < wanted := by
  constructor
  · intro unserved b mem free
    have unsuited := List.find?_eq_none.1 unserved b.payload (mem_route keeps mem free)
    rw [keeps.spelt.suits_payload mem, free] at unsuited
    simpa using unsuited
  · refine fun small => Option.eq_none_iff_forall_ne_some.2 fun bp found => ?_
    obtain ⟨b, mem, _, free, enough⟩ := exists_of_candidate found
    exact Nat.not_lt.2 enough (small b mem free)

theorem Spells.find_free (spelt : h.Spells blocks) :
    (Block.payloads (Block.free blocks)).find? (Block.suits blocks wanted) =
      (Block.payloads blocks).find? (Block.suits blocks wanted) := by
  rw [Block.payloads, Block.payloads, Block.free, List.find?_map, List.find?_map,
    ← List.head?_filter, ← List.head?_filter, List.filter_filter]
  refine congrArg (fun l => Option.map _ (List.head? l)) (List.filter_congr fun b mem => ?_)
  rw [Function.comp_apply, spelt.suits_payload mem, Bool.and_right_comm, Bool.and_self]

theorem Keeps.nodes_eq (keeps : h.Keeps blocks nodes [])
    (ordered : h.strategy = .explicitList .addressOrdered) :
    nodes = Block.payloads (Block.free blocks) := by
  have sorted : (Block.payloads (Block.free blocks)).Pairwise (· < ·) :=
    keeps.spelt.tiled.ascending.sublist (List.filter_sublist.map _)
  refine keeps.perm.eq_of_pairwise (fun a b _ _ below above => ?_)
    (keeps.indexed.ascending ordered) sorted
  exact absurd below (Nat.lt_asymm above)

theorem candidate_ordered {k : Heap} {nodes' : List Nat} (keeps : k.Keeps blocks nodes' [])
    (walks : h.strategy = .firstFit) (ordered : k.strategy = .explicitList .addressOrdered)
    (wanted : Nat) : h.candidate blocks nodes wanted = k.candidate blocks nodes' wanted := by
  rw [candidate, candidate, walks, ordered, Strategy.route, Strategy.route, keeps.nodes_eq ordered]
  exact keeps.spelt.find_free.symm

end Heap

namespace Machine

variable {m : Machine} {blocks : List Block} {nodes : List Nat} {wanted bp : Nat}
  (keeps : m.heap.Keeps blocks nodes []) (aims : m.heap.Aims blocks)
include keeps aims

theorem findFit_none (none : m.heap.candidate blocks nodes wanted = none) :
    findFit wanted m = .ok .none m := by
  have read : m.heap.fit wanted = _ := Heap.fit_eq keeps aims
  rw [none] at read
  rw [findFit, bind_of_ok (observe_of_ok read)]
  rfl

theorem findFit_some (found : m.heap.candidate blocks nodes wanted = some bp) :
    findFit wanted m = .ok (some bp) { m with heap := m.heap.steer fun _ => bp } := by
  have read : m.heap.fit wanted = _ := Heap.fit_eq keeps aims
  rw [found] at read
  rw [findFit, bind_of_ok (observe_of_ok read)]
  rfl

end Machine

end BoundaryTag
