import BoundaryTag.Proofs.Threading
import Mathlib.Data.List.Perm.Subperm

namespace BoundaryTag

def Event.isRemark : Event → Bool
  | split .. | coalesced .. => true
  | _ => false

def Strategy.enlist (s : Strategy) (bp : Nat) (nodes : List Nat) : List Nat :=
  match s with
  | .explicitList .addressOrdered =>
    nodes.takeWhile (· ≤ bp) ++ bp :: nodes.dropWhile (· ≤ bp)
  | _ => bp :: nodes

theorem Strategy.enlist_nil (s : Strategy) (bp : Nat) : s.enlist bp [] = [bp] := by
  cases s with
  | nextFit => rfl
  | firstFit => rfl
  | explicitList order => cases order <;> rfl

theorem Strategy.enlist_perm (s : Strategy) (bp : Nat) (nodes : List Nat) :
    (s.enlist bp nodes).Perm (bp :: nodes) := by
  unfold enlist
  split
  · apply List.perm_middle.trans
    rw [List.takeWhile_append_dropWhile]
  · exact .refl _

theorem Strategy.enlist_ascending {bp : Nat} {nodes : List Nat}
    (ascending : nodes.Pairwise (· < ·)) (fresh : bp ∉ nodes) :
    (enlist (.explicitList .addressOrdered) bp nodes).Pairwise (· < ·) := by
  induction nodes with
  | nil => simp [enlist]
  | cons n rest ih =>
    obtain ⟨first, ascending⟩ := List.pairwise_cons.1 ascending
    obtain ⟨different, fresh⟩ := not_or.1 (mt List.mem_cons.2 fresh)
    by_cases below : n ≤ bp
    · have front : enlist (.explicitList .addressOrdered) bp (n :: rest) =
          n :: enlist (.explicitList .addressOrdered) bp rest := by
        simp [enlist, below]
      rw [front, List.pairwise_cons]
      refine ⟨?_, ih ascending fresh⟩
      intro k mem
      rw [(enlist_perm _ bp rest).mem_iff, List.mem_cons] at mem
      rcases mem with rfl | mem
      · omega
      · exact first k mem
    · have front : enlist (.explicitList .addressOrdered) bp (n :: rest) = bp :: n :: rest := by
        simp [enlist, below]
      rw [front, List.pairwise_cons]
      refine ⟨?_, List.pairwise_cons.2 ⟨first, ascending⟩⟩
      intro k mem
      rcases List.mem_cons.1 mem with rfl | mem
      · omega
      · have := first k mem
        omega

namespace Heap

/-- The nodes that the index of a heap lists.  Only their number is kept if there is no list. -/
structure Indexes (h : Heap) (nodes : List Nat) : Prop where
  counted : h.freeBlocks = nodes.length
  distinct : nodes.Nodup
  threaded : h.strategy.usesList = true → h.Threads nodes
  headless : h.strategy.usesList = false → h.freeHead = none
  ascending : h.strategy = .explicitList .addressOrdered → nodes.Pairwise (· < ·)

def LinkBytes (nodes : List Nat) (i : Nat) : Prop := ∃ n ∈ nodes, n ≤ i ∧ i < n + 8

theorem strategy_eq {h k : Heap} (same : k.config = h.config) : k.strategy = h.strategy := by
  rw [strategy, same, strategy]

theorem usesList_of_kind {h : Heap} {order : ListOrder} (kind : h.strategy = .explicitList order) :
    h.strategy.usesList = true := by
  rw [kind]
  rfl

theorem after_congr {h k : Heap} {x : Option Nat} (head : k.freeHead = h.freeHead)
    (same : ∀ n ∈ x, ∀ i, n ≤ i → i < n + 8 → k.byte i = h.byte i) : k.after x = h.after x := by
  cases x with
  | none => exact head
  | some n =>
    simp only [after]
    rw [Memory.word_congr fun i _ _ => same n rfl i (by omega) (by omega)]

theorem before_congr {h k : Heap} {n : Nat}
    (same : ∀ i, n ≤ i → i < n + 8 → k.byte i = h.byte i) : k.before n = h.before n := by
  simp only [before]
  rw [Memory.word_congr fun i _ _ => same i (by omega) (by omega)]

theorem Threads.transfer {h k : Heap} {nodes : List Nat} (threads : h.Threads nodes)
    (head : k.freeHead = h.freeHead)
    (same : ∀ n ∈ nodes, ∀ i, n ≤ i → i < n + 8 → k.byte i = h.byte i) : k.Threads nodes := by
  rw [Threads, List.isChain_iff_forall_rel_of_append_cons_cons] at threads ⊢
  intro x y front back split
  have adjoins := threads split
  have mem : ∀ z ∈ x :: y :: back, ∀ n ∈ z, n ∈ nodes := by
    intro z mem n some
    have : z ∈ none :: nodes.map Option.some ++ [none] := by
      rw [split]
      exact List.mem_append_right front mem
    cases some
    simpa using this
  constructor
  · rw [after_congr head fun n here => same n (mem x (by simp) n here)]
    exact adjoins.next
  · intro n here
    rw [before_congr (same n (mem y (by simp) n here))]
    exact adjoins.prev n here

theorem Indexes.transfer {h k : Heap} {nodes : List Nat} (indexed : h.Indexes nodes)
    (counter : k.freeBlocks = h.freeBlocks) (head : k.freeHead = h.freeHead)
    (config : k.config = h.config)
    (same : ∀ n ∈ nodes, ∀ i, n ≤ i → i < n + 8 → k.byte i = h.byte i) : k.Indexes nodes := by
  have strategy := strategy_eq config
  refine ⟨counter.trans indexed.counted, indexed.distinct, ?_, ?_, ?_⟩
  · rw [strategy]
    exact fun list => (indexed.threaded list).transfer head same
  · rw [strategy, head]
    exact indexed.headless
  · rw [strategy]
    exact indexed.ascending

theorem Indexes.of_threads {h k : Heap} {nodes : List Nat} (config : k.config = h.config)
    (list : h.strategy.usesList = true) (threads : k.Threads nodes)
    (counted : k.freeBlocks = nodes.length) (distinct : nodes.Nodup)
    (ascending : h.strategy = .explicitList .addressOrdered → nodes.Pairwise (· < ·)) :
    k.Indexes nodes := by
  have strategy := strategy_eq config
  refine ⟨counted, distinct, fun _ => threads, ?_, ?_⟩
  · rw [strategy, list]
    simp
  · rw [strategy]
    exact ascending

theorem Indexes.of_count {h k : Heap} {nodes : List Nat} (config : k.config = h.config)
    (list : h.strategy.usesList = false) (headless : k.freeHead = none)
    (counted : k.freeBlocks = nodes.length) (distinct : nodes.Nodup) : k.Indexes nodes := by
  have strategy := strategy_eq config
  refine ⟨counted, distinct, ?_, fun _ => headless, ?_⟩
  · rw [strategy, list]
    simp
  · rw [strategy]
    intro ordered
    rw [ordered] at list
    exact absurd list (by decide)

theorem byte_setAfter {h : Heap} {x y : Option Nat} {i : Nat}
    (fits : ∀ n ∈ x, n + 8 ≤ h.size) (outside : ∀ n ∈ x, ¬(n ≤ i ∧ i < n + 8)) :
    (h.setAfter x y).byte i = h.byte i := by
  cases x with
  | none => rfl
  | some n =>
    have := fits n rfl
    have := outside n rfl
    exact byte_setWord (by omega) (by omega)

theorem byte_setBefore {h : Heap} {y x : Option Nat} {i : Nat}
    (fits : ∀ n ∈ y, n + 8 ≤ h.size) (outside : ∀ n ∈ y, ¬(n ≤ i ∧ i < n + 8)) :
    (h.setBefore y x).byte i = h.byte i := by
  cases y with
  | none => rfl
  | some n =>
    have := fits n rfl
    have := outside n rfl
    exact byte_setWord (by omega) (by omega)

@[simp] theorem config_setAfter (h : Heap) (x y : Option Nat) :
    (h.setAfter x y).config = h.config := by
  cases x <;> rfl

@[simp] theorem config_setBefore (h : Heap) (y x : Option Nat) :
    (h.setBefore y x).config = h.config := by
  cases y <;> rfl

@[simp] theorem freeBlocks_setAfter (h : Heap) (x y : Option Nat) :
    (h.setAfter x y).freeBlocks = h.freeBlocks := by
  cases x <;> rfl

@[simp] theorem freeBlocks_setBefore (h : Heap) (y x : Option Nat) :
    (h.setBefore y x).freeBlocks = h.freeBlocks := by
  cases y <;> rfl

@[simp] theorem cursor_setAfter (h : Heap) (x y : Option Nat) :
    (h.setAfter x y).cursor = h.cursor := by
  cases x <;> rfl

@[simp] theorem cursor_setBefore (h : Heap) (y x : Option Nat) :
    (h.setBefore y x).cursor = h.cursor := by
  cases y <;> rfl

theorem Roomy.length_le {h : Heap} {nodes : List Nat} (roomy : h.Roomy nodes)
    (distinct : nodes.Nodup) : nodes.length ≤ h.size := by
  have within : nodes ⊆ List.range h.size := by
    intro n mem
    have := roomy.inside n mem
    exact List.mem_range.2 (by omega)
  simpa using (distinct.subperm within).length_le

theorem lastBelow_eq {h : Heap} {bp : Nat} {nodes : List Nat} (roomy : h.Roomy nodes)
    {l₁ l₂ : List Nat} (threads : h.Threads (l₁ ++ l₂)) (listed : ∀ n ∈ l₂, n ∈ nodes)
    {fuel : Nat} (enough : l₂.length ≤ fuel) :
    h.lastBelow bp l₁.getLast? fuel l₂.head? =
      .ok (l₁ ++ l₂.takeWhile (· ≤ bp)).getLast? := by
  -- on what is left of the list: `l₁` has been passed
  induction l₂ generalizing l₁ fuel with
  | nil => cases fuel <;> simp [lastBelow, pure, Except.pure]
  | cons n rest ih =>
    cases fuel with
    | zero => simp at enough
    | succ fuel =>
      have shifted : h.Threads (l₁ ++ [n] ++ rest) := by simpa using threads
      have here := roomy.inside n (listed n (by simp))
      have next : h.after (some n) = rest.head? := by simpa using shifted.after_eq
      simp only [after] at next
      by_cases below : bp < n
      · have : ¬n ≤ bp := by omega
        simp [lastBelow, below, this, pure, Except.pure]
      · have within : n ≤ bp := by omega
        have rest := ih shifted (fun k mem => listed k (by simp [mem])) (by simpa using enough)
        rw [List.getLast?_concat] at rest
        simp [lastBelow, below, within, links_eq roomy.bounded here.2, next, rest,
          bind, Except.bind]

end Heap

namespace Machine

/-- What rearranging blocks leaves alone: everything but the index, the cursor and the bytes in
`touched`.  The log may gain remarks. -/
structure Edits (touched : Nat → Prop) (m n : Machine) : Prop where
  segment : n.segment = m.segment
  backing : n.heap.region.backing = m.heap.region.backing
  config : n.heap.config = m.heap.config
  initialized : n.heap.initialized = m.heap.initialized
  size : n.heap.size = m.heap.size
  byte : ∀ i, ¬touched i → n.heap.byte i = m.heap.byte i
  log : ∃ remarks, n.log = m.log ++ remarks ∧ ∀ event ∈ remarks, event.isRemark = true

def counting (m : Machine) (count : Nat) : Machine :=
  { m with heap := { m.heap with freeBlocks := count } }

theorem Edits.refl (touched : Nat → Prop) (m : Machine) : Edits touched m m :=
  ⟨rfl, rfl, rfl, rfl, rfl, fun _ _ => rfl, #[], by simp⟩

theorem Edits.trans {touched : Nat → Prop} {m n k : Machine} (first : Edits touched m n)
    (second : Edits touched n k) : Edits touched m k := by
  obtain ⟨before, written, quiet⟩ := first.log
  obtain ⟨after, written', quiet'⟩ := second.log
  refine ⟨second.segment.trans first.segment, second.backing.trans first.backing,
    second.config.trans first.config, second.initialized.trans first.initialized,
    second.size.trans first.size, fun i kept => (second.byte i kept).trans (first.byte i kept),
    before ++ after, ?_, ?_⟩
  · rw [written', written, Array.append_assoc]
  · intro event mem
    rcases Array.mem_append.1 mem with mem | mem
    · exact quiet event mem
    · exact quiet' event mem

theorem Edits.mono {touched wider : Nat → Prop} {m n : Machine} (edits : Edits touched m n)
    (sub : ∀ i, touched i → wider i) : Edits wider m n :=
  { edits with byte := fun i kept => edits.byte i fun within => kept (sub i within) }

theorem edits_note {touched : Nat → Prop} {m : Machine} {event : Event}
    (quiet : event.isRemark = true) : Edits touched m { m with log := m.log.push event } :=
  ⟨rfl, rfl, rfl, rfl, rfl, fun _ _ => rfl, #[event], Array.push_eq_append,
    by simpa using quiet⟩

theorem liftM_ok (a : α) (m : Machine) :
    (liftM (Except.ok a : Except Fault α) : Action α) m = .ok a m := rfl

theorem bind_of_eq {x y : Action α} {m n : Machine} (same : x m = y n) (next : α → Action β) :
    (x >>= next) m = (y >>= next) n := by
  simp only [bind, EStateM.bind, same]

theorem exists_of_bind {x : Action α} {next : α → Action β} {m n : Machine} {b : β}
    (ran : (x >>= next) m = .ok b n) : ∃ a k, x m = .ok a k ∧ next a k = .ok b n := by
  cases begun : x m with
  | error fault k =>
    rw [bind_of_error begun] at ran
    cases ran
  | ok a k =>
    rw [bind_of_ok begun] at ran
    exact ⟨a, k, rfl, ran⟩

theorem observe_of_ok {read : Heap → Except Fault α} {m : Machine} {a : α}
    (here : read m.heap = .ok a) : observe read m = .ok a m := by
  rw [observe_eq, here, lift_ok]

theorem observe_of_error {read : Heap → Except Fault α} {m : Machine} {fault : Fault}
    (here : read m.heap = .error fault) : observe read m = .error fault m := by
  rw [observe_eq, here, lift_error]

theorem locate_of_le {h : Heap} {offset : Nat} (small : h.size ≤ Heap.maxRegion)
    (fits : offset + 4 ≤ h.size) : h.locate offset = .ok () := by
  refine Heap.locate_eq_ok_iff.2 ⟨?_, fits⟩
  simp only [Heap.maxRegion] at small
  simp only [Offset.limit]
  omega

theorem put_ok {m : Machine} {offset : Nat} (small : m.heap.size ≤ Heap.maxRegion)
    (fits : offset + 4 ≤ m.heap.size) (s : Store) : put offset s m =
      .ok () { m with heap := { m.heap with region := s.apply m.heap.region } } :=
  put_of_locate (locate_of_le small fits) s

theorem putTag_ok {m : Machine} (offset : Nat) (small : m.heap.size ≤ Heap.maxRegion)
    (fits : offset + 4 ≤ m.heap.size) (tag : Tag) :
    putTag offset tag m = .ok () { m with heap := m.heap.setWord offset tag.pack } :=
  put_ok small fits (.tag offset tag)

theorem putLink_ok {m : Machine} (offset : Nat) (small : m.heap.size ≤ Heap.maxRegion)
    (fits : offset + 4 ≤ m.heap.size) (target : Option Nat) : putLink offset target m =
      .ok () { m with heap := m.heap.setWord offset (Links.encode target) } :=
  put_ok small fits (.link offset target)

theorem setBlock_ok {m : Machine} (bp : Nat) (tag : Tag) (small : m.heap.size ≤ Heap.maxRegion)
    (low : 4 ≤ bp) (large : 8 ≤ tag.size) (fits : bp + tag.size ≤ m.heap.size + 4) :
    setBlock bp tag m = .ok () { m with heap := m.heap.setTags bp tag } := by
  have bound : bp + tag.size < Offset.limit := by
    simp only [Heap.maxRegion] at small
    simp only [Offset.limit]
    omega
  have header : Heap.headerOf bp = .ok (bp - 4) := Offset.sub_eq_ok_iff.2 ⟨low, rfl⟩
  have footer : Heap.footerOf bp tag.size = .ok (bp + tag.size - 8) :=
    Heap.footerOf_eq_ok_iff.2 ⟨bound, by simp only [tagBytes]; omega, rfl⟩
  rw [setBlock, header, bind_of_ok (liftM_ok _ _), bind_of_ok (putTag_ok _ small (by omega) _),
    footer, bind_of_ok (liftM_ok _ _),
    putTag_ok _ (by simpa using small) (by simp only [Heap.size_setWord]; omega)]
  rfl

theorem edits_setTags {m : Machine} {bp : Nat} {tag : Tag} (low : 4 ≤ bp) (large : 8 ≤ tag.size)
    (fits : bp + tag.size ≤ m.heap.size + 4) :
    Edits (⟨bp, tag.size, tag.allocated⟩ : Block).Marks m
      { m with heap := m.heap.setTags bp tag } :=
  ⟨rfl, rfl, rfl, rfl, Heap.size_setTags _ _ _, fun _ => Heap.byte_setTags low large fits,
    #[], by simp⟩

theorem edits_setAfter {nodes : List Nat} {m : Machine} {x y : Option Nat}
    (fits : ∀ n ∈ x, n + 8 ≤ m.heap.size) (listed : ∀ n ∈ x, n ∈ nodes) :
    Edits (Heap.LinkBytes nodes) m { m with heap := m.heap.setAfter x y } := by
  refine ⟨rfl, ?_, by simp, ?_, by simp, ?_, #[], by simp⟩
  · cases x <;> rfl
  · cases x <;> rfl
  · intro i kept
    exact Heap.byte_setAfter fits fun n mem within => kept ⟨n, listed n mem, within⟩

theorem edits_setBefore {nodes : List Nat} {m : Machine} {y x : Option Nat}
    (fits : ∀ n ∈ y, n + 8 ≤ m.heap.size) (listed : ∀ n ∈ y, n ∈ nodes) :
    Edits (Heap.LinkBytes nodes) m { m with heap := m.heap.setBefore y x } := by
  refine ⟨rfl, ?_, by simp, ?_, by simp, ?_, #[], by simp⟩
  · cases y <;> rfl
  · cases y <;> rfl
  · intro i kept
    exact Heap.byte_setBefore fits fun n mem within => kept ⟨n, listed n mem, within⟩

theorem setNextLink_ok {m : Machine} {bp : Nat} (small : m.heap.size ≤ Heap.maxRegion)
    (fits : bp + 8 ≤ m.heap.size) (next : Option Nat) :
    setNextLink bp next m = .ok () { m with heap := m.heap.setAfter (some bp) next } := by
  have start : Offset.add bp Links.nextOffset = .ok bp := by
    simp only [Heap.maxRegion] at small
    refine Offset.add_eq_ok_iff.2 ⟨?_, rfl⟩
    simp only [Links.nextOffset, Offset.limit]
    omega
  rw [setNextLink, start, bind_of_ok (liftM_ok _ _), putLink_ok _ small (by omega)]
  rfl

theorem setPrevLink_ok {m : Machine} {bp : Nat} (small : m.heap.size ≤ Heap.maxRegion)
    (fits : bp + 8 ≤ m.heap.size) (prev : Option Nat) :
    setPrevLink bp prev m = .ok () { m with heap := m.heap.setBefore (some bp) prev } := by
  have start : Offset.add bp Links.prevOffset = .ok (bp + 4) := by
    simp only [Heap.maxRegion] at small
    refine Offset.add_eq_ok_iff.2 ⟨?_, rfl⟩
    simp only [Links.prevOffset, wordSize, Offset.limit]
    omega
  rw [setPrevLink, start, bind_of_ok (liftM_ok _ _), putLink_ok _ small (by omega)]
  rfl

theorem setAfter_ok {m : Machine} {x y : Option Nat} (small : m.heap.size ≤ Heap.maxRegion)
    (fits : ∀ n ∈ x, n + 8 ≤ m.heap.size) :
    setAfter x y m = .ok () { m with heap := m.heap.setAfter x y } := by
  cases x with
  | none => rfl
  | some n => exact setNextLink_ok small (fits n rfl) y

theorem setBefore_ok {m : Machine} {y x : Option Nat} (small : m.heap.size ≤ Heap.maxRegion)
    (fits : ∀ n ∈ y, n + 8 ≤ m.heap.size) :
    setBefore y x m = .ok () { m with heap := m.heap.setBefore y x } := by
  cases y with
  | none => rfl
  | some n => exact setPrevLink_ok small (fits n rfl) x

theorem nodeAfter_eq {h : Heap} {x : Option Nat} (small : h.size ≤ Heap.maxRegion)
    (fits : ∀ n ∈ x, n + 8 ≤ h.size) : h.nodeAfter x = .ok (h.after x) := by
  cases x with
  | none => rfl
  | some n =>
    rw [Heap.nodeAfter, Heap.links_eq small (fits n rfl)]
    rfl

theorem linkAfter_ok {m : Machine} {x : Option Nat} {bp : Nat}
    (small : m.heap.size ≤ Heap.maxRegion) (own : bp + 8 ≤ m.heap.size)
    (first : ∀ n ∈ x, n + 8 ≤ m.heap.size) (second : ∀ n ∈ m.heap.after x, n + 8 ≤ m.heap.size) :
    linkAfter x bp m = .ok () { m with heap := m.heap.link x bp } := by
  rw [linkAfter, bind_of_ok (observe_of_ok (nodeAfter_eq small first)),
    bind_of_ok (setPrevLink_ok small own x),
    bind_of_ok (setNextLink_ok (by simpa using small) (by simpa using own) _),
    bind_of_ok (setAfter_ok (by simpa using small) (by simpa using first)),
    setBefore_ok (by simpa using small) (by simpa using second)]
  rfl

theorem unlink_ok {m : Machine} {bp : Nat} (small : m.heap.size ≤ Heap.maxRegion)
    (own : bp + 8 ≤ m.heap.size) (first : ∀ n ∈ m.heap.before bp, n + 8 ≤ m.heap.size)
    (second : ∀ n ∈ m.heap.after (some bp), n + 8 ≤ m.heap.size) :
    unlink bp m = .ok () { m with heap := m.heap.unlink bp } := by
  have read : m.heap.links bp = .ok ⟨m.heap.after (some bp), m.heap.before bp⟩ :=
    Heap.links_eq small own
  rw [unlink, bind_of_ok (observe_of_ok read), bind_of_ok (setAfter_ok small first),
    setBefore_ok (by simpa using small) (by simpa using second)]
  rfl

section lists

variable {m : Machine} {l₁ l₂ : List Nat} {bp : Nat}

theorem run_linkAfter (roomy : m.heap.Roomy (bp :: (l₁ ++ l₂)))
    (threads : m.heap.Threads (l₁ ++ l₂)) (distinct : (bp :: (l₁ ++ l₂)).Nodup) :
    ∃ n, linkAfter l₁.getLast? bp m = .ok () n ∧ n.heap.Threads (l₁ ++ bp :: l₂) ∧
      n.heap.freeBlocks = m.heap.freeBlocks ∧ n.heap.cursor = m.heap.cursor ∧
      Edits (Heap.LinkBytes (bp :: (l₁ ++ l₂))) m n := by
  have inside : ∀ n ∈ bp :: (l₁ ++ l₂), n + 8 ≤ m.heap.size := fun n mem =>
    (roomy.inside n mem).2
  have own : ∀ n ∈ some bp, n ∈ bp :: (l₁ ++ l₂) := by simp
  have first (n : Nat) (mem : n ∈ l₁.getLast?) : n ∈ bp :: (l₁ ++ l₂) :=
    List.mem_cons_of_mem bp (threads.mem_seam.1 n mem)
  have second (n : Nat) (mem : n ∈ m.heap.after l₁.getLast?) : n ∈ bp :: (l₁ ++ l₂) :=
    List.mem_cons_of_mem bp (threads.mem_seam.2 n mem)
  refine ⟨_, linkAfter_ok roomy.bounded (inside bp (by simp)) (fun n mem => inside n (first n mem))
    (fun n mem => inside n (second n mem)), threads.link roomy distinct, ?_, ?_, ?_⟩
  · simp [Heap.link]
  · simp [Heap.link]
  · refine (edits_setBefore (x := l₁.getLast?) (fun n mem => inside n (own n mem)) own).trans ?_
    refine (edits_setAfter (y := m.heap.after l₁.getLast?) (by simpa using inside bp (by simp))
      own).trans ?_
    refine (edits_setAfter (y := some bp) (fun n mem => by simpa using inside n (first n mem))
      first).trans ?_
    exact edits_setBefore (fun n mem => by simpa using inside n (second n mem)) second

theorem run_unlink (roomy : m.heap.Roomy (l₁ ++ bp :: l₂))
    (threads : m.heap.Threads (l₁ ++ bp :: l₂)) (distinct : (l₁ ++ bp :: l₂).Nodup) :
    ∃ n, unlink bp m = .ok () n ∧ n.heap.Threads (l₁ ++ l₂) ∧
      n.heap.freeBlocks = m.heap.freeBlocks ∧ n.heap.cursor = m.heap.cursor ∧
      Edits (Heap.LinkBytes (l₁ ++ bp :: l₂)) m n := by
  have inside : ∀ n ∈ l₁ ++ bp :: l₂, n + 8 ≤ m.heap.size := fun n mem =>
    (roomy.inside n mem).2
  have within : l₁ ++ l₂ ⊆ l₁ ++ bp :: l₂ := by simp
  have first (n : Nat) (mem : n ∈ m.heap.before bp) : n ∈ l₁ ++ bp :: l₂ :=
    within (threads.mem_around.1 n mem)
  have second (n : Nat) (mem : n ∈ m.heap.after (some bp)) : n ∈ l₁ ++ bp :: l₂ :=
    within (threads.mem_around.2 n mem)
  refine ⟨_, unlink_ok roomy.bounded (inside bp (by simp)) (fun n mem => inside n (first n mem))
    (fun n mem => inside n (second n mem)), threads.unlink roomy distinct, ?_, ?_, ?_⟩
  · simp [Heap.unlink]
  · simp [Heap.unlink]
  · refine (edits_setAfter (y := m.heap.after (some bp)) (fun n mem => inside n (first n mem))
      first).trans ?_
    exact edits_setBefore (fun n mem => by simpa using inside n (second n mem)) second

end lists

theorem edits_count (touched : Nat → Prop) (m : Machine) (count : Nat) :
    Edits touched m (m.counting count) :=
  ⟨rfl, rfl, rfl, rfl, rfl, fun _ _ => rfl, #[], by simp [counting]⟩

theorem requires_isFree {tag : Tag} (free : tag.allocated = false) :
    requires tag.isFree .assertion = .ok () := by
  simp [Tag.isFree, free]

theorem indexInsert_eq {m : Machine} {bp : Nat} (small : m.heap.size ≤ Heap.maxRegion)
    (low : 4 ≤ bp) (fits : bp ≤ m.heap.size)
    (free : (m.heap.region.memory.tag (bp - 4)).allocated = false) :
    indexInsert bp m = (match m.heap.strategy with
      | .explicitList .lifo => linkAfter none bp
      | .explicitList .addressOrdered => do
        let prev ← observe fun h => h.lastBelow bp none h.listBound h.freeHead
        linkAfter prev bp
      | .nextFit | .firstFit => return ())
      (m.counting (m.heap.freeBlocks + 1)) := by
  have read := Heap.tag_eq small low fits
  have passed := requires_isFree free
  rw [indexInsert, bind_of_ok (observe_of_ok read), passed, bind_of_ok (liftM_ok _ _),
    bind_of_ok (edit_eq _ _)]
  rfl

theorem run_linkCounted {m : Machine} {l₁ l₂ : List Nat} {bp : Nat}
    (indexed : m.heap.Indexes (l₁ ++ l₂)) (roomy : m.heap.Roomy (bp :: (l₁ ++ l₂)))
    (fresh : bp ∉ l₁ ++ l₂) (list : m.heap.strategy.usesList = true) :
    ∃ n, linkAfter l₁.getLast? bp (m.counting (m.heap.freeBlocks + 1)) = .ok () n ∧
      n.heap.Threads (l₁ ++ bp :: l₂) ∧ n.heap.freeBlocks = m.heap.freeBlocks + 1 ∧
      n.heap.cursor = m.heap.cursor ∧ Edits (Heap.LinkBytes (bp :: (l₁ ++ l₂))) m n := by
  have distinct : (bp :: (l₁ ++ l₂)).Nodup := List.nodup_cons.2 ⟨fresh, indexed.distinct⟩
  obtain ⟨n, ran, threads, count, cursor, edits⟩ := run_linkAfter
    (m := m.counting (m.heap.freeBlocks + 1))
    (roomy.of_size rfl) ((indexed.threaded list).transfer rfl fun _ _ _ _ _ => rfl) distinct
  exact ⟨n, ran, threads, count, cursor, (edits_count _ m _).trans edits⟩

theorem lastBelow_counting {m : Machine} {nodes : List Nat} {bp count : Nat}
    (indexed : m.heap.Indexes nodes) (roomy : m.heap.Roomy (bp :: nodes))
    (list : m.heap.strategy.usesList = true) :
    (m.counting count).heap.lastBelow bp none m.heap.listBound m.heap.freeHead =
      .ok (nodes.takeWhile (· ≤ bp)).getLast? := by
  have threads : (m.counting count).heap.Threads ([] ++ nodes) :=
    (indexed.threaded list).transfer rfl fun _ _ _ _ _ => rfl
  have head : m.heap.freeHead = nodes.head? := threads.after_eq
  have bound := (roomy.subset fun k => List.mem_cons_of_mem bp).length_le indexed.distinct
  rw [head]
  exact Heap.lastBelow_eq (h := (m.counting count).heap) (roomy.of_size rfl) threads
    (fun k => List.mem_cons_of_mem bp) (Nat.le_succ_of_le bound)

theorem run_indexInsert {m : Machine} {nodes : List Nat} {bp : Nat}
    (indexed : m.heap.Indexes nodes) (roomy : m.heap.Roomy (bp :: nodes)) (fresh : bp ∉ nodes)
    (free : (m.heap.region.memory.tag (bp - 4)).allocated = false) :
    ∃ n, indexInsert bp m = .ok () n ∧
      n.heap.Indexes (m.heap.strategy.enlist bp nodes) ∧ n.heap.cursor = m.heap.cursor ∧
      Edits (Heap.LinkBytes (bp :: nodes)) m n := by
  have inside := roomy.inside bp (by simp)
  have perm := m.heap.strategy.enlist_perm bp nodes
  have distinct : (m.heap.strategy.enlist bp nodes).Nodup :=
    perm.nodup_iff.2 (List.nodup_cons.2 ⟨fresh, indexed.distinct⟩)
  have counted : m.heap.freeBlocks + 1 = (m.heap.strategy.enlist bp nodes).length := by
    rw [perm.length_eq, indexed.counted, List.length_cons]
  rw [indexInsert_eq roomy.bounded inside.1 (by omega) free]
  have bare (list : m.heap.strategy.usesList = false) :
      (m.counting (m.heap.freeBlocks + 1)).heap.Indexes (m.heap.strategy.enlist bp nodes) :=
    .of_count rfl list (indexed.headless list) counted distinct
  cases kind : m.heap.strategy with
  | nextFit =>
    rw [kind] at bare
    exact ⟨_, rfl, bare rfl, rfl, edits_count _ m _⟩
  | firstFit =>
    rw [kind] at bare
    exact ⟨_, rfl, bare rfl, rfl, edits_count _ m _⟩
  | explicitList order =>
    have list := Heap.usesList_of_kind kind
    rw [kind] at counted distinct
    cases order with
    | lifo =>
      obtain ⟨n, ran, threads, count, cursor, edits⟩ :=
        @run_linkCounted m [] nodes bp indexed roomy fresh list
      refine ⟨n, ran, ?_, cursor, edits⟩
      refine .of_threads edits.config list threads (count.trans counted) distinct ?_
      rw [kind]
      simp
    | addressOrdered =>
      have whole : nodes.takeWhile (· ≤ bp) ++ nodes.dropWhile (· ≤ bp) = nodes :=
        List.takeWhile_append_dropWhile
      have linked := @run_linkCounted m (nodes.takeWhile (· ≤ bp)) (nodes.dropWhile (· ≤ bp)) bp
      rw [whole] at linked
      obtain ⟨n, ran, threads, count, cursor, edits⟩ := linked indexed roomy fresh list
      refine ⟨n, ?_, ?_, cursor, edits⟩
      · rw [← ran]
        exact bind_of_ok (observe_of_ok (lastBelow_counting indexed roomy list))
      · exact .of_threads edits.config list threads (count.trans counted) distinct fun _ =>
          Strategy.enlist_ascending (indexed.ascending kind) fresh

theorem indexRemove_eq {m : Machine} {bp : Nat} (small : m.heap.size ≤ Heap.maxRegion)
    (low : 4 ≤ bp) (fits : bp ≤ m.heap.size)
    (free : (m.heap.region.memory.tag (bp - 4)).allocated = false)
    (some : 0 < m.heap.freeBlocks) :
    indexRemove bp m = (if m.heap.strategy.usesList then unlink bp else return ())
      (m.counting (m.heap.freeBlocks - 1)) := by
  have read := Heap.tag_eq small low fits
  have passed := requires_isFree free
  have counted : requires (0 < m.heap.freeBlocks) .assertion = .ok () := by
    simp [some]
  rw [indexRemove, bind_of_ok (observe_of_ok read), passed, bind_of_ok (liftM_ok _ _)]
  change ((liftM (requires (0 < m.heap.freeBlocks) .assertion) : Action Unit) >>= _) m = _
  rw [counted, bind_of_ok (liftM_ok _ _), bind_of_ok (edit_eq _ _)]
  rfl

theorem run_unlinkCounted {m : Machine} {nodes : List Nat} {bp : Nat}
    (threads : m.heap.Threads nodes) (distinct : nodes.Nodup) (roomy : m.heap.Roomy nodes)
    (listed : bp ∈ nodes) (count : Nat) :
    ∃ n, unlink bp (m.counting count) = .ok () n ∧ n.heap.Threads (nodes.erase bp) ∧
      n.heap.freeBlocks = count ∧ n.heap.cursor = m.heap.cursor ∧
      Edits (Heap.LinkBytes nodes) m n := by
  obtain ⟨l₁, l₂, rfl⟩ := List.append_of_mem listed
  have fresh : bp ∉ l₁ := fun mem =>
    (List.nodup_append.1 distinct).2.2 bp mem bp (by simp) rfl
  have without : (l₁ ++ bp :: l₂).erase bp = l₁ ++ l₂ := by
    rw [List.erase_append_right _ fresh, List.erase_cons_head]
  obtain ⟨n, ran, threads, counted, cursor, edits⟩ := run_unlink (m := m.counting count)
    (roomy.of_size rfl) (threads.transfer rfl fun _ _ _ _ _ => rfl) distinct
  exact ⟨n, ran, without ▸ threads, counted, cursor, (edits_count _ m _).trans edits⟩

theorem run_indexRemove {m : Machine} {nodes : List Nat} {bp : Nat}
    (indexed : m.heap.Indexes nodes) (roomy : m.heap.Roomy nodes) (listed : bp ∈ nodes)
    (free : (m.heap.region.memory.tag (bp - 4)).allocated = false) :
    ∃ n, indexRemove bp m = .ok () n ∧ n.heap.Indexes (nodes.erase bp) ∧
      n.heap.cursor = m.heap.cursor ∧ Edits (Heap.LinkBytes nodes) m n := by
  have inside := roomy.inside bp listed
  have counted : m.heap.freeBlocks - 1 = (nodes.erase bp).length := by
    rw [List.length_erase_of_mem listed, indexed.counted]
  have some : 0 < m.heap.freeBlocks := by
    rw [indexed.counted]
    exact List.length_pos_of_mem listed
  have distinct : (nodes.erase bp).Nodup := indexed.distinct.erase bp
  rw [indexRemove_eq roomy.bounded inside.1 (by omega) free some]
  cases list : m.heap.strategy.usesList with
  | false =>
    refine ⟨_, rfl, ?_, rfl, edits_count _ m _⟩
    exact .of_count rfl list (indexed.headless list) counted distinct
  | true =>
    obtain ⟨n, ran, threads, count, cursor, edits⟩ := run_unlinkCounted
      (indexed.threaded list) indexed.distinct roomy listed (m.heap.freeBlocks - 1)
    refine ⟨n, ran, ?_, cursor, edits⟩
    exact .of_threads edits.config list threads (count.trans counted) distinct fun ordered =>
      (indexed.ascending ordered).sublist List.erase_sublist

end Machine

end BoundaryTag
