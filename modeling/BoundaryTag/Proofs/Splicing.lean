import BoundaryTag.Proofs.Reading
import BoundaryTag.Proofs.Sessions
import Mathlib.Data.List.Sort

/-! Splicing.  The free list alone, without the row of blocks around it: links that are threaded
through some free blocks, wherever these lie.  As long as the blocks share no byte, the list is a
sequence that nodes are taken out of and put into, and nothing but links is ever written. -/

namespace BoundaryTag

def ListOrder.insert (order : ListOrder) (bp : Nat) (l : List Nat) : List Nat :=
  match order with
  | .lifo => bp :: l
  | .addressOrdered => l.orderedInsert (· ≤ ·) bp

theorem Strategy.enlist_eq_insert {bp : Nat} {l : List Nat} (fresh : bp ∉ l) (order : ListOrder) :
    enlist (.explicitList order) bp l = order.insert bp l := by
  cases order with
  | lifo => rfl
  | addressOrdered =>
    simp only [enlist, ListOrder.insert]
    induction l with
    | nil => rfl
    | cons n rest ih =>
      obtain ⟨different, fresh⟩ := not_or.1 (mt List.mem_cons.2 fresh)
      by_cases below : n ≤ bp
      · have above : ¬bp ≤ n := by omega
        simp [below, above, ih fresh]
      · have above : bp ≤ n := by omega
        simp [below, above]

namespace Heap

def extent (h : Heap) (bp : Nat) : Nat := (h.header bp).size

structure Vacant (h : Heap) (bp : Nat) : Prop where
  low : wordSize ≤ bp
  free : (h.header bp).allocated = false
  large : minBlock ≤ h.extent bp
  inside : bp - wordSize + h.extent bp ≤ h.size

structure Vacancies (h : Heap) (l : List Nat) : Prop where
  distinct : l.Nodup
  vacant : ∀ n ∈ l, h.Vacant n
  apart : ∀ n ∈ l, ∀ k ∈ l, n ≠ k → n + h.extent n ≤ k ∨ k + h.extent k ≤ n

/-- The links spell `l`: next links lead through it from the head, prev links lead back, and as many
nodes are counted. -/
structure Represents (h : Heap) (l : List Nat) : Prop extends h.Vacancies l where
  threads : h.Threads l
  counted : h.freeBlocks = l.length

variable {h k : Heap} {l l' : List Nat} {bp : Nat} {blocks : List Block}

theorem Vacancies.of_subset (vacancies : h.Vacancies l) (distinct : l'.Nodup)
    (sub : ∀ n ∈ l', n ∈ l) : h.Vacancies l' :=
  ⟨distinct, fun n mem => vacancies.vacant n (sub n mem),
    fun n mem k mem' => vacancies.apart n (sub n mem) k (sub k mem')⟩

theorem Vacancies.roomy (vacancies : h.Vacancies l) (bounded : h.size ≤ maxRegion) : h.Roomy l := by
  refine ⟨bounded, fun n mem => ?_, fun n mem k mem' => ?_⟩
  · obtain ⟨low, _, large, inside⟩ := vacancies.vacant n mem
    simp only [wordSize, minBlock] at low large inside
    omega
  · have large := (vacancies.vacant n mem).large
    have large' := (vacancies.vacant k mem').large
    simp only [minBlock] at large large'
    by_cases same : n = k
    · exact .inl same
    · have := vacancies.apart n mem k mem' same
      omega

theorem Vacancies.not_linkBytes (vacancies : h.Vacancies l) {n i : Nat} (mem : n ∈ l)
    (above : n - wordSize ≤ i) (below : i < n - wordSize + 4) : ¬LinkBytes l i := by
  rintro ⟨k, mem', lo, hi⟩
  have low := (vacancies.vacant n mem).low
  have large := (vacancies.vacant k mem').large
  simp only [wordSize, minBlock] at *
  have different : k ≠ n := by omega
  have := vacancies.apart k mem' n mem different
  omega

theorem Vacancies.relink (vacancies : h.Vacancies l) (size : k.size = h.size)
    (same : ∀ i, ¬LinkBytes l i → k.byte i = h.byte i) : k.Vacancies l := by
  have tags : ∀ n ∈ l, k.header n = h.header n := fun n mem =>
    Memory.tag_congr fun i above below => same i (vacancies.not_linkBytes mem above below)
  have extents : ∀ n ∈ l, k.extent n = h.extent n := fun n mem => congrArg Tag.size (tags n mem)
  refine ⟨vacancies.distinct, fun n mem => ?_, fun n mem n' mem' different => ?_⟩
  · obtain ⟨low, free, large, inside⟩ := vacancies.vacant n mem
    exact ⟨low, by rw [tags n mem, free], by rw [extents n mem]; exact large,
      by rw [extents n mem, size]; exact inside⟩
  · rw [extents n mem, extents n' mem']
    exact vacancies.apart n mem n' mem' different

theorem Represents.indexes (represents : h.Represents l) {order : ListOrder}
    (kind : h.strategy = .explicitList order)
    (ascending : order = .addressOrdered → l.Pairwise (· < ·)) : h.Indexes l := by
  refine ⟨represents.counted, represents.distinct, fun _ => represents.threads, ?_, ?_⟩
  · simp [usesList_of_kind kind]
  · intro ordered
    rw [kind] at ordered
    cases ordered
    exact ascending rfl

theorem Settled.represents (settled : h.Settled blocks l) (list : h.strategy.usesList = true) :
    h.Represents l := by
  have spelt := settled.keeps.spelt
  have indexed := settled.keeps.indexed
  have spans : ∀ n ∈ l, ∃ b ∈ blocks, b.allocated = false ∧ b.payload = n ∧
      h.extent n = b.size ∧ (h.header n).allocated = b.allocated := by
    intro n mem
    obtain ⟨b, here, free, rfl⟩ := settled.keeps.freeNodes n mem
    obtain ⟨size, flag⟩ := (spelt.bracketed b here).header
    exact ⟨b, here, free, rfl, size, flag⟩
  refine ⟨⟨indexed.distinct, fun n mem => ?_, fun n mem k mem' different => ?_⟩,
    indexed.threaded list, indexed.counted⟩
  · obtain ⟨b, here, free, rfl, size, flag⟩ := spans n mem
    have bounds := spelt.bounds here
    refine ⟨?_, flag.trans free, ?_, ?_⟩ <;> simp only [wordSize, minBlock] <;> omega
  · obtain ⟨b, here, _, rfl, size, _⟩ := spans n mem
    obtain ⟨c, there, _, rfl, size', _⟩ := spans k mem'
    rw [size, size']
    exact spelt.tiled.apart here there fun same => different (congrArg _ same)

end Heap

namespace Machine

variable {m n : Machine} {l l' : List Nat} {bp : Nat}

structure Splices (m : Machine) (bp : Nat) (old new : List Nat) (n : Machine) : Prop where
  represents : n.heap.Represents new
  edits : Edits (Heap.LinkBytes (bp :: old)) m n
  cursor : n.heap.cursor = m.heap.cursor

theorem splices_indexRemove (represents : m.heap.Represents l)
    (bounded : m.heap.size ≤ Heap.maxRegion) (list : m.heap.strategy.usesList = true)
    (listed : bp ∈ l) :
    ∃ n, indexRemove bp m = .ok () n ∧ m.Splices bp l (l.erase bp) n ∧
      n.heap.freeBlocks + 1 = m.heap.freeBlocks := by
  have vacant := represents.vacant bp listed
  have roomy := represents.roomy bounded
  have inside := roomy.inside bp listed
  have length := List.length_erase_add_one listed
  have some : 0 < m.heap.freeBlocks := by
    rw [represents.counted]
    exact List.length_pos_of_mem listed
  obtain ⟨n, ran, threads, counted, cursor, edits⟩ := run_unlinkCounted represents.threads
    represents.distinct roomy listed (m.heap.freeBlocks - 1)
  have vacancies := (represents.relink edits.size edits.byte).of_subset
    (represents.distinct.erase bp) fun k mem => List.mem_of_mem_erase mem
  refine ⟨n, ?_, ⟨⟨vacancies, threads, ?_⟩, ?_, cursor⟩, by omega⟩
  · rw [indexRemove_eq bounded vacant.low (by omega) vacant.free some, list]
    exact ran
  · have := represents.counted
    omega
  · exact edits.mono fun i ⟨k, mem, within⟩ => ⟨k, List.mem_cons_of_mem bp mem, within⟩

theorem splices_indexInsert (represents : m.heap.Represents l)
    (bounded : m.heap.size ≤ Heap.maxRegion) {order : ListOrder}
    (kind : m.heap.strategy = .explicitList order) (vacancies : m.heap.Vacancies (bp :: l))
    (ascending : order = .addressOrdered → l.Pairwise (· < ·)) :
    ∃ n, indexInsert bp m = .ok () n ∧ m.Splices bp l (order.insert bp l) n ∧
      n.heap.freeBlocks = m.heap.freeBlocks + 1 := by
  have fresh : bp ∉ l := (List.nodup_cons.1 vacancies.distinct).1
  have free := (vacancies.vacant bp List.mem_cons_self).free
  obtain ⟨n, ran, indexed, cursor, edits⟩ := run_indexInsert
    (represents.indexes kind ascending) (vacancies.roomy bounded) fresh free
  have list := Heap.usesList_of_kind ((Heap.strategy_eq edits.config).trans kind)
  have perm := Strategy.enlist_perm (.explicitList order) bp l
  rw [kind] at indexed
  have vacancies' := (vacancies.relink edits.size edits.byte).of_subset indexed.distinct
    fun k => perm.mem_iff.1
  have counted := indexed.counted
  rw [perm.length_eq, List.length_cons, ← represents.counted] at counted
  rw [Strategy.enlist_eq_insert fresh] at indexed vacancies'
  exact ⟨n, ran, ⟨⟨vacancies', indexed.threaded list, indexed.counted⟩, edits, cursor⟩, counted⟩

/-- Over a region whose offsets are words, the links in memory are a sequence: it can be read, a
node that is taken off is missing from it, and a node that is put on stands where its order says. -/
theorem splices_of_represents {order : ListOrder} (kind : m.heap.strategy = .explicitList order)
    (bounded : m.heap.size ≤ Heap.maxRegion) (represents : m.heap.Represents l) :
    m.heap.freeList = .ok l ∧
      (∀ bp ∈ l, ∃ n, indexRemove bp m = .ok () n ∧ m.Splices bp l (l.erase bp) n ∧
        n.heap.freeBlocks + 1 = m.heap.freeBlocks) ∧
      ∀ bp, m.heap.Vacancies (bp :: l) → (order = .addressOrdered → l.Pairwise (· < ·)) →
        ∃ n, indexInsert bp m = .ok () n ∧ m.Splices bp l (order.insert bp l) n ∧
          n.heap.freeBlocks = m.heap.freeBlocks + 1 := by
  refine ⟨?_, fun bp listed => ?_, fun bp vacancies ascending => ?_⟩
  · exact Heap.freeList_of_threads (represents.roomy bounded) represents.threads
      represents.distinct
  · exact splices_indexRemove represents bounded (Heap.usesList_of_kind kind) listed
  · exact splices_indexInsert represents bounded kind vacancies ascending

theorem splices_sample : ∃ n k,
    indexRemove 64 (Session.sample (.explicitList .addressOrdered)).machine = .ok () n ∧
      n.heap.freeList = .ok [16] ∧ indexInsert 64 n = .ok () k ∧
      k.heap.freeList = .ok [16, 64] := by
  have kind : (Session.sample (.explicitList .addressOrdered)).machine.heap.strategy =
      .explicitList .addressOrdered := by decide +kernel
  have read : (Session.sample (.explicitList .addressOrdered)).machine.heap.freeList =
      .ok [16, 64] := by decide +kernel
  cases Session.sound_of_reachable (Session.reachable_sample (.explicitList .addressOrdered)) with
  | blank blank => exact absurd blank.initialized (by decide +kernel)
  | @settled blocks nodes settled _ =>
    cases (Heap.freeList_eq settled.keeps (Heap.usesList_of_kind kind)).symm.trans read
    have represents := settled.represents (Heap.usesList_of_kind kind)
    have bounded := settled.keeps.spelt.bounded
    obtain ⟨n, ran, removed, _⟩ :=
      (splices_of_represents kind bounded represents).2.1 64 (by decide)
    have touched : ∀ k ∈ [64, 16, 64], k ∈ [16, 64] := by decide
    have vacancies := represents.relink removed.edits.size fun i kept =>
      removed.edits.byte i fun ⟨k, mem, within⟩ => kept ⟨k, touched k mem, within⟩
    obtain ⟨read', _, inserts⟩ := splices_of_represents
      ((Heap.strategy_eq removed.edits.config).trans kind) (removed.edits.size ▸ bounded)
      removed.represents
    obtain ⟨k, ran', inserted, _⟩ := inserts 64
      (vacancies.of_subset (by decide) (by decide)) fun _ => by decide
    refine ⟨n, k, ran, read', ran', ?_⟩
    exact (splices_of_represents ((Heap.strategy_eq inserted.edits.config).trans
      ((Heap.strategy_eq removed.edits.config).trans kind))
      (inserted.edits.size ▸ removed.edits.size ▸ bounded) inserted.represents).1

end Machine

end BoundaryTag
