import BoundaryTag.FreeIndex
import BoundaryTag.Proofs.Layout
import Mathlib.Data.List.Chain

/-! The free list in memory.  A heap threads a sequence of nodes if next links lead through it from
the head and prev links lead back.  Both ends of the list are `none`, so that linking a node in and
unlinking it are the same edit at the head, in the middle and at the tail. -/

namespace BoundaryTag.Heap

def after (h : Heap) : Option Nat → Option Nat
  | none => h.freeHead
  | some n => Links.decode (h.region.memory.word n)

def before (h : Heap) (n : Nat) : Option Nat := Links.decode (h.region.memory.word (n + 4))

structure Adjoins (h : Heap) (x y : Option Nat) : Prop where
  next : h.after x = y
  prev : ∀ n ∈ y, h.before n = x

def Threads (h : Heap) (nodes : List Nat) : Prop :=
  (none :: nodes.map some ++ [none]).IsChain h.Adjoins

structure Roomy (h : Heap) (nodes : List Nat) : Prop where
  bounded : h.size ≤ maxRegion
  inside : ∀ n ∈ nodes, 4 ≤ n ∧ n + 8 ≤ h.size
  apart : ∀ n ∈ nodes, ∀ k ∈ nodes, n = k ∨ n + 8 ≤ k ∨ k + 8 ≤ n

def setAfter (h : Heap) (x y : Option Nat) : Heap :=
  match x with
  | none => { h with freeHead := y }
  | some n => h.setWord n (Links.encode y)

def setBefore (h : Heap) (y x : Option Nat) : Heap :=
  match y with
  | none => h
  | some n => h.setWord (n + 4) (Links.encode x)

def link (h : Heap) (x : Option Nat) (bp : Nat) : Heap :=
  (((h.setBefore (some bp) x).setAfter (some bp) (h.after x)).setAfter x (some bp)).setBefore
    (h.after x) (some bp)

def unlink (h : Heap) (bp : Nat) : Heap :=
  (h.setAfter (h.before bp) (h.after (some bp))).setBefore (h.after (some bp)) (h.before bp)

@[simp] theorem size_setAfter (h : Heap) (x y : Option Nat) : (h.setAfter x y).size = h.size := by
  cases x with
  | none => rfl
  | some n => exact size_setWord h n _

@[simp] theorem size_setBefore (h : Heap) (y x : Option Nat) :
    (h.setBefore y x).size = h.size := by
  cases y with
  | none => rfl
  | some n => exact size_setWord h (n + 4) _

theorem Roomy.of_size {h k : Heap} {nodes : List Nat} (roomy : h.Roomy nodes)
    (same : k.size = h.size) : k.Roomy nodes :=
  ⟨same ▸ roomy.bounded, same ▸ roomy.inside, roomy.apart⟩

theorem Roomy.subset {h : Heap} {nodes others : List Nat} (roomy : h.Roomy nodes)
    (sub : ∀ n ∈ others, n ∈ nodes) : h.Roomy others :=
  ⟨roomy.bounded, fun n mem => roomy.inside n (sub n mem),
    fun n mem k mem' => roomy.apart n (sub n mem) k (sub k mem')⟩

section words

variable {h : Heap} {nodes : List Nat} (roomy : h.Roomy nodes)
include roomy

theorem Roomy.decode_encode {y : Option Nat} (listed : ∀ n ∈ y, n ∈ nodes) :
    Links.decode (Links.encode y) = y := by
  cases y with
  | none => rfl
  | some n =>
    have inside := roomy.inside n (listed n rfl)
    have bounded := roomy.bounded
    simp only [maxRegion] at bounded
    exact Links.decode_encode_some (by omega) (by omega)

theorem Roomy.after_setAfter {x y z : Option Nat} (first : ∀ n ∈ x, n ∈ nodes)
    (second : ∀ n ∈ y, n ∈ nodes) (third : ∀ n ∈ z, n ∈ nodes) :
    (h.setAfter x y).after z = if z = x then y else h.after z := by
  cases x with
  | none =>
    cases z with
    | none => simp [setAfter, after]
    | some k => simp [setAfter, after]
  | some n =>
    have inside := roomy.inside n (first n rfl)
    have fits : n + 4 ≤ h.region.memory.size := by
      have : n + 8 ≤ h.region.memory.size := inside.2
      omega
    cases z with
    | none => simp [setAfter, after, setWord]
    | some k =>
      simp only [setAfter, after, setWord, Region.setWord, Option.some.injEq]
      split
      · rename_i same
        rw [same, Memory.word_setWord fits, roomy.decode_encode second]
      · rename_i different
        have := roomy.apart k (third k rfl) n (first n rfl)
        rw [Memory.word_setWord_of_disjoint fits _ (by omega)]

theorem Roomy.before_setAfter {x y : Option Nat} {k : Nat} (first : ∀ n ∈ x, n ∈ nodes)
    (second : k ∈ nodes) : (h.setAfter x y).before k = h.before k := by
  cases x with
  | none => rfl
  | some n =>
    have inside := roomy.inside n (first n rfl)
    have fits : n + 4 ≤ h.region.memory.size := by
      have : n + 8 ≤ h.region.memory.size := inside.2
      omega
    have := roomy.apart k second n (first n rfl)
    simp only [setAfter, before, setWord, Region.setWord]
    rw [Memory.word_setWord_of_disjoint fits _ (by omega)]

theorem Roomy.after_setBefore {y x z : Option Nat} (first : ∀ n ∈ y, n ∈ nodes)
    (second : ∀ n ∈ z, n ∈ nodes) : (h.setBefore y x).after z = h.after z := by
  cases y with
  | none => rfl
  | some n =>
    have inside := roomy.inside n (first n rfl)
    have fits : n + 4 + 4 ≤ h.region.memory.size := inside.2
    cases z with
    | none => rfl
    | some k =>
      have := roomy.apart k (second k rfl) n (first n rfl)
      simp only [setBefore, after, setWord, Region.setWord]
      rw [Memory.word_setWord_of_disjoint fits _ (by omega)]

theorem Roomy.before_setBefore {y x : Option Nat} {k : Nat} (first : ∀ n ∈ y, n ∈ nodes)
    (second : ∀ n ∈ x, n ∈ nodes) (third : k ∈ nodes) :
    (h.setBefore y x).before k = if some k = y then x else h.before k := by
  cases y with
  | none => simp [setBefore]
  | some n =>
    have inside := roomy.inside n (first n rfl)
    have fits : n + 4 + 4 ≤ h.region.memory.size := inside.2
    simp only [setBefore, before, setWord, Region.setWord, Option.some.injEq]
    split
    · rename_i same
      rw [same, Memory.word_setWord fits, roomy.decode_encode second]
    · rename_i different
      have := roomy.apart k third n (first n rfl)
      rw [Memory.word_setWord_of_disjoint fits _ (by omega)]

end words

theorem getLast?_none_cons (l : List Nat) : (none :: l.map some).getLast? = some l.getLast? := by
  rw [List.getLast?_cons, List.getLast?_map]
  cases l.getLast? <;> rfl

theorem head?_append_none (l : List Nat) : (l.map some ++ [none]).head? = some l.head? := by
  cases l <;> rfl

theorem isChain_below_iff {R : Option Nat → Option Nat → Prop} {l : List Nat} {n : Nat} :
    (none :: (l ++ [n]).map some).IsChain R ↔
      (none :: l.map some).IsChain R ∧ R l.getLast? (some n) := by
  have parts : none :: (l ++ [n]).map some = (none :: l.map some) ++ [some n] := by simp
  rw [parts, List.isChain_append, getLast?_none_cons]
  simp

theorem isChain_above_iff {R : Option Nat → Option Nat → Prop} {l : List Nat} {n : Nat} :
    ((n :: l).map some ++ [none]).IsChain R ↔
      R (some n) l.head? ∧ (l.map some ++ [none]).IsChain R := by
  rw [List.map_cons, List.cons_append, List.isChain_cons, head?_append_none]
  simp

theorem threads_append {h : Heap} {l₁ l₂ : List Nat} :
    h.Threads (l₁ ++ l₂) ↔ (none :: l₁.map some).IsChain h.Adjoins ∧
      (l₂.map some ++ [none]).IsChain h.Adjoins ∧ h.Adjoins l₁.getLast? l₂.head? := by
  have parts : none :: (l₁ ++ l₂).map some ++ [none] =
      (none :: l₁.map some) ++ (l₂.map some ++ [none]) := by
    simp
  rw [Threads, parts, List.isChain_append, getLast?_none_cons, head?_append_none]
  simp

theorem threads_insert {h : Heap} {l₁ l₂ : List Nat} {bp : Nat} :
    h.Threads (l₁ ++ bp :: l₂) ↔ (none :: l₁.map some).IsChain h.Adjoins ∧
      (l₂.map some ++ [none]).IsChain h.Adjoins ∧ h.Adjoins l₁.getLast? (some bp) ∧
      h.Adjoins (some bp) l₂.head? := by
  rw [threads_append, isChain_above_iff, List.head?_cons]
  constructor
  · rintro ⟨below, ⟨next, above⟩, prev⟩
    exact ⟨below, above, prev, next⟩
  · rintro ⟨below, above, prev, next⟩
    exact ⟨below, ⟨next, above⟩, prev⟩

theorem isChain_below {h k : Heap} {l : List Nat} (distinct : l.Nodup)
    (chain : (none :: l.map some).IsChain h.Adjoins)
    (next : ∀ x, (∀ n ∈ x, n ∈ l) → x ≠ l.getLast? → k.after x = h.after x)
    (prev : ∀ n ∈ l, k.before n = h.before n) : (none :: l.map some).IsChain k.Adjoins := by
  induction l using List.reverseRecOn with
  | nil => exact List.isChain_singleton none
  | append_singleton l n ih =>
    obtain ⟨chain, seam⟩ := isChain_below_iff.1 chain
    obtain ⟨distinct, _, apart⟩ := List.nodup_append.1 distinct
    have others (x : Option Nat) (listed : ∀ m ∈ x, m ∈ l) : k.after x = h.after x := by
      apply next x
      · exact fun m mem => List.mem_append_left _ (listed m mem)
      · rw [List.getLast?_concat]
        rintro rfl
        exact apart n (listed n rfl) n List.mem_cons_self rfl
    refine isChain_below_iff.2 ⟨ih distinct chain ?_ ?_, ⟨?_, ?_⟩⟩
    · exact fun x listed _ => others x listed
    · exact fun m mem => prev m (List.mem_append_left _ mem)
    · rw [others _ fun m => List.mem_of_getLast?]
      exact seam.next
    · intro m mem
      cases mem
      rw [prev n (by simp)]
      exact seam.prev n rfl

theorem isChain_above {h k : Heap} {l : List Nat} (distinct : l.Nodup)
    (chain : (l.map some ++ [none]).IsChain h.Adjoins)
    (next : ∀ n ∈ l, k.after (some n) = h.after (some n))
    (prev : ∀ n ∈ l, some n ≠ l.head? → k.before n = h.before n) :
    (l.map some ++ [none]).IsChain k.Adjoins := by
  induction l with
  | nil => exact List.isChain_singleton none
  | cons n l ih =>
    obtain ⟨seam, chain⟩ := isChain_above_iff.1 chain
    obtain ⟨fresh, distinct⟩ := List.nodup_cons.1 distinct
    have others (m : Nat) (mem : m ∈ l) : k.before m = h.before m := by
      apply prev m (List.mem_cons_of_mem n mem)
      rintro ⟨⟩
      exact fresh mem
    refine isChain_above_iff.2 ⟨⟨?_, ?_⟩, ih distinct chain ?_ ?_⟩
    · rw [next n List.mem_cons_self]
      exact seam.next
    · intro m mem
      rw [others m (List.mem_of_head? mem)]
      exact seam.prev m mem
    · exact fun m mem => next m (List.mem_cons_of_mem n mem)
    · exact fun m mem _ => others m mem

section edits

variable {h : Heap} {nodes : List Nat} {bp : Nat} (roomy : h.Roomy (bp :: nodes))
include roomy

theorem Roomy.after_link {x z : Option Nat} (first : ∀ n ∈ x, n ∈ nodes)
    (second : ∀ n ∈ h.after x, n ∈ nodes) (third : ∀ n ∈ z, n ∈ bp :: nodes) :
    (h.link x bp).after z =
      if z = x then some bp else if z = some bp then h.after x else h.after z := by
  have inX : ∀ n ∈ x, n ∈ bp :: nodes := fun n mem => List.mem_cons_of_mem _ (first n mem)
  have inY : ∀ n ∈ h.after x, n ∈ bp :: nodes := fun n mem => List.mem_cons_of_mem _ (second n mem)
  have own : ∀ n ∈ some bp, n ∈ bp :: nodes := by simp
  rw [link, (roomy.of_size (by simp)).after_setBefore inY third,
    (roomy.of_size (by simp)).after_setAfter inX own third,
    (roomy.of_size (by simp)).after_setAfter own inY third, roomy.after_setBefore own third]

theorem Roomy.before_link {x : Option Nat} {k : Nat} (first : ∀ n ∈ x, n ∈ nodes)
    (second : ∀ n ∈ h.after x, n ∈ nodes) (third : k ∈ bp :: nodes) :
    (h.link x bp).before k =
      if some k = h.after x then some bp else if k = bp then x else h.before k := by
  have inX : ∀ n ∈ x, n ∈ bp :: nodes := fun n mem => List.mem_cons_of_mem _ (first n mem)
  have inY : ∀ n ∈ h.after x, n ∈ bp :: nodes := fun n mem => List.mem_cons_of_mem _ (second n mem)
  have own : ∀ n ∈ some bp, n ∈ bp :: nodes := by simp
  rw [link, (roomy.of_size (by simp)).before_setBefore inY own third,
    (roomy.of_size (by simp)).before_setAfter inX third,
    (roomy.of_size (by simp)).before_setAfter own third, roomy.before_setBefore own inX third]
  simp only [Option.some.injEq]

theorem Roomy.after_unlink {z : Option Nat} (first : ∀ n ∈ h.before bp, n ∈ nodes)
    (second : ∀ n ∈ h.after (some bp), n ∈ nodes) (third : ∀ n ∈ z, n ∈ nodes) :
    (h.unlink bp).after z = if z = h.before bp then h.after (some bp) else h.after z := by
  have roomy := roomy.subset fun n mem => List.mem_cons_of_mem bp mem
  rw [unlink, (roomy.of_size (by simp)).after_setBefore second third,
    roomy.after_setAfter first second third]

theorem Roomy.before_unlink {k : Nat} (first : ∀ n ∈ h.before bp, n ∈ nodes)
    (second : ∀ n ∈ h.after (some bp), n ∈ nodes) (third : k ∈ nodes) :
    (h.unlink bp).before k = if some k = h.after (some bp) then h.before bp else h.before k := by
  have roomy := roomy.subset fun n mem => List.mem_cons_of_mem bp mem
  rw [unlink, (roomy.of_size (by simp)).before_setBefore second first third,
    roomy.before_setAfter first third]

end edits

theorem Threads.after_eq {h : Heap} {l₁ l₂ : List Nat} (threads : h.Threads (l₁ ++ l₂)) :
    h.after l₁.getLast? = l₂.head? :=
  (threads_append.1 threads).2.2.next

theorem Threads.mem_seam {h : Heap} {l₁ l₂ : List Nat} (threads : h.Threads (l₁ ++ l₂)) :
    (∀ n ∈ l₁.getLast?, n ∈ l₁ ++ l₂) ∧ ∀ n ∈ h.after l₁.getLast?, n ∈ l₁ ++ l₂ := by
  rw [threads.after_eq]
  exact ⟨fun n mem => List.mem_append_left _ (List.mem_of_getLast? mem),
    fun n mem => List.mem_append_right _ (List.mem_of_head? mem)⟩

theorem Threads.mem_around {h : Heap} {l₁ l₂ : List Nat} {bp : Nat}
    (threads : h.Threads (l₁ ++ bp :: l₂)) :
    (∀ n ∈ h.before bp, n ∈ l₁ ++ l₂) ∧ ∀ n ∈ h.after (some bp), n ∈ l₁ ++ l₂ := by
  obtain ⟨_, _, left, right⟩ := threads_insert.1 threads
  rw [left.prev bp rfl, right.next]
  exact ⟨fun n mem => List.mem_append_left _ (List.mem_of_getLast? mem),
    fun n mem => List.mem_append_right _ (List.mem_of_head? mem)⟩

theorem Threads.link {h : Heap} {l₁ l₂ : List Nat} {bp : Nat} (roomy : h.Roomy (bp :: (l₁ ++ l₂)))
    (distinct : (bp :: (l₁ ++ l₂)).Nodup) (threads : h.Threads (l₁ ++ l₂)) :
    (h.link l₁.getLast? bp).Threads (l₁ ++ bp :: l₂) := by
  obtain ⟨below, above, seam⟩ := threads_append.1 threads
  obtain ⟨fresh, distinct⟩ := List.nodup_cons.1 distinct
  obtain ⟨distinct₁, distinct₂, disjoint⟩ := List.nodup_append.1 distinct
  have inX : ∀ n ∈ l₁.getLast?, n ∈ l₁ := fun n => List.mem_of_getLast?
  have inY : ∀ n ∈ l₂.head?, n ∈ l₂ := fun n => List.mem_of_head?
  obtain ⟨first, second⟩ := threads.mem_seam
  have next {z : Option Nat} (listed : ∀ n ∈ z, n ∈ bp :: (l₁ ++ l₂)) :=
    roomy.after_link first second listed
  have prev {k : Nat} (listed : k ∈ bp :: (l₁ ++ l₂)) := roomy.before_link first second listed
  rw [seam.next] at prev next
  have apart : some bp ≠ l₁.getLast? := fun same => fresh (first bp same.symm)
  refine threads_insert.2 ⟨?_, ?_, ⟨?_, ?_⟩, ⟨?_, ?_⟩⟩
  · refine isChain_below distinct₁ below ?_ ?_
    · intro z listed notLast
      rw [next fun n mem => by simp [listed n mem], if_neg notLast, if_neg]
      rintro rfl
      exact fresh (by simp [listed bp rfl])
    · intro n mem
      have notFirst : some n ≠ l₂.head? := fun same => disjoint n mem n (inY n same.symm) rfl
      have notOwn : n ≠ bp := fun same => fresh (by simp [← same, mem])
      rw [prev (by simp [mem]), if_neg notFirst, if_neg notOwn]
  · refine isChain_above distinct₂ above ?_ ?_
    · intro n mem
      have notLast : some n ≠ l₁.getLast? := fun same => disjoint n (inX n same.symm) n mem rfl
      have notOwn : some n ≠ some bp := by
        rintro ⟨⟩
        exact fresh (by simp [mem])
      rw [next (by simp [mem]), if_neg notLast, if_neg notOwn]
    · intro n mem notFirst
      have notOwn : n ≠ bp := fun same => fresh (by simp [← same, mem])
      rw [prev (by simp [mem]), if_neg notFirst, if_neg notOwn]
  · rw [next fun n mem => List.mem_cons_of_mem _ (first n mem), if_pos rfl]
  · rintro n ⟨⟩
    have notFirst : some bp ≠ l₂.head? := fun same => fresh (by simp [inY bp same.symm])
    rw [prev (by simp), if_neg notFirst, if_pos rfl]
  · rw [next (by simp), if_neg apart, if_pos rfl]
  · intro n mem
    rw [prev (by simp [inY n mem]), if_pos mem.symm]

theorem Threads.unlink {h : Heap} {l₁ l₂ : List Nat} {bp : Nat} (roomy : h.Roomy (l₁ ++ bp :: l₂))
    (distinct : (l₁ ++ bp :: l₂).Nodup) (threads : h.Threads (l₁ ++ bp :: l₂)) :
    (h.unlink bp).Threads (l₁ ++ l₂) := by
  obtain ⟨below, above, left, right⟩ := threads_insert.1 threads
  obtain ⟨distinct₁, distinct₂, disjoint⟩ := List.nodup_append.1 distinct
  obtain ⟨fresh, distinct₂⟩ := List.nodup_cons.1 distinct₂
  have roomy : h.Roomy (bp :: (l₁ ++ l₂)) := roomy.subset fun n mem => by
    simpa [or_left_comm] using mem
  have inX : ∀ n ∈ l₁.getLast?, n ∈ l₁ := fun n => List.mem_of_getLast?
  have inY : ∀ n ∈ l₂.head?, n ∈ l₂ := fun n => List.mem_of_head?
  have prevEq : h.before bp = l₁.getLast? := left.prev bp rfl
  obtain ⟨first, second⟩ := threads.mem_around
  have next {z : Option Nat} (listed : ∀ n ∈ z, n ∈ l₁ ++ l₂) :=
    roomy.after_unlink first second listed
  have prev {k : Nat} (listed : k ∈ l₁ ++ l₂) := roomy.before_unlink first second listed
  rw [prevEq, right.next] at prev next
  refine threads_append.2 ⟨?_, ?_, ⟨?_, ?_⟩⟩
  · refine isChain_below distinct₁ below ?_ ?_
    · intro z listed notLast
      rw [next fun n mem => by simp [listed n mem], if_neg notLast]
    · intro n mem
      have notFirst : some n ≠ l₂.head? :=
        fun same => disjoint n mem n (List.mem_cons_of_mem _ (inY n same.symm)) rfl
      rw [prev (by simp [mem]), if_neg notFirst]
  · refine isChain_above distinct₂ above ?_ ?_
    · intro n mem
      have notLast : some n ≠ l₁.getLast? :=
        fun same => disjoint n (inX n same.symm) n (List.mem_cons_of_mem _ mem) rfl
      rw [next (by simp [mem]), if_neg notLast]
    · intro n mem notFirst
      rw [prev (by simp [mem]), if_neg notFirst]
  · rw [next fun n mem => by simp [inX n mem], if_pos rfl]
  · intro n mem
    rw [prev (by simp [inY n mem]), if_pos mem.symm]

end BoundaryTag.Heap
