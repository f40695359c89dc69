import BoundaryTag.Proofs.Indexing

namespace BoundaryTag

theorem Word.byte_zero (w : Word) : (w.byte 0).toNat % 2 = w.toNat % 2 := by
  simp only [byte, UInt8.toNat_ofNat']
  omega

theorem Tag.odd_pack {tag : Tag} (odd : tag.pack.toNat % 2 = 1) : tag.allocated = true := by
  have aligned := tag.aligned
  rw [toNat_pack] at odd
  cases flag : tag.allocated with
  | true => rfl
  | false =>
    rw [flag, Bool.toNat_false] at odd
    omega

theorem Links.even_encode {x : Option Nat} (onGrid : ∀ n ∈ x, n % 8 = 0) :
    (encode x).toNat % 2 = 0 := by
  cases x with
  | none => rfl
  | some n =>
    have := onGrid n rfl
    simp only [encode, UInt32.toNat_ofNat']
    omega

theorem Memory.allocated_tag (m : Memory) (i : Nat) :
    (m.tag i).allocated = true ↔ (m.byte i).toNat % 2 = 1 := by
  simp only [tag, word, Tag.unpack, Word.toNat_ofBytes, beq_iff_eq]
  omega

namespace Heap

structure HeaderLike (h : Heap) (i : Nat) : Prop where
  above : 8 < i
  place : i % 8 = 4
  below : i + 4 < h.size
  flag : (h.byte i).toNat % 2 = 1

variable {h : Heap} {nodes : List Nat} {bp offset i : Nat} {x y : Option Nat} {w : Word} {tag : Tag}

theorem HeaderLike.transfer {k : Heap} (poses : k.HeaderLike i) (same : k.region = h.region) :
    h.HeaderLike i := by
  have below := poses.below
  have flag := poses.flag
  rw [size, same] at below
  rw [Heap.byte, same] at flag
  exact ⟨poses.above, poses.place, below, flag⟩

theorem headerLike_setWord (fits : offset + 4 ≤ h.size) (onGrid : offset % 4 = 0)
    (poses : (h.setWord offset w).HeaderLike i) :
    i = offset ∧ w.toNat % 2 = 1 ∨ i ≠ offset ∧ h.HeaderLike i := by
  have place := poses.place
  have flag := poses.flag
  have below := poses.below
  rw [size_setWord] at below
  by_cases here : i = offset
  · subst here
    have byte : (h.setWord i w).byte i = w.byte 0 := by
      simp only [Heap.byte, setWord, Region.setWord]
      rw [Memory.byte_setWord fits, if_pos ⟨Nat.le_refl i, by omega⟩, Nat.sub_self]
    rw [byte, Word.byte_zero] at flag
    exact .inl ⟨rfl, flag⟩
  · rw [byte_setWord fits (by omega)] at flag
    exact .inr ⟨here, poses.above, place, below, flag⟩

theorem headerLike_setTags (low : 4 ≤ bp) (onGrid : bp % 8 = 0) (large : 8 ≤ tag.size)
    (fits : bp + tag.size ≤ h.size + 4) (poses : (h.setTags bp tag).HeaderLike i) :
    bp = i + 4 ∧ tag.allocated = true ∨ bp ≠ i + 4 ∧ h.HeaderLike i := by
  have place := poses.place
  have aligned := tag.aligned
  rcases headerLike_setWord (by rw [size_setWord]; omega) (by omega) poses with
    ⟨footer, _⟩ | ⟨_, poses⟩
  · omega
  · rcases headerLike_setWord (by omega) (by omega) poses with ⟨header, odd⟩ | ⟨away, poses⟩
    · exact .inl ⟨by omega, Tag.odd_pack odd⟩
    · exact .inr ⟨by omega, poses⟩

theorem headerLike_setAfter (fits : ∀ n ∈ x, n + 8 ≤ h.size) (onGrid : ∀ n ∈ x, n % 8 = 0)
    (poses : (h.setAfter x y).HeaderLike i) : h.HeaderLike i := by
  cases x with
  | none => exact poses.transfer rfl
  | some n =>
    have place := poses.place
    have inside := fits n rfl
    have even := onGrid n rfl
    rcases headerLike_setWord (by omega) (by omega) poses with ⟨rfl, _⟩ | ⟨_, poses⟩
    · omega
    · exact poses

theorem headerLike_setBefore (fits : ∀ n ∈ y, n + 8 ≤ h.size) (onGrid : ∀ n ∈ y, n % 8 = 0)
    (even : ∀ n ∈ x, n % 8 = 0) (poses : (h.setBefore y x).HeaderLike i) : h.HeaderLike i := by
  cases y with
  | none => exact poses
  | some n =>
    have inside := fits n rfl
    have place := onGrid n rfl
    rcases headerLike_setWord (by omega) (by omega) poses with ⟨_, odd⟩ | ⟨_, poses⟩
    · have := Links.even_encode even
      omega
    · exact poses

section links

variable (fits : ∀ n ∈ nodes, n + 8 ≤ h.size) (onGrid : ∀ n ∈ nodes, n % 8 = 0)
include fits onGrid

theorem headerLike_link (own : bp ∈ nodes) (first : ∀ n ∈ x, n ∈ nodes)
    (second : ∀ n ∈ h.after x, n ∈ nodes) (poses : (h.link x bp).HeaderLike i) :
    h.HeaderLike i := by
  have own : ∀ n ∈ some bp, n ∈ nodes := by simpa using own
  have even {z : Option Nat} (listed : ∀ n ∈ z, n ∈ nodes) : ∀ n ∈ z, n % 8 = 0 :=
    fun n mem => onGrid n (listed n mem)
  have inside {z : Option Nat} (listed : ∀ n ∈ z, n ∈ nodes) : ∀ n ∈ z, n + 8 ≤ h.size :=
    fun n mem => fits n (listed n mem)
  have poses := headerLike_setBefore (by simpa using inside second) (even second) (even own) poses
  have poses := headerLike_setAfter (by simpa using inside first) (even first) poses
  have poses := headerLike_setAfter (by simpa using inside own) (even own) poses
  exact headerLike_setBefore (inside own) (even own) (even first) poses

theorem headerLike_unlink (first : ∀ n ∈ h.before bp, n ∈ nodes)
    (second : ∀ n ∈ h.after (some bp), n ∈ nodes) (poses : (h.unlink bp).HeaderLike i) :
    h.HeaderLike i := by
  have even {z : Option Nat} (listed : ∀ n ∈ z, n ∈ nodes) : ∀ n ∈ z, n % 8 = 0 :=
    fun n mem => onGrid n (listed n mem)
  have inside {z : Option Nat} (listed : ∀ n ∈ z, n ∈ nodes) : ∀ n ∈ z, n + 8 ≤ h.size :=
    fun n mem => fits n (listed n mem)
  have poses := headerLike_setBefore (by simpa using inside second) (even second) (even first) poses
  exact headerLike_setAfter (inside first) (even first) poses

end links

end Heap

namespace Machine

/-- Edits after which no word is newly like a header, but for that of the payload that is opened. -/
structure Tidies (opened : Option Nat) (touched : Nat → Prop) (m n : Machine) : Prop
    extends Edits touched m n where
  headerLike : ∀ i, n.heap.HeaderLike i → m.heap.HeaderLike i ∨ opened = some (i + 4)

variable {m n k : Machine} {opened : Option Nat} {touched wider : Nat → Prop} {nodes : List Nat}
  {bp : Nat}

theorem Edits.tidies (edits : Edits touched m n) (same : n.heap.region = m.heap.region) :
    Tidies opened touched m n :=
  ⟨edits, fun _ poses => .inl (poses.transfer same)⟩

theorem Tidies.refl (opened : Option Nat) (touched : Nat → Prop) (m : Machine) :
    Tidies opened touched m m :=
  (Edits.refl touched m).tidies rfl

theorem Tidies.trans (first : Tidies opened touched m n) (second : Tidies opened touched n k) :
    Tidies opened touched m k := by
  refine ⟨first.toEdits.trans second.toEdits, fun i poses => ?_⟩
  rcases second.headerLike i poses with poses | here
  · exact first.headerLike i poses
  · exact .inr here

theorem Tidies.mono (tidies : Tidies opened touched m n) (sub : ∀ i, touched i → wider i) :
    Tidies opened wider m n :=
  ⟨tidies.toEdits.mono sub, tidies.headerLike⟩

theorem Tidies.open (tidies : Tidies none touched m n) (opened : Option Nat) :
    Tidies opened touched m n :=
  ⟨tidies.toEdits, fun i poses => .inl ((tidies.headerLike i poses).resolve_right nofun)⟩

theorem tidies_note {event : Event} (quiet : event.isRemark = true) :
    Tidies opened touched m { m with log := m.log.push event } :=
  (edits_note quiet).tidies rfl

theorem tidies_setTags (m : Machine) (bp : Nat) (tag : Tag) (low : 4 ≤ bp) (onGrid : bp % 8 = 0)
    (large : 8 ≤ tag.size) (fits : bp + tag.size ≤ m.heap.size + 4) :
    Tidies (if tag.allocated then some bp else none)
      (⟨bp, tag.size, tag.allocated⟩ : Block).Marks m
      { m with heap := m.heap.setTags bp tag } := by
  refine ⟨edits_setTags low large fits, fun i poses => ?_⟩
  rcases Heap.headerLike_setTags low onGrid large fits poses with ⟨rfl, flag⟩ | ⟨_, poses⟩
  · exact .inr (by rw [if_pos flag])
  · exact .inl poses

theorem headerLike_linkCounted (l₁ l₂ : List Nat) (indexed : m.heap.Indexes (l₁ ++ l₂))
    (roomy : m.heap.Roomy (bp :: (l₁ ++ l₂))) (onGrid : ∀ n ∈ bp :: (l₁ ++ l₂), n % 8 = 0)
    (list : m.heap.strategy.usesList = true)
    (ran : linkAfter l₁.getLast? bp (m.counting (m.heap.freeBlocks + 1)) = .ok () n) {i : Nat}
    (poses : n.heap.HeaderLike i) : m.heap.HeaderLike i := by
  have fits (n : Nat) (mem : n ∈ bp :: (l₁ ++ l₂)) : n + 8 ≤ m.heap.size :=
    (roomy.inside n mem).2
  have threads := indexed.threaded list
  have first (n : Nat) (mem : n ∈ l₁.getLast?) : n ∈ bp :: (l₁ ++ l₂) :=
    List.mem_cons_of_mem bp (threads.mem_seam.1 n mem)
  have second (n : Nat) (mem : n ∈ m.heap.after l₁.getLast?) : n ∈ bp :: (l₁ ++ l₂) :=
    List.mem_cons_of_mem bp (threads.mem_seam.2 n mem)
  have ran' := linkAfter_ok (m := m.counting (m.heap.freeBlocks + 1)) roomy.bounded
    (fits bp (by simp)) (fun n mem => fits n (first n mem)) fun n mem => fits n (second n mem)
  cases ran.symm.trans ran'
  have poses := Heap.headerLike_link (h := (m.counting (m.heap.freeBlocks + 1)).heap) fits onGrid
    (by simp) first second poses
  exact poses.transfer rfl

section index

variable (indexed : m.heap.Indexes nodes)
  (free : (m.heap.region.memory.tag (bp - 4)).allocated = false)
include indexed free

theorem headerLike_indexRemove (roomy : m.heap.Roomy nodes) (onGrid : ∀ n ∈ nodes, n % 8 = 0)
    (listed : bp ∈ nodes) (ran : indexRemove bp m = .ok () n) {i : Nat}
    (poses : n.heap.HeaderLike i) :
    m.heap.HeaderLike i := by
  have inside := roomy.inside bp listed
  have counted : 0 < m.heap.freeBlocks := by
    rw [indexed.counted]
    exact List.length_pos_of_mem listed
  rw [indexRemove_eq roomy.bounded inside.1 (by omega) free counted] at ran
  split at ran
  · rename_i list
    obtain ⟨l₁, l₂, rfl⟩ := List.append_of_mem listed
    have threads := indexed.threaded list
    have within : l₁ ++ l₂ ⊆ l₁ ++ bp :: l₂ := by simp
    have first (n : Nat) (mem : n ∈ m.heap.before bp) : n ∈ l₁ ++ bp :: l₂ :=
      within (threads.mem_around.1 n mem)
    have second (n : Nat) (mem : n ∈ m.heap.after (some bp)) : n ∈ l₁ ++ bp :: l₂ :=
      within (threads.mem_around.2 n mem)
    have fits (n : Nat) (mem : n ∈ l₁ ++ bp :: l₂) : n + 8 ≤ m.heap.size := (roomy.inside n mem).2
    have unlinked := unlink_ok (m := m.counting (m.heap.freeBlocks - 1)) roomy.bounded
      (fits bp listed) (fun n mem => fits n (first n mem)) fun n mem => fits n (second n mem)
    cases ran.symm.trans unlinked
    have poses := Heap.headerLike_unlink (h := (m.counting (m.heap.freeBlocks - 1)).heap) fits
      onGrid first second poses
    exact poses.transfer rfl
  · cases ran
    exact poses.transfer rfl

theorem headerLike_indexInsert (roomy : m.heap.Roomy (bp :: nodes))
    (onGrid : ∀ n ∈ bp :: nodes, n % 8 = 0) (ran : indexInsert bp m = .ok () n) {i : Nat}
    (poses : n.heap.HeaderLike i) : m.heap.HeaderLike i := by
  have inside := roomy.inside bp (by simp)
  rw [indexInsert_eq roomy.bounded inside.1 (by omega) free] at ran
  cases kind : m.heap.strategy with
  | nextFit =>
    rw [kind] at ran
    cases ran
    exact poses.transfer rfl
  | firstFit =>
    rw [kind] at ran
    cases ran
    exact poses.transfer rfl
  | explicitList order =>
    have list := Heap.usesList_of_kind kind
    rw [kind] at ran
    cases order with
    | lifo => exact headerLike_linkCounted [] nodes indexed roomy onGrid list ran poses
    | addressOrdered =>
      have found : observe (fun h => h.lastBelow bp none h.listBound h.freeHead)
          (m.counting (m.heap.freeBlocks + 1)) =
          .ok (nodes.takeWhile (· ≤ bp)).getLast? (m.counting (m.heap.freeBlocks + 1)) :=
        observe_of_ok (lastBelow_counting indexed roomy list)
      have parted : nodes.takeWhile (· ≤ bp) ++ nodes.dropWhile (· ≤ bp) = nodes :=
        List.takeWhile_append_dropWhile
      rw [← parted] at indexed roomy onGrid
      exact headerLike_linkCounted _ _ indexed roomy onGrid list
        ((bind_of_ok found).symm.trans ran) poses

end index

end Machine

end BoundaryTag
