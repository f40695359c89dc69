import BoundaryTag.Blocks
import BoundaryTag.Proofs.Keeping

namespace BoundaryTag.Heap

def layout (h : Heap) : Except Fault (List Block) := h.blocks.map (·.map (·.toBlock))

variable {h : Heap} {blocks l₁ l₂ : List Block} {b : Block} {nodes : List Nat}

theorem Spells.bothTags (spelt : h.Spells blocks) (mem : b ∈ blocks) :
    ∃ tag : Tag, h.tag b.payload = .ok tag ∧ h.prevTag (b.payload + b.size) = .ok tag ∧
      tag.size = b.size ∧ tag.allocated = b.allocated := by
  have bounds := spelt.bounds mem
  obtain ⟨header, footer⟩ := spelt.bracketed b mem
  refine ⟨_, tag_eq spelt.bounded (by omega) (by omega), ?_, header⟩
  rw [prevTag_eq spelt.bounded (by omega) (by omega)]
  exact congrArg _ (Tag.ext (footer.1.trans header.1.symm) (footer.2.trans header.2.symm))

theorem Spells.blockAt?_top (spelt : h.Spells blocks) : h.blockAt? h.size = .ok none := by
  rw [blockAt?, spelt.topTag]
  rfl

theorem Spells.blockAt? (spelt : h.Spells blocks) (mem : b ∈ blocks) :
    ∃ links, h.blockAt? b.payload = .ok (some ⟨b, links⟩) := by
  have bounds := spelt.bounds mem
  obtain ⟨tag, read, size, flag⟩ := spelt.tag mem
  have sized : b.size ≠ 0 := by omega
  have viewed : ∃ links, h.viewLinks b.payload tag = .ok links := by
    unfold viewLinks
    split
    · exact ⟨none, rfl⟩
    · rw [links_eq spelt.bounded (by omega)]
      exact ⟨_, rfl⟩
  obtain ⟨links, viewed⟩ := viewed
  refine ⟨links, ?_⟩
  rw [Heap.blockAt?, read]
  simp [bind, Except.bind, sized, viewed, size, flag, pure, Except.pure]

theorem blocksFrom_top {bp : Nat} (read : h.blockAt? bp = .ok none) :
    h.blocksFrom bp = .ok [] := by
  rw [blocksFrom]
  split
  · rename_i found
    rw [read] at found
    cases found
  · rfl
  · rename_i found
    rw [read] at found
    cases found

theorem blocksFrom_step {bp : Nat} {view : BlockView} (read : h.blockAt? bp = .ok (some view))
    (sum : Offset.add bp view.size = .ok (bp + view.size)) :
    h.blocksFrom bp = (do return view :: (← h.blocksFrom (bp + view.size))) := by
  rw [blocksFrom]
  split
  · rename_i found
    rw [read] at found
    cases found
  · rename_i found
    rw [read] at found
    cases found
  · rename_i found
    rw [read] at found
    cases found
    split
    · rename_i overflow
      rw [sum] at overflow
      cases overflow
    · rename_i next
      rw [sum] at next
      cases next
      rfl

theorem blocksFrom_eq (l₁ : List Block) (spelt : h.Spells (l₁ ++ l₂)) :
    ∃ views, h.blocksFrom (firstBlock + Block.totalSize l₁) = .ok views ∧
      views.map (·.toBlock) = l₂ := by
  induction l₂ generalizing l₁ with
  | nil =>
    have top := spelt.tiled.stop_eq
    rw [List.append_nil] at top
    exact ⟨[], by rw [← top, blocksFrom_top spelt.blockAt?_top], rfl⟩
  | cons b rest ih =>
    have here := spelt.tiled.payload_eq
    have bounds := spelt.bounds (b := b) (by simp)
    obtain ⟨links, read⟩ := spelt.blockAt? (b := b) (by simp)
    have sum : Offset.add b.payload b.size = .ok (b.payload + b.size) :=
      Offset.add_eq_ok_iff.2 ⟨by simp only [Offset.limit]; omega, rfl⟩
    obtain ⟨views, walked, same⟩ := ih (l₁ ++ [b]) (by simpa using spelt)
    have shifted : firstBlock + Block.totalSize (l₁ ++ [b]) = b.payload + b.size := by
      simp [here, Nat.add_assoc]
    rw [shifted] at walked
    refine ⟨⟨b, links⟩ :: views, ?_, by rw [List.map_cons, same]⟩
    rw [← here, blocksFrom_step read sum, walked]
    rfl

theorem blocksFrom_eq_nil {bp : Nat} (walked : h.blocksFrom bp = .ok []) :
    h.blockAt? bp = .ok none := by
  rw [blocksFrom] at walked
  split at walked
  · cases walked
  · assumption
  · split at walked
    · cases walked
    · obtain ⟨_, _, same⟩ := bind_eq_ok_iff.1 walked
      cases same

theorem blocksFrom_eq_cons {bp : Nat} {view : BlockView} {rest : List BlockView}
    (walked : h.blocksFrom bp = .ok (view :: rest)) :
    h.blockAt? bp = .ok (some view) ∧ ∃ next, Offset.add bp view.size = .ok next ∧
      h.blocksFrom next = .ok rest := by
  rw [blocksFrom] at walked
  split at walked
  · cases walked
  · cases walked
  · rename_i found
    split at walked
    · cases walked
    · rename_i next sum
      obtain ⟨_, walked, same⟩ := bind_eq_ok_iff.1 walked
      cases same
      exact ⟨found, next, sum, walked⟩

theorem walkSteps_none (count : Nat) :
    h.walkSteps count none = .ok ((List.range count).map fun _ => none) := by
  induction count with
  | zero => rfl
  | succ count ih =>
    have ended : h.walkStep none = .ok (none, none) := rfl
    rw [walkSteps, List.range_succ_eq_map, List.map_cons, List.map_map]
    exact bind_eq_ok_iff.2 ⟨_, ended, bind_eq_ok_iff.2 ⟨_, ih, rfl⟩⟩

theorem walkSteps_eq {bp : Nat} {views : List BlockView} (walked : h.blocksFrom bp = .ok views)
    (count : Nat) : h.walkSteps count (some bp) = .ok ((List.range count).map (views[·]?)) := by
  induction count generalizing bp views with
  | zero => rfl
  | succ count ih =>
    rw [walkSteps, List.range_succ_eq_map, List.map_cons, List.map_map]
    cases views with
    | nil =>
      have ended : h.walkStep (some bp) = .ok (none, none) :=
        bind_eq_ok_iff.2 ⟨none, blocksFrom_eq_nil walked, rfl⟩
      exact bind_eq_ok_iff.2 ⟨_, ended, bind_eq_ok_iff.2 ⟨_, walkSteps_none count, rfl⟩⟩
    | cons view rest =>
      obtain ⟨read, next, sum, walked⟩ := blocksFrom_eq_cons walked
      have stepped : h.walkStep (some bp) = .ok (some view, some next) :=
        bind_eq_ok_iff.2 ⟨some view, read, bind_eq_ok_iff.2 ⟨next, sum, rfl⟩⟩
      exact bind_eq_ok_iff.2 ⟨_, stepped, bind_eq_ok_iff.2 ⟨_, ih walked, rfl⟩⟩

theorem layout_blank (unused : h.initialized = false) : h.layout = .ok [] := by
  rw [layout, Heap.blocks, unused]
  rfl

theorem layout_eq (laidOut : h.initialized = true) (spelt : h.Spells blocks) :
    h.layout = .ok blocks := by
  obtain ⟨views, walked, same⟩ := blocksFrom_eq [] spelt
  have walked : h.blocksFrom firstBlock = .ok views := walked
  rw [layout, Heap.blocks, if_pos laidOut, walked, ← same]
  rfl

theorem listFrom_eq (roomy : h.Roomy nodes) (l₁ : List Nat) {l₂ : List Nat}
    (threads : h.Threads (l₁ ++ l₂)) (listed : ∀ n ∈ l₂, n ∈ nodes) {fuel : Nat}
    (enough : l₂.length ≤ fuel) : h.listFrom fuel l₂.head? = .ok l₂ := by
  induction l₂ generalizing l₁ fuel with
  | nil => cases fuel <;> rfl
  | cons n rest ih =>
    cases fuel with
    | zero => simp at enough
    | succ fuel =>
      have shifted : h.Threads (l₁ ++ [n] ++ rest) := by simpa using threads
      have next : h.after (some n) = rest.head? := by simpa using shifted.after_eq
      have rest := ih _ shifted (fun k mem => listed k (by simp [mem])) (by simpa using enough)
      have links := links_eq roomy.bounded (roomy.inside n (listed n (by simp))).2
      simp only [after] at next
      rw [List.head?_cons, listFrom, links]
      simp only [bind, Except.bind, next, rest]
      rfl

theorem freeList_nil (headless : h.freeHead = none) : h.freeList = .ok [] := by
  rw [freeList, headless]
  rfl

theorem freeList_of_threads (roomy : h.Roomy nodes) (threads : h.Threads nodes)
    (distinct : nodes.Nodup) : h.freeList = .ok nodes := by
  have head : h.freeHead = nodes.head? := @Threads.after_eq h [] nodes threads
  have length := roomy.length_le distinct
  rw [freeList, head]
  exact listFrom_eq roomy [] threads (fun _ mem => mem) (Nat.le_succ_of_le length)

theorem freeList_eq (keeps : h.Keeps blocks nodes []) (list : h.strategy.usesList = true) :
    h.freeList = .ok nodes :=
  freeList_of_threads (keeps.spelt.roomy keeps.freeNodes) (keeps.indexed.threaded list)
    keeps.indexed.distinct

theorem exists_freeList (keeps : h.Keeps blocks nodes []) :
    ∃ listed, h.freeList = .ok listed ∧ FreeNodes listed blocks := by
  cases list : h.strategy.usesList with
  | true => exact ⟨nodes, freeList_eq keeps list, keeps.freeNodes⟩
  | false =>
    refine ⟨[], freeList_nil (keeps.indexed.headless list), ?_⟩
    intro n mem
    cases mem

theorem links_of_threads (roomy : h.Roomy nodes) (threads : h.Threads nodes)
    {before after : List Nat} {n : Nat} (split : nodes = before ++ n :: after) :
    h.links n = .ok ⟨after.head?, before.getLast?⟩ := by
  subst split
  obtain ⟨_, _, back, forth⟩ := threads_insert.1 threads
  rw [links_eq roomy.bounded (roomy.inside n (by simp)).2]
  have next : Links.decode (h.region.memory.word n) = after.head? := forth.next
  have prev : Links.decode (h.region.memory.word (n + 4)) = before.getLast? := back.prev n rfl
  rw [next, prev]

end BoundaryTag.Heap
