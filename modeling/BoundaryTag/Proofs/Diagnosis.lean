import BoundaryTag.Proofs.Auditing
import BoundaryTag.Proofs.Sessions

/-! What the audit complains about.  Over any bytes, a violation says something true of the heap: of
the first block at which the walk cannot go on, behind a run of well-formed ones, or of the first
node at which the list goes wrong, behind a run of nodes that are linked both ways.  No set of
visited nodes is kept.  A node has one prev link, so nodes whose prev links agree are all different,
and as many of them as there are free blocks are all the free blocks. -/

namespace BoundaryTag

namespace Audit

variable {α β : Type} {P : Violation → Prop}

def Finds (x : Audit α) (P : Violation → Prop) : Prop :=
  ∀ finding, x = .error finding → ∃ violation, finding = .violation violation ∧ P violation

theorem Finds.bind {x : Audit α} {f : α → Audit β} (first : x.Finds P)
    (next : ∀ a, x = .ok a → (f a).Finds P) : (x >>= f).Finds P := by
  intro finding failed
  cases x with
  | error finding' => exact first finding (by simpa [Bind.bind, Except.bind] using failed)
  | ok a => exact next a rfl finding failed

theorem Finds.ok (a : α) : Finds (.ok a) P := fun _ same => nomatch same

theorem Finds.mono {x : Audit α} {Q : Violation → Prop} (finds : x.Finds P)
    (implies : ∀ violation, P violation → Q violation) : x.Finds Q := by
  intro finding failed
  obtain ⟨violation, same, holds⟩ := finds finding failed
  exact ⟨violation, same, implies violation holds⟩

theorem Finds.violates {violation : Violation} (holds : P violation) :
    Finds (Audit.violates violation : Audit α) P := by
  intro _ same
  cases same
  exact ⟨violation, rfl, holds⟩

theorem Finds.demand {holds : Bool} {violation : Violation} (broken : holds = false → P violation) :
    Finds (Audit.demand holds violation) P := by
  cases holds with
  | false => exact .violates (broken rfl)
  | true => exact .ok ()

theorem Finds.lift {y : Except Fault α} {f : α → Audit β} {a : α} (runs : y = .ok a)
    (next : (f a).Finds P) : (liftM y >>= f).Finds P := by
  rw [runs]
  exact next

end Audit

namespace Heap

def footer (h : Heap) (bp : Nat) : Tag :=
  h.region.memory.tag (bp + (h.header bp).size - tagBytes)

structure Forms (h : Heap) (b : Block) : Prop where
  large : minBlock ≤ b.size
  inside : b.payload + b.size ≤ h.size
  bracketed : b.Bracketed h.region.memory

inductive Malforms (h : Heap) (bp : Nat) : Violation → Prop
  | outside : h.size < bp → h.Malforms bp (.outOfBounds bp)
  | overrun : bp ≤ h.size → minBlock ≤ (h.header bp).size → h.size < bp + (h.header bp).size →
      h.Malforms bp (.outOfBounds bp)
  | size : bp ≤ h.size → 0 < (h.header bp).size → (h.header bp).size < minBlock →
      h.Malforms bp (.badSize bp (h.header bp).size)
  | tags : minBlock ≤ (h.header bp).size → bp + (h.header bp).size ≤ h.size →
      h.header bp ≠ h.footer bp → h.Malforms bp (.tagMismatch bp (h.header bp) (h.footer bp))
  | epilogue : bp ≤ h.size → (h.header bp).size = 0 →
      ((h.header bp).allocated = true → bp ≠ h.size) → h.Malforms bp (.badEpilogue bp)

structure Passes (h : Heap) (blocks : List Block) (bp : Nat) : Prop where
  tiled : Block.Tiles firstBlock blocks bp
  formed : ∀ b ∈ blocks, h.Forms b
  coalesced : Block.Coalesced blocks

structure Walks (h : Heap) (blocks : List Block) : Prop extends h.Passes blocks h.size where
  closed : h.header h.size = .epilogue

structure Lists (h : Heap) (order : ListOrder) (free nodes : List Nat) : Prop where
  chain : (none :: nodes.map some).IsChain h.Adjoins
  members : ∀ n ∈ nodes, n ∈ free
  ascending : order = .addressOrdered → nodes.Pairwise (· < ·)

inductive Mislists (h : Heap) (order : ListOrder) (free nodes : List Nat) : Violation → Prop
  | stray : h.after nodes.getLast? = some bp → bp ∉ free →
      h.Mislists order free nodes (.notFree bp)
  | link : h.after nodes.getLast? = some bp → bp ∈ free → h.before bp ≠ nodes.getLast? →
      h.Mislists order free nodes (.brokenLink bp nodes.getLast? (h.before bp))
  | order : h.after nodes.getLast? = some bp → bp ∈ free → h.before bp = nodes.getLast? →
      order = .addressOrdered → (∃ prev ∈ nodes.getLast?, bp ≤ prev) →
      h.Mislists order free nodes (.unordered bp)
  | cycle : h.after nodes.getLast? = some bp → bp ∈ nodes → h.Mislists order free nodes .cycle
  | short : h.after nodes.getLast? = none → nodes.Nodup → nodes.length < free.length →
      h.Mislists order free nodes (.listCount nodes.length free.length)

/-- What a violation says about a heap.  Nothing makes a block misaligned: the sizes in tags are
multiples of the alignment, so the walk never leaves the grid. -/
inductive Suffers (h : Heap) : Violation → Prop
  | uninitialized : h.initialized = false → h.Suffers .uninitialized
  | prologue : ¬(h.word? 4 = some 9 ∧ h.word? 8 = some 9) → h.Suffers .badPrologue
  | block {blocks : List Block} {bp : Nat} {violation : Violation} :
      h.Passes blocks bp → h.Malforms bp violation → h.Suffers violation
  | neighbours {blocks : List Block} {b c : Block} :
      h.Passes blocks c.payload → b ∈ blocks.getLast? → h.Forms c → b.allocated = false →
      c.allocated = false → h.Suffers (.uncoalesced b.payload c.payload)
  | cursor {blocks : List Block} :
      h.Walks blocks → ¬h.Aims blocks → h.Suffers (.strayCursor h.cursor)
  | counter {blocks : List Block} :
      h.Walks blocks → h.freeBlocks ≠ (Block.free blocks).length →
      h.Suffers (.counter h.freeBlocks (Block.free blocks).length)
  | list {blocks : List Block} {order : ListOrder} {nodes : List Nat} {violation : Violation} :
      h.Walks blocks → h.strategy = .explicitList order →
      h.Lists order (Block.payloads (Block.free blocks)) nodes →
      h.Mislists order (Block.payloads (Block.free blocks)) nodes violation → h.Suffers violation

variable {h : Heap} {bp offset : Nat} {b : Block} {blocks : List Block} {nodes free : List Nat}
  {order : ListOrder} {P : Violation → Prop}

theorem finds_auditTag (bound : h.size < Offset.limit)
    (outside : h.size < offset + 4 → P (.outOfBounds bp)) : (h.auditTag bp offset).Finds P := by
  rw [auditTag]
  split
  · exact .ok _
  · rename_i unread
    refine .violates (outside ?_)
    by_contra inside
    rw [word?_eq_some_iff.2 ⟨by omega, by omega, rfl⟩] at unread
    cases unread

theorem finds_auditBlock (room : h.size + maxBlock < Offset.limit) (low : 4 ≤ bp)
    (aligned : bp % 8 = 0) : (h.auditBlock bp).Finds (h.Malforms bp) := by
  have bound : h.size < Offset.limit := by omega
  refine .bind (.demand fun odd => ?_) fun _ _ => ?_
  · rw [isAligned_iff.2 aligned] at odd
    cases odd
  refine .lift (Offset.sub_eq_ok_iff.2 ⟨low, rfl⟩) ?_
  refine .bind (finds_auditTag bound fun beyond => .outside ?_) fun tag read => ?_
  · simp only [wordSize] at beyond
    omega
  obtain ⟨_, inside, here⟩ := auditTag_eq_ok_iff.1 read
  obtain rfl : h.header bp = tag := here
  have fits := (h.header bp).fits
  have inside : bp ≤ h.size := by
    simp only [wordSize] at inside
    omega
  split
  · -- an epilogue
    rename_i empty
    refine .bind (.demand fun wrong => .epilogue inside empty fun live top => ?_) fun _ _ => .ok _
    rw [live, beq_iff_eq.2 top] at wrong
    cases wrong
  rename_i sized
  refine .bind (.demand fun wrong => .size inside (Nat.pos_of_ne_zero sized) ?_) fun _ checked => ?_
  · rw [isAligned_iff.2 (h.header bp).aligned, Bool.and_true] at wrong
    exact Nat.lt_of_not_le (of_decide_eq_false wrong)
  have large : minBlock ≤ (h.header bp).size :=
    of_decide_eq_true (Bool.and_eq_true_iff.1 (Audit.demand_eq_ok_iff.1 checked)).1
  have positive : 16 ≤ (h.header bp).size := large
  -- no sum leaves the range of offsets: a tag holds at most `maxBlock`
  simp only [wordSize] at *
  refine .lift (Offset.add_eq_ok_iff.2 ⟨by omega, rfl⟩) ?_
  refine .lift (Offset.sub_eq_ok_iff.2 ⟨by omega, rfl⟩) ?_
  refine .bind (.demand fun wrong => .overrun inside large ?_) fun _ checked => ?_
  · have := of_decide_eq_false wrong
    omega
  have within : bp + (h.header bp).size ≤ h.size := by
    have := of_decide_eq_true (Audit.demand_eq_ok_iff.1 checked)
    omega
  have long : tagBytes ≤ bp + (h.header bp).size := by
    simp only [tagBytes]
    omega
  refine .lift (footerOf_eq_ok_iff.2 ⟨by omega, long, rfl⟩) ?_
  refine .bind (finds_auditTag bound fun beyond => ?_) fun tag read => ?_
  · simp only [tagBytes] at beyond
    omega
  obtain rfl : h.footer bp = tag := (auditTag_eq_ok_iff.1 read).2.2
  exact .bind (.demand fun wrong => .tags large within (beq_eq_false_iff_ne.1 wrong))
    fun _ _ => .ok _

def lastFree (blocks : List Block) : Option Nat :=
  (blocks.getLast?.filter (!·.allocated)).map (·.payload)

theorem lastFree_eq_some_iff {n : Nat} : lastFree blocks = some n ↔
    ∃ b, blocks.getLast? = some b ∧ b.allocated = false ∧ b.payload = n := by
  simp [lastFree, and_assoc]

theorem lastFree_concat :
    lastFree (blocks ++ [b]) = if b.allocated then none else some b.payload := by
  cases free : b.allocated <;> simp [lastFree, free]

theorem passes_nil : h.Passes [] firstBlock := ⟨rfl, by simp, List.isChain_nil⟩

theorem Passes.extend (passes : h.Passes blocks b.payload) (formed : h.Forms b)
    (apart : (lastFree blocks).isSome = true → b.allocated = true) :
    h.Passes (blocks ++ [b]) (b.payload + b.size) := by
  have even : b.size % 8 = 0 := formed.bracketed.header.1 ▸ Tag.aligned _
  refine ⟨?_, ?_, ?_⟩
  · exact Block.tiles_append.2
      ⟨_, passes.tiled, Block.tiles_singleton.2 ⟨rfl, formed.large, even, rfl⟩⟩
  · exact List.forall_mem_append.2 ⟨passes.formed, List.forall_mem_singleton.2 formed⟩
  · refine List.isChain_append.2 ⟨passes.coalesced, List.isChain_singleton b, ?_⟩
    rintro c last _ ⟨⟩
    cases free : c.allocated with
    | true => exact .inl rfl
    | false => exact .inr (apart (by rw [lastFree_eq_some_iff.2 ⟨c, last, free, rfl⟩]; rfl))

theorem finds_auditNeighbours (passes : h.Passes blocks b.payload) (formed : h.Forms b) :
    (auditNeighbours (lastFree blocks) b).Finds h.Suffers := by
  cases found : lastFree blocks with
  | none => exact .ok ()
  | some prev =>
    obtain ⟨a, last, free, rfl⟩ := lastFree_eq_some_iff.1 found
    exact .demand fun free' => .neighbours passes last formed free free'

theorem finds_auditBlocks (room : h.size + maxBlock < Offset.limit) {bp : Nat} {blocks : List Block}
    (passes : h.Passes blocks bp) : (h.auditBlocks (lastFree blocks) bp).Finds h.Suffers := by
  have low : 16 ≤ bp := passes.tiled.le
  have stumbles := finds_auditBlock room (by omega) (passes.tiled.aligned rfl).1
  rw [auditBlocks]
  split
  · rename_i finding found
    intro _ same
    cases same
    obtain ⟨violation, rfl, malforms⟩ := stumbles finding found
    exact ⟨violation, rfl, .block passes malforms⟩
  · exact .ok _
  · rename_i b found
    have bounds := bounds_of_auditBlock found
    obtain ⟨_, _, here, large, inside, _, bracketed⟩ := auditBlock_eq_some_iff.1 found
    have formed : h.Forms b := ⟨large, by omega, bracketed⟩
    have passes : h.Passes blocks b.payload := here ▸ passes
    refine .bind (finds_auditNeighbours passes formed) fun _ apart => ?_
    rw [← here, ← lastFree_concat]
    exact .bind (finds_auditBlocks room (passes.extend formed (auditNeighbours_eq_ok_iff.1 apart)))
      fun _ _ => .ok _
termination_by h.size - bp

theorem Lists.nodup (lists : h.Lists order free nodes) : nodes.Nodup := nodup_of_isChain lists.chain

theorem lists_nil : h.Lists order free [] :=
  ⟨List.isChain_singleton none, by simp, fun _ => List.Pairwise.nil⟩

theorem Lists.extend (lists : h.Lists order free nodes) (listed : bp ∈ free)
    (reached : h.after nodes.getLast? = some bp) (back : h.before bp = nodes.getLast?)
    (ascending : order = .addressOrdered → ∀ prev ∈ nodes.getLast?, prev < bp) :
    h.Lists order free (nodes ++ [bp]) := by
  refine ⟨?_, ?_, fun ordered => ?_⟩
  · exact isChain_below_iff.2 ⟨lists.chain, reached, fun n mem => by cases mem; exact back⟩
  · exact List.forall_mem_append.2 ⟨lists.members, List.forall_mem_singleton.2 listed⟩
  · rw [← List.isChain_iff_pairwise]
    refine List.isChain_append.2 ⟨(lists.ascending ordered).isChain, List.isChain_singleton bp, ?_⟩
    rintro prev last _ ⟨⟩
    exact ascending ordered prev last

theorem finds_auditList_of_node {left : Nat} (bound : h.size < Offset.limit)
    (inside : ∀ n ∈ free, n + 8 ≤ h.size) (lists : h.Lists order free nodes)
    (next : h.after nodes.getLast? = some bp)
    (wrong : ∀ violation, h.Mislists order free nodes violation → P violation)
    (rest : h.Lists order free (nodes ++ [bp]) →
      (h.auditList order free (some bp) left (h.after (some bp))).Finds P) :
    (h.auditList order free nodes.getLast? (left + 1) (some bp)).Finds P := by
  by_cases listed : bp ∈ free
  · rw [auditList_of_mem bound inside listed]
    refine .bind (.demand fun broken => ?_) fun _ matched => ?_
    · exact wrong _ (.link next listed (beq_eq_false_iff_ne.1 broken))
    have back := beq_iff_eq.1 (Audit.demand_eq_ok_iff.1 matched)
    refine .bind (.demand fun unsorted => ?_) fun _ sorted => ?_
    · have unordered := mt ordered_iff.2 (Bool.eq_false_iff.1 unsorted)
      push Not at unordered
      obtain ⟨kind, above⟩ := unordered
      exact wrong _ (.order next listed back kind above)
    have ascending := ordered_iff.1 (Audit.demand_eq_ok_iff.1 sorted)
    exact rest (lists.extend listed next back ascending)
  · refine .bind (.demand fun _ => wrong _ (.stray next listed)) fun _ checked => ?_
    exact absurd (of_decide_eq_true (Audit.demand_eq_ok_iff.1 checked)) listed

theorem finds_auditList {left : Nat} (bound : h.size < Offset.limit)
    (inside : ∀ n ∈ free, n + 8 ≤ h.size) (lists : h.Lists order free nodes)
    (count : nodes.length + left = free.length) :
    (h.auditList order free nodes.getLast? left (h.after nodes.getLast?)).Finds fun violation =>
      ∃ nodes, h.Lists order free nodes ∧ h.Mislists order free nodes violation := by
  induction left generalizing nodes with
  | zero =>
    cases next : h.after nodes.getLast? with
    | none => exact .ok ()
    | some bp =>
      refine .violates ⟨nodes, lists, ?_⟩
      split
      · -- the nodes are different free blocks, and there are no more free blocks than nodes
        rename_i listed
        have all : nodes.Perm free :=
          (lists.nodup.subperm lists.members).perm_of_length_le (by omega)
        exact .cycle next (all.mem_iff.2 listed)
      · rename_i unlisted
        exact .stray next unlisted
  | succ left ih =>
    cases next : h.after nodes.getLast? with
    | none =>
      have short : free.length - (left + 1) = nodes.length := by omega
      refine .demand fun _ => ⟨nodes, lists, ?_⟩
      rw [short]
      exact .short next lists.nodup (by omega)
    | some bp =>
      refine finds_auditList_of_node bound inside lists next
        (fun violation mislists => ⟨nodes, lists, mislists⟩) fun longer => ?_
      have rest := ih longer (by simp; omega)
      rw [List.getLast?_concat] at rest
      exact rest

theorem finds_auditPrologue : h.auditPrologue.Finds h.Suffers := by
  rw [auditPrologue_eq]
  refine .demand fun wrong => .prologue fun intact => ?_
  simp [intact] at wrong

theorem walks_of_auditBlocks (walked : h.auditBlocks none firstBlock = .ok blocks) :
    h.Walks blocks := by
  obtain ⟨_, tiled, bracketed, closed, coalesced, _⟩ :=
    (auditBlocks_eq_ok_iff (by decide) (by decide)).1 walked
  refine ⟨⟨tiled, fun b mem => ?_, coalesced⟩, closed⟩
  have bounds := tiled.bounds mem
  exact ⟨bounds.2.2.1, bounds.2.1, bracketed b mem⟩

theorem finds_audit (room : h.size + maxBlock < Offset.limit) : h.audit.Finds h.Suffers := by
  have bound : h.size < Offset.limit := by omega
  refine .bind (.demand fun off => .uninitialized off) fun _ _ => ?_
  refine .bind finds_auditPrologue fun _ _ => ?_
  refine .bind (finds_auditBlocks room passes_nil) fun blocks walked => ?_
  have walks := walks_of_auditBlocks walked
  refine .bind (.demand fun wrong => .cursor walks fun aims => ?_) fun _ _ => ?_
  · obtain ⟨kind, invalid⟩ := Bool.or_eq_false_iff.1 wrong
    exact Bool.eq_false_iff.1 invalid (cursorIsValid_iff.2 (aims (bne_eq_false_iff_eq.1 kind)))
  refine .bind (.demand fun wrong => ?_) fun _ _ => ?_
  · have number : ((blocks.filter (!·.allocated)).map (·.payload)).length =
      (Block.free blocks).length := List.length_map _
    rw [number] at wrong ⊢
    exact .counter walks (beq_eq_false_iff_ne.1 wrong)
  split
  · rename_i order kind
    refine .bind ?_ fun _ _ => .ok _
    have start : h.Lists order (Block.payloads (Block.free blocks)) [] := lists_nil
    have finds := finds_auditList bound walks.tiled.links_inside start (Nat.zero_add _)
    exact finds.mono fun violation ⟨nodes, lists, mislists⟩ => .list walks kind lists mislists
  · exact .ok _
  · exact .ok _

/-- Whatever the bytes, an audit ends: with the report of a consistent heap, or else with a
violation that is true of the heap; no block is ever misaligned.  A sequence of bytes is shorter
than half the range of offsets, so every region leaves the room that is asked for. -/
theorem suffers_of_audit (room : h.size + maxBlock < Offset.limit) :
    (∃ blocks nodes, h.Consistent blocks nodes ∧ h.audit = .ok (.ofBlocks blocks h.size)) ∨
      ∃ violation, h.audit = .error (.violation violation) ∧ h.Suffers violation ∧
        ∀ bp, violation ≠ .misaligned bp := by
  cases outcome : h.audit with
  | ok report =>
    obtain ⟨_, blocks, nodes, consistent, rfl⟩ := consistent_of_audit outcome
    exact .inl ⟨blocks, nodes, consistent, rfl⟩
  | error finding =>
    obtain ⟨violation, rfl, suffers⟩ := finds_audit room finding outcome
    refine .inr ⟨violation, rfl, suffers, ?_⟩
    rintro bp rfl
    cases suffers with
    | block _ malforms => cases malforms
    | list _ _ _ mislists => cases mislists

def looped : Heap := (Session.sample (.explicitList .lifo)).machine.heap.setWord 64 16

theorem suffers_looped : looped.audit = .error (.violation .cycle) ∧ looped.Suffers .cycle := by
  have found : looped.audit = .error (.violation .cycle) := by decide +kernel
  have room : looped.size + maxBlock < Offset.limit := by decide +kernel
  refine ⟨found, ?_⟩
  rcases suffers_of_audit room with ⟨blocks, nodes, _, reported⟩ | ⟨violation, ended, suffers, _⟩
  · rw [found] at reported
    cases reported
  · rw [found] at ended
    cases ended
    exact suffers

end Heap

end BoundaryTag
