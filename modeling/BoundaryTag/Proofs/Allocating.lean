import BoundaryTag.Proofs.Growing
import BoundaryTag.Proofs.Reshaping
import BoundaryTag.Proofs.Searching
import BoundaryTag.Proofs.Splitting

namespace BoundaryTag

theorem adjustedSize_eq {count wanted : Nat} (adjusted : adjustedSize count = some wanted) :
    wanted = max 8 (alignUp count) + 8 ∧ wanted ≤ maxBlock := by
  obtain ⟨rfl, fits⟩ := adjustedSize_eq_some_iff.1 adjusted
  refine ⟨?_, fits⟩
  simp only [alignUp, alignment]
  omega

def Heap.need (h : Heap) (wanted : Nat) : Nat := max wanted h.config.chunk

namespace Block

theorem spare_concat {blocks : List Block} {b : Block} {i : Nat}
    (spare : Spare (blocks ++ [b]) i) : Spare blocks i ∨ b.Covers i := by
  obtain ⟨c, mem, inside⟩ := spare
  obtain ⟨mem, free⟩ := mem_free.1 mem
  rcases List.mem_append.1 mem with mem | new
  · exact .inl ⟨c, mem_free.2 ⟨mem, free⟩, inside⟩
  · exact .inr (List.mem_singleton.1 new ▸ inside)

theorem spare_released {l₁ l₂ : List Block} {b : Block} {i : Nat}
    (spare : Spare (l₁ ++ b.released :: l₂) i) : b.Covers i ∨ Spare (l₁ ++ b :: l₂) i := by
  obtain ⟨c, mem, inside⟩ := spare
  obtain ⟨mem, free⟩ := mem_free.1 mem
  simp only [List.mem_append, List.mem_cons] at mem
  rcases mem with below | rfl | above
  · exact .inr ⟨c, mem_free.2 ⟨by simp [below], free⟩, inside⟩
  · exact .inl inside
  · exact .inr ⟨c, mem_free.2 ⟨by simp [above], free⟩, inside⟩

theorem spare_merge {lo hi : Nat} {blocks : List Block} (tiled : Tiles lo blocks hi) {i : Nat}
    (spare : Spare (merge blocks) i) : Spare blocks i := by
  obtain ⟨b, mem, inside⟩ := spare
  obtain ⟨mem, free⟩ := mem_free.1 mem
  obtain ⟨c, mem', inside'⟩ :=
    tiled.covers_iff.2 (tiled.merge.covers_iff.1 ⟨b, mem, inside⟩)
  cases live : c.allocated with
  | false => exact ⟨c, mem_free.2 ⟨mem', live⟩, inside'⟩
  | true =>
    have kept := (mem_merge_of_allocated live).2 mem'
    rw [tiled.merge.eq_of_covers mem kept inside inside', live] at free
    cases free

theorem not_spare {lo hi : Nat} {blocks : List Block} {b : Block} (tiled : Tiles lo blocks hi)
    (mem : b ∈ blocks) (live : b.allocated = true) {i : Nat} (inside : b.Covers i) :
    ¬Spare blocks i := by
  rintro ⟨c, listed, covered⟩
  obtain ⟨mem', free⟩ := mem_free.1 listed
  cases tiled.eq_of_covers mem mem' inside covered
  simp [live] at free

end Block

namespace Machine

def Preserves (m n : Machine) (b : Block) : Prop := ∀ i, b.Covers i → n.heap.byte i = m.heap.byte i

structure Stays (m n : Machine) : Prop where
  segment : n.segment = m.segment
  backing : n.heap.region.backing = m.heap.region.backing
  config : n.heap.config = m.heap.config
  size : n.heap.size = m.heap.size

/-- A request for which there is neither a block nor room to grow. -/
def Denies (m : Machine) (blocks : List Block) (nodes : List Nat) (count : Nat) : Prop :=
  ∀ wanted, 0 < count → adjustedSize count = some wanted →
    m.heap.candidate blocks nodes wanted = none ∧
      ∃ error, m.grant (m.heap.need wanted) = .error error

/-- Handing out a block: what becomes of the list, why this block, and what stays the same. -/
structure Serves (m n : Machine) (blocks : List Block) (nodes : List Nat)
    (wanted growth target : Nat) (new : List Block) : Prop where
  allocates : Block.Allocates wanted growth blocks target new
  chosen : m.heap.candidate blocks nodes wanted = if growth = 0 then some target else none
  granted : if growth = 0 then n.segment = m.segment
    else growth = m.heap.need wanted ∧ m.grant growth = .ok n.segment
  backing : n.heap.region.backing = m.heap.region.backing
  config : n.heap.config = m.heap.config
  size : n.heap.size = m.heap.size + growth
  preserves : ∀ b ∈ blocks, b.allocated = true → m.Preserves n b
  headerLike : m.BringsEven n → ∀ i, n.heap.HeaderLike i → m.heap.HeaderLike i ∨ target = i + 4

def terms (m : Machine) : Block.Terms :=
  ⟨m.heap.config.inPlaceResize, m.heap.config.chunk, fun extra => ∃ s, m.grant extra = .ok s⟩

inductive Allots (m : Machine) (blocks : List Block) (nodes : List Nat) (count : Nat) :
    Option Payload → Machine → Prop
  | denied {n : Machine} (heap : n.heap = m.heap) (segment : n.segment = m.segment)
      (denies : m.Denies blocks nodes count) : Allots m blocks nodes count none n
  | served {n : Machine} {p : Payload} {wanted growth : Nat} {new : List Block}
      {nodes' : List Nat} (positive : 0 < count) (adjusted : adjustedSize count = some wanted)
      (settled : n.heap.Settled new nodes')
      (serves : m.Serves n blocks nodes wanted growth p.offset new) :
      Allots m blocks nodes count (some p) n

def noting (m : Machine) (event : Event) : Machine := { m with log := m.log.push event }

@[simp] theorem heap_noting (m : Machine) (event : Event) : (m.noting event).heap = m.heap := rfl

@[simp] theorem segment_noting (m : Machine) (event : Event) :
    (m.noting event).segment = m.segment := rfl

variable {m : Machine} {blocks l₁ l₂ : List Block} {b : Block} {nodes : List Nat}
  {count wanted : Nat}

theorem initialized_ok (settled : m.heap.Settled blocks nodes) :
    m.heap.requireInitialized = .ok () := by
  rw [Heap.requireInitialized, settled.initialized]
  rfl

theorem allocate_zero (settled : m.heap.Settled blocks nodes) : allocate 0 m = .ok none m := by
  rw [allocate, bind_of_ok (observe_of_ok (initialized_ok settled))]
  rfl

theorem allocate_tooLarge (settled : m.heap.Settled blocks nodes) (positive : 0 < count)
    (unfit : adjustedSize count = none) :
    allocate count m = .ok none (m.noting (.requestTooLarge count)) := by
  rw [allocate, bind_of_ok (observe_of_ok (initialized_ok settled)), if_neg (by omega), unfit]
  rfl

section adjusted

variable (settled : m.heap.Settled blocks nodes) (positive : 0 < count)
  (adjusted : adjustedSize count = some wanted)
include settled adjusted

theorem need_bounds : 16 ≤ m.heap.need wanted ∧ m.heap.need wanted % 8 = 0 ∧
    m.heap.need wanted ≤ maxBlock ∧ wanted ≤ m.heap.need wanted := by
  obtain ⟨large, even, fits, _⟩ := adjustedSize_bounds adjusted
  obtain ⟨large', fits', even'⟩ := chunk_bounds settled.valid
  simp only [Heap.need]
  omega

theorem run_acquire_grown (none : m.heap.candidate blocks nodes wanted = none)
    {segment : Segment} (granted : m.grant (m.heap.need wanted) = .ok segment) :
    ∃ n front w, acquire wanted m = .ok (.ok w.payload) n ∧
      Block.merge (blocks ++ [⟨m.heap.size, m.heap.need wanted, false⟩]) = front ++ [w] ∧
      w.allocated = false ∧ m.heap.need wanted ≤ w.size ∧
      n.heap.Settled (front ++ [w]) (m.heap.strategy.enlist w.payload (w.outside nodes)) ∧
      n.heap.cursor = (m.heap.steer w.rewind).cursor ∧
      Grows .none (m.heap.need wanted) (fun i => m.heap.size ≤ i + 4 ∨ Block.Spare blocks i)
        m n := by
  obtain ⟨large, even, fits, _⟩ := need_bounds settled adjusted
  obtain ⟨n, front, w, ran, merged, free, wide, kept, cursor, aims, grows⟩ :=
    run_annex settled.keeps settled.coalesced settled.aims granted large even
  have extended := extend_eq even fits settled.keeps.spelt.bounded
  rw [granted] at extended
  refine ⟨n, front, w, ?_, merged, free, wide, grows.settled settled kept ?_ aims, cursor, grows⟩
  · rw [acquire, bind_of_ok (findFit_none settled.keeps settled.aims none)]
    exact extended.trans (bind_of_ok ran)
  · exact merged ▸ Block.coalesced_merge _

include positive

theorem allocate_eq : allocate count m = (acquire wanted >>= fun
      | .error error => do
        note (.allocationFailed count error)
        return none
      | .ok bp => do
        place bp wanted
        note (.allocated count wanted bp)
        return some ⟨bp⟩) m := by
  rewrite [allocate, bind_of_ok (observe_of_ok (initialized_ok settled)), if_neg (by omega),
    adjusted]
  rfl

theorem allocate_refused {error : HeapError} (none : m.heap.candidate blocks nodes wanted = none)
    (refused : m.grant (m.heap.need wanted) = .error error) :
    allocate count m = .ok .none (m.noting (.allocationFailed count error)) := by
  obtain ⟨_, even, fits, _⟩ := need_bounds settled adjusted
  have extended := extend_eq even fits settled.keeps.spelt.bounded
  rw [refused] at extended
  have got : acquire wanted m = .ok (.error error) m := by
    rw [acquire, bind_of_ok (findFit_none settled.keeps settled.aims none)]
    exact extended
  rw [allocate_eq settled positive adjusted, bind_of_ok got]
  rfl

end adjusted

theorem run_allocate_found (settled : m.heap.Settled (l₁ ++ b :: l₂) nodes) (positive : 0 < count)
    (adjusted : adjustedSize count = some wanted)
    (found : m.heap.candidate (l₁ ++ b :: l₂) nodes wanted = some b.payload) :
    ∃ n, allocate count m =
        .ok (some ⟨b.payload⟩) (n.noting (.allocated count wanted b.payload)) ∧
      n.heap.Settled (l₁ ++ b.carve wanted ++ l₂)
        (b.relist wanted m.heap.strategy (nodes.erase b.payload)) ∧
      n.heap.cursor = (m.heap.steer fun _ => b.payload + b.share wanted).cursor ∧
      Tidies (some b.payload) (Block.Spare (l₁ ++ b :: l₂)) m n := by
  obtain ⟨large, even, _, _⟩ := adjustedSize_bounds adjusted
  obtain ⟨c, mem, same, free, enough⟩ := Heap.exists_of_candidate found
  cases settled.keeps.spelt.tiled.eq_of_payload mem (by simp) same
  have got : acquire wanted m = .ok (.ok b.payload)
      { m with heap := m.heap.steer fun _ => b.payload } := by
    rw [acquire, bind_of_ok (findFit_some settled.keeps settled.aims found)]
    rfl
  obtain ⟨n, ran, kept, cursor, aims, edits⟩ := run_place
    (m := { m with heap := m.heap.steer fun _ => b.payload })
    (settled.keeps.steer fun _ => b.payload) free large even enough
  rw [Heap.strategy_steer] at kept
  have edits := (tidies_steer _ (Block.Spare (l₁ ++ b :: l₂)) m _).trans edits
  obtain ⟨below, above, _, closed⟩ := settled.coalesced.around free
  refine ⟨n, ?_, edits.settled settled kept (below.carve above closed b wanted) aims, ?_, edits⟩
  · rw [allocate_eq settled positive adjusted, bind_of_ok got]
    exact bind_of_ok ran
  · rw [cursor]
    exact Heap.cursor_steer_const (Heap.config_steer _ _) rfl _

theorem run_allocate_grown (settled : m.heap.Settled blocks nodes) (positive : 0 < count)
    (adjusted : adjustedSize count = some wanted)
    (none : m.heap.candidate blocks nodes wanted = none) {segment : Segment}
    (granted : m.grant (m.heap.need wanted) = .ok segment) :
    ∃ n front w, allocate count m =
        .ok (some ⟨w.payload⟩) (n.noting (.allocated count wanted w.payload)) ∧
      Block.merge (blocks ++ [⟨m.heap.size, m.heap.need wanted, false⟩]) = front ++ [w] ∧
      w.allocated = false ∧ m.heap.need wanted ≤ w.size ∧
      n.heap.Settled (front ++ w.carve wanted) (w.relist wanted m.heap.strategy
        ((m.heap.strategy.enlist w.payload (w.outside nodes)).erase w.payload)) ∧
      n.heap.cursor = (m.heap.steer fun _ => w.payload + w.share wanted).cursor ∧
      Grows (some w.payload) (m.heap.need wanted)
        (fun i => m.heap.size ≤ i + 4 ∨ Block.Spare blocks i) m n := by
  obtain ⟨large, even, _, _⟩ := adjustedSize_bounds adjusted
  obtain ⟨large', even', _, enough⟩ := need_bounds settled adjusted
  obtain ⟨k, front, w, got, merged, free, wide, settled', cursor, grows⟩ :=
    run_acquire_grown settled adjusted none granted
  obtain ⟨n, ran, kept, cursor', aims, edits⟩ :=
    run_place settled'.keeps free large even (Nat.le_trans enough wide)
  have tiled : Block.Tiles Heap.firstBlock (blocks ++ [⟨m.heap.size, m.heap.need wanted, false⟩])
      (m.heap.size + m.heap.need wanted) :=
    Block.tiles_append.2 ⟨_, settled.keeps.spelt.tiled,
      Block.tiles_singleton.2 ⟨rfl, large', even', rfl⟩⟩
  have touched : ∀ i, Block.Spare (front ++ [w]) i →
      m.heap.size ≤ i + 4 ∨ Block.Spare blocks i := by
    intro i spare
    rw [← merged] at spare
    rcases Block.spare_concat (Block.spare_merge tiled spare) with old | new
    · exact .inr old
    · exact .inl new.1
  have apart := (settled'.coalesced.around free).1.carve .nil (by simp) w wanted
  rw [Heap.strategy_eq grows.config, List.append_nil] at kept
  rw [List.append_nil] at aims apart
  refine ⟨n, front, w, ?_, merged, free, wide, edits.settled settled' kept apart aims, ?_,
    grows.trans (edits.mono touched)⟩
  · rw [allocate_eq settled positive adjusted, bind_of_ok got]
    exact bind_of_ok ran
  · rw [cursor']
    exact Heap.cursor_steer_const grows.config cursor _

theorem Preserves.trans {k n : Machine} (first : m.Preserves n b) (second : n.Preserves k b) :
    m.Preserves k b :=
  fun i inside => (second i inside).trans (first i inside)

theorem Edits.preserves {n : Machine} {touched : Nat → Prop} (edits : Edits touched m n)
    (apart : ∀ i, b.Covers i → ¬touched i) : m.Preserves n b :=
  fun i inside => edits.byte i (apart i inside)

theorem Stays.trans {k n : Machine} (first : m.Stays n) (second : n.Stays k) : m.Stays k :=
  ⟨second.segment.trans first.segment, second.backing.trans first.backing,
    second.config.trans first.config, second.size.trans first.size⟩

theorem Stays.noting {n : Machine} (stays : m.Stays n) (event : Event) : m.Stays (n.noting event) :=
  ⟨stays.segment, stays.backing, stays.config, stays.size⟩

theorem Edits.stays {n : Machine} {touched : Nat → Prop} (edits : Edits touched m n) : m.Stays n :=
  ⟨edits.segment, edits.backing, edits.config, edits.size⟩

theorem serves_found (settled : m.heap.Settled (l₁ ++ b :: l₂) nodes) (positive : 0 < count)
    (adjusted : adjustedSize count = some wanted)
    (found : m.heap.candidate (l₁ ++ b :: l₂) nodes wanted = some b.payload) :
    ∃ n, allocate count m = .ok (some ⟨b.payload⟩) n ∧
      m.Allots (l₁ ++ b :: l₂) nodes count (some ⟨b.payload⟩) n := by
  obtain ⟨n, ran, settled', _, edits⟩ := run_allocate_found settled positive adjusted found
  obtain ⟨c, mem, same, free, enough⟩ := Heap.exists_of_candidate found
  cases settled.keeps.spelt.tiled.eq_of_payload mem (by simp) same
  refine ⟨_, ran, .served positive adjusted settled'
    ⟨.found free enough, found, ?_, ?_, ?_, ?_, ?_, ?_⟩⟩
  · exact edits.segment
  · exact edits.backing
  · exact edits.config
  · exact edits.size
  · intro c mem live
    exact edits.preserves fun i inside => Block.not_spare settled.keeps.spelt.tiled mem live inside
  · exact fun _ i poses => (edits.headerLike i poses).imp_right Option.some.inj

theorem serves_grown (settled : m.heap.Settled blocks nodes) (positive : 0 < count)
    (adjusted : adjustedSize count = some wanted)
    (none : m.heap.candidate blocks nodes wanted = none) {segment : Segment}
    (granted : m.grant (m.heap.need wanted) = .ok segment) :
    ∃ p n, allocate count m = .ok (some p) n ∧ m.Allots blocks nodes count (some p) n := by
  obtain ⟨large, even, _, enough⟩ := need_bounds settled adjusted
  obtain ⟨n, front, w, ran, merged, _, _, settled', _, grows⟩ :=
    run_allocate_grown settled positive adjusted none granted
  have tiled := settled.keeps.spelt.tiled
  obtain ⟨before, last, rfl, free, closed⟩ := Block.exists_closed_below settled.coalesced
  obtain ⟨rfl, same⟩ := List.append_inj' ((Block.merge_topped tiled settled.coalesced free
    closed).symm.trans merged) rfl
  cases List.singleton_inj.1 same
  have positive' : m.heap.need wanted ≠ 0 := by omega
  refine ⟨_, _, ran, .served positive adjusted settled'
    ⟨.grown (by omega) even enough free closed, ?_, ?_, ?_, ?_, ?_, ?_, ?_⟩⟩
  · rw [if_neg positive', none]
  · rw [if_neg positive']
    exact ⟨rfl, grows.segment⟩
  · exact grows.backing
  · exact grows.config
  · exact grows.size
  · intro c mem live i inside
    have bounds := settled.keeps.spelt.bounds mem
    apply grows.byte i
    rintro (above | spare)
    · have := inside.2
      omega
    · exact Block.not_spare tiled mem live inside spare
  · exact fun even i poses => (grows.headerLike even i poses).imp_right Option.some.inj

theorem Denies.terms (settled : m.heap.Settled blocks nodes)
    (denies : m.Denies blocks nodes count) : m.terms.Denies blocks count := by
  intro wanted positive adjusted
  obtain ⟨missing, error, refused⟩ := denies wanted positive adjusted
  refine ⟨(Heap.candidate_eq_none_iff settled.keeps).1 missing, ?_⟩
  rintro ⟨segment, granted⟩
  cases refused.symm.trans granted

theorem Serves.expands {n : Machine} {new : List Block} {growth target : Nat}
    (settled : m.heap.Settled blocks nodes)
    (serves : m.Serves n blocks nodes wanted growth target new) :
    m.terms.Expands blocks wanted growth := by
  have chosen := serves.chosen
  have granted := serves.granted
  split at chosen
  · rename_i still
    exact .inl still
  · rename_i grown
    rw [if_neg grown] at granted
    exact .inr ⟨(Heap.candidate_eq_none_iff settled.keeps).1 chosen, granted.1, _, granted.2⟩

theorem run_allocate (settled : m.heap.Settled blocks nodes) (count : Nat) :
    ∃ reply n, allocate count m = .ok reply n ∧ m.Allots blocks nodes count reply n := by
  rcases Nat.eq_zero_or_pos count with rfl | positive
  · exact ⟨none, m, allocate_zero settled, .denied rfl rfl fun _ positive => by cases positive⟩
  cases adjusted : adjustedSize count with
  | none =>
    refine ⟨none, _, allocate_tooLarge settled positive adjusted, .denied rfl rfl ?_⟩
    intro wanted _ fits
    simp [adjusted] at fits
  | some wanted =>
    cases found : m.heap.candidate blocks nodes wanted with
    | some bp =>
      obtain ⟨b, mem, rfl, _⟩ := Heap.exists_of_candidate found
      obtain ⟨l₁, l₂, rfl⟩ := List.append_of_mem mem
      exact ⟨_, serves_found settled positive adjusted found⟩
    | none =>
      cases granted : m.grant (m.heap.need wanted) with
      | ok segment =>
        obtain ⟨p, served⟩ := serves_grown settled positive adjusted found granted
        exact ⟨some p, served⟩
      | error error =>
        refine ⟨none, _, allocate_refused settled positive adjusted found granted,
          .denied rfl rfl ?_⟩
        intro other _ fits
        cases adjusted.symm.trans fits
        exact ⟨found, error, granted⟩

inductive Ends (m : Machine) (blocks : List Block) (nodes : List Nat) (count : Nat) :
    Option Payload → Machine → Prop
  | void (zero : count = 0) : Ends m blocks nodes count none m
  | warned {event : Event} (positive : 0 < count) (warns : event.level = .warn) :
      Ends m blocks nodes count none (m.noting event)
  | found {n : Machine} {p : Payload} {wanted bp : Nat} (positive : 0 < count)
      (adjusted : adjustedSize count = some wanted)
      (found : m.heap.candidate blocks nodes wanted = some bp) :
      Ends m blocks nodes count (some p) n
  | grown {n : Machine} {p : Payload} {wanted : Nat} {segment : Segment} (positive : 0 < count)
      (adjusted : adjustedSize count = some wanted)
      (none : m.heap.candidate blocks nodes wanted = none)
      (granted : m.grant (m.heap.need wanted) = .ok segment) :
      Ends m blocks nodes count (some p) n

theorem allocate_ends (settled : m.heap.Settled blocks nodes) {reply : Option Payload} {n : Machine}
    (ran : allocate count m = .ok reply n) : m.Ends blocks nodes count reply n := by
  rcases Nat.eq_zero_or_pos count with rfl | positive
  · cases ran.symm.trans (allocate_zero settled)
    exact .void rfl
  cases adjusted : adjustedSize count with
  | none =>
    cases ran.symm.trans (allocate_tooLarge settled positive adjusted)
    exact .warned positive rfl
  | some wanted =>
    cases found : m.heap.candidate blocks nodes wanted with
    | some bp =>
      obtain ⟨b, mem, rfl, _⟩ := Heap.exists_of_candidate found
      obtain ⟨l₁, l₂, rfl⟩ := List.append_of_mem mem
      obtain ⟨k, ran', _⟩ := run_allocate_found settled positive adjusted found
      cases ran.symm.trans ran'
      exact .found positive adjusted found
    | none =>
      cases granted : m.grant (m.heap.need wanted) with
      | ok segment =>
        obtain ⟨k, front, w, ran', _⟩ :=
          run_allocate_grown settled positive adjusted found granted
        cases ran.symm.trans ran'
        exact .grown positive adjusted found granted
      | error error =>
        cases ran.symm.trans (allocate_refused settled positive adjusted found granted)
        exact .warned positive rfl

theorem run_release (settled : m.heap.Settled (l₁ ++ b :: l₂) nodes) (live : b.allocated = true) :
    ∃ n front w back, release ⟨b.payload⟩ m =
        .ok () (n.noting (.released b.payload b.size w.payload)) ∧
      Block.merge (l₁ ++ b.released :: l₂) = front ++ w :: back ∧ w.allocated = false ∧
      w.payload ≤ b.payload ∧ b.payload + b.size ≤ w.payload + w.size ∧
      n.heap.Settled (front ++ w :: back)
        (m.heap.strategy.enlist w.payload (w.outside nodes)) ∧
      n.heap.cursor = (m.heap.steer w.rewind).cursor ∧
      Tidies none (fun i => b.Covers i ∨ Block.Spare (l₁ ++ b :: l₂) i) m n ∧
      ∀ i, n.heap.HeaderLike i → b.payload ≠ i + 4 := by
  have mem : b ∈ l₁ ++ b :: l₂ := by simp
  obtain ⟨tag, read, size, _⟩ := settled.keeps.spelt.allocatedTag mem live .release
  have parted : m.heap.Keeps (l₁ ++ [b] ++ l₂) nodes [] := by simpa using settled.keeps
  obtain ⟨tag', k, made, ran, kept, cursor, edits⟩ := run_setBlock (c := b.released) parted
    (by simp [Block.free, live]) fun lo hi tiled => by
      simpa [Block.Tiles, Block.released] using tiled
  obtain ⟨below, above, _⟩ := List.isChain_append.1 settled.coalesced
  have kept : k.heap.Keeps (l₁ ++ b.released :: l₂) nodes [b.payload] := by
    simpa [Block.free, Block.released] using kept
  have aims : k.heap.Aims (l₁ ++ b.released :: l₂) :=
    settled.aims.transfer edits.config edits.size cursor (by simp [Block.released])
  obtain ⟨n, front, w, back, ran', merged, free, start, stop, kept', cursor', aims', edits'⟩ :=
    run_merge kept below above.tail aims
  have changes : Tidies none (fun i => b.Covers i ∨ Block.Spare (l₁ ++ b :: l₂) i) m n :=
    (edits.mono fun i mark => .inl mark.1).trans (edits'.mono fun _ => Block.spare_released)
  rw [Heap.strategy_eq edits.config] at kept'
  refine ⟨n, front, w, back, ?_, merged, free, start, stop,
    changes.settled settled kept' (merged ▸ Block.coalesced_merge _) aims',
    cursor'.trans (Heap.cursor_steer_congr edits.config cursor _), changes, ?_⟩
  rotate_left
  · intro i poses here
    have poses := (edits'.headerLike i poses).resolve_right (by simp)
    have header := (kept.spelt.bracketed b.released (by simp)).header.2
    rw [Block.released, here, Nat.add_sub_cancel] at header
    exact Bool.false_ne_true (header.symm.trans ((Memory.allocated_tag _ i).2 poses.flag))
  have made : Tag.make b.size false = .ok tag' := made
  rw [release, bind_of_ok (observe_of_ok (initialized_ok settled)),
    bind_of_ok (observe_of_ok read), size, made, bind_of_ok (liftM_ok _ _)]
  exact (bind_of_ok ran).trans ((bind_of_ok ran').trans rfl)

theorem releases (settled : m.heap.Settled blocks nodes) (mem : b ∈ blocks)
    (live : b.allocated = true) :
    ∃ n new nodes', release ⟨b.payload⟩ m = .ok () n ∧ n.heap.Settled new nodes' ∧
      Block.Releases b.payload blocks new ∧ m.Stays n ∧
      ∀ c ∈ blocks, c.allocated = true → c.payload ≠ b.payload → m.Preserves n c := by
  have tiled := settled.keeps.spelt.tiled
  obtain ⟨l₁, l₂, rfl⟩ := List.append_of_mem mem
  obtain ⟨n, front, w, back, ran, merged, _, _, _, settled', _, edits, _⟩ :=
    run_release settled live
  refine ⟨_, _, _, ran, settled', ?_, edits.stays.noting _, ?_⟩
  · rw [← merged]
    exact .of_merge tiled settled.coalesced live
  · intro c mem' live' different i inside
    apply edits.byte i
    rintro (covered | spare)
    · exact different (congrArg _ (tiled.eq_of_covers mem' mem inside covered))
    · exact Block.not_spare tiled mem' live' inside spare

theorem headerLike_release (settled : m.heap.Settled blocks nodes) (mem : b ∈ blocks)
    (live : b.allocated = true) {n : Machine} (ran : release ⟨b.payload⟩ m = .ok () n) {i : Nat}
    (poses : n.heap.HeaderLike i) : m.heap.HeaderLike i ∧ b.payload ≠ i + 4 := by
  obtain ⟨l₁, l₂, rfl⟩ := List.append_of_mem mem
  obtain ⟨k, _, _, _, ran', _, _, _, _, _, _, edits, unlike⟩ := run_release settled live
  cases ran.symm.trans ran'
  exact ⟨(edits.headerLike i poses).resolve_right nofun, unlike i poses⟩

end Machine

end BoundaryTag
