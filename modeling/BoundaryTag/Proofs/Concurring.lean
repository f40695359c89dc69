import BoundaryTag.Proofs.Resizing

namespace BoundaryTag

namespace Region

def answers (r : Region) (s : Segment) : List Nat → List (Option RegionError)
  | [] => []
  | extra :: rest =>
    match r.grow extra s with
    | .error error => some error :: r.answers s rest
    | .ok (r, s) => none :: r.answers s rest

variable {r r' : Region} {s grown : Segment} {extra : Nat} {error : RegionError}

theorem reserve_congr (backing : r.backing = r'.backing) (size : r.size = r'.size) :
    r.reserve extra s = r'.reserve extra s := by
  rw [reserve, reserve, attempt, attempt, available, available, backing, size]

theorem answers_refused (refused : r.reserve extra s = .error error) (rest : List Nat) :
    r.answers s (extra :: rest) = some error :: r.answers s rest := by
  rw [answers, grow, refused]
  rfl

theorem answers_granted (granted : r.reserve extra s = .ok grown) (rest : List Nat) :
    r.answers s (extra :: rest) = none :: (r.extended extra grown).answers grown rest := by
  rw [answers, grow, granted]
  rfl

theorem answers_congr (backing : r.backing = r'.backing) (size : r.size = r'.size)
    (requests : List Nat) : r.answers s requests = r'.answers s requests := by
  induction requests generalizing r r' s with
  | nil => rfl
  | cons extra rest ih =>
    have same := @reserve_congr r r' s extra backing size
    cases reserved : r.reserve extra s with
    | error error =>
      rw [answers_refused reserved, answers_refused (same.symm.trans reserved), ih backing size]
    | ok grown =>
      rw [answers_granted reserved, answers_granted (same.symm.trans reserved)]
      refine congrArg _ (ih backing ?_)
      rw [size_extended, size_extended, size]

theorem answers_extended (backing : r'.backing = r.backing) (size : r'.size = r.size + extra)
    (requests : List Nat) : (r.extended extra s).answers s requests = r'.answers s requests := by
  have backing : (r.extended extra s).backing = r'.backing := backing.symm
  exact answers_congr backing ((size_extended r extra s).trans size.symm) requests

end Region

namespace Machine

def Alike (m n : Machine) : Prop :=
  ∀ requests, m.heap.region.answers m.segment requests = n.heap.region.answers n.segment requests

/-- Two heaps with the same blocks, which choose alike and grow alike. -/
structure Concurs (m n : Machine) (blocks : List Block) (nodes nodes' : List Nat) : Prop where
  settled : m.heap.Settled blocks nodes
  settled' : n.heap.Settled blocks nodes'
  chosen : ∀ wanted, m.heap.candidate blocks nodes wanted = n.heap.candidate blocks nodes' wanted
  chunk : m.heap.config.chunk = n.heap.config.chunk
  inPlace : m.heap.config.inPlaceResize = n.heap.config.inPlaceResize
  alike : m.Alike n

def Matches (m n : Machine) (action : Action α) : Prop :=
  ∃ reply m' n' blocks nodes nodes', action m = .ok reply m' ∧ action n = .ok reply n' ∧
    m'.heap.Settled blocks nodes ∧ n'.heap.Settled blocks nodes' ∧ m'.Alike n'

variable {m m' n n' k l : Machine} {blocks l₁ l₂ middle middle' new new' : List Block} {b : Block}
  {nodes nodes' : List Nat} {extra count wanted growth growth' target target' : Nat}

namespace Alike

theorem symm (alike : m.Alike n) : n.Alike m := fun requests => (alike requests).symm

theorem congr (alike : m.Alike n) (first : m.Stays m') (second : n.Stays n') : m'.Alike n' := by
  intro requests
  rw [first.segment, second.segment, Region.answers_congr first.backing first.size,
    Region.answers_congr second.backing second.size]
  exact alike requests

theorem reserve (alike : m.Alike n) (extra : Nat) :
    (∃ error, m.heap.region.reserve extra m.segment = .error error ∧
      n.heap.region.reserve extra n.segment = .error error) ∨
    ∃ s t, m.heap.region.reserve extra m.segment = .ok s ∧
      n.heap.region.reserve extra n.segment = .ok t := by
  have same := alike [extra]
  cases first : m.heap.region.reserve extra m.segment with
  | error error =>
    rw [Region.answers_refused first] at same
    cases second : n.heap.region.reserve extra n.segment with
    | error other =>
      rw [Region.answers_refused second] at same
      obtain ⟨reason, _⟩ := List.cons_eq_cons.1 same
      cases reason
      exact .inl ⟨_, rfl, rfl⟩
    | ok t =>
      rw [Region.answers_granted second] at same
      cases (List.cons_eq_cons.1 same).1
  | ok s =>
    rw [Region.answers_granted first] at same
    cases second : n.heap.region.reserve extra n.segment with
    | error other =>
      rw [Region.answers_refused second] at same
      cases (List.cons_eq_cons.1 same).1
    | ok t => exact .inr ⟨_, _, rfl, rfl⟩

theorem grown (alike : m.Alike n)
    (granted : m.heap.region.reserve extra m.segment = .ok m'.segment)
    (granted' : n.heap.region.reserve extra n.segment = .ok n'.segment)
    (backing : m'.heap.region.backing = m.heap.region.backing)
    (backing' : n'.heap.region.backing = n.heap.region.backing)
    (size : m'.heap.size = m.heap.size + extra) (size' : n'.heap.size = n.heap.size + extra) :
    m'.Alike n' := by
  intro requests
  have same := alike (extra :: requests)
  rw [Region.answers_granted granted, Region.answers_granted granted'] at same
  rw [Region.answers_extended backing size, Region.answers_extended backing' size'] at same
  exact (List.cons_eq_cons.1 same).2

theorem grant (alike : m.Alike n) (size : m.heap.size = n.heap.size) (extra : Nat) :
    (∃ error, m.grant extra = .error error ∧ n.grant extra = .error error) ∨
      ∃ s t, m.grant extra = .ok s ∧ n.grant extra = .ok t := by
  rw [Machine.grant, Machine.grant, size]
  split
  · exact .inl ⟨_, rfl, rfl⟩
  · rcases alike.reserve extra with ⟨error, first, second⟩ | ⟨s, t, first, second⟩
    · rw [first, second]
      exact .inl ⟨_, rfl, rfl⟩
    · rw [first, second]
      exact .inr ⟨_, _, rfl, rfl⟩

end Alike

theorem Matches.map {action : Action α} (matched : m.Matches n action) (view : α → β) :
    m.Matches n (do return view (← action)) := by
  obtain ⟨reply, m', n', blocks, a, b, ran, ran', rest⟩ := matched
  exact ⟨view reply, m', n', blocks, a, b, bind_of_ok ran, bind_of_ok ran', rest⟩

theorem Stays.of_same (heap : n.heap = m.heap) (segment : n.segment = m.segment) : m.Stays n :=
  ⟨segment, by rw [heap], by rw [heap], by rw [heap]⟩

namespace Concurs

theorem refl (settled : m.heap.Settled blocks nodes) : m.Concurs m blocks nodes nodes :=
  ⟨settled, settled, fun _ => rfl, rfl, rfl, fun _ => rfl⟩

theorem symm (concurs : m.Concurs n blocks nodes nodes') : n.Concurs m blocks nodes' nodes :=
  ⟨concurs.settled', concurs.settled, fun wanted => (concurs.chosen wanted).symm,
    concurs.chunk.symm, concurs.inPlace.symm, concurs.alike.symm⟩

variable (concurs : m.Concurs n blocks nodes nodes')
include concurs

theorem size : m.heap.size = n.heap.size :=
  concurs.settled.keeps.spelt.tiled.stop_eq.trans concurs.settled'.keeps.spelt.tiled.stop_eq.symm

theorem need : m.heap.need wanted = n.heap.need wanted := by
  rw [Heap.need, Heap.need, concurs.chunk]

theorem not_denies (positive : 0 < count) (adjusted : adjustedSize count = some wanted)
    (serves : m.Serves k blocks nodes wanted growth target new) :
    ¬n.Denies blocks nodes' count := by
  intro denies
  obtain ⟨none, error, refused⟩ := denies wanted positive adjusted
  have chosen := serves.chosen
  have granted := serves.granted
  rw [concurs.chosen, none] at chosen
  by_cases found : growth = 0
  · rw [if_pos found] at chosen
    cases chosen
  · rw [if_neg found] at granted
    obtain ⟨rfl, granted⟩ := granted
    rw [concurs.need] at granted
    rcases concurs.alike.grant concurs.size (n.heap.need wanted) with
      ⟨_, first, _⟩ | ⟨_, _, _, second⟩
    · cases granted.symm.trans first
    · cases refused.symm.trans second

theorem serves (first : m.Serves k blocks nodes wanted growth target new)
    (second : n.Serves l blocks nodes' wanted growth' target' new') :
    target = target' ∧ new = new' ∧ k.Alike l := by
  have chosen := (first.chosen.symm.trans (concurs.chosen wanted)).trans second.chosen
  have granted := first.granted
  have granted' := second.granted
  have tiled := concurs.settled.keeps.spelt.tiled
  -- neither grows, or both do: what was chosen is the same
  by_cases found : growth = 0
  · by_cases found' : growth' = 0
    · rw [if_pos found, if_pos found'] at chosen
      cases chosen
      rw [if_pos found] at granted
      rw [if_pos found'] at granted'
      subst found found'
      obtain ⟨_, rfl⟩ := first.allocates.unique tiled second.allocates fun _ => rfl
      exact ⟨rfl, rfl, concurs.alike.congr ⟨granted, first.backing, first.config, first.size⟩
        ⟨granted', second.backing, second.config, second.size⟩⟩
    · rw [if_pos found, if_neg found'] at chosen
      cases chosen
  · by_cases found' : growth' = 0
    · rw [if_neg found, if_pos found'] at chosen
      cases chosen
    · rw [if_neg found] at granted
      rw [if_neg found'] at granted'
      obtain ⟨rfl, granted⟩ := granted
      obtain ⟨rfl, granted'⟩ := granted'
      have backing := first.backing
      have size := first.size
      have allocates := first.allocates
      rw [concurs.need] at granted size allocates found
      obtain ⟨rfl, rfl⟩ := allocates.unique tiled second.allocates fun none => absurd none found'
      exact ⟨rfl, rfl, concurs.alike.grown (size_le_of_grant granted).2
        (size_le_of_grant granted').2 backing second.backing size second.size⟩

theorem allots {reply reply' : Option Payload} (first : m.Allots blocks nodes count reply m')
    (second : n.Allots blocks nodes' count reply' n') :
    reply = reply' ∧ m'.Alike n' ∧
      ∃ new a b, m'.heap.Settled new a ∧ n'.heap.Settled new b := by
  cases first with
  | denied heap segment denies =>
    cases second with
    | denied heap' segment' _ =>
      exact ⟨rfl, concurs.alike.congr (.of_same heap segment) (.of_same heap' segment'), blocks,
        nodes, nodes', heap ▸ concurs.settled, heap' ▸ concurs.settled'⟩
    | served positive adjusted _ serves =>
      exact absurd denies (concurs.symm.not_denies positive adjusted serves)
  | @served _ p _ _ new a positive adjusted settled serves =>
    cases second with
    | denied _ _ denies => exact absurd denies (concurs.not_denies positive adjusted serves)
    | @served _ q _ _ _ b _ adjusted' settled' serves' =>
      cases adjusted.symm.trans adjusted'
      obtain ⟨same, rfl, alike⟩ := concurs.serves serves serves'
      have same : p = q := congrArg Payload.mk same
      exact ⟨congrArg some same, alike, new, a, b, settled, settled'⟩

theorem moves {reply reply' : Option Payload} (first : m.Moves blocks nodes b count reply m')
    (second : n.Moves blocks nodes' b count reply' n') :
    reply = reply' ∧ m'.Alike n' ∧
      ∃ new a b, m'.heap.Settled new a ∧ n'.heap.Settled new b := by
  cases first with
  | denied heap segment denies =>
    cases second with
    | denied heap' segment' _ =>
      exact ⟨rfl, concurs.alike.congr (.of_same heap segment) (.of_same heap' segment'), blocks,
        nodes, nodes', heap ▸ concurs.settled, heap' ▸ concurs.settled'⟩
    | served positive adjusted _ serves =>
      exact absurd denies (concurs.symm.not_denies positive adjusted serves)
  | @served _ _ p _ _ middle new a positive adjusted settled serves releases stays =>
    cases second with
    | denied _ _ denies => exact absurd denies (concurs.not_denies positive adjusted serves)
    | @served _ _ q _ _ _ _ b _ adjusted' settled' serves' releases' stays' =>
      cases adjusted.symm.trans adjusted'
      obtain ⟨large, even, _⟩ := adjustedSize_bounds adjusted
      obtain ⟨same, rfl, alike⟩ := concurs.serves serves serves'
      have same : p = q := congrArg Payload.mk same
      have tiled := serves.allocates.tiles concurs.settled.keeps.spelt.tiled large even
      have coalesced := serves.allocates.coalesced concurs.settled.coalesced
      cases releases.unique tiled coalesced releases'
      exact ⟨congrArg some same, alike.congr stays stays', new, a, b, settled, settled'⟩

theorem unchanged {action : Action α} {reply : α} (ran : action m = .ok reply m')
    (ran' : action n = .ok reply n') (heap : m'.heap = m.heap) (heap' : n'.heap = n.heap)
    (segment : m'.segment = m.segment) (segment' : n'.segment = n.segment) :
    m.Matches n action :=
  ⟨reply, m', n', blocks, nodes, nodes', ran, ran', heap ▸ concurs.settled,
    heap' ▸ concurs.settled', concurs.alike.congr (.of_same heap segment)
      (.of_same heap' segment')⟩

theorem init : m.Matches n init :=
  concurs.unchanged (init_again concurs.settled.initialized)
    (init_again concurs.settled'.initialized) rfl rfl rfl rfl

theorem allocate (count : Nat) : m.Matches n (allocate count) := by
  obtain ⟨reply, m', ran, first⟩ := run_allocate concurs.settled count
  obtain ⟨reply', n', ran', second⟩ := run_allocate concurs.settled' count
  obtain ⟨rfl, alike, new, a, b, settled, settled'⟩ := concurs.allots first second
  exact ⟨reply, m', n', new, a, b, ran, ran', settled, settled', alike⟩

theorem resize_none (count : Nat) : m.Matches n (resize none count) := by
  obtain ⟨reply, m', n', new, a, b, ran, ran', rest⟩ := concurs.allocate count
  rw [← Machine.resize_none concurs.settled] at ran
  rw [← Machine.resize_none concurs.settled'] at ran'
  exact ⟨reply, m', n', new, a, b, ran, ran', rest⟩

section live

variable (mem : b ∈ blocks) (live : b.allocated = true)
include mem live

theorem release : m.Matches n (release ⟨b.payload⟩) := by
  obtain ⟨m', new, a, ran, settled, freed, stays, _⟩ := releases concurs.settled mem live
  obtain ⟨n', _, c, ran', settled', freed', stays', _⟩ := releases concurs.settled' mem live
  cases freed.unique concurs.settled.keeps.spelt.tiled concurs.settled.coalesced freed'
  exact ⟨(), m', n', new, a, c, ran, ran', settled, settled', concurs.alike.congr stays stays'⟩

theorem resize (count : Nat) : m.Matches n (resize (some ⟨b.payload⟩) count) := by
  rcases Nat.eq_zero_or_pos count with rfl | positive
  · obtain ⟨_, m', n', new, a, c, ran, ran', rest⟩ := concurs.release mem live
    refine ⟨none, m', n', new, a, c, ?_, ?_, rest⟩
    · rw [resize_zero concurs.settled]
      exact bind_of_ok ran
    · rw [resize_zero concurs.settled']
      exact bind_of_ok ran'
  · obtain ⟨l₁, l₂, rfl⟩ := List.append_of_mem mem
    cases adjusted : adjustedSize count with
    | none =>
      exact concurs.unchanged (resize_tooLarge concurs.settled positive _ adjusted)
        (resize_tooLarge concurs.settled' positive _ adjusted) rfl rfl rfl rfl
    | some wanted =>
      by_cases outgrown : m.heap.config.inPlaceResize = true → b.Outgrown wanted l₂
      · obtain ⟨reply, m', ran, first⟩ :=
          resize_away concurs.settled live positive adjusted outgrown
        obtain ⟨reply', n', ran', second⟩ :=
          resize_away concurs.settled' live positive adjusted (concurs.inPlace ▸ outgrown)
        obtain ⟨rfl, alike, new, a, c, settled, settled'⟩ := concurs.moves first second
        exact ⟨reply, m', n', new, a, c, ran, ran', settled, settled', alike⟩
      · obtain ⟨allowed, room⟩ := Classical.not_imp.1 outgrown
        obtain ⟨run, fits⟩ := Option.ne_none_iff_exists'.1 (mt Block.refit_eq_none_iff.1 room)
        obtain ⟨m', a, ran, settled, stays, _⟩ :=
          resize_here concurs.settled live positive adjusted allowed fits
        obtain ⟨n', c, ran', settled', stays', _⟩ := resize_here concurs.settled' live positive
          adjusted (concurs.inPlace ▸ allowed) fits
        exact ⟨_, m', n', _, a, c, ran, ran', settled, settled', concurs.alike.congr stays stays'⟩

theorem write {start : Nat} {data : ByteArray} (fits : start + data.size + 8 ≤ b.size) :
    m.Matches n (writePayload ⟨b.payload⟩ start data) := by
  have ran := run_writePayload concurs.settled mem live fits
  have ran' := run_writePayload concurs.settled' mem live fits
  have low : b.payload ≤ b.payload + start := Nat.le_add_right _ _
  have high : b.payload + start + data.size + 8 ≤ b.payload + b.size := by omega
  refine ⟨(), _, _, blocks, nodes, nodes', ran, ran', concurs.settled.overwrite mem live low high,
    concurs.settled'.overwrite mem live low high, concurs.alike.congr ?_ ?_⟩
  · exact ⟨rfl, rfl, rfl, Heap.size_overwritten⟩
  · exact ⟨rfl, rfl, rfl, Heap.size_overwritten⟩

end live

end Concurs

theorem Alike.founded (alike : m.Alike n) (blank : m.heap.Blank) (blank' : n.heap.Blank)
    {s t : Segment} (granted : m.heap.region.reserve 16 m.segment = .ok s)
    (granted' : n.heap.region.reserve 16 n.segment = .ok t) :
    (m.founded s).Alike (n.founded t) := by
  refine alike.grown granted granted' rfl rfl ?_ ?_
  · rw [size_founded s blank.size, blank.size]
  · rw [size_founded t blank'.size, blank'.size]

theorem Alike.init (alike : m.Alike n) (blank : m.heap.Blank) (blank' : n.heap.Blank)
    (chunk : m.heap.config.chunk = n.heap.config.chunk) :
    ∃ result m' n', Machine.init m = .ok result m' ∧ Machine.init n = .ok result n' ∧
      m'.Alike n' ∧ (m'.heap.Blank ∧ n'.heap.Blank ∨ ∃ blocks nodes nodes',
        m'.heap.Settled blocks nodes ∧ n'.heap.Settled blocks nodes' ∧
          ∀ b ∈ blocks, b.allocated = false) := by
  have same : m.heap.config.isValid = n.heap.config.isValid := by
    rw [Config.isValid, Config.isValid, chunk]
  cases valid : m.heap.config.isValid with
  | false =>
    refine ⟨_, m, n, init_invalid blank.initialized valid, ?_, alike, .inl ⟨blank, blank'⟩⟩
    rw [chunk]
    exact init_invalid blank'.initialized (same ▸ valid)
  | true =>
    have valid' := same ▸ valid
    rcases alike.reserve 16 with ⟨error, refused, refused'⟩ | ⟨s, t, granted, granted'⟩
    · exact ⟨_, m, n, init_refused blank.initialized valid refused,
        init_refused blank'.initialized valid' refused', alike, .inl ⟨blank, blank'⟩⟩
    · have founded := alike.founded blank blank' granted granted'
      have size := (size_founded s blank.size).trans (size_founded t blank'.size).symm
      rcases founded.grant size m.heap.config.chunk with
        ⟨error, refused, refused'⟩ | ⟨s', t', seeded, seeded'⟩
      · refine ⟨.error error, _, _, ?_, ?_, founded, .inr ⟨[], [], [],
          settled_founded s blank valid, settled_founded t blank' valid', by simp⟩⟩
        · rw [init_eq blank.initialized blank.size valid granted, refused]
        · rw [init_eq blank'.initialized blank'.size valid' granted', ← chunk, refused']
      · obtain ⟨m', ran, settled, segment, backing, _⟩ := run_init blank valid granted seeded
        rw [chunk] at seeded'
        obtain ⟨n', ran', settled', segment', backing', _⟩ :=
          run_init blank' valid' granted' seeded'
        rw [← chunk] at seeded' settled'
        have first := (size_le_of_grant seeded).2
        have second := (size_le_of_grant seeded').2
        rw [← segment] at first
        rw [← segment'] at second
        refine ⟨.ok (), m', n', ran, ran', founded.grown first second backing backing' ?_ ?_,
          .inr ⟨_, _, _, settled, settled', by simp⟩⟩
        · rw [size_founded s blank.size]
          exact settled.keeps.spelt.tiled.stop_eq
        · rw [size_founded t blank'.size]
          exact settled'.keeps.spelt.tiled.stop_eq

end Machine

end BoundaryTag
