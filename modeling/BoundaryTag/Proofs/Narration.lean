import BoundaryTag.Proofs.Sessions

namespace BoundaryTag

namespace Event

def replay (live : List Nat) : Event → Option (List Nat)
  | allocated _ _ payload => if payload ∈ live then none else some (payload :: live)
  | released payload _ _ => if payload ∈ live then some (live.erase payload) else none
  | _ => some live

def extent : List Event → Nat
  | [] => 0
  | extended size _ :: rest => size + extent rest
  | _ :: rest => extent rest

def warnings (events : List Event) : Nat := events.countP (·.level = .warn)

def isPlain : Event → Bool
  | split .. | coalesced .. | initialized .. | resizedInPlace .. | resizedByCopy .. => true
  | _ => false

theorem extent_append (first second : List Event) :
    extent (first ++ second) = extent first + extent second := by
  induction first with
  | nil => simp [extent]
  | cons event rest ih => cases event <;> simp [extent, ih, Nat.add_assoc]

theorem warnings_append (first second : List Event) :
    warnings (first ++ second) = warnings first + warnings second := List.countP_append

theorem plain_cons {event : Event} (plain : event.isPlain = true) (rest : List Event) :
    extent (event :: rest) = extent rest ∧ warnings (event :: rest) = warnings rest ∧
      ∀ live, event.replay live = some live := by
  cases event <;> simp_all [isPlain, extent, warnings, level, replay]

theorem plain_run {events : List Event} (plain : ∀ event ∈ events, event.isPlain = true) :
    extent events = 0 ∧ warnings events = 0 ∧
      ∀ live, events.foldlM replay live = some live := by
  induction events with
  | nil => exact ⟨rfl, rfl, fun _ => rfl⟩
  | cons event rest ih =>
    obtain ⟨extent, warned, told⟩ := plain_cons (plain event (by simp)) rest
    obtain ⟨extent', warned', told'⟩ := ih fun other mem => plain other (by simp [mem])
    refine ⟨extent.trans extent', warned.trans warned', fun live => ?_⟩
    rw [List.foldlM_cons, told]
    exact told' live

theorem plain_remarks {remarks : Array Event} (quiet : ∀ event ∈ remarks, event.isRemark = true) :
    extent remarks.toList = 0 ∧ warnings remarks.toList = 0 ∧
      ∀ live, remarks.toList.foldlM replay live = some live := by
  refine plain_run fun event mem => ?_
  have remark := quiet event (Array.mem_toList_iff.1 mem)
  cases event <;> first | rfl | cases remark

end Event

def Request.warnings : Request → Reply → Nat
  | .allocate count, .handed none | .resize _ count, .handed none => if count = 0 then 0 else 1
  | _, _ => 0

namespace Ledger

structure Lists (ledger : Ledger) (live : List Nat) : Prop where
  nodup : live.Nodup
  mem_iff : ∀ bp, bp ∈ live ↔ (ledger bp).isSome = true

variable {ledger other : Ledger} {live : List Nat} {bp target count wanted size merged : Nat}

theorem Lists.congr (lists : ledger.Lists live)
    (same : ∀ bp, (other bp).isSome = (ledger bp).isSome) : other.Lists live :=
  ⟨lists.nodup, fun bp => by rw [same, lists.mem_iff]⟩

theorem Lists.allocated (lists : ledger.Lists live) (fresh : ledger bp = none)
    (holding : Holding) : ∃ live', Event.replay live (.allocated count wanted bp) = some live' ∧
      (ledger.put bp holding).Lists live' := by
  have absent : bp ∉ live := by
    rw [lists.mem_iff, fresh]
    exact Bool.false_ne_true
  refine ⟨bp :: live, if_neg absent, List.nodup_cons.2 ⟨absent, lists.nodup⟩, fun n => ?_⟩
  rw [List.mem_cons, lists.mem_iff, put]
  by_cases here : n = bp <;> simp [here]

theorem Lists.released (lists : ledger.Lists live) (held : (ledger bp).isSome = true) :
    ∃ live', Event.replay live (.released bp size merged) = some live' ∧
      (ledger.drop bp).Lists live' := by
  refine ⟨live.erase bp, if_pos ((lists.mem_iff bp).2 held), lists.nodup.erase bp, fun n => ?_⟩
  rw [lists.nodup.mem_erase_iff, lists.mem_iff, drop]
  by_cases here : n = bp <;> simp [here]

theorem isSome_move_self (ledger : Ledger) (bp : Nat) (change : Holding → Holding) (n : Nat) :
    (ledger.move bp bp change n).isSome = (ledger n).isSome := by
  rw [move, drop]
  by_cases here : n = bp
  · rw [if_pos here, Option.isSome_map, here]
  · rw [if_neg here, if_neg here]

end Ledger

theorem Ledger.Accounts.fresh {ledger : Ledger} {m n : Machine} {blocks : List Block}
    {nodes : List Nat} {count : Nat} {p : Payload} (accounts : ledger.Accounts blocks)
    (settled : m.heap.Settled blocks nodes) (ran : Machine.allocate count m = .ok (some p) n) :
    ledger p.offset = none := by
  obtain ⟨_, k, ran', allots⟩ := Machine.run_allocate settled count
  cases ran.symm.trans ran'
  cases allots with
  | served _ _ _ serves =>
    refine Option.eq_none_iff_forall_ne_some.2 fun holding found => ?_
    obtain ⟨b, mem, live, here, _⟩ := accounts.held _ _ found
    exact serves.allocates.fresh settled.keeps.spelt.tiled mem live here

def Heap.sentinels (h : Heap) : Nat := if h.initialized then firstBlock else 0

namespace Machine

/-- The events that are new in `n` account for how it differs from `m`: in what clients hold, and in
the size of the region.  Some of them are warnings. -/
def Narrates (m n : Machine) (warned : Nat) (old new : Ledger) : Prop :=
  ∃ events, n.log.toList = m.log.toList ++ events ∧ Event.warnings events = warned ∧
    n.heap.size + m.heap.sentinels = m.heap.size + n.heap.sentinels + Event.extent events ∧
    ∀ live, old.Lists live →
      ∃ live', events.foldlM Event.replay live = some live' ∧ new.Lists live'

variable {m n k : Machine} {old middle new ledger : Ledger} {warned warned' : Nat}
  {touched : Nat → Prop}

theorem Narrates.trans (first : m.Narrates k warned old middle)
    (second : k.Narrates n warned' middle new) : m.Narrates n (warned + warned') old new := by
  obtain ⟨before, log, warns, size, told⟩ := first
  obtain ⟨after, log', warns', size', told'⟩ := second
  refine ⟨before ++ after, ?_, ?_, ?_, fun live lists => ?_⟩
  · rw [log', log, List.append_assoc]
  · rw [Event.warnings_append, warns, warns']
  · rw [Event.extent_append]
    omega
  · obtain ⟨live', replayed, lists⟩ := told live lists
    obtain ⟨live'', replayed', lists⟩ := told' live' lists
    refine ⟨live'', ?_, lists⟩
    rw [List.foldlM_append, replayed]
    exact replayed'

theorem Narrates.congr {other : Ledger} (narrates : m.Narrates n warned old new)
    (same : ∀ bp, (other bp).isSome = (new bp).isSome) : m.Narrates n warned old other := by
  obtain ⟨events, log, warns, size, told⟩ := narrates
  refine ⟨events, log, warns, size, fun live lists => ?_⟩
  obtain ⟨live', replayed, lists⟩ := told live lists
  exact ⟨live', replayed, lists.congr same⟩

theorem narrates_silent (log : n.log = m.log)
    (size : n.heap.size + m.heap.sentinels = m.heap.size + n.heap.sentinels) (ledger : Ledger) :
    m.Narrates n 0 ledger ledger :=
  ⟨[], by rw [log, List.append_nil], rfl, size, fun live lists => ⟨live, rfl, lists⟩⟩

theorem narrates_refl (m : Machine) (ledger : Ledger) : m.Narrates m 0 ledger ledger :=
  narrates_silent rfl rfl ledger

theorem narrates_edits (edits : Edits touched m n) (ledger : Ledger) :
    m.Narrates n 0 ledger ledger := by
  obtain ⟨remarks, log, quiet⟩ := edits.log
  obtain ⟨extent, warned, told⟩ := Event.plain_remarks quiet
  refine ⟨remarks.toList, by rw [log, Array.toList_append], warned, ?_,
    fun live lists => ⟨live, told live, lists⟩⟩
  rw [extent, edits.size, Heap.sentinels, Heap.sentinels, edits.initialized]
  rfl

theorem narrates_grows {opened : Option Nat} {extra : Nat} (grows : Grows opened extra touched m n)
    (ledger : Ledger) : m.Narrates n 0 ledger ledger := by
  obtain ⟨remarks, log, quiet⟩ := grows.log
  obtain ⟨extent, warned, told⟩ := Event.plain_remarks quiet
  refine ⟨.extended extra n.heap.size :: remarks.toList, ?_, warned, ?_,
    fun live lists => ⟨live, told live, lists⟩⟩
  · rw [log, Array.toList_append, Array.toList_push, List.append_assoc]
    rfl
  · rw [Event.extent, extent, grows.size, Heap.sentinels, Heap.sentinels, grows.initialized]
    omega

theorem narrates_noting {event : Event} (still : Event.extent [event] = 0)
    (told : ∀ live, old.Lists live → ∃ live', event.replay live = some live' ∧ new.Lists live') :
    m.Narrates (m.noting event) (Event.warnings [event]) old new := by
  refine ⟨[event], Array.toList_push, rfl, ?_, fun live lists => ?_⟩
  · rw [still]
    rfl
  · obtain ⟨live', replayed, lists⟩ := told live lists
    exact ⟨live', by simp [replayed], lists⟩

theorem narrates_plain {event : Event} (plain : event.isPlain = true) (ledger : Ledger) :
    m.Narrates (m.noting event) 0 ledger ledger := by
  obtain ⟨extent, warned, told⟩ := Event.plain_cons plain []
  have noted := narrates_noting (m := m) extent fun live (lists : ledger.Lists live) =>
    ⟨live, told live, lists⟩
  rw [warned] at noted
  exact noted

theorem narrates_warning {event : Event} (warns : event.level = .warn) (ledger : Ledger) :
    m.Narrates (m.noting event) 1 ledger ledger := by
  have extent : Event.extent [event] = 0 := by cases event <;> first | rfl | cases warns
  have told (live : List Nat) : event.replay live = some live := by
    cases event <;> first | rfl | cases warns
  have noted := narrates_noting (m := m) extent fun live (lists : ledger.Lists live) =>
    ⟨live, told live, lists⟩
  simpa [Event.warnings, warns] using noted

theorem narrates_allocated {bp wanted count : Nat} (fresh : ledger bp = none) (holding : Holding) :
    m.Narrates (m.noting (.allocated count wanted bp)) 0 ledger (ledger.put bp holding) :=
  narrates_noting rfl fun _ lists => lists.allocated fresh holding

theorem narrates_released {bp size merged : Nat} (held : (ledger bp).isSome = true) :
    m.Narrates (m.noting (.released bp size merged)) 0 ledger (ledger.drop bp) :=
  narrates_noting rfl fun _ lists => lists.released held

section settled

variable {blocks l₁ l₂ : List Block} {nodes : List Nat} {b : Block} {count : Nat}
  {reply : Option Payload}

theorem narrates_allocate (settled : m.heap.Settled blocks nodes)
    (accounts : ledger.Accounts blocks) (ran : allocate count m = .ok reply n) :
    m.Narrates n (Request.warnings (.allocate count) (.handed reply)) ledger
      (ledger.settle (.allocate count) (.handed reply)) := by
  cases allocate_ends settled ran with
  | void zero =>
    rw [Request.warnings, if_pos zero]
    exact narrates_refl m ledger
  | warned positive warns =>
    rw [Request.warnings, if_neg (Nat.ne_of_gt positive)]
    exact narrates_warning warns ledger
  | found positive adjusted found =>
    obtain ⟨b, mem, rfl, _⟩ := Heap.exists_of_candidate found
    obtain ⟨l₁, l₂, rfl⟩ := List.append_of_mem mem
    obtain ⟨k, ran', _, _, edits⟩ := run_allocate_found settled positive adjusted found
    cases ran.symm.trans ran'
    exact (narrates_edits edits.toEdits ledger).trans
      (narrates_allocated (accounts.fresh settled ran) _)
  | grown positive adjusted none granted =>
    obtain ⟨k, _, w, ran', _, _, _, _, _, grows⟩ :=
      run_allocate_grown settled positive adjusted none granted
    cases ran.symm.trans ran'
    exact (narrates_grows grows ledger).trans
      (narrates_allocated (accounts.fresh settled ran) _)

theorem narrates_release (settled : m.heap.Settled blocks nodes) (mem : b ∈ blocks)
    (live : b.allocated = true) (ran : release ⟨b.payload⟩ m = .ok () n)
    (held : (ledger b.payload).isSome = true) : m.Narrates n 0 ledger (ledger.drop b.payload) := by
  obtain ⟨l₁, l₂, rfl⟩ := List.append_of_mem mem
  obtain ⟨k, _, _, _, ran', _, _, _, _, _, _, edits, _⟩ := run_release settled live
  cases ran.symm.trans ran'
  exact (narrates_edits edits.toEdits ledger).trans (narrates_released held)

theorem narrates_resizeInPlace {wanted : Nat} {stays : Bool}
    (settled : m.heap.Settled (l₁ ++ b :: l₂) nodes) (live : b.allocated = true)
    (adjusted : adjustedSize count = some wanted)
    (ran : resizeInPlace b.payload b.size wanted m = .ok stays n) (ledger : Ledger) :
    m.Narrates n 0 ledger ledger ∧ (stays = false → n = m) := by
  obtain ⟨large, even, _⟩ := adjustedSize_bounds adjusted
  cases fits : b.refit wanted l₂ with
  | none =>
    cases ran.symm.trans (resizeInPlace_false settled (Block.refit_eq_none_iff.1 fits))
    exact ⟨narrates_refl m ledger, fun _ => rfl⟩
  | some run =>
    obtain ⟨k, _, ran', _, edits⟩ := resizeInPlace_true settled live large even fits
    cases ran.symm.trans ran'
    exact ⟨narrates_edits edits.toEdits ledger, fun no => by cases no⟩

theorem narrates_copyBytes {source target : Nat} (small : m.heap.size ≤ Heap.maxRegion)
    (start : source + count ≤ m.heap.size) (stop : target + count ≤ m.heap.size)
    (ran : copyBytes source count target m = .ok () n) (ledger : Ledger) :
    m.Narrates n 0 ledger ledger := by
  cases ran.symm.trans (copyBytes_ok small start stop)
  apply narrates_silent
  · rfl
  · exact congrArg (· + m.heap.sentinels) Heap.size_overwritten

theorem narrates_resizeByCopy {tag : Tag} (settled : m.heap.Settled blocks nodes)
    (accounts : ledger.Accounts blocks) (mem : b ∈ blocks) (live : b.allocated = true)
    (size : tag.size = b.size) (positive : 0 < count)
    (ran : resizeByCopy ⟨b.payload⟩ tag count m = .ok reply n) :
    m.Narrates n (Request.warnings (.resize (some ⟨b.payload⟩) count) (.handed reply)) ledger
      (ledger.settle (.resize (some ⟨b.payload⟩) count) (.handed reply)) := by
  obtain ⟨first, k, handed, allots⟩ := run_allocate settled count
  have told := narrates_allocate settled accounts handed
  cases allots with
  | denied =>
    rw [resizeByCopy, bind_of_ok handed] at ran
    cases ran
    rw [(ledger.settle_resize positive _).1]
    exact told
  | @served _ p wanted growth middle _ _ adjusted settled' serves =>
    have held := accounts.known b mem live
    have different := serves.allocates.fresh settled.keeps.spelt.tiled mem live
    obtain ⟨share, here, there, first, second, same⟩ :=
      resizeByCopy_eq settled mem live size handed adjusted serves
    have low := settled'.keeps.spelt.bounds here
    have high := settled'.keeps.spelt.bounds there
    obtain ⟨l, ran', copied, _⟩ := run_copyBytes settled' here there rfl first second
    rw [same, bind_of_ok ran'] at ran
    obtain ⟨_, o, ran'', ⟨⟩⟩ := exists_of_bind ran
    have carried := narrates_copyBytes settled'.keeps.spelt.bounded (by omega)
      (by dsimp only at high ⊢; omega) ran' (ledger.put p.offset (.fresh count))
    have held' : (ledger.put p.offset (.fresh count) b.payload).isSome = true := by
      rw [Ledger.put, if_neg different]
      exact held
    have moved := narrates_release copied here live ran'' held'
    -- the log enters the new place before it strikes off the old one; the ledger moves at once
    refine ((told.trans carried).trans (moved.trans (narrates_plain rfl _))).congr fun bp => ?_
    rw [(ledger.settle_resize positive _).2, Ledger.move, Ledger.drop, Ledger.drop, Ledger.put]
    by_cases target : bp = p.offset
    · rw [if_pos target, if_neg (by rw [target]; exact Ne.symm different), if_pos target,
        Option.isSome_map]
      exact held
    · rw [if_neg target, if_neg target]

theorem narrates_resize (settled : m.heap.Settled blocks nodes)
    (accounts : ledger.Accounts blocks) (mem : b ∈ blocks) (live : b.allocated = true)
    (ran : resize (some ⟨b.payload⟩) count m = .ok reply n) :
    m.Narrates n (Request.warnings (.resize (some ⟨b.payload⟩) count) (.handed reply)) ledger
      (ledger.settle (.resize (some ⟨b.payload⟩) count) (.handed reply)) := by
  have held := accounts.known b mem live
  rcases Nat.eq_zero_or_pos count with rfl | positive
  · rw [resize_zero settled] at ran
    obtain ⟨_, _, ran', ⟨⟩⟩ := exists_of_bind ran
    exact narrates_release settled mem live ran' held
  obtain ⟨refused, moved⟩ := ledger.settle_resize positive ⟨b.payload⟩
  obtain ⟨l₁, l₂, rfl⟩ := List.append_of_mem mem
  cases adjusted : adjustedSize count with
  | none =>
    cases ran.symm.trans (resize_tooLarge settled positive _ adjusted)
    rw [refused, Request.warnings, if_neg (Nat.ne_of_gt positive)]
    exact narrates_warning rfl ledger
  | some wanted =>
    obtain ⟨tag, size, same⟩ := resize_eq settled live positive adjusted
    rw [same] at ran
    split at ran
    · obtain ⟨stays, k, tried, ran⟩ := exists_of_bind ran
      obtain ⟨told, still⟩ := narrates_resizeInPlace settled live adjusted tried ledger
      cases stays with
      | true =>
        cases ran
        rw [moved]
        exact (told.trans (narrates_plain rfl ledger)).congr (ledger.isSome_move_self _ _)
      | false =>
        cases still rfl
        exact narrates_resizeByCopy settled accounts mem live size positive ran
    · exact narrates_resizeByCopy settled accounts mem live size positive ran

theorem narrates_write {start : Nat} {data : ByteArray} (settled : m.heap.Settled blocks nodes)
    (mem : b ∈ blocks) (live : b.allocated = true) (fits : start + data.size + 8 ≤ b.size)
    (ran : writePayload ⟨b.payload⟩ start data m = .ok () n) (ledger : Ledger) :
    m.Narrates n 0 ledger (ledger.settle (.write ⟨b.payload⟩ start data) .done) := by
  cases ran.symm.trans (run_writePayload settled mem live fits)
  refine Narrates.congr ?_ (ledger.isSome_move_self _ _)
  apply narrates_silent
  · rfl
  · exact congrArg (· + m.heap.sentinels) Heap.size_overwritten

end settled

theorem narrates_founded (fresh : m.heap.initialized = false) (empty : m.heap.size = 0)
    (segment : Segment) (ledger : Ledger) : m.Narrates (m.founded segment) 0 ledger ledger := by
  apply narrates_silent
  · rfl
  · rw [size_founded segment empty, empty, Heap.sentinels, fresh]
    rfl

theorem narrates_init (blank : m.heap.Blank) {result : Except HeapError Unit}
    (ran : init m = .ok result n) (ledger : Ledger) : m.Narrates n 0 ledger ledger := by
  have fresh := blank.initialized
  have empty := blank.size
  cases valid : m.heap.config.isValid with
  | false =>
    cases ran.symm.trans (init_invalid fresh valid)
    exact narrates_refl m ledger
  | true =>
    cases granted : m.heap.region.reserve 16 m.segment with
    | error error =>
      cases ran.symm.trans (init_refused fresh valid granted)
      exact narrates_refl m ledger
    | ok segment =>
      have founded := narrates_founded fresh empty segment ledger
      have opened := ran.symm.trans (init_eq fresh empty valid granted)
      cases seeded : (m.founded segment).grant m.heap.config.chunk with
      | error error =>
        rw [seeded] at opened
        cases opened
        exact founded
      | ok grown =>
        obtain ⟨large, _, even⟩ := chunk_bounds valid
        have settled := settled_founded segment blank valid
        obtain ⟨k, _, w, ran', _, _, _, _, _, _, grows⟩ :=
          run_annex settled.keeps settled.coalesced settled.aims seeded large even
        rw [size_founded segment empty] at ran'
        rw [seeded] at opened
        dsimp only at opened
        rw [bind_of_ok ran'] at opened
        cases opened
        exact founded.trans ((narrates_grows grows ledger).trans (narrates_plain rfl ledger))

end Machine

namespace Session

variable {s : Session} {request : Request} {reply : Reply} {m : Machine}

structure Told (s : Session) : Prop where
  live : ∃ live, s.machine.log.toList.foldlM Event.replay [] = some live ∧
    ∀ p : Payload, p.offset ∈ live ↔ s.Live p
  extent : s.machine.heap.initialized = true →
    s.machine.heap.size = 16 + Event.extent s.machine.log.toList

theorem narrates_settled {blocks : List Block} {nodes : List Nat}
    (settled : s.machine.heap.Settled blocks nodes) (accounts : s.ledger.Accounts blocks)
    (admitted : s.Admits request) (ran : request.perform s.machine = .ok reply m) :
    s.machine.Narrates m (request.warnings reply) s.ledger (s.ledger.settle request reply) := by
  cases request with
  | init =>
    obtain ⟨result, _, acted, ⟨⟩⟩ := Machine.exists_of_bind ran
    cases acted.symm.trans (Machine.init_again settled.initialized)
    exact Machine.narrates_refl _ _
  | allocate count =>
    obtain ⟨p, _, acted, ⟨⟩⟩ := Machine.exists_of_bind ran
    exact Machine.narrates_allocate settled accounts acted
  | release p =>
    obtain ⟨b, mem, live, rfl⟩ := exists_live accounts admitted
    obtain ⟨_, _, acted, ⟨⟩⟩ := Machine.exists_of_bind ran
    exact Machine.narrates_release settled mem live acted admitted
  | resize p count =>
    obtain ⟨q, _, acted, ⟨⟩⟩ := Machine.exists_of_bind ran
    cases p with
    | none =>
      rw [Machine.resize_none settled] at acted
      have told := Machine.narrates_allocate settled accounts acted
      cases q <;> exact told
    | some p =>
      obtain ⟨b, mem, live, rfl⟩ := exists_live accounts admitted
      exact Machine.narrates_resize settled accounts mem live acted
  | write p start data =>
    obtain ⟨b, mem, live, rfl, room⟩ := exists_room settled accounts admitted
    obtain ⟨_, _, acted, ⟨⟩⟩ := Machine.exists_of_bind ran
    exact Machine.narrates_write settled mem live room acted _

theorem narrates_perform (sound : s.Sound) (admitted : s.Admits request)
    (ran : request.perform s.machine = .ok reply m) :
    s.machine.Narrates m (request.warnings reply) s.ledger (s.ledger.settle request reply) := by
  cases sound with
  | settled settled accounts => exact narrates_settled settled accounts admitted ran
  | blank blank vacant =>
    cases admits_blank blank vacant admitted
    obtain ⟨result, _, acted, ⟨⟩⟩ := Machine.exists_of_bind ran
    exact Machine.narrates_init blank acted _

theorem replay_of_reachable (reachable : s.Reachable) :
    s.machine.heap.size = s.machine.heap.sentinels + Event.extent s.machine.log.toList ∧
      ∃ live, s.machine.log.toList.foldlM Event.replay [] = some live ∧ s.ledger.Lists live := by
  induction reachable with
  | start backing config segment =>
    exact ⟨rfl, [], rfl, .nil, fun bp => by simp [start, Ledger.empty]⟩
  | step reachable step ih =>
    obtain ⟨size, live, replayed, lists⟩ := ih
    cases step with
    | disturbance segment => exact ⟨size, live, replayed, lists⟩
    | request admitted ran =>
      obtain ⟨events, log, _, size', told⟩ :=
        narrates_perform (sound_of_reachable reachable) admitted ran
      obtain ⟨live', replayed', lists⟩ := told live lists
      refine ⟨?_, live', ?_, lists⟩
      · dsimp only
        rw [log, Event.extent_append]
        omega
      · dsimp only
        rw [log, List.foldlM_append, replayed]
        exact replayed'

/-- The log tells at any time what clients hold and how large the region is; and a request adds a
warning to it if it is refused, and only then. -/
theorem told_of_reachable (reachable : s.Reachable) :
    s.Told ∧ ∀ request, s.Admits request → ∃ reply m events,
      request.perform s.machine = .ok reply m ∧
        m.log.toList = s.machine.log.toList ++ events ∧
        Event.warnings events = request.warnings reply := by
  have sound := sound_of_reachable reachable
  refine ⟨?_, fun request admitted => ?_⟩
  · obtain ⟨size, live, replayed, lists⟩ := replay_of_reachable reachable
    refine ⟨⟨live, replayed, fun p => lists.mem_iff p.offset⟩, fun used => ?_⟩
    rw [size, Heap.sentinels, if_pos used]
    rfl
  · obtain ⟨reply, m, ran, _⟩ := sound.perform admitted
    obtain ⟨events, log, warned, _⟩ := narrates_perform sound admitted ran
    exact ⟨reply, m, events, ran, log, warned⟩

theorem told_sample : (sample .firstFit).Told ∧ (sample .firstFit).machine.heap.size = 80 ∧
    (sample .firstFit).machine.log.toList.foldlM Event.replay [] = some [48] ∧
    ∃ m events, (Request.allocate 500).perform (sample .firstFit).machine = .ok (.handed none) m ∧
      m.log.toList = (sample .firstFit).machine.log.toList ++ events ∧
      Event.warnings events = 1 := by
  obtain ⟨told, adds⟩ := told_of_reachable (reachable_sample .firstFit)
  have refused : outcome (Machine.allocate 500 (sample .firstFit).machine) = some (none, 80) := by
    decide +kernel
  obtain ⟨n, none, _⟩ := exists_of_outcome refused
  obtain ⟨reply, m, events, ran, log, warned⟩ := adds (.allocate 500) (by decide +kernel)
  cases ran.symm.trans (Machine.bind_of_ok none)
  exact ⟨told, by decide +kernel, by decide +kernel, n, events, ran, log, warned⟩

end Session

end BoundaryTag
