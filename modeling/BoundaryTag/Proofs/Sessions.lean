import BoundaryTag.Proofs.Resizing

/-! Sessions: a heap and its clients, from an empty region on.  A ledger keeps what the clients
hold.  They release, resize and write only what they hold, and whoever shares the segment may do
anything to it between two requests. -/

namespace BoundaryTag

/-- What a client knows of a live payload: the size that it last asked for, and which bytes it has
written and not cut off since. -/
structure Holding where
  count : Nat
  written : Nat → Bool

namespace Holding

def fresh (count : Nat) : Holding := ⟨count, fun _ => false⟩

def resized (holding : Holding) (count : Nat) : Holding :=
  ⟨count, fun i => holding.written i && i < count⟩

def marked (holding : Holding) (start count : Nat) : Holding :=
  { holding with written := fun i => holding.written i || (start ≤ i && i < start + count) }

end Holding

def Ledger := Nat → Option Holding

inductive Request
  | init
  | allocate (count : Nat)
  | release (p : Payload)
  | resize (p : Option Payload) (count : Nat)
  | write (p : Payload) (start : Nat) (data : ByteArray)

inductive Reply
  | laidOut (result : Except HeapError Unit)
  | handed (p : Option Payload)
  | done

namespace Request

def perform {σ : Type} [Host σ] : Request → ActionOn σ Reply
  | init => return .laidOut (← Machine.init)
  | allocate count => return .handed (← Machine.allocate count)
  | release p => do
    Machine.release p
    return .done
  | resize p count => return .handed (← Machine.resize p count)
  | write p start data => do
    Machine.writePayload p start data
    return .done

def Bypasses (bp : Nat) : Request → Prop
  | init | allocate _ | resize none _ => True
  | release p | resize (some p) _ | write p _ _ => p.offset ≠ bp

end Request

namespace Ledger

def empty : Ledger := fun _ => none

def put (ledger : Ledger) (bp : Nat) (holding : Holding) : Ledger :=
  fun n => if n = bp then some holding else ledger n

def drop (ledger : Ledger) (bp : Nat) : Ledger := fun n => if n = bp then none else ledger n

def move (ledger : Ledger) (bp target : Nat) (change : Holding → Holding) : Ledger :=
  fun n => if n = target then (ledger bp).map change else ledger.drop bp n

def settle (ledger : Ledger) : Request → Reply → Ledger
  | .allocate count, .handed (some p) => ledger.put p.offset (.fresh count)
  | .release p, _ => ledger.drop p.offset
  | .resize none count, .handed (some p) => ledger.put p.offset (.fresh count)
  | .resize (some p) 0, _ => ledger.drop p.offset
  | .resize (some p) count, .handed (some target) =>
    ledger.move p.offset target.offset (·.resized count)
  | .write p start data, _ => ledger.move p.offset p.offset (·.marked start data.size)
  | _, _ => ledger

end Ledger

structure Session where
  machine : Machine
  ledger : Ledger

namespace Session

def start (backing : Backing) (config : Config) (segment : Segment) : Session :=
  ⟨⟨.ofRegion ⟨backing, .empty⟩ config, segment, #[]⟩, .empty⟩

def Live (s : Session) (p : Payload) : Prop := (s.ledger p.offset).isSome = true

def Admits (s : Session) : Request → Prop
  | .init => True
  | .allocate _ | .resize none _ => s.machine.heap.initialized = true
  | .release p | .resize (some p) _ => s.Live p
  | .write p start data =>
    s.Live p ∧ ∃ size, s.machine.heap.payloadSize p = .ok size ∧ start + data.size ≤ size

inductive Step : Session → Session → Prop
  | request {s : Session} {request : Request} {reply : Reply} {m : Machine}
      (admitted : s.Admits request) (ran : request.perform s.machine = .ok reply m) :
      Step s ⟨m, s.ledger.settle request reply⟩
  | disturbance (s : Session) (segment : Segment) :
      Step s ⟨{ s.machine with segment }, s.ledger⟩

inductive Reachable : Session → Prop
  | start (backing : Backing) (config : Config) (segment : Segment) :
      Reachable (start backing config segment)
  | step {s t : Session} (reachable : Reachable s) (step : Step s t) : Reachable t

def respond (s : Session) (request : Request) : Session :=
  match request.perform s.machine with
  | .ok reply m => ⟨m, s.ledger.settle request reply⟩
  | .error _ _ => s

def play (s : Session) (requests : List Request) : Session := requests.foldl respond s

def Plays : Session → List Request → Prop
  | _, [] => True
  | s, request :: rest => s.Admits request ∧ Plays (s.respond request) rest

instance (s : Session) (p : Payload) : Decidable (s.Live p) := inferInstanceAs (Decidable (_ = _))

instance (s : Session) : (request : Request) → Decidable (s.Admits request)
  | .init => .isTrue trivial
  | .allocate _ | .resize none _ => inferInstanceAs (Decidable (_ = _))
  | .release p | .resize (some p) _ => inferInstanceAs (Decidable (s.Live p))
  | .write p start data =>
    let fits : Decidable
        (∃ size, s.machine.heap.payloadSize p = .ok size ∧ start + data.size ≤ size) :=
      match read : s.machine.heap.payloadSize p with
      | .ok size => decidable_of_iff (start + data.size ≤ size) (by simp)
      | .error _ => .isFalse (by simp)
    inferInstanceAs (Decidable (_ ∧ _))

instance decidablePlays : (s : Session) → (requests : List Request) → Decidable (s.Plays requests)
  | _, [] => .isTrue trivial
  | s, request :: rest =>
    let := decidablePlays (s.respond request) rest
    inferInstanceAs (Decidable (_ ∧ _))

theorem Reachable.respond {s : Session} (reachable : s.Reachable) {request : Request}
    (admitted : s.Admits request) : (s.respond request).Reachable := by
  rw [Session.respond]
  split
  · rename_i ran
    exact .step reachable (.request admitted ran)
  · exact reachable

theorem Reachable.play {s : Session} (reachable : s.Reachable) {requests : List Request}
    (plays : s.Plays requests) : (s.play requests).Reachable := by
  induction requests generalizing s with
  | nil => exact reachable
  | cons request rest ih => exact ih (reachable.respond plays.1) plays.2

def sample (strategy : Strategy) : Session :=
  (start (.arena 512) ⟨32, strategy, true⟩ ⟨0, fun _ _ => false, fun _ => 255⟩).play
    [.init, .allocate 24, .allocate 8, .write ⟨48⟩ 0 ⟨#[7]⟩, .release ⟨16⟩]

theorem reachable_sample (strategy : Strategy) : (sample strategy).Reachable := by
  apply (Reachable.start _ _ _).play
  cases strategy with
  | nextFit => decide +kernel
  | firstFit => decide +kernel
  | explicitList order => cases order <;> decide +kernel

def outcome {α : Type} : EStateM.Result Fault Machine α → Option (α × Nat)
  | .ok a m => some (a, m.heap.size)
  | .error _ _ => none

theorem exists_of_outcome {α : Type} {result : EStateM.Result Fault Machine α} {a : α} {size : Nat}
    (answered : outcome result = some (a, size)) :
    ∃ m, result = .ok a m ∧ m.heap.size = size := by
  cases result with
  | ok =>
    cases answered
    exact ⟨_, rfl, rfl⟩
  | error => cases answered

end Session

theorem Machine.Preserves.payload_eq {m n : Machine} {old new : List Block} {b : Block}
    {nodes nodes' : List Nat} (preserves : m.Preserves n b) (settled : m.heap.Settled old nodes)
    (settled' : n.heap.Settled new nodes') (mem : b ∈ old) (mem' : b ∈ new)
    (live : b.allocated = true) : n.heap.payload ⟨b.payload⟩ = m.heap.payload ⟨b.payload⟩ := by
  have bounds := settled.keeps.spelt.bounds mem
  have bounds' := settled'.keeps.spelt.bounds mem'
  have fits : b.payload + (b.size - 8) ≤ m.heap.size := by omega
  have fits' : b.payload + (b.size - 8) ≤ n.heap.size := by omega
  rw [Heap.payload_eq settled mem live, Heap.payload_eq settled' mem' live]
  refine congrArg _ (Memory.slice_congr fits fits' fun i inside => ?_)
  exact preserves (b.payload + i) ⟨by omega, by omega⟩

def Block.Fits (count size : Nat) : Prop :=
  0 < count ∧ ∃ wanted, adjustedSize count = some wanted ∧ (size = wanted ∨ size = wanted + 8)

structure Ledger.Accounts (ledger : Ledger) (blocks : List Block) : Prop where
  held : ∀ bp holding, ledger bp = some holding → ∃ b ∈ blocks, b.allocated = true ∧
    b.payload = bp ∧ Block.Fits holding.count b.size ∧ ∀ i, holding.written i → i + 8 < b.size
  known : ∀ b ∈ blocks, b.allocated = true → (ledger b.payload).isSome = true

inductive Session.Sound (s : Session) : Prop
  | blank (blank : s.machine.heap.Blank) (vacant : s.ledger = .empty) : Sound s
  | settled {blocks : List Block} {nodes : List Nat} (settled : s.machine.heap.Settled blocks nodes)
      (accounts : s.ledger.Accounts blocks) : Sound s

namespace Ledger

variable {ledger : Ledger} {old new : List Block} {bp target size count : Nat}
  {holding : Holding}

theorem Accounts.empty (unused : ∀ b ∈ new, b.allocated = false) : Ledger.empty.Accounts new := by
  constructor
  · intro n other found
    cases found
  · intro b mem live
    simp [unused b mem] at live

theorem Accounts.put (accounts : ledger.Accounts old)
    (gained : ∀ c : Block, c.allocated = true → (c ∈ new ↔ c ∈ old ∨ c = ⟨bp, size, true⟩))
    (fits : Block.Fits holding.count size) (within : ∀ i, holding.written i → i + 8 < size) :
    (ledger.put bp holding).Accounts new := by
  constructor
  · intro n other found
    rw [Ledger.put] at found
    split at found
    · rename_i here
      cases found
      exact ⟨⟨bp, size, true⟩, (gained _ rfl).2 (.inr rfl), rfl, here.symm, fits, within⟩
    · obtain ⟨b, mem, live, held⟩ := accounts.held n other found
      exact ⟨b, (gained b live).2 (.inl mem), live, held⟩
  · intro b mem live
    rw [Ledger.put]
    split
    · rfl
    · rename_i elsewhere
      refine accounts.known b (((gained b live).1 mem).resolve_right ?_) live
      rintro rfl
      exact elsewhere rfl

theorem of_drop {k : Nat} (found : ledger.drop bp k = some holding) :
    ledger k = some holding ∧ bp ≠ k := by
  rw [Ledger.drop] at found
  split at found
  · cases found
  · rename_i elsewhere
    exact ⟨found, Ne.symm elsewhere⟩

theorem Accounts.drop (accounts : ledger.Accounts old)
    (lost : ∀ c : Block, c.allocated = true → (c ∈ new ↔ c ∈ old ∧ c.payload ≠ bp)) :
    (ledger.drop bp).Accounts new := by
  constructor
  · intro n other found
    obtain ⟨found, elsewhere⟩ := of_drop found
    obtain ⟨b, mem, live, here, held⟩ := accounts.held n other found
    exact ⟨b, (lost b live).2 ⟨mem, here ▸ Ne.symm elsewhere⟩, live, here, held⟩
  · intro b mem live
    obtain ⟨mem, elsewhere⟩ := (lost b live).1 mem
    rw [Ledger.drop, if_neg elsewhere]
    exact accounts.known b mem live

theorem Accounts.find {lo hi : Nat} {b : Block} (accounts : ledger.Accounts old)
    (tiled : Block.Tiles lo old hi) (mem : b ∈ old) (live : b.allocated = true) :
    ∃ holding, ledger b.payload = some holding ∧ Block.Fits holding.count b.size ∧
      ∀ i, holding.written i → i + 8 < b.size := by
  obtain ⟨holding, found⟩ := Option.isSome_iff_exists.1 (accounts.known b mem live)
  obtain ⟨c, mem', _, here, fits⟩ := accounts.held _ _ found
  cases tiled.eq_of_payload mem' mem here
  exact ⟨holding, found, fits⟩

theorem settle_resize (positive : 0 < count) (p : Payload) :
    ledger.settle (.resize (some p) count) (.handed none) = ledger ∧
      ∀ q : Payload, ledger.settle (.resize (some p) count) (.handed (some q)) =
        ledger.move p.offset q.offset (·.resized count) := by
  cases count with
  | zero => exact absurd positive (Nat.lt_irrefl 0)
  | succ k => exact ⟨rfl, fun _ => rfl⟩

theorem move_eq {change : Holding → Holding} (found : ledger bp = some holding) :
    ledger.move bp target change = (ledger.drop bp).put target (change holding) := by
  funext n
  simp only [move, put, found]
  rfl

theorem Accounts.move {change : Holding → Holding} (accounts : ledger.Accounts old)
    (found : ledger bp = some holding)
    (moved : ∀ c : Block, c.allocated = true →
      (c ∈ new ↔ (c ∈ old ∧ c.payload ≠ bp) ∨ c = ⟨target, size, true⟩))
    (fits : Block.Fits (change holding).count size)
    (within : ∀ i, (change holding).written i → i + 8 < size) :
    (ledger.move bp target change).Accounts new := by
  have others : ∀ c : Block, c.allocated = true →
      (c ∈ old.filter (·.payload != bp) ↔ c ∈ old ∧ c.payload ≠ bp) := by
    intro c _
    simp
  rw [move_eq found]
  refine (accounts.drop others).put (fun c live => ?_) fits within
  rw [others c live, moved c live]

end Ledger

namespace Session

/-- What requests make of the list of all blocks, and by how much the region grows for them. -/
inductive Transition (terms : Block.Terms) :
    Request → Reply → Nat → List Block → List Block → Prop
  | again {blocks : List Block} :
      Transition terms .init (.laidOut (.error .alreadyInitialized)) 0 blocks blocks
  | denied {count : Nat} {blocks : List Block} (denies : terms.Denies blocks count) :
      Transition terms (.allocate count) (.handed none) 0 blocks blocks
  | allocated {count wanted growth : Nat} {p : Payload} {old new : List Block}
      (positive : 0 < count) (adjusted : adjustedSize count = some wanted)
      (expands : terms.Expands old wanted growth)
      (allocates : Block.Allocates wanted growth old p.offset new) :
      Transition terms (.allocate count) (.handed (some p)) growth old new
  | released {p : Payload} {old new : List Block} (releases : Block.Releases p.offset old new) :
      Transition terms (.release p) .done 0 old new
  | unplaced {count growth : Nat} {reply : Reply} {old new : List Block}
      (allocation : Transition terms (.allocate count) reply growth old new) :
      Transition terms (.resize none count) reply growth old new
  | emptied {p : Payload} {old new : List Block} (releases : Block.Releases p.offset old new) :
      Transition terms (.resize (some p) 0) (.handed none) 0 old new
  | refused {p : Payload} {count : Nat} {blocks : List Block} (positive : 0 < count)
      (refuses : terms.Refuses p.offset count blocks) :
      Transition terms (.resize (some p) count) (.handed none) 0 blocks blocks
  | resized {p target : Payload} {count wanted growth : Nat} {old new : List Block}
      (positive : 0 < count) (adjusted : adjustedSize count = some wanted)
      (expands : terms.Expands old wanted growth)
      (resizes : Block.Resizes terms.inPlace wanted p.offset growth old target.offset new) :
      Transition terms (.resize (some p) count) (.handed (some target)) growth old new
  | written {p : Payload} {start : Nat} {data : ByteArray} {blocks : List Block} :
      Transition terms (.write p start data) .done 0 blocks blocks

structure Answers (s : Session) (blocks : List Block) (request : Request) (reply : Reply)
    (m : Machine) (new : List Block) (nodes : List Nat) : Prop where
  ran : request.perform s.machine = .ok reply m
  settled : m.heap.Settled new nodes
  accounts : (s.ledger.settle request reply).Accounts new
  config : m.heap.config = s.machine.heap.config
  transition : ∃ growth, m.heap.size = s.machine.heap.size + growth ∧
    Transition s.machine.terms request reply growth blocks new
  bypassed : ∀ b ∈ blocks, b.allocated = true → request.Bypasses b.payload →
    b ∈ new ∧ s.machine.Preserves m b ∧ s.ledger.settle request reply b.payload = s.ledger b.payload

variable {s : Session} {blocks : List Block} {nodes : List Nat} {b : Block} {count : Nat}

theorem exists_live (accounts : s.ledger.Accounts blocks) {p : Payload} (held : s.Live p) :
    ∃ b ∈ blocks, b.allocated = true ∧ p = ⟨b.payload⟩ := by
  obtain ⟨holding, found⟩ := Option.isSome_iff_exists.1 held
  obtain ⟨b, mem, live, here, _⟩ := accounts.held _ _ found
  exact ⟨b, mem, live, by rw [here]⟩

theorem exists_room (settled : s.machine.heap.Settled blocks nodes)
    (accounts : s.ledger.Accounts blocks) {p : Payload} {start : Nat} {data : ByteArray}
    (admitted : s.Admits (.write p start data)) : ∃ b ∈ blocks, b.allocated = true ∧
      p = ⟨b.payload⟩ ∧ start + data.size + 8 ≤ b.size := by
  obtain ⟨held, size, read, fits⟩ := admitted
  obtain ⟨b, mem, live, rfl⟩ := exists_live accounts held
  have bounds := settled.keeps.spelt.bounds mem
  rw [Heap.payloadSize_eq settled mem live] at read
  cases read
  exact ⟨b, mem, live, rfl, by omega⟩

section settled

variable (settled : s.machine.heap.Settled blocks nodes) (accounts : s.ledger.Accounts blocks)
include settled accounts

theorem answers_init : ∃ reply, s.Answers blocks .init reply s.machine blocks nodes := by
  refine ⟨.laidOut (.error .alreadyInitialized), ⟨?_, settled, accounts, rfl, ?_, ?_⟩⟩
  · exact Machine.bind_of_ok (Machine.init_again settled.initialized)
  · exact ⟨0, rfl, .again⟩
  · exact fun b mem _ _ => ⟨mem, fun _ _ => rfl, rfl⟩

theorem answers_allots {reply : Option Payload} {m : Machine}
    (allots : s.machine.Allots blocks nodes count reply m) {request : Request}
    (ran : request.perform s.machine = .ok (.handed reply) m)
    (same : s.ledger.settle request (.handed reply) =
      s.ledger.settle (.allocate count) (.handed reply))
    (shapes : ∀ growth new,
      Transition s.machine.terms (.allocate count) (.handed reply) growth blocks new →
        Transition s.machine.terms request (.handed reply) growth blocks new) :
    ∃ reply m new nodes', s.Answers blocks request reply m new nodes' := by
  cases allots with
  | denied heap _ denies =>
    refine ⟨_, m, blocks, nodes, ran, heap ▸ settled, same ▸ accounts, by rw [heap],
      ⟨0, by rw [heap]; rfl, shapes _ _ (.denied (denies.terms settled))⟩, ?_⟩
    exact fun b mem _ _ => ⟨mem, fun i _ => by rw [heap], congrFun same b.payload⟩
  | @served _ p wanted _ new nodes' positive adjusted settled' serves =>
    obtain ⟨large, even, _⟩ := adjustedSize_bounds adjusted
    obtain ⟨size, sized, gained⟩ :=
      serves.allocates.live_iff settled.keeps.spelt.tiled large even
    refine ⟨_, m, new, nodes', ran, settled', ?_, serves.config,
      ⟨_, serves.size, shapes _ _ (.allocated positive adjusted (serves.expands settled)
        serves.allocates)⟩, ?_⟩
    · rw [same]
      exact accounts.put gained ⟨positive, wanted, adjusted, sized⟩ (by simp [Holding.fresh])
    · intro b mem live _
      have fresh := serves.allocates.fresh settled.keeps.spelt.tiled mem live
      refine ⟨(gained b live).2 (.inl mem), serves.preserves b mem live, ?_⟩
      rw [same]
      exact if_neg fresh

theorem answers_allocate (count : Nat) :
    ∃ reply m new nodes', s.Answers blocks (.allocate count) reply m new nodes' := by
  obtain ⟨reply, m, ran, allots⟩ := Machine.run_allocate settled count
  exact answers_allots settled accounts allots (Machine.bind_of_ok ran) rfl fun _ _ shape => shape

theorem answers_resize_none (count : Nat) :
    ∃ reply m new nodes', s.Answers blocks (.resize none count) reply m new nodes' := by
  obtain ⟨reply, m, ran, allots⟩ := Machine.run_allocate settled count
  rw [← Machine.resize_none settled] at ran
  refine answers_allots settled accounts allots (Machine.bind_of_ok ran) ?_
    fun _ _ shape => .unplaced shape
  cases reply <;> rfl

theorem answers_released {m : Machine} {new : List Block} {nodes' : List Nat}
    (settled' : m.heap.Settled new nodes') (releases : Block.Releases b.payload blocks new)
    (stays : s.machine.Stays m)
    (preserves : ∀ c ∈ blocks, c.allocated = true → c.payload ≠ b.payload →
      s.machine.Preserves m c) {request : Request} {reply : Reply}
    (ran : request.perform s.machine = .ok reply m)
    (dropped : s.ledger.settle request reply = s.ledger.drop b.payload)
    (bypasses : ∀ bp, request.Bypasses bp → b.payload ≠ bp)
    (shapes : Transition s.machine.terms request reply 0 blocks new) :
    s.Answers blocks request reply m new nodes' := by
  have lost := releases.live_iff settled.keeps.spelt.tiled settled.coalesced
  refine ⟨ran, settled', dropped ▸ accounts.drop lost, stays.config,
    ⟨0, stays.size, shapes⟩, ?_⟩
  intro c mem' live' bypassed
  have other := Ne.symm (bypasses c.payload bypassed)
  exact ⟨(lost c live').2 ⟨mem', other⟩, preserves c mem' live' other,
    dropped ▸ if_neg other⟩

section live

variable (mem : b ∈ blocks) (live : b.allocated = true)
include mem live

theorem answers_release :
    ∃ reply m new nodes', s.Answers blocks (.release ⟨b.payload⟩) reply m new nodes' := by
  obtain ⟨m, new, nodes', ran, settled', releases, stays, preserves⟩ :=
    Machine.releases settled mem live
  exact ⟨.done, m, new, nodes', answers_released settled accounts settled' releases stays
    preserves (Machine.bind_of_ok ran) rfl (fun _ bypassed => bypassed) (.released releases)⟩

theorem answers_resize (count : Nat) : ∃ reply m new nodes',
    s.Answers blocks (.resize (some ⟨b.payload⟩) count) reply m new nodes' := by
  rcases Nat.eq_zero_or_pos count with rfl | positive
  · obtain ⟨m, new, nodes', ran, settled', releases, stays, preserves⟩ :=
      Machine.releases settled mem live
    refine ⟨.handed none, m, new, nodes', answers_released settled accounts settled'
      releases stays preserves ?_ rfl (fun _ bypassed => bypassed) (.emptied releases)⟩
    apply Machine.bind_of_ok
    rw [Machine.resize_zero settled]
    exact Machine.bind_of_ok ran
  · obtain ⟨reply, m, ran, resized⟩ := Machine.run_resize settled mem live positive
    obtain ⟨unchanged, moved⟩ := s.ledger.settle_resize positive ⟨b.payload⟩
    obtain ⟨holding, found⟩ := Option.isSome_iff_exists.1 (accounts.known b mem live)
    have ran : Request.perform (.resize (some ⟨b.payload⟩) count) s.machine =
        .ok (.handed reply) m := Machine.bind_of_ok ran
    cases resized with
    | denied heap segment refuses =>
      refine ⟨_, m, blocks, nodes, ran, heap ▸ settled, ?_, by rw [heap],
        ⟨0, by rw [heap]; rfl, .refused positive refuses⟩, ?_⟩
      · rw [unchanged]
        exact accounts
      · exact fun c mem _ _ => ⟨mem, fun i _ => by rw [heap], by rw [unchanged]⟩
    | @served _ p wanted _ new nodes' adjusted settled' expands resizes config grown preserves _ =>
      obtain ⟨large, even, _, enough⟩ := adjustedSize_bounds adjusted
      obtain ⟨size, sized, left⟩ :=
        resizes.live_iff settled.keeps.spelt.tiled settled.coalesced large even
      refine ⟨_, m, new, nodes', ran, settled', ?_, config,
        ⟨_, grown, .resized positive adjusted expands resizes⟩, ?_⟩
      · rw [moved p]
        refine accounts.move found left ⟨positive, wanted, adjusted, sized⟩ fun i written => ?_
        simp only [Holding.resized, Bool.and_eq_true, decide_eq_true_eq] at written
        omega
      · intro c mem' live' bypassed
        have other : c.payload ≠ b.payload := Ne.symm bypassed
        refine ⟨(left c live').2 (.inl ⟨mem', other⟩), preserves c mem' live' other, ?_⟩
        have fresh := resizes.fresh settled.keeps.spelt.tiled mem' live' other
        rw [moved p]
        exact (if_neg fresh).trans (if_neg other)

theorem answers_write {start : Nat} {data : ByteArray} (fits : start + data.size + 8 ≤ b.size) :
    ∃ reply m new nodes',
      s.Answers blocks (.write ⟨b.payload⟩ start data) reply m new nodes' := by
  have tiled := settled.keeps.spelt.tiled
  have bounds := settled.keeps.spelt.bounds mem
  obtain ⟨holding, found, held, within⟩ := accounts.find tiled mem live
  have ran := Machine.run_writePayload settled mem live fits
  refine ⟨.done, _, blocks, nodes, Machine.bind_of_ok ran, ?_, ?_, rfl,
    ⟨0, Heap.size_overwritten, .written⟩, ?_⟩
  · exact settled.overwrite mem live (Nat.le_add_right _ _) (by omega)
  · refine accounts.move found (fun d _ => ?_) held fun i written => ?_
    · have same : b = ⟨b.payload, b.size, true⟩ := by rw [← live]
      rw [← same]
      constructor
      · intro mem'
        by_cases here : d.payload = b.payload
        · exact .inr (tiled.eq_of_payload mem' mem here)
        · exact .inl ⟨mem', here⟩
      · rintro (⟨mem', _⟩ | rfl)
        · exact mem'
        · exact mem
    · simp only [Holding.marked, Bool.or_eq_true, Bool.and_eq_true, decide_eq_true_eq] at written
      rcases written with old | new
      · exact within i old
      · omega
  · intro c mem' live' bypassed
    have other : b.payload ≠ c.payload := bypassed
    refine ⟨mem', fun i inside => ?_, (if_neg (Ne.symm other)).trans (if_neg (Ne.symm other))⟩
    refine (Heap.byte_overwritten (by omega) i).trans (if_neg fun within => ?_)
    exact other (congrArg _ (tiled.eq_of_covers mem mem' ⟨by omega, by omega⟩ inside))

end live

theorem exists_answer {request : Request} (admitted : s.Admits request) :
    ∃ reply m new nodes', s.Answers blocks request reply m new nodes' := by
  cases request with
  | init =>
    obtain ⟨reply, answers⟩ := answers_init settled accounts
    exact ⟨reply, _, _, _, answers⟩
  | allocate count => exact answers_allocate settled accounts count
  | release p =>
    obtain ⟨b, mem, live, rfl⟩ := exists_live accounts admitted
    exact answers_release settled accounts mem live
  | resize p count =>
    cases p with
    | none => exact answers_resize_none settled accounts count
    | some p =>
      obtain ⟨b, mem, live, rfl⟩ := exists_live accounts admitted
      exact answers_resize settled accounts mem live count
  | write p start data =>
    obtain ⟨b, mem, live, rfl, room⟩ := exists_room settled accounts admitted
    exact answers_write settled accounts mem live room

end settled

theorem init_blank (blank : s.machine.heap.Blank) : ∃ result m,
    Machine.init s.machine = .ok result m ∧ m.heap.config = s.machine.heap.config ∧
      (m.heap.Blank ∨ ∃ blocks nodes, m.heap.Settled blocks nodes ∧
        ∀ b ∈ blocks, b.allocated = false) := by
  cases valid : s.machine.heap.config.isValid with
  | false => exact ⟨_, _, Machine.init_invalid blank.initialized valid, rfl, .inl blank⟩
  | true =>
    cases granted : s.machine.heap.region.reserve 16 s.machine.segment with
    | error error =>
      exact ⟨_, _, Machine.init_refused blank.initialized valid granted, rfl, .inl blank⟩
    | ok segment =>
      cases seeded : (s.machine.founded segment).grant s.machine.heap.config.chunk with
      | error error =>
        refine ⟨.error error, s.machine.founded segment, ?_, rfl,
          .inr ⟨[], [], Machine.settled_founded segment blank valid, by simp⟩⟩
        rw [Machine.init_eq blank.initialized blank.size valid granted, seeded]
      | ok grown =>
        obtain ⟨m, ran, settled, _, _, config⟩ := Machine.run_init blank valid granted seeded
        exact ⟨_, m, ran, config, .inr ⟨_, _, settled, by simp⟩⟩

theorem not_live (vacant : s.ledger = .empty) (p : Payload) : ¬s.Live p := by
  rw [Live, vacant]
  exact Bool.false_ne_true

theorem admits_blank (blank : s.machine.heap.Blank) (vacant : s.ledger = .empty)
    {request : Request} (admitted : s.Admits request) : request = .init := by
  have used : s.machine.heap.initialized ≠ true := by
    rw [blank.initialized]
    exact Bool.false_ne_true
  cases request with
  | init => rfl
  | allocate count => exact absurd admitted used
  | release p => exact absurd admitted (not_live vacant p)
  | resize p count =>
    cases p with
    | none => exact absurd admitted used
    | some p => exact absurd admitted (not_live vacant p)
  | write p start data => exact absurd admitted.1 (not_live vacant p)

theorem sound_start (backing : Backing) (config : Config) (segment : Segment) :
    (start backing config segment).Sound :=
  .blank ⟨rfl, rfl, rfl, rfl, rfl⟩ rfl

theorem Sound.perform (sound : s.Sound) {request : Request} (admitted : s.Admits request) :
    ∃ reply m, request.perform s.machine = .ok reply m ∧
      m.heap.config = s.machine.heap.config ∧ Sound ⟨m, s.ledger.settle request reply⟩ := by
  cases sound with
  | settled settled accounts =>
    obtain ⟨reply, m, new, nodes', answers⟩ := exists_answer settled accounts admitted
    exact ⟨reply, m, answers.ran, answers.config, .settled answers.settled answers.accounts⟩
  | blank blank vacant =>
    cases admits_blank blank vacant admitted
    obtain ⟨result, m, ran, config, outcome⟩ := init_blank blank
    refine ⟨_, m, Machine.bind_of_ok ran, config, ?_⟩
    rcases outcome with blank | ⟨blocks, nodes, settled, unused⟩
    · exact .blank blank vacant
    · exact .settled settled (vacant ▸ .empty unused)

theorem sound_of_reachable (reachable : s.Reachable) : s.Sound := by
  induction reachable with
  | start backing config segment => exact sound_start backing config segment
  | step _ step ih =>
    cases step with
    | request admitted ran =>
      obtain ⟨reply, m, ran', _, sound⟩ := ih.perform admitted
      cases ran.symm.trans ran'
      exact sound
    | disturbance segment =>
      -- soundness does not mention the segment
      cases ih with
      | blank blank vacant => exact .blank blank vacant
      | settled settled accounts => exact .settled settled accounts

end Session

end BoundaryTag
