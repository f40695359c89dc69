import BoundaryTag.Proofs.Concurring
import BoundaryTag.Proofs.Reading
import BoundaryTag.Proofs.Sessions

namespace BoundaryTag

structure Config.Mates (c d : Config) : Prop where
  walks : c.strategy = .firstFit
  ordered : d.strategy = .explicitList .addressOrdered
  chunk : c.chunk = d.chunk
  inPlace : c.inPlaceResize = d.inPlaceResize

theorem Heap.Settled.unique {h : Heap} {blocks blocks' : List Block} {nodes nodes' : List Nat}
    (first : h.Settled blocks nodes) (second : h.Settled blocks' nodes') : blocks = blocks' := by
  have read := layout_eq first.initialized first.keeps.spelt
  have read' := layout_eq second.initialized second.keeps.spelt
  cases read.symm.trans read'
  rfl

namespace Machine

def Echoes (m n : Machine) (ledger : Ledger) : Prop :=
  ∀ bp holding i, ledger bp = some holding → holding.written i = true →
    n.heap.byte (bp + i) = m.heap.byte (bp + i)

variable {m n : Machine} {ledger : Ledger} {bp count : Nat} {holding : Holding}

theorem Echoes.put (echoes : m.Echoes n ledger) (same : ∀ i, holding.written i = true →
    n.heap.byte (bp + i) = m.heap.byte (bp + i)) : m.Echoes n (ledger.put bp holding) := by
  intro k other i found written
  rw [Ledger.put] at found
  split at found
  · rename_i here
    cases found
    rw [here]
    exact same i written
  · exact echoes k other i found written

theorem Echoes.put_fresh (echoes : m.Echoes n ledger) :
    m.Echoes n (ledger.put bp (.fresh count)) :=
  echoes.put fun _ written => by cases written

end Machine

namespace Session

inductive Together : Session → Session → Prop
  | start {backing backing' : Backing} {config config' : Config} {segment segment' : Segment}
      (mates : config.Mates config')
      (alike : Machine.Alike (start backing config segment).machine
        (start backing' config' segment').machine) :
      Together (start backing config segment) (start backing' config' segment')
  | request {s t : Session} {request : Request} {reply reply' : Reply} {m n : Machine}
      (together : Together s t) (admitted : s.Admits request)
      (ran : request.perform s.machine = .ok reply m)
      (ran' : request.perform t.machine = .ok reply' n) :
      Together ⟨m, s.ledger.settle request reply⟩ ⟨n, t.ledger.settle request reply'⟩
  | disturbance {s t : Session} (together : Together s t) (segment segment' : Segment)
      (alike : Machine.Alike { s.machine with segment } { t.machine with segment := segment' }) :
      Together ⟨{ s.machine with segment }, s.ledger⟩
        ⟨{ t.machine with segment := segment' }, t.ledger⟩

structure Agrees (s t : Session) : Prop where
  size : s.machine.heap.size = t.machine.heap.size
  layout : ∃ blocks, s.machine.heap.layout = .ok blocks ∧ t.machine.heap.layout = .ok blocks
  freeBlocks : s.machine.heap.freeBlocks = t.machine.heap.freeBlocks
  ledger : s.ledger = t.ledger
  written : s.machine.Echoes t.machine s.ledger

structure Coupled (s t : Session) (blocks : List Block) (nodes nodes' : List Nat) : Prop where
  mates : s.machine.heap.config.Mates t.machine.heap.config
  alike : s.machine.Alike t.machine
  settled : s.machine.heap.Settled blocks nodes
  settled' : t.machine.heap.Settled blocks nodes'
  accounts : s.ledger.Accounts blocks
  ledger : s.ledger = t.ledger
  echoes : s.machine.Echoes t.machine s.ledger

inductive Paired (s t : Session) : Prop
  | blank (mates : s.machine.heap.config.Mates t.machine.heap.config)
      (alike : s.machine.Alike t.machine) (blank : s.machine.heap.Blank)
      (blank' : t.machine.heap.Blank) (vacant : s.ledger = .empty) (vacant' : t.ledger = .empty)
  | coupled {blocks : List Block} {nodes nodes' : List Nat}
      (coupled : s.Coupled t blocks nodes nodes')

def Respond (s t : Session) (request : Request) : Prop :=
  ∃ reply m n, request.perform s.machine = .ok reply m ∧
    request.perform t.machine = .ok reply n ∧
      Paired ⟨m, s.ledger.settle request reply⟩ ⟨n, t.ledger.settle request reply⟩

variable {s t : Session} {blocks new new' : List Block} {nodes nodes' : List Nat} {m n : Machine}
  {b : Block} {request : Request} {reply : Reply}

theorem Answers.echoes (first : s.Answers blocks request reply m new nodes)
    (second : t.Answers blocks request reply n new' nodes') (accounts : s.ledger.Accounts blocks)
    (echoes : s.machine.Echoes t.machine s.ledger) {rest : Ledger}
    (part : ∀ bp holding, rest bp = some holding →
      s.ledger bp = some holding ∧ request.Bypasses bp) : m.Echoes n rest := by
  intro bp holding i found written
  obtain ⟨held, bypassed⟩ := part bp holding found
  obtain ⟨b, mem, live, rfl, _, within⟩ := accounts.held bp holding held
  have inside := within i written
  have covered : b.Covers (b.payload + i) := ⟨by omega, by omega⟩
  obtain ⟨_, kept, _⟩ := first.bypassed b mem live bypassed
  obtain ⟨_, kept', _⟩ := second.bypassed b mem live bypassed
  rw [kept _ covered, kept' _ covered]
  exact echoes _ holding i held written

namespace Coupled

variable (coupled : s.Coupled t blocks nodes nodes')
include coupled

theorem concurs : s.machine.Concurs t.machine blocks nodes nodes' :=
  ⟨coupled.settled, coupled.settled', Heap.candidate_ordered coupled.settled'.keeps
    coupled.mates.walks coupled.mates.ordered, coupled.mates.chunk, coupled.mates.inPlace,
    coupled.alike⟩

theorem accounts' : t.ledger.Accounts blocks := coupled.ledger ▸ coupled.accounts

theorem admits_iff : s.Admits request ↔ t.Admits request := by
  have live (p : Payload) : s.Live p ↔ t.Live p := by
    rw [Live, Live, coupled.ledger]
  have used := iff_of_true coupled.settled.initialized coupled.settled'.initialized
  cases request with
  | init => exact Iff.rfl
  | allocate count => exact used
  | release p => exact live p
  | resize p count =>
    cases p with
    | none => exact used
    | some p => exact live p
  | write p start data =>
    have sized (held : s.Live p) :
        s.machine.heap.payloadSize p = t.machine.heap.payloadSize p := by
      obtain ⟨b, mem, live, rfl⟩ := exists_live coupled.accounts held
      rw [Heap.payloadSize_eq coupled.settled mem live,
        Heap.payloadSize_eq coupled.settled' mem live]
    simp only [Admits, ← live p]
    apply and_congr_right
    intro held
    rw [sized held]

theorem respond (admitted : s.Admits request)
    (matched : s.machine.Matches t.machine request.perform)
    (kept : ∀ reply m n, request.perform s.machine = .ok reply m →
      request.perform t.machine = .ok reply n →
      (∀ rest : Ledger, (∀ bp holding, rest bp = some holding →
        s.ledger bp = some holding ∧ request.Bypasses bp) → m.Echoes n rest) →
      m.Echoes n (s.ledger.settle request reply)) : s.Respond t request := by
  have admitted' := coupled.admits_iff.1 admitted
  obtain ⟨reply, m, n, new, a, b, ran, ran', settled, settled', alike⟩ := matched
  obtain ⟨_, _, _, _, first⟩ := exists_answer coupled.settled coupled.accounts admitted
  obtain ⟨_, _, _, _, second⟩ := exists_answer coupled.settled' coupled.accounts' admitted'
  cases ran.symm.trans first.ran
  cases ran'.symm.trans second.ran
  cases settled.unique first.settled
  refine ⟨reply, m, n, ran, ran', .coupled ⟨?_, alike, settled, settled', first.accounts, ?_, ?_⟩⟩
  · rw [first.config, second.config]
    exact coupled.mates
  · rw [coupled.ledger]
  · apply kept reply m n ran ran'
    intro rest part
    exact first.echoes second coupled.accounts coupled.echoes part

theorem respond_init : s.Respond t .init := by
  refine coupled.respond trivial (coupled.concurs.init.map _) ?_
  intro reply m n _ _ stable
  exact stable s.ledger fun bp holding found => ⟨found, trivial⟩

theorem respond_allot (count : Nat) (admitted : s.Admits request)
    (matched : s.machine.Matches t.machine request.perform) (bypasses : ∀ bp, request.Bypasses bp)
    (same : ∀ reply, s.ledger.settle request reply = s.ledger.settle (.allocate count) reply) :
    s.Respond t request := by
  apply coupled.respond admitted matched
  intro reply m n _ _ stable
  have old := stable s.ledger fun bp holding found => ⟨found, bypasses bp⟩
  rw [same]
  cases reply with
  | handed p =>
    cases p with
    | none => exact old
    | some p => exact old.put_fresh
  | laidOut | done => exact old

theorem respond_allocate (count : Nat) : s.Respond t (.allocate count) :=
  coupled.respond_allot count coupled.settled.initialized
    ((coupled.concurs.allocate count).map _) (fun _ => trivial) fun _ => rfl

theorem respond_resize_none (count : Nat) : s.Respond t (.resize none count) := by
  refine coupled.respond_allot count coupled.settled.initialized
    ((coupled.concurs.resize_none count).map _) (fun _ => trivial) fun reply => ?_
  cases reply with
  | handed p => cases p <;> rfl
  | laidOut | done => rfl

section live

variable (mem : b ∈ blocks) (live : b.allocated = true)
include mem live

theorem held : s.Live ⟨b.payload⟩ := coupled.accounts.known b mem live

theorem respond_release : s.Respond t (.release ⟨b.payload⟩) := by
  refine coupled.respond (coupled.held mem live) ((coupled.concurs.release mem live).map _) ?_
  intro reply m n _ _ stable
  exact stable (s.ledger.drop b.payload) fun bp holding found => Ledger.of_drop found

theorem respond_resize (count : Nat) : s.Respond t (.resize (some ⟨b.payload⟩) count) := by
  refine coupled.respond (coupled.held mem live) ((coupled.concurs.resize mem live count).map _) ?_
  intro reply m n ran ran' stable
  have others := stable (s.ledger.drop b.payload) fun bp holding found => Ledger.of_drop found
  rcases Nat.eq_zero_or_pos count with rfl | positive
  · exact others
  · obtain ⟨unchanged, moved⟩ := s.ledger.settle_resize positive ⟨b.payload⟩
    obtain ⟨handed, k, resized, first⟩ := Machine.run_resize coupled.settled mem live positive
    obtain ⟨handed', l, resized', second⟩ := Machine.run_resize coupled.settled' mem live positive
    cases ran.symm.trans (Machine.bind_of_ok resized)
    cases ran'.symm.trans (Machine.bind_of_ok resized')
    cases first with
    | denied heap =>
      cases second with
      | denied heap' =>
        rw [unchanged]
        intro bp holding i
        rw [heap, heap']
        exact coupled.echoes bp holding i
    | @served _ p _ _ _ _ _ _ _ _ _ _ _ carries =>
      cases second with
      | served _ _ _ _ _ _ _ carries' =>
        obtain ⟨holding, found, _, within⟩ :=
          coupled.accounts.find coupled.settled.keeps.spelt.tiled mem live
        rw [moved p, Ledger.move_eq found]
        apply others.put
        intro i written
        simp only [Holding.resized, Bool.and_eq_true, decide_eq_true_eq] at written
        have inside := within i written.1
        have below : i < min (b.size - 8) count := by omega
        rw [carries i below, carries' i below]
        exact coupled.echoes b.payload holding i found written.1

theorem respond_write {start : Nat} {data : ByteArray} (fits : start + data.size + 8 ≤ b.size) :
    s.Respond t (.write ⟨b.payload⟩ start data) := by
  have bounds := coupled.settled.keeps.spelt.bounds mem
  have bounds' := coupled.settled'.keeps.spelt.bounds mem
  have sized := Heap.payloadSize_eq coupled.settled mem live
  refine coupled.respond ⟨coupled.held mem live, _, sized, by omega⟩
    ((coupled.concurs.write mem live fits).map _) ?_
  intro reply m n ran ran' stable
  have others := stable (s.ledger.drop b.payload) fun bp holding found => Ledger.of_drop found
  cases ran.symm.trans
    (Machine.bind_of_ok (Machine.run_writePayload coupled.settled mem live fits))
  cases ran'.symm.trans
    (Machine.bind_of_ok (Machine.run_writePayload coupled.settled' mem live fits))
  obtain ⟨holding, found, _, within⟩ :=
    coupled.accounts.find coupled.settled.keeps.spelt.tiled mem live
  refine (congrArg (Machine.Echoes _ _) (Ledger.move_eq found)).mpr (others.put fun i written => ?_)
  simp only [Holding.marked, Bool.or_eq_true, Bool.and_eq_true, decide_eq_true_eq] at written
  have first : (s.machine.heap.overwritten (b.payload + start) data).byte (b.payload + i) = _ :=
    Heap.byte_overwritten (by omega) _
  have second : (t.machine.heap.overwritten (b.payload + start) data).byte (b.payload + i) = _ :=
    Heap.byte_overwritten (by omega) _
  refine second.trans (Eq.trans ?_ first.symm)
  split
  · rfl
  · rename_i outside
    rcases written with old | new
    · exact coupled.echoes b.payload holding i found old
    · exact absurd ⟨by omega, by omega⟩ outside

end live

theorem respond_all (admitted : s.Admits request) : s.Respond t request := by
  cases request with
  | init => exact coupled.respond_init
  | allocate count => exact coupled.respond_allocate count
  | release p =>
    obtain ⟨b, mem, live, rfl⟩ := exists_live coupled.accounts admitted
    exact coupled.respond_release mem live
  | resize p count =>
    cases p with
    | none => exact coupled.respond_resize_none count
    | some p =>
      obtain ⟨b, mem, live, rfl⟩ := exists_live coupled.accounts admitted
      exact coupled.respond_resize mem live count
  | write p start data =>
    obtain ⟨held, size, read, fits⟩ := admitted
    obtain ⟨b, mem, live, rfl⟩ := exists_live coupled.accounts held
    have bounds := coupled.settled.keeps.spelt.bounds mem
    rw [Heap.payloadSize_eq coupled.settled mem live] at read
    cases read
    exact coupled.respond_write mem live (by omega)

end Coupled

theorem Paired.agrees (paired : s.Paired t) : s.Agrees t := by
  cases paired with
  | blank mates alike blank blank' vacant vacant' =>
    refine ⟨blank.size.trans blank'.size.symm, ⟨[], Heap.layout_blank blank.initialized,
      Heap.layout_blank blank'.initialized⟩, blank.freeBlocks.trans blank'.freeBlocks.symm,
      vacant.trans vacant'.symm, ?_⟩
    · intro bp holding i found
      rw [vacant] at found
      cases found
  | coupled coupled =>
    have keeps := coupled.settled.keeps
    have keeps' := coupled.settled'.keeps
    refine ⟨coupled.concurs.size, ⟨_, Heap.layout_eq coupled.settled.initialized keeps.spelt,
      Heap.layout_eq coupled.settled'.initialized keeps'.spelt⟩, ?_, coupled.ledger, coupled.echoes⟩
    rw [keeps.counted, keeps'.counted]

theorem Paired.admits_iff (paired : s.Paired t) : s.Admits request ↔ t.Admits request := by
  cases paired with
  | coupled coupled => exact coupled.admits_iff
  | blank mates alike blank blank' vacant vacant' =>
    constructor
    · intro admitted
      cases admits_blank blank vacant admitted
      trivial
    · intro admitted
      cases admits_blank blank' vacant' admitted
      trivial

theorem Paired.respond (paired : s.Paired t) (admitted : s.Admits request) :
    s.Respond t request := by
  cases paired with
  | coupled coupled => exact coupled.respond_all admitted
  | blank mates alike blank blank' vacant vacant' =>
    cases admits_blank blank vacant admitted
    obtain ⟨result, m, n, ran, ran', alike', outcome⟩ := alike.init blank blank' mates.chunk
    obtain ⟨_, _, first, config, _⟩ := init_blank blank
    obtain ⟨_, _, second, config', _⟩ := init_blank blank'
    cases ran.symm.trans first
    cases ran'.symm.trans second
    have mates' : m.heap.config.Mates n.heap.config := by
      rw [config, config']
      exact mates
    refine ⟨.laidOut result, m, n, Machine.bind_of_ok ran, Machine.bind_of_ok ran', ?_⟩
    rcases outcome with ⟨blank, blank'⟩ | ⟨blocks, nodes, nodes', settled, settled', unused⟩
    · exact .blank mates' alike' blank blank' vacant vacant'
    · refine .coupled ⟨mates', alike', settled, settled', ?_, vacant.trans vacant'.symm, ?_⟩
      · exact vacant ▸ .empty unused
      · intro bp holding i found
        have none : s.ledger bp = some holding := found
        rw [vacant] at none
        cases none

theorem paired_of_together (together : Together s t) : s.Paired t := by
  induction together with
  | start mates alike =>
    exact .blank mates alike ⟨rfl, rfl, rfl, rfl, rfl⟩ ⟨rfl, rfl, rfl, rfl, rfl⟩ rfl rfl
  | request _ admitted ran ran' ih =>
    obtain ⟨reply, m, n, first, second, paired⟩ := ih.respond admitted
    cases ran.symm.trans first
    cases ran'.symm.trans second
    exact paired
  | disturbance _ segment segment' alike ih =>
    cases ih with
    | blank mates _ blank blank' vacant vacant' =>
      exact .blank mates alike blank blank' vacant vacant'
    | coupled coupled =>
      exact .coupled ⟨coupled.mates, alike, coupled.settled, coupled.settled', coupled.accounts,
        coupled.ledger, coupled.echoes⟩

/-- However the run goes, both sessions admit the same requests, answer them alike, and agree on all
that can be seen of them. -/
theorem agrees_of_together (together : Together s t) : s.Agrees t ∧
    ∀ request, (s.Admits request ↔ t.Admits request) ∧ (s.Admits request → ∃ reply m n,
      request.perform s.machine = .ok reply m ∧ request.perform t.machine = .ok reply n) := by
  have paired := paired_of_together together
  refine ⟨paired.agrees, fun request => ⟨paired.admits_iff, fun admitted => ?_⟩⟩
  obtain ⟨reply, m, n, ran, ran', _⟩ := paired.respond admitted
  exact ⟨reply, m, n, ran, ran'⟩

theorem Together.respond (together : Together s t) (admitted : s.Admits request) :
    Together (s.respond request) (t.respond request) := by
  obtain ⟨reply, m, n, ran, ran', _⟩ := (paired_of_together together).respond admitted
  rw [Session.respond, Session.respond, ran, ran']
  exact .request together admitted ran ran'

theorem Together.play (together : Together s t) {requests : List Request}
    (plays : s.Plays requests) : Together (s.play requests) (t.play requests) := by
  induction requests generalizing s t with
  | nil => exact together
  | cons request rest ih => exact ih (together.respond plays.1) plays.2

theorem together_sample :
    Together (sample .firstFit) (sample (.explicitList .addressOrdered)) := by
  apply Together.play
  · exact .start ⟨rfl, rfl, rfl, rfl⟩ fun _ => rfl
  · decide +kernel

theorem agrees_sample : (sample .firstFit).Agrees (sample (.explicitList .addressOrdered)) ∧
    ∃ reply m n, Request.perform (.resize (some ⟨48⟩) 20) (sample .firstFit).machine =
        .ok reply m ∧
      Request.perform (.resize (some ⟨48⟩) 20)
        (sample (.explicitList .addressOrdered)).machine = .ok reply n := by
  obtain ⟨agrees, answers⟩ := agrees_of_together together_sample
  exact ⟨agrees, (answers (.resize (some ⟨48⟩) 20)).2 (by decide +kernel)⟩

end Session

end BoundaryTag
