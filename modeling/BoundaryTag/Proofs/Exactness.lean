import BoundaryTag.Proofs.Mirroring
import BoundaryTag.Proofs.Reading

namespace BoundaryTag

/-- No free block serves the request, and with the growth that it takes the heap would pass the
largest word.  A request for which there is not even a tag is one of these. -/
def Heap.Oversteps (h : Heap) (count : Nat) : Prop :=
  ∃ blocks, h.layout = .ok blocks ∧ ∀ wanted, adjustedSize count = some wanted →
    (∀ b ∈ blocks, b.allocated = false → b.size < wanted) ∧ maxRegion < h.size + h.need wanted

namespace Session

inductive Records : Session → List Store → Prop
  | start (backing : Backing) (config : Config) (segment : Segment) :
      Records (start backing config segment) []
  | request {s : Session} {stores : List Store} {request : Request} {reply : Reply} {k : Journal}
      (records : Records s stores) (admitted : s.Admits request)
      (ran : request.perform (⟨s.machine, stores⟩ : Journal) = .ok reply k) :
      Records ⟨k.machine, s.ledger.settle request reply⟩ k.stores
  | disturbance {s : Session} {stores : List Store} (records : Records s stores)
      (segment : Segment) : Records ⟨{ s.machine with segment }, s.ledger⟩ stores

def Registers (s : Session) (stores : List Store) (request : Request) : Prop :=
  ∃ reply k, request.perform (⟨s.machine, stores⟩ : Journal) = .ok reply k ∧
    request.perform s.machine = .ok reply k.machine ∧ Journal.Leads ⟨s.machine, stores⟩ k ∧
    ∀ store ∈ k.stores, store.Lossless

/-- Nothing was ever cut off at the width of a word, and nothing will be by the next request. -/
structure Exact (s : Session) : Prop where
  even : s.machine.heap.size % 8 = 0
  bounded : s.machine.heap.size ≤ Heap.maxRegion
  recorded : ∃ stores, s.Records stores
  lossless : ∀ stores, s.Records stores → ∀ store ∈ stores, store.Lossless
  registers : ∀ stores request, s.Records stores → s.Admits request → s.Registers stores request
  capped : ∀ count, s.machine.heap.initialized = true → 0 < count →
    s.machine.heap.Oversteps count →
      ∃ event, Machine.allocate count s.machine = .ok none (s.machine.noting event)

variable {s : Session} {stores : List Store} {count : Nat}

theorem records_step (sound : s.Sound) (journal : Journal.Sound ⟨s.machine, stores⟩)
    {request : Request} (admitted : s.Admits request) :
    ∃ reply k, request.perform (⟨s.machine, stores⟩ : Journal) = .ok reply k ∧
      request.perform s.machine = .ok reply k.machine ∧
      Journal.Leads ⟨s.machine, stores⟩ k ∧ k.Sound := by
  obtain ⟨reply, m, ran, _, _⟩ := sound.perform admitted
  cases Recorded.mirrors_perform request _ journal with
  | fault ran' => cases ran.symm.trans ran'
  | ok ran recorded journal leads => exact ⟨_, _, recorded, ran, leads, journal⟩

theorem sound_journal_start (backing : Backing) (config : Config) (segment : Segment) :
    Journal.Sound ⟨(start backing config segment).machine, []⟩ :=
  ⟨nofun, rfl, Nat.zero_le _, Links.fits_none⟩

theorem Records.sound (records : s.Records stores) :
    s.Reachable ∧ Journal.Sound ⟨s.machine, stores⟩ := by
  induction records with
  | start backing config segment =>
    exact ⟨.start backing config segment, sound_journal_start backing config segment⟩
  | request _ admitted recorded ih =>
    obtain ⟨reachable, journal⟩ := ih
    obtain ⟨reply, k, recorded', ran, _, journal⟩ :=
      records_step (sound_of_reachable reachable) journal admitted
    cases recorded.symm.trans recorded'
    exact ⟨.step reachable (.request admitted ran), journal⟩
  | disturbance _ segment ih =>
    obtain ⟨reachable, journal⟩ := ih
    exact ⟨.step reachable (.disturbance _ segment), journal.lossless, journal.narrow⟩

theorem Reachable.records (reachable : s.Reachable) : ∃ stores, s.Records stores := by
  induction reachable with
  | start backing config segment => exact ⟨[], .start backing config segment⟩
  | step reachable step ih =>
    obtain ⟨stores, records⟩ := ih
    cases step with
    | request admitted ran =>
      obtain ⟨reply, k, recorded, ran', _, _⟩ :=
        records_step (sound_of_reachable reachable) records.sound.2 admitted
      cases ran.symm.trans ran'
      exact ⟨k.stores, .request records admitted recorded⟩
    | disturbance segment => exact ⟨stores, .disturbance records segment⟩

theorem capped_of_settled {blocks : List Block} {nodes : List Nat}
    (settled : s.machine.heap.Settled blocks nodes) (positive : 0 < count)
    (oversteps : s.machine.heap.Oversteps count) :
    ∃ event, Machine.allocate count s.machine = .ok none (s.machine.noting event) := by
  obtain ⟨read, layout, oversteps⟩ := oversteps
  cases layout.symm.trans (Heap.layout_eq settled.initialized settled.keeps.spelt)
  cases adjusted : adjustedSize count with
  | none => exact ⟨_, Machine.allocate_tooLarge settled positive adjusted⟩
  | some wanted =>
    obtain ⟨small, wide⟩ := oversteps wanted adjusted
    have unserved : s.machine.heap.candidate blocks nodes wanted = none :=
      (Heap.candidate_eq_none_iff settled.keeps).2 small
    have refused : s.machine.grant (s.machine.heap.need wanted) =
        .error (.tooLarge (s.machine.heap.need wanted)) := if_pos wide
    exact ⟨_, Machine.allocate_refused settled positive adjusted unserved refused⟩

theorem exact_of_reachable (reachable : s.Reachable) : s.Exact := by
  obtain ⟨stores, records⟩ := reachable.records
  have narrow := records.sound.2.narrow
  refine ⟨narrow.even, narrow.bounded, ⟨stores, records⟩, ?_, ?_, ?_⟩
  · exact fun _ records => records.sound.2.lossless
  · intro stores request records admitted
    obtain ⟨reply, k, recorded, ran, leads, journal⟩ :=
      records_step (sound_of_reachable reachable) records.sound.2 admitted
    exact ⟨reply, k, recorded, ran, leads, journal.lossless⟩
  · intro count used positive oversteps
    cases sound_of_reachable reachable with
    | blank blank => simp [blank.initialized] at used
    | settled settled => exact capped_of_settled settled positive oversteps

def brim : Session :=
  (start (.arena 8589934592) ⟨maxBlock, .explicitList .lifo, true⟩
    ⟨0, fun _ _ => false, fun _ => 255⟩).play [.init]

theorem reachable_brim : brim.Reachable := by
  apply (Reachable.start _ _ _).play
  decide +kernel

theorem exact_brim : brim.Exact ∧
    ∃ event, Machine.allocate 8 brim.machine = .ok none (brim.machine.noting event) := by
  have brimming := exact_of_reachable reachable_brim
  have layout : brim.machine.heap.layout = .ok [] := by decide +kernel
  have size : brim.machine.heap.size = 16 := by decide +kernel
  have chunk : brim.machine.heap.config.chunk = maxBlock := by decide +kernel
  refine ⟨brimming, brimming.capped 8 (by decide +kernel) (by decide) ⟨[], layout, ?_⟩⟩
  intro wanted _
  refine ⟨nofun, ?_⟩
  simp only [Heap.need, size, chunk, maxBlock, Heap.maxRegion]
  omega

end Session

end BoundaryTag
