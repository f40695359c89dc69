import BoundaryTag.Proofs.Recording

/-! Mirroring.  An action does the same to a machine and to a journal.  Along the way it stores only
what a word can hold: a tag says so by its type, a link comes from another word, from the head of
the list or from a block whose header has just been read, and the region never grows past the
largest word. -/

namespace BoundaryTag

namespace Recorded

open Machine

inductive Follows (x : Action α) (y : Recorded α) (holds : α → Prop) (j : Journal) : Prop
  | ok {a : α} {k : Journal} (ran : x j.machine = .ok a k.machine) (recorded : y j = .ok a k)
      (sound : k.Sound) (leads : j.Leads k) (yields : holds a)
  | fault {fault : Fault} {k : Journal} (ran : x j.machine = .error fault k.machine)
      (recorded : y j = .error fault k)

/-- `y` is `x`, recorded: from a sound journal on, it notes all that it stores, and that is nothing
too wide for a word.  What it yields satisfies `holds`. -/
def Mirrors (x : Action α) (y : Recorded α) (holds : α → Prop := fun _ => True) : Prop :=
  ∀ j : Journal, j.Sound → Follows x y holds j

variable {x x' : Action α} {y y' : Recorded α} {p : α → Prop}

theorem Follows.bind {j : Journal} {f : α → Action β} {g : α → Recorded β} {q : β → Prop}
    (first : Follows x y p j) (rest : ∀ a, p a → Mirrors (f a) (g a) q) :
    Follows (x >>= f) (y >>= g) q j := by
  cases first with
  | fault ran recorded =>
    exact .fault (Machine.bind_of_error ran) (Machine.bind_of_error recorded)
  | ok ran recorded sound leads yields =>
    cases rest _ yields _ sound with
    | fault ran' recorded' =>
      exact .fault ((Machine.bind_of_ok ran).trans ran')
        ((Machine.bind_of_ok recorded).trans recorded')
    | ok ran' recorded' sound leads' yields =>
      exact .ok ((Machine.bind_of_ok ran).trans ran')
        ((Machine.bind_of_ok recorded).trans recorded') sound (leads.trans leads') yields

theorem Mirrors.bind {f : α → Action β} {g : α → Recorded β} {q : β → Prop} (first : Mirrors x y p)
    (rest : ∀ a, p a → Mirrors (f a) (g a) q) : Mirrors (x >>= f) (y >>= g) q :=
  fun j sound => (first j sound).bind rest

theorem Follows.ite {j : Journal} {c : Prop} [Decidable c] (yes : c → Follows x y p j)
    (no : ¬c → Follows x' y' p j) :
    Follows (if c then x else x') (if c then y else y') p j := by
  split
  · rename_i holds
    exact yes holds
  · rename_i fails
    exact no fails

theorem Mirrors.ite {c : Prop} [Decidable c] (yes : c → Mirrors x y p) (no : ¬c → Mirrors x' y' p) :
    Mirrors (if c then x else x') (if c then y else y') p :=
  fun j sound => .ite (fun holds => yes holds j sound) fun fails => no fails j sound

theorem mirrors_pure {a : α} (yields : p a) : Mirrors (pure a) (pure a) p :=
  fun j sound => .ok rfl rfl sound (.refl j) yields

theorem mirrors_state {f : Machine → Action α} {g : Machine → Recorded α}
    (rest : ∀ j : Journal, j.Sound → Follows (f j.machine) (g j.machine) p j) :
    Mirrors (current >>= f) (current >>= g) p := by
  intro j sound
  cases rest j sound with
  | fault ran recorded => exact .fault ran recorded
  | ok ran recorded sound leads yields => exact .ok ran recorded sound leads yields

theorem mirrors_current {f : Machine → Action α} {g : Machine → Recorded α}
    (rest : ∀ m, Mirrors (f m) (g m) p) : Mirrors (current >>= f) (current >>= g) p :=
  mirrors_state fun j sound => rest j.machine j sound

theorem mirrors_lift (value : Except Fault α) :
    Mirrors (liftM value) (liftM value) fun a => value = .ok a := by
  intro j sound
  cases value with
  | error fault => exact .fault rfl rfl
  | ok a => exact .ok rfl rfl sound (.refl j) rfl

theorem Follows.lift {j : Journal} {value : Except Fault α} {f : α → Action β}
    {g : α → Recorded β} {q : β → Prop} (rest : ∀ a, value = .ok a → Follows (f a) (g a) q j) :
    Follows (liftM value >>= f) (liftM value >>= g) q j := by
  cases value with
  | error fault => exact .fault rfl rfl
  | ok a =>
    cases rest a rfl with
    | fault ran recorded => exact .fault ran recorded
    | ok ran recorded sound leads yields => exact .ok ran recorded sound leads yields

theorem mirrors_observe (read : Heap → Except Fault α) :
    Mirrors (observe read) (observe read) fun a => ∃ h : Heap, h.Narrow ∧ read h = .ok a := by
  refine mirrors_state fun j sound => ?_
  cases seen : read j.machine.heap with
  | error fault => exact .fault rfl rfl
  | ok a => exact .ok rfl rfl sound (.refl j) ⟨_, sound.narrow, seen⟩

theorem mirrors_edit (change : Heap → Heap)
    (keeps : ∀ h : Heap, h.Narrow → (change h).Narrow ∧ (change h).region = h.region) :
    Mirrors (edit change) (edit change) := by
  intro j sound
  obtain ⟨narrow, same⟩ := keeps _ sound.narrow
  have size : (change j.machine.heap).size = j.machine.heap.size := congrArg Region.size same
  refine .ok (k := { j with machine := { j.machine with heap := change j.machine.heap } }) rfl rfl
    ⟨sound.lossless, narrow⟩ ⟨Nat.le_of_eq size.symm, [], rfl, fun i _ => ?_⟩ trivial
  simp only [ground, Heap.byte, size, same]

theorem mirrors_note (event : Event) : Mirrors (note event) (note event) :=
  fun j sound => .ok (k := { j with machine := j.machine.noting event }) rfl rfl
    ⟨sound.lossless, sound.narrow⟩ ⟨Nat.le_refl _, [], rfl, fun _ _ => rfl⟩ trivial

theorem mirrors_moveCursor (target : Nat → Nat) :
    Mirrors (moveCursor target) (moveCursor target) := by
  refine mirrors_edit _ fun h narrow => ?_
  split
  · exact ⟨⟨narrow.even, narrow.bounded, narrow.head⟩, rfl⟩
  · exact ⟨narrow, rfl⟩

theorem mirrors_findFit (wanted : Nat) : Mirrors (findFit wanted) (findFit wanted) := by
  refine .bind (mirrors_observe _) fun found _ => ?_
  cases found with
  | none => exact mirrors_pure trivial
  | some bp => exact .bind (mirrors_moveCursor _) fun _ _ => mirrors_pure trivial

theorem mirrors_store {s : Store} (lossless : s.Lossless) : Mirrors (store s) (store s) := by
  intro j sound
  have size : (s.apply j.machine.heap.region).size = j.machine.heap.size := Store.size_apply s _
  refine .ok (k := ⟨{ j.machine with heap := { j.machine.heap with
    region := s.apply j.machine.heap.region } }, s :: j.stores⟩) rfl rfl
    ⟨List.forall_mem_cons.2 ⟨lossless, sound.lossless⟩, sound.narrow.resized size⟩
    ⟨Nat.le_of_eq size.symm, [s], rfl, fun i apart => ?_⟩ trivial
  exact ground_apply (apart s (List.mem_singleton_self s))

theorem mirrors_put (offset : Nat) {s : Store} (lossless : s.Lossless) :
    Mirrors (put offset s) (put offset s) :=
  .bind (mirrors_observe _) fun _ _ => mirrors_store lossless

theorem mirrors_putTag (offset : Nat) (tag : Tag) :
    Mirrors (putTag offset tag) (putTag offset tag) :=
  mirrors_put offset ⟨tag.fits, Tag.unpack_pack tag⟩

theorem mirrors_putLink (offset : Nat) {target : Option Nat} (fits : Links.Fits target) :
    Mirrors (putLink offset target) (putLink offset target) :=
  mirrors_put offset ⟨fits, Links.decode_encode fits⟩

theorem mirrors_setBlock (bp : Nat) (tag : Tag) :
    Mirrors (setBlock bp tag) (setBlock bp tag) := by
  refine .bind (mirrors_lift _) fun header _ => ?_
  refine .bind (mirrors_putTag header tag) fun _ _ => ?_
  exact .bind (mirrors_lift _) fun footer _ => mirrors_putTag footer tag

theorem mirrors_setNextLink (bp : Nat) {next : Option Nat} (fits : Links.Fits next) :
    Mirrors (setNextLink bp next) (setNextLink bp next) :=
  .bind (mirrors_lift _) fun offset _ => mirrors_putLink offset fits

theorem mirrors_setPrevLink (bp : Nat) {prev : Option Nat} (fits : Links.Fits prev) :
    Mirrors (setPrevLink bp prev) (setPrevLink bp prev) :=
  .bind (mirrors_lift _) fun offset _ => mirrors_putLink offset fits

theorem mirrors_setAfter (a : Option Nat) {b : Option Nat} (fits : Links.Fits b) :
    Mirrors (setAfter a b) (setAfter a b) := by
  cases a with
  | some node => exact mirrors_setNextLink node fits
  | none =>
    exact mirrors_edit (fun h => { h with freeHead := b }) fun h narrow =>
      ⟨⟨narrow.even, narrow.bounded, fits⟩, rfl⟩

theorem mirrors_setBefore (b : Option Nat) {a : Option Nat} (fits : Links.Fits a) :
    Mirrors (setBefore b a) (setBefore b a) := by
  cases b with
  | some node => exact mirrors_setPrevLink node fits
  | none => exact mirrors_pure trivial

theorem mirrors_linkAfter {prev : Option Nat} {bp : Nat} (fits : Links.Fits prev)
    (own : Links.Fits (some bp)) : Mirrors (linkAfter prev bp) (linkAfter prev bp) := by
  refine .bind (mirrors_observe _) fun next ⟨h, narrow, read⟩ => ?_
  refine .bind (mirrors_setPrevLink bp fits) fun _ _ => ?_
  refine .bind (mirrors_setNextLink bp (narrow.fits_nodeAfter read)) fun _ _ => ?_
  exact .bind (mirrors_setAfter prev own) fun _ _ => mirrors_setBefore next own

theorem mirrors_indexInsert (bp : Nat) : Mirrors (indexInsert bp) (indexInsert bp) := by
  refine .bind (mirrors_observe _) fun tag ⟨h, narrow, read⟩ => ?_
  have own := narrow.fits_tag read
  refine .bind (mirrors_lift _) fun _ _ => ?_
  refine .bind (mirrors_edit _ fun h narrow => ⟨⟨narrow.even, narrow.bounded, narrow.head⟩, rfl⟩)
    fun _ _ => mirrors_current fun m => ?_
  cases m.heap.strategy with
  | nextFit => exact mirrors_pure trivial
  | firstFit => exact mirrors_pure trivial
  | explicitList order =>
    cases order with
    | lifo => exact mirrors_linkAfter Links.fits_none own
    | addressOrdered =>
      refine .bind (mirrors_observe _) fun prev ⟨h, narrow, read⟩ => ?_
      exact mirrors_linkAfter (Heap.fits_lastBelow Links.fits_none narrow.head read) own

theorem mirrors_unlink (bp : Nat) : Mirrors (unlink bp) (unlink bp) := by
  refine .bind (mirrors_observe _) fun links ⟨h, narrow, read⟩ => ?_
  obtain ⟨next, prev⟩ := Heap.fits_links read
  exact .bind (mirrors_setAfter links.prev next) fun _ _ => mirrors_setBefore links.next prev

theorem mirrors_indexRemove (bp : Nat) : Mirrors (indexRemove bp) (indexRemove bp) := by
  refine .bind (mirrors_observe _) fun tag _ => ?_
  refine .bind (mirrors_lift _) fun _ _ => mirrors_current fun m => ?_
  refine .bind (mirrors_lift _) fun _ _ => ?_
  refine .bind (mirrors_edit _ fun h narrow => ⟨⟨narrow.even, narrow.bounded, narrow.head⟩, rfl⟩)
    fun _ _ => mirrors_current fun m => ?_
  exact .ite (fun _ => mirrors_unlink bp) fun _ => mirrors_pure trivial

theorem mirrors_absorb (bp size next : Nat) (before after : Tag) :
    Mirrors (absorb bp size next before after) (absorb bp size next before after) := by
  unfold absorb
  cases before.allocated with
  | true =>
    cases after.allocated with
    | true => exact mirrors_pure trivial
    | false =>
      refine .bind (mirrors_indexRemove next) fun _ _ => ?_
      refine .bind (mirrors_observe _) fun above _ => ?_
      exact .bind (mirrors_lift _) fun _ _ => mirrors_pure trivial
  | false =>
    cases after.allocated with
    | true =>
      refine .bind (mirrors_observe _) fun prev _ => ?_
      refine .bind (mirrors_indexRemove prev) fun _ _ => ?_
      refine .bind (mirrors_observe _) fun below _ => ?_
      exact .bind (mirrors_lift _) fun _ _ => mirrors_pure trivial
    | false =>
      refine .bind (mirrors_observe _) fun prev _ => ?_
      refine .bind (mirrors_indexRemove prev) fun _ _ => ?_
      refine .bind (mirrors_indexRemove next) fun _ _ => ?_
      refine .bind (mirrors_observe _) fun below _ => ?_
      refine .bind (mirrors_observe _) fun above _ => ?_
      refine .bind (mirrors_lift _) fun both _ => ?_
      exact .bind (mirrors_lift _) fun _ _ => mirrors_pure trivial

theorem mirrors_coalesce (bp : Nat) : Mirrors (coalesce bp) (coalesce bp) := by
  refine .bind (mirrors_observe _) fun before _ => ?_
  refine .bind (mirrors_observe _) fun next _ => ?_
  refine .bind (mirrors_observe _) fun after _ => ?_
  refine .bind (mirrors_observe _) fun own _ => ?_
  refine .bind (mirrors_absorb bp own next before after) fun ⟨start, size⟩ _ => ?_
  refine .bind (mirrors_lift _) fun tag _ => ?_
  refine .bind (mirrors_setBlock start tag) fun _ _ => ?_
  refine .bind (mirrors_indexInsert start) fun _ _ => ?_
  refine .bind (mirrors_lift _) fun stop _ => ?_
  refine .bind (mirrors_moveCursor _) fun _ _ => ?_
  exact .ite (fun _ => .bind (mirrors_note _) fun _ _ => mirrors_pure trivial)
    fun _ => mirrors_pure trivial

theorem mirrors_annex (bp size : Nat) : Mirrors (annex bp size) (annex bp size) := by
  refine .bind (mirrors_lift _) fun tag _ => ?_
  refine .bind (mirrors_setBlock bp tag) fun _ _ => ?_
  refine .bind (mirrors_lift _) fun top _ => ?_
  refine .bind (mirrors_lift _) fun header _ => ?_
  refine .bind (mirrors_putTag header _) fun _ _ => mirrors_current fun m => ?_
  exact .bind (mirrors_note _) fun _ _ => mirrors_coalesce bp

section growth

variable {j : Journal} {extra : Nat}

theorem growRegion_refused {error : RegionError}
    (refused : j.machine.heap.region.reserve extra j.machine.segment = .error error) :
    growRegion extra j = .ok (.error error) j := by
  rw [growRegion, Journal.bind_recorded, Region.attempt_of_refused refused]
  rfl

theorem growRegion_granted {segment : Segment}
    (granted : j.machine.heap.region.reserve extra j.machine.segment = .ok segment) :
    growRegion extra j =
      .ok (.ok j.machine.heap.size) { j with machine := j.machine.raised extra segment } := by
  rw [growRegion, Journal.bind_recorded, Region.attempt_of_reserve granted]
  rfl

theorem follows_growRegion (sound : j.Sound) (even : extra % 8 = 0)
    (bounded : j.machine.heap.size + extra ≤ Heap.maxRegion) :
    Follows (growRegion extra) (growRegion extra) (fun _ => True) j := by
  have narrow := sound.narrow
  cases reserved : j.machine.heap.region.reserve extra j.machine.segment with
  | error error =>
    exact .ok (growRegion_error reserved) (growRegion_refused reserved) sound (.refl j) trivial
  | ok segment =>
    refine .ok (growRegion_ok reserved) (growRegion_granted reserved)
      ⟨sound.lossless, ?_, ?_, narrow.head⟩ ⟨?_, [], rfl, fun i _ => ground_raised reserved i⟩
      trivial
    · rw [size_raised, Nat.add_mod, narrow.even, even]
    · rw [size_raised]
      exact bounded
    · rw [size_raised]
      exact Nat.le_add_right _ _

end growth

theorem mirrors_extend (words : Nat) : Mirrors (extend words) (extend words) := by
  refine .bind (mirrors_lift _) fun padded sum => ?_
  obtain ⟨_, rfl⟩ := Offset.add_eq_ok_iff.1 sum
  refine .ite (fun _ => mirrors_pure trivial) fun _ => mirrors_state fun j sound => ?_
  refine .lift fun top total => ?_
  obtain ⟨_, rfl⟩ := Offset.add_eq_ok_iff.1 total
  refine .ite (fun _ => mirrors_pure trivial j sound) fun narrow => ?_
  have even : (words + words % 2) * wordSize % 8 = 0 := by
    simp only [wordSize]
    omega
  refine (follows_growRegion sound even (Nat.not_lt.1 narrow)).bind fun result _ => ?_
  cases result with
  | error error => exact mirrors_pure trivial
  | ok bp => exact .bind (mirrors_annex bp _) fun _ _ => mirrors_pure trivial

theorem mirrors_layOut : Mirrors layOut layOut := by
  refine .bind (mirrors_put 0 trivial) fun _ _ => ?_
  refine .bind (mirrors_setBlock _ _) fun _ _ => ?_
  refine .bind (mirrors_lift _) fun header _ => ?_
  refine .bind (mirrors_putTag header _) fun _ _ => ?_
  exact mirrors_edit _ fun h narrow => ⟨⟨narrow.even, narrow.bounded, narrow.head⟩, rfl⟩

theorem mirrors_init : Mirrors init init := by
  refine mirrors_current fun before => mirrors_current fun _ => ?_
  refine .ite (fun _ => mirrors_pure trivial) fun _ => ?_
  refine .ite (fun _ => mirrors_pure trivial) fun _ j sound => ?_
  -- The region grows before it is found to be in use, but then nothing more is done.
  by_cases empty : j.machine.heap.size = 0
  · have small : j.machine.heap.size + 4 * wordSize ≤ Heap.maxRegion := by
      rw [empty]
      decide
    refine (follows_growRegion sound rfl small).bind fun result _ => ?_
    cases result with
    | error error => exact mirrors_pure trivial
    | ok base =>
      refine .bind (mirrors_lift _) fun _ _ => ?_
      refine .bind mirrors_layOut fun _ _ => ?_
      refine .bind (mirrors_extend _) fun result _ => ?_
      cases result with
      | error error => exact mirrors_pure trivial
      | ok bp => exact .bind (mirrors_note _) fun _ _ => mirrors_pure trivial
  · cases reserved : j.machine.heap.region.reserve (4 * wordSize) j.machine.segment with
    | error error =>
      exact .ok (bind_of_ok (growRegion_error reserved)) (bind_of_ok (growRegion_refused reserved))
        sound (.refl j) trivial
    | ok segment =>
      have checked :
          requires (j.machine.heap.size == 0) Fault.regionInUse = .error .regionInUse := by
        simp [requires, empty]
      refine .fault (k := { j with machine := j.machine.raised (4 * wordSize) segment })
        (?_ : _ = EStateM.Result.error Fault.regionInUse _) ?_
      · refine (bind_of_ok (growRegion_ok reserved)).trans ?_
        simp only [checked]
        rfl
      · refine (bind_of_ok (growRegion_granted reserved)).trans ?_
        simp only [checked]
        rfl

theorem mirrors_splitAllocated (bp size wanted : Nat) :
    Mirrors (splitAllocated bp size wanted) (splitAllocated bp size wanted) := by
  refine .bind (mirrors_lift _) fun remainder _ => .ite (fun _ => ?_) fun _ => ?_
  · refine .bind (mirrors_lift _) fun front _ => ?_
    refine .bind (mirrors_setBlock bp front) fun _ _ => ?_
    refine .bind (mirrors_lift _) fun rest _ => ?_
    refine .bind (mirrors_lift _) fun back _ => ?_
    refine .bind (mirrors_setBlock rest back) fun _ _ => ?_
    exact .bind (mirrors_indexInsert rest) fun _ _ => mirrors_note _
  · exact .bind (mirrors_lift _) fun whole _ => mirrors_setBlock bp whole

theorem mirrors_place (bp wanted : Nat) : Mirrors (place bp wanted) (place bp wanted) := by
  refine .bind (mirrors_observe _) fun size _ => ?_
  refine .bind (mirrors_lift _) fun _ _ => ?_
  refine .bind (mirrors_indexRemove bp) fun _ _ => ?_
  refine .bind (mirrors_splitAllocated bp size wanted) fun _ _ => mirrors_current fun m => ?_
  refine .ite (fun _ => ?_) fun _ => mirrors_pure trivial
  exact .bind (mirrors_observe _) fun next _ => mirrors_moveCursor _

theorem mirrors_acquire (wanted : Nat) : Mirrors (acquire wanted) (acquire wanted) := by
  refine .bind (mirrors_findFit wanted) fun found _ => ?_
  cases found with
  | some bp => exact mirrors_pure trivial
  | none => exact mirrors_current fun m => mirrors_extend _

theorem mirrors_allocate (count : Nat) : Mirrors (allocate count) (allocate count) := by
  refine .bind (mirrors_observe _) fun _ _ => .ite (fun _ => mirrors_pure trivial) fun _ => ?_
  cases adjustedSize count with
  | none => exact .bind (mirrors_note _) fun _ _ => mirrors_pure trivial
  | some wanted =>
    refine .bind (mirrors_acquire wanted) fun result _ => ?_
    cases result with
    | error error => exact .bind (mirrors_note _) fun _ _ => mirrors_pure trivial
    | ok bp =>
      refine .bind (mirrors_place bp wanted) fun _ _ => ?_
      exact .bind (mirrors_note _) fun _ _ => mirrors_pure trivial

theorem mirrors_release (p : Payload) : Mirrors (release p) (release p) := by
  refine .bind (mirrors_observe _) fun _ _ => ?_
  refine .bind (mirrors_observe _) fun tag _ => ?_
  refine .bind (mirrors_lift _) fun free _ => ?_
  refine .bind (mirrors_setBlock p.offset free) fun _ _ => ?_
  exact .bind (mirrors_coalesce p.offset) fun merged _ => mirrors_note _

theorem mirrors_shrink (bp size wanted : Nat) :
    Mirrors (shrink bp size wanted) (shrink bp size wanted) := by
  refine .bind (mirrors_lift _) fun remainder _ => .ite (fun _ => ?_) fun _ => mirrors_pure trivial
  refine .bind (mirrors_lift _) fun front _ => ?_
  refine .bind (mirrors_setBlock bp front) fun _ _ => ?_
  refine .bind (mirrors_lift _) fun rest _ => ?_
  refine .bind (mirrors_lift _) fun back _ => ?_
  refine .bind (mirrors_setBlock rest back) fun _ _ => ?_
  exact .bind (mirrors_coalesce rest) fun _ _ => mirrors_pure trivial

theorem mirrors_absorbNext (bp size wanted : Nat) :
    Mirrors (absorbNext bp size wanted) (absorbNext bp size wanted) := by
  refine .bind (mirrors_observe _) fun next _ => ?_
  refine .bind (mirrors_observe _) fun after _ => .ite (fun _ => mirrors_pure trivial) fun _ => ?_
  refine .bind (mirrors_lift _) fun total _ => .ite (fun _ => mirrors_pure trivial) fun _ => ?_
  refine .bind (mirrors_indexRemove next) fun _ _ => ?_
  refine .bind (mirrors_splitAllocated bp total wanted) fun _ _ => ?_
  refine .bind (mirrors_observe _) fun stop _ => ?_
  exact .bind (mirrors_moveCursor _) fun _ _ => mirrors_pure trivial

theorem mirrors_resizeInPlace (bp size wanted : Nat) :
    Mirrors (resizeInPlace bp size wanted) (resizeInPlace bp size wanted) := by
  refine .ite (fun _ => ?_) fun _ => mirrors_absorbNext bp size wanted
  exact .bind (mirrors_shrink bp size wanted) fun _ _ => mirrors_pure trivial

theorem mirrors_copyBytes (source count target : Nat) :
    Mirrors (copyBytes source count target) (copyBytes source count target) := by
  refine .bind (mirrors_lift _) fun stop _ => mirrors_current fun m => ?_
  exact .bind (mirrors_lift _) fun _ _ => mirrors_store trivial

theorem mirrors_writePayload (p : Payload) (start : Nat) (data : ByteArray) :
    Mirrors (writePayload p start data) (writePayload p start data) := by
  refine .bind (mirrors_observe _) fun count _ => ?_
  exact .bind (mirrors_lift _) fun _ _ => mirrors_store trivial

theorem mirrors_resizeByCopy (p : Payload) (old : Tag) (count : Nat) :
    Mirrors (resizeByCopy p old count) (resizeByCopy p old count) := by
  refine .bind (mirrors_allocate count) fun target _ => ?_
  cases target with
  | none => exact mirrors_pure trivial
  | some target =>
    refine .bind (mirrors_lift _) fun capacity _ => ?_
    refine .bind (mirrors_copyBytes _ _ _) fun _ _ => ?_
    refine .bind (mirrors_release p) fun _ _ => ?_
    exact .bind (mirrors_note _) fun _ _ => mirrors_pure trivial

theorem mirrors_resize (p : Option Payload) (count : Nat) :
    Mirrors (resize p count) (resize p count) := by
  cases p with
  | none => exact .bind (mirrors_observe _) fun _ _ => mirrors_allocate count
  | some p =>
    cases count with
    | zero =>
      refine .bind (mirrors_observe _) fun _ _ => ?_
      exact .bind (mirrors_release p) fun _ _ => mirrors_pure trivial
    | succ count =>
      simp only [resize]
      refine .bind (mirrors_observe _) fun _ _ => ?_
      cases adjustedSize (count + 1) with
      | none => exact .bind (mirrors_note _) fun _ _ => mirrors_pure trivial
      | some wanted =>
        refine .bind (mirrors_observe _) fun tag _ => mirrors_current fun m => ?_
        refine .ite (fun _ => ?_) fun _ => mirrors_resizeByCopy p tag _
        refine .bind (mirrors_resizeInPlace _ _ _) fun stays _ => ?_
        refine .ite (fun _ => ?_) fun _ => mirrors_resizeByCopy p tag _
        exact .bind (mirrors_note _) fun _ _ => mirrors_pure trivial

theorem mirrors_perform (request : Request) : Mirrors request.perform request.perform := by
  cases request with
  | init => exact .bind mirrors_init fun _ _ => mirrors_pure trivial
  | allocate count => exact .bind (mirrors_allocate count) fun _ _ => mirrors_pure trivial
  | release p => exact .bind (mirrors_release p) fun _ _ => mirrors_pure trivial
  | resize p count => exact .bind (mirrors_resize p count) fun _ _ => mirrors_pure trivial
  | write p start data =>
    refine .bind (mirrors_writePayload p start data) fun _ _ => ?_
    exact mirrors_pure trivial

end Recorded
end BoundaryTag
