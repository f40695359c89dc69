import BoundaryTag.Proofs.Lending
import BoundaryTag.Proofs.Sessions

/-! Staleness.  Where a header may stand, a word whose flag is set passes for that of an allocated
block.  In a heap without stale headers each such word is one.  It stays so as long as clients write
no odd byte there and growth brings none, and then every payload that was handed out and is not lent
any more is refused. -/

namespace BoundaryTag

def Heap.NoStaleHeader (h : Heap) : Prop := ∀ i, h.HeaderLike i → h.Lends (i + 4)

theorem Heap.Blank.noStaleHeader {h : Heap} (blank : h.Blank) : h.NoStaleHeader := by
  intro i poses
  have := poses.below
  rw [blank.size] at this
  omega

namespace Request

/-- A write puts no odd byte where the first byte of a header may stand. -/
def Gentle : Request → Prop
  | .write p start data =>
    ∀ i (inside : i < data.size), (p.offset + start + i) % 8 = 4 → data[i].toNat % 2 = 0
  | _ => True

instance : (request : Request) → Decidable request.Gentle
  | .write p start data => inferInstanceAs (Decidable
      (∀ i (inside : i < data.size), (p.offset + start + i) % 8 = 4 → data[i].toNat % 2 = 0))
  | .init | .allocate _ | .release _ | .resize _ _ => .isTrue trivial

end Request

def Reply.payloads : Reply → List Payload
  | .handed p => p.toList
  | _ => []

inductive Fault.Disowns (purpose : Purpose) (bp : Nat) : Fault → Prop
  | outsideHeap : Disowns purpose bp (.outsideHeap purpose bp)
  | notAllocated : Disowns purpose bp (.notAllocated purpose bp)

namespace Machine

variable {m n : Machine} {blocks : List Block} {nodes : List Nat} {b : Block} {count : Nat}

section settled

variable (settled : m.heap.Settled blocks nodes) (noStale : m.heap.NoStaleHeader)
include settled noStale

theorem noStaleHeader_of_allots {reply : Option Payload}
    (allots : m.Allots blocks nodes count reply n) (even : m.BringsEven n) :
    n.heap.NoStaleHeader ∧ ∀ p ∈ reply.toList, n.heap.Lends p.offset := by
  have lent := allots.lends_iff settled
  refine ⟨fun i poses => (lent _).2 ?_, fun p handed => (lent _).2 ?_⟩
  rotate_left
  · exact .inr ⟨p, Option.mem_toList.1 handed, rfl⟩
  cases allots with
  | denied heap =>
    rw [heap] at poses
    exact .inl (noStale i poses)
  | @served _ p _ _ _ _ _ _ _ serves =>
    rcases serves.headerLike even i poses with old | opened
    · exact .inl (noStale i old)
    · exact .inr ⟨p, rfl, opened⟩

variable (mem : b ∈ blocks)
include mem

theorem not_headerLike_of_owns {i : Nat} (owned : b.Owns i) : ¬m.heap.HeaderLike i := by
  intro poses
  obtain ⟨c, mem', _, place⟩ := (settled.lends_iff _).1 (noStale i poses)
  have bounds := settled.keeps.spelt.bounds mem'
  have inside : b.Covers (i + 4) := ⟨by have := owned.1; omega, by have := owned.2; omega⟩
  cases settled.keeps.spelt.tiled.eq_of_covers mem mem' inside ⟨by omega, by omega⟩
  have := owned.1
  omega

theorem noStaleHeader_of_resized {reply : Option Payload}
    (resized : m.Resized blocks b count reply n) (even : m.BringsEven n) :
    n.heap.NoStaleHeader ∧ ∀ q ∈ reply.toList, n.heap.Lends q.offset := by
  cases reply with
  | none =>
    cases resized with
    | denied heap => exact ⟨heap ▸ noStale, nofun⟩
  | some q =>
    have lent := resized.lends_iff settled
    refine ⟨fun i poses => (lent _).2 ?_, fun p handed => (lent _).2 ?_⟩
    rotate_left
    · cases Option.mem_toList.1 handed
      exact .inl rfl
    cases resized with
    | served _ _ _ _ _ _ _ _ headerLike =>
      have still (i : Nat) (owned : b.Owns i) := not_headerLike_of_owns settled noStale mem owned
      rcases headerLike even still i poses with ⟨old, away⟩ | opened
      · exact .inr ⟨noStale i old, Ne.symm away⟩
      · exact .inl opened.symm

variable (live : b.allocated = true)
include live

theorem noStaleHeader_release : ∃ n, release ⟨b.payload⟩ m = .ok () n ∧ n.heap.NoStaleHeader := by
  obtain ⟨n, _, _, ran, settled', releases, _⟩ := releases settled mem live
  refine ⟨n, ran, fun i poses => ?_⟩
  obtain ⟨old, away⟩ := headerLike_release settled mem live ran poses
  exact (lends_of_releases settled settled' releases _).2 ⟨noStale i old, Ne.symm away⟩

theorem noStaleHeader_overwritten {start : Nat} {data : ByteArray}
    (fits : start + data.size + 8 ≤ b.size)
    (gentle : (Request.write ⟨b.payload⟩ start data).Gentle) :
    (m.heap.overwritten (b.payload + start) data).NoStaleHeader := by
  intro i poses
  have bounds := settled.keeps.spelt.bounds mem
  have room : b.payload + start + data.size + 8 ≤ b.payload + b.size := by omega
  have settled' := settled.overwrite mem live (Nat.le_add_right b.payload start) room
  have below := poses.below
  have flag := poses.flag
  rw [Heap.size_overwritten] at below
  rw [Heap.byte_overwritten (by omega)] at flag
  -- a byte that was written where a header starts is even, and the flag is its lowest bit
  split at flag
  · rename_i within
    have inside : i - (b.payload + start) < data.size := by omega
    have place : b.payload + start + (i - (b.payload + start)) = i := by omega
    have even := gentle _ inside (by rw [place]; exact poses.place)
    have byte : (⟨data⟩ : Memory).byte (i - (b.payload + start)) = data[i - (b.payload + start)] :=
      dif_pos inside
    rw [byte] at flag
    omega
  · have old : m.heap.HeaderLike i := ⟨poses.above, poses.place, below, flag⟩
    rw [settled'.lends_iff, ← settled.lends_iff]
    exact noStale i old

end settled

structure Refuses (m : Machine) (p : Payload) : Prop where
  access : ∃ fault, fault.Disowns .access p.offset ∧ m.heap.payloadSize p = .error fault ∧
    m.heap.payload p = .error fault ∧
    ∀ start data, writePayload p start data m = .error fault m
  release : ∃ fault, fault.Disowns .release p.offset ∧ release p m = .error fault m
  resize : ∀ count, 0 < count → adjustedSize count ≠ none →
    ∃ fault, fault.Disowns .resize p.offset ∧ resize (some p) count m = .error fault m

theorem refuses_of_disowns {p : Payload} (laidOut : m.heap.initialized = true)
    (disowned : ∀ purpose, ∃ fault, fault.Disowns purpose p.offset ∧
      m.heap.allocatedTag p.offset purpose = .error fault) : m.Refuses p := by
  have passed : observe (·.requireInitialized) m = .ok () m :=
    observe_of_ok (by rw [Heap.requireInitialized, laidOut]; rfl)
  refine ⟨?_, ?_, ?_⟩
  · obtain ⟨fault, disowns, checked⟩ := disowned .access
    have sized : m.heap.payloadSize p = .error fault := by
      rw [Heap.payloadSize, checked]
      rfl
    have ranged : m.heap.payloadRange p = .error fault := by
      rw [Heap.payloadRange, sized]
      rfl
    refine ⟨fault, disowns, sized, ?_, fun start data => ?_⟩
    · rw [Heap.payload, ranged]
      rfl
    · rw [writePayload]
      exact bind_of_error (observe_of_error ranged)
  · obtain ⟨fault, disowns, checked⟩ := disowned .release
    refine ⟨fault, disowns, ?_⟩
    rw [Machine.release, bind_of_ok passed]
    exact bind_of_error (observe_of_error checked)
  · intro count positive adjusted
    obtain ⟨fault, disowns, checked⟩ := disowned .resize
    refine ⟨fault, disowns, ?_⟩
    obtain ⟨wanted, adjusted⟩ := Option.ne_none_iff_exists'.1 adjusted
    rw [Machine.resize, bind_of_ok passed]
    · simp only [adjusted]
      exact bind_of_error (observe_of_error checked)
    · exact Nat.ne_of_gt positive

theorem refuses_of_noStaleHeader {p : Payload} (settled : m.heap.Settled blocks nodes)
    (noStale : m.heap.NoStaleHeader) (onGrid : p.offset % 8 = 0) (stale : ¬m.heap.Lends p.offset) :
    m.Refuses p := by
  apply refuses_of_disowns settled.initialized
  intro purpose
  rw [Heap.allocatedTag]
  by_cases inside : (Heap.prologue < p.offset && p.offset < m.heap.size) = true
  · have bounds : Heap.prologue < p.offset ∧ p.offset < m.heap.size := by
      simpa only [Bool.and_eq_true, decide_eq_true_eq] using inside
    simp only [Heap.prologue] at bounds
    have read := Heap.tag_eq settled.keeps.spelt.bounded (by omega : 4 ≤ p.offset) (by omega)
    have free : (m.heap.region.memory.tag (p.offset - 4)).allocated = false := by
      refine Bool.eq_false_iff.2 fun live => stale ?_
      have poses : m.heap.HeaderLike (p.offset - 4) :=
        ⟨by omega, by omega, by omega, (Memory.allocated_tag _ _).1 live⟩
      have lends := noStale _ poses
      rwa [Nat.sub_add_cancel (by omega)] at lends
    refine ⟨_, .notAllocated, ?_⟩
    rw [inside, read]
    simp [requires, free, bind, Except.bind]
  · refine ⟨_, .outsideHeap, ?_⟩
    rw [Bool.eq_false_iff.2 inside]
    rfl

end Machine

namespace Session

variable {s : Session} {blocks : List Block} {nodes : List Nat} {request : Request} {reply : Reply}
  {m : Machine}

theorem noStaleHeader_perform (settled : s.machine.heap.Settled blocks nodes)
    (accounts : s.ledger.Accounts blocks) (noStale : s.machine.heap.NoStaleHeader)
    (admitted : s.Admits request) (gentle : request.Gentle)
    (ran : request.perform s.machine = .ok reply m) (even : s.machine.BringsEven m) :
    m.heap.NoStaleHeader ∧ ∀ p ∈ reply.payloads, m.heap.Lends p.offset := by
  cases request with
  | init =>
    cases ran.symm.trans (Machine.bind_of_ok (Machine.init_again settled.initialized))
    exact ⟨noStale, nofun⟩
  | allocate count =>
    obtain ⟨_, _, ran', allots⟩ := Machine.run_allocate settled count
    cases ran.symm.trans (Machine.bind_of_ok ran')
    exact Machine.noStaleHeader_of_allots settled noStale allots even
  | release p =>
    obtain ⟨b, mem, live, rfl⟩ := exists_live accounts admitted
    obtain ⟨n, ran', noStale⟩ := Machine.noStaleHeader_release settled noStale mem live
    cases ran.symm.trans (Machine.bind_of_ok ran')
    exact ⟨noStale, nofun⟩
  | resize p count =>
    cases p with
    | none =>
      obtain ⟨_, _, ran', allots⟩ := Machine.run_allocate settled count
      rw [← Machine.resize_none settled] at ran'
      cases ran.symm.trans (Machine.bind_of_ok ran')
      exact Machine.noStaleHeader_of_allots settled noStale allots even
    | some p =>
      obtain ⟨b, mem, live, rfl⟩ := exists_live accounts admitted
      rcases Nat.eq_zero_or_pos count with rfl | positive
      · obtain ⟨n, ran', noStale⟩ := Machine.noStaleHeader_release settled noStale mem live
        have emptied := Machine.resize_zero settled ⟨b.payload⟩
        rw [Machine.bind_of_ok ran'] at emptied
        cases ran.symm.trans (Machine.bind_of_ok emptied)
        exact ⟨noStale, nofun⟩
      · obtain ⟨_, _, ran', resized⟩ := Machine.run_resize settled mem live positive
        cases ran.symm.trans (Machine.bind_of_ok ran')
        exact Machine.noStaleHeader_of_resized settled noStale mem resized even
  | write p start data =>
    obtain ⟨b, mem, live, rfl, room⟩ := exists_room settled accounts admitted
    have ran' := Machine.run_writePayload settled mem live room
    cases ran.symm.trans (Machine.bind_of_ok ran')
    exact ⟨Machine.noStaleHeader_overwritten settled noStale mem live room gentle, nofun⟩

/-- A run in which clients keep to what is allowed and the region to what it may bring, and all
payloads that it has handed out. -/
inductive Course (brings : Machine → Machine → Prop) (allowed : Request → Prop) :
    Session → List Payload → Prop
  | start (backing : Backing) (config : Config) (segment : Segment) :
      Course brings allowed (start backing config segment) []
  | request {s : Session} {handed : List Payload} {request : Request} {reply : Reply} {m : Machine}
      (course : Course brings allowed s handed) (permitted : allowed request)
      (admitted : s.Admits request) (ran : request.perform s.machine = .ok reply m)
      (brought : brings s.machine m) :
      Course brings allowed ⟨m, s.ledger.settle request reply⟩ (reply.payloads ++ handed)
  | disturbance {s : Session} {handed : List Payload} (course : Course brings allowed s handed)
      (segment : Segment) : Course brings allowed ⟨{ s.machine with segment }, s.ledger⟩ handed

inductive Tame (s : Session) (handed : List Payload) : Prop
  | blank (blank : s.machine.heap.Blank) (vacant : s.ledger = .empty) (unused : handed = [])
  | settled {blocks : List Block} {nodes : List Nat}
      (settled : s.machine.heap.Settled blocks nodes) (accounts : s.ledger.Accounts blocks)
      (noStale : s.machine.heap.NoStaleHeader) (onGrid : ∀ p ∈ handed, p.offset % 8 = 0)

variable {handed : List Payload} {brings : Machine → Machine → Prop} {allowed : Request → Prop}

theorem noStaleHeader_init (blank : s.machine.heap.Blank) {result : Except HeapError Unit}
    (ran : Machine.init s.machine = .ok result m) (even : s.machine.BringsEven m) :
    m.heap.NoStaleHeader := by
  cases valid : s.machine.heap.config.isValid with
  | false =>
    cases ran.symm.trans (Machine.init_invalid blank.initialized valid)
    exact blank.noStaleHeader
  | true =>
    cases granted : s.machine.heap.region.reserve 16 s.machine.segment with
    | error error =>
      cases ran.symm.trans (Machine.init_refused blank.initialized valid granted)
      exact blank.noStaleHeader
    | ok segment =>
      have bare := Machine.size_founded segment blank.size
      have founded (i : Nat) : ¬(s.machine.founded segment).heap.HeaderLike i := by
        intro poses
        have above := poses.above
        have place := poses.place
        have below := poses.below
        omega
      have opened := Machine.init_eq blank.initialized blank.size valid granted
      cases seeded : (s.machine.founded segment).grant s.machine.heap.config.chunk with
      | error error =>
        rw [seeded] at opened
        cases ran.symm.trans opened
        exact fun i poses => absurd poses (founded i)
      | ok grown =>
        obtain ⟨large, _, even⟩ := Machine.chunk_bounds valid
        have settled := Machine.settled_founded segment blank valid
        obtain ⟨n, _, _, annexed, _, _, _, _, _, _, grows⟩ :=
          Machine.run_annex settled.keeps settled.coalesced settled.aims seeded large even
        rw [bare] at annexed
        rw [seeded] at opened
        dsimp only at opened
        rw [Machine.bind_of_ok annexed] at opened
        cases ran.symm.trans opened
        have even : (s.machine.founded segment).BringsEven n := by
          intro i _ below place
          have same := congrFun (Region.fresh_of_reserve granted) i
          exact (congrArg (·.toNat % 2) same).trans
            (even i (by rw [blank.size]; exact Nat.zero_le i) below place)
        exact fun i poses =>
          absurd ((grows.headerLike even i poses).resolve_right nofun) (founded i)

theorem tame_of_course (course : Course Machine.BringsEven Request.Gentle s handed) :
    s.Tame handed := by
  induction course with
  | start backing config segment => exact .blank ⟨rfl, rfl, rfl, rfl, rfl⟩ rfl rfl
  | request _ gentle admitted ran even ih =>
    cases ih with
    | blank blank vacant unused =>
      cases admits_blank blank vacant admitted
      obtain ⟨result, m, ran', _, outcome⟩ := init_blank blank
      cases ran.symm.trans (Machine.bind_of_ok ran')
      rcases outcome with blank | ⟨blocks, nodes, settled, free⟩
      · exact .blank blank vacant unused
      · exact .settled settled (vacant ▸ .empty free) (noStaleHeader_init blank ran' even)
          (by simp [unused, Reply.payloads])
    | settled settled accounts noStale onGrid =>
      obtain ⟨reply, m, new, nodes, answers⟩ := exists_answer settled accounts admitted
      cases ran.symm.trans answers.ran
      obtain ⟨noStale, lent⟩ :=
        noStaleHeader_perform settled accounts noStale admitted gentle ran even
      refine .settled answers.settled answers.accounts noStale fun p mem => ?_
      rcases List.mem_append.1 mem with fresh | old
      · exact answers.settled.onGrid_of_lends (lent p fresh)
      · exact onGrid p old
  | disturbance _ segment ih =>
    cases ih with
    | blank blank vacant unused => exact .blank blank vacant unused
    | settled settled accounts noStale onGrid => exact .settled settled accounts noStale onGrid

/-- As long as neither clients nor growth bring anything that could pass for a header, whatever has
been handed out and is not lent any more is refused. -/
theorem refuses_of_course (course : Course Machine.BringsEven Request.Gentle s handed) {p : Payload}
    (returned : p ∈ handed) (stale : ¬s.machine.heap.Lends p.offset) : s.machine.Refuses p := by
  cases tame_of_course course with
  | blank _ _ unused =>
    rw [unused] at returned
    cases returned
  | settled settled _ noStale onGrid =>
    exact Machine.refuses_of_noStaleHeader settled noStale (onGrid p returned) stale

def handing (s : Session) (request : Request) : List Payload :=
  match request.perform s.machine with
  | .ok reply _ => reply.payloads
  | .error _ _ => []

theorem Course.respond (course : Course brings allowed s handed) (permitted : allowed request)
    (admitted : s.Admits request) (brought : brings s.machine (s.respond request).machine) :
    Course brings allowed (s.respond request) (s.handing request ++ handed) := by
  rw [Session.respond] at brought ⊢
  rw [handing]
  cases ran : request.perform s.machine with
  | ok reply m =>
    rw [ran] at brought
    exact course.request permitted admitted ran brought
  | error fault m => exact course

def Brings (brings : Machine → Machine → Prop) : Session → List Request → Prop
  | _, [] => True
  | s, request :: rest =>
    brings s.machine (s.respond request).machine ∧ Brings brings (s.respond request) rest

instance decidableBrings (brings : Machine → Machine → Prop) [∀ m n, Decidable (brings m n)] :
    (s : Session) → (requests : List Request) → Decidable (s.Brings brings requests)
  | _, [] => .isTrue trivial
  | s, request :: rest =>
    let := decidableBrings brings (s.respond request) rest
    inferInstanceAs (Decidable (_ ∧ _))

theorem Course.play (course : Course brings allowed s handed) (requests : List Request)
    (permitted : ∀ request ∈ requests, allowed request) (plays : s.Plays requests)
    (brought : s.Brings brings requests) :
    ∃ later, Course brings allowed (s.play requests) later ∧ handed ⊆ later := by
  induction requests generalizing s handed with
  | nil => exact ⟨handed, course, fun _ mem => mem⟩
  | cons request rest ih =>
    have next := course.respond (permitted request List.mem_cons_self) plays.1 brought.1
    obtain ⟨later, course, kept⟩ :=
      ih next (fun request mem => permitted request (List.mem_cons_of_mem _ mem)) plays.2 brought.2
    exact ⟨later, course, fun p mem => kept (List.mem_append_right _ mem)⟩

theorem Course.mono {wider : Request → Prop} {eases : Machine → Machine → Prop}
    (course : Course brings allowed s handed) (eased : ∀ m n, brings m n → eases m n)
    (sub : ∀ request, allowed request → wider request) : Course eases wider s handed := by
  induction course with
  | start backing config segment => exact .start backing config segment
  | request _ permitted admitted ran brought ih =>
    exact ih.request (sub _ permitted) admitted ran (eased _ _ brought)
  | disturbance _ segment ih => exact ih.disturbance segment

def lone : Session :=
  (start (.arena 128) ⟨64, .firstFit, true⟩ ⟨0, fun _ _ => false, fun _ => 255⟩).play
    [.init, .allocate 8]

/-- A second block is handed out behind it, both are given back, and whoever owns the block in their
place writes where the header of the second one was. -/
def reused (byte : UInt8) : Session :=
  (lone.respond (.allocate 8)).play
    [.release ⟨32⟩, .release ⟨16⟩, .allocate 40, .write ⟨16⟩ 12 ⟨#[byte]⟩]

theorem course_second : ∃ handed,
    Course Machine.BringsEven Request.Gentle (lone.respond (.allocate 8)) handed ∧
      ⟨32⟩ ∈ handed := by
  have fresh : Course Machine.BringsEven Request.Gentle (start (.arena 128)
      ⟨64, .firstFit, true⟩ ⟨0, fun _ _ => false, fun _ => 255⟩) [] := .start _ _ _
  obtain ⟨handed, course, _⟩ :=
    fresh.play [.init, .allocate 8] (by decide) (by decide +kernel) (by decide +kernel)
  have course : Course Machine.BringsEven Request.Gentle lone handed := course
  have returned : lone.handing (.allocate 8) = [⟨32⟩] := by decide +kernel
  have arena : lone.machine.heap.region.backing = .arena 128 := by decide +kernel
  exact ⟨_, course.respond trivial (by decide +kernel) (Machine.bringsEven_of_arena arena),
    by simp [returned]⟩

theorem refuses_reused : ¬(reused 16).machine.heap.Lends 32 ∧
    (reused 16).machine.Refuses ⟨32⟩ := by
  -- what is evaluated is evaluated once for all, as each part would run the session again
  obtain ⟨stale, plays, brought⟩ : ¬(reused 16).machine.heap.Lends 32 ∧
      (lone.respond (.allocate 8)).Plays
        [.release ⟨32⟩, .release ⟨16⟩, .allocate 40, .write ⟨16⟩ 12 ⟨#[16]⟩] ∧
      (lone.respond (.allocate 8)).Brings Machine.BringsEven
        [.release ⟨32⟩, .release ⟨16⟩, .allocate 40, .write ⟨16⟩ 12 ⟨#[16]⟩] := by decide +kernel
  obtain ⟨_, course, returned⟩ := course_second
  obtain ⟨_, course, kept⟩ := course.play _ (by decide) plays brought
  exact ⟨stale, refuses_of_course course (kept returned) stale⟩

theorem not_refuses_reused : ¬∀ (s : Session) (handed : List Payload) (p : Payload),
    Course (fun _ _ => True) (fun _ => True) s handed → p ∈ handed →
      ¬s.machine.heap.Lends p.offset → s.machine.Refuses p := by
  intro refuses
  obtain ⟨stale, taken, plays, brought⟩ : ¬(reused 17).machine.heap.Lends 32 ∧
      (reused 17).machine.heap.payloadSize ⟨32⟩ = .ok 8 ∧
      (lone.respond (.allocate 8)).Plays
        [.release ⟨32⟩, .release ⟨16⟩, .allocate 40, .write ⟨16⟩ 12 ⟨#[17]⟩] ∧
      (lone.respond (.allocate 8)).Brings (fun _ _ => True)
        [.release ⟨32⟩, .release ⟨16⟩, .allocate 40, .write ⟨16⟩ 12 ⟨#[17]⟩] := by decide +kernel
  obtain ⟨_, course, returned⟩ := course_second
  obtain ⟨handed, course, kept⟩ := (course.mono (fun _ _ _ => trivial) fun _ _ => trivial).play _
    (fun _ _ => trivial) plays brought
  obtain ⟨fault, _, refused, _⟩ := (refuses (reused 17) handed ⟨32⟩ course (kept returned)
    stale).access
  cases refused.symm.trans taken

def paired : Session :=
  ((start (.segment 0 4096) ⟨64, .firstFit, false⟩ ⟨0, fun _ _ => false, fun _ => 255⟩).play
    [.init, .allocate 8]).respond (.allocate 8)

/-- The block at 80 comes with what the segment has left there, and moving it copies that over the
header of a block that has been given back. -/
def littered : Session :=
  paired.play [.allocate 24, .allocate 24, .release ⟨32⟩, .release ⟨16⟩, .resize (some ⟨80⟩) 24]

theorem not_refuses_littered : ∃ handed, Course (fun _ _ => True) Request.Gentle littered handed ∧
    ⟨32⟩ ∈ handed ∧ ¬littered.machine.heap.Lends 32 ∧ ¬littered.machine.Refuses ⟨32⟩ := by
  have fresh : Course (fun _ _ => True) Request.Gentle (start (.segment 0 4096)
      ⟨64, .firstFit, false⟩ ⟨0, fun _ _ => false, fun _ => 255⟩) [] := .start _ _ _
  obtain ⟨handed, course, _⟩ :=
    fresh.play [.init, .allocate 8] (by decide) (by decide +kernel) (by decide +kernel)
  have second : Course (fun _ _ => True) Request.Gentle paired _ :=
    course.respond trivial (by decide +kernel) trivial
  obtain ⟨stale, taken, plays, brought⟩ : ¬littered.machine.heap.Lends 32 ∧
      littered.machine.heap.payloadSize ⟨32⟩ = .ok 4294967280 ∧
      paired.Plays [.allocate 24, .allocate 24, .release ⟨32⟩, .release ⟨16⟩,
        .resize (some ⟨80⟩) 24] ∧
      paired.Brings (fun _ _ => True) [.allocate 24, .allocate 24, .release ⟨32⟩, .release ⟨16⟩,
        .resize (some ⟨80⟩) 24] := by decide +kernel
  obtain ⟨later, course, kept⟩ := second.play _ (by decide) plays brought
  refine ⟨later, course, kept (List.mem_append_left _ (by decide +kernel)), stale,
    fun refuses => ?_⟩
  obtain ⟨fault, _, refused, _⟩ := refuses.access
  cases refused.symm.trans taken

end Session

end BoundaryTag
