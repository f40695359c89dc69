import BoundaryTag.Region

/-! Sharing.  Any number of regions grow in one segment, in any order, while others move the break
as they like, above the regions.  No byte ever belongs to two regions, and a growth that fails has
changed nothing.

Making a region and growing one are single steps, as there is only one thread: nobody moves the
break while a region pads it or asks for bytes.  So a new region never finds that its padding has
gone elsewhere, and `inSegment` has no `discontiguous` case. -/

namespace BoundaryTag

def Backing.base : Backing → Nat
  | arena _ => 0
  | segment base _ => base

namespace Region

def base (r : Region) : Nat := r.backing.base

def stop (r : Region) : Nat := r.base + r.size

def Holds (r : Region) (address : Nat) : Prop := r.base ≤ address ∧ address < r.stop

structure Lies (r : Region) (s : Segment) : Prop where
  shared : r.backing = .segment r.base r.backing.bound
  aligned : r.base % 8 = 0
  limited : r.size ≤ r.backing.bound
  below : r.stop ≤ s.top

variable {r t : Region} {s s' : Segment} {extra limit : Nat}

@[simp] theorem base_extended (r : Region) (extra : Nat) (s : Segment) :
    (r.extended extra s).base = r.base := rfl

@[simp] theorem stop_extended (r : Region) (extra : Nat) (s : Segment) :
    (r.extended extra s).stop = r.stop + extra := by
  simp [stop, Nat.add_assoc]

theorem attempt_eq_ok_iff (shared : r.backing = .segment r.base limit) :
    r.attempt extra s = (.ok (), s') ↔ extra ≤ r.available ∧ extra ≤ maxStep ∧
      s.extend? extra = some s' ∧ s.top = r.stop := by
  unfold attempt
  rw [shared]
  split
  · rename_i short
    exact ⟨nofun, fun granted => absurd granted.1 (Nat.not_le.2 short)⟩
  · rename_i room
    simp only
    split
    · rename_i far
      exact ⟨nofun, fun granted => absurd granted.2.1 (Nat.not_le.2 far)⟩
    · rename_i near
      have room := Nat.not_lt.1 room
      have near := Nat.not_lt.1 near
      cases asked : s.extend? extra with
      | none => simp
      | some grown =>
        by_cases meets : s.top = r.base + r.size <;> simp [stop, meets, room, near]

theorem Lies.extended (lies : r.Lies s) (granted : r.attempt extra s = (.ok (), s')) :
    (r.extended extra s').Lies s' := by
  obtain ⟨room, _, moved, meets⟩ := (attempt_eq_ok_iff lies.shared).1 granted
  have limited := lies.limited
  have stops : (r.extended extra s').stop = s'.top := by
    rw [stop_extended, Segment.top_extend moved, meets]
  refine ⟨lies.shared, lies.aligned, ?_, Nat.le_of_eq stops⟩
  rw [available] at room
  have : r.size + extra ≤ r.backing.bound := by omega
  exact size_extended r extra s' ▸ this

theorem not_holds_extended (below : t.stop ≤ s.top) (meets : s.top = r.stop)
    (apart : ∀ a, r.Holds a → ¬t.Holds a) {a : Nat} (held : (r.extended extra s').Holds a) :
    ¬t.Holds a := by
  intro other
  by_cases old : a < r.stop
  · exact apart a ⟨held.1, old⟩ other
  · have := other.2
    omega

theorem lies_inSegment (made : inSegment limit s = .ok (r, s')) :
    r.Lies s' ∧ s.top ≤ s'.top ∧ ∀ a, ¬r.Holds a := by
  unfold inSegment at made
  split at made
  · cases made
  · rename_i padded granted
    cases made
    have top := Segment.top_pad granted
    refine ⟨⟨rfl, ?_, Nat.zero_le _, Nat.le_refl _⟩, ?_, ?_⟩
    · exact top ▸ alignUp_mod s.top
    · exact top ▸ le_alignUp s.top
    · rintro a ⟨above, below⟩
      exact Nat.not_lt.2 above below

end Region

structure Commons where
  segment : Segment
  regions : List Region

namespace Commons

def create (c : Commons) (limit : Nat) : Except RegionError Unit × Commons :=
  match Region.inSegment limit c.segment with
  | .error error => (.error error, c)
  | .ok (r, segment) => (.ok (), ⟨segment, c.regions ++ [r]⟩)

def grow (c : Commons) (i : Fin c.regions.length) (extra : Nat) :
    Except RegionError Nat × Commons :=
  match c.regions[i].attempt extra c.segment with
  | (.error error, segment) => (.error error, { c with segment })
  | (.ok (), segment) =>
    (.ok c.regions[i].size, ⟨segment, c.regions.set i (c.regions[i].extended extra segment)⟩)

/-- What the owners of the regions and everybody else may do between two operations.  The others put
the break anywhere above the regions, and the system may change its mind about what it refuses. -/
inductive Step : Commons → Commons → Prop
  | create {c : Commons} (limit : Nat) : Step c (c.create limit).2
  | grow {c : Commons} (i : Fin c.regions.length) (extra : Nat) : Step c (c.grow i extra).2
  | foreign {c : Commons} (s : Segment) (above : ∀ r ∈ c.regions, r.stop ≤ s.top) :
    Step c { c with segment := s }

inductive Reachable : Commons → Prop
  | start (s : Segment) : Reachable ⟨s, []⟩
  | step {c d : Commons} (reachable : Reachable c) (step : Step c d) : Reachable d

structure Orderly (c : Commons) : Prop where
  lies : ∀ r ∈ c.regions, r.Lies c.segment
  apart : c.regions.Pairwise fun r t => ∀ a, r.Holds a → ¬t.Holds a

structure Grows (c : Commons) (i : Fin c.regions.length) (extra : Nat)
    (result : Except RegionError Nat) (d : Commons) : Prop where
  granted : ∀ offset, result = .ok offset → offset = c.regions[i].size ∧
    d.segment = { c.segment with top := c.segment.top + extra } ∧
    ∃ r, d.regions = c.regions.set i r ∧ r.backing = c.regions[i].backing ∧
      r.size = c.regions[i].size + extra
  refused : ∀ error, result = .error error → d = c
  decided : extra ≤ c.regions[i].available → extra ≤ Region.maxStep →
    c.segment.refuses c.segment.top extra = false →
    ((∃ offset, result = .ok offset) ↔ c.segment.top = c.regions[i].stop)

variable {c d : Commons}

theorem Orderly.create (orderly : c.Orderly) (limit : Nat) : (c.create limit).2.Orderly := by
  unfold Commons.create
  split
  · exact orderly
  · rename_i r segment made
    obtain ⟨lies, higher, empty⟩ := Region.lies_inSegment made
    constructor
    · intro t mem
      rcases List.mem_append.1 mem with old | new
      · have old := orderly.lies t old
        exact ⟨old.shared, old.aligned, old.limited, Nat.le_trans old.below higher⟩
      · cases List.mem_singleton.1 new
        exact lies
    · refine List.pairwise_append.2 ⟨orderly.apart, List.pairwise_singleton .., ?_⟩
      intro t _ u new a _
      cases List.mem_singleton.1 new
      exact empty a

theorem Orderly.grow (orderly : c.Orderly) (i : Fin c.regions.length) (extra : Nat) :
    (c.grow i extra).2.Orderly := by
  unfold Commons.grow
  split
  · rename_i failed
    rw [Region.attempt_error failed]
    exact orderly
  · rename_i segment granted
    have inside := orderly.lies c.regions[i] (List.getElem_mem i.2)
    obtain ⟨_, _, moved, meets⟩ := (Region.attempt_eq_ok_iff inside.shared).1 granted
    have higher : c.segment.top ≤ segment.top := by
      rw [Segment.top_extend moved]
      exact Nat.le_add_right ..
    constructor
    · intro t mem
      rcases List.mem_or_eq_of_mem_set mem with old | rfl
      · have old := orderly.lies t old
        exact ⟨old.shared, old.aligned, old.limited, Nat.le_trans old.below higher⟩
      · exact inside.extended granted
    · have apart := List.pairwise_iff_getElem.1 orderly.apart
      have below (k : Nat) (bound : k < c.regions.length) :=
        (orderly.lies c.regions[k] (List.getElem_mem bound)).below
      refine List.pairwise_iff_getElem.2 fun j k first second order a => ?_
      rw [List.length_set] at first second
      have old := apart j k first second order
      -- at most one of the two has grown, and the other one lies below the old break
      rw [List.getElem_set, List.getElem_set]
      split
      · rename_i here
        subst here
        rw [if_neg (Nat.ne_of_lt order)]
        exact Region.not_holds_extended (below k second) meets old
      · split
        · rename_i here
          subst here
          intro held new
          exact Region.not_holds_extended (below j first) meets
            (fun b high low => old b low high) new held
        · exact old a

theorem Orderly.step (orderly : c.Orderly) (step : Step c d) : d.Orderly := by
  cases step with
  | create limit => exact orderly.create limit
  | grow i extra => exact orderly.grow i extra
  | foreign s above =>
    refine ⟨fun r mem => ?_, orderly.apart⟩
    have lies := orderly.lies r mem
    exact ⟨lies.shared, lies.aligned, lies.limited, above r mem⟩

theorem Reachable.orderly (reachable : c.Reachable) : c.Orderly := by
  induction reachable with
  | start s => exact ⟨nofun, .nil⟩
  | step _ step ih => exact ih.step step

theorem Orderly.grows (orderly : c.Orderly) (i : Fin c.regions.length) (extra : Nat) :
    c.Grows i extra (c.grow i extra).1 (c.grow i extra).2 := by
  have shared := (orderly.lies c.regions[i] (List.getElem_mem i.2)).shared
  unfold Commons.grow
  cases tried : c.regions[i].attempt extra c.segment with
  | mk result segment =>
    cases result with
    | error error =>
      cases Region.attempt_error tried
      refine ⟨nofun, fun _ _ => rfl, fun room near willing => ?_⟩
      refine ⟨nofun, fun meets => ?_⟩
      have moved := Segment.extend?_eq_some_iff.2 ⟨willing, rfl⟩
      have granted := (Region.attempt_eq_ok_iff shared).2 ⟨room, near, moved, meets⟩
      cases tried.symm.trans granted
    | ok =>
      obtain ⟨_, _, moved, meets⟩ := (Region.attempt_eq_ok_iff shared).1 tried
      refine ⟨?_, nofun, fun _ _ _ => ⟨fun _ => meets, fun _ => ⟨_, rfl⟩⟩⟩
      rintro _ ⟨⟩
      obtain ⟨_, rfl⟩ := Segment.extend?_eq_some_iff.1 moved
      exact ⟨rfl, rfl, _, rfl, rfl, Region.size_extended ..⟩

/-- Regions that share a segment stay apart, and each growth either ends at the break or leaves
everything as it was. -/
theorem orderly_of_reachable (reachable : c.Reachable) :
    c.Orderly ∧ ∀ i extra, c.Grows i extra (c.grow i extra).1 (c.grow i extra).2 :=
  ⟨reachable.orderly, reachable.orderly.grows⟩

def twins : Commons :=
  (((⟨⟨5, fun _ _ => false, fun _ => 255⟩, []⟩ : Commons).create 64).2.create 32).2

def parted : Commons :=
  let grown := (twins.grow ⟨0, by decide +kernel⟩ 16).2
  { grown with segment := grown.segment.shift 16 }

theorem orderly_parted :
    parted.regions.map (fun r => (r.base, r.size)) = [(8, 16), (8, 0)] ∧ parted.segment.top = 40 ∧
      parted.Orderly ∧
        ∀ i extra, parted.Grows i extra (parted.grow i extra).1 (parted.grow i extra).2 := by
  have seeded : twins.Reachable := .step (.step (.start _) (.create 64)) (.create 32)
  have reachable : parted.Reachable :=
    .step (.step seeded (.grow ⟨0, by decide +kernel⟩ 16)) (.foreign _ (by decide +kernel))
  exact ⟨by decide +kernel, by decide +kernel, orderly_of_reachable reachable⟩

end Commons

end BoundaryTag
