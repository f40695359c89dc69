import BoundaryTag.Proofs.Encoding
import BoundaryTag.Proofs.Sessions

namespace BoundaryTag

namespace Store

def Covers (i : Nat) : Store → Prop
  | padding => i < 4
  | tag offset _ | link offset _ => offset ≤ i ∧ i < offset + 4
  | data start bytes => start ≤ i ∧ i < start + bytes.size
  | copy _ count target => target ≤ i ∧ i < target + count

def Lossless : Store → Prop
  | tag _ t => t.size ≤ maxBlock ∧ Tag.unpack t.pack = t
  | link _ target => Links.Fits target ∧ Links.decode (Links.encode target) = target
  | padding | data .. | copy .. => True

@[simp] theorem size_apply (s : Store) (r : Region) : (s.apply r).size = r.size := by
  cases s <;> simp [apply]

theorem fresh_apply (s : Store) (r : Region) (segment : Segment) :
    (s.apply r).fresh segment = r.fresh segment := by
  cases s <;> rfl

theorem byte_apply {s : Store} {r : Region} {i : Nat} (apart : ¬s.Covers i) :
    (s.apply r).memory.byte i = r.memory.byte i := by
  cases s with
  | padding =>
    refine Memory.byte_setWord_of_outside fun within => apart (show i < 4 from ?_)
    omega
  | tag offset t => exact Memory.byte_setWord_of_outside apart
  | link offset target => exact Memory.byte_setWord_of_outside apart
  | data start bytes => exact Memory.byte_write_of_outside apart
  | copy source count target => exact Memory.byte_copyWithin_of_outside apart

end Store

namespace Heap

structure Narrow (h : Heap) : Prop where
  even : h.size % 8 = 0
  bounded : h.size ≤ maxRegion
  head : Links.Fits h.freeHead

variable {h : Heap} {bp fuel : Nat} {prev from? found : Option Nat} {links : Links}

theorem fits_links (read : h.links bp = .ok links) :
    Links.Fits links.next ∧ Links.Fits links.prev := by
  simp only [Heap.links, bind_eq_ok_iff] at read
  obtain ⟨_, _, next, _, _, _, prev, _, decoded⟩ := read
  cases decoded
  exact ⟨Links.fits_decode next, Links.fits_decode prev⟩

theorem Narrow.resized (narrow : h.Narrow) {region : Region} (same : region.size = h.region.size) :
    ({ h with region } : Heap).Narrow :=
  ⟨(congrArg (· % 8) same).trans narrow.even, Nat.le_trans (Nat.le_of_eq same) narrow.bounded,
    narrow.head⟩

theorem Narrow.fits_nodeAfter (narrow : h.Narrow) (read : h.nodeAfter prev = .ok found) :
    Links.Fits found := by
  cases prev with
  | none =>
    cases read
    exact narrow.head
  | some node =>
    obtain ⟨links, followed, next⟩ := bind_eq_ok_iff.1 read
    cases next
    exact (fits_links followed).1

theorem Narrow.fits_tag {tag : Tag} (narrow : h.Narrow) (read : h.tag bp = .ok tag) :
    Links.Fits (some bp) := by
  have below := le_size_of_tag read
  have bounded := narrow.bounded
  simp only [Heap.tag, headerOf, bind_eq_ok_iff, Offset.sub_eq_ok_iff] at read
  obtain ⟨_, ⟨above, _⟩, _⟩ := read
  simp only [maxRegion, wordSize] at bounded above
  rintro n ⟨⟩
  omega

theorem fits_lastBelow (fits : Links.Fits prev) (fits' : Links.Fits from?)
    (read : h.lastBelow bp prev fuel from? = .ok found) : Links.Fits found := by
  induction fuel generalizing prev from? with
  | zero =>
    cases from? with
    | none =>
      cases read
      exact fits
    | some node => cases read
  | succ fuel ih =>
    cases from? with
    | none =>
      cases read
      exact fits
    | some node =>
      rw [lastBelow] at read
      split at read
      · cases read
        exact fits
      · obtain ⟨links, followed, read⟩ := bind_eq_ok_iff.1 read
        exact ih fits' (fits_links followed).1 read

end Heap

/-- The byte at `i`: the one that is there, or the one that growth would bring. -/
def Machine.ground (m : Machine) (i : Nat) : UInt8 :=
  if i < m.heap.size then m.heap.byte i else m.heap.region.fresh m.segment i

theorem Machine.ground_apply {m : Machine} {s : Store} {i : Nat} (apart : ¬s.Covers i) :
    ({ m with heap := { m.heap with region := s.apply m.heap.region } } : Machine).ground i =
      m.ground i :=
  ite_congr (congrArg (i < ·) (Store.size_apply s _)) (fun _ => Store.byte_apply apart)
    fun _ => congrFun (Store.fresh_apply s _ _) i

theorem Machine.ground_raised {m : Machine} {extra : Nat} {segment : Segment}
    (granted : m.heap.region.reserve extra m.segment = .ok segment) (i : Nat) :
    (m.raised extra segment).ground i = m.ground i := by
  rw [ground, ground, size_raised]
  by_cases old : i < m.heap.size
  · rw [if_pos (Nat.lt_add_right extra old), if_pos old, byte_raised old]
  · rw [if_neg old]
    split
    · rename_i below
      exact byte_raised_of_ge (Nat.le_of_not_lt old) below granted
    · exact congrFun (Region.fresh_of_reserve granted) i

/-- A machine with all that was ever stored, last store first. -/
structure Journal where
  machine : Machine
  stores : List Store

abbrev Recorded := ActionOn Journal

namespace Journal

instance : Host Journal where
  machine := Journal.machine
  update change j := { j with machine := change j.machine }
  hook store j := { j with stores := store :: j.stores }

theorem bind_recorded (next : Machine → Recorded α) (j : Journal) :
    (Machine.current >>= next) j = next j.machine j := rfl

structure Sound (j : Journal) : Prop where
  lossless : ∀ store ∈ j.stores, store.Lossless
  narrow : j.machine.heap.Narrow

/-- Between the two, the stores that were noted account for every byte: one that no store covers is
what it was, and a new one what growth has brought there. -/
structure Leads (j k : Journal) : Prop where
  grows : j.machine.heap.size ≤ k.machine.heap.size
  notes : ∃ noted, k.stores = noted ++ j.stores ∧
    ∀ i, (∀ store ∈ noted, ¬store.Covers i) → k.machine.ground i = j.machine.ground i

theorem Leads.refl (j : Journal) : j.Leads j :=
  ⟨Nat.le_refl _, [], rfl, fun _ _ => rfl⟩

theorem Leads.trans {j k l : Journal} (first : j.Leads k) (second : k.Leads l) : j.Leads l := by
  obtain ⟨before, earlier, kept⟩ := first.notes
  obtain ⟨after, later, kept'⟩ := second.notes
  refine ⟨Nat.le_trans first.grows second.grows, after ++ before,
    by rw [later, earlier, List.append_assoc], fun i apart => ?_⟩
  rw [kept' i fun store mem => apart store (List.mem_append_left _ mem)]
  exact kept i fun store mem => apart store (List.mem_append_right _ mem)

end Journal

end BoundaryTag
