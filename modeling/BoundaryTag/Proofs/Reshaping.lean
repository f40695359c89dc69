import BoundaryTag.Fit
import BoundaryTag.Proofs.Coalescing

namespace BoundaryTag.Block

def topped (front : List Block) (last : Option Block) (extra : Nat) : Block :=
  ⟨Heap.firstBlock + totalSize front, totalSize last.toList + extra, false⟩

def shrunk (b : Block) (wanted : Nat) (above : List Block) : List Block :=
  if minBlock ≤ b.size - wanted then
    ⟨b.payload, wanted, true⟩ :: attach ⟨b.payload + wanted, b.size - wanted, false⟩ above
  else b :: above

inductive Allocates (wanted : Nat) : Nat → List Block → Nat → List Block → Prop
  | found {before after : List Block} {b : Block} (free : b.allocated = false)
      (enough : wanted ≤ b.size) :
      Allocates wanted 0 (before ++ b :: after) b.payload (before ++ b.carve wanted ++ after)
  | grown {front : List Block} {last : Option Block} {growth : Nat} (grows : 0 < growth)
      (even : growth % 8 = 0) (enough : wanted ≤ growth)
      (free : ∀ b ∈ last, b.allocated = false)
      (closed : ∀ b ∈ front.getLast?, b.allocated = true) :
      Allocates wanted growth (front ++ last.toList) (topped front last growth).payload
        (front ++ (topped front last growth).carve wanted)

inductive Releases (bp : Nat) : List Block → List Block → Prop
  | freed {before after : List Block} {lower upper : Option Block} {b : Block}
      (here : b.payload = bp) (live : b.allocated = true)
      (freeBelow : ∀ c ∈ lower, c.allocated = false)
      (freeAbove : ∀ c ∈ upper, c.allocated = false)
      (closedBelow : ∀ c ∈ before.getLast?, c.allocated = true)
      (closedAbove : ∀ c ∈ after.head?, c.allocated = true) :
      Releases bp (before ++ (lower.toList ++ b :: upper.toList) ++ after)
        (before ++ b.unite lower upper :: after)

def Outgrown (b : Block) (wanted : Nat) (above : List Block) : Prop :=
  b.size < wanted ∧ ∀ c ∈ above.head?, c.allocated = true ∨ b.size + c.size < wanted

def refit (b : Block) (wanted : Nat) (above : List Block) : Option (List Block) :=
  if wanted ≤ b.size then some (b.shrunk wanted above)
  else
    match above with
    | [] => none
    | c :: rest =>
      if c.allocated || b.size + c.size < wanted then none
      else some ((fuse b [c]).carve wanted ++ rest)

inductive Resizes (inPlace : Bool) (wanted bp : Nat) :
    Nat → List Block → Nat → List Block → Prop
  | shrunk {before after : List Block} {b : Block} (allowed : inPlace = true)
      (here : b.payload = bp) (live : b.allocated = true) (enough : wanted ≤ b.size) :
      Resizes inPlace wanted bp 0 (before ++ b :: after) bp (before ++ b.shrunk wanted after)
  | stretched {before after : List Block} {b c : Block} (allowed : inPlace = true)
      (here : b.payload = bp) (live : b.allocated = true) (free : c.allocated = false)
      (short : b.size < wanted) (enough : wanted ≤ b.size + c.size) :
      Resizes inPlace wanted bp 0 (before ++ b :: c :: after) bp
        (before ++ (fuse b [c]).carve wanted ++ after)
  | moved {before after middle new : List Block} {b : Block} {growth target : Nat}
      (here : b.payload = bp) (live : b.allocated = true)
      (outgrown : inPlace = true → b.Outgrown wanted after)
      (allocated : Allocates wanted growth (before ++ b :: after) target middle)
      (released : Releases bp middle new) :
      Resizes inPlace wanted bp growth (before ++ b :: after) target new

def Scarce (blocks : List Block) (wanted : Nat) : Prop :=
  ∀ b ∈ blocks, b.allocated = false → b.size < wanted

/-- What requests go by besides the blocks: whether blocks may be resized where they lie, the least
growth, and which growth is granted. -/
structure Terms where
  inPlace : Bool
  chunk : Nat
  grants : Nat → Prop

namespace Terms

def Expands (t : Terms) (blocks : List Block) (wanted growth : Nat) : Prop :=
  growth = 0 ∨ Scarce blocks wanted ∧ growth = max wanted t.chunk ∧ t.grants growth

/-- A request is denied if it is for nothing, if no block is large enough for it, or if the heap
would have to grow and must not. -/
def Denies (t : Terms) (blocks : List Block) (count : Nat) : Prop :=
  ∀ wanted, 0 < count → adjustedSize count = some wanted →
    Scarce blocks wanted ∧ ¬t.grants (max wanted t.chunk)

/-- The block at `bp` is not resized if there is no room for it where it lies and it cannot be
handed out elsewhere. -/
inductive Refuses (t : Terms) (bp count : Nat) : List Block → Prop
  | cornered {before after : List Block} {b : Block} (here : b.payload = bp)
      (live : b.allocated = true)
      (outgrown : ∀ wanted, adjustedSize count = some wanted → t.inPlace = true →
        b.Outgrown wanted after)
      (denies : t.Denies (before ++ b :: after) count) :
      Refuses t bp count (before ++ b :: after)

end Terms

variable {wanted growth bp target start stop : Nat} {old new new' : List Block} {b c : Block}

theorem Tiles.lt_of_mem {first later : Block} {rest : List Block}
    (tiled : Tiles start (first :: rest) stop) (mem : later ∈ rest) :
    first.payload < later.payload := by
  have parted : Tiles start ([first] ++ rest) stop := tiled
  have below := parted.below List.mem_cons_self mem
  have large := (tiled.bounds List.mem_cons_self).2.2.1
  omega

theorem Tiles.cut_unique {l₁ l₂ r₁ r₂ : List Block} (tiled : Tiles start (l₁ ++ b :: l₂) stop)
    (same : l₁ ++ b :: l₂ = r₁ ++ c :: r₂) (here : b.payload = c.payload) :
    l₁ = r₁ ∧ b = c ∧ l₂ = r₂ := by
  induction l₁ generalizing start r₁ with
  | nil =>
    cases r₁ with
    | nil => simpa using same
    | cons e others =>
      obtain ⟨rfl, tail⟩ := List.cons_eq_cons.1 same
      have above : b.payload < c.payload := tiled.lt_of_mem (by simp [tail])
      omega
  | cons d rest ih =>
    cases r₁ with
    | nil =>
      obtain ⟨rfl, tail⟩ := List.cons_eq_cons.1 same
      have above : d.payload < b.payload := tiled.lt_of_mem (by simp)
      omega
    | cons e others =>
      obtain ⟨rfl, tail⟩ := List.cons_eq_cons.1 same
      obtain ⟨rfl, rfl, rfl⟩ := ih tiled.2.2.2 tail
      exact ⟨rfl, rfl, rfl⟩

theorem Tiles.others_iff {before after : List Block}
    (tiled : Tiles start (before ++ b :: after) stop) :
    c ∈ before ++ b :: after ∧ c.payload ≠ b.payload ↔ c ∈ before ∨ c ∈ after := by
  constructor
  · rintro ⟨mem, different⟩
    have other : c ≠ b := mt (congrArg _) different
    simpa [other] using mem
  · intro mem
    refine ⟨by simp only [List.mem_append, List.mem_cons]; tauto, fun same => ?_⟩
    rcases mem with below | above
    · have low := tiled.below below (List.mem_cons_self (a := b))
      have large := (tiled.bounds (List.mem_append_left _ below)).2.2.1
      omega
    · have high := tiled.split.2.lt_of_mem above
      omega

theorem share_eq (sized : b.size % 8 = 0) (even : wanted % 8 = 0) (enough : wanted ≤ b.size) :
    b.share wanted = wanted ∨ b.share wanted = wanted + 8 := by
  unfold share
  split
  · exact .inl rfl
  · rename_i narrow
    simp only [minBlock] at narrow
    omega

theorem mem_carve_of_allocated (live : c.allocated = true) :
    c ∈ b.carve wanted ↔ c = ⟨b.payload, b.share wanted, true⟩ := by
  unfold carve share
  split
  · have other : c ≠ ⟨b.payload + wanted, b.size - wanted, false⟩ := by
      rintro rfl
      cases live
    simp [other]
  · simp

@[simp] theorem unite_released (lower upper : Option Block) (b : Block) :
    b.released.unite lower upper = b.unite lower upper := by
  cases lower <;> rfl

theorem topped_eq_unite {front : List Block} {last : Option Block} {growth : Nat}
    (tiled : Tiles Heap.firstBlock (front ++ last.toList) stop) :
    topped front last growth = unite last ⟨stop, growth, false⟩ none := by
  cases last with
  | none =>
    have top := tiled.stop_eq
    simp only [Option.toList_none, List.append_nil] at top
    simp [topped, unite, fuse, top]
  | some d =>
    have here : d.payload = _ := tiled.payload_eq
    simp [topped, unite, fuse, here]

theorem Tiles.topped {front : List Block} {last : Option Block}
    (tiled : Tiles Heap.firstBlock (front ++ last.toList) stop) (large : 16 ≤ growth)
    (even : growth % 8 = 0) :
    Tiles Heap.firstBlock (front ++ [topped front last growth]) (stop + growth) := by
  have raised : Tiles Heap.firstBlock (front ++ last.toList ++ [⟨stop, growth, false⟩])
      (stop + growth) :=
    tiles_append.2 ⟨stop, tiled, tiles_singleton.2 ⟨rfl, large, even, rfl⟩⟩
  have parted : Tiles Heap.firstBlock
      (front ++ (last.toList ++ ⟨stop, growth, false⟩ :: Option.toList none) ++ [])
      (stop + growth) := by
    simpa using raised
  rw [topped_eq_unite tiled]
  simpa using parted.exchange fun lo hi tiled => tiled.unite

theorem merge_topped {front : List Block} {last : Option Block}
    (tiled : Tiles Heap.firstBlock (front ++ last.toList) stop)
    (coalesced : Coalesced (front ++ last.toList)) (free : ∀ b ∈ last, b.allocated = false)
    (closed : ∀ b ∈ front.getLast?, b.allocated = true) :
    merge (front ++ last.toList ++ [⟨stop, growth, false⟩]) =
      front ++ [topped front last growth] := by
  have runFree : ∀ c ∈ last.toList ++ ⟨stop, growth, false⟩ :: Option.toList none,
      c.allocated = false := by
    intro c mem
    simp only [Option.toList_none, List.mem_append, Option.mem_toList, List.mem_singleton] at mem
    rcases mem with below | rfl
    · exact free c below
    · rfl
  have below := (List.isChain_append.1 coalesced).1
  have merged :
      merge (front ++ (last.toList ++ ⟨stop, growth, false⟩ :: Option.toList none) ++ []) = _ :=
    merge_unite runFree below closed List.isChain_nil (by simp)
  rw [topped_eq_unite tiled]
  simpa using merged

theorem topped_unique {front front' : List Block} {last last' : Option Block}
    (same : front ++ last.toList = front' ++ last'.toList)
    (free : ∀ b ∈ last, b.allocated = false) (closed : ∀ b ∈ front.getLast?, b.allocated = true)
    (free' : ∀ b ∈ last', b.allocated = false)
    (closed' : ∀ b ∈ front'.getLast?, b.allocated = true) : front = front' ∧ last = last' := by
  cases last with
  | none =>
    cases last' with
    | none => simpa using same
    | some d =>
      have whole : front = front' ++ [d] := by simpa using same
      have live := closed d (by simp [whole])
      simp [free' d rfl] at live
  | some d =>
    cases last' with
    | none =>
      have whole : front' = front ++ [d] := by simpa using same.symm
      have live := closed' d (by simp [whole])
      simp [free d rfl] at live
    | some e =>
      obtain ⟨rfl, rest⟩ := List.append_inj' same rfl
      simpa using rest

theorem refit_eq_none_iff {above : List Block} :
    b.refit wanted above = none ↔ b.Outgrown wanted above := by
  unfold refit Outgrown
  split
  · rename_i enough
    simp [Nat.not_lt.2 enough]
  · rename_i short
    cases above with
    | nil => simpa using short
    | cons c rest => cases held : c.allocated <;> simp [Nat.lt_of_not_le short, held]

theorem refit_cases {above run : List Block} (fits : b.refit wanted above = some run) :
    (wanted ≤ b.size ∧ run = b.shrunk wanted above) ∨
      ∃ c rest, above = c :: rest ∧ c.allocated = false ∧ b.size < wanted ∧
        wanted ≤ b.size + c.size ∧ run = (fuse b [c]).carve wanted ++ rest := by
  unfold refit at fits
  split at fits
  · rename_i enough
    cases fits
    exact .inl ⟨enough, rfl⟩
  · rename_i short
    cases above with
    | nil => cases fits
    | cons c rest =>
      simp only [Option.ite_none_left_eq_some, Bool.or_eq_true, decide_eq_true_eq, not_or,
        Bool.not_eq_true, Option.some.injEq] at fits
      obtain ⟨⟨free, enough⟩, rfl⟩ := fits
      exact .inr ⟨c, rest, rfl, free, Nat.lt_of_not_le short, Nat.le_of_not_lt enough, rfl⟩

namespace Allocates

theorem unique {other : Nat} (tiled : Tiles start old stop)
    (first : Allocates wanted growth old target new)
    (second : Allocates wanted growth old other new') (same : growth = 0 → target = other) :
    target = other ∧ new = new' := by
  cases first with
  | found =>
    generalize split : _ ++ _ :: _ = blocks at second
    cases second with
    | found =>
      obtain ⟨rfl, rfl, rfl⟩ := tiled.cut_unique split (same rfl)
      exact ⟨rfl, rfl⟩
    | grown grows => exact absurd grows (Nat.lt_irrefl 0)
  | grown grows _ _ free closed =>
    generalize split : _ ++ Option.toList _ = blocks at second
    cases second with
    | found => exact absurd grows (Nat.lt_irrefl 0)
    | grown _ _ _ free' closed' =>
      obtain ⟨rfl, rfl⟩ := topped_unique split free closed free' closed'
      exact ⟨rfl, rfl⟩

theorem tiles (allocates : Allocates wanted growth old target new)
    (tiled : Tiles Heap.firstBlock old stop) (large : 16 ≤ wanted) (even : wanted % 8 = 0) :
    Tiles Heap.firstBlock new (stop + growth) := by
  cases allocates with
  | @found before after b free enough =>
    have parted : Tiles Heap.firstBlock (before ++ [b] ++ after) stop := by simpa using tiled
    exact parted.exchange fun lo hi tiled => tiled.carve large even enough
  | @grown front last _ grows aligned enough free closed =>
    have parted : Tiles Heap.firstBlock (front ++ [topped front last growth] ++ [])
        (stop + growth) := by
      simpa using tiled.topped (Nat.le_trans large enough) aligned
    have room : wanted ≤ (topped front last growth).size := by
      simp only [topped]
      omega
    simpa using parted.exchange fun lo hi tiled => tiled.carve large even room

theorem coalesced (allocates : Allocates wanted growth old target new)
    (coalesced : Coalesced old) : Coalesced new := by
  cases allocates with
  | @found before after b free enough =>
    obtain ⟨below, above, _, closed⟩ := coalesced.around free
    exact below.carve above closed b wanted
  | @grown front last _ grows aligned enough free closed =>
    have below : Coalesced front := (List.isChain_append.1 coalesced).1
    simpa using below.carve .nil (by simp) (topped front last growth) wanted

theorem live_iff (allocates : Allocates wanted growth old target new)
    (tiled : Tiles Heap.firstBlock old stop) (large : 16 ≤ wanted) (even : wanted % 8 = 0) :
    ∃ size, (size = wanted ∨ size = wanted + 8) ∧
      ∀ c : Block, c.allocated = true → (c ∈ new ↔ c ∈ old ∨ c = ⟨target, size, true⟩) := by
  cases allocates with
  | @found before after b free enough =>
    have carved (c : Block) (live : c.allocated = true) :
        c ∈ before ++ b.carve wanted ++ after ↔
          c ∈ before ++ b :: after ∨ c = ⟨b.payload, b.share wanted, true⟩ := by
      have other : c ≠ b := by
        rintro rfl
        simp [free] at live
      simp only [List.mem_append, List.mem_cons, mem_carve_of_allocated live, other, false_or]
      tauto
    have sized := (tiled.bounds (b := b) (by simp)).2.2.2
    exact ⟨b.share wanted, share_eq sized even enough, carved⟩
  | @grown front last _ grows aligned enough free closed =>
    have carved (c : Block) (live : c.allocated = true) :
        c ∈ front ++ (topped front last growth).carve wanted ↔ c ∈ front ++ last.toList ∨
          c = ⟨(topped front last growth).payload, (topped front last growth).share wanted,
            true⟩ := by
      have other : c ∉ last.toList := by
        intro mem
        simp [free c (Option.mem_toList.1 mem)] at live
      simp only [List.mem_append, mem_carve_of_allocated live, other, or_false]
    have whole := tiled.topped (Nat.le_trans large enough) aligned
    have sized := (whole.bounds (b := topped front last growth) (by simp)).2.2.2
    have room : wanted ≤ (topped front last growth).size := by
      simp only [topped]
      omega
    exact ⟨_, share_eq sized even room, carved⟩

theorem fresh (allocates : Allocates wanted growth old target new)
    (tiled : Tiles Heap.firstBlock old stop) (mem : b ∈ old) (live : b.allocated = true) :
    b.payload ≠ target := by
  intro same
  cases allocates with
  | @found before after d free enough =>
    cases tiled.eq_of_payload mem (by simp) same
    simp [free] at live
  | @grown front last _ grows aligned enough free closed =>
    have other : b ∉ last.toList := by
      intro mem
      simp [free b (Option.mem_toList.1 mem)] at live
    have below := tiled.split.1.bounds ((List.mem_append.1 mem).resolve_right other)
    simp only [topped] at same
    omega

end Allocates

namespace Releases

theorem exists_cut (releases : Releases bp old new) :
    ∃ before b after, old = before ++ b :: after ∧ b.payload = bp ∧ b.allocated = true := by
  cases releases with
  | @freed front back lower upper b here live =>
    exact ⟨front ++ lower.toList, b, upper.toList ++ back, by simp, here, live⟩

theorem eq_merge {before after : List Block} (releases : Releases b.payload old new)
    (split : old = before ++ b :: after) (tiled : Tiles start old stop)
    (coalesced : Coalesced old) : new = merge (before ++ b.released :: after) := by
  cases releases with
  | @freed front back lower upper c here live freeBelow freeAbove closedBelow closedAbove =>
    have cut : front ++ lower.toList ++ c :: (upper.toList ++ back) = before ++ b :: after := by
      simpa using split
    have tiled : Tiles start (front ++ lower.toList ++ c :: (upper.toList ++ back)) stop := by
      simpa using tiled
    obtain ⟨rfl, rfl, rfl⟩ := tiled.cut_unique cut here
    obtain ⟨lowest, rest, _⟩ := List.isChain_append.1 coalesced
    have runFree : ∀ d ∈ lower.toList ++ c.released :: upper.toList, d.allocated = false := by
      intro d mem
      simp only [List.mem_append, List.mem_cons, Option.mem_toList] at mem
      rcases mem with below | rfl | above
      · exact freeBelow d below
      · rfl
      · exact freeAbove d above
    have merged := merge_unite runFree (List.isChain_append.1 lowest).1 closedBelow rest closedAbove
    rw [unite_released] at merged
    rw [← merged]
    simp

theorem of_merge {before after : List Block} (tiled : Tiles start (before ++ b :: after) stop)
    (coalesced : Coalesced (before ++ b :: after)) (live : b.allocated = true) :
    Releases b.payload (before ++ b :: after) (merge (before ++ b.released :: after)) := by
  obtain ⟨below, above, _⟩ := List.isChain_append.1 coalesced
  obtain ⟨front, lower, rfl, freeBelow, closedBelow⟩ := exists_closed_below below
  obtain ⟨upper, back, rfl, freeAbove, closedAbove⟩ := exists_closed_above above.tail
  have releases : Releases b.payload (front ++ lower.toList ++ b :: (upper.toList ++ back))
      (front ++ b.unite lower upper :: back) := by
    have freed := freed rfl live freeBelow freeAbove closedBelow closedAbove
    simpa using freed
  exact releases.eq_merge rfl tiled coalesced ▸ releases

theorem unique (tiled : Tiles start old stop) (coalesced : Coalesced old)
    (first : Releases bp old new) (second : Releases bp old new') : new = new' := by
  obtain ⟨before, b, after, rfl, rfl, _⟩ := first.exists_cut
  exact (first.eq_merge rfl tiled coalesced).trans (second.eq_merge rfl tiled coalesced).symm

theorem live_iff (releases : Releases bp old new) (tiled : Tiles start old stop)
    (coalesced : Coalesced old) :
    ∀ c : Block, c.allocated = true → (c ∈ new ↔ c ∈ old ∧ c.payload ≠ bp) := by
  intro c live
  obtain ⟨before, b, after, rfl, rfl, _⟩ := releases.exists_cut
  rw [releases.eq_merge rfl tiled coalesced, mem_merge_of_allocated live]
  have other : c ≠ b.released := by
    rintro rfl
    cases live
  rw [tiled.others_iff]
  simp [other]

end Releases

theorem Resizes.of_refit {before above run : List Block} (live : b.allocated = true)
    (fits : b.refit wanted above = some run) :
    Resizes true wanted b.payload 0 (before ++ b :: above) b.payload (before ++ run) := by
  rcases refit_cases fits with ⟨enough, rfl⟩ | ⟨c, rest, rfl, free, short, enough, rfl⟩
  · exact .shrunk rfl rfl live enough
  · rw [← List.append_assoc]
    exact .stretched rfl rfl live free short enough

theorem Resizes.live_iff {inPlace : Bool}
    (resizes : Resizes inPlace wanted bp growth old target new)
    (tiled : Tiles Heap.firstBlock old stop) (coalesced : Coalesced old) (large : 16 ≤ wanted)
    (even : wanted % 8 = 0) :
    ∃ size, (size = wanted ∨ size = wanted + 8) ∧ ∀ c : Block, c.allocated = true →
      (c ∈ new ↔ (c ∈ old ∧ c.payload ≠ bp) ∨ c = ⟨target, size, true⟩) := by
  cases resizes with
  | @shrunk before after b allowed here live enough =>
    subst here
    have sized := (tiled.bounds (b := b) (by simp)).2.2.2
    by_cases room : minBlock ≤ b.size - wanted
    · refine ⟨wanted, .inl rfl, fun c live => ?_⟩
      have other : c ≠ ⟨b.payload + wanted, b.size - wanted, false⟩ := by
        rintro rfl
        cases live
      rw [tiled.others_iff, Block.shrunk, if_pos room]
      simp only [List.mem_append, List.mem_cons, mem_attach_of_allocated live, other, false_or]
      tauto
    · refine ⟨b.size, ?_, fun c _ => ?_⟩
      · simp only [minBlock] at room
        omega
      · have same : b = ⟨b.payload, b.size, true⟩ := by rw [← live]
        rw [tiled.others_iff, Block.shrunk, if_neg room, ← same]
        simp only [List.mem_append, List.mem_cons]
        tauto
  | @stretched before after b d allowed here live free short enough =>
    subst here
    have first := (tiled.bounds (b := b) (by simp)).2.2.2
    have second := (tiled.bounds (b := d) (by simp)).2.2.2
    have total : (fuse b [d]).size = b.size + d.size := by simp [fuse]
    refine ⟨(fuse b [d]).share wanted, share_eq (by omega) even (by omega), fun c live => ?_⟩
    have other : c ≠ d := by
      rintro rfl
      simp [free] at live
    rw [tiled.others_iff]
    simp only [List.mem_append, List.mem_cons, mem_carve_of_allocated live, other, false_or]
    exact or_right_comm
  | @moved before after middle _ b _ _ here held outgrown allocated released =>
    subst here
    have tiled' := allocated.tiles tiled large even
    obtain ⟨size, sized, handed⟩ := allocated.live_iff tiled large even
    refine ⟨size, sized, fun c live => ?_⟩
    have moved : c = ⟨target, size, true⟩ → c.payload ≠ b.payload := by
      rintro rfl same
      exact allocated.fresh tiled (by simp) held same.symm
    rw [released.live_iff tiled' (allocated.coalesced coalesced) c live, handed c live,
      or_and_right, and_iff_left_of_imp moved]

theorem Resizes.fresh {inPlace : Bool} (resizes : Resizes inPlace wanted bp growth old target new)
    (tiled : Tiles Heap.firstBlock old stop) (mem : c ∈ old) (live : c.allocated = true)
    (other : c.payload ≠ bp) : c.payload ≠ target := by
  cases resizes with
  | shrunk => exact other
  | stretched => exact other
  | moved _ _ _ allocated => exact allocated.fresh tiled mem live

end BoundaryTag.Block
