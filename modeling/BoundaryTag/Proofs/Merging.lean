import BoundaryTag.Proofs.Tiling
import Mathlib.Data.List.Chain

namespace BoundaryTag.Block

def Coalesced (blocks : List Block) : Prop :=
  blocks.IsChain fun b c => b.allocated = true ∨ c.allocated = true

def attach (b : Block) : List Block → List Block
  | [] => [b]
  | c :: rest =>
    if b.allocated || c.allocated then b :: c :: rest
    else ⟨b.payload, b.size + c.size, false⟩ :: rest

def merge (blocks : List Block) : List Block := blocks.foldr attach []

def fuse (b : Block) (rest : List Block) : Block := ⟨b.payload, b.size + totalSize rest, false⟩

/-- The first `wanted` bytes become an allocated block.  The remainder stays free if it can stand as
a block, and is handed out as well if it cannot. -/
def carve (b : Block) (wanted : Nat) : List Block :=
  if minBlock ≤ b.size - wanted then
    [⟨b.payload, wanted, true⟩, ⟨b.payload + wanted, b.size - wanted, false⟩]
  else [⟨b.payload, b.size, true⟩]

def share (b : Block) (wanted : Nat) : Nat :=
  if minBlock ≤ b.size - wanted then wanted else b.size

def released (b : Block) : Block := { b with allocated := false }

theorem carve_eq_cons (b : Block) (wanted : Nat) :
    ∃ rest, b.carve wanted = ⟨b.payload, b.share wanted, true⟩ :: rest := by
  unfold carve share
  split
  · exact ⟨_, rfl⟩
  · exact ⟨_, rfl⟩

theorem le_share {b : Block} {wanted : Nat} (enough : wanted ≤ b.size) :
    wanted ≤ b.share wanted := by
  unfold share
  split
  · exact Nat.le_refl _
  · exact enough

theorem payloads_carve (b : Block) (wanted : Nat) (l₁ l₂ : List Block) :
    payloads (l₁ ++ b :: l₂) ⊆ payloads (l₁ ++ b.carve wanted ++ l₂) := by
  obtain ⟨rest, split⟩ := carve_eq_cons b wanted
  intro x
  rw [split]
  simp only [payloads_append, payloads_cons, List.mem_append, List.mem_cons]
  rintro (below | here | above)
  · exact .inl (.inl below)
  · exact .inl (.inr (.inl here))
  · exact .inr above

@[simp] theorem merge_nil : merge [] = [] := rfl

@[simp] theorem merge_cons (b : Block) (rest : List Block) :
    merge (b :: rest) = attach b (merge rest) := rfl

theorem merge_append (l₁ l₂ : List Block) : merge (l₁ ++ l₂) = l₁.foldr attach (merge l₂) := by
  simp [merge, List.foldr_append]

theorem attach_eq_cons {b : Block} {l : List Block} (coalesced : Coalesced (b :: l)) :
    attach b l = b :: l := by
  cases l with
  | nil => rfl
  | cons c rest =>
    have apart := (List.isChain_cons_cons.1 coalesced).1
    rcases apart with h | h <;> simp [attach, h]

theorem foldr_attach {l₁ l₂ : List Block} (coalesced : Coalesced (l₁ ++ l₂)) :
    l₁.foldr attach l₂ = l₁ ++ l₂ := by
  induction l₁ with
  | nil => rfl
  | cons b rest ih =>
    have tail : Coalesced (rest ++ l₂) := coalesced.tail
    rw [List.foldr_cons, ih tail]
    exact attach_eq_cons coalesced

theorem merge_eq_self {blocks : List Block} (coalesced : Coalesced blocks) :
    merge blocks = blocks := by
  have padded : Coalesced (blocks ++ []) := by simpa using coalesced
  simpa [merge] using foldr_attach padded

theorem merge_free_run {b : Block} {run after : List Block} (free : b.allocated = false)
    (runFree : ∀ c ∈ run, c.allocated = false) (coalesced : Coalesced after)
    (closed : ∀ c ∈ after.head?, c.allocated = true) :
    merge (b :: (run ++ after)) = fuse b run :: after := by
  induction run generalizing b with
  | nil =>
    have chained : Coalesced (b :: after) :=
      List.isChain_cons.2 ⟨fun c mem => .inr (closed c mem), coalesced⟩
    obtain ⟨payload, size, _⟩ := b
    cases free
    simpa [merge_eq_self coalesced, fuse] using attach_eq_cons chained
  | cons c rest ih =>
    have head := runFree c (by simp)
    have tail := ih (b := c) head fun d mem => runFree d (by simp [mem])
    rw [merge_cons, List.cons_append, tail]
    simp [attach, free, fuse]

theorem merge_run {before run after : List Block} {b : Block} (below : Coalesced before)
    (closedBelow : ∀ c ∈ before.getLast?, c.allocated = true) (free : b.allocated = false)
    (runFree : ∀ c ∈ run, c.allocated = false) (above : Coalesced after)
    (closedAbove : ∀ c ∈ after.head?, c.allocated = true) :
    merge (before ++ b :: (run ++ after)) = before ++ fuse b run :: after := by
  rw [merge_append, merge_free_run free runFree above closedAbove]
  apply foldr_attach
  refine List.isChain_append.2 ⟨below, ?_, ?_⟩
  · exact List.isChain_cons.2 ⟨fun c mem => .inr (closedAbove c mem), above⟩
  · intro c last _ _
    exact .inl (closedBelow c last)

theorem coalesced_attach {b : Block} {l : List Block} (coalesced : Coalesced l) :
    Coalesced (attach b l) := by
  cases l with
  | nil => exact List.isChain_singleton b
  | cons c rest =>
    rw [attach]
    split
    · rename_i either
      exact List.isChain_cons_cons.2 ⟨by simpa using either, coalesced⟩
    · rename_i neither
      have free : c.allocated = false := by
        cases h : c.allocated <;> simp_all
      refine List.isChain_cons.2 ⟨?_, coalesced.tail⟩
      intro d mem
      have := (List.isChain_cons.1 coalesced).1 d mem
      simpa [free] using this

theorem coalesced_merge (blocks : List Block) : Coalesced (merge blocks) := by
  induction blocks with
  | nil => exact List.isChain_nil
  | cons b rest ih => exact coalesced_attach ih

theorem merge_behind {l₁ l₂ : List Block} {t b : Block} (below : Coalesced (l₁ ++ [t]))
    (closed : t.allocated = true) (above : Coalesced l₂) :
    merge (l₁ ++ [t] ++ b :: l₂) = l₁ ++ t :: attach b l₂ := by
  have joined : Coalesced (l₁ ++ [t] ++ attach b l₂) := by
    refine List.isChain_append.2 ⟨below, coalesced_attach above, ?_⟩
    intro c last _ _
    rw [List.getLast?_concat] at last
    cases last
    exact .inl closed
  have folded := foldr_attach joined
  rw [List.append_assoc] at folded
  rw [merge_append, merge_cons, merge_eq_self above]
  simpa using folded

theorem mem_attach_of_allocated {b c : Block} {l : List Block} (live : c.allocated = true) :
    c ∈ attach b l ↔ c = b ∨ c ∈ l := by
  cases l with
  | nil => simp [attach]
  | cons d rest =>
    rw [attach]
    split
    · simp
    · rename_i neither
      have notFirst : c ≠ b := by
        rintro rfl
        simp [live] at neither
      have notSecond : c ≠ d := by
        rintro rfl
        simp [live] at neither
      have notJoined : c ≠ ⟨b.payload, b.size + d.size, false⟩ := by
        rintro rfl
        simp at live
      simp [notFirst, notSecond, notJoined]

theorem mem_merge_of_allocated {b : Block} {blocks : List Block} (live : b.allocated = true) :
    b ∈ merge blocks ↔ b ∈ blocks := by
  induction blocks with
  | nil => simp
  | cons c rest ih => simp [mem_attach_of_allocated live, ih]

theorem tiles_attach {start stop : Nat} {b : Block} {l : List Block}
    (tiled : Tiles start (b :: l) stop) : Tiles start (attach b l) stop := by
  cases l with
  | nil => exact tiled
  | cons c rest =>
    rw [attach]
    split
    · exact tiled
    · obtain ⟨here, large, even, _, _, even', tiled⟩ := tiled
      refine ⟨here, by simp; omega, by simp; omega, ?_⟩
      simpa [Nat.add_assoc] using tiled

theorem Tiles.merge {start stop : Nat} {blocks : List Block} (tiled : Tiles start blocks stop) :
    Tiles start (merge blocks) stop := by
  induction blocks generalizing start with
  | nil => exact tiled
  | cons b rest ih =>
    obtain ⟨here, large, even, tiled⟩ := tiled
    exact tiles_attach ⟨here, large, even, ih tiled⟩

theorem Tiles.fuse {start stop : Nat} {b : Block} {run : List Block}
    (tiled : Tiles start (b :: run) stop) : Tiles start [fuse b run] stop := by
  have total := tiled.stop_eq
  have first := tiled.bounds (List.mem_cons_self (a := b))
  have even : ∀ {lo : Nat} {l : List Block}, Tiles lo l stop → totalSize l % 8 = 0 := by
    intro lo l
    induction l generalizing lo with
    | nil => simp
    | cons c rest ih =>
      rintro ⟨_, _, even, tiled⟩
      have := ih tiled
      simp only [totalSize_cons]
      omega
  have rest := even tiled.2.2.2
  simp only [totalSize_cons] at total
  refine ⟨tiled.1, ?_, ?_, ?_⟩ <;> simp only [Block.fuse, minBlock, Tiles] <;> omega

theorem Tiles.carve {start stop wanted : Nat} {b : Block} (tiled : Tiles start [b] stop)
    (large : 16 ≤ wanted) (even : wanted % 8 = 0) (fits : wanted ≤ b.size) :
    Tiles start (b.carve wanted) stop := by
  obtain ⟨here, large', even', end'⟩ := tiles_singleton.1 tiled
  unfold Block.carve
  split
  · rename_i room
    simp only [minBlock] at room
    refine ⟨here, by simpa [minBlock] using large, even, ?_, ?_, ?_, ?_⟩ <;>
      simp only [minBlock, Tiles] <;> omega
  · exact tiles_singleton.2 ⟨here, large', even', end'⟩

theorem Coalesced.carve {l₁ l₂ : List Block} (below : Coalesced l₁) (above : Coalesced l₂)
    (closed : ∀ c ∈ l₂.head?, c.allocated = true) (b : Block) (wanted : Nat) :
    Coalesced (l₁ ++ b.carve wanted ++ l₂) := by
  have carved : Coalesced (b.carve wanted ++ l₂) := by
    unfold Block.carve
    split
    · exact List.isChain_cons_cons.2
        ⟨.inl rfl, List.isChain_cons.2 ⟨fun c mem => .inr (closed c mem), above⟩⟩
    · exact List.isChain_cons.2 ⟨fun _ _ => .inl rfl, above⟩
  rw [List.append_assoc]
  refine List.isChain_append.2 ⟨below, carved, ?_⟩
  intro c _ d head
  obtain ⟨rest, split⟩ := b.carve_eq_cons wanted
  rw [split] at head
  simp only [List.cons_append, List.head?_cons, Option.mem_def, Option.some.injEq] at head
  exact .inr (by rw [← head])

theorem Coalesced.around {l₁ l₂ : List Block} {b : Block} (coalesced : Coalesced (l₁ ++ b :: l₂))
    (free : b.allocated = false) :
    Coalesced l₁ ∧ Coalesced l₂ ∧ (∀ c ∈ l₁.getLast?, c.allocated = true) ∧
      ∀ c ∈ l₂.head?, c.allocated = true := by
  obtain ⟨below, here, seam⟩ := List.isChain_append.1 coalesced
  obtain ⟨next, above⟩ := List.isChain_cons.1 here
  refine ⟨below, above, ?_, ?_⟩
  · intro c mem
    simpa [free] using seam c mem b rfl
  · intro c mem
    simpa [free] using next c mem

theorem exists_closed_below {l : List Block} (coalesced : Coalesced l) :
    ∃ (before : List Block) (joined : Option Block), l = before ++ joined.toList ∧
      (∀ c ∈ joined, c.allocated = false) ∧ ∀ c ∈ before.getLast?, c.allocated = true := by
  rcases List.eq_nil_or_concat l with rfl | ⟨front, last, rfl⟩
  · exact ⟨[], none, by simp⟩
  rw [List.concat_eq_append] at coalesced ⊢
  cases live : last.allocated with
  | true => exact ⟨front ++ [last], none, by simp [live]⟩
  | false =>
    refine ⟨front, some last, by simp, by simp [live], ?_⟩
    intro c mem
    have chain := (List.isChain_append.1 coalesced).2.2 c mem last (by simp)
    simpa [live] using chain

theorem exists_closed_above {l : List Block} (coalesced : Coalesced l) :
    ∃ (joined : Option Block) (after : List Block), l = joined.toList ++ after ∧
      (∀ c ∈ joined, c.allocated = false) ∧ ∀ c ∈ after.head?, c.allocated = true := by
  cases l with
  | nil => exact ⟨none, [], by simp⟩
  | cons first rest =>
    cases live : first.allocated with
    | true => exact ⟨none, first :: rest, by simp [live]⟩
    | false =>
      refine ⟨some first, rest, by simp, by simp [live], ?_⟩
      intro c mem
      have chain := (List.isChain_cons.1 coalesced).1 c mem
      simpa [live] using chain

end BoundaryTag.Block
