import BoundaryTag.Blocks

namespace BoundaryTag.Block

def Tiles : Nat → List Block → Nat → Prop
  | start, [], stop => start = stop
  | start, b :: rest, stop =>
    b.payload = start ∧ minBlock ≤ b.size ∧ b.size % 8 = 0 ∧ Tiles (start + b.size) rest stop

def Covers (b : Block) (i : Nat) : Prop := b.payload ≤ i + 4 ∧ i + 4 < b.payload + b.size

def Owns (b : Block) (i : Nat) : Prop := b.payload ≤ i ∧ i + 8 < b.payload + b.size

def Marks (b : Block) (i : Nat) : Prop := b.Covers i ∧ ¬b.Owns i

def payloads (blocks : List Block) : List Nat := blocks.map (·.payload)

def free (blocks : List Block) : List Block := blocks.filter (!·.allocated)

@[simp] theorem totalSize_nil : totalSize [] = 0 := rfl

@[simp] theorem totalSize_cons (b : Block) (rest : List Block) :
    totalSize (b :: rest) = b.size + totalSize rest := rfl

@[simp] theorem totalSize_append (l₁ l₂ : List Block) :
    totalSize (l₁ ++ l₂) = totalSize l₁ + totalSize l₂ := by
  induction l₁ with
  | nil => simp
  | cons b rest ih => simp [ih, Nat.add_assoc]

theorem totalSize_filter (blocks : List Block) :
    totalSize (blocks.filter (!·.allocated)) + totalSize (blocks.filter (·.allocated)) =
      totalSize blocks := by
  induction blocks with
  | nil => rfl
  | cons b rest ih =>
    cases live : b.allocated <;> simp [live] <;> omega

@[simp] theorem payloads_nil : payloads [] = [] := rfl

@[simp] theorem payloads_cons (b : Block) (rest : List Block) :
    payloads (b :: rest) = b.payload :: payloads rest := rfl

@[simp] theorem payloads_append (l₁ l₂ : List Block) :
    payloads (l₁ ++ l₂) = payloads l₁ ++ payloads l₂ :=
  List.map_append

@[simp] theorem mem_free {b : Block} {blocks : List Block} :
    b ∈ free blocks ↔ b ∈ blocks ∧ b.allocated = false := by
  simp [free]

@[simp] theorem free_append (l₁ l₂ : List Block) : free (l₁ ++ l₂) = free l₁ ++ free l₂ := by
  simp [free]

theorem Owns.covers {b : Block} {i : Nat} (owned : b.Owns i) : b.Covers i := by
  obtain ⟨above, below⟩ := owned
  constructor <;> omega

theorem tiles_append {start stop : Nat} {l₁ l₂ : List Block} :
    Tiles start (l₁ ++ l₂) stop ↔ ∃ middle, Tiles start l₁ middle ∧ Tiles middle l₂ stop := by
  induction l₁ generalizing start with
  | nil => simp [Tiles]
  | cons b rest ih => simp [Tiles, ih, and_assoc]

theorem tiles_singleton {start stop : Nat} {b : Block} :
    Tiles start [b] stop ↔
      b.payload = start ∧ minBlock ≤ b.size ∧ b.size % 8 = 0 ∧ start + b.size = stop := by
  simp [Tiles]

theorem Tiles.stop_eq {start stop : Nat} {blocks : List Block} (tiled : Tiles start blocks stop) :
    stop = start + totalSize blocks := by
  induction blocks generalizing start with
  | nil => simpa [Tiles] using tiled.symm
  | cons b rest ih =>
    obtain ⟨_, _, _, tiled⟩ := tiled
    simp [ih tiled, Nat.add_assoc]

theorem Tiles.le {start stop : Nat} {blocks : List Block} (tiled : Tiles start blocks stop) :
    start ≤ stop := by
  rw [tiled.stop_eq]
  exact Nat.le_add_right _ _

theorem Tiles.exchange {start stop : Nat} {before old new after : List Block}
    (tiled : Tiles start (before ++ old ++ after) stop)
    (fits : ∀ lo hi, Tiles lo old hi → Tiles lo new hi) :
    Tiles start (before ++ new ++ after) stop := by
  simp only [tiles_append] at tiled ⊢
  obtain ⟨hi, ⟨lo, below, within⟩, above⟩ := tiled
  exact ⟨hi, ⟨lo, below, fits lo hi within⟩, above⟩

theorem Tiles.bounds {start stop : Nat} {blocks : List Block} (tiled : Tiles start blocks stop)
    {b : Block} (mem : b ∈ blocks) :
    start ≤ b.payload ∧ b.payload + b.size ≤ stop ∧ 16 ≤ b.size ∧ b.size % 8 = 0 := by
  induction blocks generalizing start with
  | nil => simp at mem
  | cons c rest ih =>
    obtain ⟨here, large, even, tiled⟩ := tiled
    cases mem with
    | head =>
      have := tiled.le
      simp only [minBlock] at large
      omega
    | tail _ mem =>
      have := ih tiled mem
      omega

theorem Tiles.aligned {start stop : Nat} {blocks : List Block} (tiled : Tiles start blocks stop)
    (onGrid : start % 8 = 0) : stop % 8 = 0 ∧ ∀ b ∈ blocks, b.payload % 8 = 0 := by
  induction blocks generalizing start with
  | nil =>
    simp only [Tiles] at tiled
    simp [← tiled, onGrid]
  | cons c rest ih =>
    obtain ⟨here, _, even, tiled⟩ := tiled
    have shifted : (start + c.size) % 8 = 0 := by omega
    obtain ⟨last, others⟩ := ih tiled shifted
    refine ⟨last, ?_⟩
    intro b mem
    cases mem with
    | head => omega
    | tail _ mem => exact others b mem

theorem Tiles.length_le {start stop : Nat} {blocks : List Block}
    (tiled : Tiles start blocks stop) : start + 16 * blocks.length ≤ stop := by
  induction blocks generalizing start with
  | nil =>
    simp only [Tiles] at tiled
    simp [tiled]
  | cons c rest ih =>
    obtain ⟨_, large, _, tiled⟩ := tiled
    have := ih tiled
    simp only [minBlock] at large
    simp only [List.length_cons]
    omega

theorem Tiles.split {start stop : Nat} {l₁ l₂ : List Block} (tiled : Tiles start (l₁ ++ l₂) stop) :
    Tiles start l₁ (start + totalSize l₁) ∧ Tiles (start + totalSize l₁) l₂ stop := by
  obtain ⟨middle, below, above⟩ := tiles_append.1 tiled
  have := below.stop_eq
  subst this
  exact ⟨below, above⟩

theorem Tiles.payload_eq {start stop : Nat} {l₁ l₂ : List Block} {b : Block}
    (tiled : Tiles start (l₁ ++ b :: l₂) stop) : b.payload = start + totalSize l₁ :=
  tiled.split.2.1

theorem Tiles.next {start stop : Nat} {l₁ l₂ : List Block} {b : Block}
    (tiled : Tiles start (l₁ ++ b :: l₂) stop) :
    b.payload + b.size = stop ∨ b.payload + b.size ∈ payloads l₂ := by
  obtain ⟨here, _, _, above⟩ := tiled.split.2
  rw [here]
  cases l₂ with
  | nil => exact .inl above
  | cons c rest => exact .inr (by simp [payloads, above.1])

theorem Tiles.meets {start stop : Nat} {l₁ l₂ : List Block} {b c : Block}
    (tiled : Tiles start (l₁ ++ b :: c :: l₂) stop) : b.payload + b.size = c.payload := by
  obtain ⟨here, _, _, next, _⟩ := tiled.split.2
  rw [here, next]

theorem Tiles.eq_nil_of_le {start stop : Nat} {l₁ l₂ : List Block} {b : Block}
    (tiled : Tiles start (l₁ ++ b :: l₂) stop) (reaches : stop ≤ b.payload + b.size) :
    l₂ = [] := by
  cases l₂ with
  | nil => rfl
  | cons c rest =>
    have next := tiled.meets
    have bounds := tiled.bounds (b := c) (by simp)
    omega

theorem Tiles.below {start stop : Nat} {l₁ l₂ : List Block} {b c : Block}
    (tiled : Tiles start (l₁ ++ l₂) stop) (first : b ∈ l₁) (second : c ∈ l₂) :
    b.payload + b.size ≤ c.payload := by
  obtain ⟨below, above⟩ := tiled.split
  have := (below.bounds first).2.1
  have := (above.bounds second).1
  omega

theorem Tiles.pairwise {start stop : Nat} {blocks : List Block}
    (tiled : Tiles start blocks stop) :
    blocks.Pairwise fun b c => b.payload + b.size ≤ c.payload := by
  induction blocks generalizing start with
  | nil => simp
  | cons b rest ih =>
    have parted : Tiles start ([b] ++ rest) stop := tiled
    have below : ∀ c ∈ rest, b.payload + b.size ≤ c.payload :=
      fun c mem => parted.below (by simp) mem
    obtain ⟨_, _, _, tiled⟩ := tiled
    exact List.pairwise_cons.2 ⟨below, ih tiled⟩

theorem Tiles.apart {start stop : Nat} {blocks : List Block} (tiled : Tiles start blocks stop)
    {b c : Block} (first : b ∈ blocks) (second : c ∈ blocks) (different : b ≠ c) :
    b.payload + b.size ≤ c.payload ∨ c.payload + c.size ≤ b.payload := by
  induction blocks generalizing start with
  | nil => simp at first
  | cons d rest ih =>
    have parted : Tiles start ([d] ++ rest) stop := tiled
    have below : ∀ x ∈ rest, d.payload + d.size ≤ x.payload :=
      fun x mem => parted.below (by simp) mem
    obtain ⟨_, _, _, tiled⟩ := tiled
    cases first with
    | head =>
      cases second with
      | head => exact absurd rfl different
      | tail _ second => exact .inl (below c second)
    | tail _ first =>
      cases second with
      | head => exact .inr (below b first)
      | tail _ second => exact ih tiled first second

theorem Tiles.covers_iff {start stop : Nat} {blocks : List Block}
    (tiled : Tiles start blocks stop) {i : Nat} :
    (∃ b ∈ blocks, b.Covers i) ↔ start ≤ i + 4 ∧ i + 4 < stop := by
  induction blocks generalizing start with
  | nil =>
    simp only [Tiles] at tiled
    simp
    omega
  | cons b rest ih =>
    obtain ⟨here, _, _, tiled⟩ := tiled
    have := tiled.le
    simp only [List.mem_cons, exists_eq_or_imp]
    rw [ih tiled]
    simp only [Covers]
    omega

theorem Tiles.eq_of_covers {start stop : Nat} {blocks : List Block}
    (tiled : Tiles start blocks stop) {b c : Block} (first : b ∈ blocks) (second : c ∈ blocks)
    {i : Nat} (inFirst : b.Covers i) (inSecond : c.Covers i) : b = c := by
  by_cases same : b = c
  · exact same
  · obtain ⟨lo, hi⟩ := inFirst
    obtain ⟨lo', hi'⟩ := inSecond
    have := tiled.apart first second same
    omega

theorem Tiles.eq_of_payload {start stop : Nat} {blocks : List Block}
    (tiled : Tiles start blocks stop) {b c : Block} (first : b ∈ blocks) (second : c ∈ blocks)
    (same : b.payload = c.payload) : b = c := by
  have inFirst := tiled.bounds first
  have inSecond := tiled.bounds second
  exact tiled.eq_of_covers (i := b.payload) first second ⟨by omega, by omega⟩
    ⟨by omega, by omega⟩

theorem Tiles.ascending {start stop : Nat} {blocks : List Block}
    (tiled : Tiles start blocks stop) : (payloads blocks).Pairwise (· < ·) := by
  rw [payloads, List.pairwise_map]
  apply tiled.pairwise.imp_of_mem
  intro b c mem _ below
  have := (tiled.bounds mem).2.2.1
  omega

theorem Tiles.payloads_nodup {start stop : Nat} {blocks : List Block}
    (tiled : Tiles start blocks stop) : (payloads blocks).Nodup :=
  tiled.ascending.imp Nat.ne_of_lt

end BoundaryTag.Block
