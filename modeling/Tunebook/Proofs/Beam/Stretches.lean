import Mathlib.Data.List.Basic
import Tunebook.Beam

/-! Beams are the maximal stretches without a breaker. The collection of beams goes through the items
once, with one run open: what the run holds at a place is what the stretch holds that is open there,
so each stretch yields its beam where it ends, at a breaker or behind the last item. -/
namespace Tunebook.Beam

/-- What the item at a place does to a beam, if there is an item. -/
def roleAt (items : List Item) (k : Nat) : Option Role :=
  items[k]?.map role

/-- The items from `start` up to `stop` hold no breaker, and on both sides stands one or nothing. -/
structure IsStretch (items : List Item) (start stop : Nat) : Prop where
  order : start ≤ stop
  within : stop ≤ items.length
  unbroken : ∀ k, start ≤ k → k < stop → roleAt items k ≠ some .breaker
  left : start = 0 ∨ roleAt items (start - 1) = some .breaker
  right : stop = items.length ∨ roleAt items stop = some .breaker

/-- Where notes and chords stand, from `start` up to `stop`. -/
def places (items : List Item) (start stop : Nat) : List Nat :=
  (List.range' start (stop - start)).filter (roleAt items · = some .beamed)

/-- The beam goes from the first note or chord of the stretch to the last, which is another one. -/
structure Joins (items : List Item) (start stop : Nat) (b : Beam) : Prop where
  stretch : IsStretch items start stop
  several : 2 ≤ (places items start stop).length
  first : (places items start stop).head? = some b.first
  last : (places items start stop).getLast? = some b.last

section

variable {items : List Item} {start stop start' stop' k : Nat} {b : Beam}

theorem lt_length_of_roleAt (h : roleAt items k = some part) : k < items.length := by
  obtain ⟨item, found, _⟩ := Option.map_eq_some_iff.mp h
  exact (List.getElem?_eq_some_iff.mp found).1

theorem mem_places :
    k ∈ places items start stop ↔ start ≤ k ∧ k < stop ∧ roleAt items k = some .beamed := by
  simp only [places, List.mem_filter, List.mem_range'_1, decide_eq_true_eq]
  constructor
  · rintro ⟨⟨behind, before⟩, own⟩
    exact ⟨behind, by omega, own⟩
  · rintro ⟨behind, before, own⟩
    exact ⟨⟨behind, by omega⟩, own⟩

theorem places_self (items : List Item) (start : Nat) : places items start start = [] := by
  simp [places]

theorem places_succ (h : start ≤ k) : places items start (k + 1) =
    places items start k ++ if roleAt items k = some .beamed then [k] else [] := by
  have size : k + 1 - start = k - start + 1 := by omega
  have last : start + 1 * (k - start) = k := by omega
  rw [places, size, List.range'_concat, List.filter_append, last, List.filter_singleton]
  simp [places]

theorem pairwise_places (items : List Item) (start stop : Nat) :
    (places items start stop).Pairwise (· < ·) :=
  (List.pairwise_lt_range' 1).filter _

namespace IsStretch

/-- Of two stretches that share a place neither goes on past the other. -/
theorem le_of_shared (h : IsStretch items start stop) (h' : IsStretch items start' stop')
    (inside : start ≤ k ∧ k < stop) (inside' : start' ≤ k ∧ k < stop') :
    start ≤ start' ∧ stop' ≤ stop := by
  constructor
  · rcases h.left with zero | broken
    · omega
    · by_contra before
      exact h'.unbroken (start - 1) (by omega) (by omega) broken
  · rcases h.right with whole | broken
    · exact whole ▸ h'.within
    · by_contra behind
      exact h'.unbroken stop (by omega) (by omega) broken

theorem eq_of_shared (h : IsStretch items start stop) (h' : IsStretch items start' stop')
    (inside : start ≤ k ∧ k < stop) (inside' : start' ≤ k ∧ k < stop') :
    start' = start ∧ stop' = stop := by
  obtain ⟨before, behind⟩ := h.le_of_shared h' inside inside'
  obtain ⟨before', behind'⟩ := h'.le_of_shared h inside' inside
  exact ⟨Nat.le_antisymm before' before, Nat.le_antisymm behind behind'⟩

end IsStretch

namespace Joins

theorem first_mem (h : Joins items start stop b) : b.first ∈ places items start stop :=
  List.mem_of_head? h.first

theorem last_mem (h : Joins items start stop b) : b.last ∈ places items start stop :=
  List.mem_of_getLast? h.last

theorem first_lt_last (h : Joins items start stop b) : b.first < b.last := by
  obtain ⟨_, several, first, last⟩ := h
  have increasing := pairwise_places items start stop
  match places items start stop, several, first, last, increasing with
  | p :: q :: ps, _, first, last, increasing =>
    rw [List.getLast?_cons_cons] at last
    cases first
    exact (List.pairwise_cons.mp increasing).1 _ (List.mem_of_getLast? last)

theorem exists_of_several (stretch : IsStretch items start stop)
    (several : 2 ≤ (places items start stop).length) : ∃ b, Joins items start stop b := by
  have nonempty := List.ne_nil_of_length_pos (Nat.lt_of_lt_of_le Nat.zero_lt_two several)
  exact ⟨⟨_, _⟩, stretch, several, List.head?_eq_some_head nonempty,
    List.getLast?_eq_some_getLast nonempty⟩

theorem eq {b' : Beam} (h : Joins items start stop b) (h' : Joins items start stop b') :
    b' = b := by
  obtain ⟨first, last⟩ := b
  obtain ⟨first', last'⟩ := b'
  cases h.first.symm.trans h'.first
  cases h.last.symm.trans h'.last
  rfl

/-- The first note or chord and the last are beamed, and nothing between them breaks. -/
theorem unbroken (h : Joins items start stop b) (behind : b.first ≤ k) (before : k ≤ b.last) :
    roleAt items k ≠ some .breaker := by
  have first := mem_places.mp h.first_mem
  have last := mem_places.mp h.last_mem
  exact h.stretch.unbroken k (Nat.le_trans first.1 behind) (Nat.lt_of_le_of_lt before last.2.1)

end Joins

namespace Run

/-- The run that notes and chords at these places make. -/
def ofPlaces? : List Nat → Option Run
  | [] => none
  | p :: ps => some ⟨p, ps.getLastD p, ps.length + 1⟩

theorem ofPlaces?_append (ps : List Nat) (k : Nat) :
    ofPlaces? (ps ++ [k]) = some (extend k (ofPlaces? ps)) := by
  cases ps with
  | nil => rfl
  | cons p ps => simp [ofPlaces?, extend]

theorem mem_close {ps : List Nat} : b ∈ close (ofPlaces? ps) ↔
    2 ≤ ps.length ∧ ps.head? = some b.first ∧ ps.getLast? = some b.last := by
  cases ps with
  | nil => simp [ofPlaces?, close]
  | cons p ps =>
    obtain ⟨first, last⟩ := b
    simp only [ofPlaces?, close, List.length_cons, List.head?_cons, List.getLast?_cons,
      Option.some.injEq]
    split
    next several => simp [several, eq_comm]
    next few => simp [few]

theorem pairwise_close (run : Option Run) :
    (close run).Pairwise fun a b => a.last < b.first := by
  cases run with
  | none => exact .nil
  | some run =>
    rw [close]
    split
    · exact List.pairwise_singleton _ _
    · exact .nil

end Run

/-- At the place `k` the stretch from `start` on is open, and the run holds what it holds so far. -/
structure IsOpen (items : List Item) (start k : Nat) (run : Option Run) : Prop where
  order : start ≤ k
  within : k ≤ items.length
  unbroken : ∀ i, start ≤ i → i < k → roleAt items i ≠ some .breaker
  left : start = 0 ∨ roleAt items (start - 1) = some .breaker
  run : run = Run.ofPlaces? (places items start k)

namespace IsOpen

variable {run : Option Run}

theorem first (items : List Item) : IsOpen items 0 0 none := by
  refine ⟨Nat.le_refl _, Nat.zero_le _, fun i _ before => absurd before (Nat.not_lt_zero i),
    .inl rfl, ?_⟩
  rw [places_self]
  rfl

theorem after_breaker (own : roleAt items k = some .breaker) :
    IsOpen items (k + 1) (k + 1) none := by
  refine ⟨Nat.le_refl _, lt_length_of_roleAt own, fun i behind before => by omega, .inr own, ?_⟩
  rw [places_self]
  rfl

/-- Over an item that does not break the stretch stays open. -/
theorem extend (h : IsOpen items start k run) (own : roleAt items k = some part)
    (plain : part ≠ .breaker) (ended : run' = Run.ofPlaces? (places items start (k + 1))) :
    IsOpen items start (k + 1) run' := by
  refine ⟨Nat.le_succ_of_le h.order, lt_length_of_roleAt own, ?_, h.left, ended⟩
  intro i behind before
  rcases Nat.lt_succ_iff_lt_or_eq.mp before with earlier | rfl
  · exact h.unbroken i behind earlier
  · rw [own]
    exact fun same => plain (Option.some.inj same)

theorem beamed (h : IsOpen items start k run) (own : roleAt items k = some .beamed) :
    IsOpen items start (k + 1) (some (Run.extend k run)) := by
  refine h.extend own (by decide) ?_
  rw [places_succ h.order, if_pos own, Run.ofPlaces?_append, h.run]

theorem neutral (h : IsOpen items start k run) (own : roleAt items k = some .neutral) :
    IsOpen items start (k + 1) run := by
  refine h.extend own (by decide) ?_
  rw [places_succ h.order, if_neg (by simp [own]), List.append_nil, h.run]

theorem isStretch (h : IsOpen items start k run)
    (ends : k = items.length ∨ roleAt items k = some .breaker) : IsStretch items start k :=
  ⟨h.order, h.within, h.unbroken, h.left, ends⟩

/-- No stretch starts behind the start of the open one and before its end, and the one that starts
there ends there. -/
theorem eq_of_isStretch (h : IsOpen items start k run)
    (ends : k = items.length ∨ roleAt items k = some .breaker)
    (other : IsStretch items start' stop') (behind : start ≤ start') (before : start' ≤ k) :
    start' = start ∧ stop' = k := by
  have first : start' = start := by
    rcases other.left with zero | broken
    · omega
    · by_contra apart
      exact h.unbroken (start' - 1) (by omega) (by omega) broken
  refine ⟨first, ?_⟩
  have short : ¬stop' < k := by
    intro early
    rcases other.right with whole | broken
    · exact absurd early (by have := h.within; omega)
    · exact h.unbroken stop' (first ▸ other.order) early broken
  have long : ¬k < stop' := by
    intro late
    rcases ends with whole | broken
    · exact absurd late (by have := other.within; omega)
    · exact other.unbroken k before late broken
  omega

/-- Where the open stretch ends, its run is closed. -/
theorem mem_close (h : IsOpen items start k run)
    (ends : k = items.length ∨ roleAt items k = some .breaker) :
    b ∈ Run.close run ↔ Joins items start k b := by
  rw [h.run, Run.mem_close]
  constructor
  · rintro ⟨several, first, last⟩
    exact ⟨h.isStretch ends, several, first, last⟩
  · intro joins
    exact ⟨joins.several, joins.first, joins.last⟩

/-- The items that are left give the next one and those behind it. -/
theorem of_drop (left : items.drop k = item :: rest) :
    roleAt items k = some (role item) ∧ items.drop (k + 1) = rest := by
  constructor
  · have found : items[k]? = some item := by rw [← List.head?_drop, left, List.head?_cons]
    rw [roleAt, found, Option.map_some]
  · rw [← List.tail_drop, left, List.tail_cons]

/-- From an open stretch on, the beams are those of the stretch and of all behind it. -/
theorem mem_collect (h : IsOpen items start k run) (left : items.drop k = rest) :
    b ∈ collect k run rest ↔ ∃ start' stop', start ≤ start' ∧ Joins items start' stop' b := by
  induction rest generalizing start k run with
  | nil =>
    have ends : k = items.length := Nat.le_antisymm h.within (List.drop_eq_nil_iff.mp left)
    rw [collect, h.mem_close (.inl ends)]
    constructor
    · intro joins
      exact ⟨start, k, Nat.le_refl _, joins⟩
    · rintro ⟨start', stop', behind, joins⟩
      have before : start' ≤ k := by
        have := joins.stretch.order
        have := joins.stretch.within
        omega
      obtain ⟨rfl, rfl⟩ := h.eq_of_isStretch (.inl ends) joins.stretch behind before
      exact joins
  | cons item rest ih =>
    obtain ⟨own, left⟩ := of_drop left
    rw [collect]
    cases part : role item with
    | beamed => exact ih (h.beamed (part ▸ own)) left
    | neutral => exact ih (h.neutral (part ▸ own)) left
    | breaker =>
      rw [part] at own
      rw [List.mem_append, h.mem_close (.inr own), ih (after_breaker own) left]
      constructor
      · rintro (joins | ⟨start', stop', behind, joins⟩)
        · exact ⟨start, k, Nat.le_refl _, joins⟩
        · exact ⟨start', stop', by have := h.order; omega, joins⟩
      · rintro ⟨start', stop', behind, joins⟩
        -- a stretch that starts in the open run is that run, any other starts behind the breaker
        rcases Nat.lt_or_ge k start' with later | before
        · exact .inr ⟨start', stop', later, joins⟩
        · obtain ⟨rfl, rfl⟩ := h.eq_of_isStretch (.inr own) joins.stretch behind before
          exact .inl joins

theorem pairwise_collect (h : IsOpen items start k run) (left : items.drop k = rest) :
    (collect k run rest).Pairwise fun a b => a.last < b.first := by
  induction rest generalizing start k run with
  | nil => exact Run.pairwise_close run
  | cons item rest ih =>
    obtain ⟨own, left⟩ := of_drop left
    rw [collect]
    cases part : role item with
    | beamed => exact ih (h.beamed (part ▸ own)) left
    | neutral => exact ih (h.neutral (part ▸ own)) left
    | breaker =>
      rw [part] at own
      have next := after_breaker own
      refine List.pairwise_append.mpr ⟨Run.pairwise_close run, ih next left, ?_⟩
      intro a closed b later
      have before := mem_places.mp ((h.mem_close (.inr own)).mp closed).last_mem
      obtain ⟨start', stop', behind, joins⟩ := (next.mem_collect left).mp later
      have after := mem_places.mp joins.first_mem
      omega

end IsOpen

/-- A beam is that of a stretch, and every stretch with two notes or chords has one. -/
theorem mem_ofItems : b ∈ ofItems items ↔ ∃ start stop, Joins items start stop b := by
  have run := (IsOpen.first items).mem_collect (b := b) (List.drop_zero (l := items))
  simpa [ofItems] using run

theorem pairwise_ofItems (items : List Item) :
    (ofItems items).Pairwise fun a b => a.last < b.first :=
  (IsOpen.first items).pairwise_collect List.drop_zero

end

/-- The beams stand in order and apart. They are those of the maximal stretches without a breaker
that hold two notes or chords or more, one for each, from the first of them to the last, and nothing
that a beam takes in is a breaker. -/
theorem ofItems_stretches (items : List Item) :
    ((ofItems items).Pairwise fun a b => a.last < b.first) ∧
    (∀ b, b ∈ ofItems items ↔ ∃ start stop, Joins items start stop b) ∧
    (∀ start stop, IsStretch items start stop → 2 ≤ (places items start stop).length →
      ∃! b, b ∈ ofItems items ∧ start ≤ b.first ∧ b.last < stop) ∧
    ∀ b ∈ ofItems items, b.first < b.last ∧
      ∀ k, b.first ≤ k → k ≤ b.last → roleAt items k ≠ some .breaker := by
  refine ⟨pairwise_ofItems items, fun b => mem_ofItems, ?_, ?_⟩
  · intro start stop stretch several
    obtain ⟨own, joins⟩ := Joins.exists_of_several stretch several
    refine ⟨own, ⟨mem_ofItems.mpr ⟨start, stop, joins⟩, (mem_places.mp joins.first_mem).1,
      (mem_places.mp joins.last_mem).2.1⟩, ?_⟩
    rintro b ⟨listed, behind, before⟩
    obtain ⟨start', stop', other⟩ := mem_ofItems.mp listed
    have inside := mem_places.mp other.first_mem
    have shared : start ≤ b.first ∧ b.first < stop :=
      ⟨behind, Nat.lt_trans other.first_lt_last before⟩
    obtain ⟨rfl, rfl⟩ := stretch.eq_of_shared other.stretch shared ⟨inside.1, inside.2.1⟩
    exact joins.eq other
  · intro b listed
    obtain ⟨start, stop, joins⟩ := mem_ofItems.mp listed
    exact ⟨joins.first_lt_last, fun k behind before => joins.unbroken behind before⟩

end Tunebook.Beam
