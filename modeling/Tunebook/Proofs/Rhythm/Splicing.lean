import Tunebook.Proofs.Rhythm.Rescaling

/-! Splicing the edits into a text gives the text of the tokens with the lengths scaled, whatever is
wrong with it. Tokens tile their text, so the edits lie in it in order and cut it between characters
only, and the widened selection replaces no more than they do. -/
namespace Tunebook

namespace Scaling

/-- `splice`, if it cuts the text forwards and between characters only. -/
def splice? (text : Text) (start stop : Nat) : List Edit → Option Text
  | [] => text.slice? ⟨start, stop⟩
  | e :: es => do
    let front ← text.slice? ⟨start, e.span.start⟩
    let back ← splice? text e.span.stop stop es
    some (front ++ e.text ++ back)

/-- `apply`, if it cuts the text forwards and between characters only. -/
def applied? (k : Scaling) (tree : Tree) (a b : Position) : Option Replacement :=
  let selection := Selection.between a b
  let text := tree.text
  let edits := k.edits tree selection
  let first := text.byteAt selection.start
  let last := max first (text.byteAt selection.stop)
  let start := edits.foldl (fun n e => min n e.span.start) first
  let stop := edits.foldl (fun n e => max n e.span.stop) last
  (splice? text start stop edits).map fun new => ⟨text.rangeOfSpan ⟨start, stop⟩, new⟩

end Scaling

def Replacement.applied? (r : Replacement) (text : Text) : Option Text := do
  let front ← text.slice? ⟨0, r.range.span.start⟩
  let back ← text.slice? ⟨r.range.span.stop, text.bytes⟩
  some (front ++ r.text ++ back)

theorem Replacement.apply_of_applied? {r : Replacement} {text : Text}
    (h : r.applied? text = some t) : r.apply text = t := by
  simp only [applied?, Option.bind_eq_bind, Option.bind_eq_some_iff, Option.some.injEq] at h
  obtain ⟨front, first, back, last, rfl⟩ := h
  rw [apply, Text.slice_of_slice? first, Text.slice_of_slice? last]

namespace Scaling

/-- How a selection picks out what to edit: a cursor that is inside nothing to edit touches. -/
def reach (k : Scaling) (tree : Tree) (selection : Selection) : Reach :=
  if selection.isCursor && (k.editsAt tree selection .contains).isEmpty then .touches else .contains

def meets (k : Scaling) (tree : Tree) (selection : Selection) (s : Sound) : Bool :=
  s.range.bind selection.reach? = some (k.reach tree selection)

theorem edits_eq (k : Scaling) (tree : Tree) (selection : Selection) :
    k.edits tree selection = (k.editsOf (k.meets tree selection) tree.sounds).mergeSort
      fun a b => a.span.start ≤ b.span.start := by
  have picked : k.editsAt tree selection (k.reach tree selection) =
      k.editsOf (k.meets tree selection) tree.sounds := by
    simp only [editsAt, editsOf, meets, decide_eq_true_eq]
  rw [← picked, edits, reach]
  split <;> rfl

theorem splice?_cons : splice? text start stop (e :: es) = some m ↔
    ∃ front back, text.slice? ⟨start, e.span.start⟩ = some front ∧
      splice? text e.span.stop stop es = some back ∧ m = front ++ e.text ++ back := by
  simp only [splice?, Option.bind_eq_bind, Option.bind_eq_some_iff, Option.some.injEq]
  constructor
  · rintro ⟨front, first, back, rest, rfl⟩
    exact ⟨front, back, first, rest, rfl⟩
  · rintro ⟨front, back, first, rest, rfl⟩
    exact ⟨front, first, back, rest, rfl⟩

theorem splice_of_splice? (h : splice? text start stop es = some m) :
    splice text start stop es = m := by
  induction es generalizing start m with
  | nil => exact Text.slice_of_slice? h
  | cons e es ih =>
    obtain ⟨front, back, first, rest, rfl⟩ := splice?_cons.mp h
    rw [splice, Text.slice_of_slice? first, ih rest]

theorem isBoundary_start (h : splice? text start stop es = some m) : text.IsBoundary start := by
  cases es with
  | nil => exact (Text.isBoundary_of_slice? h).1
  | cons e es =>
    obtain ⟨_, _, first, _⟩ := splice?_cons.mp h
    exact (Text.isBoundary_of_slice? first).1

theorem isBoundary_of_mem (h : splice? text start stop es = some m) (listed : e ∈ es) :
    text.IsBoundary e.span.start ∧ text.IsBoundary e.span.stop := by
  induction es generalizing start m with
  | nil => cases listed
  | cons f es ih =>
    obtain ⟨_, _, first, rest, _⟩ := splice?_cons.mp h
    rcases List.mem_cons.mp listed with rfl | listed
    · exact ⟨(Text.isBoundary_of_slice? first).2, isBoundary_start rest⟩
    · exact ih rest listed

theorem splice?_after (first : text.slice? ⟨start, middle⟩ = some x)
    (rest : splice? text middle stop es = some y) :
    splice? text start stop es = some (x ++ y) := by
  cases es with
  | nil => exact Text.slice?_append first rest
  | cons e es =>
    obtain ⟨front, back, second, after, rfl⟩ := splice?_cons.mp rest
    refine splice?_cons.mpr ⟨x ++ front, back, Text.slice?_append first second, after, ?_⟩
    simp only [List.append_assoc]

/-- What stands ahead of the edits may be cut off. -/
theorem splice?_front (h : splice? text start stop es = some m) (cut : text.IsBoundary middle)
    (front : start ≤ middle) (back : middle ≤ stop) (ahead : ∀ e ∈ es, middle ≤ e.span.start) :
    ∃ x y, text.slice? ⟨start, middle⟩ = some x ∧ splice? text middle stop es = some y ∧
      m = x ++ y := by
  cases es with
  | nil => exact Text.slice?_split h cut front back
  | cons e es =>
    obtain ⟨whole, rest, first, after, rfl⟩ := splice?_cons.mp h
    obtain ⟨x, y, left, right, rfl⟩ :=
      Text.slice?_split first cut front (ahead e List.mem_cons_self)
    exact ⟨x, y ++ e.text ++ rest, left, splice?_cons.mpr ⟨y, rest, right, after, rfl⟩, by simp⟩

/-- What stands behind the edits may be cut off. -/
theorem splice?_back (h : splice? text start stop es = some m) (cut : text.IsBoundary middle)
    (front : start ≤ middle) (back : middle ≤ stop) (behind : ∀ e ∈ es, e.span.stop ≤ middle) :
    ∃ x y, splice? text start middle es = some x ∧ text.slice? ⟨middle, stop⟩ = some y ∧
      m = x ++ y := by
  induction es generalizing start m with
  | nil => exact Text.slice?_split h cut front back
  | cons e es ih =>
    obtain ⟨whole, rest, first, after, rfl⟩ := splice?_cons.mp h
    obtain ⟨x, y, left, right, rfl⟩ := ih after (behind e List.mem_cons_self)
      fun f member => behind f (List.mem_cons_of_mem e member)
    exact ⟨whole ++ e.text ++ x, y, splice?_cons.mpr ⟨whole, x, first, left, rfl⟩, right, by simp⟩

theorem span_of_tiles {k : Scaling} {r : Rhythm} (h : k.ofRhythm r head.getLast? = some e)
    (front : Token.Tiles n head)
    (length : Token.Tiles (n + (Token.join head).bytes) r.lengthTokens) :
    e.span = ⟨n + (Token.join head).bytes,
      n + (Token.join head).bytes + (Token.join r.lengthTokens).bytes⟩ := by
  simp only [ofRhythm, Option.bind_eq_bind, Option.bind_eq_some_iff] at h
  obtain ⟨_, _, _, _, h⟩ := h
  cases hl : r.lengthTokens with
  | nil =>
    simp only [hl, List.head?_nil] at h
    obtain ⟨span, found, whole⟩ := Option.bind_eq_some_iff.mp h
    obtain ⟨t, last, rfl⟩ := Option.map_eq_some_iff.mp found
    cases whole
    dsimp only
    rw [front.stop_of_getLast? last]
    rfl
  | cons first others =>
    obtain ⟨last, ends⟩ : ∃ last, r.lengthTokens.getLast? = some last :=
      ⟨_, List.getLast?_eq_some_getLast (by simp [hl])⟩
    have starts : r.lengthTokens.head? = some first := by
      rw [hl]
      rfl
    simp only [starts, ends] at h
    cases h
    dsimp only
    rw [length.start_of_head? starts, length.stop_of_getLast? ends, hl]

end Scaling

/-- How tokens come from others by edits: each is kept, or it is part of a length that an edit puts
in place of another, or of none, behind a head. -/
inductive Spliced (k : Scaling) : List Token → List Edit → List Token → Prop where
  | nil : Spliced k [] [] []
  | keep (t : Token) : Spliced k ts es us → Spliced k (t :: ts) es (t :: us)
  | sound {head ts us : List Token} {r : Rhythm} {e : Edit} {es : List Edit} :
      k.ofRhythm r head.getLast? = some e → Spliced k ts es us →
      Spliced k (head ++ (r.lengthTokens ++ ts)) (e :: es)
        (head ++ ((r.rescale k).lengthTokens ++ us))

theorem Rewritten.spliced (h : Rewritten k ts es us) : Spliced k ts es us := by
  induction h with
  | nil => exact .nil
  | keep t _ ih => exact .keep t ih
  | sound _ _ he _ _ ih => exact .sound he ih

namespace Spliced

theorem spans (h : Spliced k ts es us) (tiles : Token.Tiles n ts) :
    (∀ e ∈ es, n ≤ e.span.start ∧ e.span.stop ≤ n + (Token.join ts).bytes) ∧
      es.Pairwise fun e f => e.span.start ≤ f.span.start := by
  induction h generalizing n with
  | nil => exact ⟨by simp, .nil⟩
  | keep t _ ih =>
    obtain ⟨within, ordered⟩ := ih tiles.2
    refine ⟨fun e member => ?_, ordered⟩
    have := within e member
    rw [Token.join_cons, Text.bytes_append]
    omega
  | @sound head ts us r e es he _ ih =>
    obtain ⟨front, tiles⟩ := Token.tiles_append.mp tiles
    obtain ⟨length, tiles⟩ := Token.tiles_append.mp tiles
    have span := Scaling.span_of_tiles he front length
    obtain ⟨within, ordered⟩ := ih tiles
    refine ⟨fun f member => ?_, List.pairwise_cons.mpr ⟨fun f member => ?_, ordered⟩⟩
    · simp only [Token.join_append, Text.bytes_append]
      rcases List.mem_cons.mp member with rfl | member
      · rw [span]
        dsimp only
        omega
      · have := within f member
        omega
    · have := within f member
      rw [span]
      dsimp only
      omega

/-- The text of the tokens can be cut at the edits, and with them made it is that of the others. -/
theorem splice?_eq (h : Spliced k ts es us) (before : Text) (tiles : Token.Tiles before.bytes ts) :
    Scaling.splice? (before ++ Token.join ts) before.bytes (before ++ Token.join ts).bytes es =
      some (Token.join us) := by
  induction h generalizing before with
  | nil =>
    have whole := Text.slice?_middle before [] []
    simpa [Scaling.splice?] using whole
  | @keep ts es us t h ih =>
    have tail := ih (before ++ t.lexeme) (by rw [Text.bytes_append]; exact tiles.2)
    have own := Text.slice?_middle before t.lexeme (Token.join ts)
    rw [List.append_assoc, Text.bytes_append before t.lexeme] at tail
    exact Scaling.splice?_after own tail
  | @sound head ts us r e es he h ih =>
    obtain ⟨front, tiles⟩ := Token.tiles_append.mp tiles
    obtain ⟨length, tiles⟩ := Token.tiles_append.mp tiles
    have size : (before ++ (Token.join head ++ Token.join r.lengthTokens)).bytes =
        before.bytes + (Token.join head).bytes + (Token.join r.lengthTokens).bytes := by
      simp only [Text.bytes_append, Nat.add_assoc]
    have tail := ih (before ++ (Token.join head ++ Token.join r.lengthTokens)) (size ▸ tiles)
    have own := Text.slice?_middle before (Token.join head) (Token.join (r.lengthTokens ++ ts))
    have span := Scaling.span_of_tiles he front length
    rw [size] at tail
    simp only [Token.join_append, Rhythm.join_rescale he, ← List.append_assoc] at own tail ⊢
    refine Scaling.splice?_cons.mpr ⟨Token.join head, Token.join us, ?_, ?_, rfl⟩
    · rw [span]
      exact own
    · rw [span]
      exact tail

end Spliced

namespace Scaling

theorem foldl_min_le (es : List Edit) (n : Nat) :
    es.foldl (fun n e => min n e.span.start) n ≤ n ∧
      ∀ e ∈ es, es.foldl (fun n e => min n e.span.start) n ≤ e.span.start := by
  induction es generalizing n with
  | nil => simp
  | cons e es ih =>
    obtain ⟨least, each⟩ := ih (min n e.span.start)
    simp only [List.foldl_cons, List.mem_cons]
    refine ⟨by omega, ?_⟩
    rintro f (rfl | member)
    · omega
    · exact each f member

theorem le_foldl_max (es : List Edit) (n : Nat) :
    n ≤ es.foldl (fun n e => max n e.span.stop) n ∧
      ∀ e ∈ es, e.span.stop ≤ es.foldl (fun n e => max n e.span.stop) n := by
  induction es generalizing n with
  | nil => simp
  | cons e es ih =>
    obtain ⟨most, each⟩ := ih (max n e.span.stop)
    simp only [List.foldl_cons, List.mem_cons]
    refine ⟨by omega, ?_⟩
    rintro f (rfl | member)
    · omega
    · exact each f member

/-- What is not edited may stay out of the cut at both ends. -/
theorem splice?_between (h : splice? text 0 text.bytes es = some whole)
    (first : text.IsBoundary start) (last : text.IsBoundary stop) (order : start ≤ stop)
    (ahead : ∀ e ∈ es, start ≤ e.span.start) (behind : ∀ e ∈ es, e.span.stop ≤ stop) :
    ∃ front new back, text.slice? ⟨0, start⟩ = some front ∧
      splice? text start stop es = some new ∧ text.slice? ⟨stop, text.bytes⟩ = some back ∧
      whole = front ++ new ++ back := by
  obtain ⟨front, _, own, tail, rfl⟩ := splice?_front h first (Nat.zero_le start) first.le ahead
  obtain ⟨new, back, cut, rest, rfl⟩ := splice?_back tail last order last.le behind
  exact ⟨front, new, back, own, cut, rest, (List.append_assoc _ _ _).symm⟩

/-- The selection, widened where an edit reaches past it, is cut out of the text between characters,
and in its place comes what gives the text of the tokens with the edits made. -/
theorem applied?_eq {k : Scaling} {tree : Tree} {text : Text} (a b : Position)
    (own : tree.text = text)
    (h : Spliced k (textTokens text) (k.edits tree (Selection.between a b)) us) :
    k.applied? tree a b = some (k.apply tree a b) ∧
      (k.apply tree a b).applied? text = some (Token.join us) := by
  have tiles : Token.Tiles (Text.bytes []) (textTokens text) := tiles_textTokens text
  have whole := h.splice?_eq [] tiles
  rw [List.nil_append, join_textTokens, Text.bytes_nil] at whole
  have bounded : ∀ e ∈ k.edits tree (Selection.between a b),
      text.IsBoundary e.span.start ∧ text.IsBoundary e.span.stop := by
    intro e listed
    exact isBoundary_of_mem whole listed
  simp only [applied?, apply, own]
  generalize k.edits tree (Selection.between a b) = es at *
  have earlier := text.isBoundary_byteAt (Selection.between a b).start
  have later := text.isBoundary_byteAt (Selection.between a b).stop
  generalize text.byteAt (Selection.between a b).start = first at *
  have order : first ≤ max first (text.byteAt (Selection.between a b).stop) := Nat.le_max_left _ _
  have later := earlier.max later
  generalize max first (text.byteAt (Selection.between a b).stop) = last at *
  have start := List.foldlRecOn es (fun n e => min n e.span.start) earlier
    fun n bound e listed => bound.min (bounded e listed).1
  have stop := List.foldlRecOn es (fun n e => max n e.span.stop) later
    fun n bound e listed => bound.max (bounded e listed).2
  -- what is replaced takes in the selection and every edit
  obtain ⟨least, starts⟩ := foldl_min_le es first
  obtain ⟨most, stops⟩ := le_foldl_max es last
  generalize es.foldl (fun n e => min n e.span.start) first = start at *
  generalize es.foldl (fun n e => max n e.span.stop) last = stop at *
  obtain ⟨front, new, back, ahead, cut, behind, same⟩ :=
    splice?_between whole start stop (by omega) starts stops
  rw [cut, splice_of_splice? cut]
  refine ⟨rfl, ?_⟩
  rw [same]
  simp [Replacement.applied?, Text.rangeOfSpan, ahead, behind]

theorem apply_eq {k : Scaling} {tree : Tree} {text : Text} (a b : Position) (own : tree.text = text)
    (h : Spliced k (textTokens text) (k.edits tree (Selection.between a b)) us) :
    (k.apply tree a b).apply text = Token.join us :=
  Replacement.apply_of_applied? (applied?_eq a b own h).2

end Scaling
end Tunebook
