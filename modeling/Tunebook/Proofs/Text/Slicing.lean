import Tunebook.Text.Location

/-! Slices of a text. A slice between two byte offsets is sound if both fall between characters and
the first is not past the second: `slice?` checks that, and where it finds it so `slice` agrees. -/
namespace Tunebook.Text

theorem go_past (within : start ≤ stop) (beyond : stop ≤ offset) (t : Text) :
    slice.go ⟨start, stop⟩ t offset = [] := by
  cases t with
  | nil => rfl
  | cons c cs =>
    have reached : ¬offset < start := by omega
    have ended : ¬offset < stop := by omega
    simp [slice.go, reached, ended]

theorem go_before (s t : Text) (h : offset + s.bytes ≤ start) :
    slice.go ⟨start, stop⟩ (s ++ t) offset = slice.go ⟨start, stop⟩ t (offset + s.bytes) := by
  induction s generalizing offset with
  | nil => rfl
  | cons c cs ih =>
    rw [bytes_cons] at h
    have early : offset < start := by
      have := c.utf8Size_pos
      omega
    rw [List.cons_append, slice.go, if_pos early, ih (by omega), bytes_cons, Nat.add_assoc]

theorem go_inside (s t : Text) (reached : start ≤ offset) (h : offset + s.bytes ≤ stop) :
    slice.go ⟨start, stop⟩ (s ++ t) offset = s ++ slice.go ⟨start, stop⟩ t (offset + s.bytes) := by
  induction s generalizing offset with
  | nil => rfl
  | cons c cs ih =>
    rw [bytes_cons] at h
    have inside : offset < stop := by
      have := c.utf8Size_pos
      omega
    have started : ¬offset < start := by omega
    rw [List.cons_append, slice.go, if_neg started, if_pos inside, ih (by omega) (by omega),
      bytes_cons, Nat.add_assoc]
    rfl

/-- The slice between two texts is what stands between them. -/
theorem slice_middle (s t u : Text) :
    (s ++ (t ++ u)).slice ⟨s.bytes, s.bytes + t.bytes⟩ = t := by
  rw [slice, go_before s _ (by omega), go_inside t u (by omega) (by omega),
    go_past (by omega) (by omega), List.append_nil]

/-- The text before a byte offset and the text from it on, if it falls between characters. -/
def cutAt? : Text → Nat → Option (Text × Text)
  | t, 0 => some ([], t)
  | [], _ + 1 => none
  | c :: cs, n + 1 =>
    if n + 1 < c.utf8Size then none
    else (cutAt? cs (n + 1 - c.utf8Size)).map fun (front, back) => (c :: front, back)

/-- The text between two byte offsets, if they are in order and both fall between characters. -/
def slice? (t : Text) (span : Span) : Option Text := do
  let (front, _) ← t.cutAt? span.stop
  let (_, middle) ← front.cutAt? span.start
  some middle

theorem cutAt?_append (s u : Text) (n : Nat) : (s ++ u).cutAt? (s.bytes + n) =
    (u.cutAt? n).map fun (front, back) => (s ++ front, back) := by
  induction s with
  | nil => simp
  | cons c cs ih =>
    have positive := c.utf8Size_pos
    obtain ⟨m, size⟩ : ∃ m, c.utf8Size + bytes cs + n = m + 1 :=
      ⟨c.utf8Size + bytes cs + n - 1, by omega⟩
    have reached : ¬m + 1 < c.utf8Size := by omega
    have rest : m + 1 - c.utf8Size = bytes cs + n := by omega
    rw [List.cons_append, bytes_cons, size, cutAt?, if_neg reached, rest, ih, Option.map_map]
    rfl

theorem cutAt?_bytes (s u : Text) : (s ++ u).cutAt? s.bytes = some (s, u) := by
  have cut := cutAt?_append s u 0
  simpa [cutAt?] using cut

/-- No cut falls inside a character. -/
theorem cutAt?_inside (s u : Text) (positive : 0 < n) (h : n < c.utf8Size) :
    (s ++ c :: u).cutAt? (s.bytes + n) = none := by
  obtain ⟨m, rfl⟩ := Nat.exists_eq_add_of_lt positive
  rw [cutAt?_append, Nat.zero_add, cutAt?, if_pos (by omega)]
  rfl

theorem cutAt?_eq_some_iff {t : Text} : t.cutAt? n = some (s, u) ↔ t = s ++ u ∧ s.bytes = n := by
  constructor
  · intro h
    fun_induction cutAt? t n generalizing s with
    | case1 t =>
      cases h
      exact ⟨rfl, rfl⟩
    | case2 => cases h
    | case3 => cases h
    | case4 c cs n reached ih =>
      obtain ⟨⟨front, back⟩, found, whole⟩ := Option.map_eq_some_iff.mp h
      cases whole
      obtain ⟨rfl, size⟩ := ih found
      refine ⟨rfl, ?_⟩
      rw [bytes_cons]
      omega
  · rintro ⟨rfl, rfl⟩
    exact cutAt?_bytes s u

theorem slice?_eq_some_iff {t : Text} : t.slice? span = some m ↔
    ∃ s u, t = s ++ (m ++ u) ∧ s.bytes = span.start ∧ s.bytes + m.bytes = span.stop := by
  simp only [slice?, Option.bind_eq_bind, Option.bind_eq_some_iff, Prod.exists, cutAt?_eq_some_iff]
  constructor
  · rintro ⟨front, u, ⟨rfl, last⟩, s, middle, ⟨rfl, first⟩, same⟩
    cases same
    rw [bytes_append] at last
    exact ⟨s, u, List.append_assoc s m u, first, last⟩
  · rintro ⟨s, u, rfl, first, last⟩
    refine ⟨s ++ m, u, ⟨(List.append_assoc s m u).symm, ?_⟩, s, m, ⟨rfl, first⟩, rfl⟩
    rw [bytes_append, last]

theorem slice?_middle (s m u : Text) :
    (s ++ (m ++ u)).slice? ⟨s.bytes, s.bytes + m.bytes⟩ = some m :=
  slice?_eq_some_iff.mpr ⟨s, u, rfl, rfl, rfl⟩

theorem slice_of_slice? {t : Text} (h : t.slice? span = some m) : t.slice span = m := by
  obtain ⟨s, u, rfl, first, last⟩ := slice?_eq_some_iff.mp h
  obtain ⟨start, stop⟩ := span
  cases first
  cases last
  exact slice_middle s m u

theorem slice?_append {t : Text} (first : t.slice? ⟨start, middle⟩ = some x)
    (second : t.slice? ⟨middle, stop⟩ = some y) : t.slice? ⟨start, stop⟩ = some (x ++ y) := by
  obtain ⟨s, u, whole, start, rfl⟩ := slice?_eq_some_iff.mp first
  obtain ⟨v, w, again, same, stop⟩ := slice?_eq_some_iff.mp second
  -- There is only one way to cut a text at an offset.
  have front : t.cutAt? (s.bytes + x.bytes) = some (s ++ x, u) :=
    cutAt?_eq_some_iff.mpr ⟨by rw [whole, List.append_assoc], bytes_append s x⟩
  have back := cutAt?_eq_some_iff.mpr ⟨again, same⟩
  rw [front] at back
  cases back
  refine slice?_eq_some_iff.mpr ⟨s, w, by simp [again], start, ?_⟩
  rw [← stop, bytes_append, bytes_append, Nat.add_assoc]

/-- The offset falls between characters. -/
def IsBoundary (t : Text) (offset : Nat) : Prop :=
  ∃ s u, t = s ++ u ∧ s.bytes = offset

theorem IsBoundary.le {t : Text} (h : t.IsBoundary offset) : offset ≤ t.bytes := by
  obtain ⟨s, u, rfl, rfl⟩ := h
  rw [bytes_append]
  exact Nat.le_add_right _ _

theorem IsBoundary.min {t : Text} (h : t.IsBoundary m) (g : t.IsBoundary n) :
    t.IsBoundary (min m n) := by
  rw [Nat.min_def]
  split
  · exact h
  · exact g

theorem IsBoundary.max {t : Text} (h : t.IsBoundary m) (g : t.IsBoundary n) :
    t.IsBoundary (max m n) := by
  rw [Nat.max_def]
  split
  · exact g
  · exact h

theorem isBoundary_of_slice? {t : Text} (h : t.slice? span = some m) :
    t.IsBoundary span.start ∧ t.IsBoundary span.stop := by
  obtain ⟨s, u, rfl, start, stop⟩ := slice?_eq_some_iff.mp h
  constructor
  · exact ⟨s, m ++ u, rfl, start⟩
  · exact ⟨s ++ m, u, (List.append_assoc s m u).symm, by rw [bytes_append, stop]⟩

theorem eq_nil_of_bytes {t : Text} (h : t.bytes = 0) : t = [] := by
  cases t with
  | nil => rfl
  | cons c cs =>
    have positive := c.utf8Size_pos
    rw [bytes_cons] at h
    omega

/-- Of two fronts of a text, the one with fewer bytes is a front of the other. -/
theorem isPrefix_of_bytes_le {s t u : Text} (first : s <+: u) (second : t <+: u)
    (h : s.bytes ≤ t.bytes) : s <+: t := by
  rcases List.prefix_or_prefix_of_prefix first second with short | ⟨more, rfl⟩
  · exact short
  · rw [bytes_append] at h
    have none : more = [] := eq_nil_of_bytes (by omega)
    simp only [none, List.append_nil, List.prefix_refl]

/-- A slice may be cut in two wherever an offset falls between characters. -/
theorem slice?_split {t : Text} (h : t.slice? ⟨start, stop⟩ = some m) (cut : t.IsBoundary middle)
    (front : start ≤ middle) (back : middle ≤ stop) :
    ∃ x y, t.slice? ⟨start, middle⟩ = some x ∧ t.slice? ⟨middle, stop⟩ = some y ∧ m = x ++ y := by
  obtain ⟨s, u, rfl, rfl, rfl⟩ := slice?_eq_some_iff.mp h
  obtain ⟨v, w, whole, rfl⟩ := cut
  have outer : v <+: s ++ (m ++ u) := whole ▸ List.prefix_append v w
  have inner : s ++ m <+: s ++ (m ++ u) := by
    rw [← List.append_assoc]
    exact List.prefix_append _ _
  obtain ⟨x, rfl⟩ := isPrefix_of_bytes_le (List.prefix_append s _) outer front
  obtain ⟨y, rest⟩ := isPrefix_of_bytes_le outer inner (by rwa [bytes_append s m])
  obtain rfl : x ++ y = m := by
    rw [List.append_assoc] at rest
    exact List.append_cancel_left rest
  refine ⟨x, y, ?_, ?_, rfl⟩
  · exact slice?_eq_some_iff.mpr ⟨s, y ++ u, by simp, rfl, (bytes_append s x).symm⟩
  · exact slice?_eq_some_iff.mpr ⟨s ++ x, u, by simp, rfl, by simp [Nat.add_assoc]⟩

end Tunebook.Text
