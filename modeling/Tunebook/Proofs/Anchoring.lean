import Tunebook.Proofs.Conservation

/-! Where problems are found: each production reports only tokens of what it built, never one that
it looked ahead to and left. -/
namespace Tunebook

/-- Every problem of the reading is found at a token of its value. -/
def Reading.Anchored (tokens : α → List Token) (r : Reading α) : Prop :=
  ∀ p ∈ r.problems, p.token ∈ tokens r.value

theorem Chord.mem_of_mem_readParts (h : p ∈ (readParts ts).2) : p.token ∈ ts := by
  fun_induction readParts ts with
  | case1 => simp at h
  | case2 t ts _ note rest hr parts problems heq ih =>
    rw [heq] at ih
    rw [← Note.read?_append hr]
    exact List.mem_append_right _ (ih h)
  | case3 t ts _ _ parts problems heq ih =>
    rw [heq] at ih
    rcases List.mem_cons.mp h with rfl | h
    · exact List.mem_cons_self
    · exact List.mem_cons_of_mem t (ih h)
  | case4 t ts _ _ parts problems heq ih =>
    rw [heq] at ih
    exact List.mem_cons_of_mem t (ih h)
  | case5 t ts _ _ parts problems heq ih =>
    rw [heq] at ih
    rcases List.mem_append.mp h with here | h
    · obtain ⟨fault, _, rfl⟩ := List.mem_map.mp here
      exact List.mem_cons_self
    · exact List.mem_cons_of_mem t (ih h)

theorem Chord.anchored_read? (h : read? t ts = some r) : r.Anchored tokens := by
  obtain ⟨⟨inside, right, rest⟩, hs, rfl⟩ := Option.map_eq_some_iff.1 h
  intro p hp
  simp only [tokens, readParts_append, List.mem_append, List.mem_cons]
  rcases List.mem_append.mp hp with inner | empty
  · exact .inl (.inl (.inr (mem_of_mem_readParts inner)))
  · obtain rfl := List.mem_singleton.mp (List.mem_ite_nil_right.mp empty).2
    exact .inl (.inl (.inl rfl))

theorem GraceGroup.anchored_chord? (h : chord? t ts = some r) : r.Anchored Chord.tokens :=
  Chord.anchored_read? (chord?_eq_some_iff.mp h).2

theorem GraceGroup.mem_of_mem_readParts (h : p ∈ (readParts ts).2) : p.token ∈ ts := by
  fun_induction readParts ts with
  | case1 => simp at h
  | case2 t ts _ note rest hr parts problems heq ih =>
    rw [heq] at ih
    rw [← Note.read?_append hr]
    exact List.mem_append_right _ (ih h)
  | case3 t ts _ _ parts problems heq ih =>
    rw [heq] at ih
    rcases List.mem_cons.mp h with rfl | h
    · exact List.mem_cons_self
    · exact List.mem_cons_of_mem t (ih h)
  | case4 t ts _ chord hr parts problems heq ih =>
    rw [heq] at ih
    have whole := chord?_append hr
    rcases List.mem_append.mp h with inner | h
    · exact whole ▸ List.mem_append_left _ (anchored_chord? hr p inner)
    · rcases List.mem_cons.mp h with rfl | h
      · exact List.mem_cons_self
      · exact whole ▸ List.mem_append_right _ (ih h)
  | case5 t ts _ hr parts problems heq ih =>
    rw [heq] at ih
    split at h
    · exact List.mem_cons_of_mem t (ih h)
    · rcases List.mem_cons.mp h with rfl | h
      · exact List.mem_cons_self
      · exact List.mem_cons_of_mem t (ih h)

theorem GraceGroup.anchored_read? (h : read? t ts = some r) : r.Anchored tokens := by
  obtain ⟨⟨inside, right, rest⟩, hs, rfl⟩ := Option.map_eq_some_iff.1 h
  intro p hp
  simp only [tokens, readParts_append, List.mem_append, List.mem_cons]
  exact .inl (.inr (mem_of_mem_readParts hp))

theorem InlineField.anchored_read? (h : read? inSlur t ts = some r) : r.Anchored tokens := by
  unfold read? at h
  split at h
  · split at h
    · cases h
      intro p hp
      obtain rfl := List.mem_singleton.mp (List.mem_ite_nil_right.mp hp).2
      exact List.mem_cons_self
    · cases h
  · cases h

namespace Item

theorem anchored_plain (item : Item) (ts : List Token) : (plain item ts).Anchored tokens := by
  intro p hp
  cases hp

theorem anchored_bare (t : Token) (ts : List Token) (fault : Option Fault) :
    (bare t ts fault).Anchored tokens := by
  intro p hp
  obtain ⟨f, _, rfl⟩ := List.mem_map.mp hp
  simp [bare, tokens]

theorem anchored_readBracket (inSlur : Bool) (t : Token) (ts : List Token) :
    (readBracket inSlur t ts).Anchored tokens := by
  unfold readBracket
  split
  next h =>
    intro p hp
    simpa only [tokens] using InlineField.anchored_read? h p hp
  · split
    next h =>
      intro p hp
      simpa only [tokens] using Chord.anchored_read? h p hp
    · exact anchored_bare t ts _

theorem anchored_readBrace (t : Token) (ts : List Token) : (readBrace t ts).Anchored tokens := by
  unfold readBrace
  split
  next h =>
    intro p hp
    simpa only [tokens] using GraceGroup.anchored_read? h p hp
  · exact anchored_bare t ts _

theorem anchored_readNote (t : Token) (ts : List Token) : (readNote t ts).Anchored tokens := by
  unfold readNote
  split
  · exact anchored_plain _ _
  · exact anchored_bare t ts _

theorem anchored_read (inSlur : Bool) (t : Token) (ts : List Token) :
    (read inSlur t ts).Anchored tokens := by
  unfold read
  split <;> (try split) <;> (try split) <;>
    first
    | exact anchored_plain _ _
    | exact anchored_bare _ _ _
    | exact anchored_readBracket inSlur t ts
    | exact anchored_readBrace t ts
    | exact anchored_readNote t ts

theorem anchored_readAll (inSlur : Bool) (ts : List Token) :
    (readAll inSlur ts).Anchored tokensOf := by
  induction inSlur, ts using readAll_induct with
  | nil inSlur =>
    intro p hp
    simp [readAll_nil] at hp
  | stop t ts hr =>
    intro p hp
    simp [readAll_stop hr] at hp
  | slur inSlur t ts hl hc inner tail =>
    intro p hp
    rw [readAll_slur hl hc] at hp ⊢
    simp only [tokensOf, tokens, List.mem_append, List.mem_cons]
    rcases List.mem_append.mp hp with hp | hp
    · exact .inl (.inl (.inr (inner p hp)))
    · exact .inr (tail p hp)
  | item inSlur t ts hr hl tail =>
    intro p hp
    rw [readAll_item hr hl] at hp ⊢
    simp only [tokensOf, List.mem_append]
    rcases List.mem_append.mp hp with hp | hp
    · exact .inl (anchored_read inSlur t ts p hp)
    · exact .inr (tail p hp)

end Item

theorem MusicLine.anchored_read (ts : List Token) : (read ts).Anchored tokens := by
  intro p hp
  exact List.mem_append_left _ (Item.anchored_readAll false _ p hp)

theorem BodyLine.anchored_read (t : Token) (ts : List Token) : (read t ts).Anchored tokens := by
  unfold read
  split
  · intro p hp
    cases hp
  · split
    · intro p hp
      cases hp
    · exact MusicLine.anchored_read (t :: ts)

namespace Tune

theorem anchored_readBody (atLineStart : Bool) (ts : List Token) :
    (readBody atLineStart ts).Anchored (·.flatMap BodyLine.tokens) := by
  fun_induction readBody atLineStart ts with
  | case1 | case2 =>
    intro p hp
    cases hp
  | case3 _ t ts _ line tail ih =>
    intro p hp
    simp only [List.flatMap_cons, List.mem_append]
    rcases List.mem_append.mp hp with hp | hp
    · exact .inl (BodyLine.anchored_read t ts p hp)
    · exact .inr (ih p hp)

/-- A tune takes its first token, whatever it is. -/
theorem mem_tokens_read (beyond : Bool) (t : Token) (ts : List Token) :
    t ∈ (read beyond (t :: ts)).value.tokens := by
  have whole := read_append beyond (t :: ts)
  have shorter := length_read_le beyond t ts
  cases hv : (read beyond (t :: ts)).value.tokens with
  | nil =>
    rw [hv, List.nil_append] at whole
    rw [whole, List.length_cons] at shorter
    omega
  | cons u us =>
    rw [hv, List.cons_append, List.cons.injEq] at whole
    exact whole.1 ▸ List.mem_cons_self

theorem anchored_read (beyond : Bool) (ts : List Token) : (read beyond ts).Anchored tokens := by
  intro p hp
  rcases List.mem_append.mp hp with missing | hp
  · cases ts with
    | nil => cases missing
    | cons t ts =>
      have first := mem_tokens_read beyond t ts
      simp only [missingKey?] at missing
      split at missing
      · obtain rfl := List.mem_singleton.mp missing
        exact first
      · cases missing
  · exact List.mem_append_left _ (List.mem_append_right _ (anchored_readBody true _ p hp))

end Tune
end Tunebook
