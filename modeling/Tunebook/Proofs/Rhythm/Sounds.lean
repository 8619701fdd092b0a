import Mathlib.Data.List.Flatten
import Tunebook.Proofs.Edges
import Tunebook.Proofs.Lossless
import Tunebook.Proofs.Rhythm.Rescaling

/-! The notes and chords of a tree, as stretches of its tokens. They come in the order of the text and
none reaches into another, so that a position lies in one of them at most. -/
namespace Tunebook

def Sound.tokens : Sound → List Token
  | note n => n.tokens
  | chord c => c.tokens

theorem Sound.range_eq (s : Sound) : s.range = Token.cover s.tokens := by
  cases s with
  | note n => exact n.range_eq_cover
  | chord c => exact c.range_eq_cover

theorem Sound.tokens_ne_nil (s : Sound) : s.tokens ≠ [] := by
  cases s with
  | note n => simp [tokens, Note.tokens, n.head.tokens_ne_nil]
  | chord c => simp [tokens, Chord.tokens]

mutual

theorem Item.sounds_sublist (item : Item) :
    (item.sounds.flatMap Sound.tokens).Sublist item.tokens := by
  cases item with
  | note n | chord c => simp [sounds, tokens, Sound.tokens]
  | slur left contents right =>
    simp only [sounds, tokens, List.cons_append]
    exact ((Item.soundsOf_sublist contents).trans (List.sublist_append_left _ _)).cons left
  | _ => simp [sounds]

theorem Item.soundsOf_sublist (items : List Item) :
    ((Item.soundsOf items).flatMap Sound.tokens).Sublist (Item.tokensOf items) := by
  cases items with
  | nil => exact .slnil
  | cons item items =>
    simp only [soundsOf, tokensOf, List.flatMap_append]
    exact (Item.sounds_sublist item).append (Item.soundsOf_sublist items)

end

theorem Item.tokens_of_mem_soundsOf {s : Sound} (items : List Item) (h : s ∈ Item.soundsOf items) :
    s.tokens ⊆ Item.tokensOf items := by
  intro t member
  exact (Item.soundsOf_sublist items).subset (List.mem_flatMap.mpr ⟨s, h, member⟩)

theorem BodyLine.sounds_sublist (line : BodyLine) :
    (line.sounds.flatMap Sound.tokens).Sublist line.tokens := by
  cases line with
  | music l => exact (Item.soundsOf_sublist l.items).trans (List.sublist_append_left _ _)
  | info l | comment l => exact List.nil_sublist _

theorem Tune.sounds_sublist (t : Tune) :
    ((t.musicLines.flatMap fun l => Item.soundsOf l.items).flatMap Sound.tokens).Sublist
      t.tokens := by
  rw [musicLines, BodyLine.sounds_body, List.flatMap_assoc]
  have body := List.Sublist.flatMap_right t.body fun line _ => line.sounds_sublist
  exact (body.trans (List.sublist_append_right _ _)).trans (List.sublist_append_left _ _)

/-- The tokens of the sounds, in order, are among those of the tree. -/
theorem Tree.sounds_sublist (t : Tree) : (t.sounds.flatMap Sound.tokens).Sublist t.tokens := by
  rw [sounds, List.flatMap_assoc]
  exact (List.Sublist.flatMap_right t.tunes fun tune _ => tune.sounds_sublist).trans
    (List.sublist_append_right _ _)

/-- The second sound starts where the first has stopped, and is not empty. -/
def Sound.Precedes (a b : Sound) : Prop :=
  ∀ r ∈ a.range, ∀ s ∈ b.range, r.stop ≤ s.start ∧ s.start < s.stop

/-- Tokens that follow one another cover something. -/
theorem Token.start_lt_stop {ts : List Token} (ordered : ts.Pairwise fun t u => t.stop ≤ u.start)
    (filled : ∀ t ∈ ts, t.lexeme ≠ []) (h : cover ts = some r) : r.start < r.stop := by
  cases ts with
  | nil => cases h
  | cons t ts =>
    rw [cover_eq rfl (List.getLast?_cons ..), Option.some.injEq] at h
    subst h
    have own : t.start < t.stop := t.start.lt_after (filled t List.mem_cons_self)
    cases ends : ts.getLast? with
    | none => simpa [between, ends] using own
    | some last =>
      have member := List.mem_of_getLast? ends
      have later := (List.pairwise_cons.mp ordered).1 last member
      have whole := Position.le_trans later (last.start.le_after last.lexeme)
      simpa [between, ends, Token.stop] using Position.lt_of_lt_of_le own whole

/-- The sounds of a text come one after the other. -/
theorem Tree.pairwise_sounds (text : Text) :
    (ofTokens (scan text)).1.sounds.Pairwise Sound.Precedes := by
  have own := tokens_ofTokens_scan text
  have inside := (ofTokens (scan text)).1.sounds_sublist
  rw [own] at inside
  obtain ⟨each, apart⟩ := List.pairwise_flatMap.mp ((pairwise_textTokens text).sublist inside)
  refine apart.imp_of_mem ?_
  intro a b _ second later r front s back
  obtain ⟨_, last, _, ends, cover⟩ := Token.exists_cover a.tokens_ne_nil
  obtain ⟨first, _, starts, _, cover'⟩ := Token.exists_cover b.tokens_ne_nil
  have filled : ∀ t ∈ b.tokens, t.lexeme ≠ [] := fun t member =>
    lexeme_ne_nil_of_mem_textTokens (inside.subset (List.mem_flatMap.mpr ⟨b, second, member⟩))
  have order := later last (List.mem_of_getLast? ends) first (List.mem_of_head? starts)
  rw [a.range_eq, cover] at front
  rw [b.range_eq] at back
  have some := Token.start_lt_stop (each b second) filled back
  rw [cover'] at back
  cases front
  cases back
  exact ⟨order, some⟩

end Tunebook
