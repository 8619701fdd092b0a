import Tunebook.Proofs.Lossless
import Tunebook.Proofs.Rhythm.Splicing

/-! The edits of a selection scale the tree. The tokens of every node come from those of its scaled
form by the edits of the notes and chords in it, whatever the node looks like; so replacing the text
that a selection and its edits span gives the text of the scaled tree. -/
namespace Tunebook

namespace Spliced

theorem refl (k : Scaling) (ts : List Token) : Spliced k ts [] ts := by
  induction ts with
  | nil => exact .nil
  | cons t ts ih => exact .keep t ih

/-- Stretches of tokens that come from others one by one do so together. -/
theorem append (h : Spliced k ts es us) (tail : Spliced k ss fs vs) :
    Spliced k (ts ++ ss) (es ++ fs) (us ++ vs) := by
  induction h with
  | nil => exact tail
  | keep t _ ih => exact .keep t ih
  | sound he _ ih =>
    simp only [List.append_assoc]
    exact .sound he ih

theorem kept (h : Spliced k ts es us) (front back : List Token) :
    Spliced k (front ++ (ts ++ back)) es (front ++ (us ++ back)) := by
  have whole := (refl k front).append (h.append (refl k back))
  rwa [List.nil_append, List.append_nil] at whole

theorem flatMap {α : Type} {items : List α} {tokens : α → List Token} {edits : α → List Edit}
    {scaled : α → List Token}
    (h : ∀ item ∈ items, Spliced k (tokens item) (edits item) (scaled item)) :
    Spliced k (items.flatMap tokens) (items.flatMap edits) (items.flatMap scaled) := by
  induction items with
  | nil => exact .nil
  | cons item items ih =>
    have others := ih fun other member => h other (List.mem_cons_of_mem item member)
    exact (h item List.mem_cons_self).append others

/-- The edit of a rhythm, if it has one, behind what it belongs to. -/
theorem rhythm (k : Scaling) (r : Rhythm) {head : List Token} (ends : head.getLast? = some last) :
    Spliced k (head ++ r.tokens) (k.ofRhythm r (some last)).toList
      (head ++ (r.rescale k).tokens) := by
  cases he : k.ofRhythm r (some last) with
  | none =>
    rw [Rhythm.rescale_of_none (Scaling.ofRhythm_eq_none he)]
    exact refl k _
  | some e =>
    rw [Rhythm.tokens, Rhythm.tokens, Rhythm.broken_rescale]
    exact .sound (ends ▸ he) (refl k _)

end Spliced

theorem Note.spliced (k : Scaling) (n : Note) :
    Spliced k n.tokens (k.ofNote n).toList (n.rescale k).tokens := by
  obtain ⟨last, ends⟩ : ∃ last, n.head.tokens.getLast? = some last :=
    ⟨_, List.getLast?_eq_some_getLast n.head.tokens_ne_nil⟩
  have own := (Spliced.rhythm k n.rhythm ends).append (.refl k n.tie.toList)
  rwa [List.append_nil, ← ends] at own

namespace Chord

theorem spliced_parts (k : Scaling) (parts : List ChordPart) :
    Spliced k (parts.flatMap ChordPart.tokens) (partEdits k parts)
      ((parts.map (ChordPart.rescale k)).flatMap ChordPart.tokens) := by
  induction parts with
  | nil => exact .nil
  | cons part parts ih =>
    cases part with
    | note n =>
      rw [partEdits_note]
      exact (n.spliced k).append ih
    | quotedText t | token t => exact .keep t ih

/-- A chord is scaled in its notes if they have the lengths, or else behind its bracket. -/
theorem spliced (k : Scaling) (c : Chord) :
    Spliced k c.tokens (k.ofSound (.chord c)) (c.rescale k).tokens := by
  rw [Scaling.ofSound, rescale]
  split
  · have parts := (spliced_parts k c.parts).kept [c.left]
      (c.right :: (c.rhythm.tokens ++ c.tie.toList))
    simpa [tokens, partEdits, notes] using parts
  · have own : Spliced k ([c.right] ++ c.rhythm.tokens) _ _ := .rhythm k c.rhythm rfl
    have whole := own.kept (c.left :: c.parts.flatMap ChordPart.tokens) c.tie.toList
    simpa [tokens] using whole

end Chord

namespace Scaling

theorem editsOf_cons (k : Scaling) (meets : Sound → Bool) (s : Sound) (sounds : List Sound) :
    k.editsOf meets (s :: sounds) =
      (if meets s then k.ofSound s else []) ++ k.editsOf meets sounds :=
  rfl

end Scaling

mutual

theorem Item.spliced (k : Scaling) (meets : Sound → Bool) (item : Item) :
    Spliced k item.tokens (k.editsOf meets item.sounds) (item.rescale k meets).tokens := by
  cases item with
  | note n =>
    simp only [sounds, rescale, tokens, Scaling.editsOf_cons, Scaling.editsOf_nil, List.append_nil]
    split
    · exact n.spliced k
    · exact .refl k _
  | chord c =>
    simp only [sounds, rescale, tokens, Scaling.editsOf_cons, Scaling.editsOf_nil, List.append_nil]
    split
    · exact c.spliced k
    · exact .refl k _
  | slur left contents right =>
    simp only [sounds, rescale, tokens]
    exact (Item.splicedAll k meets contents).kept [left] right.toList
  | _ =>
    simp only [sounds, rescale, Scaling.editsOf_nil]
    exact .refl k _

theorem Item.splicedAll (k : Scaling) (meets : Sound → Bool) (items : List Item) :
    Spliced k (Item.tokensOf items) (k.editsOf meets (Item.soundsOf items))
      (Item.tokensOf (Item.rescaleAll k meets items)) := by
  cases items with
  | nil =>
    simp only [soundsOf, rescaleAll, tokensOf, Scaling.editsOf_nil]
    exact .nil
  | cons item items =>
    simp only [soundsOf, rescaleAll, tokensOf, Scaling.editsOf_append]
    exact (Item.spliced k meets item).append (Item.splicedAll k meets items)

end

theorem BodyLine.spliced (k : Scaling) (meets : Sound → Bool) (line : BodyLine) :
    Spliced k line.tokens (k.editsOf meets line.sounds) (line.rescale k meets).tokens := by
  cases line with
  | music l =>
    have whole := (Item.splicedAll k meets l.items).append (.refl k l.eol.toList)
    rwa [List.append_nil] at whole
  | info l | comment l => exact .refl k _

theorem Scaling.editsOf_flatMap {α : Type} (k : Scaling) (meets : Sound → Bool) (items : List α)
    (sounds : α → List Sound) :
    k.editsOf meets (items.flatMap sounds) =
      items.flatMap fun item => k.editsOf meets (sounds item) :=
  List.flatMap_assoc

theorem Tune.spliced (k : Scaling) (meets : Sound → Bool) (t : Tune) :
    Spliced k t.tokens (k.editsOf meets (t.body.flatMap BodyLine.sounds))
      (t.rescale k meets).tokens := by
  have lines : Spliced k (t.body.flatMap BodyLine.tokens) _
      (t.body.flatMap fun line => (line.rescale k meets).tokens) :=
    .flatMap fun line _ => line.spliced k meets
  rw [Scaling.editsOf_flatMap]
  have whole := lines.kept t.headerTokens t.trailing
  simpa only [tokens, headerTokens, bodyTokens, rescale, List.flatMap_map, List.append_assoc]
    using whole

/-- The tokens of a tree with the edits made are those of the scaled tree. -/
theorem Tree.spliced (k : Scaling) (meets : Sound → Bool) (t : Tree) :
    Spliced k t.tokens (k.editsOf meets t.sounds) (t.rescale k meets).tokens := by
  have tunes : Spliced k (t.tunes.flatMap Tune.tokens) _
      (t.tunes.flatMap fun tune => (tune.rescale k meets).tokens) :=
    .flatMap fun tune _ => tune.spliced k meets
  have whole := (Spliced.refl k t.header).append tunes
  simpa only [List.nil_append, tokens, rescale, sounds, Tune.musicLines, BodyLine.sounds_body,
    Scaling.editsOf_flatMap, List.flatMap_map] using whole

/-- A selection that is no cursor meets the sounds whose range begins before it stops and stops
after it begins. -/
def Selection.intersects (selection : Selection) (s : Sound) : Bool :=
  s.range.any fun r => r.start < selection.stop && selection.start < r.stop

theorem Selection.isCursor_between (h : a ≠ b) : (between a b).isCursor = false := by
  unfold between isCursor
  split
  · exact decide_eq_false fun same => h same.symm
  · exact decide_eq_false h

namespace Scaling

theorem meets_eq {selection : Selection} (k : Scaling) (tree : Tree)
    (h : selection.isCursor = false) : k.meets tree selection = selection.intersects := by
  funext s
  simp only [meets, reach, h, Selection.intersects]
  cases s.range with
  | none => rfl
  | some r =>
    simp only [Selection.reach?, h, Option.bind_some, Option.any_some, Bool.false_and,
      Bool.false_eq_true, if_false, ← Bool.decide_and]
    split
    next inside => simp [inside]
    next outside => simp [outside]

/-- The tokens of a text with the edits of a selection made are those of the scaled tree. -/
theorem spliced_scan (k : Scaling) (text : Text) (selection : Selection) :
    Spliced k (textTokens text) (k.edits (Tree.ofTokens (scan text)).1 selection)
      ((Tree.ofTokens (scan text)).1.rescale k
        (k.meets (Tree.ofTokens (scan text)).1 selection)).tokens := by
  have own := (Tree.ofTokens (scan text)).1.spliced k
    (k.meets (Tree.ofTokens (scan text)).1 selection)
  rw [Tree.tokens_ofTokens, takeWhile_scan] at own
  have ordered := (own.spans (tiles_textTokens text)).2
  rwa [edits_eq, List.mergeSort_of_pairwise (by simpa only [decide_eq_true_eq] using ordered)]

/-- On the tree of any text, the edit of a selection is cut out between characters; and unless the
selection is a cursor, putting it in place gives the text of the tree with the lengths scaled of all
sounds that the selection intersects. -/
theorem apply_scan (k : Scaling) (text : Text) (a b : Position) :
    k.applied? (Tree.ofTokens (scan text)).1 a b =
        some (k.apply (Tree.ofTokens (scan text)).1 a b) ∧
      (a ≠ b → (k.apply (Tree.ofTokens (scan text)).1 a b).applied? text =
        some ((Tree.ofTokens (scan text)).1.rescale k
          (Selection.between a b).intersects).text) := by
  obtain ⟨sound, replaced⟩ := applied?_eq a b (Tree.text_ofTokens_scan text) (k.spliced_scan text _)
  refine ⟨sound, ?_⟩
  intro apart
  rw [k.meets_eq _ (Selection.isCursor_between apart)] at replaced
  exact replaced

/-- In the notes of a chord and behind a note with no length, from past the end of the line back
into a note, beside a bracket that is an error. -/
theorem apply_scan_halved :
    (⟨2, 40⟩ : Position) ≠ ⟨2, 1⟩ ∧
      ((⟨.divide, ⟨64, 64⟩⟩ : Scaling).apply
        (Tree.ofTokens (scan "X:1\nK:C\nA2 [C/E] ]B\n".toList)).1 ⟨2, 40⟩ ⟨2, 1⟩).applied?
          "X:1\nK:C\nA2 [C/E] ]B\n".toList = some "X:1\nK:C\nA [C/4E/] ]B/\n".toList := by
  have apart : (⟨2, 40⟩ : Position) ≠ ⟨2, 1⟩ := by decide
  have replaced := (apply_scan ⟨.divide, ⟨64, 64⟩⟩ "X:1\nK:C\nA2 [C/E] ]B\n".toList
    ⟨2, 40⟩ ⟨2, 1⟩).2 apart
  refine ⟨apart, replaced.trans ?_⟩
  decide +kernel

end Scaling
end Tunebook
