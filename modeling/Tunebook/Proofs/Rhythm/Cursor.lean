import Tunebook.Proofs.Rhythm.Editing
import Tunebook.Proofs.Rhythm.Sounds

/-! What a cursor scales. It is in one note or chord at most, and that one is scaled and no other. Where
it is in none, the one that ends at it is. But the choice is made by what there is to edit: if the
sound around the cursor keeps its length, the one that ends at the cursor is scaled in its place. -/
namespace Tunebook

namespace Sound

/-- The position is in the sound, or where it starts. -/
def contains (p : Position) (s : Sound) : Bool :=
  s.range.any fun r => r.start ≤ p && p < r.stop

def endsAt (p : Position) (s : Sound) : Bool :=
  s.range.any fun r => r.stop = p

/-- No length of the sound can be read and scaled within the limits. -/
def isFixed (k : Scaling) : Sound → Bool
  | note n => (k.length? n.rhythm).isNone
  | chord c =>
    if Scaling.editsNotes c then c.notes.all fun n => (k.length? n.rhythm).isNone
    else (k.length? c.rhythm).isNone

end Sound

namespace Scaling

theorem ofRhythm_eq_none_iff {k : Scaling} :
    k.ofRhythm r (some t) = none ↔ (k.length? r).isNone = true := by
  rw [Option.isNone_iff_eq_none]
  constructor
  · exact ofRhythm_eq_none
  · intro none
    cases found : k.ofRhythm r (some t) with
    | none => rfl
    | some e =>
      obtain ⟨n, given, _⟩ := exists_of_ofRhythm found
      cases none.symm.trans given

theorem ofNote_eq_none_iff {k : Scaling} {n : Note} :
    k.ofNote n = none ↔ (k.length? n.rhythm).isNone = true := by
  rw [ofNote, n.head.getLast?_tokens]
  exact ofRhythm_eq_none_iff

/-- A sound without edits is one whose lengths cannot be scaled. -/
theorem ofSound_eq_nil_iff {k : Scaling} {s : Sound} : k.ofSound s = [] ↔ s.isFixed k = true := by
  cases s with
  | note n => rw [ofSound, Option.toList_eq_nil_iff, ofNote_eq_none_iff, Sound.isFixed]
  | chord c =>
    rw [ofSound, Sound.isFixed]
    split
    · rw [List.filterMap_eq_nil_iff, List.all_eq_true]
      exact forall₂_congr fun n _ => ofNote_eq_none_iff
    · rw [Option.toList_eq_nil_iff, ofRhythm_eq_none_iff]

theorem editsOf_eq_nil_iff {k : Scaling} {meets : Sound → Bool} {sounds : List Sound} :
    k.editsOf meets sounds = [] ↔ ∀ s ∈ sounds, meets s = true → s.isFixed k = true := by
  simp only [editsOf, List.flatMap_eq_nil_iff, ite_eq_right_iff, ofSound_eq_nil_iff]

end Scaling

/-! How a cursor meets a sound. -/

theorem Selection.between_self (p : Position) : between p p = ⟨p, p⟩ := by
  unfold between
  split <;> rfl

theorem Sound.reach?_eq_contains {p : Position} {s : Sound} :
    s.range.bind (Selection.between p p).reach? = some .contains ↔ s.contains p = true := by
  rw [Selection.between_self, contains]
  cases s.range with
  | none => simp
  | some r =>
    simp only [Option.bind_some, Selection.reach?, Selection.isCursor, decide_true, if_true,
      Option.any_some, Bool.and_eq_true, decide_eq_true_eq]
    split
    next inside => simp [inside]
    next outside =>
      simp only [outside, iff_false]
      split <;> simp

/-- A position at which a sound ends is not in it. -/
theorem Sound.reach?_eq_touches {p : Position} {s : Sound} :
    s.range.bind (Selection.between p p).reach? = some .touches ↔ s.endsAt p = true := by
  rw [Selection.between_self, endsAt]
  cases s.range with
  | none => simp
  | some r =>
    simp only [Option.bind_some, Selection.reach?, Selection.isCursor, decide_true, if_true,
      Option.any_some, decide_eq_true_eq]
    split
    next inside =>
      have apart : r.stop ≠ p := by
        intro same
        exact Position.not_le_of_lt inside.2 (same ▸ .inr ⟨rfl, Nat.le_refl _⟩)
      simp [apart]
    next outside => split <;> simp_all

namespace Scaling

theorem editsAt_contains (k : Scaling) (tree : Tree) (p : Position) :
    k.editsAt tree (Selection.between p p) .contains =
      k.editsOf (Sound.contains p) tree.sounds := by
  simp only [editsAt, editsOf, Sound.reach?_eq_contains]

/-- A cursor picks out what it is in or, if nothing there is to edit, what ends at it. -/
theorem meets_cursor (k : Scaling) (tree : Tree) (p : Position) :
    k.meets tree (Selection.between p p) =
      if k.editsOf (Sound.contains p) tree.sounds = [] then Sound.endsAt p else Sound.contains p := by
  have cursor : (Selection.between p p).isCursor = true := by
    rw [Selection.between_self]
    exact decide_eq_true rfl
  funext s
  rw [meets, reach, cursor, Bool.true_and, editsAt_contains]
  split
  next none =>
    rw [if_pos (List.isEmpty_iff.mp none), Bool.eq_iff_iff, decide_eq_true_eq]
    exact Sound.reach?_eq_touches
  next some =>
    rw [if_neg (mt List.isEmpty_iff.mpr some), Bool.eq_iff_iff, decide_eq_true_eq]
    exact Sound.reach?_eq_contains

theorem applied?_cursor (k : Scaling) (text : Text) (p : Position) :
    (k.apply (Tree.ofTokens (scan text)).1 p p).applied? text =
      some ((Tree.ofTokens (scan text)).1.rescale k
        (k.meets (Tree.ofTokens (scan text)).1 (Selection.between p p))).text :=
  (applied?_eq p p (Tree.text_ofTokens_scan text) (k.spliced_scan text _)).2

end Scaling

theorem Spliced.eq_of_nil (h : Spliced k ts [] us) : us = ts := by
  generalize none : [] = es at h
  induction h with
  | nil => rfl
  | keep t _ ih => rw [ih none]
  | sound => cases none

/-- Where nothing is edited the text stays. -/
theorem Tree.text_rescale {t : Tree} {k : Scaling} {meets : Sound → Bool}
    (fixed : ∀ s ∈ t.sounds, meets s = true → s.isFixed k = true) :
    (t.rescale k meets).text = t.text := by
  have own := t.spliced k meets
  rw [Scaling.editsOf_eq_nil_iff.mpr fixed] at own
  rw [Tree.text, own.eq_of_nil, Tree.text]

/-! A position is in one sound at most. -/

theorem countP_le_one {p : α → Bool} {l : List α} (h : l.Pairwise fun a b => p a = true → p b = false) :
    l.countP p ≤ 1 := by
  induction l with
  | nil => exact Nat.zero_le 1
  | cons a l ih =>
    obtain ⟨first, rest⟩ := List.pairwise_cons.mp h
    cases own : p a with
    | false => rw [List.countP_cons_of_neg (by simp [own])]; exact ih rest
    | true =>
      have none : l.countP p = 0 := by
        rw [List.countP_eq_zero]
        intro b member
        simp [first b member own]
      rw [List.countP_cons_of_pos own, none]

namespace Sound

theorem Precedes.contains {a b : Sound} (h : a.Precedes b) (own : a.contains p = true) :
    b.contains p = false := by
  obtain ⟨r, first, own⟩ := (Option.any_eq_true _ _).mp own
  simp only [Bool.and_eq_true, decide_eq_true_eq] at own
  refine (Option.any_eq_false _ _).mpr fun s second => ?_
  have later := Position.lt_of_lt_of_le own.2 (h r first s second).1
  simp [Position.not_le_of_lt later]

theorem Precedes.endsAt {a b : Sound} (h : a.Precedes b) (own : a.endsAt p = true) :
    b.endsAt p = false := by
  obtain ⟨r, first, own⟩ := (Option.any_eq_true _ _).mp own
  refine (Option.any_eq_false _ _).mpr fun s second => ?_
  obtain ⟨order, filled⟩ := h r first s second
  have later := Position.not_le_of_lt filled
  rw [decide_eq_true_eq] at own
  refine decide_eq_false ?_
  rintro rfl
  exact later (own ▸ order)

end Sound

/-- Of two sounds that share a position, each is the other. -/
theorem Tree.eq_of_contains {text : Text} {s o : Sound} (hs : s ∈ (ofTokens (scan text)).1.sounds)
    (ho : o ∈ (ofTokens (scan text)).1.sounds) (first : s.contains p = true)
    (second : o.contains p = true) : s = o := by
  have apart : (ofTokens (scan text)).1.sounds.Pairwise
      fun a b => ¬(a.contains p = true ∧ b.contains p = true) :=
    (pairwise_sounds text).imp fun order both => by simp [order.contains both.1] at both
  have : Std.Symm fun a b : Sound => ¬(a.contains p = true ∧ b.contains p = true) :=
    ⟨fun _ _ h both => h both.symm⟩
  by_contra different
  exact apart.forall hs ho different ⟨first, second⟩

/-- A cursor scales the sound that it is in and no other, and nothing if that sound cannot be scaled.
Only where it is in none, it scales the one that ends at it. -/
structure Scaling.PrefersInside (k : Scaling) (text : Text) (p : Position) : Prop where
  inside : ∀ s ∈ (Tree.ofTokens (scan text)).1.sounds, s.contains p = true →
    (k.apply (Tree.ofTokens (scan text)).1 p p).applied? text =
        some ((Tree.ofTokens (scan text)).1.rescale k (Sound.contains p)).text ∧
      (s.isFixed k = true →
        (k.apply (Tree.ofTokens (scan text)).1 p p).applied? text = some text)
  outside : (∀ s ∈ (Tree.ofTokens (scan text)).1.sounds, s.contains p = false) →
    (k.apply (Tree.ofTokens (scan text)).1 p p).applied? text =
      some ((Tree.ofTokens (scan text)).1.rescale k (Sound.endsAt p)).text
  single : (Tree.ofTokens (scan text)).1.sounds.countP (Sound.contains p) ≤ 1 ∧
    (Tree.ofTokens (scan text)).1.sounds.countP (Sound.endsAt p) ≤ 1

namespace Scaling

/-- The sound around the cursor comes first, if where it cannot be scaled neither can the one that
ends there. -/
theorem prefersInside (k : Scaling) (text : Text) (p : Position)
    (fixed : ∀ s ∈ (Tree.ofTokens (scan text)).1.sounds, s.contains p = true →
      s.isFixed k = true →
        ∀ o ∈ (Tree.ofTokens (scan text)).1.sounds, o.endsAt p = true → o.isFixed k = true) :
    k.PrefersInside text p where
  inside s member around := by
    rw [applied?_cursor, meets_cursor]
    have unchanged : ∀ meets, (∀ o ∈ (Tree.ofTokens (scan text)).1.sounds, meets o = true →
        o.isFixed k = true) → ((Tree.ofTokens (scan text)).1.rescale k meets).text = text :=
      fun meets keeps => (Tree.text_rescale keeps).trans (Tree.text_ofTokens_scan text)
    split
    next none =>
      rw [editsOf_eq_nil_iff] at none
      have ends := fixed s member around (none s member around)
      rw [unchanged _ none, unchanged _ ends]
      exact ⟨rfl, fun _ => rfl⟩
    next some =>
      refine ⟨rfl, fun keeps => congrArg _ (unchanged _ fun o listed inside => ?_)⟩
      exact Tree.eq_of_contains member listed around inside ▸ keeps
  outside nowhere := by
    have none : k.editsOf (Sound.contains p) (Tree.ofTokens (scan text)).1.sounds = [] :=
      editsOf_eq_nil_iff.mpr fun s member around => by simp [nowhere s member] at around
    rw [applied?_cursor, meets_cursor, if_pos none]
  single :=
    ⟨countP_le_one ((Tree.pairwise_sounds text).imp Sound.Precedes.contains),
      countP_le_one ((Tree.pairwise_sounds text).imp Sound.Precedes.endsAt)⟩

/-- Between a note and a chord with a length inside, the chord is scaled, note by note. -/
theorem prefersInside_chord :
    (∀ s ∈ (Tree.ofTokens (scan "X:1\nK:C\nA2[Ec2]B\n".toList)).1.sounds,
      s.contains ⟨2, 2⟩ = true → s.isFixed ⟨.multiply, ⟨64, 64⟩⟩ = true →
        ∀ o ∈ (Tree.ofTokens (scan "X:1\nK:C\nA2[Ec2]B\n".toList)).1.sounds,
          o.endsAt ⟨2, 2⟩ = true → o.isFixed ⟨.multiply, ⟨64, 64⟩⟩ = true) ∧
      ((⟨.multiply, ⟨64, 64⟩⟩ : Scaling).apply
        (Tree.ofTokens (scan "X:1\nK:C\nA2[Ec2]B\n".toList)).1 ⟨2, 2⟩ ⟨2, 2⟩).applied?
          "X:1\nK:C\nA2[Ec2]B\n".toList = some "X:1\nK:C\nA2[E2c4]B\n".toList := by
  have fixed : ∀ s ∈ (Tree.ofTokens (scan "X:1\nK:C\nA2[Ec2]B\n".toList)).1.sounds,
      s.contains ⟨2, 2⟩ = true → s.isFixed ⟨.multiply, ⟨64, 64⟩⟩ = true →
        ∀ o ∈ (Tree.ofTokens (scan "X:1\nK:C\nA2[Ec2]B\n".toList)).1.sounds,
          o.endsAt ⟨2, 2⟩ = true → o.isFixed ⟨.multiply, ⟨64, 64⟩⟩ = true := by
    decide +kernel
  have around : ∃ s ∈ (Tree.ofTokens (scan "X:1\nK:C\nA2[Ec2]B\n".toList)).1.sounds,
      s.contains ⟨2, 2⟩ = true := by
    decide +kernel
  obtain ⟨s, member, inside⟩ := around
  have scaled := ((prefersInside _ _ _ fixed).inside s member inside).1
  refine ⟨fixed, scaled.trans ?_⟩
  decide +kernel

/-- A note that is as long as it may be gives way to the note before it. -/
theorem not_prefersInside :
    ¬∀ (k : Scaling) (text : Text) (p : Position), k.PrefersInside text p := by
  intro every
  have around : ∃ s ∈ (Tree.ofTokens (scan "X:1\nK:C\nC2D64\n".toList)).1.sounds,
      s.contains ⟨2, 2⟩ = true ∧ s.isFixed ⟨.multiply, ⟨64, 64⟩⟩ = true := by
    decide +kernel
  obtain ⟨s, member, inside, keeps⟩ := around
  have same := ((every ⟨.multiply, ⟨64, 64⟩⟩ "X:1\nK:C\nC2D64\n".toList ⟨2, 2⟩).inside s member
    inside).2 keeps
  exact absurd same (by decide +kernel)

end Scaling

end Tunebook
