import Tunebook.Proofs.Descent.Searches
import Tunebook.Proofs.Grammar.Groups

/-! The descent through notes, chords and grace groups. -/
namespace Tunebook.Descent

variable {tokens : List Token} {depth : Nat}

/-- What holds of all tokens holds of those that are left. -/
theorem forall_mem_rest {P : Token → Prop} {rest : List Token} (whole : own ++ rest = ts)
    (h : ∀ t ∈ ts, P t) :
    ∀ t ∈ rest, P t := by
  intro t member
  exact h t (whole ▸ List.mem_append_right own member)

namespace Reads

theorem rhythm (ts : List Token) (stop : nextKind us ∈ noteEnds) :
    Reads tokens depth rhythm (ts ++ us) (Rhythm.read ts).1 ((Rhythm.read ts).2 ++ us) [] := by
  have denominator (separator : Option Token) (ts : List Token) :
      Reads tokens depth (denominator separator) (ts ++ us)
        (if separator.isSome then Token.accept (· = .number) ts else (none, ts)).1
        ((if separator.isSome then Token.accept (· = .number) ts else (none, ts)).2 ++ us) [] := by
    rw [Descent.denominator]
    split
    · exact accept ts stop rfl
    · exact pure none
  refine step (accept ts stop rfl) ?_
  refine step (accept _ stop rfl) ?_
  refine step (denominator _ _) ?_
  exact step (accept _ stop rfl) (pure _)

theorem finish (head : NoteHead) (ts : List Token) (stop : nextKind us ∈ noteEnds) :
    Reads tokens depth (finish head) (ts ++ us) (.ok (Note.finish head ts).1)
      ((Note.finish head ts).2 ++ us) [] := by
  refine step (rhythm ts stop) ?_
  exact step (accept _ stop rfl) (pure _)

theorem pitch (alteration : Option Token) (letter : Token) (ts : List Token)
    (stop : nextKind us ∈ noteEnds) :
    Reads tokens depth (pitch alteration) (letter :: (ts ++ us))
      (.ok (Note.readPitch alteration letter ts).1) ((Note.readPitch alteration letter ts).2 ++ us)
      [] := by
  refine step advance ?_
  exact step (accept ts stop rfl) (finish _ _ stop)

theorem note (starts : t.kind.startsNote = true) (stop : nextKind us ∈ noteEnds)
    (found : Note.read? t ts = some (n, rest)) :
    Reads tokens depth note (t :: (ts ++ us)) (.ok n) (rest ++ us) [] := by
  refine step (accept (t :: ts) stop rfl) ?_
  refine step peek ?_
  cases accidental : t.kind.isAccidental with
  | true =>
    cases ts with
    | nil => simp [Note.read?, accidental] at found
    | cons letter ts =>
      simp only [Note.read?, accidental, if_true] at found
      split at found
      next kind =>
        obtain ⟨rfl, rfl⟩ := Prod.mk.inj (Option.some.inj found)
        simp only [Token.accept, accidental, if_true, List.cons_append, nextKind_cons, kind]
        exact pitch (some t) letter ts stop
      · cases found
  | false =>
    simp only [Note.read?, accidental, Bool.false_eq_true, if_false] at found
    simp only [Token.accept, accidental, Bool.false_eq_true, if_false, List.cons_append,
      nextKind_cons]
    split at found
    next kind =>
      obtain ⟨rfl, rfl⟩ := Prod.mk.inj (Option.some.inj found)
      rw [if_pos kind]
      exact pitch none t ts stop
    next kind =>
      obtain ⟨rfl, rfl⟩ := Prod.mk.inj (Option.some.inj found)
      have rest : t.kind = .restLetter := by
        cases hk : t.kind <;> simp_all [Kind.startsNote, Kind.isAccidental]
      rw [if_neg kind, if_pos rest]
      exact step advance (finish _ ts stop)

theorem note_dangling (stop : nextKind us ∈ noteEnds) (missing : Note.read? t ts = none) :
    Reads tokens depth Descent.note (t :: (ts ++ us)) (.error t) (ts ++ us)
      [⟨.danglingAccidental, t⟩] := by
  have accidental : t.kind.isAccidental = true := by
    cases h : t.kind.isAccidental with
    | true => rfl
    | false =>
      simp only [Note.read?, h, Bool.false_eq_true, if_false] at missing
      split at missing <;> cases missing
  have next : nextKind (ts ++ us) ≠ .noteLetter := by
    cases ts with
    | nil => exact of_decide_eq_false (fails_of_mem (p := (· = .noteLetter)) stop rfl)
    | cons letter ts =>
      intro kind
      simp only [List.cons_append, nextKind_cons] at kind
      simp [Note.read?, accidental, kind] at missing
  refine step (accept (t :: ts) stop rfl) ?_
  refine step peek ?_
  simp only [Token.accept, accidental, if_true]
  rw [if_neg next]
  exact last (report _ t) (pure _)

theorem chordPart_note (starts : t.kind.startsNote = true) (stop : nextKind us ∈ noteEnds)
    (found : Note.read? t ts = some (n, rest)) :
    Reads tokens depth chordPart (t :: (ts ++ us)) (.note n) (rest ++ us) [] := by
  refine step peek ?_
  rw [nextKind_cons, if_pos starts]
  exact step (note starts stop found) (pure _)

theorem chordPart_dangling (starts : t.kind.startsNote = true) (stop : nextKind us ∈ noteEnds)
    (missing : Note.read? t ts = none) :
    Reads tokens depth chordPart (t :: (ts ++ us)) (.token t) (ts ++ us)
      [⟨.danglingAccidental, t⟩] := by
  refine step peek ?_
  rw [nextKind_cons, if_pos starts]
  exact last (note_dangling stop missing) (pure _)

theorem chordPart_quotedText (plain : ¬t.kind.startsNote = true) (quoted : t.kind = .quotedText) :
    Reads tokens depth chordPart (t :: us) (.quotedText t) us [] := by
  refine step peek ?_
  rw [nextKind_cons, if_neg plain, if_pos quoted]
  exact step advance (pure _)

theorem chordPart_token (plain : ¬t.kind.startsNote = true) (quoted : t.kind ≠ .quotedText) :
    Reads tokens depth chordPart (t :: us) (.token t) us
      ((Chord.fault? t).toList.map (⟨·, t⟩)) := by
  refine step peek ?_
  rw [nextKind_cons, if_neg plain, if_neg quoted]
  exact step advance (last (report _ t) (pure _))

theorem inside (h : t.kind ≠ close) :
    Reads tokens depth (Descent.follows fun k => !(k = close || k = .eof)) (t :: ts) true (t :: ts) [] :=
  of_sees fun _ sees => follows (by simp [h, sees.ne_eof List.mem_cons_self])

theorem atClose (h : nextKind us = close) :
    Reads tokens depth (Descent.follows fun k => !(k = close || k = .eof)) us false us [] :=
  follows (by simp [h])

theorem chordParts (ts us : List Token) (inner : ∀ t ∈ ts, t.kind ≠ .rightBracket)
    (stop : nextKind us = .rightBracket) :
    Turns tokens depth (Descent.follows fun k => !(k = .rightBracket || k = .eof)) chordPart
      (ts ++ us) (Chord.readParts ts).1 us (Chord.readParts ts).2 := by
  have ends : nextKind us ∈ noteEnds := by simp [stop, noteEnds]
  fun_induction Chord.readParts ts with
  | case1 => exact .nil (atClose stop)
  | case2 t ts starts n rest found parts problems tail ih =>
    rw [tail] at ih
    have own := forall_mem_rest (Note.read?_append found) inner
    have shorter : (rest ++ us).length ≤ (ts ++ us).length := by
      simpa using Note.length_read?_le found
    exact .cons (inside (inner t List.mem_cons_self)) (chordPart_note starts ends found)
      (Nat.lt_succ_of_le shorter) (ih own)
  | case3 t ts starts missing parts problems tail ih =>
    rw [tail] at ih
    exact .cons (inside (inner t List.mem_cons_self)) (chordPart_dangling starts ends missing)
      (by simp) (ih fun u member => inner u (List.mem_cons_of_mem t member))
  | case4 t ts plain quoted parts problems tail ih =>
    rw [tail] at ih
    exact .cons (inside (inner t List.mem_cons_self)) (chordPart_quotedText plain quoted)
      (by simp) (ih fun u member => inner u (List.mem_cons_of_mem t member))
  | case5 t ts plain quoted parts problems tail ih =>
    rw [tail] at ih
    exact .cons (inside (inner t List.mem_cons_self)) (chordPart_token plain quoted)
      (by simp) (ih fun u member => inner u (List.mem_cons_of_mem t member))

theorem chord (stop : nextKind us ∈ noteEnds) (found : Chord.read? t ts = some r) :
    Reads tokens depth chord (t :: (ts ++ us)) r.value (r.rest ++ us) r.problems := by
  obtain ⟨⟨inner, right, rest⟩, cut, rfl⟩ := Option.map_eq_some_iff.1 found
  obtain ⟨closes, apart⟩ := Token.splitClose_spec cut
  rw [Token.splitClose_append cut, List.append_assoc, List.cons_append]
  refine step advance ?_
  refine bind (chordParts inner (right :: (rest ++ us)) (fun u member => (apart u member).1)
    closes).repeated ?_
  refine step advance ?_
  refine step (rhythm rest stop) ?_
  exact step (accept _ stop rfl) (last (reportIf _ _ _) (pure _))

theorem closesChord (stop : nextKind us ∈ .rightBrace :: musicEnds) :
    Reads tokens depth (Descent.isClosed .rightBracket Chord.admits) (t :: (ts ++ us))
      (Chord.read? t ts).isSome (t :: (ts ++ us)) [] := by
  rw [Chord.read?, Option.isSome_map]
  refine isClosed ⟨?_, fails_of_mem stop rfl⟩
  exact of_decide_eq_false (fails_of_mem (p := (· = .rightBracket)) stop rfl)

theorem closesGraceGroup (stop : nextKind us ∈ musicEnds) :
    Reads tokens depth (Descent.isClosed .rightBrace GraceGroup.admits) (t :: (ts ++ us))
      (GraceGroup.read? t ts).isSome (t :: (ts ++ us)) [] := by
  rw [GraceGroup.read?, Option.isSome_map]
  refine isClosed ⟨?_, fails_of_mem stop rfl⟩
  exact of_decide_eq_false (fails_of_mem (p := (· = .rightBrace)) stop rfl)

theorem opensChord (stop : nextKind us = .rightBrace) :
    Reads tokens depth (opensChord t.kind) (t :: (ts ++ us)) (GraceGroup.chord? t ts).isSome
      (t :: (ts ++ us)) [] := by
  rw [Descent.opensChord, GraceGroup.chord?]
  split
  · exact closesChord (stop ▸ List.mem_cons_self)
  · exact pure false

theorem gracePart_note (starts : t.kind.startsNote = true) (stop : nextKind us ∈ noteEnds)
    (found : Note.read? t ts = some (n, rest)) :
    Reads tokens depth gracePart (t :: (ts ++ us)) (.note n) (rest ++ us) [] := by
  refine step peek ?_
  rw [nextKind_cons, if_pos starts]
  exact step (note starts stop found) (pure _)

theorem gracePart_dangling (starts : t.kind.startsNote = true) (stop : nextKind us ∈ noteEnds)
    (missing : Note.read? t ts = none) :
    Reads tokens depth gracePart (t :: (ts ++ us)) (.token t) (ts ++ us)
      [⟨.danglingAccidental, t⟩] := by
  refine step peek ?_
  rw [nextKind_cons, if_pos starts]
  exact last (note_dangling stop missing) (pure _)

theorem gracePart_chord (plain : ¬t.kind.startsNote = true) (stop : nextKind us = .rightBrace)
    (found : GraceGroup.chord? t ts = some r) :
    Reads tokens depth gracePart (t :: (ts ++ us)) (.chord r.value) (r.rest ++ us)
      (r.problems ++ [⟨.chordInGraceGroup, t⟩]) := by
  have ends : nextKind us ∈ noteEnds := by simp [stop, noteEnds]
  refine step peek ?_
  rw [nextKind_cons, if_neg plain]
  refine step (opensChord stop) ?_
  rw [found]
  unfold GraceGroup.chord? at found
  split at found
  · obtain rfl : r.value.left = t := (Chord.isReading_of_read? found).left
    exact bind (chord ends found) (last (report _ _) (pure _))
  · cases found

theorem gracePart_token (plain : ¬t.kind.startsNote = true) (stop : nextKind us = .rightBrace)
    (missing : GraceGroup.chord? t ts = none) :
    Reads tokens depth gracePart (t :: (ts ++ us)) (.token t) (ts ++ us)
      (if t.kind = .whitespace then [] else [⟨.unexpectedInGraceGroup, t⟩]) := by
  refine step peek ?_
  rw [nextKind_cons, if_neg plain]
  refine step (opensChord stop) ?_
  rw [missing]
  refine step advance ?_
  split
  · exact last (report none t) (pure _)
  · exact last (report _ t) (pure _)

theorem graceParts (ts us : List Token) (inner : ∀ t ∈ ts, t.kind ≠ .rightBrace)
    (stop : nextKind us = .rightBrace) :
    Turns tokens depth (Descent.follows fun k => !(k = .rightBrace || k = .eof)) gracePart
      (ts ++ us) (GraceGroup.readParts ts).1 us (GraceGroup.readParts ts).2 := by
  have ends : nextKind us ∈ noteEnds := by simp [stop, noteEnds]
  fun_induction GraceGroup.readParts ts with
  | case1 => exact .nil (atClose stop)
  | case2 t ts starts n rest found parts problems tail ih =>
    rw [tail] at ih
    have own := forall_mem_rest (Note.read?_append found) inner
    have shorter : (rest ++ us).length ≤ (ts ++ us).length := by
      simpa using Note.length_read?_le found
    exact .cons (inside (inner t List.mem_cons_self)) (gracePart_note starts ends found)
      (Nat.lt_succ_of_le shorter) (ih own)
  | case3 t ts starts missing parts problems tail ih =>
    rw [tail] at ih
    exact .cons (inside (inner t List.mem_cons_self)) (gracePart_dangling starts ends missing)
      (by simp) (ih fun u member => inner u (List.mem_cons_of_mem t member))
  | case4 t ts plain chord found parts problems tail ih =>
    rw [tail] at ih
    have own := forall_mem_rest (GraceGroup.chord?_append found) inner
    have shorter : (chord.rest ++ us).length ≤ (ts ++ us).length := by
      simpa using Nat.le_of_lt (GraceGroup.length_chord?_lt found)
    have turns := Turns.cons (inside (inner t List.mem_cons_self))
      (gracePart_chord plain stop found) (Nat.lt_succ_of_le shorter) (ih own)
    rwa [List.append_assoc] at turns
  | case5 t ts plain missing parts problems tail ih =>
    rw [tail] at ih
    have turns := Turns.cons (inside (inner t List.mem_cons_self)) (gracePart_token plain stop missing)
      (by simp) (ih fun u member => inner u (List.mem_cons_of_mem t member))
    split at turns
    next space => rwa [if_pos space]
    next space => rwa [if_neg space]

theorem graceGroup (found : GraceGroup.read? t ts = some r) :
    Reads tokens depth graceGroup (t :: (ts ++ us)) r.value (r.rest ++ us) r.problems := by
  obtain ⟨⟨inner, right, rest⟩, cut, rfl⟩ := Option.map_eq_some_iff.1 found
  obtain ⟨closes, apart⟩ := Token.splitClose_spec cut
  have stop : nextKind (right :: (rest ++ us)) ∈ noteEnds := by simp [closes, noteEnds]
  rw [Token.splitClose_append cut, List.append_assoc, List.cons_append]
  refine step advance ?_
  refine step (accept inner stop rfl) ?_
  have own := forall_mem_rest (Token.accept_append (· = .slash) inner) fun u member =>
    (apart u member).1
  refine last (graceParts _ (right :: (rest ++ us)) own closes).repeated ?_
  exact step advance (pure _)

end Reads
end Tunebook.Descent
