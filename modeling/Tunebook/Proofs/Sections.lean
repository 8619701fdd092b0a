import Mathlib.Data.List.DropRight
import Tunebook.Proofs.Paragraphs

/-! A text with `X:` lines is read as sections, each of which starts with such a line. A tune owns its
section, whatever stands in it, but for the last: nothing says where that ends, so that what follows the
blank lines behind its body is read as more tunes. -/
namespace Tunebook

/-- An `X:` line and the lines up to the next. -/
structure Section where
  opening : Row
  others : List Row

def Section.rows (s : Section) : List Row :=
  s.opening :: s.others

structure Section.WellFormed (s : Section) : Prop where
  opening : s.opening.opensTune = true
  others : ∀ r ∈ s.others, r.opensTune = false

/-- The tune owns the section, and its header starts with the `X:` line. -/
structure Tune.Owns (tune : Tune) (s : Section) : Prop where
  tokens : tune.tokens = Row.join s.rows
  opening : ∃ line lines, tune.header = .info line :: lines ∧ line.tokens <+: s.opening.tokens

/-- The lines from the last `X:` line on are one paragraph: no line stands below a blank one but blank
lines. -/
def Row.endsOnce (rs : List Row) : Bool :=
  ((rs.rtakeWhile (!·.opensTune)).dropWhile (!·.isBlank)).all isBlank

open Row

theorem rtakeWhile_append_cons {p : α → Bool} (fails : p a = false) (front back : List α) :
    (front ++ a :: back).rtakeWhile p = back.rtakeWhile p := by
  induction back using List.reverseRecOn with
  | nil => rw [List.rtakeWhile_concat, fails]; rfl
  | append_singleton back b ih =>
    rw [← List.cons_append, ← List.append_assoc, List.rtakeWhile_concat, List.rtakeWhile_concat, ih]

theorem Row.endsOnce_append (opens : x.opensTune = true) (front : List Row) :
    endsOnce (front ++ x :: rs) = endsOnce (x :: rs) := by
  have last : ∀ front : List Row, (front ++ x :: rs).rtakeWhile (!·.opensTune) =
      rs.rtakeWhile (!·.opensTune) := fun front => rtakeWhile_append_cons (by simp [opens]) front rs
  rw [endsOnce, endsOnce, last, ← List.nil_append (x :: rs), last]

theorem Row.exists_next (rs : List Row) : ∃ front later, rs = front ++ later ∧
    (∀ r ∈ front, r.opensTune = false) ∧ ∀ x ∈ later.head?, x.opensTune = true := by
  refine ⟨_, _, (List.takeWhile_append_dropWhile (p := (!·.opensTune)) (l := rs)).symm, ?_, ?_⟩
  · intro r member
    simpa using List.all_eq_true.mp List.all_takeWhile r member
  · intro x first
    simpa using not_of_mem_head?_dropWhile _ first

theorem InfoLine.breaksLine_of_mem_dropLast (hk : t.kind = .infoKey)
    (h : u ∈ (read t ts).1.tokens.dropLast) : u.kind.breaksLine = false := by
  have inner : ∀ v ∈ (read t ts).1.key :: (read t ts).1.value ++ (read t ts).1.comment.toList,
      v.kind.breaksLine = false := by
    intro v member
    simp only [List.mem_append, List.mem_cons, Option.mem_toList] at member
    rcases member with (rfl | value) | comment
    · rw [hk]
      rfl
    · have passes := List.all_eq_true.mp List.all_takeWhile v value
      cases kind : v.kind <;> rw [kind] at passes <;> first | rfl | cases passes
    · exact Kind.breaksLine_of_isComment (Token.kind_of_mem_accept comment)
  rw [tokens] at h
  cases ends : (read t ts).1.eol with
  | none =>
    rw [ends, Option.toList_none, List.append_nil] at h
    exact inner u (List.dropLast_subset _ h)
  | some e =>
    rw [ends, Option.toList_some, List.dropLast_concat] at h
    exact inner u h

namespace Tune

theorem exists_line_read (opens : t.opensTune = true) (beyond : Bool) (ts : List Token) :
    ∃ lines, (read beyond (t :: ts)).value.header = .info (InfoLine.read t ts).1 :: lines := by
  have hk : t.kind = .infoKey := by
    rw [Token.opensTune, Bool.and_eq_true] at opens
    exact of_decide_eq_true opens.1
  simp only [read]
  rw [readHeader, if_pos hk]
  simp only [Bool.not_true, Bool.and_false, Bool.false_eq_true, if_false]
  split
  · exact ⟨_, rfl⟩
  · exact ⟨_, rfl⟩

theorem opensTune_of_splitApart (cut : (splitApart beyond ts).2 = t :: us) (hx : x ∈ t :: us)
    (opens : x.opensTune = true) : t.opensTune = true := by
  have listed : x ∈ ts := by
    rw [← splitApart_append beyond ts, cut]
    exact List.mem_append_right _ hx
  have some : (beyond || ts.any Token.opensTune) = true := by
    rw [List.any_eq_true.mpr ⟨x, listed, opens⟩, Bool.or_true]
  rw [splitApart, if_pos some] at cut
  have first : t ∈ (ts.dropWhile (!·.opensTune)).head? := by
    rw [show ts.dropWhile (!·.opensTune) = t :: us from cut]
    rfl
  simpa using not_of_mem_head?_dropWhile _ first

/-- A tune ahead of an opening key takes all tokens before that. -/
theorem read_ahead (beyond : Bool) (hx : x.opensTune = true) (t : Token)
    (plain : ∀ u ∈ ts, u.opensTune = false) (us : List Token) :
    (read beyond (t :: ts ++ x :: us)).value.tokens = t :: ts ∧
      (read beyond (t :: ts ++ x :: us)).rest = x :: us := by
  obtain ⟨own, taken, left, rfl, rest⟩ := rest_read_append beyond hx t ts us
  cases left with
  | nil => exact ⟨by rw [taken, List.append_nil], rest⟩
  | cons u left =>
    have opens : u.opensTune = true := opensTune_of_splitApart rest (by simp) hx
    rw [plain u (by simp)] at opens
    cases opens

end Tune

namespace IsRows

theorem visible_of_opensTune {r : Row} (opens : r.opensTune = true) :
    Scan.isBlank r.text = false := by
  obtain ⟨rest, text⟩ := List.isPrefixOf_iff_prefix.mp opens
  rw [← text]
  simp [Scan.isBlank, Scan.isGap]

/-- A tune ahead of an `X:` line owns the lines before that. -/
theorem read_ahead (h : IsRows (x :: (mid ++ y :: rs))) (plain : ∀ r ∈ mid, r.opensTune = false)
    (opens : y.opensTune = true) :
    (Tune.read false (join (x :: (mid ++ y :: rs)))).value.tokens = join (x :: mid) ∧
      (Tune.read false (join (x :: (mid ++ y :: rs)))).rest = join (y :: rs) := by
  have rows : IsRows (mid ++ y :: rs) := h.tail
  obtain ⟨t, ts, cut, _, later⟩ := h.head.exists_first
  obtain ⟨u, us, next, key, _⟩ := (IsRows.right mid rows).head.exists_first
  have silent : ∀ v ∈ ts ++ join mid, v.opensTune = false := by
    intro v member
    rcases List.mem_append.mp member with member | member
    · exact later v member
    · exact rows.left.opensTune_of_mem plain v member
  have tokens : join (x :: (mid ++ y :: rs)) = t :: (ts ++ join mid) ++ u :: (us ++ join rs) := by
    simp [cut, next]
  have own : join (x :: mid) = t :: (ts ++ join mid) := by
    simp [cut]
  have left : join (y :: rs) = u :: (us ++ join rs) := by
    simp [next]
  rw [tokens, own, left]
  exact Tune.read_ahead false (key.trans opens) t silent (us ++ join rs)

theorem splitApart_ahead (h : IsRows (lead ++ x :: rs)) (plain : ∀ r ∈ lead, r.opensTune = false)
    (opens : x.opensTune = true) :
    Tune.splitApart false (join (lead ++ x :: rs)) = (join lead, join (x :: rs)) := by
  obtain ⟨u, us, first, key, _⟩ := (IsRows.right lead h).head.exists_first
  have silent : ∀ t ∈ join lead, (!t.opensTune) = true := by
    intro t member
    rw [h.left.opensTune_of_mem plain t member]
    rfl
  have own : join (x :: rs) = u :: (us ++ join rs) := by
    simp [first]
  have parts : join (lead ++ x :: rs) = join lead ++ join (x :: rs) := List.flatMap_append
  rw [parts, own, Tune.splitApart_opening false (key.trans opens),
    List.takeWhile_eq_self_iff.mpr silent, List.dropWhile_eq_nil_iff.mpr silent, List.nil_append]

theorem exists_line (h : IsRows (x :: rs)) (opens : x.opensTune = true) :
    ∃ line lines, (Tune.read false (join (x :: rs))).value.header = .info line :: lines ∧
      line.tokens <+: x.tokens := by
  obtain ⟨t, ts, cut, key, _⟩ := h.head.exists_first
  have tokens : join (x :: rs) = t :: (ts ++ join rs) := by
    simp [cut]
  have opening : t.opensTune = true := key.trans opens
  have hk : t.kind = .infoKey := by
    rw [Token.opensTune, Bool.and_eq_true] at opening
    exact of_decide_eq_true opening.1
  obtain ⟨lines, header⟩ := Tune.exists_line_read opening false (ts ++ join rs)
  rw [← tokens] at header
  refine ⟨_, lines, header, ?_⟩
  have whole : (InfoLine.read t (ts ++ join rs)).1.tokens ++ (InfoLine.read t (ts ++ join rs)).2 =
      x.tokens ++ join rs := by
    rw [InfoLine.read_append, cut, List.cons_append]
  rcases List.append_eq_append_iff.mp whole with ⟨more, own, _⟩ | ⟨more, own, rest⟩
  · exact ⟨more, own.symm⟩
  · cases more with
    | nil => exact ⟨[], by simpa using own⟩
    | cons u more =>
      -- The line break of the row would stand inside of the line.
      have some : rs ≠ [] := by
        rintro rfl
        simp at rest
      obtain ⟨y, ys, rfl⟩ := List.exists_cons_of_ne_nil some
      obtain ⟨v, last, breaks⟩ := exists_of_ending h.next.1
      have inside : v ∈ (InfoLine.read t (ts ++ join (y :: ys))).1.tokens.dropLast := by
        rw [own, List.dropLast_append_of_ne_nil (List.cons_ne_nil u more)]
        exact List.mem_append_left _ (List.mem_of_getLast? last)
      rw [InfoLine.breaksLine_of_mem_dropLast hk inside] at breaks
      cases breaks

end IsRows

namespace Tree

/-- From the last `X:` line on there is one tune, if no line stands below a blank one. -/
theorem readTunes_last (h : IsRows (x :: rs)) (opens : x.opensTune = true)
    (plain : ∀ r ∈ rs, r.opensTune = false)
    (ends : (rs.dropWhile (!·.isBlank)).all isBlank = true) :
    ∃ tune, (readTunes false (join (x :: rs))).1 = [tune] ∧ tune.Owns ⟨x, rs⟩ := by
  obtain ⟨p, rest, whole, first, lines, blanks, apart, next, parts, left⟩ :=
    h.exists_paragraph (IsRows.visible_of_opensTune opens) plain
  obtain ⟨inner, front⟩ := List.head?_eq_some_iff.mp first
  rw [Paragraph.rows, front, List.cons_append, List.cons_append, List.cons.injEq] at whole
  have none : rest = [] := by
    cases rest with
    | nil => rfl
    | cons s rest =>
      obtain ⟨b, bs, behind⟩ := List.exists_cons_of_ne_nil (apart (List.cons_ne_nil s rest))
      have blank : b.isBlank = true := blanks b (by simp [behind])
      have visible : ∀ r ∈ inner, (!r.isBlank) = true := by
        intro r member
        simp [lines r (by simp [front, member])]
      rw [whole.2, List.append_assoc, List.dropWhile_append_of_pos visible, behind] at ends
      have own : s.isBlank = true := by simp_all
      rw [isBlank, next s rfl, Bool.false_and] at own
      cases own
  subst none
  have nonempty : join (x :: rs) ≠ [] := mt h.join_eq_nil.mp (List.cons_ne_nil x rs)
  have tokens : (Tune.read false (join (x :: rs))).value.tokens = join (x :: rs) := by
    have both : (Tune.read false (join (x :: rs))).value.tokens =
        (Tune.read false (join (x :: rs))).value.parts.1 ++
          (Tune.read false (join (x :: rs))).value.parts.2 := rfl
    rw [both, parts, Paragraph.parts, ← List.flatMap_append, front, List.cons_append,
      ← List.append_nil (inner ++ p.blanks), ← whole.2]
  refine ⟨_, ?_, tokens, h.exists_line opens⟩
  rw [readTunes_of_ne_nil false nonempty, left]
  simp [readTunes]

theorem exists_sections (h : IsRows (x :: rs)) (opens : x.opensTune = true)
    (ends : endsOnce (x :: rs) = true) :
    ∃ ss : List Section, x :: rs = ss.flatMap Section.rows ∧ (∀ s ∈ ss, s.WellFormed) ∧
      List.Forall₂ Tune.Owns (readTunes false (join (x :: rs))).1 ss := by
  -- on the number of rows: the next section starts at the next row that opens a tune
  induction size : rs.length using Nat.strongRecOn generalizing x rs with
  | ind n ih =>
    obtain ⟨mid, later, rfl, plain, next⟩ := exists_next rs
    cases later with
    | nil =>
      rw [List.append_nil] at *
      have last : (x :: mid).rtakeWhile (!·.opensTune) = mid := by
        rw [← List.nil_append (x :: mid), rtakeWhile_append_cons (by simp [opens]),
          List.rtakeWhile_eq_self_iff]
        simpa using plain
      rw [endsOnce, last] at ends
      obtain ⟨tune, read, owns⟩ := readTunes_last h opens plain ends
      refine ⟨[⟨x, mid⟩], by simp [Section.rows], ?_, ?_⟩
      · intro s member
        obtain rfl := List.mem_singleton.mp member
        exact ⟨opens, plain⟩
      · rw [read]
        exact .cons owns .nil
    | cons y rest =>
      have starts : y.opensTune = true := next y rfl
      have rows : IsRows (y :: rest) := IsRows.right (x :: mid) h
      rw [← List.cons_append, endsOnce_append starts] at ends
      obtain ⟨ss, cut, formed, owns⟩ := ih rest.length (by simp at size; omega) rows starts ends rfl
      obtain ⟨tokens, left⟩ := h.read_ahead plain starts
      refine ⟨⟨x, mid⟩ :: ss, ?_, List.forall_mem_cons.mpr ⟨⟨opens, plain⟩, formed⟩, ?_⟩
      · rw [List.flatMap_cons, ← cut]
        rfl
      · have nonempty : join (x :: (mid ++ y :: rest)) ≠ [] :=
          mt h.join_eq_nil.mp (List.cons_ne_nil x _)
        rw [readTunes_of_ne_nil false nonempty, left]
        exact .cons ⟨tokens, h.exists_line opens⟩ owns

theorem countP_sections {ss : List Section} (h : ∀ s ∈ ss, s.WellFormed) :
    (ss.flatMap Section.rows).countP Row.opensTune = ss.length := by
  induction ss with
  | nil => rfl
  | cons s ss ih =>
    obtain ⟨own, others⟩ := List.forall_mem_cons.mp h
    have none : s.others.countP Row.opensTune = 0 := by
      rw [List.countP_eq_zero]
      intro r member
      simp [own.others r member]
    rw [List.flatMap_cons, List.countP_append, ih others, Section.rows,
      List.countP_cons_of_pos own.opening, none, List.length_cons]
    omega

end Tree

/-- The tunes of a text are its sections, each with all that stands in it, and the lines ahead of the
first are the header. -/
def Text.HasSections (text : Text) : Prop :=
  (Tree.ofTokens (scan text)).1.tunes.length = text.lines.countP (['X', ':'].isPrefixOf ·) ∧
    ∃ lead : List Row, ∃ ss : List Section,
      Tunebook.rows text = lead ++ ss.flatMap Section.rows ∧
      (∀ r ∈ lead, r.opensTune = false) ∧ (∀ s ∈ ss, s.WellFormed) ∧
      (Tree.ofTokens (scan text)).1.header = join lead ∧
      List.Forall₂ Tune.Owns (Tree.ofTokens (scan text)).1.tunes ss

/-- A text with `X:` lines is read as sections, if no line stands below a blank one behind the last of
them but blank lines. -/
theorem Text.hasSections (text : Text) (some : ∃ line ∈ text.lines, ['X', ':'] <+: line)
    (ends : endsOnce (Tunebook.rows text) = true) : text.HasSections := by
  have all := isRows_rows text
  obtain ⟨lead, later, whole, plain, next⟩ := exists_next (Tunebook.rows text)
  cases later with
  | nil =>
    obtain ⟨line, listed, front⟩ := some
    rw [← text_rows] at listed
    obtain ⟨r, member, rfl⟩ := List.mem_map.mp listed
    rw [whole, List.append_nil] at member
    have opens : r.opensTune = true := List.isPrefixOf_iff_prefix.mpr front
    rw [plain r member] at opens
    cases opens
  | cons x rs =>
    have opens : x.opensTune = true := next x rfl
    rw [whole] at all ends
    rw [endsOnce_append opens] at ends
    have behind : IsRows (x :: rs) := IsRows.right lead all
    obtain ⟨ss, cut, formed, owns⟩ := Tree.exists_sections behind opens ends
    have tree : (Tree.ofTokens (scan text)).1 =
        ⟨join lead, (Tree.readTunes false (join (x :: rs))).1⟩ := by
      rw [Tree.ofTokens_scan_eq, ← join_rows, whole, all.splitApart_ahead plain opens]
    rw [HasSections, tree]
    refine ⟨?_, lead, ss, by rw [← cut, whole], plain, formed, rfl, owns⟩
    have none : lead.countP Row.opensTune = 0 := by
      rw [List.countP_eq_zero]
      intro r member
      simp [plain r member]
    have count : (lead ++ x :: rs).countP Row.opensTune = (x :: rs).countP Row.opensTune := by
      rw [List.countP_append, none, Nat.zero_add]
    rw [owns.length_eq, ← Tree.countP_sections formed, ← cut, ← count, ← whole, ← text_rows,
      List.countP_map]
    rfl

theorem Text.hasSections_two :
    (∃ line ∈ Text.lines "X:1\nK:C\nC\n\nX:2\nD\n".toList, ['X', ':'] <+: line) ∧
      endsOnce (Tunebook.rows "X:1\nK:C\nC\n\nX:2\nD\n".toList) = true ∧
      Text.HasSections "X:1\nK:C\nC\n\nX:2\nD\n".toList :=
  ⟨by decide +kernel, by decide +kernel, hasSections _ (by decide +kernel) (by decide +kernel)⟩

/-- A line below the blank one behind the last tune is a tune of its own. -/
theorem Text.not_hasSections :
    ¬∀ text : Text, (∃ line ∈ text.lines, ['X', ':'] <+: line) → text.HasSections := by
  intro every
  have same := (every "X:1\nK:C\nC\n\nD\n".toList (by decide +kernel)).1
  exact absurd same (by decide +kernel)

end Tunebook
