import Tunebook.Proofs.Descent.Machine
import Tunebook.Proofs.Grammar.Lines

/-! What a part of the descent does with the tokens ahead. A judgement says that it ends, what it
gives, what it leaves and what it reports, and that all it logs is sound; it goes through the steps
of a program one after the other. -/
namespace Tunebook.Descent

variable {tokens : List Token} {depth : Nat}

/-- The kind of the next token. -/
def nextKind (ts : List Token) : Kind :=
  (ts.head?.map Token.kind).getD .eof

@[simp] theorem nextKind_nil : nextKind [] = .eof := rfl

@[simp] theorem nextKind_cons (t : Token) (ts : List Token) : nextKind (t :: ts) = t.kind := rfl

/-- What fails on all kinds of a list fails on each of them. -/
theorem fails_of_mem {p : Kind → Bool} {ends : List Kind} (member : k ∈ ends)
    (fails : ends.all (!p ·) = true) : p k = false := by
  simpa using List.all_eq_true.mp fails k member

section Sight

/-- The tokens before the first end mark. -/
def text (tokens : List Token) : List Token :=
  tokens.takeWhile (·.kind ≠ .eof)

/-- The first end mark and all that follows it. -/
def beyond (tokens : List Token) : List Token :=
  tokens.dropWhile (·.kind ≠ .eof)

theorem text_append_beyond (tokens : List Token) : text tokens ++ beyond tokens = tokens :=
  List.takeWhile_append_dropWhile

theorem kind_ne_eof (h : t ∈ text tokens) : t.kind ≠ .eof :=
  of_decide_eq_true (List.all_eq_true.mp List.all_takeWhile t h)

theorem nextKind_beyond (tokens : List Token) : nextKind (beyond tokens) = .eof := by
  rw [nextKind]
  cases found : (beyond tokens).head? with
  | none => rfl
  | some t => simpa using not_of_mem_head?_dropWhile (fun t : Token => t.kind ≠ .eof) found

theorem length_text (tokens : List Token) : (text tokens).length = endMark tokens := by
  rw [text, endMark]
  induction tokens with
  | nil => rfl
  | cons t tokens ih => by_cases h : t.kind = .eof <;> simp_all [List.findIdx_cons]

/-- From the index `i` on, these tokens come before the first end mark. -/
def Sees (tokens : List Token) (i : Nat) (ts : List Token) : Prop :=
  ∃ front, text tokens = front ++ ts ∧ front.length = i

theorem Sees.add_length (h : Sees tokens i ts) : i + ts.length = endMark tokens := by
  obtain ⟨front, cut, rfl⟩ := h
  rw [← length_text, cut, List.length_append]

theorem Sees.le_endMark (h : Sees tokens i ts) : i ≤ endMark tokens := by
  have total := h.add_length
  omega

theorem Sees.le_length (h : Sees tokens i ts) : i ≤ tokens.length :=
  Nat.le_trans h.le_endMark List.findIdx_le_length

theorem Sees.drop (h : Sees tokens i (ts ++ us)) : Sees tokens (i + ts.length) us := by
  obtain ⟨front, cut, rfl⟩ := h
  exact ⟨front ++ ts, by rw [cut, List.append_assoc], List.length_append⟩

theorem Sees.tail (h : Sees tokens i (t :: ts)) : Sees tokens (i + 1) ts := by
  have cut : Sees tokens i ([t] ++ ts) := h
  exact cut.drop

theorem Sees.ne_eof (h : Sees tokens i ts) (member : t ∈ ts) : t.kind ≠ .eof := by
  obtain ⟨front, cut, -⟩ := h
  exact kind_ne_eof (cut ▸ List.mem_append_right front member)

theorem Sees.drop_eq (h : Sees tokens i ts) : tokens.drop i = ts ++ beyond tokens := by
  obtain ⟨front, cut, rfl⟩ := h
  have whole := text_append_beyond tokens
  rw [cut, List.append_assoc] at whole
  calc tokens.drop front.length
    _ = (front ++ (ts ++ beyond tokens)).drop front.length := by rw [whole]
    _ = ts ++ beyond tokens := List.drop_left

theorem Sees.getElem? (h : Sees tokens i ts) : tokens[i]? = (ts ++ beyond tokens).head? := by
  rw [← List.head?_drop, h.drop_eq]

theorem Sees.kindAt (h : Sees tokens i ts) : kindAt tokens i = nextKind ts := by
  rw [Descent.kindAt, h.getElem?]
  cases ts with
  | nil => exact nextKind_beyond tokens
  | cons t ts => rfl

end Sight

/-- Run where it sees `ts`, in `depth` slurs, `m` gives `a`, leaves `us` and reports `ps`. A limit
above the number of tokens is no limit. -/
def Reads (tokens : List Token) (depth : Nat) (m : Machine α) (ts : List Token) (a : α)
    (us : List Token) (ps : List Problem) : Prop :=
  ∀ limit i qs events, tokens.length < limit → Sees tokens i ts → ∃ j more,
    m.run ⟨tokens, limit, i, depth, qs, events⟩ =
      some (a, ⟨tokens, limit, j, depth, qs ++ ps, events ++ more⟩) ∧
    Sees tokens j us ∧ ∀ e ∈ more, e.Sound tokens

namespace Reads

theorem pure (a : α) : Reads tokens depth (pure a) ts a ts [] := by
  intro limit i qs events _ sees
  exact ⟨i, [], by simp, sees, by simp⟩

theorem bind {m : Machine α} {f : α → Machine β} (first : Reads tokens depth m ts a us ps)
    (second : Reads tokens depth (f a) us b vs qs) :
    Reads tokens depth (m >>= f) ts b vs (ps ++ qs) := by
  intro limit i problems events enough sees
  obtain ⟨j, more, run, sees, sound⟩ := first limit i problems events enough sees
  obtain ⟨k, rest, run', sees', sound'⟩ :=
    second limit j (problems ++ ps) (events ++ more) enough sees
  refine ⟨k, more ++ rest, ?_, sees', ?_⟩
  · simp [run, run']
  · intro e member
    rcases List.mem_append.mp member with member | member
    · exact sound e member
    · exact sound' e member

/-- A first step that reports nothing. -/
theorem step {m : Machine α} {f : α → Machine β} (first : Reads tokens depth m ts a us [])
    (second : Reads tokens depth (f a) us b vs ps) : Reads tokens depth (m >>= f) ts b vs ps :=
  first.bind second

/-- A second step that reports nothing. -/
theorem last {m : Machine α} {f : α → Machine β} (first : Reads tokens depth m ts a us ps)
    (second : Reads tokens depth (f a) us b vs []) : Reads tokens depth (m >>= f) ts b vs ps := by
  simpa using first.bind second

/-- What is seen may be used. -/
theorem of_sees {m : Machine α} (h : ∀ i, Sees tokens i ts → Reads tokens depth m ts a us ps) :
    Reads tokens depth m ts a us ps := by
  intro limit i qs events enough sees
  exact h i sees limit i qs events enough sees

/-- A program may depend on the limit. -/
theorem of_limit {m : Nat → Machine α}
    (h : ∀ n, ts.length < n → Reads tokens depth (m n) ts a us ps) :
    Reads tokens depth (do m (← get).limit) ts a us ps := by
  intro limit i qs events enough sees
  have room : ts.length < limit := by
    have total := sees.add_length
    have inside : endMark tokens ≤ tokens.length := List.findIdx_le_length
    omega
  obtain ⟨j, more, run, after⟩ := h limit room limit i qs events enough sees
  exact ⟨j, more, by simp [run], after⟩

theorem peek : Reads tokens depth peek ts (nextKind ts) ts [] := by
  intro limit i qs events _ sees
  exact ⟨i, [], by simp [Descent.peek, sees.kindAt], sees, by simp⟩

theorem place (sees : Sees tokens i ts) : Reads tokens depth place ts i ts [] := by
  intro limit j qs events _ sees'
  obtain rfl : j = i := by
    have total := sees.add_length
    have total' := sees'.add_length
    omega
  exact ⟨j, [], by simp [Descent.place], sees', by simp⟩

theorem advance : Reads tokens depth advance (t :: ts) t ts [] := by
  intro limit i qs events _ sees
  have current : tokens[i]? = some t := sees.getElem?
  have inside : i < tokens.length := (List.getElem?_eq_some_iff.mp current).1
  refine ⟨i + 1, [], ?_, sees.tail, by simp⟩
  have last : min i (tokens.length - 1) = i := by omega
  simp [Descent.advance, last, current, sees.ne_eof List.mem_cons_self]

theorem atTune : Reads tokens depth atTune ts (ts.head?.any Token.opensTune) ts [] := by
  intro limit i qs events _ sees
  have same : (tokens[i]?).any Token.opensTune = ts.head?.any Token.opensTune := by
    rw [sees.getElem?]
    cases ts with
    | cons t ts => rfl
    | nil =>
      cases found : beyond tokens with
      | nil => rfl
      | cons t ts =>
        have mark := nextKind_beyond tokens
        rw [found, nextKind_cons] at mark
        simp [Token.opensTune, mark]
  exact ⟨i, [], by simp [Descent.atTune, same], sees, by simp⟩

theorem slurs : Reads tokens depth slurs ts depth ts [] := by
  intro limit i qs events _ sees
  exact ⟨i, [], by simp [Descent.slurs], sees, by simp⟩

theorem report (fault : Option Fault) (t : Token) :
    Reads tokens depth (report fault t) ts () ts (fault.toList.map (⟨·, t⟩)) := by
  intro limit i qs events _ sees
  exact ⟨i, [], by simp [Descent.report], sees, by simp⟩

/-- A fault that is reported on a condition. -/
theorem reportIf (c : Prop) [Decidable c] (fault : Fault) (t : Token) :
    Reads tokens depth (Descent.report (if c then some fault else none) t) ts () ts
      (if c then [⟨fault, t⟩] else []) := by
  split
  · exact report _ t
  · exact report none t

theorem log {e : Event} (sound : e.Sound tokens) : Reads tokens depth (log e) ts () ts [] := by
  intro limit i qs events _ sees
  exact ⟨i, [e], by simp [Descent.log], sees, by simpa using sound⟩

theorem inSlur {m : Machine α} (inner : Reads tokens (depth + 1) m ts a us ps) :
    Reads tokens depth (inSlur m) ts a us ps := by
  intro limit i qs events enough sees
  obtain ⟨j, more, run, after⟩ := inner limit i qs events enough sees
  exact ⟨j, more, by simp [Descent.inSlur, run], after⟩

theorem look {search : List Token → Nat → Nat → Option (α × Nat)}
    (found : ∀ n i, tokens.length < n → Sees tokens i ts →
      ∃ stop, search tokens n i = some (a, stop) ∧ stop ≤ tokens.length) :
    Reads tokens depth (look ahead search) ts a ts [] := by
  intro limit i qs events enough sees
  obtain ⟨stop, found, bound⟩ := found limit i enough sees
  refine ⟨i, [.look ahead stop], by simp [Descent.look, Descent.log, found], sees, ?_⟩
  simpa [Event.Sound] using bound

theorem turn {m : Machine α} (first : Reads tokens depth m ts a us ps)
    (shorter : us.length < ts.length) : Reads tokens depth (turn l m) ts a us ps := by
  refine of_sees fun i sees => step (place sees) (last first ?_)
  refine of_sees fun j sees' => step (place sees') (step (log ?_) (pure a))
  have start := sees.add_length
  have stop := sees'.add_length
  exact ⟨by omega, sees'.le_endMark⟩

theorem follows {p : Kind → Bool} (h : p (nextKind ts) = b) :
    Reads tokens depth (follows p) ts b ts [] :=
  h ▸ step peek (pure _)

theorem accept {p : Kind → Bool} {ends : List Kind} (ts : List Token) (stop : nextKind us ∈ ends)
    (fails : ends.all (!p ·) = true) :
    Reads tokens depth (accept p) (ts ++ us) (Token.accept p ts).1 ((Token.accept p ts).2 ++ us)
      [] := by
  refine step peek ?_
  cases ts with
  | nil =>
    rw [List.nil_append, fails_of_mem stop fails]
    exact pure none
  | cons t ts =>
    rw [List.cons_append, nextKind_cons, Token.accept]
    split
    · exact step advance (pure (some t))
    · exact pure none

end Reads

/-- The turns of a loop: as long as it goes on, what it repeats gives one thing more and takes at
least one token. -/
inductive Turns (tokens : List Token) (depth : Nat) (goes : Machine Bool) (m : Machine α) :
    List Token → List α → List Token → List Problem → Prop
  | nil : Reads tokens depth goes ts false ts [] → Turns tokens depth goes m ts [] ts []
  | cons : Reads tokens depth goes ts true ts [] → Reads tokens depth m ts a us ps →
      us.length < ts.length → Turns tokens depth goes m us as vs qs →
      Turns tokens depth goes m ts (a :: as) vs (ps ++ qs)

theorem Turns.repeatUpTo {goes : Machine Bool} {m : Machine α}
    (h : Turns tokens depth goes m ts as us ps) (enough : ts.length < n) :
    Reads tokens depth (repeatUpTo l goes m n) ts as us ps := by
  induction h generalizing n with
  | nil stops =>
    cases n with
    | zero => cases enough
    | succ n => exact .step stops (.pure [])
  | cons goes first shorter _ ih =>
    cases n with
    | zero => cases enough
    | succ n => exact .step goes (.bind (first.turn shorter) (.last (ih (by omega)) (.pure _)))

theorem Turns.repeated {goes : Machine Bool} {m : Machine α}
    (h : Turns tokens depth goes m ts as us ps) :
    Reads tokens depth (repeated l goes m) ts as us ps :=
  .of_limit fun _ enough => h.repeatUpTo enough

theorem Reads.acceptAll {p : Kind → Bool} {ends : List Kind} (ts : List Token)
    (stop : nextKind us ∈ ends) (fails : ends.all (!p ·) = true) :
    Reads tokens depth (acceptAll l p) (ts ++ us) (ts.takeWhile (p ·.kind))
      (ts.dropWhile (p ·.kind) ++ us) [] := by
  apply Turns.repeated
  induction ts with
  | nil => exact .nil (follows (fails_of_mem stop fails))
  | cons t ts ih =>
    rw [List.takeWhile_cons, List.dropWhile_cons]
    split
    next passes => exact .cons (follows passes) advance (by simp) ih
    next fails => exact .nil (follows (Bool.eq_false_iff.mpr fails))

end Tunebook.Descent
