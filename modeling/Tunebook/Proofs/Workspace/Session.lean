import Tunebook.Workspace

/-! Sessions: operations on a workspace, one after another. What is answered about a name depends on
the configuration in force and on the last text given under that name since it was last closed.
Other names, earlier texts and earlier configurations leave no trace. -/
namespace Tunebook.Workspace

/-- What can be done under one name. -/
inductive Call where
  | analyze (text : Text)
  | close
  | highlights
  | format
  | scale (operator : Operator) (a b : Position)
  | document

inductive Operation where
  | call (uri : String) (c : Call)
  | setConfig (config : Config)
  | config

inductive Answer where
  | diagnostics (list : List Diagnostic)
  | closed (wasOpen : Bool)
  | highlights (tokens : List Token)
  | formatted (result : Except Refusal Text)
  | scaled (result : Except Refusal Replacement)
  | document (result : Except Refusal Document)
  | config (config : Config)
  | done

def answer (w : Workspace) : Operation → Answer
  | .call uri (.analyze text) => .diagnostics ((w.analyze uri text).diagnostics uri)
  | .call uri .close => .closed (w.cache.remove uri).1
  | .call uri .highlights => .highlights (w.highlights uri)
  | .call uri .format => .formatted (w.formatted uri)
  | .call uri (.scale operator a b) => .scaled (w.scale uri operator a b)
  | .call uri .document => .document (w.document uri)
  | .setConfig _ => .done
  | .config => .config w.config

def after (w : Workspace) : Operation → Workspace
  | .call uri (.analyze text) => w.analyze uri text
  | .call uri .close => w.close uri
  | .setConfig config => w.setConfig config
  | _ => w

def run (w : Workspace) (operations : List Operation) : Workspace :=
  operations.foldl after w

/-- What is answered in turn. -/
def answers (w : Workspace) : List Operation → List Answer
  | [] => []
  | o :: os => w.answer o :: (w.after o).answers os

theorem length_answers (w : Workspace) (os : List Operation) :
    (w.answers os).length = os.length := by
  induction os generalizing w with
  | nil => rfl
  | cons o os ih => simp [answers, ih]

theorem answers_append (w : Workspace) (front back : List Operation) :
    w.answers (front ++ back) = w.answers front ++ (w.run front).answers back := by
  induction front generalizing w with
  | nil => rfl
  | cons o front ih => simp [answers, run, ih]

theorem answers_getElem? (w : Workspace) (front back : List Operation) (o : Operation) :
    (w.answers (front ++ o :: back))[front.length]? = some ((w.run front).answer o) := by
  rw [answers_append, List.getElem?_append_right (Nat.le_of_eq (length_answers w front))]
  simp [length_answers, answers]

/-! What the operations so far say about one name and about the configuration, without a
workspace. -/

/-- The text under a name after an operation, if there was `last` before it. -/
def textAfter (uri : String) (last : Option Text) : Operation → Option Text
  | .call name (.analyze text) => if uri = name then some text else last
  | .call name .close => if uri = name then none else last
  | _ => last

/-- The last text given under a name, if it was not closed since. -/
def lastText? (uri : String) (past : List Operation) : Option Text :=
  past.foldl (textAfter uri) none

def configAfter (config : Config) : Operation → Config
  | .setConfig config => config
  | _ => config

/-- The last configuration, which is `config` if none was set. -/
def lastConfig (config : Config) (past : List Operation) : Config :=
  past.foldl configAfter config

/-- What a workspace answers that was only ever given the configuration and the last text, if there
is one. Nothing is known of other names. -/
def afresh (config : Config) (uri : String) : Option Text → Call → Answer
  | _, .analyze text => (empty config).answer (.call uri (.analyze text))
  | some text, c => ((empty config).analyze uri text).answer (.call uri c)
  | none, .close => .closed false
  | none, .highlights => .highlights []
  | none, .format => .formatted (.error (.unknownDocument uri))
  | none, .scale .. => .scaled (.error (.unknownDocument uri))
  | none, .document => .document (.error (.unknownDocument uri))

/-- The workspace holds the configuration twice, and under each name the analysis of its text. -/
structure Holds (w : Workspace) (config : Config) (texts : String → Option Text) : Prop where
  inForce : w.config = config
  cached : w.cache.source = config.source
  found : ∀ uri, w.get? uri = (texts uri).map (.analyze config.source)

variable {config : Config} {texts : String → Option Text}

theorem holds_empty (config : Config) : (empty config).Holds config fun _ => none :=
  ⟨rfl, rfl, fun _ => rfl⟩

theorem Holds.step {w : Workspace} (holds : w.Holds config texts) (o : Operation) :
    (w.after o).Holds (configAfter config o) fun uri => textAfter uri (texts uri) o := by
  obtain ⟨inForce, cached, found⟩ := holds
  cases o with
  | call name c =>
    cases c with
    | analyze text =>
      refine ⟨inForce, cached, fun uri => ?_⟩
      have here := w.get?_analyze name uri text
      rw [cached] at here
      by_cases same : uri = name
      · simpa [after, textAfter, configAfter, same] using here
      · simpa [after, textAfter, configAfter, same, found] using here
    | close =>
      refine ⟨inForce, cached, fun uri => ?_⟩
      have here := w.get?_close name uri
      by_cases same : uri = name
      · simpa [after, textAfter, configAfter, same] using here
      · simpa [after, textAfter, configAfter, same, found] using here
    | highlights | format | scale | document => exact ⟨inForce, cached, found⟩
  | setConfig config =>
    -- Each document is analysed anew from the text that its analysis holds.
    refine ⟨rfl, rfl, fun uri => ?_⟩
    have here := w.get?_setConfig config uri
    rw [found, Option.map_map] at here
    exact here
  | config => exact ⟨inForce, cached, found⟩

theorem holds_run (config : Config) (past : List Operation) :
    ((empty config).run past).Holds (lastConfig config past) fun uri => lastText? uri past := by
  suffices steps : ∀ (w : Workspace) (config : Config) (texts : String → Option Text),
      w.Holds config texts → (w.run past).Holds (lastConfig config past)
        fun uri => past.foldl (textAfter uri) (texts uri) from
    steps _ config _ (holds_empty config)
  induction past with
  | nil => exact fun _ _ _ holds => holds
  | cons o past ih => exact fun _ _ _ holds => ih _ _ _ (holds.step o)

theorem answer_analyze (w : Workspace) (uri : String) (text : Text) :
    w.answer (.call uri (.analyze text)) =
      .diagnostics (Document.analyze w.cache.source text).diagnostics := by
  simp [answer, diagnostics, get?_analyze]

/-- What is answered under a name depends on the configuration and on what is open under it. -/
theorem answer_congr {w v : Workspace} (config : w.config = v.config)
    (source : w.cache.source = v.cache.source) (found : w.get? uri = v.get? uri) (c : Call) :
    w.answer (.call uri c) = v.answer (.call uri c) := by
  have document : w.document uri = v.document uri := by rw [Workspace.document, found]; rfl
  cases c with
  | analyze text => rw [answer_analyze, answer_analyze, source]
  | close =>
    have wasOpen : (w.get? uri).isSome = (v.get? uri).isSome := by rw [found]
    exact congrArg Answer.closed wasOpen
  | highlights => simp [answer, highlights, found]
  | format => simp [answer, formatted, document]
  | scale operator a b => simp [answer, scale, document, config]
  | document => simp [answer, document]

theorem Holds.answer {w : Workspace} (holds : w.Holds config texts) (uri : String) (c : Call) :
    w.answer (.call uri c) = afresh config uri (texts uri) c := by
  obtain ⟨inForce, cached, found⟩ := holds
  have here := found uri
  cases last : texts uri with
  | none =>
    have closed : w.get? uri = (empty config).get? uri := by rw [here, last]; rfl
    rw [answer_congr inForce cached closed c]
    cases c <;> rfl
  | some text =>
    have opened : w.get? uri = ((empty config).analyze uri text).get? uri := by
      rw [here, last, get?_analyze, if_pos rfl]; rfl
    rw [answer_congr (v := (empty config).analyze uri text) inForce cached opened c]
    cases c with
    | analyze next => rw [afresh, answer_analyze, answer_analyze]; rfl
    | close | highlights | format | scale | document => rfl

/-- Every answer of a session is that of a fresh workspace under the configuration in force, which
was given nothing but the last text under the name, and the analysis of that text is what is open
under the name. -/
theorem answers_afresh (config : Config) (front back : List Operation) (uri : String) (c : Call) :
    ((empty config).answers (front ++ .call uri c :: back))[front.length]? =
        some (afresh (lastConfig config front) uri (lastText? uri front) c) ∧
      ((empty config).run front).get? uri =
        (lastText? uri front).map (.analyze (lastConfig config front).source) := by
  have holds := holds_run config front
  constructor
  · rw [answers_getElem?, holds.answer]
  · exact holds.found uri

end Tunebook.Workspace
