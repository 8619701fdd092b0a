import Tunebook.Proofs.Workspace.Session
import Tunebook.Server

/-! Diagnostics as editors have them. Whatever is asked in whatever order, what was published last
for a name is what the cache holds for it: the diagnostics of its text with the version that came
with the text, or nothing at all once it is closed. -/
namespace Tunebook.Server

/-- A session of the server: the workspace, and everything sent so far. -/
structure Session where
  workspace : Workspace
  sent : List Message

namespace Session

def new (config : Config) : Session :=
  ⟨.empty config, []⟩

def step (s : Session) (r : Request) : Session :=
  let o := handle s.workspace r
  ⟨o.workspace, s.sent ++ o.sent⟩

def run (s : Session) (rs : List Request) : Session :=
  rs.foldl step s

end Session

/-- What an editor is told about one name. -/
structure Publication where
  reports : List Report
  version : Option Int
  deriving DecidableEq, Repr

/-- What a message publishes under a name. -/
def publication? (uri : String) : Message → Option Publication
  | .publish name reports version => if uri = name then some ⟨reports, version⟩ else none
  | _ => none

def lastPublication? (uri : String) (sent : List Message) : Option Publication :=
  (sent.filterMap (publication? uri)).getLast?

/-- The version and the text under a name after a request, if there was `last` before it. -/
def installedAfter (uri : String) (last : Option (Int × Text)) : Request → Option (Int × Text)
  | .opened name version text => if uri = name then some (version, text) else last
  | .changed name version texts =>
    if uri = name then (texts.getLast?.map fun text => (version, text)).or last else last
  | .closed name => if uri = name then none else last
  | _ => last

/-- The version and the text that requests leave under a name. -/
def lastInstalled? (uri : String) (rs : List Request) : Option (Int × Text) :=
  rs.foldl (installedAfter uri) none

/-- The configuration after a request. Options that do not load leave it. -/
def configAfter (config : Config) : Request → Config
  | .start (some options) =>
    (Config.load [.json options.compact.toList]).toOption.getD config
  | _ => config

/-- The configuration that requests leave. -/
def lastConfig (config : Config) (rs : List Request) : Config :=
  rs.foldl configAfter config

def Request.isStart : Request → Bool
  | start _ => true
  | _ => false

/-- Brings a text of the editor's. -/
def Request.isEdit : Request → Bool
  | opened .. | changed .. => true
  | _ => false

/-- Asks, and changes nothing. -/
def Request.isQuery : Request → Bool
  | started | shutdown | highlights _ | formatting _ | completion .. | rhythm .. => true
  | _ => false

/-- The editor starts before it opens or changes a document, if it does at all. -/
def StartsFirst (rs : List Request) : Prop :=
  rs.Pairwise fun earlier later => earlier.isEdit → ¬later.isStart

instance : DecidablePred StartsFirst :=
  fun rs => inferInstanceAs (Decidable (rs.Pairwise _))

theorem installedAfter_none (uri : String) (noEdit : ¬r.isEdit) :
    installedAfter uri none r = none := by
  cases r with
  | opened | changed => exact absurd rfl noEdit
  | closed name => simp [installedAfter]
  | start | started | shutdown | highlights | formatting | completion | rhythm => rfl

theorem lastPublication?_append (uri : String) (sent more : List Message) :
    lastPublication? uri (sent ++ more) =
      (lastPublication? uri more).or (lastPublication? uri sent) := by
  simp [lastPublication?, List.filterMap_append, List.getLast?_append]

theorem lastPublication?_publish (uri name : String) (sent : List Message) :
    lastPublication? uri (sent ++ [.publish name reports version]) =
      if uri = name then some ⟨reports, version⟩ else lastPublication? uri sent := by
  rw [lastPublication?_append]
  by_cases same : uri = name <;> simp [lastPublication?, publication?, same]

theorem lastPublication?_of_silent (silent : ∀ m ∈ sent, publication? uri m = none) :
    lastPublication? uri sent = none := by
  rw [lastPublication?, List.filterMap_eq_nil_iff.mpr silent]
  rfl

/-! What one request does. -/

/-- Nothing is published, and the workspace stays. -/
def Outcome.IsQuiet (o : Outcome) (w : Workspace) : Prop :=
  o.workspace = w ∧ ∀ m ∈ o.sent, ∀ uri, publication? uri m = none

theorem isQuiet_reply (w : Workspace) (reply : Reply) : Outcome.IsQuiet ⟨reply, [], w⟩ w :=
  ⟨rfl, by simp⟩

theorem isQuiet_offer (w : Workspace) (result : Except Refusal TextEdit) :
    (offer w result).IsQuiet w := by
  cases result with
  | ok edit => exact isQuiet_reply w _
  | error refusal => exact ⟨rfl, by simp [offer, publication?]⟩

theorem isQuiet_query (w : Workspace) (query : r.isQuery) : (handle w r).IsQuiet w := by
  cases r with
  | started => exact ⟨rfl, by simp [handle, publication?]⟩
  | shutdown => exact isQuiet_reply w _
  | highlights uri =>
    simp only [handle]
    split <;> exact isQuiet_reply w _
  | formatting uri =>
    simp only [handle]
    split
    · exact isQuiet_offer w _
    · exact isQuiet_reply w _
  | completion uri position =>
    simp only [handle]
    split
    · split <;> exact isQuiet_reply w _
    · exact isQuiet_reply w _
  | rhythm operator uri a b => exact isQuiet_offer w _
  | start | opened | changed | closed => contradiction

theorem holds_configure {w : Workspace} (holds : w.Holds config texts) (options : Option Json) :
    (configure w options).Holds (configAfter config (.start options)) texts := by
  cases options with
  | none => exact holds
  | some options =>
    simp only [configure, configAfter]
    split
    · next next loaded =>
      rw [loaded]
      exact holds.step (.setConfig next)
    · next loaded =>
      rw [loaded]
      exact holds

/-- What an editor has to know of a name with this version and text. -/
def due (config : Config) : Option (Int × Text) → Publication
  | none => ⟨[], none⟩
  | some (version, text) =>
    ⟨(Document.analyze config.source text).diagnostics.map .ofDiagnostic, some version⟩

theorem source_of_mem_reports
    (member : report ∈ (Document.analyze source text).diagnostics.map Report.ofDiagnostic) :
    report.source = source := by
  obtain ⟨d, listed, rfl⟩ := List.mem_map.mp member
  obtain ⟨p, -, rfl⟩ := List.mem_map.mp listed
  rfl

/-- The cache holds what is installed, and what was published last is what is due. -/
structure InStep (s : Session) (config : Config) (installed : String → Option (Int × Text)) :
    Prop where
  holds : s.workspace.Holds config fun uri => (installed uri).map Prod.snd
  published : ∀ uri p, lastPublication? uri s.sent = some p → p = due config (installed uri)
  told : ∀ uri, (installed uri).isSome → (lastPublication? uri s.sent).isSome

namespace InStep

variable {s : Session} {config : Config} {installed : String → Option (Int × Text)}

theorem new (config : Config) : InStep (.new config) config fun _ => none where
  holds := Workspace.holds_empty config
  published _ _ last := nomatch last
  told _ opened := nomatch opened

theorem quiet (kept : InStep s config installed)
    (quiet : (handle s.workspace r).IsQuiet s.workspace) :
    InStep (s.step r) config installed := by
  obtain ⟨same, silent⟩ := quiet
  have unsaid : ∀ uri, lastPublication? uri (s.step r).sent = lastPublication? uri s.sent := by
    intro uri
    have nothing := lastPublication?_of_silent fun m member => silent m member uri
    rw [Session.step, lastPublication?_append, nothing, Option.none_or]
  constructor
  case holds =>
    rw [Session.step, same]
    exact kept.holds
  case published =>
    intro uri p last
    rw [unsaid] at last
    exact kept.published uri p last
  case told =>
    intro uri opened
    rw [unsaid]
    exact kept.told uri opened

/-- Under another configuration other diagnostics would be due, but nothing is installed yet. -/
theorem start (kept : InStep s config installed) (options : Option Json)
    (nothing : ∀ uri, installed uri = none) :
    InStep (s.step (.start options)) (configAfter config (.start options)) installed := by
  have unsaid : (s.step (.start options)).sent = s.sent := List.append_nil _
  constructor
  case holds => exact holds_configure kept.holds options
  case published =>
    intro uri p last
    rw [unsaid] at last
    rw [kept.published uri p last, nothing uri]
    rfl
  case told =>
    rw [unsaid]
    exact kept.told

/-- One name gets another version and text, or none, and what is due for it is published. -/
theorem publish (kept : InStep s config installed) (name : String) {next : Option (Int × Text)}
    (holds : w.Holds config fun uri =>
      if uri = name then next.map Prod.snd else (installed uri).map Prod.snd)
    (paid : ⟨reports, version⟩ = due config next) :
    InStep ⟨w, s.sent ++ [.publish name reports version]⟩ config fun uri =>
      if uri = name then next else installed uri := by
  constructor
  case holds => simpa only [apply_ite] using holds
  case published =>
    intro uri p last
    rw [lastPublication?_publish] at last
    split at last
    next same => rw [if_pos same, ← paid, Option.some.inj last]
    next other =>
      rw [if_neg other]
      exact kept.published uri p last
  case told =>
    intro uri opened
    rw [lastPublication?_publish]
    split
    next => rfl
    next other =>
      rw [if_neg other] at opened
      exact kept.told uri opened

theorem install (kept : InStep s config installed)
    (installs : handle s.workspace r = Server.install s.workspace name version text) :
    InStep (s.step r) config fun uri =>
      if uri = name then some (version, text) else installed uri := by
  have holds := kept.holds.step (.call name (.analyze text))
  have found : (s.workspace.analyze name text).diagnostics name =
      (Document.analyze config.source text).diagnostics := by
    rw [Workspace.diagnostics, Workspace.get?_analyze, if_pos rfl, kept.holds.cached]
    rfl
  rw [Session.step, installs]
  exact kept.publish name holds (by rw [found]; rfl)

theorem close (kept : InStep s config installed) (name : String) :
    InStep (s.step (.closed name)) config fun uri => if uri = name then none else installed uri :=
  kept.publish name (kept.holds.step (.call name .close)) rfl

/-- The invariant over one request of whatever kind. -/
theorem step (kept : InStep s config installed) (r : Request)
    (early : r.isStart → ∀ uri, installed uri = none) :
    InStep (s.step r) (configAfter config r) fun uri => installedAfter uri (installed uri) r := by
  cases r with
  | start options => exact kept.start options (early rfl)
  | opened name version text => exact kept.install rfl
  | changed name version texts =>
    cases last : texts.getLast? with
    | none =>
      have unchanged : (handle s.workspace (.changed name version texts)).IsQuiet s.workspace := by
        simpa only [handle, last] using isQuiet_reply s.workspace .nothing
      simpa [configAfter, installedAfter, last] using kept.quiet unchanged
    | some text =>
      have installs : handle s.workspace (.changed name version texts) =
          Server.install s.workspace name version text := by
        simp only [handle, last]
      simpa [configAfter, installedAfter, last] using kept.install installs
  | closed name => exact kept.close name
  | started | shutdown | highlights | formatting | completion | rhythm =>
    exact kept.quiet (isQuiet_query s.workspace rfl)

theorem run (config : Config) (rs : List Request) (first : StartsFirst rs) :
    InStep ((Session.new config).run rs) (lastConfig config rs) fun uri =>
      lastInstalled? uri rs := by
  suffices steps : ∀ s config installed, InStep s config installed →
      ((∃ r ∈ rs, r.isStart) → ∀ uri, installed uri = none) →
      InStep (s.run rs) (rs.foldl configAfter config) fun uri =>
        rs.foldl (installedAfter uri) (installed uri) from
    steps _ config _ (new config) fun _ _ => rfl
  induction rs with
  | nil => exact fun _ _ _ kept _ => kept
  | cons r rs ih =>
    intro s config installed kept early
    obtain ⟨ahead, first⟩ := List.pairwise_cons.mp first
    refine ih first _ _ _ (kept.step r fun starts => early ⟨r, List.mem_cons_self, starts⟩) ?_
    rintro ⟨later, member, starts⟩ uri
    have empty := early ⟨later, List.mem_cons_of_mem r member, starts⟩ uri
    have noEdit : ¬r.isEdit := fun edit => ahead later member edit starts
    rw [empty]
    exact installedAfter_none uri noEdit

end InStep

/-- At any point of a session what was published last for a name is what the cache holds for it now:
its diagnostics as the editor takes them, under the source of the configuration in force and with the
version of the opening or change that brought its text, or nothing and no version if it is closed.
Queries publish nothing and leave the workspace as it is. -/
theorem published_in_step (config : Config) (rs : List Request) (first : StartsFirst rs) :
    let s := (Session.new config).run rs
    s.workspace.config = lastConfig config rs ∧
    (∀ uri publication, lastPublication? uri s.sent = some publication →
      match s.workspace.get? uri with
      | some d =>
        publication.reports = d.diagnostics.map .ofDiagnostic ∧
          (∀ report ∈ publication.reports, report.source = s.workspace.config.source) ∧
          ∃ version, publication.version = some version ∧
            lastInstalled? uri rs = some (version, d.text)
      | none => publication = ⟨[], none⟩ ∧ lastInstalled? uri rs = none) ∧
    (∀ uri, (s.workspace.get? uri).isSome → (lastPublication? uri s.sent).isSome) ∧
    ∀ r, r.isQuery → (handle s.workspace r).IsQuiet s.workspace := by
  intro s
  have kept : InStep s (lastConfig config rs) fun uri => lastInstalled? uri rs :=
    .run config rs first
  refine ⟨kept.holds.inForce, ?_, ?_, fun r query => isQuiet_query s.workspace query⟩
  · intro uri publication last
    have paid := kept.published uri publication last
    have found := kept.holds.found uri
    rw [kept.holds.inForce, paid]
    cases installed : lastInstalled? uri rs with
    | none =>
      rw [installed] at found
      rw [found]
      exact ⟨rfl, rfl⟩
    | some entry =>
      obtain ⟨version, text⟩ := entry
      rw [installed] at found
      rw [found]
      exact ⟨rfl, fun _ member => source_of_mem_reports member, version, rfl, rfl⟩
  · intro uri opened
    apply kept.told uri
    rw [kept.holds.found uri] at opened
    simpa using opened

/-- Options that do not load and a closing come before the opening, a change without texts and a
formatting that is refused after the last change. -/
theorem published_in_step_changed :
    let rs : List Request :=
      [.start (some (.string "none")), .closed "a", .opened "a" 1 "X:1\nK:C\n[C\n".toList,
        .changed "a" 2 ["X:1\n".toList, "X:1\nK:C\nC]\n".toList], .changed "a" 3 [],
        .formatting "a"]
    let s := (Session.new .default).run rs
    let report : Report :=
      ⟨⟨2, 1⟩, ⟨2, 2⟩, .error, "unmatched-bracket", "abc", "\"]\" closes nothing"⟩
    StartsFirst rs ∧ lastPublication? "a" s.sent = some ⟨[report], some 2⟩ ∧
      ∃ d, s.workspace.get? "a" = some d ∧ d.diagnostics.map Report.ofDiagnostic = [report] := by
  intro rs s report
  have first : StartsFirst rs := by decide
  have last : lastPublication? "a" s.sent = some ⟨[report], some 2⟩ := by decide +kernel
  refine ⟨first, last, ?_⟩
  have agrees := (published_in_step .default rs first).2.1 "a" _ last
  cases found : s.workspace.get? "a" with
  | none =>
    rw [found] at agrees
    exact nomatch agrees.1
  | some d =>
    rw [found] at agrees
    exact ⟨d, rfl, agrees.1.symm⟩

end Tunebook.Server
