import Cron.Calendar.Iso
import Cron.Command.Request
import Cron.Preset
import Cron.Schedule.Parts
import Cron.Settings.Source
import Cron.Text.Style

-- What a command line reports. Of several mistakes, the first in this order is reported: the format
-- of the answer, the settings, the schedule, the instant to begin at. A fault that is no mistake of
-- the user leaves no report.

namespace Cron.Command

structure Surroundings where
  clock : Instant
  files : Files
  directory : FilePath
  environment : Environment

structure Report where
  exitCode : Nat
  output : String
  complaints : List String
deriving DecidableEq, Repr

inductive Obstacle
  | complaint (text : Codes)
  | fault (f : Fault)
deriving DecidableEq, Repr

abbrev Answer (α : Type) : Type := Except Obstacle α

def mistake (message : Codes) : Obstacle := .complaint ("Error: " ++ message)

-- A text that cannot be read is a mistake, unless there is no room to read it.
def refusal (e : ReadError) : Obstacle :=
  if e.reason = .tooDeep then .fault .tooDeep else mistake e.message

def lines (texts : List String) : String := String.join (texts.map (· ++ "\n"))

def leftAligned (width : Nat) (s : String) : String := s.pushn ' ' (width - s.length)

def rightAligned (width : Nat) (s : String) : String := "".pushn ' ' (width - s.length) ++ s

def wantsJson (format : Codes) : Answer Bool :=
  if format = "json" then .ok true
  else if format = "text" then .ok false
  else .error (mistake ("Unsupported format: " ++ format))

def settings (w : Surroundings) (subject : Subject) : Answer Settings :=
  match Settings.load w.files w.directory subject.config true w.environment with
  | .ok s => .ok s
  | .error (.settings (.fault f)) | .error (.source (.fault f)) => .error (.fault f)
  | .error e => .error (mistake e.message)

def dialectName (s : Settings) (subject : Subject) : Codes :=
  match subject.dialect with
  | some name => if name.isEmpty then s.dialect else name
  | none => s.dialect

def dialect (name : Codes) : Answer Dialect :=
  match Dialect.ofName? name with
  | some d => .ok d
  | none => .error (mistake (Dialect.unknown name))

def schedule (w : Surroundings) (s : Settings) (subject : Subject) : Answer Schedule := do
  let d ← dialect (dialectName s subject)
  (Schedule.read ⟨d, w.clock.year, s.yearHorizon, defaultRoom⟩ subject.expression).mapError refusal

-- The instant that a search begins at: the current one, unless another is given.
def startOf (w : Surroundings) (after : Option Codes) : Answer Instant :=
  match after with
  | none => .ok w.clock
  | some text =>
    if text.isEmpty then .ok w.clock
    else
      match Iso.read? text with
      | some t => .ok t
      | none => .error (mistake ("Invalid --after time: " ++ text))

def document (v : Value) : Answer String :=
  if v.isShowable then .ok (lines [Json.text v]) else .error (.fault .tooManyDigits)

def next (w : Surroundings) (subject : Subject) (format : Codes) (after : Option Codes)
    (count : Nat) : Answer String := do
  let json ← wantsJson format
  let s ← schedule w (← settings w subject) subject
  let start ← startOf w after
  let found ← (s.nextN count start).mapError Obstacle.fault
  if json then
    document (.mapping [("expression", .text s.cron), ("after", .text start.iso),
      ("triggers", .list (found.map fun t => .text t.iso))])
  else if found.isEmpty then return lines ["Never"]
  else return lines (found.map (·.plain))

def describe (w : Surroundings) (subject : Subject) (format : Codes) (newlines : Bool) :
    Answer String := do
  let json ← wantsJson format
  let s ← schedule w (← settings w subject) subject
  if json then
    document (.mapping [("expression", .text s.cron),
      ("dialect", .text s.layout.dialect.name), ("description", .text (s.human false))])
  else
    let phrase := s.human newlines
    return lines [s.cron, if phrase.isEmpty then "every minute" else phrase]

def validate (w : Surroundings) (subject : Subject) : Answer String := do
  let own ← settings w subject
  let d ← dialect (dialectName own subject)
  let complaints ← (Schedule.complaints ⟨d, w.clock.year, defaultHorizon, defaultRoom⟩
    subject.expression).mapError refusal
  match complaints with
  | [] =>
    let s ← schedule w own subject
    return lines ["Valid: " ++ s.cron]
  | _ => throw (.complaint (String.intercalate "\n" (complaints.map ("Invalid: " ++ ·))))

def descriptionValue (d : Description) : Value := .mapping [
  ("id", .integer d.id), ("kind", .text d.kind.name), ("field_id", .integer d.column.id),
  ("field_name", .text d.column.name), ("lower", .integer d.domain.lower),
  ("upper", .integer d.domain.upper), ("value", .integer d.value), ("text", .text d.text),
  ("description", .text d.phrase), ("parent_id", d.parent.elim .null .integer),
  ("parent_kind", .text d.parentKind), ("relation", d.relation.elim .null fun name => .text name)]

def partRow (id column kind text parent relation : String) : String :=
  String.intercalate "  " [rightAligned 4 id,
    String.intercalate " " [leftAligned 13 column, leftAligned 10 kind, leftAligned 12 text,
      rightAligned 6 parent],
    relation]

def descriptionRow (d : Description) : String :=
  partRow (toString d.id) d.column.name d.kind.name d.text (d.parent.elim "None" toString)
    (d.relation.getD "None")

def parts (w : Surroundings) (subject : Subject) (format : Codes) : Answer String := do
  let json ← wantsJson format
  let s ← schedule w (← settings w subject) subject
  let found := s.descriptions
  if json then document (.list (found.map descriptionValue))
  else
    let header := partRow "ID" "FIELD" "KIND" "TEXT" "PARENT" "RELATION"
    return lines (header :: found.map descriptionRow)

def presetTable (format : Codes) : Answer String := do
  if ← wantsJson format then
    document (.mapping (presets.map fun (name, text) => ((name : Value), (text : Value))))
  else
    let width := (presets.map (·.1.length)).foldl max 0
    return lines (presets.map fun (name, text) => leftAligned width name ++ "  " ++ text)

def guide : String := lines [
  "Usage: COMMAND [OPTIONS] [EXPRESSION]",
  "Commands: " ++ String.intercalate ", " (Name.all.map (·.text))]

def answer (w : Surroundings) : Request → Answer String
  | .next subject format after count => next w subject format after count
  | .describe subject format newlines => describe w subject format newlines
  | .validate subject => validate w subject
  | .parts subject format => parts w subject format
  | .presets format => presetTable format
  | .help => .ok guide

def neededPaths (directory : FilePath) (environment : Environment) (args : List Codes) :
    List FilePath :=
  match Request.read args with
  | .ok request =>
    Source.candidates directory (Settings.namedFile? request.config? true environment)
  | .error _ => []

-- A complaint as it is printed: without styles, and with halves of surrogate pairs escaped.
def printed (complaint : Codes) : String := complaint.unstyled.escaped

-- The report on a command line. A refused one ends with 2, a mistake with 1.
def report (w : Surroundings) (args : List Codes) : Except Fault Report :=
  match Request.read args with
  | .error misuse => .ok ⟨2, "", [printed misuse.message]⟩
  | .ok request =>
    match answer w request with
    | .ok output => .ok ⟨0, output, []⟩
    | .error (.complaint text) => .ok ⟨1, "", [printed text]⟩
    | .error (.fault f) => .error f

end Cron.Command
