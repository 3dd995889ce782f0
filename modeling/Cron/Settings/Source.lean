import Cron.Data.Json
import Cron.Data.Toml
import Cron.Data.Utf8
import Cron.Data.Yaml.Document
import Cron.Settings.Basic
import Cron.Settings.Environment
import Cron.Settings.FilePath

-- Where settings come from: a file with a YAML, JSON or TOML document, and environment variables,
-- which override it. The entries of a file stand at the top of its document, or in a section of it.

namespace Cron

inductive Stored
  | file (octets : List UInt8)
  | directory
deriving DecidableEq, Repr

abbrev Files : Type := FilePath → Option Stored

inductive DocumentFormat
  | yaml
  | json
  | toml
deriving DecidableEq, Repr

namespace DocumentFormat

def ofSuffix? (suffix : Codes) : Option DocumentFormat :=
  if suffix = ".yaml" ∨ suffix = ".yml" then some yaml
  else if suffix = ".json" then some json
  else if suffix = ".toml" then some toml
  else none

-- Reads a document; a YAML document whose value is blank is an empty mapping.
def read (format : DocumentFormat) (s : List Char) : Except Unread Value :=
  match format with
  | yaml => (Yaml.read s).map fun v => if v.isBlank then .mapping [] else v
  | json => Unread.expect (Json.read? s)
  | toml => Unread.expect (Toml.read? s)

end DocumentFormat

inductive SourceError
  | missing (path : FilePath)
  | unreadable (path : FilePath)
  | unsupported (suffix : Codes)
  | noMapping (path : FilePath)
  | noSection (path : FilePath)
  | fault (f : Fault)
deriving DecidableEq, Repr

def SourceError.message : SourceError → Codes
  | .missing path => "Configuration file not found: " ++ path.text
  | .unreadable path => "Failed to load config " ++ path.text
  | .unsupported suffix => "Unsupported file format: " ++ suffix
  | .noMapping path => "Configuration in " ++ path.text ++ " must be a mapping"
  | .noSection path => "'cronplan' section in " ++ path.text ++ " must be a mapping"
  | .fault f => f.message

namespace Source

def sectionKey : String := "cronplan"

-- The names of the files that are looked for, the first before the others.
def standardNames : List String :=
  ["cronplan.yaml", "cronplan.yml", "cronplan.toml", "cronplan.json"]

def text? : Stored → Option (List Char)
  | .file octets => (Utf8.decode? octets).map Utf8.unifyLines
  | .directory => none

def entriesOf (path : FilePath) : Value → Except SourceError Entries
  | .mapping entries =>
    match entries.find? fun (key, _) => key == (sectionKey : Value) with
    | none => .ok entries
    | some (_, .mapping inner) => .ok inner
    | some _ => .error (.noSection path)
  | _ => .error (.noMapping path)

-- The entries of the file under a path. One that is not there has none, unless it is required.
def fileEntries (files : Files) (required : Bool) (path : FilePath) :
    Except SourceError Entries :=
  match files path with
  | none => if required then .error (.missing path) else .ok []
  | some stored =>
    match text? stored with
    | none => .error (.unreadable path)
    | some s =>
      match DocumentFormat.ofSuffix? path.suffix with
      | none => .error (.unsupported path.suffix)
      | some format =>
        match format.read s with
        | .error .malformed => .error (.unreadable path)
        | .error (.fault f) => .error (.fault f)
        | .ok v => entriesOf path v

def standardPaths (directory : FilePath) : List FilePath :=
  standardNames.map fun name : String => directory.child name

def findFile? (files : Files) (directory : FilePath) : Option FilePath :=
  (standardPaths directory).find? fun path =>
    match files path with
    | some (.file _) => true
    | _ => false

def candidates (directory : FilePath) (named : Option Codes) : List FilePath :=
  match named with
  | some text => [FilePath.ofText text]
  | none => standardPaths directory

-- The entries of the file that is named or, where none is, of the standard file in the directory.
def namedEntries (files : Files) (directory : FilePath) (named : Option Codes) :
    Except SourceError Entries :=
  match named with
  | some text => fileEntries files true (FilePath.ofText text)
  | none =>
    match findFile? files directory with
    | some path => fileEntries files false path
    | none => .ok []

end Source

inductive LoadError
  | source (error : SourceError)
  | settings (error : SettingsError)

def LoadError.message : LoadError → Codes
  | .source error => error.message
  | .settings error => error.message

namespace Settings

-- The entries of the environment that are settings; variables of other names are passed over.
def environmentEntries (environment : Environment) : Entries :=
  environment.entries Environment.standardPrefix fun key =>
    key.string?.any Setting.names.contains

-- The name of the file that is asked for: the one given, or else one that the environment names.
def namedFile? (named : Option Codes) (useEnvironment : Bool) (environment : Environment) :
    Option Codes :=
  named <|> if useEnvironment then environment.namedFile? else none

-- Loads settings: from a file, and from the environment if it is to be used. The environment
-- overrides the file.
def load (files : Files) (directory : FilePath) (named : Option Codes) (useEnvironment : Bool)
    (environment : Environment) : Except LoadError Settings := do
  let file := namedFile? named useEnvironment environment
  let stored ← (Source.namedEntries files directory file).mapError LoadError.source
  let given := if useEnvironment then environmentEntries environment else []
  (ofEntries (Value.putAll stored given)).mapError LoadError.settings

end Settings

end Cron
