import Cron.Data.Value
import Cron.Layout
import Cron.Number.Literal
import Cron.Number.Seconds
import Cron.Scheduler.Basic

-- The settings: what they are without any input, how entries of a document change them, and which
-- of the results are accepted. All faults of a kind are reported together: first what is no setting
-- or has no fitting value, and only if there is none of those, what is out of its range.

namespace Cron

inductive Setting
  | dialect
  | yearHorizon
  | missedWindow
  | smallestInterval
  | pollInterval
  | startDelay
  | logLevel
deriving DecidableEq, Repr

namespace Setting

def all : List Setting :=
  [dialect, yearHorizon, missedWindow, smallestInterval, pollInterval, startDelay, logLevel]

def name : Setting → String
  | dialect => "dialect"
  | yearHorizon => "year_horizon"
  | missedWindow => "missed_window_seconds"
  | smallestInterval => "smallest_interval_seconds"
  | pollInterval => "poll_interval_seconds"
  | startDelay => "start_delay_seconds"
  | logLevel => "log_level"

def ofName? (text : String) : Option Setting := all.find? (·.name == text)

def ofKey? : Value → Option Setting
  | .text s => s.string?.bind ofName?
  | _ => none

def names : List String := all.map name

end Setting

def logLevels : List String := ["DEBUG", "INFO", "WARNING", "ERROR", "CRITICAL"]

def isLogLevel (text : Codes) : Bool :=
  text.chars?.any fun s => logLevels.contains (String.ofList (s.map capital))

structure Settings where
  dialect : Codes
  yearHorizon : Int
  missedWindow : Double
  smallestInterval : Double
  pollInterval : Double
  startDelay : Double
  logLevel : Codes
deriving DecidableEq, Repr

inductive SettingFault
  | unknown (key : Value)
  | unfit (setting : Setting) (value : Value)
  | unknownDialect (text : Codes)
  | shortHorizon (years : Int)
  | negative (setting : Setting)
  | unknownLevel (text : Codes)

namespace SettingFault

def message : SettingFault → Codes
  | unknown key => "Unknown setting: " ++ key.toCodes
  | unfit setting value => s!"Invalid value for {setting.name}: {value.inspect}"
  | unknownDialect text => Dialect.unknown text
  | shortHorizon years => s!"year_horizon must be at least 1, got {years}"
  | negative setting => s!"{setting.name} must not be negative"
  | unknownLevel text => "Unknown log level: " ++ text

def isShowable : SettingFault → Bool
  | unknown value | unfit _ value => value.isShowable
  | shortHorizon years => (Value.integer years).isShowable
  | unknownDialect _ | negative _ | unknownLevel _ => true

end SettingFault

inductive SettingsError
  | invalid (faults : List SettingFault)
  | fault (f : Fault)

def SettingsError.message : SettingsError → Codes
  | .invalid faults =>
    "Configuration validation failed: " ++ Codes.join ", " (faults.map (·.message))
  | .fault f => f.message

inductive Unfit
  | form
  | tooLarge
deriving DecidableEq, Repr

namespace Value

def toText : Value → Except Unfit Codes
  | text s => .ok s
  | _ => .error .form

-- A value as an integer: one that is written in a text or as a floating-point number will do.
def toInteger : Value → Except Unfit Int
  | integer n => .ok n
  | float d =>
    match d.toInt? with
    | some n => .ok n
    | none => .error .form
  | text s =>
    match s.chars?.map (Text.readInt Text.maxDigits) with
    | some (.integer n) => .ok n
    | _ => .error .form
  | _ => .error .form

-- A value as a floating-point number: an integer or one that is written in a text will do.
def toDouble : Value → Except Unfit Double
  | integer n =>
    match Double.ofInt n with
    | .infinite _ => .error .tooLarge
    | d => .ok d
  | float d => .ok d
  | text s =>
    match s.chars?.bind Text.readDouble? with
    | some d => .ok d
    | none => .error .form
  | _ => .error .form

end Value

namespace Settings

def standard : Settings where
  dialect := Dialect.unix.name
  yearHorizon := defaultHorizon
  missedWindow := Double.ofInt 7200
  smallestInterval := Double.ofInt 60
  pollInterval := Double.ofInt 3600
  startDelay := Double.ofInt 60
  logLevel := "WARNING"

def get (s : Settings) : Setting → Value
  | .dialect => .text s.dialect
  | .yearHorizon => .integer s.yearHorizon
  | .missedWindow => .float s.missedWindow
  | .smallestInterval => .float s.smallestInterval
  | .pollInterval => .float s.pollInterval
  | .startDelay => .float s.startDelay
  | .logLevel => .text s.logLevel

def set (s : Settings) (v : Value) : Setting → Except Unfit Settings
  | .dialect => v.toText.map fun x => { s with dialect := x }
  | .yearHorizon => v.toInteger.map fun x => { s with yearHorizon := x }
  | .missedWindow => v.toDouble.map fun x => { s with missedWindow := x }
  | .smallestInterval => v.toDouble.map fun x => { s with smallestInterval := x }
  | .pollInterval => v.toDouble.map fun x => { s with pollInterval := x }
  | .startDelay => v.toDouble.map fun x => { s with startDelay := x }
  | .logLevel => v.toText.map fun x => { s with logLevel := x }

-- The faults that are reported together; one that cannot be shown ends the reading.
def report (faults : List SettingFault) : Except SettingsError (List SettingFault) :=
  if faults.all (·.isShowable) then .ok faults else .error (.fault .tooManyDigits)

-- The settings after entries, and the faults of those that were passed over. An entry without a
-- value leaves its setting as it is. A number that is too large ends the reading.
def change (s : Settings) : Entries → Except SettingsError (Settings × List SettingFault)
  | [] => .ok (s, [])
  | (key, v) :: rest =>
    match Setting.ofKey? key, v with
    | none, _ => s.change rest
    | some _, .null => s.change rest
    | some setting, v =>
      match s.set v setting with
      | .ok s => s.change rest
      | .error .tooLarge => .error (.fault .hugeInteger)
      | .error .form => do
        let faults ← report [.unfit setting v]
        let (s, more) ← s.change rest
        return (s, faults ++ more)

def seconds? (s : Settings) (setting : Setting) : Option Double :=
  match s.get setting with
  | .float d => some d
  | _ => none

def faults (s : Settings) : List SettingFault :=
  (if (Dialect.ofName? s.dialect).isNone then [.unknownDialect s.dialect] else []) ++
    (if s.yearHorizon < 1 then [.shortHorizon s.yearHorizon] else []) ++
    (Setting.all.filter fun setting => (s.seconds? setting).any (·.isNegative)).map .negative ++
    (if isLogLevel s.logLevel then [] else [.unknownLevel s.logLevel])

def ofEntries (entries : Entries) : Except SettingsError Settings := do
  let keys := (entries.map (·.1)).filter fun key => (Setting.ofKey? key).isNone
  let unknown ← report (keys.map .unknown)
  let (s, unfit) ← standard.change entries
  if !(unknown ++ unfit).isEmpty then .error (.invalid (unknown ++ unfit))
  else do
    let faults ← report s.faults
    if faults.isEmpty then .ok s else .error (.invalid faults)

def timing (s : Settings) : Except DurationFault Timing := do
  let missedWindow ← s.missedWindow.toDuration
  let smallestInterval ← s.smallestInterval.toDuration
  let pollInterval ← s.pollInterval.toDuration
  let startDelay ← s.startDelay.toDuration
  return { missedWindow, smallestInterval, pollInterval, startDelay }

end Settings

end Cron
