import Cron.Number.Literal
import Cron.Text.Quoted

-- Command lines. A command takes options anywhere among its arguments; an option has a long name
-- after two dashes and may have one letter after a single dash. Its value is the rest of its
-- argument or the next one. What follows two dashes alone is no option.

namespace Cron.Command

inductive Name
  | next
  | describe
  | validate
  | parts
  | presets
deriving DecidableEq, Repr

inductive Flag
  | dialect
  | config
  | format
  | verbose
  | after
  | count
  | newlines
  | help
deriving DecidableEq, Repr

namespace Flag

def long : Flag → String
  | dialect => "dialect"
  | config => "config"
  | format => "format"
  | verbose => "verbose"
  | after => "after"
  | count => "count"
  | newlines => "newlines"
  | help => "help"

def letter? : Flag → Option Char
  | dialect => some 'd'
  | config => some 'c'
  | format => some 'f'
  | verbose => some 'v'
  | after => some 'a'
  | count => some 'n'
  | newlines | help => none

def takesValue : Flag → Bool
  | verbose | newlines | help => false
  | _ => true

end Flag

namespace Name

def all : List Name := [next, describe, validate, parts, presets]

def text : Name → String
  | next => "next"
  | describe => "describe"
  | validate => "validate"
  | parts => "parts"
  | presets => "presets"

def flags : Name → List Flag
  | next => [.after, .count, .dialect, .format, .config, .verbose, .help]
  | describe => [.newlines, .dialect, .format, .config, .verbose, .help]
  | validate => [.dialect, .config, .verbose, .help]
  | parts => [.dialect, .format, .config, .verbose, .help]
  | presets => [.format, .help]

end Name

inductive Misuse
  | noCommand
  | unknownCommand (text : Codes)
  | unknownOption (text : Codes)
  | noValue (flag : Flag)
  | needlessValue (flag : Flag)
  | noExpression
  | extraArgument (text : Codes)
  | badCount (text : Codes)
deriving DecidableEq, Repr

def Misuse.message : Misuse → Codes
  | .noCommand => "Missing command."
  | .unknownCommand text => s!"No such command {Text.quote text}."
  | .unknownOption text => "No such option: " ++ text
  | .noValue flag => s!"Option --{flag.long} requires an argument."
  | .needlessValue flag => s!"Option --{flag.long} does not take a value."
  | .noExpression => "Missing argument EXPRESSION."
  | .extraArgument text => "Got unexpected extra argument (" ++ text ++ ")"
  | .badCount text => s!"Invalid value for --count: {Text.quote text}"

structure Named where
  given : List (Flag × Codes)
  waiting : Option Flag

-- Reads the letters after a single dash: the value of an option is the rest of them.
def readLetters (flags : List Flag) : List Code → Except Misuse Named
  | [] => .ok ⟨[], none⟩
  | c :: rest =>
    match flags.find? fun flag => flag.letter?.any (.char · == c) with
    | none => .error (.unknownOption ⟨[.char '-', c]⟩)
    | some flag =>
      if flag.takesValue then
        if rest.isEmpty then .ok ⟨[], some flag⟩ else .ok ⟨[(flag, ⟨rest⟩)], none⟩
      else (readLetters flags rest).map fun n => { n with given := (flag, "") :: n.given }

-- Reads what stands after two dashes: a name, perhaps with an equals sign and a value.
def readLong (flags : List Flag) (s : Codes) : Except Misuse Named :=
  let (name, value) :=
    match s.cutAt? '=' with
    | some (name, value) => (name, some value)
    | none => (s, none)
  match flags.find? fun flag => name == flag.long, value with
  | none, _ => .error (.unknownOption ("--" ++ name))
  | some flag, some value =>
    if flag.takesValue then .ok ⟨[(flag, value)], none⟩ else .error (.needlessValue flag)
  | some flag, none =>
    if flag.takesValue then .ok ⟨[], some flag⟩ else .ok ⟨[(flag, "")], none⟩

structure Subject where
  expression : Codes
  dialect : Option Codes
  config : Option Codes
deriving DecidableEq, Repr

structure Given where
  flags : List (Flag × Codes)
  arguments : List Codes

namespace Given

-- Reads arguments, the first of which is the value of `waiting` if there is one.
def read (flags : List Flag) : Option Flag → List Codes → Except Misuse Given
  | some flag, [] => .error (.noValue flag)
  | none, [] => .ok ⟨[], []⟩
  | some flag, value :: rest =>
    (read flags none rest).map fun g => { g with flags := (flag, value) :: g.flags }
  | none, arg :: rest =>
    match arg.points with
    | [.char '-', .char '-'] => .ok ⟨[], rest⟩
    | .char '-' :: c :: s => do
      let named ← if c = .char '-' then readLong flags ⟨s⟩ else readLetters flags (c :: s)
      let g ← read flags named.waiting rest
      return { g with flags := named.given ++ g.flags }
    | _ => (read flags none rest).map fun g => { g with arguments := arg :: g.arguments }

-- The value of an option; that of the last, if it is given more than once.
def value? (g : Given) (flag : Flag) : Option Codes := g.flags.reverse.lookup flag

def has (g : Given) (flag : Flag) : Bool := (g.value? flag).isSome

def format (g : Given) : Codes := (g.value? .format).getD "text"

def count (g : Given) : Except Misuse Nat :=
  match g.value? .count with
  | none => .ok 1
  | some text =>
    match text.chars?.bind Text.readWhole? with
    | some n => if 1 ≤ n then .ok n.toNat else .error (.badCount text)
    | none => .error (.badCount text)

def subject (g : Given) : Except Misuse Subject :=
  match g.arguments with
  | [] => .error .noExpression
  | [expression] => .ok ⟨expression, g.value? .dialect, g.value? .config⟩
  | _ :: text :: _ => .error (.extraArgument text)

end Given

inductive Request
  | next (subject : Subject) (format : Codes) (after : Option Codes) (count : Nat)
  | describe (subject : Subject) (format : Codes) (newlines : Bool)
  | validate (subject : Subject)
  | parts (subject : Subject) (format : Codes)
  | presets (format : Codes)
  | help
deriving DecidableEq, Repr

namespace Request

def config? : Request → Option Codes
  | .next subject _ _ _ | .describe subject _ _ | .validate subject | .parts subject _ =>
    subject.config
  | .presets _ | .help => none

def ofGiven (name : Name) (g : Given) : Except Misuse Request :=
  if g.has .help then .ok .help
  else
    match name with
    | .next => do return .next (← g.subject) g.format (g.value? .after) (← g.count)
    | .describe => do return .describe (← g.subject) g.format (g.has .newlines)
    | .validate => do return .validate (← g.subject)
    | .parts => do return .parts (← g.subject) g.format
    | .presets =>
      match g.arguments with
      | [] => .ok (.presets g.format)
      | text :: _ => .error (.extraArgument text)

def ofCommand (text : Codes) (args : List Codes) : Except Misuse Request :=
  match Name.all.find? fun name => text == name.text with
  | none => .error (.unknownCommand text)
  | some name => do ofGiven name (← Given.read name.flags none args)

def read : List Codes → Except Misuse Request
  | [] => .error .noCommand
  | first :: args =>
    if first = "--" then
      match args with
      | [] => .error .noCommand
      | text :: args => ofCommand text args
    else if first = "--help" then .ok .help
    else ofCommand first args

end Request

end Cron.Command
