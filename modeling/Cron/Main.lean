import Cron.Command.Report
import Std.Time.Format

-- The command line program: it gathers the time, the environment and the files that may hold
-- settings, and prints the report.

open Cron

def currentInstant : IO Instant := do
  let now ← Std.Time.PlainDateTime.now
  let number (width : Nat) (n : Int) : String := String.ofList (Text.padded width n.toNat)
  let date := s!"{number 4 now.year.toInt}-{number 2 now.month.toInt}-{number 2 now.day.toInt}"
  let time := s!"{number 2 now.hour.toInt}:{number 2 now.minute.toInt}:{number 2 now.second.toInt}"
  match Iso.read? s!"{date}T{time}.{number 6 (now.nanosecond.toInt / 1000)}" with
  | some t => return t
  | none => throw (IO.userError "the clock is out of range")

def currentEnvironment : IO Environment := do
  let text ← try IO.FS.readFile "/proc/self/environ" catch _ => pure ""
  return (text.splitOn "\x00").filterMap fun entry => (Codes.ofString entry).cutAt? '='

def findStored (path : Codes) : IO (Option Stored) := do
  let some path := path.string? | return none
  try
    let octets ← IO.FS.readBinFile path
    return some (.file octets.toList)
  catch e =>
    match e with
    | .noFileOrDirectory .. => return none
    | _ => return some .directory

def main (args : List String) : IO UInt32 := do
  let args := args.map Codes.ofString
  let environment ← currentEnvironment
  let directory := FilePath.ofText (← IO.currentDir).toString
  let found ← (Command.neededPaths directory environment args).mapM fun path => do
    return (path, ← findStored path.text)
  let surroundings : Command.Surroundings := {
    clock := ← currentInstant
    files := fun path => (found.lookup path).bind id
    directory, environment }
  match Command.report surroundings args with
  | .error fault =>
    IO.eprintln fault.message
    return 1
  | .ok report =>
    IO.print report.output
    for complaint in report.complaints do
      IO.eprintln complaint
    return report.exitCode.toUInt32
