import Cron.Data.Value
import Cron.Number.Literal
import Cron.Text.Lower

-- Settings in environment variables. A variable stands for an entry if its name begins with a
-- prefix and an underscore; the rest of the name, in lower case, is the key.

namespace Cron

abbrev Environment : Type := List (Codes × Codes)

namespace Environment

def standardPrefix : String := "CRONPLAN"

def fileVariable (first : Codes) : Codes := first ++ "_CONFIG"

def wordValue? (word : String) : Option Value :=
  if ["true", "yes", "on"].contains word then some (.bool true)
  else if ["false", "no", "off"].contains word then some (.bool false)
  else if ["null", "none", ""].contains word then some .null
  else none

def numberValue? (s : List Char) : Option Value :=
  if s.contains '.' then (Text.readDouble? s).map .float
  else
    match Text.readInt Text.maxDigits s with
    | .integer n => some (.integer n)
    | _ => none

def valueOf (text : Codes) : Value :=
  ((text.word?.bind wordValue?) <|> (text.chars?.bind numberValue?)).getD (.text text)

def key? (first name : Codes) : Option Codes :=
  let start := first ++ "_"
  if start.points.isPrefixOf name.points && name ≠ fileVariable first then
    some (Codes.lower ⟨name.points.drop start.points.length⟩)
  else none

-- The entries of variables whose key is accepted. Of several with one key, the last counts.
def entries (first : Codes) (accepts : Codes → Bool) (environment : Environment) : Entries :=
  Value.putAll [] (environment.filterMap fun (name, text) =>
    (key? first name).bind fun key =>
      if accepts key then some (.text key, valueOf text) else none)

def namedFile? (environment : Environment) : Option Codes :=
  environment.lookup (fileVariable standardPrefix)

end Environment

end Cron
