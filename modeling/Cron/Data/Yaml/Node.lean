import Cron.Data.Yaml.Plain

-- What a YAML document is made of, before its scalars are given values. Two plain scalars have a
-- meaning of their own as keys: the entries of the mapping under a merge key belong to the mapping
-- around it, where its own entries override them, and the key for any value is a text.

namespace Cron.Yaml

inductive Node where
  | plain (s : List Char)
  | quoted (s : Codes)
  | sequence (items : List Node)
  | mapping (entries : List (Node × Node))

namespace Node

def empty : Node := plain []

def isWord (word : String) : Node → Bool
  | plain s => s == word.toList
  | _ => false

structure Parts where
  merged : Entries
  own : Entries

def Parts.entries (p : Parts) : Entries := p.merged ++ p.own

def keyOf : Value → Except Unread Value
  | .list _ | .mapping _ => .error .malformed
  | v => .ok v

mutual

def value : Node → Except Unread Value
  | plain s => plainValue s
  | quoted s => .ok (.text s)
  | sequence items => (values items).map .list
  | mapping entries => (parts entries).map fun p => .mapping (Value.putAll [] p.entries)

def values : List Node → Except Unread (List Value)
  | [] => .ok []
  | node :: rest => do
    let v ← node.value
    return v :: (← values rest)

def parts : List (Node × Node) → Except Unread Parts
  | [] => .ok ⟨[], []⟩
  | (key, node) :: rest => do
    if key.isWord "<<" then
      let merged ← node.merged
      let p ← parts rest
      return { p with merged := merged ++ p.merged }
    else
      let k ← if key.isWord "=" then pure (.text "=") else key.value
      let k ← keyOf k
      let v ← node.value
      let p ← parts rest
      return { p with own := (k, v) :: p.own }

-- The entries that a node under a merge key gives: a mapping, or a sequence of mappings.
def merged : Node → Except Unread Entries
  | mapping entries => (parts entries).map Parts.entries
  | sequence items => mergedAll items
  | _ => .error .malformed

-- The entries of mappings, the last first, so that earlier ones override later ones.
def mergedAll : List Node → Except Unread Entries
  | [] => .ok []
  | mapping entries :: rest => do
    let p ← parts entries
    return (← mergedAll rest) ++ p.entries
  | _ => .error .malformed

end

end Node

end Cron.Yaml
