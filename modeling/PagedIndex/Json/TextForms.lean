import PagedIndex.Config
import PagedIndex.Json.Reader
import PagedIndex.Tree.Audit

/-!
# Text forms

The JSON forms in which settings, kinds, block ids and tree shapes are
exchanged. A record is an object with each of its fields exactly once, other
fields being ignored, or a list of all fields in order; it is written as an
object without blanks. Counts are natural numbers of at most 64 bits. A kind
is its name as a string, or as the only member of an object whose value is
null.
-/

namespace PagedIndex

namespace Json

/-- A natural number that fits in 64 bits. -/
def toCount? : Json → Option Nat
  | natural n => if n < UInt64.size then some n else none
  | _ => none

def toBool? : Json → Option Bool
  | bool b => some b
  | _ => none

/-- The only member called `name`. -/
def onlyMember? (members : List (Option String × Json)) (name : String) : Option Json :=
  match members.filter fun m => m.1 == some name with
  | [m] => some m.2
  | _ => none

/-- The fields of a record in the order of their names. -/
def toFields? (names : List String) : Json → Option (List Json)
  | object members =>
    if members.all fun m => m.1.isSome then names.mapM (onlyMember? members) else none
  | list items => if items.length = names.length then some items else none
  | _ => none

/-- The name that stands for one of several cases. -/
def toCase? : Json → Option String
  | text s => s
  | object [(name, null)] => name
  | _ => none

/-- A name as a JSON string; names need no escapes. -/
def quoted (name : String) : String := "\"" ++ name ++ "\""

/-- A record as an object without blanks. -/
def objectText (fields : List (String × String)) : String :=
  "\x7b" ++ ",".intercalate (fields.map fun f => quoted f.1 ++ ":" ++ f.2) ++ "\x7d"

end Json

/-! ## Block ids -/

def BlockId.toJson (id : BlockId) : String := toString id.val

def BlockId.ofJson? (j : Json) : Option BlockId := j.toCount?.map BlockId.mk

/-! ## Kinds -/

def NodeKind.toJson (k : NodeKind) : String := Json.quoted k.name

def NodeKind.ofJson? (j : Json) : Option NodeKind := do
  let name ← j.toCase?
  [NodeKind.internal, NodeKind.leaf].find? fun k => k.name = name

def IndexKind.toJson (k : IndexKind) : String := Json.quoted k.name

def IndexKind.ofJson? (j : Json) : Option IndexKind := do
  IndexKind.ofName? (← j.toCase?)

/-! ## Records -/

def StoreConfig.toJson (c : StoreConfig) : String :=
  Json.objectText
    [("cache_blocks", toString c.cacheBlocks), ("fsync_enabled", toString c.fsyncEnabled)]

def StoreConfig.ofJson? (j : Json) : Option StoreConfig := do
  match ← j.toFields? ["cache_blocks", "fsync_enabled"] with
  | [cache, fsync] => return ⟨← cache.toCount?, ← fsync.toBool?⟩
  | _ => none

def TreeStats.toJson (s : TreeStats) : String :=
  Json.objectText
    [("height", toString s.height), ("internal_pages", toString s.internalPages),
      ("leaf_pages", toString s.leafPages), ("keys", toString s.keys)]

def TreeStats.ofJson? (j : Json) : Option TreeStats := do
  match ← j.toFields? ["height", "internal_pages", "leaf_pages", "keys"] with
  | [height, internalPages, leafPages, keys] =>
    return ⟨← height.toCount?, ← internalPages.toCount?, ← leafPages.toCount?, ← keys.toCount?⟩
  | _ => none

end PagedIndex
