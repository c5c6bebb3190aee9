/-!
# Reading JSON

A strict reader for the text forms of settings and ids: one value with blanks
around it and nothing else. Of a number only its being a plain natural number
matters, so all others are one case. A string with an unpaired surrogate
escape is well formed but stands for no text; that is told apart, because such
a string may be skipped but not used.
-/

namespace PagedIndex

inductive Json where
  | null
  | bool (b : Bool)
  /-- Digits without sign, fraction or exponent. -/
  | natural (n : Nat)
  /-- Any other number. -/
  | number
  | text (s : Option String)
  | list (items : List Json)
  | object (members : List (Option String × Json))

namespace Json

/-- Space, tab, line feed and carriage return. -/
def isBlank (c : Char) : Bool := c = ' ' || c = '\t' || c = '\n' || c = '\r'

def skipBlanks (cs : List Char) : List Char := cs.dropWhile isBlank

/-- What follows `word`, if the text starts with it. -/
def after? : (word : List Char) → List Char → Option (List Char)
  | [], cs => some cs
  | _ :: _, [] => none
  | w :: ws, c :: cs => if w = c then after? ws cs else none

/-! ## Numbers -/

/-- The digits at the front, at least one, and the rest. -/
def readDigits (cs : List Char) : Option (List Char × List Char) :=
  match cs.takeWhile Char.isDigit with
  | [] => none
  | ds => some (ds, cs.dropWhile Char.isDigit)

/-- Digits of a whole number: no zero in front of others. -/
def readWhole (cs : List Char) : Option (List Char × List Char) :=
  match readDigits cs with
  | some ('0' :: _ :: _, _) => none
  | r => r

/-- The rest after an optional fraction, and whether there was one. -/
def skipFraction : List Char → Option (Bool × List Char)
  | '.' :: cs => (readDigits cs).map fun r => (true, r.2)
  | cs => some (false, cs)

def skipSign : List Char → List Char
  | '+' :: cs | '-' :: cs => cs
  | cs => cs

/-- The rest after an optional exponent, and whether there was one. -/
def skipExponent : List Char → Option (Bool × List Char)
  | 'e' :: cs | 'E' :: cs => (readDigits (skipSign cs)).map fun r => (true, r.2)
  | cs => some (false, cs)

/-- The number that decimal digits spell. -/
def ofDigits (ds : List Char) : Nat := ds.foldl (fun n d => 10 * n + (d.toNat - '0'.toNat)) 0

def readUnsigned (cs : List Char) : Option (Json × List Char) := do
  let (ds, cs) ← readWhole cs
  let (fraction, cs) ← skipFraction cs
  let (exponent, cs) ← skipExponent cs
  return (if fraction || exponent then number else natural (ofDigits ds), cs)

def readNumber : List Char → Option (Json × List Char)
  | '-' :: cs => (readUnsigned cs).map fun r => (number, r.2)
  | cs => readUnsigned cs

/-! ## Strings -/

def hexValue? (c : Char) : Option Nat :=
  if '0' ≤ c ∧ c ≤ '9' then some (c.toNat - '0'.toNat)
  else if 'a' ≤ c ∧ c ≤ 'f' then some (c.toNat - 'a'.toNat + 10)
  else if 'A' ≤ c ∧ c ≤ 'F' then some (c.toNat - 'A'.toNat + 10)
  else none

/-- The code unit of four hexadecimal digits. -/
def hexUnit? (a b c d : Char) : Option Nat := do
  return (((← hexValue? a) * 16 + (← hexValue? b)) * 16 + (← hexValue? c)) * 16 + (← hexValue? d)

/-- What a one-letter escape stands for. -/
def plainEscape? : Char → Option Char
  | '"' => some '"'
  | '\\' => some '\\'
  | '/' => some '/'
  | 'b' => some '\x08'
  | 'f' => some '\x0c'
  | 'n' => some '\n'
  | 'r' => some '\r'
  | 't' => some '\t'
  | _ => none

/-- A character of a string as written: itself, or a code unit of its escape. -/
inductive Piece where
  | char (c : Char)
  | unit (n : Nat)

/-- The pieces of a string up to its closing quote, and the rest. -/
def readPieces : List Char → Option (List Piece × List Char)
  | [] => none
  | '"' :: cs => some ([], cs)
  | '\\' :: 'u' :: a :: b :: c :: d :: cs => do
    let n ← hexUnit? a b c d
    let (ps, cs) ← readPieces cs
    return (.unit n :: ps, cs)
  | '\\' :: e :: cs => do
    let c ← plainEscape? e
    let (ps, cs) ← readPieces cs
    return (.char c :: ps, cs)
  | c :: cs =>
    if c.toNat < 32 then none
    else do
      let (ps, cs) ← readPieces cs
      return (.char c :: ps, cs)

/-- The text of a string's pieces, where escaped surrogates have to come in
pairs, the high one first. -/
def joinPieces : List Piece → Option (List Char)
  | [] => some []
  | .char c :: ps => (joinPieces ps).map (c :: ·)
  | .unit hi :: .unit lo :: ps =>
    if 0xD800 ≤ hi ∧ hi < 0xDC00 then
      if 0xDC00 ≤ lo ∧ lo < 0xE000 then
        (joinPieces ps).map (Char.ofNat (0x10000 + (hi - 0xD800) * 0x400 + (lo - 0xDC00)) :: ·)
      else none
    else if 0xDC00 ≤ hi ∧ hi < 0xE000 then none
    else (joinPieces (.unit lo :: ps)).map (Char.ofNat hi :: ·)
  | .unit n :: ps =>
    if 0xD800 ≤ n ∧ n < 0xE000 then none else (joinPieces ps).map (Char.ofNat n :: ·)

/-- A string behind its opening quote. -/
def readText (cs : List Char) : Option (Option String × List Char) := do
  let (ps, cs) ← readPieces cs
  return ((joinPieces ps).map String.ofList, cs)

/-! ## Values -/

mutual
/-- A value at the front of the text, after blanks. -/
def readValue : Nat → List Char → Option (Json × List Char)
  | 0, _ => none
  | fuel + 1, cs =>
    match skipBlanks cs with
    | 'n' :: cs => (after? ['u', 'l', 'l'] cs).map fun r => (null, r)
    | 't' :: cs => (after? ['r', 'u', 'e'] cs).map fun r => (bool true, r)
    | 'f' :: cs => (after? ['a', 'l', 's', 'e'] cs).map fun r => (bool false, r)
    | '"' :: cs => (readText cs).map fun r => (text r.1, r.2)
    | '[' :: cs =>
      match skipBlanks cs with
      | ']' :: cs => some (list [], cs)
      | cs => (readItems fuel cs).map fun r => (list r.1, r.2)
    | '\x7b' :: cs =>
      match skipBlanks cs with
      | '\x7d' :: cs => some (object [], cs)
      | cs => (readMembers fuel cs).map fun r => (object r.1, r.2)
    | cs => readNumber cs

/-- The items of a list that has some, up to the closing bracket. -/
def readItems : Nat → List Char → Option (List Json × List Char)
  | 0, _ => none
  | fuel + 1, cs => do
    let (item, cs) ← readValue fuel cs
    match skipBlanks cs with
    | ']' :: cs => return ([item], cs)
    | ',' :: cs =>
      let (items, cs) ← readItems fuel cs
      return (item :: items, cs)
    | _ => none

/-- The members of an object that has some, up to the closing brace. -/
def readMembers : Nat → List Char → Option (List (Option String × Json) × List Char)
  | 0, _ => none
  | fuel + 1, cs =>
    match skipBlanks cs with
    | '"' :: cs => do
      let (key, cs) ← readText cs
      match skipBlanks cs with
      | ':' :: cs =>
        let (value, cs) ← readValue fuel cs
        match skipBlanks cs with
        | '\x7d' :: cs => return ([(key, value)], cs)
        | ',' :: cs =>
          let (members, cs) ← readMembers fuel cs
          return ((key, value) :: members, cs)
        | _ => none
      | _ => none
    | _ => none

end

/-- The value that a whole text holds. No character costs the reading more
than two steps, so twice the length of the text is steps enough. -/
def parse? (s : String) : Option Json := do
  let cs := s.toList
  let (value, rest) ← readValue (2 * cs.length + 1) cs
  if (skipBlanks rest).isEmpty then return value else none

end Json

end PagedIndex
