import PagedIndex.Block

/-!
# Errors and faults

A store error is an answer: the caller asked for something the file cannot
give, or the bytes found contradict each other. Each cause is a constructor,
and the wording lives in one function per type. A fault is how a computation
stops short of its value: with a store error, by reaching past a page or a
decoded list, or because a descent went on for longer than there are blocks.
-/

namespace PagedIndex

/-- What contradicts what, when the bytes of a file are found damaged. -/
inductive Damage where
  /-- The first byte of a tree page names no kind. -/
  | unknownKind (byte : Nat)
  /-- The content area leaves the page or runs into the pointer array. -/
  | contentOverlap (top arrayEnd : Nat)
  /-- A cell pointer leads out of the content area. -/
  | strayCellPointer (index ptr : Nat)
  | shortFile (length : Nat)
  | countTooSmall (count : Nat)
  | countPastEnd (count length : Nat)
  | rootOutOfRange (ptr : Nat)
  | invalidChild (ptr : Nat)
  /-- A page to be split already has the key that comes up from below. -/
  | separatorPresent (key : Int64)
  /-- No split leaves two halves that fit. -/
  | unsplittable (cells : Nat)
  | oversized (cells : Nat)
  | emptyLeaf
  | emptyPage
  /-- The key found as predecessor is not there when it is to be removed. -/
  | predecessorVanished (key : Int64)
  | leafPairStuck
  | siblingPairStuck
  | keyOrder (key : Int64) (slot : Nat)
  | keyBounds (key : Int64) (lower upper : Option Int64)
  | leafDepth (depth expected : Nat)
  | chainMismatch (chained leaves : Nat)
  | chainLoop (next : BlockId)
  | chainInternal
  /-- A reason in the words of whoever reports it. -/
  | noted (text : String)
  deriving DecidableEq

/-- A bound as texts show it. -/
def boundText : Option Int64 → String
  | none => "None"
  | some k => s!"Some({k.toInt})"

def Damage.message : Damage → String
  | unknownKind byte => s!"invalid node kind {byte}"
  | contentOverlap top arrayEnd =>
    s!"content top {top} overlaps pointer array ending at {arrayEnd}"
  | strayCellPointer index ptr => s!"cell pointer {index} = {ptr} outside content area"
  | shortFile length => s!"file is {length} bytes, shorter than the meta block"
  | countTooSmall count => s!"block count {count} below reserved minimum"
  | countPastEnd count length => s!"block count {count} exceeds file length {length}"
  | rootOutOfRange ptr => s!"root pointer {ptr} out of range"
  | invalidChild ptr => s!"invalid child pointer {ptr}"
  | separatorPresent key => s!"separator {key.toInt} already present"
  | unsplittable cells => s!"cannot split {cells} cells"
  | oversized cells => s!"{cells} cells do not fit one page"
  | emptyLeaf => "empty non-root leaf"
  | emptyPage => "empty non-root page"
  | predecessorVanished key => s!"predecessor {key.toInt} vanished"
  | leafPairStuck => "leaf pair cannot be redistributed"
  | siblingPairStuck => "sibling pair cannot be redistributed"
  | keyOrder key slot => s!"key {key.toInt} at slot {slot} out of order"
  | keyBounds key lower upper =>
    s!"key {key.toInt} escapes separator bounds {boundText lower}..{boundText upper}"
  | leafDepth depth expected => s!"leaf at depth {depth}, expected {expected}"
  | chainMismatch chained leaves => s!"leaf chain has {chained} pages, tree has {leaves} leaves"
  | chainLoop next => s!"leaf chain loops back to {next}"
  | chainInternal => "next-leaf points at internal page"
  | noted text => text

/-- The errors a store, a page or an index answers with. -/
inductive StoreError where
  /-- The file ends inside the block to be read. -/
  | endOfFile
  /-- Any other failure of the file, in its own words. -/
  | io (text : String)
  | blockOutOfRange (id : BlockId) (blockCount : Nat)
  /-- The block's number is too large for a pointer on a page. -/
  | pointerOverflow (id : BlockId)
  | pageCorrupted (id : BlockId) (damage : Damage)
  /-- A cell reaches past the end of its page. -/
  | malformedCell (offset : Nat)
  | valueTooLarge (size max : Nat)
  | configError (text : String)
  | invalidParameter (name value : String)
  deriving DecidableEq

namespace StoreError

def message : StoreError → String
  | endOfFile => "I/O error: failed to fill whole buffer"
  | io text => s!"I/O error: {text}"
  | blockOutOfRange id blockCount =>
    s!"Block {id.val} out of range (block count {blockCount})"
  | pointerOverflow id => s!"Block id {id.val} does not fit in a 4-byte page pointer"
  | pageCorrupted id damage => s!"Page corrupted: {id.val}, reason: {damage.message}"
  | malformedCell offset => s!"Malformed cell at offset {offset}"
  | valueTooLarge size max => s!"Value too large: {size} bytes (max {max})"
  | configError text => s!"Configuration error: {text}"
  | invalidParameter name value => s!"Invalid parameter: {name} = {value}"

/-- Whether the error says that the file itself is damaged. -/
def isCorruption : StoreError → Bool
  | pageCorrupted .. | malformedCell .. => true
  | _ => false

end StoreError

/-- Why a computation stopped without its value. -/
inductive Fault where
  | error (e : StoreError)
  /-- An index left a page or a decoded list. -/
  | outOfBounds
  /-- A descent met more pages than the file has blocks. -/
  | endless
  deriving DecidableEq

namespace Fault

def corrupted (id : BlockId) (damage : Damage) : Fault :=
  .error (.pageCorrupted id damage)

def malformedCell (offset : Nat) : Fault := .error (.malformedCell offset)

end Fault

/-- The id as a pointer on a page. -/
def BlockId.toPointer (id : BlockId) : Except StoreError UInt32 :=
  match id.toPointer? with
  | some ptr => .ok ptr
  | none => .error (.pointerOverflow id)

end PagedIndex
