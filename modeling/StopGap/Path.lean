import StopGap.Lib.Text
import Mathlib.Algebra.GroupWithZero.Nat

/-!
# The search path

`registerPath` appends the program's directory to the `PATH` value of the machine's environment
key, `unregisterPath` takes it out again (util.cpp). The calls of the system, the case mapping
among them, are a parameter; a value is the text the functions read, up to its terminator.
-/

namespace StopGap

/-- `wchar_t`. -/
abbrev WChar := UInt16

abbrev WString := List WChar

/-- A text of the source, its characters below `2 ^ 16`. -/
def wide (s : String) : WString := s.toList.map fun c => UInt16.ofNat c.toNat

def semicolon : WChar := 59

/-- The exceptions the two functions throw. -/
inductive PathError
  | modulePath
  | dirName
  | openKey
  | bufferTooSmall
  | createValue
  | alreadyPresent
  | setValue
  | noPathKey
  | notPresent
deriving DecidableEq, Repr

def PathError.what : PathError → String
  | .modulePath => "Failed to get module path"
  | .dirName => "Failed to get dir name"
  | .openKey => "Failed to open or create environment key"
  | .bufferTooSmall => "Buffer too small (unhandled)"
  | .createValue => "Failed to create value"
  | .alreadyPresent => "Already present in PATH"
  | .setValue => "Failed to set value"
  | .noPathKey => "No PATH key"
  | .notPresent => "Not present in PATH"

/-- `ERROR_SUCCESS` with the text read, `ERROR_MORE_DATA`, or any other error. -/
inductive RegAnswer
  | success (val : WString)
  | moreData
  | failure
deriving DecidableEq, Repr

/-- What the calls of the system give. -/
structure System where
  /-- `GetModuleFileName`. -/
  moduleFileName : Option WString
  /-- `_wsplitpath_s`: drive and directory. -/
  splitpath : WString → Option (WString × WString)
  towupper : WChar → WChar
  /-- `RegCreateKeyEx` succeeds. -/
  opens : Bool
  /-- `RegGetValue` can read the value. -/
  reads : Bool
  /-- `RegSetValueEx` succeeds. -/
  writes : Bool

namespace System

variable (sys : System)

def getModuleDir : Except PathError WString :=
  match sys.moduleFileName with
  | none => .error .modulePath
  | some file =>
    match sys.splitpath file with
    | none => .error .dirName
    | some (drive, dir) => if dir.isEmpty then .error .dirName else .ok (drive ++ dir).dropLast

def toupper (str : WString) : WString := str.map sys.towupper

/-- The buffer has room for `1 << 20` bytes, the terminator among them. -/
def regGetValue : Option WString → RegAnswer
  | none => .failure
  | some val =>
    if sys.reads then if 2 ^ 20 < 2 * (val.length + 1) then .moreData else .success val
    else .failure

/-- The new value, or the exception thrown where it cannot be set. -/
def regSetValueEx (str : WString) (ex : PathError) : Except PathError (Option WString) :=
  if sys.writes then .ok (some str) else .error ex

/-- The body of `registerPath`. -/
def addPath (val : Option WString) : Except PathError (Option WString) := do
  let path ← sys.getModuleDir
  if !sys.opens then throw .openKey
  match sys.regGetValue val with
  | .moreData => throw .bufferTooSmall
  | .failure => sys.regSetValueEx path .createValue
  | .success str =>
    let upath := sys.toupper path
    let ustr := sys.toupper str
    if (Text.find upath ustr).isSome then throw .alreadyPresent
    let str := if str.isEmpty then str else str ++ [semicolon]
    sys.regSetValueEx (str ++ path) .setValue

/-- Where `unregisterPath` finds the directory, and the text it replaces there: the directory
with a separator behind it, else with one before it, else alone. -/
def findPath (path str : WString) : Option (ℕ × WString) :=
  let path := path ++ [semicolon]
  let upath := sys.toupper path
  let ustr := sys.toupper str
  match Text.find upath ustr with
  | some pos => some (pos, path)
  | none =>
    let path := semicolon :: path.dropLast
    let upath := semicolon :: upath.dropLast
    match Text.find upath ustr with
    | some pos => some (pos, path)
    | none =>
      let path := path.tail
      let upath := upath.tail
      match Text.find upath ustr with
      | some pos => some (pos, path)
      | none => none

/-- The body of `unregisterPath`. -/
def removePath (val : Option WString) : Except PathError (Option WString) := do
  let path ← sys.getModuleDir
  if !sys.opens then throw .openKey
  match sys.regGetValue val with
  | .moreData => throw .bufferTooSmall
  | .failure => throw .noPathKey
  | .success str =>
    match sys.findPath path str with
    | none => throw .notPresent
    | some (pos, path) => sys.regSetValueEx (Text.cut str pos path.length) .setValue

end System

/-- The value after the call, and what it prints to `std::wcerr`. -/
def caught (val : Option WString) :
    Except PathError (Option WString) → Option WString × Option String
  | .ok val' => (val', none)
  | .error ex => (val, some ex.what)

def System.registerPath (sys : System) (val : Option WString) : Option WString × Option String :=
  caught val (sys.addPath val)

def System.unregisterPath (sys : System) (val : Option WString) : Option WString × Option String :=
  caught val (sys.removePath val)

end StopGap
