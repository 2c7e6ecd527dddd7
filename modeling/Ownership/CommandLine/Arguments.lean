import Ownership.Text.Numeral

/-!
The arguments of the command line. Options may stand before or after the one
source path, long ones may be shortened while they stay unambiguous, and
whatever follows two dashes is no option. A shortening that stays ambiguous is
refused before any option counts, even a call for help.
-/
namespace Ownership.CommandLine

inductive Flag where
  | help
  | json
  | jobs
  | maxIterations
  | noUnreachableWarnings
  | dumpGraph
  | dumpRegions
  | verbose
  deriving DecidableEq, Repr

namespace Flag

def all : List Flag :=
  [help, json, jobs, maxIterations, noUnreachableWarnings, dumpGraph, dumpRegions, verbose]

def long : Flag → String
  | help => "--help"
  | json => "--json"
  | jobs => "--jobs"
  | maxIterations => "--max-iterations"
  | noUnreachableWarnings => "--no-unreachable-warnings"
  | dumpGraph => "--dump-cfg"
  | dumpRegions => "--dump-regions"
  | verbose => "--verbose"

def letter? : Flag → Option Char
  | help => some 'h'
  | verbose => some 'v'
  | _ => none

def takesValue : Flag → Bool
  | jobs | maxIterations => true
  | _ => false

def ofLetter? (c : Char) : Option Flag := all.find? (·.letter? = some c)

def ofLong? (name : String) : Option Flag := all.find? (·.long = name)

/-- The options whose long name starts with a text. -/
def completions (start : String) : List Flag :=
  all.filter fun f => start.toList.isPrefixOf f.long.toList

end Flag

/-- Why arguments are refused. -/
inductive UsageFault where
  | missingSource
  | unrecognized (text : String)
  | ambiguous (text : String)
  | missingValue (flag : Flag)
  | needlessValue (flag : Flag) (value : String)
  | notInteger (flag : Flag) (value : String)
  deriving DecidableEq, Repr

def UsageFault.message : UsageFault → String
  | missingSource => "the following arguments are required: source"
  | unrecognized text => "unrecognized arguments: " ++ text
  | ambiguous text => "ambiguous option: " ++ text
  | missingValue flag => "argument " ++ flag.long ++ ": expected one argument"
  | needlessValue flag value => "argument " ++ flag.long ++ ": ignored explicit argument '" ++ value ++ "'"
  | notInteger flag value => "argument " ++ flag.long ++ ": invalid int value: '" ++ value ++ "'"

/-- A one-letter option and those that the letters after it stand for, all of them or none. -/
def Flag.withLetters (f : Flag) : List Char → Except UsageFault (List Flag)
  | [] => .ok [f]
  | c :: rest =>
    match Flag.ofLetter? c with
    | none => .error (.needlessValue f (String.ofList (c :: rest)))
    | some g => (g.withLetters rest).map (f :: ·)

/-- What one argument is by itself. -/
inductive Word where
  | plain
  | flag (flag : Flag) (value : Option String)
  /-- A one-letter option, and the letters after it. -/
  | letters (first : Flag) (rest : List Char)
  | ambiguous
  | unknown
  deriving DecidableEq, Repr

namespace Word

/-- Digits with at most one point among them, which digits follow. -/
def isNumber (cs : List Char) : Bool :=
  match cs.dropWhile Numeral.isDigit with
  | [] => !cs.isEmpty
  | '.' :: fraction => !fraction.isEmpty && fraction.all Numeral.isDigit
  | _ => false

/-- A number, which a line feed may end. -/
def isNumberLine (cs : List Char) : Bool :=
  isNumber (if cs.getLast? = some '\n' then cs.dropLast else cs)

/-- Splits a text at its first equals sign. -/
def splitValue (cs : List Char) : String × Option String :=
  match cs.dropWhile (· ≠ '=') with
  | [] => (String.ofList cs, none)
  | _ :: value => (String.ofList (cs.takeWhile (· ≠ '=')), some (String.ofList value))

def ofLong (cs : List Char) : Word :=
  let (name, value) := splitValue cs
  match Flag.ofLong? name with
  | some f => .flag f value
  | none =>
    match Flag.completions name with
    | [f] => .flag f value
    | [] => if cs.contains ' ' then .plain else .unknown
    | _ => .ambiguous

/-- The letters after a first one; an equals sign between the two has no meaning of its own. -/
def moreLetters : List Char → List Char
  | '=' :: c :: rest => c :: rest
  | rest => rest

def ofShort (first : Char) (rest : List Char) : Word :=
  match Flag.ofLetter? first with
  | some f => .letters f (moreLetters rest)
  | none =>
    if isNumberLine (first :: rest) || (first :: rest).contains ' ' then .plain else .unknown

/-- Tells options from other arguments; a lone dash and a negative number are none. -/
def classify (text : String) : Word :=
  match text.toList with
  | '-' :: '-' :: rest => ofLong ('-' :: '-' :: rest)
  | '-' :: first :: rest => ofShort first rest
  | _ => .plain

/-- The first argument that could mean several options, among those before two dashes. -/
def firstAmbiguous? (args : List String) : Option String :=
  (args.takeWhile (· ≠ "--")).find? fun text => classify text = .ambiguous

end Word

structure Options where
  source : String
  json : Bool := false
  jobs : Int := 1
  maxIterations : Option Int := none
  reportUnreachable : Bool := true
  dumpGraph : Bool := false
  dumpRegions : Bool := false
  verbosity : Nat := 0
  /-- The options that were last given two dashes for a value. -/
  valueless : List Flag := []
  deriving DecidableEq, Repr

/-- The arguments read so far. -/
structure Draft where
  options : Options := { source := "" }
  source : Option String := none
  /-- The argument just read was the source. -/
  fresh : Bool := false
  stray : List String := []
  deriving DecidableEq, Repr

inductive Request where
  | help
  | run (options : Options)
  deriving DecidableEq, Repr

namespace Draft

def addPlain (d : Draft) (text : String) : Draft :=
  match d.source with
  | none => { d with source := some text, fresh := true }
  | some _ => { d with stray := d.stray ++ [text], fresh := false }

def addStray (d : Draft) (texts : List String) : Draft :=
  { d with stray := d.stray ++ texts, fresh := false }

/-- The arguments after two dashes, which the source may take on either side of it. -/
def addRest (d : Draft) (rest : List String) : Draft :=
  match d.source, rest with
  | none, text :: rest => { d with source := some text }.addStray rest
  | none, [] => d.addStray ["--"]
  | some _, rest => d.addStray (if d.fresh then rest else "--" :: rest)

def set (d : Draft) (f : Options → Options) : Draft :=
  { d with options := f d.options, fresh := false }

/-- Sets an option that takes no value; the call for help ends the reading. -/
def setFlag (d : Draft) : Flag → Option Draft
  | .help => none
  | .json => some (d.set ({ · with json := true }))
  | .noUnreachableWarnings => some (d.set ({ · with reportUnreachable := false }))
  | .dumpGraph => some (d.set ({ · with dumpGraph := true }))
  | .dumpRegions => some (d.set ({ · with dumpRegions := true }))
  | .verbose => some (d.set fun o => { o with verbosity := o.verbosity + 1 })
  | .jobs | .maxIterations => some d

/-- Takes back the value of an option, for two dashes are none. -/
def unset (d : Draft) (f : Flag) : Draft :=
  d.set fun o => { o with
    valueless := f :: o.valueless
    maxIterations := if f = .maxIterations then none else o.maxIterations }

def setInteger (d : Draft) (f : Flag) (n : Int) : Draft :=
  d.set fun o => { o with
    valueless := o.valueless.filter (· ≠ f)
    jobs := if f = .jobs then n else o.jobs
    maxIterations := if f = .maxIterations then some n else o.maxIterations }

def setValue (d : Draft) (f : Flag) (text : String) : Except UsageFault Draft :=
  if text = "--" then .ok (d.unset f)
  else match Numeral.read? text with
    | none => .error (.notInteger f text)
    | some n => .ok (d.setInteger f n)

def finish (d : Draft) : Except UsageFault Request :=
  match d.source, d.stray with
  | none, _ => .error .missingSource
  | some source, [] => .ok (.run { d.options with source := source })
  | some _, stray => .error (.unrecognized (" ".intercalate stray))

/-- Sets options in order; the call for help ends the reading. -/
def setFlags (d : Draft) (flags : List Flag) : Option Draft := flags.foldlM setFlag d

/-- The value that follows an option: the next argument, unless that is an option itself. -/
def following (f : Flag) : List String → Except UsageFault String
  | [] => .error (.missingValue f)
  | text :: _ =>
    if text ≠ "--" && Word.classify text = .plain then .ok text else .error (.missingValue f)

/-- Reads the arguments one after the other. -/
def read (d : Draft) : List String → Except UsageFault Request
  | [] => d.finish
  | text :: rest =>
    if text = "--" then (d.addRest rest).finish
    else match Word.classify text with
      | .plain => (d.addPlain text).read rest
      | .unknown => (d.addStray [text]).read rest
      | .ambiguous => .error (.ambiguous text)
      | .letters first more => do
        match d.setFlags (← first.withLetters more) with
        | none => return .help
        | some d => d.read rest
      | .flag f value =>
        if f.takesValue then
          match value with
          | some value => do (← d.setValue f value).read rest
          | none => do
            let value ← following f rest
            let d ← d.setValue f value
            match rest with
            | [] => d.finish
            | _ :: rest => d.read rest
        else
          match value with
          | some value => .error (.needlessValue f value)
          | none =>
            match d.setFlag f with
            | none => .ok .help
            | some d => d.read rest

end Draft

/-- What the arguments ask for. -/
def readArguments (args : List String) : Except UsageFault Request :=
  match Word.firstAmbiguous? args with
  | some text => .error (.ambiguous text)
  | none => ({} : Draft).read args

end Ownership.CommandLine
