import JarSigners.Text.Utf8

/-!
# What is asked on the command line

A command line asks for the version or for help, or names a question and an archive. Options
stand before or after the archive and behind a lone `--` there are none. Short options may share
a dash; the value of an option follows it, or is its next argument unless that looks like an
option. Nothing but the verbosity may be given twice. Help is given once it is asked for, if the
arguments before are in order, whatever follows.
-/

set_option autoImplicit false

namespace JarSigners

/-- The kinds of answer. -/
inductive Verb where
  | signers | keys | certificates
  deriving DecidableEq, Repr

namespace Verb

def ofWord? : String → Option Verb
  | "signers" => some signers
  | "keys" => some keys
  | "certs" => some certificates
  | _ => none

/-- Whether the answer can be had as JSON. -/
def takesJson : Verb → Bool
  | signers => true
  | keys => true
  | certificates => false

/-- Whether the answer can be sorted by name. -/
def takesOrder : Verb → Bool
  | signers => true
  | keys => false
  | certificates => false

end Verb

/-- A question about the archive at a path. -/
structure Request where
  verb : Verb
  json : Bool
  byName : Bool
  config : Option String
  archive : String
  deriving DecidableEq, Repr

inductive Invocation where
  | version
  | help
  | request (r : Request)
  deriving DecidableEq, Repr

/-- What the next argument may be. -/
inductive Expectation where
  /-- An option or the archive. -/
  | anything
  /-- The path of the configuration. -/
  | configPath
  /-- The archive only. -/
  | plain
  deriving DecidableEq, Repr

/-- A request of which some arguments have been read. -/
structure PartialRequest where
  verb : Verb
  json : Bool
  byName : Bool
  config : Option String
  archive : Option String
  expectation : Expectation
  deriving DecidableEq, Repr

namespace PartialRequest

def begin (verb : Verb) : PartialRequest :=
  ⟨verb, false, false, none, none, .anything⟩

/-- A path is not empty, and there is at most one archive. -/
def setArchive (r : PartialRequest) (path : String) : Option PartialRequest :=
  if path.isEmpty || r.archive.isSome then none else some { r with archive := some path }

def setConfig (r : PartialRequest) (path : String) : Option PartialRequest :=
  if path.isEmpty || r.config.isSome then none
  else some { r with config := some path, expectation := .anything }

/-- Wait for the path of the configuration. -/
def awaitConfig (r : PartialRequest) : Option PartialRequest :=
  if r.config.isSome then none else some { r with expectation := .configPath }

def setJson (r : PartialRequest) : Option PartialRequest :=
  if r.json || !r.verb.takesJson then none else some { r with json := true }

def setOrder (r : PartialRequest) : Option PartialRequest :=
  if r.byName || !r.verb.takesOrder then none else some { r with byName := true }

/-- An option with a long name, perhaps with a value behind an equals sign. -/
def takeLong (r : PartialRequest) (name : String) (value : Option String) :
    Option PartialRequest :=
  match name, value with
  | "verbose", none => some r
  | "json", none => r.setJson
  | "sort-by-name", none => r.setOrder
  | "config", none => r.awaitConfig
  | "config", some path => r.setConfig path
  | _, _ => none

/-- Options with short names that share a dash. What follows the one that takes a value is that
value, with or without an equals sign. -/
def takeShort (r : PartialRequest) : List Char → Option PartialRequest
  | [] => some r
  | 'v' :: rest => r.takeShort rest
  | ['c'] => r.awaitConfig
  | 'c' :: '=' :: path => r.setConfig (String.ofList path)
  | 'c' :: path => r.setConfig (String.ofList path)
  | _ => none

/-- The parts before and after the first equals sign. -/
def splitOption (option : List Char) : String × Option String :=
  let name := option.takeWhile (· ≠ '=')
  match option.drop name.length with
  | [] => (String.ofList name, none)
  | _ :: value => (String.ofList name, some (String.ofList value))

/-- An argument where options are possible. -/
def takeArgument (r : PartialRequest) (argument : String) : Option PartialRequest :=
  match argument.toList with
  | ['-', '-'] => some { r with expectation := .plain }
  | '-' :: '-' :: option =>
    let (name, value) := splitOption option
    r.takeLong name value
  | '-' :: c :: rest => r.takeShort (c :: rest)
  | _ => r.setArchive argument

/-- Whether an argument looks like an option; a lone dash is a path. -/
def looksLikeOption (argument : String) : Bool :=
  match argument.toList with
  | '-' :: _ :: _ => true
  | _ => false

/-- Take one more argument. -/
def take (r : PartialRequest) (argument : String) : Option PartialRequest :=
  match r.expectation with
  | .anything => r.takeArgument argument
  | .configPath => if looksLikeOption argument then none else r.setConfig argument
  | .plain => r.setArchive argument

/-- Whether short options that share a dash come to the one that asks for help. -/
def helpAmong : List Char → Bool
  | 'h' :: _ => true
  | 'v' :: rest => helpAmong rest
  | _ => false

/-- Whether an argument asks for help where options are possible. -/
def asksHelp (argument : String) : Bool :=
  match argument.toList with
  | '-' :: '-' :: option => option = "help".toList
  | '-' :: rest => helpAmong rest
  | _ => false

/-- Whether further arguments come to one that asks for help. -/
def reachesHelp (r : PartialRequest) : List String → Bool
  | [] => false
  | argument :: rest =>
    if r.expectation = .anything && asksHelp argument then true
    else
      match r.take argument with
      | some r => r.reachesHelp rest
      | none => false

/-- The request, if nothing is missing. -/
def finish (r : PartialRequest) : Option Request := do
  if r.expectation = .configPath then none
  else some ⟨r.verb, r.json, r.byName, r.config, ← r.archive⟩

end PartialRequest

/-- The request for a kind of answer. -/
def Request.ofArguments? (verb : Verb) (arguments : List String) : Option Request := do
  let r ← arguments.foldlM PartialRequest.take (.begin verb)
  r.finish

namespace Invocation

/-- What an argument in front of the verb asks for. -/
inductive Leading where
  | verb (v : Verb)
  | helpOn
  | verbosity
  | version
  | help
  | unknown

def leadingShort : List Char → Leading
  | [] => .verbosity
  | 'v' :: rest => leadingShort rest
  | 'V' :: _ => .version
  | 'h' :: _ => .help
  | _ => .unknown

/-- The word that asks for help, perhaps on one of the questions or on help. -/
def helpWord : String := "help"

def leading (argument : String) : Leading :=
  match Verb.ofWord? argument, argument.toList with
  | some v, _ => .verb v
  | none, '-' :: '-' :: name =>
    if name = "verbose".toList then .verbosity
    else if name = "version".toList then .version
    else if name = "help".toList then .help
    else .unknown
  | none, '-' :: c :: rest => leadingShort (c :: rest)
  | none, _ => if argument = helpWord then .helpOn else .unknown

/-- What the arguments behind the word that asks for help ask. -/
def helpOn? : List String → Option Invocation
  | [] => some help
  | [topic] => if (Verb.ofWord? topic).isSome || topic = helpWord then some help else none
  | _ => none

/-- What the arguments behind a verb ask. -/
def ofVerb? (verb : Verb) (arguments : List String) : Option Invocation :=
  if (PartialRequest.begin verb).reachesHelp arguments then some help
  else (Request.ofArguments? verb arguments).map request

/-- What the arguments of a command line ask, if they are in order. -/
def ofArguments? : List String → Option Invocation
  | [] => none
  | argument :: rest =>
    match leading argument with
    | .verb v => ofVerb? v rest
    | .helpOn => helpOn? rest
    | .verbosity => ofArguments? rest
    | .version => some .version
    | .help => some .help
    | .unknown => none

/-- The paths that have to be followed for an answer. -/
def paths : Invocation → List String
  | version => []
  | help => []
  | request r => r.archive :: r.config.toList

end Invocation

end JarSigners
