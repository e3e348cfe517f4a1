import JarSigners.CommandLine.Request
import JarSigners.CommandLine.Text

/-!
# Answers on the command line

A command line is answered by an exit status, output, and perhaps one error. The status tells
errors apart: entries with different signers, archives that fail a check, and everything else.
The configuration is read before the archive, and there is output only where there is no error.
-/

set_option autoImplicit false

namespace JarSigners

namespace ExitStatus

def success : Nat := 0

/-- The configuration or a file is at fault. -/
def failure : Nat := 1

/-- Entries have different signers. -/
def disagreement : Nat := 2

/-- The archive fails a check of its integrity or its signatures. -/
def security : Nat := 3

/-- The command line cannot be understood. -/
def usage : Nat := 2

/-- The status for an archive whose signers cannot be told. -/
def ofError : SignersError → Nat
  | .disagreement _ => disagreement
  | .archive e => if e.isTrustFailure then security else failure

end ExitStatus

/-- The error that is reported. -/
inductive Report where
  | configuration (e : ConfigDefect)
  | collection (e : SignersError)
  deriving DecidableEq, Repr

namespace Report

/-- How the line that reports an error begins. -/
def opening : Report → String
  | configuration _ => "Configuration error: "
  | collection _ => "Error: "

/-- The wording of an error, where it is the program's own. -/
def message? : Report → Option String
  | configuration e => e.message?
  | collection e => e.message?

/-- The line that reports an error. -/
def line (r : Report) : String :=
  r.opening ++ r.message?.getD "cannot be read"

end Report

structure Response where
  status : Nat
  output : String
  report : Option Report
  warnings : List Warning

namespace Response

/-- The answer to a command line that cannot be understood. -/
def misuse : Response :=
  ⟨ExitStatus.usage, "", none, []⟩

/-- The name of the program and its version. -/
def versionLine : String := "jarsig 0.1.0"

def version : Response :=
  ⟨ExitStatus.success, AnswerText.lines [versionLine], none, []⟩

/-- What a command line has to hold. -/
def usageLine : String := "expected signers, keys or certs, options and the path of an archive"

def help : Response :=
  ⟨ExitStatus.success, AnswerText.lines [usageLine], none, []⟩

/-- What is said on the error channel when there is no answer. -/
def complaints (r : Response) : List String :=
  match r.report with
  | some report => [report.line]
  | none => if r.status = ExitStatus.success then [] else [usageLine]

end Response

namespace Request

/-- The signers in the order in which they are told. -/
def arranged (r : Request) (signers : List Chain) : List Chain :=
  if r.byName then SignerListing.parties signers else signers

/-- The answer about signers. -/
def signersText (r : Request) (signers : List Chain) : String :=
  if r.json then AnswerText.lines [AnswerText.jsonList (signers.map AnswerText.jsonSigner)]
  else if signers.isEmpty then AnswerText.lines [r.archive ++ ": unsigned"]
  else AnswerText.lines (signers.map Chain.displayName)

/-- The answer about keys. -/
def keysText (r : Request) (keys : List Bytes) : String :=
  let fingerprints := keys.map fun key => Bytes.hex (SignerListing.keyFingerprint key)
  if r.json then AnswerText.lines [AnswerText.jsonList (fingerprints.map AnswerText.quoted)]
  else AnswerText.lines fingerprints

/-- The answer once the signers are known. -/
def text (r : Request) (signers : List Chain) : String :=
  match r.verb with
  | .signers => r.signersText (r.arranged signers)
  | .keys => r.keysText (SignerListing.keys signers)
  | .certificates => String.join ((SignerListing.certificates signers).map AnswerText.pem)

/-- The configuration in force. -/
def loadConfig (r : Request) (files : String → FileState) : Except ConfigDefect Config :=
  match r.config with
  | some path => Config.ofFile (files path).content?
  | none => .ok .default

/-- The answer under a configuration. -/
def respondWith (r : Request) (files : String → FileState) (config : Config) : Response :=
  let listing := Listing.ofFile config.limits (files r.archive)
  match listing.result with
  | .ok signers => ⟨ExitStatus.success, r.text signers, none, listing.warnings⟩
  | .error e => ⟨ExitStatus.ofError e, "", some (.collection e), listing.warnings⟩

/-- The answer to a request. -/
def respond (r : Request) (files : String → FileState) : Response :=
  match r.loadConfig files with
  | .ok config => r.respondWith files config
  | .error e => ⟨ExitStatus.failure, "", some (.configuration e), []⟩

end Request

/-- The answer to a command line, where paths lead to files. -/
def respond (files : String → FileState) (arguments : List String) : Response :=
  match Invocation.ofArguments? arguments with
  | none => .misuse
  | some .version => .version
  | some .help => .help
  | some (.request r) => r.respond files

end JarSigners
