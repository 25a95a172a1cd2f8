import Abacus.Command.Arguments
import Abacus.Command.FileTree
import Abacus.Module
import Abacus.Program

/-!
# Running a command

A command reads a source, compiles it, and writes the module. What it does to files goes through
two operations, so the same run serves a file tree and a real file system.

## Main definitions

* `Ending`, `Outcome`: how a command ends, and what it prints
* `Files`: reading and writing, in any monad
* `Request.run`, `runCommand`: a request and a command line carried out
* `runOn`: a command line carried out on a file tree
-/

namespace Abacus

/-! ## Outcomes -/

/-- How a command ends. -/
inductive Ending where
  /-- With an exit status. -/
  | exit (status : Nat)
  /-- With a fault that no diagnostic reports. -/
  | fault (f : Fault)
  /-- With a file that cannot be read or written. -/
  | fileFault (f : FileFault)
  /-- With a module that has no path to be written to. -/
  | noOutput
  deriving DecidableEq, Repr

/-- The line that reports how a command ends, if there is one. -/
def Ending.message? : Ending → Option String
  | exit _ => none
  | fault f => some f.message
  | fileFault f => f.message?
  | noOutput => some "expected str, bytes or os.PathLike object, not list"

/-- How a command ends, and what it prints. -/
structure Outcome where
  ending : Ending
  /-- What is printed on the standard output. -/
  stdout : String := ""
  /-- What is printed about wrong usage. -/
  complaint : String := ""
  /-- The log. -/
  records : List Record := []
  deriving DecidableEq, Repr

/-- What is printed on the error output. -/
def Outcome.stderr (o : Outcome) : String :=
  o.complaint ++ String.join (o.records.map Record.text)

/-- The line that shows how to use the command. -/
def usageLine : String :=
  "usage: calcir [-h] [-o OUT] [--module-id MODULE_ID] [--debug] SRC\n"

/-- The help. -/
def helpText : String :=
  usageLine ++
  "\nCompiles a line-oriented arithmetic program to LLVM IR.\n" ++
  "\npositional arguments:\n" ++
  "  SRC                   the file to compile\n" ++
  "\noptions:\n" ++
  "  -h, --help            show this help message and exit\n" ++
  "  -o OUT                the .ll file to create (default: SRC with its\n" ++
  "                        extension replaced by .ll)\n" ++
  "  --module-id MODULE_ID\n" ++
  "                        the name written in the module header (default: SRC's\n" ++
  "                        base name)\n" ++
  "  --debug               log every emitted instruction\n"

/-- The outcome of a command that is not carried out. -/
def Halt.outcome : Halt → Outcome
  | help => { ending := .exit 0, stdout := helpText }
  | usage e =>
    { ending := .exit 2, complaint := usageLine ++ "calcir: error: " ++ e.message ++ "\n" }

/-- The outcome of a compilation that fails: a diagnostic is printed and decides the exit status,
any other fault ends the command. -/
def Fault.outcome (f : Fault) (records : List Record) : Outcome :=
  match f with
  | rejected d =>
    { ending := .exit d.cause.exitCode, stdout := d.message ++ "\n", records }
  | f => { ending := .fault f, records }

/-! ## Carrying out a request -/

/-- Reading the bytes of a file, and writing a text to one. The text is taken to be encodable, as
every `String` is in UTF-8: a file that could be emptied can be written, so the two are one step. -/
structure Files (m : Type → Type) where
  read : String → ExceptT FileFault m ByteArray
  write : String → String → ExceptT FileFault m Unit

/-- The source text of a file's content: UTF-8 with unified line breaks. -/
def decodeSource (content : ByteArray) : Except FileFault String :=
  match String.fromUTF8? content with
  | some text => .ok (String.ofList (Text.unifyBreaks text.toList))
  | none => .error .notText

namespace Request

/-- The records of the emitted instructions, shown on demand only. -/
def trace (r : Request) (s : Session) : List Record :=
  if r.debug then s.trace else []

/-- The first record of a compilation. -/
def opening (r : Request) : Record :=
  ⟨.info, "Compiling " ++ r.source⟩

/-- The last record of a successful compilation, whose module was written to `path`. -/
def closing (s : Session) (path : String) : Record :=
  ⟨.info, "Wrote " ++ toString s.log.length ++ " instructions for variables [" ++
    ", ".intercalate s.scope.sourceNames ++ "] to " ++ path⟩

/-- **Carry out a request.** The module is written only when the whole source compiles. -/
def run {m : Type → Type} [Monad m] (files : Files m) (r : Request) : m Outcome := do
  match ← (files.read r.source).run with
  | .error f => return { ending := .fileFault f, records := [r.opening] }
  | .ok content =>
    match decodeSource content with
    | .error f => return { ending := .fileFault f, records := [r.opening] }
    | .ok source =>
      match compile source with
      | .error f s => return f.outcome (r.opening :: r.trace s)
      | .ok _ s =>
        match r.output? with
        | none => return { ending := .noOutput, records := r.opening :: r.trace s }
        | some path =>
          match ← (files.write path (Module.text ⟨r.moduleId, s.code⟩)).run with
          | .error f => return { ending := .fileFault f, records := r.opening :: r.trace s }
          | .ok _ =>
            return { ending := .exit 0, records := r.opening :: r.trace s ++ [closing s path] }

end Request

/-- Carry out a command line. -/
def runCommand {m : Type → Type} [Monad m] (files : Files m) (args : List String) : m Outcome :=
  match Request.parse args with
  | .error halt => return halt.outcome
  | .ok request => request.run files

/-- The files of a file tree. -/
def FileTree.operations : Files (StateM FileTree) where
  read path := do
    match (← getThe FileTree).read path with
    | .ok content => return content
    | .error f => throw f
  write path text := FileTree.write path text.toUTF8

/-- **Carry out a command line on a file tree.** -/
def runOn (t : FileTree) (args : List String) : Outcome × FileTree :=
  (runCommand FileTree.operations args).run t

end Abacus
