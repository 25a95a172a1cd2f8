import Abacus.Command.Run

/-!
# The command

The command line on the real file system.
-/

namespace Abacus

/-- The file fault that a failing operation reports, if it is one. -/
def FileFault.ofError? : IO.Error → Option FileFault
  | .noFileOrDirectory .. => some .missing
  | .alreadyExists .. => some .occupied
  | .inappropriateType .. => some .notFolder
  | _ => none

/-- An operation on real files. Failures that are no file faults are passed on. -/
def attempt {α : Type} (action : IO α) : ExceptT FileFault IO α :=
  ExceptT.mk do
    try return .ok (← action)
    catch e =>
      match FileFault.ofError? e with
      | some f => return .error f
      | none => throw e

/-- The real files. -/
def realFiles : Files IO where
  read path := attempt (IO.FS.readBinFile path)
  write path text := attempt do
    let folder := String.ofList (Path.split path.toList).1
    unless folder.isEmpty do IO.FS.createDirAll folder
    IO.FS.writeBinFile path text.toUTF8

/-- What ends the command other than an exit status, in words. -/
def Ending.report : Ending → String
  | .exit _ => ""
  | .fileFault .missing => "no such file or folder\n"
  | .fileFault .isFolder | .fileFault .notFolder =>
    "a file stands where a folder is needed, or a folder where a file is\n"
  | .fileFault .occupied => "a file stands where a folder should be made\n"
  | .fileFault .tooLong => "the path is too long\n"
  | .fileFault .notText => "the source is not UTF-8\n"
  | ending => (ending.message?.map (· ++ "\n")).getD ""

end Abacus

open Abacus in
/-- Carry out the command line, print what it prints, and end with its status. -/
def main (args : List String) : IO UInt32 := do
  let outcome ← runCommand realFiles args
  IO.print outcome.stdout
  IO.eprint (outcome.stderr ++ outcome.ending.report)
  match outcome.ending with
  | .exit status => return status.toUInt32
  | _ => return 1
