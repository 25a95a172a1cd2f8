/-!
# Paths

A path is a text whose components are separated by slashes. The extension of its last component
begins at the last dot that does not stand among the leading dots.

## Main definitions

* `Path.split`: a path as a folder part, up to the last slash, and a last component
* `Path.stem`: a last component without its extension
* `Path.dropExtension`: a path without its extension
* `Path.defaultOutput`, `Path.defaultModuleId`: what a source's path says about its module
* `Path.segments`: the texts between the slashes

## Main results

* `Path.split_append`: the two parts make up the path
-/

namespace Abacus.Path

/-- The part of a path through its last slash, and what follows that slash. -/
def split (path : List Char) : List Char × List Char :=
  ((path.reverse.dropWhile (· ≠ '/')).reverse, (path.reverse.takeWhile (· ≠ '/')).reverse)

@[simp] theorem split_append (path : List Char) : (split path).1 ++ (split path).2 = path := by
  rw [split, ← List.reverse_append, List.takeWhile_append_dropWhile, List.reverse_reverse]

/-- A last component without its extension: what stands before its last dot, unless only dots stand
before that dot. -/
def stem (base : List Char) : List Char :=
  let dots := base.takeWhile (· = '.')
  let name := base.dropWhile (· = '.')
  match name.reverse.dropWhile (· ≠ '.') with
  | [] => base
  | _ :: front => dots ++ front.reverse

/-- A path without the extension of its last component. -/
def dropExtension (path : List Char) : List Char :=
  (split path).1 ++ stem (split path).2

/-- Where the module of a source is written by default: the extension is replaced by `.ll`. -/
def defaultOutput (source : String) : String :=
  String.ofList (dropExtension source.toList) ++ ".ll"

/-- The name of a source's module by default: its last component without extension. -/
def defaultModuleId (source : String) : String :=
  String.ofList (stem (split source.toList).2)

/-- The texts between the slashes of a path, one more than there are slashes. -/
def segments : List Char → List (List Char)
  | [] => [[]]
  | c :: cs => if c = '/' then [] :: segments cs else (segments cs).modifyHead (c :: ·)

end Abacus.Path
