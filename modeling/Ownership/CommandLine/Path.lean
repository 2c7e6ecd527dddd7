/-!
Paths as the command line prints them: without empty and single-dot parts. Two
slashes in front are kept apart from one, and more than two count as one.
-/
namespace Ownership.CommandLine.Path

/-- Splits a text at its slashes; `part` is the open part, reversed. -/
def partsFrom (part : List Char) : List Char → List (List Char)
  | [] => [part.reverse]
  | c :: rest => if c = '/' then part.reverse :: partsFrom [] rest else partsFrom (c :: part) rest

/-- The parts of a path that name something. -/
def parts (path : String) : List String :=
  ((partsFrom [] path.toList).map String.ofList).filter fun part => part ≠ "" && part ≠ "."

def root (path : String) : String :=
  match (path.toList.takeWhile (· = '/')).length with
  | 0 => ""
  | 2 => "//"
  | _ => "/"

def normalize (path : String) : String :=
  let text := root path ++ "/".intercalate (parts path)
  if text = "" then "." else text

end Ownership.CommandLine.Path
