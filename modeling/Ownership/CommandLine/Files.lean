import Ownership.CommandLine.Path

/-!
Files by name, and why one cannot be read. A tree lists the texts below a
working directory; the directories are those that its files lie in. Of what
lies outside, only the part that all systems share is known.
-/
namespace Ownership.CommandLine

inductive FileFault where
  | missing
  | isDirectory
  | notDirectory
  | nameTooLong
  | other (reason : String)
  deriving DecidableEq, Repr

def FileFault.message : FileFault → String
  | missing => "No such file or directory"
  | isDirectory => "Is a directory"
  | notDirectory => "Not a directory"
  | nameTooLong => "File name too long"
  | other reason => reason

/-- Texts under the parts of their paths, and directories that may hold none of them. -/
structure FileTree where
  files : List (List String × String) := []
  directories : List (List String) := []
  /-- The top of the tree has no directory above it. -/
  isRoot : Bool := false
  deriving Repr, Inhabited

namespace FileTree

/-- The most bytes that one part of a path may have. -/
def maxPart : Nat := 255

/-- The most bytes that a whole path may have. -/
def maxPath : Nat := 4095

def ofList (files : List (String × String)) : FileTree where
  files := files.map fun (path, text) => (Path.parts path, text)

/-- What every system has below its root: a few directories, and a file that is always empty. -/
def system : FileTree where
  files := [(["dev", "null"], "")]
  directories := [["bin"], ["etc"], ["home"], ["lib"], ["proc"], ["sys"], ["tmp"], ["usr"],
    ["usr", "bin"], ["usr", "lib"], ["var"]]
  isRoot := true

def text? (t : FileTree) (parts : List String) : Option String := t.files.lookup parts

def isDirectory (t : FileTree) (parts : List String) : Bool :=
  t.directories.contains parts ||
    t.files.any fun file => parts.isPrefixOf file.1 && parts.length < file.1.length

/-- Why a path cannot be read that leaves the tree: nothing but the directories above is known. -/
def outside : List String → FileFault
  | [] => .isDirectory
  | ".." :: rest => outside rest
  | part :: _ => if part.utf8ByteSize ≤ maxPart then .missing else .nameTooLong

/-- Follows the parts of a path from a directory of the tree. -/
def follow (t : FileTree) (here : List String) : List String → Except FileFault String
  | [] => .error .isDirectory
  | ".." :: rest =>
    if here.isEmpty && !t.isRoot then .error (outside rest) else t.follow here.dropLast rest
  | part :: rest =>
    let there := here ++ [part]
    if maxPart < part.utf8ByteSize then .error .nameTooLong
    else match t.text? there with
      | some text => if rest.isEmpty then .ok text else .error .notDirectory
      | none => if t.isDirectory there then t.follow there rest else .error .missing

def read (t : FileTree) (path : String) : Except FileFault String :=
  if maxPath < path.utf8ByteSize then .error .nameTooLong
  else (if Path.root path = "" then t else system).follow [] (Path.parts path)

end FileTree

end Ownership.CommandLine
