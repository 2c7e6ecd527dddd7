import Ownership.Source.Reader
import Ownership.Text.Lines
import Ownership.Verdict

/-!
Scenarios: short texts that are checked after a fixed set of declarations, so
that they can call what most of them need without declaring it.
-/
namespace Ownership.Scenario

def declarations : String :=
  "\n" ++
  "struct Resource \x7b id: Int \x7d\n" ++
  "struct Pair \x7b a: Int, b: Int \x7d\n" ++
  "struct Two \x7b r: Resource, k: Int \x7d\n" ++
  "enum Opt \x7b Some(Resource), None \x7d\n" ++
  "\n" ++
  "extern fn read(r: &Int);\n" ++
  "extern fn write(r: &mut Int);\n" ++
  "extern fn use_int(v: Int);\n" ++
  "extern fn consume(r: Resource);\n" ++
  "extern fn inspect(r: &Resource);\n" ++
  "extern fn inspect_opt(o: &Opt);\n" ++
  "extern fn consume_opt(o: Opt);\n"

/-- The name that scenarios have in messages. -/
def file : String := "<test>"

/-- The text that is checked. -/
def text (source : String) (declared : Bool) : String :=
  if declared then declarations ++ source else source

def read (source : String) (declared : Bool) : Read Program :=
  readProgram (text source declared) (some file)

/-- The line of the checked text on which a needle is first found. -/
def lineOf? (source needle : String) (declared : Bool) : Option Nat :=
  Lines.lineOf? (text source declared) needle

end Ownership.Scenario
