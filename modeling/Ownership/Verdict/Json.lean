import Ownership.Json
import Ownership.Verdict

/-!
Diagnostics and verdicts as JSON values.
-/
namespace Ownership

def Related.toJson (r : Related) : Json :=
  .obj [("label", .str r.label), ("file", .optionalText r.span.file),
    ("line", .optionalInt r.span.line), ("column", .optionalInt r.span.column)]

def Diagnostic.toJson (d : Diagnostic) : Json :=
  .obj [("phase", .optionalText d.phase), ("kind", .optionalText d.code), ("message", .str d.message),
    ("severity", .str d.severity), ("file", .optionalText d.span.file),
    ("line", .optionalInt d.span.line), ("column", .optionalInt d.span.column),
    ("related", .arr (d.related.map Related.toJson)), ("notes", .texts d.notes)]

def Extent.toJson (e : Extent) : Json :=
  .obj [("points", .texts ((Point.sort e.points).map Point.render)), ("ends", .texts (sortTexts e.ends))]

def Verdict.toJson (v : Verdict) : Json :=
  .obj [("name", .str v.name), ("accepted", .bool v.accepted),
    ("contract_error", .optionalText v.contractError),
    ("diagnostics", .arr (v.diagnostics.map Diagnostic.toJson)),
    ("warnings", .arr (v.warnings.map Diagnostic.toJson)),
    ("regions", .obj (v.regions.entries.map fun (name, e) => (name, e.toJson)))]

end Ownership
