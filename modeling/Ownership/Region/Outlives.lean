import Ownership.Signature

/-!
The outlives relation: what is declared, every region and itself, the static
region and every other, and what follows by chaining these. Chaining goes in
rounds, and the first round that adds nothing is the last.
-/
namespace Ownership

abbrev Outlives := List (String × String)

namespace Outlives

def holds (r : Outlives) (longer shorter : String) : Bool := r.contains (longer, shorter)

/-- Adds the pairs that do not belong to the relation yet. -/
def union (r more : Outlives) : Outlives :=
  more.foldl (fun r p => if r.contains p then r else r ++ [p]) r

/-- The relations that hold at once, before any chaining. -/
def base (params : List String) (declared : Outlives) : Outlives :=
  let names := staticRegion :: params
  union [] (names.map (fun n => (n, n)) ++ names.map (fun n => (staticRegion, n)) ++ declared)

/-- What a pair makes with the pairs that go on where it ends. -/
def extensions (r : Outlives) (p : String × String) : Outlives :=
  (r.filter (·.1 = p.2)).map fun q => (p.1, q.2)

/-- Extends the given pairs in turn, each by all that is there when its turn comes. -/
def extendAll (r pairs : Outlives) : Outlives := pairs.foldl (fun r p => r.union (r.extensions p)) r

/-- One round of chaining extends the pairs that were there before it. -/
def round (r : Outlives) : Outlives := r.extendAll r

/-- Goes round until a round adds nothing, at most this many times. -/
def settle : Nat → Outlives → Outlives
  | 0, r => r
  | n + 1, r =>
    let next := r.round
    if next = r then r else settle n next

/-- No relation between the names of a relation has more pairs. -/
def pairBound (r : Outlives) : Nat := r.length * r.length

/-- The declared relation closed under chaining. -/
def closure (params : List String) (declared : Outlives) : Outlives :=
  let r := base params declared
  r.settle r.pairBound

end Outlives

end Ownership
