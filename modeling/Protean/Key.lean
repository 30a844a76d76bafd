/-!
# Key

The keys of object fields.  A name and an index are different keys even when they read alike, and the
name `proto` stands for the link of an object to its prototype.
-/

namespace Protean

inductive Key where
  | name (text : String)
  | index (n : Nat)
deriving DecidableEq, Inhabited

namespace Key

/-- The reserved key of the prototype link. -/
def proto : Key := .name "proto"

def render : Key → String
  | .name text => text
  | .index n => toString n

end Key

end Protean
