import Protean.Text.Grapheme

/-!
# Shell — Line

A line of input as it was typed.  A backspace takes back the grapheme cluster that stands before it;
where none is left, it does nothing.  The size of a cluster is kept in one byte, so of a cluster with
256 bytes or more only those beyond a multiple of 256 go, and a line is broken where that would cut a
character in two.
-/

namespace Protean.Shell.Line

def backspace : Char := Char.ofNat 8

/-- What is remembered of a cluster: its size in bytes, as far as one byte holds it. -/
def storedSize (cluster : List Char) : Nat := Text.byteLength cluster % 256

/-- Takes back the given number of bytes from characters that are newest first, unless that cuts one of
them in two. -/
def takeBack : Nat → List Char → Option (List Char)
  | 0, typed => some typed
  | _ + 1, [] => some []
  | n + 1, c :: typed =>
    if c.utf8Size ≤ n + 1 then takeBack (n + 1 - c.utf8Size) typed else none

/-- Types clusters one after the other.  What was typed is newest first, and so are the sizes of the
clusters that can be taken back. -/
def type? : List Nat → List Char → List (List Char) → Option (List Char)
  | _, typed, [] => some typed.reverse
  | sizes, typed, cluster :: rest =>
    if cluster = [backspace] then
      match sizes with
      | [] => type? [] typed rest
      | n :: sizes => do
        let typed ← takeBack n typed
        type? sizes typed rest
    else type? (storedSize cluster :: sizes) (cluster.reverse ++ typed) rest

/-- The line that is left when all backspaces have done their work; `none` for a broken line. -/
def read? (line : String) : Option String :=
  (type? [] [] (Text.Grapheme.clusters line.toList)).map String.ofList

/-- Without backspaces, a line is what was typed. -/
theorem type?_of_not_mem (sizes : List Nat) (typed : List Char) (clusters : List (List Char))
    (h : [backspace] ∉ clusters) :
    type? sizes typed clusters = some (typed.reverse ++ clusters.flatten) := by
  induction clusters generalizing sizes typed with
  | nil => simp [type?]
  | cons cluster rest ih =>
    simp only [List.mem_cons, not_or] at h
    simp [type?, Ne.symm h.1, ih _ _ h.2]

end Protean.Shell.Line
