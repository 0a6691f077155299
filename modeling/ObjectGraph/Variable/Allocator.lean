import ObjectGraph.Sparql.Term

/-!
# Names for variables

An allocator knows the names that a query uses and those that are shared, that
is, chosen by the user.  `fresh` gives a name that was not used before, `share`
gives the user's name itself, and `join` gives the user's name if it was shared
and a fresh one otherwise.  All names consist of ASCII letters, digits and
underscores.
-/

namespace ObjectGraph

open Sparql (Var)

/-- The names in use, and those among them that the user chose. -/
structure Allocator where
  used : List String
  shared : List String

namespace Allocator

/-- The allocator of a new query. -/
def empty : Allocator := ⟨[], []⟩

/-- Whether a character marks a variable or a keyword in front of a name. -/
def isSigil (c : Char) : Bool :=
  c == '?' || c == '$' || c == '@'

/-- Whether a character may stand in a name. -/
def isNameChar (c : Char) : Bool :=
  c.isAlphanum || c == '_'

/-- The name a text stands for: without sigils in front, with an underscore for
each character that may not stand in a name, and `v` if nothing is left. -/
def nameOf (s : String) : String :=
  match s.toList.dropWhile isSigil with
  | [] => "v"
  | cs => String.ofList (cs.map fun c => if isNameChar c then c else '_')

/-- The `n`-th alternative to a name. -/
def alternative (base : String) (n : Nat) : String :=
  base ++ "_" ++ toString n

/-- The first alternative from the `n`-th on that is not among the names.  Each
one found is taken out of the list, so the search ends. -/
def firstFree (names : List String) (base : String) (n : Nat) : String :=
  if alternative base n ∈ names then
    firstFree (names.erase (alternative base n)) base (n + 1)
  else alternative base n
  termination_by names.length
  decreasing_by
    have := List.length_pos_of_mem ‹_›
    simp [List.length_erase_of_mem ‹_›]
    omega

/-- A name that was not used before: the one asked for, or an alternative. -/
def fresh (a : Allocator) (s : String) : Var × Allocator :=
  let base := nameOf s
  let name := if base ∈ a.used then firstFree a.used base 1 else base
  (⟨name⟩, { a with used := name :: a.used })

/-- The name itself, from now on shared. -/
def share (a : Allocator) (s : String) : Var × Allocator :=
  let name := nameOf s
  (⟨name⟩, ⟨name :: a.used, name :: a.shared⟩)

/-- Whether the name was used. -/
def isUsed (a : Allocator) (name : String) : Bool :=
  a.used.contains name

/-- Whether the name that a text stands for was shared. -/
def isShared (a : Allocator) (s : String) : Bool :=
  a.shared.contains (nameOf s)

/-- The shared name, or a fresh one if the name was not shared. -/
def join (a : Allocator) (s : String) : Var × Allocator :=
  if a.isShared s then (⟨nameOf s⟩, a) else a.fresh (nameOf s)

end Allocator

end ObjectGraph
