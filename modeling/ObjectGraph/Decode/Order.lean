import ObjectGraph.Compile.Fragment
import ObjectGraph.Json.Printer

/-!
# The order of objects

Objects are compared key by key: numbers by value, everything else by its text,
and a missing value comes first.  Sorting puts each object behind those in front
of it that it does not precede, so equals keep their order.
-/

namespace ObjectGraph.Decode

open Json (Value Object Number)

/-- A number as a double. -/
def asDouble? : Number → Option Binary64
  | .int i => Binary64.ofInt? i
  | .double x => some x

/-- The order of numbers by value. -/
def compareNumbers (m n : Number) : Ordering :=
  match asDouble? m, asDouble? n with
  | some x, some y => x.compare y
  | _, _ => .eq

/-- The text by which a value is compared: that of a string, else the JSON text. -/
def sortText : Value → String
  | .str s => s
  | v => v.text

/-- The order of values, a missing one first. -/
def compareValues : Option Value → Option Value → Ordering
  | some (.num m), some (.num n) => compareNumbers m n
  | some v, some w => compare (sortText v) (sortText w)
  | none, some _ => .lt
  | some _, none => .gt
  | none, none => .eq

/-- The order of objects by keys, the later ones deciding between equals. -/
def compareObjects (keys : List OrderKey) (a b : Object) : Ordering :=
  match keys with
  | [] => .eq
  | k :: rest =>
    let order := compareValues (a.get? k.key) (b.get? k.key)
    (if k.descending then order.swap else order).then (compareObjects rest a b)

/-- Inserts an object into a list that ends with the first in order. -/
def insertSorted {α : Type} (precedes : α → α → Bool) (a : α) : List α → List α
  | [] => [a]
  | b :: rest => if precedes a b then b :: insertSorted precedes a rest else a :: b :: rest

/-- Sorts a list, equals in their order. -/
def sortBy {α : Type} (precedes : α → α → Bool) (xs : List α) : List α :=
  (xs.foldl (fun sorted a => insertSorted precedes a sorted) []).reverse

/-- An order key as a key of the root's objects: a variable stands for the key
that it is the variable of, or for itself. -/
def resolveKey (root : Fragment) (k : OrderKey) : OrderKey :=
  match Sparql.sharedName? k.key with
  | some name => { k with key := (root.props.key? name).getD name }
  | none => k

/-- Sorts objects that go with other data. -/
def sortObjects {α : Type} (keys : List OrderKey) (root : Fragment)
    (objects : List (α × Object)) : List (α × Object) :=
  let keys := keys.map (resolveKey root)
  if keys.isEmpty then objects
  else sortBy (fun a b => compareObjects keys a.2 b.2 == .lt) objects

end ObjectGraph.Decode
