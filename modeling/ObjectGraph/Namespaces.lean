import ObjectGraph.Iri
import ObjectGraph.Vocabulary

/-!
# Namespace maps

Prefix names with their stems, in the order of the names.  `split?` takes the
longest stem in front of an IRI and, among equal stems, the first name;
`expand` reads `p:rest` back.  Both directions return a text that has no other
form as it stands.
-/

namespace ObjectGraph

/-- Prefix names with their stems, in ascending order of the names. -/
structure Namespaces where
  entries : List (String × String)
  sorted : entries.Pairwise (fun a b => a.1 < b.1)

namespace Namespaces

/-- The map without any prefix. -/
def empty : Namespaces := ⟨[], .nil⟩

/-- Sets a prefix in an ordered list of entries. -/
def insertEntry (name stem : String) : List (String × String) → List (String × String)
  | [] => [(name, stem)]
  | e :: rest =>
    if name < e.1 then (name, stem) :: e :: rest
    else if name = e.1 then (name, stem) :: rest
    else e :: insertEntry name stem rest

theorem mem_insertEntry {name stem : String} {es : List (String × String)}
    {e : String × String} (h : e ∈ insertEntry name stem es) : e = (name, stem) ∨ e ∈ es := by
  induction es with
  | nil => simpa [insertEntry] using h
  | cons a rest ih =>
    grind [insertEntry]

theorem pairwise_insertEntry {name stem : String} {es : List (String × String)}
    (h : es.Pairwise (fun a b => a.1 < b.1)) :
    (insertEntry name stem es).Pairwise (fun a b => a.1 < b.1) := by
  induction es with
  | nil => simp [insertEntry]
  | cons a rest ih =>
    obtain ⟨ha, hrest⟩ := List.pairwise_cons.1 h
    unfold insertEntry
    split
    next hlt =>
      refine List.pairwise_cons.2 ⟨?_, h⟩
      intro b hb
      rcases List.mem_cons.1 hb with rfl | hb
      · exact hlt
      · exact String.lt_trans hlt (ha b hb)
    next hge =>
      split
      next heq =>
        exact List.pairwise_cons.2 ⟨fun b hb => heq ▸ ha b hb, hrest⟩
      next hne =>
        refine List.pairwise_cons.2 ⟨fun b hb => ?_, ih hrest⟩
        rcases mem_insertEntry hb with rfl | hb
        · exact Decidable.byContradiction fun h =>
            hne (String.le_antisymm (String.not_lt.1 h) (String.not_lt.1 hge))
        · exact ha b hb

/-- Sets a prefix. -/
def insert (ns : Namespaces) (name stem : String) : Namespaces :=
  ⟨insertEntry name stem ns.entries, pairwise_insertEntry ns.sorted⟩

/-- Sets prefixes one after the other. -/
def insertAll (ns : Namespaces) (entries : List (String × String)) : Namespaces :=
  entries.foldl (fun ns e => ns.insert e.1 e.2) ns

/-- The map that is known from the start. -/
def defaults : Namespaces :=
  empty.insertAll Vocabulary.defaultPrefixes

/-- The map with one prefix for the names of examples. -/
def exampleOrg : Namespaces :=
  empty.insert "ex" "http://example.org/"

/-- Takes over every prefix of another map. -/
def merge (ns other : Namespaces) : Namespaces :=
  ns.insertAll other.entries

/-- The stem of a prefix name. -/
def get? (ns : Namespaces) (name : String) : Option String :=
  (ns.entries.find? (·.1 == name)).map (·.2)

/-- The number of prefixes. -/
def size (ns : Namespaces) : Nat :=
  ns.entries.length

/-- The prefix and the part behind it that stand for an entry's stem in front of
an IRI. -/
def candidate? (iri : String) (entry : String × String) : Option (String × String) :=
  if entry.2.isEmpty then none
  else (Iri.localPart? entry.2 iri).map fun rest => (entry.1, rest)

/-- Splits an IRI at the longest stem in front of it into the prefix of the stem
and the part behind it, which is not empty and does not start with `//`. -/
def split? (ns : Namespaces) (iri : String) : Option (String × String) :=
  Iri.shortest? (ns.entries.filterMap (candidate? iri))

/-- The compact form of an IRI, or the IRI itself. -/
def abbreviate (ns : Namespaces) (iri : String) : String :=
  match ns.split? iri with
  | some (name, rest) => name ++ ":" ++ rest
  | none => iri

/-- The IRI of a compact form, or the text itself. -/
def expand (ns : Namespaces) (s : String) : String :=
  match Iri.compactParts? s with
  | none => s
  | some (name, rest) =>
    match ns.get? name with
    | some stem => stem ++ rest
    | none => s

end Namespaces

end ObjectGraph
