import ObjectGraph.Json.Record
import ObjectGraph.Sparql.Token

/-!
# Settings

The settings that all compilations of a mapper share.
-/

namespace ObjectGraph

open Json (Value)

/-- The settings of a mapper. -/
structure Config where
  /-- Reject keys that no schema of a collection knows, instead of dropping them. -/
  strictProperties : Bool := false
  /-- How many follow-up queries may be under way at once. -/
  arrayFetchConcurrency : Nat := 1
  /-- The stem of the IRIs that stand for computed properties in a graph. -/
  localStem : String := "urn:local:"
  /-- Whether entities resolve their most specific type where they do not say. -/
  defaultResolveType : Bool := false
  /-- Whether queries are written with prefixes. -/
  emitPrefixes : Bool := true

namespace Config

/-- The default settings. -/
def standard : Config := {}

/-- Sets the number of concurrent follow-ups, at least one. -/
def withConcurrency (config : Config) (n : Nat) : Config :=
  { config with arrayFetchConcurrency := max n 1 }

/-- The IRI that stands for a computed property in a graph. -/
def localIri (config : Config) (key : String) : String :=
  config.localStem ++ key

/-- How queries are written under the settings. -/
def iriStyle (config : Config) (ns : Namespaces) : Sparql.IriStyle :=
  if config.emitPrefixes then .compact ns else .full

def fieldNames : List String :=
  ["strictProperties", "arrayFetchConcurrency", "localUrnPrefix", "defaultResolveType",
   "emitPrefixes"]

/-- Reads settings; what is absent keeps its default. -/
def ofJson? (v : Value) : Option Config := do
  match ← Json.fields? fieldNames v with
  | [strict, concurrency, stem, resolve, emit] => do
    some {
      strictProperties := ← Json.withDefault false Value.readBool? strict
      arrayFetchConcurrency := ← Json.withDefault 1 Value.readNat? concurrency
      localStem := ← Json.withDefault "urn:local:" Value.readText? stem
      defaultResolveType := ← Json.withDefault false Value.readBool? resolve
      emitPrefixes := ← Json.withDefault true Value.readBool? emit }
  | _ => none

def toJson (config : Config) : Value :=
  .obj [("strictProperties", .bool config.strictProperties),
    ("arrayFetchConcurrency", .ofNat config.arrayFetchConcurrency),
    ("localUrnPrefix", .str config.localStem),
    ("defaultResolveType", .bool config.defaultResolveType),
    ("emitPrefixes", .bool config.emitPrefixes)]

end Config

end ObjectGraph
