/-!
# Vocabulary

The IRIs of the RDF, RDF Schema and XML Schema vocabularies that queries and
results refer to, and the prefixes that every namespace map starts with.
-/

namespace ObjectGraph.Vocabulary

def rdfStem : String := "http://www.w3.org/1999/02/22-rdf-syntax-ns#"

def rdfsStem : String := "http://www.w3.org/2000/01/rdf-schema#"

def xsdStem : String := "http://www.w3.org/2001/XMLSchema#"

def rdfType : String := "http://www.w3.org/1999/02/22-rdf-syntax-ns#type"

def rdfLangString : String := "http://www.w3.org/1999/02/22-rdf-syntax-ns#langString"

def subClassOf : String := "http://www.w3.org/2000/01/rdf-schema#subClassOf"

def xsdString : String := "http://www.w3.org/2001/XMLSchema#string"

def xsdInteger : String := "http://www.w3.org/2001/XMLSchema#integer"

def xsdDecimal : String := "http://www.w3.org/2001/XMLSchema#decimal"

def xsdBoolean : String := "http://www.w3.org/2001/XMLSchema#boolean"

def xsdDateTime : String := "http://www.w3.org/2001/XMLSchema#dateTime"

/-- The datatypes whose values are integers. -/
def integerDatatypes : List String :=
  ["http://www.w3.org/2001/XMLSchema#integer",
   "http://www.w3.org/2001/XMLSchema#int",
   "http://www.w3.org/2001/XMLSchema#long",
   "http://www.w3.org/2001/XMLSchema#short",
   "http://www.w3.org/2001/XMLSchema#byte",
   "http://www.w3.org/2001/XMLSchema#nonNegativeInteger",
   "http://www.w3.org/2001/XMLSchema#positiveInteger",
   "http://www.w3.org/2001/XMLSchema#nonPositiveInteger",
   "http://www.w3.org/2001/XMLSchema#negativeInteger",
   "http://www.w3.org/2001/XMLSchema#unsignedLong",
   "http://www.w3.org/2001/XMLSchema#unsignedInt"]

/-- The datatypes whose values are decimal or floating point numbers. -/
def decimalDatatypes : List String :=
  ["http://www.w3.org/2001/XMLSchema#decimal",
   "http://www.w3.org/2001/XMLSchema#double",
   "http://www.w3.org/2001/XMLSchema#float"]

def isIntegerDatatype (iri : String) : Bool :=
  integerDatatypes.contains iri

def isDecimalDatatype (iri : String) : Bool :=
  decimalDatatypes.contains iri

/-- The prefixes that are known from the start, with their stems. -/
def defaultPrefixes : List (String × String) :=
  [("rdf", rdfStem), ("rdfs", rdfsStem), ("xsd", xsdStem),
   ("owl", "http://www.w3.org/2002/07/owl#"),
   ("sh", "http://www.w3.org/ns/shacl#"),
   ("dcterms", "http://purl.org/dc/terms/")]

end ObjectGraph.Vocabulary
