/-!
# Vocabularies of config documents

The IRIs that give a config document its meaning, one namespace per vocabulary.

- `Xsd`: the datatypes of literals.
- `Rdf`, `Rdfs`: type tags, the JSON datatype, and the declared range of a parameter.
- `Components`: the vocabulary of components, their arguments and their parameter ranges.
- `Dependency`: the two predicates that a numbered construction looks at.

Each namespace lists its terms in `all`, in the order in which they are declared.
-/

namespace Wiring

namespace Xsd

/-- The common beginning of the datatypes. -/
def namespaceIri : String := "http://www.w3.org/2001/XMLSchema#"

def string : String := namespaceIri ++ "string"
def boolean : String := namespaceIri ++ "boolean"
def integer : String := namespaceIri ++ "integer"
def number : String := namespaceIri ++ "number"
def int : String := namespaceIri ++ "int"
def byte : String := namespaceIri ++ "byte"
def long : String := namespaceIri ++ "long"
def float : String := namespaceIri ++ "float"
def decimal : String := namespaceIri ++ "decimal"
def double : String := namespaceIri ++ "double"

/-- The terms in order of declaration. -/
def all : List String :=
  [string, boolean, integer, number, int, byte, long, float, decimal, double]

end Xsd

namespace Rdf

/-- The common beginning of the terms. -/
def namespaceIri : String := "http://www.w3.org/1999/02/22-rdf-syntax-ns#"

/-- The predicate that tags a resource with a type. -/
def type : String := namespaceIri ++ "type"

/-- The datatype of literals that hold JSON text. -/
def json : String := namespaceIri ++ "JSON"

/-- The terms in order of declaration. -/
def all : List String := [type, json]

end Rdf

namespace Rdfs

/-- The predicate that gives a parameter its range. -/
def range : String := "http://www.w3.org/2000/01/rdf-schema#range"

/-- The terms in order of declaration. -/
def all : List String := [range]

end Rdfs

namespace Components

/-- The common beginning of the terms. -/
def namespaceIri : String :=
  "https://linkedsoftwaredependencies.org/vocabularies/object-oriented#"

/-- The name of the component that a config builds. -/
def requireName : String := namespaceIri ++ "requireName"
/-- The part of the component that is used, if not all of it. -/
def requireElement : String := namespaceIri ++ "requireElement"
/-- Whether the component is used without constructing it. -/
def requireNoConstructor : String := namespaceIri ++ "requireNoConstructor"
/-- The arguments of a config. -/
def arguments : String := namespaceIri ++ "arguments"
/-- The parameter that an argument is bound to. -/
def parameter : String := namespaceIri ++ "parameter"
/-- The value that an argument binds. -/
def value : String := namespaceIri ++ "value"
/-- The type of resources that settings resolve. -/
def variableType : String := namespaceIri ++ "Variable"

/-- The range or term that a range wraps. -/
def parameterRangeValue : String := namespaceIri ++ "parameterRangeValue"
/-- The members of a composite range. -/
def parameterRangeElements : String := namespaceIri ++ "parameterRangeElements"

/-! The types of range resources. -/

def rangeUndefined : String := namespaceIri ++ "ParameterRangeUndefined"
def rangeArray : String := namespaceIri ++ "ParameterRangeArray"
def rangeRest : String := namespaceIri ++ "ParameterRangeRest"
def rangeTuple : String := namespaceIri ++ "ParameterRangeTuple"
def rangeUnion : String := namespaceIri ++ "ParameterRangeUnion"
def rangeIntersection : String := namespaceIri ++ "ParameterRangeIntersection"
def rangeLiteral : String := namespaceIri ++ "ParameterRangeLiteral"
def rangeCollectEntries : String := namespaceIri ++ "ParameterRangeCollectEntries"

/-- The terms in order of declaration. -/
def all : List String :=
  [requireName, requireElement, requireNoConstructor, arguments, parameter, value, variableType,
    parameterRangeValue, parameterRangeElements,
    rangeUndefined, rangeArray, rangeRest, rangeTuple, rangeUnion, rangeIntersection,
    rangeLiteral, rangeCollectEntries]

end Components

namespace Dependency

/-- The configs that a config needs, in order. -/
def dep : String := "ex:dep"

/-- Marks a config whose construction may fail while failures are left. -/
def flaky : String := "ex:flaky"

end Dependency

end Wiring
