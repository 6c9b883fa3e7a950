/-!
# Configuration of a compiler

## What is here

* `Config`: the names of the root types and the limits of an executable schema, with defaults.
* `Config.check`: the first thing wrong with a configuration, if any.
-/

set_option autoImplicit false

namespace ApiGraph

/-- Names of the root types and limits on the queries of an executable schema. -/
structure Config where
  /-- Name of the query type. -/
  queryTypeName : String := "Query"
  /-- Name of the mutation type. -/
  mutationTypeName : String := "Mutation"
  /-- How deep fields of a query may be nested. -/
  maxDepth : Nat := 15
  /-- How many fields a query may have. -/
  maxComplexity : Nat := 500
  /-- Whether a query may ask for the schema. -/
  introspection : Bool := true
deriving DecidableEq, Repr

/-- What can be wrong with a configuration. -/
inductive ConfigError where
  | emptyQueryName
  | emptyMutationName
  | sameNames
  | zeroDepth
  | zeroComplexity
deriving DecidableEq, Repr

/-- The text of a configuration error. -/
def ConfigError.message : ConfigError → String
  | .emptyQueryName => "schema.query_type_name must not be empty"
  | .emptyMutationName => "schema.mutation_type_name must not be empty"
  | .sameNames => "schema.query_type_name and schema.mutation_type_name must differ"
  | .zeroDepth => "schema.max_depth must be > 0"
  | .zeroComplexity => "schema.max_complexity must be > 0"

/-- Whether a character is white space: one of the 25 code points with that property. -/
def isBlank (c : Char) : Bool :=
  let n := c.toNat
  (0x09 ≤ n && n ≤ 0x0d) || n == 0x20 || n == 0x85 || n == 0xa0 || n == 0x1680 ||
    (0x2000 ≤ n && n ≤ 0x200a) || n == 0x2028 || n == 0x2029 || n == 0x202f || n == 0x205f ||
    n == 0x3000

namespace Config

/-- The first error of a configuration: names must differ and not be blank, limits be positive. -/
def check (c : Config) : Except ConfigError Unit :=
  if c.queryTypeName.toList.all isBlank then .error .emptyQueryName
  else if c.mutationTypeName.toList.all isBlank then .error .emptyMutationName
  else if c.queryTypeName = c.mutationTypeName then .error .sameNames
  else if c.maxDepth = 0 then .error .zeroDepth
  else if c.maxComplexity = 0 then .error .zeroComplexity
  else .ok ()

end Config

end ApiGraph
