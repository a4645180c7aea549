import TypedNotation.Double

/-!
# Values

A value is what a document means once its layout is forgotten: a scalar, a dict of named values in
the order in which they were written, an array, a tuple, or an enum value with its tag and, unless
it is a unit, a payload.

`Value.same` compares values by meaning: floats by number, so a NaN differs from itself and the two
zeros agree, and dicts without regard to order.
-/

namespace TypedNotation

/-- The kinds of scalars. -/
inductive Primitive where
  | int
  | float
  | boolean
  | string
  deriving DecidableEq, Inhabited

namespace Primitive

/-- The name of the kind in messages and type listings. -/
def name : Primitive → String
  | int => "int"
  | float => "float"
  | boolean => "boolean"
  | string => "string"

end Primitive

/-- A literal value. -/
inductive Scalar where
  | int (value : Int64)
  | float (value : Double)
  | boolean (value : Bool)
  | string (value : String)
  deriving DecidableEq, Inhabited

namespace Scalar

/-- The kind of a scalar. -/
def primitive : Scalar → Primitive
  | int _ => .int
  | float _ => .float
  | boolean _ => .boolean
  | string _ => .string

/-- Equality by meaning. -/
def same : Scalar → Scalar → Bool
  | int a, int b => a == b
  | float a, float b => a.numEq b
  | boolean a, boolean b => a == b
  | string a, string b => a == b
  | _, _ => false

end Scalar

/-- What a document means. -/
inductive Value where
  | scalar (scalar : Scalar)
  | dict (entries : List (String × Value))
  | array (items : List Value)
  | tuple (items : List Value)
  | enum (tag : String) (payload : Option Value)
  deriving Inhabited

namespace Value

mutual

/-- Equality by meaning. -/
def same : Value → Value → Bool
  | scalar a, scalar b => a.same b
  | dict es, dict fs => es.length == fs.length && sameEntries es fs
  | array as, array bs => sameItems as bs
  | tuple as, tuple bs => sameItems as bs
  | enum t none, enum u none => t == u
  | enum t (some a), enum u (some b) => t == u && a.same b
  | _, _ => false

/-- Whether every entry is found among others, under its key and with the same value. -/
def sameEntries : List (String × Value) → List (String × Value) → Bool
  | [], _ => true
  | (k, a) :: es, fs =>
    (match fs.lookup k with
      | some b => a.same b
      | none => false) && sameEntries es fs

/-- Equality by meaning, item by item. -/
def sameItems : List Value → List Value → Bool
  | [], [] => true
  | a :: as, b :: bs => a.same b && sameItems as bs
  | _, _ => false

end

end Value

end TypedNotation
