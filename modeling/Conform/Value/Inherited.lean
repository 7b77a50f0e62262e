import Conform.Value.Store

/-!
# Attributes from classes

A value has the operators and the methods of its class as attributes. They are found, and they are not looked into:
each is a sealed object, which tells its class, its name and, of an atom, the atom it belongs to. Operators have names
with underscores around them, and every value has those of `commonOperators`.
-/

namespace Conform

/-- The operators that every value has. -/
def commonOperators : List String :=
  ["__delattr__", "__eq__", "__ge__", "__getattribute__", "__gt__", "__hash__", "__init__", "__le__", "__lt__",
   "__ne__", "__repr__", "__setattr__", "__str__"]

/-- The methods that every value has. -/
def commonMethods : List String :=
  ["__dir__", "__format__", "__getstate__", "__init_subclass__", "__new__", "__reduce__", "__reduce_ex__",
   "__sizeof__", "__subclasshook__"]

/-- The operators that the values of a class have beside the common ones. -/
def operatorsOf : (className : String) → List String
  | "NoneType" =>
    ["__bool__"]
  | "bool" | "int" =>
    ["__abs__", "__add__", "__and__", "__bool__", "__divmod__", "__float__", "__floordiv__", "__index__", "__int__",
     "__invert__", "__lshift__", "__mod__", "__mul__", "__neg__", "__or__", "__pos__", "__pow__", "__radd__",
     "__rand__", "__rdivmod__", "__rfloordiv__", "__rlshift__", "__rmod__", "__rmul__", "__ror__", "__rpow__",
     "__rrshift__", "__rshift__", "__rsub__", "__rtruediv__", "__rxor__", "__sub__", "__truediv__", "__xor__"]
  | "float" =>
    ["__abs__", "__add__", "__bool__", "__divmod__", "__float__", "__floordiv__", "__int__", "__mod__", "__mul__",
     "__neg__", "__pos__", "__pow__", "__radd__", "__rdivmod__", "__rfloordiv__", "__rmod__", "__rmul__",
     "__rpow__", "__rsub__", "__rtruediv__", "__sub__", "__truediv__"]
  | "str" | "bytes" =>
    ["__add__", "__contains__", "__getitem__", "__iter__", "__len__", "__mod__", "__mul__", "__rmod__", "__rmul__"]
  | "tuple" =>
    ["__add__", "__contains__", "__getitem__", "__iter__", "__len__", "__mul__", "__rmul__"]
  | "list" =>
    ["__add__", "__contains__", "__delitem__", "__iadd__", "__imul__", "__iter__", "__len__", "__mul__", "__rmul__",
     "__setitem__"]
  | "type" | "EnumType" => ["__call__", "__or__", "__ror__"]
  | "set" =>
    ["__and__", "__iand__", "__ior__", "__isub__", "__iter__", "__ixor__", "__len__", "__or__", "__rand__",
     "__ror__", "__rsub__", "__rxor__", "__sub__", "__xor__"]
  | _ => []

/-- The methods that the values of a class have beside the common ones. -/
def methodsOf : (className : String) → List String
  | "bool" | "int" =>
    ["__ceil__", "__floor__", "__getnewargs__", "__round__", "__trunc__", "as_integer_ratio", "bit_count",
     "bit_length", "conjugate", "from_bytes", "to_bytes"]
  | "float" =>
    ["__ceil__", "__floor__", "__getformat__", "__getnewargs__", "__round__", "__trunc__", "as_integer_ratio",
     "conjugate", "fromhex", "hex", "is_integer"]
  | "str" =>
    ["__getnewargs__", "capitalize", "casefold", "center", "count", "encode", "endswith", "expandtabs", "find",
     "format", "format_map", "index", "isalnum", "isalpha", "isascii", "isdecimal", "isdigit", "isidentifier",
     "islower", "isnumeric", "isprintable", "isspace", "istitle", "isupper", "join", "ljust", "lower", "lstrip",
     "maketrans", "partition", "removeprefix", "removesuffix", "replace", "rfind", "rindex", "rjust", "rpartition",
     "rsplit", "rstrip", "split", "splitlines", "startswith", "strip", "swapcase", "title", "translate", "upper",
     "zfill"]
  | "bytes" =>
    ["__bytes__", "__getnewargs__", "capitalize", "center", "count", "decode", "endswith", "expandtabs", "find",
     "fromhex", "hex", "index", "isalnum", "isalpha", "isascii", "isdigit", "islower", "isspace", "istitle",
     "isupper", "join", "ljust", "lower", "lstrip", "maketrans", "partition", "removeprefix", "removesuffix",
     "replace", "rfind", "rindex", "rjust", "rpartition", "rsplit", "rstrip", "split", "splitlines", "startswith",
     "strip", "swapcase", "title", "translate", "upper", "zfill"]
  | "tuple" =>
    ["__class_getitem__", "__getnewargs__", "count", "index"]
  | "list" =>
    ["__class_getitem__", "__getitem__", "__reversed__", "append", "clear", "copy", "count", "extend", "index",
     "insert", "pop", "remove", "reverse", "sort"]
  | "type" | "EnumType" => ["__instancecheck__", "__prepare__", "__subclasscheck__", "__subclasses__", "mro"]
  | "set" =>
    ["__class_getitem__", "__contains__", "add", "clear", "copy", "difference", "difference_update", "discard",
     "intersection", "intersection_update", "isdisjoint", "issubset", "issuperset", "pop", "remove",
     "symmetric_difference", "symmetric_difference_update", "union", "update"]
  | _ => []

/-- An operator or a method, as an object that is not looked into. -/
def methodObject (className name shown : String) : Value :=
  .atom (.sealed ⟨className, name, shown, [("__name__", .text name)], false⟩)

/-- What a class passes on to its values under a name. The text of the value tells its methods from those of other
values. -/
def inherited? (className shown name : String) : Option Value :=
  let owner := " of " ++ className ++ " object" ++ (if shown = "" then "" else " at " ++ shown) ++ ">"
  if name = "__class__" then some (.atom (.sealed ⟨"type", className, "<class '" ++ className ++ "'>", [], false⟩))
  else if name = "__doc__" then some (.text ("documentation of " ++ className))
  else if name = "__hash__" && (className = "list" || className = "set") then some .null
  else if name ∈ commonOperators || name ∈ operatorsOf className then
    some (methodObject "method-wrapper" name ("<method-wrapper '" ++ name ++ "'" ++ owner))
  else if name ∈ commonMethods || name ∈ methodsOf className then
    some (methodObject "builtin_function_or_method" name ("<built-in method " ++ name ++ owner))
  else none

/-- The operator or the method of a class that is taken from the class itself. -/
def unbound? (className name : String) : Option Value :=
  let owner := " '" ++ name ++ "' of '" ++ className ++ "' objects>"
  if name ∈ operatorsOf className then some (methodObject "wrapper_descriptor" name ("<slot wrapper" ++ owner))
  else if name ∈ methodsOf className then some (methodObject "method_descriptor" name ("<method" ++ owner))
  else none

/-- What a class can pass on: a constant, or a sealed object that takes no attributes. -/
def Atom.IsInherent : Atom → Prop
  | .null | .text _ | .int _ => True
  | .sealed o => o.isOpen = false
  | _ => False

variable {className shown name : String} {x : Value}

theorem inherited?_inherent (h : inherited? className shown name = some x) :
    ∃ a : Atom, x = .atom a ∧ a.IsInherent := by
  simp only [inherited?] at h
  split at h
  · exact ⟨_, (Option.some.inj h).symm, rfl⟩
  split at h
  · exact ⟨_, (Option.some.inj h).symm, trivial⟩
  split at h
  · exact ⟨_, (Option.some.inj h).symm, trivial⟩
  split at h
  · exact ⟨_, (Option.some.inj h).symm, rfl⟩
  split at h
  · exact ⟨_, (Option.some.inj h).symm, rfl⟩
  · cases h

theorem unbound?_inherent (h : unbound? className name = some x) : ∃ a : Atom, x = .atom a ∧ a.IsInherent := by
  simp only [unbound?] at h
  split at h
  · exact ⟨_, (Option.some.inj h).symm, rfl⟩
  split at h
  · exact ⟨_, (Option.some.inj h).symm, rfl⟩
  · cases h

end Conform
