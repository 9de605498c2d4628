/-! The notation of `inspect` texts, which name every constructor:
`Name(part)`, `[first, second]` and `Name { field: part }`. -/

namespace BitStore.Inspect

def application (name part : String) : String :=
  name ++ "(" ++ part ++ ")"

def list (items : List String) : String :=
  "[" ++ ", ".intercalate items ++ "]"

def record (name : String) (fields : List (String × String)) : String :=
  name ++ " \x7b " ++ ", ".intercalate (fields.map fun (field, part) => field ++ ": " ++ part) ++ " \x7d"

end BitStore.Inspect
