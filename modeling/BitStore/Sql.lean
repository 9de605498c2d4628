import BitStore.Fault
import BitStore.Settings.Basic

/-! Tables for a dataset, as SQL text. Only arrays of numbers have one: a single
table with a single column. -/

namespace BitStore.Sql

/-- Every quote is written twice. -/
def doubleQuotes : List Char → List Char
  | [] => []
  | '"' :: cs => '"' :: '"' :: doubleQuotes cs
  | c :: cs => c :: doubleQuotes cs

/-- The name as a quoted identifier. -/
def quoteIdentifier (name : String) : String :=
  String.ofList ('"' :: doubleQuotes name.toList ++ ['"'])

/-- The statements that create the tables for a dataset. -/
def createTables (root : Schema) (settings : Settings) : Except Fault (List String) :=
  match root with
  | .array (.tuple elements) =>
    if Schema.areDigits elements then
      .ok ["CREATE TABLE " ++ quoteIdentifier settings.rootTable ++ "( element_0 INTEGER)"]
    else
      .error (.notImplemented .tablesForNonNumbers)
  | .array _ => .error (.notImplemented .tablesForNonNumbers)
  | _ => .error (.notImplemented .tablesForNonArrays)

end BitStore.Sql
