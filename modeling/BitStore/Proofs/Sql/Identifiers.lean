import BitStore.Sql

/-! Quoted identifiers. A reader of SQL takes two quotes in a row for a quote of the name, and a single
one for the end of it. It reads the quoted form of a name as this name, wherever the name has quotes, and
it reads no other text as an identifier. So nothing in the name of a table gets out of its place in a
statement: each statement names just that table and goes on with the same columns. -/

namespace BitStore.Sql

/-! ### Reading an identifier -/

/-- Reads on behind the opening quote: the name, and what is left behind the closing quote. -/
def readName : List Char → Option (List Char × List Char)
  | [] => none
  | '"' :: '"' :: cs => (readName cs).map fun r => ('"' :: r.1, r.2)
  | '"' :: cs => some ([], cs)
  | c :: cs => (readName cs).map fun r => (c :: r.1, r.2)

/-- The name of the quoted identifier that the text starts with, and what is left behind it. -/
def readIdentifier (text : String) : Option (String × String) :=
  match text.toList with
  | '"' :: cs => (readName cs).map fun r => (.ofList r.1, .ofList r.2)
  | _ => none

theorem readName_quote {rest : List Char} (h : rest.head? ≠ some '"') : readName ('"' :: rest) = some ([], rest) := by
  cases rest with
  | nil => rfl
  | cons c cs =>
    have hc : c ≠ '"' := fun hc => h (congrArg some hc)
    simp [readName, hc]

theorem readName_doubleQuotes (name : List Char) {rest : List Char} (h : rest.head? ≠ some '"') :
    readName (doubleQuotes name ++ '"' :: rest) = some (name, rest) := by
  induction name with
  | nil => exact readName_quote h
  | cons c name ih =>
    by_cases hc : c = '"'
    · subst hc
      simp [doubleQuotes, readName, ih]
    · simp [doubleQuotes, readName, hc, ih]

theorem eq_doubleQuotes_of_readName {cs name rest : List Char} (h : readName cs = some (name, rest)) :
    cs = doubleQuotes name ++ '"' :: rest ∧ rest.head? ≠ some '"' := by
  fun_induction readName cs generalizing name with
  | case1 => cases h
  | case2 cs ih =>
    obtain ⟨⟨tail, _⟩, htail, hr⟩ := Option.map_eq_some_iff.1 h
    cases hr
    obtain ⟨rfl, hrest⟩ := ih htail
    exact ⟨rfl, hrest⟩
  | case3 cs hcs =>
    cases h
    refine ⟨rfl, fun hhead => ?_⟩
    obtain ⟨tail, rfl⟩ := List.head?_eq_some_iff.1 hhead
    exact hcs tail rfl
  | case4 c cs hquotes hquote ih =>
    obtain ⟨⟨tail, _⟩, htail, hr⟩ := Option.map_eq_some_iff.1 h
    cases hr
    obtain ⟨rfl, hrest⟩ := ih htail
    rw [doubleQuotes]
    · exact ⟨rfl, hrest⟩
    · exact fun hc => hquote hc

theorem readName_eq_some_iff {cs name rest : List Char} :
    readName cs = some (name, rest) ↔ cs = doubleQuotes name ++ '"' :: rest ∧ rest.head? ≠ some '"' := by
  refine ⟨eq_doubleQuotes_of_readName, ?_⟩
  rintro ⟨rfl, hrest⟩
  exact readName_doubleQuotes name hrest

theorem toList_quoteIdentifier_append (name rest : String) :
    (quoteIdentifier name ++ rest).toList = '"' :: (doubleQuotes name.toList ++ '"' :: rest.toList) := by
  simp [quoteIdentifier]

/-- What is read is the quoted form of the name, and nothing else. -/
theorem readIdentifier_eq_some_iff {text name rest : String} :
    readIdentifier text = some (name, rest) ↔
      text = quoteIdentifier name ++ rest ∧ rest.toList.head? ≠ some '"' := by
  rw [← String.toList_inj, toList_quoteIdentifier_append, readIdentifier]
  split
  next cs hcs =>
    rw [hcs, List.cons_inj_right, ← readName_eq_some_iff]
    rw [Option.map_eq_some_iff]
    constructor
    · rintro ⟨⟨name, rest⟩, hread, hr⟩
      cases hr
      rwa [String.toList_ofList, String.toList_ofList]
    · exact fun hread => ⟨_, hread, by rw [String.ofList_toList, String.ofList_toList]⟩
  next hcs =>
    exact ⟨nofun, fun h => absurd h.1 (hcs _)⟩

theorem quoteIdentifier_injective {a b : String} (h : quoteIdentifier a = quoteIdentifier b) : a = b := by
  have read (name : String) : readIdentifier (quoteIdentifier name) = some (name, "") :=
    readIdentifier_eq_some_iff.2 ⟨(String.append_empty).symm, nofun⟩
  have hab := (read a).symm.trans (h ▸ read b)
  exact congrArg Prod.fst (Option.some.inj hab)

/-! ### The statements -/

/-- Roots with tables are the arrays of numbers, and these have one table. -/
theorem createTables_eq_ok_iff {root : Schema} {settings : Settings} {statements : List String} :
    createTables root settings = .ok statements ↔ (∃ width, 0 < width ∧ root = .array (.unsigned width)) ∧
      statements = ["CREATE TABLE " ++ quoteIdentifier settings.rootTable ++ "( element_0 INTEGER)"] := by
  unfold createTables
  split
  next elements =>
    simp only [Schema.unsigned, Schema.array.injEq, Schema.tuple.injEq, ← Schema.areDigits_iff]
    by_cases h : Schema.areDigits elements = true
    · simp [h, eq_comm]
    · simp [h]
  next element hne =>
    refine ⟨nofun, ?_⟩
    rintro ⟨⟨width, _, hroot⟩, _⟩
    exact absurd (Schema.array.inj hroot) (hne _)
  next hne =>
    refine ⟨nofun, ?_⟩
    rintro ⟨⟨width, _, rfl⟩, _⟩
    exact absurd rfl (hne _)

/-- The reader takes exactly the name from in front of any text that does not go on with a quote, and
there is no other text that it takes a name from. So different names are quoted differently. A root has
tables exactly if it is an array of numbers of at least one bit. Then there is one statement, whatever
the name of the table: behind `CREATE TABLE ` the identifier of this name, and the column. -/
theorem quoted_identifiers_read_back :
    (∀ text name rest : String, readIdentifier text = some (name, rest) ↔
      text = quoteIdentifier name ++ rest ∧ rest.toList.head? ≠ some '"') ∧
    (∀ a b : String, quoteIdentifier a = quoteIdentifier b → a = b) ∧
    ∀ (root : Schema) (settings : Settings),
      ((∃ statements, createTables root settings = .ok statements) ↔
        ∃ width, 0 < width ∧ root = .array (.unsigned width)) ∧
      ∀ statements, createTables root settings = .ok statements →
        ∃ behind, statements = ["CREATE TABLE " ++ behind] ∧
          readIdentifier behind = some (settings.rootTable, "( element_0 INTEGER)") := by
  refine ⟨fun _ _ _ => readIdentifier_eq_some_iff, fun _ _ => quoteIdentifier_injective, fun root settings => ⟨?_, ?_⟩⟩
  · simp only [createTables_eq_ok_iff, exists_and_left, exists_eq, and_true]
  · intro statements h
    obtain ⟨_, rfl⟩ := createTables_eq_ok_iff.1 h
    exact ⟨_, by rw [String.append_assoc], readIdentifier_eq_some_iff.2 ⟨rfl, by decide⟩⟩

/-- A name with quotes at both ends and two in a row, in front of a semicolon. A table whose name starts
with a quote and would go on with another statement. -/
theorem quoted_identifiers_read_back_with_quotes :
    readIdentifier (quoteIdentifier "\"a\"\"b\"" ++ "; c") = some ("\"a\"\"b\"", "; c") ∧
    quoteIdentifier "\"" ≠ quoteIdentifier "\"\"" ∧
    ∃ statements behind,
      createTables (.array (.unsigned 8)) { rootTable := "\"; DROP TABLE x; --" } = .ok statements ∧
      statements = ["CREATE TABLE " ++ behind] ∧
      readIdentifier behind = some ("\"; DROP TABLE x; --", "( element_0 INTEGER)") := by
  obtain ⟨hread, hinj, htables⟩ := quoted_identifiers_read_back
  refine ⟨(hread _ _ _).2 ⟨rfl, by decide⟩, fun h => absurd (hinj _ _ h) (by decide), ?_⟩
  obtain ⟨hroots, hstatements⟩ := htables (.array (.unsigned 8)) { rootTable := "\"; DROP TABLE x; --" }
  obtain ⟨statements, h⟩ := hroots.2 ⟨8, by decide, rfl⟩
  obtain ⟨behind, hone, hbehind⟩ := hstatements statements h
  exact ⟨statements, behind, h, hone, hbehind⟩

end BitStore.Sql
