import Mathlib.Data.List.DropRight

/-!
# The table of a pgvector import

The name of a table becomes a part of the query. A server scans the query for delimited identifiers: a quote opens
one, two quotes inside stand for a quote, and a single one closes it.
-/

namespace Quiver.Import

inductive Source where
  | qdrant
  | chroma
  | pgvector

inductive ImportError where
  | shape (source : Source) (message : String)

def isWhitespace (c : Char) : Bool :=
  c.toNat ∈ [0x20, 0x85, 0xA0, 0x1680, 0x2028, 0x2029, 0x202F, 0x205F, 0x3000] ∨
    9 ≤ c.toNat ∧ c.toNat ≤ 13 ∨ 0x2000 ≤ c.toNat ∧ c.toNat ≤ 0x200A

def trim (text : List Char) : List Char := (text.dropWhile isWhitespace).rdropWhile isWhitespace

def replaceQuotes (part : List Char) : List Char := part.flatMap fun c => if c = '"' then ['"', '"'] else [c]

def quotePart (part : List Char) : List Char := '"' :: replaceQuotes part ++ ['"']

def quoteIdent (ident : String) : Except ImportError String :=
  if (trim ident.toList).isEmpty then .error (.shape .pgvector "empty table name")
  else .ok (.ofList (['.'].intercalate ((ident.toList.splitOn '.').map quotePart)))

/-- The query of `fetch_pgvector`. -/
def pgvectorQuery (table : String) : Except ImportError String := do
  let ident ← quoteIdent table
  return "SELECT row_to_json(t) FROM (SELECT * FROM " ++ ident ++ ") t"

inductive Token where
  | identifier (name : List Char)
  | plain (c : Char)

/-- The tokens of a text, read from outside of quotes or after the start of a name. -/
def scan : Option (List Char) → List Char → Option (List Token)
  | none, [] => some []
  | none, '"' :: rest => scan (some []) rest
  | none, c :: rest => (scan none rest).map (.plain c :: ·)
  | some _, [] => none
  | some name, '"' :: '"' :: rest => scan (some (name ++ ['"'])) rest
  | some name, '"' :: rest => (scan none rest).map (.identifier name :: ·)
  | some name, c :: rest => scan (some (name ++ [c])) rest

def qualified (parts : List (List Char)) : List Token := (parts.map .identifier).intersperse (.plain '.')

theorem scan_plain {text : List Char} (unquoted : '"' ∉ text) (rest : List Char) :
    scan none (text ++ rest) = (scan none rest).map (text.map .plain ++ ·) := by
  induction text with
  | nil => simp
  | cons c text ih =>
    rw [List.mem_cons, not_or] at unquoted
    have differs : c ≠ '"' := Ne.symm unquoted.1
    rw [List.cons_append, scan, ih unquoted.2, Option.map_map]
    · rfl
    · exact differs

variable {rest : List Char}

theorem scan_inside (ends : rest.head? ≠ some '"') (start part : List Char) :
    scan (some start) (replaceQuotes part ++ '"' :: rest) = (scan none rest).map (.identifier (start ++ part) :: ·) := by
  induction part generalizing start with
  | nil =>
    cases rest with
    | nil => simp [replaceQuotes, scan]
    | cons c rest =>
      have differs : c ≠ '"' := by simpa using ends
      simp [replaceQuotes, scan, differs]
  | cons c part ih =>
    rw [replaceQuotes, List.flatMap_cons, List.append_assoc, ← replaceQuotes]
    by_cases isQuote : c = '"'
    · simp [isQuote, scan, ih]
    · simp [isQuote, scan, ih]

theorem scan_quotePart (ends : rest.head? ≠ some '"') (part : List Char) :
    scan none (quotePart part ++ rest) = (scan none rest).map (.identifier part :: ·) := by
  simpa [quotePart, scan] using scan_inside ends [] part

/-- A closing quote is followed by a dot or by `rest`, so that it is not taken for a doubled one. -/
theorem scan_qualified {parts : List (List Char)} (nonempty : parts ≠ []) (ends : rest.head? ≠ some '"') :
    scan none (['.'].intercalate (parts.map quotePart) ++ rest) = (scan none rest).map (qualified parts ++ ·) := by
  induction parts with
  | nil => contradiction
  | cons part parts ih =>
    cases parts with
    | nil => simpa [qualified] using scan_quotePart ends part
    | cons next parts =>
      have dot := scan_plain (by decide : '"' ∉ ['.'])
      rw [List.map_cons, List.map_cons, List.intercalate_cons_cons, ← List.map_cons, List.append_assoc, List.append_assoc,
        scan_quotePart (by simp), dot, ih (List.cons_ne_nil _ _), Option.map_map, Option.map_map]
      rfl

/-- A table adds its parts as identifiers to the query, with dots between them, and nothing else. -/
theorem quoteIdent_scanned {table quoted : String} (accepted : quoteIdent table = .ok quoted) :
    scan none quoted.toList = some (qualified (table.toList.splitOn '.')) ∧
    ∃ query, pgvectorQuery table = .ok query ∧ scan none query.toList =
      some ("SELECT row_to_json(t) FROM (SELECT * FROM ".toList.map .plain ++
        (qualified (table.toList.splitOn '.') ++ ") t".toList.map .plain)) := by
  have query : pgvectorQuery table = .ok ("SELECT row_to_json(t) FROM (SELECT * FROM " ++ quoted ++ ") t") := by
    rw [pgvectorQuery, accepted]
    rfl
  have scanned (rest : List Char) (ends : rest.head? ≠ some '"') :
      scan none (quoted.toList ++ rest) = (scan none rest).map (qualified (table.toList.splitOn '.') ++ ·) := by
    rw [quoteIdent] at accepted
    split at accepted
    · cases accepted
    · cases accepted
      rw [String.toList_ofList]
      exact scan_qualified (List.splitOn_ne_nil '.' _) ends
  refine ⟨by simpa [scan] using scanned [], _, query, ?_⟩
  have suffix := scan_plain (by decide : '"' ∉ ") t".toList) []
  rw [List.append_nil] at suffix
  rw [String.toList_append, String.toList_append, List.append_assoc, scan_plain (by decide), scanned _ (by decide), suffix]
  simp [scan]

theorem quoteIdent_scanned_quote :
    quoteIdent "a\"b.c" = .ok "\"a\"\"b\".\"c\"" ∧
      scan none "\"a\"\"b\".\"c\"".toList = some [.identifier ['a', '"', 'b'], .plain '.', .identifier ['c']] := by
  have accepted : quoteIdent "a\"b.c" = .ok "\"a\"\"b\".\"c\"" := rfl
  exact ⟨accepted, (quoteIdent_scanned accepted).1⟩

end Quiver.Import
