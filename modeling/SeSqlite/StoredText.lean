/- source: src/build.c, src/parse.y, ext/security/sesqlite/sesqlite.h
   digest: The text of CREATE TABLE in sqlite_master, spliced with the lengths of the whole
   input. -/
import Mathlib.Data.List.Basic

set_option autoImplicit false
set_option relaxedAutoImplicit false

namespace SeSqlite.StoredText

open List

/-- A token; its address is the rest of the input from there, whose length `strlen` gives. -/
structure Token where
  z : List Char
  n : Nat

/-- What `sqlite3EndTable` gets from the parser for a CREATE TABLE without AS: the name, the comma
before the table constraints, the closing parenthesis, whether there are table options, and the
last token that was read. -/
structure Parsed where
  sNameToken : Token
  pCons : Option Token
  pEnd : Token
  tabOpts : Bool
  sLastToken : Token

def securityContextColumnDefinition : List Char := "security_context hidden INT".toList

def createTableWords : List Char := "CREATE TABLE ".toList

def separator : List Char := ", ".toList

/-- `zStmt`; `extended` says that the table is a user's one and no VACUUM is running. -/
def zStmt (extended : Bool) (pParse : Parsed) : List Char :=
  let pEnd2 := if pParse.tabOpts then pParse.sLastToken else pParse.pEnd
  let name := pParse.sNameToken.z
  if extended then
    let pCons := (pParse.pCons.getD pEnd2).z
    let zColumn := securityContextColumnDefinition
    let n := name.length + zColumn.length + 3
    let pStmt := name.length - pCons.length
    let zNewStmt := name.take pStmt ++ separator ++ zColumn ++ pCons
    createTableWords ++ zNewStmt.take n
  else
    let n := name.length - pEnd2.z.length + if pEnd2.z.head? = some ';' then 0 else pEnd2.n
    createTableWords ++ name.take n

/-- An input from the table's name on: up to the table constraints or the closing parenthesis, the
constraints with their comma, the table options, and all that follows the statement. -/
structure Layout where
  columns : List Char
  constraints : Option (List Char)
  options : List Char
  rest : List Char

namespace Layout

variable (l : Layout)

def afterList : List Char := ')' :: (l.options ++ l.rest)

/-- The tokens of the input; with options the last token read is one of theirs or a later one. -/
def parsed (offset n : Nat) : Parsed where
  sNameToken := ⟨l.columns ++ (l.constraints.getD [] ++ l.afterList), 1⟩
  pCons := l.constraints.map fun cons => ⟨cons ++ l.afterList, 1⟩
  pEnd := ⟨l.afterList, 1⟩
  tabOpts := l.options ≠ []
  sLastToken := ⟨(l.options ++ l.rest).drop offset, n⟩

def rewritten : List Char :=
  createTableWords ++ (l.columns ++ (separator ++ securityContextColumnDefinition ++
    (l.constraints.getD [] ++ ')' :: l.options)))

end Layout

theorem zStmt_extended (pParse : Parsed) (before : List Char)
    (at_token : pParse.sNameToken.z = before ++ (pParse.pCons.getD
      (if pParse.tabOpts then pParse.sLastToken else pParse.pEnd)).z) :
    zStmt true pParse = createTableWords ++ (before ++ (separator ++ securityContextColumnDefinition
      ++ (pParse.pCons.getD (if pParse.tabOpts then pParse.sLastToken else pParse.pEnd)).z)) := by
  have two : separator.length = 2 := rfl
  simp only [zStmt, at_token, if_true, length_append, Nat.add_sub_cancel, take_left', append_assoc]
  rw [take_of_length_le]
  simp only [length_append]
  omega

/-- The stored text is the rewritten statement exactly when the input ends with the statement and
the column is not put behind table options. -/
theorem stored_text (l : Layout) (offset n : Nat) : zStmt true (l.parsed offset n) = l.rewritten ↔
      l.rest = [] ∧ (l.constraints = none → l.options = []) := by
  by_cases behind : l.constraints = none ∧ l.options ≠ []
  · -- the column follows the closing parenthesis and part of the options
    rw [zStmt_extended _ (l.columns ++ ')' :: (l.options ++ l.rest).take offset)
      (by simp [Layout.parsed, Layout.afterList, behind])]
    refine iff_of_false (fun same => ?_) fun ends => behind.2 (ends.2 behind.1)
    rw [append_assoc l.columns] at same
    have heads := congrArg List.head? (append_cancel_left (append_cancel_left same))
    exact absurd heads (by simp [separator])
  · have front : ¬ l.constraints = none ∨ l.options = [] := by
      by_contra neither
      exact behind (by tauto)
    have token : ((l.parsed offset n).pCons.getD (if (l.parsed offset n).tabOpts then
        (l.parsed offset n).sLastToken else (l.parsed offset n).pEnd)).z =
        l.constraints.getD [] ++ l.afterList := by
      rcases given : l.constraints with _ | cons
      · simp [Layout.parsed, given, front.resolve_left (by simp [given])]
      · simp [Layout.parsed, given]
    rw [zStmt_extended _ l.columns (by rw [token]; rfl), token]
    have suffices_rest : l.rest = [] ∧ (l.constraints = none → l.options = []) ↔ l.rest = [] := by
      tauto
    simp [Layout.rewritten, Layout.afterList, suffices_rest]

/-- `CREATE TABLE t(a);SELECT 1` is stored with all that follows it, and for
`CREATE TABLE t(a) WITHOUT ROWID` the column is put before the last word. -/
theorem stored_text_splices :
    zStmt true (Layout.parsed ⟨['t', '(', 'a'], none, [], ";SELECT 1".toList⟩ 0 1) =
      "CREATE TABLE t(a, security_context hidden INT);SELECT 1".toList ∧
    Layout.rewritten ⟨['t', '(', 'a'], none, [], ";SELECT 1".toList⟩ =
      "CREATE TABLE t(a, security_context hidden INT)".toList ∧
    zStmt true (Layout.parsed ⟨['t', '(', 'a'], none, " WITHOUT ROWID".toList, []⟩ 9 5) =
      "CREATE TABLE t(a) WITHOUT , security_context hidden INTROWID".toList ∧
    Layout.rewritten ⟨['t', '(', 'a'], none, " WITHOUT ROWID".toList, []⟩ =
      "CREATE TABLE t(a, security_context hidden INT) WITHOUT ROWID".toList :=
  ⟨rfl, rfl, rfl, rfl⟩

end SeSqlite.StoredText
