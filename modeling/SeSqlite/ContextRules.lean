/- source: ext/security/sesqlite/sesqlite_contexts.c, ext/security/sesqlite/sesqlite_compute_label.c
   digest: Rule lines are kept in descending order of their text, so that the first rule that
   matches an object is the most specific one and the last inserted of its pattern. -/
import SeSqlite.Contexts
import SeSqlite.Lib.SortedInsert
import Mathlib.Data.List.Forall2

set_option autoImplicit false
set_option relaxedAutoImplicit false

namespace SeSqlite.ContextRules

open Names Contexts Lib.SortedInsert List

/-- The rule elements as they are while the lists are built: with the pattern's text. -/
structure RuleElement extends SesqliteContextElement where
  origin : String
  deriving DecidableEq

def strcasecmp (a b : String) : Ordering := compare (fold a) (fold b)

/-- `sorted_insert`: before the first rule whose text is not greater. -/
def sortedInsert (head : List RuleElement) (new : RuleElement) : List RuleElement :=
  match head with
  | [] => [new]
  | current :: rest =>
    if strcasecmp current.origin new.origin = .gt then current :: sortedInsert rest new
    else new :: current :: rest

/-- The tokens that successive calls of `strtok_r` with the delimiter find. -/
def tokens (delimiter : Char) (z : String) : List (List Char) :=
  (z.toList.splitOn delimiter).filter (· ≠ [])

/-- A line of the rule file for tables, views or tuples, or for columns. -/
structure RuleLine where
  pattern : String
  securityContext : String
  deriving DecidableEq

/-- The element that `read_sesqlite_context` makes of a line; a missing token prints as nothing. -/
def ruleElement (isColumn : Bool) (line : RuleLine) : RuleElement :=
  let token (i : Nat) := String.ofList ((tokens '.' line.pattern).getD i [])
  { fparam := token 0, sparam := token 1, tparam := if isColumn then token 2 else ""
    securityContext := line.securityContext, origin := line.pattern }

def readRules (isColumn : Bool) (lines : List RuleLine) : List RuleElement :=
  (lines.map (ruleElement isColumn)).foldl sortedInsert []

def RuleLine.parts (line : RuleLine) : List (List Char) := line.pattern.toList.splitOn '.'

/-- A wildcard, or a name whose first character is greater. -/
def ValidPart (c : List Char) : Prop := c = ['*'] ∨ ∃ x rest, c = x :: rest ∧ '*' < x

/-- The components are two or three, and each is a wildcard or a name. -/
structure RuleLine.Valid (line : RuleLine) (isColumn : Bool) : Prop where
  count : line.parts.length = if isColumn then 3 else 2
  each : ∀ c ∈ line.parts, ValidPart c

def lower (c : List Char) : List Char := c.map Char.toLower

def Accepts (c : List Char) (name : String) : Prop := c = ['*'] ∨ lower c = fold name

def RuleLine.Matches (line : RuleLine) (names : List String) : Prop :=
  List.Forall₂ Accepts line.parts names

def SamePattern (r q : RuleLine) : Prop := r.parts.map lower = q.parts.map lower

/-- At the first component where just one of the two is a wildcard, the first one has a name. -/
def MoreSpecific : List (List Char) → List (List Char) → Prop
  | a :: s, b :: t => (a ≠ ['*'] ∧ b = ['*']) ∨ ((a = ['*'] ↔ b = ['*']) ∧ MoreSpecific s t)
  | _, _ => False

theorem map_intercalate (f : Char → Char) : ∀ parts : List (List Char),
    (['.'].intercalate parts).map f = [f '.'].intercalate (parts.map (List.map f))
  | [] => rfl
  | [c] => by simp
  | c :: d :: parts => by
    have tail := map_intercalate f (d :: parts)
    simp only [intercalate_cons_cons, map_append, tail, map_cons, map_nil]

theorem fold_pattern (line : RuleLine) :
    fold line.pattern = ['.'].intercalate (line.parts.map lower) := by
  have text : ['.'].intercalate line.parts = line.pattern.toList := intercalate_splitOn '.'
  rw [fold, ← text, map_intercalate]
  rfl

theorem compare_append (p s t : List Char) : compare (p ++ s) (p ++ t) = compare s t := by
  induction p with
  | nil => rfl
  | cons c p ih => simp [ih]

theorem star_lt_lower {x : Char} (after : '*' < x) : '*' < x.toLower := by
  unfold Char.toLower
  split
  · rename_i letter
    have upper := UInt32.le_iff_toNat_le.mp letter.2
    rw [Char.lt_def, UInt32.lt_iff_toNat_lt] at after ⊢
    simp at upper after ⊢
    omega
  · exact after

theorem compare_star {c : List Char} (valid : ValidPart c) (name : c ≠ ['*']) (s t : List Char) :
    compare (lower ['*'] ++ s) (lower c ++ t) = .lt := by
  obtain ⟨x, rest, rfl, after⟩ := valid.resolve_left name
  have first : compare '*' x.toLower = .lt := by
    rw [show compare '*' x.toLower = compareOfLessAndEq '*' x.toLower from rfl,
      compareOfLessAndEq, if_pos (star_lt_lower after)]
  simp [lower, first]

variable {names : List String}

theorem compare_parts {a b : List (List Char)} (matchA : List.Forall₂ Accepts a names)
    (matchB : List.Forall₂ Accepts b names) (validA : ∀ c ∈ a, ValidPart c)
    (validB : ∀ c ∈ b, ValidPart c)
    (ge : (compare (['.'].intercalate (a.map lower)) (['.'].intercalate (b.map lower))).isGE) :
    MoreSpecific a b ∨ a.map lower = b.map lower := by
  induction matchA generalizing b with
  | nil =>
    cases matchB
    exact .inr rfl
  | @cons c name s names accepts rest ih =>
    cases matchB with
    | @cons d _ t _ accepts' rest' =>
      have front (u : List Char) (v : List (List Char)) : ∃ w,
          ['.'].intercalate ((u :: v).map lower) = lower u ++ w := by
        cases v with
        | nil => exact ⟨[], by simp⟩
        | cons u' v => exact ⟨_, by rw [map_cons, map_cons, intercalate_cons_cons, append_assoc]⟩
      have alike (same : lower c = lower d) (stars : c = ['*'] ↔ d = ['*']) :
          MoreSpecific (c :: s) (d :: t) ∨ (c :: s).map lower = (d :: t).map lower := by
        cases rest with
        | nil =>
          cases rest'
          exact .inr (by simp [same])
        | cons next rest =>
          cases rest' with
          | cons next' rest' =>
            simp only [map_cons, intercalate_cons_cons, same, compare_append] at ge ih ⊢
            refine (ih (.cons next' rest') (fun c member => validA c (by simp [member]))
              (fun c member => validB c (by simp [member])) ge).imp ?_ ?_
            · exact fun more => .inr ⟨stars, more⟩
            · exact fun equal => congrArg (lower d :: ·) equal
      obtain ⟨w, left⟩ := front c s
      obtain ⟨w', right⟩ := front d t
      by_cases star : c = ['*'] <;> by_cases star' : d = ['*']
      · exact alike (by rw [star, star']) (by simp [star, star'])
      · rw [left, right, star, compare_star (validB d (by simp)) star'] at ge
        cases ge
      · exact .inl (.inl ⟨star, star'⟩)
      · refine alike ?_ (by simp [star, star'])
        rw [accepts.resolve_left star, accepts'.resolve_left star']

variable {isColumn : Bool}

theorem tokens_of_valid {line : RuleLine} (valid : line.Valid isColumn) :
    tokens '.' line.pattern = line.parts := by
  refine filter_eq_self.mpr fun c member => ?_
  rcases valid.each c member with rfl | ⟨x, rest, rfl, _⟩ <;> simp

theorem paramMatches_ofList (name : String) (c : List Char) :
    paramMatches name (String.ofList c) = true ↔ Accepts c name := by
  have star : String.ofList c = "*" ↔ c = ['*'] := by
    rw [← String.toList_inj, String.toList_ofList]
    rfl
  rw [paramMatches, Bool.or_eq_true, sqlite3StrICmp_iff, beq_iff_eq, star, Accepts, lower,
    show fold (String.ofList c) = c.map Char.toLower by rw [fold, String.toList_ofList], or_comm,
    eq_comm (a := fold name)]

theorem elementMatches_iff {line : RuleLine} (valid : line.Valid isColumn) (dbName tblName : String)
    (colName : Option String) (given : colName.isSome = isColumn) :
    elementMatches isColumn dbName (some tblName) colName
      (ruleElement isColumn line).toSesqliteContextElement = true ↔
      line.Matches (dbName :: tblName :: colName.toList) := by
  have count := valid.count
  simp only [ruleElement, tokens_of_valid valid, elementMatches, RuleLine.Matches]
  rcases isColumn with _ | _
  · obtain rfl : colName = none := by simpa using given
    obtain ⟨a, b, parts⟩ := length_eq_two.mp count
    simp [parts, paramMatches_ofList]
  · obtain ⟨col, rfl⟩ := Option.isSome_iff_exists.mp given
    obtain ⟨a, b, c, parts⟩ := length_eq_three.mp count
    simp [parts, paramMatches_ofList]

def byOrigin (a b : RuleElement) : Ordering := strcasecmp a.origin b.origin

instance : Std.TransCmp byOrigin where
  eq_swap {a b} := @Std.OrientedCmp.eq_swap _ compare _ (fold a.origin) (fold b.origin)
  isLE_trans {a b c} :=
    @Std.TransCmp.isLE_trans _ compare _ (fold a.origin) (fold b.origin) (fold c.origin)

theorem sortedInsert_eq (head : List RuleElement) (new : RuleElement) :
    sortedInsert head new = insertDesc byOrigin head new := by
  induction head with
  | nil => rfl
  | cons current rest ih => rw [sortedInsert, insertDesc, ih, byOrigin]

theorem accepts_congr {a b : List (List Char)} (hit : List.Forall₂ Accepts a names)
    (same : a.map lower = b.map lower) (valid : ∀ c ∈ b, ValidPart c) :
    List.Forall₂ Accepts b names := by
  induction hit generalizing b with
  | nil =>
    obtain rfl : b = [] := by simpa using same.symm
    exact .nil
  | @cons c name s names accepts _ ih =>
    obtain ⟨d, t, rfl, head, tail⟩ := map_eq_cons_iff.mp same.symm
    refine .cons ?_ (ih tail.symm fun c member => valid c (by simp [member]))
    rcases accepts with rfl | accepts
    · rcases valid d (by simp) with star | ⟨x, rest, rfl, after⟩
      · exact .inl star
      · have equal : x.toLower = '*' := (List.cons.inj head).1
        exact absurd (star_lt_lower after) (by simp [equal])
    · exact .inr (head.trans accepts)

/-- What `compute_sql_context` should answer for a table or a column under a sequence of rule lines
of its kind: the context of the most specific rule, of the last one among equal patterns, and the
default of the policy when no rule matches. -/
def MostSpecific (lib : Selinux) (isColumn : Bool) (lines : List RuleLine) (dbName tblName : String)
    (colName : Option String) : Prop :=
  let names := dbName :: tblName :: colName.toList
  let answer := computeSqlContext lib isColumn dbName (some tblName) colName
    ((readRules isColumn lines).map RuleElement.toSesqliteContextElement)
  (∃ before r after, lines = before ++ r :: after ∧ r.Matches names ∧
    answer = some r.securityContext ∧
    (∀ q ∈ lines, q.Matches names → MoreSpecific r.parts q.parts ∨ SamePattern r q) ∧
    ∀ q ∈ after, ¬ SamePattern r q) ∨
  (∀ line ∈ lines, ¬ line.Matches names) ∧ answer = lib.computeCreate

theorem most_specific_rule (lib : Selinux) (isColumn : Bool) (lines : List RuleLine)
    (valid : ∀ line ∈ lines, line.Valid isColumn) (dbName tblName : String)
    (colName : Option String) (given : colName.isSome = isColumn) :
    MostSpecific lib isColumn lines dbName tblName colName := by
  unfold MostSpecific
  intro names answer
  let p (e : RuleElement) := elementMatches isColumn dbName (some tblName) colName
    e.toSesqliteContextElement
  have matched (line : RuleLine) (member : line ∈ lines) :
      p (ruleElement isColumn line) = true ↔ line.Matches names :=
    elementMatches_iff (valid line member) dbName tblName colName given
  have order (r q : RuleLine) : byOrigin (ruleElement isColumn r) (ruleElement isColumn q) =
      compare (['.'].intercalate (r.parts.map lower)) (['.'].intercalate (q.parts.map lower)) := by
    rw [← fold_pattern, ← fold_pattern]
    rfl
  have found := (@find?_foldl _ byOrigin p _ (lines.map (ruleElement isColumn))).2
  have scan : answer = match (readRules isColumn lines).find? p with
      | some e => some e.securityContext
      | none => lib.computeCreate := by
    have first : ((readRules isColumn lines).map RuleElement.toSesqliteContextElement).find?
        (elementMatches isColumn dbName (some tblName) colName) =
        ((readRules isColumn lines).find? p).map RuleElement.toSesqliteContextElement :=
      find?_map
    simp only [answer, computeSqlContext, first]
    cases (readRules isColumn lines).find? p <;> rfl
  rw [← funext₂ sortedInsert_eq, ← readRules] at found
  split at found
  · rename_i e hit
    rw [hit] at scan
    obtain ⟨holds, greatest, before, after, split, last⟩ := found
    obtain ⟨before, rest, rfl, rfl, rest_eq⟩ := map_eq_append_iff.mp split
    obtain ⟨r, after, rfl, rfl, rfl⟩ := map_eq_cons_iff.mp rest_eq
    have hr := (matched r (by simp)).mp holds
    refine .inl ⟨before, r, after, rfl, hr, scan, fun q member hq => ?_, fun q member same => ?_⟩
    · have ge := greatest _ (mem_map_of_mem member) ((matched q member).mpr hq)
      rw [order] at ge
      exact compare_parts hr hq (valid r (by simp)).each (valid q member).each ge
    · have member' : q ∈ before ++ r :: after := by simp [member]
      have hq := accepts_congr hr same (valid q member').each
      have more := last _ (mem_map_of_mem member) ((matched q member').mpr hq)
      rw [order, same] at more
      simp at more
  · rename_i none
    rw [none] at scan
    refine .inr ⟨fun line member hit => ?_, scan⟩
    have miss := found _ (mem_map_of_mem member)
    rw [(matched line member).mpr hit] at miss
    cases miss

theorem most_specific_rule_example : MostSpecific ⟨none, fun _ => true, fun _ _ _ _ => true⟩ false
    [⟨"main.t", "exact"⟩, ⟨"*.*", "any"⟩] "main" "T" none := by
  refine most_specific_rule _ false _ (fun line member => ?_) "main" "T" none rfl
  have parts : RuleLine.parts ⟨"main.t", "exact"⟩ = [['m', 'a', 'i', 'n'], ['t']] ∧
    RuleLine.parts ⟨"*.*", "any"⟩ = [['*'], ['*']] := ⟨rfl, rfl⟩
  simp only [mem_cons, not_mem_nil, or_false] at member
  rcases member with rfl | rfl
  · refine ⟨by rw [parts.1]; rfl, fun c member => ?_⟩
    rw [parts.1] at member
    simp only [mem_cons, not_mem_nil, or_false] at member
    rcases member with rfl | rfl
    · exact .inr ⟨'m', ['a', 'i', 'n'], rfl, by decide⟩
    · exact .inr ⟨'t', [], rfl, by decide⟩
  · refine ⟨by rw [parts.2]; rfl, fun c member => ?_⟩
    rw [parts.2] at member
    exact .inl (by simpa using member)

end SeSqlite.ContextRules
