/- source: src/util.c
   digest: The conversion of a text to a 64-bit integer. Numbers of twenty digits and more wrap the
   accumulator, a NUL ends the text, and a UTF-16 text of odd length is read to another end. -/
import SeSqlite.Lib.Numeral
import SeSqlite.Util.CheckedInt

set_option autoImplicit false
set_option relaxedAutoImplicit false

namespace SeSqlite.Atoi64

open CheckedInt Lib.Numeral List

inductive Encoding where
  | utf8
  | utf16le
  | utf16be
  deriving DecidableEq, Repr

def sqlite3Isspace (c : UInt8) : Bool := c == 32 || (9 ≤ c && c ≤ 13)

def sqlite3Isdigit (c : UInt8) : Bool := 48 ≤ c && c ≤ 57

/-- The low bytes of the code units before `zEnd`, and `nonNum`: the scan ends at the first high
byte that is not zero. It moves in steps of two, so that an odd length leaves out the last byte in
UTF-16LE and takes in the byte beyond the text in UTF-16BE. -/
def units (beyond : UInt8) : Encoding → List UInt8 → List UInt8 × Bool
  | .utf8, z => (z, false)
  | .utf16le, lo :: hi :: z =>
    if hi = 0 then ((units beyond .utf16le z).map (lo :: ·) id) else ([], true)
  | .utf16le, _ => ([], false)
  | .utf16be, hi :: lo :: z =>
    if hi = 0 then ((units beyond .utf16be z).map (lo :: ·) id) else ([], true)
  | .utf16be, [hi] => if hi = 0 then ([beyond], false) else ([], true)
  | .utf16be, [] => ([], false)

/-- The digits of `pow63` against the first eighteen of a number, then the last one. -/
def compareDigits : List UInt8 → List UInt8 → Int
  | z :: zNum, p :: pow63 =>
    let c := ((z.toNat : Int) - p.toNat) * 10
    if c = 0 then compareDigits zNum pow63 else c
  | z :: _, [] => z.toNat - 56
  | [], _ => 0

def pow63 : List UInt8 := [57, 50, 50, 51, 51, 55, 50, 48, 51, 54, 56, 53, 52, 55, 55, 53, 56, 48]

def compare2pow63 (zNum : List UInt8) : Int := compareDigits zNum pow63

def digitValues (ds : List UInt8) : List Nat := ds.map fun d => d.toNat - 48

/-- What is written to `pNum`, for the 64-bit accumulator `u`. -/
def stored (neg : Bool) (u : Nat) : Int :=
  if (u : Int) > largestInt64 then if neg then smallestInt64 else largestInt64
  else if neg then -u else u

/-- What is returned for the digits after the zeros and what follows them. -/
def returned (neg nonNum noDigits : Bool) (digits rest : List UInt8) : Nat :=
  if rest.head?.any (· != 0) || noDigits || digits.length > 19 || nonNum then 1
  else if digits.length < 19 then 0
  else
    let c := compare2pow63 digits
    if c < 0 then 0 else if c > 0 then 1 else if neg then 0 else 2

/-- The text after the spaces and the sign, and whether the sign is a minus. -/
def afterSign (us : List UInt8) : Bool × List UInt8 :=
  match us.dropWhile sqlite3Isspace with
  | 45 :: z => (true, z)
  | 43 :: z => (false, z)
  | z => (false, z)

def sqlite3Atoi64 (beyond : UInt8) (zNum : List UInt8) (enc : Encoding) : Nat × Int :=
  let (us, nonNum) := units beyond enc zNum
  let (neg, zStart) := afterSign us
  let zNum := zStart.dropWhile (· == 48)
  let digits := zNum.takeWhile sqlite3Isdigit
  let rest := zNum.dropWhile sqlite3Isdigit
  let noDigits := digits.isEmpty && zStart.length == zNum.length
  (returned neg nonNum noDigits digits rest, stored neg (wrapped (2 ^ 64) 0 (digitValues digits)))

def encode : Encoding → List UInt8 → List UInt8
  | .utf8, t => t
  | .utf16le, t => t.flatMap fun c => [c, 0]
  | .utf16be, t => t.flatMap fun c => [0, c]

/-- Spaces, a sign and the digits `ds`, of which there is at least one. -/
def Numeral (t : List UInt8) (neg : Bool) (ds : List UInt8) : Prop :=
  ∃ spaces sign, t = spaces ++ (sign ++ ds) ∧ (∀ c ∈ spaces, sqlite3Isspace c) ∧
    (if neg then sign = [45] else sign = [] ∨ sign = [43]) ∧ ds ≠ [] ∧ ∀ d ∈ ds, sqlite3Isdigit d

def magnitude (ds : List UInt8) : Nat := value 0 (digitValues ds)

def number (neg : Bool) (ds : List UInt8) : Int := if neg then -magnitude ds else magnitude ds

/-- The sign and the digits that are read, whatever stands behind them. -/
def Scanned (beyond : UInt8) (zNum : List UInt8) (enc : Encoding) (neg : Bool) (ds : List UInt8) :
    Prop :=
  ∃ t tail nonNum, units beyond enc zNum = (t ++ tail, nonNum) ∧ Numeral t neg ds ∧
    ∀ c ∈ tail.head?, ¬sqlite3Isdigit c

/-- What the text of a number should give; the second special case is a number without a sign. -/
structure Converts (beyond : UInt8) (zNum : List UInt8) (enc : Encoding) : Prop where
  zero : (sqlite3Atoi64 beyond zNum enc).1 = 0 ↔
    ∃ t neg ds, zNum = encode enc t ∧ Numeral t neg ds ∧ InRange (number neg ds)
  exact : ∀ t neg ds, zNum = encode enc t → Numeral t neg ds → InRange (number neg ds) →
    (sqlite3Atoi64 beyond zNum enc).2 = number neg ds
  two : (sqlite3Atoi64 beyond zNum enc).1 = 2 ↔
    ∃ t ds, zNum = encode enc t ∧ Numeral t false ds ∧ 43 ∉ t ∧ magnitude ds = 2 ^ 63
  large : ∀ neg ds, Scanned beyond zNum enc neg ds → ¬InRange (number neg ds) →
    (sqlite3Atoi64 beyond zNum enc).1 = 1 →
    (sqlite3Atoi64 beyond zNum enc).2 = if neg then smallestInt64 else largestInt64

/-- The code units that are read: those of the text, but of a text of odd length in UTF-16LE all
before the last byte, and in UTF-16BE one more, with the byte beyond. -/
def Reads (beyond : UInt8) (zNum : List UInt8) (enc : Encoding) (us : List UInt8) : Prop :=
  zNum = encode enc us ∨ (enc = .utf16le ∧ ∃ x, zNum = encode enc us ++ [x]) ∨
    (enc = .utf16be ∧ zNum ++ [beyond] = encode enc us)

/-- A number up to 2^63 that is read, with nothing or a NUL after it, is the whole text, without a
plus if it is 2^63; and the remainder of a greater number modulo 2^64 is no 64-bit integer, or the
bound itself. -/
structure Faithful (beyond : UInt8) (zNum : List UInt8) (enc : Encoding) : Prop where
  whole : ∀ t tail neg ds, Reads beyond zNum enc (t ++ tail) → Numeral t neg ds →
    (∀ c ∈ tail.head?, c = 0) → magnitude ds ≤ 2 ^ 63 →
    zNum = encode enc t ∧ (neg = false → magnitude ds = 2 ^ 63 → 43 ∉ t)
  wraps : ∀ neg ds, Scanned beyond zNum enc neg ds → 2 ^ 63 < magnitude ds →
    2 ^ 63 ≤ magnitude ds % 2 ^ 64 ∨ (neg = false ∧ magnitude ds % 2 ^ 64 = 2 ^ 63 - 1)

section

variable {beyond : UInt8}

private theorem units_eq_iff : ∀ enc z us, units beyond enc z = (us, false) ↔ Reads beyond z enc us
  | .utf8, z, us => by simp [units, Reads, encode]
  | .utf16le, [], us => by cases us <;> simp [units, Reads, encode]
  | .utf16le, [x], us => by cases us <;> simp [units, Reads, encode]
  | .utf16le, lo :: hi :: z, us => by
    have rest := units_eq_iff .utf16le z
    unfold units
    split <;> cases us <;> simp_all [Prod.ext_iff, Reads, encode]
    grind
  | .utf16be, [], us => by cases us <;> simp [units, Reads, encode]
  | .utf16be, [x], us => by
    by_cases zero : x = 0 <;> cases us <;> simp [units, Reads, encode, zero]
    rintro -
    exact eq_nil_iff_forall_not_mem
  | .utf16be, hi :: lo :: z, us => by
    have rest := units_eq_iff .utf16be z
    unfold units
    split <;> cases us <;> simp_all [Prod.ext_iff, Reads, encode]
    grind

private theorem units_encode (enc : Encoding) (t : List UInt8) :
    units beyond enc (encode enc t) = (t, false) := (units_eq_iff ..).mpr (.inl rfl)

end

variable {ds : List UInt8}

private theorem digit_bounds {d : UInt8} (digit : sqlite3Isdigit d) : 48 ≤ d.toNat ∧ d.toNat ≤
    57 := by
  simpa [sqlite3Isdigit, UInt8.le_iff_toNat_le] using digit

private theorem digitValues_lt (digits : ∀ d ∈ ds, sqlite3Isdigit d) : ∀ x ∈ digitValues ds, x <
    10 := by
  simp only [digitValues, mem_map]
  rintro _ ⟨d, member, rfl⟩
  have := digit_bounds (digits d member)
  omega

private theorem compareDigits_spec (ps zs : List UInt8) (v : Nat)
    (digits : ∀ z ∈ zs, sqlite3Isdigit z)
    (digits' : ∀ p ∈ ps, sqlite3Isdigit p) (length : zs.length = ps.length + 1) :
    let c := compareDigits zs ps
    let x := value v (digitValues zs)
    let y := value v (digitValues (ps ++ [56]))
    (c < 0 ∧ x < y) ∨ (c = 0 ∧ x = y) ∨ (0 < c ∧ y < x) := by
  induction ps generalizing zs v with
  | nil =>
    obtain ⟨z, rfl⟩ := length_eq_one_iff.mp length
    simp only [compareDigits, digitValues, value, nil_append, map_cons, map_nil,
      foldl_cons, foldl_nil, show (56 : UInt8).toNat = 56 from rfl]
    omega
  | cons p ps ih =>
    obtain ⟨z, zs, rfl⟩ := exists_cons_of_length_eq_add_one length
    have bounds := digit_bounds (digits z (by simp))
    have bounds' := digit_bounds (digits' p (by simp))
    have rest := fun d member => digits d (mem_cons_of_mem z member)
    have rest' := fun d member => digits' d (mem_cons_of_mem p member)
    have same : (digitValues zs).length = (digitValues (ps ++ [56])).length := by
      simpa [digitValues] using length
    have small' : ∀ d ∈ ps ++ [56], sqlite3Isdigit d := by
      rintro d member
      rcases mem_append.mp member with member | member
      · exact rest' d member
      · rw [mem_singleton.mp member]
        rfl
    simp only [compareDigits]
    rw [show value v (digitValues (z :: zs)) = value (v * 10 + (z.toNat - 48)) (digitValues zs)
        from rfl, show value v (digitValues (p :: ps ++ [56])) =
          value (v * 10 + (p.toNat - 48)) (digitValues (ps ++ [56])) from rfl]
    rcases Nat.lt_trichotomy z.toNat p.toNat with less | eq | more
    · rw [if_neg (by omega)]
      exact .inl ⟨by omega, value_lt_value (by omega) (digitValues_lt rest) same⟩
    · rw [if_pos (by omega), eq]
      exact ih zs _ rest rest' (by simpa using length)
    · rw [if_neg (by omega)]
      exact .inr (.inr ⟨by omega, value_lt_value (by omega) (digitValues_lt small') same.symm⟩)

private theorem compare2pow63_spec (digits : ∀ d ∈ ds, sqlite3Isdigit d) (length : ds.length = 19) :
    (compare2pow63 ds < 0 ∧ magnitude ds < 2 ^ 63) ∨
    (compare2pow63 ds = 0 ∧ magnitude ds = 2 ^ 63) ∨
    (0 < compare2pow63 ds ∧ 2 ^ 63 < magnitude ds) :=
  compareDigits_spec pow63 ds 0 digits (all_eq_true.mp rfl) length

/-- What to return for a number by its sign and magnitude. -/
def verdict (neg : Bool) (m : Nat) : Nat :=
  if m < 2 ^ 63 then 0 else if m = 2 ^ 63 then if neg then 0 else 2 else 1

private theorem verdict_cases (neg : Bool) (m : Nat) :
    (verdict neg m = 0 ∧ (m < 2 ^ 63 ∨ (neg = true ∧ m = 2 ^ 63))) ∨
    (verdict neg m = 2 ∧ neg = false ∧ m = 2 ^ 63) ∨ (verdict neg m = 1 ∧ 2 ^ 63 < m) := by
  unfold verdict
  split
  · exact .inl ⟨rfl, .inl ‹_›⟩
  · split
    · cases neg
      · exact .inr (.inl ⟨rfl, rfl, ‹_›⟩)
      · exact .inl ⟨rfl, .inr ⟨rfl, ‹_›⟩⟩
    · exact .inr (.inr ⟨rfl, by omega⟩)

private theorem returned_eq (neg : Bool) {rest : List UInt8} (digits : ∀ d ∈ ds, sqlite3Isdigit d)
    (stripped : ds.head? ≠ some 48) (ends : ∀ c ∈ rest.head?, c = 0) :
    returned neg false false ds rest = verdict neg (magnitude ds) := by
  have none : rest.head?.any (· != 0) = false := by
    cases head : rest.head? with
    | none => rfl
    | some c => simpa using ends c head
  have upper : magnitude ds < 1 * 10 ^ ds.length := by
    simpa [digitValues, magnitude] using value_lt 0 (digitValues_lt digits)
  simp only [returned, none, Bool.false_or, Bool.or_false, decide_eq_true_eq, verdict]
  split
  · rename_i long
    obtain ⟨d, ds, rfl⟩ := exists_cons_of_length_pos (Nat.zero_lt_of_lt long)
    have bounds := digit_bounds (digits d (by simp))
    have nonzero : d.toNat ≠ 48 := fun eq =>
      stripped (congrArg some (UInt8.toNat_inj.mp (eq : d.toNat = (48 : UInt8).toNat)))
    have lower : (d.toNat - 48) * 10 ^ ds.length ≤ magnitude (d :: ds) := by
      simpa [digitValues, magnitude, value] using le_value (d.toNat - 48) (digitValues ds)
    have power : 10 ^ 19 ≤ 10 ^ ds.length :=
      Nat.pow_le_pow_right (by decide) (Nat.le_of_lt_succ long)
    have : 1 * 10 ^ 19 ≤ (d.toNat - 48) * 10 ^ ds.length := Nat.mul_le_mul (by omega) power
    rw [if_neg (by omega), if_neg (by omega)]
  · split
    · have : 10 ^ ds.length ≤ 10 ^ 18 := Nat.pow_le_pow_right (by decide) (by omega)
      rw [if_pos (by omega)]
    · rcases compare2pow63_spec digits (by omega) with
        ⟨sign, less⟩ | ⟨sign, same⟩ | ⟨sign, more⟩
      · rw [if_pos sign, if_pos less]
      · simp [sign, same]
      · rw [if_neg (by omega), if_pos sign, if_neg (by omega), if_neg (by omega)]

variable {t : List UInt8} {neg : Bool}

section

variable {beyond : UInt8} {zNum : List UInt8} {enc : Encoding}

variable {tail : List UInt8}

private theorem while_stops {p : UInt8 → Bool} (stops : ∀ c ∈ tail.head?, ¬p c) :
    tail.dropWhile p = tail ∧ tail.takeWhile p = [] := by
  cases tail with
  | nil => exact ⟨rfl, rfl⟩
  | cons c tail =>
    exact ⟨dropWhile_cons_of_neg (stops c rfl), takeWhile_cons_of_neg (stops c rfl)⟩

private theorem head_dropWhile (p : UInt8 → Bool) (z : List UInt8) :
    ∀ c ∈ (z.dropWhile p).head?, ¬p c := by
  intro c head
  have first := head?_dropWhile_not p z
  rw [Option.mem_def.mp head] at first
  simpa using first

private theorem scan_digits (digits : ∀ d ∈ ds, sqlite3Isdigit d)
    (stops : ∀ c ∈ tail.head?, ¬sqlite3Isdigit c) : let z := (ds ++ tail).dropWhile (· == 48)
    z = ds.dropWhile (· == 48) ++ tail ∧ z.takeWhile sqlite3Isdigit = ds.dropWhile (· == 48) ∧
      z.dropWhile sqlite3Isdigit = tail := by
  have zeros : (ds ++ tail).dropWhile (· == 48) = ds.dropWhile (· == 48) ++ tail := by
    rw [dropWhile_append, (while_stops fun c head zero =>
      stops c head (by rw [beq_iff_eq.mp zero]; rfl)).1]
    split
    · rename_i empty
      rw [isEmpty_iff.mp empty, nil_append]
    · rfl
  have inside : ∀ d ∈ ds.dropWhile (· == 48), sqlite3Isdigit d :=
    fun d member => digits d ((dropWhile_sublist _).subset member)
  refine ⟨zeros, ?_, ?_⟩
  · rw [zeros, takeWhile_append_of_pos inside, (while_stops stops).2, append_nil]
  · rw [zeros, dropWhile_append_of_pos inside, (while_stops stops).1]

private theorem magnitude_dropWhile (ds : List UInt8) :
    magnitude (ds.dropWhile (· == 48)) = magnitude ds := by
  induction ds with
  | nil => rfl
  | cons d ds ih =>
    rw [dropWhile_cons]
    split <;> rename_i zero
    · rw [ih, beq_iff_eq.mp zero]
      rfl
    · rfl

private theorem afterSign_append (numeral : Numeral t neg ds) :
    afterSign (t ++ tail) = (neg, ds ++ tail) := by
  obtain ⟨spaces, sign, rfl, blank, signed, some, digits⟩ := numeral
  obtain ⟨d, ds, rfl⟩ := exists_cons_of_ne_nil some
  have bounds := digit_bounds (digits d (by simp))
  have other : ∀ c : UInt8, d = c → 48 ≤ c.toNat ∧ c.toNat ≤ 57 := by rintro _ rfl; exact bounds
  unfold afterSign
  rw [append_assoc, dropWhile_append_of_pos blank]
  cases neg with
  | true => simp_all [sqlite3Isspace]
  | false =>
    rcases signed with rfl | rfl
    · have blank : ¬sqlite3Isspace d := by
        simp only [sqlite3Isspace, Bool.or_eq_true, beq_iff_eq, Bool.and_eq_true, decide_eq_true_eq]
        rintro (eq | ⟨-, high⟩)
        · exact absurd (other _ eq) (by decide)
        · exact absurd (bounds.1.trans high) (by decide)
      rw [nil_append, cons_append, dropWhile_cons_of_neg blank]
      split
      · rename_i eq
        exact absurd (other _ (List.cons.inj eq).1) (by decide)
      · rename_i eq
        exact absurd (other _ (List.cons.inj eq).1) (by decide)
      · rfl
    · simp [sqlite3Isspace]

private theorem numeral_of_afterSign {us : List UInt8} (eq : afterSign us = (neg, ds ++ tail))
    (some : ds ≠ []) (digits : ∀ d ∈ ds, sqlite3Isdigit d) :
    ∃ t, us = t ++ tail ∧ Numeral t neg ds := by
  have parts := us.takeWhile_append_dropWhile (p := sqlite3Isspace)
  have blank : ∀ c ∈ us.takeWhile sqlite3Isspace, sqlite3Isspace c :=
    all_eq_true.mp all_takeWhile
  generalize us.takeWhile sqlite3Isspace = spaces at parts blank
  have whole (sign : List UInt8) (found : us.dropWhile sqlite3Isspace = sign ++ (ds ++ tail)) :
      us = spaces ++ (sign ++ ds) ++ tail := by
    rw [← parts, found]
    simp
  unfold afterSign at eq
  split at eq <;> rename_i z found
  · cases eq
    exact ⟨_, whole [45] found, _, _, rfl, blank, rfl, some, digits⟩
  · cases eq
    exact ⟨_, whole [43] found, _, _, rfl, blank, .inr rfl, some, digits⟩
  · obtain ⟨rfl, rest⟩ := Prod.mk.inj eq
    exact ⟨_, whole [] rest, _, _, rfl, blank, .inl rfl, some, digits⟩

private theorem returned_dropWhile (neg : Bool) (digits : ∀ d ∈ ds, sqlite3Isdigit d)
    (ends : ∀ c ∈ tail.head?, c = 0) :
    returned neg false false (ds.dropWhile (· == 48)) tail = verdict neg (magnitude ds) := by
  have inside : ∀ d ∈ ds.dropWhile (· == 48), sqlite3Isdigit d :=
    fun d member => digits d ((dropWhile_sublist _).subset member)
  have stripped : (ds.dropWhile (· == 48)).head? ≠ some 48 :=
    fun head => head_dropWhile _ ds _ head rfl
  rw [returned_eq neg inside stripped ends, magnitude_dropWhile]

private theorem returned_large (neg nonNum : Bool) (digits : ∀ d ∈ ds, sqlite3Isdigit d)
    (large : 2 ^ 63 < magnitude ds) :
    returned neg nonNum false (ds.dropWhile (· == 48)) tail = 1 := by
  by_cases plain : nonNum = false ∧ ∀ c ∈ tail.head?, c = 0
  · rw [plain.1, returned_dropWhile neg digits plain.2]
    have cases := verdict_cases neg (magnitude ds)
    omega
  · refine if_pos ?_
    cases nonNum with
    | true => simp
    | false =>
      obtain ⟨c, head, nonzero⟩ : ∃ c, tail.head? = some c ∧ c ≠ 0 := by simpa using plain
      simp [head, nonzero]

private theorem sqlite3Atoi64_read {nonNum : Bool}
    (read : units beyond enc zNum = (t ++ tail, nonNum))
    (numeral : Numeral t neg ds) (stops : ∀ c ∈ tail.head?, ¬sqlite3Isdigit c) :
    sqlite3Atoi64 beyond zNum enc = (returned neg nonNum false (ds.dropWhile (· == 48)) tail,
      stored neg (magnitude ds % 2 ^ 64)) := by
  obtain ⟨-, -, -, -, -, some, digits⟩ := id numeral
  obtain ⟨zeros, taken, rest⟩ := scan_digits digits stops
  have begun : ((ds.dropWhile (· == 48)).isEmpty &&
      (ds ++ tail).length == (ds.dropWhile (· == 48) ++ tail).length) = false := by
    by_contra none
    simp only [Bool.not_eq_false, Bool.and_eq_true, List.isEmpty_iff, beq_iff_eq,
      length_append] at none
    rw [none.1, List.length_nil] at none
    exact some (length_eq_zero_iff.mp (by omega))
  have wrap : wrapped (2 ^ 64) 0 (digitValues (ds.dropWhile (· == 48))) = magnitude ds % 2 ^ 64 :=
    (wrapped_eq _ 0 _).trans (congrArg (· % 2 ^ 64) (magnitude_dropWhile ds))
  simp only [sqlite3Atoi64, read, afterSign_append numeral, taken, rest]
  rw [zeros, begun, wrap]

private theorem sqlite3Atoi64_eq (reads : Reads beyond zNum enc (t ++ tail))
    (numeral : Numeral t neg ds) (ends : ∀ c ∈ tail.head?, c = 0) : sqlite3Atoi64 beyond zNum enc =
      (verdict neg (magnitude ds), stored neg (magnitude ds % 2 ^ 64)) := by
  obtain ⟨-, -, -, -, -, -, digits⟩ := id numeral
  have stops : ∀ c ∈ tail.head?, ¬sqlite3Isdigit c := by
    intro c head
    rw [ends c head]
    decide
  rw [sqlite3Atoi64_read ((units_eq_iff ..).mpr reads) numeral stops,
    returned_dropWhile neg digits ends]

private theorem numeral_of_returned (success : (sqlite3Atoi64 beyond zNum enc).1 ≠ 1) :
    ∃ t tail neg ds, Reads beyond zNum enc (t ++ tail) ∧ Numeral t neg ds ∧
      ∀ c ∈ tail.head?, c = 0 := by
  unfold sqlite3Atoi64 at success
  cases decoded : units beyond enc zNum with | mk us nonNum
  cases sign : afterSign us with | mk neg zStart
  simp only [decoded, sign] at success
  have digits : ∀ d ∈ zStart.takeWhile sqlite3Isdigit, sqlite3Isdigit d :=
    all_eq_true.mp all_takeWhile
  obtain ⟨zeros, taken, rest⟩ := scan_digits digits (head_dropWhile _ zStart)
  rw [takeWhile_append_dropWhile] at zeros taken rest
  rw [taken, rest, returned, ite_ne_left_iff] at success
  simp only [Bool.or_eq_true, not_or, Bool.not_eq_true] at success
  obtain ⟨⟨⟨⟨ends, begun⟩, -⟩, rfl⟩, -⟩ := success
  have some : zStart.takeWhile sqlite3Isdigit ≠ [] := by
    intro none
    have whole := zStart.takeWhile_append_dropWhile (p := sqlite3Isdigit)
    rw [none] at whole
    rw [zeros, none, dropWhile_nil, whole] at begun
    simp at begun
  obtain ⟨t, rfl, numeral⟩ := numeral_of_afterSign
    (sign.trans (by rw [takeWhile_append_dropWhile])) some digits
  refine ⟨t, _, neg, _, (units_eq_iff ..).mp decoded, numeral, fun c head => ?_⟩
  rw [Option.mem_def.mp head] at ends
  simpa using ends

private theorem no_nul (numeral : Numeral t neg ds) : 0 ∉ t := by
  obtain ⟨spaces, sign, rfl, blank, signed, -, digits⟩ := numeral
  simp only [mem_append, not_or]
  refine ⟨fun member => absurd (blank 0 member) (by decide), ?_,
    fun member => absurd (digits 0 member) (by decide)⟩
  cases neg with
  | true => rw [signed]; decide
  | false => rcases signed with rfl | rfl <;> decide

private theorem inRange_iff : InRange (number neg ds) ↔
    magnitude ds < 2 ^ 63 ∨ (neg = true ∧ magnitude ds = 2 ^ 63) := by
  cases neg <;> simp [number, InRange]
  omega

private theorem stored_of_inRange (fits : InRange (number neg ds)) :
    stored neg (magnitude ds % 2 ^ 64) = number neg ds := by
  rw [inRange_iff] at fits
  rw [stored]
  cases neg <;> simp_all [number, largestInt64, smallestInt64] <;> omega

private theorem stored_eq_bound {m : Nat} :
    stored neg (m % 2 ^ 64) = (if neg then smallestInt64 else largestInt64) ↔
      2 ^ 63 ≤ m % 2 ^ 64 ∨ (neg = false ∧ m % 2 ^ 64 = 2 ^ 63 - 1) := by
  generalize m % 2 ^ 64 = u
  unfold stored
  cases neg <;> simp only [largestInt64, smallestInt64, Bool.false_eq_true] <;>
    split <;> simp <;> omega

private theorem Converts.faithful (converts : Converts beyond zNum enc) :
    Faithful beyond zNum enc := by
  refine ⟨fun t tail neg ds reads numeral ends small => ?_, fun neg ds scanned large => ?_⟩
  · have result := congrArg Prod.fst (sqlite3Atoi64_eq reads numeral ends)
    have decoded : ∀ t', zNum = encode enc t' → t' = t ++ tail := by
      rintro t' rfl
      exact (Prod.mk.inj ((units_encode enc t').symm.trans ((units_eq_iff ..).mpr reads))).1
    have whole : ∃ t', zNum = encode enc t' ∧ 0 ∉ t' ∧
        (neg = false → magnitude ds = 2 ^ 63 → 43 ∉ t') := by
      rcases verdict_cases neg (magnitude ds) with ⟨zero, fits⟩ | ⟨two, -⟩ | ⟨-, large⟩
      · obtain ⟨t', _, _, eq, numeral', -⟩ := converts.zero.mp (result.trans zero)
        refine ⟨t', eq, no_nul numeral', fun plus same => ?_⟩
        simp [plus, same] at fits
      · obtain ⟨t', _, eq, numeral', unsigned, -⟩ := converts.two.mp (result.trans two)
        exact ⟨t', eq, no_nul numeral', fun _ _ => unsigned⟩
      · omega
    obtain ⟨t', eq, free, unsigned⟩ := whole
    obtain rfl := decoded t' eq
    cases tail with
    | nil =>
      rw [append_nil] at eq unsigned
      exact ⟨eq, unsigned⟩
    | cons c tail => exact absurd (by rw [ends c rfl]; simp) free
  · obtain ⟨t, tail, nonNum, read, numeral, stops⟩ := id scanned
    have result := sqlite3Atoi64_read read numeral stops
    obtain ⟨-, -, -, -, -, -, digits⟩ := numeral
    have one := (congrArg Prod.fst result).trans (returned_large neg nonNum digits large)
    have bound := converts.large neg ds scanned (by rw [inRange_iff]; omega) one
    rw [result] at bound
    exact stored_eq_bound.mp bound

private theorem sqlite3Atoi64_encode (eq : zNum = encode enc t) (numeral : Numeral t neg ds) :
    sqlite3Atoi64 beyond zNum enc =
      (verdict neg (magnitude ds), stored neg (magnitude ds % 2 ^ 64)) :=
  sqlite3Atoi64_eq (.inl (by rwa [append_nil])) numeral (by simp)

private theorem Faithful.numeral (faithful : Faithful beyond zNum enc)
    (success : (sqlite3Atoi64 beyond zNum enc).1 ≠ 1) :
    ∃ t neg ds, zNum = encode enc t ∧ Numeral t neg ds ∧
      (neg = false → magnitude ds = 2 ^ 63 → 43 ∉ t) := by
  obtain ⟨t, tail, neg, ds, reads, numeral, ends⟩ := numeral_of_returned success
  have small : magnitude ds ≤ 2 ^ 63 := by
    rw [sqlite3Atoi64_eq reads numeral ends] at success
    have cases := verdict_cases neg (magnitude ds)
    omega
  obtain ⟨eq, unsigned⟩ := faithful.whole t tail neg ds reads numeral ends small
  exact ⟨t, neg, ds, eq, numeral, unsigned⟩

private theorem Faithful.converts (faithful : Faithful beyond zNum enc) :
    Converts beyond zNum enc := by
  refine ⟨⟨?_, ?_⟩, ?_, ⟨?_, ?_⟩, ?_⟩
  · intro zero
    obtain ⟨t, neg, ds, eq, numeral, -⟩ := faithful.numeral (by omega)
    rw [sqlite3Atoi64_encode eq numeral] at zero
    refine ⟨t, neg, ds, eq, numeral, inRange_iff.mpr ?_⟩
    rcases verdict_cases neg (magnitude ds) with ⟨-, fits⟩ | ⟨two, -⟩ | ⟨one, -⟩
    · exact fits
    · cases two.symm.trans zero
    · cases one.symm.trans zero
  · rintro ⟨t, neg, ds, eq, numeral, fits⟩
    rw [inRange_iff] at fits
    rw [sqlite3Atoi64_encode eq numeral]
    have cases := verdict_cases neg (magnitude ds)
    grind
  · intro t neg ds eq numeral fits
    rw [sqlite3Atoi64_encode eq numeral]
    exact stored_of_inRange fits
  · intro two
    obtain ⟨t, neg, ds, eq, numeral, unsigned⟩ := faithful.numeral (by omega)
    rw [sqlite3Atoi64_encode eq numeral] at two
    rcases verdict_cases neg (magnitude ds) with ⟨zero, -⟩ | ⟨-, rfl, same⟩ | ⟨one, -⟩
    · cases zero.symm.trans two
    · exact ⟨t, ds, eq, numeral, unsigned rfl same, same⟩
    · cases one.symm.trans two
  · rintro ⟨t, ds, eq, numeral, -, same⟩
    rw [sqlite3Atoi64_encode eq numeral, same]
    rfl
  · intro neg ds scanned large one
    obtain ⟨t, tail, nonNum, read, numeral, stops⟩ := id scanned
    rw [sqlite3Atoi64_read read numeral stops]
    rw [inRange_iff] at large
    rcases Nat.lt_or_ge (2 ^ 63) (magnitude ds) with above | at_most
    · exact stored_eq_bound.mpr (faithful.wraps neg ds scanned above)
    · exact stored_eq_bound.mpr (.inl (by omega))

/-- The result is that of the comment exactly for the inputs that are read to their end and whose
number does not wrap to another one. -/
theorem converts_iff (beyond : UInt8) (zNum : List UInt8) (enc : Encoding) :
    Converts beyond zNum enc ↔ Faithful beyond zNum enc :=
  ⟨Converts.faithful, Faithful.converts⟩

/-- A NUL and what follows it are ignored, 2^64 is stored as 0, an odd byte is dropped, and a plus
before 2^63 makes no difference. -/
theorem sqlite3Atoi64_diverges : sqlite3Atoi64 0 [49, 50, 0, 122] .utf8 = (0, 12) ∧
    sqlite3Atoi64 0 [49, 56, 52, 52, 54, 55, 52, 52, 48, 55, 51, 55, 48, 57, 53, 53, 49, 54, 49, 54]
      .utf8 = (1, 0) ∧
    sqlite3Atoi64 0 [49, 0, 122] .utf16le = (0, 1) ∧
    sqlite3Atoi64 0 [43, 57, 50, 50, 51, 51, 55, 50, 48, 51, 54, 56, 53, 52, 55, 55, 53, 56, 48, 56]
      .utf8 = (2, 2 ^ 63 - 1) := by
  decide

end

end SeSqlite.Atoi64
