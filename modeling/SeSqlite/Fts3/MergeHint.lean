/- source: ext/fts3/fts3_write.c, ext/fts3/fts3.c
   digest: The hint of the incremental merge is a stack of pairs with fewer than 128 segments. -/
import Mathlib.Algebra.Order.Ring.Int
import Mathlib.Data.List.DropRight
import SeSqlite.Lib.Runs

set_option autoImplicit false
set_option relaxedAutoImplicit false

namespace SeSqlite.Fts3

open Lib.Runs List

section

def sqlite3Fts3PutVarint (v : Nat) : List UInt8 :=
  if v < 128 then [.ofNat v] else .ofNat (v % 128 + 128) :: sqlite3Fts3PutVarint (v / 128)

/-- The bytes from the `k`th on, after a value; `last` is for the byte behind so many rounds. -/
def getFrom (last : Nat → Nat → UInt8 → Nat × Nat) : (rounds k v : Nat) → List UInt8 → Nat × Nat
  | 0, k, v, p => last k v (p.headD 0)
  | rounds + 1, k, v, p =>
    let c := (p.headD 0).toNat
    let v := v + c % 128 * 2 ^ (7 * k)
    if c < 128 then (v, k + 1) else getFrom last rounds (k + 1) v p.tail

/-- The value and the number of bytes, of which there are ten at most. -/
def sqlite3Fts3GetVarint (p : List UInt8) : Nat × Nat :=
  (getFrom (fun k v _ => (v, k)) 10 0 0 p).map (· % 2 ^ 64) id

/-- The macro over `sqlite3Fts3GetVarint32`: four bits of the fifth byte are used. -/
def fts3GetVarint32 (p : List UInt8) : Nat × Nat :=
  getFrom (fun k v c => (v + c.toNat % 16 * 2 ^ 28, k + 1)) 4 0 0 p

def continues (b : UInt8) : Bool := 128 ≤ b.toNat

theorem putVarint_split (v : Nat) : ∃ front b, sqlite3Fts3PutVarint v = front ++ [b] ∧
    (∀ c ∈ front, continues c) ∧ continues b = false ∧ (front = [] ↔ v < 128) := by
  fun_induction sqlite3Fts3PutVarint v with
  | case1 v small =>
    refine ⟨[], .ofNat v, rfl, nofun, ?_, by simpa using small⟩
    simp [continues]
    omega
  | case2 v large ih =>
    obtain ⟨front, b, split, inside, final, -⟩ := ih
    refine ⟨.ofNat (v % 128 + 128) :: front, b, by rw [split, cons_append], ?_, final, ?_⟩
    · refine forall_mem_cons.mpr ⟨?_, inside⟩
      simp [continues]
      omega
    · simpa using large

variable {last : Nat → Nat → UInt8 → Nat × Nat}

theorem getFrom_putVarint {rounds v : Nat} (fits : v < 128 ^ (rounds + 1)) (k acc : Nat)
    (rest : List UInt8) : getFrom last (rounds + 1) k acc (sqlite3Fts3PutVarint v ++ rest) =
      (acc + v * 2 ^ (7 * k), k + (sqlite3Fts3PutVarint v).length) := by
  have low : v % 256 = v ∨ 128 ≤ v := by omega
  have byte : (v % 128 + 128) % 256 = v % 128 + 128 := by omega
  induction rounds generalizing v k acc with
  | zero =>
    have small : v < 128 := by simpa using fits
    have whole : v % 256 = v ∧ v % 128 = v := by omega
    rw [sqlite3Fts3PutVarint]
    simp [getFrom, whole, small]
  | succ rounds ih =>
    rw [sqlite3Fts3PutVarint]
    split
    · rename_i small
      have whole : v % 256 = v ∧ v % 128 = v := by omega
      simp [getFrom, whole, small]
    · have later := @ih (v / 128) (by rw [Nat.pow_succ] at fits; omega) (k + 1)
        (acc + v % 128 * 2 ^ (7 * k)) (by omega) (by omega)
      have sum : v % 128 * 2 ^ (7 * k) + v / 128 * 2 ^ (7 * (k + 1)) = v * 2 ^ (7 * k) := by
        rw [Nat.mul_succ, Nat.pow_add, Nat.mul_comm (2 ^ (7 * k)), ← Nat.mul_assoc, ← Nat.add_mul,
          Nat.mul_comm (v / 128)]
        exact congrArg (· * _) (Nat.mod_add_div v 128)
      rw [cons_append, getFrom]
      simp only [headD_cons, UInt8.toNat_ofNat', byte, tail_cons]
      rw [Nat.add_mod_right, Nat.mod_mod, later, Nat.add_assoc acc, sum, Nat.add_right_comm]
      rfl

theorem lt_getFrom (further : ∀ k v c, k < (last k v c).2) (rounds k v : Nat) (p : List UInt8) :
    k < (getFrom last rounds k v p).2 := by
  induction rounds generalizing k v p with
  | zero => exact further k v _
  | succ rounds ih =>
    rw [getFrom]
    split
    · exact Nat.lt_succ_self k
    · exact (Nat.lt_succ_self k).trans (ih (k + 1) _ _)

theorem getVarint_putVarint {v : Nat} (small : v < 2 ^ 64) (rest : List UInt8) :
    sqlite3Fts3GetVarint (sqlite3Fts3PutVarint v ++ rest) =
      (v, (sqlite3Fts3PutVarint v).length) := by
  have fits : v < 128 ^ (9 + 1) := small.trans (by simp)
  unfold sqlite3Fts3GetVarint
  rw [getFrom_putVarint fits 0 0 rest]
  refine Prod.ext ?_ (Nat.zero_add _)
  change (0 + v * 2 ^ (7 * 0)) % 2 ^ 64 = v
  omega

structure Entry where
  iAbsLevel : Nat
  nInput : Nat
  level : iAbsLevel < 2 ^ 63
  positive : 0 < nInput
  int : nInput < 2 ^ 31

def fts3IncrmergeHintPush (pHint : List UInt8) (e : Entry) : List UInt8 :=
  pHint ++ (sqlite3Fts3PutVarint e.iAbsLevel ++ sqlite3Fts3PutVarint e.nInput)

/-- The hint that is left and the pair, absent if the hint is found corrupt. `behind` is the memory
behind the hint. The search for the start of the pair passes over the bytes that continue a number,
twice. -/
def fts3IncrmergeHintPop (behind pHint : List UInt8) : List UInt8 × Option (Nat × Nat) :=
  let rest := ((pHint.take (pHint.length - 2)).rdropWhile continues).rdropWhile continues
  let level := sqlite3Fts3GetVarint ((pHint ++ behind).drop rest.length)
  let i := rest.length + level.2
  let nInput := fts3GetVarint32 ((pHint ++ behind).drop i)
  (rest, if i + nInput.2 = pHint.length then some (level.1, nInput.1) else none)

variable {front back hint : List UInt8} (behind : List UInt8) (e : Entry)

theorem search_start (final : ∀ b ∈ front.getLast?, continues b = false)
    (inside : ∀ b ∈ back, continues b) (b b' : UInt8) (whole : hint = front ++ (back ++ [b, b'])) :
    ((hint.take (hint.length - 2)).rdropWhile continues).rdropWhile continues = front := by
  have cut : hint.take (hint.length - 2) = front ++ back := by
    rw [whole, ← append_assoc]
    exact take_left' (by simp; omega)
  rw [cut, rdropWhile_idempotent, rdropWhile, reverse_append,
    dropWhile_append_of_pos (by simpa using inside)]
  exact rdropWhile_eq_self_iff.mpr fun some_byte => by
    simp [final _ (getLast?_eq_some_getLast some_byte)]

theorem hintPop_small (final : ∀ b ∈ front.getLast?, continues b = false)
    (small : e.nInput < 128) : fts3IncrmergeHintPop behind (fts3IncrmergeHintPush front e) =
      (front, some (e.iAbsLevel, e.nInput)) := by
  obtain ⟨bytes, b, split, inside, -, -⟩ := putVarint_split e.iAbsLevel
  have single : sqlite3Fts3PutVarint e.nInput = [UInt8.ofNat e.nInput] := by
    rw [sqlite3Fts3PutVarint, if_pos small]
  have level := @getVarint_putVarint e.iAbsLevel (e.level.trans (by simp))
    ([UInt8.ofNat e.nInput] ++ behind)
  have count : fts3GetVarint32 ([UInt8.ofNat e.nInput] ++ behind) = (e.nInput, 1) := by
    have fits : e.nInput < 128 ^ (3 + 1) := small.trans (by simp)
    rw [← single, fts3GetVarint32, getFrom_putVarint fits]
    simp [single]
  rw [fts3IncrmergeHintPush, single, fts3IncrmergeHintPop]
  rw [search_start final inside b (.ofNat e.nInput) (by rw [split]; simp), append_assoc,
    drop_left, append_assoc, level]
  rw [drop_append, drop_eq_nil_of_le (Nat.le_add_right _ _), nil_append, Nat.add_sub_cancel_left,
    drop_left, count, if_pos (by simp [Nat.add_assoc])]

/-- If the second number has more bytes, the search ends at its start. -/
theorem hintPop_large (large : ¬ e.nInput < 128) :
    (fts3IncrmergeHintPop behind (fts3IncrmergeHintPush front e)).2 = none := by
  obtain ⟨bytes, b, split, -, last, -⟩ := putVarint_split e.iAbsLevel
  obtain ⟨bytes', b', split', inside', -, single⟩ := putVarint_split e.nInput
  obtain ⟨more, c, rfl⟩ := (eq_nil_or_concat' bytes').resolve_left fun none =>
    large (single.mp none)
  have final : ∀ d ∈ (front ++ sqlite3Fts3PutVarint e.iAbsLevel).getLast?,
      continues d = false := by
    rw [split]
    simpa using last
  have within : ∀ d ∈ more, continues d := fun d member => inside' d (by simp [member])
  rw [fts3IncrmergeHintPush, ← append_assoc, fts3IncrmergeHintPop]
  rw [search_start final within c b' (by rw [split']; simp), append_assoc _ _ behind, drop_left,
    getVarint_putVarint (e.int.trans (by simp))]
  refine if_neg (Nat.ne_of_gt ?_)
  rw [← length_append]
  exact Nat.lt_add_of_pos_right (lt_getFrom (fun k _ _ => Nat.lt_succ_self k) 4 0 0 _)

inductive Op where
  | push (e : Entry)
  | pop (behind : List UInt8)

/-- The hint, and the pairs that have not been popped, each with the hint before it was pushed. -/
structure State where
  hint : List UInt8
  pushed : List (Entry × List UInt8)

/-- Nothing is popped from an empty hint. -/
def step (s : State) : Op → State
  | .push e => ⟨fts3IncrmergeHintPush s.hint e, (e, s.hint) :: s.pushed⟩
  | .pop behind =>
    match s.pushed with
    | [] => s
    | _ :: pushed => ⟨(fts3IncrmergeHintPop behind s.hint).1, pushed⟩

/-- A pop gives the last pair, and leaves the hint from before its push. -/
def PopsLast (s : State) : Op → Prop
  | .push _ => True
  | .pop behind => ∀ last ∈ s.pushed.head?, fts3IncrmergeHintPop behind s.hint =
    (last.2, some (last.1.iAbsLevel, last.1.nInput))

def PopsSmall (s : State) : Op → Prop
  | .push _ => True
  | .pop _ => ∀ last ∈ s.pushed.head?, last.1.nInput < 128

def Stacked : List UInt8 → List (Entry × List UInt8) → Prop
  | hint, [] => hint = []
  | hint, (e, before) :: pushed => hint = fts3IncrmergeHintPush before e ∧ Stacked before pushed

variable {s : State} (stacked : Stacked s.hint s.pushed) (op : Op)

theorem Stacked.final {pushed : List (Entry × List UInt8)} (stacked : Stacked hint pushed) :
    ∀ b ∈ hint.getLast?, continues b = false := by
  cases pushed with
  | nil => simp [show hint = [] from stacked]
  | cons last pushed =>
    obtain ⟨bytes, b, split, -, final, -⟩ := putVarint_split last.1.nInput
    rw [stacked.1, fts3IncrmergeHintPush, split]
    simpa using final

include stacked

theorem popsLast_iff : PopsLast s op ↔ PopsSmall s op := by
  obtain ⟨hint, pushed⟩ := s
  rcases op with e | behind
  · rfl
  rcases pushed with _ | ⟨⟨e, before⟩, pushed⟩
  · simp [PopsLast, PopsSmall]
  obtain ⟨rfl, below⟩ := stacked
  simp only [PopsLast, PopsSmall, head?_cons, Option.mem_some_iff, forall_eq']
  constructor
  · intro same
    by_contra large
    have none := @hintPop_large before behind e large
    rw [same] at none
    cases none
  · exact hintPop_small behind e below.final

theorem step_stacked (right : PopsLast s op) : Stacked (step s op).hint (step s op).pushed := by
  obtain ⟨hint, pushed⟩ := s
  rcases op with e | behind
  · exact ⟨rfl, stacked⟩
  rcases pushed with _ | ⟨⟨e, before⟩, pushed⟩
  · exact stacked
  · change Stacked (fts3IncrmergeHintPop behind hint).1 pushed
    rw [right _ rfl]
    exact stacked.2

omit stacked

/-- Every pop of a run gives the last pair and restores the hint exactly if all pairs that are
popped have fewer than 128 segments. -/
theorem hint_stack_iff (run : List Op) :
    Along step PopsLast ⟨[], []⟩ run ↔ Along step PopsSmall ⟨[], []⟩ run := by
  have start : Stacked (State.mk [] []).hint (State.mk [] []).pushed := rfl
  constructor
  · exact along_of_invariant (I := fun s => Stacked s.hint s.pushed)
      (fun _ op stacked right => step_stacked stacked op right)
      (fun _ op stacked right => (popsLast_iff stacked op).mp right) start
  · exact along_of_invariant (I := fun s => Stacked s.hint s.pushed)
      (fun _ op stacked small => step_stacked stacked op ((popsLast_iff stacked op).mpr small))
      (fun _ op stacked small => (popsLast_iff stacked op).mpr small) start

/-- A pair with 128 segments cannot be popped. -/
theorem two_byte_count_corrupt : (fts3IncrmergeHintPop [] (fts3IncrmergeHintPush []
    ⟨0, 128, by decide, by decide, by decide⟩)).2 = none :=
  hintPop_large [] _ (by decide)

end

end SeSqlite.Fts3
