/- digest: The value of a list of decimal digits, the most significant first. -/
import Mathlib.Tactic.Ring

set_option autoImplicit false
set_option relaxedAutoImplicit false

namespace SeSqlite.Lib.Numeral

def value (v : Nat) (ds : List Nat) : Nat := ds.foldl (fun v d => v * 10 + d) v

/-- The same in arithmetic modulo `m`. -/
def wrapped (m v : Nat) (ds : List Nat) : Nat := ds.foldl (fun v d => (v * 10 + d) % m) v

theorem wrapped_eq (m v : Nat) (ds : List Nat) : wrapped m (v % m) ds = value v ds % m := by
  induction ds generalizing v with
  | nil => rfl
  | cons d ds ih =>
    have step : (v % m * 10 + d) % m = (v * 10 + d) % m := by simp [Nat.add_mod, Nat.mul_mod]
    exact (congrArg (wrapped m · ds) step).trans (ih _)

theorem le_value (v : Nat) (ds : List Nat) : v * 10 ^ ds.length ≤ value v ds := by
  induction ds generalizing v with
  | nil => simp [value]
  | cons d ds ih =>
    calc v * 10 ^ (ds.length + 1) = v * 10 * 10 ^ ds.length := by ring
      _ ≤ (v * 10 + d) * 10 ^ ds.length := Nat.mul_le_mul_right _ (Nat.le_add_right _ _)
      _ ≤ value v (d :: ds) := ih _

theorem value_lt (v : Nat) {ds : List Nat} (small : ∀ d ∈ ds, d < 10) :
    value v ds < (v + 1) * 10 ^ ds.length := by
  induction ds generalizing v with
  | nil => simp [value]
  | cons d ds ih =>
    have digit := small d (by simp)
    calc value v (d :: ds)
      _ < (v * 10 + d + 1) * 10 ^ ds.length := ih _ fun d member => small d (by simp [member])
      _ ≤ (v + 1) * 10 * 10 ^ ds.length := Nat.mul_le_mul_right _ (by omega)
      _ = (v + 1) * 10 ^ (ds.length + 1) := by ring

theorem value_lt_value {ds es : List Nat} {v w : Nat} (less : v < w) (small : ∀ d ∈ ds, d < 10)
    (length : ds.length = es.length) : value v ds < value w es :=
  calc value v ds < (v + 1) * 10 ^ ds.length := value_lt v small
    _ ≤ w * 10 ^ es.length := length ▸ Nat.mul_le_mul_right _ less
    _ ≤ value w es := le_value w es

end SeSqlite.Lib.Numeral
