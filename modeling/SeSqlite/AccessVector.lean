/- source: ext/security/sesqlite/sesqlite.h, ext/security/sesqlite/sesqlite_authorizer.h
   digest: Classes, permissions, their codes, and the packed key of a decision. -/
import Mathlib.Algebra.Ring.Int.Defs
import SeSqlite.Contexts

set_option autoImplicit false
set_option relaxedAutoImplicit false

namespace SeSqlite.AccessVector

open Contexts List

/-- One class of `access_vector`. The source pads `perm` with null names up to 32 slots. -/
structure AccessClass where
  cName : String
  cCode : Nat
  perm : List (String × Nat)
  deriving DecidableEq, Repr

def accessVector : List AccessClass :=
  [⟨"db_database", 0, [("create", 0), ("drop", 1), ("getattr", 2), ("setattr", 3),
      ("relabelfrom", 4), ("relabelto", 5), ("access", 6)]⟩,
    ⟨"db_table", 1, [("create", 0), ("drop", 1), ("getattr", 2), ("setattr", 3),
      ("relabelfrom", 4), ("relabelto", 5), ("select", 6), ("update", 7), ("insert", 8),
      ("delete", 9)]⟩,
    ⟨"db_column", 2, [("create", 0), ("drop", 1), ("getattr", 2), ("setattr", 3),
      ("relabelfrom", 4), ("relabelto", 5), ("select", 6), ("update", 7), ("insert", 8)]⟩,
    ⟨"db_tuple", 3, [("relabelfrom", 4), ("relabelto", 5), ("select", 6), ("update", 7),
      ("insert", 8), ("delete", 9)]⟩]

/-- `SELINUX_NELEM_PERM`; the scan also visits the slot with this index. -/
def selinuxNelemPerm : Nat := 10

/-- The inner loop of the scan: `slots` slots from here on are compared, and a null name is
read when the listed ones are exhausted. -/
def scanPerms (zPerm : String) : List (String × Nat) → (slots : Nat) → Except Fault (Option Nat)
  | _, 0 => .ok none
  | [], _ + 1 => .error .badRead
  | p :: rest, slots + 1 => if p.1 = zPerm then .ok (some p.2) else scanPerms zPerm rest slots

/-- The outer loop: a matching class with a matching permission replaces the codes. -/
def scanClasses (zClass zPerm : String) : List AccessClass → Nat × Nat → Except Fault (Nat × Nat)
  | [], codes => .ok codes
  | c :: rest, codes =>
    if c.cName = zClass then
      match scanPerms zPerm c.perm (selinuxNelemPerm + 1) with
      | .error fault => .error fault
      | .ok none => scanClasses zClass zPerm rest codes
      | .ok (some tperm) => scanClasses zClass zPerm rest (c.cCode, tperm)
    else scanClasses zClass zPerm rest codes

/-- The codes that `selinuxCheckAccessFunction` finds for two strings, from `0, 0` on. -/
def codesOf (zClass zPerm : String) : Except Fault (Nat × Nat) :=
  scanClasses zClass zPerm accessVector (0, 0)

/-- `compress`: two 16-bit and two 8-bit arguments packed into 32 bits by addition. -/
def compress (source target : Int) (tclass perm : Nat) : Int :=
  ((perm % 256 : Nat) + (tclass % 256 : Nat) * 2 ^ 5 + target % 65536 * 2 ^ 8 +
    source % 65536 * 2 ^ 20) % 2 ^ 32

/-- The pair of names is an entry of `access_vector` with these codes. -/
def Listed (zClass zPerm : String) (codes : Nat × Nat) : Prop :=
  ∃ c ∈ accessVector, c.cName = zClass ∧ c.cCode = codes.1 ∧ (zPerm, codes.2) ∈ c.perm

/-- The class name is one of `access_vector`. -/
def KnownClass (zClass : String) : Prop := ∃ c ∈ accessVector, c.cName = zClass

/-- The id is not changed by the conversion to `unsigned short`. -/
def Fits (id : Int) : Prop := 0 ≤ id ∧ id < 65536

variable {zClass zPerm : String} {codes : Nat × Nat} {perms : List (String × Nat)} {slots : Nat}

theorem Listed.small (listed : Listed zClass zPerm codes) : codes.1 < 8 ∧ codes.2 < 32 := by
  obtain ⟨c, member, -, code, entry⟩ := listed
  have each : ∀ c ∈ accessVector, c.cCode < 8 ∧ ∀ p ∈ c.perm, p.2 < 32 := by decide
  exact ⟨code ▸ (each c member).1, (each c member).2 _ entry⟩

theorem Listed.names_eq {zClass' zPerm' : String} (listed : Listed zClass zPerm codes)
    (listed' : Listed zClass' zPerm' codes) : zClass = zClass' ∧ zPerm = zPerm' := by
  obtain ⟨c, member, rfl, code, entry⟩ := listed
  obtain ⟨c', member', rfl, code', entry'⟩ := listed'
  have classes : ∀ c ∈ accessVector, ∀ c' ∈ accessVector, c.cCode = c'.cCode → c = c' := by
    decide
  have perms : ∀ c ∈ accessVector, ∀ p ∈ c.perm, ∀ p' ∈ c.perm, p.2 = p'.2 → p = p' := by
    decide
  obtain rfl := classes c member c' member' (code.trans code'.symm)
  exact ⟨rfl, congrArg Prod.fst (perms c member _ entry _ entry' rfl)⟩

theorem compress_inj {source target target' : Int} {codes' : Nat × Nat} (fits : Fits target)
    (fits' : Fits target') (small : codes.1 < 8 ∧ codes.2 < 32)
    (small' : codes'.1 < 8 ∧ codes'.2 < 32)
    (eq : compress source target codes.1 codes.2 = compress source target' codes'.1 codes'.2) :
    target = target' ∧ codes = codes' := by
  obtain ⟨low, high⟩ := fits
  obtain ⟨low', high'⟩ := fits'
  simp only [compress] at eq
  have split : target = target' ∧ codes.1 = codes'.1 ∧ codes.2 = codes'.2 := by omega
  exact ⟨split.1, Prod.ext split.2.1 split.2.2⟩

private theorem scanPerms_some {tperm : Nat}
    (found : scanPerms zPerm perms slots = .ok (some tperm)) : (zPerm, tperm) ∈ perms := by
  induction perms generalizing slots with
  | nil => cases slots <;> cases found
  | cons p rest ih =>
    cases slots with
    | zero => cases found
    | succ slots =>
      rw [scanPerms] at found
      split at found
      · rename_i eq
        cases found
        exact eq ▸ mem_cons_self
      · exact mem_cons_of_mem _ (ih found)

/-- No class lists as many permissions as the scan has slots, so a scan without a match
always reads a null name. -/
private theorem scanPerms_ne_none (short : perms.length < slots) :
    scanPerms zPerm perms slots ≠ .ok none := by
  induction perms generalizing slots with
  | nil => cases slots <;> simp_all [scanPerms]
  | cons p rest ih =>
    cases slots with
    | zero => simp at short
    | succ slots =>
      rw [scanPerms]
      split
      · simp
      · exact ih (by simpa using short)

private theorem scanClasses_ok {cs : List AccessClass}
    (short : ∀ c ∈ cs, c.perm.length < selinuxNelemPerm + 1) {start : Nat × Nat}
    (found : scanClasses zClass zPerm cs start = .ok codes) :
    (codes = start ∧ ∀ c ∈ cs, c.cName ≠ zClass) ∨
      ∃ c ∈ cs, c.cName = zClass ∧ c.cCode = codes.1 ∧ (zPerm, codes.2) ∈ c.perm := by
  induction cs generalizing start with
  | nil =>
    cases found
    exact .inl ⟨rfl, by simp⟩
  | cons c rest ih =>
    have later := fun c member => short c (mem_cons_of_mem _ member)
    rw [scanClasses] at found
    split at found
    · rename_i name
      split at found
      · cases found
      · rename_i unmatched
        exact absurd unmatched (scanPerms_ne_none (short c mem_cons_self))
      · rename_i tperm matched
        rcases ih later found with ⟨rfl, -⟩ | ⟨c', member, entry⟩
        · exact .inr ⟨c, mem_cons_self, name, rfl, scanPerms_some matched⟩
        · exact .inr ⟨c', mem_cons_of_mem _ member, entry⟩
    · rename_i name
      rcases ih later found with ⟨rfl, others⟩ | ⟨c', member, entry⟩
      · exact .inl ⟨rfl, forall_mem_cons.mpr ⟨name, others⟩⟩
      · exact .inr ⟨c', mem_cons_of_mem _ member, entry⟩

theorem listed_of_codesOf (known : KnownClass zClass) (found : codesOf zClass zPerm = .ok codes) :
    Listed zClass zPerm codes := by
  have short : ∀ c ∈ accessVector, c.perm.length < selinuxNelemPerm + 1 := by decide
  rcases scanClasses_ok short found with ⟨-, absent⟩ | listed
  · obtain ⟨c, member, name⟩ := known
    exact absurd name (absent c member)
  · exact listed

end SeSqlite.AccessVector
