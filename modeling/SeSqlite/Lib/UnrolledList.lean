/- scope: general, no program is named here
   digest: Linked blocks of entries in a memory of words, and how a link or an entry is changed. -/
import Mathlib.Data.List.Induction
import Mathlib.Data.List.Nodup
import Mathlib.Data.List.Perm.Basic

set_option autoImplicit false
set_option relaxedAutoImplicit false

namespace SeSqlite.Lib.UnrolledList

open List

/-- Words by block and position. -/
abbrev Mem := Nat → Nat → Nat

def put (mem : Mem) (block word value : Nat) : Mem := fun b w =>
  if b = block ∧ w = word then value else mem b w

/-- A block holds the link to the next one, the number of its entries, and the entries. Link 0 ends
the list. -/
def Chain (mem : Mem) : Nat → List (Nat × List Nat) → Prop
  | first, [] => first = 0
  | first, (t, entries) :: rest => first = t ∧ mem t 1 = entries.length ∧
      (∀ i e, entries[i]? = some e → mem t (2 + i) = e) ∧ Chain mem (mem t 0) rest

def members (blocks : List (Nat × List Nat)) : List Nat := blocks.flatMap fun b => b.1 :: b.2

section

variable {mem : Mem} {block word value : Nat}

@[simp] theorem put_same : put mem block word value block word = value := by simp [put]

theorem put_other_block {b w : Nat} (other : b ≠ block) :
    put mem block word value b w = mem b w := if_neg fun same => other same.1

theorem put_other_word {b w : Nat} (other : w ≠ word) :
    put mem block word value b w = mem b w := if_neg fun same => other same.2

variable {mem mem' : Mem} {first e : Nat} {blocks pre rest : List (Nat × List Nat)}
  {b : Nat × List Nat}

@[simp] theorem members_nil : members [] = [] := rfl

theorem members_cons (b : Nat × List Nat) (blocks : List (Nat × List Nat)) :
    members (b :: blocks) = b.1 :: (b.2 ++ members blocks) := rfl

theorem members_append (pre rest : List (Nat × List Nat)) :
    members (pre ++ rest) = members pre ++ members rest := flatMap_append

theorem length_le_members (blocks : List (Nat × List Nat)) :
    blocks.length ≤ (members blocks).length := by
  induction blocks with
  | nil => exact Nat.le_refl _
  | cons b blocks ih =>
    rw [members_cons, length_cons, length_cons, length_append]
    omega

theorem mem_members_block (listed : b ∈ blocks) : b.1 ∈ members blocks :=
  mem_flatMap.mpr ⟨b, listed, mem_cons_self⟩

theorem mem_members_entry (listed : b ∈ blocks) (entry : e ∈ b.2) :
    e ∈ members blocks := mem_flatMap.mpr ⟨b, listed, mem_cons_of_mem _ entry⟩

theorem Chain.congr (chain : Chain mem first blocks)
    (same : ∀ b ∈ blocks, ∀ w, mem' b.1 w = mem b.1 w) : Chain mem' first blocks := by
  induction blocks generalizing first with
  | nil => exact chain
  | cons b rest ih =>
    obtain ⟨at_first, count, entries, tail⟩ := chain
    rw [forall_mem_cons] at same
    refine ⟨at_first, by rw [same.1]; exact count, fun i e here => ?_, ?_⟩
    · rw [same.1]
      exact entries i e here
    · rw [same.1]
      exact ih tail same.2

def linkAfter (mem : Mem) (first : Nat) (pre : List (Nat × List Nat)) : Nat :=
  match pre.getLast? with
  | none => first
  | some b => mem b.1 0

theorem linkAfter_concat (pre : List (Nat × List Nat)) (b : Nat × List Nat) :
    linkAfter mem first (pre ++ [b]) = mem b.1 0 := by
  simp [linkAfter]

theorem linkAfter_cons (b : Nat × List Nat) (pre : List (Nat × List Nat)) :
    linkAfter mem first (b :: pre) = linkAfter mem (mem b.1 0) pre := by
  cases pre using List.reverseRecOn with
  | nil => rfl
  | append_singleton pre c =>
    rw [linkAfter_concat, ← cons_append, linkAfter_concat]

theorem Chain.after (chain : Chain mem first (pre ++ rest)) :
    Chain mem (linkAfter mem first pre) rest := by
  induction pre generalizing first with
  | nil => exact chain
  | cons b pre ih =>
    rw [linkAfter_cons]
    exact ih chain.2.2.2

/-- The first link, or the link of the last block passed, is set to another rest of the list. -/
def relink (mem : Mem) (pre : List (Nat × List Nat)) (link : Nat) : Mem :=
  match pre.getLast? with
  | none => mem
  | some b => put mem b.1 0 link

theorem relink_concat (pre : List (Nat × List Nat)) (b : Nat × List Nat) (link : Nat) :
    relink mem (pre ++ [b]) link = put mem b.1 0 link := by
  simp [relink]

theorem Chain.relink (chain : Chain mem first (pre ++ rest)) (distinct : (members pre).Nodup)
    {link : Nat} {rest' : List (Nat × List Nat)} (tail : Chain mem' link rest')
    (same : ∀ b ∈ pre, ∀ w, mem' b.1 w = UnrolledList.relink mem pre link b.1 w) :
    Chain mem' (if pre = [] then link else first) (pre ++ rest') := by
  induction pre generalizing first mem with
  | nil => exact tail
  | cons b pre ih =>
    obtain ⟨at_first, count, entries, later⟩ := chain
    have words : ∀ w, w ≠ 0 → mem' b.1 w = mem b.1 w := by
      intro w nonzero
      rw [same b mem_cons_self, UnrolledList.relink]
      cases (b :: pre).getLast? with
      | none => rfl
      | some c => exact put_other_word nonzero
    refine ⟨at_first, ?_, fun i e here => ?_, ?_⟩
    · rw [words 1 (by decide)]
      exact count
    · rw [words (2 + i) (by omega)]
      exact entries i e here
    · rw [members_cons, nodup_cons] at distinct
      cases pre using List.reverseRecOn with
      | nil =>
        have link_here : mem' b.1 0 = link := by
          rw [same b mem_cons_self]
          exact put_same
        rw [link_here]
        exact tail
      | append_singleton pre c =>
        have apart : b.1 ≠ c.1 := by
          intro eq
          refine distinct.1 (mem_append_right _ (eq ▸ mem_members_block (b := c) ?_))
          simp
        have link_here : mem' b.1 0 = mem b.1 0 := by
          rw [same b mem_cons_self, ← cons_append, relink_concat]
          exact put_other_block apart
        have inner := ih later (nodup_append.mp distinct.2).2.1 fun d listed w => by
          rw [same d (mem_cons_of_mem _ listed), ← cons_append, relink_concat, relink_concat]
        rw [if_neg (by simp)] at inner
        rw [link_here]
        exact inner

theorem Chain.replace {t : Nat} {entries entries' : List Nat}
    (chain : Chain mem first (pre ++ (t, entries) :: rest))
    (others : ∀ b ∈ pre ++ rest, ∀ w, mem' b.1 w = mem b.1 w) (link : mem' t 0 = mem t 0)
    (count : mem' t 1 = entries'.length)
    (listed : ∀ i e, entries'[i]? = some e → mem' t (2 + i) = e) :
    Chain mem' first (pre ++ (t, entries') :: rest) := by
  induction pre generalizing first with
  | nil =>
    obtain ⟨at_first, -, -, tail⟩ := chain
    refine ⟨at_first, count, listed, ?_⟩
    rw [link]
    exact tail.congr others
  | cons b pre ih =>
    obtain ⟨at_first, own_count, own, later⟩ := chain
    rw [cons_append, forall_mem_cons] at others
    refine ⟨at_first, by rw [others.1]; exact own_count, fun i e here => ?_, ?_⟩
    · rw [others.1]
      exact own i e here
    · rw [others.1]
      exact ih later others.2

variable {entries : List Nat} {i : Nat}

/-- An entry is taken out by putting the last one in its place. -/
def takeOut (entries : List Nat) (i : Nat) : List Nat :=
  (entries.set i (entries.getLastD 0)).dropLast

theorem length_takeOut (i : Nat) : (takeOut entries i).length = entries.length - 1 := by
  simp [takeOut]

theorem getElem?_takeOut {j : Nat} (here : (takeOut entries i)[j]? = some e) :
    if j = i then e = entries.getLastD 0 else entries[j]? = some e := by
  rw [takeOut, getElem?_dropLast] at here
  split at here
  · rw [getElem?_set] at here
    split at here
    · rename_i same
      rw [if_pos same.symm]
      split at here
      · exact (Option.some_inj.mp here).symm
      · simp at here
    · rename_i other
      rw [if_neg fun same => other same.symm]
      exact here
  · simp at here

theorem perm_takeOut (here : entries[i]? = some e) : entries.Perm (e :: takeOut entries i) := by
  cases entries using List.reverseRecOn with
  | nil => simp at here
  | append_singleton init z =>
    have last : (init ++ [z]).getLastD 0 = z := by simp
    rw [takeOut, last]
    by_cases inside : i < init.length
    · rw [getElem?_append_left inside, getElem?_eq_getElem inside] at here
      cases here
      rw [set_append_left _ _ inside, dropLast_concat]
      have removed := (getElem_cons_eraseIdx_perm inside).symm
      have replaced := set_perm_cons_eraseIdx inside z
      calc
        List.Perm (init ++ [z]) (z :: init) := perm_append_singleton z init
        List.Perm _ (z :: init[i] :: init.eraseIdx i) := removed.cons z
        List.Perm _ (init[i] :: z :: init.eraseIdx i) := List.Perm.swap ..
        List.Perm _ (init[i] :: init.set i z) := replaced.symm.cons _
    · have at_end : i = init.length := by
        have := (List.getElem?_eq_some_iff.mp here).1
        rw [length_append, length_singleton] at this
        omega
      subst at_end
      rw [getElem?_concat_length] at here
      cases here
      simp

end

end SeSqlite.Lib.UnrolledList
