/- source: ext/security/sesqlite/sesqlite_authorizer.c, src/util.c
   digest: Access decisions, the cache in front of them, and when a cached one is right. -/
import SeSqlite.AccessVector
import SeSqlite.ObjectLabels

set_option autoImplicit false
set_option relaxedAutoImplicit false

namespace SeSqlite.Avc

open Hash BiHash Contexts LabelIds ObjectLabels AccessVector Lib.Runs

/-- The body of `sqlite3Dequote` after the opening quote; it does not stop at the end of
the string. -/
def dequoteRest (quote : Char) : List Char → Option (List Char)
  | [] => none
  | c :: rest =>
    if c = quote then
      match rest with
      | [] => some []
      | d :: rest' => if d = quote then (dequoteRest quote rest').map (quote :: ·) else some []
    else (dequoteRest quote rest).map (c :: ·)

def closingQuote : Char → Option Char
  | '\x27' => some '\x27'
  | '\x22' => some '\x22'
  | '\x60' => some '\x60'
  | '[' => some ']'
  | _ => none

/-- `sqlite3Dequote`, absent when it reads past the end of the string. -/
def sqlite3Dequote (z : String) : Option String :=
  match z.toList with
  | [] => some z
  | c :: rest =>
    match closingQuote c with
    | none => some z
    | some quote => (dequoteRest quote rest).map String.ofList

structure Session extends Store where
  avc : SqliteHash Int Bool

/-- `selinux_check_access` on the label of an id; a null context is refused. -/
def permits (lib : Selinux) (scon : String) (label : Option String) (zClass zPerm : String) :
    Bool :=
  label.elim false fun tcon => lib.checkAccess scon tcon zClass zPerm

def sesqliteClearavc (s : Session) : Session := { s with avc := sqliteHashInit }

def commit (s : Session) : Session :=
  sesqliteClearavc { s with labels := { s.labels with committed := s.labels.current } }

/-- The rollback hook; `hash` and `hash_id` are not transactional. -/
def rollback (s : Session) : Session :=
  sesqliteClearavc { s with labels := { s.labels with current := s.labels.committed } }

section

variable (lib : Selinux) (contexts : Option SesqliteContext) (scon : String) (sconId : Int)

/-- `getContext` in a session; it does not touch the cache. -/
def getContext (s : Session) (dbname : String) (table column : Option String) (tclass : Nat)
    (env : Surroundings) : Except Fault (Session × Int) :=
  (ObjectLabels.getContext lib contexts s.toStore dbname table column tclass env).map
    fun r => ({ s with toStore := r.1 }, r.2)

/-- `sqlite3Dequote(ttcon)` works on the buffer that `hash_id` holds for the id. -/
def dequoteInPlace (hashId : SesqliteBihash Int String) (id : Int) :
    Except Fault (SesqliteBihash Int String) :=
  match labelOf hashId id with
  | none => .ok hashId
  | some label =>
    match sqlite3Dequote label with
    | none => .error .badRead
    | some plain =>
      .ok { hashId with key2val := sqliteHashInsert hashId.key2val id (some plain) 0 }

def setHashId (s : Session) (hashId : SesqliteBihash Int String) : Session :=
  { s with labels := { s.labels with hashId := hashId } }

def remember (s : Session) (key : Int) (res : Bool) : Session :=
  { s with avc := sqliteHashInsert s.avc key (some res) 0 }

/-- The part of `checkAccess` after the id is known. The unlisted slots of a class hold a
null name and the code zero. -/
def checkEntry (s : Session) (id : Int) (c : AccessClass) (perm : Nat) :
    Except Fault (Session × Bool) :=
  let key := compress sconId id c.cCode ((c.perm[perm]?).elim 0 Prod.snd)
  match lookup s.avc key with
  | some res => .ok (s, res)
  | none =>
    match c.perm[perm]? with
    | none => .error .badRead
    | some p => (dequoteInPlace s.labels.hashId id).map fun hashId =>
      let res := permits lib scon (labelOf hashId id) c.cName p.1
      (remember (setHashId s hashId) key res, res)

/-- `checkAccess`, with the id it is about. `commits` says whether an INSERT made on the way
ended a transaction of its own, which runs the commit hook before the cache is read. -/
def checkAccess (s : Session) (dbname : String) (table column : Option String) (tclass perm : Nat)
    (env : Surroundings) (commits : Bool) : Except Fault (Session × Int × Bool) :=
  match getContext lib contexts s dbname table column tclass env, accessVector[tclass]? with
  | .error fault, _ => .error fault
  | .ok _, none => .error .badRead
  | .ok r, some c =>
    (checkEntry lib scon sconId (if commits then commit r.1 else r.1) r.2 c perm).map
      fun answer => (answer.1, r.2, answer.2)

/-- `selinuxCheckAccessFunction`. Its fourth argument is only printed. -/
def selinuxCheckAccessFunction (s : Session) (id : Int) (zClass zPerm : String) :
    Except Fault (Session × Bool) := do
  let codes ← codesOf zClass zPerm
  let key := compress sconId id codes.1 codes.2
  match lookup s.avc key with
  | some res => .ok (s, res)
  | none =>
    let res := permits lib scon (labelOf s.labels.hashId id) zClass zPerm
    .ok (remember s key res, res)

inductive Op where
  | checkAccess (dbname : String) (table column : Option String) (tclass perm : Nat)
      (env : Surroundings) (commits : Bool)
  | selinuxCheckAccess (id : Int) (zClass zPerm : String)
  | register (reg : Registration)
  | writeRow (rowid : Int)
  | commit
  | rollback
  | clearavc

structure Decision where
  id : Int
  zClass : String
  zPerm : String
  res : Bool
  deriving DecidableEq, Repr

/-- The names behind the two indices that `checkAccess` is called with. -/
def entryNames (tclass perm : Nat) : String × String :=
  match accessVector[tclass]? with
  | none => ("", "")
  | some c => (c.cName, (c.perm[perm]?).elim "" Prod.fst)

/-- One step and the decision it returns. A call that does not return decides nothing. -/
def exec (s : Session) : Op → Session × Option Decision
  | .checkAccess dbname table column tclass perm env commits =>
    match checkAccess lib contexts scon sconId s dbname table column tclass perm env commits with
    | .error _ => (s, none)
    | .ok (s', id, res) =>
      (s', some ⟨id, (entryNames tclass perm).1, (entryNames tclass perm).2, res⟩)
  | .selinuxCheckAccess id zClass zPerm =>
    match selinuxCheckAccessFunction lib scon sconId s id zClass zPerm with
    | .error _ => (s, none)
    | .ok (s', res) => (s', some ⟨id, zClass, zPerm, res⟩)
  | .register reg =>
    ({ s with labels := LabelIds.step lib contexts s.labels (.register reg) }, none)
  | .writeRow rowid => ({ s with labels := { s.labels with lastRowid := rowid } }, none)
  | .commit => (commit s, none)
  | .rollback => (rollback s, none)
  | .clearavc => (sesqliteClearavc s, none)

def step (s : Session) (op : Op) : Session := (exec lib contexts scon sconId s op).1

/-- The decision returned, if any, is the policy's answer for the label that the id has. -/
def Truthful (s : Session) (op : Op) : Prop :=
  ∀ d ∈ (exec lib contexts scon sconId s op).2,
    d.res = permits lib scon (labelOf (step lib contexts scon sconId s op).labels.hashId d.id)
      d.zClass d.zPerm

def Uncached (s : Session) (id : Int) : Prop :=
  ∀ c ∈ accessVector, ∀ p ∈ c.perm, lookup s.avc (compress sconId id c.cCode p.2) = none

/-- Dequoting leaves the label as it is. -/
def Plain (label : String) : Prop := sqlite3Dequote label = some label

/-- A label without an id is plain and will be bound to a 16-bit id about which no decision
is cached, unless the cache is cleared in the same breath. -/
def BindsSafely (s : Session) (label : String) (env : Surroundings) (cleared : Bool) : Prop :=
  idOf s.labels.hashId label = none →
    Plain label ∧ Fits (LabelIds.boundId s.labels label env.insertRuns) ∧
      (cleared ∨ Uncached sconId s (LabelIds.boundId s.labels label env.insertRuns))

/-- What one step needs for the cache to stay right. -/
def Careful (s : Session) : Op → Prop
  | .checkAccess dbname table column tclass perm env commits =>
    (∃ c, accessVector[tclass]? = some c ∧ perm < c.perm.length) ∧
      (lookup s.hash (makeKey dbname table column) = none → ∀ ctx label, contexts = some ctx →
        defaultLabel lib ctx dbname table column tclass = some label →
          BindsSafely sconId s label env commits)
  | .selinuxCheckAccess id zClass _ => Fits id ∧ KnownClass zClass
  | .register reg => ∀ label, reg.label lib contexts = some label →
      BindsSafely sconId s label reg.env false
  | _ => True

/-- Ids fit 16 bits and labels are plain. -/
structure Sized (s : Session) : Prop where
  objects : ∀ key id, lookup s.hash key = some id → Fits id
  ids : ∀ label id, idOf s.labels.hashId label = some id → Fits id
  plain : ∀ id label, labelOf s.labels.hashId id = some label → Plain label

/-- Every cached decision is the policy's present answer to a listed question. -/
def Faithful (s : Session) : Prop :=
  ∀ key res, lookup s.avc key = some res → ∃ id zClass zPerm codes, Fits id ∧
    Listed zClass zPerm codes ∧ key = compress sconId id codes.1 codes.2 ∧
      res = permits lib scon (labelOf s.labels.hashId id) zClass zPerm

variable {lib : Selinux} {contexts : Option SesqliteContext} {scon : String} {sconId : Int}
  {s : Session}

theorem faithful_clear (s : Session) : Faithful lib scon sconId (sesqliteClearavc s) := by
  intro key res hit
  cases hit

variable {zClass zPerm : String} {id : Int}

theorem Faithful.hit (faithful : Faithful lib scon sconId s) {codes : Nat × Nat} (fits : Fits id)
    (listed : Listed zClass zPerm codes) {res : Bool}
    (hit : lookup s.avc (compress sconId id codes.1 codes.2) = some res) :
    res = permits lib scon (labelOf s.labels.hashId id) zClass zPerm := by
  obtain ⟨id', zClass', zPerm', codes', fits', listed', key, answer⟩ := faithful _ _ hit
  obtain ⟨rfl, rfl⟩ := compress_inj fits fits' listed.small listed'.small key
  obtain ⟨rfl, rfl⟩ := listed.names_eq listed'
  exact answer

variable {tclass : Nat}

theorem Faithful.remember (faithful : Faithful lib scon sconId s) {tperm : Nat} (fits : Fits id)
    (listed : Listed zClass zPerm (tclass, tperm)) :
    Faithful lib scon sconId (remember s (compress sconId id tclass tperm)
      (permits lib scon (labelOf s.labels.hashId id) zClass zPerm)) := by
  intro key res hit
  simp only [Avc.remember, lookup_insert] at hit
  split at hit <;> rename_i eq
  · cases hit
    exact ⟨id, zClass, zPerm, (tclass, tperm), fits, listed, (beq_iff_eq.mp eq).symm, rfl⟩
  · exact faithful key res hit

theorem Sized.remember (sized : Sized s) (key : Int) (res : Bool) :
    Sized (Avc.remember s key res) :=
  ⟨sized.objects, sized.ids, sized.plain⟩

section

variable {labels : LabelIds.Session} {k : Int} {label : String} {released : Nat → String}

theorem Sized.rebind (sized : Sized s) (fits : Fits k) (plain : Plain label)
    (bound : labels.hashId = sesqliteBihashInsert s.labels.hashId ⟨k, some label, released⟩) :
    Sized { s with labels := labels } where
  objects := sized.objects
  ids other id hit := by
    rw [bound] at hit
    rcases idOf_insert_cases _ _ _ _ _ _ hit with rfl | old
    · exact fits
    · exact sized.ids other id old
  plain id other hit := by
    rw [bound, labelOf_insert] at hit
    split at hit
    · exact Option.some.inj hit ▸ plain
    · exact sized.plain id other hit

theorem Faithful.rebind (faithful : Faithful lib scon sconId s) (uncached : Uncached sconId s k)
    (bound : labels.hashId = sesqliteBihashInsert s.labels.hashId ⟨k, some label, released⟩) :
    Faithful lib scon sconId { s with labels := labels } := by
  intro key res hit
  obtain ⟨id, zClass, zPerm, codes, fits, listed, rfl, answer⟩ := faithful key res hit
  refine ⟨id, zClass, zPerm, codes, fits, listed, rfl, ?_⟩
  have different : k ≠ id := by
    rintro rfl
    obtain ⟨c, member, -, code, entry⟩ := listed
    have missing := uncached c member _ entry
    rw [code] at missing
    rw [missing] at hit
    cases hit
  rw [bound, labelOf_insert, if_neg different]
  exact answer

end

variable {env : Surroundings} {cleared : Bool}

theorem register_spec (lib : Selinux) (scon : String) (sized : Sized s) {label : String}
    (safe : BindsSafely sconId s label env cleared) {tid : Except Fault Int}
    {labels : LabelIds.Session}
    (returns : registerLabel s.labels label tid env = .ok (labels, id)) :
    Sized { s with labels := labels } ∧ Fits id ∧
      (cleared = false → Faithful lib scon sconId s →
        Faithful lib scon sconId { s with labels := labels }) := by
  unfold registerLabel at returns
  cases known : idOf s.labels.hashId label with
  | some found =>
    rw [known] at returns
    cases returns
    exact ⟨sized, sized.ids label _ known, fun _ faithful => faithful⟩
  | none =>
    obtain ⟨plain, fits, uncached⟩ := safe known
    rw [known] at returns
    cases tid with
    | error fault => cases returns
    | ok tid =>
      have stored : storeLabel s.labels tid label env = (labels, id) := Except.ok.inj returns
      have bound := LabelIds.storeLabel_hashId s.labels tid label env
      have same_id : id = LabelIds.boundId s.labels label env.insertRuns := by
        rw [← LabelIds.storeLabel_snd s.labels tid, stored]
      rw [stored] at bound
      refine ⟨sized.rebind fits plain bound, same_id ▸ fits, fun kept faithful => ?_⟩
      exact faithful.rebind (uncached.resolve_left (by simp [kept])) bound

theorem getContext_spec (scon : String) (sized : Sized s) {dbname : String}
    {table column : Option String}
    (safe : lookup s.hash (makeKey dbname table column) = none → ∀ ctx label, contexts = some ctx →
      defaultLabel lib ctx dbname table column tclass = some label →
        BindsSafely sconId s label env cleared)
    {s' : Session}
    (returns : getContext lib contexts s dbname table column tclass env = .ok (s', id)) :
    Sized s' ∧ Fits id ∧ (cleared = false → Faithful lib scon sconId s →
      Faithful lib scon sconId s') := by
  unfold getContext at returns
  cases call : ObjectLabels.getContext lib contexts s.toStore dbname table column tclass env with
  | error fault =>
    rw [call] at returns
    cases returns
  | ok r =>
    rw [call] at returns
    obtain ⟨rfl, rfl⟩ := Prod.mk.inj (Except.ok.inj returns)
    rcases getContext_cases call with
      ⟨known, same⟩ | ⟨unknown, ctx, label, labels, loaded, default, registered, eq⟩
    · rw [same]
      exact ⟨sized, sized.objects _ _ known, fun _ faithful => faithful⟩
    · obtain ⟨sized', fits, faithful'⟩ :=
        register_spec lib scon sized (safe unknown ctx label loaded default) registered
      rw [eq]
      refine ⟨⟨fun key id hit => ?_, sized'.ids, sized'.plain⟩, fits, faithful'⟩
      simp only [insertKey, lookup_insert] at hit
      split at hit
      · exact Option.some.inj hit ▸ fits
      · exact sized.objects key id hit

theorem dequoteInPlace_plain {hashId hashId' : SesqliteBihash Int String}
    (plain : ∀ label, labelOf hashId id = some label → Plain label)
    (returns : dequoteInPlace hashId id = .ok hashId') :
    (∀ other, labelOf hashId' other = labelOf hashId other) ∧
      ∀ label, idOf hashId' label = idOf hashId label := by
  unfold dequoteInPlace at returns
  cases known : labelOf hashId id with
  | none =>
    rw [known] at returns
    cases returns
    exact ⟨fun _ => rfl, fun _ => rfl⟩
  | some label =>
    have unquoted : sqlite3Dequote label = some label := plain label known
    rw [known] at returns
    simp only [unquoted] at returns
    cases returns
    refine ⟨fun other => ?_, fun _ => rfl⟩
    have insert := lookup_insert hashId.key2val id other (some label) 0
    simp only [labelOf, sesqliteBihashFind, sqliteHashFind_fst] at known ⊢
    rw [insert]
    split <;> rename_i eq
    · obtain rfl : id = other := by simpa [same] using eq
      exact known.symm
    · rfl

/-- The invariant of a session whose cache is right. -/
structure Sound (lib : Selinux) (scon : String) (sconId : Int) (s : Session) : Prop where
  sized : Sized s
  faithful : Faithful lib scon sconId s

theorem Sound.clear (sized : Sized s) : Sound lib scon sconId (sesqliteClearavc s) :=
  ⟨⟨sized.objects, sized.ids, sized.plain⟩, faithful_clear s⟩

section

variable {s' : Session} {id : Int} {perm : Nat} {res : Bool} (sound : Sound lib scon sconId s)

include sound

theorem Sound.congr (same_avc : s'.avc = s.avc) (same_hash : s'.hash = s.hash)
    (same_labels : ∀ id, labelOf s'.labels.hashId id = labelOf s.labels.hashId id)
    (same_ids : ∀ label, idOf s'.labels.hashId label = idOf s.labels.hashId label) :
    Sound lib scon sconId s' := by
  refine ⟨⟨?_, ?_, ?_⟩, ?_⟩
  · rw [same_hash]
    exact sound.sized.objects
  · simpa only [same_ids] using sound.sized.ids
  · simpa only [same_labels] using sound.sized.plain
  · intro key res hit
    rw [same_avc] at hit
    simpa only [same_labels] using sound.faithful key res hit

theorem checkEntry_spec (fits : Fits id) {c : AccessClass} (member : c ∈ accessVector)
    (inside : perm < c.perm.length)
    (returns : checkEntry lib scon sconId s id c perm = .ok (s', res)) : Sound lib scon sconId s' ∧
      res = permits lib scon (labelOf s'.labels.hashId id) c.cName c.perm[perm].1 := by
  have entry := List.getElem?_eq_getElem inside
  have listed : Listed c.cName c.perm[perm].1 (c.cCode, c.perm[perm].2) :=
    ⟨c, member, rfl, rfl, List.getElem_mem inside⟩
  simp only [checkEntry, entry] at returns
  split at returns
  · rename_i hit
    cases returns
    exact ⟨sound, sound.faithful.hit fits listed hit⟩
  · cases dequoted : dequoteInPlace s.labels.hashId id with
    | error fault =>
      rw [dequoted] at returns
      cases returns
    | ok hashId =>
      simp only [dequoted] at returns
      obtain ⟨rfl, rfl⟩ := returns
      obtain ⟨same_labels, same_ids⟩ := dequoteInPlace_plain (sound.sized.plain id) dequoted
      have sound' : Sound lib scon sconId (setHashId s hashId) :=
        sound.congr rfl rfl same_labels same_ids
      exact ⟨⟨sound'.sized.remember _ _, sound'.faithful.remember fits listed⟩, rfl⟩

theorem checkAccess_spec {dbname : String} {table column : Option String} {commits : Bool}
    (careful : Careful lib contexts sconId s
      (.checkAccess dbname table column tclass perm env commits))
    (returns : checkAccess lib contexts scon sconId s dbname table column tclass perm env commits =
      .ok (s', id, res)) :
    Sound lib scon sconId s' ∧ res = permits lib scon (labelOf s'.labels.hashId id)
      (entryNames tclass perm).1 (entryNames tclass perm).2 := by
  obtain ⟨⟨c, isClass, inside⟩, safe⟩ := careful
  have names : entryNames tclass perm = (c.cName, c.perm[perm].1) := by
    simp [entryNames, isClass, inside]
  simp only [checkAccess, isClass] at returns
  cases context : getContext lib contexts s dbname table column tclass env with
  | error fault =>
    rw [context] at returns
    cases returns
  | ok r =>
    simp only [context] at returns
    obtain ⟨sized, fits, faithful⟩ := getContext_spec scon sound.sized safe context
    have sound' : Sound lib scon sconId (if commits then commit r.1 else r.1) := by
      cases commits with
      | true => exact Sound.clear ⟨sized.objects, sized.ids, sized.plain⟩
      | false => exact ⟨sized, faithful rfl sound.faithful⟩
    cases answer : checkEntry lib scon sconId (if commits then commit r.1 else r.1) r.2 c perm with
    | error fault =>
      rw [answer] at returns
      cases returns
    | ok pair =>
      rw [answer] at returns
      cases returns
      rw [names]
      exact checkEntry_spec sound' fits (List.mem_of_getElem? isClass) inside answer

theorem selinuxCheckAccessFunction_spec (fits : Fits id) (known : KnownClass zClass)
    (returns : selinuxCheckAccessFunction lib scon sconId s id zClass zPerm = .ok (s', res)) :
    Sound lib scon sconId s' ∧
      res = permits lib scon (labelOf s'.labels.hashId id) zClass zPerm := by
  simp only [selinuxCheckAccessFunction, bind, Except.bind] at returns
  split at returns
  · cases returns
  · rename_i codes found
    have listed := listed_of_codesOf known found
    split at returns
    · rename_i hit
      cases returns
      exact ⟨sound, sound.faithful.hit fits listed hit⟩
    · cases returns
      exact ⟨⟨sound.sized.remember _ _, sound.faithful.remember fits listed⟩, rfl⟩

theorem Sound.register (reg : Registration)
    (careful : Careful lib contexts sconId s (.register reg)) : Sound lib scon sconId
      { s with labels := LabelIds.step lib contexts s.labels (.register reg) } := by
  rcases LabelIds.step_register_cases lib contexts s.labels reg with
    same | ⟨label, id, -, eq⟩ | ⟨label, tid, passes, tuple, unknown⟩
  · rw [same]
    exact sound
  · rw [eq]
    exact sound.congr rfl rfl (fun _ => rfl) (fun _ => rfl)
  · obtain ⟨plain, fits, uncached⟩ := careful label passes unknown
    rw [LabelIds.step_register_store s.labels passes tuple unknown]
    have bound := LabelIds.storeLabel_hashId s.labels tid label reg.env
    exact ⟨sound.sized.rebind fits plain bound,
      sound.faithful.rebind (uncached.resolve_left Bool.false_ne_true) bound⟩

end

theorem exec_spec (s : Session) (op : Op) (sound : Sound lib scon sconId s)
    (careful : Careful lib contexts sconId s op) :
    Sound lib scon sconId (step lib contexts scon sconId s op) ∧
      Truthful lib contexts scon sconId s op := by
  unfold Truthful step
  cases op with
  | checkAccess dbname table column tclass perm env commits =>
    simp only [exec]
    split
    · exact ⟨sound, by simp⟩
    · rename_i s' id res returns
      obtain ⟨sound', answer⟩ := checkAccess_spec sound careful returns
      exact ⟨sound', by simpa using answer⟩
  | selinuxCheckAccess id zClass zPerm =>
    simp only [exec]
    split
    · exact ⟨sound, by simp⟩
    · rename_i s' res returns
      obtain ⟨sound', answer⟩ :=
        selinuxCheckAccessFunction_spec sound careful.1 careful.2 returns
      exact ⟨sound', by simpa using answer⟩
  | register reg => exact ⟨sound.register reg careful, by simp [exec]⟩
  | writeRow rowid =>
    exact ⟨sound.congr rfl rfl (fun _ => rfl) (fun _ => rfl), by simp [exec]⟩
  | commit =>
    exact ⟨Sound.clear ⟨sound.sized.objects, sound.sized.ids, sound.sized.plain⟩, by simp [exec]⟩
  | rollback =>
    exact ⟨Sound.clear ⟨sound.sized.objects, sound.sized.ids, sound.sized.plain⟩, by simp [exec]⟩
  | clearavc => exact ⟨Sound.clear sound.sized, by simp [exec]⟩

end

/-- From an empty cache, every decision of a run whose steps are all careful is the policy's
answer for the label that the id has at that moment. -/
theorem along_truthful (lib : Selinux) (contexts : Option SesqliteContext) (scon : String)
    (sconId : Int) (start : Session) (sized : Sized start) (run : List Op)
    (careful : Along (step lib contexts scon sconId) (Careful lib contexts sconId)
      (sesqliteClearavc start) run) :
    Along (step lib contexts scon sconId) (Truthful lib contexts scon sconId)
      (sesqliteClearavc start) run :=
  along_of_invariant (fun s op sound careful => (exec_spec s op sound careful).1)
    (fun s op sound careful => (exec_spec s op sound careful).2) (Sound.clear sized) careful

def opened : Session := ⟨⟨LabelIds.empty, sqliteHashInit⟩, sqliteHashInit⟩

theorem sized_opened : Sized opened := ⟨nofun, nofun, nofun⟩

/-- A policy that grants one permission of one class and nothing else. -/
def grantsOnly (zClass zPerm : String) : Selinux :=
  ⟨none, fun _ => true, fun _ _ c p => c == zClass && p == zPerm⟩

def registerThenCheck : List Op :=
  [.register (.mapTuple "user_t" ⟨true, fun _ => ""⟩), .selinuxCheckAccess 1 "db_tuple" "select"]

theorem along_truthful_registerThenCheck :
    Along (step (grantsOnly "db_tuple" "select") none "init_t" 1)
      (Truthful (grantsOnly "db_tuple" "select") none "init_t" 1) (sesqliteClearavc opened)
      registerThenCheck := by
  refine along_truthful _ _ _ _ opened sized_opened registerThenCheck ⟨?_, ⟨?_, ?_⟩, trivial⟩
  · rintro label passes -
    cases passes
    refine ⟨?_, ?_, .inr ?_⟩
    · exact show sqlite3Dequote "user_t" = some "user_t" by decide
    · exact show (0 : Int) ≤ 1 ∧ (1 : Int) < 65536 by decide
    · exact fun _ _ _ _ => rfl
  · exact show (0 : Int) ≤ 1 ∧ (1 : Int) < 65536 by decide
  · exact show ∃ c ∈ accessVector, c.cName = "db_tuple" by decide

/-- A check of a class that does not exist comes before the check of a real one. -/
def unknownClassFirst : List Op :=
  [.register (.mapTuple "user_t" ⟨true, fun _ => ""⟩), .selinuxCheckAccess 1 "nothing" "at_all"]

/-- The policy grants `create` on the database, but the cached answer for the unknown class
is returned for it. -/
theorem unknownClassFirst_wrong : let lib := grantsOnly "db_database" "create"
    let s := unknownClassFirst.foldl (step lib none "init_t" 1) (sesqliteClearavc opened)
    (exec lib none "init_t" 1 s (.selinuxCheckAccess 1 "db_database" "create")).2 =
        some ⟨1, "db_database", "create", false⟩ ∧
      permits lib "init_t" (labelOf s.labels.hashId 1) "db_database" "create" = true := by
  decide

-- two ids that agree in their low sixteen bits share their decisions
example : compress 1 1 3 6 = compress 1 65537 3 6 := by decide

end SeSqlite.Avc
