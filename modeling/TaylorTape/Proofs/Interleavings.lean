import Mathlib.Data.List.Basic
import TaylorTape.Atomic.Shared
import TaylorTape.Proofs.Registry

/-!
Ids last, however the callers of a shared table take turns.

While the table has fewer entries than ids have values, each entry stands at the position of its id,
and names and ids lead to each other.  A turn under the lock either leaves the table as it is or adds
one entry, under a name that was missing; so what a call has been told stays true after all later
turns.  A call that has looked and missed its name looks again when it comes back, so of the calls for
one name only one can enter it, and the others are told the same id.
-/

set_option autoImplicit false
set_option relaxedAutoImplicit false

namespace TaylorTape

namespace NameTable

variable {B : Type} {t next : NameTable B} {name : String} {op : Atomic B}

/-- Entries stand at the positions of their ids, and names and ids lead to each other. -/
structure OneToOne (t : NameTable B) : Prop where
  numbered : t.registry.Numbered
  named : ∀ name id, t.byName[name]? = some id ↔
    ∃ e : Registered B, t.entries[id]? = some e ∧ e.name = name

private theorem empty_oneToOne : (empty : NameTable B).OneToOne where
  numbered i e found := by cases found
  named name id := by simp [empty]

theorem contains_byName : t.byName.contains name = (t.lookup name).isSome :=
  Std.HashMap.contains_eq_isSome_getElem?

section Insert

variable (room : t.entries.size < UInt32.size)
include room

private theorem insert_eq (name : String) (op : Atomic B) : t.insert name op =
    (t.entries.size, ⟨t.entries.push ⟨t.entries.size, name, op⟩,
      t.byName.insert name t.entries.size⟩) := by
  have whole : t.entries.size.toUInt32.toNat = t.entries.size := Nat.mod_eq_of_lt room
  rw [insert, whole]

private theorem insert_registry (name : String) (op : Atomic B) :
    ((t.insert name op).1, (t.insert name op).2.registry) = t.registry.append name op := by
  rw [insert_eq room]
  rfl

private theorem lookup_insert (name other : String) (op : Atomic B) :
    (t.insert name op).2.lookup other =
      if name = other then some t.entries.size else t.lookup other := by
  rw [insert_eq room]
  simp [lookup, Std.HashMap.getElem?_insert]

private theorem OneToOne.insert (sound : t.OneToOne) (missing : t.lookup name = none) :
    (t.insert name op).2.OneToOne := by
  have same : (t.insert name op).2.registry = (t.registry.append name op).2 :=
    congrArg Prod.snd (insert_registry room name op)
  refine ⟨same ▸ sound.numbered.append name op, fun other id => ?_⟩
  have placed : ∀ e, (t.insert name op).2.entries[id]? = some e ↔
      t.entries[id]? = some e ∨ id = t.entries.size ∧ e = ⟨t.entries.size, name, op⟩ := by
    intro e
    show (t.insert name op).2.registry.entries[id]? = some e ↔ _
    rw [same]
    exact Registry.getElem?_append
  show (t.insert name op).2.lookup other = some id ↔ _
  rw [lookup_insert room]
  simp only [placed]
  by_cases own : name = other
  · subst own
    rw [if_pos rfl]
    constructor
    · intro last
      exact ⟨_, .inr ⟨(Option.some.inj last).symm, rfl⟩, rfl⟩
    · rintro ⟨e, old | ⟨rfl, rfl⟩, same⟩
      · have taken : t.lookup name = some id := (sound.named name id).2 ⟨e, old, same⟩
        rw [missing] at taken
        cases taken
      · rfl
  · rw [if_neg own]
    refine (sound.named other id).trans ⟨fun ⟨e, old, same⟩ => ⟨e, .inl old, same⟩, ?_⟩
    rintro ⟨e, old | ⟨rfl, rfl⟩, same⟩
    · exact ⟨e, old, same⟩
    · exact absurd same own

end Insert

section Sequential

/-!
One call after another: the table answers as its entries alone do.
-/

theorem OneToOne.lookup_registry (sound : t.OneToOne) (name : String) :
    t.registry.lookup name = t.lookup name := by
  cases search : t.registry.lookup name with
  | some id => exact ((sound.named name id).2 (Registry.found_of_lookup sound.numbered search)).symm
  | none =>
    cases taken : t.lookup name with
    | none => rfl
    | some id =>
      obtain ⟨e, there, same⟩ := (sound.named name id).1 taken
      have absent := Array.find?_eq_none.1 (Option.map_eq_none_iff.1 search) e
        (Array.mem_of_getElem? there)
      exact absurd (beq_iff_eq.2 same) absent

theorem OneToOne.findOrInsert_registry (sound : t.OneToOne) (room : t.entries.size < UInt32.size)
    (name : String) (op : Atomic B) :
    ((t.findOrInsert name op).1, (t.findOrInsert name op).2.registry) =
      t.registry.findOrRegister name op := by
  unfold findOrInsert Registry.findOrRegister
  rw [sound.lookup_registry]
  cases t.lookup name with
  | some id => rfl
  | none => exact insert_registry room name op

private theorem OneToOne.enter (sound : t.OneToOne) (room : t.entries.size < UInt32.size)
    (b : String × Atomic B) :
    (t.enter b).OneToOne ∧ (t.enter b).entries.size ≤ t.entries.size + 1 := by
  cases search : t.lookup b.1 with
  | some id =>
    simp only [NameTable.enter, register, contains_byName, search, Option.isSome_some, if_true]
    exact ⟨sound, Nat.le_succ _⟩
  | none =>
    simp only [NameTable.enter, register, contains_byName, search, Option.isSome_none,
      Bool.false_eq_true, if_false]
    exact ⟨sound.insert room search, (Array.size_push _).le⟩

private theorem OneToOne.foldl_enter (sound : t.OneToOne) (bs : List (String × Atomic B))
    (room : t.entries.size + bs.length ≤ UInt32.size) : (bs.foldl NameTable.enter t).OneToOne := by
  induction bs generalizing t with
  | nil => exact sound
  | cons b bs ih =>
    rw [List.length_cons] at room
    obtain ⟨sound', grown⟩ := sound.enter (by omega) b
    exact ih sound' (by omega)

variable {F : Type} [Scalar F] [Base B F]

theorem withBuiltins_oneToOne : (withBuiltins : NameTable B).OneToOne :=
  empty_oneToOne.foldl_enter fixed (show 0 + 4 ≤ UInt32.size by decide)

theorem withBuiltins_registry : (withBuiltins : NameTable B).registry = Registry.builtins := by
  simp [withBuiltins, fixed, NameTable.enter, register, NameTable.insert, empty, registry,
    Registry.builtins, Registry.sumId, Registry.concatId, Registry.flipId, Registry.packId]

theorem withBuiltins_size : (withBuiltins : NameTable B).entries.size = 4 := by
  show (withBuiltins : NameTable B).registry.entries.size = 4
  rw [withBuiltins_registry]
  rfl

end Sequential

section Turns

variable {call : Call B} {stage stage' : Stage}

/-- All that a turn under the lock can do to the table and to the call. -/
inductive Turn (t : NameTable B) : Call B → Stage → NameTable B → Stage → Prop
  | looked (name : String) :
    Turn t (.lookup name) .ready t (.answered (.ok (t.lookup name)))
  | refused (name : String) (op : Atomic B) (taken : (t.lookup name).isSome) :
    Turn t (.register name op) .ready t (.answered (.error (.state (.nameTaken name))))
  | registered (name : String) (op : Atomic B) (missing : t.lookup name = none) :
    Turn t (.register name op) .ready (t.insert name op).2
      (.answered (.ok (some (t.insert name op).1)))
  | missed (name : String) (op : Atomic B) (missing : t.lookup name = none) :
    Turn t (.findOrRegister name op) .ready t .missed
  | found (name : String) (op : Atomic B) (id : Nat) (stage : Stage)
    (early : stage = .ready ∨ stage = .missed) (taken : t.lookup name = some id) :
    Turn t (.findOrRegister name op) stage t (.answered (.ok (some id)))
  | entered (name : String) (op : Atomic B) (missing : t.lookup name = none) :
    Turn t (.findOrRegister name op) .missed (t.insert name op).2
      (.answered (.ok (some (t.insert name op).1)))
  | strayed (call : Call B) (other : ∀ name op, call ≠ .findOrRegister name op) :
    Turn t call .missed t .missed
  | done (call : Call B) (outcome : Except Error (Option Nat)) :
    Turn t call (.answered outcome) t (.answered outcome)

theorem turn_spec (t : NameTable B) (call : Call B) (stage : Stage) :
    Turn t call stage (t.turn call stage).1 (t.turn call stage).2 := by
  cases stage with
  | answered outcome => cases call <;> exact .done _ outcome
  | missed =>
    cases call with
    | lookup name => exact .strayed _ fun _ _ => by simp
    | register name op => exact .strayed _ fun _ _ => by simp
    | findOrRegister name op =>
      cases search : t.lookup name with
      | some id =>
        simp only [turn, findOrInsert, search]
        exact .found name op id .missed (.inr rfl) search
      | none =>
        simp only [turn, findOrInsert, search]
        exact .entered name op search
  | ready =>
    cases call with
    | lookup name => exact .looked name
    | register name op =>
      cases search : t.lookup name with
      | some id =>
        simp only [turn, register, contains_byName, search, Option.isSome_some, if_true]
        exact .refused name op (search ▸ rfl)
      | none =>
        simp only [turn, register, contains_byName, search, Option.isSome_none,
          Bool.false_eq_true, if_false]
        exact .registered name op search
    | findOrRegister name op =>
      cases search : t.lookup name with
      | some id =>
        simp only [turn, search]
        exact .found name op id .ready (.inl rfl) search
      | none =>
        simp only [turn, search]
        exact .missed name op search

private theorem Turn.table (turn : Turn t call stage next stage') :
    next = t ∨ ∃ name op, (call = .register name op ∨ call = .findOrRegister name op) ∧
      t.lookup name = none ∧ next = (t.insert name op).2 := by
  cases turn with
  | looked | refused | missed | found | strayed | done => exact .inl rfl
  | registered name op missing => exact .inr ⟨name, op, .inl rfl, missing, rfl⟩
  | entered name op missing => exact .inr ⟨name, op, .inr rfl, missing, rfl⟩

theorem size_insert (t : NameTable B) (name : String) (op : Atomic B) :
    (t.insert name op).2.entries.size = t.entries.size + 1 :=
  Array.size_push _

theorem Turn.size_le (turn : Turn t call stage next stage') :
    t.entries.size ≤ next.entries.size := by
  rcases turn.table with rfl | ⟨name, op, _, _, rfl⟩
  · exact le_rfl
  · rw [size_insert]
    exact Nat.le_succ _

private theorem Turn.size_le_add (turn : Turn t call stage next stage') :
    next.entries.size ≤ t.entries.size + 1 := by
  rcases turn.table with rfl | ⟨name, op, _, _, rfl⟩
  · exact Nat.le_succ _
  · exact (size_insert t name op).le

section Room

variable (room : next.entries.size < UInt32.size)
include room

theorem Turn.oneToOne (turn : Turn t call stage next stage') (sound : t.OneToOne) :
    next.OneToOne := by
  rcases turn.table with rfl | ⟨name, op, _, missing, rfl⟩
  · exact sound
  · rw [size_insert] at room
    exact sound.insert (Nat.lt_of_succ_lt room) missing

theorem Turn.extends (turn : Turn t call stage next stage') :
    t.registry.Extends next.registry := by
  rcases turn.table with rfl | ⟨name, op, _, _, rfl⟩
  · exact .refl _
  · rw [size_insert] at room
    have same : (t.insert name op).2.registry = (t.registry.append name op).2 :=
      congrArg Prod.snd (insert_registry (Nat.lt_of_succ_lt room) name op)
    exact same ▸ t.registry.extends_append name op

theorem Turn.lookup_kept (turn : Turn t call stage next stage') {id : Nat}
    (taken : t.lookup name = some id) : next.lookup name = some id := by
  rcases turn.table with rfl | ⟨new, op, _, missing, rfl⟩
  · exact taken
  · rw [size_insert] at room
    have other : new ≠ name := by
      rintro rfl
      rw [missing] at taken
      cases taken
    rw [lookup_insert (Nat.lt_of_succ_lt room), if_neg other, taken]

end Room

/-- What a call has come to fits the table. -/
structure Right (t : NameTable B) (call : Call B) (stage : Stage) : Prop where
  missed : stage = .missed → ∃ name op, call = .findOrRegister name op
  known : ∀ id, stage = .answered (.ok (some id)) → t.lookup call.name = some id
  finds : ∀ name op outcome, call = .findOrRegister name op → stage = .answered outcome →
    ∃ id, outcome = .ok (some id)

private theorem right_ready (t : NameTable B) (call : Call B) : t.Right call .ready where
  missed same := by cases same
  known id same := by cases same
  finds name op outcome same same' := by cases same'

private theorem Right.kept {other : Call B} {stage₁ stage₂ : Stage} (right : t.Right call stage)
    (turn : Turn t other stage₁ next stage₂) (room : next.entries.size < UInt32.size) :
    next.Right call stage where
  missed := right.missed
  known id same := turn.lookup_kept room (right.known id same)
  finds := right.finds

private theorem right_of_lookup {id : Nat} (taken : t.lookup call.name = some id) :
    t.Right call (.answered (.ok (some id))) where
  missed same := by cases same
  known id' same := by
    cases same
    exact taken
  finds name op outcome _ same := by
    cases same
    exact ⟨id, rfl⟩

theorem lookup_insert_self (room : (t.insert name op).2.entries.size < UInt32.size) :
    (t.insert name op).2.lookup name = some (t.insert name op).1 := by
  rw [size_insert] at room
  rw [lookup_insert (Nat.lt_of_succ_lt room), if_pos rfl, insert_eq (Nat.lt_of_succ_lt room)]

private theorem Turn.right (turn : Turn t call stage next stage') (right : t.Right call stage)
    (room : next.entries.size < UInt32.size) : next.Right call stage' := by
  cases turn with
  | looked name =>
    exact ⟨by simp, fun id same => Except.ok.inj (Stage.answered.inj same), by simp⟩
  | refused name op taken => exact ⟨by simp, by simp, by simp⟩
  | registered name op missing => exact right_of_lookup (lookup_insert_self room)
  | missed name op missing =>
    exact ⟨fun _ => ⟨name, op, rfl⟩, by simp, by simp⟩
  | found name op id stage early taken => exact right_of_lookup taken
  | entered name op missing => exact right_of_lookup (lookup_insert_self room)
  | strayed | done => exact right

/-- How many turns a call may still need. -/
def Stage.left : Stage → Nat
  | .ready => 2
  | .missed => 1
  | .answered _ => 0

private theorem Turn.left_le (turn : Turn t call stage next stage') (right : t.Right call stage) :
    stage'.left ≤ stage.left - 1 := by
  cases turn with
  | looked | refused | registered | found | entered | done => exact Nat.zero_le _
  | missed => exact le_rfl
  | strayed call other =>
    obtain ⟨name, op, same⟩ := right.missed rfl
    exact absurd same (other name op)

private theorem Stage.answered_of_left (none : stage.left = 0) :
    ∃ outcome, stage = .answered outcome := by
  cases stage with
  | ready | missed => cases none
  | answered outcome => exact ⟨outcome, rfl⟩

end Turns

end NameTable

namespace SharedRegistry

open NameTable

variable {B : Type} {s : SharedRegistry B} {i : Nat} {call : Call B} {stage : Stage}
  {schedule : List Nat}

private theorem run_cons (s : SharedRegistry B) (i : Nat) (schedule : List Nat) :
    s.run (i :: schedule) = (s.step i).run schedule :=
  rfl

private theorem run_append (s : SharedRegistry B) (earlier later : List Nat) :
    s.run (earlier ++ later) = (s.run earlier).run later :=
  List.foldl_append

private theorem step_cases (s : SharedRegistry B) (i : Nat) :
    s.step i = s ∨ ∃ call stage table stage', s.calls[i]? = some (call, stage) ∧
      Turn s.table call stage table stage' ∧ s.step i = ⟨table, s.calls.set i (call, stage')⟩ := by
  unfold step
  cases there : s.calls[i]? with
  | none => exact .inl rfl
  | some c => exact .inr ⟨c.1, c.2, _, _, rfl, turn_spec s.table c.1 c.2, rfl⟩

private theorem step_size_le (s : SharedRegistry B) (i : Nat) :
    s.table.entries.size ≤ (s.step i).table.entries.size := by
  obtain same | ⟨call, stage, table, stage', _, turn, same⟩ := s.step_cases i
  · rw [same]
  · rw [same]
    exact turn.size_le

private theorem run_size_le (s : SharedRegistry B) (schedule : List Nat) :
    s.table.entries.size ≤ (s.run schedule).table.entries.size := by
  induction schedule generalizing s with
  | nil => exact le_rfl
  | cons i schedule ih => exact (s.step_size_le i).trans (ih (s.step i))

private theorem step_size_le_add (s : SharedRegistry B) (i : Nat) :
    (s.step i).table.entries.size ≤ s.table.entries.size + 1 := by
  obtain same | ⟨call, stage, table, stage', _, turn, same⟩ := s.step_cases i
  · rw [same]
    exact Nat.le_succ _
  · rw [same]
    exact turn.size_le_add

private theorem run_size_le_add (s : SharedRegistry B) (schedule : List Nat) :
    (s.run schedule).table.entries.size ≤ s.table.entries.size + schedule.length := by
  induction schedule generalizing s with
  | nil => exact le_rfl
  | cons i schedule ih =>
    have first := s.step_size_le_add i
    have rest := ih (s.step i)
    rw [run_cons, List.length_cons]
    omega

/-- A table whose names and ids lead to each other, and calls that fit it. -/
structure Coherent (s : SharedRegistry B) : Prop where
  oneToOne : s.table.OneToOne
  right : ∀ (i : Nat) c, s.calls[i]? = some c → s.table.Right c.1 c.2

private theorem Coherent.step (coherent : s.Coherent) (i : Nat)
    (room : (s.step i).table.entries.size < UInt32.size) :
    (s.step i).Coherent ∧ s.table.registry.Extends (s.step i).table.registry := by
  obtain same | ⟨call, stage, table, stage', there, turn, same⟩ := s.step_cases i
  · rw [same]
    exact ⟨coherent, .refl _⟩
  · rw [same] at room ⊢
    refine ⟨⟨turn.oneToOne room coherent.oneToOne, fun j c there' => ?_⟩, turn.extends room⟩
    rcases eq_or_ne i j with rfl | other
    · obtain rfl : (call, stage') = c := by
        rw [List.getElem?_set_self (List.getElem?_eq_some_iff.1 there).1] at there'
        exact Option.some.inj there'
      exact turn.right (coherent.right i _ there) room
    · rw [List.getElem?_set_ne other] at there'
      exact (coherent.right j c there').kept turn room

private theorem Coherent.run (coherent : s.Coherent)
    (room : (s.run schedule).table.entries.size < UInt32.size) :
    (s.run schedule).Coherent ∧ s.table.registry.Extends (s.run schedule).table.registry := by
  induction schedule generalizing s with
  | nil => exact ⟨coherent, .refl _⟩
  | cons i schedule ih =>
    obtain ⟨next, kept⟩ := coherent.step i (((s.step i).run_size_le schedule).trans_lt room)
    obtain ⟨last, kept'⟩ := ih next room
    exact ⟨last, kept.trans kept'⟩

private theorem Coherent.byName_run (coherent : s.Coherent)
    (room : (s.run schedule).table.entries.size < UInt32.size) {name : String} {id : Nat}
    (taken : s.table.byName[name]? = some id) :
    (s.run schedule).table.byName[name]? = some id := by
  obtain ⟨last, kept⟩ := coherent.run room
  obtain ⟨e, there, own⟩ := (coherent.oneToOne.named name id).1 taken
  exact (last.oneToOne.named name id).2 ⟨e, kept id e there, own⟩

private theorem Coherent.left_run (coherent : s.Coherent)
    (room : (s.run schedule).table.entries.size < UInt32.size)
    (there : s.calls[i]? = some (call, stage)) :
    ∃ last, (s.run schedule).calls[i]? = some (call, last) ∧
      last.left ≤ stage.left - schedule.count i := by
  induction schedule generalizing s stage with
  | nil => exact ⟨stage, there, Nat.le_refl _⟩
  | cons j schedule ih =>
    have next := (coherent.step j (((s.step j).run_size_le schedule).trans_lt room)).1
    rcases eq_or_ne j i with rfl | other
    · obtain ⟨c, moved, nearer⟩ : ∃ c, (s.step j).calls[j]? = some (call, c) ∧
          c.left ≤ stage.left - 1 := by
        refine ⟨(s.table.turn call stage).2, ?_,
          (turn_spec s.table call stage).left_le (coherent.right j _ there)⟩
        unfold SharedRegistry.step
        rw [there]
        exact List.getElem?_set_self (List.getElem?_eq_some_iff.1 there).1
      obtain ⟨last, found, near⟩ := ih next room moved
      refine ⟨last, found, near.trans ?_⟩
      rw [List.count_cons_self]
      omega
    · have still : (s.step j).calls[i]? = some (call, stage) := by
        obtain same | ⟨_, _, _, _, _, _, same⟩ := s.step_cases j
        · rw [same, there]
        · rw [same]
          exact (List.getElem?_set_ne other).trans there
      obtain ⟨last, found, near⟩ := ih next room still
      exact ⟨last, found, by rwa [List.count_cons_of_ne other]⟩

private theorem calls_step (s : SharedRegistry B) (i : Nat) :
    (s.step i).calls.map Prod.fst = s.calls.map Prod.fst := by
  obtain same | ⟨call, stage, table, stage', there, _, same⟩ := s.step_cases i
  · rw [same]
  · rw [same]
    refine List.ext_getElem? fun j => ?_
    rw [List.getElem?_map, List.getElem?_map]
    rcases eq_or_ne i j with rfl | other
    · rw [there, List.getElem?_set_self (List.getElem?_eq_some_iff.1 there).1]
      rfl
    · rw [List.getElem?_set_ne other]

private theorem calls_run (s : SharedRegistry B) (schedule : List Nat) :
    (s.run schedule).calls.map Prod.fst = s.calls.map Prod.fst := by
  induction schedule generalizing s with
  | nil => rfl
  | cons i schedule ih => exact (ih (s.step i)).trans (s.calls_step i)

private theorem step_table (s : SharedRegistry B) (i : Nat)
    (room : (s.step i).table.entries.size < UInt32.size) :
    (s.step i).table = s.table ∨ ∃ call stage name op, s.calls[i]? = some (call, stage) ∧
      (call = .register name op ∨ call = .findOrRegister name op) ∧
      s.table.byName[name]? = none ∧
      (s.step i).table.entries = s.table.entries.push ⟨s.table.entries.size, name, op⟩ ∧
      (s.step i).table.byName[name]? = some s.table.entries.size := by
  obtain same | ⟨call, stage, table, stage', there, turn, same⟩ := s.step_cases i
  · exact .inl (congrArg table same)
  · rw [same] at room ⊢
    obtain rfl | ⟨name, op, asked, missing, rfl⟩ := turn.table
    · exact .inl rfl
    · rw [size_insert] at room
      refine .inr ⟨call, stage, name, op, there, asked, missing, ?_, ?_⟩
      · rw [insert_eq (Nat.lt_of_succ_lt room)]
      · exact (lookup_insert (Nat.lt_of_succ_lt room) name name op).trans (if_pos rfl)

private theorem entered_of_changed (s : SharedRegistry B) (i : Nat)
    (room : (s.step i).table.entries.size < UInt32.size) (changed : (s.step i).table ≠ s.table) :
    ∃ call stage id, s.calls[i]? = some (call, stage) ∧
      (s.step i).table.byName[call.name]? = some id := by
  obtain same | ⟨call, stage, name, op, there, wants, _, _, entered⟩ := s.step_table i room
  · exact absurd same changed
  · rcases wants with rfl | rfl
    · exact ⟨_, stage, _, there, entered⟩
    · exact ⟨_, stage, _, there, entered⟩

private theorem step_table_of_taken (s : SharedRegistry B) (i : Nat)
    (room : (s.step i).table.entries.size < UInt32.size) (there : s.calls[i]? = some (call, stage))
    {id : Nat} (taken : s.table.byName[call.name]? = some id) : (s.step i).table = s.table := by
  obtain same | ⟨call', _, name, op, there', wants, missing, _, _⟩ := s.step_table i room
  · exact same
  · obtain ⟨rfl, _⟩ := Prod.mk.inj (Option.some.inj (there.symm.trans there'))
    rcases wants with rfl | rfl
    · exact absurd (missing.symm.trans taken) (by simp)
    · exact absurd (missing.symm.trans taken) (by simp)

private theorem Coherent.step_table_of_entered (coherent : s.Coherent) {j : Nat} {call' : Call B}
    (room : (((s.step i).run schedule).step j).table.entries.size < UInt32.size)
    (first : s.calls[i]? = some (call, stage))
    (second : (s.calls[j]?).map Prod.fst = some call') (same : call'.name = call.name)
    (added : (s.step i).table ≠ s.table) :
    (((s.step i).run schedule).step j).table = ((s.step i).run schedule).table := by
  have room' := (step_size_le _ j).trans_lt room
  have room'' := (run_size_le _ schedule).trans_lt room'
  obtain ⟨asked, _, id, there, entered⟩ := s.entered_of_changed i room'' added
  obtain ⟨rfl, _⟩ := Prod.mk.inj (Option.some.inj (there.symm.trans first))
  -- the name is in the table ever after, so also when the second call has its turn
  have held := (coherent.step i room'').1.byName_run room' entered
  have later : (((s.step i).run schedule).calls[j]?).map Prod.fst = some call' := by
    rw [← List.getElem?_map, calls_run, calls_step, List.getElem?_map, second]
  obtain ⟨⟨_, stage'⟩, found, rfl⟩ := Option.map_eq_some_iff.1 later
  exact step_table_of_taken _ j room found (same ▸ held)

private theorem step_register (s : SharedRegistry B) {name : String} {op : Atomic B}
    (room : s.table.entries.size < UInt32.size)
    (there : s.calls[i]? = some (.register name op, .ready)) :
    (∃ id, s.table.byName[name]? = some id) ∧ (s.step i).table = s.table ∧
        (s.step i).calls[i]? =
          some (.register name op, .answered (.error (.state (.nameTaken name)))) ∨
      s.table.byName[name]? = none ∧
        (s.step i).table.entries = s.table.entries.push ⟨s.table.entries.size, name, op⟩ ∧
        (s.step i).calls[i]? =
          some (.register name op, .answered (.ok (some s.table.entries.size))) := by
  have inside := (List.getElem?_eq_some_iff.1 there).1
  have stepped : s.step i = ⟨(s.table.turn (.register name op) .ready).1,
      s.calls.set i (.register name op, (s.table.turn (.register name op) .ready).2)⟩ := by
    unfold step
    rw [there]
  rw [stepped]
  simp only [List.getElem?_set_self inside]
  have turn := turn_spec s.table (.register name op) .ready
  generalize (s.table.turn (.register name op) .ready).1 = next at turn ⊢
  generalize (s.table.turn (.register name op) .ready).2 = stage at turn ⊢
  cases turn with
  | refused name op taken =>
    exact .inl ⟨Option.isSome_iff_exists.1 taken, rfl, rfl⟩
  | registered name op missing =>
    rw [insert_eq room]
    exact .inr ⟨missing, rfl, rfl⟩

section Start

variable {F : Type} [Scalar F] [Base B F] (calls : List (Call B)) (schedule : List Nat)

private theorem getElem?_start (i : Nat) : (start calls).calls[i]? = calls[i]?.map (·, .ready) :=
  List.getElem?_map

private theorem getElem?_run_start (i : Nat) :
    (((start calls).run schedule).calls[i]?).map Prod.fst = calls[i]? := by
  rw [← List.getElem?_map, calls_run, List.getElem?_map, getElem?_start, Option.map_map]
  simp [Function.comp_def]

private theorem table_start : (start calls).table = withBuiltins := by
  rw [start]

private theorem start_coherent : (start calls).Coherent where
  oneToOne := by
    rw [table_start]
    exact withBuiltins_oneToOne
  right i c there := by
    rw [getElem?_start, Option.map_eq_some_iff] at there
    obtain ⟨call, _, rfl⟩ := there
    exact right_ready _ call

/-- What is true of the registry and of the calls on it when they have had the turns of a schedule. -/
structure AppendOnly : Prop where
  /-- The entry at each position has it for an id. -/
  numbered : ∀ (i : Nat) e, ((start calls).run schedule).table.entries[i]? = some e → e.id = i
  /-- Names and ids lead to each other. -/
  named : ∀ name id, ((start calls).run schedule).table.byName[name]? = some id ↔
    ∃ e : Registered B, ((start calls).run schedule).table.entries[id]? = some e ∧ e.name = name
  /-- A search of the entries finds what is kept under a name. -/
  searched : ∀ name, ((start calls).run schedule).table.registry.lookup name =
    ((start calls).run schedule).table.byName[name]?
  /-- The built-ins of fixed arity have the first ids. -/
  builtins : ∀ (id : Nat) e, Registry.builtins.entries[id]? = some e →
    ((start calls).run schedule).table.entries[id]? = some e
  /-- A call that has had two turns has its answer. -/
  answered : ∀ (i : Nat) call, calls[i]? = some call → 2 ≤ schedule.count i →
    ∃ outcome, ((start calls).run schedule).calls[i]? = some (call, .answered outcome)
  /-- An id that a call was told at some time has meant, then and since, one name and operation. -/
  lasting : ∀ earlier later, schedule = earlier ++ later → ∀ (i : Nat) call id,
    ((start calls).run earlier).calls[i]? = some (call, .answered (.ok (some id))) →
      ∃ e, e.name = call.name ∧ ((start calls).run earlier).table.entries[id]? = some e ∧
        ((start calls).run schedule).table.entries[id]? = some e
  /-- A registration fails just when its name is taken, and then the table stays as it is. -/
  refused : ∀ earlier i later name op, schedule = earlier ++ i :: later →
    ((start calls).run earlier).calls[i]? = some (.register name op, .ready) →
      (∃ id, ((start calls).run earlier).table.byName[name]? = some id) ∧
          ((start calls).run (earlier ++ [i])).table = ((start calls).run earlier).table ∧
          ((start calls).run (earlier ++ [i])).calls[i]? =
            some (.register name op, .answered (.error (.state (.nameTaken name)))) ∨
        ((start calls).run earlier).table.byName[name]? = none ∧
          ((start calls).run (earlier ++ [i])).table.entries =
            ((start calls).run earlier).table.entries.push
              ⟨((start calls).run earlier).table.entries.size, name, op⟩ ∧
          ((start calls).run (earlier ++ [i])).calls[i]? = some (.register name op,
            .answered (.ok (some ((start calls).run earlier).table.entries.size)))
  /-- All calls that find a name or enter it are told its id. -/
  same : ∀ (i : Nat) name op outcome, ((start calls).run schedule).calls[i]? =
      some (.findOrRegister name op, .answered outcome) →
    ∃ id, outcome = .ok (some id) ∧ ((start calls).run schedule).table.byName[name]? = some id
  /-- A turn adds at most one entry, at the end, under the name that its call gives. -/
  grown : ∀ earlier i later, schedule = earlier ++ i :: later →
    ((start calls).run (earlier ++ [i])).table = ((start calls).run earlier).table ∨
      ∃ name op, (calls[i]? = some (.register name op) ∨
          calls[i]? = some (.findOrRegister name op)) ∧
        ((start calls).run (earlier ++ [i])).table.entries =
          ((start calls).run earlier).table.entries.push
            ⟨((start calls).run earlier).table.entries.size, name, op⟩
  /-- Of the turns of the calls for one name at most one adds an entry. -/
  once : ∀ earlier i middle j later, schedule = earlier ++ i :: (middle ++ j :: later) →
    ∀ name op op', calls[i]? = some (.findOrRegister name op) →
      calls[j]? = some (.findOrRegister name op') →
      ((start calls).run (earlier ++ [i])).table ≠ ((start calls).run earlier).table →
      ((start calls).run (earlier ++ i :: (middle ++ [j]))).table =
        ((start calls).run (earlier ++ i :: middle)).table

variable {calls schedule}

private theorem coherent_run_start {earlier later : List Nat} (parts : schedule = earlier ++ later)
    (room : ((start calls).run schedule).table.entries.size < UInt32.size) :
    ((start calls).run earlier).Coherent ∧
      ((start calls).run earlier).table.entries.size < UInt32.size ∧
      ((start calls).run earlier).table.registry.Extends
        ((start calls).run schedule).table.registry := by
  subst parts
  rw [run_append] at room ⊢
  have room' := (run_size_le _ later).trans_lt room
  have before := ((start_coherent calls).run room').1
  exact ⟨before, room', (before.run room).2⟩

private theorem size_step_start_lt {earlier later : List Nat} {i : Nat}
    (parts : schedule = earlier ++ i :: later)
    (room : ((start calls).run schedule).table.entries.size < UInt32.size) :
    (((start calls).run earlier).step i).table.entries.size < UInt32.size := by
  rw [parts, run_append, run_cons] at room
  exact (run_size_le _ later).trans_lt room

private theorem given_of_run_start {i : Nat} {call : Call B} {stage : Stage}
    (there : ((start calls).run schedule).calls[i]? = some (call, stage)) :
    calls[i]? = some call := by
  rw [← getElem?_run_start calls schedule i, there]
  rfl

private theorem size_start_run_le :
    ((start calls).run schedule).table.entries.size ≤ 4 + schedule.length := by
  have first : (start calls).table.entries.size = 4 := by
    rw [table_start, withBuiltins_size]
  exact first ▸ (start calls).run_size_le_add schedule

/-- However many calls share a registry and however they take turns: as long as there are ids left,
it only ever grows, ids and names stand for each other, and what the calls are told lasts. -/
theorem append_only (room : ((start calls).run schedule).table.entries.size < UInt32.size) :
    AppendOnly calls schedule := by
  have begun := start_coherent calls
  obtain ⟨last, fresh⟩ := begun.run room
  constructor
  case numbered => exact last.oneToOne.numbered
  case named => exact last.oneToOne.named
  case searched => exact last.oneToOne.lookup_registry
  case builtins =>
    intro id e there
    have first : (start calls).table.registry.entries[id]? = some e := by
      rw [table_start, withBuiltins_registry]
      exact there
    exact fresh id e first
  case answered =>
    intro i call there turns
    have ready : (start calls).calls[i]? = some (call, .ready) := by
      rw [getElem?_start, there]
      rfl
    obtain ⟨stage, found, near⟩ := begun.left_run room ready
    have none : stage.left = 0 := Nat.le_zero.1 (near.trans (Nat.sub_eq_zero_of_le turns).le)
    obtain ⟨outcome, rfl⟩ := Stage.answered_of_left none
    exact ⟨outcome, found⟩
  case lasting =>
    intro earlier later parts i call id told
    obtain ⟨before, _, kept⟩ := coherent_run_start parts room
    obtain ⟨e, there, same⟩ := (before.oneToOne.named call.name id).1
      ((before.right i _ told).known id rfl)
    exact ⟨e, same, there, kept id e there⟩
  case refused =>
    intro earlier i later name op parts there
    rw [run_append]
    exact step_register _ (coherent_run_start parts room).2.1 there
  case same =>
    intro i name op outcome told
    obtain ⟨id, rfl⟩ := (last.right i _ told).finds name op outcome rfl rfl
    exact ⟨id, rfl, (last.right i _ told).known id rfl⟩
  case grown =>
    intro earlier i later parts
    rw [run_append]
    obtain same | ⟨call, stage, name, op, there, wants, missing, entered, _⟩ :=
      step_table ((start calls).run earlier) i (size_step_start_lt parts room)
    · exact .inl same
    · have own := given_of_run_start there
      refine .inr ⟨name, op, ?_, entered⟩
      rcases wants with rfl | rfl
      · exact .inl own
      · exact .inr own
  case once =>
    intro earlier i middle j later parts name op op' first second added
    obtain ⟨⟨call, stage⟩, there, rfl⟩ := Option.map_eq_some_iff.1
      ((getElem?_run_start calls earlier i).trans first)
    have parts' : schedule = (earlier ++ i :: middle) ++ j :: later := by
      rw [parts, List.append_assoc, List.cons_append]
    have room' := size_step_start_lt parts' room
    rw [← List.cons_append, ← List.append_assoc]
    rw [run_append _ _ [i]] at added
    rw [run_append _ _ [j]]
    rw [run_append _ earlier, run_cons] at room' ⊢
    exact (coherent_run_start parts room).1.step_table_of_entered room' there
      ((getElem?_run_start calls earlier j).trans second) rfl added

/-- Two callers that both miss a name before either enters it are told one id, and one entry is made. -/
theorem append_only_make :
    ((start [Call.make 7, Call.make 7, Call.unpack 7] : SharedRegistry (Value Float)).run
        [0, 1, 2, 1, 2, 0]).table.entries.size < UInt32.size ∧
      ∃ id, ((start [Call.make 7, Call.make 7, Call.unpack 7] : SharedRegistry (Value Float)).run
          [0, 1, 2, 1, 2, 0]).calls[0]? = some (Call.make 7, .answered (.ok (some id))) ∧
        ((start [Call.make 7, Call.make 7, Call.unpack 7] : SharedRegistry (Value Float)).run
          [0, 1, 2, 1, 2, 0]).calls[1]? = some (Call.make 7, .answered (.ok (some id))) := by
  have room : ((start [Call.make 7, Call.make 7, Call.unpack 7] : SharedRegistry (Value Float)).run
      [0, 1, 2, 1, 2, 0]).table.entries.size < UInt32.size :=
    size_start_run_le.trans_lt (by decide)
  have holds := append_only room
  obtain ⟨outcome, told⟩ := holds.answered 0 _ rfl (by decide)
  obtain ⟨outcome', told'⟩ := holds.answered 1 _ rfl (by decide)
  obtain ⟨id, rfl, named⟩ := holds.same 0 _ _ _ told
  obtain ⟨id', rfl, named'⟩ := holds.same 1 _ _ _ told'
  obtain rfl := Option.some.inj (named.symm.trans named')
  exact ⟨room, id, told, told'⟩

end Start

end SharedRegistry

end TaylorTape
