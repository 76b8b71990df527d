import TaylorTape.Proofs.Interleavings
import TaylorTape.Proofs.VectorPrograms

/-!
The built-ins of a given length in a table that others add to.

A built-in of a given length is found under a name made of its kind and the length.  Callers may
enter operations of their own, under any names, before and after it is first asked for.  Under a name
the table keeps what was brought first; so if that is the built-in itself, whoever asks for it is
given the id of the built-in, and copies and elements are what they should be.  Different kinds and
lengths have different names, and hence different ids while ids last.
-/

set_option autoImplicit false
set_option relaxedAutoImplicit false

namespace TaylorTape

namespace NameTable

variable {B : Type} {t next last : NameTable B} {name : String} {op : Atomic B}

/-- The table after a call that no other call has interrupted, and how far the call has come. -/
def serve (t : NameTable B) (call : Call B) : NameTable B × Stage :=
  let (next, stage) := t.turn call .ready
  next.turn call stage

/-- The table after calls made one after another. -/
def serveAll (t : NameTable B) (calls : List (Call B)) : NameTable B :=
  calls.foldl (fun t call => (t.serve call).1) t

/-- The operation that a call brings under a name. -/
def Call.brings? (name : String) : Call B → Option (Atomic B)
  | .lookup _ => none
  | .register other op | .findOrRegister other op => if other = name then some op else none

/-- The operation that the table has under a name. -/
def opUnder (t : NameTable B) (name : String) : Option (Atomic B) :=
  (t.entries.find? (·.name == name)).map (·.op)

@[simp]
theorem serveAll_nil (t : NameTable B) : t.serveAll [] = t :=
  rfl

private theorem serveAll_cons (t : NameTable B) (call : Call B) (calls : List (Call B)) :
    t.serveAll (call :: calls) = (t.serve call).1.serveAll calls :=
  rfl

private theorem serveAll_append (t : NameTable B) (calls more : List (Call B)) :
    t.serveAll (calls ++ more) = (t.serveAll calls).serveAll more :=
  List.foldl_append

private theorem serve_findOrRegister (t : NameTable B) (name : String) (op : Atomic B) :
    t.serve (.findOrRegister name op) =
      ((t.findOrInsert name op).2, .answered (.ok (some (t.findOrInsert name op).1))) := by
  unfold serve
  cases search : t.lookup name <;> simp only [turn, findOrInsert, search]

private theorem serve_cases (t : NameTable B) (call : Call B) :
    ((t.serve call).1 = t ∧ ∀ name, (call.brings? name).isSome → (t.lookup name).isSome) ∨
      ∃ name op, t.lookup name = none ∧ (t.serve call).1 = (t.insert name op).2 ∧
        ∀ other, call.brings? other = if name = other then some op else none := by
  have there : ∀ name op, (t.lookup name).isSome → ∀ other,
      (if name = other then some (op : Atomic B) else none).isSome → (t.lookup other).isSome := by
    intro name op taken other brought
    split at brought
    · rename_i same
      exact same ▸ taken
    · cases brought
  cases call with
  | lookup name => exact .inl ⟨rfl, by simp [Call.brings?]⟩
  | register name op =>
    cases search : t.lookup name with
    | some id =>
      refine .inl ⟨?_, there name op (search ▸ rfl)⟩
      simp only [serve, turn, register, contains_byName, search, Option.isSome_some, if_true]
    | none =>
      refine .inr ⟨name, op, search, ?_, fun _ => rfl⟩
      simp only [serve, turn, register, contains_byName, search, Option.isSome_none,
        Bool.false_eq_true, if_false]
  | findOrRegister name op =>
    rw [serve_findOrRegister]
    cases search : t.lookup name with
    | some id =>
      refine .inl ⟨?_, there name op (search ▸ rfl)⟩
      simp only [findOrInsert, search]
    | none =>
      refine .inr ⟨name, op, search, ?_, fun _ => rfl⟩
      simp only [findOrInsert, search]

/-- A table that has come out of another one: what was entered there is still under its id and its
name. -/
structure Follows (t next : NameTable B) : Prop where
  oneToOne : next.OneToOne
  extends_ : t.registry.Extends next.registry
  kept : ∀ name id, t.lookup name = some id → next.lookup name = some id

theorem Follows.refl (sound : t.OneToOne) : t.Follows t :=
  ⟨sound, .refl _, fun _ _ taken => taken⟩

theorem Follows.trans (first : t.Follows next) (second : next.Follows last) : t.Follows last :=
  ⟨second.oneToOne, first.extends_.trans second.extends_,
    fun name id taken => second.kept name id (first.kept name id taken)⟩

private theorem Turn.follows {call : Call B} {stage stage' : Stage}
    (turn : Turn t call stage next stage')
    (sound : t.OneToOne) (room : next.entries.size < UInt32.size) : t.Follows next :=
  ⟨turn.oneToOne room sound, turn.extends room, fun _ _ => turn.lookup_kept room⟩

private theorem serve_size_le (t : NameTable B) (call : Call B) :
    t.entries.size ≤ (t.serve call).1.entries.size :=
  (turn_spec t call .ready).size_le.trans (turn_spec _ call _).size_le

private theorem serveAll_size_le (t : NameTable B) (calls : List (Call B)) :
    t.entries.size ≤ (t.serveAll calls).entries.size := by
  induction calls generalizing t with
  | nil => exact le_rfl
  | cons call calls ih => exact (t.serve_size_le call).trans (ih _)

private theorem serve_size_le_add (t : NameTable B) (call : Call B) :
    (t.serve call).1.entries.size ≤ t.entries.size + 1 := by
  rcases t.serve_cases call with ⟨same, _⟩ | ⟨name, op, _, same, _⟩
  · rw [same]
    exact Nat.le_succ _
  · rw [same, size_insert]

private theorem serveAll_size_le_add (t : NameTable B) (calls : List (Call B)) :
    (t.serveAll calls).entries.size ≤ t.entries.size + calls.length := by
  induction calls generalizing t with
  | nil => exact le_rfl
  | cons call calls ih =>
    have first := t.serve_size_le_add call
    have rest := ih (t.serve call).1
    rw [serveAll_cons, List.length_cons]
    omega

private theorem size_serveAll_withBuiltins {F : Type} [Scalar F] [Base B F]
    (calls : List (Call B)) :
    (withBuiltins.serveAll calls).entries.size ≤ 4 + calls.length :=
  withBuiltins_size (B := B) ▸ serveAll_size_le_add _ calls

private theorem size_serve_serveAll {F : Type} [Scalar F] [Base B F] (calls : List (Call B))
    (call : Call B) : ((withBuiltins.serveAll calls).serve call).1.entries.size ≤ calls.length + 5 := by
  have first := size_serveAll_withBuiltins calls
  have last := (withBuiltins.serveAll calls).serve_size_le_add call
  omega

private theorem serve_follows (sound : t.OneToOne) {call : Call B}
    (room : (t.serve call).1.entries.size < UInt32.size) : t.Follows (t.serve call).1 := by
  have first := turn_spec t call .ready
  have second := turn_spec (t.turn call .ready).1 call (t.turn call .ready).2
  have room' := second.size_le.trans_lt room
  exact (first.follows sound room').trans (second.follows (first.oneToOne room' sound) room)

private theorem serveAll_follows (sound : t.OneToOne) {calls : List (Call B)}
    (room : (t.serveAll calls).entries.size < UInt32.size) : t.Follows (t.serveAll calls) := by
  induction calls generalizing t with
  | nil => exact .refl sound
  | cons call calls ih =>
    have first := serve_follows sound ((serveAll_size_le _ calls).trans_lt room)
    exact first.trans (ih first.oneToOne room)

private theorem serveAll_oneToOne {F : Type} [Scalar F] [Base B F] {calls : List (Call B)}
    (room : (withBuiltins.serveAll calls).entries.size < UInt32.size) :
    (withBuiltins.serveAll calls).OneToOne :=
  (serveAll_follows withBuiltins_oneToOne room).oneToOne

private theorem OneToOne.isSome_opUnder (sound : t.OneToOne) (name : String) :
    (t.opUnder name).isSome = (t.lookup name).isSome := by
  rw [← sound.lookup_registry, opUnder, Registry.lookup, Option.isSome_map, Option.isSome_map]
  rfl

private theorem OneToOne.entry_of_lookup (sound : t.OneToOne) {id : Nat}
    (taken : t.lookup name = some id) :
    ∃ e, t.entries[id]? = some e ∧ e.id = id ∧ e.name = name ∧ t.opUnder name = some e.op := by
  rw [← sound.lookup_registry, Registry.lookup, Option.map_eq_some_iff] at taken
  obtain ⟨e, found, rfl⟩ := taken
  obtain ⟨i, there⟩ := Array.getElem?_of_mem (Array.mem_of_find?_eq_some found)
  have place : e.id = i := sound.numbered i e there
  have named : e.name = name := by simpa using Array.find?_some found
  refine ⟨e, place ▸ there, rfl, named, ?_⟩
  exact congrArg (Option.map (·.op)) found

private theorem opUnder_insert (t : NameTable B) (name other : String) (op : Atomic B) :
    (t.insert name op).2.opUnder other =
      (t.opUnder other).or (if name = other then some op else none) := by
  show ((t.entries.push _).find? _).map _ = _
  rw [Array.find?_push, opUnder]
  cases t.entries.find? (·.name == other) with
  | some e => rfl
  | none => by_cases same : name = other <;> simp [same]

private theorem opUnder_serve (sound : t.OneToOne) (call : Call B) (name : String) :
    (t.serve call).1.opUnder name = (t.opUnder name).or (call.brings? name) := by
  rcases t.serve_cases call with ⟨same, there⟩ | ⟨new, op, _, same, brought⟩
  · rw [same]
    cases own : t.opUnder name with
    | some op => rfl
    | none =>
      have missing : (t.lookup name).isSome = false := by
        rw [← sound.isSome_opUnder, own]
        rfl
      cases brought : call.brings? name with
      | none => rfl
      | some op =>
        rw [there name (brought ▸ rfl)] at missing
        cases missing
  · rw [same, opUnder_insert, brought]

private theorem opUnder_serveAll (sound : t.OneToOne) {calls : List (Call B)}
    (room : (t.serveAll calls).entries.size < UInt32.size) (name : String) :
    (t.serveAll calls).opUnder name =
      (t.opUnder name).or (calls.findSome? (·.brings? name)) := by
  induction calls generalizing t with
  | nil => exact Option.or_none.symm
  | cons call calls ih =>
    have first := serve_follows sound ((serveAll_size_le _ calls).trans_lt room)
    rw [serveAll_cons, ih first.oneToOne room, opUnder_serve sound, Option.or_assoc,
      List.findSome?_cons]
    cases call.brings? name <;> rfl

end NameTable

/-- A built-in of a given length: its kind and the length. -/
inductive Sized where
  | make (n : Nat)
  | unpack (n : Nat)
  deriving DecidableEq

namespace Sized

open NameTable

/-- It among the built-ins. -/
def builtIn : Sized → BuiltIn
  | .make n => .make n
  | .unpack n => .unpack n

/-- Its name in a table. -/
def name : Sized → String
  | .make n => Registry.makeName n
  | .unpack n => Registry.unpackName n

private theorem sizedName_builtIn (s : Sized) : s.builtIn.sizedName? = some s.name := by
  cases s <;> rfl

private theorem name_injective {s s' : Sized} (same : s.name = s'.name) : s = s' := by
  have builtIns := BuiltIn.sizedName_injective s.sizedName_builtIn
    (same ▸ s'.sizedName_builtIn)
  cases s <;> cases s' <;> cases builtIns <;> rfl

variable {B F : Type} [Scalar F] [Base B F] {s s' : Sized} {calls more : List (Call B)}

/-- The call for it. -/
def call : Sized → Call B
  | .make n => .make n
  | .unpack n => .unpack n

private theorem call_eq (s : Sized) :
    (s.call : Call B) = .findOrRegister s.name s.builtIn.atomic := by
  cases s <;> rfl

/-- If calls have brought an operation under its name, the first that they brought is it. -/
def Own (s : Sized) (calls : List (Call B)) : Prop :=
  ∀ op, calls.findSome? (·.brings? s.name) = some op → op = s.builtIn.atomic

private theorem own_nil (s : Sized) : s.Own ([] : List (Call B)) :=
  fun _ brought => nomatch brought

private theorem room_serve_nil (call : Call B) :
    ((withBuiltins.serveAll []).serve call).1.entries.size < UInt32.size :=
  (size_serve_serveAll [] call).trans_lt (show 5 < UInt32.size by decide)

private theorem idle_registry :
    (Recorder.idle : Recorder B).registry = (withBuiltins.serveAll [] : NameTable B).registry := by
  rw [serveAll_nil, withBuiltins_registry]
  rfl

/-- What it gives of a value: of a scalar, what the base makes of `n` copies; of a value with `n`
elements, where that is any, these elements. -/
def Gives (s : Sized) (r : Recorder B) (x : Tracked B) : Prop :=
  match s with
  | .make n => Base.isScalar x.value = true →
    (x.make n r).1.map Tracked.value = Base.ofList (List.replicate n (Base.sum x.value))
  | .unpack n => 0 < n → Base.length x.value = n →
    (x.unpack n r).1.map (List.map Tracked.value) = .ok ((Base.toList x.value).map Base.ofElem)

private theorem opUnder_withBuiltins (s : Sized) :
    (withBuiltins : NameTable B).opUnder s.name = none := by
  have entries : (withBuiltins : NameTable B).entries = Registry.builtins.entries :=
    congrArg Registry.entries withBuiltins_registry
  rw [opUnder, entries, Option.map_eq_none_iff, Array.find?_eq_none]
  intro e member same
  obtain ⟨i, there⟩ := Array.getElem?_of_mem member
  refine Registry.builtins_unsized there s.builtIn ?_
  rw [s.sizedName_builtIn, beq_iff_eq.1 same]

private theorem opUnder_asked (s : Sized)
    (room : (withBuiltins.serveAll calls).entries.size < UInt32.size) :
    ((withBuiltins.serveAll calls).serve s.call).1.opUnder s.name =
      some ((calls.findSome? (·.brings? s.name)).getD s.builtIn.atomic) := by
  have sound := serveAll_oneToOne room
  have brings : (s.call : Call B).brings? s.name = some s.builtIn.atomic := by
    rw [s.call_eq]
    exact if_pos rfl
  rw [opUnder_serve sound, opUnder_serveAll withBuiltins_oneToOne room, s.opUnder_withBuiltins,
    brings]
  cases calls.findSome? (·.brings? s.name) <;> rfl

private theorem Own.opUnder_asked (own : s.Own calls)
    (room : (withBuiltins.serveAll calls).entries.size < UInt32.size) :
    ((withBuiltins.serveAll calls).serve s.call).1.opUnder s.name = some s.builtIn.atomic := by
  rw [Sized.opUnder_asked s room]
  cases brought : calls.findSome? (·.brings? s.name) with
  | none => rfl
  | some op => rw [Option.getD_some, own op brought]

private theorem answered {t : NameTable B} (s : Sized)
    (room : (t.serve s.call).1.entries.size < UInt32.size) :
    ∃ id, (t.serve s.call).2 = .answered (.ok (some id)) ∧
      (t.serve s.call).1.lookup s.name = some id := by
  rw [s.call_eq, serve_findOrRegister] at room ⊢
  refine ⟨_, rfl, ?_⟩
  unfold findOrInsert at room ⊢
  cases search : t.lookup s.name with
  | some id => exact search
  | none =>
    rw [search] at room
    exact lookup_insert_self room

private theorem enter_eq {t : NameTable B} {r : Recorder B} (s : Sized) (sound : t.OneToOne)
    (room : (t.serve s.call).1.entries.size < UInt32.size) (known : r.registry = t.registry) :
    ∃ id e, Tracked.enter (·.findOrRegister s.name s.builtIn.atomic) r =
        (.ok id, { r with registry := (t.serve s.call).1.registry }) ∧
      (t.serve s.call).1.registry.entries[id]? = some e ∧ e.name = s.name ∧
      (t.serve s.call).1.opUnder s.name = some e.op := by
  have follows := serve_follows sound room
  have before : t.entries.size < UInt32.size := (t.serve_size_le s.call).trans_lt room
  obtain ⟨id, answer, named⟩ := s.answered room
  obtain ⟨e, found, _, called, same⟩ := follows.oneToOne.entry_of_lookup named
  refine ⟨id, e, ?_, found, called, same⟩
  rw [s.call_eq, serve_findOrRegister] at answer ⊢
  have entered := sound.findOrInsert_registry before s.name s.builtIn.atomic
  obtain rfl : (t.findOrInsert s.name s.builtIn.atomic).1 = id := by simpa using answer
  show (Except.ok (r.registry.findOrRegister s.name s.builtIn.atomic).1,
    { r with registry := (r.registry.findOrRegister s.name s.builtIn.atomic).2 }) = _
  rw [known, ← entered]

private theorem enter_call {t : NameTable B} {r : Recorder B} {b : BuiltIn} {x : Tracked B}
    (s : Sized) (sound : t.OneToOne) (room : (t.serve s.call).1.entries.size < UInt32.size)
    (known : r.registry = t.registry) (under : (t.serve s.call).1.opUnder s.name = some b.atomic)
    (positive : 0 < b.count) :
    ((Tracked.enter (·.findOrRegister s.name s.builtIn.atomic) >>=
        fun id => Tracked.call id [x]) r).1.map (List.map Tracked.value) =
      b.step [x.value] [x.value] := by
  obtain ⟨id, e, entered, found, _, same⟩ := s.enter_eq sound room known
  rw [run_bind_ok entered]
  exact Tracked.call_outcome found (Option.some.inj (same.symm.trans under)) positive

private theorem map_make {r : Recorder B} {x : Tracked B} {n : Nat} {v : Except Error B}
    (called : ((Tracked.enter (Registry.makeId · n) >>= fun id => Tracked.call id [x]) r).1.map
      (List.map Tracked.value) = v.map ([·])) :
    (x.make n r).1.map Tracked.value = v := by
  have parts : x.make n r = ((Tracked.enter (Registry.makeId · n) >>=
      fun id => Tracked.call id [x]) >>= fun ys => liftM (Tracked.only ys)) r := by
    rw [bind_assoc]
    rfl
  rw [parts, run_bind]
  generalize (Tracked.enter (Registry.makeId · n) >>= fun id => Tracked.call id [x]) r = done
    at called
  obtain ⟨outcome, r'⟩ := done
  cases outcome with
  | error err =>
    cases v with
    | error err' => exact congrArg Except.error (Except.error.inj called)
    | ok v => cases called
  | ok ys =>
    cases v with
    | error err => cases called
    | ok v =>
      have values : ys.map Tracked.value = [v] := Except.ok.inj called
      obtain ⟨y, rfl, rfl⟩ := List.map_eq_singleton_iff.1 values
      rfl

private theorem Own.gives [LawfulBase B] {r : Recorder B} (own : s.Own calls)
    (room : ((withBuiltins.serveAll calls).serve s.call).1.entries.size < UInt32.size)
    (known : r.registry = (withBuiltins.serveAll calls).registry) (x : Tracked B) :
    s.Gives r x := by
  have room' := (serve_size_le _ s.call).trans_lt room
  have sound := serveAll_oneToOne room'
  have under := own.opUnder_asked room'
  cases s with
  | make n =>
    intro scalar
    refine map_make ((enter_call (.make n) sound room known under Nat.one_pos).trans ?_)
    show (do return [← Base.ofList (List.replicate n (← Base.scalarElem _ x.value))]) = _
    rw [Base.scalarElem, if_pos scalar, ok_bind]
    cases Base.ofList (B := B) (List.replicate n (Base.sum x.value)) <;> rfl
  | unpack n =>
    intro positive fits
    refine (enter_call (.unpack n) sound room known under positive).trans ?_
    exact BuiltIn.step_self_iff.2 (if_pos fits)

/-- Whoever asks for a built-in of a given length, in a table that any calls have filled, gets an id
that stays with its name, and no other kind or length gets the same id, however the table grows.  If
the first operation that the calls brought under the name, if any, is the built-in itself, then the
id is that of the built-in, and a call of it gives the copies or the elements. -/
theorem found_for_good [LawfulBase B] (calls more : List (Call B)) (s s' : Sized)
    (room : (withBuiltins.serveAll (calls ++ s.call :: more ++ [s'.call])).entries.size <
      UInt32.size) :
    let t : NameTable B := withBuiltins.serveAll calls
    let now := t.serve s.call
    let later := (now.1.serveAll more).serve s'.call
    ∃ id id' e, now.2 = .answered (.ok (some id)) ∧ later.2 = .answered (.ok (some id')) ∧
      (id = id' ↔ s = s') ∧ later.1.entries[id]? = some e ∧ e.id = id ∧ e.name = s.name ∧
      (s.Own calls → e.op = s.builtIn.atomic ∧
        ∀ (r : Recorder B) (x : Tracked B), r.registry = t.registry → s.Gives r x) := by
  intro t now later
  rw [serveAll_append, serveAll_append] at room
  change later.1.entries.size < UInt32.size at room
  set middle := now.1.serveAll more
  have room₂ : middle.entries.size < UInt32.size := (serve_size_le _ _).trans_lt room
  have room₁ : now.1.entries.size < UInt32.size := (serveAll_size_le _ _).trans_lt room₂
  have room₀ : t.entries.size < UInt32.size := (serve_size_le _ _).trans_lt room₁
  have first := serve_follows (serveAll_oneToOne room₀) room₁
  have second := serveAll_follows first.oneToOne room₂
  have third := serve_follows second.oneToOne room
  obtain ⟨id, answer, named⟩ := s.answered room₁
  obtain ⟨id', answer', named'⟩ := s'.answered room
  have kept := third.kept _ _ (second.kept _ _ named)
  obtain ⟨e, found, number, called, same⟩ := first.oneToOne.entry_of_lookup named
  have still : later.1.entries[id]? = some e :=
    third.extends_ id e (second.extends_ id e found)
  refine ⟨id, id', e, answer, answer', ⟨?_, ?_⟩, still, number, called,
    fun own => ⟨?_, fun r x known => own.gives room₁ known x⟩⟩
  · rintro rfl
    obtain ⟨e', there', called'⟩ := (third.oneToOne.named s'.name id).1 named'
    obtain rfl : e = e' := Option.some.inj (still.symm.trans there')
    exact name_injective (called.symm.trans called')
  · rintro rfl
    exact Option.some.inj (kept.symm.trans named')
  · exact Option.some.inj (same.symm.trans (own.opUnder_asked room₀))

/-- A table with entries of other callers, before and after the first copies are asked for. -/
theorem found_for_good_two :
    let calls : List (Call (Value Float)) := [.register "twice" Atomic.sum, .make 2]
    let more : List (Call (Value Float)) := [.register (Registry.makeName 3) Atomic.flip]
    let t := withBuiltins.serveAll calls
    (withBuiltins.serveAll (calls ++ .make 2 :: more ++ [.unpack 2])).entries.size < UInt32.size ∧
      (Sized.make 2).Own calls ∧
      ∃ id id', (t.serve (.make 2)).2 = .answered (.ok (some id)) ∧
        (((t.serve (.make 2)).1.serveAll more).serve (.unpack 2)).2 =
          .answered (.ok (some id')) ∧ id ≠ id' ∧
        ((Tracked.parameter (.scalar 5)).make 2 ⟨none, t.registry⟩).1.map Tracked.value =
          .ok (.array [5, 5]) := by
  intro calls more t
  have room : (withBuiltins.serveAll (calls ++ .make 2 :: more ++ [.unpack 2])).entries.size <
      UInt32.size := (size_serveAll_withBuiltins _).trans_lt (by decide)
  have own : (Sized.make 2).Own calls := by
    intro op brought
    have other : ("twice" = (Sized.make 2).name) = False := eq_false (by decide)
    simp only [calls, List.findSome?_cons, Call.brings?, other, if_false, Call.make] at brought
    exact (Option.some.inj brought).symm
  obtain ⟨id, id', e, answer, answer', apart, -, -, -, means⟩ :=
    found_for_good calls more (.make 2) (.unpack 2) room
  have copies := (means own).2 ⟨none, t.registry⟩ (.parameter (.scalar 5)) rfl
  exact ⟨room, own, id, id', answer, answer', fun same => (nomatch apart.1 same), copies rfl⟩

private theorem Own.unpack_zero {r : Recorder B} (own : (Sized.unpack 0).Own calls)
    (room : ((withBuiltins.serveAll calls).serve (.unpack 0)).1.entries.size < UInt32.size)
    (known : r.registry = (withBuiltins.serveAll calls).registry) (x : Tracked B) :
    (x.unpack 0 r).1 = .error (.state (.noResults (Registry.unpackName 0))) := by
  have room' := (serve_size_le _ _).trans_lt room
  have sound := serveAll_oneToOne room'
  obtain ⟨id, e, entered, found, called, under⟩ := (Sized.unpack 0).enter_eq sound room known
  have op : e.op = Atomic.unpack 0 := Option.some.inj (under.symm.trans (own.opUnder_asked room'))
  show ((Tracked.enter (·.findOrRegister (Sized.unpack 0).name (Sized.unpack 0).builtIn.atomic) >>=
    fun id => Tracked.call id [x]) r).1 = _
  rw [run_bind_ok entered]
  unfold Tracked.call
  rw [run_bind_ok (run_get _), run_lift_bind_ok (Registry.entry_eq_ok.2 found), op]
  show Except.error (Error.state (.noResults e.name)) = _
  rw [called]
  rfl

/-- What a caller has entered under the name of three copies is what makes three copies, and no
elements are refused. -/
theorem not_always_own :
    ((Tracked.parameter (.scalar 5)).make 3 ⟨none, (withBuiltins.serveAll
        [.register (Registry.makeName 3) Atomic.sum] : NameTable (Value Float)).registry⟩).1.map
      Tracked.value = .ok (.scalar 5) ∧
    ((Tracked.parameter (Value.array [])).unpack 0 (Recorder.idle (B := Value Float))).1 =
      .error (.state (.noResults "unpack[0]")) := by
  constructor
  · have room : ((withBuiltins.serveAll [.register (Registry.makeName 3) Atomic.sum] :
        NameTable (Value Float)).serve (Sized.make 3).call).1.entries.size < UInt32.size :=
      (size_serve_serveAll _ _).trans_lt (by decide)
    have room' := (serve_size_le _ _).trans_lt room
    have sound := serveAll_oneToOne room'
    have under := (Sized.make 3).opUnder_asked room'
    refine map_make ((enter_call (.make 3) sound room rfl (b := .sum) ?_ Nat.one_pos).trans rfl)
    rw [under]
    simp [Call.brings?, Sized.name, BuiltIn.atomic]
  · exact (own_nil _).unpack_zero (room_serve_nil _) idle_registry _

end Sized

end TaylorTape
