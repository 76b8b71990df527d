import TaylorTape.Proofs.Program
import TaylorTape.Proofs.Traversal

/-!
Registries that keep their promises.

In a numbered registry every atomic stands at the position of its id.  A faithful one moreover holds
the built-ins of fixed arity where their ids say, and nothing but the built-in of a length under the
name of that length.  Entering a built-in keeps both, and gives the id of that built-in.
-/

set_option autoImplicit false
set_option relaxedAutoImplicit false

namespace TaylorTape

namespace Registry

variable {B : Type} {r next : Registry B}

/-- Every atomic stands at the position of its id. -/
def Numbered (r : Registry B) : Prop :=
  ∀ (i : Nat) e, r.entries[i]? = some e → e.id = i

/-- The registry begins with the atomics of another one. -/
def Extends (r next : Registry B) : Prop :=
  ∀ (i : Nat) e, r.entries[i]? = some e → next.entries[i]? = some e

theorem Extends.refl (r : Registry B) : r.Extends r :=
  fun _ _ found => found

theorem Extends.trans {last : Registry B} (first : r.Extends next) (second : next.Extends last) :
    r.Extends last :=
  fun i e found => second i e (first i e found)

theorem entry_eq_ok {id : Nat} {e : Registered B} :
    r.entry id = .ok e ↔ r.entries[id]? = some e := by
  unfold entry
  cases r.entries[id]? <;> simp

theorem getElem?_append {name : String} {op : Atomic B} {i : Nat} {e : Registered B} :
    (r.append name op).2.entries[i]? = some e ↔
      r.entries[i]? = some e ∨ i = r.size ∧ e = ⟨r.size, name, op⟩ := by
  show (r.entries.push _)[i]? = some e ↔ _
  rw [Array.getElem?_push]
  by_cases last : i = r.entries.size
  · have none : r.entries[i]? = none := Array.getElem?_eq_none (le_of_eq last.symm)
    rw [if_pos last, none]
    simp [last, size, eq_comm]
  · rw [if_neg last]
    simp [last, size]

theorem extends_append (r : Registry B) (name : String) (op : Atomic B) :
    r.Extends (r.append name op).2 :=
  fun _ _ found => getElem?_append.2 (.inl found)

theorem Numbered.append (numbered : r.Numbered) (name : String) (op : Atomic B) :
    (r.append name op).2.Numbered := by
  intro i e found
  rcases getElem?_append.1 found with old | ⟨rfl, rfl⟩
  · exact numbered i e old
  · rfl

theorem register_numbered (numbered : r.Numbered) {name : String} {op : Atomic B}
    {entered : Nat × Registry B} (done : r.register name op = .ok entered) :
    entered.2.Numbered ∧ r.Extends entered.2 := by
  unfold register at done
  split at done
  · cases done
  · obtain rfl := Except.ok.inj done
    exact ⟨numbered.append name op, extends_append r name op⟩

theorem found_of_lookup (numbered : r.Numbered) {name : String} {id : Nat}
    (found : r.lookup name = some id) :
    ∃ e, r.entries[id]? = some e ∧ e.name = name := by
  unfold lookup at found
  rw [Option.map_eq_some_iff] at found
  obtain ⟨e, search, rfl⟩ := found
  obtain ⟨i, there⟩ := Array.getElem?_of_mem (Array.mem_of_find?_eq_some search)
  refine ⟨e, ?_, by simpa using Array.find?_some search⟩
  rw [numbered i e there]
  exact there

private theorem findOrRegister_cases (numbered : r.Numbered) (name : String) (op : Atomic B) :
    (∃ id e, r.findOrRegister name op = (id, r) ∧ r.entries[id]? = some e ∧ e.name = name) ∨
      r.findOrRegister name op = r.append name op := by
  unfold findOrRegister
  cases search : r.lookup name with
  | none => exact .inr rfl
  | some id =>
    obtain ⟨e, found, named⟩ := found_of_lookup numbered search
    exact .inl ⟨id, e, rfl, found, named⟩

private theorem makeName_injective {m n : Nat} (same : makeName m = makeName n) : m = n := by
  have parts : "make[" ++ toString m ++ "]" = "make[" ++ toString n ++ "]" := same
  rw [String.append_left_inj, String.append_right_inj] at parts
  exact Nat.repr_injective parts

private theorem unpackName_injective {m n : Nat} (same : unpackName m = unpackName n) : m = n := by
  have parts : "unpack[" ++ toString m ++ "]" = "unpack[" ++ toString n ++ "]" := same
  rw [String.append_left_inj, String.append_right_inj] at parts
  exact Nat.repr_injective parts

private theorem makeName_ne_unpackName (m n : Nat) : makeName m ≠ unpackName n := by
  intro same
  have parts : "make[" ++ toString m ++ "]" = "unpack[" ++ toString n ++ "]" := same
  have first := congrArg (·.toList.head?) parts
  simp at first

end Registry

namespace BuiltIn

/-- The id of a built-in of fixed arity. -/
def fixedId? : BuiltIn → Option Nat
  | .sum => some Registry.sumId
  | .concat => some Registry.concatId
  | .flip => some Registry.flipId
  | .pack => some Registry.packId
  | .make _ | .unpack _ => none

/-- The name of a built-in of a given length. -/
def sizedName? : BuiltIn → Option String
  | .make n => some (Registry.makeName n)
  | .unpack n => some (Registry.unpackName n)
  | .sum | .concat | .flip | .pack => none

theorem sizedName_injective {b b' : BuiltIn} {name : String} (named : b.sizedName? = some name)
    (named' : b'.sizedName? = some name) : b = b' := by
  cases b <;> cases b' <;> simp only [sizedName?, Option.some.injEq, reduceCtorEq] at named named'
  · rw [Registry.makeName_injective (named.trans named'.symm)]
  · exact absurd (named.trans named'.symm) (Registry.makeName_ne_unpackName _ _)
  · exact absurd (named'.trans named.symm) (Registry.makeName_ne_unpackName _ _)
  · rw [Registry.unpackName_injective (named.trans named'.symm)]

private theorem sizedName_last {b : BuiltIn} {name : String} (named : b.sizedName? = some name) :
    name.toList.getLast? = some ']' := by
  cases b with
  | sum | concat | flip | pack => cases named
  | make n =>
    obtain rfl := Option.some.inj named
    show ("make[" ++ toString n ++ "]").toList.getLast? = some ']'
    rw [String.toList_append, List.getLast?_append]
    rfl
  | unpack n =>
    obtain rfl := Option.some.inj named
    show ("unpack[" ++ toString n ++ "]").toList.getLast? = some ']'
    rw [String.toList_append, List.getLast?_append]
    rfl

end BuiltIn

namespace Registry

variable {B F : Type} [Scalar F] [Base B F] {r next : Registry B}

/-- The ids and names of the built-ins mean the built-ins. -/
structure Faithful (r : Registry B) : Prop where
  numbered : r.Numbered
  fixed : ∀ (b : BuiltIn) id, b.fixedId? = some id →
    ∃ e, r.entries[id]? = some e ∧ e.op = b.atomic
  sized : ∀ (b : BuiltIn) name, b.sizedName? = some name →
    ∀ (i : Nat) e, r.entries[i]? = some e → e.name = name → e.op = b.atomic

/-- None of the built-ins of fixed arity has the name of one of a given length. -/
theorem builtins_unsized {i : Nat} {e : Registered B} (found : builtins.entries[i]? = some e)
    (b : BuiltIn) : b.sizedName? ≠ some e.name := by
  intro named
  have last := BuiltIn.sizedName_last named
  have plain : e.name ∈ ["sum", "concat", "reverse", "pack"] := by
    match i with
    | 0 | 1 | 2 | 3 =>
      cases found
      simp [builtins]
    | i + 4 => cases found
  have odd : ∀ s ∈ ["sum", "concat", "reverse", "pack"], s.toList.getLast? ≠ some ']' := by
    decide
  exact odd e.name plain last

theorem builtins_faithful : (builtins : Registry B).Faithful where
  numbered i e found := by
    match i with
    | 0 | 1 | 2 | 3 =>
      obtain rfl := Option.some.inj found
      rfl
    | i + 4 => cases found
  fixed b id known := by
    cases b <;> cases known <;> exact ⟨_, rfl, rfl⟩
  sized b name named i e found same := absurd (same ▸ named) (builtins_unsized found b)

private theorem Faithful.append (faithful : r.Faithful) {b : BuiltIn} {name : String}
    (named : b.sizedName? = some name) : (r.append name b.atomic).2.Faithful where
  numbered := faithful.numbered.append name b.atomic
  fixed b' id known := by
    obtain ⟨e, found, same⟩ := faithful.fixed b' id known
    exact ⟨e, extends_append r name b.atomic id e found, same⟩
  sized b' name' named' i e found same := by
    rcases getElem?_append.1 found with old | ⟨_, rfl⟩
    · exact faithful.sized b' name' named' i e old same
    · obtain rfl : name = name' := same
      rw [BuiltIn.sizedName_injective named named']

theorem Faithful.register (faithful : r.Faithful) {name : String} {op : Atomic B} {id : Nat}
    (other : ∀ b : BuiltIn, b.sizedName? ≠ some name) (done : r.register name op = .ok (id, next)) :
    next.Faithful := by
  unfold Registry.register at done
  split at done
  · cases done
  · obtain rfl : (r.append name op).2 = next := congrArg Prod.snd (Except.ok.inj done)
    refine ⟨faithful.numbered.append name op, fun b id' known => ?_,
      fun b name' named i e found same => ?_⟩
    · obtain ⟨e, found, same⟩ := faithful.fixed b id' known
      exact ⟨e, extends_append r name op id' e found, same⟩
    · rcases getElem?_append.1 found with old | ⟨_, rfl⟩
      · exact faithful.sized b name' named i e old same
      · obtain rfl : name = name' := same
        exact absurd named (other b)

private theorem Faithful.findOrRegister (faithful : r.Faithful) {b : BuiltIn} {name : String}
    (named : b.sizedName? = some name) :
    ∃ id next e, r.findOrRegister name b.atomic = (id, next) ∧ next.Faithful ∧ r.Extends next ∧
      next.entries[id]? = some e ∧ e.op = b.atomic := by
  rcases findOrRegister_cases faithful.numbered name b.atomic with
    ⟨id, e, done, found, same⟩ | done
  · exact ⟨id, r, e, done, faithful, .refl r, found, faithful.sized b name named id e found same⟩
  · exact ⟨r.size, _, _, done, faithful.append named, extends_append r name b.atomic,
      getElem?_append.2 (.inr ⟨rfl, rfl⟩), rfl⟩

end Registry

namespace BuiltIn

variable {B F : Type} [Scalar F] [Base B F] {r : Recorder B}

/-- Entering a built-in gives an id that means it, and touches nothing but the registry. -/
theorem enter_faithful (b : BuiltIn) (faithful : r.registry.Faithful) :
    ∃ id next e, b.enter r = (.ok id, { r with registry := next }) ∧ next.Faithful ∧
      r.registry.Extends next ∧ next.entries[id]? = some e ∧ e.op = b.atomic := by
  have fixed : ∀ id, b.fixedId? = some id → b.enter r = (.ok id, r) →
      ∃ id next e, b.enter r = (.ok id, { r with registry := next }) ∧ next.Faithful ∧
        r.registry.Extends next ∧ next.entries[id]? = some e ∧ e.op = b.atomic := by
    intro id known done
    obtain ⟨e, found, same⟩ := faithful.fixed b id known
    exact ⟨id, r.registry, e, done, faithful, .refl _, found, same⟩
  have sized : ∀ name, b.sizedName? = some name →
      b.enter r = (.ok (r.registry.findOrRegister name b.atomic).1,
        { r with registry := (r.registry.findOrRegister name b.atomic).2 }) →
      ∃ id next e, b.enter r = (.ok id, { r with registry := next }) ∧ next.Faithful ∧
        r.registry.Extends next ∧ next.entries[id]? = some e ∧ e.op = b.atomic := by
    intro name named done
    obtain ⟨id, next, e, entered, rest⟩ := faithful.findOrRegister named
    rw [entered] at done
    exact ⟨id, next, e, done, rest⟩
  cases b with
  | sum | concat | flip | pack => exact fixed _ rfl rfl
  | make n => exact sized _ rfl rfl
  | unpack n => exact sized _ rfl rfl

/-- Entering a built-in keeps the numbering, and touches nothing but the registry. -/
theorem enter_numbered (b : BuiltIn) (numbered : r.registry.Numbered) :
    ∃ id next, b.enter r = (.ok id, { r with registry := next }) ∧ next.Numbered ∧
      r.registry.Extends next := by
  have sized : ∀ name (op : Atomic B),
      b.enter r = (.ok (r.registry.findOrRegister name op).1,
        { r with registry := (r.registry.findOrRegister name op).2 }) →
      ∃ id next, b.enter r = (.ok id, { r with registry := next }) ∧ next.Numbered ∧
        r.registry.Extends next := by
    intro name op done
    rcases Registry.findOrRegister_cases numbered name op with ⟨id, e, same, _⟩ | same
    · rw [same] at done
      exact ⟨id, r.registry, done, numbered, .refl _⟩
    · rw [same] at done
      exact ⟨_, _, done, numbered.append name op, Registry.extends_append _ name op⟩
  cases b with
  | sum | concat | flip | pack => exact ⟨_, r.registry, rfl, numbered, .refl _⟩
  | make n => exact sized _ (Atomic.make n) rfl
  | unpack n => exact sized _ (Atomic.unpack n) rfl

end BuiltIn

end TaylorTape
