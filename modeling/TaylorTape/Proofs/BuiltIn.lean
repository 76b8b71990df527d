import TaylorTape.Proofs.Table
import TaylorTape.Atomic.Registry

/-!
The rules of the built-in atomics.

Whatever orders a built-in is asked for, the coefficients of its results come from the arguments'
coefficients of order zero, which give the shapes, and of the same order.  In the same way the
partials of an order go back to the partials of that order.  Both rules are stated here on plain
lists of values.
-/

set_option autoImplicit false
set_option relaxedAutoImplicit false

namespace TaylorTape

/-- The built-in atomics. -/
inductive BuiltIn where
  | sum | concat | flip | pack
  | make (n : Nat)
  | unpack (n : Nat)
  deriving DecidableEq

variable {B F : Type} [Scalar F] [Base B F]

namespace BuiltIn

/-- The atomic of each built-in. -/
def atomic : BuiltIn → Atomic B
  | .sum => Atomic.sum
  | .concat => Atomic.concat
  | .flip => Atomic.flip
  | .pack => Atomic.pack
  | .make n => Atomic.make n
  | .unpack n => Atomic.unpack n

/-- A list from its end to its beginning. -/
def backwards {α : Type} : List α → List α
  | [] => []
  | x :: xs => backwards xs ++ [x]

theorem backwards_eq {α : Type} (xs : List α) : backwards xs = xs.reverse := by
  induction xs with
  | nil => rfl
  | cons x xs ih => rw [backwards, ih, List.reverse_cons]

/-- The elements of an array from the last to the first; a scalar stays. -/
def turned (v : B) : Except Error B :=
  if Base.isScalar v then .ok v else Base.ofList (backwards (Base.toList v))

omit [Scalar F] in
theorem turned_eq (v : B) : turned v = Atomic.flipped v := by
  rw [turned, Atomic.flipped, backwards_eq]

/-- The results' coefficients of an order, from those of order zero and of that order of the
arguments. -/
def step (b : BuiltIn) (x0 xk : List B) : Except Error (List B) :=
  match b with
  | .sum =>
    match x0, xk with
    | [x], [y] => do return [Base.ofElem (Base.sum (← Base.broadcastLike y x))]
    | _, _ => .error (.shapeMismatch "sum arguments" 1 x0.length)
  | .concat =>
    match x0, xk with
    | [x, x'], [y, y'] => do
      let head ← Base.expand "concat argument" y (Base.length x)
      let tail ← Base.expand "concat argument" y' (Base.length x')
      return [← Base.ofList (head ++ tail)]
    | _, _ => .error (.shapeMismatch "concat arguments" 2 x0.length)
  | .flip =>
    match x0, xk with
    | [_], [y] => do return [← turned y]
    | _, _ => .error (.shapeMismatch "reverse arguments" 1 x0.length)
  | .pack => do
    return [← Base.ofList (← xk.mapM (Base.scalarElem "pack argument"))]
  | .make n =>
    match x0, xk with
    | [_], [y] => do
      return [← Base.ofList (List.replicate n (← Base.scalarElem "make argument" y))]
    | _, _ => .error (.shapeMismatch "make arguments" 1 x0.length)
  | .unpack n =>
    match x0, xk with
    | [x], [y] =>
      if Base.length x = n then do
        return (← Base.expand "unpack argument" y n).map Base.ofElem
      else .error (.shapeMismatch "unpack argument" n (Base.length x))
    | _, _ => .error (.shapeMismatch "unpack arguments" 1 x0.length)

/-- The number of results for a number of arguments. -/
def count : BuiltIn → Nat
  | .unpack n => n
  | _ => 1

/-- The number of arguments, of those that there are, that a built-in works on. -/
def arity : BuiltIn → Nat → Nat
  | .sum, _ | .flip, _ | .make _, _ | .unpack _, _ => 1
  | .concat, _ => 2
  | .pack, n => n

/-- What an error about the number of arguments is about. -/
def context : BuiltIn → String
  | .sum => "sum arguments"
  | .concat => "concat arguments"
  | .flip => "reverse arguments"
  | .pack => "pack arguments"
  | .make _ => "make arguments"
  | .unpack _ => "unpack arguments"

theorem numResults_atomic (b : BuiltIn) (n : Nat) : (b.atomic : Atomic B).numResults n = b.count := by
  cases b <;> rfl

omit [Scalar F] in
theorem step_of_arity_ne {b : BuiltIn} {x0 xk : List B} (wrong : x0.length ≠ b.arity x0.length) :
    b.step x0 xk = .error (.shapeMismatch b.context (b.arity x0.length) x0.length) := by
  cases b with
  | pack => exact absurd rfl wrong
  | concat =>
    match x0 with
    | [] | [_] | _ :: _ :: _ :: _ => rfl
    | [_, _] => exact absurd rfl wrong
  | sum | flip | make | unpack =>
    match x0 with
    | [] | _ :: _ :: _ => rfl
    | [_] => exact absurd rfl wrong

omit [Scalar F] in
theorem arity_of_step {b : BuiltIn} {x0 xk ys : List B} (done : b.step x0 xk = .ok ys) :
    b.arity x0.length = x0.length := by
  by_contra wrong
  rw [step_of_arity_ne (Ne.symm wrong)] at done
  cases done

omit [Scalar F] in
theorem length_expand {context : String} {v : B} {n : Nat} {elems : List F}
    (expanded : Base.expand context v n = .ok elems) : elems.length = n := by
  unfold Base.expand at expanded
  split at expanded
  · cases expanded
    exact List.length_replicate
  · split at expanded
    · cases expanded
      assumption
    · cases expanded

/-- The partials of an order that the arguments receive, from their coefficients of order zero and
the partials of that order of the results. -/
def back (b : BuiltIn) (x0 ws : List B) : Except Error (List B) :=
  match b, x0, ws with
  | .sum, [x], [w] => do
    let _ ← Base.scalarElem "sum adjoint" w
    return [← Base.broadcastLike w x]
  | .concat, [x, x'], [w] => do
    let elems ← Base.expand "concat adjoint" w (Base.length x + Base.length x')
    return [← Base.shapedLike (elems.take (Base.length x)) x,
      ← Base.shapedLike (elems.drop (Base.length x)) x']
  | .flip, [_], [w] => do return [← turned w]
  | .pack, xs, [w] => do
    return (← Base.expand "pack adjoint" w xs.length).map Base.ofElem
  | .make n, [_], [w] => do
    if Base.isScalar w then
      return [Base.scale w (Scalar.ratio n 1)]
    else if Base.length w = n then
      return [Base.ofElem (Base.sum w)]
    else
      .error (.shapeMismatch "make adjoint" n (Base.length w))
  | .unpack _, [x], ws => do
    return [← Base.shapedLike (← ws.mapM (Base.scalarElem "unpack adjoint")) x]
  | b, _, ws => .error (.shapeMismatch "adjoints" b.count ws.length)

section Back

variable {b : BuiltIn}

/-- Every argument that a built-in works on receives a partial. -/
theorem length_back {x0 ws ps : List B} (done : b.back x0 ws = .ok ps) : ps.length = x0.length := by
  unfold back at done
  split at done
  · obtain ⟨_, _, done⟩ := bind_eq_ok.1 done
    obtain ⟨p, _, done⟩ := bind_eq_ok.1 done
    exact pure_eq_ok.1 done ▸ rfl
  · obtain ⟨elems, _, done⟩ := bind_eq_ok.1 done
    obtain ⟨p, _, done⟩ := bind_eq_ok.1 done
    obtain ⟨p', _, done⟩ := bind_eq_ok.1 done
    exact pure_eq_ok.1 done ▸ rfl
  · obtain ⟨p, _, done⟩ := bind_eq_ok.1 done
    exact pure_eq_ok.1 done ▸ rfl
  · obtain ⟨elems, expanded, done⟩ := bind_eq_ok.1 done
    rw [← pure_eq_ok.1 done, List.length_map, length_expand expanded]
  · split at done
    · exact pure_eq_ok.1 done ▸ rfl
    · split at done
      · exact pure_eq_ok.1 done ▸ rfl
      · cases done
  · obtain ⟨elems, _, done⟩ := bind_eq_ok.1 done
    obtain ⟨p, _, done⟩ := bind_eq_ok.1 done
    exact pure_eq_ok.1 done ▸ rfl
  · cases done

theorem arity_of_back {x0 ws ps : List B} (done : b.back x0 ws = .ok ps) :
    b.arity x0.length = x0.length := by
  unfold back at done
  split at done
  all_goals first | rfl | cases done

end Back

section Step

variable {x0 xk ys : List B}

omit [Scalar F] in
theorem step_sum_eq_ok : sum.step x0 xk = .ok ys ↔
    ∃ x y v, x0 = [x] ∧ xk = [y] ∧ Base.broadcastLike y x = .ok v ∧
      ys = [Base.ofElem (Base.sum v)] := by
  constructor
  · intro done
    simp only [step] at done
    split at done
    · obtain ⟨v, spread, last⟩ := bind_eq_ok.1 done
      exact ⟨_, _, v, rfl, rfl, spread, (pure_eq_ok.1 last).symm⟩
    · cases done
  · rintro ⟨x, y, v, rfl, rfl, spread, rfl⟩
    exact bind_eq_ok.2 ⟨v, spread, rfl⟩

omit [Scalar F] in
theorem step_concat_eq_ok : concat.step x0 xk = .ok ys ↔
    ∃ x x' y y' head tail v, x0 = [x, x'] ∧ xk = [y, y'] ∧
      Base.expand "concat argument" y (Base.length x) = .ok head ∧
      Base.expand "concat argument" y' (Base.length x') = .ok tail ∧
      Base.ofList (head ++ tail) = .ok v ∧ ys = [v] := by
  constructor
  · intro done
    simp only [step] at done
    split at done
    · obtain ⟨head, expanded, rest⟩ := bind_eq_ok.1 done
      obtain ⟨tail, expanded', rest⟩ := bind_eq_ok.1 rest
      obtain ⟨v, joined, last⟩ := bind_eq_ok.1 rest
      exact ⟨_, _, _, _, head, tail, v, rfl, rfl, expanded, expanded', joined,
        (pure_eq_ok.1 last).symm⟩
    · cases done
  · rintro ⟨x, x', y, y', head, tail, v, rfl, rfl, expanded, expanded', joined, rfl⟩
    exact bind_eq_ok.2 ⟨head, expanded, bind_eq_ok.2 ⟨tail, expanded',
      bind_eq_ok.2 ⟨v, joined, rfl⟩⟩⟩

omit [Scalar F] in
theorem step_flip_eq_ok : flip.step x0 xk = .ok ys ↔
    ∃ x y v, x0 = [x] ∧ xk = [y] ∧ Atomic.flipped y = .ok v ∧ ys = [v] := by
  constructor
  · intro done
    simp only [step] at done
    split at done
    · obtain ⟨v, reversed, last⟩ := bind_eq_ok.1 done
      exact ⟨_, _, v, rfl, rfl, (turned_eq _).symm.trans reversed, (pure_eq_ok.1 last).symm⟩
    · cases done
  · rintro ⟨x, y, v, rfl, rfl, reversed, rfl⟩
    exact bind_eq_ok.2 ⟨v, (turned_eq y).trans reversed, rfl⟩

omit [Scalar F] in
theorem step_pack_eq_ok : pack.step x0 xk = .ok ys ↔
    ∃ es v, xk.mapM (Base.scalarElem "pack argument") = .ok es ∧ Base.ofList es = .ok v ∧
      ys = [v] := by
  constructor
  · intro done
    obtain ⟨es, read, rest⟩ := bind_eq_ok.1 done
    obtain ⟨v, packed, last⟩ := bind_eq_ok.1 rest
    exact ⟨es, v, read, packed, (pure_eq_ok.1 last).symm⟩
  · rintro ⟨es, v, read, packed, rfl⟩
    exact bind_eq_ok.2 ⟨es, read, bind_eq_ok.2 ⟨v, packed, rfl⟩⟩

omit [Scalar F] in
theorem step_make_eq_ok {n : Nat} : (make n).step x0 xk = .ok ys ↔
    ∃ x y e v, x0 = [x] ∧ xk = [y] ∧ Base.scalarElem "make argument" y = .ok e ∧
      Base.ofList (List.replicate n e) = .ok v ∧ ys = [v] := by
  constructor
  · intro done
    simp only [step] at done
    split at done
    · obtain ⟨e, read, rest⟩ := bind_eq_ok.1 done
      obtain ⟨v, made, last⟩ := bind_eq_ok.1 rest
      exact ⟨_, _, e, v, rfl, rfl, read, made, (pure_eq_ok.1 last).symm⟩
    · cases done
  · rintro ⟨x, y, e, v, rfl, rfl, read, made, rfl⟩
    exact bind_eq_ok.2 ⟨e, read, bind_eq_ok.2 ⟨v, made, rfl⟩⟩

omit [Scalar F] in
theorem step_unpack_eq_ok {n : Nat} : (unpack n).step x0 xk = .ok ys ↔
    ∃ x y row, x0 = [x] ∧ xk = [y] ∧ Base.length x = n ∧
      Base.expand "unpack argument" y n = .ok row ∧ ys = row.map Base.ofElem := by
  constructor
  · intro done
    simp only [step] at done
    split at done
    · split at done
      · rename_i length
        obtain ⟨row, expanded, last⟩ := bind_eq_ok.1 done
        exact ⟨_, _, row, rfl, rfl, length, expanded, (pure_eq_ok.1 last).symm⟩
      · cases done
    · cases done
  · rintro ⟨x, y, row, rfl, rfl, length, expanded, rfl⟩
    exact (if_pos length).trans (bind_eq_ok.2 ⟨row, expanded, rfl⟩)

omit [Scalar F] in
theorem length_step {b : BuiltIn} (done : b.step x0 xk = .ok ys) : ys.length = b.count := by
  cases b with
  | sum =>
    obtain ⟨_, _, _, _, _, _, rfl⟩ := step_sum_eq_ok.1 done
    rfl
  | concat =>
    obtain ⟨_, _, _, _, _, _, _, _, _, _, _, _, rfl⟩ := step_concat_eq_ok.1 done
    rfl
  | flip =>
    obtain ⟨_, _, _, _, _, _, rfl⟩ := step_flip_eq_ok.1 done
    rfl
  | pack =>
    obtain ⟨_, _, _, _, rfl⟩ := step_pack_eq_ok.1 done
    rfl
  | make n =>
    obtain ⟨_, _, _, _, _, _, _, _, rfl⟩ := step_make_eq_ok.1 done
    rfl
  | unpack n =>
    obtain ⟨_, _, row, _, _, _, expanded, rfl⟩ := step_unpack_eq_ok.1 done
    rw [List.length_map, length_expand expanded]
    rfl

end Step

end BuiltIn

/-- What is registered is a built-in, under whatever name. -/
def Registered.IsBuiltIn (r : Registered B) : Prop :=
  ∃ b : BuiltIn, r.op = b.atomic

end TaylorTape
