import TaylorTape.Proofs.Calls
import TaylorTape.Proofs.Ranged

/-!
Atomics that keep to the blocks of their calls.

A sweep hands a call the block of its arguments and that of its results, and takes blocks back.  An
atomic keeps to these blocks if it never reaches beyond them, whatever stands in them, and leaves
them as large as they were.  The built-ins do, for the numbers of arguments that recording lets
through.
-/

set_option autoImplicit false
set_option relaxedAutoImplicit false

namespace TaylorTape

variable {B F : Type}

/-- An atomic keeps to the blocks of calls with some numbers of arguments and results: it reads and
writes no place that is not there, and leaves blocks as large as those that it was given. -/
structure Atomic.KeepsToBlocks (op : Atomic B) (arity count : Nat) : Prop where
  extend : ∀ p q varIn varOut tx ty, p ≤ q → varIn.size = arity → varOut.size = count →
    tx.size = arity * (q + 1) → ty.size = count * (q + 1) →
    Ranged (fun answer => ∀ written ∈ answer,
        written.1.size = count ∧ written.2.size = count * (q + 1))
      (op.extend p q varIn varOut tx ty)
  pull : ∀ q tx ty px py, tx.size = arity * (q + 1) → ty.size = count * (q + 1) →
    px.size = arity * (q + 1) → py.size = count * (q + 1) →
    Ranged (fun answer => ∀ shares ∈ answer, shares.size = arity * (q + 1)) (op.pull q tx ty px py)

namespace Block

variable {n p q : Nat} {block : Array B} {rule : Nat → Except Error (List B)}

private theorem ranged_series (size : block.size = n * (q + 1)) {j : Nat} (inside : j < n) :
    Ranged (fun s => s.size = q + 1) (series q block j) := by
  refine Ranged.bind (Ranged.mapM (R := fun _ _ => True) fun k below => ?_) fun xs all => ?_
  · exact ranged_fetch (fun _ _ => trivial)
      (size ▸ place_lt inside (Nat.le_of_lt_succ (List.mem_range.1 below)))
  · show xs.toArray.size = q + 1
    simpa using all.length_eq.symm

private theorem ranged_fill (size : block.size = n * (q + 1))
    (rows : ∀ k, p ≤ k → k ≤ q → Ranged (fun xs => xs.length ≤ n) (rule k)) :
    Ranged (fun next => next.size = n * (q + 1)) (fill p q block rule) := by
  obtain ⟨next, done, size', -, -⟩ | ⟨k, err, above, low, failed, refused⟩ :=
    fill_cases size fun k xs above low given => (ranged_iff.1 (rows k above low)).1 xs given
  · exact ranged_of_ok done (size'.trans size)
  · rw [refused]
    exact (ranged_iff.1 (rows k above low)).2 err failed

private theorem ranged_row (size : block.size = n * (q + 1)) {k : Nat} (low : k ≤ q) :
    Ranged (fun xs => xs.length = n) (row n q block k) := by
  obtain ⟨xs, read⟩ := exists_row size.ge low
  exact ranged_of_ok read (row_eq_ok.1 read).1

end Block

variable [Scalar F] [Base B F]

omit [Scalar F] in
private theorem ranged_expand (context : String) (v : B) (n : Nat) :
    Ranged (fun elems => elems.length = n) (Base.expand context v n) := by
  unfold Base.expand
  split
  · exact List.length_replicate
  · split
    · assumption
    · trivial

omit [Scalar F] in
private theorem inRange_scalarElem (context : String) (v : B) :
    InRange (Base.scalarElem context v) := by
  unfold Base.scalarElem
  split <;> trivial

variable [CheckedBase B]

private theorem inRange_shapedLike (elems : List F) (shape : B) :
    InRange (Base.shapedLike elems shape) := by
  unfold Base.shapedLike
  split
  · trivial
  · exact CheckedBase.ofList elems

namespace BuiltIn

private theorem inRange_turned (v : B) : InRange (turned v) := by
  unfold turned
  split
  · trivial
  · exact CheckedBase.ofList _

private theorem inRange_step (b : BuiltIn) (x0 xk : List B) : InRange (b.step x0 xk) := by
  cases b with
  | sum =>
    simp only [step]
    split
    · exact (CheckedBase.broadcastLike _ _).bind fun v _ => trivial
    · trivial
  | concat =>
    simp only [step]
    split
    · exact (ranged_expand _ _ _).bind fun head _ => (ranged_expand _ _ _).bind fun tail _ =>
        (CheckedBase.ofList _).bind fun v _ => trivial
    · trivial
  | flip =>
    simp only [step]
    split
    · exact (inRange_turned _).bind fun v _ => trivial
    · trivial
  | pack =>
    exact (InRange.mapM fun x _ => inRange_scalarElem _ x).bind fun elems _ =>
      (CheckedBase.ofList _).bind fun v _ => trivial
  | make n =>
    simp only [step]
    split
    · exact (inRange_scalarElem _ _).bind fun x _ => (CheckedBase.ofList _).bind fun v _ => trivial
    · trivial
  | unpack n =>
    simp only [step]
    split
    · split
      · exact (ranged_expand _ _ _).bind fun elems _ => trivial
      · trivial
    · trivial

private theorem inRange_back (b : BuiltIn) (x0 ws : List B) : InRange (b.back x0 ws) := by
  unfold back
  split
  · exact (inRange_scalarElem _ _).bind fun _ _ => (CheckedBase.broadcastLike _ _).bind
      fun v _ => trivial
  · exact (ranged_expand _ _ _).bind fun elems _ => (inRange_shapedLike _ _).bind fun head _ =>
      (inRange_shapedLike _ _).bind fun tail _ => trivial
  · exact (inRange_turned _).bind fun v _ => trivial
  · exact (ranged_expand _ _ _).bind fun elems _ => trivial
  · split
    · trivial
    · split <;> trivial
  · exact (InRange.mapM fun w _ => inRange_scalarElem _ w).bind fun elems _ =>
      (inRange_shapedLike _ _).bind fun v _ => trivial
  · trivial

section Rows

open Block

variable {b : BuiltIn} {n q k : Nat} {tx py : Array B}

private theorem ranged_rowOf (size : tx.size = n * (q + 1)) (low : k ≤ q) :
    Ranged (fun xs => xs.length = b.count) (b.rowOf n q tx k) :=
  (ranged_row size q.zero_le).bind fun x0 _ => (ranged_row size low).bind fun xk _ =>
    ranged_iff.2 ⟨fun _ done => length_step done, (ranged_iff.1 (b.inRange_step x0 xk)).2⟩

private theorem ranged_backOf (enough : b.arity n ≤ n) (size : tx.size = n * (q + 1))
    (wide : py.size = b.count * (q + 1)) (low : k ≤ q) :
    Ranged (fun xs => xs.length = b.arity n) (b.backOf n q tx py k) := by
  obtain ⟨x0, first⟩ := exists_row (size ▸ Nat.mul_le_mul_right _ enough) q.zero_le
  rw [backOf, first, ok_bind]
  refine (ranged_row wide low).bind fun ws _ => ranged_iff.2 ⟨fun _ done => ?_,
    (ranged_iff.1 (b.inRange_back x0 ws)).2⟩
  rw [length_back done, (row_eq_ok.1 first).1]

end Rows

/-- A built-in keeps to the blocks of calls with enough arguments for it to work on. -/
theorem keepsToBlocks {b : BuiltIn} {n : Nat} (enough : b.arity n ≤ n) :
    (b.atomic : Atomic B).KeepsToBlocks n b.count where
  extend p q varIn varOut tx ty low given room long wide := by
    rw [extend_eq low (given ▸ long) b room, given]
    refine Ranged.map (P := fun block => block.size = b.count * (q + 1)) ?_ fun block size => ?_
    · exact Block.ranged_fill wide fun k _ low =>
        (ranged_rowOf long low).mono fun _ count => count.le
    · rintro _ ⟨⟩
      refine ⟨?_, size⟩
      unfold marks
      split
      · exact Array.size_replicate
      · exact room
  pull q tx ty px py long wide own given := by
    rw [pull_eq b enough long given]
    refine Ranged.map (P := fun block => block.size = n * (q + 1)) ?_ fun block size => ?_
    · exact Block.ranged_fill own fun k _ low =>
        (ranged_backOf enough long given low).mono fun _ count => count.trans_le enough
    · rintro _ ⟨⟩
      exact size

end BuiltIn

namespace Atomic.KeepsToBlocks

variable {op : Atomic B} {arity count p q : Nat}

omit [Scalar F] [Base B F] [CheckedBase B] in
/-- A call of an atomic that keeps to its blocks stays in range, and so do the series that are read
off the block that it answers with. -/
theorem forward (keeps : op.KeepsToBlocks arity count) (low : p ≤ q) {args known : List (Wire B)}
    (given : FillsBlock q arity (args.map Wire.series))
    (room : FillsBlock q count (known.map Wire.series)) :
    InRange (op.forward p q args known) := by
  have arguments := Wire.size_flags given
  have results := Wire.size_flags room
  have length : known.length = count := by simpa using room.length
  refine (keeps.extend p q _ _ _ _ low arguments results (Block.size_join given)
    (Block.size_join room)).bind fun answer sizes => ?_
  cases answer with
  | none => trivial
  | some written =>
    obtain ⟨marked, size⟩ := sizes written rfl
    refine Ranged.bind (InRange.mapM fun i member => ?_) fun computed _ => trivial
    have inside : i < count := length ▸ List.mem_range.1 member
    exact (Block.ranged_series size inside).bind fun s _ =>
      (ranged_fetch (fun _ _ => trivial) (marked.symm ▸ inside)).bind fun flag _ => trivial

omit [CheckedBase B] in
theorem reverse (keeps : op.KeepsToBlocks arity count) {args results adjoints : List (Series B)}
    (given : FillsBlock q arity args) (known : FillsBlock q count results)
    (filled : FillsBlock q count adjoints) : InRange (op.reverse q args results adjoints) := by
  refine (keeps.pull q _ _ _ _ (Block.size_join given) (Block.size_join known)
    (by rw [Array.size_replicate, given.length]) (Block.size_join filled)).bind fun answer sizes => ?_
  cases answer with
  | none => trivial
  | some px =>
    exact Ranged.bind (InRange.mapM fun j member => (Block.ranged_series (sizes px rfl)
      (given.length ▸ List.mem_range.1 member)).inRange) fun shares _ => trivial

end Atomic.KeepsToBlocks

end TaylorTape
