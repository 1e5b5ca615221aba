/-!
# Following links

Numbered things are linked upward, each to the one it belongs to, and downward, each to those that
belong to it. Both ways of following the links are loops without a bound of their own: going up ends
at something that belongs to nothing, and going down ends when a stack of things to visit is empty.
Each is the relation between where the loop starts and what it passes.
-/

namespace OnePage

variable {parent : Nat → Option Nat} {children : Nat → List Nat}

/-- Going up from the first thing passes those in the list, nearest first, and ends. -/
inductive Ascends (parent : Nat → Option Nat) : Nat → List Nat → Prop where
  | top {i : Nat} : parent i = none → Ascends parent i []
  | up {i above : Nat} {chain : List Nat} : parent i = some above → Ascends parent above chain →
      Ascends parent i (above :: chain)

/-- With the first list as its stack, a walk visits the second in order, and ends. What is on top of
the stack gives way to its children. -/
inductive Visits (children : Nat → List Nat) : List Nat → List Nat → Prop where
  | done : Visits children [] []
  | visit {i : Nat} {stack order : List Nat} : Visits children (children i ++ stack) order →
      Visits children (i :: stack) (i :: order)

/-- There is one way up. -/
theorem Ascends.unique {i : Nat} {chain other : List Nat} (h : Ascends parent i chain)
    (k : Ascends parent i other) : chain = other := by
  induction h generalizing other with
  | top hnone =>
    cases k with
    | top => rfl
    | up hsome => simp [hnone] at hsome
  | up hsome _ ih =>
    cases k with
    | top hnone => simp [hsome] at hnone
    | up hother k =>
      rw [hsome, Option.some_inj] at hother
      subst hother
      rw [ih k]

/-- What is on top of the stack is visited, with all below it, before the rest. -/
theorem Visits.append {stack order others later : List Nat} (first : Visits children stack order)
    (second : Visits children others later) :
    Visits children (stack ++ others) (order ++ later) := by
  induction first with
  | done => exact second
  | visit _ ih =>
    rw [List.append_assoc] at ih
    exact .visit ih

/-- A walk has one order. -/
theorem Visits.unique {stack order other : List Nat} (h : Visits children stack order)
    (k : Visits children stack other) : order = other := by
  induction h generalizing other with
  | done =>
    cases k
    rfl
  | visit _ ih =>
    cases k with
    | visit k => rw [ih k]

end OnePage
