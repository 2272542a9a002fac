/-!
The primitive functions: nine that programs name, and one that reports its argument.
-/

namespace CallBy

/-- A primitive function. The `tick` is the observable identity: it returns its argument and reports
it, so that the trace of the run shows its text; no program text names it. -/
inductive Prim where
  | isNumber | isFunction | isList | isNull | isCons | arity | cons | first | rest | tick
  deriving DecidableEq, Repr

namespace Prim

/-- The word for the primitive. -/
def name : Prim → String
  | isNumber => "number?"
  | isFunction => "function?"
  | isList => "list?"
  | isNull => "null?"
  | isCons => "cons?"
  | arity => "arity"
  | cons => "cons"
  | first => "first"
  | rest => "rest"
  | tick => "tick"

/-- The number of arguments the primitive takes. -/
def argCount : Prim → Nat
  | cons => 2
  | _ => 1

/-- The primitives that programs can name. -/
def named : List Prim := [isNumber, isFunction, isList, isNull, isCons, arity, cons, first, rest]

/-- The primitive that a word of a program names. -/
def ofName? (s : String) : Option Prim := named.find? (·.name == s)

/-- Reading the word of a primitive gives the primitive, the tick apart. -/
theorem ofName?_name {p : Prim} (h : p ∈ named) : ofName? p.name = some p := by
  revert h
  cases p <;> decide

theorem mem_named_of_ofName? {s : String} {p : Prim} (h : ofName? s = some p) : p ∈ named :=
  List.mem_of_find?_eq_some h

theorem name_of_ofName? {s : String} {p : Prim} (h : ofName? s = some p) : p.name = s := by
  have := List.find?_some h
  simpa using this

end Prim

end CallBy
