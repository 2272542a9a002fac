import CallBy.Value.Render

/-!
The state of a run: frames of variables, the bindings they point to, and what has been reported.

Frames and bindings are only ever added. A frame is changed in place while the definitions of a
recursive `let` fill it, and a shared binding while it is computed.

* `Machine.frame`, `Machine.binding` read an address;
* `Machine.find?`, `Machine.lookup?` search an environment;
* `Machine.addFrame`, `Machine.addBinding`, `Machine.setSlot`, `Machine.setBinding`,
  `Machine.report` write;
* `Machine.trace`: the texts of what has been reported.
-/

namespace CallBy

/-- The address of a binding. -/
abbrev BindingId := Nat

/-- A computation that is done at most once: not begun, begun, or done with its result. Until it is
done it holds its expression and environment. -/
inductive Memo where
  | pending (e : Expr) (env : Env)
  | running (e : Expr) (env : Env)
  | done (v : Value)
  deriving DecidableEq, Repr

/-- What a variable is bound to. -/
inductive Binding where
  /-- Nothing yet: the definition has not been reached. -/
  | undefined (x : String)
  /-- A value. -/
  | value (x : String) (v : Value)
  /-- An expression that is computed anew for every use. -/
  | name (x : String) (e : Expr) (env : Env)
  /-- An expression that is computed for the first use. -/
  | need (x : String) (memo : Memo)
  deriving DecidableEq, Repr

namespace Binding

/-- The bound variable. -/
def var : Binding → String
  | undefined x | value x _ | name x _ _ | need x _ => x

/-- The expression and environment that the binding holds. -/
def thunk? : Binding → Option (Expr × Env)
  | name _ e env | need _ (.pending e env) | need _ (.running e env) => some (e, env)
  | _ => none

end Binding

/-- A frame: variables with the addresses of their bindings, in the order of their first binding. -/
structure Frame where
  slots : List (String × BindingId)
  deriving DecidableEq, Repr

namespace Frame

/-- The frame without variables. -/
def empty : Frame := ⟨[]⟩

/-- The binding of a variable among slots. -/
def getSlot? (x : String) : List (String × BindingId) → Option BindingId
  | [] => none
  | (y, i) :: ss => if y = x then some i else getSlot? x ss

/-- The binding of a variable. -/
def get? (f : Frame) (x : String) : Option BindingId := getSlot? x f.slots

/-- The slots with `x` pointing to `i`: in the place of `x` if it has one, else at the end. -/
def setSlots (x : String) (i : BindingId) : List (String × BindingId) → List (String × BindingId)
  | [] => [(x, i)]
  | (y, j) :: ss => if y = x then (x, i) :: ss else (y, j) :: setSlots x i ss

/-- The frame with `x` pointing to `i`. -/
def set (f : Frame) (x : String) (i : BindingId) : Frame := ⟨setSlots x i f.slots⟩

/-- The frame of the given bindings; of two for one variable the later counts. -/
def ofSlots (ss : List (String × BindingId)) : Frame :=
  ss.foldl (fun f s => f.set s.1 s.2) empty

/-- The variables of the frame. -/
def vars (f : Frame) : List String := f.slots.map (·.1)

theorem getSlot?_setSlots (x y : String) (i : BindingId) (ss : List (String × BindingId)) :
    getSlot? y (setSlots x i ss) = if x = y then some i else getSlot? y ss := by
  fun_induction setSlots x i ss <;> grind [getSlot?]

/-- Setting a variable changes its binding and no other. -/
@[simp] theorem get?_set (f : Frame) (x y : String) (i : BindingId) :
    (f.set x i).get? y = if x = y then some i else f.get? y :=
  getSlot?_setSlots x y i f.slots

@[simp] theorem get?_empty (x : String) : empty.get? x = none := rfl

end Frame

/-- The state of a run. -/
structure Machine where
  frames : Array Frame := #[]
  bindings : Array Binding := #[]
  /-- The number of closures made. -/
  closures : Nat := 0
  /-- The values that the tick has reported, in order. -/
  reports : Array Value := #[]
  deriving DecidableEq, Repr

namespace Machine

/-- The state before any run. -/
def initial : Machine := {}

/-- The frame at an address; an address out of use holds the empty frame. -/
def frame (m : Machine) (f : FrameId) : Frame := m.frames[f]?.getD Frame.empty

/-- The binding at an address; an address out of use holds an undefined one. -/
def binding (m : Machine) (i : BindingId) : Binding := m.bindings[i]?.getD (.undefined "")

/-- The innermost frame that binds the variable. -/
def find? (m : Machine) (env : Env) (x : String) : Option FrameId :=
  env.find? fun f => ((m.frame f).get? x).isSome

/-- The binding of the variable in the innermost frame that has one. -/
def lookup? (m : Machine) (env : Env) (x : String) : Option BindingId :=
  env.findSome? fun f => (m.frame f).get? x

/-- Adds a frame at the next address. -/
def addFrame (m : Machine) (f : Frame) : Machine := { m with frames := m.frames.push f }

/-- Adds a binding at the next address. -/
def addBinding (m : Machine) (b : Binding) : Machine := { m with bindings := m.bindings.push b }

/-- Points a variable of a frame to a binding. -/
def setSlot (m : Machine) (f : FrameId) (x : String) (i : BindingId) : Machine :=
  { m with frames := m.frames.modify f (·.set x i) }

/-- Replaces the binding at an address. -/
def setBinding (m : Machine) (i : BindingId) (b : Binding) : Machine :=
  { m with bindings := m.bindings.setIfInBounds i b }

/-- Reports a value. -/
def report (m : Machine) (v : Value) : Machine := { m with reports := m.reports.push v }

/-- **The trace of the run**: the texts of the reported values. -/
def trace (m : Machine) : Array String := (m.reports.toList.map Value.render).toArray

/-! ### What a write changes -/

theorem frame_addFrame (m : Machine) (f : Frame) (i : FrameId) :
    (m.addFrame f).frame i = if i = m.frames.size then f else m.frame i := by
  simp only [frame, addFrame, Array.getElem?_push]
  split <;> rfl

theorem binding_addBinding (m : Machine) (b : Binding) (i : BindingId) :
    (m.addBinding b).binding i = if i = m.bindings.size then b else m.binding i := by
  simp only [binding, addBinding, Array.getElem?_push]
  split <;> rfl

theorem binding_setBinding (m : Machine) (b : Binding) {i : BindingId} (h : i < m.bindings.size)
    (j : BindingId) : (m.setBinding i b).binding j = if i = j then b else m.binding j := by
  simp only [binding, setBinding, Array.getElem?_setIfInBounds]
  split <;> simp_all

theorem frame_setSlot (m : Machine) {f : FrameId} (h : f < m.frames.size) (x : String)
    (i : BindingId) (g : FrameId) :
    (m.setSlot f x i).frame g = if f = g then (m.frame f).set x i else m.frame g := by
  simp only [frame, setSlot, Array.getElem?_modify]
  split <;> simp_all

theorem binding_addBinding_of_lt (m : Machine) (b : Binding) {i : Nat} (h : i < m.bindings.size) :
    (m.addBinding b).binding i = m.binding i := by
  rw [binding_addBinding, if_neg (Nat.ne_of_lt h)]

theorem frame_addFrame_of_lt (m : Machine) (F : Frame) {f : Nat} (h : f < m.frames.size) :
    (m.addFrame F).frame f = m.frame f := by
  rw [frame_addFrame, if_neg (Nat.ne_of_lt h)]

theorem binding_setBinding_self (m : Machine) (b : Binding) {i : Nat} (h : i < m.bindings.size) :
    (m.setBinding i b).binding i = b := by
  rw [binding_setBinding m b h, if_pos rfl]

theorem binding_setBinding_of_ne (m : Machine) (b : Binding) {i j : Nat} (h : i ≠ j) :
    (m.setBinding i b).binding j = m.binding j := by
  simp [binding, setBinding, Array.getElem?_setIfInBounds_ne h]

@[simp] theorem size_addBinding (m : Machine) (b : Binding) :
    (m.addBinding b).bindings.size = m.bindings.size + 1 := by simp [addBinding]

@[simp] theorem size_setBinding (m : Machine) (i : Nat) (b : Binding) :
    (m.setBinding i b).bindings.size = m.bindings.size := by simp [setBinding]

@[simp] theorem size_addFrame (m : Machine) (F : Frame) :
    (m.addFrame F).frames.size = m.frames.size + 1 := by simp [addFrame]

@[simp] theorem size_setSlot (m : Machine) (f : Nat) (x : String) (i : BindingId) :
    (m.setSlot f x i).frames.size = m.frames.size := by simp [setSlot]

/-- A shared binding is at an address in use. -/
theorem lt_size_of_need {m : Machine} {i : Nat} {x : String} {memo : Memo}
    (h : m.binding i = .need x memo) : i < m.bindings.size := by
  cases Nat.lt_or_ge i m.bindings.size with
  | inl hlt => exact hlt
  | inr hge =>
    rw [binding, Array.getElem?_eq_none hge] at h
    cases h

@[simp] theorem trace_report (m : Machine) (v : Value) :
    (m.report v).trace = m.trace.push v.render := by simp [trace, report]

end Machine

end CallBy
