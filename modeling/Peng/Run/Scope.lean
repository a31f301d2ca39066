import Peng.Run.Value

/-!
# Scopes

The names that have a value. The language has neither blocks nor functions, so there is one
flat scope; it has a name of its own, which is shown when a name is missing from it.

A scope is seen through `get?`. The main statements are `get?_assign_self` and
`get?_assign_of_ne`.
-/

namespace Peng

/-- Names with their values, the name assigned last in front. No name is held twice. -/
structure Scope where
  name : String
  bindings : List (String × Value)

namespace Scope

/-- The scope of that name in which nothing has a value. -/
def empty (name : String) : Scope :=
  ⟨name, []⟩

/-- The value of a name. -/
def get? (s : Scope) (name : String) : Option Value :=
  s.bindings.lookup name

/-- Gives a name a value, in place of the one it had. -/
def assign (s : Scope) (name : String) (value : Value) : Scope :=
  ⟨s.name, (name, value) :: s.bindings.filter (·.1 ≠ name)⟩

/-- A scope in which the bindings were assigned in order. -/
def ofList (name : String) (bindings : List (String × Value)) : Scope :=
  bindings.foldl (fun s b => s.assign b.1 b.2) (empty name)

@[simp] theorem assign_name (s : Scope) (name : String) (v : Value) :
    (s.assign name v).name = s.name := rfl

@[simp] theorem get?_empty (scope name : String) : (empty scope).get? name = none := rfl

@[simp] theorem get?_assign_self (s : Scope) (name : String) (v : Value) :
    (s.assign name v).get? name = some v := by
  simp [assign, get?]

private theorem lookup_filter_of_ne {name other : String} (h : other ≠ name)
    (bindings : List (String × Value)) :
    (bindings.filter (·.1 ≠ name)).lookup other = bindings.lookup other := by
  induction bindings with
  | nil => rfl
  | cons b bindings ih =>
    obtain ⟨bound, v⟩ := b
    by_cases hb : bound = name
    · have hne : (other == bound) = false := by simp [hb, h]
      rw [List.lookup_cons, hne, ← ih]
      simp [hb]
    · rw [List.filter_cons_of_pos (by simpa using hb), List.lookup_cons, List.lookup_cons, ih]

theorem get?_assign_of_ne (s : Scope) {name other : String} (h : other ≠ name) (v : Value) :
    (s.assign name v).get? other = s.get? other := by
  have : (other == name) = false := by simp [h]
  simp only [assign, get?, List.lookup_cons, this]
  exact lookup_filter_of_ne h s.bindings

end Scope

end Peng
