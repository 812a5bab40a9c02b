import Mathlib.Data.List.Infix
import Mathlib.Tactic.Common

/-!
# Values of a JSON parser in Ruby

* `Json`: a value; `Json.get`: a key of an object.
* `Json.index`, `Json.pairs`: `value[key]` and `each_with_object` on any value, with the exceptions
  of the interpreter (`Raised`).
* `Json.Indexable`: the values that `[]` answers with a string; `index_eq_error`: the others raise.
* `Json.WellKeyed`: no object has a key twice.
-/

namespace JsonValue

/-- What `JSON.parse` returns. An object is a `Hash`: its keys in order, each once. A float is its
text. -/
inductive Json
  | null
  | bool (b : Bool)
  | int (n : ℤ)
  | float (text : String)
  | string (s : String)
  | array (items : List Json)
  | object (entries : List (String × Json))

/-- An exception: one that the code raises, or one of the interpreter. -/
inductive Raised (E : Type)
  | own (e : E)
  | noMethodError (method : String)
  | typeError

namespace Json

/-- `hash[key]`. -/
def get (entries : List (String × Json)) (key : String) : Json := (entries.lookup key).getD .null

/-- `value[key]`. A string answers with the key if it contains it. -/
def index {E : Type} (value : Json) (key : String) : Except (Raised E) Json :=
  match value with
  | .object entries => .ok (get entries key)
  | .string s => .ok (if key.toList <:+: s.toList then .string key else .null)
  | .int _ | .array _ => .error .typeError
  | .null | .bool _ | .float _ => .error (.noMethodError "[]")

/-- The pair `(name, value)` that a block parameter takes an element apart into. -/
def destructure : Json → Json × Json
  | .array [] => (.null, .null)
  | .array [x] => (x, .null)
  | .array (x :: y :: _) => (x, y)
  | x => (x, .null)

/-- The pairs that `each_with_object` goes through. -/
def pairs {E : Type} : Json → Except (Raised E) (List (Json × Json))
  | .object entries => .ok (entries.map fun entry => (.string entry.1, entry.2))
  | .array items => .ok (items.map destructure)
  | _ => .error (.noMethodError "each_with_object")

/-- `value == "…"`. -/
def isString (s : String) : Json → Bool
  | .string t => t = s
  | _ => false

/-- Anything but `nil` and `false`. -/
def truthy : Json → Bool
  | .null | .bool false => false
  | _ => true

/-- The values with string keys: objects and strings. -/
def Indexable : Json → Prop
  | .object _ | .string _ => True
  | _ => False

theorem index_eq_error {E : Type} {value : Json} (h : ¬ value.Indexable) (key : String) :
    ∃ e : Raised E, value.index key = .error e ∧ ∀ c, e ≠ .own c := by
  cases value with
  | null => exact ⟨.noMethodError "[]", rfl, by simp⟩
  | bool b => exact ⟨.noMethodError "[]", rfl, by simp⟩
  | int n => exact ⟨.typeError, rfl, by simp⟩
  | float text => exact ⟨.noMethodError "[]", rfl, by simp⟩
  | string s => exact absurd trivial h
  | array items => exact ⟨.typeError, rfl, by simp⟩
  | object entries => exact absurd trivial h

theorem index_ne_own {E : Type} (value : Json) (key : String) (c : E) :
    value.index key ≠ .error (.own c) := by
  cases value <;> simp [index]

/-- Every object is a `Hash`: it has a key once. -/
inductive WellKeyed : Json → Prop
  | null : WellKeyed .null
  | bool (b : Bool) : WellKeyed (.bool b)
  | int (n : ℤ) : WellKeyed (.int n)
  | float (text : String) : WellKeyed (.float text)
  | string (s : String) : WellKeyed (.string s)
  | array {items : List Json} (h : ∀ x ∈ items, WellKeyed x) : WellKeyed (.array items)
  | object {entries : List (String × Json)} (hd : (entries.map Prod.fst).Nodup)
      (h : ∀ e ∈ entries, WellKeyed e.2) : WellKeyed (.object entries)

theorem wellKeyed_object_iff {entries : List (String × Json)} :
    (Json.object entries).WellKeyed ↔
      (entries.map Prod.fst).Nodup ∧ ∀ e ∈ entries, e.2.WellKeyed := by
  constructor
  · intro h
    cases h with
    | object hd h => exact ⟨hd, h⟩
  · intro h
    exact .object h.1 h.2

theorem wellKeyed_array_iff {items : List Json} :
    (Json.array items).WellKeyed ↔ ∀ x ∈ items, x.WellKeyed := by
  constructor
  · intro h
    cases h with
    | array h => exact h
  · exact .array

theorem WellKeyed.get {entries : List (String × Json)} (h : (Json.object entries).WellKeyed)
    (key : String) : (Json.get entries key).WellKeyed := by
  unfold Json.get
  cases hl : entries.lookup key with
  | none => exact .null
  | some value =>
    obtain ⟨l₁, l₂, he, -⟩ := List.lookup_eq_some_iff.mp hl
    apply (wellKeyed_object_iff.mp h).2 (key, value)
    rw [he]
    exact List.mem_append_right l₁ List.mem_cons_self

theorem index_string {E : Type} (s key : String) :
    (Json.string s).index (E := E) key = .ok (.string key) ∨
      (Json.string s).index (E := E) key = .ok .null := by
  unfold index
  by_cases h : key.toList <:+: s.toList
  · exact .inl (by simp only [h, if_true])
  · exact .inr (by simp only [h, if_false])

end Json

end JsonValue
