import Structuring.Value

/-!
# Attributes

A list of keys with their values, in the order in which the keys were first set.

* `Attributes` — no two entries have keys that name the same thing.
* `set` — a key that is set again keeps its place and its spelling and takes the new value.
* `update` — one list laid over another.
-/

namespace Structuring

/-- Keys and values in the order in which the keys were first set. -/
structure Attributes where
  entries : List (Value × Value)
  distinct : (entries.map fun e => e.1.key).Nodup
  deriving DecidableEq

namespace Attributes

def empty : Attributes := ⟨[], List.nodup_nil⟩

instance : Inhabited Attributes := ⟨empty⟩
instance : EmptyCollection Attributes := ⟨empty⟩

def isEmpty (a : Attributes) : Bool := a.entries.isEmpty

/-- The value under a key. -/
def get? (a : Attributes) (k : Key) : Option Value :=
  (a.entries.find? fun e => e.1.key = k).map (·.2)

def contains (a : Attributes) (k : Key) : Bool :=
  a.entries.any fun e => e.1.key = k

/-- Puts a value under a key. The first spelling of the key and its place stay. -/
def setEntries (k v : Value) : List (Value × Value) → List (Value × Value)
  | [] => [(k, v)]
  | e :: es => if e.1.key = k.key then (e.1, v) :: es else e :: setEntries k v es

theorem mem_map_key_setEntries {k v : Value} {es : List (Value × Value)} {x : Key} :
    x ∈ (setEntries k v es).map (fun e => e.1.key) ↔
      x = k.key ∨ x ∈ es.map (fun e => e.1.key) := by
  induction es with
  | nil => simp [setEntries]
  | cons e es ih =>
    unfold setEntries
    split
    · next h => simp [h]
    · simp only [List.map_cons, List.mem_cons, ih]
      constructor
      · rintro (h | h | h)
        · exact .inr (.inl h)
        · exact .inl h
        · exact .inr (.inr h)
      · rintro (h | h | h)
        · exact .inr (.inl h)
        · exact .inl h
        · exact .inr (.inr h)

theorem nodup_setEntries {k v : Value} {es : List (Value × Value)}
    (h : (es.map fun e => e.1.key).Nodup) :
    ((setEntries k v es).map fun e => e.1.key).Nodup := by
  induction es with
  | nil => simp [setEntries]
  | cons e es ih =>
    rw [List.map_cons, List.nodup_cons] at h
    unfold setEntries
    split
    · rw [List.map_cons, List.nodup_cons]; exact h
    · next hk =>
      rw [List.map_cons, List.nodup_cons]
      refine ⟨fun hm => ?_, ih h.2⟩
      rcases mem_map_key_setEntries.1 hm with h' | h'
      · exact hk h'
      · exact h.1 h'

def set (a : Attributes) (k v : Value) : Attributes :=
  ⟨setEntries k v a.entries, nodup_setEntries a.distinct⟩

/-- Sets every entry of `b` in turn. -/
def update (a b : Attributes) : Attributes :=
  b.entries.foldl (fun a e => a.set e.1 e.2) a

/-- The entries of a list, set one after the other. -/
def ofList (es : List (Value × Value)) : Attributes :=
  es.foldl (fun a e => a.set e.1 e.2) empty

/-- Whether one of the given words is a key. -/
def mentions (a : Attributes) (words : List String) : Bool :=
  words.any fun w => a.contains (.text w)

@[simp] theorem entries_empty : (∅ : Attributes).entries = [] := rfl

@[simp] theorem entries_set (a : Attributes) (k v : Value) :
    (a.set k v).entries = setEntries k v a.entries := rfl

end Attributes

end Structuring
