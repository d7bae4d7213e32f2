/-!
# Tables

Finite maps that keep the order in which their keys were first set.

* `Table.get?`, `set`, `erase` — looking up, setting and taking away.
* `get?_set` — what a table holds after a change.
-/

namespace Structuring

/-- Keys and what they are mapped to. -/
structure Table (α β : Type) where
  entries : List (α × β)

namespace Table

variable {α β : Type} [DecidableEq α]

def empty : Table α β := ⟨[]⟩

instance : Inhabited (Table α β) := ⟨empty⟩
instance : EmptyCollection (Table α β) := ⟨empty⟩

def getIn? (a : α) : List (α × β) → Option β
  | [] => none
  | (a', b) :: es => if a' = a then some b else getIn? a es

def setIn (a : α) (b : β) : List (α × β) → List (α × β)
  | [] => [(a, b)]
  | (a', b') :: es => if a' = a then (a', b) :: es else (a', b') :: setIn a b es

def get? (t : Table α β) (a : α) : Option β := getIn? a t.entries

def contains (t : Table α β) (a : α) : Bool := (t.get? a).isSome

/-- Maps a key to a value. A key that is there keeps its place. -/
def set (t : Table α β) (a : α) (b : β) : Table α β := ⟨setIn a b t.entries⟩

def erase (t : Table α β) (a : α) : Table α β := ⟨t.entries.filter fun e => e.1 ≠ a⟩

def keys (t : Table α β) : List α := t.entries.map (·.1)

def size (t : Table α β) : Nat := t.entries.length

@[simp] theorem get?_empty (a : α) : (∅ : Table α β).get? a = none := rfl

theorem getIn?_setIn (a a' : α) (b : β) (es : List (α × β)) :
    getIn? a' (setIn a b es) = if a = a' then some b else getIn? a' es := by
  induction es with
  | nil => simp [setIn, getIn?]
  | cons e es ih =>
    obtain ⟨k, v⟩ := e
    unfold setIn
    by_cases hk : k = a
    · subst hk
      by_cases ha : k = a'
      · simp [getIn?, ha]
      · simp [getIn?, ha]
    · by_cases ha : k = a'
      · subst ha
        simp [getIn?, hk, Ne.symm hk]
      · simp [getIn?, hk, ha, ih]

theorem get?_set (t : Table α β) (a a' : α) (b : β) :
    (t.set a b).get? a' = if a = a' then some b else t.get? a' :=
  getIn?_setIn a a' b t.entries

theorem mem_of_getIn? {a : α} {b : β} {es : List (α × β)} (h : getIn? a es = some b) :
    (a, b) ∈ es := by
  induction es with
  | nil => simp [getIn?] at h
  | cons e es ih =>
    obtain ⟨k, v⟩ := e
    unfold getIn? at h
    split at h
    · next hk => cases h; subst hk; exact List.mem_cons_self
    · exact List.mem_cons_of_mem _ (ih h)

theorem size_erase_lt {t : Table α β} {a : α} {b : β} (h : t.get? a = some b) :
    (t.erase a).size < t.size := by
  unfold size erase
  refine List.length_filter_lt_length_iff_exists.2 ⟨(a, b), mem_of_getIn? h, ?_⟩
  simp

end Table

end Structuring
