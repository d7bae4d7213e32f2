import Mathlib.Data.List.Nodup
import Structuring.Table

/-!
# Looking up in tables

* `Table.mem_keys` — keys in terms of look-ups.
* `keys_set`, `entries_set_new` — a change leaves the keys as they are, or puts one behind them.
* `get?_erase`, `get?_foldl_set`, `get?_map_self` — look-ups after a key is taken away, after several
  changes, and in a table that is made from a list.
-/

namespace Structuring

namespace Table

variable {α β : Type} [DecidableEq α]

theorem getIn?_filter_ne (a a' : α) (es : List (α × β)) :
    getIn? a' (es.filter fun e => e.1 ≠ a) = if a = a' then none else getIn? a' es := by
  induction es with
  | nil => simp [getIn?]
  | cons e es ih =>
    obtain ⟨k, v⟩ := e
    by_cases hk : k = a
    · subst hk
      by_cases ha : k = a'
      · simpa [ha] using ih
      · simpa [ha, getIn?] using ih
    · by_cases ha : k = a'
      · subst ha
        simp [hk, Ne.symm hk, getIn?]
      · simpa [hk, ha, getIn?] using ih

theorem get?_erase (t : Table α β) (a a' : α) :
    (t.erase a).get? a' = if a = a' then none else t.get? a' :=
  getIn?_filter_ne a a' t.entries

theorem erase_comm (t : Table α β) (a a' : α) : (t.erase a).erase a' = (t.erase a').erase a := by
  unfold erase
  rw [Table.mk.injEq, List.filter_filter, List.filter_filter]
  exact List.filter_congr fun _ _ => Bool.and_comm _ _

theorem contains_iff {t : Table α β} {a : α} : t.contains a = true ↔ ∃ b, t.get? a = some b := by
  rw [contains, Option.isSome_iff_exists]

theorem mem_keys {t : Table α β} {a : α} : a ∈ t.keys ↔ ∃ b, t.get? a = some b := by
  obtain ⟨es⟩ := t
  change a ∈ es.map (·.1) ↔ ∃ b, getIn? a es = some b
  induction es with
  | nil => simp [getIn?]
  | cons e es ih =>
    obtain ⟨k, b⟩ := e
    by_cases hk : k = a
    · simp [getIn?, hk]
    · simpa [getIn?, hk, Ne.symm hk] using ih

theorem keys_set {t : Table α β} {a : α} {b : β} (h : t.get? a = some b) (b' : β) :
    (t.set a b').keys = t.keys := by
  obtain ⟨es⟩ := t
  change getIn? a es = some b at h
  change (setIn a b' es).map (·.1) = es.map (·.1)
  induction es with
  | nil => simp [getIn?] at h
  | cons e es ih =>
    obtain ⟨k, c⟩ := e
    by_cases hk : k = a
    · simp [setIn, hk]
    · simp only [getIn?, if_neg hk] at h
      simpa [setIn, hk] using ih h

theorem set_get? {t : Table α β} {a : α} {b : β} (h : t.get? a = some b) : t.set a b = t := by
  obtain ⟨es⟩ := t
  change getIn? a es = some b at h
  refine congrArg Table.mk ?_
  induction es with
  | nil => simp [getIn?] at h
  | cons e es ih =>
    obtain ⟨k, c⟩ := e
    by_cases hk : k = a
    · simp only [getIn?, if_pos hk, Option.some.injEq] at h
      simp [setIn, hk, h]
    · simp only [getIn?, if_neg hk] at h
      simpa [setIn, hk] using ih h

theorem entries_set_new {t : Table α β} {a : α} (h : a ∉ t.keys) (b : β) :
    (t.set a b).entries = t.entries ++ [(a, b)] := by
  obtain ⟨es⟩ := t
  change a ∉ es.map (·.1) at h
  change setIn a b es = es ++ [(a, b)]
  induction es with
  | nil => rfl
  | cons e es ih =>
    rw [List.map_cons, List.mem_cons, not_or] at h
    simpa [setIn, Ne.symm h.1] using ih h.2

theorem keys_set_new {t : Table α β} {a : α} (h : a ∉ t.keys) (b : β) :
    (t.set a b).keys = t.keys ++ [a] := by
  simp only [keys, entries_set_new h, List.map_append, List.map_cons, List.map_nil]

theorem mem_keys_set {t : Table α β} {a a' : α} {b : β} :
    a' ∈ (t.set a b).keys ↔ a' = a ∨ a' ∈ t.keys := by
  simp only [mem_keys, get?_set]
  by_cases ha : a = a'
  · simp [ha]
  · simp [ha, Ne.symm ha]

theorem mem_keys_foldl_set {es : List (α × β)} {t : Table α β} {a : α} :
    a ∈ (es.foldl (fun t e => t.set e.1 e.2) t).keys ↔ a ∈ t.keys ∨ a ∈ es.map (·.1) := by
  induction es generalizing t with
  | nil => simp
  | cons e es ih =>
    rw [List.foldl_cons, ih, mem_keys_set, List.map_cons, List.mem_cons, or_comm (a := a = e.1),
      or_assoc]

theorem get?_foldl_set_of_notMem {es : List (α × β)} {t : Table α β} {a : α}
    (ha : a ∉ es.map (·.1)) : (es.foldl (fun t e => t.set e.1 e.2) t).get? a = t.get? a := by
  induction es generalizing t with
  | nil => rfl
  | cons e es ih =>
    rw [List.map_cons, List.mem_cons, not_or] at ha
    rw [List.foldl_cons, ih ha.2, get?_set, if_neg (Ne.symm ha.1)]

/-- After several changes of different keys each of them is mapped to its own value. -/
theorem get?_foldl_set_of_mem {es : List (α × β)} {t : Table α β} {e : α × β}
    (hnd : (es.map (·.1)).Nodup) (he : e ∈ es) :
    (es.foldl (fun t e => t.set e.1 e.2) t).get? e.1 = some e.2 := by
  induction es generalizing t with
  | nil => cases he
  | cons e' es ih =>
    rw [List.map_cons, List.nodup_cons] at hnd
    rw [List.foldl_cons]
    rcases List.mem_cons.1 he with rfl | he
    · rw [get?_foldl_set_of_notMem hnd.1, get?_set, if_pos rfl]
    · exact ih hnd.2 he

theorem get?_foldl_set (f : α → β) (as : List α) (t : Table α β) (a : α) :
    (as.foldl (fun t b => t.set b (f b)) t).get? a = if a ∈ as then some (f a) else t.get? a := by
  induction as generalizing t with
  | nil => rfl
  | cons b bs ih =>
    rw [List.foldl_cons, ih, get?_set]
    by_cases ha : a ∈ bs
    · simp [ha]
    · by_cases hb : b = a
      · simp [hb]
      · simp [ha, hb, Ne.symm hb]

theorem get?_map_self (f : β → α) (bs : List β) (a : α) :
    get? ⟨bs.map fun b => (f b, b)⟩ a = bs.find? fun b => f b = a := by
  change getIn? a (bs.map fun b => (f b, b)) = _
  induction bs with
  | nil => rfl
  | cons b bs ih =>
    by_cases hb : f b = a
    · simp [getIn?, hb]
    · simpa [getIn?, hb] using ih

end Table

end Structuring
