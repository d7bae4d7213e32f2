import Structuring.Attributes

/-!
# Attributes laid over one another

* `Attributes.setAll` — entries set one after the other; what `update` and `ofList` do.
* `get?_set`, `get?_update` — what stands under a key afterwards: the last value that was set.
* `Attributes.Textual` — no value is an integer.
-/

namespace Structuring

namespace Attributes

variable {a b : Attributes} {k v : Value} {x : Key} {es : List (Value × Value)}

def setAll (a : Attributes) (es : List (Value × Value)) : Attributes :=
  es.foldl (fun a e => a.set e.1 e.2) a

theorem update_eq (a b : Attributes) : a.update b = a.setAll b.entries := rfl

theorem ofList_eq (es : List (Value × Value)) : ofList es = setAll ∅ es := rfl

theorem setAll_append (a : Attributes) (es fs : List (Value × Value)) :
    a.setAll (es ++ fs) = (a.setAll es).setAll fs := List.foldl_append

theorem entries_setAll (a : Attributes) (es : List (Value × Value)) :
    (a.setAll es).entries = es.foldl (fun fs e => setEntries e.1 e.2 fs) a.entries := by
  induction es generalizing a with
  | nil => rfl
  | cons e es ih => exact ih (a.set e.1 e.2)

@[ext] theorem ext (h : a.entries = b.entries) : a = b := by
  cases a
  cases b
  cases h
  rfl

/-! ## Looking up -/

theorem get?_set (a : Attributes) (k v : Value) (x : Key) :
    (a.set k v).get? x = if k.key = x then some v else a.get? x := by
  have hentries : ∀ es : List (Value × Value),
      ((setEntries k v es).find? fun e => e.1.key = x).map (·.2) =
        if k.key = x then some v else (es.find? fun e => e.1.key = x).map (·.2) := by
    intro es
    induction es with
    | nil => by_cases hx : k.key = x <;> simp [setEntries, hx]
    | cons e es ih =>
      unfold setEntries
      by_cases he : e.1.key = k.key
      · rw [if_pos he]
        by_cases hx : k.key = x <;> simp [he, hx]
      · rw [if_neg he]
        by_cases hx : e.1.key = x
        · simp [hx, show k.key ≠ x from fun h => he (hx.trans h.symm)]
        · simp [hx, ih]
  exact hentries a.entries

theorem set_eq_self (h : a.get? k.key = some v) : a.set k v = a := by
  have hentries : ∀ es : List (Value × Value),
      (es.find? fun e => e.1.key = k.key).map (·.2) = some v → setEntries k v es = es := by
    intro es hes
    induction es with
    | nil => cases hes
    | cons e es ih =>
      unfold setEntries
      by_cases hk : e.1.key = k.key
      · rw [List.find?_cons_of_pos (by simp [hk])] at hes
        cases hes
        rw [if_pos hk]
      · rw [List.find?_cons_of_neg (by simp [hk])] at hes
        rw [if_neg hk, ih hes]
  exact ext (hentries a.entries h)

theorem contains_iff : a.contains x = true ↔ ∃ v, a.get? x = some v := by
  simp only [contains, get?, List.any_eq_true, Option.map_eq_some_iff, decide_eq_true_eq]
  constructor
  · rintro ⟨e, he, hx⟩
    cases hf : a.entries.find? fun e => decide (e.1.key = x) with
    | none => simpa [hx] using List.find?_eq_none.1 hf e he
    | some e' => exact ⟨_, e', rfl, rfl⟩
  · rintro ⟨v, e, he, -⟩
    exact ⟨e, List.mem_of_find?_eq_some he, by simpa using List.find?_some he⟩

theorem mem_of_get? (h : a.get? x = some v) : ∃ k, (k, v) ∈ a.entries ∧ k.key = x := by
  obtain ⟨e, he, rfl⟩ := Option.map_eq_some_iff.1 h
  exact ⟨e.1, List.mem_of_find?_eq_some he, by simpa using List.find?_some he⟩

theorem get?_setAll (hes : (es.map fun e => e.1.key).Nodup) (a : Attributes) (x : Key) :
    (a.setAll es).get? x = ((es.find? fun e => e.1.key = x).map (·.2)).or (a.get? x) := by
  induction es generalizing a with
  | nil => rfl
  | cons e es ih =>
    rw [List.map_cons, List.nodup_cons] at hes
    rw [show a.setAll (e :: es) = (a.set e.1 e.2).setAll es from rfl, ih hes.2, get?_set]
    by_cases hx : e.1.key = x
    · have hnone : es.find? (fun e => e.1.key = x) = none := by
        refine List.find?_eq_none.2 fun f hf => ?_
        have hmem : f.1.key ∈ es.map fun e => e.1.key := List.mem_map_of_mem hf
        simpa using fun hfx : f.1.key = x => hes.1 (by rwa [hx, ← hfx])
      simp [hx, hnone]
    · simp [hx]

theorem get?_update (a b : Attributes) (x : Key) :
    (a.update b).get? x = (b.get? x).or (a.get? x) := by
  rw [update_eq]
  exact get?_setAll b.distinct a x

theorem get?_update_of_some (h : b.get? x = some v) : (a.update b).get? x = some v := by
  rw [get?_update, h]
  rfl

/-- Of several lists laid over one another, the last one that has the key counts. -/
theorem get?_foldl_update (as : List Attributes) (a : Attributes) (x : Key) :
    (as.foldl .update a).get? x = (as.reverse.findSome? (·.get? x)).or (a.get? x) := by
  induction as generalizing a with
  | nil => rfl
  | cons b as ih =>
    rw [List.foldl_cons, ih, get?_update, List.reverse_cons, List.findSome?_append, Option.or_assoc]
    cases hb : b.get? x <;> simp [hb]

/-! ## Laid over nothing -/

theorem setEntries_append (h : k.key ∉ es.map fun e => e.1.key) :
    setEntries k v es = es ++ [(k, v)] := by
  induction es with
  | nil => rfl
  | cons e es ih =>
    rw [List.map_cons, List.mem_cons, not_or] at h
    rw [setEntries, if_neg fun heq => h.1 heq.symm, ih h.2, List.cons_append]

theorem entries_ofList (hes : (es.map fun e => e.1.key).Nodup) : (ofList es).entries = es := by
  have hrun : ∀ fs : List (Value × Value), ((fs ++ es).map fun e => e.1.key).Nodup →
      es.foldl (fun fs e => setEntries e.1 e.2 fs) fs = fs ++ es := by
    clear hes
    induction es with
    | nil => simp
    | cons e es ih =>
      intro fs hfs
      have hnew : e.1.key ∉ fs.map fun e => e.1.key := by
        rw [List.map_append, List.map_cons] at hfs
        exact fun hmem => (List.nodup_append.1 hfs).2.2 _ hmem _ List.mem_cons_self rfl
      rw [List.foldl_cons, setEntries_append hnew, ih _ (by simpa using hfs)]
      simp
  rw [ofList_eq, entries_setAll, entries_empty, hrun [] (by simpa using hes), List.nil_append]

theorem empty_update (a : Attributes) : (∅ : Attributes).update a = a :=
  ext (entries_ofList a.distinct)

theorem ofList_entries (a : Attributes) : ofList a.entries = a := empty_update a

/-! ## Texts -/

def Textual (a : Attributes) : Prop := ∀ e ∈ a.entries, ∀ n, e.2 ≠ .int n

theorem Textual.get? (ha : a.Textual) (h : a.get? x = some v) (n : Int) : v ≠ .int n := by
  obtain ⟨k, hk, -⟩ := mem_of_get? h
  exact ha _ hk n

theorem forall_setEntries {P : Value × Value → Prop} (hes : ∀ e ∈ es, P e) (hnew : P (k, v))
    (hold : ∀ e ∈ es, P (e.1, v)) : ∀ e ∈ setEntries k v es, P e := by
  induction es with
  | nil => simpa [setEntries] using hnew
  | cons e es ih =>
    rw [List.forall_mem_cons] at hes hold
    unfold setEntries
    split
    · exact List.forall_mem_cons.2 ⟨hold.1, hes.2⟩
    · exact List.forall_mem_cons.2 ⟨hes.1, ih hes.2 hold.2⟩

theorem Textual.set (ha : a.Textual) (hv : ∀ n, v ≠ .int n) : (a.set k v).Textual :=
  forall_setEntries (P := fun e => ∀ n, e.2 ≠ .int n) ha hv fun _ _ => hv

theorem Textual.setAll (ha : a.Textual) (hes : ∀ e ∈ es, ∀ n, e.2 ≠ .int n) :
    (a.setAll es).Textual := by
  induction es generalizing a with
  | nil => exact ha
  | cons e es ih =>
    rw [List.forall_mem_cons] at hes
    exact ih (ha.set hes.1) hes.2

theorem textual_empty : (∅ : Attributes).Textual := by
  intro e he
  cases he

theorem Textual.update (ha : a.Textual) (hb : b.Textual) : (a.update b).Textual := ha.setAll hb

end Attributes

end Structuring
