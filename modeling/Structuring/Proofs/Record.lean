import Mathlib.Data.List.Nodup
import Structuring.Proofs.Json.RoundTrip
import Structuring.Record

/-!
# Records are read back as they were written

* `Datum.IsText` — a text in which no two surrogates are a pair.
* `Entry.Plain` — a primitive whose kind and role names are such texts and whose labels are such texts
  or integers that can be written.
* `Datum.Kept` — a value that comes back as an equal one.
* `Entry.plain` — what comes back of a primitive: html texts come back as texts.
* `Entry.plain_same` — it equals the primitive.
* `Record.reread_same` — a record on one line or indented.
* `Record.tooLong_refused_paired_changed` — records with other integers or texts.
-/

namespace Structuring

namespace Datum

variable {d e : Datum} {s t : CodeText}

def plain : Datum → Datum
  | .html s => .text s
  | d => d

/-- A text in which no two surrogates are a pair. -/
def IsText (d : Datum) : Prop := ∃ s, d.text? = some s ∧ Json.Unpaired s.points

theorem isText_ofString (s : String) : IsText (.text s) := ⟨_, rfl, Json.unpaired_ofString s⟩

/-- A text without pairs, a truth value, or an integer that can be written. -/
inductive IsLabel : Datum → Prop where
  | text {d : Datum} (h : d.IsText) : IsLabel d
  | bool (b : Bool) : IsLabel (.bool b)
  | int {n : Int} (h : n.natAbs < 10 ^ Json.digitLimit) : IsLabel (.int n)

structure Kept (d : Datum) : Prop where
  writable : Json.Writable d
  decoded : Json.decoded d = d.plain
  same : d.plain.same d = true

theorem text?_plain (d : Datum) : d.plain.text? = d.text? := by
  cases d <;> rfl

theorem plain_of_text? (h : d.text? = some s) : d.plain = .text s := by
  cases d with
  | text | html =>
    rw [← Option.some.inj h]
    rfl
  | _ => cases h

theorem same_of_text? (hd : d.text? = some s) (he : e.text? = some t) : d.same e = decide (s = t) := by
  cases d with
  | text | html =>
    cases e with
    | text | html =>
      cases hd
      cases he
      rfl
    | _ => cases he
  | _ => cases hd

theorem IsText.kept (h : d.IsText) : d.Kept := by
  obtain ⟨s, hs, hunpaired⟩ := h
  have hsame : d.plain.same d = true := by
    rw [same_of_text? ((text?_plain d).trans hs) hs, decide_eq_true rfl]
  have hjoined := Json.joined_eq hunpaired
  cases d with
  | text =>
    cases hs
    exact ⟨.text s, congrArg Datum.text hjoined, hsame⟩
  | html =>
    cases hs
    exact ⟨.html s, congrArg Datum.text hjoined, hsame⟩
  | _ => cases hs

theorem kept_null : Kept .null := ⟨.null, rfl, rfl⟩

theorem IsLabel.kept (h : d.IsLabel) : d.Kept := by
  cases h with
  | text h => exact h.kept
  | bool b => exact ⟨.bool b, rfl, by simp [plain, same, integer?]⟩
  | int hn => exact ⟨.int hn, rfl, by simp [plain, same, integer?]⟩

end Datum

namespace Entry

variable {e : Entry} {rs ss : List (Datum × Datum)} {r v : Datum}

structure Plain (e : Entry) : Prop where
  kind : e.kind.IsText
  names : ∀ p ∈ e.roles, p.1.IsText
  distinct : (e.roles.map (·.1.text?)).Nodup
  players : ∀ p ∈ e.roles, p.2.IsLabel
  entry : e.entry.IsLabel
  exit : e.exit = .null ∨ e.exit.IsLabel

namespace Plain

theorem kept_exit (he : e.Plain) : e.exit.Kept := by
  rcases he.exit with hnull | hlabel
  · rw [hnull]
    exact Datum.kept_null
  · exact hlabel.kept

end Plain

def plain (e : Entry) : Entry :=
  ⟨e.kind.plain, e.roles.map fun p => (p.1.plain, p.2.plain), e.entry.plain, e.exit.plain⟩

/-! ## Equality -/

theorem player?_of_mem (hnames : ∀ p ∈ rs, p.1.IsText)
    (hdistinct : (rs.map (·.1.text?)).Nodup) (hmem : (r, v) ∈ rs) : player? r.plain rs = some v := by
  induction rs with
  | nil => cases hmem
  | cons p rs ih =>
    obtain ⟨s, hs, -⟩ := hnames p List.mem_cons_self
    obtain ⟨t, ht, -⟩ := hnames (r, v) hmem
    rw [List.map_cons, List.nodup_cons] at hdistinct
    rw [player?, Datum.same_of_text? hs ((Datum.text?_plain r).trans ht)]
    rcases List.mem_cons.1 hmem with rfl | hmem
    · cases hs.symm.trans ht
      simp
    · -- another role has another name
      have hne : s ≠ t := by
        rintro rfl
        exact hdistinct.1 (hs.trans ht.symm ▸ List.mem_map_of_mem hmem)
      rw [if_neg (by simp [hne])]
      exact ih (fun p hp => hnames p (List.mem_cons_of_mem _ hp)) hdistinct.2 hmem

theorem sameRoles_plain (he : e.Plain) : sameRoles e.plain.roles e.roles = true := by
  rw [sameRoles, plain, List.length_map, decide_eq_true rfl, Bool.true_and, List.all_eq_true]
  intro q hq
  obtain ⟨p, hp, rfl⟩ := List.mem_map.1 hq
  dsimp only
  rw [player?_of_mem he.names he.distinct hp]
  exact (he.players p hp).kept.same

theorem plain_same (he : e.Plain) : e.plain.same e = true := by
  rw [same, sameRoles_plain he]
  simp [plain, he.kind.kept.same, he.entry.kept.same, he.kept_exit.same]

/-! ## Primitives as objects -/

def members (e : Entry) : List (CodeText × Datum) :=
  e.roles.map fun p => (p.1.text?.getD ⟨[]⟩, p.2)

theorem memberName_of_isText (h : r.IsText) : memberName r = .ok (r.text?.getD ⟨[]⟩) := by
  obtain ⟨s, hs, -⟩ := h
  cases r with
  | text | html => rfl
  | _ => cases hs

theorem membersOf_eq (hnames : ∀ p ∈ rs, p.1.IsText) :
    membersOf rs = .ok (rs.map fun p => (p.1.text?.getD ⟨[]⟩, p.2)) := by
  induction rs with
  | nil => rfl
  | cons p rs ih =>
    rw [membersOf, memberName_of_isText (hnames p List.mem_cons_self),
      ih fun p hp => hnames p (List.mem_cons_of_mem _ hp)]
    rfl

def stored (e : Entry) : Datum :=
  .object [("prim", e.kind), ("node", .object e.members), ("entry", e.entry), ("exit", e.exit)]

namespace Plain

theorem toDatum_eq (he : e.Plain) : e.toDatum = .ok e.stored := by
  rw [toDatum, membersOf_eq he.names]
  rfl

theorem kept_members (he : e.Plain) {m : CodeText × Datum} (hm : m ∈ e.members) : m.2.Kept := by
  obtain ⟨p, hp, rfl⟩ := List.mem_map.1 hm
  exact (he.players p hp).kept

theorem joined_members (he : e.Plain) {m : CodeText × Datum} (hm : m ∈ e.members) :
    Json.joined m.1 = m.1 := by
  obtain ⟨p, hp, rfl⟩ := List.mem_map.1 hm
  obtain ⟨s, hs, hunpaired⟩ := he.names p hp
  dsimp only
  rw [hs]
  exact Json.joined_eq hunpaired

theorem members_nodup (he : e.Plain) : (e.members.map (·.1)).Nodup := by
  refine List.Nodup.of_map some ?_
  have hnames : (e.members.map (·.1)).map some = e.roles.map (·.1.text?) := by
    rw [members, List.map_map, List.map_map]
    refine List.map_congr_left fun p hp => ?_
    obtain ⟨s, hs, -⟩ := he.names p hp
    simp [hs]
  rw [hnames]
  exact he.distinct

theorem writable (he : e.Plain) : Json.Writable e.stored := by
  refine .object fun m hm => ?_
  simp only [List.mem_cons, List.not_mem_nil, or_false] at hm
  rcases hm with rfl | rfl | rfl | rfl
  · exact he.kind.kept.writable
  · exact .object fun m hm => (he.kept_members hm).writable
  · exact he.entry.kept.writable
  · exact he.kept_exit.writable

end Plain

def reread (e : Entry) : Datum :=
  .object [("prim", e.kind.plain), ("node", .object (e.members.map fun m => (m.1, m.2.plain))),
    ("entry", e.entry.plain), ("exit", e.exit.plain)]

theorem Plain.decoded (he : e.Plain) : Json.decoded e.stored = e.reread := by
  have hjoined : (e.members.map fun m => Json.joined m.1) = e.members.map (·.1) :=
    List.map_congr_left fun m hm => he.joined_members hm
  have hnode : Json.decoded (.object e.members) =
      .object (e.members.map fun m => (m.1, m.2.plain)) := by
    rw [Json.decoded, Json.decodedMembers_eq (by rw [hjoined]; exact he.members_nodup)]
    congr 1
    exact List.map_congr_left fun m hm => by rw [he.joined_members hm, (he.kept_members hm).decoded]
  have hfields : ∀ s : String, Json.joined s = s := fun s => Json.joined_eq (Json.unpaired_ofString s)
  rw [stored, Json.decoded]
  simp only [Json.decodedMembers, hfields, he.kind.kept.decoded, hnode, he.entry.kept.decoded,
    he.kept_exit.decoded]
  rfl

theorem ofDatum_reread (he : e.Plain) : ofDatum e.reread = .ok e.plain := by
  have hroles : (e.members.map fun m => (m.1, m.2.plain)).map (fun m => (Datum.text m.1, m.2)) =
      e.roles.map fun p => (p.1.plain, p.2.plain) := by
    rw [members, List.map_map, List.map_map]
    refine List.map_congr_left fun p hp => ?_
    obtain ⟨s, hs, -⟩ := he.names p hp
    simp [hs, Datum.plain_of_text? hs]
  rw [plain, ← hroles]
  rfl

end Entry

namespace Record

variable {r : Record}

theorem objectsOf_eq {es : List Entry} (h : ∀ e ∈ es, e.Plain) :
    objectsOf es = .ok (es.map (·.stored)) := by
  induction es with
  | nil => rfl
  | cons e es ih =>
    rw [objectsOf, (h e List.mem_cons_self).toDatum_eq, ih fun e he => h e (List.mem_cons_of_mem _ he)]
    rfl

theorem writable (hr : ∀ e ∈ r.entries, e.Plain) :
    Json.Writable (.list (r.entries.map (·.stored))) := by
  refine .list fun d hd => ?_
  obtain ⟨e, he, rfl⟩ := List.mem_map.1 hd
  exact (hr e he).writable

theorem write_of_objectsOf {ds : List Datum} (h : objectsOf r.entries = .ok ds) (indent : Bool) :
    r.write indent = (do
      let text ← (if indent then Json.writeIndented 0 (.list ds)
        else Json.write (.list ds)).mapError Failure.json
      return text ++ "\n") := by
  rw [write, h]
  rfl

theorem exists_write (hr : ∀ e ∈ r.entries, e.Plain) (indent : Bool) :
    ∃ t, r.write indent = .ok (t ++ "\n") ∧
      Json.Spells (.list (r.entries.map fun e => e.stored)) t := by
  rw [write_of_objectsOf (objectsOf_eq hr)]
  cases indent with
  | true =>
    obtain ⟨t, ht, hspells⟩ := (writable hr).writeIndented 0
    exact ⟨t, by rw [if_pos rfl, ht]; rfl, hspells⟩
  | false =>
    obtain ⟨t, ht, hspells⟩ := (writable hr).write
    exact ⟨t, by rw [if_neg Bool.false_ne_true, ht]; rfl, hspells⟩

theorem entriesOf_map {es : List Entry} {f : Entry → Datum} {g : Entry → Entry}
    (h : ∀ e ∈ es, Entry.ofDatum (f e) = .ok (g e)) : entriesOf (es.map f) = .ok (es.map g) := by
  induction es with
  | nil => rfl
  | cons e es ih =>
    have htail := ih fun e he => h e (List.mem_cons_of_mem _ he)
    rw [List.map_cons, entriesOf, h e List.mem_cons_self, htail]
    rfl

theorem read_spelled {t : String} (hr : ∀ e ∈ r.entries, e.Plain)
    (ht : Json.Spells (.list (r.entries.map (·.stored))) t) :
    read (t ++ "\n") = .ok ⟨r.entries.map (·.plain)⟩ := by
  have hitems : (r.entries.map (·.stored)).map Json.decoded = r.entries.map (·.reread) := by
    rw [List.map_map]
    exact List.map_congr_left fun e he => (hr e he).decoded
  rw [read, Json.read_spelled ht (by decide), Json.decoded, Json.decodedItems_eq, hitems]
  simp only [Entry.parts?]
  rw [entriesOf_map fun e he => Entry.ofDatum_reread (hr e he)]
  rfl

theorem sameEntries_plain {es : List Entry} (h : ∀ e ∈ es, e.Plain) :
    sameEntries (es.map (·.plain)) es = true := by
  induction es with
  | nil => rfl
  | cons e es ih =>
    rw [List.map_cons, sameEntries, Entry.plain_same (h e List.mem_cons_self),
      ih fun e he => h e (List.mem_cons_of_mem _ he)]
    rfl

/-- A record of primitives whose kinds and role names are texts and whose labels are texts or integers
of at most 4300 digits, with no pair of surrogates in a text, can be written and is read back as an
equal record, with the roles of each primitive in the same order. Its text is ASCII and ends in a line
feed. -/
theorem reread_same (hr : ∀ e ∈ r.entries, e.Plain) (indent : Bool) :
    ∃ t, r.write indent = .ok t ∧
      (∃ s, read t = .ok s ∧ s.same r = true ∧
        s.entries.map (fun e => e.roles.map (·.1.text?)) =
          r.entries.map fun e => e.roles.map (·.1.text?)) ∧
      (∀ c ∈ t.toList, c.toNat < 128) ∧ ∃ u, t = u ++ "\n" := by
  obtain ⟨u, hu, hspells⟩ := exists_write hr indent
  refine ⟨u ++ "\n", hu, ⟨_, read_spelled hr hspells, sameEntries_plain hr, ?_⟩, ?_, u, rfl⟩
  · rw [List.map_map]
    refine List.map_congr_left fun e _ => ?_
    simp [Entry.plain, Datum.text?_plain]
  · rw [String.toList_append]
    exact hspells.ascii.append (by decide)

/-- Primitives with quotes, controls, html, characters beyond the basic plane, single surrogates and no
exit. -/
def assorted : Record :=
  ⟨[⟨.text "if \"é\"\t", [(.text "𝄞", .int (-7)), (.text "", .html "b")],
      .text ⟨[.ofNat 0xde00, .ofNat 0xd83d]⟩, .null⟩,
    ⟨.html "k", [], .int 0, .text "\n"⟩]⟩

theorem assorted_same :
    (∀ e ∈ assorted.entries, e.Plain) ∧
      ∃ t s, assorted.write true = .ok t ∧ read t = .ok s ∧ s.same assorted = true := by
  have hsmall : ∀ {n : Int}, n.natAbs < 10 → Datum.IsLabel (.int n) := by
    intro n hn
    exact .int (Nat.lt_of_lt_of_le hn (Nat.le_self_pow (by decide) 10))
  have hplain : ∀ e ∈ assorted.entries, e.Plain := by
    simp only [assorted, List.forall_mem_cons, List.not_mem_nil, false_implies, implies_true, and_true]
    refine ⟨⟨Datum.isText_ofString _, ?_, by decide, ?_, .text ⟨_, rfl, by decide⟩, .inl rfl⟩,
      ⟨Datum.isText_ofString _, nofun, by decide, nofun, hsmall (by decide),
        .inr (.text (Datum.isText_ofString _))⟩⟩
    · simp only [List.forall_mem_cons, List.not_mem_nil, false_implies, implies_true, and_true]
      exact ⟨Datum.isText_ofString _, Datum.isText_ofString _⟩
    · simp only [List.forall_mem_cons, List.not_mem_nil, false_implies, implies_true, and_true]
      exact ⟨hsmall (by decide), .text (Datum.isText_ofString _)⟩
  obtain ⟨t, ht, ⟨s, hs, hsame, -⟩, -⟩ := reread_same hplain true
  exact ⟨hplain, t, s, ht, hs, hsame⟩

/-- A primitive with an integer that has one digit more than can be written. -/
def tooLong : Record := ⟨[⟨.text "k", [], .int ((10 ^ Json.digitLimit : Nat) : Int), .null⟩]⟩

theorem tooLong_write (indent : Bool) : tooLong.write indent = .error (.json .longInteger) := by
  have hlong : Json.decimal ((10 ^ Json.digitLimit : Nat) : Int) = .error .longInteger := by
    rw [Json.decimal, Int.natAbs_natCast, Nat.pow_eq, if_neg (Nat.lt_irrefl _)]
  have hfails : ∀ n indent, Json.decimal n = .error .longInteger →
      write ⟨[⟨.text "k", [], .int n, .null⟩]⟩ indent = .error (.json .longInteger) := by
    intro n indent hn
    have hobjects : objectsOf [⟨.text "k", [], .int n, .null⟩] = .ok [.object [("prim", .text "k"),
        ("node", .object []), ("entry", .int n), ("exit", .null)]] := rfl
    rw [write_of_objectsOf hobjects]
    cases indent with
    | true =>
      simp only [if_pos, Json.writeIndented, Json.indentedItems, Json.indentedMembers, hn]
      rfl
    | false =>
      simp only [if_neg Bool.false_ne_true, Json.write, Json.writeItems, Json.writeMembers, hn]
      rfl
  exact hfails _ _ hlong

/-- A primitive whose entry consists of the two halves of a pair of surrogates. -/
def paired : Record := ⟨[⟨.text "k", [], .text ⟨[.ofNat 0xd83d, .ofNat 0xde00]⟩, .null⟩]⟩

theorem paired_reread (indent : Bool) :
    ∃ t s, paired.write indent = .ok t ∧ read t = .ok s ∧ s.same paired = false := by
  have hread : ((paired.write indent >>= read).map (·.same paired)).toOption = some false := by
    cases indent <;> decide +kernel
  cases hwrite : paired.write indent with
  | error =>
    rw [hwrite] at hread
    cases hread
  | ok t =>
    rw [hwrite] at hread
    replace hread : ((read t).map (·.same paired)).toOption = some false := hread
    cases hs : read t with
    | error =>
      rw [hs] at hread
      cases hread
    | ok s =>
      rw [hs] at hread
      exact ⟨t, s, rfl, hs, Option.some.inj hread⟩

/-- A record with an integer that is too long cannot be written, and one with a pair of surrogates does
not come back as it was. -/
theorem tooLong_refused_paired_changed :
    (tooLong.write false = .error (.json .longInteger) ∧
      tooLong.write true = .error (.json .longInteger)) ∧
    (∃ t s, paired.write false = .ok t ∧ read t = .ok s ∧ s.same paired = false) ∧
    ∃ t s, paired.write true = .ok t ∧ read t = .ok s ∧ s.same paired = false :=
  ⟨⟨tooLong_write _, tooLong_write _⟩, paired_reread _, paired_reread _⟩

end Record

end Structuring
