import Structuring.Graph.Workspace
import Structuring.Proofs.Reduction.Merge
import Structuring.Proofs.Table

/-!
# Histories

What becomes of the control flow graphs of a workspace while calls are made, some of which fail,
perhaps half-way.

* `FlowGraph.Evolves` — what a graph may become: its generation never goes back, and as long as it is
  the same, so are the nodes and the edges, and the entry unless one was assigned. A node that it did
  not have has a number that was not given before.
* `FlowGraph.contract_maintains` — what each step of a contraction keeps, the contraction keeps.
* `Workspace.Sound` — the graphs of a workspace are control flow graphs with nodes of their own.
* `Session.Advances` — a change under which any sound workspace evolves, also when it fails.
* `GraphCall.advances`, `runCalls_evolves` — what one call does, and any sequence of calls.
-/

namespace Structuring

namespace FlowGraph

structure Evolves (assigned : Prop) (g h : FlowGraph) : Prop where
  tag : h.tag = g.tag
  generation_le : g.generation ≤ h.generation
  unchanged : h.generation = g.generation → h.nodes = g.nodes ∧ h.edges = g.edges
  entry : h.generation = g.generation → h.entry = g.entry ∨ assigned
  closed : g.toDigraph.Closed → h.toDigraph.Closed
  lastNode_le : g.lastNode ≤ h.lastNode
  ids : ∀ n ∈ h.ids, n ∈ g.ids ∨ n.owner = g.tag ∧ g.lastNode < n.serial

variable {g h k : FlowGraph} {p q : Prop}

namespace Evolves

theorem refl (g : FlowGraph) : g.Evolves p g :=
  ⟨rfl, le_rfl, fun _ => ⟨rfl, rfl⟩, fun _ => .inl rfl, id, le_rfl, fun _ => .inl⟩

theorem owner (hgh : g.Evolves p h) (hg : ∀ n ∈ g.ids, n.owner = g.tag) :
    ∀ n ∈ h.ids, n.owner = h.tag := by
  intro n hn
  rw [hgh.tag]
  exact (hgh.ids n hn).elim (hg n) And.left

theorem ids_trans (hgh : g.Evolves p h) (hhk : h.Evolves q k) :
    ∀ n ∈ k.ids, n ∈ g.ids ∨ n.owner = g.tag ∧ g.lastNode < n.serial := by
  intro n hn
  rcases hhk.ids n hn with hn | ⟨howner, hlt⟩
  · exact hgh.ids n hn
  · exact .inr ⟨howner.trans hgh.tag, Nat.lt_of_le_of_lt hgh.lastNode_le hlt⟩

theorem mono (hpq : p → q) (hgh : g.Evolves p h) : g.Evolves q h :=
  { hgh with entry := fun heq => (hgh.entry heq).imp_right hpq }

theorem trans (hgh : g.Evolves p h) (hhk : h.Evolves p k) : g.Evolves p k := by
  have hback : k.generation = g.generation →
      h.generation = g.generation ∧ k.generation = h.generation := fun heq => by
    have := hgh.generation_le
    have := hhk.generation_le
    omega
  refine ⟨hhk.tag.trans hgh.tag, hgh.generation_le.trans hhk.generation_le, fun heq => ?_,
    fun heq => ?_, fun hg => hhk.closed (hgh.closed hg), hgh.lastNode_le.trans hhk.lastNode_le,
    hgh.ids_trans hhk⟩
  · obtain ⟨hfirst, hlast⟩ := hback heq
    exact ⟨(hhk.unchanged hlast).1.trans (hgh.unchanged hfirst).1,
      (hhk.unchanged hlast).2.trans (hgh.unchanged hfirst).2⟩
  · obtain ⟨hfirst, hlast⟩ := hback heq
    rcases hhk.entry hlast with hentry | ha
    · exact (hgh.entry hfirst).imp_left hentry.trans
    · exact .inr ha

/-- After a change that was counted, the entry may be anything. -/
theorem after_change (hgh : g.Evolves p h) (hlt : g.generation < h.generation)
    (hhk : h.Evolves q k) : g.Evolves p k := by
  have := hhk.generation_le
  refine ⟨hhk.tag.trans hgh.tag, hgh.generation_le.trans hhk.generation_le, fun heq => ?_,
    fun heq => ?_, fun hg => hhk.closed (hgh.closed hg), hgh.lastNode_le.trans hhk.lastNode_le,
    hgh.ids_trans hhk⟩
  · omega
  · omega

theorem of_count (htag : h.tag = g.tag) (hcount : h.generation = g.generation + 1)
    (hclosed : g.toDigraph.Closed → h.toDigraph.Closed) (hlast : g.lastNode ≤ h.lastNode)
    (hids : ∀ n ∈ h.ids, n ∈ g.ids ∨ n.owner = g.tag ∧ g.lastNode < n.serial) : g.Evolves p h :=
  ⟨htag, by omega, fun heq => by omega, fun heq => by omega, hclosed, hlast, hids⟩

end Evolves

/-! ## The operations of a graph -/

theorem newNode_evolves (g : FlowGraph) (b : Block) : g.Evolves p (g.newNode b).2 := by
  obtain ⟨e, hrun⟩ | hrun := g.newNode_cases b
  · rw [hrun]
    exact ⟨rfl, le_rfl, fun _ => ⟨rfl, rfl⟩, fun _ => .inl rfl, id, Nat.le_succ _, fun _ => .inl⟩
  · rw [hrun]
    refine .of_count rfl rfl (fun hg e he => ?_) (Nat.le_succ _) fun n hn => ?_
    · simpa [Digraph.ids] using And.intro (Or.inl (hg e he).1) (Or.inl (hg e he).2)
    · simp only [Digraph.ids, List.map_append, List.map_cons, List.map_nil, List.mem_append,
        List.mem_singleton] at hn
      refine hn.imp_right fun heq => ?_
      rw [heq]
      exact ⟨rfl, Nat.lt_succ_self _⟩

theorem addEdge_evolves {n m : NodeId} {a : Attributes} {e : Edge}
    (hrun : g.addEdge n m a = .ok (e, h)) : g.Evolves p h := by
  obtain ⟨d, hd, rfl⟩ := addEdge_eq_ok hrun
  have hclosed := fun hg : g.toDigraph.Closed => hg.addEdge hd
  obtain ⟨-, -, -, rfl⟩ := Digraph.addEdge_eq_ok hd
  exact .of_count rfl rfl hclosed le_rfl fun n hn => .inl hn

theorem removeEdge_evolves {i : EdgeId} (hrun : g.removeEdge? i = some h) : g.Evolves p h := by
  unfold removeEdge? at hrun
  obtain ⟨d, hd, rfl⟩ := Option.map_eq_some_iff.1 hrun
  have hclosed := fun hg : g.toDigraph.Closed => hg.removeEdge hd
  rw [Digraph.removeEdge_eq_some hd] at hclosed ⊢
  exact .of_count rfl rfl hclosed le_rfl fun n hn => .inl hn

theorem removeEdge?_of_deleteEdge {n m : NodeId} {e : Edge} (hrun : g.deleteEdge n m = .ok (e, h)) :
    g.removeEdge? e.id = some h := by
  unfold deleteEdge Digraph.deleteEdge at hrun
  cases hfind : (g.toDigraph.outEdges n).find? fun e => e.target = m with
  | none =>
    rw [hfind] at hrun
    cases hrun
  | some e' =>
    rw [hfind] at hrun
    cases hremove : g.toDigraph.removeEdge? e'.id with
    | none =>
      simp only [hremove] at hrun
      cases hrun
    | some d =>
      simp only [hremove] at hrun
      cases hrun
      rw [removeEdge?, hremove]
      rfl

theorem deleteEdge_evolves {n m : NodeId} {e : Edge} (hrun : g.deleteEdge n m = .ok (e, h)) :
    g.Evolves p h :=
  removeEdge_evolves (removeEdge?_of_deleteEdge hrun)

theorem deleteNode_evolves {n : NodeId} (hrun : g.deleteNode n = .ok h) : g.Evolves p h := by
  obtain ⟨d, hd, rfl⟩ := deleteNode_eq_ok hrun
  have hclosed := fun hg : g.toDigraph.Closed => hg.deleteNode hd
  obtain ⟨-, rfl⟩ := Digraph.deleteNode_eq_ok hd
  refine .of_count rfl rfl hclosed le_rfl fun m hm => .inl ?_
  obtain ⟨e, he, rfl⟩ := List.mem_map.1 hm
  exact List.mem_map_of_mem (List.mem_of_mem_filter he)

theorem removeAll_evolves (g : FlowGraph) (is : List EdgeId) :
    g.Evolves p { g with toDigraph := g.toDigraph.removeAll is } := by
  induction is generalizing g with
  | nil => exact .refl g
  | cons i is ih =>
    unfold Digraph.removeAll
    split
    · exact ih g
    · next d hd =>
      have hremove : g.Evolves p { g with toDigraph := d } :=
        removeEdge_evolves (i := i) (by rw [removeEdge?, hd]; rfl)
      exact hremove.trans (ih { g with toDigraph := d })

namespace Edit

variable {α β : Type}

def Advances (p : Prop) (m : Edit α) : Prop := ∀ g : FlowGraph, g.Evolves p (m g).2

theorem Advances.pure (a : α) : Advances p (pure a : Edit α) := fun g => .refl g

theorem Advances.bind {m : Edit α} {f : α → Edit β} (hm : Advances p m)
    (hf : ∀ a, Advances p (f a)) : Advances p (m >>= f) := by
  intro g
  have hm' := hm g
  rcases hrun : m g with ⟨e | a, g'⟩
  · rw [hrun] at hm'
    rwa [bind_error hrun]
  · rw [hrun] at hm'
    rw [bind_ok hrun]
    exact hm'.trans (hf a g')

theorem advances_edge (n m : NodeId) (a : Attributes) : Advances p (edge n m a) := by
  intro g
  unfold edge ofExcept
  split
  · next hrun => exact addEdge_evolves hrun
  · exact .refl g

theorem advances_dropNodes (ns : List NodeId) : Advances p (dropNodes ns) := by
  induction ns with
  | nil => exact .pure ()
  | cons n ns ih =>
    refine Advances.bind (fun g => ?_) fun _ => ih
    cases hrun : g.deleteNode n with
    | error e =>
      simp only [dropNode, ofExcept, hrun]
      exact .refl g
    | ok h =>
      rw [dropNode_ok hrun]
      exact deleteNode_evolves hrun

theorem advances_incoming (n : NodeId) (es : List Edge) : Advances p (incoming n es) := by
  induction es with
  | nil => exact .pure ()
  | cons e es ih => exact (advances_edge _ _ _).bind fun _ => ih

theorem advances_outgoing (n : NodeId) (es : List (Edge × Bool)) : Advances p (outgoing n es) := by
  induction es with
  | nil => exact .pure ()
  | cons e es ih => exact (advances_edge _ _ _).bind fun _ => ih

end Edit

theorem setEntry_evolves (g : FlowGraph) (n : Option NodeId) : g.Evolves True { g with entry := n } :=
  ⟨rfl, le_rfl, fun _ => ⟨rfl, rfl⟩, fun _ => .inr trivial, id, le_rfl, fun _ => .inl⟩

/-- What is done with the node that a contraction has made. -/
def Edit.attach (g : FlowGraph) (r : Region) (n : NodeId) : Edit NodeId := do
  Edit.incoming n (g.toDigraph.incoming r)
  Edit.outgoing n (g.toDigraph.outgoing r)
  if g.entry = some r.entry then modify fun g => { g with entry := some n }
  return n

/-- A contraction removes the edges at the members and then the members, makes a node and attaches
it. What each of these steps keeps holds in the end, wherever the contraction stops. -/
theorem contract_maintains {P : FlowGraph → Prop} {r : Region} {b : Block}
    (hremoved : P { g with toDigraph := g.toDigraph.removeAll (g.toDigraph.touching r) })
    (hdropped : Edit.Maintains P (Edit.dropNodes r.members))
    (hmade : ∀ h, P h → P (h.newNode b).2)
    (hattached : ∀ h n h', P h → h.newNode b = (.ok n, h') → P (Edit.attach g r n h').2) :
    P (contract r b g).2 := by
  have hget : (get : Edit FlowGraph) g = (.ok g, g) := rfl
  have hset : (set { g with toDigraph := g.toDigraph.removeAll (g.toDigraph.touching r) } :
      Edit Unit) g =
      (.ok (), { g with toDigraph := g.toDigraph.removeAll (g.toDigraph.touching r) }) := rfl
  unfold contract
  rw [bind_ok hget, bind_ok hset]
  have hmembers := hdropped _ hremoved
  rcases hdrop : Edit.dropNodes r.members
    { g with toDigraph := g.toDigraph.removeAll (g.toDigraph.touching r) } with ⟨e | _, g₂⟩
  · rw [hdrop] at hmembers
    rwa [bind_error hdrop]
  rw [hdrop] at hmembers
  rw [bind_ok hdrop]
  have hnew := hmade g₂ hmembers
  rcases hnode : g₂.newNode b with ⟨e | n, g₃⟩
  · rw [hnode] at hnew
    rwa [bind_error (m := Edit.node b) hnode]
  · rw [bind_ok (m := Edit.node b) hnode]
    exact hattached g₂ n g₃ hmembers hnode

/-- A contraction sets the entry only after it has made its node, which was counted. -/
theorem contract_evolves (g : FlowGraph) (r : Region) (b : Block) :
    g.Evolves p (contract r b g).2 := by
  refine contract_maintains (P := g.Evolves p) (g.removeAll_evolves _)
    (fun h hgh => hgh.trans (Edit.advances_dropNodes r.members h))
    (fun h hgh => hgh.trans (h.newNode_evolves b)) fun h n h' hgh hnode => ?_
  have hmade : g.Evolves p h' := by
    have hnew := hgh.trans (h.newNode_evolves b)
    rwa [hnode] at hnew
  have hcount : h'.generation = h.generation + 1 := by
    rw [(newNode_eq_ok hnode).2]
  have hle := hgh.generation_le
  refine hmade.after_change (by omega) (q := True) ?_
  refine (Edit.advances_incoming _ _).bind (fun _ => (Edit.advances_outgoing _ _).bind fun _ => ?_) _
  split
  · exact Edit.Advances.bind (fun h => h.setEntry_evolves _) fun _ => .pure _
  · exact .pure _

theorem mergeAs_snd (g : FlowGraph) (r : Region) (b : Block) :
    (g.mergeAs r b).2 = (contract r b g).2 := by
  unfold mergeAs
  rcases h : contract r b g with ⟨e | n, g'⟩
  · rw [show (contract r b).run g = _ from h]
  · rw [show (contract r b).run g = _ from h]
    dsimp only
    split <;> rfl

theorem mergeAs_evolves (g : FlowGraph) (r : Region) (b : Block) :
    g.Evolves p (g.mergeAs r b).2 := by
  rw [mergeAs_snd]
  exact g.contract_evolves r b

end FlowGraph

/-! ## Workspaces -/

namespace Workspace

variable {w w' w'' : Workspace} {assigned : Nat → Prop} {t : Nat} {g h : FlowGraph}

/-- A control flow graph stands at the place of its tag, and its nodes are its own and are taken
down. -/
structure Houses (w : Workspace) (t : Nat) (g : FlowGraph) : Prop where
  tag : g.tag = t
  closed : g.toDigraph.Closed
  owner : ∀ n ∈ g.ids, n.owner = t
  noted : ∀ n ∈ g.ids, n ∈ w.blocks.keys

def Sound (w : Workspace) : Prop :=
  ∀ t x, w.graphs[t]? = some x → ∃ g, x = .flow g ∧ w.Houses t g

/-- What may become of a workspace. A graph may get another entry without a new generation if it is
among those that were `assigned` one. -/
structure Evolves (assigned : Nat → Prop) (w w' : Workspace) : Prop where
  sound : w'.Sound
  graphs : ∀ {t : Nat} {g : FlowGraph}, w.graphs[t]? = some (.flow g) →
    ∃ h, w'.graphs[t]? = some (.flow h) ∧ g.Evolves (assigned t) h

theorem empty_sound : empty.Sound := fun _ _ hx => by cases hx

theorem Evolves.trans (h₁ : w.Evolves assigned w') (h₂ : w'.Evolves assigned w'') :
    w.Evolves assigned w'' := by
  refine ⟨h₂.sound, fun hg => ?_⟩
  obtain ⟨h, hh, hgh⟩ := h₁.graphs hg
  obtain ⟨k, hk, hhk⟩ := h₂.graphs hh
  exact ⟨k, hk, hgh.trans hhk⟩

namespace Sound

theorem houses (hw : w.Sound) (hg : w.graphs[t]? = some (.flow g)) : w.Houses t g := by
  obtain ⟨g', heq, hg'⟩ := hw t _ hg
  cases heq
  exact hg'

theorem refl (hw : w.Sound) : w.Evolves assigned w := ⟨hw, fun hg => ⟨_, hg, .refl _⟩⟩

theorem addFlowGraph (hw : w.Sound) (name : Option Value) : (w.addFlowGraph name).Sound := by
  intro t x hx
  rw [Workspace.addFlowGraph, List.getElem?_append] at hx
  split at hx
  · obtain ⟨g, rfl, hg⟩ := hw t x hx
    exact ⟨g, rfl, hg.tag, hg.closed, hg.owner, hg.noted⟩
  · rw [List.getElem?_singleton] at hx
    split at hx
    · next hlt ht =>
      cases hx
      exact ⟨_, rfl, by change w.graphs.length = t; omega, Digraph.empty_closed _,
        fun n hn => (by cases hn), fun n hn => (by cases hn)⟩
    · cases hx

theorem noteBlock (hw : w.Sound) (n : NodeId) (b : Option Block) :
    w.Evolves assigned (w.noteBlock n b) := by
  refine ⟨fun t x hx => ?_, fun hg => ⟨_, hg, .refl _⟩⟩
  obtain ⟨g, rfl, hg⟩ := hw t x hx
  exact ⟨g, rfl, hg.tag, hg.closed, hg.owner, fun m hm => Table.mem_keys_set.2 (.inr (hg.noted m hm))⟩

theorem getElem?_put (hw : w.Sound) (hg : w.graphs[t]? = some (.flow g)) (htag : h.tag = g.tag)
    (i : Nat) :
    (w.put (.flow h)).graphs[i]? = if i = t then some (.flow h) else w.graphs[i]? := by
  have hlt : t < w.graphs.length := (List.getElem?_eq_some_iff.1 hg).1
  change (w.graphs.set h.tag _)[i]? = _
  rw [htag, (hw.houses hg).tag, List.getElem?_set, if_pos hlt]
  by_cases hi : i = t
  · rw [if_pos hi, if_pos hi.symm]
  · rw [if_neg hi, if_neg (Ne.symm hi)]

theorem put (hw : w.Sound) (hg : w.graphs[t]? = some (.flow g))
    (hgh : g.Evolves (assigned t) h) : w.Evolves assigned (w.put (.flow h)) := by
  have hgt := hw.houses hg
  have htag : h.tag = t := hgh.tag.trans hgt.tag
  have hget := hw.getElem?_put hg hgh.tag
  have hkeys : ∀ n, n ∈ h.ids ∨ n ∈ w.blocks.keys → n ∈ (w.put (.flow h)).blocks.keys := by
    intro n hn
    refine Table.mem_keys_foldl_set.2 (hn.symm.imp_right fun hn => ?_)
    obtain ⟨e, he, rfl⟩ := List.mem_map.1 hn
    exact List.mem_map_of_mem (f := Prod.fst) (List.mem_map_of_mem (f := fun e => (e.1, some e.2)) he)
  refine ⟨fun i x hx => ?_, fun {i k} hk => ?_⟩
  · rw [hget] at hx
    split at hx
    · next hi =>
      cases hx
      refine ⟨h, rfl, hi ▸ htag, hgh.closed hgt.closed, fun n hn => ?_, fun n hn => hkeys n (.inl hn)⟩
      rw [hi, ← htag]
      exact hgh.owner (fun m hm => (hgt.owner m hm).trans hgt.tag.symm) n hn
    · obtain ⟨k, rfl, hk⟩ := hw i x hx
      exact ⟨k, rfl, hk.tag, hk.closed, hk.owner, fun n hn => hkeys n (.inr (hk.noted n hn))⟩
  · rw [hget]
    by_cases hi : i = t
    · subst hi
      rw [hg] at hk
      cases hk
      exact ⟨h, if_pos rfl, hgh⟩
    · exact ⟨k, by rw [if_neg hi, hk], .refl k⟩

end Sound

end Workspace

/-! ## Sessions -/

namespace Session

open Workspace

variable {α β : Type} {assigned : Nat → Prop} {t : Nat}

theorem graphAt_ok {w : Workspace} {x : AnyGraph} (hx : w.graphs[t]? = some x) :
    graphAt t w = (.ok x, w) := by
  have hget : (get : Session Workspace) w = (.ok w, w) := rfl
  unfold graphAt
  rw [bind_ok hget, hx]
  rfl

theorem graphAt_error {w : Workspace} (hx : w.graphs[t]? = none) :
    graphAt t w = (.error .noIndex, w) := by
  have hget : (get : Session Workspace) w = (.ok w, w) := rfl
  unfold graphAt
  rw [bind_ok hget, hx]
  rfl

theorem flowAt_ok {w : Workspace} {g : FlowGraph} (hg : w.graphs[t]? = some (.flow g)) :
    flowAt t w = (.ok g, w) := by
  unfold flowAt
  rw [bind_ok (graphAt_ok hg)]
  rfl

def Advances (assigned : Nat → Prop) (m : Session α) : Prop :=
  ∀ w : Workspace, w.Sound → w.Evolves assigned (m w).2

namespace Advances

theorem pure (a : α) : Advances assigned (pure a : Session α) := fun _ hw => hw.refl

theorem bind {m : Session α} {f : α → Session β} (hm : Advances assigned m)
    (hf : ∀ a, Advances assigned (f a)) : Advances assigned (m >>= f) := by
  intro w hw
  have hm' := hm w hw
  rcases hrun : m w with ⟨e | a, w'⟩
  · rw [hrun] at hm'
    rwa [bind_error hrun]
  · rw [hrun] at hm'
    rw [bind_ok hrun]
    exact hm'.trans (hf a w' hm'.sound)

theorem atGraph {f : AnyGraph → Session α} (hf : ∀ (w : Workspace) (g : FlowGraph), w.Sound →
    w.graphs[t]? = some (.flow g) → w.Evolves assigned (f (.flow g) w).2) :
    Advances assigned (graphAt t >>= f) := by
  intro w hw
  cases hx : w.graphs[t]? with
  | none =>
    rw [bind_error (graphAt_error hx)]
    exact hw.refl
  | some x =>
    obtain ⟨g, rfl, -⟩ := hw t x hx
    rw [bind_ok (graphAt_ok hx)]
    exact hf w g hw hx

theorem atFlow {f : FlowGraph → Session α} (hf : ∀ (w : Workspace) (g : FlowGraph), w.Sound →
    w.graphs[t]? = some (.flow g) → w.Evolves assigned (f g w).2) :
    Advances assigned (flowAt t >>= f) := by
  unfold flowAt
  rw [bind_assoc]
  exact atGraph hf

theorem change {f : AnyGraph → Except GraphError (α × AnyGraph)}
    (hf : ∀ g a x, f (.flow g) = .ok (a, x) → ∃ h, x = .flow h ∧ g.Evolves (assigned t) h) :
    Advances assigned (Session.change t f) := by
  refine atGraph fun w g hw hg => ?_
  cases hrun : f (.flow g) with
  | error e => exact hw.refl
  | ok r =>
    obtain ⟨h, hx, hgh⟩ := hf g r.1 r.2 hrun
    have hput := hw.put hg hgh
    rw [← hx] at hput
    exact hput

end Advances

/-! ## The operations of a session -/

theorem makeBlock_eq (g : FlowGraph) (b : Block) (w : Workspace) :
    makeBlock g b w = ((g.newNode b).1.mapError .graph,
      (w.noteBlock g.toDigraph.fresh.1 (some b)).put (.flow (g.newNode b).2)) := by
  unfold makeBlock
  rcases g.newNode b with ⟨e | n, h⟩
  · rfl
  · rfl

theorem makeBlock_evolves {w : Workspace} {g : FlowGraph} (hw : w.Sound)
    (hg : w.graphs[t]? = some (.flow g)) (b : Block) : w.Evolves assigned (makeBlock g b w).2 := by
  rw [makeBlock_eq]
  have hnoted : w.Evolves assigned (w.noteBlock g.toDigraph.fresh.1 (some b)) := hw.noteBlock _ _
  exact hnoted.trans (hnoted.sound.put hg (g.newNode_evolves b))

theorem advances_newNode (label : Value) (a : Attributes) :
    Advances assigned (newNode t label a) := by
  refine .atGraph fun w g hw hg => ?_
  dsimp only
  split
  · exact makeBlock_evolves hw hg _
  · exact hw.refl

theorem advances_nodeOf (label : Value) : Advances assigned (nodeOf t label) := by
  refine .atFlow fun w g hw hg => ?_
  cases g.find? label with
  | some n => exact hw.refl
  | none => exact makeBlock_evolves hw hg _

theorem advances_addEdge (n m : NodeId) (a : Attributes) :
    Advances assigned (addEdge t n m a) := by
  refine .change fun g e x hrun => ?_
  obtain ⟨r, hadd, heq⟩ := map_eq_ok hrun
  cases heq
  exact ⟨_, rfl, FlowGraph.addEdge_evolves hadd⟩

theorem advances_connect (source target : Value) (a : Attributes) :
    Advances assigned (connect t source target a) := by
  refine .atFlow fun w g hw hg => ?_
  split
  · exact (advances_nodeOf source).bind (fun n => (advances_nodeOf target).bind fun m =>
      advances_addEdge n m a) w hw
  · exact hw.refl

theorem advances_deleteEdge (n m : NodeId) : Advances assigned (deleteEdge t n m) := by
  refine .change fun g e x hrun => ?_
  obtain ⟨r, hdelete, heq⟩ := map_eq_ok hrun
  cases heq
  exact ⟨_, rfl, FlowGraph.deleteEdge_evolves hdelete⟩

theorem advances_deleteNode (n : NodeId) : Advances assigned (deleteNode t n) := by
  refine .change fun g e x hrun => ?_
  obtain ⟨y, hmap, heq⟩ := map_eq_ok hrun
  cases heq
  obtain ⟨h, hdelete, rfl⟩ := map_eq_ok hmap
  exact ⟨h, rfl, FlowGraph.deleteNode_evolves hdelete⟩

theorem advances_removeEdge (e : EdgeId) : Advances assigned (removeEdge t e) := by
  refine .atGraph fun w g hw hg => ?_
  cases hremove : g.removeEdge? e with
  | none =>
    simp only [AnyGraph.removeEdge?, hremove]
    exact hw.refl
  | some h =>
    simp only [AnyGraph.removeEdge?, hremove]
    exact hw.put hg (FlowGraph.removeEdge_evolves hremove)

theorem advances_contract (r : Region) (name : Option String) :
    Advances assigned (contract t r name) := by
  refine .atFlow fun w g hw hg => ?_
  have hget : (get : Session Workspace) w = (.ok w, w) := rfl
  rw [bind_ok hget]
  dsimp only
  generalize (w.block? r.entry).getD default = b
  have hnoted : w.Evolves assigned
      (w.noteBlock g.toDigraph.fresh.1 (some { b with name := name })) := hw.noteBlock _ _
  have hmerged := g.mergeAs_evolves r { b with name := name } (p := assigned t)
  refine hnoted.trans ?_
  have hput := hnoted.sound.put hg hmerged
  rcases hrun : g.mergeAs r { b with name := name } with ⟨e | n, h⟩
  · rw [hrun] at hput
    exact hput
  · rw [hrun] at hput
    exact hput

theorem advances_setEntry (hassigned : assigned t) (n : Option NodeId) :
    Advances assigned (setEntry t n) :=
  .atGraph fun _ g hw hg => hw.put hg ((g.setEntry_evolves n).mono fun _ => hassigned)

end Session

/-! ## Calls -/

/-- The calls that change a control flow graph. -/
inductive GraphCall where
  | newNode (label : Value) (attributes : Attributes)
  | connect (source target : Value) (attributes : Attributes)
  | addEdge (n m : NodeId) (attributes : Attributes)
  | deleteEdge (n m : NodeId)
  | removeEdge (e : EdgeId)
  | deleteNode (n : NodeId)
  | merge (r : Region) (name : Option String)
  | setEntry (n : Option NodeId)

def GraphCall.run (t : Nat) : GraphCall → Session Unit
  | .newNode label a => discard (Session.newNode t label a)
  | .connect source target a => discard (Session.connect t source target a)
  | .addEdge n m a => discard (Session.addEdge t n m a)
  | .deleteEdge n m => discard (Session.deleteEdge t n m)
  | .removeEdge e => Session.removeEdge t e
  | .deleteNode n => Session.deleteNode t n
  | .merge r name => discard (Session.contract t r name)
  | .setEntry n => Session.setEntry t n

/-- Makes calls one after the other, each on the graph at a place. A call that fails does not keep the
next one from being made. -/
def runCalls (w : Workspace) (calls : List (Nat × GraphCall)) : Workspace :=
  calls.foldl (fun w c => (c.2.run c.1 w).2) w

/-- Whether an entry is assigned to the graph at a place. -/
def Assigns (calls : List (Nat × GraphCall)) (t : Nat) : Prop := ∃ n, (t, .setEntry n) ∈ calls

theorem GraphCall.advances {assigned : Nat → Prop} {t : Nat} (c : GraphCall)
    (hassigned : ∀ n, c = .setEntry n → assigned t) : Session.Advances assigned (c.run t) := by
  have hdiscard : ∀ {α : Type} {m : Session α}, Session.Advances assigned m →
      Session.Advances assigned (discard m) := fun hm => hm.bind fun _ => .pure ()
  cases c with
  | newNode label a => exact hdiscard (Session.advances_newNode label a)
  | connect source target a => exact hdiscard (Session.advances_connect source target a)
  | addEdge n m a => exact hdiscard (Session.advances_addEdge n m a)
  | deleteEdge n m => exact hdiscard (Session.advances_deleteEdge n m)
  | removeEdge e => exact Session.advances_removeEdge e
  | deleteNode n => exact Session.advances_deleteNode n
  | merge r name => exact hdiscard (Session.advances_contract r name)
  | setEntry n => exact Session.advances_setEntry (hassigned n rfl) n

theorem runCalls_evolves {assigned : Nat → Prop} (calls : List (Nat × GraphCall)) {w : Workspace}
    (hw : w.Sound) (hassigned : ∀ t, Assigns calls t → assigned t) :
    w.Evolves assigned (runCalls w calls) := by
  induction calls generalizing w with
  | nil => exact hw.refl
  | cons c cs ih =>
    obtain ⟨t, c⟩ := c
    have hc : w.Evolves assigned (c.run t w).2 :=
      c.advances (fun n heq => hassigned t ⟨n, heq ▸ List.mem_cons_self⟩) w hw
    exact hc.trans (ih hc.sound fun t' ⟨n, hn⟩ => hassigned t' ⟨n, List.mem_cons_of_mem _ hn⟩)

end Structuring
