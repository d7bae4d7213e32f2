import Structuring.Proofs.Graph.History
import Structuring.Proofs.Graph.Lookup

/-!
# Graphs while calls are made

Whatever calls are made on new control flow graphs, with whatever nodes, edges and regions, whether they
succeed or fail, the graphs stay well-formed, and each keeps its place and its own nodes. Only members
may become the entry.

* `Workspace.Orderly` — well-formed graphs at their places.
* `Session.contract_orderly` — contracting any region leaves a workspace orderly.
* `Workspace.AssignsMembers` — the calls that may be made.
* `GraphCall.orderly` — what one call keeps; `Orderly.runCalls_of_assignsMembers` — what any number of
  them keeps.
-/

namespace Structuring

open Relation

/-! ## Orderly workspaces -/

namespace Workspace

variable {w w' : Workspace} {assigned : Nat → Prop} {t : Nat} {g h : FlowGraph} {n : NodeId}

/-- A well-formed control flow graph stands at the place of its tag, its nodes are its own and in order,
and what they carry is taken down. -/
structure Lodges (w : Workspace) (t : Nat) (g : FlowGraph) : Prop extends Houses w t g where
  wellFormed : g.WellFormed
  ordered : g.Ordered
  block_eq : ∀ e ∈ g.nodes, w.block? e.1 = some e.2

def Orderly (w : Workspace) : Prop :=
  ∀ t x, w.graphs[t]? = some x → ∃ g, x = .flow g ∧ w.Lodges t g

theorem block?_noteBlock (w : Workspace) (n m : NodeId) (b : Option Block) :
    (w.noteBlock n b).block? m = if n = m then b else w.block? m := by
  rw [noteBlock, block?, Table.get?_set]
  split <;> rfl

theorem block?_put_of_mem (hg : g.ids.Nodup) {e : NodeId × Block} (he : e ∈ g.nodes) :
    (w.put (.flow g)).block? e.1 = some e.2 := by
  have hnodup : ((g.nodes.map fun e => (e.1, some e.2)).map (·.1)).Nodup := by
    rw [List.map_map]
    exact hg
  have hget := Table.get?_foldl_set_of_mem (t := w.blocks) hnodup (List.mem_map_of_mem he)
  exact congrArg Option.join hget

theorem block?_put_of_notMem (hn : n ∉ g.ids) : (w.put (.flow g)).block? n = w.block? n := by
  have hnot : n ∉ (g.nodes.map fun e => (e.1, some e.2)).map (·.1) := by
    rw [List.map_map]
    exact hn
  have hget := Table.get?_foldl_set_of_notMem (t := w.blocks) hnot
  exact congrArg Option.join hget

namespace Orderly

theorem sound (hw : w.Orderly) : w.Sound := by
  intro t x hx
  obtain ⟨g, rfl, hg⟩ := hw t x hx
  exact ⟨g, rfl, hg.toHouses⟩

theorem lodges (hw : w.Orderly) (hg : w.graphs[t]? = some (.flow g)) : w.Lodges t g := by
  obtain ⟨g', heq, hg'⟩ := hw t _ hg
  cases heq
  exact hg'

theorem addFlowGraph (hw : w.Orderly) (name : Option Value) : (w.addFlowGraph name).Orderly := by
  intro t x hx
  obtain ⟨g, rfl, hhouses⟩ := hw.sound.addFlowGraph name t x hx
  refine ⟨g, rfl, ?_⟩
  rw [Workspace.addFlowGraph, List.getElem?_append] at hx
  split at hx
  · have hg := hw.lodges hx
    exact ⟨hhouses, hg.wellFormed, hg.ordered, hg.block_eq⟩
  · rw [List.getElem?_singleton] at hx
    split at hx
    · cases hx
      exact ⟨hhouses, FlowGraph.WellFormed.empty _ _ _, List.Pairwise.nil,
        fun e he => absurd he List.not_mem_nil⟩
    · cases hx

/-- What is taken down for a number that was not given yet concerns no graph. -/
theorem noteBlock (hw : w.Orderly) (hg : w.graphs[t]? = some (.flow g)) (b : Option Block) :
    (w.noteBlock g.toDigraph.fresh.1 b).Orderly := by
  intro i x hx
  have hnoted : w.Evolves (fun _ => True) (w.noteBlock g.toDigraph.fresh.1 b) :=
    hw.sound.noteBlock _ b
  obtain ⟨k, rfl, hhouses⟩ := hnoted.sound i x hx
  have hk := hw.lodges hx
  refine ⟨k, rfl, hhouses, hk.wellFormed, hk.ordered, fun e he => ?_⟩
  have hmem : e.1 ∈ k.ids := List.mem_map_of_mem he
  rw [block?_noteBlock, if_neg, hk.block_eq e he]
  rintro heq
  have hi : i = t := by
    rw [← hk.owner e.1 hmem, ← heq, ← (hw.lodges hg).tag]
    rfl
  subst hi
  have hgk : g = k := AnyGraph.flow.inj (Option.some.inj (hg.symm.trans hx))
  subst hgk
  have hle := hk.wellFormed.serial_le e.1 hmem
  have hserial : e.1.serial = g.lastNode + 1 := by
    rw [← heq]
    rfl
  omega

theorem put (hw : w.Orderly) (hg : w.graphs[t]? = some (.flow g)) {p : Prop} (hgh : g.Evolves p h)
    (hwf : h.WellFormed) (ho : h.Ordered) : (w.put (.flow h)).Orderly := by
  intro i x hx
  have hevolves : w.Evolves (fun _ => True) (w.put (.flow h)) :=
    hw.sound.put hg (hgh.mono fun _ => trivial)
  obtain ⟨k, rfl, hhouses⟩ := hevolves.sound i x hx
  rw [hw.sound.getElem?_put hg hgh.tag] at hx
  split at hx
  · cases hx
    exact ⟨_, rfl, hhouses, hwf, ho, fun e he => block?_put_of_mem hwf.ids_nodup he⟩
  · next hi =>
    have hk := hw.lodges hx
    refine ⟨_, rfl, hhouses, hk.wellFormed, hk.ordered, fun e he => ?_⟩
    rw [block?_put_of_notMem, hk.block_eq e he]
    intro hmem
    have howner := hgh.owner (fun n hn => ((hw.lodges hg).owner n hn).trans (hw.lodges hg).tag.symm)
      e.1 hmem
    rw [hgh.tag, (hw.lodges hg).tag, hk.owner e.1 (List.mem_map_of_mem he)] at howner
    exact hi howner

end Orderly

end Workspace

/-! ## What one call keeps -/

namespace Session

open Workspace

variable {α : Type} {w : Workspace} {t : Nat} {g h : FlowGraph}

theorem discard_snd (m : Session α) (w : Workspace) : (discard m w).2 = (m w).2 := by
  change ((m >>= fun _ => pure ()) w).2 = _
  rcases h : m w with ⟨e | a, w'⟩
  · rw [bind_error h]
  · rw [bind_ok h]
    rfl

/-- A change that leaves any orderly workspace orderly, also when it fails. -/
def KeepsOrder (m : Session α) : Prop := ∀ w : Workspace, w.Orderly → (m w).2.Orderly

namespace KeepsOrder

theorem pure (a : α) : KeepsOrder (pure a : Session α) := fun _ hw => hw

theorem discard {m : Session α} (hm : KeepsOrder m) : KeepsOrder (discard m) := by
  intro w hw
  rw [discard_snd]
  exact hm w hw

theorem bind {β : Type} {m : Session α} {f : α → Session β} (hm : KeepsOrder m)
    (hf : ∀ a, KeepsOrder (f a)) : KeepsOrder (m >>= f) := by
  intro w hw
  have hm' := hm w hw
  rcases hrun : m w with ⟨e | a, w'⟩
  · rw [hrun] at hm'
    rwa [bind_error hrun]
  · rw [hrun] at hm'
    rw [bind_ok hrun]
    exact hf a w' hm'

theorem atGraph {f : AnyGraph → Session α} (hf : ∀ (w : Workspace) (g : FlowGraph), w.Orderly →
    w.graphs[t]? = some (.flow g) → (f (.flow g) w).2.Orderly) : KeepsOrder (graphAt t >>= f) := by
  intro w hw
  cases hx : w.graphs[t]? with
  | none =>
    rw [bind_error (graphAt_error hx)]
    exact hw
  | some x =>
    obtain ⟨g, rfl, -⟩ := hw t x hx
    rw [bind_ok (graphAt_ok hx)]
    exact hf w g hw hx

theorem atFlow {f : FlowGraph → Session α} (hf : ∀ (w : Workspace) (g : FlowGraph), w.Orderly →
    w.graphs[t]? = some (.flow g) → (f g w).2.Orderly) : KeepsOrder (flowAt t >>= f) := by
  unfold flowAt
  rw [bind_assoc]
  exact atGraph hf

theorem change {f : AnyGraph → Except GraphError (α × AnyGraph)}
    (hf : ∀ g a x, g.WellFormed → g.Ordered → f (.flow g) = .ok (a, x) →
      ∃ h, x = .flow h ∧ g.Evolves True h ∧ h.WellFormed ∧ h.Ordered) :
    KeepsOrder (Session.change t f) := by
  refine atGraph fun w g hw hg => ?_
  cases hrun : f (.flow g) with
  | error e => exact hw
  | ok r =>
    obtain ⟨a, x⟩ := r
    have hlodges := hw.lodges hg
    obtain ⟨h, rfl, hgh, hwf, ho⟩ := hf g a x hlodges.wellFormed hlodges.ordered hrun
    exact hw.put hg hgh hwf ho

end KeepsOrder

theorem makeBlock_orderly (hw : w.Orderly) (hg : w.graphs[t]? = some (.flow g)) (b : Block) :
    (makeBlock g b w).2.Orderly := by
  have hlodges := hw.lodges hg
  rw [makeBlock_eq]
  exact (hw.noteBlock hg (some b)).put hg (g.newNode_evolves b (p := True))
    (hlodges.wellFormed.newNode b) (hlodges.wellFormed.newNode_ordered hlodges.ordered b)

theorem keepsOrder_newNode (label : Value) (a : Attributes) : KeepsOrder (newNode t label a) := by
  refine .atGraph fun w g hw hg => ?_
  dsimp only
  split
  · exact makeBlock_orderly hw hg _
  · exact hw

theorem keepsOrder_nodeOf (label : Value) : KeepsOrder (nodeOf t label) := by
  refine .atFlow fun w g hw hg => ?_
  cases g.find? label with
  | some n => exact hw
  | none => exact makeBlock_orderly hw hg _

theorem keepsOrder_addEdge (n m : NodeId) (a : Attributes) : KeepsOrder (addEdge t n m a) := by
  refine .change fun g e x hg ho hrun => ?_
  obtain ⟨⟨e', h⟩, hadd, heq⟩ := map_eq_ok hrun
  cases heq
  exact ⟨h, rfl, FlowGraph.addEdge_evolves hadd, hg.addEdge hadd,
    FlowGraph.WellFormed.addEdge_ordered ho hadd⟩

theorem keepsOrder_connect (source target : Value) (a : Attributes) :
    KeepsOrder (connect t source target a) := by
  refine .atFlow fun w g hw hg => ?_
  split
  · exact (keepsOrder_nodeOf source).bind (fun n => (keepsOrder_nodeOf target).bind fun m =>
      keepsOrder_addEdge n m a) w hw
  · exact hw

theorem keepsOrder_deleteEdge (n m : NodeId) : KeepsOrder (deleteEdge t n m) := by
  refine .change fun g e x hg ho hrun => ?_
  obtain ⟨⟨e', h⟩, hdelete, heq⟩ := map_eq_ok hrun
  cases heq
  have hremove := FlowGraph.removeEdge?_of_deleteEdge hdelete
  exact ⟨h, rfl, FlowGraph.removeEdge_evolves hremove, hg.removeEdge hremove,
    FlowGraph.WellFormed.removeEdge_ordered ho hremove⟩

theorem keepsOrder_removeEdge (e : EdgeId) : KeepsOrder (removeEdge t e) := by
  refine .atGraph fun w g hw hg => ?_
  cases hremove : g.removeEdge? e with
  | none =>
    simp only [AnyGraph.removeEdge?, hremove]
    exact hw
  | some h =>
    simp only [AnyGraph.removeEdge?, hremove]
    have hlodges := hw.lodges hg
    exact hw.put hg (FlowGraph.removeEdge_evolves (p := True) hremove)
      (hlodges.wellFormed.removeEdge hremove)
      (FlowGraph.WellFormed.removeEdge_ordered hlodges.ordered hremove)

theorem keepsOrder_deleteNode (n : NodeId) : KeepsOrder (deleteNode t n) := by
  refine .change fun g e x hg ho hrun => ?_
  obtain ⟨y, hmap, heq⟩ := map_eq_ok hrun
  cases heq
  obtain ⟨h, hdelete, rfl⟩ := map_eq_ok hmap
  exact ⟨h, rfl, FlowGraph.deleteNode_evolves hdelete, hg.deleteNode hdelete,
    FlowGraph.WellFormed.deleteNode_ordered ho hdelete⟩

theorem contract_eq (hg : w.graphs[t]? = some (.flow g)) (r : Region) (name : Option String)
    {b : Block} (hb : { (w.block? r.entry).getD default with name := name } = b) :
    contract t r name w = ((g.mergeAs r b).1,
      (w.noteBlock g.toDigraph.fresh.1 (some b)).put (.flow (g.mergeAs r b).2)) := by
  have hget : (get : Session Workspace) w = (.ok w, w) := rfl
  unfold contract
  rw [bind_ok (flowAt_ok hg), bind_ok hget]
  simp only [hb]
  rcases g.mergeAs r b with ⟨e | n, h⟩ <;> rfl

theorem setEntry_orderly (hw : w.Orderly) (hg : w.graphs[t]? = some (.flow g)) {n : NodeId}
    (hn : n ∈ g.ids) : (setEntry t (some n) w).2.Orderly := by
  unfold setEntry
  rw [bind_ok (graphAt_ok hg)]
  have hlodges := hw.lodges hg
  exact hw.put hg (g.setEntry_evolves (some n)) (hlodges.wellFormed.setEntry hn) hlodges.ordered

end Session

/-! ## Contracting any region -/

namespace FlowGraph

variable {g h : FlowGraph} {n m : NodeId}

namespace Edit

theorem dropNodes_sublist (ns : List NodeId) (g : FlowGraph) :
    (dropNodes ns g).2.nodes.Sublist g.nodes := by
  refine (?_ : Maintains (fun h => h.nodes.Sublist g.nodes) (dropNodes ns)) g (List.Sublist.refl _)
  induction ns with
  | nil => exact .pure ()
  | cons n ns ih =>
    refine Maintains.bind (fun h hh => ?_) fun _ => ih
    cases hrun : h.deleteNode n with
    | error e =>
      simp only [dropNode, ofExcept, hrun]
      exact hh
    | ok k =>
      rw [dropNode_ok hrun]
      obtain ⟨d, hd, rfl⟩ := deleteNode_eq_ok hrun
      obtain ⟨-, rfl⟩ := Digraph.deleteNode_eq_ok hd
      exact List.filter_sublist.trans hh

/-- A well-formed graph with its nodes in order and `k` among them. -/
def Holding (k : NodeId) (h : FlowGraph) : Prop := h.WellFormed ∧ h.Ordered ∧ k ∈ h.ids

theorem maintains_edge (k n m : NodeId) (a : Attributes) : Maintains (Holding k) (edge n m a) := by
  rintro g ⟨hg, ho, hk⟩
  unfold edge ofExcept
  split
  · next e h hrun =>
    have hadd : g.addEdge n m a = .ok (e, h) := hrun
    obtain ⟨hn, hm⟩ := WellFormed.of_addEdge_eq_ok hadd
    have hwf := hg.addEdge hadd
    rw [WellFormed.addEdge_eq hn hm] at hadd
    cases hadd
    exact ⟨hwf, ho, hk⟩
  · exact ⟨hg, ho, hk⟩

theorem maintains_incoming (k n : NodeId) (es : List Edge) :
    Maintains (Holding k) (incoming n es) := by
  induction es with
  | nil => exact .pure ()
  | cons e es ih => exact (maintains_edge k _ _ _).bind fun _ => ih

theorem maintains_outgoing (k n : NodeId) (es : List (Edge × Bool)) :
    Maintains (Holding k) (outgoing n es) := by
  induction es with
  | nil => exact .pure ()
  | cons e es ih => exact (maintains_edge k _ _ _).bind fun _ => ih

end Edit

/-- Whatever is contracted, and however far it gets, the graph stays well-formed. -/
theorem contract_wellFormed (hg : g.WellFormed) (ho : g.Ordered) (r : Region) (b : Block) :
    (contract r b g).2.WellFormed ∧ (contract r b g).2.Ordered := by
  refine contract_maintains (P := fun h => h.WellFormed ∧ h.Ordered) ⟨hg.removeAll _, ?_⟩
    (fun h hh => ⟨Edit.keeps_dropNodes _ _ hh.1, ?_⟩)
    (fun h hh => ⟨hh.1.newNode b, hh.1.newNode_ordered hh.2 b⟩) fun h n h' hh hnode => ?_
  · obtain ⟨k, hk⟩ := g.toDigraph.removeAll_eq (g.toDigraph.touching r)
    rw [hk]
    exact ho
  · exact hh.2.sublist ((Edit.dropNodes_sublist r.members h).map _)
  · -- the new node is a member, so that it may become the entry
    have hholding : Edit.Holding n h' := by
      have hwf := hh.1.newNode b
      have hord := hh.1.newNode_ordered hh.2 b
      rw [hnode] at hwf hord
      refine ⟨hwf, hord, ?_⟩
      rw [(newNode_eq_ok hnode).2]
      simp [Digraph.ids]
    suffices hmaintains : Edit.Maintains (Edit.Holding n) (Edit.attach g r n) from
      ⟨(hmaintains h' hholding).1, (hmaintains h' hholding).2.1⟩
    refine (Edit.maintains_incoming n n _).bind fun _ =>
      (Edit.maintains_outgoing n n _).bind fun _ => ?_
    split
    · refine Edit.Maintains.bind (fun h hh => ?_) fun _ => .pure _
      exact ⟨hh.1.setEntry hh.2.2, hh.2⟩
    · exact .pure _

end FlowGraph

namespace Session

open Workspace

variable {w : Workspace}

theorem contract_orderly (hw : w.Orderly) (t : Nat) (r : Region) (name : Option String) :
    (contract t r name w).2.Orderly := by
  cases hx : w.graphs[t]? with
  | none =>
    unfold contract flowAt
    rw [bind_assoc, bind_error (graphAt_error hx)]
    exact hw
  | some x =>
    obtain ⟨g, rfl, hg⟩ := hw t x hx
    rw [contract_eq hx r name rfl]
    set b : Block := { (w.block? r.entry).getD default with name := name }
    obtain ⟨hwf, ho⟩ := FlowGraph.contract_wellFormed hg.wellFormed hg.ordered r b
    rw [← FlowGraph.mergeAs_snd] at hwf ho
    exact (hw.noteBlock hx (some b)).put hx (g.mergeAs_evolves r b (p := True)) hwf ho

end Session

/-! ## The calls -/

/-- Only a member may become the entry. Other calls may be made with any nodes, edges, labels and
regions. -/
def GraphCall.AssignsMember (w : Workspace) (t : Nat) : GraphCall → Prop
  | .setEntry n => ∃ (g : FlowGraph) (m : NodeId),
      w.graphs[t]? = some (.flow g) ∧ n = some m ∧ m ∈ g.ids
  | _ => True

theorem GraphCall.orderly {w : Workspace} {t : Nat} {c : GraphCall} (hw : w.Orderly)
    (hc : c.AssignsMember w t) : (c.run t w).2.Orderly := by
  cases c with
  | newNode label a => exact (Session.keepsOrder_newNode label a).discard w hw
  | connect source target a => exact (Session.keepsOrder_connect source target a).discard w hw
  | addEdge n m a => exact (Session.keepsOrder_addEdge n m a).discard w hw
  | deleteEdge n m => exact (Session.keepsOrder_deleteEdge n m).discard w hw
  | removeEdge e => exact Session.keepsOrder_removeEdge e w hw
  | deleteNode n => exact Session.keepsOrder_deleteNode n w hw
  | merge r name =>
    change (discard (Session.contract t r name) w).2.Orderly
    rw [Session.discard_snd]
    exact Session.contract_orderly hw t r name
  | setEntry n =>
    obtain ⟨g, m, hg, rfl, hm⟩ := hc
    exact Session.setEntry_orderly hw hg hm

namespace Workspace

def AssignsMembers (w : Workspace) : List (Nat × GraphCall) → Prop
  | [] => True
  | (t, c) :: cs => c.AssignsMember w t ∧ (c.run t w).2.AssignsMembers cs

theorem Orderly.runCalls_of_assignsMembers {w : Workspace} {calls : List (Nat × GraphCall)}
    (hw : w.Orderly) (hcalls : w.AssignsMembers calls) :
    (Structuring.runCalls w calls).Orderly := by
  induction calls generalizing w with
  | nil => exact hw
  | cons c cs ih => exact ih (GraphCall.orderly hw hcalls.1) hcalls.2

def ofNames (names : List (Option Value)) : Workspace := names.foldl addFlowGraph empty

theorem ofNames_orderly (names : List (Option Value)) : (ofNames names).Orderly := by
  have hadd : ∀ w : Workspace, w.Orderly → (names.foldl addFlowGraph w).Orderly := by
    induction names with
    | nil => exact fun _ hw => hw
    | cons name names ih => exact fun w hw => ih _ (hw.addFlowGraph name)
  exact hadd empty nofun

end Workspace

end Structuring
