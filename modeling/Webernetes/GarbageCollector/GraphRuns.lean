/-
Webernetes.GarbageCollector.GraphRuns — owners and dependents are linked
both ways in every run of graph events.

A node's dependents are the current nodes of their uids and refer to it.
The other way a reference to a uid that has a node is found among that
node's dependents, unless an earlier node of the uid was removed after the
reference was recorded (`Abandoned`): then the dependent was queued.

Within an event the links are out of step for one node only. `Linked` says
for which of its references they are still to be made (`pending`) and in
which owners it is still to be deleted (`extra`).
-/
import Webernetes.Base.Transition
import Webernetes.GarbageCollector.Graph

namespace Webernetes.GarbageCollector

open Js Base
open Storage (OwnerReference)

namespace GraphBuilder

/-- The graph without nodes. -/
def IsNew (g : GraphBuilder) : Prop := g.uidToNode = .empty ∧ g.actions = []

/-- Any sequence of graph events; those that are virtual are deletions. -/
def graphChanges : System GraphBuilder GraphEvent where
  init := IsNew
  step g event g' := (event.isVirtual = true → event.eventType = .delete)
    ∧ g' = g.processGraphChanges event

/-! ## What is claimed -/

/-- The node stands for its uid. -/
def Current (g : GraphBuilder) (n : NodeId) : Prop :=
  g.uidToNode.get (g.heap n).identity.uid = some n

/-- The node has a reference to the uid. -/
def RefersTo (g : GraphBuilder) (n : NodeId) (uid : JsString) : Prop :=
  ∃ ref ∈ (g.heap n).owners, ref.uid = uid

/-- A node of the uid was removed after a reference of the dependent to it
was recorded, and none was recorded since then; at the removal the dependent
was queued. -/
def Abandoned (actions : List Action) (uid : JsString) (dep : NodeId) : Prop :=
  ∃ (before : List Action) (owner : NodeId) (identity : ObjectReference) (queued : List NodeId)
    (after : List Action),
    actions = before ++ (.remove uid owner :: .absentOwner identity :: queued.map .attemptToDelete)
      ++ after
    ∧ .record uid dep ∈ before ∧ dep ∈ queued ∧ .record uid dep ∉ after

structure Consistent (g : GraphBuilder) : Prop where
  uids : ∀ uid n, g.uidToNode.get uid = some n → (g.heap n).identity.uid = uid
  dependents : ∀ uid n, g.uidToNode.get uid = some n → ∀ dep ∈ g.dependents n,
    g.Current dep ∧ g.RefersTo dep uid
  owners : ∀ dep, g.Current dep → ∀ uid, g.RefersTo dep uid → ∀ n, g.uidToNode.get uid = some n →
    dep ∈ g.dependents n ∨ Abandoned g.actions uid dep

/-! ## The invariant -/

/-- The links, out of step for the node `d`: its references to the uids in
`pending` may not be linked yet, and it may still be among the dependents
of those in `extra`. -/
structure Linked (g : GraphBuilder) (d : NodeId) (pending extra : List JsString) : Prop where
  uids : ∀ uid n, g.uidToNode.get uid = some n → n < g.nextNode ∧ (g.heap n).identity.uid = uid
  unobserved : ∀ uid n, g.uidToNode.get uid = some n → (g.heap n).isVirtual = true →
    (g.heap n).owners = []
  dependents : ∀ uid n, g.uidToNode.get uid = some n → ∀ dep ∈ g.dependents n,
    g.Current dep ∧ (g.RefersTo dep uid ∨ dep = d ∧ uid ∈ extra)
  recorded : ∀ uid n, g.uidToNode.get uid = some n → ∀ dep ∈ g.dependents n,
    .record uid dep ∈ g.actions
  owners : ∀ dep, g.Current dep → ∀ uid, g.RefersTo dep uid →
    (∃ n, g.uidToNode.get uid = some n ∧ dep ∈ g.dependents n) ∨ Abandoned g.actions uid dep
      ∨ dep = d ∧ uid ∈ pending

variable {g : GraphBuilder} {d : NodeId} {pending extra : List JsString}

theorem Linked.consistent (h : g.Linked d [] []) : g.Consistent where
  uids uid n hn := (h.uids uid n hn).2
  dependents uid n hn dep hdep := by
    obtain ⟨hcurrent, hrefers | ⟨-, hextra⟩⟩ := h.dependents uid n hn dep hdep
    · exact ⟨hcurrent, hrefers⟩
    · cases hextra
  owners dep hcurrent uid hrefers n hn := by
    obtain ⟨n', hn', hdep⟩ | habandoned | ⟨-, hpending⟩ := h.owners dep hcurrent uid hrefers
    · rw [hn] at hn'
      cases hn'
      exact .inl hdep
    · exact .inr habandoned
    · cases hpending

/-- With nothing out of step it does not matter for which node. -/
theorem Linked.anyNode (h : g.Linked d [] []) (d' : NodeId) (pending extra : List JsString) :
    g.Linked d' pending extra where
  uids := h.uids
  unobserved := h.unobserved
  dependents uid n hn dep hdep := by
    obtain ⟨hcurrent, hrefers | ⟨-, hextra⟩⟩ := h.dependents uid n hn dep hdep
    · exact ⟨hcurrent, .inl hrefers⟩
    · cases hextra
  recorded := h.recorded
  owners dep hcurrent uid hrefers := by
    obtain hlinked | habandoned | ⟨-, hpending⟩ := h.owners dep hcurrent uid hrefers
    · exact .inl hlinked
    · exact .inr (.inl habandoned)
    · cases hpending

/-! ## Actions -/

theorem Abandoned.append {actions : List Action} {uid : JsString} {dep : NodeId}
    (h : Abandoned actions uid dep) {more : List Action} (hmore : .record uid dep ∉ more) :
    Abandoned (actions ++ more) uid dep := by
  obtain ⟨before, owner, identity, queued, after, rfl, hbefore, hqueued, hafter⟩ := h
  refine ⟨before, owner, identity, queued, after ++ more, by simp, hbefore, hqueued,
    fun hmem => ?_⟩
  obtain hmem | hmem := List.mem_append.mp hmem
  · exact hafter hmem
  · exact hmore hmem

/-- The actions record no reference. -/
def Quiet (actions : List Action) : Prop := ∀ uid n, .record uid n ∉ actions

theorem quiet_attempts (nodes : List NodeId) : Quiet (nodes.map .attemptToDelete) := by
  simp [Quiet]

/-- The nodes stand for the same uids and have the same references. -/
structure SameNodes (g g' : GraphBuilder) : Prop where
  uidToNode : g'.uidToNode = g.uidToNode
  nextNode : g'.nextNode = g.nextNode
  identity : ∀ n, (g'.heap n).identity = (g.heap n).identity
  owners : ∀ n, (g'.heap n).owners = (g.heap n).owners
  unobserved : ∀ n, (g'.heap n).isVirtual = true → (g.heap n).isVirtual = true

theorem SameNodes.refl (g : GraphBuilder) : SameNodes g g :=
  ⟨rfl, rfl, fun _ => rfl, fun _ => rfl, fun _ h => h⟩

theorem SameNodes.trans {g g' g'' : GraphBuilder} (h : SameNodes g g') (h' : SameNodes g' g'') :
    SameNodes g g'' where
  uidToNode := h'.uidToNode.trans h.uidToNode
  nextNode := h'.nextNode.trans h.nextNode
  identity n := (h'.identity n).trans (h.identity n)
  owners n := (h'.owners n).trans (h.owners n)
  unobserved n hn := h.unobserved n (h'.unobserved n hn)

theorem act_act (g : GraphBuilder) (actions more : List Action) :
    (g.act actions).act more = g.act (actions ++ more) := by
  simp [act]

theorem sameNodes_act (g : GraphBuilder) (actions : List Action) : SameNodes g (g.act actions) :=
  ⟨rfl, rfl, fun _ => rfl, fun _ => rfl, fun _ h => h⟩

/-- A node is changed in neither. -/
theorem sameNodes_setNode (g : GraphBuilder) (n : NodeId) {node : Node}
    (hidentity : node.identity = (g.heap n).identity) (howners : node.owners = (g.heap n).owners)
    (hunobserved : node.isVirtual = true → (g.heap n).isVirtual = true) :
    SameNodes g (g.setNode n node) := by
  have hnode : ∀ m, (g.setNode n node).heap m = node ∧ m = n ∨
      (g.setNode n node).heap m = g.heap m := fun m => by
    simp only [setNode]
    split
    · exact .inl ⟨rfl, ‹_›⟩
    · exact .inr rfl
  constructor
  · rfl
  · rfl
  · intro m
    obtain ⟨hm, rfl⟩ | hm := hnode m <;> rw [hm]
    exact hidentity
  · intro m
    obtain ⟨hm, rfl⟩ | hm := hnode m <;> rw [hm]
    exact howners
  · intro m
    obtain ⟨hm, rfl⟩ | hm := hnode m <;> rw [hm]
    · exact hunobserved
    · exact id

theorem sameNodes_addDependent (g : GraphBuilder) (owner dependent : NodeId) :
    SameNodes g (g.addDependent owner dependent) :=
  g.sameNodes_setNode owner rfl rfl fun h => h

theorem sameNodes_deleteDependent (g : GraphBuilder) (owner dependent : NodeId) :
    SameNodes g (g.deleteDependent owner dependent) :=
  g.sameNodes_setNode owner rfl rfl fun h => h

theorem SameNodes.current {g g' : GraphBuilder} (h : SameNodes g g') (n : NodeId) :
    g'.Current n ↔ g.Current n := by
  rw [Current, Current, h.uidToNode, h.identity]

theorem SameNodes.refersTo {g g' : GraphBuilder} (h : SameNodes g g') (n : NodeId) (uid : JsString) :
    g'.RefersTo n uid ↔ g.RefersTo n uid := by
  rw [RefersTo, RefersTo, h.owners]

theorem mem_dependents_addDependent (g : GraphBuilder) (owner dependent n dep : NodeId) :
    dep ∈ (g.addDependent owner dependent).dependents n
      ↔ n = owner ∧ dep = dependent ∨ dep ∈ g.dependents n := by
  simp only [addDependent, GraphBuilder.dependents, setNode]
  split
  · rename_i hn
    simp [hn]
  · rename_i hn
    simp [hn]

theorem mem_dependents_deleteDependent (g : GraphBuilder) (owner dependent n dep : NodeId) :
    dep ∈ (g.deleteDependent owner dependent).dependents n
      ↔ ¬ (n = owner ∧ dep = dependent) ∧ dep ∈ g.dependents n := by
  simp only [deleteDependent, GraphBuilder.dependents, setNode]
  split
  · rename_i hn
    simp [hn]
  · rename_i hn
    simp [hn]

/-- What the invariant looks at is what it was. -/
structure SameLinks (g g' : GraphBuilder) : Prop extends SameNodes g g' where
  dependents : ∀ n, (g'.heap n).dependents = (g.heap n).dependents
  actions : ∃ more, g'.actions = g.actions ++ more ∧ Quiet more

theorem SameLinks.refl (g : GraphBuilder) : SameLinks g g :=
  ⟨.refl g, fun _ => rfl, [], by simp, by simp [Quiet]⟩

theorem SameLinks.trans {g g' g'' : GraphBuilder} (h : SameLinks g g') (h' : SameLinks g' g'') :
    SameLinks g g'' where
  toSameNodes := h.toSameNodes.trans h'.toSameNodes
  dependents n := (h'.dependents n).trans (h.dependents n)
  actions := by
    obtain ⟨more, hmore, hquiet⟩ := h.actions
    obtain ⟨more', hmore', hquiet'⟩ := h'.actions
    refine ⟨more ++ more', by rw [hmore', hmore, List.append_assoc], fun uid n hmem => ?_⟩
    obtain hmem | hmem := List.mem_append.mp hmem
    · exact hquiet uid n hmem
    · exact hquiet' uid n hmem

theorem sameLinks_act (g : GraphBuilder) {actions : List Action} (h : Quiet actions) :
    SameLinks g (g.act actions) :=
  ⟨g.sameNodes_act actions, fun _ => rfl, actions, rfl, h⟩

/-- A node is changed in what the invariant does not look at. -/
theorem sameLinks_setNode (g : GraphBuilder) (n : NodeId) {node : Node}
    (hidentity : node.identity = (g.heap n).identity) (howners : node.owners = (g.heap n).owners)
    (hdependents : node.dependents = (g.heap n).dependents)
    (hunobserved : node.isVirtual = true → (g.heap n).isVirtual = true) :
    SameLinks g (g.setNode n node) := by
  refine ⟨g.sameNodes_setNode n hidentity howners hunobserved, fun m => ?_, [], by simp [setNode],
    by simp [Quiet]⟩
  simp only [setNode]
  split
  · rename_i hm
    rw [hm, hdependents]
  · rfl

theorem SameLinks.mem_dependents {g g' : GraphBuilder} (h : SameLinks g g') (n dep : NodeId) :
    dep ∈ g'.dependents n ↔ dep ∈ g.dependents n := by
  rw [GraphBuilder.dependents, GraphBuilder.dependents, h.dependents]

theorem Linked.same (h : g.Linked d pending extra) {g' : GraphBuilder} (hs : SameLinks g g') :
    g'.Linked d pending extra := by
  constructor
  · intro uid n hn
    rw [hs.uidToNode] at hn
    rw [hs.nextNode, hs.identity]
    exact h.uids uid n hn
  · intro uid n hn hvirtual
    rw [hs.uidToNode] at hn
    rw [hs.owners]
    exact h.unobserved uid n hn (hs.unobserved n hvirtual)
  · intro uid n hn dep hdep
    rw [hs.uidToNode] at hn
    rw [hs.mem_dependents] at hdep
    rw [hs.current, hs.refersTo]
    exact h.dependents uid n hn dep hdep
  · intro uid n hn dep hdep
    obtain ⟨more, hmore, -⟩ := hs.actions
    rw [hs.uidToNode] at hn
    rw [hs.mem_dependents] at hdep
    rw [hmore]
    exact List.mem_append_left more (h.recorded uid n hn dep hdep)
  · intro dep hcurrent uid hrefers
    rw [hs.current] at hcurrent
    rw [hs.refersTo] at hrefers
    obtain ⟨more, hmore, hquiet⟩ := hs.actions
    obtain ⟨n, hn, hdep⟩ | habandoned | hpending := h.owners dep hcurrent uid hrefers
    · exact .inl ⟨n, hs.uidToNode ▸ hn, (hs.mem_dependents n dep).mpr hdep⟩
    · exact .inr (.inl (hmore ▸ habandoned.append (hquiet uid dep)))
    · exact .inr (.inr hpending)

/-! ## Linking -/

/-- A reference is linked, and recorded. -/
theorem Linked.link {uid : JsString} (h : g.Linked d (uid :: pending) extra) {o : NodeId}
    (ho : g.uidToNode.get uid = some o) (hcurrent : g.Current d) (hrefers : g.RefersTo d uid) :
    ((g.addDependent o d).act [.record uid d]).Linked d pending extra := by
  have hs : SameNodes g ((g.addDependent o d).act [.record uid d]) :=
    (g.sameNodes_addDependent o d).trans (sameNodes_act _ _)
  have hmem : ∀ n dep, dep ∈ ((g.addDependent o d).act [.record uid d]).dependents n
      ↔ n = o ∧ dep = d ∨ dep ∈ g.dependents n := g.mem_dependents_addDependent o d
  constructor
  · intro uid' n hn
    rw [hs.uidToNode] at hn
    rw [hs.nextNode, hs.identity]
    exact h.uids uid' n hn
  · intro uid' n hn hvirtual
    rw [hs.uidToNode] at hn
    rw [hs.owners]
    exact h.unobserved uid' n hn (hs.unobserved n hvirtual)
  · intro uid' n hn dep hdep
    rw [hs.uidToNode] at hn
    rw [hs.current, hs.refersTo]
    obtain ⟨rfl, rfl⟩ | hdep := (hmem n dep).mp hdep
    · have huid : uid = uid' := (h.uids uid n ho).2.symm.trans (h.uids uid' n hn).2
      exact ⟨hcurrent, .inl (huid ▸ hrefers)⟩
    · exact h.dependents uid' n hn dep hdep
  · intro uid' n hn dep hdep
    rw [hs.uidToNode] at hn
    show _ ∈ g.actions ++ [.record uid d]
    obtain ⟨rfl, rfl⟩ | hdep := (hmem n dep).mp hdep
    · have huid : uid = uid' := (h.uids uid n ho).2.symm.trans (h.uids uid' n hn).2
      rw [huid]
      exact List.mem_append_right _ List.mem_cons_self
    · exact List.mem_append_left _ (h.recorded uid' n hn dep hdep)
  · intro dep hdep uid' huid'
    rw [hs.current] at hdep
    rw [hs.refersTo] at huid'
    rw [hs.uidToNode]
    by_cases hsame : dep = d ∧ uid' = uid
    · obtain ⟨rfl, rfl⟩ := hsame
      exact .inl ⟨o, ho, (hmem o dep).mpr (.inl ⟨rfl, rfl⟩)⟩
    · obtain ⟨n, hn, hlinked⟩ | habandoned | ⟨rfl, hpending⟩ := h.owners dep hdep uid' huid'
      · exact .inl ⟨n, hn, (hmem n dep).mpr (.inr hlinked)⟩
      · refine .inr (.inl (habandoned.append ?_))
        simp only [List.mem_singleton, Action.record.injEq]
        exact fun heq => hsame ⟨heq.2, heq.1⟩
      · obtain rfl | hpending := List.mem_cons.mp hpending
        · exact absurd ⟨rfl, rfl⟩ hsame
        · exact .inr (.inr ⟨rfl, hpending⟩)

/-! ## A new node for a uid -/

/-- A fresh node takes the place of a uid: there was none, or one without
references whose dependents it has. -/
theorem Linked.place (h : g.Linked d pending extra) (node : Node) (uid : JsString)
    (huid : node.identity.uid = uid) (hvirtual : node.isVirtual = true → node.owners = [])
    (hold : ∀ n, g.uidToNode.get uid = some n → (g.heap n).owners = [] ∧ extra = []
      ∧ node.dependents = (g.heap n).dependents)
    (hfresh : g.uidToNode.get uid = none → node.dependents.elems = [])
    (howners : ∀ ref ∈ node.owners, g.nextNode = d ∧ ref.uid ∈ pending) :
    ((g.newNode node).2.setUid uid g.nextNode).Linked d pending extra := by
  have hheap : ∀ n, n ≠ g.nextNode → ((g.newNode node).2.setUid uid g.nextNode).heap n = g.heap n :=
    fun n hn => if_neg hn
  have hnew : ((g.newNode node).2.setUid uid g.nextNode).heap g.nextNode = node := if_pos rfl
  have hget : ∀ uid' n, ((g.newNode node).2.setUid uid g.nextNode).uidToNode.get uid' = some n ↔
      uid' = uid ∧ n = g.nextNode ∨ uid' ≠ uid ∧ g.uidToNode.get uid' = some n := fun uid' n => by
    show (g.uidToNode.set uid g.nextNode).get uid' = some n ↔ _
    rw [JsMap.get_set]
    split
    · rename_i huid'
      simp [huid', eq_comm]
    · rename_i huid'
      simp [huid']
  have hne : ∀ uid' n, g.uidToNode.get uid' = some n → n ≠ g.nextNode := fun uid' n hn =>
    Nat.ne_of_lt (h.uids uid' n hn).1
  have hstays : ∀ dep, g.Current dep → (g.heap dep).owners ≠ [] ∨ extra ≠ [] →
      ((g.newNode node).2.setUid uid g.nextNode).Current dep := fun dep hcurrent hdep => by
    rw [Current, hheap dep (hne _ dep hcurrent), hget]
    refine .inr ⟨fun hsame => ?_, hcurrent⟩
    obtain ⟨hnone, hextra, -⟩ := hold dep (hsame ▸ hcurrent)
    obtain hdep | hdep := hdep
    · exact hdep hnone
    · exact hdep hextra
  have hdependents : ∀ uid' n,
      ((g.newNode node).2.setUid uid g.nextNode).uidToNode.get uid' = some n →
      ∀ dep ∈ ((g.newNode node).2.setUid uid g.nextNode).dependents n,
        ∃ n, g.uidToNode.get uid' = some n ∧ dep ∈ g.dependents n := by
    intro uid' n hn dep hdep
    obtain ⟨rfl, rfl⟩ | ⟨-, hn⟩ := (hget uid' n).mp hn
    · rw [GraphBuilder.dependents, hnew] at hdep
      cases hgot : g.uidToNode.get uid' with
      | none =>
        rw [hfresh hgot] at hdep
        cases hdep
      | some n =>
        rw [(hold n hgot).2.2] at hdep
        exact ⟨n, rfl, hdep⟩
    · rw [GraphBuilder.dependents, hheap n (hne uid' n hn)] at hdep
      exact ⟨n, hn, hdep⟩
  have hkeeps : ∀ uid' n, g.uidToNode.get uid' = some n → ∀ dep ∈ g.dependents n,
      ((g.newNode node).2.setUid uid g.nextNode).Current dep
        ∧ (((g.newNode node).2.setUid uid g.nextNode).RefersTo dep uid' ∨ dep = d ∧ uid' ∈ extra) := by
    intro uid' n hn dep hdep
    obtain ⟨hcurrent, hwhy⟩ := h.dependents uid' n hn dep hdep
    rw [RefersTo, hheap dep (hne _ dep hcurrent)]
    refine ⟨hstays dep hcurrent ?_, hwhy⟩
    obtain ⟨ref, href, -⟩ | ⟨-, hextra⟩ := hwhy
    · exact .inl (List.ne_nil_of_mem href)
    · exact .inr (List.ne_nil_of_mem hextra)
  constructor
  · intro uid' n hn
    obtain ⟨rfl, rfl⟩ | ⟨-, hn⟩ := (hget uid' n).mp hn
    · exact ⟨Nat.lt_succ_self _, by rw [hnew, huid]⟩
    · rw [hheap n (hne uid' n hn)]
      exact ⟨Nat.lt_succ_of_lt (h.uids uid' n hn).1, (h.uids uid' n hn).2⟩
  · intro uid' n hn hunobserved
    obtain ⟨rfl, rfl⟩ | ⟨-, hn⟩ := (hget uid' n).mp hn
    · rw [hnew] at hunobserved ⊢
      exact hvirtual hunobserved
    · rw [hheap n (hne uid' n hn)] at hunobserved ⊢
      exact h.unobserved uid' n hn hunobserved
  · intro uid' n hn dep hdep
    obtain ⟨n, hn, hdep⟩ := hdependents uid' n hn dep hdep
    exact hkeeps uid' n hn dep hdep
  · intro uid' n hn dep hdep
    obtain ⟨n, hn, hdep⟩ := hdependents uid' n hn dep hdep
    exact h.recorded uid' n hn dep hdep
  · intro dep hcurrent uid' hrefers
    by_cases hdep : dep = g.nextNode
    · subst hdep
      obtain ⟨ref, href, rfl⟩ := hrefers
      rw [hnew] at href
      exact .inr (.inr (howners ref href))
    · rw [Current, hheap dep hdep] at hcurrent
      rw [RefersTo, hheap dep hdep] at hrefers
      obtain ⟨-, hsame⟩ | ⟨-, hcurrent⟩ := (hget _ dep).mp hcurrent
      · exact absurd hsame hdep
      · obtain ⟨n, hn, hdep⟩ | habandoned | hpending := h.owners dep hcurrent uid' hrefers
        · by_cases huid' : uid' = uid
          · refine .inl ⟨g.nextNode, (hget uid' g.nextNode).mpr (.inl ⟨huid', rfl⟩), ?_⟩
            rw [GraphBuilder.dependents, hnew, (hold n (huid' ▸ hn)).2.2]
            exact hdep
          · refine .inl ⟨n, (hget uid' n).mpr (.inr ⟨huid', hn⟩), ?_⟩
            rw [GraphBuilder.dependents, hheap n (hne uid' n hn)]
            exact hdep
        · exact .inr (.inl habandoned)
        · exact .inr (.inr hpending)

/-- The node is current, and its references are these. -/
def Stands (g : GraphBuilder) (n : NodeId) (owners : List OwnerReference) : Prop :=
  g.Current n ∧ (g.heap n).owners = owners

theorem Stands.same {g g' : GraphBuilder} {n : NodeId} {owners : List OwnerReference}
    (h : g.Stands n owners) (hs : SameNodes g g') : g'.Stands n owners :=
  ⟨(hs.current n).mpr h.1, (hs.owners n).trans h.2⟩

/-- A new virtual node leaves them. -/
theorem Stands.newNode (h : g.Stands d owners) (hd : d < g.nextNode) (node : Node) {uid : JsString}
    (huid : g.uidToNode.get uid = none) :
    ((g.newNode node).2.setUid uid g.nextNode).Stands d owners := by
  obtain ⟨hcurrent, howners⟩ := h
  have hheap : ((g.newNode node).2.setUid uid g.nextNode).heap d = g.heap d :=
    if_neg (Nat.ne_of_lt hd)
  refine ⟨?_, by rw [hheap, howners]⟩
  rw [Current, hheap]
  show (g.uidToNode.set uid g.nextNode).get _ = _
  rw [JsMap.get_set_of_ne]
  · exact hcurrent
  · rintro heq
    rw [Current, heq, huid] at hcurrent
    cases hcurrent

theorem Linked.addDependentToOwner {owners : List OwnerReference} {owner : OwnerReference}
    (h : g.Linked d (owner.uid :: pending) extra) (hd : g.Stands d owners) (howner : owner ∈ owners)
    (potentiallyInvalid : Bool) :
    (g.addDependentToOwner d owner potentiallyInvalid).1.Linked d pending extra
      ∧ (g.addDependentToOwner d owner potentiallyInvalid).1.Stands d owners := by
  have hrefers : ∀ {g : GraphBuilder}, g.Stands d owners → g.RefersTo d owner.uid := fun hd =>
    ⟨owner, hd.2 ▸ howner, rfl⟩
  have hattempt : ∀ (n : NodeId), Quiet [.attemptToDelete n] := fun n => quiet_attempts [n]
  have hreport : Quiet [.reportInvalidNamespaceOwnerRef d owner.uid] := by simp [Quiet]
  cases ho : g.uidToNode.get owner.uid with
  | none =>
    have hfresh : d < g.nextNode := (h.uids _ d hd.1).1
    have hplaced := h.place (virtualOwner (g.heap d) owner) owner.uid rfl (fun _ => rfl)
      (fun n hn => by rw [ho] at hn; cases hn) (fun _ => rfl) (by simp [virtualOwner])
    have hstands := hd.newNode hfresh (virtualOwner (g.heap d) owner) ho
    have hlinked := hplaced.link (JsMap.get_set_self _ _ _) hstands.1 (hrefers hstands)
    simp only [GraphBuilder.addDependentToOwner, ho]
    constructor
    · rw [← List.singleton_append, ← act_act]
      exact hlinked.same (sameLinks_act _ (hattempt g.nextNode))
    · exact hstands.same ((sameNodes_addDependent _ _ _).trans (sameNodes_act _ _))
  | some o =>
    have hlinked := h.link ho hd.1 (hrefers hd)
    have hstands : ((g.addDependent o d).act [.record owner.uid d]).Stands d owners :=
      hd.same ((g.sameNodes_addDependent o d).trans (sameNodes_act _ _))
    simp only [GraphBuilder.addDependentToOwner, ho]
    split
    · exact ⟨hlinked, hstands⟩
    · split
      · split
        · exact ⟨hlinked.same (sameLinks_act _ hreport), hstands.same (sameNodes_act _ _)⟩
        · exact ⟨hlinked, hstands⟩
      · split
        · exact ⟨hlinked, hstands⟩
        · split
          · exact ⟨hlinked, hstands⟩
          · exact ⟨hlinked, hstands⟩

/-- By induction on the owners that are left. -/
theorem Linked.addDependentToEach {all : List OwnerReference} (owners : List OwnerReference) :
    ∀ result : GraphBuilder × Bool, result.1.Linked d (owners.map (·.uid)) extra →
      result.1.Stands d all → owners ⊆ all →
      (GraphBuilder.addDependentToEach d owners result).1.Linked d [] extra
        ∧ (GraphBuilder.addDependentToEach d owners result).1.Stands d all := by
  induction owners with
  | nil => exact fun _ h hd _ => ⟨h, hd⟩
  | cons owner owners ih =>
    intro ⟨g, potentiallyInvalid⟩ h hd hall
    obtain ⟨h', hd'⟩ :=
      h.addDependentToOwner hd (hall List.mem_cons_self) potentiallyInvalid
    exact ih _ h' hd' fun ref href => hall (List.mem_cons_of_mem owner href)

theorem Linked.addDependentToOwners {owners all : List OwnerReference}
    (h : g.Linked d (owners.map (·.uid)) extra) (hd : g.Stands d all) (howners : owners ⊆ all) :
    (g.addDependentToOwners d owners).Linked d [] extra
      ∧ (g.addDependentToOwners d owners).Stands d all := by
  obtain ⟨h', hd'⟩ := Linked.addDependentToEach owners (g, false) h hd howners
  simp only [GraphBuilder.addDependentToOwners]
  split
  · exact ⟨h'.same (sameLinks_act _ (quiet_attempts [d])), hd'.same (sameNodes_act _ _)⟩
  · exact ⟨h', hd'⟩

/-! ## Unlinking -/

theorem removeDependentFromOwner_frame (g : GraphBuilder) (n : NodeId) (uid : JsString) :
    SameNodes g (g.removeDependentFromOwner n uid)
      ∧ (g.removeDependentFromOwner n uid).actions = g.actions
      ∧ ∀ m dep, dep ∈ (g.removeDependentFromOwner n uid).dependents m
        ↔ ¬ (dep = n ∧ g.uidToNode.get uid = some m) ∧ dep ∈ g.dependents m := by
  simp only [removeDependentFromOwner]
  split
  · rename_i hnone
    exact ⟨.refl g, rfl, fun m dep => by simp [hnone]⟩
  · rename_i owner howner
    refine ⟨g.sameNodes_deleteDependent owner n, rfl, fun m dep => ?_⟩
    rw [mem_dependents_deleteDependent, howner, Option.some_inj, and_comm (a := dep = n),
      eq_comm (a := owner)]

/-- The node is no longer among the dependents of these owners; all else is
as it was. -/
theorem removeDependentFromOwners_frame (n : NodeId) (owners : List OwnerReference)
    (g : GraphBuilder) :
    SameNodes g (g.removeDependentFromOwners n owners)
      ∧ (g.removeDependentFromOwners n owners).actions = g.actions
      ∧ ∀ m dep, dep ∈ (g.removeDependentFromOwners n owners).dependents m
        ↔ ¬ (dep = n ∧ ∃ owner ∈ owners, g.uidToNode.get owner.uid = some m)
          ∧ dep ∈ g.dependents m := by
  induction owners generalizing g with
  | nil => exact ⟨.refl g, rfl, fun m dep => by simp [removeDependentFromOwners]⟩
  | cons owner owners ih =>
    obtain ⟨hs, hactions, hmem⟩ := g.removeDependentFromOwner_frame n owner.uid
    obtain ⟨hs', hactions', hmem'⟩ := ih (g.removeDependentFromOwner n owner.uid)
    refine ⟨hs.trans hs', hactions'.trans hactions, fun m dep => ?_⟩
    show dep ∈ ((g.removeDependentFromOwner n owner.uid).removeDependentFromOwners n
      owners).dependents m ↔ _
    rw [hmem', hmem, hs.uidToNode]
    rw [List.exists_mem_cons_iff, and_or_left, not_or]
    constructor
    · rintro ⟨hothers, hfirst, hdep⟩
      exact ⟨⟨hfirst, hothers⟩, hdep⟩
    · rintro ⟨⟨hfirst, hothers⟩, hdep⟩
      exact ⟨hothers, hfirst, hdep⟩

/-- The node is deleted from the owners it does not refer to. -/
theorem Linked.removeDependentFromOwners {owners : List OwnerReference}
    (h : g.Linked d [] (owners.map (·.uid))) (hd : ∀ owner ∈ owners, ¬ g.RefersTo d owner.uid) :
    (g.removeDependentFromOwners d owners).Linked d [] [] := by
  obtain ⟨hs, hactions, hmem⟩ := removeDependentFromOwners_frame d owners g
  constructor
  · intro uid n hn
    rw [hs.uidToNode] at hn
    rw [hs.nextNode, hs.identity]
    exact h.uids uid n hn
  · intro uid n hn hvirtual
    rw [hs.uidToNode] at hn
    rw [hs.owners]
    exact h.unobserved uid n hn (hs.unobserved n hvirtual)
  · intro uid n hn dep hdep
    rw [hs.uidToNode] at hn
    rw [hs.current, hs.refersTo]
    obtain ⟨hkept, hdep⟩ := (hmem n dep).mp hdep
    obtain ⟨hcurrent, hrefers | ⟨rfl, hextra⟩⟩ := h.dependents uid n hn dep hdep
    · exact ⟨hcurrent, .inl hrefers⟩
    · obtain ⟨owner, howner, rfl⟩ := List.mem_map.mp hextra
      exact absurd ⟨rfl, owner, howner, hn⟩ hkept
  · intro uid n hn dep hdep
    rw [hs.uidToNode] at hn
    rw [hactions]
    exact h.recorded uid n hn dep ((hmem n dep).mp hdep).2
  · intro dep hcurrent uid hrefers
    rw [hs.current] at hcurrent
    rw [hs.refersTo] at hrefers
    rw [hs.uidToNode, hactions]
    obtain ⟨n, hn, hdep⟩ | habandoned | ⟨-, hpending⟩ := h.owners dep hcurrent uid hrefers
    · refine .inl ⟨n, hn, (hmem n dep).mpr ⟨?_, hdep⟩⟩
      rintro ⟨rfl, owner, howner, hn'⟩
      have huid : owner.uid = uid := (h.uids _ n hn').2.symm.trans (h.uids _ n hn).2
      exact hd owner howner (huid ▸ hrefers)
    · exact .inr (.inl habandoned)
    · cases hpending

/-! ## The events of an object -/

theorem Linked.processTransitions (h : g.Linked d [] []) (oldObj : Option ModeledObject)
    (newObj : ModeledObject) (n : NodeId) :
    (g.processTransitions oldObj newObj n).Linked d [] [] := by
  simp only [GraphBuilder.processTransitions]
  split
  · exact h.same (sameLinks_act _ (by simp [Quiet]))
  · split
    · have hmarked : SameLinks g (g.setNode n { g.heap n with deletingDependents := true }) :=
        g.sameLinks_setNode n rfl rfl rfl fun hn => hn
      exact h.same (hmarked.trans (sameLinks_act _ (by simp [Quiet])))
    · exact h

theorem Linked.insertObject (h : g.Linked d [] []) (event : GraphEvent)
    {identity : ObjectReference} (hnone : g.uidToNode.get identity.uid = none) :
    (g.insertObject event identity).Linked g.nextNode [] [] := by
  have hplaced := (h.anyNode g.nextNode ((event.obj.ownerReferences.getD []).map (·.uid)) []).place
    (observedNode event.obj identity) identity.uid rfl (by simp [observedNode])
    (fun n hn => by rw [hnone] at hn; cases hn) (fun _ => rfl)
    fun ref href => ⟨rfl, List.mem_map_of_mem href⟩
  have hheap : ((g.newNode (observedNode event.obj identity)).2.setUid identity.uid
      g.nextNode).heap g.nextNode = observedNode event.obj identity := if_pos rfl
  have hstands : ((g.newNode (observedNode event.obj identity)).2.setUid identity.uid
      g.nextNode).Stands g.nextNode (event.obj.ownerReferences.getD []) := by
    refine ⟨?_, by rw [hheap]; rfl⟩
    rw [Current, hheap]
    exact JsMap.get_set_self _ _ _
  have hlinked := (hplaced.addDependentToOwners hstands fun _ href => href).1
  rw [← hstands.2] at hlinked
  exact hlinked.processTransitions event.oldObj event.obj g.nextNode

theorem mem_removed {oldRefs newRefs : List OwnerReference} {uid : JsString} :
    uid ∈ (referencesDiffs oldRefs newRefs).removed.map (·.uid)
      ↔ (∃ ref ∈ oldRefs, ref.uid = uid) ∧ ∀ ref ∈ newRefs, ref.uid ≠ uid := by
  have hentry : ∀ key ref, (refsByUid oldRefs).get key = some ref → ref ∈ oldRefs ∧ ref.uid = key :=
    fun key ref href => by
      obtain ⟨old, hold, heq⟩ := List.mem_map.mp (JsMap.mem_of_get_ofList href)
      cases heq
      exact ⟨hold, rfl⟩
  simp only [referencesDiffs, List.mem_map, List.mem_filterMap]
  constructor
  · rintro ⟨removed, ⟨⟨key, ref⟩, hmem, hkept⟩, rfl⟩
    obtain ⟨hold, rfl⟩ := hentry key ref (JsMap.get_eq_some_iff.mpr hmem)
    split at hkept
    · cases hkept
    · rename_i hnone
      cases hkept
      exact ⟨⟨ref, hold, rfl⟩, by simpa using hnone⟩
  · rintro ⟨⟨ref, href, rfl⟩, hnone⟩
    cases hget : (refsByUid oldRefs).get ref.uid with
    | none => exact absurd rfl (JsMap.get_ofList_eq_none_iff.mp hget _ (List.mem_map_of_mem href))
    | some old =>
      refine ⟨old, ⟨(ref.uid, old), JsMap.get_eq_some_iff.mp hget, ?_⟩, (hentry _ _ hget).2⟩
      rw [if_neg (by simpa using hnone)]

theorem added_subset (oldRefs newRefs : List OwnerReference) :
    (referencesDiffs oldRefs newRefs).added ⊆ newRefs :=
  List.filter_sublist.subset

theorem mem_added {oldRefs newRefs : List OwnerReference} {ref : OwnerReference}
    (href : ref ∈ newRefs) (hnone : ∀ old ∈ oldRefs, old.uid ≠ ref.uid) :
    ref ∈ (referencesDiffs oldRefs newRefs).added := by
  refine List.mem_filter.mpr ⟨href, ?_⟩
  rw [Option.isNone_iff_eq_none, refsByUid, JsMap.get_ofList_eq_none_iff]
  simpa using hnone

/-- The references are exchanged, and the links are yet to follow. -/
theorem Linked.setOwners (h : g.Linked d [] []) {n : NodeId} (hcurrent : g.Current n)
    (hobserved : (g.heap n).isVirtual = false) (refs : List OwnerReference) :
    (g.setNode n { g.heap n with owners := refs }).Linked n
        ((referencesDiffs (g.heap n).owners refs).added.map (·.uid))
        ((referencesDiffs (g.heap n).owners refs).removed.map (·.uid))
      ∧ (g.setNode n { g.heap n with owners := refs }).Stands n refs := by
  have hnode : ∀ {β : Type} (f : Node → β), f { g.heap n with owners := refs } = f (g.heap n) →
      ∀ m, f ((g.setNode n { g.heap n with owners := refs }).heap m) = f (g.heap m) :=
    fun f hf m => by
      simp only [setNode]
      split
      · rename_i hm
        rw [hm, hf]
      · rfl
  have hidentity := hnode Node.identity rfl
  have hdependents := hnode Node.dependents rfl
  have hvirtual := hnode Node.isVirtual rfl
  have hothers : ∀ m, m ≠ n → (g.setNode n { g.heap n with owners := refs }).heap m = g.heap m :=
    fun m hm => if_neg hm
  have hself : (g.setNode n { g.heap n with owners := refs }).heap n
      = { g.heap n with owners := refs } := if_pos rfl
  have hcurrents : ∀ m, (g.setNode n { g.heap n with owners := refs }).Current m ↔ g.Current m :=
    fun m => by
      rw [Current, hidentity]
      rfl
  have hrefers : ∀ uid, (g.setNode n { g.heap n with owners := refs }).RefersTo n uid ↔
      ∃ ref ∈ refs, ref.uid = uid := fun uid => by
    rw [RefersTo, hself]
  refine ⟨?_, (hcurrents n).mpr hcurrent, by rw [hself]⟩
  constructor
  · intro uid m hm
    rw [hidentity]
    exact h.uids uid m hm
  · intro uid m hm hunobserved
    by_cases hmn : m = n
    · rw [hvirtual, hmn, hobserved] at hunobserved
      cases hunobserved
    · rw [hothers m hmn] at hunobserved ⊢
      exact h.unobserved uid m hm hunobserved
  · intro uid m hm dep hdep
    rw [GraphBuilder.dependents, hdependents] at hdep
    obtain ⟨hdepCurrent, hold | ⟨-, hextra⟩⟩ := h.dependents uid m hm dep hdep
    · refine ⟨(hcurrents dep).mpr hdepCurrent, ?_⟩
      by_cases hdepn : dep = n
      · subst hdepn
        by_cases hnew : ∃ ref ∈ refs, ref.uid = uid
        · exact .inl ((hrefers uid).mpr hnew)
        · exact .inr ⟨rfl, mem_removed.mpr ⟨hold, fun ref href heq => hnew ⟨ref, href, heq⟩⟩⟩
      · rw [RefersTo, hothers dep hdepn]
        exact .inl hold
    · cases hextra
  · intro uid m hm dep hdep
    rw [GraphBuilder.dependents, hdependents] at hdep
    exact h.recorded uid m hm dep hdep
  · intro dep hdep uid huid
    have hlinked : g.RefersTo dep uid →
        (∃ m, g.uidToNode.get uid = some m
          ∧ dep ∈ (g.setNode n { g.heap n with owners := refs }).dependents m)
          ∨ Abandoned g.actions uid dep := fun hrefers => by
      obtain ⟨m, hm, hmem⟩ | habandoned | ⟨-, hpending⟩ :=
        h.owners dep ((hcurrents dep).mp hdep) uid hrefers
      · refine .inl ⟨m, hm, ?_⟩
        rw [GraphBuilder.dependents, hdependents]
        exact hmem
      · exact .inr habandoned
      · cases hpending
    by_cases hdepn : dep = n
    · subst hdepn
      obtain ⟨ref, href, rfl⟩ := (hrefers uid).mp huid
      by_cases hold : g.RefersTo dep ref.uid
      · exact (hlinked hold).imp_right .inl
      · exact .inr (.inr ⟨rfl, List.mem_map_of_mem (mem_added href fun old hmem heq =>
          hold ⟨old, hmem, heq⟩)⟩)
    · rw [RefersTo, hothers dep hdepn] at huid
      exact (hlinked huid).imp_right .inl

theorem Linked.updateOwners (h : g.Linked d [] []) {n : NodeId} (hcurrent : g.Current n)
    (hobserved : (g.heap n).isVirtual = false) (refs : List OwnerReference) :
    (g.updateOwners n refs).Linked n [] [] := by
  simp only [GraphBuilder.updateOwners]
  split
  · have hqueued : SameLinks g (g.addUnblockedOwnersToDeleteQueue
        (referencesDiffs (g.heap n).owners refs).removed
        (referencesDiffs (g.heap n).owners refs).changed) :=
      sameLinks_act _ (quiet_attempts _)
    obtain ⟨hlinked, hstands⟩ := (h.same hqueued).setOwners ((hqueued.current n).mpr hcurrent)
      hobserved refs
    obtain ⟨hlinked, hstands⟩ := hlinked.addDependentToOwners hstands (added_subset _ refs)
    refine hlinked.removeDependentFromOwners fun owner howner hrefers => ?_
    obtain ⟨ref, href, heq⟩ := hrefers
    rw [hstands.2] at href
    exact (mem_removed.mp (List.mem_map_of_mem howner)).2 ref href heq
  · exact h.anyNode n [] []

theorem Linked.updateObject (h : g.Linked d [] []) (event : GraphEvent) {n : NodeId}
    (hcurrent : g.Current n) (hobserved : (g.heap n).isVirtual = false) :
    (g.updateObject event n).Linked n [] [] := by
  have hlinked := h.updateOwners hcurrent hobserved (event.obj.ownerReferences.getD [])
  refine Linked.processTransitions ?_ event.oldObj event.obj n
  split
  · exact hlinked.same (sameLinks_setNode _ n rfl rfl rfl fun hn => hn)
  · exact hlinked

/-- What is left when a node goes, and what is done about those that were
linked to it. -/
theorem removeObject_frame (g : GraphBuilder) (n : NodeId) (identity : ObjectReference) :
    SameNodes { g with uidToNode := g.uidToNode.delete (g.heap n).identity.uid }
        (g.removeObject n identity)
      ∧ (∀ m dep, dep ∈ (g.removeObject n identity).dependents m
        ↔ ¬ (dep = n ∧ ∃ owner ∈ (g.heap n).owners,
            (g.uidToNode.delete (g.heap n).identity.uid).get owner.uid = some m)
          ∧ dep ∈ g.dependents m)
      ∧ ∃ absent more, (g.removeObject n identity).actions = g.actions
          ++ (.remove (g.heap n).identity.uid n
            :: (absent ++ ((g.removeObject n identity).dependents n).map .attemptToDelete))
          ++ more
        ∧ Quiet absent ∧ Quiet more
        ∧ ((g.removeObject n identity).dependents n ≠ [] → absent = [.absentOwner identity]) := by
  obtain ⟨hs, hactions, hmem⟩ := removeDependentFromOwners_frame n (g.heap n).owners
    { g with uidToNode := g.uidToNode.delete (g.heap n).identity.uid }
  have hheap : (g.removeObject n identity).heap = (g.removeNode n).heap := by
    simp only [GraphBuilder.removeObject]
    split <;> rfl
  have huids : (g.removeObject n identity).uidToNode = (g.removeNode n).uidToNode := by
    simp only [GraphBuilder.removeObject]
    split <;> rfl
  have hnext : (g.removeObject n identity).nextNode = (g.removeNode n).nextNode := by
    simp only [GraphBuilder.removeObject]
    split <;> rfl
  refine ⟨⟨huids.trans hs.uidToNode, hnext.trans hs.nextNode, fun m => ?_, fun m => ?_, fun m => ?_⟩,
    fun m dep => ?_, ?_⟩
  · rw [hheap]
    exact hs.identity m
  · rw [hheap]
    exact hs.owners m
  · rw [hheap]
    exact hs.unobserved m
  · rw [GraphBuilder.dependents, hheap]
    exact hmem m dep
  · have hdeps : (g.removeObject n identity).dependents n = (g.removeNode n).dependents n := by
      rw [GraphBuilder.dependents, hheap]
      rfl
    have hkept : (g.removeNode n).actions = g.actions := hactions
    rw [hdeps]
    simp only [GraphBuilder.removeObject]
    split
    · refine ⟨[.absentOwner identity], ?more, ?actions, by simp [Quiet], ?quiet, fun _ => rfl⟩
      case actions =>
        simp only [act, hkept, List.append_assoc, List.cons_append]
        rfl
      case quiet => exact quiet_attempts _
    · rename_i hnone
      refine ⟨[], ?more, ?actions, by simp [Quiet], ?quiet, fun hsome => ?_⟩
      case actions =>
        simp only [act, hkept, List.append_assoc, List.nil_append, List.cons_append]
        rfl
      case quiet => exact quiet_attempts _
      exact absurd (List.length_pos_iff.mpr hsome) hnone

/-- The node goes, and those that were linked to it are queued. -/
theorem Linked.removeObject (h : g.Linked d [] []) {n : NodeId} (hcurrent : g.Current n)
    (identity : ObjectReference) : (g.removeObject n identity).Linked d [] [] := by
  obtain ⟨hs, hmem, absent, more, hactions, habsent, hmore, hqueued⟩ :=
    g.removeObject_frame n identity
  have hget : ∀ uid m, (g.uidToNode.delete (g.heap n).identity.uid).get uid = some m ↔
      uid ≠ (g.heap n).identity.uid ∧ g.uidToNode.get uid = some m := fun uid m => by
    rw [JsMap.get_delete]
    split
    · rename_i heq
      simp [heq]
    · rename_i hne
      simp [hne]
  have hcurrents : ∀ m, (g.removeObject n identity).Current m ↔
      (g.heap m).identity.uid ≠ (g.heap n).identity.uid ∧ g.Current m := fun m => by
    rw [hs.current, Current, hget]
    rfl
  have hrecord : ∀ uid dep, (.record uid dep : Action) ∉
      .remove (g.heap n).identity.uid n
        :: (absent ++ ((g.removeObject n identity).dependents n).map .attemptToDelete) ++ more := by
    intro uid dep hrecord
    simp only [List.cons_append, List.mem_cons, List.mem_append, List.mem_map] at hrecord
    obtain heq | (hab | ⟨m, -, heq⟩) | hmo := hrecord
    · cases heq
    · exact habsent uid dep hab
    · cases heq
    · exact hmore uid dep hmo
  constructor
  · intro uid m hm
    rw [hs.uidToNode, hget] at hm
    rw [hs.nextNode, hs.identity]
    exact h.uids uid m hm.2
  · intro uid m hm hvirtual
    rw [hs.uidToNode, hget] at hm
    rw [hs.owners]
    exact h.unobserved uid m hm.2 (hs.unobserved m hvirtual)
  · intro uid m hm dep hdep
    rw [hs.uidToNode, hget] at hm
    obtain ⟨hkept, hdep⟩ := (hmem m dep).mp hdep
    obtain ⟨hdepCurrent, ⟨ref, href, rfl⟩ | ⟨-, hextra⟩⟩ := h.dependents uid m hm.2 dep hdep
    · refine ⟨(hcurrents dep).mpr ⟨fun heq => ?_, hdepCurrent⟩, .inl ?_⟩
      · have hdepn : dep = n := by
          rw [Current, heq, hcurrent] at hdepCurrent
          exact (Option.some.inj hdepCurrent).symm
        subst hdepn
        exact hkept ⟨rfl, ref, href, (hget _ _).mpr hm⟩
      · exact (hs.refersTo dep ref.uid).mpr ⟨ref, href, rfl⟩
    · cases hextra
  · intro uid m hm dep hdep
    rw [hs.uidToNode, hget] at hm
    rw [hactions, List.append_assoc]
    exact List.mem_append_left _ (h.recorded uid m hm.2 dep ((hmem m dep).mp hdep).2)
  · intro dep hdepCurrent uid hrefers
    obtain ⟨hother, hdepCurrent⟩ := (hcurrents dep).mp hdepCurrent
    have hne : dep ≠ n := fun heq => hother (heq ▸ rfl)
    rw [hs.refersTo] at hrefers
    rw [hs.uidToNode, hactions]
    obtain ⟨m, hm, hdep⟩ | habandoned | ⟨-, hpending⟩ := h.owners dep hdepCurrent uid hrefers
    · have hkept : dep ∈ (g.removeObject n identity).dependents m :=
        (hmem m dep).mpr ⟨fun hboth => hne hboth.1, hdep⟩
      by_cases huid : uid = (g.heap n).identity.uid
      · obtain rfl : n = m := by
          rw [huid, hcurrent] at hm
          exact Option.some.inj hm
        refine .inr (.inl ⟨g.actions, n, identity, _, more, ?_, h.recorded uid n hm dep hdep, hkept,
          hmore uid dep⟩)
        rw [hqueued (List.ne_nil_of_mem hkept), huid]
        rfl
      · exact .inl ⟨m, (hget uid m).mpr ⟨huid, hm⟩, hkept⟩
    · rw [List.append_assoc]
      exact .inr (.inl (habandoned.append (hrecord uid dep)))
    · cases hpending

/-! ## Virtual nodes -/

/-- A virtual node with another identity of its uid takes the place of the
one that is there. -/
theorem Linked.replace (h : g.Linked d [] []) {n : NodeId} {identity : ObjectReference}
    (hn : g.uidToNode.get identity.uid = some n) (hvirtual : (g.heap n).isVirtual = true) :
    ((g.newNode { g.heap n with identity }).2.setUid identity.uid g.nextNode).Linked d [] [] := by
  have hnone := h.unobserved identity.uid n hn hvirtual
  refine h.place { g.heap n with identity } identity.uid rfl (fun _ => hnone) (fun m hm => ?_)
    (fun hm => ?_) (fun ref href => ?_)
  · obtain rfl : n = m := Option.some.inj (hn.symm.trans hm)
    exact ⟨hnone, rfl, rfl⟩
  · rw [hn] at hm
    cases hm
  · rw [hnone] at href
    cases href

/-- Afterwards the node of the identity is one that was observed. -/
theorem Linked.observe (h : g.Linked d [] []) {n : NodeId} {identity : ObjectReference}
    (hn : g.uidToNode.get identity.uid = some n) (hvirtual : (g.heap n).isVirtual = true) :
    (g.observe n identity).2.Linked d [] []
      ∧ (g.observe n identity).2.uidToNode.get identity.uid = some (g.observe n identity).1
      ∧ ((g.observe n identity).2.heap (g.observe n identity).1).isVirtual = false := by
  simp only [GraphBuilder.observe]
  split
  · refine ⟨h.same (g.sameLinks_setNode n rfl rfl rfl Bool.noConfusion), hn, ?_⟩
    exact congrArg Node.isVirtual (if_pos rfl)
  · have hreported : SameLinks g (g.act ((partitionDependents g (g.dependents n) identity).2.flatMap
        fun dep => (if identity.namespace.length > 0
            ∧ (g.heap dep).identity.namespace ≠ identity.namespace then
          [.reportInvalidNamespaceOwnerRef dep identity.uid] else []) ++ [.attemptToDelete dep])) := by
      refine g.sameLinks_act fun uid m hmem => ?_
      obtain ⟨dep, -, hmem⟩ := List.mem_flatMap.mp hmem
      split at hmem <;> simp at hmem
    refine ⟨?_, JsMap.get_set_self _ _ _, congrArg Node.isVirtual (if_pos rfl)⟩
    exact ((h.same hreported).replace hn hvirtual).same (sameLinks_setNode _ _ rfl rfl rfl Bool.noConfusion)

end GraphBuilder

/-- The alternates have the uid. -/
def Alternates.OfUid (a : Alternates) (uid : JsString) : Prop :=
  ∀ ref, a.first = some ref ∨ a.firstFollowing = some ref → ref.uid = uid

theorem lesser_uid {uid : JsString} {new : ObjectReference} {current : Option ObjectReference}
    (hnew : new.uid = uid) (hcurrent : ∀ ref, current = some ref → ref.uid = uid) :
    ∀ ref, lesser new current = some ref → ref.uid = uid := by
  intro ref href
  cases current with
  | none =>
    cases href
    exact hnew
  | some old =>
    simp only [lesser] at href
    split at href
    · cases href
      exact hnew
    · exact hcurrent ref href

theorem Alternates.OfUid.consider {absent : ObjectReference} {dep : Node} {a : Alternates}
    (h : a.OfUid absent.uid) (ownerRef : OwnerReference) :
    (a.consider absent dep ownerRef).OfUid absent.uid := by
  simp only [Alternates.consider]
  split
  · exact h
  · rename_i huid
    have hnew : (alternateRef absent dep ownerRef).uid = absent.uid := not_not.mp huid
    split
    · exact h
    · split
      · exact h
      · intro ref href
        obtain href | href := href
        · exact lesser_uid hnew (fun ref href => h ref (.inl href)) ref href
        · split at href
          · exact lesser_uid hnew (fun ref href => h ref (.inr href)) ref href
          · exact h ref (.inr href)

theorem Alternates.OfUid.considerAll {absent : ObjectReference} {dep : Node}
    (owners : List OwnerReference) {a : Alternates} (h : a.OfUid absent.uid) :
    (owners.foldl (Alternates.consider absent dep) a).OfUid absent.uid := by
  induction owners generalizing a with
  | nil => exact h
  | cons owner owners ih => exact ih (h.consider owner)

/-- An alternate identity has the uid of the absent one. -/
theorem getAlternateOwnerIdentity_uid {g : GraphBuilder} {deps : List NodeId} {absent ref : ObjectReference}
    (h : getAlternateOwnerIdentity g deps absent = some ref) : ref.uid = absent.uid := by
  have hall : ∀ (nodes : List NodeId) (a : Alternates), a.OfUid absent.uid →
      (nodes.foldl (fun a dep =>
        (g.heap dep).owners.foldl (Alternates.consider absent (g.heap dep)) a) a).OfUid
          absent.uid := by
    intro nodes
    induction nodes with
    | nil => exact fun a ha => ha
    | cons dep nodes ih => exact fun a ha => ih _ (ha.considerAll (g.heap dep).owners)
  refine hall deps { seen := [objectReferenceKey absent] } (by simp [Alternates.OfUid]) ref ?_
  simp only [getAlternateOwnerIdentity] at h
  obtain h | ⟨-, h⟩ := Option.or_eq_some_iff.mp h
  · exact .inr h
  · exact .inl h

namespace GraphBuilder

variable {g : GraphBuilder} {d : NodeId}

theorem Linked.replaceVirtual (h : g.Linked d [] []) {n : NodeId} {nonmatching : List NodeId}
    {identity : ObjectReference} (hn : g.uidToNode.get identity.uid = some n)
    (hvirtual : (g.heap n).isVirtual = true) :
    (g.replaceVirtual n nonmatching identity).Linked d [] [] := by
  simp only [GraphBuilder.replaceVirtual]
  split
  · split
    · exact h
    · rename_i replacement hreplacement
      have huid := getAlternateOwnerIdentity_uid hreplacement
      exact (h.replace (huid ▸ hn) hvirtual).same (sameLinks_act _ (by simp [Quiet]))
  · exact h

theorem sameLinks_queueMatching (g : GraphBuilder) (matching : List NodeId)
    (identity : ObjectReference) : SameLinks g (g.queueMatching matching identity) := by
  simp only [queueMatching]
  split
  · exact g.sameLinks_act (by simp [Quiet])
  · exact .refl g

theorem queueMatching_heap (g : GraphBuilder) (matching : List NodeId)
    (identity : ObjectReference) : (g.queueMatching matching identity).heap = g.heap := by
  simp only [queueMatching]
  split <;> rfl

/-! ## Runs -/

theorem Linked.deleteObject (h : g.Linked d [] []) (event : GraphEvent) {n : NodeId}
    {identity : ObjectReference} (hn : g.uidToNode.get identity.uid = some n) :
    (g.deleteObject event n identity).Linked d [] [] := by
  have hcurrent : g.Current n := by
    rw [Current, (h.uids identity.uid n hn).2, hn]
  have hqueued := h.same (g.sameLinks_queueMatching
    (partitionDependents g (g.dependents n) identity).1 identity)
  simp only [GraphBuilder.deleteObject]
  split
  · split
    · rename_i hvirtual
      split
      · refine hqueued.replaceVirtual ((g.sameLinks_queueMatching _ identity).uidToNode ▸ hn) ?_
        rw [queueMatching_heap]
        exact hvirtual
      · exact h.removeObject hcurrent identity
    · split
      · exact hqueued
      · exact h.removeObject hcurrent identity
  · exact h.removeObject hcurrent identity

/-- An event that is no virtual one finds a node that was observed. -/
theorem Linked.existingNode (h : g.Linked d [] []) (event : GraphEvent) {n : NodeId}
    {identity : ObjectReference} (hn : g.uidToNode.get identity.uid = some n) :
    ∃ n' g', g.existingNode event identity = (some n', g') ∧ g'.Linked d [] []
      ∧ g'.uidToNode.get identity.uid = some n'
      ∧ (event.isVirtual = false → (g'.heap n').isVirtual = false) := by
  simp only [GraphBuilder.existingNode, hn]
  split
  · rename_i hunobserved
    have hvirtual : (g.heap n).isVirtual = true := by
      simpa [Node.isObserved] using hunobserved.2
    obtain ⟨hlinked, hn', hobserved⟩ := h.observe hn hvirtual
    exact ⟨_, _, rfl, hlinked, hn', fun _ => hobserved⟩
  · rename_i hobserved
    exact ⟨n, g, rfl, h, hn, fun hevent => by simpa [hevent, Node.isObserved] using hobserved⟩

/-- What an event leaves of the invariant is the invariant. -/
theorem Linked.processGraphChanges (h : g.Linked d [] []) {event : GraphEvent}
    (hvirtual : event.isVirtual = true → event.eventType = .delete) :
    ∃ d', (g.processGraphChanges event).Linked d' [] [] := by
  simp only [GraphBuilder.processGraphChanges]
  cases identityFromEvent event.obj with
  | none => exact ⟨d, h⟩
  | some identity =>
    cases hn : g.uidToNode.get identity.uid with
    | none =>
      simp only [GraphBuilder.existingNode, hn]
      cases event.eventType with
      | add => exact ⟨g.nextNode, h.insertObject event hn⟩
      | update => exact ⟨g.nextNode, h.insertObject event hn⟩
      | delete => exact ⟨d, h⟩
    | some n =>
      obtain ⟨n', g', hexisting, h', hn', hobserved⟩ := h.existingNode event hn
      have hcurrent : g'.Current n' := by
        rw [Current, (h'.uids identity.uid n' hn').2, hn']
      have hupdated : event.eventType ≠ .delete → (g'.updateObject event n').Linked n' [] [] :=
        fun htype => h'.updateObject event hcurrent
          (hobserved (Bool.eq_false_iff.mpr fun htrue => htype (hvirtual htrue)))
      simp only [hexisting]
      cases htype : event.eventType with
      | add => exact ⟨n', hupdated (by simp [htype])⟩
      | update => exact ⟨n', hupdated (by simp [htype])⟩
      | delete => exact ⟨d, h'.deleteObject event hn'⟩

/-- In every run of graph events owners and dependents are linked both ways. -/
theorem linked_of_reach (h : graphChanges.Reach g) : g.Consistent := by
  have hlinked : ∃ d, g.Linked d [] [] := by
    refine h.invariant (P := fun g => ∃ d, g.Linked d [] []) (fun g hnew => ⟨0, ?_⟩)
      fun g event g' _ hlinked hstep => ?_
    · have hnone : ∀ uid, g.uidToNode.get uid = none := fun uid => by rw [hnew.1]; rfl
      constructor
      · intro uid n hn
        rw [hnone] at hn
        cases hn
      · intro uid n hn
        rw [hnone] at hn
        cases hn
      · intro uid n hn
        rw [hnone] at hn
        cases hn
      · intro uid n hn
        rw [hnone] at hn
        cases hn
      · intro dep hdep
        rw [Current, hnone] at hdep
        cases hdep
    · obtain ⟨hvirtual, rfl⟩ := hstep
      obtain ⟨d, hlinked⟩ := hlinked
      exact hlinked.processGraphChanges hvirtual
  obtain ⟨d, hlinked⟩ := hlinked
  exact hlinked.consistent

/-- The events of a list, one after the other. -/
theorem reach_events (events : List GraphEvent) (h : graphChanges.Reach g)
    (hvirtual : ∀ event ∈ events, event.isVirtual = true → event.eventType = .delete) :
    graphChanges.Reach (events.foldl processGraphChanges g) := by
  induction events generalizing g with
  | nil => exact h
  | cons event events ih =>
    exact ih (h.step ⟨hvirtual event List.mem_cons_self, rfl⟩) fun event' hmem =>
      hvirtual event' (List.mem_cons_of_mem event hmem)

/-- A pod is observed before its owner, and the owner is deleted. -/
def ownerComesAndGoes : List GraphEvent :=
  let owner : ModeledObject :=
    { apiVersion := js "apps/v1", kind := js "ReplicaSet", name := js "web", uid := js "u1",
      «namespace» := js "default" }
  let pod : ModeledObject :=
    { apiVersion := js "v1", kind := js "Pod", name := js "web-0", uid := js "u2",
      «namespace» := js "default"
      ownerReferences := some [{ apiVersion := js "apps/v1", kind := js "ReplicaSet",
                                 name := js "web", uid := js "u1" }] }
  [{ eventType := .add, obj := pod }, { eventType := .add, obj := owner },
    { eventType := .delete, obj := owner }]

/-- The graph after events, from the one without nodes. -/
def afterEvents (events : List GraphEvent) : GraphBuilder :=
  events.foldl processGraphChanges { heap := fun _ => { identity := ⟨[], [], [], [], []⟩ } }

theorem consistent_owner_removed :
    (afterEvents ownerComesAndGoes).Consistent
      ∧ ((afterEvents (ownerComesAndGoes.take 2)).uidToNode.get (js "u1")).map
          (afterEvents (ownerComesAndGoes.take 2)).dependents = some [0]
      ∧ (afterEvents ownerComesAndGoes).actions
        = [.record (js "u1") 0, .attemptToDelete 1, .remove (js "u1") 1,
          .absentOwner ⟨js "apps/v1", js "ReplicaSet", js "web", js "u1", js "default"⟩,
          .attemptToDelete 0] :=
  ⟨linked_of_reach (reach_events ownerComesAndGoes (.start ⟨rfl, rfl⟩) (by decide)),
    by decide, by decide⟩

end GraphBuilder

end Webernetes.GarbageCollector
