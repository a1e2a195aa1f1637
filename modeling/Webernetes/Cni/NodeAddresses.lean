/-
Webernetes.Cni.NodeAddresses — the nodes of the cluster network:
`registerNode`, `unregisterNode` and what is read off them.

`NodeTable` is the part of a `ClusterNetwork` that the two write. Names are
kept under each IP, so who has an IP is known (`Indexed.names`). Under an alias
are only IPs, and `unregisterNode` takes all IPs of the node from there, also one
that another node has given: `Spares` says when it takes none of another node.
`toLowerCase` is an argument.
-/
import Webernetes.Cni.Network
import Webernetes.Js.MapOfSets

namespace Webernetes.Cni

open Js Net

/-! ## Nodes -/

structure V1NodeAddress where
  type : JsString
  address : JsString
  deriving DecidableEq

/-- A `V1Node`, with its `metadata.name` and `status.addresses` in front. -/
structure V1Node where
  name : Option JsString := none
  addresses : Option (List V1NodeAddress) := none
  deriving DecidableEq

/-- `new Set(values)`. -/
def newSet (values : List JsString) : JsSet JsString := values.foldl JsSet.add .empty

theorem mem_newSet {values : List JsString} {value : JsString} :
    value ∈ (newSet values).elems ↔ value ∈ values := by
  have hfold : ∀ (values : List JsString) (set : JsSet JsString),
      value ∈ (values.foldl JsSet.add set).elems ↔ value ∈ values ∨ value ∈ set.elems := by
    intro values
    induction values with
    | nil => simp
    | cons v values ih =>
      intro set
      rw [List.foldl_cons, ih, JsSet.mem_add, List.mem_cons]
      grind
  simpa [newSet] using hfold values .empty

namespace V1Node

variable (lower : JsString → JsString) (node : V1Node)

def ips : JsSet JsString :=
  newSet ((((node.addresses.getD []).filter fun address =>
    address.type = js "InternalIP" ∨ address.type = js "ExternalIP").map (·.address)).filter isIPLiteral)

/-- `validAliases`. -/
def aliases : JsSet JsString :=
  newSet (((((node.addresses.getD []).filter fun address =>
    address.type = js "Hostname" ∨ address.type = js "InternalDNS" ∨
      address.type = js "ExternalDNS").map (·.address)).filter (!·.isEmpty)).map lower)

def firstIp : Option JsString := node.ips.elems.head?

/-- `metadata.name`, unless it is empty. -/
def key : Option JsString := node.name.filter (!·.isEmpty)

/-- One of the addresses is the IP. -/
def HasIp (ip : JsString) : Prop :=
  ∃ address ∈ node.addresses.getD [],
    (address.type = js "InternalIP" ∨ address.type = js "ExternalIP") ∧ address.address = ip

theorem mem_ips {ip : JsString} : ip ∈ node.ips.elems ↔ isIPLiteral ip = true ∧ node.HasIp ip := by
  rw [ips, mem_newSet, List.mem_filter, and_comm]
  simp only [HasIp, List.mem_map, List.mem_filter, decide_eq_true_eq, and_assoc]

theorem firstIp_mem {node : V1Node} {ip : JsString} (h : node.firstIp = some ip) :
    ip ∈ node.ips.elems := List.mem_of_mem_head? h

end V1Node

/-! ## The table -/

structure NodeTable where
  nodesByName : JsMap JsString V1Node := .empty
  nodeIpsByName : JsMap JsString (JsSet JsString) := .empty
  nodeNamesByIp : JsMap JsString (JsSet JsString) := .empty
  nodeAliasesByName : JsMap JsString (JsSet JsString) := .empty
  nodeIpsByAlias : JsMap JsString (JsSet JsString) := .empty

namespace NodeTable

variable (lower : JsString → JsString) (t : NodeTable)

def unregisterNode (name : JsString) : NodeTable :=
  let ips := t.nodeIpsByName.setAt name
  let aliases := t.nodeAliasesByName.setAt name
  if ips.size = 0 ∧ aliases.size = 0 then t
  else
    { nodesByName := t.nodesByName.delete name
      nodeIpsByName := t.nodeIpsByName.delete name
      nodeNamesByIp := ips.elems.foldl (JsMap.dropUnder [name]) t.nodeNamesByIp
      nodeAliasesByName := t.nodeAliasesByName.delete name
      nodeIpsByAlias := aliases.elems.foldl (JsMap.dropUnder ips.elems) t.nodeIpsByAlias }

/-- `registerNode` from the second line on. -/
def addNode (name : JsString) (node : V1Node) : NodeTable where
  nodesByName := t.nodesByName.set name node
  nodeIpsByName := t.nodeIpsByName.set name node.ips
  nodeNamesByIp := node.ips.elems.foldl (JsMap.addUnder name) t.nodeNamesByIp
  nodeAliasesByName := t.nodeAliasesByName.set name (node.aliases lower)
  -- An IP literal is not empty, so `firstIp` is truthy where there is one.
  nodeIpsByAlias := match node.firstIp with
    | some firstIp => (node.aliases lower).elems.foldl (JsMap.addUnder firstIp) t.nodeIpsByAlias
    | none => t.nodeIpsByAlias

def registerNode (node : V1Node) : Except NetworkError NodeTable :=
  match node.key with
  | none => .error (js "node must have metadata.name")
  | some name => .ok ((t.unregisterNode name).addNode lower name node)

def nodeHopForIP (ip : JsString) : Option V1Node :=
  let nodeName := (t.nodeNamesByIp.get ip).bind (·.elems.head?)
  (nodeName.filter (!·.isEmpty)).bind t.nodesByName.get

def nodeIPForAlias (host : JsString) : Option JsString :=
  (t.nodeIpsByAlias.get host).bind (·.elems.head?)

/-- What `routeFetchEndpoint` and `isClusterAddress` ask. -/
def isNodeAddress (ip : JsString) : Bool := t.nodeNamesByIp.contains ip

end NodeTable

/-! ## Runs -/

inductive NodeAct where
  | register (node : V1Node)
  | unregister (name : JsString)

/-- The nodes that are registered, by their names. -/
abbrev Registered := JsString → Option V1Node

namespace NodeAct

/-- What an act says of a name. -/
def name? : NodeAct → Option JsString
  | .register node => node.key
  | .unregister name => some name

def node? : NodeAct → Option V1Node
  | .register node => some node
  | .unregister _ => none

/-- A nameless node is refused and nothing changes. -/
def exec (lower : JsString → JsString) (t : NodeTable) : NodeAct → NodeTable
  | .register node => (t.registerNode lower node).toOption.getD t
  | .unregister name => t.unregisterNode name

end NodeAct

namespace Registered

def update (registered : Registered) (name : JsString) (node : Option V1Node) : Registered :=
  fun name' => if name' = name then node else registered name'

def note (registered : Registered) (act : NodeAct) : Registered :=
  match act.name? with
  | some name => registered.update name act.node?
  | none => registered

/-- What is registered after some calls. -/
def after (acts : List NodeAct) : Registered := acts.foldl note fun _ => none

end Registered

def NodeTable.after (lower : JsString → JsString) (acts : List NodeAct) : NodeTable :=
  acts.foldl (NodeAct.exec lower) {}

/-- What is routed and resolved, for the nodes that are registered. -/
structure Routes (lower : JsString → JsString) (registered : Registered) (t : NodeTable) : Prop where
  routed : ∀ ip, isIPLiteral ip = true →
    (t.isNodeAddress ip = true ↔ ∃ name node, registered name = some node ∧ node.HasIp ip)
  hop : ∀ ip, t.isNodeAddress ip = true → ∃ name node, registered name = some node ∧ node.HasIp ip ∧
    t.nodeHopForIP ip = some node
  resolves : ∀ host, t.nodeIpsByAlias.contains host = true ↔ ∃ name node, registered name = some node ∧
    host ∈ (node.aliases lower).elems ∧ node.firstIp ≠ none
  first : ∀ host, t.nodeIpsByAlias.contains host = true → ∃ name node ip,
    registered name = some node ∧ host ∈ (node.aliases lower).elems ∧ node.firstIp = some ip ∧
      t.nodeIPForAlias host = some ip
  /-- An alias has the IPs of all its nodes. -/
  unbroken : ∀ {name node host ip}, registered name = some node →
    host ∈ (node.aliases lower).elems → node.firstIp = some ip → t.nodeIpsByAlias.Holds host ip

/-- No other node shares an alias and has as its first IP one of the IPs of the
node that goes, unless the node that comes in its place gives the alias that IP. -/
def Spares (lower : JsString → JsString) (registered : Registered) (act : NodeAct) : Prop :=
  ∀ name ∈ act.name?, ∀ old, registered name = some old → ∀ other node, other ≠ name →
    registered other = some node → ∀ host ∈ (node.aliases lower).elems,
      host ∈ (old.aliases lower).elems → ∀ ip, node.firstIp = some ip → ip ∈ old.ips.elems →
        ∃ new, act.node? = some new ∧ host ∈ (new.aliases lower).elems ∧ new.firstIp = some ip

/-! ## What the table holds -/

section Table

variable {lower : JsString → JsString} {registered : Registered} {t : NodeTable}

/-- What is always so: the IPs under an alias are all of registered nodes. -/
structure Indexed (lower : JsString → JsString) (registered : Registered) (t : NodeTable) : Prop where
  named : ∀ {name node}, registered name = some node → name.isEmpty = false
  node : ∀ {name node}, registered name = some node → t.nodesByName.get name = some node
  ips : ∀ name ip, t.nodeIpsByName.Holds name ip ↔ ∃ node, registered name = some node ∧
    ip ∈ node.ips.elems
  aliases : ∀ name host, t.nodeAliasesByName.Holds name host ↔ ∃ node, registered name = some node ∧
    host ∈ (node.aliases lower).elems
  names : ∀ ip name, t.nodeNamesByIp.Holds ip name ↔ ∃ node, registered name = some node ∧
    ip ∈ node.ips.elems
  known : ∀ {host ip}, t.nodeIpsByAlias.Holds host ip → ∃ name node, registered name = some node ∧
    host ∈ (node.aliases lower).elems ∧ node.firstIp = some ip
  noEmptyNames : t.nodeNamesByIp.NoEmptySet
  noEmptyIps : t.nodeIpsByAlias.NoEmptySet

/-- The IPs under an alias are those of all its nodes. -/
def Complete (lower : JsString → JsString) (registered : Registered) (t : NodeTable) : Prop :=
  ∀ name node host ip, registered name = some node → host ∈ (node.aliases lower).elems →
    node.firstIp = some ip → t.nodeIpsByAlias.Holds host ip

theorem indexed_empty : Indexed lower (fun _ => none) {} where
  named h := by cases h
  node h := by cases h
  ips _ _ := by simp [JsMap.not_holds_empty]
  aliases _ _ := by simp [JsMap.not_holds_empty]
  names _ _ := by simp [JsMap.not_holds_empty]
  known h := absurd h (JsMap.not_holds_empty _ _)
  noEmptyNames := JsMap.noEmptySet_empty
  noEmptyIps := JsMap.noEmptySet_empty

theorem Indexed.isNodeAddress_iff (h : Indexed lower registered t) (ip : JsString) :
    t.isNodeAddress ip = true ↔ ∃ name node, registered name = some node ∧ ip ∈ node.ips.elems ∧
      t.nodeHopForIP ip = some node := by
  rw [NodeTable.isNodeAddress, h.noEmptyNames.contains_iff]
  constructor
  · rintro ⟨name, hholds, hfirst⟩
    obtain ⟨node, hnode, hip⟩ := (h.names ip name).mp hholds
    refine ⟨name, node, hnode, hip, ?_⟩
    have hnamed : (some name).filter (!·.isEmpty) = some name := by simp [Option.filter, h.named hnode]
    simp only [NodeTable.nodeHopForIP, hfirst, hnamed, Option.bind_some, h.node hnode]
  · rintro ⟨name, node, hnode, hip, -⟩
    have hholds := (h.names ip name).mpr ⟨node, hnode, hip⟩
    exact (h.noEmptyNames.contains_iff ip).mp (JsMap.contains_of_holds hholds)

/-- All is routed and resolved as it should be where the aliases are complete. -/
theorem Indexed.routes_iff (h : Indexed lower registered t) :
    Routes lower registered t ↔ Complete lower registered t := by
  constructor
  · intro hroutes name node host ip hnode hhost hfirst
    exact hroutes.unbroken hnode hhost hfirst
  · intro hcomplete
    constructor
    · intro ip hip
      rw [h.isNodeAddress_iff]
      constructor
      · rintro ⟨name, node, hnode, hmem, -⟩
        exact ⟨name, node, hnode, (node.mem_ips.mp hmem).2⟩
      · rintro ⟨name, node, hnode, hhas⟩
        exact (h.isNodeAddress_iff ip).mp (JsMap.contains_of_holds
          ((h.names ip name).mpr ⟨node, hnode, node.mem_ips.mpr ⟨hip, hhas⟩⟩))
    · intro ip hip
      obtain ⟨name, node, hnode, hmem, hhop⟩ := (h.isNodeAddress_iff ip).mp hip
      exact ⟨name, node, hnode, (node.mem_ips.mp hmem).2, hhop⟩
    · intro host
      constructor
      · intro hcontains
        obtain ⟨ip, hholds, -⟩ := (h.noEmptyIps.contains_iff host).mp hcontains
        obtain ⟨name, node, hnode, hhost, hfirst⟩ := h.known hholds
        exact ⟨name, node, hnode, hhost, by rw [hfirst]; exact Option.some_ne_none _⟩
      · rintro ⟨name, node, hnode, hhost, hfirst⟩
        obtain ⟨ip, hip⟩ := Option.ne_none_iff_exists'.mp hfirst
        exact JsMap.contains_of_holds (hcomplete name node host ip hnode hhost hip)
    · intro host hcontains
      obtain ⟨ip, hholds, hip⟩ := (h.noEmptyIps.contains_iff host).mp hcontains
      obtain ⟨name, node, hnode, hhost, hfirst⟩ := h.known hholds
      exact ⟨name, node, ip, hnode, hhost, hfirst, hip⟩
    · intro name node host ip hnode hhost hfirst
      exact hcomplete name node host ip hnode hhost hfirst

/-! ## Steps -/

/-- `unregisterNode` takes what the table has of a node, also where it returns
early: then it has nothing of it. -/
structure Unregistered (t : NodeTable) (name : JsString) (t' : NodeTable) : Prop where
  node : ∀ {other}, other ≠ name → t'.nodesByName.get other = t.nodesByName.get other
  ips : ∀ other ip, t'.nodeIpsByName.Holds other ip ↔ other ≠ name ∧ t.nodeIpsByName.Holds other ip
  aliases : ∀ other host, t'.nodeAliasesByName.Holds other host ↔
    other ≠ name ∧ t.nodeAliasesByName.Holds other host
  names : ∀ ip other, t'.nodeNamesByIp.Holds ip other ↔
    t.nodeNamesByIp.Holds ip other ∧ ¬ (t.nodeIpsByName.Holds name ip ∧ other = name)
  hosts : ∀ host ip, t'.nodeIpsByAlias.Holds host ip ↔
    t.nodeIpsByAlias.Holds host ip ∧ ¬ (t.nodeAliasesByName.Holds name host ∧ t.nodeIpsByName.Holds name ip)
  noEmptyNames : t.nodeNamesByIp.NoEmptySet → t'.nodeNamesByIp.NoEmptySet
  noEmptyIps : t.nodeIpsByAlias.NoEmptySet → t'.nodeIpsByAlias.NoEmptySet

theorem unregistered (t : NodeTable) (name : JsString) : Unregistered t name (t.unregisterNode name) := by
  unfold NodeTable.unregisterNode
  dsimp only
  split
  · rename_i hnothing
    have hips : ∀ ip, ¬ t.nodeIpsByName.Holds name ip := fun ip hip =>
      absurd hip (by rw [JsMap.Holds, List.length_eq_zero_iff.mp hnothing.1]; exact List.not_mem_nil)
    have haliases : ∀ host, ¬ t.nodeAliasesByName.Holds name host := fun host hhost =>
      absurd hhost (by rw [JsMap.Holds, List.length_eq_zero_iff.mp hnothing.2]; exact List.not_mem_nil)
    constructor
    · exact fun _ => rfl
    · intro other ip
      exact ⟨fun h => ⟨fun heq => hips ip (heq ▸ h), h⟩, And.right⟩
    · intro other host
      exact ⟨fun h => ⟨fun heq => haliases host (heq ▸ h), h⟩, And.right⟩
    · intro ip other
      exact ⟨fun h => ⟨h, fun hboth => hips ip hboth.1⟩, And.left⟩
    · intro host ip
      exact ⟨fun h => ⟨h, fun hboth => hips ip hboth.2⟩, And.left⟩
    · exact id
    · exact id
  · constructor
    · intro other hne
      rw [JsMap.get_delete, if_neg hne]
    · intro other ip
      exact JsMap.holds_delete _ _ _ _
    · intro other host
      exact JsMap.holds_delete _ _ _ _
    · intro ip other
      rw [JsMap.holds_foldl_dropUnder, List.mem_singleton]
      rfl
    · intro host ip
      rw [JsMap.holds_foldl_dropUnder]
      rfl
    · exact fun h => h.foldl (fun m key hm => hm.dropUnder _ key) _
    · exact fun h => h.foldl (fun m key hm => hm.dropUnder _ key) _

theorem holds_addNode_hosts (t : NodeTable) (name : JsString) (node : V1Node) (host ip : JsString) :
    (t.addNode lower name node).nodeIpsByAlias.Holds host ip ↔ t.nodeIpsByAlias.Holds host ip ∨
      host ∈ (node.aliases lower).elems ∧ node.firstIp = some ip := by
  unfold NodeTable.addNode
  cases hfirst : node.firstIp with
  | none => simp
  | some firstIp =>
    simp only [JsMap.holds_foldl_addUnder, Option.some.injEq, eq_comm]

@[simp] theorem update_self (registered : Registered) (name : JsString) (node : Option V1Node) :
    registered.update name node name = node := if_pos rfl

theorem update_of_ne (registered : Registered) {name other : JsString} (node : Option V1Node)
    (h : other ≠ name) : registered.update name node other = registered other := if_neg h

theorem update_update (registered : Registered) (name : JsString) (node node' : Option V1Node) :
    (registered.update name node).update name node' = registered.update name node' := by
  funext other
  by_cases hne : other = name
  · rw [hne, update_self, update_self]
  · rw [update_of_ne _ _ hne, update_of_ne _ _ hne, update_of_ne _ _ hne]

/-- A node that is registered without a name is another one. -/
theorem update_none_iff {registered : Registered} {name other : JsString} {node : V1Node} :
    registered.update name none other = some node ↔ other ≠ name ∧ registered other = some node := by
  by_cases hne : other = name
  · simp [hne]
  · simp [update_of_ne _ _ hne, hne]

theorem Indexed.unregister (h : Indexed lower registered t) (name : JsString) :
    Indexed lower (registered.update name none) (t.unregisterNode name) := by
  have hstep := unregistered t name
  constructor
  · intro other node hnode
    exact h.named (update_none_iff.mp hnode).2
  · intro other node hnode
    obtain ⟨hne, hnode⟩ := update_none_iff.mp hnode
    rw [hstep.node hne]
    exact h.node hnode
  · intro other ip
    simp only [hstep.ips, h.ips, update_none_iff, and_assoc, exists_and_left]
  · intro other host
    simp only [hstep.aliases, h.aliases, update_none_iff, and_assoc, exists_and_left]
  · intro ip other
    rw [hstep.names, h.names, h.ips]
    constructor
    · rintro ⟨⟨node, hnode, hip⟩, hnot⟩
      refine ⟨node, update_none_iff.mpr ⟨?_, hnode⟩, hip⟩
      rintro rfl
      exact hnot ⟨⟨node, hnode, hip⟩, rfl⟩
    · rintro ⟨node, hnode, hip⟩
      obtain ⟨hne, hnode⟩ := update_none_iff.mp hnode
      exact ⟨⟨node, hnode, hip⟩, fun hboth => hne hboth.2⟩
  · intro host ip hholds
    obtain ⟨hholds, hnot⟩ := (hstep.hosts host ip).mp hholds
    obtain ⟨other, node, hnode, hhost, hfirst⟩ := h.known hholds
    refine ⟨other, node, update_none_iff.mpr ⟨?_, hnode⟩, hhost, hfirst⟩
    rintro rfl
    exact hnot ⟨(h.aliases other host).mpr ⟨node, hnode, hhost⟩,
      (h.ips other ip).mpr ⟨node, hnode, V1Node.firstIp_mem hfirst⟩⟩
  · exact hstep.noEmptyNames h.noEmptyNames
  · exact hstep.noEmptyIps h.noEmptyIps

theorem Indexed.addNode (h : Indexed lower registered t) {name : JsString} (hnone : registered name = none)
    (hname : name.isEmpty = false) (node : V1Node) :
    Indexed lower (registered.update name (some node)) (t.addNode lower name node) := by
  have hother : ∀ {other old}, registered other = some old → other ≠ name := by
    rintro other old hold rfl
    rw [hnone] at hold
    cases hold
  have hsplit : ∀ {other} {P : V1Node → Prop},
      (∃ node', registered.update name (some node) other = some node' ∧ P node') ↔
        other = name ∧ P node ∨ other ≠ name ∧ ∃ node', registered other = some node' ∧ P node' := by
    intro other P
    by_cases hne : other = name
    · simp [hne]
    · simp [update_of_ne _ _ hne, hne]
  constructor
  · intro other node' hnode
    by_cases hne : other = name
    · rw [hne]
      exact hname
    · exact h.named ((update_of_ne _ _ hne).symm.trans hnode)
  · intro other node' hnode
    show (t.nodesByName.set name node).get other = some node'
    by_cases hne : other = name
    · rw [hne, update_self] at hnode
      rw [hne, JsMap.get_set_self, hnode]
    · rw [JsMap.get_set_of_ne _ _ hne]
      exact h.node ((update_of_ne _ _ hne).symm.trans hnode)
  · intro other ip
    rw [hsplit, ← h.ips]
    exact JsMap.holds_set _ _ _ _ _
  · intro other host
    rw [hsplit, ← h.aliases]
    exact JsMap.holds_set _ _ _ _ _
  · intro ip other
    rw [hsplit]
    have hold : t.nodeNamesByIp.Holds ip other ↔
        other ≠ name ∧ ∃ node', registered other = some node' ∧ ip ∈ node'.ips.elems := by
      rw [h.names]
      exact ⟨fun ⟨node', hnode, hip⟩ => ⟨hother hnode, node', hnode, hip⟩, And.right⟩
    rw [← hold]
    refine (JsMap.holds_foldl_addUnder _ _ _ _ _).trans ?_
    rw [or_comm, and_comm]
  · intro host ip hholds
    rcases (holds_addNode_hosts t name node host ip).mp hholds with hholds | ⟨hhost, hfirst⟩
    · obtain ⟨other, node', hnode, hhost, hfirst⟩ := h.known hholds
      exact ⟨other, node', (update_of_ne _ _ (hother hnode)).trans hnode, hhost, hfirst⟩
    · exact ⟨name, node, update_self _ _ _, hhost, hfirst⟩
  · exact h.noEmptyNames.foldl (fun m key hm => hm.addUnder _ key) _
  · show (match node.firstIp with
      | some firstIp => (node.aliases lower).elems.foldl (JsMap.addUnder firstIp) t.nodeIpsByAlias
      | none => t.nodeIpsByAlias).NoEmptySet
    split
    · exact h.noEmptyIps.foldl (fun m key hm => hm.addUnder _ key) _
    · exact h.noEmptyIps

/-- What a call leaves, by the name it is for. -/
theorem exec_of_name {act : NodeAct} {name : JsString} (hname : act.name? = some name) :
    NodeAct.exec lower t act = match act.node? with
      | some node => (t.unregisterNode name).addNode lower name node
      | none => t.unregisterNode name := by
  cases act with
  | register node =>
    have hkey : node.key = some name := hname
    simp only [NodeAct.exec, NodeTable.registerNode, hkey, NodeAct.node?]
    rfl
  | unregister _ =>
    cases hname
    rfl

theorem exec_of_no_name {act : NodeAct} (hname : act.name? = none) : NodeAct.exec lower t act = t := by
  cases act with
  | register node =>
    have hkey : node.key = none := hname
    simp only [NodeAct.exec, NodeTable.registerNode, hkey]
    rfl
  | unregister _ => cases hname

theorem Indexed.exec (h : Indexed lower registered t) (act : NodeAct) :
    Indexed lower (registered.note act) (act.exec lower t) := by
  cases hname : act.name? with
  | none =>
    rw [exec_of_no_name hname, Registered.note, hname]
    exact h
  | some name =>
    rw [exec_of_name hname, Registered.note, hname]
    cases hnode : act.node? with
    | none => exact h.unregister name
    | some node =>
      have hempty : name.isEmpty = false := by
        cases act with
        | register node' =>
          have hkey : node'.name.filter (!·.isEmpty) = some name := hname
          simpa using (Option.filter_eq_some_iff.mp hkey).2
        | unregister _ => cases hnode
      have hadded := (h.unregister name).addNode (update_self _ _ _) hempty node
      rw [update_update] at hadded
      exact hadded

/-- The IPs under an alias after a call: what the node that goes had is taken
from all nodes, and what the new one gives is added. -/
theorem Indexed.hosts_exec (h : Indexed lower registered t) {act : NodeAct} {name : JsString}
    (hname : act.name? = some name) (host ip : JsString) :
    (act.exec lower t).nodeIpsByAlias.Holds host ip ↔
      (t.nodeIpsByAlias.Holds host ip ∧
        ¬ ∃ old, registered name = some old ∧ host ∈ (old.aliases lower).elems ∧ ip ∈ old.ips.elems) ∨
      ∃ new, act.node? = some new ∧ host ∈ (new.aliases lower).elems ∧ new.firstIp = some ip := by
  have htaken : (t.nodeAliasesByName.Holds name host ∧ t.nodeIpsByName.Holds name ip) ↔
      ∃ old, registered name = some old ∧ host ∈ (old.aliases lower).elems ∧ ip ∈ old.ips.elems := by
    rw [h.aliases, h.ips]
    constructor
    · rintro ⟨⟨old, hold, hhost⟩, old', hold', hip⟩
      cases hold.symm.trans hold'
      exact ⟨old, hold, hhost, hip⟩
    · rintro ⟨old, hold, hhost, hip⟩
      exact ⟨⟨old, hold, hhost⟩, old, hold, hip⟩
  have hgone := (unregistered t name).hosts host ip
  rw [htaken] at hgone
  rw [exec_of_name hname]
  cases hnode : act.node? with
  | none => simp [hgone]
  | some node => simp [holds_addNode_hosts, hgone]

/-- The aliases stay complete in the calls that spare the other nodes, and in
no other. -/
theorem Indexed.complete_iff (h : Indexed lower registered t) (hcomplete : Complete lower registered t)
    (act : NodeAct) :
    Complete lower (registered.note act) (act.exec lower t) ↔ Spares lower registered act := by
  cases hname : act.name? with
  | none =>
    rw [exec_of_no_name hname, Registered.note, hname]
    refine ⟨fun _ name hmem => ?_, fun _ => hcomplete⟩
    rw [hname] at hmem
    cases hmem
  | some name =>
    have hnote : registered.note act = registered.update name act.node? := by
      rw [Registered.note, hname]
    rw [hnote]
    constructor
    · intro hafter name' hmem old hold other node hne hnode host hhost hhost' ip hfirst hip
      cases hname.symm.trans hmem
      have hholds := hafter other node host ip ((update_of_ne _ _ hne).trans hnode) hhost hfirst
      rcases (h.hosts_exec hname host ip).mp hholds with ⟨-, hnot⟩ | hnew
      · exact absurd ⟨old, hold, hhost', hip⟩ hnot
      · exact hnew
    · intro hspares other node host ip hnode hhost hfirst
      rw [h.hosts_exec hname]
      by_cases hne : other = name
      · rw [hne, update_self] at hnode
        exact .inr ⟨node, hnode, hhost, hfirst⟩
      · rw [update_of_ne _ _ hne] at hnode
        by_cases htaken : ∃ old, registered name = some old ∧ host ∈ (old.aliases lower).elems ∧
            ip ∈ old.ips.elems
        · obtain ⟨old, hold, hhost', hip⟩ := htaken
          exact .inr (hspares name hname old hold other node hne hnode host hhost hhost' ip hfirst hip)
        · exact .inl ⟨hcomplete other node host ip hnode hhost hfirst, htaken⟩

end Table

/-! ## Runs of calls -/

section Runs

variable (lower : JsString → JsString)

theorem after_snoc (acts : List NodeAct) (act : NodeAct) :
    NodeTable.after lower (acts ++ [act]) = act.exec lower (NodeTable.after lower acts) :=
  List.foldl_append

theorem registered_snoc (acts : List NodeAct) (act : NodeAct) :
    Registered.after (acts ++ [act]) = (Registered.after acts).note act := List.foldl_append

theorem indexed_after (acts : List NodeAct) :
    Indexed lower (Registered.after acts) (NodeTable.after lower acts) := by
  induction acts using List.reverseRecOn with
  | nil => exact indexed_empty
  | append_singleton acts act ih =>
    rw [after_snoc, registered_snoc]
    exact ih.exec act

/-- All nodes are routed and resolved after every call of a sequence exactly
when each of them spares the other nodes. -/
theorem routes_after_iff (acts : List NodeAct) :
    (∀ done, done <+: acts → Routes lower (Registered.after done) (NodeTable.after lower done)) ↔
      ∀ done act, done ++ [act] <+: acts → Spares lower (Registered.after done) act := by
  have hroutes := fun done => (indexed_after lower done).routes_iff
  simp only [hroutes]
  constructor
  · intro h done act hdone
    have hafter := h _ hdone
    rw [after_snoc, registered_snoc] at hafter
    exact ((indexed_after lower done).complete_iff (h done ((List.prefix_append _ _).trans hdone)) act).mp
      hafter
  · intro h done
    induction done using List.reverseRecOn with
    | nil =>
      intro _ name node host ip hnode
      cases hnode
    | append_singleton done act ih =>
      intro hdone
      rw [after_snoc, registered_snoc]
      exact ((indexed_after lower done).complete_iff (ih ((List.prefix_append _ _).trans hdone)) act).mpr
        (h done act hdone)

/-- Two nodes behind one IP and one alias. -/
def shared (name : JsString) : V1Node where
  name := some name
  addresses := some [⟨js "InternalIP", js "10.0.0.1"⟩, ⟨js "Hostname", js "edge"⟩]

/-- When one of them goes the alias is gone, though the other has it. -/
theorem shared_alias_lost : ¬ ∀ acts : List NodeAct,
    Routes id (Registered.after acts) (NodeTable.after id acts) := by
  intro h
  have hroutes := h [.register (shared (js "a")), .register (shared (js "b")), .unregister (js "b")]
  have hresolves := (hroutes.resolves (js "edge")).mpr ⟨js "a", shared (js "a"), by decide, by decide, by decide⟩
  exact absurd hresolves (by decide)

end Runs

end Webernetes.Cni
