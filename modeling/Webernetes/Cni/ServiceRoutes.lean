/-
Webernetes.Cni.ServiceRoutes — which services the routes of the network lead
to.

Where no two services meet on a cluster IP or on a node port, the routes are
those of the services that are registered (`Routed`), and an operation on one
service leaves the others alone (`Apart`). Two things break this: a service
takes over the cluster IP of another and later removes its route, and a
conflict of node ports is found when the service is half registered. A service
also removes the routes of the node ports that it lists, whether they were
ever its own: one of type ClusterIP does not own any.
-/
import Webernetes.Base.Transition
import Webernetes.Cni.Network

namespace Webernetes.Cni

open Js Net Base

/-! ## The node ports of a service -/

namespace Service

/-- The node port that a port of a service routes. -/
def routedPort (type : ServiceType) (port : ServicePort) : Option Nat :=
  if type = .nodePort then port.nodePort else none

/-- The node ports that lead to the service. -/
def nodePorts (service : Service) : List Nat :=
  match service.serviceType with
  | some type => service.ports.filterMap (routedPort type)
  | none => []

/-- The node ports that the service lists, whatever its type. -/
def listedPorts (service : Service) : List Nat := service.ports.filterMap (·.nodePort)

theorem nodePorts_subset_listedPorts (service : Service) : service.nodePorts ⊆ service.listedPorts := by
  intro nodePort h
  unfold nodePorts at h
  split at h
  · obtain ⟨port, hport, hrouted⟩ := List.mem_filterMap.mp h
    refine List.mem_filterMap.mpr ⟨port, hport, ?_⟩
    unfold routedPort at hrouted
    split at hrouted
    · exact hrouted
    · cases hrouted
  · cases h

theorem mem_nodePorts {service : Service} {nodePort : Nat} : nodePort ∈ service.nodePorts ↔
    service.serviceType = some .nodePort ∧ ∃ port ∈ service.ports, port.nodePort = some nodePort := by
  unfold nodePorts
  cases htype : service.serviceType with
  | none => simp
  | some type => cases type <;> simp [routedPort]

end Service

/-! ## What the operations do to the maps -/

namespace ClusterNetwork

variable {network : ClusterNetwork}

/-- The network without a service. -/
structure Removed (network : ClusterNetwork) (service : Service) (n : ClusterNetwork) : Prop where
  byKey : ∀ key, n.servicesByKey.get key = if key = service.key then none else network.servicesByKey.get key
  byClusterIp : ∀ ip, n.servicesByClusterIp.get ip =
    if service.serviceClusterIP = some ip then none else network.servicesByClusterIp.get ip
  byNodePort : ∀ nodePort route, n.servicesByNodePort.get nodePort = some route ↔
    nodePort ∉ service.listedPorts ∧ network.servicesByNodePort.get nodePort = some route
  targets : ∀ key list, n.targetListsByServicePort.get key = some list ↔
    key ∉ service.ports.map service.servicePortKey ∧ network.targetListsByServicePort.get key = some list

theorem removed_unregisterService {«namespace» name : JsString} {service : Service}
    (h : network.servicesByKey.get (namespacedNameKey «namespace» name) = some service)
    (hkey : service.key = namespacedNameKey «namespace» name) :
    Removed network service (network.unregisterService «namespace» name) := by
  unfold unregisterService
  dsimp only
  rw [h]
  refine ⟨fun key => ?_, fun ip => ?_, fun nodePort route => ?_, fun key list => ?_⟩
  · rw [hkey]
    exact JsMap.get_delete _ _ _
  · dsimp only
    cases hip : service.serviceClusterIP with
    | none => simp
    | some clusterIP =>
      dsimp only
      rw [JsMap.get_delete]
      simp [eq_comm]
  · exact JsMap.get_foldl_delete
  · dsimp only
    rw [← JsMap.get_foldl_delete, List.foldl_map]

theorem unregisterService_of_none {«namespace» name : JsString}
    (h : network.servicesByKey.get (namespacedNameKey «namespace» name) = none) :
    network.unregisterService «namespace» name = network := by
  rw [unregisterService, h]

/-- The network with the ports of a service. -/
structure WithPorts (network : ClusterNetwork) (service : Service) (type : ServiceType)
    (ports : List ServicePort) (n : ClusterNetwork) : Prop where
  byKey : n.servicesByKey = network.servicesByKey
  byClusterIp : n.servicesByClusterIp = network.servicesByClusterIp
  byNodePort : ∀ nodePort route, n.servicesByNodePort.get nodePort = some route ↔
    (∃ port ∈ ports, Service.routedPort type port = some nodePort ∧ route = { service, port })
      ∨ network.servicesByNodePort.get nodePort = some route
  targets : ∀ key list, n.targetListsByServicePort.get key = some list ↔
    key ∈ ports.map service.servicePortKey ∧ list = {}
      ∨ key ∉ ports.map service.servicePortKey ∧ network.targetListsByServicePort.get key = some list

theorem registerPorts_cons_of_none {service : Service} {type : ServiceType} {port : ServicePort}
    {ports : List ServicePort} (h : Service.routedPort type port = none) :
    registerPorts service type (port :: ports) network
      = registerPorts service type ports (network.addTargetList service port) := by
  rw [registerPorts]
  unfold Service.routedPort at h
  cases type <;> cases hport : port.nodePort <;> simp_all

theorem registerPorts_cons_of_some {service : Service} {type : ServiceType} {port : ServicePort}
    {ports : List ServicePort} {nodePort : Nat} (h : Service.routedPort type port = some nodePort)
    (hfree : network.servicesByNodePort.get nodePort = none) :
    registerPorts service type (port :: ports) network = registerPorts service type ports
      ((network.addTargetList service port).addNodePortRoute nodePort { service, port }) := by
  have hcontains : (network.addTargetList service port).servicesByNodePort.contains nodePort = false := by
    rw [Bool.eq_false_iff, Ne, JsMap.contains_iff]
    rintro ⟨route, hroute⟩
    rw [show (network.addTargetList service port).servicesByNodePort.get nodePort = none from hfree] at hroute
    cases hroute
  unfold Service.routedPort at h
  split at h
  · rename_i htype
    subst htype
    simp [registerPorts, h, hcontains]
  · cases h

/-- By induction on the ports: none of them finds its node port taken. -/
theorem registerPorts_ok (service : Service) (type : ServiceType) (ports : List ServicePort) :
    ∀ {network : ClusterNetwork}, (ports.filterMap (Service.routedPort type)).Nodup →
    (∀ nodePort ∈ ports.filterMap (Service.routedPort type),
      network.servicesByNodePort.get nodePort = none) →
    ∃ n, registerPorts service type ports network = (n, .ok ()) ∧ WithPorts network service type ports n := by
  induction ports with
  | nil =>
    intro network _ _
    exact ⟨network, rfl, rfl, rfl, fun nodePort route => by simp, fun key list => by simp⟩
  | cons port ports ih =>
    intro network hnodup hfree
    have htargets : ∀ {n : ClusterNetwork} {key : JsString} {list : TargetList},
        (n.targetListsByServicePort.get key = some list ↔ key ∈ ports.map service.servicePortKey ∧ list = {}
          ∨ key ∉ ports.map service.servicePortKey
            ∧ (network.addTargetList service port).targetListsByServicePort.get key = some list) →
        (n.targetListsByServicePort.get key = some list ↔
          key ∈ (port :: ports).map service.servicePortKey ∧ list = {}
          ∨ key ∉ (port :: ports).map service.servicePortKey
            ∧ network.targetListsByServicePort.get key = some list) := by
      intro n key list h
      rw [h, addTargetList, JsMap.get_set]
      by_cases hkey : key = service.servicePortKey port
      · have hswap : some ({} : TargetList) = some list ↔ list = {} := by simp [eq_comm]
        rw [if_pos hkey, hswap, List.map_cons, List.mem_cons]
        tauto
      · simp [hkey]
    cases hrouted : Service.routedPort type port with
    | none =>
      rw [List.filterMap_cons_none hrouted] at hnodup hfree
      rw [registerPorts_cons_of_none hrouted]
      obtain ⟨n, hn, hwith⟩ := @ih (network.addTargetList service port) hnodup hfree
      refine ⟨n, hn, hwith.byKey, hwith.byClusterIp, fun nodePort route => ?_,
        fun key list => htargets (hwith.targets key list)⟩
      rw [hwith.byNodePort]
      simp [hrouted, addTargetList]
    | some nodePort =>
      rw [List.filterMap_cons_some hrouted] at hnodup hfree
      rw [List.nodup_cons] at hnodup
      rw [registerPorts_cons_of_some hrouted (hfree nodePort List.mem_cons_self)]
      obtain ⟨n, hn, hwith⟩ := @ih ((network.addTargetList service port).addNodePortRoute nodePort
        { service, port }) hnodup.2 (fun p hp => by
          have hne : p ≠ nodePort := fun heq => hnodup.1 (heq ▸ hp)
          exact (JsMap.get_set_of_ne _ _ hne).trans (hfree p (List.mem_cons_of_mem _ hp)))
      refine ⟨n, hn, hwith.byKey, hwith.byClusterIp, fun p route => ?_,
        fun key list => htargets (hwith.targets key list)⟩
      rw [hwith.byNodePort]
      simp only [addNodePortRoute, addTargetList, JsMap.get_set]
      by_cases hp : p = nodePort
      · subst hp
        have hnone : network.servicesByNodePort.get p = none := hfree p List.mem_cons_self
        simp [hrouted, hnone, eq_comm, or_comm]
      · simp [hrouted, hp, Ne.symm hp]

/-! ## Routes -/

def Registered (network : ClusterNetwork) (service : Service) : Prop :=
  network.servicesByKey.get service.key = some service

/-- The routes are those of the registered services. -/
structure Routed (network : ClusterNetwork) : Prop where
  keyed : ∀ key service, network.servicesByKey.get key = some service → key = service.key
  named : ∀ service, network.Registered service → slash ∉ service.serviceNamespace
  byClusterIp : ∀ ip service, network.servicesByClusterIp.get ip = some service ↔
    network.Registered service ∧ service.serviceClusterIP = some ip
  byNodePort : ∀ nodePort route, network.servicesByNodePort.get nodePort = some route ↔
    network.Registered route.service ∧ route.service.serviceType = some .nodePort
      ∧ route.port ∈ route.service.ports ∧ route.port.nodePort = some nodePort

/-- The node ports that the service lists lead to no other service. -/
def Releases (network : ClusterNetwork) (service : Service) : Prop :=
  ∀ other, network.Registered other → other.key ≠ service.key →
    ∀ nodePort ∈ service.listedPorts, nodePort ∉ other.nodePorts

theorem Registered.eq {service service' : Service} (h : network.Registered service)
    (h' : network.Registered service') (hkey : service.key = service'.key) : service = service' := by
  rw [Registered, hkey] at h
  rw [Registered, h] at h'
  exact Option.some.inj h'

theorem mem_nodePorts_of_route (hrouted : network.Routed) {nodePort : Nat} {route : NodePortRoute}
    (h : network.servicesByNodePort.get nodePort = some route) :
    network.Registered route.service ∧ nodePort ∈ route.service.nodePorts := by
  obtain ⟨hregistered, htype, hport, hnodePort⟩ := (hrouted.byNodePort nodePort route).mp h
  exact ⟨hregistered, Service.mem_nodePorts.mpr ⟨htype, route.port, hport, hnodePort⟩⟩

theorem Removed.registered {service : Service} {n : ClusterNetwork} (h : Removed network service n)
    (other : Service) : n.Registered other ↔ network.Registered other ∧ other.key ≠ service.key := by
  rw [Registered, h.byKey]
  by_cases hkey : other.key = service.key <;> simp [hkey, Registered]

theorem Removed.routed {service : Service} {n : ClusterNetwork} (h : Removed network service n)
    (hrouted : network.Routed) (hregistered : network.Registered service)
    (hreleases : network.Releases service) : n.Routed := by
  refine ⟨fun key other hother => ?_, fun other hother => ?_, fun ip other => ?_,
    fun nodePort route => ?_⟩
  · rw [h.byKey] at hother
    split at hother
    · cases hother
    · exact hrouted.keyed key other hother
  · exact hrouted.named other ((h.registered other).mp hother).1
  · rw [h.byClusterIp, h.registered]
    constructor
    · intro hother
      split at hother
      · cases hother
      · rename_i hne
        obtain ⟨hreg, hip⟩ := (hrouted.byClusterIp ip other).mp hother
        refine ⟨⟨hreg, fun hkey => hne ?_⟩, hip⟩
        rw [← hreg.eq hregistered hkey, hip]
    · rintro ⟨⟨hreg, hkey⟩, hip⟩
      have hother := (hrouted.byClusterIp ip other).mpr ⟨hreg, hip⟩
      rw [if_neg, hother]
      intro hservice
      have hmine := (hrouted.byClusterIp ip service).mpr ⟨hregistered, hservice⟩
      rw [hother] at hmine
      cases hmine
      exact hkey rfl
  · rw [h.byNodePort, h.registered]
    constructor
    · rintro ⟨hlisted, hroute⟩
      obtain ⟨hreg, hrest⟩ := (hrouted.byNodePort nodePort route).mp hroute
      refine ⟨⟨hreg, fun hkey => hlisted ?_⟩, hrest⟩
      rw [← hreg.eq hregistered hkey]
      exact Service.nodePorts_subset_listedPorts _ (mem_nodePorts_of_route hrouted hroute).2
    · rintro ⟨⟨hreg, hkey⟩, hrest⟩
      have hroute := (hrouted.byNodePort nodePort route).mpr ⟨hreg, hrest⟩
      exact ⟨fun hlisted => hreleases _ hreg hkey nodePort hlisted
        (mem_nodePorts_of_route hrouted hroute).2, hroute⟩

/-- The maps with a new service, before its ports. -/
def addService (network : ClusterNetwork) (service : Service) (clusterIP : JsString) : ClusterNetwork :=
  { network with
    servicesByKey := network.servicesByKey.set service.key service
    servicesByClusterIp := network.servicesByClusterIp.set clusterIP service }

/-- The service meets no other on its cluster IP or its node ports. -/
structure Unmet (network : ClusterNetwork) (service other : Service) : Prop where
  clusterIP : other.serviceClusterIP ≠ service.serviceClusterIP
  nodePorts : ∀ nodePort ∈ service.nodePorts, nodePort ∉ other.nodePorts

theorem WithPorts.registered {service : Service} {clusterIP : JsString} {type : ServiceType}
    {n : ClusterNetwork} (h : WithPorts (network.addService service clusterIP) service type service.ports n)
    (hnew : ∀ other, network.Registered other → other.key ≠ service.key) (other : Service) :
    n.Registered other ↔ other = service ∨ network.Registered other := by
  rw [Registered, h.byKey, addService, JsMap.get_set]
  split
  · rename_i hkey
    constructor
    · intro heq
      exact .inl (Option.some.inj heq).symm
    · rintro (rfl | hreg)
      · rfl
      · exact absurd hkey (hnew other hreg)
  · rename_i hkey
    constructor
    · exact .inr
    · rintro (rfl | hreg)
      · exact absurd rfl hkey
      · exact hreg

theorem WithPorts.routed {service : Service} {clusterIP : JsString} {type : ServiceType} {n : ClusterNetwork}
    (h : WithPorts (network.addService service clusterIP) service type service.ports n)
    (hrouted : network.Routed) (hnamed : slash ∉ service.serviceNamespace)
    (hip : service.serviceClusterIP = some clusterIP) (htype : service.serviceType = some type)
    (hnew : ∀ other, network.Registered other → other.key ≠ service.key)
    (hunmet : ∀ other, network.Registered other → Unmet network service other) : n.Routed := by
  refine ⟨fun key other hother => ?_, fun other hother => ?_, fun ip other => ?_,
    fun nodePort route => ?_⟩
  · rw [h.byKey, addService, JsMap.get_set] at hother
    split at hother
    · rename_i hkey
      cases hother
      exact hkey
    · exact hrouted.keyed key other hother
  · rcases (h.registered hnew other).mp hother with rfl | hreg
    · exact hnamed
    · exact hrouted.named other hreg
  · rw [h.byClusterIp, h.registered hnew, addService, JsMap.get_set]
    split
    · rename_i heq
      subst heq
      constructor
      · intro hother
        cases hother
        exact ⟨.inl rfl, hip⟩
      · rintro ⟨rfl | hreg, hother⟩
        · rfl
        · exact absurd (hother.trans hip.symm) (hunmet other hreg).clusterIP
    · rename_i hne
      rw [hrouted.byClusterIp]
      constructor
      · rintro ⟨hreg, hother⟩
        exact ⟨.inr hreg, hother⟩
      · rintro ⟨rfl | hreg, hother⟩
        · rw [hip] at hother
          exact absurd (Option.some.inj hother).symm hne
        · exact ⟨hreg, hother⟩
  · have hsame : (network.addService service clusterIP).servicesByNodePort = network.servicesByNodePort := rfl
    rw [h.byNodePort, hsame, hrouted.byNodePort, h.registered hnew]
    constructor
    · rintro (⟨port, hport, hroutedPort, rfl⟩ | ⟨hreg, hrest⟩)
      · unfold Service.routedPort at hroutedPort
        split at hroutedPort
        · rename_i hnodePort
          exact ⟨.inl rfl, htype.trans (congrArg some hnodePort), hport, hroutedPort⟩
        · cases hroutedPort
      · exact ⟨.inr hreg, hrest⟩
    · rintro ⟨rfl | hreg, hroutetype, hport, hnodePort⟩
      · rw [htype] at hroutetype
        cases hroutetype
        refine .inl ⟨route.port, hport, ?_, rfl⟩
        rw [Service.routedPort, if_pos rfl, hnodePort]
      · exact .inr ⟨hreg, hroutetype, hport, hnodePort⟩

/-! ## Operations -/

/-- The service passes the checks that `registerService` makes before it
changes anything. -/
structure Registrable (service : Service) : Prop where
  named : service.serviceName ≠ []
  clusterIP : service.serviceClusterIP ≠ none
  type : service.serviceType ≠ none

theorem registerService_of_not (network : ClusterNetwork) {service : Service} (h : ¬ Registrable service) :
    ∃ e, network.registerService service = (network, .error e) := by
  unfold registerService
  dsimp only
  split
  · exact ⟨_, rfl⟩
  · rename_i hname
    split
    · exact ⟨_, rfl⟩
    · rename_i clusterIP hip
      split
      · exact ⟨_, rfl⟩
      · rename_i type htype
        refine absurd ⟨fun hnil => hname ?_, ?_, ?_⟩ h
        · rw [hnil]
          rfl
        · simp [hip]
        · simp [htype]

theorem registerService_of (network : ClusterNetwork) {service : Service} (h : Registrable service) :
    ∃ clusterIP type, service.serviceClusterIP = some clusterIP ∧ service.serviceType = some type
      ∧ network.registerService service = registerPorts service type service.ports
        ((network.unregisterService service.serviceNamespace service.serviceName).addService
          service clusterIP) := by
  obtain ⟨clusterIP, hip⟩ := Option.ne_none_iff_exists'.mp h.clusterIP
  obtain ⟨type, htype⟩ := Option.ne_none_iff_exists'.mp h.type
  refine ⟨clusterIP, type, hip, htype, ?_⟩
  have hname : service.serviceName.isEmpty = false := List.isEmpty_eq_false_iff.mpr h.named
  simp only [registerService, hname, hip, htype, addService, Service.key]
  rfl

/-- The services under other names keep their registration and their targets. -/
structure Apart (network : ClusterNetwork) («namespace» name : JsString) (n : ClusterNetwork) :
    Prop where
  registered : ∀ other : Service, slash ∉ other.serviceNamespace →
    (other.serviceNamespace, other.serviceName) ≠ («namespace», name) →
    (n.Registered other ↔ network.Registered other)
  targets : ∀ namespace' name' port, slash ∉ namespace' → (namespace', name') ≠ («namespace», name) →
    n.targetListsByServicePort.get (serviceRouteKey namespace' name' port)
      = network.targetListsByServicePort.get (serviceRouteKey namespace' name' port)

theorem Apart.refl (network : ClusterNetwork) («namespace» name : JsString) :
    Apart network «namespace» name network :=
  ⟨fun _ _ _ => Iff.rfl, fun _ _ _ _ _ => rfl⟩

theorem Apart.trans {«namespace» name : JsString} {n n' : ClusterNetwork}
    (h : Apart network «namespace» name n) (h' : Apart n «namespace» name n') :
    Apart network «namespace» name n' :=
  ⟨fun other hslash hne => (h'.registered other hslash hne).trans (h.registered other hslash hne),
    fun namespace' name' port hslash hne =>
      (h'.targets namespace' name' port hslash hne).trans (h.targets namespace' name' port hslash hne)⟩

theorem routeKey_inj {«namespace» name namespace' name' : JsString} {port port' : Nat}
    (h : slash ∉ «namespace») (h' : slash ∉ namespace')
    (heq : serviceRouteKey «namespace» name port = serviceRouteKey namespace' name' port') :
    («namespace», name) = (namespace', name') := by
  obtain ⟨hnamespace, hname⟩ := namespacedNameKey_inj h h' (append_port_inj heq).1
  rw [hnamespace, hname]

/-- The keys of a service's ports are not those of a service under another
name. -/
theorem routeKey_not_mem {service : Service} {«namespace» name : JsString} (port : Nat)
    (ports : List ServicePort) (h : slash ∉ «namespace») (hservice : slash ∉ service.serviceNamespace)
    (hne : («namespace», name) ≠ (service.serviceNamespace, service.serviceName)) :
    serviceRouteKey «namespace» name port ∉ ports.map service.servicePortKey := by
  intro hmem
  obtain ⟨p, _, hp⟩ := List.mem_map.mp hmem
  have hkey : serviceRouteKey service.serviceNamespace service.serviceName p.port
      = serviceRouteKey «namespace» name port := hp
  exact hne (routeKey_inj hservice h hkey).symm

theorem key_ne {service other : Service} (h : slash ∉ other.serviceNamespace)
    (hservice : slash ∉ service.serviceNamespace)
    (hne : (other.serviceNamespace, other.serviceName)
      ≠ (service.serviceNamespace, service.serviceName)) : other.key ≠ service.key := by
  intro hkey
  obtain ⟨hnamespace, hname⟩ := namespacedNameKey_inj h hservice hkey
  exact hne (by rw [hnamespace, hname])

theorem Removed.apart {service : Service} {n : ClusterNetwork} (h : Removed network service n)
    (hslash : slash ∉ service.serviceNamespace) :
    Apart network service.serviceNamespace service.serviceName n where
  registered other hother hne := by
    rw [h.registered]
    exact and_iff_left (key_ne hother hslash hne)
  targets namespace' name' port hnamespace hne := by
    refine Option.ext fun list => ?_
    rw [h.targets]
    exact and_iff_right (routeKey_not_mem port service.ports hnamespace hslash hne)

theorem WithPorts.apart {service : Service} {clusterIP : JsString} {type : ServiceType}
    {n : ClusterNetwork} (h : WithPorts (network.addService service clusterIP) service type service.ports n)
    (hslash : slash ∉ service.serviceNamespace) :
    Apart network service.serviceNamespace service.serviceName n where
  registered other hother hne := by
    rw [Registered, h.byKey, addService, JsMap.get_set, if_neg (key_ne hother hslash hne), Registered]
  targets namespace' name' port hnamespace hne := by
    refine Option.ext fun list => ?_
    rw [h.targets]
    have hnot := routeKey_not_mem port service.ports hnamespace hslash hne
    simp [hnot, addService]

/-- Without the service that is under a name, if there is one. -/
theorem unregisterService_routed {«namespace» : JsString} (name : JsString) (hrouted : network.Routed)
    (hslash : slash ∉ «namespace»)
    (hreleases : ∀ service, network.Registered service →
      service.key = namespacedNameKey «namespace» name → network.Releases service) :
    (network.unregisterService «namespace» name).Routed
      ∧ Apart network «namespace» name (network.unregisterService «namespace» name)
      ∧ ∀ other, (network.unregisterService «namespace» name).Registered other ↔
        network.Registered other ∧ other.key ≠ namespacedNameKey «namespace» name := by
  cases hget : network.servicesByKey.get (namespacedNameKey «namespace» name) with
  | none =>
    rw [unregisterService_of_none hget]
    refine ⟨hrouted, Apart.refl _ _ _, fun other => ?_⟩
    refine ⟨fun hother => ⟨hother, fun hkey => ?_⟩, fun hother => hother.1⟩
    rw [Registered, hkey, hget] at hother
    cases hother
  | some service =>
    have hkey : service.key = namespacedNameKey «namespace» name := (hrouted.keyed _ _ hget).symm
    have hregistered : network.Registered service := by
      rw [Registered, hkey]
      exact hget
    have hremoved := removed_unregisterService hget hkey
    have hnamed := hrouted.named service hregistered
    obtain ⟨hnamespace, hname⟩ := namespacedNameKey_inj hnamed hslash hkey
    refine ⟨hremoved.routed hrouted hregistered (hreleases service hregistered hkey), ?_, fun other => ?_⟩
    · have hapart := hremoved.apart hnamed
      rw [hnamespace, hname] at hapart
      exact hapart
    · rw [hremoved.registered, hkey]

end ClusterNetwork

/-! ## Runs -/

inductive ServiceCall where
  | registerService (service : Service)
  | setServiceTargets («namespace» name : JsString) (port : Nat) (targets : List JsString)
  | unregisterService («namespace» name : JsString)

namespace ServiceCall

def exec (network : ClusterNetwork) : ServiceCall → ClusterNetwork × Except NetworkError Unit
  | registerService service => network.registerService service
  | setServiceTargets «namespace» name port targets =>
    (network.setServiceTargets «namespace» name port targets, .ok ())
  | unregisterService «namespace» name => (network.unregisterService «namespace» name, .ok ())

/-- The namespace and name of the service that the call is about. -/
def subject : ServiceCall → JsString × JsString
  | registerService service => (service.serviceNamespace, service.serviceName)
  | setServiceTargets «namespace» name _ _ => («namespace», name)
  | unregisterService «namespace» name => («namespace», name)

end ServiceCall

/-- A network without services, whatever else is in it. -/
structure Serviceless (network : ClusterNetwork) : Prop where
  byKey : network.servicesByKey = .empty
  byClusterIp : network.servicesByClusterIp = .empty
  byNodePort : network.servicesByNodePort = .empty
  targets : network.targetListsByServicePort = .empty

/-- The calls on the services of a network. -/
def serviceSystem : System ClusterNetwork ServiceCall where
  init := Serviceless
  step network call network' := network' = (call.exec network).1

namespace ClusterNetwork

variable {network : ClusterNetwork}

/-- The service finds its cluster IP and its node ports free, each of which
it lists once. -/
structure Free (network : ClusterNetwork) (service : Service) : Prop where
  nodup : service.nodePorts.Nodup
  unmet : ∀ other, network.Registered other → other.key ≠ service.key → Unmet network service other

/-- The conditions under which a call does what it is for. -/
structure Clear (network : ClusterNetwork) (call : ServiceCall) : Prop where
  named : slash ∉ call.subject.1
  releases : ∀ «namespace» name, call = .unregisterService «namespace» name →
    ∀ service, network.Registered service → service.key = namespacedNameKey «namespace» name →
      network.Releases service
  replaces : ∀ service, call = .registerService service → Registrable service →
    ∀ old, network.Registered old → old.key = service.key → network.Releases old
  free : ∀ service, call = .registerService service → Registrable service → network.Free service

/-- What a call does: the routes stay those of the registered services, a
call that throws changes nothing, and the others are left alone. -/
structure Kept (network : ClusterNetwork) (call : ServiceCall) : Prop where
  routed : (call.exec network).1.Routed
  thrown : ∀ e, (call.exec network).2 = .error e → (call.exec network).1 = network
  apart : Apart network call.subject.1 call.subject.2 (call.exec network).1

theorem Routed.serviceless (h : Serviceless network) : network.Routed := by
  have hnone : ∀ service, ¬ network.Registered service := by
    intro service hservice
    rw [Registered, h.byKey] at hservice
    cases hservice
  refine ⟨fun key service hget => ?_, fun service hservice => absurd hservice (hnone service),
    fun ip service => ?_, fun nodePort route => ?_⟩
  · rw [h.byKey] at hget
    cases hget
  · rw [h.byClusterIp]
    refine iff_of_false (fun hget => ?_) fun hservice => hnone service hservice.1
    cases hget
  · rw [h.byNodePort]
    refine iff_of_false (fun hget => ?_) fun hservice => hnone route.service hservice.1
    cases hget

/-- A service that finds its place free is registered whole. -/
theorem kept_registerService (hrouted : network.Routed) (service : Service)
    (hclear : network.Clear (.registerService service)) : network.Kept (.registerService service) := by
  by_cases hservice : Registrable service
  · obtain ⟨clusterIP, type, hip, htype, hexec⟩ := registerService_of network hservice
    have hslash : slash ∉ service.serviceNamespace := hclear.named
    have hfree := hclear.free service rfl hservice
    obtain ⟨hunregistered, hapart, hregistered⟩ := unregisterService_routed service.serviceName
      hrouted hslash (hclear.replaces service rfl hservice)
    have hunmet : ∀ other,
        (network.unregisterService service.serviceNamespace service.serviceName).Registered other →
        Unmet network service other := by
      intro other hother
      obtain ⟨hreg, hkey⟩ := (hregistered other).mp hother
      exact hfree.unmet other hreg hkey
    have hports : service.nodePorts = service.ports.filterMap (Service.routedPort type) := by
      rw [Service.nodePorts, htype]
    have hnone : ∀ nodePort ∈ service.ports.filterMap (Service.routedPort type),
        ((network.unregisterService service.serviceNamespace service.serviceName).addService
          service clusterIP).servicesByNodePort.get nodePort = none := by
      intro nodePort hmem
      rw [← hports] at hmem
      rw [Option.eq_none_iff_forall_ne_some]
      intro route hroute
      obtain ⟨hreg, hother⟩ := mem_nodePorts_of_route hunregistered hroute
      exact (hunmet _ hreg).nodePorts nodePort hmem hother
    obtain ⟨n, hn, hwith⟩ := registerPorts_ok service type service.ports
      (hports ▸ hfree.nodup) hnone
    have heq : (ServiceCall.registerService service).exec network = (n, .ok ()) := hexec.trans hn
    refine ⟨?_, fun e he => ?_, ?_⟩
    · rw [heq]
      exact hwith.routed hunregistered hslash hip htype
        (fun other hother => ((hregistered other).mp hother).2) fun other hother =>
          ⟨(hunmet other hother).clusterIP, (hunmet other hother).nodePorts⟩
    · rw [heq] at he
      cases he
    · rw [heq]
      exact hapart.trans (hwith.apart hslash)
  · obtain ⟨e, he⟩ := registerService_of_not network hservice
    have heq : ((ServiceCall.registerService service).exec network).1 = network := by
      rw [ServiceCall.exec, he]
    refine ⟨?_, fun _ _ => heq, ?_⟩
    · rw [heq]
      exact hrouted
    · rw [heq]
      exact Apart.refl _ _ _

theorem kept_setServiceTargets (hrouted : network.Routed) {«namespace» name : JsString} {port : Nat}
    {targets : List JsString} (hslash : slash ∉ «namespace») :
    network.Kept (.setServiceTargets «namespace» name port targets) := by
  refine ⟨⟨hrouted.keyed, hrouted.named, hrouted.byClusterIp, hrouted.byNodePort⟩, fun e he => ?_,
    fun _ _ _ => Iff.rfl, fun namespace' name' port' hnamespace hne => ?_⟩
  · cases he
  · exact JsMap.get_set_of_ne _ _ fun heq => hne (routeKey_inj hnamespace hslash heq)

theorem kept_unregisterService (hrouted : network.Routed) {«namespace» name : JsString}
    (hclear : network.Clear (.unregisterService «namespace» name)) :
    network.Kept (.unregisterService «namespace» name) := by
  obtain ⟨hunregistered, hapart, _⟩ := unregisterService_routed name hrouted hclear.named
    (hclear.releases «namespace» name rfl)
  refine ⟨hunregistered, fun e he => ?_, hapart⟩
  cases he

/-- One case for each call. -/
theorem Clear.kept (hrouted : network.Routed) {call : ServiceCall} (hclear : network.Clear call) :
    network.Kept call := by
  cases call with
  | registerService service => exact kept_registerService hrouted service hclear
  | setServiceTargets «namespace» name port targets => exact kept_setServiceTargets hrouted hclear.named
  | unregisterService «namespace» name => exact kept_unregisterService hrouted hclear

theorem routed_of_reach (h : (serviceSystem.guarded Clear).Reach network) : network.Routed := by
  refine h.invariant (fun n hn => ?_) fun n call n' _ hrouted hstep => ?_
  · exact Routed.serviceless hn
  · rw [hstep.1]
    exact (hstep.2.kept hrouted).routed

/-- The services in the chain of a route. -/
def services (chain : List NetworkHop) : List Service :=
  chain.filterMap fun hop => match hop with
    | .service service => some service
    | _ => none

theorem services_append (chain chain' : List NetworkHop) :
    services (chain ++ chain') = services chain ++ services chain' := List.filterMap_append

@[simp] theorem services_podHopForIP (ip : JsString) : services (network.podHopForIP ip) = [] := by
  unfold podHopForIP
  cases network.podsByIp.get ip <;> rfl

@[simp] theorem services_nodeHopForIP (ip : JsString) : services (network.nodeHopForIP ip) = [] := by
  unfold nodeHopForIP
  dsimp only
  generalize ((network.nodeNamesByIp.get ip).bind _ |>.filter _).bind _ = node
  cases node <;> rfl

theorem services_routeService {other : JsString → Option Int} {service : Service} {port : ServicePort}
    {chain : List NetworkHop} {route : NetworkRoute}
    (h : (network.routeService other service port chain).2 = .ok route) :
    services route.chain = services chain := by
  unfold routeService at h
  dsimp only at h
  cases hselected : (network.selectEndpoint other service port).2 with
  | error e =>
    rw [hselected] at h
    cases h
  | ok endpoint =>
    rw [hselected] at h
    cases h
    simp [services_append]

/-- The service that a request to an endpoint goes through. -/
theorem Routed.mem_services {other : JsString → Option Int} {endpoint : NetworkEndpoint}
    {route : NetworkRoute} (hrouted : network.Routed)
    (h : (network.routeFetchEndpoint other endpoint []).2 = .ok route) (service : Service) :
    service ∈ services route.chain ↔ network.Registered service ∧
      if network.nodeNamesByIp.contains endpoint.ip then endpoint.port ∈ service.nodePorts
      else service.serviceClusterIP = some endpoint.ip := by
  unfold routeFetchEndpoint at h
  split at h
  · rename_i hnode
    cases hget : network.servicesByNodePort.get endpoint.port with
    | none =>
      rw [hget] at h
      cases h
    | some nodePortRoute =>
      rw [hget] at h
      rw [services_routeService h, if_pos hnode]
      obtain ⟨hregistered, hmem⟩ := mem_nodePorts_of_route hrouted hget
      have hservices : services ([] ++ network.nodeHopForIP endpoint.ip ++ [.service nodePortRoute.service])
          = [nodePortRoute.service] := by
        rw [services_append, List.nil_append, services_nodeHopForIP]
        rfl
      rw [hservices, List.mem_singleton]
      constructor
      · rintro rfl
        exact ⟨hregistered, hmem⟩
      · rintro ⟨hservice, hport⟩
        obtain ⟨htype, port, hports, hnodePort⟩ := Service.mem_nodePorts.mp hport
        have hsame := (hrouted.byNodePort endpoint.port { service, port }).mpr
          ⟨hservice, htype, hports, hnodePort⟩
        rw [hget] at hsame
        cases hsame
        rfl
  · rename_i hnode
    rw [if_neg hnode, ← hrouted.byClusterIp]
    unfold routeEndpoint at h
    cases hget : network.servicesByClusterIp.get endpoint.ip with
    | none =>
      rw [hget] at h
      cases h
      simp
    | some registered =>
      rw [hget] at h
      dsimp only at h
      split at h
      · cases h
      · rw [services_routeService h]
        simp [services, eq_comm]

/-- What holds of the services of a network, and of every call that meets its
condition. -/
theorem routes_of_reach (h : (serviceSystem.guarded Clear).Reach network) :
    network.Routed ∧ (∀ call, network.Clear call → network.Kept call) ∧
      ∀ other endpoint route, (network.routeFetchEndpoint other endpoint []).2 = .ok route →
        ∀ service, service ∈ services route.chain ↔ network.Registered service ∧
          if network.nodeNamesByIp.contains endpoint.ip then endpoint.port ∈ service.nodePorts
          else service.serviceClusterIP = some endpoint.ip :=
  have hrouted := routed_of_reach h
  ⟨hrouted, fun _ hclear => hclear.kept hrouted, fun _ _ _ hroute => hrouted.mem_services hroute⟩

/-- A service of type NodePort. -/
def onNodePort (name clusterIP : JsString) (nodePort : Nat) : Service where
  name := some name
  spec := some {
    type := some (js "NodePort")
    clusterIP := some clusterIP
    ports := some [{ port := 80, nodePort := some nodePort }] }

theorem routes_of_registered :
    (serviceSystem.guarded Clear).Reach
      (({} : ClusterNetwork).registerService (onNodePort (js "a") (js "10.96.0.1") 30080)).1
    ∧ (({} : ClusterNetwork).registerService (onNodePort (js "a") (js "10.96.0.1") 30080)).1.Routed := by
  have hnone : ∀ service, ¬ ({} : ClusterNetwork).Registered service := by
    intro service hservice
    cases hservice
  have hclear : Clear {} (.registerService (onNodePort (js "a") (js "10.96.0.1") 30080)) := by
    refine ⟨by decide, fun _ _ hcall => ?_, fun _ _ _ old hold => absurd hold (hnone old),
      fun service hcall _ => ?_⟩
    · cases hcall
    · cases hcall
      exact ⟨by decide, fun other hother => absurd hother (hnone other)⟩
  have hstart : (serviceSystem.guarded Clear).Reach {} := .start ⟨rfl, rfl, rfl, rfl⟩
  have hreach := hstart.step ⟨rfl, hclear⟩
  exact ⟨hreach, (routes_of_reach hreach).1⟩

/-- The second service finds its node port taken when its cluster IP leads to
it already. -/
theorem routed_of_thrown :
    ∃ network, serviceSystem.Reach network ∧
      ∃ service e ip, (network.registerService service).2 = .error e
        ∧ network.servicesByClusterIp.get ip = none
        ∧ (network.registerService service).1.servicesByClusterIp.get ip = some service := by
  refine ⟨(({} : ClusterNetwork).registerService (onNodePort (js "a") (js "10.96.0.1") 30080)).1,
    .step (.start ⟨rfl, rfl, rfl, rfl⟩) (l := .registerService _) rfl,
    onNodePort (js "b") (js "10.96.0.2") 30080, js "NodePort 30080 is already registered",
    js "10.96.0.2", ?_, ?_, ?_⟩
  · decide
  · decide
  · decide

end ClusterNetwork

end Webernetes.Cni
