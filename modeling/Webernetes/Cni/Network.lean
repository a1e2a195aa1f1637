/-
Webernetes.Cni.Network — the network of a cluster: its pod sandboxes and
their addresses, its listeners, and its services and their targets.

An operation that throws may have changed the network before, so it gives the
network and what it throws. The handler of a listener is a number: handlers
are compared by identity and not called. A sandbox has the registration that
`setupPodSandbox` gave it, and its address is read from there.
-/
import Webernetes.Js.OrderedMap
import Webernetes.Net.Cidr

namespace Webernetes.Cni

open Js Net

/-! ## Resources -/

structure DnsConfig where
  servers : List JsString
  searches : List JsString := []
  options : List JsString := []
  deriving DecidableEq

structure PodSandbox where
  id : JsString
  uid : JsString
  dnsConfig : Option DnsConfig := none
  deriving DecidableEq

/-- A sandbox with its registration. -/
structure PodSandboxInstance extends PodSandbox where
  ip : JsString
  deriving DecidableEq

structure ServicePort where
  name : Option JsString := none
  port : Nat
  nodePort : Option Nat := none
  deriving DecidableEq

structure ServiceSpec where
  type : Option JsString := none
  clusterIP : Option JsString := none
  ports : Option (List ServicePort) := none
  deriving DecidableEq

/-- A `V1Service`, with its `metadata` in front. -/
structure Service where
  name : Option JsString := none
  «namespace» : Option JsString := none
  spec : Option ServiceSpec := none
  deriving DecidableEq

structure Node where
  name : Option JsString := none
  deriving DecidableEq

abbrev NetworkError := JsString

abbrev Handler := Nat

/-- What a listener was bound as. -/
structure Listener where
  ip : JsString
  port : Nat
  handler : Handler
  deriving DecidableEq

/-! ## Keys -/

def listenerKey (ip : JsString) (port : Nat) : JsString := ip ++ colon :: decimal port

def namespacedNameKey («namespace» name : JsString) : JsString := «namespace» ++ slash :: name

def serviceRouteKey («namespace» name : JsString) (port : Nat) : JsString :=
  namespacedNameKey «namespace» name ++ colon :: decimal port

/-- A separator that is in neither first part ends it. -/
theorem append_cons_inj {u : CodeUnit} {xs ys xs' ys' : JsString} (hx : u ∉ xs) (hx' : u ∉ xs')
    (h : xs ++ u :: ys = xs' ++ u :: ys') : xs = xs' ∧ ys = ys' := by
  have hsplit := congrArg (List.splitOn u) h
  rw [List.splitOn_append_cons_self_of_not_mem hx, List.splitOn_append_cons_self_of_not_mem hx'] at hsplit
  obtain rfl : xs = xs' := (List.cons.inj hsplit).1
  exact ⟨rfl, (List.cons.inj (List.append_cancel_left h)).2⟩

/-- A separator that is in neither last part starts it. -/
theorem append_cons_inj_last {u : CodeUnit} {xs ys xs' ys' : JsString} (hy : u ∉ ys) (hy' : u ∉ ys')
    (h : xs ++ u :: ys = xs' ++ u :: ys') : xs = xs' ∧ ys = ys' := by
  have hreverse : ys.reverse ++ u :: xs.reverse = ys'.reverse ++ u :: xs'.reverse := by
    simpa using congrArg List.reverse h
  obtain ⟨hys, hxs⟩ := append_cons_inj (by simpa using hy) (by simpa using hy') hreverse
  exact ⟨List.reverse_injective hxs, List.reverse_injective hys⟩

theorem namespacedNameKey_inj {«namespace» name namespace' name' : JsString}
    (h : slash ∉ «namespace») (h' : slash ∉ namespace')
    (heq : namespacedNameKey «namespace» name = namespacedNameKey namespace' name') :
    «namespace» = namespace' ∧ name = name' :=
  append_cons_inj h h' heq

/-- A port ends the key that it is in. -/
theorem append_port_inj {xs xs' : JsString} {port port' : Nat}
    (h : xs ++ colon :: decimal port = xs' ++ colon :: decimal port') : xs = xs' ∧ port = port' := by
  obtain ⟨hxs, hport⟩ := append_cons_inj_last (colon_not_mem_decimal _) (colon_not_mem_decimal _) h
  exact ⟨hxs, decimal_inj hport⟩

theorem listenerKey_inj {ip ip' : JsString} {port port' : Nat}
    (h : listenerKey ip port = listenerKey ip' port') : ip = ip' ∧ port = port' :=
  append_port_inj h

namespace Service

variable (service : Service)

def serviceNamespace : JsString := service.namespace.getD (js "default")

def serviceName : JsString := service.name.getD []

def servicePortKey (port : ServicePort) : JsString :=
  namespacedNameKey service.serviceNamespace service.serviceName ++ colon :: decimal port.port

/-- The key of the service itself. -/
def key : JsString := namespacedNameKey service.serviceNamespace service.serviceName

def ports : List ServicePort := (service.spec.bind (·.ports)).getD []

/-- `service.spec?.clusterIP`, unless it is empty or `"None"`. -/
def serviceClusterIP : Option JsString :=
  (service.spec.bind (·.clusterIP)).filter fun clusterIP => !clusterIP.isEmpty && clusterIP != js "None"

end Service

inductive ServiceType where
  | clusterIP
  | nodePort
  deriving DecidableEq

def Service.serviceType (service : Service) : Option ServiceType :=
  let type := (service.spec.bind (·.type)).getD (js "ClusterIP")
  if type = js "ClusterIP" then some .clusterIP
  else if type = js "NodePort" then some .nodePort
  else none

/-! ## Targets -/

structure TargetList where
  targets : List JsString := []
  roundRobinIndex : Nat := 0
  deriving DecidableEq

namespace TargetList

def setTargets (list : TargetList) (targets : List JsString) : TargetList where
  targets
  roundRobinIndex := if targets.length = 0 then 0 else list.roundRobinIndex % targets.length

def next (list : TargetList) : Option JsString × TargetList :=
  if list.targets.length = 0 then (none, list)
  else (list.targets[list.roundRobinIndex]?,
    { list with roundRobinIndex := (list.roundRobinIndex + 1) % list.targets.length })

end TargetList

/-! ## The network -/

structure PodCIDRAllocator where
  cidr : CIDR
  cursor : Option JsString := none

structure NodePortRoute where
  service : Service
  port : ServicePort
  deriving DecidableEq

structure ClusterNetwork where
  podIpAllocators : JsMap JsString PodCIDRAllocator := .empty
  podsBySandboxId : JsMap JsString PodSandboxInstance := .empty
  podsByIp : JsMap JsString PodSandboxInstance := .empty
  podDnsConfigsByUid : JsMap JsString DnsConfig := .empty
  nodesByName : JsMap JsString Node := .empty
  nodeNamesByIp : JsMap JsString (JsSet JsString) := .empty
  httpListeners : JsMap JsString Handler := .empty
  dnsListeners : JsMap JsString Handler := .empty
  servicesByKey : JsMap JsString Service := .empty
  servicesByClusterIp : JsMap JsString Service := .empty
  servicesByNodePort : JsMap Nat NodePortRoute := .empty
  targetListsByServicePort : JsMap JsString TargetList := .empty

namespace ClusterNetwork

variable (network : ClusterNetwork)

/-! ### Sandboxes -/

/-- The loop over the addresses of the range: how many are left, the next of
them, and the candidate. -/
def searchPodIp (cidr : CIDR) : Nat → Nat → Option JsString → Option JsString
  | 0, _, _ => none
  | left + 1, value, candidate =>
    let selected := candidate.getD (cidr.formatValue value)
    if !network.podsByIp.contains selected then some selected
    else searchPodIp cidr left (value + 1) (cidr.addressAfter selected)

def podIpAllocator (other : JsString → Option Int) (podCIDR : JsString) :
    Except NetworkError PodCIDRAllocator :=
  match network.podIpAllocators.get podCIDR with
  | some existing => .ok existing
  | none => (CIDR.new other podCIDR).map fun cidr => { cidr }

/-- The allocator is kept, also where there is no free address. -/
def allocatePodIp (other : JsString → Option Int) (podCIDR : JsString) :
    ClusterNetwork × Except NetworkError JsString :=
  match network.podIpAllocator other podCIDR with
  | .error e => (network, .error e)
  | .ok allocator =>
    let candidate := match allocator.cursor with
      | some cursor => allocator.cidr.addressAfter cursor
      | none => allocator.cidr.firstAddress
    let setAllocator (allocator : PodCIDRAllocator) : ClusterNetwork :=
      { network with podIpAllocators := network.podIpAllocators.set podCIDR allocator }
    match network.searchPodIp allocator.cidr allocator.cidr.count allocator.cidr.usableFirst candidate with
    | some selected => (setAllocator { allocator with cursor := some selected }, .ok selected)
    | none => (setAllocator allocator, .error (js "no free pod IPs in " ++ podCIDR))

def setupPodSandbox (other : JsString → Option Int) (pod : PodSandbox) (podCIDR : JsString) :
    ClusterNetwork × Except NetworkError JsString :=
  if network.podsBySandboxId.contains pod.id then
    (network, .error (js "pod sandbox " ++ pod.id ++ js " is already registered"))
  else
    match network.allocatePodIp other podCIDR with
    | (network, .error e) => (network, .error e)
    | (network, .ok ip) =>
      let registered := { pod with ip }
      ({ network with
        podsBySandboxId := network.podsBySandboxId.set pod.id registered
        podsByIp := network.podsByIp.set ip registered
        podDnsConfigsByUid := match pod.dnsConfig with
          | some dnsConfig => network.podDnsConfigsByUid.set pod.uid dnsConfig
          | none => network.podDnsConfigsByUid }, .ok ip)

/-- The listeners whose keys do not start with the address. -/
def dropListeners (listeners : JsMap JsString Handler) (ip : JsString) : JsMap JsString Handler :=
  listeners.keys.foldl (fun listeners key =>
    if (ip ++ [colon]).isPrefixOf key then listeners.delete key else listeners) listeners

def unregisterPod (podSandboxId : JsString) : ClusterNetwork :=
  match network.podsBySandboxId.get podSandboxId with
  | none => network
  | some pod =>
    let podsBySandboxId := network.podsBySandboxId.delete podSandboxId
    { network with
      podsBySandboxId
      podsByIp := network.podsByIp.delete pod.ip
      podDnsConfigsByUid :=
        if !(podsBySandboxId.values.any fun candidate => candidate.uid = pod.uid) then
          network.podDnsConfigsByUid.delete pod.uid
        else network.podDnsConfigsByUid
      httpListeners := dropListeners network.httpListeners pod.ip
      dnsListeners := dropListeners network.dnsListeners pod.ip }

/-- What `bindHttp` and `bindDns` do to the listeners of their kind. -/
def bind (kind : JsString) (listeners : JsMap JsString Handler) (podSandboxId ip : JsString) (port : Nat)
    (handler : Handler) : Except NetworkError (JsMap JsString Handler × Listener) :=
  if !network.podsBySandboxId.contains podSandboxId then
    .error (js "pod sandbox " ++ podSandboxId ++ js " is not registered")
  else
    let key := listenerKey ip port
    if listeners.contains key then
      .error (kind ++ js " listener " ++ key ++ js " is already registered")
    else .ok (listeners.set key handler, { ip, port, handler })

def bindHttp (podSandboxId ip : JsString) (port : Nat) (handler : Handler) :
    Except NetworkError (ClusterNetwork × Listener) :=
  (network.bind (js "HTTP") network.httpListeners podSandboxId ip port handler).map
    fun (httpListeners, listener) => ({ network with httpListeners }, listener)

def bindDns (podSandboxId ip : JsString) (port : Nat) (handler : Handler) :
    Except NetworkError (ClusterNetwork × Listener) :=
  (network.bind (js "DNS") network.dnsListeners podSandboxId ip port handler).map
    fun (dnsListeners, listener) => ({ network with dnsListeners }, listener)

/-- The `close` of a listener: only while it is its handler that is bound. -/
def close (listeners : JsMap JsString Handler) (listener : Listener) : JsMap JsString Handler :=
  let key := listenerKey listener.ip listener.port
  if listeners.get key = some listener.handler then listeners.delete key else listeners

def closeHttp (listener : Listener) : ClusterNetwork :=
  { network with httpListeners := close network.httpListeners listener }

def closeDns (listener : Listener) : ClusterNetwork :=
  { network with dnsListeners := close network.dnsListeners listener }

/-! ### Services -/

def unregisterService («namespace» name : JsString) : ClusterNetwork :=
  let key := namespacedNameKey «namespace» name
  match network.servicesByKey.get key with
  | none => network
  | some service =>
    { network with
      servicesByKey := network.servicesByKey.delete key
      servicesByClusterIp := match service.serviceClusterIP with
        | some clusterIP => network.servicesByClusterIp.delete clusterIP
        | none => network.servicesByClusterIp
      targetListsByServicePort := service.ports.foldl (fun targetLists port =>
        targetLists.delete (service.servicePortKey port)) network.targetListsByServicePort
      servicesByNodePort :=
        (service.ports.filterMap (·.nodePort)).foldl JsMap.delete network.servicesByNodePort }

/-- `targetListsByServicePort.set(routeKey, new TargetList())`. -/
def addTargetList (service : Service) (port : ServicePort) : ClusterNetwork :=
  let key := service.servicePortKey port
  { network with targetListsByServicePort := network.targetListsByServicePort.set key {} }

def addNodePortRoute (nodePort : Nat) (route : NodePortRoute) : ClusterNetwork :=
  { network with servicesByNodePort := network.servicesByNodePort.set nodePort route }

/-- The loop over the ports of a service. -/
def registerPorts (service : Service) (type : ServiceType) :
    List ServicePort → ClusterNetwork → ClusterNetwork × Except NetworkError Unit
  | [], network => (network, .ok ())
  | port :: ports, network =>
    let network := network.addTargetList service port
    match type, port.nodePort with
    | .nodePort, some nodePort =>
      if network.servicesByNodePort.contains nodePort then
        (network, .error (js "NodePort " ++ decimal nodePort ++ js " is already registered"))
      else registerPorts service type ports (network.addNodePortRoute nodePort { service, port })
    | _, _ => registerPorts service type ports network

def registerService (service : Service) : ClusterNetwork × Except NetworkError Unit :=
  let name := service.serviceName
  let «namespace» := service.serviceNamespace
  if name.isEmpty then (network, .error (js "service must have metadata.name"))
  else
    match service.serviceClusterIP with
    | none => (network, .error (js "Service " ++ namespacedNameKey «namespace» name
        ++ js " must have a ClusterIP"))
    | some clusterIP =>
      match service.serviceType with
      | none => (network, .error (js "unsupported Service type "
          ++ (service.spec.bind (·.type)).getD (js "undefined")))
      | some type =>
        let network := network.unregisterService «namespace» name
        registerPorts service type service.ports { network with
          servicesByKey := network.servicesByKey.set (namespacedNameKey «namespace» name) service
          servicesByClusterIp := network.servicesByClusterIp.set clusterIP service }

def setServiceTargets («namespace» name : JsString) (port : Nat) (targets : List JsString) :
    ClusterNetwork :=
  let key := serviceRouteKey «namespace» name port
  let targetList := (network.targetListsByServicePort.get key).getD {}
  { network with targetListsByServicePort :=
      network.targetListsByServicePort.set key (targetList.setTargets targets) }

end ClusterNetwork

/-! ### Routes -/

structure NetworkEndpoint where
  ip : JsString
  port : Nat
  deriving DecidableEq

inductive NetworkHop where
  | pod (resource : PodSandboxInstance)
  | node (resource : Node)
  | service (resource : Service)
  deriving DecidableEq

structure NetworkRoute where
  endpoint : NetworkEndpoint
  chain : List NetworkHop
  deriving DecidableEq

def parseEndpointTarget (other : JsString → Option Int) (target : JsString) :
    Except NetworkError NetworkEndpoint :=
  match target.splitOn colon with
  | [ip, portValue] =>
    match number other portValue with
    | some port =>
      if ip.isEmpty ∨ port ≤ 0 ∨ 65535 < port then
        .error (js "invalid Service endpoint target " ++ target)
      else .ok { ip, port := port.toNat }
    | none => .error (js "invalid Service endpoint target " ++ target)
  | _ => .error (js "invalid Service endpoint target " ++ target)

namespace ClusterNetwork

variable (network : ClusterNetwork)

/-- The endpoint that is next in turn; the turn goes on where there is one. -/
def selectEndpoint (other : JsString → Option Int) (service : Service) (port : ServicePort) :
    ClusterNetwork × Except NetworkError NetworkEndpoint :=
  let key := service.servicePortKey port
  let noReady := js "Service " ++ namespacedNameKey service.serviceNamespace service.serviceName
    ++ js " has no ready endpoints"
  match network.targetListsByServicePort.get key with
  | none => (network, .error noReady)
  | some list =>
    let (target, list) := list.next
    let network := { network with targetListsByServicePort := network.targetListsByServicePort.set key list }
    match target with
    | none => (network, .error noReady)
    | some target =>
      if target.isEmpty then (network, .error noReady) else (network, parseEndpointTarget other target)

def podHopForIP (ip : JsString) : List NetworkHop := (network.podsByIp.get ip).toList.map .pod

def nodeHopForIP (ip : JsString) : List NetworkHop :=
  let nodeName := (network.nodeNamesByIp.get ip).bind (·.elems.head?)
  ((nodeName.filter (!·.isEmpty)).bind network.nodesByName.get).toList.map .node

/-- The rest of a route through a service. -/
def routeService (other : JsString → Option Int) (service : Service) (port : ServicePort)
    (chain : List NetworkHop) : ClusterNetwork × Except NetworkError NetworkRoute :=
  let (network, selected) := network.selectEndpoint other service port
  (network, selected.map fun endpoint => { endpoint, chain := chain ++ network.podHopForIP endpoint.ip })

def routeEndpoint (other : JsString → Option Int) (endpoint : NetworkEndpoint) (chain : List NetworkHop) :
    ClusterNetwork × Except NetworkError NetworkRoute :=
  match network.servicesByClusterIp.get endpoint.ip with
  | none => (network, .ok { endpoint, chain := chain ++ network.podHopForIP endpoint.ip })
  | some service =>
    match service.ports.find? (·.port = endpoint.port) with
    | none => (network, .error (js "Service "
        ++ namespacedNameKey service.serviceNamespace service.serviceName ++ js " has no port "
        ++ decimal endpoint.port))
    | some port => network.routeService other service port (chain ++ [.service service])

def routeFetchEndpoint (other : JsString → Option Int) (endpoint : NetworkEndpoint)
    (chain : List NetworkHop) : ClusterNetwork × Except NetworkError NetworkRoute :=
  if network.nodeNamesByIp.contains endpoint.ip then
    match network.servicesByNodePort.get endpoint.port with
    | none => (network, .error (js "no Service for NodePort " ++ decimal endpoint.port))
    | some route => network.routeService other route.service route.port
        (chain ++ network.nodeHopForIP endpoint.ip ++ [.service route.service])
  else network.routeEndpoint other endpoint chain

end ClusterNetwork

end Webernetes.Cni
