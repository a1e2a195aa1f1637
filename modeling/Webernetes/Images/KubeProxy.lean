/-
Webernetes.Images.KubeProxy — kube-proxy: what it keeps of the services and
endpoint slices, and the routes that it keeps in the network.

An event handler that throws leaves what it has done so far; what it throws is
for the informer. The labels of a slice are its only metadata that is read
besides its name and namespace. The protocol of a port is not read.
-/
import Webernetes.Cni.ServiceRoutes

namespace Webernetes.Images

open Js Net Cni

/-! ## Resources -/

structure EndpointPort where
  name : Option JsString := none
  port : Option Nat := none
  deriving DecidableEq

/-- An endpoint, with the `ready` of its `conditions`. -/
structure Endpoint where
  addresses : List JsString
  ready : Option Bool := none
  deriving DecidableEq

/-- A `V1EndpointSlice`, with its `metadata` in front. -/
structure EndpointSlice where
  name : Option JsString := none
  «namespace» : Option JsString := none
  labels : Option (JsMap JsString JsString) := none
  ports : Option (List EndpointPort) := none
  endpoints : List Endpoint := []

namespace EndpointSlice

variable (slice : EndpointSlice)

def sliceNamespace : JsString := slice.namespace.getD (js "default")

def endpointSliceKey : JsString := namespacedNameKey slice.sliceNamespace (slice.name.getD [])

/-- The label, where it is there and not empty. -/
def endpointSliceServiceName : Option JsString :=
  (slice.labels.bind (·.get (js "kubernetes.io/service-name"))).filter (!·.isEmpty)

/-- The key of the service that the slice is labelled with. -/
def ownerKey : Option JsString := slice.endpointSliceServiceName.map (namespacedNameKey slice.sliceNamespace)

end EndpointSlice

def isRoutableService (service : Service) : Bool :=
  service.serviceType.isSome
    && (service.spec.bind (·.clusterIP)).any fun clusterIP => clusterIP != js "None"

/-! ## Indexes -/

section Index

variable {κ : Type} [DecidableEq κ]

def addToIndex (index : JsMap κ (JsSet κ)) (ownerKey value : κ) : JsMap κ (JsSet κ) :=
  index.set ownerKey (((index.get ownerKey).getD .empty).add value)

def removeFromIndex (index : JsMap κ (JsSet κ)) (ownerKey value : κ) : JsMap κ (JsSet κ) :=
  match index.get ownerKey with
  | none => index
  | some values =>
    let values := values.delete value
    if values.size = 0 then index.delete ownerKey else index.set ownerKey values

/-- The values that are in the index under an owner. -/
def indexed (index : JsMap κ (JsSet κ)) (ownerKey : κ) : List κ :=
  ((index.get ownerKey).getD .empty).elems

theorem nodup_indexed (index : JsMap κ (JsSet κ)) (ownerKey : κ) : (indexed index ownerKey).Nodup :=
  JsSet.nodup _

theorem indexed_addToIndex_of_ne (index : JsMap κ (JsSet κ)) {ownerKey owner : κ} (value : κ)
    (h : owner ≠ ownerKey) : indexed (addToIndex index ownerKey value) owner = indexed index owner := by
  rw [indexed, addToIndex, JsMap.get_set_of_ne _ _ h, indexed]

theorem mem_indexed_addToIndex {index : JsMap κ (JsSet κ)} {ownerKey value k : κ} :
    k ∈ indexed (addToIndex index ownerKey value) ownerKey ↔ k = value ∨ k ∈ indexed index ownerKey := by
  rw [indexed, addToIndex, JsMap.get_set_self, Option.getD_some, JsSet.mem_add, indexed]

theorem indexed_removeFromIndex (index : JsMap κ (JsSet κ)) (ownerKey value owner : κ) :
    indexed (removeFromIndex index ownerKey value) owner =
      if owner = ownerKey then (indexed index owner).filter (· ≠ value) else indexed index owner := by
  unfold removeFromIndex
  split
  · rename_i hnone
    split
    · rename_i heq
      subst heq
      rw [indexed, hnone]
      rfl
    · rfl
  · rename_i values hvalues
    by_cases heq : owner = ownerKey
    · subst heq
      have hindexed : indexed index owner = values.elems := by
        rw [indexed, hvalues, Option.getD_some]
      rw [if_pos rfl, hindexed]
      dsimp only
      split
      · rename_i hsize
        rw [indexed, JsMap.get_delete, if_pos rfl]
        exact (List.length_eq_zero_iff.mp hsize).symm
      · rw [indexed, JsMap.get_set_self]
        rfl
    · rw [if_neg heq]
      dsimp only
      split
      · rw [indexed, JsMap.get_delete, if_neg heq, indexed]
      · rw [indexed, JsMap.get_set_of_ne _ _ heq, indexed]

end Index

/-! ## Event handlers -/

structure KubeProxy where
  services : JsMap JsString Service := .empty
  endpointSlices : JsMap JsString EndpointSlice := .empty
  endpointSliceKeysByService : JsMap JsString (JsSet JsString) := .empty

/-- The target for an endpoint, where it is ready and has an address. -/
def Endpoint.target (endpoint : Endpoint) : Option JsString :=
  if endpoint.ready = some false then none else endpoint.addresses.head?.filter (!·.isEmpty)

/-- `targets.push(...)` for a port of a slice. -/
def targetText (endpoint : NetworkEndpoint) : JsString := endpoint.ip ++ colon :: decimal endpoint.port

/-- The endpoints of a slice for the ports of a name. -/
def EndpointSlice.endpointsFor (slice : EndpointSlice) (portName : JsString) : List NetworkEndpoint :=
  (slice.ports.getD []).flatMap fun endpointPort =>
    if endpointPort.name.getD [] ≠ portName then []
    else match endpointPort.port with
      | none => []
      | some port => slice.endpoints.filterMap fun endpoint =>
        endpoint.target.map fun address => { ip := address, port }

def portName (port : ServicePort) : JsString := port.name.getD []

namespace KubeProxy

variable (proxy : KubeProxy)

def endpointSlicesForService (service : Service) : List EndpointSlice :=
  (indexed proxy.endpointSliceKeysByService service.key).filterMap proxy.endpointSlices.get

def targetsForServicePort (service : Service) (port : ServicePort) : List JsString :=
  ((proxy.endpointSlicesForService service).flatMap (·.endpointsFor (portName port))).map targetText

/-- The loop over the ports of a service. -/
def setTargets (service : Service) (network : ClusterNetwork) : ClusterNetwork :=
  service.ports.foldl (fun network port => network.setServiceTargets service.serviceNamespace
    service.serviceName port.port (proxy.targetsForServicePort service port)) network

def reconcileService (network : ClusterNetwork) (service : Service) :
    ClusterNetwork × Except NetworkError Unit :=
  let «namespace» := service.serviceNamespace
  let name := service.serviceName
  if name.isEmpty then (network, .ok ())
  else if !isRoutableService service then (network.unregisterService «namespace» name, .ok ())
  else
    match network.registerService service with
    | (network, .error e) => (network, .error e)
    | (network, .ok _) => (proxy.setTargets service network, .ok ())

def indexEndpointSlice (slice : EndpointSlice) : KubeProxy :=
  match slice.ownerKey with
  | none => proxy
  | some ownerKey =>
    let index := addToIndex proxy.endpointSliceKeysByService ownerKey slice.endpointSliceKey
    { proxy with endpointSliceKeysByService := index }

def unindexEndpointSlice (slice : EndpointSlice) : KubeProxy :=
  match slice.ownerKey with
  | none => proxy
  | some ownerKey =>
    let index := removeFromIndex proxy.endpointSliceKeysByService ownerKey slice.endpointSliceKey
    { proxy with endpointSliceKeysByService := index }

def reconcileServiceForEndpointSlice (network : ClusterNetwork) (slice : EndpointSlice) :
    ClusterNetwork × Except NetworkError Unit :=
  match slice.ownerKey.bind proxy.services.get with
  | none => (network, .ok ())
  | some service => proxy.reconcileService network service

end KubeProxy

/-- kube-proxy and the network that it routes. -/
structure Routing where
  proxy : KubeProxy := {}
  network : ClusterNetwork := {}

namespace Routing

variable (s : Routing)

def upsertService (service : Service) : Routing × Except NetworkError Unit :=
  let proxy : KubeProxy := { s.proxy with services := s.proxy.services.set service.key service }
  let (network, result) := proxy.reconcileService s.network service
  ({ proxy, network }, result)

def deleteService (service : Service) : Routing :=
  if service.serviceName.isEmpty then s
  else
    { proxy := { s.proxy with services := s.proxy.services.delete service.key }
      network := s.network.unregisterService service.serviceNamespace service.serviceName }

def upsertEndpointSlice (slice : EndpointSlice) : Routing × Except NetworkError Unit :=
  let key := slice.endpointSliceKey
  let proxy := match s.proxy.endpointSlices.get key with
    | some previous => s.proxy.unindexEndpointSlice previous
    | none => s.proxy
  let proxy : KubeProxy := { proxy with endpointSlices := proxy.endpointSlices.set key slice }
  let proxy := proxy.indexEndpointSlice slice
  let (network, result) := proxy.reconcileServiceForEndpointSlice s.network slice
  ({ proxy, network }, result)

def deleteEndpointSlice (slice : EndpointSlice) : Routing × Except NetworkError Unit :=
  let key := slice.endpointSliceKey
  let stored := (s.proxy.endpointSlices.get key).getD slice
  let proxy := s.proxy.unindexEndpointSlice stored
  let proxy : KubeProxy := { proxy with endpointSlices := proxy.endpointSlices.delete key }
  let (network, result) := proxy.reconcileServiceForEndpointSlice s.network stored
  ({ proxy, network }, result)

end Routing

/-- What the informers deliver. -/
inductive ProxyEvent where
  | upsertService (service : Service)
  | deleteService (service : Service)
  | upsertEndpointSlice (slice : EndpointSlice)
  | deleteEndpointSlice (slice : EndpointSlice)

def Routing.handle (s : Routing) : ProxyEvent → Routing
  | .upsertService service => (s.upsertService service).1
  | .deleteService service => s.deleteService service
  | .upsertEndpointSlice slice => (s.upsertEndpointSlice slice).1
  | .deleteEndpointSlice slice => (s.deleteEndpointSlice slice).1

end Webernetes.Images
