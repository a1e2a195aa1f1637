/-
Webernetes.Images.KubeProxyRuns — the targets in the network against those
recomputed from the services and endpoint slices.

Only the service that an event names is reconciled. So the routes stay those
of the current slices (`Served`) where a slice that changes its label had
nothing for the service it leaves, and where the registration of a service
does not fail halfway. Ports of one number share their targets, so they have
to have one name.
-/
import Webernetes.Base.Transition
import Webernetes.Images.KubeProxy

namespace Webernetes.Images

open Js Net Cni Base

/-! ## Targets -/

/-- The slices that are labelled with a service. -/
def currentSlices (proxy : KubeProxy) (service : Service) : List EndpointSlice :=
  proxy.endpointSlices.values.filter fun slice =>
    slice.sliceNamespace = service.serviceNamespace
      ∧ slice.endpointSliceServiceName = some service.serviceName

/-- The endpoints of a port of a service, recomputed from scratch. -/
def endpointsOf (proxy : KubeProxy) (service : Service) (port : ServicePort) : List NetworkEndpoint :=
  (currentSlices proxy service).flatMap (·.endpointsFor (portName port))

/-- The targets of a slice can be read back: its addresses have no colon, and
its ports are in range. -/
structure Plain (slice : EndpointSlice) : Prop where
  ports : ∀ endpointPort ∈ slice.ports.getD [], ∀ port ∈ endpointPort.port, 0 < port ∧ port ≤ 65535
  addresses : ∀ endpoint ∈ slice.endpoints, ∀ address ∈ endpoint.target, colon ∉ address

theorem Endpoint.target_ne_nil {endpoint : Endpoint} {address : JsString}
    (h : endpoint.target = some address) : address ≠ [] := by
  unfold Endpoint.target at h
  split at h
  · cases h
  · rintro rfl
    exact absurd (Option.filter_eq_some_iff.mp h).2 (by decide)

theorem EndpointSlice.mem_endpointsFor {slice : EndpointSlice} {name : JsString} {endpoint : NetworkEndpoint}
    (h : endpoint ∈ slice.endpointsFor name) : ∃ endpointPort ∈ slice.ports.getD [],
      endpointPort.port = some endpoint.port ∧ ∃ e ∈ slice.endpoints, e.target = some endpoint.ip := by
  obtain ⟨endpointPort, hport, hmem⟩ := List.mem_flatMap.mp h
  split at hmem
  · cases hmem
  · split at hmem
    · cases hmem
    · rename_i port hsome
      obtain ⟨e, he, htarget⟩ := List.mem_filterMap.mp hmem
      obtain ⟨address, haddress, rfl⟩ := Option.map_eq_some_iff.mp htarget
      exact ⟨endpointPort, hport, hsome, e, he, haddress⟩

/-- A target with a plain address is read back. -/
theorem parseEndpointTarget_targetText (other : JsString → Option Int) {endpoint : NetworkEndpoint}
    (hcolon : colon ∉ endpoint.ip) (hne : endpoint.ip ≠ []) (hpos : 0 < endpoint.port)
    (hle : endpoint.port ≤ 65535) :
    parseEndpointTarget other (targetText endpoint) = .ok endpoint := by
  have hsplit : (targetText endpoint).splitOn colon = [endpoint.ip, decimal endpoint.port] := by
    rw [targetText, List.splitOn_append_cons_self_of_not_mem hcolon,
      List.splitOn_eq_singleton (colon_not_mem_decimal _)]
  unfold parseEndpointTarget
  rw [hsplit]
  dsimp only
  rw [number_decimal]
  have hin : ¬ (endpoint.ip.isEmpty = true ∨ (endpoint.port : Int) ≤ 0 ∨ 65535 < (endpoint.port : Int)) := by
    rintro (hempty | hlow | hhigh)
    · exact hne (List.isEmpty_iff.mp hempty)
    · omega
    · omega
  dsimp only
  rw [if_neg hin]
  rfl

theorem Plain.parses {slice : EndpointSlice} (h : Plain slice) (other : JsString → Option Int)
    {name : JsString} {endpoint : NetworkEndpoint} (hmem : endpoint ∈ slice.endpointsFor name) :
    parseEndpointTarget other (targetText endpoint) = .ok endpoint := by
  obtain ⟨endpointPort, hport, hsome, e, he, htarget⟩ := EndpointSlice.mem_endpointsFor hmem
  obtain ⟨hpos, hle⟩ := h.ports endpointPort hport endpoint.port hsome
  exact parseEndpointTarget_targetText other (h.addresses e he endpoint.ip htarget)
    (Endpoint.target_ne_nil htarget) hpos hle

namespace KubeProxy

variable {proxy : KubeProxy}

/-- The endpoints by the keys of their slices. -/
def endpointsAt (proxy : KubeProxy) (name key : JsString) : List NetworkEndpoint :=
  ((proxy.endpointSlices.get key).map (·.endpointsFor name)).getD []

theorem targetsForServicePort_eq (service : Service) (port : ServicePort) :
    proxy.targetsForServicePort service port
      = ((indexed proxy.endpointSliceKeysByService service.key).flatMap
          (proxy.endpointsAt (portName port))).map targetText := by
  rw [targetsForServicePort, endpointSlicesForService]
  congr 1
  induction indexed proxy.endpointSliceKeysByService service.key with
  | nil => rfl
  | cons key keys ih =>
    rw [List.flatMap_cons, ← ih, endpointsAt]
    cases hget : proxy.endpointSlices.get key with
    | none => rw [List.filterMap_cons_none hget]; rfl
    | some slice => rw [List.filterMap_cons_some hget]; rfl

/-- The slices as the index has them are those that are labelled so. -/
theorem endpointSlicesForService_perm {service : Service}
    (hindex : ∀ k, k ∈ indexed proxy.endpointSliceKeysByService service.key ↔
      ∃ slice, proxy.endpointSlices.get k = some slice ∧ slice.ownerKey = some service.key)
    (hslash : slash ∉ service.serviceNamespace)
    (hslices : ∀ key slice, proxy.endpointSlices.get key = some slice → slash ∉ slice.sliceNamespace) :
    (proxy.endpointSlicesForService service).Perm (currentSlices proxy service) := by
  set labelled : EndpointSlice → Bool := fun slice => slice.sliceNamespace = service.serviceNamespace
    ∧ slice.endpointSliceServiceName = some service.serviceName with hlabelled
  have howner : ∀ key slice, proxy.endpointSlices.get key = some slice →
      (labelled slice = true ↔ slice.ownerKey = some service.key) := by
    intro key slice hget
    rw [hlabelled, decide_eq_true_eq, EndpointSlice.ownerKey]
    constructor
    · rintro ⟨hnamespace, hname⟩
      rw [hname, Option.map_some, hnamespace, Service.key]
    · intro hkey
      obtain ⟨name, hname, hkey⟩ := Option.map_eq_some_iff.mp hkey
      obtain ⟨hnamespace, rfl⟩ := namespacedNameKey_inj (hslices key slice hget) hslash hkey
      exact ⟨hnamespace, hname⟩
  set entries := proxy.endpointSlices.entries.filter fun entry => labelled entry.2 with hentries
  have hnodup : (entries.map Prod.fst).Nodup :=
    proxy.endpointSlices.nodup.sublist (List.filter_sublist.map Prod.fst)
  have hperm : (indexed proxy.endpointSliceKeysByService service.key).Perm (entries.map Prod.fst) := by
    refine (List.perm_ext_iff_of_nodup (nodup_indexed _ _) hnodup).mpr fun k => ?_
    rw [hindex]
    constructor
    · rintro ⟨slice, hget, hkey⟩
      refine List.mem_map.mpr ⟨(k, slice), List.mem_filter.mpr ⟨?_, (howner k slice hget).mpr hkey⟩, rfl⟩
      exact JsMap.get_eq_some_iff.mp hget
    · intro hk
      obtain ⟨⟨k', slice⟩, hmem, rfl⟩ := List.mem_map.mp hk
      obtain ⟨hmem, hlabel⟩ := List.mem_filter.mp hmem
      have hget := JsMap.get_eq_some_iff.mpr hmem
      exact ⟨slice, hget, (howner k' slice hget).mp hlabel⟩
  have hvalues : (entries.map Prod.fst).filterMap proxy.endpointSlices.get = entries.map Prod.snd := by
    rw [List.filterMap_map, ← List.filterMap_eq_map]
    refine List.filterMap_congr fun entry hmem => ?_
    exact JsMap.get_eq_some_iff.mpr (List.mem_filter.mp hmem).1
  have hcurrent : currentSlices proxy service = entries.map Prod.snd := by
    rw [currentSlices, JsMap.values, List.filter_map]
    rfl
  rw [hcurrent, ← hvalues]
  exact hperm.filterMap _

end KubeProxy

/-! ## The network -/

/-- The services of the network are under their own keys. -/
def Keyed (network : ClusterNetwork) : Prop :=
  ∀ key service, network.servicesByKey.get key = some service →
    key = service.key ∧ slash ∉ service.serviceNamespace

/-- The service can be registered whole: its node ports, each listed once,
are free or its own. -/
structure Ready (network : ClusterNetwork) (service : Service) : Prop where
  nodup : service.nodePorts.Nodup
  free : ∀ nodePort ∈ service.nodePorts, ∀ route, network.servicesByNodePort.get nodePort = some route →
    ∃ old, network.servicesByKey.get service.key = some old ∧ nodePort ∈ old.listedPorts

/-- A routable service whose ports of one number have one name. -/
structure Serveable (service : Service) : Prop where
  named : service.serviceName ≠ []
  plain : slash ∉ service.serviceNamespace
  clusterIP : service.serviceClusterIP ≠ none
  ports : ∀ p ∈ service.ports, ∀ q ∈ service.ports, p.port = q.port → portName p = portName q
  nodup : service.nodePorts.Nodup

open ClusterNetwork in
/-- What is left where a service was. -/
theorem unregister_keyed {network : ClusterNetwork} (hkeyed : Keyed network) {«namespace» : JsString} (name : JsString)
    (hslash : slash ∉ «namespace») :
    Keyed (network.unregisterService «namespace» name)
      ∧ Apart network «namespace» name (network.unregisterService «namespace» name)
      ∧ ∀ nodePort route,
        (network.unregisterService «namespace» name).servicesByNodePort.get nodePort = some route →
        network.servicesByNodePort.get nodePort = some route ∧
          ∀ old, network.servicesByKey.get (namespacedNameKey «namespace» name) = some old →
            nodePort ∉ old.listedPorts := by
  cases hget : network.servicesByKey.get (namespacedNameKey «namespace» name) with
  | none =>
    rw [unregisterService_of_none hget]
    exact ⟨hkeyed, Apart.refl _ _ _, fun nodePort route hroute => ⟨hroute, fun old hold => by cases hold⟩⟩
  | some service =>
    obtain ⟨hkey, hnamed⟩ := hkeyed _ service hget
    have hremoved := removed_unregisterService hget hkey.symm
    obtain ⟨hnamespace, hname⟩ := namespacedNameKey_inj hnamed hslash hkey.symm
    refine ⟨fun key other hother => ?_, ?_, fun nodePort route hroute => ?_⟩
    · rw [hremoved.byKey] at hother
      split at hother
      · cases hother
      · exact hkeyed key other hother
    · have hapart := hremoved.apart hnamed
      rw [hnamespace, hname] at hapart
      exact hapart
    · obtain ⟨hlisted, hbefore⟩ := (hremoved.byNodePort nodePort route).mp hroute
      refine ⟨hbefore, fun old hold => ?_⟩
      cases hold
      exact hlisted

/-- A service that is ready is registered, and the others are left alone. -/
theorem register_ready {network : ClusterNetwork} {service : Service} (hkeyed : Keyed network)
    (hservice : Serveable service) (hroutable : isRoutableService service = true)
    (hready : Ready network service) :
    ∃ n, network.registerService service = (n, .ok ()) ∧ Keyed n ∧ n.Registered service
      ∧ ClusterNetwork.Apart network service.serviceNamespace service.serviceName n := by
  have htype : service.serviceType ≠ none := by
    intro hnone
    rw [isRoutableService, hnone] at hroutable
    cases hroutable
  obtain ⟨clusterIP, type, hip, htype, hregister⟩ :=
    ClusterNetwork.registerService_of network ⟨hservice.named, hservice.clusterIP, htype⟩
  obtain ⟨hunregistered, hapart, hnodePorts⟩ := unregister_keyed hkeyed service.serviceName hservice.plain
  have hports : service.nodePorts = service.ports.filterMap (Service.routedPort type) := by
    rw [Service.nodePorts, htype]
  obtain ⟨n, hn, hwith⟩ := @ClusterNetwork.registerPorts_ok service type service.ports
    ((network.unregisterService service.serviceNamespace service.serviceName).addService
      service clusterIP) (hports ▸ hready.nodup) (fun nodePort hmem => by
      rw [← hports] at hmem
      rw [Option.eq_none_iff_forall_ne_some]
      intro route hroute
      obtain ⟨hbefore, hnot⟩ := hnodePorts nodePort route hroute
      obtain ⟨old, hold, hlisted⟩ := hready.free nodePort hmem route hbefore
      exact hnot old hold hlisted)
  refine ⟨n, hregister.trans hn, fun key other hother => ?_, ?_, hapart.trans (hwith.apart hservice.plain)⟩
  · rw [hwith.byKey, ClusterNetwork.addService, JsMap.get_set] at hother
    split at hother
    · rename_i hkey
      cases hother
      exact ⟨hkey, hservice.plain⟩
    · exact hunregistered key other hother
  · rw [ClusterNetwork.Registered, hwith.byKey]
    exact JsMap.get_set_self _ _ _

namespace KubeProxy

variable {proxy : KubeProxy}

/-- The targets of a port depend on its name only. -/
theorem targetsForServicePort_congr (service : Service) {p q : ServicePort} (h : portName p = portName q) :
    proxy.targetsForServicePort service p = proxy.targetsForServicePort service q := by
  rw [targetsForServicePort, targetsForServicePort, h]

/-- What setting the targets of some ports of a service keeps. -/
structure WithTargets (proxy : KubeProxy) (service : Service) (network : ClusterNetwork)
    (ports : List ServicePort) (n : ClusterNetwork) : Prop where
  byKey : n.servicesByKey = network.servicesByKey
  others : ∀ namespace' name' port, slash ∉ namespace' →
    (namespace', name') ≠ (service.serviceNamespace, service.serviceName) →
    n.targetListsByServicePort.get (serviceRouteKey namespace' name' port)
      = network.targetListsByServicePort.get (serviceRouteKey namespace' name' port)
  set : ∀ p ∈ ports, ∃ list, n.targetListsByServicePort.get (service.servicePortKey p) = some list
    ∧ list.targets = proxy.targetsForServicePort service p

/-- By induction on the ports, the last one first: of ports of one number
they are the targets of the last. -/
theorem withTargets (proxy : KubeProxy) {service : Service} (network : ClusterNetwork)
    (hservice : Serveable service) (ports : List ServicePort) (hports : ports ⊆ service.ports) :
    WithTargets proxy service network ports (ports.foldl (fun network port =>
      network.setServiceTargets service.serviceNamespace service.serviceName port.port
        (proxy.targetsForServicePort service port)) network) := by
  induction ports using List.reverseRecOn with
  | nil => exact ⟨rfl, fun _ _ _ _ _ => rfl, fun p hp => by cases hp⟩
  | append_singleton ports port ih =>
    have ih := ih fun p hp => hports (List.mem_append_left _ hp)
    rw [List.foldl_concat]
    generalize ports.foldl _ network = n at ih
    refine ⟨ih.byKey, fun namespace' name' port' hslash hne => ?_, fun p hp => ?_⟩
    · rw [← ih.others namespace' name' port' hslash hne]
      exact JsMap.get_set_of_ne _ _ fun heq =>
        hne (ClusterNetwork.routeKey_inj hslash hservice.plain heq)
    · rw [ClusterNetwork.setServiceTargets, JsMap.get_set]
      by_cases heq : service.servicePortKey p
          = serviceRouteKey service.serviceNamespace service.serviceName port.port
      · rw [if_pos heq]
        refine ⟨_, rfl, ?_⟩
        have hsame : p.port = port.port := (append_port_inj heq).2
        have hname := hservice.ports p (hports hp) port (hports (by simp)) hsame
        exact (targetsForServicePort_congr service hname).symm
      · rw [if_neg heq]
        rcases List.mem_append.mp hp with hp | hp
        · exact ih.set p hp
        · cases List.mem_singleton.mp hp
          exact absurd rfl heq

end KubeProxy

/-- The network has the service and the targets that kube-proxy has for it. -/
structure Served (proxy : KubeProxy) (network : ClusterNetwork) (service : Service) : Prop where
  serveable : Serveable service
  registered : network.Registered service
  targets : ∀ p ∈ service.ports, ∃ list,
    network.targetListsByServicePort.get (service.servicePortKey p) = some list
      ∧ list.targets = proxy.targetsForServicePort service p

theorem Served.ready {proxy : KubeProxy} {network : ClusterNetwork} {service : Service}
    (h : Served proxy network service) : Ready network service :=
  ⟨h.serveable.nodup, fun _ hmem _ _ =>
    ⟨service, h.registered, Service.nodePorts_subset_listedPorts service hmem⟩⟩

/-- A service keeps what it has where the network changes for another one. -/
theorem Served.apart {proxy : KubeProxy} {network n : ClusterNetwork} {service : Service}
    {«namespace» name : JsString} (h : Served proxy network service)
    (hapart : ClusterNetwork.Apart network «namespace» name n)
    (hne : (service.serviceNamespace, service.serviceName) ≠ («namespace», name)) :
    Served proxy n service := by
  refine ⟨h.serveable, (hapart.registered service h.serveable.plain hne).mpr h.registered, fun p hp => ?_⟩
  obtain ⟨list, hlist, htargets⟩ := h.targets p hp
  refine ⟨list, ?_, htargets⟩
  rw [← hlist]
  exact hapart.targets _ _ p.port h.serveable.plain hne

/-- What reconciling a service does. -/
structure Reconciled (proxy : KubeProxy) (network : ClusterNetwork) (service : Service)
    (n : ClusterNetwork) : Prop where
  keyed : Keyed n
  apart : ClusterNetwork.Apart network service.serviceNamespace service.serviceName n
  served : isRoutableService service = true → Served proxy n service

theorem reconciled (proxy : KubeProxy) {network : ClusterNetwork} {service : Service}
    (hkeyed : Keyed network) (hslash : slash ∉ service.serviceNamespace) (hnamed : service.serviceName ≠ [])
    (hservice : isRoutableService service = true → Serveable service ∧ Ready network service) :
    Reconciled proxy network service (proxy.reconcileService network service).1 := by
  have hname : service.serviceName.isEmpty = false := List.isEmpty_eq_false_iff.mpr hnamed
  unfold KubeProxy.reconcileService
  dsimp only
  rw [hname, if_neg (by simp)]
  cases hroutable : isRoutableService service with
  | false =>
    obtain ⟨hunregistered, hapart, -⟩ := unregister_keyed hkeyed service.serviceName hslash
    exact ⟨hunregistered, hapart, fun h => by rw [hroutable] at h; cases h⟩
  | true =>
    obtain ⟨hserveable, hready⟩ := hservice hroutable
    obtain ⟨n, hregister, hn, hregistered, hapart⟩ := register_ready hkeyed hserveable hroutable hready
    rw [hregister]
    have hwith : KubeProxy.WithTargets proxy service n service.ports (proxy.setTargets service n) :=
      KubeProxy.withTargets proxy n hserveable service.ports fun _ hp => hp
    refine ⟨fun key other hother => ?_, ⟨fun other hother hne => ?_, fun namespace' name' port hns hne => ?_⟩,
      fun _ => ⟨hserveable, ?_, hwith.set⟩⟩
    · exact hn key other (by rw [← hwith.byKey]; exact hother)
    · rw [← hapart.registered other hother hne, ClusterNetwork.Registered, ClusterNetwork.Registered]
      exact iff_of_eq (congrArg (fun m : JsMap JsString Service => m.get other.key = some other) hwith.byKey)
    · exact (hwith.others namespace' name' port hns hne).trans (hapart.targets namespace' name' port hns hne)
    · rw [ClusterNetwork.Registered]
      exact (congrArg (fun m : JsMap JsString Service => m.get service.key) hwith.byKey).trans hregistered

/-! ## The slices of a service -/

/-- What kube-proxy keeps is under the right keys, and the index has the
slices under the services that they are labelled with. -/
structure Kept (proxy : KubeProxy) : Prop where
  services : ∀ key service, proxy.services.get key = some service →
    key = service.key ∧ slash ∉ service.serviceNamespace ∧ service.serviceName ≠ []
  slices : ∀ key slice, proxy.endpointSlices.get key = some slice →
    key = slice.endpointSliceKey ∧ slash ∉ slice.sliceNamespace ∧ Plain slice
  index : ∀ owner k, k ∈ indexed proxy.endpointSliceKeysByService owner ↔
    ∃ slice, proxy.endpointSlices.get k = some slice ∧ slice.ownerKey = some owner

namespace KubeProxy

variable {proxy : KubeProxy}

theorem indexed_unindexEndpointSlice (slice : EndpointSlice) (owner : JsString) :
    indexed (proxy.unindexEndpointSlice slice).endpointSliceKeysByService owner =
      if slice.ownerKey = some owner then
        (indexed proxy.endpointSliceKeysByService owner).filter (· ≠ slice.endpointSliceKey)
      else indexed proxy.endpointSliceKeysByService owner := by
  unfold unindexEndpointSlice
  cases howner : slice.ownerKey with
  | none => rfl
  | some ownerKey =>
    dsimp only
    rw [indexed_removeFromIndex]
    simp only [Option.some.injEq, eq_comm]

theorem indexed_indexEndpointSlice_of_ne {slice : EndpointSlice} {owner : JsString}
    (h : slice.ownerKey ≠ some owner) :
    indexed (proxy.indexEndpointSlice slice).endpointSliceKeysByService owner
      = indexed proxy.endpointSliceKeysByService owner := by
  unfold indexEndpointSlice
  cases howner : slice.ownerKey with
  | none => rfl
  | some ownerKey =>
    rw [howner] at h
    exact indexed_addToIndex_of_ne _ _ fun heq => h (heq ▸ rfl)

theorem mem_indexed_indexEndpointSlice {slice : EndpointSlice} {owner k : JsString}
    (h : slice.ownerKey = some owner) :
    k ∈ indexed (proxy.indexEndpointSlice slice).endpointSliceKeysByService owner ↔
      k = slice.endpointSliceKey ∨ k ∈ indexed proxy.endpointSliceKeysByService owner := by
  unfold indexEndpointSlice
  rw [h]
  exact mem_indexed_addToIndex

@[simp] theorem services_unindexEndpointSlice (slice : EndpointSlice) :
    (proxy.unindexEndpointSlice slice).services = proxy.services := by
  unfold unindexEndpointSlice
  split <;> rfl

@[simp] theorem endpointSlices_unindexEndpointSlice (slice : EndpointSlice) :
    (proxy.unindexEndpointSlice slice).endpointSlices = proxy.endpointSlices := by
  unfold unindexEndpointSlice
  split <;> rfl

@[simp] theorem services_indexEndpointSlice (slice : EndpointSlice) :
    (proxy.indexEndpointSlice slice).services = proxy.services := by
  unfold indexEndpointSlice
  split <;> rfl

@[simp] theorem endpointSlices_indexEndpointSlice (slice : EndpointSlice) :
    (proxy.indexEndpointSlice slice).endpointSlices = proxy.endpointSlices := by
  unfold indexEndpointSlice
  split <;> rfl

/-- A slice is under no other service than the one it is labelled with. -/
theorem not_mem_indexed (hkept : Kept proxy) {key owner : JsString}
    (h : ∀ slice, proxy.endpointSlices.get key = some slice → slice.ownerKey ≠ some owner) :
    key ∉ indexed proxy.endpointSliceKeysByService owner := by
  intro hmem
  obtain ⟨slice, hget, howner⟩ := (hkept.index owner key).mp hmem
  exact h slice hget howner

theorem filter_ne_of_not_mem {l : List JsString} {key : JsString} (h : key ∉ l) :
    l.filter (· ≠ key) = l := by
  refine List.filter_eq_self.mpr fun k hk => ?_
  rw [decide_eq_true_eq]
  rintro rfl
  exact h hk

/-- Without the slice that is under a key, whichever that is. -/
theorem indexed_unindexed (hkept : Kept proxy) (slice : EndpointSlice) (owner : JsString) :
    indexed (proxy.unindexEndpointSlice
        ((proxy.endpointSlices.get slice.endpointSliceKey).getD slice)).endpointSliceKeysByService owner
      = (indexed proxy.endpointSliceKeysByService owner).filter (· ≠ slice.endpointSliceKey) := by
  rw [indexed_unindexEndpointSlice]
  cases hget : proxy.endpointSlices.get slice.endpointSliceKey with
  | none =>
    have hnot : slice.endpointSliceKey ∉ indexed proxy.endpointSliceKeysByService owner :=
      not_mem_indexed hkept fun slice' hslice' => by rw [hget] at hslice'; cases hslice'
    rw [filter_ne_of_not_mem hnot, Option.getD_none, filter_ne_of_not_mem hnot]
    split <;> rfl
  | some previous =>
    rw [Option.getD_some, ← (hkept.slices _ previous hget).1]
    split
    · rfl
    · rename_i hne
      refine (filter_ne_of_not_mem (not_mem_indexed hkept fun slice' hslice' => ?_)).symm
      rw [hget] at hslice'
      cases hslice'
      exact hne

/-- What changes about the slices where the one under a key does, but for the
service that is reconciled. -/
structure Moved (proxy : KubeProxy) (key : JsString) (owner : Option JsString) (proxy' : KubeProxy) :
    Prop where
  services : proxy'.services = proxy.services
  slices : ∀ k, k ≠ key → proxy'.endpointSlices.get k = proxy.endpointSlices.get k
  index : ∀ o, owner ≠ some o → indexed proxy'.endpointSliceKeysByService o
    = (indexed proxy.endpointSliceKeysByService o).filter (· ≠ key)

/-- The targets of another service stay, where the slice had none for it. -/
theorem Moved.targets {key : JsString} {owner : Option JsString} {proxy' : KubeProxy}
    (h : Moved proxy key owner proxy') {service : Service} (hne : owner ≠ some service.key)
    {port : ServicePort} (hnone : key ∈ indexed proxy.endpointSliceKeysByService service.key →
      proxy.endpointsAt (portName port) key = []) :
    proxy'.targetsForServicePort service port = proxy.targetsForServicePort service port := by
  rw [targetsForServicePort_eq, targetsForServicePort_eq, h.index service.key hne]
  congr 1
  generalize indexed proxy.endpointSliceKeysByService service.key = keys at hnone
  induction keys with
  | nil => rfl
  | cons k keys ih =>
    have ih := ih fun hmem => hnone (List.mem_cons_of_mem _ hmem)
    rw [List.filter_cons]
    split
    · rename_i hk
      have hk : k ≠ key := of_decide_eq_true hk
      have hat : proxy'.endpointsAt (portName port) k = proxy.endpointsAt (portName port) k := by
        rw [endpointsAt, endpointsAt, h.slices k hk]
      rw [List.flatMap_cons, List.flatMap_cons, ih, hat]
    · rename_i hk
      obtain rfl : k = key := by simpa using hk
      rw [List.flatMap_cons, hnone List.mem_cons_self, List.nil_append, ih]

/-- kube-proxy without the slice under a key. -/
def withoutSlice (proxy : KubeProxy) (slice : EndpointSlice) : KubeProxy :=
  let unindexed :=
    proxy.unindexEndpointSlice ((proxy.endpointSlices.get slice.endpointSliceKey).getD slice)
  { unindexed with endpointSlices := unindexed.endpointSlices.delete slice.endpointSliceKey }

theorem endpointSlices_withoutSlice (slice : EndpointSlice) : (proxy.withoutSlice slice).endpointSlices
    = proxy.endpointSlices.delete slice.endpointSliceKey := by
  unfold withoutSlice
  dsimp only
  rw [endpointSlices_unindexEndpointSlice]

theorem moved_withoutSlice (hkept : Kept proxy) (slice : EndpointSlice) :
    Moved proxy slice.endpointSliceKey none (proxy.withoutSlice slice) where
  services := services_unindexEndpointSlice _
  slices k hk := by
    rw [endpointSlices_withoutSlice, JsMap.get_delete, if_neg hk]
  index o _ := indexed_unindexed hkept slice o

theorem kept_withoutSlice (hkept : Kept proxy) (slice : EndpointSlice) :
    Kept (proxy.withoutSlice slice) := by
  have hmoved := moved_withoutSlice hkept slice
  refine ⟨fun key service hget => ?_, fun key slice' hget => ?_, fun owner k => ?_⟩
  · rw [hmoved.services] at hget
    exact hkept.services key service hget
  · rw [endpointSlices_withoutSlice, JsMap.get_delete] at hget
    split at hget
    · cases hget
    · exact hkept.slices key slice' hget
  · rw [hmoved.index owner (by simp), List.mem_filter, hkept.index, endpointSlices_withoutSlice,
      JsMap.get_delete, decide_eq_true_eq]
    constructor
    · rintro ⟨⟨slice', hget, howner⟩, hk⟩
      rw [if_neg hk]
      exact ⟨slice', hget, howner⟩
    · rintro ⟨slice', hget, howner⟩
      split at hget
      · cases hget
      · rename_i hk
        exact ⟨⟨slice', hget, howner⟩, hk⟩

/-- kube-proxy with a slice that is new or changed. -/
def withSlice (proxy : KubeProxy) (slice : EndpointSlice) : KubeProxy :=
  let unindexed := match proxy.endpointSlices.get slice.endpointSliceKey with
    | some previous => proxy.unindexEndpointSlice previous
    | none => proxy
  let stored : KubeProxy :=
    { unindexed with endpointSlices := unindexed.endpointSlices.set slice.endpointSliceKey slice }
  stored.indexEndpointSlice slice

theorem endpointSlices_withSlice (slice : EndpointSlice) : (proxy.withSlice slice).endpointSlices
    = proxy.endpointSlices.set slice.endpointSliceKey slice := by
  unfold withSlice
  dsimp only
  rw [endpointSlices_indexEndpointSlice]
  split
  · rw [endpointSlices_unindexEndpointSlice]
  · rfl

theorem services_withSlice (slice : EndpointSlice) : (proxy.withSlice slice).services = proxy.services := by
  unfold withSlice
  dsimp only
  rw [services_indexEndpointSlice]
  split
  · rw [services_unindexEndpointSlice]
  · rfl

/-- Under the services that the slice is not labelled with now. -/
theorem indexed_withSlice_of_ne (hkept : Kept proxy) {slice : EndpointSlice} {owner : JsString}
    (h : slice.ownerKey ≠ some owner) : indexed (proxy.withSlice slice).endpointSliceKeysByService owner
      = (indexed proxy.endpointSliceKeysByService owner).filter (· ≠ slice.endpointSliceKey) := by
  have hunindexed := indexed_unindexed hkept slice owner
  unfold withSlice
  dsimp only
  rw [indexed_indexEndpointSlice_of_ne h]
  cases hget : proxy.endpointSlices.get slice.endpointSliceKey with
  | some previous =>
    rw [hget, Option.getD_some] at hunindexed
    exact hunindexed
  | none =>
    refine (filter_ne_of_not_mem (not_mem_indexed hkept fun slice' hslice' => ?_)).symm
    rw [hget] at hslice'
    cases hslice'

theorem mem_indexed_withSlice (hkept : Kept proxy) {slice : EndpointSlice} {owner k : JsString}
    (h : slice.ownerKey = some owner) :
    k ∈ indexed (proxy.withSlice slice).endpointSliceKeysByService owner ↔
      k = slice.endpointSliceKey ∨ k ∈ indexed proxy.endpointSliceKeysByService owner := by
  have hunindexed := indexed_unindexed hkept slice owner
  unfold withSlice
  dsimp only
  rw [mem_indexed_indexEndpointSlice h]
  cases hget : proxy.endpointSlices.get slice.endpointSliceKey with
  | none => rfl
  | some previous =>
    rw [hget, Option.getD_some] at hunindexed
    dsimp only
    rw [hunindexed, List.mem_filter, decide_eq_true_eq]
    tauto

theorem moved_withSlice (hkept : Kept proxy) (slice : EndpointSlice) :
    Moved proxy slice.endpointSliceKey slice.ownerKey (proxy.withSlice slice) where
  services := services_withSlice slice
  slices k hk := by
    rw [endpointSlices_withSlice]
    exact JsMap.get_set_of_ne _ _ hk
  index o ho := indexed_withSlice_of_ne hkept ho

theorem kept_withSlice (hkept : Kept proxy) {slice : EndpointSlice} (hslash : slash ∉ slice.sliceNamespace)
    (hplain : Plain slice) : Kept (proxy.withSlice slice) := by
  refine ⟨fun key service hget => ?_, fun key slice' hget => ?_, fun owner k => ?_⟩
  · rw [services_withSlice] at hget
    exact hkept.services key service hget
  · rw [endpointSlices_withSlice, JsMap.get_set] at hget
    split at hget
    · rename_i hkey
      cases hget
      exact ⟨hkey, hslash, hplain⟩
    · exact hkept.slices key slice' hget
  · rw [endpointSlices_withSlice]
    by_cases howner : slice.ownerKey = some owner
    · rw [mem_indexed_withSlice hkept howner, hkept.index, JsMap.get_set]
      by_cases hk : k = slice.endpointSliceKey
      · rw [if_pos hk]
        exact iff_of_true (.inl hk) ⟨slice, rfl, howner⟩
      · rw [if_neg hk]
        exact or_iff_right hk
    · rw [indexed_withSlice_of_ne hkept howner, List.mem_filter, hkept.index, JsMap.get_set,
        decide_eq_true_eq]
      by_cases hk : k = slice.endpointSliceKey
      · rw [if_pos hk]
        refine iff_of_false (fun h => h.2 hk) ?_
        rintro ⟨slice', hslice', howner'⟩
        cases hslice'
        exact howner howner'
      · rw [if_neg hk]
        exact and_iff_left hk

end KubeProxy

/-! ## Runs -/

/-- What holds in every state: each routable service that kube-proxy has is
served. -/
structure Held (s : Routing) : Prop where
  keyed : Keyed s.network
  kept : Kept s.proxy
  served : ∀ key service, s.proxy.services.get key = some service →
    isRoutableService service = true → Served s.proxy s.network service

/-- A slice leaves a service only with nothing for it. -/
def Leaves (proxy : KubeProxy) (slice : EndpointSlice) : Prop :=
  ∀ previous, proxy.endpointSlices.get slice.endpointSliceKey = some previous →
    previous.ownerKey ≠ slice.ownerKey →
    ∀ owner service, previous.ownerKey = some owner → proxy.services.get owner = some service →
      isRoutableService service = true →
      ∀ port ∈ service.ports, previous.endpointsFor (portName port) = []

/-- The conditions under which an event is handled whole. -/
def Clear (s : Routing) : ProxyEvent → Prop
  | .upsertService service => slash ∉ service.serviceNamespace ∧ service.serviceName ≠ [] ∧
    (isRoutableService service = true → Serveable service ∧ Ready s.network service)
  | .deleteService service => slash ∉ service.serviceNamespace ∧ service.serviceName ≠ []
  | .upsertEndpointSlice slice => slash ∉ slice.sliceNamespace ∧ Plain slice ∧ Leaves s.proxy slice
  | .deleteEndpointSlice _ => True

def proxySystem : System Routing ProxyEvent where
  init s := s.proxy = {} ∧ Serviceless s.network
  step s event s' := s' = s.handle event

/-- Services under other keys are under other names. -/
theorem name_ne {service other : Service} (h : other.key ≠ service.key) :
    (other.serviceNamespace, other.serviceName) ≠ (service.serviceNamespace, service.serviceName) := by
  intro heq
  obtain ⟨hnamespace, hname⟩ := Prod.mk.inj heq
  exact h (by rw [Service.key, Service.key, hnamespace, hname])

/-- One service is reconciled, and the others are served already. -/
theorem held_reconcile {proxy : KubeProxy} {network : ClusterNetwork} {service : Service}
    (hkeyed : Keyed network) (hkept : Kept proxy)
    (hget : proxy.services.get service.key = some service)
    (hservice : isRoutableService service = true → Serveable service ∧ Ready network service)
    (hothers : ∀ key other, proxy.services.get key = some other → other.key ≠ service.key →
      isRoutableService other = true → Served proxy network other) :
    Held { proxy, network := (proxy.reconcileService network service).1 } := by
  obtain ⟨-, hslash, hnamed⟩ := hkept.services _ service hget
  have hreconciled := reconciled proxy hkeyed hslash hnamed hservice
  refine ⟨hreconciled.keyed, hkept, fun key other hother hroutable => ?_⟩
  by_cases hkey : other.key = service.key
  · have hown := (hkept.services key other hother).1
    rw [hown, hkey, hget] at hother
    cases hother
    exact hreconciled.served hroutable
  · exact (hothers key other hother hkey hroutable).apart hreconciled.apart (name_ne hkey)

/-- A service that is served stays so where its targets are the same. -/
theorem Served.congr {proxy proxy' : KubeProxy} {network : ClusterNetwork} {service : Service}
    (h : Served proxy network service)
    (hsame : ∀ p ∈ service.ports, proxy'.targetsForServicePort service p
      = proxy.targetsForServicePort service p) : Served proxy' network service := by
  refine ⟨h.serveable, h.registered, fun p hp => ?_⟩
  rw [hsame p hp]
  exact h.targets p hp

namespace Held

variable {s : Routing}

theorem upsertService (h : Held s) {service : Service} (hclear : Clear s (.upsertService service)) :
    Held (s.upsertService service).1 := by
  obtain ⟨hslash, hnamed, hservice⟩ := hclear
  have hkept : Kept { s.proxy with services := s.proxy.services.set service.key service } := by
    refine ⟨fun key other hget => ?_, h.kept.slices, h.kept.index⟩
    rw [JsMap.get_set] at hget
    split at hget
    · rename_i hkey
      cases hget
      exact ⟨hkey, hslash, hnamed⟩
    · exact h.kept.services key other hget
  refine held_reconcile h.keyed hkept (JsMap.get_set_self _ _ _) hservice fun key other hget hne hroutable => ?_
  have hown := (hkept.services key other hget).1
  rw [JsMap.get_set, if_neg (by rw [hown]; exact hne)] at hget
  exact (h.served key other hget hroutable).congr fun _ _ => rfl

theorem deleteService (h : Held s) {service : Service} (hclear : Clear s (.deleteService service)) :
    Held (s.deleteService service) := by
  obtain ⟨hslash, hnamed⟩ := hclear
  unfold Routing.deleteService
  rw [List.isEmpty_eq_false_iff.mpr hnamed, if_neg (by simp)]
  obtain ⟨hunregistered, hapart, -⟩ := unregister_keyed h.keyed service.serviceName hslash
  have hbefore : ∀ key other, (s.proxy.services.delete service.key).get key = some other →
      other.key ≠ service.key ∧ s.proxy.services.get key = some other := by
    intro key other hget
    rw [JsMap.get_delete] at hget
    split at hget
    · cases hget
    · rename_i hne
      rw [(h.kept.services key other hget).1] at hne
      exact ⟨hne, hget⟩
  refine ⟨hunregistered, ⟨fun key other hget => ?_, h.kept.slices, h.kept.index⟩,
    fun key other hget hroutable => ?_⟩
  · exact h.kept.services key other (hbefore key other hget).2
  · obtain ⟨hne, hget⟩ := hbefore key other hget
    have hserved := (h.served key other hget hroutable).apart hapart (name_ne hne)
    exact hserved.congr fun _ _ => rfl

/-- The slices change, and the service of one of them is reconciled. -/
theorem moved (h : Held s) {proxy : KubeProxy} {key : JsString} {owner : Option JsString}
    {slice : EndpointSlice} (hmoved : KubeProxy.Moved s.proxy key owner proxy) (hkept : Kept proxy)
    (howner : ∀ o, owner = some o → slice.ownerKey = some o)
    (hnone : ∀ service, slice.ownerKey ≠ some service.key →
      s.proxy.services.get service.key = some service → isRoutableService service = true →
      ∀ p ∈ service.ports, key ∈ indexed s.proxy.endpointSliceKeysByService service.key →
        s.proxy.endpointsAt (portName p) key = []) :
    Held { proxy, network := (proxy.reconcileServiceForEndpointSlice s.network slice).1 } := by
  have hservices : ∀ k other, proxy.services.get k = some other →
      k = other.key ∧ s.proxy.services.get other.key = some other := by
    intro k other hget
    rw [hmoved.services] at hget
    obtain rfl := (h.kept.services k other hget).1
    exact ⟨rfl, hget⟩
  have hothers : ∀ k other, proxy.services.get k = some other → slice.ownerKey ≠ some other.key →
      isRoutableService other = true → Served proxy s.network other := by
    intro k other hget hne hroutable
    obtain ⟨-, hget⟩ := hservices k other hget
    refine (h.served _ other hget hroutable).congr fun p hp => ?_
    exact hmoved.targets (fun heq => hne (howner _ heq)) (hnone other hne hget hroutable p hp)
  unfold KubeProxy.reconcileServiceForEndpointSlice
  cases hfound : slice.ownerKey.bind proxy.services.get with
  | none =>
    refine ⟨h.keyed, hkept, fun k other hget hroutable => hothers k other hget (fun hkey => ?_) hroutable⟩
    rw [hkey, Option.bind_some, ← (hservices k other hget).1, hget] at hfound
    cases hfound
  | some service =>
    obtain ⟨k, hk, hget⟩ := Option.bind_eq_some_iff.mp hfound
    obtain ⟨rfl, hbefore⟩ := hservices k service hget
    refine held_reconcile h.keyed hkept hget (fun hroutable => ?_) fun k' other hother hne hroutable => ?_
    · have hserved := h.served _ service hbefore hroutable
      exact ⟨hserved.serveable, hserved.ready⟩
    · refine hothers k' other hother (fun hkey => hne ?_) hroutable
      rw [hk] at hkey
      exact (Option.some.inj hkey).symm

theorem upsertEndpointSlice (h : Held s) {slice : EndpointSlice}
    (hclear : Clear s (.upsertEndpointSlice slice)) : Held (s.upsertEndpointSlice slice).1 := by
  obtain ⟨hslash, hplain, hleaves⟩ := hclear
  refine h.moved (KubeProxy.moved_withSlice h.kept slice)
    (KubeProxy.kept_withSlice h.kept hslash hplain) (fun o ho => ho)
    fun service hne hget hroutable p hp hmem => ?_
  obtain ⟨previous, hprevious, howner⟩ := (h.kept.index _ _).mp hmem
  rw [KubeProxy.endpointsAt, hprevious, Option.map_some, Option.getD_some]
  exact hleaves previous hprevious (fun heq => hne (heq ▸ howner)) _ service howner hget hroutable p hp

theorem deleteEndpointSlice (h : Held s) (slice : EndpointSlice) :
    Held (s.deleteEndpointSlice slice).1 := by
  have hmoved := KubeProxy.moved_withoutSlice h.kept slice
  have hkept := KubeProxy.kept_withoutSlice h.kept slice
  refine h.moved hmoved hkept (fun o ho => by cases ho) fun service hne _ _ p _ hmem => ?_
  obtain ⟨previous, hprevious, howner⟩ := (h.kept.index _ _).mp hmem
  rw [hprevious, Option.getD_some] at hne
  exact absurd howner hne

/-- One case for each event. -/
theorem handle (h : Held s) {event : ProxyEvent} (hclear : Clear s event) : Held (s.handle event) := by
  cases event with
  | upsertService service => exact h.upsertService hclear
  | deleteService service => exact h.deleteService hclear
  | upsertEndpointSlice slice => exact h.upsertEndpointSlice hclear
  | deleteEndpointSlice slice => exact h.deleteEndpointSlice slice

end Held

theorem held_of_reach {s : Routing} (h : (proxySystem.guarded Clear).Reach s) : Held s := by
  refine h.invariant ?_ ?_
  · intro s hs
    obtain ⟨hproxy, hnetwork⟩ := hs
    refine ⟨fun key service hget => ?_, ?_, fun key service hget => ?_⟩
    · rw [hnetwork.byKey] at hget
      cases hget
    · rw [hproxy]
      refine ⟨fun key service hget => ?_, fun key slice hget => ?_, fun owner k => ?_⟩
      · cases hget
      · cases hget
      · refine iff_of_false (fun hmem => ?_) ?_
        · cases hmem
        · rintro ⟨slice, hget, -⟩
          cases hget
    · rw [hproxy] at hget
      cases hget
  · intro s event s' _ hheld hstep
    rw [hstep.1]
    exact hheld.handle hstep.2

/-- The services after one more event. -/
def nextServices (services : JsMap JsString Service) : ProxyEvent → JsMap JsString Service
  | .upsertService service => services.set service.key service
  | .deleteService service => services.delete service.key
  | _ => services

/-- The slices after one more event. -/
def nextSlices (slices : JsMap JsString EndpointSlice) : ProxyEvent → JsMap JsString EndpointSlice
  | .upsertEndpointSlice slice => slices.set slice.endpointSliceKey slice
  | .deleteEndpointSlice slice => slices.delete slice.endpointSliceKey
  | _ => slices

theorem handle_services {s : Routing} {event : ProxyEvent} (hclear : Clear s event) :
    (s.handle event).proxy.services = nextServices s.proxy.services event := by
  cases event with
  | upsertService service => rfl
  | deleteService service =>
    show (s.deleteService service).proxy.services = s.proxy.services.delete service.key
    rw [Routing.deleteService, List.isEmpty_eq_false_iff.mpr hclear.2, if_neg (by simp)]
  | upsertEndpointSlice slice => exact KubeProxy.services_withSlice slice
  | deleteEndpointSlice slice => exact KubeProxy.services_unindexEndpointSlice _

theorem handle_endpointSlices {s : Routing} {event : ProxyEvent} :
    (s.handle event).proxy.endpointSlices = nextSlices s.proxy.endpointSlices event := by
  cases event with
  | upsertService service => rfl
  | deleteService service =>
    show (s.deleteService service).proxy.endpointSlices = s.proxy.endpointSlices
    rw [Routing.deleteService]
    split <;> rfl
  | upsertEndpointSlice slice => exact KubeProxy.endpointSlices_withSlice slice
  | deleteEndpointSlice slice => exact KubeProxy.endpointSlices_withoutSlice slice

/-- kube-proxy has the services and slices of the events. -/
theorem current_of_run {events : List ProxyEvent} {s : Routing}
    (h : (proxySystem.guarded Clear).Run events s) :
    s.proxy.services = events.foldl nextServices .empty
      ∧ s.proxy.endpointSlices = events.foldl nextSlices .empty := by
  induction h with
  | start h =>
    rw [h.1]
    exact ⟨rfl, rfl⟩
  | snoc run h ih =>
    obtain ⟨hstep, hclear⟩ := h
    rw [hstep, List.foldl_concat, List.foldl_concat, handle_services hclear, handle_endpointSlices,
      ih.1, ih.2]
    exact ⟨rfl, rfl⟩

/-- The targets of a service are those that the current slices have for it,
and each is read back. -/
theorem targets_of_run (other : JsString → Option Int) {events : List ProxyEvent} {s : Routing}
    (h : (proxySystem.guarded Clear).Run events s) :
    s.proxy.services = events.foldl nextServices .empty
      ∧ s.proxy.endpointSlices = events.foldl nextSlices .empty
      ∧ ∀ key service, s.proxy.services.get key = some service → isRoutableService service = true →
        ∀ port ∈ service.ports, ∃ list,
          s.network.targetListsByServicePort.get (service.servicePortKey port) = some list
          ∧ list.targets.Perm ((endpointsOf s.proxy service port).map targetText)
          ∧ ∀ endpoint ∈ endpointsOf s.proxy service port,
              parseEndpointTarget other (targetText endpoint) = .ok endpoint := by
  obtain ⟨hservices, hslices⟩ := current_of_run h
  have hheld := held_of_reach ⟨events, h⟩
  refine ⟨hservices, hslices, fun key service hget hroutable port hport => ?_⟩
  have hserved := hheld.served key service hget hroutable
  obtain ⟨list, hlist, htargets⟩ := hserved.targets port hport
  refine ⟨list, hlist, ?_, fun endpoint hmem => ?_⟩
  · have hperm := KubeProxy.endpointSlicesForService_perm (hheld.kept.index service.key)
      hserved.serveable.plain fun k slice hslice => (hheld.kept.slices k slice hslice).2.1
    rw [htargets]
    exact (hperm.flatMap_right _).map targetText
  · obtain ⟨slice, hslice, hendpoint⟩ := List.mem_flatMap.mp hmem
    obtain ⟨entry, hentry, rfl⟩ := List.mem_map.mp (List.mem_filter.mp hslice).1
    have hplain := (hheld.kept.slices entry.1 entry.2 (JsMap.get_eq_some_iff.mpr hentry)).2.2
    exact hplain.parses other hendpoint

/-- A service of one port. -/
def webService : Service where
  name := some (js "web")
  spec := some { clusterIP := some (js "10.96.0.1"), ports := some [{ port := 80 }] }

/-- A slice of one endpoint. -/
def webSlice (label : JsString) : EndpointSlice where
  name := some (js "web-1")
  labels := some (JsMap.empty.set (js "kubernetes.io/service-name") label)
  ports := some [{ port := some 8080 }]
  endpoints := [{ addresses := [js "10.0.0.1"] }]

theorem webService_targets :
    ∃ list, ((({} : Routing).handle (.upsertEndpointSlice (webSlice (js "web")))).handle
        (.upsertService webService)).network.targetListsByServicePort.get (js "default/web:80") = some list
      ∧ list.targets.Perm [js "10.0.0.1:8080"] := by
  have hslice : Clear {} (.upsertEndpointSlice (webSlice (js "web"))) := by
    refine ⟨by decide, ⟨fun p hp port hport => ?_, fun e he address haddress => ?_⟩, fun previous h => ?_⟩
    · cases List.mem_singleton.mp hp
      cases hport
      decide
    · cases List.mem_singleton.mp he
      cases haddress
      decide
    · cases h
  have hservice : Clear (({} : Routing).handle (.upsertEndpointSlice (webSlice (js "web"))))
      (.upsertService webService) := by
    refine ⟨by decide, by decide, fun _ => ⟨⟨by decide, by decide, by decide, ?_, by decide⟩, ?_⟩⟩
    · intro p hp q hq _
      cases List.mem_singleton.mp hp
      cases List.mem_singleton.mp hq
      rfl
    · exact ⟨by decide, fun nodePort hmem => by cases hmem⟩
  have hstart : (proxySystem.guarded Clear).Run [] {} := .start ⟨rfl, rfl, rfl, rfl, rfl⟩
  have hrun := (hstart.snoc ⟨rfl, hslice⟩).snoc ⟨rfl, hservice⟩
  obtain ⟨-, -, htargets⟩ := targets_of_run (fun _ => none) hrun
  obtain ⟨list, hlist, hperm, -⟩ := htargets (js "default/web") webService (by decide) (by decide)
    { port := 80 } (by decide)
  exact ⟨list, hlist, hperm⟩

/-- The service keeps the target of a slice that is now labelled with
another one. -/
theorem relabelled_target : ∃ s, proxySystem.Reach s ∧
    s.proxy.services.get webService.key = some webService ∧ isRoutableService webService = true
      ∧ endpointsOf s.proxy webService { port := 80 } = []
      ∧ s.network.targetListsByServicePort.get (js "default/web:80")
        = some { targets := [js "10.0.0.1:8080"] } := by
  have hstart : proxySystem.Reach {} := .start ⟨rfl, rfl, rfl, rfl, rfl⟩
  have hservice := hstart.step (l := .upsertService webService) rfl
  have hlabelled := hservice.step (l := .upsertEndpointSlice (webSlice (js "web"))) rfl
  have hrelabelled := hlabelled.step (l := .upsertEndpointSlice (webSlice (js "api"))) rfl
  refine ⟨_, hrelabelled, ?_, ?_, ?_, ?_⟩
  · decide
  · decide
  · decide
  · decide

end Webernetes.Images
