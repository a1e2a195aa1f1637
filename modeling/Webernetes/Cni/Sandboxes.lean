/-
Webernetes.Cni.Sandboxes — which addresses the sandboxes of the network hold,
and which listeners go with them.

The search for an address starts after the one allocated last and goes on
with the address in the range that the iterator has come to, which is not the
first one (`walk`): the addresses before it are not tried. A listener goes
with a sandbox when its key starts with the address and a colon, which an
IPv6 address can be continued by.
-/
import Webernetes.Base.Transition
import Webernetes.Cni.Network

namespace Webernetes.Cni

open Js Net Base

/-! ## Addresses of a range -/

/-- The text is that of a usable address of the range. -/
def Usable (cidr : CIDR) (ip : JsString) : Prop :=
  ∃ v, cidr.usableFirst ≤ v ∧ v ≤ cidr.usableLast ∧ ip = cidr.formatValue v

theorem usable_firstAddress {cidr : CIDR} {ip : JsString} (h : cidr.firstAddress = some ip) :
    Usable cidr ip := by
  unfold CIDR.firstAddress at h
  split at h
  · cases h
    exact ⟨cidr.usableFirst, Nat.le_refl _, cidr.usableFirst_le_usableLast, rfl⟩
  · cases h

theorem usable_addressAfter {cidr : CIDR} {ip next : JsString} (h : cidr.addressAfter ip = some next) :
    Usable cidr next := by
  unfold CIDR.addressAfter at h
  split at h
  · cases h
  · rename_i value hvalue
    split at h
    · cases h
    · rename_i hcontains
      cases h
      simp only [CIDR.containsUsableAddress, hvalue, Option.any_some, Bool.or_eq_true, Bool.not_eq_true',
        decide_eq_true_eq, not_or, Bool.not_eq_false, Bool.and_eq_true, Nat.not_le] at hcontains
      exact ⟨value + 1, by omega, by omega, rfl⟩

/-- An address of some range: no text has a dot and a colon. -/
def IsAddress (ip : JsString) : Prop := ∃ cidr v, ip = CIDR.formatValue cidr v

theorem colon_not_mem_octets (octets : List Nat) : colon ∉ join [dot] (octets.map decimal) := by
  intro h
  rcases mem_join h with heq | ⟨part, hpart, hu⟩
  · exact absurd heq (by decide)
  · obtain ⟨n, -, rfl⟩ := List.mem_map.mp hpart
    exact colon_not_mem_decimal n hu

theorem dot_not_mem_formatGroups (groups : List Nat) : dot ∉ formatGroups groups := by
  intro h
  rcases isSome_hexDigit_of_mem_formatGroups h with heq | hdigit
  · exact absurd heq (by decide)
  · exact absurd hdigit (by decide)

theorem colon_not_mem_or_dot_not_mem_formatIP (ip : List Nat) :
    colon ∉ formatIP ip ∨ dot ∉ formatIP ip := by
  rw [formatIP]
  split
  · exact .inl (colon_not_mem_octets _)
  · dsimp only
    split
    · exact .inr (dot_not_mem_formatGroups _)
    · simp only [List.mem_append, not_or]
      exact .inr ⟨⟨dot_not_mem_formatGroups _, by decide⟩, dot_not_mem_formatGroups _⟩

theorem IsAddress.colon_not_mem_or {ip : JsString} (h : IsAddress ip) : colon ∉ ip ∨ dot ∉ ip := by
  obtain ⟨cidr, v, rfl⟩ := h
  unfold CIDR.formatValue
  split
  · exact .inl (colon_not_mem_octets _)
  · exact colon_not_mem_or_dot_not_mem_formatIP _

/-! ## The search -/

/-- The addresses that the search tries, in order: those after the last one
allocated, then those from the one that the iterator has come to. -/
def walk (cidr : CIDR) : Option Nat → List Nat
  | none => List.range' cidr.usableFirst cidr.count
  | some cursor =>
    let tried := cidr.usableLast - cursor
    List.range' (cursor + 1) tried ++ List.range' (cidr.usableFirst + tried) (cidr.count - tried)

/-- The addresses in the order of the loop: how many are left, the next of the
iterator, and the candidate, which may be past the last one. -/
def walkFrom (last : Nat) : Nat → Nat → Nat → List Nat
  | 0, _, _ => []
  | left + 1, value, candidate =>
    let selected := if candidate ≤ last then candidate else value
    selected :: walkFrom last left (value + 1) (selected + 1)

/-- By induction on the addresses left: from a candidate that is past the last
one, the walk goes on with the iterator. -/
theorem walkFrom_eq (last left : Nat) : ∀ {value candidate : Nat}, value + left = last + 1 →
    candidate ≤ last + 1 → last + 1 - candidate ≤ left →
    walkFrom last left value candidate = List.range' candidate (last + 1 - candidate)
      ++ List.range' (value + (last + 1 - candidate)) (left - (last + 1 - candidate)) := by
  induction left with
  | zero =>
    intro value candidate _ _ hleft
    have hnone : last + 1 - candidate = 0 := by omega
    simp [walkFrom, hnone]
  | succ left ih =>
    intro value candidate hvalue hcandidate hleft
    rw [walkFrom]
    split
    · rename_i hle
      have hsucc : last + 1 - candidate = (last + 1 - (candidate + 1)) + 1 := by omega
      rw [ih (by omega) (by omega) (by omega), hsucc, List.range'_succ, List.cons_append]
      congr 3 <;> omega
    · rename_i hgt
      have hnone : last + 1 - candidate = 0 := by omega
      have hall : left - (last + 1 - (value + 1)) = 0 := by omega
      have hrest : last + 1 - (value + 1) = left := by omega
      rw [ih (by omega) (by omega) (by omega), hnone, hall, hrest]
      simp [List.range'_succ]

variable {other : JsString → Option Int}

namespace ClusterNetwork

variable {network : ClusterNetwork}

/-- Every usable address of the range is held by a sandbox. -/
def AllTaken (network : ClusterNetwork) (cidr : CIDR) : Prop :=
  ∀ v, cidr.usableFirst ≤ v → v ≤ cidr.usableLast → network.podsByIp.contains (cidr.formatValue v) = true

/-- On the way of the search, a free address comes before any that is printed
as one of the other family. -/
def Finds (network : ClusterNetwork) (allocator : PodCIDRAllocator) : Prop :=
  ∃ v ∈ (walk allocator.cidr (allocator.cursor.bind ipToBigInt)).takeWhile
      (fun v => !allocator.cidr.Misprints v),
    network.podsByIp.contains (allocator.cidr.formatValue v) = false

/-- By induction on the addresses left: what is found is usable and free. -/
theorem usable_of_searchPodIp {cidr : CIDR} (left : Nat) : ∀ {value : Nat} {candidate : Option JsString}
    {selected : JsString}, cidr.usableFirst ≤ value → value + left = cidr.usableLast + 1 →
    (∀ ip, candidate = some ip → Usable cidr ip) →
    network.searchPodIp cidr left value candidate = some selected →
    Usable cidr selected ∧ network.podsByIp.contains selected = false := by
  induction left with
  | zero =>
    intro value candidate selected _ _ _ h
    cases h
  | succ left ih =>
    intro value candidate selected hfirst hlast hcandidate h
    rw [searchPodIp] at h
    have husable : Usable cidr (candidate.getD (cidr.formatValue value)) := by
      cases hc : candidate with
      | none => exact ⟨value, hfirst, by omega, rfl⟩
      | some ip => exact hcandidate ip hc
    split at h
    · rename_i hfree
      cases h
      exact ⟨husable, by simpa using hfree⟩
    · exact ih (by omega) (by omega) (fun ip hip => usable_addressAfter hip) h

/-- The candidate as a text. -/
def candidateOf (cidr : CIDR) (candidate : Nat) : Option JsString :=
  if candidate ≤ cidr.usableLast then some (cidr.formatValue candidate) else none

/-- By induction on the addresses left: the search goes the way of the walk,
as long as the addresses are read back. -/
theorem searchPodIp_of_mem {cidr : CIDR} (left : Nat) : ∀ {value candidate : Nat},
    cidr.usableFirst ≤ value → value + left = cidr.usableLast + 1 → cidr.usableFirst ≤ candidate →
    (∃ v ∈ (walkFrom cidr.usableLast left value candidate).takeWhile (fun v => !cidr.Misprints v),
      network.podsByIp.contains (cidr.formatValue v) = false) →
    ∃ v, network.searchPodIp cidr left value (candidateOf cidr candidate) = some (cidr.formatValue v)
      ∧ cidr.usableFirst ≤ v ∧ v ≤ cidr.usableLast ∧ cidr.Misprints v = false := by
  induction left with
  | zero =>
    intro value candidate _ _ _ h
    obtain ⟨v, hv, -⟩ := h
    cases hv
  | succ left ih =>
    intro value candidate hvalue hleft hcandidate h
    obtain ⟨v, hv, hfree⟩ := h
    rw [walkFrom] at hv
    set selected := if candidate ≤ cidr.usableLast then candidate else value with hselected
    have hfirst : cidr.usableFirst ≤ selected := by
      rw [hselected]
      split <;> omega
    have hlast : selected ≤ cidr.usableLast := by
      rw [hselected]
      split <;> omega
    have htext : (candidateOf cidr candidate).getD (cidr.formatValue value) = cidr.formatValue selected := by
      rw [candidateOf, hselected]
      split <;> rfl
    rw [List.takeWhile_cons] at hv
    split at hv
    · rename_i hprints
      have hprinted : cidr.Misprints selected = false := by simpa using hprints
      rw [searchPodIp]
      rw [htext]
      split
      · exact ⟨selected, rfl, hfirst, hlast, hprinted⟩
      · rename_i htaken
        have hnext : cidr.addressAfter (cidr.formatValue selected) = candidateOf cidr (selected + 1) := by
          rw [CIDR.addressAfter_formatValue hfirst hlast hprinted, candidateOf]
          split
          · rw [if_neg (by omega)]
          · rw [if_pos (by omega)]
        rw [hnext]
        refine ih (by omega) (by omega) (by omega) ⟨v, ?_, hfree⟩
        rcases List.mem_cons.mp hv with rfl | hv
        · rw [hfree] at htaken
          exact absurd rfl htaken
        · exact hv
    · cases hv

/-- The address allocated last is a usable one, and is read back. -/
def Printed (allocator : PodCIDRAllocator) : Prop :=
  ∀ cursor, allocator.cursor = some cursor → ∃ v, allocator.cidr.usableFirst ≤ v
    ∧ v ≤ allocator.cidr.usableLast ∧ allocator.cidr.Misprints v = false
    ∧ cursor = allocator.cidr.formatValue v

/-- The candidate that the search starts from. -/
def firstCandidate (allocator : PodCIDRAllocator) : Option JsString :=
  match allocator.cursor with
  | some cursor => allocator.cidr.addressAfter cursor
  | none => allocator.cidr.firstAddress

theorem usable_firstCandidate {allocator : PodCIDRAllocator} {ip : JsString}
    (h : firstCandidate allocator = some ip) : Usable allocator.cidr ip := by
  unfold firstCandidate at h
  split at h
  · exact usable_addressAfter h
  · exact usable_firstAddress h

theorem count_add (cidr : CIDR) : cidr.usableFirst + cidr.count = cidr.usableLast + 1 := by
  have hle := cidr.usableFirst_le_usableLast
  rw [CIDR.count]
  omega

/-- The loop starts where the walk does. -/
theorem firstCandidate_eq {allocator : PodCIDRAllocator} (h : Printed allocator) :
    ∃ candidate, firstCandidate allocator = candidateOf allocator.cidr candidate
      ∧ allocator.cidr.usableFirst ≤ candidate
      ∧ walk allocator.cidr (allocator.cursor.bind ipToBigInt) = walkFrom allocator.cidr.usableLast
        allocator.cidr.count allocator.cidr.usableFirst candidate := by
  have hcount := count_add allocator.cidr
  have hle := allocator.cidr.usableFirst_le_usableLast
  cases hcursor : allocator.cursor with
  | none =>
    refine ⟨allocator.cidr.usableFirst, ?_, Nat.le_refl _, ?_⟩
    · rw [firstCandidate, hcursor]
      rfl
    · rw [walkFrom_eq _ _ hcount (by omega) (by omega)]
      have hall : allocator.cidr.usableLast + 1 - allocator.cidr.usableFirst = allocator.cidr.count := rfl
      simp [walk, hall]
  | some cursor =>
    obtain ⟨v, hfirst, hlast, hprints, rfl⟩ := h cursor hcursor
    have hvalue := (CIDR.readBack (hlast.trans_lt allocator.cidr.usableLast_lt) hprints).2
    refine ⟨v + 1, ?_, by omega, ?_⟩
    · rw [firstCandidate, hcursor]
      dsimp only
      rw [CIDR.addressAfter_formatValue hfirst hlast hprints, candidateOf]
      split
      · rw [if_neg (by omega)]
      · rw [if_pos (by omega)]
    · rw [walkFrom_eq _ _ hcount (by omega) (by omega), Option.bind_some, hvalue, walk]
      have htried : allocator.cidr.usableLast + 1 - (v + 1) = allocator.cidr.usableLast - v := by omega
      rw [htried]

/-- The allocators with one of them set. -/
def setAllocator (network : ClusterNetwork) (podCIDR : JsString) (allocator : PodCIDRAllocator) :
    ClusterNetwork :=
  { network with podIpAllocators := network.podIpAllocators.set podCIDR allocator }

theorem allocatePodIp_eq {podCIDR : JsString} {allocator : PodCIDRAllocator}
    (h : network.podIpAllocator other podCIDR = .ok allocator) :
    network.allocatePodIp other podCIDR =
      match network.searchPodIp allocator.cidr allocator.cidr.count allocator.cidr.usableFirst
          (firstCandidate allocator) with
      | some selected => (network.setAllocator podCIDR { allocator with cursor := some selected }, .ok selected)
      | none => (network.setAllocator podCIDR allocator, .error (js "no free pod IPs in " ++ podCIDR)) := by
  unfold allocatePodIp
  rw [h]
  rfl

theorem allocatePodIp_of_allTaken {podCIDR : JsString} {allocator : PodCIDRAllocator}
    (h : network.podIpAllocator other podCIDR = .ok allocator) (htaken : network.AllTaken allocator.cidr) :
    network.allocatePodIp other podCIDR
      = (network.setAllocator podCIDR allocator, .error (js "no free pod IPs in " ++ podCIDR)) := by
  rw [allocatePodIp_eq h]
  cases hsearch : network.searchPodIp allocator.cidr allocator.cidr.count allocator.cidr.usableFirst
      (firstCandidate allocator) with
  | none => rfl
  | some selected =>
    obtain ⟨⟨v, hfirst, hlast, rfl⟩, hfree⟩ := usable_of_searchPodIp _ (Nat.le_refl _)
      (count_add allocator.cidr) (fun ip => usable_firstCandidate) hsearch
    rw [htaken v hfirst hlast] at hfree
    cases hfree

theorem allocatePodIp_of_finds {podCIDR : JsString} {allocator : PodCIDRAllocator}
    (h : network.podIpAllocator other podCIDR = .ok allocator) (hprinted : Printed allocator)
    (hfinds : network.Finds allocator) :
    ∃ v, allocator.cidr.usableFirst ≤ v ∧ v ≤ allocator.cidr.usableLast
      ∧ allocator.cidr.Misprints v = false
      ∧ network.podsByIp.contains (allocator.cidr.formatValue v) = false
      ∧ network.allocatePodIp other podCIDR = (network.setAllocator podCIDR
        { allocator with cursor := some (allocator.cidr.formatValue v) }, .ok (allocator.cidr.formatValue v)) := by
  obtain ⟨candidate, hcandidate, hfirst, hwalk⟩ := firstCandidate_eq hprinted
  have hcount := count_add allocator.cidr
  unfold Finds at hfinds
  rw [hwalk] at hfinds
  obtain ⟨v, hsearch, hv, hv', hprints⟩ := searchPodIp_of_mem _ (Nat.le_refl _) hcount hfirst hfinds
  rw [← hcandidate] at hsearch
  refine ⟨v, hv, hv', hprints, ?_, ?_⟩
  · exact (usable_of_searchPodIp _ (Nat.le_refl _) hcount (fun ip => usable_firstCandidate) hsearch).2
  · rw [allocatePodIp_eq h, hsearch]

/-! ## The listeners of an address -/

theorem get_dropListeners (listeners : JsMap JsString Handler) (ip key : JsString) :
    (dropListeners listeners ip).get key =
      if (ip ++ [colon]).isPrefixOf key then none else listeners.get key := by
  have hfilter : dropListeners listeners ip
      = (listeners.keys.filter ((ip ++ [colon]).isPrefixOf ·)).foldl JsMap.delete listeners := by
    rw [dropListeners, List.foldl_filter]
  refine Option.ext fun handler => ?_
  rw [hfilter, JsMap.get_foldl_delete, List.mem_filter]
  split
  · rename_i hstarts
    simp only [hstarts, and_true, reduceCtorEq, iff_false, not_and]
    intro hkey hget
    exact hkey (JsMap.mem_keys_iff.mpr ⟨handler, hget⟩)
  · rename_i hstarts
    simp [hstarts]

/-- A key starts with an address and a colon where it is that of a listener
bound at the address, or at one that continues it. -/
theorem isPrefixOf_listenerKey {ip ip' : JsString} {port : Nat} :
    (ip ++ [colon]).isPrefixOf (listenerKey ip' port) = true ↔ ip' = ip ∨ ip ++ [colon] <+: ip' := by
  rw [List.isPrefixOf_iff_prefix]
  constructor
  · rintro ⟨rest, hrest⟩
    rw [listenerKey, List.append_assoc, List.singleton_append] at hrest
    rcases List.append_eq_append_iff.mp hrest with ⟨more, hmore, htail⟩ | ⟨more, hmore, htail⟩
    · cases more with
      | nil => exact .inl (by simpa using hmore)
      | cons u more =>
        obtain ⟨rfl, -⟩ := List.cons.inj htail
        exact .inr ⟨more, by simp [hmore]⟩
    · cases more with
      | nil => exact .inl (by simpa using hmore.symm)
      | cons u more =>
        obtain ⟨-, hdecimal⟩ := List.cons.inj htail
        exact absurd (hdecimal ▸ by simp) (colon_not_mem_decimal port)
  · rintro (rfl | hstarts)
    · exact ⟨decimal port, by simp [listenerKey]⟩
    · exact hstarts.trans ⟨colon :: decimal port, rfl⟩

/-- No address continues one that has a dot. -/
theorem not_continued_of_dot {ip ip' : JsString} (hdot : dot ∈ ip) (h : IsAddress ip') :
    ¬ ip ++ [colon] <+: ip' := by
  intro hstarts
  rcases h.colon_not_mem_or with hcolon | hdot'
  · exact hcolon (hstarts.subset (by simp))
  · exact hdot' (hstarts.subset (by simp [hdot]))

end ClusterNetwork

/-! ## Runs -/

/-- What `setupPodSandbox` returns; a sandbox binds its listeners through it. -/
structure NetworkRegistration where
  podSandboxId : JsString
  podUid : JsString
  ip : JsString
  deriving DecidableEq

/-- The network, and the registrations that it has returned. -/
structure SandboxState where
  network : ClusterNetwork := {}
  registrations : List NetworkRegistration := []

inductive SandboxCall where
  | setupPodSandbox (pod : PodSandbox) (podCIDR : JsString)
  | unregisterPod (podSandboxId : JsString)
  | bindHttp (registration : NetworkRegistration) (port : Nat) (handler : Handler)
  | bindDns (registration : NetworkRegistration) (port : Nat) (handler : Handler)
  | closeHttp (listener : Listener)
  | closeDns (listener : Listener)

namespace SandboxState

def setupPodSandbox (other : JsString → Option Int) (s : SandboxState) (pod : PodSandbox)
    (podCIDR : JsString) : SandboxState :=
  match s.network.setupPodSandbox other pod podCIDR with
  | (network, .ok ip) =>
    { network, registrations := s.registrations ++ [{ podSandboxId := pod.id, podUid := pod.uid, ip }] }
  | (network, .error _) => { s with network }

def bindHttp (s : SandboxState) (registration : NetworkRegistration) (port : Nat) (handler : Handler) :
    SandboxState :=
  match s.network.bindHttp registration.podSandboxId registration.ip port handler with
  | .ok (network, _) => { s with network }
  | .error _ => s

def bindDns (s : SandboxState) (registration : NetworkRegistration) (port : Nat) (handler : Handler) :
    SandboxState :=
  match s.network.bindDns registration.podSandboxId registration.ip port handler with
  | .ok (network, _) => { s with network }
  | .error _ => s

def exec (other : JsString → Option Int) (s : SandboxState) : SandboxCall → SandboxState
  | .setupPodSandbox pod podCIDR => s.setupPodSandbox other pod podCIDR
  | .unregisterPod podSandboxId => { s with network := s.network.unregisterPod podSandboxId }
  | .bindHttp registration port handler => s.bindHttp registration port handler
  | .bindDns registration port handler => s.bindDns registration port handler
  | .closeHttp listener => { s with network := s.network.closeHttp listener }
  | .closeDns listener => { s with network := s.network.closeDns listener }

/-- The state with a sandbox. -/
def register (s : SandboxState) (pod : PodSandboxInstance)
    (configs : JsMap JsString DnsConfig) : SandboxState where
  network :=
    let network := s.network
    { network with
      podsBySandboxId := network.podsBySandboxId.set pod.id pod
      podsByIp := network.podsByIp.set pod.ip pod
      podDnsConfigsByUid := configs }
  registrations := s.registrations ++ [{ podSandboxId := pod.id, podUid := pod.uid, ip := pod.ip }]

/-- A listener is bound through a registration that was returned. -/
def Enabled (s : SandboxState) : SandboxCall → Prop
  | .bindHttp registration _ _ => registration ∈ s.registrations
  | .bindDns registration _ _ => registration ∈ s.registrations
  | _ => True

end SandboxState

/-- A network without pods, whatever else is in it. -/
structure Podless (network : ClusterNetwork) : Prop where
  allocators : network.podIpAllocators = .empty
  bySandboxId : network.podsBySandboxId = .empty
  byIp : network.podsByIp = .empty
  http : network.httpListeners = .empty
  dns : network.dnsListeners = .empty

def sandboxSystem (other : JsString → Option Int) : System SandboxState SandboxCall where
  init s := Podless s.network ∧ s.registrations = []
  step s call s' := s.Enabled call ∧ s' = s.exec other call

/-- A listener is bound at the address and the port. -/
def BoundAt (network : ClusterNetwork) (ip : JsString) (port : Nat) : Prop :=
  network.httpListeners.contains (listenerKey ip port) = true
    ∨ network.dnsListeners.contains (listenerKey ip port) = true

/-- The conditions under which a call does what it is for: a search for an
address meets a free one or there is none, and no listener is bound at an
address that continues that of a sandbox which is removed. -/
structure SandboxState.Clear (other : JsString → Option Int) (s : SandboxState) (call : SandboxCall) :
    Prop where
  finds : ∀ pod podCIDR, call = .setupPodSandbox pod podCIDR →
    s.network.podsBySandboxId.contains pod.id = false →
    ∀ allocator, s.network.podIpAllocator other podCIDR = .ok allocator →
      s.network.AllTaken allocator.cidr ∨ s.network.Finds allocator
  apart : ∀ id pod, call = .unregisterPod id → s.network.podsBySandboxId.get id = some pod →
    dot ∉ pod.ip → ∀ ip port, BoundAt s.network ip port → ¬ pod.ip ++ [colon] <+: ip

/-- The listeners are bound at addresses. -/
def AtAddresses (listeners : JsMap JsString Handler) : Prop :=
  ∀ key handler, listeners.get key = some handler → ∃ ip port, IsAddress ip ∧ key = listenerKey ip port

/-- What holds of the sandboxes in every state. -/
structure Held (other : JsString → Option Int) (s : SandboxState) : Prop where
  byIp : ∀ ip pod, s.network.podsByIp.get ip = some pod ↔
    s.network.podsBySandboxId.get pod.id = some pod ∧ pod.ip = ip
  named : ∀ id pod, s.network.podsBySandboxId.get id = some pod → pod.id = id
  addresses : ∀ id pod, s.network.podsBySandboxId.get id = some pod → IsAddress pod.ip
  allocators : ∀ podCIDR allocator, s.network.podIpAllocators.get podCIDR = some allocator →
    CIDR.new other podCIDR = .ok allocator.cidr ∧ ClusterNetwork.Printed allocator
  registrations : ∀ registration ∈ s.registrations, IsAddress registration.ip
  http : AtAddresses s.network.httpListeners
  dns : AtAddresses s.network.dnsListeners

namespace Held

variable {s : SandboxState}

theorem start (h : Podless s.network) (hnone : s.registrations = []) : Held other s := by
  refine ⟨fun ip pod => ?_, fun id pod hget => ?_, fun id pod hget => ?_, fun podCIDR allocator hget => ?_,
    fun registration hmem => ?_, fun key handler hget => ?_, fun key handler hget => ?_⟩
  · rw [h.byIp, h.bySandboxId]
    refine iff_of_false (fun hget => ?_) fun hget => ?_
    · cases hget
    · cases hget.1
  · rw [h.bySandboxId] at hget
    cases hget
  · rw [h.bySandboxId] at hget
    cases hget
  · rw [h.allocators] at hget
    cases hget
  · rw [hnone] at hmem
    cases hmem
  · rw [h.http] at hget
    cases hget
  · rw [h.dns] at hget
    cases hget

theorem allocator (h : Held other s) {podCIDR : JsString} {allocator : PodCIDRAllocator}
    (hallocator : s.network.podIpAllocator other podCIDR = .ok allocator) :
    CIDR.new other podCIDR = .ok allocator.cidr ∧ ClusterNetwork.Printed allocator := by
  unfold ClusterNetwork.podIpAllocator at hallocator
  cases hget : s.network.podIpAllocators.get podCIDR with
  | some existing =>
    rw [hget] at hallocator
    exact h.allocators podCIDR allocator (hget.trans (congrArg some (Except.ok.inj hallocator)))
  | none =>
    rw [hget] at hallocator
    cases hnew : CIDR.new other podCIDR with
    | error e =>
      rw [hnew] at hallocator
      cases hallocator
    | ok cidr =>
      rw [hnew] at hallocator
      cases hallocator
      exact ⟨rfl, fun cursor hcursor => by cases hcursor⟩

/-- There is an allocator for every range. -/
theorem exists_allocator (h : Held other s) {podCIDR : JsString} {cidr : CIDR}
    (hcidr : CIDR.new other podCIDR = .ok cidr) :
    ∃ allocator, s.network.podIpAllocator other podCIDR = .ok allocator ∧ allocator.cidr = cidr := by
  unfold ClusterNetwork.podIpAllocator
  cases hget : s.network.podIpAllocators.get podCIDR with
  | some existing =>
    have hsame := (h.allocators podCIDR existing hget).1
    rw [hcidr] at hsame
    exact ⟨existing, rfl, (Except.ok.inj hsame).symm⟩
  | none =>
    rw [hcidr]
    exact ⟨{ cidr }, rfl, rfl⟩

/-- The sandboxes hold no address twice. -/
theorem ip_inj (h : Held other s) {id id' : JsString} {pod pod' : PodSandboxInstance}
    (hget : s.network.podsBySandboxId.get id = some pod)
    (hget' : s.network.podsBySandboxId.get id' = some pod') (hip : pod.ip = pod'.ip) : id = id' := by
  have hid := h.named id pod hget
  have hid' := h.named id' pod' hget'
  subst hid hid'
  have hpod := (h.byIp pod.ip pod).mpr ⟨hget, rfl⟩
  have hpod' := (h.byIp pod.ip pod').mpr ⟨hget', hip.symm⟩
  rw [hpod] at hpod'
  cases hpod'
  rfl

theorem setAllocator (h : Held other s) {podCIDR : JsString} {allocator : PodCIDRAllocator}
    (hcidr : CIDR.new other podCIDR = .ok allocator.cidr) (hprinted : ClusterNetwork.Printed allocator) :
    Held other { s with network := s.network.setAllocator podCIDR allocator } := by
  refine ⟨h.byIp, h.named, h.addresses, fun podCIDR' allocator' hget => ?_, h.registrations, h.http, h.dns⟩
  rw [ClusterNetwork.setAllocator, JsMap.get_set] at hget
  split at hget
  · rename_i heq
    subst heq
    cases hget
    exact ⟨hcidr, hprinted⟩
  · exact h.allocators podCIDR' allocator' hget

/-- A sandbox with a free address. -/
theorem register (h : Held other s) (pod : PodSandboxInstance) (configs : JsMap JsString DnsConfig)
    (hid : s.network.podsBySandboxId.contains pod.id = false)
    (hfree : s.network.podsByIp.contains pod.ip = false) (hip : IsAddress pod.ip) :
    Held other (s.register pod configs) := by
  have hnone : ∀ pod', s.network.podsBySandboxId.get pod.id ≠ some pod' := by
    intro pod' hget
    have hcontains := JsMap.contains_iff.mpr ⟨pod', hget⟩
    rw [hid] at hcontains
    cases hcontains
  have hunheld : ∀ pod', s.network.podsByIp.get pod.ip ≠ some pod' := by
    intro pod' hget
    have hcontains := JsMap.contains_iff.mpr ⟨pod', hget⟩
    rw [hfree] at hcontains
    cases hcontains
  refine ⟨fun ip pod' => ?_, fun id pod' hget => ?_, fun id pod' hget => ?_, h.allocators,
    fun registration hmem => ?_, h.http, h.dns⟩
  · rw [SandboxState.register, JsMap.get_set, JsMap.get_set]
    split
    · rename_i heq
      subst heq
      split
      · constructor
        · intro hsome
          cases hsome
          exact ⟨rfl, rfl⟩
        · intro hsome
          exact hsome.1
      · rename_i hne
        constructor
        · intro hsome
          cases hsome
          exact absurd rfl hne
        · rintro ⟨hget, hip'⟩
          exact absurd ((h.byIp pod.ip pod').mpr ⟨hget, hip'⟩) (hunheld pod')
    · rename_i hne
      split
      · rename_i heq
        constructor
        · intro hget
          have hgot := ((h.byIp ip pod').mp hget).1
          rw [heq] at hgot
          exact absurd hgot (hnone pod')
        · rintro ⟨hsome, hip'⟩
          cases hsome
          exact absurd hip'.symm hne
      · exact h.byIp ip pod'
  · rw [SandboxState.register, JsMap.get_set] at hget
    split at hget
    · rename_i heq
      cases hget
      exact heq.symm
    · exact h.named id pod' hget
  · rw [SandboxState.register, JsMap.get_set] at hget
    split at hget
    · cases hget
      exact hip
    · exact h.addresses id pod' hget
  · rcases List.mem_append.mp hmem with hmem | hmem
    · exact h.registrations registration hmem
    · cases List.mem_singleton.mp hmem
      exact hip

/-- What `setupPodSandbox` gives where its condition is met. -/
theorem setup (h : Held other s) (pod : PodSandbox) (podCIDR : JsString)
    (hclear : s.Clear other (.setupPodSandbox pod podCIDR)) :
    Held other (s.setupPodSandbox other pod podCIDR) := by
  unfold SandboxState.setupPodSandbox ClusterNetwork.setupPodSandbox
  cases hid : s.network.podsBySandboxId.contains pod.id with
  | true => exact h
  | false =>
    cases hallocator : s.network.podIpAllocator other podCIDR with
    | error e =>
      have hfails : s.network.allocatePodIp other podCIDR = (s.network, .error e) := by
        unfold ClusterNetwork.allocatePodIp
        rw [hallocator]
      rw [hfails]
      exact h
    | ok allocator =>
      obtain ⟨hcidr, hprinted⟩ := h.allocator hallocator
      rcases hclear.finds pod podCIDR rfl hid allocator hallocator with htaken | hfinds
      · rw [ClusterNetwork.allocatePodIp_of_allTaken hallocator htaken]
        exact h.setAllocator hcidr hprinted
      · obtain ⟨v, hfirst, hlast, hprints, hfree, hallocate⟩ :=
          ClusterNetwork.allocatePodIp_of_finds hallocator hprinted hfinds
        rw [hallocate]
        set moved : PodCIDRAllocator :=
          { allocator with cursor := some (allocator.cidr.formatValue v) } with hmoved
        have hmovedCidr : CIDR.new other podCIDR = .ok moved.cidr := hcidr
        have hmovedPrinted : ClusterNetwork.Printed moved := by
          intro cursor hcursor
          cases hcursor
          exact ⟨v, hfirst, hlast, hprints, rfl⟩
        have hset := h.setAllocator hmovedCidr hmovedPrinted
        have hip : IsAddress (allocator.cidr.formatValue v) := ⟨allocator.cidr, v, rfl⟩
        exact hset.register { pod with ip := allocator.cidr.formatValue v } _ hid hfree hip

theorem dropListeners {listeners : JsMap JsString Handler} (h : AtAddresses listeners) (ip : JsString) :
    AtAddresses (ClusterNetwork.dropListeners listeners ip) := by
  intro key handler hget
  rw [ClusterNetwork.get_dropListeners] at hget
  split at hget
  · cases hget
  · exact h key handler hget

theorem unregister (h : Held other s) (podSandboxId : JsString) :
    Held other { s with network := s.network.unregisterPod podSandboxId } := by
  unfold ClusterNetwork.unregisterPod
  cases hget : s.network.podsBySandboxId.get podSandboxId with
  | none => exact h
  | some pod =>
    have hid := h.named podSandboxId pod hget
    subst hid
    refine ⟨fun ip pod' => ?_, fun id pod' hget' => ?_, fun id pod' hget' => ?_, h.allocators,
      h.registrations, dropListeners h.http pod.ip, dropListeners h.dns pod.ip⟩
    · dsimp only
      rw [JsMap.get_delete, JsMap.get_delete]
      split
      · rename_i heq
        subst heq
        refine iff_of_false (fun hsome => by cases hsome) ?_
        rintro ⟨hsome, hip⟩
        split at hsome
        · cases hsome
        · rename_i hne
          exact hne (h.ip_inj hsome hget hip)
      · rename_i hne
        split
        · rename_i heq
          refine iff_of_false (fun hsome => ?_) fun hsome => by cases hsome.1
          obtain ⟨hgot, hip⟩ := (h.byIp ip pod').mp hsome
          rw [heq, hget] at hgot
          cases hgot
          exact hne hip.symm
        · exact h.byIp ip pod'
    · dsimp only at hget'
      rw [JsMap.get_delete] at hget'
      split at hget'
      · cases hget'
      · exact h.named id pod' hget'
    · dsimp only at hget'
      rw [JsMap.get_delete] at hget'
      split at hget'
      · cases hget'
      · exact h.addresses id pod' hget'

theorem bind {listeners listeners' : JsMap JsString Handler} {kind id ip : JsString} {port : Nat}
    {handler : Handler} {listener : Listener} (h : AtAddresses listeners) (hip : IsAddress ip)
    (hbind : s.network.bind kind listeners id ip port handler = .ok (listeners', listener)) :
    AtAddresses listeners' := by
  unfold ClusterNetwork.bind at hbind
  split at hbind
  · cases hbind
  · dsimp only at hbind
    split at hbind
    · cases hbind
    · cases hbind
      intro key handler' hget
      rw [JsMap.get_set] at hget
      split at hget
      · rename_i heq
        exact ⟨ip, port, hip, heq⟩
      · exact h key handler' hget

theorem close {listeners : JsMap JsString Handler} (h : AtAddresses listeners) (listener : Listener) :
    AtAddresses (ClusterNetwork.close listeners listener) := by
  unfold ClusterNetwork.close
  dsimp only
  split
  · intro key handler hget
    rw [JsMap.get_delete] at hget
    split at hget
    · cases hget
    · exact h key handler hget
  · exact h

theorem bindHttp (h : Held other s) {registration : NetworkRegistration} (port : Nat) (handler : Handler)
    (henabled : registration ∈ s.registrations) : Held other (s.bindHttp registration port handler) := by
  unfold SandboxState.bindHttp ClusterNetwork.bindHttp
  cases hbind : s.network.bind (js "HTTP") s.network.httpListeners registration.podSandboxId
      registration.ip port handler with
  | error e => exact h
  | ok bound =>
    exact ⟨h.byIp, h.named, h.addresses, h.allocators, h.registrations,
      bind h.http (h.registrations registration henabled) hbind, h.dns⟩

theorem bindDns (h : Held other s) {registration : NetworkRegistration} (port : Nat) (handler : Handler)
    (henabled : registration ∈ s.registrations) : Held other (s.bindDns registration port handler) := by
  unfold SandboxState.bindDns ClusterNetwork.bindDns
  cases hbind : s.network.bind (js "DNS") s.network.dnsListeners registration.podSandboxId
      registration.ip port handler with
  | error e => exact h
  | ok bound =>
    exact ⟨h.byIp, h.named, h.addresses, h.allocators, h.registrations, h.http,
      bind h.dns (h.registrations registration henabled) hbind⟩

/-- One case for each call. -/
theorem exec (h : Held other s) {call : SandboxCall} (henabled : s.Enabled call)
    (hclear : s.Clear other call) : Held other (s.exec other call) := by
  cases call with
  | setupPodSandbox pod podCIDR => exact h.setup pod podCIDR hclear
  | unregisterPod podSandboxId => exact h.unregister podSandboxId
  | bindHttp registration port handler => exact h.bindHttp port handler henabled
  | bindDns registration port handler => exact h.bindDns port handler henabled
  | closeHttp listener =>
    exact ⟨h.byIp, h.named, h.addresses, h.allocators, h.registrations, close h.http listener, h.dns⟩
  | closeDns listener =>
    exact ⟨h.byIp, h.named, h.addresses, h.allocators, h.registrations, h.http, close h.dns listener⟩

end Held

theorem held_of_reach {s : SandboxState}
    (h : ((sandboxSystem other).guarded (SandboxState.Clear other)).Reach s) : Held other s := by
  refine h.invariant (P := Held other) ?_ ?_
  · intro s hs
    exact Held.start hs.1 hs.2
  · intro s call s' _ hheld hstep
    rw [hstep.1.2]
    exact hheld.exec hstep.1.1 hstep.2

/-- What setting up a sandbox does, whose id is new. -/
structure Allocates (other : JsString → Option Int) (network : ClusterNetwork) (pod : PodSandbox)
    (podCIDR : JsString) (cidr : CIDR) : Prop where
  fails : (∃ e, (network.setupPodSandbox other pod podCIDR).2 = .error e) ↔ network.AllTaken cidr
  usable : ∀ ip, (network.setupPodSandbox other pod podCIDR).2 = .ok ip →
    cidr.containsUsableAddress ip = true
  free : ∀ ip, (network.setupPodSandbox other pod podCIDR).2 = .ok ip → network.podsByIp.get ip = none

/-- What removing a sandbox does. -/
structure Unregisters (network : ClusterNetwork) (id : JsString) (pod : PodSandboxInstance) : Prop where
  gone : (network.unregisterPod id).podsBySandboxId.get id = none
  freed : (network.unregisterPod id).podsByIp.get pod.ip = none
  others : ∀ id', id' ≠ id →
    (network.unregisterPod id).podsBySandboxId.get id' = network.podsBySandboxId.get id'
  http : ∀ ip port, (network.unregisterPod id).httpListeners.get (listenerKey ip port) =
    if ip = pod.ip then none else network.httpListeners.get (listenerKey ip port)
  dns : ∀ ip port, (network.unregisterPod id).dnsListeners.get (listenerKey ip port) =
    if ip = pod.ip then none else network.dnsListeners.get (listenerKey ip port)

namespace Held

variable {s : SandboxState}

theorem allocates (h : Held other s) {pod : PodSandbox} {podCIDR : JsString} {cidr : CIDR}
    (hcidr : CIDR.new other podCIDR = .ok cidr) (hid : s.network.podsBySandboxId.contains pod.id = false)
    (hclear : s.Clear other (.setupPodSandbox pod podCIDR)) :
    Allocates other s.network pod podCIDR cidr := by
  obtain ⟨allocator, hallocator, rfl⟩ := h.exists_allocator hcidr
  have hprinted := (h.allocator hallocator).2
  rcases hclear.finds pod podCIDR rfl hid allocator hallocator with htaken | hfinds
  · have hfails : (s.network.setupPodSandbox other pod podCIDR).2
        = .error (js "no free pod IPs in " ++ podCIDR) := by
      unfold ClusterNetwork.setupPodSandbox
      rw [ClusterNetwork.allocatePodIp_of_allTaken hallocator htaken, hid]
      rfl
    refine ⟨iff_of_true ⟨_, hfails⟩ htaken, fun ip hok => ?_, fun ip hok => ?_⟩
    · rw [hfails] at hok
      cases hok
    · rw [hfails] at hok
      cases hok
  · obtain ⟨v, hfirst, hlast, hprints, hfree, hallocate⟩ :=
      ClusterNetwork.allocatePodIp_of_finds hallocator hprinted hfinds
    have hok : (s.network.setupPodSandbox other pod podCIDR).2 = .ok (allocator.cidr.formatValue v) := by
      unfold ClusterNetwork.setupPodSandbox
      rw [hallocate, hid]
      rfl
    refine ⟨iff_of_false ?_ fun htaken => ?_, fun ip hip => ?_, fun ip hip => ?_⟩
    · rintro ⟨e, he⟩
      rw [hok] at he
      cases he
    · rw [htaken v hfirst hlast] at hfree
      cases hfree
    · rw [hok] at hip
      cases hip
      exact CIDR.containsUsableAddress_formatValue hfirst hlast hprints
    · rw [hok] at hip
      cases hip
      rw [Option.eq_none_iff_forall_ne_some]
      intro pod' hget
      rw [JsMap.contains_iff.mpr ⟨pod', hget⟩] at hfree
      cases hfree

/-- The listeners that are left are those at the other addresses. -/
theorem get_dropped {listeners : JsMap JsString Handler} (h : AtAddresses listeners) {pod : PodSandboxInstance}
    (hapart : dot ∉ pod.ip → ∀ ip port, listeners.contains (listenerKey ip port) = true →
      ¬ pod.ip ++ [colon] <+: ip) (ip : JsString) (port : Nat) :
    (ClusterNetwork.dropListeners listeners pod.ip).get (listenerKey ip port) =
      if ip = pod.ip then none else listeners.get (listenerKey ip port) := by
  rw [ClusterNetwork.get_dropListeners]
  by_cases heq : ip = pod.ip
  · rw [if_pos (ClusterNetwork.isPrefixOf_listenerKey.mpr (.inl heq)), if_pos heq]
  · rw [if_neg heq]
    split
    · rename_i hstarts
      have hcontinued := (ClusterNetwork.isPrefixOf_listenerKey.mp hstarts).resolve_left heq
      cases hget : listeners.get (listenerKey ip port) with
      | none => rfl
      | some handler =>
        obtain ⟨ip', port', hip', hkey⟩ := h _ handler hget
        obtain ⟨rfl, -⟩ := listenerKey_inj hkey
        by_cases hdot : dot ∈ pod.ip
        · exact absurd hcontinued (ClusterNetwork.not_continued_of_dot hdot hip')
        · exact absurd hcontinued (hapart hdot ip port (JsMap.contains_iff.mpr ⟨handler, hget⟩))
    · rfl

theorem unregisters (h : Held other s) {id : JsString} {pod : PodSandboxInstance}
    (hget : s.network.podsBySandboxId.get id = some pod) (hclear : s.Clear other (.unregisterPod id)) :
    Unregisters s.network id pod := by
  have hapart := hclear.apart id pod rfl hget
  refine ⟨?_, ?_, fun id' hne => ?_, fun ip port => ?_, fun ip port => ?_⟩
  · rw [ClusterNetwork.unregisterPod, hget]
    exact (JsMap.get_delete _ _ _).trans (if_pos rfl)
  · rw [ClusterNetwork.unregisterPod, hget]
    exact (JsMap.get_delete _ _ _).trans (if_pos rfl)
  · rw [ClusterNetwork.unregisterPod, hget]
    exact (JsMap.get_delete _ _ _).trans (if_neg hne)
  · rw [ClusterNetwork.unregisterPod, hget]
    exact get_dropped h.http (fun hdot ip port hbound => hapart hdot ip port (.inl hbound)) ip port
  · rw [ClusterNetwork.unregisterPod, hget]
    exact get_dropped h.dns (fun hdot ip port hbound => hapart hdot ip port (.inr hbound)) ip port

end Held

/-- A range of two usable addresses. -/
def smallRange : JsString := js "10.0.0.0/30"

def smallCIDR : CIDR := CIDR.of .v4 (10 * 2 ^ 24) 30 (by decide)

/-- The calls after which the address before the one allocated last is free
and the one after it is not. -/
def wrappedCalls : List SandboxCall :=
  [.setupPodSandbox { id := js "a", uid := js "1" } smallRange,
    .setupPodSandbox { id := js "b", uid := js "2" } smallRange, .unregisterPod (js "a"),
    .setupPodSandbox { id := js "c", uid := js "3" } smallRange, .unregisterPod (js "c")]

end Webernetes.Cni
