/-
Webernetes.Kubelet.PodConfigSources — the lists that the sources deliver, one
after another, and the set that a consumer keeps for each.

What the consumer has is what is stored, and a list that is delivered again is
not told of (`InStep`). The stored pods are those of the latest list as long
as each list meets `Told`.
-/
import Webernetes.Kubelet.PodConfigRuns

namespace Webernetes.Kubelet.PodConfig

open Js Base

variable {N : Type} [DecidableEq N]

/-! ## What is told -/

/-- The pods that a merge tells of, by their operation. -/
def toldOf (old : JsMap JsString (Pod N)) (source : JsString) (now : JsString → JsString)
    (refs : List (Pod N)) (m : Merging N) : PodOperation → List (Pod N)
  | .remove => removedPods m
  | op => (told old source op refs).map (storedPod old source now)

def podOperations : List PodOperation := [.remove, .add, .update, .delete, .reconcile]

omit [DecidableEq N] in
theorem flatMap_sendUnlessEmpty (update : PodUpdate N) : (sendUnlessEmpty update).flatMap PodUpdate.pods = update.pods := by
  unfold sendUnlessEmpty
  split
  · rename_i hempty
    rw [List.isEmpty_iff.mp hempty]
    rfl
  · simp

omit [DecidableEq N] in
theorem flatMap_send (seenBefore : Bool) (adds updates deletes removes reconciles : PodUpdate N) :
    (send seenBefore adds updates deletes removes reconciles).flatMap PodUpdate.pods
      = removes.pods ++ adds.pods ++ updates.pods ++ deletes.pods ++ reconciles.pods := by
  have hfirst : (if (!seenBefore && adds.pods.isEmpty && updates.pods.isEmpty && deletes.pods.isEmpty)
      then [adds] else []).flatMap PodUpdate.pods = [] := by
    split
    · rename_i hempty
      simp only [Bool.and_eq_true, List.isEmpty_iff] at hempty
      simp [hempty.1.1.2]
    · rfl
  unfold send
  simp only [List.flatMap_append, flatMap_sendUnlessEmpty, hfirst, List.append_nil]

section Merge

variable {storage : PodStorage N} {source : JsString} {now : JsString → JsString} {pods : List (Pod N)}

theorem flatMap_merge (hnodup : (pods.map Pod.key).Nodup) :
    (storage.merge source now pods).2.flatMap PodUpdate.pods = podOperations.flatMap
      (toldOf (storage.podsOf source) source now (filterInvalidPods pods)
        (mergePods (storage.podsOf source) source now pods)) := by
  have hmerged : Merged (storage.podsOf source) source now (filterInvalidPods pods)
      (mergePods (storage.podsOf source) source now pods) := merged_mergePods hnodup
  have hfiltered := nodup_filterInvalidPods hnodup
  unfold PodStorage.merge
  dsimp only
  generalize mergePods (storage.podsOf source) source now pods = m at hmerged
  generalize filterInvalidPods pods = refs at hmerged hfiltered
  rw [flatMap_send, hmerged.updatePods, hmerged.deletePods, hmerged.reconcilePods, hmerged.addPods,
    filterMap_told hmerged hfiltered (by simp), filterMap_told hmerged hfiltered (by simp),
    filterMap_told hmerged hfiltered (by simp)]
  simp [podOperations, toldOf]

theorem map_key_told {old : JsMap JsString (Pod N)} (hkeyed : Keyed old) (op : PodOperation)
    (refs : List (Pod N)) : ((told old source op refs).map (storedPod old source now)).map Pod.key
      = (told old source op refs).map Pod.key := by
  rw [List.map_map]
  exact List.map_congr_left fun ref _ => key_storedPod hkeyed source now ref

theorem map_key_removedPods {old : JsMap JsString (Pod N)} {refs : List (Pod N)} {m : Merging N}
    (h : Merged old source now refs m) (hkeyed : Keyed old) : (removedPods m).map Pod.key
      = (m.oldPods.entries.filter fun entry => !m.pods.contains entry.1).map Prod.fst := by
  rw [removedPods, List.map_map]
  refine List.map_congr_left fun entry hmem => ?_
  obtain ⟨key, pod⟩ := entry
  obtain ⟨hmem, hgone⟩ := List.mem_filter.mp hmem
  have hget := JsMap.get_eq_some_iff.mpr hmem
  have hnone : listed refs key = none := by
    cases hlisted : listed refs key with
    | none => rfl
    | some ref =>
      rw [JsMap.contains_iff.mpr ⟨storedPod old source now ref, by rw [h.pods, hlisted]; rfl⟩] at hgone
      cases hgone
  rw [h.oldPods, hnone] at hget
  refine hkeyed key pod ?_
  cases hold : old.get key with
  | none =>
    rw [hold] at hget
    cases hget
  | some existing => simpa [hold] using hget

/-- Each pod is told of in one operation at most. -/
theorem nodup_merge (hkeyed : Keyed (storage.podsOf source)) (hnodup : (pods.map Pod.key).Nodup) :
    (((storage.merge source now pods).2.flatMap PodUpdate.pods).map Pod.key).Nodup := by
  have hmerged : Merged (storage.podsOf source) source now (filterInvalidPods pods)
      (mergePods (storage.podsOf source) source now pods) := merged_mergePods hnodup
  have hfiltered := nodup_filterInvalidPods hnodup
  rw [flatMap_merge hnodup]
  generalize mergePods (storage.podsOf source) source now pods = m at hmerged
  generalize filterInvalidPods pods = refs at hmerged hfiltered
  generalize storage.podsOf source = old at hmerged hkeyed
  -- a pod that is told of is listed, but for the removed ones
  have htold : ∀ op, op ≠ .remove → (toldOf old source now refs m op).map Pod.key
      = (told old source op refs).map Pod.key := by
    intro op hop
    cases op with
    | remove => exact absurd rfl hop
    | add => exact map_key_told hkeyed .add refs
    | update => exact map_key_told hkeyed .update refs
    | delete => exact map_key_told hkeyed .delete refs
    | reconcile => exact map_key_told hkeyed .reconcile refs
  have hremoved : ∀ key ∈ (removedPods m).map Pod.key, key ∉ refs.map Pod.key := by
    intro key hmem
    obtain ⟨pod, hpod, rfl⟩ := List.mem_map.mp hmem
    obtain ⟨key, hget, hnone⟩ := (mem_removedPods hmerged).mp hpod
    rw [hkeyed key pod hget]
    exact listed_eq_none.mp hnone
  have hlisted : ∀ op, ∀ key ∈ (told old source op refs).map Pod.key,
      ∃ ref, listed refs key = some ref ∧ opOf old source ref = some op := by
    intro op key hmem
    obtain ⟨ref, href, rfl⟩ := List.mem_map.mp hmem
    obtain ⟨href, hop⟩ := List.mem_filter.mp href
    exact ⟨ref, listed_of_mem hfiltered href, of_decide_eq_true hop⟩
  rw [List.map_flatMap, List.nodup_flatMap]
  constructor
  · intro op _
    by_cases hop : op = .remove
    · subst hop
      show ((removedPods m).map Pod.key).Nodup
      rw [map_key_removedPods hmerged hkeyed]
      exact m.oldPods.nodup_keys.sublist (List.filter_sublist.map Prod.fst)
    · rw [htold op hop]
      exact hfiltered.sublist (List.filter_sublist.map Pod.key)
  · have hops : podOperations.Nodup := by decide
    refine hops.imp fun {op op'} hne => ?_
    show List.Disjoint ((toldOf old source now refs m op).map Pod.key)
      ((toldOf old source now refs m op').map Pod.key)
    intro key hkey hkey'
    by_cases hop : op = .remove
    · subst hop
      rw [htold op' (Ne.symm hne)] at hkey'
      obtain ⟨ref, href, -⟩ := hlisted op' key hkey'
      exact hremoved key hkey (List.mem_map.mpr ⟨ref, listed_key href⟩)
    · rw [htold op hop] at hkey
      obtain ⟨ref, href, hopOf⟩ := hlisted op key hkey
      by_cases hop' : op' = .remove
      · subst hop'
        exact hremoved key hkey' (List.mem_map.mpr ⟨ref, listed_key href⟩)
      · rw [htold op' hop'] at hkey'
        obtain ⟨ref', href', hopOf'⟩ := hlisted op' key hkey'
        rw [href] at href'
        cases href'
        rw [hopOf] at hopOf'
        exact hne (Option.some.inj hopOf')

/-! ## The same list again -/

/-- What is stored is not told apart from the listed pod. -/
theorem settled_checkAndUpdatePod (existing ref : Pod N) :
    podsDifferSemantically (checkAndUpdatePod existing ref).pod ref = false
      ∧ Value.deepEqual (checkAndUpdatePod existing ref).pod.status ref.status = true := by
  unfold checkAndUpdatePod
  cases hdiffer : podsDifferSemantically existing ref with
  | false =>
    rw [if_pos (by simp)]
    split
    · exact ⟨hdiffer, Value.deepEqual_refl _⟩
    · rename_i hstatus
      exact ⟨hdiffer, by simpa using hstatus⟩
  | true =>
    rw [if_neg (by simp)]
    unfold podsDifferSemantically
    simp only [Value.deepEqual_refl, Bool.true_and, and_true, Bool.not_eq_false']
    refine isAnnotationMapEqual_of_same fun key hlocal => ?_
    simp only [Pod.annotationMap, Option.getD_some]
    rw [get_updateAnnotations, if_neg (by rw [hlocal]; simp)]
    exact JsMap.get_set_of_ne _ _ (ne_configFirstSeen hlocal)

theorem settled_recordFirstSeenTime (now : JsString) (ref : Pod N) :
    podsDifferSemantically (recordFirstSeenTime now ref) ref = false
      ∧ Value.deepEqual (recordFirstSeenTime now ref).status ref.status = true := by
  have hannotations : isAnnotationMapEqual (recordFirstSeenTime now ref).annotationMap ref.annotations = true :=
    isAnnotationMapEqual_of_same fun key hlocal => JsMap.get_set_of_ne _ _ (ne_configFirstSeen hlocal)
  refine ⟨?_, Value.deepEqual_refl _⟩
  unfold podsDifferSemantically
  rw [hannotations]
  simp only [recordFirstSeenTime, Value.deepEqual_refl]
  rfl

theorem checkAndUpdatePod_of_settled {existing ref : Pod N} (hdiffer : podsDifferSemantically existing ref = false)
    (hstatus : Value.deepEqual existing.status ref.status = true) : (checkAndUpdatePod existing ref).op = none := by
  unfold checkAndUpdatePod
  rw [if_pos (by rw [hdiffer]; rfl), if_neg (by rw [hstatus]; simp)]

/-- What is stored already is not told of. -/
theorem opOf_merge (hnodup : (pods.map Pod.key).Nodup) {ref : Pod N} (hmem : ref ∈ filterInvalidPods pods) :
    opOf ((storage.merge source now pods).1.podsOf source) source ref = none := by
  have hget : ((storage.merge source now pods).1.podsOf source).get ref.key
      = some (storedPod (storage.podsOf source) source now ref) := by
    rw [podsOf_merge, (merged_mergePods hnodup).pods, listed_of_mem (nodup_filterInvalidPods hnodup) hmem]
    rfl
  rw [opOf, hget]
  dsimp only
  unfold storedPod
  cases (storage.podsOf source).get ref.key with
  | none =>
    obtain ⟨hdiffer, hstatus⟩ := settled_recordFirstSeenTime (now ref.key) (withSource source ref)
    exact checkAndUpdatePod_of_settled hdiffer hstatus
  | some existing =>
    obtain ⟨hdiffer, hstatus⟩ := settled_checkAndUpdatePod existing (withSource source ref)
    exact checkAndUpdatePod_of_settled hdiffer hstatus

/-- A list that is merged again is not told of. -/
theorem merge_again (hnodup : (pods.map Pod.key).Nodup) (now' : JsString → JsString) :
    ((storage.merge source now pods).1.merge source now' pods).2 = [] := by
  have hseen : (storage.merge source now pods).1.sourcesSeen.elems.contains source = true :=
    List.contains_iff_mem.mpr (JsSet.mem_add.mpr (.inl rfl))
  have hnone : ∀ op, told ((storage.merge source now pods).1.podsOf source) source op
      (filterInvalidPods pods) = [] := by
    intro op
    refine List.filter_eq_nil_iff.mpr fun ref hmem => ?_
    rw [opOf_merge hnodup hmem]
    simp
  have hkeys : ∀ key pod, ((storage.merge source now pods).1.podsOf source).get key = some pod →
      listed (filterInvalidPods pods) key ≠ none := by
    intro key pod hget hnone
    rw [podsOf_merge, (merged_mergePods hnodup).pods, hnone] at hget
    cases hget
  generalize (storage.merge source now pods).1 = after at hseen hnone hkeys
  have hmerged : Merged (after.podsOf source) source now' (filterInvalidPods pods)
      (mergePods (after.podsOf source) source now' pods) := merged_mergePods hnodup
  have hremoved : removedPods (mergePods (after.podsOf source) source now' pods) = [] := by
    refine List.eq_nil_iff_forall_not_mem.mpr fun pod hmem => ?_
    obtain ⟨key, hget, hlisted⟩ := (mem_removedPods hmerged).mp hmem
    exact hkeys key pod hget hlisted
  unfold PodStorage.merge
  dsimp only
  rw [hseen, hremoved, hmerged.updatePods, hmerged.deletePods, hmerged.reconcilePods, hmerged.addPods,
    hnone, hnone, hnone, hnone]
  rfl

end Merge

/-! ## The first-seen annotation -/

omit [DecidableEq N] in
def firstSeen (pod : Pod N) : Option JsString := pod.annotationMap.get configFirstSeenAnnotationKey

theorem firstSeen_checkAndUpdatePod {existing ref : Pod N} {time : JsString}
    (h : firstSeen existing = some time) : firstSeen (checkAndUpdatePod existing ref).pod = some time := by
  unfold checkAndUpdatePod
  split
  · split
    · exact h
    · exact h
  · have hlocal : isLocalAnnotationKey configFirstSeenAnnotationKey = true :=
      isLocalAnnotationKey_iff.mpr (by simp [localAnnotations])
    unfold firstSeen at h ⊢
    simp only [Pod.annotationMap, Option.getD_some] at h ⊢
    rw [get_updateAnnotations, if_pos hlocal]
    simp only [Pod.annotationMap]
    rw [h]
    rfl

/-- Every stored pod has the annotation. -/
def Seen (old : JsMap JsString (Pod N)) : Prop :=
  ∀ key pod, old.get key = some pod → ∃ time, firstSeen pod = some time

theorem seen_storedPod {old : JsMap JsString (Pod N)} (h : Seen old) (source : JsString)
    (now : JsString → JsString) (ref : Pod N) :
    ∃ time, firstSeen (storedPod old source now ref) = some time := by
  unfold storedPod
  cases hget : old.get ref.key with
  | none => exact ⟨now ref.key, JsMap.get_set_self _ _ _⟩
  | some existing =>
    obtain ⟨time, htime⟩ := h ref.key existing hget
    exact ⟨time, firstSeen_checkAndUpdatePod htime⟩

/-! ## The deliveries -/

/-- A list that a source delivers, with the times at which its pods are met. -/
structure Delivery (N : Type) where
  source : JsString
  now : JsString → JsString
  pods : List (Pod N)

/-- What is stored, the consumer's set for each source, and the latest lists. -/
structure Config (N : Type) where
  storage : PodStorage N := {}
  consumer : JsString → JsMap JsString (Pod N) := fun _ => .empty
  latest : JsString → List (Pod N) := fun _ => []

omit [DecidableEq N] in
/-- The consumer replays an operation on the set of its source. -/
def consume (consumer : JsString → JsMap JsString (Pod N)) (update : PodUpdate N) :
    JsString → JsMap JsString (Pod N) :=
  fun source => if source = update.source then replay (consumer source) update else consumer source

def Config.deliver (s : Config N) (d : Delivery N) : Config N :=
  let (storage, updates) := s.storage.merge d.source d.now d.pods
  { storage
    consumer := updates.foldl consume s.consumer
    latest := fun source => if source = d.source then d.pods else s.latest source }

/-- No two pods of a list have one uid. -/
def Distinct (d : Delivery N) : Prop := (d.pods.map Pod.key).Nodup

def deliveries : System (Config N) (Delivery N) where
  init s := s = {}
  step s d s' := Distinct d ∧ s' = s.deliver d

/-- No listed pod lacks an annotation that the stored pod has under a name that
every object inherits, or the pod differs in something else. -/
def Told (s : Config N) (d : Delivery N) : Prop :=
  ∀ ref ∈ filterInvalidPods d.pods, ∀ existing, (s.storage.podsOf d.source).get ref.key = some existing →
    Sheds existing (withSource d.source ref)

/-! ## One delivery -/

section Deliver

variable {s : Config N} {d : Delivery N}

omit [DecidableEq N] in
theorem foldl_consume {source : JsString} (updates : List (PodUpdate N))
    (hsource : ∀ update ∈ updates, update.source = source) :
    ∀ (consumer : JsString → JsMap JsString (Pod N)) (source' : JsString),
      updates.foldl consume consumer source' =
        if source' = source then updates.foldl replay (consumer source') else consumer source' := by
  induction updates with
  | nil => intro consumer source'; simp
  | cons update updates ih =>
    intro consumer source'
    rw [List.foldl_cons, ih fun update hmem => hsource update (List.mem_cons_of_mem _ hmem)]
    have hupdate := hsource update List.mem_cons_self
    by_cases hsame : source' = source
    · rw [if_pos hsame, if_pos hsame, List.foldl_cons, consume, hupdate, if_pos hsame]
    · rw [if_neg hsame, if_neg hsame, consume, hupdate, if_neg hsame]

omit [DecidableEq N] in
theorem source_sendUnlessEmpty {update : PodUpdate N} {sent : PodUpdate N}
    (h : sent ∈ sendUnlessEmpty update) : sent = update := by
  unfold sendUnlessEmpty at h
  split at h
  · cases h
  · exact List.mem_singleton.mp h

theorem source_merge {storage : PodStorage N} {source : JsString} {now : JsString → JsString}
    {pods : List (Pod N)} : ∀ update ∈ (storage.merge source now pods).2, update.source = source := by
  intro update hmem
  unfold PodStorage.merge send at hmem
  simp only [List.mem_append] at hmem
  rcases hmem with ((((hmem | hmem) | hmem) | hmem) | hmem) | hmem
  · rw [source_sendUnlessEmpty hmem]
  · rw [source_sendUnlessEmpty hmem]
  · rw [source_sendUnlessEmpty hmem]
  · rw [source_sendUnlessEmpty hmem]
  · split at hmem
    · rw [List.mem_singleton.mp hmem]
    · cases hmem
  · rw [source_sendUnlessEmpty hmem]

theorem podsOf_deliver (source : JsString) : (s.deliver d).storage.podsOf source =
    if source = d.source then (mergePods (s.storage.podsOf source) source d.now d.pods).pods
    else s.storage.podsOf source := by
  by_cases hsource : source = d.source
  · subst hsource
    rw [if_pos rfl]
    exact podsOf_merge
  · rw [if_neg hsource]
    exact podsOf_merge_of_ne hsource

/-- A stored pod is of the list that was delivered. -/
theorem get_deliver (h : Distinct d) (key : JsString) : ((s.deliver d).storage.podsOf d.source).get key
    = (listed (filterInvalidPods d.pods) key).map (storedPod (s.storage.podsOf d.source) d.source d.now) := by
  rw [podsOf_deliver, if_pos rfl]
  exact (merged_mergePods h).pods key

end Deliver

/-- The stored pods are under their uids and have been seen, and the consumer
has them. -/
structure InStep (s : Config N) : Prop where
  keyed : ∀ source, Keyed (s.storage.podsOf source)
  seen : ∀ source, Seen (s.storage.podsOf source)
  consumer : ∀ source key, (s.consumer source).get key = (s.storage.podsOf source).get key

theorem InStep.deliver {s : Config N} (h : InStep s) {d : Delivery N} (hd : Distinct d) : InStep (s.deliver d) := by
  constructor
  case keyed =>
    intro source key pod hget
    by_cases hsource : source = d.source
    · subst hsource
      rw [get_deliver hd] at hget
      obtain ⟨ref, hlisted, rfl⟩ := Option.map_eq_some_iff.mp hget
      rw [key_storedPod (h.keyed _), (listed_key hlisted).2]
    · rw [podsOf_deliver, if_neg hsource] at hget
      exact h.keyed source key pod hget
  case seen =>
    intro source key pod hget
    by_cases hsource : source = d.source
    · subst hsource
      rw [get_deliver hd] at hget
      obtain ⟨ref, hlisted, rfl⟩ := Option.map_eq_some_iff.mp hget
      exact seen_storedPod (h.seen _) _ _ ref
    · rw [podsOf_deliver, if_neg hsource] at hget
      exact h.seen source key pod hget
  case consumer =>
    intro source key
    show ((s.storage.merge d.source d.now d.pods).2.foldl consume s.consumer source).get key = _
    rw [foldl_consume _ source_merge]
    by_cases hsource : source = d.source
    · subst hsource
      rw [if_pos rfl]
      exact get_replay_merge (h.keyed _) hd (h.consumer _) key
    · rw [if_neg hsource, podsOf_deliver, if_neg hsource]
      exact h.consumer source key

theorem inStep_of_reach {s : Config N} (h : deliveries.Reach s) : InStep s := by
  refine h.invariant ?_ ?_
  · rintro s rfl
    exact ⟨fun _ key pod hget => (by cases hget), fun _ key pod hget => (by cases hget), fun _ _ => rfl⟩
  · rintro s d s' - hinv ⟨hd, rfl⟩
    exact hinv.deliver hd

/-- The stored pods are those of the latest list. -/
structure Current (s : Config N) (source : JsString) : Prop where
  listed : ∀ key pod, (s.storage.podsOf source).get key = some pod →
    ∃ ref ∈ filterInvalidPods (s.latest source), ref.key = key ∧ Agrees pod ref
  stored : ∀ ref ∈ filterInvalidPods (s.latest source), ∃ pod,
    (s.storage.podsOf source).get ref.key = some pod

theorem Current.deliver {s : Config N} {d : Delivery N} (hd : Distinct d) (htold : Told s d) :
    Current (s.deliver d) d.source := by
  have hlatest : (s.deliver d).latest d.source = d.pods := if_pos rfl
  constructor
  case listed =>
    intro key pod hget
    rw [get_deliver hd] at hget
    obtain ⟨ref, hlisted, rfl⟩ := Option.map_eq_some_iff.mp hget
    obtain ⟨hmem, hkey⟩ := listed_key hlisted
    rw [hlatest]
    exact ⟨ref, hmem, hkey, agrees_storedPod d.now (htold ref hmem)⟩
  case stored =>
    intro ref hmem
    rw [hlatest] at hmem
    rw [get_deliver hd, listed_of_mem (nodup_filterInvalidPods hd) hmem]
    exact ⟨_, rfl⟩

theorem isLocalAnnotationKey_of_inherited : ∀ key ∈ Cluster.inheritedNames, isLocalAnnotationKey key = false := by
  decide +kernel

/-- A pod that differs in nothing else keeps an annotation that is gone. -/
theorem sheds_of_agrees {existing ref : Pod N} (h : Agrees (checkAndUpdatePod existing ref).pod ref) :
    Sheds existing ref := by
  cases hdiffer : podsDifferSemantically existing ref with
  | true => exact .inr hdiffer
  | false =>
    refine .inl fun key hkey hcontains => ?_
    have hannotations : (checkAndUpdatePod existing ref).pod.annotationMap = existing.annotationMap := by
      unfold checkAndUpdatePod
      rw [if_pos (by rw [hdiffer]; rfl)]
      split <;> rfl
    obtain ⟨value, hvalue⟩ := JsMap.contains_iff.mp hcontains
    have hsame := h.annotations key (isLocalAnnotationKey_of_inherited key hkey)
    rw [hannotations, hvalue] at hsame
    exact JsMap.contains_iff.mpr ⟨value, hsame.symm⟩

/-- What is stored is the list that was delivered exactly where it meets the
condition. -/
theorem current_deliver_iff {s : Config N} {d : Delivery N} (hd : Distinct d) :
    Current (s.deliver d) d.source ↔ Told s d := by
  refine ⟨fun h ref hmem existing hget => ?_, fun htold => .deliver hd htold⟩
  have hlatest : (s.deliver d).latest d.source = d.pods := if_pos rfl
  have hlisted := listed_of_mem (nodup_filterInvalidPods hd) hmem
  obtain ⟨ref', hmem', hkey, hagrees⟩ := h.listed ref.key (storedPod (s.storage.podsOf d.source) d.source d.now ref)
    (by rw [get_deliver hd, hlisted]; rfl)
  rw [hlatest] at hmem'
  have hsame := listed_of_mem (nodup_filterInvalidPods hd) hmem'
  rw [hkey, hlisted] at hsame
  cases hsame
  rw [storedPod, hget] at hagrees
  have hsource : Agrees (checkAndUpdatePod existing (withSource d.source ref)).pod (withSource d.source ref) :=
    ⟨hagrees.spec, hagrees.labels, hagrees.deletionTimestamp, hagrees.deletionGracePeriodSeconds,
      hagrees.status, fun key hlocal => by rw [hagrees.annotations key hlocal, get_withSource hlocal]⟩
  exact sheds_of_agrees hsource

theorem Current.of_ne {s : Config N} {d : Delivery N} {source : JsString} (hsource : source ≠ d.source)
    (h : Current s source) : Current (s.deliver d) source := by
  have hlatest : (s.deliver d).latest source = s.latest source := if_neg hsource
  have hpods : (s.deliver d).storage.podsOf source = s.storage.podsOf source := by
    rw [podsOf_deliver, if_neg hsource]
  constructor
  · rw [hpods, hlatest]
    exact h.listed
  · rw [hpods, hlatest]
    exact h.stored

/-! ## The run -/

/-- What is told when a list is delivered. -/
structure Delivered (s : Config N) (d : Delivery N) : Prop where
  once : (((s.storage.merge d.source d.now d.pods).2.flatMap PodUpdate.pods).map Pod.key).Nodup
  firstSeen : ∀ key pod pod', (s.storage.podsOf d.source).get key = some pod →
    ((s.deliver d).storage.podsOf d.source).get key = some pod' → firstSeen pod' = firstSeen pod
  again : ∀ now, ((s.deliver d).storage.merge d.source now d.pods).2 = []

theorem InStep.delivered {s : Config N} (h : InStep s) {d : Delivery N} (hd : Distinct d) : Delivered s d := by
  constructor
  case once => exact nodup_merge (h.keyed d.source) hd
  case firstSeen =>
    intro key pod pod' hget hget'
    rw [get_deliver hd] at hget'
    obtain ⟨ref, hlisted, rfl⟩ := Option.map_eq_some_iff.mp hget'
    obtain ⟨time, htime⟩ := h.seen d.source key pod hget
    rw [← (listed_key hlisted).2] at hget
    rw [storedPod, hget, htime]
    exact firstSeen_checkAndUpdatePod htime
  case again => exact merge_again hd

/-- A pod of the source, with the annotations that it is listed with. -/
def pod1 (annotations : Option Annotations) : Pod Nat := { uid := some (js "1"), annotations }

def delivery1 (annotations : Option Annotations) : Delivery Nat where
  source := js "api"
  now := fun _ => js "2024-01-01T00:00:00.000Z"
  pods := [pod1 annotations]

theorem distinct_delivery1 (annotations : Option Annotations) : Distinct (delivery1 annotations) :=
  List.nodup_singleton _

def constructorAnnotation : Annotations := .ofList [(js "constructor", js "x")]

def annotated : Config Nat := ({} : Config Nat).deliver (delivery1 (some constructorAnnotation))

end Webernetes.Kubelet.PodConfig
