/-
Webernetes.Kubelet.PodConfigRuns — what a consumer has that replays the
operations of every merge.

A listed pod is stored (`storedPod`) and told of (`opOf`) on its own, since no
two of a list have one uid: the loop is a map over the list (`Merged`). The
stored pod is then the listed one (`Agrees`), but for an annotation that is
gone from the list under a name that every object inherits.
-/
import Webernetes.Base.Transition
import Webernetes.Kubelet.PodConfig
import Mathlib.Data.List.Induction

namespace Webernetes.Kubelet.PodConfig

open Js Base

variable {N : Type} [DecidableEq N]

/-! ## One pod -/

/-- What is stored for a listed pod. -/
def storedPod (old : JsMap JsString (Pod N)) (source : JsString) (now : JsString → JsString) (ref : Pod N) :
    Pod N :=
  match old.get ref.key with
  | some existing => (checkAndUpdatePod existing (withSource source ref)).pod
  | none => recordFirstSeenTime (now ref.key) (withSource source ref)

/-- What is told of a listed pod. -/
def opOf (old : JsMap JsString (Pod N)) (source : JsString) (ref : Pod N) : Option PodOperation :=
  match old.get ref.key with
  | some existing => (checkAndUpdatePod existing (withSource source ref)).op
  | none => some .add

theorem uid_checkAndUpdatePod (existing ref : Pod N) : (checkAndUpdatePod existing ref).pod.uid = existing.uid := by
  unfold checkAndUpdatePod
  split
  · split <;> rfl
  · rfl

theorem op_checkAndUpdatePod (existing ref : Pod N) : (checkAndUpdatePod existing ref).op ≠ some .add
    ∧ (checkAndUpdatePod existing ref).op ≠ some .remove := by
  unfold checkAndUpdatePod
  split
  · split
    · exact ⟨by simp, by simp⟩
    · exact ⟨by simp, by simp⟩
  · dsimp only
    split
    · exact ⟨by simp, by simp⟩
    · exact ⟨by simp, by simp⟩

/-- Where nothing is told of a stored pod, it is as it was. -/
theorem checkAndUpdatePod_of_none {existing ref : Pod N} (h : (checkAndUpdatePod existing ref).op = none) :
    (checkAndUpdatePod existing ref).pod = existing := by
  unfold checkAndUpdatePod at h ⊢
  split at h
  · rename_i hsame
    rw [if_pos hsame]
    split at h
    · cases h
    · rename_i hstatus
      rw [if_neg hstatus]
  · cases h

/-! ## The loop -/

/-- The listed pod with a key. -/
def listed (refs : List (Pod N)) (key : JsString) : Option (Pod N) := refs.find? fun ref => ref.key = key

omit [DecidableEq N] in
theorem listed_append (refs : List (Pod N)) (ref : Pod N) (key : JsString) :
    listed (refs ++ [ref]) key = (listed refs key).or (if ref.key = key then some ref else none) := by
  rw [listed, List.find?_append, listed, List.find?_singleton]
  simp

omit [DecidableEq N] in
theorem listed_eq_none {refs : List (Pod N)} {key : JsString} :
    listed refs key = none ↔ key ∉ refs.map Pod.key := by
  simp [listed]

omit [DecidableEq N] in
theorem listed_key {refs : List (Pod N)} {key : JsString} {ref : Pod N} (h : listed refs key = some ref) :
    ref ∈ refs ∧ ref.key = key := by
  rw [listed] at h
  have hkey := List.find?_some h
  exact ⟨List.mem_of_find?_eq_some h, of_decide_eq_true hkey⟩

omit [DecidableEq N] in
theorem listed_of_mem {refs : List (Pod N)} (hnodup : (refs.map Pod.key).Nodup) {ref : Pod N}
    (h : ref ∈ refs) : listed refs ref.key = some ref := by
  cases hlisted : listed refs ref.key with
  | none => exact absurd (List.mem_map_of_mem h) (listed_eq_none.mp hlisted)
  | some ref' =>
    obtain ⟨hmem, hkey⟩ := listed_key hlisted
    exact congrArg some (List.inj_on_of_nodup_map hnodup hmem h hkey)

/-- The listed pods of which an operation is told. -/
def told (old : JsMap JsString (Pod N)) (source : JsString) (op : PodOperation) (refs : List (Pod N)) :
    List (Pod N) :=
  refs.filter fun ref => opOf old source ref = some op

theorem told_snoc (old : JsMap JsString (Pod N)) (source : JsString) (op : PodOperation)
    (refs : List (Pod N)) (ref : Pod N) : told old source op (refs ++ [ref]) =
      if opOf old source ref = some op then told old source op refs ++ [ref] else told old source op refs := by
  rw [told, List.filter_append, ← told]
  by_cases h : opOf old source ref = some op
  · rw [if_pos h, List.filter_cons_of_pos (by simpa using h), List.filter_nil]
  · rw [if_neg h, List.filter_cons_of_neg (by simpa using h), List.filter_nil, List.append_nil]

/-- The variables of the loop after some listed pods. -/
structure Merged (old : JsMap JsString (Pod N)) (source : JsString) (now : JsString → JsString)
    (refs : List (Pod N)) (m : Merging N) : Prop where
  oldPods : ∀ key, m.oldPods.get key =
    (old.get key).map fun existing => ((listed refs key).map (storedPod old source now)).getD existing
  pods : ∀ key, m.pods.get key = (listed refs key).map (storedPod old source now)
  addPods : m.addPods = (told old source .add refs).map (storedPod old source now)
  updatePods : m.updatePods = (told old source .update refs).map Pod.key
  deletePods : m.deletePods = (told old source .delete refs).map Pod.key
  reconcilePods : m.reconcilePods = (told old source .reconcile refs).map Pod.key

/-- One more listed pod, whose uid is new. -/
theorem Merged.snoc {old : JsMap JsString (Pod N)} {source : JsString} {now : JsString → JsString}
    {refs : List (Pod N)} {m : Merging N} (h : Merged old source now refs m) {ref : Pod N}
    (hnew : ref.key ∉ refs.map Pod.key) : Merged old source now (refs ++ [ref]) (mergePod source now m ref) := by
  have hnone : listed refs ref.key = none := listed_eq_none.mpr hnew
  have hold : m.oldPods.get ref.key = old.get ref.key := by
    rw [h.oldPods, hnone]
    simp
  have hpods : ∀ key, (m.pods.set ref.key (storedPod old source now ref)).get key
      = (listed (refs ++ [ref]) key).map (storedPod old source now) := by
    intro key
    rw [JsMap.get_set, listed_append]
    by_cases hkey : key = ref.key
    · subst hkey
      rw [hnone]
      simp
    · rw [if_neg hkey, if_neg (Ne.symm hkey), Option.or_none, h.pods]
  cases hget : old.get ref.key with
  | none =>
    have hstored : storedPod old source now ref = recordFirstSeenTime (now ref.key) (withSource source ref) := by
      rw [storedPod, hget]
    have hop : opOf old source ref = some .add := by
      rw [opOf, hget]
    have hmerge : mergePod source now m ref = { m with
        pods := m.pods.set ref.key (storedPod old source now ref)
        addPods := m.addPods ++ [storedPod old source now ref] } := by
      unfold mergePod
      dsimp only
      rw [show (withSource source ref).key = ref.key from rfl, hold, hget, hstored]
    rw [hmerge]
    refine ⟨fun key => ?_, hpods, ?_, ?_, ?_, ?_⟩
    · rw [h.oldPods, listed_append]
      by_cases hkey : ref.key = key
      · subst hkey
        simp [hget]
      · rw [if_neg hkey, Option.or_none]
    · rw [told_snoc, if_pos hop, h.addPods, List.map_append]
      rfl
    · rw [told_snoc, if_neg (by rw [hop]; simp), h.updatePods]
    · rw [told_snoc, if_neg (by rw [hop]; simp), h.deletePods]
    · rw [told_snoc, if_neg (by rw [hop]; simp), h.reconcilePods]
  | some existing =>
    have hstored : storedPod old source now ref = (checkAndUpdatePod existing (withSource source ref)).pod := by
      rw [storedPod, hget]
    have hop : opOf old source ref = (checkAndUpdatePod existing (withSource source ref)).op := by
      rw [opOf, hget]
    obtain ⟨hnotAdd, hnotRemove⟩ := op_checkAndUpdatePod existing (withSource source ref)
    rw [← hop] at hnotAdd hnotRemove
    have holdPods : ∀ key, (m.oldPods.set ref.key (storedPod old source now ref)).get key
        = (old.get key).map fun existing =>
          ((listed (refs ++ [ref]) key).map (storedPod old source now)).getD existing := by
      intro key
      rw [JsMap.get_set, listed_append]
      by_cases hkey : key = ref.key
      · subst hkey
        rw [hnone, hget]
        simp
      · rw [if_neg hkey, if_neg (Ne.symm hkey), Option.or_none, h.oldPods]
    have hadds : told old source .add (refs ++ [ref]) = told old source .add refs := by
      rw [told_snoc, if_neg hnotAdd]
    unfold mergePod
    dsimp only
    rw [show (withSource source ref).key = ref.key from rfl, hold, hget]
    dsimp only
    rw [← hstored, ← hop]
    cases hcase : opOf old source ref with
    | none =>
      refine ⟨holdPods, hpods, ?_, ?_, ?_, ?_⟩
      · rw [hadds, h.addPods]
      · rw [told_snoc, if_neg (by rw [hcase]; simp), h.updatePods]
      · rw [told_snoc, if_neg (by rw [hcase]; simp), h.deletePods]
      · rw [told_snoc, if_neg (by rw [hcase]; simp), h.reconcilePods]
    | some op =>
      cases op with
      | add => exact absurd hcase hnotAdd
      | remove => exact absurd hcase hnotRemove
      | update =>
        refine ⟨holdPods, hpods, ?_, ?_, ?_, ?_⟩
        · rw [hadds, h.addPods]
        · rw [told_snoc, if_pos hcase, h.updatePods, List.map_append]
          rfl
        · rw [told_snoc, if_neg (by rw [hcase]; simp), h.deletePods]
        · rw [told_snoc, if_neg (by rw [hcase]; simp), h.reconcilePods]
      | delete =>
        refine ⟨holdPods, hpods, ?_, ?_, ?_, ?_⟩
        · rw [hadds, h.addPods]
        · rw [told_snoc, if_neg (by rw [hcase]; simp), h.updatePods]
        · rw [told_snoc, if_pos hcase, h.deletePods, List.map_append]
          rfl
        · rw [told_snoc, if_neg (by rw [hcase]; simp), h.reconcilePods]
      | reconcile =>
        refine ⟨holdPods, hpods, ?_, ?_, ?_, ?_⟩
        · rw [hadds, h.addPods]
        · rw [told_snoc, if_neg (by rw [hcase]; simp), h.updatePods]
        · rw [told_snoc, if_neg (by rw [hcase]; simp), h.deletePods]
        · rw [told_snoc, if_pos hcase, h.reconcilePods, List.map_append]
          rfl

/-- By induction on the listed pods, the last one first. -/
theorem merged (old : JsMap JsString (Pod N)) (source : JsString) (now : JsString → JsString)
    (refs : List (Pod N)) (hnodup : (refs.map Pod.key).Nodup) :
    Merged old source now refs (refs.foldl (mergePod source now) { oldPods := old }) := by
  induction refs using List.reverseRecOn with
  | nil =>
    refine ⟨fun key => ?_, fun key => rfl, rfl, rfl, rfl, rfl⟩
    show old.get key = _
    cases old.get key <;> rfl
  | append_singleton refs ref ih =>
    rw [List.map_append, List.nodup_append] at hnodup
    rw [List.foldl_concat]
    exact (ih hnodup.1).snoc fun hmem => hnodup.2.2 _ hmem _ (by simp) rfl

/-! ## Replaying -/

omit [DecidableEq N] in
/-- What an operation does to the set of a consumer. -/
def replay (set : JsMap JsString (Pod N)) (update : PodUpdate N) : JsMap JsString (Pod N) :=
  match update.op with
  | .remove => update.pods.foldl (fun set pod => set.delete pod.key) set
  | _ => update.pods.foldl (fun set pod => set.set pod.key pod) set

omit [DecidableEq N] in
theorem replay_of_isEmpty (set : JsMap JsString (Pod N)) {update : PodUpdate N}
    (h : update.pods.isEmpty = true) : replay set update = set := by
  rw [List.isEmpty_iff] at h
  unfold replay
  rw [h]
  split <;> rfl

omit [DecidableEq N] in
theorem foldl_sendUnlessEmpty (set : JsMap JsString (Pod N)) (update : PodUpdate N) :
    (sendUnlessEmpty update).foldl replay set = replay set update := by
  unfold sendUnlessEmpty
  split
  · rename_i hempty
    exact (replay_of_isEmpty set hempty).symm
  · rfl

omit [DecidableEq N] in
theorem foldl_send (seenBefore : Bool) (adds updates deletes removes reconciles : PodUpdate N)
    (set : JsMap JsString (Pod N)) :
    (send seenBefore adds updates deletes removes reconciles).foldl replay set
      = replay (replay (replay (replay (replay set removes) adds) updates) deletes) reconciles := by
  have hfirst : ∀ s, (if (!seenBefore && adds.pods.isEmpty && updates.pods.isEmpty && deletes.pods.isEmpty)
      then [adds] else []).foldl replay s = s := by
    intro s
    split
    · rename_i hempty
      simp only [Bool.and_eq_true] at hempty
      exact replay_of_isEmpty s hempty.1.1.2
    · rfl
  unfold send
  simp only [List.foldl_append, foldl_sendUnlessEmpty, hfirst]

/-- The stored pods are under their keys. -/
def Keyed (old : JsMap JsString (Pod N)) : Prop := ∀ key pod, old.get key = some pod → pod.key = key

theorem key_storedPod {old : JsMap JsString (Pod N)} (hkeyed : Keyed old) (source : JsString)
    (now : JsString → JsString) (ref : Pod N) : (storedPod old source now ref).key = ref.key := by
  unfold storedPod
  cases hget : old.get ref.key with
  | none => rfl
  | some existing =>
    dsimp only
    rw [Pod.key, uid_checkAndUpdatePod]
    exact hkeyed ref.key existing hget

/-- By induction on the listed pods, the last one first. -/
theorem get_foldl_told {old : JsMap JsString (Pod N)} (hkeyed : Keyed old) (source : JsString)
    (now : JsString → JsString) (op : PodOperation) (refs : List (Pod N))
    (hnodup : (refs.map Pod.key).Nodup) (set : JsMap JsString (Pod N)) (key : JsString) :
    (((told old source op refs).map (storedPod old source now)).foldl
      (fun set pod => set.set pod.key pod) set).get key =
      match listed refs key with
      | some ref => if opOf old source ref = some op then some (storedPod old source now ref) else set.get key
      | none => set.get key := by
  induction refs using List.reverseRecOn with
  | nil => rfl
  | append_singleton refs ref ih =>
    rw [List.map_append, List.nodup_append] at hnodup
    have ih := ih hnodup.1
    have hnone : listed refs ref.key = none :=
      listed_eq_none.mpr fun hmem => hnodup.2.2 _ hmem _ (by simp) rfl
    rw [told_snoc, listed_append]
    by_cases hop : opOf old source ref = some op
    · rw [if_pos hop, List.map_append, List.foldl_append, List.map_singleton, List.foldl_cons,
        List.foldl_nil, JsMap.get_set, key_storedPod hkeyed, ih]
      by_cases hkey : key = ref.key
      · subst hkey
        rw [hnone, if_pos rfl, if_pos rfl, Option.none_or]
        exact (if_pos hop).symm
      · rw [if_neg hkey, if_neg (Ne.symm hkey), Option.or_none]
    · rw [if_neg hop, ih]
      by_cases hkey : ref.key = key
      · subst hkey
        rw [hnone, if_pos rfl, Option.none_or]
        exact (if_neg hop).symm
      · rw [if_neg hkey, Option.or_none]

/-- The stored pods that are looked up at the end of the loop. -/
theorem filterMap_told {old : JsMap JsString (Pod N)} {source : JsString} {now : JsString → JsString}
    {refs : List (Pod N)} {m : Merging N} (h : Merged old source now refs m)
    (hnodup : (refs.map Pod.key).Nodup) {op : PodOperation} (hop : op ≠ .add) :
    ((told old source op refs).map Pod.key).filterMap m.oldPods.get
      = (told old source op refs).map (storedPod old source now) := by
  rw [List.filterMap_map, ← List.filterMap_eq_map]
  refine List.filterMap_congr fun ref hmem => ?_
  obtain ⟨hmem, htold⟩ := List.mem_filter.mp hmem
  have htold : opOf old source ref = some op := of_decide_eq_true htold
  show m.oldPods.get ref.key = some (storedPod old source now ref)
  rw [h.oldPods, listed_of_mem hnodup hmem]
  cases hget : old.get ref.key with
  | none =>
    rw [opOf, hget] at htold
    cases htold
    exact absurd rfl hop
  | some existing => rfl

/-- The stored pods that are not listed. -/
theorem mem_removedPods {old : JsMap JsString (Pod N)} {source : JsString} {now : JsString → JsString}
    {refs : List (Pod N)} {m : Merging N} (h : Merged old source now refs m) {pod : Pod N} :
    pod ∈ removedPods m ↔ ∃ key, old.get key = some pod ∧ listed refs key = none := by
  have hentry : ∀ key, listed refs key = none → m.oldPods.get key = old.get key := by
    intro key hnone
    rw [h.oldPods, hnone]
    cases old.get key <;> rfl
  have hgone : ∀ key, m.pods.contains key = false ↔ listed refs key = none := by
    intro key
    rw [Bool.eq_false_iff, Ne, JsMap.contains_iff, h.pods]
    cases listed refs key <;> simp
  rw [removedPods, List.mem_map]
  constructor
  · rintro ⟨⟨key, pod'⟩, hmem, rfl⟩
    obtain ⟨hmem, hnot⟩ := List.mem_filter.mp hmem
    have hnone := (hgone key).mp (by simpa using hnot)
    refine ⟨key, ?_, hnone⟩
    rw [← hentry key hnone]
    exact JsMap.get_eq_some_iff.mpr hmem
  · rintro ⟨key, hget, hnone⟩
    refine ⟨(key, pod), List.mem_filter.mpr ⟨?_, ?_⟩, rfl⟩
    · rw [← hentry key hnone] at hget
      exact JsMap.get_eq_some_iff.mp hget
    · simpa using (hgone key).mpr hnone

omit [DecidableEq N] in
theorem get_foldl_remove {pods : List (Pod N)} {set : JsMap JsString (Pod N)} {key : JsString}
    {pod : Pod N} : (pods.foldl (fun set pod => set.delete pod.key) set).get key = some pod ↔
      key ∉ pods.map Pod.key ∧ set.get key = some pod := by
  rw [← JsMap.get_foldl_delete, List.foldl_map]

/-! ## A merge -/

omit [DecidableEq N] in
theorem filterFrom_sublist (pods : List (Pod N)) :
    ∀ (names : List JsString), (filterFrom names pods).Sublist pods := by
  induction pods with
  | nil => exact fun _ => List.Sublist.refl _
  | cons pod pods ih =>
    intro names
    rw [filterFrom]
    split
    · exact (ih names).cons pod
    · exact (ih _).cons_cons pod

omit [DecidableEq N] in
theorem nodup_filterInvalidPods {pods : List (Pod N)} (h : (pods.map Pod.key).Nodup) :
    ((filterInvalidPods pods).map Pod.key).Nodup :=
  h.sublist ((filterFrom_sublist pods []).map Pod.key)

section Merge

variable {storage : PodStorage N} {source : JsString} {now : JsString → JsString} {pods : List (Pod N)}

/-- What was stored for the source, and the listed pods that are merged. -/
theorem merged_mergePods (hnodup : (pods.map Pod.key).Nodup) :
    Merged (storage.podsOf source) source now (filterInvalidPods pods)
      (mergePods (storage.podsOf source) source now pods) :=
  merged _ _ _ _ (nodup_filterInvalidPods hnodup)

/-- The lists of pods that are told of. -/
theorem podsOf_merge : (storage.merge source now pods).1.podsOf source
    = (mergePods (storage.podsOf source) source now pods).pods := by
  rw [PodStorage.podsOf, PodStorage.merge, JsMap.get_set_self]
  rfl

theorem podsOf_merge_of_ne {source' : JsString} (h : source' ≠ source) :
    (storage.merge source now pods).1.podsOf source' = storage.podsOf source' := by
  rw [PodStorage.podsOf, PodStorage.merge, JsMap.get_set_of_ne _ _ h, PodStorage.podsOf]

/-- Replaying what was sent on makes what is stored. -/
theorem get_replay_merge (hkeyed : Keyed (storage.podsOf source)) (hnodup : (pods.map Pod.key).Nodup)
    {set : JsMap JsString (Pod N)} (hset : ∀ key, set.get key = (storage.podsOf source).get key)
    (key : JsString) : ((storage.merge source now pods).2.foldl replay set).get key
      = ((storage.merge source now pods).1.podsOf source).get key := by
  have hmerged : Merged (storage.podsOf source) source now (filterInvalidPods pods)
      (mergePods (storage.podsOf source) source now pods) := merged_mergePods hnodup
  have hfiltered := nodup_filterInvalidPods hnodup
  rw [podsOf_merge]
  unfold PodStorage.merge
  dsimp only
  generalize mergePods (storage.podsOf source) source now pods = m at hmerged
  generalize filterInvalidPods pods = refs at hmerged hfiltered
  generalize storage.podsOf source = old at hmerged hkeyed hset
  rw [foldl_send, hmerged.updatePods, hmerged.deletePods, hmerged.reconcilePods, hmerged.addPods,
    filterMap_told hmerged hfiltered (by simp), filterMap_told hmerged hfiltered (by simp),
    filterMap_told hmerged hfiltered (by simp), hmerged.pods]
  unfold replay
  dsimp only
  rw [get_foldl_told hkeyed source now .reconcile refs hfiltered,
    get_foldl_told hkeyed source now .delete refs hfiltered,
    get_foldl_told hkeyed source now .update refs hfiltered,
    get_foldl_told hkeyed source now .add refs hfiltered]
  cases hlisted : listed refs key with
  | none =>
    refine Option.eq_none_iff_forall_ne_some.mpr fun pod hget => ?_
    obtain ⟨hnot, hbefore⟩ := get_foldl_remove.mp hget
    rw [hset] at hbefore
    refine hnot (List.mem_map.mpr ⟨pod, (mem_removedPods hmerged).mpr ⟨key, hbefore, hlisted⟩, ?_⟩)
    exact hkeyed key pod hbefore
  | some ref =>
    obtain ⟨hmem, hkey⟩ := listed_key hlisted
    dsimp only
    cases hop : opOf old source ref with
    | some op =>
      cases op with
      | remove =>
        unfold opOf at hop
        split at hop
        · exact absurd hop (op_checkAndUpdatePod _ _).2
        · cases hop
      | add => rfl
      | update => rfl
      | delete => rfl
      | reconcile => rfl
    | none =>
      -- what nothing is told of was stored already, and is as it was
      cases hget : old.get ref.key with
      | none =>
        rw [opOf, hget] at hop
        cases hop
      | some existing =>
        rw [opOf, hget] at hop
        have hsame : storedPod old source now ref = existing := by
          rw [storedPod, hget]
          exact checkAndUpdatePod_of_none hop
        rw [Option.map_some, hsame]
        simp only [reduceCtorEq, if_false]
        refine get_foldl_remove.mpr ⟨fun hremoved => ?_, ?_⟩
        · obtain ⟨pod, hpod, hpodKey⟩ := List.mem_map.mp hremoved
          obtain ⟨key', hget', hnone⟩ := (mem_removedPods hmerged).mp hpod
          rw [← hkeyed key' pod hget', hpodKey, hlisted] at hnone
          cases hnone
        · rw [hset, ← hkey, hget]

end Merge

/-! ## The stored pods -/

theorem isLocalAnnotationKey_iff {key : JsString} : isLocalAnnotationKey key = true ↔ key ∈ localAnnotations :=
  List.contains_iff_mem

theorem ne_configSource {key : JsString} (h : isLocalAnnotationKey key = false) :
    key ≠ configSourceAnnotationKey := by
  rintro rfl
  rw [isLocalAnnotationKey_iff.mpr (by simp [localAnnotations])] at h
  cases h

theorem ne_configFirstSeen {key : JsString} (h : isLocalAnnotationKey key = false) :
    key ≠ configFirstSeenAnnotationKey := by
  rintro rfl
  rw [isLocalAnnotationKey_iff.mpr (by simp [localAnnotations])] at h
  cases h

omit [DecidableEq N] in
theorem get_withSource {source key : JsString} {ref : Pod N} (h : isLocalAnnotationKey key = false) :
    (withSource source ref).annotationMap.get key = ref.annotationMap.get key :=
  JsMap.get_set_of_ne _ _ (ne_configSource h)

/-- The local annotations go from the stored pod. -/
theorem get_foldl_local {existing : Annotations} (keys : List JsString) : ∀ (m : Annotations) (key : JsString),
    (keys.foldl (fun annotations key =>
      match existing.get key with
      | some value => annotations.set key value
      | none => annotations) m).get key =
      if keys.contains key then (existing.get key).or (m.get key) else m.get key := by
  induction keys with
  | nil => exact fun _ _ => rfl
  | cons k keys ih =>
    intro m key
    rw [List.foldl_cons, ih, List.contains_cons]
    have hstep : (match existing.get k with
        | some value => m.set k value
        | none => m).get key = if key = k then (existing.get key).or (m.get key) else m.get key := by
      by_cases hkey : key = k
      · subst hkey
        rw [if_pos rfl]
        cases hget : existing.get key with
        | none => rfl
        | some value => exact JsMap.get_set_self _ _ _
      · rw [if_neg hkey]
        cases existing.get k with
        | none => rfl
        | some value => exact JsMap.get_set_of_ne _ _ hkey
    rw [hstep]
    by_cases hkey : key = k
    · subst hkey
      cases existing.get key <;> simp
    · simp [hkey]

omit [DecidableEq N] in
theorem get_updateAnnotations (existing ref : Pod N) (key : JsString) :
    (updateAnnotations existing ref).get key =
      if isLocalAnnotationKey key then (existing.annotationMap.get key).or (ref.annotationMap.get key)
      else ref.annotationMap.get key :=
  get_foldl_local localAnnotations ref.annotationMap key

/-- Annotation maps that are the same but for the local keys. -/
def SameAnnotations (left right : Annotations) : Prop :=
  ∀ key, isLocalAnnotationKey key = false → left.get key = right.get key

/-- The comparison misses an annotation that is gone, where every object
inherits its name. -/
theorem sameAnnotations_of_isAnnotationMapEqual {existing : Annotations} {candidate : Option Annotations}
    (h : isAnnotationMapEqual existing candidate = true)
    (hinherited : ∀ key ∈ Cluster.inheritedNames, existing.contains key = true →
      (candidate.getD .empty).contains key = true) :
    SameAnnotations existing (candidate.getD .empty) := by
  unfold isAnnotationMapEqual at h
  dsimp only at h
  generalize candidate.getD .empty = candidate at h hinherited
  rw [Bool.and_eq_true, List.all_eq_true, List.all_eq_true] at h
  obtain ⟨hentries, hkeys⟩ := h
  intro key hlocal
  cases hget : candidate.get key with
  | some value =>
    have hentry := hentries (key, value) (JsMap.get_eq_some_iff.mp hget)
    simpa [hlocal] using hentry
  | none =>
    refine Option.eq_none_iff_forall_ne_some.mpr fun value hvalue => ?_
    have hin := hkeys key (JsMap.mem_keys_iff.mpr ⟨value, hvalue⟩)
    rw [hlocal, Bool.false_or, keyIn, Bool.or_eq_true] at hin
    have hcontains : candidate.contains key = true := by
      rcases hin with hin | hin
      · exact hin
      · exact hinherited key (List.contains_iff_mem.mp hin) (JsMap.contains_iff.mpr ⟨value, hvalue⟩)
    obtain ⟨value', hvalue'⟩ := JsMap.contains_iff.mp hcontains
    rw [hget] at hvalue'
    cases hvalue'

theorem isAnnotationMapEqual_of_same {existing : Annotations} {candidate : Option Annotations}
    (h : SameAnnotations existing (candidate.getD .empty)) : isAnnotationMapEqual existing candidate = true := by
  unfold isAnnotationMapEqual
  dsimp only
  generalize candidate.getD .empty = candidate at h
  rw [Bool.and_eq_true, List.all_eq_true, List.all_eq_true]
  constructor
  · rintro ⟨key, value⟩ hmem
    cases hlocal : isLocalAnnotationKey key with
    | true => rfl
    | false => simpa using (h key hlocal).trans (JsMap.get_eq_some_iff.mpr hmem)
  · intro key hmem
    cases hlocal : isLocalAnnotationKey key with
    | true => rfl
    | false =>
      obtain ⟨value, hvalue⟩ := JsMap.mem_keys_iff.mp hmem
      rw [h key hlocal] at hvalue
      rw [Bool.false_or, keyIn, Bool.or_eq_true]
      exact .inl (JsMap.contains_iff.mpr ⟨value, hvalue⟩)

/-- The stored pod is the listed one. -/
structure Agrees (pod ref : Pod N) : Prop where
  spec : Value.deepEqual pod.spec ref.spec = true
  labels : Value.deepEqual pod.labels ref.labels = true
  deletionTimestamp : Value.deepEqual pod.deletionTimestamp ref.deletionTimestamp = true
  deletionGracePeriodSeconds :
    Value.deepEqual pod.deletionGracePeriodSeconds ref.deletionGracePeriodSeconds = true
  status : Value.deepEqual pod.status ref.status = true
  annotations : SameAnnotations pod.annotationMap ref.annotationMap

/-- No annotation that every object inherits the name of is gone from the list,
or the pod differs in something else. -/
def Sheds (existing ref : Pod N) : Prop :=
  (∀ key ∈ Cluster.inheritedNames, existing.annotationMap.contains key = true →
    ref.annotationMap.contains key = true) ∨ podsDifferSemantically existing ref = true

theorem agrees_checkAndUpdatePod {existing ref : Pod N} (h : Sheds existing ref) :
    Agrees (checkAndUpdatePod existing ref).pod ref := by
  unfold checkAndUpdatePod
  cases hdiffer : podsDifferSemantically existing ref with
  | false =>
    have hinherited := h.resolve_right (by rw [hdiffer]; simp)
    rw [podsDifferSemantically, Bool.not_eq_false'] at hdiffer
    simp only [Bool.and_eq_true] at hdiffer
    obtain ⟨⟨⟨⟨hspec, hlabels⟩, htimestamp⟩, hgrace⟩, hannotations⟩ := hdiffer
    have hsame := sameAnnotations_of_isAnnotationMapEqual hannotations hinherited
    rw [if_pos (by simp)]
    split
    · exact ⟨hspec, hlabels, htimestamp, hgrace, Value.deepEqual_refl _, hsame⟩
    · rename_i hstatus
      exact ⟨hspec, hlabels, htimestamp, hgrace, by simpa using hstatus, hsame⟩
  | true =>
    rw [if_neg (by simp)]
    constructor
    case annotations =>
      intro key hlocal
      simp only [Pod.annotationMap, Option.getD_some]
      rw [get_updateAnnotations, if_neg (by rw [hlocal]; simp)]
      exact JsMap.get_set_of_ne _ _ (ne_configFirstSeen hlocal)
    all_goals exact Value.deepEqual_refl _

omit [DecidableEq N] in
theorem Agrees.withSource [DecidableEq N] {pod ref : Pod N} {source : JsString}
    (h : Agrees pod (withSource source ref)) : Agrees pod ref :=
  ⟨h.spec, h.labels, h.deletionTimestamp, h.deletionGracePeriodSeconds, h.status, fun key hlocal => by
    rw [h.annotations key hlocal, get_withSource hlocal]⟩

theorem agrees_recordFirstSeenTime (now : JsString) (ref : Pod N) : Agrees (recordFirstSeenTime now ref) ref :=
  ⟨Value.deepEqual_refl _, Value.deepEqual_refl _, Value.deepEqual_refl _, Value.deepEqual_refl _,
    Value.deepEqual_refl _, fun _ hlocal => JsMap.get_set_of_ne _ _ (ne_configFirstSeen hlocal)⟩

/-- What is stored for a listed pod is that pod. -/
theorem agrees_storedPod {old : JsMap JsString (Pod N)} {source : JsString} (now : JsString → JsString)
    {ref : Pod N} (h : ∀ existing, old.get ref.key = some existing → Sheds existing (withSource source ref)) :
    Agrees (storedPod old source now ref) ref := by
  unfold storedPod
  cases hget : old.get ref.key with
  | none => exact (agrees_recordFirstSeenTime _ _).withSource
  | some existing => exact (agrees_checkAndUpdatePod (h existing hget)).withSource

end Webernetes.Kubelet.PodConfig
