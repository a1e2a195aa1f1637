/-
Webernetes.Kubelet.StatusSyncRuns — what the versions at the API stand for,
whatever updates and batches are interleaved.

A version that was captured or sent is never above the cached one, and where
the two are the same it is of the cached status (`Below`). That holds as long
as no status is cached anew for a pod of which a version is left (`Renews`).
-/
import Webernetes.Kubelet.StatusSync

namespace Webernetes.Kubelet

open Js Api Base

variable {T O : Type}

/-! ## What a batch captures -/

section Capture

variable (host : Host T) (directory : PodDirectory T O) [DecidableEq T] [DecidableEq O] (all : Bool)

/-- What the loop over the cached statuses has done after some of them. -/
structure Captured (entries : List (JsString × VersionedPodStatus T O)) (before after : Capturing T O) : Prop where
  /-- What is captured is cached. -/
  updates : ∀ update ∈ after.updatedStatuses, update ∈ before.updatedStatuses
    ∨ (update.podUid, update.status) ∈ entries ∧ uidOfStatus directory update.podUid = some update.statusUid
  kept : ∀ update ∈ before.updatedStatuses, update ∈ after.updatedStatuses
  shrinks : ∀ uid version, after.apiStatusVersions.get uid = some version →
    before.apiStatusVersions.get uid = some version
  /-- A version is forgotten for an update that is captured. -/
  stays : ∀ uid version, before.apiStatusVersions.get uid = some version →
    (∀ update ∈ after.updatedStatuses, update.statusUid ≠ uid) → after.apiStatusVersions.get uid = some version
  /-- What is not captured has been sent, and a full batch finds it there. -/
  covers : ∀ uid status statusUid, (uid, status) ∈ entries → uidOfStatus directory uid = some statusUid →
    0 < status.version → { podUid := uid, statusUid, status } ∈ after.updatedStatuses
      ∨ (∃ version, before.apiStatusVersions.get statusUid = some version ∧ status.version ≤ version)
        ∧ (all = true → needsReconcile host directory uid status.status = false)

theorem captured_captureOne (c : Capturing T O) (entry : JsString × VersionedPodStatus T O) :
    Captured host directory all [entry] c (captureOne host directory all c entry) := by
  obtain ⟨uid, status⟩ := entry
  have hsame : (∀ statusUid, uidOfStatus directory uid = some statusUid → 0 < status.version →
      (∃ version, c.apiStatusVersions.get statusUid = some version ∧ status.version ≤ version)
        ∧ (all = true → needsReconcile host directory uid status.status = false)) →
      Captured host directory all [(uid, status)] c c := by
    intro hsent
    refine ⟨fun _ h => .inl h, fun _ h => h, fun _ _ h => h, fun _ _ h _ => h, ?_⟩
    intro uid' status' statusUid hmem huid hpos
    cases List.mem_singleton.mp hmem
    exact .inr (hsent statusUid huid hpos)
  have hpush : ∀ statusUid versions, uidOfStatus directory uid = some statusUid →
      (∀ k v, versions.get k = some v → c.apiStatusVersions.get k = some v) →
      (∀ k v, c.apiStatusVersions.get k = some v → k ≠ statusUid → versions.get k = some v) →
      Captured host directory all [(uid, status)] c ⟨versions, c.updatedStatuses ++ [⟨uid, statusUid, status⟩]⟩ := by
    intro statusUid versions huid hshrinks hstays
    constructor
    case updates =>
      intro update hmem
      rcases List.mem_append.mp hmem with hmem | hmem
      · exact .inl hmem
      · cases List.mem_singleton.mp hmem
        exact .inr ⟨List.mem_singleton.mpr rfl, huid⟩
    case kept => exact fun _ h => List.mem_append_left _ h
    case shrinks => exact hshrinks
    case stays =>
      intro k v h hnot
      refine hstays k v h ?_
      rintro rfl
      have hlast := hnot ⟨uid, k, status⟩ (by simp)
      exact hlast rfl
    case covers =>
      intro uid' status' statusUid' hmem huid' _
      cases List.mem_singleton.mp hmem
      rw [huid] at huid'
      cases huid'
      exact .inl (by simp)
  unfold captureOne
  dsimp only
  cases huid : uidOfStatus directory uid with
  | none =>
    refine hsame fun statusUid h _ => ?_
    rw [huid] at h
    cases h
  | some statusUid =>
    dsimp only
    have hsent : ∀ {v}, c.apiStatusVersions.get statusUid = some v → status.version ≤ v →
        (all = true → needsReconcile host directory uid status.status = false) →
        Captured host directory all [(uid, status)] c c := by
      intro v hget hle hfound
      refine hsame fun statusUid' h _ => ?_
      rw [huid] at h
      cases h
      exact ⟨⟨v, hget, hle⟩, hfound⟩
    split
    · rename_i hall
      have hpart : all = true → needsReconcile host directory uid status.status = false := by
        rintro rfl
        cases hall
      split
      · rename_i hge
        cases hget : c.apiStatusVersions.get statusUid with
        | some v =>
          rw [hget] at hge
          exact hsent hget hge hpart
        | none =>
          rw [hget] at hge
          refine hsame fun _ _ hpos => ?_
          have hzero : status.version ≤ 0 := hge
          omega
      · exact hpush statusUid c.apiStatusVersions huid (fun _ _ h => h) fun _ _ h _ => h
    · split
      · exact hpush statusUid c.apiStatusVersions huid (fun _ _ h => h) fun _ _ h _ => h
      · rename_i hneeds
        split
        · refine hpush statusUid _ huid (fun k v h => ?_) fun k v h hne => ?_
          · rw [JsMap.get_delete] at h
            split at h
            · cases h
            · exact h
          · rw [JsMap.get_delete, if_neg hne]
            exact h
        · rename_i hfound
          unfold needsUpdate at hneeds
          cases hget : c.apiStatusVersions.get statusUid with
          | none =>
            rw [hget] at hneeds
            exact absurd rfl hneeds
          | some v =>
            rw [hget] at hneeds
            dsimp only at hneeds
            split at hneeds
            · exact absurd rfl hneeds
            · rename_i hle
              exact hsent hget (by omega) fun _ => Bool.eq_false_iff.mpr hfound

/-- By induction on the cached statuses, the last one first. -/
theorem captured_foldl (entries : List (JsString × VersionedPodStatus T O)) (c : Capturing T O) :
    Captured host directory all entries c (entries.foldl (captureOne host directory all) c) := by
  induction entries using List.reverseRecOn with
  | nil =>
    exact ⟨fun _ h => .inl h, fun _ h => h, fun _ _ h => h, fun _ _ h _ => h, fun _ _ _ h => by cases h⟩
  | append_singleton entries entry ih =>
    rw [List.foldl_concat]
    generalize entries.foldl (captureOne host directory all) c = middle at ih
    have hone := captured_captureOne host directory all middle entry
    generalize captureOne host directory all middle entry = last at hone
    constructor
    case updates =>
      intro update hmem
      rcases hone.updates update hmem with hmem | ⟨hmem, huid⟩
      · rcases ih.updates update hmem with hmem | ⟨hmem, huid⟩
        · exact .inl hmem
        · exact .inr ⟨List.mem_append_left _ hmem, huid⟩
      · exact .inr ⟨List.mem_append_right _ hmem, huid⟩
    case kept => exact fun update h => hone.kept update (ih.kept update h)
    case shrinks => exact fun k v h => ih.shrinks k v (hone.shrinks k v h)
    case stays =>
      intro k v h hnot
      exact hone.stays k v (ih.stays k v h fun update hmem => hnot update (hone.kept update hmem)) hnot
    case covers =>
      intro uid status statusUid hmem huid hpos
      rcases List.mem_append.mp hmem with hmem | hmem
      · rcases ih.covers uid status statusUid hmem huid hpos with hcaptured | hsent
        · exact .inl (hone.kept _ hcaptured)
        · exact .inr hsent
      · rcases hone.covers uid status statusUid hmem huid hpos with hcaptured | ⟨⟨v, hget, hle⟩, hfound⟩
        · exact .inl hcaptured
        · exact .inr ⟨⟨v, ih.shrinks statusUid v hget, hle⟩, hfound⟩

omit [DecidableEq T] [DecidableEq O] in
theorem shrinks_forgetVersions (m : Manager T O) {uid : JsString} {version : Nat}
    (h : (forgetVersions directory m).get uid = some version) : m.apiStatusVersions.get uid = some version :=
  (JsMap.get_foldl_delete.mp h).2

theorem captured_capture (m : Manager T O) : Captured host directory all m.podStatuses.entries
    { apiStatusVersions := if all then forgetVersions directory m else m.apiStatusVersions }
    (capture host directory all m) :=
  captured_foldl host directory all m.podStatuses.entries _

/-- A version that is left was there before the batch. -/
theorem get_capture {m : Manager T O} {uid : JsString} {version : Nat}
    (h : (capture host directory all m).apiStatusVersions.get uid = some version) :
    m.apiStatusVersions.get uid = some version := by
  have hbefore := (captured_capture host directory all m).shrinks uid version h
  cases all with
  | true => exact shrinks_forgetVersions directory m hbefore
  | false => exact hbefore

end Capture

/-! ## Versions and statuses -/

/-- A status that was cached for a pod is not newer than the cached one, and
the same where its version is. -/
def Below (podStatuses : PodStatuses T O) (uid : JsString) (status : VersionedPodStatus T O) : Prop :=
  ∀ cached, podStatuses.get uid = some cached →
    status.version ≤ cached.version ∧ (status.version = cached.version → status = cached)

theorem Below.delete {podStatuses : PodStatuses T O} {uid : JsString} {status : VersionedPodStatus T O}
    (h : Below podStatuses uid status) (removed : JsString) : Below (podStatuses.delete removed) uid status := by
  intro cached hget
  rw [JsMap.get_delete] at hget
  split at hget
  · cases hget
  · exact h cached hget

/-- The pod that was read is the one that the status is of, or nothing is known
of it. -/
structure Merges (key : JsString) (sent : Sent T O) : Prop where
  key : podStatusKey sent.pod = key
  translated : sent.translatedUid = [] ∨ sent.translatedUid = sent.podUid

/-- A patch that is under way is of the update, merged. -/
def Merging (phase : Phase T O) : Prop :=
  ∀ update sending, phase = .patching update sending →
    Merges (podStatusKey sending.pod) sending ∧ sending.podUid = update.podUid ∧ sending.status = update.status

structure Synced (s : Syncing T O) : Prop where
  positive : ∀ uid cached, s.manager.podStatuses.get uid = some cached → 0 < cached.version
  versions : ∀ uid, s.manager.apiStatusVersions.get uid
    = (s.sent.get uid).map fun sent => sent.status.version
  sent : ∀ uid sent, s.sent.get uid = some sent → Below s.manager.podStatuses sent.podUid sent.status
  pending : ∀ update ∈ s.pending, Below s.manager.podStatuses update.podUid update.status
  merges : ∀ uid sent, s.sent.get uid = some sent → Merges uid sent
  merging : Merging s.phase

section Moves

variable {s : Syncing T O}

/-- The loop goes on with less to sync, and perhaps without a cached status. -/
theorem Synced.moved (h : Synced s) {batch : Option (List (PendingUpdate T O))} {phase : Phase T O}
    (hpending : ∀ update ∈ phase.update ++ batch.getD [], update ∈ s.pending) (hmerging : Merging phase) :
    Synced { s with batch, phase } :=
  ⟨h.positive, h.versions, h.sent, fun update hmem => h.pending update (hpending update hmem), h.merges,
    hmerging⟩

theorem Synced.deleted (h : Synced s) (uid : JsString) :
    Synced { s with manager :=
      { s.manager with podStatuses := deletePodStatus uid s.manager.podStatuses } } := by
  refine ⟨fun uid' cached hget => ?_, h.versions, fun uid' sent hget => (h.sent uid' sent hget).delete uid,
    fun update hmem => (h.pending update hmem).delete uid, h.merges, h.merging⟩
  have hget : (s.manager.podStatuses.delete uid).get uid' = some cached := hget
  rw [JsMap.get_delete] at hget
  split at hget
  · cases hget
  · exact h.positive uid' cached hget

theorem merging_ready : Merging (.ready : Phase T O) := fun _ _ heq => by cases heq

theorem merging_reading (update : PendingUpdate T O) : Merging (.reading update) := fun _ _ heq => by cases heq

theorem merging_deleting (update : PendingUpdate T O) : Merging (.deleting update) := fun _ _ heq => by cases heq

theorem Synced.read (h : Synced s) {update : PendingUpdate T O} (hphase : s.phase = .reading update)
    (pod : Api.Pod T O) (directory : PodDirectory T O) (couldHaveRunningContainers : Bool) (now : T) :
    Synced (s.read update pod directory couldHaveRunningContainers now) := by
  have hpending : ∀ phase : Phase T O, phase.update ⊆ [update] →
      ∀ u ∈ phase.update ++ s.batch.getD [], u ∈ s.pending := by
    intro phase hphase' u hmem
    rw [Syncing.pending, hphase]
    rcases List.mem_append.mp hmem with hmem | hmem
    · exact List.mem_append_left _ (hphase' hmem)
    · exact List.mem_append_right _ hmem
  unfold Syncing.read
  dsimp only
  split
  · exact (h.moved (hpending .ready (List.nil_subset _)) merging_ready).deleted update.podUid
  · rename_i htranslated
    refine h.moved (hpending (.patching update _) (List.Subset.refl _)) ?_
    intro update' sending heq
    cases heq
    refine ⟨⟨rfl, ?_⟩, rfl, rfl⟩
    simp only [Bool.and_eq_true, Bool.not_eq_true', decide_eq_true_eq, not_and, not_not] at htranslated
    cases hempty : directory.translatePodUid (pod.uid.getD []) with
    | nil => exact .inl rfl
    | cons u us =>
      rw [hempty] at htranslated
      exact .inr (htranslated rfl)

theorem Synced.patched (h : Synced s) {update : PendingUpdate T O} {sending : Sent T O}
    (hphase : s.phase = .patching update sending) {answer : Option (Api.Pod T O)}
    (hanswer : answer.all (fun current => podStatusKey current = podStatusKey sending.pod) = true) :
    Synced (s.patched update sending answer) := by
  have hkey : podStatusKey (answer.getD sending.pod) = podStatusKey sending.pod := by
    cases answer with
    | none => rfl
    | some current => simpa using hanswer
  have hupdate : update ∈ s.pending := by
    rw [Syncing.pending, hphase]
    exact List.mem_cons_self
  obtain ⟨hmerges, huid, hstatus⟩ := h.merging update sending hphase
  have hsent : ∀ uid sent, (s.patched update sending answer).sent.get uid = some sent →
      uid = podStatusKey sending.pod ∧ sent = sending ∨ s.sent.get uid = some sent := by
    intro uid sent hget
    have hget : (s.sent.set (podStatusKey (answer.getD sending.pod)) sending).get uid = some sent := hget
    rw [JsMap.get_set, hkey] at hget
    split at hget
    · rename_i heq
      cases hget
      exact .inl ⟨heq, rfl⟩
    · exact .inr hget
  constructor
  case positive => exact h.positive
  case versions =>
    intro uid
    show (s.manager.apiStatusVersions.set (podStatusKey (answer.getD sending.pod)) update.status.version).get uid
      = ((s.sent.set (podStatusKey (answer.getD sending.pod)) sending).get uid).map _
    rw [JsMap.get_set, JsMap.get_set]
    split
    · rw [← hstatus]
      rfl
    · exact h.versions uid
  case sent =>
    intro uid sent hget
    rcases hsent uid sent hget with ⟨-, rfl⟩ | hget
    · rw [huid, hstatus]
      exact h.pending update hupdate
    · exact h.sent uid sent hget
  case pending =>
    intro u hmem
    refine h.pending u ?_
    have hmem : u ∈ (if canBeDeleted (answer.getD sending.pod) update.status.podIsFinished then
        Phase.deleting update else .ready).update ++ s.batch.getD [] := hmem
    rw [Syncing.pending, hphase]
    rcases List.mem_append.mp hmem with hmem | hmem
    · split at hmem
      · exact List.mem_append_left _ hmem
      · cases hmem
    · exact List.mem_append_right _ hmem
  case merges =>
    intro uid sent hget
    rcases hsent uid sent hget with ⟨rfl, rfl⟩ | hget
    · exact hmerges
    · exact h.merges uid sent hget
  case merging =>
    show Merging (if canBeDeleted (answer.getD sending.pod) update.status.podIsFinished then
      Phase.deleting update else .ready)
    split
    · exact merging_deleting update
    · exact merging_ready

end Moves

section Exec

variable (host : Host T) [DecidableEq T] [DecidableEq O]

/-- A status is cached anew only where no version of the pod is left, at the
API or in the batch. -/
def Renews (s : Syncing T O) : SyncEvent T O → Prop
  | .statuses (.call turn) => (turn.apply host s.manager.podStatuses).changed = true →
      ∀ pod, turn.pod = some pod → s.manager.podStatuses.get (podStatusKey pod) = none →
        (∀ uid sent, s.sent.get uid = some sent → sent.podUid ≠ podStatusKey pod)
          ∧ ∀ update ∈ s.pending, update.podUid ≠ podStatusKey pod
  | _ => True

variable {host} {s : Syncing T O}

/-- An update of the cached statuses. -/
theorem Synced.updated (h : Synced s) {event : Event T O} (hrenews : Renews host s (.statuses event))
    (hnormal : ∀ uid cached, s.manager.podStatuses.get uid = some cached → Normal host cached.status) :
    Synced { s with manager :=
      { s.manager with podStatuses := event.apply host s.manager.podStatuses } } := by
  have hremoved : ∀ (podUids : List JsString) uid status, Below s.manager.podStatuses uid status →
      Below (podUids.foldl JsMap.delete s.manager.podStatuses) uid status := by
    intro podUids uid status hbelow cached hget
    exact hbelow cached (JsMap.get_foldl_delete.mp hget).2
  cases event with
  | deleted removed =>
    refine ⟨fun uid cached hget => ?_, h.versions, fun uid sent hget => (h.sent uid sent hget).delete removed,
      fun update hmem => (h.pending update hmem).delete removed, h.merges, h.merging⟩
    have hget : (s.manager.podStatuses.delete removed).get uid = some cached := hget
    rw [JsMap.get_delete] at hget
    split at hget
    · cases hget
    · exact h.positive uid cached hget
  | orphaned podUids =>
    refine ⟨fun uid cached hget => ?_, h.versions, fun uid sent hget => hremoved _ _ _ (h.sent uid sent hget),
      fun update hmem => hremoved _ _ _ (h.pending update hmem), h.merges, h.merging⟩
    exact h.positive uid cached (JsMap.get_foldl_delete.mp hget).2
  | call turn =>
    cases outcome_apply host turn s.manager.podStatuses with
    | unchanged _ hstatuses =>
      have hsame : (Event.call turn).apply host s.manager.podStatuses = s.manager.podStatuses := hstatuses
      rw [hsame]
      exact h
    | changed aPod next hpod hchanged hstatuses _ _ hnew hlawful =>
      have hset : (Event.call turn).apply host s.manager.podStatuses
          = s.manager.podStatuses.set (podStatusKey aPod) next := hstatuses
      have hbelow : ∀ uid status, Below s.manager.podStatuses uid status →
          (s.manager.podStatuses.get (podStatusKey aPod) = none → uid ≠ podStatusKey aPod) →
          Below (s.manager.podStatuses.set (podStatusKey aPod) next) uid status := by
        intro uid status hbelow hleft cached hget
        rw [JsMap.get_set] at hget
        split at hget
        · rename_i heq
          subst heq
          cases hget
          cases hbefore : s.manager.podStatuses.get (podStatusKey aPod) with
          | none => exact absurd rfl (hleft hbefore)
          | some before =>
            have hlaw := hlawful before hbefore (hnormal _ before hbefore)
            have hle := (hbelow before hbefore).1
            rw [hlaw.version]
            exact ⟨by omega, fun heq => by omega⟩
        · exact hbelow cached hget
      rw [hset]
      refine ⟨fun uid cached hget => ?_, h.versions, fun uid sent hget => hbelow _ _ (h.sent uid sent hget) ?_,
        fun update hmem => hbelow _ _ (h.pending update hmem) ?_, h.merges, h.merging⟩
      · have hget : (s.manager.podStatuses.set (podStatusKey aPod) next).get uid = some cached := hget
        rw [JsMap.get_set] at hget
        split at hget
        · cases hget
          cases hbefore : s.manager.podStatuses.get (podStatusKey aPod) with
          | none =>
            rw [hnew hbefore]
            exact Nat.one_pos
          | some before =>
            rw [(hlawful before hbefore (hnormal _ before hbefore)).version]
            exact Nat.succ_pos _
        · exact h.positive uid cached hget
      · exact fun hnone => (hrenews hchanged aPod hpod hnone).1 uid sent hget
      · exact fun hnone => (hrenews hchanged aPod hpod hnone).2 update hmem

theorem Synced.startBatch (h : Synced s) (hphase : s.phase = .ready) (directory : PodDirectory T O) (all : Bool) :
    Synced (s.startBatch host directory all) := by
  have hsent : ∀ uid sent, (s.startBatch host directory all).sent.get uid = some sent →
      s.sent.get uid = some sent :=
    fun uid sent hget => (JsMap.get_foldl_delete.mp hget).2
  constructor
  case positive => exact h.positive
  case versions =>
    intro uid
    show (capture host directory all s.manager).apiStatusVersions.get uid
      = ((s.startBatch host directory all).sent.get uid).map fun sent => sent.status.version
    cases hget : (capture host directory all s.manager).apiStatusVersions.get uid with
    | some version =>
      have hbefore := get_capture host directory all hget
      rw [h.versions] at hbefore
      obtain ⟨sent, hsentGet, rfl⟩ := Option.map_eq_some_iff.mp hbefore
      have hkept : (s.startBatch host directory all).sent.get uid = some sent := by
        refine JsMap.get_foldl_delete.mpr ⟨fun hmem => ?_, hsentGet⟩
        have hnot := (List.mem_filter.mp hmem).2
        rw [JsMap.contains_iff.mpr ⟨_, hget⟩] at hnot
        cases hnot
      rw [hkept]
      rfl
    | none =>
      cases hkept : (s.startBatch host directory all).sent.get uid with
      | none => rfl
      | some sent =>
        obtain ⟨hnot, hbefore⟩ := JsMap.get_foldl_delete.mp hkept
        refine absurd (List.mem_filter.mpr ⟨JsMap.mem_keys_iff.mpr ⟨sent, hbefore⟩, ?_⟩) hnot
        rw [Bool.not_eq_true', Bool.eq_false_iff, Ne, JsMap.contains_iff]
        rintro ⟨version, hversion⟩
        rw [hget] at hversion
        cases hversion
  case sent => exact fun uid sent hget => h.sent uid sent (hsent uid sent hget)
  case pending =>
    intro update hmem cached hget
    have hmem : update ∈ s.phase.update ++ (capture host directory all s.manager).updatedStatuses := hmem
    rw [hphase] at hmem
    rcases (captured_capture host directory all s.manager).updates update hmem with hnone | ⟨hentry, -⟩
    · cases hnone
    · have hcached := JsMap.get_eq_some_iff.mpr hentry
      rw [show s.manager.podStatuses.get update.podUid = some cached from hget] at hcached
      cases hcached
      exact ⟨le_refl _, fun _ => rfl⟩
  case merges => exact fun uid sent hget => h.merges uid sent (hsent uid sent hget)
  case merging => exact h.merging

variable (host s) in
/-- What an event does, where it happens. -/
inductive Executed : SyncEvent T O → Syncing T O → Prop where
  | updated (event : Event T O) : Executed (.statuses event)
      { s with manager := { s.manager with podStatuses := event.apply host s.manager.podStatuses } }
  | started (directory : PodDirectory T O) (all : Bool) (phase : s.phase = .ready) :
      Executed (.startBatch directory all) (s.startBatch host directory all)
  | next {update : PendingUpdate T O} {updates : List (PendingUpdate T O)} (phase : s.phase = .ready)
      (batch : s.batch = some (update :: updates)) :
      Executed .next { s with phase := .reading update, batch := some updates }
  | ended (batch : s.batch = some []) : Executed .next { s with batch := none }
  | dropped {event : SyncEvent T O} (fails : event.fails = true) : Executed event { s with phase := .ready }
  | read {update : PendingUpdate T O} (pod : Api.Pod T O) (directory : PodDirectory T O)
      (couldHaveRunningContainers : Bool) (now : T) (phase : s.phase = .reading update) :
      Executed (.read (some pod) false directory couldHaveRunningContainers now)
        (s.read update pod directory couldHaveRunningContainers now)
  | patched {update : PendingUpdate T O} {sending : Sent T O} {answer : Option (Api.Pod T O)}
      (phase : s.phase = .patching update sending)
      (answers : answer.all (fun current => podStatusKey current = podStatusKey sending.pod) = true) :
      Executed (.patch (some answer)) (s.patched update sending answer)
  | deleted {update : PendingUpdate T O} (phase : s.phase = .deleting update) : Executed (.delete true)
      { s with
        phase := .ready
        manager := { s.manager with podStatuses := deletePodStatus update.podUid s.manager.podStatuses } }

theorem executed_of_exec {s' : Syncing T O} {event : SyncEvent T O} (hexec : s.exec host event = some s') :
    Executed host s event s' := by
  cases event with
  | statuses event =>
    cases hexec
    exact .updated event
  | startBatch directory all =>
    unfold Syncing.exec at hexec
    dsimp only at hexec
    split at hexec
    · rename_i hphase _
      cases hexec
      exact .started directory all hphase
    · cases hexec
  | next =>
    unfold Syncing.exec at hexec
    dsimp only at hexec
    split at hexec
    · rename_i hphase hbatch
      cases hexec
      exact .next hphase hbatch
    · rename_i hphase hbatch
      cases hexec
      exact .ended hbatch
    · cases hexec
  | read pod cancelled directory couldHaveRunningContainers now =>
    unfold Syncing.exec at hexec
    dsimp only at hexec
    split at hexec
    · rename_i hphase
      cases pod with
      | none =>
        cases hexec
        exact .dropped rfl
      | some pod =>
        cases cancelled with
        | true =>
          cases hexec
          exact .dropped rfl
        | false =>
          cases hexec
          exact .read pod directory couldHaveRunningContainers now hphase
    · cases hexec
  | patch answer =>
    unfold Syncing.exec at hexec
    dsimp only at hexec
    split at hexec
    · rename_i hphase
      cases answer with
      | none =>
        cases hexec
        exact .dropped rfl
      | some answer =>
        dsimp only at hexec
        split at hexec
        · rename_i hanswers
          cases hexec
          exact .patched hphase hanswers
        · cases hexec
    · cases hexec
  | delete succeeded =>
    unfold Syncing.exec at hexec
    dsimp only at hexec
    split at hexec
    · rename_i hphase
      cases succeeded with
      | true =>
        cases hexec
        exact .deleted hphase
      | false =>
        cases hexec
        exact .dropped rfl
    · cases hexec

/-- The cached statuses are those of a run of their own. -/
theorem statuses_of_exec {s' : Syncing T O} {event : SyncEvent T O}
    (h : (statuses host).Reach s.manager.podStatuses) (hexec : s.exec host event = some s') :
    (statuses host).Reach s'.manager.podStatuses := by
  have hdelete : ∀ uid, (statuses host).Reach (deletePodStatus uid s.manager.podStatuses) :=
    fun uid => h.step (l := .deleted uid) rfl
  cases executed_of_exec hexec with
  | updated event => exact h.step (l := event) rfl
  | read pod directory couldHaveRunningContainers now hphase =>
    unfold Syncing.read
    dsimp only
    split
    · exact hdelete _
    · exact h
  | deleted hphase => exact hdelete _
  | _ => exact h

theorem Synced.exec {s' : Syncing T O} {event : SyncEvent T O} (h : Synced s)
    (hstatuses : (statuses host).Reach s.manager.podStatuses) (hrenews : Renews host s event)
    (hexec : s.exec host event = some s') : Synced s' := by
  have hready : Synced { s with phase := .ready } :=
    h.moved (fun update hmem => List.mem_append_right _ hmem) merging_ready
  cases executed_of_exec hexec with
  | updated event => exact h.updated hrenews (normal_of_reach host hstatuses)
  | started directory all hphase => exact h.startBatch hphase directory all
  | @next update updates hphase hbatch =>
    refine h.moved (fun u hmem => ?_) (merging_reading update)
    rw [Syncing.pending, hphase, hbatch]
    exact hmem
  | ended hbatch => exact h.moved (fun u hmem => List.mem_append_left _ (by simpa using hmem)) h.merging
  | dropped _ => exact hready
  | read pod directory couldHaveRunningContainers now hphase =>
    exact h.read hphase pod directory couldHaveRunningContainers now
  | patched hphase hanswers => exact h.patched hphase hanswers
  | @deleted update hphase => exact hready.deleted update.podUid

theorem synced_of_reach (h : ((syncing host).guarded (Renews host)).Reach s) :
    Synced s ∧ (statuses host).Reach s.manager.podStatuses := by
  refine h.invariant (P := fun s : Syncing T O => Synced s ∧ (statuses host).Reach s.manager.podStatuses) ?_ ?_
  · rintro s rfl
    refine ⟨⟨?_, fun _ => rfl, ?_, ?_, ?_, merging_ready⟩, .start rfl⟩
    · exact fun uid cached hget => by cases hget
    · exact fun uid sent hget => by cases hget
    · exact fun update hmem => by cases hmem
    · exact fun uid sent hget => by cases hget
  · rintro s event s' - ⟨hsynced, hstatuses⟩ ⟨hexec, hrenews⟩
    exact ⟨hsynced.exec hstatuses hrenews hexec, statuses_of_exec hstatuses hexec⟩

end Exec

end Webernetes.Kubelet
