/-
Webernetes.Kubelet.PodStatusCacheRuns — when a call of `getNewerThan` is
served.

A subscription compares strictly (`Newer`), a notification does not: a waiter
is sent the data of its pod by the first update of the pod, or of the time,
that is not before its minimum time. Where the update is later, what is known
of the pod is newer then, unless only the observed time of a pod without an
entry was to be set.
-/
import Webernetes.Kubelet.PodStatusCache

namespace Webernetes.Kubelet.PodStatusCache

open Js Base

variable {σ ε : Type}

/-! ## What is known of a pod -/

/-- The cache knows a state of the pod that is newer than the time. -/
def Newer (cache : Cache σ ε) (id : JsString) (minTime : Int) : Prop :=
  (∃ timestamp ∈ cache.timestamp, minTime < timestamp)
    ∨ ∃ data ∈ cache.pods.get id, minTime < data.modified ∨ minTime < data.observedTime

instance (cache : Cache σ ε) (id : JsString) (minTime : Int) : Decidable (Newer cache id minTime) :=
  inferInstanceAs (Decidable (_ ∨ _))

namespace Cache

theorem globalTimestampIsNewer_iff {cache : Cache σ ε} {minTime : Int} :
    cache.globalTimestampIsNewer minTime = true ↔ ∃ timestamp ∈ cache.timestamp, minTime < timestamp := by
  simp [globalTimestampIsNewer, after, Option.any_eq_true]

theorem getIfNewerThan_eq (newPodStatus : JsString → σ) (cache : Cache σ ε) (id : JsString)
    (minTime : Int) : cache.getIfNewerThan newPodStatus id minTime
      = if Newer cache id minTime then some (cache.getData newPodStatus id) else none := by
  unfold getIfNewerThan getData
  cases hdata : cache.pods.get id with
  | none =>
    have hnewer : Newer cache id minTime ↔ cache.globalTimestampIsNewer minTime = true := by
      rw [globalTimestampIsNewer_iff]
      simp [Newer, hdata]
    simp [hnewer]
  | some data =>
    have hnewer : Newer cache id minTime ↔ (cache.globalTimestampIsNewer minTime
        || after data.modified minTime || after data.observedTime minTime) = true := by
      rw [Bool.or_assoc, Bool.or_eq_true, globalTimestampIsNewer_iff]
      simp [Newer, hdata, after]
    simp [hnewer]

theorem subscribersOf_setSubscribers (cache : Cache σ ε) (id pid : JsString)
    (newList : List SubRecord) : (cache.setSubscribers id newList).subscribersOf pid
      = if pid = id then newList else cache.subscribersOf pid := by
  unfold setSubscribers subscribersOf
  dsimp only
  split
  · rename_i hempty
    rw [JsMap.get_delete]
    split
    · exact (List.isEmpty_iff.mp hempty).symm
    · rfl
  · rw [JsMap.get_set]
    split <;> rfl

end Cache

/-! ## Calls -/

namespace Call

/-- What becomes of a call that is notified. -/
def wake (data : Data σ ε) (call : Call σ ε) : Call σ ε :=
  { call.deliver data with ch := (call.deliver data).ch.close }

theorem wake_wake (data : Data σ ε) (call : Call σ ε) :
    (call.wake data).wake data = call.wake data := by
  unfold wake deliver Chan.close Chan.trySend
  cases hsent : call.sent <;> cases hbuffer : call.ch.buffer <;> simp

/-- Nothing was sent, and the call waits in the `select` or has been
canceled there. -/
structure Open (call : Call σ ε) : Prop where
  ch : call.ch = {}
  sent : call.sent = none
  stage : call.stage = .selecting true ∨ call.stage = .leaving .canceled

/-- How the call ended. -/
def outcome (call : Call σ ε) : Option (Outcome σ ε) :=
  match call.stage with
  | .leaving outcome => some outcome
  | .done outcome => some outcome
  | _ => none

/-- What is sent to a call is in its channel until it is received, and then
returned. -/
structure Good (call : Call σ ε) : Prop where
  called : call.stage = .called → call.ch = {} ∧ call.sent = none
  selecting : ∀ record, call.stage = .selecting record →
    record = true ∧ call.ch = {} ∧ call.sent = none ∨ call.sent.isSome = true ∧ call.ch.buffer = call.sent
  returned : ∀ status error, call.outcome = some (.returned status error) →
    ∃ data, call.sent = some data ∧ status = data.status ∧ error = data.error

theorem Open.wake {call : Call σ ε} (h : call.Open) (data : Data σ ε) :
    (call.wake data).sent = some data ∧ (call.wake data).ch.buffer = some data := by
  simp [Call.wake, deliver, Chan.close, Chan.trySend, h.ch, h.sent]

end Call

namespace State

variable (newPodStatus : JsString → σ) {m : State σ ε}

@[simp] theorem cache_modifyCall (m : State σ ε) (i : Nat) (f : Call σ ε → Call σ ε) :
    (m.modifyCall i f).cache = m.cache := rfl

theorem getElem?_modifyCall (m : State σ ε) (i j : Nat) (f : Call σ ε → Call σ ε) :
    (m.modifyCall i f).calls[j]? = if i = j then m.calls[j]?.map f else m.calls[j]? := by
  rw [modifyCall, List.getElem?_modify]
  split
  · rfl
  · cases m.calls[j]? <;> rfl

/-- By induction on the records: a call is woken as often as it is named, and
the second time does nothing. -/
theorem getElem?_wakeAll (data : Data σ ε) (records : List SubRecord) (m : State σ ε) (j : Nat) :
    (records.foldl (fun m record => m.modifyCall record.ch (·.wake data)) m).calls[j]?
      = if j ∈ records.map (·.ch) then m.calls[j]?.map (·.wake data) else m.calls[j]? := by
  induction records generalizing m with
  | nil => rfl
  | cons record records ih =>
    rw [List.foldl_cons, ih, getElem?_modifyCall]
    by_cases hch : record.ch = j
    · have htwice : (·.wake data) ∘ (·.wake data) = (Call.wake data : Call σ ε → _) :=
        funext (Call.wake_wake data)
      simp [hch, Option.map_map, htwice]
    · simp [hch, Ne.symm hch]

/-! ## Notifications -/

/-- Each subscription is that of an open call. -/
def Linked (m : State σ ε) : Prop :=
  ∀ id record, record ∈ m.cache.subscribersOf id → ∃ call, m.calls[record.ch]? = some call
    ∧ call.id = id ∧ call.minTime = record.time ∧ call.Open

/-- The call is subscribed, and the notification is for it. -/
def Woken (m : State σ ε) (ids : List JsString) (timestamp : Int) (j : Nat) (call : Call σ ε) : Prop :=
  call.id ∈ ids ∧ ⟨call.minTime, j⟩ ∈ m.cache.subscribersOf call.id ∧ call.minTime ≤ timestamp

instance (ids : List JsString) (timestamp : Int) (j : Nat) (call : Call σ ε) :
    Decidable (m.Woken ids timestamp j call) := inferInstanceAs (Decidable (_ ∧ _ ∧ _))

/-- What notifications do: the calls that are named get the data of their
pods, and their subscriptions are gone. -/
structure Notified (m : State σ ε) (ids : List JsString) (timestamp : Int) (n : State σ ε) : Prop where
  calls : ∀ j, n.calls[j]? = m.calls[j]?.map fun call =>
    if m.Woken ids timestamp j call then call.wake (m.cache.getData newPodStatus call.id) else call
  pods : n.cache.pods = m.cache.pods
  time : n.cache.timestamp = m.cache.timestamp
  subscribers : ∀ id record, record ∈ n.cache.subscribersOf id ↔
    record ∈ m.cache.subscribersOf id ∧ ¬ (id ∈ ids ∧ record.time ≤ timestamp)

theorem notified_notify (hlinked : m.Linked) (id : JsString) (timestamp : Int) :
    Notified newPodStatus m [id] timestamp (m.notify newPodStatus id timestamp) := by
  unfold notify
  split
  · rename_i hnone
    have hempty : m.cache.subscribersOf id = [] := by rw [Cache.subscribersOf, hnone]; rfl
    refine ⟨fun j => ?_, rfl, rfl, fun pid record => ?_⟩
    · have hnot : ∀ call, ¬ m.Woken [id] timestamp j call := by
        rintro call ⟨hid, hmem, -⟩
        rw [List.mem_singleton.mp hid, hempty] at hmem
        cases hmem
      simp [hnot]
    · constructor
      · intro hmem
        refine ⟨hmem, fun ⟨hid, _⟩ => ?_⟩
        rw [List.mem_singleton.mp hid, hempty] at hmem
        cases hmem
      · exact And.left
  · rename_i list hlist
    have hof : m.cache.subscribersOf id = list := by rw [Cache.subscribersOf, hlist]; rfl
    refine ⟨fun j => ?_, rfl, rfl, fun pid record => ?_⟩
    · have hgoal := getElem?_wakeAll (m.cache.getData newPodStatus id)
        (list.filter fun record => !before timestamp record.time) m j
      refine hgoal.trans ?_
      cases hcall : m.calls[j]? with
      | none => simp
      | some call =>
        have hiff : m.Woken [id] timestamp j call
            ↔ j ∈ (list.filter fun record => !before timestamp record.time).map (·.ch) := by
          rw [Woken, List.mem_singleton]
          constructor
          · rintro ⟨hid, hmem, htime⟩
            rw [hid, hof] at hmem
            exact List.mem_map.mpr ⟨_, List.mem_filter.mpr ⟨hmem, by simpa [before] using htime⟩, rfl⟩
          · intro hmem
            obtain ⟨record, hrecord, rfl⟩ := List.mem_map.mp hmem
            obtain ⟨hrecord, htime⟩ := List.mem_filter.mp hrecord
            obtain ⟨call', hcall', hid, hminTime, -⟩ := hlinked id record (hof ▸ hrecord)
            rw [hcall] at hcall'
            cases hcall'
            refine ⟨hid, ?_, by simpa [before, hminTime] using htime⟩
            rw [hid, hof, hminTime]
            exact hrecord
        by_cases hwoken : m.Woken [id] timestamp j call
        · rw [if_pos (hiff.mp hwoken), Option.map_some, Option.map_some, if_pos hwoken,
            List.mem_singleton.mp hwoken.1]
        · rw [if_neg (fun h => hwoken (hiff.mpr h)), Option.map_some, if_neg hwoken]
    · rw [Cache.subscribersOf_setSubscribers]
      by_cases hid : pid = id
      · rw [if_pos hid, hid, hof, List.mem_filter]
        simp [before]
      · rw [if_neg hid]
        simp [hid]

theorem Notified.linked {ids : List JsString} {timestamp : Int} {n : State σ ε}
    (h : Notified newPodStatus m ids timestamp n) (hlinked : m.Linked) : n.Linked := by
  intro id record hrecord
  obtain ⟨hrecord, hnot⟩ := (h.subscribers id record).mp hrecord
  obtain ⟨call, hcall, hid, htime, hopen⟩ := hlinked id record hrecord
  refine ⟨call, ?_, hid, htime, hopen⟩
  rw [h.calls, hcall, Option.map_some, if_neg]
  rintro ⟨hmem, -, hle⟩
  exact hnot ⟨hid ▸ hmem, htime ▸ hle⟩

/-- By induction on the pods: those that are notified later find their
subscriptions as they were. -/
theorem notified_notifyAll (timestamp : Int) (ids : List JsString) : ∀ {m : State σ ε}, m.Linked →
    Notified newPodStatus m ids timestamp
      (ids.foldl (fun m id => m.notify newPodStatus id timestamp) m) := by
  induction ids with
  | nil =>
    intro m _
    refine ⟨fun j => ?_, rfl, rfl, fun id record => by simp⟩
    simp [Woken]
  | cons id ids ih =>
    intro m hlinked
    have hfirst := notified_notify newPodStatus hlinked id timestamp
    have hrest := ih (hfirst.linked newPodStatus hlinked)
    rw [List.foldl_cons]
    refine ⟨fun j => ?_, hrest.pods.trans hfirst.pods, hrest.time.trans hfirst.time,
      fun pid record => ?_⟩
    · rw [hrest.calls, hfirst.calls]
      cases hcall : m.calls[j]? with
      | none => rfl
      | some call =>
        have hdata : ∀ pid, (m.notify newPodStatus id timestamp).cache.getData newPodStatus pid
            = m.cache.getData newPodStatus pid := by
          intro pid
          rw [Cache.getData, Cache.getData, hfirst.pods]
        simp only [Option.map_some, hdata]
        by_cases hnow : m.Woken [id] timestamp j call
        · have hlater : ¬ (m.notify newPodStatus id timestamp).Woken ids timestamp j
              (call.wake (m.cache.getData newPodStatus call.id)) := by
            rintro ⟨-, hmem, -⟩
            exact ((hfirst.subscribers _ _).mp hmem).2 ⟨hnow.1, hnow.2.2⟩
          have hall : m.Woken (id :: ids) timestamp j call :=
            ⟨List.mem_cons.mpr (.inl (List.mem_singleton.mp hnow.1)), hnow.2⟩
          rw [if_pos hnow, if_neg hlater, if_pos hall]
        · have hiff : (m.notify newPodStatus id timestamp).Woken ids timestamp j call
              ↔ m.Woken (id :: ids) timestamp j call := by
            constructor
            · rintro ⟨hid, hmem, hle⟩
              exact ⟨List.mem_cons_of_mem _ hid, ((hfirst.subscribers _ _).mp hmem).1, hle⟩
            · rintro ⟨hid, hmem, hle⟩
              have hnot : call.id ∉ [id] := fun hid => hnow ⟨hid, hmem, hle⟩
              refine ⟨(List.mem_cons.mp hid).resolve_left fun heq => hnot ?_,
                (hfirst.subscribers _ _).mpr ⟨hmem, fun h => hnot h.1⟩, hle⟩
              exact List.mem_singleton.mpr heq
          rw [if_neg hnow]
          simp only [hiff]
    · rw [hrest.subscribers, hfirst.subscribers]
      simp only [List.mem_cons]
      tauto

/-! ## Updates -/

end State

/-- The time that an action notifies the waiters of a pod of. -/
def Action.updates (action : Action σ ε) (id : JsString) : Option Int :=
  match action with
  | .set pid _ _ timestamp => if pid = id then some timestamp else none
  | .setObservedTime pid timestamp => if pid = id then some timestamp else none
  | .updateTime timestamp => some timestamp
  | _ => none

namespace State

variable (newPodStatus : JsString → σ) {m : State σ ε}

/-- The cache after an update and before its notifications. -/
def written (m : State σ ε) : Action σ ε → Cache σ ε
  | .set id status error timestamp =>
    let data := { status, error, modified := timestamp, observedTime := timestamp }
    { m.cache with pods := m.cache.pods.set id data }
  | .setObservedTime id timestamp =>
    let pods := match m.cache.pods.get id with
      | none => m.cache.pods
      | some data => m.cache.pods.set id { data with observedTime := timestamp }
    { m.cache with pods }
  | .updateTime timestamp => { m.cache with timestamp := some timestamp }
  | .delete id => { m.cache with pods := m.cache.pods.delete id }
  | _ => m.cache

/-- What is newer after a write was newer, or the write is an update that is
later than the minimum time. -/
theorem newer_of_written {action : Action σ ε} {id : JsString} {minTime : Int}
    (h : Newer (m.written action) id minTime) :
    Newer m.cache id minTime ∨ ∃ timestamp ∈ action.updates id, minTime < timestamp := by
  cases action with
  | set pid status error timestamp =>
    rcases h with h | ⟨data, hdata, hlater⟩
    · exact .inl (.inl h)
    · simp only [written, JsMap.get_set] at hdata
      split at hdata
      · rename_i hid
        cases hdata
        exact .inr ⟨timestamp, by simp [Action.updates, hid], by simpa using hlater⟩
      · exact .inl (.inr ⟨data, hdata, hlater⟩)
  | setObservedTime pid timestamp =>
    rcases h with h | ⟨data, hdata, hlater⟩
    · exact .inl (.inl h)
    · simp only [written] at hdata
      split at hdata
      · exact .inl (.inr ⟨data, hdata, hlater⟩)
      · rename_i old hold
        rw [JsMap.get_set] at hdata
        split at hdata
        · rename_i hid
          cases hdata
          rcases hlater with hlater | hlater
          · exact .inl (.inr ⟨old, hid ▸ hold, .inl hlater⟩)
          · exact .inr ⟨timestamp, by simp [Action.updates, hid], hlater⟩
        · exact .inl (.inr ⟨data, hdata, hlater⟩)
  | updateTime timestamp =>
    rcases h with ⟨timestamp', htimestamp, hlater⟩ | h
    · cases htimestamp
      exact .inr ⟨timestamp, rfl, hlater⟩
    · exact .inl (.inr h)
  | delete pid =>
    rcases h with h | ⟨data, hdata, hlater⟩
    · exact .inl (.inl h)
    · simp only [written, JsMap.get_delete] at hdata
      split at hdata
      · cases hdata
      · exact .inl (.inr ⟨data, hdata, hlater⟩)
  | _ => exact .inl h

/-- A later update makes what is known newer, but for an observed time of a
pod without an entry. -/
theorem newer_written {action : Action σ ε} {id : JsString} {minTime timestamp : Int}
    (hupdates : action.updates id = some timestamp) (hlater : minTime < timestamp) :
    Newer (m.written action) id minTime
      ∨ action = .setObservedTime id timestamp ∧ m.cache.pods.get id = none := by
  cases action with
  | set pid status error timestamp' =>
    simp only [Action.updates, Option.ite_none_right_eq_some, Option.some.injEq] at hupdates
    obtain ⟨rfl, rfl⟩ := hupdates
    exact .inl (.inr ⟨_, JsMap.get_set_self _ _ _, .inl hlater⟩)
  | setObservedTime pid timestamp' =>
    simp only [Action.updates, Option.ite_none_right_eq_some, Option.some.injEq] at hupdates
    obtain ⟨rfl, rfl⟩ := hupdates
    cases hdata : m.cache.pods.get pid with
    | none => exact .inr ⟨rfl, rfl⟩
    | some data =>
      refine .inl (.inr ⟨{ data with observedTime := timestamp' }, ?_, .inr hlater⟩)
      simp [written, hdata]
  | updateTime timestamp' =>
    cases hupdates
    exact .inl (.inl ⟨timestamp, rfl, hlater⟩)
  | _ => cases hupdates

/-- The action sends the call its data: it is subscribed, and the update is
not before its minimum time. -/
def Due (m : State σ ε) (action : Action σ ε) (i : Nat) (call : Call σ ε) : Prop :=
  ⟨call.minTime, i⟩ ∈ m.cache.subscribersOf call.id
    ∧ ∃ timestamp ∈ action.updates call.id, call.minTime ≤ timestamp

/-- What a write comes to. -/
structure Wrote (m : State σ ε) (action : Action σ ε) (n : State σ ε) : Prop where
  calls : ∀ (j : Nat) call, m.calls[j]? = some call → n.calls[j]? = some call ∧ ¬ m.Due action j call
    ∨ n.calls[j]? = some (call.wake ((m.written action).getData newPodStatus call.id))
      ∧ m.Due action j call
  fresh : ∀ j : Nat, m.calls[j]? = none → n.calls[j]? = none
  pods : n.cache.pods = (m.written action).pods
  time : n.cache.timestamp = (m.written action).timestamp
  subscribers : ∀ id record, record ∈ n.cache.subscribersOf id ↔ record ∈ m.cache.subscribersOf id
    ∧ ¬ ∃ timestamp ∈ action.updates id, record.time ≤ timestamp
  linked : n.Linked

theorem Wrote.of_notified {action : Action σ ε} {ids : List JsString} {timestamp : Int}
    {n : State σ ε} (hlinked : m.Linked) (hsubscribers : (m.written action).subscribers = m.cache.subscribers)
    (h : Notified newPodStatus { m with cache := m.written action } ids timestamp n)
    (hids : ∀ id record, record ∈ m.cache.subscribersOf id → (id ∈ ids ∧ record.time ≤ timestamp
      ↔ ∃ timestamp ∈ action.updates id, record.time ≤ timestamp)) :
    Wrote newPodStatus m action n := by
  have hof : ∀ id, (m.written action).subscribersOf id = m.cache.subscribersOf id := by
    intro id
    rw [Cache.subscribersOf, hsubscribers, Cache.subscribersOf]
  have hlinked' : Linked { m with cache := m.written action } := by
    intro id record hrecord
    exact hlinked id record (hof id ▸ hrecord)
  refine ⟨fun j call hcall => ?_, fun j hnone => ?_, h.pods, h.time, fun id record => ?_,
    h.linked newPodStatus hlinked'⟩
  · have hiff : Woken { m with cache := m.written action } ids timestamp j call
        ↔ m.Due action j call := by
      rw [Woken, Due]
      dsimp only
      rw [hof]
      constructor
      · rintro ⟨hid, hmem, hle⟩
        exact ⟨hmem, (hids _ _ hmem).mp ⟨hid, hle⟩⟩
      · rintro ⟨hmem, hdue⟩
        obtain ⟨hid, hle⟩ := (hids _ _ hmem).mpr hdue
        exact ⟨hid, hmem, hle⟩
    have hcalls := h.calls j
    dsimp only at hcalls
    rw [hcall, Option.map_some] at hcalls
    by_cases hdue : m.Due action j call
    · rw [if_pos (hiff.mpr hdue)] at hcalls
      exact .inr ⟨hcalls, hdue⟩
    · rw [if_neg (fun hwoken => hdue (hiff.mp hwoken))] at hcalls
      exact .inl ⟨hcalls, hdue⟩
  · rw [h.calls]
    exact congrArg _ hnone
  · have hrecords := h.subscribers id record
    dsimp only at hrecords
    rw [hof] at hrecords
    rw [hrecords, and_congr_right_iff]
    exact fun hmem => not_congr (hids id record hmem)

theorem mem_keys_of_subscribersOf {cache : Cache σ ε} {id : JsString} {record : SubRecord}
    (h : record ∈ cache.subscribersOf id) : id ∈ cache.subscribers.keys := by
  rw [JsMap.mem_keys_iff]
  cases hlist : cache.subscribers.get id with
  | none =>
    rw [Cache.subscribersOf, hlist] at h
    cases h
  | some list => exact ⟨list, rfl⟩

end State

/-- The actions that write the cache. -/
def Action.IsWrite : Action σ ε → Prop
  | .set .. => True
  | .setObservedTime .. => True
  | .delete .. => True
  | .updateTime .. => True
  | _ => False

namespace State

variable (newPodStatus : JsString → σ) {m : State σ ε}

theorem wrote_exec (hlinked : m.Linked) {action : Action σ ε} (hwrite : action.IsWrite) :
    Wrote newPodStatus m action (m.exec newPodStatus action) := by
  have hwritten : ∀ {action : Action σ ε},
      (m.written action).subscribers = m.cache.subscribers →
        Linked { m with cache := m.written action } := by
    intro action hsubscribers id record hrecord
    refine hlinked id record ?_
    rw [Cache.subscribersOf, ← hsubscribers]
    exact hrecord
  have hone : ∀ (id pid : JsString) (record : SubRecord) (timestamp : Int), (pid ∈ [id] ∧ record.time ≤ timestamp ↔
      ∃ t ∈ (if id = pid then some timestamp else none), record.time ≤ t) := by
    intro id pid record timestamp
    by_cases hid : id = pid <;> simp [hid, eq_comm]
  cases action with
  | set id status error timestamp =>
    exact .of_notified newPodStatus hlinked rfl (notified_notify newPodStatus (hwritten rfl) id timestamp)
      fun pid record _ => hone id pid record timestamp
  | setObservedTime id timestamp =>
    exact .of_notified newPodStatus hlinked rfl (notified_notify newPodStatus (hwritten rfl) id timestamp)
      fun pid record _ => hone id pid record timestamp
  | delete id =>
    exact .of_notified newPodStatus hlinked rfl (notified_notifyAll newPodStatus 0 [] (hwritten rfl))
      fun pid record _ => by simp [Action.updates]
  | updateTime timestamp =>
    refine .of_notified newPodStatus hlinked rfl (notified_notifyAll newPodStatus timestamp
      m.cache.subscribers.keys (hwritten rfl)) fun pid record hrecord => ?_
    simp [Action.updates, mem_keys_of_subscribersOf hrecord]
  | _ => cases hwrite

/-! ## What becomes of a call -/

/-- What an action does to one call. -/
inductive Moved (m : State σ ε) (action : Action σ ε) (i : Nat) (call : Call σ ε) : Call σ ε → Prop
  | kept (hdue : ¬ m.Due action i call) (hstage : action = .subscribe i → call.stage ≠ .called) :
    Moved m action i call call
  | woken (hdue : m.Due action i call) :
    Moved m action i call (call.wake ((m.written action).getData newPodStatus call.id))
  | served (haction : action = .subscribe i) (hstage : call.stage = .called)
      (hnewer : Newer m.cache call.id call.minTime) :
    Moved m action i call
      { call.deliver (m.cache.getData newPodStatus call.id) with stage := .selecting false }
  | subscribed (haction : action = .subscribe i) (hstage : call.stage = .called)
      (hnewer : ¬ Newer m.cache call.id call.minTime) :
    Moved m action i call { call with stage := .selecting true }
  | received (record : Bool) (result : Option (Data σ ε)) (haction : action = .receive i)
      (hstage : call.stage = .selecting record) (hresult : call.ch.receive = some result) :
    Moved m action i call { call with
      ch := { call.ch with buffer := none }
      stage := if record then .leaving (cacheResultFromReceive newPodStatus call.id result)
        else .done (cacheResultFromReceive newPodStatus call.id result) }
  | canceled (record : Bool) (haction : action = .cancel i) (hstage : call.stage = .selecting record) :
    Moved m action i call { call with
      stage := if record then .leaving .canceled else .done .canceled }
  | unsubscribed (outcome : Outcome σ ε) (haction : action = .unsubscribe i)
      (hstage : call.stage = .leaving outcome) :
    Moved m action i call { call with stage := .done outcome }

theorem not_due_of_updates {action : Action σ ε} (h : ∀ id, action.updates id = none) (i : Nat)
    (call : Call σ ε) : ¬ m.Due action i call := by
  rintro ⟨-, timestamp, htimestamp, -⟩
  rw [h] at htimestamp
  cases htimestamp

theorem getElem?_modifyCall_of_eq {i j : Nat} {call call' : Call σ ε} (hcall : m.calls[j]? = some call)
    (hi : m.calls[i]? = some call') (f : Call σ ε → Call σ ε) :
    (m.modifyCall i f).calls[j]? = some (f call) ∧ j = i ∧ call = call'
      ∨ (m.modifyCall i f).calls[j]? = some call ∧ j ≠ i := by
  rw [getElem?_modifyCall, hcall]
  by_cases hij : i = j
  · subst hij
    rw [hcall] at hi
    cases hi
    exact .inl ⟨by simp, rfl, rfl⟩
  · exact .inr ⟨by simp [hij], Ne.symm hij⟩

theorem moved_exec (hlinked : m.Linked) (action : Action σ ε) {j : Nat} {call : Call σ ε}
    (hcall : m.calls[j]? = some call) : ∃ call', (m.exec newPodStatus action).calls[j]? = some call'
      ∧ Moved newPodStatus m action j call call' := by
  have hwrite : action.IsWrite → ∃ call', (m.exec newPodStatus action).calls[j]? = some call'
      ∧ Moved newPodStatus m action j call call' := by
    intro hwrite
    rcases (wrote_exec newPodStatus hlinked hwrite).calls j call hcall with ⟨h, hdue⟩ | ⟨h, hdue⟩
    · refine ⟨_, h, .kept hdue ?_⟩
      rintro rfl
      cases hwrite
    · exact ⟨_, h, .woken hdue⟩
  have hkept : (∀ id, action.updates id = none) → action ≠ .subscribe j →
      Moved newPodStatus m action j call call :=
    fun h hne => .kept (not_due_of_updates h j call) fun heq => absurd heq hne
  cases action with
  | set | setObservedTime | delete | updateTime => exact hwrite trivial
  | getNewerThan id minTime =>
    refine ⟨call, ?_, hkept (fun _ => rfl) fun h => by cases h⟩
    exact (List.getElem?_append_left (List.getElem?_eq_some_iff.mp hcall).1).trans hcall
  | subscribe i =>
    have hother : call.stage ≠ .called ∨ j ≠ i →
        Moved newPodStatus m (.subscribe i) j call call := by
      intro hother
      refine .kept (not_due_of_updates (fun _ => rfl) j call) fun heq => ?_
      cases heq
      exact hother.resolve_right (not_not.mpr rfl)
    simp only [exec]
    split
    · rename_i call' hi
      split
      · rename_i hstage
        unfold subscribe
        rw [Cache.getIfNewerThan_eq]
        by_cases hnewer : Newer m.cache call'.id call'.minTime
        · rw [if_pos hnewer]
          rcases getElem?_modifyCall_of_eq hcall hi fun call =>
              { call.deliver (m.cache.getData newPodStatus call'.id) with stage := .selecting false }
            with ⟨h, rfl, rfl⟩ | ⟨h, hne⟩
          · exact ⟨_, h, .served rfl hstage hnewer⟩
          · exact ⟨_, h, hother (.inr hne)⟩
        · rw [if_neg hnewer]
          rcases getElem?_modifyCall_of_eq hcall hi fun call => { call with stage := .selecting true }
            with ⟨h, rfl, rfl⟩ | ⟨h, hne⟩
          · exact ⟨_, h, .subscribed rfl hstage hnewer⟩
          · exact ⟨_, h, hother (.inr hne)⟩
      · rename_i hstage
        refine ⟨_, hcall, hother ?_⟩
        by_cases hij : j = i
        · subst hij
          rw [hcall] at hi
          cases hi
          exact .inl hstage
        · exact .inr hij
    · rename_i hnone
      refine ⟨_, hcall, hother (.inr ?_)⟩
      rintro rfl
      rw [hcall] at hnone
      cases hnone
  | receive i =>
    simp only [exec]
    split
    · rename_i call' hi
      split
      · rename_i record result hstage hresult
        unfold leave
        rcases getElem?_modifyCall_of_eq hcall hi fun call =>
            { call with ch := { call.ch with buffer := none } } with ⟨h, rfl, rfl⟩ | ⟨h, hne⟩
        · refine ⟨_, ?_, .received record result rfl hstage hresult⟩
          rw [getElem?_modifyCall, if_pos rfl, h]
          rfl
        · refine ⟨_, ?_, hkept (fun _ => rfl) fun h => by cases h⟩
          rw [getElem?_modifyCall, if_neg (Ne.symm hne), h]
      · exact ⟨_, hcall, hkept (fun _ => rfl) fun h => by cases h⟩
    · exact ⟨_, hcall, hkept (fun _ => rfl) fun h => by cases h⟩
  | cancel i =>
    simp only [exec]
    split
    · rename_i call' hi
      split
      · rename_i record hstage
        rcases getElem?_modifyCall_of_eq hcall hi fun call => { call with
            stage := if record then .leaving .canceled else .done .canceled }
          with ⟨h, rfl, rfl⟩ | ⟨h, -⟩
        · exact ⟨_, h, .canceled record rfl hstage⟩
        · exact ⟨_, h, hkept (fun _ => rfl) fun h => by cases h⟩
      · exact ⟨_, hcall, hkept (fun _ => rfl) fun h => by cases h⟩
    · exact ⟨_, hcall, hkept (fun _ => rfl) fun h => by cases h⟩
  | unsubscribe i =>
    simp only [exec]
    split
    · rename_i call' hi
      split
      · rename_i outcome hstage
        have hcalls : (m.unsubscribe i call').calls = m.calls := by
          unfold unsubscribe
          split <;> rfl
        rcases getElem?_modifyCall_of_eq (m := m.unsubscribe i call') (hcalls ▸ hcall) (hcalls ▸ hi)
            fun call => { call with stage := .done outcome } with ⟨h, rfl, rfl⟩ | ⟨h, -⟩
        · exact ⟨_, h, .unsubscribed outcome rfl hstage⟩
        · exact ⟨_, h, hkept (fun _ => rfl) fun h => by cases h⟩
      · exact ⟨_, hcall, hkept (fun _ => rfl) fun h => by cases h⟩
    · exact ⟨_, hcall, hkept (fun _ => rfl) fun h => by cases h⟩

/-! ## What becomes of the cache -/

/-- The action takes the subscription away. -/
def Unsubscribes (m : State σ ε) (action : Action σ ε) (id : JsString) (record : SubRecord) : Prop :=
  action = .unsubscribe record.ch ∧ ∃ call outcome, m.calls[record.ch]? = some call ∧ call.id = id
    ∧ call.stage = .leaving outcome

/-- The action adds the subscription. -/
def Subscribes (m : State σ ε) (action : Action σ ε) (id : JsString) (record : SubRecord) : Prop :=
  action = .subscribe record.ch ∧ ∃ call, m.calls[record.ch]? = some call ∧ call.id = id
    ∧ call.minTime = record.time ∧ call.stage = .called ∧ ¬ Newer m.cache id record.time

/-- What a subscription list holds after an action. -/
def Lists (m : State σ ε) (action : Action σ ε) (n : State σ ε) : Prop :=
  ∀ id record, record ∈ n.cache.subscribersOf id ↔ (record ∈ m.cache.subscribersOf id
    ∧ (¬ ∃ timestamp ∈ action.updates id, record.time ≤ timestamp)
    ∧ ¬ m.Unsubscribes action id record) ∨ m.Subscribes action id record

theorem lists_of_eq {action : Action σ ε} {n : State σ ε}
    (h : n.cache.subscribers = m.cache.subscribers) (hupdates : ∀ id, action.updates id = none)
    (hunsubscribes : ∀ id record, ¬ m.Unsubscribes action id record)
    (hsubscribes : ∀ id record, ¬ m.Subscribes action id record) : m.Lists action n := by
  intro id record
  rw [Cache.subscribersOf, h, Cache.subscribersOf]
  simp [hupdates, hunsubscribes, hsubscribes]

theorem lists_exec (hlinked : m.Linked) (action : Action σ ε) :
    m.Lists action (m.exec newPodStatus action) := by
  have hwrite : action.IsWrite → m.Lists action (m.exec newPodStatus action) := by
    intro hwrite id record
    have hno : ¬ m.Unsubscribes action id record ∧ ¬ m.Subscribes action id record := by
      constructor
      · rintro ⟨rfl, -⟩
        exact hwrite
      · rintro ⟨rfl, -⟩
        exact hwrite
    rw [(wrote_exec newPodStatus hlinked hwrite).subscribers]
    simp [hno.1, hno.2]
  cases action with
  | set | setObservedTime | delete | updateTime => exact hwrite trivial
  | getNewerThan id minTime =>
    exact lists_of_eq rfl (fun _ => rfl) (fun _ _ h => by cases h.1) fun _ _ h => by cases h.1
  | receive i =>
    refine lists_of_eq ?_ (fun _ => rfl) (fun _ _ h => by cases h.1) fun _ _ h => by cases h.1
    simp only [exec]
    split
    · split <;> rfl
    · rfl
  | cancel i =>
    refine lists_of_eq ?_ (fun _ => rfl) (fun _ _ h => by cases h.1) fun _ _ h => by cases h.1
    simp only [exec]
    split
    · split <;> rfl
    · rfl
  | subscribe i =>
    by_cases hsubscribes : ∃ call, m.calls[i]? = some call ∧ call.stage = .called
        ∧ ¬ Newer m.cache call.id call.minTime
    · obtain ⟨call, hcall, hstage, hnewer⟩ := hsubscribes
      intro id record
      have hcache : (m.exec newPodStatus (.subscribe i)).cache = m.cache.setSubscribers call.id
          (m.cache.subscribersOf call.id ++ [{ time := call.minTime, ch := i }]) := by
        simp [exec, hcall, hstage, subscribe, Cache.getIfNewerThan_eq, hnewer]
      rw [hcache, Cache.subscribersOf_setSubscribers]
      have hiff : m.Subscribes (.subscribe i) id record
          ↔ id = call.id ∧ record = { time := call.minTime, ch := i } := by
        constructor
        · rintro ⟨haction, call', hcall', hid, htime, -⟩
          cases haction
          rw [hcall] at hcall'
          cases hcall'
          cases record
          cases htime
          exact ⟨hid.symm, rfl⟩
        · rintro ⟨rfl, rfl⟩
          exact ⟨rfl, call, hcall, rfl, rfl, hstage, hnewer⟩
      have hno : ¬ m.Unsubscribes (.subscribe i) id record := fun h => by cases h.1
      rw [hiff]
      by_cases hid : id = call.id
      · simp [hid, Action.updates, Unsubscribes]
      · simp [hid, hno, Action.updates]
    · refine lists_of_eq ?_ (fun _ => rfl) (fun _ _ h => by cases h.1) ?_
      · simp only [exec]
        split
        · rename_i call hcall
          split
          · rename_i hstage
            have hnewer : Newer m.cache call.id call.minTime :=
              not_not.mp fun h => hsubscribes ⟨call, hcall, hstage, h⟩
            rw [subscribe, Cache.getIfNewerThan_eq, if_pos hnewer]
            rfl
          · rfl
        · rfl
      · rintro id record ⟨haction, call, hcall, rfl, htime, hstage, hnewer⟩
        cases haction
        exact hsubscribes ⟨call, hcall, hstage, htime ▸ hnewer⟩
  | unsubscribe i =>
    by_cases hleaving : ∃ call outcome, m.calls[i]? = some call ∧ call.stage = .leaving outcome
    · obtain ⟨call, outcome, hcall, hstage⟩ := hleaving
      intro id record
      have hof : (m.exec newPodStatus (.unsubscribe i)).cache.subscribersOf id
          = if id = call.id then (m.cache.subscribersOf call.id).filter (·.ch ≠ i)
            else m.cache.subscribersOf id := by
        simp only [exec, hcall, hstage, cache_modifyCall]
        unfold unsubscribe
        split
        · rename_i hnone
          split
          · rename_i hid
            rw [hid, Cache.subscribersOf, hnone]
            rfl
          · rfl
        · rename_i list hlist
          rw [Cache.subscribersOf_setSubscribers]
          split
          · rw [Cache.subscribersOf, hlist]
            rfl
          · rfl
      have hiff : m.Unsubscribes (.unsubscribe i) id record ↔ id = call.id ∧ record.ch = i := by
        constructor
        · rintro ⟨haction, call', _, hcall', hid, -⟩
          cases haction
          rw [hcall] at hcall'
          cases hcall'
          exact ⟨hid.symm, rfl⟩
        · rintro ⟨rfl, rfl⟩
          exact ⟨rfl, call, outcome, hcall, rfl, hstage⟩
      have hno : ¬ m.Subscribes (.unsubscribe i) id record := fun h => by cases h.1
      rw [hof, hiff]
      by_cases hid : id = call.id
      · simp [hid, Action.updates, Subscribes]
      · simp [hid, hno, Action.updates]
    · refine lists_of_eq ?_ (fun _ => rfl) ?_ fun _ _ h => by cases h.1
      · simp only [exec]
        split
        · rename_i call hcall
          split
          · rename_i outcome hstage
            exact absurd ⟨call, outcome, hcall, hstage⟩ hleaving
          · rfl
        · rfl
      · rintro id record ⟨haction, call, outcome, hcall, -, hstage⟩
        cases haction
        exact hleaving ⟨call, outcome, hcall, hstage⟩

theorem cache_exec (hlinked : m.Linked) (action : Action σ ε) :
    (m.exec newPodStatus action).cache.pods = (m.written action).pods
      ∧ (m.exec newPodStatus action).cache.timestamp = (m.written action).timestamp := by
  have hwrite : action.IsWrite → (m.exec newPodStatus action).cache.pods = (m.written action).pods
      ∧ (m.exec newPodStatus action).cache.timestamp = (m.written action).timestamp := by
    intro hwrite
    have hwrote := wrote_exec newPodStatus hlinked hwrite
    exact ⟨hwrote.pods, hwrote.time⟩
  cases action with
  | set | setObservedTime | delete | updateTime => exact hwrite trivial
  | getNewerThan id minTime => exact ⟨rfl, rfl⟩
  | subscribe i =>
    simp only [exec, written]
    split
    · split
      · unfold subscribe
        split <;> exact ⟨rfl, rfl⟩
      · exact ⟨rfl, rfl⟩
    · exact ⟨rfl, rfl⟩
  | receive i =>
    simp only [exec, written]
    split
    · split <;> exact ⟨rfl, rfl⟩
    · exact ⟨rfl, rfl⟩
  | cancel i =>
    simp only [exec, written]
    split
    · split <;> exact ⟨rfl, rfl⟩
    · exact ⟨rfl, rfl⟩
  | unsubscribe i =>
    simp only [exec, written]
    split
    · split
      · unfold unsubscribe
        split <;> exact ⟨rfl, rfl⟩
      · exact ⟨rfl, rfl⟩
    · exact ⟨rfl, rfl⟩

theorem newer_exec (hlinked : m.Linked) (action : Action σ ε) (id : JsString) (minTime : Int) :
    Newer (m.exec newPodStatus action).cache id minTime ↔ Newer (m.written action) id minTime := by
  obtain ⟨hpods, htime⟩ := cache_exec newPodStatus hlinked action
  rw [Newer, hpods, htime, Newer]

theorem getData_exec (hlinked : m.Linked) (action : Action σ ε) (id : JsString) :
    (m.exec newPodStatus action).cache.getData newPodStatus id
      = (m.written action).getData newPodStatus id := by
  rw [Cache.getData, (cache_exec newPodStatus hlinked action).1, Cache.getData]

/-- The calls after an action: those there were, and a new one. -/
theorem calls_exec (hlinked : m.Linked) (action : Action σ ε) {j : Nat} {call' : Call σ ε}
    (h : (m.exec newPodStatus action).calls[j]? = some call') :
    (∃ call, m.calls[j]? = some call ∧ Moved newPodStatus m action j call call')
      ∨ ∃ id minTime, call' = { id, minTime } := by
  cases hcall : m.calls[j]? with
  | some call =>
    obtain ⟨call'', hcall'', hmoved⟩ := moved_exec newPodStatus hlinked action hcall
    rw [h] at hcall''
    cases hcall''
    exact .inl ⟨call, rfl, hmoved⟩
  | none =>
    have hmodify : ∀ (n : State σ ε), n.calls.length ≤ m.calls.length → n.calls[j]? = none :=
      fun n hle => List.getElem?_eq_none (hle.trans (List.getElem?_eq_none_iff.mp hcall))
    have hwrite : action.IsWrite → (m.exec newPodStatus action).calls[j]? = none :=
      fun hwrite => (wrote_exec newPodStatus hlinked hwrite).fresh j hcall
    cases action with
    | getNewerThan id minTime =>
      refine .inr ⟨id, minTime, ?_⟩
      have hnew : j = m.calls.length := by
        have hlt := (List.getElem?_eq_some_iff.mp h).1
        have hle := List.getElem?_eq_none_iff.mp hcall
        simp only [exec, List.length_append, List.length_singleton] at hlt
        omega
      subst hnew
      simp only [exec, List.getElem?_concat_length, Option.some.injEq] at h
      exact h.symm
    | set id status error timestamp => rw [hwrite trivial] at h; cases h
    | setObservedTime id timestamp => rw [hwrite trivial] at h; cases h
    | delete id => rw [hwrite trivial] at h; cases h
    | updateTime timestamp => rw [hwrite trivial] at h; cases h
    | subscribe i =>
      rw [hmodify _ (by
        simp only [exec]
        split
        · split
          · unfold subscribe modifyCall
            split <;> simp
          · exact le_rfl
        · exact le_rfl)] at h
      cases h
    | receive i =>
      rw [hmodify _ (by
        simp only [exec]
        split
        · split <;> simp [leave, modifyCall]
        · exact le_rfl)] at h
      cases h
    | cancel i =>
      rw [hmodify _ (by
        simp only [exec]
        split
        · split <;> simp [leave, modifyCall]
        · exact le_rfl)] at h
      cases h
    | unsubscribe i =>
      rw [hmodify _ (by
        simp only [exec]
        split
        · split
          · unfold unsubscribe modifyCall
            split <;> simp
          · exact le_rfl
        · exact le_rfl)] at h
      cases h

/-! ## The invariant -/

structure Inv (m : State σ ε) : Prop where
  linked : m.Linked
  /-- Nobody waits for what is known. -/
  fresh : ∀ id record, record ∈ m.cache.subscribersOf id → ¬ Newer m.cache id record.time
  subscribed : ∀ i call, m.calls[i]? = some call → call.stage = .selecting true → call.sent = none →
    ⟨call.minTime, i⟩ ∈ m.cache.subscribersOf call.id
  good : ∀ call ∈ m.calls, call.Good

theorem inv_initial : Inv ({} : State σ ε) where
  linked _ _ h := by cases h
  fresh _ _ h := by cases h
  subscribed _ _ h := by cases h
  good _ h := by cases h

end State

namespace Call

variable {call : Call σ ε}

theorem receive_of_empty (h : call.ch = {}) : call.ch.receive = none := by
  rw [h]
  rfl

theorem Good.of_open (h : call.Open) : call.Good where
  called hstage := by
    rcases h.stage with hopen | hopen <;> rw [hopen] at hstage <;> cases hstage
  selecting record hstage := by
    rcases h.stage with hopen | hopen <;> rw [hopen] at hstage <;> cases hstage
    exact .inl ⟨rfl, h.ch, h.sent⟩
  returned status error houtcome := by
    rcases h.stage with hopen | hopen <;> simp [outcome, hopen] at houtcome

theorem good_new (id : JsString) (minTime : Int) : ({ id, minTime } : Call σ ε).Good where
  called _ := ⟨rfl, rfl⟩
  selecting _ h := by cases h
  returned _ _ h := by cases h

/-- What is received is what was sent. -/
theorem Good.receive (h : call.Good) {record : Bool} {result : Option (Data σ ε)}
    (hstage : call.stage = .selecting record) (hresult : call.ch.receive = some result) :
    ∃ data, call.sent = some data ∧ result = some data := by
  rcases h.selecting record hstage with ⟨-, hch, -⟩ | ⟨hsent, hbuffer⟩
  · rw [receive_of_empty hch] at hresult
    cases hresult
  · obtain ⟨data, hdata⟩ := Option.isSome_iff_exists.mp hsent
    rw [Chan.receive, hbuffer, hdata] at hresult
    cases hresult
    exact ⟨data, hdata, rfl⟩

end Call

namespace State

variable (newPodStatus : JsString → σ) {m : State σ ε}

/-- A due call is open. -/
theorem Due.isOpen {action : Action σ ε} {i : Nat} {call : Call σ ε} (hlinked : m.Linked)
    (hcall : m.calls[i]? = some call) (h : m.Due action i call) : call.Open := by
  obtain ⟨call', hcall', -, -, hopen⟩ := hlinked _ _ h.1
  rw [hcall] at hcall'
  cases hcall'
  exact hopen

theorem Moved.good {action : Action σ ε} {i : Nat} {call call' : Call σ ε} (hlinked : m.Linked)
    (hcall : m.calls[i]? = some call) (hgood : call.Good)
    (h : Moved newPodStatus m action i call call') : call'.Good := by
  cases h with
  | kept _ _ => exact hgood
  | woken hdue =>
    have hopen := hdue.isOpen hlinked hcall
    obtain ⟨hsent, hbuffer⟩ := hopen.wake ((m.written action).getData newPodStatus call.id)
    refine ⟨fun hstage => ?_, fun record hstage => ?_, fun status error houtcome => ?_⟩
    · rcases hopen.stage with h | h <;> rw [Call.wake, Call.deliver, h] at hstage <;> cases hstage
    · exact .inr ⟨by rw [hsent]; rfl, by rw [hsent, hbuffer]⟩
    · rcases hopen.stage with h | h <;>
        simp [Call.outcome, Call.wake, Call.deliver, h] at houtcome
  | served haction hstage hnewer =>
    obtain ⟨hch, hsent⟩ := hgood.called hstage
    refine ⟨fun hstage => (by cases hstage), fun record _ => .inr ?_, fun _ _ h => (by cases h)⟩
    simp [Call.deliver, Chan.trySend, hch, hsent]
  | subscribed haction hstage hnewer =>
    obtain ⟨hch, hsent⟩ := hgood.called hstage
    exact .of_open ⟨hch, hsent, .inl rfl⟩
  | received record result haction hstage hresult =>
    obtain ⟨data, hsent, rfl⟩ := hgood.receive hstage hresult
    refine ⟨fun hstage => ?_, fun record' hstage => ?_, fun status error houtcome => ⟨data, hsent, ?_⟩⟩
    · revert hstage
      cases record <;> simp
    · revert hstage
      cases record <;> simp
    · cases record <;> cases houtcome <;> exact ⟨rfl, rfl⟩
  | canceled record haction hstage =>
    refine ⟨fun hstage => ?_, fun record' hstage => ?_, fun status error houtcome => ?_⟩
    · revert hstage
      cases record <;> simp
    · revert hstage
      cases record <;> simp
    · cases record <;> cases houtcome
  | unsubscribed outcome haction hstage =>
    refine ⟨fun h => (by cases h), fun _ h => (by cases h), fun status error houtcome => ?_⟩
    refine hgood.returned status error ?_
    rw [← houtcome, Call.outcome, hstage]
    rfl

/-- A call that is open and not due stays open while its subscription is
kept. -/
theorem Moved.stays {action : Action σ ε} {i : Nat} {call call' : Call σ ε} (hopen : call.Open)
    (hdue : ¬ m.Due action i call)
    (hkept : ¬ ∃ outcome, action = .unsubscribe i ∧ call.stage = .leaving outcome)
    (h : Moved newPodStatus m action i call call') :
    call'.id = call.id ∧ call'.minTime = call.minTime ∧ call'.Open := by
  cases h with
  | kept _ _ => exact ⟨rfl, rfl, hopen⟩
  | woken h => exact absurd h hdue
  | served _ hstage _ => rcases hopen.stage with h | h <;> rw [h] at hstage <;> cases hstage
  | subscribed _ hstage _ => rcases hopen.stage with h | h <;> rw [h] at hstage <;> cases hstage
  | received _ _ _ _ hresult =>
    rw [Call.receive_of_empty hopen.ch] at hresult
    cases hresult
  | canceled record _ hstage =>
    rcases hopen.stage with h | h <;> rw [h] at hstage <;> cases hstage
    exact ⟨rfl, rfl, hopen.ch, hopen.sent, .inr rfl⟩
  | unsubscribed outcome haction hstage => exact absurd ⟨outcome, haction, hstage⟩ hkept

theorem Inv.exec (h : m.Inv) (action : Action σ ε) : (m.exec newPodStatus action).Inv := by
  have hlists := lists_exec newPodStatus h.linked action
  refine ⟨fun id record hrecord => ?_, fun id record hrecord => ?_, fun i call' hcall' hstage hsent => ?_,
    fun call' hmem => ?_⟩
  · rcases (hlists id record).mp hrecord with ⟨hold, hnot, hkept⟩ | ⟨rfl, call, hcall, rfl, htime, hstage, hnewer⟩
    · obtain ⟨call, hcall, rfl, htime, hopen⟩ := h.linked id record hold
      obtain ⟨call', hcall', hmoved⟩ := moved_exec newPodStatus h.linked action hcall
      obtain ⟨hid, htime', hopen'⟩ := hmoved.stays newPodStatus hopen
        (fun hdue => hnot (htime ▸ hdue.2)) fun ⟨outcome, haction, hstage⟩ =>
          hkept ⟨haction, call, outcome, hcall, rfl, hstage⟩
      exact ⟨call', hcall', hid, htime'.trans htime, hopen'⟩
    · refine ⟨{ call with stage := .selecting true }, ?_, rfl, htime, ?_⟩
      · obtain ⟨call', hcall', hmoved⟩ := moved_exec newPodStatus h.linked (.subscribe record.ch) hcall
        rw [hcall']
        cases hmoved with
        | kept _ hstage' => exact absurd hstage (hstage' rfl)
        | woken hdue => exact absurd hdue (not_due_of_updates (fun _ => rfl) _ _)
        | served _ _ hnew => exact absurd (htime ▸ hnew) hnewer
        | subscribed => rfl
        | received _ _ haction => cases haction
        | canceled _ haction => cases haction
        | unsubscribed _ haction => cases haction
      · obtain ⟨hch, hsent⟩ := (h.good call (List.mem_of_getElem? hcall)).called hstage
        exact ⟨hch, hsent, .inl rfl⟩
  · rw [newer_exec newPodStatus h.linked]
    intro hnewer
    rcases (hlists id record).mp hrecord with ⟨hold, hnot, -⟩ | ⟨rfl, call, -, -, -, -, hnot⟩
    · rcases newer_of_written hnewer with hnewer | ⟨timestamp, hupdates, hlater⟩
      · exact h.fresh id record hold hnewer
      · exact hnot ⟨timestamp, hupdates, hlater.le⟩
    · exact hnot hnewer
  · rcases calls_exec newPodStatus h.linked action hcall' with ⟨call, hcall, hmoved⟩ | ⟨id, minTime, rfl⟩
    · cases hmoved with
      | kept hdue _ =>
        have hold := h.subscribed i _ hcall hstage hsent
        refine (hlists _ _).mpr (.inl ⟨hold, fun hupdates => hdue ⟨hold, hupdates⟩, ?_⟩)
        rintro ⟨-, call, outcome, hcall', -, hleaving⟩
        rw [hcall] at hcall'
        cases hcall'
        rw [hstage] at hleaving
        cases hleaving
      | woken hdue =>
        rw [((hdue.isOpen h.linked hcall).wake _).1] at hsent
        cases hsent
      | served _ _ _ => cases hstage
      | subscribed haction hcalled hnewer =>
        exact (hlists _ _).mpr (.inr ⟨haction, call, hcall, rfl, rfl, hcalled, hnewer⟩)
      | received record _ _ _ _ => cases record <;> cases hstage
      | canceled record _ _ => cases record <;> cases hstage
      | unsubscribed _ _ _ => cases hstage
    · cases hstage
  · obtain ⟨j, hj⟩ := List.mem_iff_getElem?.mp hmem
    rcases calls_exec newPodStatus h.linked action hj with ⟨call, hcall, hmoved⟩ | ⟨id, minTime, rfl⟩
    · exact hmoved.good newPodStatus h.linked hcall (h.good call (List.mem_of_getElem? hcall))
    · exact Call.good_new id minTime

theorem inv_of_reach (h : (system newPodStatus).Reach m) : m.Inv := by
  refine h.invariant (fun s hs => ?_) fun s action s' _ hinv hstep => ?_
  · rw [show s = {} from hs]
    exact inv_initial
  · rw [show s' = s.exec newPodStatus action from hstep]
    exact hinv.exec newPodStatus action

end State

/-! ## Main results -/

/-- The call waits: it is in the `select` with a subscription, and was sent
nothing. -/
structure Waiting (m : State σ ε) (i : Nat) (call : Call σ ε) : Prop where
  found : m.calls[i]? = some call
  stage : call.stage = .selecting true
  sent : call.sent = none

/-- How the calls stand. -/
structure Served (m : State σ ε) : Prop where
  /-- What is returned is what was sent. -/
  returned : ∀ (i : Nat) call status error, m.calls[i]? = some call →
    call.outcome = some (.returned status error) →
    ∃ data, call.sent = some data ∧ status = data.status ∧ error = data.error
  /-- What was sent is there to be received. -/
  ready : ∀ (i : Nat) call record data, m.calls[i]? = some call → call.stage = .selecting record →
    call.sent = some data → call.ch.receive = some (some data)
  /-- Nobody waits for what is known. -/
  prompt : ∀ i call, Waiting m i call → ¬ Newer m.cache call.id call.minTime

/-- What an action does to the calls. -/
structure Serves (newPodStatus : JsString → σ) (m : State σ ε) (action : Action σ ε)
    (n : State σ ε) : Prop where
  /-- A call stays a call for the same, and keeps what it was sent. -/
  once : ∀ (i : Nat) call, m.calls[i]? = some call → ∃ call', n.calls[i]? = some call'
    ∧ call'.id = call.id ∧ call'.minTime = call.minTime ∧ (call.sent.isSome = true → call'.sent = call.sent)
  /-- What is sent is current. It is newer than the minimum time, or the
  update is of that very time, or sets the observed time of a pod without an
  entry. -/
  current : ∀ (i : Nat) call call' data, m.calls[i]? = some call → call.sent = none →
    n.calls[i]? = some call' → call'.sent = some data →
    data = n.cache.getData newPodStatus call.id ∧ (Newer n.cache call.id call.minTime
      ∨ action.updates call.id = some call.minTime
      ∨ ∃ timestamp, action = .setObservedTime call.id timestamp ∧ call.minTime < timestamp
        ∧ m.cache.pods.get call.id = none)
  /-- An update that is not before the minimum time ends the wait. -/
  wakes : ∀ i call, Waiting m i call → (∃ timestamp ∈ action.updates call.id,
    call.minTime ≤ timestamp) → ∃ call' data, n.calls[i]? = some call'
      ∧ call'.stage = .selecting true ∧ call'.sent = some data
  /-- Any other update does nothing to the call. -/
  unaffected : ∀ i call, Waiting m i call → action ≠ .cancel i → (∀ timestamp ∈ action.updates call.id,
    timestamp < call.minTime) → n.calls[i]? = some call

variable (newPodStatus : JsString → σ) {m : State σ ε}

open PodStatusCache.State in
theorem serves_exec (h : m.Inv) (action : Action σ ε) :
    Serves newPodStatus m action (m.exec newPodStatus action) := by
  have hopen : ∀ {i call}, Waiting m i call → call.Open := by
    intro i call hwaiting
    refine ⟨?_, hwaiting.sent, .inl hwaiting.stage⟩
    rcases (h.good call (List.mem_of_getElem? hwaiting.found)).selecting true hwaiting.stage with
      ⟨-, hch, -⟩ | ⟨hsome, -⟩
    · exact hch
    · rw [hwaiting.sent] at hsome
      cases hsome
  refine ⟨fun i call hcall => ?_, fun i call call' data hcall hsent hcall' hdata => ?_,
    fun i call hwaiting hupdate => ?_, fun i call hwaiting haction hupdates => ?_⟩
  · obtain ⟨call', hcall', hmoved⟩ := moved_exec newPodStatus h.linked action hcall
    refine ⟨call', hcall', ?_⟩
    cases hmoved with
    | woken hdue =>
      refine ⟨rfl, rfl, fun hsome => ?_⟩
      rw [(hdue.isOpen h.linked hcall).sent] at hsome
      cases hsome
    | served _ hstage _ =>
      refine ⟨rfl, rfl, fun hsome => ?_⟩
      rw [((h.good call (List.mem_of_getElem? hcall)).called hstage).2] at hsome
      cases hsome
    | _ => exact ⟨rfl, rfl, fun _ => rfl⟩
  · obtain ⟨call'', hcall'', hmoved⟩ := moved_exec newPodStatus h.linked action hcall
    rw [hcall'] at hcall''
    cases hcall''
    cases hmoved with
    | woken hdue =>
      have hsent' := ((hdue.isOpen h.linked hcall).wake ((m.written action).getData newPodStatus call.id)).1
      rw [hdata] at hsent'
      cases hsent'
      obtain ⟨-, timestamp, hupdates, hle⟩ := hdue
      refine ⟨(getData_exec newPodStatus h.linked action call.id).symm, ?_⟩
      rcases hle.eq_or_lt with heq | hlt
      · exact .inr (.inl (heq ▸ hupdates))
      · rcases newer_written (m := m) hupdates hlt with hnewer | ⟨haction, hnone⟩
        · exact .inl ((newer_exec newPodStatus h.linked action _ _).mpr hnewer)
        · exact .inr (.inr ⟨timestamp, haction, hlt, hnone⟩)
    | served haction _ hnewer =>
      subst haction
      have hsent' : data = m.cache.getData newPodStatus call.id := by
        simpa [Call.deliver, hsent, eq_comm] using hdata
      refine ⟨?_, .inl ((newer_exec newPodStatus h.linked _ _ _).mpr hnewer)⟩
      rw [getData_exec newPodStatus h.linked]
      exact hsent'
    | _ =>
      rw [hsent] at hdata
      cases hdata
  · obtain ⟨call', hcall', hmoved⟩ := moved_exec newPodStatus h.linked action hwaiting.found
    have hdue : m.Due action i call :=
      ⟨h.subscribed i call hwaiting.found hwaiting.stage hwaiting.sent, hupdate⟩
    obtain ⟨timestamp, hupdates, -⟩ := hupdate
    cases hmoved with
    | kept hnot _ => exact absurd hdue hnot
    | woken _ =>
      exact ⟨_, _, hcall', hwaiting.stage, ((hopen hwaiting).wake _).1⟩
    | served haction _ _ => rw [haction] at hupdates; cases hupdates
    | subscribed haction _ _ => rw [haction] at hupdates; cases hupdates
    | received _ _ haction _ _ => rw [haction] at hupdates; cases hupdates
    | canceled _ haction _ => rw [haction] at hupdates; cases hupdates
    | unsubscribed _ haction _ => rw [haction] at hupdates; cases hupdates
  · obtain ⟨call', hcall', hmoved⟩ := moved_exec newPodStatus h.linked action hwaiting.found
    have hstage := hwaiting.stage
    cases hmoved with
    | kept _ _ => exact hcall'
    | woken hdue =>
      obtain ⟨-, timestamp, hupdate, hle⟩ := hdue
      exact absurd (hupdates timestamp hupdate) (not_lt.mpr hle)
    | served _ hcalled _ => rw [hcalled] at hstage; cases hstage
    | subscribed _ hcalled _ => rw [hcalled] at hstage; cases hstage
    | received _ _ _ _ hresult =>
      rw [Call.receive_of_empty (hopen hwaiting).ch] at hresult
      cases hresult
    | canceled _ hcancel _ => exact absurd hcancel haction
    | unsubscribed _ _ hleaving => rw [hleaving] at hstage; cases hstage

/-- **No waiter is lost.** In every run of the cache, a call of
`getNewerThan` is sent the data of its pod once, when the cache knows a newer
state or is updated with a time that is not before its minimum time, by the
first such action; nobody waits for what is known. -/
theorem served_of_reach (h : (system newPodStatus).Reach m) :
    Served m ∧ ∀ action, Serves newPodStatus m action (m.exec newPodStatus action) := by
  have hinv := State.inv_of_reach newPodStatus h
  refine ⟨⟨fun i call status error hcall => ?_, fun i call record data hcall hstage hsent => ?_,
    fun i call hwaiting => ?_⟩, serves_exec newPodStatus hinv⟩
  · exact (hinv.good call (List.mem_of_getElem? hcall)).returned status error
  · rcases (hinv.good call (List.mem_of_getElem? hcall)).selecting record hstage with
      ⟨-, -, hnone⟩ | ⟨-, hbuffer⟩
    · rw [hsent] at hnone
      cases hnone
    · rw [Chan.receive, hbuffer, hsent]
      rfl
  · exact hinv.fresh call.id ⟨call.minTime, i⟩
      (hinv.subscribed i call hwaiting.found hwaiting.stage hwaiting.sent)

/-! ### Two runs -/

/-- The state after the actions, with the id of a pod as its status. -/
def stateAfter (actions : List (Action JsString JsString)) : State JsString JsString :=
  actions.foldl (State.exec id) {}

theorem reach_stateAfter (actions : List (Action JsString JsString)) :
    (system id).Reach (stateAfter actions) := by
  induction actions using List.reverseRecOn with
  | nil => exact .start rfl
  | append_singleton actions action ih =>
    rw [stateAfter, List.foldl_concat]
    exact ih.step rfl

/-- A wait for what is newer than 1000 that ends with a status of 1000. -/
def sameTimeActions : List (Action JsString JsString) :=
  [.getNewerThan (js "p") 1000, .subscribe 0, .set (js "p") (some (js "s")) none 1000, .receive 0,
    .unsubscribe 0]

theorem served_of_getNewerThan : Served (stateAfter sameTimeActions)
    ∧ ∀ action, Serves id (stateAfter sameTimeActions) action
      ((stateAfter sameTimeActions).exec id action) :=
  served_of_reach id (reach_stateAfter _)

/-- The same wait, ended by an observed time of a pod of which nothing is
known. -/
def unknownPodActions : List (Action JsString JsString) :=
  [.getNewerThan (js "p") 1000, .subscribe 0, .setObservedTime (js "p") 2000, .receive 0,
    .unsubscribe 0]

theorem not_newer_of_take {actions : List (Action JsString JsString)}
    (h : ∀ n < actions.length + 1, ¬ Newer (stateAfter (actions.take n)).cache (js "p") 1000) (n : Nat) :
    ¬ Newer (stateAfter (actions.take n)).cache (js "p") 1000 := by
  by_cases hn : n < actions.length + 1
  · exact h n hn
  · rw [List.take_of_length_le (by omega), ← List.take_length (l := actions)]
    exact h _ (Nat.lt_succ_self _)

theorem returned_of_nothingNewer :
    ((∀ n, (system id).Reach (stateAfter (sameTimeActions.take n)))
      ∧ (stateAfter sameTimeActions).calls.map (·.stage) = [.done (.returned (some (js "s")) none)]
      ∧ ∀ n, ¬ Newer (stateAfter (sameTimeActions.take n)).cache (js "p") 1000)
    ∧ (∀ n, (system id).Reach (stateAfter (unknownPodActions.take n)))
      ∧ (stateAfter unknownPodActions).calls.map (·.stage) = [.done (.returned (some (js "p")) none)]
      ∧ ∀ n, ¬ Newer (stateAfter (unknownPodActions.take n)).cache (js "p") 1000 :=
  ⟨⟨fun _ => reach_stateAfter _, by decide +kernel, not_newer_of_take (by decide +kernel)⟩,
    fun _ => reach_stateAfter _, by decide +kernel, not_newer_of_take (by decide +kernel)⟩

end Webernetes.Kubelet.PodStatusCache
