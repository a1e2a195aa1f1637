/-
Webernetes.Etcd.LeaseTable — what every operation on the leases keeps.

`Consistent` is the invariant for one lock key, taken together with all
keys the collation takes for it: what is found under the key is the key
of a lease in the table, and there is one such lease at most. It rests on
the comparison of `acquireLock` looking at the key that is then put
(`Locale.Comparable`). `Armed` ties the table to the pending tasks of the
clock, so that a lease is in the table exactly until it is released or
its timeout runs (`Outstanding`). `Follows` is what an operation does to
the table: which lease it ends, and that every other one stays.
-/
import Webernetes.Etcd.Lease

namespace Webernetes.Etcd

open Js Base
open FakeState (recordRevision)

variable {locale : Locale}

namespace LeaseStore

/-! ## The lock key and its lease -/

/-- The invariant of a lock key, for all keys the collation takes for it:
what is found under it is the key of a lease, and there is one lease at
most. -/
structure Consistent (l : LeaseStore locale) (key : JsString) : Prop where
  kept : l.store.WellKept
  issued : ∀ id lease, l.leases.lookup id = some lease → id < l.nextLeaseId
  named : ∀ id lease, l.leases.lookup id = some lease → lease.key ≠ []
  held : ∀ id lease, l.leases.lookup id = some lease → locale.Same lease.key key →
    ∃ value, l.store.current key = some value ∧ value.key = lease.key
  owned : ∀ value, l.store.current key = some value →
    ∃ id lease, l.leases.lookup id = some lease ∧ lease.key = value.key
  unique : ∀ id id' lease lease', l.leases.lookup id = some lease →
    l.leases.lookup id' = some lease' → locale.Same lease.key key → locale.Same lease'.key key →
    id = id'

theorem consistent_initial (locale : Locale) (retainedRevisions : Nat) (key : JsString) :
    (initial locale retainedRevisions).Consistent key where
  kept := FakeState.wellKept_initial locale retainedRevisions
  issued := fun id lease h => by cases h
  named := fun id lease h => by cases h
  held := fun id lease h => by cases h
  owned := fun value h => by cases h
  unique := fun id id' lease lease' h => by cases h

namespace Consistent

variable {l : LeaseStore locale} {key : JsString}

/-- A step that leaves the lease table and what is found under the key. -/
theorem of_current (h : l.Consistent key) {l' : LeaseStore locale} (hkept : l'.store.WellKept)
    (hcurrent : l'.store.current key = l.store.current key) (hleases : l'.leases = l.leases)
    (hnext : l.nextLeaseId ≤ l'.nextLeaseId) : l'.Consistent key where
  kept := hkept
  issued := fun id lease hl => Nat.lt_of_lt_of_le (h.issued id lease (hleases ▸ hl)) hnext
  named := fun id lease hl => h.named id lease (hleases ▸ hl)
  held := fun id lease hl => by rw [hcurrent]; exact h.held id lease (hleases ▸ hl)
  owned := fun value hv => by rw [hleases]; exact h.owned value (hcurrent ▸ hv)
  unique := fun id id' lease lease' hl hl' =>
    h.unique id id' lease lease' (hleases ▸ hl) (hleases ▸ hl')

/-- A new lease, its key being absent before. -/
theorem addLease (h : l.Consistent key) {absoluteKey : JsString} (hname : absoluteKey ≠ [])
    (hfree : locale.Same absoluteKey key → l.store.current key = none) :
    (LeaseStore.addLease { l with
        store := l.store.bumpRevision.appendRecord (createdRecord l.store absoluteKey)
        nextLeaseId := l.nextLeaseId + 1 } l.nextLeaseId absoluteKey).Consistent key := by
  have hcounted := h.kept.counted_put (acquirePut absoluteKey) absoluteKey
    (Nat.succ_pos l.store.revision)
  have hcounted' : FakeState.Counted (createdRecord l.store absoluteKey) := hcounted
  have hkept := h.kept.bumpRevision.appendRecord hcounted' (Nat.succ_pos _) (Nat.le_refl _)
  have hcurrent : (l.store.bumpRevision.appendRecord
        (createdRecord l.store absoluteKey)).current key
      = if locale.Same absoluteKey key then
          some (recordRevision (createdRecord l.store absoluteKey)).stored
        else l.store.current key := by
    rw [FakeState.current_appendRecord]
    rfl
  have hstored : (recordRevision (createdRecord l.store absoluteKey)).stored.key = absoluteKey := rfl
  generalize (recordRevision (createdRecord l.store absoluteKey)).stored = stored
    at hcurrent hstored
  generalize l.store.bumpRevision.appendRecord (createdRecord l.store absoluteKey) = store
    at hkept hcurrent
  have hfresh : l.leases.lookup l.nextLeaseId = none := by
    cases hl : l.leases.lookup l.nextLeaseId with
    | none => rfl
    | some lease => exact absurd (h.issued _ _ hl) (Nat.lt_irrefl _)
  -- No lease of the class is in the table when the new one enters it.
  have hnone : locale.Same absoluteKey key → ∀ id lease, l.leases.lookup id = some lease →
      ¬ locale.Same lease.key key := by
    intro hsame id lease hl hkey
    obtain ⟨value, hvalue, -⟩ := h.held id lease hl hkey
    rw [hfree hsame] at hvalue
    cases hvalue
  constructor
  · exact hkept
  · intro id lease hl
    simp only [LeaseStore.addLease, lookup_insert] at hl ⊢
    split at hl
    · omega
    · exact Nat.lt_succ_of_lt (h.issued id lease hl)
  · intro id lease hl
    simp only [LeaseStore.addLease, lookup_insert] at hl
    split at hl
    · cases hl
      exact hname
    · exact h.named id lease hl
  · intro id lease hl hsame
    simp only [LeaseStore.addLease, lookup_insert, hcurrent] at hl ⊢
    split at hl
    · cases hl
      exact ⟨stored, if_pos hsame, hstored⟩
    · have hother : ¬ locale.Same absoluteKey key := fun hs => hnone hs id lease hl hsame
      rw [if_neg hother]
      exact h.held id lease hl hsame
  · intro value hvalue
    simp only [LeaseStore.addLease, lookup_insert, hcurrent] at hvalue ⊢
    split at hvalue
    · cases hvalue
      exact ⟨l.nextLeaseId, _, if_pos rfl, hstored.symm⟩
    · obtain ⟨id, lease, hl, hkey⟩ := h.owned value hvalue
      refine ⟨id, lease, ?_, hkey⟩
      rw [if_neg]
      · exact hl
      · rintro rfl
        rw [hfresh] at hl
        cases hl
  · intro id id' lease lease' hl hl' hsame hsame'
    simp only [LeaseStore.addLease, lookup_insert] at hl hl'
    split at hl <;> split at hl'
    · omega
    · cases hl
      exact absurd hsame' (hnone hsame id' lease' hl')
    · cases hl'
      exact absurd hsame (hnone hsame' id lease hl)
    · exact h.unique id id' lease lease' hl hl' hsame hsame'

theorem acquireLock (h : l.Consistent key) {ns name : JsString} (ttlSeconds : ℚ)
    (hname : locale.Same (namespacedKey ns name) key →
      locale.Comparable (namespacedKey ns name)) :
    (l.acquireLock ns name ttlSeconds).2.Consistent key := by
  rcases l.acquireLock_cases ns name ttlSeconds with
    ⟨e, store, nextLeaseId, hacquire, hnext, hstore, -⟩ | ⟨hcompare, hkey, hacquire⟩
  · rw [hacquire]
    rcases hstore with rfl | rfl
    · exact h.of_current h.kept rfl rfl hnext
    · exact h.of_current h.kept.bumpRevision rfl rfl hnext
  · rw [hacquire]
    refine h.addLease hkey fun hsame => ?_
    rw [← l.store.current_congr hsame]
    exact (h.kept.create_eq_zero (hname hsame)).mp hcompare

theorem revokeLease (h : l.Consistent key) (id : Nat) : (l.revokeLease id).Consistent key := by
  cases hlease : l.leases.lookup id with
  | none => rwa [revokeLease_of_not_lookup hlease]
  | some lease =>
    rw [revokeLease_of_lookup hlease]
    have hname := h.named id lease hlease
    obtain ⟨hdelete, hcurrent⟩ := delete_key h.kept hname
    -- Deleted or not, the class of the lease's key is empty and other classes as before.
    have hstore : ∀ store, (store = if (l.store.current lease.key).isSome then
          (l.store.delete [] { key := lease.key, rangeEnd := [], prevKv := false }).state
          else l.store) → store.WellKept ∧ store.current key
            = if locale.Same lease.key key then none else l.store.current key := by
      rintro store rfl
      split
      · refine ⟨hdelete, ?_⟩
        rw [hcurrent]
        by_cases hsame : locale.Same lease.key key
        · obtain ⟨value, hvalue, hkey⟩ := h.held id lease hlease hsame
          have hlive : l.store.live lease.key = some value :=
            FakeState.WellKept.live_eq_some_iff.mpr
              ⟨by rw [l.store.current_congr hsame, hvalue], hkey⟩
          rw [if_pos ⟨by simp [hlive], hsame⟩, if_pos hsame]
        · rw [if_neg fun hc => hsame hc.2, if_neg hsame]
      · rename_i hnone
        refine ⟨h.kept, ?_⟩
        split
        · rename_i hsame
          rw [← l.store.current_congr hsame]
          simpa using hnone
        · rfl
    generalize hs : (if (l.store.current lease.key).isSome then
      (l.store.delete [] { key := lease.key, rangeEnd := [], prevKv := false }).state
      else l.store) = store
    obtain ⟨hkept, hcur⟩ := hstore store hs.symm
    have holds : ∀ other lease', (l.leases.erase id).lookup other = some lease' →
        other ≠ id ∧ l.leases.lookup other = some lease' := by
      intro other lease' hl
      rw [lookup_erase] at hl
      split at hl
      · cases hl
      · rename_i hne
        exact ⟨hne, hl⟩
    constructor
    · exact hkept
    · exact fun other lease' hl => h.issued other lease' (holds other lease' hl).2
    · exact fun other lease' hl => h.named other lease' (holds other lease' hl).2
    · intro other lease' hl hsame
      obtain ⟨hne, hl⟩ := holds other lease' hl
      have hother : ¬ locale.Same lease.key key := fun hs =>
        hne (h.unique other id lease' lease hl hlease hsame hs)
      simp only [hcur, if_neg hother]
      exact h.held other lease' hl hsame
    · intro value hvalue
      simp only [hcur] at hvalue
      split at hvalue
      · cases hvalue
      · rename_i hother
        obtain ⟨other, lease', hl, hkey⟩ := h.owned value hvalue
        refine ⟨other, lease', ?_, hkey⟩
        rw [lookup_erase, if_neg]
        · exact hl
        · rintro rfl
          rw [hlease] at hl
          cases hl
          exact hother (hkey ▸ (h.kept.found hvalue).same)
    · intro other other' lease₁ lease₂ h₁ h₂
      exact h.unique other other' lease₁ lease₂ (holds _ _ h₁).2 (holds _ _ h₂).2

theorem releaseLeasePassively (h : l.Consistent key) (id : Nat) :
    (l.releaseLeasePassively id).Consistent key := by
  unfold LeaseStore.releaseLeasePassively
  split
  · exact h
  · exact h.of_current h.kept rfl rfl (Nat.le_refl _)

theorem refreshLease (h : l.Consistent key) (id : Nat) : (l.refreshLease id).Consistent key := by
  cases hlease : l.leases.lookup id with
  | none => simpa only [LeaseStore.refreshLease, hlease] using h
  | some lease =>
    rw [refreshLease_of_lookup hlease]
    -- The record that is put back has the same key.
    have hback : ∀ other lease', (l.leases.insert id
        { lease with expireHandle := l.clock.nextHandle }).lookup other = some lease' →
        ∃ before, l.leases.lookup other = some before ∧ before.key = lease'.key := by
      intro other lease' hl
      rw [lookup_insert] at hl
      split at hl
      · rename_i hid
        cases hl
        exact ⟨lease, hid ▸ hlease, rfl⟩
      · exact ⟨lease', hl, rfl⟩
    constructor
    · exact h.kept
    · intro other lease' hl
      obtain ⟨before, hbefore, -⟩ := hback other lease' hl
      exact h.issued other before hbefore
    · intro other lease' hl
      obtain ⟨before, hbefore, hkey⟩ := hback other lease' hl
      exact hkey ▸ h.named other before hbefore
    · intro other lease' hl hsame
      obtain ⟨before, hbefore, hkey⟩ := hback other lease' hl
      rw [← hkey] at hsame ⊢
      exact h.held other before hbefore hsame
    · intro value hvalue
      obtain ⟨other, lease', hl, hkey⟩ := h.owned value hvalue
      by_cases hid : other = id
      · subst hid
        rw [hlease] at hl
        cases hl
        exact ⟨other, { lease with expireHandle := l.clock.nextHandle },
          by rw [lookup_insert, if_pos rfl], hkey⟩
      · exact ⟨other, lease', by rw [lookup_insert, if_neg hid]; exact hl, hkey⟩
    · intro other other' lease₁ lease₂ h₁ h₂ hsame₁ hsame₂
      obtain ⟨before₁, hbefore₁, hkey₁⟩ := hback _ _ h₁
      obtain ⟨before₂, hbefore₂, hkey₂⟩ := hback _ _ h₂
      exact h.unique _ _ _ _ hbefore₁ hbefore₂ (hkey₁ ▸ hsame₁) (hkey₂ ▸ hsame₂)

theorem fire (h : l.Consistent key) (handle : Nat) : (l.fire handle).Consistent key := by
  unfold LeaseStore.fire
  split
  · exact h
  · rename_i task _
    have hrun : (l.runCallback task.callback).Consistent key := by
      cases task.callback with
      | revokeLease id => exact h.revokeLease id
      | refreshLease id => exact h.refreshLease id
    dsimp only
    split
    · exact hrun
    · exact hrun.of_current hrun.kept rfl rfl (Nat.le_refl _)

/-- A request that appends nothing under the lock key, whatever key the
collation takes for it. -/
theorem request (h : l.Consistent key) {request : StoreRequest}
    (hother : ∀ write, request = .write write →
      ∀ record ∈ (l.store.execWrite write).records, ¬ locale.Same record.key key) :
    (l.request request).Consistent key := by
  cases request with
  | write write =>
    exact h.of_current (h.kept.execWrite write)
      (l.store.current_execWrite_of_other (hother write rfl)) rfl (Nat.le_refl _)
  | compact revision =>
    exact h.of_current (h.kept.compact revision) (l.store.current_compact revision key) rfl
      (Nat.le_refl _)

end Consistent

/-! ## Leases and their timers -/

/-- The pending tasks are those of the leases in the table: the timeout of
each, and its interval until it is released passively. -/
structure Armed (l : LeaseStore locale) : Prop where
  expire : ∀ id lease, l.leases.lookup id = some lease →
    l.clock.tasks.lookup lease.expireHandle = some { callback := .revokeLease id, interval := false }
  keepAlive : ∀ id lease, l.leases.lookup id = some lease →
    lease.keepAliveHandle < l.clock.nextHandle ∧
      ∀ task, l.clock.tasks.lookup lease.keepAliveHandle = some task →
        task = { callback := .refreshLease id, interval := true }
  pending : ∀ handle task, l.clock.tasks.lookup handle = some task →
    handle < l.clock.nextHandle ∧
      ∃ lease, l.leases.lookup task.callback.lease = some lease
        ∧ lease.handle task.callback = handle

theorem armed_initial (locale : Locale) (retainedRevisions : Nat) :
    (initial locale retainedRevisions).Armed where
  expire := fun id lease h => by cases h
  keepAlive := fun id lease h => by cases h
  pending := fun handle task h => by cases h

namespace Armed

variable {l : LeaseStore locale}

theorem of_leases (h : l.Armed) {l' : LeaseStore locale} (hleases : l'.leases = l.leases)
    (hclock : l'.clock = l.clock) : l'.Armed := by
  constructor
  · rw [hleases, hclock]; exact h.expire
  · rw [hleases, hclock]; exact h.keepAlive
  · rw [hleases, hclock]; exact h.pending

theorem expire_lt (h : l.Armed) {id : Nat} {lease : LeaseRecord}
    (hlease : l.leases.lookup id = some lease) : lease.expireHandle < l.clock.nextHandle :=
  (h.pending _ _ (h.expire id lease hlease)).1

/-- A lease's timeout is under no other handle the table knows. -/
theorem expire_ne (h : l.Armed) {id other : Nat} {lease lease' : LeaseRecord}
    (hlease : l.leases.lookup id = some lease) (hlease' : l.leases.lookup other = some lease') :
    lease.expireHandle ≠ lease'.keepAliveHandle ∧
      (id ≠ other → lease.expireHandle ≠ lease'.expireHandle) := by
  have htask := h.expire id lease hlease
  constructor
  · intro heq
    cases (h.keepAlive other lease' hlease').2 _ (heq ▸ htask)
  · intro hne heq
    rw [heq, h.expire other lease' hlease', Option.some.injEq, Task.mk.injEq] at htask
    exact hne (TimerCallback.revokeLease.inj htask.1).symm

theorem addLease (h : l.Armed) {store : FakeState locale} {nextLeaseId id : Nat} {key : JsString}
    (hfresh : l.leases.lookup id = none) :
    (LeaseStore.addLease { l with store, nextLeaseId } id key).Armed := by
  have htasks : ∀ handle, (LeaseStore.addLease { l with store, nextLeaseId } id
      key).clock.tasks.lookup handle
      = if handle = l.clock.nextHandle + 1 then
          some { callback := .refreshLease id, interval := true }
        else if handle = l.clock.nextHandle then
          some { callback := .revokeLease id, interval := false }
        else l.clock.tasks.lookup handle := by
    intro handle
    simp only [LeaseStore.addLease, Clock.setInterval, Clock.setTimeout, Clock.lookup_setTask,
      Clock.setTask_nextHandle]
  have hleases : ∀ other, (LeaseStore.addLease { l with store, nextLeaseId } id
      key).leases.lookup other = if other = id then some (l.newRecord id key)
        else l.leases.lookup other := fun other => lookup_insert _ _ _ _
  have hhandle : (LeaseStore.addLease { l with store, nextLeaseId } id key).clock.nextHandle
      = l.clock.nextHandle + 2 := rfl
  constructor
  · intro other lease hl
    rw [hleases] at hl
    rw [htasks]
    split at hl
    · rename_i hid
      cases hl
      simp [newRecord, hid]
    · have hlt := h.expire_lt hl
      rw [if_neg (by omega), if_neg (by omega)]
      exact h.expire other lease hl
  · intro other lease hl
    rw [hleases] at hl
    rw [hhandle]
    split at hl
    · rename_i hid
      cases hl
      refine ⟨by simp [newRecord], fun task htask => ?_⟩
      rw [htasks] at htask
      simpa [newRecord, hid, eq_comm] using htask
    · obtain ⟨hlt, honly⟩ := h.keepAlive other lease hl
      refine ⟨by omega, fun task htask => ?_⟩
      rw [htasks, if_neg (by omega), if_neg (by omega)] at htask
      exact honly task htask
  · intro handle task htask
    rw [htasks] at htask
    rw [hhandle]
    split at htask
    · rename_i heq
      cases htask
      exact ⟨by omega, _, (hleases id).trans (if_pos rfl), heq.symm⟩
    · split at htask
      · rename_i heq
        cases htask
        exact ⟨by omega, _, (hleases id).trans (if_pos rfl), heq.symm⟩
      · obtain ⟨hlt, lease, hl, hkey⟩ := h.pending handle task htask
        refine ⟨by omega, lease, ?_, hkey⟩
        rw [hleases, if_neg]
        · exact hl
        · intro hid
          rw [hid, hfresh] at hl
          cases hl

theorem acquireLock (h : l.Armed) (hissued : ∀ id lease, l.leases.lookup id = some lease →
    id < l.nextLeaseId) (ns key : JsString) (ttlSeconds : ℚ) :
    (l.acquireLock ns key ttlSeconds).2.Armed := by
  rcases l.acquireLock_cases ns key ttlSeconds with
    ⟨e, store, nextLeaseId, hacquire, -⟩ | ⟨-, -, hacquire⟩
  · rw [hacquire]
    exact h.of_leases rfl rfl
  · rw [hacquire]
    refine h.addLease ?_
    cases hl : l.leases.lookup l.nextLeaseId with
    | none => rfl
    | some lease => exact absurd (hissued _ _ hl) (Nat.lt_irrefl _)

theorem revokeLease (h : l.Armed) (id : Nat) : (l.revokeLease id).Armed := by
  cases hlease : l.leases.lookup id with
  | none => rwa [revokeLease_of_not_lookup hlease]
  | some lease =>
    rw [revokeLease_of_lookup hlease]
    constructor
    · intro other lease' hl
      simp only [lookup_erase] at hl
      split at hl
      · cases hl
      · rename_i hne
        have hkeep := (h.expire_ne hl hlease).1
        have hexpire := (h.expire_ne hl hlease).2 hne
        simp only [Clock.lookup_clearTimeout, if_neg hkeep, if_neg hexpire]
        exact h.expire other lease' hl
    · intro other lease' hl
      simp only [lookup_erase] at hl
      split at hl
      · cases hl
      · refine ⟨(h.keepAlive other lease' hl).1, fun task htask => ?_⟩
        simp only [Clock.lookup_clearTimeout] at htask
        split at htask
        · cases htask
        · split at htask
          · cases htask
          · exact (h.keepAlive other lease' hl).2 task htask
    · intro handle task htask
      simp only [Clock.lookup_clearTimeout] at htask
      split at htask
      · cases htask
      · rename_i hkeep
        split at htask
        · cases htask
        · rename_i hexpire
          obtain ⟨hlt, lease', hl, hhandle⟩ := h.pending handle task htask
          refine ⟨hlt, lease', ?_, hhandle⟩
          rw [lookup_erase, if_neg]
          · exact hl
          · intro hid
            rw [hid, hlease] at hl
            cases hl
            unfold LeaseRecord.handle at hhandle
            split at hhandle
            · exact hexpire hhandle.symm
            · exact hkeep hhandle.symm

theorem releaseLeasePassively (h : l.Armed) (id : Nat) : (l.releaseLeasePassively id).Armed := by
  unfold LeaseStore.releaseLeasePassively
  split
  · exact h
  · rename_i lease hlease
    constructor
    · intro other lease' hl
      simp only [Clock.lookup_clearTimeout, if_neg (h.expire_ne hl hlease).1]
      exact h.expire other lease' hl
    · intro other lease' hl
      refine ⟨(h.keepAlive other lease' hl).1, fun task htask => ?_⟩
      simp only [Clock.lookup_clearTimeout] at htask
      split at htask
      · cases htask
      · exact (h.keepAlive other lease' hl).2 task htask
    · intro handle task htask
      simp only [Clock.lookup_clearTimeout] at htask
      split at htask
      · cases htask
      · exact h.pending handle task htask

theorem refreshLease (h : l.Armed) (id : Nat) : (l.refreshLease id).Armed := by
  cases hlease : l.leases.lookup id with
  | none => simpa only [LeaseStore.refreshLease, hlease] using h
  | some lease =>
    rw [refreshLease_of_lookup hlease]
    have hlt := h.expire_lt hlease
    have htasks : ∀ handle, (((l.clock.clearTimeout lease.expireHandle).setTimeout
        (.revokeLease id)).tasks.lookup handle)
        = if handle = l.clock.nextHandle then
            some { callback := .revokeLease id, interval := false }
          else if handle = lease.expireHandle then none else l.clock.tasks.lookup handle := by
      intro handle
      simp only [Clock.setTimeout, Clock.lookup_setTask, Clock.lookup_clearTimeout,
        Clock.clearTimeout_nextHandle]
    constructor
    · intro other lease' hl
      simp only [lookup_insert, htasks] at hl ⊢
      split at hl
      · rename_i hid
        cases hl
        rw [if_pos rfl, hid]
      · rename_i hne
        have hlt' := h.expire_lt hl
        rw [if_neg (by omega), if_neg ((h.expire_ne hl hlease).2 hne)]
        exact h.expire other lease' hl
    · intro other lease' hl
      simp only [lookup_insert, htasks] at hl ⊢
      have hold : ∃ before, l.leases.lookup other = some before
          ∧ before.keepAliveHandle = lease'.keepAliveHandle := by
        split at hl
        · rename_i hid
          cases hl
          exact ⟨lease, hid ▸ hlease, rfl⟩
        · exact ⟨lease', hl, rfl⟩
      obtain ⟨before, hbefore, hsame⟩ := hold
      obtain ⟨hlt', honly⟩ := h.keepAlive other before hbefore
      rw [← hsame]
      refine ⟨Nat.lt_succ_of_lt hlt', fun task htask => ?_⟩
      rw [if_neg (by omega)] at htask
      split at htask
      · cases htask
      · exact honly task htask
    · intro handle task htask
      simp only [htasks] at htask
      split at htask
      · rename_i heq
        cases htask
        exact ⟨by rw [heq]; exact Nat.lt_succ_self _,
          { lease with expireHandle := l.clock.nextHandle },
          (lookup_insert _ _ _ _).trans (if_pos rfl), heq.symm⟩
      · split at htask
        · cases htask
        · rename_i hne
          obtain ⟨hlt', lease', hl, hhandle⟩ := h.pending handle task htask
          refine ⟨Nat.lt_succ_of_lt hlt', ?_⟩
          by_cases hid : task.callback.lease = id
          · rw [hid, hlease] at hl
            cases hl
            refine ⟨{ lease with expireHandle := l.clock.nextHandle },
              (lookup_insert _ _ _ _).trans (if_pos hid), ?_⟩
            unfold LeaseRecord.handle at hhandle ⊢
            split at hhandle
            · exact absurd hhandle.symm hne
            · exact hhandle
          · exact ⟨lease', by rw [lookup_insert, if_neg hid]; exact hl, hhandle⟩

/-- A pending task runs: the expiry or the keep-alive of a lease in the
table. -/
theorem fire_cases (h : l.Armed) (handle : Nat) :
    (l.clock.tasks.lookup handle = none ∧ l.fire handle = l) ∨
    (∃ id lease, l.leases.lookup id = some lease ∧ lease.expireHandle = handle
      ∧ l.clock.tasks.lookup handle = some { callback := .revokeLease id, interval := false }
      ∧ l.fire handle =
          { l.revokeLease id with clock := (l.revokeLease id).clock.clearTimeout handle }) ∨
    (∃ id lease, l.leases.lookup id = some lease ∧ lease.keepAliveHandle = handle
      ∧ l.clock.tasks.lookup handle = some { callback := .refreshLease id, interval := true }
      ∧ l.fire handle = l.refreshLease id) := by
  cases htask : l.clock.tasks.lookup handle with
  | none => exact .inl ⟨rfl, by simp only [LeaseStore.fire, htask]⟩
  | some task =>
    right
    obtain ⟨callback, interval⟩ := task
    obtain ⟨-, lease, hl, hhandle⟩ := h.pending handle _ htask
    cases callback with
    | revokeLease id =>
      have hexpire : lease.expireHandle = handle := hhandle
      have honly := h.expire id lease hl
      rw [hexpire, htask, Option.some.injEq, Task.mk.injEq] at honly
      obtain ⟨-, rfl⟩ := honly
      exact .inl ⟨id, lease, hl, hexpire, rfl, by simp only [LeaseStore.fire, htask]; rfl⟩
    | refreshLease id =>
      have hkeep : lease.keepAliveHandle = handle := hhandle
      have honly := (h.keepAlive id lease hl).2 _ (hkeep ▸ htask)
      obtain ⟨-, rfl⟩ := Task.mk.inj honly
      exact .inr ⟨id, lease, hl, hkeep, rfl, by simp only [LeaseStore.fire, htask]; rfl⟩

theorem fire (h : l.Armed) (handle : Nat) : (l.fire handle).Armed := by
  rcases h.fire_cases handle with ⟨-, hfire⟩ | ⟨id, lease, hl, hhandle, -, hfire⟩ |
    ⟨id, lease, -, -, -, hfire⟩
  · rwa [hfire]
  · have hrevoke := h.revokeLease id
    -- The timeout that ran has been cleared with the lease, so dropping it changes nothing.
    have hgone : (l.revokeLease id).clock.tasks.lookup handle = none := by
      rw [revokeLease_of_lookup hl]
      simp only [Clock.lookup_clearTimeout, hhandle]
      split <;> simp
    have hsame : ∀ other, ((l.revokeLease id).clock.clearTimeout handle).tasks.lookup other
        = (l.revokeLease id).clock.tasks.lookup other := by
      intro other
      rw [Clock.lookup_clearTimeout]
      split
      · rename_i heq
        rw [heq, hgone]
      · rfl
    rw [hfire]
    constructor
    · simp only [hsame]
      exact hrevoke.expire
    · simp only [hsame]
      exact hrevoke.keepAlive
    · simp only [hsame]
      exact hrevoke.pending
  · rw [hfire]
    exact h.refreshLease id

theorem request (h : l.Armed) (request : StoreRequest) : (l.request request).Armed := by
  cases request <;> exact h.of_leases rfl rfl

end Armed

/-! ## What becomes of the leases -/

/-- The lease is in the table, under this key, and its timeout is pending:
it has neither been released nor expired. -/
def Outstanding (l : LeaseStore locale) (key : JsString) (id : Nat) : Prop :=
  ∃ lease, l.leases.lookup id = some lease ∧ lease.key = key
    ∧ l.clock.tasks.lookup lease.expireHandle = some { callback := .revokeLease id, interval := false }

theorem Armed.outstanding_iff {l : LeaseStore locale} (h : l.Armed) {key : JsString} {id : Nat} :
    l.Outstanding key id ↔ ∃ lease, l.leases.lookup id = some lease ∧ lease.key = key :=
  ⟨fun ⟨lease, hl, hkey, _⟩ => ⟨lease, hl, hkey⟩,
    fun ⟨lease, hl, hkey⟩ => ⟨lease, hl, hkey, h.expire id lease hl⟩⟩

/-- What an operation does to the table: `ended` goes, every other lease
stays under its key, and what comes is new. -/
structure Follows (l l' : LeaseStore locale) (ended : Option Nat) : Prop where
  next : l.nextLeaseId ≤ l'.nextLeaseId
  stays : ∀ id lease, l.leases.lookup id = some lease → ended ≠ some id →
    ∃ lease', l'.leases.lookup id = some lease' ∧ lease'.key = lease.key
  old : ∀ id lease', l'.leases.lookup id = some lease' → id < l.nextLeaseId →
    ∃ lease, l.leases.lookup id = some lease ∧ lease.key = lease'.key
  gone : ∀ id, ended = some id → l'.leases.lookup id = none

theorem Follows.of_leases {l l' : LeaseStore locale} (hleases : l'.leases = l.leases)
    (hnext : l.nextLeaseId ≤ l'.nextLeaseId) : l.Follows l' none where
  next := hnext
  stays := fun id lease hl _ => ⟨lease, hleases ▸ hl, rfl⟩
  old := fun id lease' hl _ => ⟨lease', hleases ▸ hl, rfl⟩
  gone := fun id h => by cases h

theorem follows_addLease {l : LeaseStore locale} {store : FakeState locale} (key : JsString)
    (hissued : ∀ id lease, l.leases.lookup id = some lease → id < l.nextLeaseId) :
    l.Follows (LeaseStore.addLease { l with store, nextLeaseId := l.nextLeaseId + 1 }
      l.nextLeaseId key) none where
  next := Nat.le_succ _
  stays := fun id lease hl _ => by
    have hlt := hissued id lease hl
    exact ⟨lease, by simp only [addLease, lookup_insert, if_neg (Nat.ne_of_lt hlt), hl], rfl⟩
  old := fun id lease' hl hlt => by
    simp only [addLease, lookup_insert, if_neg (Nat.ne_of_lt hlt)] at hl
    exact ⟨lease', hl, rfl⟩
  gone := fun id h => by cases h

theorem follows_acquireLock {l : LeaseStore locale}
    (hissued : ∀ id lease, l.leases.lookup id = some lease → id < l.nextLeaseId)
    (ns key : JsString) (ttlSeconds : ℚ) :
    l.Follows (l.acquireLock ns key ttlSeconds).2 none := by
  rcases l.acquireLock_cases ns key ttlSeconds with
    ⟨e, store, nextLeaseId, hacquire, hnext, -⟩ | ⟨-, -, hacquire⟩
  · rw [hacquire]
    exact .of_leases rfl hnext
  · rw [hacquire]
    exact follows_addLease _ hissued

theorem follows_revokeLease (l : LeaseStore locale) (id : Nat) :
    l.Follows (l.revokeLease id) (some id) := by
  cases hlease : l.leases.lookup id with
  | none =>
    rw [revokeLease_of_not_lookup hlease]
    exact ⟨Nat.le_refl _, fun other lease hl _ => ⟨lease, hl, rfl⟩,
      fun other lease hl _ => ⟨lease, hl, rfl⟩, fun other h => Option.some.inj h ▸ hlease⟩
  | some lease =>
    rw [revokeLease_of_lookup hlease]
    constructor
    · exact Nat.le_refl _
    · intro other lease' hl hne
      refine ⟨lease', ?_, rfl⟩
      rw [lookup_erase, if_neg fun heq => hne (congrArg some heq.symm)]
      exact hl
    · intro other lease' hl _
      rw [lookup_erase] at hl
      split at hl
      · cases hl
      · exact ⟨lease', hl, rfl⟩
    · rintro other hid
      cases hid
      exact (lookup_erase _ _ _).trans (if_pos rfl)

theorem follows_releaseLeasePassively (l : LeaseStore locale) (id : Nat) :
    l.Follows (l.releaseLeasePassively id) none := by
  unfold releaseLeasePassively
  split <;> exact .of_leases rfl (Nat.le_refl _)

theorem follows_refreshLease (l : LeaseStore locale) (id : Nat) :
    l.Follows (l.refreshLease id) none := by
  cases hlease : l.leases.lookup id with
  | none =>
    simp only [refreshLease, hlease]
    exact .of_leases rfl (Nat.le_refl _)
  | some lease =>
    rw [refreshLease_of_lookup hlease]
    constructor
    · exact Nat.le_refl _
    · intro other lease' hl _
      simp only [lookup_insert]
      split
      · rename_i hid
        rw [hid, hlease] at hl
        cases hl
        exact ⟨_, rfl, rfl⟩
      · exact ⟨lease', hl, rfl⟩
    · intro other lease' hl _
      rw [lookup_insert] at hl
      split at hl
      · rename_i hid
        cases hl
        exact ⟨lease, hid ▸ hlease, rfl⟩
      · exact ⟨lease', hl, rfl⟩
    · intro other h
      cases h

/-- The lease a pending task ends when it runs. -/
def expiring (l : LeaseStore locale) (handle : Nat) : Option Nat :=
  match l.clock.tasks.lookup handle with
  | some { callback := .revokeLease id, .. } => some id
  | _ => none

theorem follows_fire {l : LeaseStore locale} (h : l.Armed) (handle : Nat) :
    l.Follows (l.fire handle) (l.expiring handle) := by
  unfold expiring
  rcases h.fire_cases handle with ⟨htask, hfire⟩ | ⟨id, lease, -, -, htask, hfire⟩ |
    ⟨id, lease, -, -, htask, hfire⟩
  · rw [htask, hfire]
    exact .of_leases rfl (Nat.le_refl _)
  · rw [htask, hfire]
    obtain ⟨hnext, hstays, hold, hgone⟩ := l.follows_revokeLease id
    exact ⟨hnext, hstays, hold, hgone⟩
  · rw [htask, hfire]
    exact l.follows_refreshLease id

theorem follows_request (l : LeaseStore locale) (request : StoreRequest) :
    l.Follows (l.request request) none := by
  cases request <;> exact .of_leases rfl (Nat.le_refl _)

end LeaseStore

end Webernetes.Etcd
