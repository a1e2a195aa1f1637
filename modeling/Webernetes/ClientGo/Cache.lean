/-
Webernetes.ClientGo.Cache — caches over the thread-safe store.

A cache asks its key function for the key of an object and its
transformer, where it has one, for what is kept of it. Where both answer
and the index functions do not fail, `add`, `update`, `delete` and
`replace` do to the items what they say, and the version is that of the
last object stored, or the one `replace` was given.
-/
import Webernetes.ClientGo.ThreadSafeStore

namespace Webernetes.ClientGo

open Js Base

/-- The error a cache returns, or what one of its index functions throws. -/
inductive StoreError (α : Type) where
  /-- `KeyError`. -/
  | key (obj : α) (err : JsString)
  | transforming (message : JsString)
  | thrown (err : JsString)

structure Cache (α : Type) where
  keyFunc : α → Except JsString JsString
  transformer : Option (α → Except JsString α) := none
  cacheStorage : ThreadSafeMap α

namespace Cache

variable {α : Type} (objects : Objects α) (c : Cache α)

/-- `newIndexer(keyFunc, indexers)`, and `newStore(keyFunc)` with no indexers. -/
def newIndexer (keyFunc : α → Except JsString JsString)
    (indexers : JsMap JsString (ThreadSafeIndexFunc α)) : Cache α :=
  { keyFunc, cacheStorage := .new indexers }

/-- What is kept of an object. -/
def transformed (obj : α) : Except (StoreError α) α :=
  match c.transformer with
  | none => .ok obj
  | some transformer =>
    (transformer obj).mapError fun message => .transforming (js "transforming: " ++ message)

/-- An object's key. -/
def keyed (obj : α) : Except (StoreError α) JsString := (c.keyFunc obj).mapError (.key obj)

/-- What a call of the storage answers, and its new state. -/
def stored (result : Option JsString × ThreadSafeMap α) : Option (StoreError α) × Cache α :=
  (result.1.map .thrown, { c with cacheStorage := result.2 })

def add (obj : α) : Option (StoreError α) × Cache α :=
  match c.keyed obj with
  | .error err => (some err, c)
  | .ok key =>
    match c.transformed obj with
    | .error err => (some err, c)
    | .ok obj => c.stored (c.cacheStorage.add objects key obj)

def update (obj : α) : Option (StoreError α) × Cache α :=
  match c.keyed obj with
  | .error err => (some err, c)
  | .ok key =>
    match c.transformed obj with
    | .error err => (some err, c)
    | .ok obj => c.stored (c.cacheStorage.update objects key obj)

def delete (obj : α) : Option (StoreError α) × Cache α :=
  match c.keyed obj with
  | .error err => (some err, c)
  | .ok key => c.stored (c.cacheStorage.deleteWithObject objects key (some obj))

/-- The items of a list under their keys, up to the first that has none. -/
def itemsOf : List α → JsMap JsString α → Except (StoreError α) (JsMap JsString α)
  | [], items => .ok items
  | item :: list, items =>
    match c.keyed item with
    | .error err => .error err
    | .ok key =>
      match c.transformed item with
      | .error err => .error err
      | .ok obj => itemsOf list (items.set key obj)

def replace (list : List α) (resourceVersion : JsString) : Option (StoreError α) × Cache α :=
  match c.itemsOf list .empty with
  | .error err => (some err, c)
  | .ok items => c.stored (c.cacheStorage.replace objects items resourceVersion)

def getByKey (key : JsString) : Option α := c.cacheStorage.items.get key

def bookmark (resourceVersion : JsString) : Cache α :=
  { c with cacheStorage := c.cacheStorage.bookmark resourceVersion }

/-- The storage has nothing to do either. -/
def resync : Option (StoreError α) × Cache α := (none, c)

def lastStoreSyncResourceVersion : JsString := c.cacheStorage.rv

end Cache

/-! ## Calls that succeed -/

section Calls

variable {α : Type} {objects : Objects α}

/-- A storage with its indices in order, its items and its version. -/
structure Holds (objects : Objects α) (m : ThreadSafeMap α) (items : JsString → Option α)
    (rv : JsString) : Prop where
  indexed : m.Indexed objects
  items : ∀ key, m.items.get key = items key
  rv : m.rv = rv

theorem holds_new {indexers : JsMap JsString (ThreadSafeIndexFunc α)} (h : NeverFails indexers) :
    Holds objects (.new indexers) (fun _ => none) [] :=
  ⟨ThreadSafeMap.indexed_new h, fun _ => rfl, rfl⟩

variable {m : ThreadSafeMap α} {items : JsString → Option α} {rv : JsString}

theorem Holds.update (h : Holds objects m items rv) (key : JsString) (obj : α) :
    ∃ m', m.update objects key obj = (none, m')
      ∧ Holds objects m' (fun k => if k = key then some obj else items k)
        ((objects.resourceVersion obj).getD rv) := by
  obtain ⟨s, hs, hindexed⟩ := h.indexed.rekeyed key (some obj) fun k => m.items.get_set key k obj
  have hlocked : m.updateLocked objects key obj
      = (none, { m with storeIndex := s, items := m.items.set key obj }) := by
    simp only [ThreadSafeMap.updateLocked, hs]
  have hupdate : m.update objects key obj
      = (none, { m with storeIndex := s, items := m.items.set key obj }.withRv
        (objects.resourceVersion obj)) := by
    simp only [ThreadSafeMap.update, hlocked]
  refine ⟨_, hupdate, (hindexed m.rv).withRv _, fun k => ?_, ?_⟩
  · rw [← h.items]
    exact m.items.get_set key k obj
  · rw [← h.rv]
    rfl

/-- The object that is there is only taken away when it is truthy. -/
theorem Holds.deleteWithObject (h : Holds objects m items rv)
    (htruthy : ∀ obj, objects.truthy obj = true) (key : JsString) (obj : α) :
    ∃ m', m.deleteWithObject objects key (some obj) = (none, m')
      ∧ Holds objects m' (fun k => if k = key then none else items k)
        ((objects.resourceVersion obj).getD rv) := by
  have hrv : ∀ m' : ThreadSafeMap α, m'.rv = m.rv →
      (m'.withRv ((some obj).bind objects.resourceVersion)).rv
        = (objects.resourceVersion obj).getD rv := fun m' hm' => by
    rw [← h.rv, ← hm']
    rfl
  cases hobj : m.items.get key with
  | none =>
    have hlocked : m.deleteLocked objects key = (none, m) := by
      simp only [ThreadSafeMap.deleteLocked, hobj]
    refine ⟨m.withRv _, by simp only [ThreadSafeMap.deleteWithObject, hlocked], h.indexed.withRv _,
      fun k => ?_, hrv m rfl⟩
    rw [← h.items]
    split
    · rename_i hk
      exact hk ▸ hobj
    · rfl
  | some old =>
    obtain ⟨s, hs, hindexed⟩ := h.indexed.rekeyed key none fun k => m.items.get_delete key k
    rw [hobj] at hs
    have hlocked : m.deleteLocked objects key
        = (none, { m with storeIndex := s, items := m.items.delete key }) := by
      simp only [ThreadSafeMap.deleteLocked, hobj, if_pos (htruthy old), hs]
    refine ⟨ThreadSafeMap.withRv _ _, by simp only [ThreadSafeMap.deleteWithObject, hlocked],
      (hindexed m.rv).withRv _, fun k => ?_, hrv _ rfl⟩
    rw [← h.items]
    exact m.items.get_delete key k

namespace Cache

variable {c : Cache α} {obj : α} {key : JsString}

theorem add_eq_update (c : Cache α) (obj : α) : c.add objects obj = c.update objects obj := rfl

/-- An object with a key is stored. -/
theorem update_ok (h : Holds objects c.cacheStorage items rv) (hkey : c.keyFunc obj = .ok key)
    (htransformer : c.transformer = none) :
    ∃ m, c.update objects obj = (none, { c with cacheStorage := m })
      ∧ Holds objects m (fun k => if k = key then some obj else items k)
        ((objects.resourceVersion obj).getD rv) := by
  obtain ⟨m, hm, hholds⟩ := h.update key obj
  refine ⟨m, ?_, hholds⟩
  simp only [update, keyed, hkey, Except.mapError, transformed, htransformer, hm, stored]
  rfl

/-- The object under the key of the one given is taken away. -/
theorem delete_ok (h : Holds objects c.cacheStorage items rv) (hkey : c.keyFunc obj = .ok key)
    (htruthy : ∀ obj, objects.truthy obj = true) :
    ∃ m, c.delete objects obj = (none, { c with cacheStorage := m })
      ∧ Holds objects m (fun k => if k = key then none else items k)
        ((objects.resourceVersion obj).getD rv) := by
  obtain ⟨m, hm, hholds⟩ := h.deleteWithObject htruthy key obj
  refine ⟨m, ?_, hholds⟩
  simp only [delete, keyed, hkey, Except.mapError, hm, stored]
  rfl

end Cache

end Calls

end Webernetes.ClientGo
