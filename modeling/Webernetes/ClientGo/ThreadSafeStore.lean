/-
Webernetes.ClientGo.ThreadSafeStore — the store of the caches, with its
indices.

An index says of each value which keys have it. It is kept as objects come
and go: `updateSingleIndex` takes the key from the values of the object
that was there and puts it to those of the new one, unless both have the
one same value. Both objects are first asked whether they are truthy, so
an object that is not is never indexed. `Indexed` says what an index then
holds, and `exact_iff` when that is what is stored.

Objects are values: what is stored is a clone. An index function may fail;
then what calls it throws, with the state it has got to.
-/
import Webernetes.Base.Transition
import Webernetes.Js.MapOfSets
import Webernetes.Js.Text

namespace Webernetes.ClientGo

open Js Base

/-- What the store asks of its objects. -/
structure Objects (α : Type) where
  truthy : α → Bool
  /-- `rvFromObject`. -/
  resourceVersion : α → Option JsString

abbrev ThreadSafeIndexFunc (α : Type) := α → Except JsString (List JsString)

abbrev Index := JsMap JsString (JsSet JsString)

def deleteKeyFromIndex (key indexValue : JsString) (index : Index) : Index :=
  match index.get indexValue with
  | none => index
  | some set =>
    let set := set.delete key
    if set.size = 0 then index.delete indexValue else index.set indexValue set

def addKeyToIndex (key indexValue : JsString) (index : Index) : Index :=
  index.set indexValue (((index.get indexValue).getD .empty).add key)

structure StoreIndex (α : Type) where
  indexers : JsMap JsString (ThreadSafeIndexFunc α)
  indices : JsMap JsString Index

/-- `Index with name ${indexName} does not exist`. -/
def noSuchIndex (indexName : JsString) : JsString :=
  js "Index with name " ++ indexName ++ js " does not exist"

namespace StoreIndex

variable {α : Type} (objects : Objects α) (s : StoreIndex α)

def reset : StoreIndex α := { s with indices := .empty }

/-- `this.indices.get(indexName) ?? new Map()`. -/
def indexOf (indexName : JsString) : Index := (s.indices.get indexName).getD .empty

/-- The keys under a value. -/
def keysUnder (index : Index) (indexedValue : JsString) : JsSet JsString :=
  (index.get indexedValue).getD .empty

/-- The union over the values, in their order. -/
def keysUnderAny (index : Index) (indexedValues : List JsString) : JsSet JsString :=
  indexedValues.foldl (fun set indexedValue => (keysUnder index indexedValue).elems.foldl .add set)
    .empty

def getKeysFromIndex (indexName : JsString) (obj : α) : Except JsString (JsSet JsString) :=
  match s.indexers.get indexName with
  | none => .error (noSuchIndex indexName)
  | some indexFunc =>
    match indexFunc obj with
    | .error err => .error err
    | .ok [indexedValue] => .ok (keysUnder (s.indexOf indexName) indexedValue)
    | .ok indexedValues => .ok (keysUnderAny (s.indexOf indexName) indexedValues)

def getKeysByIndex (indexName indexedValue : JsString) : Except JsString (JsSet JsString) :=
  match s.indexers.get indexName with
  | none => .error (noSuchIndex indexName)
  | some _ => .ok (keysUnder (s.indexOf indexName) indexedValue)

def getIndexValues (indexName : JsString) : List JsString := (s.indexOf indexName).keys

/-- `Object.assign(this.indexers, newIndexers)`, without a conflict. -/
def addIndexers (newIndexers : JsMap JsString (ThreadSafeIndexFunc α)) :
    Except JsString (StoreIndex α) :=
  match newIndexers.keys.filter s.indexers.contains with
  | [] => .ok { s with indexers := s.indexers.assign newIndexers }
  | conflicts => .error (js "indexer conflict: " ++ (js ",").intercalate conflicts)

/-- `unable to calculate an index entry for key "${key}" on index "${name}": `. -/
def unableToCalculate (key name err : JsString) : JsString :=
  js "unable to calculate an index entry for key \"" ++ key ++ js "\" on index \"" ++ name
    ++ js "\": " ++ err

/-- The values of an object that is there and truthy. -/
def indexValuesOf (indexFunc : ThreadSafeIndexFunc α) (name key : JsString) (obj : Option α) :
    Except JsString (List JsString) :=
  match obj with
  | none => .ok []
  | some obj =>
    if objects.truthy obj then (indexFunc obj).mapError (unableToCalculate key name) else .ok []

def updateSingleIndex (name : JsString) (oldObj newObj : Option α) (key : JsString) :
    Except JsString (StoreIndex α) :=
  match s.indexers.get name with
  | none => .error (js "indexer \"" ++ name ++ js "\" does not exist")
  | some indexFunc => do
    let oldIndexValues ← indexValuesOf objects indexFunc name key oldObj
    let indexValues ← indexValuesOf objects indexFunc name key newObj
    let index := s.indexOf name
    if indexValues.length = 1 ∧ oldIndexValues.length = 1 ∧ indexValues = oldIndexValues then
      return { s with indices := s.indices.set name index }
    else
      let index := oldIndexValues.foldl (fun index value => deleteKeyFromIndex key value index) index
      let index := indexValues.foldl (fun index value => addKeyToIndex key value index) index
      return { s with indices := s.indices.set name index }

/-- The update of the indices with the names, up to the first that throws. -/
def updateNamed (oldObj newObj : Option α) (key : JsString) :
    List JsString → StoreIndex α → Option JsString × StoreIndex α
  | [], s => (none, s)
  | name :: names, s =>
    match s.updateSingleIndex objects name oldObj newObj key with
    | .error err => (some err, s)
    | .ok s => updateNamed oldObj newObj key names s

def updateIndices (oldObj newObj : Option α) (key : JsString) : Option JsString × StoreIndex α :=
  updateNamed objects oldObj newObj key s.indexers.keys s

end StoreIndex

/-! ## The map -/

structure ThreadSafeMap (α : Type) where
  storeIndex : StoreIndex α
  items : JsMap JsString α := .empty
  rv : JsString := []

inductive Transaction (α : Type) where
  | add (key : JsString) (object : α)
  | update (key : JsString) (object : α)
  | delete (key : JsString) (object : α)

def Transaction.object {α : Type} : Transaction α → α
  | add _ object | update _ object | delete _ object => object

namespace ThreadSafeMap

variable {α : Type} (objects : Objects α) (m : ThreadSafeMap α)

/-- `newThreadSafeStore(indexers, new Map())`. -/
def new (indexers : JsMap JsString (ThreadSafeIndexFunc α)) : ThreadSafeMap α where
  storeIndex := { indexers, indices := .empty }

/-- `this.rv = rv`, when there is one. -/
def withRv (rv : Option JsString) : ThreadSafeMap α := { m with rv := rv.getD m.rv }

def updateLocked (key : JsString) (obj : α) : Option JsString × ThreadSafeMap α :=
  let (err, storeIndex) := m.storeIndex.updateIndices objects (m.items.get key) (some obj) key
  (err, { m with storeIndex, items := m.items.set key obj })

def update (key : JsString) (obj : α) : Option JsString × ThreadSafeMap α :=
  match m.updateLocked objects key obj with
  | (some err, m) => (some err, m)
  | (none, m) => (none, m.withRv (objects.resourceVersion obj))

def add (key : JsString) (obj : α) : Option JsString × ThreadSafeMap α := m.update objects key obj

def deleteLocked (key : JsString) : Option JsString × ThreadSafeMap α :=
  match m.items.get key with
  | none => (none, m)
  | some obj =>
    if objects.truthy obj then
      match m.storeIndex.updateIndices objects (some obj) none key with
      | (some err, storeIndex) => (some err, { m with storeIndex })
      | (none, storeIndex) => (none, { m with storeIndex, items := m.items.delete key })
    else (none, m)

def deleteWithObject (key : JsString) (obj : Option α) : Option JsString × ThreadSafeMap α :=
  match m.deleteLocked objects key with
  | (some err, m) => (some err, m)
  | (none, m) => (none, m.withRv (obj.bind objects.resourceVersion))

def delete (key : JsString) : Option JsString × ThreadSafeMap α := m.deleteWithObject objects key none

/-- One step of a transaction. -/
def applyTransaction : Transaction α → Option JsString × ThreadSafeMap α
  | .add key object | .update key object => m.updateLocked objects key object
  | .delete key _ => m.deleteLocked objects key

/-- The steps of a transaction, up to the first that throws. -/
def applyAll : List (Transaction α) → ThreadSafeMap α → Option JsString × ThreadSafeMap α
  | [], m => (none, m)
  | txn :: txns, m =>
    match m.applyTransaction objects txn with
    | (some err, m) => (some err, m)
    | (none, m) => applyAll txns m

def transaction (txns : List (Transaction α)) : Option JsString × ThreadSafeMap α :=
  match applyAll objects txns m with
  | (some err, m) => (some err, m)
  | (none, m) => (none, m.withRv (txns.getLast?.bind fun txn => objects.resourceVersion txn.object))

/-- The indexing of items that are there, up to the first that throws. -/
def indexAll (index : StoreIndex α → JsString → α → Option JsString × StoreIndex α) :
    List (JsString × α) → StoreIndex α → Option JsString × StoreIndex α
  | [], s => (none, s)
  | (key, item) :: items, s =>
    match index s key item with
    | (some err, s) => (some err, s)
    | (none, s) => indexAll index items s

def replace (items : JsMap JsString α) (resourceVersion : JsString) :
    Option JsString × ThreadSafeMap α :=
  let (err, storeIndex) :=
    indexAll (fun s key item => s.updateIndices objects none (some item) key) items.entries
      m.storeIndex.reset
  (err, { storeIndex, items, rv := resourceVersion })

/-- The error that is returned, or thrown. -/
def addIndexers (newIndexers : JsMap JsString (ThreadSafeIndexFunc α)) :
    Option JsString × ThreadSafeMap α :=
  match m.storeIndex.addIndexers newIndexers with
  | .error err => (some err, m)
  | .ok storeIndex =>
    let (err, storeIndex) :=
      indexAll (fun s key item => s.updateNamed objects none (some item) key newIndexers.keys)
        m.items.entries storeIndex
    (err, { m with storeIndex })

def bookmark (resourceVersion : JsString) : ThreadSafeMap α := { m with rv := resourceVersion }

/-- The truthy items with the keys. -/
def itemsAt (keys : JsSet JsString) : List α :=
  (keys.elems.filterMap m.items.get).filter objects.truthy

def index (indexName : JsString) (obj : α) : Except JsString (List α) :=
  (m.storeIndex.getKeysFromIndex indexName obj).map (m.itemsAt objects)

def byIndex (indexName indexedValue : JsString) : Except JsString (List α) :=
  (m.storeIndex.getKeysByIndex indexName indexedValue).map (m.itemsAt objects)

def indexKeys (indexName indexedValue : JsString) : Except JsString (List JsString) :=
  (m.storeIndex.getKeysByIndex indexName indexedValue).map JsSet.elems

def listIndexFuncValues (indexName : JsString) : List JsString := m.storeIndex.getIndexValues indexName

end ThreadSafeMap

/-! ## What an index holds -/

/-- The key is under the value. -/
def Has (index : Index) (key value : JsString) : Prop := key ∈ (StoreIndex.keysUnder index value).elems

/-- No value is there without a key. -/
def NoEmpty (index : Index) : Prop := ∀ value set, index.get value = some set → set.elems ≠ []

theorem deleteKeyFromIndex_eq (key value : JsString) (index : Index) :
    deleteKeyFromIndex key value index = JsMap.dropUnder [key] index value := by
  unfold deleteKeyFromIndex JsMap.dropUnder
  cases index.get value <;> rfl

theorem addKeyToIndex_eq (key value : JsString) (index : Index) :
    addKeyToIndex key value index = JsMap.addUnder key index value := rfl

theorem not_has_empty (key value : JsString) : ¬ Has .empty key value := JsMap.not_holds_empty value key

theorem noEmpty_empty : NoEmpty .empty := JsMap.noEmptySet_empty

theorem has_deleteAll (index : Index) (key : JsString) (values : List JsString) (k w : JsString) :
    Has (values.foldl (fun index value => deleteKeyFromIndex key value index) index) k w
      ↔ Has index k w ∧ ¬ (k = key ∧ w ∈ values) := by
  simp only [deleteKeyFromIndex_eq]
  refine (JsMap.holds_foldl_dropUnder [key] values index w k).trans ?_
  rw [List.mem_singleton, and_comm (a := w ∈ values)]
  rfl

theorem has_addAll (index : Index) (key : JsString) (values : List JsString) (k w : JsString) :
    Has (values.foldl (fun index value => addKeyToIndex key value index) index) k w
      ↔ Has index k w ∨ k = key ∧ w ∈ values := by
  simp only [addKeyToIndex_eq]
  refine (JsMap.holds_foldl_addUnder key values index w k).trans ?_
  rw [and_comm (a := w ∈ values)]
  rfl

theorem NoEmpty.deleteKeyFromIndex {index : Index} (h : NoEmpty index) (key value : JsString) :
    NoEmpty (deleteKeyFromIndex key value index) := by
  rw [deleteKeyFromIndex_eq]
  exact JsMap.NoEmptySet.dropUnder h [key] value

theorem NoEmpty.addKeyToIndex {index : Index} (h : NoEmpty index) (key value : JsString) :
    NoEmpty (addKeyToIndex key value index) := JsMap.NoEmptySet.addUnder h key value

theorem noEmpty_foldl {step : Index → JsString → Index}
    (hstep : ∀ index value, NoEmpty index → NoEmpty (step index value)) (values : List JsString)
    {index : Index} (h : NoEmpty index) : NoEmpty (values.foldl step index) :=
  JsMap.NoEmptySet.foldl hstep values h

/-! ## Updates of the indices -/

section Update

variable {α : Type} {objects : Objects α}

/-- The values an index function gives. -/
def valuesOf (indexFunc : ThreadSafeIndexFunc α) (obj : α) : List JsString :=
  match indexFunc obj with
  | .ok values => values
  | .error _ => []

/-- What the index is to hold for an object, or for none. -/
def yields (objects : Objects α) (indexFunc : ThreadSafeIndexFunc α) (obj : Option α) :
    List JsString :=
  match obj with
  | none => []
  | some obj => if objects.truthy obj then valuesOf indexFunc obj else []

/-- The index functions do not fail. -/
def NeverFails (indexers : JsMap JsString (ThreadSafeIndexFunc α)) : Prop :=
  ∀ name indexFunc, indexers.get name = some indexFunc → ∀ obj, ∃ values, indexFunc obj = .ok values

theorem ok_valuesOf {indexFunc : ThreadSafeIndexFunc α} {obj : α}
    (h : ∃ values, indexFunc obj = .ok values) : indexFunc obj = .ok (valuesOf indexFunc obj) := by
  obtain ⟨values, h⟩ := h
  simp [valuesOf, h]

theorem indexValuesOf_eq {indexFunc : ThreadSafeIndexFunc α}
    (h : ∀ obj, ∃ values, indexFunc obj = .ok values) (name key : JsString) (obj : Option α) :
    StoreIndex.indexValuesOf objects indexFunc name key obj = .ok (yields objects indexFunc obj) := by
  cases obj with
  | none => rfl
  | some obj =>
    simp only [StoreIndex.indexValuesOf, yields]
    split
    · rw [ok_valuesOf (h obj)]
      rfl
    · rfl

/-- The key is moved from the values of one object to those of another in
the indices with the names. -/
structure Rekeyed (objects : Objects α) (names : List JsString) (newObj : Option α) (key : JsString)
    (s s' : StoreIndex α) : Prop where
  indexers : s'.indexers = s.indexers
  other : ∀ name, name ∉ names → s'.indexOf name = s.indexOf name
  has : ∀ name ∈ names, ∀ indexFunc, s.indexers.get name = some indexFunc → ∀ k w,
    Has (s'.indexOf name) k w
      ↔ if k = key then w ∈ yields objects indexFunc newObj else Has (s.indexOf name) k w
  noEmpty : ∀ name, NoEmpty (s.indexOf name) → NoEmpty (s'.indexOf name)

/-- The index has the key where the object says. -/
def HasObject (objects : Objects α) (s : StoreIndex α) (name key : JsString) (obj : Option α) : Prop :=
  ∀ indexFunc, s.indexers.get name = some indexFunc → ∀ w,
    Has (s.indexOf name) key w ↔ w ∈ yields objects indexFunc obj

theorem indexOf_set (s : StoreIndex α) (name other : JsString) (index : Index) :
    StoreIndex.indexOf { s with indices := s.indices.set name index } other
      = if other = name then index else s.indexOf other := by
  simp only [StoreIndex.indexOf, JsMap.get_set]
  split <;> rfl

theorem updateSingleIndex_ok {s : StoreIndex α} {name key : JsString} {oldObj : Option α}
    (newObj : Option α) {indexFunc : ThreadSafeIndexFunc α} (hname : s.indexers.get name = some indexFunc)
    (hfunc : ∀ obj, ∃ values, indexFunc obj = .ok values)
    (hold : HasObject objects s name key oldObj) :
    ∃ s', s.updateSingleIndex objects name oldObj newObj key = .ok s'
      ∧ Rekeyed objects [name] newObj key s s' := by
  have hold := hold indexFunc hname
  simp only [StoreIndex.updateSingleIndex, hname, indexValuesOf_eq hfunc, bind, Except.bind]
  split
  · -- both have the one same value
    rename_i hsame
    refine ⟨_, rfl, rfl, fun other hother => ?_, ?_, fun other h => ?_⟩
    · rw [indexOf_set, if_neg (by simpa using hother)]
    · intro other hother indexFunc' hindexFunc' k w
      obtain rfl := List.mem_singleton.mp hother
      rw [hname] at hindexFunc'
      cases hindexFunc'
      rw [indexOf_set, if_pos rfl]
      split
      · rename_i hk
        rw [hk, hold w, hsame.2.2]
      · rfl
    · rw [indexOf_set]
      split
      · rename_i hother
        exact hother ▸ h
      · exact h
  · refine ⟨_, rfl, rfl, fun other hother => ?_, ?_, fun other h => ?_⟩
    · rw [indexOf_set, if_neg (by simpa using hother)]
    · intro other hother indexFunc' hindexFunc' k w
      obtain rfl := List.mem_singleton.mp hother
      rw [hname] at hindexFunc'
      cases hindexFunc'
      rw [indexOf_set, if_pos rfl, has_addAll, has_deleteAll]
      by_cases hk : k = key
      · subst hk
        have hold := hold w
        simp only [if_pos, true_and]
        grind
      · simp [hk]
    · rw [indexOf_set]
      split
      · rename_i hother
        refine noEmpty_foldl (fun _ _ h => h.addKeyToIndex _ _) _ ?_
        exact noEmpty_foldl (fun _ _ h => h.deleteKeyFromIndex _ _) _ (hother ▸ h)
      · exact h

theorem updateNamed_ok {names : List JsString} (hnodup : names.Nodup) {s : StoreIndex α}
    {key : JsString} {oldObj : Option α} (newObj : Option α) (hfails : NeverFails s.indexers)
    (hnames : ∀ name ∈ names, ∃ indexFunc, s.indexers.get name = some indexFunc)
    (hold : ∀ name ∈ names, HasObject objects s name key oldObj) :
    ∃ s', StoreIndex.updateNamed objects oldObj newObj key names s = (none, s')
      ∧ Rekeyed objects names newObj key s s' := by
  induction names generalizing s with
  | nil => exact ⟨s, rfl, rfl, fun _ _ => rfl, fun _ h => (by cases h), fun _ h => h⟩
  | cons name names ih =>
    obtain ⟨hnot, hnodup⟩ := List.nodup_cons.mp hnodup
    obtain ⟨indexFunc, hname⟩ := hnames name List.mem_cons_self
    obtain ⟨t, ht, hfirst⟩ := updateSingleIndex_ok newObj hname (hfails name indexFunc hname)
      (hold name List.mem_cons_self)
    have hother : ∀ other ∈ names, t.indexOf other = s.indexOf other := fun other hmem =>
      hfirst.other other fun h => hnot (List.mem_singleton.mp h ▸ hmem)
    obtain ⟨s', hs', hrest⟩ := ih hnodup (s := t) (hfirst.indexers ▸ hfails)
      (fun other hmem => hfirst.indexers ▸ hnames other (List.mem_cons_of_mem _ hmem))
      (fun other hmem => by
        intro f hf w
        rw [hother other hmem]
        exact hold other (List.mem_cons_of_mem _ hmem) f (hfirst.indexers ▸ hf) w)
    refine ⟨s', by simp only [StoreIndex.updateNamed, ht, hs'], ?_, ?_, ?_, ?_⟩
    · rw [hrest.indexers, hfirst.indexers]
    · intro other hmem
      rw [hrest.other other fun h => hmem (List.mem_cons_of_mem _ h)]
      exact hfirst.other other fun h => hmem (List.mem_singleton.mp h ▸ List.mem_cons_self)
    · intro other hmem f hf k w
      rcases List.mem_cons.mp hmem with rfl | hmem
      · rw [hrest.other other hnot]
        exact hfirst.has other (List.mem_singleton_self other) f hf k w
      · rw [hrest.has other hmem f (hfirst.indexers ▸ hf) k w, hother other hmem]
    · exact fun other h => hrest.noEmpty other (hfirst.noEmpty other h)

/-- Items that were in none of the indices with the names are put into
them. -/
structure Added (objects : Objects α) (names : List JsString) (items : List (JsString × α))
    (s s' : StoreIndex α) : Prop where
  indexers : s'.indexers = s.indexers
  other : ∀ name, name ∉ names → s'.indexOf name = s.indexOf name
  has : ∀ name ∈ names, ∀ indexFunc, s.indexers.get name = some indexFunc → ∀ k w,
    Has (s'.indexOf name) k w ↔ Has (s.indexOf name) k w
      ∨ ∃ obj, (k, obj) ∈ items ∧ w ∈ yields objects indexFunc (some obj)
  noEmpty : ∀ name, NoEmpty (s.indexOf name) → NoEmpty (s'.indexOf name)

theorem indexAll_ok (objects : Objects α) {names : List JsString} (hnodup : names.Nodup)
    {index : StoreIndex α → JsString → α → Option JsString × StoreIndex α}
    {items : List (JsString × α)} (hitems : (items.map Prod.fst).Nodup) {s : StoreIndex α}
    (hindex : ∀ t key item, t.indexers = s.indexers →
      index t key item = StoreIndex.updateNamed objects none (some item) key names t)
    (hfails : NeverFails s.indexers)
    (hnames : ∀ name ∈ names, ∃ indexFunc, s.indexers.get name = some indexFunc)
    (hfresh : ∀ name ∈ names, ∀ key ∈ items.map Prod.fst, ∀ w, ¬ Has (s.indexOf name) key w) :
    ∃ s', ThreadSafeMap.indexAll index items s = (none, s') ∧ Added objects names items s s' := by
  induction items generalizing s with
  | nil =>
    exact ⟨s, rfl, rfl, fun _ _ => rfl, fun name _ f _ k w => by simp, fun _ h => h⟩
  | cons entry items ih =>
    obtain ⟨key, item⟩ := entry
    obtain ⟨hnot, hitems⟩ := List.nodup_cons.mp hitems
    have hout : ∀ name ∈ names, HasObject objects s name key none := fun name hname f _ w => by
      simpa [yields] using hfresh name hname key List.mem_cons_self w
    obtain ⟨t, ht, hfirst⟩ := updateNamed_ok hnodup (some item) hfails hnames hout
    have hsame : ∀ name ∈ names, ∀ f, s.indexers.get name = some f → ∀ k ∈ items.map Prod.fst, ∀ w,
        ¬ Has (t.indexOf name) k w := by
      intro name hname f hf k hk w
      have hne : k ≠ key := fun h => hnot (h ▸ hk)
      rw [hfirst.has name hname f hf k w, if_neg hne]
      exact hfresh name hname k (List.mem_cons_of_mem _ hk) w
    obtain ⟨s', hs', hrest⟩ := ih hitems (s := t)
      (fun u k o hu => hindex u k o (hu.trans hfirst.indexers)) (hfirst.indexers ▸ hfails)
      (fun name hname => hfirst.indexers ▸ hnames name hname) (fun name hname => by
        obtain ⟨f, hf⟩ := hnames name hname
        exact hsame name hname f hf)
    refine ⟨s', by simp only [ThreadSafeMap.indexAll, hindex s key item rfl, ht, hs'], ?_, ?_, ?_, ?_⟩
    · rw [hrest.indexers, hfirst.indexers]
    · intro name hname
      rw [hrest.other name hname, hfirst.other name hname]
    · intro name hname f hf k w
      rw [hrest.has name hname f (hfirst.indexers ▸ hf) k w, hfirst.has name hname f hf k w]
      have hkey := hfresh name hname key List.mem_cons_self w
      simp only [List.mem_cons, Prod.mk.injEq]
      constructor
      · intro h
        split at h <;> grind
      · intro h
        split <;> grind
    · exact fun name h => hrest.noEmpty name (hfirst.noEmpty name h)

end Update

/-! ## Runs -/

inductive CacheCall (α : Type) where
  | add (key : JsString) (obj : α)
  | update (key : JsString) (obj : α)
  | delete (key : JsString)
  | deleteWithObject (key : JsString) (obj : Option α)
  | transaction (txns : List (Transaction α))
  | replace (items : JsMap JsString α) (resourceVersion : JsString)
  | addIndexers (newIndexers : JsMap JsString (ThreadSafeIndexFunc α))
  | bookmark (resourceVersion : JsString)

namespace ThreadSafeMap

variable {α : Type} (objects : Objects α) (m : ThreadSafeMap α)

def exec : CacheCall α → Option JsString × ThreadSafeMap α
  | .add key obj => m.add objects key obj
  | .update key obj => m.update objects key obj
  | .delete key => m.delete objects key
  | .deleteWithObject key obj => m.deleteWithObject objects key obj
  | .transaction txns => m.transaction objects txns
  | .replace items resourceVersion => m.replace objects items resourceVersion
  | .addIndexers newIndexers => m.addIndexers objects newIndexers
  | .bookmark resourceVersion => (none, m.bookmark resourceVersion)

/-- Any sequence of calls on a new store, with index functions that do not
fail. -/
def threadSafeStore : System (ThreadSafeMap α) (CacheCall α) where
  init m := ∃ indexers, NeverFails indexers ∧ m = .new indexers
  step m call m' := (∀ newIndexers, call = .addIndexers newIndexers → NeverFails newIndexers)
    ∧ m' = (m.exec objects call).2

/-- The stored objects that an index function gives a value for. -/
def Stored (indexFunc : ThreadSafeIndexFunc α) (value : JsString) (key : JsString) : Prop :=
  ∃ obj, m.items.get key = some obj ∧ value ∈ valuesOf indexFunc obj

/-- The objects are those stored under the keys, each once. -/
def AreAt (objs : List α) (keys : JsString → Prop) : Prop :=
  ∃ list : List JsString, list.Nodup ∧ (∀ key, key ∈ list ↔ keys key)
    ∧ objs.map some = list.map m.items.get

/-- Every index answers what is stored. -/
structure Exact : Prop where
  indexKeys : ∀ name indexFunc value, m.storeIndex.indexers.get name = some indexFunc →
    ∃ keys, m.indexKeys name value = .ok keys ∧ keys.Nodup
      ∧ ∀ key, key ∈ keys ↔ m.Stored indexFunc value key
  byIndex : ∀ name indexFunc value, m.storeIndex.indexers.get name = some indexFunc →
    ∃ objs, m.byIndex objects name value = .ok objs ∧ m.AreAt objs (m.Stored indexFunc value)
  listIndexFuncValues : ∀ name indexFunc, m.storeIndex.indexers.get name = some indexFunc →
    (m.listIndexFuncValues name).Nodup
      ∧ ∀ value, value ∈ m.listIndexFuncValues name ↔ ∃ key, m.Stored indexFunc value key
  index : ∀ name indexFunc obj, m.storeIndex.indexers.get name = some indexFunc →
    ∃ objs, m.index objects name obj = .ok objs
      ∧ m.AreAt objs fun key => ∃ value ∈ valuesOf indexFunc obj, m.Stored indexFunc value key

/-- The invariant: an index has a key exactly under the values of the
truthy object that is stored. -/
structure Indexed : Prop where
  never : NeverFails m.storeIndex.indexers
  has : ∀ name indexFunc, m.storeIndex.indexers.get name = some indexFunc → ∀ key value,
    Has (m.storeIndex.indexOf name) key value ↔ value ∈ yields objects indexFunc (m.items.get key)
  noEmpty : ∀ name, NoEmpty (m.storeIndex.indexOf name)
  unnamed : ∀ name, m.storeIndex.indexers.get name = none → ∀ key value,
    ¬ Has (m.storeIndex.indexOf name) key value

variable {objects m}

theorem indexed_new {indexers : JsMap JsString (ThreadSafeIndexFunc α)} (h : NeverFails indexers) :
    (new indexers).Indexed objects where
  never := h
  has _ _ _ key value := iff_of_false (not_has_empty key value) (by simp [new, yields])
  noEmpty _ := noEmpty_empty
  unnamed _ _ := not_has_empty

/-- The invariant only looks at the indices and the items. -/
theorem Indexed.withRv (h : m.Indexed objects) (rv : Option JsString) :
    (m.withRv rv).Indexed objects := ⟨h.never, h.has, h.noEmpty, h.unnamed⟩

/-- An update of all indices, for an item that is put or taken. -/
theorem Indexed.rekeyed (h : m.Indexed objects) (key : JsString) (newObj : Option α)
    {items : JsMap JsString α}
    (hitems : ∀ k, items.get k = if k = key then newObj else m.items.get k) :
    ∃ storeIndex, m.storeIndex.updateIndices objects (m.items.get key) newObj key = (none, storeIndex)
      ∧ ∀ rv, Indexed objects { storeIndex, items, rv } := by
  obtain ⟨s, hs, hrekeyed⟩ := updateNamed_ok m.storeIndex.indexers.nodup_keys newObj h.never
    (fun name hname => JsMap.mem_keys_iff.mp hname)
    fun name _ f hf w => h.has name f hf key w
  refine ⟨s, hs, fun rv => ⟨hrekeyed.indexers ▸ h.never, ?_, ?_, ?_⟩⟩
  · intro name f hf k w
    have hf' : m.storeIndex.indexers.get name = some f := hrekeyed.indexers ▸ hf
    have hmem : name ∈ m.storeIndex.indexers.keys := JsMap.mem_keys_iff.mpr ⟨f, hf'⟩
    show Has (s.indexOf name) k w ↔ w ∈ yields objects f (items.get k)
    rw [hrekeyed.has name hmem f hf' k w, hitems]
    split
    · rfl
    · exact h.has name f hf' k w
  · exact fun name => hrekeyed.noEmpty name (h.noEmpty name)
  · intro name hnone k w
    have hnone' : m.storeIndex.indexers.get name = none := hrekeyed.indexers ▸ hnone
    show ¬ Has (s.indexOf name) k w
    rw [hrekeyed.other name (JsMap.get_eq_none_iff.mp hnone')]
    exact h.unnamed name hnone' k w

theorem Indexed.updateLocked (h : m.Indexed objects) (key : JsString) (obj : α) :
    ∃ m', m.updateLocked objects key obj = (none, m') ∧ m'.Indexed objects := by
  obtain ⟨s, hs, hindexed⟩ := h.rekeyed key (some obj) fun k => m.items.get_set key k obj
  exact ⟨_, by simp only [ThreadSafeMap.updateLocked, hs], hindexed m.rv⟩

theorem Indexed.deleteLocked (h : m.Indexed objects) (key : JsString) :
    ∃ m', m.deleteLocked objects key = (none, m') ∧ m'.Indexed objects := by
  unfold ThreadSafeMap.deleteLocked
  cases hobj : m.items.get key with
  | none => exact ⟨m, rfl, h⟩
  | some obj =>
    dsimp only
    split
    · obtain ⟨s, hs, hindexed⟩ := h.rekeyed key none fun k => m.items.get_delete key k
      rw [hobj] at hs
      exact ⟨_, by simp only [hs], hindexed m.rv⟩
    · exact ⟨m, rfl, h⟩

theorem Indexed.applyAll (h : m.Indexed objects) (txns : List (Transaction α)) :
    ∃ m', applyAll objects txns m = (none, m') ∧ m'.Indexed objects := by
  induction txns generalizing m with
  | nil => exact ⟨m, rfl, h⟩
  | cons txn txns ih =>
    have hstep : ∃ m', m.applyTransaction objects txn = (none, m') ∧ m'.Indexed objects := by
      cases txn with
      | add key object => exact h.updateLocked key object
      | update key object => exact h.updateLocked key object
      | delete key object => exact h.deleteLocked key
    obtain ⟨m', hm', hindexed⟩ := hstep
    obtain ⟨m'', hm'', hindexed⟩ := ih hindexed
    exact ⟨m'', by simp only [ThreadSafeMap.applyAll, hm', hm''], hindexed⟩

theorem Indexed.replace (h : m.Indexed objects) (items : JsMap JsString α)
    (resourceVersion : JsString) :
    ∃ m', m.replace objects items resourceVersion = (none, m') ∧ m'.Indexed objects := by
  obtain ⟨s, hs, hadded⟩ := indexAll_ok objects m.storeIndex.indexers.nodup_keys
    items.nodup (s := m.storeIndex.reset) (fun t key item ht => congrArg (fun indexers =>
      StoreIndex.updateNamed objects none (some item) key indexers.keys t) ht) h.never
    (fun name hname => JsMap.mem_keys_iff.mp hname) fun name _ key _ w => not_has_empty key w
  have hall : indexAll (fun s key item => s.updateIndices objects none (some item) key) items.entries
      m.storeIndex.reset = (none, s) := hs
  have hreplace : m.replace objects items resourceVersion
      = (none, { storeIndex := s, items, rv := resourceVersion }) := by
    simp only [ThreadSafeMap.replace, hall]
  refine ⟨_, hreplace, hadded.indexers ▸ h.never, ?_, ?_, ?_⟩
  · intro name f hf k w
    have hf' : m.storeIndex.indexers.get name = some f := hadded.indexers ▸ hf
    refine (hadded.has name (JsMap.mem_keys_iff.mpr ⟨f, hf'⟩) f hf' k w).trans ?_
    simp only [← JsMap.get_eq_some_iff]
    cases hk : items.get k with
    | none => simp [not_has_empty, yields, StoreIndex.reset, StoreIndex.indexOf]
    | some obj => simp [not_has_empty, StoreIndex.reset, StoreIndex.indexOf]
  · exact fun name => hadded.noEmpty name noEmpty_empty
  · intro name hnone k w
    have hnone' : m.storeIndex.indexers.get name = none := hadded.indexers ▸ hnone
    show ¬ Has (s.indexOf name) k w
    rw [hadded.other name (JsMap.get_eq_none_iff.mp hnone')]
    exact not_has_empty k w

theorem Indexed.addIndexers (h : m.Indexed objects)
    {newIndexers : JsMap JsString (ThreadSafeIndexFunc α)} (hnever : NeverFails newIndexers) :
    (m.addIndexers objects newIndexers).2.Indexed objects := by
  unfold ThreadSafeMap.addIndexers StoreIndex.addIndexers
  split
  · exact h
  · rename_i storeIndex hadd
    split at hadd
    · rename_i hconflicts
      cases hadd
      have hnone : ∀ name ∈ newIndexers.keys, m.storeIndex.indexers.get name = none := by
        intro name hname
        rw [List.filter_eq_nil_iff] at hconflicts
        simpa [Option.eq_none_iff_forall_ne_some] using hconflicts name hname
      have hnever' : NeverFails (m.storeIndex.indexers.assign newIndexers) := by
        intro name f hf
        rw [JsMap.get_assign, Option.or_eq_some_iff] at hf
        rcases hf with hf | ⟨-, hf⟩
        · exact hnever name f hf
        · exact h.never name f hf
      obtain ⟨s, hs, hadded⟩ := indexAll_ok objects newIndexers.nodup_keys m.items.nodup
        (s := { m.storeIndex with indexers := m.storeIndex.indexers.assign newIndexers })
        (fun _ _ _ _ => rfl) hnever' (fun name hname => by
          obtain ⟨f, hf⟩ := JsMap.mem_keys_iff.mp hname
          exact ⟨f, by rw [JsMap.get_assign, hf]; rfl⟩)
        fun name hname key _ w => h.unnamed name (hnone name hname) key w
      have hindexers : s.indexers = m.storeIndex.indexers.assign newIndexers := hadded.indexers
      simp only [hs]
      refine ⟨hindexers ▸ hnever', ?_, fun name => hadded.noEmpty name (h.noEmpty name), ?_⟩
      · intro name f hf k w
        have hf' : (m.storeIndex.indexers.assign newIndexers).get name = some f := hindexers ▸ hf
        show Has (s.indexOf name) k w ↔ _
        by_cases hname : name ∈ newIndexers.keys
        · refine (hadded.has name hname f hf' k w).trans ?_
          simp only [← JsMap.get_eq_some_iff]
          have hno : ¬ Has (m.storeIndex.indexOf name) k w := h.unnamed name (hnone name hname) k w
          refine (or_iff_right hno).trans ?_
          cases hk : m.items.get k with
          | none => simp [yields]
          | some obj => simp
        · rw [JsMap.get_assign, JsMap.get_eq_none_iff.mpr hname] at hf'
          rw [hadded.other name hname]
          exact h.has name f hf' k w
      · intro name hget k w
        have hget' : (m.storeIndex.indexers.assign newIndexers).get name = none := hindexers ▸ hget
        rw [JsMap.get_assign, Option.or_eq_none_iff] at hget'
        show ¬ Has (s.indexOf name) k w
        rw [hadded.other name (JsMap.get_eq_none_iff.mp hget'.1)]
        exact h.unnamed name hget'.2 k w
    · cases hadd

theorem Indexed.exec (h : m.Indexed objects) (call : CacheCall α)
    (hcall : ∀ newIndexers, call = .addIndexers newIndexers → NeverFails newIndexers) :
    (m.exec objects call).2.Indexed objects := by
  have hupdate : ∀ key obj, (m.update objects key obj).2.Indexed objects := by
    intro key obj
    obtain ⟨m', hm', hindexed⟩ := h.updateLocked key obj
    simp only [ThreadSafeMap.update, hm']
    exact hindexed.withRv _
  have hdelete : ∀ key obj, (m.deleteWithObject objects key obj).2.Indexed objects := by
    intro key obj
    obtain ⟨m', hm', hindexed⟩ := h.deleteLocked key
    simp only [ThreadSafeMap.deleteWithObject, hm']
    exact hindexed.withRv _
  cases call with
  | add key obj => exact hupdate key obj
  | update key obj => exact hupdate key obj
  | delete key => exact hdelete key none
  | deleteWithObject key obj => exact hdelete key obj
  | transaction txns =>
    obtain ⟨m', hm', hindexed⟩ := h.applyAll txns
    simp only [ThreadSafeMap.exec, ThreadSafeMap.transaction, hm']
    exact hindexed.withRv _
  | replace items resourceVersion =>
    obtain ⟨m', hm', hindexed⟩ := h.replace items resourceVersion
    simp only [ThreadSafeMap.exec, hm']
    exact hindexed
  | addIndexers newIndexers => exact h.addIndexers (hcall newIndexers rfl)
  | bookmark resourceVersion => exact ⟨h.never, h.has, h.noEmpty, h.unnamed⟩

theorem indexed_of_reach (h : (threadSafeStore objects).Reach m) : m.Indexed objects := by
  refine h.invariant (P := Indexed objects) ?_ ?_
  · rintro m ⟨indexers, hnever, rfl⟩
    exact indexed_new hnever
  · rintro m call m' - hm ⟨hcall, rfl⟩
    exact hm.exec call hcall

/-! ## What the indices answer -/

theorem mem_keysUnderAny (index : Index) (values : List JsString) (key : JsString) :
    key ∈ (StoreIndex.keysUnderAny index values).elems ↔ ∃ value ∈ values, Has index key value := by
  have hadds : ∀ (keys : List JsString) (set : JsSet JsString),
      key ∈ (keys.foldl .add set).elems ↔ key ∈ set.elems ∨ key ∈ keys := by
    intro keys
    induction keys with
    | nil => simp
    | cons k keys ih =>
      intro set
      rw [List.foldl_cons, ih, JsSet.mem_add, List.mem_cons]
      grind
  have hall : ∀ (values : List JsString) (set : JsSet JsString),
      key ∈ (values.foldl (fun set value => (StoreIndex.keysUnder index value).elems.foldl .add set)
        set).elems ↔ key ∈ set.elems ∨ ∃ value ∈ values, Has index key value := by
    intro values
    induction values with
    | nil => simp
    | cons value values ih =>
      intro set
      rw [List.foldl_cons, ih, hadds]
      simp only [Has, List.mem_cons]
      grind
  simpa [StoreIndex.keysUnderAny] using hall values .empty

theorem getKeysFromIndex_ok {s : StoreIndex α} {name : JsString} {f : ThreadSafeIndexFunc α}
    (hname : s.indexers.get name = some f) {obj : α} (hobj : ∃ values, f obj = .ok values) :
    ∃ keys, s.getKeysFromIndex name obj = .ok keys
      ∧ ∀ key, key ∈ keys.elems ↔ ∃ value ∈ valuesOf f obj, Has (s.indexOf name) key value := by
  simp only [StoreIndex.getKeysFromIndex, hname, ok_valuesOf hobj]
  split
  · rename_i err herr
    cases herr
  · rename_i value hvalue
    rw [Except.ok.inj hvalue]
    exact ⟨_, rfl, fun key => by simp [Has]⟩
  · rename_i values _ hvalues
    rw [Except.ok.inj hvalues]
    exact ⟨_, rfl, fun key => mem_keysUnderAny _ _ key⟩

/-- The items of keys that all have a truthy one. -/
theorem areAt_itemsAt {keys : JsSet JsString} {P : JsString → Prop} (hkeys : ∀ key, key ∈ keys.elems ↔ P key)
    (htruthy : ∀ key, P key → ∃ obj, m.items.get key = some obj ∧ objects.truthy obj = true) :
    m.AreAt (m.itemsAt objects keys) P := by
  refine ⟨keys.elems, keys.nodup, hkeys, ?_⟩
  have hall : ∀ key ∈ keys.elems, ∃ obj, m.items.get key = some obj ∧ objects.truthy obj = true :=
    fun key hkey => htruthy key ((hkeys key).mp hkey)
  unfold itemsAt
  generalize keys.elems = list at hall ⊢
  induction list with
  | nil => rfl
  | cons key rest ih =>
    obtain ⟨obj, hobj, htrue⟩ := hall key List.mem_cons_self
    simp only [List.filterMap_cons, hobj, List.filter_cons, htrue, if_true, List.map_cons]
    rw [ih fun k hk => hall k (List.mem_cons_of_mem _ hk)]

/-- **The indices answer what is stored exactly when no stored object that
has an index value is falsy**, after any sequence of calls. -/
theorem exact_iff (h : (threadSafeStore objects).Reach m) :
    m.Exact objects ↔ ∀ key obj, m.items.get key = some obj → objects.truthy obj = false →
      ∀ name f, m.storeIndex.indexers.get name = some f → valuesOf f obj = [] := by
  have hindexed := indexed_of_reach h
  constructor
  · intro hexact key obj hobj hfalsy name f hname
    by_contra hne
    obtain ⟨value, hvalue⟩ := List.exists_mem_of_ne_nil _ hne
    obtain ⟨keys, hkeys, -, hmem⟩ := hexact.indexKeys name f value hname
    have hkey : key ∈ keys := (hmem key).mpr ⟨obj, hobj, hvalue⟩
    simp only [ThreadSafeMap.indexKeys, StoreIndex.getKeysByIndex, hname, Except.map,
      Except.ok.injEq] at hkeys
    have hhas : Has (m.storeIndex.indexOf name) key value := by
      rw [Has, hkeys]
      exact hkey
    rw [hindexed.has name f hname key value, hobj] at hhas
    simp [yields, hfalsy] at hhas
  · intro htruthy
    have hhas : ∀ name f, m.storeIndex.indexers.get name = some f → ∀ value key,
        Has (m.storeIndex.indexOf name) key value ↔ m.Stored f value key := by
      intro name f hname value key
      rw [hindexed.has name f hname key value, Stored]
      cases hobj : m.items.get key with
      | none => simp [yields]
      | some obj =>
        cases htrue : objects.truthy obj with
        | true => simp [yields, htrue]
        | false => simp [yields, htrue, htruthy key obj hobj htrue name f hname]
    have hitem : ∀ name f, m.storeIndex.indexers.get name = some f → ∀ value key,
        m.Stored f value key → ∃ obj, m.items.get key = some obj ∧ objects.truthy obj = true := by
      rintro name f hname value key ⟨obj, hobj, hvalue⟩
      refine ⟨obj, hobj, ?_⟩
      by_contra hfalse
      rw [htruthy key obj hobj (by simpa using hfalse) name f hname] at hvalue
      cases hvalue
    refine ⟨?_, ?_, ?_, ?_⟩
    · intro name f value hname
      simp only [ThreadSafeMap.indexKeys, StoreIndex.getKeysByIndex, hname, Except.map]
      exact ⟨_, rfl, JsSet.nodup _, fun key => hhas name f hname value key⟩
    · intro name f value hname
      simp only [ThreadSafeMap.byIndex, StoreIndex.getKeysByIndex, hname, Except.map]
      exact ⟨_, rfl, areAt_itemsAt (fun key => hhas name f hname value key) (hitem name f hname value)⟩
    · intro name f hname
      refine ⟨JsMap.nodup_keys _, fun value => ?_⟩
      simp only [← hhas name f hname value]
      rw [ThreadSafeMap.listIndexFuncValues, StoreIndex.getIndexValues, JsMap.mem_keys_iff]
      constructor
      · rintro ⟨set, hset⟩
        obtain ⟨key, hkey⟩ := List.exists_mem_of_ne_nil _ (hindexed.noEmpty name value set hset)
        exact ⟨key, (JsMap.holds_of_get hset key).mpr hkey⟩
      · rintro ⟨key, hkey⟩
        rw [Has, StoreIndex.keysUnder] at hkey
        cases hset : (m.storeIndex.indexOf name).get value with
        | none => rw [hset] at hkey; cases hkey
        | some set => exact ⟨set, rfl⟩
    · intro name f obj hname
      obtain ⟨keys, hkeys, hmem⟩ := getKeysFromIndex_ok hname (hindexed.never name f hname obj)
      simp only [ThreadSafeMap.index, hkeys, Except.map]
      refine ⟨_, rfl, areAt_itemsAt (fun key => ?_) ?_⟩
      · simp only [hmem key, hhas name f hname]
      · rintro key ⟨value, -, hstored⟩
        exact hitem name f hname value key hstored

/-! ### Strings -/

/-- Strings, as objects. -/
def strings : Objects JsString where
  truthy obj := !obj.isEmpty
  resourceVersion _ := none

/-- An index under the string itself. -/
def testIndexers : JsMap JsString (ThreadSafeIndexFunc JsString) :=
  JsMap.empty.set (js "testIndexer") fun obj => .ok [obj]

theorem neverFails_testIndexers : NeverFails testIndexers := by
  intro name f hf obj
  rw [testIndexers, JsMap.get_set] at hf
  split at hf
  · cases hf
    exact ⟨[obj], rfl⟩
  · cases hf

/-- A new store and what the calls make of it. -/
def stringsAfter (calls : List (CacheCall JsString)) : ThreadSafeMap JsString :=
  calls.foldl (fun m call => (m.exec strings call).2) (.new testIndexers)

theorem reach_stringsAfter (calls : List (CacheCall JsString))
    (hcalls : ∀ newIndexers, .addIndexers newIndexers ∉ calls) :
    (threadSafeStore strings).Reach (stringsAfter calls) := by
  unfold stringsAfter
  have hstart : (threadSafeStore strings).Reach (.new testIndexers) :=
    .start ⟨testIndexers, neverFails_testIndexers, rfl⟩
  generalize (ThreadSafeMap.new testIndexers : ThreadSafeMap JsString) = m at hstart
  induction calls generalizing m with
  | nil => exact hstart
  | cons call calls ih =>
    refine ih (fun n hn => hcalls n (List.mem_cons_of_mem _ hn)) _ ?_
    refine hstart.step (l := call) ⟨fun n hn => ?_, rfl⟩
    exact absurd (hn ▸ List.mem_cons_self) (hcalls n)

/-- A string that is replaced and one that stays. -/
theorem exact_iff_strings :
    (stringsAfter [.add (js "k") (js "a"), .add (js "l") (js "b"), .update (js "k") (js "b")]).Exact
      strings := by
  refine (exact_iff (reach_stringsAfter _ (by simp))).mpr fun key obj hobj hfalsy => ?_
  have hall : ∀ entry ∈ (stringsAfter [.add (js "k") (js "a"), .add (js "l") (js "b"),
      .update (js "k") (js "b")]).items.entries, strings.truthy entry.2 = true := by decide
  rw [hall (key, obj) (JsMap.get_eq_some_iff.mp hobj)] at hfalsy
  cases hfalsy

/-- The empty string is stored and not indexed. -/
theorem emptyString_not_exact :
    (threadSafeStore strings).Reach (stringsAfter [.add (js "k") []])
      ∧ ¬ (stringsAfter [.add (js "k") []]).Exact strings := by
  refine ⟨reach_stringsAfter _ (by simp), fun h => ?_⟩
  obtain ⟨keys, hkeys, -, hmem⟩ := h.indexKeys (js "testIndexer") (fun obj => .ok [obj]) [] rfl
  have hnil : (stringsAfter [.add (js "k") []]).indexKeys (js "testIndexer") [] = .ok [] := rfl
  rw [hnil] at hkeys
  cases hkeys
  have hstored : js "k" ∈ ([] : List JsString) := (hmem (js "k")).mpr ⟨[], rfl, by simp [valuesOf]⟩
  cases hstored

end ThreadSafeMap

end Webernetes.ClientGo
