/-
Webernetes.Lru — `Cache` of `lru.ts`.

Recency is the order of a `KeyFnMap`: what is added or read is deleted and
set again, the oldest entry is the first. The map keeps copies of the keys,
but an entry keeps the key object it was added with, and it is by that
object that the oldest entry is deleted. So a key is the number of an object
of the caller's here (`World.objects`), which the caller may change.

`Lawful` is what a cache for `n` entries is to do: it is the `Recency` of
the calls made so far, over keys up to structural equality. It does so in
every run in which two keys that are equal have one string, and in which
the oldest entry's object still has the string it was kept under when that
entry is evicted (`lawful_of_reach`).
-/
import Webernetes.Base.Recency
import Webernetes.Base.Transition
import Webernetes.KeyFnMap

namespace Webernetes.Lru

open Js Base
open Js.Json (Same Reorder)

/-- `{ key: K; value: V }`, the key by its object. -/
structure Entry (V : Type) where
  key : Nat
  value : V
  deriving DecidableEq

structure Cache (N V : Type) where
  cache : KeyFnMap (Json N) (Entry V)
  maxEntries : Nat
  /-- An eviction function is set. -/
  onEvicted : Bool

/-- A copy holds what the object holds. -/
def structuredClone {N : Type} (value : Json N) : Json N := value

namespace Cache

variable {N V : Type}

/-- `new Cache(maxEntries)`. -/
def new (maxEntries : Nat) : Cache N V := ⟨.empty, maxEntries, false⟩

def withEvictionFunc (size : Nat) : Cache N V := { new size with onEvicted := true }

/-- The runs of `onEvicted?.(entry.key, entry.value)`. -/
def evicting (c : Cache N V) (entries : List (Entry V)) : List (Entry V) :=
  if c.onEvicted then entries else []

def len (c : Cache N V) : Nat := c.cache.size

def keys (c : Cache N V) : List (Json N) := c.cache.keys structuredClone

def clear (c : Cache N V) : Cache N V × List (Entry V) :=
  ({ c with cache := c.cache.clear }, c.evicting c.cache.values)

variable [NumberText N] (locale : Etcd.Locale) (objects : Nat → Json N)

/-- A cache after the call, and the runs of the eviction function. -/
def removeOldest (c : Cache N V) : Cache N V × List (Entry V) :=
  match c.cache.values.head? with
  | none => (c, [])
  | some oldest =>
    ({ c with cache := c.cache.delete (stableJSONStringify locale) (objects oldest.key) },
      c.evicting [oldest])

def add (c : Cache N V) (key : Nat) (value : V) : Cache N V × List (Entry V) :=
  let found := c.cache.has (stableJSONStringify locale) (objects key)
  let cache := if found then c.cache.delete (stableJSONStringify locale) (objects key) else c.cache
  let c := { c with
    cache := cache.set (stableJSONStringify locale) structuredClone (objects key) ⟨key, value⟩ }
  if c.maxEntries ≠ 0 ∧ c.cache.size > c.maxEntries then c.removeOldest locale objects else (c, [])

def get (c : Cache N V) (key : Nat) : Cache N V × Option V :=
  match c.cache.get (stableJSONStringify locale) (objects key) with
  | none => (c, none)
  | some entry =>
    let cache := c.cache.delete (stableJSONStringify locale) (objects key)
    ({ c with
      cache := cache.set (stableJSONStringify locale) structuredClone (objects key) entry },
      some entry.value)

def remove (c : Cache N V) (key : Nat) : Cache N V × List (Entry V) :=
  match c.cache.get (stableJSONStringify locale) (objects key) with
  | none => (c, [])
  | some entry =>
    ({ c with cache := c.cache.delete (stableJSONStringify locale) (objects key) },
      c.evicting [entry])

end Cache

/-! ## Keys up to structural equality -/

instance sameSetoid (N : Type) : Setoid (Json N) where
  r := Same
  iseqv := ⟨Same.refl, Same.symm, Same.trans⟩

/-- A key, whatever the order of members. -/
abbrev Key (N : Type) := Quotient (sameSetoid N)

noncomputable instance (N : Type) : DecidableEq (Key N) := Classical.decEq _

/-! ## Runs -/

inductive Act (N V : Type) where
  | add (key : Nat) (value : V)
  | get (key : Nat)
  | remove (key : Nat)
  | removeOldest
  | clear
  /-- The caller changes an object. -/
  | change (key : Nat) (content : Json N)

structure World (N V : Type) where
  objects : Nat → Json N
  lru : Cache N V
  /-- The runs of the eviction function, first to last. -/
  evicted : List (Entry V)
  /-- What `get` returned, first to last. -/
  answers : List (Option V)
  /-- The calls made, each with what its key held then. -/
  uses : List (Use (Key N) (Entry V))

variable {N V : Type}

def start (n : Nat) (objects : Nat → Json N) : World N V :=
  ⟨objects, .withEvictionFunc n, [], [], []⟩

section Runs

variable [NumberText N] (locale : Etcd.Locale)

def act (w : World N V) : Act N V → World N V
  | .add key value =>
    let (lru, evicted) := w.lru.add locale w.objects key value
    { w with
      lru
      evicted := w.evicted ++ evicted
      uses := w.uses ++ [.enter ⟦w.objects key⟧ ⟨key, value⟩] }
  | .get key =>
    let (lru, answer) := w.lru.get locale w.objects key
    { w with
      lru
      answers := w.answers ++ [answer]
      uses := w.uses ++ [.read ⟦w.objects key⟧] }
  | .remove key =>
    let (lru, evicted) := w.lru.remove locale w.objects key
    { w with
      lru
      evicted := w.evicted ++ evicted
      uses := w.uses ++ [.drop ⟦w.objects key⟧] }
  | .removeOldest =>
    let (lru, evicted) := w.lru.removeOldest locale w.objects
    { w with
      lru
      evicted := w.evicted ++ evicted
      uses := w.uses ++ [.dropOldest] }
  | .clear =>
    let (lru, evicted) := w.lru.clear
    { w with
      lru
      evicted := w.evicted ++ evicted
      uses := w.uses ++ [.dropAll] }
  | .change key content => { w with objects := fun k => if k = key then content else w.objects k }

def system (n : Nat) : System (World N V) (Act N V) where
  init w := ∃ objects, w = start n objects
  step w a w' := w' = act locale w a

end Runs

/-! ## What the cache is to do -/

/-- The entries under their keys, least to most recently used. -/
def Cache.contents (c : Cache N V) : List (Key N × Entry V) :=
  c.cache.items.entries.map fun entry => (⟦entry.2.key⟧, entry.2.value)

structure Lawful (n : Nat) (w : World N V) : Prop where
  len_le : w.lru.len ≤ n
  contents_eq : w.lru.contents = (Recency.after n w.uses).held
  keys_ordered : Recency.Ordered w.uses (w.lru.keys.map fun key => (⟦key⟧ : Key N))
  evicted_eq : w.evicted = (Recency.after n w.uses).left
  accounted : (entered w.uses).Perm
    (w.lru.cache.values ++ w.evicted ++ (Recency.after n w.uses).overwritten)
  answers_eq : w.answers = (Recency.after n w.uses).answers.map (Option.map Entry.value)

section Refinement

variable (locale : Etcd.Locale)

/-- Of the keys held, those equal to this one differ from it in the order of
members that are told apart only. -/
def TellsKey (objects : Nat → Json N) (c : Cache N V) (key : Nat) : Prop :=
  ∀ item ∈ c.cache.items.values, Same (objects key) item.key →
    Reorder (TellsApart locale) (objects key) item.key

/-- The object of the oldest entry is as its key was kept, up to the order
of members that are told apart. -/
def OldestKept (objects : Nat → Json N) (c : Cache N V) : Prop :=
  ∀ item, c.cache.items.values.head? = some item →
    Reorder (TellsApart locale) (objects item.value.key) item.key

def Allowed (w : World N V) : Act N V → Prop
  | .add key _ =>
    TellsKey locale w.objects w.lru key
      ∧ (w.lru.len = w.lru.maxEntries
        → (∀ item ∈ w.lru.cache.items.values, ¬ Same (w.objects key) item.key)
        → OldestKept locale w.objects w.lru)
  | .get key => TellsKey locale w.objects w.lru key
  | .remove key => TellsKey locale w.objects w.lru key
  | .removeOldest => OldestKept locale w.objects w.lru
  | .clear => True
  | .change _ _ => True

variable [NumberText N]

/-- The cache with an entry deleted and set again. -/
def Cache.renew (objects : Nat → Json N) (c : Cache N V) (key : Nat) (entry : Entry V) :
    Cache N V :=
  { c with
    cache := (c.cache.delete (stableJSONStringify locale) (objects key)).set
      (stableJSONStringify locale) structuredClone (objects key) entry }

/-- Every entry is kept under the string of its key. -/
def Stringed (c : Cache N V) : Prop :=
  ∀ entry ∈ c.cache.items.entries, entry.1 = stableJSONStringify locale entry.2.key

/-- The cache is what the calls have made of it. -/
structure Refines (n : Nat) (w : World N V) : Prop where
  maxEntries_eq : w.lru.maxEntries = n
  onEvicted_eq : w.lru.onEvicted = true
  stringed : Stringed locale w.lru
  contents_eq : w.lru.contents = (Recency.after n w.uses).held
  evicted_eq : w.evicted = (Recency.after n w.uses).left
  answers_eq : w.answers = (Recency.after n w.uses).answers.map (Option.map Entry.value)

variable {locale} {objects : Nat → Json N} {c : Cache N V} {key : Nat}

theorem string_eq_iff (hstringed : Stringed locale c) (htells : TellsKey locale objects c key) :
    ∀ entry ∈ c.cache.items.entries,
      entry.1 = stableJSONStringify locale (objects key)
        ↔ (⟦entry.2.key⟧ : Key N) = ⟦objects key⟧ := by
  intro entry hentry
  rw [hstringed entry hentry, eq_comm, stableJSONStringify_eq_iff, eq_comm, Quotient.eq]
  exact ⟨same_of_reorder, htells _ (List.mem_map_of_mem hentry)⟩

theorem map_filter_string (hstringed : Stringed locale c) (htells : TellsKey locale objects c key) :
    (c.cache.items.entries.filter fun entry =>
        entry.1 ≠ stableJSONStringify locale (objects key)).map
      (fun entry => ((⟦entry.2.key⟧ : Key N), entry.2.value))
      = without ⟦objects key⟧ c.contents := by
  rw [without, Cache.contents, List.filter_map]
  refine congrArg _ (List.filter_congr fun entry hentry => ?_)
  simpa using string_eq_iff hstringed htells entry hentry

theorem contents_delete (hstringed : Stringed locale c) (htells : TellsKey locale objects c key) :
    Cache.contents { c with
        cache := c.cache.delete (stableJSONStringify locale) (objects key) }
      = without ⟦objects key⟧ c.contents := map_filter_string hstringed htells

theorem contents_renew (hstringed : Stringed locale c) (htells : TellsKey locale objects c key)
    (entry : Entry V) :
    (c.renew locale objects key entry).contents
      = without ⟦objects key⟧ c.contents ++ [(⟦objects key⟧, entry)] := by
  rw [Cache.contents, Cache.renew, KeyFnMap.items_set_delete, List.map_append,
    map_filter_string hstringed htells]
  rfl

theorem get_eq_find (hstringed : Stringed locale c) (htells : TellsKey locale objects c key) :
    c.cache.get (stableJSONStringify locale) (objects key) = find ⟦objects key⟧ c.contents := by
  have hfind : c.cache.items.entries.find? (fun entry =>
        entry.1 = stableJSONStringify locale (objects key))
      = c.cache.items.entries.find? fun entry => (⟦entry.2.key⟧ : Key N) = ⟦objects key⟧ := by
    rw [← List.head?_filter, ← List.head?_filter]
    refine congrArg _ (List.filter_congr fun entry hentry => ?_)
    simpa using string_eq_iff hstringed htells entry hentry
  rw [KeyFnMap.get, JsMap.get, hfind, find, Cache.contents, List.find?_map, Option.map_map,
    Option.map_map]
  rfl

theorem contents_removeOldest (hstringed : Stringed locale c)
    (hkept : OldestKept locale objects c) :
    (c.removeOldest locale objects).1.contents = c.contents.drop 1
      ∧ (c.removeOldest locale objects).2 = c.evicting ((c.contents.take 1).map Prod.snd) := by
  cases hentries : c.cache.items.entries with
  | nil =>
    simp [Cache.removeOldest, Cache.contents, KeyFnMap.values, JsMap.values, hentries,
      Cache.evicting]
  | cons oldest entries =>
    have hstring : stableJSONStringify locale (objects oldest.2.value.key) = oldest.1 := by
      rw [hstringed oldest (by rw [hentries]; exact List.mem_cons_self), stableJSONStringify_eq_iff]
      exact hkept oldest.2 (by rw [JsMap.values, hentries]; rfl)
    have hhead : c.cache.values.head? = some oldest.2.value := by
      rw [KeyFnMap.values, JsMap.values, hentries]
      rfl
    simp only [Cache.removeOldest, hhead]
    simp only [Cache.contents, KeyFnMap.delete, hstring, JsMap.entries_delete_first hentries,
      hentries]
    exact ⟨rfl, rfl⟩

/-! ### One call -/

variable {n : Nat} {w : World N V}

omit [NumberText N] in
theorem len_eq (c : Cache N V) : c.len = c.contents.length := by
  simp [Cache.len, KeyFnMap.size, JsMap.size, Cache.contents]

theorem stringed_delete (h : Stringed locale c) (key : Json N) : Stringed locale { c with
    cache := c.cache.delete (stableJSONStringify locale) key } :=
  fun entry hentry => h entry (List.mem_of_mem_filter hentry)

theorem stringed_renew (h : Stringed locale c) (key : Nat) (entry : Entry V) :
    Stringed locale (c.renew locale objects key entry) := by
  intro kept hkept
  rw [Cache.renew, KeyFnMap.items_set_delete] at hkept
  rcases List.mem_append.mp hkept with hkept | hkept
  · exact h kept (List.mem_of_mem_filter hkept)
  · rw [List.mem_singleton.mp hkept]
    rfl

theorem stringed_removeOldest (h : Stringed locale c) :
    Stringed locale (c.removeOldest locale objects).1 := by
  rw [Cache.removeOldest]
  split
  · exact h
  · exact stringed_delete h _

theorem add_eq (c : Cache N V) (key : Nat) (value : V) : c.add locale objects key value
    = if c.maxEntries ≠ 0 ∧ (c.renew locale objects key ⟨key, value⟩).len > c.maxEntries then
        (c.renew locale objects key ⟨key, value⟩).removeOldest locale objects
      else (c.renew locale objects key ⟨key, value⟩, []) := by
  have hcache : (if c.cache.has (stableJSONStringify locale) (objects key) then
      c.cache.delete (stableJSONStringify locale) (objects key) else c.cache)
      = c.cache.delete (stableJSONStringify locale) (objects key) := by
    split
    · rfl
    · rename_i hhas
      exact (KeyFnMap.delete_of_not_has (by simpa using hhas)).symm
  simp only [Cache.add, hcache]
  rfl

/-- A key for which an old one has to go is a new one. -/
theorem not_same_of_full (htells : TellsKey locale objects c key) (hstringed : Stringed locale c)
    (hle : c.len ≤ n) {entry : Entry V} (hfull : n < (c.renew locale objects key entry).len) :
    c.len = n ∧ (∀ item ∈ c.cache.items.values, ¬ Same (objects key) item.key)
      ∧ (c.renew locale objects key entry).cache.items.entries = c.cache.items.entries
        ++ [(stableJSONStringify locale (objects key), ⟨objects key, entry⟩)] := by
  have hlength := List.length_filter_le
    (fun entry => decide (entry.1 ≠ stableJSONStringify locale (objects key))) c.cache.items.entries
  have hentries : (c.renew locale objects key entry).cache.items.entries = _ :=
    KeyFnMap.items_set_delete c.cache (objects key) entry
  rw [Cache.len, KeyFnMap.size, JsMap.size] at hle hfull
  rw [hentries, List.length_append, List.length_singleton] at hfull
  have hall : (c.cache.items.entries.filter fun entry =>
      entry.1 ≠ stableJSONStringify locale (objects key)) = c.cache.items.entries :=
    List.filter_sublist.eq_of_length_le (by omega)
  refine ⟨?_, fun item hitem hsame => ?_, ?_⟩
  · rw [Cache.len, KeyFnMap.size, JsMap.size]
    omega
  · obtain ⟨entry, hentry, rfl⟩ := List.mem_map.mp hitem
    have hne := List.filter_eq_self.mp hall entry hentry
    refine absurd ((string_eq_iff hstringed htells entry hentry).mpr ?_) (by simpa using hne)
    exact Quotient.sound hsame.symm
  · rw [hentries, hall]
    rfl

theorem add_of_room {value : V} (h : (c.renew locale objects key ⟨key, value⟩).len ≤ c.maxEntries) :
    c.add locale objects key value = (c.renew locale objects key ⟨key, value⟩, []) := by
  rw [add_eq, if_neg]
  rintro ⟨-, hmore⟩
  omega

/-- Then the oldest entry goes, which was there before. -/
theorem add_of_full {value : V} (hstringed : Stringed locale c) (hle : c.len ≤ c.maxEntries)
    (hmax : 1 ≤ c.maxEntries) (h : c.maxEntries < (c.renew locale objects key ⟨key, value⟩).len)
    (hok : TellsKey locale objects c key ∧ (c.len = c.maxEntries
      → (∀ item ∈ c.cache.items.values, ¬ Same (objects key) item.key)
      → OldestKept locale objects c)) :
    c.add locale objects key value
        = (c.renew locale objects key ⟨key, value⟩).removeOldest locale objects
      ∧ OldestKept locale objects (c.renew locale objects key ⟨key, value⟩) := by
  obtain ⟨htells, hkept⟩ := hok
  obtain ⟨hlen, hnew, hentries⟩ := not_same_of_full htells hstringed hle h
  refine ⟨?_, fun item hitem => hkept hlen hnew item ?_⟩
  · rw [add_eq, if_pos ⟨by omega, h⟩]
  · rw [JsMap.values, hentries] at hitem
    rw [JsMap.values]
    cases hold : c.cache.items.entries with
    | nil =>
      rw [Cache.len, KeyFnMap.size, JsMap.size, hold, List.length_nil] at hlen
      omega
    | cons oldest entries =>
      rw [hold] at hitem
      exact hitem

/-- A call that does with the entries what is to be done with them. -/
theorem Refines.call (h : Refines locale n w) {lru : Cache N V} {evicted : List (Entry V)}
    {answers : List (Option V)} {u : Use (Key N) (Entry V)}
    (hfields : lru.maxEntries = w.lru.maxEntries ∧ lru.onEvicted = w.lru.onEvicted)
    (hstringed : Stringed locale lru)
    (hcontents : lru.contents = ((Recency.after n w.uses).use n u).held)
    (hevicted : evicted = ((Recency.after n w.uses).use n u).left)
    (hanswers : answers = ((Recency.after n w.uses).use n u).answers.map (Option.map Entry.value)) :
    Refines locale n ⟨w.objects, lru, evicted, answers, w.uses ++ [u]⟩ where
  maxEntries_eq := hfields.1.trans h.maxEntries_eq
  onEvicted_eq := hfields.2.trans h.onEvicted_eq
  stringed := hstringed
  contents_eq := by rw [Recency.after_concat, hcontents]
  evicted_eq := by rw [Recency.after_concat, hevicted]
  answers_eq := by rw [Recency.after_concat, hanswers]

omit [NumberText N] in
theorem evicting_eq (h : c.onEvicted = true) (entries : List (Entry V)) :
    c.evicting entries = entries := if_pos h

theorem removeOldest_fields (c : Cache N V) :
    (c.removeOldest locale objects).1.maxEntries = c.maxEntries
      ∧ (c.removeOldest locale objects).1.onEvicted = c.onEvicted := by
  rw [Cache.removeOldest]
  split
  · exact ⟨rfl, rfl⟩
  · exact ⟨rfl, rfl⟩

theorem refines_add (hn : 1 ≤ n) (h : Refines locale n w) {value : V}
    (hok : Allowed locale w (.add key value)) :
    Refines locale n (act locale w (.add key value)) := by
  have hmax := h.maxEntries_eq
  have hlen : w.lru.len ≤ w.lru.maxEntries := by
    rw [len_eq, h.contents_eq, hmax]
    exact Recency.length_le n w.uses
  have hput : (w.lru.renew locale w.objects key ⟨key, value⟩).contents
      = ((Recency.after n w.uses).put ⟦w.objects key⟧ ⟨key, value⟩).held := by
    rw [contents_renew h.stringed hok.1, h.contents_eq]
    rfl
  have hrenewed : Stringed locale (w.lru.renew locale w.objects key ⟨key, value⟩) :=
    stringed_renew h.stringed key ⟨key, value⟩
  by_cases hfull : w.lru.maxEntries < (w.lru.renew locale w.objects key ⟨key, value⟩).len
  · obtain ⟨hadd, hkept⟩ := add_of_full h.stringed hlen (by omega) hfull hok
    obtain ⟨hcontents, hruns⟩ := contents_removeOldest hrenewed hkept
    rw [hput] at hcontents hruns
    have huse : (Recency.after n w.uses).use n (.enter ⟦w.objects key⟧ ⟨key, value⟩)
        = ((Recency.after n w.uses).put ⟦w.objects key⟧ ⟨key, value⟩).evictOldest := by
      rw [hmax] at hfull
      rw [Recency.use, ← hput, ← len_eq, if_pos hfull]
    simp only [act, hadd]
    refine h.call (removeOldest_fields _) (stringed_removeOldest hrenewed) ?_ ?_ ?_
    · rw [huse]
      exact hcontents
    · rw [huse, hruns, h.evicted_eq]
      exact congrArg _ (evicting_eq h.onEvicted_eq _)
    · rw [huse]
      exact h.answers_eq
  · have huse : (Recency.after n w.uses).use n (.enter ⟦w.objects key⟧ ⟨key, value⟩)
        = (Recency.after n w.uses).put ⟦w.objects key⟧ ⟨key, value⟩ := by
      rw [hmax] at hfull
      rw [Recency.use, ← hput, ← len_eq, if_neg hfull]
    simp only [act, add_of_room (Nat.le_of_not_lt hfull), List.append_nil]
    refine h.call ⟨rfl, rfl⟩ hrenewed ?_ ?_ ?_
    · rw [huse]
      exact hput
    · rw [huse]
      exact h.evicted_eq
    · rw [huse]
      exact h.answers_eq

theorem refines_get (h : Refines locale n w) (htells : TellsKey locale w.objects w.lru key) :
    Refines locale n (act locale w (.get key)) := by
  have hget := get_eq_find h.stringed htells
  rw [h.contents_eq] at hget
  cases hfind : find ⟦w.objects key⟧ (Recency.after n w.uses).held with
  | none =>
    rw [hfind] at hget
    simp only [act, Cache.get, hget]
    refine h.call ⟨rfl, rfl⟩ h.stringed ?_ ?_ ?_ <;> simp only [Recency.use, hfind]
    · exact h.contents_eq
    · exact h.evicted_eq
    · simp [h.answers_eq]
  | some entry =>
    rw [hfind] at hget
    simp only [act, Cache.get, hget]
    refine h.call ⟨rfl, rfl⟩ (stringed_renew h.stringed key entry) ?_ ?_ ?_
      <;> simp only [Recency.use, hfind]
    · rw [← h.contents_eq]
      exact contents_renew h.stringed htells entry
    · exact h.evicted_eq
    · simp [h.answers_eq]

theorem refines_remove (h : Refines locale n w) (htells : TellsKey locale w.objects w.lru key) :
    Refines locale n (act locale w (.remove key)) := by
  have hget := get_eq_find h.stringed htells
  rw [h.contents_eq] at hget
  cases hfind : find ⟦w.objects key⟧ (Recency.after n w.uses).held with
  | none =>
    rw [hfind] at hget
    simp only [act, Cache.remove, hget]
    refine h.call ⟨rfl, rfl⟩ h.stringed ?_ ?_ h.answers_eq
    · rw [Recency.use, Recency.without_of_find_eq_none hfind]
      exact h.contents_eq
    · rw [Recency.use, Recency.only_of_find_eq_none hfind, h.evicted_eq]
      rfl
  | some entry =>
    have honly := Recency.only_of_find (Recency.nodup_keys n w.uses) hfind
    rw [hfind] at hget
    simp only [act, Cache.remove, hget]
    refine h.call ⟨rfl, rfl⟩ (stringed_delete h.stringed _) ?_ ?_ h.answers_eq
    · rw [contents_delete h.stringed htells, h.contents_eq]
      rfl
    · rw [Recency.use, honly, evicting_eq h.onEvicted_eq, h.evicted_eq]
      rfl

theorem refines_removeOldest (h : Refines locale n w)
    (hkept : OldestKept locale w.objects w.lru) :
    Refines locale n (act locale w .removeOldest) := by
  obtain ⟨hcontents, hruns⟩ := contents_removeOldest h.stringed hkept
  rw [h.contents_eq] at hcontents hruns
  simp only [act]
  refine h.call (removeOldest_fields w.lru) (stringed_removeOldest h.stringed) hcontents ?_
    h.answers_eq
  rw [hruns, evicting_eq h.onEvicted_eq, h.evicted_eq]
  rfl

omit [NumberText N] in
theorem values_eq (c : Cache N V) : c.cache.values = c.contents.map Prod.snd := by
  simp [KeyFnMap.values, JsMap.values, Cache.contents]

theorem refines_clear (h : Refines locale n w) : Refines locale n (act locale w .clear) := by
  refine h.call ⟨rfl, rfl⟩ (fun entry hentry => ?_) rfl ?_ h.answers_eq
  · cases hentry
  · rw [evicting_eq h.onEvicted_eq, h.evicted_eq, values_eq, h.contents_eq]
    rfl

theorem refines_act (hn : 1 ≤ n) (h : Refines locale n w) {a : Act N V} (hok : Allowed locale w a) :
    Refines locale n (act locale w a) := by
  cases a with
  | add key value => exact refines_add hn h hok
  | get key => exact refines_get h hok
  | remove key => exact refines_remove h hok
  | removeOldest => exact refines_removeOldest h hok
  | clear => exact refines_clear h
  | change key content =>
    exact ⟨h.maxEntries_eq, h.onEvicted_eq, h.stringed, h.contents_eq, h.evicted_eq, h.answers_eq⟩

theorem refines_of_reach (hn : 1 ≤ n) (h : ((system locale n).guarded (Allowed locale)).Reach w) :
    Refines locale n w := by
  refine h.invariant (P := Refines locale n) ?_ ?_
  · rintro _ ⟨objects, rfl⟩
    refine ⟨rfl, rfl, fun entry hentry => ?_, rfl, rfl, rfl⟩
    cases hentry
  · rintro w a _ _ hrefines ⟨rfl, hok⟩
    exact refines_act hn hrefines hok

/-! ### Runs -/

theorem Refines.lawful (h : Refines locale n w) : Lawful n w where
  len_le := by
    rw [len_eq, h.contents_eq]
    exact Recency.length_le n w.uses
  contents_eq := h.contents_eq
  keys_ordered := by
    have hkeys : (w.lru.keys.map fun key => (⟦key⟧ : Key N)) = (Recency.after n w.uses).keys := by
      rw [Recency.keys, ← h.contents_eq]
      simp [Cache.keys, KeyFnMap.keys, JsMap.values, Cache.contents, structuredClone]
    rw [hkeys]
    exact Recency.ordered n w.uses
  evicted_eq := h.evicted_eq
  accounted := by
    rw [values_eq, h.contents_eq, h.evicted_eq]
    exact Recency.accounted n w.uses
  answers_eq := h.answers_eq

/-! ### A call that is not allowed -/

theorem Refines.nodup (h : Refines locale n w) : (w.lru.contents.map Prod.fst).Nodup := by
  rw [h.contents_eq]
  exact Recency.nodup_keys n w.uses

/-- An entry is missed whose key equals the key of the call. -/
theorem exists_missed (hstringed : Stringed locale c) (hnodup : (c.contents.map Prod.fst).Nodup)
    (hno : ¬ TellsKey locale objects c key) :
    (⟦objects key⟧ : Key N) ∈ c.contents.map Prod.fst
      ∧ ∀ entry ∈ c.cache.items.entries, entry.1 ≠ stableJSONStringify locale (objects key) := by
  simp only [TellsKey, not_forall] at hno
  obtain ⟨item, hitem, hsame, hapart⟩ := hno
  obtain ⟨missed, hmissed, rfl⟩ := List.mem_map.mp hitem
  have hclass : (⟦missed.2.key⟧ : Key N) = ⟦objects key⟧ := Quotient.sound hsame.symm
  rw [Cache.contents, List.map_map] at hnodup ⊢
  refine ⟨List.mem_map.mpr ⟨missed, hmissed, hclass⟩, fun entry hentry heq => ?_⟩
  rw [hstringed entry hentry, eq_comm, stableJSONStringify_eq_iff] at heq
  have hsame' : (⟦entry.2.key⟧ : Key N) = ⟦objects key⟧ := Quotient.sound (same_of_reorder heq).symm
  obtain rfl : entry = missed :=
    List.inj_on_of_nodup_map hnodup hentry hmissed (hsame'.trans hclass.symm)
  exact hapart heq

theorem entries_renew_of_missed
    (h : ∀ entry ∈ c.cache.items.entries, entry.1 ≠ stableJSONStringify locale (objects key))
    (entry : Entry V) : (c.renew locale objects key entry).cache.items.entries
      = c.cache.items.entries
        ++ [(stableJSONStringify locale (objects key), ⟨objects key, entry⟩)] := by
  rw [Cache.renew, KeyFnMap.items_set_delete,
    List.filter_eq_self.mpr fun kept hkept => by simpa using h kept hkept]
  rfl

theorem get_of_missed
    (h : ∀ entry ∈ c.cache.items.entries, entry.1 ≠ stableJSONStringify locale (objects key)) :
    c.cache.get (stableJSONStringify locale) (objects key) = none := by
  rw [KeyFnMap.get, Option.map_eq_none_iff, JsMap.get_eq_none_iff]
  intro hmem
  obtain ⟨entry, hentry, heq⟩ := List.mem_map.mp hmem
  exact h entry hentry heq

theorem not_lawful_get (h : Refines locale n w) (hno : ¬ TellsKey locale w.objects w.lru key) :
    ¬ Lawful n (act locale w (.get key)) := by
  intro hlawful
  obtain ⟨hmem, hmissed⟩ := exists_missed h.stringed h.nodup hno
  rw [h.contents_eq] at hmem
  have hanswers := hlawful.answers_eq
  simp only [act, Cache.get, get_of_missed hmissed, Recency.after_concat, Recency.use] at hanswers
  cases hfind : find ⟦w.objects key⟧ (Recency.after n w.uses).held with
  | none => exact Recency.find_eq_none hfind hmem
  | some entry => simp [hfind, h.answers_eq] at hanswers

theorem not_lawful_remove (h : Refines locale n w) (hno : ¬ TellsKey locale w.objects w.lru key) :
    ¬ Lawful n (act locale w (.remove key)) := by
  intro hlawful
  obtain ⟨hmem, hmissed⟩ := exists_missed h.stringed h.nodup hno
  have hcontents := hlawful.contents_eq
  simp only [act, Cache.remove, get_of_missed hmissed, Recency.after_concat, Recency.use]
    at hcontents
  rw [hcontents, Recency.keys_without] at hmem
  exact absurd (List.of_mem_filter hmem) (by simp)

/-- The oldest entry stays where its object has become another key. -/
theorem contents_removeOldest_ne (hstringed : Stringed locale c)
    (hnodup : (c.contents.map Prod.fst).Nodup) (hno : ¬ OldestKept locale objects c) :
    (c.removeOldest locale objects).1.contents ≠ c.contents.drop 1 := by
  simp only [OldestKept, not_forall] at hno
  obtain ⟨item, hhead, hapart⟩ := hno
  cases hentries : c.cache.items.entries with
  | nil =>
    rw [JsMap.values, hentries] at hhead
    cases hhead
  | cons oldest entries =>
    rw [JsMap.values, hentries] at hhead
    obtain rfl : oldest.2 = item := Option.some.inj hhead
    have hvalue : c.cache.values.head? = some oldest.2.value := by
      rw [KeyFnMap.values, JsMap.values, hentries]
      rfl
    have hstring : oldest.1 ≠ stableJSONStringify locale (objects oldest.2.value.key) := by
      rw [hstringed oldest (by rw [hentries]; exact List.mem_cons_self)]
      exact fun heq => hapart (stableJSONStringify_eq_iff.mp heq.symm)
    intro heq
    have hstays : ((⟦oldest.2.key⟧ : Key N), oldest.2.value)
        ∈ (c.removeOldest locale objects).1.contents := by
      simp only [Cache.removeOldest, hvalue]
      refine List.mem_map.mpr ⟨oldest, List.mem_filter.mpr ⟨?_, by simpa using hstring⟩, rfl⟩
      rw [hentries]
      exact List.mem_cons_self
    rw [heq] at hstays
    simp only [Cache.contents, hentries, List.map_cons, List.nodup_cons, List.drop_one,
      List.tail_cons] at hnodup hstays
    exact hnodup.1 (List.mem_map.mpr ⟨_, hstays, rfl⟩)

theorem not_lawful_removeOldest (h : Refines locale n w)
    (hno : ¬ OldestKept locale w.objects w.lru) : ¬ Lawful n (act locale w .removeOldest) := by
  intro hlawful
  refine contents_removeOldest_ne h.stringed h.nodup hno ?_
  have hcontents := hlawful.contents_eq
  simp only [act, Recency.after_concat, Recency.use] at hcontents
  rw [hcontents, h.contents_eq]
  rfl

theorem removeOldest_runs (locale : Etcd.Locale) (objects : Nat → Json N) {c : Cache N V}
    (hon : c.onEvicted = true) (h : c.cache.items.entries ≠ []) :
    ∃ entry, (c.removeOldest locale objects).2 = [entry] := by
  cases hentries : c.cache.items.entries with
  | nil => exact absurd hentries h
  | cons oldest entries =>
    have hvalue : c.cache.values.head? = some oldest.2.value := by
      rw [KeyFnMap.values, JsMap.values, hentries]
      rfl
    simp only [Cache.removeOldest, hvalue, evicting_eq hon]
    exact ⟨_, rfl⟩

/-- A key that is missed is there twice, or an entry is reported that is
overwritten. -/
theorem not_lawful_add_missed (h : Refines locale n w) {value : V}
    (hno : ¬ TellsKey locale w.objects w.lru key) : ¬ Lawful n (act locale w (.add key value)) := by
  intro hlawful
  obtain ⟨hmem, hmissed⟩ := exists_missed h.stringed h.nodup hno
  have hentries := entries_renew_of_missed hmissed ⟨key, value⟩
  by_cases hfull : w.lru.maxEntries ≠ 0
      ∧ (w.lru.renew locale w.objects key ⟨key, value⟩).len > w.lru.maxEntries
  · have hevicted := hlawful.evicted_eq
    rw [h.contents_eq] at hmem
    simp only [act, add_eq, if_pos hfull, Recency.after_concat,
      Recency.use_enter_of_mem (Recency.length_le n w.uses) hmem] at hevicted
    have hsome : (w.lru.renew locale w.objects key ⟨key, value⟩).cache.items.entries ≠ [] := by
      rw [hentries]
      exact List.append_ne_nil_of_right_ne_nil _ (List.cons_ne_nil _ _)
    have hon : (w.lru.renew locale w.objects key ⟨key, value⟩).onEvicted = true := h.onEvicted_eq
    obtain ⟨entry, hruns⟩ := removeOldest_runs locale w.objects hon hsome
    rw [hruns, h.evicted_eq] at hevicted
    exact absurd (congrArg List.length hevicted) (by simp [Recency.put])
  · have hcontents : (act locale w (.add key value)).lru.contents
        = w.lru.contents ++ [(⟦w.objects key⟧, ⟨key, value⟩)] := by
      simp only [act, add_eq, if_neg hfull]
      rw [Cache.contents, hentries, List.map_append]
      rfl
    have hnodup : ((act locale w (.add key value)).lru.contents.map Prod.fst).Nodup := by
      rw [hlawful.contents_eq]
      exact Recency.nodup_keys n _
    rw [hcontents, List.map_append] at hnodup
    exact (List.disjoint_of_nodup_append hnodup) hmem (by simp)

/-- The oldest entry stays, and the cache is overfull. -/
theorem not_lawful_add_changed (hn : 1 ≤ n) (h : Refines locale n w) {value : V}
    (htells : TellsKey locale w.objects w.lru key) (hlen : w.lru.len = w.lru.maxEntries)
    (hnew : ∀ item ∈ w.lru.cache.items.values, ¬ Same (w.objects key) item.key)
    (hno : ¬ OldestKept locale w.objects w.lru) : ¬ Lawful n (act locale w (.add key value)) := by
  intro hlawful
  have hmax := h.maxEntries_eq
  have hput := contents_renew h.stringed htells ⟨key, value⟩
  have hmissed : ∀ entry ∈ w.lru.cache.items.entries,
      entry.1 ≠ stableJSONStringify locale (w.objects key) := by
    intro entry hentry heq
    have hclass := (string_eq_iff h.stringed htells entry hentry).mp heq
    exact hnew entry.2 (List.mem_map_of_mem hentry) (Quotient.exact hclass.symm)
  have hentries := entries_renew_of_missed hmissed ⟨key, value⟩
  have hfull : (w.lru.renew locale w.objects key ⟨key, value⟩).len = w.lru.maxEntries + 1 := by
    rw [← hlen, Cache.len, KeyFnMap.size, JsMap.size, hentries, List.length_append]
    rfl
  have hrenewed : Stringed locale (w.lru.renew locale w.objects key ⟨key, value⟩) :=
    stringed_renew h.stringed key ⟨key, value⟩
  have hnodup : ((w.lru.renew locale w.objects key ⟨key, value⟩).contents.map Prod.fst).Nodup := by
    have htouch := (Recency.ordered n w.uses).touch
      (u := Use.enter ⟦w.objects key⟧ (Entry.mk key value)) rfl
    rw [hput, h.contents_eq, List.map_append, Recency.keys_without]
    exact htouch.nodup
  have hchanged :
      ¬ OldestKept locale w.objects (w.lru.renew locale w.objects key ⟨key, value⟩) := by
    refine fun hkept => hno fun item hitem => hkept item ?_
    rw [JsMap.values] at hitem ⊢
    rw [hentries, List.map_append, List.head?_append, hitem]
    rfl
  refine contents_removeOldest_ne hrenewed hnodup hchanged ?_
  have hcontents := hlawful.contents_eq
  simp only [act, add_eq, Recency.after_concat] at hcontents
  rw [if_pos ⟨by omega, by omega⟩] at hcontents
  have hover : n < ((Recency.after n w.uses).put ⟦w.objects key⟧ ⟨key, value⟩).held.length := by
    rw [Recency.put, ← h.contents_eq, ← hput, ← len_eq]
    omega
  rw [hcontents, Recency.use, if_pos hover, hput, h.contents_eq]
  rfl

example : ([Act.add 0 7, .change 0 .null, .add 1 8].foldl (act Etcd.rootLocale)
    (start 1 fun key => (.bool (key = 0) : Json Nat))).lru.len = 2 := by decide

theorem allowed_of_lawful (hn : 1 ≤ n) (h : Refines locale n w) {a : Act N V}
    (hlawful : Lawful n (act locale w a)) : Allowed locale w a := by
  by_contra hno
  cases a with
  | add key value =>
    by_cases htells : TellsKey locale w.objects w.lru key
    · simp only [Allowed, htells, true_and, not_forall] at hno
      obtain ⟨hlen, hnew, hchanged⟩ := hno
      exact not_lawful_add_changed hn h htells hlen hnew hchanged hlawful
    · exact not_lawful_add_missed h htells hlawful
  | get key => exact not_lawful_get h hno hlawful
  | remove key => exact not_lawful_remove h hno hlawful
  | removeOldest => exact not_lawful_removeOldest h hno hlawful
  | clear => exact hno trivial
  | change key content => exact hno trivial

/-! ### The result -/

/-- In every run in which equal keys have one string, and in which an entry
that is evicted has its object as it was kept, the cache holds the keys used
last, in the order of their last uses, and every entry that leaves is
reported once. The first call of which this is not so ends that. -/
theorem lawful_iff_allowed {N V : Type} [NumberText N] (locale : Etcd.Locale) {n : Nat} (hn : 1 ≤ n)
    {w : World N V} (h : ((system locale n).guarded (Allowed locale)).Reach w) :
    Lawful n w ∧ ∀ a, Lawful n (act locale w a) ↔ Allowed locale w a := by
  have hrefines := refines_of_reach hn h
  refine ⟨hrefines.lawful, fun a => ⟨allowed_of_lawful hn hrefines, fun hok => ?_⟩⟩
  exact (refines_act hn hrefines hok).lawful

end Refinement

/-- One key in two orders of its members. -/
def reordered : Nat → Json Nat
  | 0 => .object [(js "a", .bool true), (js "b", .bool false)]
  | _ => .object [(js "b", .bool false), (js "a", .bool true)]

theorem reorder_reordered : Reorder (TellsApart Etcd.rootLocale) (reordered 1) (reordered 0) := by
  have hapart : TellsApart Etcd.rootLocale (js "b") (js "a") := by decide
  exact .swaps (.swap [] hapart)

theorem reach_reordered : ((system Etcd.rootLocale 1).guarded (Allowed Etcd.rootLocale)).Reach
    ([Act.add 0 7, .get 1].foldl (act Etcd.rootLocale) (start 1 reordered)) := by
  have hstart : ((system Etcd.rootLocale 1).guarded (Allowed Etcd.rootLocale)).Reach
      (start 1 reordered : World Nat Nat) := .start ⟨reordered, rfl⟩
  have hadd : Allowed Etcd.rootLocale (start 1 reordered) (.add 0 7) := by
    refine ⟨fun item hitem => ?_, fun hlen => ?_⟩
    · cases hitem
    · cases hlen
  have hget :
      Allowed Etcd.rootLocale (act Etcd.rootLocale (start 1 reordered) (.add 0 7)) (.get 1) := by
    intro item hitem _
    obtain rfl := List.mem_singleton.mp hitem
    exact reorder_reordered
  have hfirst := hstart.step (l := .add 0 7) ⟨rfl, hadd⟩
  exact hfirst.step (l := .get 1) ⟨rfl, hget⟩

theorem lawful_iff_allowed_reordered :
    Lawful 1 ([Act.add 0 7, .get 1].foldl (act Etcd.rootLocale) (start 1 reordered))
      ∧ ∀ a, Lawful 1 (act Etcd.rootLocale
          ([Act.add 0 7, .get 1].foldl (act Etcd.rootLocale) (start 1 reordered)) a)
        ↔ Allowed Etcd.rootLocale
          ([Act.add 0 7, .get 1].foldl (act Etcd.rootLocale) (start 1 reordered)) a :=
  lawful_iff_allowed Etcd.rootLocale (by decide) reach_reordered

/-- One key in two orders, with names that the collation takes for one. -/
def tied : Nat → Json Nat
  | 0 => .object [([0xE9], .bool true), ([0x65, 0x301], .bool false)]
  | _ => .object [([0x65, 0x301], .bool false), ([0xE9], .bool true)]

theorem not_lawful_tied : Same (tied 0) (tied 1)
    ∧ ([Act.add 0 7, .add 1 8].foldl (act Etcd.rootLocale) (start 2 tied)).lru.len = 2
    ∧ ¬ Lawful 2 ([Act.add 0 7, .add 1 8].foldl (act Etcd.rootLocale) (start 2 tied)) := by
  have hne : ([0xE9] : JsString) ≠ [0x65, 0x301] := by decide
  have hsame : Same (tied 0) (tied 1) := Reorder.swaps (.swap [] hne)
  refine ⟨hsame, by decide, fun hlawful => ?_⟩
  have hstart : Refines Etcd.rootLocale 2 (start 2 tied : World Nat Nat) :=
    refines_of_reach (by decide) (.start ⟨tied, rfl⟩)
  have hfirst : Refines Etcd.rootLocale 2 (act Etcd.rootLocale (start 2 tied) (.add 0 7)) := by
    refine refines_add (by decide) hstart ⟨fun item hitem => ?_, fun hlen => ?_⟩
    · cases hitem
    · cases hlen
  have hok : Allowed Etcd.rootLocale (act Etcd.rootLocale (start 2 tied) (.add 0 7)) (.add 1 8) :=
    allowed_of_lawful (by decide) hfirst hlawful
  have htells := hok.1 _ (List.mem_singleton.mpr rfl) hsame.symm
  exact absurd (stableJSONStringify_eq_iff.mpr htells) (by decide)

end Webernetes.Lru
