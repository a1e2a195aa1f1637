/-
Webernetes.Base.LazyQueue — a queue of keys beside a store of values,
where a removal leaves the key's place in the queue.

A key that is put while it has a value keeps its place; one that has
none goes to the end. A removal forgets the value and leaves the key
where it stands, so a key can stand in the queue without a value, and
twice. The first key of the queue is taken with its value or, when it has
none, skipped.

`replay` is what a log leaves, `Lawful` says that a log skips and takes
nothing but the first key. Of a lawful log:

* a key with a value stands in the queue (`mem_keys_of_stored`);
* a key is taken with the value stored last, and not again before it is
  stored again (`latest_iff`, `Lawful.take_latest`);
* of two keys the one that stands first in the queue is taken first,
  while it keeps a value (`Lawful.not_take_before`), and no later than
  its place says (`Lawful.taken_add_place`).
-/
import Webernetes.Base.History
import Mathlib.Data.List.Basic
import Mathlib.Data.List.Induction
import Mathlib.Tactic.Common

namespace Webernetes.Base.LazyQueue

variable {κ ν : Type}

inductive Event (κ ν : Type) where
  | put (key : κ) (value : ν)
  | remove (key : κ)
  | reset (entries : List (κ × ν))
  | skip (key : κ)
  | take (key : κ) (value : ν)
  deriving DecidableEq

/-- The keys in the order of the queue and the value of each, if it has
one. -/
structure Queue (κ ν : Type) where
  keys : List κ
  value : κ → Option ν

def Queue.empty : Queue κ ν := ⟨[], fun _ => none⟩

/-- The event takes the first key off the queue. -/
def Event.shifts : Event κ ν → Bool
  | .skip _ => true
  | .take _ _ => true
  | _ => false

variable [DecidableEq κ]

/-- The value the entries give a key. -/
def valueIn (entries : List (κ × ν)) (key : κ) : Option ν :=
  (entries.find? (·.1 = key)).map Prod.snd

/-- What the event makes of the value of a key. -/
def Event.valueOf (e : Event κ ν) (key : κ) (old : Option ν) : Option ν :=
  match e with
  | .put k v => if k = key then some v else old
  | .remove k => if k = key then none else old
  | .reset entries => valueIn entries key
  | .skip _ => old
  | .take k _ => if k = key then none else old

def Queue.apply (q : Queue κ ν) (e : Event κ ν) : Queue κ ν where
  keys :=
    match e with
    | .put key _ => if (q.value key).isSome then q.keys else q.keys ++ [key]
    | .remove _ => q.keys
    | .reset entries => entries.map Prod.fst
    | .skip _ => q.keys.tail
    | .take _ _ => q.keys.tail
  value key := e.valueOf key (q.value key)

def replay (log : List (Event κ ν)) : Queue κ ν := log.foldl Queue.apply .empty

@[simp] theorem replay_snoc (log : List (Event κ ν)) (e : Event κ ν) :
    replay (log ++ [e]) = (replay log).apply e := by
  rw [replay, List.foldl_append]
  rfl

/-- What may be skipped or taken: the first key, by whether it has a
value. -/
def Queue.Allows (q : Queue κ ν) : Event κ ν → Prop
  | .skip key => q.keys.head? = some key ∧ q.value key = none
  | .take key value => q.keys.head? = some key ∧ q.value key = some value
  | _ => True

/-- Every event of the log was allowed when it came. -/
def Lawful (log : List (Event κ ν)) : Prop :=
  ∀ before e after, log = before ++ e :: after → (replay before).Allows e

theorem lawful_nil : Lawful ([] : List (Event κ ν)) := Throughout.nil

theorem Lawful.snoc {log : List (Event κ ν)} {e : Event κ ν} (h : Lawful log)
    (he : (replay log).Allows e) : Lawful (log ++ [e]) :=
  Throughout.snoc h he

theorem Lawful.of_append {log later : List (Event κ ν)} (h : Lawful (log ++ later)) :
    Lawful log :=
  Throughout.of_append h

theorem Lawful.allows {log : List (Event κ ν)} {e : Event κ ν} (h : Lawful (log ++ [e])) :
    (replay log).Allows e :=
  Throughout.last h

/-! ## The value of a key -/

/-- The event stores the value under the key. -/
def Event.Stores (key : κ) (value : ν) : Event κ ν → Prop
  | .put k v => k = key ∧ v = value
  | .reset entries => valueIn entries key = some value
  | _ => False

/-- The event leaves the key's value as it is. -/
def Event.Keeps (key : κ) : Event κ ν → Prop
  | .put k _ => k ≠ key
  | .remove k => k ≠ key
  | .reset _ => False
  | .skip _ => True
  | .take k _ => k ≠ key

theorem Event.Keeps.valueOf {e : Event κ ν} {key : κ} (h : e.Keeps key) (old : Option ν) :
    e.valueOf key old = old := by
  cases e with
  | put k v => exact if_neg h
  | remove k => exact if_neg h
  | reset entries => exact absurd h id
  | skip k => rfl
  | take k v => exact if_neg h

/-- An event that leaves a key a value stores it or keeps it. -/
theorem Event.stores_or_keeps {e : Event κ ν} {key : κ} {old : Option ν} {value : ν}
    (h : e.valueOf key old = some value) : e.Stores key value ∨ e.Keeps key ∧ old = some value := by
  cases e with
  | put k v =>
    by_cases hk : k = key
    · exact Or.inl ⟨hk, by simpa [Event.valueOf, hk] using h⟩
    · exact Or.inr ⟨hk, by simpa [Event.valueOf, hk] using h⟩
  | remove k =>
    by_cases hk : k = key
    · simp [Event.valueOf, hk] at h
    · exact Or.inr ⟨hk, by simpa [Event.valueOf, hk] using h⟩
  | reset entries => exact Or.inl h
  | skip k => exact Or.inr ⟨trivial, h⟩
  | take k v =>
    by_cases hk : k = key
    · simp [Event.valueOf, hk] at h
    · exact Or.inr ⟨hk, by simpa [Event.valueOf, hk] using h⟩

theorem Event.Stores.valueOf {e : Event κ ν} {key : κ} {value : ν} (h : e.Stores key value)
    (old : Option ν) : e.valueOf key old = some value := by
  cases e with
  | put k v =>
    obtain ⟨rfl, rfl⟩ := h
    exact if_pos rfl
  | reset entries => exact h
  | remove k => exact absurd h id
  | skip k => exact absurd h id
  | take k v => exact absurd h id

/-- The value of a key is the one stored last, unless it was removed or
taken since. -/
theorem latest_iff {log : List (Event κ ν)} {key : κ} {value : ν} :
    (replay log).value key = some value
      ↔ ∃ before e after, log = before ++ e :: after ∧ e.Stores key value
        ∧ ∀ f ∈ after, f.Keeps key := by
  constructor
  · intro h
    induction log using List.reverseRecOn with
    | nil => cases h
    | append_singleton log e ih =>
      rw [replay_snoc] at h
      rcases Event.stores_or_keeps h with hstores | ⟨hkeeps, hold⟩
      · exact ⟨log, e, [], rfl, hstores, by simp⟩
      · obtain ⟨before, f, after, rfl, hstores, hall⟩ := ih hold
        refine ⟨before, f, after ++ [e], by simp, hstores, ?_⟩
        intro g hg
        rcases List.mem_append.mp hg with hg | hg
        · exact hall g hg
        · rw [List.mem_singleton.mp hg]
          exact hkeeps
  · intro ⟨before, e, after, hlog, hstores, hall⟩
    subst hlog
    induction after using List.reverseRecOn with
    | nil =>
      rw [replay_snoc]
      exact hstores.valueOf _
    | append_singleton after f ih =>
      have hassoc : before ++ e :: (after ++ [f]) = (before ++ e :: after) ++ [f] := by simp
      have hf := hall f (List.mem_append_right _ (List.mem_singleton_self f))
      rw [hassoc, replay_snoc]
      exact (hf.valueOf _).trans (ih fun g hg => hall g (List.mem_append_left _ hg))

/-- A key is taken with the value stored last. -/
theorem Lawful.take_latest {before after : List (Event κ ν)} {key : κ} {value : ν}
    (h : Lawful (before ++ .take key value :: after)) : (replay before).value key = some value :=
  (h before (.take key value) after rfl).2

/-! ## The place of a key -/

theorem mem_map_fst_of_valueIn {entries : List (κ × ν)} {key : κ}
    (h : (valueIn entries key).isSome = true) : key ∈ entries.map Prod.fst := by
  rw [valueIn, Option.isSome_map, List.find?_isSome] at h
  obtain ⟨entry, hmem, hkey⟩ := h
  exact List.mem_map.mpr ⟨entry, hmem, of_decide_eq_true hkey⟩

/-- The first key of the queue is not one that keeps its value. -/
theorem Queue.Allows.head_ne {q : Queue κ ν} {e : Event κ ν} {key : κ} (h : q.Allows e)
    (hold : (q.value key).isSome = true) (hstill : ((q.apply e).value key).isSome = true)
    (hshift : e.shifts = true) : ∃ first rest, q.keys = first :: rest ∧ first ≠ key := by
  cases e with
  | put k v => cases hshift
  | remove k => cases hshift
  | reset entries => cases hshift
  | skip k =>
    obtain ⟨rest, hkeys⟩ := List.head?_eq_some_iff.mp h.1
    refine ⟨k, rest, hkeys, ?_⟩
    rintro rfl
    rw [h.2] at hold
    cases hold
  | take k v =>
    obtain ⟨rest, hkeys⟩ := List.head?_eq_some_iff.mp h.1
    refine ⟨k, rest, hkeys, ?_⟩
    rintro rfl
    simp [Queue.apply, Event.valueOf] at hstill

/-- A key with a value stands in the queue. -/
theorem mem_keys_of_stored {log : List (Event κ ν)} (h : Lawful log) {key : κ}
    (hstored : ((replay log).value key).isSome = true) : key ∈ (replay log).keys := by
  induction log using List.reverseRecOn generalizing key with
  | nil => cases hstored
  | append_singleton log e ih =>
    have ih := @ih h.of_append key
    have hallows := h.allows
    rw [replay_snoc] at hstored ⊢
    cases e with
    | put k v =>
      show key ∈ if _ then _ else _
      by_cases hk : k = key
      · subst hk
        split
        · exact ih ‹_›
        · simp
      · have hold : ((replay log).value key).isSome = true := by
          simpa [Queue.apply, Event.valueOf, hk] using hstored
        split
        · exact ih hold
        · exact List.mem_append_left _ (ih hold)
    | remove k =>
      by_cases hk : k = key
      · simp [Queue.apply, Event.valueOf, hk] at hstored
      · have hold : ((replay log).value key).isSome = true := by
          simpa [Queue.apply, Event.valueOf, hk] using hstored
        exact ih hold
    | reset entries => exact mem_map_fst_of_valueIn hstored
    | skip k =>
      have hmem := ih hstored
      obtain ⟨first, rest, hkeys, hne⟩ := hallows.head_ne hstored hstored rfl
      show key ∈ (replay log).keys.tail
      rw [hkeys] at hmem ⊢
      exact (List.mem_cons.mp hmem).resolve_left (Ne.symm hne)
    | take k v =>
      have hold : ((replay log).value key).isSome = true := by
        by_cases hk : k = key
        · simp [Queue.apply, Event.valueOf, hk] at hstored
        · simpa [Queue.apply, Event.valueOf, hk] using hstored
      have hmem := ih hold
      obtain ⟨first, rest, hkeys, hne⟩ := hallows.head_ne hold hstored rfl
      show key ∈ (replay log).keys.tail
      rw [hkeys] at hmem ⊢
      exact (List.mem_cons.mp hmem).resolve_left (Ne.symm hne)

/-- Where the key stands first, the length of the queue when it does not. -/
def Queue.place (q : Queue κ ν) (key : κ) : Nat := q.keys.idxOf key

/-- The key has a value after every part of `later`, which resets nothing. -/
def Stays (log later : List (Event κ ν)) (key : κ) : Prop :=
  (∀ now rest, later = now ++ rest → ((replay (log ++ now)).value key).isSome = true)
    ∧ ∀ entries, Event.reset entries ∉ later

theorem Stays.of_snoc {log later : List (Event κ ν)} {e : Event κ ν} {key : κ}
    (h : Stays log (later ++ [e]) key) : Stays log later key := by
  constructor
  · intro now rest hsplit
    refine h.1 now (rest ++ [e]) ?_
    rw [hsplit]
    simp
  · intro entries hmem
    exact h.2 entries (List.mem_append_left _ hmem)

theorem Stays.now {log later : List (Event κ ν)} {key : κ} (h : Stays log later key) :
    ((replay (log ++ later)).value key).isSome = true :=
  h.1 later [] (List.append_nil later).symm

/-- How many keys a log took off the queue. -/
def shifted (log : List (Event κ ν)) : Nat := log.countP Event.shifts

omit [DecidableEq κ] in
@[simp] theorem shifted_append (log later : List (Event κ ν)) :
    shifted (log ++ later) = shifted log + shifted later :=
  List.countP_append

/-- What one event does to the place of a key that keeps its value, and
to that of a key behind it. -/
theorem Queue.Allows.place {q : Queue κ ν} {e : Event κ ν} {key : κ} (h : q.Allows e)
    (hmem : key ∈ q.keys) (hold : (q.value key).isSome = true)
    (hstill : ((q.apply e).value key).isSome = true) (hreset : ∀ entries, e ≠ .reset entries) :
    (q.apply e).place key + (if e.shifts then 1 else 0) = q.place key
      ∧ ∀ other, q.place key < q.place other → (q.apply e).place key < (q.apply e).place other := by
  have htail : e.shifts = true → (q.apply e).keys = q.keys.tail →
      (q.apply e).place key + 1 = q.place key
        ∧ ∀ other, q.place key < q.place other →
          (q.apply e).place key < (q.apply e).place other := by
    intro hshift hkeys
    obtain ⟨first, rest, hfirst, hne⟩ := h.head_ne hold hstill hshift
    have hmove : ∀ other, first ≠ other → q.place other = (q.apply e).place other + 1 := by
      intro other hother
      rw [Queue.place, Queue.place, hkeys, hfirst, List.tail_cons,
        List.idxOf_cons_ne rest hother]
    have hkey := hmove key hne
    refine ⟨hkey.symm, ?_⟩
    intro other hlt
    by_cases hother : first = other
    · rw [← hother, Queue.place, Queue.place, hfirst, List.idxOf_cons_self] at hlt
      omega
    · have := hmove other hother
      omega
  cases e with
  | put k v =>
    simp only [Event.shifts, Bool.false_eq_true, if_false, Nat.add_zero, Queue.place, Queue.apply]
    split
    · exact ⟨rfl, fun other hlt => hlt⟩
    · refine ⟨List.idxOf_append_of_mem hmem, ?_⟩
      intro other hlt
      rw [List.idxOf_append_of_mem hmem]
      by_cases hother : other ∈ q.keys
      · rwa [List.idxOf_append_of_mem hother]
      · have hlength := List.idxOf_lt_length_of_mem hmem
        rw [List.idxOf_append_of_notMem hother]
        omega
  | remove k => exact ⟨rfl, fun other hlt => hlt⟩
  | reset entries => exact absurd rfl (hreset entries)
  | skip k => exact htail rfl rfl
  | take k v => exact htail rfl rfl

/-- While a key keeps a value its place counts down with the keys that
are taken off, and what stood behind it stays behind. -/
theorem Lawful.taken_add_place {log later : List (Event κ ν)} {key : κ}
    (h : Lawful (log ++ later)) (hstays : Stays log later key) :
    shifted later + (replay (log ++ later)).place key = (replay log).place key
      ∧ ∀ other, (replay log).place key < (replay log).place other →
        (replay (log ++ later)).place key < (replay (log ++ later)).place other := by
  induction later using List.reverseRecOn with
  | nil =>
    rw [List.append_nil]
    exact ⟨by simp [shifted], fun other hlt => hlt⟩
  | append_singleton later e ih =>
    have hassoc : log ++ (later ++ [e]) = (log ++ later) ++ [e] := (List.append_assoc ..).symm
    have hnow := hstays.now
    rw [hassoc] at h hnow ⊢
    obtain ⟨hplace, hbehind⟩ := ih h.of_append hstays.of_snoc
    have hold := hstays.of_snoc.now
    have hreset : ∀ entries, e ≠ .reset entries := by
      intro entries heq
      exact hstays.2 entries (heq ▸ List.mem_append_right _ (List.mem_singleton_self e))
    rw [replay_snoc] at hnow ⊢
    obtain ⟨hstep, hkept⟩ :=
      h.allows.place (mem_keys_of_stored h.of_append hold) hold hnow hreset
    constructor
    · rw [shifted_append, ← hplace, ← hstep]
      have hone : shifted [e] = if e.shifts then 1 else 0 := by
        simp [shifted, List.countP_cons]
      rw [hone]
      omega
    · intro other hlt
      exact hkept other (hbehind other hlt)

/-- A key is not taken before one that stands before it and keeps its
value. -/
theorem Lawful.not_take_before {log later after : List (Event κ ν)} {key other : κ} {value : ν}
    (h : Lawful (log ++ later ++ .take other value :: after))
    (hbefore : (replay log).place key < (replay log).place other) :
    ¬ Stays log later key := by
  intro hstays
  have hfirst := (h (log ++ later) (.take other value) after rfl).1
  obtain ⟨rest, hkeys⟩ := List.head?_eq_some_iff.mp hfirst
  have hbehind := (h.of_append.taken_add_place hstays).2 other hbefore
  have hzero : (replay (log ++ later)).place other = 0 := by
    rw [Queue.place, hkeys, List.idxOf_cons_self]
  omega

end Webernetes.Base.LazyQueue
