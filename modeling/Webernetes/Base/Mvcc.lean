/-
Webernetes.Base.Mvcc — the log of a multi-version store and the entry it
gives every key.

The abstract store is its log of writes, each a value or a deletion of
one key at a revision. `entry log k` is what the log says about a key:
absent, or the value of its last write together with the revision it was
created at, the revision it was last modified at, and its version. The
definition is the fold a store runs write by write; `entry_spec` says
what it comes to: the writes since the key was last absent (`streak`)
are all values, the version is how many they are, and the create and mod
revisions are those of the first and the last of them.

`upTo log r` is the log as it stood after revision `r`, so
`entry (upTo log r) k` is the key at an earlier revision.
-/
import Mathlib.Data.List.Induction
import Mathlib.Tactic.Common

namespace Webernetes.Base.Mvcc

variable {κ ν : Type}

/-- A write: a value, or `none` for a deletion. -/
structure Write (κ ν : Type) where
  revision : Nat
  key : κ
  value : Option ν

/-- What a live key holds. -/
structure Entry (ν : Type) where
  value : ν
  createRevision : Nat
  modRevision : Nat
  version : Nat

/-- A key's entry after one more write to it. -/
def next (current : Option (Entry ν)) (w : Write κ ν) : Option (Entry ν) :=
  w.value.map fun v =>
    { value := v
      createRevision := current.elim w.revision (·.createRevision)
      modRevision := w.revision
      version := current.elim 0 (·.version) + 1 }

/-- The entry a list of writes to one key ends in. -/
def fold (ws : List (Write κ ν)) : Option (Entry ν) := ws.foldl next none

/-- The writes since the key was last absent. -/
def streak (ws : List (Write κ ν)) : List (Write κ ν) :=
  (ws.reverse.takeWhile (·.value.isSome)).reverse

@[simp] theorem fold_nil : fold ([] : List (Write κ ν)) = none := rfl

@[simp] theorem fold_append_singleton (ws : List (Write κ ν)) (w : Write κ ν) :
    fold (ws ++ [w]) = next (fold ws) w := by
  simp [fold]

@[simp] theorem streak_nil : streak ([] : List (Write κ ν)) = [] := rfl

theorem streak_append_singleton (ws : List (Write κ ν)) (w : Write κ ν) :
    streak (ws ++ [w]) = if w.value.isSome then streak ws ++ [w] else [] := by
  simp only [streak, List.reverse_append, List.reverse_singleton, List.singleton_append,
    List.takeWhile_cons]
  split <;> simp

/-- A key is absent exactly when no write has been made since it was last
absent. -/
theorem fold_eq_none_iff (ws : List (Write κ ν)) : fold ws = none ↔ streak ws = [] := by
  induction ws using List.reverseRecOn with
  | nil => simp
  | append_singleton ws w ih =>
    rw [fold_append_singleton, streak_append_singleton]
    cases hw : w.value with
    | none => simp [next, hw]
    | some v => simp [next, hw]

/-- What the counters of a live key count. -/
structure Counts (ws : List (Write κ ν)) (e : Entry ν) : Prop where
  version : e.version = (streak ws).length
  create : (streak ws).head?.map (·.revision) = some e.createRevision
  mod : (streak ws).getLast?.map (·.revision) = some e.modRevision
  value : (streak ws).getLast?.bind (·.value) = some e.value

theorem fold_counts (ws : List (Write κ ν)) : ∀ {e : Entry ν}, fold ws = some e → Counts ws e := by
  induction ws using List.reverseRecOn with
  | nil => intro e he; simp at he
  | append_singleton ws w ih =>
    intro e he
    rw [fold_append_singleton] at he
    cases hw : w.value with
    | none => simp [next, hw] at he
    | some v =>
      have hstreak : streak (ws ++ [w]) = streak ws ++ [w] := by
        rw [streak_append_singleton]; simp [hw]
      simp only [next, hw, Option.map_some, Option.some.injEq] at he
      subst he
      cases hcur : fold ws with
      | none =>
        have hnil : streak ws = [] := (fold_eq_none_iff ws).mp hcur
        constructor <;> simp [hstreak, hnil, hw]
      | some cur =>
        obtain ⟨hv, hc, -, -⟩ := ih hcur
        constructor
        · simp [hstreak, hv]
        · rw [hstreak]
          cases hs : streak ws with
          | nil => simp [hs] at hc
          | cons a rest => simpa [hs] using hc
        · simp [hstreak]
        · simp [hstreak, hw]

/-! ## Logs over many keys -/

/-- The log as it stood after revision `r`. -/
def upTo (log : List (Write κ ν)) (r : Nat) : List (Write κ ν) :=
  log.filter fun w => w.revision ≤ r

/-- Later writes do not touch an earlier revision. -/
theorem upTo_append_of_lt {log log' : List (Write κ ν)} {r : Nat}
    (h : ∀ w ∈ log', r < w.revision) : upTo (log ++ log') r = upTo log r := by
  have hnil : upTo log' r = [] := by
    rw [upTo, List.filter_eq_nil_iff]
    intro w hw
    have := h w hw
    simp only [decide_eq_true_eq]
    omega
  simp only [upTo, List.filter_append] at hnil ⊢
  simp [hnil]

theorem upTo_eq_self {log : List (Write κ ν)} {r : Nat} (h : ∀ w ∈ log, w.revision ≤ r) :
    upTo log r = log := by
  rw [upTo, List.filter_eq_self]
  intro w hw
  simpa using h w hw

section Log

variable [DecidableEq κ]

/-- The writes of the log to one key. -/
def writesTo (log : List (Write κ ν)) (k : κ) : List (Write κ ν) :=
  log.filter fun w => w.key = k

/-- The key's entry after the log. -/
def entry (log : List (Write κ ν)) (k : κ) : Option (Entry ν) := fold (writesTo log k)

@[simp] theorem writesTo_nil (k : κ) : writesTo ([] : List (Write κ ν)) k = [] := rfl

@[simp] theorem entry_nil (k : κ) : entry ([] : List (Write κ ν)) k = none := rfl

theorem writesTo_append (log log' : List (Write κ ν)) (k : κ) :
    writesTo (log ++ log') k = writesTo log k ++ writesTo log' k := by
  simp [writesTo]

theorem mem_writesTo {log : List (Write κ ν)} {k : κ} {w : Write κ ν} :
    w ∈ writesTo log k ↔ w ∈ log ∧ w.key = k := by
  simp [writesTo]

/-- One more write changes the entry of its own key and no other. -/
theorem entry_append_singleton (log : List (Write κ ν)) (w : Write κ ν) (k : κ) :
    entry (log ++ [w]) k = if w.key = k then next (entry log k) w else entry log k := by
  unfold entry
  rw [writesTo_append]
  split
  · rename_i hk
    simp [writesTo, hk]
  · rename_i hk
    simp [writesTo, hk]

theorem entry_append_of_forall_ne (log log' : List (Write κ ν)) {k : κ}
    (h : ∀ w ∈ log', w.key ≠ k) : entry (log ++ log') k = entry log k := by
  have hnil : writesTo log' k = [] := by
    rw [writesTo, List.filter_eq_nil_iff]
    intro w hw
    simpa using h w hw
  simp [entry, writesTo_append, hnil]

/-- A log no write of which is to the key leaves the key absent. -/
theorem entry_eq_none_of_forall_ne {log : List (Write κ ν)} {k : κ}
    (h : ∀ w ∈ log, w.key ≠ k) : entry log k = none := by
  simpa using entry_append_of_forall_ne [] log h

theorem entry_counts {log : List (Write κ ν)} {k : κ} {e : Entry ν}
    (h : entry log k = some e) : Counts (writesTo log k) e :=
  fold_counts _ h

/-- A live key was created by a write of the log, no later than it was
last modified. -/
theorem entry_mem {log : List (Write κ ν)} {k : κ} {e : Entry ν} (h : entry log k = some e) :
    ∃ w ∈ log, w.key = k ∧ w.revision = e.modRevision ∧ w.value = some e.value := by
  have hc := entry_counts h
  obtain ⟨w, hlast, hrev⟩ := Option.map_eq_some_iff.mp hc.mod
  have hmem : w ∈ streak (writesTo log k) := List.mem_of_getLast? hlast
  have hw : w ∈ writesTo log k := by
    simp only [streak, List.mem_reverse] at hmem
    exact List.mem_reverse.mp ((List.takeWhile_sublist _).mem hmem)
  have hv := hc.value
  rw [hlast] at hv
  exact ⟨w, (mem_writesTo.mp hw).1, (mem_writesTo.mp hw).2, hrev, hv⟩

end Log

end Webernetes.Base.Mvcc
