/-
Webernetes.ClientGo.Backoff — `Backoff` of `flowcontrol`.

An entry is what the last `next` under a key recorded. What an operation does
to the entries is said key by key: `entry_next`, `entry_gc`. The clock's time
is an argument; a `Date` keeps its whole milliseconds.
-/
import Webernetes.Js.MapLoops
import Webernetes.Js.Text
import Mathlib.Algebra.Order.Floor.Semiring
import Mathlib.Data.Rat.Floor

namespace Webernetes.ClientGo

open Js

/-- `new Date(ms).getTime()`. -/
def wholeMs (ms : ℚ) : Int := if 0 ≤ ms then ms.floor else ms.ceil

theorem wholeMs_le {ms : ℚ} (h : 0 ≤ ms) : (wholeMs ms : ℚ) ≤ ms := by
  rw [wholeMs, if_pos h]
  exact Rat.floor_le ms

structure BackoffEntry where
  backoff : ℚ
  lastUpdate : Int

structure Backoff where
  hasExpiredFunc : Option (Int → Int → ℚ → Bool) := none
  perItemBackoff : JsMap JsString BackoffEntry := .empty
  defaultDurationMs : ℚ
  maxDurationMs : ℚ
  maxJitterFactor : ℚ

namespace Backoff

def get (b : Backoff) (id : JsString) : ℚ := ((b.perItemBackoff.get id).map (·.backoff)).getD 0

def hasExpired (b : Backoff) (eventTime lastUpdate : Int) (maxDurationMs : ℚ) : Bool :=
  match b.hasExpiredFunc with
  | some hasExpiredFunc => hasExpiredFunc eventTime lastUpdate maxDurationMs
  | none => decide (maxDurationMs * 2 < (eventTime - lastUpdate : Int))

/-- `random` is what `Math.random()` draws. -/
def jitter (b : Backoff) (random delay : ℚ) : ℚ := random * b.maxJitterFactor * delay

def initEntryUnsafe (b : Backoff) : BackoffEntry := { backoff := b.defaultDurationMs, lastUpdate := 0 }

/-- The entry that `next` leaves, at the time `nowMs`. -/
def nextEntry (b : Backoff) (nowMs random : ℚ) (id : JsString) (eventTime : Int) : BackoffEntry :=
  let restarted := b.initEntryUnsafe
  let restarted := { restarted with backoff := restarted.backoff + b.jitter random restarted.backoff }
  let entry := match b.perItemBackoff.get id with
    | none => restarted
    | some entry =>
      if b.hasExpired eventTime entry.lastUpdate b.maxDurationMs then restarted
      else { entry with
        backoff := min (entry.backoff * 2 + b.jitter random entry.backoff) b.maxDurationMs }
  { entry with lastUpdate := wholeMs nowMs }

def next (b : Backoff) (nowMs random : ℚ) (id : JsString) (eventTime : Int) : Backoff :=
  { b with perItemBackoff := b.perItemBackoff.set id (b.nextEntry nowMs random id eventTime) }

def isInBackOffSince (b : Backoff) (nowMs : ℚ) (id : JsString) (eventTime : Int) : Bool :=
  match b.perItemBackoff.get id with
  | none => false
  | some entry =>
    if b.hasExpired eventTime entry.lastUpdate b.maxDurationMs then false
    else decide (nowMs - eventTime < entry.backoff)

def gc (b : Backoff) (nowMs : ℚ) : Backoff :=
  { b with perItemBackoff :=
      b.perItemBackoff.entries.foldl (fun perItemBackoff entry =>
        if b.hasExpired (wholeMs nowMs) entry.2.lastUpdate b.maxDurationMs then
          perItemBackoff.delete entry.1
        else perItemBackoff) b.perItemBackoff }

end Backoff

def newBackOffWithJitter (initialMs maxMs maxJitterFactor : ℚ) : Backoff :=
  { defaultDurationMs := initialMs, maxDurationMs := maxMs, maxJitterFactor }

def newBackOff (initialMs maxMs : ℚ) : Backoff := newBackOffWithJitter initialMs maxMs 0

namespace Backoff

variable {b : Backoff}

/-- What `next` leaves under the keys. -/
theorem entry_next (nowMs random : ℚ) (id : JsString) (eventTime : Int) (key : JsString) :
    (b.next nowMs random id eventTime).perItemBackoff.get key =
      if key = id then some (b.nextEntry nowMs random id eventTime) else b.perItemBackoff.get key :=
  JsMap.get_set _ _ _ _

/-- What `gc` leaves under the keys. -/
theorem entry_gc (nowMs : ℚ) (key : JsString) : (b.gc nowMs).perItemBackoff.get key =
    (b.perItemBackoff.get key).filter fun entry =>
      !b.hasExpired (wholeMs nowMs) entry.lastUpdate b.maxDurationMs := by
  let old : JsString × BackoffEntry → Bool := fun entry =>
    b.hasExpired (wholeMs nowMs) entry.2.lastUpdate b.maxDurationMs
  have hloop : (b.gc nowMs).perItemBackoff =
      ((b.perItemBackoff.entries.filter old).map Prod.fst).foldl JsMap.delete b.perItemBackoff := by
    rw [List.foldl_map, List.foldl_filter]
    rfl
  refine Option.ext fun entry => ?_
  rw [hloop, JsMap.get_foldl_delete, Option.filter_eq_some_iff, and_comm]
  refine and_congr_right fun hget => ?_
  have hmem : key ∈ (b.perItemBackoff.entries.filter old).map Prod.fst ↔ old (key, entry) = true := by
    rw [List.mem_map]
    constructor
    · rintro ⟨⟨key', entry'⟩, hentry, rfl⟩
      obtain ⟨hentry, hold⟩ := List.mem_filter.mp hentry
      have hget' := JsMap.get_eq_some_iff.mpr hentry
      cases hget.symm.trans hget'
      exact hold
    · intro hold
      exact ⟨_, List.mem_filter.mpr ⟨JsMap.get_eq_some_iff.mp hget, hold⟩, rfl⟩
  rw [hmem]
  simp [old]

end Backoff

end Webernetes.ClientGo
