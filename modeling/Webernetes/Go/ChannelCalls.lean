/-
Webernetes.Go.ChannelCalls — how calls end, and the calls behind the
waiters.

`settle_eq` says once what ending a call does: all its waiters are out of
the queues and one event is in the log. `Registered` ties the queues to
the calls: a waiter belongs to a call that has not ended, and a call that
has not ended waits wherever it should. Places that an operation took out
of a queue and has yet to answer are `detached`.
-/
import Webernetes.Go.Channel

namespace Webernetes.Go

open Js Base

variable {α : Type}

/-- The events of a call. -/
def eventsOf (call : Nat) (log : List (Event α)) : List (Event α) :=
  log.filter fun event => event.call = call

@[simp] theorem eventsOf_append {call : Nat} {log log' : List (Event α)} :
    eventsOf call (log ++ log') = eventsOf call log ++ eventsOf call log' := List.filter_append ..

/-! ## Ending a call -/

namespace Channel

/-- The queues of channel `c` with the places that meet `p`. -/
def keep (c : Nat) (p : Slot → Bool) (ch : Channel α) : Channel α :=
  { ch with
    receivers := ch.receivers.filter fun x => p (.receiver c x)
    senders := ch.senders.filter fun s => p (.sender c s.waiter) }

/-- The waiters of other calls. -/
def without (c call : Nat) (ch : Channel α) : Channel α :=
  ch.keep c fun slot => slot.waiter.call ≠ call

/-- No waiter stands twice in a queue. -/
structure Distinct (ch : Channel α) : Prop where
  receivers : ch.receivers.Nodup
  senders : (ch.senders.map (·.waiter)).Nodup

variable {c : Nat} {p q : Slot → Bool} {ch : Channel α}

theorem keep_keep : (ch.keep c p).keep c q = ch.keep c fun slot => q slot && p slot := by
  simp [keep, List.filter_filter]

theorem keep_congr (hreceivers : ∀ x ∈ ch.receivers, p (.receiver c x) = q (.receiver c x))
    (hsenders : ∀ s ∈ ch.senders, p (.sender c s.waiter) = q (.sender c s.waiter)) :
    ch.keep c p = ch.keep c q := by
  unfold keep
  rw [List.filter_congr hreceivers, List.filter_congr hsenders]

theorem keep_all (hreceivers : ∀ x ∈ ch.receivers, p (.receiver c x) = true)
    (hsenders : ∀ s ∈ ch.senders, p (.sender c s.waiter) = true) : ch.keep c p = ch := by
  unfold keep
  rw [List.filter_eq_self.mpr hreceivers, List.filter_eq_self.mpr hsenders]

theorem Distinct.keep (h : ch.Distinct) : (ch.keep c p).Distinct where
  receivers := h.receivers.filter _
  senders := h.senders.sublist (List.filter_sublist.map _)

end Channel

namespace Channels

variable {w w' : Channels α} {c d call : Nat} {event : Event α} {record : Call}

/-- A slot is taken. -/
def Holds (w : Channels α) : Slot → Prop
  | .receiver c waiter => waiter ∈ (w.channel c).receivers
  | .sender c waiter => waiter ∈ (w.channel c).senders.map (·.waiter)

@[simp] theorem channel_update_same (f : Channel α → Channel α) :
    (w.update c f).channel c = f (w.channel c) := by simp [update]

theorem channel_update_of_ne (f : Channel α → Channel α) (h : d ≠ c) :
    (w.update c f).channel d = w.channel d := by simp [update, h]

theorem channel_update (f : Channel α → Channel α) :
    (w.update c f).channel d = if d = c then f (w.channel c) else w.channel d := by
  by_cases h : d = c
  · subst h; simp
  · simp [h, channel_update_of_ne]

@[simp] theorem calls_update (f : Channel α → Channel α) : (w.update c f).calls = w.calls := rfl

@[simp] theorem log_update (f : Channel α → Channel α) : (w.update c f).log = w.log := rfl

/-- A queue without one of its waiters. -/
theorem eraseP_eq_filter {senders : List (PendingSender α)} {waiter : Waiter}
    (h : (senders.map (·.waiter)).Nodup) :
    senders.eraseP (fun s => s.waiter = waiter) = senders.filter fun s => s.waiter ≠ waiter := by
  induction senders with
  | nil => rfl
  | cons sender senders ih =>
    obtain ⟨hnot, hnodup⟩ := List.nodup_cons.mp h
    by_cases heq : sender.waiter = waiter
    · have hall : ∀ s ∈ senders, s.waiter ≠ waiter := fun s hs hsame =>
        hnot (List.mem_map.mpr ⟨s, hs, hsame.trans heq.symm⟩)
      rw [List.eraseP_cons_of_pos (by simp [heq]), List.filter_cons_of_neg (by simp [heq])]
      exact (List.filter_eq_self.mpr (by simpa using hall)).symm
    · rw [List.eraseP_cons_of_neg (by simp [heq]), List.filter_cons_of_pos (by simp [heq]),
        ih hnodup]

theorem cancel_eq (slot : Slot) (hdistinct : ∀ c, (w.channel c).Distinct) :
    w.cancel slot = { w with channel := fun c => (w.channel c).keep c fun s => s ≠ slot } := by
  cases slot with
  | receiver d waiter =>
    simp only [cancel, update, (hdistinct d).receivers.erase_eq_filter]
    congr 1
    funext c
    by_cases hc : c = d
    · subst hc
      simp only [Function.update_self, Channel.keep]
      congr 1
      · exact List.filter_congr fun x _ => by grind
      · exact (List.filter_eq_self.mpr (by simp)).symm
    · simp [Channel.keep, hc]
  | sender d waiter =>
    simp only [cancel, update, eraseP_eq_filter (hdistinct d).senders]
    congr 1
    funext c
    by_cases hc : c = d
    · subst hc
      simp [Channel.keep]
    · simp [Channel.keep, hc]

/-- Withdrawing from a list of places leaves the other places. -/
theorem foldl_cancel (slots : List Slot) (hdistinct : ∀ c, (w.channel c).Distinct) :
    slots.foldl cancel w
      = { w with channel := fun c => (w.channel c).keep c fun s => s ∉ slots } := by
  induction slots generalizing w with
  | nil => simp [Channel.keep]
  | cons slot slots ih =>
    rw [List.foldl_cons, cancel_eq slot hdistinct,
      ih (w := { w with channel := fun c => (w.channel c).keep c fun s => s ≠ slot })
        fun c => (hdistinct c).keep (p := fun s => s ≠ slot)]
    simp only [Channel.keep_keep]
    congr 1
    funext c
    exact Channel.keep_congr (fun x _ => by grind) fun s _ => by grind

/-- What ending a call does. -/
def finish (w : Channels α) (call : Nat) (event : Event α) : Channels α where
  channel c := (w.channel c).without c call
  calls := w.calls.modify call fun r => { r with selected := true }
  log := w.log ++ [event]

/-- The places a call takes are places it would be withdrawn from. -/
structure Withdraws (w : Channels α) (call : Nat) (record : Call) : Prop where
  found : w.calls[call]? = some record
  pending : record.selected = false
  own : ∀ slot ∈ record.waits, slot.waiter.call = call
  held : ∀ slot, w.Holds slot → slot.waiter.call = call →
    record.cancels = true ∧ slot ∈ record.waits

/-- An answer takes all waiters of its call out of the queues. -/
theorem settle_eq (h : w.Withdraws call record) (hdistinct : ∀ c, (w.channel c).Distinct)
    (event : Event α) : w.settle call event = w.finish call event := by
  have hcalls : w.calls.set call { record with selected := true }
      = w.calls.modify call fun r => { r with selected := true } := by
    refine List.ext_getElem? fun i => ?_
    have := h.found
    grind
  unfold settle finish
  rw [h.found]
  simp only [h.pending, Bool.false_eq_true, if_false, hcalls]
  cases hcancels : record.cancels with
  | true =>
    have hfold := foldl_cancel (w := { w with
      calls := w.calls.modify call fun r => { r with selected := true } }) record.waits hdistinct
    simp only [if_true, hfold]
    congr 1
    funext c
    refine Channel.keep_congr (fun x hx => ?_) fun s hs => ?_
    · have := h.held (.receiver c x) hx
      have := h.own (.receiver c x)
      grind
    · have := h.held (.sender c s.waiter) (List.mem_map_of_mem hs)
      have := h.own (.sender c s.waiter)
      grind
  | false =>
    simp only [Bool.false_eq_true, if_false]
    congr 1
    funext c
    refine (Channel.keep_all (fun x hx => ?_) fun s hs => ?_).symm
    · have := h.held (.receiver c x) hx
      grind
    · have := h.held (.sender c s.waiter) (List.mem_map_of_mem hs)
      grind

/-! ## Calls and their waiters -/

/-- The place of a waiter that `close` took and has yet to call. -/
def Called (w : Channels α) : Slot → Prop
  | .receiver c waiter => waiter ∈ (w.channel c).closing
  | .sender _ _ => False

/-- The queues hold waiters of calls that have not ended, and such a call
waits wherever it should, `detached` places apart. -/
structure Registered (w : Channels α) (detached : List Slot) : Prop where
  distinct : ∀ c, (w.channel c).Distinct
  live : ∀ slot, w.Holds slot → ∃ r, w.calls[slot.waiter.call]? = some r
    ∧ r.selected = false ∧ slot ∈ r.waits
  called : ∀ slot, w.Called slot ∨ slot ∈ detached →
    ∃ r, w.calls[slot.waiter.call]? = some r ∧ slot ∈ r.waits
  own : ∀ (i : Nat) (r : Call), w.calls[i]? = some r → ∀ slot ∈ r.waits, slot.waiter.call = i
  single : ∀ (i : Nat) (r : Call), w.calls[i]? = some r → r.cancels = false → r.waits.length ≤ 1
  present : ∀ (i : Nat) (r : Call), w.calls[i]? = some r → r.selected = false →
    ∀ slot ∈ r.waits, w.Holds slot ∨ w.Called slot ∨ slot ∈ detached
  once : ∀ (i : Nat) (r : Call), w.calls[i]? = some r →
    (eventsOf i w.log).length = if r.selected then 1 else 0
  bound : ∀ event ∈ w.log, event.call < w.calls.length

/-- The last call, that has done nothing yet. -/
structure Fresh (w : Channels α) (call : Nat) : Prop where
  last : call + 1 = w.calls.length
  record : w.calls[call]? = some {}

variable {detached detached' : List Slot}

theorem Registered.enter (h : w.Registered []) :
    w.enter.Registered [] ∧ w.enter.Fresh w.calls.length := by
  have hholds : ∀ slot, w.enter.Holds slot ↔ w.Holds slot := fun slot => by cases slot <;> rfl
  have hcalled : ∀ slot, w.enter.Called slot ↔ w.Called slot := fun slot => by cases slot <;> rfl
  have hget : ∀ (i : Nat) (r : Call), w.enter.calls[i]? = some r →
      w.calls[i]? = some r ∨ (i = w.calls.length ∧ r = {}) := by
    intro i r hr
    simp only [Channels.enter] at hr
    grind
  have hold : ∀ (i : Nat) (r : Call), w.calls[i]? = some r → w.enter.calls[i]? = some r := by
    intro i r hr
    simp only [Channels.enter]
    grind
  have hnone : eventsOf w.calls.length w.log = [] :=
    List.filter_eq_nil_iff.mpr fun event he => by
      have := h.bound event he
      simp
      omega
  refine ⟨⟨h.distinct, fun slot hslot => ?_, fun slot hslot => ?_, fun i r hr => ?_,
    fun i r hr => ?_, fun i r hr => ?_, fun i r hr => ?_, fun event he => ?_⟩, ?_, ?_⟩
  · obtain ⟨r, hr, hrest⟩ := h.live slot ((hholds slot).mp hslot)
    exact ⟨r, hold _ _ hr, hrest⟩
  · obtain ⟨r, hr, hrest⟩ := h.called slot (hslot.imp (hcalled slot).mp id)
    exact ⟨r, hold _ _ hr, hrest⟩
  · rcases hget i r hr with hr | ⟨-, rfl⟩
    · exact h.own i r hr
    · simp
  · rcases hget i r hr with hr | ⟨-, rfl⟩
    · exact h.single i r hr
    · simp
  · rcases hget i r hr with hr | ⟨-, rfl⟩
    · exact fun hpending slot hslot => (h.present i r hr hpending slot hslot).imp (hholds slot).mpr
        (Or.imp_left (hcalled slot).mpr)
    · simp
  · rcases hget i r hr with hr | ⟨rfl, rfl⟩
    · exact h.once i r hr
    · simp [Channels.enter, hnone]
  · have := h.bound event he
    simp only [Channels.enter, List.length_append, List.length_singleton]
    omega
  · simp [Channels.enter]
  · simp [Channels.enter]

/-- A call that waits in at most one place, and is not held there, and a
select have nothing left behind. -/
theorem Registered.withdraws (h : w.Registered detached) (hrecord : w.calls[call]? = some record)
    (hpending : record.selected = false)
    (hslot : record.waits = [] ∨ ∃ slot ∈ record.waits, ¬ w.Holds slot) :
    w.Withdraws call record where
  found := hrecord
  pending := hpending
  own := h.own call record hrecord
  held slot hheld hcall := by
    obtain ⟨r, hr, -, hmem⟩ := h.live slot hheld
    obtain rfl : r = record := by
      rw [hcall, hrecord] at hr
      exact (Option.some.inj hr).symm
    refine ⟨?_, hmem⟩
    rcases hslot with hnil | ⟨other, hother, hnot⟩
    · simp [hnil] at hmem
    · by_contra hcancels
      have hone := h.single call r hrecord (by simpa using hcancels)
      have hsame : slot = other := by
        match hwaits : r.waits, hone with
        | [], _ => simp [hwaits] at hmem
        | [only], _ =>
          rw [hwaits, List.mem_singleton] at hmem hother
          rw [hmem, hother]
      exact hnot (hsame ▸ hheld)

theorem holds_finish {slot : Slot} :
    (w.finish call event).Holds slot ↔ w.Holds slot ∧ slot.waiter.call ≠ call := by
  cases slot with
  | receiver c waiter =>
    simp only [Holds, finish, Channel.without, Channel.keep, Slot.waiter, List.mem_filter]
    grind
  | sender c waiter =>
    simp only [Holds, finish, Channel.without, Channel.keep, Slot.waiter, List.mem_map,
      List.mem_filter]
    grind

theorem called_finish {slot : Slot} : (w.finish call event).Called slot ↔ w.Called slot := by
  cases slot <;> rfl

theorem calls_finish {i : Nat} {r : Call} (hr : (w.finish call event).calls[i]? = some r) :
    (i ≠ call ∧ w.calls[i]? = some r) ∨
    (i = call ∧ ∃ r', w.calls[i]? = some r' ∧ r = { r' with selected := true }) := by
  simp only [finish, List.getElem?_modify] at hr
  grind

/-- A call ends. -/
theorem Registered.finish (h : w.Registered detached) (hrecord : w.calls[call]? = some record)
    (hpending : record.selected = false) (hevent : event.call = call) :
    (w.finish call event).Registered (detached.filter fun slot => slot.waiter.call ≠ call) where
  distinct c := (h.distinct c).keep (p := fun slot => slot.waiter.call ≠ call)
  live slot hslot := by
    obtain ⟨hheld, hne⟩ := holds_finish.mp hslot
    obtain ⟨r, hr, hrest⟩ := h.live slot hheld
    refine ⟨r, ?_, hrest⟩
    simp only [Channels.finish, List.getElem?_modify]
    grind
  called slot hslot := by
    have hslot' : w.Called slot ∨ slot ∈ detached :=
      hslot.imp called_finish.mp fun hmem => List.mem_of_mem_filter hmem
    obtain ⟨r, hr, hmem⟩ := h.called slot hslot'
    by_cases hsame : slot.waiter.call = call
    · refine ⟨{ r with selected := true }, ?_, hmem⟩
      simp only [Channels.finish, List.getElem?_modify]
      grind
    · refine ⟨r, ?_, hmem⟩
      simp only [Channels.finish, List.getElem?_modify]
      grind
  own i r hr := by
    rcases calls_finish hr with ⟨-, hr⟩ | ⟨-, r', hr', rfl⟩
    · exact h.own i r hr
    · exact h.own i r' hr'
  single i r hr := by
    rcases calls_finish hr with ⟨-, hr⟩ | ⟨-, r', hr', rfl⟩
    · exact h.single i r hr
    · exact h.single i r' hr'
  present i r hr hselected slot hslot := by
    rcases calls_finish hr with ⟨hne, hr⟩ | ⟨-, r', -, rfl⟩
    · have hcall : slot.waiter.call ≠ call := h.own i r hr slot hslot ▸ hne
      rcases h.present i r hr hselected slot hslot with hheld | hcalled | hdetached
      · exact .inl (holds_finish.mpr ⟨hheld, hcall⟩)
      · exact .inr (.inl (called_finish.mpr hcalled))
      · exact .inr (.inr (List.mem_filter.mpr ⟨hdetached, by simpa using hcall⟩))
    · simp at hselected
  once i r hr := by
    have hone := h.once i
    simp only [Channels.finish, eventsOf_append, List.length_append]
    rcases calls_finish hr with ⟨hne, hr⟩ | ⟨rfl, r', hr', rfl⟩
    · have hother : eventsOf i [event] = [] := by simp [eventsOf, hevent, Ne.symm hne]
      simpa [hother] using hone r hr
    · obtain rfl : r' = record := Option.some.inj (hr'.symm.trans hrecord)
      have hnone := hone r' hr'
      rw [hpending] at hnone
      simp [eventsOf, hevent] at hnone ⊢
      exact hnone
  bound e he := by
    have hlength : (w.finish call event).calls.length = w.calls.length := by simp [Channels.finish]
    have hlt : call < w.calls.length := (List.getElem?_eq_some_iff.mp hrecord).1
    rw [hlength]
    rcases List.mem_append.mp he with he | he
    · exact h.bound e he
    · obtain rfl := List.mem_singleton.mp he
      exact hevent ▸ hlt

/-- Waiters leave the queues: they are called, detached or ended. -/
theorem Registered.moves (h : w.Registered detached) (hcalls : w'.calls = w.calls)
    (hlog : w'.log = w.log) (hdistinct : ∀ c, (w'.channel c).Distinct)
    (hheld : ∀ slot, w'.Holds slot → w.Holds slot)
    (hcalled : ∀ slot, w'.Called slot ∨ slot ∈ detached' →
      w.Holds slot ∨ w.Called slot ∨ slot ∈ detached)
    (hplaced : ∀ slot, w.Holds slot ∨ w.Called slot ∨ slot ∈ detached →
      w'.Holds slot ∨ w'.Called slot ∨ slot ∈ detached' ∨
        ∃ r, w.calls[slot.waiter.call]? = some r ∧ r.selected = true) :
    w'.Registered detached' where
  distinct := hdistinct
  live slot hslot := hcalls ▸ h.live slot (hheld slot hslot)
  called slot hslot := by
    rw [hcalls]
    rcases hcalled slot hslot with hheld | hslot
    · obtain ⟨r, hr, -, hmem⟩ := h.live slot hheld
      exact ⟨r, hr, hmem⟩
    · exact h.called slot hslot
  own := hcalls ▸ h.own
  single := hcalls ▸ h.single
  present i r hr hpending slot hslot := by
    rw [hcalls] at hr
    rcases hplaced slot (h.present i r hr hpending slot hslot) with hp | hp | hp | ⟨r', hr', hp⟩
    · exact .inl hp
    · exact .inr (.inl hp)
    · exact .inr (.inr hp)
    · have hown := h.own i r hr slot hslot
      rw [hown, hr] at hr'
      cases hr'
      simp [hpending] at hp
  once i r hr := by
    rw [hcalls] at hr
    rw [hlog]
    exact h.once i r hr
  bound := by
    rw [hlog, hcalls]
    exact h.bound

/-- The one detached waiter gets its answer. -/
theorem Registered.answer {slot : Slot} {e : Event α} (h : w.Registered [slot])
    (hnot : ¬ w.Holds slot) (hrecord : w.calls[slot.waiter.call]? = some record)
    (hpending : record.selected = false) (hevent : e.call = slot.waiter.call) :
    w.settle slot.waiter.call e = w.finish slot.waiter.call e
      ∧ (w.finish slot.waiter.call e).Registered [] := by
  obtain ⟨r, hr, hmem⟩ := h.called slot (.inr (List.mem_singleton_self slot))
  obtain rfl : r = record := Option.some.inj (hr.symm.trans hrecord)
  refine ⟨settle_eq (h.withdraws hr hpending (.inr ⟨slot, hmem, hnot⟩)) h.distinct _, ?_⟩
  simpa using h.finish hr hpending hevent

/-- A call that did not block gets its answer. -/
theorem Registered.answerFresh {e : Event α} (h : w.Registered []) (hfresh : w.Fresh call)
    (hevent : e.call = call) :
    w.settle call e = w.finish call e ∧ (w.finish call e).Registered [] := by
  refine ⟨settle_eq (h.withdraws hfresh.record rfl (.inl rfl)) h.distinct _, ?_⟩
  simpa using h.finish hfresh.record rfl hevent

theorem Registered.fresh_not_held (h : w.Registered detached) (hfresh : w.Fresh call)
    {slot : Slot} (hslot : w.Holds slot) : slot.waiter.call ≠ call := by
  rintro rfl
  obtain ⟨r, hr, -, hmem⟩ := h.live slot hslot
  rw [hfresh.record] at hr
  cases hr
  simp at hmem

theorem Fresh.finish (hfresh : w.Fresh call) {other : Nat} (hne : other ≠ call) :
    (w.finish other event).Fresh call where
  last := by simpa [Channels.finish] using hfresh.last
  record := by
    have := hfresh.record
    simp only [Channels.finish, List.getElem?_modify]
    grind

theorem Fresh.update (hfresh : w.Fresh call) (f : Channel α → Channel α) :
    (w.update c f).Fresh call := ⟨hfresh.last, hfresh.record⟩

end Channels

end Webernetes.Go
