/-
Webernetes.Go.ChannelRuns — what channels keep over whole runs.

`Sound` puts the calls and the channels together, and each operation keeps
it (`Sound.exec`). `channels_deliver` is what this says of values in any
run. A select that offers a value to a closed channel blocks there instead
of failing; `select_fires_once` is about the runs without such a select.
-/
import Webernetes.Go.ChannelLedger

namespace Webernetes.Go

open Js Base

variable {α : Type}

/-! ## Operations -/

namespace Channels

/-- Queues, calls and log fit together. -/
structure Sound (P : Prop) (w : Channels α) : Prop where
  registered : w.Registered []
  queue : ∀ c, (w.channel c).Queue
  ledger : ∀ c, Ledger P c w.log (w.channel c)

variable {P : Prop} {w w' : Channels α} {c call : Nat} {value : α} {event : Event α}
  {detached : List Slot} {record : Call}

theorem Registered.sentOn_le (h : w.Registered []) (hlast : call + 1 = w.calls.length) :
    ∀ x ∈ sentOn c w.log, x.1 ≤ call := by
  intro x hx
  obtain ⟨event, he, hsent⟩ := List.mem_filterMap.mp hx
  have hlt := h.bound event he
  cases event with
  | sent d waiter value =>
    simp only [Option.ite_none_right_eq_some, Option.some.injEq] at hsent
    obtain ⟨-, rfl⟩ := hsent
    simp only [Event.call] at hlt
    show waiter.call ≤ call
    omega
  | _ => simp at hsent

/-- One channel is changed, and no waiter stands in it twice. -/
theorem distinct_update {f : Channel α → Channel α} (h : ∀ d, (w.channel d).Distinct)
    (hc : (f (w.channel c)).Distinct) (d : Nat) : ((w.update c f).channel d).Distinct := by
  by_cases hd : d = c
  · subst hd
    simpa using hc
  · rw [channel_update_of_ne _ hd]
    exact h d

/-- The first receiver leaves its queue. -/
theorem Registered.shiftReceiver (h : w.Registered []) {receiver : Waiter}
    {receivers : List Waiter} (hreceivers : (w.channel c).receivers = receiver :: receivers) :
    (w.update c fun ch => { ch with receivers }).Registered [.receiver c receiver]
      ∧ ¬ (w.update c fun ch => { ch with receivers }).Holds (.receiver c receiver) := by
  have hdistinct := (h.distinct c).receivers
  rw [hreceivers] at hdistinct
  refine ⟨h.moves rfl rfl (distinct_update h.distinct ⟨(List.nodup_cons.mp hdistinct).2,
    (h.distinct c).senders⟩) (fun slot => ?_) (fun slot => ?_) (fun slot => ?_), ?_⟩
  · cases slot <;> grind [Holds, Called, channel_update]
  · cases slot <;> grind [Holds, Called, channel_update]
  · cases slot <;> grind [Holds, Called, channel_update]
  · simpa [Holds] using (List.nodup_cons.mp hdistinct).1

/-- The first sender leaves its queue. -/
theorem Registered.shiftSender (h : w.Registered []) {sender : PendingSender α}
    {senders : List (PendingSender α)} (hsenders : (w.channel c).senders = sender :: senders)
    (values : List α → List α) :
    (w.update c fun ch => { ch with senders, values := values ch.values }).Registered
        [.sender c sender.waiter]
      ∧ ¬ (w.update c fun ch => { ch with senders, values := values ch.values }).Holds
        (.sender c sender.waiter) := by
  have hdistinct := (h.distinct c).senders
  rw [hsenders, List.map_cons] at hdistinct
  refine ⟨h.moves rfl rfl (distinct_update h.distinct ⟨(h.distinct c).receivers,
    (List.nodup_cons.mp hdistinct).2⟩) (fun slot => ?_) (fun slot => ?_) (fun slot => ?_), ?_⟩
  · cases slot <;> grind [Holds, Called, channel_update]
  · cases slot <;> grind [Holds, Called, channel_update]
  · cases slot <;> grind [Holds, Called, channel_update]
  · simpa [Holds] using (List.nodup_cons.mp hdistinct).1

theorem Registered.setValues (h : w.Registered []) (c : Nat) (values : List α → List α) :
    (w.update c fun ch => { ch with values := values ch.values }).Registered [] := by
  refine h.moves rfl rfl (distinct_update h.distinct ⟨(h.distinct c).receivers,
    (h.distinct c).senders⟩) (fun slot => ?_) (fun slot => ?_) (fun slot => ?_)
  · cases slot <;> grind [Holds, Called, channel_update]
  · cases slot <;> grind [Holds, Called, channel_update]
  · cases slot <;> grind [Holds, Called, channel_update]

/-- A held waiter is one of a call that has not ended. -/
theorem Registered.record_of_held (h : w.Registered []) {slot : Slot} (hslot : w.Holds slot) :
    ∃ r, w.calls[slot.waiter.call]? = some r ∧ r.selected = false := by
  obtain ⟨r, hr, hpending, -⟩ := h.live slot hslot
  exact ⟨r, hr, hpending⟩

/-- The channels after a channel was changed and some calls ended. -/
theorem Sound.of_channel {P : Prop} (h : Sound P w) {l : List (Event α)}
    (hregistered : w'.Registered []) (hlog : w'.log = w.log ++ l)
    (hevents : ∀ event ∈ l, ∀ d, d ≠ c → event.channel ≠ some d)
    (hothers : ∀ d, d ≠ c → ∃ p, w'.channel d = (w.channel d).keep d p)
    (hqueue : (w'.channel c).Queue) (hledger : Ledger P c w'.log (w'.channel c)) : Sound P w' where
  registered := hregistered
  queue d := by
    by_cases hd : d = c
    · exact hd ▸ hqueue
    · obtain ⟨p, hp⟩ := hothers d hd
      exact hp ▸ (h.queue d).keep
  ledger d := by
    by_cases hd : d = c
    · exact hd ▸ hledger
    · obtain ⟨p, hp⟩ := hothers d hd
      rw [hp, hlog]
      exact ((h.ledger d).others fun event he => hevents event he d hd).keep

/-- A channel is changed and a call ends. -/
theorem Sound.of_finish {P : Prop} (h : Sound P w) {f : Channel α → Channel α}
    (hdone : ((w.update c f).finish call event).Registered []) (hevent : event.channel = some c)
    (hqueue : (f (w.channel c)).Queue) (hledger : Ledger P c (w.log ++ [event]) (f (w.channel c))) :
    Sound P ((w.update c f).finish call event) := by
  refine h.of_channel (c := c) hdone rfl ?_ (fun d hd => ?_) ?_ ?_
  · simp only [List.mem_singleton]
    rintro e rfl d hd
    simpa [hevent] using Ne.symm hd
  · exact ⟨_, by simp only [finish, channel_update_of_ne _ hd, Channel.without]; rfl⟩
  · simp only [finish, channel_update_same]
    exact hqueue.keep
  · simp only [finish, channel_update_same]
    exact hledger.keep

/-- A channel is changed and two calls end, each by the other. -/
theorem Sound.of_finish_finish {P : Prop} (h : Sound P w) {f : Channel α → Channel α}
    {call' : Nat} {event' : Event α}
    (hdone : (((w.update c f).finish call event).finish call' event').Registered [])
    (hevent : event.channel = some c) (hevent' : event'.channel = some c)
    (hqueue : (f (w.channel c)).Queue)
    (hledger : Ledger P c (w.log ++ [event] ++ [event']) ((f (w.channel c)).without c call)) :
    Sound P (((w.update c f).finish call event).finish call' event') := by
  refine h.of_channel (c := c) hdone (List.append_assoc ..) ?_ (fun d hd => ?_) ?_ ?_
  · simp only [List.cons_append, List.nil_append, List.mem_cons, List.not_mem_nil, or_false]
    rintro e (rfl | rfl) d hd
    · simpa [hevent] using Ne.symm hd
    · simpa [hevent'] using Ne.symm hd
  · exact ⟨_, by simp only [finish, channel_update_of_ne _ hd, Channel.without,
      Channel.keep_keep]; rfl⟩
  · simp only [finish, channel_update_same]
    exact hqueue.keep.keep
  · simp only [finish, channel_update_same]
    exact hledger.keep

/-- A value that was not refused is sent. -/
theorem Sound.trySend (h : Sound P w) (hfresh : w.Fresh call) {sent : Bool}
    (htry : w.trySend c value = .ok (sent, w')) :
    (w.channel c).closed = false ∧
    ((sent = true ∧ ∀ i, Sound P (w'.settle call (.sent c ⟨call, i⟩ value))) ∨
    (sent = false ∧ w' = w ∧ (w.channel c).receivers = []
      ∧ (w.channel c).capacity ≤ (w.channel c).values.length)) := by
  have hlast := h.registered.sentOn_le hfresh.last (c := c)
  unfold Channels.trySend at htry
  split at htry
  · simp at htry
  · rename_i hopen
    rw [Bool.not_eq_true] at hopen
    refine ⟨hopen, ?_⟩
    split at htry
    · rename_i receiver receivers hreceivers
      simp only [Except.ok.injEq, Prod.mk.injEq] at htry
      obtain ⟨rfl, rfl⟩ := htry
      refine .inl ⟨rfl, fun i => ?_⟩
      obtain ⟨hshift, hnot⟩ := h.registered.shiftReceiver hreceivers
      have hheld : w.Holds (.receiver c receiver) := by simp [Holds, hreceivers]
      obtain ⟨r, hr, hpending⟩ := h.registered.record_of_held hheld
      have hne : receiver.call ≠ call := h.registered.fresh_not_held hfresh hheld
      obtain ⟨hanswer, hdone⟩ := hshift.answer hnot hr hpending
        (e := .received c receiver (some value)) rfl
      obtain ⟨hanswer', hdone'⟩ := hdone.answerFresh ((hfresh.update _).finish hne)
        (e := .sent c ⟨call, i⟩ value) rfl
      simp only [Slot.waiter] at hanswer hanswer' hdone'
      rw [hanswer, hanswer']
      exact h.of_finish_finish hdone' rfl rfl ((h.queue c).shiftReceiver hreceivers)
        ((h.ledger c).handed (h.queue c) hreceivers hlast i value)
    · rename_i hreceivers
      split at htry
      · simp only [Except.ok.injEq, Prod.mk.injEq] at htry
        obtain ⟨rfl, rfl⟩ := htry
        exact .inr ⟨rfl, rfl, hreceivers, by omega⟩
      · rename_i hroom
        simp only [Except.ok.injEq, Prod.mk.injEq] at htry
        obtain ⟨rfl, rfl⟩ := htry
        refine .inl ⟨rfl, fun i => ?_⟩
        have hsenders : (w.channel c).senders = [] := by
          by_contra hne
          exact hroom ((h.queue c).full hne hopen)
        obtain ⟨hanswer, hdone⟩ := (h.registered.setValues c (· ++ [value])).answerFresh
          (e := .sent c ⟨call, i⟩ value) (hfresh.update _) rfl
        rw [hanswer]
        exact h.of_finish hdone rfl ((h.queue c).pushValue hopen hreceivers (by omega) value)
          ((h.ledger c).buffered hopen hsenders hlast i value)

/-- A value is taken and the first sender completes. -/
theorem Sound.taken (h : Sound P w) (hfresh : w.Fresh call) {sender : PendingSender α}
    {senders : List (PendingSender α)} (hsenders : (w.channel c).senders = sender :: senders)
    {f : List α → List α}
    (hvalues : (w.channel c).values ++ [sender.value] = value :: f (w.channel c).values)
    (i : Nat) :
    Sound P (((w.update c fun ch => { ch with senders, values := f ch.values }).settle
      sender.waiter.call (.sent c sender.waiter sender.value)).settle
      call (.received c ⟨call, i⟩ (some value))) := by
  obtain ⟨hshift, hnot⟩ := h.registered.shiftSender hsenders f
  have hheld : w.Holds (.sender c sender.waiter) := by simp [Holds, hsenders]
  obtain ⟨r, hr, hpending⟩ := h.registered.record_of_held hheld
  have hne : sender.waiter.call ≠ call := h.registered.fresh_not_held hfresh hheld
  obtain ⟨hanswer, hdone⟩ := hshift.answer hnot hr hpending
    (e := .sent c sender.waiter sender.value) rfl
  obtain ⟨hanswer', hdone'⟩ := hdone.answerFresh ((hfresh.update _).finish hne)
    (e := .received c ⟨call, i⟩ (some value)) rfl
  simp only [Slot.waiter] at hanswer hanswer' hdone'
  rw [hanswer, hanswer']
  exact h.of_finish_finish hdone' rfl rfl ((h.queue c).shiftSender hsenders hvalues)
    ((h.ledger c).taken hsenders hvalues ⟨call, i⟩)

/-- The first value is taken and no sender takes its place. -/
theorem Sound.popped (h : Sound P w) (hfresh : w.Fresh call) {values : List α}
    (hvalues : (w.channel c).values = value :: values)
    (hsenders : (w.channel c).senders = [] ∨ (w.channel c).closed = true) (i : Nat) :
    Sound P ((w.update c fun ch => { ch with values }).settle
      call (.received c ⟨call, i⟩ (some value))) := by
  obtain ⟨hanswer, hdone⟩ := (h.registered.setValues c fun _ => values).answerFresh
    (e := .received c ⟨call, i⟩ (some value)) (hfresh.update _) rfl
  rw [hanswer]
  exact h.of_finish hdone rfl ((h.queue c).popValue hvalues hsenders)
    ((h.ledger c).popped hvalues ⟨call, i⟩)

/-- An answer that changes no channel. -/
theorem Sound.answered (h : Sound P w) (hfresh : w.Fresh call) (hcall : event.call = call)
    (hledger : ∀ d, Ledger P d (w.log ++ [event]) (w.channel d)) :
    Sound P (w.settle call event) := by
  obtain ⟨hanswer, hdone⟩ := h.registered.answerFresh hfresh hcall
  rw [hanswer]
  exact ⟨hdone, fun d => (h.queue d).keep (p := fun slot => slot.waiter.call ≠ call),
    fun d => (hledger d).keep (p := fun slot => slot.waiter.call ≠ call)⟩

theorem update_update (f g : Channel α → Channel α) :
    (w.update c f).update c g = w.update c fun ch => g (f ch) := by simp [Channels.update]

/-- A receive that does not block. -/
theorem Sound.tryReceive (h : Sound P w) (hfresh : w.Fresh call) {result : Option (Option α)}
    (htry : w.tryReceive c = (result, w')) :
    (∃ answer, result = some answer ∧
      ∀ i, Sound P (w'.settle call (.received c ⟨call, i⟩ answer))) ∨
    (result = none ∧ w' = w ∧ (w.channel c).values = [] ∧ (w.channel c).senders = []
      ∧ (w.channel c).closed = false) := by
  unfold Channels.tryReceive at htry
  split at htry
  · rename_i value values hvalues
    simp only [Prod.mk.injEq] at htry
    obtain ⟨rfl, rfl⟩ := htry
    refine .inl ⟨_, rfl, fun i => ?_⟩
    unfold drainSender
    simp only [channel_update_same]
    split
    · exact h.popped hfresh hvalues (.inr ‹_›) i
    · split
      · exact h.popped hfresh hvalues (.inl ‹_›) i
      · rename_i hreceivers
        have := (h.queue c).waiting (by simp [hreceivers])
        simp [hvalues] at this
      · rename_i sender senders hsenders hreceivers
        have hroom : values.length < (w.channel c).capacity := by
          have := (h.queue c).capacity
          simp only [hvalues, List.length_cons] at this
          omega
        rw [if_pos hroom, update_update]
        exact h.taken hfresh hsenders (f := fun _ => values ++ [sender.value])
          (by simp [hvalues]) i
  · rename_i sender senders hvalues hsenders
    simp only [Prod.mk.injEq] at htry
    obtain ⟨rfl, rfl⟩ := htry
    exact .inl ⟨_, rfl, fun i => h.taken hfresh hsenders (f := id) (by simp [hvalues]) i⟩
  · rename_i hvalues hsenders
    split at htry
    · rename_i hclosed
      simp only [Prod.mk.injEq] at htry
      obtain ⟨rfl, rfl⟩ := htry
      refine .inl ⟨_, rfl, fun i => h.answered hfresh rfl fun d => ?_⟩
      by_cases hd : d = c
      · exact hd ▸ (h.ledger c).ended hclosed hvalues ⟨call, i⟩
      · exact (h.ledger d).other (by simpa [Event.channel] using Ne.symm hd)
    · rename_i hopen
      simp only [Prod.mk.injEq] at htry
      obtain ⟨rfl, rfl⟩ := htry
      exact .inr ⟨rfl, rfl, hvalues, hsenders, by simpa using hopen⟩

theorem settle_selected (hrecord : w.calls[call]? = some record)
    (hselected : record.selected = true) : w.settle call event = w := by
  unfold settle
  simp [hrecord, hselected]

/-- The blocked senders of a channel that was closed fail. -/
theorem Registered.foldl_fail {senders : List (PendingSender α)} (h : w.Registered detached)
    (hdetached : ∀ slot ∈ detached, ∃ s ∈ senders, slot = .sender c s.waiter)
    (hrecords : ∀ s ∈ senders, ∃ r, w.calls[s.waiter.call]? = some r
      ∧ .sender c s.waiter ∈ r.waits)
    (hempty : (w.channel c).senders = []) (hfresh : w.Fresh call)
    (hw' : senders.foldl (fun w sender =>
      w.settle sender.waiter.call (.failed sender.waiter.call sendOnClosed)) w = w') :
    w'.Registered [] ∧ w'.Fresh call
      ∧ (∃ events, w'.log = w.log ++ events ∧ ∀ event ∈ events, event.channel = none)
      ∧ ∀ d, ∃ p, w'.channel d = (w.channel d).keep d p := by
  induction senders generalizing w detached with
  | nil =>
    obtain rfl : w = w' := hw'
    have hnil : detached = [] := List.eq_nil_iff_forall_not_mem.mpr fun slot hslot => by
      simpa using hdetached slot hslot
    refine ⟨hnil ▸ h, hfresh, ⟨[], by simp⟩, fun d => ⟨fun _ => true, ?_⟩⟩
    exact (Channel.keep_all (fun _ _ => rfl) fun _ _ => rfl).symm
  | cons s senders ih =>
    obtain ⟨r, hr, hmem⟩ := hrecords s List.mem_cons_self
    have hrest : ∀ slot ∈ detached.filter fun slot => slot.waiter.call ≠ s.waiter.call,
        ∃ s ∈ senders, slot = .sender c s.waiter := by
      intro slot hslot
      obtain ⟨hslot, hne⟩ := List.mem_filter.mp hslot
      obtain ⟨s', hs', rfl⟩ := hdetached slot hslot
      rcases List.mem_cons.mp hs' with rfl | hs'
      · simp [Slot.waiter] at hne
      · exact ⟨s', hs', rfl⟩
    rw [List.foldl_cons] at hw'
    cases hselected : r.selected with
    | true =>
      rw [settle_selected hr hselected] at hw'
      refine ih (h.moves rfl rfl h.distinct (fun _ => id) (fun slot hslot => ?_) fun slot hslot => ?_)
        hrest (fun s hs => hrecords s (List.mem_cons_of_mem _ hs)) hempty hfresh hw'
      · exact .inr (hslot.imp_right List.mem_of_mem_filter)
      · by_cases hsame : slot.waiter.call = s.waiter.call
        · exact .inr (.inr (.inr ⟨r, hsame ▸ hr, hselected⟩))
        · simp only [List.mem_filter, hsame, ne_eq, not_false_eq_true, decide_true, and_true]
          tauto
    | false =>
      have hnot : ¬ w.Holds (.sender c s.waiter) := by simp [Holds, hempty]
      have hne : s.waiter.call ≠ call := by
        rintro rfl
        rw [hfresh.record] at hr
        cases hr
        simp at hmem
      have hanswer := settle_eq (h.withdraws hr hselected (.inr ⟨_, hmem, hnot⟩)) h.distinct
        (.failed s.waiter.call sendOnClosed)
      rw [hanswer] at hw'
      have hrecords' : ∀ s' ∈ senders,
          ∃ r, (w.finish s.waiter.call (.failed s.waiter.call sendOnClosed)).calls[s'.waiter.call]?
            = some r ∧ .sender c s'.waiter ∈ r.waits := by
        intro s' hs'
        obtain ⟨r', hr', hmem'⟩ := hrecords s' (List.mem_cons_of_mem _ hs')
        simp only [Channels.finish, List.getElem?_modify, hr']
        by_cases hsame : s.waiter.call = s'.waiter.call
        · exact ⟨{ r' with selected := true }, by simp [hsame], hmem'⟩
        · exact ⟨r', by simp [hsame], hmem'⟩
      obtain ⟨hdone, hfresh', ⟨events, hlog, hevents⟩, hkeep⟩ :=
        ih (h.finish hr hselected rfl) hrest hrecords'
          (by simp [Channels.finish, Channel.without, Channel.keep, hempty]) (hfresh.finish hne) hw'
      refine ⟨hdone, hfresh', ⟨.failed s.waiter.call sendOnClosed :: events, ?_, ?_⟩, fun d => ?_⟩
      · simp [hlog, Channels.finish]
      · simpa [Event.channel] using hevents
      · obtain ⟨p, hp⟩ := hkeep d
        exact ⟨_, by rw [hp]; simp only [Channels.finish, Channel.without, Channel.keep_keep]; rfl⟩

/-- A channel that was open is closed. -/
theorem Sound.close (h : Sound P w) (hfresh : w.Fresh call) (hclose : w.close c = .ok w') :
    Sound P (w'.settle call (.closed c call)) := by
  unfold Channels.close at hclose
  split at hclose
  · simp at hclose
  · rename_i hopen
    rw [Bool.not_eq_true] at hopen
    have hreg : (w.update c fun ch => { ch with closed := true, senders := [] }).Registered
        ((w.channel c).senders.map fun s => .sender c s.waiter) := by
      refine h.registered.moves rfl rfl (distinct_update h.registered.distinct
        ⟨(h.registered.distinct c).receivers, List.nodup_nil⟩) (fun slot => ?_) (fun slot => ?_)
        (fun slot => ?_)
      · cases slot <;> grind [Holds, Called, channel_update]
      · cases slot <;> grind [Holds, Called, channel_update]
      · cases slot <;> grind [Holds, Called, channel_update]
    obtain ⟨w₂, hw₂⟩ : ∃ w₂, (w.channel c).senders.foldl (fun w sender =>
        w.settle sender.waiter.call (.failed sender.waiter.call sendOnClosed))
        (w.update c fun ch => { ch with closed := true, senders := [] }) = w₂ := ⟨_, rfl⟩
    simp only [hw₂, Except.ok.injEq] at hclose
    subst hclose
    obtain ⟨hreg₂, hfresh₂, ⟨events, hlog, hevents⟩, hkeep⟩ := hreg.foldl_fail (c := c)
      (fun slot hslot => by
        obtain ⟨s, hs, rfl⟩ := List.mem_map.mp hslot
        exact ⟨s, hs, rfl⟩)
      (fun s hs => by
        obtain ⟨r, hr, -, hmem⟩ := h.registered.live (.sender c s.waiter) (List.mem_map_of_mem hs)
        exact ⟨r, hr, hmem⟩)
      (by simp) (hfresh.update _) hw₂
    obtain ⟨p, hp⟩ := hkeep c
    simp only [channel_update_same] at hp
    have hclosing : (w₂.channel c).closing = [] := by
      by_contra hne
      rw [hp] at hne
      have := ((h.queue c).closing hne).1
      simp [hopen] at this
    have hreg₃ : (w₂.update c fun ch =>
        { ch with receivers := [], closing := ch.receivers }).Registered [] := by
      refine hreg₂.moves rfl rfl (distinct_update hreg₂.distinct
        ⟨List.nodup_nil, (hreg₂.distinct c).senders⟩) (fun slot => ?_) (fun slot => ?_)
        (fun slot => ?_)
      · cases slot <;> grind [Holds, Called, channel_update]
      · cases slot <;> grind [Holds, Called, channel_update]
      · cases slot <;> grind [Holds, Called, channel_update]
    obtain ⟨hanswer, hdone⟩ := hreg₃.answerFresh (e := .closed c call) (hfresh₂.update _) rfl
    rw [hanswer]
    have hempty : (w.channel c).receivers ≠ [] → (w.channel c).values = [] := fun hne =>
      ((h.queue c).waiting hne).1
    refine h.of_channel (c := c) hdone (l := events ++ [Event.closed c call]) ?_
      (fun event he d hd => ?_) (fun d hd => ?_) ?_ ?_
    · simp [Channels.finish, hlog]
    · rcases List.mem_append.mp he with he | he
      · simp [hevents event he]
      · simpa [List.mem_singleton.mp he, Event.channel] using Ne.symm hd
    · obtain ⟨q, hq⟩ := hkeep d
      rw [channel_update_of_ne _ hd] at hq
      exact ⟨_, by simp only [Channels.finish, channel_update_of_ne _ hd, Channel.without, hq,
        Channel.keep_keep]; rfl⟩
    · simp only [Channels.finish, channel_update_same, hp]
      refine Channel.Queue.keep ⟨(h.queue c).capacity, by simp, by simp [Channel.keep], by simp,
        fun hne => ⟨rfl, hempty fun hnil => hne ?_⟩⟩
      simp [Channel.keep, hnil]
    · have hledger := (h.ledger c).others (l := events) fun event he => by simp [hevents event he]
      have hlog' : ((w₂.update c fun ch =>
          { ch with receivers := [], closing := ch.receivers }).finish call (.closed c call)).log
          = w.log ++ events ++ [Event.closed c call] := by simp [Channels.finish, hlog]
      rw [hlog']
      refine hledger.close hopen ?_ ?_ ?_ call
      all_goals simp [Channels.finish, Channel.without, Channel.keep, hp]

/-- `close` calls its next receiver. -/
theorem Sound.notify (h : Sound P w) (c : Nat) : Sound P (w.notify c) := by
  unfold Channels.notify
  split
  · exact h
  · rename_i receiver closing hclosing hvalues
    obtain ⟨hclosed, -⟩ := (h.queue c).closing (by simp [hclosing])
    have hreceivers : (w.channel c).receivers = [] := by
      by_contra hne
      have := ((h.queue c).waiting hne).2
      simp [hclosed] at this
    obtain ⟨r, hr, hmem⟩ := h.registered.called (.receiver c receiver)
      (.inl (by simp [Called, hclosing]))
    have hqueue : ({ w.channel c with closing } : Channel α).Queue :=
      ⟨(h.queue c).capacity, (h.queue c).waiting, (h.queue c).full, (h.queue c).together,
        fun _ => ⟨hclosed, hvalues⟩⟩
    have hdistinct : ∀ d, ((w.update c fun ch => { ch with closing }).channel d).Distinct :=
      distinct_update h.registered.distinct
        ⟨(h.registered.distinct c).receivers, (h.registered.distinct c).senders⟩
    have hledger : Ledger P c w.log { w.channel c with closing } :=
      ⟨(h.ledger c).history, (h.ledger c).balance, (h.ledger c).order, (h.ledger c).early⟩
    cases hselected : r.selected with
    | true =>
      -- a select that another channel answered in between
      rw [settle_selected (by exact hr) hselected]
      refine h.of_channel (c := c) (l := []) (h.registered.moves rfl rfl hdistinct
        (fun slot => ?_) (fun slot => ?_) fun slot => ?_) (by simp) (by simp) (fun d hd => ?_)
        (by simpa using hqueue) (by simpa using hledger)
      · cases slot <;> grind [Holds, Called, channel_update]
      · cases slot <;> grind [Holds, Called, channel_update]
      · cases slot <;> grind [Holds, Called, channel_update, Slot.waiter]
      · refine ⟨fun _ => true, ?_⟩
        rw [channel_update_of_ne _ hd]
        exact (Channel.keep_all (fun _ _ => rfl) fun _ _ => rfl).symm
    | false =>
      have hreg : (w.update c fun ch => { ch with closing }).Registered [.receiver c receiver] := by
        refine h.registered.moves rfl rfl hdistinct (fun slot => ?_) (fun slot => ?_)
          fun slot => ?_
        · cases slot <;> grind [Holds, Called, channel_update]
        · cases slot <;> grind [Holds, Called, channel_update]
        · cases slot <;> grind [Holds, Called, channel_update]
      obtain ⟨hanswer, hdone⟩ := hreg.answer (e := .received c receiver none)
        (by simp [Holds, hreceivers]) hr hselected rfl
      simp only [Slot.waiter] at hanswer hdone
      rw [hanswer]
      exact h.of_finish hdone rfl hqueue (hledger.ended hclosed hvalues receiver)
  · rename_i receiver closing value values hclosing hvalues
    have := ((h.queue c).closing (by simp [hclosing])).2
    simp [hvalues] at this

/-! ### Calls that block -/

/-- The call has nothing to do at once in this case: only its own waiters
could meet it. -/
def Blocks (P : Prop) (w : Channels α) (call : Nat) : SelectCase α → Prop
  | .receive (some c) => (w.channel c).values = [] ∧ (w.channel c).closed = false
      ∧ ∀ s ∈ (w.channel c).senders, s.waiter.call = call
  | .send (some c) _ => (∀ r ∈ (w.channel c).receivers, r.call = call)
      ∧ ((w.channel c).closed = false → (w.channel c).capacity ≤ (w.channel c).values.length)
      ∧ (P → (w.channel c).closed = false)
  | _ => True

/-- A call that is about to wait: the last call, with its places so far below
`next`. -/
structure Waiting (w : Channels α) (call next : Nat) : Prop where
  last : call + 1 = w.calls.length
  record : ∃ r, w.calls[call]? = some r ∧ r.selected = false ∧ (r.cancels = true ∨ r.waits = [])
    ∧ ∀ slot ∈ r.waits, slot.waiter.index < next

/-- A call takes one more place. -/
theorem Registered.place (h : w.Registered []) {s : Slot} (hcall : s.waiter.call = call)
    (hwaiting : w.Waiting call s.waiter.index)
    (hcalls : w'.calls = w.calls.modify call fun r => { r with waits := r.waits ++ [s] })
    (hlog : w'.log = w.log) (hdistinct : ∀ c, (w'.channel c).Distinct)
    (hheld : ∀ other, w'.Holds other ↔ w.Holds other ∨ other = s)
    (hcalled : ∀ other, w'.Called other ↔ w.Called other) : w'.Registered [] := by
  obtain ⟨record, hrecord, hpending, hcancels, -⟩ := hwaiting.record
  have hsame : w'.calls[call]? = some { record with waits := record.waits ++ [s] } := by
    rw [hcalls, List.getElem?_modify]
    simp [hrecord]
  have hother : ∀ i, i ≠ call → w'.calls[i]? = w.calls[i]? := by
    intro i hi
    rw [hcalls, List.getElem?_modify]
    simp [Ne.symm hi]
  have hgrows : ∀ (i : Nat) (r : Call), w.calls[i]? = some r → ∃ r', w'.calls[i]? = some r'
      ∧ r'.selected = r.selected ∧ ∀ other ∈ r.waits, other ∈ r'.waits := by
    intro i r hr
    by_cases hi : i = call
    · subst hi
      obtain rfl : r = record := Option.some.inj (hr.symm.trans hrecord)
      exact ⟨_, hsame, rfl, fun other hmem => List.mem_append_left _ hmem⟩
    · exact ⟨r, (hother i hi).trans hr, rfl, fun _ => id⟩
  refine ⟨hdistinct, fun other hslot => ?_, fun other hslot => ?_, fun i r hr => ?_,
    fun i r hr => ?_, fun i r hr => ?_, fun i r hr => ?_, ?_⟩
  · rcases (hheld other).mp hslot with hslot | rfl
    · obtain ⟨r, hr, hsel, hmem⟩ := h.live other hslot
      obtain ⟨r', hr', hsel', hwaits⟩ := hgrows _ r hr
      exact ⟨r', hr', hsel'.trans hsel, hwaits _ hmem⟩
    · rw [hcall]
      exact ⟨_, hsame, hpending, by simp⟩
  · obtain ⟨r, hr, hmem⟩ := h.called other (hslot.imp_left (hcalled other).mp)
    obtain ⟨r', hr', -, hwaits⟩ := hgrows _ r hr
    exact ⟨r', hr', hwaits _ hmem⟩
  · by_cases hi : i = call
    · subst hi
      obtain rfl := Option.some.inj (hr.symm.trans hsame)
      intro other hmem
      rcases List.mem_append.mp hmem with hmem | hmem
      · exact h.own i record hrecord other hmem
      · exact List.mem_singleton.mp hmem ▸ hcall
    · exact h.own i r ((hother i hi) ▸ hr)
  · by_cases hi : i = call
    · subst hi
      obtain rfl := Option.some.inj (hr.symm.trans hsame)
      intro hno
      rcases hcancels with hyes | hnil
      · exact absurd (hyes.symm.trans hno) (by simp)
      · simp [hnil]
    · exact h.single i r ((hother i hi) ▸ hr)
  · have hin : ∀ other, w.Holds other ∨ w.Called other ∨ other ∈ ([] : List Slot) →
        w'.Holds other ∨ w'.Called other ∨ other ∈ ([] : List Slot) := fun other hslot =>
      hslot.imp (fun hx => (hheld other).mpr (.inl hx)) (Or.imp_left (hcalled other).mpr)
    by_cases hi : i = call
    · subst hi
      obtain rfl := Option.some.inj (hr.symm.trans hsame)
      intro hsel other hmem
      rcases List.mem_append.mp hmem with hmem | hmem
      · exact hin other (h.present i record hrecord hsel other hmem)
      · exact .inl ((hheld other).mpr (.inr (List.mem_singleton.mp hmem)))
    · exact fun hsel other hmem =>
        hin other (h.present i r ((hother i hi) ▸ hr) hsel other hmem)
  · rw [hlog]
    by_cases hi : i = call
    · subst hi
      obtain rfl := Option.some.inj (hr.symm.trans hsame)
      exact h.once i record hrecord
    · exact h.once i r ((hother i hi) ▸ hr)
  · rw [hlog, hcalls, List.length_modify]
    exact h.bound

theorem Registered.not_held (h : w.Registered []) {s : Slot}
    (hwaiting : w.Waiting s.waiter.call s.waiter.index) : ¬ w.Holds s := by
  intro hslot
  obtain ⟨record, hrecord, -, -, hbelow⟩ := hwaiting.record
  obtain ⟨r, hr, -, hmem⟩ := h.live s hslot
  obtain rfl : r = record := Option.some.inj (hr.symm.trans hrecord)
  exact absurd (hbelow s hmem) (lt_irrefl _)

theorem Registered.held_le (h : w.Registered []) {next : Nat} (hwaiting : w.Waiting call next)
    {s : Slot} (hslot : w.Holds s) : s.waiter.call ≤ call := by
  obtain ⟨r, hr, -⟩ := h.live s hslot
  have := (List.getElem?_eq_some_iff.mp hr).1
  have := hwaiting.last
  omega

/-- A waiter takes its place. -/
theorem Sound.wait (h : Sound P w) {entry : SelectCase α × Nat}
    (hwaiting : w.Waiting call entry.2) (hblocks : w.Blocks P call entry.1) :
    Sound P (w.wait call entry) := by
  obtain ⟨entry, i⟩ := entry
  match entry, hblocks with
  | .receive none, _ => exact h
  | .send none _, _ => exact h
  | .receive (some c), ⟨hvalues, hopen, hsenders⟩ =>
    have hnot := h.registered.not_held (s := .receiver c ⟨call, i⟩) hwaiting
    have hnew : (⟨call, i⟩ : Waiter) ∉ (w.channel c).receivers := hnot
    have hothers : ∀ d, d ≠ c →
        (w.wait call (.receive (some c), i)).channel d = w.channel d := fun d hd => by
      simp [Channels.wait, Channels.update, hd]
    have hthis : (w.wait call (.receive (some c), i)).channel c = { w.channel c with
        receivers := (w.channel c).receivers ++ [⟨call, i⟩] } := by
      simp [Channels.wait, Channels.update]
    refine h.of_channel (c := c) (l := []) (h.registered.place (s := .receiver c ⟨call, i⟩)
      rfl hwaiting rfl rfl (fun d => ?_) (fun other => ?_) fun other => ?_) (by simp [Channels.wait])
      (by simp) (fun d hd => ⟨fun _ => true, ?_⟩) ?_ ?_
    · by_cases hd : d = c
      · subst hd
        rw [hthis]
        refine ⟨List.nodup_append.mpr ⟨(h.registered.distinct d).receivers, by simp, ?_⟩,
          (h.registered.distinct d).senders⟩
        rintro x hx y hy rfl
        exact hnew (List.mem_singleton.mp hy ▸ hx)
      · rw [hothers d hd]
        exact h.registered.distinct d
    · cases other <;> grind [Holds]
    · cases other <;> grind [Called]
    · rw [hothers d hd]
      exact (Channel.keep_all (fun _ _ => rfl) fun _ _ => rfl).symm
    · rw [hthis]
      refine ⟨(h.queue c).capacity, fun _ => ⟨hvalues, hopen⟩, (h.queue c).full,
        fun r hr s hs => ?_, (h.queue c).closing⟩
      rcases List.mem_append.mp hr with hr | hr
      · exact (h.queue c).together r hr s hs
      · rw [List.mem_singleton.mp hr]
        exact (hsenders s hs).symm
    · rw [hthis]
      exact ⟨(h.ledger c).history, (h.ledger c).balance, (h.ledger c).order, (h.ledger c).early⟩
  | .send (some c) value, ⟨hreceivers, hfull, hopen⟩ =>
    have hnot := h.registered.not_held (s := .sender c ⟨call, i⟩) hwaiting
    have hnew : (⟨call, i⟩ : Waiter) ∉ (w.channel c).senders.map (·.waiter) := hnot
    have hothers : ∀ d, d ≠ c →
        (w.wait call (.send (some c) value, i)).channel d = w.channel d := fun d hd => by
      simp [Channels.wait, Channels.update, hd]
    have hthis : (w.wait call (.send (some c) value, i)).channel c = { w.channel c with
        senders := (w.channel c).senders ++ [⟨value, ⟨call, i⟩⟩] } := by
      simp [Channels.wait, Channels.update]
    refine h.of_channel (c := c) (l := []) (h.registered.place (s := .sender c ⟨call, i⟩)
      rfl hwaiting rfl rfl (fun d => ?_) (fun other => ?_) fun other => ?_) (by simp [Channels.wait])
      (by simp) (fun d hd => ⟨fun _ => true, ?_⟩) ?_ ?_
    · by_cases hd : d = c
      · subst hd
        rw [hthis]
        refine ⟨(h.registered.distinct d).receivers, ?_⟩
        rw [List.map_append]
        refine List.nodup_append.mpr ⟨(h.registered.distinct d).senders, by simp, ?_⟩
        rintro x hx y hy rfl
        have hxy : x = ⟨call, i⟩ := List.mem_singleton.mp hy
        exact hnew (hxy ▸ hx)
      · rw [hothers d hd]
        exact h.registered.distinct d
    · cases other <;> grind [Holds]
    · cases other <;> grind [Called]
    · rw [hothers d hd]
      exact (Channel.keep_all (fun _ _ => rfl) fun _ _ => rfl).symm
    · rw [hthis]
      refine ⟨(h.queue c).capacity, (h.queue c).waiting, fun _ => hfull, fun r hr s hs => ?_,
        (h.queue c).closing⟩
      rcases List.mem_append.mp hs with hs | hs
      · exact (h.queue c).together r hr s hs
      · rw [List.mem_singleton.mp hs]
        exact hreceivers r hr
    · rw [hthis]
      refine ⟨(h.ledger c).history, (h.ledger c).balance, ?_, fun hP hclosed => ?_⟩
      · have horder := (h.ledger c).order
        have hle : ∀ s ∈ (w.channel c).senders, s.waiter.call ≤ call := fun s hs =>
          h.registered.held_le hwaiting (s := .sender c s.waiter) (List.mem_map_of_mem hs)
        show ((sentOn c w.log).map Prod.fst ++
          ((w.channel c).senders ++ [PendingSender.mk value ⟨call, i⟩]).map
            (·.waiter.call)).Pairwise (· ≤ ·)
        rw [List.map_append, ← List.append_assoc]
        refine List.pairwise_append.mpr ⟨horder, by simp, ?_⟩
        simp only [List.mem_append, List.mem_map, List.map_cons, List.map_nil, List.mem_singleton]
        rintro _ (⟨x, hx, rfl⟩ | ⟨s, hs, rfl⟩) _ rfl
        · exact h.registered.sentOn_le hwaiting.last x hx
        · exact hle s hs
      · simp [hopen hP] at hclosed

/-- Waiting in one place leaves the other cases blocked. -/
theorem Blocks.wait {entry : SelectCase α × Nat} {other : SelectCase α}
    (h : w.Blocks P call other) : (w.wait call entry).Blocks P call other := by
  obtain ⟨entry, i⟩ := entry
  match entry with
  | .receive none => exact h
  | .send none _ => exact h
  | .receive (some c) =>
    match other, h with
    | .receive none, h => exact h
    | .send none _, h => exact h
    | .receive (some d), h =>
      simp only [Blocks, Channels.wait, channel_update] at h ⊢
      split <;> simp_all
    | .send (some d) v, h =>
      simp only [Blocks, Channels.wait, channel_update] at h ⊢
      split
      · rename_i hd
        subst hd
        refine ⟨fun r hr => ?_, h.2⟩
        rcases List.mem_append.mp hr with hr | hr
        · exact h.1 r hr
        · rw [List.mem_singleton.mp hr]
      · exact h
  | .send (some c) value =>
    match other, h with
    | .receive none, h => exact h
    | .send none _, h => exact h
    | .send (some d) v, h =>
      simp only [Blocks, Channels.wait, channel_update] at h ⊢
      split <;> simp_all
    | .receive (some d), h =>
      simp only [Blocks, Channels.wait, channel_update] at h ⊢
      split
      · rename_i hd
        subst hd
        refine ⟨h.1, h.2.1, fun s hs => ?_⟩
        rcases List.mem_append.mp hs with hs | hs
        · exact h.2.2 s hs
        · rw [List.mem_singleton.mp hs]
      · exact h

theorem Waiting.wait {e : SelectCase α × Nat} (h : w.Waiting call e.2)
    (hcancels : ∃ r, w.calls[call]? = some r ∧ r.cancels = true) :
    (w.wait call e).Waiting call (e.2 + 1)
      ∧ ∃ r, (w.wait call e).calls[call]? = some r ∧ r.cancels = true := by
  obtain ⟨r, hr, hpending, -, hbelow⟩ := h.record
  obtain ⟨r', hr', hyes⟩ := hcancels
  obtain rfl : r = r' := Option.some.inj (hr.symm.trans hr')
  have hsame : (w.wait call e).calls = w.calls ∨ ∃ slot : Slot, slot.waiter.index = e.2 ∧
      (w.wait call e).calls = w.calls.modify call fun r => { r with waits := r.waits ++ [slot] } := by
    obtain ⟨entry, i⟩ := e
    match entry with
    | .receive none => exact .inl rfl
    | .send none _ => exact .inl rfl
    | .receive (some c) => exact .inr ⟨.receiver c ⟨call, i⟩, rfl, rfl⟩
    | .send (some c) _ => exact .inr ⟨.sender c ⟨call, i⟩, rfl, rfl⟩
  rcases hsame with hcalls | ⟨slot, hindex, hcalls⟩
  · rw [hcalls]
    refine ⟨⟨by rw [hcalls]; exact h.last, r, hcalls ▸ hr, hpending, .inl hyes, fun slot hs => ?_⟩,
      r, hr, hyes⟩
    have := hbelow slot hs
    omega
  · have hget : (w.wait call e).calls[call]? = some { r with waits := r.waits ++ [slot] } := by
      rw [hcalls, List.getElem?_modify]
      simp [hr]
    refine ⟨⟨by rw [hcalls, List.length_modify]; exact h.last, _, hget, hpending, .inl hyes,
      fun s hs => ?_⟩, _, hget, hyes⟩
    rcases List.mem_append.mp hs with hs | hs
    · have := hbelow s hs
      omega
    · rw [List.mem_singleton.mp hs]
      omega

/-- A select takes its places one by one. -/
theorem Sound.foldl_wait (cases : List (SelectCase α)) (next : Nat) (h : Sound P w)
    (hwaiting : w.Waiting call next) (hcancels : ∃ r, w.calls[call]? = some r ∧ r.cancels = true)
    (hblocks : ∀ entry ∈ cases, w.Blocks P call entry) :
    Sound P ((cases.zipIdx next).foldl (fun w entry => w.wait call entry) w) := by
  induction cases generalizing next w with
  | nil => exact h
  | cons entry cases ih =>
    obtain ⟨hwaiting', hcancels'⟩ := hwaiting.wait (e := (entry, next)) hcancels
    exact ih (next + 1) (h.wait hwaiting (hblocks entry List.mem_cons_self)) hwaiting' hcancels'
      fun other hother => (hblocks other (List.mem_cons_of_mem _ hother)).wait

/-- A case that is not ready blocks. -/
theorem Sound.blocks (h : Sound P w) {entry : SelectCase α} (hready : w.ready entry = false)
    (hopen : P → ∀ c value, entry = .send (some c) value → (w.channel c).closed = false) :
    w.Blocks P call entry := by
  match entry with
  | .receive none => trivial
  | .send none _ => trivial
  | .receive (some c) =>
    simp only [ready, Channel.canReceive, Bool.or_eq_false_iff, Bool.not_eq_false',
      List.isEmpty_iff] at hready
    exact ⟨hready.1.1, hready.2, by simp [hready.1.2]⟩
  | .send (some c) value =>
    refine ⟨?_, fun hno => ?_, fun hP => hopen hP c value rfl⟩
    · have hclosed : (w.channel c).receivers ≠ [] → (w.channel c).closed = false := fun hne =>
        ((h.queue c).waiting hne).2
      simp only [ready, Channel.canSend] at hready
      by_cases hnil : (w.channel c).receivers = []
      · simp [hnil]
      · simp [hclosed hnil, hnil] at hready
    · simp only [ready, Channel.canSend, hno] at hready
      simp at hready
      exact hready.2

/-! ### Steps -/

theorem Sound.enter (h : Sound P w) : Sound P w.enter ∧ w.enter.Fresh w.calls.length :=
  ⟨⟨h.registered.enter.1, h.queue, h.ledger⟩, h.registered.enter.2⟩

/-- An answer that is about no channel. -/
theorem Sound.answeredOff (h : Sound P w) (hfresh : w.Fresh call) (hcall : event.call = call)
    (hoff : event.channel = none) : Sound P (w.settle call event) :=
  h.answered hfresh hcall fun d => (h.ledger d).other (by simp [hoff])

theorem Fresh.waiting (h : w.Fresh call) : w.Waiting call 0 :=
  ⟨h.last, {}, h.record, rfl, .inr rfl, by simp⟩

theorem pickReady_some {cases : List (SelectCase α)} {random : Nat} {entry : SelectCase α × Nat}
    (h : w.pickReady cases random = some entry) : w.ready entry.1 = true := by
  have hmem := List.mem_of_getElem? h
  simpa using (List.mem_filter.mp hmem).2

theorem pickReady_none {cases : List (SelectCase α)} {random : Nat}
    (h : w.pickReady cases random = none) : ∀ entry ∈ cases, w.ready entry = false := by
  intro entry hentry
  have hlength := List.getElem?_eq_none_iff.mp h
  have hnil : cases.zipIdx.filter (fun entry => w.ready entry.1) = [] := by
    by_contra hne
    have hpos := List.length_pos_iff.mpr hne
    have := Nat.mod_lt random hpos
    omega
  obtain ⟨i, hi, rfl⟩ := List.getElem_of_mem hentry
  have hmem : (cases[i], i) ∈ cases.zipIdx := List.mk_mem_zipIdx_iff_getElem?.mpr (by simp [hi])
  simpa using List.filter_eq_nil_iff.mp hnil _ hmem

/-- The select waits, having nothing ready. -/
theorem Sound.selectWaits (h : Sound P w) (hfresh : w.Fresh call) {cases : List (SelectCase α)}
    (hready : ∀ entry ∈ cases, w.ready entry = false)
    (hopen : P → ∀ c value, .send (some c) value ∈ cases → (w.channel c).closed = false) :
    Sound P (cases.zipIdx.foldl (fun w entry => w.wait call entry)
      { w with calls := w.calls.modify call fun r => { r with cancels := true } }) := by
  obtain ⟨w', hw'⟩ : ∃ w' : Channels α, w' = { w with
      calls := w.calls.modify call fun r => { r with cancels := true } } := ⟨_, rfl⟩
  rw [← hw']
  have hchannel : w'.channel = w.channel := by rw [hw']
  have hlog : w'.log = w.log := by rw [hw']
  have hlength : w'.calls.length = w.calls.length := by rw [hw']; simp
  have hsame : w'.calls[call]? = some { cancels := true } := by
    rw [hw', List.getElem?_modify]
    simp [hfresh.record]
  have hother : ∀ i, i ≠ call → w'.calls[i]? = w.calls[i]? := by
    intro i hi
    rw [hw', List.getElem?_modify]
    simp [Ne.symm hi]
  have hholds : ∀ slot, w'.Holds slot ↔ w.Holds slot := fun slot => by
    cases slot <;> simp [Holds, hchannel]
  have hcalled : ∀ slot, w'.Called slot ↔ w.Called slot := fun slot => by
    cases slot <;> simp [Called, hchannel]
  have hcases : ∀ (i : Nat) (r : Call), w'.calls[i]? = some r →
      (i = call ∧ r = { cancels := true }) ∨ w.calls[i]? = some r := by
    intro i r hr
    by_cases hi : i = call
    · exact .inl ⟨hi, Option.some.inj (hr.symm.trans (hi ▸ hsame))⟩
    · exact .inr ((hother i hi) ▸ hr)
  have hreg : w'.Registered [] := by
    refine ⟨hchannel ▸ h.registered.distinct, fun slot hslot => ?_, fun slot hslot => ?_,
      fun i r hr => ?_, fun i r hr => ?_, fun i r hr => ?_, fun i r hr => ?_, ?_⟩
    · have hheld := (hholds slot).mp hslot
      rw [hother _ (h.registered.fresh_not_held hfresh hheld)]
      exact h.registered.live slot hheld
    · obtain ⟨r, hr, hmem⟩ := h.registered.called slot (hslot.imp_left (hcalled slot).mp)
      have hne : slot.waiter.call ≠ call := by
        rintro heq
        rw [heq, hfresh.record] at hr
        cases hr
        simp at hmem
      exact ⟨r, (hother _ hne).trans hr, hmem⟩
    · rcases hcases i r hr with ⟨rfl, rfl⟩ | hr
      · simp
      · exact h.registered.own i r hr
    · rcases hcases i r hr with ⟨rfl, rfl⟩ | hr
      · simp
      · exact h.registered.single i r hr
    · rcases hcases i r hr with ⟨rfl, rfl⟩ | hr
      · simp
      · exact fun hsel slot hmem => (h.registered.present i r hr hsel slot hmem).imp
          (hholds slot).mpr (Or.imp_left (hcalled slot).mpr)
    · rw [hlog]
      rcases hcases i r hr with ⟨rfl, rfl⟩ | hr
      · exact h.registered.once i {} hfresh.record
      · exact h.registered.once i r hr
    · rw [hlog, hlength]
      exact h.registered.bound
  have hsound : Sound P w' :=
    ⟨hreg, hchannel ▸ h.queue, fun c => by rw [hlog, hchannel]; exact h.ledger c⟩
  refine hsound.foldl_wait cases 0
    ⟨hlength ▸ hfresh.last, _, hsame, rfl, .inl rfl, by simp⟩ ⟨_, hsame, rfl⟩ fun entry hentry => ?_
  have hblocks : w.Blocks P call entry := h.blocks (hready entry hentry) fun hP c value heq =>
    hopen hP c value (heq ▸ hentry)
  cases entry with
  | receive c =>
    cases c with
    | none => trivial
    | some c => simpa only [Blocks, hchannel] using hblocks
  | send c value =>
    cases c with
    | none => trivial
    | some c => simpa only [Blocks, hchannel] using hblocks

/-- No select that finds nothing ready offers a value to a closed channel. -/
def SendsOpen (w : Channels α) : ChannelStep α → Prop
  | .select cases _ _ => (∀ entry ∈ cases, w.ready entry = false) →
      ∀ c value, .send (some c) value ∈ cases → (w.channel c).closed = false
  | _ => True

theorem Sound.select (h : Sound P w) {cases : List (SelectCase α)} {hasDefault : Bool}
    {random : Nat} (hact : P → w.SendsOpen (.select cases hasDefault random)) :
    Sound P (w.select cases hasDefault random) := by
  obtain ⟨henter, hfresh⟩ := h.enter
  unfold Channels.select
  dsimp only
  split
  · split
    · rename_i result w' htry
      rcases henter.tryReceive hfresh htry with ⟨answer, hanswer, hall⟩ | ⟨hnone, -⟩
      · cases hanswer
        exact hall _
      · simp at hnone
    · rename_i c i hpick w' htry
      rcases henter.tryReceive hfresh htry with ⟨answer, hanswer, -⟩ | ⟨-, rfl, -⟩
      · simp at hanswer
      · exact henter.answeredOff hfresh rfl rfl
  · rename_i c value i hpick
    split
    · exact henter.answeredOff hfresh rfl rfl
    · rename_i sent w' htry
      obtain ⟨hopen, ⟨rfl, hall⟩ | ⟨-, -, hreceivers, hfull⟩⟩ := henter.trySend hfresh htry
      · exact hall i
      · have hready := pickReady_some hpick
        simp only [ready, Channel.canSend, hopen, hreceivers] at hready
        simp at hready
        omega
  · rename_i hreceive hsend
    split
    · exact henter.answeredOff hfresh rfl rfl
    · have hnone : w.enter.pickReady cases random = none := by
        refine Option.eq_none_iff_forall_ne_some.mpr fun entry hpick => ?_
        have hready := pickReady_some hpick
        match entry, hready, hpick with
        | (.receive none, _), hready, _ => simp [ready] at hready
        | (.send none _, _), hready, _ => simp [ready] at hready
        | (.receive (some c), i), _, hpick => exact hreceive c i hpick
        | (.send (some c) value, i), _, hpick => exact hsend c value i hpick
      have hready := pickReady_none hnone
      exact henter.selectWaits hfresh hready fun hP => hact hP hready

/-- Every step keeps what fits together. -/
theorem Sound.exec (h : Sound P w) (act : ChannelStep α) (hact : P → w.SendsOpen act) :
    Sound P (w.exec act) := by
  obtain ⟨henter, hfresh⟩ := h.enter
  cases act with
  | trySend c value =>
    simp only [Channels.exec, callTrySend]
    split
    · exact henter.answeredOff hfresh rfl rfl
    · rename_i w' htry
      obtain ⟨-, ⟨-, hall⟩ | ⟨hno, -⟩⟩ := henter.trySend hfresh htry
      · exact hall 0
      · simp at hno
    · rename_i w' htry
      obtain ⟨-, ⟨hno, -⟩ | ⟨-, rfl, -⟩⟩ := henter.trySend hfresh htry
      · simp at hno
      · exact henter.answeredOff hfresh rfl rfl
  | send c value =>
    simp only [Channels.exec, Channels.send]
    split
    · exact henter.answeredOff hfresh rfl rfl
    · rename_i w' htry
      obtain ⟨-, ⟨-, hall⟩ | ⟨hno, -⟩⟩ := henter.trySend hfresh htry
      · exact hall 0
      · simp at hno
    · rename_i w' htry
      obtain ⟨hopen, ⟨hno, -⟩ | ⟨-, rfl, hreceivers, hfull⟩⟩ := henter.trySend hfresh htry
      · simp at hno
      · exact henter.wait hfresh.waiting ⟨by simp [hreceivers], fun _ => hfull, fun _ => hopen⟩
  | tryReceive c =>
    simp only [Channels.exec, callTryReceive]
    split
    · rename_i result w' htry
      rcases henter.tryReceive hfresh htry with ⟨answer, hanswer, hall⟩ | ⟨hnone, -⟩
      · cases hanswer
        exact hall 0
      · simp at hnone
    · rename_i w' htry
      rcases henter.tryReceive hfresh htry with ⟨answer, hanswer, -⟩ | ⟨-, rfl, -⟩
      · simp at hanswer
      · exact henter.answeredOff hfresh rfl rfl
  | receive c =>
    simp only [Channels.exec, Channels.receive]
    split
    · rename_i result w' htry
      rcases henter.tryReceive hfresh htry with ⟨answer, hanswer, hall⟩ | ⟨hnone, -⟩
      · cases hanswer
        exact hall 0
      · simp at hnone
    · rename_i w' htry
      rcases henter.tryReceive hfresh htry with ⟨answer, hanswer, -⟩ | ⟨-, rfl, hv, hs, ho⟩
      · simp at hanswer
      · exact henter.wait hfresh.waiting ⟨hv, ho, by simp [hs]⟩
  | select cases hasDefault random => exact h.select hact
  | close c =>
    simp only [Channels.exec, callClose]
    split
    · exact henter.answeredOff hfresh rfl rfl
    · rename_i w' hclose
      exact henter.close hfresh hclose
  | notify c => exact h.notify c

theorem sound_initial (P : Prop) (capacity : Nat → Nat) :
    Sound P (initial capacity : Channels α) where
  registered :=
    { distinct := fun c => ⟨List.nodup_nil, List.nodup_nil⟩
      live := fun slot hslot => by cases slot <;> simp [Holds, initial] at hslot
      called := fun slot hslot => by cases slot <;> simp [Called, initial] at hslot
      own := by simp [initial]
      single := by simp [initial]
      present := by simp [initial]
      once := by simp [initial]
      bound := by simp [initial] }
  queue c := ⟨Nat.zero_le _, by simp [initial], by simp [initial], by simp [initial],
    by simp [initial]⟩
  ledger c :=
    { history := ⟨by simp [initial, ClosedIn], by simp [initial], by simp [initial]⟩
      balance := rfl
      order := List.Pairwise.nil
      early := fun _ _ => rfl }

theorem sound_of_reach {capacity : Nat → Nat} (h : (channels α capacity).Reach w) :
    Sound False w :=
  h.invariant (fun _ hinit => hinit ▸ sound_initial False capacity) fun _ act _ _ hsound hstep =>
    hstep ▸ hsound.exec act False.elim

theorem sound_of_reach_guarded {capacity : Nat → Nat}
    (h : ((channels α capacity).guarded SendsOpen).Reach w) : Sound True w :=
  h.invariant (fun _ hinit => hinit ▸ sound_initial True capacity) fun _ act _ _ hsound hstep =>
    hstep.1 ▸ hsound.exec act fun _ => hstep.2

/-! ## What channels promise -/

/-- Values sent to a channel and values received from it. -/
structure Delivers (w : Channels α) (c : Nat) : Prop where
  received : (sentOn c w.log).map Prod.snd = receivedOn c w.log ++ (w.channel c).values
  inOrder : ((sentOn c w.log).map Prod.fst).Pairwise (· < ·)
  before : ∀ x ∈ sentOn c w.log, ∀ s ∈ (w.channel c).senders, x.1 < s.waiter.call
  queued : ((w.channel c).senders.map (·.waiter.call)).Pairwise (· ≤ ·)
  capacity : (w.channel c).values.length ≤ (w.channel c).capacity
  notLost : (w.channel c).receivers ≠ [] → (w.channel c).values = []
    ∧ ∀ r ∈ (w.channel c).receivers, ∀ s ∈ (w.channel c).senders, r.call = s.waiter.call
  drained : ∀ before waiter, before ++ [Event.received c waiter none] <+: w.log →
    ClosedIn c before ∧ (sentOn c before).map Prod.snd = receivedOn c before

/-- One answer for each call, and waiters of unanswered calls only. -/
structure Answers (w : Channels α) : Prop where
  once : ∀ (i : Nat) (r : Call), w.calls[i]? = some r →
    (eventsOf i w.log).length = if r.selected then 1 else 0
  noStale : ∀ slot, w.Holds slot → ∃ r, w.calls[slot.waiter.call]? = some r
    ∧ r.selected = false ∧ slot ∈ r.waits
  kept : ∀ (i : Nat) (r : Call), w.calls[i]? = some r → r.selected = false →
    ∀ slot ∈ r.waits, w.Holds slot ∨ w.Called slot

/-- Nobody sends to a closed channel. -/
structure RefusesSends (w : Channels α) (c : Nat) : Prop where
  noneBlocked : (w.channel c).closed = true → (w.channel c).senders = []
  noneSent : ∀ before call after, w.log = before ++ Event.closed c call :: after →
    sentOn c after = []
  noneReceived : ∀ before call after, w.log = before ++ Event.closed c call :: after →
    receivedOn c w.log <+: (sentOn c before).map Prod.snd

theorem eventsOf_ne_nil {event : Event α} {log : List (Event α)} (h : event ∈ log) :
    0 < (eventsOf event.call log).length :=
  List.length_pos_of_mem (List.mem_filter.mpr ⟨h, by simp⟩)

theorem mem_sentOn {log : List (Event α)} {x : Nat × α} (h : x ∈ sentOn c log) :
    ∃ event ∈ log, event.call = x.1 := by
  obtain ⟨event, he, hsent⟩ := List.mem_filterMap.mp h
  refine ⟨event, he, ?_⟩
  cases event with
  | sent d waiter value =>
    simp only [Option.ite_none_right_eq_some, Option.some.injEq] at hsent
    obtain ⟨-, rfl⟩ := hsent
    rfl
  | _ => simp at hsent

/-- A call that is answered once sends once. -/
theorem nodup_sentOn {log : List (Event α)} (h : ∀ i, (eventsOf i log).length ≤ 1) :
    ((sentOn c log).map Prod.fst).Nodup := by
  induction log with
  | nil => exact List.nodup_nil
  | cons event log ih =>
    have hrest : ((sentOn c log).map Prod.fst).Nodup := ih fun i =>
      ((List.sublist_cons_self event log).filter _).length_le.trans (h i)
    cases event with
    | sent d waiter value =>
      by_cases hd : d = c
      · subst hd
        rw [sentOn_sent, List.map_cons]
        refine List.nodup_cons.mpr ⟨fun hmem => ?_, hrest⟩
        obtain ⟨x, hx, hcall⟩ := List.mem_map.mp hmem
        obtain ⟨event, he, hevent⟩ := mem_sentOn hx
        have hpos := eventsOf_ne_nil he
        have hone := h waiter.call
        rw [hevent, hcall] at hpos
        have hcons : eventsOf waiter.call (.sent d waiter value :: log)
            = .sent d waiter value :: eventsOf waiter.call log := by simp [eventsOf, Event.call]
        rw [hcons, List.length_cons] at hone
        dsimp only at hpos
        omega
      · simpa [sentOn, hd] using hrest
    | _ => exact hrest

theorem Sound.answers (h : Sound P w) : Answers w where
  once := h.registered.once
  noStale := h.registered.live
  kept i r hr hpending slot hslot := by
    simpa using h.registered.present i r hr hpending slot hslot

/-- A call is answered at most once. -/
theorem Sound.eventsOf_le (h : Sound P w) (i : Nat) : (eventsOf i w.log).length ≤ 1 := by
  by_cases hnil : eventsOf i w.log = []
  · simp [hnil]
  · obtain ⟨event, hmem⟩ := List.exists_mem_of_ne_nil _ hnil
    obtain ⟨he, hcall⟩ := List.mem_filter.mp hmem
    have hlt := h.registered.bound event he
    rw [of_decide_eq_true hcall] at hlt
    rw [h.registered.once i _ (List.getElem?_eq_getElem hlt)]
    split <;> simp

theorem Sound.delivers (h : Sound P w) (c : Nat) : Delivers w c where
  received := (h.ledger c).balance
  inOrder := by
    have hle := (List.pairwise_append.mp (h.ledger c).order).1
    have hne : ((sentOn c w.log).map Prod.fst).Pairwise (· ≠ ·) := nodup_sentOn h.eventsOf_le
    exact (hle.and hne).imp fun hboth => lt_of_le_of_ne hboth.1 hboth.2
  before x hx s hs := by
    have hle := (List.pairwise_append.mp (h.ledger c).order).2.2 x.1 (List.mem_map_of_mem hx)
      s.waiter.call (List.mem_map.mpr ⟨s, hs, rfl⟩)
    refine lt_of_le_of_ne hle fun heq => ?_
    obtain ⟨event, he, hevent⟩ := mem_sentOn hx
    obtain ⟨r, hr, hpending, -⟩ := h.registered.live (.sender c s.waiter) (List.mem_map_of_mem hs)
    have hnone := h.registered.once _ r hr
    have hpos := eventsOf_ne_nil he
    rw [hevent, heq] at hpos
    rw [hpending] at hnone
    exact absurd hpos (by simp only [Slot.waiter] at hnone; simp [hnone])
  queued := (List.pairwise_append.mp (h.ledger c).order).2.1
  capacity := (h.queue c).capacity
  notLost hne := ⟨((h.queue c).waiting hne).1, (h.queue c).together⟩
  drained := (h.ledger c).history.drained

theorem Sound.refusesSends (h : Sound True w) (c : Nat) : RefusesSends w c := by
  have hnone : ∀ before call after, w.log = before ++ Event.closed c call :: after →
      sentOn c after = [] := by
    intro before call after hlog
    have hlate := (h.ledger c).history.late trivial before call
      ⟨after, by rw [hlog, List.append_assoc]; rfl⟩
    rw [hlog, sentOn_append, sentOn_closed] at hlate
    exact List.append_right_eq_self.mp hlate
  refine ⟨(h.ledger c).early trivial, hnone, fun before call after hlog => ?_⟩
  have hbalance := (h.ledger c).balance
  have hsent : sentOn c w.log = sentOn c before := by
    rw [hlog, sentOn_append, sentOn_closed, hnone before call after hlog, List.append_nil]
  exact ⟨(w.channel c).values, by rw [← hbalance, hsent]⟩

end Channels

end Webernetes.Go
