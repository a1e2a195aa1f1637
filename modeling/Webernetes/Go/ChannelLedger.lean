/-
Webernetes.Go.ChannelLedger — one channel: what its queues can hold at the
same time, and what the log says of its values.

`Queue` is about the channel alone. `Ledger` compares it with the log:
the values of completed sends, in the order the calls were made, are the
values received and then the buffered ones. There is one lemma for each
way a value moves.
-/
import Webernetes.Go.ChannelCalls
import Mathlib.Data.List.Induction

namespace Webernetes.Go

open Js Base

variable {α : Type}

/-! ## What the log says of a channel -/

/-- The sends to a channel that completed: the call and the value. -/
def sentOn (c : Nat) (log : List (Event α)) : List (Nat × α) :=
  log.filterMap fun
    | .sent d waiter value => if d = c then some (waiter.call, value) else none
    | _ => none

/-- The values receivers got from a channel. -/
def receivedOn (c : Nat) (log : List (Event α)) : List α :=
  log.filterMap fun
    | .received d _ result => if d = c then result else none
    | _ => none

/-- The channel was closed. -/
def ClosedIn (c : Nat) (log : List (Event α)) : Prop := ∃ call, Event.closed c call ∈ log

section Log

variable {c d call : Nat} {log log' : List (Event α)}

@[simp] theorem sentOn_append :
    sentOn c (log ++ log') = sentOn c log ++ sentOn c log' := List.filterMap_append

@[simp] theorem receivedOn_append :
    receivedOn c (log ++ log') = receivedOn c log ++ receivedOn c log' := List.filterMap_append

@[simp] theorem sentOn_nil : sentOn c ([] : List (Event α)) = [] := rfl

@[simp] theorem receivedOn_nil : receivedOn c ([] : List (Event α)) = [] := rfl

@[simp] theorem sentOn_sent (waiter : Waiter) (value : α) :
    sentOn c (.sent c waiter value :: log) = (waiter.call, value) :: sentOn c log := by
  simp [sentOn]

@[simp] theorem sentOn_received (waiter : Waiter) (result : Option α) :
    sentOn c (.received d waiter result :: log) = sentOn c log := rfl

@[simp] theorem sentOn_closed : sentOn c (.closed d call :: log) = sentOn c log := rfl

@[simp] theorem receivedOn_sent (waiter : Waiter) (value : α) :
    receivedOn c (.sent d waiter value :: log) = receivedOn c log := rfl

@[simp] theorem receivedOn_some (waiter : Waiter) (value : α) :
    receivedOn c (.received c waiter (some value) :: log) = value :: receivedOn c log := by
  simp [receivedOn]

@[simp] theorem receivedOn_none (waiter : Waiter) :
    receivedOn c (.received d waiter none :: log) = receivedOn c log := by
  simp [receivedOn]

@[simp] theorem receivedOn_closed : receivedOn c (.closed d call :: log) = receivedOn c log := rfl

end Log

/-! ## One channel -/

/-- What the queues of a channel can hold at the same time. -/
structure Channel.Queue (ch : Channel α) : Prop where
  capacity : ch.values.length ≤ ch.capacity
  waiting : ch.receivers ≠ [] → ch.values = [] ∧ ch.closed = false
  full : ch.senders ≠ [] → ch.closed = false → ch.capacity ≤ ch.values.length
  together : ∀ r ∈ ch.receivers, ∀ s ∈ ch.senders, r.call = s.waiter.call
  closing : ch.closing ≠ [] → ch.closed = true ∧ ch.values = []

def Event.channel : Event α → Option Nat
  | sent c _ _ => some c
  | received c _ _ => some c
  | closed c _ => some c
  | _ => none

theorem Channel.Queue.keep {c : Nat} {p : Slot → Bool} {ch : Channel α} (h : ch.Queue) :
    (ch.keep c p).Queue where
  capacity := h.capacity
  waiting hne := h.waiting fun hnil => hne (by simp [Channel.keep, hnil])
  full hne := h.full fun hnil => hne (by simp [Channel.keep, hnil])
  together r hr s hs := h.together r (List.mem_of_mem_filter hr) s (List.mem_of_mem_filter hs)
  closing := h.closing

namespace Channel.Queue

variable {ch : Channel α} {receiver : Waiter} {receivers : List Waiter} {sender : PendingSender α}
  {senders : List (PendingSender α)} {value : α} {values : List α}

theorem shiftReceiver (h : ch.Queue) (hreceivers : ch.receivers = receiver :: receivers) :
    ({ ch with receivers } : Channel α).Queue where
  capacity := h.capacity
  waiting _ := h.waiting (by simp [hreceivers])
  full := h.full
  together r hr := h.together r (by simp [hreceivers, show r ∈ receivers from hr])
  closing := h.closing

theorem pushValue (h : ch.Queue) (hopen : ch.closed = false) (hreceivers : ch.receivers = [])
    (hroom : ch.values.length < ch.capacity) (value : α) :
    ({ ch with values := ch.values ++ [value] } : Channel α).Queue where
  capacity := by simpa [Nat.succ_le_iff] using hroom
  waiting hne := absurd hreceivers hne
  full hne := fun _ => absurd (h.full hne hopen) (by omega)
  together := h.together
  closing hne := absurd (h.closing hne).1 (by simp [hopen])

theorem popValue (h : ch.Queue) (hvalues : ch.values = value :: values)
    (hsenders : ch.senders = [] ∨ ch.closed = true) :
    ({ ch with values } : Channel α).Queue where
  capacity := by
    have := h.capacity
    simp only [hvalues, List.length_cons] at this
    show values.length ≤ ch.capacity
    omega
  waiting hne := absurd (h.waiting hne).1 (by simp [hvalues])
  full hne hopen := by
    rcases hsenders with hnil | hclosed
    · exact absurd hnil hne
    · exact absurd hclosed (by simp [show ch.closed = false from hopen])
  together := h.together
  closing hne := absurd (h.closing hne).2 (by simp [hvalues])

/-- The first sender's value comes last, the first value is taken. -/
theorem shiftSender (h : ch.Queue) (hsenders : ch.senders = sender :: senders)
    (hvalues : ch.values ++ [sender.value] = value :: values) :
    ({ ch with senders, values } : Channel α).Queue := by
  have hlength : values.length = ch.values.length := by
    have := congrArg List.length hvalues
    simpa using this.symm
  have hnil : ch.values = [] → values = [] := fun hnil =>
    List.length_eq_zero_iff.mp (by rw [hlength, hnil]; rfl)
  refine ⟨?_, fun hne => ?_, fun _ hopen => ?_, fun r hr s hs => ?_, fun hne => ?_⟩
  · exact hlength ▸ h.capacity
  · exact (h.waiting hne).imp_left hnil
  · exact hlength ▸ h.full (by simp [hsenders]) hopen
  · exact h.together r hr s (by simp [hsenders, show s ∈ senders from hs])
  · exact (h.closing hne).imp_right hnil

end Channel.Queue

/-- What the log says of the close of a channel. `P` stands for: no select
offers a value to a closed channel. -/
structure History (P : Prop) (c : Nat) (log : List (Event α)) (closed : Bool) : Prop where
  closedIn : closed = true ↔ ClosedIn c log
  drained : ∀ before waiter, before ++ [Event.received c waiter none] <+: log →
    ClosedIn c before ∧ (sentOn c before).map Prod.snd = receivedOn c before
  late : P → ∀ before call, before ++ [Event.closed c call] <+: log → sentOn c log = sentOn c before

/-- What the log says of a channel. -/
structure Ledger (P : Prop) (c : Nat) (log : List (Event α)) (ch : Channel α) : Prop where
  history : History P c log ch.closed
  balance : (sentOn c log).map Prod.snd = receivedOn c log ++ ch.values
  order : ((sentOn c log).map Prod.fst ++ ch.senders.map (·.waiter.call)).Pairwise (· ≤ ·)
  early : P → ch.closed = true → ch.senders = []

section Ledgers

variable {P : Prop} {c call : Nat} {log : List (Event α)} {ch : Channel α} {p : Slot → Bool}
  {event : Event α} {waiter : Waiter} {value : α} {closed : Bool}

theorem off (hevent : event.channel ≠ some c) :
    sentOn c [event] = [] ∧ receivedOn c [event] = [] ∧ (∀ call, event ≠ .closed c call)
      ∧ ∀ waiter result, event ≠ .received c waiter result := by
  cases event <;> simp_all [sentOn, receivedOn, Event.channel]

/-- An event that is no close, and no send after one. -/
theorem History.append (h : History P c log closed) (hclosed : ∀ call, event ≠ .closed c call)
    (hnone : ∀ waiter, event = .received c waiter none →
      closed = true ∧ (sentOn c log).map Prod.snd = receivedOn c log)
    (hlate : P → closed = true → sentOn c [event] = []) : History P c (log ++ [event]) closed where
  closedIn := by
    rw [h.closedIn]
    simp [ClosedIn, Ne.symm (hclosed _)]
  drained before waiter hpre := by
    rcases List.prefix_concat_iff.mp hpre with heq | hpre
    · obtain ⟨rfl, hlast⟩ := List.append_inj' heq rfl
      obtain ⟨hclosed, hbalance⟩ := hnone waiter (List.singleton_inj.mp hlast).symm
      exact ⟨h.closedIn.mp hclosed, hbalance⟩
    · exact h.drained before waiter hpre
  late hP before call hpre := by
    rcases List.prefix_concat_iff.mp hpre with heq | hpre
    · exact absurd (List.append_inj' heq rfl).2 (by simpa using (hclosed call).symm)
    · have hin : ClosedIn c log :=
        ⟨call, hpre.subset (List.mem_append_right _ (List.mem_singleton_self _))⟩
      rw [sentOn_append, hlate hP (h.closedIn.mpr hin), List.append_nil]
      exact h.late hP before call hpre

namespace Ledger

theorem keep (h : Ledger P c log ch) : Ledger P c log (ch.keep c p) where
  history := h.history
  balance := h.balance
  order := h.order.sublist ((List.Sublist.refl _).append (List.filter_sublist.map _))
  early hP hclosed := by simp [Channel.keep, h.early hP hclosed]

/-- What happens on other channels. -/
theorem other (h : Ledger P c log ch) (hevent : event.channel ≠ some c) :
    Ledger P c (log ++ [event]) ch := by
  obtain ⟨hsent, hreceived, hclosed, hnone⟩ := off hevent
  refine ⟨h.history.append hclosed (fun waiter heq => absurd heq (hnone _ _)) fun _ _ => hsent,
    ?_, ?_, h.early⟩
  · simpa [hsent, hreceived] using h.balance
  · simpa [hsent] using h.order

theorem others (h : Ledger P c log ch) {l : List (Event α)}
    (hevents : ∀ event ∈ l, event.channel ≠ some c) : Ledger P c (log ++ l) ch := by
  induction l using List.reverseRecOn with
  | nil => simpa using h
  | append_singleton events event ih =>
    rw [← List.append_assoc]
    exact (ih fun e he => hevents e (by simp [he])).other (hevents event (by simp))

/-- A value is buffered. -/
theorem buffered (h : Ledger P c log ch) (hopen : ch.closed = false) (hsenders : ch.senders = [])
    (hlast : ∀ x ∈ sentOn c log, x.1 ≤ call) (i : Nat) (value : α) :
    Ledger P c (log ++ [Event.sent c ⟨call, i⟩ value]) { ch with values := ch.values ++ [value] } where
  history := h.history.append (by simp) (by simp) (by simp [hopen])
  balance := by simp [h.balance]
  order := by
    have horder := h.order
    simp only [hsenders, List.map_nil, List.append_nil] at horder
    simp only [hsenders, sentOn_append, sentOn_sent, sentOn_nil, List.map_append, List.map_cons,
      List.map_nil, List.append_nil]
    exact List.pairwise_append.mpr ⟨horder, List.pairwise_singleton _ _, by grind⟩
  early := by simp [hopen]

/-- A value goes to a blocked receiver. -/
theorem handed (h : Ledger P c log ch) (hqueue : ch.Queue) {receiver : Waiter}
    {receivers : List Waiter} (hreceivers : ch.receivers = receiver :: receivers)
    (hlast : ∀ x ∈ sentOn c log, x.1 ≤ call) (i : Nat) (value : α) :
    Ledger P c (log ++ [Event.received c receiver (some value)] ++ [Event.sent c ⟨call, i⟩ value])
      (({ ch with receivers } : Channel α).without c receiver.call) := by
  obtain ⟨hvalues, hopen⟩ := hqueue.waiting (by simp [hreceivers])
  have hsenders : (({ ch with receivers } : Channel α).without c receiver.call).senders = [] := by
    refine List.filter_eq_nil_iff.mpr fun s hs => ?_
    have := hqueue.together receiver (by simp [hreceivers]) s hs
    simp [Slot.waiter, this]
  refine ⟨(h.history.append (by simp) (by simp) (by simp)).append (by simp) (by simp)
    (by simp [hopen]), ?_, ?_, fun _ _ => hsenders⟩
  · simp [h.balance, hvalues, Channel.without, Channel.keep]
  · have horder := (List.pairwise_append.mp h.order).1
    rw [hsenders]
    simp only [sentOn_append, sentOn_received, sentOn_sent, sentOn_nil, List.map_append,
      List.map_cons, List.map_nil, List.append_nil, List.append_assoc, List.nil_append]
    exact List.pairwise_append.mpr ⟨horder, List.pairwise_singleton _ _, by grind⟩

/-- The first value is taken and no sender takes its place. -/
theorem popped (h : Ledger P c log ch) {values : List α} (hvalues : ch.values = value :: values)
    (waiter : Waiter) :
    Ledger P c (log ++ [Event.received c waiter (some value)]) { ch with values } where
  history := h.history.append (by simp) (by simp) (by simp)
  balance := by simp [h.balance, hvalues]
  order := by simpa using h.order
  early := h.early

/-- The first value is taken and the first sender completes. -/
theorem taken (h : Ledger P c log ch) {values : List α} {sender : PendingSender α}
    {senders : List (PendingSender α)} (hsenders : ch.senders = sender :: senders)
    (hvalues : ch.values ++ [sender.value] = value :: values) (waiter : Waiter) :
    Ledger P c
      (log ++ [Event.sent c sender.waiter sender.value] ++ [Event.received c waiter (some value)])
      (({ ch with senders, values } : Channel α).without c sender.waiter.call) := by
  have hlate : P → ch.closed = true → sentOn c [.sent c sender.waiter sender.value] = [] :=
    fun hP hclosed => by simp [h.early hP hclosed] at hsenders
  refine ⟨(h.history.append (by simp) (by simp) hlate).append (by simp) (by simp) (by simp),
    ?_, ?_, fun hP hclosed => by simp [h.early hP hclosed] at hsenders⟩
  · simp [h.balance, Channel.without, Channel.keep, hvalues]
  · have horder := h.order
    rw [hsenders] at horder
    simp only [List.map_cons] at horder
    refine List.Pairwise.sublist ?_ horder
    simp only [Channel.without, Channel.keep, Slot.waiter, sentOn_append, sentOn_sent,
      sentOn_received, sentOn_nil, List.map_append, List.map_cons, List.map_nil, List.append_assoc,
      List.cons_append, List.nil_append]
    exact (List.Sublist.refl _).append ((List.filter_sublist.map _).cons_cons _)

/-- A receiver finds the channel closed and empty. -/
theorem ended (h : Ledger P c log ch) (hclosed : ch.closed = true) (hvalues : ch.values = [])
    (waiter : Waiter) : Ledger P c (log ++ [Event.received c waiter none]) ch where
  history := h.history.append (by simp)
    (fun _ _ => ⟨hclosed, by simpa [hvalues] using h.balance⟩) (by simp)
  balance := by simp [h.balance]
  order := by simpa using h.order
  early := h.early

/-- The channel is closed. -/
theorem close (h : Ledger P c log ch) (hopen : ch.closed = false) {ch' : Channel α}
    (hclosed : ch'.closed = true) (hvalues : ch'.values = ch.values) (hsenders : ch'.senders = [])
    (call : Nat) : Ledger P c (log ++ [Event.closed c call]) ch' := by
  have hnot : ¬ ClosedIn c log := fun hin => by simp [h.history.closedIn.mpr hin] at hopen
  refine ⟨⟨?_, fun before waiter hpre => ?_, fun hP before call' hpre => ?_⟩, ?_, ?_,
    fun _ _ => hsenders⟩
  · simp [hclosed, ClosedIn]
  · rcases List.prefix_concat_iff.mp hpre with heq | hpre
    · exact absurd (List.append_inj' heq rfl).2 (by simp)
    · exact h.history.drained before waiter hpre
  · rcases List.prefix_concat_iff.mp hpre with heq | hpre
    · simp [(List.append_inj' heq rfl).1]
    · exact absurd ⟨call', hpre.subset (List.mem_append_right _ (List.mem_singleton_self _))⟩ hnot
  · simp [h.balance, hvalues]
  · have horder := (List.pairwise_append.mp h.order).1
    simpa [hsenders] using horder

end Ledger

end Ledgers

end Webernetes.Go
