/-
Webernetes.ClientGo.DelayingRuns — what a delaying queue does with every
request.

`waitingFor` reads off the log which requests for an item wait in its heap
entry: those the loop received in time since it last took an entry of the
item. `Core` says that the heap agrees with the log, and each operation keeps
it. What follows for whole runs is `Serves`.
-/
import Webernetes.ClientGo.DelayingQueue

namespace Webernetes.ClientGo

open Js Go Base WaitForPriorityQueue

variable {T : Type}

/-! ## Reading the log -/

/-- The requests in the order of their numbers. -/
def requests (log : List (DelayEvent T)) : List (T × Time) :=
  log.filterMap fun
    | .requested item readyAt => some (item, readyAt)
    | _ => none

/-- The requests that the loop received. -/
def received (log : List (DelayEvent T)) : List Nat :=
  log.filterMap fun
    | .kept ref _ _ => some ref
    | .overdue ref _ _ _ => some ref
    | _ => none

/-- The ready times of what was taken from the heap. -/
def readyTimes (log : List (DelayEvent T)) : List Int :=
  log.filterMap fun
    | .ready _ readyAt _ => readyAt
    | _ => none

/-- The requests that the entry of an item stands for. -/
def waitingFor [DecidableEq T] (x : T) (log : List (DelayEvent T)) : List Nat :=
  log.foldl (fun refs event =>
    match event with
    | .kept ref item _ => if item = x then refs ++ [ref] else refs
    | .ready item _ _ => if item = x then [] else refs
    | _ => refs) []

/-- Their ready times. -/
def waitingTimes [DecidableEq T] (x : T) (log : List (DelayEvent T)) : Set Int :=
  {t | ∃ ref ∈ waitingFor x log, (requests log)[ref]? = some (x, some t)}

section Append

variable {log : List (DelayEvent T)}

@[simp] theorem requests_append (log log' : List (DelayEvent T)) :
    requests (log ++ log') = requests log ++ requests log' := List.filterMap_append ..

@[simp] theorem received_append (log log' : List (DelayEvent T)) :
    received (log ++ log') = received log ++ received log' := List.filterMap_append ..

@[simp] theorem readyTimes_append (log log' : List (DelayEvent T)) :
    readyTimes (log ++ log') = readyTimes log ++ readyTimes log' := List.filterMap_append ..

variable [DecidableEq T]

theorem waitingFor_append (x : T) (log : List (DelayEvent T)) (event : DelayEvent T) :
    waitingFor x (log ++ [event]) =
      match event with
      | .kept ref item _ => if item = x then waitingFor x log ++ [ref] else waitingFor x log
      | .ready item _ _ => if item = x then [] else waitingFor x log
      | _ => waitingFor x log := by
  simp only [waitingFor, List.foldl_append, List.foldl_cons, List.foldl_nil]

/-- A request that waits was received. -/
theorem waitingFor_subset (x : T) (log : List (DelayEvent T)) :
    ∀ ref ∈ waitingFor x log, ref ∈ received log := by
  induction log using List.reverseRecOn with
  | nil => simp [waitingFor]
  | append_singleton log event ih =>
    intro ref hmem
    rw [received_append, List.mem_append]
    rw [waitingFor_append] at hmem
    cases event with
    | kept r item time =>
      dsimp only at hmem
      split at hmem
      · rcases List.mem_append.mp hmem with hmem | hmem
        · exact .inl (ih ref hmem)
        · exact .inr (by simpa [received] using hmem)
      · exact .inl (ih ref hmem)
    | ready item readyAt time =>
      dsimp only at hmem
      split at hmem
      · simp at hmem
      · exact .inl (ih ref hmem)
    | added item => exact .inl (ih ref hmem)
    | requested item readyAt => exact .inl (ih ref hmem)
    | overdue r item readyAt time => exact .inl (ih ref hmem)

theorem kept_of_waitingFor (x : T) (log : List (DelayEvent T)) :
    ∀ ref ∈ waitingFor x log, ∃ time, .kept ref x time ∈ log := by
  induction log using List.reverseRecOn with
  | nil => simp [waitingFor]
  | append_singleton log event ih =>
    intro ref hmem
    rw [waitingFor_append] at hmem
    have hold : ref ∈ waitingFor x log → ∃ time, .kept ref x time ∈ log ++ [event] := fun hmem =>
      (ih ref hmem).imp fun _ hkept => List.mem_append_left _ hkept
    cases event with
    | kept r item time =>
      dsimp only at hmem
      split at hmem
      · rename_i hitem
        rcases List.mem_append.mp hmem with hmem | hmem
        · exact hold hmem
        · exact ⟨time, by simp [List.mem_singleton.mp hmem, hitem]⟩
      · exact hold hmem
    | ready item readyAt time =>
      dsimp only at hmem
      split at hmem
      · simp at hmem
      · exact hold hmem
    | added item => exact hold hmem
    | requested item readyAt => exact hold hmem
    | overdue r item readyAt time => exact hold hmem

/-- Of requests that wait there is an earliest. -/
theorem exists_least (x : T) (log : List (DelayEvent T)) (hne : (waitingTimes x log).Nonempty) :
    ∃ t, IsLeast (waitingTimes x log) t := by
  have hfinite : (waitingTimes x log).Finite := by
    refine ((waitingFor x log).toFinset.finite_toSet.image
      fun ref => (((requests log)[ref]?.bind Prod.snd).getD 0)).subset ?_
    rintro t ⟨ref, hmem, hrequest⟩
    exact ⟨ref, by simpa using hmem, by simp [hrequest]⟩
  obtain ⟨b, hb⟩ := hfinite.bddBelow
  obtain ⟨t, ht, hle⟩ := Int.exists_least_of_bdd ⟨b, fun z hz => hb hz⟩ hne
  exact ⟨t, ht, fun z hz => hle z hz⟩

end Append

/-! ## What is kept -/

variable [DecidableEq T]

/-- What the log says of requests. -/
structure History (log : List (DelayEvent T)) : Prop where
  /-- What is added on receipt is due. -/
  overdue : ∀ ref x t time, .overdue ref x t time ∈ log →
    (requests log)[ref]? = some (x, t) ∧ ∀ t' : Int, t = some t' → (t' : ℚ) ≤ time
  kept : ∀ ref x (time : ℚ), .kept ref x time ∈ log →
    ∃ t : Int, (requests log)[ref]? = some (x, some t) ∧ time < (t : ℚ)
  /-- What is taken from the heap stands for the requests that wait, and is due
  when the earliest of them is. -/
  ready : ∀ i x readyAt time, log[i]? = some (.ready x readyAt time) →
    ∃ t : Int, readyAt = some t ∧ IsLeast (waitingTimes x (log.take i)) t ∧ (t : ℚ) ≤ time
  order : (readyTimes log).Pairwise (· ≤ ·)

/-- The heap agrees with the log; `places` is where requests are that the loop
has yet to receive. -/
structure Core (nowMs : ℚ) (q : WaitForPriorityQueue T) (known : JsMap T Nat) (places : List Nat)
    (log : List (DelayEvent T)) : Prop where
  clock : 0 ≤ nowMs
  objects : ∀ ref, (q.wait ref).map Prod.fst = ((requests log)[ref]?).map Prod.fst
  placed : ∀ ref ∈ places, q.wait ref = (requests log)[ref]?
  entries : ∀ ref ∈ q.entries, ref ∈ received log
  accounted : (places ++ received log).Perm (List.range (requests log).length)
  range : ∀ (x : T) (t : Int), (x, some t) ∈ requests log → (t : ℚ) ≤ maxTime
  waiting : q.Waiting known.get
  due : ∀ x t, q.Due x t ↔ IsLeast (waitingTimes x log) t
  history : History log
  past : ∀ t ∈ readyTimes log, (t : ℚ) ≤ nowMs ∧ ∀ x t', q.Due x t' → t ≤ t'

section Core

variable {nowMs : ℚ} {q : WaitForPriorityQueue T} {known : JsMap T Nat} {places : List Nat}
  {log : List (DelayEvent T)}

theorem Core.advance (h : Core nowMs q known places log) {later : ℚ} (hle : nowMs ≤ later) :
    Core later q known places log :=
  { h with
    clock := h.clock.trans hle
    past := fun t ht => ⟨(h.past t ht).1.trans hle, (h.past t ht).2⟩ }

theorem Core.perm (h : Core nowMs q known places log) {places' : List Nat}
    (hperm : places'.Perm places) : Core nowMs q known places' log :=
  { h with
    placed := fun ref href => h.placed ref (hperm.mem_iff.mp href)
    accounted := (hperm.append_right _).trans h.accounted }

theorem Core.lt (h : Core nowMs q known places log) {ref : Nat} (href : ref ∈ received log) :
    ref < (requests log).length :=
  List.mem_range.mp (h.accounted.mem_iff.mp (List.mem_append_right _ href))

/-- A request that has yet to be received is no entry. -/
theorem Core.not_entry (h : Core nowMs q known places log) {ref : Nat} (href : ref ∈ places) :
    ref ∉ q.entries := by
  intro hmem
  have hnodup := h.accounted.nodup_iff.mpr List.nodup_range
  exact (List.nodup_append.mp hnodup).2.2 ref href ref (h.entries ref hmem) rfl

omit [DecidableEq T] in
theorem requests_kept {ref : Nat} {r : T × Time} (hr : (requests log)[ref]? = some r)
    (log' : List (DelayEvent T)) : (requests (log ++ log'))[ref]? = some r := by
  rw [requests_append, List.getElem?_append_left (List.getElem?_eq_some_iff.mp hr).1, hr]

/-- One more event. -/
theorem History.append (h : History log) {event : DelayEvent T}
    (hoverdue : ∀ ref x t time, event = .overdue ref x t time →
      (requests log)[ref]? = some (x, t) ∧ ∀ t' : Int, t = some t' → (t' : ℚ) ≤ time)
    (hkept : ∀ ref x (time : ℚ), event = .kept ref x time →
      ∃ t : Int, (requests log)[ref]? = some (x, some t) ∧ time < (t : ℚ))
    (hready : ∀ x readyAt time, event = .ready x readyAt time →
      ∃ t : Int, readyAt = some t ∧ IsLeast (waitingTimes x log) t ∧ (t : ℚ) ≤ time
        ∧ ∀ t₀ ∈ readyTimes log, t₀ ≤ t) : History (log ++ [event]) where
  overdue ref x t time hmem := by
    rcases List.mem_append.mp hmem with hmem | hmem
    · obtain ⟨hrequest, hle⟩ := h.overdue ref x t time hmem
      exact ⟨requests_kept hrequest _, hle⟩
    · obtain ⟨hrequest, hle⟩ := hoverdue ref x t time (List.mem_singleton.mp hmem).symm
      exact ⟨requests_kept hrequest _, hle⟩
  kept ref x time hmem := by
    rcases List.mem_append.mp hmem with hmem | hmem
    · obtain ⟨t, hrequest, hlt⟩ := h.kept ref x time hmem
      exact ⟨t, requests_kept hrequest _, hlt⟩
    · obtain ⟨t, hrequest, hlt⟩ := hkept ref x time (List.mem_singleton.mp hmem).symm
      exact ⟨t, requests_kept hrequest _, hlt⟩
  ready i x readyAt time hi := by
    by_cases hlt : i < log.length
    · rw [List.getElem?_append_left hlt] at hi
      rw [List.take_append_of_le_length hlt.le]
      exact h.ready i x readyAt time hi
    · rw [List.getElem?_append_right (not_lt.mp hlt)] at hi
      have hlast : i = log.length := by
        have hbound := (List.getElem?_eq_some_iff.mp hi).1
        simp only [List.length_singleton] at hbound
        omega
      have hevent := List.mem_singleton.mp (List.mem_of_getElem? hi)
      obtain ⟨t, ht, hleast, hle, -⟩ := hready x readyAt time hevent.symm
      refine ⟨t, ht, ?_, hle⟩
      rwa [hlast, List.take_append_of_le_length (le_refl _), List.take_length]
  order := by
    rw [readyTimes_append, List.pairwise_append]
    refine ⟨h.order, ?_, fun t₀ ht₀ t ht => ?_⟩
    · cases event with
      | ready x readyAt time => cases readyAt <;> simp [readyTimes]
      | _ => simp [readyTimes]
    · cases event with
      | ready x readyAt time =>
        obtain ⟨t', rfl, -, -, hle⟩ := hready x readyAt time rfl
        obtain rfl : t' = t := by simpa [readyTimes, eq_comm] using ht
        exact hle t₀ ht₀
      | _ => simp [readyTimes] at ht

theorem History.added (h : History log) (item : T) : History (log ++ [DelayEvent.added item]) :=
  h.append (fun _ _ _ _ he => by cases he) (fun _ _ _ he => by cases he) fun _ _ _ he => by cases he

theorem Core.added (h : Core nowMs q known places log) (item : T) :
    Core nowMs q known places (log ++ [DelayEvent.added item]) where
  clock := h.clock
  objects ref := by simpa [requests] using h.objects ref
  placed ref href := by simpa [requests] using h.placed ref href
  entries ref href := by simpa [received] using h.entries ref href
  accounted := by simpa [requests, received] using h.accounted
  range x t ht := h.range x t (by simpa [requests] using ht)
  waiting := h.waiting
  due x t := by
    have hsame : waitingTimes x (log ++ [DelayEvent.added item]) = waitingTimes x log := by
      simp [waitingTimes, waitingFor_append, requests]
    rw [hsame]
    exact h.due x t
  history := h.history.added item
  past t ht := h.past t (by simpa [readyTimes] using ht)

theorem Core.length (h : Core nowMs q known places log) :
    q.objects.length = (requests log).length := by
  have hsome : ∀ ref : Nat, (q.objects[ref]?).isSome = ((requests log)[ref]?).isSome := by
    intro ref
    have hmap := congrArg Option.isSome (h.objects ref)
    simpa [wait] using hmap
  have hlt : ∀ ref : Nat, ref < q.objects.length ↔ ref < (requests log).length := by
    intro ref
    have hboth := hsome ref
    rw [Bool.eq_iff_iff] at hboth
    simpa using hboth
  have h₁ := hlt q.objects.length
  have h₂ := hlt (requests log).length
  omega

/-- A new request. -/
theorem Core.requested (h : Core nowMs q known places log) (item : T) (readyAt : Time)
    (hrange : ∀ t : Int, readyAt = some t → (t : ℚ) ≤ maxTime) :
    Core nowMs { q with objects := q.objects ++ [{ data := item, readyAt }] } known
      (places ++ [q.objects.length]) (log ++ [DelayEvent.requested item readyAt]) := by
  obtain ⟨hwaiting, hdue, hold⟩ := h.waiting.allocate (o := { data := item, readyAt }) rfl
  have hlen := h.length
  have hrequests : requests (log ++ [DelayEvent.requested item readyAt])
      = requests log ++ [(item, readyAt)] := by
    rw [requests_append]
    rfl
  have hreceived : received (log ++ [DelayEvent.requested item readyAt]) = received log := by
    rw [received_append]
    exact List.append_nil _
  have hwait : ∀ ref, ref < (requests log).length → WaitForPriorityQueue.wait
      { q with objects := q.objects ++ [{ data := item, readyAt }] } ref = q.wait ref :=
    fun ref hlt => hold ref (hlen ▸ hlt)
  have hlast : WaitForPriorityQueue.wait
      { q with objects := q.objects ++ [{ data := item, readyAt }] } q.objects.length
        = some (item, readyAt) := by
    simp [wait]
  have hplaces : ∀ ref ∈ places, ref < (requests log).length := fun ref href =>
    List.mem_range.mp (h.accounted.mem_iff.mp (List.mem_append_left _ href))
  have hsame : ∀ x, waitingTimes x (log ++ [DelayEvent.requested item readyAt])
      = waitingTimes x log := by
    intro x
    ext t
    simp only [waitingTimes, waitingFor_append, hrequests, Set.mem_ofPred_eq]
    refine exists_congr fun ref => and_congr_right fun href => ?_
    rw [List.getElem?_append_left (h.lt (waitingFor_subset x log ref href))]
  refine ⟨h.clock, fun ref => ?_, fun ref href => ?_, fun ref href => ?_, ?_, fun x t ht => ?_,
    hwaiting, fun x t => ?_, ?_, fun t ht => ?_⟩
  · rw [hrequests]
    rcases lt_trichotomy ref (requests log).length with hlt | heq | hgt
    · rw [hwait ref hlt, List.getElem?_append_left hlt]
      exact h.objects ref
    · subst heq
      rw [← hlen, hlast]
      simp [hlen]
    · rw [List.getElem?_eq_none (by simp; omega)]
      have hnone : (q.objects ++ [({ data := item, readyAt } : WaitFor T)])[ref]? = none :=
        List.getElem?_eq_none (by simp; omega)
      simp [wait, hnone]
  · rw [hrequests]
    rcases List.mem_append.mp href with href | href
    · rw [hwait ref (hplaces ref href), List.getElem?_append_left (hplaces ref href)]
      exact h.placed ref href
    · rw [List.mem_singleton.mp href, hlast]
      simp [hlen]
  · rw [hreceived]
    exact h.entries ref href
  · rw [hrequests, hreceived, List.length_append, List.length_singleton, List.range_succ,
      List.append_assoc]
    refine (List.Perm.append_left _ List.perm_append_comm).trans ?_
    rw [← List.append_assoc, hlen]
    exact h.accounted.append_right _
  · rw [hrequests, List.mem_append, List.mem_singleton] at ht
    rcases ht with ht | ht
    · exact h.range x t ht
    · cases ht
      exact hrange t rfl
  · rw [hdue, hsame]
    exact h.due x t
  · exact h.history.append (fun _ _ _ _ he => by cases he) (fun _ _ _ he => by cases he)
      fun _ _ _ he => by cases he
  · obtain ⟨hle, hall⟩ := h.past t (by simpa [readyTimes] using ht)
    exact ⟨hle, fun x t' hdue' => hall x t' ((hdue x t').mp hdue')⟩

/-- A received request has left the places where it was. -/
theorem Core.accounted_append {ref : Nat} (h : Core nowMs q known (ref :: places) log)
    {event : DelayEvent T} (hrequests : requests [event] = []) (hreceived : received [event] = [ref]) :
    (places ++ received (log ++ [event])).Perm
      (List.range (requests (log ++ [event])).length) := by
  rw [requests_append, received_append, hrequests, hreceived, List.append_nil, ← List.append_assoc]
  refine (List.perm_append_singleton ref _).trans ?_
  exact h.accounted

/-- The loop receives a request that is due. -/
theorem Core.overdue {ref : Nat} {x : T} {readyAt : Time} (h : Core nowMs q known (ref :: places) log)
    (hwait : q.wait ref = some (x, readyAt))
    (hafter : Time.after readyAt (timeClip (.finite nowMs)) = false) :
    Core nowMs q known places (log ++ [DelayEvent.overdue ref x readyAt nowMs]) where
  clock := h.clock
  objects r := by simpa [requests] using h.objects r
  placed r hr := by simpa [requests] using h.placed r (List.mem_cons_of_mem _ hr)
  entries r hr := by
    rw [received_append]
    exact List.mem_append_left _ (h.entries r hr)
  accounted := h.accounted_append rfl rfl
  range y t ht := h.range y t (by simpa [requests] using ht)
  waiting := h.waiting
  due y t := by
    have hsame : waitingTimes y (log ++ [DelayEvent.overdue ref x readyAt nowMs])
        = waitingTimes y log := by
      simp [waitingTimes, waitingFor_append, requests]
    rw [hsame]
    exact h.due y t
  history := by
    have hrequest : (requests log)[ref]? = some (x, readyAt) :=
      (h.placed ref List.mem_cons_self).symm.trans hwait
    refine h.history.append (fun _ _ _ _ he => ?_) (fun _ _ _ he => by cases he)
      fun _ _ _ he => by cases he
    cases he
    refine ⟨hrequest, ?_⟩
    rintro t rfl
    exact le_of_not_after h.clock (h.range x t (List.mem_of_getElem? hrequest)) hafter
  past t ht := h.past t (by simpa [readyTimes] using ht)

/-- The loop receives a request in time. -/
theorem Core.kept {ref : Nat} {x : T} {readyAt : Time} (h : Core nowMs q known (ref :: places) log)
    (hwait : q.wait ref = some (x, readyAt))
    (hafter : Time.after readyAt (timeClip (.finite nowMs)) = true) :
    Core nowMs (insert q known ref).1 (insert q known ref).2 places
      (log ++ [DelayEvent.kept ref x nowMs]) := by
  obtain ⟨t, rfl⟩ : ∃ t, readyAt = some t := by
    cases readyAt with
    | none => simp [Time.after] at hafter
    | some t => exact ⟨t, rfl⟩
  have hlt := lt_of_after h.clock hafter
  have hrequest : (requests log)[ref]? = some (x, some t) :=
    (h.placed ref List.mem_cons_self).symm.trans hwait
  have hins := insert_inserted h.waiting hwait (h.not_entry List.mem_cons_self)
  have hrequests : requests (log ++ [DelayEvent.kept ref x nowMs]) = requests log := by
    simp [requests]
  have hnodup := h.accounted.nodup_iff.mpr List.nodup_range
  refine ⟨h.clock, fun r => ?_, fun r hr => ?_, fun r hr => ?_, h.accounted_append rfl rfl, fun y t' ht' => ?_,
    hins.waiting, fun y t' => ?_, ?_, fun t' ht' => ?_⟩
  · rw [hrequests, hins.objects]
    exact h.objects r
  · rw [hrequests, hins.idle r]
    · exact h.placed r (List.mem_cons_of_mem _ hr)
    · intro hmem
      rcases hins.entries r hmem with rfl | hmem
      · exact (List.nodup_cons.mp hnodup).1 (List.mem_append_left _ hr)
      · exact h.not_entry (List.mem_cons_of_mem _ hr) hmem
  · rw [received_append]
    rcases hins.entries r hr with rfl | hr
    · exact List.mem_append_right _ (List.mem_singleton_self r)
    · exact List.mem_append_left _ (h.entries r hr)
  · exact h.range y t' (hrequests ▸ ht')
  · by_cases hy : y = x
    · subst hy
      have htimes : waitingTimes y (log ++ [DelayEvent.kept ref y nowMs])
          = Insert.insert t (waitingTimes y log) := by
        ext z
        simp only [waitingTimes, waitingFor_append, hrequests, if_true, Set.mem_ofPred_eq,
          Set.mem_insert_iff, List.mem_append, List.mem_singleton]
        constructor
        · rintro ⟨r, hr | rfl, hz⟩
          · exact .inr ⟨r, hr, hz⟩
          · rw [hrequest] at hz
            exact .inl (by simpa using hz.symm)
        · rintro (rfl | ⟨r, hr, hz⟩)
          · exact ⟨ref, .inr rfl, hrequest⟩
          · exact ⟨r, .inl hr, hz⟩
      rw [hins.least, htimes]
      simp only [h.due]
      constructor
      · rintro (⟨hleast, hle⟩ | ⟨rfl, hall⟩)
        · exact ⟨.inr hleast.1, by rintro z (rfl | hz); exacts [hle, hleast.2 hz]⟩
        · refine ⟨.inl rfl, ?_⟩
          rintro z (rfl | hz)
          · exact le_refl _
          · obtain ⟨t₀, hleast⟩ := exists_least y log ⟨z, hz⟩
            exact (hall t₀ hleast).le.trans (hleast.2 hz)
      · rintro ⟨hmem, hle⟩
        by_cases hin : t' ∈ waitingTimes y log
        · exact .inl ⟨⟨hin, fun z hz => hle (.inr hz)⟩, hle (.inl rfl)⟩
        · rcases hmem with rfl | hmem
          · refine .inr ⟨rfl, fun t₀ hleast => lt_of_le_of_ne (hle (.inr hleast.1)) ?_⟩
            rintro rfl
            exact hin hleast.1
          · exact absurd hmem hin
    · rw [hins.others y hy]
      have hsame : waitingTimes y (log ++ [DelayEvent.kept ref x nowMs]) = waitingTimes y log := by
        simp [waitingTimes, waitingFor_append, hrequests, Ne.symm hy]
      rw [hsame]
      exact h.due y t'
  · refine h.history.append (fun _ _ _ _ he => by cases he) (fun _ _ _ he => ?_)
      fun _ _ _ he => by cases he
    cases he
    exact ⟨t, hrequest, hlt⟩
  · obtain ⟨hle, hall⟩ := h.past t' (by simpa [readyTimes] using ht')
    refine ⟨hle, fun y z hz => ?_⟩
    by_cases hy : y = x
    · subst hy
      rcases (hins.least z).mp hz with ⟨hz, -⟩ | ⟨rfl, -⟩
      · exact hall y z hz
      · exact_mod_cast (hle.trans hlt.le)
    · exact hall y z ((hins.others y hy z).mp hz)

/-- The loop takes an entry that is due. -/
theorem Core.ready (h : Core nowMs q known places log) (hne : q.entries ≠ [])
    (hafter : Time.after (some (q.key 0)) (timeClip (.finite nowMs)) = false) :
    ∃ ref q' x, Heap.pop (waitForHeap T) q = some (ref, q') ∧ q.wait ref = some (x, some (q.key 0))
      ∧ Core nowMs q' (known.delete x) places (log ++ [DelayEvent.ready x (some (q.key 0)) nowMs])
      ∧ q'.entries.length + 1 = q.entries.length := by
  obtain ⟨ref, q', x, t, hpop, hwait, rfl, hwaiting, hdue, hmine, hfirst, hwaits, hsub, href, hlen⟩ :=
    h.waiting.pop hne
  have hrequests : requests (log ++ [DelayEvent.ready x (some (q.key 0)) nowMs]) = requests log := by
    simp [requests]
  have hreceived : received (log ++ [DelayEvent.ready x (some (q.key 0)) nowMs]) = received log := by
    simp [received]
  have hleast := (h.due x (q.key 0)).mp hmine
  have hmax : ((q.key 0 : Int) : ℚ) ≤ maxTime := by
    obtain ⟨r, -, hr⟩ := hleast.1
    exact h.range x _ (List.mem_of_getElem? hr)
  have hle := le_of_not_after h.clock hmax hafter
  refine ⟨ref, q', x, hpop, hwait, ?_, hlen⟩
  refine ⟨h.clock, fun r => ?_, fun r hr => ?_, fun r hr => ?_, ?_, fun y t' ht' => ?_, hwaiting,
    fun y t' => ?_, ?_, fun t' ht' => ?_⟩
  · rw [hrequests, hwaits]
    exact h.objects r
  · rw [hrequests, hwaits]
    exact h.placed r hr
  · rw [hreceived]
    exact h.entries r (hsub r hr)
  · rw [hrequests, hreceived]
    exact h.accounted
  · exact h.range y t' (hrequests ▸ ht')
  · rw [hdue, h.due]
    by_cases hy : y = x
    · subst hy
      have hnone : waitingTimes y (log ++ [DelayEvent.ready y (some (q.key 0)) nowMs]) = ∅ := by
        simp [waitingTimes, waitingFor_append]
      simp [hnone, IsLeast]
    · have hsame : waitingTimes y (log ++ [DelayEvent.ready x (some (q.key 0)) nowMs])
          = waitingTimes y log := by
        simp [waitingTimes, waitingFor_append, hrequests, Ne.symm hy]
      simp [hsame, hy]
  · refine h.history.append (fun _ _ _ _ he => by cases he) (fun _ _ _ he => by cases he)
      fun _ _ _ he => ?_
    cases he
    exact ⟨q.key 0, rfl, hleast, hle, fun t₀ ht₀ => (h.past t₀ ht₀).2 x _ hmine⟩
  · rw [readyTimes_append, List.mem_append] at ht'
    rcases ht' with ht' | ht'
    · obtain ⟨hle', hall⟩ := h.past t' ht'
      exact ⟨hle', fun y z hz => hall y z ((hdue y z).mp hz).1⟩
    · obtain rfl : q.key 0 = t' := by simpa [readyTimes, eq_comm] using ht'
      exact ⟨hle, fun y z hz => hfirst y z ((hdue y z).mp hz).1⟩

end Core

/-! ## The loop -/

/-- What the loop's select answered and has yet to be looked at. -/
def LoopState.pending : LoopState → List Nat
  | .selected (.entry ref) => [ref]
  | _ => []

namespace Delaying

/-- Where the requests are that the loop has yet to receive. -/
def places (w : Delaying T) : List Nat := w.offers ++ w.values ++ w.senders ++ w.loop.pending

/-- While an entry waits the timer is one of the select's cases, and it has
yet to fire or its tick is there. -/
def Armed (w : Delaying T) (nextReadyAt : Bool) (ticked : Timer → Prop) : Prop :=
  (w.waitingForQueue.entries ≠ [] → nextReadyAt = true)
    ∧ (nextReadyAt = true →
      ∃ timer, w.nextReadyAtTimer = some timer ∧ (timer.active = true ∨ ticked timer))

/-- What holds while the loop is about to select, or waits. -/
def LoopSound (w : Delaying T) : Prop :=
  match w.loop with
  | .arm now => ∀ x t, w.waitingForQueue.Due x t → Time.after (some t) now = true
  | .select nextReadyAt => w.Armed nextReadyAt fun timer => timer.tick = true
  | .blocked nextReadyAt =>
    w.values = [] ∧ w.senders = [] ∧ w.Armed nextReadyAt fun _ => False
  | _ => True

structure Sound (w : Delaying T) : Prop where
  core : Core w.nowMs w.waitingForQueue w.waitingEntryByData w.places w.log
  loop : w.LoopSound

variable {w w' : Delaying T}

/-- What the loop over the heap leaves as it was. -/
structure Frame (w w' : Delaying T) : Prop where
  nowMs : w'.nowMs = w.nowMs
  offers : w'.offers = w.offers
  values : w'.values = w.values
  senders : w'.senders = w.senders
  loop : w'.loop = w.loop

omit [DecidableEq T] in
theorem Frame.places (h : Frame w w') : w'.places = w.places := by
  rw [Delaying.places, Delaying.places, h.offers, h.values, h.senders, h.loop]

/-- The loop over the heap takes all that is due. -/
theorem popDue_sound {fuel : Nat}
    (h : Core w.nowMs w.waitingForQueue w.waitingEntryByData w.places w.log)
    (hfuel : w.waitingForQueue.entries.length ≤ fuel) :
    Frame w (w.popDue w.now fuel)
      ∧ Core (w.popDue w.now fuel).nowMs (w.popDue w.now fuel).waitingForQueue
        (w.popDue w.now fuel).waitingEntryByData w.places (w.popDue w.now fuel).log
      ∧ ∀ x t, (w.popDue w.now fuel).waitingForQueue.Due x t → Time.after (some t) w.now = true := by
  induction fuel generalizing w with
  | zero =>
    have hnil : w.waitingForQueue.entries = [] := List.length_eq_zero_iff.mp (Nat.le_zero.mp hfuel)
    refine ⟨⟨rfl, rfl, rfl, rfl, rfl⟩, h, ?_⟩
    rintro x t ⟨ref, hmem, -⟩
    change ref ∈ w.waitingForQueue.entries at hmem
    simp [hnil] at hmem
  | succ fuel ih =>
    rw [popDue]
    by_cases hnil : w.waitingForQueue.entries = []
    · have hpeek : w.waitingForQueue.peek = none := by simp [peek, entry, hnil]
      simp only [hpeek]
      refine ⟨⟨rfl, rfl, rfl, rfl, rfl⟩, h, ?_⟩
      rintro x t ⟨ref, hmem, -⟩
      simp [hnil] at hmem
    · have hpos : 0 < w.waitingForQueue.entries.length := List.length_pos_iff.mpr hnil
      obtain ⟨first, t₀, -, hpeek, -, ht₀, hkey⟩ :=
        h.waiting.placed.entry (List.getElem?_eq_getElem hpos)
      change w.waitingForQueue.peek = some first at hpeek
      by_cases hafter : Time.after first.readyAt w.now = true
      · obtain ⟨ref, q', x, t, hpop, -, -, -, -, -, hfirst, -⟩ := h.waiting.pop hnil
        simp only [hpeek, hpop, hafter, if_true]
        refine ⟨⟨rfl, rfl, rfl, rfl, rfl⟩, h, ?_⟩
        rintro x t ⟨ref, hmem, hwait⟩
        obtain ⟨k, hk⟩ := List.mem_iff_getElem?.mp hmem
        have hle := h.waiting.ordered.first (List.getElem?_eq_some_iff.mp hk).1
        rw [key_of_wait hk hwait, hkey] at hle
        rw [ht₀] at hafter
        cases hnow : w.now with
        | none => simp [hnow, Time.after] at hafter
        | some now =>
          simp only [hnow, Time.after, decide_eq_true_eq] at hafter ⊢
          omega
      · rw [Bool.not_eq_true, ht₀, ← hkey] at hafter
        obtain ⟨ref, q', x, hpop, hwait, hcore, hlen⟩ := h.ready hnil hafter
        have hobj := hwait
        simp only [wait, Option.map_eq_some_iff, Prod.mk.injEq] at hobj
        obtain ⟨entry, hobj, rfl, hready⟩ := hobj
        have hfirst : first.readyAt = some (w.waitingForQueue.key 0) := by rw [ht₀, hkey]
        simp only [hpeek, hpop, hobj, hfirst, hafter, Bool.false_eq_true, if_false, hready]
        obtain ⟨hframe, hcore', htaken⟩ := ih (w := { w.record
            (.ready entry.data (some (w.waitingForQueue.key 0)) w.nowMs) with
          waitingForQueue := q'
          waitingEntryByData := w.waitingEntryByData.delete entry.data }) hcore (by
            show q'.entries.length ≤ fuel
            omega)
        exact ⟨⟨hframe.nowMs, hframe.offers, hframe.values, hframe.senders, hframe.loop⟩, hcore',
          htaken⟩

omit [DecidableEq T] in
/-- `tryReceive` hands out a request that waited in the channel. -/
theorem tryReceive_some {ref : Nat} (h : w.tryReceive = some (ref, w')) :
    ∃ values senders, w' = { w with values, senders }
      ∧ (ref :: (values ++ senders)).Perm (w.values ++ w.senders) := by
  unfold tryReceive at h
  split at h
  · rename_i r values sender senders hvalues hsenders
    split at h
    · cases h
      refine ⟨_, _, rfl, ?_⟩
      rw [hvalues, hsenders]
      simp
    · cases h
      refine ⟨_, w.senders, rfl, ?_⟩
      rw [hvalues]
      simp
  · rename_i r values hvalues hsenders
    cases h
    refine ⟨_, w.senders, rfl, ?_⟩
    rw [hvalues]
    simp
  · rename_i r senders hvalues hsenders
    cases h
    refine ⟨w.values, _, rfl, ?_⟩
    rw [hvalues, hsenders]
    simp
  · cases h

omit [DecidableEq T] in
theorem tryReceive_none (h : w.tryReceive = none) : w.values = [] ∧ w.senders = [] := by
  unfold tryReceive at h
  split at h
  · split at h <;> cases h
  · cases h
  · cases h
  · rename_i hvalues hsenders
    exact ⟨hvalues, hsenders⟩

omit [DecidableEq T] in
/-- The places when a request has left the channel. -/
theorem places_perm {ref : Nat} {values senders : List Nat} (rest : List Nat)
    (h : (ref :: (values ++ senders)).Perm (w.values ++ w.senders)) :
    (ref :: (w.offers ++ values ++ senders ++ rest)).Perm (w.offers ++ w.values ++ w.senders ++ rest) := by
  rw [← List.cons_append]
  refine List.Perm.append_right _ ?_
  rw [List.append_assoc, List.append_assoc]
  exact List.perm_middle.symm.trans (h.append_left _)

/-- The loop looks at a request it received. -/
theorem receive_core {ref : Nat} {places : List Nat}
    (h : Core w.nowMs w.waitingForQueue w.waitingEntryByData (ref :: places) w.log) :
    Core (w.receive ref).nowMs (w.receive ref).waitingForQueue (w.receive ref).waitingEntryByData
        places (w.receive ref).log
      ∧ (w.receive ref).offers = w.offers ∧ (w.receive ref).values = w.values
      ∧ (w.receive ref).senders = w.senders ∧ (w.receive ref).loop = w.loop := by
  have hlt : ref < (requests w.log).length :=
    List.mem_range.mp (h.accounted.mem_iff.mp (List.mem_append_left _ List.mem_cons_self))
  obtain ⟨entry, hobj⟩ : ∃ entry, w.waitingForQueue.objects[ref]? = some entry :=
    ⟨_, List.getElem?_eq_getElem (h.length ▸ hlt)⟩
  have hwait := wait_eq_some hobj
  simp only [receive, hobj]
  split
  · rename_i hafter
    exact ⟨h.kept hwait hafter, rfl, rfl, rfl, rfl⟩
  · rename_i hafter
    rw [Bool.not_eq_true] at hafter
    exact ⟨h.overdue hwait hafter, rfl, rfl, rfl, rfl⟩

/-! ### Every step keeps it -/

omit [DecidableEq T] in
/-- A change of what does not matter to the loop's state. -/
theorem LoopSound.congr (h : w.LoopSound) (hloop : w'.loop = w.loop)
    (hblocked : ∀ n, w.loop = .blocked n → w'.values = w.values ∧ w'.senders = w.senders)
    (hentries : w'.waitingForQueue.entries = w.waitingForQueue.entries)
    (hdue : ∀ x t, w'.waitingForQueue.Due x t → w.waitingForQueue.Due x t)
    (htimer : w'.nextReadyAtTimer = w.nextReadyAtTimer) : w'.LoopSound := by
  unfold LoopSound at h ⊢
  rw [hloop]
  split
  · rename_i now heq
    simp only [heq] at h
    exact fun x t ht => h x t (hdue x t ht)
  · rename_i n heq
    simp only [heq, Armed] at h
    simpa only [Armed, hentries, htimer] using h
  · rename_i n heq
    simp only [heq, Armed] at h
    obtain ⟨hvalues, hsenders⟩ := hblocked n heq
    simpa only [Armed, hentries, htimer, hvalues, hsenders] using h
  · trivial

/-- No request is the loop's own. -/
theorem Sound.idle (h : w.Sound) (hpending : w.loop.pending = []) :
    Core w.nowMs w.waitingForQueue w.waitingEntryByData (w.offers ++ w.values ++ w.senders ++ [])
      w.log := by
  have hcore := h.core
  rwa [places, hpending] at hcore

theorem Sound.addAfter (h : w.Sound) (item : T) (durationMs : Number) :
    (w.addAfter item durationMs).Sound := by
  unfold Delaying.addAfter
  split
  · exact ⟨h.core.added item, h.loop⟩
  · generalize hready : timeClip (durationMs.add w.nowMs) = readyAt
    have hcore := h.core.requested item readyAt fun t ht => by
      subst hready
      exact le_maxTime_of_timeClip ht
    obtain ⟨-, hdue, -⟩ := h.core.waiting.allocate
      (o := ({ data := item, readyAt := readyAt } : WaitFor T)) rfl
    refine ⟨hcore.perm ?_, h.loop.congr rfl (fun _ _ => ⟨rfl, rfl⟩) rfl
      (fun x t => (hdue x t).mp) rfl⟩
    simp only [places, record, List.append_assoc]
    refine List.Perm.append_left _ (List.perm_append_comm.trans ?_)
    simp only [List.append_assoc, List.Perm.refl]

theorem Sound.offer (h : w.Sound) {ref : Nat} (hmem : ref ∈ w.offers) : (w.offer ref).Sound := by
  have hperm : (ref :: w.offers.erase ref).Perm w.offers := (List.perm_cons_erase hmem).symm
  have hmoved : ∀ front rest, ((w.offers.erase ref ++ front) ++ ref :: rest).Perm
      (w.offers ++ front ++ rest) := fun front rest =>
    List.perm_middle.trans ((hperm.append_right front).append_right rest)
  unfold Delaying.offer
  dsimp only
  split
  · rename_i n hblocked
    refine ⟨h.core.perm ?_, trivial⟩
    have hplaces := hmoved (w.values ++ w.senders) []
    simpa only [places, hblocked, LoopState.pending, List.append_nil, List.append_assoc] using hplaces
  · rename_i hrunning
    split
    · refine ⟨h.core.perm ?_, h.loop.congr rfl (fun n hn => absurd hn (hrunning n)) rfl
        (fun _ _ => id) rfl⟩
      have hplaces := hmoved w.values (w.senders ++ w.loop.pending)
      simpa only [places, List.append_assoc, List.cons_append, List.nil_append] using hplaces
    · refine ⟨h.core.perm ?_, h.loop.congr rfl (fun n hn => absurd hn (hrunning n)) rfl
        (fun _ _ => id) rfl⟩
      have hplaces := hmoved (w.values ++ w.senders) w.loop.pending
      simpa only [places, List.append_assoc, List.singleton_append] using hplaces

/-- A blocked loop is answered with no request. -/
theorem Sound.answered (h : w.Sound) {n : Bool} (hblocked : w.loop = .blocked n)
    {answer : Selected} (hanswer : LoopState.pending (.selected answer) = [])
    (timer : Option Timer) :
    Sound { w with nextReadyAtTimer := timer, loop := .selected answer } := by
  refine ⟨?_, trivial⟩
  show Core w.nowMs _ _ (w.offers ++ w.values ++ w.senders ++ LoopState.pending (.selected answer)) _
  rw [hanswer]
  exact h.idle (by rw [hblocked]; rfl)

theorem Sound.tick (h : w.Sound) : w.tick.Sound := by
  unfold Delaying.tick
  split
  · rename_i n hblocked
    exact h.answered hblocked rfl w.nextReadyAtTimer
  · exact ⟨h.core, h.loop.congr rfl (fun _ _ => ⟨rfl, rfl⟩) rfl (fun _ _ => id) rfl⟩

theorem Sound.fire (h : w.Sound) (timer : Timer) : (w.fire timer).Sound := by
  have hloop := h.loop
  unfold Delaying.fire
  split
  · rename_i hblocked
    exact h.answered hblocked rfl _
  · rename_i hother
    refine ⟨h.core, ?_⟩
    unfold LoopSound at hloop ⊢
    dsimp only
    cases hstate : w.loop with
    | arm now => simpa only [hstate] using hloop
    | select n =>
      simp only [hstate, Armed] at hloop
      exact ⟨hloop.1, fun _ => ⟨_, rfl, .inr rfl⟩⟩
    | blocked n =>
      simp only [hstate, Armed] at hloop
      cases n with
      | true => exact absurd hstate hother
      | false => exact ⟨hloop.1, hloop.2.1, hloop.2.2.1, fun hn => by cases hn⟩
    | top => trivial
    | selected answer => trivial
    | drain => trivial

theorem Sound.arm (h : w.Sound) {now : Time} (hstate : w.loop = .arm now) : (w.arm now).Sound := by
  have hpending : w.loop.pending = [] := by rw [hstate]; rfl
  unfold Delaying.arm
  split
  · rename_i hpeek
    have hnil : w.waitingForQueue.entries = [] := by
      by_contra hne
      obtain ⟨o, -, -, hentry, -⟩ :=
        h.core.waiting.placed.entry (List.getElem?_eq_getElem (List.length_pos_iff.mpr hne))
      rw [WaitForPriorityQueue.peek, hentry] at hpeek
      cases hpeek
    exact ⟨h.idle hpending, fun hne => absurd hnil hne, fun hn => by cases hn⟩
  · exact ⟨h.idle hpending, fun _ => rfl, fun _ => ⟨_, rfl, .inl rfl⟩⟩

theorem Sound.select (h : w.Sound) {n : Bool} (hstate : w.loop = .select n) (random : Nat) :
    (w.step random).Sound := by
  have hpending : w.loop.pending = [] := by rw [hstate]; rfl
  have hloop := h.loop
  simp only [LoopSound, hstate] at hloop
  simp only [step, hstate]
  split
  · rename_i answer w' hpick
    have hmem := List.mem_of_getElem? hpick
    simp only [readyCases, List.mem_append] at hmem
    refine ⟨?_, trivial⟩
    rcases hmem with (hmem | hmem) | hmem
    · split at hmem
      · obtain ⟨rfl, rfl⟩ := Prod.mk.inj (List.mem_singleton.mp hmem)
        exact h.idle hpending
      · simp at hmem
    · split at hmem
      · split at hmem
        · obtain ⟨rfl, rfl⟩ := Prod.mk.inj (List.mem_singleton.mp hmem)
          exact h.idle hpending
        · simp at hmem
      · simp at hmem
    · split at hmem
      · rename_i ref w'' htry
        obtain ⟨rfl, rfl⟩ := Prod.mk.inj (List.mem_singleton.mp hmem)
        obtain ⟨values, senders, rfl, hperm⟩ := tryReceive_some htry
        refine (h.idle hpending).perm ?_
        refine List.Perm.trans ?_ (places_perm [] hperm)
        rw [List.append_nil]
        exact List.perm_append_singleton ref _
      · simp at hmem
  · rename_i hnone
    have hcases : w.readyCases n = [] := by
      by_contra hne
      have hpos := List.length_pos_iff.mpr hne
      rw [List.getElem?_eq_none_iff] at hnone
      exact absurd (Nat.mod_lt random hpos) (not_lt.mpr hnone)
    simp only [readyCases, List.append_eq_nil_iff] at hcases
    obtain ⟨⟨-, htimer⟩, htry⟩ := hcases
    have hempty : w.values = [] ∧ w.senders = [] := by
      split at htry
      · simp at htry
      · rename_i hno
        exact tryReceive_none hno
    refine ⟨?_, hempty.1, hempty.2, hloop.1, fun hn => ?_⟩
    · exact h.idle hpending
    · obtain ⟨timer, hsome, hticked⟩ := hloop.2 hn
      refine ⟨timer, hsome, .inl (hticked.resolve_right fun htick => ?_)⟩
      simp [hsome, hn, htick] at htimer

theorem Sound.step (h : w.Sound) (random : Nat) : (w.step random).Sound := by
  cases hstate : w.loop with
  | top =>
    have hpending : w.loop.pending = [] := by rw [hstate]; rfl
    obtain ⟨hframe, hcore, htaken⟩ := popDue_sound h.core (le_refl _)
    simp only [Delaying.step, hstate]
    refine ⟨?_, htaken⟩
    rw [places, hpending] at hcore
    simp only [places, hframe.offers, hframe.values, hframe.senders, LoopState.pending]
    exact hcore
  | arm now =>
    simp only [Delaying.step, hstate]
    exact h.arm hstate
  | select n => exact h.select hstate random
  | blocked n =>
    simp only [Delaying.step, hstate]
    exact h
  | selected answer =>
    cases answer with
    | entry ref =>
      have hcore := h.core
      have hplaces : w.places.Perm (ref :: (w.offers ++ w.values ++ w.senders)) := by
        simp only [places, hstate, LoopState.pending]
        exact List.perm_append_singleton ref _
      obtain ⟨hreceived, hoffers, hvalues, hsenders, -⟩ := receive_core (hcore.perm hplaces.symm)
      simp only [Delaying.step, hstate]
      refine ⟨?_, trivial⟩
      simp only [places, hoffers, hvalues, hsenders, LoopState.pending, List.append_nil]
      exact hreceived
    | heartbeat =>
      simp only [Delaying.step, hstate]
      exact ⟨h.idle (by rw [hstate]; rfl), trivial⟩
    | ready =>
      simp only [Delaying.step, hstate]
      exact ⟨h.idle (by rw [hstate]; rfl), trivial⟩
  | drain =>
    simp only [Delaying.step, hstate]
    split
    · rename_i ref w' htry
      obtain ⟨values, senders, rfl, hperm⟩ := tryReceive_some htry
      have hplaces := places_perm w.loop.pending hperm
      obtain ⟨hreceived, hoffers, hvalues, hsenders, hloop⟩ :=
        receive_core (w := { w with values, senders }) (h.core.perm hplaces)
      refine ⟨?_, ?_⟩
      · simp only [places, hoffers, hvalues, hsenders, hloop]
        exact hreceived
      · have hdrain : (receive { w with values, senders } ref).loop = .drain := hloop.trans hstate
        unfold LoopSound
        rw [hdrain]
        trivial
    · exact ⟨h.idle (by rw [hstate]; rfl), trivial⟩

theorem Sound.exec (h : w.Sound) (act : DelayingStep T) : (w.exec act).Sound := by
  cases act with
  | add item => exact ⟨h.core.added item, h.loop⟩
  | addAfter item durationMs => exact h.addAfter item durationMs
  | offer ref =>
    simp only [Delaying.exec]
    split
    · rename_i hmem
      exact h.offer hmem
    · exact h
  | advance ms =>
    simp only [Delaying.exec]
    split
    · rename_i hms
      exact ⟨h.core.advance (le_add_of_nonneg_right hms), h.loop⟩
    · exact h
  | tick => exact h.tick
  | fire =>
    simp only [Delaying.exec]
    split
    · rename_i timer _
      split
      · exact h.fire timer
      · exact h
    · exact h
  | loop random => exact h.step random

theorem sound_of_reach (h : (delaying T).Reach w) : w.Sound := by
  refine h.invariant ?_ ?_
  · rintro w ⟨nowMs, hclock, rfl⟩
    have hwaiting : Waiting ({} : WaitForPriorityQueue T) (JsMap.empty : JsMap T Nat).get :=
      ⟨⟨fun i ref hi => by simp at hi, fun ref o i ho => by simp at ho⟩,
        fun j _ hj => absurd hj (Nat.not_lt_zero j), fun x ref => by simp⟩
    have hhistory : History ([] : List (DelayEvent T)) :=
      ⟨fun _ _ _ _ hmem => by simp at hmem, fun _ _ _ hmem => by simp at hmem,
        fun _ _ _ _ hi => by simp at hi, .nil⟩
    refine ⟨⟨hclock, fun _ => rfl, fun ref href => ?_, fun ref href => ?_, .refl _,
      fun x t ht => ?_, hwaiting, fun x t => ?_, hhistory, fun t ht => ?_⟩, trivial⟩
    · simp [places, LoopState.pending] at href
    · simp at href
    · simp [requests] at ht
    · simp [Due, waitingTimes, waitingFor, IsLeast]
    · simp [readyTimes] at ht
  · rintro w act w' - hw rfl
    exact hw.exec act

/-! ## Whole runs -/

/-- What a delaying queue does with requests. -/
structure Serves (w : Delaying T) : Prop where
  /-- Each request is on its way to the loop, or was received once. -/
  accounted : (w.places ++ received w.log).Perm (List.range (requests w.log).length)
  history : History w.log
  heap : w.waitingForQueue.Waiting w.waitingEntryByData.get
  /-- An item has an entry while a request for it waits, and the earliest wins. -/
  entry : ∀ x, waitingFor x w.log ≠ [] → ∃ t, w.waitingForQueue.Due x t
  due : ∀ x t, w.waitingForQueue.Due x t ↔ IsLeast (waitingTimes x w.log) t
  /-- A turn of the loop takes all that is due. -/
  taken : ∀ now, w.loop = .arm now → ∀ x t, w.waitingForQueue.Due x t →
    Time.after (some t) now = true
  /-- A blocked loop has nothing to receive, and its timer is set while an
  entry waits. -/
  blocked : ∀ nextReadyAt, w.loop = .blocked nextReadyAt → w.values = [] ∧ w.senders = []
    ∧ (w.waitingForQueue.entries ≠ [] →
      nextReadyAt = true ∧ ∃ timer, w.nextReadyAtTimer = some timer ∧ timer.active = true)

/-- **In every run no request is lost**, and those that wait for one item are
served as one, in the order of the ready times. -/
theorem serves_of_reach (h : (delaying T).Reach w) : w.Serves := by
  obtain ⟨hcore, hloop⟩ := sound_of_reach h
  refine ⟨hcore.accounted, hcore.history, hcore.waiting, ?_, hcore.due, ?_, ?_⟩
  · intro x hne
    obtain ⟨ref, href⟩ := List.exists_mem_of_ne_nil _ hne
    obtain ⟨time, hkept⟩ := kept_of_waitingFor x w.log ref href
    obtain ⟨t, hrequest, -⟩ := hcore.history.kept ref x time hkept
    obtain ⟨t', hleast⟩ := exists_least x w.log ⟨t, ref, href, hrequest⟩
    exact ⟨t', (hcore.due x t').mpr hleast⟩
  · intro now hnow
    unfold LoopSound at hloop
    simpa only [hnow] using hloop
  · intro n hn
    unfold LoopSound at hloop
    simp only [hn, Armed, or_false] at hloop
    obtain ⟨hvalues, hsenders, hentries, htimer⟩ := hloop
    exact ⟨hvalues, hsenders, fun hne => ⟨hentries hne, htimer (hentries hne)⟩⟩

theorem reach_foldl (h : (delaying T).Reach w) (acts : List (DelayingStep T)) :
    (delaying T).Reach (acts.foldl Delaying.exec w) := by
  induction acts generalizing w with
  | nil => exact h
  | cons act acts ih => exact ih (h.step rfl)

/-- The loop's steps up to where it waits. -/
def untilBlocked : List (DelayingStep T) := [.loop 0, .loop 0, .loop 0]

/-- An item is asked for after 100 and, in time, after 20 more. -/
def mergedSteps : List (DelayingStep Nat) :=
  .addAfter 7 (.finite 100) :: untilBlocked ++ [DelayingStep.offer 0, .loop 0, .loop 0]
    ++ untilBlocked
    ++ [DelayingStep.advance 50, .addAfter 7 (.finite 20), .offer 1, .loop 0, .loop 0]
    ++ untilBlocked ++ [DelayingStep.advance 30, .fire, .loop 0, .loop 0]

theorem serves_of_reach_merged :
    (mergedSteps.foldl Delaying.exec { nowMs := 0 }).log = [.requested 7 (some 100), .kept 0 7 0,
        .requested 7 (some 70), .kept 1 7 50, .ready 7 (some 70) 80]
      ∧ (mergedSteps.foldl Delaying.exec { nowMs := 0 }).Serves :=
  ⟨by decide +kernel, serves_of_reach (reach_foldl (.start ⟨0, le_refl 0, rfl⟩) _)⟩

/-! ### Requests the loop receives late -/

/-- The item a delayed request was served for, and the ready time. -/
def served : DelayEvent T → Option (T × Time)
  | .overdue _ item readyAt _ => some (item, readyAt)
  | .ready item readyAt _ => some (item, readyAt)
  | _ => none

/-- Items become ready in the order of their ready times. -/
def ServesInOrder (w : Delaying T) : Prop :=
  (w.log.filterMap fun event => (served event).bind Prod.snd).Pairwise (· ≤ ·)

/-- An item is handed over again only for a request made since. -/
def ServesOnce (w : Delaying T) : Prop :=
  ∀ (i j : Nat) (x : T) (t t' : Time), i < j → (w.log[i]?).bind served = some (x, t) →
    (w.log[j]?).bind served = some (x, t') →
      ∃ k readyAt, i < k ∧ k < j ∧ w.log[k]? = some (DelayEvent.requested x readyAt)

/-- The second request for an item is due when the loop receives it. -/
def lateSteps : List (DelayingStep Nat) :=
  .addAfter 7 (.finite 100) :: untilBlocked ++ [DelayingStep.offer 0, .loop 0, .loop 0]
    ++ untilBlocked
    ++ [DelayingStep.advance 50, .addAfter 7 (.finite 10), .advance 20, .offer 1, .loop 0, .loop 0]
    ++ untilBlocked ++ [DelayingStep.advance 30, .fire, .loop 0, .loop 0]

/-- Two requests are due when the loop receives them. -/
def crossedSteps : List (DelayingStep Nat) :=
  untilBlocked ++ [DelayingStep.addAfter 7 (.finite 20), .addAfter 8 (.finite 10), .advance 30,
    .offer 0, .offer 1, .loop 0, .loop 0]

/-- A request that the loop receives late is served at once, whatever waits
in the heap or behind it. -/
theorem late_served_at_once :
    (∃ w : Delaying Nat, (delaying Nat).Reach w ∧ ¬ w.ServesOnce
      ∧ w.log = [.requested 7 (some 100), .kept 0 7 0, .requested 7 (some 60),
        .overdue 1 7 (some 60) 70, .ready 7 (some 100) 100])
    ∧ ∃ w : Delaying Nat, (delaying Nat).Reach w ∧ ¬ w.ServesInOrder
      ∧ w.log = [.requested 7 (some 20), .requested 8 (some 10), .overdue 0 7 (some 20) 30,
        .overdue 1 8 (some 10) 30] := by
  have hstart : (delaying Nat).Reach { nowMs := 0 } := .start ⟨0, le_refl 0, rfl⟩
  have hlate : (lateSteps.foldl Delaying.exec { nowMs := 0 }).log = [.requested 7 (some 100),
      .kept 0 7 0, .requested 7 (some 60), .overdue 1 7 (some 60) 70, .ready 7 (some 100) 100] := by
    decide +kernel
  have hcrossed : (crossedSteps.foldl Delaying.exec { nowMs := 0 }).log = [.requested 7 (some 20),
      .requested 8 (some 10), .overdue 0 7 (some 20) 30, .overdue 1 8 (some 10) 30] := by
    decide +kernel
  refine ⟨⟨_, reach_foldl hstart lateSteps, fun honce => ?_, hlate⟩,
    ⟨_, reach_foldl hstart crossedSteps, fun horder => ?_, hcrossed⟩⟩
  · obtain ⟨k, readyAt, hk, hk', -⟩ := honce 3 4 7 (some 60) (some 100) (by omega)
      (by rw [hlate]; rfl) (by rw [hlate]; rfl)
    omega
  · rw [ServesInOrder, hcrossed] at horder
    revert horder
    decide

end Delaying

end Webernetes.ClientGo
