/-
Webernetes.Cri.ContainerRecords — what containers record of the exits of
their processes.

A container reads the `facts` of its processes only, so `Recorded` is
about those, the containers and the log, and whatever else a step changes
leaves it alone. There is one lemma for each thing that can happen: an
exit, its note, a new process, and a change of the containers.
-/
import Mathlib.Logic.Function.Basic
import Webernetes.Cri.Runtime

namespace Webernetes.Cri

open Js Base Cni

/-! ## Facts -/

/-- What a container can see of a process. -/
structure ProcessFacts where
  container : Nat
  processState : ProcessState
  finishedAtMs : Option Nat
  processExitCode : Option Int
  noted : Bool

def ProcessInstance.facts (process : ProcessInstance) : ProcessFacts where
  container := process.container
  processState := process.processState
  finishedAtMs := process.finishedAtMs
  processExitCode := process.processExitCode
  noted := process.noted

/-- A stop of the container has ended since the container was started
last. -/
def StoppedSince (log : List Event) (c : Nat) : Prop :=
  ∃ before process after, log = before ++ Event.stopped c process :: after
    ∧ ∀ p, Event.started c p ∉ after

/-- The processes that finished, in order. -/
def finishes (log : List Event) : List Nat :=
  log.filterMap fun
    | .finished p _ _ _ => some p
    | _ => none

theorem mem_finishes {log : List Event} {p : Nat} :
    p ∈ finishes log ↔ ∃ code atMs byKill, Event.finished p code atMs byKill ∈ log := by
  simp only [finishes, List.mem_filterMap]
  constructor
  · intro ⟨e, he, hp⟩
    cases e with
    | finished q code atMs byKill =>
      cases hp
      exact ⟨code, atMs, byKill, he⟩
    | started c q => cases hp
    | stopped c q => cases hp
  · intro ⟨code, atMs, byKill, he⟩
    exact ⟨_, he, rfl⟩

theorem StoppedSince.snoc {log : List Event} {c : Nat} (h : StoppedSince log c) {e : Event}
    (he : ∀ p, e ≠ .started c p) : StoppedSince (log ++ [e]) c := by
  obtain ⟨before, process, after, rfl, hnone⟩ := h
  refine ⟨before, process, after ++ [e], by simp, ?_⟩
  intro p hmem
  rcases List.mem_append.mp hmem with hmem | hmem
  · exact hnone p hmem
  · exact he p (List.mem_singleton.mp hmem).symm

/-- What containers record of processes. -/
structure Recorded (facts : Nat → Option ProcessFacts) (containers : List ContainerInstance)
    (log : List Event) : Prop where
  /-- A process finishes once, -/
  once : (finishes log).Nodup
  /-- with the code and at the time it shows, -/
  code : ∀ p code atMs, (∃ byKill, Event.finished p code atMs byKill ∈ log)
    ↔ ∃ f, facts p = some f ∧ f.processState = .Exited ∧ f.processExitCode = some code
      ∧ f.finishedAtMs = some atMs
  /-- which is 137 where `SIGKILL` ended it. -/
  killed : ∀ p code atMs, Event.finished p code atMs true ∈ log → code = 137
  exited : ∀ p f, facts p = some f → f.noted = true → f.processState = .Exited
  started : ∀ p f, facts p = some f → f.processState ≠ .Created
  /-- A container's main process is its own. -/
  main : ∀ (c : Nat) (container : ContainerInstance) (p : Nat),
    containers[c]? = some container → container.mainProcess = some p →
      ∃ f, facts p = some f ∧ f.container = c
  /-- A container is running while its main process is, or has not
  reported its exit. -/
  running : ∀ (c : Nat) (container : ContainerInstance), containers[c]? = some container → container.state = .Running →
    ∃ p f, container.mainProcess = some p ∧ facts p = some f
      ∧ (f.processState = .Running ∨ f.processState = .Exited ∧ f.noted = false)
  /-- Once it has, the container shows its code and, as long as no stop
  ends, the time of the exit. -/
  noted : ∀ (c : Nat) (container : ContainerInstance) (p : Nat) (f : ProcessFacts),
    containers[c]? = some container → container.mainProcess = some p → facts p = some f → f.noted = true → container.lastExitCode = f.processExitCode
      ∧ (¬ StoppedSince log c → container.finishedAtMs = f.finishedAtMs)
  /-- A stop ends after the process it found. -/
  stopped : ∀ c p, Event.stopped c (some p) ∈ log →
    ∃ f, facts p = some f ∧ f.processState = .Exited

namespace Recorded

variable {facts : Nat → Option ProcessFacts} {containers : List ContainerInstance}
  {log : List Event}

theorem start : Recorded (fun _ => none) [] [] where
  once := List.nodup_nil
  code p code atMs := by simp
  killed p code atMs h := absurd h List.not_mem_nil
  exited p f h := by cases h
  started p f h := by cases h
  main c container p h := by cases h
  running c container h := by cases h
  noted c container p f h := by cases h
  stopped c p h := absurd h List.not_mem_nil

/-- A process exits. -/
theorem finish (h : Recorded facts containers log) {p : Nat} {f : ProcessFacts}
    (hf : facts p = some f) (hstate : f.processState ≠ .Exited) (now : Nat) {code : Int}
    {byKill : Bool} (hkill : byKill = true → code = 137) :
    Recorded (Function.update facts p (some { f with
      processState := .Exited, finishedAtMs := some now, processExitCode := some code }))
      containers (log ++ [Event.finished p code now byKill]) := by
  have hnoted : f.noted = false := by
    by_contra hne
    exact hstate (h.exited p f hf (by simpa using hne))
  have hnew : p ∉ finishes log := by
    intro hmem
    obtain ⟨code, atMs, byKill, hmem⟩ := mem_finishes.mp hmem
    obtain ⟨f', hf', hexited, -⟩ := (h.code p code atMs).mp ⟨byKill, hmem⟩
    rw [hf] at hf'
    cases hf'
    exact hstate hexited
  have hsince : ∀ c, ¬ StoppedSince (log ++ [Event.finished p code now byKill]) c →
      ¬ StoppedSince log c :=
    fun c hnot hsince => hnot (hsince.snoc fun q => by simp)
  -- what the other processes were before
  have hother : ∀ q g, Function.update facts p (some { f with
      processState := .Exited, finishedAtMs := some now, processExitCode := some code }) q = some g →
      q = p ∧ g.processState = .Exited ∧ g.processExitCode = some code ∧ g.finishedAtMs = some now ∧ g.noted = false
        ∧ g.container = f.container
      ∨ q ≠ p ∧ facts q = some g := by
    intro q g hg
    by_cases hq : q = p
    · subst hq
      rw [Function.update_self] at hg
      cases hg
      exact Or.inl ⟨rfl, rfl, rfl, rfl, hnoted, rfl⟩
    · rw [Function.update_of_ne hq] at hg
      exact Or.inr ⟨hq, hg⟩
  have hsome : ∀ q g, facts q = some g → q ≠ p → Function.update facts p (some { f with
      processState := .Exited, finishedAtMs := some now, processExitCode := some code }) q = some g := by
    intro q g hg hq
    rw [Function.update_of_ne hq]
    exact hg
  exact
    { once := by
        have hfinishes : finishes (log ++ [Event.finished p code now byKill])
            = finishes log ++ [p] := by
          simp [finishes]
        rw [hfinishes, List.nodup_append]
        refine ⟨h.once, List.nodup_singleton p, ?_⟩
        rintro a ha b hb rfl
        rw [List.mem_singleton.mp hb] at ha
        exact hnew ha
      code := fun q c atMs => by
        constructor
        · intro ⟨k, hmem⟩
          rcases List.mem_append.mp hmem with hold | hlast
          · obtain ⟨g, hg, hexited, hcode⟩ := (h.code q c atMs).mp ⟨k, hold⟩
            have hq : q ≠ p := by
              rintro rfl
              exact hnew (mem_finishes.mpr ⟨c, atMs, k, hold⟩)
            exact ⟨g, hsome q g hg hq, hexited, hcode⟩
          · cases List.mem_singleton.mp hlast
            exact ⟨_, Function.update_self .., rfl, rfl, rfl⟩
        · intro ⟨g, hg, hexited, hcode, htime⟩
          rcases hother q g hg with ⟨rfl, -, hgcode, hgtime, -⟩ | ⟨-, hold⟩
          · rw [hgcode] at hcode
            cases hcode
            rw [hgtime] at htime
            cases htime
            exact ⟨byKill, List.mem_append_right _ (List.mem_singleton_self _)⟩
          · obtain ⟨k, hmem⟩ := (h.code q c atMs).mpr ⟨g, hold, hexited, hcode, htime⟩
            exact ⟨k, List.mem_append_left _ hmem⟩
      killed := fun q c atMs hmem => by
        rcases List.mem_append.mp hmem with hmem | hmem
        · exact h.killed q c atMs hmem
        · cases List.mem_singleton.mp hmem
          exact hkill rfl
      exited := fun q g hg hgnoted => by
        rcases hother q g hg with ⟨-, hexited, -⟩ | ⟨-, hold⟩
        · exact hexited
        · exact h.exited q g hold hgnoted
      started := fun q g hg => by
        rcases hother q g hg with ⟨-, hexited, -⟩ | ⟨-, hold⟩
        · rw [hexited]
          simp
        · exact h.started q g hold
      main := fun c container q hc hmain => by
        obtain ⟨g, hg, hcontainer⟩ := h.main c container q hc hmain
        by_cases hq : q = p
        · subst hq
          rw [hf] at hg
          cases hg
          exact ⟨_, Function.update_self .., hcontainer⟩
        · exact ⟨g, hsome q g hg hq, hcontainer⟩
      running := fun c container hc hrunning => by
        obtain ⟨q, g, hmain, hg, hstates⟩ := h.running c container hc hrunning
        by_cases hq : q = p
        · subst hq
          exact ⟨q, _, hmain, Function.update_self .., Or.inr ⟨rfl, hnoted⟩⟩
        · exact ⟨q, g, hmain, hsome q g hg hq, hstates⟩
      noted := fun c container q g hc hmain hg hgnoted => by
        rcases hother q g hg with ⟨-, -, -, -, hnot, -⟩ | ⟨-, hold⟩
        · rw [hnot] at hgnoted
          cases hgnoted
        · obtain ⟨hcode, htime⟩ := h.noted c container q g hc hmain hold hgnoted
          exact ⟨hcode, fun hnot => htime (hsince c hnot)⟩
      stopped := fun c q hmem => by
        rcases List.mem_append.mp hmem with hmem | hmem
        · obtain ⟨g, hg, hexited⟩ := h.stopped c q hmem
          by_cases hq : q = p
          · subst hq
            exact ⟨_, Function.update_self .., rfl⟩
          · exact ⟨g, hsome q g hg hq, hexited⟩
        · cases List.mem_singleton.mp hmem }

/-- The exit of a process that is no main process any more, or not yet
known to its container, is noted. -/
theorem note (h : Recorded facts containers log) {p : Nat} {f : ProcessFacts}
    (hf : facts p = some f) (hexited : f.processState = .Exited)
    {containers' : List ContainerInstance}
    (hcontainers : ∀ (c : Nat) (container' : ContainerInstance), containers'[c]? = some container' →
      ∃ container : ContainerInstance, containers[c]? = some container ∧ container'.mainProcess = container.mainProcess
        ∧ if container.mainProcess = some p then container'.state = .Exited
            ∧ container'.finishedAtMs = f.finishedAtMs ∧ container'.lastExitCode = f.processExitCode
          else container' = container) :
    Recorded (Function.update facts p (some { f with noted := true })) containers' log := by
  have hsome : ∀ q g, facts q = some g → ∃ g',
      Function.update facts p (some { f with noted := true }) q = some g'
        ∧ g'.container = g.container ∧ g'.processState = g.processState
        ∧ g'.processExitCode = g.processExitCode ∧ g'.finishedAtMs = g.finishedAtMs
        ∧ (q ≠ p → g' = g) := by
    intro q g hg
    by_cases hq : q = p
    · subst hq
      rw [hf] at hg
      cases hg
      exact ⟨_, Function.update_self .., rfl, rfl, rfl, rfl, fun hne => absurd rfl hne⟩
    · exact ⟨g, by rw [Function.update_of_ne hq]; exact hg, rfl, rfl, rfl, rfl, fun _ => rfl⟩
  have hback : ∀ q g', Function.update facts p (some { f with noted := true }) q = some g' →
      ∃ g, facts q = some g ∧ g'.processState = g.processState
        ∧ g'.processExitCode = g.processExitCode ∧ g'.finishedAtMs = g.finishedAtMs
        ∧ (q ≠ p → g' = g) := by
    intro q g' hg'
    by_cases hq : q = p
    · subst hq
      rw [Function.update_self] at hg'
      cases hg'
      exact ⟨f, hf, rfl, rfl, rfl, fun hne => absurd rfl hne⟩
    · rw [Function.update_of_ne hq] at hg'
      exact ⟨g', hg', rfl, rfl, rfl, fun _ => rfl⟩
  exact
    { once := h.once
      code := fun q c atMs => by
        rw [h.code q c atMs]
        constructor
        · intro ⟨g, hg, hstate, hcode, htime⟩
          obtain ⟨g', hg', -, hstate', hcode', htime', -⟩ := hsome q g hg
          exact ⟨g', hg', hstate'.trans hstate, hcode'.trans hcode, htime'.trans htime⟩
        · intro ⟨g', hg', hstate, hcode, htime⟩
          obtain ⟨g, hg, hstate', hcode', htime', -⟩ := hback q g' hg'
          exact ⟨g, hg, hstate'.symm.trans hstate, hcode'.symm.trans hcode,
            htime'.symm.trans htime⟩
      killed := h.killed
      exited := fun q g' hg' hgnoted => by
        obtain ⟨g, hg, hstate, -, -, hsame⟩ := hback q g' hg'
        by_cases hq : q = p
        · subst hq
          rw [hf] at hg
          cases hg
          exact hstate.trans hexited
        · rw [hsame hq] at hgnoted ⊢
          exact h.exited q g hg hgnoted
      started := fun q g' hg' => by
        obtain ⟨g, hg, hstate, -⟩ := hback q g' hg'
        rw [hstate]
        exact h.started q g hg
      main := fun c container' q hc hmain => by
        obtain ⟨container, hold, hsame, -⟩ := hcontainers c container' hc
        rw [hsame] at hmain
        obtain ⟨g, hg, hcontainer⟩ := h.main c container q hold hmain
        obtain ⟨g', hg', hcontainer', -⟩ := hsome q g hg
        exact ⟨g', hg', hcontainer'.trans hcontainer⟩
      running := fun c container' hc hrunning => by
        obtain ⟨container, hold, -, hif⟩ := hcontainers c container' hc
        by_cases hmain : container.mainProcess = some p
        · rw [if_pos hmain] at hif
          rw [hif.1] at hrunning
          cases hrunning
        · rw [if_neg hmain] at hif
          subst hif
          obtain ⟨q, g, hq, hg, hstates⟩ := h.running c container' hold hrunning
          have hne : q ≠ p := by
            rintro rfl
            exact hmain hq
          refine ⟨q, g, hq, ?_, hstates⟩
          rw [Function.update_of_ne hne]
          exact hg
      noted := fun c container' q g' hc hmain hg' hgnoted => by
        obtain ⟨container, hold, hsame, hif⟩ := hcontainers c container' hc
        rw [hsame] at hmain
        by_cases hq : q = p
        · subst hq
          rw [Function.update_self] at hg'
          cases hg'
          rw [if_pos hmain] at hif
          exact ⟨hif.2.2, fun _ => hif.2.1⟩
        · rw [if_neg fun heq => hq (Option.some.inj (hmain.symm.trans heq))] at hif
          subst hif
          rw [Function.update_of_ne hq] at hg'
          exact h.noted c container' q g' hold hmain hg' hgnoted
      stopped := fun c q hmem => by
        obtain ⟨g, hg, hstate⟩ := h.stopped c q hmem
        obtain ⟨g', hg', -, hstate', -⟩ := hsome q g hg
        exact ⟨g', hg', hstate'.trans hstate⟩ }

/-- A process is made. -/
theorem spawn (h : Recorded facts containers log) {p : Nat} (hnone : facts p = none)
    {f : ProcessFacts} (hstate : f.processState = .Running) (hnoted : f.noted = false) :
    Recorded (Function.update facts p (some f)) containers log := by
  have hsome : ∀ q g, facts q = some g → Function.update facts p (some f) q = some g := by
    intro q g hg
    have hq : q ≠ p := by
      rintro rfl
      rw [hnone] at hg
      cases hg
    rw [Function.update_of_ne hq]
    exact hg
  have hback : ∀ q g, Function.update facts p (some f) q = some g →
      g.processState = .Running ∧ g.noted = false ∨ facts q = some g := by
    intro q g hg
    by_cases hq : q = p
    · subst hq
      rw [Function.update_self] at hg
      cases hg
      exact Or.inl ⟨hstate, hnoted⟩
    · rw [Function.update_of_ne hq] at hg
      exact Or.inr hg
  exact
    { once := h.once
      code := fun q c atMs => by
        rw [h.code q c atMs]
        constructor
        · intro ⟨g, hg, hexited⟩
          exact ⟨g, hsome q g hg, hexited⟩
        · intro ⟨g, hg, hexited, hcode⟩
          rcases hback q g hg with ⟨hrunning, -⟩ | hold
          · rw [hrunning] at hexited
            cases hexited
          · exact ⟨g, hold, hexited, hcode⟩
      killed := h.killed
      exited := fun q g hg hgnoted => by
        rcases hback q g hg with ⟨-, hnot⟩ | hold
        · rw [hnot] at hgnoted
          cases hgnoted
        · exact h.exited q g hold hgnoted
      started := fun q g hg => by
        rcases hback q g hg with ⟨hrunning, -⟩ | hold
        · rw [hrunning]
          simp
        · exact h.started q g hold
      main := fun c container q hc hmain => by
        obtain ⟨g, hg, hcontainer⟩ := h.main c container q hc hmain
        exact ⟨g, hsome q g hg, hcontainer⟩
      running := fun c container hc hrunning => by
        obtain ⟨q, g, hmain, hg, hstates⟩ := h.running c container hc hrunning
        exact ⟨q, g, hmain, hsome q g hg, hstates⟩
      noted := fun c container q g hc hmain hg hgnoted => by
        obtain ⟨g', hg', -⟩ := h.main c container q hc hmain
        have heq := hsome q g' hg'
        rw [hg] at heq
        cases heq
        exact h.noted c container q g hc hmain hg' hgnoted
      stopped := fun c q hmem => by
        obtain ⟨g, hg, hexited⟩ := h.stopped c q hmem
        exact ⟨g, hsome q g hg, hexited⟩ }

end Recorded

/-- What `Recorded` asks of one container. -/
structure Fits (facts : Nat → Option ProcessFacts) (log : List Event) (c : Nat)
    (container : ContainerInstance) : Prop where
  main : ∀ p, container.mainProcess = some p → ∃ f, facts p = some f ∧ f.container = c
  running : container.state = .Running → ∃ p f, container.mainProcess = some p
    ∧ facts p = some f ∧ (f.processState = .Running ∨ f.processState = .Exited ∧ f.noted = false)
  noted : ∀ p f, container.mainProcess = some p → facts p = some f → f.noted = true →
    container.lastExitCode = f.processExitCode
      ∧ (¬ StoppedSince log c → container.finishedAtMs = f.finishedAtMs)

theorem StoppedSince.append {log later : List Event} {c : Nat} (h : StoppedSince log c)
    (hlater : ∀ p, Event.started c p ∉ later) : StoppedSince (log ++ later) c := by
  obtain ⟨before, process, after, rfl, hnone⟩ := h
  refine ⟨before, process, after ++ later, by simp, ?_⟩
  intro p hmem
  rcases List.mem_append.mp hmem with hmem | hmem
  · exact hnone p hmem
  · exact hlater p hmem

/-- Containers change, and no process does. -/
theorem Recorded.reshape {facts : Nat → Option ProcessFacts}
    {containers containers' : List ContainerInstance} {log later : List Event}
    (h : Recorded facts containers log)
    (hlater : ∀ e ∈ later, (∀ p code atMs byKill, e ≠ .finished p code atMs byKill)
      ∧ ∀ c p, e = .stopped c (some p) → ∃ f, facts p = some f ∧ f.processState = .Exited)
    (hcontainers : ∀ (c : Nat) (container : ContainerInstance), containers'[c]? = some container →
      containers[c]? = some container ∧ (∀ p, Event.started c p ∉ later)
        ∨ Fits facts (log ++ later) c container) :
    Recorded facts containers' (log ++ later) := by
  have hfinished : ∀ p code atMs byKill, Event.finished p code atMs byKill ∈ log ++ later ↔
      Event.finished p code atMs byKill ∈ log := by
    intro p code atMs byKill
    constructor
    · intro hmem
      rcases List.mem_append.mp hmem with hmem | hmem
      · exact hmem
      · exact absurd rfl ((hlater _ hmem).1 p code atMs byKill)
    · intro hmem
      exact List.mem_append_left _ hmem
  have hnone : finishes later = [] := by
    rw [List.eq_nil_iff_forall_not_mem]
    intro p hp
    obtain ⟨code, atMs, byKill, hmem⟩ := mem_finishes.mp hp
    exact (hlater _ hmem).1 p code atMs byKill rfl
  exact
    { once := by
        have happend : finishes (log ++ later) = finishes log ++ finishes later :=
          List.filterMap_append
        rw [happend, hnone, List.append_nil]
        exact h.once
      code := fun p code atMs => by
        simp only [hfinished]
        exact h.code p code atMs
      killed := fun p code atMs hmem => h.killed p code atMs ((hfinished p code atMs true).mp hmem)
      exited := h.exited
      started := h.started
      main := fun c container p hc hmain => by
        rcases hcontainers c container hc with ⟨hold, -⟩ | hfits
        · exact h.main c container p hold hmain
        · exact hfits.main p hmain
      running := fun c container hc hrunning => by
        rcases hcontainers c container hc with ⟨hold, -⟩ | hfits
        · exact h.running c container hold hrunning
        · exact hfits.running hrunning
      noted := fun c container p f hc hmain hf hnoted => by
        rcases hcontainers c container hc with ⟨hold, hstarted⟩ | hfits
        · obtain ⟨hcode, htime⟩ := h.noted c container p f hold hmain hf hnoted
          exact ⟨hcode, fun hnot => htime fun hsince => hnot (hsince.append hstarted)⟩
        · exact hfits.noted p f hmain hf hnoted
      stopped := fun c p hmem => by
        rcases List.mem_append.mp hmem with hmem | hmem
        · exact h.stopped c p hmem
        · exact (hlater _ hmem).2 c p rfl }

end Webernetes.Cri
