/-
Webernetes.Cri.ContainerRuns — the records of containers over the runs of
the runtime.

`Good` says what every function of the runtime does to the records, and
composes along the calls it makes; `Sound` is the invariant, with what a
call of `stop` knows of the process it found, and `exits_kept_of_reach` reads
the results off.
-/
import Webernetes.Cri.ContainerRecords

namespace Webernetes.Cri

open Js Base Cni

/-! ## The runtime -/

namespace RuntimeService

variable {m : RuntimeService}

def facts (m : RuntimeService) (p : Nat) : Option ProcessFacts :=
  (m.processes[p]?).map ProcessInstance.facts

def Records (m : RuntimeService) : Prop := Recorded m.facts m.containers m.log

/-- The process has exited. -/
def Ended (m : RuntimeService) (p : Nat) : Prop :=
  ∃ f, m.facts p = some f ∧ f.processState = .Exited

theorem Records.of_facts {m' : RuntimeService} {facts : Nat → Option ProcessFacts}
    (hfacts : m'.facts = facts) (h : Recorded facts m'.containers m'.log) : m'.Records := by
  rw [Records, hfacts]
  exact h

theorem facts_of_get {p : Nat} {process : ProcessInstance} (h : m.processes[p]? = some process) :
    m.facts p = some process.facts := by
  rw [facts, h]
  rfl

theorem facts_setProcess {p : Nat} {old : ProcessInstance} (h : m.processes[p]? = some old)
    (process : ProcessInstance) :
    (m.setProcess p process).facts = Function.update m.facts p (some process.facts) := by
  funext q
  have hlt := (List.getElem?_eq_some_iff.mp h).1
  show ((m.processes.set p process)[q]?).map _ = _
  by_cases hq : q = p
  · subst hq
    rw [List.getElem?_set_self hlt, Function.update_self]
    rfl
  · rw [List.getElem?_set_ne (Ne.symm hq), Function.update_of_ne hq]
    rfl

/-- A change of a process that a container does not see. -/
theorem facts_setProcess_same {p : Nat} {old process : ProcessInstance}
    (h : m.processes[p]? = some old) (hsame : process.facts = old.facts) :
    (m.setProcess p process).facts = m.facts := by
  rw [facts_setProcess h process, hsame, ← facts_of_get h]
  exact Function.update_eq_self p m.facts

def Known (m : RuntimeService) (p : Nat) : Prop := (m.facts p).isSome = true

/-- A kill is of a process that there is, and a `SIGKILL` that returned
ended it. -/
def KillDone (m : RuntimeService) (kill : Kill) : Prop :=
  m.Known kill.process
    ∧ (kill.signal = .SIGKILL → kill.status = .returned → m.Ended kill.process)

def KillsDone (m : RuntimeService) : Prop := ∀ kill ∈ m.kills, m.KillDone kill

/-- What every function of the runtime does to the records: it keeps
them, no process comes back from its exit, and the calls are left to the
step. -/
structure Good (m m' : RuntimeService) : Prop where
  records : m.Records → m'.Records
  known : ∀ p, m.Known p → m'.Known p
  ended : ∀ p, m.Ended p → m'.Ended p
  kills : m.KillsDone → m'.KillsDone
  calls : m'.calls = m.calls

theorem Good.refl (m : RuntimeService) : Good m m :=
  ⟨fun h => h, fun _ h => h, fun _ h => h, fun h => h, rfl⟩

theorem Good.trans {m' m'' : RuntimeService} (h : Good m m') (h' : Good m' m'') : Good m m'' where
  records hm := h'.records (h.records hm)
  known p hp := h'.known p (h.known p hp)
  ended p hp := h'.ended p (h.ended p hp)
  kills hm := h'.kills (h.kills hm)
  calls := h'.calls.trans h.calls

/-- The kills of before stay done where no process comes back. -/
theorem KillDone.mono {m' : RuntimeService} {kill : Kill} (h : m.KillDone kill)
    (hknown : ∀ p, m.Known p → m'.Known p) (hended : ∀ p, m.Ended p → m'.Ended p) :
    m'.KillDone kill :=
  ⟨hknown _ h.1, fun hsignal hstatus => hended _ (h.2 hsignal hstatus)⟩

/-- A step that changes the facts of one process, which stays ended if it
was, and leaves kills and calls. -/
theorem Good.of_update {m' : RuntimeService} {p : Nat} {f : ProcessFacts}
    (hfacts : m'.facts = Function.update m.facts p (some f))
    (hended : m.Ended p → f.processState = .Exited) (hrecords : m.Records → m'.Records)
    (hkills : m'.kills = m.kills) (hcalls : m'.calls = m.calls) : Good m m' := by
  have hkeep : ∀ q, m.Ended q → m'.Ended q := by
    intro q hq
    by_cases hqp : q = p
    · subst hqp
      exact ⟨f, by rw [hfacts, Function.update_self], hended hq⟩
    · obtain ⟨g, hg, hexited⟩ := hq
      exact ⟨g, by rw [hfacts, Function.update_of_ne hqp]; exact hg, hexited⟩
  have hknown : ∀ q, m.Known q → m'.Known q := by
    intro q hq
    rw [Known, hfacts]
    by_cases hqp : q = p
    · rw [hqp, Function.update_self]
      rfl
    · rw [Function.update_of_ne hqp]
      exact hq
  exact
    { records := hrecords
      known := hknown
      ended := hkeep
      kills := fun h kill hk => (h kill (hkills ▸ hk)).mono hknown hkeep
      calls := hcalls }

/-- Only the kills change, and the new ones are done. -/
theorem Good.of_kills {m' : RuntimeService} (hfacts : m'.facts = m.facts)
    (hcontainers : m'.containers = m.containers) (hlog : m'.log = m.log)
    (hkills : ∀ kill ∈ m'.kills, kill ∈ m.kills ∨ m.KillDone kill)
    (hcalls : m'.calls = m.calls) : Good m m' := by
  have hknown : ∀ p, m.Known p → m'.Known p := fun p hp => by rwa [Known, hfacts]
  have hended : ∀ p, m.Ended p → m'.Ended p := fun p hp => by rwa [Ended, hfacts]
  exact
    { records := fun h => by
        rw [Records, hfacts, hcontainers, hlog]
        exact h
      known := hknown
      ended := hended
      kills := fun h kill hk => by
        rcases hkills kill hk with hold | hdone
        · exact (h kill hold).mono hknown hended
        · exact hdone.mono hknown hended
      calls := hcalls }

/-- Nothing that containers see of processes changes. -/
theorem Good.of_same {m' : RuntimeService} (hfacts : m'.facts = m.facts)
    (hcontainers : m'.containers = m.containers) (hlog : m'.log = m.log)
    (hkills : m'.kills = m.kills) (hcalls : m'.calls = m.calls) : Good m m' :=
  Good.of_kills hfacts hcontainers hlog (fun _ hk => Or.inl (hkills ▸ hk)) hcalls

theorem good_setProcess {p : Nat} {old : ProcessInstance} (h : m.processes[p]? = some old)
    (process : ProcessInstance) (hsame : process.facts = old.facts) :
    Good m (m.setProcess p process) :=
  Good.of_same (facts_setProcess_same h hsame) rfl rfl rfl rfl

/-! ### Exits -/

theorem get_setProcess {p : Nat} {old process : ProcessInstance}
    (h : m.processes[p]? = some old) : (m.setProcess p process).processes[p]? = some process :=
  List.getElem?_set_self (List.getElem?_eq_some_iff.mp h).1

theorem finish_good (m : RuntimeService) (p : Nat) (code : Int) (byKill : Bool)
    (hkill : byKill = true → code = 137) : Good m (m.finish p code byKill) := by
  unfold finish
  split
  · exact Good.refl m
  · rename_i process hprocess
    split
    · exact Good.refl m
    · rename_i hstate
      have hfacts := facts_setProcess (m := m) (p := p) hprocess
      refine Good.of_update (hfacts _) (fun _ => rfl) ?_ rfl rfl
      intro h
      exact Records.of_facts (hfacts _) (h.finish (facts_of_get hprocess) hstate m.nowMs hkill)

/-- After `finish` the process has exited. -/
theorem finish_ended {p : Nat} (hp : m.Known p) (code : Int) (byKill : Bool) :
    (m.finish p code byKill).Ended p := by
  unfold finish
  split
  · rename_i hnone
    rw [Known, facts, hnone] at hp
    cases hp
  · rename_i process hprocess
    split
    · rename_i hstate
      exact ⟨_, facts_of_get hprocess, hstate⟩
    · exact ⟨_, facts_of_get (get_setProcess hprocess), rfl⟩

/-- The end of a kill: `SIGKILL` ends the process. -/
theorem force_good (m : RuntimeService) (p : Nat) (signal : Signal) :
    Good m (m.force p signal)
      ∧ (signal = .SIGKILL → m.Known p → (m.force p signal).Ended p) := by
  unfold force
  split
  · rename_i hnone
    refine ⟨Good.refl m, ?_⟩
    intro _ hp
    rw [Known, facts, hnone] at hp
    cases hp
  · rename_i process hprocess
    have hset := good_setProcess hprocess { process with canceled := true } rfl
    dsimp only
    split
    · rename_i hsignal
      subst hsignal
      refine ⟨hset.trans (finish_good _ p _ true fun _ => rfl), ?_⟩
      intro _ hp
      exact finish_ended (hset.known p hp) _ _
    · rename_i hsignal
      exact ⟨hset, fun h => absurd h hsignal⟩

/-- The record of a kill is added. -/
theorem Good.addKill {m' : RuntimeService} (h : Good m m') (kill : Kill) (hdone : m'.KillDone kill) :
    Good m { m' with kills := m'.kills ++ [kill] } := by
  refine h.trans (Good.of_kills rfl rfl rfl ?_ rfl)
  intro kill' hk
  rcases List.mem_append.mp hk with hold | hlast
  · exact Or.inl hold
  · rw [List.mem_singleton.mp hlast]
    exact Or.inr hdone

theorem kill_good (m : RuntimeService) (p : Nat) (signal : Signal) : Good m (m.kill p signal) := by
  unfold kill
  split
  · exact Good.refl m
  · rename_i process hprocess
    have hknown : m.Known p := by
      rw [Known, facts_of_get hprocess]
      rfl
    split
    · rename_i hstate
      exact (Good.refl m).addKill _
        ⟨hknown, fun _ _ => ⟨_, facts_of_get hprocess, hstate⟩⟩
    · have hset := good_setProcess hprocess
        { process with killedExitCode := some signal.exitCode } rfl
      dsimp only
      split
      · exact hset.addKill _ ⟨hset.known p hknown, fun _ h => by cases h⟩
      · obtain ⟨hforce, hended⟩ :=
          (m.setProcess p { process with killedExitCode := some signal.exitCode }).force_good p signal
        have hknown' := hset.known p hknown
        exact (hset.trans hforce).addKill _
          ⟨hforce.known p hknown', fun hsignal _ => hended hsignal hknown'⟩

/-- The record of a kill is changed. -/
theorem Good.setKill {m' : RuntimeService} (h : Good m m') (k : Nat)
    (kill : Kill) (hdone : m'.KillDone kill) :
    Good m { m' with kills := m'.kills.set k kill } := by
  refine h.trans (Good.of_kills rfl rfl rfl ?_ rfl)
  intro kill' hk
  rcases List.mem_or_eq_of_mem_set hk with hold | hnew
  · exact Or.inl hold
  · rw [hnew]
    exact Or.inr hdone

theorem handled_good (h : m.KillsDone) (k : Nat) (threw : Bool) : Good m (m.handled k threw) := by
  unfold handled
  split
  · rename_i p signal hk
    have hknown : m.Known p := (h _ (List.mem_of_getElem? hk)).1
    split
    · exact (Good.refl m).setKill k _ ⟨hknown, fun _ hstatus => by cases hstatus⟩
    · split
      · rename_i hsignal
        exact (Good.refl m).setKill k _
          ⟨hknown, fun hkill => by rw [hsignal] at hkill; cases hkill⟩
      · obtain ⟨hforce, hended⟩ := m.force_good p signal
        exact hforce.setKill k _
          ⟨hforce.known p hknown, fun hsignal _ => hended hsignal hknown⟩
  · exact Good.refl m

theorem settle_good (m : RuntimeService) (p : Nat) (code : Int) : Good m (m.settle p code) := by
  unfold settle
  split
  · exact Good.refl m
  · rename_i process hprocess
    split
    · exact Good.refl m
    · exact (good_setProcess hprocess { process with settled := true } rfl).trans
        (finish_good _ p code false fun h => by cases h)

theorem exit_good (m : RuntimeService) (p : Nat) (code : Int) : Good m (m.exit p code) :=
  m.finish_good p code false fun h => by cases h

theorem listen_good (m : RuntimeService) (p : Nat) (kind : ListenerKind) (port : Nat)
    (handler : Handler) : Good m (m.listen p kind port handler) := by
  unfold listen
  split
  · exact Good.refl m
  · rename_i process hprocess
    dsimp only
    split
    · exact Good.refl m
    · split
      · exact Good.refl m
      · rename_i network listener hbound
        have hset := good_setProcess hprocess { process with
          listeners := process.listeners ++ [(kind, listener)] } rfl
        exact hset.trans (Good.of_same rfl rfl rfl rfl rfl)

/-! ### Starts -/

theorem facts_spawn (m : RuntimeService) (process : ProcessInstance) :
    ({ m with processes := m.processes ++ [process] } : RuntimeService).facts
      = Function.update m.facts m.processes.length (some process.facts) := by
  funext q
  show ((m.processes ++ [process])[q]?).map _ = _
  by_cases hq : q = m.processes.length
  · subst hq
    rw [Function.update_self]
    simp
  · rw [Function.update_of_ne hq]
    by_cases hlt : q < m.processes.length
    · rw [List.getElem?_append_left hlt]
      rfl
    · have hlen : (m.processes ++ [process]).length ≤ q := by
        rw [List.length_append, List.length_singleton]
        omega
      rw [List.getElem?_eq_none hlen, facts, List.getElem?_eq_none (Nat.le_of_not_lt hlt)]

theorem facts_length (m : RuntimeService) : m.facts m.processes.length = none := by
  rw [facts, List.getElem?_eq_none (Nat.le_refl _)]
  rfl

theorem not_ended_length (m : RuntimeService) : ¬ m.Ended m.processes.length := by
  rintro ⟨f, hf, -⟩
  rw [facts_length] at hf
  cases hf

theorem exec_good (m : RuntimeService) (c : Nat) (threw : Bool) : Good m (m.exec c threw) := by
  unfold exec
  split
  · exact Good.refl m
  · have hfacts := m.facts_spawn (m.newProcess c false threw)
    refine Good.of_update hfacts (fun h => absurd h m.not_ended_length) ?_ rfl rfl
    intro h
    exact Records.of_facts hfacts (Recorded.spawn h m.facts_length rfl rfl)

theorem get_setContainer {c j : Nat} {container container' : ContainerInstance}
    (h : (m.containers.set c container)[j]? = some container') :
    j = c ∧ container' = container ∨ j ≠ c ∧ m.containers[j]? = some container' := by
  rw [List.getElem?_set] at h
  split at h
  · rename_i hcj
    split at h
    · cases h
      exact Or.inl ⟨hcj.symm, rfl⟩
    · cases h
  · rename_i hcj
    exact Or.inr ⟨Ne.symm hcj, h⟩

theorem start_good (m : RuntimeService) (c : Nat) (threw : Bool) : Good m (m.start c threw) := by
  unfold start
  split
  · exact Good.refl m
  · rename_i container hcontainer
    split
    · exact Good.refl m
    · have hfacts := m.facts_spawn (m.newProcess c container.signalHandler threw)
      refine Good.of_update (p := m.processes.length) hfacts
        (fun h => absurd h m.not_ended_length) ?_ rfl rfl
      intro h
      have hspawn := Recorded.spawn h m.facts_length
        (f := (m.newProcess c container.signalHandler threw).facts) rfl rfl
      refine Records.of_facts hfacts (Recorded.reshape hspawn ?_ ?_)
      · intro e he
        rw [List.mem_singleton.mp he]
        exact ⟨fun p code atMs byKill => by simp, fun c p heq => by cases heq⟩
      · intro j container' hj
        rcases get_setContainer hj with ⟨rfl, rfl⟩ | ⟨hne, hold⟩
        · right
          exact
            { main := fun p hp => by
                cases hp
                exact ⟨_, Function.update_self .., rfl⟩
              running := fun _ => ⟨_, _, rfl, Function.update_self .., Or.inl rfl⟩
              noted := fun p f hp hf hnoted => by
                cases hp
                rw [Function.update_self] at hf
                cases hf
                cases hnoted }
        · left
          refine ⟨hold, ?_⟩
          intro p hmem
          cases List.mem_singleton.mp hmem
          exact hne rfl

theorem startContainer_good (m : RuntimeService) (c : Nat) (threw : Bool) :
    Good m (m.startContainer c threw) := by
  unfold startContainer
  split
  · exact m.start_good c threw
  · exact Good.refl m

/-! ### Notes and stops -/

theorem note_good (m : RuntimeService) (p : Nat) : Good m (m.note p) := by
  unfold note
  split
  · exact Good.refl m
  · rename_i process hprocess
    split
    · exact Good.refl m
    · rename_i hstates
      rw [not_or, not_not, Bool.not_eq_true] at hstates
      obtain ⟨hexited, hnoted⟩ := hstates
      have hf := facts_of_get hprocess
      have hfacts := facts_setProcess (m := m) (p := p) hprocess { process with noted := true }
      have hended : m.Ended p → ({ process with noted := true } : ProcessInstance).facts.processState
          = .Exited := fun _ => hexited
      -- the container of a main process is the one it was made for
      have hown : m.Records → ∀ (c : Nat) (container : ContainerInstance),
          m.containers[c]? = some container → container.mainProcess = some p →
          c = process.container := by
        intro h c container hc hmain
        obtain ⟨f, hf', hcontainer⟩ := h.main c container p hc hmain
        rw [hf] at hf'
        cases hf'
        exact hcontainer.symm
      dsimp only
      split
      · rename_i hnone
        refine Good.of_update hfacts hended ?_ rfl rfl
        intro h
        refine Records.of_facts hfacts (Recorded.note h hf hexited ?_)
        intro c container' hc
        refine ⟨container', hc, rfl, ?_⟩
        rw [if_neg]
        intro hmain
        have hcp := hown h c container' hc hmain
        have hnone : m.containers[process.container]? = none := hnone
        rw [← hcp, show m.containers[c]? = _ from hc] at hnone
        cases hnone
      · rename_i container hcontainer
        have hcontainer : m.containers[process.container]? = some container := hcontainer
        split
        · rename_i hmain
          refine Good.of_update hfacts hended ?_ rfl rfl
          intro h
          refine Records.of_facts hfacts (Recorded.note h hf hexited ?_)
          intro c container' hc
          have hc : m.containers[c]? = some container' := hc
          refine ⟨container', hc, rfl, ?_⟩
          rw [if_neg]
          intro hmain'
          have hcp := hown h c container' hc hmain'
          rw [hcp, hcontainer] at hc
          cases hc
          exact hmain hmain'
        · rename_i hmain
          rw [not_not] at hmain
          refine Good.of_update (p := p) hfacts hended ?_ rfl rfl
          intro h
          refine Records.of_facts hfacts (Recorded.note h hf hexited ?_)
          intro c container' hc
          rcases get_setContainer hc with ⟨rfl, rfl⟩ | ⟨hne, hold⟩
          · refine ⟨container, hcontainer, rfl, ?_⟩
            rw [if_pos hmain]
            exact ⟨rfl, rfl, rfl⟩
          · refine ⟨container', hold, rfl, ?_⟩
            rw [if_neg fun hmain' => hne (hown h c container' hold hmain')]

theorem stopEnd_good (m : RuntimeService) (c : Nat) (process : Option Nat)
    (hended : ∀ p, process = some p → m.Ended p) : Good m (m.stopEnd c process) := by
  unfold stopEnd
  split
  · exact Good.refl m
  · rename_i container hcontainer
    exact
      { records := fun h => by
          show Recorded m.facts (m.containers.set c _) (m.log ++ [_])
          refine Recorded.reshape h ?_ ?_
          · intro e he
            rw [List.mem_singleton.mp he]
            refine ⟨fun p code atMs byKill => by simp, ?_⟩
            intro c' p heq
            cases heq
            exact hended p rfl
          · intro j container' hj
            rcases get_setContainer hj with ⟨rfl, rfl⟩ | ⟨hne, hold⟩
            · right
              exact
                { main := fun p hp => h.main j container p hcontainer hp
                  running := fun hrunning => by cases hrunning
                  noted := fun p f hp hf hnoted => by
                    refine ⟨(h.noted j container p f hcontainer hp hf hnoted).1, ?_⟩
                    intro hnot
                    exact absurd ⟨m.log, process, [], rfl, by simp⟩ hnot }
            · left
              refine ⟨hold, ?_⟩
              intro p hmem
              cases List.mem_singleton.mp hmem
        known := fun p hp => hp
        ended := fun p hp => hp
        kills := fun h => h
        calls := rfl }

/-! ### Calls of `stop` -/

/-- What a call of `stop` knows: the process it found is there, and has
exited where the call is over. -/
structure StopKnown (m : RuntimeService) (stop : Stop) : Prop where
  known : ∀ p, stop.process = some p → m.Known p
  done : stop.phase = .done → ∀ p, stop.process = some p → m.Ended p

theorem Good.stopKnown {m' : RuntimeService} {stop : Stop} (h : Good m m')
    (hstop : m.StopKnown stop) : m'.StopKnown stop where
  known p hp := h.known p (hstop.known p hp)
  done hdone p hp := h.ended p (hstop.done hdone p hp)

theorem ended_of_isExited {p : Nat} (hp : m.Known p) (h : m.isExited p = true) : m.Ended p := by
  unfold isExited at h
  split at h
  · rename_i hnone
    rw [Known, facts, hnone] at hp
    cases hp
  · rename_i process hprocess
    exact ⟨_, facts_of_get hprocess, of_decide_eq_true h⟩

theorem stopKnown_of_none {c : Nat} {phase : StopPhase} : m.StopKnown ⟨c, none, phase⟩ where
  known p hp := by cases hp
  done _ p hp := by cases hp

/-- A phase that is not the last. -/
theorem stopKnown_of_ne {c p : Nat} {phase : StopPhase} (hp : m.Known p) (hphase : phase ≠ .done) :
    m.StopKnown ⟨c, some p, phase⟩ where
  known q hq := by
    cases hq
    exact hp
  done hdone := absurd hdone hphase

theorem stopKnown_of_ended {c p : Nat} (hp : m.Known p) (hended : m.Ended p) :
    m.StopKnown ⟨c, some p, .done⟩ where
  known q hq := by
    cases hq
    exact hp
  done _ q hq := by
    cases hq
    exact hended

theorem stopKill_good {c p : Nat} (hp : m.Known p) (stopSignal : Option Signal)
    (timeoutMs latencyMs : Nat) :
    Good m (m.stopKill c p stopSignal timeoutMs latencyMs).1
      ∧ (m.stopKill c p stopSignal timeoutMs latencyMs).1.StopKnown
          (m.stopKill c p stopSignal timeoutMs latencyMs).2 := by
  have hgood := m.kill_good p
    (if timeoutMs ≤ latencyMs then .SIGKILL else stopSignal.getD .SIGTERM)
  exact ⟨hgood, stopKnown_of_ne (hgood.known p hp) (by simp)⟩

theorem beginStop_good (h : m.Records) (c timeoutMs latencyMs : Nat) :
    Good m (m.beginStop c timeoutMs latencyMs).1
      ∧ (m.beginStop c timeoutMs latencyMs).1.StopKnown (m.beginStop c timeoutMs latencyMs).2 := by
  unfold beginStop
  split
  · exact ⟨Good.refl m, stopKnown_of_none⟩
  · rename_i container hcontainer
    split
    · refine ⟨m.stopEnd_good c none ?_, stopKnown_of_none⟩
      intro p hp
      cases hp
    · rename_i p hmain
      have hp : m.Known p := by
        obtain ⟨f, hf, -⟩ := h.main c container p hcontainer hmain
        rw [Known, hf]
        rfl
      split
      · rename_i hexited
        have hended := ended_of_isExited hp hexited
        have hgood := m.stopEnd_good c (some p) fun q hq => by
          cases hq
          exact hended
        exact ⟨hgood, stopKnown_of_ended (hgood.known p hp) (hgood.ended p hended)⟩
      · split
        · have hgood := m.kill_good p .SIGKILL
          exact ⟨hgood, stopKnown_of_ne (hgood.known p hp) (by simp)⟩
        · dsimp only
          split
          · exact ⟨Good.refl m, stopKnown_of_ne hp (by simp)⟩
          · exact stopKill_good hp _ _ _

theorem stopMove_good {stop : Stop} (h : m.StopKnown stop) (outcome : Outcome) :
    Good m (m.stopMove stop outcome).1
      ∧ (m.stopMove stop outcome).1.StopKnown (m.stopMove stop outcome).2 := by
  obtain ⟨c, process, phase⟩ := stop
  cases process with
  | none => exact ⟨Good.refl m, h⟩
  | some p =>
    have hp : m.Known p := h.known p rfl
    have hkill := m.kill_good p .SIGKILL
    have hsame : ∀ phase', phase' ≠ .done → Good m m ∧ m.StopKnown ⟨c, some p, phase'⟩ :=
      fun phase' hphase => ⟨Good.refl m, stopKnown_of_ne hp hphase⟩
    unfold stopMove
    dsimp only
    split
    · exact stopKill_good hp _ _ _
    · exact hsame _ (by simp)
    · rename_i k graceMs
      split
      · refine hsame _ ?_
        split <;> simp
      · exact hsame _ (by simp)
      · exact hsame _ (by simp)
    · split
      · exact hsame _ (by simp)
      · exact hsame _ (by simp)
    · exact ⟨hkill, stopKnown_of_ne (hkill.known p hp) (by simp)⟩
    · exact hsame _ (by simp)
    · split
      · rename_i hexited
        have hended := ended_of_isExited hp hexited
        have hgood := m.stopEnd_good c (some p) fun q hq => by
          cases hq
          exact hended
        exact ⟨hgood, stopKnown_of_ended (hgood.known p hp) (hgood.ended p hended)⟩
      · exact hsame _ (by simp)
    · exact ⟨Good.refl m, h⟩

/-! ### Calls of the service -/

/-- The stop a call awaits is known. -/
def CallKnown (m : RuntimeService) (call : Call) : Prop :=
  ∀ stop, call.stop = some stop → m.StopKnown stop

theorem Good.callKnown {m' : RuntimeService} {call : Call} (h : Good m m')
    (hcall : m.CallKnown call) : m'.CallKnown call :=
  fun stop hstop => h.stopKnown (hcall stop hstop)

theorem CallKnown.of_facts {m' : RuntimeService} {call : Call} (h : m.CallKnown call)
    (hfacts : m'.facts = m.facts) : m'.CallKnown call := by
  intro stop hstop
  exact
    { known := fun p hp => by
        rw [Known, hfacts]
        exact (h stop hstop).known p hp
      done := fun hdone p hp => by
        rw [Ended, hfacts]
        exact (h stop hstop).done hdone p hp }

theorem callKnown_of_none {call : Call} (h : call.stop = none) : m.CallKnown call := by
  intro stop hstop
  rw [h] at hstop
  cases hstop

theorem callKnown_of_stop {job : Job} {stop : Stop} (h : m.StopKnown stop)
    (succeeded : Option Bool) : m.CallKnown ⟨job, some stop, succeeded⟩ := by
  intro stop' hstop
  cases hstop
  exact h

/-- A call goes on to a state and to what it is then. -/
def Advances (m : RuntimeService) (next : RuntimeService × Call) : Prop :=
  Good m next.1 ∧ next.1.CallKnown next.2

theorem advances_of_none {m' : RuntimeService} (h : Good m m') {call : Call}
    (hcall : call.stop = none) : m.Advances (m', call) :=
  ⟨h, callKnown_of_none hcall⟩

theorem advances_beginStop (h : m.Records) (c timeoutMs latencyMs : Nat) (job : Job) :
    m.Advances ((m.beginStop c timeoutMs latencyMs).1,
      ⟨job, some (m.beginStop c timeoutMs latencyMs).2, none⟩) := by
  obtain ⟨hgood, hstop⟩ := beginStop_good h c timeoutMs latencyMs
  exact ⟨hgood, callKnown_of_stop hstop none⟩

theorem unregisterNetwork_good (m : RuntimeService) (s : Nat) :
    Good m (m.unregisterNetwork s) := by
  unfold unregisterNetwork
  split
  · exact Good.refl m
  · exact Good.of_same rfl rfl rfl rfl rfl

theorem dropContainer_good (m : RuntimeService) (c : Nat) : Good m (m.dropContainer c) := by
  unfold dropContainer
  split
  · exact Good.refl m
  · dsimp only
    split
    · exact Good.of_same rfl rfl rfl rfl rfl
    · exact Good.of_same rfl rfl rfl rfl rfl

theorem stopLoop_good (h : m.Records) (s : Nat) (after : Option Nat) (job : Job) {next : Call}
    (hnext : next.stop = none) : m.Advances (m.stopLoop s after job next) := by
  unfold stopLoop
  split
  · exact advances_beginStop h _ _ _ _
  · exact advances_of_none (m.unregisterNetwork_good s) hnext

theorem request_good (h : m.Records) (request : Request) : m.Advances (m.request request) := by
  cases request with
  | stopContainer c timeoutMs latencyMs =>
    unfold RuntimeService.request
    dsimp only
    split
    · exact advances_beginStop h _ _ _ _
    · exact advances_of_none (Good.refl m) rfl
  | removeContainer c =>
    unfold RuntimeService.request
    dsimp only
    split
    · exact advances_beginStop h _ _ _ _
    · exact advances_of_none (Good.refl m) rfl
  | stopPodSandbox s =>
    unfold RuntimeService.request
    dsimp only
    split
    · exact stopLoop_good h _ _ _ rfl
    · exact advances_of_none (Good.refl m) rfl
  | removePodSandbox s =>
    unfold RuntimeService.request
    dsimp only
    split
    · exact stopLoop_good h _ _ _ rfl
    · exact advances_of_none (Good.refl m) rfl

theorem resume_good (h : m.Records) {call : Call} (hcall : m.CallKnown call) :
    m.Advances (m.resume call) := by
  have hsame : m.Advances (m, call) := ⟨Good.refl m, hcall⟩
  unfold resume
  split
  · rename_i stop hstop
    split
    · exact advances_of_none (Good.refl m) rfl
    · split
      · exact advances_of_none (Good.refl m) rfl
      · exact advances_of_none (m.dropContainer_good _) rfl
      · exact stopLoop_good h _ _ _ rfl
      · exact stopLoop_good h _ _ _ rfl
      · exact advances_of_none (m.dropContainer_good _) rfl
    · exact hsame
  · split
    · exact advances_of_none (Good.refl m) rfl
    · split
      · exact advances_beginStop h _ _ _ _
      · exact advances_of_none (Good.refl m) rfl
    · refine advances_of_none ?_ rfl
      exact Good.of_same rfl rfl rfl rfl rfl
    · exact hsame

/-! ### Sandboxes -/

theorem runPodSandbox_good (other : JsString → Option Int) (m : RuntimeService) (uid : JsString)
    (dnsConfig : Option DnsConfig) (podCIDR : JsString) :
    Good m (m.runPodSandbox other uid dnsConfig podCIDR) := by
  unfold runPodSandbox
  dsimp only
  split
  · exact Good.of_same rfl rfl rfl rfl rfl
  · exact Good.of_same rfl rfl rfl rfl rfl

theorem createContainer_good (m : RuntimeService) (s : Nat) (signalHandler : Bool)
    (stopSignal : Option Signal) : Good m (m.createContainer s signalHandler stopSignal) := by
  unfold createContainer
  split
  · exact Good.refl m
  · split
    · exact
        { records := fun h => by
            show Recorded m.facts (m.containers ++ [_]) m.log
            rw [← List.append_nil m.log]
            refine Recorded.reshape h (fun e he => absurd he List.not_mem_nil) ?_
            intro c container hc
            rw [List.getElem?_append] at hc
            split at hc
            · exact Or.inl ⟨hc, fun p => List.not_mem_nil⟩
            · -- it has no main process yet
              cases List.mem_singleton.mp (List.mem_of_getElem? hc)
              right
              exact
                { main := fun p hp => by cases hp
                  running := fun hrunning => by cases hrunning
                  noted := fun p f hp => by cases hp }
          known := fun p hp => hp
          ended := fun p hp => hp
          kills := fun h => h
          calls := rfl }
    · exact Good.refl m

/-! ### Runs -/

structure Sound (m : RuntimeService) : Prop where
  records : m.Records
  kills : m.KillsDone
  calls : ∀ call ∈ m.calls, m.CallKnown call

theorem initial_sound (idPrefix : JsString) (network : ClusterNetwork) :
    (RuntimeService.initial idPrefix network).Sound where
  records := Recorded.start
  kills _ hk := absurd hk List.not_mem_nil
  calls _ hcall := absurd hcall List.not_mem_nil

theorem Good.sound {m' : RuntimeService} (h : Good m m') (hm : m.Sound) : m'.Sound where
  records := h.records hm.records
  kills := h.kills hm.kills
  calls call hcall := h.callKnown (hm.calls call (h.calls ▸ hcall))

/-- A call goes on, and the others stay. -/
theorem Advances.sound {next : RuntimeService × Call} (h : m.Advances next) (hm : m.Sound)
    {calls : List Call} (hcalls : ∀ call ∈ calls, call ∈ m.calls ∨ call = next.2) :
    ({ next.1 with calls := calls } : RuntimeService).Sound where
  records := h.1.records hm.records
  kills := h.1.kills hm.kills
  calls call hcall := by
    rcases hcalls call hcall with hold | rfl
    · exact (h.1.callKnown (hm.calls call hold)).of_facts rfl
    · exact h.2.of_facts rfl

theorem move_sound (h : m.Sound) (i : Nat) (outcome : Outcome) : (m.move i outcome).Sound := by
  unfold move
  split
  · rename_i job stop succeeded hcall
    have hstop := h.calls _ (List.mem_of_getElem? hcall) stop rfl
    obtain ⟨hgood, hknown⟩ := stopMove_good hstop outcome
    have hadvances : m.Advances ((m.stopMove stop outcome).1,
        ⟨job, some (m.stopMove stop outcome).2, succeeded⟩) :=
      ⟨hgood, callKnown_of_stop hknown succeeded⟩
    refine hadvances.sound h ?_
    intro call hmem
    have hmem : call ∈ (m.stopMove stop outcome).1.calls.set i _ := hmem
    rw [hgood.calls] at hmem
    exact List.mem_or_eq_of_mem_set hmem
  · exact h

theorem step_resume_none (other : JsString → Option Int) {i : Nat} (h : m.calls[i]? = none) :
    m.step other (.resume i) = m := by
  simp only [step, h]

theorem step_resume (other : JsString → Option Int) {i : Nat} {call : Call}
    (h : m.calls[i]? = some call) :
    m.step other (.resume i) = { (m.resume call).1 with
      calls := (m.resume call).1.calls.set i (m.resume call).2 } := by
  simp only [step, h]

theorem step_sound (other : JsString → Option Int) (h : m.Sound) (act : Step) :
    (m.step other act).Sound := by
  cases act with
  | tick =>
    have hgood : Good m (m.step other .tick) := Good.of_same rfl rfl rfl rfl rfl
    exact hgood.sound h
  | runPodSandbox uid dnsConfig podCIDR =>
    exact (m.runPodSandbox_good other uid dnsConfig podCIDR).sound h
  | createContainer s signalHandler stopSignal =>
    exact (m.createContainer_good s signalHandler stopSignal).sound h
  | startContainer c threw => exact (m.startContainer_good c threw).sound h
  | exec c threw => exact (m.exec_good c threw).sound h
  | settle p code => exact (m.settle_good p code).sound h
  | exit p code => exact (m.exit_good p code).sound h
  | listen p kind port handler => exact (m.listen_good p kind port handler).sound h
  | close kind listener =>
    have hgood : Good m (m.step other (.close kind listener)) := Good.of_same rfl rfl rfl rfl rfl
    exact hgood.sound h
  | kill p signal => exact (m.kill_good p signal).sound h
  | handled k threw => exact (handled_good h.kills k threw).sound h
  | note p => exact (m.note_good p).sound h
  | request request =>
    have hadvances := request_good h.records request
    refine hadvances.sound h ?_
    intro call hmem
    rcases List.mem_append.mp hmem with hold | hlast
    · exact Or.inl (hadvances.1.calls ▸ hold)
    · exact Or.inr (List.mem_singleton.mp hlast)
  | move i outcome => exact move_sound h i outcome
  | resume i =>
    cases hcall : m.calls[i]? with
    | none =>
      rw [step_resume_none other hcall]
      exact h
    | some call =>
      rw [step_resume other hcall]
      have hadvances := resume_good h.records (h.calls call (List.mem_of_getElem? hcall))
      refine hadvances.sound h ?_
      intro call' hmem
      rw [hadvances.1.calls] at hmem
      exact List.mem_or_eq_of_mem_set hmem

/-- What holds of the containers and the processes of a runtime. -/
structure Kept (m : RuntimeService) : Prop where
  /-- A process finishes once, -/
  once : (finishes m.log).Nodup
  /-- with a code and at a time that it keeps; -/
  exits : ∀ p code atMs, (∃ byKill, Event.finished p code atMs byKill ∈ m.log)
    ↔ ∃ process, m.processes[p]? = some process ∧ process.processState = .Exited
      ∧ process.processExitCode = some code ∧ process.finishedAtMs = some atMs
  /-- 137 where it was `SIGKILL` that ended it. -/
  killed : ∀ p code atMs, Event.finished p code atMs true ∈ m.log → code = 137
  /-- A container that has heard of the exit of its main process shows its
  code, and its time as long as no stop ends. -/
  recorded : ∀ (c : Nat) (container : ContainerInstance) (p : Nat) (process : ProcessInstance),
    m.containers[c]? = some container → container.mainProcess = some p →
      m.processes[p]? = some process → process.noted = true →
      process.processState = .Exited ∧ container.lastExitCode = process.processExitCode
        ∧ (¬ StoppedSince m.log c → container.finishedAtMs = process.finishedAtMs)
  /-- A container is running while its main process is, or it has not
  heard of the exit. -/
  running : ∀ (c : Nat) (container : ContainerInstance), m.containers[c]? = some container →
    container.state = .Running → ∃ p process, container.mainProcess = some p
      ∧ m.processes[p]? = some process
      ∧ (process.processState = .Running ∨ process.processState = .Exited ∧ process.noted = false)
  /-- A stop that ended has ended the main process that it found. -/
  stopped : ∀ c p, Event.stopped c (some p) ∈ m.log →
    ∃ process, m.processes[p]? = some process ∧ process.processState = .Exited
  /-- A `SIGKILL` that returned has ended its process. -/
  kills : ∀ (k p : Nat), m.kills[k]? = some ⟨p, .SIGKILL, .returned⟩ →
    ∃ process, m.processes[p]? = some process ∧ process.processState = .Exited

theorem get_of_facts {p : Nat} {f : ProcessFacts} (h : m.facts p = some f) :
    ∃ process, m.processes[p]? = some process ∧ process.facts = f := by
  rw [facts, Option.map_eq_some_iff] at h
  exact h

theorem Ended.get {p : Nat} (h : m.Ended p) :
    ∃ process, m.processes[p]? = some process ∧ process.processState = .Exited := by
  obtain ⟨f, hf, hexited⟩ := h
  obtain ⟨process, hprocess, rfl⟩ := get_of_facts hf
  exact ⟨process, hprocess, hexited⟩

theorem Sound.kept (h : m.Sound) : m.Kept where
  once := h.records.once
  exits p code atMs := by
    rw [h.records.code p code atMs]
    constructor
    · intro ⟨f, hf, hexit⟩
      obtain ⟨process, hprocess, rfl⟩ := get_of_facts hf
      exact ⟨process, hprocess, hexit⟩
    · intro ⟨process, hprocess, hexit⟩
      exact ⟨process.facts, facts_of_get hprocess, hexit⟩
  killed := h.records.killed
  recorded c container p process hc hmain hprocess hnoted := by
    have hf := facts_of_get hprocess
    exact ⟨h.records.exited p _ hf hnoted, h.records.noted c container p _ hc hmain hf hnoted⟩
  running c container hc hrunning := by
    obtain ⟨p, f, hmain, hf, hstates⟩ := h.records.running c container hc hrunning
    obtain ⟨process, hprocess, rfl⟩ := get_of_facts hf
    exact ⟨p, process, hmain, hprocess, hstates⟩
  stopped c p hmem := (show m.Ended p from h.records.stopped c p hmem).get
  kills k p hk := ((h.kills _ (List.mem_of_getElem? hk)).2 rfl rfl).get

theorem sound_of_reach {other : JsString → Option Int} {idPrefix : JsString}
    (h : (runtimeSystem other idPrefix).Reach m) : m.Sound := by
  refine h.invariant ?_ ?_
  · rintro _ ⟨network, -, rfl⟩
    exact initial_sound idPrefix network
  · rintro m act _ - hm rfl
    exact step_sound other hm act

/-- In every run, whatever the code of the images and their signal
handlers do. -/
theorem exits_kept_of_reach {other : JsString → Option Int} {idPrefix : JsString}
    (h : (runtimeSystem other idPrefix).Reach m) : m.Kept :=
  (sound_of_reach h).kept

end RuntimeService

/-! ## Runs that wait -/

def runSteps (steps : List Step) : RuntimeService :=
  steps.foldl (RuntimeService.step fun _ => none) (.initial [] {})

theorem reach_runSteps (steps : List Step) :
    (runtimeSystem (fun _ => none) []).Reach (runSteps steps) := by
  have hstart : (runtimeSystem (fun _ => none) []).Reach (.initial [] {}) :=
    .start ⟨{}, ⟨rfl, rfl, rfl, rfl, rfl⟩, rfl⟩
  exact hstart.foldl (fun _ _ => rfl) steps

/-- A container is started in a sandbox. -/
def startSteps (signalHandler : Bool) : List Step :=
  [.runPodSandbox (js "uid") none (js "10.0.0.0/24"), .createContainer 0 signalHandler none,
    .startContainer 0 false]

/-- Its process exits, and the exit is noted. -/
def exitSteps : List Step := startSteps false ++ [Step.tick, .exit 0 3, .note 0]

theorem kept_exited : (runSteps exitSteps).Kept :=
  RuntimeService.exits_kept_of_reach (reach_runSteps exitSteps)

/-- A container is running when its process is not any more, before the
exit is noted; a `SIGKILL` waits for the signal handler while the process
goes on; a later stop takes the place of the time of the exit. -/
theorem running_after_exit :
    (∃ m, (runtimeSystem (fun _ => none) []).Reach m ∧ ∃ container process,
      m.containers[0]? = some container ∧ container.state = .Running
        ∧ container.mainProcess = some 0 ∧ m.processes[0]? = some process
        ∧ process.processState = .Exited) ∧
    (∃ m, (runtimeSystem (fun _ => none) []).Reach m ∧ ∃ kill process,
      m.kills[0]? = some kill ∧ kill.process = 0 ∧ kill.signal = .SIGKILL
        ∧ m.processes[0]? = some process ∧ process.processState = .Running) ∧
    ∃ m, (runtimeSystem (fun _ => none) []).Reach m ∧ ∃ container process,
      m.containers[0]? = some container ∧ container.mainProcess = some 0
        ∧ m.processes[0]? = some process ∧ process.finishedAtMs = some 1
        ∧ container.finishedAtMs = some 2 := by
  refine ⟨⟨_, reach_runSteps (startSteps false ++ [Step.exit 0 0]), ?_⟩,
    ⟨_, reach_runSteps (startSteps true ++ [Step.request (.stopContainer 0 0 0)]), ?_⟩,
    ⟨_, reach_runSteps (exitSteps ++ [Step.tick, .request (.removeContainer 0)]), ?_⟩⟩
  · exact ⟨_, _, rfl, rfl, rfl, rfl, rfl⟩
  · exact ⟨_, _, rfl, rfl, rfl, rfl, rfl⟩
  · exact ⟨_, _, rfl, rfl, rfl, rfl, rfl⟩

end Webernetes.Cri
