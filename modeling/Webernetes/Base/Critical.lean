/-
Webernetes.Base.Critical — programs that make one request after another
to a store, and calls whose programs run inside one lock.

A `Prog` awaits after each request. `Prog.run` is what it does when
nothing comes between, `Prog.Along` what holds of the store at each of its
awaits. A `Section` says what a call checks before it takes the lock, its
body, and the errors the lock itself may answer; its `machine` starts
calls at any time, lets any waiting call take the free lock or give up,
and moves the holder one request at a time.

`committed` is the store when the lock was last free. It is the store
itself whenever the lock is free (`Faithful`), and the log is a chain of
atomic calls that leads to it (`Chain`): what is shown of each call run by
itself holds of every interleaving.
-/
import Webernetes.Base.Transition
import Mathlib.Data.List.Induction

namespace Webernetes.Base

/-! ## Programs -/

/-- A program that ends, or makes a request and goes on with the store
the request was made on. -/
inductive Prog (σ ε ρ : Type) where
  | done (outcome : Except ε ρ)
  | request (effect : σ → σ) (next : σ → Prog σ ε ρ)

namespace Prog

variable {σ ε ρ τ : Type}

def bind : Prog σ ε ρ → (ρ → Prog σ ε τ) → Prog σ ε τ
  | done (.ok value), f => f value
  | done (.error e), _ => done (.error e)
  | request effect next, f => request effect fun s => (next s).bind f

instance : Monad (Prog σ ε) where
  pure value := done (.ok value)
  bind := bind

def throw (e : ε) : Prog σ ε ρ := done (.error e)

def ofExcept (outcome : Except ε ρ) : Prog σ ε ρ := done outcome

/-- A request that reads. -/
def read (f : σ → Except ε ρ) : Prog σ ε ρ := request id fun s => done (f s)

/-- A request that writes. -/
def write (effect : σ → σ) : Prog σ ε Unit := request effect fun _ => done (.ok ())

/-- What a program answers and leaves when nothing comes between. -/
def run : Prog σ ε ρ → σ → Except ε ρ × σ
  | done outcome, s => (outcome, s)
  | request effect next, s => (next s).run (effect s)

/-- The store meets `P` at every await of the program, and at its end. -/
def Along (P : σ → Prop) : Prog σ ε ρ → σ → Prop
  | done _, s => P s
  | request effect next, s => P s ∧ (next s).Along P (effect s)

@[simp] theorem run_pure (value : ρ) (s : σ) :
    (pure value : Prog σ ε ρ).run s = (.ok value, s) := rfl

@[simp] theorem run_throw (e : ε) (s : σ) : (throw e : Prog σ ε ρ).run s = (.error e, s) := rfl

@[simp] theorem run_ofExcept (outcome : Except ε ρ) (s : σ) :
    (ofExcept outcome : Prog σ ε ρ).run s = (outcome, s) := rfl

@[simp] theorem run_read (f : σ → Except ε ρ) (s : σ) : (read f).run s = (f s, s) := rfl

@[simp] theorem run_write (effect : σ → σ) (s : σ) :
    (write effect : Prog σ ε Unit).run s = (.ok (), effect s) := rfl

/-- A program in sequence with another. -/
@[simp] theorem run_bind (p : Prog σ ε ρ) (f : ρ → Prog σ ε τ) (s : σ) :
    (p >>= f).run s = match p.run s with
      | (.ok value, s') => (f value).run s'
      | (.error e, s') => (.error e, s') := by
  show (p.bind f).run s = _
  induction p generalizing s with
  | done outcome => cases outcome <;> rfl
  | request effect next ih => exact ih s (effect s)

variable {P : σ → Prop}

/-- The store at the end of a program is one it meets along the way. -/
theorem Along.run {p : Prog σ ε ρ} {s : σ} (h : p.Along P s) : P (p.run s).2 := by
  induction p generalizing s with
  | done outcome => exact h
  | request effect next ih => exact ih s h.2

theorem Along.here {p : Prog σ ε ρ} {s : σ} (h : p.Along P s) : P s := by
  cases p with
  | done outcome => exact h
  | request effect next => exact h.1

theorem along_bind {p : Prog σ ε ρ} {f : ρ → Prog σ ε τ} {s : σ} (h : p.Along P s)
    (hnext : ∀ value, (f value).Along P (p.run s).2) : (p >>= f).Along P s := by
  show (p.bind f).Along P s
  induction p generalizing s with
  | done outcome =>
    cases outcome with
    | ok value => exact hnext value
    | error e => exact h
  | request effect next ih => exact ⟨h.1, ih s h.2 hnext⟩

/-- A program that never leaves `P`. -/
def Keeps (P : σ → Prop) (p : Prog σ ε ρ) : Prop := ∀ s, P s → p.Along P s

theorem keeps_pure (value : ρ) : Keeps P (pure value : Prog σ ε ρ) := fun _ h => h

theorem keeps_throw (e : ε) : Keeps P (throw e : Prog σ ε ρ) := fun _ h => h

theorem keeps_ofExcept (outcome : Except ε ρ) : Keeps P (ofExcept outcome : Prog σ ε ρ) :=
  fun _ h => h

theorem keeps_read (f : σ → Except ε ρ) : Keeps P (read f) := fun _ h => ⟨h, h⟩

theorem keeps_write {effect : σ → σ} (h : ∀ s, P s → P (effect s)) :
    Keeps P (write effect : Prog σ ε Unit) := fun s hs => ⟨hs, h s hs⟩

theorem Keeps.bind {p : Prog σ ε ρ} {f : ρ → Prog σ ε τ} (hp : Keeps P p)
    (hf : ∀ value, Keeps P (f value)) : Keeps P (p >>= f) := fun s hs =>
  along_bind (hp s hs) fun value => hf value _ (hp s hs).run

end Prog

/-! ## Calls inside a lock -/

/-- Calls with one lock: what a call checks first, what it does inside the
lock, and what it may throw when it does not get it. -/
structure Section (σ ε ρ κ : Type) where
  check : κ → Except ε Unit
  body : κ → Prog σ ε ρ
  Refusal : ε → Prop

/-- A call that ended, between two moments at which the lock was free. -/
structure Ended (σ ε ρ κ : Type) where
  call : κ
  before : σ
  outcome : Except ε ρ
  after : σ
  deriving DecidableEq

structure Locked (σ ε ρ κ : Type) where
  store : σ
  waiting : List κ := []
  holder : Option (κ × Prog σ ε ρ) := none
  committed : σ := store
  log : List (Ended σ ε ρ κ) := []

inductive LockedStep (ε κ : Type) where
  | start (call : κ)
  | giveUp (i : Nat) (e : ε)
  | acquire (i : Nat)
  | advance

namespace Section

variable {σ ε ρ κ : Type} (sec : Section σ ε ρ κ)

/-- A call that threw outside the lock. -/
def threw (m : Locked σ ε ρ κ) (call : κ) (e : ε) : Locked σ ε ρ κ :=
  { m with log := m.log ++ [⟨call, m.committed, .error e, m.committed⟩] }

def exec (m : Locked σ ε ρ κ) : LockedStep ε κ → Locked σ ε ρ κ
  | .start call =>
    match sec.check call with
    | .error e => threw m call e
    | .ok () => { m with waiting := m.waiting ++ [call] }
  | .giveUp i e =>
    match m.waiting[i]? with
    | none => m
    | some call => { threw m call e with waiting := m.waiting.eraseIdx i }
  | .acquire i =>
    match m.holder, m.waiting[i]? with
    | none, some call =>
      { m with waiting := m.waiting.eraseIdx i, holder := some (call, sec.body call) }
    | _, _ => m
  | .advance =>
    match m.holder with
    | none => m
    | some (call, .request effect next) =>
      { m with store := effect m.store, holder := some (call, next m.store) }
    | some (call, .done outcome) =>
      { m with
        holder := none
        committed := m.store
        log := m.log ++ [⟨call, m.committed, outcome, m.store⟩] }

/-- A call gives up with an error of the lock. -/
def Allowed : LockedStep ε κ → Prop
  | .giveUp _ e => sec.Refusal e
  | _ => True

/-- The runs of any number of calls that start with a store. -/
def machine (initial : σ) : System (Locked σ ε ρ κ) (LockedStep ε κ) where
  init m := m = { store := initial }
  step m act m' := sec.Allowed act ∧ m' = sec.exec m act

theorem reach_exec {sec : Section σ ε ρ κ} {initial : σ} {m : Locked σ ε ρ κ}
    (h : (sec.machine initial).Reach m) (act : LockedStep ε κ) (hact : sec.Allowed act) :
    (sec.machine initial).Reach (sec.exec m act) := h.step (l := act) ⟨hact, rfl⟩

/-- The call threw before it had the lock, or its body ran by itself. -/
def Atomic (entry : Ended σ ε ρ κ) : Prop :=
  (entry.after = entry.before
    ∧ ∃ e, entry.outcome = .error e ∧ (sec.check entry.call = .error e ∨ sec.Refusal e)) ∨
  (sec.check entry.call = .ok ()
    ∧ (sec.body entry.call).run entry.before = (entry.outcome, entry.after))

/-- Each call finds the store the one before it left. -/
inductive Chain : σ → List (Ended σ ε ρ κ) → σ → Prop where
  | nil {s : σ} : Chain s [] s
  | snoc {first last : σ} {log : List (Ended σ ε ρ κ)} {entry : Ended σ ε ρ κ}
      (chain : Chain first log entry.before) (h : entry.after = last) :
      Chain first (log ++ [entry]) last

/-- The holder has yet to do what is left of its body. -/
structure Faithful (initial : σ) (m : Locked σ ε ρ κ) : Prop where
  waiting : ∀ call ∈ m.waiting, sec.check call = .ok ()
  free : m.holder = none → m.store = m.committed
  held : ∀ call p, m.holder = some (call, p) →
    sec.check call = .ok () ∧ p.run m.store = (sec.body call).run m.committed
  atomic : ∀ entry ∈ m.log, sec.Atomic entry
  chain : Chain initial m.log m.committed

variable {sec} {initial : σ} {m m' : Locked σ ε ρ κ}

theorem Faithful.threw (h : sec.Faithful initial m) {call : κ} {e : ε}
    (he : sec.check call = .error e ∨ sec.Refusal e) : sec.Faithful initial (threw m call e) where
  waiting := h.waiting
  free := h.free
  held := h.held
  atomic entry hmem := by
    rcases List.mem_append.mp hmem with hmem | hmem
    · exact h.atomic entry hmem
    · obtain rfl := List.mem_singleton.mp hmem
      exact .inl ⟨rfl, e, rfl, he⟩
  chain := .snoc h.chain rfl

theorem Faithful.eraseIdx (h : sec.Faithful initial m) (i : Nat) :
    sec.Faithful initial { m with waiting := m.waiting.eraseIdx i } :=
  { h with waiting := fun call hcall => h.waiting call (List.mem_of_mem_eraseIdx hcall) }

theorem Faithful.exec (h : sec.Faithful initial m) (act : LockedStep ε κ)
    (hact : sec.Allowed act) : sec.Faithful initial (sec.exec m act) := by
  cases act with
  | start call =>
    dsimp only [Section.exec]
    split
    · exact h.threw (.inl ‹_›)
    · rename_i hcheck
      refine { h with waiting := fun c hc => ?_ }
      rcases List.mem_append.mp hc with hc | hc
      · exact h.waiting c hc
      · rwa [List.mem_singleton.mp hc]
  | giveUp i e =>
    dsimp only [Section.exec]
    split
    · exact h
    · exact (h.threw (.inr hact)).eraseIdx i
  | acquire i =>
    dsimp only [Section.exec]
    split
    · rename_i call hfree hcall
      refine { h.eraseIdx i with free := by simp, held := fun c p hheld => ?_ }
      cases hheld
      rw [h.free hfree]
      exact ⟨h.waiting call (List.mem_of_getElem? hcall), rfl⟩
    · exact h
  | advance =>
    dsimp only [Section.exec]
    split
    · exact h
    · rename_i call effect next hholder
      refine { h with free := by simp, held := fun c p hheld => ?_ }
      cases hheld
      exact h.held call _ hholder
    · rename_i call outcome hholder
      obtain ⟨hcheck, hrun⟩ := h.held call _ hholder
      refine ⟨h.waiting, fun _ => rfl, by simp, fun entry hmem => ?_, .snoc h.chain rfl⟩
      rcases List.mem_append.mp hmem with hmem | hmem
      · exact h.atomic entry hmem
      · obtain rfl := List.mem_singleton.mp hmem
        exact .inr ⟨hcheck, hrun.symm⟩

/-- Every run is a chain of calls that ran one by one. -/
theorem faithful (h : (sec.machine initial).Reach m) : sec.Faithful initial m := by
  refine h.invariant ?_ fun m act m' _ hm hstep => hstep.2 ▸ hm.exec act hstep.1
  rintro m rfl
  exact ⟨by simp, fun _ => rfl, by simp, by simp, .nil⟩

/-! ## What calls keep -/

theorem Chain.snoc_inv {log : List (Ended σ ε ρ κ)} {entry : Ended σ ε ρ κ} {last : σ}
    (hchain : Chain initial (log ++ [entry]) last) :
    Chain initial log entry.before ∧ entry.after = last := by
  generalize hlog : log ++ [entry] = whole at hchain
  cases hchain with
  | nil => simp at hlog
  | snoc chain hlast =>
    obtain ⟨rfl, hentry⟩ := List.append_inj' hlog rfl
    cases hentry
    exact ⟨chain, hlast⟩

/-- What every call keeps when it runs by itself holds whenever the lock is
free, and of the store each call finds and leaves. -/
theorem Chain.invariant {P : σ → Prop} {log : List (Ended σ ε ρ κ)} {last : σ}
    (hchain : Chain initial log last) (hinit : P initial)
    (hkeeps : ∀ entry ∈ log, P entry.before → P entry.after) :
    P last ∧ ∀ entry ∈ log, P entry.before ∧ P entry.after := by
  induction hchain with
  | nil => exact ⟨hinit, by simp⟩
  | snoc chain hlast ih =>
    rename_i log entry
    obtain ⟨hbefore, hlog⟩ := ih fun e he => hkeeps e (List.mem_append_left _ he)
    have hafter := hkeeps entry (List.mem_append_right _ (List.mem_singleton_self entry)) hbefore
    refine ⟨hlast ▸ hafter, fun e he => ?_⟩
    rcases List.mem_append.mp he with he | he
    · exact hlog e he
    · obtain rfl := List.mem_singleton.mp he
      exact ⟨hbefore, hafter⟩

/-- Between two parts of a log there is a store. -/
theorem Chain.split {log log' : List (Ended σ ε ρ κ)} {last : σ}
    (hchain : Chain initial (log ++ log') last) :
    ∃ s, Chain initial log s ∧ Chain s log' last := by
  induction log' using List.reverseRecOn generalizing last with
  | nil => exact ⟨last, by simpa using hchain, .nil⟩
  | append_singleton log' entry ih =>
    rw [← List.append_assoc] at hchain
    obtain ⟨hfront, hlast⟩ := hchain.snoc_inv
    obtain ⟨s, hleft, hright⟩ := ih hfront
    exact ⟨s, hleft, hright.snoc hlast⟩

/-- What no body ever leaves holds at every moment, also while the lock is
held. -/
theorem always {P : σ → Prop} (hinit : P initial) (hbody : ∀ call, (sec.body call).Keeps P)
    (h : (sec.machine initial).Reach m) : P m.store := by
  suffices P m.store ∧ ∀ call p, m.holder = some (call, p) → p.Along P m.store from this.1
  refine h.invariant
    (P := fun m => P m.store ∧ ∀ call p, m.holder = some (call, p) → p.Along P m.store)
    ?_ fun m act m' _ hm hstep => ?_
  · rintro m rfl
    exact ⟨hinit, by simp⟩
  · obtain ⟨-, rfl⟩ := hstep
    obtain ⟨hstore, hholder⟩ := hm
    cases act with
    | start call =>
      dsimp only [Section.exec]
      split <;> exact ⟨hstore, hholder⟩
    | giveUp i e =>
      dsimp only [Section.exec]
      split <;> exact ⟨hstore, hholder⟩
    | acquire i =>
      dsimp only [Section.exec]
      split
      · refine ⟨hstore, fun c p hheld => ?_⟩
        cases hheld
        exact hbody _ _ hstore
      · exact ⟨hstore, hholder⟩
    | advance =>
      dsimp only [Section.exec]
      split
      · exact ⟨hstore, hholder⟩
      · rename_i call effect next hheld
        have hnext := (hholder call _ hheld).2
        refine ⟨hnext.here, fun c p hheld => ?_⟩
        cases hheld
        exact hnext
      · exact ⟨hstore, by simp⟩

end Section

end Webernetes.Base
