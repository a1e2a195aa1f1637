/-
Webernetes.Base.Interleave — programs that share a store and are
interleaved at every await.

A `Pool` is a store and the programs that run on it. One step starts a
call, moves one program by one request, or lets something else disturb
the store. A `Discipline` says what each call may count on between its
requests (`rely`) and what each of its requests owes (`guar`), and `Wp` is
the weakest precondition of a program under it: whatever the others do at
the awaits, every request does what it owes and the program ends with its
postcondition. `Wp` has a rule for each way programs are put together,
and `sound` is the rule for pools: when every call starts with its
precondition met, the invariant and all preconditions hold in every run.
-/
import Webernetes.Base.Critical

namespace Webernetes.Base

/-! ## More programs -/

namespace Prog

variable {σ τ ε ε' ρ υ : Type}

/-- A request that answers, and changes the store or not. -/
def exchange (answer : σ → Except ε ρ) (effect : σ → σ) : Prog σ ε ρ :=
  request effect fun s => done (answer s)

/-- A program with a clean-up for when it throws. An error of the clean-up
takes the place of the first. -/
def onError (p : Prog σ ε ρ) (cleanup : Prog σ ε Unit) : Prog σ ε ρ :=
  match p with
  | done (.ok value) => done (.ok value)
  | done (.error e) => cleanup.bind fun _ => done (.error e)
  | request effect next => request effect fun s => (next s).onError cleanup

/-- A program with what it throws as an answer. -/
def attempt : Prog σ ε ρ → Prog σ ε' (Except ε ρ)
  | done outcome => done (.ok outcome)
  | request effect next => request effect fun s => (next s).attempt

/-- A value the program may return, whatever it finds. -/
def MayReturn : Prog σ ε ρ → ρ → Prop
  | done outcome, value => outcome = .ok value
  | request _ next, value => ∃ s, (next s).MayReturn value

/-- A program on a part of the store. -/
def zoom (get : σ → τ) (set : σ → τ → σ) (lift : ε → ε') : Prog τ ε ρ → Prog σ ε' ρ
  | done (.ok value) => done (.ok value)
  | done (.error e) => done (.error (lift e))
  | request effect next =>
    request (fun s => set s (effect (get s))) fun s => (next (get s)).zoom get set lift

end Prog

/-! ## What a program counts on and what it owes -/

/-- What every call may count on and what it owes, by the call's number. -/
structure Discipline (σ : Type) where
  inv : σ → Prop
  rely : Nat → σ → σ → Prop
  guar : Nat → σ → σ → Prop
  refl : ∀ i s, rely i s s
  trans : ∀ i s t u, rely i s t → rely i t u → rely i s u
  /-- What one call owes, the others may count on. -/
  others : ∀ i j s t, i ≠ j → inv s → guar j s t → rely i s t

namespace Discipline

variable {σ τ ε ε' ρ υ : Type} (d : Discipline σ) (i : Nat)

/-- Whatever the others do at its awaits, each request of the program does
what it owes and keeps the invariant, and the program ends with `Q`. -/
def Wp : Prog σ ε ρ → (Except ε ρ → σ → Prop) → σ → Prop
  | .done outcome, Q, s => ∀ t, d.rely i s t → d.inv t → Q outcome t
  | .request effect next, Q, s => ∀ t, d.rely i s t → d.inv t →
      d.inv (effect t) ∧ d.guar i t (effect t) ∧ Wp (next t) Q (effect t)

variable {d i} {Q Q' : Except ε ρ → σ → Prop} {s t : σ}

/-- What the others do is no matter. -/
theorem Wp.stable {p : Prog σ ε ρ} (h : d.Wp i p Q s) (hst : d.rely i s t) : d.Wp i p Q t := by
  cases p with
  | done outcome => exact fun u htu hu => h u (d.trans i s t u hst htu) hu
  | request effect next => exact fun u htu hu => h u (d.trans i s t u hst htu) hu

theorem Wp.mono {p : Prog σ ε ρ} (h : d.Wp i p Q s) (hQ : ∀ outcome t, d.inv t → Q outcome t →
    Q' outcome t) : d.Wp i p Q' s := by
  induction p generalizing s with
  | done outcome => exact fun t hst ht => hQ outcome t ht (h t hst ht)
  | request effect next ih =>
    intro t hst ht
    obtain ⟨hinv, hguar, hnext⟩ := h t hst ht
    exact ⟨hinv, hguar, ih t hnext⟩

/-- The postcondition lasts, whatever the others do. -/
theorem Wp.lasting {p : Prog σ ε ρ} (h : d.Wp i p Q s) :
    d.Wp i p (fun outcome t => ∀ u, d.rely i t u → d.inv u → Q outcome u) s := by
  induction p generalizing s with
  | done outcome => exact fun t hst _ u htu hu => h u (d.trans i s t u hst htu) hu
  | request effect next ih =>
    intro t hst ht
    obtain ⟨hinv, hguar, hnext⟩ := h t hst ht
    exact ⟨hinv, hguar, ih t hnext⟩

/-- A program that has ended has its postcondition. -/
theorem Wp.ended {outcome : Except ε ρ} (h : d.Wp i (.done outcome) Q s) (hs : d.inv s) :
    Q outcome s :=
  h s (d.refl i s) hs

theorem wp_pure {value : ρ} (h : ∀ t, d.rely i s t → d.inv t → Q (.ok value) t) :
    d.Wp i (pure value : Prog σ ε ρ) Q s := h

theorem wp_throw {e : ε} (h : ∀ t, d.rely i s t → d.inv t → Q (.error e) t) :
    d.Wp i (.throw e : Prog σ ε ρ) Q s := h

theorem wp_ofExcept {outcome : Except ε ρ} (h : ∀ t, d.rely i s t → d.inv t → Q outcome t) :
    d.Wp i (.ofExcept outcome) Q s := h

/-- One request: what it finds is what the others have left. -/
theorem wp_exchange {answer : σ → Except ε ρ} {effect : σ → σ}
    (h : ∀ t, d.rely i s t → d.inv t → d.inv (effect t) ∧ d.guar i t (effect t)
      ∧ ∀ u, d.rely i (effect t) u → d.inv u → Q (answer t) u) :
    d.Wp i (.exchange answer effect) Q s := h

/-- A program in sequence with another. -/
theorem wp_bind {p : Prog σ ε ρ} {f : ρ → Prog σ ε υ} {Q : Except ε υ → σ → Prop} (hs : d.inv s)
    (h : d.Wp i p (fun outcome t => match outcome with
      | .ok value => d.Wp i (f value) Q t
      | .error e => Q (.error e) t) s) :
    d.Wp i (p >>= f) Q s := by
  show d.Wp i (p.bind f) Q s
  induction p generalizing s with
  | done outcome =>
    cases outcome with
    | ok value => exact h s (d.refl i s) hs
    | error e => exact h
  | request effect next ih =>
    intro t hst ht
    obtain ⟨hinv, hguar, hnext⟩ := h t hst ht
    exact ⟨hinv, hguar, ih t hinv hnext⟩

theorem wp_onError {p : Prog σ ε ρ} {cleanup : Prog σ ε Unit} (hs : d.inv s)
    (h : d.Wp i p (fun outcome t => match outcome with
      | .ok value => Q (.ok value) t
      | .error e => d.Wp i cleanup (fun outcome u => match outcome with
        | .ok () => Q (.error e) u
        | .error e' => Q (.error e') u) t) s) :
    d.Wp i (p.onError cleanup) Q s := by
  induction p generalizing s with
  | done outcome =>
    cases outcome with
    | ok value => exact h
    | error e =>
      show d.Wp i (cleanup >>= fun _ => .throw e) Q s
      refine wp_bind hs ((h s (d.refl i s) hs).lasting.mono fun outcome t ht hQ => ?_)
      cases outcome with
      | ok value => exact hQ
      | error e' => exact hQ t (d.refl i t) ht
  | request effect next ih =>
    intro t hst ht
    obtain ⟨hinv, hguar, hnext⟩ := h t hst ht
    exact ⟨hinv, hguar, ih t hinv hnext⟩

/-- `Wp` of a program that makes its next request at once. -/
def Now (d : Discipline σ) (i : Nat) : Prog σ ε ρ → (Except ε ρ → σ → Prop) → σ → Prop
  | .done outcome, Q, s => Q outcome s
  | .request effect next, Q, s =>
    d.inv (effect s) ∧ d.guar i s (effect s) ∧ d.Wp i (next s) Q (effect s)

theorem wp_iff_now {p : Prog σ ε ρ} :
    d.Wp i p Q s ↔ ∀ t, d.rely i s t → d.inv t → d.Now i p Q t := by
  cases p <;> rfl

/-- In sequence, the first of the two at once. -/
theorem now_bind {p : Prog σ ε ρ} {f : ρ → Prog σ ε υ} {Q : Except ε υ → σ → Prop} (hs : d.inv s)
    (h : d.Now i p (fun outcome t => match outcome with
      | .ok value => d.Wp i (f value) Q t
      | .error e => Q (.error e) t) s) :
    d.Now i (p >>= f) Q s := by
  cases p with
  | done outcome =>
    cases outcome with
    | ok value => exact wp_iff_now.mp h s (d.refl i s) hs
    | error e => exact h
  | request effect next =>
    obtain ⟨hinv, hguar, hnext⟩ := h
    exact ⟨hinv, hguar, wp_bind hinv hnext⟩

/-- A postcondition of programs that end well. -/
def OnOk (R : ρ → σ → Prop) (outcome : Except ε ρ) (s : σ) : Prop :=
  ∀ value, outcome = .ok value → R value s

theorem onOk_ok {R : ρ → σ → Prop} {value : ρ} (h : R value s) :
    OnOk R (.ok value : Except ε ρ) s := fun _ heq => by cases heq; exact h

theorem onOk_error {R : ρ → σ → Prop} {e : ε} : OnOk R (.error e : Except ε ρ) s :=
  fun _ heq => by cases heq

/-- In sequence: what the first ends with is where the second starts. -/
theorem wp_bind_ok {p : Prog σ ε ρ} {f : ρ → Prog σ ε υ} {R : ρ → σ → Prop} {R' : υ → σ → Prop}
    (hs : d.inv s) (h : d.Wp i p (OnOk R) s)
    (hnext : ∀ value t, d.inv t → R value t → d.Wp i (f value) (OnOk R') t) :
    d.Wp i (p >>= f) (OnOk R') s := by
  refine wp_bind hs (h.mono fun outcome t ht hQ => ?_)
  cases outcome with
  | ok value => exact hnext value t ht (hQ value rfl)
  | error e => exact onOk_error

theorem wp_onError_ok {p : Prog σ ε ρ} {cleanup : Prog σ ε Unit} {R : ρ → σ → Prop} (hs : d.inv s)
    (h : d.Wp i p (OnOk R) s) (hcleanup : ∀ t, d.inv t → d.Wp i cleanup (fun _ _ => True) t) :
    d.Wp i (p.onError cleanup) (OnOk R) s := by
  refine wp_onError hs (h.mono fun outcome t ht hQ => ?_)
  cases outcome with
  | ok value => exact hQ
  | error e => exact (hcleanup t ht).mono fun outcome _ _ _ => by cases outcome <;> exact onOk_error

theorem wp_throw_ok {e : ε} {R : ρ → σ → Prop} : d.Wp i (.throw e : Prog σ ε ρ) (OnOk R) s :=
  wp_throw fun _ _ _ => onOk_error

theorem wp_attempt {p : Prog σ ε ρ} {Q : Except ε' (Except ε ρ) → σ → Prop}
    (h : d.Wp i p (fun outcome t => Q (.ok outcome) t) s) : d.Wp i p.attempt Q s := by
  induction p generalizing s with
  | done outcome => exact h
  | request effect next ih =>
    intro t hst ht
    obtain ⟨hinv, hguar, hnext⟩ := h t hst ht
    exact ⟨hinv, hguar, ih t hnext⟩

/-- A program on a part of the store that no assertion is about. -/
theorem wp_zoom {get : σ → τ} {set : σ → τ → σ} {lift : ε → ε'} {P : σ → Prop}
    (hrely : ∀ s t, d.rely i s t → d.inv t → P s → P t)
    (hset : ∀ s part, d.inv s → P s → d.inv (set s part) ∧ d.guar i s (set s part) ∧ P (set s part))
    (p : Prog τ ε ρ) {s : σ} (h : P s) :
    d.Wp i (p.zoom get set lift)
      (fun outcome t => P t ∧ ∀ value, outcome = .ok value → p.MayReturn value) s := by
  induction p generalizing s with
  | done outcome =>
    cases outcome with
    | ok value =>
      refine fun t hst ht => ⟨hrely s t hst ht h, fun value' heq => ?_⟩
      cases heq
      rfl
    | error e => exact fun t hst ht => ⟨hrely s t hst ht h, fun value' heq => by cases heq⟩
  | request effect next ih =>
    intro t hst ht
    obtain ⟨hinv, hguar, hP⟩ := hset t (effect (get t)) ht (hrely s t hst ht h)
    refine ⟨hinv, hguar, (ih (get t) hP).mono fun outcome u _ hQ => ⟨hQ.1, fun value heq => ?_⟩⟩
    exact ⟨get t, hQ.2 value heq⟩

/-- A program on the whole store, with other errors. -/
theorem wp_lift {lift : ε → ε'} {p : Prog σ ε ρ} {Q : Except ε' ρ → σ → Prop}
    (h : d.Wp i p (fun outcome t => Q (outcome.mapError lift) t) s) :
    d.Wp i (p.zoom id (fun _ t => t) lift) Q s := by
  induction p generalizing s with
  | done outcome => cases outcome <;> exact h
  | request effect next ih =>
    intro t hst ht
    obtain ⟨hinv, hguar, hnext⟩ := h t hst ht
    exact ⟨hinv, hguar, ih t hnext⟩

end Discipline

/-! ## Pools -/

/-- A store and the calls made so far, each with what is left of its
program. -/
structure Pool (σ ε ρ κ : Type) where
  store : σ
  calls : List (κ × Prog σ ε ρ) := []

/-- The call with a number. -/
def Pool.callAt {σ ε ρ κ : Type} (m : Pool σ ε ρ κ) (i : Nat) : Option κ :=
  m.calls[i]?.map Prod.fst

theorem Pool.callAt_of {σ ε ρ κ : Type} {m : Pool σ ε ρ κ} {i : Nat} {call : κ} {p : Prog σ ε ρ}
    (h : m.calls[i]? = some (call, p)) : m.callAt i = some call := by
  rw [callAt, h]
  rfl

inductive PoolStep (κ δ : Type) where
  | start (call : κ)
  | advance (i : Nat)
  | disturb (disturbance : δ)

/-- The program of each call, by its number, and what may disturb the
store. -/
structure Interleaving (σ ε ρ κ δ : Type) where
  body : Nat → κ → Prog σ ε ρ
  disturb : σ → δ → σ

namespace Interleaving

variable {σ ε ρ κ δ : Type} (sys : Interleaving σ ε ρ κ δ)

def exec (m : Pool σ ε ρ κ) : PoolStep κ δ → Pool σ ε ρ κ
  | .start call => { m with calls := m.calls ++ [(call, sys.body m.calls.length call)] }
  | .advance i =>
    match m.calls[i]? with
    | some (call, .request effect next) =>
      { store := effect m.store, calls := m.calls.set i (call, next m.store) }
    | _ => m
  | .disturb disturbance => { m with store := sys.disturb m.store disturbance }

/-- The runs of any number of calls. -/
def machine (initial : σ → Prop) : System (Pool σ ε ρ κ) (PoolStep κ δ) where
  init m := initial m.store ∧ m.calls = []
  step m act m' := m' = sys.exec m act

/-- The invariant holds, and what is to be kept of every call. -/
structure Holding (d : Discipline σ) (keeps : Nat → κ → Prog σ ε ρ → σ → Prop) (m : Pool σ ε ρ κ) :
    Prop where
  inv : d.inv m.store
  calls : ∀ i call p, m.calls[i]? = some (call, p) → keeps i call p m.store

/-- The invariant holds, and every call goes on under the discipline. -/
structure Sound (d : Discipline σ) (post : Nat → κ → Except ε ρ → σ → Prop) (m : Pool σ ε ρ κ) :
    Prop where
  inv : d.inv m.store
  calls : ∀ i call p, m.calls[i]? = some (call, p) → d.Wp i p (post i call) m.store

/-- Each of the steps meets a condition where it is taken. -/
def Along (ok : Pool σ ε ρ κ → PoolStep κ δ → Prop) (m : Pool σ ε ρ κ) : List (PoolStep κ δ) → Prop
  | [] => True
  | act :: acts => ok m act ∧ Along ok (sys.exec m act) acts

instance decidableAlong (ok : Pool σ ε ρ κ → PoolStep κ δ → Prop) [∀ m act, Decidable (ok m act)]
    (m : Pool σ ε ρ κ) (acts : List (PoolStep κ δ)) : Decidable (sys.Along ok m acts) :=
  match acts with
  | [] => isTrue trivial
  | act :: acts =>
    have : Decidable (sys.Along ok (sys.exec m act) acts) := decidableAlong ok _ acts
    inferInstanceAs (Decidable (ok m act ∧ sys.Along ok (sys.exec m act) acts))

variable {sys} {d : Discipline σ} {post : Nat → κ → Except ε ρ → σ → Prop} {m : Pool σ ε ρ κ}

theorem reach_foldl {initial : σ → Prop} {ok : Pool σ ε ρ κ → PoolStep κ δ → Prop}
    (h : ((sys.machine initial).guarded ok).Reach m) {acts : List (PoolStep κ δ)}
    (hacts : sys.Along ok m acts) :
    ((sys.machine initial).guarded ok).Reach (acts.foldl sys.exec m) := by
  induction acts generalizing m with
  | nil => exact h
  | cons act acts ih =>
    obtain ⟨hok, hacts⟩ := hacts
    exact ih (h.step (l := act) ⟨rfl, hok⟩) hacts

/-- The request a call makes next does what it owes. -/
theorem Sound.advance (h : Sound d post m) {i : Nat} :
    (sys.exec m (.advance i)).store = m.store
      ∨ d.inv (sys.exec m (.advance i)).store
        ∧ d.guar i m.store (sys.exec m (.advance i)).store := by
  dsimp only [exec]
  split
  · rename_i call effect next hcall
    obtain ⟨hinv, hguar, -⟩ := h.calls i call _ hcall m.store (d.refl i m.store) h.inv
    exact .inr ⟨hinv, hguar⟩
  · exact .inl rfl

/-- A call that has ended has its postcondition. -/
theorem Sound.ended (h : Sound d post m) {i : Nat} {call : κ} {outcome : Except ε ρ}
    (hcall : m.calls[i]? = some (call, .done outcome)) : post i call outcome m.store :=
  (h.calls i call _ hcall).ended h.inv

variable {keeps : Nat → κ → Prog σ ε ρ → σ → Prop}

theorem Holding.exec (h : Holding d keeps m) (act : PoolStep κ δ)
    (hstable : ∀ i call p s t, d.rely i s t → keeps i call p s → keeps i call p t)
    (hstart : ∀ call, act = .start call →
      keeps m.calls.length call (sys.body m.calls.length call) m.store)
    (hadvance : ∀ i call effect next, act = .advance i →
      m.calls[i]? = some (call, .request effect next) →
      keeps i call (.request effect next) m.store →
      d.inv (effect m.store) ∧ d.guar i m.store (effect m.store)
        ∧ keeps i call (next m.store) (effect m.store))
    (hdisturb : ∀ disturbance, act = .disturb disturbance →
      d.inv (sys.disturb m.store disturbance)
        ∧ ∀ i, d.rely i m.store (sys.disturb m.store disturbance)) :
    Holding d keeps (sys.exec m act) := by
  cases act with
  | start call =>
    refine ⟨h.inv, fun i c p hcall => ?_⟩
    dsimp only [Interleaving.exec] at hcall
    rcases Nat.lt_trichotomy i m.calls.length with hlt | rfl | hgt
    · exact h.calls i c p (by rwa [List.getElem?_append_left hlt] at hcall)
    · rw [List.getElem?_concat_length] at hcall
      cases hcall
      exact hstart call rfl
    · rw [List.getElem?_eq_none (by simp; omega)] at hcall
      cases hcall
  | advance i =>
    dsimp only [Interleaving.exec]
    split
    · rename_i call effect next hmoved
      obtain ⟨hinv, hguar, hnext⟩ :=
        hadvance i call effect next rfl hmoved (h.calls i call _ hmoved)
      refine ⟨hinv, fun j c p hcall => ?_⟩
      by_cases hij : i = j
      · subst hij
        rw [List.getElem?_set_self (List.getElem?_eq_some_iff.mp hmoved).1] at hcall
        cases hcall
        exact hnext
      · rw [List.getElem?_set_ne hij] at hcall
        exact hstable j c p m.store (effect m.store)
          (d.others j i m.store (effect m.store) (Ne.symm hij) h.inv hguar) (h.calls j c p hcall)
    · exact h
  | disturb disturbance =>
    obtain ⟨hinv, hrely⟩ := hdisturb disturbance rfl
    exact ⟨hinv, fun i c p hcall => hstable i c p m.store _ (hrely i) (h.calls i c p hcall)⟩

/-- **Every run holds** what its starts establish and its requests keep. -/
theorem holding {initial : σ → Prop} {ok : Pool σ ε ρ κ → PoolStep κ δ → Prop}
    (hinit : ∀ s, initial s → d.inv s)
    (hstable : ∀ i call p s t, d.rely i s t → keeps i call p s → keeps i call p t)
    (hstart : ∀ m call, ok m (.start call) → d.inv m.store →
      keeps m.calls.length call (sys.body m.calls.length call) m.store)
    (hadvance : ∀ m i call effect next, ok m (.advance i) → d.inv m.store →
      m.calls[i]? = some (call, .request effect next) →
      keeps i call (.request effect next) m.store →
      d.inv (effect m.store) ∧ d.guar i m.store (effect m.store)
        ∧ keeps i call (next m.store) (effect m.store))
    (hdisturb : ∀ m disturbance, ok m (.disturb disturbance) → d.inv m.store →
      d.inv (sys.disturb m.store disturbance)
        ∧ ∀ i, d.rely i m.store (sys.disturb m.store disturbance))
    (h : ((sys.machine initial).guarded ok).Reach m) : Holding d keeps m := by
  refine h.invariant (P := Holding d keeps) ?_ ?_
  · rintro m ⟨hstore, hcalls⟩
    exact ⟨hinit m.store hstore, by simp [hcalls]⟩
  · rintro m act m' - hm ⟨rfl, hok⟩
    refine hm.exec act hstable ?_ ?_ ?_
    · rintro call rfl
      exact hstart m call hok hm.inv
    · rintro i call effect next rfl hcall hkeeps
      exact hadvance m i call effect next hok hm.inv hcall hkeeps
    · rintro disturbance rfl
      exact hdisturb m disturbance hok hm.inv

/-- **Every run is sound**, when every call starts with its precondition
met and no disturbance is more than the calls reckon with. -/
theorem sound {initial : σ → Prop} {ok : Pool σ ε ρ κ → PoolStep κ δ → Prop}
    (hinit : ∀ s, initial s → d.inv s)
    (hstart : ∀ m call, ok m (.start call) → d.inv m.store →
      d.Wp m.calls.length (sys.body m.calls.length call) (post m.calls.length call) m.store)
    (hdisturb : ∀ m disturbance, ok m (.disturb disturbance) → d.inv m.store →
      d.inv (sys.disturb m.store disturbance)
        ∧ ∀ i, d.rely i m.store (sys.disturb m.store disturbance))
    (h : ((sys.machine initial).guarded ok).Reach m) : Sound d post m := by
  have hholding : Holding d (fun i call p s => d.Wp i p (post i call) s) m := holding hinit
    (fun _ _ _ _ _ hst hwp => hwp.stable hst) hstart
    (fun m i call effect next _ hinv _ hwp => hwp m.store (d.refl i m.store) hinv) hdisturb h
  exact ⟨hholding.inv, hholding.calls⟩

/-! ### The calls of a run -/

/-- A call keeps its number. -/
theorem calls_exec {act : PoolStep κ δ} {i : Nat} {call : κ} {p : Prog σ ε ρ}
    (h : m.calls[i]? = some (call, p)) : ∃ p', (sys.exec m act).calls[i]? = some (call, p') := by
  have hlt : i < m.calls.length := (List.getElem?_eq_some_iff.mp h).1
  cases act with
  | start call => exact ⟨p, by simpa only [exec, List.getElem?_append_left hlt] using h⟩
  | advance j =>
    dsimp only [exec]
    split
    · rename_i call' effect next hmoved
      by_cases hij : j = i
      · subst hij
        rw [h] at hmoved
        cases hmoved
        exact ⟨next m.store, List.getElem?_set_self hlt⟩
      · exact ⟨p, by rw [List.getElem?_set_ne hij, h]⟩
    · exact ⟨p, h⟩
  | disturb disturbance => exact ⟨p, h⟩

/-- Which calls a run makes may be known beforehand. -/
theorem reach_foreseen {initial : σ → Prop} {ok : Pool σ ε ρ κ → PoolStep κ δ → Prop}
    (h : ((sys.machine initial).guarded ok).Reach m) :
    ((sys.machine initial).guarded fun m' act =>
      ok m' act ∧ ∀ call, act = .start call → m.callAt m'.calls.length = some call).Reach m := by
  have hcalls : ∀ i call p, m.calls[i]? = some (call, p) → m.callAt i = some call :=
    fun i call p => Pool.callAt_of
  generalize m.callAt = calls at hcalls ⊢
  obtain ⟨acts, hrun⟩ := h
  induction hrun with
  | start hinit => exact .start hinit
  | @snoc acts m m' act run hstep ih =>
    obtain ⟨rfl, hok⟩ := hstep
    have hbefore := ih fun i call p hcall => by
      obtain ⟨p', hcall'⟩ : ∃ p', (sys.exec m act).calls[i]? = some (call, p') := calls_exec hcall
      exact hcalls i call p' hcall'
    refine hbefore.step (l := act) ⟨rfl, hok, ?_⟩
    rintro call rfl
    exact hcalls m.calls.length call _ List.getElem?_concat_length

end Interleaving

end Webernetes.Base
