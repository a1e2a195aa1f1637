/-
Webernetes.Go.ContextRuns — what a context tells in every run.

The invariant speaks of the states in the middle of a cancellation too: a
context that still has no error below one that has is among the children that a
frame has yet to visit (`Inv.enlisted`). Where no cancellation is under way
there are no frames, so the errors are as the log says: `Inv.settled`. A
handler may cancel a context before the cancellation of an ancestor has come to
it; `decisive` is the ending that a context then has its error of.
-/
import Mathlib.Data.Finset.Card
import Mathlib.Data.Finset.Range
import Webernetes.Go.Context

namespace Webernetes.Go.Contexts

open Js Base Context

variable {κ ν ε : Type}

@[simp] theorem cell_setCell (s : Contexts κ ν ε) (id : Nat) (c : CancelCell κ ν ε) (id' : Nat) :
    (s.setCell id c).cell id' = if id' = id then c else s.cell id' := rfl

@[simp] theorem built_setCell (s : Contexts κ ν ε) (id : Nat) (c : CancelCell κ ν ε) :
    (s.setCell id c).built = s.built := rfl

@[simp] theorem stack_setCell (s : Contexts κ ν ε) (id : Nat) (c : CancelCell κ ν ε) :
    (s.setCell id c).stack = s.stack := rfl

@[simp] theorem log_setCell (s : Contexts κ ν ε) (id : Nat) (c : CancelCell κ ν ε) :
    (s.setCell id c).log = s.log := rfl

@[simp] theorem count_setCell (s : Contexts κ ν ε) (id : Nat) (c : CancelCell κ ν ε) :
    (s.setCell id c).count = s.count := rfl

/-! ## The path of a context -/

theorem err_eq (s : Contexts κ ν ε) (ctx : Context κ ν) :
    s.err ctx = ctx.parentCancelContext.bind fun p => (s.cell p.1).error := by
  induction ctx with
  | background => rfl
  | cancel id parent => rfl
  | value parent key val ih => exact ih

theorem closed_eq (s : Contexts κ ν ε) (ctx : Context κ ν) :
    s.closed ctx = (ctx.parentCancelContext.map fun p => (s.cell p.1).closed).getD 0 := by
  induction ctx with
  | background => rfl
  | cancel id parent => rfl
  | value parent key val ih => exact ih

/-- A context shares its path with the nearest `CancelContext`. -/
theorem ids_eq (ctx : Context κ ν) :
    ctx.ids = (ctx.parentCancelContext.map fun p => p.1 :: p.2.ids).getD [] := by
  induction ctx with
  | background => rfl
  | cancel id parent => rfl
  | value parent key val ih => exact ih

/-- The first ending on the path of a context. -/
def firstEnding (log : List (Ending ε)) (ctx : Context κ ν) : Option (Ending ε) :=
  log.find? fun ending => ending.id ∈ ctx.ids

/-- No ending on the path of a context overtook another. -/
def Apart (log : List (Ending ε)) (ctx : Context κ ν) : Prop :=
  ∀ ending ∈ log, ending.id ∈ ctx.ids → ending.overtakes = false

theorem Apart.of_append {log more : List (Ending ε)} {ctx : Context κ ν} (h : Apart (log ++ more) ctx) :
    Apart log ctx :=
  fun ending hending => h ending (List.mem_append_left _ hending)

/-- What a log says of a context with an error, it says from then on. -/
def Told (log : List (Ending ε)) (ctx : Context κ ν) (error : ContextError)
    (causeError : Option (Cause ε)) : Prop :=
  ∃ ending, (Apart log ctx → firstEnding log ctx = some ending ∧ ending.error = error) ∧
    causeError = some ending.cause

theorem Told.append {log : List (Ending ε)} {ctx : Context κ ν} {error : ContextError}
    {causeError : Option (Cause ε)} (h : Told log ctx error causeError) (more : List (Ending ε)) :
    Told (log ++ more) ctx error causeError := by
  obtain ⟨ending, hfirst, hcause⟩ := h
  refine ⟨ending, fun hapart => ?_, hcause⟩
  obtain ⟨hfirst, herror⟩ := hfirst hapart.of_append
  refine ⟨?_, herror⟩
  rw [firstEnding, List.find?_append, ← firstEnding, hfirst]
  rfl

theorem Told.of_ids {log : List (Ending ε)} {ctx ctx' : Context κ ν} {error : ContextError}
    {causeError : Option (Cause ε)} (h : Told log ctx error causeError)
    (hids : ∀ ending ∈ log, ending.id ∈ ctx.ids ↔ ending.id ∈ ctx'.ids) :
    Told log ctx' error causeError := by
  obtain ⟨ending, hfirst, hcause⟩ := h
  refine ⟨ending, fun hapart => ?_, hcause⟩
  obtain ⟨hfirst, herror⟩ := hfirst fun e he hid => hapart e he ((hids e he).mp hid)
  refine ⟨?_, herror⟩
  rw [← hfirst]
  exact List.find?_congr fun e he => by simp only [hids e he]

/-- The ending that found a context without an error. -/
def own (log : List (Ending ε)) (id : Nat) : Option (Ending ε) :=
  log.find? fun ending => ending.id = id ∧ ending.live = true

/-- The one of the nearest context on the path that has one. -/
def decisive (log : List (Ending ε)) : Context κ ν → Option (Ending ε)
  | .background => none
  | .cancel id parent => (own log id).or (decisive log parent)
  | .value parent _ _ => decisive log parent

theorem own_append (log : List (Ending ε)) (ending : Ending ε) (id : Nat) :
    own (log ++ [ending]) id =
      (own log id).or (if ending.id = id ∧ ending.live = true then some ending else none) := by
  rw [own, List.find?_append, List.find?_singleton, ← own]
  simp only [decide_eq_true_eq]

theorem own_of_ne {log : List (Ending ε)} {id : Nat} (h : ∀ ending ∈ log, ending.id ≠ id) :
    own log id = none := by
  rw [own, List.find?_eq_none]
  intro ending hending
  simp [h ending hending]

/-! ## The invariant -/

/-- A context has its error of its own ending, or of the parent. -/
def Decided (s : Contexts κ ν ε) (id : Nat) (parent : Context κ ν) (error : ContextError) : Prop :=
  (∃ ending, own s.log id = some ending ∧ ending.error = error ∧
    (s.cell id).causeError = some ending.cause) ∨
  (own s.log id = none ∧ ∃ p, parent.parentCancelContext = some p ∧
    (s.cell p.1).error = some error ∧ (s.cell p.1).causeError = (s.cell id).causeError)

structure Inv (s : Contexts κ ν ε) : Prop where
  parents : ∀ {id parent}, .cancel id parent ∈ s.built → parent ∈ s.built
  valueParents : ∀ {parent key val}, .value parent key val ∈ s.built → parent ∈ s.built
  bound : ∀ {id parent}, .cancel id parent ∈ s.built → id < s.count
  same : ∀ {id p q}, .cancel id p ∈ s.built → .cancel id q ∈ s.built → p = q
  fresh : ∀ id, s.count ≤ id → s.cell id = {}
  children : ∀ id, ∀ child ∈ (s.cell id).children, .cancel child.1 child.2 ∈ s.built ∧
    (child.2.parentCancelContext.map Prod.fst) = some id
  /-- A context without an error is known to its parent, which has yet to
  visit it if it is being cancelled. -/
  enlisted : ∀ {id parent p}, .cancel id parent ∈ s.built → (s.cell id).error = none →
    parent.parentCancelContext = some p → (id, parent) ∈ (s.cell p.1).children ∧
      ((s.cell p.1).error ≠ none → ∃ f ∈ s.stack, f.id = p.1 ∧
        id ∉ f.visited)
  frames : ∀ f ∈ s.stack, .cancel f.id f.parent ∈ s.built ∧ (s.cell f.id).error ≠ none
  nodup : (s.stack.map Frame.id).Nodup
  /-- A child with an error leaves its parent when its `cancel` ends. -/
  held : ∀ id, (s.cell id).error = none → ∀ child ∈ (s.cell id).children,
    (s.cell child.1).error ≠ none → ∃ f ∈ s.stack, f.id = child.1 ∧ f.removeFromParent = true
  told : ∀ {id parent error}, .cancel id parent ∈ s.built → (s.cell id).error = some error →
    Told s.log (.cancel id parent) error (s.cell id).causeError
  decided : ∀ {id parent error}, .cancel id parent ∈ s.built → (s.cell id).error = some error →
    s.Decided id parent error
  logged : ∀ ending ∈ s.log, (s.cell ending.id).error ≠ none
  closed : ∀ id, (s.cell id).closed = if (s.cell id).error.isSome then 1 else 0
  timers : ∀ id, ((s.cell id).error.isSome → (s.cell id).timer = false) ∧
    ((s.cell id).timer = true → (s.cell id).cleanup = true)

section Inv

variable {s : Contexts κ ν ε}

theorem inv_initial : Inv ({} : Contexts κ ν ε) where
  parents h := by simp at h
  valueParents h := by simp at h
  bound h := by simp at h
  same h := by simp at h
  fresh _ _ := rfl
  children _ _ h := by simp at h
  enlisted h := by simp at h
  frames _ h := by simp at h
  nodup := List.nodup_nil
  held _ _ _ h := by simp at h
  told h := by simp at h
  decided h := by simp at h
  logged _ h := by simp at h
  closed _ := rfl
  timers _ := ⟨fun h => by simp at h, fun h => by simp at h⟩

/-- The nearest `CancelContext` of what is built is built. -/
theorem Inv.parentCancelContext_mem (h : Inv s) : ∀ {ctx : Context κ ν}, ctx ∈ s.built →
    ∀ {p}, ctx.parentCancelContext = some p → .cancel p.1 p.2 ∈ s.built
  | .background, _, _, hp => by cases hp
  | .cancel id parent, hctx, _, hp => by
      cases hp
      exact hctx
  | .value parent key val, hctx, _, hp => h.parentCancelContext_mem (h.valueParents hctx) hp

theorem Inv.err_parent (h : Inv s) {id : Nat} {parent : Context κ ν}
    (hmem : .cancel id parent ∈ s.built) (hlive : (s.cell id).error = none)
    (hclear : ∀ f ∈ s.stack, f.id ∉ parent.ids) : s.err parent = none := by
  rw [err_eq]
  cases hp : parent.parentCancelContext with
  | none => rfl
  | some p =>
    by_contra hne
    obtain ⟨f, hf, hid, -⟩ := (h.enlisted hmem hlive hp).2 hne
    refine hclear f hf ?_
    rw [hid, ids_eq, hp]
    exact List.mem_cons_self

/-- A context without an error and without a frame on its path has no error on
it. By induction on the context: the nearest one above it has no error either. -/
theorem Inv.path_of_clear (h : Inv s) : ∀ {ctx : Context κ ν}, ctx ∈ s.built →
    (∀ f ∈ s.stack, f.id ∉ ctx.ids) → s.err ctx = none → ∀ id ∈ ctx.ids, (s.cell id).error = none
  | .background, _, _, _, _, hid => by cases hid
  | .value parent key val, hctx, hclear, herr, id, hid =>
      h.path_of_clear (h.valueParents hctx) hclear herr id hid
  | .cancel id parent, hctx, hclear, herr, id', hid => by
      have hclear' : ∀ f ∈ s.stack, f.id ∉ parent.ids :=
        fun f hf hin => hclear f hf (List.mem_cons_of_mem _ hin)
      rcases List.mem_cons.mp hid with rfl | hid
      · exact herr
      · exact h.path_of_clear (h.parents hctx) hclear' (h.err_parent hctx herr hclear') id' hid

theorem Inv.not_logged (h : Inv s) {ctx : Context κ ν} (hctx : ctx ∈ s.built)
    (hclear : ∀ f ∈ s.stack, f.id ∉ ctx.ids) (herr : s.err ctx = none) :
    ∀ ending ∈ s.log, ending.id ∉ ctx.ids :=
  fun ending hending hmem => h.logged ending hending (h.path_of_clear hctx hclear herr _ hmem)

/-- The errors of the built contexts are of the log. -/
theorem Inv.told_of_err (h : Inv s) {ctx : Context κ ν} (hctx : ctx ∈ s.built) {error : ContextError}
    (herr : s.err ctx = some error) : ∃ p, ctx.parentCancelContext = some p ∧
      (s.cell p.1).error = some error ∧ Told s.log ctx error (s.cell p.1).causeError := by
  rw [err_eq] at herr
  obtain ⟨p, hp, herror⟩ := Option.bind_eq_some_iff.mp herr
  refine ⟨p, hp, herror, (h.told (h.parentCancelContext_mem hctx hp) herror).of_ids ?_⟩
  intro ending hending
  rw [ids_eq ctx, hp]
  rfl

/-- The cause of a context with an error is that of the nearest cell. -/
theorem cause_of_err {ctx : Context κ ν} {error : ContextError} {p : Nat × Context κ ν}
    {c : Cause ε} (herr : s.err ctx = some error) (hp : ctx.parentCancelContext = some p)
    (hc : (s.cell p.1).causeError = some c) : s.cause ctx = some c := by
  simp only [Contexts.cause, herr, hp, Option.bind_some, hc, Option.getD_some]

/-! ## What the contexts tell -/

/-- What holds in the middle of a cancellation too: the channel is closed once,
when the error is set, and then no timer is. -/
structure Steady (s : Contexts κ ν ε) : Prop where
  closed : ∀ ctx ∈ s.built, s.closed ctx = if (s.err ctx).isSome then 1 else 0
  timer : ∀ id, (s.cell id).error.isSome → (s.cell id).timer = false

/-- What holds when no cancellation is under way. -/
structure Settled (s : Contexts κ ν ε) : Prop where
  ended : ∀ ctx ∈ s.built, s.err ctx ≠ none ↔ ∃ ending ∈ s.log, ending.id ∈ ctx.ids
  err : ∀ ctx ∈ s.built, s.err ctx = (decisive s.log ctx).map Ending.error
  cause : ∀ ctx ∈ s.built, s.cause ctx = (decisive s.log ctx).map Ending.cause
  first : ∀ ctx ∈ s.built, Apart s.log ctx →
    s.err ctx = (firstEnding s.log ctx).map Ending.error ∧
      s.cause ctx = (firstEnding s.log ctx).map Ending.cause
  children : ∀ id, (s.cell id).error = none → ∀ child ∈ (s.cell id).children,
    (s.cell child.1).error = none

theorem Inv.steady (h : Inv s) : Steady s where
  closed ctx _ := by
    rw [closed_eq, err_eq]
    cases ctx.parentCancelContext with
    | none => rfl
    | some p => exact h.closed p.1
  timer id := (h.timers id).1

/-- By induction on the context, along `Decided`. -/
theorem Inv.decisive_of_err (h : Inv s) : ∀ {ctx : Context κ ν}, ctx ∈ s.built →
    ∀ {error}, s.err ctx = some error → ∃ ending, decisive s.log ctx = some ending ∧
      ending.error = error ∧ s.cause ctx = some ending.cause
  | .background, _, _, herr => by cases herr
  | .value parent key val, hctx, _, herr => by
      obtain ⟨ending, hdecisive, herror, hcause⟩ := h.decisive_of_err (h.valueParents hctx) herr
      refine ⟨ending, hdecisive, herror, ?_⟩
      have hsame : s.cause (.value parent key val) = s.cause parent := rfl
      rw [hsame, hcause]
  | .cancel id parent, hctx, error, herr => by
      rcases h.decided hctx herr with ⟨ending, hown, herror, hcause⟩ | ⟨hown, p, hp, hperr, hpcause⟩
      · refine ⟨ending, ?_, herror, cause_of_err herr rfl hcause⟩
        rw [decisive, hown, Option.some_or]
      · have hparent : s.err parent = some error := by
          rw [err_eq, hp]
          exact hperr
        obtain ⟨ending, hdecisive, herror, hcause⟩ := h.decisive_of_err (h.parents hctx) hparent
        obtain ⟨first, -, hfirst⟩ := h.told hctx herr
        refine ⟨ending, ?_, herror, ?_⟩
        · rw [decisive, hown, Option.none_or, hdecisive]
        · rw [← hcause, cause_of_err herr rfl hfirst, cause_of_err hparent hp (hpcause.trans hfirst)]

theorem decisive_of_not_logged {log : List (Ending ε)} {ctx : Context κ ν}
    (h : ∀ ending ∈ log, ending.id ∉ ctx.ids) : decisive log ctx = none := by
  induction ctx with
  | background => rfl
  | value parent key val ih => exact ih h
  | cancel id parent ih =>
    have hown := @own_of_ne _ log id fun ending hending heq =>
      h ending hending (heq ▸ List.mem_cons_self)
    rw [decisive, hown, Option.none_or]
    exact ih fun ending hending hmem => h ending hending (List.mem_cons_of_mem _ hmem)

theorem firstEnding_of_not_logged {log : List (Ending ε)} {ctx : Context κ ν}
    (h : ∀ ending ∈ log, ending.id ∉ ctx.ids) : firstEnding log ctx = none := by
  rw [firstEnding, List.find?_eq_none]
  exact fun ending hending hmem => h ending hending (of_decide_eq_true hmem)

theorem Inv.settled (h : Inv s) (hrest : s.stack = []) : Settled s := by
  have hclear : ∀ ctx : Context κ ν, ∀ f ∈ s.stack, f.id ∉ ctx.ids := by
    intro ctx f hf
    rw [hrest] at hf
    cases hf
  have hnone : ∀ ctx ∈ s.built, s.err ctx = none → ∀ ending ∈ s.log, ending.id ∉ ctx.ids :=
    fun ctx hctx => h.not_logged hctx (hclear ctx)
  have hcauseNone : ∀ {ctx}, s.err ctx = none → s.cause ctx = none := by
    intro ctx herr
    rw [Contexts.cause, herr]
  constructor
  · intro ctx hctx
    constructor
    · intro herr
      obtain ⟨error, herr⟩ := Option.ne_none_iff_exists'.mp herr
      obtain ⟨ending, hdecisive, -⟩ := h.decisive_of_err hctx herr
      by_contra hno
      have hno' : ∀ ending ∈ s.log, ending.id ∉ ctx.ids :=
        fun ending hending hmem => hno ⟨ending, hending, hmem⟩
      rw [decisive_of_not_logged hno'] at hdecisive
      cases hdecisive
    · rintro ⟨ending, hending, hmem⟩ herr
      exact hnone ctx hctx herr ending hending hmem
  · intro ctx hctx
    cases herr : s.err ctx with
    | none => rw [decisive_of_not_logged (hnone ctx hctx herr), Option.map_none]
    | some error =>
      obtain ⟨ending, hdecisive, rfl, -⟩ := h.decisive_of_err hctx herr
      rw [hdecisive, Option.map_some]
  · intro ctx hctx
    cases herr : s.err ctx with
    | none => rw [hcauseNone herr, decisive_of_not_logged (hnone ctx hctx herr), Option.map_none]
    | some error =>
      obtain ⟨ending, hdecisive, -, hcause⟩ := h.decisive_of_err hctx herr
      rw [hdecisive, hcause, Option.map_some]
  · intro ctx hctx hapart
    cases herr : s.err ctx with
    | none =>
      rw [hcauseNone herr, firstEnding_of_not_logged (hnone ctx hctx herr)]
      exact ⟨rfl, rfl⟩
    | some error =>
      obtain ⟨p, hp, -, ending, hfirst, hcause⟩ := h.told_of_err hctx herr
      obtain ⟨hfound, rfl⟩ := hfirst hapart
      rw [hfound, cause_of_err herr hp hcause]
      exact ⟨rfl, rfl⟩
  · intro id herr child hchild
    by_contra hne
    obtain ⟨f, hf, -⟩ := h.held id herr child hchild hne
    rw [hrest] at hf
    cases hf

/-! ## Building -/

theorem inv_withValue (h : Inv s) {parent : Context κ ν} (hparent : parent ∈ s.built) (key : κ)
    (val : ν) : Inv { s with built := .value parent key val :: s.built } := by
  have hcancel : ∀ {id p}, .cancel id p ∈ Context.value parent key val :: s.built →
      .cancel id p ∈ s.built := by
    intro id p hmem
    rcases List.mem_cons.mp hmem with heq | hmem
    · cases heq
    · exact hmem
  constructor
  · intro id p hp
    exact List.mem_cons_of_mem _ (h.parents (hcancel hp))
  · intro p key' val' hp
    rcases List.mem_cons.mp hp with heq | hp
    · cases heq
      exact List.mem_cons_of_mem _ hparent
    · exact List.mem_cons_of_mem _ (h.valueParents hp)
  · intro id p hp
    exact h.bound (hcancel hp)
  · intro id p q hp hq
    exact h.same (hcancel hp) (hcancel hq)
  · exact h.fresh
  · intro id child hchild
    obtain ⟨hmem, hnear⟩ := h.children id child hchild
    exact ⟨List.mem_cons_of_mem _ hmem, hnear⟩
  · intro id p q hp
    exact h.enlisted (hcancel hp)
  · intro f hf
    obtain ⟨hmem, herr⟩ := h.frames f hf
    exact ⟨List.mem_cons_of_mem _ hmem, herr⟩
  · exact h.nodup
  · exact h.held
  · intro id p error hp
    exact h.told (hcancel hp)
  · intro id p error hp
    exact h.decided (hcancel hp)
  · exact h.logged
  · exact h.closed
  · exact h.timers

/-- Nothing is said of an id that is not given out. -/
theorem Inv.ne_of_fresh (h : Inv s) : ∀ ending ∈ s.log, ending.id ≠ s.count := by
  intro ending hending heq
  refine h.logged ending hending ?_
  rw [heq, h.fresh _ (Nat.le_refl _)]

/-- A new `CancelContext` with its cell, and what the other cells get. -/
def enrolled (s : Contexts κ ν ε) (parent : Context κ ν) (new : CancelCell κ ν ε)
    (extra : Nat → List (Nat × Context κ ν)) : Contexts κ ν ε :=
  { s with
    count := s.count + 1
    built := .cancel s.count parent :: s.built
    cell := fun id =>
      if id = s.count then new
      else { s.cell id with children := (s.cell id).children ++ extra id } }

theorem inv_enrolled (h : Inv s) {parent : Context κ ν} (hparent : parent ∈ s.built)
    {new : CancelCell κ ν ε} {extra : Nat → List (Nat × Context κ ν)} (hnew : new.children = [])
    (hextra : ∀ id, ∀ child ∈ extra id, child = (s.count, parent) ∧
      parent.parentCancelContext.map Prod.fst = some id ∧ (s.cell id).error = none ∧ new.error = none)
    (hlisted : new.error = none → ∀ p, parent.parentCancelContext = some p →
      (s.count, parent) ∈ extra p.1)
    (htold : ∀ error, new.error = some error → Told s.log parent error new.causeError ∧
      ∃ p, parent.parentCancelContext = some p ∧ (s.cell p.1).error = some error ∧
        (s.cell p.1).causeError = new.causeError)
    (hclosed : new.closed = if new.error.isSome then 1 else 0)
    (htimers : (new.error.isSome → new.timer = false) ∧ (new.timer = true → new.cleanup = true)) :
    Inv (s.enrolled parent new extra) := by
  have hcell : ∀ {id}, id ≠ s.count → (s.enrolled parent new extra).cell id =
      { s.cell id with children := (s.cell id).children ++ extra id } := fun hne => if_neg hne
  have hself : (s.enrolled parent new extra).cell s.count = new := if_pos rfl
  have hbuilt : ∀ {ctx}, ctx ∈ s.built → ctx ∈ (s.enrolled parent new extra).built :=
    fun hctx => List.mem_cons_of_mem _ hctx
  have hold : ∀ {id p}, .cancel id p ∈ (s.enrolled parent new extra).built → id ≠ s.count →
      .cancel id p ∈ s.built := by
    intro id p hmem hne
    rcases List.mem_cons.mp hmem with heq | hmem
    · cases heq
      exact absurd rfl hne
    · exact hmem
  have hnewest : ∀ {p}, .cancel s.count p ∈ (s.enrolled parent new extra).built → p = parent := by
    intro p hmem
    rcases List.mem_cons.mp hmem with heq | hmem
    · cases heq
      rfl
    · exact absurd (h.bound hmem) (Nat.lt_irrefl _)
  have hlt : ∀ {id p}, .cancel id p ∈ s.built → id ≠ s.count := fun hmem => (h.bound hmem).ne
  have hnear : ∀ {q}, parent.parentCancelContext = some q → q.1 ≠ s.count :=
    fun hq => hlt (h.parentCancelContext_mem hparent hq)
  have herror : ∀ {id}, id ≠ s.count →
      ((s.enrolled parent new extra).cell id).error = (s.cell id).error := fun hne => by rw [hcell hne]
  constructor
  · intro id p hp
    by_cases hid : id = s.count
    · subst hid
      rw [hnewest hp]
      exact hbuilt hparent
    · exact hbuilt (h.parents (hold hp hid))
  · intro p key val hp
    rcases List.mem_cons.mp hp with heq | hp
    · cases heq
    · exact hbuilt (h.valueParents hp)
  · intro id p hp
    by_cases hid : id = s.count
    · rw [hid]
      exact Nat.lt_succ_self _
    · exact Nat.lt_succ_of_lt (h.bound (hold hp hid))
  · intro id p q hp hq
    by_cases hid : id = s.count
    · subst hid
      rw [hnewest hp, hnewest hq]
    · exact h.same (hold hp hid) (hold hq hid)
  · intro id hid
    have hlt : s.count < id := hid
    have hle := hlt.le
    have hempty := h.fresh id hle
    have hnone : extra id = [] := by
      by_contra hne
      obtain ⟨child, hchild⟩ := List.exists_mem_of_ne_nil _ hne
      obtain ⟨q, hq, hfst⟩ := Option.map_eq_some_iff.mp (hextra id child hchild).2.1
      have := h.bound (h.parentCancelContext_mem hparent hq)
      omega
    rw [hcell hlt.ne', hempty, hnone]
    rfl
  · intro id child hchild
    by_cases hid : id = s.count
    · subst hid
      rw [hself, hnew] at hchild
      cases hchild
    · rw [hcell hid] at hchild
      rcases List.mem_append.mp hchild with hchild | hchild
      · obtain ⟨hmem, hfst⟩ := h.children id child hchild
        exact ⟨hbuilt hmem, hfst⟩
      · obtain ⟨rfl, hfst, -⟩ := hextra id child hchild
        exact ⟨List.mem_cons_self, hfst⟩
  · intro id p q hp herr hq
    by_cases hid : id = s.count
    · subst hid
      obtain rfl := hnewest hp
      rw [hself] at herr
      have hin := hlisted herr q hq
      have hlive := (hextra q.1 _ hin).2.2.1
      refine ⟨?_, fun hne => absurd (herror (hnear hq) ▸ hlive) hne⟩
      rw [hcell (hnear hq)]
      exact List.mem_append_right _ hin
    · have hmem := hold hp hid
      have hqid := hlt (h.parentCancelContext_mem (h.parents hmem) hq)
      rw [herror hid] at herr
      obtain ⟨hin, hdrop⟩ := h.enlisted hmem herr hq
      refine ⟨?_, fun hne => ?_⟩
      · rw [hcell hqid]
        exact List.mem_append_left _ hin
      · rw [herror hqid] at hne
        exact hdrop hne
  · intro f hf
    obtain ⟨hmem, hne⟩ := h.frames f hf
    refine ⟨hbuilt hmem, ?_⟩
    rwa [herror (hlt hmem)]
  · exact h.nodup
  · intro id herr child hchild hne
    by_cases hid : id = s.count
    · subst hid
      rw [hself, hnew] at hchild
      cases hchild
    · rw [herror hid] at herr
      rw [hcell hid] at hchild
      rcases List.mem_append.mp hchild with hchild | hchild
      · rw [herror (hlt (h.children id child hchild).1)] at hne
        exact h.held id herr child hchild hne
      · obtain ⟨rfl, -, -, hnone⟩ := hextra id child hchild
        rw [hself] at hne
        exact absurd hnone hne
  · intro id p error hp herr
    by_cases hid : id = s.count
    · subst hid
      obtain rfl := hnewest hp
      rw [hself] at herr ⊢
      refine (htold error herr).1.of_ids fun ending hending => ?_
      simp [Context.ids, h.ne_of_fresh ending hending]
    · rw [herror hid] at herr
      rw [hcell hid]
      exact h.told (hold hp hid) herr
  · intro id p error hp herr
    by_cases hid : id = s.count
    · subst hid
      obtain rfl := hnewest hp
      rw [hself] at herr
      obtain ⟨-, q, hq, hqerr, hqcause⟩ := htold error herr
      refine .inr ⟨own_of_ne h.ne_of_fresh, q, hq, ?_, ?_⟩
      · rwa [herror (hnear hq)]
      · rw [hcell (hnear hq), hself, ← hqcause]
    · rw [herror hid] at herr
      rcases h.decided (hold hp hid) herr with hown | ⟨hown, q, hq, hqerr, hqcause⟩
      · rw [Decided, hcell hid]
        exact .inl hown
      · have hqid := hlt (h.parentCancelContext_mem (h.parents (hold hp hid)) hq)
        refine .inr ⟨hown, q, hq, ?_, ?_⟩
        · rwa [herror hqid]
        · rw [hcell hqid, hcell hid, ← hqcause]
  · intro ending hending
    rw [herror (h.ne_of_fresh ending hending)]
    exact h.logged ending hending
  · intro id
    by_cases hid : id = s.count
    · rw [hid, hself]
      exact hclosed
    · rw [hcell hid]
      exact h.closed id
  · intro id
    by_cases hid : id = s.count
    · rw [hid, hself]
      exact htimers
    · rw [hcell hid]
      exact h.timers id

/-- The child of a context that has an error. -/
theorem newCancelContext_of_some (h : Inv s) {parent : Context κ ν} {error : ContextError}
    (herr : s.err parent = some error) : s.newCancelContext parent =
      s.enrolled parent (({} : CancelCell κ ν ε).cancel error (s.cause parent)) fun _ => [] := by
  simp only [newCancelContext, herr, enrolled, setCell, h.fresh s.count (Nat.le_refl _), List.append_nil]

theorem newCancelContext_of_root {parent : Context κ ν} (h : Inv s) (herr : s.err parent = none)
    (hroot : parent.parentCancelContext = none) :
    s.newCancelContext parent = s.enrolled parent {} fun _ => [] := by
  have hcell : ∀ id, s.cell id = if id = s.count then {} else s.cell id := by
    intro id
    split
    · rename_i hid
      rw [hid, h.fresh _ (Nat.le_refl _)]
    · rfl
  simp only [newCancelContext, herr, hroot, enrolled, List.append_nil, ← hcell]

theorem newCancelContext_of_live (h : Inv s) {parent : Context κ ν} (hparent : parent ∈ s.built)
    {p : Nat × Context κ ν} (herr : s.err parent = none) (hp : parent.parentCancelContext = some p) :
    s.newCancelContext parent =
      s.enrolled parent {} fun id => if id = p.1 then [(s.count, parent)] else [] := by
  have hlive : (s.cell p.1).error = none := by
    rw [err_eq, hp] at herr
    exact herr
  have hne : p.1 ≠ s.count := (h.bound (h.parentCancelContext_mem hparent hp)).ne
  simp only [newCancelContext, herr, hp, addChild, hlive, enrolled, setCell]
  congr 1
  funext id
  by_cases hid : id = p.1
  · subst hid
    simp [hne, hlive]
  · by_cases hcount : id = s.count
    · simp [hcount, hne.symm, h.fresh]
    · simp [hid, hcount]

theorem inv_newCancelContext (h : Inv s) {parent : Context κ ν} (hparent : parent ∈ s.built) :
    Inv (s.newCancelContext parent) := by
  cases herr : s.err parent with
  | some error =>
    rw [newCancelContext_of_some h herr]
    obtain ⟨p, hp, hperr, htold⟩ := h.told_of_err hparent herr
    have hcause : (({} : CancelCell κ ν ε).cancel error (s.cause parent)).causeError =
        (s.cell p.1).causeError := by
      obtain ⟨ending, -, hcause⟩ := htold
      rw [hcause, cause_of_err herr hp hcause]
      rfl
    refine inv_enrolled h hparent rfl (fun _ _ hmem => by cases hmem)
      (fun hnone => by cases hnone) ?_ rfl ⟨fun _ => rfl, fun htimer => by cases htimer⟩
    intro error' herror'
    cases herror'
    exact ⟨hcause ▸ htold, p, hp, hperr, hcause.symm⟩
  | none =>
    have hclosed : ({} : CancelCell κ ν ε).closed
        = if ({} : CancelCell κ ν ε).error.isSome then 1 else 0 := rfl
    have hno : ∀ error, ({} : CancelCell κ ν ε).error = some error →
        Told s.log parent error ({} : CancelCell κ ν ε).causeError ∧
          ∃ p, parent.parentCancelContext = some p ∧ (s.cell p.1).error = some error ∧
            (s.cell p.1).causeError = ({} : CancelCell κ ν ε).causeError :=
      fun _ herror => by cases herror
    have htimers : (({} : CancelCell κ ν ε).error.isSome → ({} : CancelCell κ ν ε).timer = false) ∧
        (({} : CancelCell κ ν ε).timer = true → ({} : CancelCell κ ν ε).cleanup = true) :=
      ⟨fun _ => rfl, fun htimer => by cases htimer⟩
    cases hp : parent.parentCancelContext with
    | none =>
      rw [newCancelContext_of_root h herr hp]
      exact inv_enrolled h hparent rfl (fun _ _ hmem => by cases hmem)
        (fun _ q hq => by rw [hp] at hq; cases hq) hno hclosed htimers
    | some p =>
      rw [newCancelContext_of_live h hparent herr hp]
      refine inv_enrolled h hparent rfl (fun id child hmem => ?_) (fun _ q hq => ?_) hno hclosed htimers
      · split at hmem
        · rename_i hid
          have hlive : (s.cell p.1).error = none := by
            rw [err_eq, hp] at herr
            exact herr
          obtain rfl := List.mem_singleton.mp hmem
          exact ⟨rfl, by rw [hp, hid]; rfl, by rw [hid]; exact hlive, rfl⟩
        · cases hmem
      · cases hp.symm.trans hq
        rw [if_pos rfl]
        exact List.mem_singleton_self _

/-! ## Timers -/

/-- A timer set or taken off, where the flags stay in order. -/
theorem inv_timer (h : Inv s) (id : Nat) (timer cleanup : Bool) (hid : id < s.count)
    (hflags : ((s.cell id).error.isSome → timer = false) ∧ (timer = true → cleanup = true)) :
    Inv (s.setCell id { s.cell id with timer, cleanup }) := by
  have hcell : ∀ id', ((s.setCell id { s.cell id with timer, cleanup }).cell id').error =
      (s.cell id').error ∧ ((s.setCell id { s.cell id with timer, cleanup }).cell id').children =
      (s.cell id').children ∧
      ((s.setCell id { s.cell id with timer, cleanup }).cell id').causeError =
      (s.cell id').causeError ∧
      ((s.setCell id { s.cell id with timer, cleanup }).cell id').closed = (s.cell id').closed := by
    intro id'
    rw [cell_setCell]
    split
    · rename_i heq
      subst heq
      exact ⟨rfl, rfl, rfl, rfl⟩
    · exact ⟨rfl, rfl, rfl, rfl⟩
  constructor
  · exact h.parents
  · exact h.valueParents
  · exact h.bound
  · exact h.same
  · intro id' hle
    rw [cell_setCell, if_neg (show id' ≠ id by have : s.count ≤ id' := hle; omega)]
    exact h.fresh id' hle
  · intro id' child hchild
    rw [(hcell id').2.1] at hchild
    exact h.children id' child hchild
  · intro id' parent p hmem herr hp
    rw [(hcell id').1] at herr
    rw [(hcell p.1).2.1, (hcell p.1).1]
    exact h.enlisted hmem herr hp
  · intro f hf
    rw [(hcell f.id).1]
    exact h.frames f hf
  · exact h.nodup
  · intro id' herr child hchild hne
    rw [(hcell id').1] at herr
    rw [(hcell id').2.1] at hchild
    rw [(hcell child.1).1] at hne
    exact h.held id' herr child hchild hne
  · intro id' parent error hmem herr
    rw [(hcell id').1] at herr
    rw [(hcell id').2.2.1]
    exact h.told hmem herr
  · intro id' parent error hmem herr
    rw [(hcell id').1] at herr
    rcases h.decided hmem herr with hown | ⟨hown, p, hp, hperr, hpcause⟩
    · rw [Decided, (hcell id').2.2.1]
      exact .inl hown
    · refine .inr ⟨hown, p, hp, ?_, ?_⟩
      · rwa [(hcell p.1).1]
      · rwa [(hcell p.1).2.2.1, (hcell id').2.2.1]
  · intro ending hending
    rw [(hcell ending.id).1]
    exact h.logged ending hending
  · intro id'
    rw [(hcell id').2.2.2, (hcell id').1]
    exact h.closed id'
  · intro id'
    rw [cell_setCell]
    split
    · rename_i heq
      subst heq
      exact hflags
    · exact h.timers id'

/-! ## Cancelling -/

/-- An ending of a context that has an error already. -/
theorem inv_log (h : Inv s) {ending : Ending ε} (herr : (s.cell ending.id).error ≠ none)
    (hlive : ending.live = false) :
    Inv { s with log := s.log ++ [ending] } where
  parents := h.parents
  valueParents := h.valueParents
  bound := h.bound
  same := h.same
  fresh := h.fresh
  children := h.children
  enlisted := h.enlisted
  frames := h.frames
  nodup := h.nodup
  held := h.held
  told hmem herror := (h.told hmem herror).append [ending]
  decided {id parent error} hmem herror := by
    have hown : own (s.log ++ [ending]) id = own s.log id := by
      rw [own_append, hlive]
      simp
    show (∃ _, own (s.log ++ [ending]) id = _ ∧ _) ∨ (own (s.log ++ [ending]) id = _ ∧ _)
    rw [hown]
    exact h.decided hmem herror
  logged := by
    intro ending' hmem
    rcases List.mem_append.mp hmem with hmem | hmem
    · exact h.logged ending' hmem
    · obtain rfl := List.mem_singleton.mp hmem
      exact herr
  closed := h.closed
  timers := h.timers

/-- A context without an error gets one: the log accounts for it, and who holds
it as a child is being cancelled, or its own frame will take it away. -/
theorem inv_start (h : Inv s) {id : Nat} {parent : Context κ ν} (hmem : .cancel id parent ∈ s.built)
    (hlive : (s.cell id).error = none) {error : ContextError} {cause : Option (Cause ε)}
    {removeFromParent : Bool} {log : List (Ending ε)} {ending : Ending ε}
    (hlog : log = s.log ∨ log = s.log ++ [ending] ∧ ending.id = id)
    (htold : Told log (.cancel id parent) error (some (cause.getD (.error error))))
    (hdecided : (∃ ending, own log id = some ending ∧ ending.error = error ∧
        ending.cause = cause.getD (.error error)) ∨
      (own log id = none ∧ ∃ p, parent.parentCancelContext = some p ∧
        (s.cell p.1).error = some error ∧
        (s.cell p.1).causeError = some (cause.getD (.error error))))
    (hheld : removeFromParent = false → ∀ p, parent.parentCancelContext = some p →
      (s.cell p.1).error ≠ none) :
    Inv { (s.setCell id ((s.cell id).cancel error cause)) with
      log
      stack := { id, parent, removeFromParent } :: s.stack } := by
  have hother : ∀ {id'}, id' ≠ id →
      (s.setCell id ((s.cell id).cancel error cause)).cell id' = s.cell id' := fun hne => if_neg hne
  have hself : (s.setCell id ((s.cell id).cancel error cause)).cell id =
      (s.cell id).cancel error cause := if_pos rfl
  have hchildren : ∀ id', ((s.setCell id ((s.cell id).cancel error cause)).cell id').children =
      (s.cell id').children := by
    intro id'
    by_cases heq : id' = id
    · rw [heq, hself]
      rfl
    · rw [hother heq]
  have herror : ∀ id', ((s.setCell id ((s.cell id).cancel error cause)).cell id').error ≠ none ↔
      id' = id ∨ (s.cell id').error ≠ none := by
    intro id'
    by_cases heq : id' = id
    · rw [heq, hself]
      simp [CancelCell.cancel]
    · rw [hother heq]
      simp [heq]
  have herrself : ((s.setCell id ((s.cell id).cancel error cause)).cell id).error = some error :=
    congrArg CancelCell.error hself
  have hcause : ((s.setCell id ((s.cell id).cancel error cause)).cell id).causeError =
      some (cause.getD (.error error)) := congrArg CancelCell.causeError hself
  have hstack : ∀ f ∈ s.stack, f.id ≠ id := by
    intro f hf heq
    exact (h.frames f hf).2 (heq ▸ hlive)
  constructor
  · exact h.parents
  · exact h.valueParents
  · exact h.bound
  · exact h.same
  · intro id' hle
    exact (hother (by have := h.bound hmem; have : s.count ≤ id' := hle; omega)).trans (h.fresh id' hle)
  · intro id' child hchild
    exact h.children id' child (hchildren id' ▸ hchild)
  · intro id' parent' p hmem' herr hp
    have hne : id' ≠ id := by
      rintro rfl
      exact absurd herr ((herror id').mpr (.inl rfl))
    have herr' : (s.cell id').error = none := by
      rw [← hother hne]
      exact herr
    obtain ⟨hin, hdrop⟩ := h.enlisted hmem' herr' hp
    refine ⟨(hchildren p.1).symm ▸ hin, fun hp' => ?_⟩
    rcases (herror p.1).mp hp' with heq | hp'
    · exact ⟨_, List.mem_cons_self, heq.symm, List.not_mem_nil⟩
    · obtain ⟨f, hf, hfid, hmem''⟩ := hdrop hp'
      exact ⟨f, List.mem_cons_of_mem _ hf, hfid, hmem''⟩
  · intro f hf
    rcases List.mem_cons.mp hf with rfl | hf
    · exact ⟨hmem, (herror id).mpr (.inl rfl)⟩
    · obtain ⟨hmem', hne⟩ := h.frames f hf
      exact ⟨hmem', (herror f.id).mpr (.inr hne)⟩
  · refine List.nodup_cons.mpr ⟨?_, h.nodup⟩
    intro hin
    obtain ⟨f, hf, hfid⟩ := List.mem_map.mp hin
    exact hstack f hf hfid
  · intro id' herr child hchild hne
    have hid' : id' ≠ id := by
      rintro rfl
      exact absurd herr ((herror id').mpr (.inl rfl))
    have herr' : (s.cell id').error = none := by
      rw [← hother hid']
      exact herr
    have hchild' : child ∈ (s.cell id').children := hchildren id' ▸ hchild
    rcases (herror child.1).mp hne with heq | hne
    · obtain ⟨hbuilt, hnear⟩ := h.children id' child hchild'
      cases hremove : removeFromParent with
      | true => exact ⟨_, List.mem_cons_self, heq.symm, rfl⟩
      | false =>
        rw [heq] at hbuilt
        rw [h.same hbuilt hmem] at hnear
        obtain ⟨p, hp, hfst⟩ := Option.map_eq_some_iff.mp hnear
        exact absurd (hfst ▸ herr') (hheld hremove p hp)
    · obtain ⟨f, hf, hfid, hremove⟩ := h.held id' herr' child hchild' hne
      exact ⟨f, List.mem_cons_of_mem _ hf, hfid, hremove⟩
  · intro id' parent' error' hmem' herr
    by_cases heq : id' = id
    · subst heq
      obtain rfl := h.same hmem hmem'
      cases herrself.symm.trans herr
      exact hcause ▸ htold
    · have herr' : (s.cell id').error = some error' := by
        rw [← hother heq]
        exact herr
      have htold' : Told log (.cancel id' parent') error' (s.cell id').causeError := by
        rcases hlog with rfl | ⟨rfl, -⟩
        · exact h.told hmem' herr'
        · exact (h.told hmem' herr').append _
      exact (congrArg CancelCell.causeError (hother heq)).symm ▸ htold'
  · intro id' parent' error' hmem' herr
    by_cases heq : id' = id
    · subst heq
      obtain rfl := h.same hmem hmem'
      cases herrself.symm.trans herr
      rcases hdecided with ⟨first, hown, hfirsterr, hfirstcause⟩ | ⟨hown, p, hp, hperr, hpcause⟩
      · exact .inl ⟨first, hown, hfirsterr, hcause.trans (congrArg some hfirstcause.symm)⟩
      · have hpid : p.1 ≠ id' := by
          rintro heq
          rw [heq, hlive] at hperr
          cases hperr
        refine .inr ⟨hown, p, hp, ?_, ?_⟩
        · exact (congrArg CancelCell.error (hother hpid)).trans hperr
        · exact ((congrArg CancelCell.causeError (hother hpid)).trans hpcause).trans hcause.symm
    · have herr' : (s.cell id').error = some error' := by
        rw [← hother heq]
        exact herr
      have hown' : own log id' = own s.log id' := by
        rcases hlog with rfl | ⟨rfl, hid⟩
        · rfl
        · rw [own_append, if_neg (fun hboth => heq (hboth.1.symm.trans hid)), Option.or_none]
      have hcause := congrArg CancelCell.causeError (hother heq)
      rcases h.decided hmem' herr' with ⟨first, hown, hfirsterr, hfirstcause⟩ |
        ⟨hown, p, hp, hperr, hpcause⟩
      · exact .inl ⟨first, hown'.trans hown, hfirsterr, hcause.trans hfirstcause⟩
      · have hpid : p.1 ≠ id := by
          rintro heq
          rw [heq, hlive] at hperr
          cases hperr
        refine .inr ⟨hown'.trans hown, p, hp, ?_, ?_⟩
        · exact (congrArg CancelCell.error (hother hpid)).trans hperr
        · exact ((congrArg CancelCell.causeError (hother hpid)).trans hpcause).trans hcause.symm
  · intro ending' hending
    have hending' : ending' ∈ s.log ∨ ending'.id = id := by
      rcases hlog with rfl | ⟨rfl, hid⟩
      · exact .inl hending
      · rcases List.mem_append.mp hending with hending | hending
        · exact .inl hending
        · obtain rfl := List.mem_singleton.mp hending
          exact .inr hid
    rcases hending' with hending' | hid
    · exact (herror _).mpr (.inr (h.logged ending' hending'))
    · exact (herror _).mpr (.inl hid)
  · intro id'
    by_cases heq : id' = id
    · subst heq
      have hclosed := h.closed id'
      rw [hlive] at hclosed
      show ((s.setCell id' _).cell id').closed = if ((s.setCell id' _).cell id').error.isSome then 1 else 0
      rw [hself]
      simp [CancelCell.cancel, hclosed]
    · show ((s.setCell id _).cell id').closed = if ((s.setCell id _).cell id').error.isSome then 1 else 0
      rw [hother heq]
      exact h.closed id'
  · intro id'
    by_cases heq : id' = id
    · subst heq
      obtain ⟨-, hcleanup⟩ := h.timers id'
      have htimer : ((s.cell id').cancel error cause).timer = false := by
        cases ht : (s.cell id').timer with
        | false => simp [CancelCell.cancel, ht]
        | true => simp [CancelCell.cancel, ht, hcleanup ht]
      show (((s.setCell id' _).cell id').error.isSome → ((s.setCell id' _).cell id').timer = false) ∧
        (((s.setCell id' _).cell id').timer = true → ((s.setCell id' _).cell id').cleanup = true)
      rw [hself, htimer]
      exact ⟨fun _ => rfl, fun ht => by cases ht⟩
    · show (((s.setCell id _).cell id').error.isSome → ((s.setCell id _).cell id').timer = false) ∧
        (((s.setCell id _).cell id').timer = true → ((s.setCell id _).cell id').cleanup = true)
      rw [hother heq]
      exact h.timers id'

/-- A frame whose loop has told a child. -/
def visit (f : Frame κ ν) (id : Nat) : Frame κ ν := { f with visited := id :: f.visited }

/-- A frame goes on to its next child when the one before has an error. -/
theorem inv_visit (h : Inv s) {pre post : List (Frame κ ν)} {f : Frame κ ν}
    (hstack : s.stack = pre ++ f :: post) {id : Nat} (herr : (s.cell id).error ≠ none) :
    Inv { s with stack := pre ++ visit f id :: post } := by
  have hids : (pre ++ visit f id :: post).map Frame.id = s.stack.map Frame.id := by
    simp [hstack, visit]
  have hold : ∀ g ∈ pre ++ visit f id :: post, ∃ g' ∈ s.stack, g.id = g'.id ∧ g.parent = g'.parent := by
    intro g hg
    rw [hstack]
    rcases List.mem_append.mp hg with hg | hg
    · exact ⟨g, List.mem_append_left _ hg, rfl, rfl⟩
    · rcases List.mem_cons.mp hg with rfl | hg
      · exact ⟨f, List.mem_append_right _ List.mem_cons_self, rfl, rfl⟩
      · exact ⟨g, List.mem_append_right _ (List.mem_cons_of_mem _ hg), rfl, rfl⟩
  have hnew : ∀ g ∈ s.stack, g = f ∨ g ∈ pre ++ visit f id :: post := by
    intro g hg
    rw [hstack] at hg
    rcases List.mem_append.mp hg with hg | hg
    · exact .inr (List.mem_append_left _ hg)
    · rcases List.mem_cons.mp hg with rfl | hg
      · exact .inl rfl
      · exact .inr (List.mem_append_right _ (List.mem_cons_of_mem _ hg))
  have hvisited : visit f id ∈ pre ++ visit f id :: post :=
    List.mem_append_right _ List.mem_cons_self
  constructor
  · exact h.parents
  · exact h.valueParents
  · exact h.bound
  · exact h.same
  · exact h.fresh
  · exact h.children
  · intro id' parent p hmem hlive hp
    obtain ⟨hin, hdrop⟩ := h.enlisted hmem hlive hp
    refine ⟨hin, fun hne => ?_⟩
    obtain ⟨g, hg, hgid, hmem'⟩ := hdrop hne
    rcases hnew g hg with rfl | hg
    · refine ⟨_, hvisited, hgid, fun hmem'' => ?_⟩
      rcases List.mem_cons.mp hmem'' with rfl | hmem''
      · exact herr hlive
      · exact hmem' hmem''
    · exact ⟨g, hg, hgid, hmem'⟩
  · intro g hg
    obtain ⟨g', hg', hid, hparent⟩ := hold g hg
    rw [hid, hparent]
    exact h.frames g' hg'
  · exact hids ▸ h.nodup
  · intro id' hlive child' hchild' hne
    obtain ⟨g, hg, hgid, hremove⟩ := h.held id' hlive child' hchild' hne
    rcases hnew g hg with rfl | hg
    · exact ⟨_, hvisited, hgid, hremove⟩
    · exact ⟨g, hg, hgid, hremove⟩
  · exact h.told
  · exact h.decided
  · exact h.logged
  · exact h.closed
  · exact h.timers

/-- The children that the end of a `cancel` leaves. -/
def kept (s : Contexts κ ν ε) (f : Frame κ ν) (id : Nat) : List (Nat × Context κ ν) :=
  if id = f.id then []
  else if f.removeFromParent = true ∧ f.parent.parentCancelContext.map Prod.fst = some id then
    (s.cell id).children.filter (·.1 ≠ f.id)
  else (s.cell id).children

theorem cell_endCancel (s : Contexts κ ν ε) (f : Frame κ ν) (id : Nat) :
    (s.endCancel f).cell id = { s.cell id with children := s.kept f id } := by
  unfold endCancel kept
  cases hremove : f.removeFromParent with
  | false =>
    by_cases hid : id = f.id <;> simp [hid]
  | true =>
    cases hp : f.parent.parentCancelContext with
    | none => by_cases hid : id = f.id <;> simp [hid]
    | some p =>
      by_cases hid : id = f.id
      · by_cases hpid : f.id = p.1 <;> simp [hid, hpid]
      · by_cases hpid : id = p.1
        · subst hpid
          simp [hid]
        · simp [hid, hpid, Ne.symm hpid]

theorem endCancel_rest (s : Contexts κ ν ε) (f : Frame κ ν) : (s.endCancel f).built = s.built ∧
    (s.endCancel f).stack = s.stack ∧ (s.endCancel f).log = s.log ∧
    (s.endCancel f).count = s.count := by
  unfold endCancel
  split
  · split <;> exact ⟨rfl, rfl, rfl, rfl⟩
  · exact ⟨rfl, rfl, rfl, rfl⟩

theorem inv_end (h : Inv s) {f : Frame κ ν} {rest : List (Frame κ ν)} (hstack : s.stack = f :: rest)
    (hdone : s.nextChild f = none) :
    Inv (endCancel { s with stack := rest } f) := by
  obtain ⟨hbuilt, hrest, hlog, hcount⟩ := endCancel_rest { s with stack := rest } f
  have hcell := cell_endCancel { s with stack := rest } f
  obtain ⟨hfmem, hferr⟩ := h.frames f (hstack ▸ List.mem_cons_self)
  have hnodup : f.id ∉ rest.map Frame.id ∧ (rest.map Frame.id).Nodup := by
    have := h.nodup
    rw [hstack, List.map_cons] at this
    exact List.nodup_cons.mp this
  have hsub : ∀ {id child}, child ∈ kept { s with stack := rest } f id →
      child ∈ (s.cell id).children := by
    intro id child hchild
    unfold kept at hchild
    split at hchild
    · cases hchild
    · split at hchild
      · exact List.mem_of_mem_filter hchild
      · exact hchild
  have hgone : ∀ {id child}, child ∈ kept { s with stack := rest } f id →
      f.removeFromParent = true → child.1 ≠ f.id := by
    intro id child hchild hremove heq
    obtain ⟨hmem, hnear⟩ := h.children id child (hsub hchild)
    rw [heq] at hmem
    rw [h.same hmem hfmem] at hnear
    unfold kept at hchild
    split at hchild
    · cases hchild
    · rw [if_pos ⟨hremove, hnear⟩] at hchild
      simpa [heq] using List.of_mem_filter hchild
  have hkeep : ∀ {id child}, child ∈ (s.cell id).children → id ≠ f.id → child.1 ≠ f.id →
      child ∈ kept { s with stack := rest } f id := by
    intro id child hchild hid hne
    unfold kept
    rw [if_neg hid]
    split
    · exact List.mem_filter.mpr ⟨hchild, by simpa using hne⟩
    · exact hchild
  constructor
  · intro id parent hmem
    rw [hbuilt] at hmem ⊢
    exact h.parents hmem
  · intro parent key val hmem
    rw [hbuilt] at hmem ⊢
    exact h.valueParents hmem
  · intro id parent hmem
    rw [hbuilt] at hmem
    rw [hcount]
    exact h.bound hmem
  · intro id p q hp hq
    rw [hbuilt] at hp hq
    exact h.same hp hq
  · intro id hle
    rw [hcount] at hle
    have hempty : s.cell id = {} := h.fresh id hle
    have hnone : kept { s with stack := rest } f id = [] := by
      rw [List.eq_nil_iff_forall_not_mem]
      intro child hchild
      have hin := hsub hchild
      rw [hempty] at hin
      cases hin
    rw [hcell, hnone]
    show { s.cell id with children := [] } = _
    rw [hempty]
  · intro id child hchild
    rw [hcell] at hchild
    rw [hbuilt]
    exact h.children id child (hsub hchild)
  · intro id parent p hmem hlive hp
    rw [hbuilt] at hmem
    rw [hcell] at hlive
    obtain ⟨hin, hdrop⟩ := h.enlisted hmem hlive hp
    have hid : id ≠ f.id := by
      rintro rfl
      exact hferr hlive
    have hpid : p.1 ≠ f.id := by
      intro heq
      obtain ⟨g, hg, hgid, hmem'⟩ := hdrop (heq ▸ hferr)
      rw [hstack] at hg
      rcases List.mem_cons.mp hg with rfl | hg
      · have hvisited := List.find?_eq_none.mp hdone (id, parent) (heq ▸ hin)
        simp [hmem'] at hvisited
      · exact hnodup.1 (List.mem_map.mpr ⟨g, hg, hgid.trans heq⟩)
    rw [hcell]
    refine ⟨hkeep hin hpid hid, fun hne => ?_⟩
    obtain ⟨g, hg, hgid, hmem'⟩ := hdrop hne
    rw [hstack] at hg
    rcases List.mem_cons.mp hg with rfl | hg
    · exact absurd hgid.symm hpid
    · exact ⟨g, hrest ▸ hg, hgid, hmem'⟩
  · intro g hg
    rw [hrest] at hg
    rw [hbuilt, hcell]
    exact h.frames g (hstack ▸ List.mem_cons_of_mem _ hg)
  · rw [hrest]
    exact hnodup.2
  · intro id hlive child hchild hne
    rw [hcell] at hlive hchild hne
    obtain ⟨g, hg, hgid, hremove⟩ := h.held id hlive child (hsub hchild) hne
    rw [hstack] at hg
    rcases List.mem_cons.mp hg with rfl | hg
    · exact absurd hgid.symm (hgone hchild hremove)
    · exact ⟨g, hrest ▸ hg, hgid, hremove⟩
  · intro id parent error hmem herr
    rw [hbuilt] at hmem
    rw [hcell] at herr ⊢
    rw [hlog]
    exact h.told hmem herr
  · intro id parent error hmem herr
    rw [hbuilt] at hmem
    rw [hcell] at herr
    simp only [Decided, hcell, hlog]
    exact h.decided hmem herr
  · intro ending hending
    rw [hlog] at hending
    rw [hcell]
    exact h.logged ending hending
  · intro id
    rw [hcell]
    exact h.closed id
  · intro id
    rw [hcell]
    exact h.timers id

theorem inv_advance (h : Inv s) : Inv s.advance := by
  unfold advance
  cases hstack : s.stack with
  | nil => exact h
  | cons f rest =>
    cases hnext : s.nextChild f with
    | none =>
      simp only [hnext]
      exact inv_end h hstack hnext
    | some child =>
      simp only [hnext]
      unfold startCancel
      split
      · rename_i herr
        exact @inv_visit _ _ _ _ h [] rest f hstack child.1 (Option.isSome_iff_ne_none.mp herr)
      · rename_i herr
        have hlive : (s.cell child.1).error = none := Option.not_isSome_iff_eq_none.mp herr
        obtain ⟨hfmem, hferr⟩ := h.frames f (hstack ▸ List.mem_cons_self)
        obtain ⟨error, herror⟩ := Option.ne_none_iff_exists'.mp hferr
        obtain ⟨hmem, hnear⟩ := h.children f.id child (List.mem_of_find?_eq_some hnext)
        obtain ⟨p, hp, hpid⟩ := Option.map_eq_some_iff.mp hnear
        have hparent : s.err child.2 = some error := by
          rw [err_eq, hp, Option.bind_some, hpid, herror]
        obtain ⟨q, hq, -, htold⟩ := h.told_of_err (h.parents hmem) hparent
        cases hp.symm.trans hq
        rw [hpid] at htold
        have hlogged : ∀ e ∈ s.log, e.id ≠ child.1 := fun e he heq => h.logged e he (heq ▸ hlive)
        have hcause : (s.cell f.id).causeError =
            some ((s.cell f.id).causeError.getD (.error error)) := by
          obtain ⟨ending, -, hcause⟩ := htold
          rw [hcause, Option.getD_some]
        rw [hcause] at htold
        have hstarted := @inv_start _ _ _ _ h child.1 child.2 hmem hlive
          ((s.cell f.id).error.getD .canceled) (s.cell f.id).causeError false s.log
          ⟨child.1, error, .error error, false, false⟩ (.inl rfl)
          (by
            rw [herror]
            refine htold.of_ids fun ending hending => ?_
            simp [Context.ids, hlogged ending hending])
          (.inr ⟨own_of_ne hlogged, p, hp, by rw [hpid, herror]; rfl, by
            rw [hpid, herror]
            exact hcause⟩)
          (fun _ p' hp' => by
            cases hp.symm.trans hp'
            exact hpid ▸ hferr)
        refine @inv_visit _ _ _ _ hstarted
          [{ id := child.1, parent := child.2, removeFromParent := false }] rest f
          (by rw [hstack]; rfl) child.1 ?_
        show ((s.setCell child.1 _).cell child.1).error ≠ none
        rw [cell_setCell, if_pos rfl]
        exact Option.some_ne_none _

/-- Where no cancellation of an ancestor is under way, the first ending on the
path of a context without an error is the one that comes now. -/
theorem inv_callCancel (h : Inv s) {id : Nat} {parent : Context κ ν}
    (hmem : .cancel id parent ∈ s.built) (error : ContextError) (cause : Option (Cause ε)) :
    Inv (s.callCancel id parent error cause) := by
  unfold callCancel startCancel
  split
  · rename_i herr
    have hne : (s.cell id).error ≠ none := Option.isSome_iff_ne_none.mp herr
    refine inv_log h hne ?_
    show (s.cell id).error.isNone = false
    rw [Option.isNone_eq_false_iff]
    exact herr
  · rename_i herr
    have hlive : (s.cell id).error = none := Option.not_isSome_iff_eq_none.mp herr
    have hlogged : ∀ e ∈ s.log, e.id ≠ id := fun e he heq => h.logged e he (heq ▸ hlive)
    have hown : own (s.log ++ [s.ending id parent error cause]) id =
        some (s.ending id parent error cause) := by
      rw [own_append, own_of_ne hlogged, Option.none_or, if_pos ⟨rfl, by simp [ending, hlive]⟩]
    refine inv_start h hmem hlive (.inr ⟨rfl, rfl⟩) ⟨s.ending id parent error cause, ?_, rfl⟩
      (.inl ⟨_, hown, rfl, rfl⟩) (fun hfalse => by cases hfalse)
    intro hapart
    refine ⟨?_, rfl⟩
    have hovertakes : (s.ending id parent error cause).overtakes = false :=
      hapart _ (List.mem_append_right _ (List.mem_singleton_self _)) List.mem_cons_self
    have hclear : ∀ f ∈ s.stack, f.id ∉ (Context.cancel id parent).ids := by
      intro f hf hin
      rcases List.mem_cons.mp hin with heq | hin
      · exact (h.frames f hf).2 (heq ▸ hlive)
      · simp only [ending, hlive, Option.isNone_none, Bool.true_and, List.any_eq_false,
          decide_eq_true_eq] at hovertakes
        exact hovertakes f hf hin
    have hnone := firstEnding_of_not_logged (h.not_logged hmem hclear hlive)
    show firstEnding (s.log ++ [s.ending id parent error cause]) (.cancel id parent) = _
    rw [firstEnding, List.find?_append, ← firstEnding, hnone, Option.none_or, List.find?_singleton]
    exact if_pos (decide_eq_true List.mem_cons_self)

theorem addChild_frame (s : Contexts κ ν ε) (id : Nat) (child : Nat × Context κ ν) :
    (s.addChild id child).built = s.built ∧ (s.addChild id child).stack = s.stack ∧
      (s.addChild id child).log = s.log ∧ (s.addChild id child).count = s.count := by
  unfold addChild
  split <;> exact ⟨rfl, rfl, rfl, rfl⟩

theorem newCancelContext_frame (s : Contexts κ ν ε) (parent : Context κ ν) :
    (s.newCancelContext parent).built = .cancel s.count parent :: s.built ∧
      (s.newCancelContext parent).stack = s.stack ∧ (s.newCancelContext parent).log = s.log ∧
      (s.newCancelContext parent).count = s.count + 1 := by
  cases herr : s.err parent with
  | some error => simp [newCancelContext, herr]
  | none =>
    cases hp : parent.parentCancelContext with
    | none => simp [newCancelContext, herr, hp]
    | some p =>
      simp only [newCancelContext, herr, hp]
      exact addChild_frame _ p.1 _

/-! ## Nothing is taken back -/

/-- What a context with an error tells is the same later on. -/
def Kept (s s' : Contexts κ ν ε) : Prop :=
  ∀ ctx ∈ s.built, ctx ∈ s'.built ∧ ∀ error, s.err ctx = some error →
    s'.err ctx = some error ∧ s'.cause ctx = s.cause ctx ∧ s'.closed ctx = s.closed ctx

/-- The same of the cells that are given out. -/
structure Keeps (s s' : Contexts κ ν ε) : Prop where
  built : ∀ ctx ∈ s.built, ctx ∈ s'.built
  count : s.count ≤ s'.count
  cell : ∀ id < s.count, (s.cell id).error ≠ none →
    (s'.cell id).error = (s.cell id).error ∧ (s'.cell id).causeError = (s.cell id).causeError ∧
      (s'.cell id).closed = (s.cell id).closed

theorem Keeps.trans {s s' s'' : Contexts κ ν ε} (h : Keeps s s') (h' : Keeps s' s'') :
    Keeps s s'' where
  built ctx hctx := h'.built ctx (h.built ctx hctx)
  count := Nat.le_trans h.count h'.count
  cell id hid hne := by
    obtain ⟨herr, hcause, hclosed⟩ := h.cell id hid hne
    have hlater := h'.cell id (Nat.lt_of_lt_of_le hid h.count) (herr ▸ hne)
    rwa [herr, hcause, hclosed] at hlater

/-- What leaves the cells that have an error as they are. -/
theorem keeps_of_cell {s' : Contexts κ ν ε} (hbuilt : ∀ ctx ∈ s.built, ctx ∈ s'.built)
    (hcount : s.count ≤ s'.count)
    (hcell : ∀ id, (s.cell id).error ≠ none → s'.cell id = s.cell id) : Keeps s s' where
  built := hbuilt
  count := hcount
  cell id _ hne := by
    rw [hcell id hne]
    exact ⟨rfl, rfl, rfl⟩

theorem keeps_startCancel {s' : Contexts κ ν ε} (hbuilt : s'.built = s.built)
    (hcount : s'.count = s.count) (hcell : s'.cell = s.cell) (id : Nat) (parent : Context κ ν)
    (removeFromParent : Bool) (error : ContextError) (cause : Option (Cause ε)) :
    Keeps s (s'.startCancel id parent removeFromParent error cause) := by
  unfold startCancel
  split
  · exact keeps_of_cell (fun _ hctx => hbuilt ▸ hctx) hcount.ge fun _ _ => by rw [hcell]
  · rename_i hlive
    refine keeps_of_cell (fun _ hctx => hbuilt ▸ hctx) hcount.ge fun id' hne => ?_
    have hid : id' ≠ id := by
      rintro rfl
      rw [hcell] at hlive
      exact hlive (Option.isSome_iff_ne_none.mpr hne)
    exact (if_neg hid).trans (congrFun hcell id')

theorem keeps_advance (s : Contexts κ ν ε) : Keeps s s.advance := by
  unfold advance
  cases hstack : s.stack with
  | nil => exact keeps_of_cell (fun _ hctx => hctx) (Nat.le_refl _) fun _ _ => rfl
  | cons f rest =>
    cases hnext : s.nextChild f with
    | some child =>
      simp only [hnext]
      exact @keeps_startCancel _ _ _ s { s with stack := visit f child.1 :: rest } rfl rfl rfl child.1
        _ _ _ _
    | none =>
      obtain ⟨hbuilt, -, -, hcount⟩ := endCancel_rest { s with stack := rest } f
      have hcell := cell_endCancel { s with stack := rest } f
      constructor
      · intro ctx hctx
        simp only [hnext, hbuilt]
        exact hctx
      · simp only [hnext, hcount]
        exact Nat.le_refl _
      · intro id _ _
        simp only [hnext]
        rw [hcell]
        exact ⟨rfl, rfl, rfl⟩

theorem keeps_newCancelContext (h : Inv s) {parent : Context κ ν} (hparent : parent ∈ s.built) :
    Keeps s (s.newCancelContext parent) := by
  have henrolled : ∀ new extra, Keeps s (s.enrolled parent new extra) := by
    intro new extra
    constructor
    · exact fun ctx hctx => List.mem_cons_of_mem _ hctx
    · exact Nat.le_succ _
    · intro id hid _
      have hcell : (s.enrolled parent new extra).cell id =
          { s.cell id with children := (s.cell id).children ++ extra id } := if_neg hid.ne
      rw [hcell]
      exact ⟨rfl, rfl, rfl⟩
  cases herr : s.err parent with
  | some error =>
    rw [newCancelContext_of_some h herr]
    exact henrolled _ _
  | none =>
    cases hp : parent.parentCancelContext with
    | none =>
      rw [newCancelContext_of_root h herr hp]
      exact henrolled _ _
    | some p =>
      rw [newCancelContext_of_live h hparent herr hp]
      exact henrolled _ _

theorem keeps_timer (s : Contexts κ ν ε) (id : Nat) (timer cleanup : Bool) :
    Keeps s (s.setCell id { s.cell id with timer, cleanup }) where
  built _ hctx := hctx
  count := Nat.le_refl _
  cell id' _ _ := by
    rw [cell_setCell]
    split
    · rename_i heq
      subst heq
      exact ⟨rfl, rfl, rfl⟩
    · exact ⟨rfl, rfl, rfl⟩

theorem keeps_callCancel (s : Contexts κ ν ε) (id : Nat) (parent : Context κ ν) (error : ContextError)
    (cause : Option (Cause ε)) : Keeps s (s.callCancel id parent error cause) :=
  @keeps_startCancel _ _ _ s { s with log := s.log ++ [s.ending id parent error cause] } rfl rfl rfl
    id parent true error cause

theorem Inv.kept_of_keeps (h : Inv s) {s' : Contexts κ ν ε} (hkeeps : Keeps s s') : Kept s s' := by
  intro ctx hctx
  refine ⟨hkeeps.built ctx hctx, fun error herr => ?_⟩
  obtain ⟨p, hp, hperr, ending, -, hcause⟩ := h.told_of_err hctx herr
  obtain ⟨herr', hcause', hclosed'⟩ :=
    hkeeps.cell p.1 (h.bound (h.parentCancelContext_mem hctx hp)) (by rw [hperr]; exact Option.some_ne_none _)
  have hlater : s'.err ctx = some error := by
    rw [err_eq, hp, Option.bind_some, herr', hperr]
  refine ⟨hlater, ?_, ?_⟩
  · rw [cause_of_err herr hp hcause, cause_of_err hlater hp (hcause'.trans hcause)]
  · rw [closed_eq, closed_eq, hp, Option.map_some, Option.map_some, hclosed']

/-! ## Every cancellation comes to its end -/

/-- How many contexts have no error. -/
def live (s : Contexts κ ν ε) : Nat :=
  ((Finset.range s.count).filter fun id => (s.cell id).error = none).card

/-- How many children the frames have yet to visit, and how many frames there are. -/
def remaining (s : Contexts κ ν ε) : List (Frame κ ν) → Nat
  | [] => 0
  | f :: rest =>
    ((s.cell f.id).children.filter fun child => child.1 ∉ f.visited).length + 1 + s.remaining rest

theorem remaining_le {s s' : Contexts κ ν ε}
    (h : ∀ id, (s'.cell id).children.Sublist (s.cell id).children) (stack : List (Frame κ ν)) :
    s'.remaining stack ≤ s.remaining stack := by
  induction stack with
  | nil => exact Nat.le_refl _
  | cons f rest ih =>
    have hlen := ((h f.id).filter fun child => child.1 ∉ f.visited).length_le
    simp only [remaining]
    omega

theorem kept_sublist (s : Contexts κ ν ε) (f : Frame κ ν) (id : Nat) :
    (s.kept f id).Sublist (s.cell id).children := by
  unfold kept
  split
  · exact List.nil_sublist _
  · split
    · exact List.filter_sublist
    · exact List.Sublist.refl _

/-- The child that was visited is off the list. -/
theorem unvisited_lt {children : List (Nat × Context κ ν)} {visited : List Nat}
    {child : Nat × Context κ ν} (h : children.find? (fun c => c.1 ∉ visited) = some child) :
    (children.filter fun c => c.1 ∉ child.1 :: visited).length <
      (children.filter fun c => c.1 ∉ visited).length := by
  have hmem := List.mem_of_find?_eq_some h
  have hnew := List.find?_some h
  have hsplit : (children.filter fun c => c.1 ∉ child.1 :: visited) =
      (children.filter fun c => c.1 ∉ visited).filter fun c => c.1 ≠ child.1 := by
    rw [List.filter_filter]
    refine List.filter_congr fun c _ => ?_
    simp
  rw [hsplit]
  refine List.length_filter_lt_length_iff_exists.mpr ⟨child, List.mem_filter.mpr ⟨hmem, hnew⟩, ?_⟩
  simp

/-- A step of a cancellation reaches a context, or is one towards the end. -/
theorem advance_decreases (h : Inv s) (hne : s.stack ≠ []) :
    s.advance.live < s.live ∨ s.advance.live = s.live ∧
      s.advance.remaining s.advance.stack < s.remaining s.stack := by
  obtain ⟨f, rest, hstack⟩ := List.exists_cons_of_ne_nil hne
  cases hnext : s.nextChild f with
  | none =>
    have hadvance : s.advance = endCancel { s with stack := rest } f := by
      simp only [advance, hstack, hnext]
    obtain ⟨-, hrest, -, hcount⟩ := endCancel_rest { s with stack := rest } f
    have hcell := cell_endCancel { s with stack := rest } f
    refine .inr ⟨?_, ?_⟩
    · simp only [live, hadvance, hcount, hcell]
    · rw [hadvance, hrest, hstack]
      have hsub : ∀ id, ((endCancel { s with stack := rest } f).cell id).children.Sublist
          (s.cell id).children := by
        intro id
        rw [hcell]
        exact kept_sublist _ f id
      have hle := remaining_le hsub rest
      simp only [remaining]
      omega
  | some child =>
    have hadvance : s.advance = startCancel { s with stack := visit f child.1 :: rest } child.1 child.2
        false ((s.cell f.id).error.getD .canceled) (s.cell f.id).causeError := by
      simp only [advance, hstack, hnext, visit]
    rw [hadvance]
    unfold startCancel
    split
    · refine .inr ⟨rfl, ?_⟩
      have hlt := unvisited_lt hnext
      have hless : s.remaining (visit f child.1 :: rest) < s.remaining (f :: rest) :=
        Nat.add_lt_add_right (Nat.add_lt_add_right hlt 1) _
      have hcells := @remaining_le _ _ _ s { s with stack := visit f child.1 :: rest }
        (fun _ => List.Sublist.refl _) (visit f child.1 :: rest)
      rw [hstack]
      exact Nat.lt_of_le_of_lt hcells hless
    · rename_i hlive
      have hlive' : (s.cell child.1).error = none := Option.not_isSome_iff_eq_none.mp hlive
      have hbound := h.bound (h.children f.id child (List.mem_of_find?_eq_some hnext)).1
      refine .inl (Finset.card_lt_card (Finset.ssubset_iff_subset_ne.mpr ⟨?_, ?_⟩))
      · intro id hid
        obtain ⟨hrange, herr⟩ := Finset.mem_filter.mp hid
        refine Finset.mem_filter.mpr ⟨hrange, ?_⟩
        by_cases heq : id = child.1
        · rw [heq]
          exact hlive'
        · exact (congrArg CancelCell.error (if_neg heq)).symm.trans herr
      · intro heq
        have hin : child.1 ∈ (Finset.range s.count).filter fun id => (s.cell id).error = none :=
          Finset.mem_filter.mpr ⟨Finset.mem_range.mpr hbound, hlive'⟩
        rw [← heq] at hin
        have herr := (Finset.mem_filter.mp hin).2
        have hset : ((setCell s child.1 ((s.cell child.1).cancel
            ((s.cell f.id).error.getD .canceled) (s.cell f.id).causeError)).cell child.1).error = none :=
          herr
        rw [cell_setCell, if_pos rfl] at hset
        cases hset

/-! ## Runs -/

section Exec

variable [DecidableEq κ] {clockKey : κ} {isClock : ν → Bool}

theorem inv_withTimeout (h : Inv s) {parent : Context κ ν} (hparent : parent ∈ s.built)
    (timeoutMs : Number) : Inv (s.withTimeout clockKey isClock parent timeoutMs) := by
  have hnew := inv_newCancelContext h hparent
  obtain ⟨hbuilt, -, -, hcount⟩ := newCancelContext_frame s parent
  have hmem : .cancel s.count parent ∈ (s.newCancelContext parent).built :=
    hbuilt ▸ List.mem_cons_self
  simp only [withTimeout]
  split
  · exact hnew
  · rename_i herr
    split
    · exact inv_callCancel hnew hmem .deadlineExceeded none
    · split
      · refine inv_timer hnew s.count true true (by omega) ⟨fun hsome => ?_, fun _ => rfl⟩
        exact absurd hsome herr
      · exact hnew

theorem inv_exec (h : Inv s) {act : Act κ ν ε} (hallowed : s.Allowed act) :
    Inv (s.exec clockKey isClock act) := by
  cases act with
  | withValue parent key val => exact inv_withValue h hallowed key val
  | withCancel parent => exact inv_newCancelContext h hallowed
  | withTimeout parent timeoutMs => exact inv_withTimeout h hallowed timeoutMs
  | cancel id parent cause => exact inv_callCancel h hallowed .canceled cause
  | expire id parent =>
    obtain ⟨hmem, -⟩ := hallowed
    have hoff : Inv (s.setCell id { s.cell id with timer := false }) :=
      inv_timer h id false (s.cell id).cleanup (h.bound hmem)
        ⟨fun _ => rfl, fun htrue => by cases htrue⟩
    exact inv_callCancel hoff hmem .deadlineExceeded none
  | advance => exact inv_advance h

theorem inv_of_reach (h : (contextSystem clockKey isClock).Reach s) : Inv s := by
  refine h.invariant (P := Inv) ?_ ?_
  · rintro s rfl
    exact inv_initial
  · rintro s act s' - hinv ⟨rfl, hallowed⟩
    exact inv_exec hinv hallowed

theorem exec_keeps (h : Inv s) {act : Act κ ν ε} (hallowed : s.Allowed act) :
    Keeps s (s.exec clockKey isClock act) := by
  cases act with
  | withValue parent key val =>
    exact keeps_of_cell (fun _ hctx => List.mem_cons_of_mem _ hctx) (Nat.le_refl _) fun _ _ => rfl
  | withCancel parent => exact keeps_newCancelContext h hallowed
  | withTimeout parent timeoutMs =>
    have hnew := keeps_newCancelContext h hallowed
    simp only [exec, withTimeout]
    split
    · exact hnew
    · split
      · exact hnew.trans (keeps_callCancel _ _ _ _ _)
      · split
        · exact hnew.trans (keeps_timer _ _ _ _)
        · exact hnew
  | cancel id parent cause => exact keeps_callCancel s id parent .canceled cause
  | expire id parent =>
    exact (keeps_timer s id false (s.cell id).cleanup).trans (keeps_callCancel _ id parent _ _)
  | advance => exact keeps_advance s

/-- The acts of a run decide where it ends. -/
theorem run_eq {acts : List (Act κ ν ε)} (h : (contextSystem clockKey isClock).Run acts s) :
    s = acts.foldl (exec clockKey isClock) {} := by
  induction h with
  | start h => exact h
  | snoc run h ih =>
    rw [List.foldl_append, ← ih]
    exact h.1

theorem keeps_of_run {acts : List (Act κ ν ε)} (h : (contextSystem clockKey isClock).Run acts s)
    (more : List (Act κ ν ε)) : ∀ {s'}, (contextSystem clockKey isClock).Run (acts ++ more) s' →
      Keeps s s' := by
  induction more using List.reverseRecOn with
  | nil =>
    intro s' h'
    rw [List.append_nil] at h'
    rw [run_eq h, run_eq h']
    exact keeps_of_cell (fun _ hctx => hctx) (Nat.le_refl _) fun _ _ => rfl
  | append_singleton more act ih =>
    intro s' h'
    rw [← List.append_assoc] at h'
    obtain ⟨mid, hmid, rfl, hallowed⟩ := h'.snoc_inv
    exact (ih hmid).trans (exec_keeps (inv_of_reach ⟨_, hmid⟩) hallowed)

theorem run_ends {acts : List (Act κ ν ε)} {s : Contexts κ ν ε}
    (h : (contextSystem clockKey isClock).Run acts s) :
    ∃ n s', (contextSystem clockKey isClock).Run (acts ++ List.replicate n .advance) s' ∧
      s'.stack = [] := by
  by_cases hrest : s.stack = []
  · exact ⟨0, s, by simpa using h, hrest⟩
  · have hstep : (contextSystem clockKey isClock).Run (acts ++ [.advance]) s.advance :=
      h.snoc ⟨rfl, hrest⟩
    have hless := advance_decreases (inv_of_reach ⟨_, h⟩) hrest
    obtain ⟨n, s', hrun, hend⟩ := run_ends hstep
    refine ⟨n + 1, s', ?_, hend⟩
    rwa [List.append_assoc, List.singleton_append, ← List.replicate_succ] at hrun
termination_by (s.live, s.remaining s.stack)
decreasing_by
  rcases hless with hlt | ⟨heq, hlt⟩
  · exact Prod.Lex.left _ _ hlt
  · exact heq ▸ Prod.Lex.right _ hlt

end Exec

end Inv

/-! ## A handler that is faster -/

/-- A context and a child of it; while the first is being cancelled a handler
of its done channel cancels the second, with a cause of its own. -/
def overtaking : List (Act Nat Nat Nat) :=
  [.withCancel .background, .withCancel (.cancel 0 .background), .cancel 0 .background none,
    .cancel 1 (.cancel 0 .background) (some (.given 7)), .advance, .advance]

def overtaken : Contexts Nat Nat Nat := overtaking.foldl (exec 0 fun _ => true) {}

theorem run_overtaking : (contextSystem 0 fun _ => true).Run overtaking overtaken := by
  have h0 : (contextSystem (ν := Nat) (ε := Nat) 0 fun _ => true).Run [] {} := .start rfl
  have h1 := h0.snoc (l := .withCancel .background) ⟨rfl, by decide⟩
  have h2 := h1.snoc (l := .withCancel (.cancel 0 .background)) ⟨rfl, by decide⟩
  have h3 := h2.snoc (l := .cancel 0 .background none) ⟨rfl, by decide⟩
  have h4 := h3.snoc (l := .cancel 1 (.cancel 0 .background) (some (.given 7))) ⟨rfl, by decide⟩
  have h5 := h4.snoc (l := .advance) ⟨rfl, by decide⟩
  exact h5.snoc (l := .advance) ⟨rfl, by decide⟩

end Webernetes.Go.Contexts
