/-
Webernetes.Go.Context — `go/context.ts`: contexts that are cancelled, by hand,
by a timer or with their parent.

A context object is its chain of parents; what changes of a `CancelContext` is
in a cell under its id. `cancel` goes through the children one by one, and runs
handlers of the done channel on its way, so it is done in steps: a frame for
each context that is being cancelled. In between a handler may build contexts
and cancel them. `log` lists the cancellations in order.
-/
import Webernetes.Base.Transition
import Webernetes.Js.Date

namespace Webernetes.Go

open Js Base

inductive ContextError where
  | canceled
  | deadlineExceeded
  deriving DecidableEq

/-- An error object: one of the two above, or one that was given. -/
inductive Cause (ε : Type) where
  | error (error : ContextError)
  | given (error : ε)
  deriving DecidableEq

inductive Context (κ ν : Type) where
  | background
  | cancel (id : Nat) (parent : Context κ ν)
  | value (parent : Context κ ν) (key : κ) (val : ν)
  deriving DecidableEq

variable {κ ν ε : Type}

namespace Context

/-- `value`, for the keys of a `ValueContext`. -/
def valueOf [DecidableEq κ] (key : κ) : Context κ ν → Option ν
  | .background => none
  | .cancel _ parent => parent.valueOf key
  | .value parent key' val => if key' = key then some val else parent.valueOf key

/-- `parentCancelContext`: its id and its parent. -/
def parentCancelContext : Context κ ν → Option (Nat × Context κ ν)
  | .background => none
  | .cancel id parent => some (id, parent)
  | .value parent _ _ => parent.parentCancelContext

/-- The ids on the path to the root. -/
def ids : Context κ ν → List Nat
  | .background => []
  | .cancel id parent => id :: parent.ids
  | .value parent _ _ => parent.ids

end Context

/-- What changes of a `CancelContext`. `closed` counts the calls of
`doneCh.close()`; `timer` is whether its timer is set. -/
structure CancelCell (κ ν ε : Type) where
  children : List (Nat × Context κ ν) := []
  error : Option ContextError := none
  causeError : Option (Cause ε) := none
  cleanup : Bool := false
  timer : Bool := false
  closed : Nat := 0

/-- A context in the middle of `cancel`, and the children that have been told. -/
structure Frame (κ ν : Type) where
  id : Nat
  parent : Context κ ν
  removeFromParent : Bool
  visited : List Nat := []

/-- A cancellation, or a timer that ran out. `live`: the context had no error.
`overtakes`: it had none, and an ancestor was being cancelled. -/
structure Ending (ε : Type) where
  id : Nat
  error : ContextError
  cause : Cause ε
  live : Bool
  overtakes : Bool

structure Contexts (κ ν ε : Type) where
  count : Nat := 0
  cell : Nat → CancelCell κ ν ε := fun _ => {}
  built : List (Context κ ν) := [.background]
  stack : List (Frame κ ν) := []
  log : List (Ending ε) := []

namespace CancelCell

/-- The part of `cancel` before the children. -/
def cancel (c : CancelCell κ ν ε) (error : ContextError) (cause : Option (Cause ε)) :
    CancelCell κ ν ε :=
  { c with
    error := some error
    causeError := some (cause.getD (.error error))
    cleanup := false
    timer := c.timer && !c.cleanup
    closed := c.closed + 1 }

end CancelCell

namespace Contexts

def setCell (s : Contexts κ ν ε) (id : Nat) (c : CancelCell κ ν ε) : Contexts κ ν ε :=
  { s with cell := fun id' => if id' = id then c else s.cell id' }

/-- `err` of a context. -/
def err (s : Contexts κ ν ε) : Context κ ν → Option ContextError
  | .background => none
  | .cancel id _ => (s.cell id).error
  | .value parent _ _ => s.err parent

def cause (s : Contexts κ ν ε) (ctx : Context κ ν) : Option (Cause ε) :=
  match s.err ctx with
  | none => none
  | some err =>
    some (((ctx.parentCancelContext.bind fun p => (s.cell p.1).causeError)).getD (.error err))

/-- How often the channel that `done` returns was closed. -/
def closed (s : Contexts κ ν ε) : Context κ ν → Nat
  | .background => 0
  | .cancel id _ => (s.cell id).closed
  | .value parent _ _ => s.closed parent

/-! ## Building -/

def addChild (s : Contexts κ ν ε) (id : Nat) (child : Nat × Context κ ν) : Contexts κ ν ε :=
  match (s.cell id).error with
  | some error => s.setCell child.1 ((s.cell child.1).cancel error (s.cell id).causeError)
  | none => s.setCell id { s.cell id with children := (s.cell id).children ++ [child] }

/-- The new context has the id `count`. -/
def newCancelContext (s : Contexts κ ν ε) (parent : Context κ ν) : Contexts κ ν ε :=
  let id := s.count
  let s' := { s with count := id + 1, built := .cancel id parent :: s.built }
  match s.err parent, parent.parentCancelContext with
  | some error, _ => s'.setCell id ((s'.cell id).cancel error (s.cause parent))
  | none, some p => s'.addChild p.1 (id, parent)
  | none, none => s'

/-! ## Cancelling -/

/-- `cancel` up to the first child. -/
def startCancel (s : Contexts κ ν ε) (id : Nat) (parent : Context κ ν) (removeFromParent : Bool)
    (error : ContextError) (cause : Option (Cause ε)) : Contexts κ ν ε :=
  if (s.cell id).error.isSome then s
  else
    let s' := s.setCell id ((s.cell id).cancel error cause)
    { s' with stack := { id, parent, removeFromParent } :: s'.stack }

/-- The part of `cancel` after the children. -/
def endCancel (s : Contexts κ ν ε) (f : Frame κ ν) : Contexts κ ν ε :=
  let s' := s.setCell f.id { s.cell f.id with children := [] }
  if f.removeFromParent then
    match f.parent.parentCancelContext with
    | some p =>
      s'.setCell p.1 { s'.cell p.1 with children := (s'.cell p.1).children.filter (·.1 ≠ f.id) }
    | none => s'
  else s'

/-- The child that the loop of a `cancel` comes to next. -/
def nextChild (s : Contexts κ ν ε) (f : Frame κ ν) : Option (Nat × Context κ ν) :=
  (s.cell f.id).children.find? fun child => child.1 ∉ f.visited

/-- The next child of the innermost `cancel`, or its end. -/
def advance (s : Contexts κ ν ε) : Contexts κ ν ε :=
  match s.stack with
  | [] => s
  | f :: stack =>
    match s.nextChild f with
    | some child =>
      startCancel { s with stack := { f with visited := child.1 :: f.visited } :: stack }
        child.1 child.2 false ((s.cell f.id).error.getD .canceled) (s.cell f.id).causeError
    | none => endCancel { s with stack } f

def ending (s : Contexts κ ν ε) (id : Nat) (parent : Context κ ν) (error : ContextError)
    (cause : Option (Cause ε)) : Ending ε :=
  { id, error
    cause := cause.getD (.error error)
    live := (s.cell id).error.isNone
    overtakes := (s.cell id).error.isNone && s.stack.any fun f => decide (f.id ∈ parent.ids) }

/-- `cancel` as a cancel function or a timer calls it. -/
def callCancel (s : Contexts κ ν ε) (id : Nat) (parent : Context κ ν) (error : ContextError)
    (cause : Option (Cause ε)) : Contexts κ ν ε :=
  startCancel { s with log := s.log ++ [s.ending id parent error cause] } id parent true error cause

/-! ## Steps -/

inductive Act (κ ν ε : Type) where
  | withValue (parent : Context κ ν) (key : κ) (val : ν)
  | withCancel (parent : Context κ ν)
  | withTimeout (parent : Context κ ν) (timeoutMs : Number)
  | cancel (id : Nat) (parent : Context κ ν) (cause : Option (Cause ε))
  | expire (id : Nat) (parent : Context κ ν)
  | advance

variable [DecidableEq κ] (clockKey : κ) (isClock : ν → Bool)

/-- Without a clock it throws after the context is built. -/
def withTimeout (s : Contexts κ ν ε) (parent : Context κ ν) (timeoutMs : Number) : Contexts κ ν ε :=
  let id := s.count
  let s' := s.newCancelContext parent
  if (s'.cell id).error.isSome then s'
  else if timeoutMs.nonPositive then
    s'.callCancel id parent .deadlineExceeded none
  else if (parent.valueOf clockKey).any isClock then
    s'.setCell id { s'.cell id with timer := true, cleanup := true }
  else s'

def exec (s : Contexts κ ν ε) : Act κ ν ε → Contexts κ ν ε
  | .withValue parent key val => { s with built := .value parent key val :: s.built }
  | .withCancel parent => s.newCancelContext parent
  | .withTimeout parent timeoutMs => s.withTimeout clockKey isClock parent timeoutMs
  | .cancel id parent cause => s.callCancel id parent .canceled cause
  | .expire id parent =>
    (s.setCell id { s.cell id with timer := false }).callCancel id parent .deadlineExceeded none
  | .advance => s.advance

/-- The contexts of an act are built, and a timer that runs out is set. -/
def Allowed (s : Contexts κ ν ε) : Act κ ν ε → Prop
  | .withValue parent _ _ => parent ∈ s.built
  | .withCancel parent => parent ∈ s.built
  | .withTimeout parent _ => parent ∈ s.built
  | .cancel id parent _ => .cancel id parent ∈ s.built
  | .expire id parent => .cancel id parent ∈ s.built ∧ (s.cell id).timer = true
  | .advance => s.stack ≠ []

instance [DecidableEq ν] (s : Contexts κ ν ε) : (act : Act κ ν ε) → Decidable (s.Allowed act)
  | .withValue parent _ _ => inferInstanceAs (Decidable (parent ∈ s.built))
  | .withCancel parent => inferInstanceAs (Decidable (parent ∈ s.built))
  | .withTimeout parent _ => inferInstanceAs (Decidable (parent ∈ s.built))
  | .cancel id parent _ => inferInstanceAs (Decidable (.cancel id parent ∈ s.built))
  | .expire id parent =>
    inferInstanceAs (Decidable (.cancel id parent ∈ s.built ∧ (s.cell id).timer = true))
  | .advance => decidable_of_iff (s.stack.isEmpty = false) (by simp [Allowed])

/-- The runs of a program with contexts. -/
def contextSystem : System (Contexts κ ν ε) (Act κ ν ε) where
  init s := s = {}
  step s act s' := s' = s.exec clockKey isClock act ∧ s.Allowed act

end Contexts

end Webernetes.Go
