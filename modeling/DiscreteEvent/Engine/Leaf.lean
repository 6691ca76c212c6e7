/-
Leaves: the engines of atomic models.

A leaf takes care that the functions of its model are called in turn. When an
event is due, `collect` asks for the output and leaves the state's transition
to `advance`, which fires one of three transitions: the internal one if the
event is due and no input has come, the external one if there is input before
the event, and both, the internal one first, if input comes at the very time of
the event. After a transition the next event is scheduled anew and the input is
used up.

Collecting and advancing outside of these cases has no effect on the model.
-/
import DiscreteEvent.Engine.Node
import DiscreteEvent.Model.Tree

set_option autoImplicit false

namespace DiscreteEvent

/-- The engine of an atomic model. -/
structure Leaf (τ σ : Type) [MessageType τ] extends Node τ where
  state : σ

namespace Leaf

variable {τ σ ω : Type} [MessageType τ]

/-- The engine of an atomic model below the given parent. -/
def ofAtomic (parent : Option String) (a : Atomic τ σ) : Leaf τ σ :=
  { Node.create parent a.id a.interface with state := a.state }

/-- Puts messages into the inbox, in order. -/
def receive (l : Leaf τ σ) (mail : List (Delivery τ)) : Leaf τ σ :=
  { l with toNode := l.toNode.receive mail }

/-- The leaf and the world after a call of the model. -/
def absorb {α : Type} (l : Leaf τ σ) (r : Reply σ α) (w : World ω) : Outcome (Leaf τ σ) ω :=
  ⟨{ l with state := r.state }, w.heed r, r.fault.map .fault⟩

variable [AtomicModel τ σ]

/-! ## Calls of the model -/

/-- Makes `t` the time of the last transition and schedules the next event. -/
def reschedule (l : Leaf τ σ) (t : Instant) (w : World ω) : Outcome (Leaf τ σ) ω :=
  let r := AtomicModel.timeAdvance l.state
  ({ l with last := t }.absorb r w).andThen fun l w =>
    .done { l with next := t.schedule r.answer } w

/-- Fills the outbox with the output of a model whose event is due at `t`. -/
def emit (l : Leaf τ σ) (t : Instant) (w : World ω) : Outcome (Leaf τ σ) ω :=
  if l.isImminent t then
    let r := AtomicModel.output l.state
    let (outbox, refusal) := l.outbox.clear.write r.answer
    -- A refused emission ends the call before it can fault by itself.
    { l with outbox := outbox }.absorb { r with fault := refusal <|> r.fault } w
  else
    .refused l w (.notImminent l.path t l.next)

/-- The transition of a due event. -/
def fireInternal (l : Leaf τ σ) (w : World ω) : Outcome (Leaf τ σ) ω :=
  l.absorb (AtomicModel.internal l.state) w

/-- The transition on the messages in the inbox, at `t`, when the last
transition was at `since`. -/
def fireExternal (l : Leaf τ σ) (t since : Instant) (w : World ω) : Outcome (Leaf τ σ) ω :=
  if l.inbox.isEmpty then
    .refused l w (.emptyExternalInput l.path t)
  else
    match t.since? since with
    | none => .broken l w .negativeSpan
    | some elapsed => l.absorb (AtomicModel.external l.state elapsed l.inbox) w

/-! ## The protocol -/

variable [Observer ω]

/-- Reports a call that the leaf has just completed. -/
def report (l : Leaf τ σ) (phase : Phase) (t : Instant) (bags : List BagRecord) (w : World ω) :
    Outcome (Leaf τ σ) ω :=
  let (w, fault) :=
    w.report phase l.path t l.last l.next (some (AtomicModel.render l.state)) bags
  ⟨l, w, fault.map .fault⟩

/-- **Initialization** at `t`. -/
def init (t : Instant) (l : Leaf τ σ) (w : World ω) : Outcome (Leaf τ σ) ω :=
  (l.reschedule t w).andThen fun l w => { l with initialized := true }.report .init t [] w

/-- **Collecting**: the output of the model, if its event is due at `t`. -/
def collect (t : Instant) (l : Leaf τ σ) (w : World ω) : Outcome (Leaf τ σ) ω :=
  match l.refuseCollect t with
  | some v => .refused l w v
  | none =>
    if l.isImminent t then
      (l.emit t w).andThen fun l w => l.report .collect t (Record.bagsOf .output l.outbox) w
    else
      .done l w

/-- The transition that is called for at `t`. -/
def fire (l : Leaf τ σ) (t : Instant) (w : World ω) : Outcome (Leaf τ σ) ω :=
  if l.isImminent t then
    if l.inbox.isEmpty then l.fireInternal w
    else (l.fireInternal w).andThen fun l w => l.fireExternal t t w
  else
    l.fireExternal t l.last w

/-- **Advancing** to `t`: a transition, if there is input or an event is due.
The output of the last instant is dropped in any case. -/
def advance (t : Instant) (l : Leaf τ σ) (w : World ω) : Outcome (Leaf τ σ) ω :=
  match l.refuseAdvance t with
  | some v => .refused l w v
  | none =>
    -- The output of this instant has been routed by now, so it is dropped first.
    let l := { l with outbox := l.outbox.clear }
    if l.inbox.isEmpty && !l.isImminent t then
      .done l w
    else
      (l.fire t w).andThen fun l w =>
        (l.reschedule t w).andThen fun l w =>
          (l.report .advance t (Record.bagsOf .input l.inbox) w).andThen fun l w =>
            .done { l with inbox := l.inbox.clear } w

/-! ## Text -/

/-- The leaf with the text of its model. -/
def inspect (l : Leaf τ σ) : Except Fault String := do
  let model ← AtomicModel.render l.state
  return Text.openRecord "Simulator"
    [("path", Text.quoted l.path), ("last", l.last.inspect), ("next", l.next.inspect),
     ("model", model)]

end Leaf

end DiscreteEvent
