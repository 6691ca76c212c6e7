/-
Engine trees: the sequential engine.

The tree of engines has the shape of the model tree. One step at time `t` is
two calls on the root. `collect` goes down to the leaves whose event is due
and carries their outputs up; nothing moves yet. `advance` routes all messages
of a network before any of its children advances, so that models with events
at one time see the same inputs whatever the order of the children.

A child is handed its mail together with the call to advance
(`advanceWith`), which keeps the recursion on the tree itself. If a child
stops, its younger siblings have received their mail as well, but do not
advance.
-/
import DiscreteEvent.Engine.Hub
import DiscreteEvent.Engine.Leaf

set_option autoImplicit false

namespace DiscreteEvent

/-- **An engine tree.** -/
inductive Engine (τ σ : Type) [MessageType τ] where
  | leaf (leaf : Leaf τ σ)
  | hub (hub : Hub τ) (children : List (Engine τ σ))

namespace Engine

variable {τ σ ω : Type} [MessageType τ]

/-- What the root keeps. -/
def node : Engine τ σ → Node τ
  | leaf l => l.toNode
  | hub h _ => h.toNode

/-- The last transition. -/
def last (e : Engine τ σ) : Instant := e.node.last

/-- The next event. -/
def next (e : Engine τ σ) : Instant := e.node.next

/-- The engine with other messages in the inbox of the root. -/
def withInbox (e : Engine τ σ) (inbox : Bags τ) : Engine τ σ :=
  match e with
  | leaf l => leaf { l with inbox := inbox }
  | hub h children => hub { h with inbox := inbox } children

/-- Puts messages into the inbox of the root. -/
def receive (e : Engine τ σ) (mail : List (Delivery τ)) : Engine τ σ :=
  match e with
  | leaf l => leaf (l.receive mail)
  | hub h children => hub (h.receive mail) children

mutual

/-- **The engine of a model**, below the given parent. -/
def ofModelBelow (parent : Option String) : Model τ σ → Engine τ σ
  | .atomic a => leaf (.ofAtomic parent a)
  | .coupled c children =>
    hub (.ofCoupled parent c children.length)
      (ofModelsBelow (childPath parent c.id) children)

/-- The engines of several children of one parent. -/
def ofModelsBelow (parent : String) : List (Model τ σ) → List (Engine τ σ)
  | [] => []
  | m :: rest => ofModelBelow (some parent) m :: ofModelsBelow parent rest

end

/-- The engine of a whole tree. -/
def ofModel (m : Model τ σ) : Engine τ σ := ofModelBelow none m

variable [AtomicModel τ σ] [Observer ω]

/-! ## Initialization -/

/-- What remains to be done at a hub when its children are initialized. -/
def settleInit (t : Instant) (h : Hub τ) (children : List (Engine τ σ)) (w : World ω) :
    Outcome (Engine τ σ) ω :=
  let h := { h with
    last := t, next := Hub.earliest (children.map node), initialized := true }
  (h.report .init t [] w).map (hub · children)

mutual

/-- **Initialization** at `t`, children first. -/
def init (t : Instant) : Engine τ σ → World ω → Outcome (Engine τ σ) ω
  | leaf l, w => (l.init t w).map leaf
  | hub h children, w =>
    let o := initAll t children w
    match o.stop with
    | some _ => o.map (hub h)
    | none => settleInit t h o.state o.world

/-- Initialization of one engine after the other. -/
def initAll (t : Instant) : List (Engine τ σ) → World ω → Outcome (List (Engine τ σ)) ω
  | [], w => .done [] w
  | e :: rest, w =>
    let o := init t e w
    match o.stop with
    | some _ => o.map (· :: rest)
    | none => (initAll t rest o.world).map (o.state :: ·)

end

/-! ## Collecting -/

/-- What remains to be done at a hub when its children have shown their outputs. -/
def settleCollect (t : Instant) (h : Hub τ) (children : List (Engine τ σ)) (w : World ω) :
    Outcome (Engine τ σ) ω :=
  match h.gather (children.map node) with
  | .error fault => .broken (hub h children) w fault
  | .ok outbox =>
    let h := { h with outbox := outbox }
    (h.report .collect t (Record.bagsOf .output outbox) w).map (hub · children)

mutual

/-- **Collecting**: the outputs of all models whose event is due at `t`. -/
def collect (t : Instant) : Engine τ σ → World ω → Outcome (Engine τ σ) ω
  | leaf l, w => (l.collect t w).map leaf
  | hub h children, w =>
    match h.refuseCollect t with
    | some v => .refused (hub h children) w v
    | none =>
      if h.isImminent t then
        -- Collecting twice at one time must not gather twice.
        let h := { h with outbox := h.outbox.clear }
        let o := collectAll t children w
        match o.stop with
        | some _ => o.map (hub h)
        | none => settleCollect t h o.state o.world
      else
        .done (hub h children) w

/-- Collecting from one engine after the other. -/
def collectAll (t : Instant) : List (Engine τ σ) → World ω → Outcome (List (Engine τ σ)) ω
  | [], w => .done [] w
  | e :: rest, w =>
    let o := collect t e w
    match o.stop with
    | some _ => o.map (· :: rest)
    | none => (collectAll t rest o.world).map (o.state :: ·)

end

/-! ## Advancing -/

/-- What remains to be done at a hub when its children have advanced. -/
def settleAdvance (t : Instant) (h : Hub τ) (children : List (Engine τ σ)) (w : World ω) :
    Outcome (Engine τ σ) ω :=
  let h := { h with last := t, next := Hub.earliest (children.map node) }
  let o := (h.report .advance t (Record.bagsOf .input h.inbox) w).andThen fun h w =>
    .done { h with inbox := h.inbox.clear, outbox := h.outbox.clear } w
  o.map (hub · children)

/-- Hands mail to engines that do not advance any more. -/
def receiveAll (deliveries : List (Delivery τ)) : Nat → List (Engine τ σ) → List (Engine τ σ)
  | _, [] => []
  | i, e :: rest => e.receive (Hub.mailFor deliveries i) :: receiveAll deliveries (i + 1) rest

mutual

/-- **Advancing** to `t` with the given mail: all messages are routed, and then
the transitions fire. -/
def advanceWith (t : Instant) (mail : List (Delivery τ)) :
    Engine τ σ → World ω → Outcome (Engine τ σ) ω
  | leaf l, w => ((l.receive mail).advance t w).map leaf
  | hub h children, w =>
    let h := h.receive mail
    match h.refuseAdvance t with
    | some v => .refused (hub h children) w v
    | none =>
      -- All routes are followed before the first child moves: they read the outboxes,
      -- which the children are about to clear.
      match h.deliveries (children.map node) with
      | .error fault => .broken (hub h children) w fault
      | .ok deliveries =>
        let o := advanceAll t deliveries 0 children w
        match o.stop with
        | some _ => o.map (hub h)
        | none => settleAdvance t h o.state o.world

/-- Advancing one engine after the other; the first one is child number `i`. -/
def advanceAll (t : Instant) (deliveries : List (Delivery τ)) (i : Nat) :
    List (Engine τ σ) → World ω → Outcome (List (Engine τ σ)) ω
  | [], w => .done [] w
  | e :: rest, w =>
    let o := advanceWith t (Hub.mailFor deliveries i) e w
    match o.stop with
    | some _ => o.map (· :: receiveAll deliveries (i + 1) rest)
    | none => (advanceAll t deliveries (i + 1) rest o.world).map (o.state :: ·)

end

/-- **Advancing** to `t` with the messages that are in the inbox. -/
def advance (t : Instant) (e : Engine τ σ) (w : World ω) : Outcome (Engine τ σ) ω :=
  advanceWith t [] e w

/-- **One step**: collecting and advancing at the next event. -/
def step (e : Engine τ σ) (w : World ω) : Outcome (Engine τ σ) ω :=
  (e.collect e.next w).andThen fun collected w => collected.advance e.next w

/-! ## Text -/

mutual

/-- The tree with the texts of all models. -/
def inspect : Engine τ σ → Except Fault String
  | leaf l => return Text.tagged "Simulator" (← l.inspect)
  | hub h children => do
    let children ← inspectAll children
    return Text.tagged "Coordinator" (Text.openRecord "Coordinator"
      [("path", Text.quoted h.path), ("last", h.last.inspect), ("next", h.next.inspect),
       ("children", Text.list children)])

/-- The texts of several trees. -/
def inspectAll : List (Engine τ σ) → Except Fault (List String)
  | [] => return []
  | e :: rest => return (← inspect e) :: (← inspectAll rest)

end

end Engine

end DiscreteEvent
