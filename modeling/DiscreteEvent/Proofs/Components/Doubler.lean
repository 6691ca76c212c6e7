/-
Doublers as good models.

A doubler only adds up what it receives, so it can do anything at any time: the
invariant of its contract says nothing but which ports were declared. A sum does
not depend on the order of its summands, and therefore a doubler does not look at
the order of the messages in a bag.

`Doubler.tower` is a network with a network in it, to try statements on. A doubler
can be due while there is input for it, so all three transitions occur there; one
coupling is declared twice, and there are chains that cross two boundaries.
-/
import DiscreteEvent.Components.Sums
import DiscreteEvent.Proofs.Model.Accepted
import DiscreteEvent.Proofs.Model.Contract

set_option autoImplicit false

namespace DiscreteEvent

/-- A sum does not depend on the order of the summands. -/
theorem sumWords_perm {xs ys : List UInt64} (h : xs.Perm ys) : sumWords xs = sumWords ys := by
  refine h.foldl_eq' (fun x _ y _ z => ?_) 0
  rw [UInt64.add_assoc, UInt64.add_comm x y, UInt64.add_assoc]

namespace Doubler

/-- The declared ports are those of a doubler. -/
def Good (i : Interface Payload) (_ : Stage) (_ : Doubler) : Prop :=
  i = ⟨[add], [out]⟩

/-- What waits at the input of a doubler. -/
def words (x : Bags Payload) : List UInt64 :=
  (x.messagesAt 0).filterMap (Message.value? Payload.word64)

theorem react_eq (d : Doubler) {x : Bags Payload} (h : x.Fits [add]) :
    d.react x = { state := { d with value := d.value + sumWords (words x) }, answer := () } := by
  have hn : (([add] : List (Port Payload)).map (·.name)).Nodup := by decide
  rw [react, h.get hn (i := 0) rfl]
  rfl

theorem contract : Contract Good where
  timeAdvance h := ⟨rfl, h⟩
  output h := by
    refine ⟨rfl, fun e he => ?_, h⟩
    rw [h, List.mem_singleton.mp he]
    exact List.mem_singleton_self _
  internal h := ⟨rfl, h⟩
  confluent h hx _ := by
    rw [h] at hx
    exact ⟨congrArg Reply.fault (react_eq _ hx), h⟩
  external h _ hx _ := by
    rw [h] at hx
    exact ⟨congrArg Reply.fault (react_eq _ hx), h⟩

theorem orderFree : OrderFree Good where
  external {_ _ d} _ x y h hx hy hxy := by
    rw [h] at hx hy
    have hsum : sumWords (words x) = sumWords (words y) := sumWords_perm ((hxy 0).filterMap _)
    change d.react x = d.react y
    rw [react_eq d hx, react_eq d hy, hsum]

/-! ## A tower of doublers -/

/-- A doubler with a period in seconds. -/
def every (period : UInt64) : Doubler := ⟨⟨period, 0, Span.zero.nanos_lt⟩, 1⟩

/-- A doubler as a model. -/
def atom (id : String) (period : UInt64) : Model Payload Doubler :=
  .atomic ⟨id, ⟨[add], [out]⟩, every period⟩

/-- The input of a child. -/
def into (id : String) (child : Nat) : ChildSlot := ⟨⟨id, "add"⟩, child, 0⟩

/-- The output of a child. -/
def outOf (id : String) (child : Nat) : ChildSlot := ⟨⟨id, "out"⟩, child, 0⟩

/-- Two doublers, of which the first one feeds the second. Input reaches the
first one twice, and both send to the outside. -/
def pair : Model Payload Doubler :=
  .coupled
    { id := "pair"
      interface := ⟨[add], [out]⟩
      eic := [⟨⟨⟨"add"⟩, 0⟩, into "first" 0⟩, ⟨⟨⟨"add"⟩, 0⟩, into "first" 0⟩]
      eoc := [⟨outOf "first" 0, ⟨⟨"out"⟩, 0⟩⟩, ⟨outOf "second" 1, ⟨⟨"out"⟩, 0⟩⟩]
      ic := [⟨outOf "first" 0, into "second" 1⟩] }
    [atom "first" 2, atom "second" 3]

/-- **A pair with a doubler behind it**, which also has input of its own. -/
def tower : Model Payload Doubler :=
  .coupled
    { id := "tower"
      interface := ⟨[add], [out]⟩
      eic := [⟨⟨⟨"add"⟩, 0⟩, into "pair" 0⟩, ⟨⟨⟨"add"⟩, 0⟩, into "third" 1⟩]
      eoc := [⟨outOf "third" 1, ⟨⟨"out"⟩, 0⟩⟩]
      ic := [⟨outOf "pair" 0, into "third" 1⟩] }
    [pair, atom "third" 2]

/-- A tower in which the doubler behind the pair has another period. -/
def towerWith (period : UInt64) : Model Payload Doubler :=
  match tower with
  | .coupled c _ => .coupled c [pair, atom "third" period]
  | .atomic a => .atomic a

/-- The description of a pair. -/
def pairBlueprint : Blueprint Payload Doubler where
  id := "pair"
  interface := ⟨[add], [out]⟩
  children := [atom "first" 2, atom "second" 3]
  eic := [⟨⟨"add"⟩, ⟨"first", "add"⟩⟩, ⟨⟨"add"⟩, ⟨"first", "add"⟩⟩]
  eoc := [⟨⟨"first", "out"⟩, ⟨"out"⟩⟩, ⟨⟨"second", "out"⟩, ⟨"out"⟩⟩]
  ic := [⟨⟨"first", "out"⟩, ⟨"second", "add"⟩⟩]

/-- The description of a tower. -/
def towerBlueprint : Blueprint Payload Doubler where
  id := "tower"
  interface := ⟨[add], [out]⟩
  children := [pair, atom "third" 2]
  eic := [⟨⟨"add"⟩, ⟨"pair", "add"⟩⟩, ⟨⟨"add"⟩, ⟨"third", "add"⟩⟩]
  eoc := [⟨⟨"third", "out"⟩, ⟨"out"⟩⟩]
  ic := [⟨⟨"pair", "out"⟩, ⟨"third", "add"⟩⟩]

theorem accepted_atom (id : String) (period : UInt64) : (atom id period).Accepted :=
  .atomic (show Model.ofState id (every period) = .ok (atom id period) from rfl)

theorem accepted_pair : pair.Accepted := by
  refine .coupled (b := pairBlueprint) (fun m hm => ?_) rfl
  rcases List.mem_pair.mp hm with rfl | rfl
  · exact accepted_atom _ _
  · exact accepted_atom _ _

/-- The tower was made of its description. -/
theorem accepted_tower : tower.Accepted := by
  refine .coupled (b := towerBlueprint) (fun m hm => ?_) rfl
  rcases List.mem_pair.mp hm with rfl | rfl
  · exact accepted_pair
  · exact accepted_atom _ _

theorem allGood_pair : pair.AllGood Good := by
  refine .coupled fun m hm => ?_
  rcases List.mem_pair.mp hm with rfl | rfl
  · exact .atomic rfl
  · exact .atomic rfl

theorem allGood_tower : tower.AllGood Good := by
  refine .coupled fun m hm => ?_
  rcases List.mem_pair.mp hm with rfl | rfl
  · exact allGood_pair
  · exact .atomic rfl

theorem accepted_towerWith (period : UInt64) : (towerWith period).Accepted := by
  refine .coupled (b := { towerBlueprint with children := [pair, atom "third" period] })
    (fun m hm => ?_) rfl
  rcases List.mem_pair.mp hm with rfl | rfl
  · exact accepted_pair
  · exact accepted_atom _ _

theorem allGood_towerWith (period : UInt64) : (towerWith period).AllGood Good := by
  refine .coupled fun m hm => ?_
  rcases List.mem_pair.mp hm with rfl | rfl
  · exact allGood_pair
  · exact .atomic rfl

end Doubler

end DiscreteEvent
