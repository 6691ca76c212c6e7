/-
What a call does to the world.

A call reports to the observer, record by record, and it may ask for the run to
be interrupted. Both are its `Effect`, a value that does not depend on the world
it comes about in. `World.after` says what becomes of a world by an effect, and
`after_append` that effects may be taken one after the other.

A record names its engine by a path, which two engines can share when ids
contain dots. So every record of an effect is a `Note` with the address of the
engine it comes from: the places of the children on the way down from the root.
-/
import DiscreteEvent.Proofs.Engine.Traversal
import DiscreteEvent.Proofs.Model.Contract

set_option autoImplicit false

namespace DiscreteEvent

/-- A record with the address of the engine that made it. -/
structure Note where
  address : List Nat
  record : Record

/-- **What a call does to the world.** -/
structure Effect where
  notes : List Note := []
  /-- Whether some model asked for an interruption. -/
  interrupts : Bool := false

namespace Effect

instance : Append Effect := ⟨fun x y => ⟨x.notes ++ y.notes, x.interrupts || y.interrupts⟩⟩

/-- The call of a model. -/
def ofReply {σ α : Type} (r : Reply σ α) : Effect := { interrupts := r.interrupts }

/-- A report of the engine itself. -/
def ofRecord (r : Record) : Effect := { notes := [⟨[], r⟩] }

/-- The effect of child number `i`, seen from its parent. -/
def below (i : Nat) (x : Effect) : Effect :=
  { x with notes := x.notes.map fun n => { n with address := i :: n.address } }

/-- The effects of several children, the first of which is number `i`. -/
def each {ε : Type} (x : Nat → ε → Effect) : Nat → List ε → Effect
  | _, [] => {}
  | i, e :: es => (x i e).below i ++ each x (i + 1) es

/-- Effects one after the other. -/
def all (xs : List Effect) : Effect := xs.foldr (· ++ ·) {}

/-- **The records of one engine**, in the order in which it made them. -/
def recordsAt (x : Effect) (address : List Nat) : List Record :=
  (x.notes.filter (·.address == address)).map (·.record)

@[simp] theorem notes_append (x y : Effect) : (x ++ y).notes = x.notes ++ y.notes := rfl

@[simp] theorem interrupts_append (x y : Effect) :
    (x ++ y).interrupts = (x.interrupts || y.interrupts) := rfl

@[simp] theorem nothing_append (x : Effect) : {} ++ x = x := rfl

@[simp] theorem append_nothing (x : Effect) : x ++ {} = x := by
  show Effect.mk (x.notes ++ []) (x.interrupts || false) = x
  rw [List.append_nil, Bool.or_false]

theorem append_assoc (x y z : Effect) : x ++ y ++ z = x ++ (y ++ z) := by
  show Effect.mk _ _ = Effect.mk _ _
  rw [notes_append, interrupts_append, List.append_assoc, Bool.or_assoc]
  rfl

/-! ### Records of one engine -/

@[simp] theorem recordsAt_nothing (a : List Nat) : ({} : Effect).recordsAt a = [] := rfl

@[simp] theorem recordsAt_append (x y : Effect) (a : List Nat) :
    (x ++ y).recordsAt a = x.recordsAt a ++ y.recordsAt a := by
  rw [recordsAt, notes_append, List.filter_append, List.map_append, recordsAt, recordsAt]

@[simp] theorem recordsAt_ofReply {σ α : Type} (r : Reply σ α) (a : List Nat) :
    (ofReply r).recordsAt a = [] := rfl

@[simp] theorem recordsAt_ofRecord_nil (r : Record) : (ofRecord r).recordsAt [] = [r] := rfl

@[simp] theorem recordsAt_ofRecord_cons (r : Record) (i : Nat) (a : List Nat) :
    (ofRecord r).recordsAt (i :: a) = [] := rfl

@[simp] theorem recordsAt_below_nil (i : Nat) (x : Effect) : (x.below i).recordsAt [] = [] := by
  rw [recordsAt, below, List.filter_map, List.map_map, List.map_eq_nil_iff,
    List.filter_eq_nil_iff]
  exact fun n _ => by simp

/-- The records of child number `i` are at addresses that begin with `i`. -/
theorem recordsAt_below_cons (i j : Nat) (a : List Nat) (x : Effect) :
    (x.below i).recordsAt (j :: a) = if i = j then x.recordsAt a else [] := by
  rw [recordsAt, below, List.filter_map, List.map_map]
  by_cases hij : i = j
  · rw [if_pos hij, recordsAt]
    congr 1
    refine List.filter_congr fun n _ => ?_
    simp [hij]
  · rw [if_neg hij, List.map_eq_nil_iff, List.filter_eq_nil_iff]
    exact fun n _ => by simp [hij]

theorem recordsAt_each_nil {ε : Type} (x : Nat → ε → Effect) (es : List ε) (k : Nat) :
    (each x k es).recordsAt [] = [] := by
  induction es generalizing k with
  | nil => rfl
  | cons e es ih => rw [each, recordsAt_append, recordsAt_below_nil, ih, List.nil_append]

theorem recordsAt_each_of_lt {ε : Type} (x : Nat → ε → Effect) (a : List Nat) (es : List ε) :
    ∀ {k j : Nat}, j < k → (each x k es).recordsAt (j :: a) = [] := by
  induction es with
  | nil => exact fun _ => rfl
  | cons e es ih =>
      intro k j hj
      rw [each, recordsAt_append, recordsAt_below_cons, if_neg (by omega), List.nil_append]
      exact ih (by omega)

/-- The records of one of several children. -/
theorem recordsAt_each {ε : Type} {x : Nat → ε → Effect} (a : List Nat) {es : List ε} :
    ∀ {k i : Nat} {e : ε}, es[i]? = some e →
      (each x k es).recordsAt ((k + i) :: a) = (x (k + i) e).recordsAt a := by
  induction es with
  | nil => exact fun h => nomatch h
  | cons e' es ih =>
      intro k i e he
      rw [each, recordsAt_append, recordsAt_below_cons]
      cases i with
      | zero =>
          cases he
          rw [Nat.add_zero, if_pos rfl, recordsAt_each_of_lt x a es (Nat.lt_succ_self k),
            List.append_nil]
      | succ i =>
          rw [if_neg (by omega), List.nil_append, Nat.add_comm i 1, ← Nat.add_assoc]
          exact ih he

/-- Some child asked for an interruption. -/
theorem interrupts_each {ε : Type} {x : Nat → ε → Effect} {es : List ε} :
    ∀ {k : Nat}, (each x k es).interrupts = true ↔
      ∃ i e, es[i]? = some e ∧ (x (k + i) e).interrupts = true := by
  induction es with
  | nil =>
      intro k
      constructor
      · intro h
        cases h
      · rintro ⟨i, e, he, -⟩
        cases he
  | cons e es ih =>
      intro k
      rw [each, interrupts_append, Bool.or_eq_true, ih]
      constructor
      · rintro (h | ⟨i, e', he', h⟩)
        · exact ⟨0, e, rfl, h⟩
        · exact ⟨i + 1, e', he', by rw [Nat.add_comm i 1, ← Nat.add_assoc]; exact h⟩
      · rintro ⟨i, e', he', h⟩
        cases i with
        | zero =>
            cases he'
            exact .inl h
        | succ i =>
            rw [Nat.add_comm i 1, ← Nat.add_assoc] at h
            exact .inr ⟨i, e', he', h⟩

theorem all_singleton (x : Effect) : all [x] = x := append_nothing x

theorem all_append (xs ys : List Effect) : all (xs ++ ys) = all xs ++ all ys := by
  induction xs with
  | nil => rfl
  | cons x xs ih =>
      show x ++ all (xs ++ ys) = x ++ all xs ++ all ys
      rw [ih, append_assoc]

theorem recordsAt_all (xs : List Effect) (a : List Nat) :
    (all xs).recordsAt a = xs.flatMap fun x => x.recordsAt a := by
  induction xs with
  | nil => rfl
  | cons x xs ih =>
      show (x ++ all xs).recordsAt a = _
      rw [recordsAt_append, ih, List.flatMap_cons]

theorem interrupts_all (xs : List Effect) : (all xs).interrupts = xs.any (·.interrupts) := by
  induction xs with
  | nil => rfl
  | cons x xs ih =>
      show (x ++ all xs).interrupts = _
      rw [interrupts_append, ih, List.any_cons]

end Effect

/-! ## The world after an effect -/

/-- The observer is asked, and takes the record if it wants it. -/
def Observer.take {ω : Type} [Observer ω] (o : ω) (r : Record) : ω :=
  if (Observer.enabled o).1 then (Observer.observe r (Observer.enabled o).2).1
  else (Observer.enabled o).2

namespace World

variable {ω : Type} [Observer ω]

/-- **The world after an effect.** -/
def after (w : World ω) (x : Effect) : World ω where
  observer := x.notes.foldl (fun o n => Observer.take o n.record) w.observer
  interrupted := w.interrupted || x.interrupts

@[simp] theorem after_nothing (w : World ω) : w.after {} = w := by
  rw [after, Bool.or_false]
  rfl

theorem after_append (w : World ω) (x y : Effect) : w.after (x ++ y) = (w.after x).after y := by
  simp only [after, Effect.notes_append, Effect.interrupts_append, List.foldl_append,
    Bool.or_assoc]

/-- Where a record comes from makes no difference to the world. -/
@[simp] theorem after_below (w : World ω) (i : Nat) (x : Effect) :
    w.after (x.below i) = w.after x := by
  simp only [after, Effect.below, List.foldl_map]

theorem heed_eq_after {σ α : Type} (w : World ω) (r : Reply σ α) :
    w.heed r = w.after (.ofReply r) := by
  rw [heed, after, Effect.ofReply]
  cases r.interrupts with
  | true => simp only [if_true, Bool.or_true, List.foldl_nil]
  | false => simp only [Bool.false_eq_true, if_false, Bool.or_false, List.foldl_nil]

omit [Observer ω] in
/-- What client code asks for does not concern the observer. -/
theorem observer_heed {α β : Type} (w : World ω) (r : Reply α β) :
    (w.heed r).observer = w.observer := by
  unfold heed
  split <;> rfl

variable {τ σ : Type} [MessageType τ] [AtomicModel τ σ] {good : Interface τ → Stage → σ → Prop}

/-- **A report without a state** does not fault. -/
theorem report_none (ha : Attended ω good) (w : World ω) (phase : Phase) (path : String)
    (time last next : Instant) (bags : List BagRecord) :
    w.report phase path time last next none bags
      = (w.after (.ofRecord ⟨phase, path, time, last, next, none, bags⟩), none) := by
  simp only [report, after, Effect.ofRecord, Observer.take, List.foldl_cons, List.foldl_nil,
    Bool.or_false]
  cases he : Observer.enabled w.observer with
  | mk wanted o =>
      cases wanted with
      | true => simp only [ha.calm, if_true]
      | false => simp only [Bool.false_eq_true, if_false]

/-- **A report with the state of a model** does not fault, if the model is in a
good state. -/
theorem report_render (ha : Attended ω good) {i : Interface τ} {g : Stage} {s : σ}
    (hs : good i g s) (w : World ω) (phase : Phase) (path : String) (time last next : Instant)
    (bags : List BagRecord) :
    w.report phase path time last next (some (AtomicModel.render s)) bags
      = (w.after (.ofRecord ⟨phase, path, time, last, next,
          (AtomicModel.render s).toOption, bags⟩), none) := by
  simp only [report, after, Effect.ofRecord, Observer.take, List.foldl_cons, List.foldl_nil,
    Bool.or_false]
  cases he : Observer.enabled w.observer with
  | mk wanted o =>
      cases wanted with
      | true =>
          obtain ⟨text, ht⟩ := ha.legible w.observer (by rw [he]) hs
          simp only [ht, ha.calm, if_true, Except.toOption]
      | false => simp only [Bool.false_eq_true, if_false]

end World

/-! ## Walks whose result is known -/

namespace Outcome

variable {ε ω : Type} [Observer ω]

/-- **A walk over children none of which stops.** Every child becomes what its
own call makes of it, and the effects come one after the other. -/
theorem each_eq_done {call : Nat → ε → World ω → Outcome ε ω} {rest : Nat → List ε → List ε}
    {f : Nat → ε → ε} {x : Nat → ε → Effect} {es : List ε} :
    ∀ {i : Nat} {w : World ω},
      (∀ j e, es[j]? = some e → ∀ w, call (i + j) e w = done (f (i + j) e) (w.after (x (i + j) e))) →
      each call rest i es w
        = done (es.mapIdx fun j => f (i + j)) (w.after (Effect.each x i es)) := by
  induction es with
  | nil =>
      intro i w _
      rw [each, Effect.each, World.after_nothing, List.mapIdx_nil]
  | cons e es ih =>
      intro i w h
      have hfirst := h 0 e rfl w
      have hrest := ih (i := i + 1) (w := w.after (x i e)) fun j e he w => by
        have hj := h (j + 1) e he w
        rw [← Nat.add_assoc, Nat.add_right_comm] at hj
        exact hj
      rw [Nat.add_zero] at hfirst
      simp only [each, hfirst, done] at hrest ⊢
      rw [hrest, map, Effect.each, World.after_append, World.after_below, List.mapIdx_cons]
      simp only [Nat.add_zero, Nat.add_assoc, Nat.add_comm 1]

end Outcome

end DiscreteEvent
