/-
What the phases of a step come to, in whatever order the workers take turns.

In the first and the third phase every leaf is called once. The calls touch
different leaves, so of the order nothing remains but the order of their effects on
the world (`phase_calls`). In the second phase messages are added to bags, and of the
order of turns nothing remains but an order of the routes (`phase_routes`).

Both are invariants of a single turn. What is done by now and what the scripts still
hold are together everything there is to do; what is done has been done in some
order; and everything else is as it was at the beginning.
-/
import DiscreteEvent.Proofs.Engine.Refinement
import DiscreteEvent.Proofs.Flat.Interleaving
import DiscreteEvent.Proofs.Flat.Share

set_option autoImplicit false

namespace DiscreteEvent

variable {τ σ ω : Type} [MessageType τ]

/-- All entries of a list of lists: those of one list, whatever it is, and others. -/
theorem exists_others {α : Type} {xs : List α} {xss : List (List α)} :
    ∀ {k : Nat}, xss[k]? = some xs →
      ∃ others, ∀ ys, (xss.set k ys).flatten.Perm (ys ++ others) := by
  induction xss with
  | nil => exact fun h => nomatch h
  | cons zs xss ih =>
      intro k h
      cases k with
      | zero => exact ⟨xss.flatten, fun ys => List.Perm.refl _⟩
      | succ k =>
          obtain ⟨others, h⟩ := ih h
          refine ⟨zs ++ others, fun ys => ?_⟩
          rw [List.set_cons_succ, List.flatten_cons]
          refine ((h ys).append_left zs).trans ?_
          rw [← List.append_assoc, ← List.append_assoc]
          exact List.perm_append_comm.append_right others

/-- A list of lists without the first entry of one of them. -/
theorem flatten_set_perm {α : Type} {x : α} {rest : List α} {xss : List (List α)} {k : Nat}
    (h : xss[k]? = some (x :: rest)) : xss.flatten.Perm (x :: (xss.set k rest).flatten) := by
  obtain ⟨others, hset⟩ := exists_others h
  have hall := hset (x :: rest)
  rw [set_eq_self h] at hall
  exact hall.trans ((hset rest).symm.cons x)

/-- All entries of a list, by their places. -/
theorem filterMap_getElem?_range {α : Type} (xs : List α) :
    (List.range xs.length).filterMap (xs[·]?) = xs := by
  induction xs with
  | nil => rfl
  | cons x xs ih =>
      have hfirst : (x :: xs)[0]? = some x := rfl
      rw [List.length_cons, List.range_succ_eq_map, List.filterMap_cons, hfirst,
        List.filterMap_map]
      exact congrArg (x :: ·) ih

/-! ## Calls of all leaves -/

namespace LeafCall

variable [AtomicModel τ σ]

/-- What a call makes of a leaf. -/
def after : LeafCall → Leaf τ σ → Leaf τ σ
  | .init t => Leaf.started t
  | .collect t => Leaf.shown t
  | .advance t => Leaf.moved t

/-- What a call does to the world. -/
def effect : LeafCall → Leaf τ σ → Effect
  | .init t => Leaf.startEffect t
  | .collect t => Leaf.showEffect t
  | .advance t => Leaf.moveEffect t

/-- The leaves of which some have been called. -/
def afterSome (c : LeafCall) (leaves : List (Leaf τ σ)) (called : List Nat) : List (Leaf τ σ) :=
  leaves.mapIdx fun i l => if i ∈ called then c.after l else l

/-- What the call of leaf number `i` does to the world. -/
def effectAt (c : LeafCall) (leaves : List (Leaf τ σ)) (i : Nat) : Effect :=
  match leaves[i]? with
  | some l => (c.effect l).below i
  | none => {}

theorem afterSome_nil (c : LeafCall) (leaves : List (Leaf τ σ)) :
    c.afterSome leaves [] = leaves := by
  refine List.ext_getElem? fun i => ?_
  rw [afterSome, List.getElem?_mapIdx]
  cases leaves[i]? with
  | none => rfl
  | some l => rw [Option.map_some, if_neg List.not_mem_nil]

/-- All leaves have been called. -/
theorem afterSome_perm (c : LeafCall) {leaves : List (Leaf τ σ)} {called : List Nat}
    (h : called.Perm (List.range leaves.length)) :
    c.afterSome leaves called = leaves.map c.after := by
  refine List.ext_getElem? fun i => ?_
  rw [afterSome, List.getElem?_mapIdx, List.getElem?_map]
  cases hl : leaves[i]? with
  | none => rfl
  | some l =>
      have hlt := (List.getElem?_eq_some_iff.mp hl).1
      rw [Option.map_some, Option.map_some, if_pos (h.mem_iff.mpr (List.mem_range.mpr hlt))]

/-- One more leaf is called. -/
theorem afterSome_concat (c : LeafCall) {leaves : List (Leaf τ σ)} {called : List Nat} {i : Nat}
    {l : Leaf τ σ} (hl : leaves[i]? = some l) :
    (c.afterSome leaves called).set i (c.after l) = c.afterSome leaves (called ++ [i]) := by
  refine List.ext_getElem? fun j => ?_
  have hlt := (List.getElem?_eq_some_iff.mp hl).1
  rw [List.getElem?_set, afterSome, afterSome, List.getElem?_mapIdx, List.getElem?_mapIdx,
    List.length_mapIdx]
  by_cases hij : i = j
  · subst hij
    rw [if_pos rfl, if_pos hlt, hl, Option.map_some, if_pos (by simp)]
  · rw [if_neg hij]
    cases leaves[j]? with
    | none => rfl
    | some l' =>
        have hmem : j ∈ called ++ [i] ↔ j ∈ called := by
          rw [List.mem_append, List.mem_singleton]
          exact ⟨fun h => h.resolve_right fun h => hij h.symm, .inl⟩
        simp only [Option.map_some, hmem]

end LeafCall

/-- The leaf that a task calls. -/
def Task.leaf? : Task τ → Option Nat
  | .call _ i => some i
  | _ => none

/-- The leaves that the scripts still call. -/
def Floor.pending (f : Floor τ σ ω) : List Nat := f.scripts.flatten.filterMap Task.leaf?

/-- **What remains of a script** that calls some leaves and may make a note then,
when the leaves in `called` have been called. -/
inductive Remaining (c : LeafCall) (tail : List (Task τ)) (leaves called : List Nat) :
    List (Task τ) → Prop
  | whole : Remaining c tail leaves called (.enter :: (leaves.map (.call c) ++ tail))
  | part {rest : List Nat} (h : ∀ i ∈ leaves, i ∈ called ∨ i ∈ rest) :
      Remaining c tail leaves called (rest.map (.call c) ++ tail)
  | nothing (h : ∀ i ∈ leaves, i ∈ called) : Remaining c tail leaves called []

theorem Remaining.mono {c : LeafCall} {tail : List (Task τ)} {leaves called called' : List Nat}
    {script : List (Task τ)} (h : Remaining c tail leaves called script)
    (hc : ∀ i ∈ called, i ∈ called') : Remaining c tail leaves called' script := by
  cases h with
  | whole => exact .whole
  | part h => exact .part fun i hi => (h i hi).imp_left (hc i)
  | nothing h => exact .nothing fun i hi => hc i (h i hi)

/-- **The next task** of a script, and what remains after it. -/
theorem Remaining.next {c : LeafCall} {tail : List (Task τ)} {leaves called : List Nat}
    {task : Task τ} {rest : List (Task τ)} (h : Remaining c tail leaves called (task :: rest))
    (htail : tail = [] ∨ tail = [.note leaves]) :
    (task = .enter ∧ rest = leaves.map (.call c) ++ tail) ∨
      (∃ (i : Nat) (js : List Nat), task = .call c i ∧ rest = js.map (.call c) ++ tail ∧
        ∀ j ∈ leaves, j ∈ called ∨ j = i ∨ j ∈ js) ∨
      (task = .note leaves ∧ rest = [] ∧ ∀ i ∈ leaves, i ∈ called) := by
  generalize hscript : task :: rest = script at h
  cases h with
  | whole =>
      cases hscript
      exact .inl ⟨rfl, rfl⟩
  | @part js h =>
      cases js with
      | nil =>
          rcases htail with htail | htail
          · rw [htail] at hscript
            cases hscript
          · rw [htail] at hscript
            cases hscript
            exact .inr (.inr ⟨rfl, rfl, fun i hi => (h i hi).resolve_right List.not_mem_nil⟩)
      | cons i js =>
          cases hscript
          exact .inr (.inl ⟨i, js, rfl, rfl, fun j hj => by
            rw [← List.mem_cons]
            exact h j hj⟩)
  | nothing => cases hscript

namespace Shift

variable [AtomicModel τ σ] [Observer ω]

/-- **In the middle of a phase** in which every leaf is called once. The leaves in
`called` have been called, in this order; worker number `k` has the leaves `items k`,
and does `tail k` when they have been called. -/
structure Calling (c : LeafCall) (items : Nat → List Nat) (tail : Nat → List (Task τ))
    (s : Shift τ σ ω) (called : List Nat) (f : Floor τ σ ω) : Prop where
  crew : f.shift.crew = { s.crew with leaves := c.afterSome s.crew.leaves called }
  world : f.shift.world = s.world.after (.all (called.map (c.effectAt s.crew.leaves)))
  failure : f.shift.failure = s.failure
  length_minima : f.shift.minima.length = s.minima.length
  perm : (called ++ f.pending).Perm (List.range s.crew.leaves.length)
  remaining : ∀ (k : Nat) (script : List (Task τ)), f.scripts[k]? = some script →
    Remaining c (tail k) (items k) called script
  noted : ∀ k, f.scripts[k]? = some [] → tail k ≠ [] → k < s.minima.length →
    f.shift.minima[k]?
      = some (earliestOf { s.crew with leaves := s.crew.leaves.map c.after } (items k))

variable {c : LeafCall} {items : Nat → List Nat} {tail : Nat → List (Task τ)}
  {s : Shift τ σ ω} {called : List Nat} {f : Floor τ σ ω}

/-- The earliest next event among leaves that have been called. -/
theorem earliestOf_afterSome (crew : Crew τ σ) {places : List Nat}
    (h : ∀ i ∈ places, i ∈ called) :
    earliestOf { crew with leaves := c.afterSome crew.leaves called } places
      = earliestOf { crew with leaves := crew.leaves.map c.after } places := by
  rw [earliestOf, earliestOf]
  congr 2
  refine List.filterMap_congr fun i hi => ?_
  rw [LeafCall.afterSome, List.getElem?_mapIdx, List.getElem?_map]
  cases crew.leaves[i]? with
  | none => rfl
  | some l => rw [Option.map_some, Option.map_some, if_pos (h i hi)]

/-- **After a turn of worker `k`**, which did its first task and left `s'`. What has been
called by now is `called'`, and nothing was noted but by worker `k`. -/
theorem Calling.next (h : Calling c items tail s called f) {k : Nat} {task : Task τ}
    {rest : List (Task τ)} (hk : f.scripts[k]? = some (task :: rest)) {called' : List Nat}
    {s' : Shift τ σ ω} (hcalled : called' = called ++ (task.leaf?).toList)
    (hcrew : s'.crew = { s.crew with leaves := c.afterSome s.crew.leaves called' })
    (hworld : s'.world = s.world.after (.all (called'.map (c.effectAt s.crew.leaves))))
    (hfailure : s'.failure = s.failure) (hlength : s'.minima.length = s.minima.length)
    (hrest : Remaining c (tail k) (items k) called' rest)
    (hother : ∀ j, k ≠ j → s'.minima[j]? = f.shift.minima[j]?)
    (hnoted : rest = [] → tail k ≠ [] → k < s.minima.length → s'.minima[k]?
      = some (earliestOf { s.crew with leaves := s.crew.leaves.map c.after } (items k))) :
    Calling c items tail s called' ⟨s', f.scripts.set k rest⟩ := by
  have hlt := (List.getElem?_eq_some_iff.mp hk).1
  refine ⟨hcrew, hworld, hfailure, hlength, ?_, fun j script hj => ?_, fun j hj htail hj' => ?_⟩
  · have hpending := (flatten_set_perm hk).filterMap Task.leaf?
    refine List.Perm.trans ?_ h.perm
    rw [hcalled, List.append_assoc]
    refine List.Perm.append_left called (List.Perm.trans ?_ hpending.symm)
    rw [List.filterMap_cons]
    cases task.leaf? <;> exact List.Perm.refl _
  · by_cases hkj : k = j
    · subst hkj
      rw [List.getElem?_set_self hlt, Option.some_inj] at hj
      exact hj ▸ hrest
    · rw [List.getElem?_set_ne hkj] at hj
      exact (h.remaining j script hj).mono fun i hi => by rw [hcalled]; simp [hi]
  · by_cases hkj : k = j
    · subst hkj
      rw [List.getElem?_set_self hlt, Option.some_inj] at hj
      exact hnoted hj htail hj'
    · rw [List.getElem?_set_ne hkj] at hj
      exact (hother j hkj).trans (h.noted j hj htail hj')

/-- A leaf whose call is pending has not been called. -/
theorem Calling.leaf (h : Calling c items tail s called f) {k i : Nat} {rest : List (Task τ)}
    (hk : f.scripts[k]? = some (.call c i :: rest)) :
    ∃ l, s.crew.leaves[i]? = some l ∧ f.shift.crew.leaves[i]? = some l := by
  have hpending : i ∈ f.pending :=
    ((flatten_set_perm hk).filterMap Task.leaf?).mem_iff.mpr (by simp [Task.leaf?])
  have hmem : i ∈ List.range s.crew.leaves.length := h.perm.mem_iff.mp (by simp [hpending])
  have hnot : i ∉ called := by
    intro hi
    exact List.disjoint_of_nodup_append (h.perm.nodup_iff.mpr List.nodup_range) hi hpending
  refine ⟨_, List.getElem?_eq_getElem (List.mem_range.mp hmem), ?_⟩
  rw [h.crew, LeafCall.afterSome, List.getElem?_mapIdx,
    List.getElem?_eq_getElem (List.mem_range.mp hmem), Option.map_some, if_neg hnot]

/-- Only a note ends the script of a worker who makes one. -/
theorem rest_ne_nil {js : List Nat} {tail rest : List (Task τ)}
    (hrest : rest = js.map (.call c) ++ tail) (htail : tail ≠ []) : rest ≠ [] := fun hnil =>
  htail (List.append_eq_nil_iff.mp (hrest.symm.trans hnil)).2

/-- Worker `k` calls leaf number `i`, with the leaves in `js` and the tail still to do. -/
theorem Calling.call (h : Calling c items tail s called f)
    (hcall : ∀ l ∈ s.crew.leaves, ∀ w : World ω,
      c.perform l w = .done (c.after l) (w.after (c.effect l))) {k i : Nat} {js : List Nat}
    {rest : List (Task τ)} (hk : f.scripts[k]? = some (.call c i :: rest))
    (hrest : rest = js.map (.call c) ++ tail k)
    (hjs : ∀ j ∈ items k, j ∈ called ∨ j = i ∨ j ∈ js) :
    Calling c items tail s (called ++ [i]) (f.turn k) := by
  obtain ⟨l, hl, hl'⟩ := h.leaf hk
  have hturn : f.shift.turn k (.call c i :: rest)
      = ({ f.shift with
            crew := { f.shift.crew with leaves := f.shift.crew.leaves.set i (c.after l) }
            world := f.shift.world.after (c.effect l) }, rest) := by
    simp only [Shift.turn, settle, Crew.onLeaf, hl', hcall l (List.mem_of_getElem? hl)]
    rfl
  rw [Floor.turn_eq hk, hturn]
  refine h.next hk rfl ?_ ?_ h.failure h.length_minima ?_ (fun _ _ => rfl)
    fun hnil htk => absurd hnil (rest_ne_nil hrest htk)
  · rw [h.crew, c.afterSome_concat hl]
  · have heffect : c.effectAt s.crew.leaves i = (c.effect l).below i := by
      rw [LeafCall.effectAt, hl]
    rw [h.world, List.map_append, Effect.all_append, World.after_append, List.map_singleton,
      Effect.all_singleton, heffect, World.after_below]
  · rw [hrest]
    refine .part fun j hj => ?_
    rcases hjs j hj with hj | rfl | hj
    · exact .inl (List.mem_append_left _ hj)
    · exact .inl List.mem_concat_self
    · exact .inr hj

/-- **A turn in the middle of the phase.** -/
theorem Calling.turn (h : Calling c items tail s called f)
    (htail : ∀ k, tail k = [] ∨ tail k = [.note (items k)]) (hf : s.failure.isSet = false)
    (hcall : ∀ l ∈ s.crew.leaves, ∀ w : World ω,
      c.perform l w = .done (c.after l) (w.after (c.effect l))) (k : Nat) :
    ∃ called', Calling c items tail s called' (f.turn k) := by
  cases hk : f.scripts[k]? with
  | none =>
      refine ⟨called, ?_⟩
      rw [Floor.turn, hk]
      exact h
  | some script =>
      cases script with
      | nil =>
          refine ⟨called, ?_⟩
          rw [Floor.turn_eq hk, Shift.turn, set_eq_self hk]
          exact h
      | cons task rest =>
          rcases (h.remaining k _ hk).next (htail k) with
            ⟨rfl, hrest⟩ | ⟨i, js, rfl, hrest, hjs⟩ | ⟨rfl, rfl, hdone⟩
          · have hset : f.shift.failure.isSet = false := by rw [h.failure, hf]
            have hturn : f.shift.turn k (.enter :: rest) = (f.shift, rest) := by
              rw [Shift.turn, if_neg (by rw [hset]; exact Bool.false_ne_true)]
            rw [Floor.turn_eq hk, hturn]
            refine ⟨called, h.next hk (List.append_nil called).symm h.crew h.world h.failure
              h.length_minima ?_ (fun _ _ => rfl)
              fun hnil htk => absurd hnil (rest_ne_nil hrest htk)⟩
            rw [hrest]
            exact .part fun i hi => .inr hi
          · exact ⟨_, h.call hcall hk hrest hjs⟩
          · rw [Floor.turn_eq hk, Shift.turn]
            refine ⟨called, h.next hk (List.append_nil called).symm h.crew h.world h.failure
              (List.length_set.trans h.length_minima) (.nothing hdone)
              (fun j hkj => List.getElem?_set_ne hkj) fun _ _ hlt => ?_⟩
            rw [List.getElem?_set_self (by rw [h.length_minima]; exact hlt), h.crew,
              earliestOf_afterSome _ hdone]

omit [AtomicModel τ σ] [Observer ω] in
/-- The leaves that a script calls. -/
theorem filterMap_leaf (c : LeafCall) (leaves : List Nat) {tail : List (Task τ)} {note : List Nat}
    (h : tail = [] ∨ tail = [.note note]) :
    (Task.enter :: (leaves.map (.call c) ++ tail)).filterMap Task.leaf? = leaves := by
  have htail : tail.filterMap Task.leaf? = [] := by
    rcases h with rfl | rfl <;> rfl
  have hleaves : (leaves.map (.call c) : List (Task τ)).filterMap Task.leaf? = leaves := by
    rw [List.filterMap_map]
    exact List.filterMap_some
  rw [List.filterMap_cons_none rfl, List.filterMap_append, hleaves, htail, List.append_nil]

omit [AtomicModel τ σ] [Observer ω] in
/-- Everybody begins a phase with its own script. -/
theorem script_of_begin {script : Shift τ σ ω → Nat → List (Task τ)} {k : Nat}
    {tasks : List (Task τ)}
    (hk : ((List.range s.crew.workers).map (script s))[k]? = some tasks) : tasks = script s k := by
  rw [List.getElem?_map, Option.map_eq_some_iff] at hk
  obtain ⟨k', hk', rfl⟩ := hk
  obtain ⟨hlt, rfl⟩ := List.getElem?_eq_some_iff.mp hk'
  rw [List.getElem_range]

/-- Before the first turn nobody has been called. -/
theorem Calling.begin (script : Shift τ σ ω → Nat → List (Task τ))
    (hscript : ∀ k, script s k = .enter :: ((items k).map (.call c) ++ tail k))
    (htail : ∀ k, tail k = [] ∨ tail k = [.note (items k)])
    (hitems : (List.range s.crew.workers).flatMap items = List.range s.crew.leaves.length) :
    Calling c items tail s [] ⟨s, (List.range s.crew.workers).map (script s)⟩ := by
  refine ⟨by rw [c.afterSome_nil], (World.after_nothing _).symm, rfl, rfl, ?_,
    fun k script' hk => ?_, fun k hk => ?_⟩
  · rw [List.nil_append, Floor.pending, ← List.flatMap_def, List.filterMap_flatMap, ← hitems]
    refine List.Perm.of_eq (List.flatMap_congr fun k _ => ?_)
    rw [hscript, filterMap_leaf c (items k) (htail k)]
  · rw [script_of_begin hk, hscript]
    exact .whole
  · have hopen := script_of_begin hk
    rw [hscript] at hopen
    cases hopen

/-- **A phase in which every leaf is called once.** All of them have been called, in
some order, and who makes a note has noted the earliest next event of its leaves. -/
theorem phase_calls (script : Shift τ σ ω → Nat → List (Task τ)) (items : Nat → List Nat)
    (tail : Nat → List (Task τ))
    (hscript : ∀ k, script s k = .enter :: ((items k).map (.call c) ++ tail k))
    (htail : ∀ k, tail k = [] ∨ tail k = [.note (items k)])
    (hitems : (List.range s.crew.workers).flatMap items = List.range s.crew.leaves.length)
    (hf : s.failure.isSet = false)
    (hcall : ∀ l ∈ s.crew.leaves, ∀ w : World ω,
      c.perform l w = .done (c.after l) (w.after (c.effect l))) (turns : List Nat) :
    ∃ (order : List Nat) (minima : List Instant), order.Perm (List.range s.crew.leaves.length) ∧
      s.phase script turns
        = { s with
            crew := { s.crew with leaves := s.crew.leaves.map c.after }
            world := s.world.after (.all (order.map (c.effectAt s.crew.leaves)))
            minima := minima } ∧
      minima.length = s.minima.length ∧
      ∀ k < s.crew.workers, k < s.minima.length → tail k ≠ [] → minima[k]?
        = some (earliestOf { s.crew with leaves := s.crew.leaves.map c.after } (items k)) := by
  obtain ⟨f, ⟨order, h⟩, hempty, hlength, hphase⟩ := exists_phase_eq _ turns
    (P := fun f => ∃ called, Calling c items tail s called f)
    ⟨[], .begin script hscript htail hitems⟩
    fun f k ⟨called, h⟩ => h.turn htail hf hcall k
  have hpending : f.pending = [] := by
    rw [Floor.pending, List.flatten_eq_nil_iff.mpr hempty]
    rfl
  have horder : order.Perm (List.range s.crew.leaves.length) := by
    have hperm := h.perm
    rw [hpending, List.append_nil] at hperm
    exact hperm
  refine ⟨order, f.shift.minima, horder, ?_, h.length_minima, fun k hk hk' htk => ?_⟩
  · have hcrew := h.crew
    rw [c.afterSome_perm horder] at hcrew
    rw [hphase, ← hcrew, ← h.world, ← h.failure]
  · refine h.noted k ?_ htk hk'
    have hget := List.getElem?_eq_getElem (hlength ▸ hk : k < f.scripts.length)
    rw [hget, hempty _ (List.getElem_mem _)]

end Shift

/-! ## Messages along all routes -/

namespace Crew

/-- What a route takes from its beginning. -/
def load (c : Crew τ σ) (source : RouteSource) : List (Message τ) :=
  match c.sourceBag source with
  | some bag => bag.messages
  | none => []

/-- The crew after the messages of some routes have been added at their ends. -/
def deposited (c : Crew τ σ) (routes : List Route) : Crew τ σ :=
  routes.foldl (fun c' r => c'.deposit r.target (c.load r.source)) c

/-- **Every route can be followed**: both of its ends are there, for messages of one type. -/
def Connected (c : Crew τ σ) : Prop :=
  ∀ r ∈ c.routes, ∃ x y, c.sourceBag r.source = some x ∧ c.targetBag r.target = some y ∧
    x.port.type = y.port.type

/-- What is taken from the beginning of a route is not changed by deposits. -/
@[simp] theorem sourceBag_deposit (c : Crew τ σ) (target : RouteTarget)
    (messages : List (Message τ)) (source : RouteSource) :
    (c.deposit target messages).sourceBag source = c.sourceBag source := by
  cases target with
  | rootOutput p => rfl
  | leaf p =>
      cases source with
      | rootInput q => rfl
      | leaf q =>
          simp only [sourceBag, deposit, List.getElem?_modify]
          cases c.leaves[q.leaf]? with
          | none => rfl
          | some l =>
              simp only [Option.bind_some]
              split <;> rfl

/-- Deposits leave every bag at its port. -/
theorem port_targetBag_deposit (c : Crew τ σ) (target target' : RouteTarget)
    (messages : List (Message τ)) :
    ((c.deposit target messages).targetBag target').map (·.port)
      = (c.targetBag target').map (·.port) := by
  have happend : ∀ (b : Bags τ) (i j : Nat), ((b.append i messages).list[j]?).map (·.port)
      = (b.list[j]?).map (·.port) := by
    intro b i j
    rw [Bags.append, List.getElem?_modify]
    cases b.list[j]? with
    | none => rfl
    | some bag =>
        simp only [Option.map_some]
        split <;> rfl
  cases target with
  | rootOutput p =>
      cases target' with
      | leaf q => rfl
      | rootOutput q => exact happend c.outbox p q
  | leaf p =>
      cases target' with
      | rootOutput q => rfl
      | leaf q =>
          simp only [targetBag, deposit, List.getElem?_modify]
          cases c.leaves[q.leaf]? with
          | none => rfl
          | some l =>
              simp only [Option.bind_some]
              split
              · exact happend l.inbox p.port q.port
              · rfl

theorem deposited_concat (c : Crew τ σ) (routes : List Route) (r : Route) :
    c.deposited (routes ++ [r]) = (c.deposited routes).deposit r.target (c.load r.source) :=
  List.foldl_concat _ _ _ _

/-- What deposits keep. -/
theorem deposited_induction {P : Crew τ σ → Prop} (c : Crew τ σ)
    (hdeposit : ∀ c' target messages, P c' → P (c'.deposit target messages)) (h : P c)
    (routes : List Route) : P (c.deposited routes) := by
  induction routes using List.reverseRecOn with
  | nil => exact h
  | append_singleton routes r ih =>
      rw [deposited_concat]
      exact hdeposit _ _ _ ih

/-- A route can be followed whatever has been deposited by then. -/
theorem Connected.transfer {c : Crew τ σ} (h : c.Connected) {r : Route} (hr : r ∈ c.routes)
    (routes : List Route) :
    DiscreteEvent.transfer (c.sourceBag r.source) ((c.deposited routes).targetBag r.target)
      = .ok (c.load r.source) := by
  obtain ⟨x, y, hx, hy, htype⟩ := h r hr
  have hport := c.deposited_induction
    (P := fun c' => (c'.targetBag r.target).map (·.port) = (c.targetBag r.target).map (·.port))
    (fun c' target messages h => (port_targetBag_deposit c' target r.target messages).trans h) rfl
    routes
  rw [hy, Option.map_some, Option.map_eq_some_iff] at hport
  obtain ⟨y', hy', hport⟩ := hport
  rw [hx, hy', DiscreteEvent.transfer, hport, if_pos htype, load, hx]

end Crew

/-- The route that a task belongs to. -/
def Task.route? : Task τ → Option Route
  | .fetch r => some r
  | .deliver r _ => some r
  | _ => none

/-- The routes that the scripts still follow. -/
def Floor.undelivered (f : Floor τ σ ω) : List Route := f.scripts.flatten.filterMap Task.route?

namespace Shift

/-- The tasks of the second phase. Whoever holds a copy took it from the beginning of
the route as it still is. -/
inductive RouteTask (c : Crew τ σ) : Task τ → Prop
  | enter : RouteTask c .enter
  | fetch (r : Route) : RouteTask c (.fetch r)
  | deliver (r : Route) : RouteTask c (.deliver r (c.sourceBag r.source))

/-- **In the middle of the second phase.** The messages of the routes in `routed` have
been delivered, in this order. -/
structure Routing (s : Shift τ σ ω) (routed : List Route) (f : Floor τ σ ω) : Prop where
  shift : f.shift = { s with crew := s.crew.deposited routed }
  perm : (routed ++ f.undelivered).Perm s.crew.routes
  tasks : ∀ script ∈ f.scripts, ∀ task ∈ script, RouteTask s.crew task

variable [AtomicModel τ σ] [Observer ω] {s : Shift τ σ ω} {routed : List Route}
  {f : Floor τ σ ω}

omit [AtomicModel τ σ] [Observer ω] in
/-- **After a turn of worker `k`**, in which its first task became `news`. -/
theorem Routing.next (h : Routing s routed f) {k : Nat} {task : Task τ} {rest : List (Task τ)}
    (news : List (Task τ)) (hk : f.scripts[k]? = some (task :: rest)) {routed' : List Route}
    (hperm : (routed' ++ news.filterMap Task.route?).Perm (routed ++ (task.route?).toList))
    (hnews : ∀ task ∈ news, RouteTask s.crew task) :
    Routing s routed' ⟨{ s with crew := s.crew.deposited routed' },
      f.scripts.set k (news ++ rest)⟩ := by
  have hlt := (List.getElem?_eq_some_iff.mp hk).1
  refine ⟨rfl, List.Perm.trans ?_ h.perm, fun script hs => ?_⟩
  · obtain ⟨others, hset⟩ := exists_others hk
    have hbefore := (hset (task :: rest)).filterMap Task.route?
    have hafter := (hset (news ++ rest)).filterMap Task.route?
    rw [set_eq_self hk, ← List.singleton_append, List.append_assoc, List.filterMap_append]
      at hbefore
    rw [List.append_assoc, List.filterMap_append] at hafter
    have htask : [task].filterMap Task.route? = (task.route?).toList := by
      rw [List.filterMap_cons]
      cases task.route? <;> rfl
    rw [htask] at hbefore
    refine (hafter.append_left routed').trans (List.Perm.trans ?_ (hbefore.append_left routed).symm)
    rw [← List.append_assoc, ← List.append_assoc]
    exact hperm.append_right _
  · rcases List.mem_or_eq_of_mem_set hs with hs | rfl
    · exact h.tasks script hs
    · intro task' ht
      rcases List.mem_append.mp ht with ht | ht
      · exact hnews task' ht
      · exact h.tasks _ (List.mem_of_getElem? hk) task' (by simp [ht])

/-- **A turn in the middle of the phase.** -/
theorem Routing.turn (h : Routing s routed f) (hf : s.failure.isSet = false)
    (hc : s.crew.Connected) (k : Nat) : ∃ routed', Routing s routed' (f.turn k) := by
  cases hk : f.scripts[k]? with
  | none =>
      refine ⟨routed, ?_⟩
      rw [Floor.turn, hk]
      exact h
  | some script =>
      rw [Floor.turn_eq hk]
      cases script with
      | nil =>
          refine ⟨routed, ?_⟩
          rw [Shift.turn, set_eq_self hk]
          exact h
      | cons task rest =>
          have htask := h.tasks _ (List.mem_of_getElem? hk) task (by simp)
          rw [h.shift]
          cases htask with
          | enter =>
              refine ⟨routed, ?_⟩
              simp only [Shift.turn, hf, Bool.false_eq_true, if_false]
              exact h.next [] hk (List.Perm.refl _) fun _ ht => absurd ht List.not_mem_nil
          | fetch r =>
              -- No deposit touches the beginning of a route, so the copy may be taken at any time.
              have hsource : (s.crew.deposited routed).sourceBag r.source
                  = s.crew.sourceBag r.source :=
                s.crew.deposited_induction (P := fun c => c.sourceBag r.source = _)
                  (fun c target messages hc => (c.sourceBag_deposit _ _ _).trans hc) rfl routed
              refine ⟨routed, ?_⟩
              simp only [Shift.turn, hsource]
              refine h.next [.deliver r (s.crew.sourceBag r.source)] hk
                (List.Perm.refl _) fun task ht => ?_
              rw [List.mem_singleton.mp ht]
              exact .deliver r
          | deliver r =>
              -- A script follows only routes of the crew, and these can be followed.
              have hr : r ∈ s.crew.routes := by
                refine h.perm.mem_iff.mp (List.mem_append_right _ ?_)
                exact List.mem_filterMap.mpr ⟨_, List.mem_flatten.mpr
                  ⟨_, List.mem_of_getElem? hk, List.mem_cons_self⟩, rfl⟩
              refine ⟨routed ++ [r], ?_⟩
              simp only [Shift.turn, hc.transfer hr, settle, Outcome.done]
              rw [← s.crew.deposited_concat]
              exact h.next [] hk (by rw [List.filterMap_nil, List.append_nil]; rfl)
                fun _ ht => absurd ht List.not_mem_nil

omit [AtomicModel τ σ] [Observer ω] in
/-- The routes of all workers are all routes. -/
theorem flatMap_routesOf (s : Shift τ σ ω) (hw : 0 < s.crew.workers) :
    (List.range s.crew.workers).flatMap s.routesOf = s.crew.routes := by
  have hroutes : s.routesOf = fun k =>
      (Share.items s.crew.routes.length s.crew.workers k).filterMap (s.crew.routes[·]?) := rfl
  rw [hroutes, ← List.filterMap_flatMap, Share.flatMap_items hw, filterMap_getElem?_range]

/-- **The second phase.** The messages of all routes have been delivered, in some order. -/
theorem phase_routes (hf : s.failure.isSet = false) (hc : s.crew.Connected)
    (hw : 0 < s.crew.workers) (turns : List Nat) :
    ∃ order : List Route, order.Perm s.crew.routes ∧
      s.phase routeScript turns = { s with crew := s.crew.deposited order } := by
  have hbegin : Routing s [] ⟨s, (List.range s.crew.workers).map s.routeScript⟩ := by
    refine ⟨rfl, ?_, fun script hs task ht => ?_⟩
    · rw [List.nil_append, Floor.undelivered, ← List.flatMap_def, List.filterMap_flatMap]
      refine List.Perm.of_eq (Eq.trans ?_ (s.flatMap_routesOf hw))
      refine List.flatMap_congr fun k _ => ?_
      rw [routeScript, List.filterMap_cons_none rfl, List.filterMap_map]
      exact List.filterMap_some
    · obtain ⟨k, -, rfl⟩ := List.mem_map.mp hs
      rcases List.mem_cons.mp ht with rfl | ht
      · exact .enter
      · obtain ⟨r, -, rfl⟩ := List.mem_map.mp ht
        exact .fetch r
  obtain ⟨f, ⟨order, h⟩, hempty, -, hphase⟩ := exists_phase_eq _ turns
    (P := fun f => ∃ routed, Routing s routed f) ⟨[], hbegin⟩
    fun f k h => h.elim fun _ h => h.turn hf hc k
  have hperm := h.perm
  rw [Floor.undelivered, List.flatten_eq_nil_iff.mpr hempty, List.filterMap_nil,
    List.append_nil] at hperm
  exact ⟨order, hperm, hphase.trans h.shift⟩

end Shift

end DiscreteEvent
