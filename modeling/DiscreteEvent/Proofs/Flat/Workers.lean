/-
The run of a crew, done by workers who meet at a barrier.

`Crew.runOn` tells what a run of a crew does phase by phase, as if nobody could be early or
late. Here it is shown to be what workers do who follow their loop and know each other only
by the barrier, the cell and the record of failures: `Crew.trade` puts the tasks of a crew
and the decisions of a supervisor between the barriers, and every run of the crew, in any
order of turns, is a run of such workers until all of them have left
(`Shift.reaches_proceeded`). So what holds for all runs of workers holds for it.

A turn of a phase is one or two moves of a worker. Between two phases all workers arrive at
the gate one after the other, the last one opens it, and they go on in the same order.

`workers_in_step` is the result for all workers: nobody waits for ever, all pass the same
number of barriers, after a failure nothing is begun, and what is told at the end is the first
fault or the first refusal.
-/
import DiscreteEvent.Proofs.Components.Doubler
import DiscreteEvent.Proofs.Flat.Driven
import DiscreteEvent.Proofs.Flat.Failing
import DiscreteEvent.Proofs.Flat.Interleaving

set_option autoImplicit false

namespace DiscreteEvent

/-! ## Several moves -/

section

variable {δ κ : Type} {trade : Trade δ κ} {h h' h'' : Hall δ κ}

/-- **Some number of moves** leads from one hall to another. -/
def Reaches (trade : Trade δ κ) (h h' : Hall δ κ) : Prop := ∃ deeds, Moves trade h deeds h'

theorem Reaches.refl (trade : Trade δ κ) (h : Hall δ κ) : Reaches trade h h := ⟨[], .begin⟩

theorem Reaches.trans (before : Reaches trade h h') (after : Reaches trade h' h'') :
    Reaches trade h h'' := by
  obtain ⟨deeds', hafter⟩ := after
  induction hafter with
  | begin => exact before
  | move _ last ih =>
      obtain ⟨deeds, hmoves⟩ := ih
      exact ⟨_, .move hmoves last⟩

/-- `n` workers, each told by its number. -/
def Hall.of (s : Site δ) (n : Nat) (f : Nat → Worker κ) : Hall δ κ := ⟨s, (List.range n).map f⟩

/-- `n` workers who have passed as many barriers, and have read the same time. -/
def Hall.row (s : Site δ) (n p : Nat) (t : Instant) (point : Nat → Point κ) : Hall δ κ :=
  .of s n fun k => ⟨point k, p, t⟩

variable {n k : Nat} {s s' : Site δ} {f : Nat → Worker κ} {w' : Worker κ} {deed : Option Deed}

/-- One worker makes a move. -/
theorem Reaches.act (hk : k < n) (ha : Act trade n k s (f k) deed s' w') :
    Reaches trade (.of s n f) (.of s' n (Function.update f k w')) := by
  have hlength : ((List.range n).map f).length = n := by rw [List.length_map, List.length_range]
  have hget : ((List.range n).map f)[k]? = some (f k) := by
    rw [List.getElem?_map, List.getElem?_range hk, Option.map_some]
  have hset : ((List.range n).map f).set k w' = (List.range n).map (Function.update f k w') := by
    refine List.ext_getElem? fun j => ?_
    by_cases hjk : k = j
    · subst hjk
      rw [List.getElem?_set_self (hlength.symm ▸ hk), List.getElem?_map, List.getElem?_range hk,
        Option.map_some, Function.update_self]
    · rw [List.getElem?_set_ne hjk, List.getElem?_map, List.getElem?_map]
      cases hj : (List.range n)[j]? with
      | none => rfl
      | some i =>
          obtain ⟨_, hi⟩ := List.getElem?_eq_some_iff.mp hj
          rw [List.getElem_range] at hi
          subst hi
          rw [Option.map_some, Option.map_some, Function.update_of_ne (Ne.symm hjk)]
  have hmove : Move trade (.of s n f) deed ⟨s', ((List.range n).map f).set k w'⟩ :=
    .act hget (hlength.symm ▸ ha)
  rw [hset] at hmove
  exact ⟨_, .move .begin hmove⟩

/-- Workers beyond the last one do not matter. -/
theorem Reaches.congr {g : Nat → Worker κ} (hr : Reaches trade h (.of s n f))
    (hfg : ∀ k, k < n → f k = g k) : Reaches trade h (.of s n g) := by
  have hsame : Hall.of s n f = .of s n g :=
    congrArg (Hall.mk s) (List.map_congr_left fun k hk => hfg k (List.mem_range.mp hk))
  exact hsame ▸ hr

/-- The first `m` workers make a move each, one after the other. -/
theorem Reaches.sweep (site : Nat → Site δ) (g : Nat → Worker κ) {m : Nat} (hm : m ≤ n)
    (ha : ∀ i, i < m → Act trade n i (site i) (f i) none (site (i + 1)) (g i)) :
    Reaches trade (.of (site 0) n f) (.of (site m) n fun k => if k < m then g k else f k) := by
  induction m with
  | zero => exact .refl _ _
  | succ m ih =>
      refine (ih (Nat.le_of_succ_le hm) fun i hi => ha i (Nat.lt_succ_of_lt hi)).trans ?_
      have hlast : Act trade n m (site m) (if m < m then g m else f m) none (site (m + 1))
          (g m) := by
        rw [if_neg (Nat.lt_irrefl m)]
        exact ha m (Nat.lt_succ_self m)
      have hstep := Reaches.act (f := fun k => if k < m then g k else f k) hm hlast
      have hsame : Function.update (fun k => if k < m then g k else f k) m (g m)
          = fun k => if k < m + 1 then g k else f k := by
        funext k
        by_cases hk : k = m
        · subst hk
          rw [Function.update_self, if_pos (Nat.lt_succ_self k)]
        · rw [Function.update_of_ne hk]
          by_cases hlt : k < m
          · rw [if_pos hlt, if_pos (Nat.lt_succ_of_lt hlt)]
          · rw [if_neg hlt, if_neg (by omega)]
      exact hsame ▸ hstep

/-- All workers make a move each, away from the barrier. -/
theorem Reaches.all {g : Nat → Worker κ} (ha : ∀ i, i < n → Act trade n i s (f i) none s (g i)) :
    Reaches trade (.of s n f) (.of s n g) :=
  (Reaches.sweep (fun _ => s) g (Nat.le_refl n) ha).congr fun _ hk => if_pos hk

/-! ## The barrier -/

variable {d : δ} {c : Option Instant} {failure : Failure} {p : Nat} {t : Instant}

/-- The first `m` workers wait at a gate, and the others are as `f` says. -/
def waiting (gate : Gate) (p : Nat) (t : Instant) (m : Nat) (f : Nat → Worker κ) (k : Nat) :
    Worker κ :=
  if k < m then ⟨.wait gate p, p, t⟩ else f k

/-- The last worker arrives while all others are waiting. -/
theorem Reaches.meet (trade : Trade δ κ) (gate : Gate) (m : Nat) :
    Reaches trade
      (.of ⟨d, c, failure, m, p⟩ (m + 1) (waiting gate p t m fun _ => ⟨.arrive gate, p, t⟩))
      (.of ⟨d, c, failure, 0, p + 1⟩ (m + 1)
        (waiting gate p t m fun k => ⟨gate.next k, p + 1, t⟩)) := by
  have hlast : Act trade (m + 1) m ⟨d, c, failure, m, p⟩
      (waiting gate p t m (fun _ => ⟨.arrive gate, p, t⟩) m) none ⟨d, c, failure, 0, p + 1⟩
      ⟨gate.next m, p + 1, t⟩ := by
    rw [waiting, if_neg (Nat.lt_irrefl m)]
    exact .meet rfl
  refine (Reaches.act (Nat.lt_succ_self m) hlast).congr fun k hk => ?_
  by_cases hkm : k = m
  · subst hkm
    rw [Function.update_self, waiting, if_neg (Nat.lt_irrefl k)]
  · have hlt : k < m := by omega
    rw [Function.update_of_ne hkm, waiting, waiting, if_pos hlt, if_pos hlt]

/-- **All workers pass a gate**: all but the last arrive and wait, the last one opens it, and
the others go on. -/
theorem Reaches.pass (trade : Trade δ κ) (hn : 0 < n) (gate : Gate) :
    Reaches trade (.row ⟨d, c, failure, 0, p⟩ n p t fun _ => .arrive gate)
      (.row ⟨d, c, failure, 0, p + 1⟩ n (p + 1) t gate.next) := by
  obtain ⟨m, rfl⟩ := Nat.exists_eq_succ_of_ne_zero (Nat.ne_of_gt hn)
  have harrive : Reaches trade (.row ⟨d, c, failure, 0, p⟩ (m + 1) p t fun _ => .arrive gate)
      (.of ⟨d, c, failure, m, p⟩ (m + 1)
        (waiting gate p t m fun _ => ⟨.arrive gate, p, t⟩)) :=
    .sweep (fun i => ⟨d, c, failure, i, p⟩) (fun _ => ⟨.wait gate p, p, t⟩) (Nat.le_succ m)
      fun i hi => .arrive (Nat.succ_lt_succ hi)
  have hresume : ∀ i, i < m → Act trade (m + 1) i ⟨d, c, failure, 0, p + 1⟩
      (waiting gate p t m (fun k => ⟨gate.next k, p + 1, t⟩) i) none ⟨d, c, failure, 0, p + 1⟩
      ⟨gate.next i, p + 1, t⟩ := by
    intro i hi
    rw [waiting, if_pos hi]
    exact .resume (Nat.ne_of_lt (Nat.lt_succ_self p))
  refine (harrive.trans (.meet trade gate m)).trans ?_
  refine (Reaches.sweep (fun _ => _) _ (Nat.le_succ m) hresume).congr fun k _ => ?_
  by_cases hlt : k < m
  · rw [if_pos hlt]
  · rw [if_neg hlt, waiting, if_neg hlt]

/-- **All workers read** the time of the step. -/
theorem Reaches.read (trade : Trade δ κ) (n p : Nat) (t t' : Instant) :
    Reaches trade (.row ⟨d, some t', failure, 0, p⟩ n p t fun _ => .read)
      (.row ⟨d, some t', failure, 0, p⟩ n p t' fun _ => .enter .collect) :=
  .all fun _ _ => .read rfl

/-- **All workers leave**, since there is no time. -/
theorem Reaches.leave (trade : Trade δ κ) (n p : Nat) (t : Instant) :
    Reaches trade (.row ⟨d, none, failure, 0, p⟩ n p t fun _ => .read)
      (.row ⟨d, none, failure, 0, p⟩ n p t fun _ => .left) :=
  .all fun _ _ => .leave rfl

/-- Where the workers are while the leader decides. -/
def leading (point : Point κ) (k : Nat) : Point κ := if k = 0 then point else .arrive .start

/-- One worker makes a move and passes no barrier. -/
theorem Reaches.step {point : Nat → Point κ} {here there : Point κ} (hk : k < n)
    (hpoint : point k = here) (ha : Act trade n k s ⟨here, p, t⟩ deed s' ⟨there, p, t⟩) :
    Reaches trade (.row s n p t point) (.row s' n p t (Function.update point k there)) := by
  subst hpoint
  refine (Reaches.act hk ha).congr fun j _ => ?_
  by_cases hjk : j = k
  · subst hjk
    rw [Function.update_self, Function.update_self]
  · rw [Function.update_of_ne hjk, Function.update_of_ne hjk]

/-- The leader makes a move. -/
theorem Reaches.lead {point point' : Point κ} (hn : 0 < n)
    (ha : Act trade n 0 s ⟨point, p, t⟩ deed s' ⟨point', p, t⟩) :
    Reaches trade (.row s n p t (leading point)) (.row s' n p t (leading point')) := by
  have hsame : Function.update (leading point) 0 point' = leading point' := by
    funext k
    by_cases hk : k = 0
    · subst hk
      rw [Function.update_self, leading, if_pos rfl]
    · rw [Function.update_of_ne hk, leading, leading, if_neg hk, if_neg hk]
  exact hsame ▸ Reaches.step hn rfl ha

/-- The leader writes the time of the step, and all go on to read it. -/
theorem Reaches.publish (trade : Trade δ κ) (hn : 0 < n) (step : Option Instant) :
    Reaches trade (.row ⟨d, c, failure, 0, p⟩ n p t (leading (.publish step)))
      (.row ⟨d, step, failure, 0, p + 1⟩ n (p + 1) t fun _ => .read) := by
  have hwrite : Reaches trade (.row ⟨d, c, failure, 0, p⟩ n p t (leading (.publish step)))
      (.row ⟨d, step, failure, 0, p⟩ n p t (leading (.arrive .start))) := .lead hn .publish
  have hall : (leading (.arrive .start) : Nat → Point κ) = fun _ => .arrive .start :=
    funext fun k => ite_self _
  exact (hall ▸ hwrite).trans (.pass trade hn .start)

/-- **The run ends**: the leader writes no time, and all leave. -/
theorem Reaches.finish (trade : Trade δ κ) (hn : 0 < n) :
    Reaches trade (.row ⟨d, c, failure, 0, p⟩ n p t (leading (.publish none)))
      (.row ⟨d, none, failure, 0, p + 1⟩ n (p + 1) t fun _ => .left) :=
  (Reaches.publish trade hn none).trans (.leave trade n (p + 1) t)

/-- A leader who has failed makes a note of it, and the run ends. -/
theorem Reaches.recover (trade : Trade δ κ) (hn : 0 < n) (stop : Stop) :
    Reaches trade (.row ⟨d, c, failure, 0, p⟩ n p t (leading (.caught stop none)))
      (.row ⟨d, c, failure.note stop, 0, p⟩ n p t (leading (.publish none))) :=
  .lead hn .note

end

/-! ## The trade of a crew -/

variable {τ σ ω π : Type} [MessageType τ]

/-- What a worker does for a duty, once it has begun. -/
def Duty.script (duty : Duty) (t : Instant) (s : Shift τ σ ω) (k : Nat) : List (Task τ) :=
  match duty with
  | collect => (s.leavesOf k).map (.call (.collect t))
  | route => (s.routesOf k).map .fetch
  | advance => (s.leavesOf k).map (.call (.advance t)) ++ [.note (s.leavesOf k)]

/-- The phase of a step in which a duty is done. -/
def Duty.phaseScript (duty : Duty) (t : Instant) : Shift τ σ ω → Nat → List (Task τ) :=
  match duty with
  | collect => Shift.collectScript t
  | route => Shift.routeScript
  | advance => Shift.advanceScript t

/-- The same shift, without the record of failures. -/
def Shift.unfailed (s : Shift τ σ ω) : Shift τ σ ω := { s with failure := {} }

variable [AtomicModel τ σ] [Observer ω] [Supervisor π]

/-- How a turn of a worker has left it. -/
def Shift.result (x : Shift τ σ ω × List (Task τ)) : Turn (List (Task τ)) :=
  match x.1.failure.stop, x.2 with
  | none, task :: rest => .more (task :: rest)
  | stop, _ => .ended stop

/-- **What the workers of a crew do between the barriers.** They work on the crew and its world
under a supervisor; the record of failures is kept elsewhere. -/
def Crew.trade (τ σ ω π : Type) [MessageType τ] [AtomicModel τ σ] [Observer ω] [Supervisor π] :
    Trade (Shift τ σ ω × π) (List (Task τ)) where
  script duty t k d := duty.script t d.1 k
  turn k script d d' result :=
    let x := d.1.turn k script
    d' = (x.1.unfailed, d.2) ∧ result = Shift.result x
  report t d d' stop :=
    let s := d.1.close t
    d' = (s.unfailed, d.2) ∧ stop = s.failure.stop
  completed t d d' stop :=
    let note := Supervisor.completed t d.2
    d' = ({ d.1 with world := d.1.world.heed note }, note.state) ∧ stop = note.fault.map .fault
  proceed d d' stop answer :=
    let decision := Supervisor.proceed d.1.crew.next d.1.world.interrupted d.2
    d' = ({ d.1 with world := d.1.world.heed decision }, decision.state) ∧
      stop = decision.fault.map .fault ∧
      answer = if decision.answer then some d.1.crew.next else none
  turn_total _ _ _ := ⟨_, _, rfl, rfl⟩
  report_total _ _ := ⟨_, _, rfl, rfl⟩
  completed_total _ _ := ⟨_, _, rfl, rfl⟩
  proceed_total _ := ⟨_, _, _, rfl, rfl, rfl⟩

omit [AtomicModel τ σ] [Observer ω] in
theorem Duty.phaseScript_eq (duty : Duty) (t : Instant) (s : Shift τ σ ω) (k : Nat) :
    duty.phaseScript t s k = .enter :: duty.script t s k := by
  cases duty <;> rfl

omit [AtomicModel τ σ] [Observer ω] in
/-- What is to be done for a duty depends on the shape of the crew only. -/
theorem Duty.script_congr (duty : Duty) (t : Instant) {s s' : Shift τ σ ω}
    (h : s.crew.shape = s'.crew.shape) : duty.script t s = duty.script t s' := by
  have hleaves := Shift.leavesOf_congr h
  rw [Crew.shape, Crew.shape, Prod.mk.injEq, Prod.mk.injEq] at h
  funext k
  cases duty with
  | collect => rw [script, script, hleaves]
  | route => rw [script, script, Shift.routesOf, Shift.routesOf, h.2.1, h.2.2]
  | advance => rw [script, script, hleaves]

/-! ## A phase, turn by turn -/

namespace Shift

omit [AtomicModel τ σ] [Observer ω] in
/-- The record of failures after a call. -/
theorem unfailed_settle (s : Shift τ σ ω) (o : Outcome (Crew τ σ) ω) (rest : List (Task τ)) :
    (s.settle o rest).2 = (s.unfailed.settle o rest).2 ∧
      (s.settle o rest).1.unfailed = (s.unfailed.settle o rest).1.unfailed ∧
      match (s.unfailed.settle o rest).1.failure.stop with
      | none => (s.settle o rest).1.failure = s.failure
      | some stop =>
        (s.settle o rest).1.failure = s.failure.note stop ∧ (s.settle o rest).2 = [] := by
  obtain ⟨c, w, stop⟩ := o
  cases stop with
  | none => exact ⟨rfl, rfl, rfl⟩
  | some stop => cases stop <;> exact ⟨rfl, rfl, rfl, rfl⟩

/-- Tasks that do not ask whether there was a failure. -/
def Begun (script : List (Task τ)) : Prop := ∀ task ∈ script, task ≠ .enter

/-- **A turn within a duty** does not depend on the failures of others, and notes its own, with
which it ends. -/
theorem unfailed_turn (k : Nat) (s : Shift τ σ ω) {script : List (Task τ)} (h : Begun script) :
    (s.turn k script).2 = (s.unfailed.turn k script).2 ∧
      (s.turn k script).1.unfailed = (s.unfailed.turn k script).1.unfailed ∧
      match (s.unfailed.turn k script).1.failure.stop with
      | none => (s.turn k script).1.failure = s.failure
      | some stop =>
        (s.turn k script).1.failure = s.failure.note stop ∧ (s.turn k script).2 = [] := by
  cases script with
  | nil => exact ⟨rfl, rfl, rfl⟩
  | cons task rest =>
      cases task with
      | enter => exact absurd rfl (h _ (List.mem_cons_self ..))
      | call c i => exact unfailed_settle s _ rest
      | fetch r => exact ⟨rfl, rfl, rfl⟩
      | deliver r copy =>
          have hcrew : s.unfailed.crew = s.crew := rfl
          rw [turn, turn, hcrew]
          cases transfer copy (s.crew.targetBag r.target) with
          | error fault => exact unfailed_settle s _ rest
          | ok messages => exact unfailed_settle s _ rest
      | note places => exact ⟨rfl, rfl, rfl⟩

theorem Begun.turn (k : Nat) (s : Shift τ σ ω) {script : List (Task τ)} (h : Begun script) :
    Begun (s.turn k script).2 := by
  have hsettle : ∀ (o : Outcome (Crew τ σ) ω) (task : Task τ) (rest : List (Task τ)),
      Begun (task :: rest) → Begun (s.settle o rest).2 := by
    intro o task rest hbegun
    rcases s.settle_script o rest with hscript | hscript
    · rw [hscript]
      exact nofun
    · rw [hscript]
      exact fun x hx => hbegun x (List.mem_cons_of_mem _ hx)
  cases script with
  | nil => exact nofun
  | cons task rest =>
      cases task with
      | enter => exact absurd rfl (h _ (List.mem_cons_self ..))
      | call c i => exact hsettle _ _ _ h
      | fetch r =>
          refine List.forall_mem_cons.mpr ⟨nofun, ?_⟩
          exact (List.forall_mem_cons.mp h).2
      | deliver r copy =>
          rw [Shift.turn]
          split
          · exact hsettle _ _ _ h
          · exact hsettle _ _ _ h
      | note places => exact (List.forall_mem_cons.mp h).2

end Shift

omit [AtomicModel τ σ] [Observer ω] in
theorem Duty.begun_script (duty : Duty) (t : Instant) (s : Shift τ σ ω) (k : Nat) :
    Shift.Begun (duty.script t s k) := by
  intro task htask
  cases duty with
  | collect =>
      obtain ⟨i, -, rfl⟩ := List.mem_map.mp htask
      exact nofun
  | route =>
      obtain ⟨r, -, rfl⟩ := List.mem_map.mp htask
      exact nofun
  | advance =>
      rcases List.mem_append.mp htask with htask | htask
      · obtain ⟨i, -, rfl⟩ := List.mem_map.mp htask
        exact nofun
      · rw [List.mem_singleton.mp htask]
        exact nofun

/-- **Where a worker is in a phase**, by what remains of its script: `full` is all there is
to do for the duty. -/
inductive Duty.At (duty : Duty) (full : List (Task τ)) :
    Point (List (Task τ)) → List (Task τ) → Prop
  | enter : At duty full (.enter duty) (.enter :: full)
  | work {script : List (Task τ)} (hne : script ≠ []) (hbegun : Shift.Begun script) :
      At duty full (.work duty script) script
  | arrive : At duty full (.arrive (.after duty)) []

/-- What the workers of a crew share while they do a duty. -/
def Shift.site (s : Shift τ σ ω) (q : π) (c : Option Instant) (p : Nat) :
    Site (Shift τ σ ω × π) :=
  ⟨(s.unfailed, q), c, s.failure, 0, p⟩

variable {s : Shift τ σ ω} {q : π} {c : Option Instant} {n k p : Nat} {t : Instant}
  {point : Nat → Point (List (Task τ))}

/-- A worker who has begun takes a turn. -/
theorem reaches_turn_begun (hk : k < n) {duty : Duty} {script : List (Task τ)}
    (full : List (Task τ)) (hbegun : Shift.Begun script) (hpoint : point k = .work duty script) :
    ∃ pt, duty.At full pt (s.turn k script).2 ∧
      Reaches (Crew.trade τ σ ω π) (.row (s.site q c p) n p t point)
        (.row ((s.turn k script).1.site q c p) n p t (Function.update point k pt)) := by
  obtain ⟨hscript, hdata, hfailure⟩ := s.unfailed_turn k hbegun
  have hbegun' := hbegun.turn k s
  have hturn : (Crew.trade τ σ ω π).turn k script (s.unfailed, q)
      ((s.unfailed.turn k script).1.unfailed, q) (Shift.result (s.unfailed.turn k script)) :=
    ⟨rfl, rfl⟩
  have hend : ∀ stop, Shift.result (s.unfailed.turn k script) = .ended stop →
      Act (Crew.trade τ σ ω π) n k (s.site q c p) ⟨.work duty script, p, t⟩
        (some ⟨k, p, .duty duty, stop⟩)
        ⟨((s.unfailed.turn k script).1.unfailed, q), c, s.failure, 0, p⟩
        ⟨.unless stop (some duty) (.arrive (.after duty)), p, t⟩ :=
    fun stop hresult => .finish (hresult ▸ hturn)
  simp only [Shift.site, hdata] at hend ⊢
  rw [Shift.result, ← hscript] at hturn hend
  cases hstop : (s.unfailed.turn k script).1.failure.stop with
  | some stop =>
      -- The worker fails, and makes a note of it before it goes to the gate.
      rw [hstop] at hfailure hend
      obtain ⟨hnoted, hover⟩ := hfailure
      rw [hover, hnoted]
      refine ⟨_, .arrive, ?_⟩
      let failing : Nat → Point (List (Task τ)) :=
        Function.update point k (.caught stop (some duty))
      have hfail : Reaches (Crew.trade τ σ ω π)
          (.row ⟨(s.unfailed, q), c, s.failure, 0, p⟩ n p t point)
          (.row ⟨((s.unfailed.turn k script).1.unfailed, q), c, s.failure, 0, p⟩ n p t failing) :=
        .step hk hpoint (hend (some stop) rfl)
      have hnote : Reaches (Crew.trade τ σ ω π)
          (.row ⟨((s.unfailed.turn k script).1.unfailed, q), c, s.failure, 0, p⟩ n p t failing)
          (.row ⟨((s.unfailed.turn k script).1.unfailed, q), c, s.failure.note stop, 0, p⟩ n p t
            (Function.update failing k (.arrive (.after duty)))) :=
        .step hk (Function.update_self k _ point) .note
      rw [Function.update_idem] at hnote
      exact hfail.trans hnote
  | none =>
      rw [hstop] at hfailure
      rw [hfailure]
      cases hrest : (s.turn k script).2 with
      | nil =>
          rw [hstop, hrest] at hend
          exact ⟨_, .arrive, .step hk hpoint (hend none rfl)⟩
      | cons task rest =>
          rw [hstop, hrest] at hturn
          rw [hrest] at hbegun'
          exact ⟨_, .work (List.cons_ne_nil _ _) hbegun', .step hk hpoint (.turn hturn)⟩

/-- **Any worker takes a turn** in a phase. -/
theorem reaches_turn (hk : k < n) {duty : Duty} {full script : List (Task τ)}
    (hat : duty.At full (point k) script) (hfull : duty.script t s k = full) :
    ∃ pt, duty.At full pt (s.turn k script).2 ∧
      Reaches (Crew.trade τ σ ω π) (.row (s.site q c p) n p t point)
        (.row ((s.turn k script).1.site q c p) n p t (Function.update point k pt)) := by
  generalize hpoint : point k = pt at hat
  cases hat with
  | enter =>
      -- Only here it matters what the others have noted.
      rw [Shift.turn]
      cases hset : s.failure.isSet with
      | true => exact ⟨_, .arrive, .step hk hpoint (.skip hset)⟩
      | false =>
          have henter : Reaches (Crew.trade τ σ ω π) (.row (s.site q c p) n p t point)
              (.row (s.site q c p) n p t (Function.update point k (.work duty full))) := by
            subst hfull
            exact .step hk hpoint (.enter hset)
          rw [if_neg Bool.false_ne_true]
          cases full with
          | nil =>
              -- There is nothing to do, and the worker goes to the gate.
              obtain ⟨pt, hat, hreaches⟩ := reaches_turn_begun (s := s) (q := q) (c := c) (p := p)
                (t := t) hk [] (List.forall_mem_nil _)
                (Function.update_self k (.work duty []) point)
              rw [Function.update_idem] at hreaches
              exact ⟨pt, hat, henter.trans hreaches⟩
          | cons task rest =>
              exact ⟨_, .work (List.cons_ne_nil _ _) (hfull ▸ duty.begun_script t s k), henter⟩
  | work hne hbegun => exact reaches_turn_begun hk full hbegun hpoint
  | arrive =>
      refine ⟨_, .arrive, ?_⟩
      rw [← hpoint, Function.update_eq_self]
      exact .refl _ _

/-- **The middle of a phase** that began with the shift `s`: the workers have come from its
beginning to where the floor has them. -/
structure Duty.Amid (duty : Duty) (s : Shift τ σ ω) (q : π) (c : Option Instant) (n p : Nat)
    (t : Instant) (f : Floor τ σ ω) (point : Nat → Point (List (Task τ))) : Prop where
  shape : f.shift.crew.shape = s.crew.shape
  length : f.scripts.length = n
  each : ∀ (k : Nat) (script : List (Task τ)), f.scripts[k]? = some script →
    duty.At (duty.script t s k) (point k) script
  reaches : Reaches (Crew.trade τ σ ω π) (.row (s.site q c p) n p t fun _ => .enter duty)
    (.row (f.shift.site q c p) n p t point)

theorem Duty.Amid.begin (duty : Duty) (q : π) (c : Option Instant) (p : Nat) (t : Instant)
    (hn : s.crew.workers = n) :
    duty.Amid s q c n p t ⟨s, (List.range s.crew.workers).map (duty.phaseScript t s)⟩
      fun _ => .enter duty where
  shape := rfl
  length := by rw [List.length_map, List.length_range, hn]
  each k script hscript := by
    rw [Shift.script_of_begin hscript, duty.phaseScript_eq]
    exact .enter
  reaches := .refl _ _

/-- In the middle of a phase any worker takes a turn. -/
theorem Duty.Amid.turn {duty : Duty} {f : Floor τ σ ω} (h : duty.Amid s q c n p t f point)
    (k : Nat) : ∃ point', duty.Amid s q c n p t (f.turn k) point' := by
  cases hk : f.scripts[k]? with
  | none =>
      refine ⟨point, ?_⟩
      rw [Floor.turn, hk]
      exact h
  | some script =>
      have hlt := (List.getElem?_eq_some_iff.mp hk).1
      obtain ⟨pt, hat, hreaches⟩ := reaches_turn (s := f.shift) (q := q) (c := c) (p := p)
        (h.length ▸ hlt) (h.each k script hk) (congrFun (duty.script_congr t h.shape) k)
      refine ⟨Function.update point k pt, ?_⟩
      rw [Floor.turn_eq hk]
      refine ⟨(Crew.steady_shape.turn k _ _).trans h.shape, List.length_set.trans h.length,
        fun j script' hj => ?_, h.reaches.trans hreaches⟩
      by_cases hjk : j = k
      · subst hjk
        rw [List.getElem?_set_self hlt, Option.some_inj] at hj
        rw [Function.update_self]
        exact hj ▸ hat
      · rw [List.getElem?_set_ne (Ne.symm hjk)] at hj
        rw [Function.update_of_ne hjk]
        exact h.each j script' hj

/-- **All workers do a duty**, in any order of turns, and pass the gate behind it. -/
theorem reaches_duty (hn : s.crew.workers = n) (hpos : 0 < n) (duty : Duty) (turns : List Nat) :
    Reaches (Crew.trade τ σ ω π) (.row (s.site q c p) n p t fun _ => .enter duty)
      (.row ((s.phase (duty.phaseScript t) turns).site q c (p + 1)) n (p + 1) t
        (Gate.after duty).next) := by
  -- In the middle of the phase the workers have come so far; this is kept by every turn.
  obtain ⟨f, ⟨point, hamid⟩, hdone, -, hphase⟩ :=
    Shift.exists_phase_eq (duty.phaseScript t) turns (s := s)
      (P := fun f => ∃ point, duty.Amid s q c n p t f point) ⟨_, .begin duty q c p t hn⟩
      fun f k ⟨_, hf⟩ => hf.turn k
  rw [hphase]
  refine Reaches.trans (hamid.reaches.congr fun k hk => ?_) (.pass _ hpos (.after duty))
  obtain ⟨script, hscript⟩ : ∃ script, f.scripts[k]? = some script :=
    ⟨_, List.getElem?_eq_getElem (hamid.length.symm ▸ hk)⟩
  have hat := hamid.each k script hscript
  -- Nobody has anything left to do, so all are at the gate.
  rw [hdone script (List.mem_of_getElem? hscript)] at hat
  generalize point k = pt at hat
  cases hat with
  | work hne _ => exact absurd rfl hne
  | arrive => rfl

/-! ## A step, and a run -/

theorem Shift.workers_phase (script : Shift τ σ ω → Nat → List (Task τ)) (turns : List Nat)
    (s : Shift τ σ ω) : (s.phase script turns).crew.workers = s.crew.workers :=
  congrArg (·.2.2) (Crew.steady_shape.phase script turns s)

/-- The three duties of a step. -/
def Shift.duties (table : Timetable) (t : Instant) (s : Shift τ σ ω) : Shift τ σ ω :=
  ((s.phase (collectScript t) table.collect).phase routeScript table.route).phase
    (advanceScript t) table.advance

/-- **The three duties of a step**: from the time in the cell to the report of the leader. -/
theorem reaches_duties {u : Instant} (hn : s.crew.workers = n) (hpos : 0 < n)
    (table : Timetable) :
    Reaches (Crew.trade τ σ ω π)
      (.row (s.site q c p) n p u (leading (.publish (some t))))
      (.row ((s.duties table t).site q (some t) (p + 4)) n (p + 4) t (leading .report)) := by
  have hroute : (s.phase (Shift.collectScript t) table.collect).crew.workers = n :=
    (Shift.workers_phase _ _ _).trans hn
  have hadvance : ((s.phase (Shift.collectScript t) table.collect).phase Shift.routeScript
      table.route).crew.workers = n := (Shift.workers_phase _ _ _).trans hroute
  have hread : Reaches (Crew.trade τ σ ω π)
      (.row (s.site q c p) n p u (leading (.publish (some t))))
      (.row (s.site q (some t) (p + 1)) n (p + 1) t fun _ => .enter .collect) :=
    (Reaches.publish _ hpos (some t)).trans (.read _ n (p + 1) u t)
  exact ((hread.trans (reaches_duty hn hpos .collect table.collect)).trans
    (reaches_duty hroute hpos .route table.route)).trans
      (reaches_duty hadvance hpos .advance table.advance)

omit [AtomicModel τ σ] in
/-- To close a step does not depend on the failures of the workers. -/
theorem Shift.unfailed_close (t : Instant) (s : Shift τ σ ω) :
    (s.close t).unfailed = (s.unfailed.close t).unfailed ∧
      match (s.unfailed.close t).failure.stop with
      | none => (s.close t).failure = s.failure
      | some stop => (s.close t).failure = s.failure.note stop := by
  have hsame : s.unfailed.crew.close t (s.unfailed.minima.foldr min .max) s.unfailed.world
      = s.crew.close t (s.minima.foldr min .max) s.world := rfl
  refine ⟨rfl, ?_⟩
  rw [close, close, hsame]
  cases hstop : (s.crew.close t (s.minima.foldr min .max) s.world).stop with
  | none => exact rfl
  | some stop => cases stop <;> exact rfl

/-- **The leader closes the step**, and looks whether there was a failure. -/
theorem reaches_close (hpos : 0 < n) :
    Reaches (Crew.trade τ σ ω π) (.row (s.site q c p) n p t (leading .report))
      (.row ((s.close t).site q c p) n p t
        (leading (if (s.close t).failure.isSet then .publish none else .complete))) := by
  obtain ⟨hdata, hfailure⟩ := s.unfailed_close t
  have hreport : Reaches (Crew.trade τ σ ω π) (.row (s.site q c p) n p t (leading .report))
      (.row ⟨((s.close t).unfailed, q), c, s.failure, 0, p⟩ n p t
        (leading (.unless (s.unfailed.close t).failure.stop none .check))) :=
    .lead hpos (.report ⟨congrArg (·, q) hdata, rfl⟩)
  refine hreport.trans ?_
  rw [Shift.site]
  cases hstop : (s.unfailed.close t).failure.stop with
  | none =>
      rw [hstop] at hfailure
      rw [hfailure]
      exact .lead hpos .check
  | some stop =>
      rw [hstop] at hfailure
      rw [hfailure, if_pos (s.failure.isSet_note stop)]
      exact .recover _ hpos stop

/-- A shift that has taken note of what the supervisor asked for. -/
def Shift.heeding {α : Type} (s : Shift τ σ ω) (reply : Reply π α) : Shift τ σ ω :=
  { s with world := s.world.heed reply }

/-- What is left of a run whose next step was allowed. -/
def Shift.proceeded (limit : Nat) (plan : Nat → Timetable) (s : Shift τ σ ω) (q : π) :
    Option (Outcome (Crew τ σ × π) ω) :=
  let t := s.crew.next
  let s := s.stepOn (plan 0) t
  if s.failure.isSet then
    some (s.outcome q s.failure.stop)
  else
    let note := Supervisor.completed t q
    match note.fault with
    | some fault => some ((s.heeding note).outcome note.state (some (.fault fault)))
    | none => (s.heeding note).runOn limit (fun n => plan (n + 1)) note.state

/-- A run begins with the decision of the supervisor. -/
theorem Shift.runOn_succ (limit : Nat) (plan : Nat → Timetable) (s : Shift τ σ ω) (q : π) :
    s.runOn (limit + 1) plan q
      = let decision := Supervisor.proceed s.crew.next s.world.interrupted q
        match decision.fault with
        | some fault => some ((s.heeding decision).outcome decision.state (some (.fault fault)))
        | none =>
          if decision.answer then (s.heeding decision).proceeded limit plan decision.state
          else some ((s.heeding decision).outcome decision.state none) := rfl

/-- **All workers have left, and this is what they leave behind.** -/
def Hall.EndsIn (h : Hall (Shift τ σ ω × π) (List (Task τ))) (o : Outcome (Crew τ σ × π) ω) :
    Prop :=
  h.AllLeft ∧ o = h.site.data.1.outcome h.site.data.2 h.site.failure.stop

/-- The leader writes no time, and the run is over. -/
theorem reaches_end (hpos : 0 < n) :
    ∃ h, Reaches (Crew.trade τ σ ω π) (.row (s.site q c p) n p t (leading (.publish none))) h ∧
      h.EndsIn (s.outcome q s.failure.stop) := by
  refine ⟨_, .finish _ hpos, fun w hw => ?_, rfl⟩
  obtain ⟨k, -, rfl⟩ := List.mem_map.mp hw
  rfl

/-- The leader has caught a fault of the supervisor, and the run is over. -/
theorem reaches_fault (hpos : 0 < n) (hf : s.failure = {}) (fault : Fault) :
    ∃ h, Reaches (Crew.trade τ σ ω π)
      (.row (s.site q c p) n p t (leading (.caught (.fault fault) none))) h ∧
      h.EndsIn (s.outcome q (some (.fault fault))) := by
  obtain ⟨h, hreaches, hleft, hdata⟩ := reaches_end (q := q) (c := c) (p := p) (t := t)
    (s := { s with failure := s.failure.note (.fault fault) }) hpos
  refine ⟨h, .trans (.recover _ hpos _) hreaches, hleft, ?_⟩
  rw [← hdata, hf]
  rfl

theorem Failure.eq_of_isSet {f : Failure} (h : f.isSet = false) : f = {} := by
  obtain ⟨fault, violation⟩ := f
  cases fault <;> cases violation <;> first | rfl | cases h

/-- **What is left of a run whose next step was allowed** is what workers do when the time of
that step is to be written into the cell, if that is so for what follows. -/
theorem reaches_proceeded (hpos : 0 < n) {limit : Nat}
    (ih : ∀ {plan : Nat → Timetable} {s : Shift τ σ ω} {q : π} {c : Option Instant} {p : Nat}
      {t : Instant} {o : Outcome (Crew τ σ × π) ω}, s.failure = {} → s.crew.workers = n →
      s.runOn limit plan q = some o →
      ∃ h, Reaches (Crew.trade τ σ ω π) (.row (s.site q c p) n p t (leading .ask)) h ∧ h.EndsIn o)
    {plan : Nat → Timetable} {o : Outcome (Crew τ σ × π) ω}
    (hn : s.crew.workers = n) (ho : s.proceeded limit plan q = some o) :
    ∃ h, Reaches (Crew.trade τ σ ω π)
      (.row (s.site q c p) n p t (leading (.publish (some s.crew.next)))) h ∧ h.EndsIn o := by
  have hstep := (reaches_duties (q := q) (c := c) (p := p) (t := s.crew.next) (u := t) hn hpos
    (plan 0)).trans (reaches_close hpos)
  rw [Shift.proceeded] at ho
  change Reaches _ _ (.row ((s.stepOn (plan 0) s.crew.next).site q _ _) n _ _ (leading
    (if (s.stepOn (plan 0) s.crew.next).failure.isSet then _ else _))) at hstep
  have hworkers : (s.stepOn (plan 0) s.crew.next).crew.workers = n :=
    (congrArg (·.2.2) (Crew.steady_shape.stepOn (plan 0) s.crew.next s)).trans hn
  generalize s.stepOn (plan 0) s.crew.next = s' at ho hstep hworkers
  cases hset : s'.failure.isSet with
  | true =>
      rw [hset, if_pos rfl] at hstep
      simp only [hset, if_true] at ho
      obtain ⟨h, hend, hleft⟩ := reaches_end (s := s') (q := q) (c := some s.crew.next)
        (p := p + 4) (t := s.crew.next) hpos
      exact ⟨h, hstep.trans hend, Option.some_inj.mp ho ▸ hleft⟩
  | false =>
      rw [hset, if_neg Bool.false_ne_true] at hstep
      simp only [hset, Bool.false_eq_true, if_false] at ho
      have hunset := Failure.eq_of_isSet hset
      -- The supervisor is told that the step is done.
      have hcomplete : Reaches (Crew.trade τ σ ω π)
          (.row (s'.site q (some s.crew.next) (p + 4)) n (p + 4) s.crew.next (leading .complete))
          (.row ((s'.heeding (Supervisor.completed s.crew.next q)).site
              (Supervisor.completed s.crew.next q).state (some s.crew.next) (p + 4)) n (p + 4)
            s.crew.next
            (leading (.unless ((Supervisor.completed s.crew.next q).fault.map .fault) none .ask))) :=
        .lead hpos (.complete ⟨rfl, rfl⟩)
      generalize Supervisor.completed s.crew.next q = note at ho hcomplete
      cases hfault : note.fault with
      | some fault =>
          simp only [hfault] at ho hcomplete
          obtain ⟨h, hend, hleft⟩ := reaches_fault (s := s'.heeding note) (q := note.state)
            (c := some s.crew.next) (p := p + 4) (t := s.crew.next) hpos hunset fault
          exact ⟨h, (hstep.trans hcomplete).trans hend, Option.some_inj.mp ho ▸ hleft⟩
      | none =>
          simp only [hfault] at ho hcomplete
          obtain ⟨h, hrest, hleft⟩ := ih (s := s'.heeding note) hunset hworkers ho
          exact ⟨h, (hstep.trans hcomplete).trans hrest, hleft⟩

/-- **A run of a crew** is what workers do whose leader asks the supervisor. -/
theorem reaches_runOn (hpos : 0 < n) (limit : Nat) :
    ∀ {plan : Nat → Timetable} {s : Shift τ σ ω} {q : π} {c : Option Instant} {p : Nat}
      {t : Instant} {o : Outcome (Crew τ σ × π) ω}, s.failure = {} → s.crew.workers = n →
      s.runOn limit plan q = some o →
      ∃ h, Reaches (Crew.trade τ σ ω π) (.row (s.site q c p) n p t (leading .ask)) h ∧
        h.EndsIn o := by
  -- The induction is on the decisions that are left; the leader is asking for the next one.
  induction limit with
  | zero => exact fun _ _ ho => nomatch ho
  | succ limit ih =>
      intro plan s q c p t o hf hn ho
      have hask : Reaches (Crew.trade τ σ ω π) (.row (s.site q c p) n p t (leading .ask))
          (.row ((s.heeding (Supervisor.proceed s.crew.next s.world.interrupted q)).site
              (Supervisor.proceed s.crew.next s.world.interrupted q).state c p) n p t
            (leading (.unless
              ((Supervisor.proceed s.crew.next s.world.interrupted q).fault.map .fault) none
              (.publish (if (Supervisor.proceed s.crew.next s.world.interrupted q).answer
                then some s.crew.next else none))))) :=
        .lead hpos (.ask ⟨rfl, rfl, rfl⟩)
      rw [Shift.runOn_succ] at ho
      generalize Supervisor.proceed s.crew.next s.world.interrupted q = decision at ho hask
      cases hfault : decision.fault with
      | some fault =>
          simp only [hfault] at ho hask
          obtain ⟨h, hend, hleft⟩ := reaches_fault (s := s.heeding decision) (c := c) (p := p)
            (q := decision.state) (t := t) hpos hf fault
          exact ⟨h, hask.trans hend, Option.some_inj.mp ho ▸ hleft⟩
      | none =>
          simp only [hfault] at ho hask
          cases hanswer : decision.answer with
          | true =>
              simp only [hanswer, if_true] at ho hask
              obtain ⟨h, hend, hleft⟩ := reaches_proceeded (s := s.heeding decision) hpos ih hn ho
              exact ⟨h, hask.trans hend, hleft⟩
          | false =>
              simp only [hanswer, Bool.false_eq_true, if_false] at ho hask
              obtain ⟨h, hend, hleft⟩ := reaches_end (s := s.heeding decision) (c := c) (p := p)
                (q := decision.state) (t := t) hpos
              refine ⟨h, hask.trans hend, ?_⟩
              have hstop : (s.heeding decision).failure.stop = none := by
                rw [Shift.heeding, hf]
                rfl
              rw [← Option.some_inj.mp ho]
              exact hstop ▸ hleft

/-! ## The result -/

/-- At the beginning all workers stand in a row, the leader with the time of the first step. -/
theorem Hall.begin_eq {δ κ : Type} (others : Nat) (d : δ) (t : Instant) :
    (begin others d t : Hall δ κ)
      = .row ⟨d, none, {}, 0, 0⟩ (others + 1) 0 t (leading (.publish (some t))) := by
  rw [begin, row, of, List.range_succ_eq_map, List.map_cons, List.map_map]
  refine congrArg (fun workers => Hall.mk _ (_ :: workers)) ?_
  refine (List.eq_replicate_iff.mpr ⟨?_, fun w hw => ?_⟩).symm
  · rw [List.length_map, List.length_range]
  · obtain ⟨k, -, rfl⟩ := List.mem_map.mp hw
    rfl

/-- **Workers stay in step.** Any number of workers begin a run, and whatever is done between
the barriers may come to its end or fail, by a refusal or by a fault. After any number of moves
there is no deadlock; all who have left have passed equally many barriers, and nobody more;
after a failure nothing is done but what belongs to the same duty, the report of the step, and
the notes of failures, and nothing else that is done in the run, before or after it, belongs to
a later duty or round; what a worker has noted is how it has failed; and when all have left, the
first fault that was noted is told, or the first refusal if there is none, or nothing if nothing
failed.

This is so for the runs of crews. Once a supervisor has allowed the first step, a run of a crew
in any order of turns is what so many workers do until all of them have left: it leaves behind
what they leave behind, and tells what they tell. -/
theorem workers_in_step :
    (∀ (δ κ : Type) (trade : Trade δ κ) (others : Nat) (data : δ) (t : Instant)
      (deeds : List Deed) (h : Hall δ κ), Moves trade (.begin others data t) deeds h →
        h.InStep trade deeds) ∧
    ∀ (τ σ ω π : Type) [MessageType τ] [AtomicModel τ σ] [Observer ω] [Supervisor π]
      (others limit : Nat) (plan : Nat → Timetable) (c : Crew τ σ) (p : π) (w : World ω)
      (o : Outcome (Crew τ σ × π) ω), c.initialized = true → c.workers = others + 1 →
      (Supervisor.proceed c.next w.interrupted p).fault = none →
      (Supervisor.proceed c.next w.interrupted p).answer = true →
      c.runOn limit plan p w = some o →
      ∃ (deeds : List Deed) (h : Hall (Shift τ σ ω × π) (List (Task τ))),
        Moves (Crew.trade τ σ ω π)
          (.begin others
            (Shift.begin c (w.heed (Supervisor.proceed c.next w.interrupted p)),
              (Supervisor.proceed c.next w.interrupted p).state) c.next) deeds h ∧
        h.AllLeft ∧ o = ⟨(h.site.data.1.crew, h.site.data.2), h.site.data.1.world,
          h.site.failure.stop⟩ := by
  refine ⟨fun δ κ trade others data t deeds h hm => ?_, ?_⟩
  · refine hm.inStep (Hall.ordered_begin others data t) (fun w hw => ?_) rfl
    rcases List.mem_cons.mp hw with rfl | hw
    · rfl
    · rw [List.eq_of_mem_replicate hw]
      rfl
  · intro τ σ ω π _ _ _ _ others limit plan c p w o hinit hworkers hfault hanswer ho
    rw [Crew.runOn, if_pos hinit] at ho
    cases limit with
    | zero => cases ho
    | succ limit =>
        rw [Shift.runOn_succ] at ho
        change (match (Supervisor.proceed c.next w.interrupted p).fault with
          | some _ => _
          | none => if (Supervisor.proceed c.next w.interrupted p).answer = true then _ else _)
            = some o at ho
        rw [hfault, hanswer] at ho
        have hpos : 0 < others + 1 := Nat.succ_pos others
        obtain ⟨h, ⟨deeds, hm⟩, hleft, hend⟩ := reaches_proceeded (c := none) (p := 0)
          (t := c.next) hpos (fun hf hn => reaches_runOn hpos limit hf hn) hworkers ho
        refine ⟨deeds, h, ?_, hleft, hend⟩
        rw [Hall.begin_eq]
        exact hm

/-- Two workers run a tower of doublers up to the fifth second, with a message at the root; and
they are refused the first step of a tower that was not initialized. -/
theorem workers_in_step_tower :
    let w : World Unobserved := ⟨⟨⟩, false⟩
    let c := (((Crew.ofModel 2 Doubler.tower).init .epoch w).state.inject Doubler.add
      [(5 : UInt64)] w).state
    let blank := { Crew.ofModel 2 Doubler.tower with initialized := true, next := .epoch }
    let p := Until.mk ⟨5, 0, by decide⟩
    ((c.runOn 9 (fun _ => {}) p w).any (·.stop == none) = true ∧
      (blank.runOn 9 (fun _ => {}) p w).any (·.stop != none) = true) ∧
    ∀ x ∈ [c, blank], ∀ o, x.runOn 9 (fun _ => {}) p w = some o →
      ∃ (deeds : List Deed) (h : Hall (Shift Payload Doubler Unobserved × Until) _),
        h.AllLeft ∧ o.stop = h.site.failure.stop ∧
        h.InStep (Crew.trade Payload Doubler Unobserved Until) deeds := by
  intro w c blank p
  refine ⟨by decide +kernel, fun x hx o ho => ?_⟩
  have hready : x.initialized = true ∧ x.workers = 1 + 1 ∧ x.next < p.limit := by
    rcases List.mem_pair.mp hx with rfl | rfl <;> decide +kernel
  obtain ⟨deeds, h, hm, hleft, rfl⟩ := workers_in_step.2 Payload Doubler Unobserved Until 1 9
    (fun _ => {}) x p w o hready.1 hready.2.1 rfl (decide_eq_true hready.2.2) ho
  exact ⟨deeds, h, hleft, rfl, workers_in_step.1 _ _ _ 1 _ x.next deeds h hm⟩

end DiscreteEvent
