/-
Bags as a map from port names to messages.

A client does four things with its bags: it adds values at a port, one or several, it reads
a port, and it clears them all. It may also make copies, and go on with each of them as it
likes. `BagsCall` is a call on one value, `Handling` a step of a client that has made
copies, and `Handling.all` what has become of all of them.

What a value holds is a matter of its own history, which a copy shares up to the time when
it was made (`Handling.all_eq_map`). `kept` reads off a history what was added at a port
since everything was cleared, and `declared` are the bags that one would write down from
that: the first declaration of a name has what was kept there, a later one of the same name
has nothing. `after_declared` is the step: a call on such bags gives the bags of the
longer history. Nothing is assumed of the ports, so a name may be declared again, with the
same type or with another one.
-/
import DiscreteEvent.Proofs.Ports.Typed
import Mathlib.Algebra.GroupWithZero.Nat
import Mathlib.Data.List.Forall2

set_option autoImplicit false

namespace DiscreteEvent

variable {τ : Type}

/-! ## Names that are declared again -/

namespace Port

/-- Whether a declaration, given with its place, is the first one of its name. -/
def isFirst (ports : List (Port τ)) (x : Port τ × Nat) : Bool :=
  ports.findIdx? (·.name == x.1.name) == some x.2

/-- **The ports that can be used**, in the order of declaration: the first one of each name. -/
def firsts (ports : List (Port τ)) : List (Port τ) :=
  (ports.zipIdx.filter (isFirst ports)).map (·.1)

/-- A port is its name and its type. -/
theorem eq_of_name_type {p q : Port τ} (hn : p.name = q.name) (ht : p.type = q.type) : p = q := by
  cases p
  cases q
  cases hn
  cases ht
  rfl

end Port

variable [MessageType τ]

namespace Port

/-- **Why a port cannot be used**, if it cannot: its name is not declared, or the first
declaration of the name has another type. -/
def refusal? (ports : List (Port τ)) (p : Port τ) : Option Fault :=
  match ports.find? (·.name == p.name) with
  | none => some (.undeclaredPort p.name)
  | some q => if q.type = p.type then none else some (.messageType (MessageType.name p.type))

theorem refusal?_eq_none_iff {ports : List (Port τ)} {p : Port τ} :
    refusal? ports p = none ↔ ∃ q, ports.find? (·.name == p.name) = some q ∧ q.type = p.type := by
  rw [refusal?]
  cases ports.find? (·.name == p.name) with
  | none => exact ⟨nofun, fun ⟨_, h, _⟩ => nomatch h⟩
  | some q =>
      by_cases htype : q.type = p.type
      · exact ⟨fun _ => ⟨q, rfl, htype⟩, fun _ => if_pos htype⟩
      · simp only [if_neg htype]
        refine ⟨nofun, ?_⟩
        rintro ⟨_, h, htype'⟩
        cases h
        exact absurd htype' htype

/-- A port that can be used is the first one of its name. -/
theorem exists_place {ports : List (Port τ)} {p : Port τ} (h : refusal? ports p = none) :
    ∃ i, ports.findIdx? (·.name == p.name) = some i ∧ ports[i]? = some p := by
  obtain ⟨q, hq, htype⟩ := refusal?_eq_none_iff.mp h
  have hname : (q.name == p.name) = true :=
    List.find?_some (p := fun x : Port τ => x.name == p.name) hq
  cases eq_of_name_type (beq_iff_eq.mp hname) htype
  rw [List.find?_eq_bind_findIdx?_getElem?] at hq
  exact Option.bind_eq_some_iff.mp hq

/-- The first declaration of a name can be used. -/
theorem refusal?_of_place {ports : List (Port τ)} {p : Port τ} {i : Nat}
    (hi : ports.findIdx? (·.name == p.name) = some i) (hp : ports[i]? = some p) :
    refusal? ports p = none := by
  refine refusal?_eq_none_iff.mpr ⟨p, ?_, rfl⟩
  rw [List.find?_eq_bind_findIdx?_getElem?, hi, Option.bind_some, hp]

end Port

/-! ## Calls and their histories -/

/-- A call of a client on its bags. -/
inductive BagsCall (τ : Type) [MessageType τ]
  | push (port : Port τ) (value : MessageType.Value port.type)
  | extend (port : Port τ) (values : List (MessageType.Value port.type))
  | get (port : Port τ)
  | clear

namespace BagsCall

/-- The port that a call is about. -/
def port? : BagsCall τ → Option (Port τ)
  | push p _ => some p
  | extend p _ => some p
  | get p => some p
  | clear => none

/-- What a call answers: the values on a port, if it reads one. -/
def Answer : BagsCall τ → Type
  | get p => List (MessageType.Value p.type)
  | _ => Unit

def isClear : BagsCall τ → Bool
  | clear => true
  | _ => false

/-- What a call adds at a port. -/
def added (p : Port τ) : BagsCall τ → List (MessageType.Value p.type)
  | push q value => if h : q = p then [h ▸ value] else []
  | extend q values => if h : q = p then h ▸ values else []
  | get _ => []
  | clear => []

/-- The calls since everything was cleared. -/
def sinceClear (history : List (BagsCall τ)) : List (BagsCall τ) :=
  (history.reverse.takeWhile (!·.isClear)).reverse

/-- **What was added at a port** since everything was cleared, in order. -/
def kept (p : Port τ) (history : List (BagsCall τ)) : List (MessageType.Value p.type) :=
  (sinceClear history).flatMap (added p)

theorem kept_clear (p : Port τ) (history : List (BagsCall τ)) :
    kept p (history ++ [.clear]) = [] := by
  rw [kept, sinceClear, List.reverse_append]
  rfl

theorem kept_append {c : BagsCall τ} (hc : c.isClear = false) (p : Port τ)
    (history : List (BagsCall τ)) : kept p (history ++ [c]) = kept p history ++ c.added p := by
  have hsince : sinceClear (history ++ [c]) = sinceClear history ++ [c] := by
    rw [sinceClear, sinceClear, List.reverse_append, List.reverse_singleton, List.singleton_append,
      List.takeWhile_cons_of_pos (by rw [hc]; rfl), List.reverse_cons]
  rw [kept, kept, hsince, List.flatMap_append, List.flatMap_singleton]

/-- What is added at a port comes last there. -/
theorem kept_extend_self (p : Port τ) (history : List (BagsCall τ))
    (values : List (MessageType.Value p.type)) :
    kept p (history ++ [.extend p values]) = kept p history ++ values := by
  rw [kept_append rfl, added, dif_pos rfl]

/-- What is added at another port, of another name or of another type, does not count. -/
theorem kept_extend_of_ne {p q : Port τ} (h : q ≠ p) (history : List (BagsCall τ))
    (values : List (MessageType.Value q.type)) :
    kept p (history ++ [.extend q values]) = kept p history := by
  rw [kept_append rfl, added, dif_neg h, List.append_nil]

theorem kept_push (p q : Port τ) (history : List (BagsCall τ))
    (value : MessageType.Value q.type) :
    kept p (history ++ [.push q value]) = kept p (history ++ [.extend q [value]]) := by
  rw [kept_append rfl, kept_append rfl, added, added]
  by_cases h : q = p
  · subst h
    rfl
  · rw [dif_neg h, dif_neg h]

theorem kept_get (p q : Port τ) (history : List (BagsCall τ)) :
    kept p (history ++ [.get q]) = kept p history := by
  rw [kept_append rfl, added, List.append_nil]

/-- A call at a port of another name does not count. -/
theorem kept_of_name_ne {c : BagsCall τ} {p q : Port τ} (hc : c.port? = some q)
    (hne : q.name ≠ p.name) (history : List (BagsCall τ)) :
    kept p (history ++ [c]) = kept p history := by
  have hqp : q ≠ p := fun h => hne (congrArg Port.name h)
  cases c with
  | clear => cases hc
  | get _ => exact kept_get p _ history
  | extend _ values =>
      cases hc
      exact kept_extend_of_ne hqp history values
  | push _ value =>
      cases hc
      rw [kept_push, kept_extend_of_ne hqp]

end BagsCall

/-- A step of a client that holds several values: a call on one of them, or a copy of one. -/
inductive Handling (τ : Type) [MessageType τ]
  | call (place : Nat) (c : BagsCall τ)
  | clone (place : Nat)

namespace Handling

/-- One step. A copy is put behind the others. -/
def apply {α : Type} (f : α → BagsCall τ → α) (values : List α) : Handling τ → List α
  | call place c => values.modify place (f · c)
  | clone place => values ++ values[place]?.toList

/-- **What has become of a first value and of all its copies**, when `f` is what a call does. -/
def all {α : Type} (f : α → BagsCall τ → α) (first : α) (steps : List (Handling τ)) : List α :=
  steps.foldl (apply f) [first]

/-- The histories of all values. A copy has the history of what it was made of. -/
def histories (steps : List (Handling τ)) : List (List (BagsCall τ)) :=
  all (fun history c => history ++ [c]) [] steps

/-- **A value is what its own history makes of the first one.** -/
theorem all_eq_map {α : Type} (f : α → BagsCall τ → α) (first : α) (steps : List (Handling τ)) :
    all f first steps = (histories steps).map (List.foldl f first) := by
  -- One step on the histories is the same step on the values.
  have happly : ∀ (hs : List (List (BagsCall τ))) (s : Handling τ),
      apply f (hs.map (List.foldl f first)) s
        = (apply (fun history c => history ++ [c]) hs s).map (List.foldl f first) := by
    intro hs s
    cases s with
    | call place c =>
        refine List.ext_getElem? fun j => ?_
        rw [apply, apply, List.getElem?_modify, List.getElem?_map, List.getElem?_map,
          List.getElem?_modify]
        cases hs[j]? with
        | none => rfl
        | some h => by_cases hj : place = j <;> simp [hj]
    | clone place =>
        rw [apply, apply, List.map_append, List.getElem?_map, Option.toList_map]
  have hall : ∀ (hs : List (List (BagsCall τ))),
      steps.foldl (apply f) (hs.map (List.foldl f first))
        = (steps.foldl (apply fun history c => history ++ [c]) hs).map (List.foldl f first) := by
    induction steps with
    | nil => exact fun _ => rfl
    | cons s steps ih =>
        intro hs
        rw [List.foldl_cons, List.foldl_cons, happly]
        exact ih _
  exact hall [[]]

end Handling

/-! ## One call -/

namespace Bags

/-- **One call**, with what it answers. A call that is refused leaves the bags. -/
def perform (b : Bags τ) : (c : BagsCall τ) → Except Fault c.Answer × Bags τ
  | .push p value =>
    match b.push p value with
    | .error fault => (.error fault, b)
    | .ok b => (.ok (), b)
  | .extend p values =>
    match b.extend p values with
    | .error fault => (.error fault, b)
    | .ok b => (.ok (), b)
  | .get p => (b.get p, b)
  | .clear => (.ok (), b.clear)

/-- The bags after a call. -/
def after (b : Bags τ) (c : BagsCall τ) : Bags τ := (b.perform c).2

/-- **The bags that belong to a history.** The first declaration of a name has what was kept
there, and a later one has nothing. -/
def declared (ports : List (Port τ)) (history : List (BagsCall τ)) : Bags τ :=
  ⟨ports.zipIdx.map fun x =>
    ⟨x.1, if Port.isFirst ports x then (BagsCall.kept x.1 history).map (Message.mk x.1.type)
      else []⟩⟩

variable {b : Bags τ} {ports : List (Port τ)} {history : List (BagsCall τ)}

/-! ### Looking up a port -/

/-- The place of a name is a matter of the ports alone. -/
theorem place?_eq (b : Bags τ) (name : String) :
    b.place? name = (b.list.map (·.port)).findIdx? (·.name == name) := by
  rw [place?, List.findIdx?_map]
  rfl

theorem exists_bag_of_port (hb : b.list.map (·.port) = ports) {i : Nat} {p : Port τ}
    (hp : ports[i]? = some p) : ∃ bag, b.list[i]? = some bag ∧ bag.port = p := by
  rw [← hb, List.getElem?_map] at hp
  exact Option.map_eq_some_iff.mp hp

/-- **A port that cannot be used** is not found. -/
theorem find_refused (hb : b.list.map (·.port) = ports) {p : Port τ} {fault : Fault}
    (h : Port.refusal? ports p = some fault) : b.find p = .error fault := by
  rw [Port.refusal?, List.find?_eq_bind_findIdx?_getElem?] at h
  cases hi : ports.findIdx? (·.name == p.name) with
  | none =>
      rw [hi] at h
      cases h
      simp only [find, place?_eq, hb, hi]
  | some i =>
      obtain ⟨hlt, -⟩ := List.findIdx?_eq_some_iff_getElem.mp hi
      obtain ⟨bag, hbag, hport⟩ := exists_bag_of_port hb (List.getElem?_eq_getElem hlt)
      rw [hi, Option.bind_some, List.getElem?_eq_getElem hlt, ← hport] at h
      simp only [find, place?_eq, hb, hi, hbag]
      by_cases htype : bag.port.type = p.type
      · simp only [if_pos htype] at h
        cases h
      · simp only [if_neg htype] at h ⊢
        cases h
        rfl

/-- **A port that can be used** is found at its place. -/
theorem find_usable (hb : b.list.map (·.port) = ports) {p : Port τ} {i : Nat}
    (hi : ports.findIdx? (·.name == p.name) = some i) (hp : ports[i]? = some p) :
    ∃ bag, b.find p = .ok (i, bag) ∧ b.list[i]? = some bag := by
  obtain ⟨bag, hbag, hport⟩ := exists_bag_of_port hb hp
  refine ⟨bag, ?_, hbag⟩
  simp only [find, place?_eq, hb, hi, hbag, hport, if_true]

/-! ### Calls on the bags of a history -/

/-- The bag of a declaration. -/
theorem getElem?_declared (i : Nat) :
    (declared ports history).list[i]? = ports[i]?.map fun p =>
      ⟨p, if ports.findIdx? (·.name == p.name) = some i then
        (BagsCall.kept p history).map (Message.mk p.type) else []⟩ := by
  rw [declared, List.getElem?_map, List.getElem?_zipIdx, Option.map_map]
  simp only [Function.comp_def, Port.isFirst, beq_iff_eq, Nat.zero_add]

theorem ports_declared : (declared ports history).list.map (·.port) = ports := by
  rw [declared, List.map_map]
  exact List.zipIdx_map_fst 0 ports

/-- Bags belong to two histories that kept the same at all ports which can be used. -/
theorem declared_congr {history' : List (BagsCall τ)}
    (h : ∀ p, Port.refusal? ports p = none → BagsCall.kept p history = BagsCall.kept p history') :
    declared ports history = declared ports history' := by
  refine congrArg Bags.mk (List.map_congr_left fun x hx => ?_)
  by_cases hfirst : Port.isFirst ports x = true
  · rw [h _ (Port.refusal?_of_place (beq_iff_eq.mp hfirst) (List.mem_zipIdx_iff_getElem?.mp hx))]
  · rw [if_neg hfirst, if_neg hfirst]

/-- No messages belong to the history without calls. -/
theorem declared_nil (ports : List (Port τ)) : declared ports [] = ofPorts ports := by
  rw [declared, ofPorts]
  conv_rhs => rw [← List.zipIdx_map_fst 0 ports, List.map_map]
  refine congrArg Bags.mk (List.map_congr_left fun x _ => ?_)
  rw [show BagsCall.kept x.1 [] = [] from rfl, List.map_nil, ite_self]
  rfl

/-- Adding values at a port that can be used. -/
theorem append_declared {p : Port τ} {i : Nat} (hi : ports.findIdx? (·.name == p.name) = some i)
    (hp : ports[i]? = some p) (values : List (MessageType.Value p.type)) :
    (declared ports history).append i (values.map (Message.mk p.type))
      = declared ports (history ++ [.extend p values]) := by
  suffices hlist : ((declared ports history).append i (values.map (Message.mk p.type))).list
      = (declared ports (history ++ [.extend p values])).list from congrArg Bags.mk hlist
  refine List.ext_getElem? fun j => ?_
  rw [append, List.getElem?_modify, getElem?_declared, getElem?_declared]
  by_cases hij : i = j
  · subst hij
    rw [hp]
    simp [hi, BagsCall.kept_extend_self]
  · cases hq : ports[j]? with
    | none => rfl
    | some q =>
        -- Only the first place of its name belongs to the port.
        have hkept : ports.findIdx? (·.name == q.name) = some j →
            BagsCall.kept q (history ++ [.extend p values]) = BagsCall.kept q history := by
          intro hj
          have hne : p ≠ q := by
            rintro rfl
            exact hij (Option.some_inj.mp (hi.symm.trans hj))
          exact BagsCall.kept_extend_of_ne hne history values
        by_cases hj : ports.findIdx? (·.name == q.name) = some j
        · simp [hij, hj, hkept hj]
        · simp [hij, hj]

/-- **Adding values** to the bags of a history. -/
theorem after_extend (p : Port τ) (values : List (MessageType.Value p.type)) :
    (declared ports history).after (.extend p values)
      = declared ports (history ++ [.extend p values]) := by
  cases hp : Port.refusal? ports p with
  | some fault =>
      rw [after, perform, extend, find_refused ports_declared hp]
      refine declared_congr fun q hq => ?_
      have hne : p ≠ q := by
        rintro rfl
        cases hp.symm.trans hq
      exact (BagsCall.kept_extend_of_ne hne history values).symm
  | none =>
      obtain ⟨i, hi, hport⟩ := Port.exists_place hp
      have hports : (declared ports history).list.map (·.port) = ports := ports_declared
      obtain ⟨bag, hfind, -⟩ := find_usable hports hi hport
      rw [after, perform, extend, hfind]
      exact append_declared hi hport values

/-- **A call on the bags of a history** leads to those of the longer history. -/
theorem after_declared (c : BagsCall τ) :
    (declared ports history).after c = declared ports (history ++ [c]) := by
  cases c with
  | extend p values => exact after_extend p values
  | push p value =>
      refine (after_extend p [value]).trans (declared_congr fun q _ => ?_)
      exact (BagsCall.kept_push q p history value).symm
  | get p =>
      exact declared_congr fun q _ => (BagsCall.kept_get q p history).symm
  | clear =>
      rw [after, perform, clear, declared, declared, List.map_map]
      refine congrArg Bags.mk (List.map_congr_left fun x _ => ?_)
      rw [BagsCall.kept_clear, List.map_nil, ite_self]
      rfl

/-- **Any number of calls** on the bags of a history. -/
theorem foldl_after_declared (calls : List (BagsCall τ)) :
    ∀ history : List (BagsCall τ),
      calls.foldl after (declared ports history) = declared ports (history ++ calls) := by
  induction calls with
  | nil => exact fun history => by rw [List.foldl_nil, List.append_nil]
  | cons c calls ih =>
      intro history
      rw [List.foldl_cons, after_declared, ih, List.append_assoc, List.singleton_append]

/-! ### What the bags of a history hold -/

/-- Every message has the type of its port. -/
theorem fits_declared : (declared ports history).Fits ports where
  ports_eq := ports_declared
  typed bag hbag m hm := by
    rw [declared, List.mem_map] at hbag
    obtain ⟨x, -, rfl⟩ := hbag
    by_cases hfirst : Port.isFirst ports x = true
    · rw [if_pos hfirst] at hm
      obtain ⟨v, -, rfl⟩ := List.mem_map.mp hm
      rfl
    · rw [if_neg hfirst] at hm
      cases hm

/-- **A port that can be used** reads what was kept there. -/
theorem get_declared {p : Port τ} (hp : Port.refusal? ports p = none) :
    (declared ports history).get p = .ok (BagsCall.kept p history) := by
  obtain ⟨i, hi, hport⟩ := Port.exists_place hp
  have hports : (declared ports history).list.map (·.port) = ports := ports_declared
  obtain ⟨bag, hfind, hbag⟩ := find_usable hports hi hport
  rw [getElem?_declared, hport, Option.map_some, Option.some_inj] at hbag
  simp only [get, hfind, ← hbag, if_pos hi, List.filterMap_map, Function.comp_def,
    Message.value?_mk, List.filterMap_some]

/-- All messages together are what was kept at the ports that can be used. -/
theorem messages_declared :
    (declared ports history).list.flatMap (·.messages)
      = (Port.firsts ports).flatMap fun p => (BagsCall.kept p history).map (Message.mk p.type) := by
  rw [declared, Port.firsts, List.flatMap_map, List.flatMap_map]
  induction ports.zipIdx with
  | nil => rfl
  | cons x xs ih =>
      rw [List.flatMap_cons, ih, List.filter_cons]
      by_cases hfirst : Port.isFirst ports x = true
      · rw [if_pos hfirst, if_pos hfirst, List.flatMap_cons]
      · rw [if_neg hfirst, if_neg hfirst, List.nil_append]

theorem size_declared :
    (declared ports history).size
      = ((Port.firsts ports).map fun p => (BagsCall.kept p history).length).sum := by
  rw [size, messages_declared, List.length_flatMap]
  simp only [List.length_map]

theorem render_declared :
    (declared ports history).render
      = ((Port.firsts ports).filter fun p => !(BagsCall.kept p history).isEmpty).map fun p =>
          (p.name, (BagsCall.kept p history).map (MessageType.render p.type)) := by
  rw [render, declared, Port.firsts]
  induction ports.zipIdx with
  | nil => rfl
  | cons x xs ih =>
      rw [List.map_cons, List.filter_cons, List.filter_cons]
      by_cases hfirst : Port.isFirst ports x = true
      · rw [if_pos hfirst, if_pos hfirst, List.map_cons, List.filter_cons, List.isEmpty_map]
        by_cases hkept : (BagsCall.kept x.1 history).isEmpty = true
        · rw [hkept, Bool.not_true, if_neg Bool.false_ne_true, if_neg Bool.false_ne_true]
          exact ih
        · rw [Bool.eq_false_iff.mpr hkept, Bool.not_false, if_pos rfl, if_pos rfl, List.map_cons,
            List.map_cons, ih, List.map_map]
          rfl
      · rw [if_neg hfirst, if_neg hfirst]
        exact ih

/-- There are no messages exactly if their number is zero. -/
theorem isEmpty_iff_size (b : Bags τ) : b.isEmpty = true ↔ b.size = 0 := by
  rw [isEmpty, size, List.length_eq_zero_iff, List.flatMap_eq_nil_iff, List.all_eq_true]
  simp only [List.isEmpty_iff]

/-! ### The typed map -/

/-- A call at a port that cannot be used is refused, and leaves all bags. -/
theorem perform_refused (hb : b.list.map (·.port) = ports) {c : BagsCall τ} {p : Port τ}
    {fault : Fault} (hc : c.port? = some p) (h : Port.refusal? ports p = some fault) :
    b.perform c = (.error fault, b) := by
  have hfind := find_refused hb h
  -- All calls at a port begin by looking it up.
  cases c with
  | clear => cases hc
  | push q value | extend q values =>
      cases hc
      simp only [perform, push, extend, hfind]
  | get q =>
      cases hc
      have hget : b.get p = .error fault := by rw [get, hfind]
      rw [perform, hget]
      rfl

/-- A call at a port that can be used is answered. -/
theorem perform_usable (hb : b.list.map (·.port) = ports) {c : BagsCall τ} {p : Port τ}
    (hc : c.port? = some p) (h : Port.refusal? ports p = none) :
    ∃ a, (b.perform c).1 = .ok a := by
  obtain ⟨i, hi, hport⟩ := Port.exists_place h
  obtain ⟨bag, hfind, -⟩ := find_usable hb hi hport
  cases c with
  | clear => cases hc
  | push q value | extend q values | get q =>
      cases hc
      simp only [perform, push, extend, get, hfind]
      exact ⟨_, rfl⟩

/-- **Bags that stand for a typed map**, after a history of calls. -/
structure Maps (ports : List (Port τ)) (history : List (BagsCall τ)) (b : Bags τ) : Prop where
  /-- There is a bag for each declaration, and it holds messages of its type only. -/
  fits : b.Fits ports
  /-- A call at a port succeeds exactly if its name is declared, and first with its type. -/
  succeeds : ∀ (c : BagsCall τ) (p : Port τ), c.port? = some p →
    ((∃ a, (b.perform c).1 = .ok a) ↔ ∃ q, ports.find? (·.name == p.name) = some q ∧
      q.type = p.type)
  /-- Every other call at a port is broken off and leaves all bags. -/
  refused : ∀ (c : BagsCall τ) (p : Port τ) (fault : Fault), c.port? = some p →
    Port.refusal? ports p = some fault → b.perform c = (.error fault, b)
  /-- What is read at a port is what was kept there. -/
  get : ∀ (p : Port τ) (values : List (MessageType.Value p.type)), b.get p = .ok values →
    values = BagsCall.kept p history
  /-- Calls at ports of other names do not show at a port. -/
  apart : ∀ (c : BagsCall τ) (p q : Port τ), c.port? = some q → q.name ≠ p.name →
    (b.after c).get p = b.get p
  size : b.size = ((Port.firsts ports).map fun p => (BagsCall.kept p history).length).sum
  isEmpty : b.isEmpty = true ↔ b.size = 0
  /-- The ports with messages are listed in the order of declaration. -/
  render : b.render
    = ((Port.firsts ports).filter fun p => !(BagsCall.kept p history).isEmpty).map fun p =>
        (p.name, (BagsCall.kept p history).map (MessageType.render p.type))

/-- **The bags of a history are a typed map.** -/
theorem maps_declared (ports : List (Port τ)) (history : List (BagsCall τ)) :
    (declared ports history).Maps ports history where
  fits := fits_declared
  succeeds c p hc := by
    rw [← Port.refusal?_eq_none_iff]
    refine ⟨fun ⟨a, ha⟩ => ?_, perform_usable ports_declared hc⟩
    cases hp : Port.refusal? ports p with
    | none => rfl
    | some fault =>
        rw [perform_refused ports_declared hc hp] at ha
        cases ha
  refused _ _ _ := perform_refused ports_declared
  get p values h := by
    cases hp : Port.refusal? ports p with
    | none => exact (Except.ok.inj ((get_declared hp).symm.trans h)).symm
    | some fault =>
        rw [Bags.get, find_refused ports_declared hp] at h
        cases h
  apart c p q hc hne := by
    rw [after_declared]
    cases hp : Port.refusal? ports p with
    | none => rw [get_declared hp, get_declared hp, BagsCall.kept_of_name_ne hc hne]
    | some fault =>
        rw [Bags.get, Bags.get, find_refused ports_declared hp, find_refused ports_declared hp]
  size := size_declared
  isEmpty := isEmpty_iff_size _
  render := render_declared

end Bags

/-- **Bags are a typed map from port names to messages**, for any client and all of its copies.
Take the bags of one side of any interface, and any calls and copies in any order. Every
value there is then is a typed map, that of its own history. -/
theorem bags_typed_map (i : Interface τ) (direction : Direction) (steps : List (Handling τ)) :
    List.Forall₂ (Bags.Maps (i.ports direction)) (Handling.histories steps)
      (Handling.all Bags.after (Bags.ofInterface i direction) steps) := by
  rw [Handling.all_eq_map, List.forall₂_map_right_iff, List.forall₂_same]
  intro history _
  rw [Bags.ofInterface, ← Bags.declared_nil, Bags.foldl_after_declared]
  exact Bags.maps_declared _ history

end DiscreteEvent
