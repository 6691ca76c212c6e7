/-
Which engine a path names.

A path is the ids on the way from the root, joined by dots. Ids are any texts and may contain
dots themselves. So a path does not always say where one id ends and the next one begins: when
`a` is a network with a child `b`, and its sibling is called `a.b`, both have the same path.

`parted_of_path_eq` says that this is the only way in which it happens. The ways to two engines
with one path lead apart at siblings of which one has an id that continues that of the other
with a dot (`Model.Parted`). Siblings have different ids in an accepted tree, so where no
network is continued by a sibling in this way (`Model.Unshadowed`) a path names one engine.

Who has made a record or refused a call is known from elsewhere: `Errand.Says` and
`Crew.RunSays` follow the calls to the engine that speaks. It always speaks under its own path.
So where a path names one engine, the path in a record or a refusal tells who has spoken
(`paths_identify`).
-/
import DiscreteEvent.Proofs.Flat.Speakers
import DiscreteEvent.Proofs.Model.Counterparts

set_option autoImplicit false

namespace DiscreteEvent

variable {τ σ ω : Type}

/-! ## Ids and dots -/

/-- **The second text continues the first one** with a dot, and anything after it. -/
def Continues (x y : String) : Prop := ∃ rest, y = x ++ "." ++ rest

/-- What can follow an id in a path: nothing, or something that begins with a dot. -/
def Follows (rest : List Char) : Prop := rest = [] ∨ ∃ cs, rest = '.' :: cs

theorem toList_childPath (parent id : String) :
    (childPath (some parent) id).toList = parent.toList ++ '.' :: id.toList := by
  simp [childPath, String.toList_append]

theorem continues_of_toList {x y : String} {cs : List Char} (h : y.toList = x.toList ++ '.' :: cs) :
    Continues x y := by
  refine ⟨String.ofList cs, String.toList_inj.mp ?_⟩
  simp [h, String.toList_append]

theorem continues_iff {x y : String} : Continues x y ↔ x.toList ++ ['.'] <+: y.toList := by
  constructor
  · rintro ⟨rest, rfl⟩
    exact ⟨rest.toList, by simp [String.toList_append]⟩
  · rintro ⟨cs, hcs⟩
    exact continues_of_toList (by rw [← hcs, List.append_assoc]; rfl)

/-- Whether it does can be read off. -/
instance (x y : String) : Decidable (Continues x y) := decidable_of_iff _ continues_iff.symm

/-- **Two ways to read one text** as an id and what follows it: unless the ids are the same,
the longer one continues the shorter one. -/
theorem continues_of_append_eq {x y : String} {r s : List Char}
    (h : x.toList ++ r = y.toList ++ s) (hne : x ≠ y) (hr : Follows r) (hs : Follows s) :
    (r ≠ [] ∧ Continues x y) ∨ (s ≠ [] ∧ Continues y x) := by
  -- The rest of the shorter one begins with a dot, and so does what the longer one has more.
  have hone : ∀ {x y : String} {r s t : List Char}, x ≠ y → Follows r → y.toList = x.toList ++ t →
      r = t ++ s → r ≠ [] ∧ Continues x y := by
    intro x y r s t hne hr hy hrt
    cases t with
    | nil => exact absurd (String.toList_inj.mp (by rw [hy, List.append_nil])) hne
    | cons c t =>
        rcases hr with rfl | ⟨cs, rfl⟩
        · cases hrt
        · cases hrt
          exact ⟨List.cons_ne_nil _ _, continues_of_toList hy⟩
  rcases List.append_eq_append_iff.mp h with ⟨t, hy, hrt⟩ | ⟨t, hx, hst⟩
  · exact .inl (hone hne hr hy hrt)
  · exact .inr (hone (Ne.symm hne) hs hx hst)

/-! ## Trees -/

namespace Model

/-- **Where the ways to two addresses part**, the second one leads to a child whose id continues
that of the child on the first way, which goes on from there. -/
inductive Parted : Model τ σ → List Nat → List Nat → Prop
  | here {c : Coupled τ} {ms : List (Model τ σ)} {i j : Nat} {x y : Model τ σ} {a b : List Nat}
      (first : ms[i]? = some x) (second : ms[j]? = some y) (onward : a ≠ [])
      (continues : Continues x.id y.id) : Parted (.coupled c ms) (i :: a) (j :: b)
  | under {c : Coupled τ} {ms : List (Model τ σ)} {i : Nat} {x : Model τ σ} {a b : List Nat}
      (child : ms[i]? = some x) (h : Parted x a b) : Parted (.coupled c ms) (i :: a) (i :: b)

/-- **No id continues that of a sibling** that is a network. -/
inductive Unshadowed : Model τ σ → Prop
  | atomic {a : Atomic τ σ} : Unshadowed (.atomic a)
  | coupled {c : Coupled τ} {ms : List (Model τ σ)}
      (apart : ∀ x ∈ ms, ∀ y ∈ ms, (∃ c' ms', x = .coupled c' ms') → ¬Continues x.id y.id)
      (each : ∀ m ∈ ms, Unshadowed m) : Unshadowed (.coupled c ms)

end Model

/-- No two siblings in the tower of doublers run into each other. -/
theorem Doubler.unshadowed_tower : tower.Unshadowed := by
  refine .coupled (fun x hx y hy _ => ?_) fun m hm => ?_
  · rcases List.mem_pair.mp hx with rfl | rfl <;> rcases List.mem_pair.mp hy with rfl | rfl <;>
      decide +kernel
  · rcases List.mem_pair.mp hm with rfl | rfl
    · refine .coupled (fun x hx y hy _ => ?_) fun m hm => ?_
      · rcases List.mem_pair.mp hx with rfl | rfl <;>
          rcases List.mem_pair.mp hy with rfl | rfl <;> decide +kernel
      · rcases List.mem_pair.mp hm with rfl | rfl <;> exact .atomic
    · exact .atomic

variable [MessageType τ]

namespace Engine

/-! ## Paths of a new tree -/

theorem pathAt_ofModelBelow_cons (parent : Option String) (c : Coupled τ) (ms : List (Model τ σ))
    (i : Nat) (a : List Nat) :
    (ofModelBelow parent (.coupled c ms)).pathAt? (i :: a)
      = ms[i]?.bind fun x => (ofModelBelow (some (childPath parent c.id)) x).pathAt? a := by
  rw [ofModelBelow, pathAt?, getElem?_ofModelsBelow]
  cases ms[i]? <;> rfl

/-- Only a network has something below it. -/
theorem exists_coupled_of_pathAt {parent : Option String} {x : Model τ σ} {a : List Nat}
    {p : String} (h : (ofModelBelow parent x).pathAt? a = some p) (ha : a ≠ []) :
    ∃ c ms, x = .coupled c ms := by
  cases x with
  | coupled c ms => exact ⟨c, ms, rfl⟩
  | atomic atom =>
      cases a with
      | nil => exact absurd rfl ha
      | cons i a => cases h

/-- **A path begins with that of the root**, and goes on with a dot if it leads further. -/
theorem exists_follows {a : List Nat} :
    ∀ {m : Model τ σ} {parent : Option String} {p : String},
      (ofModelBelow parent m).pathAt? a = some p →
      ∃ rest, p.toList = (childPath parent m.id).toList ++ rest ∧ Follows rest ∧
        (rest = [] ↔ a = []) := by
  induction a with
  | nil =>
      intro m parent p h
      refine ⟨[], ?_, .inl rfl, by simp⟩
      cases m <;> cases h <;> exact (List.append_nil _).symm
  | cons i a ih =>
      intro m parent p h
      obtain ⟨c, ms, rfl⟩ := exists_coupled_of_pathAt h (List.cons_ne_nil _ _)
      rw [pathAt_ofModelBelow_cons] at h
      obtain ⟨x, -, h⟩ := Option.bind_eq_some_iff.mp h
      -- The dot is the one between the id of the root and that of the child.
      obtain ⟨rest, hp, -⟩ := ih h
      refine ⟨'.' :: (x.id.toList ++ rest), ?_, .inr ⟨_, rfl⟩, by simp⟩
      rw [hp, toList_childPath, List.append_assoc]
      rfl

/-- **Engines with the same path** lie on ways that part at an id which continues another. -/
theorem parted_of_path_eq {a : List Nat} :
    ∀ {m : Model τ σ} {parent : Option String} {b : List Nat} {p : String}, m.Identified →
      (ofModelBelow parent m).pathAt? a = some p → (ofModelBelow parent m).pathAt? b = some p →
      a = b ∨ m.Parted a b ∨ m.Parted b a := by
  -- An engine has another path than those below it, whose paths are longer.
  have hroot : ∀ {m : Model τ σ} {parent : Option String} {b : List Nat} {p : String},
      (ofModelBelow parent m).pathAt? [] = some p → (ofModelBelow parent m).pathAt? b = some p →
      b = [] := by
    intro m parent b p ha hb
    obtain ⟨rest, hp, -, hrest⟩ := exists_follows ha
    obtain ⟨rest', hp', -, hrest'⟩ := exists_follows hb
    rw [hrest.mpr rfl] at hp
    exact hrest'.mp (List.append_cancel_left (hp'.symm.trans hp))
  induction a with
  | nil => exact fun _ ha hb => .inl (hroot ha hb).symm
  | cons i a ih =>
      intro m parent b p hm ha hb
      cases b with
      | nil => exact .inl (hroot hb ha)
      | cons j b =>
          obtain ⟨c, ms, rfl⟩ := exists_coupled_of_pathAt ha (List.cons_ne_nil _ _)
          rw [pathAt_ofModelBelow_cons] at ha hb
          obtain ⟨x, hx, ha⟩ := Option.bind_eq_some_iff.mp ha
          obtain ⟨y, hy, hb⟩ := Option.bind_eq_some_iff.mp hb
          cases hm with
          | coupled ids each =>
              -- The ways go on below the same child, or they part here.
              by_cases hij : i = j
              · subst hij
                cases hx.symm.trans hy
                rcases ih (each x (List.mem_of_getElem? hx)) ha hb with rfl | h | h
                · exact .inl rfl
                · exact .inr (.inl (.under hx h))
                · exact .inr (.inr (.under hx h))
              · have hid : x.id ≠ y.id := by
                  intro hid
                  have hplace : (ms.map Model.id)[i]? = (ms.map Model.id)[j]? := by
                    rw [List.getElem?_map, List.getElem?_map, hx, hy, Option.map_some,
                      Option.map_some, hid]
                  have hlt : i < (ms.map Model.id).length := by
                    rw [List.length_map]
                    exact (List.getElem?_eq_some_iff.mp hx).1
                  exact hij ((List.getElem?_inj hlt ids).mp hplace)
                obtain ⟨r, hp, hr, hra⟩ := exists_follows ha
                obtain ⟨s, hp', hs, hsb⟩ := exists_follows hb
                -- Both paths have the path of the parent and a dot in front.
                rw [hp, toList_childPath, toList_childPath, List.append_assoc,
                  List.append_assoc] at hp'
                have hsame := (List.cons.inj (List.append_cancel_left hp')).2
                rcases continues_of_append_eq hsame hid hr hs with ⟨hne, h⟩ | ⟨hne, h⟩
                · exact .inr (.inl (.here hx hy (fun ha => hne (hra.mpr ha)) h))
                · exact .inr (.inr (.here hy hx (fun hb => hne (hsb.mpr hb)) h))

theorem pathAt_of_leafAt {a : List Nat} {l : Leaf τ σ} :
    ∀ {e : Engine τ σ}, e.leafAt? a = some l → e.pathAt? a = some l.path := by
  induction a with
  | nil =>
      intro e h
      cases e <;> cases h
      rfl
  | cons i a ih =>
      intro e h
      cases e with
      | leaf => cases h
      | hub hub es =>
          obtain ⟨c, hc, h⟩ := Option.bind_eq_some_iff.mp h
          rw [pathAt?, hc]
          exact ih h

end Engine

omit [MessageType τ] in
/-- Where nothing is asked of the models, all of them are good. -/
theorem Model.allGood_trivial (m : Model τ σ) : m.AllGood fun _ _ _ => True := by
  induction m using Model.induction with
  | atomic a => exact .atomic trivial
  | coupled c ms ih => exact .coupled ih

/-- **A leaf of a crew has the path of the leaf of the tree** that has its number. -/
theorem Crew.exists_address {wished : Nat} {m : Model τ σ} {i : Nat} {l : Leaf τ σ}
    (h : (ofModel wished m).leaves[i]? = some l) :
    ∃ a atom, m.atomAt? a = some atom ∧ m.number a = i ∧
      (Engine.ofModel m).pathAt? a = some l.path := by
  have hs := Engine.sound_ofModelBelow m.allGood_trivial none
  have hl : (Engine.ofModelBelow none m).leaves[i]? = some l := by
    rw [← FlatPart.leaves_eq m (n := 0)]
    exact h
  have hlt : i < m.atoms.length := by
    rw [← hs.length_leaves]
    exact (List.getElem?_eq_some_iff.mp hl).1
  obtain ⟨a, atom, hatom, rfl⟩ := m.exists_number hlt
  obtain ⟨l', hl', -⟩ := hs.exists_leaf.1 hatom
  cases hl.symm.trans (hs.getElem?_leaves hl')
  exact ⟨a, atom, hatom, rfl, Engine.pathAt_of_leafAt hl'⟩

namespace Model

/-- Where no network is continued by a sibling, no ways part in this manner. -/
theorem Unshadowed.not_parted {m : Model τ σ} {a b : List Nat} {parent : Option String}
    {p : String} (h : m.Unshadowed) (hp : m.Parted a b)
    (ha : (Engine.ofModelBelow parent m).pathAt? a = some p) : False := by
  induction hp generalizing parent with
  | @here c ms i j x y a b hx hy hne hcontinues =>
      rw [Engine.pathAt_ofModelBelow_cons, hx, Option.bind_some] at ha
      cases h with
      | coupled apart =>
          exact apart x (List.mem_of_getElem? hx) y (List.mem_of_getElem? hy)
            (Engine.exists_coupled_of_pathAt ha hne) hcontinues
  | under hx _ ih =>
      rw [Engine.pathAt_ofModelBelow_cons, hx, Option.bind_some] at ha
      cases h with
      | coupled _ each => exact ih (each _ (List.mem_of_getElem? hx)) ha

/-- **A path names one engine**, in an accepted tree where no network is continued by a
sibling. -/
theorem Unshadowed.address_eq {m : Model τ σ} {a b : List Nat} {parent : Option String}
    {p : String} (h : m.Unshadowed) (hm : m.Identified)
    (ha : (Engine.ofModelBelow parent m).pathAt? a = some p)
    (hb : (Engine.ofModelBelow parent m).pathAt? b = some p) : a = b := by
  rcases Engine.parted_of_path_eq hm ha hb with hab | hab | hab
  · exact hab
  · exact (h.not_parted hab ha).elim
  · exact (h.not_parted hab hb).elim

end Model

/-! ## Paths of a crew -/

section Crews

variable {m : Model τ σ} {wished : Nat}

/-- **The leaves of a crew have different paths**, where those of the tree have. -/
theorem Crew.eq_of_leaf_path (hm : m.Unshadowed) (hid : m.Identified) {i j : Nat} {p : String}
    (hi : (ofModel wished m).pathAt? [i] = some p) (hj : (ofModel wished m).pathAt? [j] = some p) :
    i = j := by
  obtain ⟨l, hl, rfl⟩ := Option.map_eq_some_iff.mp hi
  obtain ⟨l', hl', hpath⟩ := Option.map_eq_some_iff.mp hj
  obtain ⟨a, _, -, rfl, ha⟩ := exists_address hl
  obtain ⟨b, _, -, rfl, hb⟩ := exists_address hl'
  rw [hpath] at hb
  rw [hm.address_eq hid ha hb]

/-- The root of a network has another path than the leaves. -/
theorem Crew.leaf_path_ne (hm : m.Unshadowed) (hid : m.Identified) {c : Coupled τ}
    {ms : List (Model τ σ)} (hcoupled : m = .coupled c ms) {i : Nat} {p : String}
    (hi : (ofModel wished m).pathAt? [i] = some p)
    (hroot : (ofModel wished m).pathAt? [] = some p) : False := by
  obtain ⟨l, hl, rfl⟩ := Option.map_eq_some_iff.mp hi
  obtain ⟨a, _, hatom, -, ha⟩ := exists_address hl
  have hempty : (Engine.ofModel m).pathAt? [] = some l.path := by
    rw [← hroot]
    exact congrArg some (Engine.path_ofModel m)
  cases hm.address_eq hid ha hempty
  rw [hcoupled] at hatom
  cases hatom

theorem Crew.address_eq (hm : m.Unshadowed) (hid : m.Identified) {c : Coupled τ}
    {ms : List (Model τ σ)} (hcoupled : m = .coupled c ms) {a b : List Nat} {p : String}
    (ha : (ofModel wished m).pathAt? a = some p) (hb : (ofModel wished m).pathAt? b = some p) :
    a = b := by
  match a, b with
  | [], [] => rfl
  | [_], [] => exact (leaf_path_ne hm hid hcoupled ha hb).elim
  | [], [_] => exact (leaf_path_ne hm hid hcoupled hb ha).elim
  | [_], [_] => exact congrArg (fun i => [i]) (eq_of_leaf_path hm hid ha hb)
  | _ :: _ :: _, _ => cases ha
  | _, _ :: _ :: _ => cases hb

end Crews

/-! ## Who has spoken -/

/-- **What was uttered tells who has spoken**: it was said by an engine, under its own path; and
where the paths are `clear`, no other engine has that path. -/
structure TellsWho (pathAt : List Nat → Option String) (uttered : Utterance → Prop)
    (speaks : List Nat → Utterance → Prop) (clear : Prop) : Prop where
  spoken : ∀ x, uttered x → ∃ a, speaks a x
  named : ∀ a x, speaks a x → pathAt a = some x.path
  one : clear → ∀ a x, speaks a x → ∀ b, pathAt b = some x.path ↔ b = a

omit [MessageType τ] in
theorem tellsWho {pathAt : List Nat → Option String} {uttered : Utterance → Prop}
    {speaks : List Nat → Utterance → Prop} {clear : Prop}
    (hone : clear → ∀ a b p, pathAt a = some p → pathAt b = some p → a = b)
    (hspoken : ∀ x, uttered x → ∃ a, speaks a x)
    (hnamed : ∀ a x, speaks a x → pathAt a = some x.path) :
    TellsWho pathAt uttered speaks clear where
  spoken := hspoken
  named := hnamed
  one hclear a x hspeech b :=
    ⟨fun hb => hone hclear b a _ hb (hnamed a x hspeech), fun hb => hb ▸ hnamed a x hspeech⟩

variable [AtomicModel τ σ] [Observer ω] {m : Model τ σ}

/-- **What a path says.** Two engines of an accepted tree with the same path lie on ways that
part at siblings of which one has an id that continues that of the other with a dot, the
other one being a network. Where there are no such siblings, no two engines of the tree have one
path, nor have two leaves of a crew, nor has a leaf the path of the root, if that is a network; and
the paths stay with the engines.

Whatever models and observers do, each record that is made and each refusal that comes out of a
call or a run was said by one of the engines under its own path; so the path tells who it was. The
root of a crew for an atomic model has the path of its only leaf. -/
theorem paths_identify (hacc : m.Accepted) :
    (∀ a b p, (Engine.ofModel m).pathAt? a = some p → (Engine.ofModel m).pathAt? b = some p →
      a = b ∨ m.Parted a b ∨ m.Parted b a) ∧
    (m.Unshadowed →
      (∀ e : Engine τ σ, e.Driven ω m → ∀ a b p, e.pathAt? a = some p → e.pathAt? b = some p →
        a = b) ∧
      ∀ (wished : Nat) (c : Crew τ σ), c.Driven ω m wished →
        (∀ (i j : Nat) (l l' : Leaf τ σ), c.leaves[i]? = some l → c.leaves[j]? = some l' →
          l.path = l'.path → i = j) ∧
        ((∃ k ms, m = .coupled k ms) → ∀ a b p, c.pathAt? a = some p → c.pathAt? b = some p →
          a = b)) ∧
    (∀ e : Engine τ σ, e.Driven ω m →
      (∀ (c : Call τ) (w : World (Filed ω)),
        TellsWho (e.pathAt? ·) ((e.perform w c).Utters w) (e.Says w c) m.Unshadowed) ∧
      ∀ (π : Type) [Supervisor π] (n : Nat) (p : π) (w : World (Filed ω))
        (o : Outcome (Engine τ σ × π) (Filed ω)), e.run n p w = some o →
        TellsWho (e.pathAt? ·) (o.Utters w) (Engine.RunSays n e p w) m.Unshadowed) ∧
    ∀ (wished : Nat) (c : Crew τ σ), c.Driven ω m wished →
      (∀ (t : Instant) (w : World (Filed ω)),
        TellsWho c.pathAt? ((c.init t w).Utters w) (c.InitSays t w)
          (m.Unshadowed ∧ ∃ k ms, m = .coupled k ms)) ∧
      (∀ (port : Port τ) (values : List (MessageType.Value port.type)) (w : World (Filed ω))
        (x : Utterance), ¬(c.inject port values w).Utters w x) ∧
      (∀ (π : Type) [Supervisor π] (n : Nat) (plan : Nat → Timetable) (p : π)
        (w : World (Filed ω)) (o : Outcome (Crew τ σ × π) (Filed ω)), c.runOn n plan p w = some o →
        TellsWho c.pathAt? (o.Utters w) (c.RunSays n plan p w)
          (m.Unshadowed ∧ ∃ k ms, m = .coupled k ms)) ∧
      ∀ atom, m = .atomic atom → c.leaves.length = 1 ∧ c.pathAt? [0] = c.pathAt? [] := by
  have hid := hacc.identified
  have hone : m.Unshadowed → ∀ e : Engine τ σ, e.Driven ω m → ∀ a b p, e.pathAt? a = some p →
      e.pathAt? b = some p → a = b := by
    intro hm e he a b p ha hb
    rw [he.samePaths] at ha hb
    exact hm.address_eq hid ha hb
  have hpaths : ∀ {wished : Nat} {c : Crew τ σ}, c.Driven ω m wished →
      ∀ a, c.pathAt? a = (Crew.ofModel wished m).pathAt? a :=
    fun hc => Crew.pathAt_congr (hc.steady Crew.steady_paths)
  have honecrew : ∀ {wished : Nat} {c : Crew τ σ}, c.Driven ω m wished →
      (m.Unshadowed ∧ ∃ k ms, m = .coupled k ms) → ∀ a b p, c.pathAt? a = some p →
      c.pathAt? b = some p → a = b := by
    rintro wished c hc ⟨hm, k, ms, hcoupled⟩ a b p ha hb
    rw [hpaths hc] at ha hb
    exact Crew.address_eq hm hid hcoupled ha hb
  refine ⟨fun a b p ha hb => Engine.parted_of_path_eq hid ha hb, fun hm => ⟨hone hm, ?_⟩, ?_, ?_⟩
  · refine fun wished c hc => ⟨fun i j l l' hl hl' hpath => ?_, fun hcoupled =>
      honecrew hc ⟨hm, hcoupled⟩⟩
    have hi : c.pathAt? [i] = some l.path := by rw [Crew.pathAt?, hl, Option.map_some]
    have hj : c.pathAt? [j] = some l.path := by rw [Crew.pathAt?, hl', Option.map_some, hpath]
    rw [hpaths hc] at hi hj
    exact Crew.eq_of_leaf_path hm hid hi hj
  · exact fun e he => ⟨fun c w => tellsWho (hone · e he) (fun x => (e.utters_perform w c).mp)
        fun a x => Engine.Says.named,
      fun π _ n p w o ho => tellsWho (hone · e he)
        (fun x => (Engine.utters_run ho).2.mp) fun a x => Engine.RunSays.named⟩
  · refine fun wished c hc => ⟨fun t w => tellsWho (honecrew hc)
        (fun x => (c.utters_init t w).mp) fun a x => Crew.InitSays.named,
      fun port values w x => Crew.not_utters_inject port values c w,
      fun π _ n plan p w o ho => tellsWho (honecrew hc)
        (fun x => Crew.exists_runSays ho) fun a x => Crew.RunSays.named, ?_⟩
    rintro atom rfl
    refine ⟨congrArg Prod.fst hc.shape, ?_⟩
    rw [hpaths hc, hpaths hc]
    rfl

/-- In the tower of doublers the record under the path of the first one of the pair was made by
it: when the tree is asked for its outputs, and when a crew of two workers runs. -/
theorem paths_identify_tower :
    let w : World (Filed Recorder) := ⟨⟨{}, []⟩, false⟩
    let t : Instant := ⟨2, 0, by decide⟩
    let u : Until := ⟨⟨3, 0, by decide⟩⟩
    let path : String := "tower.pair.first"
    let e := ((Engine.ofModel Doubler.tower).init .epoch (⟨{}, false⟩ : World Recorder)).state
    let c := ((Crew.ofModel 2 Doubler.tower).init .epoch (⟨{}, false⟩ : World Recorder)).state
    (Doubler.tower.Accepted ∧ Doubler.tower.Unshadowed ∧ e.Driven Recorder Doubler.tower ∧
      c.Driven Recorder Doubler.tower 2) ∧
    (∃ r, (e.perform w (.collect t)).Utters w (.record r) ∧ r.path = path ∧
      e.Says w (.collect t) [0, 0] (.record r) ∧ ∀ b, e.pathAt? b = some r.path ↔ b = [0, 0]) ∧
    ∃ o r, c.runOn 2 (fun _ => {}) u w = some o ∧ o.Utters w (.record r) ∧ r.path = path ∧
      c.RunSays 2 (fun _ => {}) u w [0] (.record r) ∧ ∀ b, c.pathAt? b = some r.path ↔ b = [0] := by
  intro w t u path e c
  have hclear := Doubler.unshadowed_tower
  have he : e.Driven Recorder Doubler.tower := .call (c := .init .epoch) .create trivial
  have hc : c.Driven Recorder Doubler.tower 2 := .init .create
  obtain ⟨-, -, htree, hcrew⟩ := paths_identify (ω := Recorder) Doubler.accepted_tower
  refine ⟨⟨Doubler.accepted_tower, hclear, he, hc⟩, ?_, ?_⟩
  · obtain ⟨r, hr, hpath⟩ : ∃ r ∈ (e.perform w (.collect t)).world.observer.records,
        r.path = path := by decide +kernel
    have hx : (e.perform w (.collect t)).Utters w (.record r) :=
      .record (List.nil_append _).symm hr
    obtain ⟨spoken, -, one⟩ := (htree e he).1 (.collect t) w
    obtain ⟨a, hspeech⟩ := spoken _ hx
    have ha : [0, 0] = a := (one hclear a _ hspeech [0, 0]).mp (by
      rw [Utterance.path, hpath]
      decide +kernel)
    subst ha
    exact ⟨r, hx, hpath, hspeech, one hclear _ _ hspeech⟩
  · obtain ⟨o, ho⟩ : ∃ o, c.runOn 2 (fun _ => {}) u w = some o :=
      Option.isSome_iff_exists.mp (by decide +kernel)
    have hrecords : ∃ r ∈ ((c.runOn 2 (fun _ => {}) u w).map (·.world.observer.records)).getD [],
        r.path = path := by decide +kernel
    rw [ho] at hrecords
    obtain ⟨r, hr, hpath⟩ := hrecords
    have hx : o.Utters w (.record r) := .record (List.nil_append _).symm hr
    obtain ⟨spoken, -, one⟩ := (hcrew 2 c hc).2.2.1 Until 2 (fun _ => {}) u w o ho
    obtain ⟨a, hspeech⟩ := spoken _ hx
    have hone := one ⟨hclear, _, _, rfl⟩ a _ hspeech
    have ha : [0] = a := (hone [0]).mp (by
      rw [Utterance.path, hpath]
      decide +kernel)
    subst ha
    exact ⟨o, r, ho, hx, hpath, hspeech, hone⟩

/-! ## Two engines with one path -/

namespace Doubler

/-- A network `a` with a doubler `b` in it. -/
def inner : Blueprint Payload Doubler where
  id := "a"
  interface := ⟨[], []⟩
  children := [atom "b" 1]
  eic := []
  eoc := []
  ic := []

/-- The network `a`, and beside it a doubler `a.b`. -/
def outer (a : Model Payload Doubler) : Blueprint Payload Doubler where
  id := "top"
  interface := ⟨[], []⟩
  children := [a, atom "a.b" 1]
  eic := []
  eoc := []
  ic := []

/-- The model of both descriptions. -/
def ambiguous : Model Payload Doubler :=
  .coupled ⟨"top", ⟨[], []⟩, [], [], []⟩
    [.coupled ⟨"a", ⟨[], []⟩, [], [], []⟩ [atom "b" 1], atom "a.b" 1]

theorem accepted_ambiguous : ambiguous.Accepted := by
  refine .coupled (b := outer (.coupled ⟨"a", ⟨[], []⟩, [], [], []⟩ [atom "b" 1]))
    (fun m hm => ?_) rfl
  rcases List.mem_pair.mp hm with rfl | rfl
  · refine .coupled (b := inner) (fun m hm => ?_) rfl
    rw [List.mem_singleton.mp hm]
    exact accepted_atom _ _
  · exact accepted_atom _ _

/-- **One path for two engines.** The tree is accepted, and two of its atomic models are called
`top.a.b`, in the tree as well as among the leaves of a crew. -/
theorem same_path_ambiguous :
    ambiguous.Accepted ∧ [0, 0] ≠ [1] ∧
    (Engine.ofModel ambiguous).pathAt? [0, 0] = some "top.a.b" ∧
    (Engine.ofModel ambiguous).pathAt? [1] = some "top.a.b" ∧
    (Crew.ofModel 1 ambiguous).leaves.map (·.path) = ["top.a.b", "top.a.b"] :=
  ⟨accepted_ambiguous, by decide, by decide +kernel, by decide +kernel, by decide +kernel⟩

end Doubler

end DiscreteEvent
