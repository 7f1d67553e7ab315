import Bytecode.Proofs.Flow

/-! The stack map is a fixpoint of the simulation, provided that jumps backward bring nothing new.
Along every edge of the flow of control the state that goes out is below the one held where the
edge leads, and the frames of the table are the states held at their positions. -/
namespace Bytecode

theorem exists_last {α : Type} {P : α → Prop} {xs : List α} (h : ∃ x ∈ xs, P x) :
    ∃ first x last, xs = first ++ x :: last ∧ P x ∧ ∀ y ∈ last, ¬ P y := by
  induction xs with
  | nil => simp at h
  | cons a rest ih =>
    by_cases later : ∃ x ∈ rest, P x
    · obtain ⟨first, x, last, rfl, hx, none⟩ := ih later
      exact ⟨a :: first, x, last, rfl, hx, none⟩
    · refine ⟨[], a, rest, rfl, ?_, fun y hy hp => later ⟨y, hy, hp⟩⟩
      obtain ⟨x, member, hx⟩ := h
      rcases List.mem_cons.mp member with rfl | member
      · exact hx
      · exact absurd ⟨x, member, hx⟩ later

namespace Simulation

def Jumps (scene : Scene) (initial : Frame) (sights : List Sight) (q : Nat) (g : Frame) (p : Nat) :
    Prop :=
  ∃ test source target f, .jump test source target ∈ sights ∧
    scene.labels.positionOf source = .ok q ∧ scene.labels.positionOf target = .ok p ∧
    heldAt scene initial sights q = some f ∧ f.leave test = .ok g

inductive Edge (pool : Pool) (scene : Scene) (handlers : List Handler) (initial : Frame)
    (sights : List Sight) : Frame → Nat → Prop where
  | falls {o : Outcome} {l : Leaf} {q : Nat} {f g : Frame} : .insn o l q ∈ sights →
    heldAt scene initial sights q = some f → f.execute l o.type q scene.this = .ok g →
    o.ends = false → Edge pool scene handlers initial sights g (q + (l.octets pool).length)
  | throws {o : Outcome} {l : Leaf} {q : Nat} {f : Frame} {h : Handler} {name : BinaryName} :
    .insn o l q ∈ sights → heldAt scene initial sights q = some f → h ∈ handlers →
    h.start.toNat ≤ q → q < h.stop.toNat → h.Catches pool name →
    Edge pool scene handlers initial sights (f.withStack [.object (.object name)]) h.handler.toNat
  | jumps {q p : Nat} {g : Frame} : Jumps scene initial sights q g p →
    Edge pool scene handlers initial sights g p
  | passes {test : Test} {source target : Label} {q : Nat} {f g : Frame} :
    .jump (some test) source target ∈ sights → scene.labels.positionOf source = .ok q →
    heldAt scene initial sights q = some f → f.branch test = .ok g →
    Edge pool scene handlers initial sights g (q + 3)

def BackAbsorbed (scene : Scene) (initial : Frame) (sights : List Sight) : Prop :=
  ∀ q g p, Jumps scene initial sights q g p → p ≤ q →
    ∃ u, heldAt scene initial sights p = some u ∧ u.Absorbs g

/-- The states held are those of a method that can be run: the first is above the one on entry,
every reached instruction runs, and what goes out along an edge is below where it leads. -/
structure Consistent (pool : Pool) (scene : Scene) (handlers : List Handler) (initial : Frame)
    (sights : List Sight) : Prop where
  entry : ∃ u, heldAt scene initial sights 0 = some u ∧ initial.Below u
  execute : ∀ o l q f, .insn o l q ∈ sights → heldAt scene initial sights q = some f →
    ∃ g, f.execute l o.type q scene.this = .ok g
  leave : ∀ test source target q f, .jump test source target ∈ sights →
    scene.labels.positionOf source = .ok q → heldAt scene initial sights q = some f →
    ∃ g, f.leave test = .ok g
  edge : ∀ g p, Edge pool scene handlers initial sights g p →
    ∃ u, heldAt scene initial sights p = some u ∧ g.Below u

variable {scene : Scene} {s s' t : Simulation} {sights : List Sight} {p : Nat}

theorem joined_of_recordedAt (h : s.recordedAt p = s'.recordedAt p) : s.joined p = s'.joined p := by
  simp only [joined, h]

/-- Where there is nothing with a place of its own, the state stays, and so do the records at a
position that no handler has which is entered. -/
theorem Runs.quiet {pool : Pool} (h : Runs scene s sights s')
    (plain : ∀ x ∈ sights, x.extent? pool scene.labels = none)
    (elsewhere : ∀ handler caught, .enterTry handler caught ∈ sights →
      scene.labels.spot handler ≠ p) :
    s'.state = s.state ∧ s'.recordedAt p = s.recordedAt p := by
  induction sights generalizing s with
  | nil =>
    cases h
    exact ⟨rfl, rfl⟩
  | cons x rest ih =>
    obtain ⟨t, sees, later⟩ := runs_cons.mp h
    have seen := see_ok sees
    have tail := ih later (fun y hy => plain y (by simp [hy]))
      (fun handler caught hy => elsewhere handler caught (by simp [hy]))
    have head : t.state = s.state ∧ t.recordedAt p = s.recordedAt p := by
      rw [seen.recordedAt]
      cases x with
      | enterTry handler caught =>
        have away := elsewhere handler caught (by simp)
        refine ⟨seen.state, ?_⟩
        cases present : s.state <;> simp [records, present, away]
      | exitTry | line => exact ⟨seen.state, by simp [records]⟩
      | label | insn | jump => cases plain _ List.mem_cons_self
    exact ⟨tail.1.trans head.1, tail.2.trans head.2⟩

end Simulation

namespace Track

open Simulation

variable {pool : Pool} {scene : Scene} {handlers : List Handler} {sights first last : List Sight}
  {x : Sight} {p : Nat} {initial : Frame} {t final : Simulation}

theorem heldAt_op (track : Track pool scene handlers (first ++ x :: last)) (op : x.isOp)
    {a : Nat × Nat} (has : x.extent? pool scene.labels = some a)
    (ran : Runs scene (start initial) first t) :
    heldAt scene initial (first ++ x :: last) a.1 = t.state := by
  rw [heldAt, track.takeWhile_op op has, run, ran]

theorem spot_ne_of_entered {entry : Label} {caught : Option BinaryName}
    (track : Track pool scene handlers (first ++ .enterTry entry caught :: last))
    (none : ∀ l, .label l p ∉ last) : scene.labels.spot entry ≠ p := by
  obtain ⟨n, placed⟩ := track.pending (first ++ [.enterTry entry caught]) last (by simp)
    (entry, caughtType caught) (by simp [Sight.guard])
  have spot := Labels.spot_eq ((track.placed entry n).mpr (by simp [placed]))
  rintro rfl
  rw [spot] at none
  exact none entry placed

/-- The way to a position that needs a frame leads over its labels, one of which is the last. -/
theorem exists_last_label (track : Track pool scene handlers sights)
    (wanted : scene.wanted.contains p) :
    ∃ before l after off,
      sights.takeWhile (Sight.upTo scene.labels p) = before ++ .label l p :: after ∧
      sights = before ++ .label l p :: (after ++ off) ∧ ∀ k, .label k p ∉ after ++ off := by
  have onWay : ∃ x ∈ sights.takeWhile (Sight.upTo scene.labels p), ∃ l, x = .label l p := by
    obtain ⟨l, seen⟩ := track.sites p wanted
    obtain ⟨before, after, rfl⟩ := List.append_of_mem seen
    refine ⟨.label l p, ?_, l, rfl⟩
    rw [track.takeWhile_through rfl (Nat.le_refl p)]
    simp
  obtain ⟨before, _, after, way, ⟨l, rfl⟩, lastOne⟩ := exists_last onWay
  obtain ⟨off, hoff⟩ : ∃ off, sights.dropWhile (Sight.upTo scene.labels p) = off := ⟨_, rfl⟩
  refine ⟨before, l, after, off, way, ?_, ?_⟩
  · rw [← List.cons_append, ← List.append_assoc, ← way, ← hoff, List.takeWhile_append_dropWhile]
  · intro k member
    rcases List.mem_append.mp member with member | member
    · exact lastOne _ member ⟨k, rfl⟩
    · have missed := track.not_upTo_of_dropWhile (hoff ▸ member) rfl
      simp [Sight.upTo] at missed

/-- Nothing that has a place comes after the last label and is still on the way. -/
theorem extent_of_last {before after off : List Sight} {l : Label}
    (track : Track pool scene handlers (before ++ .label l p :: (after ++ off)))
    (noLabel : ∀ k, .label k p ∉ after ++ off) {y : Sight} (member : y ∈ after)
    (passed : y.upTo scene.labels p) : y.extent? pool scene.labels = none := by
  cases has : y.extent? pool scene.labels with
  | none => rfl
  | some b =>
    have later := track.le_start rfl (List.mem_append_left _ member) has
    cases y with
    | label k n =>
      cases has
      simp only [Sight.upTo, decide_eq_true_eq] at passed
      have : n = p := Nat.le_antisymm passed later
      subst this
      exact absurd (List.mem_append_left _ member) (noLabel k)
    | insn | jump =>
      cases has
      simp only [Sight.upTo, decide_eq_true_eq] at passed
      simp only at later
      omega
    | enterTry | exitTry | line => cases has

/-- The state held where a frame is needed is the join of what was recorded there so far. -/
theorem joined_held (track : Track pool scene handlers sights) (wanted : scene.wanted.contains p)
    (ran : Runs scene (start initial) (sights.takeWhile (Sight.upTo scene.labels p)) t) :
    t.joined p = .ok t.state := by
  obtain ⟨before, l, after, off, way, whole, noLabel⟩ := track.exists_last_label wanted
  have plain : ∀ y ∈ after, y.extent? pool scene.labels = none := by
    intro y member
    apply extent_of_last (whole ▸ track) noLabel member
    apply List.all_eq_true.mp (List.all_takeWhile (l := sights)) y
    rw [way]
    simp [member]
  have elsewhere : ∀ entry caught, .enterTry entry caught ∈ after →
      scene.labels.spot entry ≠ p := by
    intro entry caught member
    obtain ⟨one, two, rfl⟩ := List.append_of_mem member
    have cut : sights = (before ++ .label l p :: one) ++ .enterTry entry caught ::
        (two ++ off) := by simp [whole]
    refine spot_ne_of_entered (cut ▸ track) fun k seen => noLabel k ?_
    rcases List.mem_append.mp seen with seen | seen <;> simp [seen]
  rw [way] at ran
  obtain ⟨t₀, _, ran⟩ := runs_append.mp ran
  obtain ⟨t₁, sees, ran⟩ := runs_cons.mp ran
  -- The join is made at the last label; up to the position nothing comes that could change it.
  have joins := (see_ok sees).state
  simp only [Moves, wanted, if_true] at joins
  obtain ⟨state, recorded⟩ := ran.quiet plain elsewhere
  rw [joined_of_recordedAt recorded, state]
  exact joins

theorem heldAt_eq (ran : Runs scene (start initial)
    (sights.takeWhile (Sight.upTo scene.labels p)) t) :
    heldAt scene initial sights p = t.state := by
  rw [heldAt, run, ran]

theorem exists_held (ran : Runs scene (start initial) sights final) (p : Nat) :
    ∃ t, Runs scene (start initial) (sights.takeWhile (Sight.upTo scene.labels p)) t ∧
      Runs scene t (sights.dropWhile (Sight.upTo scene.labels p)) final := by
  rw [← List.takeWhile_append_dropWhile (p := Sight.upTo scene.labels p) (l := sights)] at ran
  exact runs_append.mp ran

theorem split_off {before after : List Sight} {u : Simulation}
    (ran : Runs scene (start initial) (sights.takeWhile (Sight.upTo scene.labels p)) t)
    (near : Runs scene t before u)
    (cut : sights.dropWhile (Sight.upTo scene.labels p) = before ++ x :: after) :
    ∃ way, sights = way ++ x :: after ∧ Runs scene (start initial) way u := by
  refine ⟨sights.takeWhile (Sight.upTo scene.labels p) ++ before, ?_, ?_⟩
  · rw [List.append_assoc, ← cut, List.takeWhile_append_dropWhile]
  · exact runs_append.mpr ⟨t, ran, near⟩

theorem recordedAt_of_held (track : Track pool scene handlers sights)
    (ran : Runs scene (start initial) sights final) (wanted : scene.wanted.contains p) {u : Frame}
    (held : heldAt scene initial sights p = some u) : final.recordedAt p ≠ [] := by
  obtain ⟨t, way, rest⟩ := exists_held ran p
  have here := track.joined_held wanted way
  rw [← heldAt_eq way, held] at here
  obtain ⟨more, whole, _⟩ := rest.recordedAt p
  intro empty
  rw [whole] at empty
  simp [joined, (List.append_eq_nil_iff.mp empty).1] at here

/-- What is recorded after the state held was taken, comes from jumps backward. -/
theorem back_of_late (track : Track pool scene handlers sights)
    (ran : Runs scene (start initial) (sights.takeWhile (Sight.upTo scene.labels p)) t)
    (rest : Runs scene t (sights.dropWhile (Sight.upTo scene.labels p)) final) :
    ∃ more, final.recordedAt p = t.recordedAt p ++ more ∧
      ∀ g ∈ more, ∃ q, p ≤ q ∧ Jumps scene initial sights q g p := by
  obtain ⟨more, whole, made⟩ := rest.recordedAt p
  refine ⟨more, whole, fun g hg => ?_⟩
  obtain ⟨before, x, after, u, cut, ran', member⟩ := made g hg
  have off : ∀ y ∈ x :: after, ∀ a, y.extent? pool scene.labels = some a →
      y.upTo scene.labels p = false := fun y hy a has =>
    track.not_upTo_of_dropWhile (by rw [cut]; exact List.mem_append_right _ hy) has
  have noLabel : ∀ l, .label l p ∉ x :: after := by
    intro l seen
    have := off _ seen _ rfl
    simp [Sight.upTo] at this
  obtain ⟨way, split, reached⟩ := split_off ran ran' cut
  have track' := split ▸ track
  cases x with
  | label l n =>
    simp only [records] at member
    split at member
    · obtain ⟨f, _, same⟩ := Option.map_eq_some_iff.mp (Option.mem_toList.mp member)
      cases same
      exact absurd List.mem_cons_self (noLabel l)
    · cases member
  | insn o l n =>
    simp only [records, List.mem_flatMap, List.mem_map, List.mem_reverse] at member
    obtain ⟨f, _, ⟨entry, caught⟩, force, same⟩ := member
    cases same
    rw [reached.active] at force
    obtain ⟨m, placed⟩ := track'.pending way _ rfl _ force
    have spot := Labels.spot_eq ((track'.placed entry m).mpr (List.mem_append_right _ placed))
    rw [spot] at noLabel
    exact absurd placed (noLabel entry)
  | enterTry entry caught =>
    simp only [records, List.mem_map] at member
    obtain ⟨f, _, same⟩ := member
    cases same
    exact absurd rfl (spot_ne_of_entered track' fun l seen => noLabel l (by simp [seen]))
  | jump test source target =>
    simp only [records, List.mem_flatMap, List.mem_map, Option.mem_toList] at member
    obtain ⟨f, present, g', left, same⟩ := member
    cases same
    have seen : .jump test source target ∈ sights := by rw [split]; simp
    obtain ⟨q, p', hs, ht, _, _⟩ := track.jumps test source target seen
    have beyond := off _ List.mem_cons_self _ rfl
    rw [Labels.spot_eq ht]
    simp only [Sight.upTo, Labels.spot_eq hs, Labels.spot_eq ht, decide_eq_false_iff_not] at beyond
    refine ⟨q, by omega, test, source, target, f, seen, Labels.positionOf_eq_ok.mpr hs,
      Labels.positionOf_eq_ok.mpr ht, ?_, ?_⟩
    · have here := track'.heldAt_op rfl rfl reached
      simp only [Labels.spot_eq hs] at here
      rw [split, here, present]
    · cases hl : f.leave test with
      | error e => simp [hl, Except.toOption] at left
      | ok r =>
        simp only [hl, Except.toOption, Option.some.injEq] at left
        rw [left]
  | exitTry | line => simp [records] at member

theorem exists_cut (ran : Runs scene (start initial) sights final) (member : x ∈ sights) :
    ∃ first last t t', sights = first ++ x :: last ∧ Runs scene (start initial) first t ∧
      t.see scene x = .ok t' ∧ Runs scene t' last final := by
  obtain ⟨first, last, rfl⟩ := List.append_of_mem member
  obtain ⟨t, before, rest⟩ := runs_append.mp ran
  obtain ⟨t', sees, after⟩ := runs_cons.mp rest
  exact ⟨first, last, t, t', rfl, before, sees, after⟩

variable {t' : Simulation} {a : Nat × Nat} {g : Frame}

/-- Between an instruction and the position after it no other instruction is seen. -/
theorem exists_near (track : Track pool scene handlers (first ++ x :: last))
    (has : x.extent? pool scene.labels = some a) (before : Runs scene (start initial) first t)
    (sees : t.see scene x = .ok t') (after : Runs scene t' last final) :
    ∃ near off t'', last = near ++ off ∧ Runs scene t' near t'' ∧ Runs scene t'' off final ∧
      (∀ y ∈ near, y.isOp = false) ∧
      Runs scene (start initial)
        ((first ++ x :: last).takeWhile (Sight.upTo scene.labels a.2)) t'' ∧
      (first ++ x :: last).takeWhile (Sight.upTo scene.labels a.2) = first ++ x :: near := by
  rw [← List.takeWhile_append_dropWhile (p := Sight.upTo scene.labels a.2) (l := last)] at after
  obtain ⟨t'', near, off⟩ := runs_append.mp after
  have way := track.takeWhile_through has (Nat.le_refl _)
  refine ⟨_, _, t'', List.takeWhile_append_dropWhile.symm, near, off, ?_, ?_, way⟩
  · intro y member
    have passed := List.all_eq_true.mp (List.all_takeWhile (l := last)) y member
    have inside := (List.takeWhile_sublist _).subset member
    cases y with
    | insn | jump =>
      have := track.le_start has inside rfl
      simp only [Sight.upTo, decide_eq_true_eq] at passed
      simp only at this
      omega
    | label | enterTry | exitTry | line => rfl
  · rw [way]
    exact runs_append.mpr ⟨t, before, runs_cons.mpr ⟨t', sees, near⟩⟩

theorem flows_on (track : Track pool scene handlers (first ++ x :: last))
    (has : x.extent? pool scene.labels = some a) (before : Runs scene (start initial) first t)
    (sees : t.see scene x = .ok t') (after : Runs scene t' last final)
    (present : t'.state = some g) :
    ∃ u, heldAt scene initial (first ++ x :: last) a.2 = some u ∧ g.Below u := by
  obtain ⟨near, _, t'', _, ran, _, calm, way, _⟩ := track.exists_near has before sees after
  obtain ⟨u, held, low⟩ := ran.rises calm present
  exact ⟨u, (heldAt_eq way).trans held, low⟩

theorem flows_to (track : Track pool scene handlers (first ++ x :: last))
    (has : x.extent? pool scene.labels = some a) (before : Runs scene (start initial) first t)
    (sees : t.see scene x = .ok t') (after : Runs scene t' last final)
    (wanted : scene.wanted.contains p) {l : Label} (ahead : .label l p ∈ last)
    (made : (p, g) ∈ t.records scene x) :
    ∃ u, heldAt scene initial (first ++ x :: last) p = some u ∧ g.Below u := by
  rw [← List.takeWhile_append_dropWhile (p := Sight.upTo scene.labels p) (l := last)] at after
  obtain ⟨t'', near, _⟩ := runs_append.mp after
  have way : Runs scene (start initial)
      ((first ++ x :: last).takeWhile (Sight.upTo scene.labels p)) t'' := by
    rw [track.takeWhile_through has (track.le_start has ahead rfl)]
    exact runs_append.mpr ⟨t, before, runs_cons.mpr ⟨t', sees, near⟩⟩
  rw [heldAt_eq way]
  exact below_of_joined (track.joined_held wanted way)
    (near.mem_recordedAt ((see_ok sees).mem_recordedAt made))

theorem state_of_held (track : Track pool scene handlers (first ++ x :: last)) (op : x.isOp)
    (has : x.extent? pool scene.labels = some a) (before : Runs scene (start initial) first t)
    {f : Frame} (held : heldAt scene initial (first ++ x :: last) a.1 = some f) :
    t.state = some f :=
  (track.heldAt_op op has before).symm.trans held

theorem exists_execute (track : Track pool scene handlers sights)
    (ran : Runs scene (start initial) sights final) {o : Outcome} {l : Leaf} {q : Nat} {f : Frame}
    (seen : .insn o l q ∈ sights) (held : heldAt scene initial sights q = some f) :
    ∃ g, f.execute l o.type q scene.this = .ok g := by
  obtain ⟨first, last, t, t', rfl, before, sees, _⟩ := exists_cut ran seen
  obtain ⟨g, run, _⟩ := (see_ok sees).executes (track.state_of_held rfl rfl before held)
  exact ⟨g, run⟩

theorem exists_leave (track : Track pool scene handlers sights)
    (ran : Runs scene (start initial) sights final) {test : Option Test} {source target : Label}
    {q : Nat} {f : Frame} (seen : .jump test source target ∈ sights)
    (origin : scene.labels.positionOf source = .ok q)
    (held : heldAt scene initial sights q = some f) : ∃ g, f.leave test = .ok g := by
  obtain ⟨first, last, t, t', rfl, before, sees, _⟩ := exists_cut ran seen
  rw [← spot_of_positionOf origin] at held
  obtain ⟨g, left, _⟩ := (see_ok sees).leaves (track.state_of_held rfl rfl before held)
  exact ⟨g, left⟩

theorem forward_below (track : Track pool scene handlers sights)
    (ran : Runs scene (start initial) sights final) {q : Nat}
    (jump : Jumps scene initial sights q g p) (forward : q < p) :
    ∃ u, heldAt scene initial sights p = some u ∧ g.Below u := by
  obtain ⟨test, source, target, f, seen, origin, goal, held, left⟩ := jump
  obtain ⟨q', p', hs, ht, _, wanted⟩ := track.jumps test source target seen
  have placed := (track.placed target p').mp ht
  obtain ⟨first, last, t, t', rfl, before, sees, after⟩ := exists_cut ran seen
  have hq := spot_of_positionOf origin
  have hp := spot_of_positionOf goal
  rw [Labels.spot_eq ht] at hp
  subst hp
  rw [← hq] at held
  have present := track.state_of_held rfl rfl before held
  -- The target cannot have been placed on the way to the jump.
  have ahead : .label target p' ∈ last := by
    rcases List.mem_append.mp placed with early | late
    · have := track.end_le rfl early rfl
      simp only [hq] at this
      omega
    · simpa using late
  refine track.flows_to rfl before sees after wanted ahead ?_
  simp [records, present, left, Except.toOption, Labels.spot_eq ht]

theorem throws_below (track : Track pool scene handlers sights)
    (ran : Runs scene (start initial) sights final) {o : Outcome} {l : Leaf} {q : Nat} {f : Frame}
    {h : Handler} {name : BinaryName} (seen : .insn o l q ∈ sights)
    (held : heldAt scene initial sights q = some f) (entry : h ∈ handlers)
    (low : h.start.toNat ≤ q) (high : q < h.stop.toNat) (catches : h.Catches pool name) :
    ∃ u, heldAt scene initial sights h.handler.toNat = some u ∧
      (f.withStack [.object (.object name)]).Below u := by
  obtain ⟨first, last, t, t', rfl, before, sees, after⟩ := exists_cut ran seen
  have present := track.state_of_held rfl rfl before held
  obtain ⟨label, spot, force⟩ := track.covered first o l q last rfl h entry low high name catches
  obtain ⟨n, placed⟩ := track.pending first _ rfl _ force
  have ahead : .label label n ∈ last := by simpa using placed
  have here := Labels.spot_eq ((track.placed label n).mpr (by simp [ahead]))
  rw [here] at spot
  subst spot
  refine track.flows_to rfl before sees after (track.entries h entry) ahead ?_
  have active : t.active = first.foldl Sight.guard [] := before.active
  simp only [records, present, Option.toList_some, List.flatMap_singleton, List.mem_map,
    List.mem_reverse, active]
  exact ⟨_, force, by rw [here]⟩

/-- What goes out along an edge is below the state held where the edge leads, unless it is that of a
jump backward. -/
theorem below_or_back (track : Track pool scene handlers sights)
    (ran : Runs scene (start initial) sights final)
    (edge : Edge pool scene handlers initial sights g p) :
    (∃ u, heldAt scene initial sights p = some u ∧ g.Below u) ∨
      ∃ q, Jumps scene initial sights q g p ∧ p ≤ q := by
  cases edge with
  | falls seen held run goesOn =>
    obtain ⟨first, last, t, t', rfl, before, sees, after⟩ := exists_cut ran seen
    obtain ⟨g', run', next⟩ := (see_ok sees).executes (track.state_of_held rfl rfl before held)
    rw [run] at run'
    cases run'
    rw [goesOn] at next
    exact .inl (track.flows_on (a := (_, _)) rfl before sees after next)
  | throws seen held entry low high catches =>
    exact .inl (track.throws_below ran seen held entry low high catches)
  | jumps jump =>
    rename_i q
    rcases Nat.lt_or_ge q p with forward | back
    · exact .inl (track.forward_below ran jump forward)
    · exact .inr ⟨q, jump, back⟩
  | passes seen origin held left =>
    obtain ⟨first, last, t, t', rfl, before, sees, after⟩ := exists_cut ran seen
    rw [← spot_of_positionOf origin] at held ⊢
    obtain ⟨g', left', next⟩ := (see_ok sees).leaves (track.state_of_held rfl rfl before held)
    simp only [Frame.leave, left, Except.ok.injEq] at left'
    subst left'
    exact .inl (track.flows_on (a := (_, _)) rfl before sees after next)

/-- Along every edge, what goes out is below the state held where the edge leads. -/
theorem edge_below (track : Track pool scene handlers sights)
    (ran : Runs scene (start initial) sights final)
    (absorbed : BackAbsorbed scene initial sights)
    (edge : Edge pool scene handlers initial sights g p) :
    ∃ u, heldAt scene initial sights p = some u ∧ g.Below u := by
  rcases track.below_or_back ran edge with below | ⟨q, jump, back⟩
  · exact below
  · obtain ⟨u, held, absorbs⟩ := absorbed q g p jump back
    exact ⟨u, held, absorbs.below⟩

/-- The frame joined in the end is the state held, if jumps backward bring nothing new. -/
theorem joined_same (track : Track pool scene handlers sights)
    (ran : Runs scene (start initial) sights final) (wanted : scene.wanted.contains p)
    (absorbed : ∀ q g, Jumps scene initial sights q g p → p ≤ q →
      ∃ u, heldAt scene initial sights p = some u ∧ u.Absorbs g)
    {j : Frame} (joins : final.joined p = .ok (some j)) :
    ∃ u, heldAt scene initial sights p = some u ∧ j.Same u := by
  obtain ⟨t, way, rest⟩ := exists_held ran p
  obtain ⟨more, whole, late⟩ := track.back_of_late way rest
  have held := heldAt_eq way
  have here := track.joined_held wanted way
  have join := isJoin_of_joined joins
  rw [whole] at join
  cases state : t.state with
  | none =>
    -- Nothing was recorded in time, so all came by jumps backward, which find a state there.
    rw [state] at here held
    have nothing := recordedAt_of_joined_none here
    cases more with
    | nil =>
      have empty : final.recordedAt p = [] := by rw [whole, nothing, List.append_nil]
      simp [joined, empty] at joins
    | cons g others =>
      obtain ⟨q, back, jump⟩ := late g List.mem_cons_self
      obtain ⟨u, found, _⟩ := absorbed q g jump back
      rw [held] at found
      cases found
  | some u =>
    rw [state] at here held
    have early := isJoin_of_joined here
    refine ⟨u, held, Frame.Below.antisymm ?_ ?_⟩
    · apply join.least u
      intro f hf
      rcases List.mem_append.mp hf with hf | hf
      · exact early.above f hf
      · obtain ⟨q, back, jump⟩ := late f hf
        obtain ⟨v, found, absorbs⟩ := absorbed q f jump back
        rw [held] at found
        cases found
        exact absorbs.below
    · exact early.least j fun f hf => join.above f (List.mem_append_left _ hf)

theorem late_of_back (track : Track pool scene handlers sights)
    (rest : Runs scene t (sights.dropWhile (Sight.upTo scene.labels p)) final)
    (ran : Runs scene (start initial) (sights.takeWhile (Sight.upTo scene.labels p)) t) {q : Nat}
    (jump : Jumps scene initial sights q g p) (back : p ≤ q) :
    ∃ more, final.recordedAt p = t.recordedAt p ++ more ∧ g ∈ more := by
  obtain ⟨test, source, target, f, seen, origin, goal, held, left⟩ := jump
  have hq := spot_of_positionOf origin
  have off : .jump test source target ∈ sights.dropWhile (Sight.upTo scene.labels p) := by
    rw [← List.takeWhile_append_dropWhile (p := Sight.upTo scene.labels p) (l := sights)] at seen
    rcases List.mem_append.mp seen with early | late
    · have passed := List.all_eq_true.mp (List.all_takeWhile (l := sights)) _ early
      simp only [Sight.upTo, decide_eq_true_eq] at passed
      omega
    · exact late
  obtain ⟨before, after, cut⟩ := List.append_of_mem off
  rw [cut] at rest
  obtain ⟨t₁, near, rest⟩ := runs_append.mp rest
  obtain ⟨t₂, sees, far⟩ := runs_cons.mp rest
  obtain ⟨way, split, reached⟩ := split_off ran near cut
  subst split
  rw [← hq] at held
  have present := track.state_of_held rfl rfl reached held
  obtain ⟨first, hfirst, _⟩ := near.recordedAt p
  obtain ⟨last, hlast, _⟩ := far.recordedAt p
  rw [hlast, (see_ok sees).recordedAt, hfirst, List.append_assoc, List.append_assoc]
  refine ⟨_, rfl, ?_⟩
  simp [records, present, left, Except.toOption, spot_of_positionOf goal]

theorem mem_recordedAt_of_back (track : Track pool scene handlers sights)
    (ran : Runs scene (start initial) sights final) {q : Nat}
    (jump : Jumps scene initial sights q g p) (back : p ≤ q) : g ∈ final.recordedAt p := by
  obtain ⟨t, way, rest⟩ := exists_held ran p
  obtain ⟨more, whole, late⟩ := track.late_of_back rest way jump back
  rw [whole]
  exact List.mem_append_right _ late

theorem wanted_of_jump (track : Track pool scene handlers sights) {q : Nat}
    (jump : Jumps scene initial sights q g p) : scene.wanted.contains p := by
  obtain ⟨test, source, target, f, seen, _, goal, _, _⟩ := jump
  obtain ⟨_, p', _, settled, _, wanted⟩ := track.jumps test source target seen
  rw [← spot_of_positionOf goal, Labels.spot_eq settled]
  exact wanted

/-- A jump backward brings nothing new where the frame joined in the end is the state held. -/
theorem absorbs_of_same (track : Track pool scene handlers sights)
    (ran : Runs scene (start initial) sights final) {q : Nat}
    (jump : Jumps scene initial sights q g p) (back : p ≤ q) {u j : Frame}
    (held : heldAt scene initial sights p = some u) (joins : final.joined p = .ok (some j))
    (same : j.Same u) : u.Absorbs g := by
  obtain ⟨t, way, rest⟩ := exists_held ran p
  obtain ⟨more, whole, late⟩ := track.late_of_back rest way jump back
  have here := track.joined_held (track.wanted_of_jump jump) way
  rw [← heldAt_eq way, held] at here
  simp only [joined] at here joins
  cases recorded : t.recordedAt p with
  | nil => simp [recorded] at here
  | cons f others =>
    rw [whole, recorded, List.cons_append] at joins
    rw [recorded] at here
    simp only [Frame.unionAll, List.foldlM_append] at here joins
    cases first : others.foldlM Frame.union f with
    | error e => simp [first] at here
    | ok v =>
      simp only [first, Except.ok.injEq, Option.some.injEq] at here
      subst here
      simp only [first, bind, Except.bind] at joins
      cases second : more.foldlM Frame.union v with
      | error e => simp [second] at joins
      | ok w =>
        simp only [second, Except.ok.injEq, Option.some.injEq] at joins
        subst joins
        exact Frame.absorbs_of_foldlM second same.below late

theorem entry_below (ran : Runs scene (start initial) sights final) :
    ∃ u, heldAt scene initial sights 0 = some u ∧ initial.Below u := by
  obtain ⟨t, way, _⟩ := exists_held ran 0
  rw [heldAt_eq way]
  refine way.rises (fun x hx => ?_) rfl
  have passed := List.all_eq_true.mp (List.all_takeWhile (l := sights)) x hx
  cases x with
  | insn | jump => simp [Sight.upTo] at passed
  | label | enterTry | exitTry | line => rfl

theorem consistent (track : Track pool scene handlers sights)
    (ran : Runs scene (start initial) sights final)
    (absorbed : BackAbsorbed scene initial sights) :
    Consistent pool scene handlers initial sights where
  entry := entry_below ran
  execute _ _ _ _ := track.exists_execute ran
  leave _ _ _ _ _ := track.exists_leave ran
  edge _ _ := track.edge_below ran absorbed

end Track

end Bytecode
