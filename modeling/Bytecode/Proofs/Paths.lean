import Bytecode.Proofs.Loops
import Bytecode.Proofs.Merging
import Bytecode.Proofs.Precision

/-! Paths through simulated code. Along a path the state is carried on as it is and never joined with
another. Wherever a path comes, it is finer than the state held there, provided that jumps backward
bring nothing new, that no long meets a double, and that no reference is loaded whose type was lost. -/
namespace Bytecode

namespace Frame

variable {s t u : Frame}

theorem fine_of_below {xs ys : List Held} (h : List.Forall₂ VType.Below xs ys)
    (same : xs.map width = ys.map width) : List.Forall₂ VType.Fine xs ys := by
  induction h with
  | nil => exact .nil
  | cons here _ ih =>
    simp only [List.map_cons, List.cons.injEq] at same
    exact .cons ⟨here, same.1.symm⟩ (ih same.2)

theorem Finer.rise (h : s.Finer t) (below : t.Below u) (same : t.shape = u.shape) : s.Finer u := by
  refine ⟨?_, fun i => (h.slots i).trans (below.slots i), h.paired⟩
  have higher := List.rel_reverse (fine_of_below below.stack same)
  exact forall₂_trans (R := VType.Fine) (fun _ _ _ => .trans) h.stack higher

theorem follows_leave (h : s.Finer t) (test : Option Test) :
    Follows Finer (s.leave test) (t.leave test) := by
  cases test with
  | none => exact .ok h
  | some test => exact follows_branch h test

theorem shape_of_withStack {v : Held} (narrow : width v = 1) (below : (s.withStack [v]).Below u) :
    (s.withStack [v]).shape = u.shape := by
  have stack := below.stack
  rw [withStack, Slotted.values_ofList] at stack
  simp only [shape, withStack, Slotted.values_ofList]
  generalize u.stack.values = values at stack
  cases stack with
  | cons here rest =>
    cases rest
    rcases here with rfl | rfl
    · rfl
    · rw [List.map_singleton, narrow]
      rfl

end Frame

namespace Simulation

/-- Wherever frames are recorded, no long meets a double. -/
def Calm (s : Simulation) : Prop := ∀ p, ¬ Frame.Clashes (s.recordedAt p)

def LoadsKept (scene : Scene) (initial : Frame) (sights : List Sight) : Prop :=
  ∀ o l q f, .insn o l q ∈ sights → heldAt scene initial sights q = some f → f.keeps l

/-- Control goes from an instruction at `q` to `p`; the first frame is the one before it, and the
second the one that is carried to `p`. -/
inductive Leads (pool : Pool) (scene : Scene) (handlers : List Handler) (sights : List Sight) :
    Nat → Frame → Nat → Frame → Prop where
  | falls {o : Outcome} {l : Leaf} {q : Nat} {f g : Frame} : .insn o l q ∈ sights →
    f.execute l o.type q scene.this = .ok g → o.ends = false →
    Leads pool scene handlers sights q f (q + (l.octets pool).length) g
  | throws {o : Outcome} {l : Leaf} {q : Nat} {f : Frame} {h : Handler} {name : BinaryName} :
    .insn o l q ∈ sights → h ∈ handlers → h.start.toNat ≤ q → q < h.stop.toNat →
    h.Catches pool name →
    Leads pool scene handlers sights q f h.handler.toNat (f.withStack [.object (.object name)])
  | jumps {test : Option Test} {source target : Label} {q p : Nat} {f g : Frame} :
    .jump test source target ∈ sights → scene.labels.positionOf source = .ok q →
    scene.labels.positionOf target = .ok p → f.leave test = .ok g →
    Leads pool scene handlers sights q f p g
  | passes {test : Test} {source target : Label} {q : Nat} {f g : Frame} :
    .jump (some test) source target ∈ sights → scene.labels.positionOf source = .ok q →
    f.branch test = .ok g → Leads pool scene handlers sights q f (q + 3) g

inductive Arrives (pool : Pool) (scene : Scene) (handlers : List Handler) (initial : Frame)
    (sights : List Sight) : Nat → Frame → Prop where
  | entry : Arrives pool scene handlers initial sights 0 initial
  | step {q p : Nat} {f g : Frame} : Arrives pool scene handlers initial sights q f →
    Leads pool scene handlers sights q f p g → Arrives pool scene handlers initial sights p g

inductive Turn where
  | on
  | off
  | up (h : Handler) (name : BinaryName)

instance (pool : Pool) (h : Handler) (name : BinaryName) : Decidable (h.Catches pool name) :=
  match h with
  | ⟨_, _, _, none⟩ => inferInstanceAs (Decidable (name = .throwable))
  | ⟨_, _, _, some index⟩ => inferInstanceAs (Decidable (pool.class? index = some name.text))

def take? (pool : Pool) (scene : Scene) (handlers : List Handler) (q : Nat) (f : Frame) :
    Turn → Sight → Option (Nat × Frame)
  | .on, .insn o l n =>
    if n = q ∧ o.ends = false then
      (f.execute l o.type q scene.this).toOption.map (q + (l.octets pool).length, ·)
    else none
  | .on, .jump (some test) source _ =>
    if scene.labels.settled? source = some q then (f.branch test).toOption.map (q + 3, ·) else none
  | .off, .jump test source target =>
    if scene.labels.settled? source = some q then do
      let p ← scene.labels.settled? target
      let g ← (f.leave test).toOption
      return (p, g)
    else none
  | .up h name, .insn _ _ n =>
    if n = q ∧ h ∈ handlers ∧ h.start.toNat ≤ q ∧ q < h.stop.toNat ∧ h.Catches pool name then
      some (h.handler.toNat, f.withStack [.object (.object name)])
    else none
  | _, _ => none

def follow? (pool : Pool) (scene : Scene) (handlers : List Handler) (sights : List Sight) :
    List (Nat × Turn) → Nat → Frame → Option (Nat × Frame)
  | [], q, f => some (q, f)
  | (i, turn) :: rest, q, f => do
    let x ← sights[i]?
    let (p, g) ← take? pool scene handlers q f turn x
    follow? pool scene handlers sights rest p g

variable {pool : Pool} {scene : Scene} {handlers : List Handler} {sights : List Sight}
  {initial f g u : Frame} {q p : Nat} {s s' t final : Simulation}

theorem leads_of_take? {turn : Turn} {x : Sight} (seen : x ∈ sights)
    (h : take? pool scene handlers q f turn x = some (p, g)) :
    Leads pool scene handlers sights q f p g := by
  have ok : ∀ {e : Except Fault Frame} {v : Frame}, e.toOption = some v → e = .ok v := by
    intro e v same
    cases e <;> simp_all [Except.toOption]
  unfold take? at h
  split at h
  · split at h
    · rename_i here
      obtain ⟨rfl, goesOn⟩ := here
      obtain ⟨v, run, same⟩ := Option.map_eq_some_iff.mp h
      cases same
      exact .falls seen (ok run) goesOn
    · cases h
  · split at h
    · rename_i here
      obtain ⟨v, left, same⟩ := Option.map_eq_some_iff.mp h
      cases same
      exact .passes seen (Labels.positionOf_eq_ok.mpr here) (ok left)
    · cases h
  · split at h
    · rename_i here
      obtain ⟨goal, there, h⟩ := Option.bind_eq_some_iff.mp h
      obtain ⟨v, left, same⟩ := Option.bind_eq_some_iff.mp h
      cases same
      exact .jumps seen (Labels.positionOf_eq_ok.mpr here) (Labels.positionOf_eq_ok.mpr there)
        (ok left)
    · cases h
  · split at h
    · rename_i here
      obtain ⟨rfl, entry, low, high, catches⟩ := here
      cases h
      exact .throws seen entry low high catches
    · cases h
  · cases h

theorem Arrives.follow? {turns : List (Nat × Turn)}
    (path : Arrives pool scene handlers initial sights q f)
    (h : Simulation.follow? pool scene handlers sights turns q f = some (p, g)) :
    Arrives pool scene handlers initial sights p g := by
  induction turns generalizing q f with
  | nil =>
    cases h
    exact path
  | cons turn rest ih =>
    obtain ⟨x, seen, h⟩ := Option.bind_eq_some_iff.mp h
    obtain ⟨⟨n, v⟩, taken, h⟩ := Option.bind_eq_some_iff.mp h
    exact ih (.step path (leads_of_take? (List.mem_of_getElem? seen) taken)) h

theorem Leads.edge (leads : Leads pool scene handlers sights q f p g)
    (held : heldAt scene initial sights q = some f) :
    Edge pool scene handlers initial sights g p := by
  cases leads with
  | falls seen run goesOn => exact .falls seen held run goesOn
  | throws seen entry low high catches => exact .throws seen held entry low high catches
  | jumps seen origin goal left => exact .jumps ⟨_, _, _, _, seen, origin, goal, held, left⟩
  | passes seen origin left => exact .passes seen origin held left

theorem shape_of_recorded {r : Option Frame} (calm : s.Calm) (joins : s.joined p = .ok r)
    (one : f ∈ s.recordedAt p) (two : g ∈ s.recordedAt p) : f.shape = g.shape := by
  have none := calm p
  unfold joined at joins
  cases whole : s.recordedAt p with
  | nil =>
    rw [whole] at one
    cases one
  | cons first others =>
    rw [whole] at none one two
    simp only [whole] at joins
    cases made : Frame.unionAll first others with
    | error fault => simp [made] at joins
    | ok join =>
      have same := Frame.shape_of_unionAll none made
      have all : ∀ h ∈ first :: others, h.shape = first.shape := by simpa using same
      exact (all f one).trans (all g two).symm

/-- What is joined on the way has the shape of whatever is recorded there in the end. -/
theorem shape_of_joined {r : Option Frame} (calm : final.Calm) (joins : final.joined p = .ok r)
    (early : ∀ f ∈ t.recordedAt p, f ∈ final.recordedAt p) (here : t.joined p = .ok (some u))
    (member : f ∈ final.recordedAt p) : f.shape = u.shape := by
  unfold joined at here
  cases whole : t.recordedAt p with
  | nil => simp [whole] at here
  | cons first others =>
    simp only [whole] at here
    rw [whole] at early
    have none : ¬ Frame.Clashes (first :: others) := fun clashes =>
      calm p (Frame.clashes_of_below (fun f member => ⟨f, early f member, .refl f⟩) clashes)
    have shapes : ∀ g ∈ first :: others, g.shape = f.shape := fun g inside =>
      shape_of_recorded calm joins (early g inside) member
    obtain ⟨join, made, kept⟩ := Frame.unionAll_of_shape none fun g inside =>
      (shapes g (by simp [inside])).trans (shapes first (by simp)).symm
    simp only [made, Except.ok.injEq, Option.some.injEq] at here
    rw [← here, kept, shapes first (by simp)]

/-- Between two instructions the state is recorded at the position that they meet at, if a frame is
needed there, and stays as it is if none is. -/
theorem Runs.comes (h : Runs scene s sights s') (calm : ∀ x ∈ sights, x.isOp = false)
    (here : ∀ l n, .label l n ∈ sights → n = p) (present : s.state = some g) :
    (scene.wanted.contains p = false → s'.state = some g) ∧
      (scene.wanted.contains p → (∃ l, .label l p ∈ sights) → g ∈ s'.recordedAt p) := by
  induction sights generalizing s with
  | nil =>
    cases h
    exact ⟨fun _ => present, by simp⟩
  | cons x rest ih =>
    obtain ⟨t, sees, later⟩ := runs_cons.mp h
    have seen := see_ok sees
    have tail := ih later (fun y hy => calm y (by simp [hy])) (fun l n hy => here l n (by simp [hy]))
    cases x with
    | label l n =>
      have same := here l n (by simp)
      subst same
      have moves := seen.state
      simp only [Moves] at moves
      constructor
      · intro unwanted
        rw [if_neg (by simp [unwanted])] at moves
        exact (tail (moves.trans present)).1 unwanted
      · intro wanted _
        exact later.mem_recordedAt (seen.mem_recordedAt (by simp [records, wanted, present]))
    | insn | jump => simp [Sight.isOp] at calm
    | enterTry | exitTry | line =>
      obtain ⟨stays, recorded⟩ := tail (seen.state.trans present)
      exact ⟨stays, fun wanted inside => recorded wanted (by simpa using inside)⟩

end Simulation

namespace Track

open Simulation

variable {pool : Pool} {scene : Scene} {handlers : List Handler} {sights first last : List Sight}
  {x : Sight} {p q : Nat} {a : Nat × Nat} {initial f g u : Frame} {t t' final : Simulation}

/-- The state after an instruction is the one held at the next position, if no frame is needed there,
and else one of those recorded there. -/
theorem comes (track : Track pool scene handlers (first ++ x :: last))
    (has : x.extent? pool scene.labels = some a) (moves : a.1 < a.2)
    (before : Runs scene (start initial) first t) (sees : t.see scene x = .ok t')
    (after : Runs scene t' last final) (present : t'.state = some g) :
    (scene.wanted.contains a.2 = false →
      heldAt scene initial (first ++ x :: last) a.2 = some g) ∧
    (scene.wanted.contains a.2 → g ∈ final.recordedAt a.2) := by
  obtain ⟨near, off, t'', rfl, ran, rest, calm, way, split⟩ :=
    track.exists_near has before sees after
  have here : ∀ l n, .label l n ∈ near → n = a.2 := by
    intro l n inside
    have low := track.le_start has (List.mem_append_left off inside) rfl
    have passed := List.all_eq_true.mp (List.all_takeWhile (p := Sight.upTo scene.labels a.2)
      (l := first ++ x :: (near ++ off))) (.label l n) (by rw [split]; simp [inside])
    simp only [Sight.upTo, decide_eq_true_eq] at passed
    simp only at low
    omega
  obtain ⟨stays, recorded⟩ := ran.comes calm here present
  refine ⟨fun unwanted => (heldAt_eq way).trans (stays unwanted), fun wanted => ?_⟩
  -- A label stands where the frame is needed, and no label before the instruction does.
  obtain ⟨earlier, l, later, _, labels, _⟩ := track.exists_last_label wanted
  have onWay : .label l a.2 ∈ first ++ x :: near := by
    rw [← split, labels]
    simp
  have inside : .label l a.2 ∈ near := by
    rcases List.mem_append.mp onWay with early | late
    · have := track.end_le has early rfl
      simp only at this
      omega
    · rcases List.mem_cons.mp late with rfl | late
      · have still : a.2 = a.1 := congrArg Prod.fst (Option.some.inj has)
        omega
      · exact late
  exact rest.mem_recordedAt (recorded wanted ⟨l, inside⟩)

theorem mem_recordedAt_of_jump (track : Track pool scene handlers sights)
    (ran : Runs scene (start initial) sights final) (jump : Jumps scene initial sights q g p) :
    g ∈ final.recordedAt p := by
  obtain ⟨test, source, target, f, seen, origin, goal, held, left⟩ := jump
  obtain ⟨first, last, t, t', rfl, before, sees, after⟩ := exists_cut ran seen
  rw [← spot_of_positionOf origin] at held
  have present := track.state_of_held rfl rfl before held
  apply after.mem_recordedAt
  apply (see_ok sees).mem_recordedAt
  simp [records, present, left, Except.toOption, spot_of_positionOf goal]

/-- Where frames are joined that do not clash, the stack of the join has the shape of theirs. -/
theorem shape_of_held {r : Option Frame} (track : Track pool scene handlers sights)
    (ran : Runs scene (start initial) sights final) (calm : final.Calm)
    (joins : final.joined p = .ok r) (wanted : scene.wanted.contains p)
    (held : heldAt scene initial sights p = some u) (member : g ∈ final.recordedAt p) :
    g.shape = u.shape := by
  obtain ⟨t, way, rest⟩ := exists_held ran p
  have here := track.joined_held wanted way
  rw [← heldAt_eq way, held] at here
  exact shape_of_joined calm joins (fun f inside => rest.mem_recordedAt inside) here member

theorem edge_shape (track : Track pool scene handlers sights)
    (ran : Runs scene (start initial) sights final) (calm : final.Calm)
    (joins : ∀ p, ∃ r, final.joined p = .ok r) (edge : Edge pool scene handlers initial sights g p)
    (held : heldAt scene initial sights p = some u) (below : g.Below u) : g.shape = u.shape := by
  obtain ⟨r, joins⟩ := joins p
  have meet : (scene.wanted.contains p = false → heldAt scene initial sights p = some g) ∧
      (scene.wanted.contains p → g ∈ final.recordedAt p) → g.shape = u.shape := by
    rintro ⟨stays, recorded⟩
    cases wanted : scene.wanted.contains p with
    | false =>
      rw [stays wanted] at held
      cases held
      rfl
    | true => exact track.shape_of_held ran calm joins wanted held (recorded wanted)
  cases edge with
  | falls seen here run goesOn =>
    have solid := track.solid _ _ _ seen
    obtain ⟨first, last, t, t', rfl, before, sees, after⟩ := exists_cut ran seen
    obtain ⟨g', run', next⟩ := (see_ok sees).executes (track.state_of_held rfl rfl before here)
    rw [run] at run'
    cases run'
    rw [goesOn] at next
    exact meet (track.comes (a := (_, _)) rfl (Nat.lt_add_of_pos_right solid) before sees after next)
  | throws seen here entry low high catches => exact Frame.shape_of_withStack rfl below
  | jumps jump =>
    exact track.shape_of_held ran calm joins (track.wanted_of_jump jump) held
      (track.mem_recordedAt_of_jump ran jump)
  | passes seen origin here left =>
    obtain ⟨first, last, t, t', rfl, before, sees, after⟩ := exists_cut ran seen
    rw [← spot_of_positionOf origin] at here meet
    obtain ⟨g', left', next⟩ := (see_ok sees).leaves (track.state_of_held rfl rfl before here)
    simp only [Frame.leave, left, Except.ok.injEq] at left'
    subst left'
    exact meet (track.comes (a := (_, _)) rfl (by simp) before sees after next)

/-- What a path does, the simulation has done from the state held, which says no more. -/
theorem leads_from_held (track : Track pool scene handlers sights)
    (ran : Runs scene (start initial) sights final) (kept : LoadsKept scene initial sights)
    (held : heldAt scene initial sights q = some u) (finer : f.Finer u)
    (leads : Leads pool scene handlers sights q f p g) :
    ∃ v, Leads pool scene handlers sights q u p v ∧ g.Finer v := by
  cases leads with
  | falls seen run goesOn =>
    obtain ⟨v, runs⟩ := track.exists_execute ran seen held
    obtain ⟨g', run', finer'⟩ :=
      Frame.follows_execute finer (kept _ _ _ _ seen held) _ _ _ v runs
    rw [run] at run'
    cases run'
    exact ⟨v, .falls seen runs goesOn, finer'⟩
  | throws seen entry low high catches =>
    exact ⟨_, .throws seen entry low high catches, finer.withStack _⟩
  | jumps seen origin goal left =>
    obtain ⟨v, leaves⟩ := track.exists_leave ran seen origin held
    obtain ⟨g', left', finer'⟩ := Frame.follows_leave finer _ v leaves
    rw [left] at left'
    cases left'
    exact ⟨v, .jumps seen origin goal leaves, finer'⟩
  | passes seen origin left =>
    obtain ⟨v, leaves⟩ := track.exists_leave ran seen origin held
    obtain ⟨g', left', finer'⟩ := Frame.follows_branch finer _ v leaves
    rw [left] at left'
    cases left'
    exact ⟨v, .passes seen origin leaves, finer'⟩

/-- Wherever a path comes, its frame is finer than the state held there. -/
theorem arrives_finer {arguments : List Held} (track : Track pool scene handlers sights)
    (ran : Runs scene (start (Frame.ofArguments arguments)) sights final) (calm : final.Calm)
    (joins : ∀ p, ∃ r, final.joined p = .ok r)
    (absorbed : BackAbsorbed scene (Frame.ofArguments arguments) sights)
    (kept : LoadsKept scene (Frame.ofArguments arguments) sights)
    (path : Arrives pool scene handlers (Frame.ofArguments arguments) sights q f) :
    ∃ u, heldAt scene (Frame.ofArguments arguments) sights q = some u ∧ f.Finer u := by
  induction path with
  | entry =>
    obtain ⟨u, held, below⟩ := entry_below ran
    have own : (Frame.ofArguments arguments).Finer (Frame.ofArguments arguments) :=
      ⟨.refl _, fun _ => .refl _, Frame.paired_ofArguments arguments⟩
    have empty : u.stack.values = [] := List.forall₂_nil_left_iff.mp below.stack
    exact ⟨u, held, own.rise below (by simp only [Frame.shape, empty]; rfl)⟩
  | step _ leads ih =>
    obtain ⟨u, held, finer⟩ := ih
    obtain ⟨v, leads', finer'⟩ := track.leads_from_held ran kept held finer leads
    have edge := leads'.edge held
    obtain ⟨w, there, below⟩ := track.edge_below ran absorbed edge
    exact ⟨w, there, finer'.rise below (track.edge_shape ran calm joins edge there below)⟩

end Track

end Bytecode
