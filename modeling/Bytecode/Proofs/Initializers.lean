import Bytecode.Proofs.Plans
import Bytecode.Proofs.Retries
import Bytecode.Proofs.Upkeep

/-! The static initializers of a class. Code for the initializer is gathered until the class is to
be finished. It is taken out then, even if the class turns out not to be finished, so that code that
is added later is gathered anew and becomes a method of its own. -/
namespace Bytecode

namespace Tree

theorem concat_concat (trees : List Tree) (t : Tree) :
    concat (trees ++ [t]) = (concat trees).andThen t := by simp [concat]

theorem isUnit_andThen_iff {a b : Tree} : (a.andThen b).isUnit ↔ a.isUnit ∧ b.isUnit := by
  constructor
  · exact isUnit_andThen
  · rintro ⟨first, second⟩
    rwa [andThen, if_pos first]

theorem isUnit_concat (trees : List Tree) : (concat trees).isUnit ↔ ∀ t ∈ trees, t.isUnit := by
  induction trees using List.reverseRecOn with
  | nil => simp [concat, isUnit]
  | append_singleton trees t ih =>
    rw [concat_concat, isUnit_andThen_iff, ih, List.forall_mem_append, List.forall_mem_singleton]

theorem concat_append_units {trees units : List Tree} (h : ∀ t ∈ units, t.isUnit) :
    concat (trees ++ units) = concat trees := by
  induction units using List.reverseRecOn with
  | nil => rw [List.append_nil]
  | append_singleton units t ih =>
    rw [List.forall_mem_append, List.forall_mem_singleton] at h
    rw [← List.append_assoc, concat_concat, ih h.1, andThen]
    split
    · rename_i empty
      rw [isUnit_iff.mp empty, isUnit_iff.mp h.2]
    · rw [if_pos (by rw [h.2]; rfl)]

end Tree

/-- The texts of an initializer are in the pool for good, or they do not fit in any more. -/
def Pool.Settled (p : Pool) : Bool → Prop
  | true => ∀ text ∈ ClassDraft.Addition.initializerTexts, .utf8 text ∈ p.entries.values
  | false => p.Full ∧
    ∃ text ∈ ClassDraft.Addition.initializerTexts, .utf8 text ∉ p.entries.values

namespace Pool.Settled

variable {p : Pool} {kept other : Bool}

theorem agree (h : p.Settled kept) (h' : p.Settled other) : kept = other := by
  cases kept <;> cases other
  · rfl
  · obtain ⟨text, named, absent⟩ := h.2
    exact absurd (h' text named) absent
  · obtain ⟨text, named, absent⟩ := h'.2
    exact absurd (h text named) absent
  · rfl

theorem left {α : Type} {x : PoolM α} (h : p.Settled kept) (built : p.Built) (asks : Asks x) :
    (Pool.left (x p)).Settled kept := by
  cases kept with
  | false =>
    rw [h.1.left asks]
    exact h
  | true =>
    intro text named
    obtain ⟨i, found⟩ := built.sound.mem_values_iff.mp (h text named)
    exact (built.left asks).sound.mem_values_iff.mpr ⟨i, built.retains asks _ _ found⟩

end Pool.Settled

namespace ClassDraft

variable {d e : ClassDraft}

namespace Event

def code? : Event → Option Tree
  | code tree => some tree
  | _ => none

def flush? : Event → Option (Tree × Bool)
  | flush tree kept => some (tree, kept)
  | _ => none

end Event

def contributions (past : List Event) : List Tree := past.filterMap Event.code?

def flushes (past : List Event) : List (Tree × Bool) := past.filterMap Event.flush?

theorem contributions_told (past : List Event) (event : Option Event) :
    contributions (past ++ event.toList) =
      contributions past ++ (event.bind Event.code?).toList := filterMap_told _ past event

theorem flushes_told (past : List Event) (event : Option Event) :
    flushes (past ++ event.toList) = flushes past ++ (event.bind Event.flush?).toList :=
  filterMap_told _ past event

/-- Code was taken out in groups, and the last group was not yet. The groups were all made methods,
or all lost. -/
structure Gathered (past : List Event) (kept : Bool) (groups : List (List Tree)) (last : List Tree)
    (d : ClassDraft) : Prop where
  whole : contributions past = groups.flatten ++ last
  pending : d.initializer = Tree.concat last
  flushed : flushes past = groups.map fun group => (Tree.concat group, kept)
  present : ∀ group ∈ groups, (Tree.concat group).isUnit = false
  settled : groups ≠ [] → d.pool.Settled kept

namespace Gathered

variable {past : List Event} {kept other : Bool} {groups : List (List Tree)} {last : List Tree}

theorem agree (h : Gathered past kept groups last d) (settled : d.pool.Settled other) :
    Gathered past other groups last d := by
  cases groups with
  | nil => exact ⟨h.whole, h.pending, h.flushed, h.present, fun _ => settled⟩
  | cons => exact (h.settled (by simp)).agree settled ▸ h

theorem quiet {event : Option Event} (h : Gathered past kept groups last d) (built : d.pool.Built)
    (c : Change d event e) (bare : event.bind Event.code? = none)
    (idle : event.bind Event.flush? = none) (same : e.initializer = d.initializer) :
    Gathered (past ++ event.toList) kept groups last e where
  whole := by
    rw [contributions_told, bare]
    exact (List.append_nil _).trans h.whole
  pending := same.trans h.pending
  flushed := by
    rw [flushes_told, idle]
    exact (List.append_nil _).trans h.flushed
  present := h.present
  settled some := by
    obtain ⟨x, asks, same⟩ := c.grown
    rw [same]
    exact (h.settled some).left built asks

theorem code (h : Gathered past kept groups last d) (tree : Tree) :
    Gathered (past ++ (some (Event.code tree)).toList) kept groups (last ++ [tree])
      { d with initializer := d.initializer.andThen tree } where
  whole := by
    rw [contributions_told, h.whole]
    exact List.append_assoc _ _ _
  pending := by rw [Tree.concat_concat, h.pending]
  flushed := by
    rw [flushes_told]
    exact (List.append_nil _).trans h.flushed
  present := h.present
  settled := h.settled

theorem flush (h : Gathered past kept groups last d) (present : d.initializer.isUnit = false)
    (settled : d.pool.Settled other) (pool : e.pool = d.pool) (empty : e.initializer = .unit) :
    Gathered (past ++ (some (Event.flush d.initializer other)).toList) other (groups ++ [last]) []
      e where
  whole := by
    rw [contributions_told, h.whole]
    simp [Event.code?]
  pending := empty
  flushed := by
    rw [flushes_told, (h.agree settled).flushed]
    simp [Event.flush?, h.pending]
  present := by
    rw [List.forall_mem_append, List.forall_mem_singleton, ← h.pending]
    exact ⟨h.present, present⟩
  settled _ := pool ▸ settled

end Gathered

theorem settled_of_texts (built : d.pool.Built) {given : UInt16 × UInt16}
    (first : d.pool.text? given.1 = some MemberName.clinit.text)
    (second : d.pool.text? given.2 = some Signature.nullary.descriptor) :
    d.pool.Settled true := by
  intro text named
  rw [built.sound.mem_values_iff]
  rcases List.mem_cons.mp named with rfl | named
  · exact ⟨_, Pool.text?_eq_some.mp first⟩
  · rw [List.mem_singleton.mp named]
    exact ⟨_, Pool.text?_eq_some.mp second⟩

theorem gathered_change {past : List Event} {event : Option Event} (built : d.pool.Built)
    (h : ∃ kept groups last, Gathered past kept groups last d) (c : Change d event e) :
    ∃ kept groups last, Gathered (past ++ event.toList) kept groups last e := by
  obtain ⟨kept, groups, last, h⟩ := h
  have step := c
  cases c with
  | code _ tree => exact ⟨_, _, _, h.code tree⟩
  | flush present first second =>
    exact ⟨_, _, _, h.flush present (settled_of_texts built first second) rfl rfl⟩
  | lose present full named absent =>
    exact ⟨false, _, _, h.flush present ⟨full, _, named, absent⟩ rfl rfl⟩
  | _ => exact ⟨_, _, _, h.quiet built step rfl rfl rfl⟩

theorem gathered_after (h : Upheld [] d) (empty : d.initializer = .unit)
    (operations : List Operation) :
    ∃ kept groups last, Gathered (history d operations) kept groups last (d.after operations) := by
  have start : Gathered [] true [] [] d := ⟨rfl, empty, rfl, by simp, by simp⟩
  have both := (changes_after h.built operations).invariant
    (P := fun past d => d.pool.Built ∧ ∃ kept groups last, Gathered past kept groups last d) []
    ⟨h.built, true, [], [], start⟩ fun h c => by
      obtain ⟨x, asks, same⟩ := c.grown
      exact ⟨same ▸ h.1.left asks, gathered_change h.1 h.2 c⟩
  exact both.2

/-- A static initializer is known by what its indices lead to. -/
def isInitializer (d : ClassDraft) (m : Pending) : Bool :=
  d.pool.text? m.member.name = some MemberName.clinit.text ∧
    d.pool.text? m.member.descriptor = some Signature.nullary.descriptor

theorem isInitializer_mono {m : Pending} (kept : d.pool.Retains e.pool)
    (h : d.isInitializer m = true) : e.isInitializer m = true :=
  have named := of_decide_eq_true h
  decide_eq_true ⟨kept.text? named.1, kept.text? named.2⟩

def initializers (d : ClassDraft) : List Pending := d.methods.toList.filter d.isInitializer

def Addition.isInitializer (x : Addition) : Bool := x.name = .clinit ∧ x.signature = .nullary

def Operation.method? : Operation → Option MemberName
  | addMethod _ name _ _ _ | addAbstractMethod _ name _ => some name
  | _ => none

theorem name_of_event {o : Operation} {x : Addition} (h : o.event? d = some (.method x)) :
    o.method? = some x.name := by
  cases o with
  | addMethod flags name s tree locals | addAbstractMethod flags name s =>
    simp only [Operation.event?] at h
    split at h <;> cases h
    rfl
  | setSourceFile name => cases h
  | _ =>
    simp only [Operation.event?] at h
    split at h <;> cases h

theorem exists_of_mem_history {operations : List Operation} {x : Addition}
    (h : .method x ∈ history d operations) : ∃ o ∈ operations, o.method? = some x.name := by
  induction operations generalizing d with
  | nil => cases h
  | cons o rest ih =>
    rcases List.mem_append.mp h with here | later
    · exact ⟨o, List.mem_cons_self, name_of_event (Option.mem_toList.mp here)⟩
    · obtain ⟨o', member, named⟩ := ih later
      exact ⟨o', List.mem_cons_of_mem o member, named⟩

/-- The initializers of a history in which no other method is named like one. -/
theorem filter_methods {past : List Event} (plain : ∀ x, .method x ∈ past → x.name ≠ .clinit)
    (this : BinaryName) :
    (past.filterMap (Event.method? this)).filter Addition.isInitializer =
      (flushes past).filterMap fun f => if f.2 then some (.initializer this f.1) else none := by
  induction past with
  | nil => rfl
  | cons event rest ih =>
    have ih := ih fun x member => plain x (List.mem_cons_of_mem _ member)
    cases event with
    | method x =>
      have other : ¬ x.isInitializer = true := by
        simp [Addition.isInitializer, plain x List.mem_cons_self]
      exact (List.filter_cons_of_neg other).trans ih
    | flush tree kept =>
      cases kept with
      | true =>
        have named : (Addition.initializer this tree).isInitializer = true := by
          simp [Addition.isInitializer, Addition.initializer]
        exact (List.filter_cons_of_pos named).trans (congrArg _ ih)
      | false => exact ih
    | _ => exact ih

/-- The initializers are those of the groups, or none if these were lost. -/
theorem bears_initializers {past : List Event} {kept : Bool} {groups : List (List Tree)}
    {last : List Tree} (upheld : Upheld past d) (h : Gathered past kept groups last d)
    (plain : ∀ x, .method x ∈ past → x.name ≠ .clinit) :
    List.Forall₂ d.Bears (if kept then groups.map fun group =>
      Addition.initializer d.this (Tree.concat group) else []) d.initializers := by
  have alike : ∀ x m, d.Bears x m → (x.isInitializer = true ↔ d.isInitializer m = true) := by
    intro x m bears
    rw [Addition.isInitializer, isInitializer, bears.stands.name, bears.stands.descriptor,
      decide_eq_true_iff, decide_eq_true_iff, Option.some.injEq, Option.some.injEq]
    exact and_congr ⟨congrArg _, MemberName.eq_of_text⟩ ⟨congrArg _, Signature.eq_of_descriptor⟩
  have filtered := List.rel_filter alike upheld.methods
  rw [filter_methods plain, h.flushed, List.filterMap_map] at filtered
  cases kept with
  | true =>
    rw [if_pos rfl, ← List.filterMap_eq_map']
    exact filtered
  | false =>
    rw [List.filterMap_eq_nil_iff.mpr] at filtered
    · exact filtered
    · simp

def OneInitializer (trees : List Tree) (d : ClassDraft) : Prop :=
  if trees.all Tree.isUnit then d.initializers = []
  else ∃ m, d.initializers = [m] ∧ d.Bears (.initializer d.this (Tree.concat trees)) m

theorem oneInitializer_of_gathered {past : List Event} {kept : Bool} {groups : List (List Tree)}
    {last : List Tree} (h : Gathered past kept groups last d) (rest : ∀ t ∈ last, t.isUnit)
    (bears : List.Forall₂ d.Bears (if kept then groups.map fun group =>
      Addition.initializer d.this (Tree.concat group) else []) d.initializers) :
    OneInitializer (contributions past) d ↔
      flushes past = [] ∨ ∃ tree, flushes past = [(tree, true)] := by
  rw [h.flushed, h.whole]
  cases groups with
  | nil =>
    have units : ([].flatten ++ last).all Tree.isUnit = true := by simpa using rest
    have none : d.initializers = [] := by
      cases kept <;> exact List.forall₂_nil_left_iff.mp bears
    rw [OneInitializer, if_pos units, none]
    simp
  | cons group others =>
    have some : ¬ ((group :: others).flatten ++ last).all Tree.isUnit = true := by
      intro units
      have unit : (Tree.concat group).isUnit = true := by
        rw [Tree.isUnit_concat]
        intro t member
        exact List.all_eq_true.mp units t (by simp [member])
      rw [h.present group List.mem_cons_self] at unit
      cases unit
    rw [OneInitializer, if_neg some]
    cases kept with
    | false =>
      have lost : d.initializers = [] := List.forall₂_nil_left_iff.mp bears
      simp [lost]
    | true =>
      cases others with
      | nil =>
        obtain ⟨m, ms, here, none, same⟩ := List.forall₂_cons_left_iff.mp bears
        rw [List.forall₂_nil_left_iff.mp none] at same
        have whole : Tree.concat ([group].flatten ++ last) = Tree.concat group := by
          rw [Tree.concat_append_units rest, List.flatten_singleton]
        rw [whole]
        exact ⟨fun _ => .inr ⟨_, rfl⟩, fun _ => ⟨m, same, here⟩⟩
      | cons second rest =>
        constructor
        · rintro ⟨m, one, _⟩
          have counted := bears.length_eq
          rw [one] at counted
          cases counted
        · rintro (none | ⟨_, one⟩)
          · cases none
          · cases one

/-- When a class is finished at last, the code for its initializer has been taken out in groups,
which have either all become methods, one for each group, or all been lost. So there is one
initializer with all the code just if the code was taken out once at most, and was not lost then. -/
theorem oneInitializer_iff (config : Config) (this : BinaryName) (super : Option BinaryName)
    (interface : Bool) (start d : ClassDraft) (operations : List Operation) (past : List Event)
    (begun : make config this super interface = .ok start)
    (plain : ∀ o ∈ operations, o.method? ≠ some .clinit)
    (finished : finish (start.after operations) = .ok () d)
    (told : history start (operations ++ [.finish]) = past) :
    (∃ kept groups last, Gathered past kept groups last d ∧ (∀ t ∈ last, t.isUnit) ∧
      List.Forall₂ d.Bears (if kept then groups.map fun group =>
        Addition.initializer d.this (Tree.concat group) else []) d.initializers) ∧
    (∀ m ∈ d.initializers, m.body = none) ∧
    (OneInitializer (contributions past) d ↔
      flushes past = [] ∨ ∃ tree, flushes past = [(tree, true)]) := by
  have closed : start.after (operations ++ [.finish]) = d := by
    rw [after_append]
    exact congrArg left finished
  have fresh := fresh_of_make begun
  have upheld := upheld_after (upheld_of_make begun) (operations ++ [.finish])
  obtain ⟨kept, groups, last, gathered⟩ :=
    gathered_after (upheld_of_make begun) fresh.initializer (operations ++ [.finish])
  have others : ∀ x, .method x ∈ past → x.name ≠ .clinit := by
    intro x member same
    obtain ⟨o, here, named⟩ := exists_of_mem_history (told ▸ member)
    rcases List.mem_append.mp here with before | last
    · exact plain o before (same ▸ named)
    · rw [List.mem_singleton.mp last] at named
      cases named
  rw [List.nil_append, closed, told] at upheld
  rw [closed, told] at gathered
  obtain ⟨empty, bare⟩ := flushed_of_finish finished
  have rest : ∀ t ∈ last, t.isUnit := by
    rw [← Tree.isUnit_concat, ← gathered.pending]
    exact empty
  have bears := bears_initializers upheld gathered others
  refine ⟨⟨kept, groups, last, gathered, rest, bears⟩, ?_,
    oneInitializer_of_gathered gathered rest bears⟩
  intro m member
  exact bare m (List.mem_filter.mp member).1

def retitled (name : String) : List Operation :=
  [.addToInitializer (.simple .nop), .setSourceFile name]

/-- The method that is made of code that does nothing can be laid out. -/
theorem exists_assemble_nop (config : Config) (given : UInt16 × UInt16) {p : Pool}
    (room : p.entries.next + 3 ≤ 65535) :
    ∃ m q, ((Addition.initializer ⟨"I", by decide⟩ (.simple .nop)).pending given).assemble config
      ⟨"I", by decide⟩ p = .ok m q ∧ q.entries.next ≤ p.entries.next + 3 := by
  obtain ⟨b, layout, simulation, map, body, laidOut, simulated, written⟩ :
      ∃ b layout simulation map,
        (Addition.initializer ⟨"I", by decide⟩ (.simple .nop)).body = some b ∧
        b.layOut p = .ok layout p ∧ b.simulate ⟨"I", by decide⟩ layout = .ok simulation ∧
        simulation.finish p = .ok map p :=
    ⟨_, _, _, _, rfl, by cbv, by cbv, by cbv⟩
  obtain ⟨code, mid, assembled, grown⟩ :=
    Body.exists_assemble_le config laidOut simulated written (by omega)
  obtain ⟨m, q, done, grown'⟩ := Pending.exists_assemble
    (m := (Addition.initializer ⟨"I", by decide⟩ (.simple .nop)).pending given) body assembled
    (by omega)
  exact ⟨m, q, done, by omega⟩

structure Idle (count : Nat) (d : ClassDraft) : Prop where
  isOpen : d.finished = false
  this : d.this = ⟨"I", by decide⟩
  empty : d.initializer = .unit
  bare : ∀ m ∈ d.methods.toList, m.body = none
  built : d.pool.Built
  room : d.pool.entries.next ≤ 5 + 5 * count
  size : d.methods.size = count
  own : ∀ m ∈ d.methods.toList, d.isInitializer m = true

theorem after_retitled (isOpen : d.finished = false) (empty : d.initializer = .unit)
    (name : String) :
    d.after (retitled name) = { d with initializer := .simple .nop, sourceFile := name } := by
  have coded := addToInitializer_open isOpen (.simple .nop)
  have titled := setSourceFile_open (d := { d with initializer := .simple .nop }) isOpen name
  rw [empty] at coded
  show left (setSourceFile name (left (addToInitializer (.simple .nop) d))) = _
  rw [coded]
  exact congrArg left titled

/-- The code becomes the last method, whatever comes of the source file. -/
theorem finish_code {given : UInt16 × UInt16} {m : Pending} {p q : Pool}
    (isOpen : d.finished = false) (present : d.initializer.isUnit = false)
    (bare : ∀ m ∈ d.methods.toList, m.body = none)
    (named : (Addition.initializer d.this d.initializer).names d.pool = .ok given p)
    (laid : ((Addition.initializer d.this d.initializer).pending given).assemble d.config d.this p =
      .ok m q) :
    finish d = addSourceAttribute { d with
      initializer := .unit
      pool := q
      methods := (d.methods.toList ++ [m]).toArray
      signatures := d.signatures.insert (.clinit, .nullary) } := by
  have flushed : flushInitializer d = .ok () ((Addition.initializer d.this d.initializer).addTo given
      { d with initializer := .unit, pool := p }) :=
    (flushInitializer_code isOpen present).trans
      (enter_ok (d := { d with initializer := .unit }) named)
  have assembled : assembleMethods ((Addition.initializer d.this d.initializer).addTo given
      { d with initializer := .unit, pool := p }) =
      .ok () { d with
        initializer := .unit
        pool := q
        methods := (d.methods.toList ++ [m]).toArray
        signatures := d.signatures.insert (.clinit, .nullary) } := by
    simp only [assembleMethods, Addition.addTo, Array.toList_push,
      Pending.assembleEach_last bare laid]
    rfl
  rw [finish_open isOpen, bind_of_ok flushed]
  exact bind_of_ok assembled _

/-- More code makes one more initializer, even if the name of the source file is refused. -/
theorem Idle.retitled {count : Nat} (h : Idle count d) (few : count ≤ 1000) (name : String) :
    ∃ f, finish (d.after (retitled name)) = addSourceAttribute f ∧ f.sourceFile = name ∧
      Idle (count + 1) f := by
  have room := h.room
  obtain ⟨given, p, named, grown⟩ := Pool.exists_names (p := d.pool) MemberName.clinit.text
    Signature.nullary.descriptor (by cbv) (by cbv) (by omega)
  obtain ⟨m, q, laid, grown'⟩ := exists_assemble_nop d.config given (p := p) (by omega)
  obtain ⟨built, kept⟩ := h.built.of_ok (Pool.asks_names _ _) named
  rw [← h.this] at laid
  obtain ⟨built', kept'⟩ := built.of_ok (Pending.asks_assemble _ _ _) laid
  rw [after_retitled h.isOpen h.empty,
    finish_code (d := { d with initializer := .simple .nop, sourceFile := name }) h.isOpen rfl
      h.bare named laid]
  obtain ⟨laidOut, name, descriptor⟩ := Pending.laid_of_assemble laid
  refine ⟨_, rfl, rfl, h.isOpen, h.this, rfl, ?_, built', ?_, ?_, ?_⟩
  · rw [List.forall_mem_append, List.forall_mem_singleton]
    exact ⟨h.bare, laidOut⟩
  · dsimp only
    omega
  · simp [h.size]
  · rw [List.forall_mem_append, List.forall_mem_singleton]
    refine ⟨fun x member => isInitializer_mono (kept.trans kept') (h.own x member), ?_⟩
    obtain ⟨first, second⟩ := h.built.names_of_ok named
    rw [isInitializer, name, descriptor]
    exact decide_eq_true ⟨kept'.text? first, kept'.text? second⟩

theorem Idle.finish_short {count : Nat} (h : Idle count d) (few : count ≤ 1000)
    (short : Modified.length d.sourceFile ≤ 65535) :
    ∃ e, addSourceAttribute d = .ok () e ∧ e.initializers.length = count := by
  have room := h.room
  obtain ⟨e, done⟩ := exists_addSourceAttribute short (by omega)
  obtain ⟨a, q, asked, rfl⟩ := addSourceAttribute_ok done
  have kept := (h.built.of_ok (Pool.asks_source _) asked).2
  refine ⟨_, done, ?_⟩
  rw [initializers, List.filter_eq_self.mpr fun m member => isInitializer_mono kept (h.own m member)]
  exact h.size

theorem exists_idle : ∃ start, make {} ⟨"I", by decide⟩ none false = .ok start ∧ Idle 0 start := by
  obtain ⟨start, begun, _, next, _, this⟩ := exists_start
  have fresh := fresh_of_make begun
  exact ⟨start, begun, fresh.isOpen, this, fresh.initializer, by simp [fresh.methods],
    (pool_of_make begun).1, next.le, by simp [fresh.methods], by simp [fresh.methods]⟩

theorem oneInitializer_iff_retitled : ∃ start d past,
    make {} ⟨"I", by decide⟩ none false = .ok start ∧
    (∀ o ∈ retitled "I.java", o.method? ≠ some .clinit) ∧
    finish (start.after (retitled "I.java")) = .ok () d ∧
    history start (retitled "I.java" ++ [.finish]) = past ∧
    (∃ kept groups last, Gathered past kept groups last d ∧ (∀ t ∈ last, t.isUnit) ∧
      List.Forall₂ d.Bears (if kept then groups.map fun group =>
        Addition.initializer d.this (Tree.concat group) else []) d.initializers) ∧
    (∀ m ∈ d.initializers, m.body = none) ∧
    (OneInitializer (contributions past) d ↔
      flushes past = [] ∨ ∃ tree, flushes past = [(tree, true)]) := by
  obtain ⟨start, begun, idle⟩ := exists_idle
  obtain ⟨f, reached, named, idle⟩ := idle.retitled (by omega) "I.java"
  obtain ⟨d, done, _⟩ := idle.finish_short (by omega) (by rw [named]; cbv)
  have plain : ∀ o ∈ retitled "I.java", o.method? ≠ some .clinit := by
    simp [retitled, Operation.method?]
  exact ⟨start, d, _, begun, plain, reached.trans done, rfl,
    oneInitializer_iff _ _ _ _ start d _ _ begun plain (reached.trans done) rfl⟩

/-- The name of a source file is refused for its length, and the code that was gathered by then is a
method already when the class is given another name and more code. -/
theorem not_oneInitializer_retitled : ∃ start d past,
    make {} ⟨"I", by decide⟩ none false = .ok start ∧
    (∀ o ∈ retitled (letters 65536) ++ [.finish] ++ retitled "I.java", o.method? ≠ some .clinit) ∧
    finish (start.after (retitled (letters 65536) ++ [.finish] ++ retitled "I.java")) = .ok () d ∧
    history start (retitled (letters 65536) ++ [.finish] ++ retitled "I.java" ++ [.finish]) = past ∧
    d.initializers.length = 2 ∧ ¬ OneInitializer (contributions past) d := by
  obtain ⟨start, begun, idle⟩ := exists_idle
  obtain ⟨f, first, long, idle⟩ := idle.retitled (by omega) (letters 65536)
  have refused := addSourceAttribute_long (d := f) (by rw [long, length_letters]; omega)
  have reached : start.after (retitled (letters 65536) ++ [.finish]) = f := by
    rw [after_append]
    exact congrArg left (first.trans refused)
  obtain ⟨g, second, short, idle⟩ := idle.retitled (by omega) "I.java"
  obtain ⟨d, done, two⟩ := idle.finish_short (by omega) (by rw [short]; cbv)
  refine ⟨start, d, _, begun, ?_, ?_, rfl, two, ?_⟩
  · simp [retitled, Operation.method?]
  · rw [after_append, reached]
    exact second.trans done
  · intro one
    rw [OneInitializer] at one
    split at one
    · rw [one] at two
      cases two
    · obtain ⟨m, single, _⟩ := one
      rw [single] at two
      cases two

end ClassDraft

end Bytecode
