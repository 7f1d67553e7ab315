import Bytecode.ClassDraft
import Bytecode.Proofs.Repetition

/-! What is done to a class while it is put together, in any order, whether it succeeds or not. An
operation on an open class asks the pool for something and makes one change with what it was given, so
that a refusal leaves nothing behind but constants. A run is a chain of such changes, and its history
tells what was accepted along the way. -/
namespace Bytecode

namespace Pool

def names (name descriptor : String) : PoolM (UInt16 × UInt16) := do
  let i ← utf8 name
  let j ← utf8 descriptor
  return (i, j)

def source (name : String) : PoolM Attribute := do
  let index ← utf8 name
  sourceFile index

theorem asks_names (name descriptor : String) : Asks (names name descriptor) :=
  (Asks.request (.utf8 name)).bind fun _ => (Asks.request (.utf8 descriptor)).bind fun _ => .pure _

theorem asks_source (name : String) : Asks (source name) :=
  (Asks.request (.utf8 name)).bind fun _ => asks_named _ _

variable {p q : Pool}

theorem Built.names_of_ok {name descriptor : String} {i j : UInt16} (h : p.Built)
    (done : names name descriptor p = .ok (i, j) q) :
    q.text? i = some name ∧ q.text? j = some descriptor := by
  obtain ⟨_, mid, first, done⟩ := exists_of_bind done
  obtain ⟨_, last, second, done⟩ := exists_of_bind done
  cases done
  obtain ⟨built, _⟩ := h.of_ok (Asks.request (.utf8 name)) first
  obtain ⟨_, kept⟩ := built.of_ok (Asks.request (.utf8 descriptor)) second
  exact ⟨kept.text? (h.sound.text_of_ok first), built.sound.text_of_ok second⟩

theorem Built.source_of_ok {name : String} {a : Attribute} (h : p.Built)
    (done : source name p = .ok a q) :
    q.text? a.name = some "SourceFile" ∧ ∃ index, a.info = Octets.u16 index ∧
      q.text? index = some name := by
  obtain ⟨index, mid, first, second⟩ := exists_of_bind done
  obtain ⟨built, _⟩ := h.of_ok (Asks.request (.utf8 name)) first
  obtain ⟨_, kept⟩ := built.of_ok (asks_named _ _) second
  obtain ⟨found, info⟩ := built.sound.named_of_ok second
  exact ⟨found, index, info, kept.text? (h.sound.text_of_ok first)⟩

def Full (p : Pool) : Prop := 65535 ≤ p.entries.next

theorem Full.intern (h : p.Full) (c : Constant) : left (intern c p) = p := by
  rcases intern_cases c p with ⟨i, _, done⟩ | ⟨_, _, refused⟩ | ⟨_, room, _⟩
  · rw [done]
    rfl
  · rw [refused]
    rfl
  · have positive := width_constant_pos c
    have : 65535 ≤ p.entries.next := h
    omega

theorem Full.eq_of_grows (h : p.Full) (grown : p.Grows q) : q = p := by
  induction grown with
  | refl => rfl
  | intern c _ ih =>
    rw [ih]
    exact h.intern c

theorem Full.left {α : Type} {x : PoolM α} (h : p.Full) (asks : Asks x) : Pool.left (x p) = p :=
  h.eq_of_grows (asks.interns.grows p)

/-- A short text that is asked for is there, or there is no slot for it, or it is added. -/
theorem utf8_cases {text : String} (h : p.Built) (short : Modified.length text ≤ 65535) :
    (.utf8 text ∈ p.entries.values ∧ ∃ i, utf8 text p = .ok i p) ∨
    (.utf8 text ∉ p.entries.values ∧ p.Full ∧
      utf8 text p = .error (.poolFull (.utf8 text) 65535) p) ∨
    (.utf8 text ∉ p.entries.values ∧ p.entries.next < 65535 ∧
      ∃ i, utf8 text p = .ok i (p.push (.utf8 text))) := by
  have narrow : width (Constant.utf8 text) = 1 := rfl
  have room := h.sound.room
  have asked : utf8 text = intern (.utf8 text) := if_neg (Nat.not_lt.mpr short)
  rw [asked]
  rcases intern_cases (.utf8 text) p with
    ⟨i, found, done⟩ | ⟨fresh, full, refused⟩ | ⟨fresh, free, done⟩
  · exact .inl ⟨h.sound.mem_values_iff.mpr ⟨i, h.sound.found.mp found⟩, i, done⟩
  · have last : p.entries.next = 65535 := by omega
    rw [last] at refused
    exact .inr (.inl ⟨h.sound.absent_iff.mp fresh, last.ge, refused⟩)
  · exact .inr (.inr ⟨h.sound.absent_iff.mp fresh, by omega, _, done⟩)

theorem Built.push {text : String} (h : p.Built) {i : UInt16}
    (done : utf8 text p = .ok i (p.push (.utf8 text))) : (p.push (.utf8 text)).Built :=
  (h.of_ok (Asks.request (.utf8 text)) done).1

/-- How many of the texts the pool does not have yet. -/
def missing (p : Pool) (texts : List String) : Nat :=
  texts.countP fun text => .utf8 text ∉ p.entries.values

/-- Two names are given where there are slots for those that are missing. -/
theorem names_cases {name descriptor : String} (h : p.Built) (short : Modified.length name ≤ 65535)
    (short' : Modified.length descriptor ≤ 65535) (distinct : name ≠ descriptor) :
    (p.entries.next + p.missing [name, descriptor] ≤ 65535 ∧
      ∃ given q, names name descriptor p = .ok given q) ∨
    (65535 < p.entries.next + p.missing [name, descriptor] ∧
      ∃ text ∈ [name, descriptor], ∃ q,
        names name descriptor p = .error (.poolFull (.utf8 text) 65535) q ∧ q.Full ∧
          .utf8 text ∉ q.entries.values) := by
  have room := h.sound.room
  unfold names
  rcases utf8_cases h short with ⟨here, i, first⟩ | ⟨absent, full, first⟩ | ⟨absent, free, i, first⟩
  · rcases utf8_cases h short' with
      ⟨here', j, second⟩ | ⟨absent', full, second⟩ | ⟨absent', free, j, second⟩
    all_goals rw [bind_of_ok first]
    · have none : p.missing [name, descriptor] = 0 := by simp [missing, here, here']
      exact .inl ⟨by omega, _, _, bind_of_ok second _⟩
    · have one : p.missing [name, descriptor] = 1 := by simp [missing, here, absent']
      have : 65535 ≤ p.entries.next := full
      exact .inr ⟨by omega, descriptor, by simp, p, bind_of_error second _, full, absent'⟩
    · have one : p.missing [name, descriptor] = 1 := by simp [missing, here, absent']
      exact .inl ⟨by omega, _, _, bind_of_ok second _⟩
  · have some : 1 ≤ p.missing [name, descriptor] := by simp [missing, absent]
    have : 65535 ≤ p.entries.next := full
    exact .inr ⟨by omega, name, by simp, p, bind_of_error first _, full, absent⟩
  · have values : (p.push (.utf8 name)).entries.values = p.entries.values ++ [.utf8 name] :=
      Slotted.values_push _ _
    have next : (p.push (.utf8 name)).entries.next = p.entries.next + 1 := rfl
    have same : .utf8 descriptor ∈ (p.push (.utf8 name)).entries.values ↔
        .utf8 descriptor ∈ p.entries.values := by
      rw [values]
      simp [distinct.symm]
    rcases utf8_cases (h.push first) short' with
      ⟨here', j, second⟩ | ⟨absent', full, second⟩ | ⟨absent', free', j, second⟩
    all_goals rw [bind_of_ok first]
    · have one : p.missing [name, descriptor] = 1 := by simp [missing, absent, same.mp here']
      exact .inl ⟨by omega, _, _, bind_of_ok second _⟩
    · have two : p.missing [name, descriptor] = 2 := by simp [missing, absent, mt same.mpr absent']
      have : 65535 ≤ p.entries.next + 1 := full
      exact .inr ⟨by omega, descriptor, by simp, _, bind_of_error second _, full, absent'⟩
    · have two : p.missing [name, descriptor] = 2 := by simp [missing, absent, mt same.mpr absent']
      exact .inl ⟨by omega, _, _, bind_of_ok second _⟩

end Pool

namespace Pending

variable {config : Config} {this : BinaryName} {m m' : Pending} {p q : Pool}

theorem asks_assemble (config : Config) (this : BinaryName) (m : Pending) :
    Pool.Asks (m.assemble config this) := by
  unfold assemble
  split
  · exact .pure _
  · rename_i body _
    exact (body.asks_assemble config this).bind fun _ => (Pool.asks_named _ _).bind fun _ => .pure _

/-- A method that was laid out keeps its names and has no body left. -/
theorem laid_of_assemble (done : m.assemble config this p = .ok m' q) :
    m'.body = none ∧ m'.member.name = m.member.name ∧
      m'.member.descriptor = m.member.descriptor := by
  cases present : m.body with
  | none =>
    simp only [assemble, present] at done
    cases done
    exact ⟨present, rfl, rfl⟩
  | some body =>
    simp only [assemble, present] at done
    obtain ⟨code, mid, _, done⟩ := exists_of_bind done
    obtain ⟨a, last, _, done⟩ := exists_of_bind done
    cases done
    exact ⟨rfl, rfl, rfl⟩

theorem bare_of_assembleEach {ms ms' : List Pending}
    (done : assembleEach config this ms p = ((ms', none), q)) : ∀ m ∈ ms', m.body = none := by
  induction ms generalizing ms' p with
  | nil =>
    cases done
    simp
  | cons m rest ih =>
    rw [assembleEach] at done
    cases assembled : m.assemble config this p with
    | error fault mid =>
      simp only [assembled] at done
      cases done
    | ok first mid =>
      simp only [assembled] at done
      obtain ⟨⟨⟨others, e⟩, last⟩, later⟩ : ∃ r, assembleEach config this rest mid = r := ⟨_, rfl⟩
      rw [later] at done
      cases done
      exact List.forall_mem_cons.mpr ⟨(laid_of_assemble assembled).1, ih later⟩

end Pending

namespace ClassDraft

inductive Operation where
  | addInterface (name : BinaryName)
  | addField (flags : UInt16) (name : MemberName) (t : FieldType)
  | addMethod (flags : UInt16) (name : MemberName) (s : Signature) (tree : Tree) (locals : UInt16)
  | addAbstractMethod (flags : UInt16) (name : MemberName) (s : Signature)
  | addToInitializer (tree : Tree)
  | setSourceFile (name : String)
  | finish
  | bytes
  | entry

def Operation.run : Operation → ClassM Unit
  | addInterface name => ClassDraft.addInterface name
  | addField flags name t => ClassDraft.addField flags name t
  | addMethod flags name s tree locals => ClassDraft.addMethod flags name s tree locals
  | addAbstractMethod flags name s => ClassDraft.addAbstractMethod flags name s
  | addToInitializer tree => ClassDraft.addToInitializer tree
  | setSourceFile name => ClassDraft.setSourceFile name
  | finish => ClassDraft.finish
  | bytes => do
    let _ ← ClassDraft.bytes
    return ()
  | entry => do
    let _ ← ClassDraft.entry
    return ()

def left {α : Type} : EStateM.Result Error ClassDraft α → ClassDraft
  | .ok _ d => d
  | .error _ d => d

def after (d : ClassDraft) (operations : List Operation) : ClassDraft :=
  operations.foldl (fun d o => left (o.run d)) d

variable {d : ClassDraft}

/-- Ask for something, and change the class by what was given. -/
def enter {α : Type} (x : PoolM α) (change : α → ClassDraft → ClassDraft) : ClassM Unit := do
  let a ← onPool x
  modify (change a)

section

variable {α : Type} {x : PoolM α} {change : α → ClassDraft → ClassDraft} {a : α} {e : Error}
  {q : Pool}

theorem enter_ok (done : x d.pool = .ok a q) :
    enter x change d = .ok () (change a { d with pool := q }) := by
  have given : onPool x d = .ok a { d with pool := q } := by simp only [onPool, done]
  exact bind_of_ok given _

theorem enter_error (refused : x d.pool = .error e q) :
    enter x change d = .error e { d with pool := q } := by
  have given : onPool x d = .error e { d with pool := q } := by simp only [onPool, refused]
  exact bind_of_error given _

end

theorem checkOpen_open (h : d.finished = false) : checkOpen d = .ok () d := by
  simp [checkOpen, h]

theorem checkOpen_finished (h : d.finished = true) :
    checkOpen d = .error (.finished d.this.text) d := by
  simp [checkOpen, h]

theorem onPool_names {α : Type} (name descriptor : String) (next : UInt16 → UInt16 → ClassM α) :
    (do
      let i ← onPool (Pool.utf8 name)
      let j ← onPool (Pool.utf8 descriptor)
      next i j) = onPool (Pool.names name descriptor) >>= fun given => next given.1 given.2 := by
  funext d
  simp only [onPool, Pool.names, bind, EStateM.bind, pure, EStateM.pure]
  cases Pool.utf8 name d.pool with
  | error => rfl
  | ok i p =>
    dsimp only
    cases Pool.utf8 descriptor p <;> rfl

theorem after_append (d : ClassDraft) (first second : List Operation) :
    d.after (first ++ second) = (d.after first).after second := List.foldl_append

structure Fresh (d : ClassDraft) : Prop where
  interfaces : d.interfaces = #[]
  fields : d.fields = #[]
  fieldNames : d.fieldNames = ∅
  methods : d.methods = #[]
  signatures : d.signatures = ∅
  initializer : d.initializer = .unit
  attributes : d.attributes = []
  isOpen : d.finished = false

theorem fresh_of_make {config : Config} {this : BinaryName} {super : Option BinaryName}
    {interface : Bool} (begun : make config this super interface = .ok d) : d.Fresh := by
  unfold make at begun
  dsimp only at begun
  split at begun
  · cases begun
    exact ⟨rfl, rfl, rfl, rfl, rfl, rfl, rfl, rfl⟩
  · cases begun

/-- The first requests to the pool are for the class and for its superclass. -/
theorem pool_of_make {config : Config} {this : BinaryName} {super : Option BinaryName}
    {interface : Bool} (begun : make config this super interface = .ok d) :
    d.pool.Built ∧ d.pool.class? d.thisIndex = some this.text ∧
      d.pool.class? d.superIndex = some (super.getD .object).text := by
  unfold make at begun
  dsimp only at begun
  split at begun
  · rename_i first second pool asked
    cases begun
    obtain ⟨i, p, asked₁, asked⟩ := exists_of_bind asked
    obtain ⟨j, q, asked₂, done⟩ := exists_of_bind asked
    cases done
    obtain ⟨built, _⟩ := Pool.built_empty.of_ok (Pool.Asks.request (.classRef _)) asked₁
    obtain ⟨built', kept⟩ := built.of_ok (Pool.Asks.request (.classRef _)) asked₂
    exact ⟨built', kept.class? (Pool.built_empty.sound.class_of_ok asked₁),
      built.sound.class_of_ok asked₂⟩
  · cases begun

structure Addition where
  flags : UInt16
  name : MemberName
  signature : Signature
  body : Option Body

namespace Addition

def initializer (this : BinaryName) (tree : Tree) : Addition where
  flags := Flags.isPublic ||| Flags.isStatic
  name := .clinit
  signature := .nullary
  body := some (Body.make this .clinit .nullary true 0 (tree.andThen (.simple .returnVoid)))

def pending (x : Addition) (given : UInt16 × UInt16) : Pending :=
  ⟨⟨x.flags, given.1, given.2, []⟩, x.body⟩

def addTo (x : Addition) (given : UInt16 × UInt16) (d : ClassDraft) : ClassDraft := { d with
  methods := d.methods.push (x.pending given)
  signatures := d.signatures.insert (x.name, x.signature) }

def names (x : Addition) : PoolM (UInt16 × UInt16) :=
  Pool.names x.name.text x.signature.descriptor

def initializerTexts : List String := [MemberName.clinit.text, Signature.nullary.descriptor]

/-- The names of a static initializer are short, so that they are only refused for want of slots. -/
theorem names_initializer_cases {p : Pool} (h : p.Built) (this : BinaryName) (tree : Tree) :
    (p.entries.next + p.missing initializerTexts ≤ 65535 ∧
      ∃ given q, (initializer this tree).names p = .ok given q) ∨
    (65535 < p.entries.next + p.missing initializerTexts ∧ ∃ text ∈ initializerTexts, ∃ q,
      (initializer this tree).names p = .error (.poolFull (.utf8 text) 65535) q ∧ q.Full ∧
        .utf8 text ∉ q.entries.values) :=
  Pool.names_cases h (by cbv) (by cbv) (by cbv)

end Addition

section

variable (isOpen : d.finished = false)

include isOpen

theorem addInterface_known {name : BinaryName} (known : name ∈ d.interfaces.toList.map Prod.fst) :
    addInterface name d = .ok () d := by
  have listed : d.interfaces.any (·.1 = name) = true := by
    obtain ⟨pair, member, rfl⟩ := List.mem_map.mp known
    exact Array.any_eq_true'.mpr ⟨pair, by simpa using member, by simp⟩
  have got : (get : ClassM ClassDraft) d = .ok d d := rfl
  unfold addInterface
  rw [bind_of_ok (checkOpen_open isOpen), bind_of_ok got, if_pos listed]
  rfl

theorem addInterface_new {name : BinaryName} (new : name ∉ d.interfaces.toList.map Prod.fst) :
    addInterface name d = enter (Pool.classRef (.object name))
      (fun i d => { d with interfaces := d.interfaces.push (name, i) }) d := by
  have missing : ¬ d.interfaces.any (·.1 = name) = true := by
    intro listed
    obtain ⟨pair, member, same⟩ := Array.any_eq_true'.mp listed
    exact new (List.mem_map.mpr ⟨pair, by simpa using member, by simpa using same⟩)
  have got : (get : ClassM ClassDraft) d = .ok d d := rfl
  unfold addInterface
  rw [bind_of_ok (checkOpen_open isOpen), bind_of_ok got, if_neg missing]
  rfl

theorem addField_open (flags : UInt16) (name : MemberName) (t : FieldType) :
    addField flags name t d = enter (Pool.names name.text t.descriptor)
      (fun given d => { d with
        fields := d.fields.push ⟨flags, given.1, given.2, []⟩
        fieldNames := d.fieldNames.insert name }) d := by
  unfold addField
  rw [bind_of_ok (checkOpen_open isOpen), onPool_names]
  rfl

omit isOpen in
theorem pushMethod_eq (x : Addition) :
    pushMethod x.flags x.name x.signature x.body = enter x.names x.addTo :=
  onPool_names _ _ _

theorem addMethod_open (flags : UInt16) (name : MemberName) (s : Signature) (tree : Tree)
    (locals : UInt16) :
    addMethod flags name s tree locals d = pushMethod flags name s
      (some (Body.make d.this name s (flags &&& Flags.isStatic ≠ 0) locals tree)) d := by
  have got : (get : ClassM ClassDraft) d = .ok d d := rfl
  unfold addMethod
  rw [bind_of_ok (checkOpen_open isOpen), bind_of_ok got]

theorem addAbstractMethod_open (flags : UInt16) (name : MemberName) (s : Signature) :
    addAbstractMethod flags name s d = pushMethod (flags ||| Flags.isAbstract) name s none d :=
  bind_of_ok (checkOpen_open isOpen) _

theorem addToInitializer_open (tree : Tree) :
    addToInitializer tree d = .ok () { d with initializer := d.initializer.andThen tree } :=
  bind_of_ok (checkOpen_open isOpen) _

theorem setSourceFile_open (name : String) :
    setSourceFile name d = .ok () { d with sourceFile := name } :=
  bind_of_ok (checkOpen_open isOpen) _

omit isOpen in
theorem flushInitializer_unit (h : d.initializer.isUnit) : flushInitializer d = .ok () d := by
  have got : (get : ClassM ClassDraft) d = .ok d d := rfl
  unfold flushInitializer
  rw [bind_of_ok got, if_pos h]
  rfl

/-- The code is taken out before the names of the method are asked for. -/
theorem flushInitializer_code (h : d.initializer.isUnit = false) :
    flushInitializer d = enter (Addition.initializer d.this d.initializer).names
      (Addition.initializer d.this d.initializer).addTo { d with initializer := .unit } := by
  have got : (get : ClassM ClassDraft) d = .ok d d := rfl
  have emptied : (modify (fun d => { d with initializer := .unit }) : ClassM Unit) d =
      .ok () { d with initializer := .unit } := rfl
  have static : (decide ((Flags.isPublic ||| Flags.isStatic) &&& Flags.isStatic ≠ 0)) = true := by
    decide
  unfold flushInitializer
  rw [bind_of_ok got, if_neg (by simp [h]), bind_of_ok emptied,
    addMethod_open (d := { d with initializer := .unit }) isOpen, static]
  exact congrFun (pushMethod_eq (Addition.initializer d.this d.initializer)) _

omit isOpen in
theorem addSourceAttribute_eq (d : ClassDraft) :
    addSourceAttribute d = enter (Pool.source d.sourceFile)
      (fun a d => { d with attributes := d.attributes ++ [a], finished := true }) d := by
  have got : (get : ClassM ClassDraft) d = .ok d d := rfl
  unfold addSourceAttribute
  rw [bind_of_ok got]
  simp only [enter, onPool, Pool.source, bind, EStateM.bind]
  cases Pool.utf8 d.sourceFile d.pool with
  | error => rfl
  | ok i p => cases Pool.sourceFile i p <;> rfl

theorem finish_open :
    finish d = (flushInitializer >>= fun _ => assembleMethods >>= fun _ => addSourceAttribute) d :=
  bind_of_ok (checkOpen_open isOpen) _

theorem left_bytes_open : left (bytes d) = left (finish d) := by
  have got : (get : ClassM ClassDraft) d = .ok d d := rfl
  unfold bytes
  rw [bind_of_ok got, if_pos (by simp [isOpen])]
  cases done : finish d with
  | error e f =>
    rw [bind_of_error done]
    rfl
  | ok _ f =>
    have again : (get : ClassM ClassDraft) f = .ok f f := rfl
    rw [bind_of_ok done]
    dsimp only
    rw [bind_of_ok again]
    cases f.classFile.encode <;> rfl

end

theorem left_bytes_finished (h : d.finished = true) : left (bytes d) = d := by
  have got : (get : ClassM ClassDraft) d = .ok d d := rfl
  unfold bytes
  rw [bind_of_ok got, if_neg (by simp [h])]
  dsimp only
  rw [bind_of_ok got]
  cases d.classFile.encode <;> rfl

theorem left_entry (d : ClassDraft) : left (entry d) = left (bytes d) := by
  unfold entry
  cases done : bytes d with
  | error e f =>
    rw [bind_of_error done]
    rfl
  | ok _ f =>
    rw [bind_of_ok done]
    rfl

def Operation.attempts : Operation → Bool
  | finish | bytes | entry => true
  | _ => false

theorem left_run_unit {α : Type} (x : ClassM α) (d : ClassDraft) :
    left ((do let _ ← x; return () : ClassM Unit) d) = left (x d) := by
  cases done : x d with
  | error e f =>
    rw [bind_of_error done]
    rfl
  | ok _ f =>
    rw [bind_of_ok done]
    rfl

theorem left_run_attempts {o : Operation} (h : o.attempts) :
    left (o.run d) = if d.finished then d else left (finish d) := by
  have bytes : left (bytes d) = if d.finished then d else left (finish d) := by
    cases isOpen : d.finished with
    | false => exact left_bytes_open isOpen
    | true => exact left_bytes_finished isOpen
  cases o with
  | finish =>
    cases isOpen : d.finished with
    | false => rfl
    | true =>
      show left (finish d) = d
      unfold finish
      rw [bind_of_error (checkOpen_finished isOpen)]
      rfl
  | bytes => exact (left_run_unit _ d).trans bytes
  | entry => exact (left_run_unit _ d).trans ((left_entry d).trans bytes)
  | _ => cases h

/-- A finished class refuses every operation that does not just write it. -/
theorem run_finished {o : Operation} (h : d.finished = true) (edits : o.attempts = false) :
    o.run d = .error (.finished d.this.text) d := by
  cases o <;> first | cases edits; done | exact bind_of_error (checkOpen_finished h) _

inductive Event where
  | interface (name : BinaryName)
  | field (flags : UInt16) (name : MemberName) (t : FieldType)
  | method (x : Addition)
  | code (tree : Tree)
  /-- The code of the initializer was taken out. It was made a method if its names were given. -/
  | flush (tree : Tree) (kept : Bool)

def isOk {α : Type} : EStateM.Result Error ClassDraft α → Bool
  | .ok _ _ => true
  | .error _ _ => false

def Operation.event? (o : Operation) (d : ClassDraft) : Option Event :=
  match o with
  | addInterface name => if isOk (o.run d) then some (.interface name) else none
  | addField flags name t => if isOk (o.run d) then some (.field flags name t) else none
  | addMethod flags name s tree locals =>
    let body := Body.make d.this name s (flags &&& Flags.isStatic ≠ 0) locals tree
    if isOk (o.run d) then some (.method ⟨flags, name, s, some body⟩) else none
  | addAbstractMethod flags name s =>
    if isOk (o.run d) then some (.method ⟨flags ||| Flags.isAbstract, name, s, none⟩) else none
  | addToInitializer tree => if isOk (o.run d) then some (.code tree) else none
  | setSourceFile _ => none
  | finish | bytes | entry =>
    if d.finished || d.initializer.isUnit then none
    else some (.flush d.initializer (isOk (flushInitializer d)))

def history (d : ClassDraft) : List Operation → List Event
  | [] => []
  | o :: rest => (o.event? d).toList ++ history (left (o.run d)) rest

inductive Change : ClassDraft → Option Event → ClassDraft → Prop where
  | ask {α : Type} {x : PoolM α} (d : ClassDraft) (asks : Pool.Asks x) :
    Change d none { d with pool := Pool.left (x d.pool) }
  | known {d : ClassDraft} {name : BinaryName} (listed : name ∈ d.interfaces.toList.map Prod.fst) :
    Change d (some (.interface name)) d
  | interface {d : ClassDraft} {name : BinaryName} {i : UInt16}
    (new : name ∉ d.interfaces.toList.map Prod.fst) (found : d.pool.class? i = some name.text) :
    Change d (some (.interface name)) { d with interfaces := d.interfaces.push (name, i) }
  | field {d : ClassDraft} {name : MemberName} {t : FieldType} {i j : UInt16} (flags : UInt16)
    (first : d.pool.text? i = some name.text) (second : d.pool.text? j = some t.descriptor) :
    Change d (some (.field flags name t)) { d with
      fields := d.fields.push ⟨flags, i, j, []⟩
      fieldNames := d.fieldNames.insert name }
  | method {d : ClassDraft} {x : Addition} {given : UInt16 × UInt16}
    (first : d.pool.text? given.1 = some x.name.text)
    (second : d.pool.text? given.2 = some x.signature.descriptor) :
    Change d (some (.method x)) (x.addTo given d)
  | code (d : ClassDraft) (tree : Tree) :
    Change d (some (.code tree)) { d with initializer := d.initializer.andThen tree }
  | rename {d : ClassDraft} (isOpen : d.finished = false) (name : String) :
    Change d none { d with sourceFile := name }
  | flush {d : ClassDraft} {given : UInt16 × UInt16} (present : d.initializer.isUnit = false)
    (first : d.pool.text? given.1 = some MemberName.clinit.text)
    (second : d.pool.text? given.2 = some Signature.nullary.descriptor) :
    Change d (some (.flush d.initializer true))
      ((Addition.initializer d.this d.initializer).addTo given { d with initializer := .unit })
  | lose {d : ClassDraft} {text : String} (present : d.initializer.isUnit = false)
    (full : d.pool.Full) (named : text ∈ Addition.initializerTexts)
    (absent : .utf8 text ∉ d.pool.entries.values) :
    Change d (some (.flush d.initializer false)) { d with initializer := .unit }
  | lay {d : ClassDraft} {before after : List Pending} {m m' : Pending} {q : Pool}
    (here : d.methods.toList = before ++ m :: after)
    (done : m.assemble d.config d.this d.pool = .ok m' q) :
    Change d none { d with pool := q, methods := (before ++ m' :: after).toArray }
  | close {d : ClassDraft} {a : Attribute} (isOpen : d.finished = false)
    (found : d.pool.text? a.name = some "SourceFile")
    (source : ∃ index, a.info = Octets.u16 index ∧ d.pool.text? index = some d.sourceFile) :
    Change d none { d with attributes := d.attributes ++ [a], finished := true }

inductive Changes (d : ClassDraft) : List Event → ClassDraft → Prop where
  | refl : Changes d [] d
  | step {past : List Event} {event : Option Event} {e f : ClassDraft} :
    Changes d past e → Change e event f → Changes d (past ++ event.toList) f

namespace Changes

variable {e f : ClassDraft} {past later : List Event} {event : Option Event}

theorem single (h : Change d event e) : Changes d event.toList e := refl.step h

theorem trans (first : Changes d past e) (second : Changes e later f) :
    Changes d (past ++ later) f := by
  induction second with
  | refl => rwa [List.append_nil]
  | step _ change ih =>
    rw [← List.append_assoc]
    exact ih.step change

theorem quiet (first : Changes d past e) (second : Changes e [] f) : Changes d past f := by
  have both := first.trans second
  rwa [List.append_nil] at both

theorem quiet_left (first : Changes d [] e) (second : Changes e past f) : Changes d past f :=
  first.trans second

end Changes

theorem changes_ask {α : Type} {x : PoolM α} {q : Pool} (asks : Pool.Asks x)
    (same : q = Pool.left (x d.pool)) : Changes d [] { d with pool := q } := by
  rw [same]
  exact .single (.ask d asks)

/-- What was asked for is entered with an event, and a refusal leaves only a larger pool. -/
theorem changes_enter {α : Type} {x : PoolM α} {change : α → ClassDraft → ClassDraft}
    {event : Option Event} (asks : Pool.Asks x)
    (changes : ∀ a q, x d.pool = .ok a q →
      Change { d with pool := q } event (change a { d with pool := q })) :
    Changes d (if isOk (enter x change d) then event else none).toList
      (left (enter x change d)) := by
  cases done : x d.pool with
  | ok a q =>
    have asked : Changes d [] { d with pool := q } := changes_ask asks (by rw [done]; rfl)
    rw [enter_ok done]
    exact asked.quiet_left (.single (changes a q done))
  | error e q =>
    rw [enter_error done]
    exact changes_ask asks (by rw [done]; rfl)

theorem changes_pushMethod (built : d.pool.Built) (x : Addition) :
    Changes d (if isOk (pushMethod x.flags x.name x.signature x.body d) then some (Event.method x)
      else none).toList (left (pushMethod x.flags x.name x.signature x.body d)) := by
  rw [pushMethod_eq]
  apply changes_enter (Pool.asks_names _ _)
  intro given q done
  obtain ⟨first, second⟩ := built.names_of_ok done
  exact .method first second

theorem changes_flushInitializer (isOpen : d.finished = false) (built : d.pool.Built) :
    Changes d (if d.initializer.isUnit then none
      else some (Event.flush d.initializer (isOk (flushInitializer d)))).toList
      (left (flushInitializer d)) := by
  cases present : d.initializer.isUnit with
  | true =>
    rw [flushInitializer_unit present]
    exact .refl
  | false =>
    have asks : Pool.Asks (Addition.initializer d.this d.initializer).names := Pool.asks_names _ _
    rw [flushInitializer_code isOpen present]
    -- The names may as well be asked for before the code is taken out.
    rcases Addition.names_initializer_cases built d.this d.initializer with
      ⟨_, given, q, done⟩ | ⟨_, text, named, q, done, full, absent⟩
    · obtain ⟨first, second⟩ := built.names_of_ok done
      have asked : Changes d [] { d with pool := q } := changes_ask asks (by rw [done]; rfl)
      rw [enter_ok (d := { d with initializer := .unit }) done]
      exact asked.quiet_left (.single (.flush present first second))
    · have asked : Changes d [] { d with pool := q } := changes_ask asks (by rw [done]; rfl)
      rw [enter_error (d := { d with initializer := .unit }) done]
      exact asked.quiet_left (.single (.lose present full named absent))

/-- Bodies are laid out one after the other, up to the first that fails. -/
theorem changes_assembleEach (before : List Pending) {ms ms' : List Pending} {e : Option Error}
    {q : Pool} (here : d.methods.toList = before ++ ms)
    (done : Pending.assembleEach d.config d.this ms d.pool = ((ms', e), q)) :
    Changes d [] { d with pool := q, methods := (before ++ ms').toArray } := by
  induction ms generalizing d before ms' with
  | nil =>
    cases done
    rw [← here]
    exact .refl
  | cons m rest ih =>
    rw [Pending.assembleEach] at done
    cases assembled : m.assemble d.config d.this d.pool with
    | error fault mid =>
      simp only [assembled] at done
      cases done
      rw [← here]
      exact changes_ask (m.asks_assemble d.config d.this) (by rw [assembled]; rfl)
    | ok first mid =>
      simp only [assembled] at done
      obtain ⟨⟨⟨others, e'⟩, last⟩, later⟩ :
        ∃ r, Pending.assembleEach d.config d.this rest mid = r := ⟨_, rfl⟩
      rw [later] at done
      cases done
      have laid : Changes d [] _ := .single (.lay here assembled)
      have tail := ih (d := { d with pool := mid, methods := (before ++ first :: rest).toArray })
        (before ++ [first]) (by simp) later
      rw [List.append_assoc] at tail
      exact laid.quiet tail

theorem changes_assembleMethods (d : ClassDraft) : Changes d [] (left (assembleMethods d)) := by
  obtain ⟨⟨⟨methods, failed⟩, pool⟩, done⟩ :
    ∃ r, Pending.assembleEach d.config d.this d.methods.toList d.pool = r := ⟨_, rfl⟩
  have changes := changes_assembleEach [] rfl done
  unfold assembleMethods
  dsimp only
  rw [done]
  cases failed <;> exact changes

theorem bare_of_assembleMethods {f : ClassDraft} (done : assembleMethods d = .ok () f) :
    ∀ m ∈ f.methods.toList, m.body = none := by
  obtain ⟨⟨⟨methods, e⟩, pool⟩, each⟩ :
    ∃ r, Pending.assembleEach d.config d.this d.methods.toList d.pool = r := ⟨_, rfl⟩
  unfold assembleMethods at done
  simp only [each] at done
  cases e with
  | none =>
    cases done
    exact Pending.bare_of_assembleEach each
  | some e => cases done

theorem addSourceAttribute_ok {f : ClassDraft} (done : addSourceAttribute d = .ok () f) :
    ∃ a q, Pool.source d.sourceFile d.pool = .ok a q ∧
      f = { d with pool := q, attributes := d.attributes ++ [a], finished := true } := by
  rw [addSourceAttribute_eq] at done
  cases asked : Pool.source d.sourceFile d.pool with
  | error fault q =>
    rw [enter_error asked] at done
    cases done
  | ok a q =>
    rw [enter_ok asked] at done
    cases done
    exact ⟨a, q, rfl, rfl⟩

theorem changes_addSourceAttribute (isOpen : d.finished = false) (built : d.pool.Built) :
    Changes d [] (left (addSourceAttribute d)) := by
  have asks := Pool.asks_source d.sourceFile
  rw [addSourceAttribute_eq]
  cases done : Pool.source d.sourceFile d.pool with
  | error e q =>
    rw [enter_error done]
    exact changes_ask asks (by rw [done]; rfl)
  | ok a q =>
    have asked : Changes d [] { d with pool := q } := changes_ask asks (by rw [done]; rfl)
    obtain ⟨found, source⟩ := built.source_of_ok done
    rw [enter_ok done]
    exact asked.quiet (.single (.close (d := { d with pool := q }) isOpen found source))

/-- What a change leaves of the pool has come about by requests to it. -/
theorem Change.grown {e : ClassDraft} {event : Option Event} (h : Change d event e) :
    ∃ x : PoolM Unit, Pool.Asks x ∧ e.pool = Pool.left (x d.pool) := by
  have asked {α : Type} {x : PoolM α} (asks : Pool.Asks x) :
      ∃ y : PoolM Unit, Pool.Asks y ∧ Pool.left (x d.pool) = Pool.left (y d.pool) := by
    refine ⟨x >>= fun _ => pure (), asks.bind fun _ => .pure (), ?_⟩
    cases done : x d.pool with
    | ok a q => rw [bind_of_ok done]; rfl
    | error e q => rw [bind_of_error done]; rfl
  cases h with
  | ask _ asks => exact asked asks
  | lay here done =>
    obtain ⟨y, asks, same⟩ := asked (Pending.asks_assemble d.config d.this _)
    rw [done] at same
    exact ⟨y, asks, same⟩
  | _ => exact ⟨pure (), .pure (), rfl⟩

namespace Changes

variable {e : ClassDraft} {past : List Event}

theorem built (h : Changes d past e) (built : d.pool.Built) : e.pool.Built := by
  induction h with
  | refl => exact built
  | step _ change ih =>
    obtain ⟨x, asks, same⟩ := change.grown
    rw [same]
    exact ih.left asks

/-- What holds of a class and its history at the start, and after a change if before it, holds along
a chain of changes. -/
theorem invariant {P : List Event → ClassDraft → Prop} (h : Changes d past e)
    (earlier : List Event) (start : P earlier d)
    (step : ∀ {past event e f}, P past e → Change e event f → P (past ++ event.toList) f) :
    P (earlier ++ past) e := by
  induction h with
  | refl => rwa [List.append_nil]
  | step _ change ih =>
    rw [← List.append_assoc]
    exact step ih change

end Changes

/-- The names of the class and its settings are never changed. -/
theorem Change.this {e : ClassDraft} {event : Option Event} (h : Change d event e) :
    e.this = d.this ∧ e.config = d.config := by
  cases h <;> exact ⟨rfl, rfl⟩

theorem changes_bind {α β : Type} {x : ClassM α} {f : α → ClassM β} {past : List Event}
    (first : Changes d past (left (x d)))
    (second : ∀ a e, x d = .ok a e → Changes e [] (left (f a e))) :
    Changes d past (left ((x >>= f) d)) := by
  cases done : x d with
  | error e g =>
    rw [done] at first
    rw [bind_of_error done]
    exact first
  | ok a e =>
    rw [done] at first
    rw [bind_of_ok done]
    exact first.quiet (second a e done)

/-- The code is taken out even if its names are refused. -/
theorem left_flushInitializer (isOpen : d.finished = false) :
    (left (flushInitializer d)).finished = false ∧
      (left (flushInitializer d)).initializer.isUnit = true := by
  cases present : d.initializer.isUnit with
  | true =>
    rw [flushInitializer_unit present]
    exact ⟨isOpen, present⟩
  | false =>
    rw [flushInitializer_code isOpen present]
    cases done : (Addition.initializer d.this d.initializer).names d.pool with
    | ok given q =>
      rw [enter_ok (d := { d with initializer := .unit }) done]
      exact ⟨isOpen, rfl⟩
    | error e q =>
      rw [enter_error (d := { d with initializer := .unit }) done]
      exact ⟨isOpen, rfl⟩

theorem left_assembleMethods (d : ClassDraft) :
    (left (assembleMethods d)).finished = d.finished ∧
      (left (assembleMethods d)).initializer = d.initializer := by
  unfold assembleMethods
  dsimp only
  split
  · exact ⟨rfl, rfl⟩
  · exact ⟨rfl, rfl⟩

theorem changes_finish (isOpen : d.finished = false) (built : d.pool.Built) :
    Changes d (if d.initializer.isUnit then none
      else some (Event.flush d.initializer (isOk (flushInitializer d)))).toList
      (left (finish d)) := by
  have flushed := changes_flushInitializer isOpen built
  have flushedOpen := (left_flushInitializer isOpen).1
  have flushedBuilt := flushed.built built
  rw [finish_open isOpen]
  apply changes_bind flushed
  intro _ e done
  rw [done] at flushedOpen flushedBuilt
  have assembled := changes_assembleMethods e
  have assembledOpen := (left_assembleMethods e).1.trans flushedOpen
  have assembledBuilt := assembled.built flushedBuilt
  apply changes_bind assembled
  intro _ f done
  rw [done] at assembledOpen assembledBuilt
  exact changes_addSourceAttribute assembledOpen assembledBuilt

theorem isOpen_of_finish {f : ClassDraft} (done : finish d = .ok () f) : d.finished = false := by
  by_contra closed
  have refused : finish d = .error (.finished d.this.text) d :=
    bind_of_error (checkOpen_finished (eq_true_of_ne_false closed)) _
  rw [refused] at done
  cases done

/-- A class that was finished has no code for an initializer left, and no body. -/
theorem flushed_of_finish {e : ClassDraft} (done : finish d = .ok () e) :
    e.initializer.isUnit = true ∧ ∀ m ∈ e.methods.toList, m.body = none := by
  have isOpen := isOpen_of_finish done
  rw [finish_open isOpen] at done
  obtain ⟨_, first, flushed, done⟩ := exists_of_bind done
  obtain ⟨_, second, assembled, done⟩ := exists_of_bind done
  have empty := (left_flushInitializer isOpen).2
  have same := (left_assembleMethods first).2
  have bare := bare_of_assembleMethods assembled
  rw [flushed] at empty
  rw [assembled] at same
  obtain ⟨a, q, _, rfl⟩ := addSourceAttribute_ok done
  exact ⟨same ▸ empty, bare⟩

theorem event?_attempts {o : Operation} (h : o.attempts) (d : ClassDraft) :
    o.event? d = if d.finished || d.initializer.isUnit then none
      else some (.flush d.initializer (isOk (flushInitializer d))) := by
  cases o with
  | finish | bytes | entry => rfl
  | _ => cases h

theorem event?_of_error {o : Operation} {e : Error} {f : ClassDraft} (edits : o.attempts = false)
    (refused : o.run d = .error e f) : o.event? d = none := by
  cases o with
  | finish | bytes | entry => cases edits
  | setSourceFile name => rfl
  | _ => simp [Operation.event?, refused, isOk]

theorem changes_addInterface (isOpen : d.finished = false) (built : d.pool.Built)
    (name : BinaryName) :
    Changes d (if isOk (addInterface name d) then some (Event.interface name) else none).toList
      (left (addInterface name d)) := by
  by_cases listed : name ∈ d.interfaces.toList.map Prod.fst
  · rw [addInterface_known isOpen listed]
    exact .single (.known listed)
  · rw [addInterface_new isOpen listed]
    apply changes_enter (Pool.Asks.request (.classRef _))
    intro i q done
    exact .interface listed (built.sound.class_of_ok done)

theorem changes_addField (isOpen : d.finished = false) (built : d.pool.Built) (flags : UInt16)
    (name : MemberName) (t : FieldType) :
    Changes d (if isOk (addField flags name t d) then some (Event.field flags name t)
      else none).toList (left (addField flags name t d)) := by
  rw [addField_open isOpen]
  apply changes_enter (Pool.asks_names _ _)
  intro given q done
  obtain ⟨first, second⟩ := built.names_of_ok done
  exact .field flags first second

/-- An operation is a chain of changes, which are told as its event. -/
theorem changes_run (built : d.pool.Built) (o : Operation) :
    Changes d (o.event? d).toList (left (o.run d)) := by
  cases edits : o.attempts with
  | true =>
    rw [event?_attempts edits, left_run_attempts edits]
    cases isOpen : d.finished with
    | true => exact .refl
    | false => exact changes_finish isOpen built
  | false =>
    cases isOpen : d.finished with
    | true =>
      have refused := run_finished isOpen edits
      rw [event?_of_error edits refused, refused]
      exact .refl
    | false =>
      cases o with
      | addInterface name => exact changes_addInterface isOpen built name
      | addField flags name t => exact changes_addField isOpen built flags name t
      | addMethod flags name s tree locals =>
        simp only [Operation.event?, Operation.run, addMethod_open isOpen]
        exact changes_pushMethod built ⟨flags, name, s, some _⟩
      | addAbstractMethod flags name s =>
        simp only [Operation.event?, Operation.run, addAbstractMethod_open isOpen]
        exact changes_pushMethod built ⟨flags ||| Flags.isAbstract, name, s, none⟩
      | addToInitializer tree =>
        simp only [Operation.event?, Operation.run, addToInitializer_open isOpen]
        exact .single (.code d tree)
      | setSourceFile name =>
        simp only [Operation.event?, Operation.run, setSourceFile_open isOpen]
        exact .single (.rename isOpen name)
      | finish | bytes | entry => cases edits

/-- A run is a chain of changes, which are told by its history. -/
theorem changes_after (built : d.pool.Built) (operations : List Operation) :
    Changes d (history d operations) (d.after operations) := by
  induction operations generalizing d with
  | nil => exact .refl
  | cons o rest ih =>
    have first := changes_run built o
    exact first.trans (ih (first.built built))

theorem built_after {config : Config} {this : BinaryName} {super : Option BinaryName}
    {interface : Bool} (begun : make config this super interface = .ok d)
    (operations : List Operation) : (d.after operations).pool.Built :=
  have built := (pool_of_make begun).1
  (changes_after built operations).built built

theorem built_of_finish {e : ClassDraft} (built : d.pool.Built) (done : finish d = .ok () e) :
    e.pool.Built := by
  have grown := (changes_finish (isOpen_of_finish done) built).built built
  rwa [done] at grown

end ClassDraft

end Bytecode
