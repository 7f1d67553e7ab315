import Bytecode.Proofs.Histories
import Bytecode.Proofs.References

/-! The indices of a class. Each was handed out by the pool for what it is used for, and a change only
ever adds to the pool. So an index keeps leading where it should, whatever is done to the class and
wherever that stops. -/
namespace Bytecode

def Member.Named (p : Pool) (m : Member) : Prop :=
  p.Serves .text m.name ∧ p.Serves .text m.descriptor

def Attribute.IsCode (p : Pool) (a : Attribute) : Prop :=
  p.text? a.name = some "Code" ∧ ∃ code : Code, a.info = code.encode ∧ code.Resolves p

def Attribute.IsSource (p : Pool) (a : Attribute) : Prop :=
  p.text? a.name = some "SourceFile" ∧ ∃ index, a.info = Octets.u16 index ∧ p.Serves .text index

structure Member.IsMethod (p : Pool) (m : Member) : Prop where
  named : m.Named p
  attributes : ∀ a ∈ m.attributes, a.IsCode p

structure ClassFile.Resolves (c : ClassFile) : Prop where
  constants : ∀ i k, c.pool.get? i = some k → c.pool.Supports k
  this : c.pool.Serves .classRef c.this
  super : c.pool.Serves .classRef c.super
  interfaces : ∀ i ∈ c.interfaces, c.pool.Serves .classRef i
  fields : ∀ f ∈ c.fields, f.Named c.pool ∧ f.attributes = []
  methods : ∀ m ∈ c.methods, m.IsMethod c.pool
  attributes : ∀ a ∈ c.attributes, a.IsSource c.pool

section

variable {p q : Pool} (kept : p.Retains q)

include kept

theorem Member.Named.mono {m : Member} (h : m.Named p) : m.Named q :=
  ⟨h.1.mono kept, h.2.mono kept⟩

theorem Attribute.IsCode.mono {a : Attribute} (h : a.IsCode p) : a.IsCode q := by
  obtain ⟨name, code, info, resolves⟩ := h
  exact ⟨kept.text? name, code, info, resolves.mono kept⟩

theorem Attribute.IsSource.mono {a : Attribute} (h : a.IsSource p) : a.IsSource q := by
  obtain ⟨name, index, info, serves⟩ := h
  exact ⟨kept.text? name, index, info, serves.mono kept⟩

theorem Member.IsMethod.mono {m : Member} (h : m.IsMethod p) : m.IsMethod q :=
  ⟨h.named.mono kept, fun a member => (h.attributes a member).mono kept⟩

end

theorem ClassFile.Resolves.withPool {c : ClassFile} {q : Pool} (h : c.Resolves)
    (kept : c.pool.Retains q) (sound : q.Sound) : ({ c with pool := q } : ClassFile).Resolves where
  constants _ _ := sound.supports
  this := h.this.mono kept
  super := h.super.mono kept
  interfaces i member := (h.interfaces i member).mono kept
  fields f member := ⟨(h.fields f member).1.mono kept, (h.fields f member).2⟩
  methods m member := (h.methods m member).mono kept
  attributes a member := (h.attributes a member).mono kept

namespace Pending

variable {config : Config} {this : BinaryName} {m m' : Pending} {pool pool' : Pool}

theorem isMethod_of_assemble (built : pool.Built) (h : m.member.IsMethod pool)
    (done : m.assemble config this pool = .ok m' pool') : m'.member.IsMethod pool' := by
  obtain ⟨_, whole⟩ := built.of_ok (m.asks_assemble config this) done
  cases present : m.body with
  | none =>
    simp only [assemble, present] at done
    cases done
    exact h
  | some body =>
    simp only [assemble, present] at done
    obtain ⟨code, mid, assembled, done⟩ := exists_of_bind done
    obtain ⟨a, last, named, done⟩ := exists_of_bind done
    cases done
    have begun := (built.of_ok (body.asks_assemble config this) assembled).1
    have kept := (begun.of_ok (Pool.asks_named _ _) named).2
    obtain ⟨name, info⟩ := begun.sound.named_of_ok named
    have resolves := (Body.resolves_of_assemble built.made assembled).mono kept
    refine ⟨h.named.mono whole, fun a' member => ?_⟩
    rcases List.mem_append.mp member with old | new
    · exact (h.attributes a' old).mono whole
    · rw [List.mem_singleton.mp new]
      exact ⟨name, code, info, resolves⟩

theorem exists_assemble {b : Body} {code : Code} {mid : Pool} (present : m.body = some b)
    (assembled : b.assemble config this pool = .ok code mid) (room : mid.entries.next + 1 ≤ 65535) :
    ∃ m' last, m.assemble config this pool = .ok m' last ∧
      last.entries.next ≤ mid.entries.next + 1 := by
  have name : Modified.length "Code" ≤ 65535 := by cbv
  obtain ⟨a, last, named, grown⟩ := Pool.exists_named name (p := mid) (by omega) code.encode
  have named : Pool.codeAttribute code mid = .ok a last := named
  simp only [assemble, present]
  rw [bind_of_ok assembled, bind_of_ok named]
  exact ⟨_, _, rfl, grown⟩

end Pending

namespace ClassDraft

structure Intact (d : ClassDraft) : Prop where
  built : d.pool.Built
  resolves : d.classFile.Resolves

variable {d : ClassDraft}

theorem Intact.withPool {q : Pool} (h : d.Intact) (built : q.Built) (kept : d.pool.Retains q) :
    ({ d with pool := q } : ClassDraft).Intact := ⟨built, h.resolves.withPool kept built.sound⟩

theorem forall_mem_push {α β : Type} {values : Array α} {x : α} {f : α → β} {P : β → Prop}
    (old : ∀ y ∈ values.toList.map f, P y) (new : P (f x)) :
    ∀ y ∈ (values.push x).toList.map f, P y := by
  rw [Array.toList_push, List.map_append, List.forall_mem_append]
  exact ⟨old, List.forall_mem_singleton.mpr new⟩

theorem Intact.addTo {x : Addition} {given : UInt16 × UInt16} (h : d.Intact)
    (first : d.pool.text? given.1 = some x.name.text)
    (second : d.pool.text? given.2 = some x.signature.descriptor) : (x.addTo given d).Intact :=
  have method : (x.pending given).member.IsMethod d.pool :=
    ⟨⟨Pool.serves_text first, Pool.serves_text second⟩, by simp [Addition.pending]⟩
  ⟨h.built, { h.resolves with methods := forall_mem_push h.resolves.methods method }⟩

theorem Intact.change {e : ClassDraft} {event : Option Event} (h : d.Intact)
    (c : Change d event e) : e.Intact := by
  cases c with
  | ask _ asks => exact h.withPool (h.built.left asks) (h.built.retains asks)
  | known listed => exact h
  | interface new found =>
    exact ⟨h.built, { h.resolves with
      interfaces := forall_mem_push h.resolves.interfaces (Pool.serves_class found) }⟩
  | field flags first second =>
    refine ⟨h.built, { h.resolves with fields := ?_ }⟩
    rw [classFile, Array.toList_push, List.forall_mem_append, List.forall_mem_singleton]
    exact ⟨h.resolves.fields, ⟨Pool.serves_text first, Pool.serves_text second⟩, rfl⟩
  | method first second => exact h.addTo first second
  | code _ tree => exact ⟨h.built, h.resolves⟩
  | rename isOpen name => exact ⟨h.built, h.resolves⟩
  | flush present first second =>
    exact Intact.addTo (d := { d with initializer := .unit }) ⟨h.built, h.resolves⟩ first second
  | lose present full named absent => exact ⟨h.built, h.resolves⟩
  | @lay _ before after m m' q here done =>
    obtain ⟨built, kept⟩ := h.built.of_ok (m.asks_assemble d.config d.this) done
    have methods := h.resolves.methods
    simp only [classFile, here, List.map_append, List.map_cons, List.forall_mem_append,
      List.forall_mem_cons] at methods
    obtain ⟨earlier, method, later⟩ := methods
    have laid := Pending.isMethod_of_assemble h.built method done
    refine ⟨built, { (h.withPool built kept).resolves with methods := ?_ }⟩
    simp only [classFile, List.map_append, List.map_cons, List.forall_mem_append,
      List.forall_mem_cons]
    exact ⟨fun x member => (earlier x member).mono kept, laid,
      fun x member => (later x member).mono kept⟩
  | close isOpen found source =>
    obtain ⟨index, info, text⟩ := source
    exact ⟨h.built, { h.resolves with
      attributes := List.forall_mem_append.mpr ⟨h.resolves.attributes,
        List.forall_mem_singleton.mpr ⟨found, index, info, Pool.serves_text text⟩⟩ }⟩

theorem intact_of_make {config : Config} {this : BinaryName} {super : Option BinaryName}
    {interface : Bool} (begun : make config this super interface = .ok d) : d.Intact := by
  obtain ⟨built, this, super⟩ := pool_of_make begun
  have fresh := fresh_of_make begun
  exact ⟨built, ⟨fun _ _ => built.sound.supports, Pool.serves_class this, Pool.serves_class super,
    by simp [classFile, fresh.interfaces], by simp [classFile, fresh.fields],
    by simp [classFile, fresh.methods], by simp [classFile, fresh.attributes]⟩⟩

/-- Whatever is done to an intact class, and whether it succeeds or not, an intact class is left. -/
theorem after_intact (h : d.Intact) (operations : List Operation) : (d.after operations).Intact :=
  (changes_after h.built operations).invariant (P := fun _ => Intact) [] h Intact.change

/-- After any operations, successful or not, a class that can be finished has no body left that is
not code, and every index in it leads to an entry of the kind that it is used for. -/
theorem resolves_of_finish (config : Config) (this : BinaryName) (super : Option BinaryName)
    (interface : Bool) (start d : ClassDraft) (operations : List Operation)
    (begun : make config this super interface = .ok start)
    (finished : finish (start.after operations) = .ok () d) :
    d.classFile.Resolves ∧ ∀ m ∈ d.methods, m.body = none := by
  have reached : start.after (operations ++ [.finish]) = d := by
    rw [after_append]
    exact congrArg left finished
  have intact := after_intact (intact_of_make begun) (operations ++ [.finish])
  rw [reached] at intact
  refine ⟨intact.resolves, fun m member => ?_⟩
  exact (flushed_of_finish finished).2 m (Array.mem_toList_iff.mpr member)

theorem exists_addSourceAttribute (short : Modified.length d.sourceFile ≤ 65535)
    (room : d.pool.entries.next + 2 ≤ 65535) : ∃ e, addSourceAttribute d = .ok () e := by
  have name : Modified.length "SourceFile" ≤ 65535 := by cbv
  obtain ⟨i, p, first, grown⟩ := Pool.exists_utf8 short (p := d.pool) (by omega)
  obtain ⟨a, q, second, _⟩ := Pool.exists_named name (p := p) (by omega) (Octets.u16 i)
  have first : onPool (Pool.utf8 d.sourceFile) d = .ok i { d with pool := p } := by
    simp only [onPool, first]
  have second : onPool (Pool.sourceFile i) { d with pool := p } = .ok a { d with pool := q } := by
    simp only [onPool, Pool.sourceFile, second]
  have got : (get : ClassM ClassDraft) d = .ok d d := rfl
  unfold addSourceAttribute
  rw [bind_of_ok got, bind_of_ok first, bind_of_ok second]
  exact ⟨_, rfl⟩

/-- Once all bodies are laid out, nothing but two names is asked for. -/
theorem exists_finish {methods : List Pending} {pool : Pool} (unfinished : d.finished = false)
    (flushed : d.initializer.isUnit)
    (assembled : Pending.assembleEach d.config d.this d.methods.toList d.pool =
      ((methods, none), pool))
    (short : Modified.length d.sourceFile ≤ 65535) (room : pool.entries.next + 2 ≤ 65535) :
    ∃ e, finish d = .ok () e := by
  have opened : checkOpen d = .ok () d := by simp [checkOpen, unfinished]
  have flushes : flushInitializer d = .ok () d := by
    have got : (get : ClassM ClassDraft) d = .ok d d := rfl
    unfold flushInitializer
    rw [bind_of_ok got, if_pos flushed]
    rfl
  have assembles : assembleMethods d =
      .ok () { d with pool := pool, methods := methods.toArray } := by
    simp only [assembleMethods, assembled]
  obtain ⟨e, last⟩ := exists_addSourceAttribute
    (d := { d with pool := pool, methods := methods.toArray }) short room
  refine ⟨e, ?_⟩
  unfold finish
  rw [bind_of_ok opened, bind_of_ok flushes, bind_of_ok assembles, last]

def risky : Tree := .build do
  let casting := .concat [.float 7, .simple .pop, .simple .aconstNull,
    .cast (.object ⟨"T", by decide⟩), .simple .pop]
  let guarded ← Tree.tryCatch casting (some ⟨"E", by decide⟩) (.simple .pop)
  return .concat [guarded, .simple .returnVoid]

def building : List Operation :=
  [.addInterface ⟨"I", by decide⟩, .addField 1 ⟨"f", by decide⟩ (.prim .int),
    .addMethod 9 ⟨"m", by decide⟩ .nullary risky 0]

theorem exists_building : ∃ start d,
    make {} ⟨"C", by decide⟩ (some ⟨"B", by decide⟩) false = .ok start ∧
    finish (start.after building) = .ok () d := by
  obtain ⟨start, before, m, b, layout, mid, simulation, map, framed, begun, same, listed, present,
    laidOut, simulated, written, small, unfinished, flushed, short⟩ :
    ∃ start before m b layout mid simulation map framed,
      make {} ⟨"C", by decide⟩ (some ⟨"B", by decide⟩) false = .ok start ∧
      start.after building = before ∧ before.methods.toList = [m] ∧ m.body = some b ∧
      b.layOut before.pool = .ok layout mid ∧ b.simulate before.this layout = .ok simulation ∧
      simulation.finish mid = .ok map framed ∧ framed.entries.next ≤ 65000 ∧
      before.finished = false ∧ before.initializer.isUnit ∧
      Modified.length before.sourceFile ≤ 65535 :=
    ⟨_, _, _, _, _, _, _, _, _, by cbv, by cbv, by cbv, by cbv, by cbv, by cbv, by cbv, by cbv,
      by cbv, by cbv, by cbv⟩
  obtain ⟨code, later, assembled, grown⟩ :=
    Body.exists_assemble_le before.config laidOut simulated written (by omega)
  obtain ⟨m', last, first, grown'⟩ := Pending.exists_assemble present assembled (by omega)
  have each : Pending.assembleEach before.config before.this before.methods.toList before.pool =
      (([m'], none), last) := by simp only [listed, Pending.assembleEach, first]
  obtain ⟨d, finished⟩ := exists_finish unfinished flushed each short (by omega)
  exact ⟨start, d, begun, same ▸ finished⟩

theorem resolves_of_finish_building : ∃ start d,
    make {} ⟨"C", by decide⟩ (some ⟨"B", by decide⟩) false = .ok start ∧
    finish (start.after building) = .ok () d ∧
    d.classFile.Resolves ∧ ∀ m ∈ d.methods, m.body = none := by
  obtain ⟨start, d, begun, finished⟩ := exists_building
  exact ⟨start, d, begun, finished,
    resolves_of_finish _ _ _ _ start d building begun finished⟩

end ClassDraft

end Bytecode
