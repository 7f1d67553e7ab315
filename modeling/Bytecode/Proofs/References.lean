import Bytecode.Proofs.Asking
import Bytecode.Proofs.Casts

/-! Where the indices in assembled code lead. Every index is used in a way that asks for an entry of
some kind, and each of them was handed out for an entry of that kind: those of instructions as they
were written, casts that were left out apart, those of handlers, and those of classes in frames. -/
namespace Bytecode

inductive Use where
  | text
  | classRef
  | narrow
  | wide
  | field
  | method
  | interfaceMethod
deriving DecidableEq

def Use.admits : Use → Item → Bool
  | text, .utf8 _ => true
  | classRef, .classRef _ => true
  | narrow, .integer _ => true
  | narrow, .float _ => true
  | narrow, .string _ => true
  | narrow, .classRef _ => true
  | wide, .long _ => true
  | wide, .double _ => true
  | field, .fieldRef _ _ _ => true
  | method, .methodRef _ _ _ => true
  | interfaceMethod, .interfaceMethodRef _ _ _ => true
  | _, _ => false

namespace Pool

variable {p q : Pool} {i : UInt16} {use : Use}

/-- The index leads to an entry that will do, and so do the indices in that entry. -/
def Serves (p : Pool) (use : Use) (index : UInt16) : Prop :=
  ∃ x, p.item? index = some x ∧ use.admits x

theorem Serves.mono (h : p.Serves use i) (kept : p.Retains q) : q.Serves use i := by
  obtain ⟨x, found, admits⟩ := h
  exact ⟨x, kept.item? found, admits⟩

theorem serves_of_get? {c : Constant} {x : Item} (found : p.get? i = some c)
    (stands : p.read c = some x) (admits : use.admits x) : p.Serves use i :=
  ⟨x, Option.bind_eq_some_iff.mpr ⟨c, found, stands⟩, admits⟩

theorem serves_text {text : String} (h : p.text? i = some text) : p.Serves .text i :=
  serves_of_get? (text?_eq_some.mp h) rfl rfl

theorem serves_class {name : String} (h : p.class? i = some name) : p.Serves .classRef i := by
  obtain ⟨k, found, text⟩ := class?_eq_some.mp h
  exact serves_of_get? (x := .classRef name) found (by simp [read, text]) rfl

theorem serves_field {m : String × String × String} (h : p.field? i = some m) :
    p.Serves .field i := by
  unfold field? at h
  split at h
  · rename_i found
    exact serves_of_get? found (by simp only [read, h, Option.map_some]; rfl) rfl
  · cases h

theorem serves_method {m : String × String × String} (h : p.method? i = some m) :
    p.Serves .method i := by
  unfold method? at h
  split at h
  · rename_i found
    exact serves_of_get? found (by simp only [read, h, Option.map_some]; rfl) rfl
  · cases h

theorem serves_interfaceMethod {m : String × String × String} (h : p.interfaceMethod? i = some m) :
    p.Serves .interfaceMethod i := by
  unfold interfaceMethod? at h
  split at h
  · rename_i found
    exact serves_of_get? found (by simp only [read, h, Option.map_some]; rfl) rfl
  · cases h

theorem serves_loadable {c : Loadable} (h : p.Holds i c) :
    p.Serves (if c.isWide then .wide else .narrow) i := by
  cases c with
  | string text =>
    change p.string? i = some text at h
    unfold string? at h
    split at h
    · rename_i found
      exact serves_of_get? found (by simp only [read, h, Option.map_some]; rfl) rfl
    · cases h
  | classRef r =>
    obtain ⟨k, found, text⟩ := class?_eq_some.mp h
    exact serves_of_get? (x := .classRef r.className) found (by simp [read, text]) rfl
  | _ => exact serves_of_get? h rfl rfl

end Pool

def Insn.uses : Insn → List (Use × UInt16)
  | push wide index => [(if wide then .wide else .narrow, index)]
  | field _ index => [(.field, index)]
  | invoke _ index => [(.method, index)]
  | invokeInterface index _ => [(.interfaceMethod, index)]
  | new index | newObjects index | cast index | instanceOf index => [(.classRef, index)]
  | simple _ | var _ _ | newArray _ | jump _ _ => []

def VType.uses : VType UInt16 → List (Use × UInt16)
  | object index => [(.classRef, index)]
  | _ => []

namespace Pool

def ServesAll (p : Pool) (uses : List (Use × UInt16)) : Prop := ∀ r ∈ uses, p.Serves r.1 r.2

variable {p q : Pool}

theorem ServesAll.mono {uses : List (Use × UInt16)} (h : p.ServesAll uses) (kept : p.Retains q) :
    q.ServesAll uses := fun r member => (h r member).mono kept

theorem servesAll_one {use : Use} {i : UInt16} (h : p.Serves use i) : p.ServesAll [(use, i)] := by
  intro r member
  rw [List.mem_singleton.mp member]
  exact h

end Pool

theorem Insn.Denotes.serves {p : Pool} {i : Insn} {l : Leaf} (h : i.Denotes p l) :
    p.ServesAll i.uses := by
  cases i <;> cases l <;> try exact h.elim
  case push.push =>
    obtain ⟨rfl, holds⟩ := h
    exact Pool.servesAll_one (Pool.serves_loadable holds)
  case field.field => exact Pool.servesAll_one (Pool.serves_field h.2)
  case invoke.invoke => exact Pool.servesAll_one (Pool.serves_method h.2.2)
  case invokeInterface.invoke kind _ _ _ =>
    cases kind <;> try exact h.elim
    exact Pool.servesAll_one (Pool.serves_interfaceMethod h.1)
  case new.new | newObjects.newObjects | cast.cast | instanceOf.instanceOf =>
    exact Pool.servesAll_one (Pool.serves_class h)
  all_goals exact fun r member => by cases member

inductive Spells (P : Insn → Prop) : Octets → Prop where
  | nil : Spells P []
  | cons {bytes rest : Octets} {i : Insn} :
    (∀ later, Insn.read (bytes ++ later) = some (i, later)) → P i → Spells P rest →
      Spells P (bytes ++ rest)

namespace Spells

variable {P : Insn → Prop} {bytes rest : Octets} {i : Insn}

theorem one (seen : ∀ later, Insn.read (bytes ++ later) = some (i, later)) (holds : P i) :
    Spells P bytes := by
  have whole := cons seen holds .nil
  rwa [List.append_nil] at whole

theorem append (first : Spells P bytes) (second : Spells P rest) : Spells P (bytes ++ rest) := by
  induction first with
  | nil => exact second
  | cons seen holds _ ih =>
    rw [List.append_assoc]
    exact .cons seen holds ih

theorem exists_decode (h : Spells P bytes) (position : Nat) :
    ∃ insns, decode position bytes = some insns ∧ ∀ x ∈ insns, P x.2 := by
  induction h generalizing position with
  | nil => exact ⟨[], decode_nil position, by simp⟩
  | @cons bytes _ i seen holds _ ih =>
    obtain ⟨insns, done, each⟩ := ih (position + bytes.length)
    refine ⟨(position, i) :: insns, ?_, ?_⟩
    · rw [decode_append position (seen _) (ne_nil_of_read seen), done]
      rfl
    · exact List.forall_mem_cons.mpr ⟨holds, each⟩

theorem nops (holds : P (.simple .nop)) : Spells P (List.replicate 3 Opcode.nop) := by
  have seen : ∀ later, Insn.read ([Opcode.nop] ++ later) = some (.simple .nop, later) :=
    fun _ => by rfl
  exact .cons seen holds (.cons seen holds (one seen holds))

end Spells

/-- Bytes from a position on, where the three at each of some places have become nops. -/
def blanked (gone : List Nat) (position : Nat) (bytes : Octets) : Octets :=
  bytes.mapIdx fun k b =>
    if ∃ p ∈ gone, p ≤ position + k ∧ position + k < p + 3 then Opcode.nop else b

section

variable {gone : List Nat} {position : Nat}

theorem blanked_append (xs ys : Octets) :
    blanked gone position (xs ++ ys) =
      blanked gone position xs ++ blanked gone (position + xs.length) ys := by
  simp only [blanked, List.mapIdx_append, Nat.add_assoc, Nat.add_comm xs.length]

theorem blanked_of_apart {bytes : Octets}
    (apart : ∀ p ∈ gone, p + 3 ≤ position ∨ position + bytes.length ≤ p) :
    blanked gone position bytes = bytes := by
  apply List.ext_getElem?
  intro k
  rw [blanked, List.getElem?_mapIdx]
  cases here : bytes[k]? with
  | none => rfl
  | some b =>
    have inside := (List.getElem?_eq_some_iff.mp here).1
    rw [Option.map_some, if_neg]
    rintro ⟨p, member, low, high⟩
    have := apart p member
    omega

theorem blanked_of_mem {bytes : Octets} (here : position ∈ gone) (three : bytes.length = 3) :
    blanked gone position bytes = List.replicate 3 Opcode.nop := by
  refine List.eq_replicate_iff.mpr ⟨by rw [blanked, List.length_mapIdx, three], ?_⟩
  intro b member
  obtain ⟨k, inside, rfl⟩ := List.mem_mapIdx.mp member
  exact if_pos ⟨position, here, by omega, by omega⟩

theorem le_of_timeline {pool : Pool} {steps : List Step} {n : Nat} {step : Step}
    (h : (n, step) ∈ timeline pool position steps) : position ≤ n := by
  obtain ⟨before, _, _, rfl⟩ := split_of_timeline h
  exact le_reach pool position before

end

theorem leaf_mem_of_sight {line : List (Nat × Step)} {o : Outcome} {l : Leaf} {n : Nat}
    (h : .insn o l n ∈ sightsOf line) : (n, .leaf o l) ∈ line := by
  obtain ⟨⟨m, step⟩, member, seen⟩ := List.mem_flatMap.mp h
  cases step <;> simp [Step.sights] at seen
  obtain ⟨rfl, rfl, rfl⟩ := seen
  exact member

section

variable {pool : Pool} {labels : Labels} (hp : pool.Coherent)

include hp in
theorem Step.spells_octets {step : Step} (ready : step.Ready pool) :
    Spells (fun i => pool.ServesAll i.uses) (step.octets pool labels) := by
  cases step with
  | leaf o l =>
    obtain ⟨i, seen, denotes⟩ := Leaf.read_encode hp ready
    exact .one seen denotes.serves
  | jump test source target => exact .one (Insn.read_jump test _) fun r member => by cases member
  | _ => exact .nil

include hp in
/-- Steps write instructions whose indices lead where they should, whichever casts are left out. -/
theorem spells_blanked {steps : List Step} {gone : List Nat} {position : Nat}
    (ready : ∀ step ∈ steps, step.Ready pool)
    (casts : ∀ p ∈ gone, p + 3 ≤ position ∨
      ∃ o r, (p, .leaf o (.cast r)) ∈ timeline pool position steps) :
    Spells (fun i => pool.ServesAll i.uses)
      (blanked gone position (steps.flatMap (Step.octets pool labels))) := by
  induction steps generalizing position with
  | nil => exact .nil
  | cons step rest ih =>
    have here := ready step (by simp)
    rw [List.flatMap_cons, blanked_append, Step.length_octets]
    have later : ∀ p ∈ gone, p + 3 ≤ position ∨ (p = position ∧ ∃ o r, step = .leaf o (.cast r)) ∨
        ∃ o r, (p, .leaf o (.cast r)) ∈ timeline pool (position + step.size pool) rest := by
      intro p member
      rcases casts p member with before | ⟨o, r, found⟩
      · exact .inl before
      · rcases List.mem_cons.mp found with same | tail
        · cases same
          exact .inr (.inl ⟨rfl, o, r, rfl⟩)
        · exact .inr (.inr ⟨o, r, tail⟩)
    refine .append ?_ (ih (fun x member => ready x (by simp [member])) ?_)
    · by_cases cast : position ∈ gone ∧ ∃ o r, step = .leaf o (.cast r)
      · obtain ⟨member, o, r, rfl⟩ := cast
        rw [Step.octets, blanked_of_mem member (Leaf.length_octets_cast here)]
        exact .nops fun r member => by cases member
      · rw [blanked_of_apart]
        · exact step.spells_octets hp here
        · intro p member
          rcases later p member with before | ⟨rfl, this⟩ | ⟨o, r, tail⟩
          · exact .inl before
          · exact absurd ⟨member, this⟩ cast
          · rw [Step.length_octets]
            exact .inr (le_of_timeline tail)
    · intro p member
      rcases later p member with before | ⟨rfl, o, r, rfl⟩ | tail
      · exact .inl (by omega)
      · have := Leaf.length_octets_cast here
        exact .inl (by simp only [Step.size]; omega)
      · exact .inr tail

end

theorem VType.serves_of_resolve {p q r : Pool} {values : List Held} {wire : List (VType UInt16)}
    (hr : r.Coherent) (h : values.mapM resolve p = .ok wire q) (grown : q.Extends r) :
    ∀ v ∈ wire, r.ServesAll v.uses := by
  induction values generalizing wire p with
  | nil =>
    cases h
    simp
  | cons v rest ih =>
    rw [List.mapM_cons] at h
    obtain ⟨w, mid, first, h⟩ := exists_of_bind h
    obtain ⟨others, last, second, done⟩ := exists_of_bind h
    cases done
    have kept := ((Pool.Asks.mapM asks_resolve rest).interns.grows_ok second).extends.trans grown
    refine List.forall_mem_cons.mpr ⟨?_, ih second⟩
    cases v with
    | object c =>
      obtain ⟨index, asked, done⟩ :=
        (Pool.interns_ask (.classRef c)).parts (fun _ => .pure _) first kept
      cases done
      exact Pool.servesAll_one (Pool.serves_class (Pool.class?_of_classRef hr asked))
    | _ =>
      cases first
      exact fun r member => by cases member

theorem Frame.serves_of_full {f : Frame} {wire : List (VType UInt16) × List (VType UInt16)}
    {p : Pool} (hp : p.Coherent) (h : f.full p = .ok wire p) :
    ∀ v ∈ wire.1 ++ wire.2, p.ServesAll v.uses := by
  obtain ⟨locals, mid, first, h⟩ := exists_of_bind h
  obtain ⟨stack, last, second, done⟩ := exists_of_bind h
  cases done
  have grown := ((Pool.Asks.mapM VType.asks_resolve _).interns.grows_ok second).extends
  rw [List.forall_mem_append]
  refine ⟨fun v member => ?_, VType.serves_of_resolve hp second (.refl p)⟩
  have kept : v ∈ locals := by
    have shorter := (List.dropWhile_sublist (· = VType.top) (l := locals.reverse)).subset
    exact List.mem_reverse.mp (shorter (List.mem_reverse.mp member))
  exact VType.serves_of_resolve hp first grown v kept

structure Code.Resolves (p : Pool) (c : Code) : Prop where
  insns : ∃ insns, decode 0 c.code = some insns ∧ ∀ x ∈ insns, p.ServesAll x.2.uses
  handlers : ∀ h ∈ c.handlers, ∀ i, h.caught = some i → p.Serves .classRef i
  attributes : ∃ map lines frames, c.attributes = [map, lines] ∧
    p.text? map.name = some "StackMapTable" ∧ p.text? lines.name = some "LineNumberTable" ∧
    map.info = Octets.counted MapFrame.encode frames ∧
    ∀ f ∈ frames, ∀ v ∈ f.locals ++ f.stack, p.ServesAll v.uses

theorem Code.Resolves.mono {p q : Pool} {c : Code} (h : c.Resolves p) (kept : p.Retains q) :
    c.Resolves q := by
  obtain ⟨⟨insns, decoded, each⟩, handlers, map, lines, frames, whole, first, second, info,
    types⟩ := h
  refine ⟨⟨insns, decoded, fun x member => (each x member).mono kept⟩, ?_, ?_⟩
  · exact fun h member i caught => (handlers h member i caught).mono kept
  · exact ⟨map, lines, frames, whole, kept.text? first, kept.text? second, info,
      fun f member v inside => (types f member v inside).mono kept⟩

namespace Body

variable {config : Config} {this : BinaryName} {b : Body} {pool mid final : Pool} {code : Code}
  {layout : Layout}

theorem insns_of_assemble (made : pool.Made)
    (accepted : b.assemble config this pool = .ok code final)
    (laidOut : b.layOut pool = .ok layout mid) :
    ∃ insns, decode 0 code.code = some insns ∧ ∀ x ∈ insns, final.ServesAll x.2.uses := by
  obtain ⟨laid, whole, _⟩ := laid_of_assemble made accepted laidOut
  obtain ⟨simulation, map, ⟨simulated, _, _⟩, track, _⟩ := of_assemble made accepted laidOut
  have bytes := getElem?_code made accepted laidOut simulated
  obtain ⟨gone, mem_gone⟩ : ∃ gone : List Nat, ∀ p, p ∈ gone ↔
      config.elide ∧ p ∈ simulation.redundant := by
    refine ⟨if config.elide then simulation.redundant else [], fun p => ?_⟩
    split <;> simp [*]
  have seen : ∀ p ∈ gone, ∃ o r, .insn o (.cast r) p ∈ layout.sights.toList := by
    intro p member
    obtain ⟨o, r, _, here, _⟩ := (track.mem_redundant simulated).mp ((mem_gone p).mp member).2
    exact ⟨o, r, here⟩
  have same : code.code = blanked gone 0 layout.code.toList := by
    have covered : ∀ k, (config.elide ∧ ∃ p ∈ simulation.redundant, p ≤ k ∧ k < p + 3) ↔
        ∃ p ∈ gone, p ≤ 0 + k ∧ 0 + k < p + 3 := by
      intro k
      simp only [mem_gone, Nat.zero_add, and_assoc, exists_and_left]
    apply List.ext_getElem?
    intro k
    simp only [bytes, blanked, List.getElem?_mapIdx, Array.getElem?_toList, covered]
    split
    · rename_i hidden
      obtain ⟨p, member, _, high⟩ := hidden
      obtain ⟨o, r, here⟩ := seen p member
      have room := laid.cast_room here
      rw [Array.getElem?_eq_getElem (by omega), Option.map_some]
    · rw [Option.map_id']
  have casts : ∀ p ∈ gone, p + 3 ≤ 0 ∨
      ∃ o r, (p, .leaf o (.cast r)) ∈ timeline final 0 (b.tree.steps none) := by
    intro p member
    obtain ⟨o, r, here⟩ := seen p member
    rw [laid.sights] at here
    exact .inr ⟨o, r, leaf_mem_of_sight here⟩
  rw [same, laid.code]
  exact (spells_blanked whole.coherent laid.ready casts).exists_decode 0

theorem caught_of_assemble (made : pool.Made)
    (accepted : b.assemble config this pool = .ok code final)
    (laidOut : b.layOut pool = .ok layout mid) :
    ∀ h ∈ code.handlers, ∀ i, h.caught = some i → final.Serves .classRef i := by
  obtain ⟨laid, whole, _⟩ := laid_of_assemble made accepted laidOut
  obtain ⟨_, _, assembled, _, _⟩ := of_assemble made accepted laidOut
  rw [assembled.handlers]
  intro h member i caught
  obtain ⟨g, name, enters, rfl⟩ := laid.exists_enter member
  obtain ⟨name, rfl, rfl⟩ := Option.map_eq_some_iff.mp caught
  exact Pool.serves_class (Pool.class?_of_classRef whole.coherent (laid.ready _ enters))

def LinesWritten (pool : Pool) (code : Code) (table : List LineEntry) : Prop :=
  ∃ frames name, pool.text? name = some "LineNumberTable" ∧
    code.attributes = [frames, ⟨name, Octets.counted LineEntry.encode table⟩]

theorem lines_of_assemble (made : final.Made)
    (accepted : b.assemble config this pool = .ok code final)
    (laidOut : b.layOut pool = .ok layout mid) :
    LinesWritten final code (Lines.table layout.sights.toList layout.code.size) := by
  have length := length_of_assemble accepted laidOut
  obtain ⟨layout', mid', first, accepted⟩ := exists_of_bind accepted
  rw [laidOut] at first
  cases first
  cases simulated : b.simulate this layout with
  | error e =>
    simp only [simulated] at accepted
    cases accepted
  | ok simulation =>
    simp only [simulated] at accepted
    obtain ⟨map, later, _, accepted⟩ := exists_of_bind accepted
    obtain ⟨frames, third, _, accepted⟩ := exists_of_bind accepted
    obtain ⟨lines, fourth, lined, accepted⟩ := exists_of_bind accepted
    cases accepted
    rw [Array.length_toList] at length
    rw [length] at lined
    obtain ⟨name, asked, done⟩ :=
      (Pool.interns_ask (.utf8 "LineNumberTable")).parts (fun _ => .pure _) lined (.refl final)
    cases done
    exact ⟨frames, name, Pool.text?_of_utf8 made.coherent asked, rfl⟩

/-- Every index in the code of a body leads where it should, in the pool in the end. -/
theorem resolves_of_assemble (made : pool.Made)
    (accepted : b.assemble config this pool = .ok code final) : code.Resolves final := by
  obtain ⟨layout, mid, laidOut, _⟩ := exists_of_bind accepted
  obtain ⟨_, whole, _⟩ := laid_of_assemble made accepted laidOut
  obtain ⟨simulation, map, ⟨_, _, name, lines, first, attributes⟩, _, written⟩ :=
    of_assemble made accepted laidOut
  obtain ⟨_, _, second, attributes'⟩ := lines_of_assemble whole accepted laidOut
  rw [attributes] at attributes'
  cases attributes'
  refine ⟨insns_of_assemble made accepted laidOut, caught_of_assemble made accepted laidOut, ?_⟩
  refine ⟨_, _, map.frames, attributes, first, second, rfl, fun f member => ?_⟩
  obtain ⟨p, here⟩ := MapFrame.exists_place none member
  obtain ⟨_, j, _, wire⟩ := written.frame p f here
  exact Frame.serves_of_full whole.coherent wire

end Body

end Bytecode
