import Bytecode.Proofs.Agreement
import Bytecode.Proofs.Decoder

/-! Emitted code decodes to its tree. Operands are followed through the entries of the pool, as
a reader of the class file would, and jumps are followed by their offsets. -/
namespace Bytecode

namespace Pool

def text? (p : Pool) (index : UInt16) : Option String :=
  match p.get? index with
  | some (.utf8 text) => some text
  | _ => none

def class? (p : Pool) (index : UInt16) : Option String :=
  match p.get? index with
  | some (.classRef name) => p.text? name
  | _ => none

def string? (p : Pool) (index : UInt16) : Option String :=
  match p.get? index with
  | some (.string text) => p.text? text
  | _ => none

def nameAndType? (p : Pool) (index : UInt16) : Option (String × String) :=
  match p.get? index with
  | some (.nameAndType name descriptor) => return (← p.text? name, ← p.text? descriptor)
  | _ => none

def member? (p : Pool) (owner member : UInt16) : Option (String × String × String) :=
  return (← p.class? owner, ← p.nameAndType? member)

def field? (p : Pool) (index : UInt16) : Option (String × String × String) :=
  match p.get? index with
  | some (.fieldRef owner member) => p.member? owner member
  | _ => none

def method? (p : Pool) (index : UInt16) : Option (String × String × String) :=
  match p.get? index with
  | some (.methodRef owner member) => p.member? owner member
  | _ => none

def interfaceMethod? (p : Pool) (index : UInt16) : Option (String × String × String) :=
  match p.get? index with
  | some (.interfaceMethodRef owner member) => p.member? owner member
  | _ => none

def Holds (p : Pool) (index : UInt16) : Loadable → Prop
  | .integer value => p.get? index = some (.integer value)
  | .float bits => p.get? index = some (.float bits)
  | .long value => p.get? index = some (.long value)
  | .double bits => p.get? index = some (.double bits)
  | .string text => p.string? index = some text
  | .classRef r => p.class? index = some r.className

variable {p : Pool} {index : UInt16}

theorem get?_of_intern (hp : p.Coherent) {c : Constant} (asked : intern c p = .ok index p) :
    p.get? index = some c :=
  hp.found.mp (intern_found asked)

theorem text?_of_utf8 (hp : p.Coherent) {text : String} (asked : utf8 text p = .ok index p) :
    p.text? index = some text := by
  unfold utf8 at asked
  split at asked
  · cases asked
  · rw [text?, get?_of_intern hp asked]

theorem string?_of_string (hp : p.Coherent) {text : String} (asked : string text p = .ok index p) :
    p.string? index = some text := by
  obtain ⟨i, first, last⟩ :=
    (interns_ask (.utf8 text)).parts (fun _ => interns_intern _) asked (.refl p)
  rw [string?, get?_of_intern hp last]
  exact text?_of_utf8 hp first

theorem class?_of_classRef (hp : p.Coherent) {r : RefType} (asked : classRef r p = .ok index p) :
    p.class? index = some r.className := by
  obtain ⟨i, first, last⟩ :=
    (interns_ask (.utf8 r.className)).parts (fun _ => interns_intern _) asked (.refl p)
  rw [class?, get?_of_intern hp last]
  exact text?_of_utf8 hp first

theorem nameAndType?_of_nameAndType (hp : p.Coherent) {name descriptor : String}
    (asked : nameAndType name descriptor p = .ok index p) :
    p.nameAndType? index = some (name, descriptor) := by
  obtain ⟨i, first, asked⟩ := (interns_ask (.utf8 name)).parts
    (fun _ => (interns_ask (.utf8 descriptor)).bind fun _ => interns_intern _) asked (.refl p)
  obtain ⟨j, second, last⟩ :=
    (interns_ask (.utf8 descriptor)).parts (fun _ => interns_intern _) asked (.refl p)
  rw [nameAndType?, get?_of_intern hp last]
  simp [text?_of_utf8 hp first, text?_of_utf8 hp second]

/-- References to members of all three kinds are asked for in the same way. -/
theorem member?_of_asked (hp : p.Coherent) {r : RefType} {name descriptor : String}
    {make : UInt16 → UInt16 → Constant}
    (asked : (do
      let owner ← classRef r
      let member ← nameAndType name descriptor
      intern (make owner member) : PoolM UInt16) p = .ok index p) :
    ∃ owner member, p.get? index = some (make owner member) ∧
      p.member? owner member = some (r.className, name, descriptor) := by
  obtain ⟨owner, first, asked⟩ := (interns_ask (.classRef r)).parts
    (fun _ => (interns_ask (.nameAndType name descriptor)).bind fun _ => interns_intern _) asked
    (.refl p)
  obtain ⟨member, second, last⟩ :=
    (interns_ask (.nameAndType name descriptor)).parts (fun _ => interns_intern _) asked (.refl p)
  refine ⟨owner, member, get?_of_intern hp last, ?_⟩
  simp [member?, class?_of_classRef hp first, nameAndType?_of_nameAndType hp second]

theorem field?_of_fieldRef (hp : p.Coherent) {owner : BinaryName} {name : String} {t : FieldType}
    (asked : fieldRef owner name t p = .ok index p) :
    p.field? index = some (owner.text, name, t.descriptor) := by
  obtain ⟨_, _, found, member⟩ := member?_of_asked hp asked
  rw [field?, found]
  exact member

theorem method?_of_methodRef (hp : p.Coherent) {owner : RefType} {name : String} {s : Signature}
    (asked : methodRef owner name s p = .ok index p) :
    p.method? index = some (owner.className, name, s.descriptor) := by
  obtain ⟨_, _, found, member⟩ := member?_of_asked hp asked
  rw [method?, found]
  exact member

theorem interfaceMethod?_of_interfaceMethodRef (hp : p.Coherent) {owner : BinaryName}
    {name : String} {s : Signature} (asked : interfaceMethodRef owner name s p = .ok index p) :
    p.interfaceMethod? index = some (owner.text, name, s.descriptor) := by
  obtain ⟨_, _, found, member⟩ := member?_of_asked hp asked
  rw [interfaceMethod?, found]
  exact member

theorem holds_of_loadable (hp : p.Coherent) {c : Loadable} (asked : loadable c p = .ok index p) :
    p.Holds index c := by
  cases c with
  | string text => exact string?_of_string hp asked
  | classRef r => exact class?_of_classRef hp asked
  | _ => exact get?_of_intern hp asked

end Pool

def Insn.Denotes (pool : Pool) : Insn → Leaf → Prop
  | simple i, .simple j => i = j
  | push wide index, .push c => wide = c.isWide ∧ pool.Holds index c
  | var op index, .var op' index' => op = op' ∧ index = index'
  | field op index, .field op' owner name t =>
    op = op' ∧ pool.field? index = some (owner.text, name.text, t.descriptor)
  | invoke kind index, .invoke kind' owner name s =>
    kind = kind' ∧ kind ≠ .interface ∧
      pool.method? index = some (owner.className, name.text, s.descriptor)
  | invokeInterface index count, .invoke .interface owner name s =>
    pool.interfaceMethod? index = some (owner.className, name.text, s.descriptor) ∧
      count.toNat = 1 + slots s.parameters
  | new index, .new name => pool.class? index = some name.text
  | newArray p, .newArray q => p = q
  | newObjects index, .newObjects r => pool.class? index = some r.className
  | cast index, .cast r => pool.class? index = some r.className
  | instanceOf index, .instanceOf r => pool.class? index = some r.className
  | _, _ => False

section

variable {pool : Pool} (hp : pool.Coherent)

/-- An interface call that was written has no array for owner and at most 255 argument slots. -/
theorem Leaf.encode_interface {owner : RefType} {name : MemberName} {s : Signature} {bytes : Octets}
    (h : (Leaf.invoke .interface owner name s).encode pool = .ok bytes pool) :
    s.parameterSlots true ≤ 255 ∧ ∃ c index, owner = .object c ∧
      Pool.interfaceMethodRef c name.text s pool = .ok index pool ∧
      bytes = interfaceOctets index (s.parameterSlots true).toUInt8 := by
  unfold Leaf.encode at h
  dsimp only at h
  split at h
  · cases h
  · rename_i few
    cases owner with
    | object c =>
      obtain ⟨index, asked, done⟩ := (Pool.interns_ask (.interfaceMethodRef c name.text s)).parts
        (fun _ => .pure _) h (.refl pool)
      cases done
      exact ⟨by omega, c, index, rfl, asked, rfl⟩
    | _ => cases h

include hp in
theorem Leaf.read_encode {l : Leaf} {bytes : Octets} (h : l.encode pool = .ok bytes pool) :
    ∃ i, (∀ rest, Insn.read (bytes ++ rest) = some (i, rest)) ∧ i.Denotes pool l := by
  cases l with
  | simple i =>
    cases h
    exact ⟨.simple i, fun rest => by simp [Insn.read, Form.find_simple], rfl⟩
  | push c =>
    obtain ⟨index, asked, done⟩ :=
      (Pool.interns_ask (.loadable c)).parts (fun _ => .pure _) h (.refl pool)
    cases done
    exact ⟨_, Insn.read_pushOctets index c.isWide, rfl, Pool.holds_of_loadable hp asked⟩
  | var op index =>
    cases h
    exact ⟨_, Insn.read_varOctets op index, rfl, rfl⟩
  | field op owner name t =>
    obtain ⟨index, asked, done⟩ :=
      (Pool.interns_ask (.fieldRef owner name.text t)).parts (fun _ => .pure _) h (.refl pool)
    cases done
    exact ⟨_, Insn.read_pair (Form.find_field op) index, rfl, Pool.field?_of_fieldRef hp asked⟩
  | invoke kind owner name s =>
    by_cases interface : kind = .interface
    · subst interface
      obtain ⟨few, c, index, rfl, asked, rfl⟩ := Leaf.encode_interface h
      refine ⟨_, Insn.read_interfaceOctets index _,
        Pool.interfaceMethod?_of_interfaceMethodRef hp asked, ?_⟩
      simp only [Signature.parameterSlots, if_true] at few ⊢
      simp only [Nat.toUInt8, UInt8.toNat_ofNat']
      omega
    · have plain : (do
          let index ← Pool.methodRef owner name.text s
          return indexed kind.opcode index : PoolM Octets) pool = .ok bytes pool := by
        cases kind with
        | interface => exact absurd rfl interface
        | _ => exact h
      obtain ⟨index, asked, done⟩ :=
        (Pool.interns_ask (.methodRef owner name.text s)).parts (fun _ => .pure _) plain (.refl pool)
      cases done
      exact ⟨_, Insn.read_pair (Form.find_invoke interface) index, rfl, interface,
        Pool.method?_of_methodRef hp asked⟩
  | new name =>
    obtain ⟨index, asked, done⟩ :=
      (Pool.interns_ask (.classRef (.object name))).parts (fun _ => .pure _) h (.refl pool)
    cases done
    exact ⟨.new index, Insn.read_pair (by rfl) index, Pool.class?_of_classRef hp asked⟩
  | newArray p =>
    cases h
    exact ⟨_, Insn.read_newArray p, rfl⟩
  | newObjects r =>
    obtain ⟨index, asked, done⟩ :=
      (Pool.interns_ask (.classRef r)).parts (fun _ => .pure _) h (.refl pool)
    cases done
    exact ⟨.newObjects index, Insn.read_pair (by rfl) index, Pool.class?_of_classRef hp asked⟩
  | cast r =>
    obtain ⟨index, asked, done⟩ :=
      (Pool.interns_ask (.classRef r)).parts (fun _ => .pure _) h (.refl pool)
    cases done
    exact ⟨.cast index, Insn.read_pair (by rfl) index, Pool.class?_of_classRef hp asked⟩
  | instanceOf r =>
    obtain ⟨index, asked, done⟩ :=
      (Pool.interns_ask (.classRef r)).parts (fun _ => .pure _) h (.refl pool)
    cases done
    exact ⟨.instanceOf index, Insn.read_pair (by rfl) index, Pool.class?_of_classRef hp asked⟩

theorem ne_nil_of_read {bytes : Octets} {i : Insn}
    (seen : ∀ rest, Insn.read (bytes ++ rest) = some (i, rest)) : bytes ≠ [] := by
  intro empty
  have impossible := seen []
  rw [empty] at impossible
  cases impossible

include hp in
theorem Leaf.octets_pos {l : Leaf} (h : l.encode pool = .ok (l.octets pool) pool) :
    0 < (l.octets pool).length := by
  obtain ⟨i, seen, _⟩ := Leaf.read_encode hp h
  exact List.length_pos_of_ne_nil (ne_nil_of_read seen)

end

inductive Op where
  | leaf (l : Leaf)
  | jump (test : Option Test) (source target : Label)

def Tree.ops : Tree → List Op
  | unit | label _ _ => []
  | leaf _ l => [.leaf l]
  | branch _ test start target _ first second =>
    .jump (some test) start target :: first.ops ++ second.ops
  | goto _ source target => [.jump none source target]
  | seq _ first second => first.ops ++ second.ops
  | retype _ inner => inner.ops
  | guarded _ g _ body handler =>
    body.ops ++ (g.exit.map (Op.jump none · g.after)).toList ++ handler.ops
  | line _ _ body => body.ops

def Step.op? : Step → Option Op
  | leaf _ l => some (.leaf l)
  | jump test source target => some (.jump test source target)
  | _ => none

theorem Tree.filterMap_op? (t : Tree) (outer : Option UInt16) :
    (t.steps outer).filterMap Step.op? = t.ops := by
  induction t generalizing outer with
  | guarded o g caught body handler ihb ihh =>
    cases h : g.exit <;> simp [steps, ops, List.filterMap_cons, Step.op?, ihb, ihh, h]
  | line o number body ih =>
    simp [steps, ops, List.filterMap_cons, Step.op?, ih, filterMap_resume Step.op? fun _ => rfl]
  | _ => simp_all [steps, ops, List.filterMap_cons, Step.op?]

/-- An instruction that is seen, and where. A jump stands where the label it leaves from does. -/
def Sight.op? (labels : Labels) : Sight → Option (Nat × Op)
  | insn _ l position => some (position, .leaf l)
  | jump test source target => (labels.settled? source).map (·, .jump test source target)
  | _ => none

def Layout.reported (layout : Layout) : List (Nat × Op) :=
  layout.sights.toList.filterMap (Sight.op? layout.labels)

/-- What stands in the code is what was reported: at the same position, with the same operands,
and for a jump with an offset that leads to the target. -/
def Shows (pool : Pool) (labels : Labels) : Nat × Op → Nat × Insn → Prop
  | (n, .leaf l), (m, i) => m = n ∧ i.Denotes pool l
  | (n, .jump test _ target), (m, i) => m = n ∧ ∃ (offset : Int16) (goal : Nat),
    i = .jump test offset ∧ labels.positionOf target = .ok goal ∧ (n : Int) + offset.toInt = goal

theorem decode_append {bytes rest : Octets} {i : Insn} (position : Nat)
    (h : Insn.read (bytes ++ rest) = some (i, rest)) (some_bytes : bytes ≠ []) :
    decode position (bytes ++ rest) =
      (decode (position + bytes.length) rest).map ((position, i) :: ·) := by
  have long : 0 < bytes.length := List.length_pos_of_ne_nil some_bytes
  rw [decode]
  simp [h, some_bytes, long]

theorem decode_nil (position : Nat) : decode position [] = some [] := by
  rw [decode]
  simp

def opAt : Nat × Step → Option (Nat × Op)
  | (n, step) => step.op?.map (n, ·)

theorem filterMap_sightsOf {labels : Labels} {line : List (Nat × Step)}
    (placed : ∀ l n, PlacedAt line l n → labels.settled? l = some n) :
    (sightsOf line).filterMap (Sight.op? labels) = line.filterMap opAt := by
  induction line with
  | nil => rfl
  | cons item rest ih =>
    obtain ⟨n, step⟩ := item
    have tail := ih fun l m ⟨x, hx, hl⟩ => placed l m ⟨x, by simp [hx], hl⟩
    have head : (step.sights n).filterMap (Sight.op? labels) = (opAt (n, step)).toList := by
      cases step with
      | jump test source target =>
        have here := placed source n ⟨.jump test source target, by simp, rfl⟩
        simp [Step.sights, Sight.op?, opAt, Step.op?, List.filterMap_cons, here]
      | _ => simp [Step.sights, Sight.op?, opAt, Step.op?]
    have split : sightsOf ((n, step) :: rest) = step.sights n ++ sightsOf rest := by
      simp [sightsOf]
    rw [split, List.filterMap_append, head, tail]
    cases h : opAt (n, step) <;> simp [h]

theorem map_snd_filterMap_opAt (line : List (Nat × Step)) :
    (line.filterMap opAt).map (·.2) = (line.map (·.2)).filterMap Step.op? := by
  induction line with
  | nil => rfl
  | cons item rest ih =>
    obtain ⟨n, step⟩ := item
    cases h : step.op? <;> simp [opAt, h, ih]

section

variable {pool : Pool} {labels : Labels} (hp : pool.Coherent)

include hp in
theorem Step.read_octets {step : Step} {op : Op} {position : Nat} (has : step.op? = some op)
    (ready : step.Ready pool) (reaches : step.Reaches labels.settled?)
    (placed : ∀ l, step.placed? = some l → labels.settled? l = some position) :
    ∃ i, (∀ rest, Insn.read (step.octets pool labels ++ rest) = some (i, rest)) ∧
      Shows pool labels (position, op) (position, i) := by
  cases step with
  | leaf o l =>
    cases has
    obtain ⟨i, done, denotes⟩ := Leaf.read_encode hp ready
    exact ⟨i, done, rfl, denotes⟩
  | jump test source target =>
    cases has
    obtain ⟨origin, goal, hs, ht, low, high⟩ := reaches
    have here := placed source rfl
    rw [hs] at here
    cases here
    refine ⟨_, Insn.read_jump test _, rfl, _, goal, rfl, Labels.positionOf_eq_ok.mpr ht, ?_⟩
    -- The offset is within the range of two bytes, so that nothing is cut off.
    rw [Labels.spot_eq hs, Labels.spot_eq ht, Int16.toInt_ofInt_of_le (by omega) (by omega)]
    omega
  | _ => cases has

include hp in
theorem decode_steps {steps : List Step} {position : Nat}
    (ready : ∀ step ∈ steps, step.Ready pool)
    (reaches : ∀ step ∈ steps, step.Reaches labels.settled?)
    (placed : ∀ l n, PlacedAt (timeline pool position steps) l n → labels.settled? l = some n) :
    ∃ insns, decode position (steps.flatMap (Step.octets pool labels)) = some insns ∧
      List.Forall₂ (Shows pool labels) ((timeline pool position steps).filterMap opAt) insns := by
  induction steps generalizing position with
  | nil => exact ⟨[], decode_nil position, .nil⟩
  | cons step rest ih =>
    obtain ⟨insns, done, shown⟩ := ih (fun x hx => ready x (by simp [hx]))
      (fun x hx => reaches x (by simp [hx])) (fun l n later => placed l n later.tail)
    rw [List.flatMap_cons, timeline]
    cases has : step.op? with
    | none =>
      have silent : step.octets pool labels = [] := by
        cases step with
        | leaf | jump => cases has
        | _ => rfl
      have size : step.size pool = 0 := by rw [← Step.length_octets pool labels, silent]; rfl
      simp only [size, Nat.add_zero] at done shown ⊢
      refine ⟨insns, by rw [silent, List.nil_append, done], ?_⟩
      simpa [opAt, has] using shown
    | some op =>
      obtain ⟨i, seen, shows⟩ := Step.read_octets hp has (ready step (by simp))
        (reaches step (by simp)) (fun l hl => placed l position (.head _ hl))
      refine ⟨(position, i) :: insns, ?_, ?_⟩
      · rw [decode_append position (seen _) (ne_nil_of_read seen), Step.length_octets, done]
        rfl
      · simpa [opAt, has] using ⟨shows, shown⟩

end

/-- A body that was laid out decodes, in any pool that grew out of its own: to the instructions
of the tree in order, at the positions reported, with the operands they were made with. -/
theorem Layout.decode_code (b : Body) (pool final later : Pool) (layout : Layout)
    (made : pool.Made) (accepted : b.layOut pool = .ok layout final) (grown : final.Grows later) :
    ∃ insns, decode 0 layout.code.toList = some insns ∧
      layout.reported.map (·.2) = b.tree.ops ∧
      List.Forall₂ (Shows later layout.labels) layout.reported insns := by
  obtain ⟨laid, filled, _⟩ := of_layOut accepted
  have laid := laid.mono grown.extends
  have hp : later.Coherent := Pool.Made.coherent ((made.trans filled).trans grown)
  have placed : ∀ l n, PlacedAt (b.tree.course later) l n → layout.labels.settled? l = some n :=
    fun l n h => (laid.labels l n).mpr h
  have reported : layout.reported = (b.tree.course later).filterMap opAt := by
    rw [Layout.reported, laid.sights, filterMap_sightsOf placed]
  obtain ⟨insns, done, shown⟩ := decode_steps hp laid.ready laid.reaches placed
  refine ⟨insns, by rw [laid.code, done], ?_, by rwa [reported]⟩
  rw [reported, map_snd_filterMap_opAt, Tree.course, timeline_map_snd, Tree.filterMap_op?]

theorem Layout.decode_code_countdown : ∃ layout final insns,
    Body.countdown.layOut .empty = .ok layout final ∧
    decode 0 layout.code.toList = some insns ∧
    layout.reported.map (·.2) = Tree.countdown.ops ∧
    List.Forall₂ (Shows final layout.labels) layout.reported insns := by
  have accepted : ∃ layout final, Body.countdown.layOut .empty = .ok layout final :=
    ⟨_, _, by cbv⟩
  obtain ⟨layout, final, accepted⟩ := accepted
  obtain ⟨insns, shown⟩ := Layout.decode_code _ _ _ _ _ .refl accepted .refl
  exact ⟨layout, final, insns, accepted, shown⟩

end Bytecode
