import Bytecode.Proofs.Descriptors
import Bytecode.Proofs.Stretches

/-! Machines that run emitted bytes. What the instructions do to the state of a machine is left open,
but for the jumps: each is read from the bytes at the position that control is at, its operands are
followed through the pool, and a test decides where a conditional jump goes. -/
namespace Bytecode

def Pool.loadable? (p : Pool) (index : UInt16) : Option Loadable :=
  match p.get? index with
  | some (.integer value) => some (.integer value)
  | some (.float bits) => some (.float bits)
  | some (.long value) => some (.long value)
  | some (.double bits) => some (.double bits)
  | some (.string text) => (p.text? text).map .string
  | some (.classRef name) => do
    let name ← p.text? name
    return .classRef (← (RefType.ofClassName name).toOption)
  | _ => none

namespace Insn

def callee? (kind : InvokeKind) : String × String × String → Option Leaf
  | (owner, name, descriptor) => do
    let owner ← (RefType.ofClassName owner).toOption
    let name ← (MemberName.ofString name).toOption
    let s ← (Signature.parse descriptor).toOption
    return .invoke kind owner name s

def leaf? (pool : Pool) : Insn → Option Leaf
  | simple i => some (.simple i)
  | push _ index => (pool.loadable? index).map .push
  | var op index => some (.var op index)
  | field op index => do
    let (owner, name, descriptor) ← pool.field? index
    let owner ← (BinaryName.ofString owner).toOption
    let name ← (MemberName.ofString name).toOption
    let t ← (FieldType.parse descriptor).toOption
    return .field op owner name t
  | invoke kind index => (pool.method? index).bind (callee? kind)
  | invokeInterface index _ => (pool.interfaceMethod? index).bind (callee? .interface)
  | new index => do
    let name ← pool.class? index
    return .new (← (BinaryName.ofString name).toOption)
  | newArray p => some (.newArray p)
  | newObjects index => do
    let name ← pool.class? index
    return .newObjects (← (RefType.ofClassName name).toOption)
  | cast index => do
    let name ← pool.class? index
    return .cast (← (RefType.ofClassName name).toOption)
  | instanceOf index => do
    let name ← pool.class? index
    return .instanceOf (← (RefType.ofClassName name).toOption)
  | jump _ _ => none

theorem callee?_eq (kind : InvokeKind) (owner : RefType) (name : MemberName) (s : Signature) :
    callee? kind (owner.className, name.text, s.descriptor) = some (.invoke kind owner name s) := by
  simp [callee?, RefType.ofClassName_className, MemberName.ofString_text,
    Signature.parse_descriptor, Except.toOption]

end Insn

theorem Pool.loadable?_of_holds {p : Pool} {index : UInt16} {c : Loadable} (h : p.Holds index c) :
    p.loadable? index = some c := by
  cases c with
  | string text =>
    simp only [Holds, string?] at h
    split at h
    · rename_i found
      simp [loadable?, found, h]
    · cases h
  | classRef r =>
    simp only [Holds, class?] at h
    split at h
    · rename_i found
      simp [loadable?, found, h, RefType.ofClassName_className, Except.toOption]
    · cases h
  | _ =>
    simp only [Holds] at h
    simp [loadable?, h]

theorem Insn.leaf?_of_denotes {pool : Pool} {i : Insn} {l : Leaf} (h : i.Denotes pool l) :
    i.leaf? pool = some l := by
  cases l with
  | simple =>
    cases i with
    | simple =>
      cases h
      rfl
    | _ => exact h.elim
  | push c =>
    cases i with
    | push => simp [leaf?, Pool.loadable?_of_holds h.2]
    | _ => exact h.elim
  | var =>
    cases i with
    | var =>
      obtain ⟨rfl, rfl⟩ := h
      rfl
    | _ => exact h.elim
  | field op owner name t =>
    cases i with
    | field =>
      obtain ⟨rfl, found⟩ := h
      simp [leaf?, found, BinaryName.ofString_text, MemberName.ofString_text,
        FieldType.parse_descriptor, Except.toOption]
    | _ => exact h.elim
  | invoke kind owner name s =>
    cases i with
    | invoke =>
      obtain ⟨rfl, _, found⟩ := h
      simp [leaf?, found, callee?_eq]
    | invokeInterface =>
      cases kind with
      | interface => simp [leaf?, h.1, callee?_eq]
      | _ => exact h.elim
    | _ => exact h.elim
  | new name =>
    cases i with
    | new index =>
      have found : pool.class? index = some name.text := h
      simp [leaf?, found, BinaryName.ofString_text, Except.toOption]
    | _ => exact h.elim
  | newArray =>
    cases i with
    | newArray =>
      cases h
      rfl
    | _ => exact h.elim
  | newObjects r =>
    cases i with
    | newObjects index =>
      have found : pool.class? index = some r.className := h
      simp [leaf?, found, RefType.ofClassName_className, Except.toOption]
    | _ => exact h.elim
  | cast r =>
    cases i with
    | cast index =>
      have found : pool.class? index = some r.className := h
      simp [leaf?, found, RefType.ofClassName_className, Except.toOption]
    | _ => exact h.elim
  | instanceOf r =>
    cases i with
    | instanceOf index =>
      have found : pool.class? index = some r.className := h
      simp [leaf?, found, RefType.ofClassName_className, Except.toOption]
    | _ => exact h.elim

def Leaf.halts : Leaf → Bool
  | simple i => i.ends
  | _ => false

/-- What instructions do to the state, and how tests come out on it. A test and its negation come
out differently and leave the same. -/
structure Machine (σ : Type) where
  effect : Leaf → σ → σ
  test : Test → σ → Bool × σ
  negated : ∀ t s, test t.negate s = (!(test t s).1, (test t s).2)

inductive Control (σ : Type) where
  | running (pc : Nat) (s : σ)
  | halted (s : σ)

namespace Machine

variable {σ : Type}

def landing (pc : Nat) (offset : Int16) : Nat := (pc + offset.toInt : Int).toNat

/-- One instruction: what is run, unless it is a jump, and where control is then. Where no
instruction stands, control stays. -/
def step (m : Machine σ) (pool : Pool) (code : Octets) : Control σ → List Leaf × Control σ
  | .halted s => ([], .halted s)
  | .running pc s =>
    match Insn.read (code.drop pc) with
    | none => ([], .running pc s)
    | some (.jump none offset, _) => ([], .running (landing pc offset) s)
    | some (.jump (some t) offset, rest) =>
      let next := code.length - rest.length
      ([], .running (if (m.test t s).1 then landing pc offset else next) (m.test t s).2)
    | some (i, rest) =>
      match i.leaf? pool with
      | none => ([], .running pc s)
      | some l =>
        let next := code.length - rest.length
        ([l], if l.halts then .halted (m.effect l s) else .running next (m.effect l s))

def exec (m : Machine σ) (pool : Pool) (code : Octets) : Nat → Control σ → List Leaf × Control σ
  | 0, c => ([], c)
  | n + 1, c =>
    let (now, c) := m.step pool code c
    let (later, c) := m.exec pool code n c
    (now ++ later, c)

def Reaches (m : Machine σ) (pool : Pool) (code : Octets) (c : Control σ) (trace : List Leaf)
    (c' : Control σ) : Prop :=
  ∃ n, m.exec pool code n c = (trace, c')

variable {m : Machine σ} {pool : Pool} {code : Octets} {c c' c'' : Control σ}

theorem exec_add (n k : Nat) (c : Control σ) :
    m.exec pool code (n + k) c =
      ((m.exec pool code n c).1 ++ (m.exec pool code k (m.exec pool code n c).2).1,
        (m.exec pool code k (m.exec pool code n c).2).2) := by
  induction n generalizing c with
  | zero => simp [exec]
  | succ n ih =>
    rw [Nat.succ_add]
    simp only [exec, ih, List.append_assoc]

theorem exec_of_stays (stays : m.step pool code c = ([], c)) (n : Nat) :
    m.exec pool code n c = ([], c) := by
  induction n with
  | zero => rfl
  | succ n ih => simp only [exec, stays, ih, List.append_nil]

namespace Reaches

theorem refl (c : Control σ) : m.Reaches pool code c [] c := ⟨0, rfl⟩

theorem of_step {trace : List Leaf} (h : m.step pool code c = (trace, c')) :
    m.Reaches pool code c trace c' :=
  ⟨1, by simp [exec, h]⟩

theorem trans {first second : List Leaf} (a : m.Reaches pool code c first c')
    (b : m.Reaches pool code c' second c'') : m.Reaches pool code c (first ++ second) c'' := by
  obtain ⟨n, a⟩ := a
  obtain ⟨k, b⟩ := b
  exact ⟨n + k, by rw [exec_add, a, b]⟩

end Reaches

end Machine

structure Inscribed (pool : Pool) (labels : Labels) (code : Octets) (n : Nat) (step : Step) :
    Prop where
  stands : Stands pool labels n step
  bytes : code.drop n = step.octets pool labels ++ code.drop (n + step.size pool)

section

variable {pool : Pool} {labels : Labels} {code tail : Octets} {n : Nat} {steps : List Step}

theorem along_inscribed (stands : Along pool (Stands pool labels) n steps)
    (bytes : code.drop n = steps.flatMap (Step.octets pool labels) ++ tail) :
    Along pool (Inscribed pool labels code) n steps := by
  induction steps generalizing n with
  | nil => trivial
  | cons step rest ih =>
    rw [List.flatMap_cons, List.append_assoc] at bytes
    have after : code.drop (n + step.size pool) =
        rest.flatMap (Step.octets pool labels) ++ tail := by
      rw [← List.drop_drop, bytes, ← Step.length_octets pool labels, List.drop_left]
    exact ⟨⟨stands.1, by rw [after, bytes]⟩, ih stands.2 after⟩

end

theorem Layout.Laid.inscribed {t : Tree} {pool : Pool} {layout : Layout}
    (laid : layout.Laid t pool) :
    Along pool (Inscribed pool layout.labels layout.code.toList) 0 (t.steps none) :=
  along_inscribed laid.stands (by rw [List.drop_zero, laid.code, List.append_nil])

namespace Inscribed

variable {pool : Pool} {labels : Labels} {code : Octets} {n : Nat} {step : Step} {op : Op}
  {σ : Type} {m : Machine σ} {s : σ}

/-- What is read at the position of an instruction, and where the next one stands. -/
theorem exists_read (hp : pool.Coherent) (h : Inscribed pool labels code n step)
    (has : step.op? = some op) :
    ∃ i, Insn.read (code.drop n) = some (i, code.drop (n + step.size pool)) ∧
      Shows pool labels (n, op) (n, i) ∧
      code.length - (code.drop (n + step.size pool)).length = n + step.size pool := by
  obtain ⟨i, reads, shows⟩ := Step.read_octets hp has h.stands.ready h.stands.reaches h.stands.placed
  refine ⟨i, by rw [h.bytes, reads], shows, ?_⟩
  have room := h.stands.size_pos hp has
  have lengths := congrArg List.length h.bytes
  simp only [List.length_drop, List.length_append, Step.length_octets] at lengths ⊢
  omega

theorem step_leaf (hp : pool.Coherent) {o : Outcome} {l : Leaf}
    (h : Inscribed pool labels code n (.leaf o l)) :
    m.step pool code (.running n s) = ([l], if l.halts then .halted (m.effect l s)
      else .running (n + (Step.leaf o l).size pool) (m.effect l s)) := by
  obtain ⟨i, reads, ⟨_, denotes⟩, next⟩ := h.exists_read hp rfl
  have found := Insn.leaf?_of_denotes denotes
  cases i with
  | jump test offset => cases found
  | _ => simp only [Machine.step, reads, found, next]

theorem landing_eq {target : Label} {offset : Int16} {goal : Nat}
    (settled : labels.positionOf target = .ok goal) (lands : (n : Int) + offset.toInt = goal) :
    Machine.landing n offset = labels.spot target := by
  rw [Labels.spot_eq (Labels.positionOf_eq_ok.mp settled), Machine.landing, lands, Int.toNat_natCast]

theorem step_goto (hp : pool.Coherent) {source target : Label}
    (h : Inscribed pool labels code n (.jump none source target)) :
    m.step pool code (.running n s) = ([], .running (labels.spot target) s) := by
  obtain ⟨i, reads, ⟨_, offset, goal, rfl, settled, lands⟩, _⟩ := h.exists_read hp rfl
  simp only [Machine.step, reads, landing_eq settled lands]

theorem step_test (hp : pool.Coherent) {test : Test} {source target : Label}
    (h : Inscribed pool labels code n (.jump (some test) source target)) :
    m.step pool code (.running n s) =
      ([], .running (if (m.test test s).1 then labels.spot target else n + 3) (m.test test s).2) := by
  obtain ⟨i, reads, ⟨_, offset, goal, rfl, settled, lands⟩, next⟩ := h.exists_read hp rfl
  simp only [Step.size] at reads next
  simp only [Machine.step, reads, landing_eq settled lands, next]

end Inscribed

end Bytecode
