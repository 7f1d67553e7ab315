import Bytecode.Proofs.Integrity
import Bytecode.Proofs.Retries

/-! Finished classes. Nothing that is done to a class after it was finished changes it, its pool
included, so that the same bytes come out however often it is written, and wherever they go. -/
namespace Bytecode.ClassDraft

def onDraft {σ α : Type} (x : ClassM α) : EStateM Error (ClassDraft × σ) α := fun (d, s) =>
  match x d with
  | .ok a d => .ok a (d, s)
  | .error e d => .error e (d, s)

def onOutlet {σ α : Type} (x : EStateM Error σ α) : EStateM Error (ClassDraft × σ) α :=
  fun (d, s) =>
    match x s with
    | .ok a s => .ok a (d, s)
    | .error e s => .error e (d, s)

/-- What can be done with a class where there is something to write it to. A stream is known by what
it does with bytes, and an archive by what it does with an entry; both may refuse. -/
inductive Call (σ : Type) where
  | operate (o : Operation)
  | writeTo (put : Octets → EStateM Error σ Unit)
  | writeToArchive (put : String → Octets → EStateM Error σ Unit)

namespace Call

variable {σ : Type}

def run : Call σ → EStateM Error (ClassDraft × σ) Unit
  | operate o => onDraft o.run
  | writeTo put => do
    let octets ← onDraft bytes
    onOutlet (put octets)
  | writeToArchive put => do
    let entry ← onDraft entry
    onOutlet (put entry.1 entry.2)

def left {α : Type} : EStateM.Result Error (ClassDraft × σ) α → ClassDraft × σ
  | .ok _ s => s
  | .error _ s => s

def after (s : ClassDraft × σ) (calls : List (Call σ)) : ClassDraft × σ :=
  calls.foldl (fun s c => left (c.run s)) s

end Call

def Operation.writes : Operation → Bool
  | bytes | entry => true
  | _ => false

structure Frozen {σ : Type} (octets : Octets) (s : ClassDraft × σ) : Prop where
  refuses : ∀ o : Operation, o.writes = false →
    (Call.operate o).run s = .error (.finished s.1.this.text) s
  bytes : onDraft bytes s = .ok octets s
  entry : onDraft entry s = .ok (s.1.this.fileName, octets) s
  writeTo : ∀ put, (Call.writeTo put).run s = onOutlet (put octets) s
  writeToArchive : ∀ put,
    (Call.writeToArchive put).run s = onOutlet (put s.1.this.fileName octets) s

variable {d e : ClassDraft} {octets : Octets} {σ : Type} {s : σ}

section

variable (closed : d.finished = true)

include closed

theorem refused_of_finished {o : Operation} (edits : o.writes = false) :
    o.run d = .error (.finished d.this.text) d := by
  cases attempts : o.attempts with
  | false => exact run_finished closed attempts
  | true =>
    cases o with
    | finish => exact bind_of_error (checkOpen_finished closed) _
    | bytes | entry => cases edits
    | _ => cases attempts

theorem bytes_of_finished (encoded : d.classFile.encode = .ok octets) :
    bytes d = .ok octets d := by
  have got : (get : ClassM ClassDraft) d = .ok d d := rfl
  unfold bytes
  rw [bind_of_ok got, if_neg (by simp [closed])]
  dsimp only
  rw [bind_of_ok got, encoded]
  rfl

theorem entry_of_finished (encoded : d.classFile.encode = .ok octets) :
    entry d = .ok (d.this.fileName, octets) d := by
  unfold entry
  rw [bind_of_ok (bytes_of_finished closed encoded)]
  rfl

theorem frozen_of_finished (encoded : d.classFile.encode = .ok octets) : Frozen octets (d, s) := by
  have bytes : onDraft bytes (d, s) = .ok octets (d, s) := by
    simp only [onDraft, bytes_of_finished closed encoded]
  have entry : onDraft entry (d, s) = .ok (d.this.fileName, octets) (d, s) := by
    simp only [onDraft, entry_of_finished closed encoded]
  refine ⟨fun o edits => ?_, bytes, entry, fun put => bind_of_ok bytes _,
    fun put => bind_of_ok entry _⟩
  simp only [Call.run, onDraft, refused_of_finished closed edits]

theorem left_run_finished (o : Operation) : left (o.run d) = d := by
  cases attempts : o.attempts with
  | false =>
    rw [run_finished closed attempts]
    rfl
  | true => rw [left_run_attempts attempts, if_pos closed]

end

theorem left_onDraft {α : Type} (x : ClassM α) :
    Call.left (onDraft x (d, s)) = (left (x d), s) := by
  unfold onDraft
  dsimp only
  cases x d <;> rfl

theorem left_onOutlet {α : Type} (x : EStateM Error σ α) :
    (Call.left (onOutlet x (d, s))).1 = d := by
  unfold onOutlet
  dsimp only
  cases x s <;> rfl

namespace Frozen

theorem left_call (h : Frozen octets (d, s)) (closed : d.finished = true) (c : Call σ) :
    (Call.left (c.run (d, s))).1 = d := by
  cases c with
  | operate o =>
    rw [Call.run, left_onDraft]
    exact left_run_finished closed o
  | writeTo put =>
    rw [h.writeTo]
    exact left_onOutlet _
  | writeToArchive put =>
    rw [h.writeToArchive]
    exact left_onOutlet _

end Frozen

/-- A call leaves a finished class as it is, and so does any number of them. -/
theorem fst_after_finished (closed : d.finished = true) (encoded : d.classFile.encode = .ok octets)
    (calls : List (Call σ)) : (Call.after (d, s) calls).1 = d := by
  induction calls generalizing s with
  | nil => rfl
  | cons c rest ih =>
    have same := (frozen_of_finished closed encoded (s := s)).left_call closed c
    rw [Call.after, List.foldl_cons, ← Prod.eta (Call.left (c.run (d, s))), same]
    exact ih

theorem finished_of_finish (done : finish d = .ok () e) : e.finished = true := by
  rw [finish_open (isOpen_of_finish done)] at done
  obtain ⟨_, _, _, done⟩ := exists_of_bind done
  obtain ⟨_, _, _, done⟩ := exists_of_bind done
  obtain ⟨a, q, _, rfl⟩ := addSourceAttribute_ok done
  rfl

/-- Once a class was finished it stays the same through any further calls, whatever it is written to
and whether that takes what it is given. Every change is refused, and the bytes that are handed out
are the same each time. -/
theorem frozen_of_finish (config : Config) (this : BinaryName) (super : Option BinaryName)
    (interface : Bool) (start d : ClassDraft) (operations : List Operation)
    (begun : make config this super interface = .ok start)
    (finished : finish (start.after operations) = .ok () d) :
    ∃ octets, ∀ (σ : Type) (s : σ) (calls : List (Call σ)),
      ∃ s', Call.after (d, s) calls = (d, s') ∧ Frozen octets (d, s') := by
  have built := built_of_finish (built_after begun operations) finished
  have closed := finished_of_finish finished
  obtain ⟨octets, encoded, _⟩ :=
    bytes_of_finish (isOpen_of_finish finished) finished built.sound
  refine ⟨octets, fun σ s calls => ⟨(Call.after (d, s) calls).2, ?_, ?_⟩⟩
  · exact Prod.ext (fst_after_finished closed encoded calls) rfl
  · exact frozen_of_finished closed encoded

theorem frozen_of_finish_building : ∃ start d,
    make {} ⟨"C", by decide⟩ (some ⟨"B", by decide⟩) false = .ok start ∧
    finish (start.after building) = .ok () d ∧ ∃ (octets : Octets) (a : Archive),
    Call.after (d, Archive.empty) [.operate (.setSourceFile "D.java"),
      .writeToArchive fun name bytes => modify (Archive.add name bytes)] = (d, a) ∧
    Frozen octets (d, a) := by
  obtain ⟨start, d, begun, finished⟩ := exists_building
  obtain ⟨octets, frozen⟩ := frozen_of_finish _ _ _ _ start d building begun finished
  exact ⟨start, d, begun, finished, octets, frozen _ _ _⟩

end Bytecode.ClassDraft
