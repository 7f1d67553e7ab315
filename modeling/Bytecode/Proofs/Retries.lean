import Bytecode.Proofs.FileRoundTrip
import Bytecode.Proofs.Histories

/-! What happens when a class that could not be finished is finished again. The bodies that were
laid out are gone and the pool has what it gave, so that the same request is refused for the same
reason. Only the code of the initializer is taken out before something can be refused, and it is not
put back. -/
namespace Bytecode

namespace Pool

theorem exists_names {p : Pool} (name descriptor : String)
    (short : Modified.length name ≤ 65535) (short' : Modified.length descriptor ≤ 65535)
    (room : p.entries.next + 2 ≤ 65535) :
    ∃ given q, names name descriptor p = .ok given q ∧ q.entries.next ≤ p.entries.next + 2 := by
  obtain ⟨i, mid, first, grown⟩ := exists_utf8 short (p := p) (by omega)
  obtain ⟨j, q, second, grown'⟩ := exists_utf8 short' (p := mid) (by omega)
  unfold names
  rw [bind_of_ok first]
  exact ⟨(i, j), q, bind_of_ok second _, by omega⟩

theorem names_fresh {p : Pool} {name descriptor : String} (h : p.Built)
    (short : Modified.length name ≤ 65535) (absent : .utf8 name ∉ p.entries.values)
    (room : p.entries.next < 65535) (short' : Modified.length descriptor ≤ 65535)
    (present : .utf8 descriptor ∈ p.entries.values) :
    ∃ given, names name descriptor p = .ok given (p.push (.utf8 name)) := by
  rcases utf8_cases h short with ⟨here, _⟩ | ⟨_, full, _⟩ | ⟨_, _, i, first⟩
  · exact absurd here absent
  · exact absurd room (Nat.not_lt.mpr full)
  · have kept : .utf8 descriptor ∈ (p.push (.utf8 name)).entries.values := by
      rw [push, Slotted.values_push]
      exact List.mem_append_left _ present
    rcases utf8_cases (h.push first) short' with ⟨_, j, second⟩ | ⟨missing, _⟩ | ⟨missing, _⟩
    · unfold names
      rw [bind_of_ok first]
      exact ⟨(i, j), bind_of_ok second _⟩
    · exact absurd kept missing
    · exact absurd kept missing

end Pool

namespace Pending

variable {config : Config} {this : BinaryName} {m m' : Pending} {p q : Pool}

theorem assemble_bare (bare : m.body = none) (p : Pool) : m.assemble config this p = .ok m p := by
  simp only [assemble, bare]
  rfl

theorem assembleEach_bare {ms : List Pending} (bare : ∀ m ∈ ms, m.body = none) (p : Pool) :
    assembleEach config this ms p = ((ms, none), p) := by
  induction ms with
  | nil => rfl
  | cons m rest ih =>
    rw [assembleEach, assemble_bare (bare m (by simp))]
    simp only [ih fun x member => bare x (List.mem_cons_of_mem m member)]

theorem assembleEach_last {ms : List Pending} (bare : ∀ m ∈ ms, m.body = none)
    (done : m.assemble config this p = .ok m' q) :
    assembleEach config this (ms ++ [m]) p = ((ms ++ [m'], none), q) := by
  induction ms with
  | nil => simp only [List.nil_append, assembleEach, done]
  | cons first rest ih =>
    rw [List.cons_append, assembleEach, assemble_bare (bare first (by simp))]
    simp only [ih fun x member => bare x (List.mem_cons_of_mem first member), List.cons_append]

/-- The body that could not be laid out cannot be laid out now, and those before it are gone. -/
theorem assembleEach_again {ms ms' : List Pending} {e : Error}
    (failed : assembleEach config this ms p = ((ms', some e), q)) :
    assembleEach config this ms' q = ((ms', some e), q) := by
  induction ms generalizing ms' p with
  | nil => cases failed
  | cons m rest ih =>
    rw [assembleEach] at failed
    cases assembled : m.assemble config this p with
    | error fault mid =>
      simp only [assembled] at failed
      cases failed
      have refused := (m.asks_assemble config this).interns.refused _ _ _ assembled
      simp only [assembleEach, refused]
    | ok first mid =>
      simp only [assembled] at failed
      obtain ⟨⟨⟨others, e⟩, last⟩, later⟩ : ∃ r, assembleEach config this rest mid = r := ⟨_, rfl⟩
      rw [later] at failed
      cases failed
      simp only [assembleEach, assemble_bare (laid_of_assemble assembled).1, ih later]

end Pending

namespace ClassDraft

variable {d f : ClassDraft} {fault : Error}

structure Stuck (fault : Error) (d : ClassDraft) : Prop where
  isOpen : d.finished = false
  flushed : d.initializer.isUnit = true
  fails : ∃ f, finish d = .error fault f

theorem assembleMethods_again (failed : assembleMethods d = .error fault f) :
    assembleMethods f = .error fault f := by
  obtain ⟨⟨⟨methods, e⟩, pool⟩, done⟩ :
    ∃ r, Pending.assembleEach d.config d.this d.methods.toList d.pool = r := ⟨_, rfl⟩
  unfold assembleMethods at failed
  simp only [done] at failed
  cases e with
  | none => cases failed
  | some e =>
    cases failed
    simp only [assembleMethods, Pending.assembleEach_again done]

theorem assembleMethods_bare (bare : ∀ m ∈ d.methods.toList, m.body = none) :
    assembleMethods d = .ok () d := by
  simp only [assembleMethods, Pending.assembleEach_bare bare]

theorem finish_flushed (isOpen : d.finished = false) (flushed : d.initializer.isUnit = true) :
    finish d = (assembleMethods >>= fun _ => addSourceAttribute) d := by
  rw [finish_open isOpen]
  exact bind_of_ok (flushInitializer_unit flushed) _

/-- What is left of a class without code for an initializer cannot be finished either, for the same
reason, and is left as it is. -/
theorem finish_again (isOpen : d.finished = false) (flushed : d.initializer.isUnit = true)
    (failed : finish d = .error fault f) :
    f.finished = false ∧ f.initializer.isUnit = true ∧ finish f = .error fault f := by
  rw [finish_flushed isOpen flushed] at failed
  obtain ⟨finished, initializer⟩ := left_assembleMethods d
  rw [isOpen] at finished
  rw [← initializer] at flushed
  rcases error_of_bind failed with first | ⟨_, mid, first, second⟩
  · rw [first] at finished flushed
    rw [finish_flushed (d := f) finished flushed, bind_of_error (assembleMethods_again first)]
    exact ⟨finished, flushed, rfl⟩
  · have bare := bare_of_assembleMethods first
    rw [first] at finished flushed
    rw [addSourceAttribute_eq] at second
    cases asked : Pool.source mid.sourceFile mid.pool with
    | ok a q =>
      rw [enter_ok asked] at second
      cases second
    | error e q =>
      have refused := (Pool.asks_source _).interns.refused _ _ _ asked
      rw [enter_error asked] at second
      cases second
      refine ⟨finished, flushed, ?_⟩
      rw [finish_flushed (d := { mid with pool := q }) finished flushed,
        bind_of_ok (assembleMethods_bare (d := { mid with pool := q }) bare),
        addSourceAttribute_eq, enter_error refused]

theorem stuck_of_finish {mid : ClassDraft} (isOpen : d.finished = false)
    (flushed : flushInitializer d = .ok () mid) (failed : finish d = .error fault f) :
    Stuck fault f := by
  obtain ⟨midOpen, empty⟩ := left_flushInitializer isOpen
  rw [flushed] at midOpen empty
  have same : finish d = finish mid := by
    rw [finish_open isOpen, bind_of_ok flushed, finish_flushed (d := mid) midOpen empty]
  rw [same] at failed
  obtain ⟨finished, flushed, again⟩ := finish_again midOpen empty failed
  exact ⟨finished, flushed, f, again⟩

theorem flushInitializer_error_iff (isOpen : d.finished = false) (built : d.pool.Built) :
    (∃ fault f, flushInitializer d = .error fault f) ↔ d.initializer.isUnit = false ∧
      65535 < d.pool.entries.next + d.pool.missing Addition.initializerTexts := by
  cases present : d.initializer.isUnit with
  | true => simp [flushInitializer_unit present]
  | false =>
    rw [flushInitializer_code isOpen present]
    rcases Addition.names_initializer_cases built d.this d.initializer with
      ⟨room, given, q, done⟩ | ⟨crowded, text, _, q, done, _⟩
    · rw [enter_ok (d := { d with initializer := .unit }) done]
      simpa using room
    · rw [enter_error (d := { d with initializer := .unit }) done]
      simpa using crowded

theorem bytes_of_finish (isOpen : d.finished = false) (done : finish d = .ok () f)
    (sound : f.pool.Sound) :
    ∃ octets, f.classFile.encode = .ok octets ∧ bytes d = .ok octets f := by
  obtain ⟨pool, written, _⟩ := sound.exists_encode
  have encoded : ∃ octets, f.classFile.encode = .ok octets := by
    have written : f.classFile.pool.encode = .ok pool := written
    unfold ClassFile.encode
    rw [written]
    exact ⟨_, rfl⟩
  obtain ⟨octets, encoded⟩ := encoded
  refine ⟨octets, encoded, ?_⟩
  have got (e : ClassDraft) : (get : ClassM ClassDraft) e = .ok e e := rfl
  unfold bytes
  rw [bind_of_ok (got d), if_pos (by simp [isOpen]), bind_of_ok done]
  dsimp only
  rw [bind_of_ok (got f), encoded]
  rfl

theorem bytes_error (isOpen : d.finished = false) (failed : finish d = .error fault f) :
    bytes d = .error fault f := by
  have got : (get : ClassM ClassDraft) d = .ok d d := rfl
  unfold bytes
  rw [bind_of_ok got, if_pos (by simp [isOpen])]
  exact bind_of_error failed _

/-- All ways to finish a class fail where one does. -/
theorem run_attempts_error {o : Operation} (attempts : o.attempts) (isOpen : d.finished = false)
    (failed : finish d = .error fault f) : o.run d = .error fault f := by
  have bytes := bytes_error isOpen failed
  cases o with
  | finish => exact failed
  | bytes => exact bind_of_error bytes _
  | entry => exact bind_of_error (bind_of_error bytes _) _
  | _ => cases attempts

theorem finish_of_run_error {o : Operation} (attempts : o.attempts) (isOpen : d.finished = false)
    (built : d.pool.Built) (failed : o.run d = .error fault f) : finish d = .error fault f := by
  cases done : finish d with
  | error e g =>
    rw [run_attempts_error attempts isOpen done] at failed
    exact failed
  | ok _ g =>
    have grown := (changes_finish isOpen built).built built
    rw [done] at grown
    obtain ⟨octets, _, bytes⟩ := bytes_of_finish isOpen done grown.sound
    cases o with
    | finish =>
      rw [Operation.run, done] at failed
      cases failed
    | bytes =>
      rw [Operation.run, bind_of_ok bytes] at failed
      cases failed
    | entry =>
      have entry : entry d = .ok (g.this.fileName, octets) g := bind_of_ok bytes _
      rw [Operation.run, bind_of_ok entry] at failed
      cases failed
    | _ => cases attempts

theorem Stuck.run {o : Operation} (h : Stuck fault d) (attempts : o.attempts) :
    ∃ f, o.run d = .error fault f ∧ Stuck fault f := by
  obtain ⟨f, failed⟩ := h.fails
  obtain ⟨finished, flushed, again⟩ := finish_again h.isOpen h.flushed failed
  exact ⟨f, run_attempts_error attempts h.isOpen failed, finished, flushed, f, again⟩

theorem Stuck.after {tries : List Operation} (h : Stuck fault d)
    (attempts : ∀ t ∈ tries, t.attempts) : Stuck fault (d.after tries) := by
  induction tries generalizing d with
  | nil => exact h
  | cons t rest ih =>
    obtain ⟨f, failed, stuck⟩ := h.run (attempts t (by simp))
    rw [ClassDraft.after, List.foldl_cons, failed]
    exact ih stuck fun t member => attempts t (List.mem_cons_of_mem _ member)

/-- A class that cannot be finished fails for the same reason and stays open, however often and in
which way it is finished again. -/
def Recurs (d : ClassDraft) : Prop :=
  ∀ (o : Operation) (fault : Error) (f : ClassDraft), o.attempts → o.run d = .error fault f →
    ∀ tries : List Operation, (∀ t ∈ tries, t.attempts) →
      (f.after tries).finished = false ∧
        ∀ t : Operation, t.attempts → ∃ g, t.run (f.after tries) = .error fault g

theorem recurs_of_stuck (isOpen : d.finished = false) (built : d.pool.Built)
    (stuck : ∀ fault f, finish d = .error fault f → Stuck fault f) : d.Recurs := by
  intro o fault f attempts failed tries all
  have later := (stuck fault f (finish_of_run_error attempts isOpen built failed)).after all
  refine ⟨later.isOpen, fun t attempts => ?_⟩
  obtain ⟨g, failed, _⟩ := later.run attempts
  exact ⟨g, failed⟩

theorem flushed_of_finish_error (isOpen : d.finished = false)
    (failed : finish d = .error fault f) : f.finished = false ∧ f.initializer.isUnit = true := by
  cases flushed : flushInitializer d with
  | ok _ mid =>
    have stuck := stuck_of_finish isOpen flushed failed
    exact ⟨stuck.isOpen, stuck.flushed⟩
  | error e mid =>
    have emptied := left_flushInitializer isOpen
    rw [finish_open isOpen, bind_of_error flushed] at failed
    cases failed
    rw [flushed] at emptied
    exact emptied

/-- A class that cannot be finished fails for the same reason ever after, except where the names of
the initializer were refused and what is left fails for another reason or not at all. They are
refused where the pool has no slots for them. What is left of a class that could not be finished is
always one that fails for the same reason ever after. -/
theorem recurs_iff (config : Config) (this : BinaryName) (super : Option BinaryName)
    (interface : Bool) (start d : ClassDraft) (operations : List Operation)
    (begun : make config this super interface = .ok start) (reached : start.after operations = d)
    (isOpen : d.finished = false) :
    (d.Recurs ↔ ∀ fault f, flushInitializer d = .error fault f → ∃ g, finish f = .error fault g) ∧
    ((∃ fault f, flushInitializer d = .error fault f) ↔ d.initializer.isUnit = false ∧
      65535 < d.pool.entries.next + d.pool.missing Addition.initializerTexts) ∧
    ∀ fault f, finish d = .error fault f → f.Recurs := by
  have built : d.pool.Built := reached ▸ built_after begun operations
  refine ⟨⟨fun recurs fault f refused => ?_, fun stays => ?_⟩,
    flushInitializer_error_iff isOpen built, fun fault f failed => ?_⟩
  · have failed : finish d = .error fault f := by
      rw [finish_open isOpen]
      exact bind_of_error refused _
    exact (recurs .finish fault f rfl failed [] (by simp)).2 .finish rfl
  · apply recurs_of_stuck isOpen built
    intro fault f failed
    cases flushed : flushInitializer d with
    | ok _ mid => exact stuck_of_finish isOpen flushed failed
    | error e mid =>
      obtain ⟨midOpen, empty⟩ := left_flushInitializer isOpen
      rw [flushed] at midOpen empty
      rw [finish_open isOpen, bind_of_error flushed] at failed
      cases failed
      exact ⟨midOpen, empty, stays _ _ flushed⟩
  · obtain ⟨finished, flushed⟩ := flushed_of_finish_error isOpen failed
    have grown := (changes_finish isOpen built).built built
    rw [failed] at grown
    apply recurs_of_stuck finished grown
    intro later g again
    exact stuck_of_finish finished (flushInitializer_unit flushed) again

def letters (n : Nat) : String := String.ofList (List.replicate n 'a')

theorem length_letters (n : Nat) : Modified.length (letters n) = n := by
  unfold letters Modified.length
  rw [String.toList_ofList]
  induction n with
  | zero => rfl
  | succ n ih =>
    have one : Modified.units 'a' = [97] := by decide
    rw [List.replicate_succ, List.flatMap_cons, List.foldr_append, ih, one]
    exact Nat.add_comm 1 n

theorem letters_inj {m n : Nat} (h : letters m = letters n) : m = n := by
  rw [← length_letters m, h, length_letters]

theorem ne_letters {text : String} {c : Char} (other : c ∈ text.toList) (h : c ≠ 'a') (n : Nat) :
    text ≠ letters n := by
  rintro rfl
  rw [letters, String.toList_ofList] at other
  exact h (List.eq_of_mem_replicate other)

theorem fault?_letters (n : Nat) : MemberName.fault? (letters (n + 1)) = none := by
  have legal : (List.replicate (n + 1) 'a').any MemberName.isIllegal = false := by
    simp [List.any_replicate, MemberName.isIllegal]
  have plain : (List.replicate (n + 1) 'a').any MemberName.isBracket = false := by
    simp [List.any_replicate, MemberName.isBracket]
  simp [MemberName.fault?, letters, String.toList_ofList, legal, plain]

/-- A class that is named like the type of its fields, before it has any. -/
theorem exists_start : ∃ start, make {} ⟨"I", by decide⟩ none false = .ok start ∧
    start.pool.entries.values =
      [.utf8 "I", .classRef 1, .utf8 "java/lang/Object", .classRef 3] ∧
    start.pool.entries.next = 5 ∧ start.sourceFile = "I.java" ∧
    start.this = ⟨"I", by decide⟩ :=
  ⟨_, by cbv, by cbv, by cbv, by cbv, by cbv⟩

theorem addSourceAttribute_long (long : 65535 < Modified.length d.sourceFile) :
    addSourceAttribute d = .error (.textTooLong (Modified.length d.sourceFile)) d := by
  have refused : Pool.utf8 d.sourceFile d.pool =
      .error (.textTooLong (Modified.length d.sourceFile)) d.pool := by
    unfold Pool.utf8
    rw [if_pos long]
    rfl
  have refused : Pool.source d.sourceFile d.pool =
      .error (.textTooLong (Modified.length d.sourceFile)) d.pool := bind_of_error refused _
  rw [addSourceAttribute_eq, enter_error refused]

theorem recurs_iff_long : ∃ start d,
    make {} ⟨"I", by decide⟩ none false = .ok start ∧
    start.after [.setSourceFile (letters 65536)] = d ∧ d.finished = false ∧
    finish d = .error (.textTooLong 65536) d ∧
    (d.Recurs ↔ ∀ fault f, flushInitializer d = .error fault f → ∃ g, finish f = .error fault g) ∧
    ((∃ fault f, flushInitializer d = .error fault f) ↔ d.initializer.isUnit = false ∧
      65535 < d.pool.entries.next + d.pool.missing Addition.initializerTexts) ∧
    ∀ fault f, finish d = .error fault f → f.Recurs := by
  obtain ⟨start, begun, _⟩ := exists_start
  have fresh := fresh_of_make begun
  have renamed (name : String) : ∃ d, start.after [.setSourceFile name] = d ∧ d.finished = false ∧
      d.initializer = .unit ∧ d.methods = #[] ∧ d.sourceFile = name :=
    ⟨_, congrArg left (setSourceFile_open fresh.isOpen name), fresh.isOpen, fresh.initializer,
      fresh.methods, rfl⟩
  obtain ⟨d, reached, isOpen, empty, methods, source⟩ := renamed (letters 65536)
  have long : Modified.length d.sourceFile = 65536 := by rw [source, length_letters]
  have failed : finish d = .error (.textTooLong 65536) d := by
    rw [finish_flushed isOpen (by rw [empty]; rfl),
      bind_of_ok (assembleMethods_bare (by simp [methods])), addSourceAttribute_long (by omega),
      long]
  exact ⟨start, d, begun, reached, isOpen, failed,
    recurs_iff _ _ _ _ start d _ begun reached isOpen⟩

def crowd (n : Nat) : List Operation :=
  (List.range n).map fun k => .addField 1 ⟨letters (k + 1), fault?_letters k⟩ (.prim .int)

structure Crowded (n : Nat) (d : ClassDraft) : Prop where
  isOpen : d.finished = false
  methods : d.methods = #[]
  initializer : d.initializer = .unit
  source : d.sourceFile = "I.java"
  built : d.pool.Built
  next : d.pool.entries.next = 5 + n
  type : .utf8 (FieldType.prim .int).descriptor ∈ d.pool.entries.values
  texts : ∀ text, .utf8 text ∈ d.pool.entries.values →
    text ∈ ["I", "java/lang/Object"] ∨ ∃ k < n, text = letters (k + 1)

theorem Crowded.addField {n : Nat} (h : Crowded n d) (room : n < 65530) :
    Crowded (n + 1) (left (addField 1 ⟨letters (n + 1), fault?_letters n⟩ (.prim .int) d)) := by
  have absent : .utf8 (letters (n + 1)) ∉ d.pool.entries.values := by
    intro present
    rcases h.texts _ present with fixed | ⟨k, earlier, same⟩
    · have other : "I" ≠ letters (n + 1) := ne_letters (c := 'I') (by decide) (by decide) _
      have other' : "java/lang/Object" ≠ letters (n + 1) :=
        ne_letters (c := 'j') (by decide) (by decide) _
      simp [other.symm, other'.symm] at fixed
    · have := letters_inj same
      omega
  obtain ⟨given, named⟩ := Pool.names_fresh h.built (by rw [length_letters]; omega) absent
    (by rw [h.next]; omega) (by cbv) h.type
  have values : (d.pool.push (.utf8 (letters (n + 1)))).entries.values =
      d.pool.entries.values ++ [.utf8 (letters (n + 1))] := Slotted.values_push _ _
  rw [addField_open h.isOpen, enter_ok named]
  constructor
  case isOpen => exact h.isOpen
  case methods => exact h.methods
  case initializer => exact h.initializer
  case source => exact h.source
  case built => exact (h.built.of_ok (Pool.asks_names _ _) named).1
  case next => exact congrArg (· + 1) h.next
  case type => exact values ▸ List.mem_append_left _ h.type
  case texts =>
    intro text present
    rcases List.mem_append.mp (values ▸ present) with old | new
    · rcases h.texts text old with fixed | ⟨k, earlier, same⟩
      · exact .inl fixed
      · exact .inr ⟨k, by omega, same⟩
    · cases List.mem_singleton.mp new
      exact .inr ⟨n, by omega, rfl⟩

theorem crowded_after {start : ClassDraft} (h : Crowded 0 start) {n : Nat} (room : n ≤ 65530) :
    Crowded n (start.after (crowd n)) := by
  induction n with
  | zero => exact h
  | succ n ih =>
    have step := (ih (by omega)).addField (by omega)
    rw [crowd, List.range_succ, List.map_append, after_append]
    exact step

/-- A full pool refuses every short text that is not one of the names. -/
theorem Crowded.refuses {text : String} {c : Char} (h : Crowded 65530 d) (other : c ∈ text.toList)
    (strange : c ≠ 'a') (new : text ∉ ["I", "java/lang/Object"])
    (short : Modified.length text ≤ 65535) :
    Pool.utf8 text d.pool = .error (.poolFull (.utf8 text) 65535) d.pool := by
  have absent : .utf8 text ∉ d.pool.entries.values := by
    intro present
    rcases h.texts text present with fixed | ⟨k, _, same⟩
    · exact new fixed
    · exact ne_letters other strange _ same
  rcases Pool.utf8_cases h.built short with ⟨here, _⟩ | ⟨_, _, refused⟩ | ⟨_, room, _⟩
  · exact absurd here absent
  · exact refused
  · rw [h.next] at room
    omega

theorem Crowded.finish_error (h : Crowded 65530 d) :
    finish d = .error (.poolFull (.utf8 "I.java") 65535) d := by
  have refused : Pool.source d.sourceFile d.pool =
      .error (.poolFull (.utf8 "I.java") 65535) d.pool := by
    rw [h.source]
    exact bind_of_error (h.refuses (c := '.') (by decide) (by decide) (by decide) (by cbv)) _
  rw [finish_flushed h.isOpen (by rw [h.initializer]; rfl),
    bind_of_ok (assembleMethods_bare (by simp [h.methods])), addSourceAttribute_eq,
    enter_error refused]

theorem Crowded.finish_code_error (h : Crowded 65530 d) :
    finish { d with initializer := .andThen .unit (.simple .nop) } =
      .error (.poolFull (.utf8 "<clinit>") 65535) d := by
  have refused : Pool.names "<clinit>" "()V" d.pool =
      .error (.poolFull (.utf8 "<clinit>") 65535) d.pool :=
    bind_of_error (h.refuses (c := '<') (by decide) (by decide) (by decide) (by cbv)) _
  have same : ({ d with initializer := .unit } : ClassDraft) = d := by rw [← h.initializer]
  have lost : flushInitializer { d with initializer := .andThen .unit (.simple .nop) } =
      .error (.poolFull (.utf8 "<clinit>") 65535) d := by
    apply (flushInitializer_code (d := { d with initializer := .andThen .unit (.simple .nop) })
      h.isOpen rfl).trans
    apply (enter_error (d := { d with initializer := .unit }) refused).trans
    exact congrArg _ same
  rw [finish_open (d := { d with initializer := .andThen .unit (.simple .nop) }) h.isOpen]
  exact bind_of_error lost _

/-- The names of the initializer are refused by a full pool. Its code is gone when the class is
finished again, and so it is the source file that is refused then. -/
theorem not_recurs_crowd : ∃ start d f,
    make {} ⟨"I", by decide⟩ none false = .ok start ∧
    start.after (crowd 65530 ++ [.addToInitializer (.simple .nop)]) = d ∧ d.finished = false ∧
    finish d = .error (.poolFull (.utf8 "<clinit>") 65535) f ∧
    finish f = .error (.poolFull (.utf8 "I.java") 65535) f ∧ ¬ d.Recurs := by
  obtain ⟨start, begun, values, next, source, _⟩ := exists_start
  have fresh := fresh_of_make begun
  have empty : Crowded 0 start := by
    refine ⟨fresh.isOpen, fresh.methods, fresh.initializer, source, (pool_of_make begun).1,
      next, ?_, ?_⟩
    · rw [values]
      decide
    · intro text present
      rw [values] at present
      simpa using present
  have crowded := crowded_after empty (Nat.le_refl 65530)
  obtain ⟨e, reached⟩ : ∃ e, start.after (crowd 65530) = e := ⟨_, rfl⟩
  rw [reached] at crowded
  have added := addToInitializer_open crowded.isOpen (.simple .nop)
  rw [crowded.initializer] at added
  refine ⟨start, { e with initializer := .andThen .unit (.simple .nop) }, e, begun, ?_,
    crowded.isOpen, crowded.finish_code_error, crowded.finish_error, ?_⟩
  · rw [after_append, reached]
    exact congrArg left added
  · intro recurs
    obtain ⟨g, again⟩ :=
      (recurs .finish _ _ rfl crowded.finish_code_error [] (by simp)).2 .finish rfl
    rw [after, List.foldl_nil, Operation.run, crowded.finish_error] at again
    exact absurd (EStateM.Result.error.inj again).1 (by decide)

end ClassDraft

end Bytecode
