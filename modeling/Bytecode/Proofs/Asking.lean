import Bytecode.Proofs.Requests

/-! Computations that have no other way to the pool than requests. Whatever one of them does, the pool
it leaves has come about by further requests, so that all that requests keep is kept. -/
namespace Bytecode

namespace Pool

def asked (p : Pool) (requests : List Request) : Pool :=
  requests.foldl (fun p r => left (r.ask p)) p

theorem asked_append (p : Pool) (first second : List Request) :
    p.asked (first ++ second) = (p.asked first).asked second := List.foldl_append

theorem Asks.exists_requests {α : Type} {x : PoolM α} (h : Asks x) (p : Pool) :
    ∃ requests, left (x p) = p.asked requests := by
  induction h generalizing p with
  | pure | throw => exact ⟨[], rfl⟩
  | request r => exact ⟨[r], rfl⟩
  | @bind _ _ x f _ _ first second =>
    obtain ⟨earlier, same⟩ := first p
    cases done : x p with
    | error e q =>
      rw [done] at same
      exact ⟨earlier, by rw [bind_of_error done]; exact same⟩
    | ok a q =>
      rw [done] at same
      obtain ⟨later, same'⟩ := second a q
      refine ⟨earlier ++ later, ?_⟩
      rw [bind_of_ok done, asked_append, ← same]
      exact same'

def Built (p : Pool) : Prop := ∃ requests, p = after requests

theorem built_empty : empty.Built := ⟨[], rfl⟩

theorem Sound.asked {p : Pool} (h : p.Sound) (requests : List Request) :
    p.Retains (p.asked requests) := by
  induction requests generalizing p with
  | nil => exact .refl p
  | cons r rest ih =>
    have first := meets_ask h r
    exact first.retains.trans (ih first.sound)

namespace Sound

variable {p q : Pool} {i : UInt16}

theorem text_of_ok (h : p.Sound) {text : String} (done : utf8 text p = .ok i q) :
    q.text? i = some text :=
  text?_of_item? ((served h (.utf8 text)).granted i q done)

theorem class_of_ok (h : p.Sound) {r : RefType} (done : classRef r p = .ok i q) :
    q.class? i = some r.className :=
  class?_of_item? ((served h (.classRef r)).granted i q done)

theorem named_of_ok (h : p.Sound) {name : String} {info : Octets} {a : Attribute}
    (done : named name info p = .ok a q) : q.text? a.name = some name ∧ a.info = info := by
  obtain ⟨i, mid, first, last⟩ := exists_of_bind done
  cases last
  exact ⟨h.text_of_ok first, rfl⟩

end Sound

namespace Built

variable {α : Type} {x : PoolM α} {p q : Pool}

theorem sound (h : p.Built) : p.Sound := by
  obtain ⟨requests, rfl⟩ := h
  exact sound_after requests

theorem made (h : p.Built) : p.Made := by
  obtain ⟨requests, rfl⟩ := h
  have grown : ∀ (q : Pool), q.Made → (q.asked requests).Made := by
    induction requests with
    | nil => exact fun _ h => h
    | cons r rest ih => exact fun q h => ih _ (h.trans ((interns_ask r).grows q))
  exact grown empty .refl

theorem left (h : p.Built) (asks : Asks x) : (Pool.left (x p)).Built := by
  obtain ⟨requests, rfl⟩ := h
  obtain ⟨later, same⟩ := asks.exists_requests (after requests)
  exact ⟨requests ++ later, same.trans (asked_append empty requests later).symm⟩

theorem retains (h : p.Built) (asks : Asks x) : p.Retains (Pool.left (x p)) := by
  obtain ⟨later, same⟩ := asks.exists_requests p
  rw [same]
  exact h.sound.asked later

theorem of_ok (h : p.Built) (asks : Asks x) {a : α} (done : x p = .ok a q) :
    q.Built ∧ p.Retains q := by
  have built := h.left asks
  have kept := h.retains asks
  rw [done] at built kept
  exact ⟨built, kept⟩

end Built

end Pool

end Bytecode
