import Bytecode.Text.Modified
import Mathlib

/-! Reading modified UTF-8. A unit is read from one, two or three bytes, told apart by the first of
them, and a pair of surrogates is joined into one character. Every text that is written is read
back, from as many bytes as were counted. -/
namespace Bytecode.Modified

def isTail (b : UInt8) : Bool := b.toNat / 64 = 2

def readUnits : Octets → Option (List UInt16)
  | [] => some []
  | a :: rest =>
    if 0 < a.toNat ∧ a.toNat < 0x80 then (readUnits rest).map (UInt16.ofNat a.toNat :: ·)
    else
      match rest with
      | [] => none
      | b :: rest =>
        if a.toNat / 32 = 6 ∧ isTail b then
          (readUnits rest).map (UInt16.ofNat (a.toNat % 32 * 64 + b.toNat % 64) :: ·)
        else
          match rest with
          | [] => none
          | c :: rest =>
            if a.toNat / 16 = 14 ∧ isTail b ∧ isTail c then
              (readUnits rest).map (UInt16.ofNat
                (a.toNat % 16 * 4096 + b.toNat % 64 * 64 + c.toNat % 64) :: ·)
            else none

def isHigh (u : UInt16) : Bool := u.toNat / 1024 = 54

def isLow (u : UInt16) : Bool := u.toNat / 1024 = 55

def joinUnits : List UInt16 → Option (List Char)
  | [] => some []
  | u :: rest =>
    if isHigh u then
      match rest with
      | [] => none
      | v :: rest =>
        if isLow v then
          (joinUnits rest).map
            (Char.ofNat (0x10000 + u.toNat % 1024 * 1024 + v.toNat % 1024) :: ·)
        else none
    else if isLow u then none
    else (joinUnits rest).map (Char.ofNat u.toNat :: ·)

def decode (bytes : Octets) : Option String :=
  (readUnits bytes).bind fun units => (joinUnits units).map String.ofList

/-- Bits that a number does not have are set by adding them. -/
theorem or_eq_add {n m : Nat} (i : Nat) (small : n < 2 ^ i) (above : 2 ^ i ∣ m) :
    n ||| m = n + m := by
  obtain ⟨k, rfl⟩ := above
  rw [Nat.or_comm, ← Nat.two_pow_add_eq_or_of_lt small, Nat.add_comm]

/-- The six lowest bits of a unit, marked as what follows a first byte. -/
theorem toNat_tail (u : UInt16) : ((u &&& 0x3F).toUInt8 ||| 0x80).toNat = u.toNat % 64 + 128 := by
  have six := Nat.and_two_pow_sub_one_eq_mod u.toNat 6
  have low : (u &&& 0x3F).toUInt8.toNat = u.toNat % 64 := by
    rw [UInt16.toNat_toUInt8, UInt16.toNat_and]
    simp only [UInt16.reduceToNat, Nat.reducePow, Nat.reduceSub] at six ⊢
    omega
  rw [UInt8.toNat_or, low]
  exact or_eq_add 7 (by omega) (by decide)

theorem toNat_shift (u : UInt16) (i : UInt16) (small : i.toNat < 16) :
    (u >>> i).toNat = u.toNat / 2 ^ i.toNat := by
  rw [UInt16.toNat_shiftRight, Nat.mod_eq_of_lt small, Nat.shiftRight_eq_div_pow]

/-- The three forms of a unit, told apart by its value, with their bytes as numbers. -/
theorem unitOctets_forms (u : UInt16) :
    (0 < u.toNat ∧ u.toNat < 0x80 ∧ ∃ a, unitOctets u = [a] ∧ a.toNat = u.toNat) ∨
    ((u.toNat = 0 ∨ 0x80 ≤ u.toNat) ∧ u.toNat < 0x800 ∧ ∃ a b, unitOctets u = [a, b] ∧
      a.toNat = u.toNat / 64 + 192 ∧ b.toNat = u.toNat % 64 + 128) ∨
    (0x800 ≤ u.toNat ∧ ∃ a b c, unitOctets u = [a, b, c] ∧ a.toNat = u.toNat / 4096 + 224 ∧
      b.toNat = u.toNat / 64 % 64 + 128 ∧ c.toNat = u.toNat % 64 + 128) := by
  have bound := u.toNat_lt
  have six := toNat_shift u 6 (by decide)
  have twelve := toNat_shift u 12 (by decide)
  simp only [UInt16.reduceToNat, Nat.reducePow] at six twelve
  unfold unitOctets
  split
  · rename_i one
    have positive : 0 < u.toNat := Nat.pos_of_ne_zero fun zero => one.1 (UInt16.toNat_inj.mp zero)
    have small : u.toNat < 0x80 := UInt16.lt_iff_toNat_lt.mp one.2
    refine .inl ⟨positive, small, _, rfl, ?_⟩
    rw [UInt16.toNat_toUInt8]
    omega
  · rename_i several
    have several : u.toNat = 0 ∨ 0x80 ≤ u.toNat := by
      rcases not_and_or.mp several with zero | large
      · exact .inl (by rw [Classical.not_not.mp zero]; rfl)
      · exact .inr (UInt16.le_iff_toNat_le.mp (UInt16.not_lt.mp large))
    split
    · rename_i two
      have small : u.toNat < 0x800 := UInt16.lt_iff_toNat_lt.mp two
      refine .inr (.inl ⟨several, small, _, _, rfl, ?_, toNat_tail u⟩)
      have byte : (u >>> 6).toUInt8.toNat = u.toNat / 64 := by
        rw [UInt16.toNat_toUInt8, six]
        omega
      rw [UInt8.toNat_or, byte]
      exact or_eq_add 6 (by omega) (by decide)
    · rename_i three
      have large : 0x800 ≤ u.toNat := UInt16.le_iff_toNat_le.mp (UInt16.not_lt.mp three)
      have middle := toNat_tail (u >>> 6)
      rw [six] at middle
      refine .inr (.inr ⟨large, _, _, _, rfl, ?_, middle, toNat_tail u⟩)
      have byte : (u >>> 12).toUInt8.toNat = u.toNat / 4096 := by
        rw [UInt16.toNat_toUInt8, twelve]
        omega
      rw [UInt8.toNat_or, byte]
      exact or_eq_add 5 (by omega) (by decide)

theorem readUnits_unitOctets (u : UInt16) (rest : Octets) :
    readUnits (unitOctets u ++ rest) = (readUnits rest).map (u :: ·) := by
  have bound := u.toNat_lt
  have same : ∀ n, n = u.toNat → UInt16.ofNat n = u := by
    rintro n rfl
    exact UInt16.ofNat_toNat
  rcases unitOctets_forms u with ⟨positive, small, a, form, ha⟩ |
    ⟨several, small, a, b, form, ha, hb⟩ | ⟨large, a, b, c, form, ha, hb, hc⟩
  · rw [form, List.singleton_append, readUnits.eq_def]
    simp only [ha]
    rw [if_pos ⟨positive, small⟩, same _ rfl]
  · rw [form, List.cons_append, readUnits.eq_def]
    simp only [List.cons_append, List.nil_append, isTail, ha, hb]
    rw [if_neg (by omega), if_pos (by simp; omega), same _ (by omega)]
  · rw [form, List.cons_append, readUnits.eq_def]
    simp only [List.cons_append, List.nil_append, isTail, ha, hb, hc]
    rw [if_neg (by omega), if_neg (by simp; omega), if_pos (by simp; omega), same _ (by omega)]

theorem readUnits_flatMap (us : List UInt16) : readUnits (us.flatMap unitOctets) = some us := by
  induction us with
  | nil => rfl
  | cons u rest ih => rw [List.flatMap_cons, readUnits_unitOctets, ih, Option.map_some]

theorem joinUnits_units (c : Char) (rest : List UInt16) :
    joinUnits (units c ++ rest) = (joinUnits rest).map (c :: ·) := by
  have same : ∀ n, n = c.toNat → Char.ofNat n = c := by
    rintro n rfl
    exact Char.ofNat_toNat c
  have valid : c.toNat < 0xD800 ∨ 0xDFFF < c.toNat ∧ c.toNat < 0x110000 := c.valid
  unfold units
  split
  · rename_i one
    have small : c.toNat < 0x10000 := UInt32.lt_iff_toNat_lt.mp one
    have unit : c.val.toUInt16.toNat = c.toNat := by
      rw [UInt32.toNat_toUInt16]
      exact Nat.mod_eq_of_lt small
    rw [List.singleton_append, joinUnits.eq_def]
    simp only [isHigh, isLow, unit]
    rw [if_neg (by simp; omega), if_neg (by simp; omega), same _ rfl]
  · rename_i pair
    have large : 0x10000 ≤ c.toNat := UInt32.le_iff_toNat_le.mp (UInt32.not_lt.mp pair)
    have off : (c.val - 0x10000).toNat = c.toNat - 0x10000 := by
      rw [UInt32.toNat_sub_of_le _ _ (UInt32.not_lt.mp pair)]
      rfl
    have high : (((c.val - 0x10000) >>> 10).toUInt16 ||| 0xD800).toNat =
        (c.toNat - 0x10000) / 1024 + 0xD800 := by
      have unit : ((c.val - 0x10000) >>> 10).toUInt16.toNat = (c.toNat - 0x10000) / 1024 := by
        rw [UInt32.toNat_toUInt16, UInt32.toNat_shiftRight, off, Nat.shiftRight_eq_div_pow]
        simp only [UInt32.reduceToNat, Nat.reduceMod, Nat.reducePow]
        omega
      rw [UInt16.toNat_or, unit]
      exact or_eq_add 10 (by omega) (by decide)
    have low : (((c.val - 0x10000) &&& 0x3FF).toUInt16 ||| 0xDC00).toNat =
        (c.toNat - 0x10000) % 1024 + 0xDC00 := by
      have ten := Nat.and_two_pow_sub_one_eq_mod (c.toNat - 0x10000) 10
      have unit : ((c.val - 0x10000) &&& 0x3FF).toUInt16.toNat = (c.toNat - 0x10000) % 1024 := by
        rw [UInt32.toNat_toUInt16, UInt32.toNat_and, off]
        simp only [UInt32.reduceToNat, Nat.reducePow, Nat.reduceSub] at ten ⊢
        omega
      rw [UInt16.toNat_or, unit]
      exact or_eq_add 10 (by omega) (by decide)
    rw [List.cons_append, joinUnits.eq_def]
    simp only [List.cons_append, List.nil_append, isHigh, isLow, high, low]
    rw [if_pos (by simp; omega), if_pos (by simp; omega), same _ (by omega)]

theorem joinUnits_flatMap (cs : List Char) : joinUnits (cs.flatMap units) = some cs := by
  induction cs with
  | nil => rfl
  | cons c rest ih => rw [List.flatMap_cons, joinUnits_units, ih, Option.map_some]

theorem decode_encode (s : String) : decode (encode s) = some s := by
  rw [decode, encode, readUnits_flatMap, Option.bind_some, joinUnits_flatMap, Option.map_some,
    String.ofList_toList]

theorem length_unitOctets (u : UInt16) : (unitOctets u).length = unitLength u := by
  unfold unitLength
  simp only [← UInt16.toNat_inj, UInt16.lt_iff_toNat_lt, UInt16.reduceToNat]
  rcases unitOctets_forms u with ⟨positive, small, a, form, _⟩ |
    ⟨several, small, a, b, form, _⟩ | ⟨large, a, b, c, form, _⟩
  · rw [form, if_neg (by omega), if_pos small]
    rfl
  · rw [form]
    rcases several with zero | more
    · rw [if_pos zero]
      rfl
    · rw [if_neg (by omega), if_neg (by omega), if_pos small]
      rfl
  · rw [form, if_neg (by omega), if_neg (by omega), if_neg (by omega)]
    rfl

theorem length_encode (s : String) : (encode s).length = length s := by
  rw [encode, length]
  induction s.toList.flatMap units with
  | nil => rfl
  | cons u rest ih =>
    rw [List.flatMap_cons, List.length_append, length_unitOctets, ih, List.foldr_cons]

/-- No byte of a unit is zero, and none begins a form of four bytes. -/
theorem bounds_of_mem_unitOctets {u : UInt16} {x : UInt8} (member : x ∈ unitOctets u) :
    0 < x.toNat ∧ x.toNat < 0xF0 := by
  have bound := u.toNat_lt
  rcases unitOctets_forms u with ⟨positive, small, a, form, ha⟩ |
    ⟨several, small, a, b, form, ha, hb⟩ | ⟨large, a, b, c, form, ha, hb, hc⟩
  · rw [form, List.mem_singleton] at member
    rw [member]
    omega
  · rw [form] at member
    simp only [List.mem_cons, List.not_mem_nil, or_false] at member
    rcases member with rfl | rfl <;> omega
  · rw [form] at member
    simp only [List.mem_cons, List.not_mem_nil, or_false] at member
    rcases member with rfl | rfl | rfl <;> omega

theorem encode_injective : Function.Injective encode := by
  intro s t same
  have back := decode_encode s
  rw [same, decode_encode] at back
  exact (Option.some.inj back).symm

/-- The encoding loses nothing: it has as many bytes as are counted beforehand, none of them zero or
above those of the three forms, and its bytes are read as the text again. -/
theorem encode_lossless :
    (∀ s, (encode s).length = length s ∧ (∀ b ∈ encode s, b ≠ 0 ∧ b < 0xF0) ∧
      decode (encode s) = some s) ∧ Function.Injective encode := by
  refine ⟨fun s => ⟨length_encode s, fun b member => ?_, decode_encode s⟩, encode_injective⟩
  obtain ⟨u, _, inside⟩ := List.mem_flatMap.mp member
  obtain ⟨positive, small⟩ := bounds_of_mem_unitOctets inside
  refine ⟨fun zero => ?_, UInt8.lt_iff_toNat_lt.mpr small⟩
  rw [zero] at positive
  exact absurd positive (by decide)

/-- All forms in one text: the last character takes two units, and the second one is the zero. -/
theorem encode_lossless_mixed :
    encode "~\u0000é\u0800\uffff😀" = [0x7E, 0xC0, 0x80, 0xC3, 0xA9, 0xE0, 0xA0, 0x80, 0xEF, 0xBF,
      0xBF, 0xED, 0xA0, 0xBD, 0xED, 0xB8, 0x80] ∧ length "~\u0000é\u0800\uffff😀" = 17 ∧
    0xED ∈ encode "~\u0000é\u0800\uffff😀" ∧ (0xED : UInt8) ≠ 0 ∧ (0xED : UInt8) < 0xF0 ∧
    decode (encode "~\u0000é\u0800\uffff😀") = some "~\u0000é\u0800\uffff😀" := by
  have bytes : encode "~\u0000é\u0800\uffff😀" = [0x7E, 0xC0, 0x80, 0xC3, 0xA9, 0xE0, 0xA0, 0x80,
      0xEF, 0xBF, 0xBF, 0xED, 0xA0, 0xBD, 0xED, 0xB8, 0x80] := by decide
  have inside : 0xED ∈ encode "~\u0000é\u0800\uffff😀" := by
    rw [bytes]
    decide
  obtain ⟨size, clean, back⟩ := encode_lossless.1 "~\u0000é\u0800\uffff😀"
  rw [bytes] at size
  exact ⟨bytes, size.symm, inside, (clean _ inside).1, (clean _ inside).2, back⟩

end Bytecode.Modified
