import Invocation.AppDB
import Invocation.Lib.Sha2
import Mathlib.Tactic.IntervalCases

/-!
# base64.c

`Radix64frombits` and `Radix64tobits`. The decoder looks digits up in an array it
never clears, so `none` stands for the digits it refuses and for those whose value
is whatever the memory held.
-/

namespace Invocation

set_option autoImplicit false

namespace Base64

open Sha2 (Byte)

section Radix64

variable (digits : Str) (pad : Char)

def digit (n : Byte) : Char := digits.getD n.toNat pad

def radix64frombits : List Byte → Str
  | a :: b :: c :: rest =>
    digit digits pad (a >>> 2) :: digit digits pad (((a <<< 4) &&& 0x30#8) ||| (b >>> 4)) ::
      digit digits pad (((b <<< 2) &&& 0x3c#8) ||| (c >>> 6)) :: digit digits pad (c &&& 0x3f#8) ::
      radix64frombits rest
  | [a, b] =>
    [digit digits pad (a >>> 2), digit digits pad (((a <<< 4) &&& 0x30#8) ||| (b >>> 4)),
      digit digits pad ((b <<< 2) &&& 0x3c#8), pad]
  | [a] => [digit digits pad (a >>> 2), digit digits pad ((a <<< 4) &&& 0x30#8), pad, pad]
  | [] => []

/-- `base64vals[c]` -/
def decode64 (c : Char) : Option Byte :=
  if c ∈ digits then some (BitVec.ofNat 8 (digits.idxOf c)) else none

/-- The two digits that may be missing at the end. -/
def decodePadded (c : Char) : Option (Option Byte) :=
  if c = pad then some none else (decode64 digits c).map some

/-- The bytes of one group of digits. -/
def groupBytes (v1 v2 : Byte) : Option Byte → Option Byte → List Byte
  | none, _ => [(v1 <<< 2) ||| (v2 >>> 4)]
  | some v3, none => [(v1 <<< 2) ||| (v2 >>> 4), ((v2 <<< 4) &&& 0xf0#8) ||| (v3 >>> 2)]
  | some v3, some v4 =>
    [(v1 <<< 2) ||| (v2 >>> 4), ((v2 <<< 4) &&& 0xf0#8) ||| (v3 >>> 2),
      ((v3 <<< 6) &&& 0xc0#8) ||| v4]

def decodeGroup (c1 c2 c3 c4 : Char) : Option (List Byte) :=
  match decode64 digits c1, decode64 digits c2, decodePadded digits pad c3,
    decodePadded digits pad c4 with
  | some v1, some v2, some v3, some v4 => some (groupBytes v1 v2 v3 v4)
  | _, _, _, _ => none

/-- The loop of `Radix64tobits`; what it reads behind the end is no digit. -/
def tobitsLoop : Str → Option (List Byte)
  | c1 :: c2 :: c3 :: c4 :: rest =>
    match decodeGroup digits pad c1 c2 c3 c4 with
    | none => none
    | some bytes =>
      if rest = [] ∨ rest.head? = some '\r' ∨ c4 = pad then some bytes
      else (tobitsLoop rest).map (bytes ++ ·)
  | _ => none

def radix64tobits (text : Str) : Option (List Byte) :=
  let text := if text.take 2 = "+ ".toList then text.drop 2 else text
  if text.head? = some '\r' then some [] else tobitsLoop digits pad text

variable {digits : Str} {pad : Char}

theorem small_shift (a : Byte) : (a >>> 2).toNat < 64 := by
  rw [BitVec.toNat_ushiftRight, Nat.shiftRight_eq_div_pow]
  omega

theorem small_mask {v m : Byte} (h : m.toNat < 64) : (v &&& m).toNat < 64 := by
  rw [BitVec.toNat_and]
  exact Nat.lt_of_le_of_lt Nat.and_le_right h

theorem small_or {v w : Byte} (hv : v.toNat < 64) (hw : w.toNat < 64) : (v ||| w).toNat < 64 := by
  rw [BitVec.toNat_or]
  exact Nat.or_lt_two_pow (n := 6) hv hw

theorem small_second (a b : Byte) : (((a <<< 4) &&& 0x30#8) ||| (b >>> 4)).toNat < 64 := by
  apply small_or (small_mask (by decide))
  rw [BitVec.toNat_ushiftRight, Nat.shiftRight_eq_div_pow]
  omega

theorem small_third (b c : Byte) : (((b <<< 2) &&& 0x3c#8) ||| (c >>> 6)).toNat < 64 := by
  apply small_or (small_mask (by decide))
  rw [BitVec.toNat_ushiftRight, Nat.shiftRight_eq_div_pow]
  omega

variable (hlen : digits.length = 64) (hnodup : digits.Nodup) (hpad : pad ∉ digits)

include hlen in
theorem digit_mem {n : Byte} (h : n.toNat < 64) : digit digits pad n ∈ digits := by
  unfold digit
  rw [List.getD_eq_getElem _ _ (by omega)]
  exact List.getElem_mem _

include hlen hnodup in
theorem decode64_digit {n : Byte} (h : n.toNat < 64) :
    decode64 digits (digit digits pad n) = some n := by
  unfold decode64
  rw [if_pos (digit_mem hlen h)]
  unfold digit
  rw [List.getD_eq_getElem _ _ (by omega), List.Nodup.idxOf_getElem hnodup]
  simp

include hlen hnodup hpad in
theorem decodePadded_digit {n : Byte} (h : n.toNat < 64) :
    decodePadded digits pad (digit digits pad n) = some (some n) := by
  have hne : digit digits pad n ≠ pad := fun heq => hpad (heq ▸ digit_mem hlen h)
  unfold decodePadded
  rw [if_neg hne, decode64_digit hlen hnodup h]
  rfl

theorem decodePadded_pad : decodePadded digits pad pad = some none := by
  unfold decodePadded
  rw [if_pos rfl]

/-- Each of the three bytes of a group is put together again. -/
theorem first_byte (a b : Byte) :
    ((a >>> 2) <<< 2) ||| ((((a <<< 4) &&& 0x30#8) ||| (b >>> 4)) >>> 4) = a := by
  apply BitVec.eq_of_getLsbD_eq
  intro i hi
  interval_cases i <;> simp

theorem second_byte (a b c : Byte) :
    (((((a <<< 4) &&& 0x30#8) ||| (b >>> 4)) <<< 4) &&& 0xf0#8) |||
      ((((b <<< 2) &&& 0x3c#8) ||| (c >>> 6)) >>> 2) = b := by
  apply BitVec.eq_of_getLsbD_eq
  intro i hi
  interval_cases i <;> simp

theorem third_byte (b c : Byte) :
    (((((b <<< 2) &&& 0x3c#8) ||| (c >>> 6)) <<< 6) &&& 0xc0#8) ||| (c &&& 0x3f#8) = c := by
  apply BitVec.eq_of_getLsbD_eq
  intro i hi
  interval_cases i <;> simp

include hlen in
theorem mem_radix64frombits (m : List Byte) {c : Char} (hc : c ∈ radix64frombits digits pad m) :
    c ∈ digits ∨ c = pad := by
  induction m using radix64frombits.induct with
  | case1 a b c' rest ih =>
    rw [radix64frombits] at hc
    simp only [List.mem_cons] at hc
    rcases hc with rfl | rfl | rfl | rfl | hc
    · exact .inl (digit_mem hlen (small_shift a))
    · exact .inl (digit_mem hlen (small_second a b))
    · exact .inl (digit_mem hlen (small_third b c'))
    · exact .inl (digit_mem hlen (small_mask (by decide)))
    · exact ih hc
  | case2 a b =>
    rw [radix64frombits] at hc
    simp only [List.mem_cons, List.not_mem_nil, or_false] at hc
    rcases hc with rfl | rfl | rfl | rfl
    · exact .inl (digit_mem hlen (small_shift a))
    · exact .inl (digit_mem hlen (small_second a b))
    · exact .inl (digit_mem hlen (small_mask (by decide)))
    · exact .inr rfl
  | case3 a =>
    rw [radix64frombits] at hc
    simp only [List.mem_cons, List.not_mem_nil, or_false] at hc
    rcases hc with rfl | rfl | rfl | rfl
    · exact .inl (digit_mem hlen (small_shift a))
    · exact .inl (digit_mem hlen (small_mask (by decide)))
    · exact .inr rfl
    · exact .inr rfl
  | case4 => cases hc

theorem radix64frombits_ne_nil {m : List Byte} (h : m ≠ []) :
    radix64frombits digits pad m ≠ [] := by
  induction m using radix64frombits.induct with
  | case1 a b c rest ih =>
    rw [radix64frombits]
    exact List.cons_ne_nil _ _
  | case2 a b => exact List.cons_ne_nil _ _
  | case3 a => exact List.cons_ne_nil _ _
  | case4 => exact absurd rfl h

include hlen hnodup hpad in
theorem tobitsLoop_radix64frombits (hreturn : '\r' ∉ digits) (hpr : pad ≠ '\r') {m : List Byte}
    (h : m ≠ []) : tobitsLoop digits pad (radix64frombits digits pad m) = some m := by
  have hgroup : ∀ {v1 v2 : Byte} {c3 c4 : Char} {v3 v4 : Option Byte}, v1.toNat < 64 →
      v2.toNat < 64 → decodePadded digits pad c3 = some v3 → decodePadded digits pad c4 = some v4 →
      decodeGroup digits pad (digit digits pad v1) (digit digits pad v2) c3 c4 =
        some (groupBytes v1 v2 v3 v4) := by
    intro v1 v2 c3 c4 v3 v4 h1 h2 h3 h4
    unfold decodeGroup
    rw [decode64_digit hlen hnodup h1, decode64_digit hlen hnodup h2, h3, h4]
  induction m using radix64frombits.induct with
  | case1 a b c rest ih =>
    have hfourth : (c &&& 0x3f#8).toNat < 64 := small_mask (by decide)
    have hbytes : groupBytes (a >>> 2) (((a <<< 4) &&& 0x30#8) ||| (b >>> 4))
        (some (((b <<< 2) &&& 0x3c#8) ||| (c >>> 6))) (some (c &&& 0x3f#8)) = [a, b, c] := by
      rw [groupBytes, first_byte, second_byte, third_byte]
    have hne : digit digits pad (c &&& 0x3f#8) ≠ pad :=
      fun heq => hpad (heq ▸ digit_mem hlen hfourth)
    rw [radix64frombits, tobitsLoop, hgroup (small_shift a) (small_second a b)
      (decodePadded_digit hlen hnodup hpad (small_third b c))
      (decodePadded_digit hlen hnodup hpad hfourth), hbytes]
    by_cases hrest : rest = []
    · subst hrest
      rfl
    · have hhead : (radix64frombits digits pad rest).head? ≠ some '\r' := by
        intro heq
        rcases mem_radix64frombits hlen rest (List.mem_of_head? heq) with hmem | heq
        · exact hreturn hmem
        · exact hpr heq.symm
      have hcond : ¬ (radix64frombits digits pad rest = [] ∨
          (radix64frombits digits pad rest).head? = some '\r' ∨
          digit digits pad (c &&& 0x3f#8) = pad) := by
        rintro (hnil | hcr | heq)
        · exact radix64frombits_ne_nil hrest hnil
        · exact hhead hcr
        · exact hne heq
      dsimp only
      rw [if_neg hcond, ih hrest]
      rfl
  | case2 a b =>
    have hthird : ((b <<< 2) &&& 0x3c#8).toNat < 64 := small_mask (by decide)
    have hzero : ((b <<< 2) &&& 0x3c#8) = ((b <<< 2) &&& 0x3c#8) ||| (0#8 >>> 6) := by
      simp
    have hbytes : groupBytes (a >>> 2) (((a <<< 4) &&& 0x30#8) ||| (b >>> 4))
        (some ((b <<< 2) &&& 0x3c#8)) none = [a, b] := by
      rw [hzero, groupBytes, first_byte, second_byte]
    rw [radix64frombits, tobitsLoop, hgroup (small_shift a) (small_second a b)
      (decodePadded_digit hlen hnodup hpad hthird) decodePadded_pad, hbytes]
    rfl
  | case3 a =>
    have hsecond : ((a <<< 4) &&& 0x30#8).toNat < 64 := small_mask (by decide)
    have hzero : ((a <<< 4) &&& 0x30#8) = ((a <<< 4) &&& 0x30#8) ||| (0#8 >>> 4) := by
      simp
    have hbytes : groupBytes (a >>> 2) ((a <<< 4) &&& 0x30#8) none none = [a] := by
      rw [hzero, groupBytes, first_byte]
    rw [radix64frombits, tobitsLoop, hgroup (small_shift a) hsecond decodePadded_pad
      decodePadded_pad, hbytes]
    rfl
  | case4 => exact absurd rfl h

include hlen hnodup hpad in
/-- What is encoded is decoded again, with any alphabet that has neither the padding nor the two
characters the decoder takes for something else. -/
theorem radix64tobits_radix64frombits (hreturn : '\r' ∉ digits) (hblank : ' ' ∉ digits)
    (hpr : pad ≠ '\r') (hpb : pad ≠ ' ') {m : List Byte} (h : m ≠ []) :
    radix64tobits digits pad (radix64frombits digits pad m) = some m := by
  have hmem : ∀ c ∈ radix64frombits digits pad m, c ≠ '\r' ∧ c ≠ ' ' := by
    intro c hc
    rcases mem_radix64frombits hlen m hc with hmem | rfl
    · exact ⟨fun heq => hreturn (heq ▸ hmem), fun heq => hblank (heq ▸ hmem)⟩
    · exact ⟨hpr, hpb⟩
  have hplus : (radix64frombits digits pad m).take 2 ≠ "+ ".toList := by
    intro heq
    have hc : ' ' ∈ (radix64frombits digits pad m).take 2 := by
      rw [heq]
      decide
    exact (hmem ' ' (List.mem_of_mem_take hc)).2 rfl
  have hhead : (radix64frombits digits pad m).head? ≠ some '\r' :=
    fun heq => (hmem '\r' (List.mem_of_head? heq)).1 rfl
  unfold radix64tobits
  dsimp only
  rw [if_neg hplus, if_neg hhead]
  exact tobitsLoop_radix64frombits hlen hnodup hpad hreturn hpr h

end Radix64

def base64Chars : Str :=
  "ABCDEFGHIJKLMNOPQRSTUVWXYZabcdefghijklmnopqrstuvwxyz0123456789+/".toList

def to64frombits (m : List Byte) : Str := radix64frombits base64Chars '=' m

def from64tobits (text : Str) : Option (List Byte) := radix64tobits base64Chars '=' text

theorem base64Chars_facts : base64Chars.length = 64 ∧ base64Chars.Nodup ∧ '=' ∉ base64Chars ∧
    '\r' ∉ base64Chars ∧ ' ' ∉ base64Chars ∧ ∀ c ∈ base64Chars, base64Char c = true := by
  decide +kernel

theorem from64tobits_to64frombits {m : List Byte} (h : m ≠ []) :
    from64tobits (to64frombits m) = some m := by
  obtain ⟨hlen, hnodup, hpad, hreturn, hblank, _⟩ := base64Chars_facts
  exact radix64tobits_radix64frombits hlen hnodup hpad hreturn hblank (by decide) (by decide) h

theorem to64frombits_base64 (m : List Byte) : ∀ c ∈ to64frombits m, base64Char c = true := by
  intro c hc
  obtain ⟨hlen, _, _, _, _, hchars⟩ := base64Chars_facts
  rcases mem_radix64frombits hlen m hc with hmem | rfl
  · exact hchars c hmem
  · decide

end Base64

end Invocation
