import Invocation.Lib.Sha2
import Mathlib.Data.Fin.VecNotation
import Mathlib.Tactic.IntervalCases

/-!
# sha2.c

The SHA-256 of libUseful: a context with the hash value, the number of bits seen
and a buffer of one block. `SHA2_SHA256_Transform` keeps the sixteen latest words
of the message schedule in that same buffer, so between two calls the buffer
holds, behind the bytes that wait in it, whatever the last block left there.
-/

namespace Invocation

set_option autoImplicit false

namespace Sha256

open Sha2 (Byte Word State)

/-- `SHA2_SHA256_BLOCK_LENGTH` bytes of memory. -/
structure Block where
  bytes : List Byte
  length_bytes : bytes.length = 64
deriving DecidableEq

/-- The bytes of a number as a little-endian machine stores it. -/
def littleBytes {n : Nat} (w : BitVec n) : List Byte := (Sha2.bigBytes w).reverse

theorem length_littleBytes {n : Nat} (w : BitVec n) : (littleBytes w).length = n / 8 := by
  unfold littleBytes
  rw [List.length_reverse, Sha2.length_bigBytes]

namespace Block

def byteAt (b : Block) (i : Nat) : Byte := b.bytes.getD i 0

/-- `memcpy` to `&b[start]`, of bytes that fit there. -/
def copy (b : Block) (start : Nat) (data : List Byte) (h : start + data.length ≤ 64) : Block where
  bytes := b.bytes.take start ++ data ++ b.bytes.drop (start + data.length)
  length_bytes := by
    have hlen := b.length_bytes
    simp only [List.length_append, List.length_take, List.length_drop]
    omega

/-- The block as sixteen `sha2_word32` of a little-endian machine. -/
def word (b : Block) (j : Fin 16) : Word :=
  Sha2.bytesWord (b.byteAt (4 * j + 3)) (b.byteAt (4 * j + 2)) (b.byteAt (4 * j + 1))
    (b.byteAt (4 * j))

def setWord (b : Block) (j : Fin 16) (w : Word) : Block :=
  b.copy (4 * j) (littleBytes w) (by rw [length_littleBytes]; omega)

end Block

def reverse32 (w : Word) : Word :=
  let tmp := (w >>> 16) ||| (w <<< 16)
  ((tmp &&& 0xff00ff00) >>> 8) ||| ((tmp &&& 0x00ff00ff) <<< 8)

def reverse64 (w : BitVec 64) : BitVec 64 :=
  let tmp := (w >>> 32) ||| (w <<< 32)
  let tmp := ((tmp &&& 0xff00ff00ff00ff00) >>> 8) ||| ((tmp &&& 0x00ff00ff00ff00ff) <<< 8)
  ((tmp &&& 0xffff0000ffff0000) >>> 16) ||| ((tmp &&& 0x0000ffff0000ffff) <<< 16)

/-- A shift; the names of the two macros are exchanged in the source as well. -/
def r (b : Nat) (x : Word) : Word := x >>> b

def s32 (b : Nat) (x : Word) : Word := (x >>> b) ||| (x <<< (32 - b))

def ch (x y z : Word) : Word := (x &&& y) ^^^ (~~~x &&& z)

def maj (x y z : Word) : Word := (x &&& y) ^^^ (x &&& z) ^^^ (y &&& z)

def bigSigma0 (x : Word) : Word := s32 2 x ^^^ s32 13 x ^^^ s32 22 x

def bigSigma1 (x : Word) : Word := s32 6 x ^^^ s32 11 x ^^^ s32 25 x

def sigma0 (x : Word) : Word := s32 7 x ^^^ s32 18 x ^^^ r 3 x

def sigma1 (x : Word) : Word := s32 17 x ^^^ s32 19 x ^^^ r 10 x

def k256 : List Word :=
  [
    0x428a2f98, 0x71374491, 0xb5c0fbcf, 0xe9b5dba5, 0x3956c25b, 0x59f111f1,
    0x923f82a4, 0xab1c5ed5, 0xd807aa98, 0x12835b01, 0x243185be, 0x550c7dc3,
    0x72be5d74, 0x80deb1fe, 0x9bdc06a7, 0xc19bf174, 0xe49b69c1, 0xefbe4786,
    0x0fc19dc6, 0x240ca1cc, 0x2de92c6f, 0x4a7484aa, 0x5cb0a9dc, 0x76f988da,
    0x983e5152, 0xa831c66d, 0xb00327c8, 0xbf597fc7, 0xc6e00bf3, 0xd5a79147,
    0x06ca6351, 0x14292967, 0x27b70a85, 0x2e1b2138, 0x4d2c6dfc, 0x53380d13,
    0x650a7354, 0x766a0abb, 0x81c2c92e, 0x92722c85, 0xa2bfe8a1, 0xa81a664b,
    0xc24b8b70, 0xc76c51a3, 0xd192e819, 0xd6990624, 0xf40e3585, 0x106aa070,
    0x19a4c116, 0x1e376c08, 0x2748774c, 0x34b0bcb5, 0x391c0cb3, 0x4ed8aa4a,
    0x5b9cca4f, 0x682e6ff3, 0x748f82ee, 0x78a5636f, 0x84c87814, 0x8cc70208,
    0x90befffa, 0xa4506ceb, 0xbef9a3f7, 0xc67178f2]

def initialHashValue : State :=
  #v[
    0x6a09e667, 0xbb67ae85, 0x3c6ef372, 0xa54ff53a,
    0x510e527f, 0x9b05688c, 0x1f83d9ab, 0x5be0cd19]

@[ext]
structure Context where
  state : State
  bitcount : BitVec 64
  buffer : Block

/-- The local variables of `SHA2_SHA256_Transform`. -/
inductive Register
  | a | b | c | d | e | f | g | h
deriving DecidableEq

structure Registers where
  (a b c d e f g h : Word)
deriving DecidableEq

def Registers.get (v : Registers) : Register → Word
  | .a => v.a
  | .b => v.b
  | .c => v.c
  | .d => v.d
  | .e => v.e
  | .f => v.f
  | .g => v.g
  | .h => v.h

def Registers.set (v : Registers) (x : Register) (w : Word) : Registers :=
  match x with
  | .a => { v with a := w }
  | .b => { v with b := w }
  | .c => { v with c := w }
  | .d => { v with d := w }
  | .e => { v with e := w }
  | .f => { v with f := w }
  | .g => { v with g := w }
  | .h => { v with h := w }

structure Working where
  registers : Registers
  /-- `W256` -/
  buffer : Block
  j : Nat

/-- Where the data of a transform are: in the buffer of the context itself, or elsewhere. -/
inductive Source
  | buffer
  | data (block : Block)

def Source.word (source : Source) (buffer : Block) (j : Fin 16) : Word :=
  match source with
  | .buffer => buffer.word j
  | .data block => block.word j

/-- `j & 0x0f` -/
def slot (j : Nat) : Fin 16 := ⟨j % 16, Nat.mod_lt j (by decide)⟩

/-- The updates of `d` and `h` that end a round macro; the arguments of the macro are variables. -/
def roundMacro (args : Fin 8 → Register) (j : Nat) (w : Word) (v : Registers) : Registers :=
  let t1 := v.get (args 7) + bigSigma1 (v.get (args 4)) +
    ch (v.get (args 4)) (v.get (args 5)) (v.get (args 6)) + k256.getD j 0 + w
  let v := v.set (args 3) (v.get (args 3) + t1)
  v.set (args 7)
    (t1 + bigSigma0 (v.get (args 0)) + maj (v.get (args 0)) (v.get (args 1)) (v.get (args 2)))

/-- The same without `SHA2_UNROLL_TRANSFORM`: every variable moves on. -/
def roundShift (j : Nat) (w : Word) (v : Registers) : Registers :=
  let t1 := v.h + bigSigma1 v.e + ch v.e v.f v.g + k256.getD j 0 + w
  let t2 := bigSigma0 v.a + maj v.a v.b v.c
  { h := v.g, g := v.f, f := v.e, e := v.d + t1, d := v.c, c := v.b, b := v.a, a := t1 + t2 }

/-- `ROUND256_0_TO_15`: the next word of the data, in host order, goes into the buffer. -/
def round0To15 (source : Source) (step : Nat → Word → Registers → Registers) (s : Working) :
    Working :=
  let buffer := s.buffer.setWord (slot s.j) (reverse32 (source.word s.buffer (slot s.j)))
  { registers := step s.j (buffer.word (slot s.j)) s.registers, buffer := buffer, j := s.j + 1 }

/-- `ROUND256`: the oldest word in the buffer makes room for the next word of the schedule. -/
def round16To63 (step : Nat → Word → Registers → Registers) (s : Working) : Working :=
  let s0 := sigma0 (s.buffer.word (slot (s.j + 1)))
  let s1 := sigma1 (s.buffer.word (slot (s.j + 14)))
  let w := s.buffer.word (slot s.j) + (s1 + s.buffer.word (slot (s.j + 9)) + s0)
  { registers := step s.j w s.registers, buffer := s.buffer.setWord (slot s.j) w, j := s.j + 1 }

/-- Eight rounds, after which every variable is back in its place. -/
def eightRounds (round : (Nat → Word → Registers → Registers) → Working → Working)
    (s : Working) : Working :=
  let s := round (roundMacro ![.a, .b, .c, .d, .e, .f, .g, .h]) s
  let s := round (roundMacro ![.h, .a, .b, .c, .d, .e, .f, .g]) s
  let s := round (roundMacro ![.g, .h, .a, .b, .c, .d, .e, .f]) s
  let s := round (roundMacro ![.f, .g, .h, .a, .b, .c, .d, .e]) s
  let s := round (roundMacro ![.e, .f, .g, .h, .a, .b, .c, .d]) s
  let s := round (roundMacro ![.d, .e, .f, .g, .h, .a, .b, .c]) s
  let s := round (roundMacro ![.c, .d, .e, .f, .g, .h, .a, .b]) s
  round (roundMacro ![.b, .c, .d, .e, .f, .g, .h, .a]) s

/-- `do … while (j < bound)`; the body adds to `j`, so `bound` passes are enough. -/
def doWhile (body : Working → Working) (bound : Nat) : Nat → Working → Working
  | 0, s => s
  | fuel + 1, s => if (body s).j < bound then doWhile body bound fuel (body s) else body s

def loadState (state : State) : Registers where
  a := state.get 0
  b := state.get 1
  c := state.get 2
  d := state.get 3
  e := state.get 4
  f := state.get 5
  g := state.get 6
  h := state.get 7

def addState (state : State) (v : Registers) : State :=
  #v[state.get 0 + v.a, state.get 1 + v.b, state.get 2 + v.c, state.get 3 + v.d, state.get 4 + v.e,
    state.get 5 + v.f, state.get 6 + v.g, state.get 7 + v.h]

def transformLoops (first last : Working → Working) (context : Context) : Context :=
  let s := doWhile first 16 16 ⟨loadState context.state, context.buffer, 0⟩
  let s := doWhile last 64 64 s
  { context with
    state := addState context.state s.registers
    buffer := s.buffer }

/-- As the Makefile builds it, with `SHA2_UNROLL_TRANSFORM`. -/
def transform (context : Context) (source : Source) : Context :=
  transformLoops (eightRounds (round0To15 source)) (eightRounds round16To63) context

def transformPlain (context : Context) (source : Source) : Context :=
  transformLoops (round0To15 source roundShift) (round16To63 roundShift) context

theorem Block.byteAt_copy (b : Block) (start : Nat) (data : List Byte)
    (h : start + data.length ≤ 64) (i : Nat) :
    (b.copy start data h).byteAt i =
      if start ≤ i ∧ i < start + data.length then data.getD (i - start) 0 else b.byteAt i := by
  have hlen := b.length_bytes
  have htake : (b.bytes.take start).length = start := by rw [List.length_take]; omega
  unfold Block.byteAt Block.copy
  dsimp only
  rw [List.append_assoc]
  split
  · rename_i hi
    rw [List.getD_append_right _ _ _ _ (by omega), htake, List.getD_append _ _ _ _ (by omega)]
  · by_cases hlow : i < start
    · rw [List.getD_append _ _ _ _ (by omega)]
      simp only [List.getD_eq_getElem?_getD, List.getElem?_take, if_pos hlow]
    · rw [List.getD_append_right _ _ _ _ (by omega), htake,
        List.getD_append_right _ _ _ _ (by omega)]
      simp only [List.getD_eq_getElem?_getD, List.getElem?_drop]
      congr 2
      omega

theorem getD_littleBytes (w : Word) (i : Nat) (h : i < 4) :
    (littleBytes w).getD i 0 = w.extractLsb' (8 * i) 8 := by
  rcases i with _ | _ | _ | _ | i
  · rfl
  · rfl
  · rfl
  · rfl
  · omega

theorem bytesWord_extract (w : Word) :
    Sha2.bytesWord (w.extractLsb' 24 8) (w.extractLsb' 16 8) (w.extractLsb' 8 8)
      (w.extractLsb' 0 8) = w := by
  unfold Sha2.bytesWord
  apply BitVec.eq_of_getLsbD_eq
  intro i hi
  interval_cases i <;> simp

theorem Block.word_setWord (b : Block) (j k : Fin 16) (w : Word) :
    (b.setWord j w).word k = if k = j then w else b.word k := by
  have hlen : (littleBytes w).length = 4 := length_littleBytes w
  unfold Block.setWord Block.word
  simp only [Block.byteAt_copy, hlen]
  by_cases heq : k = j
  · subst heq
    have hbyte : ∀ i, i < 4 → (littleBytes w).getD (4 * k.val + i - 4 * k.val) 0 =
        w.extractLsb' (8 * i) 8 := by
      intro i hi
      rw [Nat.add_sub_cancel_left, getD_littleBytes w i hi]
    rw [if_pos rfl, if_pos (by omega), if_pos (by omega), if_pos (by omega), if_pos (by omega),
      hbyte 3 (by omega), hbyte 2 (by omega), hbyte 1 (by omega), Nat.sub_self,
      getD_littleBytes w 0 (by omega)]
    exact bytesWord_extract w
  · have hval : k.val ≠ j.val := fun hval => heq (Fin.ext hval)
    rw [if_neg heq, if_neg (by omega), if_neg (by omega), if_neg (by omega), if_neg (by omega)]

/-- Reading a word and reversing it reads the bytes in the order of the standard. -/
theorem reverse32_bytesWord (b0 b1 b2 b3 : Byte) :
    reverse32 (Sha2.bytesWord b3 b2 b1 b0) = Sha2.bytesWord b0 b1 b2 b3 := by
  unfold reverse32 Sha2.bytesWord
  apply BitVec.eq_of_getLsbD_eq
  intro i hi
  interval_cases i <;> simp

theorem extract_reverse32 (w : Word) (i : Nat) (h : i < 4) :
    (reverse32 w).extractLsb' (8 * i) 8 = w.extractLsb' (8 * (3 - i)) 8 := by
  unfold reverse32
  apply BitVec.eq_of_getLsbD_eq
  intro k hk
  interval_cases i <;> interval_cases k <;> simp

theorem extract_reverse64 (w : BitVec 64) (i : Nat) (h : i < 8) :
    (reverse64 w).extractLsb' (8 * i) 8 = w.extractLsb' (8 * (7 - i)) 8 := by
  unfold reverse64
  apply BitVec.eq_of_getLsbD_eq
  intro k hk
  interval_cases i <;> interval_cases k <;> simp

theorem littleBytes_reverse32 (w : Word) : littleBytes (reverse32 w) = Sha2.bigBytes w := by
  unfold littleBytes Sha2.bigBytes
  rw [← List.map_reverse, List.reverse_reverse]
  show [(reverse32 w).extractLsb' (8 * 0) 8, (reverse32 w).extractLsb' (8 * 1) 8,
    (reverse32 w).extractLsb' (8 * 2) 8, (reverse32 w).extractLsb' (8 * 3) 8] = _
  rw [extract_reverse32 w 0 (by omega), extract_reverse32 w 1 (by omega),
    extract_reverse32 w 2 (by omega), extract_reverse32 w 3 (by omega)]
  rfl

theorem littleBytes_reverse64 (w : BitVec 64) : littleBytes (reverse64 w) = Sha2.bigBytes w := by
  unfold littleBytes Sha2.bigBytes
  rw [← List.map_reverse, List.reverse_reverse]
  show [(reverse64 w).extractLsb' (8 * 0) 8, (reverse64 w).extractLsb' (8 * 1) 8,
    (reverse64 w).extractLsb' (8 * 2) 8, (reverse64 w).extractLsb' (8 * 3) 8,
    (reverse64 w).extractLsb' (8 * 4) 8, (reverse64 w).extractLsb' (8 * 5) 8,
    (reverse64 w).extractLsb' (8 * 6) 8, (reverse64 w).extractLsb' (8 * 7) 8] = _
  rw [extract_reverse64 w 0 (by omega), extract_reverse64 w 1 (by omega),
    extract_reverse64 w 2 (by omega), extract_reverse64 w 3 (by omega),
    extract_reverse64 w 4 (by omega), extract_reverse64 w 5 (by omega),
    extract_reverse64 w 6 (by omega), extract_reverse64 w 7 (by omega)]
  rfl

theorem s32_eq (b : Nat) (h : b < 32) (x : Word) : s32 b x = x.rotateRight b := by
  rw [BitVec.rotateRight_def, Nat.mod_eq_of_lt h]
  rfl

theorem bigSigma0_eq (x : Word) : bigSigma0 x = Sha2.bigSigma0 x := by
  unfold bigSigma0 Sha2.bigSigma0
  rw [s32_eq 2 (by omega), s32_eq 13 (by omega), s32_eq 22 (by omega)]

theorem bigSigma1_eq (x : Word) : bigSigma1 x = Sha2.bigSigma1 x := by
  unfold bigSigma1 Sha2.bigSigma1
  rw [s32_eq 6 (by omega), s32_eq 11 (by omega), s32_eq 25 (by omega)]

theorem sigma0_eq (x : Word) : sigma0 x = Sha2.smallSigma0 x := by
  unfold sigma0 Sha2.smallSigma0 r
  rw [s32_eq 7 (by omega), s32_eq 18 (by omega)]

theorem sigma1_eq (x : Word) : sigma1 x = Sha2.smallSigma1 x := by
  unfold sigma1 Sha2.smallSigma1 r
  rw [s32_eq 17 (by omega), s32_eq 19 (by omega)]

def constants (t : Nat) : Word := k256.getD t 0

/-- The variables in some order. -/
def Registers.view (v : Registers) (order : Fin 8 → Register) : State :=
  Vector.ofFn fun i => v.get (order i)

theorem Registers.getElem_view (v : Registers) (order : Fin 8 → Register) (i : Nat) (h : i < 8) :
    (v.view order)[i] = v.get (order ⟨i, h⟩) := Vector.getElem_ofFn h

theorem Registers.get_set (v : Registers) (x y : Register) (w : Word) :
    (v.set x w).get y = if y = x then w else v.get y := by
  cases x <;> cases y <;> rfl

def names : Fin 8 → Register := ![.a, .b, .c, .d, .e, .f, .g, .h]

/-- One step of the variables, read in one order before it and in another behind it, is a round. -/
def Turns (step : Nat → Word → Registers → Registers) (order order' : Fin 8 → Register) : Prop :=
  ∀ j w v, (step j w v).view order' = Sha2.round (constants j) w (v.view order)

theorem turns_roundShift : Turns roundShift names names := by
  intro j w v
  have ht1 : v.h + bigSigma1 v.e + ch v.e v.f v.g + k256.getD j 0 + w =
      Sha2.temp1 (constants j) w (v.view names) := by
    rw [bigSigma1_eq]
    rfl
  have ht2 : bigSigma0 v.a + maj v.a v.b v.c = Sha2.temp2 (v.view names) := by
    rw [bigSigma0_eq]
    rfl
  unfold roundShift
  rw [ht1, ht2]
  rfl

/-- The arguments of a macro and those of the next one. -/
theorem turns_roundMacro {args : Fin 8 → Register} (hargs : Function.Injective args) :
    Turns (roundMacro args) args
      ![args 7, args 0, args 1, args 2, args 3, args 4, args 5, args 6] := by
  intro j w v
  have hne : ∀ x y : Fin 8, x ≠ y → args x ≠ args y := fun x y hxy => hargs.ne hxy
  have ht1 : v.get (args 7) + bigSigma1 (v.get (args 4)) +
      ch (v.get (args 4)) (v.get (args 5)) (v.get (args 6)) + k256.getD j 0 + w =
      Sha2.temp1 (constants j) w (v.view args) := by
    rw [bigSigma1_eq]
    rfl
  have hother : ∀ x : Fin 8, x ≠ 3 → x ≠ 7 →
      (roundMacro args j w v).get (args x) = v.get (args x) := by
    intro x h3 h7
    unfold roundMacro
    rw [Registers.get_set, if_neg (hne x 7 h7), Registers.get_set, if_neg (hne x 3 h3)]
  have h3 : (roundMacro args j w v).get (args 3) =
      v.get (args 3) + Sha2.temp1 (constants j) w (v.view args) := by
    unfold roundMacro
    rw [Registers.get_set, if_neg (hne 3 7 (by decide)), Registers.get_set, if_pos rfl, ht1]
  have h7 : (roundMacro args j w v).get (args 7) =
      Sha2.temp1 (constants j) w (v.view args) + Sha2.temp2 (v.view args) := by
    unfold roundMacro
    rw [Registers.get_set, if_pos rfl, Registers.get_set, if_neg (hne 0 3 (by decide)),
      Registers.get_set, if_neg (hne 1 3 (by decide)), Registers.get_set,
      if_neg (hne 2 3 (by decide)), ht1, bigSigma0_eq, BitVec.add_assoc]
    rfl
  apply Vector.ext
  intro i hi
  rw [Registers.getElem_view]
  rcases i with _ | _ | _ | _ | _ | _ | _ | _ | i
  · exact h7
  · exact hother 0 (by decide) (by decide)
  · exact hother 1 (by decide) (by decide)
  · exact hother 2 (by decide) (by decide)
  · exact h3
  · exact hother 4 (by decide) (by decide)
  · exact hother 5 (by decide) (by decide)
  · exact hother 6 (by decide) (by decide)
  · omega

/-- After `n` rounds, with the variables in the given order and the latest words of the message
schedule in the buffer. -/
structure Follows (m : Fin 16 → Word) (init : State) (order : Fin 8 → Register) (n : Nat)
    (s : Working) : Prop where
  count : s.j = n
  registers : s.registers.view order = Sha2.rounds constants (Sha2.schedule m) init n
  recent : ∀ t, t < n → n ≤ t + 16 → s.buffer.word (slot t) = Sha2.schedule m t

/-- In the first rounds the words still to be fetched are those of the data. -/
structure Reading (source : Source) (m : Fin 16 → Word) (init : State) (order : Fin 8 → Register)
    (n : Nat) (s : Working) : Prop extends Follows m init order n s where
  ahead : ∀ t : Fin 16, n ≤ t → reverse32 (source.word s.buffer t) = m t

theorem slot_val (t : Fin 16) : slot t = t := Fin.ext (Nat.mod_eq_of_lt t.isLt)

theorem slot_ne {t n : Nat} (hlt : t < n) (hle : n < t + 16) : slot t ≠ slot n := by
  intro heq
  have hval : t % 16 = n % 16 := congrArg Fin.val heq
  omega

theorem slot_eq {t n : Nat} (h : t % 16 = n % 16) : slot t = slot n := Fin.ext h

theorem Follows.step {m : Fin 16 → Word} {init : State} {order order' : Fin 8 → Register}
    {n : Nat} {s : Working} {step : Nat → Word → Registers → Registers}
    (h : Follows m init order n s) (hstep : Turns step order order') :
    Follows m init order' (n + 1)
      { registers := step s.j (Sha2.schedule m n) s.registers
        buffer := s.buffer.setWord (slot n) (Sha2.schedule m n)
        j := s.j + 1 } where
  count := by rw [h.count]
  registers := by
    rw [Sha2.rounds, ← h.registers, ← hstep, h.count]
  recent := by
    intro t hlt hle
    rw [Block.word_setWord]
    by_cases heq : t = n
    · rw [heq, if_pos rfl]
    · rw [if_neg (slot_ne (by omega) (by omega)), h.recent t (by omega) (by omega)]

theorem round0To15_reading {source : Source} {m : Fin 16 → Word} {init : State}
    {order order' : Fin 8 → Register} {n : Nat} {s : Working}
    {step : Nat → Word → Registers → Registers} (hstep : Turns step order order') (hn : n + 1 ≤ 16)
    (h : Reading source m init order n s) :
    Reading source m init order' (n + 1) (round0To15 source step s) := by
  have hval := slot_val ⟨n, hn⟩
  have hfetch : reverse32 (source.word s.buffer (slot s.j)) = Sha2.schedule m n := by
    rw [h.count, hval, h.ahead ⟨n, hn⟩ (Nat.le_refl n)]
    exact (Sha2.schedule_input m ⟨n, hn⟩).symm
  have hround : round0To15 source step s =
      { registers := step s.j (Sha2.schedule m n) s.registers
        buffer := s.buffer.setWord (slot n) (Sha2.schedule m n)
        j := s.j + 1 } := by
    unfold round0To15
    dsimp only
    rw [hfetch, Block.word_setWord, if_pos rfl, h.count]
  rw [hround]
  refine ⟨h.toFollows.step hstep, ?_⟩
  intro t ht
  rw [← h.ahead t (by omega)]
  cases source with
  | data block => rfl
  | buffer =>
    have hne : t ≠ slot n := by
      rw [hval]
      intro heq
      rw [heq] at ht
      exact Nat.not_succ_le_self n ht
    show reverse32 ((s.buffer.setWord (slot n) _).word t) = reverse32 (s.buffer.word t)
    rw [Block.word_setWord, if_neg hne]

theorem round16To63_follows {m : Fin 16 → Word} {init : State}
    {order order' : Fin 8 → Register} {n : Nat} {s : Working}
    {step : Nat → Word → Registers → Registers} (hstep : Turns step order order') (hn : 16 ≤ n)
    (h : Follows m init order n s) :
    Follows m init order' (n + 1) (round16To63 step s) := by
  have hpast : ∀ i, i < 16 → s.buffer.word (slot (s.j + i)) = Sha2.schedule m (n - (16 - i)) := by
    intro i hi
    rw [h.count, ← h.recent (n - (16 - i)) (by omega) (by omega)]
    exact congrArg s.buffer.word (slot_eq (by omega))
  have hold : s.buffer.word (slot s.j) = Sha2.schedule m (n - 16) := hpast 0 (by decide)
  have hnext : s.buffer.word (slot s.j) + (sigma1 (s.buffer.word (slot (s.j + 14))) +
      s.buffer.word (slot (s.j + 9)) + sigma0 (s.buffer.word (slot (s.j + 1)))) =
      Sha2.schedule m n := by
    rw [hold, hpast 1 (by decide), hpast 9 (by decide), hpast 14 (by decide), sigma0_eq, sigma1_eq,
      Sha2.schedule_step m hn, BitVec.add_comm]
  have hround : round16To63 step s =
      { registers := step s.j (Sha2.schedule m n) s.registers
        buffer := s.buffer.setWord (slot n) (Sha2.schedule m n)
        j := s.j + 1 } := by
    unfold round16To63
    dsimp only
    rw [hnext, h.count]
  rw [hround]
  exact h.step hstep

/-- Eight macros bring every variable back to its place. -/
theorem eightRounds_keeps {P : (Fin 8 → Register) → Nat → Working → Prop} {low high : Nat}
    {round : (Nat → Word → Registers → Registers) → Working → Working}
    (hround : ∀ {step order order' n s}, Turns step order order' → low ≤ n → n + 1 ≤ high →
      P order n s → P order' (n + 1) (round step s))
    {n : Nat} {s : Working} (hlow : low ≤ n) (hhigh : n + 8 ≤ high) (h : P names n s) :
    P names (n + 8) (eightRounds round s) := by
  have hnames : Function.Injective names := by decide
  have h1 := hround (turns_roundMacro hnames) (by omega) (by omega) h
  have h2 := hround (turns_roundMacro (by decide)) (by omega) (by omega) h1
  have h3 := hround (turns_roundMacro (by decide)) (by omega) (by omega) h2
  have h4 := hround (turns_roundMacro (by decide)) (by omega) (by omega) h3
  have h5 := hround (turns_roundMacro (by decide)) (by omega) (by omega) h4
  have h6 := hround (turns_roundMacro (by decide)) (by omega) (by omega) h5
  have h7 := hround (turns_roundMacro (by decide)) (by omega) (by omega) h6
  exact hround (turns_roundMacro (by decide)) (by omega) (by omega) h7

theorem doWhile_reaches {P : Nat → Working → Prop} {body : Working → Working} {low k : Nat}
    (bound : Nat) (hcount : ∀ {n s}, P n s → s.j = n) (hk : 0 < k)
    (hbody : ∀ {n s}, low ≤ n → n + k ≤ bound → P n s → P (n + k) (body s)) (rest fuel n : Nat)
    {s : Working} (hlow : low ≤ n) (hrest : n + k * (rest + 1) = bound) (hfuel : rest < fuel)
    (h : P n s) :
    P bound (doWhile body bound fuel s) := by
  induction rest generalizing fuel n s with
  | zero =>
    obtain ⟨fuel, rfl⟩ := Nat.exists_eq_succ_of_ne_zero (Nat.ne_of_gt hfuel)
    have hn : n + k = bound := by omega
    have hnext := hbody hlow (Nat.le_of_eq hn) h
    rw [hn] at hnext
    unfold doWhile
    rw [if_neg (by rw [hcount hnext]; exact Nat.lt_irrefl bound)]
    exact hnext
  | succ rest ih =>
    obtain ⟨fuel, rfl⟩ := Nat.exists_eq_succ_of_ne_zero (Nat.ne_of_gt (Nat.zero_lt_of_lt hfuel))
    rw [Nat.mul_succ, Nat.mul_succ] at hrest
    have hnext := hbody hlow (by omega) h
    unfold doWhile
    rw [if_pos (by rw [hcount hnext]; omega)]
    apply ih fuel (n + k) (by omega) _ (by omega) hnext
    rw [Nat.mul_succ]
    omega

theorem addState_view (state : State) (v : Registers) :
    addState state v = Vector.zipWith (· + ·) state (v.view names) := by
  apply Vector.ext
  intro i hi
  rw [Vector.getElem_zipWith, Registers.getElem_view]
  rcases i with _ | _ | _ | _ | _ | _ | _ | _ | i
  all_goals first | rfl | omega

def Source.block (source : Source) (buffer : Block) : Block :=
  match source with
  | .buffer => buffer
  | .data block => block

theorem start_reading (context : Context) (source : Source) :
    Reading source (Sha2.blockWords (source.block context.buffer).bytes) context.state names 0
      ⟨loadState context.state, context.buffer, 0⟩ where
  count := rfl
  registers := by
    apply Vector.ext
    intro i hi
    rw [Registers.getElem_view]
    rcases i with _ | _ | _ | _ | _ | _ | _ | _ | i
    all_goals first | rfl | omega
  recent := fun t hlt _ => absurd hlt (Nat.not_lt_zero t)
  ahead := by
    intro t _
    cases source with
    | buffer => exact reverse32_bytesWord _ _ _ _
    | data block => exact reverse32_bytesWord _ _ _ _

/-- Both loops together are the 64 rounds over one block. -/
theorem transformLoops_compress {first last : Working → Working} {source : Source} {k : Nat}
    (hk : 0 < k) (h16 : k ∣ 16) (h48 : k ∣ 48)
    (hfirst : ∀ {m init n s}, 0 ≤ n → n + k ≤ 16 → Reading source m init names n s →
      Reading source m init names (n + k) (first s))
    (hlast : ∀ {m init n s}, 16 ≤ n → n + k ≤ 64 → Follows m init names n s →
      Follows m init names (n + k) (last s))
    (context : Context) :
    (transformLoops first last context).state =
        Sha2.compress constants context.state (source.block context.buffer).bytes ∧
      ∀ t, t < 64 → 48 ≤ t → (transformLoops first last context).buffer.word (slot t) =
        Sha2.schedule (Sha2.blockWords (source.block context.buffer).bytes) t := by
  have hrest : ∀ n, 0 < n → n ≤ 48 → k ∣ n → k * (n / k - 1 + 1) = n ∧ n / k - 1 < n := by
    intro n hpos _ hdvd
    have hdiv : 0 < n / k := Nat.div_pos (Nat.le_of_dvd hpos hdvd) hk
    have hle : n / k ≤ n := Nat.div_le_self n k
    refine ⟨?_, by omega⟩
    rw [Nat.sub_add_cancel hdiv, Nat.mul_div_cancel' hdvd]
  have hread := doWhile_reaches 16
    (P := Reading source (Sha2.blockWords (source.block context.buffer).bytes) context.state names)
    (fun h => h.count) hk hfirst (16 / k - 1) 16 0 (Nat.le_refl 0)
    (by rw [(hrest 16 (by decide) (by decide) h16).1])
    (hrest 16 (by decide) (by decide) h16).2 (start_reading context source)
  have hall := doWhile_reaches 64
    (P := Follows (Sha2.blockWords (source.block context.buffer).bytes) context.state names)
    (fun h => h.count) hk hlast (48 / k - 1) 64 16 (Nat.le_refl 16)
    (by rw [(hrest 48 (by decide) (by decide) h48).1])
    (Nat.lt_of_lt_of_le (hrest 48 (by decide) (by decide) h48).2 (by decide)) hread.toFollows
  constructor
  · unfold Sha2.compress
    rw [← hall.registers]
    exact addState_view context.state _
  · intro t hlt hle
    exact hall.recent t hlt (by omega)

theorem transform_loops (context : Context) (source : Source) :
    (transform context source).state =
        Sha2.compress constants context.state (source.block context.buffer).bytes ∧
      ∀ t, t < 64 → 48 ≤ t → (transform context source).buffer.word (slot t) =
        Sha2.schedule (Sha2.blockWords (source.block context.buffer).bytes) t := by
  unfold transform
  apply transformLoops_compress (k := 8) (by decide) (by decide) (by decide)
  · intro m init n s hlow hhigh h
    exact eightRounds_keeps (fun hstep _ hn h => round0To15_reading hstep hn h) hlow hhigh h
  · intro m init n s hlow hhigh h
    exact eightRounds_keeps (fun hstep hn _ h => round16To63_follows hstep hn h) hlow hhigh h

theorem transformPlain_loops (context : Context) (source : Source) :
    (transformPlain context source).state =
        Sha2.compress constants context.state (source.block context.buffer).bytes ∧
      ∀ t, t < 64 → 48 ≤ t → (transformPlain context source).buffer.word (slot t) =
        Sha2.schedule (Sha2.blockWords (source.block context.buffer).bytes) t := by
  unfold transformPlain
  apply transformLoops_compress (k := 1) (by decide) (by decide) (by decide)
  · intro m init n s _ hhigh h
    exact round0To15_reading turns_roundShift hhigh h
  · intro m init n s hlow _ h
    exact round16To63_follows turns_roundShift hlow h

theorem extract_bytesWord (b0 b1 b2 b3 : Byte) (i : Nat) (h : i < 4) :
    (Sha2.bytesWord b3 b2 b1 b0).extractLsb' (8 * i) 8 = [b0, b1, b2, b3].getD i 0 := by
  unfold Sha2.bytesWord
  rcases i with _ | _ | _ | _ | i
  · ext k hk
    interval_cases k <;> simp
  · ext k hk
    interval_cases k <;> simp
  · ext k hk
    interval_cases k <;> simp
  · ext k hk
    interval_cases k <;> simp
  · omega

/-- The words of a block are the block. -/
theorem Block.ext_word {b c : Block} (h : ∀ j, b.word j = c.word j) : b = c := by
  have hbyte : ∀ i, i < 64 → b.byteAt i = c.byteAt i := by
    intro i hi
    have hword := congrArg (fun w => BitVec.extractLsb' (8 * (i % 4)) 8 w) (h ⟨i / 4, by omega⟩)
    unfold Block.word at hword
    simp only [extract_bytesWord _ _ _ _ _ (Nat.mod_lt i (by decide))] at hword
    have hcases : i % 4 = 0 ∨ i % 4 = 1 ∨ i % 4 = 2 ∨ i % 4 = 3 := by omega
    have hi : i = 4 * (i / 4) + i % 4 := by omega
    rcases hcases with hk | hk | hk | hk
    · rw [hk] at hword hi
      rw [hi]
      exact hword
    · rw [hk] at hword hi
      rw [hi]
      exact hword
    · rw [hk] at hword hi
      rw [hi]
      exact hword
    · rw [hk] at hword hi
      rw [hi]
      exact hword
  obtain ⟨bytes, hlen⟩ := b
  obtain ⟨bytes', hlen'⟩ := c
  congr 1
  apply List.ext_getElem (hlen.trans hlen'.symm)
  intro i hi hi'
  have heq := hbyte i (by omega)
  unfold Block.byteAt at heq
  rw [List.getD_eq_getElem _ _ hi, List.getD_eq_getElem _ _ hi'] at heq
  exact heq

/-- The unrolled loops, with their renamed variables, and the plain ones do the same: one
compression of the block, which may lie in the very buffer the message schedule overwrites. -/
theorem transform_unrolled (context : Context) (source : Source) :
    transform context source = transformPlain context source ∧
      (transform context source).state =
        Sha2.compress constants context.state (source.block context.buffer).bytes := by
  obtain ⟨hstate, hwords⟩ := transform_loops context source
  obtain ⟨hplain, hwords'⟩ := transformPlain_loops context source
  have hbuffer : (transform context source).buffer = (transformPlain context source).buffer := by
    apply Block.ext_word
    intro j
    have hslot : slot (48 + j) = j := Fin.ext (by
      show (48 + j.val) % 16 = j.val
      omega)
    have h1 := hwords (48 + j) (by omega) (by omega)
    have h2 := hwords' (48 + j) (by omega) (by omega)
    rw [hslot] at h1 h2
    rw [h1, h2]
  refine ⟨?_, hstate⟩
  exact Context.ext (hstate.trans hplain.symm) rfl hbuffer

end Sha256
end Invocation
