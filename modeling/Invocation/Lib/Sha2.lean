import Mathlib.Data.Nat.Nth
import Mathlib.Data.Nat.Prime.Nth
import Mathlib.Data.Nat.PrimeFin
import Invocation.Lib.BlockHash

/-!
# SHA-256

The hash as FIPS 180 defines it: the functions on words, the message schedule,
the 64 rounds over a block of 64 bytes, and the padding. The constants are the
leading bits of the fractional parts of roots of the first primes.
-/

set_option autoImplicit false

namespace Sha2

abbrev Byte := BitVec 8

abbrev Word := BitVec 32

/-- The eight working variables, `a` first. -/
abbrev State := Vector Word 8

def ch (x y z : Word) : Word := (x &&& y) ^^^ (~~~x &&& z)

def maj (x y z : Word) : Word := (x &&& y) ^^^ (x &&& z) ^^^ (y &&& z)

def bigSigma0 (x : Word) : Word := x.rotateRight 2 ^^^ x.rotateRight 13 ^^^ x.rotateRight 22

def bigSigma1 (x : Word) : Word := x.rotateRight 6 ^^^ x.rotateRight 11 ^^^ x.rotateRight 25

def smallSigma0 (x : Word) : Word := x.rotateRight 7 ^^^ x.rotateRight 18 ^^^ (x >>> 3)

def smallSigma1 (x : Word) : Word := x.rotateRight 17 ^^^ x.rotateRight 19 ^^^ (x >>> 10)

/-- The message schedule of a block of sixteen words. -/
def schedule (m : Fin 16 → Word) (t : Nat) : Word :=
  if h : t < 16 then m ⟨t, h⟩
  else smallSigma1 (schedule m (t - 2)) + schedule m (t - 7) + smallSigma0 (schedule m (t - 15)) +
    schedule m (t - 16)

theorem schedule_input (m : Fin 16 → Word) (t : Fin 16) : schedule m t = m t := by
  rw [schedule, dif_pos t.isLt]

theorem schedule_step (m : Fin 16 → Word) {t : Nat} (h : 16 ≤ t) :
    schedule m t = smallSigma1 (schedule m (t - 2)) + schedule m (t - 7) +
      smallSigma0 (schedule m (t - 15)) + schedule m (t - 16) := by
  rw [schedule, dif_neg (by omega)]

def temp1 (k w : Word) (s : State) : Word :=
  s[7] + bigSigma1 s[4] + ch s[4] s[5] s[6] + k + w

def temp2 (s : State) : Word := bigSigma0 s[0] + maj s[0] s[1] s[2]

def round (k w : Word) (s : State) : State :=
  #v[temp1 k w s + temp2 s, s[0], s[1], s[2], s[3] + temp1 k w s, s[4], s[5], s[6]]

def rounds (k w : Nat → Word) (s : State) : Nat → State
  | 0 => s
  | n + 1 => round (k n) (w n) (rounds k w s n)

def bytesWord (b0 b1 b2 b3 : Byte) : Word :=
  (b0.setWidth 32 <<< 24) ||| (b1.setWidth 32 <<< 16) ||| (b2.setWidth 32 <<< 8) ||| b3.setWidth 32

def blockWords (block : List Byte) (t : Fin 16) : Word :=
  bytesWord (block.getD (4 * t) 0) (block.getD (4 * t + 1) 0) (block.getD (4 * t + 2) 0)
    (block.getD (4 * t + 3) 0)

def compress (k : Nat → Word) (s : State) (block : List Byte) : State :=
  Vector.zipWith (· + ·) s (rounds k (schedule (blockWords block)) s 64)

/-- The bytes of a number, the one of most weight first. -/
def bigBytes {n : Nat} (w : BitVec n) : List Byte :=
  (List.range (n / 8)).reverse.map fun i => w.extractLsb' (8 * i) 8

/-- A one bit, zeros up to the last eight bytes of a block, and the length in bits. -/
def padding (length : Nat) : List Byte :=
  0x80#8 :: List.replicate ((119 - length % 64) % 64) 0#8 ++ bigBytes (BitVec.ofNat 64 (8 * length))

def digest (k : Nat → Word) (init : State) (m : List Byte) : List Byte :=
  (BlockHash.absorb (compress k) 64 init (m ++ padding m.length)).toList.flatMap bigBytes

theorem length_bigBytes {n : Nat} (w : BitVec n) : (bigBytes w).length = n / 8 := by
  unfold bigBytes
  rw [List.length_map, List.length_reverse, List.length_range]

theorem length_digest (k : Nat → Word) (init : State) (m : List Byte) :
    (digest k init m).length = 32 := by
  unfold digest
  rw [List.length_flatMap, List.map_congr_left (fun w _ => length_bigBytes w), List.map_const',
    Vector.length_toList]
  decide

/-- `w` are the first 32 bits behind the point of the `e`-th root of `p`. -/
def RootBits (e p : Nat) (w : Word) : Prop :=
  ∃ whole, (whole * 2 ^ 32 + w.toNat) ^ e ≤ p * 2 ^ (32 * e) ∧
    p * 2 ^ (32 * e) < (whole * 2 ^ 32 + w.toNat + 1) ^ e

/-- The first 64 primes. -/
def primes : List Nat :=
  [2, 3, 5, 7, 11, 13, 17, 19, 23, 29, 31, 37, 41, 43, 47, 53, 59, 61, 67, 71, 73, 79, 83, 89, 97,
    101, 103, 107, 109, 113, 127, 131, 137, 139, 149, 151, 157, 163, 167, 173, 179, 181, 191, 193,
    197, 199, 211, 223, 227, 229, 233, 239, 241, 251, 257, 263, 269, 271, 277, 281, 283, 293, 307,
    311]

theorem nth_prime_next {t p q : Nat} (hp : Nat.nth Nat.Prime t = p) (hq : q.Prime) (hlt : p < q)
    (hgap : ∀ x, p < x → x < q → ¬ x.Prime) : Nat.nth Nat.Prime (t + 1) = q := by
  have hprime : p.Prime := hp ▸ Nat.nth_mem_of_infinite Nat.infinite_setOfPred_prime t
  have hcount : Nat.count Nat.Prime p = t := by
    rw [← hp, Nat.count_nth_of_infinite Nat.infinite_setOfPred_prime]
  have hsame : ∀ x, p + 1 ≤ x → x ≤ q → Nat.count Nat.Prime x = t + 1 := by
    intro x hx
    induction x, hx using Nat.le_induction with
    | base =>
      intro _
      rw [Nat.count_succ, if_pos hprime, hcount]
    | succ x hx ih =>
      intro hle
      rw [Nat.count_succ, if_neg (hgap x hx hle), ih (Nat.le_of_succ_le hle)]
  rw [← hsame q hlt (Nat.le_refl q), Nat.nth_count hq]

/-- Below 324 a number without a divisor below 18 is prime. -/
theorem prime_of_small {q : Nat} (htwo : 2 ≤ q) (hsmall : q < 324)
    (h : ∀ d, d < 18 → 2 ≤ d → d < q → q % d ≠ 0) : q.Prime := by
  rw [Nat.prime_def_le_sqrt]
  refine ⟨htwo, fun m hm hle hdvd => ?_⟩
  have hroot : Nat.sqrt q < 18 := Nat.sqrt_lt'.mpr hsmall
  have hlt : m < q := Nat.lt_of_le_of_lt hle (Nat.sqrt_lt_self htwo)
  exact h m (by omega) hm hlt (Nat.mod_eq_zero_of_dvd hdvd)

theorem primes_gap : ∀ t : Fin 63, primes.getD t 0 < primes.getD (t + 1) 0 ∧
    primes.getD (t + 1) 0 < 324 ∧
    (∀ d, d < 18 → 2 ≤ d → d < primes.getD (t + 1) 0 → primes.getD (t + 1) 0 % d ≠ 0) ∧
    ∀ i, i < primes.getD (t + 1) 0 - primes.getD t 0 - 1 → ∃ d, d < 18 ∧ 2 ≤ d ∧
      d < primes.getD t 0 + 1 + i ∧ (primes.getD t 0 + 1 + i) % d = 0 := by
  decide +kernel

theorem nth_prime (t : Nat) (h : t < 64) : Nat.nth Nat.Prime t = primes.getD t 0 := by
  induction t with
  | zero => exact Nat.nth_prime_zero_eq_two
  | succ t ih =>
    obtain ⟨hlt, hsmall, hq, hgap⟩ := primes_gap ⟨t, by omega⟩
    dsimp only at hlt hsmall hq hgap
    have hp := ih (by omega)
    have hprime : (primes.getD t 0).Prime :=
      hp ▸ Nat.nth_mem_of_infinite Nat.infinite_setOfPred_prime t
    have htwo : 2 ≤ primes.getD (t + 1) 0 := Nat.le_of_lt (Nat.lt_of_le_of_lt hprime.two_le hlt)
    apply nth_prime_next hp (prime_of_small htwo hsmall hq) hlt
    intro x hlow hhigh
    obtain ⟨d, _, htwo, hdlt, hmod⟩ := hgap (x - primes.getD t 0 - 1) (by omega)
    rw [show primes.getD t 0 + 1 + (x - primes.getD t 0 - 1) = x by omega] at hdlt hmod
    exact Nat.not_prime_of_dvd_of_lt (Nat.dvd_of_mod_eq_zero hmod) htwo hdlt

/-- A function on messages is SHA-256 if it hashes with the constants of the standard. -/
def IsSha256 (hash : List Byte → List Byte) : Prop :=
  ∃ (k : Nat → Word) (init : State),
    (∀ t, t < 64 → RootBits 3 (Nat.nth Nat.Prime t) (k t)) ∧
    (∀ i : Fin 8, RootBits 2 (Nat.nth Nat.Prime i) (init.get i)) ∧
    ∀ m, hash m = digest k init m

end Sha2
