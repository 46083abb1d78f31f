import Invocation.Sha256

/-!
# Hashing in pieces

`SHA2_SHA256_Update` and `SHA2_SHA256_Final`. The invariant says what the context
holds after a message; it speaks of the bytes that wait in the buffer only, since
behind them there is what the last transform left.
-/

namespace Invocation

set_option autoImplicit false

namespace Sha256

open Sha2 (Byte Word State)
open BlockHash (Absorbed)

def init : Context where
  state := initialHashValue
  bitcount := 0
  buffer := ⟨List.replicate 64 0, List.length_replicate⟩

/-- `(context->bitcount >> 3) % SHA2_SHA256_BLOCK_LENGTH` -/
def usedSpace (context : Context) : Nat := (context.bitcount >>> 3).toNat % 64

theorem usedSpace_lt (context : Context) : usedSpace context < 64 := Nat.mod_lt _ (by decide)

/-- `n << 3`, added to the number of bits. -/
def Context.count (context : Context) (n : Nat) : Context :=
  { context with bitcount := context.bitcount + BitVec.ofNat 64 (n <<< 3) }

/-- `memcpy` into the buffer of the context. -/
def Context.store (context : Context) (start : Nat) (data : List Byte)
    (h : start + data.length ≤ 64) : Context :=
  { context with buffer := context.buffer.copy start data h }

/-- The loop over the blocks that are complete in the data, and the left-overs. -/
def updateBlocks (context : Context) (data : List Byte) : Context :=
  if h : 64 ≤ data.length then
    updateBlocks ((transform context (.data ⟨data.take 64, List.length_take_of_le h⟩)).count 64)
      (data.drop 64)
  else if data = [] then context
  else (context.store 0 data (by omega)).count data.length
termination_by data.length
decreasing_by
  rw [List.length_drop]
  omega

def update (context : Context) (data : List Byte) : Context :=
  let used := usedSpace context
  have hused : used < 64 := usedSpace_lt context
  if data = [] then context
  else if used = 0 then updateBlocks context data
  else if h : 64 - used ≤ data.length then
    let filled := context.store used (data.take (64 - used)) (by rw [List.length_take]; omega)
    updateBlocks (transform (filled.count (64 - used)) .buffer) (data.drop (64 - used))
  else (context.store used data (by omega)).count data.length

def zeros (n : Nat) : List Byte := List.replicate n 0

/-- What is left of the buffer is set to zero, if anything is left. -/
def fillUp (context : Context) (used : Nat) (h : used ≤ 64) : Context :=
  if used < 64 then context.store used (zeros (64 - used)) (by simp [zeros]; omega) else context

/-- The padding of `SHA2_SHA256_Final` up to the number of bits. -/
def pad (context : Context) : Context :=
  let used := usedSpace context
  have hused : used < 64 := usedSpace_lt context
  if used = 0 then
    (context.store 0 (zeros 56) (by simp [zeros])).store 0 [0x80#8] (by simp)
  else
    let context := context.store used [0x80#8] (by simp; omega)
    let used := used + 1
    if used ≤ 56 then context.store used (zeros (56 - used)) (by simp [zeros]; omega)
    else (transform (fillUp context used hused) .buffer).store 0 (zeros 56) (by simp [zeros])

def final (context : Context) : List Byte :=
  let bitcount := reverse64 context.bitcount
  let context := (pad context).store 56 (littleBytes bitcount) (by rw [length_littleBytes])
  let context := transform context .buffer
  context.state.toList.flatMap fun w => littleBytes (reverse32 w)

theorem length_zeros (n : Nat) : (zeros n).length = n := List.length_replicate

theorem zeros_append (n k : Nat) : zeros n ++ zeros k = zeros (n + k) := by
  unfold zeros
  rw [List.replicate_append_replicate]

theorem Block.take_copy (b : Block) {start n : Nat} {data : List Byte}
    (h : start + data.length ≤ 64) (hn : start + data.length = n) :
    (b.copy start data h).bytes.take n = b.bytes.take start ++ data := by
  subst hn
  have hlen := b.length_bytes
  have hall : (b.bytes.take start ++ data).length = start + data.length := by
    rw [List.length_append, List.length_take]
    omega
  show (b.bytes.take start ++ data ++ b.bytes.drop (start + data.length)).take _ = _
  exact List.take_left' hall

theorem Block.take_all (b : Block) : b.bytes.take 64 = b.bytes := by
  have hlen := b.length_bytes
  exact List.take_of_length_le (Nat.le_of_eq hlen)

theorem Block.length_take (b : Block) {n : Nat} (h : n ≤ 64) : (b.bytes.take n).length = n := by
  have hlen := b.length_bytes
  rw [List.length_take]
  omega

theorem transform_state (context : Context) (source : Source) :
    (transform context source).state =
      Sha2.compress constants context.state (source.block context.buffer).bytes :=
  (transform_loops context source).1

theorem Context.store_buffer (context : Context) (start : Nat) (data : List Byte)
    (h : start + data.length ≤ 64) :
    (context.store start data h).buffer = context.buffer.copy start data h := rfl

theorem Context.store_state (context : Context) (start : Nat) (data : List Byte)
    (h : start + data.length ≤ 64) : (context.store start data h).state = context.state := rfl

/-- After the message `m`, the last bytes of which wait in the first `used` places. -/
def Waiting (m : List Byte) (context : Context) (used : Nat) : Prop :=
  Absorbed (Sha2.compress constants) 64 initialHashValue m context.state
    (context.buffer.bytes.take used)

theorem Waiting.used {m : List Byte} {context : Context} {used : Nat} (h : Waiting m context used)
    (hle : used ≤ 64) : m.length % 64 = used := by
  rw [h.length_tail, context.buffer.length_take hle]

theorem Waiting.count {m : List Byte} {context : Context} {used : Nat}
    (h : Waiting m context used) (n : Nat) : Waiting m (context.count n) used := h

theorem Waiting.store {m : List Byte} {context : Context} {used n : Nat}
    (h : Waiting m context used) (data : List Byte) (hn : used + data.length = n) (hfit : n < 64)
    (hle : used + data.length ≤ 64) : Waiting (m ++ data) (context.store used data hle) n := by
  unfold Waiting
  rw [Context.store_buffer, Context.store_state, context.buffer.take_copy hle hn]
  apply Absorbed.wait h
  rw [List.length_append, context.buffer.length_take (by omega)]
  omega

/-- A block that is full is compressed. -/
theorem Waiting.compress {m : List Byte} {context full : Context} {used : Nat}
    (h : Waiting m context used) {data : List Byte} (hstate : full.state = context.state)
    (hbytes : full.buffer.bytes = context.buffer.bytes.take used ++ data) :
    Waiting (m ++ data) (transform full .buffer) 0 := by
  unfold Waiting
  rw [transform_state, Source.block, hstate, hbytes]
  apply Absorbed.fill h
  rw [← hbytes, full.buffer.length_bytes]

theorem Waiting.fill {m : List Byte} {context : Context} {used : Nat}
    (h : Waiting m context used) (data : List Byte) (hfull : used + data.length = 64)
    (hle : used + data.length ≤ 64) :
    Waiting (m ++ data) (transform (context.store used data hle) .buffer) 0 := by
  apply h.compress (context.store_state used data hle)
  rw [Context.store_buffer, ← context.buffer.take_copy hle hfull, Block.take_all]

/-- A block of the data is compressed where it is. -/
theorem Waiting.block {m : List Byte} {context : Context} (h : Waiting m context 0) (b : Block) :
    Waiting (m ++ b.bytes) (transform context (.data b)) 0 := by
  unfold Waiting
  rw [transform_state]
  exact Absorbed.fill h b.length_bytes

/-- What a context holds after the message `m`. -/
structure Represents (m : List Byte) (context : Context) : Prop where
  bitcount : context.bitcount = BitVec.ofNat 64 (8 * m.length)
  waiting : Waiting m context (m.length % 64)

theorem init_represents : Represents [] init where
  bitcount := rfl
  waiting := Absorbed.start (by decide)

theorem usedSpace_eq {m : List Byte} {context : Context} (h : Represents m context) :
    usedSpace context = m.length % 64 := by
  unfold usedSpace
  rw [h.bitcount, BitVec.toNat_ushiftRight, BitVec.toNat_ofNat, Nat.shiftRight_eq_div_pow]
  omega

theorem bitcount_count {m data : List Byte} {context : Context} {n : Nat}
    (h : context.bitcount = BitVec.ofNat 64 (8 * m.length)) (hn : data.length = n) :
    (context.count n).bitcount = BitVec.ofNat 64 (8 * (m ++ data).length) := by
  show context.bitcount + BitVec.ofNat 64 (n <<< 3) = _
  rw [h, ← BitVec.ofNat_add, List.length_append, hn, Nat.shiftLeft_eq, Nat.mul_add, Nat.mul_comm n]

theorem Waiting.represents {m : List Byte} {context : Context} {used : Nat}
    (h : Waiting m context used) (hle : used ≤ 64)
    (hbits : context.bitcount = BitVec.ofNat 64 (8 * m.length)) : Represents m context := by
  rw [← h.used hle] at h
  exact ⟨hbits, h⟩

theorem updateBlocks_represents {m : List Byte} {context : Context} (h : Waiting m context 0)
    (hbits : context.bitcount = BitVec.ofNat 64 (8 * m.length)) (data : List Byte) :
    Represents (m ++ data) (updateBlocks context data) := by
  induction context, data using updateBlocks.induct generalizing m with
  | case1 context data hlong ih =>
    have htake : (data.take 64).length = 64 := List.length_take_of_le hlong
    have hblock := (h.block ⟨data.take 64, htake⟩).count 64
    have hrest := ih hblock (bitcount_count hbits htake)
    rw [List.append_assoc, List.take_append_drop] at hrest
    rw [updateBlocks, dif_pos hlong]
    exact hrest
  | case2 context hlong =>
    rw [updateBlocks, dif_neg hlong, if_pos rfl, List.append_nil]
    exact h.represents (Nat.zero_le 64) hbits
  | case3 context data hlong hne =>
    rw [updateBlocks, dif_neg hlong, if_neg hne]
    have hstore := h.store data (Nat.zero_add _) (by omega) (by omega)
    exact (hstore.count data.length).represents (by omega) (bitcount_count hbits rfl)

/-- Updating with more of the message. -/
theorem update_represents {m : List Byte} {context : Context} (h : Represents m context)
    (data : List Byte) : Represents (m ++ data) (update context data) := by
  have hlt := usedSpace_lt context
  have hwait := h.waiting
  rw [← usedSpace_eq h] at hwait
  unfold update
  by_cases hnil : data = []
  · rw [if_pos hnil, hnil, List.append_nil]
    exact h
  · rw [if_neg hnil]
    by_cases hempty : usedSpace context = 0
    · rw [hempty] at hwait
      rw [if_pos hempty]
      exact updateBlocks_represents hwait h.bitcount data
    · rw [if_neg hempty]
      by_cases hlong : 64 - usedSpace context ≤ data.length
      · have htake : (data.take (64 - usedSpace context)).length = 64 - usedSpace context :=
          List.length_take_of_le hlong
        have hfill := (hwait.fill (data.take (64 - usedSpace context)) (by omega)
          (by omega)).count (64 - usedSpace context)
        have hrest := updateBlocks_represents hfill (bitcount_count h.bitcount htake)
          (data.drop (64 - usedSpace context))
        rw [List.append_assoc, List.take_append_drop] at hrest
        rw [dif_pos hlong]
        exact hrest
      · rw [dif_neg hlong]
        have hstore := hwait.store data rfl (by omega) (by omega)
        exact (hstore.count data.length).represents (by omega) (bitcount_count h.bitcount rfl)

/-- The zeros are written first where nothing waits, then the one bit in front of them. -/
theorem zerosThenOne (b : Block) {hz : 0 + (zeros 56).length ≤ 64}
    {ho : 0 + [0x80#8].length ≤ 64} :
    ((b.copy 0 (zeros 56) hz).copy 0 [0x80#8] ho).bytes.take 56 = 0x80#8 :: zeros 55 := by
  have hzeros := b.take_copy (n := 56) hz (by rw [length_zeros])
  show (0x80#8 :: (b.copy 0 (zeros 56) hz).bytes.drop 1).take 56 = _
  rw [List.take_succ_cons, List.take_drop, hzeros]
  rfl

theorem fillUp_bytes (context : Context) {used : Nat} (h : used ≤ 64) :
    (fillUp context used h).state = context.state ∧
      (fillUp context used h).buffer.bytes = context.buffer.bytes.take used ++
        zeros (64 - used) := by
  unfold fillUp
  by_cases hlt : used < 64
  · have hfull : used + (zeros (64 - used)).length = 64 := by
      rw [length_zeros]
      omega
    rw [if_pos hlt]
    refine ⟨rfl, ?_⟩
    rw [Context.store_buffer, ← context.buffer.take_copy (Nat.le_of_eq hfull) hfull, Block.take_all]
  · have hall : used = 64 := by omega
    subst hall
    rw [if_neg hlt, Block.take_all]
    exact ⟨rfl, (List.append_nil _).symm⟩

/-- The padding without the number of bits leaves room for it in the buffer. -/
theorem pad_waiting {m : List Byte} {context : Context} (h : Represents m context) :
    Waiting (m ++ 0x80#8 :: zeros ((119 - m.length % 64) % 64)) (pad context) 56 := by
  have hlt := usedSpace_lt context
  have hwait := h.waiting
  rw [← usedSpace_eq h] at hwait ⊢
  unfold pad
  by_cases hempty : usedSpace context = 0
  · rw [hempty] at hwait
    rw [if_pos hempty, hempty]
    unfold Waiting
    rw [Context.store_buffer, Context.store_buffer, zerosThenOne]
    apply Absorbed.wait hwait
    rw [List.take_zero]
    decide
  · have hone : usedSpace context + [0x80#8].length ≤ 64 := hlt
    rw [if_neg hempty]
    by_cases hshort : usedSpace context + 1 ≤ 56
    · have hlen : usedSpace context + 1 + (zeros (56 - (usedSpace context + 1))).length = 56 := by
        rw [length_zeros]
        omega
      have hstore := hwait.store [0x80#8] (n := usedSpace context + 1) rfl (by omega) hone
      have hzeros := hstore.store _ hlen (by decide) (by rw [hlen]; decide)
      rw [List.append_assoc, List.singleton_append] at hzeros
      rw [if_pos hshort, show (119 - usedSpace context) % 64 =
        56 - (usedSpace context + 1) by omega]
      exact hzeros
    · have hroom : usedSpace context + 1 ≤ 64 := hlt
      obtain ⟨hstate, hbytes⟩ := fillUp_bytes
        (context.store (usedSpace context) [0x80#8] hone) hroom
      rw [Context.store_buffer, context.buffer.take_copy hone (n := usedSpace context + 1) rfl,
        List.append_assoc] at hbytes
      have hlast := (hwait.compress hstate hbytes).store (zeros 56) (n := 56)
        (by rw [length_zeros]) (by decide) (by rw [length_zeros]; decide)
      have hzeros : [0x80#8] ++ zeros (64 - (usedSpace context + 1)) ++ zeros 56 =
          0x80#8 :: zeros ((119 - usedSpace context) % 64) := by
        rw [List.append_assoc, zeros_append, List.singleton_append]
        congr 2
        omega
      rw [List.append_assoc, hzeros] at hlast
      rw [if_neg hshort]
      exact hlast

def sha256 (m : List Byte) : List Byte := Sha2.digest constants initialHashValue m

theorem final_eq {m : List Byte} {context : Context} (h : Represents m context) :
    final context = sha256 m := by
  have hlen : 56 + (littleBytes (reverse64 context.bitcount)).length = 64 := by
    rw [length_littleBytes]
  have hall := Absorbed.complete ((pad_waiting h).fill _ hlen (Nat.le_of_eq hlen))
  rw [List.append_assoc] at hall
  have hpadding : 0x80#8 :: zeros ((119 - m.length % 64) % 64) ++
      littleBytes (reverse64 context.bitcount) = Sha2.padding m.length := by
    rw [littleBytes_reverse64, h.bitcount]
    rfl
  unfold final sha256 Sha2.digest
  rw [← hpadding, hall]
  simp only [littleBytes_reverse32]

theorem constants_roots : ∀ t : Fin 64, ∃ whole : Fin 8,
    (whole.val * 2 ^ 32 + (constants t).toNat) ^ 3 ≤ Sha2.primes.getD t 0 * 2 ^ (32 * 3) ∧
      Sha2.primes.getD t 0 * 2 ^ (32 * 3) <
        (whole.val * 2 ^ 32 + (constants t).toNat + 1) ^ 3 := by
  decide +kernel

theorem initialHashValue_roots : ∀ i : Fin 8, ∃ whole : Fin 8,
    (whole.val * 2 ^ 32 + (initialHashValue.get i).toNat) ^ 2 ≤
      Sha2.primes.getD i 0 * 2 ^ (32 * 2) ∧
      Sha2.primes.getD i 0 * 2 ^ (32 * 2) <
        (whole.val * 2 ^ 32 + (initialHashValue.get i).toNat + 1) ^ 2 := by
  decide +kernel

/-- A message hashed in pieces, as `HashUpdateSHA256` and `HashFinishSHA256` do it. -/
def hashPieces (pieces : List (List Byte)) : List Byte := final (pieces.foldl update init)

theorem foldl_represents (pieces : List (List Byte)) {m : List Byte} {context : Context}
    (h : Represents m context) :
    Represents (m ++ pieces.flatten) (pieces.foldl update context) := by
  induction pieces generalizing m context with
  | nil =>
    rw [List.flatten_nil, List.append_nil]
    exact h
  | cons data pieces ih =>
    rw [List.flatten_cons, ← List.append_assoc]
    exact ih (update_represents h data)

/-- The tables of the source hold the constants of the standard. -/
theorem sha256_isSha256 : Sha2.IsSha256 sha256 := by
  refine ⟨constants, initialHashValue, ?_, ?_, fun _ => rfl⟩
  · intro t ht
    obtain ⟨whole, hroot⟩ := constants_roots ⟨t, ht⟩
    rw [Sha2.nth_prime t ht]
    exact ⟨whole, hroot⟩
  · intro i
    obtain ⟨whole, hroot⟩ := initialHashValue_roots i
    rw [Sha2.nth_prime i (by omega)]
    exact ⟨whole, hroot⟩

/-- However a message is cut into pieces, the digest is SHA-256 of the whole. -/
theorem hashPieces_sha256 :
    ∃ hash, Sha2.IsSha256 hash ∧
      ∀ pieces : List (List Byte), hashPieces pieces = hash pieces.flatten :=
  ⟨sha256, sha256_isSha256, fun pieces => final_eq (foldl_represents pieces init_represents)⟩

example : hashPieces [[0x61], [0x62, 0x63]] =
    [0xba, 0x78, 0x16, 0xbf, 0x8f, 0x01, 0xcf, 0xea, 0x41, 0x41, 0x40, 0xde, 0x5d, 0xae, 0x22, 0x23,
      0xb0, 0x03, 0x61, 0xa3, 0x96, 0x17, 0x7a, 0x9c, 0xb4, 0x10, 0xff, 0x61, 0xf2, 0x00, 0x15,
      0xad] := by
  decide +kernel

end Sha256

end Invocation
