import Invocation.Lib.Blocks
import Invocation.Lib.SlotCache
import Invocation.Text

/-!
# Strings whose lengths are remembered

The strings of the library lie in blocks that `SetStrLen` moves about, and the
lengths of long ones are kept in twenty slots, under their addresses.
-/

namespace Invocation

set_option autoImplicit false

namespace StrLenCache

open Blocks SlotCache

abbrev NUL : Char := '\x00'

/-- `StrLenCacheMinLen`. -/
def minLen : Nat := 100

structure Memory where
  heap : Heap Char
  cache : Slots Nat Nat

/-- What the allocator and `rand` answer. -/
structure Choice where
  addr : Nat
  junk : Nat → Char
  slot : Nat

def Memory.store (m : Memory) (a : Nat) (b : Str) : Memory :=
  { m with heap := Blocks.store m.heap a b }

def strLenCacheDel (m : Memory) (a : Nat) : Memory := { m with cache := remove a m.cache }

def strLenCacheAdd (c : Choice) (m : Memory) (a len : Nat) : Memory :=
  { m with cache := put a len (minLen < len) (c.slot % m.cache.length) m.cache }

def strLenFromCache (m : Memory) (p : Option Nat) : Except Fault Nat :=
  match p with
  | none => .ok 0
  | some a => do
    let b ← load m.heap a
    match b with
    | [] => .error .outside
    | first :: _ =>
      if first = NUL then .ok 0
      else
        match lookup a m.cache with
        | some len => .ok len
        | none => strlen NUL b

def setStrLen (c : Choice) (m : Memory) (p : Option Nat) (len : Nat) :
    Except Fault (Memory × Nat) := do
  let cache := match p with
    | none => m.cache
    | some a => (strLenCacheDel m a).cache
  let heap ← match p with
    | none => allot NUL m.heap c.addr (len + 8)
    | some a => move m.heap a c.addr c.junk (len + 8)
  let moved : Memory := ⟨heap, cache⟩
  .ok (if minLen < len then strLenCacheAdd c moved c.addr len else moved, c.addr)

/-- A string that is only read: no pointer, a literal, or a block. -/
inductive Source where
  | null
  | literal (s : Str)
  | block (a : Nat)
deriving DecidableEq

/-- The bytes before the NUL. -/
def Source.read (m : Memory) : Source → Except Fault Str
  | null => .ok []
  | literal s => .ok (text NUL s)
  | block a => do
    let b ← load m.heap a
    let len ← strlen NUL b
    .ok (b.take len)

/-- `StrLen`, which looks at no cache. -/
def Source.strLen (m : Memory) (src : Source) : Except Fault Nat := do
  let s ← src.read m
  .ok s.length

def catStrLen (c : Choice) (m : Memory) (dest : Option Nat) (src : Source) (len : Nat) :
    Except Fault (Memory × Nat) := do
  let dstlen ← strLenFromCache m dest
  let moved ← setStrLen c m dest (dstlen + len)
  let s ← src.read moved.1
  let b ← load moved.1.heap moved.2
  let b' ← write b dstlen (s.take len ++ [NUL])
  .ok (moved.1.store moved.2 b', moved.2)

def catStr (c : Choice) (m : Memory) (dest : Option Nat) (src : Source) :
    Except Fault (Memory × Nat) := do
  let len ← src.strLen m
  catStrLen c m dest src len

/-- `*Dest=0`. -/
def cutAt (m : Memory) (a i : Nat) : Except Fault Memory := do
  let b ← load m.heap a
  let b' ← write b i [NUL]
  .ok (m.store a b')

def clear (m : Memory) (dest : Option Nat) : Except Fault Memory :=
  match dest with
  | none => .ok m
  | some a => cutAt m a 0

def copyStr (c : Choice) (m : Memory) (dest : Option Nat) (src : Source) :
    Except Fault (Memory × Nat) := do
  let m' ← clear m dest
  catStr c m' dest src

/-- `SetStrLen` and `memcpy` for one piece. -/
def appendPiece (c : Choice) (m : Memory) (a len : Nat) (src : Source) (ilen : Nat) :
    Except Fault (Memory × Nat) := do
  let moved ← setStrLen c m (some a) (len + ilen)
  let s ← src.read moved.1
  let b ← load moved.1.heap moved.2
  let b' ← write b len (s.take ilen)
  .ok (moved.1.store moved.2 b', moved.2)

/-- The loop of `VCatStr`; each call of `SetStrLen` has its own choice. -/
def vcatLoop : (Nat → Choice) → Memory → Nat → Nat → List Source → Except Fault (Memory × Nat × Nat)
  | _, m, a, len, [] => .ok (m, a, len)
  | c, m, a, len, src :: srcs =>
    if src = .null then .ok (m, a, len)
    else do
      let ilen ← src.strLen m
      if 0 < ilen then
        let r ← appendPiece (c 0) m a len src ilen
        vcatLoop (fun i => c (i + 1)) r.1 r.2 (len + ilen) srcs
      else vcatLoop c m a len srcs

/-- `StrLenFromCache` of the first source. -/
def Source.strLenFromCache (m : Memory) : Source → Except Fault Nat
  | .block a => StrLenCache.strLenFromCache m (some a)
  | src => src.strLen m

/-- The string that is appended to, and its length. -/
def vcatStart (c : Choice) (m : Memory) (dest : Option Nat) (src : Source) :
    Except Fault ((Memory × Nat) × Nat) :=
  match dest with
  | some a => do
    let len ← strLenFromCache m (some a)
    .ok ((m, a), len)
  | none => do
    let size ← src.strLenFromCache m
    let fresh ← setStrLen c m none size
    .ok (fresh, 0)

def vcatStr (c : Nat → Choice) (m : Memory) (dest : Option Nat) (src : Source)
    (srcs : List Source) : Except Fault (Memory × Nat) := do
  let start ← vcatStart (c 0) m dest src
  if src = .null then .ok start.1
  else do
    let last ← vcatLoop (fun i => c (i + 1)) start.1.1 start.1.2 start.2 (src :: srcs)
    let m' ← cutAt last.1 last.2.1 last.2.2
    .ok (m', last.2.1)

def mcatStr (c : Nat → Choice) (m : Memory) (dest : Option Nat) (src : Source)
    (srcs : List Source) : Except Fault (Memory × Nat) := vcatStr c m dest src srcs

def mcopyStr (c : Nat → Choice) (m : Memory) (dest : Option Nat) (src : Source)
    (srcs : List Source) : Except Fault (Memory × Nat) := do
  let m' ← clear m dest
  vcatStr c m' dest src srcs

def strTrunc (c : Choice) (m : Memory) (str : Option Nat) (len : Nat) : Except Fault Memory :=
  match str with
  | none => .ok m
  | some a => do
    let size ← (Source.block a).strLen m
    if len < size then do
      let m' ← cutAt m a len
      .ok (strLenCacheAdd c m' a len)
    else .ok m

def stripTrailingWhitespace (m : Memory) (str : Option Nat) : Except Fault Memory :=
  match str with
  | none => .ok m
  | some a => do
    let len ← strLenFromCache m (some a)
    if 0 < len then do
      let b ← load m.heap a
      let kept := (b.take len).rdropWhile isSpace
      let b' ← write b kept.length (List.replicate (len - kept.length) NUL)
      .ok ((strLenCacheDel m a).store a b')
    else .ok m

def stripLeadingWhitespace (c : Choice) (m : Memory) (str : Option Nat) : Except Fault Memory :=
  match str with
  | none => .ok m
  | some a => do
    let s ← (Source.block a).read m
    let kept := s.dropWhile isSpace
    let b ← load m.heap a
    let b' ← write b 0 (kept ++ [NUL])
    .ok (strLenCacheAdd c (m.store a b') a kept.length)

/-- A pointer behind the blanks is in no slot, which all hold starts of strings. -/
def lenBehind (m : Memory) (a : Nat) (b : Str) (blanks : Nat) : Except Fault Nat :=
  if blanks = 0 then strLenFromCache m (some a) else strlen NUL (b.drop blanks)

def closeQuotes (c : Choice) (m : Memory) (a : Nat) (b : Str) (blanks len : Nat) (q : Char) :
    Except Fault Memory :=
  match b[blanks + (len - 1)]? with
  | none => .error .outside
  | some last =>
    if 0 < len ∧ last = q then do
      let cut ← write b (blanks + (len - 1)) [NUL]
      let b' ← write cut 0 ((cut.drop (blanks + 1)).take (len - 1))
      .ok (strLenCacheAdd c (m.store a b') a (len - 1))
    else .ok m

def stripQuotes (c : Choice) (m : Memory) (str : Option Nat) : Except Fault Memory :=
  match str with
  | none => .ok m
  | some a => do
    let b ← load m.heap a
    let blanks := (b.takeWhile isSpace).length
    match b[blanks]? with
    | none => .error .outside
    | some q =>
      if isQuote q then do
        let len ← lenBehind m a b blanks
        closeQuotes c m a b blanks len q
      else .ok m

def destroy (m : Memory) (obj : Option Nat) : Except Fault Memory :=
  match obj with
  | none => .ok m
  | some a => do
    let _ ← load m.heap a
    .ok { strLenCacheDel m a with heap := free m.heap a }

/-- Every slot belongs to a block, and no block has two. -/
structure Sound (m : Memory) : Prop where
  unique : Unique m.cache
  live : ∀ a n, some (a, n) ∈ m.cache → ∃ b, m.heap a = some b
  sized : 0 < m.cache.length

/-- The string at `p` is at `a` afterwards, and nothing else has changed. -/
structure Moves (m : Memory) (p : Option Nat) (m' : Memory) (a : Nat) : Prop where
  place : p = some a ∨ m.heap a = none
  others : ∀ c, c ≠ a → p ≠ some c → m'.heap c = m.heap c
  freed : ∀ c, c ≠ a → p = some c → m'.heap c = none
  cached : ∀ c n, c ≠ a → some (c, n) ∈ m'.cache → p ≠ some c ∧ some (c, n) ∈ m.cache
  unique : Unique m'.cache
  size : m'.cache.length = m.cache.length

theorem other_pointer {a c : Nat} (h : c ≠ a) : some a ≠ some c := by
  intro heq
  cases heq
  exact h rfl

namespace Moves

variable {m m' : Memory} {p : Option Nat} {a : Nat}

theorem refl (h : Unique m.cache) (a : Nat) : Moves m (some a) m a where
  place := .inl rfl
  others _ _ _ := rfl
  freed _ hc heq := absurd heq (other_pointer hc)
  cached _ _ hc hmem := ⟨other_pointer hc, hmem⟩
  unique := h
  size := rfl

theorem trans {m'' : Memory} {a' : Nat} (h : Moves m p m' a) (h' : Moves m' (some a) m'' a') :
    Moves m p m'' a' where
  place := by
    by_cases heq : a' = a
    · rw [heq]
      exact h.place
    · by_cases hp : p = some a'
      · exact .inl hp
      · rcases h'.place with hplace | hplace
        · exact absurd hplace (other_pointer heq)
        · exact .inr ((h.others a' heq hp).symm.trans hplace)
  others := by
    intro c hc hp
    by_cases heq : c = a
    · rw [heq] at hc hp ⊢
      rcases h.place with hplace | hplace
      · exact absurd hplace hp
      · rw [hplace]
        exact h'.freed a hc rfl
    · exact (h'.others c hc (other_pointer heq)).trans (h.others c heq hp)
  freed := by
    intro c hc hp
    by_cases heq : c = a
    · rw [heq] at hc ⊢
      exact h'.freed a hc rfl
    · exact (h'.others c hc (other_pointer heq)).trans (h.freed c heq hp)
  cached := by
    intro c n hc hmem
    obtain ⟨hne, hmem⟩ := h'.cached c n hc hmem
    have hca : c ≠ a := fun heq => hne (congrArg some heq.symm)
    exact h.cached c n hca hmem
  unique := h'.unique
  size := h'.size.trans h.size

theorem store (h : Moves m p m' a) (b : Str) : Moves m p (m'.store a b) a where
  place := h.place
  others c hc hp := (store_other hc).trans (h.others c hc hp)
  freed c hc hp := (store_other hc).trans (h.freed c hc hp)
  cached := h.cached
  unique := h.unique
  size := h.size

theorem cacheAdd (h : Moves m p m' a) (c : Choice) (len : Nat) :
    Moves m p (strLenCacheAdd c m' a len) a where
  place := h.place
  others := h.others
  freed := h.freed
  cached := by
    intro k n hk hmem
    rcases mem_put h.unique hmem with ⟨heq, _⟩ | ⟨_, hmem⟩
    · exact absurd heq hk
    · exact h.cached k n hk hmem
  unique := h.unique.put
  size := (length_put ..).trans h.size

theorem cacheDel (h : Moves m p m' a) : Moves m p (strLenCacheDel m' a) a where
  place := h.place
  others := h.others
  freed := h.freed
  cached c n hc hmem := h.cached c n hc (mem_remove.mp hmem).2
  unique := h.unique.remove
  size := (length_remove ..).trans h.size

theorem sound (h : Moves m p m' a) (hm : Sound m) {b : Str} (hb : m'.heap a = some b) :
    Sound m' where
  unique := h.unique
  live := by
    intro c n hmem
    by_cases hc : c = a
    · rw [hc]
      exact ⟨b, hb⟩
    · obtain ⟨hp, hmem⟩ := h.cached c n hc hmem
      rw [h.others c hc hp]
      exact hm.live c n hmem
  sized := by
    rw [h.size]
    exact hm.sized

end Moves

/-- The block of a string begins with a text; no string begins with nothing. -/
def Begins (m : Memory) (p : Option Nat) (s : Str) : Prop :=
  match p with
  | none => s = []
  | some a => ∃ b, m.heap a = some b ∧ s <+: b

/-- A block of the size that was asked for, which begins as it did. -/
structure Resized (m : Memory) (p : Option Nat) (s : Str) (len : Nat) (r : Memory × Nat) :
    Prop where
  moves : Moves m p r.1 r.2
  begins : ∃ b, r.1.heap r.2 = some b ∧ s <+: b ∧ b.length = len + 8
  cached : ∀ n, some (r.2, n) ∈ r.1.cache → n = len

theorem Resized.add {m m' : Memory} {p : Option Nat} {s : Str} {len a : Nat}
    (h : Resized m p s len (m', a)) (c : Choice) :
    Resized m p s len (strLenCacheAdd c m' a len, a) where
  moves := h.moves.cacheAdd c len
  begins := h.begins
  cached := by
    intro n hmem
    rcases mem_put h.moves.unique hmem with ⟨_, hn⟩ | ⟨hne, _⟩
    · exact hn
    · exact absurd rfl hne

theorem not_cached_free {m : Memory} (hm : Sound m) {a : Nat} (h : m.heap a = none) (n : Nat) :
    some (a, n) ∉ m.cache := by
  intro hmem
  obtain ⟨b, hb⟩ := hm.live a n hmem
  rw [h] at hb
  cases hb

theorem allot_resized {m : Memory} (hm : Sound m) (a len : Nat) :
    Ensures (allot NUL m.heap a (len + 8)) fun heap =>
      Resized m none [] len (⟨heap, m.cache⟩, a) ∧ (∀ n, some (a, n) ∉ m.cache) ∧
        heap a = some (List.replicate (len + 8) NUL) := by
  unfold allot
  by_cases hfree : m.heap a = none
  · rw [if_pos hfree]
    refine Ensures.ok ⟨⟨?_, ?_, ?_⟩, not_cached_free hm hfree, store_self ..⟩
    · exact {
        place := .inr hfree
        others := fun c hc _ => store_other hc
        freed := fun c _ hp => nomatch hp
        cached := fun c n _ hmem => ⟨nofun, hmem⟩
        unique := hm.unique
        size := rfl }
    · exact ⟨_, store_self .., List.nil_prefix, List.length_replicate ..⟩
    · intro n hmem
      exact absurd hmem (not_cached_free hm hfree n)
  · rw [if_neg hfree]
    exact Ensures.refused

theorem move_resized {m : Memory} (hm : Sound m) {old new len : Nat} {junk : Nat → Char} {s b : Str}
    (hb : m.heap old = some b) (hs : s <+: b) (hlen : s.length ≤ len) :
    Ensures (move m.heap old new junk (len + 8)) fun heap =>
      Resized m (some old) s len (⟨heap, (strLenCacheDel m old).cache⟩, new) ∧
        ∀ n, some (new, n) ∉ (strLenCacheDel m old).cache := by
  unfold move
  rw [hb]
  show Ensures (if _ then _ else _) _
  by_cases hplace : new = old ∨ m.heap new = none
  · have hnone : ∀ n, some (new, n) ∉ (strLenCacheDel m old).cache := by
      intro n hmem
      obtain ⟨hne, hmem⟩ := mem_remove.mp hmem
      rcases hplace with heq | hfree
      · exact absurd heq hne
      · exact absurd hmem (not_cached_free hm hfree n)
    rw [if_pos hplace]
    refine Ensures.ok ⟨⟨?_, ?_, ?_⟩, hnone⟩
    · exact {
        place := hplace.imp_left fun heq => congrArg some heq.symm
        others :=
          fun c hc hp => (store_other hc).trans (free_other fun heq => hp (congrArg some heq.symm))
        freed := by
          intro c hc hp
          cases hp
          exact (store_other hc).trans (free_self ..)
        cached := by
          intro c n _ hmem
          obtain ⟨hne, hmem⟩ := mem_remove.mp hmem
          exact ⟨other_pointer hne, hmem⟩
        unique := hm.unique.remove
        size := length_remove .. }
    · exact ⟨_, store_self .., prefix_resize hs (by omega), length_resize ..⟩
    · exact fun n hmem => absurd hmem (hnone n)
  · rw [if_neg hplace]
    exact Ensures.refused

/-- What the cache knows of a string whose length has just been set. -/
def remembered (len : Nat) : Option Nat := if minLen < len then some len else none

/-- The length goes to the cache if it is long. -/
theorem Resized.noted {m m' : Memory} {p : Option Nat} {s : Str} {len a : Nat}
    (h : Resized m p s len (m', a)) (hm : Sound m) (hnone : ∀ n, some (a, n) ∉ m'.cache)
    (c : Choice) (r : Memory × Nat)
    (hr : r = (if minLen < len then strLenCacheAdd c m' a len else m', a)) :
    Resized m p s len r ∧ lookup r.2 r.1.cache = remembered len := by
  subst hr
  unfold remembered
  by_cases hlong : minLen < len
  · have hsized : 0 < m'.cache.length := h.moves.size ▸ hm.sized
    rw [if_pos hlong, if_pos hlong]
    refine ⟨h.add c, ?_⟩
    exact lookup_put h.moves.unique (Nat.mod_lt _ hsized) fun _ => decide_eq_true hlong
  · rw [if_neg hlong, if_neg hlong]
    refine ⟨h, ?_⟩
    cases hlook : lookup a m'.cache with
    | none => rfl
    | some n => exact absurd (mem_of_lookup hlook) (hnone n)

/-- `SetStrLen` keeps what the string begins with. -/
theorem setStrLen_resized {m : Memory} (hm : Sound m) (c : Choice) {p : Option Nat} {s : Str}
    {len : Nat} (hp : Begins m p s) (hlen : s.length ≤ len) :
    Ensures (setStrLen c m p len) fun r =>
      Resized m p s len r ∧ lookup r.2 r.1.cache = remembered len := by
  cases p with
  | none =>
    cases hp
    exact Ensures.bind (allot_resized hm c.addr len)
      fun heap h => Ensures.ok (h.1.noted hm h.2.1 c _ rfl)
  | some a =>
    obtain ⟨b, hb, hs⟩ := hp
    exact Ensures.bind (move_resized hm hb hs hlen)
      fun heap h => Ensures.ok (h.1.noted hm h.2 c _ rfl)

end StrLenCache

end Invocation
