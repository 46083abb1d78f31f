import Invocation.Lib.Files

/-!
# Devices that fail

A device may refuse to open a file for writing, and it takes a limited number
of bytes: of what is written beyond them nothing arrives, while the task goes
on with its calls as if it had.
-/

namespace Files

set_option autoImplicit false

variable {ν β μ : Type}

/-- `none` is room for everything. -/
structure Device where
  opens : Bool
  room : Option Nat
deriving DecidableEq

namespace Device

def fits (dev : Device) (bytes : List β) : List β :=
  match dev.room with
  | none => bytes
  | some n => bytes.take n

def after (dev : Device) (bytes : List β) : Device :=
  { dev with room := dev.room.map (· - bytes.length) }

theorem fits_nil (dev : Device) : dev.fits ([] : List β) = [] := by
  unfold fits
  cases dev.room with
  | none => rfl
  | some n => exact List.take_nil

theorem after_nil (dev : Device) : dev.after ([] : List β) = dev := by
  unfold after
  cases hroom : dev.room with
  | none => rw [Option.map_none, ← hroom]
  | some n => rw [Option.map_some, List.length_nil, Nat.sub_zero, ← hroom]

theorem fits_append (dev : Device) (bytes more : List β) :
    dev.fits (bytes ++ more) = dev.fits bytes ++ (dev.after bytes).fits more := by
  unfold fits after
  cases dev.room with
  | none => rfl
  | some n => exact List.take_append

theorem after_append (dev : Device) (bytes more : List β) :
    dev.after (bytes ++ more) = (dev.after bytes).after more := by
  unfold after
  rw [Option.map_map]
  congr 1
  apply congrArg (Option.map · dev.room)
  funext n
  rw [Function.comp_apply, List.length_append]
  omega

theorem fits_eq_self_iff (dev : Device) (bytes : List β) :
    dev.fits bytes = bytes ↔ ∀ n, dev.room = some n → bytes.length ≤ n := by
  unfold fits
  cases dev.room with
  | none => simp
  | some n =>
    constructor
    · intro htake m hm
      cases hm
      have hlength := congrArg List.length htake
      rw [List.length_take] at hlength
      omega
    · intro hle
      exact List.take_of_length_le (hle n rfl)

variable [DecidableEq ν] (defaults : Defaults β μ)

/-- A call on the device; a write that fails is not noticed. -/
def run (dev : Device) (vol : Volume ν β μ) (t : Task ν β μ) :
    Call ν β μ → Volume ν β μ × Task ν β μ × Device
  | .openWrite name =>
    if dev.opens then
      let r := (Call.openWrite name).run defaults vol t
      (r.1, r.2, dev)
    else (vol, t, dev)
  | .write bytes =>
    let r := (Call.write (dev.fits bytes)).run defaults vol t
    (r.1, r.2, dev.after bytes)
  | c =>
    let r := c.run defaults vol t
    (r.1, r.2, dev)

def alone : Nat → Device → Volume ν β μ → Task ν β μ → Volume ν β μ
  | 0, _, vol, _ => vol
  | n + 1, dev, vol, t =>
    match t.calls with
    | [] => vol
    | c :: rest =>
      let r := dev.run defaults vol { t with calls := rest } c
      alone n r.2.2 r.1 r.2.1

variable {defaults}

theorem alone_done (n : Nat) (dev : Device) (vol : Volume ν β μ) (d : Option Descriptor)
    (found : Option μ) : alone defaults n dev vol ⟨[], d, found⟩ = vol := by
  cases n with
  | zero => rfl
  | succ n => rfl

theorem alone_cons (n : Nat) (dev : Device) (vol : Volume ν β μ) (c : Call ν β μ)
    (rest : List (Call ν β μ)) (d : Option Descriptor) (found : Option μ) :
    alone defaults (n + 1) dev vol ⟨c :: rest, d, found⟩ =
      alone defaults n (dev.run defaults vol ⟨rest, d, found⟩ c).2.2
        (dev.run defaults vol ⟨rest, d, found⟩ c).1
        (dev.run defaults vol ⟨rest, d, found⟩ c).2.1 := rfl

theorem alone_writes (chunks : List (List β)) (n : Nat) (dev : Device) (vol : Volume ν β μ)
    (rest : List (Call ν β μ)) (i : Nat) (found : Option μ) :
    alone defaults (chunks.length + n) dev vol
        ⟨chunks.map .write ++ rest, some ⟨i, (vol.inodes i).content.length⟩, found⟩ =
      alone defaults n (dev.after chunks.flatten)
        (vol.setContent i ((vol.inodes i).content ++ dev.fits chunks.flatten))
        ⟨rest, some ⟨i, ((vol.inodes i).content ++ dev.fits chunks.flatten).length⟩, found⟩ := by
  induction chunks generalizing dev vol with
  | nil =>
    simp only [List.length_nil, Nat.zero_add, List.map_nil, List.nil_append, List.flatten_nil,
      fits_nil, after_nil, List.append_nil, Volume.setContent_content]
  | cons bytes chunks ih =>
    have hlength : (bytes :: chunks).length + n = chunks.length + n + 1 := by
      rw [List.length_cons]
      omega
    have hrun := ih (dev.after bytes) (vol.setContent i ((vol.inodes i).content ++ dev.fits bytes))
    rw [Volume.setContent_self, Volume.setContent_setContent, List.length_append,
      List.append_assoc] at hrun
    rw [hlength, List.map_cons, List.cons_append, alone_cons, List.flatten_cons, fits_append,
      after_append]
    simp only [run, Call.run, overwrite_end]
    exact hrun

theorem alone_writes_closed (chunks : List (List β)) (n : Nat) (dev : Device) (vol : Volume ν β μ)
    (rest : List (Call ν β μ)) (found : Option μ) :
    alone defaults (chunks.length + n) dev vol ⟨chunks.map .write ++ rest, none, found⟩ =
      alone defaults n (dev.after chunks.flatten) vol ⟨rest, none, found⟩ := by
  induction chunks generalizing dev with
  | nil => rw [List.flatten_nil, after_nil, List.length_nil, Nat.zero_add, List.map_nil,
      List.nil_append]
  | cons bytes chunks ih =>
    have hlength : (bytes :: chunks).length + n = chunks.length + n + 1 := by
      rw [List.length_cons]
      omega
    rw [hlength, List.map_cons, List.cons_append, alone_cons, List.flatten_cons, after_append, ← ih]
    rfl

end Device

end Files
