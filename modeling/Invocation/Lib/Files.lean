import Mathlib.Logic.Function.Basic
import Mathlib.Data.List.Basic

/-!
# Files behind names

Names stand for inodes, and an inode keeps its content while a descriptor is
open on it, whatever happens to its names. A task is what is left of a
process's calls; several tasks take their steps in any order.
-/

namespace Files

set_option autoImplicit false

variable {ν β μ : Type}

structure Inode (β μ : Type) where
  content : List β
  attrs : μ
deriving DecidableEq

structure Volume (ν β μ : Type) where
  names : ν → Option Nat
  inodes : Nat → Inode β μ
  next : Nat
  allocated : ∀ name i, names name = some i → i < next

/-- What the system gives to a new file, and what it fills a hole with. -/
structure Defaults (β μ : Type) where
  created : μ
  hole : β

/-! ## Operations -/

namespace Volume

def file (vol : Volume ν β μ) (name : ν) : Option (Inode β μ) := (vol.names name).map vol.inodes

def content (vol : Volume ν β μ) (name : ν) : Option (List β) := (vol.file name).map Inode.content

def modify (vol : Volume ν β μ) (i : Nat) (f : Inode β μ → Inode β μ) : Volume ν β μ :=
  { vol with inodes := Function.update vol.inodes i (f (vol.inodes i)) }

def setContent (vol : Volume ν β μ) (i : Nat) (content : List β) : Volume ν β μ :=
  vol.modify i fun f => { f with content := content }

@[simp] theorem modify_names (vol : Volume ν β μ) (i : Nat) (f : Inode β μ → Inode β μ) :
    (vol.modify i f).names = vol.names := rfl

@[simp] theorem modify_next (vol : Volume ν β μ) (i : Nat) (f : Inode β μ → Inode β μ) :
    (vol.modify i f).next = vol.next := rfl

@[simp] theorem modify_self (vol : Volume ν β μ) (i : Nat) (f : Inode β μ → Inode β μ) :
    (vol.modify i f).inodes i = f (vol.inodes i) := Function.update_self ..

@[simp] theorem setContent_names (vol : Volume ν β μ) (i : Nat) (content : List β) :
    (vol.setContent i content).names = vol.names := rfl

@[simp] theorem setContent_self (vol : Volume ν β μ) (i : Nat) (content : List β) :
    (vol.setContent i content).inodes i = ⟨content, (vol.inodes i).attrs⟩ := Function.update_self ..

theorem setContent_content (vol : Volume ν β μ) (i : Nat) :
    vol.setContent i (vol.inodes i).content = vol := by
  unfold setContent modify
  rw [Function.update_eq_self]

theorem modify_modify (vol : Volume ν β μ) (i : Nat) (f g : Inode β μ → Inode β μ) :
    (vol.modify i f).modify i g = vol.modify i fun file => g (f file) := by
  unfold modify
  simp only [Function.update_self, Function.update_idem]

theorem setContent_setContent (vol : Volume ν β μ) (i : Nat) (content later : List β) :
    (vol.setContent i content).setContent i later = vol.setContent i later := by
  unfold setContent modify
  simp only [Function.update_self, Function.update_idem]

theorem modify_other (vol : Volume ν β μ) {i j : Nat} (h : j ≠ i) (f : Inode β μ → Inode β μ) :
    (vol.modify i f).inodes j = vol.inodes j := Function.update_of_ne h ..

theorem content_congr {vol vol' : Volume ν β μ} {name : ν}
    (hnames : vol'.names name = vol.names name)
    (hsame : ∀ i, vol.names name = some i → (vol'.inodes i).content = (vol.inodes i).content) :
    vol'.content name = vol.content name := by
  unfold content file
  rw [hnames]
  cases hname : vol.names name with
  | none => rfl
  | some i => simp only [Option.map_some, hsame i hname]

theorem setContent_attrs (vol : Volume ν β μ) (i : Nat) (content : List β) (name : ν) :
    ((vol.setContent i content).file name).map Inode.attrs = (vol.file name).map Inode.attrs := by
  unfold file
  rw [setContent_names]
  cases vol.names name with
  | none => rfl
  | some j =>
    by_cases hj : j = i
    · rw [hj, Option.map_some, Option.map_some, setContent_self]
      rfl
    · unfold setContent
      rw [Option.map_some, Option.map_some, Option.map_some, modify_other _ hj]
      rfl

def change (name : ν) (f : μ → μ) (vol : Volume ν β μ) : Volume ν β μ :=
  match vol.names name with
  | none => vol
  | some i => vol.modify i fun file => { file with attrs := f file.attrs }

theorem change_some {name : ν} {vol : Volume ν β μ} {i : Nat} (h : vol.names name = some i)
    (f : μ → μ) :
    vol.change name f = vol.modify i fun file => { file with attrs := f file.attrs } := by
  unfold change
  rw [h]

theorem change_none {name : ν} {vol : Volume ν β μ} (h : vol.names name = none) (f : μ → μ) :
    vol.change name f = vol := by
  unfold change
  rw [h]

variable [DecidableEq ν]

/-- The file is there afterwards, a new one when the name stood for none. -/
def openWrite (defaults : Defaults β μ) (name : ν) (vol : Volume ν β μ) : Volume ν β μ × Nat :=
  match h : vol.names name with
  | some i => (vol, i)
  | none =>
    ({ names := Function.update vol.names name (some vol.next)
       inodes := Function.update vol.inodes vol.next ⟨[], defaults.created⟩
       next := vol.next + 1
       allocated := by
        intro other i hi
        by_cases hother : other = name
        · rw [hother, Function.update_self] at hi
          cases hi
          exact Nat.lt_succ_self _
        · rw [Function.update_of_ne hother] at hi
          exact Nat.lt_succ_of_lt (vol.allocated other i hi) }, vol.next)

/-- A name of the same file is left alone. -/
def rename (source target : ν) (vol : Volume ν β μ) : Volume ν β μ :=
  match h : vol.names source with
  | none => vol
  | some i =>
    if vol.names target = some i then vol
    else
      { vol with
        names := Function.update (Function.update vol.names target (some i)) source none
        allocated := by
          intro other j hj
          by_cases hsource : other = source
          · rw [hsource, Function.update_self] at hj
            cases hj
          · rw [Function.update_of_ne hsource] at hj
            by_cases htarget : other = target
            · rw [htarget, Function.update_self] at hj
              cases hj
              exact vol.allocated source _ h
            · rw [Function.update_of_ne htarget] at hj
              exact vol.allocated other j hj }

def unlink (name : ν) (vol : Volume ν β μ) : Volume ν β μ :=
  { vol with
    names := Function.update vol.names name none
    allocated := by
      intro other i hi
      by_cases hother : other = name
      · rw [hother, Function.update_self] at hi
        cases hi
      · rw [Function.update_of_ne hother] at hi
        exact vol.allocated other i hi }

theorem openWrite_some {defaults : Defaults β μ} {name : ν} {vol : Volume ν β μ} {i : Nat}
    (h : vol.names name = some i) : vol.openWrite defaults name = (vol, i) := by
  unfold openWrite
  split
  · rename_i j hj
    rw [h] at hj
    cases hj
    rfl
  · rename_i hnone
    rw [h] at hnone
    cases hnone

theorem openWrite_none (defaults : Defaults β μ) {name : ν} {vol : Volume ν β μ}
    (h : vol.names name = none) :
    (vol.openWrite defaults name).2 = vol.next ∧
      (vol.openWrite defaults name).1.names = Function.update vol.names name (some vol.next) ∧
      (vol.openWrite defaults name).1.inodes =
        Function.update vol.inodes vol.next ⟨[], defaults.created⟩ ∧
      (vol.openWrite defaults name).1.next = vol.next + 1 := by
  unfold openWrite
  split
  · rename_i j hj
    rw [h] at hj
    cases hj
  · exact ⟨rfl, rfl, rfl, rfl⟩

theorem openWrite_other {defaults : Defaults β μ} {name other : ν} (hne : other ≠ name)
    (vol : Volume ν β μ) : (vol.openWrite defaults name).1.file other = vol.file other := by
  cases hname : vol.names name with
  | some i => rw [openWrite_some hname]
  | none =>
    obtain ⟨_, hnames, hinodes, _⟩ := openWrite_none defaults hname
    unfold file
    rw [hnames, hinodes, Function.update_of_ne hne]
    cases hother : vol.names other with
    | none => rfl
    | some i =>
      have hi : i ≠ vol.next := Nat.ne_of_lt (vol.allocated other i hother)
      rw [Option.map_some, Option.map_some, Function.update_of_ne hi]

theorem rename_none {source : ν} (target : ν) {vol : Volume ν β μ} (h : vol.names source = none) :
    vol.rename source target = vol := by
  unfold rename
  split
  · rfl
  · rename_i j hj
    rw [h] at hj
    cases hj

theorem rename_some {source target : ν} {vol : Volume ν β μ} {i : Nat}
    (hsource : vol.names source = some i) (htarget : vol.names target ≠ some i) :
    (vol.rename source target).names =
        Function.update (Function.update vol.names target (some i)) source none ∧
      (vol.rename source target).inodes = vol.inodes ∧
      (vol.rename source target).next = vol.next := by
  unfold rename
  split
  · rename_i hnone
    rw [hsource] at hnone
    cases hnone
  · rename_i j hj
    rw [hsource] at hj
    cases hj
    rw [if_neg htarget]
    exact ⟨rfl, rfl, rfl⟩

theorem rename_same {source target : ν} {vol : Volume ν β μ} {i : Nat}
    (hsource : vol.names source = some i) (htarget : vol.names target = some i) :
    vol.rename source target = vol := by
  unfold rename
  split
  · rfl
  · rename_i j hj
    rw [hsource] at hj
    cases hj
    rw [if_pos htarget]

end Volume

/-! ## Calls -/

structure Descriptor where
  inode : Nat
  offset : Nat
deriving DecidableEq

/-- `read` hands the content of a file to the calls that follow. -/
inductive Call (ν β μ : Type)
  | openWrite (name : ν)
  | truncate
  | write (bytes : List β)
  | stat (name : ν)
  | change (name : ν) (f : Option μ → μ → μ)
  | rename (source target : ν)
  | unlink (name : ν)
  | read (name : ν) (next : Option (List β) → List (Call ν β μ))

def Call.Reads : Call ν β μ → Prop
  | .read _ _ => True
  | _ => False

instance : DecidablePred (Call.Reads : Call ν β μ → Prop)
  | .read _ _ => inferInstanceAs (Decidable True)
  | .openWrite _ => inferInstanceAs (Decidable False)
  | .truncate => inferInstanceAs (Decidable False)
  | .write _ => inferInstanceAs (Decidable False)
  | .stat _ => inferInstanceAs (Decidable False)
  | .change _ _ => inferInstanceAs (Decidable False)
  | .rename _ _ => inferInstanceAs (Decidable False)
  | .unlink _ => inferInstanceAs (Decidable False)

structure Task (ν β μ : Type) where
  calls : List (Call ν β μ)
  descriptor : Option Descriptor := none
  found : Option μ := none

/-- Bytes written at an offset; what is skipped becomes a hole. -/
def overwrite (hole : β) (content : List β) (offset : Nat) (bytes : List β) : List β :=
  content.take offset ++ List.replicate (offset - content.length) hole ++ bytes ++
    content.drop (offset + bytes.length)

theorem overwrite_end (hole : β) (content bytes : List β) :
    overwrite hole content content.length bytes = content ++ bytes := by
  simp [overwrite]

section Steps

variable [DecidableEq ν] (defaults : Defaults β μ)

def Call.run (vol : Volume ν β μ) (t : Task ν β μ) : Call ν β μ → Volume ν β μ × Task ν β μ
  | .openWrite name =>
    let opened := vol.openWrite defaults name
    (opened.1, { t with descriptor := some ⟨opened.2, 0⟩ })
  | .truncate =>
    match t.descriptor with
    | none => (vol, t)
    | some d => (vol.setContent d.inode [], t)
  | .write bytes =>
    match t.descriptor with
    | none => (vol, t)
    | some d =>
      (vol.setContent d.inode
          (overwrite defaults.hole (vol.inodes d.inode).content d.offset bytes),
        { t with descriptor := some ⟨d.inode, d.offset + bytes.length⟩ })
  | .stat name =>
    match vol.file name with
    | none => (vol, t)
    | some file => (vol, { t with found := some file.attrs })
  | .change name f => (vol.change name (f t.found), t)
  | .rename source target => (vol.rename source target, t)
  | .unlink name => (vol.unlink name, t)
  | .read name next =>
    (vol, { t with calls := next (vol.content name) ++ t.calls })

def Task.step (vol : Volume ν β μ) (t : Task ν β μ) : Volume ν β μ × Task ν β μ :=
  match t.calls with
  | [] => (vol, t)
  | c :: rest => c.run defaults vol { t with calls := rest }

/-- A task that has the volume for itself, up to its last call. -/
def Task.alone : Nat → Volume ν β μ → Task ν β μ → Volume ν β μ × Task ν β μ
  | 0, vol, t => (vol, t)
  | n + 1, vol, t => Task.alone n (t.step defaults vol).1 (t.step defaults vol).2

theorem Task.alone_cons (n : Nat) (vol : Volume ν β μ) (c : Call ν β μ) (rest : List (Call ν β μ))
    (d : Option Descriptor) (found : Option μ) :
    Task.alone defaults (n + 1) vol ⟨c :: rest, d, found⟩ =
      Task.alone defaults n (c.run defaults vol ⟨rest, d, found⟩).1
        (c.run defaults vol ⟨rest, d, found⟩).2 := rfl

theorem Task.alone_open (n : Nat) (vol : Volume ν β μ) (name : ν) (rest : List (Call ν β μ)) :
    Task.alone defaults (n + 1 + 1) vol { calls := .openWrite name :: .truncate :: rest } =
      Task.alone defaults n
        ((vol.openWrite defaults name).1.setContent (vol.openWrite defaults name).2 [])
        ⟨rest, some ⟨(vol.openWrite defaults name).2, 0⟩, none⟩ := rfl

theorem Task.alone_writes (chunks : List (List β)) (n : Nat) (vol : Volume ν β μ)
    (rest : List (Call ν β μ)) (i : Nat) (found : Option μ) :
    Task.alone defaults (chunks.length + n) vol
        ⟨chunks.map .write ++ rest, some ⟨i, (vol.inodes i).content.length⟩, found⟩ =
      Task.alone defaults n (vol.setContent i ((vol.inodes i).content ++ chunks.flatten))
        ⟨rest, some ⟨i, ((vol.inodes i).content ++ chunks.flatten).length⟩, found⟩ := by
  induction chunks generalizing vol with
  | nil =>
    simp only [List.length_nil, Nat.zero_add, List.map_nil, List.nil_append, List.flatten_nil,
      List.append_nil, Volume.setContent_content]
  | cons bytes chunks ih =>
    have hlength : (bytes :: chunks).length + n = chunks.length + n + 1 := by
      rw [List.length_cons]
      omega
    have hrun := ih (vol.setContent i ((vol.inodes i).content ++ bytes))
    rw [Volume.setContent_self, Volume.setContent_setContent, List.length_append,
      List.append_assoc] at hrun
    rw [hlength, List.map_cons, List.cons_append, Task.alone_cons]
    simp only [Call.run, overwrite_end, List.flatten_cons]
    exact hrun

structure System (ι ν β μ : Type) where
  volume : Volume ν β μ
  tasks : ι → Task ν β μ

variable {ι : Type} [DecidableEq ι]

def System.step (s : System ι ν β μ) (i : ι) : System ι ν β μ :=
  let stepped := (s.tasks i).step defaults s.volume
  { volume := stepped.1, tasks := Function.update s.tasks i stepped.2 }

end Steps

end Files
