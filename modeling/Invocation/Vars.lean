import Invocation.Lib.KeyedList
import Invocation.Text

/-!
# Variable lists

`SetVar` and `GetVar` on a plain list: tags are compared without case and an
empty name finds nothing, so each value stored under it gets a node of its own.
-/

namespace Invocation

set_option autoImplicit false

abbrev Vars := List (Str × Str)

def sameTag (tag name : Str) : Bool := name ≠ [] && strCaseEq tag name

def setVar (vars : Vars) (name data : Str) : Vars := KeyedList.upsert sameTag name data vars

def getVar (vars : Vars) (name : Str) : Str := (KeyedList.get sameTag name vars).getD []

def setVars (assignments : List (Str × Str)) : Vars := KeyedList.ofPairs sameTag assignments

theorem sameTag_iff (tag name : Str) : sameTag tag name = true ↔ name ≠
    [] ∧ strlwr tag = strlwr name := by
  simp [sameTag, strCaseEq_iff]

theorem sameTag_self {name : Str} (h : name ≠ []) : sameTag name name = true := by
  simp [sameTag, h]

theorem sameTag_matching : KeyedList.Matching sameTag where
  symm := by
    intro a b h
    rw [sameTag_iff] at *
    obtain ⟨hb, hab⟩ := h
    refine ⟨?_, hab.symm⟩
    rintro rfl
    exact hb (List.map_eq_nil_iff.mp hab.symm)
  trans := by
    intro a b c h1 h2
    rw [sameTag_iff] at *
    exact ⟨h2.1, h1.2.trans h2.2⟩

theorem getVar_setVars (assignments : List (Str × Str)) (name : Str) :
    getVar (setVars assignments) name =
      ((assignments.reverse.find? (sameTag ·.1 name)).map Prod.snd).getD [] := by
  rw [getVar, setVars, KeyedList.get_ofPairs sameTag_matching]

end Invocation
