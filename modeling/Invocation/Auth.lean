import Invocation.Tokenizer

/-!
# Authentication

PAM is a parameter: a service starts for a user or not, and accepts a password
or not. A handle is the name of the service it was opened for; none is the
NULL handle, which `pam_authenticate` refuses.
-/

namespace Invocation

set_option autoImplicit false

structure Pam where
  start : Str → Str → Bool
  authenticate : Str → Str → Option Str → Bool

def authTypes (pamTypes : Str) : List Str := tokens [','] .quotes pamTypes

/-- The handle `PAMStart` leaves behind. -/
def pamHandle (pam : Pam) (pamTypes userName : Str) : Option Str :=
  (authTypes pamTypes).find? fun service => pam.start service userName

def pamSuccess : Int := 0
def cTrue : Int := 1
def cFalse : Int := 0
def userUnknown : Int := -1

def pamStart (pam : Pam) (pamTypes userName : Str) : Int :=
  if (pamHandle pam pamTypes userName).isSome then cTrue else cFalse

def authPAM (pam : Pam) (pamTypes userName : Str) (pass : Option Str) : Int :=
  if pamStart pam pamTypes userName ≠ pamSuccess then userUnknown
  else
    match pamHandle pam pamTypes userName with
    | some service => if pam.authenticate service userName pass then cTrue else cFalse
    | none => cFalse

/-- The pairs of an AUTH request: only the first is split at its equals sign. -/
def authPairs (details : Str) : List (Str × Str) :=
  match getNameValuePair details [' '] ['='] with
  | (pair, some rest) => pair :: pairs [' '] ['=', ' '] rest
  | (_, none) => []

/-- The password that `HandleClientAuth` collects, NULL when there is none. -/
def authPassword (details : Str) : Option Str :=
  ((authPairs details).reverse.find? (·.1 = "password".toList)).map Prod.snd

/-- The authentication types of a request: the ones prompted for, else `login`. -/
def requestedTypes (types : Str) : Str := if types = [] then "login".toList else types

/-- PAM accepts the password for the user under one of the listed types. -/
def Accepts (pam : Pam) (types userName : Str) (password : Option Str) : Prop :=
  ∃ service ∈ authTypes (requestedTypes types),
    pam.start service userName = true ∧ pam.authenticate service userName password = true

theorem authPAM_eq (pam : Pam) (pamTypes userName : Str) (pass : Option Str) :
    authPAM pam pamTypes userName pass =
      if ∃ service ∈ authTypes pamTypes, pam.start service userName = true then userUnknown
      else cFalse := by
  by_cases h : ∃ service ∈ authTypes pamTypes, pam.start service userName = true
  · have hsome : (pamHandle pam pamTypes userName).isSome := by
      rw [pamHandle, List.find?_isSome]
      exact h
    rw [if_pos h, authPAM, pamStart, if_pos hsome, if_pos (by decide)]
  · have hnone : pamHandle pam pamTypes userName = none := by
      rw [pamHandle, List.find?_eq_none]
      intro service hmem hstart
      exact h ⟨service, hmem, hstart⟩
    rw [if_neg h, authPAM, pamStart, hnone]
    rfl

theorem authPAM_ne_zero (pam : Pam) (pamTypes userName : Str) (pass : Option Str) :
    authPAM pam pamTypes userName pass ≠ 0 ↔
      ∃ service ∈ authTypes pamTypes, pam.start service userName = true := by
  rw [authPAM_eq]
  by_cases h : ∃ service ∈ authTypes pamTypes, pam.start service userName = true
  · rw [if_pos h]
    exact ⟨fun _ => h, fun _ => by decide⟩
  · rw [if_neg h]
    exact ⟨fun hne => absurd rfl hne, fun hex => absurd hex h⟩

end Invocation
