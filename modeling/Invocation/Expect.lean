import Invocation.Text

/-!
# Expect dialogs

`STREAMExpectDialog` over the bytes a command writes; `none` is a read that
found no data within the time limit, the end of the list is end of stream.
-/

namespace Invocation

set_option autoImplicit false

structure ExpectDialog where
  expect : Str
  reply : Str
  isOptional : Bool := false
  isFail : Bool := false
  isEnd : Bool := false
  done : Bool := false
  matched : Nat := 0
deriving DecidableEq

def expectDialogsDone (dialogs : List ExpectDialog) : Bool :=
  dialogs.all fun d => d.done || d.isOptional

/-- `Expect[i]` against a byte that was read: `char` is signed, so a character from 128 on is
negative and equals none of the bytes. -/
def ExpectDialog.reads (d : ExpectDialog) (i : Nat) (c : Char) : Bool :=
  c.toNat < 128 && d.expect[i]? = some c

/-- One byte offered to one dialog that is not done. -/
def ExpectDialog.advance (d : ExpectDialog) (c : Char) : ExpectDialog :=
  let start := if d.reads d.matched c then d.matched else 0
  if d.reads start c then
    if start + 1 = d.expect.length then { d with matched := 0, done := true }
    else { d with matched := start + 1 }
  else { d with matched := start }

/-- What one byte does to the dialogs: the dialogs after it, the replies sent, and the verdict if
the byte ends the conversation. -/
def expectByte (c : Char) : List ExpectDialog → List ExpectDialog × List Str × Option Bool
  | [] => ([], [], none)
  | d :: rest =>
    if d.done then
      let r := expectByte c rest
      (d :: r.1, r.2)
    else
      let d' := d.advance c
      if d'.done ∧ d.isEnd then (d' :: rest, [d.reply], some true)
      else if d'.done ∧ d.isFail then (d' :: rest, [d.reply], some false)
      else
        let replies := if d'.done then [d.reply] else []
        if d.isOptional then
          let r := expectByte c rest
          (d' :: r.1, replies ++ r.2.1, r.2.2)
        else (d' :: rest, replies, none)

/-- The replies a conversation sends, its verdict, and the output that is left. -/
def streamExpectDialog (timeout : Int) :
    List (Option Char) → List ExpectDialog → List Str × Bool × List (Option Char)
  | [], dialogs => ([], expectDialogsDone dialogs, [])
  | none :: output, dialogs =>
    if timeout > 0 then ([], false, output) else streamExpectDialog timeout output dialogs
  | some c :: output, dialogs =>
    if c = '\x00' then streamExpectDialog timeout output dialogs
    else
      match expectByte c dialogs with
      | (_, replies, some verdict) => (replies, verdict, output)
      | (dialogs', replies, none) =>
        let r := streamExpectDialog timeout output dialogs'
        (replies ++ r.1, r.2)

end Invocation
