import WizardShell.Ports.CString
import WizardShell.Verified.Block

/-!
# Small string helpers

The functions of `misc.c`.  A NULL-terminated array that is only read is a
list; reading past its NULL is undefined.
-/

namespace WizardShell.Ports

open WizardShell.Verified

/-- Is the string none of the three redirection operators? -/
def isNotRedirect (str : CString) : Bool :=
  str ≠ tokIn && str ≠ tokOut && str ≠ tokAppend

/-- The first token that is neither an operator nor preceded by one.  The
recursion does not test for the end of the array. -/
def firstNonredirect : List CString → CString → Outcome CString
  | [], _ => .undefined
  | tok :: rest, prev =>
      if isNotRedirect tok && isNotRedirect prev then .ret tok
      else firstNonredirect rest tok

/-- The length of a string array. -/
def ppstrlen (alos : Block (Option CString)) : Outcome Nat := alos.nullIndex

/-- The final string of a string array, or NULL. -/
def ppstrFinal : List CString → Option CString
  | [] => none
  | [str] => some str
  | _ :: rest => ppstrFinal rest

/-- `isalpha` in the C locale. -/
def isalpha (c : UInt8) : Bool := (65 ≤ c && c ≤ 90) || (97 ≤ c && c ≤ 122)

/-- `tolower` in the C locale. -/
def tolower (c : UInt8) : UInt8 := if 65 ≤ c && c ≤ 90 then c + 32 else c

/-- Does the string have a non-alphabetic character in it? -/
def notalpha (str : CString) : Bool := str.bytes.any fun c => !isalpha c

/-- Is every character its own lower-case form? -/
def strIslower (str : CString) : Bool := str.bytes.all fun c => c == tolower c

@[simp] theorem isNotRedirect_empty : isNotRedirect .empty = true := by decide

/-- An array that reads as the strings has their number as its length. -/
theorem ppstrlen_eq {alos : Block (Option CString)} {strings : List CString}
    (h : alos.contents = .ret strings) : ppstrlen alos = .ret strings.length := by
  rw [ppstrlen, Block.nullIndex_eq, h, Outcome.ret_bind]

/-- When no token is an operator, the first token is the command. -/
theorem firstNonredirect_of_plain {tok : CString} {rest : List CString}
    (h : isNotRedirect tok = true) :
    firstNonredirect (tok :: rest) .empty = .ret tok := by
  simp [firstNonredirect, h]

end WizardShell.Ports
