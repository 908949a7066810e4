import SignerHost.Text.Decimal

/-!
# Derivation in key expressions

Behind a key stand the steps that lead to the derived key.  A step is an index, or a wildcard for
the index of an address; one element may be a set of steps, of which the first is taken.

* At most one element is a wildcard or a set with one, and at most one is a set.
* Hardened steps have to be allowed.
-/

namespace SignerHost

/-- A step as it is written behind a key. -/
inductive DerivationStep
  | wildcard
  /-- The number of a step with its hardened bit. -/
  | number (n : Nat)
  deriving DecidableEq

/-- What may stand between two slashes. -/
inductive DerivationElement
  | single (step : DerivationStep)
  | set (steps : List DerivationStep)
  deriving DecidableEq

abbrev Derivation := List DerivationElement

namespace DerivationStep

/-- The first number of a hardened step. -/
def bound : Nat := 0x80000000

def isMarker (c : Char) : Bool := c = 'h' || c = 'H' || c = '\x27'

/-- An index below the bound.  Any text of a number will do, also with blanks or underscores. -/
def index? (cs : List Char) : Option Nat :=
  match Decimal.integer? cs with
  | some i => if 0 ≤ i ∧ i < bound then some i.toNat else none
  | none => none

def parse? (hardenedAllowed : Bool) (cs : List Char) : Option DerivationStep :=
  if cs = ['*'] then some wildcard
  else if cs.getLast?.any isMarker then
    if hardenedAllowed then (index? cs.dropLast).map fun i => number (bound + i) else none
  else (index? cs).map number

/-- The number of a step for the address at an index.  Only the wildcard takes it. -/
def fill (index : Nat) : DerivationStep → Nat
  | wildcard => index
  | number n => n

end DerivationStep

namespace DerivationElement

/-- The separator in a set, by its brackets; a text without brackets is no set. -/
def separator? (cs : List Char) : Option Char :=
  if cs.head? = some '<' ∧ cs.getLast? = some '>' then some ';'
  else if cs.head? = some '{' ∧ cs.getLast? = some '}' then some ','
  else none

def parse? (hardenedAllowed : Bool) (cs : List Char) : Option DerivationElement :=
  match separator? cs with
  | some sep =>
      ((Text.splitAt sep (cs.drop 1).dropLast).mapM (DerivationStep.parse? hardenedAllowed)).map set
  | none => (DerivationStep.parse? hardenedAllowed cs).map single

/-- Whether an element is the wildcard or a set with one.  Only one element of a derivation may
be one. -/
def hasWildcard : DerivationElement → Bool
  | single step => step = .wildcard
  | set steps => steps.contains .wildcard

/-- The number of steps in a set. -/
def setSize? : DerivationElement → Option Nat
  | set steps => some steps.length
  | single _ => none

/-- The number of an element for the address at an index.  A set gives its first step, which may
not be the wildcard. -/
def fill? (index : Nat) : DerivationElement → Option Nat
  | single step => some (step.fill index)
  | set (.number n :: _) => some n
  | set _ => none

end DerivationElement

namespace Derivation

/-- The elements between the slashes; an empty text has none. -/
def parse? (hardenedAllowed : Bool) (cs : List Char) : Option Derivation :=
  if cs = [] then some []
  else
    match (Text.splitAt '/' cs).mapM (DerivationElement.parse? hardenedAllowed) with
    | some elements =>
        if elements.countP (·.hasWildcard) ≤ 1 ∧ elements.countP (·.setSize?.isSome) ≤ 1 then
          some elements
        else none
    | none => none

/-- The number of steps in the set. -/
def setSize? (d : Derivation) : Option Nat := d.findSome? DerivationElement.setSize?

/-- The numbers of all steps for the address at an index.  The index counts only if there is a
step. -/
def fill? (d : Derivation) (index : Int) : Option (List Nat) :=
  if d = [] then some []
  else if 0 ≤ index ∧ index < DerivationStep.bound then
    d.mapM (DerivationElement.fill? index.toNat)
  else none

end Derivation

end SignerHost
