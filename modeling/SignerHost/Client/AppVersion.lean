import SignerHost.Text.Decimal

/-!
# App versions

A version is an epoch, release numbers, and marks for pre-releases, later releases, development
releases and builds.  Case does not count, blanks around it and a leading `v` are allowed, and
most marks may be set apart by a dot, a hyphen or an underscore.

* `AppVersion.parse?` reads a version; the release numbers are all that has to be there.
* `AppVersion.isLegacy` says which versions speak an older protocol.
-/

namespace SignerHost

/-- The stages before a release, in their order. -/
inductive PreRelease
  | alpha
  | beta
  | candidate
  deriving DecidableEq

/-- A version as it is compared.  Two texts that are written differently may have the same parts. -/
structure AppVersion where
  epoch : Nat := 0
  release : List Nat
  pre : Option (PreRelease × Nat) := none
  post : Option Nat := none
  dev : Option Nat := none
  /-- The parts of the name of a build. -/
  build : List (List Char) := []
  deriving DecidableEq

namespace AppVersion

/-! ## Reading -/

/-- The number at the front of a text, and the text behind it.  Only ASCII digits count. -/
def number? (cs : List Char) : Option (Nat × List Char) :=
  match cs.span Char.isDigit with
  | ([], _) => none
  | (digits, rest) => some (Decimal.ofDigits (digits.filterMap Decimal.value?), rest)

/-- The numbers behind dots; `fuel` bounds their count.  They end before a dot that no number
follows, which may belong to a mark. -/
def numbers : Nat → List Char → List Nat × List Char
  | fuel + 1, '.' :: cs =>
      match number? cs with
      | some (n, rest) =>
          let (ns, rest) := numbers fuel rest
          (n :: ns, rest)
      | none => ([], '.' :: cs)
  | _, cs => ([], cs)

def isSeparator (c : Char) : Bool := c = '-' || c = '_' || c = '.'

/-- The text without a separator in front.  At most one is skipped, so no mark stands behind two
of them. -/
def skipSeparator : List Char → List Char
  | c :: cs => if isSeparator c then cs else c :: cs
  | [] => []

/-- The first of the words that a text starts with, and the text behind it.  The order of the
words matters: `alpha` has to stand before `a`. -/
def word? {α : Type} : List (String × α) → List Char → Option (α × List Char)
  | [], _ => none
  | (word, a) :: words, cs =>
      if word.toList.isPrefixOf cs then some (a, cs.drop word.length) else word? words cs

/-- A mark: one of the words and a number, which counts as zero if it is missing.  A separator may
stand before the word and before the number. -/
def mark? {α : Type} (words : List (String × α)) (cs : List Char) :
    Option ((α × Nat) × List Char) :=
  match word? words (skipSeparator cs) with
  | some (a, rest) =>
      let rest := skipSeparator rest
      match number? rest with
      | some (n, rest) => some ((a, n), rest)
      | none => some ((a, 0), rest)
  | none => none

def preWords : List (String × PreRelease) :=
  [("alpha", .alpha), ("a", .alpha), ("beta", .beta), ("b", .beta), ("preview", .candidate),
    ("pre", .candidate), ("c", .candidate), ("rc", .candidate)]

def postWords : List (String × Unit) := [("post", ()), ("rev", ()), ("r", ())]

def devWords : List (String × Unit) := [("dev", ())]

/-- The mark of a later release, which may also be a hyphen and a number.  That short form is
tried first. -/
def post? (cs : List Char) : Option (Nat × List Char) :=
  match (if cs.head? = some '-' then number? (cs.drop 1) else none) with
  | some found => some found
  | none => (mark? postWords cs).map fun m => (m.1.2, m.2)

/-- An optional part of a version.  Where it is missing, nothing of the text is used up. -/
def optionally {α : Type} (part? : List Char → Option (α × List Char)) (cs : List Char) :
    Option α × List Char :=
  match part? cs with
  | some (a, rest) => (some a, rest)
  | none => (none, cs)

def isBuildChar (c : Char) : Bool := c.isDigit || c.isLower

/-- The parts of the name of a build; `fuel` bounds their number. -/
def buildParts? : Nat → List Char → Option (List (List Char))
  | 0, _ => none
  | fuel + 1, cs =>
      match cs.span isBuildChar with
      | ([], _) => none
      | (part, []) => some [part]
      | (part, c :: rest) =>
          if isSeparator c then (buildParts? fuel rest).map (part :: ·) else none

/-- The name of a build up to the end of the text.  Its parts are set apart by single separators,
and nothing may follow it. -/
def build? : List Char → Option (List (List Char))
  | [] => some []
  | '+' :: cs => buildParts? (cs.length + 1) cs
  | _ => none

/-- The epoch, which ends with an exclamation mark.  A number without the mark belongs to the
release instead. -/
def epoch? (cs : List Char) : Option (Nat × List Char) :=
  match number? cs with
  | some (n, '!' :: rest) => some (n, rest)
  | _ => none

/-- Reads a version without blanks and in lowercase.  Nothing may be left over behind the name of
the build. -/
def read? (cs : List Char) : Option AppVersion := do
  let cs := if cs.head? = some 'v' then cs.drop 1 else cs
  let (epoch, cs) := optionally epoch? cs
  let (first, cs) ← number? cs
  let (more, cs) := numbers cs.length cs
  let (pre, cs) := optionally (mark? preWords) cs
  let (post, cs) := optionally post? cs
  let (dev, cs) := optionally (mark? devWords) cs
  let build ← build? cs
  return {
    epoch := epoch.getD 0
    release := first :: more
    pre, post
    dev := dev.map Prod.snd
    build }

/-- Reads the text of a version.  Blanks around it and the case of its letters do not count. -/
def parse? (text : String) : Option AppVersion :=
  read? ((Text.strip text.toList).map Char.toLower)

/-! ## The gate -/

/-- The first number of the release, without which there is no version. -/
def major (v : AppVersion) : Nat := v.release.getD 0 0

/-- The second number of the release, or zero if it has only one. -/
def minor (v : AppVersion) : Nat := v.release.getD 1 0

/-- Apps that speak an older protocol whatever their version. -/
def legacyNames : List String := ["Bitcoin Legacy", "Bitcoin Test Legacy"]

/-- Whether an app speaks an older protocol: by its name, or by a release before 2.1.  Neither
the epoch nor the marks of a version count here. -/
def isLegacy (v : AppVersion) (name : String) : Bool :=
  legacyNames.contains name || v.major < 2 || (v.major = 2 && v.minor = 0)

end AppVersion

end SignerHost
