import SignerHost.Failure

/-!
# Texts

A text becomes bytes in one of several encodings, and is taken apart as a list of characters.

* `utf8` writes any text, `latin1` refuses characters above 255, and `ofAscii` refuses bytes above
  127.  `shortString` is the Latin-1 form behind one byte of length.
* `splitAt` gives one part more than there are separators, so it never gives an empty list.
* `replaceAll` works from left to right and never looks at what it has put in.
-/

namespace SignerHost

namespace Text

/-! ## Texts as bytes -/

/-- The UTF-8 form, which every text has. -/
def utf8 (text : String) : Bytes := text.toUTF8.data.toList

/-- One byte for each character.  A text with any other character has no such form. -/
def latin1 (text : String) : Except Failure Bytes :=
  if text.toList.all fun c => c.toNat < 256 then
    .ok (text.toList.map fun c => UInt8.ofNat c.toNat)
  else .error .notLatin1

/-- The text of ASCII bytes.  Any other byte is refused. -/
def ofAscii (bs : Bytes) : Except Failure String :=
  if bs.all fun b => b < 128 then .ok (String.ofList (bs.map fun b => Char.ofNat b.toNat))
  else .error (.malformed .notAscii)

/-- A text in Latin-1 behind one byte of length.  A text of more than 255 characters has no such
form. -/
def shortString (text : String) : Except Failure Bytes := do
  let bs ← latin1 text
  if bs.length < 256 then return UInt8.ofNat bs.length :: bs
  else throw .overflow

/-! ## Parts of a text -/

/-- Ranges of code points of blank characters: the ASCII controls that separate, the space, and
the spaces and separators of Unicode. -/
def blankRanges : List (Nat × Nat) :=
  [(0x9, 0xd), (0x1c, 0x20), (0x85, 0x85), (0xa0, 0xa0), (0x1680, 0x1680), (0x2000, 0x200a),
    (0x2028, 0x2029), (0x202f, 0x202f), (0x205f, 0x205f), (0x3000, 0x3000)]

def isBlank (c : Char) : Bool :=
  blankRanges.any fun r => r.1 ≤ c.toNat && c.toNat ≤ r.2

/-- Drops the characters of a kind at both ends.  Those in between stay. -/
def trim (drops : Char → Bool) (cs : List Char) : List Char :=
  ((cs.dropWhile drops).reverse.dropWhile drops).reverse

/-- Drops blank characters at both ends. -/
def strip (cs : List Char) : List Char := trim isBlank cs

/-- Cuts at every occurrence of a character.  Two in a row have an empty part between them. -/
def splitAt (sep : Char) : List Char → List (List Char)
  | [] => [[]]
  | c :: cs =>
      if c = sep then [] :: splitAt sep cs
      else match splitAt sep cs with
        | [] => [[c]]
        | part :: parts => (c :: part) :: parts

/-- Puts a separator between the parts. -/
def join (sep : List Char) : List (List Char) → List Char
  | [] => []
  | [part] => part
  | part :: parts => part ++ sep ++ join sep parts

/-- Replaces the pattern `p :: ps` in a text of which `skip` more characters belong to an
occurrence already replaced. -/
def replaceFrom (p : Char) (ps replacement : List Char) : Nat → List Char → List Char
  | _, [] => []
  | skip + 1, _ :: cs => replaceFrom p ps replacement skip cs
  | 0, c :: cs =>
      if c = p ∧ ps.isPrefixOf cs then replacement ++ replaceFrom p ps replacement ps.length cs
      else c :: replaceFrom p ps replacement 0 cs

/-- Replaces every occurrence of the pattern `p :: ps`.  Occurrences that overlap one already
replaced do not count. -/
def replaceAll (p : Char) (ps replacement cs : List Char) : List Char :=
  replaceFrom p ps replacement 0 cs

end Text

end SignerHost
