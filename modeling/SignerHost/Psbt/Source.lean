import SignerHost.Psbt.Basic
import SignerHost.Text.Base64
import SignerHost.Text.Basic

/-!
# Forms of a partially signed transaction

A caller hands over bytes, text, or a transaction read before.  Text that starts with the magic
number in lowercase hexadecimal is hexadecimal, and any other text is base 64; blanks around the
text do not count.
-/

namespace SignerHost

/-- The forms in which a caller hands over a transaction. -/
inductive PsbtSource
  | bytes (bs : Bytes)
  | text (content : String)
  | parsed (p : Psbt)

namespace PsbtSource

/-- The bytes that a text stands for.  The start decides alone: text in uppercase hexadecimal is
read as base 64. -/
def decodeText? (text : List Char) : Option Bytes :=
  if (Bytes.toHex Psbt.magic).toList.isPrefixOf text then Bytes.ofHex? text
  else Base64.decode? text

/-- The transaction behind any form.  One that was read before is taken as it is, changed or not. -/
def normalize : PsbtSource → Except Failure Psbt
  | .parsed p => .ok p
  | .bytes bs => Psbt.parse bs
  | .text content =>
      match decodeText? (Text.strip content.toList) with
      | some bs => Psbt.parse bs
      | none => .error (.psbt .unreadable)

end PsbtSource

end SignerHost
