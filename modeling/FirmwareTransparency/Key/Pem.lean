import FirmwareTransparency.Base64
import FirmwareTransparency.Bytes.Search
import FirmwareTransparency.Text

/-!
# Textual key encodings

Keys are also given as text: base64 between a line that begins a labelled block and a line that ends
it. `strict?` admits only lines of 64 characters, the last one excepted; `lenient?` ignores white
space and everything outside the first block.
-/

set_option autoImplicit false

namespace FirmwareTransparency.Pem

/-- What the first line of any block starts with. -/
def beginMark : Bytes := Text.utf8 "-----BEGIN "

/-- What the last line of any block starts with. -/
def endMark : Bytes := Text.utf8 "-----END "

/-- What the first and the last line of a block end with. -/
def dashes : Bytes := Text.utf8 "-----"

/-- The characters of a full line of base64. -/
def lineWidth : Nat := 64

/-- Skips the text in front of a block, which must end a line and hold no zero byte. -/
def skipPreamble? : Bytes → Option Bytes
  | [] => none
  | byte :: rest =>
    if byte = 0 then none
    else if byte = 0x0a ∧ beginMark.isPrefixOf rest then some rest
    else skipPreamble? rest

/-- The text from the first line of the first block on. -/
def fromBlock? (text : Bytes) : Option Bytes :=
  if beginMark.isPrefixOf text then some text else skipPreamble? text

/-- Takes a line end at the front: a line feed, a carriage return, or both in the other order. -/
def dropLineEnd? : Bytes → Option Bytes
  | [] => none
  | byte :: rest =>
    if byte = 0x0a then some rest
    else if byte = 0x0d then
      match rest with
      | [] => some []
      | next :: more => if next = 0x0a then some more else some rest
    else none

/-- Takes a line end at the back of a text that is given from its back. -/
def dropLineEndReversed? : Bytes → Option Bytes
  | [] => none
  | byte :: rest =>
    if byte = 0x0a then
      match rest with
      | [] => some []
      | next :: more => if next = 0x0d then some more else some rest
    else if byte = 0x0d then some rest
    else none

/-- Takes a line end at the back. -/
def dropLastLineEnd? (text : Bytes) : Option Bytes :=
  (dropLineEndReversed? text.reverse).map List.reverse

/-- The text without the line end at its back, if there is one. -/
def withoutLastLineEnd (text : Bytes) : Bytes := (dropLastLineEnd? text).getD text

/-- The characters of a block whose last line is given, with the line end that may stand at its
back; `done` holds the characters before it, latest first. An empty line can be the last one, unless
the base64 in front of it is padded and so has ended. -/
def joinLastLine? (done text : Bytes) : Option Bytes :=
  if (withoutLastLineEnd text).isEmpty ∧ ¬text.isEmpty ∧ done.head? = some Base64.padding then none
  else some (done.reverse ++ withoutLastLineEnd text)

/-- Joins the lines of a block, each of full width but the last; `done` holds the characters so far,
latest first. Every full line takes a byte or more, which bounds their number. -/
def joinLines? (done : Bytes) : (steps : Nat) → Bytes → Option Bytes
  | 0, _ => none
  | steps + 1, text =>
    match text.drop lineWidth with
    | [] => joinLastLine? done text
    | rest =>
      match dropLineEnd? rest with
      | some rest => joinLines? ((text.take lineWidth).reverse ++ done) steps rest
      | none => none

/-- What stands between the first and the last line of a block with the given label. One line end
may follow the block and nothing else. -/
def body? (label text : Bytes) : Option Bytes := do
  let block ← fromBlock? text
  let block ← Bytes.dropFront? (beginMark ++ label ++ dashes) block
  let block ← dropLineEnd? block
  let block ← Bytes.dropBack? (endMark ++ label ++ dashes) (withoutLastLineEnd block)
  dropLastLineEnd? block

/-- Reads base64, which must not be empty. -/
def base64? (text : Bytes) : Option Bytes :=
  if text.isEmpty then none
  else
    match Base64.decode text with
    | .ok bytes => some bytes
    | .error _ => none

/-- Reads a block with the given label whose lines all have their full width. -/
def strict? (label text : Bytes) : Option Bytes := do
  let body ← body? label text
  let joined ← joinLines? [] (body.length + 1) body
  base64? joined

/-- White space that a lenient block may hold anywhere. -/
def isIgnored (byte : UInt8) : Bool :=
  byte == 0x0a || byte == 0x0d || byte == 0x09 || byte == 0x20

/-- Reads the first block with the given label, ignoring white space in it and everything outside
it. -/
def lenient? (label text : Bytes) : Option Bytes := do
  let first := beginMark ++ label ++ dashes
  let last := endMark ++ label ++ dashes
  let (_, rest) ← Bytes.splitAtPattern? first text
  let upToNext := match Bytes.splitAtPattern? first rest with
    | some (block, _) => block
    | none => rest
  let (body, _) ← Bytes.splitAtPattern? last upToNext
  base64? (body.filter (!isIgnored ·))

end FirmwareTransparency.Pem
