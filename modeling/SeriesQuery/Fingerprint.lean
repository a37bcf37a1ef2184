import SeriesQuery.Compile
import SeriesQuery.Sha256

/-!
Fingerprints of compiled statements.

A fingerprint is the digest of a canonical text, so statements that compile to the
same text share it however they are written.
-/

namespace SeriesQuery

/-- The fingerprint of a text: the SHA-256 digest of its UTF-8 bytes. -/
def fingerprint (text : String) : String :=
  Sha256.hex text.toUTF8.toList

/-- The fingerprint of a compiled statement. -/
def Compiled.fingerprint (c : Compiled) : String :=
  SeriesQuery.fingerprint c.text

end SeriesQuery
