/-!
# Texts with a meaning of their own

Bare texts need no quotes as part of a key. Two marks at the front of a string value say that it
stands for something else: nothing at all, or bytes in base 64.
-/

namespace TomlSemantics.Text

/-- The string value that stands for no value. -/
def nullMarker : String := "@NULL"

/-- What stands in front of bytes in base 64. -/
def base64Marker : String := "@BASE64"

/-- The letters and digits of ASCII, the underscore and the hyphen. -/
def isBareChar (c : Char) : Bool := c.isAlphanum || c = '_' || c = '-'

/-- Whether a text may be part of a key without quotes. -/
def isBare (s : String) : Bool := !s.toList.isEmpty && s.toList.all isBareChar

/-- Whether a string value stands for no value. -/
def isNull (s : String) : Bool := s = nullMarker

/-- Whether a string value stands for bytes in base 64. -/
def isBase64 (s : String) : Bool := base64Marker.toList.isPrefixOf s.toList

end TomlSemantics.Text
