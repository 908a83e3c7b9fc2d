import TomlSemantics.KeySet.Basic
import TomlSemantics.Text.Quoted

/-!
# Listings of a set of keys

A listing is stable text with a line for every key, attribute and comment: the name and the value
of the key, and below it what else it has, each line indented and labelled.
-/

namespace TomlSemantics

/-- What follows the name of a key: nothing, its text, or how many bytes it has. -/
def KeyValue.listing : Option KeyValue → String
  | none => ""
  | some (.text s) => " = " ++ Text.quoted s
  | some (.bytes b) => " = <binary " ++ b.length.repr ++ " bytes>"

/-- A labelled line below a key. -/
def listingLine (label text : String) : String := "  " ++ label ++ ": " ++ text ++ "\n"

/-- A part of a block of comments below a key. -/
def BlockEntry.listing (label : String) : BlockEntry → String
  | comment c => listingLine label (Text.quoted c.text)
  | blankLines n => listingLine label ("<" ++ n.repr ++ " blank>")

/-- The lines of a key: name and value, number, attributes, and comments. -/
def Key.listing (k : Key) : String :=
  String.join
    ([k.name.toPath ++ KeyValue.listing k.value ++ "\n"]
      ++ k.order.toList.map (fun n => listingLine "order" n.repr)
      ++ k.attributes.entries.map (fun e => listingLine e.1 (Text.quoted e.2))
      ++ k.comments.leading.map (BlockEntry.listing "leading")
      ++ k.comments.inline.toList.map (fun c => listingLine "inline" (Text.quoted c.text))
      ++ k.comments.trailing.map (BlockEntry.listing "trailing"))

/-- The lines of all keys in name order. -/
def KeySet.listing (s : KeySet) : String := String.join (s.toList.map Key.listing)

end TomlSemantics
