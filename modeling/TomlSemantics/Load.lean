import TomlSemantics.Builder.Step

/-!
# Loading documents

`parse` makes a set of keys from the events of a document. `load` and `loadFile` add the keys to a
set that is there already: all of them, or none.
-/

namespace TomlSemantics

/-- The keys of a document. -/
def parse (o : Options) (events : List Event) : Except Fault KeySet :=
  ((State.start o ∅).feedUntilFault o events).finish

/-- Adds the keys to a set, or leaves it as it is. -/
def addStaged (staged : Except Fault KeySet) (keys : KeySet) : Except Fault Unit × KeySet :=
  match staged with
  | .ok staged => (.ok (), staged.mergeInto keys)
  | .error fault => (.error fault, keys)

/-- Adds the keys of a document to a set. -/
def load (o : Options) (events : List Event) (keys : KeySet) : Except Fault Unit × KeySet :=
  addStaged (parse o events) keys

/-! ## Grammars -/

/-- What a grammar does with a text: it reports events one after another, sees for each whether it
caused a fault, and in the end says how it went. -/
inductive Recognition
  | done (outcome : Except Fault Unit)
  | report (e : Event) (next : Option Fault → Recognition)

/-- A grammar is what it does with each text. -/
abbrev Grammar := String → Recognition

namespace Recognition

/-- The recognition that goes on with what `next` makes of the outcome of `r`. -/
def andThen (r : Recognition) (next : Except Fault Unit → Recognition) : Recognition :=
  match r with
  | done outcome => next outcome
  | report e following => report e fun fault => (following fault).andThen next

/-- Reports the events of a list, and stops at the first that causes a fault. -/
def replay : List Event → Recognition
  | [] => done (.ok ())
  | e :: rest => report e fun
      | none => replay rest
      | some fault => done (.error fault)

/-- Runs a recognition on a state. -/
def run (o : Options) (s : State) : Recognition → Except Fault Unit × State
  | done outcome => (outcome, s)
  | report e next => (next (s.feed o e).2).run o (s.feed o e).1

end Recognition

/-! ## Files -/

/-- What is found at a path. -/
inductive FileContent
  | missing
  | bytes (b : List UInt8)
deriving DecidableEq, Repr

/-- The text of a file. -/
def FileContent.text : FileContent → Except ReadFailure String
  | missing => .error .missing
  | bytes b =>
      match String.fromUTF8? ⟨b.toArray⟩ with
      | some text => .ok text
      | none => .error .notUtf8

/-- The settings with the source called by a path, unless it has a name. -/
def Options.named (o : Options) (path : String) : Options :=
  { o with filename := some (o.filename.getD path) }

/-- The keys that a grammar reports of a text. A fault that an event caused comes before one that
the grammar found, and no grammar can take it back. -/
def recognise (o : Options) (grammar : Grammar) (text : String) : Except Fault KeySet := do
  let (outcome, s) := (grammar text).run o (State.start o ∅)
  let staged ← s.finish
  outcome
  return staged

/-- Adds the keys that a grammar reports of the file at a path to a set. -/
def loadFile (path : String) (file : FileContent) (o : Options) (grammar : Grammar)
    (keys : KeySet) : Except Fault Unit × KeySet :=
  match file.text with
  | .error reason => (.error ⟨.unreadable path reason, none⟩, keys)
  | .ok text => addStaged (recognise (o.named path) grammar text) keys

end TomlSemantics
