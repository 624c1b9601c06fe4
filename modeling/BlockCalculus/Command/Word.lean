import BlockCalculus.Command.Switch
import BlockCalculus.Text.Digit

/-!
# Words of the command line

Before any word of a command line is acted on, each is classified:

* A word that starts with no dash is plain, and so are a single dash, negative numbers, and unknown
  words with a space in them.
* A switch is spelled out, or cut short if only one long spelling starts that way. A value may be
  attached to a spelling by `=`, and more letters to a short one.
* After the word `--` all words are plain.
-/

namespace BlockCalculus.Command

/-- A classified word. -/
inductive Word where
  | plain (text : String)
  /-- A switch, whether it is spelled by one letter, and what is attached to it. -/
  | switch (s : Switch) (short : Bool) (attached : Option (List Char))
  /-- A word that looks like a switch and is none. -/
  | unknown (text : String)
  /-- The word after which all words are plain. -/
  | marker
  deriving DecidableEq, Repr

/-- Whether a word is a negative number: a dash, digits, and perhaps a point with digits after it.
A line break at the end does not count. -/
def isNegativeNumber : List Char → Bool
  | '-' :: rest =>
    let body := if rest.getLast? = some '\n' then rest.dropLast else rest
    match body.dropWhile Text.isDecimal with
    | [] => !body.isEmpty
    | '.' :: places => !places.isEmpty && places.all Text.isDecimal
    | _ => false
  | _ => false

/-- A text before and after its first `=`, if it has one. -/
def splitValue (cs : List Char) : List Char × Option (List Char) :=
  match cs.dropWhile (· != '=') with
  | [] => (cs, none)
  | _ :: value => (cs.takeWhile (· != '='), some value)

/-- The long or short spellings that a word with a dash can stand for, and what is attached. -/
def readings : List Char → List (String × Switch × Bool × Option (List Char))
  | '-' :: '-' :: rest =>
    let (start, value) := splitValue ('-' :: '-' :: rest)
    (Switch.table.filter fun entry => start.isPrefixOf entry.1.toList).map fun entry =>
      (entry.1, entry.2, false, value)
  | '-' :: c :: rest =>
    (Switch.table.filter fun entry => entry.1.toList == ['-', c]).map fun entry =>
      (entry.1, entry.2, true, some rest)
  | _ => []

/-- Whether a spelling is short: one dash and one letter. -/
def isShort (spelling : String) : Bool :=
  spelling.length == 2

/-- Classifies a word that is not spelled out and has more to it than a dash. -/
def classifyLoose (text : String) : Except UsageError Word :=
  match readings text.toList with
  | [(_, s, short, attached)] => .ok (.switch s short attached)
  | [] =>
    if isNegativeNumber text.toList || text.toList.contains ' ' then .ok (.plain text)
    else .ok (.unknown text)
  | several => .error (.ambiguous text (several.map Prod.fst))

/-- Classifies a word that does not follow the marker. -/
def classify (text : String) : Except UsageError Word :=
  match text.toList with
  | '-' :: _ :: _ =>
    match Switch.ofSpelling? text with
    | some s => .ok (.switch s (isShort text) none)
    | none =>
      let (start, value) := splitValue text.toList
      match value, Switch.ofSpelling? (String.ofList start) with
      | some v, some s => .ok (.switch s (isShort (String.ofList start)) (some v))
      | _, _ => classifyLoose text
  | _ => .ok (.plain text)

/-- Classifies the words of a command line. -/
def classifyAll : List String → Except UsageError (List Word)
  | [] => .ok []
  | "--" :: rest => .ok (.marker :: rest.map .plain)
  | text :: rest => do
    let word ← classify text
    return word :: (← classifyAll rest)

end BlockCalculus.Command
