import ToolBatching.Text.Search

namespace ToolBatching

inductive Switch where
  | verbose
  | quiet
  | config
  | maxBatch
  | nozzleDiameter
  | coneAngle
  | safetyMargin
  | hopHeight
  | noPrimeTower
  | flavor
  | json
  | layers
  deriving DecidableEq

namespace Switch

def name : Switch → String
  | verbose => "verbose"
  | quiet => "quiet"
  | config => "config"
  | maxBatch => "max-batch"
  | nozzleDiameter => "nozzle-diameter"
  | coneAngle => "cone-angle"
  | safetyMargin => "safety-margin"
  | hopHeight => "zhop"
  | noPrimeTower => "no-prime-tower"
  | flavor => "flavor"
  | json => "json"
  | layers => "layers"

def letter? : Switch → Option Char
  | verbose => some 'v'
  | quiet => some 'q'
  | config => some 'c'
  | layers => some 'l'
  | _ => none

def takesValue : Switch → Bool
  | verbose | quiet | noPrimeTower | json => false
  | _ => true

/-- Whether the switch may stand more than once. -/
def repeats (s : Switch) : Bool :=
  s == verbose

end Switch

/-- One argument that has been understood. -/
inductive Argument where
  | switch (s : Switch)
  | valued (s : Switch) (value : String)
  | name (text : String)

namespace Argument

/-- Whether an argument is read as a switch. A single dash is a name. -/
def looksLikeSwitch (text : String) : Bool :=
  text.toList.head? == some '-' && text != "-"

/-- Read short switches; the second result is a switch whose value is the next
argument. -/
def readLetters (known : List Switch) : List Char → Option (List Argument × Option Switch)
  | [] => some ([], none)
  | c :: rest => do
      let s ← known.find? fun s => s.letter? == some c
      if s.takesValue then
        match rest with
        | [] => some ([], some s)
        | '=' :: value => some ([.valued s (String.ofList value)], none)
        | value => some ([.valued s (String.ofList value)], none)
      else
        let (others, pending) ← readLetters known rest
        some (.switch s :: others, pending)

/-- Read a long switch; the second result is a switch whose value is the next
argument. -/
def readLong (known : List Switch) (text : List Char) :
    Option (List Argument × Option Switch) := do
  let (key, value) := text.span (· != '=')
  let s ← known.find? fun s => s.name.toList == key
  match value, s.takesValue with
  | [], true => some ([], some s)
  | [], false => some ([.switch s], none)
  | _ :: value, true => some ([.valued s (String.ofList value)], none)
  | _ :: _, false => none

/-- Read an argument that looks like a switch. -/
def readSwitch (known : List Switch) (text : String) : Option (List Argument × Option Switch) :=
  match text.toList with
  | '-' :: '-' :: text => readLong known text
  | _ :: letters => readLetters known letters
  | [] => none

/-- Read arguments among known switches; `none` if one is not understood. -/
def readAll (known : List Switch) : List String → Option (List Argument)
  | [] => some []
  | text :: rest =>
      if text = "--" then some (rest.map name)
      else if looksLikeSwitch text then
        match readSwitch known text with
        | none => none
        | some (found, none) => (readAll known rest).map (found ++ ·)
        | some (found, some s) =>
            match rest with
            | [] => none
            | value :: rest =>
                if looksLikeSwitch value then none
                else (readAll known rest).map (found ++ valued s value :: ·)
      else (readAll known rest).map (name text :: ·)

def switch? : Argument → Option Switch
  | switch s | valued s _ => some s
  | name _ => none

def name? : Argument → Option String
  | name text => some text
  | _ => none

/-- Whether arguments go together: no switch stands twice that may not, and the output
is not both verbose and quiet. -/
def consistent (arguments : List Argument) : Bool :=
  let switches := arguments.filterMap switch?
  (switches.all fun s => s.repeats || switches.count s == 1)
    && !(switches.contains .verbose && switches.contains .quiet)

def has (s : Switch) (arguments : List Argument) : Bool :=
  (arguments.filterMap switch?).contains s

def value? (s : Switch) (arguments : List Argument) : Option String :=
  arguments.findSome? fun a =>
    match a with
    | valued t value => if t = s then some value else none
    | _ => none

/-- Read the value of a switch if it stands among arguments; `none` if its value is not
understood. -/
def parsed {α : Type} (s : Switch) (read : String → Option α) (arguments : List Argument) :
    Option (Option α) :=
  match value? s arguments with
  | none => some none
  | some text => (read text).map some

end Argument

end ToolBatching
