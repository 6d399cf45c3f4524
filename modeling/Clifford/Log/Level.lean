import Clifford.Error

/-! Levels of log messages: their names, their colours, and the form of a written message. -/

namespace Clifford.Log

/-- The levels that have names. -/
inductive Level
  | unset
  | debug
  | info
  | warning
  | error
  | critical
deriving DecidableEq, Repr

namespace Level

/-- Every named level, the lowest first. -/
def all : List Level := [unset, debug, info, warning, error, critical]

/-- The number of a level. -/
def number : Level → Int
  | unset => 0
  | debug => 10
  | info => 20
  | warning => 30
  | error => 40
  | critical => 50

/-- The written name of a level. -/
def name : Level → String
  | unset => "NOTSET"
  | debug => "DEBUG"
  | info => "INFO"
  | warning => "WARNING"
  | error => "ERROR"
  | critical => "CRITICAL"

/-- The number of the terminal colour of a level, which the lowest one does not have. -/
def colour? : Level → Option Nat
  | unset => none
  | debug => some 36
  | info => some 32
  | warning => some 33
  | error => some 31
  | critical => some 35

/-- The named level of a number. -/
def ofNumber? (n : Int) : Option Level := all.find? (·.number = n)

/-- The level of a name in capitals, where two levels have a second name. -/
def ofCapitals? : String → Option Level
  | "WARN" => some warning
  | "FATAL" => some critical
  | text => all.find? (·.name = text)

end Level

/-- The capital of a letter as far as names of levels need it: the dotless `i` and the long `s`
share the capitals of the plain letters. -/
def capital (c : Char) : Char :=
  if c = 'ı' then 'I' else if c = 'ſ' then 'S' else c.toUpper

/-- A text in capitals. -/
def capitals (text : String) : String := String.ofList (text.toList.map capital)

/-- What a text given for a level stands for: a level, or the layout that is known by a name of
the same kind and is no level. -/
inductive Setting
  | level (number : Int)
  | layout (text : String)
deriving DecidableEq, Repr

namespace Setting

/-- The setting that a text names in any case, and the level of information for other texts. -/
def ofText (text : String) : Setting :=
  match capitals text with
  | "BASIC_FORMAT" => layout "%(levelname)s:%(name)s:%(message)s"
  | name => level ((Level.ofCapitals? name).getD Level.info).number

/-- The number of a setting that is a level. -/
def number : Setting → Result Int
  | level number => .ok number
  | layout text => .error (.unknownLevel text)

end Setting

/-- The name of a level by number. -/
def levelName (n : Int) : String :=
  match Level.ofNumber? n with
  | some level => level.name
  | none => "Level " ++ toString n

/-- The terminal sequence that sets a colour, where zero is the plain one. -/
def escape (colour : Nat) : String := "\x1b[" ++ toString colour ++ "m"

/-- The name of a level in its colour, with a return to the plain colour. -/
def colouredName (n : Int) : String :=
  let colour := match (Level.ofNumber? n).bind Level.colour? with
    | some colour => escape colour
    | none => ""
  colour ++ levelName n ++ escape 0

/-- The name under which the messages of a part of the program are written. -/
def loggerName (part : String) : String := "gacc." ++ part

/-- A message with its level and the name of its logger. -/
structure Message where
  level : Int
  logger : String
  text : String

namespace Message

/-- The line of a message, after any time stamp. -/
def line (m : Message) (coloured : Bool) : String :=
  let name := if coloured then colouredName m.level else levelName m.level
  name ++ " " ++ m.logger ++ ": " ++ m.text

end Message

/-- The level that messages need to reach, where an unset one is that of warnings. -/
def effectiveLevel (level : Int) : Int :=
  if level = Level.unset.number then Level.warning.number else level

/-- Whether a message is written: it has to reach the level, and to have a level at all. -/
def passes (level : Int) (m : Message) : Bool :=
  Level.unset.number < m.level && effectiveLevel level ≤ m.level

/-- The lines that are written of some messages. -/
def lines (level : Int) (messages : List Message) : List String :=
  (messages.filter (passes level)).map (·.line false)

end Clifford.Log
