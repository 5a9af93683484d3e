import RecordGrammar.Notice
import RecordGrammar.Text.Line
import RecordGrammar.Text.Split
import RecordGrammar.Text.Wrap

/-!
# What the command line shows

Everything is laid out as lines for a terminal of 400 columns: messages, notices, texts in a frame, and
the table of statistics of a grammar.
-/

namespace RecordGrammar.Command.Display

def columns : Nat := 400

/-- The number of columns of the message of a notice. -/
def noticeColumns : Nat := 380

/-- Whether a terminal would act on the character instead of showing it. -/
def isControl (c : Char) : Bool := c ∈ ['\x07', '\x08', '\x0b', '\x0c', '\x0d']

/-- The lines of a text, without control characters and tabs, on so many columns. -/
def linesOf (columns : Nat) (s : String) : List String :=
  (Text.splitAtEach '\n' (s.toList.filter (!isControl ·))).flatMap fun line =>
    (Text.wrap columns (Text.expandTabs 8 Text.charWidth 0 line)).map String.ofList

def plain (s : String) : List String := linesOf columns s

def success (s : String) : List String := plain ("✓ " ++ s)

def failure (s : String) : List String := plain ("✗ Command failed: " ++ s)

def info (s : String) : List String := plain ("ℹ " ++ s)

def header (title : String) : List String :=
  ["", title, String.ofList (List.replicate title.length '='), ""]

/-- A line that sets off the result. -/
def separator : List String := [String.ofList (List.replicate 70 '─')]

/-- A notice with its level before it. -/
def notice (n : Notice) : List String :=
  let margin := String.ofList (Text.padTo 9 n.level.text.toList)
  match linesOf noticeColumns n.message with
  | [] => [margin]
  | line :: lines => (margin ++ line) :: lines.map (String.ofList (List.replicate 9 ' ') ++ ·)

/-- The characters with a line feed in the place of every carriage return, together with a line feed
behind it. -/
def lineFeeds : List Char → List Char
  | [] => []
  | '\r' :: '\n' :: cs => '\n' :: lineFeeds cs
  | c :: cs => (if c = '\r' then '\n' else c) :: lineFeeds cs

/-- The lines of a text in a frame. A carriage return at the very end starts no further line. -/
def framedLines (s : String) : List (List Char) :=
  let closed := s.endsWith "\n"
  let text := lineFeeds (Text.expandTabs 4 (fun _ => 1) 0 (if closed then s else s ++ "\n").toList)
  let lines := Text.splitAtEach '\n' (text.filter (!isControl ·))
  if closed then lines else lines.dropLast

/-- A text in a frame with a title. -/
def panel (title text : String) : List String :=
  let dashes (n : Nat) : String := String.ofList (List.replicate n '─')
  let free := columns - 2 - (title.length + 2)
  let inner := columns - 4
  let line (cs : List Char) : String := "│ " ++ String.ofList (Text.padTo inner cs) ++ " │"
  ["╭" ++ dashes (free / 2) ++ " " ++ title ++ " " ++ dashes (free - free / 2) ++ "╮"]
    ++ ((framedLines text).flatMap (Text.wrap inner)).map line
    ++ ["╰" ++ dashes (columns - 2) ++ "╯"]

/-- The name of the rule that a line of a grammar holds; the whole line, if it holds none. -/
def ruleName : List Char → List Char
  | [] => []
  | ' ' :: ':' :: ':' :: '=' :: ' ' :: _ => []
  | c :: cs => c :: ruleName cs

/-- Whether a line of a grammar holds the rule of a field. -/
def isFieldRule (line : List Char) : Bool := "-kv".toList.isSuffixOf (ruleName line)

/-- The table of statistics of a grammar. -/
def statistics (grammar entry : String) : List String :=
  let lines := Text.splitLines grammar.toList
  let row (label value : String) : String :=
    "│ " ++ String.ofList (Text.padTo 20 label.toList) ++ " │ " ++ String.ofList (Text.padTo 30 value.toList) ++ " │"
  ["",
   "                   Grammar Statistics",
   "┏━━━━━━━━━━━━━━━━━━━━━━┳━━━━━━━━━━━━━━━━━━━━━━━━━━━━━━━━┓",
   "┃ Metric               ┃ Value                          ┃",
   "┡━━━━━━━━━━━━━━━━━━━━━━╇━━━━━━━━━━━━━━━━━━━━━━━━━━━━━━━━┩",
   row "Entry Rule" entry,
   row "Rules" (toString lines.length),
   row "Field Rules" (toString (lines.countP isFieldRule)),
   row "Size" (toString grammar.length ++ " chars"),
   "└──────────────────────┴────────────────────────────────┘",
   ""]

end RecordGrammar.Command.Display
