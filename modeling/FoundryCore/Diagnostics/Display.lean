import FoundryCore.Diagnostics.Error
import FoundryCore.Library.Find
import FoundryCore.Library.Runs
import FoundryCore.Remappings.Text

/-!
# Diagnostics as text

The formatted message of a diagnostic is written again with colors: the frames of its source
locations, and the code that the carets below it point to. Text that lies between the bar of a
frame and the carets is written in between, for which the carets have to stand behind the bar.
-/

namespace FoundryCore.Diagnostics

/-- `char::is_numeric`. Of the ASCII characters it holds of the digits. -/
structure Unicode where
  isNumeric : Char → Bool
  ascii : ∀ c : Char, c.val < 128 → isNumeric c = c.isDigit

abbrev Line := List Char

def arrow : Line := "-->".toList

/-! ## Text with colors -/

inductive Color
  | red | yellow | white | cyan | blue
deriving DecidableEq

structure Style where
  color : Color
  bold : Bool
deriving DecidableEq

/-- What is written: text, and the codes before and after text in a style. -/
inductive Chunk
  | text (text : Line)
  | before (style : Style)
  | after (style : Style)
deriving DecidableEq

/-- What is left when the color codes are removed. -/
def plain (chunks : List Chunk) : Line :=
  chunks.flatMap fun
    | .text text => text
    | _ => []

variable (enabled : Bool)

/-- Writes in a style if colors are enabled. -/
def styled (style : Style) (chunks : List Chunk) : List Chunk :=
  if enabled then [Chunk.before style] ++ chunks ++ [Chunk.after style] else chunks

def severityColor : Severity → Color
  | .error => .red
  | .warning => .yellow
  | .info => .white

def messageStyle : Style := ⟨.white, true⟩

def secondaryStyle : Style := ⟨.cyan, true⟩

def highlightStyle : Style := ⟨.yellow, false⟩

def diagStyle : Style := ⟨.yellow, true⟩

def frameStyle : Style := ⟨.blue, false⟩

/-! ## Lines -/

/-- `str::lines`. -/
def lines (text : List Char) : List Line :=
  let parts := text.splitOn '\n'
  let ended := parts.dropLast.map fun line =>
    if line.getLast? = some '\r' then line.dropLast else line
  match parts.getLast? with
  | none | some [] => ended
  | some line => ended ++ [line]

/-- `str::split_once` at an arrow. -/
def splitArrow : Line → Option (Line × Line)
  | [] => none
  | c :: line =>
    if arrow <+: c :: line then some ([], (c :: line).drop arrow.length)
    else (splitArrow line).map fun (left, loc) => (c :: left, loc)

/-- `str::len`, in bytes. -/
def len (line : Line) : Nat := Library.weight Char.utf8Size line

/-- The position of the first character that is asked for. -/
def findChar (p : Char → Bool) (line : Line) : Option Nat :=
  if line.any p then some (len (line.takeWhile fun c => !p c)) else none

def isCharBoundary (line : Line) (position : Nat) : Bool :=
  (Library.cut Char.utf8Size position line).isSome

/-- A slice by positions; none where taking it panics. -/
def str (line : Line) (start stop : Nat) : Option Line :=
  Library.part Char.utf8Size start stop line

/-! ## Source locations -/

variable (unicode : Unicode)

/-- A line of a source location, and the range of it to highlight. -/
def fmtFramedLocation (line : Line) (highlight : Option ((Nat × Nat) × Style)) :
    Option (List Chunk) :=
  match Library.splitOnce '|' line with
  | none => some [.text ['\n'], .text line]
  | some (spaceOrLineNumber, rest) =>
    -- if the potential frame is not just whitespace or numbers, it is not colored
    if !spaceOrLineNumber.all fun c => isWhitespace c || unicode.isNumeric c then
      some [.text ['\n'], .text line]
    else
      let frame := styled enabled frameStyle [.text spaceOrLineNumber, .text ['|']]
      match highlight with
      | none => some ([Chunk.text ['\n']] ++ frame ++ [Chunk.text rest])
      | some ((start, stop), style) =>
        if !isCharBoundary line start || !isCharBoundary line stop then
          some ([Chunk.text ['\n']] ++ frame ++ [Chunk.text rest])
        else do
          let restStart := len line - len rest
          let code ← str line restStart start
          let marked ← str line start stop
          let after ← str line stop (len line)
          return [Chunk.text ['\n']] ++ frame ++ [Chunk.text code] ++
            styled enabled style [Chunk.text marked] ++ [Chunk.text after]

/-- Where the code that the carets of the third line point to begins and ends in the second. -/
def highlightOf (line2 line3 : Line) : Option (Nat × Nat) :=
  (findChar (· == '^') line3).map fun start =>
    let stop :=
      if "^ (".toList <:+: line3 then len line2
      else match findChar (· != '^') (line3.dropWhile (· != '^')) with
        | some carets => start + carets
        | none => len line3
    let stop := min stop (len line2)
    (min start stop, stop)

/-- The last three lines of a source location. -/
structure Location where
  line1 : Line
  line2 : Line
  line3 : Line

/-- The lines with what is highlighted in them. -/
def Location.calls (location : Location) : List (Line × Option ((Nat × Nat) × Style)) :=
  [(location.line1, none),
   (location.line2, (highlightOf location.line2 location.line3).map (·, highlightStyle)),
   (location.line3, (findChar (· == '^') location.line3).map fun i =>
     ((i, len location.line3), diagStyle))]

def fmtSource (line : Line) : List Chunk :=
  match splitArrow line with
  | some (left, loc) =>
    [Chunk.text ['\n'], .text left] ++ styled enabled frameStyle [.text arrow] ++
      [Chunk.text loc]
  | none => [.text ['\n'], .text line]

/-- Writes a source location and takes up to four lines for it. -/
def fmtSourceLocation : List Line → Option (List Chunk)
  | [] => some []
  | [line] => some (fmtSource enabled line)
  | [line, line1] => some (fmtSource enabled line ++ [Chunk.text ['\n'], .text line1])
  | [line, line1, line2] => some (fmtSource enabled line ++
      [Chunk.text ['\n'], .text line1, .text ['\n'], .text line2])
  | line :: line1 :: line2 :: line3 :: _ => do
    let framed ← (Location.mk line1 line2 line3).calls.mapM fun (line, highlight) =>
      fmtFramedLocation enabled unicode line highlight
    return fmtSource enabled line ++ framed.flatten

def fmtMsg (msg : Line) : List Chunk :=
  styled enabled messageStyle [.text [':', ' '], .text (msg.dropWhile isWhitespace)]

def fmtNote (line : Line) : List Chunk :=
  match Library.splitOnce ':' line with
  | some (note, msg) =>
    [Chunk.text ['\n']] ++ styled enabled secondaryStyle [Chunk.text note] ++ fmtMsg enabled msg
  | none => [.text ['\n'], .text line]

/-- The remaining lines: notes with their source locations. -/
def fmtNotes : List Line → Option (List Chunk)
  | [] => some []
  | line :: lines => do
    let location ← fmtSourceLocation enabled unicode lines
    let notes ← fmtNotes (lines.drop 4)
    return fmtNote enabled line ++ location ++ notes
termination_by lines => lines.length
decreasing_by
  simp only [List.length_drop, List.length_cons]
  omega

/-! ## Diagnostics -/

def fmtSeverity (err : Error) : List Chunk :=
  [Chunk.text err.severity.asStr.toList] ++ match err.errorCode with
    | some code => [.text (" (" ++ toString code ++ ")").toList]
    | none => []

/-- The message, or the one at the beginning of the formatted message if there is none. -/
def shortMsg (err : Error) : Line :=
  let shortMsg := Library.trim isWhitespace err.message.toList
  if shortMsg.isEmpty then
    match lines (err.formattedMessage.getD "").toList with
    | [] => shortMsg
    | firstLine :: _ => match Library.splitOnce ':' firstLine with
      | some (_, s) => s.dropWhile isWhitespace
      | none => firstLine
  else shortMsg

/-- The lines from the first source location on; all of them if the message is an old one, with its
source location in front. -/
def locationLines : List Line → List Line
  | [] => []
  | l :: lines =>
    if 3 ≤ l.count ':' ∧ ('/' ∈ l ∨ '\\' ∈ l ∨ ".sol".toList <:+: l) then l :: lines
    else lines.dropWhile fun line => !decide (arrow <:+: line)

def fmt (err : Error) : Option (List Chunk) := do
  let lines := locationLines (lines (err.formattedMessage.getD "").toList)
  let location ← fmtSourceLocation enabled unicode lines
  let notes ← fmtNotes enabled unicode (lines.drop 4)
  return styled enabled ⟨severityColor err.severity, true⟩ (fmtSeverity err) ++
    fmtMsg enabled (shortMsg err) ++ location ++ notes

end FoundryCore.Diagnostics
