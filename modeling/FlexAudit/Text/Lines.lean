/-! # Lines of a text

A line ends at a line feed, at a carriage return, or at the two together. Terminators belong to no
line, and a terminator at the end of the text opens no further line. The text is read from its end:
each character is added to the lines of what follows it. -/

namespace FlexAudit.Text

/-- Adds one character in front of a text that is already split; `feed` says whether that text
starts with a line feed. -/
def pushFront (c : Char) (feed : Bool) (lines : List (List Char)) : List (List Char) :=
  if c = '\n' then [] :: lines
  else if c = '\r' then (if feed then lines else [] :: lines)
  else match lines with
    | [] => [[c]]
    | line :: rest => (c :: line) :: rest

/-- The lines of a text. -/
def splitLines (text : List Char) : List (List Char) :=
  (text.foldr (fun c s => (c == '\n', pushFront c s.1 s.2)) (false, [])).2

/-- Lines put back together, each closed by a line feed. -/
def joinLines (lines : List (List Char)) : List Char :=
  lines.flatMap (· ++ ['\n'])

@[simp] theorem splitLines_nil : splitLines [] = [] := rfl

theorem foldr_feed (text : List Char) :
    (text.foldr (fun c s => (c == '\n', pushFront c s.1 s.2)) (false, [])).1
      = (text.head? == some '\n') := by
  cases text <;> simp

theorem splitLines_cons (c : Char) (text : List Char) :
    splitLines (c :: text) = pushFront c (text.head? == some '\n') (splitLines text) := by
  rw [splitLines, List.foldr_cons, foldr_feed, splitLines]

theorem splitLines_feed (text : List Char) :
    splitLines ('\n' :: text) = [] :: splitLines text := by
  simp [splitLines_cons, pushFront]

theorem splitLines_return_feed (text : List Char) :
    splitLines ('\r' :: '\n' :: text) = [] :: splitLines text := by
  simp [splitLines_cons, pushFront]

end FlexAudit.Text
