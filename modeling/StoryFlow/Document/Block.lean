/-! The text of a document is read in blocks. A block is looked at as a whole when it is read, so a
character that cannot stand in a document is noticed with the first character of its block. -/

namespace StoryFlow.Document

def isAllowed (c : Char) : Bool :=
  let n := c.toNat
  n == 0x09 || n == 0x0a || n == 0x0d || (0x20 ≤ n && n ≤ 0x7e) || n == 0x85 ||
    (0xa0 ≤ n && n ≤ 0xd7ff) || (0xe000 ≤ n && n ≤ 0xfffd) || 0x10000 ≤ n

def byteOrderMark : Char := '\ufeff'

namespace Block

def limit : Nat := 512

def split (room : Nat) : List Char → List Char × List Char
  | [] => ([], [])
  | c :: rest =>
    if c.utf8Size ≤ room then
      let (block, later) := split (room - c.utf8Size) rest
      (c :: block, later)
    else ([], c :: rest)

theorem split_append (room : Nat) (cs : List Char) :
    (split room cs).1 ++ (split room cs).2 = cs := by
  induction cs generalizing room with
  | nil => rfl
  | cons c rest ih =>
    rw [split]
    split
    · simp [ih]
    · rfl

/-- The blocks up to one with a character that is not allowed, and whether these are all. -/
def readable (room : Nat) : Nat → List Char → List (List Char) × Bool
  | 0, _ | _, [] => ([], true)
  | fuel + 1, cs =>
    let (block, later) := split room cs
    if block.all isAllowed then
      let (blocks, complete) := readable limit fuel later
      (block :: blocks, complete)
    else ([], false)

/-- The blocks of a text. A mark of the byte order in front takes its room but is not part of the
text. -/
def ofText (text : String) : List (List Char) × Bool :=
  match text.toList with
  | [] => ([], true)
  | c :: rest =>
    if c = byteOrderMark then readable (limit - c.utf8Size) (rest.length + 1) rest
    else readable limit (rest.length + 2) (c :: rest)

end Block

end StoryFlow.Document
