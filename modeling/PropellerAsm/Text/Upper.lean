/-!
# Upper case

Keywords are written in ASCII capitals and recognised in any case.  A word matches a keyword when
its upper case, by the full case mapping of Unicode, spells the keyword.  Only characters whose
upper case is spelled in ASCII can take part in a match, so these are the only ones that are
mapped: the small letters, the dotless i, the long and the sharp s, and the Latin ligatures.
-/
namespace PropellerAsm.Text

/-- The upper case of a character where ASCII capitals spell it; any other character is itself. -/
def upperChar (c : Char) : List Char :=
  if c.toNat < 0x80 then [c.toUpper]
  else match c with
    | 'ß' => ['S', 'S']
    | 'ı' => ['I']
    | 'ſ' => ['S']
    | 'ﬀ' => ['F', 'F']
    | 'ﬁ' => ['F', 'I']
    | 'ﬂ' => ['F', 'L']
    | 'ﬃ' => ['F', 'F', 'I']
    | 'ﬄ' => ['F', 'F', 'L']
    | 'ﬅ' => ['S', 'T']
    | 'ﬆ' => ['S', 'T']
    | _ => [c]

/-- The upper case of a word, as far as keywords can tell. -/
def upper (s : String) : String :=
  String.ofList (s.toList.flatMap upperChar)

/-- The ASCII upper case of a word: every other character stays. -/
def upperAscii (cs : List Char) : List Char :=
  cs.map Char.toUpper

end PropellerAsm.Text
