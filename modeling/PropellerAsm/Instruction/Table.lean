import PropellerAsm.Instruction.Shape
import PropellerAsm.Text.Layout

/-!
# The instruction table

Every mnemonic with its form, grouped by what the instructions do.  The patterns are written from
bit 27 down; the condition is never part of them.  `secondForms` holds the forms that the operands
of some mnemonics select instead of the first one.
-/
namespace PropellerAsm.Instruction

/-- Rows of the table that share a shape. -/
def forms (shape : Shape) (rows : List (String × String)) : List (String × Form) :=
  rows.map fun row => (row.1, ⟨row.2, shape⟩)

/-! ## Instructions with written-out patterns -/

/-- Rotations and shifts of a register. -/
def shifts : List (String × Form) :=
  forms (.dstSrc false (some .wcz))
    [("ROR", "0000000 CZI"), ("ROL", "0000001 CZI"), ("SHR", "0000010 CZI"),
     ("SHL", "0000011 CZI"), ("RCR", "0000100 CZI"), ("RCL", "0000101 CZI"),
     ("SAR", "0000110 CZI"), ("SAL", "0000111 CZI")]

/-- Additions and subtractions. -/
def sums : List (String × Form) :=
  forms (.dstSrc false (some .wcz))
    [("ADD", "0001000 CZI"), ("ADDX", "0001001 CZI"), ("ADDS", "0001010 CZI"),
     ("ADDSX", "0001011 CZI"), ("SUB", "0001100 CZI"), ("SUBX", "0001101 CZI"),
     ("SUBS", "0001110 CZI"), ("SUBSX", "0001111 CZI")]

/-- Comparisons, and subtractions that depend on one. -/
def comparisons : List (String × Form) :=
  forms (.dstSrc false (some .wcz))
    [("CMP", "0010000 CZI"), ("CMPX", "0010001 CZI"), ("CMPS", "0010010 CZI"),
     ("CMPSX", "0010011 CZI"), ("CMPR", "0010100 CZI"), ("CMPM", "0010101 CZI"),
     ("SUBR", "0010110 CZI"), ("CMPSUB", "0010111 CZI")]

/-- Clamping, and sums whose sign depends on a flag. -/
def limits : List (String × Form) :=
  forms (.dstSrc false (some .wcz))
    [("FGE", "0011000 CZI"), ("FLE", "0011001 CZI"), ("FGES", "0011010 CZI"),
     ("FLES", "0011011 CZI"), ("SUMC", "0011100 CZI"), ("SUMNC", "0011101 CZI"),
     ("SUMZ", "0011110 CZI"), ("SUMNZ", "0011111 CZI")]

/-- Updates of a single bit, and the tests that share their operation codes: the flag that
follows a test adds 0, 2, 4 or 6 to the operation. -/
def bitUpdates : List (String × Form) :=
  forms .testBit
    [("TESTB", "0100000 CZI"), ("TESTBN", "0100001 CZI")] ++
  forms (.dstSrc false (some .wcz))
    [("BITL", "0100000 CZI"), ("BITH", "0100001 CZI"), ("BITC", "0100010 CZI"),
     ("BITNC", "0100011 CZI"), ("BITZ", "0100100 CZI"), ("BITNZ", "0100101 CZI"),
     ("BITRND", "0100110 CZI"), ("BITNOT", "0100111 CZI")]

/-- Bitwise logic and multiplexing by a flag. -/
def logic : List (String × Form) :=
  forms (.dstSrc false (some .wcz))
    [("AND", "0101000 CZI"), ("ANDN", "0101001 CZI"), ("OR", "0101010 CZI"),
     ("XOR", "0101011 CZI"), ("MUXC", "0101100 CZI"), ("MUXNC", "0101101 CZI"),
     ("MUXZ", "0101110 CZI"), ("MUXNZ", "0101111 CZI")]

/-- Moves and negations. -/
def moves : List (String × Form) :=
  forms (.dstSrc false (some .wcz))
    [("MOV", "0110000 CZI"), ("NOT", "0110001 CZI"), ("ABS", "0110010 CZI"),
     ("NEG", "0110011 CZI"), ("NEGC", "0110100 CZI"), ("NEGNC", "0110101 CZI"),
     ("NEGZ", "0110110 CZI"), ("NEGNZ", "0110111 CZI")]

/-- Counting, extension and tests of whole registers. -/
def widths : List (String × Form) :=
  forms (.dstSrc false (some .wcz))
    [("INCMOD", "0111000 CZI"), ("DECMOD", "0111001 CZI"), ("ZEROX", "0111010 CZI"),
     ("SIGNX", "0111011 CZI"), ("ENCOD", "0111100 CZI"), ("ONES", "0111101 CZI"),
     ("TEST", "0111110 CZI"), ("TESTN", "0111111 CZI")]

/-- Instructions on a nibble, byte or word of a register. -/
def lanes : List (String × Form) :=
  forms (.lane .nibble)
    [("SETNIB", "100000N NNI"), ("GETNIB", "100001N NNI"), ("ROLNIB", "100010N NNI")] ++
  forms (.lane .byte)
    [("SETBYTE", "1000110 NNI"), ("GETBYTE", "1000111 NNI"), ("ROLBYTE", "1001000 NNI")] ++
  forms (.lane .word)
    [("SETWORD", "1001001 0NI"), ("GETWORD", "1001001 1NI"), ("ROLWORD", "1001010 0NI")]

/-- Alterations of the next instruction. -/
def alterations : List (String × Form) :=
  forms .alter
    [("ALTSN", "1001010 10I"), ("ALTGN", "1001010 11I"), ("ALTSB", "1001011 00I"),
     ("ALTGB", "1001011 01I"), ("ALTSW", "1001011 10I"), ("ALTGW", "1001011 11I"),
     ("ALTR", "1001100 00I"), ("ALTD", "1001100 01I"), ("ALTS", "1001100 10I"),
     ("ALTB", "1001100 11I"), ("ALTI", "1001101 00I")]

/-- Instructions on two registers that leave the flags alone. -/
def registerPairs : List (String × Form) :=
  forms (.dstSrc false none)
    [("SETR", "1001101 01I"), ("SETD", "1001101 10I"), ("SETS", "1001101 11I"),
     ("DECOD", "1001110 00I"), ("BMASK", "1001110 01I"), ("CRCBIT", "1001110 10I"),
     ("CRCNIB", "1001110 11I"), ("MUXNITS", "1001111 00I"), ("MUXNIBS", "1001111 01I"),
     ("MUXQ", "1001111 10I"), ("MOVBYTS", "1001111 11I"), ("ADDPIX", "1010010 00I"),
     ("MULPIX", "1010010 01I"), ("BLNPIX", "1010010 10I"), ("MIXPIX", "1010010 11I"),
     ("ADDCT1", "1010011 00I"), ("ADDCT2", "1010011 01I"), ("ADDCT3", "1010011 10I")]

/-- Multiplications. -/
def products : List (String × Form) :=
  forms (.dstSrc false (some .wz))
    [("MUL", "1010000 0ZI"), ("MULS", "1010000 1ZI"), ("SCA", "1010001 0ZI"),
     ("SCAS", "1010001 1ZI")]

/-- Reads from pins, from the look-up table and from hub memory; the last kind takes a pointer
expression. -/
def reads : List (String × Form) :=
  forms (.dstSrc false (some .wc))
    [("RQPIN", "1010100 C0I"), ("RDPIN", "1010100 C1I")] ++
  forms (.dstSrc false (some .wcz))
    [("RDLUT", "1010101 CZI")] ++
  forms (.dstSrc true (some .wcz))
    [("RDBYTE", "1010110 CZI"), ("RDWORD", "1010111 CZI"), ("RDLONG", "1011000 CZI")] ++
  forms (.dstSrc true none)
    [("WMLONG", "1010011 11I")]

/-- Jumps that test or count a register. -/
def branches : List (String × Form) :=
  forms (.dstSrc false none)
    [("DJZ", "1011011 00I"), ("DJNZ", "1011011 01I"), ("DJF", "1011011 10I"),
     ("DJNF", "1011011 11I"), ("IJZ", "1011100 00I"), ("IJNZ", "1011100 01I"),
     ("TJZ", "1011100 10I"), ("TJNZ", "1011100 11I"), ("TJF", "1011101 00I"),
     ("TJNF", "1011101 01I"), ("TJS", "1011101 10I"), ("TJNS", "1011101 11I"),
     ("TJV", "1011110 00I")]

/-- Writes to pins, hub memory and the streamer, and other instructions with two operands that
may be immediate. -/
def writes : List (String × Form) :=
  forms (.both false none)
    [("CALLPA", "1011010 0LI"), ("CALLPB", "1011010 1LI"), ("SETPAT", "1011111 1LI"),
     ("WRPIN", "1100000 0LI"), ("WXPIN", "1100000 1LI"), ("WYPIN", "1100001 0LI"),
     ("WRLUT", "1100001 1LI"), ("RDFAST", "1100011 1LI"), ("WRFAST", "1100100 0LI"),
     ("FBLOCK", "1100100 1LI"), ("XINIT", "1100101 0LI"), ("XZERO", "1100101 1LI"),
     ("XCONT", "1100110 0LI"), ("REP", "1100110 1LI"), ("QMUL", "1101000 0LI"),
     ("QDIV", "1101000 1LI"), ("QFRAC", "1101001 0LI"), ("QSQRT", "1101001 1LI"),
     ("QROTATE", "1101010 0LI"), ("QVECTOR", "1101010 1LI")] ++
  forms (.both true none)
    [("WRBYTE", "1100010 0LI"), ("WRWORD", "1100010 1LI"), ("WRLONG", "1100011 0LI")] ++
  forms (.both false (some .wc))
    [("COGINIT", "1100111 CLI")] ++
  forms .src
    [("AKPIN", "1100000 01I 000000001")]

/-- The stack in hub memory. -/
def stack : List (String × Form) :=
  forms (.dst .none (some .wcz))
    [("POPA", "1011000 CZ1 DDDDDDDDD 101011111"), ("POPB", "1011000 CZ1 DDDDDDDDD 111011111")] ++
  forms (.dst .zero none)
    [("PUSHA", "1100011 0L1 DDDDDDDDD 101100001"), ("PUSHB", "1100011 0L1 DDDDDDDDD 111100001")]

/-- Instructions with one operand that may be immediate; the source field selects the operation. -/
def settings : List (String × Form) :=
  forms (.dst .immediate none)
    [("HUBSET", "1101011 00L DDDDDDDDD 000000000"),
     ("COGSTOP", "1101011 00L DDDDDDDDD 000000011"),
     ("LOCKRET", "1101011 00L DDDDDDDDD 000000101"),
     ("QLOG", "1101011 00L DDDDDDDDD 000001110"), ("QEXP", "1101011 00L DDDDDDDDD 000001111"),
     ("WFBYTE", "1101011 00L DDDDDDDDD 000010101"),
     ("WFWORD", "1101011 00L DDDDDDDDD 000010110"),
     ("WFLONG", "1101011 00L DDDDDDDDD 000010111"),
     ("SETDACS", "1101011 00L DDDDDDDDD 000011100"),
     ("SETXFRQ", "1101011 00L DDDDDDDDD 000011101"),
     ("SETSE1", "1101011 00L DDDDDDDDD 000100000"),
     ("SETSE2", "1101011 00L DDDDDDDDD 000100001"),
     ("SETSE3", "1101011 00L DDDDDDDDD 000100010"),
     ("SETSE4", "1101011 00L DDDDDDDDD 000100011"),
     ("SETINT1", "1101011 00L DDDDDDDDD 000100101"),
     ("SETINT2", "1101011 00L DDDDDDDDD 000100110"),
     ("SETINT3", "1101011 00L DDDDDDDDD 000100111"),
     ("SETQ", "1101011 00L DDDDDDDDD 000101000"), ("SETQ2", "1101011 00L DDDDDDDDD 000101001"),
     ("PUSH", "1101011 00L DDDDDDDDD 000101010"), ("JMPREL", "1101011 00L DDDDDDDDD 000110000"),
     ("SKIP", "1101011 00L DDDDDDDDD 000110001"), ("SKIPF", "1101011 00L DDDDDDDDD 000110010"),
     ("EXECF", "1101011 00L DDDDDDDDD 000110011"),
     ("COGBRK", "1101011 00L DDDDDDDDD 000110101"), ("BRK", "1101011 00L DDDDDDDDD 000110110"),
     ("SETLUTS", "1101011 00L DDDDDDDDD 000110111"),
     ("SETCY", "1101011 00L DDDDDDDDD 000111000"), ("SETCI", "1101011 00L DDDDDDDDD 000111001"),
     ("SETCQ", "1101011 00L DDDDDDDDD 000111010"),
     ("SETCFRQ", "1101011 00L DDDDDDDDD 000111011"),
     ("SETCMOD", "1101011 00L DDDDDDDDD 000111100"),
     ("SETPIV", "1101011 00L DDDDDDDDD 000111101"),
     ("SETPIX", "1101011 00L DDDDDDDDD 000111110"),
     ("COGATN", "1101011 00L DDDDDDDDD 000111111"),
     ("SETSCP", "1101011 00L DDDDDDDDD 001110000")] ++
  forms (.dst .immediate (some .wc))
    [("COGID", "1101011 C0L DDDDDDDDD 000000001"),
     ("LOCKTRY", "1101011 C0L DDDDDDDDD 000000110"),
     ("LOCKREL", "1101011 C0L DDDDDDDDD 000000111")] ++
  forms (.dst .immediate (some .wcz))
    [("WAITX", "1101011 CZL DDDDDDDDD 000011111")]

/-- Instructions with one register; the source field selects the operation. -/
def queries : List (String × Form) :=
  forms (.dst .none none)
    [("GETCT", "1101011 000 DDDDDDDDD 000011010"),
     ("GETXACC", "1101011 000 DDDDDDDDD 000011110"),
     ("GETPTR", "1101011 000 DDDDDDDDD 000110100"),
     ("SPLITB", "1101011 000 DDDDDDDDD 001100000"),
     ("MERGEB", "1101011 000 DDDDDDDDD 001100001"),
     ("SPLITW", "1101011 000 DDDDDDDDD 001100010"),
     ("MERGEW", "1101011 000 DDDDDDDDD 001100011"),
     ("SEUSSF", "1101011 000 DDDDDDDDD 001100100"),
     ("SEUSSR", "1101011 000 DDDDDDDDD 001100101"),
     ("RGBSQZ", "1101011 000 DDDDDDDDD 001100110"),
     ("RGBEXP", "1101011 000 DDDDDDDDD 001100111"),
     ("XORO32", "1101011 000 DDDDDDDDD 001101000"), ("REV", "1101011 000 DDDDDDDDD 001101001"),
     ("WRC", "1101011 000 DDDDDDDDD 001101100"), ("WRNC", "1101011 000 DDDDDDDDD 001101101"),
     ("WRZ", "1101011 000 DDDDDDDDD 001101110"), ("WRNZ", "1101011 000 DDDDDDDDD 001101111"),
     ("GETSCP", "1101011 000 DDDDDDDDD 001110001")] ++
  forms (.dst .none (some .wc))
    [("LOCKNEW", "1101011 C00 DDDDDDDDD 000000100")] ++
  forms (.dst .none (some .wcz))
    [("RFBYTE", "1101011 CZ0 DDDDDDDDD 000010000"),
     ("RFWORD", "1101011 CZ0 DDDDDDDDD 000010001"),
     ("RFLONG", "1101011 CZ0 DDDDDDDDD 000010010"),
     ("RFVAR", "1101011 CZ0 DDDDDDDDD 000010011"),
     ("RFVARS", "1101011 CZ0 DDDDDDDDD 000010100"),
     ("GETQX", "1101011 CZ0 DDDDDDDDD 000011000"), ("GETQY", "1101011 CZ0 DDDDDDDDD 000011001"),
     ("POP", "1101011 CZ0 DDDDDDDDD 000101011"), ("GETBRK", "1101011 CZ0 DDDDDDDDD 000110101"),
     ("RCZR", "1101011 CZ0 DDDDDDDDD 001101010"), ("RCZL", "1101011 CZ0 DDDDDDDDD 001101011")] ++
  forms .getRnd
    [("GETRND", "1101011 CZ0 DDDDDDDDD 000011011")]

/-- Pin updates, and the tests that share their source codes: the flag that follows a test adds
0, 2, 4 or 6 to the source field. -/
def pins : List (String × Form) :=
  forms .testPin
    [("TESTP", "1101011 CZL DDDDDDDDD 001000000"),
     ("TESTPN", "1101011 CZL DDDDDDDDD 001000001")] ++
  forms (.dst .immediate (some .wcz))
    [("DIRL", "1101011 CZL DDDDDDDDD 001000000"), ("DIRH", "1101011 CZL DDDDDDDDD 001000001"),
     ("DIRC", "1101011 CZL DDDDDDDDD 001000010"), ("DIRNC", "1101011 CZL DDDDDDDDD 001000011"),
     ("DIRZ", "1101011 CZL DDDDDDDDD 001000100"), ("DIRNZ", "1101011 CZL DDDDDDDDD 001000101"),
     ("DIRRND", "1101011 CZL DDDDDDDDD 001000110"),
     ("DIRNOT", "1101011 CZL DDDDDDDDD 001000111"), ("OUTL", "1101011 CZL DDDDDDDDD 001001000"),
     ("OUTH", "1101011 CZL DDDDDDDDD 001001001"), ("OUTC", "1101011 CZL DDDDDDDDD 001001010"),
     ("OUTNC", "1101011 CZL DDDDDDDDD 001001011"), ("OUTZ", "1101011 CZL DDDDDDDDD 001001100"),
     ("OUTNZ", "1101011 CZL DDDDDDDDD 001001101"),
     ("OUTRND", "1101011 CZL DDDDDDDDD 001001110"),
     ("OUTNOT", "1101011 CZL DDDDDDDDD 001001111"), ("FLTL", "1101011 CZL DDDDDDDDD 001010000"),
     ("FLTH", "1101011 CZL DDDDDDDDD 001010001"), ("FLTC", "1101011 CZL DDDDDDDDD 001010010"),
     ("FLTNC", "1101011 CZL DDDDDDDDD 001010011"), ("FLTZ", "1101011 CZL DDDDDDDDD 001010100"),
     ("FLTNZ", "1101011 CZL DDDDDDDDD 001010101"),
     ("FLTRND", "1101011 CZL DDDDDDDDD 001010110"),
     ("FLTNOT", "1101011 CZL DDDDDDDDD 001010111"), ("DRVL", "1101011 CZL DDDDDDDDD 001011000"),
     ("DRVH", "1101011 CZL DDDDDDDDD 001011001"), ("DRVC", "1101011 CZL DDDDDDDDD 001011010"),
     ("DRVNC", "1101011 CZL DDDDDDDDD 001011011"), ("DRVZ", "1101011 CZL DDDDDDDDD 001011100"),
     ("DRVNZ", "1101011 CZL DDDDDDDDD 001011101"),
     ("DRVRND", "1101011 CZL DDDDDDDDD 001011110"),
     ("DRVNOT", "1101011 CZL DDDDDDDDD 001011111")]

/-- Jumps, calls and returns. -/
def flow : List (String × Form) :=
  forms .jump
    [("JMP", "1101011 CZ0 DDDDDDDDD 000101100"), ("CALL", "1101011 CZ0 DDDDDDDDD 000101101"),
     ("CALLA", "1101011 CZ0 DDDDDDDDD 000101110"), ("CALLB", "1101011 CZ0 DDDDDDDDD 000101111")] ++
  forms .callD
    [("CALLD", "1011001 CZI")] ++
  forms (.bare (some .wcz))
    [("RET", "1101011 CZ1 000000000 000101101"), ("RETA", "1101011 CZ1 000000000 000101110"),
     ("RETB", "1101011 CZ1 000000000 000101111")] ++
  forms (.bare none)
    [("RESI3", "1011001 110 111110000 111110001"), ("RESI2", "1011001 110 111110010 111110011"),
     ("RESI1", "1011001 110 111110100 111110101"), ("RESI0", "1011001 110 111111110 111111111"),
     ("RETI3", "1011001 110 111111111 111110001"), ("RETI2", "1011001 110 111111111 111110011"),
     ("RETI1", "1011001 110 111111111 111110101"), ("RETI0", "1011001 110 111111111 111111111"),
     ("XSTOP", "1100101 011 000000000 000000000")] ++
  forms .pointerAddress
    [("LOC", "11101WW RAA")]

/-- No operation, augmentation of the next immediate, and assignment to the flags. -/
def modifiers : List (String × Form) :=
  forms .nop
    [("NOP", "0000000 000 000000000 000000000")] ++
  forms .augment
    [("AUGS", "11110NN NNN"), ("AUGD", "11111NN NNN")] ++
  forms (.modify .both)
    [("MODCZ", "1101011 CZ1 0cccczzzz 001101111")] ++
  forms (.modify .carry)
    [("MODC", "1101011 CZ1 0cccc0000 001101111")] ++
  forms (.modify .zero)
    [("MODZ", "1101011 CZ1 00000zzzz 001101111")]

/-! ## Event instructions

The destination field of an event instruction holds a selector, the place of the mnemonic in its
list. -/

/-- Jumps on an event, and on its absence. -/
def eventJumps : List String :=
  ["JINT", "JCT1", "JCT2", "JCT3", "JSE1", "JSE2", "JSE3", "JSE4", "JPAT", "JFBW", "JXMT", "JXFI",
   "JXRO", "JXRL", "JATN", "JQMT", "JNINT", "JNCT1", "JNCT2", "JNCT3", "JNSE1", "JNSE2", "JNSE3",
   "JNSE4", "JNPAT", "JNFBW", "JNXMT", "JNXFI", "JNXRO", "JNXRL", "JNATN", "JNQMT"]

/-- Polls of an event, and waits for one. -/
def eventPolls : List String :=
  ["POLLINT", "POLLCT1", "POLLCT2", "POLLCT3", "POLLSE1", "POLLSE2", "POLLSE3", "POLLSE4",
   "POLLPAT", "POLLFBW", "POLLXMT", "POLLXFI", "POLLXRO", "POLLXRL", "POLLATN", "POLLQMT",
   "WAITINT", "WAITCT1", "WAITCT2", "WAITCT3", "WAITSE1", "WAITSE2", "WAITSE3", "WAITSE4",
   "WAITPAT", "WAITFBW", "WAITXMT", "WAITXFI", "WAITXRO", "WAITXRL", "WAITATN"]

/-- Control of interrupts; the selectors go on after those of the events. -/
def interruptControl : List String :=
  ["ALLOWI", "STALLI", "TRGINT1", "TRGINT2", "TRGINT3", "NIXINT1", "NIXINT2", "NIXINT3"]

/-- The nine bits of an event selector. -/
def selector (n : Nat) : String :=
  Text.digits 2 9 n

/-- The forms of the event instructions. -/
def eventForms : List (String × Form) :=
  (eventJumps.zipIdx.map fun (name, i) => (name, ⟨"1011110 01I " ++ selector i, .src⟩)) ++
  (eventPolls.zipIdx.map fun (name, i) =>
    (name, ⟨"1101011 CZ0 " ++ selector i ++ " 000100100", .bare (some .wcz)⟩)) ++
  (interruptControl.zipIdx.map fun (name, i) =>
    (name, ⟨"1101011 000 " ++ selector (0x20 + i) ++ " 000100100", .bare none⟩))

/-! ## The tables -/

/-- The first form of every mnemonic. -/
def table : List (String × Form) :=
  shifts ++ sums ++ comparisons ++ limits ++ bitUpdates ++ logic ++ moves ++ widths ++ lanes ++
    alterations ++ registerPairs ++ products ++ reads ++ branches ++ writes ++ stack ++
    settings ++ queries ++ pins ++ flow ++ modifiers ++ eventForms

/-- The second forms: lanes and alterations with one operand, jumps and calls to an address,
a random number that only sets flags. -/
def secondForms : List (String × Form) :=
  forms .src
    [("SETNIB", "1000000 00I 000000000"), ("SETBYTE", "1000110 00I 000000000"),
     ("SETWORD", "1001001 00I 000000000")] ++
  forms (.dst .none none)
    [("GETNIB", "1000010 000 DDDDDDDDD 000000000"),
     ("ROLNIB", "1000100 000 DDDDDDDDD 000000000"),
     ("GETBYTE", "1000111 000 DDDDDDDDD 000000000"),
     ("ROLBYTE", "1001000 000 DDDDDDDDD 000000000"),
     ("GETWORD", "1001001 100 DDDDDDDDD 000000000"),
     ("ROLWORD", "1001010 000 DDDDDDDDD 000000000"),
     ("ALTSN", "1001010 101 DDDDDDDDD 000000000"), ("ALTGN", "1001010 111 DDDDDDDDD 000000000"),
     ("ALTSB", "1001011 001 DDDDDDDDD 000000000"), ("ALTGB", "1001011 011 DDDDDDDDD 000000000"),
     ("ALTSW", "1001011 101 DDDDDDDDD 000000000"), ("ALTGW", "1001011 111 DDDDDDDDD 000000000"),
     ("ALTR", "1001100 001 DDDDDDDDD 000000000"), ("ALTD", "1001100 011 DDDDDDDDD 000000000"),
     ("ALTS", "1001100 101 DDDDDDDDD 000000000"), ("ALTB", "1001100 111 DDDDDDDDD 000000000"),
     ("ALTI", "1001101 001 DDDDDDDDD 101100100")] ++
  forms .pointerAddress
    [("CALLD", "11100WW RAA")] ++
  forms (.bare (some .wcz))
    [("GETRND", "1101011 CZ1 000000000 000011011")] ++
  forms .address
    [("JMP", "1101100 RAA"), ("CALL", "1101101 RAA"), ("CALLA", "1101110 RAA"),
     ("CALLB", "1101111 RAA")]

end PropellerAsm.Instruction
