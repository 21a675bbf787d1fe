import PropellerAsm.Main
import PropellerAsm.Proofs.Operand
import PropellerAsm.Proofs.Assembly.Replay
import PropellerAsm.Proofs.Assembly.FaultyLine
import PropellerAsm.Proofs.Encoding.FixedBits
import PropellerAsm.Proofs.Assembly.Placement
import PropellerAsm.Proofs.Assembly.Overlap
import PropellerAsm.Proofs.Assembly.CrossReference
import PropellerAsm.Proofs.Encoding.ReadBack
import PropellerAsm.Proofs.Assembly.Label
import PropellerAsm.Proofs.Assembly.Spacing
import PropellerAsm.Proofs.Assembly.Skipped
import PropellerAsm.Proofs.Assembly.Augment
import PropellerAsm.Proofs.Symbol.Index
import PropellerAsm.Proofs.CommandLine
import PropellerAsm.Proofs.Encoding.ShortForm
import PropellerAsm.Proofs.Assembly.KeywordCase
import PropellerAsm.Proofs.Encoding.Target
import PropellerAsm.Proofs.Word.Slices
import PropellerAsm.Proofs.Assembly.DataList
import PropellerAsm.Proofs.Encoding.Pointer
import PropellerAsm.Proofs.Assembly.Condition
import PropellerAsm.Proofs.Assembly.Origin
import PropellerAsm.Proofs.Expr.Separator
import PropellerAsm.Proofs.Text.Boundary
import PropellerAsm.Proofs.Encoding.Positions
import PropellerAsm.Proofs.Image.History
import PropellerAsm.Proofs.Literal.Digits
