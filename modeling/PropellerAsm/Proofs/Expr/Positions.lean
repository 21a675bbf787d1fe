import PropellerAsm.Proofs.Expr.Phrases
import PropellerAsm.Proofs.Text.Boundary

/-!
# Expressions by position

The readers once more, over the byte positions of a source text.  They look at single bytes, and cut
text out of the source in two places only: the rest of it for the fault of a malformed place, and
the names.  Where a cut would not lie on boundaries between characters, a reader has no result.

A digit run compares bytes, a backslash takes one byte of a longer character, and blanks, operators
and names are ASCII; all of them stop behind an ASCII byte or at the end.  So every position that a
reader comes to is a boundary, and it reads what the readers over bytes do.
-/
namespace PropellerAsm

open Utf8 (slice? At)

namespace Expr

/-! ## Readers -/

namespace Placed

variable (src : String)

/-- The position of the end. -/
def size : Nat :=
  (Utf8.encode src).length

/-- The byte at a position. -/
def peek? (pos : Nat) : Option UInt8 :=
  (Utf8.encode src)[pos]?

/-- The bytes from a position on. -/
def behind (pos : Nat) : List UInt8 :=
  (Utf8.encode src).drop pos

/-- The position behind the blanks at a position. -/
def skipBlanks (pos : Nat) : Nat :=
  pos + ((behind src pos).takeWhile isBlank).length

/-- The fault of a place where the source cannot be read on. -/
def unexpected (pos : Nat) : Option Fault :=
  (slice? src pos (size src)).map .invalidExpression

/-- Reads a number in a base. -/
def number (r : Radix) (pos : Nat) : Expr × Nat :=
  let (value, stop) := Digits.readAt r numberStops (Utf8.encode src) pos
  (.literal value, stop)

/-- Reads an octal number from behind its leading zero. -/
def octal (pos : Nat) : Expr × Nat :=
  let (value, stop) := Digits.readAt .octal numberStops (Utf8.encode src) pos
  match peek? src stop with
  | some b =>
    if b = '8'.toUInt8 ∨ b = '9'.toUInt8 then
      (.fault (.invalidOctalDigit (Char.ofNat b.toNat)), size src)
    else (.literal value, stop)
  | none => (.literal value, stop)

/-- Reads a string from its opening quote. -/
def string (pos : Nat) : Expr × Nat :=
  let (content, stop) := Quoted.readAt (Utf8.encode src) pos
  (.literal (Quoted.value content), stop)

/-- Reads a name. -/
def nameRun (pos : Nat) : Option (Expr × Nat) :=
  let stop := pos + ((behind src pos).takeWhile isNameByte).length
  (slice? src pos stop).map fun name => (.name name, stop)

/-- Reads a literal or a name with the first byte `b`. -/
def leaf (b : UInt8) (pos : Nat) : Option (Expr × Nat) :=
  if b = '$'.toUInt8 then
    match peek? src (pos + 1) with
    | some c =>
      if (Radix.hexadecimal.digit? c).isSome then some (number src .hexadecimal (pos + 1))
      else some (.here, pos + 1)
    | none => some (.here, pos + 1)
  else if b = '%'.toUInt8 then
    match peek? src (pos + 1) with
    | some c =>
      if c = '%'.toUInt8 then some (number src .quaternary (pos + 2))
      else some (number src .binary (pos + 1))
    | none => some (number src .binary (pos + 1))
  else if b = Quoted.quote then some (string src pos)
  else if b = '0'.toUInt8 ∧ (peek? src (pos + 1)).any isDigit then some (octal src (pos + 1))
  else if isDigit b then some (number src .decimal pos)
  else if isNameStart b then nameRun src pos
  else (unexpected src pos).map fun f => (.fault f, size src)

/-- Reads the operators of a tier with their right sides, after a left side. -/
def chain (tier : Tier) (operand : Nat → Option (Expr × Nat)) :
    Nat → Expr → Nat → Option (Expr × Nat)
  | 0, l, pos => (unexpected src pos).map fun f => (.followed l f, size src)
  | bound + 1, l, pos =>
    match tier.operator? (behind src (skipBlanks src pos)) with
    | none => some (l, skipBlanks src pos)
    | some (op, _) => do
      let (r, stop) ← operand (skipBlanks src pos + op.spelling.length)
      chain tier operand bound (.binary op l r) stop

/-- Reads operands joined by the operators of a tier. -/
def level (tier : Tier) (operand : Nat → Option (Expr × Nat)) (bound pos : Nat) :
    Option (Expr × Nat) := do
  let (l, stop) ← operand pos
  chain src tier operand bound l stop

/-- Reads a whole expression over given operands. -/
def tiers (operand : Nat → Option (Expr × Nat)) (bound : Nat) : Nat → Option (Expr × Nat) :=
  level src .bits (level src .sums (level src .products operand bound) bound) bound

/-- Reads the parenthesis that closes an expression. -/
def closing (e : Expr) (pos : Nat) : Option (Expr × Nat) :=
  if peek? src (skipBlanks src pos) = some ')'.toUInt8 then some (e, skipBlanks src pos + 1)
  else (unexpected src (skipBlanks src pos)).map fun f => (.followed e f, size src)

/-- Reads an operand. -/
def operand : Nat → Nat → Option (Expr × Nat)
  | 0, pos => (unexpected src pos).map fun f => (.fault f, size src)
  | bound + 1, pos =>
    let start := skipBlanks src pos
    match peek? src start with
    | none => some (.fault (.missing .expression), size src)
    | some b =>
      if b = '-'.toUInt8 then do
        let (e, stop) ← operand bound (start + 1)
        return (.unary .negate e, stop)
      else if b = '!'.toUInt8 ∨ b = '~'.toUInt8 then do
        let (e, stop) ← operand bound (start + 1)
        return (.unary .complement e, stop)
      else if b = '('.toUInt8 then do
        let (e, stop) ← tiers src (operand bound) (bound + 1) (start + 1)
        closing src e stop
      else leaf src b start

/-- The tree of the source from a position on. -/
def parse (pos : Nat) : Option Expr := do
  let bound := size src - pos + 1
  let (e, stop) ← tiers src (operand src bound) bound pos
  if skipBlanks src stop < size src then
    (unexpected src (skipBlanks src stop)).map fun f => .followed e f
  else return e

end Placed

/-! ## Boundaries -/

variable {src : String} {pos : Nat} {text : List UInt8}

theorem size_of_at (h : At src pos text) : Placed.size src = pos + text.length :=
  h.add_length.symm

theorem at_size (src : String) : At src (Placed.size src) [] :=
  Utf8.at_end src

theorem behind_of_at (h : At src pos text) : Placed.behind src pos = text :=
  h.drop_eq

theorem peek?_of_at (h : At src pos text) : Placed.peek? src pos = text.head? :=
  h.getElem?_eq

theorem unexpected_of_at (h : At src pos text) :
    Placed.unexpected src pos = some (unexpected text) := by
  rw [Placed.unexpected, Placed.size, h.slice_rest]
  rfl

theorem lt_of_isBlank {b : UInt8} (h : isBlank b = true) : b.toNat < 0x80 := by
  obtain rfl | rfl := (isBlank_iff b).mp h
  · decide
  · decide

theorem at_skipBlanks (h : At src pos text) :
    At src (Placed.skipBlanks src pos) (skipBlanks text) := by
  rw [Placed.skipBlanks, behind_of_at h]
  exact h.dropWhile fun _ => lt_of_isBlank

theorem lt_of_continues {r : Radix} {b : UInt8} (h : Digits.continues r numberStops b = true) :
    b.toNat < 0x80 := by
  obtain rfl | hdigit := (continues_iff r b).mp h
  · decide
  · rw [Radix.digit?, Option.isSome_filter] at hdigit
    cases hvalue : Radix.digitValue? b with
    | none =>
      rw [hvalue] at hdigit
      cases hdigit
    | some d =>
      unfold Radix.digitValue? at hvalue
      dsimp only at hvalue
      split_ifs at hvalue
      all_goals omega

/-- A digit run ends at a boundary. -/
theorem at_digits (h : At src pos text) (r : Radix) :
    (Digits.readAt r numberStops (Utf8.encode src) pos).1 =
      (Digits.read r numberStops text).1 ∧
    At src (Digits.readAt r numberStops (Utf8.encode src) pos).2
      (Digits.read r numberStops text).2 := by
  rw [Digits.readAt, h.drop_eq]
  exact ⟨rfl, h.dropWhile fun _ => lt_of_continues⟩

/-- A quotation ends behind its closing quote or with the text. -/
theorem Quotation.stops {content text rest : List UInt8} (h : Quotation content text rest) :
    Utf8.Stops text rest := by
  induction h with
  | closed => exact .inr ⟨[], _, rfl, by decide⟩
  | unclosed => exact .inl rfl
  | dangling => exact .inl rfl
  | escaped _ ih => exact (ih.cons _).cons _
  | byte _ _ _ ih => exact ih.cons _

/-- A result by position is that of a reader over bytes, and the text that this one returns stands
behind a boundary. -/
def Placed.Matches (src : String) (read : Expr × List UInt8) (placed : Option (Expr × Nat)) :
    Prop :=
  ∃ stop, placed = some (read.1, stop) ∧ At src stop read.2

/-- A reader by position does what a reader over bytes does. -/
def Placed.Agrees (src : String) (read : List UInt8 → Expr × List UInt8)
    (placed : Nat → Option (Expr × Nat)) : Prop :=
  ∀ pos text, At src pos text → Placed.Matches src (read text) (placed pos)

open Placed (Matches Agrees)

theorem matches_unexpected (h : At src pos text) (f : Fault → Expr) :
    Matches src (f (unexpected text), [])
      ((Placed.unexpected src pos).map fun fault => (f fault, Placed.size src)) := by
  rw [unexpected_of_at h]
  exact ⟨_, rfl, at_size src⟩

theorem matches_number (h : At src pos text) (r : Radix) :
    Matches src (number r text) (some (Placed.number src r pos)) := by
  obtain ⟨hvalue, hstop⟩ := at_digits h r
  refine ⟨_, congrArg some (Prod.ext ?_ rfl), hstop⟩
  exact congrArg Expr.literal hvalue

theorem matches_octal (h : At src pos text) :
    Matches src (octal text) (some (Placed.octal src pos)) := by
  obtain ⟨hvalue, hstop⟩ := at_digits h .octal
  unfold octal Placed.octal
  generalize Digits.read .octal numberStops text = read at hvalue hstop
  obtain ⟨value, rest⟩ := read
  dsimp only at hvalue hstop ⊢
  rw [peek?_of_at hstop, hvalue]
  cases rest with
  | nil => exact ⟨_, rfl, hstop⟩
  | cons b more =>
    rw [List.head?_cons]
    dsimp only
    split_ifs
    · -- Nothing is read behind a fault.
      exact ⟨_, rfl, at_size src⟩
    · exact ⟨_, rfl, hstop⟩

theorem matches_string {rest : List UInt8} (h : At src pos (Quoted.quote :: rest)) :
    Matches src (.literal (Quoted.value (Quoted.read (Quoted.quote :: rest)).1),
      (Quoted.read (Quoted.quote :: rest)).2) (some (Placed.string src pos)) := by
  have hread : Quoted.read (Quoted.quote :: rest) = Quoted.body rest := by
    rw [Quoted.read, if_pos rfl]
  have hstops := (body_eq_iff.mp (Prod.eta (Quoted.body rest)).symm).stops
  unfold Placed.string Quoted.readAt
  rw [h.drop_eq, hread]
  exact ⟨_, rfl, h.stop (hstops.cons _)⟩

theorem matches_nameRun (h : At src pos text) :
    Matches src (nameRun text) (Placed.nameRun src pos) := by
  have hascii : ∀ b, isNameByte b = true → b.toNat < 0x80 :=
    fun b hb => ((isNameByte_iff b).mp hb).lt
  have hrun := h
  rw [← List.takeWhile_append_dropWhile (p := isNameByte) (l := text)] at hrun
  have hslice := hrun.slice_run fun b hb =>
    hascii b (List.all_eq_true.mp List.all_takeWhile b hb)
  unfold Placed.nameRun
  rw [behind_of_at h]
  dsimp only
  rw [hslice]
  exact ⟨_, rfl, h.dropWhile hascii⟩

theorem matches_dollar {rest : List UInt8} (h : At src pos ('$'.toUInt8 :: rest)) :
    Matches src (leaf '$'.toUInt8 rest) (Placed.leaf src '$'.toUInt8 pos) := by
  have hrest := h.cons (by decide)
  unfold leaf Placed.leaf
  rw [if_pos rfl, if_pos rfl, peek?_of_at hrest]
  cases rest with
  | nil => exact ⟨_, rfl, hrest⟩
  | cons c more =>
    rw [List.head?_cons]
    dsimp only
    split_ifs
    · exact matches_number hrest .hexadecimal
    · exact ⟨_, rfl, hrest⟩

theorem matches_percent {rest : List UInt8} (h : At src pos ('%'.toUInt8 :: rest)) :
    Matches src (leaf '%'.toUInt8 rest) (Placed.leaf src '%'.toUInt8 pos) := by
  have hrest := h.cons (by decide)
  have hother : ¬ '%'.toUInt8 = '$'.toUInt8 := by decide
  unfold leaf Placed.leaf
  rw [if_neg hother, if_neg hother, if_pos rfl, if_pos rfl, peek?_of_at hrest]
  cases rest with
  | nil => exact matches_number hrest .binary
  | cons c more =>
    rw [List.head?_cons]
    dsimp only
    split_ifs with hdouble
    · exact matches_number (hrest.cons (by rw [hdouble]; decide)) .quaternary
    · exact matches_number hrest .binary

/-- Literals are read without a cut, and a name or a fault is cut out where it stands. -/
theorem matches_leaf {b : UInt8} {rest : List UInt8} (h : At src pos (b :: rest)) :
    Matches src (leaf b rest) (Placed.leaf src b pos) := by
  by_cases hdollar : b = '$'.toUInt8
  · subst hdollar
    exact matches_dollar h
  by_cases hpercent : b = '%'.toUInt8
  · subst hpercent
    exact matches_percent h
  unfold leaf Placed.leaf
  rw [if_neg hdollar, if_neg hdollar, if_neg hpercent, if_neg hpercent]
  by_cases hquote : b = Quoted.quote
  · subst hquote
    rw [if_pos rfl, if_pos rfl]
    exact matches_string h
  rw [if_neg hquote, if_neg hquote]
  -- Only behind a zero, which is ASCII, is the next byte that of the text left.
  have hpeek : b = '0'.toUInt8 ∧ (Placed.peek? src (pos + 1)).any isDigit = true ↔
      b = '0'.toUInt8 ∧ rest.head?.any isDigit = true := by
    refine and_congr_right fun hzero => ?_
    rw [peek?_of_at (h.cons (by rw [hzero]; decide))]
  rw [if_congr hpeek rfl rfl]
  split_ifs with hzero hdigit hname
  · exact matches_octal (h.cons (by rw [hzero.1]; decide))
  · exact matches_number h .decimal
  · exact matches_nameRun h
  · exact matches_unexpected h .fault

variable {read : List UInt8 → Expr × List UInt8} {placed : Nat → Option (Expr × Nat)}

theorem spelling_ascii (op : BinaryOp) : ∀ b ∈ op.spelling, b.toNat < 0x80 :=
  List.all_iff_forall_prop.mp (by cases op <;> decide)

theorem matches_chain (tier : Tier) (hitem : Agrees src read placed) (bound : Nat) (l : Expr)
    (h : At src pos text) :
    Matches src (chain tier read bound l text) (Placed.chain src tier placed bound l pos) := by
  induction bound generalizing l pos text with
  | zero => exact matches_unexpected h (.followed l)
  | succ bound ih =>
    have hskipped := at_skipBlanks h
    rw [chain, Placed.chain, behind_of_at hskipped]
    cases hoperator : tier.operator? (skipBlanks text) with
    | none => exact ⟨_, rfl, hskipped⟩
    | some found =>
      obtain ⟨op, more⟩ := found
      -- An operator is ASCII, so its right side starts at a boundary.
      rw [(operator?_sound hoperator).2] at hskipped
      have hmore := hskipped.append (spelling_ascii op)
      obtain ⟨stop, hplaced, hstop⟩ := hitem _ _ hmore
      dsimp only
      rw [hplaced]
      exact ih _ hstop

theorem agrees_level (tier : Tier) (hitem : Agrees src read placed) (bound : Nat) :
    Agrees src (level tier read bound) (Placed.level src tier placed bound) := by
  intro pos text h
  obtain ⟨stop, hplaced, hstop⟩ := hitem _ _ h
  rw [Placed.level, hplaced]
  exact matches_chain tier hitem bound _ hstop

theorem agrees_tiers (hitem : Agrees src read placed) (bound : Nat) :
    Agrees src (tiers read bound) (Placed.tiers src placed bound) :=
  agrees_level .bits (agrees_level .sums (agrees_level .products hitem bound) bound) bound

theorem matches_closing (e : Expr) (h : At src pos text) :
    Matches src (closing e text) (Placed.closing src e pos) := by
  have hskipped := at_skipBlanks h
  unfold closing Placed.closing
  rw [peek?_of_at hskipped]
  generalize skipBlanks text = skipped at hskipped
  cases skipped with
  | nil => exact matches_unexpected hskipped (.followed e)
  | cons b rest =>
    rw [List.head?_cons]
    dsimp only
    by_cases hclose : b = ')'.toUInt8
    · rw [if_pos hclose, if_pos (congrArg some hclose)]
      exact ⟨_, rfl, hskipped.cons (by rw [hclose]; decide)⟩
    · rw [if_neg hclose, if_neg (fun hsome => hclose (Option.some.inj hsome))]
      exact matches_unexpected hskipped (.followed e)

/-- Signs and parentheses are ASCII, and what they stand before agrees by induction. -/
theorem agrees_operand (src : String) (bound : Nat) :
    Agrees src (operand bound) (Placed.operand src bound) := by
  induction bound with
  | zero => exact fun _ _ h => matches_unexpected h .fault
  | succ bound ih =>
    intro pos text h
    have hskipped := at_skipBlanks h
    rw [operand, Placed.operand]
    dsimp only
    rw [peek?_of_at hskipped]
    generalize skipBlanks text = skipped at hskipped
    cases skipped with
    | nil => exact ⟨_, rfl, at_size src⟩
    | cons b rest =>
      rw [List.head?_cons]
      dsimp only
      -- A sign stands before an operand, a parenthesis before an expression, and else there is a
      -- leaf.
      split_ifs with hneg hnot hopen
      · obtain ⟨stop, hplaced, hstop⟩ := ih _ _ (hskipped.cons (by rw [hneg]; decide))
        rw [hplaced]
        exact ⟨stop, rfl, hstop⟩
      · obtain ⟨stop, hplaced, hstop⟩ :=
          ih _ _ (hskipped.cons (by obtain rfl | rfl := hnot <;> decide))
        rw [hplaced]
        exact ⟨stop, rfl, hstop⟩
      · obtain ⟨stop, hplaced, hstop⟩ :=
          agrees_tiers ih (bound + 1) _ _ (hskipped.cons (by rw [hopen]; decide))
        rw [hplaced]
        exact matches_closing _ hstop
      · exact matches_leaf hskipped

/-- From a boundary a source is read by position as its rest is read. -/
theorem parse_of_at (h : At src pos text) : Placed.parse src pos = some (parse text) := by
  have hbound : Placed.size src - pos + 1 = text.length + 1 := by
    rw [size_of_at h, Nat.add_sub_cancel_left]
  obtain ⟨stop, hread, hstop⟩ :=
    agrees_tiers (agrees_operand src (text.length + 1)) (text.length + 1) _ _ h
  have hskipped := at_skipBlanks hstop
  unfold Placed.parse parse read
  rw [hbound]
  dsimp only
  rw [hread]
  generalize tiers (operand (text.length + 1)) (text.length + 1) text = result at hskipped
  obtain ⟨e, rest⟩ := result
  have hsize := size_of_at hskipped
  dsimp only at hskipped hsize ⊢
  rw [Option.bind_eq_bind, Option.bind_some]
  dsimp only
  generalize skipBlanks rest = left at hskipped hsize
  cases left with
  | nil =>
    rw [List.length_nil, Nat.add_zero] at hsize
    rw [hsize, if_neg (Nat.lt_irrefl _)]
    rfl
  | cons b more =>
    rw [List.length_cons] at hsize
    rw [if_pos (by omega), unexpected_of_at hskipped]
    rfl

end Expr

/-! ## Operands -/

namespace Operand

/-- The sigil of an operand text, and the position behind it. -/
def Placed.sigil (src : String) : Sigil × Nat :=
  let start := Expr.Placed.skipBlanks src 0
  let tail := Expr.Placed.behind src start
  let (sigil, rest) := Sigil.read tail
  (sigil, start + (tail.length - rest.length))

/-- The sigil and the expression of an operand text. -/
def Placed.parse (src : String) : Option (Sigil × Expr) :=
  let (sigil, stop) := Placed.sigil src
  let start := Expr.Placed.skipBlanks src stop
  if start < Expr.Placed.size src then
    (Expr.Placed.parse src start).map fun e => (sigil, e)
  else some (sigil, .fault (.missing .expression))

/-- The value of an operand text that is read by position. -/
def Placed.evaluate (ctx : Context) (src : String) : Option (Evaluator Operand) :=
  (Placed.parse src).map fun (sigil, e) => do
    let value ← e.eval ctx
    return { sigil with value }

/-- A sigil is ASCII. -/
theorem exists_sigil (text : List UInt8) :
    ∃ run, text = run ++ (Sigil.read text).2 ∧ ∀ b ∈ run, b.toNat < 0x80 := by
  have hempty : ∀ text : List UInt8, ∃ run, text = run ++ text ∧ ∀ b ∈ run, b.toNat < 0x80 :=
    fun _ => ⟨[], rfl, fun _ hb => absurd hb List.not_mem_nil⟩
  have hcons : ∀ {b : UInt8} {text rest : List UInt8}, b.toNat < 0x80 →
      (∃ run, text = run ++ rest ∧ ∀ c ∈ run, c.toNat < 0x80) →
        ∃ run, b :: text = run ++ rest ∧ ∀ c ∈ run, c.toNat < 0x80 := by
    rintro b text rest hb ⟨run, rfl, hrun⟩
    exact ⟨b :: run, rfl, List.forall_mem_cons.mpr ⟨hb, hrun⟩⟩
  -- The mark of an absolute address stands behind the mark of an immediate.
  have habsolute : ∀ augmented text, ∃ run, text = run ++ (Sigil.absolute? augmented text).2 ∧
      ∀ b ∈ run, b.toNat < 0x80 := by
    intro augmented text
    cases text with
    | nil => exact hempty []
    | cons b rest =>
      rw [Sigil.absolute?]
      split_ifs with hb
      · exact hcons (by rw [hb]; decide) (hempty rest)
      · exact hempty (b :: rest)
  cases text with
  | nil => exact hempty []
  | cons b rest =>
    unfold Sigil.read
    dsimp only
    split_ifs with hb
    · refine hcons (by rw [hb]; decide) ?_
      cases rest with
      | nil => exact habsolute false []
      | cons c more =>
        dsimp only
        split_ifs with hc
        · exact hcons (by rw [hc]; decide) (habsolute true more)
        · exact habsolute false (c :: more)
    · exact hempty (b :: rest)

theorem placed_sigil (src : String) {text : List UInt8}
    (h : At src (Expr.Placed.skipBlanks src 0) text) :
    ∃ stop, Placed.sigil src = ((Sigil.read text).1, stop) ∧ At src stop (Sigil.read text).2 := by
  obtain ⟨run, hrun, hascii⟩ := exists_sigil text
  unfold Placed.sigil
  dsimp only
  rw [Expr.behind_of_at h]
  refine ⟨_, rfl, ?_⟩
  have hlength := congrArg List.length hrun
  rw [List.length_append] at hlength
  rw [show text.length - (Sigil.read text).2.length = run.length by omega]
  rw [hrun] at h
  exact h.append hascii

/-- An operand text is read by position as it is read. -/
theorem placed_parse (text : String) : Placed.parse text = some (parse text) := by
  obtain ⟨stop, hsigil, hstop⟩ := placed_sigil text (Expr.at_skipBlanks (Utf8.at_start text))
  have hskipped := Expr.at_skipBlanks hstop
  have hsize := Expr.size_of_at hskipped
  unfold Placed.parse parse
  rw [hsigil]
  dsimp only
  generalize Expr.skipBlanks (Sigil.read (Expr.skipBlanks (Utf8.encode text))).2 = left
    at hskipped hsize
  cases left with
  | nil =>
    rw [List.length_nil, Nat.add_zero] at hsize
    rw [hsize, if_neg (Nat.lt_irrefl _)]
  | cons b more =>
    rw [List.length_cons] at hsize
    rw [if_pos (by omega), Expr.parse_of_at hskipped]
    rfl

theorem placed_evaluate (ctx : Context) (text : String) :
    Placed.evaluate ctx text = some (evaluate ctx text) := by
  rw [Placed.evaluate, placed_parse]
  rfl

end Operand

end PropellerAsm
