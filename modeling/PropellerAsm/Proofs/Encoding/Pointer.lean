import PropellerAsm.Proofs.Encoding.KeywordCase
import PropellerAsm.Proofs.Encoding.Storing

/-!
# Pointer expressions

Which texts are pointer expressions, which index such a text means, and that the field it is encoded
to holds the pointer, the update and that index as a signed number.  Splitting a text at its first
bracket and its update takes every spelling apart again, since a pointer name holds no bracket and
no sign.
-/
namespace PropellerAsm

/-! ## Spellings -/

namespace PointerMove

/-- The signs before the name. -/
def before : PointerMove → List Char
  | up false => ['+', '+']
  | down false => ['-', '-']
  | _ => []

/-- The signs behind the name. -/
def behind : PointerMove → List Char
  | up true => ['+', '+']
  | down true => ['-', '-']
  | _ => []

end PointerMove

namespace Pointer

/-- The name of a pointer. -/
def name (ptrb : Bool) : List Char :=
  if ptrb then ['P', 'T', 'R', 'B'] else ['P', 'T', 'R', 'A']

/-- The spellings of a pointer expression, in any case of the ASCII letters: the name with an update
before it or behind it, and an index in brackets that ends the text. -/
inductive Spelled : Pointer → List Char → Prop where
  | bare {ptrb : Bool} {move : PointerMove} {body : List Char}
      (upper : body.map Char.toUpper = move.before ++ name ptrb ++ move.behind) :
      Spelled ⟨ptrb, move, none⟩ body
  | indexed {ptrb : Bool} {move : PointerMove} {body index : List Char}
      (upper : body.map Char.toUpper = move.before ++ name ptrb ++ move.behind) :
      Spelled ⟨ptrb, move, some (String.ofList index)⟩ (body ++ '[' :: (index ++ [']']))

/-! ### The index -/

theorem splitIndex_of_not_mem {body : List Char} (h : '[' ∉ body) :
    splitIndex body = (body, none) := by
  refine if_neg ?_
  rw [Bool.and_eq_true, List.contains_iff_mem]
  exact fun hboth => h hboth.1

theorem splitIndex_bracketed {body : List Char} (h : '[' ∉ body) (index : List Char) :
    splitIndex (body ++ '[' :: (index ++ [']'])) = (body, some index) := by
  have hlast : ('[' :: (index ++ [']'])).getLast? = some ']' := by
    rw [← List.cons_append, List.getLast?_concat]
  rw [splitIndex_append h]
  unfold splitIndex
  rw [if_pos (by simp [hlast])]
  simp

/-- Splitting a text at its brackets takes nothing away but these. -/
theorem splitIndex_cases (cs : List Char) :
    (splitIndex cs = (cs, none) ∧ ¬ ('[' ∈ cs ∧ cs.getLast? = some ']')) ∨
      ∃ body index, '[' ∉ body ∧ splitIndex cs = (body, some index) ∧
        cs = body ++ '[' :: (index ++ [']']) := by
  by_cases h : '[' ∈ cs ∧ cs.getLast? = some ']'
  · obtain ⟨hmem, hlast⟩ := h
    obtain ⟨body, rest, rfl, hbody⟩ := List.eq_append_cons_of_mem hmem
    rw [List.getLast?_append_of_ne_nil _ (List.cons_ne_nil _ _)] at hlast
    -- The bracket that closes the index is not the one that opens it.
    have hrest : rest ≠ [] := by
      rintro rfl
      exact absurd (Option.some.inj hlast) (by decide)
    rw [List.getLast?_cons_of_ne_nil hrest] at hlast
    obtain ⟨index, rfl⟩ := List.getLast?_eq_some_iff.mp hlast
    exact .inr ⟨body, index, hbody, splitIndex_bracketed hbody index, rfl⟩
  · refine .inl ⟨if_neg ?_, h⟩
    rwa [Bool.and_eq_true, List.contains_iff_mem, beq_iff_eq]

/-! ### The update -/

theorem splitMove_spelled (ptrb : Bool) (move : PointerMove) :
    splitMove (move.before ++ name ptrb ++ move.behind) = (name ptrb, move) := by
  cases ptrb <;> rcases move with _ | ⟨_ | _⟩ | ⟨_ | _⟩ <;> rfl

/-- Taking the update off a name takes nothing else away. -/
theorem splitMove_sound {body name : List Char} {move : PointerMove}
    (h : splitMove body = (name, move)) : body = move.before ++ name ++ move.behind := by
  have hback : ∀ {eman : List Char} {c : Char}, body.reverse = c :: c :: eman →
      body = eman.reverse ++ [c, c] := by
    intro eman c heq
    have htext := congrArg List.reverse heq
    rw [List.reverse_reverse] at htext
    rw [htext]
    simp
  unfold splitMove at h
  split at h
  · obtain ⟨rfl, rfl⟩ := Prod.mk.inj h
    exact (List.append_nil _).symm
  · obtain ⟨rfl, rfl⟩ := Prod.mk.inj h
    exact (List.append_nil _).symm
  · split at h
    · rename_i heq
      obtain ⟨rfl, rfl⟩ := Prod.mk.inj h
      exact hback heq
    · rename_i heq
      obtain ⟨rfl, rfl⟩ := Prod.mk.inj h
      exact hback heq
    · obtain ⟨rfl, rfl⟩ := Prod.mk.inj h
      exact (List.append_nil _).symm

/-! ### The text -/

/-- No bracket stands before the index. -/
theorem not_mem_body {ptrb : Bool} {move : PointerMove} {body : List Char}
    (h : body.map Char.toUpper = move.before ++ name ptrb ++ move.behind) : '[' ∉ body := by
  intro hmem
  have hupper : '['.toUpper ∈ body.map Char.toUpper := List.mem_map_of_mem hmem
  rw [h] at hupper
  revert hupper
  cases ptrb <;> rcases move with _ | ⟨_ | _⟩ | ⟨_ | _⟩ <;> decide

theorem parse?_of_split {text : String} {body : List Char} {index : Option (List Char)}
    (hindex : splitIndex text.toList = (body, index)) {ptrb : Bool} {move : PointerMove}
    (hmove : splitMove (body.map Char.toUpper) = (name ptrb, move)) :
    parse? text = some ⟨ptrb, move, index.map String.ofList⟩ := by
  unfold parse?
  rw [hindex]
  dsimp only
  rw [hmove]
  cases ptrb <;> rfl

theorem split_of_parse? {text : String} {p : Pointer} (h : parse? text = some p) :
    ∃ body index, splitIndex text.toList = (body, index) ∧
      splitMove (body.map Char.toUpper) = (name p.ptrb, p.move) ∧
      p.index = index.map String.ofList := by
  unfold parse? at h
  rcases hindex : splitIndex text.toList with ⟨body, index⟩
  rw [hindex] at h
  refine ⟨body, index, rfl, ?_⟩
  rcases hmove : splitMove (body.map Char.toUpper) with ⟨found, move⟩
  dsimp only at h
  rw [hmove] at h
  dsimp only at h
  split_ifs at h with ha hb
  · obtain rfl := Option.some.inj h
    exact ⟨by rw [ha]; rfl, rfl⟩
  · obtain rfl := Option.some.inj h
    exact ⟨by rw [hb]; rfl, rfl⟩

/-- A text is a pointer expression if and only if it is spelled like one. -/
theorem parse?_eq_some_iff {text : String} {p : Pointer} :
    parse? text = some p ↔ p.Spelled text.toList := by
  constructor
  · intro h
    obtain ⟨body, index, hindex, hmove, hp⟩ := split_of_parse? h
    have hupper := splitMove_sound hmove
    obtain ⟨ptrb, move, index'⟩ := p
    obtain rfl : index' = index.map String.ofList := hp
    obtain ⟨hbare, -⟩ | ⟨body', index', -, hbracketed, htext⟩ := splitIndex_cases text.toList
    · obtain ⟨rfl, rfl⟩ := Prod.mk.inj (hindex.symm.trans hbare)
      exact .bare hupper
    · obtain ⟨rfl, rfl⟩ := Prod.mk.inj (hindex.symm.trans hbracketed)
      rw [htext]
      exact .indexed hupper
  · intro h
    generalize hchars : text.toList = chars at h
    cases h with
    | bare upper =>
      have hindex : splitIndex text.toList = (chars, none) := by
        rw [hchars, splitIndex_of_not_mem (not_mem_body upper)]
      exact parse?_of_split hindex (by rw [upper, splitMove_spelled])
    | @indexed ptrb move body index upper =>
      have hindex := splitIndex_bracketed (not_mem_body upper) index
      rw [← hchars] at hindex
      exact parse?_of_split hindex (by rw [upper, splitMove_spelled])

/-! ## Indexes -/

end Pointer

namespace PointerMove

/-- The index without brackets. -/
def count : PointerMove → Int
  | stay => 0
  | up _ => 1
  | down _ => -1

/-- The index that a number in brackets means: it is taken with its sign, and changes the sign of
a decrement, wrapping at 64 bits. -/
def counted (move : PointerMove) (value : Quad) : Int :=
  match move with
  | down _ => (-value.toInt).bmod (2 ^ 64)
  | _ => value.toInt

theorem toInt_unit (move : PointerMove) : move.unit.toInt = move.count := by
  cases move <;> rfl

theorem toInt_scale (move : PointerMove) (value : Quad) :
    (move.scale value).toInt = move.counted value := by
  cases move with
  | stay => rfl
  | up after => rfl
  | down after => exact BitVec.toInt_neg

end PointerMove

namespace Pointer

theorem inRange_iff (index : Quad) :
    inRange index = true ↔ -16 ≤ index.toInt ∧ index.toInt ≤ 15 := by
  unfold inRange
  rw [Bool.and_eq_true, decide_eq_true_iff, decide_eq_true_iff]

/-- The index that a pointer expression means where it stands. -/
inductive Means (ctx : Context) (t : SymbolTable) : Pointer → Int → Prop where
  | bare {ptrb : Bool} {move : PointerMove} : Means ctx t ⟨ptrb, move, none⟩ move.count
  | indexed {ptrb : Bool} {move : PointerMove} {index : String} {operand : Operand}
      {t' : SymbolTable} (evaluated : Operand.evaluate ctx index t = .ok operand t') :
      Means ctx t ⟨ptrb, move, some index⟩ (move.counted operand.value)

/-! ## Fields -/

/-- The field without its index. -/
def marks (ptrb updates after : Bool) : Long :=
  let bit (b : Bool) (place : Nat) : Long := if b then 1 <<< place else 0
  0x100 ||| bit ptrb 7 ||| bit updates 6 ||| bit after 5

theorem field_eq (p : Pointer) (index : Quad) : p.field index =
    marks p.ptrb p.move.updates p.move.isAfter ||| (index.setWidth 32 &&& 0x1f) := rfl

theorem marks_bits (ptrb updates after : Bool) : (marks ptrb updates after).setWidth 5 = 0#5 ∧
    (marks ptrb updates after).getLsbD 8 = true ∧ (marks ptrb updates after).getLsbD 7 = ptrb ∧
    (marks ptrb updates after).getLsbD 6 = updates ∧
    (marks ptrb updates after).getLsbD 5 = after := by
  revert ptrb updates after
  decide

/-- The index stays below the other bits. -/
theorem getLsbD_field (p : Pointer) (index : Quad) {i : Nat} (hi : 5 ≤ i) :
    (p.field index).getLsbD i = (marks p.ptrb p.move.updates p.move.isAfter).getLsbD i := by
  have hmask : (0x1f : Long).getLsbD i = false :=
    Nat.testBit_lt_two_pow (Nat.lt_of_lt_of_le (by decide : 0x1f < 2 ^ 5)
      (Nat.pow_le_pow_right (by decide) hi))
  rw [field_eq, BitVec.getLsbD_or, BitVec.getLsbD_and, hmask, Bool.and_false, Bool.or_false]

theorem setWidth_field (p : Pointer) (index : Quad) :
    ((p.field index).setWidth 5 : BitVec 5) = index.setWidth 5 := by
  have hmarks := (marks_bits p.ptrb p.move.updates p.move.isAfter).1
  have hmask : ((0x1f : Long).setWidth 5 : BitVec 5) = BitVec.allOnes 5 := by decide
  rw [field_eq, BitVec.setWidth_or, hmarks, BitVec.setWidth_and, hmask, BitVec.and_allOnes,
    BitVec.zero_or, BitVec.setWidth_setWidth_of_le _ (by decide)]

theorem le_field (p : Pointer) (index : Quad) : 0x100 ≤ (p.field index).toNat := by
  have hbit : (p.field index).getLsbD 8 = true :=
    (p.getLsbD_field index (by decide)).trans (marks_bits _ _ _).2.1
  exact Nat.ge_two_pow_of_testBit hbit

/-- Five bits hold the index with its sign. -/
theorem toInt_low {index : Quad} (h : inRange index = true) :
    (index.setWidth 5 : BitVec 5).toInt = index.toInt := by
  obtain ⟨hlow, hhigh⟩ := (inRange_iff index).mp h
  rw [BitVec.toInt_setWidth, Int.bmod_def]
  rw [BitVec.toInt_eq_toNat_cond] at hlow hhigh ⊢
  split_ifs at * <;> omega

/-- The field `1SUPNNNNN` holds the pointer, the update, its side, and the index. -/
structure Encodes (p : Pointer) (n : Int) (field : Long) : Prop where
  ge : 0x100 ≤ field.toNat
  le : field.toNat ≤ 0x1ff
  ptrb : field.getLsbD 7 = p.ptrb
  updates : field.getLsbD 6 = true ↔ p.move.before ≠ [] ∨ p.move.behind ≠ []
  after : field.getLsbD 5 = true ↔ p.move.behind ≠ []
  index : (field.setWidth 5 : BitVec 5).toInt = n

theorem encodes_field (p : Pointer) {index : Quad} (h : inRange index = true) :
    p.Encodes index.toInt (p.field index) := by
  obtain ⟨-, -, hptrb, hupdates, hafter⟩ := marks_bits p.ptrb p.move.updates p.move.isAfter
  have hmove : (p.move.updates = true ↔ p.move.before ≠ [] ∨ p.move.behind ≠ []) ∧
      (p.move.isAfter = true ↔ p.move.behind ≠ []) := by
    rcases p.move with _ | ⟨_ | _⟩ | ⟨_ | _⟩ <;> decide
  refine ⟨p.le_field index, Nat.le_of_lt_succ (p.field_lt index), ?_, ?_, ?_, ?_⟩
  · rw [p.getLsbD_field index (by decide), hptrb]
  · rw [p.getLsbD_field index (by decide), hupdates]
    exact hmove.1
  · rw [p.getLsbD_field index (by decide), hafter]
    exact hmove.2
  · rw [setWidth_field, toInt_low h]

variable {ctx : Context} {p : Pointer} {t : SymbolTable}

/-- What a pointer expression is encoded to holds the index that it means. -/
theorem encodes_of_encode {t' : SymbolTable} {field : Long} (h : p.encode ctx t = .ok field t') :
    ∃ n, p.Means ctx t n ∧ p.Encodes n field ∧ (-16 ≤ n ∧ n ≤ 15) := by
  obtain ⟨ptrb, move, index⟩ := p
  obtain ⟨hindex, rfl, -⟩ | ⟨text, operand, hindex, hevaluate, hrange, rfl⟩ := encode_eq_ok_iff.mp h
  · obtain rfl : index = none := hindex
    have hrange : inRange move.unit = true := by
      rcases move with _ | ⟨_ | _⟩ | ⟨_ | _⟩ <;> decide
    refine ⟨move.unit.toInt, ?_, encodes_field _ hrange, (inRange_iff _).mp hrange⟩
    rw [move.toInt_unit]
    exact .bare
  · obtain rfl : index = some text := hindex
    refine ⟨(move.scale operand.value).toInt, ?_, encodes_field _ hrange,
      (inRange_iff _).mp hrange⟩
    rw [move.toInt_scale]
    exact .indexed hevaluate

/-- A pointer expression is encoded unless its index is faulty or out of range. -/
theorem exists_encode_iff : (∃ field t', p.encode ctx t = .ok field t') ↔
    p.index = none ∨ ∃ n, p.Means ctx t n ∧ -16 ≤ n ∧ n ≤ 15 := by
  constructor
  · rintro ⟨field, t', h⟩
    obtain ⟨n, hmeans, -, hrange⟩ := encodes_of_encode h
    exact .inr ⟨n, hmeans, hrange⟩
  · rintro (hindex | ⟨n, hmeans, hrange⟩)
    · exact ⟨_, t, encode_eq_ok_iff.mpr (.inl ⟨hindex, rfl, rfl⟩)⟩
    · cases hmeans with
      | bare => exact ⟨_, t, encode_eq_ok_iff.mpr (.inl ⟨rfl, rfl, rfl⟩)⟩
      | @indexed ptrb move index operand t' evaluated =>
        rw [← move.toInt_scale, ← inRange_iff] at hrange
        exact ⟨_, t', encode_eq_ok_iff.mpr (.inr ⟨index, operand, rfl, evaluated, hrange, rfl⟩)⟩

end Pointer

namespace Encoder

/-- A text that is no pointer expression is left to the reader of sources, with the symbol table as
it was.  A pointer expression is encoded if and only if it has no index, or its index has a value
that is in range with its sign; its field then holds that index, the pointer and the update. -/
theorem pointer_field_denotes (ctx : Context) (text : String) (c : Cursor) :
    (pointerField? ctx text c = .ok none c ↔ ∀ p : Pointer, ¬ p.Spelled text.toList) ∧
    ∀ p : Pointer, p.Spelled text.toList →
      ((∃ field c', pointerField? ctx text c = .ok field c') ↔
        p.index = none ∨ ∃ n, p.Means ctx c.symbols n ∧ -16 ≤ n ∧ n ≤ 15) ∧
      ∀ field c', pointerField? ctx text c = .ok field c' →
        ∃ bits n, field = some bits ∧ p.Means ctx c.symbols n ∧ p.Encodes n bits := by
  refine ⟨⟨?_, ?_⟩, ?_⟩
  · -- A field that was read would not be `none`.
    intro hnone p hspelled
    obtain ⟨bits, t', -, hsome, -⟩ :=
      (pointerField?_eq_ok_iff (Pointer.parse?_eq_some_iff.mpr hspelled)).mp hnone
    cases hsome
  · intro hspelled
    have hparse : Pointer.parse? text = none := by
      refine Option.eq_none_iff_forall_ne_some.mpr fun p hp => ?_
      exact hspelled p (Pointer.parse?_eq_some_iff.mp hp)
    rw [pointerField?_none hparse]
    rfl
  · intro p hspelled
    have hfield := @pointerField?_eq_ok_iff ctx c text p (Pointer.parse?_eq_some_iff.mpr hspelled)
    constructor
    · rw [← Pointer.exists_encode_iff]
      constructor
      · rintro ⟨field, c', hrun⟩
        obtain ⟨bits, t', hencode, -⟩ := hfield.mp hrun
        exact ⟨bits, t', hencode⟩
      · rintro ⟨bits, t', hencode⟩
        exact ⟨some bits, _, hfield.mpr ⟨bits, t', hencode, rfl, rfl⟩⟩
    · intro field c' hrun
      obtain ⟨bits, t', hencode, hsome, -⟩ := hfield.mp hrun
      obtain ⟨n, hmeans, hencodes, -⟩ := Pointer.encodes_of_encode hencode
      exact ⟨bits, n, hsome.symm, hmeans, hencodes⟩

end Encoder

end PropellerAsm
