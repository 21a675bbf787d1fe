import PropellerAsm.Proofs.Encoding.Pointer
import PropellerAsm.Proofs.Expr.Positions

/-!
# Pointer expressions by position

A pointer is looked for in the capitals of an operand text, and its index is cut out of the text
itself, between the position of the opening bracket in the capitals and the last byte.  Letters have
as many bytes as their capitals, so that is the same place, and the brackets are ASCII.
-/
namespace PropellerAsm

open Utf8 (slice?)

/-- The position of the first character of a text that is equal to one. -/
def Utf8.find? (src : String) (c : Char) : Option Nat :=
  if c ∈ src.toList then some (encodeChars (src.toList.takeWhile (· != c))).length else none

theorem Utf8.find?_eq {src : String} {c : Char} {before rest : List Char}
    (h : src.toList = before ++ c :: rest) (hbefore : c ∉ before) :
    find? src c = some (encodeChars before).length := by
  have htake : (before ++ c :: rest).takeWhile (· != c) = before := by
    have hother : ∀ d ∈ before, (d != c) = true :=
      fun d hd => bne_iff_ne.mpr (ne_of_mem_of_not_mem hd hbefore)
    rw [List.takeWhile_append_of_pos hother, List.takeWhile_cons_of_neg (by simp), List.append_nil]
  rw [find?, h, if_pos (by simp), htake]

namespace Pointer

/-- The capitals of an operand text before the brackets, and the index between them. -/
def Placed.split (src : String) : Option (String × Option String) :=
  let upper := Text.capitals src
  match Utf8.find? upper '[' with
  | some start =>
    if upper.toList.getLast? = some ']' then do
      let body ← slice? upper 0 start
      let index ← slice? src (start + 1) ((Utf8.encode src).length - 1)
      return (body, some index)
    else some (upper, none)
  | none => some (upper, none)

/-- Reads an operand text as a pointer expression. -/
def Placed.parse? (src : String) : Option (Option Pointer) := do
  let (body, index) ← Placed.split src
  let (name, move) := splitMove body.toList
  return if name = "PTRA".toList then some { ptrb := false, move, index }
    else if name = "PTRB".toList then some { ptrb := true, move, index }
    else none

theorem toUpper_eq_bracket_iff (c : Char) :
    (c.toUpper = '[' ↔ c = '[') ∧ (c.toUpper = ']' ↔ c = ']') := by
  have hopen := Text.of_toUpper (f := fun c => decide (c = '[')) (by decide) c
  have hclose := Text.of_toUpper (f := fun c => decide (c = ']')) (by decide) c
  exact ⟨decide_eq_decide.mp hopen, decide_eq_decide.mp hclose⟩

/-- A bracket of the capitals is one of the text. -/
theorem mem_of_mem_capitals {cs : List Char} (h : '[' ∈ cs.map Char.toUpper) : '[' ∈ cs := by
  obtain ⟨c, hc, hupper⟩ := List.mem_map.mp h
  rwa [(toUpper_eq_bracket_iff c).1.mp hupper] at hc

/-- The capitals of a text have as many bytes. -/
theorem length_upper (cs : List Char) :
    (Utf8.encodeChars (cs.map Char.toUpper)).length = (Utf8.encodeChars cs).length := by
  have hcapitals := congrArg List.length (Utf8.encode_capitals (String.ofList cs))
  rwa [List.length_map, Utf8.encode, Utf8.encode, Text.toList_capitals, String.toList_ofList]
    at hcapitals

theorem slice_index {text : String} {body index : List Char}
    (htext : text.toList = body ++ '[' :: (index ++ [']'])) :
    slice? text ((Utf8.encodeChars body).length + 1) ((Utf8.encode text).length - 1) =
      some (String.ofList index) := by
  have hparts : text.toList = body ++ ['['] ++ index ++ [']'] := by
    rw [htext, List.append_assoc, List.append_assoc, List.singleton_append]
  have hopen : (Utf8.encodeChars (body ++ ['['])).length = (Utf8.encodeChars body).length + 1 := by
    rw [Utf8.encodeChars_append, List.length_append]
    rfl
  have hclose : (Utf8.encode text).length - 1 =
      (Utf8.encodeChars body).length + 1 + (Utf8.encodeChars index).length := by
    rw [Utf8.encode, hparts, Utf8.encodeChars_append, Utf8.encodeChars_append,
      List.length_append, List.length_append, hopen]
    rfl
  have hslice := Utf8.slice?_chars hparts
  rwa [hopen, ← hclose] at hslice

/-- The index stands between the same positions in a text as in its capitals. -/
theorem placed_split (text : String) : Placed.split text =
    some (String.ofList ((splitIndex text.toList).1.map Char.toUpper),
      (splitIndex text.toList).2.map String.ofList) := by
  have hupper := Text.toList_capitals text
  unfold Placed.split
  dsimp only
  obtain ⟨hsplit, hbare⟩ | ⟨body, index, hbody, hsplit, htext⟩ := splitIndex_cases text.toList
  · rw [hsplit]
    cases hfind : Utf8.find? (Text.capitals text) '[' with
    | none => rfl
    | some start =>
      -- A text with an opening bracket does not end in a closing one.
      have hlast : ¬ (Text.capitals text).toList.getLast? = some ']' := by
        rw [hupper, List.getLast?_map, Option.map_eq_some_iff]
        rintro ⟨c, hlast, hc⟩
        rw [(toUpper_eq_bracket_iff c).2.mp hc] at hlast
        refine hbare ⟨mem_of_mem_capitals ?_, hlast⟩
        rw [← hupper]
        by_contra hmem
        rw [Utf8.find?, if_neg hmem] at hfind
        cases hfind
      dsimp only
      rw [if_neg hlast]
      rfl
  · have hfree : '[' ∉ body.map Char.toUpper := fun hmem => hbody (mem_of_mem_capitals hmem)
    have hchars : (Text.capitals text).toList =
        body.map Char.toUpper ++ '[' :: (index.map Char.toUpper ++ [']']) := by
      rw [hupper, htext, List.map_append, List.map_cons, List.map_append]
      rfl
    have hlast : (Text.capitals text).toList.getLast? = some ']' := by
      rw [hchars, ← List.cons_append, ← List.append_assoc, List.getLast?_concat]
    have hslice : slice? (Text.capitals text) 0
        (Utf8.encodeChars (body.map Char.toUpper)).length =
          some (String.ofList (body.map Char.toUpper)) := by
      rw [← Nat.zero_add (Utf8.encodeChars (body.map Char.toUpper)).length]
      exact @Utf8.slice?_chars _ [] _ _ hchars
    rw [Utf8.find?_eq hchars hfree, hsplit]
    dsimp only
    rw [if_pos hlast, hslice, length_upper, slice_index htext]
    rfl

theorem placed_parse? (text : String) : Placed.parse? text = some (parse? text) := by
  rw [Placed.parse?, placed_split, parse?]
  dsimp only
  rw [Option.bind_eq_bind, Option.bind_some]
  dsimp only
  rw [String.toList_ofList]
  rfl

end Pointer

/-- Operands and pointer expressions are cut at boundaries between characters only, and so every
text is read as it is over its bytes. -/
theorem cuts_on_boundaries (ctx : Context) (text : String) :
    Operand.Placed.evaluate ctx text = some (Operand.evaluate ctx text) ∧
      Pointer.Placed.parse? text = some (Pointer.parse? text) :=
  ⟨Operand.placed_evaluate ctx text, Pointer.placed_parse? text⟩

end PropellerAsm
