import PropellerAsm.Proofs.Assembly.Augment
import PropellerAsm.Proofs.Word.DataList

/-!
# Lines with data lists

A line with a data list has no fault, and its data are the bytes of the items in their order.
-/
namespace PropellerAsm.Assembly

open Directive

/-- A data list emits what is written: the line has no fault, and its data are the bytes of the
items in their order. -/
theorem line_of_data_list {a : Assembly} (hblock : a.block = .closed) {size : Nat}
    {items : List Item} {source : String} (hsource : DataLine size items source.toList) :
    ∃ record, (a.line source).lines = a.lines.push record ∧ record.number = a.lineNumber + 1 ∧
      record.pc = a.nextPc ∧ record.fault? = none ∧ record.data = items.flatMap (Item.bytes size) ∧
      (a.line source).diagnostics = a.diagnostics := by
  have hexpanded : DataLine size items (Text.expandTabs source).toList := by
    rw [Text.expandTabs, String.toList_ofList]
    exact hsource.expandFrom 0
  obtain ⟨d, first, words, hsplit, hfirst, hsize, hlists⟩ := hexpanded.split
  rw [← hblock] at hsplit
  have hwords : a.nextWords source = first :: words := by
    rw [nextWords, hsplit]
    rfl
  obtain ⟨hnil, -⟩ | ⟨-, text, hline⟩ := a.line_eq source
  · rw [hwords] at hnil
    cases hnil
  rw [hwords] at hline
  generalize hb : a.begun (a.block.split (Text.expandTabs source)).2 text = b at hline
  -- No word is a comment, and none is a label.
  have hcode : Word.code (first :: words) = first :: words := by
    refine List.filter_eq_self.mpr (List.forall_mem_cons.mpr ⟨?_, fun word hword => ?_⟩)
    · rw [hfirst]
      rfl
    · rw [hlists.token word hword, bne_iff_ne]
      exact Token.ofText_ne_comment word.text
  have hread : read b.nextPc (Word.code (first :: words)) b =
      .ok (none, .data (items.flatMap (Item.bytes size))) b := by
    rw [hcode]
    refine read_of_unlabelled ?_ (hlists.effect hsize hfirst _ false b.symbols)
    intro word hword
    obtain rfl := Option.some.inj hword
    rw [hfirst]
    exact Token.noConfusion
  rw [assembleWords_of_ok source hread] at hline
  subst hb
  refine ⟨⟨a.lineNumber + 1, a.nextPc, source, first :: words, .data _⟩, ?_, rfl, rfl, rfl, rfl, ?_⟩
  · rw [hline]
    exact congrArg (Array.push · _) (lines_commit _ _ _ _)
  · rw [hline, diagnostics_keep_of_none rfl, (onlyStored_data _ _ _ _).diagnostics]
    rfl

/-- A quote, a comma and an apostrophe in a text, and a number that is too long for its item. -/
theorem line_of_data_list_words :
    let source := " word \"a\\\"é,'\", $ffff1"
    DataLine 2 [.text "a\"é,'", .number 0xffff1] source.toList ∧
      ∃ record, (({} : Assembly).line source).lines = #[record] ∧ record.fault? = none ∧
        record.data = [0x61, 0, 0x22, 0, 0xc3, 0, 0xa9, 0, 0x2c, 0, 0x27, 0, 0xf1, 0xff] := by
  intro source
  have htext := @Item.Spelled.text "a\"é,'" (by decide +kernel)
  have hnumber := Item.spelled_toDigits 0xffff1
  have hlist := @Listed.more _ _ [] _ [] _ (by decide) htext (by decide)
    (@Listed.last _ [' '] _ [] (by decide) hnumber (by decide))
  have hline := @DataLine.mk 2 _ .word [' '] "word".toList [' '] _ (by decide)
    (by decide +kernel) rfl (by decide) (List.cons_ne_nil _ _) hlist
  have hchars : [' '] ++ ("word".toList ++ ([' '] ++ ([] ++
      ('"' :: ("a\"é,'".toList.flatMap Item.quoted ++ ['"']) ++ ([] ++ ',' ::
        ([' '] ++ ('$' :: Nat.toDigits 16 0xffff1 ++ []))))))) = source.toList := by decide +kernel
  have hsource : DataLine 2 [.text "a\"é,'", .number 0xffff1] source.toList := hchars ▸ hline
  obtain ⟨record, hlines, -, -, hfault, hdata, -⟩ := line_of_data_list (a := {}) rfl hsource
  refine ⟨hsource, record, hlines, hfault, ?_⟩
  rw [hdata]
  decide +kernel

end PropellerAsm.Assembly
