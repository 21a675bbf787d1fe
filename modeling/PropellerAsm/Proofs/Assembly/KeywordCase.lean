import PropellerAsm.Proofs.Assembly.Label
import PropellerAsm.Proofs.Assembly.Spacing
import PropellerAsm.Proofs.Encoding.KeywordCase

/-!
# Lines with keywords in another case

Keywords may be written in any case: the line does the same, and its record differs in nothing but
the source, the words and the texts that a fault quotes.  There is one exception.  A keyword is
recognised by its Unicode capitals, but as an operand it is read as a name of ASCII letters; one
with another character, such as a dotless i, is a fault behind the letters before that character,
which are recorded as a symbol in the case in which they are written.
-/
namespace PropellerAsm

namespace Word

/-- A keyword whose text differs is found under it. -/
theorem Recased.find?_isSome {v w : Word} (h : v.Recased w) (hv : v.Classified)
    (htext : v.text ≠ w.text) : (Keyword.find? v.text).isSome = true := by
  have hkeyword := (h.text.resolve_left htext).1
  obtain hcomment | htoken := hv
  · rw [hcomment] at hkeyword
    cases hkeyword
  · rw [htoken, Token.ofText] at hkeyword
    split at hkeyword
    · next hfind =>
      rw [hfind]
      rfl
    · cases hkeyword

/-- The words of one text may stand for those of the other outside of the comments. -/
theorem code_recased {ascii : Prop} {words words' : List Word}
    (h : List.Forall₂ Recased words words') (hwords : ∀ word ∈ words, word.Classified)
    (hascii : ascii →
      List.Forall₂ (fun v w => v.text ≠ w.text → Text.IsAscii v.text) words words') :
    List.Forall₂ (Variation.keywordCase ascii).word (code words) (code words') := by
  have hdiffer : List.Forall₂ (fun v w => ascii → v.text ≠ w.text → Text.IsAscii v.text)
      words words' := by
    by_cases hplain : ascii
    · exact (hascii hplain).imp fun _ _ hword _ => hword
    · exact h.imp fun _ _ _ hword => absurd hword hplain
  have hclassified := (List.forall₂_and_left words words').mpr ⟨hwords, h⟩
  have hvaried : List.Forall₂ (Variation.keywordCase ascii).word words words' := by
    refine hclassified.mp (fun v w ⟨hv, hrecased⟩ hword => ⟨hrecased, fun htext => ?_⟩) hdiffer
    exact ⟨hrecased.find?_isSome hv htext, fun hplain => hword hplain htext⟩
  refine List.rel_filter (fun v w hword => ?_) hvaried
  exact iff_of_eq (congrArg (fun token => (token != Token.comment) = true) hword.1.token)

end Word

namespace Assembly

/-- A line with words leaves no block comment open. -/
theorem block_of_nextWords {a : Assembly} {source : String} (h : a.nextWords source ≠ []) :
    (a.block.split (Text.expandTabs source)).2 = .closed := by
  unfold nextWords at h
  unfold Block.split at h ⊢
  split at h
  · exact absurd rfl h
  · split at h
    · exact absurd rfl h
    · next hbrace => rw [if_neg hbrace]

/-- Whatever the case of the ASCII letters in its keywords, a line leaves the same image, program
counters and scope, and its record has the same program counter, instruction, augmentations and
data, or the same fault with texts that are equal up to case.  It leaves the same symbols too,
unless it has a fault and a keyword that differs is not ASCII. -/
theorem keyword_case_insignificant (a : Assembly) {source source' : String}
    (h : List.Forall₂ Word.Recased (a.nextWords source) (a.nextWords source')) :
    let b := a.line source
    let c := a.line source'
    (c.image = b.image ∧ c.imageEnd = b.imageEnd ∧ c.nextPc = b.nextPc ∧ c.lastPc = b.lastPc ∧
      c.scope = b.scope ∧ c.lineNumber = b.lineNumber) ∧
    ((b.lines = a.lines ∧ c.lines = a.lines ∧ c.symbols = b.symbols) ∨
      ∃ record record' : Line, b.lines = a.lines.push record ∧ c.lines = a.lines.push record' ∧
        record'.number = record.number ∧ record'.pc = record.pc ∧
        record'.augments = record.augments ∧ record'.opcode? = record.opcode? ∧
        record'.data = record.data ∧
        record'.fault?.map (Fault.mapText Text.capitals) =
          record.fault?.map (Fault.mapText Text.capitals) ∧
        ((record.fault? = none ∨ List.Forall₂ (fun v w => v.text ≠ w.text → Text.IsAscii v.text)
          (a.nextWords source) (a.nextWords source')) → c.symbols = b.symbols)) := by
  intro b c
  have hnone : a.nextWords source = [] ↔ a.nextWords source' = [] := by
    rw [← List.length_eq_zero_iff, h.length_eq, List.length_eq_zero_iff]
  have hnumber : c.lineNumber = b.lineNumber := by rw [lineNumber_line, lineNumber_line]
  by_cases hwords : a.nextWords source = []
  · -- Both lines only count.
    have hb : b = _ := line_of_nextWords hwords
    have hc : c = _ := line_of_nextWords (hnone.mp hwords)
    rw [hb, hc]
    exact ⟨⟨rfl, rfl, rfl, rfl, rfl, rfl⟩, .inl ⟨rfl, rfl, rfl⟩⟩
  have hblock : (a.block.split (Text.expandTabs source')).2 =
      (a.block.split (Text.expandTabs source)).2 := by
    rw [block_of_nextWords hwords, block_of_nextWords (mt hnone.mpr hwords)]
  -- Outside of comments the words stand for each other, so both lines come to the same.
  have hcode := Word.code_recased h (a.classified_nextWords source) id
  have hline := line_varied (Beside.refl a) (Variation.sound_keywordCase _ _)
    (SymbolTable.tracked_eq (a.lineNumber + 1)) hblock hnone hcode
  cases hline with
  | none hlines hlines' hbeside =>
    exact ⟨⟨hbeside.image, hbeside.imageEnd, hbeside.nextPc, hbeside.lastPc, hbeside.scope,
      hnumber⟩, .inl ⟨hlines, hlines', hbeside.symbols.symm⟩⟩
  | effect pc effect hlines hlines' hbeside =>
    exact ⟨⟨hbeside.image, hbeside.imageEnd, hbeside.nextPc, hbeside.lastPc, hbeside.scope,
      hnumber⟩, .inr ⟨_, _, hlines, hlines', rfl, rfl, rfl, rfl, rfl, rfl,
        fun _ => hbeside.symbols.symm⟩⟩
  | fault pc f f' hlines hlines' hfault hbeside =>
    rw [f.renumber_id] at hfault
    refine ⟨⟨hbeside.image, hbeside.imageEnd, hbeside.nextPc, hbeside.lastPc, hbeside.scope,
      hnumber⟩, .inr ⟨_, _, hlines, hlines', rfl, rfl, rfl, rfl, rfl,
        congrArg some hfault.symm, ?_⟩⟩
    rintro (hfaultless | hascii)
    · cases hfaultless
    · exact (hbeside.symbols hascii).symm

/-- A mnemonic in mixed case and a pointer in capitals, which goes on in the next word. -/
theorem keyword_case_of_pointer :
    List.Forall₂ Word.Recased (({} : Assembly).nextWords " rdlong 0, ptra ++")
      (({} : Assembly).nextWords " RdLong 0, PTRA ++") ∧
    (({} : Assembly).line " rdlong 0, ptra ++").nextPc = 1 ∧
    (({} : Assembly).line " RdLong 0, PTRA ++").image =
      (({} : Assembly).line " rdlong 0, ptra ++").image ∧
    (({} : Assembly).line " RdLong 0, PTRA ++").symbols =
      (({} : Assembly).line " rdlong 0, ptra ++").symbols := by
  have hwords : ({} : Assembly).nextWords " rdlong 0, ptra ++" =
      [.ofText "rdlong" 1 false, .ofText "0" 8 true, .ofText "ptra" 11 false,
        .ofText "++" 16 false] := by decide +kernel
  have hwords' : ({} : Assembly).nextWords " RdLong 0, PTRA ++" =
      [.ofText "RdLong" 1 false, .ofText "0" 8 true, .ofText "PTRA" 11 false,
        .ofText "++" 16 false] := by decide +kernel
  have hrecased : List.Forall₂ Word.Recased (({} : Assembly).nextWords " rdlong 0, ptra ++")
      (({} : Assembly).nextWords " RdLong 0, PTRA ++") := by
    rw [hwords, hwords']
    decide +kernel
  have hascii : List.Forall₂ (fun v w => v.text ≠ w.text → Text.IsAscii v.text)
      (({} : Assembly).nextWords " rdlong 0, ptra ++")
      (({} : Assembly).nextWords " RdLong 0, PTRA ++") := by
    rw [hwords, hwords']
    decide +kernel
  have hpc : (({} : Assembly).line " rdlong 0, ptra ++").nextPc = 1 := by decide +kernel
  obtain ⟨⟨himage, -⟩, ⟨-, -, hsymbols⟩ | ⟨_, _, -, -, -, -, -, -, -, -, hsymbols⟩⟩ :=
    keyword_case_insignificant {} hrecased
  · exact ⟨hrecased, hpc, himage, hsymbols⟩
  · exact ⟨hrecased, hpc, himage, hsymbols (.inr hascii)⟩

/-- A dotless i in the name of a register ends the name behind the first letter, and that letter is
recorded as a symbol in the case in which it is written. -/
theorem keyword_case_significant :
    List.Forall₂ Word.Recased (({} : Assembly).nextWords " mov 0, dıra")
      (({} : Assembly).nextWords " mov 0, Dıra") ∧
    (({} : Assembly).line " mov 0, dıra").symbols ≠
      (({} : Assembly).line " mov 0, Dıra").symbols := by
  have hwords : ({} : Assembly).nextWords " mov 0, dıra" =
      [.ofText "mov" 1 false, .ofText "0" 5 true, .ofText "dıra" 8 false] := by decide +kernel
  have hwords' : ({} : Assembly).nextWords " mov 0, Dıra" =
      [.ofText "mov" 1 false, .ofText "0" 5 true, .ofText "Dıra" 8 false] := by decide +kernel
  have hrecased : List.Forall₂ Word.Recased (({} : Assembly).nextWords " mov 0, dıra")
      (({} : Assembly).nextWords " mov 0, Dıra") := by
    rw [hwords, hwords']
    decide +kernel
  have hrecorded : ((({} : Assembly).line " mov 0, dıra").symbols.get? "d").isSome = true ∧
      ((({} : Assembly).line " mov 0, Dıra").symbols.get? "d").isSome = false := by
    decide +kernel
  refine ⟨hrecased, fun hsymbols => ?_⟩
  rw [hsymbols, hrecorded.2] at hrecorded
  cases hrecorded.1

end Assembly

end PropellerAsm
