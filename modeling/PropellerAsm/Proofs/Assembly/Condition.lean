import PropellerAsm.Proofs.Assembly.Label
import PropellerAsm.Proofs.Assembly.Placement
import PropellerAsm.Proofs.Encoding.FixedBits

/-!
# Conditions

A condition stands behind the label of a line, if there is one, and before an instruction.  As long
as any word follows it, it is not lost: the line has a fault, or it commits an instruction whose
longs all have the condition in their top bits.  At the end of a line a condition is dropped.
-/
namespace PropellerAsm

/-! ## Encoded instructions -/

/-- The longs of an instruction have a condition in their top bits; no operation is zero instead. -/
structure Encoded.Under (cond : Condition) (name : String) (e : Encoded) : Prop where
  word : if name = "NOP" then e.word = 0 else e.word.extractLsb' 28 4 = cond
  augments : ∀ long ∈ e.augments, long.extractLsb' 28 4 = cond

/-- Whatever operands follow, an instruction is encoded under its condition. -/
theorem Instruction.under_of_encode {ctx : Context} {mnemonic : String} {form : Form}
    {cond : Condition} {words : List Word} {t t' : SymbolTable} {e : Encoded}
    (hrow : (Text.upper mnemonic, form) ∈ Instruction.table)
    (h : Instruction.encode ctx mnemonic form cond words t = .ok e t') :
    e.Under cond (Text.upper mnemonic) := by
  obtain ⟨-, hnamed⟩ := selectForm_sound hrow words
  obtain ⟨c', hrun, rfl, -⟩ := encode_eq_ok h
  refine ⟨?_, ?_⟩
  · split
    · rename_i hname
      rw [hnamed.1.mpr hname] at hrun
      exact operands_nop hrun
    · rename_i hname
      exact operands_condition (fun hshape => hname (hnamed.1.mp hshape)) rfl hrun
  · intro long hlong
    -- Both augmentations are made under the condition of the instruction.
    rcases List.mem_append.mp hlong with hmem | hmem
    · obtain ⟨upper, -, rfl⟩ := Option.mem_map.mp (Option.mem_toList.mp hmem)
      exact (augmentation_bits augdBits cond upper).1
    · obtain ⟨upper, -, rfl⟩ := Option.mem_map.mp (Option.mem_toList.mp hmem)
      exact (augmentation_bits augsBits cond upper).1

/-! ## Statements -/

namespace Statement

/-- Words that start with a condition give it to the rest, if that has no further condition. -/
theorem takeCondition_of_guard {word first : Word} {rest left : List Word} {cond : Condition}
    {guard : Guard} (hword : word.token = .keyword (.condition cond))
    (h : takeCondition (word :: first :: rest) = .ok (guard, left)) :
    guard.code = cond ∧ left = first :: rest := by
  unfold takeCondition at h
  dsimp only at h
  rw [hword] at h
  dsimp only at h
  split at h
  · cases h
  · cases h
    exact ⟨rfl, rfl⟩

/-- Behind a condition only an instruction has an effect. -/
theorem effect_of_guard {ctx : Context} {labelled : Bool} {guard first : Word} {rest : List Word}
    {cond : Condition} (hguard : guard.token = .keyword (.condition cond)) {t t' : SymbolTable}
    {effect : Effect}
    (h : Statement.effect ctx labelled (guard :: first :: rest) t = .ok effect t') :
    ∃ form e, first.token = .keyword (.instruction form) ∧ effect = .code first.text e ∧
      Instruction.encode ctx first.text form cond rest t = .ok e t' := by
  cases asks_of_effect h with
  | nothing taken => cases (takeCondition_of_guard hguard taken).2
  | instruction taken token encoded =>
    obtain ⟨rfl, hrest⟩ := takeCondition_of_guard hguard taken
    cases hrest
    exact ⟨_, _, token, rfl, encoded⟩
  | directive stands token read =>
    cases stands
    cases hguard.symm.trans token
  | assignment stands token read =>
    cases stands
    cases hguard.symm.trans token

end Statement

/-! ## Lines -/

namespace Assembly

/-- A line records a fault, or commits the instruction of a word under a condition: its longs are
written from the program counter on. -/
inductive HoldsTo (a : Assembly) (source : String) (cond : Condition) (word : Word)
    (record : Line) : Prop where
  | fault {f} (fault : record.outcome = .fault f)
      (diagnosed : (a.line source).diagnostics = a.diagnostics ++ [(a.lineNumber + 1, f)])
  | code {form e} (instruction : word.token = .keyword (.instruction form))
      (code : record.outcome = .code e) (under : e.Under cond (Text.upper word.text))
      (written : (a.line source).image.read =
        Write.replay a.image.read (Write.longs a.nextPc e.longs))

/-- A condition with a word behind it is not lost: the line has a fault, or commits an instruction
under the condition. -/
theorem condition_not_lost {a : Assembly} {source : String} {guard first : Word}
    {rest : List Word} {cond : Condition}
    (hwords : unlabelled (Word.code (a.nextWords source)) = guard :: first :: rest)
    (hguard : guard.token = .keyword (.condition cond)) :
    ∃ record, (a.line source).lines = a.lines.push record ∧ record.number = a.lineNumber + 1 ∧
      a.HoldsTo source cond first record := by
  have hne : a.nextWords source ≠ [] := by
    intro hnil
    rw [hnil] at hwords
    cases hwords
  obtain ⟨record, hlines, hnumber, ⟨f, houtcome, hdiagnosed⟩ |
    ⟨label, effect, block, text, b, hread, houtcome, hpc, hwritten⟩⟩ := record_of_words hne
  · exact ⟨record, hlines, hnumber, .fault houtcome hdiagnosed⟩
  refine ⟨record, hlines, hnumber, ?_⟩
  obtain ⟨a₁, -, heffect, -⟩ := effect_of_read hread
  rw [hwords] at heffect
  obtain ⟨form, e, htoken, rfl, hencode⟩ := Statement.effect_of_guard hguard heffect
  -- The word is classified by its text, so its form stands in the table under its name.
  have hmem : first ∈ a.nextWords source := by
    have hmem : first ∈ unlabelled (Word.code (a.nextWords source)) := by simp [hwords]
    exact (List.mem_filter.mp (mem_of_mem_unlabelled hmem)).1
  have hfind := (a.classified_nextWords source first hmem).find?_eq_some htoken
  refine .code htoken houtcome (Instruction.under_of_encode
    (Instruction.mem_table_of_find? hfind) hencode) ?_
  rw [hwritten, writes_of_code houtcome, hpc]
  rfl

/-- A label, a condition, and an instruction with both augmentations. -/
theorem condition_not_lost_wrpin :
    let source := "x if_nc wrpin ##1, ##2"
    ∃ guard first rest record,
      unlabelled (Word.code (({} : Assembly).nextWords source)) = guard :: first :: rest ∧
      guard.token = .keyword (.condition 0b0011) ∧
      (({} : Assembly).line source).lines = #[record] ∧
      record.outcome = .code ⟨some 0x3f800000, some 0x3f000000, 0x3c0c0202⟩ ∧
      ({} : Assembly).HoldsTo source 0b0011 first record := by
  intro source
  have hwords : unlabelled (Word.code (({} : Assembly).nextWords source)) =
      .ofText "if_nc" 2 false :: .ofText "wrpin" 8 false ::
        [.ofText "##1" 14 true, .ofText "##2" 19 false] := by decide +kernel
  have hguard : (Word.ofText "if_nc" 2 false).token = .keyword (.condition 0b0011) := by
    decide +kernel
  obtain ⟨record, hlines, -, hholds⟩ := condition_not_lost hwords hguard
  have houtcome : (({} : Assembly).line source).lines.toList.map Line.outcome =
      [.code ⟨some 0x3f800000, some 0x3f000000, 0x3c0c0202⟩] := by decide +kernel
  rw [hlines] at houtcome
  exact ⟨_, _, _, record, hwords, hguard, hlines, by simpa using houtcome, hholds⟩

/-- A condition at the end of a line is dropped without a fault, with or without a label. -/
theorem condition_lost_at_end :
    (unlabelled (Word.code (({} : Assembly).nextWords "if_c"))).map Word.token =
        [.keyword (.condition 0b1100)] ∧
      (({} : Assembly).line "if_c").lines.toList.map Line.outcome = [.nothing] ∧
      (({} : Assembly).line "if_c").diagnostics = [] ∧
      (unlabelled (Word.code (({} : Assembly).nextWords "x if_c"))).map Word.token =
        [.keyword (.condition 0b1100)] ∧
      (({} : Assembly).line "x if_c").lines.toList.map Line.outcome = [.nothing] ∧
      (({} : Assembly).line "x if_c").diagnostics = [] := by
  decide +kernel

end Assembly

end PropellerAsm
