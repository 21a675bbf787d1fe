import Mathlib.Tactic.IntervalCases
import PropellerAsm.Proofs.Assembly.Label
import PropellerAsm.Proofs.Assembly.Overlap
import PropellerAsm.Proofs.Assembly.Spacing
import PropellerAsm.Proofs.Encoding.Augment
import PropellerAsm.Proofs.Word.Spelling

/-!
# Lines with wide immediates

A line with wide immediates does the same as its augmentations on lines of their own before a line
with the low bits of the immediates: the longs are the same, and they come to the same places,
whether they are stored for one line or for several.  Only the highest program counter can tell the
two apart.  A line raises it once, behind its last long, so that a program counter between the longs
counts only where they have lines of their own; it matters where the program counter comes around.
-/
namespace PropellerAsm

/-! ## Statements -/

namespace Statement

/-- The words of an instruction, with those behind the mnemonic. -/
def instructionWords (condition : Option (String × Condition)) (mnemonic : String)
    (rest : List Word) : List Word :=
  condition.toList.map (fun c => .ofText c.1 0 false) ++ .ofText mnemonic 0 false :: rest

variable {condition : Option (String × Condition)} {mnemonic : String} {form : Form}

/-- An instruction is encoded under its condition. -/
theorem effect_instructionWords
    (hcondition : ∀ c ∈ condition, Keyword.find? c.1 = some (.condition c.2))
    (hmnemonic : Keyword.find? mnemonic = some (.instruction form)) {rest : List Word}
    {ctx : Context} {t t' : SymbolTable} {e : Encoded}
    (h : Instruction.encode ctx mnemonic form (condition.elim .always Prod.snd) rest t = .ok e t')
    (labelled : Bool) :
    effect ctx labelled (instructionWords condition mnemonic rest) t =
      .ok (.code mnemonic e) t' := by
  have hfirst : (Word.ofText mnemonic 0 false).token = .keyword (.instruction form) := by
    rw [Word.token_ofText, Token.ofText_of_find? hmnemonic]
  have htext : (Word.ofText mnemonic 0 false).text = mnemonic := rfl
  unfold instructionWords
  generalize Word.ofText mnemonic 0 false = first at hfirst htext ⊢
  -- The condition is taken off, whether there is one or not.
  have htake : ∃ guard : Guard, guard.code = condition.elim .always Prod.snd ∧ takeCondition
      (condition.toList.map (fun c => .ofText c.1 0 false) ++ first :: rest) =
        .ok (guard, first :: rest) := by
    cases condition with
    | none =>
      refine ⟨{}, rfl, ?_⟩
      rw [Option.toList_none, List.map_nil, List.nil_append, takeCondition, hfirst]
    | some c =>
      have hguard : (Word.ofText c.1 0 false).token = .keyword (.condition c.2) := by
        rw [Word.token_ofText, Token.ofText_of_find? (hcondition c rfl)]
      rw [Option.toList_some, List.map_singleton, List.singleton_append]
      generalize Word.ofText c.1 0 false = word at hguard ⊢
      refine ⟨{ code := c.2, word := some word }, rfl, ?_⟩
      rw [takeCondition, hguard]
      dsimp only
      rw [hfirst]
  obtain ⟨guard, hcode, htake⟩ := htake
  unfold effect
  rw [htake]
  dsimp only
  rw [hfirst]
  dsimp only
  rw [hcode, htext]
  exact bind_of_ok h

end Statement

/-- The words are an instruction, and it is encoded to the longs wherever it stands. -/
structure Assembles (words : List Word) (longs : List Long) : Prop where
  classified : ∀ word ∈ words, word.token = .ofText word.text
  unlabelled : ∀ word ∈ words.head?, word.token ≠ .plain
  effect : ∀ ctx t, ∃ mnemonic e, Statement.effect ctx false words t = .ok (.code mnemonic e) t ∧
    e.longs = longs

theorem Word.token_separated (texts : List String) :
    ∀ word ∈ Word.separated texts, word.token = .ofText word.text := by
  induction texts with
  | nil => exact fun word hword => nomatch hword
  | cons text texts ih =>
    cases texts with
    | nil =>
      intro word hword
      obtain rfl := List.mem_singleton.mp hword
      exact Word.token_ofText _ _ _
    | cons text' texts =>
      intro word hword
      obtain rfl | hrest := List.mem_cons.mp hword
      · exact Word.token_ofText _ _ _
      · exact ih word hrest

theorem Word.token_operandWords (texts : List String) (flag : Option (String × Flag)) :
    ∀ word ∈ Instruction.operandWords texts flag, word.token = .ofText word.text := by
  intro word hword
  obtain hoperand | hflag := List.mem_append.mp hword
  · exact Word.token_separated texts word hoperand
  · obtain ⟨f, -, rfl⟩ := List.mem_map.mp hflag
    exact Word.token_ofText _ _ _

theorem assembles_instructionWords {condition : Option (String × Condition)} {mnemonic : String}
    {form : Form} (hcondition : ∀ c ∈ condition, Keyword.find? c.1 = some (.condition c.2))
    (hmnemonic : Keyword.find? mnemonic = some (.instruction form)) {texts : List String}
    {flag : Option (String × Flag)} {longs : List Long}
    (h : ∀ ctx t, ∃ e, Instruction.encode ctx mnemonic form (condition.elim .always Prod.snd)
      (Instruction.operandWords texts flag) t = .ok e t ∧ e.longs = longs) :
    Assembles (Statement.instructionWords condition mnemonic
      (Instruction.operandWords texts flag)) longs where
  classified := by
    intro word hword
    obtain hguard | hrest := List.mem_append.mp hword
    · obtain ⟨c, -, rfl⟩ := List.mem_map.mp hguard
      exact Word.token_ofText _ _ _
    · obtain rfl | hrest := List.mem_cons.mp hrest
      · exact Word.token_ofText _ _ _
      · exact Word.token_operandWords texts flag word hrest
  unlabelled := by
    intro word hword
    cases condition with
    | none =>
      obtain rfl := Option.some.inj hword
      rw [Word.token_ofText, Token.ofText_of_find? hmnemonic]
      exact Token.noConfusion
    | some c =>
      obtain rfl := Option.some.inj hword
      rw [Word.token_ofText, Token.ofText_of_find? (hcondition c rfl)]
      exact Token.noConfusion
  effect := by
    intro ctx t
    obtain ⟨e, hencode, hlongs⟩ := h ctx t
    have heffect := Statement.effect_instructionWords hcondition hmnemonic hencode false
    exact ⟨mnemonic, e, heffect, hlongs⟩

namespace Assembly

/-! ## Longs at once and one by one -/

/-- The pass behind a line that is encoded to the longs, without a record of the line. -/
def emit (a : Assembly) (longs : List Long) : Assembly :=
  let b := a.storeLongs a.nextPc longs
  { b with lastPc := if b.lastPc.toNat < b.nextPc.toNat then b.nextPc else b.lastPc }

theorem store_with (a : Assembly) (next last : Long) (addr : Nat) (bytes : List UInt8) :
    ({ a with nextPc := next, lastPc := last } : Assembly).store addr bytes =
      { a.store addr bytes with nextPc := next, lastPc := last } := by
  unfold store
  dsimp only
  split
  · rfl
  · rfl

/-- What is stored does not depend on the program counters of the pass. -/
theorem storeLongs_with (a : Assembly) (next last pc : Long) (longs : List Long) :
    ({ a with nextPc := next, lastPc := last } : Assembly).storeLongs pc longs =
      { a.storeLongs pc longs with lastPc := last } := by
  induction longs generalizing a pc with
  | nil => rfl
  | cons long longs ih =>
    rw [storeLongs, store_with]
    exact ih _ _

theorem emit_nextPc (a : Assembly) (longs : List Long) :
    (a.emit longs).nextPc = Address.advance a.nextPc longs.length :=
  a.storeLongs_nextPc a.nextPc longs

theorem emit_lastPc (a : Assembly) (longs : List Long) : (a.emit longs).lastPc =
    if a.lastPc.toNat < (Address.advance a.nextPc longs.length).toNat
    then Address.advance a.nextPc longs.length else a.lastPc := by
  unfold emit
  dsimp only
  rw [storeLongs_nextPc, (a.onlyStored_storeLongs a.nextPc longs).lastPc]

theorem emit_emit (a : Assembly) (long : Long) (longs : List Long) :
    (a.emit [long]).emit longs =
      { a.emit (long :: longs) with lastPc := ((a.emit [long]).emit longs).lastPc } := by
  unfold emit
  dsimp only [storeLongs]
  rw [storeLongs_with]

/-- Over a few longs that do not end before they start, the program counter does not come around. -/
theorem advance_le_of_le {pc : Long} {count : Nat} (hcount : count ≤ 3)
    (h : pc.toNat ≤ (Address.advance pc count).toNat) {i : Nat} (hi : i ≤ count) :
    (Address.advance pc i).toNat ≤ (Address.advance pc count).toNat := by
  have hstart : Address.hubStart = 0x400 := rfl
  have hfirst := Address.toNat_step_four_cases pc
  have hsecond := Address.toNat_step_four_cases (Address.step pc 4)
  have hthird := Address.toNat_step_four_cases (Address.step (Address.step pc 4) 4)
  -- Had it come around, it would be far below its start.
  interval_cases count <;> interval_cases i <;> simp only [Address.advance] at h ⊢ <;> omega

/-- Longs may be emitted one by one, apart from the highest program counter. -/
theorem foldl_emit (a : Assembly) (longs : List Long) : ∃ last,
    longs.foldl (fun a long => a.emit [long]) a = { a.emit longs with lastPc := last } := by
  induction longs generalizing a with
  | nil => exact ⟨a.lastPc, rfl⟩
  | cons long longs ih =>
    obtain ⟨last, hfold⟩ := ih (a.emit [long])
    refine ⟨last, ?_⟩
    rw [List.foldl_cons, hfold, emit_emit]

/-- Longs emitted at once raise the highest program counter to the one behind the last long. -/
theorem emit_lastPc_le_iff {a : Assembly} {longs : List Long} {n : Nat} :
    (a.emit longs).lastPc.toNat ≤ n ↔
      a.lastPc.toNat ≤ n ∧ (Address.advance a.nextPc longs.length).toNat ≤ n := by
  rw [emit_lastPc]
  split_ifs <;> omega

/-- Longs emitted one by one raise it to the highest one behind any of them. -/
theorem foldl_emit_lastPc_le_iff {a : Assembly} {longs : List Long} {n : Nat} :
    (longs.foldl (fun a long => a.emit [long]) a).lastPc.toNat ≤ n ↔
      a.lastPc.toNat ≤ n ∧
        ∀ i < longs.length, (Address.advance a.nextPc (i + 1)).toNat ≤ n := by
  induction longs generalizing a with
  | nil => exact (and_iff_left fun i hi => absurd hi (Nat.not_lt_zero i)).symm
  | cons long longs ih =>
    rw [List.foldl_cons, ih, emit_lastPc_le_iff, emit_nextPc, and_assoc]
    exact and_congr_right' (Nat.forall_lt_succ_left
      (p := fun i => (Address.advance a.nextPc (i + 1)).toNat ≤ n)).symm

/-- The highest program counter is the same both ways if and only if none between the longs is
above it. -/
theorem foldl_emit_lastPc_eq_iff (a : Assembly) (long : Long) (longs : List Long) :
    ((long :: longs).foldl (fun a long => a.emit [long]) a).lastPc =
        (a.emit (long :: longs)).lastPc ↔
      ∀ i < longs.length,
        (Address.advance a.nextPc (i + 1)).toNat ≤ (a.emit (long :: longs)).lastPc.toNat := by
  obtain ⟨hbefore, hbehind⟩ :
      a.lastPc.toNat ≤ (a.emit (long :: longs)).lastPc.toNat ∧
        (Address.advance a.nextPc (longs.length + 1)).toNat ≤
          (a.emit (long :: longs)).lastPc.toNat := emit_lastPc_le_iff.mp (Nat.le_refl _)
  -- One by one the highest program counter can only be higher.
  have hle : (a.emit (long :: longs)).lastPc.toNat ≤
      ((long :: longs).foldl (fun a long => a.emit [long]) a).lastPc.toNat := by
    obtain ⟨hstart, hall⟩ := foldl_emit_lastPc_le_iff.mp (Nat.le_refl
      ((long :: longs).foldl (fun a long => a.emit [long]) a).lastPc.toNat)
    exact emit_lastPc_le_iff.mpr ⟨hstart, hall longs.length (Nat.lt_succ_self _)⟩
  rw [← BitVec.toNat_inj, le_antisymm_iff, and_iff_left hle, foldl_emit_lastPc_le_iff,
    List.length_cons, Nat.forall_lt_succ_right]
  exact ⟨fun h => h.2.1, fun h => ⟨hbefore, h, hbehind⟩⟩

/-! ## Lines -/

theorem diagnostics_keep_of_none {a : Assembly} {line : Line} (h : line.fault? = none) :
    (a.keep line).diagnostics = a.diagnostics := by
  show a.readFaults.map _ ++ (a.lines.push line).toList.filterMap _ = _
  rw [Array.toList_push, List.filterMap_append]
  simp [diagnostics, h]

/-- A line that spells the words has them, and leaves no block comment open. -/
theorem nextWords_of_spells {a : Assembly} (hblock : a.block = .closed) {source : String}
    {words : List Word} (h : Spells source words) (hwords : words ≠ [])
    (hclassified : ∀ word ∈ words, word.token = .ofText word.text) :
    (a.block.split (Text.expandTabs source)).2 = .closed ∧ a.nextWords source ≠ [] ∧
      List.Forall₂ Word.SameSpelling words (Word.code (a.nextWords source)) := by
  have hread : ∀ word ∈ Word.code (a.nextWords source), word.token = .ofText word.text := by
    intro word hword
    obtain ⟨hmem, hcode⟩ := List.mem_filter.mp hword
    exact (a.classified_nextWords source word hmem).resolve_left (by simpa using hcode)
  unfold Spells at h
  rw [← hblock] at h
  change Word.spelling (Word.code (a.nextWords source)) = _ at h
  have hsame : List.Forall₂ Word.SameSpelling words (Word.code (a.nextWords source)) :=
    Word.sameSpelling_of_spelling h hclassified hread
  have hne : a.nextWords source ≠ [] := by
    intro hnil
    rw [hnil] at h
    exact hwords (List.map_eq_nil_iff.mp h.symm)
  refine ⟨?_, hne, hsame⟩
  -- A line that opens a block comment would have no words.
  rw [hblock]
  unfold nextWords at hne
  rw [hblock] at hne
  unfold Block.split at hne ⊢
  dsimp only at hne ⊢
  split
  · rename_i hopening
    rw [if_pos hopening] at hne
    exact absurd rfl hne
  · rfl

theorem read_of_unlabelled {a : Assembly} {pc : Long} {words : List Word} {effect : Effect}
    {t : SymbolTable} (hhead : ∀ word ∈ words.head?, word.token ≠ .plain)
    (h : Statement.effect { scope := a.scope, line := a.lineNumber, pc } false words a.symbols =
      .ok effect t) : read pc words a = .ok (none, effect) { a with symbols := t } := by
  have htake : takeLabel pc words a = .ok (none, words) a := by
    cases words with
    | nil => rfl
    | cons word rest =>
      rw [takeLabel, if_neg (hhead word rfl)]
      rfl
  have hget : (get : Assembler Assembly) a = .ok a a := rfl
  unfold read
  rw [bind_of_ok htake]
  dsimp only
  rw [bind_of_ok hget]
  exact bind_of_ok (evaluate_of_ok h)

/-- An instruction is read wherever its words stand, and nothing else changes. -/
theorem read_of_assembles {words words' : List Word} {longs : List Long}
    (h : Assembles words longs) (hsame : List.Forall₂ Word.SameSpelling words words') (pc : Long)
    (a : Assembly) : ∃ mnemonic e b, read pc words' a = .ok (none, .code mnemonic e) b ∧
      Beside Eq a b ∧ e.longs = longs := by
  obtain ⟨mnemonic, e, heffect, hlongs⟩ :=
    h.effect { scope := a.scope, line := a.lineNumber, pc } a.symbols
  have hread : read pc words a = .ok (none, .code mnemonic e) a :=
    read_of_unlabelled h.unlabelled heffect
  obtain ⟨label, effect, a', b, ha, hb, hbeside⟩ | ⟨f, a', b, ha, -⟩ :=
    read_beside (Beside.refl a) (SymbolTable.tracked_eq _) hsame pc
  · rw [hread] at ha
    obtain ⟨hresult, rfl⟩ := EStateM.Result.ok.inj ha
    obtain ⟨rfl, rfl⟩ := Prod.mk.inj hresult
    exact ⟨mnemonic, e, b, hb, hbeside, hlongs⟩
  · rw [hread] at ha
    cases ha

/-- A line with an instruction emits its longs, and has no fault. -/
theorem line_beside_emit {a b : Assembly} (h : Beside Eq a b) (hblock : a.block = .closed)
    {source : String} {words : List Word} {longs : List Long} (hspells : Spells source words)
    (hwords : Assembles words longs) :
    Beside Eq (a.emit longs) (b.line source) ∧ (b.line source).diagnostics = b.diagnostics := by
  have hne : words ≠ [] := by
    rintro rfl
    obtain ⟨mnemonic, e, heffect, -⟩ := hwords.effect {} {}
    cases heffect
  obtain ⟨hclosed, hsome, hsame⟩ :=
    nextWords_of_spells (h.block.trans hblock) hspells hne hwords.classified
  obtain ⟨hnil, -⟩ | ⟨-, text, hline⟩ := b.line_eq source
  · exact absurd hnil hsome
  obtain ⟨mnemonic, e, c, hread, hc, rfl⟩ :=
    read_of_assembles hwords hsame b.nextPc (b.begun .closed text)
  have houtput := (keeps_read _ _).of_ok hread
  rw [hclosed] at hline
  rw [hline, assembleWords_of_ok source hread]
  constructor
  · -- Reading adds to the log only, and the longs are stored from the same program counter.
    have hstart : Beside Eq a (c.note (.encoded c.lineNumber mnemonic e.longs)) :=
      ⟨hc.block.trans hblock.symm, h.symbols.trans hc.symbols, hc.image.trans h.image,
        hc.imageEnd.trans h.imageEnd, hc.nextPc.trans h.nextPc, hc.lastPc.trans h.lastPc,
        hc.scope.trans h.scope⟩
    have hpc : (b.begun .closed text).nextPc = a.nextPc := h.nextPc
    rw [hpc]
    have hstored := storeLongs_beside hstart a.nextPc e.longs
    have hkept := fun record => keep_beside hstored record record
    exact ⟨(hkept _).block, (hkept _).symbols, (hkept _).image, (hkept _).imageEnd,
      (hkept _).nextPc, (hkept _).lastPc, (hkept _).scope⟩
  · rw [diagnostics_keep_of_none rfl, (onlyStored_code _ _ _ _ _).diagnostics]
    show c.readFaults.map _ ++ c.lines.toList.filterMap _ = _
    rw [houtput.readFaults, houtput.lines]
    rfl

/-- Lines with one long each emit their longs one by one. -/
theorem lines_beside_emit {sources : List String} {statements : List (List Word)}
    (hspells : List.Forall₂ Spells sources statements) {longs : List Long}
    (hstatements : List.Forall₂ (fun words long => Assembles words [long]) statements longs)
    {a b : Assembly} (h : Beside Eq a b) (hblock : a.block = .closed) :
    Beside Eq (longs.foldl (fun a long => a.emit [long]) a) (sources.foldl line b) ∧
      (sources.foldl line b).diagnostics = b.diagnostics := by
  induction hspells generalizing longs a b with
  | nil =>
    obtain rfl := List.forall₂_nil_left_iff.mp hstatements
    exact ⟨h, rfl⟩
  | cons hsource _ ih =>
    obtain ⟨long, longs, hwords, hrest, rfl⟩ := List.forall₂_cons_left_iff.mp hstatements
    obtain ⟨hline, hfaultless⟩ := line_beside_emit h hblock hsource hwords
    have hclosed : (a.emit [long]).block = .closed :=
      (a.onlyStored_storeLongs a.nextPc [long]).block.trans hblock
    obtain ⟨hlines, hfaultless'⟩ := ih hrest hline hclosed
    exact ⟨hlines, hfaultless'.trans hfaultless⟩

end Assembly

/-! ## Wide immediates -/

namespace Written

open Instruction

/-- The words of the instruction with its wide immediates. -/
def statement (i : Written) : List Word :=
  Statement.instructionWords i.condition i.mnemonic i.wholeWords

/-- The words of its augmentations, each for a line of its own, and those of the instruction with
the low bits of the immediates. -/
def explicitStatements (i : Written) : List (List Word) :=
  i.wide.map (fun (side, value) => Statement.instructionWords i.condition side.mnemonic
    (operandWords [Operand.hexText false value] none)) ++
  [Statement.instructionWords i.condition i.mnemonic i.lowWords]

theorem length_wide_le (i : Written) : i.wide.length ≤ 2 := by
  unfold wide
  rw [List.length_append, List.length_map, List.length_map]
  have hone : ∀ o : Option Quad, o.toList.length ≤ 1 := by
    intro o
    cases o with
    | none => exact Nat.zero_le 1
    | some value => exact Nat.le_refl 1
  exact Nat.add_le_add (hone _) (hone _)

/-- The longs of the instruction are those of the lines that it stands for. -/
theorem Valid.assembles {i : Written} (h : i.Valid) : ∃ longs : List Long,
    longs.length = i.wide.length + 1 ∧ Assembles i.statement longs ∧
      List.Forall₂ (fun words long => Assembles words [long]) i.explicitStatements longs := by
  obtain ⟨word, hwhole, hlow⟩ := h.encode
  refine ⟨i.wide.map (fun a => a.1.augmentation i.cond a.2) ++ [word], ?_, ?_, ?_⟩
  · rw [List.length_append, List.length_map, List.length_singleton]
  · exact assembles_instructionWords h.condition h.mnemonic hwhole
  · refine List.rel_append ?_ ?_
    · rw [List.forall₂_map_left_iff, List.forall₂_map_right_iff, List.forall₂_same]
      rintro ⟨side, value⟩ -
      exact assembles_instructionWords h.condition side.find?_mnemonic
        (encode_augmentation side i.cond value)
    · exact .cons (assembles_instructionWords h.condition h.mnemonic hlow) .nil

end Written

namespace Assembly

/-- A line with wide immediates emits its longs at once, and the lines that it stands for emit them
one by one; none of the lines has a fault. -/
theorem lines_of_wide_immediates {a : Assembly} (hblock : a.block = .closed) {i : Written}
    (hi : i.Valid) {source : String} (hsource : Spells source i.statement)
    {sources : List String} (hsources : List.Forall₂ Spells sources i.explicitStatements) :
    ∃ long longs, longs.length = i.wide.length ∧
      Beside Eq (a.emit (long :: longs)) (a.line source) ∧
      Beside Eq ((long :: longs).foldl (fun a long => a.emit [long]) a) (sources.foldl line a) ∧
      (a.line source).diagnostics = a.diagnostics ∧
      (sources.foldl line a).diagnostics = a.diagnostics := by
  obtain ⟨longs, hlength, hwhole, hexplicit⟩ := hi.assembles
  obtain ⟨long, longs, rfl⟩ := List.exists_cons_of_length_eq_add_one hlength
  obtain ⟨hb, hfaultless⟩ := line_beside_emit (Beside.refl a) hblock hsource hwhole
  obtain ⟨hc, hfaultless'⟩ := lines_beside_emit hsources hexplicit (Beside.refl a) hblock
  exact ⟨long, longs, Nat.succ.inj hlength, hb, hc, hfaultless, hfaultless'⟩

/-- A line with wide immediates stores the same, and moves to the same program counter, as the
augmentations and the instruction on lines of their own, at any program counter and under any
condition; neither has a fault.  The highest program counter is the same if and only if none between
the longs is above it, and so as long as the program counter does not come around past its last
value. -/
theorem wide_immediates_as_augmentations {a : Assembly} (hblock : a.block = .closed) {i : Written}
    (hi : i.Valid) {source : String} (hsource : Spells source i.statement)
    {sources : List String} (hsources : List.Forall₂ Spells sources i.explicitStatements) :
    let b := a.line source
    let c := sources.foldl line a
    b.nextPc = Address.advance a.nextPc (i.wide.length + 1) ∧
      c.image = b.image ∧ c.imageEnd = b.imageEnd ∧ c.nextPc = b.nextPc ∧
      (c.lastPc = b.lastPc ↔ ∀ j < i.wide.length,
        (Address.advance a.nextPc (j + 1)).toNat ≤ b.lastPc.toNat) ∧
      (a.nextPc.toNat ≤ b.nextPc.toNat → c.lastPc = b.lastPc) ∧
      c.symbols = b.symbols ∧ c.scope = b.scope ∧
      b.diagnostics = a.diagnostics ∧ c.diagnostics = a.diagnostics := by
  intro b c
  obtain ⟨long, longs, hlength, hb, hc, hfaultless, hfaultless'⟩ :=
    lines_of_wide_immediates hblock hi hsource hsources
  obtain ⟨last, hfold⟩ := a.foldl_emit (long :: longs)
  have hnext : b.nextPc = Address.advance a.nextPc (i.wide.length + 1) := by
    rw [hb.nextPc, emit_nextPc, List.length_cons, hlength]
  have hlast : c.lastPc = b.lastPc ↔ ∀ j < i.wide.length,
      (Address.advance a.nextPc (j + 1)).toNat ≤ b.lastPc.toNat := by
    rw [hb.lastPc, hc.lastPc, foldl_emit_lastPc_eq_iff, hlength]
  rw [hfold] at hc
  refine ⟨hnext, hc.image.trans hb.image.symm, hc.imageEnd.trans hb.imageEnd.symm,
    hc.nextPc.trans hb.nextPc.symm, hlast, ?_, hc.symbols.symm.trans hb.symbols,
    hc.scope.trans hb.scope.symm, hfaultless, hfaultless'⟩
  intro hforward
  -- Those between the longs are not above the one behind them, which the highest one takes in.
  rw [hlast]
  intro j hj
  have hcount : i.wide.length + 1 ≤ 3 := Nat.succ_le_succ i.length_wide_le
  have hbehind := (emit_lastPc_le_iff.mp (Nat.le_refl (a.emit (long :: longs)).lastPc.toNat)).2
  rw [List.length_cons, hlength, ← hb.lastPc] at hbehind
  rw [hnext] at hforward
  exact Nat.le_trans (advance_le_of_le hcount hforward (Nat.succ_le_succ (Nat.le_of_lt hj))) hbehind

end Assembly

/-- Two wide immediates under a condition, with a flag word behind them. -/
def Written.coginit : Written where
  condition := some ("if_nz", 0b0101)
  mnemonic := "coginit"
  form := ⟨"1100111 CLI", .both false (some .wc)⟩
  operands := [.wide 0x12345, .wide 0xdeadbeef]
  flag := some ("wc", .wc)

theorem Written.valid_coginit : Written.coginit.Valid := by
  have hselected : coginit.selected = coginit.form := by decide +kernel
  refine ⟨?_, by decide +kernel, ?_, List.cons_ne_nil _ _, ?_, by rw [hselected]; decide⟩
  · intro c hc
    obtain rfl := Option.some.inj hc
    decide +kernel
  · intro f hf
    obtain rfl := Option.some.inj hf
    decide +kernel
  · have hdst : (Slot.dst .zero).Takes (.wide 0x12345) := by
      simp [Slot.Takes, Slot.Fits, Operand.Fits]
    have hsrc : (Slot.src false).Takes (.wide 0xdeadbeef) := by
      simp [Slot.Takes, Slot.Fits, Operand.Fits]
    rw [hselected]
    exact .cons hdst (.cons hsrc .nil)

/-- The three longs go from register memory over to hub memory. -/
theorem Assembly.coginit_as_augmentations :
    let a := ({} : Assembly).line " org $3fe"
    let b := a.line " if_nz coginit ##$12345, ##$deadbeef wc"
    let c := [" if_nz augd #$12345", " if_nz augs #$deadbeef",
      " if_nz coginit #$145, #$ef wc"].foldl line a
    (a.nextPc = 0x3fe ∧ b.nextPc = 0x404) ∧ c.image = b.image ∧ c.imageEnd = b.imageEnd ∧
      c.nextPc = b.nextPc ∧ c.lastPc = b.lastPc ∧ b.diagnostics = a.diagnostics := by
  have hstart : (({} : Assembly).line " org $3fe").block = .closed ∧
      (({} : Assembly).line " org $3fe").nextPc = 0x3fe := by decide +kernel
  have hwide : Written.coginit.wide = [(.dst, 0x12345), (.src, 0xdeadbeef)] := by decide +kernel
  have hsource : Spells " if_nz coginit ##$12345, ##$deadbeef wc" Written.coginit.statement :=
    Word.spells_of_render (by decide +kernel) (by decide +kernel)
  have hsources : List.Forall₂ Spells [" if_nz augd #$12345", " if_nz augs #$deadbeef",
      " if_nz coginit #$145, #$ef wc"] Written.coginit.explicitStatements := by
    unfold Written.explicitStatements
    rw [hwide]
    refine .cons ?_ (.cons ?_ (.cons ?_ .nil))
    · exact Word.spells_of_render (by decide +kernel) (by decide +kernel)
    · exact Word.spells_of_render (by decide +kernel) (by decide +kernel)
    · exact Word.spells_of_render (by decide +kernel) (by decide +kernel)
  obtain ⟨hnext, himage, hend, hnext', -, hlast, -, -, hfaultless, -⟩ :=
    wide_immediates_as_augmentations hstart.1 Written.valid_coginit hsource hsources
  rw [hwide, hstart.2] at hnext
  refine ⟨⟨hstart.2, hnext.trans (by decide)⟩, himage, hend, hnext', hlast ?_, hfaultless⟩
  rw [hnext, hstart.2]
  decide

/-! ## Around the last program counter -/

namespace Assembly

/-- Up to the last program counter, the next one is also the highest one. -/
theorem BehindNops.pcs {n : Nat} {a : Assembly} (h : BehindNops n a) (ha : Reachable a)
    (hn : n < 2 ^ 30 + 768) :
    a.nextPc.toNat = max n (4 * n - 3072) ∧ a.lastPc.toNat = max n (4 * n - 3072) := by
  have hnext : a.nextPc.toNat = max n (4 * n - 3072) := by
    rw [h.nextPc, Address.toNat_advance_zero hn]
  have hle := ha.settled.nextPc_le
  have hge : a.lastPc.toNat ≤ max n (4 * n - 3072) := by
    refine h.lastPc_le _ fun i hi => ?_
    rw [Address.toNat_advance_zero (Nat.lt_of_le_of_lt hi hn)]
    omega
  exact ⟨hnext, by omega⟩

end Assembly

/-- A wide immediate behind a register. -/
def Written.mov : Written where
  mnemonic := "mov"
  form := ⟨"0110000 CZI", .dstSrc false (some .wcz)⟩
  operands := [.short "0" { value := 0 }, .wide 1]

theorem Written.valid_mov : Written.mov.Valid := by
  have hselected : mov.selected = mov.form := by decide +kernel
  refine ⟨nofun, by decide +kernel, nofun, List.cons_ne_nil _ _, ?_, by rw [hselected]; decide⟩
  have hdst : (Slot.dst .none).Takes (.short "0" { value := 0 }) :=
    ⟨⟨Operand.constant_of_parse (by decide +kernel), by decide +kernel, nofun,
      by simp [Slot.Fits, Operand.Fits]⟩, rfl⟩
  have hsrc : (Slot.src false).Takes (.wide 1) := by simp [Slot.Takes, Slot.Fits, Operand.Fits]
  rw [hselected]
  exact .cons hdst (.cons hsrc .nil)

/-- Where the program counter comes around between an augmentation and its instruction, it is at its
highest between the two, and the highest program counter takes it in only if the augmentation is on
a line of its own. -/
theorem Assembly.lastPc_raised_by_augmentation :
    let a := (List.replicate (2 ^ 30 + 766) "nop").foldl line (Assembly.clear {})
    let b := a.line " mov 0, ##$1"
    let c := [" augs #$1", " mov 0, #$1"].foldl line a
    (Reachable a ∧ a.block = .closed) ∧
      (Written.mov.Valid ∧ Spells " mov 0, ##$1" Written.mov.statement ∧
        List.Forall₂ Spells [" augs #$1", " mov 0, #$1"] Written.mov.explicitStatements) ∧
      b.lastPc = 0xfffffff8 ∧ c.lastPc = 0xfffffffc := by
  have hnops := behindNops (2 ^ 30 + 766)
  have hreachable := Reachable.new.clear.foldl_line (List.replicate (2 ^ 30 + 766) "nop")
  generalize (List.replicate (2 ^ 30 + 766) "nop").foldl line (Assembly.clear {}) = a
    at hnops hreachable
  obtain ⟨hnext, hlast⟩ := hnops.pcs hreachable (by decide)
  have hwide : Written.mov.wide = [(.src, 1)] := by decide +kernel
  have hsource : Spells " mov 0, ##$1" Written.mov.statement :=
    Word.spells_of_render (by decide +kernel) (by decide +kernel)
  have hsources : List.Forall₂ Spells [" augs #$1", " mov 0, #$1"]
      Written.mov.explicitStatements := by
    unfold Written.explicitStatements
    rw [hwide]
    refine .cons ?_ (.cons ?_ .nil)
    · exact Word.spells_of_render (by decide +kernel) (by decide +kernel)
    · exact Word.spells_of_render (by decide +kernel) (by decide +kernel)
  refine ⟨⟨hreachable, hnops.block⟩, ⟨Written.valid_mov, hsource, hsources⟩, ?_⟩
  obtain ⟨long, longs, hlength, hb, hc, -, -⟩ :=
    lines_of_wide_immediates hnops.block Written.valid_mov hsource hsources
  rw [hwide] at hlength
  obtain ⟨long', rfl⟩ := List.length_eq_one_iff.mp hlength
  have hstart : a.nextPc = 0xfffffff8 ∧ a.lastPc = 0xfffffff8 :=
    ⟨BitVec.eq_of_toNat_eq hnext, BitVec.eq_of_toNat_eq hlast⟩
  rw [hb.lastPc, hc.lastPc, List.foldl_cons, List.foldl_cons, List.foldl_nil, emit_lastPc,
    emit_lastPc, emit_lastPc, emit_nextPc, hstart.1, hstart.2]
  simp only [List.length_cons, List.length_nil]
  decide

end PropellerAsm
