import PropellerAsm.Proofs.Assembly.Step
import PropellerAsm.Proofs.Image

/-!
# The image as the replay of the line records

A pass keeps a record of every line with words and stores bytes into the image as it goes.  The two
agree at every moment: the image is what comes of replaying the writes of the records, in order, on
a memory of zeros, and its end is the highest address behind a write that fits.
-/
namespace PropellerAsm

/-- Longs one after the other, from a program counter on. -/
def Write.longs (pc : Long) : List Long → List Write
  | [] => []
  | long :: more =>
    ⟨Address.toByte pc, Bytes.littleEndian 4 long.toNat⟩ :: longs (Address.step pc 4) more

/-- The writes that the record of a line stands for: its instruction behind the augmentations, or
else its data as one block. -/
def Line.writes (line : Line) : List Write :=
  match line.opcode? with
  | some opcode => Write.longs line.pc (line.augments ++ [opcode])
  | none => if line.data = [] then [] else [⟨Address.toByte line.pc, line.data⟩]

namespace Assembly

/-! ## What is stored by each effect -/

/-- The second state is the first one after writes; the line records are the same. -/
structure Stores (a b : Assembly) (writes : List Write) : Prop where
  memory : b.image.read = Write.replay a.image.read writes
  extent : b.imageEnd = Write.extent a.imageEnd writes
  lines : b.lines = a.lines
  lineNumber : b.lineNumber = a.lineNumber

theorem SameOutput.stores {a b : Assembly} (h : SameOutput a b) : Stores a b [] :=
  ⟨congrArg Image.read h.image, h.imageEnd, h.lines, h.lineNumber⟩

theorem Stores.append {a b c : Assembly} {writes more : List Write} (h : Stores a b writes)
    (h' : Stores b c more) : Stores a c (writes ++ more) where
  memory := by rw [h'.memory, h.memory, Write.replay_append]
  extent := by rw [h'.extent, h.extent, Write.extent_append]
  lines := h'.lines.trans h.lines
  lineNumber := h'.lineNumber.trans h.lineNumber

theorem stores_store (a : Assembly) (addr : Nat) (bytes : List UInt8) :
    Stores a (a.store addr bytes) [⟨addr, bytes⟩] := by
  unfold store
  rw [Image.write?_eq]
  by_cases hfits : (Write.mk addr bytes).fits = true
  · rw [if_pos hfits]
    refine ⟨?_, ?_, rfl, rfl⟩
    · rw [Write.replay_singleton, if_pos hfits]
      exact Image.read_store a.image.bytes addr bytes
    · rw [Write.extent_singleton, if_pos hfits]
      rfl
  · rw [if_neg hfits]
    refine ⟨?_, ?_, rfl, rfl⟩
    · rw [Write.replay_singleton, if_neg hfits]
      rfl
    · rw [Write.extent_singleton, if_neg hfits]
      rfl

theorem stores_storeLongs (a : Assembly) (pc : Long) (longs : List Long) :
    Stores a (a.storeLongs pc longs) (Write.longs pc longs) := by
  induction longs generalizing a pc with
  | nil => exact ⟨rfl, rfl, rfl, rfl⟩
  | cons long longs ih =>
    have hfirst := a.stores_store (Address.toByte pc) (Bytes.littleEndian 4 long.toNat)
    exact hfirst.append (ih _ (Address.step pc 4))

theorem stores_rebind (a : Assembly) (label : Option String) (value : Value) :
    Stores a (a.rebind label value) [] := by
  cases label with
  | none => exact ⟨rfl, rfl, rfl, rfl⟩
  | some name => exact ⟨rfl, rfl, rfl, rfl⟩

/-- An effect stores what the record of its line says. -/
theorem stores_commit (a : Assembly) (pc : Long) (label : Option String) (effect : Effect)
    (line : Line) (hpc : line.pc = effect.linePc pc) (houtcome : line.outcome = effect.outcome) :
    Stores a (a.commit pc label effect) line.writes := by
  -- The record has the program counter that the effect stores from.
  unfold Line.writes Line.opcode? Line.augments Line.data
  rw [hpc, houtcome]
  cases effect with
  | nothing => exact ⟨rfl, rfl, rfl, rfl⟩
  | code mnemonic e =>
    have h := stores_storeLongs (a.note (.encoded a.lineNumber mnemonic e.longs)) pc e.longs
    exact ⟨h.memory, h.extent, h.lines, h.lineNumber⟩
  | data bytes =>
    cases bytes with
    | nil => exact ⟨rfl, rfl, rfl, rfl⟩
    | cons b bytes =>
      have h := a.stores_store (Address.toByte pc) (b :: bytes)
      exact ⟨h.memory, h.extent, h.lines, h.lineNumber⟩
  | reserve next => exact ⟨rfl, rfl, rfl, rfl⟩
  | origin org =>
    have h := stores_rebind { a with nextPc := org } label (.addr org)
    exact ⟨h.memory, h.extent, h.lines, h.lineNumber⟩
  | assign value => exact stores_rebind _ label value

/-- An effect leaves the records to the line that it belongs to. -/
theorem lines_commit (a : Assembly) (pc : Long) (label : Option String) (effect : Effect) :
    (a.commit pc label effect).lines = a.lines :=
  (a.stores_commit pc label effect { number := 0, pc := _, source := "", words := [], outcome := _ }
    rfl rfl).lines

theorem lineNumber_commit (a : Assembly) (pc : Long) (label : Option String) (effect : Effect) :
    (a.commit pc label effect).lineNumber = a.lineNumber :=
  (a.stores_commit pc label effect { number := 0, pc := _, source := "", words := [], outcome := _ }
    rfl rfl).lineNumber

/-- Every line counts. -/
theorem lineNumber_line (a : Assembly) (source : String) :
    (a.line source).lineNumber = a.lineNumber + 1 := by
  obtain ⟨-, block, hline⟩ | ⟨block, text, label, effect, b, hread, hline⟩ |
    ⟨block, text, f, b, hread, hline⟩ := a.line_outcomes source
  · rw [hline]
  · rw [hline]
    exact (b.lineNumber_commit _ label effect).trans ((keeps_read _ _).of_ok hread).lineNumber
  · rw [hline]
    exact ((keeps_read _ _).of_error hread).lineNumber

/-- A line leaves the records as they are, or adds its own. -/
theorem lines_line (a : Assembly) (source : String) :
    (a.line source).lines = a.lines ∨
      ∃ record, record.number = a.lineNumber + 1 ∧
        (a.line source).lines = a.lines.push record := by
  obtain ⟨-, block, hline⟩ | ⟨block, text, label, effect, b, hread, hline⟩ |
    ⟨block, text, f, b, hread, hline⟩ := a.line_outcomes source
  · left
    rw [hline]
  · right
    have hlines : b.lines = a.lines := ((keeps_read _ _).of_ok hread).lines
    rw [hline, keep, lines_commit, hlines]
    exact ⟨_, rfl, rfl⟩
  · right
    have hlines : b.lines = a.lines := ((keeps_read _ _).of_error hread).lines
    rw [hline, ← hlines]
    exact ⟨_, rfl, rfl⟩

/-! ## The invariant -/

/-- The image and the line records tell the same. -/
structure Replayed (a : Assembly) : Prop where
  memory : a.image.read = Write.replay .zero (a.lines.toList.flatMap Line.writes)
  extent : a.imageEnd = Write.extent 0 (a.lines.toList.flatMap Line.writes)
  /-- The records stand in the order of their lines. -/
  ordered : (a.lines.toList.map Line.number).Pairwise (· < ·)
  counted : ∀ line ∈ a.lines.toList, line.number ≤ a.lineNumber

theorem replayed_clear (a : Assembly) : Replayed a.clear where
  memory := by
    funext i
    rfl
  extent := rfl
  ordered := List.Pairwise.nil
  counted := by
    intro line h
    cases h

/-- Storing the writes of the next record and keeping it changes both alike. -/
theorem Replayed.keep {a b : Assembly} (h : Replayed a) {line : Line}
    (hstores : Stores { a with lineNumber := a.lineNumber + 1 } b line.writes)
    (hnumber : line.number = a.lineNumber + 1) : Replayed (b.keep line) := by
  have hall : (b.keep line).lines.toList = a.lines.toList ++ [line] := by
    rw [Assembly.keep, hstores.lines, Array.toList_push]
  have hcount : b.lineNumber = a.lineNumber + 1 := hstores.lineNumber
  refine ⟨?_, ?_, ?_, ?_⟩
  · rw [hall, List.flatMap_append, Write.replay_append, ← h.memory, List.flatMap_singleton]
    exact hstores.memory
  · rw [hall, List.flatMap_append, Write.extent_append, ← h.extent, List.flatMap_singleton]
    exact hstores.extent
  · -- The new record has the number of this line, which is above all others.
    rw [hall, List.map_append, List.pairwise_append]
    refine ⟨h.ordered, List.pairwise_singleton _ _, ?_⟩
    intro n hn m hm
    obtain ⟨earlier, hearlier, rfl⟩ := List.mem_map.mp hn
    obtain rfl := List.mem_singleton.mp hm
    have hle := h.counted earlier hearlier
    omega
  · intro earlier hearlier
    rw [hall] at hearlier
    show earlier.number ≤ b.lineNumber
    rcases List.mem_append.mp hearlier with hold | hnew
    · have hle := h.counted earlier hold
      omega
    · obtain rfl := List.mem_singleton.mp hnew
      omega

/-- A step of the pass keeps image and records together. -/
theorem Replayed.line {a : Assembly} (h : Replayed a) (source : String) :
    Replayed (a.line source) := by
  obtain ⟨-, block, hline⟩ | ⟨block, text, label, effect, b, hread, hline⟩ |
    ⟨block, text, f, b, hread, hline⟩ := a.line_outcomes source
  · -- A line without words leaves no record.
    rw [hline]
    refine ⟨h.memory, h.extent, h.ordered, ?_⟩
    intro line hmem
    exact Nat.le_succ_of_le (h.counted line hmem)
  · rw [hline]
    have hsame := ((keeps_read _ _).of_ok hread).stores
    have hcommit := hsame.append (b.stores_commit a.nextPc label effect
      { number := a.lineNumber + 1, pc := effect.linePc a.nextPc, source,
        words := a.nextWords source, outcome := effect.outcome } rfl rfl)
    exact h.keep ⟨hcommit.memory, hcommit.extent, hcommit.lines, hcommit.lineNumber⟩ rfl
  · -- A fault stores nothing, and its record has no writes.
    rw [hline]
    have hsame := ((keeps_read _ _).of_error hread).stores
    exact h.keep ⟨hsame.memory, hsame.extent, hsame.lines, hsame.lineNumber⟩ rfl

/-- Every pass keeps image and records together. -/
theorem replayed_foldl (sources : List String) {a : Assembly} (h : Replayed a) :
    Replayed (sources.foldl line a) := by
  induction sources generalizing a with
  | nil => exact h
  | cons source sources ih => exact ih (h.line source)

/-- After every sequence of lines the image is the replay, on a memory of zeros, of the writes of
the line records in the order of their numbers, and the binary ends behind the highest byte
written. -/
theorem image_eq_replay_of_lines (a : Assembly) (sources : List String) :
    let b := sources.foldl line a.clear
    let writes := b.lines.toList.flatMap Line.writes
    (b.lines.toList.map Line.number).Pairwise (· < ·) ∧
      (∀ addr, b.image.read addr = Write.replay .zero writes addr) ∧
      b.imageEnd = Write.extent 0 writes ∧ b.imageEnd ≤ Address.memorySize ∧
      b.binary.length = b.imageEnd ∧
      b.binary = (List.range b.imageEnd).map (Write.replay .zero writes) := by
  intro b writes
  have h : Replayed b := replayed_foldl sources (replayed_clear a)
  refine ⟨h.ordered, congrFun h.memory, h.extent, ?_, ?_, ?_⟩
  · rw [h.extent]
    exact Write.extent_le writes (Nat.zero_le _)
  · rw [binary, Image.slice, List.length_map, List.length_range']
  · rw [binary, Image.slice, h.memory, List.range_eq_range']

end Assembly

end PropellerAsm
