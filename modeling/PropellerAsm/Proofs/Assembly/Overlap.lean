import PropellerAsm.Proofs.Address
import PropellerAsm.Proofs.Assembly.Replay
import PropellerAsm.Proofs.Assembly.Statement

/-!
# Which lines can overwrite each other

Without an origin directive the program counter only moves forward: over longs, over data, over
reserved places.  So whatever a line stores ends before the program counter of the lines behind it.
Lines that store through program counters of one memory are therefore kept apart.  Register memory
and hub memory share the image, though, and a line in hub memory can overwrite what an earlier line
has stored through a register address, at byte `$400` and above.
-/
namespace PropellerAsm

/-- The effect does not send the program counter back. -/
def Effect.Forward (pc : Long) : Effect → Prop
  | .origin _ => False
  | .reserve next => pc.toNat ≤ next.toNat
  | _ => True

/-- Whatever does not start with an origin directive leads forward. -/
theorem Statement.effect_forward {ctx : Context} {labelled : Bool} {words : List Word}
    (hwords : words.head?.any (·.token.isOrigin) = false) {t t' : SymbolTable} {effect : Effect}
    (h : Statement.effect ctx labelled words t = .ok effect t') : effect.Forward ctx.pc := by
  obtain rfl | ⟨mnemonic, e, rfl⟩ | ⟨bytes, rfl⟩ | ⟨next, rfl, hnext⟩ |
    ⟨org, first, rest, rfl, rfl, horigin⟩ | ⟨n, rfl⟩ := effect_eq_ok h
  · exact trivial
  · exact trivial
  · exact trivial
  · exact hnext
  · rw [List.head?_cons, Option.any_some, horigin] at hwords
    cases hwords
  · exact trivial

/-! ## What a line stores, by program counter -/

/-- Bytes that are stored from a program counter on. -/
structure Piece where
  pc : Long
  bytes : List UInt8

namespace Piece

/-- The place of the bytes in the image. -/
def write (p : Piece) : Write := ⟨Address.toByte p.pc, p.bytes⟩

/-- Longs one after the other, from a program counter on. -/
def longs (pc : Long) : List Long → List Piece
  | [] => []
  | long :: more => ⟨pc, Bytes.littleEndian 4 long.toNat⟩ :: longs (Address.step pc 4) more

theorem map_write_longs (pc : Long) (all : List Long) :
    (longs pc all).map write = Write.longs pc all := by
  induction all generalizing pc with
  | nil => rfl
  | cons long all ih =>
    rw [longs, List.map_cons, ih]
    rfl

/-- The bytes, if they are stored, end before a program counter, as long as it lies in the same
memory. -/
def EndsBy (p : Piece) (pc : Long) : Prop :=
  p.write.fits = true →
    if Address.isHub p.pc then p.pc.toNat + p.bytes.length ≤ pc.toNat
    else p.pc.toNat * 4 + p.bytes.length ≤ pc.toNat * 4

theorem EndsBy.mono {p : Piece} {pc pc' : Long} (h : p.EndsBy pc) (hle : pc.toNat ≤ pc'.toNat) :
    p.EndsBy pc' := by
  intro hfits
  have hends := h hfits
  split at hends
  · rename_i hhub
    rw [if_pos hhub]
    omega
  · rename_i hregister
    rw [if_neg hregister]
    omega

/-- The program counter behind some bytes, short of the last one, is where they end. -/
theorem endsBy_step {p : Piece} (h : p.pc.toNat + p.bytes.length < 2 ^ 32) :
    p.pc.toNat ≤ (Address.step p.pc p.bytes.length).toNat ∧
      p.EndsBy (Address.step p.pc p.bytes.length) := by
  unfold EndsBy
  by_cases hhub : Address.isHub p.pc = true
  · have hstep := Address.toNat_step_hub ((Address.isHub_iff p.pc).mp hhub) p.bytes.length
    rw [if_pos hhub]
    omega
  · have hstart : Address.hubStart = 0x400 := rfl
    have hpc : p.pc.toNat < Address.hubStart := by
      rw [Address.isHub_iff] at hhub
      omega
    have hstep := Address.toNat_step_register hpc p.bytes.length
    rw [if_neg hhub]
    refine ⟨hstep ▸ Nat.le_add_right _ _, fun hfits => ?_⟩
    -- What fits is so short that counting in 32 bits makes no difference.
    have hstop : p.write.addr + p.bytes.length ≤ Address.memorySize := of_decide_eq_true hfits
    have hsize : Address.memorySize = 0x100000 := rfl
    omega

/-- Longs start at the program counter or behind it, and end by the program counter behind them. -/
theorem longs_forward {pc : Long} {all : List Long} (h : pc.toNat + 4 * all.length < 2 ^ 32) :
    pc.toNat ≤ (Address.advance pc all.length).toNat ∧
      ∀ p ∈ longs pc all, pc.toNat ≤ p.pc.toNat ∧ p.EndsBy (Address.advance pc all.length) := by
  induction all generalizing pc with
  | nil =>
    refine ⟨Nat.le_refl _, ?_⟩
    intro p hp
    cases hp
  | cons long all ih =>
    have hlength : (Bytes.littleEndian 4 long.toNat).length = 4 := Bytes.length_littleEndian 4 _
    rw [List.length_cons] at h
    have hfirst := @endsBy_step ⟨pc, Bytes.littleEndian 4 long.toNat⟩
    simp only [hlength] at hfirst
    obtain ⟨hstep, hends⟩ := hfirst (by omega)
    have hcases := Address.toNat_step_four_cases pc
    obtain ⟨hrest, hpieces⟩ := @ih (Address.step pc 4) (by omega)
    refine ⟨Nat.le_trans hstep hrest, ?_⟩
    intro p hp
    rcases List.mem_cons.mp hp with rfl | hp
    · exact ⟨Nat.le_refl _, hends.mono hrest⟩
    · obtain ⟨hstart, hends'⟩ := hpieces p hp
      exact ⟨Nat.le_trans hstep hstart, hends'⟩

/-- A byte of a piece that has ended can only belong to a later piece if the two lie in different
memories. -/
theorem EndsBy.overlap {p p' : Piece} {pc : Long} (h : p.EndsBy pc) (hfits : p.write.fits = true)
    (hlater : pc.toNat ≤ p'.pc.toNat) {addr : Nat} (hstop : addr < p.write.stop)
    (haddr : p'.write.addr ≤ addr) :
    Address.isHub p.pc = false ∧ Address.isHub p'.pc = true ∧ Address.hubStart ≤ addr := by
  have hhub := Address.isHub_iff p.pc
  have hhub' := Address.isHub_iff p'.pc
  have hplace := Address.toByte_cases p.pc
  have hplace' := Address.toByte_cases p'.pc
  replace h := h hfits
  unfold Write.stop at hstop
  unfold write at hstop haddr
  dsimp only at hstop haddr
  cases hb : Address.isHub p.pc with
  | true =>
    -- Behind hub memory there are no registers.
    rw [if_pos hb] at h
    have hpc := hhub.mp hb
    omega
  | false =>
    rw [if_neg (Bool.eq_false_iff.mp hb)] at h
    cases hb' : Address.isHub p'.pc with
    | true =>
      have hpc := hhub'.mp hb'
      exact ⟨rfl, rfl, by omega⟩
    | false =>
      have hpc : ¬ Address.hubStart ≤ p'.pc.toNat := by
        rw [← hhub', hb']
        exact Bool.false_ne_true
      omega

end Piece

namespace Line

/-- The pieces that the record of a line stands for. -/
def pieces (line : Line) : List Piece :=
  match line.outcome with
  | .code e => Piece.longs line.pc e.longs
  | .data bytes => if bytes = [] then [] else [⟨line.pc, bytes⟩]
  | _ => []

theorem map_write_pieces (line : Line) : line.pieces.map Piece.write = line.writes := by
  unfold pieces writes opcode? augments data
  cases line.outcome with
  | nothing => rfl
  | code e => exact Piece.map_write_longs line.pc e.longs
  | data bytes =>
    dsimp only
    split
    · rfl
    · rfl
  | fault f => rfl

/-- How many bytes the line asks to store. -/
def size (line : Line) : Nat :=
  match line.outcome with
  | .code e => 4 * e.longs.length
  | .data bytes => bytes.length
  | _ => 0

/-- The line stores a byte of the image. -/
def Stores (line : Line) (addr : Nat) : Prop :=
  ∃ w ∈ line.writes, w.fits = true ∧ w.addr ≤ addr ∧ addr < w.stop

/-- The line stores a byte of the image through a program counter of hub memory, or of register
memory. -/
def StoresThrough (line : Line) (hub : Bool) (addr : Nat) : Prop :=
  ∃ p ∈ line.pieces, Address.isHub p.pc = hub ∧
    p.write.fits = true ∧ p.write.addr ≤ addr ∧ addr < p.write.stop

/-- Every byte is stored through one of the two memories. -/
theorem stores_iff (line : Line) (addr : Nat) :
    line.Stores addr ↔ ∃ hub, line.StoresThrough hub addr := by
  unfold Stores StoresThrough
  rw [← map_write_pieces]
  constructor
  · rintro ⟨w, hw, hinside⟩
    obtain ⟨p, hp, rfl⟩ := List.mem_map.mp hw
    exact ⟨_, p, hp, rfl, hinside⟩
  · rintro ⟨hub, p, hp, -, hinside⟩
    exact ⟨p.write, List.mem_map_of_mem hp, hinside⟩

/-- The line consists of an origin directive, behind a label or without one. -/
def setsOrigin (line : Line) : Bool :=
  (Assembly.unlabelled (Word.code line.words)).head?.any (·.token.isOrigin)

/-- The line is no origin directive, and does not reach the last program counter. -/
def InPlace (line : Line) : Prop :=
  line.setsOrigin = false ∧ line.pc.toNat + line.size < 2 ^ 32

instance (line : Line) : Decidable line.InPlace :=
  inferInstanceAs (Decidable (_ ∧ _))

end Line

/-! ## Passes -/

namespace Assembly

/-- A statement that is not an origin directive leads forward. -/
theorem read_forward {pc : Long} {line : Line} (hline : line.setsOrigin = false)
    {a b : Assembly} {label : Option String} {effect : Effect}
    (h : read pc (Word.code line.words) a = .ok (label, effect) b) : effect.Forward pc := by
  obtain ⟨f, b', -, hread⟩ | ⟨label', a₁, -, ⟨effect', symbols, heffect, hread⟩ |
    ⟨f, symbols, -, hread⟩⟩ := read_cases pc (Word.code line.words) a
  · rw [hread] at h
    cases h
  · rw [hread] at h
    obtain ⟨rfl, rfl⟩ := Prod.mk.inj (EStateM.Result.ok.inj h).1
    exact Statement.effect_forward hline heffect
  · rw [hread] at h
    cases h

theorem storeLongs_nextPc (a : Assembly) (pc : Long) (longs : List Long) :
    (a.storeLongs pc longs).nextPc = Address.advance pc longs.length := by
  induction longs generalizing a pc with
  | nil => rfl
  | cons long longs ih => exact ih _ _

theorem rebind_nextPc (a : Assembly) (label : Option String) (value : Value) :
    (a.rebind label value).nextPc = a.nextPc := by
  cases label with
  | none => rfl
  | some name => rfl

/-- What a line stores lies between its program counter and the next one. -/
theorem commit_forward {a : Assembly} {effect : Effect} (heffect : effect.Forward a.nextPc)
    {line : Line} (hpc : line.pc = a.nextPc) (houtcome : line.outcome = effect.outcome)
    (hsize : line.pc.toNat + line.size < 2 ^ 32) (label : Option String) :
    a.nextPc.toNat ≤ (a.commit a.nextPc label effect).nextPc.toNat ∧
      ∀ p ∈ line.pieces, a.nextPc.toNat ≤ p.pc.toNat ∧
        p.EndsBy (a.commit a.nextPc label effect).nextPc := by
  -- Most effects store nothing.
  have hnothing : line.pieces = [] → ∀ {pc : Long}, a.nextPc.toNat ≤ pc.toNat →
      a.nextPc.toNat ≤ pc.toNat ∧
        ∀ p ∈ line.pieces, a.nextPc.toNat ≤ p.pc.toNat ∧ p.EndsBy pc := by
    intro hpieces pc hle
    rw [hpieces]
    exact ⟨hle, fun p hp => absurd hp List.not_mem_nil⟩
  unfold Line.size at hsize
  unfold Line.pieces at hnothing ⊢
  rw [houtcome, hpc] at hsize
  rw [houtcome, hpc] at hnothing ⊢
  cases effect with
  | nothing => exact hnothing rfl (Nat.le_refl _)
  | code mnemonic e =>
    rw [commit, storeLongs_nextPc]
    exact Piece.longs_forward hsize
  | data bytes =>
    have hends := @Piece.endsBy_step ⟨a.nextPc, bytes⟩ hsize
    refine ⟨hends.1, ?_⟩
    intro p hp
    simp only [Effect.outcome, List.mem_ite_nil_left, List.mem_singleton] at hp
    obtain ⟨-, rfl⟩ := hp
    exact ⟨Nat.le_refl _, hends.2⟩
  | reserve next => exact hnothing rfl heffect
  | origin org => exact heffect.elim
  | assign value =>
    rw [commit, rebind_nextPc]
    exact hnothing rfl (Nat.le_refl _)

/-- A later line leaves what an earlier one has stored, unless it stores through hub memory what
the earlier one has stored through register memory. -/
def KeptApart (line later : Line) : Prop :=
  ∀ hub hub' addr, line.StoresThrough hub addr → later.StoresThrough hub' addr →
    hub = false ∧ hub' = true ∧ Address.hubStart ≤ addr

/-- Everything stored so far ends by the next program counter, and is kept apart. -/
structure Laid (a : Assembly) : Prop where
  ends : ∀ line ∈ a.lines.toList, ∀ p ∈ line.pieces, p.EndsBy a.nextPc
  apart : a.lines.toList.Pairwise KeptApart

/-- One more line, from the next program counter to the one behind it. -/
theorem Laid.push {a b : Assembly} (h : Laid a) {line : Line}
    (hlines : b.lines.toList = a.lines.toList ++ [line])
    (hnext : a.nextPc.toNat ≤ b.nextPc.toNat)
    (hpieces : ∀ p ∈ line.pieces, a.nextPc.toNat ≤ p.pc.toNat ∧ p.EndsBy b.nextPc) : Laid b where
  ends := by
    intro earlier hearlier p hp
    rw [hlines] at hearlier
    rcases List.mem_append.mp hearlier with hold | hnew
    · exact (h.ends earlier hold p hp).mono hnext
    · obtain rfl := List.mem_singleton.mp hnew
      exact (hpieces p hp).2
  apart := by
    rw [hlines, List.pairwise_append]
    refine ⟨h.apart, List.pairwise_singleton _ _, ?_⟩
    intro earlier hearlier later hlater
    obtain rfl := List.mem_singleton.mp hlater
    rintro hub hub' addr ⟨p, hp, rfl, hfits, -, hstop⟩ ⟨p', hp', rfl, -, haddr, -⟩
    exact (h.ends earlier hearlier p hp).overlap hfits (hpieces p' hp').1 hstop haddr

/-- A line that stays in place keeps the lines apart. -/
theorem Laid.line {a : Assembly} (h : Laid a) {source : String}
    (hplace : ∀ line ∈ (a.line source).lines.toList, line.InPlace) : Laid (a.line source) := by
  obtain ⟨-, block, hline⟩ | ⟨block, text, label, effect, b, hread, hline⟩ |
    ⟨block, text, f, b, hread, hline⟩ := a.line_outcomes source
  · -- Without words no record is added.
    rw [hline]
    exact ⟨h.ends, h.apart⟩
  · -- A line that stays in place stores at its own program counter and leads forward.
    have hsame := (keeps_read _ _).of_ok hread
    have hnext : b.nextPc = a.nextPc := hsame.nextPc
    generalize hrecord : Line.mk (a.lineNumber + 1) (effect.linePc a.nextPc) source
      (a.nextWords source) effect.outcome = record at hline
    have hlines : (a.line source).lines.toList = a.lines.toList ++ [record] := by
      rw [hline, keep, lines_commit, hsame.lines, Array.toList_push]
      rfl
    obtain ⟨horigin, hsize⟩ := hplace record (by
      rw [hlines]
      exact List.mem_append_right _ List.mem_cons_self)
    have hwords : record.words = a.nextWords source := by rw [← hrecord]
    have heffect : effect.Forward a.nextPc := by
      rw [← hwords] at hread
      exact read_forward horigin hread
    have hpc : record.pc = a.nextPc := by
      rw [← hrecord]
      cases effect with
      | origin org => exact heffect.elim
      | _ => rfl
    rw [← hnext] at heffect hpc
    obtain ⟨hle, hpieces⟩ := commit_forward heffect hpc (by rw [← hrecord]) hsize label
    rw [hnext] at hle hpieces
    refine h.push hlines ?_ ?_
    · rw [hline]
      exact hle
    · rw [hline]
      exact hpieces
  · -- A fault stores nothing and leaves the program counter.
    have hsame := (keeps_read _ _).of_error hread
    have hnext : b.nextPc = a.nextPc := hsame.nextPc
    generalize hrecord : Line.mk (a.lineNumber + 1) a.nextPc source (a.nextWords source)
      (.fault f) = record at hline
    have hlines : (a.line source).lines.toList = a.lines.toList ++ [record] := by
      rw [hline, keep, note, hsame.lines, Array.toList_push]
      rfl
    refine h.push hlines ?_ ?_
    · rw [hline]
      exact Nat.le_of_eq (congrArg BitVec.toNat hnext.symm)
    · intro p hp
      rw [← hrecord] at hp
      cases hp

/-- Lines that all stay in place are kept apart. -/
theorem laid_foldl (sources : List String) {a : Assembly}
    (h : (∀ record ∈ a.lines.toList, record.InPlace) → Laid a)
    (hplace : ∀ record ∈ (sources.foldl line a).lines.toList, record.InPlace) :
    Laid (sources.foldl line a) := by
  induction sources generalizing a with
  | nil => exact h hplace
  | cons source sources ih =>
    refine ih ?_ hplace
    intro hline
    have hbefore : ∀ record ∈ a.lines.toList, record.InPlace := by
      intro record hmem
      apply hline
      obtain hlines | ⟨added, -, hlines⟩ := a.lines_line source
      · rw [hlines]
        exact hmem
      · rw [hlines, Array.toList_push]
        exact List.mem_append_left _ hmem
    exact (h hbefore).line hline

/-- Without origin directives, and short of the last program counter, no two lines store a byte
through the same memory; where two lines store the same byte at all, the earlier one has stored it
through register memory and the later one through hub memory, at `$400` or above. -/
theorem lines_kept_apart_by_memory (a : Assembly) (sources : List String)
    (hplace : ∀ record ∈ (sources.foldl line a.clear).lines.toList,
      record.setsOrigin = false ∧ record.pc.toNat + record.size < 2 ^ 32) :
    (sources.foldl line a.clear).lines.toList.Pairwise fun line later =>
      (∀ hub addr, ¬ (line.StoresThrough hub addr ∧ later.StoresThrough hub addr)) ∧
      ∀ addr, line.Stores addr → later.Stores addr →
        line.StoresThrough false addr ∧ later.StoresThrough true addr ∧
          Address.hubStart ≤ addr := by
  have hclear : Laid a.clear := by
    refine ⟨?_, List.Pairwise.nil⟩
    intro line h
    cases h
  have hlaid := laid_foldl sources (fun _ => hclear) hplace
  refine hlaid.apart.imp ?_
  intro line later hapart
  constructor
  · rintro hub addr ⟨hline, hlater⟩
    obtain ⟨rfl, htrue, -⟩ := hapart hub hub addr hline hlater
    cases htrue
  · intro addr hline hlater
    obtain ⟨hub, hline⟩ := (line.stores_iff addr).mp hline
    obtain ⟨hub', hlater⟩ := (later.stores_iff addr).mp hlater
    obtain ⟨rfl, rfl, haddr⟩ := hapart hub hub' addr hline hlater
    exact ⟨hline, hlater, haddr⟩

/-- Reserved registers, an instruction with its augmentation over the start of hub memory, and data
behind it. -/
theorem lines_kept_apart_over_hub_start :
    (∀ record ∈ ([" res $3ff", " mov 0,##1", " long 2"].foldl line
        (Assembly.clear {})).lines.toList,
      record.setsOrigin = false ∧ record.pc.toNat + record.size < 2 ^ 32) ∧
    ([" res $3ff", " mov 0,##1", " long 2"].foldl line (Assembly.clear {})).lines.toList.Pairwise
      fun line later =>
        ∀ hub addr, ¬ (line.StoresThrough hub addr ∧ later.StoresThrough hub addr) := by
  have hplace : ∀ record ∈ ([" res $3ff", " mov 0,##1", " long 2"].foldl line
        (Assembly.clear {})).lines.toList,
      record.setsOrigin = false ∧ record.pc.toNat + record.size < 2 ^ 32 := by decide +kernel
  exact ⟨hplace, (lines_kept_apart_by_memory {} _ hplace).imp And.left⟩

/-! ## Lines that overwrite others -/

/-- Some line stores a byte that an earlier one has stored. -/
def Overwritten (a : Assembly) : Prop :=
  ¬ a.lines.toList.Pairwise fun line later => ∀ addr, ¬ (line.Stores addr ∧ later.Stores addr)

/-- The writes of the records tell whether a byte is stored twice. -/
theorem overwritten_of_writes {a : Assembly} {writes : List (List Write)}
    (hwrites : a.lines.toList.map Line.writes = writes) (addr : Nat)
    (hoverlap : ¬ writes.Pairwise fun all later => ∀ w ∈ all, ∀ w' ∈ later,
      ¬ ((w.fits = true ∧ w.addr ≤ addr ∧ addr < w.stop) ∧
        w'.fits = true ∧ w'.addr ≤ addr ∧ addr < w'.stop)) : Overwritten a := by
  intro hapart
  apply hoverlap
  rw [← hwrites, List.pairwise_map]
  refine hapart.imp ?_
  rintro line later hdisjoint w hw w' hw' ⟨hinside, hinside'⟩
  exact hdisjoint addr ⟨⟨w, hw, hinside⟩, ⟨w', hw', hinside'⟩⟩

theorem ofText_nop : Word.ofText "nop" 0 false =
    ⟨"nop", .keyword (.instruction ⟨"0000000 000 000000000 000000000", .nop⟩), 0, false⟩ := by
  decide +kernel

/-- The record of an instruction that does nothing. -/
def nopRecord (number : Nat) (pc : Long) : Line :=
  { number, pc, source := "nop", words := [Word.ofText "nop" 0 false],
    outcome := .code ⟨none, none, 0⟩ }

theorem nopRecord_setsOrigin (number : Nat) (pc : Long) :
    (nopRecord number pc).setsOrigin = false := by
  unfold nopRecord
  rw [ofText_nop]
  rfl

/-- At the first register it stores the first byte. -/
theorem nopRecord_stores (number : Nat) : (nopRecord number 0).Stores 0 :=
  ⟨⟨0, [0, 0, 0, 0]⟩, List.mem_singleton_self _, by decide⟩

theorem line_nop {a : Assembly} (hblock : a.block = .closed) :
    (a.line "nop").block = .closed ∧ (a.line "nop").nextPc = Address.step a.nextPc 4 ∧
      (a.line "nop").lastPc = (if a.lastPc.toNat < (Address.step a.nextPc 4).toNat
        then Address.step a.nextPc 4 else a.lastPc) ∧
      (a.line "nop").lines = a.lines.push (nopRecord (a.lineNumber + 1) a.nextPc) := by
  have hsplit : Block.closed.split (Text.expandTabs "nop") =
      (some [Word.ofText "nop" 0 false], .closed) := by decide +kernel
  have hread : ∀ (pc : Long) (b : Assembly), read pc (Word.code [Word.ofText "nop" 0 false]) b =
      .ok (none, .code "nop" ⟨none, none, 0⟩) b := by
    intro pc b
    rw [ofText_nop]
    rfl
  unfold line
  rw [hblock]
  dsimp only
  rw [hsplit]
  dsimp only
  unfold assembleWords
  dsimp only
  rw [hread]
  refine ⟨?_, rfl, ?_, ?_⟩
  · show (Assembly.store _ _ _).block = .closed
    rw [(onlyStored_store _ _ _).block]
    rfl
  · show (if (Assembly.store _ _ _).lastPc.toNat < (Address.step a.nextPc 4).toNat
      then Address.step a.nextPc 4 else (Assembly.store _ _ _).lastPc) = _
    rw [(onlyStored_store _ _ _).lastPc]
    rfl
  · show (Assembly.commit _ _ _ _).lines.push _ = _
    rw [lines_commit]
    rfl

/-- What a pass has come to behind some instructions that do nothing. -/
structure BehindNops (n : Nat) (a : Assembly) : Prop where
  block : a.block = .closed
  lineNumber : a.lineNumber = n
  nextPc : a.nextPc = Address.advance 0 n
  lastPc_le : ∀ m, (∀ i ≤ n, (Address.advance 0 i).toNat ≤ m) → a.lastPc.toNat ≤ m
  lines : a.lines.toList = (List.range n).map fun i => nopRecord (i + 1) (Address.advance 0 i)

theorem BehindNops.line {n : Nat} {a : Assembly} (h : BehindNops n a) :
    BehindNops (n + 1) (a.line "nop") := by
  obtain ⟨hblock, hnext, hlast, hlines⟩ := line_nop h.block
  have hpc : Address.step a.nextPc 4 = Address.advance 0 (n + 1) := by
    rw [h.nextPc, Address.advance_add]
    rfl
  refine ⟨hblock, ?_, hnext.trans hpc, ?_, ?_⟩
  · rw [lineNumber_line, h.lineNumber]
  · intro m hm
    have hbefore := h.lastPc_le m fun i hi => hm i (Nat.le_succ_of_le hi)
    rw [hlast, hpc]
    split
    · exact hm (n + 1) (Nat.le_refl _)
    · exact hbefore
  · rw [hlines, Array.toList_push, h.lines, h.lineNumber, h.nextPc, List.range_succ, List.map_append]
    rfl

theorem behindNops (n : Nat) :
    BehindNops n ((List.replicate n "nop").foldl line (Assembly.clear {})) := by
  induction n with
  | zero => exact ⟨rfl, rfl, rfl, fun m hm => hm 0 (Nat.le_refl 0), rfl⟩
  | succ n ih =>
    rw [List.replicate_succ', List.foldl_append, List.foldl_cons, List.foldl_nil]
    exact ih.line

/-- Without origin directives a line in hub memory can still overwrite one that was stored through
register memory; and after a billion instructions the program counter comes around to the first
one. -/
theorem lines_overwritten_without_origin :
    ((∀ record ∈ ([" res $100", " long 1", " res $2ff", " long 2"].foldl line
        (Assembly.clear {})).lines.toList, record.setsOrigin = false) ∧
      Overwritten ([" res $100", " long 1", " res $2ff", " long 2"].foldl line
        (Assembly.clear {}))) ∧
    ((∀ record ∈ ((List.replicate (2 ^ 30 + 769) "nop").foldl line
        (Assembly.clear {})).lines.toList, record.setsOrigin = false) ∧
      Overwritten ((List.replicate (2 ^ 30 + 769) "nop").foldl line (Assembly.clear {}))) := by
  constructor
  · have hrecords : (∀ record ∈ ([" res $100", " long 1", " res $2ff", " long 2"].foldl line
          (Assembly.clear {})).lines.toList, record.setsOrigin = false) ∧
        ([" res $100", " long 1", " res $2ff", " long 2"].foldl line
          (Assembly.clear {})).lines.toList.map Line.writes =
            [[], [⟨0x400, [1, 0, 0, 0]⟩], [], [⟨0x400, [2, 0, 0, 0]⟩]] := by decide +kernel
    obtain ⟨horigin, hwrites⟩ := hrecords
    exact ⟨horigin, overwritten_of_writes hwrites 0x400 (by decide)⟩
  · rw [Overwritten, (behindNops _).lines]
    constructor
    · intro record hmem
      obtain ⟨i, -, rfl⟩ := List.mem_map.mp hmem
      exact nopRecord_setsOrigin _ _
    · intro hapart
      have hlength : ((List.range (2 ^ 30 + 769)).map fun i =>
          nopRecord (i + 1) (Address.advance 0 i)).length = 2 ^ 30 + 769 := by
        rw [List.length_map, List.length_range]
      have h :=
        List.pairwise_iff_getElem.mp hapart 0 (2 ^ 30 + 768) (by omega) (by omega) (by omega)
      rw [List.getElem_map, List.getElem_map, List.getElem_range, List.getElem_range,
        Address.advance_around] at h
      exact h 0 ⟨nopRecord_stores _, nopRecord_stores _⟩

end Assembly

end PropellerAsm
