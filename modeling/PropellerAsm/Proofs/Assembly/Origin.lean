import PropellerAsm.Proofs.Assembly.Label
import PropellerAsm.Proofs.Assembly.Lockstep
import PropellerAsm.Proofs.Assembly.Placement
import PropellerAsm.Proofs.Encoding.Constant
import PropellerAsm.Proofs.Encoding.FixedBits

/-!
# Origins

An origin directive moves its own line, the label on it and what follows to an address.  A register
address counts longs, so what follows stands in the image at four times that number; a hub address
stands for itself.  The label is bound to the program counter before the address is evaluated, and
to the address afterwards.
-/
namespace PropellerAsm

open Address (hubStart memorySize toByte advance)

/-! ## Statements -/

namespace Directive

/-- An operand that takes up all words is the argument. -/
theorem argument?_eq_ok {ctx : Context} {words rest : List Word} {text : OperandText}
    {argument : Option Quad} {t t' : SymbolTable}
    (htake : OperandText.take? words = some (text, rest))
    (h : argument? ctx words t = .ok argument t') :
    ∃ operand, Operand.evaluate ctx text.text t = .ok operand t' ∧
      argument = some operand.value := by
  obtain ⟨⟨argument', c⟩, t₁, hrun, hpure⟩ := bind_eq_ok_iff.mp h
  obtain ⟨rfl, rfl⟩ := pure_eq_ok_iff.mp hpure
  obtain ⟨hsingle, rfl⟩ := Encoder.run_eq_ok_iff.mp hrun
  obtain ⟨found, c₁, hoperand, hsingle⟩ := bind_eq_ok_iff.mp hsingle
  obtain ⟨text', rest', htake', hsome⟩ | ⟨hnone, -⟩ := Encoder.operand?_cases
    { words, symbols := t }
  swap
  · rw [htake] at hnone
    cases hnone
  obtain ⟨rfl, rfl⟩ := Prod.mk.inj (Option.some.inj (htake.symm.trans htake'))
  obtain ⟨rfl, rfl⟩ := EStateM.Result.ok.inj (hsome.symm.trans hoperand)
  obtain ⟨operand, c₂, hevaluate, hsingle⟩ := bind_eq_ok_iff.mp hsingle
  obtain ⟨_, c₃, hfinish, hpure⟩ := bind_eq_ok_iff.mp hsingle
  obtain ⟨-, rfl⟩ := Encoder.finish_eq_ok hfinish
  obtain ⟨rfl, rfl⟩ := pure_eq_ok_iff.mp hpure
  exact ⟨operand, (Encoder.evaluate_eq_ok hevaluate).1, rfl⟩

/-- The addresses that an origin directive accepts lie below a limit. -/
def originLimit : Directive → Nat
  | .org => hubStart
  | _ => memorySize

end Directive

namespace Statement

/-- An origin directive with an operand moves to its value, which lies below the limit. -/
theorem effect_of_origin {ctx : Context} {labelled : Bool} {first : Word} {words rest : List Word}
    {d : Directive} {text : OperandText} {t t' : SymbolTable} {effect : Effect}
    (hfirst : first.token = .keyword (.directive d)) (horigin : first.token.isOrigin = true)
    (htake : OperandText.take? words = some (text, rest))
    (h : Statement.effect ctx labelled (first :: words) t = .ok effect t') :
    ∃ operand, Operand.evaluate ctx text.text t = .ok operand t' ∧
      operand.value.toNat < d.originLimit ∧ effect = .origin (operand.value.setWidth 32) := by
  have hcondition : takeCondition (first :: words) = .ok ({}, first :: words) := by
    rw [takeCondition, hfirst]
  have hdirective : directive ctx words d t = .ok effect t' := by
    unfold Statement.effect at h
    rw [hcondition] at h
    dsimp only at h
    rw [hfirst] at h
    exact h
  rw [hfirst] at horigin
  cases d with
  | org =>
    obtain ⟨argument, hargument, hlimit, rfl⟩ := origin_eq_ok .originExceeded hdirective
    obtain ⟨operand, hevaluate, rfl⟩ := Directive.argument?_eq_ok htake hargument
    exact ⟨operand, hevaluate, hlimit, rfl⟩
  | orgh =>
    obtain ⟨argument, hargument, hlimit, rfl⟩ := origin_eq_ok (fun _ => .hubExceeded _) hdirective
    obtain ⟨operand, hevaluate, rfl⟩ := Directive.argument?_eq_ok htake hargument
    exact ⟨operand, hevaluate, hlimit, rfl⟩
  | _ => cases horigin

end Statement

/-! ## What a line commits -/

namespace Line

/-- The bytes that a line commits: the longs of its instruction, or its data. -/
def bytes (line : Line) : List UInt8 :=
  match line.outcome with
  | .code e => e.longs.flatMap fun long => Bytes.littleEndian 4 long.toNat
  | .data bytes => bytes
  | _ => []

/-- The line is an instruction whose longs pass from register memory to hub memory. -/
def Crosses (line : Line) : Prop :=
  ∃ e, line.outcome = .code e ∧ line.pc.toNat < hubStart ∧
    hubStart < line.pc.toNat + e.longs.length

/-- What a line commits stands in an image from a byte on, if it fits there.  An instruction that
passes from register memory to hub memory does not stand in one piece, but each of its longs stands
at the place of its own program counter. -/
structure StandsAt (line : Line) (image : Image) (byte : Nat) : Prop where
  place : toByte line.pc = byte
  whole : ¬ line.Crosses → byte + line.bytes.length ≤ memorySize →
    image.slice byte line.bytes.length = line.bytes
  each : ∀ e, line.outcome = .code e → ∀ i long, e.longs[i]? = some long →
    toByte (advance line.pc i) + 4 ≤ memorySize →
    image.slice (toByte (advance line.pc i)) 4 = Bytes.littleEndian 4 long.toNat

end Line

theorem Encoded.length_bytes (e : Encoded) :
    (e.longs.flatMap fun long => Bytes.littleEndian 4 long.toNat).length = 4 * e.longs.length := by
  induction e.longs with
  | nil => rfl
  | cons long longs ih =>
    rw [List.flatMap_cons, List.length_append, ih, Bytes.length_littleEndian, List.length_cons]
    omega

namespace Line

variable {line : Line} {image : Image} {memory : Memory}

/-- Each long of an instruction stands at the place of its own program counter, and unless the
instruction passes to hub memory these places are in a row. -/
theorem standsAt_of_code {e : Encoded} (hcode : line.outcome = .code e)
    (hread : image.read = Write.replay memory line.writes) :
    line.StandsAt image (toByte line.pc) := by
  rw [Assembly.writes_of_code hcode] at hread
  have hbytes : line.bytes = e.longs.flatMap fun long => Bytes.littleEndian 4 long.toNat := by
    rw [Line.bytes, hcode]
  refine ⟨rfl, ?_, ?_⟩
  · intro hcrosses hfits
    rw [hbytes, e.length_bytes] at hfits ⊢
    have hrow : ¬ Address.Straddles line.pc e.longs.length := by
      have hregister : ¬ (line.pc.toNat < hubStart ∧ hubStart < line.pc.toNat + e.longs.length) :=
        fun h => hcrosses ⟨e, hcode, h⟩
      have hlength := e.length_longs_le
      have hpc := Address.toByte_cases line.pc
      have hstart : hubStart = 0x400 := rfl
      have hsize : memorySize = 0x100000 := rfl
      simp only [Address.Straddles, not_or]
      omega
    exact Encoded.slice_longs hread hrow hfits
  · intro e' he' i long hlong hfits
    obtain rfl := Outcome.code.inj (hcode.symm.trans he')
    exact Encoded.slice_long hread hlong hfits

theorem standsAt_of_data {bytes : List UInt8} (hdata : line.outcome = .data bytes)
    (hbytes : line.bytes ≠ []) (hread : image.read = Write.replay memory line.writes) :
    line.StandsAt image (toByte line.pc) := by
  have hline : line.bytes = bytes := by rw [Line.bytes, hdata]
  have hwrites : line.writes = [⟨toByte line.pc, bytes⟩] := by
    rw [hline] at hbytes
    unfold Line.writes Line.opcode? Line.data
    rw [hdata]
    exact if_neg hbytes
  rw [hwrites] at hread
  refine ⟨rfl, ?_, ?_⟩
  · intro _ hfits
    rw [hline] at hfits ⊢
    exact Image.slice_of_replay hread (List.pairwise_singleton _ _) (List.mem_singleton_self _)
      hfits
  · intro e he
    rw [hdata] at he
    cases he

end Line

namespace Assembly

/-! ## The next line -/

/-- A line that leaves a record has words. -/
theorem nextWords_ne_nil {a : Assembly} {source : String} {record : Line}
    (h : (a.line source).lines = a.lines.push record) : a.nextWords source ≠ [] := by
  intro hnil
  rw [line_of_nextWords hnil] at h
  have hsize := congrArg Array.size h
  rw [Array.size_push] at hsize
  exact absurd hsize (Nat.ne_of_lt (Nat.lt_succ_self _))

/-- A line commits what it does at the program counter that it was taken up at. -/
theorem pc_of_bytes {effect : Effect} {record : Line} {pc : Long}
    (houtcome : record.outcome = effect.outcome) (hpc : record.pc = effect.linePc pc)
    (hbytes : record.bytes ≠ []) : record.pc = pc := by
  rw [hpc]
  cases effect with
  | origin org =>
    rw [Line.bytes, houtcome] at hbytes
    exact absurd rfl hbytes
  | _ => rfl

/-- What the next line commits stands at the place of the program counter. -/
theorem standsAt_of_record {a : Assembly} {source : String} {record : Line}
    (hlines : (a.line source).lines = a.lines.push record) (hbytes : record.bytes ≠ []) :
    record.StandsAt (a.line source).image (toByte a.nextPc) := by
  obtain ⟨record', hlines', -, ⟨f, hfault, -⟩ | ⟨label, effect, block, text, b, -, houtcome, hpc,
    hread⟩⟩ := record_of_words (nextWords_ne_nil hlines)
  all_goals obtain ⟨rfl, -⟩ := Array.push_eq_push.mp (hlines.symm.trans hlines')
  · rw [Line.bytes, hfault] at hbytes
    exact absurd rfl hbytes
  rw [← pc_of_bytes houtcome hpc hbytes]
  cases hcase : record.outcome with
  | code e => exact Line.standsAt_of_code hcase hread
  | data bytes => exact Line.standsAt_of_data hcase hbytes hread
  | nothing =>
    rw [Line.bytes, hcase] at hbytes
    exact absurd rfl hbytes
  | fault f =>
    rw [Line.bytes, hcase] at hbytes
    exact absurd rfl hbytes

/-! ## The line of an origin -/

/-- The symbols with which the operands of the next line are evaluated: its label, if it has one,
stands for the program counter. -/
def labelled (a : Assembly) (source : String) : SymbolTable :=
  match Word.code (a.nextWords source) with
  | [] => a.symbols
  | word :: _ =>
    if word.token = .plain then
      (a.symbols.define? (Symbol.qualify a.scope word.text) (.addr a.nextPc)
        (a.lineNumber + 1)).getD a.symbols
    else a.symbols

theorem takeLabel_symbols {a b : Assembly} {source : String} {block : Block} {text : String}
    {label : Option String} {rest : List Word}
    (h : takeLabel a.nextPc (Word.code (a.nextWords source)) (a.begun block text) =
      .ok (label, rest) b) : b.symbols = a.labelled source := by
  unfold labelled
  obtain ⟨word, more, hwords, hplain, ⟨name, b', hbind, htake⟩ | ⟨f, b', -, htake⟩⟩ |
    ⟨hplain, htake⟩ := takeLabel_cases a.nextPc (Word.code (a.nextWords source))
      (a.begun block text)
  · rw [htake] at h
    obtain ⟨-, rfl⟩ := EStateM.Result.ok.inj h
    rw [hwords]
    dsimp only
    rw [if_pos hplain]
    obtain ⟨f, b, herror, -⟩ | ⟨b, hok, -, hdefine⟩ :=
      bindLabel_cases a.nextPc word.text (a.begun block text)
    · rw [hbind] at herror
      cases herror
    · rw [hbind] at hok
      obtain ⟨-, rfl⟩ := EStateM.Result.ok.inj hok
      have hdefined : a.symbols.define? (Symbol.qualify a.scope word.text) (.addr a.nextPc)
          (a.lineNumber + 1) = some b'.symbols := hdefine
      rw [hdefined, Option.getD_some]
  · rw [htake] at h
    cases h
  · rw [htake] at h
    obtain ⟨-, rfl⟩ := EStateM.Result.ok.inj h
    split
    · rfl
    · rename_i word more hwords
      rw [hwords] at hplain
      rw [if_neg (hplain word rfl)]
      rfl

/-- An origin moves its line and the label on it. -/
theorem origin_eq_ok {a b : Assembly} {source : String} {block : Block} {text : String}
    {label : Option String} {org : Long}
    (hread : read a.nextPc (Word.code (a.nextWords source)) (a.begun block text) =
      .ok (label, .origin org) b) :
    (b.commit a.nextPc label (.origin org)).nextPc = org ∧
      ∀ name, OwnLabel a.scope (Word.code (a.nextWords source)) name →
        ∃ s, (b.commit a.nextPc label (.origin org)).symbols.get? name = some s ∧
          s.value = .addr org := by
  obtain ⟨hown, hextended, -⟩ := read_eq_ok hread
  constructor
  · cases label with
    | none => rfl
    | some name => rfl
  · intro name hname
    obtain rfl := (hown name).mpr hname
    have hbound := (hextended.symbols name).trans (if_pos rfl)
    exact ⟨_, get?_commit_label hbound rfl (.origin org), rfl⟩

end Assembly

/-! ## Places -/

/-- The bytes of the image that origins stand for: a register address stands for a long, a hub
address for itself. -/
inductive Directive.Places : Directive → Nat → Nat → Prop where
  | register {n} (below : n < hubStart) : Places .org n (4 * n)
  | hub {n} (above : hubStart ≤ n) (below : n < memorySize) : Places .orgh n n

theorem Directive.Places.toByte_eq {d : Directive} {value : Quad} {byte : Nat}
    (h : d.Places value.toNat byte) : toByte (value.setWidth 32) = byte := by
  have hstart : hubStart = 0x400 := rfl
  have hsize : memorySize = 0x100000 := rfl
  have hvalue : (value.setWidth 32).toNat = value.toNat % 2 ^ 32 := BitVec.toNat_setWidth _ _
  generalize hn : value.toNat = n at h hvalue
  cases h with
  | register below => rw [Address.toByte_register (by omega)]; omega
  | hub above below => rw [Address.toByte_hub (by omega)]; omega

namespace Assembly

/-- An origin puts code where it says.  If a line with an origin directive has no fault, its operand
has a value below the limit, the label on the line is bound to that value, and what the next line
commits stands at the place of that value in the image. -/
theorem origin_places_next_line {a : Assembly} {source : String} {first : Word}
    {words rest : List Word} {d : Directive} {text : OperandText}
    (hfaultless : (a.line source).diagnostics = a.diagnostics)
    (hwords : unlabelled (Word.code (a.nextWords source)) = first :: words)
    (hfirst : first.token = .keyword (.directive d)) (horigin : first.token.isOrigin = true)
    (htake : OperandText.take? words = some (text, rest)) :
    ∃ operand t,
      Operand.evaluate { scope := (a.line source).scope, line := a.lineNumber + 1, pc := a.nextPc }
        text.text (a.labelled source) = .ok operand t ∧
      operand.value.toNat < d.originLimit ∧
      (∀ name, OwnLabel a.scope (Word.code (a.nextWords source)) name →
        ∃ s, (a.line source).symbols.get? name = some s ∧ s.value.toQuad = operand.value) ∧
      ∀ byte, d.Places operand.value.toNat byte → ∀ next record,
        ((a.line source).line next).lines = (a.line source).lines.push record →
        record.bytes ≠ [] → record.StandsAt ((a.line source).line next).image byte := by
  have hne : a.nextWords source ≠ [] := by
    intro hnil
    rw [hnil] at hwords
    cases hwords
  obtain ⟨block, comment, label, effect, b, hread, hline⟩ := carried_of_faultless hfaultless hne
  obtain ⟨a₁, hlabel, heffect, hscope⟩ := effect_of_read hread
  have hnumber : a₁.lineNumber = a.lineNumber + 1 := (takeLabel_eq_ok hlabel).1
  have hlineScope : (a.line source).scope = a₁.scope := by
    rw [hline, ← hscope]
    exact commit_scope b a.nextPc label effect
  rw [hwords, hnumber, ← hlineScope, takeLabel_symbols hlabel] at heffect
  obtain ⟨operand, hevaluate, hlimit, rfl⟩ :=
    Statement.effect_of_origin hfirst horigin htake heffect
  obtain ⟨hnext, hbound⟩ := origin_eq_ok hread
  refine ⟨operand, b.symbols, hevaluate, hlimit, ?_, ?_⟩
  · intro name hname
    obtain ⟨s, hget, hvalue⟩ := hbound name hname
    refine ⟨s, by rw [hline]; exact hget, ?_⟩
    -- The value has no bits above those of a program counter.
    have hle : d.originLimit ≤ memorySize := by
      cases d with
      | org => decide
      | _ => exact Nat.le_refl _
    have hsize : memorySize = 0x100000 := rfl
    rw [hvalue]
    apply BitVec.eq_of_toNat_eq
    show ((operand.value.setWidth 32).setWidth 64).toNat = operand.value.toNat
    rw [BitVec.toNat_setWidth, BitVec.toNat_setWidth]
    omega
  · intro byte hplaces next record hlines hbytes
    have hstands := standsAt_of_record hlines hbytes
    have hpc : (a.line source).nextPc = operand.value.setWidth 32 := by
      rw [hline]
      exact hnext
    rwa [hpc, hplaces.toByte_eq] at hstands

/-- A labelled origin in hub memory, and an instruction with two augmentations behind it. -/
theorem origin_places_wrpin :
    (({} : Assembly).line "x orgh $500").diagnostics = [] ∧
    (∃ s, (({} : Assembly).line "x orgh $500").symbols.get? "x" = some s ∧
      s.value.toQuad = 0x500) ∧
    ((({} : Assembly).line "x orgh $500").line "if_nc wrpin ##1,##2").image.slice 0x500 12 =
      [0, 0, 0x80, 0x3f, 0, 0, 0, 0x3f, 0x02, 0x02, 0x0c, 0x3c] := by
  have hdiagnostics : (({} : Assembly).line "x orgh $500").diagnostics = [] := by decide +kernel
  have hword : Word.code (({} : Assembly).nextWords "x orgh $500") =
      [⟨"x", .plain, 0, false⟩, ⟨"orgh", .keyword (.directive .orgh), 2, false⟩,
        ⟨"$500", .plain, 7, false⟩] := by decide +kernel
  have hwords : unlabelled (Word.code (({} : Assembly).nextWords "x orgh $500")) =
      [⟨"orgh", .keyword (.directive .orgh), 2, false⟩, ⟨"$500", .plain, 7, false⟩] := by
    rw [hword]
    decide +kernel
  have htake : OperandText.take? [⟨"$500", .plain, 7, false⟩] =
      some (⟨"$500", false⟩, []) := by decide +kernel
  obtain ⟨operand, t, hevaluate, -, hlabel, hplaces⟩ :=
    origin_places_next_line (hdiagnostics.trans rfl) hwords rfl rfl htake
  have hconstant : Operand.Constant "$500" { value := 0x500 } :=
    Operand.constant_of_parse (by decide +kernel)
  have hvalue : operand.value = 0x500 := by
    obtain ⟨rfl, -⟩ := EStateM.Result.ok.inj (hevaluate.symm.trans (hconstant _ _))
    rfl
  refine ⟨hdiagnostics, ?_, ?_⟩
  · obtain ⟨s, hget, hs⟩ := hlabel "x" (by
      rw [hword]
      exact ⟨_, rfl, rfl, by decide +kernel⟩)
    exact ⟨s, hget, hs.trans hvalue⟩
  · have hnext : (({} : Assembly).line "x orgh $500").nextWords "if_nc wrpin ##1,##2" ≠ [] := by
      decide +kernel
    have hlast : (((({} : Assembly).line "x orgh $500").line "if_nc wrpin ##1,##2").lines.back?).map
        (fun record => (record.pc, record.bytes)) =
          some (0x500, [0, 0, 0x80, 0x3f, 0, 0, 0, 0x3f, 0x02, 0x02, 0x0c, 0x3c]) := by
      decide +kernel
    obtain ⟨record, hlines, -⟩ := record_of_words hnext
    rw [hlines, Array.back?_push] at hlast
    obtain ⟨hpc, hbytes⟩ := Prod.mk.inj (Option.some.inj hlast)
    have hstands := hplaces 0x500 (by rw [hvalue]; exact .hub (by decide) (by decide)) _ _ hlines
      (by rw [hbytes]; exact List.cons_ne_nil _ _)
    have hwhole := hstands.whole (by
      rintro ⟨e, -, hbelow, -⟩
      rw [hpc] at hbelow
      exact absurd hbelow (by decide))
    rw [hbytes] at hwhole
    exact hwhole (by decide)

/-- An origin in hub memory accepts a register address, and what follows it stands at the place of
the register.  An instruction at the last register does not stand in one piece. -/
theorem origin_misses_next_line :
    ((({} : Assembly).line "orgh $100").diagnostics = [] ∧
      ((({} : Assembly).line "orgh $100").line "long 1").lines.back?.map Line.bytes =
        some [1, 0, 0, 0] ∧
      ((({} : Assembly).line "orgh $100").line "long 1").image.slice 0x100 4 = [0, 0, 0, 0] ∧
      ((({} : Assembly).line "orgh $100").line "long 1").image.slice 0x400 4 = [1, 0, 0, 0]) ∧
    ((({} : Assembly).line "org $3ff").diagnostics = [] ∧
      ((({} : Assembly).line "org $3ff").line "mov 0,##1").lines.back?.map Line.bytes =
        some [0, 0, 0, 0xff, 1, 0, 4, 0xf6] ∧
      ((({} : Assembly).line "org $3ff").line "mov 0,##1").image.slice 0xffc 8 =
        [0, 0, 0, 0xff, 0, 0, 0, 0] ∧
      ((({} : Assembly).line "org $3ff").line "mov 0,##1").image.slice 0x400 4 =
        [1, 0, 4, 0xf6]) := by
  decide +kernel

end Assembly

end PropellerAsm
