import PropellerAsm.Proofs.Text.Ascii
import PropellerAsm.Text.Upper

/-!
# Small letters and capitals

Two texts are equal up to the case of their ASCII letters if their `capitals` are equal.  In UTF-8
the letters are single bytes, so the same can be said of the bytes: `upperByte` changes the bytes of
the small letters, and encoding and decoding commute with it.
-/
namespace PropellerAsm

/-! ## Characters -/

namespace Text

/-- A function that takes the small letters for capitals does so everywhere. -/
theorem of_toUpper {α : Type} {f : Char → α}
    (h : ∀ n < 26, f (Char.ofNat (0x41 + n)) = f (Char.ofNat (0x61 + n))) (c : Char) :
    f c.toUpper = f c := by
  by_cases hsmall : 'a'.val ≤ c.val ∧ c.val ≤ 'z'.val
  · have hletters : ∀ n < 26, (Char.ofNat (0x61 + n)).toUpper = Char.ofNat (0x41 + n) := by
      decide
    have hlow : 0x61 ≤ c.toNat := hsmall.1
    have hhigh : c.toNat ≤ 0x7a := hsmall.2
    have hc : Char.ofNat (0x61 + (c.toNat - 0x61)) = c := by
      rw [Nat.add_sub_cancel' hlow, Char.ofNat_toNat]
    have hupper := hletters (c.toNat - 0x61) (by omega)
    have hsame := h (c.toNat - 0x61) (by omega)
    rwa [← hupper, hc] at hsame
  · exact congrArg f (dif_neg hsmall)

/-- Only the ASCII letters have another capital. -/
theorem toUpper_of_not_ascii {c : Char} (h : 0x80 ≤ c.toNat) : c.toUpper = c := by
  have hsmall : ¬ ('a'.val ≤ c.val ∧ c.val ≤ 'z'.val) := by
    rintro ⟨-, hz⟩
    have hz : c.toNat ≤ 0x7a := hz
    omega
  exact dif_neg hsmall

theorem upperChar_toUpper (c : Char) : upperChar c.toUpper = upperChar c :=
  of_toUpper (f := upperChar) (by decide) c

theorem upperChar_of_ascii {c : Char} (h : c.toNat < 0x80) : upperChar c = [c.toUpper] :=
  if_pos h

/-! ## Texts -/

/-- The text in ASCII capitals; every other character stays. -/
def capitals (s : String) : String :=
  String.ofList (upperAscii s.toList)

theorem toList_capitals (s : String) : (capitals s).toList = s.toList.map Char.toUpper := by
  rw [capitals, String.toList_ofList, upperAscii]

theorem capitals_append (s t : String) : capitals (s ++ t) = capitals s ++ capitals t := by
  apply String.toList_inj.mp
  rw [String.toList_append, toList_capitals, toList_capitals, toList_capitals,
    String.toList_append, List.map_append]

/-- Keywords are looked up without regard to the case of ASCII letters. -/
theorem upper_capitals (s : String) : upper (capitals s) = upper s := by
  unfold upper
  rw [toList_capitals, List.flatMap_map]
  simp only [upperChar_toUpper]

theorem upper_eq_of_capitals {s t : String} (h : capitals s = capitals t) : upper s = upper t := by
  rw [← upper_capitals s, h, upper_capitals]

/-- What can be told of a character without its case can be told of the character that stands at a
place of the text, such as the first or the last. -/
theorem any_capitals {place : List Char → Option Char}
    (hplace : ∀ cs, place (cs.map Char.toUpper) = (place cs).map Char.toUpper) {p : Char → Bool}
    (hp : ∀ c, p c.toUpper = p c) {s t : String} (h : capitals s = capitals t) :
    (place s.toList).any p = (place t.toList).any p := by
  have hany : ∀ u : String, (place u.toList).any p = (place (capitals u).toList).any p := by
    intro u
    rw [toList_capitals, hplace, Option.any_map]
    exact congrArg ((place u.toList).any ·) (funext fun c => (hp c).symm)
  rw [hany, h, ← hany]

end Text

/-! ## Bytes -/

namespace Utf8

/-- The byte of the capital for the byte of a small letter. -/
def upperByte (b : UInt8) : UInt8 :=
  if 0x61 ≤ b.toNat ∧ b.toNat ≤ 0x7a then b - 0x20 else b

/-- What holds of the numbers of all bytes holds of all bytes. -/
theorem forall_byte {p : UInt8 → Prop} (h : ∀ n < 256, p (UInt8.ofNat n)) (b : UInt8) : p b := by
  have hb := h b.toNat b.toNat_lt
  rwa [UInt8.ofNat_toNat] at hb

theorem upperByte_of_not_ascii {b : UInt8} (h : 0x80 ≤ b.toNat) : upperByte b = b := by
  rw [upperByte, if_neg]
  omega

/-- A function that takes the bytes of small letters for those of capitals does so everywhere. -/
theorem of_upperByte {α : Type} {f : UInt8 → α}
    (h : ∀ n < 26, f (UInt8.ofNat (0x41 + n)) = f (UInt8.ofNat (0x61 + n))) (b : UInt8) :
    f (upperByte b) = f b := by
  by_cases hsmall : 0x61 ≤ b.toNat ∧ b.toNat ≤ 0x7a
  · have hletters : ∀ n < 26, upperByte (UInt8.ofNat (0x61 + n)) = UInt8.ofNat (0x41 + n) := by
      decide
    have hb : UInt8.ofNat (0x61 + (b.toNat - 0x61)) = b := by
      rw [Nat.add_sub_cancel' hsmall.1, UInt8.ofNat_toNat]
    have hupper := hletters (b.toNat - 0x61) (by omega)
    have hsame := h (b.toNat - 0x61) (by omega)
    rwa [← hupper, hb] at hsame
  · rw [upperByte, if_neg hsmall]

theorem upperByte_lt_iff (b : UInt8) : (upperByte b).toNat < 0x80 ↔ b.toNat < 0x80 :=
  decide_eq_decide.mp (of_upperByte (f := fun b => decide (b.toNat < 0x80)) (by decide) b)

/-- The capital of an ASCII character has the capital byte. -/
theorem toUpper_ofNat {b : UInt8} (h : b.toNat < 0x80) :
    (Char.ofNat b.toNat).toUpper = Char.ofNat (upperByte b).toNat :=
  forall_byte (p := fun b => b.toNat < 0x80 →
    (Char.ofNat b.toNat).toUpper = Char.ofNat (upperByte b).toNat) (by decide +kernel) b h

theorem encodeChar_toUpper (c : Char) :
    String.utf8EncodeChar c.toUpper = (String.utf8EncodeChar c).map upperByte := by
  by_cases hascii : c.toNat < 0x80
  · have hall : ∀ n < 0x80, String.utf8EncodeChar (Char.ofNat n).toUpper =
        (String.utf8EncodeChar (Char.ofNat n)).map upperByte := by decide +kernel
    have hc := hall c.toNat hascii
    rwa [Char.ofNat_toNat] at hc
  · have hlong : 0x80 ≤ c.toNat := by omega
    have hsame : ∀ b ∈ String.utf8EncodeChar c, upperByte b = id b :=
      fun b hb => upperByte_of_not_ascii (le_of_mem_encodeChar hlong hb)
    rw [Text.toUpper_of_not_ascii hlong, List.map_congr_left hsame, List.map_id]

theorem encode_capitals (s : String) :
    encode (Text.capitals s) = (encode s).map upperByte := by
  rw [encode, encode, Text.toList_capitals]
  induction s.toList with
  | nil => rfl
  | cons c cs ih =>
    rw [List.map_cons, encodeChars, encodeChars, List.flatMap_cons, List.flatMap_cons,
      List.map_append, encodeChar_toUpper]
    exact congrArg _ ih

/-! ## Decoding -/

/-- Bytes that are equal up to case are both ASCII, or the same byte. -/
theorem upperByte_cases {b b' : UInt8} (h : upperByte b = upperByte b') :
    (b.toNat < 0x80 ∧ b'.toNat < 0x80) ∨ b = b' := by
  by_cases hb : b.toNat < 0x80
  · exact .inl ⟨hb, (upperByte_lt_iff b').mp (h ▸ (upperByte_lt_iff b).mpr hb)⟩
  · have hb' : ¬ b'.toNat < 0x80 :=
      fun hlt => hb ((upperByte_lt_iff b).mp (h ▸ (upperByte_lt_iff b').mpr hlt))
    rw [upperByte_of_not_ascii (by omega), upperByte_of_not_ascii (by omega)] at h
    exact .inr h

/-- No ASCII byte goes on with a character that has been started. -/
def Waiting (p : Option Pending) : Prop :=
  ∀ q ∈ p, 0x80 ≤ q.low.toNat

theorem waiting_lead (b : UInt8) : Waiting (lead b).2 := by
  unfold lead
  dsimp only
  -- Either nothing is started, or the first bound is written out.
  repeat' split
  all_goals rintro q ⟨⟩ <;> exact Nat.le_of_ble_eq_true rfl

theorem waiting_step (p : Option Pending) (b : UInt8) : Waiting (step p b).2 := by
  cases p with
  | none => exact waiting_lead b
  | some q =>
    unfold step
    dsimp only
    split
    · split
      · rintro r ⟨⟩
      · rintro r ⟨⟩
        exact Nat.le_refl 0x80
    · exact waiting_lead b

/-- An ASCII byte is a character wherever it stands. -/
theorem step_of_ascii {p : Option Pending} (hp : Waiting p) {b : UInt8} (hb : b.toNat < 0x80) :
    step p b = ((p.toList.map fun _ => none) ++ [some (Char.ofNat b.toNat)], none) := by
  have hlead : lead b = ([some (Char.ofNat b.toNat)], none) := if_pos hb
  cases p with
  | none => exact hlead
  | some q =>
    have hlow := hp q rfl
    have hnot : ¬ (q.low ≤ b ∧ b ≤ q.high) := by
      rintro ⟨hle, -⟩
      have hle := UInt8.le_iff_toNat_le.mp hle
      omega
    unfold step
    dsimp only
    rw [if_neg hnot, hlead]
    rfl

theorem scan_cons (p : Option Pending) (b : UInt8) (bytes : List UInt8) :
    scan p (b :: bytes) = (step p b).1 ++ scan (step p b).2 bytes := by
  cases p with
  | none => rfl
  | some q => rfl

/-- Bytes that are equal up to case are decoded to characters that are so. -/
theorem scan_recased {bytes bytes' : List UInt8}
    (h : bytes.map upperByte = bytes'.map upperByte) {p : Option Pending} (hp : Waiting p) :
    (scan p bytes).map (·.map Char.toUpper) = (scan p bytes').map (·.map Char.toUpper) := by
  induction bytes generalizing bytes' p with
  | nil =>
    obtain rfl := List.map_eq_nil_iff.mp h.symm
    rfl
  | cons b bytes ih =>
    obtain ⟨b', rest, rfl, hb, hrest⟩ := List.map_eq_cons_iff.mp h.symm
    have hstep : (step p b).1.map (·.map Char.toUpper) = (step p b').1.map (·.map Char.toUpper) ∧
        (step p b).2 = (step p b').2 := by
      obtain ⟨hlt, hlt'⟩ | rfl := upperByte_cases hb.symm
      · rw [step_of_ascii hp hlt, step_of_ascii hp hlt', List.map_append, List.map_append,
          List.map_singleton, List.map_singleton, Option.map_some, Option.map_some,
          toUpper_ofNat hlt, toUpper_ofNat hlt', hb]
        exact ⟨rfl, rfl⟩
      · exact ⟨rfl, rfl⟩
    rw [scan_cons, scan_cons, List.map_append, List.map_append, hstep.1, hstep.2]
    exact congrArg _ (ih hrest.symm (waiting_step p b'))

theorem decodeLossy_recased {bytes bytes' : List UInt8}
    (h : bytes.map upperByte = bytes'.map upperByte) :
    Text.capitals (decodeLossy bytes) = Text.capitals (decodeLossy bytes') := by
  have hcapitals : ∀ bytes : List UInt8, (Text.capitals (decodeLossy bytes)).toList =
      ((scan none bytes).map (·.map Char.toUpper)).map (·.getD '\uFFFD') := by
    intro bytes
    rw [Text.toList_capitals, decodeLossy, String.toList_ofList, List.map_map, List.map_map]
    refine List.map_congr_left fun c _ => ?_
    cases c with
    | none => rfl
    | some c => rfl
  have hwaiting : Waiting none := by
    rintro q ⟨⟩
  apply String.toList_inj.mp
  rw [hcapitals, hcapitals, scan_recased h hwaiting]

theorem capitals_ofAscii {bytes : List UInt8} (h : ∀ b ∈ bytes, b.toNat < 0x80) :
    Text.capitals (ofAscii bytes) = ofAscii (bytes.map upperByte) := by
  apply String.toList_inj.mp
  rw [Text.toList_capitals, ofAscii, ofAscii, String.toList_ofList, String.toList_ofList,
    List.map_map, List.map_map]
  exact List.map_congr_left fun b hb => toUpper_ofNat (h b hb)

end Utf8

end PropellerAsm
