import CodeEditing.Json.Printer
import CodeEditing.Json.Reader

/-! Strings and numbers are read back as they were written.

What is written is characters and what is read is bytes, so everything is said of the bytes of
characters (`encode`). A string is read back whatever it holds (`readString_printed`): each
character is passed over and taken back by itself. The digits of a number are followed to their end
where no other part of a number comes next (`readNumber_digitsOf`), and stand for the number if it
is whole and fits 64 bits (`number_digitsOf`, `number_negative`). -/
namespace CodeEditing.Json

/-! ### Bytes -/

/-- The bytes of characters. -/
def encode (cs : List Char) : List UInt8 := cs.flatMap String.utf8EncodeChar

@[simp] theorem encode_nil : encode [] = [] := rfl

@[simp] theorem encode_append (cs ds : List Char) : encode (cs ++ ds) = encode cs ++ encode ds :=
  List.flatMap_append

theorem encode_cons (c : Char) (cs : List Char) :
    encode (c :: cs) = String.utf8EncodeChar c ++ encode cs := rfl

theorem toList_loop (bytes : ByteArray) (i : Nat) (read : List UInt8) :
    ByteArray.toList.loop bytes i read = read.reverse ++ bytes.data.toList.drop i := by
  induction i, read using ByteArray.toList.loop.induct bytes with
  | case1 i read h ih =>
    have hi : i < bytes.data.toList.length := h
    have hget : bytes.get! i = bytes.data.toList[i] := by
      show bytes.data[i]! = _
      rw [getElem!_pos bytes.data i h]
      rfl
    rw [ByteArray.toList.loop, if_pos h, ih, List.reverse_cons, List.append_assoc, hget,
      List.drop_eq_getElem_cons hi]
    rfl
  | case2 i read h =>
    have hi : bytes.data.toList.length ≤ i := Nat.le_of_not_lt h
    rw [ByteArray.toList.loop, if_neg h, List.drop_of_length_le hi, List.append_nil]

theorem toList_toUTF8 (cs : List Char) : (String.ofList cs).toUTF8.toList = encode cs := by
  rw [ByteArray.toList, toList_loop]
  exact List.toList_data_toByteArray

theorem fromUTF8?_encode (cs : List Char) :
    String.fromUTF8? ⟨(encode cs).toArray⟩ = some (String.ofList cs) := by
  have hbytes : (⟨(encode cs).toArray⟩ : ByteArray) = cs.utf8Encode := by
    rw [← List.data_toByteArray]
    rfl
  rw [hbytes, String.fromUTF8?, dif_pos ByteArray.isValidUTF8_utf8Encode]
  rfl

theorem utf8EncodeChar_ascii {c : Char} (h : c.toNat < 128) :
    String.utf8EncodeChar c = [byte c] := by
  refine String.utf8EncodeChar_eq_singleton (Char.utf8Size_eq_one_iff.2 ?_)
  exact UInt32.le_iff_toNat_le.2 (Nat.le_of_lt_succ h)

theorem encode_ascii {cs : List Char} (h : ∀ c ∈ cs, c.toNat < 128) : encode cs = cs.map byte := by
  induction cs with
  | nil => rfl
  | cons c cs ih =>
    obtain ⟨hc, hcs⟩ := List.forall_mem_cons.1 h
    rw [encode_cons, utf8EncodeChar_ascii hc, ih hcs]
    rfl

theorem toNat_byte {c : Char} (h : c.toNat < 128) : (byte c).toNat = c.toNat :=
  UInt8.toNat_ofNat_of_lt' (Nat.lt_trans h (by decide))

theorem byte_inj {c d : Char} (hc : c.toNat < 128) (hd : d.toNat < 128) (h : byte c = byte d) :
    c = d := by
  have hn := congrArg UInt8.toNat h
  rw [toNat_byte hc, toNat_byte hd] at hn
  exact Char.toNat_inj.1 hn

/-- Beyond ASCII no byte of a character stands for a character by itself. -/
theorem le_of_mem_utf8EncodeChar {c : Char} (h : 128 ≤ c.toNat) {b : UInt8}
    (hb : b ∈ String.utf8EncodeChar c) : 128 ≤ b.toNat := by
  have hc : ¬ c.val.toNat ≤ 127 := Nat.not_le.2 h
  unfold String.utf8EncodeChar at hb
  simp only [hc, if_false] at hb
  split at hb
  · simp only [List.mem_cons, List.not_mem_nil, or_false] at hb
    rcases hb with rfl | rfl <;> rw [UInt8.toNat_ofNat'] <;> omega
  · split at hb
    · simp only [List.mem_cons, List.not_mem_nil, or_false] at hb
      rcases hb with rfl | rfl | rfl <;> rw [UInt8.toNat_ofNat'] <;> omega
    · simp only [List.mem_cons, List.not_mem_nil, or_false] at hb
      rcases hb with rfl | rfl | rfl | rfl <;> rw [UInt8.toNat_ofNat'] <;> omega

theorem length_le_encode (cs : List Char) : cs.length ≤ (encode cs).length := by
  induction cs with
  | nil => exact Nat.le_refl 0
  | cons c cs ih =>
    have hpos : 0 < (String.utf8EncodeChar c).length :=
      List.length_pos_iff.2 String.utf8EncodeChar_ne_nil
    rw [encode_cons, List.length_append, List.length_cons]
    omega

theorem encode_ne_nil {cs : List Char} (h : cs ≠ []) : encode cs ≠ [] := by
  have hlength := length_le_encode cs
  have hpos := List.length_pos_iff.2 h
  exact List.ne_nil_of_length_pos (by omega)

/-! ### Strings -/

/-- A byte that stands for itself inside a string. -/
def StandsForItself (b : UInt8) : Prop := b ≠ byte '"' ∧ b ≠ byte '\\' ∧ isControl b = false

theorem passString_cons {b : UInt8} (h : StandsForItself b) (offset : Nat) (rest : List UInt8) :
    passString offset (b :: rest) = passString (offset + 1) rest := by
  obtain ⟨hquote, hslash, hcontrol⟩ := h
  rw [passString.eq_def]
  dsimp only
  rw [if_neg hquote, if_neg hslash, hcontrol, if_neg Bool.false_ne_true]

theorem takeString_cons {b : UInt8} (h : StandsForItself b) (offset : Nat) (rest : List UInt8) :
    takeString offset (b :: rest) =
      (takeString (offset + 1) rest).map fun (out, stop) => (b :: out, stop) := by
  obtain ⟨hquote, hslash, hcontrol⟩ := h
  rw [takeString.eq_def]
  dsimp only
  rw [if_neg hquote, if_neg hslash, hcontrol, if_neg Bool.false_ne_true]

/-- Some bytes of a string in writing are passed over, and stand for the given bytes. -/
def Writes (written bytes : List UInt8) : Prop :=
  ∀ offset rest, passString offset (written ++ rest) = passString (offset + written.length) rest ∧
    takeString offset (written ++ rest) =
      (takeString (offset + written.length) rest).map fun (out, stop) => (bytes ++ out, stop)

namespace Writes

theorem nil : Writes [] [] := by
  intro offset rest
  refine ⟨rfl, ?_⟩
  show takeString offset rest = _
  cases takeString (offset + 0) rest <;> rfl

theorem append {v w bs cs : List UInt8} (hv : Writes v bs) (hw : Writes w cs) :
    Writes (v ++ w) (bs ++ cs) := by
  intro offset rest
  rw [List.append_assoc, (hv _ _).1, (hw _ _).1, (hv _ _).2, (hw _ _).2, List.length_append,
    Nat.add_assoc]
  refine ⟨rfl, ?_⟩
  cases takeString (offset + (v.length + w.length)) rest with
  | error f => rfl
  | ok p => simp only [Except.map, List.append_assoc]

theorem ofPlain {bs : List UInt8} (h : ∀ b ∈ bs, StandsForItself b) : Writes bs bs := by
  induction bs with
  | nil => exact nil
  | cons b bs ih =>
    have hb := h b List.mem_cons_self
    have hone : Writes [b] [b] := fun offset rest =>
      ⟨passString_cons hb offset rest, takeString_cons hb offset rest⟩
    exact hone.append (ih fun b hb => h b (List.mem_cons_of_mem _ hb))

end Writes

/-- The characters that have an escape of one letter, with the letter. -/
def shortEscapes : List (Char × Char) :=
  [('"', '"'), ('\\', '\\'), ('\x08', 'b'), ('\x0c', 'f'), ('\n', 'n'), ('\r', 'r'), ('\t', 't')]

/-- A character is escaped by one letter, or by its number if it is another control, or not at
all. -/
theorem escapeChar_cases (c : Char) :
    (∃ e, (c, e) ∈ shortEscapes ∧ escapeChar c = ['\\', e]) ∨
      c.toNat < 32 ∧ escapeChar c =
        ['\\', 'u', '0', '0', hexDigit (c.toNat / 16), hexDigit (c.toNat % 16)] ∨
      32 ≤ c.toNat ∧ c ≠ '"' ∧ c ≠ '\\' ∧ escapeChar c = [c] := by
  by_cases hshort : ∃ e, (c, e) ∈ shortEscapes
  · left
    obtain ⟨e, he⟩ := hshort
    refine ⟨e, he, ?_⟩
    simp only [shortEscapes, List.mem_cons, Prod.mk.injEq, List.not_mem_nil, or_false] at he
    rcases he with ⟨rfl, rfl⟩ | ⟨rfl, rfl⟩ | ⟨rfl, rfl⟩ | ⟨rfl, rfl⟩ | ⟨rfl, rfl⟩ | ⟨rfl, rfl⟩ |
      ⟨rfl, rfl⟩ <;> rfl
  · have hne : ∀ d ∈ shortEscapes.map Prod.fst, c ≠ d := by
      intro d hd hcd
      obtain ⟨p, hp, rfl⟩ := List.mem_map.1 hd
      exact hshort ⟨p.2, hcd ▸ hp⟩
    simp only [shortEscapes, List.map_cons, List.map_nil, List.forall_mem_cons] at hne
    obtain ⟨h₁, h₂, h₃, h₄, h₅, h₆, h₇, -⟩ := hne
    rw [escapeChar, if_neg h₁, if_neg h₂, if_neg h₃, if_neg h₄, if_neg h₅, if_neg h₆, if_neg h₇]
    by_cases hc : c.toNat < 32
    · exact .inr (.inl ⟨hc, if_pos hc⟩)
    · exact .inr (.inr ⟨Nat.le_of_not_lt hc, h₁, h₂, if_neg hc⟩)

theorem writes_letter {e v : UInt8} (he : e ≠ byte 'u') (hv : escaped? e = some v) :
    Writes [byte '\\', e] [v] := by
  intro offset rest
  constructor
  · rw [List.cons_append, List.cons_append, passString.eq_def]
    simp only [show byte '\\' ≠ byte '"' by decide, if_false, if_true, if_neg he, hv]
    rfl
  · rw [List.cons_append, List.cons_append, takeString.eq_def]
    simp only [show byte '\\' ≠ byte '"' by decide, if_false, if_true, if_neg he, hv]
    rfl

theorem writes_short {c e : Char} (h : (c, e) ∈ shortEscapes) :
    Writes (encode ['\\', e]) (String.utf8EncodeChar c) := by
  simp only [shortEscapes, List.mem_cons, Prod.mk.injEq, List.not_mem_nil, or_false] at h
  rcases h with ⟨rfl, rfl⟩ | ⟨rfl, rfl⟩ | ⟨rfl, rfl⟩ | ⟨rfl, rfl⟩ | ⟨rfl, rfl⟩ | ⟨rfl, rfl⟩ |
    ⟨rfl, rfl⟩ <;> exact writes_letter (by decide) rfl

/-- The digits of a number below 32. -/
theorem hexUnit?_control : ∀ n < 32, hexUnit? (byte '0') (byte '0') (byte (hexDigit (n / 16)))
    (byte (hexDigit (n % 16))) = some n := by
  decide

theorem hexDigit_ascii : ∀ n < 16, (hexDigit n).toNat < 128 := by
  decide

theorem writes_control {c : Char} (h : c.toNat < 32) :
    Writes (encode ['\\', 'u', '0', '0', hexDigit (c.toNat / 16), hexDigit (c.toNat % 16)])
      (String.utf8EncodeChar c) := by
  have hbytes : encode ['\\', 'u', '0', '0', hexDigit (c.toNat / 16), hexDigit (c.toNat % 16)] =
      [byte '\\', byte 'u', byte '0', byte '0', byte (hexDigit (c.toNat / 16)),
        byte (hexDigit (c.toNat % 16))] := by
    simp only [encode_cons, encode_nil,
      utf8EncodeChar_ascii (hexDigit_ascii (c.toNat / 16) (by omega)),
      utf8EncodeChar_ascii (hexDigit_ascii (c.toNat % 16) (by omega))]
    rfl
  have hunit := hexUnit?_control c.toNat h
  have hlow : isLowSurrogate c.toNat = false := by
    simp only [isLowSurrogate, Bool.and_eq_false_iff, decide_eq_false_iff_not]
    omega
  have hhigh : isHighSurrogate c.toNat = false := by
    simp only [isHighSurrogate, Bool.and_eq_false_iff, decide_eq_false_iff_not]
    omega
  have hutf8 : utf8 c.toNat = String.utf8EncodeChar c := by
    rw [utf8, Char.ofNat_toNat]
  intro offset rest
  rw [hbytes]
  constructor
  · simp only [List.cons_append, List.nil_append]
    rw [passString.eq_def]
    simp only [show byte '\\' ≠ byte '"' by decide, if_false, if_true, hunit]
    rfl
  · simp only [List.cons_append, List.nil_append]
    rw [takeString.eq_def]
    simp only [show byte '\\' ≠ byte '"' by decide, if_false, if_true, hunit, hlow, hhigh,
      Bool.false_eq_true, hutf8]
    rfl

theorem writes_escapeChar (c : Char) :
    Writes (encode (escapeChar c)) (String.utf8EncodeChar c) := by
  obtain ⟨e, he, hc⟩ | ⟨hlt, hc⟩ | ⟨hle, hquote, hslash, hc⟩ := escapeChar_cases c
  · rw [hc]
    exact writes_short he
  · rw [hc]
    exact writes_control hlt
  · have hone : encode (escapeChar c) = String.utf8EncodeChar c := by
      rw [hc, encode_cons, encode_nil, List.append_nil]
    rw [hone]
    refine .ofPlain fun b hb => ?_
    have hb : 32 ≤ b.toNat ∧ b ≠ byte '"' ∧ b ≠ byte '\\' := by
      by_cases hascii : c.toNat < 128
      · rw [utf8EncodeChar_ascii hascii, List.mem_singleton] at hb
        subst hb
        exact ⟨(toNat_byte hascii).symm ▸ hle, fun h => hquote (byte_inj hascii (by decide) h),
          fun h => hslash (byte_inj hascii (by decide) h)⟩
      · have hb := le_of_mem_utf8EncodeChar (Nat.le_of_not_lt hascii) hb
        refine ⟨by omega, ?_, ?_⟩ <;> rintro rfl <;> exact absurd hb (by decide)
    refine ⟨hb.2.1, hb.2.2, ?_⟩
    simp [isControl, UInt8.lt_iff_toNat_lt, hb.1]

theorem writes_escaped (cs : List Char) : Writes (encode (cs.flatMap escapeChar)) (encode cs) := by
  induction cs with
  | nil => exact .nil
  | cons c cs ih =>
    rw [List.flatMap_cons, encode_append, encode_cons]
    exact (writes_escapeChar c).append ih

/-- A string is read back as it was written. -/
theorem readString_printed (s : String) (offset : Nat) (rest : List UInt8) :
    ∃ stop, readString ⟨offset, encode (s.toList.flatMap escapeChar) ++ byte '"' :: rest⟩ =
      .ok (.ok s, ⟨stop, rest⟩) := by
  have hwrites := writes_escaped s.toList offset (byte '"' :: rest)
  have hend : ∀ offset, passString offset (byte '"' :: rest) = .ok ⟨offset + 1, rest⟩ ∧
      takeString offset (byte '"' :: rest) = .ok ([], offset + 1) := by
    intro offset
    rw [passString.eq_def, takeString.eq_def]
    exact ⟨rfl, rfl⟩
  rw [(hend _).1, (hend _).2] at hwrites
  simp only [Except.map, List.append_nil] at hwrites
  refine ⟨offset + (encode (s.toList.flatMap escapeChar)).length + 1, ?_⟩
  rw [readString]
  simp only [hwrites.1]
  rw [stringText]
  simp only [hwrites.2, fromUTF8?_encode, String.ofList_toList]

/-! ### Numbers -/

theorem isDigit_of_mem_digitsOf {n : Nat} {c : Char} (h : c ∈ digitsOf n) : c.isDigit = true :=
  Nat.isDigit_of_mem_toDigits (by decide) (by decide) h

theorem isDigit_ascii {c : Char} (h : c.isDigit = true) : c.toNat < 128 :=
  Nat.lt_of_le_of_lt (Char.isDigit_iff_toNat.1 h).2 (by decide)

theorem isDigitByte_byte {c : Char} (h : c.isDigit = true) : isDigitByte (byte c) = true := by
  simp only [isDigitByte, Bool.and_eq_true, decide_eq_true_eq, UInt8.le_iff_toNat_le,
    toNat_byte (isDigit_ascii h)]
  exact Char.isDigit_iff_toNat.1 h

theorem encode_digits {cs : List Char} (h : ∀ c ∈ cs, c.isDigit = true) :
    encode cs = cs.map byte :=
  encode_ascii fun c hc => isDigit_ascii (h c hc)

theorem isDigitByte_of_mem_encode {n : Nat} {b : UInt8} (h : b ∈ encode (digitsOf n)) :
    isDigitByte b = true := by
  rw [encode_digits fun c hc => isDigit_of_mem_digitsOf hc] at h
  obtain ⟨c, hc, rfl⟩ := List.mem_map.1 h
  exact isDigitByte_byte (isDigit_of_mem_digitsOf hc)

/-- Only zero begins with a zero. -/
theorem tail_digitsOf_zero {n : Nat} {cs : List Char} (h : digitsOf n = '0' :: cs) : cs = [] := by
  induction n using Nat.strongRecOn generalizing cs with
  | ind n ih =>
    by_cases hn : n < 10
    · rw [digitsOf, Nat.toDigits_of_lt_base hn] at h
      exact (List.cons.inj h).2.symm
    · rw [digitsOf, Nat.toDigits_of_base_le (by decide) (Nat.le_of_not_lt hn)] at h
      cases hd : Nat.toDigits 10 (n / 10) with
      | nil => exact absurd hd Nat.toDigits_ne_nil
      | cons d ds =>
        rw [hd, List.cons_append] at h
        obtain ⟨rfl, -⟩ := List.cons.inj h
        have hnil := ih (n / 10) (Nat.div_lt_self (by omega) (by decide)) hd
        have hvalue : Nat.ofDigitChars 10 ('0' :: ds) 0 = n / 10 :=
          hd ▸ Nat.ofDigitChars_ten_toDigits
        rw [hnil] at hvalue
        have hzero : 0 = n / 10 := hvalue
        omega

theorem le_ofDigitChars (cs : List Char) (n : Nat) : n ≤ Nat.ofDigitChars 10 cs n := by
  rw [Nat.ofDigitChars_eq_ofDigitChars_zero]
  have : n ≤ 10 ^ cs.length * n := Nat.le_mul_of_pos_left n (Nat.pow_pos (by decide))
  omega

/-- Digits that do not run over the bound are read to their end. -/
theorem readDigits_map {bound : Nat} {cs : List Char} (hcs : ∀ c ∈ cs, c.isDigit = true) (n : Nat)
    (h : Nat.ofDigitChars 10 cs n ≤ bound) :
    readDigits bound n (cs.map byte) = (Nat.ofDigitChars 10 cs n, []) := by
  induction cs generalizing n with
  | nil => rfl
  | cons c cs ih =>
    obtain ⟨hc, hcs⟩ := List.forall_mem_cons.1 hcs
    rw [Nat.ofDigitChars_cons] at h ⊢
    have hle := Nat.le_trans (le_ofDigitChars cs _) h
    rw [List.map_cons, readDigits, toNat_byte (isDigit_ascii hc)]
    rw [show '0'.toNat = 48 from rfl] at h hle ⊢
    rw [if_pos hle, ih hcs _ h]

theorem readDigits_digitsOf {bound n : Nat} (h : n ≤ bound) :
    readDigits bound 0 (encode (digitsOf n)) = (n, []) := by
  have hds := fun c (hc : c ∈ digitsOf n) => isDigit_of_mem_digitsOf hc
  have hvalue : Nat.ofDigitChars 10 (digitsOf n) 0 = n := Nat.ofDigitChars_ten_toDigits
  rw [encode_digits hds, readDigits_map hds 0 (hvalue.symm ▸ h), hvalue]

/-- What stands here is no part of a number before it. -/
def EndsNumber (bytes : List UInt8) : Prop :=
  ∀ b ∈ bytes.head?, isDigitByte b = false ∧ b ≠ byte '.' ∧ b ≠ byte 'e' ∧ b ≠ byte 'E'

namespace EndsNumber
variable {rest : List UInt8}

theorem takeWhile (h : EndsNumber rest) : rest.takeWhile isDigitByte = [] := by
  cases rest with
  | nil => rfl
  | cons b rest => exact List.takeWhile_cons_of_neg (by simp [(h b rfl).1])

theorem readFraction (h : EndsNumber rest) (offset : Nat) :
    Json.readFraction ⟨offset, rest⟩ = .ok (none, ⟨offset, rest⟩) := by
  cases rest with
  | nil => rfl
  | cons b rest =>
    rw [Json.readFraction]
    exact if_neg (h b rfl).2.1

theorem readPower (h : EndsNumber rest) (offset : Nat) :
    Json.readPower ⟨offset, rest⟩ = .ok (none, ⟨offset, rest⟩) := by
  cases rest with
  | nil => rfl
  | cons b rest =>
    rw [Json.readPower]
    exact if_neg (by simp [(h b rfl).2.2])

end EndsNumber

/-- Digits are followed to their end. -/
theorem readNumber_digitsOf (negative : Bool) (n offset : Nat) {rest : List UInt8}
    (h : EndsNumber rest) :
    ∃ stop, readNumber negative ⟨offset, encode (digitsOf n) ++ rest⟩ =
      .ok (⟨negative, encode (digitsOf n), none, none, stop⟩, ⟨stop, rest⟩) := by
  have hds := fun c (hc : c ∈ digitsOf n) => isDigit_of_mem_digitsOf hc
  have htake : (encode (digitsOf n) ++ rest).takeWhile isDigitByte = encode (digitsOf n) := by
    rw [List.takeWhile_append_of_pos fun b hb => isDigitByte_of_mem_encode hb, h.takeWhile,
      List.append_nil]
  refine ⟨offset + (encode (digitsOf n)).length, ?_⟩
  rw [readNumber, Cursor.digits]
  simp only [htake, List.drop_left]
  cases hd : digitsOf n with
  | nil => exact absurd hd Nat.toDigits_ne_nil
  | cons d ds =>
    have hcons : encode (d :: ds) = byte d :: ds.map byte := by
      rw [encode_digits (hd ▸ hds), List.map_cons]
    -- a zero in front would have to stand alone
    have hzero : (byte d = byte '0' && !(ds.map byte).isEmpty) = false := by
      by_cases hbyte : byte d = byte '0'
      · have hascii := isDigit_ascii (hds d (hd ▸ List.mem_cons_self))
        obtain rfl := byte_inj hascii (by decide) hbyte
        rw [tail_digitsOf_zero hd]
        rfl
      · simp [hbyte]
    simp only [hcons, hzero, Bool.false_eq_true, if_false, h.readFraction, h.readPower]

theorem number_digitsOf {n : Nat} (h : n ≤ maxWhole) (stop : Nat) :
    NumberText.number ⟨false, encode (digitsOf n), none, none, stop⟩ = .ok (.whole n) := by
  rw [NumberText.number]
  simp only [readDigits_digitsOf h]
  rfl

theorem number_negative {n : Nat} (hpos : 0 < n) (h : n ≤ signBit) (stop : Nat) :
    NumberText.number ⟨true, encode (digitsOf n), none, none, stop⟩ = .ok (.whole (-n)) := by
  have hmax : n ≤ maxWhole := Nat.le_trans h (by decide)
  rw [NumberText.number]
  simp only [readDigits_digitsOf hmax]
  have hne : (n = 0 || n > signBit) = false := by
    simp [Nat.ne_of_gt hpos, h]
  simp [hne]

end CodeEditing.Json
