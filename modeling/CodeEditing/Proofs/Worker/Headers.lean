import Mathlib.Data.List.Forall2
import CodeEditing.Proofs.Json.Scalars
import CodeEditing.Worker.Frame

/-! What stands in front of a body.

A header line says nothing of the length or gives one (`Tells`), whatever the letters of the name and
the blanks around its parts. A block is header lines and the blank line behind them (`Block`), and the
last length in it counts (`Block.Gives`). Reading passes over a block without a length to speak of
(`nextBody_passed`) and cuts the body off behind one that has a length (`nextBody_block`).
`next_block` is the result: the body is taken over byte for byte, whether anything can be made of it or
not, and reading goes on right behind it. -/
namespace CodeEditing.Worker

open Json (Decoder encode)

/-! ### Blanks at the ends -/

section
variable {cs : List Char}

theorem trim_blank_append {front : List Char} (h : Text.allBlank front = true) (cs : List Char) :
    Text.trim (front ++ cs) = Text.trim cs := by
  rw [Text.trim, Text.trimStart, List.dropWhile_append_of_pos (List.all_eq_true.1 h)]
  rfl

theorem trimEnd_append_blank (cs : List Char) {behind : List Char}
    (h : Text.allBlank behind = true) : Text.trimEnd (cs ++ behind) = Text.trimEnd cs := by
  rw [Text.trimEnd, List.reverse_append,
    List.dropWhile_append_of_pos fun c hc => List.all_eq_true.1 h c (List.mem_reverse.1 hc)]
  rfl

theorem trim_append_blank (cs : List Char) {behind : List Char}
    (h : Text.allBlank behind = true) : Text.trim (cs ++ behind) = Text.trim cs := by
  have hstart : Text.trimStart behind = [] := (Text.trimStart_eq_nil_iff behind).2 h
  rw [Text.trim, Text.trim, Text.trimStart, List.dropWhile_append]
  split
  · next hnone => rw [Text.trimStart, List.isEmpty_iff.1 hnone, ← Text.trimStart, hstart]
  · exact trimEnd_append_blank _ h

/-- What ends with no blank is kept in front of what follows. -/
theorem trimEnd_append (rest : List Char) {d : Char} (hlast : cs.getLast? = some d)
    (hd : Text.isBlank d = false) : Text.trimEnd (cs ++ rest) = cs ++ Text.trimEnd rest := by
  have hkept : cs.reverse.dropWhile Text.isBlank = cs.reverse := by
    refine (Text.trimStart_eq_self_iff _).2 fun c hc => ?_
    rw [List.head?_reverse, hlast] at hc
    exact Option.some.inj hc ▸ hd
  rw [Text.trimEnd, Text.trimEnd, List.reverse_append, List.dropWhile_append, hkept]
  split
  · next hnone => rw [List.isEmpty_iff.1 hnone, List.reverse_reverse, List.reverse_nil, List.append_nil]
  · rw [List.reverse_append, List.reverse_reverse]

/-- What begins and ends with no blank is kept in front of what follows. -/
theorem trim_append (rest : List Char) {c d : Char} (hhead : cs.head? = some c)
    (hc : Text.isBlank c = false) (hlast : cs.getLast? = some d) (hd : Text.isBlank d = false) :
    Text.trim (cs ++ rest) = cs ++ Text.trimEnd rest := by
  have hstart : Text.trimStart (cs ++ rest) = cs ++ rest := by
    refine (Text.trimStart_eq_self_iff _).2 fun e he => ?_
    rw [List.head?_append, hhead, Option.some_or] at he
    exact Option.some.inj he ▸ hc
  rw [Text.trim, hstart, trimEnd_append rest hlast hd]

/-- What stands between blanks is kept if it has none itself. -/
theorem trim_between {front behind : List Char} (hfront : Text.allBlank front = true)
    (hcs : ∀ c ∈ cs, Text.isBlank c = false) (hbehind : Text.allBlank behind = true) :
    Text.trim (front ++ cs ++ behind) = cs := by
  rw [trim_append_blank _ hbehind, trim_blank_append hfront]
  cases hne : cs.head? with
  | none => rw [List.head?_eq_none_iff.1 hne]; rfl
  | some c =>
    have hlast := List.getLast?_eq_some_getLast (List.ne_nil_of_mem (List.mem_of_mem_head? hne))
    have := trim_append [] hne (hcs c (List.mem_of_mem_head? hne)) hlast
      (hcs _ (List.mem_of_getLast? hlast))
    rwa [List.append_nil, show Text.trimEnd [] = [] from rfl, List.append_nil] at this

/-- A line is what is left of it without the blanks at its ends, between these blanks. -/
theorem exists_trim (cs : List Char) : ∃ front behind, cs = front ++ Text.trim cs ++ behind ∧
    Text.allBlank front = true ∧ Text.allBlank behind = true := by
  have hblank (ds : List Char) : Text.allBlank (ds.takeWhile Text.isBlank) = true :=
    List.all_takeWhile
  refine ⟨cs.takeWhile Text.isBlank,
    ((Text.trimStart cs).reverse.takeWhile Text.isBlank).reverse, ?_, hblank cs, ?_⟩
  · rw [List.append_assoc, Text.trim, Text.trimEnd, ← List.reverse_append,
      List.takeWhile_append_dropWhile, List.reverse_reverse, Text.takeWhile_append_trimStart]
  · rw [Text.allBlank, List.all_reverse]
    exact hblank _

theorem trim_eq_nil_iff : Text.trim cs = [] ↔ Text.allBlank cs = true := by
  constructor
  · intro h
    obtain ⟨front, behind, hcs, hfront, hbehind⟩ := exists_trim cs
    rw [hcs, h, List.append_nil, Text.allBlank, List.all_append, Bool.and_eq_true]
    exact ⟨hfront, hbehind⟩
  · intro h
    rw [Text.trim, (Text.trimStart_eq_nil_iff cs).2 h]
    rfl

end

/-! ### Counts in writing -/

theorem isBlank_digit {c : Char} (h : '0' ≤ c ∧ c ≤ '9') : Text.isBlank c = false := by
  have hle : 48 ≤ c.toNat := UInt32.le_iff_toNat_le.1 h.1
  have hge : c.toNat ≤ 57 := UInt32.le_iff_toNat_le.1 h.2
  simp [Text.isBlank]
  omega

theorem digit_of_digitsValue? {cs : List Char} {m n : Nat} (h : Text.digitsValue? m cs = some n) :
    ∀ c ∈ cs, '0' ≤ c ∧ c ≤ '9' := by
  induction cs generalizing m with
  | nil => exact fun c hc => absurd hc List.not_mem_nil
  | cons d ds ih =>
    rw [Text.digitsValue?] at h
    split at h
    · next hd => exact List.forall_mem_cons.2 ⟨hd, ih h⟩
    · cases h

/-- There is no blank in a count. -/
theorem isBlank_of_count? {cs : List Char} {n : Nat} (h : Text.count? cs = some n) :
    ∀ c ∈ cs, Text.isBlank c = false := by
  have hdigits {ds : List Char} (hv : (Text.digitsValue? 0 ds).filter (· ≤ Text.maxCount) = some n) :
      ∀ c ∈ ds, Text.isBlank c = false := fun c hc =>
    isBlank_digit (digit_of_digitsValue? (Option.filter_eq_some_iff.1 hv).1 c hc)
  unfold Text.count? at h
  dsimp only at h
  split at h
  · split at h
    · cases h
    · exact List.forall_mem_cons.2 ⟨by decide, hdigits h⟩
  · split at h
    · cases h
    · exact hdigits h

/-! ### What a header line says -/

/-- The line is one that gives a length, or ought to. -/
def NamesLength (line : List Char) : Prop :=
  ∃ front name rest, line = front ++ name ++ rest ∧ Text.allBlank front = true ∧
    name.map Char.toLower = lengthName

/-- What a header line says of the length: nothing, or what it is. -/
inductive Tells : List Char → Option Nat → Prop
  | other {line : List Char} (hsome : Text.allBlank line = false) (hother : ¬NamesLength line) :
    Tells line none
  | length {front name gap value behind : List Char} {n : Nat} (hfront : Text.allBlank front = true)
    (hname : name.map Char.toLower = lengthName) (hgap : Text.allBlank gap = true)
    (hvalue : Text.count? value = some n) (hbehind : Text.allBlank behind = true) :
    Tells (front ++ name ++ gap ++ value ++ behind) (some n)

theorem isBlank_toLower {c : Char} (h : Text.isBlank c = true) : c.toLower = c := by
  refine dif_neg fun hupper => ?_
  have hle : 65 ≤ c.toNat := UInt32.le_iff_toNat_le.1 hupper.1
  have hge : c.toNat ≤ 90 := UInt32.le_iff_toNat_le.1 hupper.2
  simp [Text.isBlank] at h
  omega

/-- A name is no blank, whatever its letters. -/
theorem not_blank_of_toLower {c d : Char} (h : c.toLower = d) (hd : Text.isBlank d = false) :
    Text.isBlank c = false := by
  cases hc : Text.isBlank c with
  | false => rfl
  | true =>
    rw [isBlank_toLower hc] at h
    rw [h, hd] at hc
    cases hc

/-- What stands behind the name is the length. -/
theorem headerOf_named {front name : List Char} (hfront : Text.allBlank front = true)
    (hname : name.map Char.toLower = lengthName) (rest : List Char) :
    headerOf (front ++ name ++ rest) =
      match Text.count? (Text.trim rest) with
      | some n => .length n
      | none => .badLength (String.ofList (Text.trim rest)) := by
  have hlength : name.length = lengthName.length := by rw [← hname, List.length_map]
  obtain ⟨c, hhead, hc⟩ : ∃ c, name.head? = some c ∧ c.toLower = 'c' :=
    Option.map_eq_some_iff.1 (by rw [← List.head?_map, hname]; rfl)
  obtain ⟨d, hlast, hd⟩ : ∃ d, name.getLast? = some d ∧ d.toLower = ':' :=
    Option.map_eq_some_iff.1 (by rw [← List.getLast?_map, hname]; rfl)
  have hline : Text.trim (front ++ name ++ rest) = name ++ Text.trimEnd rest := by
    rw [List.append_assoc, trim_blank_append hfront]
    exact trim_append rest hhead (not_blank_of_toLower hc rfl) hlast (not_blank_of_toLower hd rfl)
  have hsome : (name ++ Text.trimEnd rest).isEmpty = false := by
    rw [List.isEmpty_eq_false_iff]
    exact List.append_ne_nil_of_left_ne_nil (List.ne_nil_of_mem (List.mem_of_mem_head? hhead)) _
  have hvalue : Text.trim (Text.trimEnd rest) = Text.trim rest := by
    have hrest : rest = Text.trimEnd rest ++ (rest.reverse.takeWhile Text.isBlank).reverse := by
      rw [Text.trimEnd, ← List.reverse_append, List.takeWhile_append_dropWhile, List.reverse_reverse]
    conv_rhs => rw [hrest]
    refine (trim_append_blank _ ?_).symm
    rw [Text.allBlank, List.all_reverse]
    exact List.all_takeWhile
  rw [headerOf]
  simp only [hline, hsome, List.take_left' hlength, List.drop_left' hlength, hname, hvalue, if_true]
  rfl

theorem headerOf_blank {line : List Char} (h : Text.allBlank line = true) :
    headerOf line = .blank := by
  rw [headerOf, trim_eq_nil_iff.2 h]
  rfl

theorem headerOf_eq_other_iff {line : List Char} :
    headerOf line = .other ↔ Text.allBlank line = false ∧ ¬NamesLength line := by
  constructor
  · intro h
    refine ⟨Bool.eq_false_iff.2 fun hblank => ?_, ?_⟩
    · rw [headerOf_blank hblank] at h
      cases h
    · rintro ⟨front, name, rest, rfl, hfront, hname⟩
      rw [headerOf_named hfront hname] at h
      split at h <;> cases h
  · rintro ⟨hsome, hother⟩
    have hne : (Text.trim line).isEmpty = false := by
      rw [List.isEmpty_eq_false_iff, ne_eq, trim_eq_nil_iff, hsome]
      exact Bool.false_ne_true
    have hname : ((Text.trim line).take lengthName.length).map Char.toLower ≠ lengthName := by
      intro hname
      obtain ⟨front, behind, hline, hfront, -⟩ := exists_trim line
      refine hother ⟨front, (Text.trim line).take lengthName.length,
        (Text.trim line).drop lengthName.length ++ behind, ?_, hfront, hname⟩
      rw [List.append_assoc front, ← List.append_assoc _ _ behind, List.take_append_drop,
        ← List.append_assoc]
      exact hline
    rw [headerOf]
    simp only [hne, if_neg hname]
    rfl

/-- The line feed says nothing. -/
theorem headerOf_feed (line : List Char) : headerOf (line ++ ['\n']) = headerOf line := by
  rw [headerOf, headerOf, trim_append_blank line (by decide)]

/-! ### Lines -/

/-- What has no line feed is the beginning of a line. -/
theorem takeLine_append_of_notMem {front : List UInt8} (h : 10 ∉ front) (rest : List UInt8) :
    takeLine (front ++ rest) = (front ++ (takeLine rest).1, (takeLine rest).2) := by
  induction front with
  | nil => rfl
  | cons b front ih =>
    have hb : ¬b = 10 := (List.ne_of_not_mem_cons h).symm
    rw [List.cons_append, takeLine, if_neg hb, ih (List.not_mem_of_not_mem_cons h)]
    rfl

/-- The bytes of a line, with its line feed. -/
def lineBytes (line : List Char) : List UInt8 := encode (line ++ ['\n'])

theorem lineBytes_eq (line : List Char) : lineBytes line = encode line ++ [10] := by
  rw [lineBytes, Json.encode_append]
  rfl

/-- No line feed is among the bytes of a text that has none. -/
theorem feed_notMem_encode {line : List Char} (h : '\n' ∉ line) : 10 ∉ encode line := by
  intro hmem
  obtain ⟨c, hc, hb⟩ := List.mem_flatMap.1 hmem
  by_cases hascii : c.toNat < 128
  · rw [Json.utf8EncodeChar_ascii hascii, List.mem_singleton] at hb
    have hcode : c.toNat = 10 := by rw [← Json.toNat_byte hascii, ← hb]; rfl
    exact h (Char.toNat_inj.1 (hcode.trans rfl : c.toNat = ('\n' : Char).toNat) ▸ hc)
  · have := Json.le_of_mem_utf8EncodeChar (Nat.not_lt.1 hascii) hb
    exact absurd this (by decide)

/-- One line is read, and reading goes on behind it. -/
theorem nextBody_line {line : List Char} (h : '\n' ∉ line) (length : Option Nat)
    (rest : List UInt8) : nextBody length (lineBytes line ++ rest) =
      match headerOf line with
      | .other => nextBody length rest
      | .length n => nextBody (some n) rest
      | .badLength value => (.error (.badLength value), rest)
      | .blank =>
        match length with
        | none | some 0 => nextBody none rest
        | some (n + 1) =>
          if rest.length ≤ n then (.error (.missing (n + 1)), [])
          else (.ok (some (rest.take (n + 1))), rest.drop (n + 1)) := by
  have hline : takeLine (lineBytes line ++ rest) = (lineBytes line, rest) := by
    rw [lineBytes_eq, List.append_assoc]
    exact takeLine_append_of_notMem (feed_notMem_encode h) (10 :: rest)
  obtain ⟨b, bs, hb⟩ := List.exists_cons_of_ne_nil (l := lineBytes line ++ rest) (by
    rw [lineBytes_eq]
    simp)
  rw [hb] at hline ⊢
  rw [nextBody.eq_def]
  simp only [hline]
  rw [lineBytes, Json.fromUTF8?_encode]
  cases hheader : headerOf line <;> rcases length with _ | _ | n <;>
    simp only [String.toList_ofList, headerOf_feed, hheader]

/-! ### Blocks -/

/-- Header lines and the blank line behind them, each without its line feed. -/
structure Block where
  lines : List (List Char)
  blank : List Char

namespace Block

def bytes (b : Block) : List UInt8 := b.lines.flatMap lineBytes ++ lineBytes b.blank

/-- The last of the lengths that the lines give is this one, or none of them gives one. -/
structure Gives (b : Block) (length : Option Nat) : Prop where
  oneLine : ∀ line ∈ b.lines ++ [b.blank], '\n' ∉ line
  blank : Text.allBlank b.blank = true
  told : ∃ said, List.Forall₂ Tells b.lines said ∧ (said.filterMap id).getLast? = length

end Block

/-- The last of the lengths that lines give counts from then on. -/
theorem nextBody_lines {lines : List (List Char)} {said : List (Option Nat)}
    (hone : ∀ line ∈ lines, '\n' ∉ line) (h : List.Forall₂ Tells lines said) (length : Option Nat)
    (rest : List UInt8) : nextBody length (lines.flatMap lineBytes ++ rest) =
      nextBody ((said.filterMap id).getLast?.or length) rest := by
  induction h generalizing length with
  | nil => rfl
  | @cons line said' lines said hline h ih =>
    obtain ⟨hfirst, hmore⟩ := List.forall_mem_cons.1 hone
    rw [List.flatMap_cons, List.append_assoc, nextBody_line hfirst]
    cases hline with
    | other hsome hother =>
      rw [headerOf_eq_other_iff.2 ⟨hsome, hother⟩, List.filterMap_cons_none rfl]
      exact ih hmore length
    | @length front name gap value behind n hfront hname hgap hvalue hbehind =>
      have hheader := headerOf_named hfront hname (gap ++ value ++ behind)
      rw [trim_between hgap (isBlank_of_count? hvalue) hbehind] at hheader
      simp only [hvalue, ← List.append_assoc] at hheader
      simp only [hheader]
      rw [ih hmore, List.filterMap_cons_some (f := id) rfl, List.getLast?_cons]
      cases (said.filterMap id).getLast? <;> rfl

theorem nextBody_gives {b : Block} {given : Option Nat} (h : b.Gives given) (rest : List UInt8) :
    nextBody none (b.bytes ++ rest) = nextBody given (lineBytes b.blank ++ rest) := by
  obtain ⟨said, htold, hlast⟩ := h.told
  rw [Block.bytes, List.append_assoc,
    nextBody_lines (fun line hl => h.oneLine line (List.mem_append_left _ hl)) htold, hlast,
    Option.or_none]

theorem nextBody_blank {b : Block} {given : Option Nat} (h : b.Gives given) (length : Option Nat)
    (rest : List UInt8) : nextBody length (lineBytes b.blank ++ rest) =
      match length with
      | none | some 0 => nextBody none rest
      | some (n + 1) =>
        if rest.length ≤ n then (.error (.missing (n + 1)), [])
        else (.ok (some (rest.take (n + 1))), rest.drop (n + 1)) := by
  rw [nextBody_line (h.oneLine _ (List.mem_append_right _ List.mem_cons_self)),
    headerOf_blank h.blank]

/-- Blocks without a length, or with none to speak of, are passed over. -/
theorem nextBody_passed {passed : List Block}
    (h : ∀ b ∈ passed, b.Gives none ∨ b.Gives (some 0)) (rest : List UInt8) :
    nextBody none (passed.flatMap Block.bytes ++ rest) = nextBody none rest := by
  induction passed with
  | nil => rfl
  | cons b passed ih =>
    obtain ⟨hb, hmore⟩ := List.forall_mem_cons.1 h
    rw [List.flatMap_cons, List.append_assoc, ← ih hmore]
    rcases hb with hb | hb <;> rw [nextBody_gives hb, nextBody_blank hb]

/-- Behind a block that gives its length a body is cut off where it ends. -/
theorem nextBody_block {b : Block} {body : List UInt8} (h : b.Gives (some body.length))
    (hne : body ≠ []) (rest : List UInt8) :
    nextBody none (b.bytes ++ body ++ rest) = (.ok (some body), rest) := by
  obtain ⟨n, hn⟩ := Nat.exists_eq_succ_of_ne_zero (Nat.ne_of_gt (List.length_pos_iff.2 hne))
  have hlong : ¬(body ++ rest).length ≤ n := by
    rw [List.length_append]
    omega
  rw [List.append_assoc, nextBody_gives h, nextBody_blank h, hn]
  simp only [if_neg hlong, List.take_left' hn, List.drop_left' hn]

/-- Behind a block that gives a length for which there is not enough, no body is to be had. -/
theorem nextBody_short {b : Block} {length : Nat} (h : b.Gives (some length)) {part : List UInt8}
    (hshort : part.length < length) :
    nextBody none (b.bytes ++ part) = (.error (.missing length), []) := by
  obtain ⟨n, rfl⟩ := Nat.exists_eq_succ_of_ne_zero (Nat.ne_zero_of_lt hshort)
  rw [nextBody_gives h, nextBody_blank h]
  exact if_pos (Nat.le_of_lt_succ hshort)

/-- Reading goes on behind what has been read, if nothing final is wrong with it. -/
theorem readAll_of_next {d : Decoder α} {stream rest : List UInt8} {message : Except FrameFault α}
    (hne : stream ≠ []) (h : next d stream = (message.map some, rest))
    (hgoes : ∀ f, message = .error f → f.isFinal = false) :
    readAll d stream = (message :: (readAll d rest).1, (readAll d rest).2) := by
  obtain ⟨b, bs, rfl⟩ := List.exists_cons_of_ne_nil hne
  rw [readAll.eq_def]
  simp only [h]
  cases message with
  | ok a => rfl
  | error f => simp only [Except.map, hgoes f rfl, Bool.false_eq_true, if_false]

/-- **A frame is taken out whole.** Behind any blocks without a length to speak of, a block of whatever
header lines that gives a length, and a body of that length, the body is decoded, and reading goes on
right behind it even if it cannot be. -/
theorem next_block (d : Decoder α) {passed : List Block} {b : Block} {body : List UInt8}
    (hpassed : ∀ p ∈ passed, p.Gives none ∨ p.Gives (some 0)) (hb : b.Gives (some body.length))
    (hne : body ≠ []) (rest : List UInt8) :
    let stream := passed.flatMap Block.bytes ++ b.bytes ++ body ++ rest
    let message := (Json.decodeText d body).mapError (FrameFault.malformed body)
    next d stream = (message.map some, rest) ∧
      readAll d stream = (message :: (readAll d rest).1, (readAll d rest).2) := by
  intro stream message
  have hbody : nextBody none stream = (.ok (some body), rest) := by
    have hstream : stream = passed.flatMap Block.bytes ++ (b.bytes ++ body ++ rest) := by
      simp only [stream, List.append_assoc]
    rw [hstream, nextBody_passed hpassed]
    exact nextBody_block hb hne rest
  have hnext : next d stream = (message.map some, rest) := by
    rw [next, hbody]
    cases hdecode : Json.decodeText d body <;> simp only [message, hdecode] <;> rfl
  have hsome : stream ≠ [] :=
    List.append_ne_nil_of_left_ne_nil (List.append_ne_nil_of_right_ne_nil _ hne) rest
  refine ⟨hnext, readAll_of_next hsome hnext fun f hf => ?_⟩
  cases hdecode : Json.decodeText d body <;> simp only [message, hdecode] at hf <;> cases hf
  rfl

/-- A block with another header alone, one whose last length is zero, and one with two lengths. -/
def loneHeader : Block := ⟨["X-Note: é\r".toList], ['\r']⟩

def zeroLength : Block := ⟨["Content-Length: 5".toList, "Content-Length: 0\r".toList], []⟩

def twoLengths : Block :=
  ⟨["content-LENGTH: 9\r".toList, "Content-Type: json\r".toList, "\t CONTENT-length:+2 \r".toList],
    " \r".toList⟩

theorem next_block_twoLengths :
    let behind := bytesOf "Content-Length: 1\r\n\r\n7"
    let stream := [loneHeader, zeroLength].flatMap Block.bytes ++ twoLengths.bytes ++ [255, 10] ++ behind
    ∃ problem, next Decoder.any stream = (.error (.malformed [255, 10] problem), behind) := by
  intro behind stream
  have hother {line : List Char} (h : headerOf line = .other) : Tells line none :=
    have ⟨hsome, hother⟩ := headerOf_eq_other_iff.1 h
    .other hsome hother
  have hlone : loneHeader.Gives none :=
    ⟨by decide, rfl, [none], .cons (hother (by decide)) .nil, rfl⟩
  have hfive : Tells ([] ++ "Content-Length:".toList ++ [' '] ++ ['5'] ++ []) (some 5) :=
    .length rfl rfl rfl rfl rfl
  have hnought : Tells ([] ++ "Content-Length:".toList ++ [' '] ++ ['0'] ++ ['\r']) (some 0) :=
    .length rfl rfl rfl rfl rfl
  have hzero : zeroLength.Gives (some 0) :=
    ⟨by decide, rfl, [some 5, some 0], .cons hfive (.cons hnought .nil), rfl⟩
  have hnine : Tells ([] ++ "content-LENGTH:".toList ++ [' '] ++ ['9'] ++ ['\r']) (some 9) :=
    .length rfl rfl rfl rfl rfl
  have htwo : Tells ("\t ".toList ++ "CONTENT-length:".toList ++ [] ++ "+2".toList ++ " \r".toList)
      (some 2) := .length rfl rfl rfl rfl rfl
  have hlengths : twoLengths.Gives (some ([255, 10] : List UInt8).length) :=
    ⟨by decide, rfl, [some 9, none, some 2], .cons hnine (.cons (hother (by decide)) (.cons htwo .nil)),
      rfl⟩
  have hpassed : ∀ p ∈ [loneHeader, zeroLength], p.Gives none ∨ p.Gives (some 0) :=
    List.forall_mem_cons.2 ⟨.inl hlone, List.forall_mem_singleton.2 (.inr hzero)⟩
  obtain ⟨hnext, -⟩ := next_block Decoder.any hpassed hlengths (by decide) behind
  obtain ⟨problem, hproblem⟩ : ∃ p, Json.decodeText Decoder.any [255, 10] = .error p := by
    cases h : Json.decodeText Decoder.any [255, 10] with
    | error p => exact ⟨p, rfl⟩
    | ok v =>
      have herror : (Json.decodeText Decoder.any [255, 10]).isOk = false := by decide +kernel
      rw [h] at herror
      cases herror
  rw [hproblem] at hnext
  exact ⟨problem, hnext⟩

end CodeEditing.Worker
