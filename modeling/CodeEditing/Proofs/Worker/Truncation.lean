import CodeEditing.Proofs.Worker.Wire

/-! Streams that stop inside a frame.

A frame is a line with the length, a blank line, and a body. Where a stream stops inside the body or
inside the blank line, the body is not all there and reading it is an error (`nextBody_missing`). Where
it stops inside the line with the length or right behind it, that line is read as it stands
(`headerOf_take`): for the most part it is taken for a header, and the end behind it for the end of
the stream between two messages. `next_truncated` tells for every cut which of these it is. -/
namespace CodeEditing.Worker

open Json (Decoder Value digitsOf encode)

/-! ### The line with the length -/

/-- A line that the stream ends in is read as it stands. -/
theorem nextBody_unended {line : List Char} (h : '\n' ∉ line) (hne : line ≠ [])
    (length : Option Nat) : nextBody length (encode line) =
      match headerOf line with
      | .badLength value => (.error (.badLength value), [])
      | .other | .length _ => (.ok none, [])
      | .blank =>
        match length with
        | none | some 0 => (.ok none, [])
        | some (n + 1) => (.error (.missing (n + 1)), []) := by
  obtain ⟨b, bs, hb⟩ := List.exists_cons_of_ne_nil (Json.encode_ne_nil hne)
  have hline : takeLine (encode line) = (encode line, []) := by
    have := takeLine_append_of_notMem (feed_notMem_encode h) []
    rwa [takeLine, List.append_nil] at this
  have htext := Json.fromUTF8?_encode line
  have hend (length : Option Nat) : nextBody length [] = (.ok none, []) := by rw [nextBody]
  rw [hb] at hline htext ⊢
  rw [nextBody.eq_def]
  simp only [hline, htext, String.toList_ofList, hend]
  cases headerOf line with
  | blank => rcases length with _ | _ | n <;> rfl
  | _ => rfl

theorem length_title : "Content-Length: ".toList.length = 16 := by decide

theorem length_lengthLine (n : Nat) : (lengthLine n).length = 17 + (digitsOf n).length := by
  rw [lengthLine_eq, List.length_append, List.length_append, length_title, List.length_singleton]
  omega

/-- A part of some digits stands for no more than all of them. -/
theorem ofDigitChars_take_le (cs : List Char) (j : Nat) :
    Nat.ofDigitChars 10 (cs.take j) 0 ≤ Nat.ofDigitChars 10 cs 0 := by
  conv_rhs => rw [← List.take_append_drop j cs, Nat.ofDigitChars_append]
  exact Json.le_ofDigitChars _ _

theorem take_lengthLine {n k : Nat} (h : k ≤ 16) :
    (lengthLine n).take k = "Content-Length: ".toList.take k := by
  rw [lengthLine_eq, List.append_assoc]
  exact List.take_append_of_le_length (Nat.le_trans h (Nat.le_of_eq length_title.symm))

theorem take_lengthLine_add (n j : Nat) : (lengthLine n).take (16 + j) =
    "Content-Length: ".toList ++ ((digitsOf n).take j ++ ['\r'].take (j - (digitsOf n).length)) := by
  rw [lengthLine_eq, List.append_assoc, List.take_append, length_title, Nat.add_sub_cancel_left,
    List.take_append, List.take_of_length_le]
  rw [length_title]
  exact Nat.le_add_right 16 j

/-- What the beginning of the line with the length is taken for. -/
theorem headerOf_take {n k : Nat} (hn : n ≤ Text.maxCount) (hpos : 0 < k) :
    (k < 15 → headerOf ((lengthLine n).take k) = .other) ∧
      (k = 15 ∨ k = 16 → headerOf ((lengthLine n).take k) = .badLength "") ∧
      (16 < k → ∃ m, headerOf ((lengthLine n).take k) = .length m) := by
  have hother : ∀ k < 15, 0 < k → headerOf ("Content-Length: ".toList.take k) = .other := by decide
  refine ⟨fun h => ?_, ?_, fun h => ?_⟩
  · rw [take_lengthLine (by omega)]
    exact hother k h hpos
  · rintro (rfl | rfl) <;> rw [take_lengthLine (by omega)] <;> decide
  · obtain ⟨j, rfl⟩ := Nat.exists_eq_add_of_le (Nat.le_of_lt h)
    have hdigits : ∀ c ∈ (digitsOf n).take j, c.isDigit = true := fun c hc =>
      Json.isDigit_of_mem_digitsOf (List.mem_of_mem_take hc)
    have hne : (digitsOf n).take j ≠ [] := by
      have : digitsOf n ≠ [] := Nat.toDigits_ne_nil
      simp only [ne_eq, List.take_eq_nil_iff, this, or_false]
      omega
    have hcount := count?_digits hne hdigits
      (Nat.le_trans (ofDigitChars_take_le _ j) (Nat.ofDigitChars_ten_toDigits.symm ▸ hn))
    have hbehind : Text.allBlank (['\r'].take (j - (digitsOf n).length)) = true :=
      List.all_eq_true.2 fun c hc => List.mem_singleton.1 (List.mem_of_mem_take hc) ▸ by decide
    have hnamed := headerOf_named (rfl : Text.allBlank [] = true)
      (rfl : "Content-Length:".toList.map Char.toLower = lengthName)
      ([' '] ++ (digitsOf n).take j ++ ['\r'].take (j - (digitsOf n).length))
    rw [trim_between (by decide) (isBlank_of_count? hcount) hbehind, hcount] at hnamed
    refine ⟨Nat.ofDigitChars 10 ((digitsOf n).take j) 0, ?_⟩
    rw [take_lengthLine_add]
    exact hnamed

theorem lengthLine_ascii (n : Nat) : ∀ c ∈ lengthLine n, c.toNat < 128 ∧ c ≠ '\n' := by
  intro c hc
  rw [lengthLine_eq, List.mem_append, List.mem_append] at hc
  rcases hc with (hc | hc) | hc
  · have htitle : "Content-Length: ".toList.all fun c => c.toNat < 128 ∧ c ≠ '\n' := by decide
    exact of_decide_eq_true (List.all_eq_true.1 htitle c hc)
  · have hdigit := Json.isDigit_of_mem_digitsOf hc
    refine ⟨Json.isDigit_ascii hdigit, ?_⟩
    rintro rfl
    cases hdigit
  · exact List.mem_singleton.1 hc ▸ by decide

/-- The stream ends inside the line with the length. -/
theorem nextBody_take {n k : Nat} (hn : n ≤ Text.maxCount) (hpos : 0 < k)
    (hk : k ≤ (lengthLine n).length) :
    nextBody none ((encode (lengthLine n)).take k) =
      if k = 15 ∨ k = 16 then (.error (.badLength ""), []) else (.ok none, []) := by
  have hbytes : (encode (lengthLine n)).take k = encode ((lengthLine n).take k) := by
    rw [Json.encode_ascii fun c hc => (lengthLine_ascii n c hc).1,
      Json.encode_ascii fun c hc => (lengthLine_ascii n c (List.mem_of_mem_take hc)).1,
      List.map_take]
  have hfeed : '\n' ∉ (lengthLine n).take k := fun hc =>
    (lengthLine_ascii n _ (List.mem_of_mem_take hc)).2 rfl
  have hne : (lengthLine n).take k ≠ [] := by
    rw [ne_eq, ← List.length_eq_zero_iff, List.length_take]
    omega
  obtain ⟨hother, hbad, hlength⟩ := headerOf_take hn hpos
  rw [hbytes, nextBody_unended hfeed hne none]
  split_ifs with h
  · rw [hbad h]
  · rcases Nat.lt_or_ge k 15 with hlt | hge
    · rw [hother hlt]
    · obtain ⟨m, hm⟩ := hlength (by omega)
      rw [hm]

/-! ### Behind it -/

theorem nextBody_lengthLine {n : Nat} (h : n ≤ Text.maxCount) (rest : List UInt8) :
    nextBody none (lineBytes (lengthLine n) ++ rest) = nextBody (some n) rest := by
  have hhead := headOf_gives h
  obtain ⟨said, htold, hlast⟩ := hhead.told
  have hone : ∀ line ∈ [lengthLine n], '\n' ∉ line := fun line hl =>
    hhead.oneLine line (List.mem_append_left _ hl)
  have hlines := nextBody_lines hone htold none rest
  rwa [hlast, Option.or_none, List.flatMap_singleton] at hlines

/-- The stream ends in the blank line or in the body. -/
theorem nextBody_missing {n : Nat} {part : List UInt8}
    (h : part = [13] ∨ ∃ begun, part = 13 :: 10 :: begun ∧ begun.length < n) (hpos : 0 < n) :
    nextBody (some n) part = (.error (.missing n), []) := by
  obtain ⟨m, rfl⟩ := Nat.exists_eq_succ_of_ne_zero (Nat.ne_of_gt hpos)
  have hreturn : headerOf ['\r'] = .blank := by decide
  rcases h with rfl | ⟨begun, rfl, hlt⟩
  · have hend := nextBody_unended (show '\n' ∉ ['\r'] by decide) (by decide) (some (m + 1))
    rw [hreturn] at hend
    exact hend
  · have hblank := nextBody_line (show '\n' ∉ ['\r'] by decide) (some (m + 1)) begun
    rw [hreturn] at hblank
    simp only [if_pos (Nat.le_of_lt_succ hlt)] at hblank
    exact hblank

/-- A frame is its line with the length, a carriage return and a line feed, and the body. -/
theorem frameOf_eq (v : Value) : frameOf v =
    lineBytes (lengthLine (bytesOf v.text).length) ++ 13 :: 10 :: bytesOf v.text := by
  rw [frameOf, frame_eq, Block.bytes, headOf, List.flatMap_singleton, List.append_assoc]
  rfl

/-- What is left of a frame that is cut off. -/
theorem front_cases {n : Nat} {body front behind : List UInt8}
    (h : lineBytes (lengthLine n) ++ 13 :: 10 :: body = front ++ behind) (hbehind : behind ≠ []) :
    (∃ k ≤ (lengthLine n).length, front = (encode (lengthLine n)).take k ∧ front.length = k) ∨
      ∃ part, front = lineBytes (lengthLine n) ++ part ∧ (part = [] ∨ part = [13] ∨
        ∃ begun, part = 13 :: 10 :: begun ∧ begun.length < body.length) := by
  have hlength : (encode (lengthLine n)).length = (lengthLine n).length := by
    rw [Json.encode_ascii fun c hc => (lengthLine_ascii n c hc).1, List.length_map]
  rcases List.append_eq_append_iff.1 h with ⟨part, hfront, hrest⟩ | ⟨more, hline, -⟩
  · refine .inr ⟨part, hfront, ?_⟩
    rcases part with _ | ⟨b, _ | ⟨c, begun⟩⟩
    · exact .inl rfl
    · exact .inr (.inl (congrArg (· :: []) (List.cons.inj hrest).1.symm))
    · simp only [List.cons_append, List.cons.injEq] at hrest
      obtain ⟨rfl, rfl, rfl⟩ := hrest
      have := List.length_pos_iff.2 hbehind
      exact .inr (.inr ⟨begun, rfl, by rw [List.length_append]; omega⟩)
  · rw [lineBytes_eq] at hline
    rcases List.eq_nil_or_concat more with rfl | ⟨most, b, rfl⟩
    · refine .inr ⟨[], ?_, .inl rfl⟩
      rw [lineBytes_eq, hline, List.append_nil, List.append_nil]
    · rw [List.concat_eq_append, ← List.append_assoc] at hline
      obtain ⟨hline, -⟩ := List.append_inj' hline rfl
      refine .inl ⟨front.length, ?_, ?_, rfl⟩
      · rw [← hlength, hline, List.length_append]
        exact Nat.le_add_right _ _
      · rw [hline, List.take_left']
        rfl

/-- **Where a stream stops inside a frame.** Of a frame that is cut off anywhere, the beginning is
taken for a length that is none if the cut is right behind the name of the header, with the blank or
without it; for the end of the stream between two messages if it is anywhere else up to the end of the
line with the length; and for a body that is not all there if it is behind that line. -/
theorem next_truncated {v : Value} (hsize : (bytesOf v.text).length ≤ Text.maxCount)
    (d : Decoder α) {front behind : List UInt8} (hcut : frameOf v = front ++ behind)
    (hfront : front ≠ []) (hbehind : behind ≠ []) :
    next d front =
      if front.length = 15 ∨ front.length = 16 then (.error (.badLength ""), [])
      else if front.length ≤ (lineBytes (lengthLine (bytesOf v.text).length)).length then
        (.ok none, [])
      else (.error (.missing (bytesOf v.text).length), []) := by
  have hbody := bytesOf_text_ne_nil v
  rw [frameOf_eq] at hcut
  generalize bytesOf v.text = body at hsize hcut hbody ⊢
  have hline : (lineBytes (lengthLine body.length)).length = (lengthLine body.length).length + 1 := by
    rw [lineBytes_eq, Json.encode_ascii fun c hc => (lengthLine_ascii _ c hc).1, List.length_append,
      List.length_map, List.length_singleton]
  have hlong := length_lengthLine body.length
  rcases front_cases hcut hbehind with ⟨k, hk, hfrontk, hlength⟩ | ⟨part, hpart, hcases⟩
  · -- inside the line
    have hpos : 0 < k := hlength ▸ List.length_pos_iff.2 hfront
    have hnext := nextBody_take hsize hpos hk
    rw [← hfrontk] at hnext
    rw [next, hnext, hlength, if_pos (show k ≤ (lineBytes _).length by omega)]
    split_ifs <;> rfl
  · -- behind it
    have hnot : ¬(front.length = 15 ∨ front.length = 16) := by
      rw [hpart, List.length_append]
      omega
    have hnext : nextBody none front = nextBody (some body.length) part := by
      rw [hpart, nextBody_lengthLine hsize]
    rw [next, hnext, if_neg hnot]
    rcases hcases with rfl | hcases
    · rw [List.append_nil] at hpart
      rw [if_pos (Nat.le_of_eq (congrArg List.length hpart)), nextBody]
    · have hshort := nextBody_missing hcases (List.length_pos_iff.2 hbody)
      have hbehindLine : ¬front.length ≤ (lineBytes (lengthLine body.length)).length := by
        rw [hpart, List.length_append]
        rcases hcases with rfl | ⟨begun, rfl, -⟩ <;> simp
      rw [hshort, if_neg hbehindLine]

/-- A message cut off behind the line with its length is taken for no message at all. -/
theorem next_truncated_lint :
    let v := (HostMessage.command "lint" []).toJson
    let front := bytesOf "Content-Length: 28\r\n"
    (∃ behind, frameOf v = front ++ behind ∧ behind ≠ []) ∧
      next HostMessage.decode front = (.ok none, []) := by
  intro v front
  have hsize : (bytesOf v.text).length ≤ Text.maxCount := by decide +kernel
  have hcut : frameOf v = front ++ (frameOf v).drop 20 := by decide +kernel
  have hbehind : (frameOf v).drop 20 ≠ [] := by decide +kernel
  have hnext := next_truncated hsize HostMessage.decode hcut (by decide +kernel) hbehind
  rw [if_neg (by decide +kernel), if_pos (by decide +kernel)] at hnext
  exact ⟨⟨_, hcut, hbehind⟩, hnext⟩

end CodeEditing.Worker
