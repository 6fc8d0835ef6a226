import CodeEditing.Proofs.Json.Scalars
import CodeEditing.Proofs.Json.Spelling

/-! Values are read back as they were written.

Where the text of a value stands, a reader finds a node that spells the value and goes on behind it
(`readsBack`), if the numbers in the value are whole and fit 64 bits and no part of a number comes
next. So who decodes such nodes decodes the text (`decodeText_print`). -/
namespace CodeEditing.Json

/-! ### The numbers in a value -/

/-- A whole number of 64 bits, with a sign or without. -/
def Number.Fits : Number → Prop
  | whole n => -(signBit : Int) ≤ n ∧ n ≤ maxWhole
  | real _ => False

instance : DecidablePred Number.Fits
  | .whole n => inferInstanceAs (Decidable (-(signBit : Int) ≤ n ∧ n ≤ maxWhole))
  | .real _ => inferInstanceAs (Decidable False)

namespace Value

mutual

/-- The numbers in a value. -/
def numbers : Value → List Number
  | number n => [n]
  | array items => numbersOfItems items
  | object ms => numbersOfMembers ms
  | null | bool _ | string _ => []

def numbersOfItems : List Value → List Number
  | [] => []
  | v :: vs => v.numbers ++ numbersOfItems vs

def numbersOfMembers : List (String × Value) → List Number
  | [] => []
  | (_, v) :: ms => v.numbers ++ numbersOfMembers ms

end

end Value

/-! ### Reading -/

theorem skipSpace_cons {b : UInt8} (h : Cursor.isSpace b = false) (offset : Nat)
    (bs : List UInt8) : Cursor.skipSpace ⟨offset, b :: bs⟩ = ⟨offset, b :: bs⟩ := by
  have hnone : (b :: bs).takeWhile Cursor.isSpace = [] :=
    List.takeWhile_cons_of_neg (by simp [h])
  simp only [Cursor.skipSpace, hnone, List.length_nil, List.drop_zero, Nat.add_zero]

/-- A reader finds a node that spells a value and goes on where `rest` begins. -/
def Found.Spells (found : Found) (v : Value) (rest : List UInt8) : Prop :=
  found.node.Spells v ∧ ∃ stop, found.behind = some ⟨stop, rest⟩

/-- A reader finds all of a list, and goes on where `rest` begins. -/
def FoundParts.Ends (p : FoundParts α) (rest : List UInt8) : Prop :=
  p.ending = none ∧ ∃ stop, p.behind = some ⟨stop, rest⟩

def FoundParts.SpellItems (p : FoundParts Node) (vs : List Value) (rest : List UInt8) : Prop :=
  Node.SpellItems p.parts vs ∧ p.Ends rest

def FoundParts.SpellMembers (p : FoundParts (MemberKey × Node)) (ms : List (String × Value))
    (rest : List UInt8) : Prop :=
  Node.SpellMembers p.parts ms ∧ p.Ends rest

/-! ### One byte at a time

What the reader does with a value that begins with a given byte. -/

section
variable (fuel offset : Nat) (bs : List UInt8)

theorem readNode_quote : readNode (fuel + 1) ⟨offset, byte '"' :: bs⟩ =
    match readString ⟨offset + 1, bs⟩ with
    | .error e => ⟨.broken offset (some (byte '"')) e, none⟩
    | .ok (s, behind) => ⟨.string ⟨offset, behind.offset⟩ s, some behind⟩ := by
  rfl

theorem readNode_bracket : readNode (fuel + 1) ⟨offset, byte '[' :: bs⟩ =
    let found := readItems fuel true ⟨offset + 1, bs⟩
    ⟨.array ⟨offset, closeOf found.behind offset⟩ found.parts found.ending, found.behind⟩ := by
  rfl

theorem readNode_brace : readNode (fuel + 1) ⟨offset, byte '\x7b' :: bs⟩ =
    let found := readMembers fuel true ⟨offset + 1, bs⟩
    ⟨.object ⟨offset, closeOf found.behind offset⟩ found.parts found.ending, found.behind⟩ := by
  rfl

theorem readNode_minus : readNode (fuel + 1) ⟨offset, byte '-' :: bs⟩ =
    match readNumber true ⟨offset + 1, bs⟩ with
    | .error e => ⟨.broken offset (some (byte '-')) e, none⟩
    | .ok (t, behind) => ⟨.number ⟨offset, t.stop⟩ t.number, some behind⟩ := by
  rfl

/-- A digit begins nothing but a number. -/
theorem isDigitByte_ne {b c : UInt8} (hb : isDigitByte b = true) (hc : isDigitByte c = false) :
    b ≠ c := by
  rintro rfl
  exact absurd (hb.symm.trans hc) (by decide)

theorem isSpace_digit {b : UInt8} (h : isDigitByte b = true) : Cursor.isSpace b = false := by
  have hne : ∀ c, isDigitByte c = false → (b == c) = false := fun c hc =>
    beq_eq_false_iff_ne.2 (isDigitByte_ne h hc)
  rw [Cursor.isSpace, hne _ (by decide), hne _ (by decide), hne _ (by decide), hne _ (by decide)]
  rfl

theorem readNode_digit {b : UInt8} (hb : isDigitByte b = true) :
    readNode (fuel + 1) ⟨offset, b :: bs⟩ =
      match readNumber false ⟨offset, b :: bs⟩ with
      | .error e => ⟨.broken offset (some b) e, none⟩
      | .ok (t, behind) => ⟨.number ⟨offset, t.stop⟩ t.number, some behind⟩ := by
  rw [readNode]
  cases hread : readNumber false ⟨offset, b :: bs⟩ <;>
    simp only [skipSpace_cons (isSpace_digit hb), hb, hread, if_true,
      if_neg (isDigitByte_ne hb (show isDigitByte (byte 'n') = false by decide)),
      if_neg (isDigitByte_ne hb (show isDigitByte (byte 't') = false by decide)),
      if_neg (isDigitByte_ne hb (show isDigitByte (byte 'f') = false by decide)),
      if_neg (isDigitByte_ne hb (show isDigitByte (byte '-') = false by decide))]

end

/-! ### Numbers -/

theorem encode_digitsOf_cons (n : Nat) :
    ∃ b bs, encode (digitsOf n) = b :: bs ∧ isDigitByte b = true := by
  have hpos : 0 < (encode (digitsOf n)).length :=
    Nat.lt_of_lt_of_le Nat.length_toDigits_pos (length_le_encode _)
  obtain ⟨b, bs, hb⟩ := List.exists_cons_of_ne_nil (List.length_pos_iff.1 hpos)
  exact ⟨b, bs, hb, isDigitByte_of_mem_encode (hb ▸ List.mem_cons_self)⟩

theorem readNode_number {n : Number} (h : n.Fits) (fuel offset : Nat) {rest : List UInt8}
    (hrest : EndsNumber rest) :
    (readNode (fuel + 1) ⟨offset, encode n.print ++ rest⟩).Spells (.number n) rest := by
  match n, h with
  | .whole (.ofNat n), h =>
    have hn : n ≤ maxWhole := Int.ofNat_le.1 h.2
    obtain ⟨b, bs, hb, hdigit⟩ := encode_digitsOf_cons n
    obtain ⟨stop, hread⟩ := readNumber_digitsOf false n offset hrest
    rw [Number.print, printInt, hb, List.cons_append, readNode_digit _ _ _ hdigit,
      ← List.cons_append, ← hb, hread]
    simp only [number_digitsOf hn]
    exact ⟨.number _ _, stop, rfl⟩
  | .whole (.negSucc n), h =>
    have hn : n + 1 ≤ signBit := by
      have hlow := h.1
      rw [Int.negSucc_eq] at hlow
      omega
    obtain ⟨stop, hread⟩ := readNumber_digitsOf true (n + 1) (offset + 1) hrest
    have hminus : encode (Number.whole (.negSucc n)).print =
        byte '-' :: encode (digitsOf (n + 1)) := rfl
    rw [hminus, List.cons_append, readNode_minus, hread]
    simp only [number_negative (Nat.succ_pos n) hn]
    exact ⟨.number _ _, stop, rfl⟩

/-! ### What a value begins with -/

theorem print_decimal_ne_nil (d : Decimal) : d.print ≠ [] := by
  unfold Decimal.print
  dsimp only
  split
  · simp
  · split
    · simp
    · split
      · simp
      · split <;> simp

/-- No value is written as nothing. -/
theorem print_ne_nil (v : Value) : v.print ≠ [] := by
  cases v with
  | null => decide
  | bool b => cases b <;> decide
  | string s => exact List.cons_ne_nil _ _
  | array items => exact List.cons_ne_nil _ _
  | object ms => exact List.cons_ne_nil _ _
  | number n =>
    cases n with
    | whole i =>
      cases i with
      | ofNat n => exact Nat.toDigits_ne_nil
      | negSucc n => exact List.cons_ne_nil _ _
    | real bits =>
      rw [Value.print]
      unfold Number.print printReal
      dsimp only
      split
      · simp
      · exact List.append_ne_nil_of_right_ne_nil _ (print_decimal_ne_nil _)

/-- The text of a value begins with no blank and no closing bracket. -/
theorem encode_print_cons {v : Value} (h : ∀ x ∈ v.numbers, x.Fits) :
    ∃ b bs, encode v.print = b :: bs ∧ Cursor.isSpace b = false ∧ b ≠ byte ']' := by
  cases v with
  | null => exact ⟨_, _, rfl, by decide, by decide⟩
  | bool b => cases b <;> exact ⟨_, _, rfl, by decide, by decide⟩
  | string s => exact ⟨_, _, rfl, by decide, by decide⟩
  | array vs => exact ⟨_, _, rfl, by decide, by decide⟩
  | object ms => exact ⟨_, _, rfl, by decide, by decide⟩
  | number n =>
    match n, h n List.mem_cons_self with
    | .whole (.ofNat n), _ =>
      obtain ⟨b, bs, hb, hdigit⟩ := encode_digitsOf_cons n
      exact ⟨b, bs, hb, isSpace_digit hdigit, isDigitByte_ne hdigit (by decide)⟩
    | .whole (.negSucc n), _ => exact ⟨_, _, rfl, by decide, by decide⟩

/-! ### Strings -/

theorem encode_printString (s : String) :
    encode (printString s) = byte '"' :: (encode (s.toList.flatMap escapeChar) ++ [byte '"']) := by
  rw [printString, List.cons_append, encode_cons, encode_append]
  rfl

theorem readNode_string (s : String) (fuel offset : Nat) (rest : List UInt8) :
    (readNode (fuel + 1) ⟨offset, encode (printString s) ++ rest⟩).Spells (.string s) rest := by
  obtain ⟨stop, hread⟩ := readString_printed s (offset + 1) rest
  rw [encode_printString, List.cons_append, List.append_assoc, List.singleton_append,
    readNode_quote, hread]
  exact ⟨.string _ _, stop, rfl⟩

/-! ### Lists and objects -/

/-- The items of a list from one on that was found. -/
def Found.withItems (found : Found) (fuel : Nat) : FoundParts Node :=
  match found.behind with
  | none => ⟨[found.node], none, none⟩
  | some c => (readItems fuel false c).add found.node

/-- The members of an object from one on whose value was found. -/
def Found.withMembers (found : Found) (key : MemberKey) (fuel : Nat) :
    FoundParts (MemberKey × Node) :=
  match found.behind with
  | none => ⟨[(key, found.node)], none, none⟩
  | some c => (readMembers fuel false c).add (key, found.node)

section
variable {fuel offset : Nat} {b : UInt8} {bs rest behind : List UInt8}

theorem readItems_first (hspace : Cursor.isSpace b = false) (hclose : b ≠ byte ']') :
    readItems (fuel + 1) true ⟨offset, b :: bs⟩ =
      (readNode fuel ⟨offset, b :: bs⟩).withItems fuel := by
  rw [readItems]
  simp only [skipSpace_cons hspace, if_neg hclose, if_true]
  rfl

theorem readItems_comma (hspace : Cursor.isSpace b = false) (hclose : b ≠ byte ']') :
    readItems (fuel + 1) false ⟨offset, byte ',' :: b :: bs⟩ =
      (readNode fuel ⟨offset + 1, b :: bs⟩).withItems fuel := by
  rw [readItems]
  simp only [skipSpace_cons (show Cursor.isSpace (byte ',') = false by decide),
    skipSpace_cons hspace, if_neg hclose, if_true,
    if_neg (show byte ',' ≠ byte ']' by decide), Bool.false_eq_true, if_false]
  rfl

theorem readMembers_first (fuel offset : Nat) (name : String) (more : List UInt8) :
    ∃ stop givenUp, readMembers (fuel + 1) true
        ⟨offset, encode (printString name) ++ byte ':' :: more⟩ =
      (readNode fuel ⟨givenUp + 1, more⟩).withMembers ⟨.ok name, none, stop, givenUp⟩ fuel := by
  obtain ⟨stop, hread⟩ := readString_printed name (offset + 1) (byte ':' :: more)
  refine ⟨stop, stop, ?_⟩
  rw [encode_printString, List.cons_append, List.append_assoc, List.singleton_append, readMembers]
  simp only [skipSpace_cons (show Cursor.isSpace (byte '"') = false by decide),
    skipSpace_cons (show Cursor.isSpace (byte ':') = false by decide), hread, if_true,
    if_neg (show byte '"' ≠ byte '\x7d' by decide)]
  rfl

theorem readMembers_comma (fuel offset : Nat) (name : String) (more : List UInt8) :
    ∃ stop givenUp, readMembers (fuel + 1) false
        ⟨offset, byte ',' :: (encode (printString name) ++ byte ':' :: more)⟩ =
      (readNode fuel ⟨givenUp + 1, more⟩).withMembers ⟨.ok name, none, stop, givenUp⟩ fuel := by
  obtain ⟨stop, hread⟩ := readString_printed name (offset + 2) (byte ':' :: more)
  refine ⟨stop, stop, ?_⟩
  rw [encode_printString, List.cons_append, List.append_assoc, List.singleton_append, readMembers]
  simp only [skipSpace_cons (show Cursor.isSpace (byte ',') = false by decide),
    skipSpace_cons (show Cursor.isSpace (byte '"') = false by decide),
    skipSpace_cons (show Cursor.isSpace (byte ':') = false by decide), hread, if_true,
    if_neg (show byte ',' ≠ byte '\x7d' by decide), Bool.false_eq_true, if_false]
  rfl

theorem Found.Spells.items {found : Found} {v : Value} {vs : List Value} (h : found.Spells v rest)
    (hs : ∀ stop, (readItems fuel false ⟨stop, rest⟩).SpellItems vs behind) :
    (found.withItems fuel).SpellItems (v :: vs) behind := by
  obtain ⟨hnode, stop, hstop⟩ := h
  obtain ⟨hparts, hend⟩ := hs stop
  rw [withItems, hstop]
  exact ⟨.cons hnode hparts, hend⟩

theorem Found.Spells.members {found : Found} {v : Value} {ms : List (String × Value)}
    (h : found.Spells v rest) (name : String) (place givenUp : Nat)
    (hs : ∀ stop, (readMembers fuel false ⟨stop, rest⟩).SpellMembers ms behind) :
    (found.withMembers ⟨.ok name, none, place, givenUp⟩ fuel).SpellMembers ((name, v) :: ms)
      behind := by
  obtain ⟨hnode, stop, hstop⟩ := h
  obtain ⟨hparts, hend⟩ := hs stop
  rw [withMembers, hstop]
  exact ⟨.cons name place givenUp hnode hparts, hend⟩

end

theorem readNode_array {fuel offset : Nat} {rest : List UInt8} {vs : List Value} (bs : List UInt8)
    (h : (readItems fuel true ⟨offset + 1, bs⟩).SpellItems vs rest) :
    (readNode (fuel + 1) ⟨offset, byte '[' :: bs⟩).Spells (.array vs) rest := by
  obtain ⟨hparts, hending, hbehind⟩ := h
  rw [readNode_bracket]
  dsimp only
  rw [hending]
  exact ⟨.array _ hparts, hbehind⟩

theorem readNode_object {fuel offset : Nat} {rest : List UInt8} {ms : List (String × Value)}
    (bs : List UInt8)
    (h : (readMembers fuel true ⟨offset + 1, bs⟩).SpellMembers ms rest) :
    (readNode (fuel + 1) ⟨offset, byte '\x7b' :: bs⟩).Spells (.object ms) rest := by
  obtain ⟨hparts, hending, hbehind⟩ := h
  rw [readNode_brace]
  dsimp only
  rw [hending]
  exact ⟨.object _ hparts, hbehind⟩

/-- The items of a list from the second on, with its closing bracket. -/
def itemsBehind : List Value → List Char
  | [] => [']']
  | v :: vs => ',' :: (v.print ++ itemsBehind vs)

/-- The members of an object from the second on, with its closing bracket. -/
def membersBehind : List (String × Value) → List Char
  | [] => ['\x7d']
  | (k, v) :: ms => ',' :: (printString k ++ ':' :: (v.print ++ membersBehind ms))

theorem itemsBehind_length_pos (vs : List Value) : 0 < (itemsBehind vs).length := by
  cases vs <;> exact Nat.zero_lt_succ _

theorem membersBehind_length_pos (ms : List (String × Value)) : 0 < (membersBehind ms).length := by
  cases ms <;> exact Nat.zero_lt_succ _

theorem endsNumber_itemsBehind (vs : List Value) (rest : List UInt8) :
    EndsNumber (encode (itemsBehind vs) ++ rest) := by
  cases vs <;> rintro _ ⟨⟩ <;> decide

theorem endsNumber_membersBehind (ms : List (String × Value)) (rest : List UInt8) :
    EndsNumber (encode (membersBehind ms) ++ rest) := by
  cases ms <;> rintro _ ⟨⟩ <;> decide

theorem print_array_cons (v : Value) (vs : List Value) :
    (Value.array (v :: vs)).print = '[' :: (v.print ++ itemsBehind vs) := by
  have hitems : Value.printItems (v :: vs) ++ [']'] = v.print ++ itemsBehind vs := by
    induction vs generalizing v with
    | nil => rw [Value.printItems, itemsBehind]
    | cons w vs ih =>
      rw [Value.printItems, List.append_assoc, List.cons_append, ih, itemsBehind]
      exact List.cons_ne_nil _ _
  rw [Value.print, List.cons_append, hitems]

theorem print_object_cons (k : String) (v : Value) (ms : List (String × Value)) :
    (Value.object ((k, v) :: ms)).print =
      '\x7b' :: (printString k ++ ':' :: (v.print ++ membersBehind ms)) := by
  have hmembers : Value.printMembers ((k, v) :: ms) ++ ['\x7d'] =
      printString k ++ ':' :: (v.print ++ membersBehind ms) := by
    induction ms generalizing k v with
    | nil => rw [Value.printMembers, membersBehind, List.append_assoc, List.cons_append]
    | cons m ms ih =>
      obtain ⟨l, w⟩ := m
      rw [Value.printMembers, List.append_assoc, List.cons_append, ih, membersBehind]
      · simp only [List.append_assoc, List.cons_append]
      · exact List.cons_ne_nil _ _
  rw [Value.print, List.cons_append, hmembers]

theorem print_length_pos {v : Value} (h : ∀ x ∈ v.numbers, x.Fits) : 0 < v.print.length := by
  obtain ⟨b, bs, hb, -⟩ := encode_print_cons h
  refine List.length_pos_iff.2 fun hnil => ?_
  rw [hnil] at hb
  cases hb

/-- A value is read back where `rest` follows it. -/
def ReadsBack (fuel : Nat) (v : Value) (rest : List UInt8) : Prop :=
  ∀ offset, (readNode fuel ⟨offset, encode v.print ++ rest⟩).Spells v rest

/-- The items from the second on are read back. -/
def ItemsReadBack (fuel : Nat) (vs : List Value) (rest : List UInt8) : Prop :=
  ∀ offset, (readItems fuel false ⟨offset, encode (itemsBehind vs) ++ rest⟩).SpellItems vs rest

/-- The members from the second on are read back. -/
def MembersReadBack (fuel : Nat) (ms : List (String × Value)) (rest : List UInt8) : Prop :=
  ∀ offset,
    (readMembers fuel false ⟨offset, encode (membersBehind ms) ++ rest⟩).SpellMembers ms rest

section
variable {fuel : Nat} {v : Value} {rest : List UInt8}

theorem ReadsBack.array {vs : List Value} (h : ∀ x ∈ v.numbers, x.Fits)
    (hv : ReadsBack fuel v (encode (itemsBehind vs) ++ rest)) (hvs : ItemsReadBack fuel vs rest) :
    ReadsBack (fuel + 2) (.array (v :: vs)) rest := by
  intro offset
  obtain ⟨b, bs, hb, hspace, hclose⟩ := encode_print_cons h
  have hitems := (hv (offset + 1)).items hvs
  rw [print_array_cons]
  refine readNode_array (encode (v.print ++ itemsBehind vs) ++ rest) ?_
  rw [encode_append, List.append_assoc]
  rw [hb] at hitems ⊢
  exact (readItems_first hspace hclose).symm ▸ hitems

theorem ItemsReadBack.cons {vs : List Value} (h : ∀ x ∈ v.numbers, x.Fits)
    (hv : ReadsBack fuel v (encode (itemsBehind vs) ++ rest)) (hvs : ItemsReadBack fuel vs rest) :
    ItemsReadBack (fuel + 1) (v :: vs) rest := by
  intro offset
  obtain ⟨b, bs, hb, hspace, hclose⟩ := encode_print_cons h
  have hitems := (hv (offset + 1)).items hvs
  have hbytes : encode (itemsBehind (v :: vs)) ++ rest =
      byte ',' :: (encode v.print ++ (encode (itemsBehind vs) ++ rest)) := by
    rw [itemsBehind, encode_cons, encode_append, List.append_assoc, List.append_assoc]
    rfl
  rw [hbytes]
  rw [hb] at hitems ⊢
  exact (readItems_comma hspace hclose).symm ▸ hitems

variable {ms : List (String × Value)} (name : String)

theorem encode_member (front : Char) (h : front.toNat < 128) :
    encode (front :: (printString name ++ ':' :: (v.print ++ membersBehind ms))) ++ rest =
      byte front :: (encode (printString name) ++
        byte ':' :: (encode v.print ++ (encode (membersBehind ms) ++ rest))) := by
  rw [encode_cons, utf8EncodeChar_ascii h, encode_append, encode_cons, encode_append]
  simp only [List.append_assoc, List.cons_append]
  rfl

theorem ReadsBack.object (hv : ReadsBack fuel v (encode (membersBehind ms) ++ rest))
    (hms : MembersReadBack fuel ms rest) :
    ReadsBack (fuel + 2) (.object ((name, v) :: ms)) rest := by
  intro offset
  obtain ⟨place, givenUp, hfirst⟩ := readMembers_first fuel (offset + 1) name
    (encode v.print ++ (encode (membersBehind ms) ++ rest))
  have hmembers := (hv (givenUp + 1)).members name place givenUp hms
  rw [print_object_cons, encode_member name '\x7b' (by decide)]
  exact readNode_object _ (hfirst ▸ hmembers)

theorem MembersReadBack.cons (hv : ReadsBack fuel v (encode (membersBehind ms) ++ rest))
    (hms : MembersReadBack fuel ms rest) : MembersReadBack (fuel + 1) ((name, v) :: ms) rest := by
  intro offset
  obtain ⟨place, givenUp, hcomma⟩ := readMembers_comma fuel offset name
    (encode v.print ++ (encode (membersBehind ms) ++ rest))
  have hmembers := (hv (givenUp + 1)).members name place givenUp hms
  rw [membersBehind, encode_member name ',' (by decide), hcomma]
  exact hmembers

end

/-! Every call of a reader takes a byte, so fuel for the text of a value is fuel for its parts: a
list takes two bytes, its bracket and one of its first item, before the items behind it are read. -/

mutual

/-- **A value is read back as it was written**, whatever follows it. -/
theorem readsBack (v : Value) (h : ∀ x ∈ v.numbers, x.Fits) {fuel : Nat}
    (hfuel : v.print.length ≤ fuel) {rest : List UInt8} (hrest : EndsNumber rest) :
    ReadsBack fuel v rest := by
  obtain ⟨fuel, rfl⟩ := Nat.exists_eq_succ_of_ne_zero
    (Nat.ne_of_gt (Nat.lt_of_lt_of_le (print_length_pos h) hfuel))
  match v with
  | .null => exact fun _ => ⟨.null _, _, rfl⟩
  | .bool true => exact fun _ => ⟨.bool _ _, _, rfl⟩
  | .bool false => exact fun _ => ⟨.bool _ _, _, rfl⟩
  | .number n => exact fun _ => readNode_number (h n List.mem_cons_self) fuel _ hrest
  | .string s => exact fun _ => readNode_string s fuel _ rest
  | .array [] =>
    obtain ⟨fuel, rfl⟩ :=
      Nat.exists_eq_succ_of_ne_zero (Nat.ne_of_gt (Nat.lt_of_succ_lt_succ hfuel))
    exact fun _ => readNode_array _ ⟨.nil, rfl, _, rfl⟩
  | .array (v :: vs) =>
    obtain ⟨hv, hvs⟩ := List.forall_mem_append.1 h
    have hpos := print_length_pos hv
    have hbehind := itemsBehind_length_pos vs
    rw [print_array_cons] at hfuel
    simp only [List.length_append, List.length_cons] at hfuel
    obtain ⟨fuel, rfl⟩ := Nat.exists_eq_succ_of_ne_zero (show fuel ≠ 0 by omega)
    exact .array hv (readsBack v hv (by omega) (endsNumber_itemsBehind vs rest))
      (itemsReadBack vs hvs (by omega) rest)
  | .object [] =>
    obtain ⟨fuel, rfl⟩ :=
      Nat.exists_eq_succ_of_ne_zero (Nat.ne_of_gt (Nat.lt_of_succ_lt_succ hfuel))
    exact fun _ => readNode_object _ ⟨.nil, rfl, _, rfl⟩
  | .object ((name, v) :: ms) =>
    obtain ⟨hv, hms⟩ := List.forall_mem_append.1 h
    have hpos := print_length_pos hv
    have hbehind := membersBehind_length_pos ms
    rw [print_object_cons] at hfuel
    simp only [List.length_append, List.length_cons] at hfuel
    obtain ⟨fuel, rfl⟩ := Nat.exists_eq_succ_of_ne_zero (show fuel ≠ 0 by omega)
    exact .object name (readsBack v hv (by omega) (endsNumber_membersBehind ms rest))
      (membersReadBack ms hms (by omega) rest)

theorem itemsReadBack (vs : List Value) (h : ∀ x ∈ Value.numbersOfItems vs, x.Fits) {fuel : Nat}
    (hfuel : (itemsBehind vs).length ≤ fuel) (rest : List UInt8) : ItemsReadBack fuel vs rest := by
  obtain ⟨fuel, rfl⟩ := Nat.exists_eq_succ_of_ne_zero
    (Nat.ne_of_gt (Nat.lt_of_lt_of_le (itemsBehind_length_pos vs) hfuel))
  match vs with
  | [] => exact fun _ => ⟨.nil, rfl, _, rfl⟩
  | v :: vs =>
    obtain ⟨hv, hvs⟩ := List.forall_mem_append.1 h
    simp only [itemsBehind, List.length_append, List.length_cons] at hfuel
    exact .cons hv (readsBack v hv (by omega) (endsNumber_itemsBehind vs rest))
      (itemsReadBack vs hvs (by omega) rest)

theorem membersReadBack (ms : List (String × Value))
    (h : ∀ x ∈ Value.numbersOfMembers ms, x.Fits) {fuel : Nat}
    (hfuel : (membersBehind ms).length ≤ fuel) (rest : List UInt8) :
    MembersReadBack fuel ms rest := by
  obtain ⟨fuel, rfl⟩ := Nat.exists_eq_succ_of_ne_zero
    (Nat.ne_of_gt (Nat.lt_of_lt_of_le (membersBehind_length_pos ms) hfuel))
  match ms with
  | [] => exact fun _ => ⟨.nil, rfl, _, rfl⟩
  | (name, v) :: ms =>
    obtain ⟨hv, hms⟩ := List.forall_mem_append.1 h
    simp only [membersBehind, List.length_append, List.length_cons] at hfuel
    exact .cons name (readsBack v hv (by omega) (endsNumber_membersBehind ms rest))
      (membersReadBack ms hms (by omega) rest)

end

/-- **A text that holds a value alone is taken as the value's node.** -/
theorem decodeText_print {α : Type} {d : Decoder α} {a : α} {v : Value}
    (h : ∀ x ∈ v.numbers, x.Fits) (hd : ∀ n : Node, n.Spells v → d .text n = .ok a) :
    decodeText d (encode v.print) = .ok a := by
  have hfuel : v.print.length ≤ 2 * (encode v.print).length + 2 := by
    have := length_le_encode v.print
    omega
  have hend : EndsNumber [] := fun _ h => nomatch h
  obtain ⟨hnode, stop, hstop⟩ := readsBack v h hfuel hend 0
  rw [List.append_nil] at hnode hstop
  simp only [decodeText, readText, hd _ hnode, hstop]
  rfl

end CodeEditing.Json
