import CodeEditing.Json.Problem

/-! Values of a given shape.

A `Decoder` takes a value of its type from a node. It is used in three ways (`Origin`): on a text
while it is read, where what is wrong shows in the order of the text and has a place; on a value
already held; and on parts of a text that were taken over before their shape was known.

A record (`Record`) is an object with known fields, or a list of them in their order. Unknown
fields are passed over, a field given twice is a mismatch, and so is the lack of a required one. -/
namespace CodeEditing.Json

inductive Origin where
  | text
  | held
  | kept
  deriving Repr, DecidableEq

abbrev Decoder (α : Type) := Origin → Node → Except Problem α

namespace Decoder

/-! ### Mismatches and their places -/

/-- A mismatch at an offset, which counts in a text alone. -/
def mismatch (origin : Origin) (m : Mismatch) (offset : Nat) : Except Problem α :=
  .error (.mismatch m (if origin = .text then some offset else none))

def flaw (f : Flaw) : Except Problem α := .error (.flaw f)

/-- Refuses a node that is of another type. A list or object is refused at its first byte and
everything else behind its last. -/
def refuse (origin : Origin) (wanted : String) : Node → Except Problem α
  | .null p => mismatch origin (.wrongType .null wanted) p.stop
  | .bool p b => mismatch origin (.wrongType (.bool b) wanted) p.stop
  | .number _ (.error f) => flaw f
  | .number p (.ok n) => mismatch origin (.wrongType (.ofNumber n) wanted) p.stop
  | .string _ (.error f) => flaw f
  | .string p (.ok s) => mismatch origin (.wrongType (.string s) wanted) p.stop
  | .array p _ _ => mismatch origin (.wrongType .list wanted) p.start
  | .object p _ _ => mismatch origin (.wrongType .object wanted) p.start
  | .broken _ _ b => flaw b.taking

/-! ### Plain values -/

def string (wanted : String) : Decoder String
  | _, .string _ (.ok s) => .ok s
  | origin, n => refuse origin wanted n

def aString : Decoder String := string "a string"

def aBool : Decoder Bool
  | _, .bool _ b => .ok b
  | origin, n => refuse origin "a boolean" n

/-- A whole number that is not negative. -/
def natural (wanted : String) : Decoder Nat
  | _, .number _ (.ok (.whole (.ofNat n))) => .ok n
  | origin, .number p (.ok (.whole n)) => mismatch origin (.wrongValue (.whole n) wanted) p.stop
  | origin, n => refuse origin wanted n

/-- A count, a row or a column. -/
def aSize : Decoder Nat := natural "usize"

/-- Any value. -/
def any : Decoder Value
  | _, n =>
    match n.value Node.maxDepth with
    | .ok v => .ok v
    | .error f => flaw f

/-- Nothing but null. -/
def unit : Decoder Unit
  | _, .null _ => .ok ()
  | origin, n => refuse origin "unit" n

/-- What may follow the last part that is wanted: the end of the list, or in a text a flaw that is
told apart only by whether a comma comes before the closing bracket. -/
def afterLast (ending : Option Break) (more : List Node) : Except Problem Unit :=
  match more with
  | n :: _ => flaw ⟨.textAtEnd, n.start + 1⟩
  | [] =>
    match ending with
    | none => .ok ()
    | some b =>
      match b.taking.fault with
      | .endInList | .commaAtEnd => flaw b.taking
      | _ => flaw ⟨.textAtEnd, b.taking.offset⟩

/-- Decodes every node in turn. -/
def each (d : Decoder α) (origin : Origin) : List Node → Except Problem (List α)
  | [] => .ok []
  | n :: ns =>
    match d origin n with
    | .error e => .error e
    | .ok a => (each d origin ns).map (a :: ·)

/-- A list whose items have one shape. -/
def list (d : Decoder α) : Decoder (List α)
  | origin, .array _ items ending =>
    match each d origin items with
    | .error e => .error e
    | .ok as =>
      match ending with
      | some b => flaw b.taking
      | none => .ok as
  | origin, n => refuse origin "a sequence" n

/-- Decodes the value of every member in turn. -/
def eachMember (d : Decoder α) (origin : Origin) :
    List (MemberKey × Node) → Except Problem (List (String × α))
  | [] => .ok []
  | (k, n) :: ms =>
    match k.text, k.colon with
    | .error f, _ => flaw f
    | .ok _, some f => flaw f
    | .ok key, none =>
      match d origin n with
      | .error e => .error e
      | .ok a => (eachMember d origin ms).map ((key, a) :: ·)

/-- An object with free keys whose values have one shape. -/
def dictionary (d : Decoder α) : Decoder (List (String × α))
  | origin, .object _ members ending =>
    match eachMember d origin members with
    | .error e => .error e
    | .ok pairs =>
      match ending with
      | some b => flaw b.taking
      | none => .ok pairs
  | origin, n => refuse origin "a map" n

/-! ### One of several names -/

/-- The entry of a name. -/
def variant (known : List (String × α)) (origin : Origin) (name : String) (offset : Nat) :
    Except Problem α :=
  match known.lookup name with
  | some a => .ok a
  | none => mismatch origin (.unknownVariant name (known.map (·.1))) offset

/-- A name in an object of its own, with null for its value, as a text is read. -/
def variantMember (known : List (String × α)) (place : Extent) (ending : Option Break) :
    List (MemberKey × Node) → Except Problem α
  | [] =>
    match ending with
    | none => flaw ⟨.keyExpected, place.stop⟩
    | some b => flaw b.taking
  | (k, n) :: more =>
    match k.text with
    | .error f => flaw f
    | .ok name =>
      match variant known .text name k.stop, k.colon with
      | .error e, _ => .error e
      | .ok _, some f => flaw f
      | .ok a, none =>
        match unit .text n with
        | .error e => .error e
        | .ok () =>
          match more, ending with
          | [], none => .ok a
          | [], some b =>
            if b.taking.fault = .endInObject then flaw b.taking
            else flaw ⟨.valueExpected, b.taking.offset⟩
          | (_, m) :: _, _ => flaw ⟨.valueExpected, m.start⟩

/-- One of several names, alone or in an object with null for its value. In a text nothing but a
string or an object may stand there at all. -/
def oneOf (known : List (String × α)) : Decoder α
  | origin, .string p (.ok s) => variant known origin s p.stop
  | .text, .object p members ending => variantMember known p ending members
  | _, .object _ [(k, n)] none =>
    match k.text with
    | .error f => flaw f
    | .ok name =>
      match variant known .held name 0 with
      | .error e => .error e
      | .ok a => (unit .held n).map fun _ => a
  | origin, .object p _ _ => mismatch origin (.wrongValue .object "map with a single key") p.start
  | .text, .string _ (.error f) => flaw f
  | .text, .broken start first b =>
    match first with
    | none => flaw ⟨.endInValue, start⟩
    | some c => if c = byte '"' then flaw b.taking else flaw ⟨.valueExpected, start + 1⟩
  | .text, n => flaw ⟨.valueExpected, n.start + 1⟩
  | origin, n => refuse origin "string or map" n

end Decoder

/-! ### Records -/

/-- A field of a record and how it is filled in. -/
structure Field (σ : Type) where
  name : String
  required : Bool
  fill : Origin → Node → σ → Except Problem σ

/-- A required field. -/
def Field.needed (name : String) (d : Decoder α) (set : α → σ → σ) : Field σ :=
  ⟨name, true, fun origin n s => (d origin n).map (set · s)⟩

/-- A field that may be missing and then keeps what the record has anyway. -/
def Field.optional (name : String) (d : Decoder α) (set : α → σ → σ) : Field σ :=
  ⟨name, false, fun origin n s => (d origin n).map (set · s)⟩

/-- A record: what it is called, what it is before any field is filled in, and its fields. -/
structure Record (σ : Type) where
  title : String
  blank : σ
  fields : List (Field σ)

namespace Record

open Decoder (mismatch flaw refuse afterLast)

/-- How a record with too few parts is described. -/
def wanted (r : Record σ) : String :=
  match r.fields.length with
  | 1 => s!"{r.title} with 1 element"
  | n => s!"{r.title} with {n} elements"

/-- Fills in the fields a text gives by name. `given` holds the names so far. -/
def fillMembers (r : Record σ) (origin : Origin) (ending : Option Break) (given : List String)
    (s : σ) : List (MemberKey × Node) → Except Problem (List String × σ)
  | [] =>
    match ending with
    | some b => flaw b.taking
    | none => .ok (given, s)
  | (k, n) :: more =>
    match k.text with
    | .error f => flaw f
    | .ok name =>
      match r.fields.find? (·.name == name) with
      | none =>
        match k.colon with
        | some f => flaw f
        | none =>
          match n.passed with
          | some f => flaw f
          | none => fillMembers r origin ending given s more
      | some field =>
        if given.contains name then mismatch origin (.repeatedField name) k.givenUp
        else
          match k.colon with
          | some f => flaw f
          | none =>
            match field.fill origin n s with
            | .error e => .error e
            | .ok s => fillMembers r origin ending (name :: given) s more

/-- Fills in the fields a list gives by their order. Gives what is left of the list. -/
def fillItems (r : Record σ) (origin : Origin) (place : Extent) (ending : Option Break) (s : σ) :
    Nat → List (Field σ) → List Node → Except Problem (σ × List Node)
  | _, [], ns => .ok (s, ns)
  | index, f :: fs, [] =>
    match ending with
    | some b => flaw b.taking
    | none =>
      if f.required then mismatch origin (.wrongLength index r.wanted) place.stop
      else fillItems r origin place ending s (index + 1) fs []
  | index, f :: fs, n :: ns =>
    match f.fill origin n s with
    | .error e => .error e
    | .ok s => fillItems r origin place ending s (index + 1) fs ns

/-- The first required field that was not given. -/
def lacking? (r : Record σ) (given : List String) : Option String :=
  (r.fields.find? fun f => f.required && !given.contains f.name).map (·.name)

/-- How a list with more parts than a record has fields is described. -/
def tooMany (origin : Origin) (fields : Nat) : String :=
  match origin with
  | .kept => if fields = 1 then "1 element in sequence" else s!"{fields} elements in sequence"
  | _ => "fewer elements in array"

/-- A record from an object alone. -/
def ofObject (r : Record σ) : Decoder σ
  | origin, .object place members ending =>
    match r.fillMembers origin ending [] r.blank members with
    | .error e => .error e
    | .ok (given, s) =>
      match r.lacking? given with
      | some name => mismatch origin (.missingField name) place.stop
      | none => .ok s
  | origin, n => refuse origin r.title n

/-- A record from an object or a list. -/
def decode (r : Record σ) : Decoder σ
  | origin, .array place items ending =>
    match r.fillItems origin place ending r.blank 0 r.fields items with
    | .error e => .error e
    | .ok (s, more) =>
      match origin with
      | .text => (afterLast ending more).map fun _ => s
      | _ =>
        if more.isEmpty then .ok s
        else mismatch origin (.wrongLength items.length (tooMany origin r.fields.length)) place.stop
  | origin, n => r.ofObject origin n

end Record

/-! ### Whole texts and values -/

/-- The value of a text that holds nothing else. -/
def decodeText (d : Decoder α) (bytes : List UInt8) : Except Problem α :=
  let found := readText bytes
  match d .text found.node with
  | .error e => .error e
  | .ok a =>
    match found.behind with
    | none => .ok a
    | some c =>
      match textBehind c with
      | some f => .error (.flaw f)
      | none => .ok a

/-- The value of a given shape that a value holds. -/
def decodeValue (d : Decoder α) (v : Value) : Except Problem α := d .held (Node.ofValue v)

end CodeEditing.Json
