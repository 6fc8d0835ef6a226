import CodeEditing.Proofs.Json.ReadBack
import CodeEditing.Proofs.Worker.Headers
import CodeEditing.Worker.Message

/-! What is sent in frames arrives.

A frame is cut off where it ends, whatever follows it (`next_frameOf`), so a stream of frames is
read message by message. `reads_frames` is the result for both ends of the wire: any number of
messages, one frame after the other, is read as these messages, and then the stream ends. The
messages hold what can be sent (`Sendable`): whole numbers of 64 bits, no deeper nesting than a
reader takes over, and not more bytes than can be counted. -/
namespace CodeEditing.Worker

open Json (Decoder Extent MemberKey Node Origin Record Value digitsOf encode)
open Json.Decoder (any_of_spells eachMember_aString_of_spells list_any_of_spells)
open Json.Field (fill_needed fill_optional)
open Json.Record (fillMembers_field ofObject_foreign ofObject_known)

/-! ### Frames -/

theorem digitsValue?_digits {cs : List Char} (h : ∀ c ∈ cs, c.isDigit = true) (n : Nat) :
    Text.digitsValue? n cs = some (Nat.ofDigitChars 10 cs n) := by
  induction cs generalizing n with
  | nil => rfl
  | cons c cs ih =>
    obtain ⟨hc, hcs⟩ := List.forall_mem_cons.1 h
    have hdigit : '0' ≤ c ∧ c ≤ '9' := by
      obtain ⟨hle, hge⟩ := Char.isDigit_iff_toNat.1 hc
      exact ⟨UInt32.le_iff_toNat_le.2 hle, UInt32.le_iff_toNat_le.2 hge⟩
    rw [Text.digitsValue?, if_pos hdigit, ih hcs, Nat.ofDigitChars_cons]

/-- Digits are a count if they stand for one. -/
theorem count?_digits {cs : List Char} (hne : cs ≠ []) (h : ∀ c ∈ cs, c.isDigit = true)
    (hn : Nat.ofDigitChars 10 cs 0 ≤ Text.maxCount) :
    Text.count? cs = some (Nat.ofDigitChars 10 cs 0) := by
  cases cs with
  | nil => exact absurd rfl hne
  | cons d ds =>
    have hplus : d ≠ '+' := by
      rintro rfl
      exact absurd (h '+' List.mem_cons_self) (by decide)
    rw [Text.count?]
    · simp [digitsValue?_digits h, hn]
    · exact fun _ hcons => hplus (List.cons.inj hcons).1

theorem count?_digitsOf {n : Nat} (h : n ≤ Text.maxCount) : Text.count? (digitsOf n) = some n := by
  have hvalue : Nat.ofDigitChars 10 (digitsOf n) 0 = n := Nat.ofDigitChars_ten_toDigits
  have hne : digitsOf n ≠ [] := Nat.toDigits_ne_nil
  have hcount := count?_digits hne (fun _ => Json.isDigit_of_mem_digitsOf) (hvalue.symm ▸ h)
  rwa [hvalue] at hcount

/-- The line that gives the length in a frame. -/
def lengthLine (n : Nat) : List Char := "Content-Length: ".toList ++ digitsOf n ++ ['\r']

theorem lengthLine_eq (n : Nat) :
    lengthLine n = "Content-Length: ".toList ++ digitsOf n ++ ['\r'] := rfl

/-- What stands in front of the body of a frame. -/
def headOf (n : Nat) : Block := ⟨[lengthLine n], ['\r']⟩

theorem bytesOf_eq_encode (text : String) : bytesOf text = encode text.toList := by
  rw [bytesOf, ← Json.toList_toUTF8, String.ofList_toList]

theorem bytesOf_text (v : Value) : bytesOf v.text = encode v.print := by
  rw [bytesOf_eq_encode, Value.text, String.toList_ofList]

theorem bytesOf_text_ne_nil (v : Value) : bytesOf v.text ≠ [] :=
  bytesOf_text v ▸ Json.encode_ne_nil (Json.print_ne_nil v)

theorem frame_eq (body : List UInt8) : frame body = (headOf body.length).bytes ++ body := by
  have htext : (s!"Content-Length: {body.length}\r\n\r\n").toList =
      lengthLine body.length ++ ['\n'] ++ ['\r', '\n'] := by
    simp [toString, lengthLine_eq, digitsOf]
  rw [frame, bytesOf_eq_encode, htext, Json.encode_append]
  simp [Block.bytes, headOf, lineBytes]

theorem headOf_gives {n : Nat} (h : n ≤ Text.maxCount) : (headOf n).Gives (some n) where
  oneLine := by
    have hdigit : '\n' ∉ digitsOf n := fun hc =>
      absurd (Json.isDigit_of_mem_digitsOf hc) (by decide)
    simp [headOf, lengthLine_eq, hdigit]
  blank := rfl
  told := by
    have hfirst : Tells ([] ++ "Content-Length:".toList ++ [' '] ++ digitsOf n ++ ['\r']) (some n) :=
      .length rfl rfl (by decide) (count?_digitsOf h) (by decide)
    exact ⟨[some n], .cons hfirst .nil, rfl⟩

/-- A body is cut off where it ends. -/
theorem nextBody_frame {body : List UInt8} (hne : body ≠ []) (hsize : body.length ≤ Text.maxCount)
    (rest : List UInt8) : nextBody none (frame body ++ rest) = (.ok (some body), rest) := by
  rw [frame_eq]
  exact nextBody_block (headOf_gives hsize) hne rest

/-- What can be sent: whole numbers of 64 bits, no deeper nesting than a reader takes over, the
outermost object counted, and not more bytes than can be counted. -/
structure Sendable (v : Value) : Prop where
  numbers : ∀ x ∈ v.numbers, x.Fits
  nesting : v.nesting < Node.maxDepth
  size : (bytesOf v.text).length ≤ Text.maxCount

/-- A value in a frame is read, and nothing behind it. -/
theorem next_frameOf {d : Decoder α} {a : α} {v : Value} (h : Sendable v)
    (hd : ∀ n : Node, n.Spells v → d .text n = .ok a) (rest : List UInt8) :
    next d (frameOf v ++ rest) = (.ok (some a), rest) := by
  rw [next, frameOf, nextBody_frame (bytesOf_text_ne_nil v) h.size]
  simp only [bytesOf_text, Json.decodeText_print h.numbers hd]

/-- What a number of readings give, one after the other. -/
def reads (d : Decoder α) : Nat → List UInt8 → List (Except FrameFault (Option α))
  | 0, _ => []
  | k + 1, bytes => (next d bytes).1 :: reads d k (next d bytes).2

/-- Values in frames, one after the other, are read one after the other, and then the stream
ends. -/
theorem reads_frameOf {d : Decoder α} {json : α → Value} {as : List α}
    (h : ∀ a ∈ as, Sendable (json a))
    (hd : ∀ a ∈ as, ∀ n : Node, n.Spells (json a) → d .text n = .ok a) :
    reads d (as.length + 1) (as.flatMap fun a => frameOf (json a)) =
      as.map (fun a => .ok (some a)) ++ [.ok none] := by
  induction as with
  | nil =>
    rw [List.flatMap_nil, List.length_nil, reads, reads, next, nextBody]
    rfl
  | cons a as ih =>
    obtain ⟨ha, has⟩ := List.forall_mem_cons.1 h
    obtain ⟨hda, hdas⟩ := List.forall_mem_cons.1 hd
    rw [List.flatMap_cons, List.length_cons, reads, next_frameOf ha hda _, ih has hdas]
    rfl

/-! ### The messages of a host -/

theorem textByKey_of_spells {n : Node} {pairs : List (String × String)}
    (h : n.Spells (Config.textByKeyToJson pairs)) (horder : Json.inKeyOrder pairs = pairs)
    (origin : Origin) : Config.textByKey origin n = .ok pairs := by
  obtain ⟨place, ns, rfl, hpairs⟩ := h.of_object
  rw [Config.textByKey, Decoder.dictionary, eachMember_aString_of_spells hpairs]
  simp only [Except.map, horder]

/-- A record that has its data alone. -/
theorem decode_data {title : String} {n : Node} {data : Value} (horder : data.sorted = data)
    (hnest : data.nesting < Node.maxDepth) (h : n.Spells (.object [("data", data)])) :
    Record.decode ⟨title, .null, [.optional "data" .any fun v _ => v]⟩ .kept n = .ok data := by
  obtain ⟨place, _, rfl, hms⟩ := h.of_object
  rcases hms with _ | ⟨_, _, _, hdata, ⟨⟩⟩
  refine ofObject_known ["data"] place ?_ rfl
  rw [fillMembers_field data rfl rfl (fill_optional (any_of_spells hdata hnest horder .kept))]
  rfl

namespace HostMessage

/-- What a message carries is in the order of its keys. Maps are kept in that order, so no other
message can be told. -/
def InOrder : HostMessage → Prop
  | init _ tlns _ _ => Json.inKeyOrder tlns = tlns
  | command _ args => ∀ v ∈ args, v.sorted = v
  | event _ data => data.sorted = data

section
variable {n : Node}

theorem ofNode?_init {flag : Bool} {tlns : List (String × String)} {module classname : String}
    (horder : Json.inKeyOrder tlns = tlns)
    (h : n.Spells (init flag tlns module classname).toJson) :
    ofNode? n = some (init flag tlns module classname) := by
  have hinit : initRecord.ofObject .kept n = .ok ⟨flag, tlns, module, classname⟩ := by
    obtain ⟨place, _, rfl, hms⟩ := h.of_object
    rcases hms with _ | ⟨_, _, _, ⟨⟩, _ | ⟨_, _, _, htlns, hms⟩⟩
    rcases hms with _ | ⟨_, _, _, ⟨⟩, _ | ⟨_, _, _, ⟨⟩, ⟨⟩⟩⟩
    refine ofObject_known ["classname", "module", "tlns", "init"] place ?_ rfl
    rw [fillMembers_field ⟨flag, [], "", ""⟩ rfl rfl rfl,
      fillMembers_field ⟨flag, tlns, "", ""⟩ rfl rfl
        (fill_optional (textByKey_of_spells htlns horder .kept)),
      fillMembers_field ⟨flag, tlns, module, ""⟩ rfl rfl rfl,
      fillMembers_field ⟨flag, tlns, module, classname⟩ rfl rfl rfl]
    rfl
  rw [ofNode?]
  simp only [hinit]

theorem ofNode?_command {name : String} {args : List Value} (horder : ∀ v ∈ args, v.sorted = v)
    (hnest : ∀ v ∈ args, v.nesting < Node.maxDepth) (h : n.Spells (command name args).toJson) :
    ofNode? n = some (command name args) := by
  obtain ⟨_, hinit⟩ : ∃ e, initRecord.ofObject .kept n = .error e :=
    ofObject_foreign h (List.forall_mem_cons.2 ⟨rfl, List.forall_mem_singleton.2 rfl⟩) rfl
  have hcommand : commandRecord.ofObject .kept n = .ok (name, args) := by
    obtain ⟨place, _, rfl, hms⟩ := h.of_object
    rcases hms with _ | ⟨_, _, _, ⟨⟩, _ | ⟨_, _, _, hargs, ⟨⟩⟩⟩
    refine ofObject_known ["args", "command"] place ?_ rfl
    rw [fillMembers_field (name, []) rfl rfl rfl, fillMembers_field (name, args) rfl rfl
      (fill_optional (list_any_of_spells hargs hnest horder .kept))]
    rfl
  rw [ofNode?]
  simp only [hinit, hcommand]

theorem ofNode?_event {name : String} {data : Value} (horder : data.sorted = data)
    (hnest : data.nesting < Node.maxDepth) (h : n.Spells (event name data).toJson) :
    ofNode? n = some (event name data) := by
  -- neither shape that is tried before shares a member with this one
  obtain ⟨_, hinit⟩ : ∃ e, initRecord.ofObject .kept n = .error e :=
    ofObject_foreign h (List.forall_mem_cons.2 ⟨rfl, List.forall_mem_singleton.2 rfl⟩) rfl
  obtain ⟨_, hcommand⟩ : ∃ e, commandRecord.ofObject .kept n = .error e :=
    ofObject_foreign h (List.forall_mem_cons.2 ⟨rfl, List.forall_mem_singleton.2 rfl⟩) rfl
  have hevent : eventRecord.ofObject .kept n = .ok (name, data) := by
    obtain ⟨place, _, rfl, hms⟩ := h.of_object
    rcases hms with _ | ⟨_, _, _, ⟨⟩, _ | ⟨_, _, _, hdata, ⟨⟩⟩⟩
    refine ofObject_known ["data", "event"] place ?_ rfl
    rw [fillMembers_field (name, .null) rfl rfl rfl, fillMembers_field (name, data) rfl rfl
      (fill_needed (decode_data horder hnest hdata))]
    rfl
  rw [ofNode?]
  simp only [hinit, hcommand, hevent]

/-- A message of a host is taken for what it is. -/
theorem decode_of_spells {m : HostMessage} (horder : m.InOrder)
    (hnest : m.toJson.nesting < Node.maxDepth) (h : n.Spells m.toJson) :
    decode .text n = .ok m := by
  have hmessage : ofNode? n = some m := by
    cases m with
    | init flag tlns module classname => exact ofNode?_init horder h
    | command name args =>
      refine ofNode?_command horder (fun v hv => ?_) h
      calc v.nesting
          < (Value.array args).nesting := Value.nesting_lt_array hv
        _ < (command name args).toJson.nesting := Value.nesting_lt_object (.tail _ (.head _))
        _ < Node.maxDepth := hnest
    | event name data =>
      refine ofNode?_event horder ?_ h
      calc data.nesting
          < (Value.object [("data", data)]).nesting := Value.nesting_lt_object (.head _)
        _ < (event name data).toJson.nesting := Value.nesting_lt_object (.tail _ (.head _))
        _ < Node.maxDepth := hnest
  rw [decode]
  simp only [h.value hnest, hmessage]

end

end HostMessage

/-! ### The messages of a worker -/

namespace WorkerMessage

/-- What a message carries is in the order of its keys. Maps are kept in that order, so no other
message can be told. -/
def InOrder : WorkerMessage → Prop
  | log data | event _ data | call _ data => data.sorted = data

theorem splitMembers_kept {origin : Origin} {tag : Tag} {ns : List (MemberKey × Node)}
    {ms : List (String × Value)} (h : Node.SpellMembers ns ms) (hnames : ∀ m ∈ ms, m.1 ≠ "type")
    (hnest : ∀ m ∈ ms, m.2.nesting < Node.maxDepth - 1) (place : Extent) :
    splitMembers origin place none (some tag) ns = .ok (tag, ns) := by
  induction ms generalizing ns with
  | nil =>
    cases h
    rfl
  | cons m ms ih =>
    obtain ⟨hname, hnames⟩ := List.forall_mem_cons.1 hnames
    obtain ⟨hm, hms⟩ := List.forall_mem_cons.1 hnest
    have hkept := fun {ns} (h : Node.SpellMembers ns ms) => ih h hnames hms
    rcases h with _ | ⟨name, _, _, hn, hrest⟩
    rw [splitMembers]
    simp only [if_neg hname, takeOver, hn.value hm, hkept hrest]
    rfl

section
variable {n : Node}

/-- Behind its tag a message is decoded as what the tag says. -/
theorem decode_tagged (tag : Tag) {name : String} {ms : List (String × Value)}
    (hname : Tag.known.lookup name = some tag)
    (h : n.Spells (.object (("type", .string name) :: ms))) (hnames : ∀ m ∈ ms, m.1 ≠ "type")
    (hnest : (Value.object (("type", .string name) :: ms)).nesting < Node.maxDepth) :
    ∃ kept : Node, kept.Spells (.object ms) ∧ decode .text n = decodeTagged tag kept := by
  have hlow : ∀ m ∈ ms, m.2.nesting < Node.maxDepth - 1 := fun m hm =>
    Nat.lt_sub_of_add_lt (Nat.lt_of_le_of_lt (Value.nesting_lt_object (.tail _ hm)) hnest)
  obtain ⟨place, _, rfl, hms⟩ := h.of_object
  rcases hms with _ | ⟨_, _, _, ⟨⟩, hkept⟩
  refine ⟨_, .object place hkept, ?_⟩
  rw [decode, splitMembers]
  simp only [decodeTag, Decoder.variant, hname, splitMembers_kept hkept hnames hlow, if_true]
  rfl

variable {data : Value}

theorem decode_event {name : String} (horder : data.sorted = data)
    (hnest : data.nesting < Node.maxDepth)
    (h : n.Spells (.object [("name", .string name), ("data", data)])) :
    eventRecord.decode .kept n = .ok (name, data) := by
  obtain ⟨place, _, rfl, hms⟩ := h.of_object
  rcases hms with _ | ⟨_, _, _, ⟨⟩, _ | ⟨_, _, _, hdata, ⟨⟩⟩⟩
  refine ofObject_known ["data", "name"] place ?_ rfl
  rw [fillMembers_field (name, .null) rfl rfl rfl, fillMembers_field (name, data) rfl rfl
    (fill_optional (any_of_spells hdata hnest horder .kept))]
  rfl

theorem decode_call {id : Nat} (horder : data.sorted = data) (hnest : data.nesting < Node.maxDepth)
    (h : n.Spells (.object [("id", .ofNat id), ("data", data)])) :
    callRecord.decode .kept n = .ok (id, data) := by
  obtain ⟨place, _, rfl, hms⟩ := h.of_object
  rcases hms with _ | ⟨_, _, _, ⟨⟩, _ | ⟨_, _, _, hdata, ⟨⟩⟩⟩
  refine ofObject_known ["data", "id"] place ?_ rfl
  rw [fillMembers_field (id, .null) rfl rfl rfl, fillMembers_field (id, data) rfl rfl
    (fill_optional (any_of_spells hdata hnest horder .kept))]
  rfl

/-- A message of a worker is taken for what it is. -/
theorem decode_of_spells {m : WorkerMessage} (horder : m.InOrder)
    (hnest : m.toJson.nesting < Node.maxDepth) (h : n.Spells m.toJson) :
    decode .text n = .ok m := by
  have hdata : "data" ≠ "type" := by decide
  cases m with
  | log data =>
    have hlow : data.nesting < Node.maxDepth :=
      Nat.lt_trans (Value.nesting_lt_object (.tail _ (.head _))) hnest
    obtain ⟨kept, hkept, hdecode⟩ := decode_tagged .log rfl h
      (List.forall_mem_singleton.2 hdata) hnest
    rw [hdecode, decodeTagged, logRecord, decode_data horder hlow hkept]
    rfl
  | event name data =>
    have hlow : data.nesting < Node.maxDepth :=
      Nat.lt_trans (Value.nesting_lt_object (.tail _ (.tail _ (.head _)))) hnest
    have hname : "name" ≠ "type" := by decide
    obtain ⟨kept, hkept, hdecode⟩ := decode_tagged .event rfl h
      (List.forall_mem_cons.2 ⟨hname, List.forall_mem_singleton.2 hdata⟩) hnest
    rw [hdecode, decodeTagged, decode_event horder hlow hkept]
    rfl
  | call id data =>
    have hlow : data.nesting < Node.maxDepth :=
      Nat.lt_trans (Value.nesting_lt_object (.tail _ (.tail _ (.head _)))) hnest
    have hid : "id" ≠ "type" := by decide
    obtain ⟨kept, hkept, hdecode⟩ := decode_tagged .call rfl h
      (List.forall_mem_cons.2 ⟨hid, List.forall_mem_singleton.2 hdata⟩) hnest
    rw [hdecode, decodeTagged, decode_call horder hlow hkept]
    rfl

end

end WorkerMessage

/-! ### Both ends of the wire -/

/-- **What is sent in frames arrives.** Messages of a host, and of a worker, that are written one
after the other are read one after the other, each as it was, and then the stream ends. -/
theorem reads_frames (hosts : List HostMessage) (workers : List WorkerMessage)
    (hhosts : ∀ m ∈ hosts, m.InOrder ∧ Sendable m.toJson)
    (hworkers : ∀ m ∈ workers, m.InOrder ∧ Sendable m.toJson) :
    reads HostMessage.decode (hosts.length + 1) (hosts.flatMap fun m => frameOf m.toJson) =
        hosts.map (fun m => .ok (some m)) ++ [.ok none] ∧
      reads WorkerMessage.decode (workers.length + 1) (workers.flatMap fun m => frameOf m.toJson) =
        workers.map (fun m => .ok (some m)) ++ [.ok none] :=
  ⟨reads_frameOf (fun m hm => (hhosts m hm).2) fun m hm _ h =>
      m.decode_of_spells (hhosts m hm).1 (hhosts m hm).2.nesting h,
    reads_frameOf (fun m hm => (hworkers m hm).2) fun m hm _ h =>
      m.decode_of_spells (hworkers m hm).1 (hworkers m hm).2.nesting h⟩

theorem reads_frames_mixed :
    let loading : HostMessage := .init true [("a", "é"), ("b", "\t")] "m\"" "C\\"
    let asking : HostMessage := .command "f" [.array [], .number (.whole (-9223372036854775808)),
      .number (.whole 18446744073709551615)]
    let telling : HostMessage := .event "😀\n" (.object [("", .null), ("k", .bool true)])
    let answer : WorkerMessage := .call 18446744073709551615 (.array [.string "\x01"])
    reads HostMessage.decode 4 ([loading, asking, telling].flatMap fun m => frameOf m.toJson) =
        [.ok (some loading), .ok (some asking), .ok (some telling), .ok none] ∧
      reads WorkerMessage.decode 2 ([answer].flatMap fun m => frameOf m.toJson) =
        [.ok (some answer), .ok none] := by
  intro loading asking telling answer
  have hload : loading.InOrder ∧ Sendable loading.toJson :=
    ⟨by rfl, by decide, by decide, by decide +kernel⟩
  have hask : asking.InOrder ∧ Sendable asking.toJson :=
    ⟨by rintro _ (_ | ⟨_, _ | ⟨_, _ | ⟨_, ⟨⟩⟩⟩⟩) <;> rfl, by decide, by decide, by decide +kernel⟩
  have htell : telling.InOrder ∧ Sendable telling.toJson :=
    ⟨by rfl, by decide, by decide, by decide +kernel⟩
  have hanswer : answer.InOrder ∧ Sendable answer.toJson :=
    ⟨by rfl, by decide, by decide, by decide +kernel⟩
  exact reads_frames [loading, asking, telling] [answer]
    (List.forall_mem_cons.2
      ⟨hload, List.forall_mem_cons.2 ⟨hask, List.forall_mem_singleton.2 htell⟩⟩)
    (List.forall_mem_singleton.2 hanswer)

end CodeEditing.Worker
