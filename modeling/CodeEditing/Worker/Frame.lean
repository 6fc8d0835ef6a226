import CodeEditing.Json.Printer
import CodeEditing.Json.Shape
import CodeEditing.Text.Blank
import CodeEditing.Text.Count
import CodeEditing.Text.Quoted

/-! Frames: JSON texts one after the other in a stream of bytes.

A frame is a block of header lines, one of which gives the length of what follows, a blank line, and
a body of that many bytes. Other headers count for nothing, the last length of a block counts, and a
block without a length or with length zero has no body and is passed over. `next_shorter` says that
whoever goes on reading behind a frame or a faulty one has less to read.

A body is read into a buffer of the length it is said to have. There is memory for every buffer that
is not longer than `maxBuffer`, and no body that is there is longer. -/
namespace CodeEditing.Worker

open Json (Decoder Problem Value)

/-! ### Writing -/

/-- The bytes of a text. -/
def bytesOf (text : String) : List UInt8 := text.toUTF8.toList

/-- A body with its header. -/
def frame (body : List UInt8) : List UInt8 :=
  bytesOf s!"Content-Length: {body.length}\r\n\r\n" ++ body

/-- The frame of a value. -/
def frameOf (v : Value) : List UInt8 := frame (bytesOf v.text)

/-! ### Reading -/

/-- The longest buffer there can be. -/
def maxBuffer : Nat := 9223372036854775807

/-- Why the body of a frame is not to be had: the stream ends inside of it, or it is said to be longer
than a buffer can be. Of the second the reader dies, and it is up to others to tell. -/
inductive Shortage where
  | ended
  | noBuffer
  deriving Repr, DecidableEq

/-- Why no message could be read: the body is not what was asked for, a length is no number, the body
is not all there, or a header is no text. -/
inductive FrameFault where
  | malformed (body : List UInt8) (problem : Problem)
  | badLength (value : String)
  | cutShort {shortage : Shortage}
  | notText

namespace FrameFault

/-- What is wrong when a body of this length is not all there. The buffer comes before the body. -/
def missing (length : Nat) : FrameFault := @cutShort (if length ≤ maxBuffer then .ended else .noBuffer)

def message : FrameFault → String
  | malformed body problem => s!"malformed message body: {problem.message body}"
  | badLength value => s!"invalid Content-Length header {Text.quotedName value}"
  | @cutShort .ended => "i/o error: failed to fill whole buffer"
  | @cutShort .noBuffer => "i/o error: stdin reader panicked"
  | notText => "i/o error: stream did not contain valid UTF-8"

/-- Whether there is nothing more to be read from the stream. -/
def isFinal : FrameFault → Bool
  | cutShort | notText => true
  | malformed _ _ | badLength _ => false

/-- Whether the reader dies of it. -/
def isDeadly : FrameFault → Bool
  | @cutShort .noBuffer => true
  | @cutShort .ended | malformed _ _ | badLength _ | notText => false

example : (missing Text.maxCount).message = "i/o error: stdin reader panicked" := rfl

end FrameFault

/-- What a header line says. -/
inductive Header where
  | blank
  | length (n : Nat)
  | badLength (value : String)
  | other
  deriving Repr, DecidableEq

/-- What a header that gives a length begins with, in letters of either case. -/
def lengthName : List Char := "content-length:".toList

/-- What a line says. -/
def headerOf (line : List Char) : Header :=
  let line := Text.trim line
  if line.isEmpty then .blank
  else if (line.take lengthName.length).map Char.toLower = lengthName then
    let value := Text.trim (line.drop lengthName.length)
    match Text.count? value with
    | some n => .length n
    | none => .badLength (String.ofList value)
  else .other

/-- Cuts a line off, with its line feed. -/
def takeLine : List UInt8 → List UInt8 × List UInt8
  | [] => ([], [])
  | b :: bs =>
    if b = 10 then ([b], bs)
    else
      let (line, rest) := takeLine bs
      (b :: line, rest)

theorem takeLine_append (bytes : List UInt8) :
    (takeLine bytes).1 ++ (takeLine bytes).2 = bytes := by
  induction bytes with
  | nil => rfl
  | cons b bs ih =>
    rw [takeLine]
    split
    · rfl
    · simpa using ih

theorem takeLine_shorter (b : UInt8) (bs : List UInt8) :
    (takeLine (b :: bs)).2.length < (b :: bs).length := by
  rw [takeLine]
  split
  · simp
  · have := congrArg List.length (takeLine_append bs)
    simp only [List.length_append] at this
    simp only [List.length_cons]
    omega

/-- Reads headers up to a body. Gives the body, or none when the stream ends before it, and what
follows. `length` is the length given so far in the block. -/
def nextBody (length : Option Nat) (bytes : List UInt8) :
    Except FrameFault (Option (List UInt8)) × List UInt8 :=
  match _h : bytes with
  | [] => (.ok none, [])
  | b :: bs =>
    let rest := (takeLine (b :: bs)).2
    match String.fromUTF8? ⟨(takeLine (b :: bs)).1.toArray⟩ with
    | none => (.error .notText, rest)
    | some line =>
      match headerOf line.toList with
      | .other => nextBody length rest
      | .length n => nextBody (some n) rest
      | .badLength value => (.error (.badLength value), rest)
      | .blank =>
        match length with
        | none | some 0 => nextBody none rest
        | some (n + 1) =>
          if rest.length ≤ n then (.error (.missing (n + 1)), [])
          else (.ok (some (rest.take (n + 1))), rest.drop (n + 1))
termination_by bytes.length
decreasing_by all_goals exact takeLine_shorter b bs

/-- Reads the next message. Gives none when the stream ends before it, and what follows. -/
def next (d : Decoder α) (bytes : List UInt8) : Except FrameFault (Option α) × List UInt8 :=
  match nextBody none bytes with
  | (.error f, rest) => (.error f, rest)
  | (.ok none, rest) => (.ok none, rest)
  | (.ok (some body), rest) =>
    match Json.decodeText d body with
    | .ok a => (.ok (some a), rest)
    | .error p => (.error (.malformed body p), rest)

theorem nextBody_shorter (length : Option Nat) (b : UInt8) (bs : List UInt8) :
    (nextBody length (b :: bs)).2.length < (b :: bs).length := by
  suffices h : ∀ n length, ∀ bytes : List UInt8, bytes.length ≤ n → bytes ≠ [] →
      (nextBody length bytes).2.length < bytes.length from
    h _ length _ (Nat.le_refl _) (by simp)
  intro n
  induction n with
  | zero =>
    intro length bytes hn hne
    exact absurd (List.length_eq_zero_iff.1 (Nat.le_zero.1 hn)) hne
  | succ n ih =>
    intro length bytes hn hne
    obtain ⟨b, bs, rfl⟩ := List.exists_cons_of_ne_nil hne
    have hs := takeLine_shorter b bs
    have further (l : Option Nat) :
        (nextBody l (takeLine (b :: bs)).2).2.length < (b :: bs).length := by
      cases hr : (takeLine (b :: bs)).2 with
      | nil => rw [nextBody]; simp
      | cons c cs =>
        rw [hr] at hs
        exact Nat.lt_trans (ih l (c :: cs) (by omega) (by simp)) hs
    rw [nextBody.eq_def]
    simp only
    split
    · exact hs
    · split
      · exact further _
      · exact further _
      · exact hs
      · split
        · exact further _
        · exact further _
        · split
          · simp
          · simp only [List.length_drop]; omega

theorem next_shorter (d : Decoder α) (b : UInt8) (bs : List UInt8) :
    (next d (b :: bs)).2.length < (b :: bs).length := by
  have h := nextBody_shorter none b bs
  rw [next]
  split
  · next he => simpa [he] using h
  · next he => simpa [he] using h
  · next he => split <;> simpa [he] using h

/-- Reads on to the end of the stream, or to where it cannot be read any further. Gives what was read
in turn, and what ended it if not the end of the stream. -/
def readAll (d : Decoder α) (bytes : List UInt8) : List (Except FrameFault α) × Option FrameFault :=
  match _h : bytes with
  | [] => ([], none)
  | b :: bs =>
    match (next d (b :: bs)).1 with
    | .ok none => ([], none)
    | .ok (some a) =>
      let (more, ending) := readAll d (next d (b :: bs)).2
      (.ok a :: more, ending)
    | .error f =>
      if f.isFinal then ([], some f)
      else
        let (more, ending) := readAll d (next d (b :: bs)).2
        (.error f :: more, ending)
termination_by bytes.length
decreasing_by all_goals exact next_shorter d b bs

end CodeEditing.Worker
