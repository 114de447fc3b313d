import DynLisp.Error

/-!
# Where printed text goes

A `Sink` collects the bytes that were written to it. It may have a limited capacity, and then a
write takes as many bytes as still fit before it fails. A line is written in pieces. The main fact
is `writePieces_eq`: into which pieces a text is cut makes no difference.
-/

namespace DynLisp

/-- What a sink answers to a write when nothing fits any more. -/
inductive WhenFull where
  /-- The write fails. -/
  | refuse
  /-- The write succeeds with no byte taken. -/
  | takeNothing
deriving DecidableEq

/-- The bytes written so far, and how further ones are taken. -/
structure Sink where
  written : ByteArray := .empty
  capacity : Option Nat := none
  whenFull : WhenFull := .refuse
  flushFails : Bool := false

namespace Sink

/-- How many of `n` further bytes the sink takes. -/
def room (s : Sink) (n : Nat) : Nat :=
  match s.capacity with
  | none => n
  | some capacity => min n (capacity - s.written.size)

/-- The fault of a write for which there is no room. -/
def fullFault (s : Sink) : OutputFault :=
  match s.whenFull with
  | .refuse => .full
  | .takeNothing => .nothingWritten

/-- Writes a text: the bytes that fit are taken even if not all of them do. -/
def write (s : Sink) (text : String) : Except OutputFault Unit × Sink :=
  let bytes := text.toUTF8
  let taken := s.room bytes.size
  let outcome := if taken = bytes.size then .ok () else .error s.fullFault
  (outcome, { s with written := s.written ++ bytes.extract 0 taken })

/-- Makes sure that the bytes taken have reached their goal. -/
def flush (s : Sink) : Except OutputFault Unit :=
  if s.flushFails then .error .flush else .ok ()

/-- Writes pieces of a text in order, up to the first that is not taken whole. -/
def writePieces (s : Sink) : List String → Except OutputFault Unit × Sink
  | [] => (.ok (), s)
  | piece :: pieces =>
    match s.write piece with
    | (.ok (), s') => s'.writePieces pieces
    | failed => failed

/-- The line that pieces of text make up, with its end. -/
def lineOf (pieces : List String) : String :=
  String.join (pieces ++ ["\n"])

/-- Writes the pieces of a line and its end, and flushes them. -/
def writeLine (s : Sink) (pieces : List String) : Except OutputFault Unit × Sink :=
  match s.writePieces (pieces ++ ["\n"]) with
  | (.ok (), s') => (s'.flush, s')
  | failed => failed

/-- Bytes as text. Bytes at the end that are only the beginning of a character are shown as one
replacement character; a sink never cuts a text elsewhere. -/
def decode (bytes : ByteArray) : String :=
  match String.fromUTF8? bytes with
  | some text => text
  | none =>
    let cut := [1, 2, 3].findSome? fun n => String.fromUTF8? (bytes.extract 0 (bytes.size - n))
    cut.getD "" ++ "\ufffd"

/-- The text written since the sink held only `start` bytes. -/
def textFrom (s : Sink) (start : Nat) : String :=
  decode (s.written.extract start s.written.size)

/-- A sink without a limit takes everything. -/
theorem write_unlimited {s : Sink} (h : s.capacity = none) (text : String) :
    (s.write text).1 = .ok () := by
  simp [write, room, h]

/-! ## Texts in pieces -/

/-- What is taken of two texts beyond the first is taken of the second. -/
theorem extract_append_add (bytes bytes' : ByteArray) (n : Nat) :
    (bytes ++ bytes').extract 0 (bytes.size + n) = bytes ++ bytes'.extract 0 n := by
  have hsecond : (bytes ++ bytes').extract (bytes.size + 0) (bytes.size + n) = bytes'.extract 0 n :=
    ByteArray.extract_append_size_add
  rw [ByteArray.extract_eq_extract_append_extract bytes.size (Nat.zero_le _) (Nat.le_add_right _ _),
    ByteArray.extract_append_eq_left rfl]
  exact congrArg (bytes ++ ·) hsecond

/-- What is taken of two texts up to the end of the first is taken of the first. -/
theorem extract_append_of_le (bytes bytes' : ByteArray) {n : Nat} (h : n ≤ bytes.size) :
    (bytes ++ bytes').extract 0 n = bytes.extract 0 n := by
  have hempty : bytes'.extract 0 (n - bytes.size) = .empty := by
    rw [Nat.sub_eq_zero_of_le h, ByteArray.extract_same]
  rw [ByteArray.extract_append, Nat.zero_sub, hempty, ByteArray.append_empty]

theorem room_zero (s : Sink) : s.room 0 = 0 := by
  unfold room
  split
  · rfl
  · exact Nat.zero_min _

/-- After bytes that were taken whole there is as much room as for both, less those. -/
theorem room_add_of_taken {s : Sink} {bytes : ByteArray} (htaken : s.room bytes.size = bytes.size)
    (n : Nat) :
    s.room (bytes.size + n) = bytes.size + room { s with written := s.written ++ bytes } n := by
  unfold room at htaken ⊢
  rcases hcapacity : s.capacity with _ | capacity
  · rfl
  · simp only [hcapacity, ByteArray.size_append] at htaken ⊢
    omega

/-- If the beginning of some bytes is not taken whole, no more is taken of all of them. -/
theorem room_add_of_not_taken {s : Sink} {n : Nat} (htaken : s.room n ≠ n) (m : Nat) :
    s.room n < n ∧ s.room (n + m) = s.room n := by
  unfold room at htaken ⊢
  rcases hcapacity : s.capacity with _ | capacity
  · simp only [hcapacity, ne_eq, not_true_eq_false] at htaken
  · simp only [hcapacity] at htaken ⊢
    omega

/-- Of two texts in a row, the second is written only if the first was taken whole. -/
theorem write_append (s : Sink) (text text' : String) :
    s.write (text ++ text') =
      match s.write text with
      | (.ok (), s') => s'.write text'
      | failed => failed := by
  have hbytes : (text ++ text').toUTF8 = text.toUTF8 ++ text'.toUTF8 := String.toByteArray_append
  simp only [write, hbytes, ByteArray.size_append]
  generalize text.toUTF8 = bytes
  generalize text'.toUTF8 = bytes'
  by_cases htaken : s.room bytes.size = bytes.size
  · simp only [htaken, if_true, ByteArray.extract_zero_size, room_add_of_taken htaken,
      Nat.add_right_inj, extract_append_add, ByteArray.append_assoc]
    rfl
  · obtain ⟨hlt, hroom⟩ := room_add_of_not_taken htaken bytes'.size
    have hcut : s.room bytes.size ≠ bytes.size + bytes'.size := by omega
    simp only [htaken, if_false, hroom, hcut, extract_append_of_le _ _ (Nat.le_of_lt hlt)]

/-- A text is written whole as it is in pieces. -/
theorem writePieces_eq (s : Sink) (pieces : List String) :
    s.writePieces pieces = s.write (String.join pieces) := by
  induction pieces generalizing s with
  | nil =>
    have hwrite : s.write "" = (.ok (), s) := by
      simp [write, room_zero]
    exact hwrite.symm
  | cons piece pieces ih =>
    rw [writePieces, String.join_cons, write_append]
    rcases s.write piece with ⟨_ | _, s'⟩
    · rfl
    · exact ih s'

/-- So is a line. -/
theorem writeLine_eq (s : Sink) (pieces : List String) :
    s.writeLine pieces =
      match s.write (lineOf pieces) with
      | (.ok (), s') => (s'.flush, s')
      | failed => failed := by
  rw [writeLine, writePieces_eq, lineOf]

end Sink

end DynLisp
