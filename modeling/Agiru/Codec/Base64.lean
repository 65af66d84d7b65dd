import Agiru.Library.Bytes
import Agiru.Library.Procedure

/-! A stream that writes into a BLOB's bytes, and views of bytes that may be its own.

A view of the stream's bytes is no longer good once the stream has been written to: the
bytes may have moved. `writes` counts the writes, and a borrowed view says at which of
them it was taken.

Base64, to a text and to a stream.

`encode` and `decode` write through an output, which is a text, a stream behind a scratch
buffer, or nothing: a decoder that writes nothing only tells whether the text is one. -/
namespace Agiru.Codec

structure OutStream where
  bytes : Bytes := []
  writes : Nat := 0

/-- Why a stream or a codec raises. `stale` is a view read after its bytes may have moved,
which C++ leaves undefined. -/
inductive CodecError
  | invalid
  | textCapacity
  | streamCapacity
  | stale
  deriving DecidableEq

def CodecError.text : CodecError → Bytes
  | invalid => Bytes.ascii "invalid Base64 input: alphabet, padding or incomplete group"
  | textCapacity => Bytes.ascii "Base64 output exceeds text capacity"
  | streamCapacity => Bytes.ascii "OutStream.Write exceeds byte storage capacity"
  | stale => []

/-- A `std::string_view`: of memory that the stream does not own, or of a range of the
stream's own bytes. -/
inductive View
  | owned (bytes : Bytes)
  | borrowed (start length writes : Nat)

/-- What a view shows. -/
def View.shows (stream : OutStream) : View → Bytes
  | owned bytes => bytes
  | borrowed start length _ => (stream.bytes.drop start).take length

/-- Whether it still shows it. -/
def View.live (stream : OutStream) : View → Bool
  | owned _ => true
  | borrowed _ _ writes => writes = stream.writes

/-- `OutStream::Borrows`. -/
def OutStream.borrows (stream : OutStream) : View → Bool
  | .owned _ => false
  | .borrowed start length _ => length ≠ 0 && start < stream.bytes.length

/-- A view that a caller may hold: of memory of its own, or of bytes that are there. -/
def View.Held (stream : OutStream) : View → Prop
  | owned _ => True
  | borrowed start length writes => start + length ≤ stream.bytes.length ∧ writes = stream.writes

/-- `OutStream::WriteBytes`, of bytes that are not the stream's own. -/
def writeBytes (maximum : Nat) (bytes : Bytes) : Procedure CodecError OutStream PUnit := do
  let stream ← get
  if maximum < stream.bytes.length + bytes.length then throw .streamCapacity
  set {stream with bytes := stream.bytes ++ bytes, writes := stream.writes + 1}

theorem exec_writeBytes {maximum : Nat} {bytes : Bytes} {stream : OutStream}
    (h : stream.bytes.length + bytes.length ≤ maximum) :
    Procedure.exec (writeBytes maximum bytes) stream =
      (.ok ⟨⟩, ⟨stream.bytes ++ bytes, stream.writes + 1⟩) := by
  unfold writeBytes
  rw [Procedure.exec_bind, Procedure.exec_get]
  dsimp only
  rw [if_neg (Nat.not_lt.mpr h)]
  rfl

end Agiru.Codec

namespace Agiru.Codec.Base64
open Bytes

def alphabet : Bytes := ascii "ABCDEFGHIJKLMNOPQRSTUVWXYZabcdefghijklmnopqrstuvwxyz0123456789+/"

abbrev lineWidth : Nat := 76
abbrev scratchSize : Nat := 4096
abbrev padding : Nat := 64

def isWhitespace (c : UInt8) : Bool := c ∈ ascii " \t\x0d\n"

/-- What a character stands for. -/
inductive Symbol
  | whitespace
  | invalid
  | value (n : Nat)
  deriving DecidableEq

/-- `kValues`. -/
def valueOf (c : UInt8) : Symbol :=
  if isWhitespace c then .whitespace
  else if c = Ch.equals then .value padding
  else
    match alphabet.idxOf? c with
    | some n => .value n
    | none => .invalid

/-! ### Outputs -/

/-- What an output does with bytes, and at the end. -/
structure Output (σ : Type) where
  put : Bytes → Procedure CodecError σ PUnit
  flush : Procedure CodecError σ PUnit

def nowhere {σ : Type} : Output σ where
  put _ := pure ⟨⟩
  flush := pure ⟨⟩

def toText : Output Bytes where
  put bytes := modify (· ++ bytes)
  flush := pure ⟨⟩

/-- A stream behind its scratch buffer. -/
structure Sink where
  stream : OutStream
  buffer : Bytes := []

/-- A procedure of the stream. -/
def onStream (p : Procedure CodecError OutStream PUnit) : Procedure CodecError Sink PUnit := do
  let sink ← get
  match p.exec sink.stream with
  | (.ok _, stream) => set {sink with stream}
  | (.error e, stream) => do
    set {sink with stream}
    throw e

def flushSink (maximum : Nat) : Procedure CodecError Sink PUnit := do
  let sink ← get
  if sink.buffer = [] then return ⟨⟩
  onStream (writeBytes maximum sink.buffer)
  modify fun sink => {sink with buffer := []}

def toStream (maximum : Nat) : Output Sink where
  put bytes := do
    let sink ← get
    if scratchSize - sink.buffer.length < bytes.length then flushSink maximum
    modify fun sink => {sink with buffer := sink.buffer ++ bytes}
  flush := flushSink maximum

/-! ### Encoding -/

/-- `EncodedSize`. -/
def encodedSize (bytes : Nat) (lines : Bool) (maximum : Nat) : Except CodecError Nat :=
  let groups := bytes / 3 + if bytes % 3 ≠ 0 then 1 else 0
  if maximum / 4 < groups then .error .textCapacity
  else
    let characters := groups * 4
    let breaks := if lines ∧ characters ≠ 0 then (characters - 1) / lineWidth else 0
    if (maximum - characters) / 2 < breaks then .error .textCapacity
    else .ok (characters + breaks * 2)

/-- The four characters of up to three bytes. -/
def encodeGroup (bytes : Bytes) : Bytes :=
  let value := [0, 1, 2].foldl (fun value i => value <<< 8 ||| (bytes[i]?.getD 0).toNat) 0
  [0, 1, 2, 3].map fun i =>
    if i ≤ bytes.length then (alphabet[(value >>> ((4 - i - 1) * 6)) &&& 63]?).getD 0 else Ch.equals

section Encode
variable {σ : Type} (output : Output σ) (live : σ → Bool) (lines : Bool)

/-- A group, on a new line where the line is full. -/
def putGroup (column : Nat) (bytes : Bytes) : Procedure CodecError σ Nat := do
  if !live (← get) then throw .stale
  if lines ∧ column = lineWidth then
    output.put (ascii "\x0d\n")
    output.put (encodeGroup bytes)
    return 4
  else
    output.put (encodeGroup bytes)
    return column + 4

/-- `Encode`, from a column on. -/
def encodeFrom (column : Nat) : Bytes → Procedure CodecError σ PUnit
  | [] => output.flush
  | a :: b :: c :: rest => do
    let column ← putGroup output live lines column [a, b, c]
    encodeFrom column rest
  | rest => do
    let _ ← putGroup output live lines column rest
    output.flush

def encode : Bytes → Procedure CodecError σ PUnit := encodeFrom output live lines 0

end Encode

/-! ### Decoding -/

/-- The bytes of four characters, if their padding is right. -/
def decodeGroup (a b c d : Nat) : Option Bytes :=
  if a = padding ∨ b = padding ∨ (c = padding ∧ d ≠ padding) then none
  else
    let count := if c = padding then 1 else if d = padding then 2 else 3
    let packed := [a, b, c, d].foldl (fun packed sextet => packed <<< 6 ||| (sextet &&& 63)) 0
    some (([0, 1, 2].map fun i => UInt8.ofNat (packed >>> ((3 - i - 1) * 8))).take count)

section Decode
variable {σ : Type} (output : Output σ) (live : σ → Bool)

/-- `Decode`, after the values of an incomplete group. -/
def decodeFrom (group : List Nat) (size : Nat) (ended : Bool) : Bytes → Procedure CodecError σ Nat
  | [] => do
    if group ≠ [] then throw .invalid
    output.flush
    return size
  | byte :: rest => do
    if !live (← get) then throw .stale
    match valueOf byte with
    | .whitespace => decodeFrom group size ended rest
    | .invalid => throw .invalid
    | .value n =>
      if ended then throw .invalid
      else
        match group with
        | [a, b, c] =>
          match decodeGroup a b c n with
          | none => throw .invalid
          | some bytes => do
            output.put bytes
            decodeFrom [] (size + bytes.length) (bytes.length < 3) rest
        | _ => decodeFrom (group ++ [n]) size ended rest

def decode : Bytes → Procedure CodecError σ Nat := decodeFrom output live [] 0 false

end Decode

/-! ### The four functions -/

def encodeBase64 (maximum : Nat) (bytes : Bytes) (lines : Bool) : Except CodecError Bytes :=
  match encodedSize bytes.length lines maximum with
  | .error e => .error e
  | .ok _ =>
    match (encode toText (fun _ => true) lines bytes).exec [] with
    | (.ok _, text) => .ok text
    | (.error e, _) => .error e

def decodeBase64 (text : Bytes) : Except CodecError Bytes :=
  match (decode nowhere (fun _ => true) text).exec PUnit.unit with
  | (.error e, _) => .error e
  | (.ok _, _) =>
    match (decode toText (fun _ => true) text).exec [] with
    | (.ok _, bytes) => .ok bytes
    | (.error e, _) => .error e

/-- A procedure of a sink over a stream. The scratch buffer goes with it. -/
def withSink {α : Type} (p : Procedure CodecError Sink α) : Procedure CodecError OutStream PUnit := do
  let stream ← get
  match p.exec {stream} with
  | (.ok _, sink) => set sink.stream
  | (.error e, sink) => do
    set sink.stream
    throw e

/-- What a view shows, in memory that the stream does not own. -/
def own (view : View) (stream : OutStream) : View :=
  if stream.borrows view then .owned (view.shows stream) else view

def encodeToStream (maximum : Nat) (view : View) (lines : Bool) :
    Procedure CodecError OutStream PUnit := do
  let stream ← get
  let view := own view stream
  withSink (encode (toStream maximum) (fun sink => view.live sink.stream) lines (view.shows stream))

def decodeToStream (maximum : Nat) (view : View) : Procedure CodecError OutStream PUnit := do
  let stream ← get
  let _ ← decode nowhere view.live (view.shows stream)
  let view := own view stream
  withSink (decode (toStream maximum) (fun sink => view.live sink.stream) (view.shows stream))

end Agiru.Codec.Base64
