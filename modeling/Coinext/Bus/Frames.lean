import Coinext.ExecSvc.Oms
import Coinext.Model.MarketData
import Coinext.Support.MsgPack

/-!
# Frames of the bus

A frame is a MessagePack array of five fields: schema version, message type, trace id, time and
payload, where the payload is MessagePack again. Two libraries write and read frames. On the Rust
side a frame is a tuple: byte slices are written as arrays of integers, and byte buffers are read
from either a binary, a string or an array. On the Python side the fields are objects of whatever
type arrives, byte strings are written as binaries, and only a byte string can be unpacked.
-/

namespace Coinext.Bus

open MsgPack

/-- What the payload of a frame is. -/
inductive MsgType where
  | quote | trade | bar | delta | orderEvent | fill | timer | cmd | ctrl
deriving DecidableEq

namespace MsgType

def discriminant : MsgType → ℕ
  | quote => 0
  | trade => 1
  | bar => 2
  | delta => 3
  | orderEvent => 4
  | fill => 5
  | timer => 6
  | cmd => 7
  | ctrl => 8

def all : List MsgType := [quote, trade, bar, delta, orderEvent, fill, timer, cmd, ctrl]

theorem discriminant_lt (m : MsgType) : m.discriminant < 9 := by
  cases m <;> decide

end MsgType

/-- The version of the frames. -/
def schemaVersion : ℕ := 1

/-- The bytes of a text. -/
def utf8 (s : String) : Bytes := s.toList.flatMap String.utf8EncodeChar

/-- The bytes are the bytes of a text. -/
def isText (b : Bytes) : Bool := (ByteArray.mk b.toArray).validateUTF8

/-! ## JSON payloads -/

/-- A JSON value of the Rust side, with its numbers as they are held. -/
inductive SerdeValue where
  | null
  | bool (b : Bool)
  | posInt (n : UInt64)
  | negInt (i : Int64)
  | float (bits : UInt64)
  | string (s : String)
  | array (l : List SerdeValue)
  | object (fields : List (String × SerdeValue))

namespace SerdeValue

mutual

/-- The value serialized; structures are maps by name. -/
def toValue : SerdeValue → Value
  | null => .nil
  | bool b => .bool b
  | posInt n => .int n.toNat
  | negInt i => .int i.toInt
  | float bits => .f64 bits
  | string s => .str (utf8 s)
  | array l => .arr (toValues l)
  | object fields => .map (toPairs fields)

def toValues : List SerdeValue → List Value
  | [] => []
  | v :: l => toValue v :: toValues l

def toPairs : List (String × SerdeValue) → List (Value × Value)
  | [] => []
  | p :: l => toPair p :: toPairs l

def toPair : String × SerdeValue → Value × Value
  | (key, v) => (.str (utf8 key), toValue v)

end

/-- An object with its fields in the order of their names. -/
def json (fields : List (String × SerdeValue)) : SerdeValue :=
  object (fields.insertionSort fun p q ↦ p.1 ≤ q.1)

end SerdeValue

/-- The bits of a price and of a quantity as a double. -/
class AsF64 where
  price : Price → UInt64
  quantity : Quantity → UInt64

section Market

variable [AsF64]

def jsonPrice (p : Price) : SerdeValue := .float (AsF64.price p)

def jsonQuantity (q : Quantity) : SerdeValue := .float (AsF64.quantity q)

def jsonTs (ts : UnixNanos) : SerdeValue := .posInt (UInt64.ofNat ts)

/-- What is published of a market event. -/
def eventJson : MarketEvent → MsgType × SerdeValue
  | .quote q => (.quote, .json [("instrument", .string q.instrumentId.display),
      ("bid", jsonPrice q.bid), ("ask", jsonPrice q.ask), ("bid_sz", jsonQuantity q.bidSize),
      ("ask_sz", jsonQuantity q.askSize), ("ts_event", jsonTs q.tsEvent)])
  | .trade t => (.trade, .json [("instrument", .string t.instrumentId.display),
      ("px", jsonPrice t.price), ("qty", jsonQuantity t.size), ("ts_event", jsonTs t.tsEvent)])
  | .bar b => (.bar, .json [("instrument", .string b.barType.instrumentId.display),
      ("open", jsonPrice b.open_), ("high", jsonPrice b.high), ("low", jsonPrice b.low),
      ("close", jsonPrice b.close), ("volume", jsonQuantity b.volume),
      ("ts_event", jsonTs b.tsEvent)])
  | .delta d => (.delta, .json [("instrument", .string d.instrumentId.display),
      ("px", jsonPrice d.price), ("sz", jsonQuantity d.size),
      ("seq", .posInt (UInt64.ofNat d.sequence)), ("ts_event", jsonTs d.tsEvent)])

def eventPayload (ev : MarketEvent) : MsgType × Bytes :=
  ((eventJson ev).1, (eventJson ev).2.toValue.encode)

end Market

/-! ## The Rust side -/

/-- The frame of the Rust side. -/
structure Envelope where
  schemaVersion : UInt16
  msgType : UInt8
  traceId : Vector UInt8 16
  tsInit : UInt64
  payload : Bytes

def Envelope.new (msgType : MsgType) (traceId : Vector UInt8 16) (tsInit : UInt64)
    (payload : Bytes) : Envelope where
  schemaVersion := 1
  msgType := UInt8.ofNat msgType.discriminant
  traceId := traceId
  tsInit := tsInit
  payload := payload

/-- A slice of bytes, serialized as the slice of integers it is. -/
def slice (b : Bytes) : Value := .arr (b.map fun x ↦ .int x.toNat)

def encodeEnvelopeMsgpack (env : Envelope) : Bytes :=
  (Value.arr [.int env.schemaVersion.toNat, .int env.msgType.toNat, slice env.traceId.toList,
    .int env.tsInit.toNat, slice env.payload]).encode

def encodeEventEnvelope (payload : SerdeValue) (now : UInt64) : Bytes :=
  (Value.arr [.int 1, .int MsgType.orderEvent.discriminant, slice (List.replicate 16 0),
    .int now.toNat, slice payload.toValue.encode]).encode

/-- An unsigned integer of `w` bits. -/
def uint (w : ℕ) : Value → Option ℕ
  | .int i => if 0 ≤ i ∧ i < 2 ^ w then some i.toNat else none
  | _ => none

/-- A byte buffer. -/
def byteBuf : Value → Option Bytes
  | .bin b | .str b => some b
  | .arr l => (l.mapM (uint 8)).map (List.map UInt8.ofNat)
  | _ => none

/-- The fields of a frame. -/
structure FrameFields where
  schemaVersion : ℕ
  msgType : ℕ
  traceId : Bytes
  tsInit : ℕ
  payload : Bytes
deriving DecidableEq

/-- Read the tuple of a frame; what follows it is not looked at. -/
def fromSlice (frame : Bytes) : Option FrameFields :=
  match decode frame with
  | some (.arr [schemaVersion, msgType, traceId, tsInit, payload], _) => do
    some ⟨← uint 16 schemaVersion, ← uint 8 msgType, ← byteBuf traceId, ← uint 64 tsInit,
      ← byteBuf payload⟩
  | _ => none

/-! ### Control payloads -/

/-- The index of the field a key names, past the names if it names none. -/
def fieldIndex (names : List String) : Value → Option ℕ
  | .int i => if 0 ≤ i then some i.toNat else none
  | .str b | .bin b => some (names.findIdx fun name ↦ utf8 name = b)
  | _ => none

/-- A field that is there once. -/
def structField (names : List String) (i : ℕ) (pairs : List (Value × Value)) : Option Value :=
  match pairs.filter fun p ↦ fieldIndex names p.1 = some i with
  | [p] => some p.2
  | _ => none

/-- The bytes of a string. -/
def asText : Value → Option Bytes
  | .str b | .bin b => if isText b then some b else none
  | _ => none

def asBool : Value → Option Bool
  | .bool b => some b
  | _ => none

/-- The kind of a control command, and whether it engages the switch; by name or by position. -/
def ctrlPayload (payload : Bytes) : Option (Bytes × Bool) :=
  let names := ["kind", "engaged"]
  match decode payload with
  | some (.map pairs, _) =>
    if pairs.all fun p ↦ (fieldIndex names p.1).isSome then do
      some (← asText (← structField names 0 pairs), ← asBool (← structField names 1 pairs))
    else none
  | some (.arr [kind, engaged], _) => do some (← asText kind, ← asBool engaged)
  | _ => none

def parseKillSwitch (frame : Bytes) : Option Bool := do
  let fields ← fromSlice frame
  if fields.msgType ≠ 8 then none
  else
    let (kind, engaged) ← ctrlPayload fields.payload
    if kind ≠ utf8 "CtrlKillSwitch" then none else some engaged

/-- How the payload of a command is read. -/
class CommandPayload where
  fromSlice : Bytes → Option ExecSvc.ExecCommand

def decodeCmdEnvelope [CommandPayload] (frame : Bytes) : Option ExecSvc.ExecCommand := do
  let fields ← fromSlice frame
  if fields.msgType ≠ 7 then none else CommandPayload.fromSlice fields.payload

/-! ## The Python side -/

inductive PyError where
  /-- The input ends early, or holds a byte that starts no value. -/
  | unpack
  | extraData
  /-- A string that is no text. -/
  | unicode
  /-- A key of a map that is neither a string nor bytes. -/
  | mapKey
  | malformed (fields : Value)
  | schemaMismatch (frame : Value)
  | notMsgType (v : Value)
  /-- A bytes-like object is required. -/
  | notBytes
  /-- An integer or a length that has no form. -/
  | tooLarge
  /-- An extension of the type of timestamps that holds none. -/
  | timestamp

/-- The tag of timestamps, the code `-1`. -/
def timestampTag : UInt8 := 0xff

/-- Seconds in four bytes, or nanoseconds with the seconds behind them, in eight bytes or twelve. -/
def isTimestamp (b : Bytes) : Bool :=
  match b.length with
  | 4 => true
  | 8 => decide (ofBe b / 2 ^ 34 < 10 ^ 9)
  | 12 => decide (ofBe (b.take 4) < 10 ^ 9)
  | _ => false

mutual

/-- The object for a value. With `raw`, strings stay bytes; else they have to be texts. -/
def construct (raw : Bool) : Value → Except PyError Value
  | .str b => if raw then .ok (.bin b) else if isText b then .ok (.str b) else .error .unicode
  | .arr l => (constructAll raw l).map .arr
  | .map l => (constructPairs raw l).map .map
  | .ext tag b =>
    if tag = timestampTag ∧ ¬ isTimestamp b then .error .timestamp else .ok (.ext tag b)
  | v => .ok v

def constructAll (raw : Bool) : List Value → Except PyError (List Value)
  | [] => .ok []
  | v :: l => do
    let v ← construct raw v
    let l ← constructAll raw l
    .ok (v :: l)

def constructPairs (raw : Bool) : List (Value × Value) → Except PyError (List (Value × Value))
  | [] => .ok []
  | p :: l => do
    let p ← constructPair raw p
    let l ← constructPairs raw l
    .ok (p :: l)

def constructPair (raw : Bool) : Value × Value → Except PyError (Value × Value)
  | (k, v) => do
    let k ← match k with
      | .str _ | .bin _ => construct raw k
      | _ => .error .mapKey
    let v ← construct raw v
    .ok (k, v)

end

/-- `msgpack.unpackb`. -/
def unpackb (raw : Bool) (bs : Bytes) : Except PyError Value :=
  match decode bs with
  | none => .error .unpack
  | some (v, []) => construct raw v
  | some (_, _ :: _) => .error .extraData

/-- The number a finite float of so many exponent and mantissa bits stands for. -/
def floatValue (exponent mantissa n : ℕ) : Option ℚ :=
  let m := n % 2 ^ mantissa
  let e := n / 2 ^ mantissa % 2 ^ exponent
  let unit : ℚ := if n < 2 ^ (mantissa + exponent) then 1 else -1
  let bias : ℤ := 2 ^ (exponent - 1) - 1
  if e = 2 ^ exponent - 1 then none
  else if e = 0 then some (unit * m * 2 ^ (1 - bias - mantissa))
  else some (unit * (2 ^ mantissa + m) * 2 ^ (e - bias - mantissa))

/-- The number an object compares as. -/
def number : Value → Option ℚ
  | .int i => some i
  | .bool b => some (if b then 1 else 0)
  | .f32 bits => floatValue 8 23 bits.toNat
  | .f64 bits => floatValue 11 52 bits.toNat
  | _ => none

/-- A frame as it is decoded: its fields are whatever arrived. -/
structure DecodedEnvelope where
  schemaVersion : Value
  msgType : MsgType
  traceId : Value
  tsInit : Value
  payload : Value

def decodeEnvelope (raw : Bytes) : Except PyError DecodedEnvelope :=
  match unpackb true raw with
  | .error e => .error e
  | .ok (.arr [schemaVersion, msgType, traceId, tsInit, payload]) =>
    if number schemaVersion ≠ some (Bus.schemaVersion : ℚ) then
      .error (.schemaMismatch schemaVersion)
    else match MsgType.all.find? fun m ↦ number msgType = some (m.discriminant : ℚ) with
      | none => .error (.notMsgType msgType)
      | some m => .ok ⟨schemaVersion, m, traceId, tsInit, payload⟩
  | .ok fields => .error (.malformed fields)

/-- Unpack the payload, which has to be a byte string. -/
def decodePayload (env : DecodedEnvelope) : Except PyError Value :=
  match env.payload with
  | .bin b => unpackb false b
  | _ => .error .notBytes

/-- A frame of the Python side, as it is declared. -/
structure PyEnvelope where
  schemaVersion : ℤ
  msgType : MsgType
  traceId : Bytes
  tsInit : ℤ
  payload : Bytes

namespace PyEnvelope

def value (env : PyEnvelope) : Value :=
  .arr [.int env.schemaVersion, .int env.msgType.discriminant, .bin env.traceId, .int env.tsInit,
    .bin env.payload]

/-- Every field has a form. -/
def Packable (env : PyEnvelope) : Prop :=
  (-2 ^ 63 ≤ env.schemaVersion ∧ env.schemaVersion < 2 ^ 64) ∧ env.traceId.length < 2 ^ 32
    ∧ (-2 ^ 63 ≤ env.tsInit ∧ env.tsInit < 2 ^ 64) ∧ env.payload.length < 2 ^ 32

instance (env : PyEnvelope) : Decidable env.Packable := inferInstanceAs (Decidable (_ ∧ _ ∧ _ ∧ _))

end PyEnvelope

def encodeEnvelope (env : PyEnvelope) : Except PyError Bytes :=
  if env.Packable then .ok env.value.encode else .error .tooLarge

end Coinext.Bus
