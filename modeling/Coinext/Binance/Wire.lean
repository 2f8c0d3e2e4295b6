import Coinext.Core.Value
import Coinext.Model.Types

/-!
# The wire format of the Binance adapter

The adapter reads JSON objects whose prices and quantities are decimal strings, and normalizes them
to a fixed wire precision before any instrument is known. JSON text is parsed by `serde_json`, so
the model starts from the parsed value. Decimal strings are parsed by `rust_decimal`: `DecimalText`
stands for its `from_str`, and what the adapter is proved to do is proved for every reading of the
strings.
-/

namespace Coinext

/-- A parsed JSON value. `uint` holds the integer literals that are not negative. -/
inductive Json where
  | null
  | bool (b : Bool)
  | uint (n : ℕ)
  | number (q : ℚ)
  | str (s : String)
  | arr (l : List Json)
  | obj (fields : List (String × Json))

namespace Json

/-- A member of an object. -/
def get (key : String) : Json → Option Json
  | obj fields => fields.lookup key
  | _ => none

def asStr : Json → Option String
  | str s => some s
  | _ => none

/-- An integer literal past `u64::MAX` is read as a float, which is no `u64`. -/
def asU64 : Json → Option ℕ
  | uint n => if n ≤ u64Max then some n else none
  | _ => none

def asBool : Json → Option Bool
  | bool b => some b
  | _ => none

def asArray : Json → Option (List Json)
  | arr l => some l
  | _ => none

def getStr (key : String) (v : Json) : Option String := (v.get key).bind asStr

def getU64 (key : String) (v : Json) : Option ℕ := (v.get key).bind asU64

def getBool (key : String) (v : Json) : Option Bool := (v.get key).bind asBool

def getArray (key : String) (v : Json) : Option (List Json) := (v.get key).bind asArray

end Json

/-- How decimal strings are read: `Decimal::from_str`, with the text of its error. -/
class DecimalText where
  fromStr : String → Except String Decimal

/-! ## Plain notation -/

namespace PlainDecimal

/-- The number a non-empty string of digits stands for. -/
def ofDigits (l : List Char) : Option ℕ :=
  if l ≠ [] ∧ l.all Char.isDigit = true then some (Nat.ofDigitChars 10 l 0) else none

/-- Digits, or digits with a point in between, as Binance writes its decimals. -/
def fromStr (s : String) : Except String Decimal :=
  let whole := s.toList.takeWhile (· ≠ '.')
  let fraction := (s.toList.dropWhile (· ≠ '.')).tail
  match ofDigits whole, ofDigits fraction with
  | some n, some k => .ok (n + k / 10 ^ fraction.length)
  | some n, none => if whole = s.toList then .ok n else .error "Invalid decimal"
  | none, _ => .error "Invalid decimal"

scoped instance : DecimalText := ⟨fromStr⟩

end PlainDecimal

namespace Binance

/-- The error texts of the adapter; what a text prints besides strings is kept as it is. -/
inductive WireError where
  | text (message : String)
  /-- A domain error behind a context, which may be empty. -/
  | model (context : String) (e : ModelError)
  /-- `bad side` and what stood in its place. -/
  | badSide (found : Option String)
deriving DecidableEq

/-- Decimal places of everything the adapter normalizes. -/
def wirePrecision : ℕ := 8

def venue : Venue := ⟨"BINANCE"⟩

def instrumentId (symbol : String) : InstrumentId := ⟨⟨symbol⟩, venue⟩

theorem instrumentId_injective : Function.Injective instrumentId := fun _ _ h ↦
  congrArg Symbol.text (congrArg InstrumentId.symbol h)

/-- Milliseconds to nanoseconds, saturating. -/
def msToNanos (ms : ℕ) : UnixNanos := min (ms * 1000000) u64Max

/-- The value, or an error with this text. -/
def orError {α : Type} (x : Option α) (message : String) : Except WireError α :=
  match x with
  | some a => .ok a
  | none => .error (.text message)

theorem orError_eq_ok_iff {α : Type} {x : Option α} {message : String} {a : α} :
    orError x message = .ok a ↔ x = some a := by
  cases x <;> simp [orError]

/-- The value of a domain constructor, or its error behind a context. -/
def orModelError {α : Type} (x : Except ModelError α) (context : String) : Except WireError α :=
  x.mapError (.model context)

theorem orModelError_eq_ok_iff {α : Type} {x : Except ModelError α} {context : String} {a : α} :
    orModelError x context = .ok a ↔ x = .ok a := by
  cases x <;> simp [orModelError, Except.mapError]

variable [DecimalText]

/-- Read a decimal string, or fail with the text of the error behind a context. -/
def parseDecimal (context : String → String) (s : String) : Except WireError Decimal :=
  (DecimalText.fromStr s).mapError fun e ↦ .text (context s ++ ": " ++ e)

theorem parseDecimal_eq_ok_iff {context : String → String} {s : String} {d : Decimal} :
    parseDecimal context s = .ok d ↔ DecimalText.fromStr s = .ok d := by
  cases h : DecimalText.fromStr s <;> simp [parseDecimal, h, Except.mapError]

/-! ## Market data fields -/

def strField (data : Json) (key : String) : Except WireError String :=
  orError (data.getStr key) ("missing string field `" ++ key ++ "`")

def numField (data : Json) (key : String) : Except WireError ℕ :=
  orError (data.getU64 key) ("missing integer field `" ++ key ++ "`")

variable [DecimalWidth]

def parsePrice (s : String) : Except WireError Price := do
  let d ← parseDecimal ("bad price " ++ ·) s
  orModelError (Price.fromDecimal d wirePrecision) ("price " ++ s)

def parseQty (s : String) : Except WireError Quantity := do
  let d ← parseDecimal ("bad qty " ++ ·) s
  orModelError (Quantity.fromDecimal d wirePrecision) ("qty " ++ s)

end Binance

end Coinext
