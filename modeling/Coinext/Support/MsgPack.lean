import Mathlib.Data.Nat.Basic
import Mathlib.Tactic.Linarith

/-!
# MessagePack

A value is written as a head, which says what follows and how much of it, and a body. Heads take the
shortest form that holds them, as the usual encoders write them; every form of the format is read.

Reading is by fuel. Every level of nesting takes at least one byte, so the length of the input is
fuel enough, and what is written is read back with whatever follows it (`decode_encode`).
-/

namespace Coinext.MsgPack

abbrev Bytes := List UInt8

/-! ## Numbers -/

/-- The last `w` bytes of a number, the most significant first. -/
def toBe : ℕ → ℕ → Bytes
  | 0, _ => []
  | w + 1, n => toBe w (n / 256) ++ [UInt8.ofNat n]

def ofBe (bs : Bytes) : ℕ := bs.foldl (fun n b ↦ n * 256 + b.toNat) 0

@[simp] theorem length_toBe (w n : ℕ) : (toBe w n).length = w := by
  induction w generalizing n with
  | zero => rfl
  | succ w ih => simp [toBe, ih]

theorem ofBe_toBe {w n : ℕ} (h : n < 256 ^ w) : ofBe (toBe w n) = n := by
  induction w generalizing n with
  | zero =>
    rw [pow_zero, Nat.lt_one_iff] at h
    rw [h]
    rfl
  | succ w ih =>
    have hdiv : n / 256 < 256 ^ w := Nat.div_lt_of_lt_mul (by rwa [pow_succ, mul_comm] at h)
    have hlast : (UInt8.ofNat n).toNat = n % 256 := UInt8.toNat_ofNat'
    have hfront := ih hdiv
    simp only [ofBe, toBe, List.foldl_append, List.foldl_cons, List.foldl_nil, hlast] at hfront ⊢
    rw [hfront]
    omega

/-- The number that `w` bytes stand for in two's complement. -/
def signed (w n : ℕ) : ℤ := if 2 * n < 256 ^ w then n else n - 256 ^ w

/-! ## Reading bytes -/

def readBytes (n : ℕ) (bs : Bytes) : Option (Bytes × Bytes) :=
  if n ≤ bs.length then some (bs.take n, bs.drop n) else none

def readNat (w : ℕ) (bs : Bytes) : Option (ℕ × Bytes) :=
  (readBytes w bs).map fun p ↦ (ofBe p.1, p.2)

theorem readBytes_append {n : ℕ} {bs : Bytes} (h : bs.length = n) (rest : Bytes) :
    readBytes n (bs ++ rest) = some (bs, rest) := by
  subst h
  simp [readBytes]

theorem readNat_toBe {w n : ℕ} (h : n < 256 ^ w) (rest : Bytes) :
    readNat w (toBe w n ++ rest) = some (n, rest) := by
  rw [readNat, readBytes_append (length_toBe w n), Option.map_some, ofBe_toBe h]

/-! ## Heads -/

/-- What follows: a value without a body, a body of so many bytes, or so many values. -/
inductive Head where
  | nil
  | bool (b : Bool)
  | int (i : ℤ)
  | f32 (bits : UInt32)
  | f64 (bits : UInt64)
  | str (n : ℕ)
  | bin (n : ℕ)
  | ext (n : ℕ) (tag : UInt8)
  | arr (n : ℕ)
  | map (n : ℕ)
deriving DecidableEq

namespace Head

/-- The shortest form of a number that is not negative. -/
def uintBytes (n : ℕ) : Bytes :=
  if n < 128 then [UInt8.ofNat n]
  else if n < 2 ^ 8 then 0xcc :: toBe 1 n
  else if n < 2 ^ 16 then 0xcd :: toBe 2 n
  else if n < 2 ^ 32 then 0xce :: toBe 4 n
  else 0xcf :: toBe 8 n

/-- The shortest form of the number `-n`. -/
def negBytes (n : ℕ) : Bytes :=
  if n ≤ 32 then [UInt8.ofNat (256 - n)]
  else if n ≤ 2 ^ 7 then 0xd0 :: toBe 1 (2 ^ 8 - n)
  else if n ≤ 2 ^ 15 then 0xd1 :: toBe 2 (2 ^ 16 - n)
  else if n ≤ 2 ^ 31 then 0xd2 :: toBe 4 (2 ^ 32 - n)
  else 0xd3 :: toBe 8 (2 ^ 64 - n)

/-- The shortest form of a head. A length past `2 ^ 32` loses its upper bits. -/
def bytes : Head → Bytes
  | nil => [0xc0]
  | bool b => if b then [0xc3] else [0xc2]
  | int i => if 0 ≤ i then uintBytes i.toNat else negBytes (-i).toNat
  | f32 bits => 0xca :: toBe 4 bits.toNat
  | f64 bits => 0xcb :: toBe 8 bits.toNat
  | str n =>
    if n < 32 then [UInt8.ofNat (0xa0 + n)]
    else if n < 2 ^ 8 then 0xd9 :: toBe 1 n
    else if n < 2 ^ 16 then 0xda :: toBe 2 n
    else 0xdb :: toBe 4 n
  | bin n =>
    if n < 2 ^ 8 then 0xc4 :: toBe 1 n
    else if n < 2 ^ 16 then 0xc5 :: toBe 2 n
    else 0xc6 :: toBe 4 n
  | ext n tag =>
    if n = 1 then [0xd4, tag]
    else if n = 2 then [0xd5, tag]
    else if n = 4 then [0xd6, tag]
    else if n = 8 then [0xd7, tag]
    else if n = 16 then [0xd8, tag]
    else if n < 2 ^ 8 then 0xc7 :: (toBe 1 n ++ [tag])
    else if n < 2 ^ 16 then 0xc8 :: (toBe 2 n ++ [tag])
    else 0xc9 :: (toBe 4 n ++ [tag])
  | arr n =>
    if n < 16 then [UInt8.ofNat (0x90 + n)]
    else if n < 2 ^ 16 then 0xdc :: toBe 2 n
    else 0xdd :: toBe 4 n
  | map n =>
    if n < 16 then [UInt8.ofNat (0x80 + n)]
    else if n < 2 ^ 16 then 0xde :: toBe 2 n
    else 0xdf :: toBe 4 n

/-- The head has a form: integers are in the range of one of the 64-bit types, and lengths fit in
32 bits. -/
def Fits : Head → Prop
  | int i => -2 ^ 63 ≤ i ∧ i < 2 ^ 64
  | str n | bin n | ext n _ | arr n | map n => n < 2 ^ 32
  | _ => True

/-- Read a length, and a tag behind it. -/
def readExt (w : ℕ) (bs : Bytes) : Option (Head × Bytes) :=
  match readNat w bs with
  | some (n, tag :: bs) => some (ext n tag, bs)
  | _ => none

/-- The tag of an extension of a fixed length. -/
def readTag (n : ℕ) : Bytes → Option (Head × Bytes)
  | tag :: bs => some (ext n tag, bs)
  | [] => none

/-- Read the rest of a head whose first byte is a marker. -/
def readMarked (b : ℕ) (bs : Bytes) : Option (Head × Bytes) :=
  let sized (w : ℕ) (f : ℕ → Head) := (readNat w bs).map fun p ↦ (f p.1, p.2)
  match b with
  | 0xc0 => some (nil, bs)
  | 0xc2 => some (bool false, bs)
  | 0xc3 => some (bool true, bs)
  | 0xc4 => sized 1 bin
  | 0xc5 => sized 2 bin
  | 0xc6 => sized 4 bin
  | 0xc7 => readExt 1 bs
  | 0xc8 => readExt 2 bs
  | 0xc9 => readExt 4 bs
  | 0xca => sized 4 fun n ↦ f32 (UInt32.ofNat n)
  | 0xcb => sized 8 fun n ↦ f64 (UInt64.ofNat n)
  | 0xcc => sized 1 fun n ↦ int n
  | 0xcd => sized 2 fun n ↦ int n
  | 0xce => sized 4 fun n ↦ int n
  | 0xcf => sized 8 fun n ↦ int n
  | 0xd0 => sized 1 fun n ↦ int (signed 1 n)
  | 0xd1 => sized 2 fun n ↦ int (signed 2 n)
  | 0xd2 => sized 4 fun n ↦ int (signed 4 n)
  | 0xd3 => sized 8 fun n ↦ int (signed 8 n)
  | 0xd4 => readTag 1 bs
  | 0xd5 => readTag 2 bs
  | 0xd6 => readTag 4 bs
  | 0xd7 => readTag 8 bs
  | 0xd8 => readTag 16 bs
  | 0xd9 => sized 1 str
  | 0xda => sized 2 str
  | 0xdb => sized 4 str
  | 0xdc => sized 2 arr
  | 0xdd => sized 4 arr
  | 0xde => sized 2 map
  | 0xdf => sized 4 map
  | _ => none

/-- Read the rest of a head, by its first byte. -/
def readAfter (b : ℕ) (bs : Bytes) : Option (Head × Bytes) :=
  if b < 0x80 then some (int b, bs)
  else if b < 0x90 then some (map (b - 0x80), bs)
  else if b < 0xa0 then some (arr (b - 0x90), bs)
  else if b < 0xc0 then some (str (b - 0xa0), bs)
  else if 0xe0 ≤ b then some (int (b - 256), bs)
  else readMarked b bs

/-- Read a head. -/
def read : Bytes → Option (Head × Bytes)
  | [] => none
  | b :: bs => readAfter b.toNat bs

/-! ### What is written is read back -/

theorem read_ofNat {n : ℕ} (h : n < 256) (rest : Bytes) :
    read ([UInt8.ofNat n] ++ rest) = readAfter n rest := by
  simp only [List.cons_append, List.nil_append, read]
  rw [UInt8.toNat_ofNat_of_lt' h]

theorem read_sized {b : UInt8} {w n : ℕ} {f : ℕ → Head} (hn : n < 256 ^ w)
    (hb : ∀ bs, readAfter b.toNat bs = (readNat w bs).map fun p ↦ (f p.1, p.2)) (rest : Bytes) :
    read (b :: toBe w n ++ rest) = some (f n, rest) := by
  rw [List.cons_append, read, hb, readNat_toBe hn, Option.map_some]

theorem read_sizedExt {b tag : UInt8} {w n : ℕ} (hn : n < 256 ^ w)
    (hb : ∀ bs, readAfter b.toNat bs = readExt w bs) (rest : Bytes) :
    read (b :: (toBe w n ++ [tag]) ++ rest) = some (ext n tag, rest) := by
  rw [List.cons_append, read, hb, readExt, List.append_assoc, readNat_toBe hn]
  rfl

theorem read_uintBytes {n : ℕ} (h : n < 2 ^ 64) (rest : Bytes) :
    read (uintBytes n ++ rest) = some (int n, rest) := by
  unfold uintBytes
  split_ifs with h1 h2 h3 h4
  · rw [read_ofNat (by omega), readAfter, if_pos h1]
  · exact read_sized (f := fun n ↦ int n) h2 (fun _ ↦ rfl) rest
  · exact read_sized (f := fun n ↦ int n) h3 (fun _ ↦ rfl) rest
  · exact read_sized (f := fun n ↦ int n) h4 (fun _ ↦ rfl) rest
  · exact read_sized (f := fun n ↦ int n) h (fun _ ↦ rfl) rest

theorem signed_sub {w n : ℕ} (hpos : 0 < n) (h : 2 * n ≤ 256 ^ w) :
    signed w (256 ^ w - n) = -n := by
  have hle : n ≤ 256 ^ w := by omega
  rw [signed, if_neg (by omega)]
  push_cast [hle]
  exact sub_sub_cancel_left _ _

theorem read_negBytes {n : ℕ} (hpos : 0 < n) (h : n ≤ 2 ^ 63) (rest : Bytes) :
    read (negBytes n ++ rest) = some (int (-n), rest) := by
  have hread {b : UInt8} {w : ℕ} (hn : 2 * n ≤ 256 ^ w)
      (hb : ∀ bs, readAfter b.toNat bs = (readNat w bs).map fun p ↦ (int (signed w p.1), p.2)) :
      read (b :: toBe w (256 ^ w - n) ++ rest) = some (int (-n), rest) := by
    rw [← signed_sub hpos hn]
    exact read_sized (f := fun n ↦ int (signed w n)) (by omega) hb rest
  unfold negBytes
  split_ifs with h1 h2 h3 h4
  · have hcast : ((256 - n : ℕ) : ℤ) - 256 = -n := by omega
    rw [read_ofNat (by omega), readAfter, if_neg (by omega), if_neg (by omega), if_neg (by omega),
      if_neg (by omega), if_pos (by omega), hcast]
  · exact hread (w := 1) (by omega) fun _ ↦ rfl
  · exact hread (w := 2) (by omega) fun _ ↦ rfl
  · exact hread (w := 4) (by omega) fun _ ↦ rfl
  · exact hread (w := 8) (by omega) fun _ ↦ rfl

/-- **Heads.** -/
theorem read_bytes {h : Head} (hfits : h.Fits) (rest : Bytes) :
    read (h.bytes ++ rest) = some (h, rest) := by
  cases h with
  | nil => rfl
  | bool b => cases b <;> rfl
  | int i =>
    obtain ⟨hmin, hmax⟩ := hfits
    rw [bytes]
    split_ifs with hi
    · have hcast : ((i.toNat : ℕ) : ℤ) = i := Int.toNat_of_nonneg hi
      rw [read_uintBytes (by omega), hcast]
    · have hcast : -(((-i).toNat : ℕ) : ℤ) = i := by omega
      rw [read_negBytes (by omega) (by omega), hcast]
  | f32 bits =>
    have hread := read_sized (f := fun n ↦ f32 (UInt32.ofNat n)) (b := 0xca) (w := 4)
      bits.toNat_lt (fun _ ↦ rfl) rest
    rwa [UInt32.ofNat_toNat] at hread
  | f64 bits =>
    have hread := read_sized (f := fun n ↦ f64 (UInt64.ofNat n)) (b := 0xcb) (w := 8)
      bits.toNat_lt (fun _ ↦ rfl) rest
    rwa [UInt64.ofNat_toNat] at hread
  | str n =>
    rw [bytes]
    split_ifs with h1 h2 h3
    · rw [read_ofNat (by omega), readAfter, if_neg (by omega), if_neg (by omega), if_neg (by omega),
        if_pos (by omega), Nat.add_sub_cancel_left]
    · exact read_sized h2 (fun _ ↦ rfl) rest
    · exact read_sized h3 (fun _ ↦ rfl) rest
    · exact read_sized hfits (fun _ ↦ rfl) rest
  | bin n =>
    rw [bytes]
    split_ifs with h1 h2
    · exact read_sized h1 (fun _ ↦ rfl) rest
    · exact read_sized h2 (fun _ ↦ rfl) rest
    · exact read_sized hfits (fun _ ↦ rfl) rest
  | ext n tag =>
    rw [bytes]
    split_ifs with h1 h2 h4 h8 h16 hlt hlt'
    · rw [h1]; rfl
    · rw [h2]; rfl
    · rw [h4]; rfl
    · rw [h8]; rfl
    · rw [h16]; rfl
    · exact read_sizedExt hlt (fun _ ↦ rfl) rest
    · exact read_sizedExt hlt' (fun _ ↦ rfl) rest
    · exact read_sizedExt hfits (fun _ ↦ rfl) rest
  | arr n =>
    rw [bytes]
    split_ifs with h1 h2
    · rw [read_ofNat (by omega), readAfter, if_neg (by omega), if_neg (by omega), if_pos (by omega),
        Nat.add_sub_cancel_left]
    · exact read_sized h2 (fun _ ↦ rfl) rest
    · exact read_sized hfits (fun _ ↦ rfl) rest
  | map n =>
    rw [bytes]
    split_ifs with h1 h2
    · rw [read_ofNat (by omega), readAfter, if_neg (by omega), if_pos (by omega),
        Nat.add_sub_cancel_left]
    · exact read_sized h2 (fun _ ↦ rfl) rest
    · exact read_sized hfits (fun _ ↦ rfl) rest

end Head

/-! ## Values -/

/-- A value. Strings are kept as their bytes, which need not be valid text. -/
inductive Value where
  | nil
  | bool (b : Bool)
  | int (i : ℤ)
  | f32 (bits : UInt32)
  | f64 (bits : UInt64)
  | str (b : Bytes)
  | bin (b : Bytes)
  | ext (tag : UInt8) (b : Bytes)
  | arr (l : List Value)
  | map (l : List (Value × Value))

namespace Value

mutual

def encode : Value → Bytes
  | nil => Head.nil.bytes
  | bool b => (Head.bool b).bytes
  | int i => (Head.int i).bytes
  | f32 bits => (Head.f32 bits).bytes
  | f64 bits => (Head.f64 bits).bytes
  | str b => (Head.str b.length).bytes ++ b
  | bin b => (Head.bin b.length).bytes ++ b
  | ext tag b => (Head.ext b.length tag).bytes ++ b
  | arr l => (Head.arr l.length).bytes ++ encodeAll l
  | map l => (Head.map l.length).bytes ++ encodePairs l

def encodeAll : List Value → Bytes
  | [] => []
  | v :: l => encode v ++ encodeAll l

def encodePairs : List (Value × Value) → Bytes
  | [] => []
  | p :: l => encodePair p ++ encodePairs l

def encodePair : Value × Value → Bytes
  | (k, v) => encode k ++ encode v

end

end Value

/-! ## Reading values -/

section Read

variable {α : Type} (read : Bytes → Option (α × Bytes))

/-- Read so many items. -/
def readMany : ℕ → Bytes → Option (List α × Bytes)
  | 0, bs => some ([], bs)
  | n + 1, bs => do
    let (a, bs) ← read bs
    let (l, bs) ← readMany n bs
    some (a :: l, bs)

def readPair (bs : Bytes) : Option ((α × α) × Bytes) := do
  let (k, bs) ← read bs
  let (v, bs) ← read bs
  some ((k, v), bs)

/-- Read what a head says to read. -/
def readBody (read : Bytes → Option (Value × Bytes)) (bs : Bytes) : Head → Option (Value × Bytes)
  | .nil => some (.nil, bs)
  | .bool b => some (.bool b, bs)
  | .int i => some (.int i, bs)
  | .f32 bits => some (.f32 bits, bs)
  | .f64 bits => some (.f64 bits, bs)
  | .str n => (readBytes n bs).map fun p ↦ (.str p.1, p.2)
  | .bin n => (readBytes n bs).map fun p ↦ (.bin p.1, p.2)
  | .ext n tag => (readBytes n bs).map fun p ↦ (.ext tag p.1, p.2)
  | .arr n => (readMany read n bs).map fun p ↦ (.arr p.1, p.2)
  | .map n => (readMany (readPair read) n bs).map fun p ↦ (.map p.1, p.2)

end Read

/-- Read a value with fuel for so many levels. -/
def decodeFuel : ℕ → Bytes → Option (Value × Bytes)
  | 0, _ => none
  | fuel + 1, bs => do
    let (head, bs) ← Head.read bs
    readBody (decodeFuel fuel) bs head

/-- Read a value, and what follows it. -/
def decode (bs : Bytes) : Option (Value × Bytes) := decodeFuel bs.length bs

/-! ## What is written is read back -/

namespace Value

mutual

/-- Every head of the value has a form. -/
def Fits : Value → Prop
  | int i => (Head.int i).Fits
  | str b => (Head.str b.length).Fits
  | bin b => (Head.bin b.length).Fits
  | ext tag b => (Head.ext b.length tag).Fits
  | arr l => (Head.arr l.length).Fits ∧ FitsAll l
  | map l => (Head.map l.length).Fits ∧ FitsPairs l
  | _ => True

def FitsAll : List Value → Prop
  | [] => True
  | v :: l => Fits v ∧ FitsAll l

def FitsPairs : List (Value × Value) → Prop
  | [] => True
  | p :: l => FitsPair p ∧ FitsPairs l

def FitsPair : Value × Value → Prop
  | (k, v) => Fits k ∧ Fits v

end

end Value

open Value

theorem Head.length_bytes_pos {h : Head} (hfits : h.Fits) : 0 < h.bytes.length := by
  rw [List.length_pos_iff]
  intro hnil
  have hread := Head.read_bytes hfits []
  rw [hnil] at hread
  cases hread

theorem decodeFuel_bytes {h : Head} (hfits : h.Fits) (fuel : ℕ) (bs : Bytes) :
    decodeFuel (fuel + 1) (h.bytes ++ bs) = readBody (decodeFuel fuel) bs h := by
  rw [decodeFuel, Head.read_bytes hfits]
  rfl

/-- A value that is a head. -/
theorem decodeFuel_head {h : Head} {v : Value} (hfits : h.Fits) {fuel : ℕ}
    (hfuel : h.bytes.length ≤ fuel) {rest : Bytes}
    (hv : ∀ fuel, readBody (decodeFuel fuel) rest h = some (v, rest)) :
    decodeFuel fuel (h.bytes ++ rest) = some (v, rest) := by
  have hpos := Head.length_bytes_pos hfits
  obtain ⟨n, rfl⟩ : ∃ n, fuel = n + 1 := ⟨fuel - 1, by omega⟩
  rw [decodeFuel_bytes hfits, hv]

/-- A value that is a head and a body, when the body is read back with less fuel. -/
theorem decodeFuel_body {h : Head} {v : Value} {body : Bytes} (hfits : h.Fits) {fuel : ℕ}
    (hfuel : (h.bytes ++ body).length ≤ fuel) {rest : Bytes}
    (hv : ∀ fuel, body.length ≤ fuel →
      readBody (decodeFuel fuel) (body ++ rest) h = some (v, rest)) :
    decodeFuel fuel (h.bytes ++ body ++ rest) = some (v, rest) := by
  have hpos := Head.length_bytes_pos hfits
  rw [List.length_append] at hfuel
  obtain ⟨n, rfl⟩ : ∃ n, fuel = n + 1 := ⟨fuel - 1, by omega⟩
  rw [List.append_assoc, decodeFuel_bytes hfits, hv n (by omega)]

theorem readMany_succ {α : Type} {read : Bytes → Option (α × Bytes)} {bs bs' : Bytes} {a : α}
    (h : read bs = some (a, bs')) (n : ℕ) :
    readMany read (n + 1) bs = (readMany read n bs').map fun p ↦ (a :: p.1, p.2) := by
  simp only [readMany, h, Option.bind_eq_bind, Option.bind_some]
  cases readMany read n bs' <;> rfl

mutual

theorem decodeFuel_encode : ∀ (v : Value) {fuel : ℕ}, v.Fits → (encode v).length ≤ fuel →
    ∀ rest, decodeFuel fuel (encode v ++ rest) = some (v, rest)
  | .nil, _, _, hfuel, _ => decodeFuel_head (h := .nil) trivial hfuel fun _ ↦ rfl
  | .bool _, _, _, hfuel, _ => decodeFuel_head (h := .bool _) trivial hfuel fun _ ↦ rfl
  | .int _, _, hfits, hfuel, _ => decodeFuel_head (h := .int _) hfits hfuel fun _ ↦ rfl
  | .f32 _, _, _, hfuel, _ => decodeFuel_head (h := .f32 _) trivial hfuel fun _ ↦ rfl
  | .f64 _, _, _, hfuel, _ => decodeFuel_head (h := .f64 _) trivial hfuel fun _ ↦ rfl
  | .str b, _, hfits, hfuel, rest => decodeFuel_body (h := .str _) hfits hfuel fun _ _ ↦ by
    rw [readBody, readBytes_append rfl, Option.map_some]
  | .bin b, _, hfits, hfuel, rest => decodeFuel_body (h := .bin _) hfits hfuel fun _ _ ↦ by
    rw [readBody, readBytes_append rfl, Option.map_some]
  | .ext tag b, _, hfits, hfuel, rest => decodeFuel_body (h := .ext _ tag) hfits hfuel fun _ _ ↦ by
    rw [readBody, readBytes_append rfl, Option.map_some]
  | .arr l, _, hfits, hfuel, rest => decodeFuel_body hfits.1 hfuel fun _ hle ↦ by
    rw [readBody, readMany_encodeAll l hfits.2 hle, Option.map_some]
  | .map l, _, hfits, hfuel, rest => decodeFuel_body hfits.1 hfuel fun _ hle ↦ by
    rw [readBody, readMany_encodePairs l hfits.2 hle, Option.map_some]

theorem readMany_encodeAll :
    ∀ (l : List Value) {fuel : ℕ}, FitsAll l → (encodeAll l).length ≤ fuel →
    ∀ rest, readMany (decodeFuel fuel) l.length (encodeAll l ++ rest) = some (l, rest)
  | [], _, _, _, _ => rfl
  | v :: l, fuel, hfits, hfuel, rest => by
    rw [encodeAll, List.length_append] at hfuel
    have hv := decodeFuel_encode v hfits.1 (le_of_add_le_left hfuel) (encodeAll l ++ rest)
    have hl := readMany_encodeAll l hfits.2 (le_of_add_le_right hfuel) rest
    rw [encodeAll, List.append_assoc, List.length_cons, readMany_succ hv, hl, Option.map_some]

theorem readMany_encodePairs : ∀ (l : List (Value × Value)) {fuel : ℕ}, FitsPairs l →
    (encodePairs l).length ≤ fuel →
    ∀ rest, readMany (readPair (decodeFuel fuel)) l.length (encodePairs l ++ rest) = some (l, rest)
  | [], _, _, _, _ => rfl
  | p :: l, fuel, hfits, hfuel, rest => by
    rw [encodePairs, List.length_append] at hfuel
    have hp := readPair_encodePair p hfits.1 (le_of_add_le_left hfuel) (encodePairs l ++ rest)
    have hl := readMany_encodePairs l hfits.2 (le_of_add_le_right hfuel) rest
    rw [encodePairs, List.append_assoc, List.length_cons, readMany_succ hp, hl, Option.map_some]

theorem readPair_encodePair : ∀ (p : Value × Value) {fuel : ℕ}, FitsPair p →
    (encodePair p).length ≤ fuel →
    ∀ rest, readPair (decodeFuel fuel) (encodePair p ++ rest) = some (p, rest)
  | (k, v), fuel, hfits, hfuel, rest => by
    rw [encodePair, List.length_append] at hfuel
    have hk := decodeFuel_encode k hfits.1 (le_of_add_le_left hfuel) (encode v ++ rest)
    have hv := decodeFuel_encode v hfits.2 (le_of_add_le_right hfuel) rest
    rw [encodePair, List.append_assoc, readPair, hk]
    exact congrArg (Option.bind · _) hv

end

/-- **What is written is read back**, with whatever follows it. -/
theorem decode_encode {v : Value} (hfits : v.Fits) (rest : Bytes) :
    decode (v.encode ++ rest) = some (v, rest) :=
  decodeFuel_encode v hfits (by simp) rest

end Coinext.MsgPack
