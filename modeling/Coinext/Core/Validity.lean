import Coinext.Core.Value

/-!
# Validity of the value types

A value is valid when its own `raw` and `precision` make it again. Values are made by the public
constructors and combined by checked addition and subtraction, in any composition; a composition is
a `ValueExpr`, which `ValueOps.eval` carries out with the operations of one of the two types.

Two ways lead to an invalid value. `zero` does not check its precision, for either type. And the
subtraction of prices does not check the sign: what a composition of prices comes to is the balance
of its literals (`Price.raw_of_eval`), so a difference is invalid when more is taken away than there
is. There is no third (`Price.eval_valid_iff`, `Quantity.eval_valid_iff`).
-/

namespace Coinext

/-- A price that can be made again from its parts. -/
structure Price.Valid (p : Price) : Prop where
  nonneg : 0 ≤ p.raw
  precision_le : p.precision ≤ maxPrecision
  remade : Price.fromRaw p.raw p.precision = .ok p

/-- A quantity that can be made again from its parts. -/
structure Quantity.Valid (q : Quantity) : Prop where
  nonneg : (0 : ℤ) ≤ q.raw
  precision_le : q.precision ≤ maxPrecision
  remade : Quantity.fromRaw q.raw q.precision = .ok q

theorem Price.valid_iff {p : Price} : p.Valid ↔ 0 ≤ p.raw ∧ p.precision ≤ maxPrecision :=
  ⟨fun h ↦ ⟨h.nonneg, h.precision_le⟩,
    fun h ↦ ⟨h.1, h.2, Price.fromRaw_eq_ok_iff.mpr ⟨h.2, h.1, rfl⟩⟩⟩

theorem Quantity.valid_iff {q : Quantity} : q.Valid ↔ q.precision ≤ maxPrecision := by
  refine ⟨fun h ↦ h.precision_le, fun h ↦ ⟨Int.natCast_nonneg _, h, ?_⟩⟩
  exact Quantity.fromRaw_eq_ok_iff.mpr ⟨h, Int.natCast_nonneg _, rfl⟩

namespace Quantity

theorem valid_of_fromRaw {raw : ℤ} {precision : ℕ} {q : Quantity}
    (h : fromRaw raw precision = .ok q) : q.Valid := by
  obtain ⟨hprec, -, rfl⟩ := fromRaw_eq_ok_iff.mp h
  exact valid_iff.mpr hprec

theorem valid_of_checkedAdd {q o r : Quantity} (h : q.checkedAdd o = .ok r) : r.Valid := by
  obtain ⟨-, -, hprec, rfl⟩ := checkedAdd_eq_ok_iff.mp h
  exact valid_iff.mpr hprec

theorem valid_of_checkedSub {q o r : Quantity} (h : q.checkedSub o = .ok r) : r.Valid := by
  obtain ⟨_, -, h⟩ := Except.bind_eq_ok_iff.mp h
  split_ifs at h
  exact valid_of_fromRaw h

end Quantity

/-! ## Entry from a double -/

/-- What can go wrong on the way from a double, with the name of the type it was for. -/
inductive EntryError where
  | notFinite (type : String) (v : F64)
  | outOfRange (type : String) (v : F64)
  | model (e : ModelError)
deriving DecidableEq

/-- The conversion both types share. `fromF64Retain` is the library's, which keeps every digit of a
double or fails. -/
def fromF64With {α : Type} (type : String) (fromDecimal : Decimal → ℕ → Except ModelError α)
    (fromF64Retain : ℚ → Option Decimal) (v : F64) (precision : ℕ) : Except EntryError α :=
  match v with
  | .finite q => match fromF64Retain q with
    | some d => (fromDecimal d precision).mapError .model
    | none => .error (.outOfRange type v)
  | .nan => .error (.notFinite type v)
  | .infinite _ => .error (.notFinite type v)

def Price.fromF64 [DecimalWidth] (fromF64Retain : ℚ → Option Decimal) (v : F64) (precision : ℕ) :
    Except EntryError Price :=
  fromF64With "price" Price.fromDecimal fromF64Retain v precision

def Quantity.fromF64 [DecimalWidth] (fromF64Retain : ℚ → Option Decimal) (v : F64)
    (precision : ℕ) : Except EntryError Quantity :=
  fromF64With "quantity" Quantity.fromDecimal fromF64Retain v precision

theorem fromF64With_eq_ok_iff {α : Type} {type : String}
    {fromDecimal : Decimal → ℕ → Except ModelError α} {fromF64Retain : ℚ → Option Decimal}
    {v : F64} {precision : ℕ} {a : α} :
    fromF64With type fromDecimal fromF64Retain v precision = .ok a ↔
      ∃ q d, v = .finite q ∧ fromF64Retain q = some d ∧ fromDecimal d precision = .ok a := by
  cases v with
  | nan => simp [fromF64With]
  | infinite negative => simp [fromF64With]
  | finite q =>
    cases hd : fromF64Retain q with
    | none => simp [fromF64With, hd]
    | some d =>
      cases hresult : fromDecimal d precision with
      | error e => simp [fromF64With, hd, hresult, Except.mapError]
      | ok b => simp [fromF64With, hd, hresult, Except.mapError]

/-! ## Compositions -/

/-- A composition of the public constructors and checked arithmetic. -/
inductive ValueExpr where
  | fromRaw (raw : ℤ) (precision : ℕ)
  | fromDecimal (d : Decimal) (precision : ℕ)
  | fromF64 (v : F64) (precision : ℕ)
  | zero (precision : ℕ)
  | add (a b : ValueExpr)
  | sub (a b : ValueExpr)
deriving DecidableEq

namespace ValueExpr

/-- A composition and the compositions that it is made of. -/
def parts : ValueExpr → List ValueExpr
  | add a b => add a b :: (a.parts ++ b.parts)
  | sub a b => sub a b :: (a.parts ++ b.parts)
  | e => [e]

/-- The balance of the literals of a composition, in units of the last place. -/
def balance (fromF64Retain : ℚ → Option Decimal) : ValueExpr → ℤ
  | fromRaw raw _ => raw
  | fromDecimal d precision => mantissa d precision
  | fromF64 (.finite q) precision =>
    match fromF64Retain q with
    | some d => mantissa d precision
    | none => 0
  | fromF64 _ _ => 0
  | zero _ => 0
  | add a b => a.balance fromF64Retain + b.balance fromF64Retain
  | sub a b => a.balance fromF64Retain - b.balance fromF64Retain

/-- No zero is made with more places than a value may have. -/
def ZerosFit (e : ValueExpr) : Prop := ∀ n, zero n ∈ e.parts → n ≤ maxPrecision

/-- No subtraction takes away more than there is. -/
def Covered (fromF64Retain : ℚ → Option Decimal) (e : ValueExpr) : Prop :=
  ∀ a b, sub a b ∈ e.parts → b.balance fromF64Retain ≤ a.balance fromF64Retain

variable {e s a b : ValueExpr} {fromF64Retain : ℚ → Option Decimal}

theorem mem_parts_self (e : ValueExpr) : e ∈ e.parts := by
  cases e <;> exact List.mem_cons_self

theorem mem_parts_add : s ∈ (add a b).parts ↔ s = add a b ∨ s ∈ a.parts ∨ s ∈ b.parts := by
  rw [parts, List.mem_cons, List.mem_append]

theorem mem_parts_sub : s ∈ (sub a b).parts ↔ s = sub a b ∨ s ∈ a.parts ∨ s ∈ b.parts := by
  rw [parts, List.mem_cons, List.mem_append]

theorem parts_subset (h : s ∈ e.parts) : s.parts ⊆ e.parts := by
  induction e with
  | add a b iha ihb =>
    rcases mem_parts_add.mp h with rfl | ha | hb
    · exact List.Subset.refl _
    · exact fun t ht ↦ mem_parts_add.mpr (.inr (.inl (iha ha ht)))
    · exact fun t ht ↦ mem_parts_add.mpr (.inr (.inr (ihb hb ht)))
  | sub a b iha ihb =>
    rcases mem_parts_sub.mp h with rfl | ha | hb
    · exact List.Subset.refl _
    · exact fun t ht ↦ mem_parts_sub.mpr (.inr (.inl (iha ha ht)))
    · exact fun t ht ↦ mem_parts_sub.mpr (.inr (.inr (ihb hb ht)))
  | _ =>
    rw [List.mem_singleton.mp h]
    exact List.Subset.refl _

theorem ZerosFit.of_mem (h : e.ZerosFit) (hs : s ∈ e.parts) : s.ZerosFit :=
  fun n hn ↦ h n (parts_subset hs hn)

theorem Covered.of_mem (h : e.Covered fromF64Retain) (hs : s ∈ e.parts) :
    s.Covered fromF64Retain :=
  fun a b hab ↦ h a b (parts_subset hs hab)

end ValueExpr

open ValueExpr

/-- The public operations of a value type. -/
structure ValueOps (α : Type) where
  fromRaw : ℤ → ℕ → Except ModelError α
  fromDecimal : Decimal → ℕ → Except ModelError α
  fromF64 : F64 → ℕ → Except EntryError α
  zero : ℕ → α
  checkedAdd : α → α → Except ModelError α
  checkedSub : α → α → Except ModelError α

def Price.ops [DecimalWidth] (fromF64Retain : ℚ → Option Decimal) : ValueOps Price :=
  ⟨Price.fromRaw, Price.fromDecimal, Price.fromF64 fromF64Retain, Price.zero, Price.checkedAdd,
    Price.checkedSub⟩

def Quantity.ops [DecimalWidth] (fromF64Retain : ℚ → Option Decimal) : ValueOps Quantity :=
  ⟨Quantity.fromRaw, Quantity.fromDecimal, Quantity.fromF64 fromF64Retain, Quantity.zero,
    Quantity.checkedAdd, Quantity.checkedSub⟩

namespace ValueOps

variable {α : Type} (ops : ValueOps α)

/-- The value of a composition, if each of its steps succeeds. -/
def eval : ValueExpr → Option α
  | .fromRaw raw precision => (ops.fromRaw raw precision).toOption
  | .fromDecimal d precision => (ops.fromDecimal d precision).toOption
  | .fromF64 v precision => (ops.fromF64 v precision).toOption
  | .zero precision => some (ops.zero precision)
  | .add a b => do
    let x ← eval a
    let y ← eval b
    (ops.checkedAdd x y).toOption
  | .sub a b => do
    let x ← eval a
    let y ← eval b
    (ops.checkedSub x y).toOption

variable {ops} {a b e : ValueExpr} {x : α}

theorem toOption_eq_some_iff {ε : Type} {r : Except ε α} : r.toOption = some x ↔ r = .ok x := by
  cases r <;> simp [Except.toOption]

theorem eval_add_eq_some_iff : ops.eval (.add a b) = some x ↔
    ∃ y z, ops.eval a = some y ∧ ops.eval b = some z ∧ ops.checkedAdd y z = .ok x := by
  simp only [eval, Option.bind_eq_bind, Option.bind_eq_some_iff, toOption_eq_some_iff]
  exact ⟨fun ⟨y, hy, z, hz, h⟩ ↦ ⟨y, z, hy, hz, h⟩, fun ⟨y, z, hy, hz, h⟩ ↦ ⟨y, hy, z, hz, h⟩⟩

theorem eval_sub_eq_some_iff : ops.eval (.sub a b) = some x ↔
    ∃ y z, ops.eval a = some y ∧ ops.eval b = some z ∧ ops.checkedSub y z = .ok x := by
  simp only [eval, Option.bind_eq_bind, Option.bind_eq_some_iff, toOption_eq_some_iff]
  exact ⟨fun ⟨y, hy, z, hz, h⟩ ↦ ⟨y, z, hy, hz, h⟩, fun ⟨y, z, hy, hz, h⟩ ↦ ⟨y, hy, z, hz, h⟩⟩

theorem eval_of_mem_parts (h : ops.eval e = some x) {s : ValueExpr} (hs : s ∈ e.parts) :
    ∃ y, ops.eval s = some y := by
  induction e generalizing x with
  | add a b iha ihb =>
    obtain ⟨y, z, hy, hz, -⟩ := eval_add_eq_some_iff.mp h
    rcases mem_parts_add.mp hs with rfl | ha | hb
    · exact ⟨x, h⟩
    · exact iha hy ha
    · exact ihb hz hb
  | sub a b iha ihb =>
    obtain ⟨y, z, hy, hz, -⟩ := eval_sub_eq_some_iff.mp h
    rcases mem_parts_sub.mp hs with rfl | ha | hb
    · exact ⟨x, h⟩
    · exact iha hy ha
    · exact ihb hz hb
  | _ =>
    rw [List.mem_singleton.mp hs]
    exact ⟨x, h⟩

end ValueOps

open ValueOps

variable [DecimalWidth] {fromF64Retain : ℚ → Option Decimal} {e : ValueExpr}

/-! ## Prices -/

namespace Price

variable {p : Price}

theorem valid_of_fromDecimal {d : Decimal} {precision : ℕ}
    (h : fromDecimal d precision = .ok p) : p.Valid := by
  obtain ⟨hprec, -, hnonneg, -, rfl⟩ := fromDecimal_eq_ok_iff.mp h
  exact valid_iff.mpr ⟨hnonneg, hprec⟩

theorem raw_of_fromDecimal {d : Decimal} {precision : ℕ}
    (h : fromDecimal d precision = .ok p) : p.raw = mantissa d precision := by
  obtain ⟨-, -, -, -, rfl⟩ := fromDecimal_eq_ok_iff.mp h
  rfl

/-- **A composition of prices comes to the balance of its literals.** -/
theorem raw_of_eval (h : (ops fromF64Retain).eval e = some p) :
    p.raw = e.balance fromF64Retain := by
  induction e generalizing p with
  | fromRaw raw precision =>
    obtain ⟨-, -, rfl⟩ := fromRaw_eq_ok_iff.mp (toOption_eq_some_iff.mp h)
    rfl
  | fromDecimal d precision => exact raw_of_fromDecimal (toOption_eq_some_iff.mp h)
  | fromF64 v precision =>
    obtain ⟨q, d, rfl, hd, hmade⟩ := fromF64With_eq_ok_iff.mp (toOption_eq_some_iff.mp h)
    simp only [balance, hd, raw_of_fromDecimal hmade]
  | zero n =>
    cases h
    rfl
  | add a b iha ihb =>
    obtain ⟨q, o, hq, ho, hadd⟩ := eval_add_eq_some_iff.mp h
    obtain ⟨-, -, -, rfl⟩ := checkedAdd_eq_ok_iff.mp hadd
    exact congrArg₂ (· + ·) (iha hq) (ihb ho)
  | sub a b iha ihb =>
    obtain ⟨q, o, hq, ho, hsub⟩ := eval_sub_eq_some_iff.mp h
    obtain ⟨-, -, -, rfl⟩ := checkedSub_eq_ok_iff.mp hsub
    exact congrArg₂ (· - ·) (iha hq) (ihb ho)

theorem valid_of_eval (h : (ops fromF64Retain).eval e = some p) (hzeros : e.ZerosFit)
    (hcovered : e.Covered fromF64Retain) : p.Valid := by
  induction e generalizing p with
  | fromRaw raw precision =>
    obtain ⟨hprec, hnonneg, rfl⟩ := fromRaw_eq_ok_iff.mp (toOption_eq_some_iff.mp h)
    exact valid_iff.mpr ⟨hnonneg, hprec⟩
  | fromDecimal d precision => exact valid_of_fromDecimal (toOption_eq_some_iff.mp h)
  | fromF64 v precision =>
    obtain ⟨q, d, -, -, hmade⟩ := fromF64With_eq_ok_iff.mp (toOption_eq_some_iff.mp h)
    exact valid_of_fromDecimal hmade
  | zero n =>
    cases h
    exact valid_iff.mpr ⟨le_rfl, hzeros n (mem_parts_self _)⟩
  | add a b iha ihb =>
    have ha : a ∈ (add a b).parts := mem_parts_add.mpr (.inr (.inl (mem_parts_self a)))
    have hb : b ∈ (add a b).parts := mem_parts_add.mpr (.inr (.inr (mem_parts_self b)))
    obtain ⟨q, o, hq, ho, hadd⟩ := eval_add_eq_some_iff.mp h
    obtain ⟨-, -, -, rfl⟩ := checkedAdd_eq_ok_iff.mp hadd
    have hvq := iha hq (hzeros.of_mem ha) (hcovered.of_mem ha)
    have hvo := ihb ho (hzeros.of_mem hb) (hcovered.of_mem hb)
    exact valid_iff.mpr ⟨add_nonneg hvq.nonneg hvo.nonneg, hvq.precision_le⟩
  | sub a b iha ihb =>
    have ha : a ∈ (sub a b).parts := mem_parts_sub.mpr (.inr (.inl (mem_parts_self a)))
    have hle := hcovered a b (mem_parts_self _)
    obtain ⟨q, o, hq, ho, hsub⟩ := eval_sub_eq_some_iff.mp h
    obtain ⟨-, -, -, rfl⟩ := checkedSub_eq_ok_iff.mp hsub
    have hvq := iha hq (hzeros.of_mem ha) (hcovered.of_mem ha)
    rw [← raw_of_eval hq, ← raw_of_eval ho] at hle
    exact valid_iff.mpr ⟨sub_nonneg.mpr hle, hvq.precision_le⟩

/-- **When every value on the way is valid**, in a composition of prices. -/
theorem eval_valid_iff (h : (ops fromF64Retain).eval e = some p) :
    (∀ s ∈ e.parts, ∀ q, (ops fromF64Retain).eval s = some q → q.Valid) ↔
      e.ZerosFit ∧ e.Covered fromF64Retain := by
  constructor
  · intro hvalid
    refine ⟨fun n hn ↦ (hvalid _ hn (zero n) rfl).precision_le, fun a b hab ↦ ?_⟩
    obtain ⟨r, hr⟩ := eval_of_mem_parts h hab
    have hnonneg := (hvalid _ hab r hr).nonneg
    rw [raw_of_eval hr] at hnonneg
    exact sub_nonneg.mp hnonneg
  · rintro ⟨hzeros, hcovered⟩ s hs q hq
    exact valid_of_eval hq (hzeros.of_mem hs) (hcovered.of_mem hs)

end Price

/-! ## Quantities -/

namespace Quantity

variable {q : Quantity}

theorem valid_of_fromDecimal {d : Decimal} {precision : ℕ}
    (h : fromDecimal d precision = .ok q) : q.Valid := by
  obtain ⟨-, hprec, -, -, rfl⟩ := fromDecimal_eq_ok_iff.mp h
  exact valid_iff.mpr hprec

theorem valid_of_eval (h : (ops fromF64Retain).eval e = some q) (hzeros : e.ZerosFit) :
    q.Valid := by
  cases e with
  | fromRaw raw precision => exact valid_of_fromRaw (toOption_eq_some_iff.mp h)
  | fromDecimal d precision => exact valid_of_fromDecimal (toOption_eq_some_iff.mp h)
  | fromF64 v precision =>
    obtain ⟨r, d, -, -, hmade⟩ := fromF64With_eq_ok_iff.mp (toOption_eq_some_iff.mp h)
    exact valid_of_fromDecimal hmade
  | zero n =>
    cases h
    exact valid_iff.mpr (hzeros n (mem_parts_self _))
  | add a b =>
    obtain ⟨r, o, -, -, hadd⟩ := eval_add_eq_some_iff.mp h
    exact valid_of_checkedAdd hadd
  | sub a b =>
    obtain ⟨r, o, -, -, hsub⟩ := eval_sub_eq_some_iff.mp h
    exact valid_of_checkedSub hsub

/-- **When every value on the way is valid**, in a composition of quantities. -/
theorem eval_valid_iff (e : ValueExpr) :
    (∀ s ∈ e.parts, ∀ q, (ops fromF64Retain).eval s = some q → q.Valid) ↔ e.ZerosFit := by
  constructor
  · exact fun hvalid n hn ↦ (hvalid _ hn (zero n) rfl).precision_le
  · exact fun hzeros s hs q hq ↦ valid_of_eval hq (hzeros.of_mem hs)

end Quantity

end Coinext
