import Coinext.Bus.Frames

/-!
# The supervisor of the risk monitor

The account state folded from telemetry, the limits it is evaluated against, and what one message
does. A payload is whatever object the bus decoded: the fold asks it for each of the known keys with
`in`, indexes it, and converts what it finds with `float`, and each of these may raise. What was
folded before the exception stays folded.

Floats are a parameter: the supervisor adds no arithmetic of its own to that of the language.
-/

namespace Coinext.RiskMonitor

open MsgPack Bus

/-- The floats of the language. -/
class PyFloat (F : Type) where
  zero : F
  sub : F → F → F
  div : F → F → F
  abs : F → F
  lt : F → F → Bool
  le : F → F → Bool
  eq : F → F → Bool
  /-- The float next to an integer. -/
  ofInt : ℤ → F
  ofF32 : UInt32 → F
  ofF64 : UInt64 → F
  /-- A text, or bytes, that reads as a number. -/
  ofText : Bytes → Option F

variable {F : Type} [PyFloat F]

/-- `float(v)`, which raises on an object that is no number and reads as none. -/
def float : Value → Option F
  | .int i => some (PyFloat.ofInt i)
  | .bool b => some (PyFloat.ofInt (if b then 1 else 0))
  | .f32 bits => some (PyFloat.ofF32 bits)
  | .f64 bits => some (PyFloat.ofF64 bits)
  | .str b | .bin b => PyFloat.ofText b
  | _ => none

/-- `max(a, b)`, the first of the two unless the second is larger. -/
def maxFloat (a b : F) : F := if PyFloat.lt a b then b else a

structure RiskLimits (F : Type) where
  maxDrawdownPct : F
  maxGrossExposure : F
  maxNetExposure : F
  maxLossOfDay : F

structure AccountState (F : Type) where
  equity : F
  sessionPeakEquity : F
  dayStartEquity : F
  grossExposure : F
  netExposure : F
  realizedPnl : F
  unrealizedPnl : F
deriving DecidableEq

/-- A limit that is breached. -/
structure Breach (F : Type) where
  limit : String
  observed : F
  threshold : F
deriving DecidableEq

namespace AccountState

def new : AccountState F := ⟨PyFloat.zero, PyFloat.zero, PyFloat.zero, PyFloat.zero, PyFloat.zero,
  PyFloat.zero, PyFloat.zero⟩

def updateEquity (equity : F) (s : AccountState F) : AccountState F :=
  { s with
    equity := equity
    sessionPeakEquity := maxFloat s.sessionPeakEquity equity
    dayStartEquity :=
      if PyFloat.eq s.dayStartEquity PyFloat.zero then equity else s.dayStartEquity }

/-- The decline from the peak, relative to it. -/
def drawdownPct (s : AccountState F) : F :=
  if PyFloat.le s.sessionPeakEquity PyFloat.zero then PyFloat.zero
  else PyFloat.div (PyFloat.sub s.sessionPeakEquity s.equity) s.sessionPeakEquity

def lossOfDay (s : AccountState F) : F :=
  maxFloat PyFloat.zero (PyFloat.sub s.dayStartEquity s.equity)

end AccountState

/-- `MaxDrawdown.evaluate` on the snapshot of a state: whether it has tripped. -/
def maxDrawdown (maxDrawdownPct : F) (s : AccountState F) : Bool :=
  if PyFloat.le s.sessionPeakEquity PyFloat.zero then false
  else PyFloat.le maxDrawdownPct
    (PyFloat.div (PyFloat.sub s.sessionPeakEquity s.equity) s.sessionPeakEquity)

/-- The breached limits of a state. -/
def evaluate (limits : RiskLimits F) (s : AccountState F) : List (Breach F) :=
  (if maxDrawdown limits.maxDrawdownPct s then
      [⟨"max_drawdown", s.drawdownPct, limits.maxDrawdownPct⟩] else [])
    ++ (if PyFloat.lt limits.maxGrossExposure s.grossExposure then
      [⟨"gross_exposure", s.grossExposure, limits.maxGrossExposure⟩] else [])
    ++ (if PyFloat.lt limits.maxNetExposure (PyFloat.abs s.netExposure) then
      [⟨"net_exposure", PyFloat.abs s.netExposure, limits.maxNetExposure⟩] else [])
    ++ (if PyFloat.lt limits.maxLossOfDay s.lossOfDay then
      [⟨"loss_of_day", s.lossOfDay, limits.maxLossOfDay⟩] else [])

/-! ## Folding a payload -/

/-- The object is the text `key`. -/
def isKey (key : String) : Value → Bool
  | .str b => decide (b = utf8 key)
  | _ => false

/-- What `key in payload` answers; `none` where it raises. -/
def contains (key : String) : Value → Option Bool
  | .map pairs => some (pairs.any fun p ↦ isKey key p.1)
  | .arr l => some (l.any (isKey key))
  | .str b => some (decide (utf8 key <:+: b))
  -- an extension is a pair of its code and its bytes, a timestamp no container
  | .ext tag _ => if tag = timestampTag then none else some false
  | _ => none

/-- `payload[key]` for a text as key, which only a map answers; the last entry of the key counts. -/
def item (key : String) : Value → Option Value
  | .map pairs => (pairs.reverse.find? fun p ↦ isKey key p.1).map Prod.snd
  | _ => none

/-- The keys that are looked up, in order, and what each updates. -/
def folds : List (String × (F → AccountState F → AccountState F)) :=
  [("equity", AccountState.updateEquity),
    ("gross_exposure", fun x s ↦ { s with grossExposure := x }),
    ("net_exposure", fun x s ↦ { s with netExposure := x }),
    ("realized_pnl", fun x s ↦ { s with realizedPnl := x }),
    ("unrealized_pnl", fun x s ↦ { s with unrealizedPnl := x })]

/-- Look up one key. An exception leaves the state as it is. -/
def foldKey (payload : Value) (key : String) (update : F → AccountState F → AccountState F)
    (s : AccountState F) : Option (AccountState F) :=
  match contains key payload with
  | none => none
  | some false => some s
  | some true => ((item key payload).bind float).map fun x ↦ update x s

/-- The keys in turn, up to an exception; the error is the state that is left behind. -/
def foldKeys (payload : Value) : List (String × (F → AccountState F → AccountState F)) →
    AccountState F → Except (AccountState F) (AccountState F)
  | [], s => .ok s
  | (key, update) :: l, s =>
    match foldKey payload key update s with
    | none => .error s
    | some s' => foldKeys payload l s'

def foldEnvelope (payload : Value) (s : AccountState F) :
    Except (AccountState F) (AccountState F) :=
  foldKeys payload folds s

/-! ## One message -/

structure RiskSupervisor (F : Type) where
  limits : RiskLimits F
  state : AccountState F
  tripped : Bool

/-- A kill-switch command, with the breaches that its reason prints. -/
structure KillSwitch (F : Type) where
  engaged : Bool
  breaches : List (Breach F)
  source : String
deriving DecidableEq

/-- How publishing on the control stream goes. -/
inductive Publishing where
  /-- There is no bus. -/
  | noBus
  | raises
  | succeeds
deriving DecidableEq

/-- The supervisor and what it has published on the control stream. -/
structure Supervision (F : Type) where
  supervisor : RiskSupervisor F
  control : List (KillSwitch F)

/-- Publish the kill switch. A failure is logged, and the caller does not learn of it. -/
def tripKillSwitch (bus : Publishing) (breaches : List (Breach F)) (control : List (KillSwitch F)) :
    List (KillSwitch F) :=
  match bus with
  | .succeeds => control ++ [⟨true, breaches, "risk-monitor"⟩]
  | .noBus | .raises => control

/-- Fold a message, evaluate, and trip on the first breach. It returns whether this message has
tripped the switch; an exception leaves the supervision it carries. -/
def processMessage (payload : Value) (bus : Publishing) (m : Supervision F) :
    Except (Supervision F) (Bool × Supervision F) :=
  match foldEnvelope payload m.supervisor.state with
  | .error s => .error { m with supervisor := { m.supervisor with state := s } }
  | .ok s =>
    let folded : Supervision F := { m with supervisor := { m.supervisor with state := s } }
    if m.supervisor.tripped then .ok (false, folded)
    else match evaluate m.supervisor.limits s with
      | [] => .ok (false, folded)
      | breach :: breaches => .ok (true,
          { supervisor := { folded.supervisor with tripped := true }
            control := tripKillSwitch bus (breach :: breaches) m.control })

/-! ## What a message can do -/

/-- A fold over a map succeeds exactly when every known key that is there converts. -/
theorem foldKeys_map_isOk_iff (pairs : List (Value × Value))
    (l : List (String × (F → AccountState F → AccountState F))) (s : AccountState F) :
    (∃ s', foldKeys (.map pairs) l s = .ok s')
      ↔ ∀ key ∈ l.map Prod.fst, ∀ v ∈ item key (.map pairs), (float (F := F) v).isSome := by
  induction l generalizing s with
  | nil => simp [foldKeys]
  | cons p l ih =>
    obtain ⟨key, update⟩ := p
    have hitem : contains key (.map pairs) = some (item key (.map pairs)).isSome := by
      rw [contains, item, Option.isSome_map, ← List.any_reverse, Option.some_inj,
        Bool.eq_iff_iff, List.find?_isSome, List.any_eq_true]
    rw [foldKeys, foldKey, hitem, List.map_cons, List.forall_mem_cons]
    cases hv : item key (.map pairs) with
    | none => simpa [hv] using ih s
    | some v =>
      cases hx : float (F := F) v with
      | none => simp [hx]
      | some x => simpa [hx] using ih (update x s)

theorem foldKeys_of_not_map {payload : Value} (h : ∀ pairs, payload ≠ .map pairs)
    (l : List (String × (F → AccountState F → AccountState F))) (s : AccountState F) :
    foldKeys payload l s = .ok s ∨ foldKeys payload l s = .error s := by
  induction l with
  | nil => exact .inl rfl
  | cons p l ih =>
    obtain ⟨key, update⟩ := p
    have hitem : item key payload = none := by
      cases payload with
      | map pairs => exact absurd rfl (h pairs)
      | _ => rfl
    rw [foldKeys, foldKey, hitem]
    cases contains key payload with
    | none => exact .inr rfl
    | some b =>
      cases b with
      | false => exact ih
      | true => exact .inr rfl

/-- **One message.** What it leaves when it does not raise: the folded state, and the switch tripped
if it was or if a limit is breached. -/
theorem processMessage_cases {payload : Value} {bus : Publishing} {m : Supervision F} {b : Bool}
    {m' : Supervision F} (h : processMessage payload bus m = .ok (b, m')) :
    ∃ s, foldEnvelope payload m.supervisor.state = .ok s
      ∧ ((m.supervisor.tripped = true ∨ evaluate m.supervisor.limits s = []) ∧ b = false
          ∧ m' = { m with supervisor := { m.supervisor with state := s } }
        ∨ m.supervisor.tripped = false ∧ evaluate m.supervisor.limits s ≠ [] ∧ b = true
          ∧ m'.supervisor = { m.supervisor with state := s, tripped := true }
          ∧ m'.control
            = tripKillSwitch bus (evaluate m.supervisor.limits s) m.control) := by
  unfold processMessage at h
  cases hfold : foldEnvelope payload m.supervisor.state with
  | error s =>
    rw [hfold] at h
    cases h
  | ok s =>
    rw [hfold] at h
    refine ⟨s, rfl, ?_⟩
    by_cases htripped : m.supervisor.tripped = true
    · dsimp only at h
      rw [if_pos htripped] at h
      cases h
      exact .inl ⟨.inl htripped, rfl, rfl⟩
    · dsimp only at h
      rw [if_neg htripped] at h
      cases heval : evaluate m.supervisor.limits s with
      | nil =>
        rw [heval] at h
        cases h
        exact .inl ⟨.inr rfl, rfl, rfl⟩
      | cons breach breaches =>
        rw [heval] at h
        cases h
        exact .inr ⟨eq_false_of_ne_true htripped, List.cons_ne_nil _ _, rfl, rfl, rfl⟩

/-- A message raises exactly when its fold does, and leaves what was folded by then. -/
theorem processMessage_eq_error_iff {payload : Value} {bus : Publishing} {m m' : Supervision F} :
    processMessage payload bus m = .error m'
      ↔ ∃ s, foldEnvelope payload m.supervisor.state = .error s
        ∧ m' = { m with supervisor := { m.supervisor with state := s } } := by
  unfold processMessage
  cases hfold : foldEnvelope payload m.supervisor.state with
  | error s => simp [eq_comm]
  | ok s =>
    refine iff_of_false (fun h ↦ ?_) (by simp)
    dsimp only at h
    by_cases htripped : m.supervisor.tripped = true
    · rw [if_pos htripped] at h
      cases h
    · rw [if_neg htripped] at h
      cases heval : evaluate m.supervisor.limits s <;> rw [heval] at h <;> cases h

end Coinext.RiskMonitor
