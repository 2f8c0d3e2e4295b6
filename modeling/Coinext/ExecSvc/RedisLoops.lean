import Coinext.Bus.Frames
import Coinext.Support.StreamRead

/-!
# The control loop and the command loop

Each loop reads one stream, entry by entry: the control loop sets the kill switch, the command loop
hands commands to the order management. Both start with the cursor at the end of the stream, keep it
there until a first entry has been read, and put it back there when they are restarted after a
connection error. What is appended while no call is waiting is then passed over.

`noneLost_iff` says of both loops when nothing is.
-/

namespace Coinext.ExecSvc

open Bus MsgPack StreamReader

/-! ## Entries -/

/-- The value of a field of an entry. -/
inductive RedisValue where
  | bulkString (b : Bytes)
  | simpleString (s : String)
  | other
deriving DecidableEq

/-- An entry of a stream, by its fields. -/
structure StreamEntry where
  map : List (String × RedisValue)
deriving DecidableEq

/-- The bytes of a value, if it is a string. -/
def RedisValue.bytes : RedisValue → Option Bytes
  | bulkString b => some b
  | simpleString s => some (utf8 s)
  | other => none

/-- The frame of an entry: the field `e`, or else the field `data`. -/
def streamFieldBytes (msg : StreamEntry) : Option Bytes :=
  ["e", "data"].findSome? fun key ↦ (msg.map.lookup key).bind RedisValue.bytes

/-! ## The loops -/

/-- The setting of the kill switch an entry asks for. -/
def killOf (msg : StreamEntry) : Option Bool := (streamFieldBytes msg).bind parseKillSwitch

/-- What `redis_control_loop_blocking` does with an entry. -/
def handleControl (kill : Bool) (msg : StreamEntry) : Bool := (killOf msg).getD kill

section Commands

variable [DecimalWidth] [Rendering] [CommandPayload] {σ : Type}

/-- What `redis_cmd_loop` does with an entry: a command that can be decoded is handled, at what the
clock says then. The number counts the commands. -/
def handleCmd (venue : Option (VenueBridge σ)) (clock : ℕ → Circumstances)
    (s : Service σ × ℕ) (msg : StreamEntry) : Service σ × ℕ :=
  match (streamFieldBytes msg).bind decodeCmdEnvelope with
  | none => s
  | some cmd => (s.1.step venue (.command cmd (clock s.2)), s.2 + 1)

end Commands

theorem foldl_handleControl (kill : Bool) (l : List StreamEntry) :
    l.foldl handleControl kill = ((l.filterMap killOf).getLast?).getD kill := by
  induction l using List.reverseRecOn with
  | nil => rfl
  | append_singleton l msg ih =>
    rw [List.foldl_append, List.foldl_cons, List.foldl_nil, handleControl, ih,
      List.filterMap_append]
    cases hmsg : killOf msg with
    | none => simp [hmsg]
    | some b => simp [hmsg]

/-- Every entry since the first call has been read exactly once or is still ahead, and the kill
switch is as the last well-formed command among the entries read has set it. -/
def ControlExact (kill : Bool) (r : StreamReader StreamEntry Bool) : Prop :=
  (∀ n, r.first = some n → r.read ++ r.ahead = r.stream.drop n)
    ∧ r.state = ((r.read.filterMap killOf).getLast?).getD kill

theorem controlExact_iff {kill : Bool} {r : StreamReader StreamEntry Bool} :
    ControlExact kill r ↔ r.Exact handleControl kill := by
  rw [ControlExact, ← foldl_handleControl]
  exact ⟨fun h ↦ ⟨h.1, h.2⟩, fun h ↦ ⟨h.complete, h.state_eq⟩⟩

/-- **The loops.** In every state of a run, each entry appended since the first call has been read
exactly once or is still ahead, and the entries read have been handled in order, exactly when every
step of the run loses nothing. This holds of the control loop, where the kill switch is as the last
well-formed command read has set it, and of the command loop. -/
theorem noneLost_iff [DecimalWidth] [Rendering] [CommandPayload] {σ : Type}
    (stream : List StreamEntry) (kill : Bool) (venue : Option (VenueBridge σ))
    (clock : ℕ → Circumstances) (s : Service σ × ℕ) (steps : List (ReaderStep StreamEntry)) :
    ((∀ front, front <+: steps →
        ControlExact kill (front.foldl (step handleControl) (start stream kill)))
      ↔ Along (step handleControl) StepOk (start stream kill) steps)
    ∧ ((∀ front, front <+: steps → (front.foldl (step (handleCmd venue clock))
        (start stream s)).Exact (handleCmd venue clock) s)
      ↔ Along (step (handleCmd venue clock)) StepOk (start stream s) steps) := by
  refine ⟨?_, exact_iff_along (handleCmd venue clock) stream s steps⟩
  rw [← exact_iff_along handleControl stream kill steps]
  exact forall₂_congr fun _ _ ↦ controlExact_iff

/-! ## A switch that is not thrown -/

section Instances

/-- The frame that engages the kill switch, as it is packed. -/
def engageFrame : Bytes :=
  (PyEnvelope.value ⟨1, .ctrl, List.replicate 16 0, 1,
    (Value.map [(.str (utf8 "kind"), .str (utf8 "CtrlKillSwitch")),
      (.str (utf8 "engaged"), .bool true)]).encode⟩).encode

def engageEntry : StreamEntry := ⟨[("e", .bulkString engageFrame)]⟩

/-- The first call of the control loop times out, and the switch is engaged before the second. -/
def betweenCalls : List (ReaderStep StreamEntry) := [.call, .timeout, .append engageEntry, .call]

example : killOf engageEntry = some true := by decide

/-- The entry that engages the switch is appended after the first call and is passed over. -/
theorem not_controlExact_betweenCalls :
    ¬ ∀ steps front, front <+: steps →
      ControlExact false (front.foldl (step handleControl) (start [] false)) := by
  intro h
  have hcomplete := (h betweenCalls betweenCalls List.prefix_rfl).1 0 rfl
  revert hcomplete
  decide

end Instances

end Coinext.ExecSvc
