import Mathlib.Data.List.Basic
import Mathlib.Tactic.Ring
import Coinext.Model.Types

/-!
# The WebSocket client

`runLoop` keeps a WebSocket connected. It connects and passes the text frames on; whenever an
attempt fails or a connection ends it announces a reconnect, pauses, and connects again. The pauses
double up to a ceiling and start over after an attempt that succeeds.

The task is a machine that waits: for room in the channel, for a pause to end, for an attempt to
come to something, for the next item of the socket. What it wakes up to is not its own choice, so a
run is any sequence of wakes that fit. `Supervised` says what a run comes to: the messages are those
of the wakes, in order, with nothing lost but a message whose sending was cut off, and the pauses
are those of the schedule.

What a text frame holds is left to the adapter that reads it. The pong that answers a ping is left
out.
-/

namespace Coinext.Ws

/-- The settings of the reconnects, in milliseconds. -/
structure WsConfig where
  baseBackoffMs : ℕ := 500
  maxBackoffMs : ℕ := 30000
  maxBackoffMs_le : maxBackoffMs ≤ u64Max := by decide

inductive WsMessage (τ : Type) where
  | text (t : τ)
  /-- Frames were missed, so the adapter has to start its books over. -/
  | reconnected
deriving DecidableEq

/-- An item of the socket. -/
inductive Item (τ : Type) where
  | text (t : τ)
  | ping
  /-- A binary frame, a pong or a raw frame. -/
  | other
  /-- A close frame, the end of the stream, or a transport error. -/
  | ended

/-- What the task is waiting for. -/
inductive Await (τ : Type) where
  /-- Room in the channel. -/
  | send (m : WsMessage τ)
  | pause
  | attempt
  | next
  | stopped
deriving DecidableEq

/-- What the task wakes up to. -/
inductive Wake (τ : Type) where
  | accepted
  | receiverDropped
  | elapsed
  | connected
  | refused
  | item (i : Item τ)
  /-- Something arrives on the shutdown channel. -/
  | shutdown
  /-- The handle is aborted. -/
  | aborted

/-- The task, what it has sent, and how long its pauses were. -/
structure Task (τ : Type) where
  waiting : Await τ
  backoff : ℕ
  sent : List (WsMessage τ)
  slept : List ℕ
deriving DecidableEq

namespace Task

variable {τ : Type}

/-- The first attempt comes without a pause. -/
def start (cfg : WsConfig) : Task τ := ⟨.attempt, cfg.baseBackoffMs, [], []⟩

/-- Go on after a message is in the channel: a reconnect is followed by the pause, a text frame by
the next item. -/
def afterSend : WsMessage τ → Await τ
  | .reconnected => .pause
  | .text _ => .next

/-- One wake; `none` when the task does not wait for it. -/
def step (cfg : WsConfig) (s : Task τ) (w : Wake τ) : Option (Task τ) :=
  match s.waiting, w with
  | .stopped, _ => none
  | _, .aborted => some { s with waiting := .stopped }
  | .send m, .accepted => some { s with waiting := afterSend m, sent := s.sent ++ [m] }
  | .send _, .receiverDropped => some { s with waiting := .stopped }
  | .pause, .shutdown => some { s with waiting := .stopped }
  | .pause, .elapsed =>
    some { s with
      waiting := .attempt
      backoff := min (min (s.backoff * 2) u64Max) cfg.maxBackoffMs
      slept := s.slept ++ [s.backoff] }
  | .attempt, .shutdown => some { s with waiting := .stopped }
  | .attempt, .connected => some { s with waiting := .next, backoff := cfg.baseBackoffMs }
  | .attempt, .refused => some { s with waiting := .send .reconnected }
  | .next, .shutdown => some { s with waiting := .stopped }
  | .next, .item (.text t) => some { s with waiting := .send (.text t) }
  | .next, .item .ping => some s
  | .next, .item .other => some s
  | .next, .item .ended => some { s with waiting := .send .reconnected }
  | _, _ => none

/-- The task after the wakes; `none` when one of them does not fit. -/
def runLoop (cfg : WsConfig) (wakes : List (Wake τ)) : Option (Task τ) :=
  wakes.foldlM (step cfg) (start cfg)

end Task

/-! ## The schedule -/

variable {τ : Type} {cfg : WsConfig} {s s' : Task τ} {w : Wake τ} {wakes : List (Wake τ)}

/-- The message of a wake: a text frame, or a reconnect for an attempt that fails and for a
connection that ends. -/
def Wake.message? : Wake τ → Option (WsMessage τ)
  | .item (.text t) => some (.text t)
  | .item .ended => some .reconnected
  | .refused => some .reconnected
  | _ => none

/-- The messages of the wakes. -/
def messagesOf (wakes : List (Wake τ)) : List (WsMessage τ) := wakes.filterMap Wake.message?

/-- The message that waits for room. -/
def Await.pending : Await τ → List (WsMessage τ)
  | .send m => [m]
  | _ => []

/-- The pause after `k` others since the last connection. -/
def delay (cfg : WsConfig) (k : ℕ) : ℕ :=
  if k = 0 then cfg.baseBackoffMs else min (cfg.baseBackoffMs * 2 ^ k) cfg.maxBackoffMs

/-- The number of pauses since the last connection, `k` of them before the wake. -/
def Wake.pausesSince (k : ℕ) : Wake τ → ℕ
  | .elapsed => k + 1
  | .connected => 0
  | _ => k

/-- The pauses that end with the wakes, after `k` others since the last connection. -/
def pauses (cfg : WsConfig) : ℕ → List (Wake τ) → List ℕ
  | _, [] => []
  | k, .elapsed :: l => delay cfg k :: pauses cfg (k + 1) l
  | k, w :: l => pauses cfg (w.pausesSince k) l

theorem delay_succ (cfg : WsConfig) (k : ℕ) :
    min (min (delay cfg k * 2) u64Max) cfg.maxBackoffMs = delay cfg (k + 1) := by
  have hmax := cfg.maxBackoffMs_le
  rw [min_assoc, min_eq_right hmax, delay, delay, if_neg k.succ_ne_zero]
  split_ifs with hk
  · rw [hk, zero_add, pow_one]
  · have hdouble : cfg.baseBackoffMs * 2 ^ (k + 1) = cfg.baseBackoffMs * 2 ^ k * 2 := by ring
    rw [hdouble]
    omega

theorem delay_le (cfg : WsConfig) (k : ℕ) :
    delay cfg k ≤ max cfg.baseBackoffMs cfg.maxBackoffMs := by
  unfold delay
  split_ifs
  · exact le_max_left _ _
  · exact (min_le_right _ _).trans (le_max_right _ _)

theorem le_of_mem_pauses {ms k : ℕ} (h : ms ∈ pauses cfg k wakes) :
    ms ≤ max cfg.baseBackoffMs cfg.maxBackoffMs := by
  induction wakes generalizing k with
  | nil => cases h
  | cons w l ih =>
    cases w with
    | elapsed =>
      rcases List.mem_cons.mp h with rfl | h
      · exact delay_le cfg k
      · exact ih h
    | _ => exact ih h

/-! ## Runs -/

/-- The messages of a task, with the one that waits. -/
def Task.messages (s : Task τ) : List (WsMessage τ) := s.sent ++ s.waiting.pending

/-- What a wake can do. -/
inductive Steps (cfg : WsConfig) (s : Task τ) : Wake τ → Task τ → Prop
  | stops {w : Wake τ} (hw : w = .receiverDropped ∨ w = .shutdown ∨ w = .aborted) :
    Steps cfg s w { s with waiting := .stopped }
  | sends {m : WsMessage τ} (hs : s.waiting = .send m) :
    Steps cfg s .accepted { s with waiting := Task.afterSend m, sent := s.sent ++ [m] }
  | elapses (hs : s.waiting = .pause) :
    Steps cfg s .elapsed { s with
      waiting := .attempt
      backoff := min (min (s.backoff * 2) u64Max) cfg.maxBackoffMs
      slept := s.slept ++ [s.backoff] }
  | connects (hs : s.waiting = .attempt) :
    Steps cfg s .connected { s with waiting := .next, backoff := cfg.baseBackoffMs }
  | fails (hs : s.waiting = .attempt) :
    Steps cfg s .refused { s with waiting := .send .reconnected }
  | reads {t : τ} (hs : s.waiting = .next) :
    Steps cfg s (.item (.text t)) { s with waiting := .send (.text t) }
  | ignores {i : Item τ} (hi : i = .ping ∨ i = .other) : Steps cfg s (.item i) s
  | ends (hs : s.waiting = .next) :
    Steps cfg s (.item .ended) { s with waiting := .send .reconnected }

theorem steps_of_step (hstep : s.step cfg w = some s') :
    s.waiting ≠ .stopped ∧ Steps cfg s w s' := by
  obtain ⟨waiting, backoff, sent, slept⟩ := s
  cases waiting with
  | stopped => cases w <;> cases hstep
  | send m =>
    cases w with
    | accepted => cases hstep; exact ⟨by simp, .sends rfl⟩
    | receiverDropped | aborted => cases hstep; exact ⟨by simp, .stops (by simp)⟩
    | _ => cases hstep
  | pause =>
    cases w with
    | elapsed => cases hstep; exact ⟨by simp, .elapses rfl⟩
    | shutdown | aborted => cases hstep; exact ⟨by simp, .stops (by simp)⟩
    | _ => cases hstep
  | attempt =>
    cases w with
    | connected => cases hstep; exact ⟨by simp, .connects rfl⟩
    | refused => cases hstep; exact ⟨by simp, .fails rfl⟩
    | shutdown | aborted => cases hstep; exact ⟨by simp, .stops (by simp)⟩
    | _ => cases hstep
  | next =>
    cases w with
    | item i =>
      cases i with
      | text t => cases hstep; exact ⟨by simp, .reads rfl⟩
      | ping | other => cases hstep; exact ⟨by simp, .ignores (by simp)⟩
      | ended => cases hstep; exact ⟨by simp, .ends rfl⟩
    | shutdown | aborted => cases hstep; exact ⟨by simp, .stops (by simp)⟩
    | _ => cases hstep

/-- **Step lemma.** A wake adds its message and its pause. A task that is stopped by it has sent all
messages but the one that was waiting. -/
theorem step_spec {k : ℕ} (hstep : s.step cfg w = some s') (hk : s.backoff = delay cfg k) :
    s'.backoff = delay cfg (w.pausesSince k) ∧ s'.slept = s.slept ++ pauses cfg k [w] ∧
      (s'.waiting ≠ .stopped ∧ s'.messages = s.messages ++ w.message?.toList ∨
        s'.waiting = .stopped ∧ s'.sent = s.sent ∧ w.message? = none) := by
  have hnil {l : List ℕ} : l = l ++ [] := (List.append_nil l).symm
  obtain ⟨hgoing, hsteps⟩ := steps_of_step hstep
  cases hsteps with
  | stops hw =>
    rcases hw with rfl | rfl | rfl <;> exact ⟨hk, hnil, .inr ⟨rfl, rfl, rfl⟩⟩
  | sends hs =>
    rename_i m
    refine ⟨hk, hnil, .inl ⟨by cases m <;> simp [Task.afterSend], ?_⟩⟩
    cases m <;> simp [Task.messages, Task.afterSend, Await.pending, Wake.message?, hs]
  | elapses hs =>
    refine ⟨?_, ?_, .inl ⟨by simp, by simp [Task.messages, Await.pending, Wake.message?, hs]⟩⟩
    · rw [hk]
      exact delay_succ cfg k
    · rw [hk]
      rfl
  | connects hs =>
    exact ⟨rfl, hnil, .inl ⟨by simp, by simp [Task.messages, Await.pending, Wake.message?, hs]⟩⟩
  | fails hs | reads hs | ends hs =>
    exact ⟨hk, hnil, .inl ⟨by simp, by simp [Task.messages, Await.pending, Wake.message?, hs]⟩⟩
  | ignores hi =>
    rcases hi with rfl | rfl <;> exact ⟨hk, hnil, .inl ⟨hgoing, (List.append_nil _).symm⟩⟩

theorem messagesOf_cons (w : Wake τ) (l : List (Wake τ)) :
    messagesOf (w :: l) = w.message?.toList ++ messagesOf l := by
  unfold messagesOf
  rw [List.filterMap_cons]
  cases w.message? <;> rfl

theorem pauses_cons (cfg : WsConfig) (k : ℕ) (w : Wake τ) (l : List (Wake τ)) :
    pauses cfg k (w :: l) = pauses cfg k [w] ++ pauses cfg (w.pausesSince k) l := by
  cases w <;> rfl

/-- **What a run comes to.** -/
structure Supervised (cfg : WsConfig) (wakes : List (Wake τ)) (s : Task τ) : Prop where
  /-- The messages arrive in order, none lost and none twice; only the one that waits is missing,
  or the one that was waiting when the task was stopped. -/
  sent_eq : ∃ cut : List (WsMessage τ), s.sent ++ cut = messagesOf wakes ∧
    cut.length ≤ 1 ∧ (s.waiting ≠ .stopped → cut = s.waiting.pending)
  slept_eq : s.slept = pauses cfg 0 wakes
  slept_le : ∀ ms ∈ s.slept, ms ≤ max cfg.baseBackoffMs cfg.maxBackoffMs

theorem length_pending_le (a : Await τ) : a.pending.length ≤ 1 := by
  cases a <;> simp [Await.pending]

theorem run_of_stopped (hrun : wakes.foldlM (Task.step cfg) s = some s')
    (hs : s.waiting = .stopped) : wakes = [] ∧ s' = s := by
  cases wakes with
  | nil =>
    cases hrun
    exact ⟨rfl, rfl⟩
  | cons w l =>
    obtain ⟨t, hstep, -⟩ := Option.bind_eq_some_iff.mp hrun
    exact absurd hs (steps_of_step hstep).1

/-- **Run lemma.** -/
theorem run_spec {k : ℕ} (hrun : wakes.foldlM (Task.step cfg) s = some s')
    (hk : s.backoff = delay cfg k) :
    s'.slept = s.slept ++ pauses cfg k wakes ∧
      ∃ cut, s'.sent ++ cut = s.messages ++ messagesOf wakes ∧ cut.length ≤ 1 ∧
        (s'.waiting ≠ .stopped → cut = s'.waiting.pending) := by
  induction wakes generalizing s k with
  | nil =>
    cases hrun
    exact ⟨(List.append_nil _).symm, s'.waiting.pending, (List.append_nil _).symm,
      length_pending_le s'.waiting, fun _ ↦ rfl⟩
  | cons w l ih =>
    obtain ⟨t, hstep, hrest⟩ := Option.bind_eq_some_iff.mp hrun
    obtain ⟨hbackoff, hslept, hgoing | hstopped⟩ := step_spec hstep hk
    · obtain ⟨hpauses, cut, hcut, hlength, hpending⟩ := ih hrest hbackoff
      refine ⟨?_, cut, ?_, hlength, hpending⟩
      · rw [hpauses, hslept, pauses_cons cfg k w l, List.append_assoc]
      · rw [hcut, hgoing.2, messagesOf_cons, List.append_assoc]
    · obtain ⟨rfl, rfl⟩ := run_of_stopped hrest hstopped.1
      obtain ⟨hat, hsent, hmessages⟩ := hstopped
      refine ⟨hslept, s.waiting.pending, ?_, length_pending_le s.waiting, fun h ↦ absurd hat h⟩
      rw [hsent, messagesOf_cons, hmessages, Option.toList_none, List.nil_append, messagesOf,
        List.filterMap_nil, List.append_nil]
      rfl

/-- **The client delivers what the socket gave it.** Whatever the task wakes up to, its messages are
the text frames in the order they came, with one reconnect for each attempt that failed and each
connection that ended, between the frames before and after it; its pauses start at the base after a
connection and double up to the ceiling. -/
theorem runLoop_supervised {cfg : WsConfig} {wakes : List (Wake τ)} {s : Task τ}
    (hrun : Task.runLoop cfg wakes = some s) : Supervised cfg wakes s := by
  obtain ⟨hslept, cut, hcut, hlength, hpending⟩ := run_spec (k := 0) hrun rfl
  change s.slept = pauses cfg 0 wakes at hslept
  exact ⟨⟨cut, hcut, hlength, hpending⟩, hslept, fun ms hms ↦ le_of_mem_pauses (hslept ▸ hms)⟩

/-! ## One connection -/

/-- The text frames of the connection, after one more wake. -/
def hear (l : List τ) : Wake τ → List τ
  | .connected => []
  | .item (.text t) => l ++ [t]
  | _ => l

/-- The text frames read since the last connection. -/
def heard (wakes : List (Wake τ)) : List τ := wakes.foldl hear []

/-- The text frames since the last reconnect, after one more message. -/
def textStep (l : List τ) : WsMessage τ → List τ
  | .reconnected => []
  | .text t => l ++ [t]

/-- The text frames among messages that come after the last reconnect. -/
def textsSince (messages : List (WsMessage τ)) : List τ := messages.foldl textStep []

theorem textsSince_concat (messages : List (WsMessage τ)) (m : WsMessage τ) :
    textsSince (messages ++ [m]) = textStep (textsSince messages) m := by
  rw [textsSince, List.foldl_append]
  rfl

theorem mem_of_mem_textsSince {messages : List (WsMessage τ)} {t : τ}
    (h : t ∈ textsSince messages) : .text t ∈ messages := by
  induction messages using List.reverseRecOn with
  | nil => cases h
  | append_singleton l m ih =>
    rw [textsSince_concat] at h
    cases m with
    | reconnected => cases h
    | text u =>
      rcases List.mem_append.mp h with h | h
      · exact List.mem_append_left _ (ih h)
      · rw [List.mem_singleton.mp h]
        exact List.mem_append_right _ (List.mem_singleton_self _)

/-- Whether a connection stands, or the last one did not end. -/
def Await.connected : Await τ → Bool
  | .next | .send (.text _) => true
  | _ => false

/-- While a connection stands, the frames since the last reconnect are its frames; after its end
there are none. -/
def InStep (wakes : List (Wake τ)) (s : Task τ) : Prop :=
  s.waiting ≠ .stopped → textsSince (messagesOf wakes)
    = if s.waiting.connected then heard wakes else []

theorem textsSince_messagesOf_concat (wakes : List (Wake τ)) (w : Wake τ) :
    textsSince (messagesOf (wakes ++ [w]))
      = w.message?.toList.foldl textStep (textsSince (messagesOf wakes)) := by
  rw [messagesOf, List.filterMap_append, textsSince, List.foldl_append]
  cases hw : w.message? <;> simp [hw, textsSince, messagesOf]

theorem heard_concat (wakes : List (Wake τ)) (w : Wake τ) :
    heard (wakes ++ [w]) = hear (heard wakes) w := by
  rw [heard, List.foldl_append]
  rfl

theorem InStep.step (h : InStep wakes s) (hstep : s.step cfg w = some s') :
    InStep (wakes ++ [w]) s' := by
  intro hgoing
  rw [textsSince_messagesOf_concat, heard_concat]
  obtain ⟨hwaiting, hsteps⟩ := steps_of_step hstep
  have hold := h hwaiting
  cases hsteps with
  | stops => exact absurd rfl hgoing
  | sends hs =>
    rename_i m
    rw [hs] at hold
    cases m <;> exact hold
  | elapses hs | connects hs =>
    rw [hs] at hold
    exact hold
  | fails | ends => rfl
  | reads hs =>
    rw [hs] at hold
    rename_i t
    exact congrArg (· ++ [t]) hold
  | ignores hi => rcases hi with rfl | rfl <;> exact hold

theorem inStep_of_run (hrun : Task.runLoop cfg wakes = some s) : InStep wakes s := by
  induction wakes using List.reverseRecOn generalizing s with
  | nil =>
    cases hrun
    exact fun _ ↦ rfl
  | append_singleton l w ih =>
    rw [Task.runLoop, List.foldlM_append] at hrun
    obtain ⟨t, hrun, hstep⟩ := Option.bind_eq_some_iff.mp hrun
    obtain ⟨t', hstep, hrest⟩ := Option.bind_eq_some_iff.mp hstep
    cases hrest
    exact (ih hrun).step hstep

/-- **A frame that is sent was read on the connection of the frames before it.** Its wake comes
after those of the messages before it, and the text frames since the last reconnect among these are
those that the connection gave before. -/
theorem exists_wake_of_sent (hrun : Task.runLoop cfg wakes = some s)
    {messages rest : List (WsMessage τ)} {t : τ} (hsent : s.sent = messages ++ .text t :: rest) :
    ∃ before after, wakes = before ++ .item (.text t) :: after ∧ messagesOf before = messages ∧
      textsSince messages = heard before := by
  obtain ⟨-, cut, hcut, -, -⟩ := run_spec (k := 0) hrun rfl
  rw [hsent, List.append_assoc] at hcut
  obtain ⟨before, tail, hwakes, hbefore, htail⟩ := List.filterMap_eq_append_iff.mp hcut.symm
  obtain ⟨silent, w, after, rfl, hsilent, hw, -⟩ := List.filterMap_eq_cons_iff.mp htail
  rw [← List.append_assoc] at hwakes
  have hmessages : messagesOf (before ++ silent) = messages := by
    rw [messagesOf, List.filterMap_append, hbefore, List.filterMap_eq_nil_iff.mpr hsilent,
      List.append_nil]
  obtain rfl : w = .item (.text t) := by
    cases w with
    | item i => cases i <;> simp_all [Wake.message?]
    | _ => simp [Wake.message?] at hw
  refine ⟨before ++ silent, after, hwakes, hmessages, ?_⟩
  -- an item is read in the middle of a connection only
  rw [hwakes, Task.runLoop, List.foldlM_append] at hrun
  obtain ⟨u, hrun, hrest⟩ := Option.bind_eq_some_iff.mp hrun
  obtain ⟨v, hstep, -⟩ := Option.bind_eq_some_iff.mp hrest
  have hnext : u.waiting = .next := by
    rcases (steps_of_step hstep).2 with hw | hs | hs | hs | hs | hs | hi | hs
    · simp at hw
    · exact hs
    · simp at hi
  have hinStep := inStep_of_run hrun (by simp [hnext])
  rw [hnext] at hinStep
  rw [← hmessages]
  exact hinStep

/-- Two refused attempts, a connection that ends after a frame, and a shutdown in the next pause. -/
def flakyWakes : List (Wake String) :=
  [.refused, .accepted, .elapsed, .refused, .accepted, .elapsed, .connected, .item (.text "a"),
    .accepted, .item .ping, .item .ended, .accepted, .elapsed, .connected, .item (.text "b"),
    .receiverDropped]

/-- The second pause is twice the first, the third is the first again. -/
theorem runLoop_flakyWakes_supervised :
    Supervised {} flakyWakes
      ⟨.stopped, 500, [.reconnected, .reconnected, .text "a", .reconnected], [500, 1000, 500]⟩ :=
  runLoop_supervised (by decide)

end Coinext.Ws
