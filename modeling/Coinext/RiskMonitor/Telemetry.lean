import Coinext.RiskMonitor.Supervisor
import Coinext.Support.Run

/-!
# The consume loop of the risk monitor

Entries of the telemetry stream reach the supervisor through three layers that treat a malformed one
differently. An entry without a frame is passed over by the generator, and a payload that does not
unpack by the loop. But a frame that does not decode raises inside the generator, and a payload that
cannot be folded raises in `process_message`: in both cases the exception leaves the loop, and no
later entry is read. A text or a list without the known keys is folded as if it were an empty map.

So a malformed entry goes unnoticed exactly when it is skipped, or is folded without raising while
the switch has tripped or no limit is breached, or no well-formed entry follows it
(`evaluations_eq_filter_iff`).

The switch latches whether or not the kill switch was published: being tripped means that it was
exactly when no publishing failed (`tripped_imp_published_iff`).
-/

namespace Coinext.RiskMonitor

open MsgPack Bus

/-- What the loop gets for an entry. -/
inductive Received where
  /-- Passed over: there is no frame, or its payload does not unpack. -/
  | skipped
  /-- The frame does not decode, which ends the generator. -/
  | broken
  | payload (v : Value)

/-- Decode an entry, given the bytes of its field, if it has one. -/
def receive : Option Bytes → Received
  | none | some [] => .skipped
  | some (b :: bs) =>
    match decodeEnvelope (b :: bs) with
    | .error _ => .broken
    | .ok env =>
      match decodePayload env with
      | .error _ => .skipped
      | .ok v => .payload v

/-- An entry, and how publishing would go when it is processed. -/
structure Arrival where
  entry : Option Bytes
  bus : Publishing

/-- The loop and its supervisor. -/
structure Monitor (F : Type) extends Supervision F where
  running : Bool

variable {F : Type} [PyFloat F]

/-- A loop that starts. -/
def Monitor.new (limits : RiskLimits F) : Monitor F := ⟨⟨⟨limits, .new, false⟩, []⟩, true⟩

/-- One entry. An exception ends the loop. -/
def consume (m : Monitor F) (a : Arrival) : Monitor F :=
  if m.running then
    match receive a.entry with
    | .skipped => m
    | .broken => { m with running := false }
    | .payload v =>
      match processMessage v a.bus m.toSupervision with
      | .error m' => ⟨m', false⟩
      | .ok (_, m') => ⟨m', true⟩
  else m

variable (F) in
/-- The payload of the entry is a map, and what it has under the known keys are numbers. -/
def wellFormed (entry : Option Bytes) : Bool :=
  match receive entry with
  | .payload (.map pairs) => (folds (F := F)).all fun p ↦
      (item p.1 (.map pairs)).all fun v ↦ (float (F := F) v).isSome
  | _ => false

/-- What a message does before it trips the switch: the folded state, and the breaches, unless the
switch has tripped already. -/
structure Evaluation (F : Type) where
  state : AccountState F
  breaches : Option (List (Breach F))
deriving DecidableEq

def evaluation? (m : Monitor F) (entry : Option Bytes) : Option (Evaluation F) :=
  if m.running then
    match receive entry with
    | .payload v => match foldEnvelope v m.supervisor.state with
      | .ok s =>
        some ⟨s, if m.supervisor.tripped then none else some (evaluate m.supervisor.limits s)⟩
      | .error _ => none
    | _ => none
  else none

/-- The evaluations of the well-formed entries along a run. -/
def evaluations (m : Monitor F) : List Arrival → List (Evaluation F)
  | [] => []
  | a :: l => (if wellFormed F a.entry then (evaluation? m a.entry).toList else [])
      ++ evaluations (consume m a) l

/-- The entry is skipped; or it is folded without raising, while the switch has tripped or no limit
is breached. -/
def Unnoticed (m : Monitor F) (entry : Option Bytes) : Prop :=
  match receive entry with
  | .skipped => True
  | .broken => False
  | .payload v => (∃ s, foldEnvelope v m.supervisor.state = .ok s)
      ∧ (m.supervisor.tripped = true ∨ evaluate m.supervisor.limits m.supervisor.state = [])

/-- Every malformed entry that a well-formed one follows goes unnoticed. -/
def Survives (m : Monitor F) : List Arrival → Prop
  | [] => True
  | a :: l => (wellFormed F a.entry = false → (∃ b ∈ l, wellFormed F b.entry = true) →
      Unnoticed m a.entry) ∧ Survives (consume m a) l

/-! ## One entry -/

theorem wellFormed_iff {entry : Option Bytes} {pairs : List (Value × Value)}
    (h : receive entry = .payload (.map pairs)) (s : AccountState F) :
    wellFormed F entry = true ↔ ∃ s', foldEnvelope (.map pairs) s = .ok s' := by
  rw [foldEnvelope, foldKeys_map_isOk_iff, wellFormed, h]
  simp only [List.all_eq_true, List.mem_map, Option.all_eq_true]
  constructor
  · rintro hall key ⟨p, hp, rfl⟩
    exact hall p hp
  · exact fun hall p hp ↦ hall p.1 ⟨p, hp, rfl⟩

theorem exists_map_of_wellFormed {entry : Option Bytes} (h : wellFormed F entry = true) :
    ∃ pairs, receive entry = .payload (.map pairs) := by
  unfold wellFormed at h
  split at h
  · rename_i pairs hreceive
    exact ⟨pairs, hreceive⟩
  · cases h

/-- A well-formed entry is evaluated, unless the switch has tripped, and the loop goes on. -/
theorem evaluation_of_wellFormed {m : Monitor F} (hm : m.running = true) {a : Arrival}
    (h : wellFormed F a.entry = true) :
    (consume m a).running = true ∧ ∃ e, evaluation? m a.entry = some e
      ∧ (e.breaches = none ↔ m.supervisor.tripped = true) := by
  obtain ⟨pairs, hreceive⟩ := exists_map_of_wellFormed h
  obtain ⟨s, hs⟩ := (wellFormed_iff hreceive m.supervisor.state).mp h
  constructor
  · rw [consume, if_pos hm, hreceive]
    dsimp only
    cases hprocess : processMessage (.map pairs) a.bus m.toSupervision with
    | ok p => rfl
    | error m' =>
      obtain ⟨s', hs', -⟩ := processMessage_eq_error_iff.mp hprocess
      rw [hs] at hs'
      cases hs'
  · refine ⟨⟨s, if m.supervisor.tripped then none else some (evaluate m.supervisor.limits s)⟩,
      ?_, ?_⟩
    · rw [evaluation?, if_pos hm, hreceive]
      dsimp only
      rw [hs]
    · by_cases htripped : m.supervisor.tripped = true
      · exact iff_of_true (if_pos htripped) htripped
      · refine iff_of_false (fun h ↦ ?_) htripped
        rw [if_neg htripped] at h
        cases h

theorem eq_of_foldEnvelope_of_malformed {entry : Option Bytes} {v : Value} {s s' : AccountState F}
    (h : wellFormed F entry = false) (hreceive : receive entry = .payload v)
    (hfold : foldEnvelope v s = .ok s') : s' = s := by
  have hmap : ∀ pairs, v ≠ .map pairs := by
    rintro pairs rfl
    rw [(wellFormed_iff hreceive s).mpr ⟨s', hfold⟩] at h
    cases h
  rcases foldKeys_of_not_map hmap folds s with heq | heq
  · exact Except.ok.inj (hfold.symm.trans heq)
  · exact absurd (hfold.symm.trans heq) (by simp)

/-- **A malformed entry.** It leaves the loop as it is, or ends it, or trips a switch that a
well-formed entry would have tripped. -/
theorem consume_of_malformed {m : Monitor F} (hm : m.running = true) {a : Arrival}
    (h : wellFormed F a.entry = false) :
    (Unnoticed m a.entry ∧ consume m a = m)
      ∨ (¬ Unnoticed m a.entry ∧ ((consume m a).running = false
        ∨ m.supervisor.tripped = false ∧ (consume m a).supervisor.tripped = true)) := by
  rw [consume, if_pos hm]
  cases hreceive : receive a.entry with
  | skipped => exact .inl ⟨by simp only [Unnoticed, hreceive], rfl⟩
  | broken => exact .inr ⟨by simp only [Unnoticed, hreceive, not_false_eq_true], .inl rfl⟩
  | payload v =>
    simp only [Unnoticed, hreceive]
    cases hprocess : processMessage v a.bus m.toSupervision with
    | error m' =>
      obtain ⟨s, hs, -⟩ := processMessage_eq_error_iff.mp hprocess
      refine .inr ⟨?_, .inl rfl⟩
      rintro ⟨⟨s', hs'⟩, -⟩
      rw [hs] at hs'
      cases hs'
    | ok p =>
      obtain ⟨b, m'⟩ := p
      obtain ⟨s, hs, hcases⟩ := processMessage_cases hprocess
      have hsame : s = m.supervisor.state := eq_of_foldEnvelope_of_malformed h hreceive hs
      subst hsame
      rcases hcases with ⟨hquiet, -, rfl⟩ | ⟨htripped, hbreach, -, hsup, -⟩
      · refine .inl ⟨⟨⟨_, hs⟩, hquiet⟩, ?_⟩
        rw [← hm]
      · refine .inr ⟨?_, .inr ⟨htripped, by rw [hsup]⟩⟩
        rintro ⟨-, h | h⟩
        · rw [htripped] at h
          cases h
        · exact hbreach h

/-- Publishing succeeds if this entry trips the switch. -/
def Delivers (m : Monitor F) (a : Arrival) : Prop :=
  ∀ v s, m.running = true → receive a.entry = .payload v →
    foldEnvelope v m.supervisor.state = .ok s → m.supervisor.tripped = false →
    evaluate m.supervisor.limits s ≠ [] → a.bus = .succeeds

/-- **One entry and the switch.** Either it leaves the latch and the control stream alone, or it
sets the latch, and publishes if it can. -/
theorem consume_switch (m : Monitor F) (a : Arrival) :
    ((consume m a).supervisor.tripped = m.supervisor.tripped ∧ (consume m a).control = m.control
        ∧ Delivers m a)
      ∨ m.supervisor.tripped = false ∧ (consume m a).supervisor.tripped = true
        ∧ (∃ breaches, (consume m a).control = tripKillSwitch a.bus breaches m.control)
        ∧ (Delivers m a ↔ a.bus = .succeeds) := by
  by_cases hm : m.running = true
  · rw [consume, if_pos hm]
    cases hreceive : receive a.entry with
    | skipped =>
      refine .inl ⟨rfl, rfl, fun v s _ h ↦ ?_⟩
      rw [hreceive] at h
      cases h
    | broken =>
      refine .inl ⟨rfl, rfl, fun v s _ h ↦ ?_⟩
      rw [hreceive] at h
      cases h
    | payload v =>
      dsimp only
      cases hprocess : processMessage v a.bus m.toSupervision with
      | error m' =>
        obtain ⟨s, hs, rfl⟩ := processMessage_eq_error_iff.mp hprocess
        refine .inl ⟨rfl, rfl, fun v' s' _ hv' hs' ↦ ?_⟩
        rw [hreceive] at hv'
        cases hv'
        rw [hs] at hs'
        cases hs'
      | ok p =>
        obtain ⟨b, m'⟩ := p
        obtain ⟨s, hs, ⟨hquiet, -, rfl⟩ | ⟨htripped, hbreach, -, hsup, hcontrol⟩⟩ :=
          processMessage_cases hprocess
        · refine .inl ⟨rfl, rfl, fun v' s' _ hv' hs' hclear hbreach ↦ ?_⟩
          rw [hreceive] at hv'
          cases hv'
          rw [hs] at hs'
          cases hs'
          rcases hquiet with hset | hnone
          · rw [hset] at hclear
            cases hclear
          · exact absurd hnone hbreach
        · refine .inr ⟨htripped, ?_, ⟨_, hcontrol⟩, fun h ↦ h v s hm hreceive hs htripped hbreach,
            fun h _ _ _ _ _ _ _ ↦ h⟩
          dsimp only
          rw [hsup]
  · rw [consume, if_neg hm]
    exact .inl ⟨rfl, rfl, fun _ _ hrunning ↦ absurd hrunning hm⟩

theorem tripped_consume {m : Monitor F} (hm : m.supervisor.tripped = true) (a : Arrival) :
    (consume m a).supervisor.tripped = true := by
  rcases consume_switch m a with ⟨htripped, -⟩ | ⟨-, htripped, -⟩
  · exact htripped.trans hm
  · exact htripped

/-! ## Runs -/

theorem evaluations_of_not_running {m : Monitor F} (hm : m.running = false) (l : List Arrival) :
    evaluations m l = [] := by
  induction l with
  | nil => rfl
  | cons a l ih =>
    have hconsume : consume m a = m := by rw [consume, if_neg (by simp [hm])]
    have heval : evaluation? m a.entry = none := by rw [evaluation?, if_neg (by simp [hm])]
    rw [evaluations, hconsume, ih, heval, Option.toList_none, ite_self, List.append_nil]

theorem evaluations_of_malformed {l : List Arrival} (h : ∀ a ∈ l, wellFormed F a.entry = false)
    (m : Monitor F) : evaluations m l = [] ∧ Survives m l := by
  induction l generalizing m with
  | nil => exact ⟨rfl, trivial⟩
  | cons a l ih =>
    obtain ⟨ha, hl⟩ := List.forall_mem_cons.mp h
    obtain ⟨heval, hsurvives⟩ := ih hl (consume m a)
    refine ⟨?_, fun _ ⟨b, hb, hwf⟩ ↦ ?_, hsurvives⟩
    · rw [evaluations, heval, List.append_nil, ha, if_neg (by decide)]
    · rw [hl b hb] at hwf
      cases hwf

theorem breaches_of_tripped {m : Monitor F} (hm : m.supervisor.tripped = true) {l : List Arrival}
    {e : Evaluation F} (he : e ∈ evaluations m l) : e.breaches = none := by
  induction l generalizing m with
  | nil => cases he
  | cons a l ih =>
    rw [evaluations, List.mem_append] at he
    rcases he with he | he
    · by_cases hrunning : m.running = true
      · split_ifs at he with hwf
        · obtain ⟨-, e', heq, hbreaches⟩ := evaluation_of_wellFormed hrunning hwf
          rw [heq, Option.mem_toList] at he
          rw [← Option.some.inj he, hbreaches, hm]
        · cases he
      · rw [evaluation?, if_neg hrunning] at he
        simp at he
    · exact ih (tripped_consume hm a) he

/-- The first of the well-formed entries is evaluated by the state it finds. -/
theorem exists_evaluation {m : Monitor F} (hm : m.running = true) {l : List Arrival}
    (h : ∃ b ∈ l, wellFormed F b.entry = true) :
    ∃ e ∈ evaluations m (l.filter fun a ↦ wellFormed F a.entry),
      e.breaches = none ↔ m.supervisor.tripped = true := by
  cases hfilter : l.filter fun a ↦ wellFormed F a.entry with
  | nil =>
    obtain ⟨b, hb, hwf⟩ := h
    exact absurd hwf (List.filter_eq_nil_iff.mp hfilter b hb)
  | cons b rest =>
    have hb : b ∈ l.filter fun a ↦ wellFormed F a.entry := by
      rw [hfilter]
      exact List.mem_cons_self
    obtain ⟨-, e, he, hbreaches⟩ := evaluation_of_wellFormed hm (List.mem_filter.mp hb).2
    refine ⟨e, ?_, hbreaches⟩
    rw [evaluations, if_pos (List.mem_filter.mp hb).2, he]
    exact List.mem_cons_self

theorem evaluations_eq_iff_of_running {m : Monitor F} (hm : m.running = true) (l : List Arrival) :
    evaluations m l = evaluations m (l.filter fun a ↦ wellFormed F a.entry) ↔ Survives m l := by
  induction l generalizing m with
  | nil => exact iff_of_true rfl trivial
  | cons a l ih =>
    by_cases hwf : wellFormed F a.entry = true
    · have hrunning := (evaluation_of_wellFormed hm hwf).1
      rw [List.filter_cons_of_pos (p := fun a : Arrival ↦ wellFormed F a.entry) hwf, evaluations,
        evaluations, List.append_cancel_left_eq, ih hrunning, Survives]
      refine ⟨fun h ↦ ⟨fun hmal ↦ ?_, h⟩, And.right⟩
      rw [hwf] at hmal
      cases hmal
    · have hmal := eq_false_of_ne_true hwf
      rw [List.filter_cons_of_neg (p := fun a : Arrival ↦ wellFormed F a.entry) hwf, evaluations,
        if_neg hwf, List.nil_append, Survives]
      by_cases hlater : ∃ b ∈ l, wellFormed F b.entry = true
      · rcases consume_of_malformed hm hmal with ⟨hunnoticed, hsame⟩ | ⟨hnoticed, hstop | htrip⟩
        · rw [hsame, ih hm]
          exact ⟨fun h ↦ ⟨fun _ _ ↦ hunnoticed, h⟩, And.right⟩
        all_goals
          refine iff_of_false (fun heq ↦ ?_) fun h ↦ hnoticed (h.1 hmal hlater)
          obtain ⟨e, he, hbreaches⟩ := exists_evaluation hm hlater
          rw [← heq] at he
        · rw [evaluations_of_not_running hstop] at he
          cases he
        · -- the entry is no longer evaluated
          have htripped := hbreaches.mp (breaches_of_tripped htrip.2 he)
          rw [htrip.1] at htripped
          cases htripped
      · have hnone : ∀ b ∈ l, wellFormed F b.entry = false := fun b hb ↦
          eq_false_of_ne_true fun h ↦ hlater ⟨b, hb, h⟩
        have hfilter : (l.filter fun a ↦ wellFormed F a.entry) = [] :=
          List.filter_eq_nil_iff.mpr fun b hb h ↦ hlater ⟨b, hb, h⟩
        obtain ⟨heval, hsurvives⟩ := evaluations_of_malformed hnone (consume m a)
        rw [hfilter, heval]
        exact iff_of_true rfl ⟨fun _ h ↦ absurd h hlater, hsurvives⟩

/-- **Malformed telemetry.** The well-formed entries are folded and evaluated as if the malformed
ones were absent exactly when every malformed entry that a well-formed one follows goes
unnoticed. -/
theorem evaluations_eq_filter_iff (limits : RiskLimits F) (l : List Arrival) :
    evaluations (.new limits) l
        = evaluations (.new limits) (l.filter fun a ↦ wellFormed F a.entry)
      ↔ Survives (.new limits) l :=
  evaluations_eq_iff_of_running rfl l

/-! ## The latch -/

/-- A tripped switch was published. -/
def Published (m : Monitor F) : Prop :=
  m.supervisor.tripped = true → ∃ k ∈ m.control, k.engaged = true

/-- Nothing is published before the switch trips. -/
def SilentWhileClear (m : Monitor F) : Prop := m.supervisor.tripped = false → m.control = []

theorem SilentWhileClear.consume {m : Monitor F} (h : SilentWhileClear m) (a : Arrival) :
    SilentWhileClear (consume m a) := by
  intro hclear
  rcases consume_switch m a with ⟨htripped, hcontrol, -⟩ | ⟨-, htripped, -⟩
  · rw [hcontrol]
    exact h (htripped.symm.trans hclear)
  · rw [htripped] at hclear
    cases hclear

theorem published_consume_iff {m : Monitor F} (hsilent : SilentWhileClear m) (hm : Published m)
    (a : Arrival) : Published (consume m a) ↔ Delivers m a := by
  rcases consume_switch m a with ⟨htripped, hcontrol, hdelivers⟩ | ⟨hclear, htripped, ⟨breaches,
    hcontrol⟩, hdelivers⟩
  · rw [Published, htripped, hcontrol]
    exact iff_of_true hm hdelivers
  · rw [Published, htripped, hcontrol, hdelivers, hsilent hclear]
    simp only [forall_const]
    cases a.bus <;> simp [tripKillSwitch]

/-- What is latched without having been published stays so. -/
theorem published_of_consume {m : Monitor F} {a : Arrival} (h : Published (consume m a)) :
    Published m := by
  intro hset
  rcases consume_switch m a with ⟨htripped, hcontrol, -⟩ | ⟨hclear, -⟩
  · rw [← hcontrol]
    exact h (htripped.trans hset)
  · rw [hset] at hclear
    cases hclear

/-- **The latch.** Whenever the switch is tripped, an engaging kill switch was published, exactly
when the publishing of the entry that trips it, if there is one, succeeds. -/
theorem tripped_imp_published_iff (limits : RiskLimits F) (l : List Arrival) :
    ((l.foldl consume (.new limits)).supervisor.tripped = true →
        ∃ k ∈ (l.foldl consume (.new limits)).control, k.engaged = true)
      ↔ Along consume Delivers (.new limits) l := by
  refine foldl_iff_along (I := Published) (J := SilentWhileClear) (fun _ a h ↦ h.consume a)
    (fun _ a hsilent h ↦ published_consume_iff hsilent h a) (fun _ _ _ ↦ published_of_consume)
    (fun h ↦ ?_) fun _ ↦ rfl
  cases h

section Instances

/-- Arithmetic on doubles without rounding. -/
@[reducible] def exactFloats : PyFloat F64 where
  zero := .finite 0
  sub
    | .finite a, .finite b => .finite (a - b)
    | .infinite s, .finite _ => .infinite s
    | .finite _, .infinite s => .infinite !s
    | .infinite s, .infinite t => if s = t then .nan else .infinite s
    | _, _ => .nan
  div
    | .finite a, .finite b => .finite (a / b)
    | .finite _, .infinite _ => .finite 0
    | .infinite s, .finite b => .infinite (if b < 0 then !s else s)
    | _, _ => .nan
  abs
    | .finite a => .finite |a|
    | .infinite _ => .infinite false
    | .nan => .nan
  lt
    | .finite a, .finite b => decide (a < b)
    | .infinite true, .finite _ | .finite _, .infinite false | .infinite true, .infinite false =>
      true
    | _, _ => false
  le
    | .finite a, .finite b => decide (a ≤ b)
    | .infinite true, .finite _ | .finite _, .infinite false => true
    | .infinite s, .infinite t => s || !t
    | _, _ => false
  eq
    | .finite a, .finite b => decide (a = b)
    | .infinite s, .infinite t => decide (s = t)
    | _, _ => false
  ofInt i := .finite i
  ofF32 bits := ofBits 8 23 bits.toNat
  ofF64 bits := ofBits 11 52 bits.toNat
  ofText _ := none
where
  ofBits (exponent mantissa n : ℕ) : F64 :=
    match floatValue exponent mantissa n with
    | some q => .finite q
    | none =>
      if n % 2 ^ mantissa = 0 then .infinite (decide (2 ^ (mantissa + exponent) ≤ n)) else .nan

attribute [local instance] exactFloats

/-- The limits of the default configuration. -/
def defaultLimits : RiskLimits F64 :=
  ⟨.finite (1 / 5), .finite 1000000, .finite 500000, .finite 50000⟩

/-- A frame of telemetry. -/
def telemetry (pairs : List (Value × Value)) : Option Bytes :=
  some (PyEnvelope.mk 1 .orderEvent [] 0 (Value.map pairs).encode).value.encode

/-- An exposure of twice the limit. -/
def exposed : Option Bytes := telemetry [(.str (utf8 "gross_exposure"), .int 2000000)]

/-- A byte that starts no value. -/
def garbage : Option Bytes := some [0xc1]

/-- Behind a frame that does not decode, a breach is not evaluated. -/
theorem not_evaluated_behind_garbage :
    ¬ ∀ (limits : RiskLimits F64) (l : List Arrival), evaluations (.new limits) l
      = evaluations (.new limits) (l.filter fun a ↦ wellFormed F64 a.entry) := by
  intro h
  have hrun := h defaultLimits [⟨garbage, .succeeds⟩, ⟨exposed, .succeeds⟩]
  revert hrun
  decide

/-- A breach whose publishing fails leaves the switch tripped, and nothing on the control stream. -/
theorem tripped_not_published : ¬ ∀ (limits : RiskLimits F64) (l : List Arrival),
    (l.foldl consume (.new limits)).supervisor.tripped = true →
      ∃ k ∈ (l.foldl consume (.new limits)).control, k.engaged = true := by
  intro h
  have hrun := h defaultLimits [⟨exposed, .raises⟩, ⟨exposed, .succeeds⟩]
  revert hrun
  decide

end Instances

end Coinext.RiskMonitor
