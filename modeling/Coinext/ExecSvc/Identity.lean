import Coinext.ExecSvc.Durable
import Mathlib.Data.List.Nodup

/-!
# Client order ids

Two things are asked of the ids of submits. A command that is delivered twice under the same id must
not reach the venue, or be filled on paper, twice; and commands that leave the id to the service
must not obtain the same one.

The service does not look at the ids it has seen, so the first holds exactly when no id is repeated
among the submits that go through. Minted ids come from the cursor of the strategy, except that a
cursor that fails stands for the number one. The numbers a strategy obtains are `numbers`, and they
are distinct exactly when at most one of them is a one (`nodup_numbers_iff`).
-/

namespace Coinext

/-- The client with every request it issues written down. -/
def RestClient.recording {τ : Type} (c : RestClient τ) : RestClient (List RestRequest × τ) where
  maxRetries := c.maxRetries
  capacity := c.capacity
  creds := c.creds
  headerFromStr := c.headerFromStr
  transport req s := ((c.transport req s.2).1, s.1 ++ [req], (c.transport req s.2).2)

namespace ExecSvc

/-! ## Minted ids -/

theorem append_cons_inj_of_notMem {α : Type} {x : α} {l l' t t' : List α} (ht : x ∉ t)
    (ht' : x ∉ t') : l ++ x :: t = l' ++ x :: t' ↔ l = l' ∧ t = t' := by
  refine ⟨fun h ↦ ?_, fun ⟨hl, ht⟩ ↦ by rw [hl, ht]⟩
  rcases List.append_eq_append_iff.mp h with ⟨u, hl, hu⟩ | ⟨u, hl, hu⟩
  · cases u with
    | nil => exact ⟨by simpa using hl.symm, (List.cons_eq_cons.mp hu).2⟩
    | cons y u =>
      have htail : t = u ++ x :: t' := (List.cons_eq_cons.mp hu).2
      exact absurd (htail ▸ List.mem_append_right u List.mem_cons_self) ht
  · cases u with
    | nil => exact ⟨by simpa using hl, ((List.cons_eq_cons.mp hu).2).symm⟩
    | cons y u =>
      have htail : t' = u ++ x :: t := (List.cons_eq_cons.mp hu).2
      exact absurd (htail ▸ List.mem_append_right u List.mem_cons_self) ht'

theorem hyphen_notMem_pad20 (n : ℕ) : '-' ∉ (pad20 n).toList := by
  intro hmem
  rw [pad20, String.toList_ofList, List.mem_append] at hmem
  rcases hmem with hmem | hmem
  · exact absurd (List.eq_of_mem_replicate hmem) (by decide)
  · exact absurd (Nat.isDigit_of_mem_toDigits (by decide) (by decide) hmem) (by decide)

/-- A minted id determines the strategy and the number: the digits hold no hyphen. -/
theorem mintedId_inj {s s' : String} {n n' : ℕ} :
    PaperOms.mintedId s n = PaperOms.mintedId s' n' ↔ s = s' ∧ n = n' := by
  have htext : PaperOms.mintedId s n = PaperOms.mintedId s' n'
      ↔ s.toList ++ '-' :: (pad20 n).toList = s'.toList ++ '-' :: (pad20 n').toList := by
    simp [PaperOms.mintedId, ← String.toList_inj, String.toList_append]
  rw [htext, append_cons_inj_of_notMem (hyphen_notMem_pad20 n) (hyphen_notMem_pad20 n'),
    String.toList_inj, String.toList_inj, pad20_injective.eq_iff]

/-! ## The numbers a strategy obtains -/

/-- The numbers obtained from a cursor at `c`, by whether it fails. -/
def numbers (c : ℕ) : List Bool → List ℕ
  | [] => []
  | true :: fails => 1 :: numbers c fails
  | false :: fails => (c + 1) :: numbers (c + 1) fails

theorem mem_numbers {c n : ℕ} {fails : List Bool} :
    n ∈ numbers c fails ↔ n = 1 ∧ true ∈ fails ∨ c < n ∧ n ≤ c + fails.count false := by
  induction fails generalizing c with
  | nil =>
    simp only [numbers, List.not_mem_nil, and_false, List.count_nil, false_or, false_iff]
    omega
  | cons fail fails ih =>
    cases fail with
    | true =>
      simp only [numbers, List.mem_cons, ih, true_or, and_true, List.count_cons_of_ne
        (show true ≠ false by decide)]
      tauto
    | false =>
      simp only [numbers, List.mem_cons, ih, List.count_cons_self, Bool.true_eq_false, false_or]
      by_cases htrue : true ∈ fails
      · simp only [htrue, and_true]
        omega
      · simp only [htrue, and_false, false_or]
        omega

/-- **When minted numbers are distinct.** A failing cursor yields a one, and so does a fresh cursor
when it first succeeds; at most one of these happens. -/
theorem nodup_numbers_iff {c : ℕ} {fails : List Bool} :
    (numbers c fails).Nodup
      ↔ fails.count true + (if c = 0 ∧ false ∈ fails then 1 else 0) ≤ 1 := by
  induction fails generalizing c with
  | nil => simp [numbers]
  | cons fail fails ih =>
    have htrue : true ∈ fails ↔ 0 < fails.count true := List.count_pos_iff.symm
    have hfalse : false ∈ fails ↔ 0 < fails.count false := List.count_pos_iff.symm
    cases fail with
    | true =>
      -- the one is new exactly when no other failure and no first success follows
      rw [numbers, List.nodup_cons, mem_numbers, ih]
      simp only [htrue, hfalse, List.count_cons_self, List.mem_cons, Bool.false_eq_true, false_or,
        true_and]
      split_ifs <;> omega
    | false =>
      rw [numbers, List.nodup_cons, mem_numbers, ih]
      simp only [htrue, List.mem_cons, true_or, and_true, Nat.succ_ne_zero, false_and, if_false,
        List.count_cons_of_ne (show false ≠ true by decide), lt_irrefl, or_false, add_zero]
      by_cases hc : c = 0
      · simp only [hc, zero_add, true_and, if_true]
        omega
      · simp only [hc, Nat.add_eq_right, false_and, not_false_iff, true_and, if_false, add_zero]

/-! ## What is asked of a submit -/

/-- What a submit command brings with it. -/
structure Intake where
  explicitId : Option String
  strategyId : String
  cursorFails : Bool
  /-- The kill switch is off and, with a venue, the order can be built and sent. -/
  goesThrough : Prop

/-- What a submit command obtains. -/
structure Outcome where
  explicitId : Option String
  clientOrderId : ClientOrderId
  /-- The order was filled on paper or sent to the venue. -/
  placed : Prop

section Runs

variable {τ : Type}

/-- The client lets an order request out. -/
def VenueBridge.Ready (bridge : VenueBridge τ) : Prop :=
  bridge.rest.acquire (Binance.orderRequest []).weight = .ok ()
    ∧ bridge.rest.authorize (Binance.orderRequest []) = .ok ()

def VenueBridge.recording (bridge : VenueBridge τ) : VenueBridge (List RestRequest × τ) :=
  ⟨bridge.rest.recording⟩

/-- The order was filled on paper, or a request to place it was issued. -/
def Placed (id : ClientOrderId) (handled : PaperOms.Handled (List RestRequest × τ)) : Prop :=
  (id, .filled) ∈ handled.published.filterMap lifecycle
    ∨ ∃ req ∈ handled.world.1, req.method = .post ∧ ("newClientOrderId", id.text) ∈ req.query

variable [DecimalWidth] [Rendering] (venue : Option (VenueBridge τ))

/-- The submit can be filled on paper or sent to the venue. -/
def Sendable (cmd : ExecCommand) : Prop :=
  ∀ bridge ∈ venue, bridge.Ready ∧ cmd.Orderable

/-- The submits of a run as they come in, from a setting of the kill switch. -/
def intakes : Bool → List ServiceStep → List Intake
  | _, [] => []
  | _, .killSwitch engaged :: steps => intakes engaged steps
  | kill, .command cmd env :: steps =>
    match cmd.commandKind with
    | .submit =>
      ⟨cmd.explicitId, cmd.strategyId, env.cursorFails, kill = false ∧ Sendable venue cmd⟩
        :: intakes kill steps
    | _ => intakes kill steps

/-- What one step obtains. -/
def outcome (v : Service τ) : ServiceStep → Option Outcome
  | .command cmd env => match cmd.commandKind with
    | .submit =>
      let coid := (v.oms.resolveId cmd env.cursorFails).1
      some ⟨cmd.explicitId, coid, Placed coid
        (v.oms.handleAsync cmd env (venue.map VenueBridge.recording) ([], v.world))⟩
    | _ => none
  | .killSwitch _ => none

/-- What the submits of a run obtain. -/
def outcomes (v : Service τ) : List ServiceStep → List Outcome
  | [] => []
  | a :: steps => (outcome venue v a).toList ++ outcomes (v.step venue a) steps

end Runs

/-! ## A submit that goes through is placed -/

section Placing

variable {τ : Type} [DecimalWidth] [Rendering]

omit [DecimalWidth] [Rendering] in
/-- Sending writes down the request once for each attempt. -/
theorem recording_attemptsFrom (c : RestClient τ) (req : RestRequest) (fuel n : ℕ)
    (l : List RestRequest) (w : τ) :
    ∃ k, (c.recording.attemptsFrom req fuel n (l, w)).2.1 = l ++ List.replicate k req
      ∧ (0 < k ↔ 0 < fuel ∧ c.authorize req = .ok ()) := by
  induction fuel generalizing n l w with
  | zero => exact ⟨0, by simp [RestClient.attemptsFrom], by simp⟩
  | succ fuel ih =>
    have hauth : c.recording.authorize req = c.authorize req := rfl
    cases hok : c.authorize req with
    | error e =>
      refine ⟨0, ?_, by simp⟩
      simp [RestClient.attemptsFrom, hauth, hok]
    | ok u =>
      cases hend : c.recording.conclude req n (c.recording.transport req (l, w)).1 with
      | some r =>
        refine ⟨1, ?_, by simp⟩
        rw [RestClient.attemptsFrom_of_some _ _ (hauth.trans hok) hend]
        rfl
      | none =>
        obtain ⟨k, hk, -⟩ := ih (n + 1) (l ++ [req]) (c.transport req w).2
        refine ⟨k + 1, ?_, by simp⟩
        rw [RestClient.attemptsFrom_of_none _ _ (hauth.trans hok) hend]
        refine hk.trans ?_
        rw [List.append_assoc, List.singleton_append, ← List.replicate_succ]

omit [DecimalWidth] [Rendering] in
theorem recording_send (c : RestClient τ) (req : RestRequest) (w : τ) :
    ∃ k, (c.recording.send req ([], w)).2.1 = List.replicate k req
      ∧ (0 < k ↔ c.acquire req.weight = .ok () ∧ c.authorize req = .ok ()) := by
  have hacquire : c.recording.acquire req.weight = c.acquire req.weight := rfl
  cases hok : c.acquire req.weight with
  | error e => exact ⟨0, by simp [RestClient.send, hacquire, hok], by simp⟩
  | ok u =>
    obtain ⟨k, hk, hpos⟩ := recording_attemptsFrom c req (c.maxRetries + 1) 0 [] w
    have hsend : c.recording.send req ([], w)
        = c.recording.attemptsFrom req (c.maxRetries + 1) 0 ([], w) := by
      simp only [RestClient.send, hacquire, hok]
      rfl
    exact ⟨k, by simpa [hsend] using hk, by simpa using hpos⟩

/-- A submit issues a request for its order exactly when the client lets it out and the order can
be built. -/
theorem exists_request_iff (bridge : VenueBridge τ) (cmd : ExecCommand) (coid : ClientOrderId)
    (now : UnixNanos) (w : τ) :
    (∃ req ∈ (cmd.submitTo bridge.recording coid now ([], w)).2.1,
      req.method = .post ∧ ("newClientOrderId", coid.text) ∈ req.query)
      ↔ bridge.Ready ∧ cmd.Orderable := by
  by_cases hcan : cmd.Orderable
  · obtain ⟨front, -, hsend⟩ := cmd.submitTo_of_orderable hcan coid now
    rw [hsend]
    obtain ⟨k, hk, hpos⟩ := recording_send bridge.rest (Binance.orderRequest
      (front ++ [("newClientOrderId", coid.text)])) w
    have hready : bridge.Ready ↔ 0 < k := hpos.symm
    have hrequests : (VenueBridge.textResult (Binance.portResult (bridge.recording.rest.send
        (Binance.orderRequest (front ++ [("newClientOrderId", coid.text)])) ([], w)))).2.1
        = List.replicate k (Binance.orderRequest (front ++ [("newClientOrderId", coid.text)])) := hk
    rw [hrequests, hready]
    constructor
    · rintro ⟨req, hreq, -⟩
      exact ⟨Nat.pos_of_ne_zero (List.mem_replicate.mp hreq).1, hcan⟩
    · rintro ⟨hk, -⟩
      exact ⟨_, List.mem_replicate.mpr ⟨hk.ne', rfl⟩, rfl, by simp [Binance.orderRequest]⟩
  · -- the order cannot be built, and nothing is sent
    obtain ⟨e, he⟩ := cmd.submitTo_of_not_orderable hcan bridge.recording coid now ([], w)
    simp [he, hcan]

/-- **A submit is placed exactly when it goes through.** -/
theorem placed_iff (venue : Option (VenueBridge τ)) (oms : PaperOms) (cmd : ExecCommand)
    (env : Circumstances) (w : τ) (hsubmit : cmd.commandKind = .submit) :
    Placed (oms.resolveId cmd env.cursorFails).1
        (oms.handleAsync cmd env (venue.map VenueBridge.recording) ([], w))
      ↔ oms.kill = false ∧ Sendable venue cmd := by
  simp only [PaperOms.handleAsync, hsubmit, PaperOms.handleSubmit]
  generalize (oms.resolveId cmd env.cursorFails).1 = coid
  cases hkill : oms.kill with
  | true =>
    refine iff_of_false ?_ (by simp)
    rintro (hfill | ⟨req, hreq, -⟩)
    · have hdenied : lifecycle (PaperOms.deniedEvent cmd coid env.now) = some (coid, .denied) := rfl
      simp [hdenied] at hfill
    · cases hreq
  | false =>
    cases venue with
    | none =>
      refine iff_of_true (.inl ?_) ⟨rfl, fun bridge hbridge ↦ by cases hbridge⟩
      have hfilled : lifecycle (PaperOms.paperFilledEvent cmd coid env.now)
          = some (coid, .filled) := rfl
      simp [PaperOms.paperSubmit, hfilled]
    | some bridge =>
      have hsendable : Sendable (some bridge) cmd ↔ bridge.Ready ∧ cmd.Orderable := by
        simp [Sendable]
      rw [hsendable, ← exists_request_iff bridge cmd coid env.now w]
      simp only [Option.map_some, PaperOms.venueSubmit, Placed, true_and]
      rcases cmd.submitTo bridge.recording coid env.now ([], w) with ⟨_ | _, requests, w'⟩
      · refine or_iff_right fun hfill ↦ ?_
        exact List.not_mem_nil hfill
      · refine or_iff_right fun hfill ↦ ?_
        have hsubmitted : lifecycle (PaperOms.venueSubmittedEvent cmd coid env.now)
            = some (coid, .submitted) := rfl
        simp [hsubmitted] at hfill

end Placing

/-! ## A run of submits -/

section Run

variable {τ : Type} [DecimalWidth] [Rendering] (venue : Option (VenueBridge τ))

/-- A command leaves the kill switch alone, and only a submit moves the cursor, as its id is
resolved. -/
theorem frame_handleAsync (oms : PaperOms) (cmd : ExecCommand) (env : Circumstances) (w : τ) :
    (oms.handleAsync cmd env venue w).oms.kill = oms.kill
      ∧ (oms.handleAsync cmd env venue w).oms.cursor = match cmd.commandKind with
        | .submit => (oms.resolveId cmd env.cursorFails).2
        | _ => oms.cursor := by
  simp only [PaperOms.handleAsync]
  cases cmd.commandKind with
  | unknown => exact ⟨rfl, rfl⟩
  | cancel =>
    simp only [PaperOms.handleCancel]
    cases cmd.explicitId with
    | none => exact ⟨rfl, rfl⟩
    | some id =>
      cases venue with
      | none => exact ⟨rfl, rfl⟩
      | some bridge =>
        simp only
        split <;> exact ⟨rfl, rfl⟩
  | submit =>
    simp only [PaperOms.handleSubmit]
    split
    · exact ⟨rfl, rfl⟩
    · cases venue with
      | none => exact ⟨rfl, rfl⟩
      | some bridge =>
        simp only [PaperOms.venueSubmit]
        split <;> exact ⟨rfl, rfl⟩

theorem forall₂_outcomes (v : Service τ) (steps : List ServiceStep) :
    List.Forall₂ (fun o i ↦ o.explicitId = i.explicitId ∧ (o.placed ↔ i.goesThrough))
      (outcomes venue v steps) (intakes venue v.oms.kill steps) := by
  induction steps generalizing v with
  | nil => exact .nil
  | cons a steps ih =>
    have hrest := ih (v.step venue a)
    cases a with
    | killSwitch engaged => exact hrest
    | command cmd env =>
      rw [Service.step, (frame_handleAsync venue v.oms cmd env v.world).1] at hrest
      cases hkind : cmd.commandKind with
      | submit =>
        simp only [outcomes, outcome, intakes, hkind, Option.toList_some, List.singleton_append]
        exact .cons ⟨rfl, placed_iff venue v.oms cmd env v.world hkind⟩ hrest
      | cancel =>
        simp only [outcomes, outcome, intakes, hkind, Option.toList_none, List.nil_append]
        exact hrest
      | unknown =>
        simp only [outcomes, outcome, intakes, hkind, Option.toList_none, List.nil_append]
        exact hrest

/-- The strategies and numbers of the submits that leave the id to the service, from the numbers
last issued. -/
def minted (current : String → ℕ) : List Intake → List (String × ℕ)
  | [] => []
  | i :: rest => match i.explicitId, i.cursorFails with
    | some _, _ => minted current rest
    | none, true => (i.strategyId, 1) :: minted current rest
    | none, false => (i.strategyId, current i.strategyId + 1)
        :: minted (Function.update current i.strategyId (current i.strategyId + 1)) rest

omit [DecimalWidth] [Rendering] in
theorem current_next_eq (c : SeqCursor) (ns : String) (fails : Bool) :
    (c.next ns fails).2.current
      = if fails then c.current else Function.update c.current ns (c.current ns + 1) := by
  funext other
  rw [SeqCursor.current_next]
  by_cases hns : other = ns
  · subst hns
    cases fails <;> simp
  · cases fails <;> simp [hns]

/-- The ids obtained by the submits that leave the id to the service are the minted ones. -/
theorem map_outcomes (v : Service τ) (steps : List ServiceStep) :
    ((outcomes venue v steps).filter (·.explicitId = none)).map (·.clientOrderId)
      = (minted v.oms.cursor.current (intakes venue v.oms.kill steps)).map
        fun m ↦ PaperOms.mintedId m.1 m.2 := by
  induction steps generalizing v with
  | nil => rfl
  | cons a steps ih =>
    have hrest := ih (v.step venue a)
    cases a with
    | killSwitch engaged => exact hrest
    | command cmd env =>
      obtain ⟨hkill, hcursor⟩ := frame_handleAsync venue v.oms cmd env v.world
      change (v.step venue (.command cmd env)).oms.kill = _ at hkill
      change (v.step venue (.command cmd env)).oms.cursor = _ at hcursor
      rw [hkill, hcursor] at hrest
      cases hkind : cmd.commandKind with
      | submit =>
        simp only [hkind] at hrest
        simp only [outcomes, outcome, intakes, hkind, Option.toList_some, List.singleton_append]
        cases hid : cmd.explicitId with
        | some id =>
          simp only [PaperOms.resolveId, hid] at hrest
          simpa [minted] using hrest
        | none =>
          simp only [PaperOms.resolveId, hid, current_next_eq] at hrest
          cases hfails : env.cursorFails with
          | true =>
            simp only [hfails, if_true] at hrest
            simpa [minted, PaperOms.resolveId, hid, SeqCursor.next] using hrest
          | false =>
            simp only [hfails, Bool.false_eq_true, if_false] at hrest
            simpa [minted, PaperOms.resolveId, hid, SeqCursor.next] using hrest
      | cancel =>
        simp only [hkind] at hrest
        simp only [outcomes, outcome, intakes, hkind, Option.toList_none, List.nil_append]
        exact hrest
      | unknown =>
        simp only [hkind] at hrest
        simp only [outcomes, outcome, intakes, hkind, Option.toList_none, List.nil_append]
        exact hrest

end Run

/-! ## Distinct ids -/

/-- Whether the cursor failed, for the submits of a strategy that leave the id to the service. -/
def failsOf (strategy : String) (l : List Intake) : List Bool :=
  (l.filter fun i ↦ i.explicitId = none ∧ i.strategyId = strategy).map (·.cursorFails)

theorem minted_eq_numbers (strategy : String) (current : String → ℕ) (l : List Intake) :
    ((minted current l).filter (·.1 = strategy)).map Prod.snd
      = numbers (current strategy) (failsOf strategy l) := by
  induction l generalizing current with
  | nil => rfl
  | cons i l ih =>
    by_cases hid : i.explicitId = none
    · by_cases hstrategy : i.strategyId = strategy
      · subst hstrategy
        have hfails : failsOf i.strategyId (i :: l) = i.cursorFails :: failsOf i.strategyId l := by
          simp [failsOf, hid]
        rw [hfails]
        cases hfail : i.cursorFails with
        | true => simp [minted, hid, hfail, numbers, ih]
        | false => simp [minted, hid, hfail, numbers, ih, Function.update_self]
      · have hfails : failsOf strategy (i :: l) = failsOf strategy l := by
          simp [failsOf, hstrategy]
        rw [hfails]
        have hother : strategy ≠ i.strategyId := fun h ↦ hstrategy h.symm
        cases hfail : i.cursorFails with
        | true => simp [minted, hid, hfail, hstrategy, ih]
        | false => simp [minted, hid, hfail, hstrategy, ih, Function.update_of_ne hother]
    · obtain ⟨id, hid⟩ := Option.ne_none_iff_exists'.mp hid
      simp [minted, hid, failsOf, ih]

/-- A list of pairs has no repetition exactly when the parts with a common first component have
none. -/
theorem nodup_iff_forall_filter {α β : Type} [DecidableEq α] {l : List (α × β)} :
    l.Nodup ↔ ∀ a, ((l.filter (·.1 = a)).map Prod.snd).Nodup := by
  constructor
  · intro h a
    refine (h.filter _).map_on ?_
    intro x hx y hy hxy
    have hxa : x.1 = a := by simpa using (List.mem_filter.mp hx).2
    have hya : y.1 = a := by simpa using (List.mem_filter.mp hy).2
    exact Prod.ext (hxa.trans hya.symm) hxy
  · intro h
    induction l with
    | nil => exact List.nodup_nil
    | cons x l ih =>
      have hx := h x.1
      simp only [List.filter_cons, decide_true, if_true, List.map_cons, List.nodup_cons,
        List.mem_map, List.mem_filter, decide_eq_true_eq, not_exists, not_and] at hx
      refine List.nodup_cons.mpr ⟨fun hmem ↦ hx.1 x ⟨hmem, rfl⟩ rfl, ih fun a ↦ ?_⟩
      exact (h a).sublist (((List.sublist_cons_self x l).filter _).map _)

/-- Distinct minted ids, by strategy. -/
theorem nodup_minted_iff (current : String → ℕ) (l : List Intake) :
    ((minted current l).map fun m ↦ PaperOms.mintedId m.1 m.2).Nodup
      ↔ ∀ strategy, (failsOf strategy l).count true
        + (if current strategy = 0 ∧ false ∈ failsOf strategy l then 1 else 0) ≤ 1 := by
  have hinj : Function.Injective fun m : String × ℕ ↦ PaperOms.mintedId m.1 m.2 := by
    intro m m' h
    obtain ⟨hs, hn⟩ := mintedId_inj.mp h
    exact Prod.ext hs hn
  rw [List.nodup_map_iff hinj, nodup_iff_forall_filter]
  refine forall_congr' fun strategy ↦ ?_
  rw [minted_eq_numbers, nodup_numbers_iff]

theorem pairwise_iff_of_forall₂ {α β : Type} {M : α → β → Prop} {R : α → α → Prop}
    {S : β → β → Prop} (h : ∀ a a' b b', M a b → M a' b' → (R a a' ↔ S b b')) {l : List α}
    {l' : List β} (hl : List.Forall₂ M l l') : l.Pairwise R ↔ l'.Pairwise S := by
  induction hl with
  | nil => simp
  | @cons a b l l' hab hl ih =>
    have hall : (∀ x ∈ l, R a x) ↔ ∀ y ∈ l', S b y := by
      clear ih
      induction hl with
      | nil => simp
      | cons hxy _ ih => simp only [List.forall_mem_cons, ih, h _ _ _ _ hab hxy]
    rw [List.pairwise_cons, List.pairwise_cons, ih, hall]

/-- A submit that is repeated under its id is placed once, and ids left to the service differ. -/
structure DistinctSubmits (l : List Outcome) : Prop where
  repeated : l.Pairwise fun a b ↦ ∀ id, a.explicitId = some id → b.explicitId = some id →
    ¬ (a.placed ∧ b.placed)
  minted : l.Pairwise fun a b ↦ a.explicitId = none → b.explicitId = none →
    a.clientOrderId ≠ b.clientOrderId

/-- **Client order ids.** In a run, a submit that is repeated under its id is placed at most once
and ids left to the service differ, exactly when no id is repeated among the submits that go through
and every strategy obtains the number one at most once. -/
theorem distinctSubmits_iff {τ : Type} [DecimalWidth] [Rendering] (venue : Option (VenueBridge τ))
    (v : Service τ) (steps : List ServiceStep) :
    DistinctSubmits (outcomes venue v steps)
      ↔ (intakes venue v.oms.kill steps).Pairwise (fun a b ↦ ∀ id, a.explicitId = some id →
          b.explicitId = some id → ¬ (a.goesThrough ∧ b.goesThrough))
        ∧ ∀ strategy, (failsOf strategy (intakes venue v.oms.kill steps)).count true
          + (if v.oms.cursor.current strategy = 0
              ∧ false ∈ failsOf strategy (intakes venue v.oms.kill steps) then 1 else 0) ≤ 1 := by
  have hrepeated : (outcomes venue v steps).Pairwise (fun a b ↦ ∀ id, a.explicitId = some id →
      b.explicitId = some id → ¬ (a.placed ∧ b.placed)) ↔ (intakes venue v.oms.kill steps).Pairwise
        (fun a b ↦ ∀ id, a.explicitId = some id → b.explicitId = some id →
          ¬ (a.goesThrough ∧ b.goesThrough)) := by
    refine pairwise_iff_of_forall₂ ?_ (forall₂_outcomes venue v steps)
    rintro a a' b b' ⟨hid, hplaced⟩ ⟨hid', hplaced'⟩
    rw [hid, hid', hplaced, hplaced']
  have hminted : (outcomes venue v steps).Pairwise (fun a b ↦ a.explicitId = none →
      b.explicitId = none → a.clientOrderId ≠ b.clientOrderId)
      ↔ (((outcomes venue v steps).filter (·.explicitId = none)).map (·.clientOrderId)).Nodup := by
    rw [List.Nodup, List.pairwise_map, List.pairwise_filter]
    simp
  rw [map_outcomes, nodup_minted_iff] at hminted
  exact ⟨fun h ↦ ⟨hrepeated.mp h.repeated, hminted.mp h.minted⟩,
    fun h ↦ ⟨hrepeated.mpr h.1, hminted.mpr h.2⟩⟩

/-! ## A submit delivered twice -/

section Instances

open scoped RustDecimal BlankText

/-- Delivered twice under its id, a submit is filled twice. -/
theorem not_distinctSubmits_of_redelivery :
    ¬ ∀ steps, DistinctSubmits (outcomes (none : Option (VenueBridge Unit)) .onPaper steps) := by
  intro h
  have hplaced (v : Service Unit) (hkill : v.oms.kill = false) : Placed
      (v.oms.resolveId submitOne false).1
      (v.oms.handleAsync submitOne { now := 1 } none (([] : List RestRequest), v.world)) :=
    (placed_iff none v.oms submitOne { now := 1 } v.world (by decide)).mpr
      ⟨hkill, by simp [Sendable]⟩
  have hpair := (h [.command submitOne { now := 1 }, .command submitOne { now := 1 }]).repeated
  have htwice := (List.pairwise_cons.mp hpair).1 _ List.mem_cons_self "a" rfl rfl
  exact htwice ⟨hplaced _ rfl, hplaced _ rfl⟩

end Instances

end ExecSvc

end Coinext
