import Coinext.Support.Run

/-!
# Reading a stream by a cursor

A stream only grows. A reader asks for the entries behind its cursor and waits for a reply; the
cursor `newest` stands for the end of the stream at the time of the call, and is replaced by a
position once a reply has arrived. A call may end without a reply, and the reader may be started
over, with the cursor at `newest` again.

What the next reply would start from is the position of the reader. An entry behind it that was
never read is lost. `exact_iff_along` says which steps lose nothing: entries are appended while the
position is pinned, and a step that gives the position up has nothing unread.
-/

namespace Coinext

/-- Where a reader continues. -/
inductive Cursor where
  /-- Behind whatever is in the stream when the call is made. -/
  | newest
  /-- Behind the first `n` entries. -/
  | after (n : ℕ)
deriving DecidableEq

/-- A stream and its reader. -/
structure StreamReader (α σ : Type) where
  stream : List α
  cursor : Cursor
  /-- Where the reply to the call in progress starts. -/
  call : Option ℕ
  /-- The length of the stream at the first call. -/
  first : Option ℕ
  read : List α
  state : σ

inductive ReaderStep (α : Type) where
  | append (a : α)
  /-- The reader asks for what is behind its cursor. -/
  | call
  /-- Everything behind the cursor arrives; there is a reply only if there is something. -/
  | reply
  /-- The call ends without a reply, and the cursor stays. -/
  | timeout
  /-- The reader fails, and is started over. -/
  | error

namespace StreamReader

variable {α σ : Type}

/-- Before the first call. -/
def start (stream : List α) (s : σ) : StreamReader α σ := ⟨stream, .newest, none, none, [], s⟩

/-- Where the next reply starts, as things stand. -/
def position (r : StreamReader α σ) : ℕ :=
  match r.call, r.cursor with
  | some n, _ => n
  | none, .after n => n
  | none, .newest => r.stream.length

/-- The entries the next reply brings, as things stand. -/
def ahead (r : StreamReader α σ) : List α := r.stream.drop r.position

def step (handle : σ → α → σ) (r : StreamReader α σ) : ReaderStep α → StreamReader α σ
  | .append a => { r with stream := r.stream ++ [a] }
  | .call =>
    match r.call with
    | some _ => r
    | none => { r with call := some r.position, first := some (r.first.getD r.stream.length) }
  | .reply =>
    match r.call with
    | none => r
    | some n =>
      if n < r.stream.length then
        { r with
          cursor := .after r.stream.length
          call := none
          read := r.read ++ r.stream.drop n
          state := (r.stream.drop n).foldl handle r.state }
      else r
  | .timeout => { r with call := none }
  | .error => { r with cursor := .newest, call := none }

/-- Every entry since the first call has been read once and in order, or is still ahead, and the
state comes from the entries read. -/
structure Exact (handle : σ → α → σ) (s : σ) (r : StreamReader α σ) : Prop where
  complete : ∀ n, r.first = some n → r.read ++ r.ahead = r.stream.drop n
  state_eq : r.state = r.read.foldl handle s

/-- The step loses nothing. -/
def StepOk (r : StreamReader α σ) : ReaderStep α → Prop
  | .append _ => r.first ≠ none → r.call ≠ none ∨ r.cursor ≠ .newest
  | .call | .reply => True
  | .timeout => r.cursor = .newest → r.ahead = []
  | .error => r.ahead = []

/-! ## Positions -/

/-- What holds of every reader. -/
structure Sound (r : StreamReader α σ) : Prop where
  unread : r.first = none → r.call = none ∧ r.cursor = .newest ∧ r.read = []
  first_le : ∀ n, r.first = some n → n ≤ r.stream.length
  cursor_le : ∀ n, r.cursor = .after n → n ≤ r.stream.length
  call_le : ∀ n, r.call = some n → n ≤ r.stream.length
  call_eq : ∀ m n, r.call = some m → r.cursor = .after n → m = n

variable {r r' : StreamReader α σ}

theorem position_of_call {n : ℕ} (h : r.call = some n) : r.position = n := by
  rw [position, h]

theorem position_of_after {n : ℕ} (hcall : r.call = none) (h : r.cursor = .after n) :
    r.position = n := by
  rw [position, hcall, h]

theorem position_of_newest (hcall : r.call = none) (h : r.cursor = .newest) :
    r.position = r.stream.length := by
  rw [position, hcall, h]

theorem ahead_of_newest (hcall : r.call = none) (h : r.cursor = .newest) : r.ahead = [] := by
  rw [ahead, position_of_newest hcall h, List.drop_length]

theorem Sound.position_le (h : r.Sound) : r.position ≤ r.stream.length := by
  cases hcall : r.call with
  | some n => exact (position_of_call hcall).trans_le (h.call_le n hcall)
  | none =>
    cases hcursor : r.cursor with
    | newest => exact (position_of_newest hcall hcursor).le
    | after n => exact (position_of_after hcall hcursor).trans_le (h.cursor_le n hcursor)

theorem Sound.ahead_of_unread (h : r.Sound) (hfirst : r.first = none) : r.ahead = [] :=
  ahead_of_newest (h.unread hfirst).1 (h.unread hfirst).2.1

theorem sound_start (stream : List α) (s : σ) : (start stream s).Sound :=
  ⟨fun _ ↦ ⟨rfl, rfl, rfl⟩, nofun, nofun, nofun, nofun⟩

theorem Sound.step (h : r.Sound) (handle : σ → α → σ) (a : ReaderStep α) :
    (r.step handle a).Sound := by
  cases a with
  | append a =>
    have hlt : r.stream.length ≤ (r.stream ++ [a]).length := by simp
    exact ⟨h.unread, fun n hn ↦ (h.first_le n hn).trans hlt,
      fun n hn ↦ (h.cursor_le n hn).trans hlt, fun n hn ↦ (h.call_le n hn).trans hlt, h.call_eq⟩
  | call =>
    cases hcall : r.call with
    | some n => simpa only [StreamReader.step, hcall] using h
    | none =>
      simp only [StreamReader.step, hcall]
      refine ⟨nofun, ?_, h.cursor_le, ?_, ?_⟩
      · rintro n ⟨⟩
        cases hfirst : r.first with
        | none => exact le_rfl
        | some n => exact h.first_le n hfirst
      · rintro n ⟨⟩
        exact h.position_le
      · rintro m n ⟨⟩ hn
        exact position_of_after hcall hn
  | reply =>
    cases hcall : r.call with
    | none => simpa only [StreamReader.step, hcall] using h
    | some n =>
      simp only [StreamReader.step, hcall]
      split
      · refine ⟨fun hfirst ↦ ?_, h.first_le, ?_, nofun, nofun⟩
        · cases hcall.symm.trans (h.unread hfirst).1
        · rintro m ⟨⟩
          exact le_rfl
      · exact h
  | timeout =>
    exact ⟨fun hfirst ↦ ⟨rfl, (h.unread hfirst).2⟩, h.first_le, h.cursor_le, nofun, nofun⟩
  | error =>
    exact ⟨fun hfirst ↦ ⟨rfl, rfl, (h.unread hfirst).2.2⟩, h.first_le, nofun, nofun, nofun⟩

/-! ## What a step loses -/

variable {handle : σ → α → σ} {s : σ}

theorem Exact.giveUp_iff (h : r.Exact handle s) (hsound : r.Sound) (hstream : r'.stream = r.stream)
    (hfirst : r'.first = r.first) (hread : r'.read = r.read) (hstate : r'.state = r.state)
    (hnone : r'.ahead = []) : r'.Exact handle s ↔ r.ahead = [] := by
  constructor
  · intro h'
    cases hn : r.first with
    | none => exact hsound.ahead_of_unread hn
    | some n =>
      have hold := h.complete n hn
      have hnew := h'.complete n (hfirst.trans hn)
      rw [hread, hnone, hstream, ← hold] at hnew
      exact (List.append_cancel_left hnew).symm
  · intro hahead
    refine ⟨fun n hn ↦ ?_, by rw [hstate, hread]; exact h.state_eq⟩
    rw [hread, hnone, hstream, ← hahead]
    exact h.complete n (hfirst ▸ hn)

theorem Exact.append_iff (h : r.Exact handle s) (hsound : r.Sound) (a : α) :
    (r.step handle (.append a)).Exact handle s ↔ r.StepOk (.append a) := by
  by_cases hpin : r.call ≠ none ∨ r.cursor ≠ .newest
  · refine iff_of_true ⟨fun n hn ↦ ?_, h.state_eq⟩ fun _ ↦ hpin
    have hposition : (r.step handle (.append a)).position = r.position := by
      cases hcall : r.call with
      | some n => simp [StreamReader.step, position, hcall]
      | none =>
        cases hcursor : r.cursor with
        | newest => simp [hcall, hcursor] at hpin
        | after n => simp [StreamReader.step, position, hcall, hcursor]
    change r.read ++ (r.stream ++ [a]).drop _ = (r.stream ++ [a]).drop n
    rw [hposition, List.drop_append_of_le_length hsound.position_le,
      List.drop_append_of_le_length (hsound.first_le n hn), ← List.append_assoc, ← h.complete n hn]
    rfl
  · -- the position moves with the end of the stream
    obtain ⟨hcall, hcursor⟩ : r.call = none ∧ r.cursor = .newest := by simpa using hpin
    have hnone : (r.step handle (.append a)).ahead = [] := ahead_of_newest hcall hcursor
    constructor
    · intro h' hfirst
      obtain ⟨n, hn⟩ := Option.ne_none_iff_exists'.mp hfirst
      have hold := h.complete n hn
      have hnew := h'.complete n hn
      rw [ahead_of_newest hcall hcursor] at hold
      rw [hnone] at hnew
      change r.read ++ [] = (r.stream ++ [a]).drop n at hnew
      rw [List.drop_append_of_le_length (hsound.first_le n hn), ← hold] at hnew
      simp at hnew
    · intro hok
      refine ⟨fun n hn ↦ absurd (hok ?_) hpin, h.state_eq⟩
      rw [show r.first = some n from hn]
      exact Option.some_ne_none n

/-- **One step.** It keeps the reader exact if and only if it is allowed. -/
theorem Exact.step_iff (h : r.Exact handle s) (hsound : r.Sound) (a : ReaderStep α) :
    (r.step handle a).Exact handle s ↔ r.StepOk a := by
  cases a with
  | append a => exact h.append_iff hsound a
  | call =>
    refine iff_of_true ?_ trivial
    cases hcall : r.call with
    | some n => simpa only [StreamReader.step, hcall] using h
    | none =>
      simp only [StreamReader.step, hcall]
      refine ⟨?_, h.state_eq⟩
      rintro n ⟨⟩
      cases hfirst : r.first with
      | none =>
        have hahead := hsound.ahead_of_unread hfirst
        change r.read ++ r.ahead = r.stream.drop r.stream.length
        rw [(hsound.unread hfirst).2.2, hahead, List.drop_length]
        rfl
      | some n => exact h.complete n hfirst
  | reply =>
    refine iff_of_true ?_ trivial
    cases hcall : r.call with
    | none => simpa only [StreamReader.step, hcall] using h
    | some n =>
      simp only [StreamReader.step, hcall]
      split
      · refine ⟨fun m hm ↦ ?_, ?_⟩
        · have hold := h.complete m hm
          rw [ahead, position_of_call hcall] at hold
          rw [← hold]
          simp [ahead, position]
        · rw [List.foldl_append, ← h.state_eq]
      · exact h
  | timeout =>
    cases hcursor : r.cursor with
    | newest =>
      rw [StepOk, forall_prop_of_true hcursor]
      exact h.giveUp_iff hsound rfl rfl rfl rfl (ahead_of_newest rfl hcursor)
    | after n =>
      refine iff_of_true ⟨fun m hm ↦ ?_, h.state_eq⟩ fun hnew ↦ by cases hcursor.symm.trans hnew
      have hposition : (r.step handle .timeout).position = r.position := by
        cases hcall : r.call with
        | none => simp [StreamReader.step, position, hcall, hcursor]
        | some k =>
          simp [StreamReader.step, position, hcall, hcursor, hsound.call_eq k n hcall hcursor]
      rw [ahead, hposition]
      exact h.complete m hm
  | error => exact h.giveUp_iff hsound rfl rfl rfl rfl (ahead_of_newest rfl rfl)

/-- **Runs.** A reader is exact throughout a run if and only if every step of it is allowed. -/
theorem exact_iff_along (handle : σ → α → σ) (stream : List α) (s : σ) (l : List (ReaderStep α)) :
    (∀ front, front <+: l → ((front.foldl (step handle) (start stream s)).Exact handle s))
      ↔ Along (step handle) StepOk (start stream s) l := by
  have hsound (front : List (ReaderStep α)) : (front.foldl (step handle) (start stream s)).Sound :=
    foldl_induction (fun _ a h ↦ h.step handle a) (sound_start stream s) front
  rw [← forall_prefix_iff_along (I := fun r ↦ r.Exact handle s ∧ r.Sound)]
  · exact forall₂_congr fun front _ ↦ (and_iff_left (hsound front)).symm
  · intro r a h
    rw [and_iff_left (h.2.step handle a)]
    exact h.1.step_iff h.2 a
  · exact ⟨⟨nofun, rfl⟩, sound_start stream s⟩

end StreamReader

end Coinext
