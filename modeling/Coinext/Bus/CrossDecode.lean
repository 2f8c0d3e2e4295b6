import Coinext.Bus.Frames

/-!
# Frames across the two sides

A frame of the Rust side carries its trace id and its payload as arrays of integers. Python unpacks
the frame, and finds a list in either field: the trace id is not the bytes that were sent, and the
payload cannot be unpacked. No frame of the Rust side is decoded, then, and every frame of the
Python side is whose numbers the tuple of the Rust side can hold (`decodes_iff`).
-/

namespace Coinext.Bus

open MsgPack

/-! ## Slices -/

theorem fits_slice {b : Bytes} (h : b.length < 2 ^ 32) : (slice b).Fits := by
  refine ⟨by simpa [Head.Fits] using h, ?_⟩
  clear h
  induction b with
  | nil => trivial
  | cons x b ih =>
    refine ⟨?_, ih⟩
    have hlt := x.toNat_lt
    exact ⟨by omega, by omega⟩

/-- The head of an array is read as one of an array, whatever the length. -/
theorem read_arr_bytes (n : ℕ) (rest : Bytes) :
    ∃ k, Head.read ((Head.arr n).bytes ++ rest) = some (.arr k, rest) := by
  by_cases hfits : (Head.arr n).Fits
  · exact ⟨n, Head.read_bytes hfits rest⟩
  · have hlarge : 2 ^ 32 ≤ n := by simpa [Head.Fits] using hfits
    refine ⟨ofBe (toBe 4 n), ?_⟩
    have hread : Head.readAfter (0xdd : UInt8).toNat (toBe 4 n ++ rest)
        = (readNat 4 (toBe 4 n ++ rest)).map fun p ↦ (.arr p.1, p.2) := rfl
    rw [Head.bytes, if_neg (by omega), if_neg (by omega), List.cons_append, Head.read, hread,
      readNat, readBytes_append (length_toBe 4 n)]
    rfl

theorem decodeFuel_slice {b rest : Bytes} {fuel : ℕ} {v : Value}
    (h : decodeFuel fuel (slice b).encode = some (v, rest)) : ∃ l, v = .arr l := by
  cases fuel with
  | zero => cases h
  | succ fuel =>
    obtain ⟨k, hk⟩ := read_arr_bytes (b.map fun x ↦ Value.int x.toNat).length
      (Value.encodeAll (b.map fun x ↦ .int x.toNat))
    rw [slice, Value.encode, decodeFuel, hk] at h
    obtain ⟨p, -, hp⟩ := Option.map_eq_some_iff.mp h
    exact ⟨p.1, (congrArg Prod.fst hp).symm⟩

/-! ## Frames of the Rust side -/

/-- A frame of the Rust side. -/
def rustFrame (schemaVersion msgType : ℕ) (traceId : Bytes) (tsInit : ℕ) (payload : Bytes) :
    Value :=
  .arr [.int schemaVersion, .int msgType, slice traceId, .int tsInit, slice payload]

section Rust

variable {schemaVersion msgType tsInit : ℕ} {traceId payload : Bytes}

/-- What is read of the frame, if anything is. -/
theorem eq_of_decode_rustFrame (hschema : schemaVersion < 2 ^ 64) (hmsg : msgType < 2 ^ 64)
    (htrace : traceId.length < 2 ^ 32) (hts : tsInit < 2 ^ 64) {v : Value} {rest : Bytes}
    (h : decode (rustFrame schemaVersion msgType traceId tsInit payload).encode = some (v, rest)) :
    ∃ l, v = .arr [.int schemaVersion, .int msgType, slice traceId, .int tsInit, .arr l] := by
  have hint {n : ℕ} (hn : n < 2 ^ 64) : (Value.int n).Fits := ⟨by omega, by omega⟩
  have hhead : (Head.arr 5).Fits := by norm_num [Head.Fits]
  -- the fields one behind the other
  generalize hframe : (rustFrame schemaVersion msgType traceId tsInit payload).encode = frame at h
  have hsplit : frame = (Head.arr 5).bytes ++ ((Value.int schemaVersion).encode
      ++ ((Value.int msgType).encode ++ ((slice traceId).encode
        ++ ((Value.int tsInit).encode ++ (slice payload).encode)))) := by
    rw [← hframe]
    simp only [rustFrame, Value.encode, Value.encodeAll, List.length_cons, List.length_nil,
      List.append_nil]
  have hlength := congrArg List.length hsplit
  have hpos := Head.length_bytes_pos hhead
  simp only [List.length_append] at hlength
  obtain ⟨fuel, hfuel⟩ : ∃ fuel, frame.length = fuel + 1 := ⟨frame.length - 1, by omega⟩
  rw [decode, hfuel, hsplit, decodeFuel_bytes hhead, readBody,
    readMany_succ (decodeFuel_encode _ (hint hschema) (by omega) _),
    readMany_succ (decodeFuel_encode _ (hint hmsg) (by omega) _),
    readMany_succ (decodeFuel_encode _ (fits_slice htrace) (by omega) _),
    readMany_succ (decodeFuel_encode _ (hint hts) (by omega) _)] at h
  cases hpayload : decodeFuel fuel (slice payload).encode with
  | none => simp [readMany, hpayload] at h
  | some p =>
    obtain ⟨l, hl⟩ := decodeFuel_slice hpayload
    rw [readMany_succ hpayload] at h
    refine ⟨l, ?_⟩
    rw [← hl]
    exact (congrArg Prod.fst (Option.some.inj h)).symm

/-- **What Python makes of the frame.** If it is decoded at all, the trace id is a list, and the
payload cannot be unpacked. -/
theorem decodeEnvelope_rustFrame (hschema : schemaVersion < 2 ^ 64) (hmsg : msgType < 2 ^ 64)
    (htrace : traceId.length < 2 ^ 32) (hts : tsInit < 2 ^ 64) {env : DecodedEnvelope}
    (h : decodeEnvelope (rustFrame schemaVersion msgType traceId tsInit payload).encode = .ok env) :
    (∃ l, env.traceId = .arr l) ∧ decodePayload env = .error .notBytes := by
  rcases hread : decode (rustFrame schemaVersion msgType traceId tsInit payload).encode with
    _ | ⟨v, _ | ⟨b, rest⟩⟩
  · simp [decodeEnvelope, unpackb, hread] at h
  · obtain ⟨l, rfl⟩ := eq_of_decode_rustFrame hschema hmsg htrace hts hread
    -- the fields are constructed one by one, and a list stays a list
    cases htraceId : constructAll true (traceId.map fun x ↦ .int x.toNat) with
    | error e =>
      simp [decodeEnvelope, unpackb, hread, construct, constructAll, slice, htraceId, bind,
        Except.bind, Except.map] at h
    | ok ts =>
      cases hpayload : constructAll true l with
      | error e =>
        simp [decodeEnvelope, unpackb, hread, construct, constructAll, slice, htraceId, hpayload,
          bind, Except.bind, Except.map] at h
      | ok ps =>
        simp only [decodeEnvelope, unpackb, hread, construct, constructAll, slice, htraceId,
          hpayload, bind, Except.bind, Except.map] at h
        split at h
        · cases h
        · split at h
          · cases h
          · cases h
            exact ⟨⟨ts, rfl⟩, rfl⟩
  · simp [decodeEnvelope, unpackb, hread] at h

end Rust

/-! ## Frames of the Python side -/

theorem PyEnvelope.Packable.fits {env : PyEnvelope} (h : env.Packable) : env.value.Fits := by
  obtain ⟨hschema, htrace, hts, hpayload⟩ := h
  have hmsg := env.msgType.discriminant_lt
  refine ⟨by norm_num [Head.Fits], hschema, ⟨?_, ?_⟩, htrace, hts, hpayload, trivial⟩
  · omega
  · omega

/-- What Rust reads of a frame of the Python side. -/
theorem fromSlice_encode_value {env : PyEnvelope} (h : env.Packable) :
    fromSlice env.value.encode = (uint 16 (.int env.schemaVersion)).bind fun s ↦
      (uint 64 (.int env.tsInit)).map fun t ↦
        ⟨s, env.msgType.discriminant, env.traceId, t, env.payload⟩ := by
  have hread := decode_encode h.fits []
  have hmsg : uint 8 (.int env.msgType.discriminant) = some env.msgType.discriminant := by
    have hlt := env.msgType.discriminant_lt
    rw [uint, if_pos (by omega), Int.toNat_natCast]
  rw [List.append_nil, PyEnvelope.value] at hread
  simp only [fromSlice, PyEnvelope.value, hread, hmsg, byteBuf, Option.bind_eq_bind,
    Option.bind_some, Option.map_eq_bind]
  rfl

/-! ## Both sides -/

/-- The entries of two payloads are the same; a payload that is no map is the same only to
itself. -/
def SamePayload : Value → Value → Prop
  | .map l, .map l' => ∀ p, p ∈ l ↔ p ∈ l'
  | v, w => v = w

/-- Python decodes the frame and its payload, and finds what was sent. -/
def DecodesInPython (frame : Bytes) (msgType : MsgType) (tsInit : UInt64) (traceId : Bytes)
    (payload : SerdeValue) : Prop :=
  ∃ env, decodeEnvelope frame = .ok env ∧ env.msgType = msgType
    ∧ env.tsInit = .int tsInit.toNat ∧ env.traceId = .bin traceId
    ∧ ∃ v, decodePayload env = .ok v ∧ SamePayload v payload.toValue

/-- Rust reads the fields that were sent, if the frame can be encoded. -/
def DecodesInRust (env : PyEnvelope) : Prop :=
  ∀ frame, encodeEnvelope env = .ok frame → ∃ fields, fromSlice frame = some fields
    ∧ (fields.schemaVersion : ℤ) = env.schemaVersion ∧ fields.msgType = env.msgType.discriminant
    ∧ fields.traceId = env.traceId ∧ (fields.tsInit : ℤ) = env.tsInit
    ∧ fields.payload = env.payload

/-- A frame that is sent: of a market event, of a JSON event, or of the Python side. -/
inductive Sent where
  | market (ev : MarketEvent) (traceId : Vector UInt8 16) (now : UInt64)
  | event (payload : SerdeValue) (now : UInt64)
  | python (env : PyEnvelope)

namespace Sent

/-- The other side decodes what was sent. -/
def Decodes [AsF64] : Sent → Prop
  | market ev traceId now =>
    DecodesInPython
      (encodeEnvelopeMsgpack (.new (eventPayload ev).1 traceId now (eventPayload ev).2))
      (eventJson ev).1 now traceId.toList (eventJson ev).2
  | event payload now =>
    DecodesInPython (encodeEventEnvelope payload now) .orderEvent now (List.replicate 16 0) payload
  | python env => DecodesInRust env

/-- The frame is of the Python side, and its numbers are ones the tuple holds if they can be encoded
at all. -/
def Holds : Sent → Prop
  | python env => env.Packable →
      (0 ≤ env.schemaVersion ∧ env.schemaVersion < 2 ^ 16) ∧ 0 ≤ env.tsInit
  | _ => False

end Sent

theorem not_decodesInPython (schemaVersion msgType : ℕ) {tsInit : ℕ} {traceId payload : Bytes}
    (hschema : schemaVersion < 2 ^ 64) (hmsg : msgType < 2 ^ 64) (htrace : traceId.length < 2 ^ 32)
    (hts : tsInit < 2 ^ 64) (m : MsgType) (now : UInt64) (sent : Bytes) (v : SerdeValue) :
    ¬ DecodesInPython (rustFrame schemaVersion msgType traceId tsInit payload).encode
      m now sent v := by
  rintro ⟨env, henv, -, -, htraceId, w, hw, -⟩
  obtain ⟨⟨l, hl⟩, hpayload⟩ := decodeEnvelope_rustFrame hschema hmsg htrace hts henv
  rw [hpayload] at hw
  cases hw

theorem decodesInRust_iff (env : PyEnvelope) : DecodesInRust env ↔ (env.Packable →
    (0 ≤ env.schemaVersion ∧ env.schemaVersion < 2 ^ 16) ∧ 0 ≤ env.tsInit) := by
  by_cases hpack : env.Packable
  · have hread := fromSlice_encode_value hpack
    have hts : 0 ≤ env.tsInit ↔ 0 ≤ env.tsInit ∧ env.tsInit < 2 ^ 64 :=
      ⟨fun h ↦ ⟨h, hpack.2.2.1.2⟩, And.left⟩
    rw [DecodesInRust, encodeEnvelope, if_pos hpack, hts]
    simp only [Except.ok.injEq, forall_eq', hpack, forall_const, hread, uint]
    constructor
    · rintro ⟨fields, hfields, -⟩
      split_ifs at hfields with h1 h2
      · exact ⟨h1, h2⟩
      all_goals simp at hfields
    · rintro ⟨h1, h2⟩
      rw [if_pos h1, if_pos h2]
      exact ⟨_, rfl, Int.toNat_of_nonneg h1.1, rfl, rfl, Int.toNat_of_nonneg h2.1, rfl⟩
  · refine iff_of_true (fun frame hframe ↦ ?_) (fun h ↦ absurd h hpack)
    rw [encodeEnvelope, if_neg hpack] at hframe
    cases hframe

/-- **Frames across the two sides.** The other side decodes what was sent exactly when the frame is
one of the Python side whose numbers the tuple of the Rust side holds. -/
theorem decodes_iff [AsF64] (s : Sent) : s.Decodes ↔ s.Holds := by
  cases s with
  | market ev traceId now =>
    refine iff_of_false ?_ id
    refine not_decodesInPython 1 (UInt8.ofNat (eventPayload ev).1.discriminant).toNat (by norm_num)
      ?_ ?_ now.toNat_lt _ _ _ _
    · exact lt_of_lt_of_le (UInt8.toNat_lt _) (by norm_num)
    · simp
  | event payload now =>
    refine iff_of_false ?_ id
    exact not_decodesInPython 1 4 (by norm_num) (by norm_num) (by simp) now.toNat_lt _ _ _ _
  | python env => exact decodesInRust_iff env

/-! ## A frame that is not decoded -/

section Instances

/-- Zero, the bits of a price or a quantity of zero. -/
@[reducible] def zeroF64 : AsF64 := ⟨fun _ ↦ 0, fun _ ↦ 0⟩

/-- The event published for a submit that the kill switch denies, in part. -/
def deniedPayload : SerdeValue := .json [("kind", .string "denied")]

/-- The frame opens with an array of five fields, and the third of them with an array of sixteen. -/
example : (encodeEventEnvelope deniedPayload 1).take 6 = [0x95, 0x01, 0x04, 0xdc, 0x00, 0x10] := by
  decide

/-- Python decodes no frame of an order event. -/
theorem not_decodes_event : ¬ ∀ s : Sent, @Sent.Decodes zeroF64 s := by
  intro h
  exact not_decodesInPython 1 4 (by norm_num) (by norm_num) (by simp) (by decide) _ _ _ _
    (h (.event deniedPayload 1))

end Instances

end Coinext.Bus
