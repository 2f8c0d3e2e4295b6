import Coinext.Support.PercentCode
import Mathlib.Data.Set.Function

/-!
# Signed queries

The query of a signed request: `key=value` pieces in the caller's order, the values
percent-encoded and the keys as they are, joined by `&`. The signature is taken over exactly this
text and appended as one more piece, so a signed query is the query of the parameters with the
signature among them (`signedQuery_eq`).

`parseQuery` reads a query the way a server does. It recovers the parameters whatever their values
are (`parseQuery_buildQuery`), since a written value has no character that separates anything
(`notMem_encode`).
-/

namespace Coinext

open PercentCode

/-- One value, each of its bytes either unreserved or escaped. -/
def encodeValue (value : String) : String := String.ofList (encode (utf8Bytes value))

/-- One parameter as it stands in a query. -/
def queryPiece (param : String × String) : String := param.1 ++ "=" ++ encodeValue param.2

def buildQuery (params : List (String × String)) : String :=
  "&".intercalate (params.map queryPiece)

/-- An API secret. -/
structure Signer where
  secret : List UInt8

/-- The digest of a payload under the secret, in lowercase hexadecimal. The keyed digest itself,
of a secret and a message, is a parameter. -/
def Signer.sign (hmacSha256 : List UInt8 → List UInt8 → List UInt8) (signer : Signer)
    (payload : String) : String :=
  String.ofList (hexLower (hmacSha256 signer.secret (utf8Bytes payload)))

def signedQuery (hmacSha256 : List UInt8 → List UInt8 → List UInt8)
    (params : List (String × String)) (signer : Signer) : String :=
  let base := buildQuery params
  let sig := signer.sign hmacSha256 base
  if base = "" then "signature=" ++ sig else base ++ "&signature=" ++ sig

/-- The keys are canonical: not empty, and nothing in them needs an escape. -/
def CanonicalKeys (params : List (String × String)) : Prop :=
  ∀ param ∈ params, param.1 ≠ "" ∧ ∀ c ∈ param.1.toList, isUnreserved c = true

instance (params : List (String × String)) : Decidable (CanonicalKeys params) :=
  decidable_of_iff
    (params.all (fun param ↦ !(param.1 = "") && param.1.toList.all isUnreserved) = true)
    (by simp [CanonicalKeys])

/-! ## Reading a query -/

/-- One piece, split at its first `=`, the value percent-decoded. -/
def parsePiece (piece : List Char) : Option (String × String) :=
  match piece.dropWhile (· ≠ '=') with
  | [] => none
  | _ :: value => do
    let bytes ← decode value
    let value ← String.fromUTF8? ⟨bytes.toArray⟩
    some (String.ofList (piece.takeWhile (· ≠ '=')), value)

/-- A query, split at each `&`. The empty query has no pieces. -/
def parseQuery (query : String) : Option (List (String × String)) :=
  if query = "" then some [] else (query.toList.splitOn '&').mapM parsePiece

/-! ## Pieces -/

theorem toList_queryPiece (param : String × String) :
    (queryPiece param).toList = param.1.toList ++ '=' :: encode (utf8Bytes param.2) := by
  rw [queryPiece, encodeValue, String.toList_append, String.toList_append, String.toList_ofList,
    List.append_assoc, String.toList_ofList]
  rfl

variable {params : List (String × String)} {param : String × String}

theorem CanonicalKeys.notMem (h : CanonicalKeys params) (hparam : param ∈ params) {c : Char}
    (hc : isUnreserved c = false) : c ∉ param.1.toList := by
  intro hmem
  have hplain := (h param hparam).2 c hmem
  rw [hc] at hplain
  cases hplain

theorem notMem_queryPiece (h : CanonicalKeys params) (hparam : param ∈ params) :
    '&' ∉ (queryPiece param).toList := by
  rw [toList_queryPiece]
  intro hmem
  rcases List.mem_append.mp hmem with hkey | hvalue
  · exact h.notMem hparam (by decide) hkey
  · rcases List.mem_cons.mp hvalue with heq | hvalue
    · exact absurd heq (by decide)
    · exact notMem_encode (by decide) (by decide) _ hvalue

/-- **A piece is read back as the parameter it was written for.** -/
theorem parsePiece_queryPiece (h : CanonicalKeys params) (hparam : param ∈ params) :
    parsePiece (queryPiece param).toList = some param := by
  have hkey : ∀ c ∈ param.1.toList, decide (c ≠ '=') = true := by
    intro c hc
    refine decide_eq_true fun heq ↦ ?_
    exact h.notMem hparam (by decide) (heq ▸ hc)
  rw [toList_queryPiece, parsePiece, List.dropWhile_append_of_pos hkey,
    List.takeWhile_append_of_pos hkey, List.dropWhile_cons_of_neg (by decide),
    List.takeWhile_cons_of_neg (by decide), List.append_nil]
  simp only [decode_encode, fromUTF8?_utf8Bytes, Option.bind_eq_bind, Option.bind_some,
    String.ofList_toList]

/-! ## Queries -/

theorem CanonicalKeys.of_cons {p : String × String} (h : CanonicalKeys (p :: params)) :
    CanonicalKeys params :=
  fun q hq ↦ h q (List.mem_cons_of_mem _ hq)

theorem toList_buildQuery (params : List (String × String)) :
    (buildQuery params).toList
      = ['&'].intercalate (params.map fun param ↦ (queryPiece param).toList) := by
  rw [buildQuery, String.toList_intercalate, List.map_map]
  rfl

theorem queryPiece_ne_nil (param : String × String) : (queryPiece param).toList ≠ [] := by
  rw [toList_queryPiece]
  simp

theorem buildQuery_eq_empty_iff : buildQuery params = "" ↔ params = [] := by
  constructor
  · intro h
    cases params with
    | nil => rfl
    | cons param params =>
      have hnil := toList_buildQuery (param :: params)
      rw [h] at hnil
      cases params with
      | nil =>
        rw [List.map_singleton, List.intercalate_singleton] at hnil
        exact absurd hnil.symm (queryPiece_ne_nil param)
      | cons next params =>
        rw [List.map_cons, List.map_cons, List.intercalate_cons_cons] at hnil
        simp at hnil
  · rintro rfl
    rfl

theorem splitOn_buildQuery (h : CanonicalKeys params) (hne : params ≠ []) :
    (buildQuery params).toList.splitOn '&'
      = params.map fun param ↦ (queryPiece param).toList := by
  rw [toList_buildQuery]
  refine List.splitOn_intercalate '&' ?_ (by simpa using hne)
  intro piece hpiece
  obtain ⟨param, hparam, rfl⟩ := List.mem_map.mp hpiece
  exact notMem_queryPiece h hparam

/-- **What was written is read.** -/
theorem parseQuery_buildQuery (h : CanonicalKeys params) :
    parseQuery (buildQuery params) = some params := by
  rw [parseQuery]
  split_ifs with hempty
  · rw [buildQuery_eq_empty_iff.mp hempty]
  · rw [splitOn_buildQuery h fun hnil ↦ hempty (buildQuery_eq_empty_iff.mpr hnil), List.mapM_map]
    clear hempty
    induction params with
    | nil => rfl
    | cons param params ih =>
      rw [List.mapM_cons, Function.comp_apply, parsePiece_queryPiece h List.mem_cons_self,
        ih h.of_cons]
      rfl

/-! ## Signed queries -/

variable (hmacSha256 : List UInt8 → List UInt8 → List UInt8) (signer : Signer)

theorem signedQuery_eq (params : List (String × String)) :
    signedQuery hmacSha256 params signer
      = buildQuery (params ++ [("signature", signer.sign hmacSha256 (buildQuery params))]) := by
  have hplain : ∀ payload, encodeValue (signer.sign hmacSha256 payload)
      = signer.sign hmacSha256 payload := by
    intro payload
    have hall : ∀ c ∈ (signer.sign hmacSha256 payload).toList, isUnreserved c = true := by
      intro c hc
      rw [Signer.sign, String.toList_ofList] at hc
      exact isUnreserved_of_mem_hexLower hc
    rw [encodeValue, encode_utf8Bytes hall, String.ofList_toList]
  have hpiece : ∀ payload, queryPiece ("signature", signer.sign hmacSha256 payload)
      = "signature=" ++ signer.sign hmacSha256 payload := by
    intro payload
    rw [queryPiece, hplain]
    rfl
  simp only [signedQuery]
  split_ifs with hempty
  · rw [buildQuery_eq_empty_iff.mp hempty, List.nil_append, ← hpiece]
    exact String.intercalate_singleton.symm
  · have hne : params.map queryPiece ≠ [] := by
      intro hnil
      exact hempty (buildQuery_eq_empty_iff.mpr (List.map_eq_nil_iff.mp hnil))
    have happend : buildQuery (params ++ [("signature",
        signer.sign hmacSha256 (buildQuery params))]) = buildQuery params ++ "&"
          ++ ("signature=" ++ signer.sign hmacSha256 (buildQuery params)) := by
      rw [← hpiece, buildQuery, List.map_append, List.map_singleton,
        String.intercalate_append_of_ne_nil hne (List.cons_ne_nil _ _),
        String.intercalate_singleton, ← buildQuery]
    rw [happend, String.append_assoc, String.append_assoc]
    rfl

theorem CanonicalKeys.signed (h : CanonicalKeys params) (sig : String) :
    CanonicalKeys (params ++ [("signature", sig)]) := by
  intro param hparam
  rcases List.mem_append.mp hparam with hmem | hmem
  · exact h param hmem
  · rw [List.mem_singleton.mp hmem]
    have hall : "signature".toList.all isUnreserved = true := by decide
    exact ⟨(by decide : "signature" ≠ ""), List.all_eq_true.mp hall⟩

/-- **Queries are lossless.** A server reads from a query the parameters it was built of, and from a
signed one these and the signature. No other parameters have this query, and no other parameters
have it signed. -/
theorem query_lossless (hparams : CanonicalKeys params) :
    parseQuery (buildQuery params) = some params ∧
    parseQuery (signedQuery hmacSha256 params signer)
      = some (params ++ [("signature", signer.sign hmacSha256 (buildQuery params))]) ∧
    ∀ others, CanonicalKeys others →
      (buildQuery others = buildQuery params → others = params) ∧
      (signedQuery hmacSha256 others signer = signedQuery hmacSha256 params signer →
        others = params) := by
  have hsigned : ∀ params, CanonicalKeys params →
      parseQuery (signedQuery hmacSha256 params signer)
        = some (params ++ [("signature", signer.sign hmacSha256 (buildQuery params))]) := by
    intro params h
    rw [signedQuery_eq]
    exact parseQuery_buildQuery (h.signed _)
  refine ⟨parseQuery_buildQuery hparams, hsigned params hparams, fun others hothers ↦ ⟨?_, ?_⟩⟩
  · intro heq
    have hread := parseQuery_buildQuery hothers
    rw [heq, parseQuery_buildQuery hparams] at hread
    exact (Option.some.inj hread).symm
  · intro heq
    have hread := hsigned others hothers
    rw [heq, hsigned params hparams] at hread
    exact (List.append_inj_left' (Option.some.inj hread) rfl).symm

/-- Two values with the characters that separate pieces in them, and the digest of their query. -/
theorem query_lossless_reserved :
    buildQuery [("symbol", "BTC&USDT"), ("note", "a=b%+é")]
      = "symbol=BTC%26USDT&note=a%3Db%25%2B%C3%A9" ∧
    parseQuery (signedQuery (fun _ _ ↦ [68, 46, 51, 113, 231, 243, 20, 135, 57, 201, 231, 131, 248,
        244, 164, 38, 75, 88, 48, 67, 161, 249, 224, 15, 144, 25, 11, 6, 114, 118, 108, 2])
      [("symbol", "BTC&USDT"), ("note", "a=b%+é")] ⟨utf8Bytes "key"⟩)
      = some [("symbol", "BTC&USDT"), ("note", "a=b%+é"),
        ("signature", "442e3371e7f3148739c9e783f8f4a4264b583043a1f9e00f90190b0672766c02")] := by
  refine ⟨by decide, ?_⟩
  rw [(query_lossless _ _ (by decide)).2.1]
  decide

end Coinext
