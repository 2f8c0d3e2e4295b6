import Coinext.Ingest.Venues

/-!
# Bare tickers and the prefix rule

A bare ticker is a string of letters and digits. It has no suffix, so the only rule that can change
it is the one for the prefixes of Chinese portals, and that rule does not look at the venue: a
ticker that begins with one of `exchangePrefixes` and goes on is taken for a code of that exchange
(`parseUserSymbol_of_prefixed`), whatever venue it is listed on. All other tickers are kept, in
upper case (`parseUserSymbol_of_not_prefixed`).

So the key of a ticker in the lake is the ticker, and the venue that is asked for is kept, exactly
for the tickers that are not prefixed (`faithful_iff`).
-/

namespace Coinext

namespace Venues

open PyText

/-- The prefixes of Chinese portals, with their exchanges. -/
def exchangePrefixes : List (String × String) :=
  [("sh", "SSE"), ("ss", "SSE"), ("sz", "SZSE"), ("hk", "HKEX")]

/-- A ticker begins with a prefix of a Chinese portal, in either case, and goes on. -/
def Prefixed (s : String) : Prop :=
  2 < s.toList.length ∧ ∃ entry ∈ exchangePrefixes, startsWith (lower s) entry.1 = true

instance (s : String) : Decidable (Prefixed s) := inferInstanceAs (Decidable (_ ∧ _))

/-- The exchanges that the prefixes stand for. -/
def chineseExchanges : List String := ["SSE", "SZSE", "HKEX"]

variable {s : String}

/-! ## Parsing -/

theorem suffixForm_of_isAlnum (h : IsAlnum s) : suffixForm s = none := by
  have hdot : '.' ∉ s.toList := h.notMem (by decide)
  rw [suffixForm, if_neg fun hand ↦ hdot hand.1]

theorem parseUserSymbol_of_isAlnum (h : IsAlnum s) :
    parseUserSymbol s = match exchangePrefixes.findSome? (prefixForm (lower s)) with
      | some (exchange, body) => .ok (some exchange, body)
      | none => .ok (none, upper s) := by
  have hempty : ¬ s = "" := fun heq ↦ h.1 (by rw [heq]; rfl)
  have hcaret : startsWith s "^" = false :=
    startsWith_eq_false (c := '^') (by decide) (h.notMem (by decide))
  -- a prefix that ends with a dot is none of a string without dots
  have hdotted (entry : String × String) (hdot : '.' ∈ entry.1.toList) :
      prefixForm (lower s) entry = none := by
    rw [prefixForm, startsWith_eq_false hdot (h.lower.notMem (by decide)),
      if_neg fun hand ↦ Bool.false_ne_true hand.1]
  have hundotted : prefixes.findSome? (prefixForm (lower s))
      = exchangePrefixes.findSome? (prefixForm (lower s)) := by
    rw [prefixes, List.findSome?_cons, hdotted _ (by decide), List.findSome?_cons,
      hdotted _ (by decide), List.findSome?_cons, hdotted _ (by decide), List.findSome?_cons,
      hdotted _ (by decide)]
    rfl
  have hspace : remove ' ' (lower s) = lower s := remove_eq (h.lower.notMem (by decide))
  cases hfind : exchangePrefixes.findSome? (prefixForm (lower s)) <;>
    rw [parseUserSymbol, strip_eq h, if_neg hempty, hcaret, if_neg Bool.false_ne_true,
      suffixForm_of_isAlnum h.upper, hspace, hundotted, hfind]

/-- What a prefix leaves of a ticker. -/
theorem prefixForm_of_startsWith (h : IsAlnum s) {entry : String × String}
    (hentry : entry ∈ exchangePrefixes) (hstart : startsWith (lower s) entry.1 = true)
    (hlength : 2 < s.toList.length) :
    prefixForm (lower s) entry = some (entry.2, padCode entry.2 (upper (dropFirst 2 s))) := by
  have htwo : entry.1.toList.length = 2 := by
    have hall : ∀ entry ∈ exchangePrefixes, entry.1.toList.length = 2 := by decide
    exact hall entry hentry
  have hlonger : (lower s).toList.length > entry.1.toList.length := by
    rw [htwo, lower, String.toList_ofList, List.length_map]
    exact hlength
  have hdot : '.' ∉ (dropFirst 2 (lower s)).toList := by
    rw [dropFirst, String.toList_ofList]
    exact fun hmem ↦ h.lower.notMem (c := '.') (by decide) (List.mem_of_mem_drop hmem)
  have hbody : upper (dropFirst 2 (lower s)) = upper (dropFirst 2 s) := by
    simp [upper, dropFirst, lower, Function.comp_def]
  have hne : ¬ upper (dropFirst 2 s) = "" := by
    intro heq
    have hnil := congrArg (fun s : String ↦ s.toList.length) heq
    simp [upper, dropFirst] at hnil
    omega
  rw [prefixForm, if_pos ⟨hstart, hlonger⟩, htwo, lstrip_eq hdot, hbody]
  simp only [if_neg hne]

/-- **A prefixed ticker** is taken for a code of the exchange of its prefix. -/
theorem parseUserSymbol_of_prefixed (h : IsAlnum s) (hpre : Prefixed s) :
    ∃ entry ∈ exchangePrefixes, startsWith (lower s) entry.1 = true ∧
      parseUserSymbol s
        = .ok (some entry.2, padCode entry.2 (upper (dropFirst 2 s))) := by
  obtain ⟨hlength, entry, hentry, hstart⟩ := hpre
  have hsome : exchangePrefixes.findSome? (prefixForm (lower s)) ≠ none := by
    intro hnone
    have hentry' := List.findSome?_eq_none_iff.mp hnone entry hentry
    rw [prefixForm_of_startsWith h hentry hstart hlength] at hentry'
    cases hentry'
  obtain ⟨parsed, hparsed⟩ := Option.ne_none_iff_exists'.mp hsome
  obtain ⟨first, hfirst, hform⟩ := List.exists_of_findSome?_eq_some hparsed
  have hstarts : startsWith (lower s) first.1 = true := by
    by_contra hnot
    rw [prefixForm, if_neg fun hand ↦ hnot hand.1] at hform
    cases hform
  rw [prefixForm_of_startsWith h hfirst hstarts hlength] at hform
  refine ⟨first, hfirst, hstarts, ?_⟩
  rw [parseUserSymbol_of_isAlnum h, hparsed, ← Option.some.inj hform]

/-- **Any other ticker** is kept, in upper case. -/
theorem parseUserSymbol_of_not_prefixed (h : IsAlnum s) (hpre : ¬ Prefixed s) :
    parseUserSymbol s = .ok (none, upper s) := by
  have hnone : exchangePrefixes.findSome? (prefixForm (lower s)) = none := by
    refine List.findSome?_eq_none_iff.mpr fun entry hentry ↦ ?_
    have htwo : entry.1.toList.length = 2 := by
      have hall : ∀ entry ∈ exchangePrefixes, entry.1.toList.length = 2 := by decide
      exact hall entry hentry
    refine if_neg fun hand ↦ hpre ⟨?_, entry, hentry, hand.1⟩
    have hlength := hand.2
    rw [htwo, lower, String.toList_ofList, List.length_map] at hlength
    exact hlength
  rw [parseUserSymbol_of_isAlnum h, hnone]

theorem prefixed_upper_iff : Prefixed (upper s) ↔ Prefixed s := by
  rw [Prefixed, Prefixed, lower_upper, upper, String.toList_ofList, List.length_map]

theorem padCode_cases (code body : String) :
    padCode code body = body ∨ isDigit body = true ∧ ∃ n, padCode code body = zfill n body := by
  unfold padCode
  split_ifs with hdigits
  · exact .inr ⟨hdigits, 4, rfl⟩
  · exact .inr ⟨hdigits, 6, rfl⟩
  · exact .inl rfl
  · exact .inl rfl

theorem isAlnum_padCode (h : IsAlnum s) (code : String) : IsAlnum (padCode code s) := by
  rcases padCode_cases code s with heq | ⟨-, n, heq⟩
  · rw [heq]
    exact h
  · rw [heq]
    exact h.zfill n

/-- What is left of a prefixed ticker is another ticker: it is shorter, or it is all digits. -/
theorem padCode_ne_upper (hpre : Prefixed s) (exchange : String)
    {entry : String × String} (hentry : entry ∈ exchangePrefixes)
    (hstart : startsWith (lower s) entry.1 = true) :
    padCode exchange (upper (dropFirst 2 s)) ≠ upper s := by
  intro heq
  obtain ⟨a, rest, hs⟩ := List.exists_cons_of_length_pos (Nat.zero_lt_of_lt hpre.1)
  have hshort : upper (dropFirst 2 s) ≠ upper s := by
    intro hsame
    have hlength := congrArg (fun s : String ↦ s.toList.length) hsame
    have hlong := hpre.1
    simp only [upper, dropFirst, String.toList_ofList, List.length_map, List.length_drop] at hlength
    omega
  -- the first letter is no digit
  have ha : a.toUpper.isDigit = false := by
    have hlower : lower s = .ofList (a.toLower :: rest.map Char.toLower) := by rw [lower, hs]; rfl
    have hfirst : a.toLower = 's' ∨ a.toLower = 'h' := by
      rw [startsWith, hlower, String.toList_ofList] at hstart
      simp only [exchangePrefixes, List.mem_cons, List.not_mem_nil, or_false] at hentry
      rcases hentry with rfl | rfl | rfl | rfl <;>
        · have hprefix := List.isPrefixOf_iff_prefix.mp hstart
          obtain ⟨tail, htail⟩ := hprefix
          have hhead := congrArg List.head? htail
          simp at hhead
          simp [← hhead]
    rw [isDigit_toUpper, ← isDigit_toLower]
    rcases hfirst with h | h <;> rw [h] <;> decide
  have hmem : a.toUpper ∈ (upper s).toList := by
    rw [upper, String.toList_ofList, hs]
    exact List.mem_cons_self
  rcases padCode_cases exchange (upper (dropFirst 2 s)) with hkept | ⟨hdigits, n, hpadded⟩
  · exact hshort (hkept.symm.trans heq)
  · rw [← heq, hpadded] at hmem
    rw [isDigit_of_mem_zfill hdigits hmem] at ha
    cases ha

/-! ## Venues -/

theorem mem_of_resolveVenue {venue : String} {info : VenueInfo}
    (h : resolveVenue venue = .ok info) : info ∈ venues := by
  simp only [resolveVenue] at h
  split_ifs at h
  split at h
  · rename_i info' hinfo
    obtain ⟨code, -, hcode⟩ := Option.bind_eq_some_iff.mp hinfo
    cases h
    exact List.mem_of_find?_eq_some hcode
  · split at h <;> cases h

theorem resolveVenue_code : ∀ info ∈ venues, resolveVenue info.code = .ok info := by
  decide

theorem mem_of_lookup {α : Type} {table : List (String × α)} {name : String} {a : α}
    (h : table.lookup name = some a) : (name, a) ∈ table := by
  obtain ⟨front, back, rfl, -⟩ := List.lookup_eq_some_iff.mp h
  exact List.mem_append_right front List.mem_cons_self

theorem lookupName_of_resolveVenue {venue : String} {info : VenueInfo}
    (h : resolveVenue venue = .ok info) :
    strip venue ≠ "" ∧ lookupName aliasToCode (strip venue) = some info.code := by
  simp only [resolveVenue] at h
  split_ifs at h with hempty
  refine ⟨hempty, ?_⟩
  split at h
  · rename_i info' hinfo
    cases h
    obtain ⟨code, hlookup, hbyCode⟩ := Option.bind_eq_some_iff.mp hinfo
    have hcode : info.code = code := by simpa using List.find?_some hbyCode
    rw [hlookup, hcode]
  · split at h <;> cases h

/-- A name of a venue is no name of a market group, unless it is one of Hong Kong for both. -/
theorem resolveMarketGroup_cases {venue : String} {info : VenueInfo}
    (h : resolveVenue venue = .ok info) :
    resolveMarketGroup venue = none ∨
      resolveMarketGroup venue = some "HK" ∧ info.code = "HKEX" := by
  obtain ⟨hempty, hlookup⟩ := lookupName_of_resolveVenue h
  -- a name of a venue, and a name of a group in upper case, is looked up in the other table
  have hnames : ∀ entry ∈ aliasToCode, ∀ group ∈ lookupName marketGroupAliases entry.1,
      group = "HK" ∧ entry.2 = "HKEX" := by decide
  have hgroups : ∀ entry ∈ marketGroupAliases, ∀ code ∈ aliasToCode.lookup (upper entry.1),
      entry.2 = "HK" ∧ code = "HKEX" := by decide
  rw [resolveMarketGroup, if_neg hempty]
  rcases hgroup : lookupName marketGroupAliases (strip venue) with - | group
  · exact Or.inl rfl
  right
  rw [Option.some_inj]
  rcases Option.or_eq_some_iff.mp hlookup with hraw | ⟨-, hupper⟩
  · exact hnames (strip venue, info.code) (mem_of_lookup hraw) group hgroup
  · rcases Option.or_eq_some_iff.mp hgroup with hraw' | ⟨-, hupper'⟩
    · exact hgroups (strip venue, group) (mem_of_lookup hraw') info.code hupper
    · refine hnames (upper (strip venue), info.code) (mem_of_lookup hupper) group ?_
      rw [lookupName, hupper', Option.some_or, Option.mem_def]

theorem resolveMarketGroup_eq_none {venue : String} {info : VenueInfo}
    (h : resolveVenue venue = .ok info) (hcode : info.code ∉ chineseExchanges) :
    resolveMarketGroup venue = none := by
  rcases resolveMarketGroup_cases h with hnone | ⟨-, hhk⟩
  · exact hnone
  · rw [hhk] at hcode
    exact absurd (by decide) hcode

theorem lakeBody_of_isAlnum (h : IsAlnum s) {venue : String} {info : VenueInfo}
    (hinfo : resolveVenue venue = .ok info) (hcode : info.code ∉ chineseExchanges) :
    lakeBody venue s = s := by
  have hcaret : startsWith s "^" = false :=
    startsWith_eq_false (c := '^') (by decide) (h.notMem (by decide))
  have hpad : padCode info.code s = s := by
    simp only [chineseExchanges, List.mem_cons, List.not_mem_nil, or_false, not_or] at hcode
    simp only [padCode, if_neg hcode.2.2, hcode.1, hcode.2.1, or_self, if_false, ite_self]
  have hsuffix : ∀ info ∈ venues,
      info.yahooSuffix = "" ∨ '.' ∈ (upper info.yahooSuffix).toList := by
    decide
  have hget : getVenue venue = some info := by rw [getVenue, hinfo]; rfl
  have hcut :
      (if info.yahooSuffix = "" then s else removeSuffix s (upper info.yahooSuffix)) = s := by
    split_ifs with hnone
    · rfl
    · exact removeSuffix_eq ((hsuffix info (mem_of_resolveVenue hinfo)).resolve_left hnone)
        (h.notMem (by decide))
  rw [lakeBody, hcaret, hget]
  simp only [Bool.false_eq_true, if_false, hcut, hpad]
  split_ifs
  · exact removeSuffix_eq (c := '=') (by decide) (h.notMem (by decide))
  · rfl

/-! ## Keys and listings -/

theorem lakeSymbol_of_parse {venue body : String} {inferred : Option String}
    (h : parseUserSymbol s = .ok (inferred, body)) :
    lakeSymbol venue s = .ok (lakeBody venue body) := by
  rw [lakeSymbol, h]
  rfl

section Keys

variable {venue : String} {info : VenueInfo} (hinfo : resolveVenue venue = .ok info)
  (hcode : info.code ∉ chineseExchanges) (h : IsAlnum s)

include hinfo hcode h

/-- **The key of a ticker** is the ticker in upper case, unless it is prefixed. -/
theorem lakeSymbol_eq_upper_iff : lakeSymbol venue s = .ok (upper s) ↔ ¬ Prefixed s := by
  constructor
  · rintro hkey hpre
    obtain ⟨entry, hentry, hstart, hparse⟩ := parseUserSymbol_of_prefixed h hpre
    have hbody : IsAlnum (padCode entry.2 (upper (dropFirst 2 s))) :=
      isAlnum_padCode (h.dropFirst hpre.1).upper _
    rw [lakeSymbol_of_parse hparse, lakeBody_of_isAlnum hbody hinfo hcode] at hkey
    exact padCode_ne_upper hpre entry.2 hentry hstart (Except.ok.inj hkey)
  · intro hpre
    rw [lakeSymbol_of_parse (parseUserSymbol_of_not_prefixed h hpre),
      lakeBody_of_isAlnum h.upper hinfo hcode]

/-- **The venue that is asked for** is kept, unless the ticker is prefixed. -/
theorem resolveListing_keeps_iff :
    (∃ key, resolveListing venue s = .ok (info.code, key)) ↔ ¬ Prefixed s := by
  have hgroup := resolveMarketGroup_eq_none hinfo hcode
  have hempty : ¬ s = "" := fun heq ↦ h.1 (by rw [heq]; rfl)
  constructor
  · rintro ⟨key, hkey⟩ hpre
    obtain ⟨entry, hentry, -, hparse⟩ := parseUserSymbol_of_prefixed h hpre
    have hall : ∀ entry ∈ exchangePrefixes, wins none entry.2 = true ∧
        entry.2 ∈ chineseExchanges := by decide
    obtain ⟨hwins, hexchange⟩ := hall entry hentry
    simp only [resolveListing, strip_eq h, if_neg hempty, hparse, Except.bind, hgroup,
      Option.filter_some, hwins, if_true, listing] at hkey
    cases hlake : lakeSymbol entry.2 (padCode entry.2 (upper (dropFirst 2 s))) with
    | error e =>
      rw [hlake] at hkey
      cases hkey
    | ok lake =>
      rw [hlake] at hkey
      have hsame : entry.2 = info.code := congrArg Prod.fst (Except.ok.inj hkey)
      exact hcode (hsame ▸ hexchange)
  · intro hpre
    have hbyCode := resolveVenue_code info (mem_of_resolveVenue hinfo)
    have hkey : lakeSymbol info.code (upper s) = .ok (upper (upper s)) :=
      (lakeSymbol_eq_upper_iff hbyCode hcode h.upper).mpr (mt prefixed_upper_iff.mp hpre)
    refine ⟨upper (upper s), ?_⟩
    simp only [resolveListing, strip_eq h, if_neg hempty, parseUserSymbol_of_not_prefixed h hpre,
      Except.bind, hgroup, Option.filter_none, hinfo, listing, hkey]
    rfl

end Keys

/-! ## Sets of tickers -/

/-- What a venue makes of the tickers that are listed on it: each keeps its name, in upper case, and
its venue; a key is its own key, and two tickers share one only if they are the same ticker. -/
structure Faithful (venue code : String) (tickers : Set String) : Prop where
  key : ∀ s ∈ tickers, lakeSymbol venue s = .ok (upper s)
  listing : ∀ s ∈ tickers, ∃ key, resolveListing venue s = .ok (code, key)
  idempotent : ∀ s ∈ tickers, ∀ key, lakeSymbol venue s = .ok key → lakeSymbol venue key = .ok key
  distinct : ∀ s ∈ tickers, ∀ t ∈ tickers, lakeSymbol venue s = lakeSymbol venue t →
    upper s = upper t

/-- **Normalisation is faithful to a venue** exactly when no ticker of the venue begins with the
prefix of a Chinese exchange. -/
theorem faithful_iff {venue : String} {info : VenueInfo} (hinfo : resolveVenue venue = .ok info)
    (hcode : info.code ∉ chineseExchanges) (tickers : Set String)
    (h : ∀ s ∈ tickers, IsAlnum s) :
    Faithful venue info.code tickers ↔ ∀ s ∈ tickers, ¬ Prefixed s := by
  constructor
  · intro hfaithful s hs
    exact (lakeSymbol_eq_upper_iff hinfo hcode (h s hs)).mp (hfaithful.key s hs)
  · intro hpre
    have hkey (s : String) (hs : s ∈ tickers) : lakeSymbol venue s = .ok (upper s) :=
      (lakeSymbol_eq_upper_iff hinfo hcode (h s hs)).mpr (hpre s hs)
    refine ⟨hkey, fun s hs ↦ ?_, fun s hs key hlake ↦ ?_, fun s hs t ht hsame ↦ ?_⟩
    · exact (resolveListing_keeps_iff hinfo hcode (h s hs)).mpr (hpre s hs)
    · obtain rfl : upper s = key := Except.ok.inj ((hkey s hs).symm.trans hlake)
      have hagain := (lakeSymbol_eq_upper_iff hinfo hcode (h s hs).upper).mpr
        (mt prefixed_upper_iff.mp (hpre s hs))
      rw [upper_upper] at hagain
      exact hagain
    · exact Except.ok.inj ((hkey s hs).symm.trans (hsame.trans (hkey t ht)))

/-- The Toronto exchange. -/
def tsx : VenueInfo := { code := "TSX", yahooSuffix := ".TO", aliases := ["XTSE", "TSE_CA"] }

theorem faithful_tsx :
    resolveVenue "tse_ca" = .ok tsx ∧ tsx.code ∉ chineseExchanges ∧
      (∀ s ∈ ({"RY", "enb"} : Set String), IsAlnum s) ∧
      Faithful "tse_ca" tsx.code {"RY", "enb"} := by
  have hinfo : resolveVenue "tse_ca" = .ok tsx := by decide
  have hcode : tsx.code ∉ chineseExchanges := by decide
  have halnum : ∀ s ∈ ({"RY", "enb"} : Set String), IsAlnum s := by
    rintro s (rfl | rfl) <;> decide
  refine ⟨hinfo, hcode, halnum, (faithful_iff hinfo hcode _ halnum).mpr ?_⟩
  rintro s (rfl | rfl) <;> decide

/-- **Shopify in Toronto** is stored as `OP`, where another ticker goes, and is routed to
Shanghai. -/
theorem not_faithful_shop :
    ¬ (∀ info ∈ venues, info.code ∉ chineseExchanges → ∀ tickers : Set String,
        (∀ s ∈ tickers, IsAlnum s) → Faithful info.code info.code tickers)
      ∧ lakeSymbol "TSX" "SHOP" = .ok "OP" ∧ lakeSymbol "TSX" "OP" = .ok "OP"
      ∧ resolveListing "TSX" "SHOP" = .ok ("SSE", "OP") := by
  have hkeys : lakeSymbol "TSX" "SHOP" = .ok "OP" ∧ lakeSymbol "TSX" "OP" = .ok "OP"
      ∧ resolveListing "TSX" "SHOP" = .ok ("SSE", "OP") := by decide
  refine ⟨fun h ↦ ?_, hkeys⟩
  have hmem : tsx ∈ venues := by decide
  have hcode : tsx.code ∉ chineseExchanges := by decide
  have halnum : ∀ s ∈ ({"SHOP"} : Set String), IsAlnum s := by
    rintro s rfl
    decide
  have hkey := (h tsx hmem hcode {"SHOP"} halnum).key "SHOP" rfl
  have hother : lakeSymbol tsx.code "SHOP" ≠ .ok (upper "SHOP") := by decide
  exact hother hkey

/-- The default universes have two such tickers. -/
example : (defaultUniverses.flatMap Prod.snd).filter (fun s ↦ Prefixed s) = ["SHOP", "SHEL"] := by
  decide

end Venues

end Coinext
