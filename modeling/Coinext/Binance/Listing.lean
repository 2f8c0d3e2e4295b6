import Coinext.Binance.Instruments
import Coinext.Engine.Exposure

/-!
# What an exchange-info body lists

The instruments of a body are read entry by entry, and the first entry that cannot be read fails the
whole body. `Readable` says which entries can be read, and a body gives the instruments of its
entries exactly when all the entries that are looked at can be (`lists_each_iff`).

The quote currency of an instrument takes its precision from the tick size of the symbol. Currencies
are equal only when their precisions are, and the portfolio skips a position whose currency is not
its own. So symbols that are quoted in one asset are counted together exactly when their tick sizes
have the same number of decimal places (`settles_alike_iff`).
-/

namespace Coinext.Binance

section Parse

variable [DecimalText] [DecimalWidth]

/-! ## Readable entries -/

/-- An entry that is looked at: a trading symbol that is named, with its two assets. -/
structure Considered (sym : Json) (symbol baseAsset quoteAsset : String) : Prop where
  trading : sym.getStr "status" = some "TRADING"
  named : sym.getStr "symbol" = some symbol
  base : sym.getStr "baseAsset" = some baseAsset
  quote : sym.getStr "quoteAsset" = some quoteAsset
  base_ne : baseAsset ≠ ""
  quote_ne : quoteAsset ≠ ""

/-- The tick size of an entry. -/
def tickSize (sym : Json) : Option String :=
  (sym.getArray "filters").bind fun filters ↦ filterField filters "PRICE_FILTER" "tickSize"

/-- The step size of an entry. -/
def stepSize (sym : Json) : Option String :=
  (sym.getArray "filters").bind fun filters ↦ filterField filters "LOT_SIZE" "stepSize"

/-- The smallest notional of an entry, from the current filter or else from the legacy one. -/
def minNotionalText (sym : Json) : Option String :=
  (sym.getArray "filters").bind fun filters ↦ (filterField filters "NOTIONAL" "minNotional").or
    (filterField filters "MIN_NOTIONAL" "minNotional")

/-- An increment can be held at its own scale. -/
structure HoldsIncrement (d : Decimal) : Prop where
  nonneg : 0 ≤ d
  scale_le : normalizedScale d ≤ maxPrecision
  fits : DecimalWidth.fits (mantissa d (normalizedScale d)) = true
  le_max : mantissa d (normalizedScale d) ≤ i64Max

/-- The terms of an entry can be read: its increments are there and can be held, the codes of its
assets have eight bytes at most, and the smallest notional, if there is one, can be held too. -/
def Readable (sym : Json) (baseAsset quoteAsset : String) : Prop :=
  ∃ tick step tickDec stepDec, tickSize sym = some tick ∧ stepSize sym = some step
    ∧ DecimalText.fromStr tick = .ok tickDec ∧ DecimalText.fromStr step = .ok stepDec
    ∧ HoldsIncrement tickDec ∧ HoldsIncrement stepDec
    ∧ baseAsset.utf8ByteSize ≤ 8 ∧ quoteAsset.utf8ByteSize ≤ 8
    ∧ ∀ text ∈ minNotionalText sym, ∃ d, DecimalText.fromStr text = .ok d
      ∧ (d = 0 ∨ DecimalWidth.fits (mantissa d (normalizedScale tickDec)) = true)

omit [DecimalText] [DecimalWidth] in
theorem onGrid_normalizedScale {d : Decimal} (h : normalizedScale d ≤ maxPrecision) :
    OnGrid d (normalizedScale d) := by
  unfold normalizedScale at h ⊢
  cases hfind : (List.range 29).find? fun p ↦ (d * 10 ^ p).den == 1 with
  | none =>
    rw [hfind] at h
    exact absurd h (by decide)
  | some p =>
    have hden : (d * 10 ^ p).den = 1 := by simpa using List.find?_some hfind
    have hint : ((d * 10 ^ p).num : ℚ) = d * 10 ^ p := (Rat.den_eq_one_iff _).mp hden
    refine onGrid_iff.mpr ⟨(d * 10 ^ p).num, ?_⟩
    rw [Option.getD_some, hint, mul_assoc, mul_comm ((10 : ℚ) ^ p), ulp_mul_pow, mul_one]

omit [DecimalText] in
theorem exists_price_iff {d : Decimal} :
    (∃ p, Price.fromDecimal d (normalizedScale d) = .ok p) ↔ HoldsIncrement d := by
  constructor
  · rintro ⟨p, hp⟩
    obtain ⟨hscale, hfits, hnonneg, hmax, -⟩ := Price.fromDecimal_eq_ok_iff.mp hp
    refine ⟨?_, hscale, hfits, hmax⟩
    rw [← onGrid_normalizedScale hscale]
    exact mul_nonneg (Int.cast_nonneg hnonneg) (ulp_pos _).le
  · intro h
    exact ⟨_, Price.fromDecimal_eq_ok_iff.mpr
      ⟨h.scale_le, h.fits, mantissa_nonneg h.nonneg _, h.le_max, rfl⟩⟩

omit [DecimalText] in
theorem exists_quantity_iff {d : Decimal} :
    (∃ q, Quantity.fromDecimal d (normalizedScale d) = .ok q) ↔ HoldsIncrement d := by
  constructor
  · rintro ⟨q, hq⟩
    obtain ⟨hnonneg, hscale, hfits, hmax, -⟩ := Quantity.fromDecimal_eq_ok_iff.mp hq
    exact ⟨hnonneg, hscale, hfits, hmax⟩
  · intro h
    exact ⟨_, Quantity.fromDecimal_eq_ok_iff.mpr
      ⟨h.nonneg, h.scale_le, h.fits, h.le_max, rfl⟩⟩

omit [DecimalText] [DecimalWidth] in
theorem normalizedScale_le (d : Decimal) : normalizedScale d ≤ 28 := by
  unfold normalizedScale
  cases hfind : (List.range 29).find? fun p ↦ (d * 10 ^ p).den == 1 with
  | none => exact le_rfl
  | some p => exact Nat.lt_succ_iff.mp (List.mem_range.mp (List.mem_of_find?_eq_some hfind))

omit [DecimalWidth] in
theorem decimalScale_eq_ok_iff {s : String} {n : ℕ} :
    decimalScale s = .ok n ↔ ∃ d, DecimalText.fromStr s = .ok d ∧ n = normalizedScale d := by
  rw [decimalScale, Except.bind_eq_ok_iff]
  refine exists_congr fun d ↦ and_congr parseDecimal_eq_ok_iff ?_
  rw [min_eq_left ((normalizedScale_le d).trans (by norm_num)), Except.ok.injEq, eq_comm]

theorem exists_parseMinNotional_iff {symbol : String} {quote : Currency} {text : Option String} :
    (∃ m, parseMinNotional symbol quote text = .ok m) ↔ ∀ t ∈ text, ∃ d,
      DecimalText.fromStr t = .ok d
        ∧ (d = 0 ∨ DecimalWidth.fits (mantissa d quote.precision) = true) := by
  cases text with
  | none => simp [parseMinNotional]
  | some t =>
    simp only [parseMinNotional, Except.bind_eq_ok_iff, parseDecimal_eq_ok_iff, Option.mem_some_iff,
      forall_eq']
    constructor
    · rintro ⟨m, d, hd, h⟩
      refine ⟨d, hd, ?_⟩
      split_ifs at h with hzero
      · exact .inl hzero
      · obtain ⟨money, hmoney, -⟩ := Except.bind_eq_ok_iff.mp h
        exact .inr (Money.fromDecimal_eq_ok_iff.mp (orModelError_eq_ok_iff.mp hmoney)).1
    · rintro ⟨d, hd, hzero | hfits⟩
      · exact ⟨none, d, hd, if_pos hzero⟩
      · by_cases hzero : d = 0
        · exact ⟨none, d, hd, if_pos hzero⟩
        · refine ⟨some ⟨mantissa d quote.precision, quote⟩, d, hd, ?_⟩
          rw [if_neg hzero]
          exact Except.bind_eq_ok_iff.mpr ⟨_, orModelError_eq_ok_iff.mpr
            (Money.fromDecimal_eq_ok_iff.mpr ⟨hfits, rfl⟩), rfl⟩

/-- What an entry that is read becomes. -/
structure ReadAs (sym : Json) (baseAsset quoteAsset : String) (inst : Instrument) : Prop where
  readable : Readable sym baseAsset quoteAsset
  linear : inst.isInverse = false
  code : inst.settlementCurrency.code = quoteAsset
  precision : ∀ tick ∈ tickSize sym, ∀ d, DecimalText.fromStr tick = .ok d →
    inst.settlementCurrency.precision = normalizedScale d

theorem readAs_of_parsePair {symbol baseAsset quoteAsset : String} {sym : Json} {inst : Instrument}
    (h : parsePair symbol baseAsset quoteAsset sym = .ok inst) :
    ReadAs sym baseAsset quoteAsset inst := by
  simp only [parsePair, Except.bind_eq_ok_iff, orError_eq_ok_iff, orModelError_eq_ok_iff,
    parseDecimal_eq_ok_iff, decimalScale_eq_ok_iff] at h
  obtain ⟨filters, hfilters, tick, htick, step, hstep, pricePrecision, ⟨tickDec, htickDec, rfl⟩,
    sizePrecision, ⟨stepDec, hstepDec, rfl⟩, tickDec', htickDec', stepDec', hstepDec',
    priceIncrement, hprice, sizeIncrement, hsize, quote, hquote, base, hbase, minNotional, hmin,
    h⟩ := h
  cases h
  obtain rfl : tickDec = tickDec' := Except.ok.inj (htickDec.symm.trans htickDec')
  obtain rfl : stepDec = stepDec' := Except.ok.inj (hstepDec.symm.trans hstepDec')
  obtain ⟨hquoteLength, hcode, hprecision⟩ := Currency.new_eq_ok_iff.mp hquote
  obtain ⟨hbaseLength, -, -⟩ := Currency.new_eq_ok_iff.mp hbase
  have htickSize : tickSize sym = some tick := by
    rw [tickSize, hfilters]
    exact htick
  refine ⟨⟨tick, step, tickDec, stepDec, htickSize, ?_, htickDec, hstepDec,
    exists_price_iff.mp ⟨_, hprice⟩, exists_quantity_iff.mp ⟨_, hsize⟩, hbaseLength.2,
    hquoteLength.2, ?_⟩, rfl, hcode, ?_⟩
  · rw [stepSize, hfilters]
    exact hstep
  · rw [minNotionalText, hfilters, ← hprecision]
    exact exists_parseMinNotional_iff.mp ⟨_, hmin⟩
  · intro tick' htick' d hd
    obtain rfl : tick = tick' := Option.some.inj (htickSize.symm.trans htick')
    obtain rfl : tickDec = d := Except.ok.inj (htickDec.symm.trans hd)
    exact hprecision

/-- **An entry is read exactly when its terms can be.** -/
theorem exists_parsePair_iff {symbol baseAsset quoteAsset : String} {sym : Json}
    (hbase : baseAsset ≠ "") (hquote : quoteAsset ≠ "") :
    (∃ inst, parsePair symbol baseAsset quoteAsset sym = .ok inst)
      ↔ Readable sym baseAsset quoteAsset := by
  constructor
  · rintro ⟨inst, h⟩
    exact (readAs_of_parsePair h).readable
  · rintro ⟨tick, step, tickDec, stepDec, htick, hstep, htickDec, hstepDec, hprice, hsize,
      hbaseLength, hquoteLength, hmin⟩
    obtain ⟨filters, hfilters, htick⟩ := Option.bind_eq_some_iff.mp htick
    rw [stepSize, hfilters, Option.bind_some] at hstep
    rw [minNotionalText, hfilters, Option.bind_some] at hmin
    have hpositive {text : String} (h : text ≠ "") : 0 < text.utf8ByteSize :=
      Nat.pos_of_ne_zero fun hzero ↦ h (String.utf8ByteSize_eq_zero_iff.mp hzero)
    obtain ⟨priceIncrement, hpriceIncrement⟩ := exists_price_iff.mpr hprice
    obtain ⟨sizeIncrement, hsizeIncrement⟩ := exists_quantity_iff.mpr hsize
    let quote : Currency := ⟨quoteAsset, normalizedScale tickDec, hprice.scale_le⟩
    let base : Currency := ⟨baseAsset, normalizedScale stepDec, hsize.scale_le⟩
    have hquoteCcy : Currency.new quoteAsset (normalizedScale tickDec) = .ok quote :=
      Currency.new_eq_ok_iff.mpr ⟨⟨hpositive hquote, hquoteLength⟩, rfl, rfl⟩
    have hbaseCcy : Currency.new baseAsset (normalizedScale stepDec) = .ok base :=
      Currency.new_eq_ok_iff.mpr ⟨⟨hpositive hbase, hbaseLength⟩, rfl, rfl⟩
    obtain ⟨minNotional, hminNotional⟩ :
        ∃ m, parseMinNotional symbol quote ((filterField filters "NOTIONAL" "minNotional").or
          (filterField filters "MIN_NOTIONAL" "minNotional")) = .ok m :=
      exists_parseMinNotional_iff.mpr hmin
    simp only [parsePair, Except.bind_eq_ok_iff, orError_eq_ok_iff, orModelError_eq_ok_iff,
      parseDecimal_eq_ok_iff, decimalScale_eq_ok_iff]
    exact ⟨_, filters, hfilters, tick, htick, step, hstep, _, ⟨tickDec, htickDec, rfl⟩, _,
      ⟨stepDec, hstepDec, rfl⟩, tickDec, htickDec, stepDec, hstepDec, priceIncrement,
      hpriceIncrement, sizeIncrement, hsizeIncrement, quote, hquoteCcy, base, hbaseCcy, minNotional,
      hminNotional, rfl⟩

variable {sym : Json} {symbol baseAsset quoteAsset : String} {inst : Instrument}

theorem parseSymbol_of_considered (h : Considered sym symbol baseAsset quoteAsset) :
    parseSymbol sym = (parsePair symbol baseAsset quoteAsset sym).map some := by
  rw [parseSymbol, h.trading, if_neg (by simp), h.named]
  simp only [h.base, h.quote, Option.getD_some]
  rw [if_neg (by simp [h.base_ne, h.quote_ne])]
  cases parsePair symbol baseAsset quoteAsset sym <;> rfl

theorem parseSymbol_of_not_considered
    (h : ∀ symbol base quote, ¬ Considered sym symbol base quote) :
    parseSymbol sym = .ok none := by
  unfold parseSymbol
  split_ifs with hstatus
  · rfl
  cases hsymbol : sym.getStr "symbol" with
  | none => rfl
  | some symbol =>
    have htrading : sym.getStr "status" = some "TRADING" := by
      cases hs : sym.getStr "status" with
      | none => simp [hs] at hstatus
      | some status => simpa [hs] using hstatus
    have hget {key : String} (hne : (sym.getStr key).getD "" ≠ "") :
        sym.getStr key = some ((sym.getStr key).getD "") := by
      cases hk : sym.getStr key with
      | none => simp [hk] at hne
      | some text => rfl
    refine if_pos ?_
    by_contra hassets
    rw [not_or] at hassets
    exact h symbol _ _ ⟨htrading, hsymbol, hget hassets.1, hget hassets.2, hassets.1, hassets.2⟩

/-- **When an entry does not fail**: it is skipped, or its terms can be read. -/
theorem exists_parseSymbol_iff : (∃ r, parseSymbol sym = .ok r)
    ↔ ∀ symbol base quote, Considered sym symbol base quote → Readable sym base quote := by
  constructor
  · rintro ⟨r, hr⟩ symbol base quote hconsidered
    rw [parseSymbol_of_considered hconsidered] at hr
    cases hpair : parsePair symbol base quote sym with
    | error e =>
      rw [hpair] at hr
      cases hr
    | ok inst =>
      exact (exists_parsePair_iff hconsidered.base_ne hconsidered.quote_ne).mp ⟨inst, hpair⟩
  · intro h
    by_cases hany : ∃ symbol base quote, Considered sym symbol base quote
    · obtain ⟨symbol, base, quote, hconsidered⟩ := hany
      obtain ⟨inst, hinst⟩ := (exists_parsePair_iff hconsidered.base_ne hconsidered.quote_ne).mpr
        (h symbol base quote hconsidered)
      exact ⟨some inst, by rw [parseSymbol_of_considered hconsidered, hinst]; rfl⟩
    · exact ⟨none, parseSymbol_of_not_considered fun symbol base quote hconsidered ↦
        hany ⟨symbol, base, quote, hconsidered⟩⟩

/-! ## One entry and the others -/

/-- The instrument of an entry that is given alone. -/
def parseAlone (sym : Json) : Option Instrument :=
  match parseExchangeInfo (.obj [("symbols", .arr [sym])]) with
  | .ok insts => insts.head?
  | .error _ => none

theorem parseAlone_of_ok {r : Option Instrument} (h : parseSymbol sym = .ok r) :
    parseAlone sym = r := by
  have hparsed : [sym].mapM parseSymbol = .ok [r] :=
    Except.mapM_eq_ok_iff.mpr (.cons h .nil)
  have hbody : parseExchangeInfo (.obj [("symbols", .arr [sym])])
      = .ok ([r] : List (Option Instrument)).reduceOption :=
    Except.bind_eq_ok_iff.mpr ⟨[sym], rfl, Except.bind_eq_ok_iff.mpr ⟨[r], hparsed, rfl⟩⟩
  rw [parseAlone, hbody]
  cases r <;> rfl

variable {root : Json} {symbols : List Json}

theorem parseExchangeInfo_eq_ok_iff (hsymbols : root.getArray "symbols" = some symbols)
    {insts : List Instrument} : parseExchangeInfo root = .ok insts
      ↔ ∃ parsed, List.Forall₂ (fun sym r ↦ parseSymbol sym = .ok r) symbols parsed
        ∧ insts = parsed.reduceOption := by
  rw [parseExchangeInfo, Except.bind_eq_ok_iff]
  simp only [orError_eq_ok_iff, hsymbols, Option.some.injEq, exists_eq_left',
    Except.bind_eq_ok_iff, Except.mapM_eq_ok_iff, Except.ok.injEq, eq_comm (a := insts)]

omit [DecimalText] [DecimalWidth] in
theorem exists_of_forall₂ {α β : Type} {R : α → β → Prop} {l : List α} {l' : List β} {a : α}
    (h : List.Forall₂ R l l') (ha : a ∈ l) : ∃ b ∈ l', R a b := by
  induction h with
  | nil => cases ha
  | cons hab _ ih =>
    rcases List.mem_cons.mp ha with rfl | ha
    · exact ⟨_, List.mem_cons_self, hab⟩
    · obtain ⟨b, hb, hR⟩ := ih ha
      exact ⟨b, List.mem_cons_of_mem _ hb, hR⟩

/-- **A body lists its entries one by one exactly when each of them can be read**: every entry that
is looked at has its increments, within range, assets of eight bytes at most, and no smallest
notional out of range. -/
theorem lists_each_iff (hsymbols : root.getArray "symbols" = some symbols) :
    parseExchangeInfo root = .ok (symbols.filterMap parseAlone)
      ↔ ∀ sym ∈ symbols, ∀ symbol base quote, Considered sym symbol base quote →
        Readable sym base quote := by
  constructor
  · intro h sym hsym
    obtain ⟨parsed, hparsed, -⟩ := (parseExchangeInfo_eq_ok_iff hsymbols).mp h
    obtain ⟨r, -, hr⟩ := exists_of_forall₂ hparsed hsym
    exact exists_parseSymbol_iff.mp ⟨r, hr⟩
  · intro h
    refine (parseExchangeInfo_eq_ok_iff hsymbols).mpr ⟨symbols.map parseAlone, ?_, ?_⟩
    · rw [List.forall₂_map_right_iff, List.forall₂_same]
      intro sym hsym
      obtain ⟨r, hr⟩ := exists_parseSymbol_iff.mpr (h sym hsym)
      rw [hr, parseAlone_of_ok hr]
    · rw [List.reduceOption, List.filterMap_map]
      rfl

/-! ## One currency for one asset -/

theorem readAs_of_parseSymbol (h : parseSymbol sym = .ok (some inst)) :
    ∃ symbol base quote, Considered sym symbol base quote ∧ ReadAs sym base quote inst := by
  by_cases hany : ∃ symbol base quote, Considered sym symbol base quote
  · obtain ⟨symbol, base, quote, hconsidered⟩ := hany
    refine ⟨symbol, base, quote, hconsidered, ?_⟩
    rw [parseSymbol_of_considered hconsidered] at h
    cases hpair : parsePair symbol base quote sym with
    | error e =>
      rw [hpair] at h
      cases h
    | ok pair =>
      rw [hpair] at h
      cases h
      exact readAs_of_parsePair hpair
  · have hskipped := parseSymbol_of_not_considered fun symbol base quote hconsidered ↦
      hany ⟨symbol, base, quote, hconsidered⟩
    rw [hskipped] at h
    cases h

omit [DecimalWidth] in
/-- The number of decimal places of the tick size of an entry, trailing zeros dropped. -/
def tickScale (sym : Json) : Option ℕ :=
  (tickSize sym).bind fun tick ↦ match DecimalText.fromStr tick with
    | .ok d => some (normalizedScale d)
    | .error _ => none

theorem ReadAs.tickScale_eq (h : ReadAs sym baseAsset quoteAsset inst) :
    tickScale sym = some inst.settlementCurrency.precision := by
  obtain ⟨tick, -, d, -, htick, -, hd, -⟩ := h.readable
  rw [tickScale, htick, Option.bind_some, hd, h.precision tick htick d hd]

/-- A portfolio in the currency counts every position in the instrument: its notional and its profit
are added as they are. -/
def CountedIn (settle : Currency) (inst : Instrument) : Prop :=
  ∀ (c : Cache) (pos : Position) (mark : Price), c.instrument pos.instrumentId = some inst →
    c.mark pos.instrumentId = some mark → pos.realizedPnl.currency = inst.settlementCurrency →
    PortfolioState.exposureOf c settle pos = (pos.notional mark inst).amount
      ∧ PortfolioState.profitOf c settle pos
        = pos.realizedPnl.amount + (pos.unrealizedPnl mark inst).amount

omit [DecimalText] in
theorem countedIn_settlementCurrency (inst : Instrument) :
    CountedIn inst.settlementCurrency inst := by
  intro c pos mark hinst hmark hrealized
  have hnotional := convertToSettle_of_currency (currency_notional pos mark inst) inst mark
  have hprofit := convertToSettle_of_currency (currency_unrealizedPnl pos mark inst) inst mark
  simp only [PortfolioState.exposureOf, PortfolioState.profitOf, hinst, hmark, hrealized, if_true]
  rw [hnotional, hprofit]
  exact ⟨rfl, rfl⟩

/-- Instruments that are quoted in one asset settle in one currency, and a portfolio in it counts
every position in them. -/
def SettlesAlike (symbols : List Json) : Prop :=
  ∀ sym ∈ symbols, ∀ sym' ∈ symbols, ∀ inst inst', parseSymbol sym = .ok (some inst) →
    parseSymbol sym' = .ok (some inst') → sym.getStr "quoteAsset" = sym'.getStr "quoteAsset" →
    inst.settlementCurrency = inst'.settlementCurrency ∧ CountedIn inst.settlementCurrency inst'

/-- The tick sizes of the entries that are quoted in one asset have the same number of decimal
places. -/
def TicksAlike (symbols : List Json) : Prop :=
  ∀ sym ∈ symbols, ∀ sym' ∈ symbols, ∀ symbol base symbol' base' quote,
    Considered sym symbol base quote → Considered sym' symbol' base' quote →
    tickScale sym = tickScale sym'

/-- **One currency for one asset**, exactly when the tick sizes of the entries that are quoted in it
have the same number of decimal places. -/
theorem settles_alike_iff (hsymbols : root.getArray "symbols" = some symbols)
    {insts : List Instrument} (hbody : parseExchangeInfo root = .ok insts) :
    SettlesAlike symbols ↔ TicksAlike symbols := by
  obtain ⟨parsed, hparsed, -⟩ := (parseExchangeInfo_eq_ok_iff hsymbols).mp hbody
  constructor
  · intro h sym hsym sym' hsym' symbol base symbol' base' quote hconsidered hconsidered'
    -- an entry of the body that is looked at has become an instrument
    have hread {sym : Json} {symbol base : String} (hsym : sym ∈ symbols)
        (hconsidered : Considered sym symbol base quote) :
        ∃ inst, parseSymbol sym = .ok (some inst) := by
      obtain ⟨r, -, hr⟩ := exists_of_forall₂ hparsed hsym
      rw [parseSymbol_of_considered hconsidered] at hr ⊢
      cases hpair : parsePair symbol base quote sym with
      | error e =>
        rw [hpair] at hr
        cases hr
      | ok inst => exact ⟨inst, rfl⟩
    obtain ⟨inst, hinst⟩ := hread hsym hconsidered
    obtain ⟨inst', hinst'⟩ := hread hsym' hconsidered'
    obtain ⟨hsettle, -⟩ := h sym hsym sym' hsym' inst inst' hinst hinst'
      (hconsidered.quote.trans hconsidered'.quote.symm)
    obtain ⟨_, _, _, -, hreadAs⟩ := readAs_of_parseSymbol hinst
    obtain ⟨_, _, _, -, hreadAs'⟩ := readAs_of_parseSymbol hinst'
    rw [hreadAs.tickScale_eq, hreadAs'.tickScale_eq, hsettle]
  · intro h sym hsym sym' hsym' inst inst' hinst hinst' hquote
    obtain ⟨symbol, base, quote, hconsidered, hread⟩ := readAs_of_parseSymbol hinst
    obtain ⟨symbol', base', quote', hconsidered', hread'⟩ := readAs_of_parseSymbol hinst'
    obtain rfl : quote = quote' :=
      Option.some.inj (hconsidered.quote.symm.trans (hquote.trans hconsidered'.quote))
    have hscale := h sym hsym sym' hsym' symbol base symbol' base' quote hconsidered hconsidered'
    rw [hread.tickScale_eq, hread'.tickScale_eq] at hscale
    have hsettle : inst.settlementCurrency = inst'.settlementCurrency :=
      Currency.ext (hread.code.trans hread'.code.symm) (Option.some.inj hscale)
    refine ⟨hsettle, ?_⟩
    rw [hsettle]
    exact countedIn_settlementCurrency inst'

end Parse

/-! ## Instances -/

section Instances

open scoped PlainDecimal RustDecimal

/-- An entry that is quoted in dollars. -/
def listing (baseAsset tick step : String) : Json :=
  .obj [("symbol", .str (baseAsset ++ "USDT")), ("status", .str "TRADING"),
    ("baseAsset", .str baseAsset), ("quoteAsset", .str "USDT"),
    ("filters", .arr [
      .obj [("filterType", .str "PRICE_FILTER"), ("tickSize", .str tick)],
      .obj [("filterType", .str "LOT_SIZE"), ("stepSize", .str step)]])]

def body (symbols : List Json) : Json := .obj [("symbols", .arr symbols)]

/-- The instrument of such an entry. -/
def listed (baseAsset : String) (base quote : Currency) : Instrument :=
  currencyPair (instrumentId (baseAsset ++ "USDT")) base quote quote.precision base.precision
    ⟨1, quote.precision⟩ ⟨1, base.precision⟩ none defaultMakerFee defaultTakerFee

def btcListed : Instrument :=
  listed "BTC" ⟨"BTC", 5, five_le_maxPrecision⟩ ⟨"USDT", 2, two_le_maxPrecision⟩

def ethListed : Instrument :=
  listed "ETH" ⟨"ETH", 4, by decide⟩ ⟨"USDT", 1, by decide⟩

theorem parseSymbol_btc :
    parseSymbol (listing "BTC" "0.01000000" "0.00001000") = .ok (some btcListed) := by
  with_unfolding_all decide

theorem parseSymbol_eth :
    parseSymbol (listing "ETH" "0.10000000" "0.00010000") = .ok (some ethListed) := by
  with_unfolding_all decide

/-- The body lists both entries, since both can be read. -/
theorem lists_each_iff_two :
    parseExchangeInfo (body [listing "BTC" "0.01000000" "0.00001000",
        listing "ETH" "0.10000000" "0.00010000"])
      = .ok ([listing "BTC" "0.01000000" "0.00001000",
        listing "ETH" "0.10000000" "0.00010000"].filterMap parseAlone) ∧
    ∀ sym ∈ [listing "BTC" "0.01000000" "0.00001000", listing "ETH" "0.10000000" "0.00010000"],
      ∀ symbol base quote, Considered sym symbol base quote → Readable sym base quote := by
  have hsymbols : (body [listing "BTC" "0.01000000" "0.00001000",
      listing "ETH" "0.10000000" "0.00010000"]).getArray "symbols" = some _ := rfl
  have hlists : parseExchangeInfo (body [listing "BTC" "0.01000000" "0.00001000",
      listing "ETH" "0.10000000" "0.00010000"]) = .ok ([listing "BTC" "0.01000000" "0.00001000",
        listing "ETH" "0.10000000" "0.00010000"].filterMap parseAlone) := by
    with_unfolding_all decide
  exact ⟨hlists, (lists_each_iff hsymbols).mp hlists⟩

/-- An asset with a code of ten bytes fails the whole body, and the other entry with it. -/
theorem not_lists_each_of_long_code :
    (parseAlone (listing "BTC" "0.01000000" "0.00001000")).isSome = true
      ∧ parseAlone (listing "1000CHEEMS" "0.01000000" "1.00000000") = none
      ∧ ¬ parseExchangeInfo (body [listing "BTC" "0.01000000" "0.00001000",
          listing "1000CHEEMS" "0.01000000" "1.00000000"])
        = .ok ([listing "BTC" "0.01000000" "0.00001000",
          listing "1000CHEEMS" "0.01000000" "1.00000000"].filterMap parseAlone) := by
  with_unfolding_all decide

/-- Two symbols with ticks of one hundredth settle alike. -/
theorem settles_alike_iff_two : SettlesAlike [listing "BTC" "0.01000000" "0.00001000",
    listing "ETH" "0.01000000" "0.00010000"] := by
  have hsymbols : (body [listing "BTC" "0.01000000" "0.00001000",
      listing "ETH" "0.01000000" "0.00010000"]).getArray "symbols" = some _ := rfl
  have hbody : parseExchangeInfo (body [listing "BTC" "0.01000000" "0.00001000",
      listing "ETH" "0.01000000" "0.00010000"]) = .ok [btcListed,
        listed "ETH" ⟨"ETH", 4, by decide⟩ ⟨"USDT", 2, by decide⟩] := by
    with_unfolding_all decide
  have hscales : ∀ sym ∈ [listing "BTC" "0.01000000" "0.00001000",
      listing "ETH" "0.01000000" "0.00010000"], tickScale sym = some 2 := by
    with_unfolding_all decide
  refine (settles_alike_iff hsymbols hbody).mpr ?_
  intro sym hsym sym' hsym' _ _ _ _ _ _ _
  rw [hscales sym hsym, hscales sym' hsym']

/-- Two symbols with ticks of one hundredth and one tenth do not: a position in the second is not
counted in the currency of the first. -/
theorem not_settles_alike_of_ticks :
    parseExchangeInfo (body [listing "BTC" "0.01000000" "0.00001000",
        listing "ETH" "0.10000000" "0.00010000"]) = .ok [btcListed, ethListed]
      ∧ ¬ SettlesAlike [listing "BTC" "0.01000000" "0.00001000",
        listing "ETH" "0.10000000" "0.00010000"] := by
  refine ⟨by with_unfolding_all decide, fun h ↦ ?_⟩
  have halike := h _ List.mem_cons_self _ (List.mem_cons_of_mem _ List.mem_cons_self) btcListed
    ethListed parseSymbol_btc parseSymbol_eth rfl
  exact absurd halike.1 (by decide)

end Instances

end Coinext.Binance
