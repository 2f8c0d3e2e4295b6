import Coinext.Support.PyText

/-!
# The venue catalogue and the routing of tickers

A ticker is given with a venue or with a market group. `parseUserSymbol` takes an exchange off it
where it carries one, as a suffix (`600519.SS`) or as a prefix (`sh600519`); `lakeSymbol` is the key
of a ticker in the lake; `resolveListing` decides on the venue and the key. An exchange that the
ticker carries wins over the venue that was asked for.

Of the catalogue only the fields that these functions read are kept.
-/

namespace Coinext

namespace Venues

open PyText

/-- What the functions raise, with the values their texts print. -/
inductive VenueError where
  /-- `ValueError`: `empty symbol` -/
  | emptySymbol
  /-- `ValueError`: `cannot infer A-share venue from symbol {symbol}` -/
  | cannotInferSymbol (symbol : String)
  /-- `ValueError`: `cannot infer A-share venue from code {body}` -/
  | cannotInferCode (body : String)
  /-- `ValueError`: `cannot route ETF symbol {symbol} under market group ETF; pass an explicit venue
  (NYSE, NASDAQ, SSE, SZSE, HKEX)` -/
  | cannotRouteEtf (symbol : String)
  /-- `ValueError`: `unhandled market group {group}` -/
  | unhandledGroup (group : String)
  /-- `KeyError`: `empty venue code` -/
  | emptyVenue
  /-- `KeyError`: `{code} is a market group (members: {members}); use expand_venues/resolve_listings
  or a concrete venue code` -/
  | marketGroup (code : String) (members : List String)
  /-- `KeyError`: `unknown venue {code}; known: {known}` -/
  | unknownVenue (code : String) (known : List String)
deriving DecidableEq

/-! ## The catalogue -/

structure VenueInfo where
  code : String
  yahooSuffix : String := ""
  aliases : List String := []
deriving DecidableEq

def venues : List VenueInfo :=
  [{ code := "BINANCE" },
   { code := "COINBASE" },
   { code := "OKX" },
   { code := "NYSE", aliases := ["XNYS", "NYSEARCA", "ARCA"] },
   { code := "NASDAQ", aliases := ["XNAS", "NASDAQGS", "NASDAQGM", "NASDAQCM"] },
   { code := "AMEX", aliases := ["XASE", "NYSEAMERICAN", "NYSE MKT"] },
   { code := "TSX", yahooSuffix := ".TO", aliases := ["XTSE", "TSE_CA"] },
   { code := "B3", yahooSuffix := ".SA", aliases := ["BVMF", "BOVESPA"] },
   { code := "LSE", yahooSuffix := ".L", aliases := ["XLON", "LON"] },
   { code := "XETRA", yahooSuffix := ".DE", aliases := ["XETR", "FRA", "FSE"] },
   { code := "EURONEXT", yahooSuffix := ".PA", aliases := ["XPAR", "EPA", "PAR"] },
   { code := "SIX", yahooSuffix := ".SW", aliases := ["XSWX", "SWX"] },
   { code := "HKEX", yahooSuffix := ".HK", aliases := ["XHKG", "HKG", "SEHK", "HK", "港股"] },
   { code := "SSE", yahooSuffix := ".SS", aliases := ["XSHG", "SHA", "SH", "SHSE"] },
   { code := "SZSE", yahooSuffix := ".SZ", aliases := ["XSHE", "SHE", "SZ", "SZSC"] },
   { code := "TSE", yahooSuffix := ".T", aliases := ["XTKS", "JPX", "TYO"] },
   { code := "KRX", yahooSuffix := ".KS", aliases := ["XKRX", "KSE"] },
   { code := "TWSE", yahooSuffix := ".TW", aliases := ["XTAI", "TAI"] },
   { code := "SGX", yahooSuffix := ".SI", aliases := ["XSES"] },
   { code := "ASX", yahooSuffix := ".AX", aliases := ["XASX"] },
   { code := "NSE", yahooSuffix := ".NS", aliases := ["XNSE"] },
   { code := "INDEX" },
   { code := "FX", aliases := ["FOREX", "CURRENCY"] }]

def byCode (code : String) : Option VenueInfo := venues.find? fun v ↦ v.code = code

/-- The codes and the aliases in upper case; a later entry overrides an earlier one. -/
def aliasToCode : List (String × String) :=
  (venues.flatMap fun v ↦ (v.code :: v.aliases).map fun a ↦ (upper a, v.code)).reverse

def defaultUniverses : List (String × List String) :=
  [("BINANCE", ["BTCUSDT", "ETHUSDT"]),
   ("NYSE", ["JPM", "XOM", "BA", "V", "DIS", "JNJ", "WMT"]),
   ("NASDAQ", ["AAPL", "MSFT", "GOOGL", "NVDA", "AMZN", "META", "TSLA"]),
   ("AMEX", ["SPY", "GLD"]),
   ("TSX", ["RY", "SHOP", "ENB"]),
   ("B3", ["PETR4", "VALE3", "ITUB4"]),
   ("LSE", ["SHEL", "HSBA", "BP", "AZN"]),
   ("XETRA", ["SAP", "SIE", "ALV"]),
   ("EURONEXT", ["MC", "OR", "AIR"]),
   ("SIX", ["NESN", "ROG", "UBSG"]),
   ("HKEX", ["0700", "0941", "1299", "0388", "2318", "0005", "1810"]),
   ("SSE", ["600519", "601318", "600036", "601012", "600900", "601166"]),
   ("SZSE", ["000001", "300750", "002594", "000858", "002415", "300059"]),
   ("TSE", ["7203", "6758", "9984", "8306"]),
   ("KRX", ["005930", "000660"]),
   ("TWSE", ["2330", "2317"]),
   ("SGX", ["D05", "O39"]),
   ("ASX", ["BHP", "CBA", "CSL"]),
   ("NSE", ["RELIANCE", "TCS", "INFY"]),
   ("INDEX", ["^GSPC", "^DJI", "^IXIC", "^HSI", "^N225", "^FTSE", "^GDAXI", "^FCHI", "000001.SS",
      "399001.SZ"]),
   ("FX", ["USDCNY", "USDHKD", "EURUSD"])]

def etfUniverses : List (String × List String) :=
  [("NYSE", ["SPY", "IVV", "VOO", "IWM", "GLD", "SLV", "TLT", "HYG", "EEM", "VTI"]),
   ("NASDAQ", ["QQQ", "TQQQ", "SQQQ", "IBIT"]),
   ("AMEX", ["SPY", "GLD"]),
   ("SSE", ["510050", "510300", "510500", "588000", "511010", "512100"]),
   ("SZSE", ["159915", "159919", "159922", "159901", "159949"]),
   ("HKEX", ["2800", "2828", "3067", "3033", "2801"])]

def marketGroups : List (String × List String) :=
  [("ASHARE", ["SSE", "SZSE"]),
   ("US", ["NASDAQ", "NYSE", "AMEX"]),
   ("HK", ["HKEX"]),
   ("ETF", ["NYSE", "NASDAQ", "SSE", "SZSE", "HKEX"])]

def marketGroupAliases : List (String × String) :=
  [("ASHARE", "ASHARE"), ("ASHARES", "ASHARE"), ("A", "ASHARE"), ("CN", "ASHARE"),
   ("A股", "ASHARE"), ("沪深", "ASHARE"), ("US", "US"), ("USA", "US"), ("美股", "US"), ("HK", "HK"),
   ("港股", "HK"), ("HONGKONG", "HK"), ("ETF", "ETF"), ("ETFS", "ETF")]

/-! ## Venues and groups -/

/-- A name as it stands, and in upper case where it is not found so. -/
def lookupName {α : Type} (table : List (String × α)) (raw : String) : Option α :=
  (table.lookup raw).or (table.lookup (upper raw))

/-- The code of a market group. -/
def resolveMarketGroup (code : String) : Option String :=
  let raw := strip code
  if raw = "" then none else lookupName marketGroupAliases raw

/-- The venue of a code or of an alias. -/
def resolveVenue (code : String) : Except VenueError VenueInfo :=
  let raw := strip code
  if raw = "" then .error .emptyVenue
  else match (lookupName aliasToCode raw).bind byCode with
    | some info => .ok info
    | none => match resolveMarketGroup code with
      | some group => .error (.marketGroup code ((marketGroups.lookup group).getD []))
      | none => .error (.unknownVenue code (venues.map VenueInfo.code))

def getVenue (code : String) : Option VenueInfo := (resolveVenue code).toOption

/-! ## Tickers -/

/-- Numeric codes are padded: to four digits in Hong Kong, to six on the mainland. -/
def padCode (code body : String) : String :=
  if isDigit body then
    if code = "HKEX" then zfill 4 body
    else if code = "SSE" ∨ code = "SZSE" then zfill 6 body
    else body
  else body

/-- The exchange of a suffix, if the ticker has one that is known, and what is before it. -/
def suffixForm (ticker : String) : Option (Option String × String) :=
  if '.' ∈ ticker.toList ∧ ¬ startsWith ticker "." then
    let (body, suf) := rpartition '.' ticker
    if suf = "SS" ∨ suf = "SH" then some (some "SSE", body)
    else if suf = "SZ" then some (some "SZSE", body)
    else if suf = "HK" then some (some "HKEX", padCode "HKEX" body)
    else if suf ∈ ["L", "T", "TO", "DE", "PA", "AX", "NS", "KS", "TW", "SI", "SA", "SW"] then
      some (none, body)
    else none
  else none

def prefixes : List (String × String) :=
  [("sh.", "SSE"), ("ss.", "SSE"), ("sz.", "SZSE"), ("hk.", "HKEX"), ("sh", "SSE"), ("ss", "SSE"),
   ("sz", "SZSE"), ("hk", "HKEX")]

/-- The exchange of a prefix, and what is after it, if anything is. -/
def prefixForm (low : String) (entry : String × String) : Option (String × String) :=
  if startsWith low entry.1 ∧ low.toList.length > entry.1.toList.length then
    let body := upper (lstrip '.' (dropFirst entry.1.toList.length low))
    if body = "" then none else some (entry.2, padCode entry.2 body)
  else none

/-- The exchange a ticker carries, if it carries one, and what is left of the ticker. -/
def parseUserSymbol (symbol : String) : Except VenueError (Option String × String) :=
  let raw := strip symbol
  if raw = "" then .error .emptySymbol
  else if startsWith raw "^" then .ok (some "INDEX", upper raw)
  else match suffixForm (upper raw) with
    | some parsed => .ok parsed
    | none => match prefixes.findSome? (prefixForm (remove ' ' (lower raw))) with
      | some (venue, body) => .ok (some venue, body)
      | none => .ok (none, upper raw)

/-- The key of a parsed ticker in the lake. -/
def lakeBody (venue body : String) : String :=
  if startsWith body "^" then body
  else match getVenue venue with
    | none => body
    | some info =>
      if info.code = "FX" then removeSuffix body "=X"
      else padCode info.code (if info.yahooSuffix = "" then body
        else removeSuffix body (upper info.yahooSuffix))

/-- The key of a ticker in the lake. -/
def lakeSymbol (venue symbol : String) : Except VenueError String :=
  (parseUserSymbol symbol).map fun parsed ↦ lakeBody venue parsed.2

/-! ## Listings -/

/-- Infer the mainland exchange of a numeric code. -/
def inferAshareVenue (symbol : String) : Except VenueError String :=
  let ticker := upper (strip symbol)
  let raw := if endsWith ticker ".SS" then dropLast 3 ticker
    else if endsWith ticker ".SZ" then dropLast 3 ticker
    else ticker
  if isDigit raw = false ∨ raw.toList.length > 6 then .error (.cannotInferSymbol symbol)
  else
    let body := zfill 6 raw
    match body.toList.head? with
    | some lead =>
      if lead = '5' ∨ lead = '6' then .ok "SSE"
      else if lead = '0' ∨ lead = '1' ∨ lead = '2' ∨ lead = '3' then .ok "SZSE"
      else .error (.cannotInferCode body)
    | none => .error (.cannotInferCode body)

/-- A listing on a venue. -/
def listing (venue body : String) : Except VenueError (String × String) :=
  (lakeSymbol venue body).map fun key ↦ (venue, key)

/-- Whether an exchange that the ticker carries wins over what was asked for. -/
def wins (group : Option String) (inferred : String) : Bool :=
  if inferred = "INDEX" then false
  else match group with
    | none => true
    | some group =>
      if inferred ∈ (marketGroups.lookup group).getD [] ∨ group ∈ ["ETF", "ASHARE", "US", "HK"] then
        if group = "ASHARE" ∧ inferred ∉ ["SSE", "SZSE"] then false
        else if group = "US" ∧ inferred ∉ ["NYSE", "NASDAQ", "AMEX"] then false
        else if group = "HK" ∧ inferred ≠ "HKEX" then false
        else true
      else false

/-- Whether a ticker is in a universe of the venue. -/
def known (body venue : String) : Bool :=
  body ∈ (defaultUniverses.lookup venue).getD [] ∨ body ∈ (etfUniverses.lookup venue).getD []

/-- Route within the group of the exchange-traded funds: by the number of digits, then by the
universes. A code of at most four digits has at most four without its leading zeros. -/
def routeEtf (symbol body : String) : Except VenueError (String × String) :=
  let bare := firstPart '.' body
  let mainland := if isDigit bare ∧ bare.toList.length ≥ 5 then (inferAshareVenue bare).toOption
    else none
  match mainland with
  | some venue => listing venue bare
  | none =>
    if isDigit bare ∧ bare.toList.length ≤ 4 then listing "HKEX" bare
    else match ["NYSE", "NASDAQ", "AMEX"].find? (known body) with
      | some venue => listing venue body
      | none => .error (.cannotRouteEtf symbol)

/-- Route within a market group. -/
def routeGroup (group symbol body : String) : Except VenueError (String × String) :=
  if group = "HK" then listing "HKEX" body
  else if group = "ASHARE" then (inferAshareVenue body).bind fun venue ↦ listing venue body
  else if group = "US" then
    listing ((["NYSE", "AMEX", "NASDAQ"].find? (known body)).getD "NASDAQ") body
  else if group = "ETF" then routeEtf symbol body
  else .error (.unhandledGroup group)

/-- The venue and the key of a ticker that is asked for on a venue or in a group. -/
def resolveListing (venue symbol : String) : Except VenueError (String × String) :=
  let raw := strip symbol
  if raw = "" then .error .emptySymbol
  else (parseUserSymbol raw).bind fun (inferred, body) ↦
    let group := resolveMarketGroup venue
    match inferred.filter (wins group) with
    | some exchange => listing exchange body
    | none => match group with
      | none => (resolveVenue venue).bind fun info ↦ listing info.code body
      | some group => routeGroup group symbol body

example : resolveListing "ASHARE" "sh600519" = .ok ("SSE", "600519") := by decide

example : resolveListing "港股" "700" = .ok ("HKEX", "0700") := by decide

end Venues

end Coinext
