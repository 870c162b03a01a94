import PaymentRecon.Lib.Regex
import PaymentRecon.Model.Outbox

/-!
# Sms — reading a bank notification

`parse_sms_transaction` of `order/service.py` and the endpoint in front of it.  Characters are Unicode
code points; digits and white space are those of Python's `str`, that is, of the Unicode tables.
-/

namespace PaymentRecon

open Interleave Regex

/-! ## Characters -/

/-- The zeros of the decimal digits (general category Nd); each script has its ten digits in a row. -/
def decimalZeros : List ℕ :=
  [0x0030, 0x0660, 0x06F0, 0x07C0, 0x0966, 0x09E6, 0x0A66, 0x0AE6, 0x0B66, 0x0BE6, 0x0C66,
    0x0CE6, 0x0D66, 0x0DE6, 0x0E50, 0x0ED0, 0x0F20, 0x1040, 0x1090, 0x17E0, 0x1810, 0x1946,
    0x19D0, 0x1A80, 0x1A90, 0x1B50, 0x1BB0, 0x1C40, 0x1C50, 0xA620, 0xA8D0, 0xA900, 0xA9D0,
    0xA9F0, 0xAA50, 0xABF0, 0xFF10, 0x104A0, 0x10D30, 0x11066, 0x110F0, 0x11136, 0x111D0,
    0x112F0, 0x11450, 0x114D0, 0x11650, 0x116C0, 0x11730, 0x118E0, 0x11950, 0x11C50, 0x11D50,
    0x11DA0, 0x11F50, 0x16A60, 0x16AC0, 0x16B50, 0x1D7CE, 0x1D7D8, 0x1D7E2, 0x1D7EC, 0x1D7F6,
    0x1E140, 0x1E2F0, 0x1E4F0, 0x1E950, 0x1FBF0]

/-- The value of a decimal digit. -/
def digitValue (c : Char) : Option ℕ :=
  (decimalZeros.find? fun z => z ≤ c.toNat ∧ c.toNat < z + 10).map fun z => c.toNat - z

/-- `\d`. -/
def isDigit (c : Char) : Bool := (digitValue c).isSome

/-- `\s`. -/
def isSpace (c : Char) : Bool :=
  let n := c.toNat
  (9 ≤ n ∧ n ≤ 13) ∨ (28 ≤ n ∧ n ≤ 32) ∨ n = 0x85 ∨ n = 0xA0 ∨ n = 0x1680 ∨
    (0x2000 ≤ n ∧ n ≤ 0x200A) ∨ n = 0x2028 ∨ n = 0x2029 ∨ n = 0x202F ∨ n = 0x205F ∨ n = 0x3000

/-- `[\d,]`. -/
def isNumeral (c : Char) : Bool := isDigit c || c = ','

/-- `str.maketrans('۰۱۲۳۴۵۶۷۸۹', '0123456789')`. -/
def persianToEng (c : Char) : Char :=
  if 0x6F0 ≤ c.toNat ∧ c.toNat ≤ 0x6F9 then Char.ofNat (c.toNat - 0x6F0 + 0x30) else c

/-- `sys.get_int_max_str_digits()`. -/
def intMaxStrDigits : ℕ := 4300

def ValueError : Exc := ⟨.valueError, "invalid literal for int()"⟩

/-- `int(s)` of a string of decimal digits; there is neither a sign nor a space in what the pattern
captures. -/
def pyInt (s : List Char) : Except Exc ℤ :=
  match s.mapM digitValue with
  | some ds =>
    if ds = [] ∨ intMaxStrDigits < ds.length then .error ValueError
    else .ok (ds.foldl (fun n d => 10 * n + d) 0 : ℕ)
  | none => .error ValueError

/-! ## The notification -/

/-- `\s*`. -/
def spaces : Pattern := .many isSpace true

/-- `.*?` with `DOTALL`. -/
def anything : Pattern := .many (fun _ => true) false

/-- `\d{2}:\d{2}`. -/
def timePattern : Pattern := .seq (times isDigit 1) (literal [':'] (times isDigit 1))

/-- `\d{4}\.\d{2}\.\d{2}`. -/
def datePattern : Pattern :=
  .seq (times isDigit 3) (literal ['.'] (.seq (times isDigit 1) (literal ['.'] (times isDigit 1))))

/-- The pattern after the amount. -/
def afterAmount : Pattern :=
  .seq spaces (literal "ریال به حساب شما نشست.".toList (.seq anything (literal "موجودی:".toList
    (.seq spaces (.seq (.group "inventory" (plus isNumeral)) (.seq spaces (literal "ریال".toList
      (.seq anything (.seq (.group "time" timePattern) (.seq anything
        (.group "date" datePattern)))))))))))

def smsPattern : Pattern := .seq (.group "amount" (plus isNumeral)) afterAmount

/-- `data[name]` of the groups of a match. -/
def groupOf (data : Captures) (name : String) : List Char := (data.lookup name).getD []

/-- `None` when the text is no notification; `traceId` is the random trace id. -/
def parseSmsTransaction (content traceId : String) : Except Exc (Option SmsData) :=
  let cleanText := content.toList.map persianToEng
  match smsPattern.search cleanText with
  | none => .ok none
  | some data => do
    let amount ← pyInt ((groupOf data "amount").filter (· ≠ ','))
    let inventory ← pyInt ((groupOf data "inventory").filter (· ≠ ','))
    pure (some ⟨some traceId, some amount, some inventory, some (String.ofList (groupOf data "date")),
      some (String.ofList (groupOf data "time")), some content⟩)

/-- The endpoint `POST /orders/transaction`; `authorized` says that the token is the expected one. -/
def receiveContent (authorized : Bool) (content traceId : String) : App Response :=
  if authorized = false then withDb (throw (httpException 401 "The TOKEN is invalid"))
  else if content = "" then withDb (throw (httpException 400 "The content is required"))
  else
    match parseSmsTransaction content traceId with
    | .error e => withDb (throw e)
    | .ok none => withDb (throw (httpException 400 "The sms format isn't valid"))
    | .ok (some smsData) => receiveTransaction smsData

end PaymentRecon
