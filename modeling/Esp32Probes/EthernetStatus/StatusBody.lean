import Esp32Probes.Lib.Printf
import Esp32Probes.Lib.Json
import Esp32Probes.Lib.DottedQuad

/-!
# `EthernetStatus.StatusBody` — the JSON body of the HTTP status endpoint

`status_get_handler` formats one JSON object into `body[384]`, ignores what `snprintf` returns, and sends what
`strlen` finds. A body that were cut off, or that contained a NUL, would be sent as it is.

`statusObject` says what the body means: the JSON object with the device's status. `statusText_eq` shows that
the format string of the code prints exactly this object, for all values of its fields, and
`length_statusText_le` that the longest one leaves room. So the buffer is sent whole and
`decodeStatus` recovers every field (`status_body_exact`).

The macros `IPSTR` and `IP2STR` belong to a library whose source is not part of the repository. What
the handler relies on is the structure `EspNetif`: together they format an address in dotted notation.
-/

namespace Esp32Probes
namespace EthernetStatus

open Printf Decimal DottedQuad

/-! ## The handler -/

/-- The library's format for addresses: `IPSTR`, and the arguments `IP2STR` makes of an address. -/
structure EspNetif where
  ipstr   : List Char
  ip2str  : UInt32 → List Arg
  /-- An address is printed in dotted notation, its bytes in memory order. -/
  dotted  : ∀ a, format ipstr (ip2str a) = some (dottedQuad a)

/-- One part of an address, printed by `%d`. -/
theorem convert_octet (a : UInt32) (i : Nat) :
    convert 'd' (.int (Int32.ofNat (octet a i))) = some (Nat.toDigits 10 (octet a i)) := by
  have hlt := octet_lt a i
  have hval : (Int32.ofNat (octet a i)).toInt = octet a i := Int32.toInt_ofNat_of_lt (by omega)
  show some (signed (Int32.ofNat (octet a i)).toInt) = _
  rw [hval, signed_natCast]

/-- The macros as the library documents them. -/
def EspNetif.reference : EspNetif where
  ipstr := "%d.%d.%d.%d".toList
  ip2str a := [.int (Int32.ofNat (octet a 0)), .int (Int32.ofNat (octet a 1)),
    .int (Int32.ofNat (octet a 2)), .int (Int32.ofNat (octet a 3))]
  dotted a := by
    have hpart : ∀ i, format ['%', 'd', '.'] [.int (Int32.ofNat (octet a i))]
        = some (Nat.toDigits 10 (octet a i) ++ ['.']) := fun i =>
      format_one (f := []) (by decide) (by decide) (convert_octet a i)
    have hlast : format ['%', 'd'] [.int (Int32.ofNat (octet a 3))]
        = some (Nat.toDigits 10 (octet a 3) ++ []) :=
      format_one (f := []) (by decide) (by decide) (convert_octet a 3)
    have h := format_append (hpart 0) (format_append (hpart 1) (format_append (hpart 2) hlast))
    refine Eq.trans h ?_
    simp [dottedQuad]

/-- What the handler reads: `s_link_up`, the three addresses of `s_ip_info`, the time since boot in
    microseconds and the free sizes of the two heaps. -/
structure Readings where
  linkUp    : Bool
  ip        : UInt32
  netmask   : UInt32
  gw        : UInt32
  time      : Int64
  freeHeap  : UInt32
  freePsram : UInt32

/-- What the handler reports. -/
structure Status where
  linkUp    : Bool
  ip        : UInt32
  netmask   : UInt32
  gw        : UInt32
  uptimeS   : Int32
  freeHeap  : UInt32
  freePsram : UInt32
  deriving DecidableEq

/-- `uptime_s = (int)(esp_timer_get_time() / 1000000)`. -/
def Readings.status (r : Readings) : Status :=
  ⟨r.linkUp, r.ip, r.netmask, r.gw, (r.time / 1000000).toInt32, r.freeHeap, r.freePsram⟩

/-- The format string. -/
def statusFormat (ipstr : List Char) : List Char :=
  "\x7b".toList ++
  "\"device\":\"waveshare-esp32-s3-eth\",".toList ++
  "\"probe\":\"ethernet_status\",".toList ++
  "\"link_up\":%s,".toList ++
  ("\"ip\":\"".toList ++ ipstr ++ "\",".toList) ++
  ("\"netmask\":\"".toList ++ ipstr ++ "\",".toList) ++
  ("\"gateway\":\"".toList ++ ipstr ++ "\",".toList) ++
  "\"uptime_s\":%d,".toList ++
  "\"free_heap\":%u,".toList ++
  "\"psram_initialized\":%s,".toList ++
  "\"free_psram\":%u".toList ++
  "\x7d\n".toList

/-- How a truth value is printed. -/
def boolText (b : Bool) : List Char := if b then "true".toList else "false".toList

/-- The arguments behind the format string. -/
def statusArgs (N : EspNetif) (st : Status) : List Arg :=
  [.str (boolText st.linkUp)] ++
  N.ip2str st.ip ++
  N.ip2str st.netmask ++
  N.ip2str st.gw ++
  [.int st.uptimeS] ++
  [.uint st.freeHeap] ++
  [.str (boolText (st.freePsram > 0))] ++
  [.uint st.freePsram]

/-- The text that `snprintf` is asked to write. -/
def statusText (N : EspNetif) (st : Status) : Option (List Char) :=
  format (statusFormat N.ipstr) (statusArgs N st)

/-- The response: the type that is set, and the bytes passed to `httpd_resp_send`. -/
structure Response where
  contentType : String
  body        : List Char
  deriving DecidableEq

/-- `status_get_handler`. `body` is the uninitialised `char body[384]`. -/
def statusGetHandler (N : EspNetif) (r : Readings) (body : Vector Char 384) : Option Response := do
  let text ← statusText N r.status
  let body := snprintf body.toList text
  return ⟨"application/json", cString body⟩

/-! ## What the body means -/

/-- A key or a constant text. -/
def key (s : String) (h : ∀ c ∈ s.toList, Json.Plain c := by decide) : Json.Text := ⟨s.toList, h⟩

/-- The text of an address needs no escapes. -/
theorem plain_dottedQuad (a : UInt32) : ∀ c ∈ dottedQuad a, Json.Plain c := by
  intro c hc
  rcases mem_dottedQuad hc with rfl | hd
  · decide
  · have hp := Json.printable_of_isDigit hd
    refine ⟨hp.1, hp.2, ?_, ?_⟩
    · rintro rfl; exact absurd hd (by decide)
    · rintro rfl; exact absurd hd (by decide)

/-- An address as a text of JSON. -/
def addressText (a : UInt32) : Json.Text := ⟨dottedQuad a, plain_dottedQuad a⟩

/-- The JSON object that reports a status. -/
def statusObject (st : Status) : Json.FlatObject :=
  [(key "device", .text (key "waveshare-esp32-s3-eth")),
   (key "probe", .text (key "ethernet_status")),
   (key "link_up", .bool st.linkUp),
   (key "ip", .text (addressText st.ip)),
   (key "netmask", .text (addressText st.netmask)),
   (key "gateway", .text (addressText st.gw)),
   (key "uptime_s", .int st.uptimeS.toInt),
   (key "free_heap", .int st.freeHeap.toNat),
   (key "psram_initialized", .bool (st.freePsram > 0)),
   (key "free_psram", .int st.freePsram.toNat)]

theorem printScalar_bool (b : Bool) : Json.printScalar (.bool b) = boolText b := by
  cases b <;> rfl

-- the last step compares some two hundred characters one by one
set_option maxRecDepth 2000 in
/-- **The format string prints the object**, and a line break behind it. -/
theorem statusText_eq (N : EspNetif) (st : Status) :
    statusText N st = some (Json.print (statusObject st) ++ ['\n']) := by
  -- the pieces of the format string, each with its arguments
  have haddress : ∀ (f : List Char) (a : UInt32), '%' ∉ f →
      format (f ++ N.ipstr ++ "\",".toList) (N.ip2str a) = some (f ++ dottedQuad a ++ "\",".toList) := by
    intro f a hf
    have h := format_append (format_append (format_literal hf) (N.dotted a))
      (format_literal (f := "\",".toList) (by decide))
    rwa [List.nil_append, List.append_nil] at h
  have hopen := format_literal (f := "\x7b".toList ++ "\"device\":\"waveshare-esp32-s3-eth\",".toList ++
    "\"probe\":\"ethernet_status\",".toList) (by decide)
  have hlink := format_one (f := "\"link_up\":".toList) (g := ",".toList) (d := 's')
    (a := .str (boolText st.linkUp)) (by decide) (by decide) rfl
  have hip := haddress "\"ip\":\"".toList st.ip (by decide)
  have hnetmask := haddress "\"netmask\":\"".toList st.netmask (by decide)
  have hgw := haddress "\"gateway\":\"".toList st.gw (by decide)
  have huptime := format_one (f := "\"uptime_s\":".toList) (g := ",".toList) (d := 'd')
    (a := .int st.uptimeS) (by decide) (by decide) rfl
  have hheap := format_one (f := "\"free_heap\":".toList) (g := ",".toList) (d := 'u')
    (a := .uint st.freeHeap) (by decide) (by decide) rfl
  have hinit := format_one (f := "\"psram_initialized\":".toList) (g := ",".toList) (d := 's')
    (a := .str (boolText (st.freePsram > 0))) (by decide) (by decide) rfl
  have hpsram := format_one (f := "\"free_psram\":".toList) (g := []) (d := 'u')
    (a := .uint st.freePsram) (by decide) (by decide) rfl
  have hclose := format_literal (f := "\x7d\n".toList) (by decide)
  have h := format_append (format_append (format_append (format_append (format_append (format_append
    (format_append (format_append (format_append hopen hlink) hip) hnetmask) hgw) huptime) hheap) hinit)
    hpsram) hclose
  rw [List.nil_append, List.append_nil] at h
  refine Eq.trans h ?_
  -- both sides are now a chain of constant and of variable pieces; the constant ones agree by evaluation
  simp only [statusObject, Json.print, Json.printMembers, Json.printMember, printScalar_bool,
    Json.printScalar_int, Json.printScalar_text, signed_natCast, Json.quote, List.append_assoc,
    List.cons_append, List.nil_append]
  rfl

/-! ## The length of the body -/

theorem length_boolText_le (b : Bool) : (boolText b).length ≤ 5 := by
  cases b <;> decide

/-- The longest body has 253 characters. -/
theorem length_statusText_le {N : EspNetif} {st : Status} {text : List Char}
    (h : statusText N st = some text) : text.length ≤ 253 := by
  rw [statusText_eq] at h
  cases h
  have hlink := length_boolText_le st.linkUp
  have hip := length_dottedQuad_le st.ip
  have hnetmask := length_dottedQuad_le st.netmask
  have hgw := length_dottedQuad_le st.gw
  have huptime : (signed st.uptimeS.toInt).length ≤ 11 := by
    have hlow : -2147483648 ≤ st.uptimeS.toInt := st.uptimeS.minValue_le_toInt
    have hhigh : st.uptimeS.toInt < 2147483648 := st.uptimeS.toInt_lt
    exact length_signed_le (by omega) (by omega)
  have hsize : ∀ n : UInt32, (Nat.toDigits 10 n.toNat).length ≤ 10 := by
    intro n
    have hn : n.toNat < 4294967296 := n.toNat_lt
    exact length_toDigits_le (by omega) (by omega)
  have hheap := hsize st.freeHeap
  have hinit := length_boolText_le (st.freePsram > 0)
  have hpsram := hsize st.freePsram
  simp only [statusObject, Json.print, Json.printMembers, Json.printMember, printScalar_bool,
    Json.printScalar_int, Json.printScalar_text, signed_natCast, Json.quote, key, addressText,
    List.length_append, List.length_cons, List.length_nil]
  have hkeys : "device".toList.length = 6 ∧ "waveshare-esp32-s3-eth".toList.length = 22 ∧
      "probe".toList.length = 5 ∧ "ethernet_status".toList.length = 15 ∧ "link_up".toList.length = 7 ∧
      "ip".toList.length = 2 ∧ "netmask".toList.length = 7 ∧ "gateway".toList.length = 7 ∧
      "uptime_s".toList.length = 8 ∧ "free_heap".toList.length = 9 ∧
      "psram_initialized".toList.length = 17 ∧ "free_psram".toList.length = 10 := by decide
  omega

/-! ## Reading a body -/

/-- A truth value of the object. -/
def asBool : Json.Scalar → Option Bool
  | .bool b => some b
  | _ => none

/-- An address of the object. -/
def asAddress : Json.Scalar → Option UInt32
  | .text t => readQuad t.chars
  | _ => none

/-- A signed number of the object. -/
def asInt32 : Json.Scalar → Option Int32
  | .int i => if -2147483648 ≤ i ∧ i < 2147483648 then some (Int32.ofInt i) else none
  | _ => none

/-- An unsigned number of the object. -/
def asUInt32 : Json.Scalar → Option UInt32
  | .int i => if 0 ≤ i ∧ i < 4294967296 then some (UInt32.ofNat i.toNat) else none
  | _ => none

/-- A reader of the endpoint: parse one JSON object and a line break, and look up the fields by their keys.
    The result is the status and the flag `psram_initialized`. -/
def decodeStatus (cs : List Char) : Option (Status × Bool) := do
  let (o, rest) ← Json.parse cs
  if rest = ['\n'] then
    let linkUp ← (o.lookup (key "link_up")).bind asBool
    let ip ← (o.lookup (key "ip")).bind asAddress
    let netmask ← (o.lookup (key "netmask")).bind asAddress
    let gw ← (o.lookup (key "gateway")).bind asAddress
    let uptimeS ← (o.lookup (key "uptime_s")).bind asInt32
    let freeHeap ← (o.lookup (key "free_heap")).bind asUInt32
    let psramInitialized ← (o.lookup (key "psram_initialized")).bind asBool
    let freePsram ← (o.lookup (key "free_psram")).bind asUInt32
    return (⟨linkUp, ip, netmask, gw, uptimeS, freeHeap, freePsram⟩, psramInitialized)
  else none

theorem asInt32_toInt (i : Int32) : asInt32 (.int i.toInt) = some i := by
  have hlow : -2147483648 ≤ i.toInt := i.minValue_le_toInt
  have hhigh : i.toInt < 2147483648 := i.toInt_lt
  show (if -2147483648 ≤ i.toInt ∧ i.toInt < 2147483648 then some (Int32.ofInt i.toInt) else none) = some i
  rw [if_pos ⟨hlow, hhigh⟩, Int32.ofInt_toInt]

theorem asUInt32_toNat (n : UInt32) : asUInt32 (.int n.toNat) = some n := by
  have hn : n.toNat < 4294967296 := n.toNat_lt
  show (if (0 : Int) ≤ n.toNat ∧ (n.toNat : Int) < 4294967296 then some (UInt32.ofNat (n.toNat : Int).toNat)
    else none) = some n
  rw [if_pos ⟨by omega, by omega⟩, Int.toNat_natCast, UInt32.ofNat_toNat]

/-- Keys are compared as strings. -/
theorem key_beq (s t : String) (hs : ∀ c ∈ s.toList, Json.Plain c) (ht : ∀ c ∈ t.toList, Json.Plain c) :
    (key s hs == key t ht) = (s == t) := by
  rw [Bool.eq_iff_iff, beq_iff_eq, beq_iff_eq]
  constructor
  · intro h
    exact String.toList_inj.mp (congrArg Json.Text.chars h)
  · rintro rfl
    rfl

/-- The members of an object report the status `st`. -/
structure Reports (o : Json.FlatObject) (st : Status) : Prop where
  linkUp           : o.lookup (key "link_up") = some (.bool st.linkUp)
  ip               : o.lookup (key "ip") = some (.text (addressText st.ip))
  netmask          : o.lookup (key "netmask") = some (.text (addressText st.netmask))
  gateway          : o.lookup (key "gateway") = some (.text (addressText st.gw))
  uptimeS          : o.lookup (key "uptime_s") = some (.int st.uptimeS.toInt)
  freeHeap         : o.lookup (key "free_heap") = some (.int st.freeHeap.toNat)
  psramInitialized : o.lookup (key "psram_initialized") = some (.bool (st.freePsram > 0))
  freePsram        : o.lookup (key "free_psram") = some (.int st.freePsram.toNat)

theorem reports_statusObject (st : Status) : Reports (statusObject st) st := by
  constructor <;> simp [statusObject, List.lookup_cons, key_beq]

theorem decodeStatus_of_reports {cs : List Char} {o : Json.FlatObject} {st : Status}
    (hparse : Json.parse cs = some (o, ['\n'])) (h : Reports o st) :
    decodeStatus cs = some (st, decide (st.freePsram > 0)) := by
  have hlink : (o.lookup (key "link_up")).bind asBool = some st.linkUp := by rw [h.linkUp]; rfl
  have hip : (o.lookup (key "ip")).bind asAddress = some st.ip := by
    rw [h.ip]; exact readQuad_dottedQuad st.ip
  have hnetmask : (o.lookup (key "netmask")).bind asAddress = some st.netmask := by
    rw [h.netmask]; exact readQuad_dottedQuad st.netmask
  have hgw : (o.lookup (key "gateway")).bind asAddress = some st.gw := by
    rw [h.gateway]; exact readQuad_dottedQuad st.gw
  have huptime : (o.lookup (key "uptime_s")).bind asInt32 = some st.uptimeS := by
    rw [h.uptimeS, Option.bind_some, asInt32_toInt]
  have hheap : (o.lookup (key "free_heap")).bind asUInt32 = some st.freeHeap := by
    rw [h.freeHeap, Option.bind_some, asUInt32_toNat]
  have hinit : (o.lookup (key "psram_initialized")).bind asBool = some (decide (st.freePsram > 0)) := by
    rw [h.psramInitialized]; rfl
  have hpsram : (o.lookup (key "free_psram")).bind asUInt32 = some st.freePsram := by
    rw [h.freePsram, Option.bind_some, asUInt32_toNat]
  unfold decodeStatus
  rw [hparse]
  simp only [hlink, hip, hnetmask, hgw, huptime, hheap, hinit, hpsram, if_true, Option.bind_eq_bind,
    Option.bind_some, Option.pure_def]

/-- **The body is read back.** -/
theorem decodeStatus_print (st : Status) :
    decodeStatus (Json.print (statusObject st) ++ ['\n']) = some (st, decide (st.freePsram > 0)) :=
  decodeStatus_of_reports (Json.parse_print _ _) (reports_statusObject st)

/-! ## The body that is sent -/

/-- The seconds since boot, as long as they fit an `int`. -/
theorem toInt_uptimeS (r : Readings)
    (h : -2147483648 ≤ (r.time / 1000000).toInt ∧ (r.time / 1000000).toInt < 2147483648) :
    r.status.uptimeS.toInt = (r.time / 1000000).toInt := by
  show (r.time / 1000000).toInt32.toInt = _
  rw [Int64.toInt_toInt32]
  exact Int.bmod_eq_of_le (by omega) (by omega)

theorem nul_not_mem_body (o : Json.FlatObject) : '\x00' ∉ Json.print o ++ ['\n'] := by
  intro hmem
  rcases List.mem_append.mp hmem with h | h
  · exact absurd (Json.printable_print o _ h) (by decide)
  · exact absurd h (by decide)

/-- **The handler sends the whole object**, whatever its buffer held before. -/
theorem statusGetHandler_eq (N : EspNetif) (r : Readings) (body : Vector Char 384) :
    statusGetHandler N r body = some ⟨"application/json", Json.print (statusObject r.status) ++ ['\n']⟩ := by
  have heq := statusText_eq N r.status
  have hlen := length_statusText_le heq
  have hfit : (Json.print (statusObject r.status) ++ ['\n']).length < body.toList.length := by
    rw [Vector.length_toList]; omega
  unfold statusGetHandler
  rw [heq]
  simp only [cString_snprintf hfit (nul_not_mem_body _), Option.bind_eq_bind, Option.bind_some,
    Option.pure_def]

/-- **The status body is sent whole and loses no information.** For all readings and whatever the buffer
    held before: the text fits the 384 bytes with its NUL, it is one JSON object and a line break, it
    contains no NUL, it is sent as it is, and decoding it gives the status (with the seconds since boot, as
    long as they fit an `int`), with `psram_initialized` true exactly if there is free PSRAM. So different
    statuses never give the same body. -/
theorem status_body_exact (N : EspNetif) (r : Readings) (body : Vector Char 384) :
    ∃ text, statusText N r.status = some text ∧
      text.length + 1 ≤ 384 ∧
      snprintf body.toList text = text ++ '\x00' :: body.toList.drop (text.length + 1) ∧
      (∃ obj, text = obj ++ ['\n'] ∧ Json.IsObject obj) ∧
      '\x00' ∉ text ∧
      statusGetHandler N r body = some ⟨"application/json", text⟩ ∧
      (-2147483648 ≤ (r.time / 1000000).toInt ∧ (r.time / 1000000).toInt < 2147483648 →
        r.status.uptimeS.toInt = (r.time / 1000000).toInt) ∧
      decodeStatus text = some (r.status, decide (r.status.freePsram > 0)) ∧
      ∀ (r' : Readings) (body' : Vector Char 384), statusGetHandler N r' body' = statusGetHandler N r body →
        r'.status = r.status := by
  have heq := statusText_eq N r.status
  have hlen := length_statusText_le heq
  have hfit : (Json.print (statusObject r.status) ++ ['\n']).length < body.toList.length := by
    rw [Vector.length_toList]; omega
  refine ⟨_, heq, by omega, snprintf_fits hfit, ⟨_, rfl, Json.isObject_print _⟩, nul_not_mem_body _,
    statusGetHandler_eq N r body, toInt_uptimeS r, decodeStatus_print r.status, ?_⟩
  intro r' body' hsame
  -- the two bodies are the same text, which is read back to either status
  rw [statusGetHandler_eq, statusGetHandler_eq] at hsame
  have htext := congrArg Response.body (Option.some.inj hsame)
  have hread := congrArg decodeStatus htext
  rw [decodeStatus_print, decodeStatus_print] at hread
  exact congrArg Prod.fst (Option.some.inj hread)

/-- A device at 192.168.1.50, up for an hour, without PSRAM. -/
def sampleReadings : Readings := ⟨true, 0x3201A8C0, 0x00FFFFFF, 0x0101A8C0, 3600000000, 250000, 0⟩

theorem status_body_sample :
    ∃ text, statusGetHandler .reference sampleReadings (Vector.replicate 384 'x')
        = some ⟨"application/json", text⟩ ∧ text.length + 1 ≤ 384 ∧
      decodeStatus text = some (sampleReadings.status, false) := by
  obtain ⟨text, _, hfit, _, _, _, hsent, _, hread, _⟩ :=
    status_body_exact .reference sampleReadings (Vector.replicate 384 'x')
  exact ⟨text, hsent, hfit, hread⟩

end EthernetStatus
end Esp32Probes
