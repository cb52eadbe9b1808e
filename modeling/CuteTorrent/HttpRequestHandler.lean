import CuteTorrent.ApplicationSettings

/-! Requests and responses of the web control, and the digest check
`HttpRequestHandler::CheckCreditinals`. -/
namespace CuteTorrent
open QApplicationSettings

class Md5 where
  hash : QByteArray → QByteArray

def hexDigitValue (b : UInt8) : Option Nat :=
  let n := b.toNat
  if 48 ≤ n ∧ n ≤ 57 then some (n - 48)
  else if 97 ≤ n ∧ n ≤ 102 then some (n - 87)
  else if 65 ≤ n ∧ n ≤ 70 then some (n - 55)
  else none

def hexNumber (digits : QByteArray) : Option Nat :=
  if digits = [] then none
  else digits.foldlM (fun n b => (hexDigitValue b).map fun d => 16 * n + d) 0

/-- `toInt(&ok, 16)` of at most two bytes, as a `char`. -/
def hexByte (s : QByteArray) : Option UInt8 :=
  match (cString s).dropWhile fun b => decide (b = 32 ∨ 9 ≤ b.toNat ∧ b.toNat ≤ 13) with
  | 45 :: digits => (hexNumber digits).map fun n => (256 - n).toUInt8
  | 43 :: digits => (hexNumber digits).map Nat.toUInt8
  | digits => (hexNumber digits).map Nat.toUInt8

def decodePercents : Nat → QByteArray → QByteArray
  | _, [] => []
  | skip + 1, _ :: s => decodePercents skip s
  | 0, b :: s =>
    match if b = 37 then hexByte (s.take 2) else none with
    | some byte => byte :: decodePercents 2 s
    | none => b :: decodePercents 0 s

def urlDecode (sourceUrl : QByteArray) : QByteArray :=
  decodePercents 0 (sourceUrl.map fun b => if b = 43 then 32 else b)

example : urlDecode (literal "/a+b%2f%zz%4") = literal "/a b/%zz\x04" := by decide

/-- A request that has been read; the path is the part before the question mark. -/
structure HttpRequest where
  method : QByteArray
  path : QByteArray
  headers : List (QByteArray × QByteArray)
  parameters : List (QByteArray × QByteArray)
  uploadedFiles : List (QByteArray × QByteArray)
  body : QByteArray
deriving DecidableEq

namespace HttpRequest

def getPath (r : HttpRequest) : QByteArray := urlDecode r.path

/-- `QMultiMap::value`: the entry inserted last. -/
def lastValue (name : QByteArray) (m : List (QByteArray × QByteArray)) : QByteArray :=
  (Assoc.find name m.reverse).getD []

def getHeader (r : HttpRequest) (name : String) : QByteArray := lastValue (literal name) r.headers

def getParameter (r : HttpRequest) (name : String) : QByteArray :=
  lastValue (literal name) r.parameters

def getUploadedFile (r : HttpRequest) (name : String) : Option QByteArray :=
  Assoc.find (literal name) r.uploadedFiles.reverse

end HttpRequest

/-- A byte array equals a literal up to its first zero byte. -/
def equalsLiteral (s : QByteArray) (text : String) : Bool := decide (cString s = literal text)

/-- `QByteArray::toUpper`, by Latin-1. -/
def toUpper (s : QByteArray) : QByteArray :=
  (cString s).map fun b =>
    if 97 ≤ b.toNat ∧ b.toNat ≤ 122 then b - 32
    else if 224 ≤ b.toNat ∧ b.toNat ≤ 254 ∧ b ≠ 247 then b - 32
    else if b = 255 then 120
    else if b = 181 then 156
    else b

/-- The status line goes out with the first part of the body. -/
structure HttpResponse where
  statusCode : Nat
  statusText : QByteArray
  headers : List (QByteArray × QByteArray)
  sent : Option (Nat × QByteArray)
  body : QByteArray
deriving DecidableEq

namespace HttpResponse

def initial : HttpResponse := ⟨200, literal "OK", [], none, []⟩

def setStatus (r : HttpResponse) (statusCode : Nat) (description : String) : HttpResponse :=
  { r with statusCode := statusCode, statusText := literal description }

def setHeader (r : HttpResponse) (name value : String) : HttpResponse :=
  { r with headers := Assoc.insert (literal name) (literal value) r.headers }

def write (r : HttpResponse) (data : QByteArray) : HttpResponse :=
  { r with
    sent := some (r.sent.getD (r.statusCode, r.statusText))
    body := r.body ++ data }

def status (r : HttpResponse) : Nat := (r.sent.getD (r.statusCode, r.statusText)).1

@[simp] theorem status_initial : initial.status = 200 := rfl

@[simp] theorem status_setStatus (statusCode : Nat) (description : String) :
    (initial.setStatus statusCode description).status = statusCode := rfl

@[simp] theorem status_setHeader (r : HttpResponse) (name value : String) :
    (r.setHeader name value).status = r.status := rfl

/-- The first part of the body fixes the status. -/
@[simp] theorem status_write (r : HttpResponse) (data : QByteArray) :
    (r.write data).status = r.status := by
  cases r.sent with
  | none => rfl
  | some line => rfl

end HttpResponse

structure Creditionals where
  username : QString
  password : QString
deriving DecidableEq

structure HttpRequestHandler where
  requireAuth : Bool
  account : Creditionals
deriving DecidableEq

namespace HttpRequestHandler

def serverName : QString := "WebControl".toList

def requireAuthKey : QString := "requireAuth".toList

def loginKey : QString := "webui_login".toList

def passwordKey : QString := "webui_password".toList

def initSettings (s : Settings) : HttpRequestHandler × Settings :=
  let (requireAuth, s) := valueBool s serverName requireAuthKey false
  let (username, s) := valueString s serverName loginKey "admin".toList
  let (password, s) := valueString s serverName passwordKey "admin".toList
  (⟨requireAuth, ⟨username, password⟩⟩, s)

/-- The setting WebControl/requireAuth is true. -/
def RequiresAuth (s : Settings) : Prop := (valueBool s serverName requireAuthKey false).1 = true

def LoginStored (s : Settings) : Prop :=
  (stored s serverName loginKey).isValid = true ∧ (stored s serverName passwordKey).isValid = true

theorem valueBool_of_requiresAuth {s : Settings} (h : RequiresAuth s) :
    valueBool s serverName requireAuthKey false = (true, s) := by
  by_cases hv : (stored s serverName requireAuthKey).isValid = true
  · rw [RequiresAuth] at h
    simp only [valueBool, value_of_isValid hv] at h ⊢
    rw [h]
  · rw [RequiresAuth, valueBool, value_of_not_isValid hv rfl] at h
    exact absurd h Bool.false_ne_true

theorem initSettings_snd_eq_iff {s : Settings} (h : RequiresAuth s) :
    (initSettings s).2 = s ↔ LoginStored s := by
  let admin : QVariant := .string "admin".toList
  have hread : (initSettings s).2 =
      (value (value s serverName loginKey admin).2 serverName passwordKey admin).2 := by
    rw [initSettings, valueBool_of_requiresAuth h]
    rfl
  constructor
  · intro he
    have hlogin : (stored (value s serverName loginKey admin).2 serverName loginKey).isValid = true :=
      isValid_value_self s serverName loginKey rfl
    have hkept : (stored (initSettings s).2 serverName loginKey).isValid = true := by
      rw [hread]
      exact isValid_value_snd hlogin admin
    have hpassword : (stored (initSettings s).2 serverName passwordKey).isValid = true := by
      rw [hread]
      exact isValid_value_self _ serverName passwordKey rfl
    rw [he] at hkept hpassword
    exact ⟨hkept, hpassword⟩
  · intro hstored
    rw [hread, value_of_isValid hstored.1, value_of_isValid hstored.2]

/-- One entry of the parameter map; only what has a single `=` is trimmed. -/
def parameter (part : QString) : QString × QString :=
  match part.splitOn '=' with
  | [key, value] => (trimmed key, replaceChar '"' [] (trimmed value))
  | key :: values => (key, replaceChar '"' [] (['='].intercalate values))
  | [] => ([], [])

def parametrs (autorization : QString) : List (QString × QString) :=
  let method := (autorization.splitOn ' ').headD []
  let paremaetrsParts := (autorization.drop method.length).splitOn ','
  paremaetrsParts.foldl (fun m part => Assoc.insert (parameter part).1 (parameter part).2 m) []

def field (m : List (QString × QString)) (key : String) : QString :=
  (Assoc.find key.toList m).getD []

theorem find_initSettings {group : QString} (h : group ≠ serverName) (s : Settings) :
    Assoc.find group (initSettings s).2 = Assoc.find group s := by
  change Assoc.find group (value (value (value s _ _ _).2 _ _ _).2 _ _ _).2 = _
  rw [find_value_of_ne h, find_value_of_ne h, find_value_of_ne h]

theorem hex_of_mem {s : QByteArray} {c : Char} (h : c ∈ toHex s) :
    c ≠ ',' ∧ c ≠ '"' ∧ c ≠ '=' ∧ c ≠ ':' := by
  have hdigit : ∀ n < 16, hexDigit n ≠ ',' ∧ hexDigit n ≠ '"' ∧ hexDigit n ≠ '=' ∧
      hexDigit n ≠ ':' := by decide
  obtain ⟨n, hn, rfl⟩ := mem_toHex h
  exact hdigit n hn

theorem between_hex_inj {a a' b b' : QByteArray} (s s' : QString)
    (h : toHex a ++ ':' :: (s ++ ':' :: toHex b) = toHex a' ++ ':' :: (s' ++ ':' :: toHex b')) :
    a = a' ∧ s = s' ∧ b = b' := by
  have hcolon : ∀ r, ':' ∉ toHex r := fun r hr => (hex_of_mem hr).2.2.2 rfl
  obtain ⟨ha, hrest⟩ := append_cons_cancel (hcolon a) (hcolon a') h
  have hreverse := congrArg List.reverse hrest
  simp only [List.reverse_append, List.reverse_cons, List.append_assoc, List.singleton_append]
    at hreverse
  obtain ⟨hb, hs⟩ := append_cons_cancel (by simpa using hcolon b) (by simpa using hcolon b') hreverse
  exact ⟨toHex_injective ha, List.reverse_inj.mp hs, toHex_injective (List.reverse_inj.mp hb)⟩

section
variable [Md5]

def digest (password : QString) (method : QByteArray) (m : List (QString × QString)) : QByteArray :=
  let ha1 := Md5.hash (toUtf8 (field m "username" ++ ':' :: field m "realm" ++ ':' :: password))
  let ha2 := Md5.hash (method ++ 58 :: toUtf8 (field m "uri"))
  Md5.hash (toUtf8 (toHex ha1 ++ ':' :: field m "nonce" ++ ':' :: field m "nc" ++ ':' ::
    field m "cnonce" ++ ':' :: field m "qop" ++ ':' :: toHex ha2))

def challenge (r : HttpResponse) : HttpResponse :=
  r.setHeader "WWW-Authenticate" ("Digest realm=\"realm@host.com\",qop=\"auth,auth-int\"," ++
    "nonce=\"dcd98b7102dd2f0e8b11d0f600bfb0c093\",opaque=\"5ccc069c403ebaf9f0171e9517f40e41\"")

def unauthorizedBody : QByteArray := literal "<BODY><H1>401 Unauthorized.</H1></BODY>"

def unauthorized (r : HttpResponse) : HttpResponse :=
  (challenge (r.setStatus 401 "Unauthorized")).write unauthorizedBody

/-- The verdict, with the members and settings `initSettings` leaves. -/
def CheckCreditinals (p : Platform) (s : Settings) (request : HttpRequest) (response : HttpResponse) :
    Bool × HttpRequestHandler × Settings × HttpResponse :=
  let (handler, s) := initSettings s
  if handler.requireAuth then
    let autorization := p.fromCString (request.getHeader "Authorization")
    if autorization = [] then
      (false, handler, s, challenge (response.setStatus 401 "Not authoriarised"))
    else
      let m := parametrs autorization
      if field m "username" ≠ handler.account.username then
        (false, handler, s, unauthorized response)
      else if toHex (digest handler.account.password request.method m) ≠ field m "response" then
        (false, handler, s, unauthorized response)
      else (true, handler, s, response)
  else (true, handler, s, response)

def Valid (p : Platform) (account : Creditionals) (request : HttpRequest) : Prop :=
  let autorization := p.fromCString (request.getHeader "Authorization")
  let m := parametrs autorization
  autorization ≠ [] ∧ field m "username" = account.username ∧
    toHex (digest account.password request.method m) = field m "response"

instance (p : Platform) (account : Creditionals) (request : HttpRequest) :
    Decidable (Valid p account request) :=
  inferInstanceAs (Decidable (_ ∧ _))

theorem checkCreditinals_iff (p : Platform) (s : Settings) (request : HttpRequest)
    (response : HttpResponse) :
    (CheckCreditinals p s request response).1 = true ↔
      ((initSettings s).1.requireAuth = true → Valid p (initSettings s).1.account request) := by
  simp only [CheckCreditinals, Valid]
  split_ifs with hauth hempty huser hresponse
  · simp [hauth, hempty]
  · simp [hauth, huser]
  · simp [hauth, hresponse]
  · simp only [ne_eq, not_not] at huser hresponse
    simp [hempty, huser, hresponse]
  · simp [hauth]

def refusals : List HttpResponse :=
  [challenge (HttpResponse.initial.setStatus 401 "Not authoriarised"), unauthorized .initial]

theorem checkCreditinals_of_invalid {p : Platform} {s : Settings} {request : HttpRequest}
    (hauth : RequiresAuth s) (hv : ¬ Valid p (initSettings s).1.account request) :
    ∃ response ∈ refusals, CheckCreditinals p s request .initial =
      (false, (initSettings s).1, (initSettings s).2, response) := by
  have hrequire : (initSettings s).1.requireAuth = true := hauth
  simp only [CheckCreditinals, if_pos hrequire]
  split_ifs with hempty huser hresponse
  · exact ⟨_, List.mem_cons_self, rfl⟩
  · exact ⟨_, List.mem_cons_of_mem _ List.mem_cons_self, rfl⟩
  · exact ⟨_, List.mem_cons_of_mem _ List.mem_cons_self, rfl⟩
  · simp only [ne_eq, not_not] at huser hresponse
    exact absurd ⟨hempty, huser, hresponse⟩ hv

theorem checkCreditinals_of_accepted {p : Platform} {s : Settings} {request : HttpRequest}
    {response : HttpResponse} (h : (CheckCreditinals p s request response).1 = true) :
    CheckCreditinals p s request response = (true, (initSettings s).1, (initSettings s).2, response) := by
  rw [CheckCreditinals] at h ⊢
  dsimp only at h ⊢
  split_ifs at h ⊢ <;> rfl

theorem valid_congr {p : Platform} {account : Creditionals} {r r' : HttpRequest}
    (hheader : r.getHeader "Authorization" = r'.getHeader "Authorization")
    (hmethod : r.method = r'.method) : Valid p account r ↔ Valid p account r' := by
  simp only [Valid, hheader, hmethod]

theorem texts_of_digest (hmd5 : Function.Injective Md5.hash) {password password' : QString}
    {method method' : QByteArray} {m m' : List (QString × QString)}
    (h : digest password method m = digest password' method' m') :
    field m "username" ++ ':' :: field m "realm" ++ ':' :: password =
        field m' "username" ++ ':' :: field m' "realm" ++ ':' :: password' ∧
      method ++ 58 :: toUtf8 (field m "uri") = method' ++ 58 :: toUtf8 (field m' "uri") := by
  have htext := toUtf8_injective (hmd5 h)
  obtain ⟨hha1, -, hha2⟩ := between_hex_inj
    (field m "nonce" ++ ':' :: field m "nc" ++ ':' :: field m "cnonce" ++ ':' :: field m "qop")
    (field m' "nonce" ++ ':' :: field m' "nc" ++ ':' :: field m' "cnonce" ++ ':' :: field m' "qop")
    (by simpa only [List.append_assoc, List.cons_append] using htext)
  refine ⟨?_, hmd5 hha2⟩
  simpa only [List.append_assoc, List.cons_append] using toUtf8_injective (hmd5 hha1)

def autorizationField (p : Platform) (r : HttpRequest) (key : String) : QString :=
  field (parametrs (p.fromCString (r.getHeader "Authorization"))) key

section
variable {p : Platform} {account account' : Creditionals} {r r' : HttpRequest}
  (h : Valid p account r) (h' : Valid p account' r')
include h h'

theorem digest_of_valid
    (hresponse : autorizationField p r "response" = autorizationField p r' "response") :
    digest account.password r.method (parametrs (p.fromCString (r.getHeader "Authorization"))) =
      digest account'.password r'.method (parametrs (p.fromCString (r'.getHeader "Authorization"))) :=
  toHex_injective (h.2.2.trans (hresponse.trans h'.2.2.symm))

variable (hmd5 : Function.Injective Md5.hash)
include hmd5

theorem account_of_valid (hheader : r.getHeader "Authorization" = r'.getHeader "Authorization") :
    account = account' ∧ r.method = r'.method := by
  have hdigest := digest_of_valid h h' (by rw [autorizationField, autorizationField, hheader])
  rw [hheader] at hdigest
  obtain ⟨hsecret, htarget⟩ := texts_of_digest hmd5 hdigest
  have husername : account.username = account'.username := by
    rw [← h.2.1, ← h'.2.1, hheader]
  have hpassword : account.password = account'.password :=
    (List.cons.inj (List.append_cancel_left hsecret)).2
  refine ⟨?_, List.append_cancel_right htarget⟩
  cases account
  cases account'
  rw [Creditionals.mk.injEq]
  exact ⟨husername, hpassword⟩

theorem uri_of_valid
    (hresponse : autorizationField p r "response" = autorizationField p r' "response")
    (hmethod : r.method = r'.method) :
    autorizationField p r "uri" = autorizationField p r' "uri" := by
  have htarget := (texts_of_digest hmd5 (digest_of_valid h h' hresponse)).2
  rw [hmethod] at htarget
  exact toUtf8_injective (List.cons.inj (List.append_cancel_left htarget)).2

end

/-- A header is accepted on every path or on none. With authorization required, it is
accepted for one account and one method only, and its response with one uri. -/
theorem digest_bound (hmd5 : Function.Injective Md5.hash) (p : Platform) {r r' : HttpRequest}
    (response response' : HttpResponse) :
    (∀ s, r.getHeader "Authorization" = r'.getHeader "Authorization" → r.method = r'.method →
      (CheckCreditinals p s r response).1 = (CheckCreditinals p s r' response').1) ∧
    ∀ s s', (initSettings s).1.requireAuth = true → (initSettings s').1.requireAuth = true →
      (CheckCreditinals p s r response).1 = true → (CheckCreditinals p s' r' response').1 = true →
      (r.getHeader "Authorization" = r'.getHeader "Authorization" →
        (initSettings s).1.account = (initSettings s').1.account ∧ r.method = r'.method) ∧
      (autorizationField p r "response" = autorizationField p r' "response" →
        r.method = r'.method → autorizationField p r "uri" = autorizationField p r' "uri") := by
  constructor
  · intro s hheader hmethod
    rw [Bool.eq_iff_iff, checkCreditinals_iff, checkCreditinals_iff, valid_congr hheader hmethod]
  · intro s s' hauth hauth' h h'
    rw [checkCreditinals_iff] at h h'
    exact ⟨account_of_valid (h hauth) (h' hauth') hmd5, uri_of_valid (h hauth) (h' hauth') hmd5⟩

end

/-! ### A client that knows the password -/

/-- MD5 of the three texts below; other texts are kept apart. -/
def sampleDigests : List (QByteArray × QByteArray) :=
  [(literal "admin:realm@host.com:admin",
      [180, 147, 117, 179, 194, 16, 162, 224, 52, 193, 168, 111, 117, 233, 164, 28]),
    (literal "POST:/torrent/action",
      [206, 174, 64, 68, 128, 137, 56, 179, 129, 11, 47, 15, 98, 165, 152, 72]),
    (literal "b49375b3c210a2e034c1a86f75e9a41c:" ++ literal "dcd98b7102dd2f0e8b11d0f600bfb0c093:" ++
        literal "00000001:0a4f113b:auth:" ++ literal "ceae4044808938b3810b2f0f62a59848",
      [197, 168, 122, 13, 252, 149, 240, 181, 201, 35, 247, 112, 239, 151, 205, 183])]

@[reducible] def sampleMd5 : Md5 where
  hash s := (Assoc.find s sampleDigests).getD (List.replicate 17 0 ++ s)

theorem sampleMd5_injective : Function.Injective sampleMd5.hash := by
  have hvalues : ∀ e ∈ sampleDigests, ∀ e' ∈ sampleDigests, e.2 = e'.2 → e.1 = e'.1 := by
    decide +kernel
  have hlength : ∀ e ∈ sampleDigests, e.2.length = 16 := by decide
  intro s t h
  change (Assoc.find s sampleDigests).getD (List.replicate 17 0 ++ s) =
    (Assoc.find t sampleDigests).getD (List.replicate 17 0 ++ t) at h
  cases hs : Assoc.find s sampleDigests with
  | none =>
    cases ht : Assoc.find t sampleDigests with
    | none =>
      rw [hs, ht] at h
      exact List.append_cancel_left h
    | some d =>
      have hd := hlength _ (Assoc.mem_of_find ht)
      have hlen := congrArg List.length h
      simp [hs, ht, hd] at hlen
  | some d =>
    have hd := hlength _ (Assoc.mem_of_find hs)
    cases ht : Assoc.find t sampleDigests with
    | none =>
      have hlen := congrArg List.length h
      simp [hs, ht, hd] at hlen
    | some d' =>
      rw [hs, ht] at h
      exact hvalues _ (Assoc.mem_of_find hs) _ (Assoc.mem_of_find ht) h

def lockedSettings : Settings := [(serverName, [(requireAuthKey, .bool true),
  (loginKey, .string "admin".toList), (passwordKey, .string "admin".toList)])]

def signedRequest (path : String) : HttpRequest where
  method := literal "POST"
  path := literal path
  headers := [(literal "Authorization", literal "Digest username=\"admin\", " ++
    literal "realm=\"realm@host.com\", " ++ literal "nonce=\"dcd98b7102dd2f0e8b11d0f600bfb0c093\", " ++
    literal "uri=\"/torrent/action\", " ++ literal "qop=auth, nc=00000001, cnonce=\"0a4f113b\", " ++
    literal "response=\"c5a87a0dfc95f0b5c923f770ef97cdb7\"")]
  parameters := []
  uploadedFiles := []
  body := []

theorem signed_valid (s : Settings) (hs : (initSettings s).1.account = ⟨"admin".toList, "admin".toList⟩)
    (path : String) (response : HttpResponse) :
    (@CheckCreditinals sampleMd5 .unix s (signedRequest path) response).1 = true := by
  have haction : @Valid sampleMd5 .unix ⟨"admin".toList, "admin".toList⟩
      (signedRequest "/torrent/action") := by decide +kernel
  let _ := sampleMd5
  rw [checkCreditinals_iff, hs]
  intro _
  exact (valid_congr rfl rfl).mp haction

def otherSettings : Settings := ("Torrent".toList, [("listen_port".toList, .int 6881)]) :: lockedSettings

theorem signed_accepted :
    (@CheckCreditinals sampleMd5 .unix lockedSettings (signedRequest "/magnet/api") .initial).1 = true ∧
      (initSettings lockedSettings).1.account = (initSettings otherSettings).1.account ∧
      (signedRequest "/torrent/action").method = (signedRequest "/magnet/api").method ∧
      autorizationField .unix (signedRequest "/torrent/action") "uri" =
        autorizationField .unix (signedRequest "/magnet/api") "uri" := by
  have haccepted := signed_valid lockedSettings rfl "/torrent/action" .initial
  have h := @digest_bound sampleMd5 sampleMd5_injective .unix (signedRequest "/torrent/action")
    (signedRequest "/magnet/api") .initial .initial
  have hbound := h.2 lockedSettings otherSettings rfl rfl haccepted (signed_valid otherSettings rfl _ _)
  exact ⟨(h.1 lockedSettings rfl rfl).symm.trans haccepted, (hbound.1 rfl).1, (hbound.1 rfl).2,
    hbound.2 rfl rfl⟩

/-- The header for one uri opens another path. -/
theorem signed_for_another_path :
    ¬ ∀ (_ : Md5) (p : Platform) (s : Settings) (r r' : HttpRequest) (response response' : HttpResponse),
      Function.Injective Md5.hash → r.getHeader "Authorization" = r'.getHeader "Authorization" →
      r.method = r'.method → (CheckCreditinals p s r response).1 = true →
      (CheckCreditinals p s r' response').1 = true → r.getPath = r'.getPath := by
  intro h
  have hpath := h sampleMd5 .unix lockedSettings (signedRequest "/torrent/action")
    (signedRequest "/magnet/api") .initial .initial sampleMd5_injective rfl rfl
    (signed_valid _ rfl _ _) (signed_valid _ rfl _ _)
  revert hpath
  decide

end HttpRequestHandler
end CuteTorrent
