import CuteTorrent.HttpRequestHandler

/-! A client that knows the password: the Authorization header it writes, and
what `CheckCreditinals` reads from it. -/
namespace CuteTorrent
namespace HttpRequestHandler

/-! ### The header -/

/-- A parameter of the header. The key is a token, and so is a value that is not
quoted; no text of a header has a zero character. -/
structure DigestParam where
  blanks : QString
  key : QString
  value : QString
  isQuoted : Bool
  blank_of_mem : ∀ c ∈ blanks, c = ' ' ∨ c = '\t'
  token_of_mem : ∀ c ∈ key, 33 ≤ c.toNat ∧ c.toNat < 127 ∧ c ≠ '=' ∧ c ≠ ','
  value_ne_zero : Char.ofNat 0 ∉ value
  plain_of_mem : isQuoted = false → ∀ c ∈ value, 33 ≤ c.toNat ∧ c.toNat < 127

namespace DigestParam
variable (q : DigestParam)

def valueText : QString := if q.isQuoted then '"' :: (q.value ++ ['"']) else q.value

def text : QString := q.blanks ++ q.key ++ '=' :: q.valueText

/-- The value comes to the digest as it was meant: nothing in it cuts the header
apart or is taken for a quotation mark, and with an equals sign in the value nothing
stands before the key. -/
structure Survives : Prop where
  no_comma : ',' ∉ q.value
  no_quote : '"' ∉ q.value
  no_blanks : '=' ∈ q.value → q.blanks = []

end DigestParam

def headerText (params : List DigestParam) : QString :=
  "Digest".toList ++ [','].intercalate (params.map DigestParam.text)

theorem trimmed_append_blanks {s t : QString} (hs : ∀ c ∈ s, isSpace c = true)
    (ht : ∀ c ∈ t, isSpace c = false) : trimmed (s ++ t) = t := by
  have hdrop : (s ++ t).dropWhile isSpace = t.dropWhile isSpace := by
    induction s with
    | nil => rfl
    | cons c s ih =>
      rw [List.cons_append, List.dropWhile_cons, if_pos (hs c List.mem_cons_self)]
      exact ih fun d hd => hs d (List.mem_cons_of_mem _ hd)
  have hself := trimmed_eq_self ht
  rw [trimmed] at hself ⊢
  rw [hdrop, hself]

theorem trimmed_quoted (s : QString) : trimmed ('"' :: (s ++ ['"'])) = '"' :: (s ++ ['"']) := by
  have hspace : isSpace '"' = false := by decide
  simp [trimmed, hspace]

theorem parameter_append {key value : QString} (hkey : '=' ∉ key) :
    parameter (key ++ '=' :: value) =
      if '=' ∈ value then (key, replaceChar '"' [] value)
      else (trimmed key, replaceChar '"' [] (trimmed value)) := by
  have hsplit := List.splitOn_append_cons_self_of_not_mem hkey value
  have hjoin : ['='].intercalate (value.splitOn '=') = value := List.intercalate_splitOn '='
  rw [parameter, hsplit]
  split_ifs with hvalue
  · split
    · next key' value' heq =>
      obtain ⟨-, hone⟩ := List.cons.inj heq
      rw [hone, List.intercalate_singleton] at hjoin
      subst hjoin
      exact absurd hvalue (not_mem_of_mem_splitOn (hone ▸ List.mem_singleton_self _))
    · next key' values hne heq =>
      obtain ⟨rfl, rfl⟩ := List.cons.inj heq
      rw [hjoin]
    · next heq => cases heq
  · rw [List.splitOn_eq_singleton hvalue]

theorem isSpace_of_token {c : Char} (hlo : 33 ≤ c.toNat) (hhi : c.toNat < 127) :
    isSpace c = false := by
  simp only [isSpace, Bool.or_eq_false_iff, decide_eq_false_iff_not, List.mem_cons, not_or,
    List.not_mem_nil, not_false_eq_true, and_true]
  omega

theorem replaceChar_append (before : Char) (after s t : QString) :
    replaceChar before after (s ++ t) = replaceChar before after s ++ replaceChar before after t :=
  List.flatMap_append

namespace DigestParam
variable (q : DigestParam)

theorem head_of_mem {c : Char} (hc : c ∈ q.blanks ++ q.key) : c ≠ '=' := by
  cases List.mem_append.mp hc with
  | inl hc => rcases q.blank_of_mem c hc with rfl | rfl <;> decide
  | inr hc => exact (q.token_of_mem c hc).2.2.1

theorem trimmed_head : trimmed (q.blanks ++ q.key) = q.key := by
  apply trimmed_append_blanks
  · intro c hc
    rcases q.blank_of_mem c hc with rfl | rfl <;> decide
  · intro c hc
    have htoken := q.token_of_mem c hc
    exact isSpace_of_token htoken.1 htoken.2.1

theorem trimmed_valueText : trimmed q.valueText = q.valueText := by
  unfold valueText
  split_ifs with hquoted
  · exact trimmed_quoted _
  · have hplain := q.plain_of_mem (by simpa using hquoted)
    exact trimmed_eq_self fun c hc => isSpace_of_token (hplain c hc).1 (hplain c hc).2

theorem replaceChar_valueText :
    replaceChar '"' [] q.valueText = replaceChar '"' [] q.value := by
  unfold valueText
  split_ifs
  · rw [← List.singleton_append, replaceChar_append, replaceChar_append]
    simp [replaceChar]
  · rfl

def entryKey : QString := if '=' ∈ q.value then q.blanks ++ q.key else q.key

theorem parameter_text : parameter q.text = (q.entryKey, replaceChar '"' [] q.value) := by
  have hequals : '=' ∈ q.valueText ↔ '=' ∈ q.value := by
    rw [valueText]
    split_ifs <;> simp
  rw [text, parameter_append fun hc => q.head_of_mem hc rfl, q.trimmed_head,
    q.trimmed_valueText, q.replaceChar_valueText, entryKey]
  simp only [hequals]
  split_ifs <;> rfl

theorem text_ne_zero : Char.ofNat 0 ∉ q.text := by
  intro hc
  rw [text, List.mem_append, List.mem_append, List.mem_cons] at hc
  rcases hc with (hc | hc) | hc | hc
  · rcases q.blank_of_mem _ hc with h | h <;> exact absurd h (by decide)
  · have htoken := (q.token_of_mem _ hc).1
    exact absurd htoken (by decide)
  · exact absurd hc (by decide)
  · rw [valueText] at hc
    split_ifs at hc
    · rw [List.mem_cons, List.mem_append, List.mem_singleton] at hc
      rcases hc with hc | hc | hc
      · exact absurd hc (by decide)
      · exact q.value_ne_zero hc
      · exact absurd hc (by decide)
    · exact q.value_ne_zero hc

theorem comma_mem_text_iff : ',' ∈ q.text ↔ ',' ∈ q.value := by
  have hblanks : ',' ∉ q.blanks := by
    intro hc
    rcases q.blank_of_mem _ hc with h | h <;> exact absurd h (by decide)
  have hkey : ',' ∉ q.key := fun hc => (q.token_of_mem _ hc).2.2.2 rfl
  rw [text, valueText]
  split_ifs <;> simp [hblanks, hkey]

def entries : List (QString × QString) := (q.text.splitOn ',').map parameter

variable {q}

theorem entries_of_no_comma (h : ',' ∉ q.value) :
    q.entries = [(q.entryKey, replaceChar '"' [] q.value)] := by
  have hwhole : q.text.splitOn ',' = [q.text] :=
    List.splitOn_eq_singleton fun hc => h (q.comma_mem_text_iff.mp hc)
  rw [entries, hwhole, List.map_singleton, q.parameter_text]

end DigestParam

def Starts (params : List DigestParam) : Prop :=
  ∃ q blanks, params.head? = some q ∧ q.blanks = ' ' :: blanks

theorem zero_not_mem_headerText (params : List DigestParam) :
    Char.ofNat 0 ∉ headerText params := by
  intro hc
  unfold headerText at hc
  cases List.mem_append.mp hc with
  | inl hc => exact absurd hc (by decide)
  | inr hc =>
    obtain hc | ⟨t, ht, hc⟩ := mem_intercalate hc
    · exact absurd hc (by decide)
    · obtain ⟨q, -, rfl⟩ := List.mem_map.mp ht
      exact q.text_ne_zero hc

def entryMap (params : List DigestParam) : List (QString × QString) :=
  (params.flatMap DigestParam.entries).foldl (fun m e => Assoc.insert e.1 e.2 m) []

theorem find_entryMap (params : List DigestParam) (key : QString) :
    Assoc.find key (entryMap params) =
      Assoc.find key (params.flatMap DigestParam.entries).reverse :=
  Assoc.find_foldl_insert_nil key _

theorem parametrs_headerText {params : List DigestParam} (h : Starts params) :
    parametrs (headerText params) = entryMap params := by
  obtain ⟨q, blanks, hq, hblanks⟩ := h
  obtain ⟨qs, rfl⟩ : ∃ qs, params = q :: qs := ⟨params.tail, List.eq_cons_of_mem_head? hq⟩
  have hfirst : ∃ rest, [','].intercalate ((q :: qs).map DigestParam.text) = ' ' :: rest := by
    rw [List.map_cons]
    cases qs.map DigestParam.text with
    | nil => exact ⟨_, by rw [List.intercalate_singleton, DigestParam.text, hblanks]; rfl⟩
    | cons t ts => exact ⟨_, by rw [List.intercalate_cons_cons, DigestParam.text, hblanks]; rfl⟩
  obtain ⟨rest, hrest⟩ := hfirst
  have hparts : (' ' :: rest).splitOn ',' = (q :: qs).flatMap fun q => q.text.splitOn ',' := by
    rw [← hrest, splitOn_intercalate_flatMap ',' (by simp), List.flatMap_map]
  have hmethod : (("Digest".toList ++ ' ' :: rest).splitOn ' ').headD [] = "Digest".toList := by
    rw [List.splitOn_append_cons_self_of_not_mem (by decide)]
    rfl
  rw [headerText, hrest, parametrs]
  rw [hmethod, List.drop_left, hparts, entryMap]
  have hentries : (q :: qs).flatMap DigestParam.entries =
      ((q :: qs).flatMap fun q => q.text.splitOn ',').map parameter := by
    rw [List.map_flatMap]
    rfl
  rw [hentries, List.foldl_map]

theorem DigestParam.no_blanks_of_key {q q' : DigestParam} (h : q'.blanks ++ q'.key = q.key) :
    q'.blanks = [] := by
  by_contra hne
  obtain ⟨b, bs, hbs⟩ := List.exists_cons_of_ne_nil hne
  have hmem : b ∈ q.key := by
    rw [← h, hbs]
    exact List.mem_cons_self
  have htoken := (q.token_of_mem b hmem).1
  rcases q'.blank_of_mem b (hbs ▸ List.mem_cons_self) with rfl | rfl <;> exact absurd htoken (by decide)

section
variable {params : List DigestParam} (hcommas : ∀ q ∈ params, ',' ∉ q.value)
include hcommas

theorem mem_entries_iff (e : QString × QString) :
    e ∈ (params.flatMap DigestParam.entries).reverse ↔
      ∃ q ∈ params, e = (q.entryKey, replaceChar '"' [] q.value) := by
  rw [List.mem_reverse, List.mem_flatMap]
  constructor
  · rintro ⟨q, hq, he⟩
    rw [DigestParam.entries_of_no_comma (hcommas q hq)] at he
    exact ⟨q, hq, List.mem_singleton.mp he⟩
  · rintro ⟨q, hq, he⟩
    refine ⟨q, hq, ?_⟩
    rw [DigestParam.entries_of_no_comma (hcommas q hq)]
    exact List.mem_singleton.mpr he

variable (hdistinct : (params.map DigestParam.key).Nodup)
include hdistinct

/-- With no comma in any value a parameter is found, unless what stands before its
key has become part of it. -/
theorem find_entries {q : DigestParam} (hq : q ∈ params) :
    Assoc.find q.key (entryMap params) = if '=' ∈ q.value ∧ q.blanks ≠ [] then none
      else some (replaceChar '"' [] q.value) := by
  have hself : ∀ q' ∈ params, q'.entryKey = q.key → q' = q := by
    intro q' hq' he
    apply List.inj_on_of_nodup_map hdistinct hq' hq
    unfold DigestParam.entryKey at he
    split_ifs at he
    · have hnil := DigestParam.no_blanks_of_key he
      rwa [hnil] at he
    · exact he
  rw [find_entryMap]
  split_ifs with hlost
  · rw [Assoc.find_eq_none]
    intro hmem
    obtain ⟨e, he, hek⟩ := List.mem_map.mp hmem
    obtain ⟨q', hq', rfl⟩ := (mem_entries_iff hcommas e).mp he
    obtain rfl := hself q' hq' hek
    dsimp only at hek
    rw [DigestParam.entryKey, if_pos hlost.1] at hek
    exact hlost.2 (DigestParam.no_blanks_of_key hek)
  · have hname : q.entryKey = q.key := by
      unfold DigestParam.entryKey
      split_ifs with hequals
      · rw [not_and, not_not] at hlost
        rw [hlost hequals, List.nil_append]
      · rfl
    apply Assoc.find_eq_some_of_forall
    · rw [← hname]
      exact List.mem_map_of_mem ((mem_entries_iff hcommas _).mpr ⟨q, hq, rfl⟩)
    · intro e he hek
      obtain ⟨q', hq', rfl⟩ := (mem_entries_iff hcommas e).mp he
      obtain rfl := hself q' hq' hek
      rfl

end

theorem mem_of_mem_trimmed {s : QString} {c : Char} (h : c ∈ trimmed s) : c ∈ s := by
  have hback := List.dropWhile_suffix isSpace |>.mem (List.mem_reverse.mp h)
  exact (List.dropWhile_suffix isSpace).mem (List.mem_reverse.mp hback)

theorem mem_replaceChar_nil {before : Char} {s : QString} {c : Char}
    (h : c ∈ replaceChar before [] s) : c ∈ s ∧ c ≠ before := by
  obtain ⟨d, hd, hc⟩ := List.mem_flatMap.mp h
  split_ifs at hc with hb
  · exact absurd hc List.not_mem_nil
  · rw [List.mem_singleton.mp hc]
    exact ⟨hd, hb⟩

theorem mem_parameter {part : QString} {c : Char} (h : c ∈ (parameter part).2) :
    (c = '=' ∨ c ∈ part) ∧ c ≠ '"' := by
  unfold parameter at h
  split at h
  · next key value hparts =>
    obtain ⟨hc, hquote⟩ := mem_replaceChar_nil h
    have hvalue : value ∈ part.splitOn '=' := by
      rw [hparts]
      simp
    exact ⟨.inr (mem_of_mem_part (mem_of_mem_trimmed hc) hvalue), hquote⟩
  · next key values _ hparts =>
    obtain ⟨hc, hquote⟩ := mem_replaceChar_nil h
    refine ⟨(mem_intercalate hc).imp_right ?_, hquote⟩
    rintro ⟨t, ht, hc⟩
    have hvalue : t ∈ part.splitOn '=' := by
      rw [hparts]
      exact List.mem_cons_of_mem _ ht
    exact mem_of_mem_part hc hvalue
  · exact absurd h List.not_mem_nil

theorem clean_of_find {params : List DigestParam} {key value : QString}
    (h : Assoc.find key (entryMap params) = some value) : ',' ∉ value ∧ '"' ∉ value := by
  rw [find_entryMap] at h
  obtain ⟨q, -, hmem⟩ := List.mem_flatMap.mp (List.mem_reverse.mp (Assoc.mem_of_find h))
  obtain ⟨part, hpart, hentry⟩ := List.mem_map.mp hmem
  have hcomma : ',' ∉ part := not_mem_of_mem_splitOn hpart
  have hvalue : (parameter part).2 = value := by rw [hentry]
  rw [← hvalue]
  refine ⟨fun hc => ?_, fun hc => (mem_parameter hc).2 rfl⟩
  cases (mem_parameter hc).1 with
  | inl he => exact absurd he (by decide)
  | inr hc => exact hcomma hc

theorem clean_field {params : List DigestParam} (key : String) :
    ',' ∉ field (entryMap params) key ∧ '"' ∉ field (entryMap params) key := by
  rw [field]
  cases hfind : Assoc.find key.toList (entryMap params) with
  | none => exact ⟨List.not_mem_nil, List.not_mem_nil⟩
  | some value => exact clean_of_find hfind

/-! ### The client -/

structure DigestClient where
  account : Creditionals
  realm : QString
  nonce : QString
  uri : QString
  nc : QString
  cnonce : QString
  method : QByteArray

namespace DigestClient
variable [Md5] (c : DigestClient)

/-- `request-digest` with qop=auth. -/
def response : QByteArray :=
  let ha1 := Md5.hash (toUtf8 (c.account.username ++ ':' :: c.realm ++ ':' :: c.account.password))
  let ha2 := Md5.hash (c.method ++ 58 :: toUtf8 c.uri)
  Md5.hash (toUtf8 (toHex ha1 ++ ':' :: c.nonce ++ ':' :: c.nc ++ ':' :: c.cnonce ++ ':' ::
    "auth".toList ++ ':' :: toHex ha2))

def values : List (QString × QString) :=
  [("username".toList, c.account.username), ("realm".toList, c.realm), ("nonce".toList, c.nonce),
    ("uri".toList, c.uri), ("nc".toList, c.nc), ("cnonce".toList, c.cnonce),
    ("qop".toList, "auth".toList), ("response".toList, toHex c.response)]

/-- The parameters of the client's header, in any order; what else it sends
comes from the challenge, without a comma. -/
structure Writes (params : List DigestParam) : Prop where
  starts : Starts params
  distinct : (params.map DigestParam.key).Nodup
  complete : ∀ e ∈ c.values, ∃ q ∈ params, q.key = e.1 ∧ q.value = e.2
  others : ∀ q ∈ params, q.key ∉ Assoc.keys c.values → ',' ∉ q.value

def Survive (params : List DigestParam) : Prop :=
  ∀ q ∈ params, q.key ∈ Assoc.keys c.values → q.Survives

variable {c}

theorem valid_of_fields {p : Platform} {params : List DigestParam} (hstart : Starts params)
    {request : HttpRequest} (hheader : request.getHeader "Authorization" = toUtf8 (headerText params))
    (hmethod : request.method = c.method)
    (hfield : ∀ e ∈ c.values, (Assoc.find e.1 (entryMap params)).getD [] = e.2) :
    Valid p c.account request := by
  have hsome : headerText params ≠ [] := by simp [headerText]
  have husername := hfield ("username".toList, c.account.username) (by simp [values])
  have hrealm := hfield ("realm".toList, c.realm) (by simp [values])
  have hnonce := hfield ("nonce".toList, c.nonce) (by simp [values])
  have huri := hfield ("uri".toList, c.uri) (by simp [values])
  have hnc := hfield ("nc".toList, c.nc) (by simp [values])
  have hcnonce := hfield ("cnonce".toList, c.cnonce) (by simp [values])
  have hqop := hfield ("qop".toList, "auth".toList) (by simp [values])
  have hresponse := hfield ("response".toList, toHex c.response) (by simp [values])
  rw [Valid, hheader, p.fromCString_toUtf8 (zero_not_mem_headerText params),
    parametrs_headerText hstart]
  refine ⟨hsome, husername, ?_⟩
  simp only [digest, field, husername, hrealm, hnonce, huri, hnc, hcnonce, hqop, hresponse, hmethod]
  rfl

theorem Writes.no_comma {params : List DigestParam} (h : c.Writes params)
    (hvalues : ∀ q ∈ params, q.key ∈ Assoc.keys c.values → ',' ∉ q.value) :
    ∀ q ∈ params, ',' ∉ q.value := by
  intro q hq
  by_cases hkey : q.key ∈ Assoc.keys c.values
  · exact hvalues q hq hkey
  · exact h.others q hq hkey

theorem valid_of_survive (p : Platform) {params : List DigestParam} (h : c.Writes params)
    {request : HttpRequest} (hheader : request.getHeader "Authorization" = toUtf8 (headerText params))
    (hmethod : request.method = c.method) (hs : c.Survive params) : Valid p c.account request := by
  have hcommas := h.no_comma fun q hq hkey => (hs q hq hkey).no_comma
  refine valid_of_fields h.starts hheader hmethod fun e he => ?_
  obtain ⟨q, hq, hkey, hvalue⟩ := h.complete e he
  have hsurvives := hs q hq (by rw [hkey]; exact List.mem_map_of_mem he)
  have hkept : ¬ ('=' ∈ q.value ∧ q.blanks ≠ []) := fun hc => hc.2 (hsurvives.no_blanks hc.1)
  rw [← hkey, find_entries hcommas h.distinct hq, if_neg hkept,
    replaceChar_of_not_mem [] hsurvives.no_quote, ← hvalue]
  rfl

def WholeBehind (params : List DigestParam) : Prop :=
  ∀ before q behind, params = before ++ q :: behind → q.key = "response".toList →
    ∀ q' ∈ behind, ',' ∉ q'.value

theorem find_response {params : List DigestParam} (h : c.Writes params)
    (hbehind : WholeBehind params) :
    Assoc.find "response".toList (entryMap params) = some (toHex c.response) := by
  obtain ⟨q, hq, hkey, hvalue⟩ := h.complete ("response".toList, toHex c.response) (by simp [values])
  obtain ⟨before, behind, rfl⟩ := List.append_of_mem hq
  dsimp only at hkey hvalue
  have hchars : ∀ ch ∈ q.value, ch ≠ ',' ∧ ch ≠ '"' ∧ ch ≠ '=' ∧ ch ≠ ':' := by
    rw [hvalue]
    exact fun _ => hex_of_mem
  have hcommas : ∀ q' ∈ q :: behind, ',' ∉ q'.value := by
    rw [List.forall_mem_cons]
    exact ⟨fun hc => (hchars _ hc).1 rfl, hbehind before q behind rfl hkey⟩
  have hdistinct : ((q :: behind).map DigestParam.key).Nodup :=
    h.distinct.sublist ((List.sublist_append_right _ _).map _)
  have hequals : '=' ∉ q.value := fun hc => (hchars _ hc).2.2.1 rfl
  have htail := find_entries hcommas hdistinct List.mem_cons_self
  have hsame : replaceChar '"' [] q.value = q.value :=
    replaceChar_of_not_mem [] fun hc => (hchars _ hc).2.1 rfl
  rw [if_neg fun hc => hequals hc.1, hsame, find_entryMap] at htail
  rw [← hkey, find_entryMap, List.flatMap_append, List.reverse_append, Assoc.find_append, htail,
    hvalue]
  rfl

def middle (nonce nc cnonce qop : QString) : QString :=
  nonce ++ ':' :: (nc ++ ':' :: (cnonce ++ ':' :: qop))

theorem Writes.value_eq {params : List DigestParam} (h : c.Writes params) {q : DigestParam}
    (hq : q ∈ params) (hkey : q.key ∈ Assoc.keys c.values) : (q.key, q.value) ∈ c.values := by
  obtain ⟨e, he, heq⟩ := List.mem_map.mp hkey
  obtain ⟨q', hq', hkey', hvalue⟩ := h.complete e he
  obtain rfl := List.inj_on_of_nodup_map h.distinct hq' hq (hkey'.trans heq)
  rw [hkey', hvalue]
  exact he

section
variable {params : List DigestParam} (h : c.Writes params)
  (hclean : ∀ e ∈ c.values, ',' ∉ e.2 ∧ '"' ∉ e.2)
include h hclean

theorem find_of_clean {q : DigestParam} (hq : q ∈ params) (hkey : q.key ∈ Assoc.keys c.values) :
    (Assoc.find q.key (entryMap params)).getD [] =
      if '=' ∈ q.value ∧ q.blanks ≠ [] then [] else q.value := by
  have hcommas := h.no_comma fun q hq hkey => (hclean _ (h.value_eq hq hkey)).1
  rw [find_entries hcommas h.distinct hq, replaceChar_of_not_mem [] (hclean _ (h.value_eq hq hkey)).2]
  split_ifs <;> rfl

/-- The field has all the equals signs, or has lost them all. -/
theorem count_of_clean {e : QString × QString} (he : e ∈ c.values) :
    ((Assoc.find e.1 (entryMap params)).getD []).count '=' = e.2.count '=' ∨
    (((Assoc.find e.1 (entryMap params)).getD []).count '=' = 0 ∧ 0 < e.2.count '=') := by
  obtain ⟨q, hq, hkey, hvalue⟩ := h.complete e he
  rw [← hkey, find_of_clean h hclean hq (hkey ▸ List.mem_map_of_mem he), ← hvalue]
  split_ifs with hlost
  · exact .inr ⟨rfl, List.count_pos_iff.mpr hlost.1⟩
  · exact .inl rfl

end

section
variable (hmd5 : Function.Injective Md5.hash) {p : Platform} {params : List DigestParam}
  (h : c.Writes params) (hbehind : WholeBehind params) {request : HttpRequest}
  (hheader : request.getHeader "Authorization" = toUtf8 (headerText params))
  (hmethod : request.method = c.method) (hv : Valid p c.account request)
include hmd5 h hbehind hheader hmethod hv

theorem same_of_valid :
    let m := entryMap params
    field m "username" = c.account.username ∧ field m "realm" = c.realm ∧ field m "uri" = c.uri ∧
      middle (field m "nonce") (field m "nc") (field m "cnonce") (field m "qop") =
        middle c.nonce c.nc c.cnonce "auth".toList := by
  intro m
  rw [Valid, hheader, p.fromCString_toUtf8 (zero_not_mem_headerText params),
    parametrs_headerText h.starts] at hv
  obtain ⟨-, husername, hdigest⟩ := hv
  have hresponse : field m "response" = toHex c.response := by
    rw [field, find_response h hbehind]
    rfl
  rw [hresponse, hmethod] at hdigest
  have htext := toUtf8_injective (hmd5 (toHex_injective hdigest))
  simp only [List.append_assoc, List.cons_append] at htext
  have hhash := between_hex_inj
    (middle (field m "nonce") (field m "nc") (field m "cnonce") (field m "qop"))
    (middle c.nonce c.nc c.cnonce "auth".toList)
    (by simpa only [middle, List.append_assoc, List.cons_append] using htext)
  obtain ⟨ha1, hmiddle, ha2⟩ := hhash
  have hsecret := toUtf8_injective (hmd5 ha1)
  rw [husername] at hsecret
  have hrealm := List.append_cancel_right (List.cons.inj (List.append_cancel_left hsecret)).2
  have huri := toUtf8_injective (List.cons.inj (List.append_cancel_left (hmd5 ha2))).2
  exact ⟨husername, hrealm, huri, hmiddle⟩

theorem clean_of_valid : ∀ e ∈ c.values, ',' ∉ e.2 ∧ '"' ∉ e.2 := by
  obtain ⟨husername, hrealm, huri, hmiddle⟩ := same_of_valid hmd5 h hbehind hheader hmethod hv
  have hauth : ',' ∉ "auth".toList ∧ '"' ∉ "auth".toList := by decide
  have hhex : ',' ∉ toHex c.response ∧ '"' ∉ toHex c.response :=
    ⟨fun hc => (hex_of_mem hc).1 rfl, fun hc => (hex_of_mem hc).2.1 rfl⟩
  have hmid : ∀ ch, ch = ',' ∨ ch = '"' → ch ∉ c.nonce ∧ ch ∉ c.nc ∧ ch ∉ c.cnonce := by
    intro ch hch
    have hcolon : ch ≠ ':' := by
      rcases hch with rfl | rfl <;> decide
    have hfield : ∀ key, ch ∉ field (entryMap params) key := by
      intro key
      rcases hch with rfl | rfl
      · exact (clean_field key).1
      · exact (clean_field key).2
    have hout : ch ∉ middle c.nonce c.nc c.cnonce "auth".toList := by
      rw [← hmiddle]
      simp [middle, hcolon, hfield]
    simp only [middle, List.mem_append, List.mem_cons, not_or] at hout
    exact ⟨hout.1, hout.2.2.1, hout.2.2.2.2.1⟩
  obtain ⟨hnonce, hnc, hcnonce⟩ := hmid ',' (.inl rfl)
  obtain ⟨hnonce', hnc', hcnonce'⟩ := hmid '"' (.inr rfl)
  simp only [values, List.forall_mem_cons]
  exact ⟨husername ▸ clean_field "username", hrealm ▸ clean_field "realm", ⟨hnonce, hnonce'⟩,
    huri ▸ clean_field "uri", ⟨hnc, hnc'⟩, ⟨hcnonce, hcnonce'⟩, hauth, hhex,
    fun _ he => absurd he List.not_mem_nil⟩

/-- What is hashed has as many equals signs on both sides, so no field has lost any. -/
theorem count_of_valid : ∀ e ∈ c.values,
    ((Assoc.find e.1 (entryMap params)).getD []).count '=' = e.2.count '=' := by
  have hclean := clean_of_valid hmd5 h hbehind hheader hmethod hv
  obtain ⟨husername, hrealm, huri, hmiddle⟩ := same_of_valid hmd5 h hbehind hheader hmethod hv
  have hcount := congrArg (List.count '=') hmiddle
  have hcolon : (':' == '=') = false := by decide
  simp only [middle, List.count_append, List.count_cons, hcolon, Bool.false_eq_true, if_false,
    field] at hcount
  have hnonce := count_of_clean h hclean (e := ("nonce".toList, c.nonce)) (by simp [values])
  have hnc := count_of_clean h hclean (e := ("nc".toList, c.nc)) (by simp [values])
  have hcnonce := count_of_clean h hclean (e := ("cnonce".toList, c.cnonce)) (by simp [values])
  have hqop := count_of_clean h hclean (e := ("qop".toList, "auth".toList)) (by simp [values])
  dsimp only at hnonce hnc hcnonce hqop
  have hresponse : (Assoc.find "response".toList (entryMap params)).getD [] = toHex c.response := by
    rw [find_response h hbehind]
    rfl
  rw [field] at husername hrealm huri
  simp only [values, List.forall_mem_cons, husername, hrealm, huri, hresponse, true_and]
  refine ⟨?_, ?_, ?_, ?_, fun _ he => absurd he List.not_mem_nil⟩
  all_goals omega

theorem survive_of_valid : c.Survive params := by
  have hclean := clean_of_valid hmd5 h hbehind hheader hmethod hv
  intro q hq hkey
  have hmem := h.value_eq hq hkey
  have hcount := count_of_valid hmd5 h hbehind hheader hmethod hv _ hmem
  rw [find_of_clean h hclean hq hkey] at hcount
  obtain ⟨hcomma, hquote⟩ := hclean _ hmem
  refine ⟨hcomma, hquote, fun hequals => ?_⟩
  by_contra hblanks
  rw [if_pos ⟨hequals, hblanks⟩] at hcount
  exact absurd hequals (List.count_eq_zero.mp hcount.symm)

end

/-- A client that knows the account is let in when all its values survive; and it
is let in for no other reason when nothing behind the response falls apart. -/
theorem accepted_iff_survive (p : Platform) (s : Settings) {params : List DigestParam}
    (h : c.Writes params) (haccount : (initSettings s).1.account = c.account) {request : HttpRequest}
    (hheader : request.getHeader "Authorization" = toUtf8 (headerText params))
    (hmethod : request.method = c.method) (response : HttpResponse) :
    (((initSettings s).1.requireAuth = true → c.Survive params) →
      (CheckCreditinals p s request response).1 = true) ∧
    (Function.Injective Md5.hash → WholeBehind params →
      (CheckCreditinals p s request response).1 = true →
        (initSettings s).1.requireAuth = true → c.Survive params) := by
  rw [checkCreditinals_iff, haccount]
  constructor
  · intro hs hauth
    exact valid_of_survive p h hheader hmethod (hs hauth)
  · intro hmd5 hbehind hvalid hauth
    exact survive_of_valid hmd5 h hbehind hheader hmethod (hvalid hauth)

end DigestClient

/-! ### A uri without a query, and one with -/

def quotedParam (key : String) (value : QString)
    (hkey : ∀ c ∈ key.toList, 33 ≤ c.toNat ∧ c.toNat < 127 ∧ c ≠ '=' ∧ c ≠ ',')
    (hvalue : Char.ofNat 0 ∉ value) : DigestParam where
  blanks := [' ']
  key := key.toList
  value := value
  isQuoted := true
  blank_of_mem := by simp
  token_of_mem := hkey
  value_ne_zero := hvalue
  plain_of_mem h := absurd h (by decide)

def adminClient (uri : QString) : DigestClient where
  account := ⟨"admin".toList, "admin".toList⟩
  realm := "realm@host.com".toList
  nonce := "dcd98b".toList
  uri := uri
  nc := "00000001".toList
  cnonce := "0a4f".toList
  method := literal "GET"

theorem response_ne_zero (s : QByteArray) : Char.ofNat 0 ∉ toHex s := by
  intro hc
  obtain ⟨n, hn, he⟩ := mem_toHex hc
  have hdigit : ∀ n < 16, Char.ofNat 0 ≠ hexDigit n := by decide
  exact hdigit n hn he

def adminParams (uri : QString) (huri : Char.ofNat 0 ∉ uri) : List DigestParam :=
  [quotedParam "username" "admin".toList (forall_mem_of_check (by decide)) (by decide),
    quotedParam "realm" "realm@host.com".toList (forall_mem_of_check (by decide)) (by decide),
    quotedParam "nonce" "dcd98b".toList (forall_mem_of_check (by decide)) (by decide),
    quotedParam "uri" uri (forall_mem_of_check (by decide)) huri,
    quotedParam "nc" "00000001".toList (forall_mem_of_check (by decide)) (by decide),
    quotedParam "cnonce" "0a4f".toList (forall_mem_of_check (by decide)) (by decide),
    quotedParam "qop" "auth".toList (forall_mem_of_check (by decide)) (by decide),
    quotedParam "response" (toHex (@DigestClient.response sampleMd5 (adminClient uri)))
      (forall_mem_of_check (by decide)) (response_ne_zero _)]

def adminRequest (uri : QString) (huri : Char.ofNat 0 ∉ uri) : HttpRequest where
  method := literal "GET"
  path := toUtf8 uri
  headers := [(literal "Authorization", toUtf8 (headerText (adminParams uri huri)))]
  parameters := []
  uploadedFiles := []
  body := []

theorem adminClient_writes (uri : QString) (huri : Char.ofNat 0 ∉ uri) :
    @DigestClient.Writes sampleMd5 (adminClient uri) (adminParams uri huri) := by
  let _ := sampleMd5
  refine ⟨⟨_, [], rfl, rfl⟩, ?_, ?_, ?_⟩
  · simp only [adminParams, quotedParam, List.map_cons, List.map_nil]
    decide
  · simp [DigestClient.values, adminParams, adminClient, quotedParam]
  · intro q hq hkey
    have hall : ∀ q ∈ adminParams uri huri,
        q.key ∈ Assoc.keys (DigestClient.values (adminClient uri)) := by
      simp [DigestClient.values, adminParams, quotedParam]
    exact absurd (hall q hq) hkey

theorem account_lockedSettings (uri : QString) :
    (initSettings lockedSettings).1.account = (adminClient uri).account := by
  change _ = (⟨"admin".toList, "admin".toList⟩ : Creditionals)
  decide

theorem header_adminRequest (uri : QString) (huri : Char.ofNat 0 ∉ uri) :
    (adminRequest uri huri).getHeader "Authorization" =
      toUtf8 (headerText (adminParams uri huri)) := by
  simp [HttpRequest.getHeader, HttpRequest.lastValue, adminRequest, Assoc.find_cons]

theorem cyrillic_uri_accepted : (@CheckCreditinals sampleMd5 .unix lockedSettings
    (adminRequest "/фильмы".toList (by decide)) .initial).1 = true := by
  have hplain : ∀ q ∈ adminParams "/фильмы".toList (by decide),
      ',' ∉ q.value ∧ '"' ∉ q.value ∧ '=' ∉ q.value := by
    simp only [adminParams, quotedParam, List.forall_mem_cons]
    refine ⟨by decide, by decide, by decide, by decide, by decide, by decide, by decide, ?_,
      fun _ h => absurd h List.not_mem_nil⟩
    exact ⟨fun hc => (hex_of_mem hc).1 rfl, fun hc => (hex_of_mem hc).2.1 rfl,
      fun hc => (hex_of_mem hc).2.2.1 rfl⟩
  refine (@DigestClient.accepted_iff_survive sampleMd5 _ .unix lockedSettings _
    (adminClient_writes "/фильмы".toList (by decide)) (account_lockedSettings _)
    (adminRequest "/фильмы".toList (by decide)) (header_adminRequest _ _) rfl .initial).1 ?_
  intro _ q hq _
  obtain ⟨hcomma, hquote, hequals⟩ := hplain q hq
  exact ⟨hcomma, hquote, fun hc => absurd hc hequals⟩

/-- A query after the uri's parameter has kept its blank: the uri is not found. -/
theorem query_refused :
    ¬ ∀ (_ : Md5) (p : Platform) (s : Settings) (c : DigestClient) (params : List DigestParam)
      (request : HttpRequest) (response : HttpResponse),
      c.Writes params → ',' ∉ c.account.username → '"' ∉ c.account.username →
      (initSettings s).1.account = c.account →
      request.getHeader "Authorization" = toUtf8 (headerText params) → request.method = c.method →
      (CheckCreditinals p s request response).1 = true := by
  intro h
  let uri := "/a?b=c".toList
  have huri : Char.ofNat 0 ∉ uri := by decide
  have hwrites := adminClient_writes uri huri
  have haccepted := h sampleMd5 .unix lockedSettings (adminClient uri) (adminParams uri huri)
    (adminRequest uri huri) .initial hwrites (by decide) (by decide) (account_lockedSettings uri)
    (header_adminRequest uri huri) rfl
  have hcommas : ∀ q ∈ adminParams uri huri, ',' ∉ q.value := by
    simp only [adminParams, quotedParam, List.forall_mem_cons]
    refine ⟨by decide, by decide, by decide, by decide, by decide, by decide, by decide,
      fun hc => (hex_of_mem hc).1 rfl, fun _ h => absurd h List.not_mem_nil⟩
  have hbehind : DigestClient.WholeBehind (adminParams uri huri) := fun before q behind he _ q' hq' =>
    hcommas q' (he ▸ List.mem_append_right _ (List.mem_cons_of_mem _ hq'))
  let _ := sampleMd5
  rw [checkCreditinals_iff] at haccepted
  have hsurvive := DigestClient.survive_of_valid sampleMd5_injective hwrites hbehind
    (header_adminRequest uri huri) rfl (haccepted rfl)
  have hparam := hsurvive (quotedParam "uri" uri (forall_mem_of_check (by decide)) huri) (by simp [adminParams])
    (by simp [DigestClient.values, quotedParam])
  exact absurd (hparam.no_blanks (show '=' ∈ "/a?b=c".toList by decide)) (by simp [quotedParam])

end HttpRequestHandler
end CuteTorrent
