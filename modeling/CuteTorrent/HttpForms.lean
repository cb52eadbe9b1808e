import CuteTorrent.HttpRoundTrip
import CuteTorrent.Library.HttpForm

/-! The forms that a client sends: their parameters and files are those that the request has
when it has been read. -/
namespace CuteTorrent
namespace HttpRequest

/-! ### Parameters -/

theorem hexByte_upperHexDigit : ∀ n < 256,
    hexByte [Http.upperHexDigit (n / 16), Http.upperHexDigit (n % 16)] = some (UInt8.ofNat n) := by
  decide +kernel

theorem decodePercents_percentEncode (s : QByteArray) :
    decodePercents 0 (Http.percentEncode s) = s := by
  induction s with
  | nil => rfl
  | cons b s ih =>
    have hcons : Http.percentEncode (b :: s) = Http.percentByte b ++ Http.percentEncode s := rfl
    rw [hcons, Http.percentByte]
    split_ifs with hplain
    · have hb : b ≠ 37 := fun he => by
        rw [he] at hplain
        exact absurd hplain (by decide)
      rw [List.singleton_append, decodePercents, if_neg hb, ih]
    · have hbyte := hexByte_upperHexDigit b.toNat b.toNat_lt
      rw [UInt8.ofNat_toNat] at hbyte
      change decodePercents 0 (37 :: Http.upperHexDigit (b.toNat / 16) ::
        Http.upperHexDigit (b.toNat % 16) :: Http.percentEncode s) = b :: s
      rw [decodePercents, if_pos rfl, List.take_succ_cons, List.take_succ_cons, List.take_zero, hbyte]
      exact congrArg (b :: ·) ih

theorem urlDecode_percentEncode (s : QByteArray) : urlDecode (Http.percentEncode s) = s := by
  have hplus : (Http.percentEncode s).map (fun b => if b = 43 then 32 else b) = Http.percentEncode s := by
    refine List.map_congr_left (g := id) (fun b hb => ?_) |>.trans (List.map_id _)
    have hne : b ≠ 43 := fun he =>
      Http.not_mem_percentEncode (by decide) (by decide) s (he ▸ hb)
    rw [if_neg hne]
    rfl
  rw [urlDecode, hplus, decodePercents_percentEncode]

theorem trimmedBytes_percentEncode (s : QByteArray) :
    trimmedBytes (Http.percentEncode s) = Http.percentEncode s := by
  have hspace : ∀ b ∈ Http.percentEncode s, Bencode.isSpace b = false := by
    intro b hb
    rcases Http.safe_of_mem hb with hsafe | rfl
    · have hall : ∀ n < 256, Http.isUnreserved (UInt8.ofNat n) = true →
          Bencode.isSpace (UInt8.ofNat n) = false := by decide +kernel
      have hn := hall b.toNat b.toNat_lt
      rw [UInt8.ofNat_toNat] at hn
      exact hn hsafe
    · decide
  exact trimmedBytes_eq_self (fun b hb => hspace b (List.mem_of_mem_head? hb))
    (fun b hb => hspace b (List.mem_of_getLast? hb))

theorem insertParameter_pairText (parameters : List (QByteArray × QByteArray)) (p : QByteArray × QByteArray) :
    insertParameter parameters (Http.pairText p) = parameters ++ [p] := by
  have hequals : 61 ∉ Http.percentEncode p.1 := Http.not_mem_percentEncode (by decide) (by decide) _
  rw [insertParameter, Http.pairText, cut_append hequals]
  dsimp only
  rw [trimmedBytes_percentEncode, trimmedBytes_percentEncode, urlDecode_percentEncode,
    urlDecode_percentEncode]

theorem foldl_insertParameter (parameters : List (QByteArray × QByteArray))
    (query : List (QByteArray × QByteArray)) :
    ((Http.formText query).splitOn 38).foldl insertParameter parameters = parameters ++ query := by
  by_cases hquery : query = []
  · subst hquery
    rw [List.append_nil]
    rfl
  · rw [Http.splitOn_formText hquery]
    clear hquery
    induction query generalizing parameters with
    | nil => exact (List.append_nil _).symm
    | cons p query ih =>
      rw [List.map_cons, List.foldl_cons, insertParameter_pairText, ih, List.append_assoc,
        List.singleton_append]

theorem cut_targetText {path : QByteArray} (hpath : 63 ∉ path) (query : List (QByteArray × QByteArray)) :
    (cut 63 (Http.targetText path query)).getD (Http.targetText path query, []) =
      (path, Http.formText query) := by
  rw [Http.targetText]
  split_ifs with hquery
  · rw [hquery, cut, if_neg hpath]
    rfl
  · rw [cut_append hpath]
    rfl

theorem decodeRequestParams_query {path contentType bodyData : QByteArray} (hpath : 63 ∉ path)
    (hbody : bodyData = [] ∨ contentType ≠ [] ∧
      (literal "application/x-www-form-urlencoded").isPrefixOf contentType = false)
    (query parameters : List (QByteArray × QByteArray)) :
    decodeRequestParams (Http.targetText path query) contentType bodyData parameters =
      (path, parameters ++ query) := by
  have hother : ¬ (bodyData ≠ [] ∧ (contentType = [] ∨
      (literal "application/x-www-form-urlencoded").isPrefixOf contentType = true)) := by
    rintro ⟨hne, htype⟩
    rcases hbody with hnil | ⟨hsome, hstarts⟩
    · exact hne hnil
    · rcases htype with hnone | hurlencoded
      · exact hsome hnone
      · rw [hstarts] at hurlencoded
        cases hurlencoded
  rw [decodeRequestParams, cut_targetText hpath]
  dsimp only
  rw [if_neg hother, foldl_insertParameter]

/-- A body of parameters takes the place of the query. -/
theorem decodeRequestParams_body {path contentType : QByteArray} (hpath : 63 ∉ path)
    (htype : contentType = [] ∨
      (literal "application/x-www-form-urlencoded").isPrefixOf contentType = true)
    (query : List (QByteArray × QByteArray)) {form : List (QByteArray × QByteArray)} (hform : form ≠ [])
    (parameters : List (QByteArray × QByteArray)) :
    decodeRequestParams (Http.targetText path query) contentType (Http.formText form) parameters =
      (path, parameters ++ form) := by
  have hfirst : ((38 :: Http.formText form).splitOn 38).foldl insertParameter parameters =
      ((Http.formText form).splitOn 38).foldl insertParameter parameters := by
    have hsplit : (38 :: Http.formText form).splitOn 38 = [] :: (Http.formText form).splitOn 38 :=
      List.splitOn_append_cons_self_of_not_mem List.not_mem_nil _
    rw [hsplit]
    rfl
  rw [decodeRequestParams, cut_targetText hpath]
  dsimp only
  rw [if_pos ⟨Http.formText_ne_nil hform, htype⟩]
  split_ifs
  · rw [hfirst, foldl_insertParameter]
  · rw [foldl_insertParameter]

/-! ### Texts with a marker -/

theorem contains_iff {s text : QByteArray} : contains s text = true ↔ text <:+: s := by
  rw [contains]
  induction s with
  | nil =>
    rw [afterFirst, List.infix_nil]
    split_ifs with hnil <;> simp [hnil]
  | cons b s ih =>
    rw [afterFirst, List.infix_cons_iff]
    split_ifs with hstarts
    · exact iff_of_true rfl (.inl (List.isPrefixOf_iff_prefix.mp hstarts))
    · rw [ih, or_iff_right fun h => hstarts (List.isPrefixOf_iff_prefix.mpr h)]

variable {m : UInt8} {t t' u v w : QByteArray}

theorem prefix_marker (ht : m ∉ t) (hu : m ∉ u) (h : t ++ m :: t' <+: u ++ m :: v) : t = u := by
  obtain ⟨rest, hrest⟩ := h
  rw [List.append_assoc, List.cons_append] at hrest
  exact (append_cons_cancel ht hu hrest).1

theorem afterFirst_marker (hw : m ∉ w ++ t) (t' v : QByteArray) :
    afterFirst (t ++ m :: t') (w ++ t ++ m :: (t' ++ v)) = some v := by
  have ht : m ∉ t := fun h => hw (List.mem_append_right _ h)
  have htext : ∀ w : QByteArray, w ++ t ++ m :: (t' ++ v) = w ++ ((t ++ m :: t') ++ v) := by simp
  induction w with
  | nil =>
    obtain ⟨b, s, hs⟩ := List.exists_cons_of_ne_nil (show (t ++ m :: t') ++ v ≠ [] by simp)
    rw [htext, List.nil_append, hs, afterFirst, ← hs,
      if_pos (List.isPrefixOf_iff_prefix.mpr (List.prefix_append _ _)), List.drop_left]
  | cons b w ih =>
    have hmiss : ¬ (t ++ m :: t').isPrefixOf (b :: (w ++ t ++ m :: (t' ++ v))) = true := by
      intro hstarts
      have heq := prefix_marker ht hw (List.isPrefixOf_iff_prefix.mp hstarts)
      have hlen := congrArg List.length heq
      simp only [List.cons_append, List.length_cons, List.length_append] at hlen
      omega
    rw [List.cons_append, List.cons_append, afterFirst, if_neg hmiss]
    exact ih fun h => hw (List.mem_cons_of_mem b h)

theorem afterFirst_skip (ht : m ∉ t) (hne : t ≠ []) (hu : m ∉ u) (hsuffix : ¬ t <:+ u) (t' v : QByteArray) :
    afterFirst (t ++ m :: t') (u ++ m :: v) = afterFirst (t ++ m :: t') v := by
  induction u with
  | nil =>
    have hmiss : ¬ (t ++ m :: t').isPrefixOf (m :: v) = true := fun hstarts =>
      hne (prefix_marker ht List.not_mem_nil (List.isPrefixOf_iff_prefix.mp hstarts))
    rw [List.nil_append, afterFirst, if_neg hmiss]
  | cons b u ih =>
    have hmiss : ¬ (t ++ m :: t').isPrefixOf (b :: (u ++ m :: v)) = true := fun hstarts =>
      hsuffix (prefix_marker ht hu (List.isPrefixOf_iff_prefix.mp hstarts) ▸ List.suffix_refl _)
    rw [List.cons_append, afterFirst, if_neg hmiss]
    exact ih (fun h => hu (List.mem_cons_of_mem b h))
      fun h => hsuffix (h.trans (List.suffix_cons b u))

theorem afterFirst_none (hs : m ∉ u) : afterFirst (t ++ m :: t') u = none := by
  have hmiss : ¬ contains u (t ++ m :: t') = true := fun h =>
    hs ((contains_iff.mp h).subset (by simp))
  rwa [contains, Bool.not_eq_true, Option.isSome_eq_false_iff, Option.isNone_iff_eq_none] at hmiss

/-! ### Lines -/

theorem readLines_append (maxSize : Nat) (part s t : QByteArray) :
    readLines maxSize part (s ++ 10 :: t) = readLines maxSize part (s ++ [10]) ++ readLines maxSize [] t := by
  induction s generalizing part with
  | nil => simp [readLines]
  | cons b s ih =>
    rw [List.cons_append, List.cons_append, readLines, readLines]
    split_ifs
    · rw [ih, List.cons_append]
    · exact ih _

theorem flatten_readLines (maxSize : Nat) (part s : QByteArray) :
    (readLines maxSize part s).flatten = part ++ s := by
  induction s generalizing part with
  | nil => cases part <;> simp [readLines]
  | cons b s ih =>
    rw [readLines]
    split_ifs
    · rw [List.flatten_cons, ih, List.nil_append, List.append_assoc, List.singleton_append]
    · rw [ih, List.append_assoc, List.singleton_append]

theorem readLines_short {maxSize : Nat} {line : QByteArray} (h : 10 ∉ line) {part : QByteArray}
    (hlen : part.length + line.length < maxSize) :
    readLines maxSize part (line ++ [10]) = [part ++ line ++ [10]] := by
  induction line generalizing part with
  | nil => simp [readLines]
  | cons b line ih =>
    have hb : ¬ (b = 10 ∨ part.length + 1 = maxSize) := by
      rw [List.length_cons] at hlen
      rintro (rfl | he)
      · exact h List.mem_cons_self
      · omega
    rw [List.cons_append, readLines, if_neg hb, ih (fun hm => h (List.mem_cons_of_mem b hm))]
    · simp
    · rw [List.length_append, List.length_singleton]
      rw [List.length_cons] at hlen
      omega

theorem readLines_line {line : QByteArray} (h : 10 ∉ line) (hlen : line.length + 2 ≤ 65536)
    (rest : QByteArray) :
    readLines 65536 [] (line ++ Http.crlf ++ rest) = (line ++ Http.crlf) :: readLines 65536 [] rest := by
  have hbytes : line ++ Http.crlf ++ rest = (line ++ [13]) ++ 10 :: rest := by simp [Http.crlf]
  have hbreak : 10 ∉ line ++ [13] := by simp [h]
  have hone : readLines 65536 [] (line ++ [13] ++ [10]) = [[] ++ (line ++ [13]) ++ [10]] := by
    refine readLines_short hbreak ?_
    rw [List.length_append, List.length_singleton, List.length_nil]
    omega
  rw [hbytes, readLines_append, hone]
  simp [Http.crlf]

/-! ### The parts of a form -/

/-- A part of a form that is read as it is sent. -/
structure PartSendable (boundary : QByteArray) (part : Http.Part) : Prop where
  name_ne_nil : part.name ≠ []
  name : 34 ∉ part.name ∧ 61 ∉ part.name ∧ 10 ∉ part.name
  fileName : ∀ fileName, part.fileName = some fileName → fileName ≠ [] ∧ 34 ∉ fileName ∧ 10 ∉ fileName
  lines : ∀ line ∈ part.lines, line ≠ [] ∧ trimmedBytes line = line ∧ 10 ∉ line ∧
    (literal "Content-Disposition:").isPrefixOf line = false
  short : ∀ line ∈ part.disposition :: part.lines, line.length + 2 ≤ 65536
  data : ¬ 45 :: 45 :: boundary <:+: part.data ++ Http.crlf

/-- A boundary that its own dashes do not end. -/
structure BoundarySendable (boundary : QByteArray) : Prop where
  line : 10 ∉ boundary
  short : boundary.length + 6 ≤ 65536
  marked : ∃ b ∈ boundary, b ≠ 45

def addPart (m : FormData) (part : Http.Part) : FormData where
  parameters := m.parameters ++ [(part.name, part.fileName.getD part.data)]
  uploadedFiles := m.uploadedFiles ++ (part.fileName.map fun _ => (part.name, part.data)).toList

def collected (part : Http.Part) : PartState :=
  match part.fileName with
  | none => .body part.name [] (part.data ++ Http.crlf) none
  | some fileName => .body part.name fileName [] (some (part.data ++ Http.crlf))

theorem quoted_marker {t w : QByteArray} {start : String} (hstart : literal start = t ++ 61 :: [34])
    (hw : 61 ∉ w ++ t) {text : QByteArray} (htext : 34 ∉ text) (rest : QByteArray) :
    quoted start (w ++ t ++ 61 :: 34 :: (text ++ 34 :: rest)) = some text := by
  have hfound := afterFirst_marker hw [34] (text ++ 34 :: rest)
  rw [List.singleton_append, ← hstart] at hfound
  rw [quoted, hfound]
  dsimp only
  rw [if_pos (by simp), (Http.takeWhile_append_cons htext rest).1]

theorem disposition_open : toUtf8 "Content-Disposition: form-data; name=\"".toList =
    literal "Content-Disposition: form-data;" ++ literal " name" ++ [61, 34] := by
  decide +kernel

theorem disposition_fileName : toUtf8 "\"; filename=\"".toList = [34, 59] ++ literal " filename" ++ [61, 34] := by
  decide +kernel

variable {boundary : QByteArray} {part : Http.Part}

theorem quoted_name (h : PartSendable boundary part) :
    quoted " name=\"" part.disposition = some part.name := by
  obtain ⟨rest, hline⟩ : ∃ rest, part.disposition = literal "Content-Disposition: form-data;" ++
      literal " name" ++ 61 :: 34 :: (part.name ++ 34 :: rest) := by
    rw [Http.Part.disposition, disposition_open]
    cases part.fileName with
    | none => exact ⟨[], by simp only [List.append_assoc, List.cons_append, List.nil_append]⟩
    | some fileName =>
      rw [disposition_fileName]
      exact ⟨59 :: (literal " filename" ++ 61 :: 34 :: (fileName ++ [34])),
        by simp only [List.append_assoc, List.cons_append, List.nil_append]⟩
  rw [hline]
  exact quoted_marker (by decide) (by decide) h.name.1 rest

theorem quoted_fileName (h : PartSendable boundary part) :
    (quoted " filename=\"" part.disposition).getD [] = part.fileName.getD [] := by
  have hstart : literal " filename=\"" = literal " filename" ++ 61 :: [34] := by decide
  have hskip : ∀ v, afterFirst (literal " filename" ++ 61 :: [34])
      ((literal "Content-Disposition: form-data;" ++ literal " name") ++ 61 :: v) =
        afterFirst (literal " filename" ++ 61 :: [34]) v :=
    fun v => afterFirst_skip (by decide) (by decide) (by decide) (by decide) [34] v
  cases hfile : part.fileName with
  | none =>
    have hline : part.disposition = (literal "Content-Disposition: form-data;" ++ literal " name") ++
        61 :: (34 :: (part.name ++ [34])) := by
      rw [Http.Part.disposition, disposition_open, hfile]
      simp only [List.append_assoc, List.cons_append, List.nil_append]
    have hnone : afterFirst (literal " filename" ++ 61 :: [34]) (34 :: (part.name ++ [34])) = none :=
      afterFirst_none (by simp [h.name.2.1])
    rw [hline, quoted, hstart, hskip, hnone]
  | some fileName =>
    have hline : part.disposition = (literal "Content-Disposition: form-data;" ++ literal " name") ++
        61 :: ((34 :: (part.name ++ [34, 59])) ++ literal " filename" ++
          61 :: ([34] ++ (fileName ++ 34 :: []))) := by
      rw [Http.Part.disposition, disposition_open, hfile]
      dsimp only
      rw [disposition_fileName]
      simp only [List.append_assoc, List.cons_append, List.nil_append]
    have hequals : 61 ∉ 34 :: (part.name ++ [34, 59]) ++ literal " filename" := by
      have hfilename : 61 ∉ literal " filename" := by decide
      simp [h.name.2.1, hfilename]
    rw [hline, quoted, hstart, hskip, afterFirst_marker hequals]
    dsimp only
    rw [if_pos (by simp), (Http.takeWhile_append_cons (h.fileName fileName hfile).2.1 []).1]

/-! ### Reading a form -/

theorem trimmedBytes_cons {b : UInt8} (hb : Bencode.isSpace b = false) (s : QByteArray) :
    ∃ t, trimmedBytes (b :: s) = b :: t := by
  obtain ⟨l, hl⟩ : ∃ l, (s.reverse ++ [b]).dropWhile Bencode.isSpace = l ++ [b] := by
    induction s.reverse with
    | nil => exact ⟨[], by simp [hb]⟩
    | cons c l ih =>
      obtain ⟨l', hl'⟩ := ih
      by_cases hc : Bencode.isSpace c = true
      · exact ⟨l', by rw [List.cons_append, List.dropWhile_cons, if_pos hc, hl']⟩
      · exact ⟨c :: l, by rw [List.cons_append, List.dropWhile_cons, if_neg hc]⟩
  refine ⟨l.reverse, ?_⟩
  rw [trimmedBytes, List.dropWhile_cons, if_neg (by simp [hb]), List.reverse_cons, hl,
    List.reverse_append]
  rfl

theorem readPart_other (m : FormData) (fieldName fileName : QByteArray) {line : QByteArray}
    (hne : trimmedBytes line ≠ [])
    (hother : (literal "Content-Disposition:").isPrefixOf (trimmedBytes line) = false) :
    readPart boundary (m, .header fieldName fileName) line = .ok (m, .header fieldName fileName) := by
  rw [readPart]
  simp [hother, hne]

theorem readPart_dashes (m : FormData) (fieldName fileName s : QByteArray) :
    readPart boundary (m, .header fieldName fileName) (45 :: s) = .ok (m, .header fieldName fileName) := by
  obtain ⟨t, ht⟩ := trimmedBytes_cons (b := 45) (by decide) s
  have hstart : literal "Content-Disposition:" = 67 :: (literal "Content-Disposition:").tail := by decide
  refine readPart_other m fieldName fileName ?_ ?_
  · rw [ht]
    exact List.cons_ne_nil _ _
  · rw [ht, hstart, List.isPrefixOf_cons_cons]
    rfl

theorem trimmedBytes_line {line : QByteArray} (h : trimmedBytes line = line) :
    trimmedBytes (line ++ Http.crlf) = line :=
  trimmedBytes_append_spaces h (List.all_eq_true.mp rfl)

theorem trimmed_disposition (part : Http.Part) : trimmedBytes part.disposition = part.disposition := by
  have hs : toUtf8 "Content-Disposition: form-data; name=\"".toList =
      67 :: (toUtf8 "Content-Disposition: form-data; name=\"".toList).tail := by
    decide
  refine trimmedBytes_eq_self ?_ ?_
  · intro b hb
    rw [Http.Part.disposition, hs] at hb
    cases hb
    decide
  · intro b hb
    have hend : part.disposition.getLast? = some 34 := by
      rw [Http.Part.disposition]
      cases part.fileName <;> simp
    rw [hend] at hb
    cases hb
    decide

theorem readPart_disposition (h : PartSendable boundary part) (m : FormData) :
    readPart boundary (m, .header [] []) (part.disposition ++ Http.crlf) =
      .ok (m, .header part.name (part.fileName.getD [])) := by
  have hsplit : toUtf8 "Content-Disposition: form-data; name=\"".toList =
      literal "Content-Disposition:" ++ ([32] ++ literal "form-data" ++ literal "; name=\"") := by
    decide +kernel
  have hstart : (literal "Content-Disposition:").isPrefixOf part.disposition = true := by
    rw [List.isPrefixOf_iff_prefix, Http.Part.disposition, hsplit, List.append_assoc, List.append_assoc]
    exact List.prefix_append _ _
  have hform : contains part.disposition (literal "form-data") = true := by
    rw [contains_iff, Http.Part.disposition, hsplit]
    exact ⟨literal "Content-Disposition:" ++ [32], _, by simp only [List.append_assoc]; rfl⟩
  rw [readPart, trimmedBytes_line (trimmed_disposition part)]
  rw [if_pos hstart, if_pos hform, quoted_name h, quoted_fileName h]
  rfl

theorem foldlM_others (m : FormData) (fieldName fileName : QByteArray) {lines : List QByteArray}
    (h : ∀ line ∈ lines, line ≠ [] ∧ trimmedBytes line = line ∧
      (literal "Content-Disposition:").isPrefixOf line = false) :
    (lines.map (· ++ Http.crlf)).foldlM (readPart boundary) (m, .header fieldName fileName) =
      .ok (m, .header fieldName fileName) := by
  induction lines with
  | nil => rfl
  | cons line lines ih =>
    obtain ⟨hne, htrim, hother⟩ := h line List.mem_cons_self
    rw [← trimmedBytes_line htrim] at hne hother
    rw [List.map_cons, List.foldlM_cons, readPart_other m _ _ hne hother]
    exact ih fun l hl => h l (List.mem_cons_of_mem _ hl)

theorem foldlM_head (h : PartSendable boundary part) (m : FormData) :
    ((part.disposition :: part.lines ++ [[]]).map (· ++ Http.crlf)).foldlM (readPart boundary)
      (m, .header [] []) = .ok (m, .body part.name (part.fileName.getD []) [] none) := by
  have hlines : (part.lines.map (· ++ Http.crlf)).foldlM (readPart boundary)
      (m, .header part.name (part.fileName.getD [])) =
        .ok (m, .header part.name (part.fileName.getD [])) :=
    foldlM_others m _ _ fun line hline =>
      have ⟨hne, htrim, _, hother⟩ := h.lines line hline
      ⟨hne, htrim, hother⟩
  rw [List.cons_append, List.map_cons, List.foldlM_cons, readPart_disposition h]
  change List.foldlM _ _ _ = _
  rw [List.map_append, List.foldlM_append, hlines]
  rfl

section pieces

variable {pieces : List QByteArray} {fieldName : QByteArray}

theorem foldlM_value (hfield : fieldName ≠ [])
    (h : ∀ piece ∈ pieces, ¬ (literal "--" ++ boundary).isPrefixOf piece = true) (m : FormData)
    (value : QByteArray) :
    pieces.foldlM (readPart boundary) (m, .body fieldName [] value none) =
      .ok (m, .body fieldName [] (value ++ pieces.flatten) none) := by
  induction pieces generalizing value with
  | nil => rw [List.flatten_nil, List.append_nil]; rfl
  | cons piece pieces ih =>
    rw [List.foldlM_cons, readPart, if_neg (h piece List.mem_cons_self), if_neg hfield, if_pos rfl,
      List.flatten_cons, ← List.append_assoc]
    exact ih (fun p hp => h p (List.mem_cons_of_mem _ hp)) _

theorem foldlM_file (hfield : fieldName ≠ []) {fileName : QByteArray} (hfile : fileName ≠ [])
    (h : ∀ piece ∈ pieces, ¬ (literal "--" ++ boundary).isPrefixOf piece = true) (m : FormData)
    (uploaded : QByteArray) :
    pieces.foldlM (readPart boundary) (m, .body fieldName fileName [] (some uploaded)) =
      .ok (m, .body fieldName fileName [] (some (uploaded ++ pieces.flatten))) := by
  induction pieces generalizing uploaded with
  | nil => rw [List.flatten_nil, List.append_nil]; rfl
  | cons piece pieces ih =>
    rw [List.foldlM_cons, readPart, if_neg (h piece List.mem_cons_self), if_neg hfield, if_neg hfile,
      List.flatten_cons, ← List.append_assoc]
    exact ih (fun p hp => h p (List.mem_cons_of_mem _ hp)) _

end pieces

/-- The data of a part, in whatever pieces its lines make of it. -/
theorem foldlM_data (h : PartSendable boundary part) (m : FormData) :
    (readLines 65536 [] (part.data ++ Http.crlf)).foldlM (readPart boundary)
      (m, .body part.name (part.fileName.getD []) [] none) = .ok (m, collected part) := by
  have hflatten := flatten_readLines 65536 [] (part.data ++ Http.crlf)
  rw [List.nil_append] at hflatten
  have hpieces : ∀ piece ∈ readLines 65536 [] (part.data ++ Http.crlf),
      ¬ (literal "--" ++ boundary).isPrefixOf piece = true := by
    intro piece hpiece hstarts
    refine h.data ?_
    rw [← hflatten]
    exact (List.isPrefixOf_iff_prefix.mp hstarts).isInfix.trans (List.infix_of_mem_flatten hpiece)
  cases hfile : part.fileName with
  | none =>
    rw [Option.getD_none, foldlM_value h.name_ne_nil hpieces, hflatten, collected, hfile]
    rfl
  | some fileName =>
    obtain ⟨hne, -, -⟩ := h.fileName fileName hfile
    cases hread : readLines 65536 [] (part.data ++ Http.crlf) with
    | nil =>
      rw [hread] at hflatten
      simp [Http.crlf] at hflatten
    | cons piece pieces =>
      rw [hread, List.flatten_cons] at hflatten
      rw [hread] at hpieces
      rw [Option.getD_some, List.foldlM_cons, readPart, if_neg (hpieces piece List.mem_cons_self),
        if_neg h.name_ne_nil, if_neg hne, collected, hfile]
      have hrest := foldlM_file h.name_ne_nil hne (fun p hp => hpieces p (List.mem_cons_of_mem _ hp)) m
        ([] ++ piece)
      rw [List.nil_append, hflatten] at hrest
      exact hrest

theorem readPart_boundary (h : PartSendable boundary part) (m : FormData) (rest : QByteArray) :
    readPart boundary (m, collected part) (45 :: 45 :: boundary ++ rest) =
      .ok (addPart m part, if contains (45 :: 45 :: boundary ++ rest) (boundary ++ literal "--")
        then .finished else .header [] []) := by
  have hend : ∀ data : QByteArray, removeLineEnd (data ++ Http.crlf) = data := fun data => by
    simp [removeLineEnd, Http.crlf]
  have hstart : (literal "--" ++ boundary).isPrefixOf (45 :: 45 :: boundary ++ rest) = true :=
    List.isPrefixOf_iff_prefix.mpr (List.prefix_append _ _)
  rw [collected, addPart]
  cases hfile : part.fileName with
  | none =>
    dsimp only
    rw [readPart, if_pos hstart, FormData.insert, if_neg h.name_ne_nil, if_pos rfl, hend]
    simp only [Option.getD_none, Option.map_none, Option.toList_none, List.append_nil]
    rfl
  | some fileName =>
    dsimp only
    rw [readPart, if_pos hstart, FormData.insert, if_neg h.name_ne_nil,
      if_neg (h.fileName fileName hfile).1, hend]
    rfl

theorem eq_dash_of_append {s : QByteArray} (h : s ++ [45, 45] = 45 :: 45 :: s) : ∀ b ∈ s, b = 45 := by
  induction s with
  | nil => exact fun b hb => absurd hb List.not_mem_nil
  | cons c s ih =>
    rw [List.cons_append] at h
    obtain ⟨rfl, htail⟩ := List.cons.inj h
    intro b hb
    rcases List.mem_cons.mp hb with rfl | hmem
    · rfl
    · exact ih htail b hmem

/-- Only the last boundary has dashes behind it. -/
theorem not_contains_open (h : BoundarySendable boundary) :
    contains (45 :: 45 :: boundary ++ Http.crlf) (boundary ++ literal "--") = false := by
  have hdashes : literal "--" = [45, 45] := by decide
  rw [← Bool.not_eq_true, contains_iff, hdashes]
  rintro ⟨front, behind, heq⟩
  have hlen := congrArg List.length heq
  simp only [List.length_append, List.length_cons, List.length_nil, Http.crlf] at hlen
  cases behind with
  | nil =>
    have hbytes : front ++ boundary ++ [45, 45] = 45 :: 45 :: boundary ++ Http.crlf := by
      simpa using heq
    exact absurd (List.append_inj_right' hbytes rfl) (by decide)
  | cons b rest =>
    cases rest with
    | nil =>
      have hbytes : front ++ boundary ++ [45] ++ [45, b] = 45 :: 45 :: boundary ++ Http.crlf := by
        simpa using heq
      have hlast := List.append_inj_right' hbytes rfl
      simp [Http.crlf] at hlast
    | cons c rest =>
      have hfront : front = [] := List.length_eq_zero_iff.mp (by simp at hlen; omega)
      rw [hfront, List.nil_append] at heq
      have hfirst := List.append_inj_left heq (by simp)
      obtain ⟨d, hd, hne⟩ := h.marked
      exact hne (eq_dash_of_append hfirst d hd)

theorem contains_close (boundary : QByteArray) :
    contains (45 :: 45 :: boundary ++ (45 :: 45 :: Http.crlf)) (boundary ++ literal "--") = true := by
  rw [contains_iff]
  exact ⟨[45, 45], Http.crlf, by simp; rfl⟩

/-! The lines of a whole form. -/

def partLines (part : Http.Part) : List QByteArray :=
  (part.disposition :: part.lines ++ [[]]).map (· ++ Http.crlf) ++
    readLines 65536 [] (part.data ++ Http.crlf)

theorem readLines_lines {lines : List QByteArray}
    (h : ∀ line ∈ lines, 10 ∉ line ∧ line.length + 2 ≤ 65536) (rest : QByteArray) :
    readLines 65536 [] (lines.flatMap (· ++ Http.crlf) ++ rest) =
      lines.map (· ++ Http.crlf) ++ readLines 65536 [] rest := by
  induction lines with
  | nil => rfl
  | cons line lines ih =>
    obtain ⟨hbreak, hlen⟩ := h line List.mem_cons_self
    rw [List.flatMap_cons, List.append_assoc, readLines_line hbreak hlen,
      ih fun l hl => h l (List.mem_cons_of_mem _ hl)]
    rfl

theorem not_mem_disposition (h : PartSendable boundary part) : 10 ∉ part.disposition := by
  have hopen : 10 ∉ toUtf8 "Content-Disposition: form-data; name=\"".toList := by decide
  have hfileName : 10 ∉ toUtf8 "\"; filename=\"".toList := by decide
  have hquote : (10 : UInt8) ≠ 34 := by decide
  rw [Http.Part.disposition]
  cases hfile : part.fileName with
  | none => simp only [List.mem_append, List.mem_singleton, hopen, h.name.2.2, hquote, or_self,
      not_false_eq_true]
  | some fileName =>
    have hfile := (h.fileName fileName hfile).2.2
    simp only [List.mem_append, List.mem_singleton, hopen, hfileName, h.name.2.2, hfile,
      hquote, or_self, not_false_eq_true]

theorem readLines_part (hb : BoundarySendable boundary) (h : PartSendable boundary part)
    (rest : QByteArray) :
    readLines 65536 [] (part.text boundary ++ rest) =
      (45 :: 45 :: boundary ++ Http.crlf) :: (partLines part ++ readLines 65536 [] rest) := by
  have hhead : ∀ line ∈ part.disposition :: part.lines ++ [[]],
      10 ∉ line ∧ line.length + 2 ≤ 65536 := by
    intro line hline
    rcases List.mem_append.mp hline with hhead | hempty
    · refine ⟨?_, h.short line hhead⟩
      rcases List.mem_cons.mp hhead with rfl | hlines
      · exact not_mem_disposition h
      · exact (h.lines line hlines).2.2.1
    · rw [List.mem_singleton.mp hempty]
      exact ⟨List.not_mem_nil, by simp⟩
  have hbreak : 10 ∉ 45 :: 45 :: boundary := by simp [hb.line]
  have hlen : (45 :: 45 :: boundary).length + 2 ≤ 65536 := by
    have hshort := hb.short
    rw [List.length_cons, List.length_cons]
    omega
  have hdata : part.data ++ Http.crlf = (part.data ++ [13]) ++ [10] := by simp [Http.crlf]
  have hrest : part.data ++ Http.crlf ++ rest = (part.data ++ [13]) ++ 10 :: rest := by
    simp [Http.crlf]
  rw [Http.Part.text, List.append_assoc, readLines_line hbreak hlen, List.append_assoc,
    readLines_lines hhead, hrest, readLines_append, partLines, hdata, List.append_assoc (List.map _ _)]

theorem readLines_close (hb : BoundarySendable boundary) :
    readLines 65536 [] (45 :: 45 :: boundary ++ 45 :: 45 :: Http.crlf) =
      [45 :: 45 :: boundary ++ 45 :: 45 :: Http.crlf] := by
  have hbreak : 10 ∉ 45 :: 45 :: boundary ++ [45, 45] := by simp [hb.line]
  have hlen : (45 :: 45 :: boundary ++ [45, 45]).length + 2 ≤ 65536 := by
    have hshort := hb.short
    simp only [List.length_append, List.length_cons, List.length_nil]
    omega
  have hbytes : 45 :: 45 :: boundary ++ 45 :: 45 :: Http.crlf =
      45 :: 45 :: boundary ++ [45, 45] ++ Http.crlf ++ [] := by
    simp
  rw [hbytes, readLines_line hbreak hlen, List.append_nil]
  rfl

theorem foldlM_partLines (h : PartSendable boundary part) (m : FormData) :
    (partLines part).foldlM (readPart boundary) (m, .header [] []) = .ok (m, collected part) := by
  rw [partLines, List.foldlM_append, foldlM_head h]
  exact foldlM_data h m

theorem foldlM_parts (hb : BoundarySendable boundary) {parts : List Http.Part}
    (h : PartSendable boundary part) (hparts : ∀ p ∈ parts, PartSendable boundary p) (m : FormData) :
    (readLines 65536 [] (Http.multipartText boundary parts)).foldlM (readPart boundary)
      (m, collected part) = .ok (parts.foldl addPart (addPart m part), .finished) := by
  induction parts generalizing m part with
  | nil =>
    rw [Http.multipartText, List.flatMap_nil, List.nil_append, readLines_close hb, List.foldlM_cons,
      readPart_boundary h, contains_close]
    rfl
  | cons next parts ih =>
    have hnext := hparts next List.mem_cons_self
    have hrest := ih hnext (fun p hp => hparts p (List.mem_cons_of_mem _ hp)) (addPart m part)
    rw [Http.multipartText, List.flatMap_cons, List.append_assoc, readLines_part hb hnext,
      ← Http.multipartText, List.foldlM_cons, readPart_boundary h, not_contains_open hb]
    change List.foldlM _ _ _ = _
    rw [if_neg Bool.false_ne_true, List.foldlM_append, foldlM_partLines hnext]
    exact hrest

/-- A form is read as it has been put together. -/
theorem parseMultiPartFile_multipartText (hb : BoundarySendable boundary) {parts : List Http.Part}
    (hparts : ∀ p ∈ parts, PartSendable boundary p) :
    parseMultiPartFile boundary (Http.multipartText boundary parts) =
      .ok (parts.foldl addPart ⟨[], []⟩) := by
  rw [parseMultiPartFile]
  cases parts with
  | nil =>
    rw [Http.multipartText, List.flatMap_nil, List.nil_append, readLines_close hb, List.foldlM_cons,
      List.cons_append, readPart_dashes]
    rfl
  | cons part parts =>
    have hpart := hparts part List.mem_cons_self
    rw [Http.multipartText, List.flatMap_cons, List.append_assoc, readLines_part hb hpart,
      ← Http.multipartText, List.foldlM_cons, List.cons_append, readPart_dashes]
    change (List.foldlM _ _ _ >>= _) = _
    rw [List.foldlM_append, foldlM_partLines hpart]
    change (List.foldlM _ _ _ >>= _) = _
    rw [foldlM_parts hb hpart fun p hp => hparts p (List.mem_cons_of_mem _ hp)]
    rfl

/-! ### A request with what it carries -/

/-- The parameters that are read: those of a form stand before the query, and those of a body
of parameters take its place. -/
def parametersOf (query : List (QByteArray × QByteArray)) : Http.Content → List (QByteArray × QByteArray)
  | .plain _ _ => query
  | .urlencoded _ form => if form = [] then query else form
  | .multipart _ parts => parts.map (fun part => (part.name, part.fileName.getD part.data)) ++ query

def filesOf : Http.Content → List (QByteArray × QByteArray)
  | .multipart _ parts => parts.filterMap fun part => part.fileName.map fun _ => (part.name, part.data)
  | _ => []

def bodyDataOf : Http.Content → QByteArray
  | .multipart _ _ => []
  | content => content.body

def ContentSendable : Http.Content → Prop
  | .plain type body => boundaryOf type = [] ∧ (body = [] ∨ type ≠ [] ∧
      (literal "application/x-www-form-urlencoded").isPrefixOf type = false)
  | .urlencoded _ _ => True
  | .multipart boundary parts => BoundarySendable boundary ∧ ∀ part ∈ parts, PartSendable boundary part

structure Carries (q : Http.Request) (path : QByteArray) (query : List (QByteArray × QByteArray))
    (content : Http.Content) : Prop where
  noQuery : 63 ∉ path
  target : q.target = Http.targetText path query
  contentType : lastValue (literal "Content-Type") (Reading.pairs q.headers) = content.type
  body : q.body = content.body
  sendable : ContentSendable content

theorem foldl_addPart (parts : List Http.Part) (m : FormData) :
    parts.foldl addPart m =
      ⟨m.parameters ++ parts.map (fun part => (part.name, part.fileName.getD part.data)),
        m.uploadedFiles ++
          parts.filterMap fun part => part.fileName.map fun _ => (part.name, part.data)⟩ := by
  induction parts generalizing m with
  | nil => simp
  | cons part parts ih =>
    rw [List.foldl_cons, ih, addPart]
    cases hfile : part.fileName <;> simp [hfile]

theorem boundaryOf_urlencoded (further : QByteArray) :
    boundaryOf (Http.Content.urlencodedType ++ further) = [] := by
  have hstarts : (literal "multipart/form-data").isPrefixOf
      (Http.Content.urlencodedType ++ further) = false := by
    have hstart : literal "multipart/form-data" = 109 :: (literal "multipart/form-data").tail := by decide
    have htype : Http.Content.urlencodedType = 97 :: Http.Content.urlencodedType.tail := by decide
    rw [hstart, htype, List.cons_append, List.isPrefixOf_cons_cons]
    rfl
  rw [boundaryOf, hstarts]
  rfl

theorem boundaryOf_multipart (boundary : QByteArray) :
    boundaryOf (Http.Content.multipartType ++ boundary) = boundary := by
  have hsplit : Http.Content.multipartType =
      literal "multipart/form-data" ++ literal "; " ++ literal "boundary" ++ [61] := by
    decide +kernel
  have hstart : literal "boundary=" = literal "boundary" ++ 61 :: [] := by decide
  have hstarts : (literal "multipart/form-data").isPrefixOf
      (Http.Content.multipartType ++ boundary) = true := by
    rw [List.isPrefixOf_iff_prefix, hsplit]
    simp only [List.append_assoc]
    exact List.prefix_append _ _
  have hw : 61 ∉ (literal "multipart/form-data" ++ literal "; ") ++ literal "boundary" := by
    decide +kernel
  have hfound := afterFirst_marker hw [] boundary
  rw [boundaryOf, if_pos hstarts, hsplit, hstart, List.append_assoc _ [61]]
  exact congrArg (Option.getD · []) hfound

section received

variable (method target body : QByteArray) {headers : List (QByteArray × QByteArray)}
variable {contentType path : QByteArray} {parameters : List (QByteArray × QByteArray)}

theorem received_plain (htype : lastValue (literal "Content-Type") headers = contentType)
    (hboundary : boundaryOf contentType = [])
    (hdecode : decodeRequestParams target contentType body [] = (path, parameters)) :
    received method target headers body = .ok ⟨method, path, headers, parameters, [], body⟩ := by
  rw [received, htype, if_pos hboundary, if_pos hboundary]
  exact congrArg (fun read : QByteArray × List (QByteArray × QByteArray) =>
    (Except.ok ⟨method, read.1, headers, read.2, [], body⟩ : Except Fault HttpRequest)) hdecode

theorem received_form (htype : lastValue (literal "Content-Type") headers = contentType)
    (hboundary : boundaryOf contentType = boundary) (hne : boundary ≠ []) {m : FormData}
    (hform : parseMultiPartFile boundary body = .ok m)
    (hdecode : decodeRequestParams target contentType [] m.parameters = (path, parameters)) :
    received method target headers body =
      .ok ⟨method, path, headers, parameters, m.uploadedFiles, []⟩ := by
  rw [received, htype, hboundary, if_neg hne, if_neg hne, hform]
  exact congrArg (fun read : QByteArray × List (QByteArray × QByteArray) =>
    (Except.ok ⟨method, read.1, headers, read.2, m.uploadedFiles, []⟩ : Except Fault HttpRequest)) hdecode

end received

theorem received_of_carries {q : Http.Request} {path : QByteArray}
    {query : List (QByteArray × QByteArray)} {content : Http.Content}
    (h : Carries q path query content) :
    received q.method q.target (Reading.pairs q.headers) q.body =
      .ok ⟨q.method, path, Reading.pairs q.headers, parametersOf query content, filesOf content,
        bodyDataOf content⟩ := by
  have hsendable := h.sendable
  rw [h.target, h.body]
  cases content with
  | plain type body =>
    obtain ⟨hboundary, hother⟩ := hsendable
    exact received_plain _ _ _ h.contentType hboundary
      (decodeRequestParams_query h.noQuery hother query [])
  | urlencoded further form =>
    have hstarts : (literal "application/x-www-form-urlencoded").isPrefixOf
        (Http.Content.urlencodedType ++ further) = true :=
      List.isPrefixOf_iff_prefix.mpr (List.prefix_append _ _)
    have hdecode : decodeRequestParams (Http.targetText path query)
        (Http.Content.urlencodedType ++ further) (Http.formText form) [] =
          (path, parametersOf query (.urlencoded further form)) := by
      rw [parametersOf]
      split_ifs with hform
      · exact decodeRequestParams_query h.noQuery (.inl (by rw [hform]; rfl)) query []
      · exact decodeRequestParams_body h.noQuery (.inr hstarts) query hform []
    exact received_plain _ _ _ h.contentType (boundaryOf_urlencoded further) hdecode
  | multipart boundary parts =>
    obtain ⟨hb, hparts⟩ := hsendable
    have hne : boundary ≠ [] := by
      obtain ⟨b, hmem, -⟩ := hb.marked
      exact List.ne_nil_of_mem hmem
    have hform := parseMultiPartFile_multipartText hb hparts
    rw [foldl_addPart] at hform
    exact received_form _ _ _ h.contentType (boundaryOf_multipart boundary) hne hform
      (decodeRequestParams_query h.noQuery (.inl rfl) query _)

namespace Reading

/-- A client's request is read to its last byte, whatever follows it, and the controllers get
what it carries. -/
theorem collect_carried {maxSize maxMultiPartSize : Int} {q : Http.Request} {path : QByteArray}
    {query : List (QByteArray × QByteArray)} {content : Http.Content}
    (h : Readable maxSize maxMultiPartSize q) (hcarries : Carries q path query content)
    (rest : QByteArray) :
    ∃ r, (ofLimits maxSize maxMultiPartSize).collect (q.text ++ rest) = .ok (r, rest) ∧
      r.status = .complete ∧
      r.request = ⟨q.method, path, Assoc.erase (literal "Cookie") (pairs q.headers),
        parametersOf query content, filesOf content, bodyDataOf content⟩ ∧
      r.cookies = cookiesOf (pairs q.headers) := by
  obtain ⟨r, hread, hdelivers⟩ := (h.readsWhole rest).delivers _ (received_of_carries hcarries)
  exact ⟨r, hread, hdelivers.status, hdelivers.request, hdelivers.cookies⟩

section sample

def uploadParts : List Http.Part :=
  [⟨literal "path", none, [], literal "/home/films"⟩,
    ⟨literal "torrent", some (literal "films.torrent"), [literal "Content-Type: application/x-bittorrent"],
      literal "d4:info" ++ Http.crlf ++ literal "--e"⟩]

def upload : Http.Content := .multipart (literal "--form") uploadParts

def uploadQuery : List (QByteArray × QByteArray) := [(literal "a&b", literal "1 + 1")]

def uploadRequest : Http.Request where
  method := literal "POST"
  target := Http.targetText (literal "/upload") uploadQuery
  headers := [⟨literal "Content-Length", Bencode.decimal upload.body.length⟩,
    ⟨literal "Content-Type", upload.type⟩, ⟨literal "Cookie", literal "sessionid=7"⟩]
  body := upload.body

theorem readable_uploadRequest : Readable 16000 1000000 uploadRequest where
  limit := by decide
  method_ne_nil := by decide
  method := List.forall_iff_forall_mem.mp (by decide)
  target := List.forall_iff_forall_mem.mp (by decide +kernel)
  headers := by
    intro h hh
    simp only [uploadRequest, List.mem_cons, List.not_mem_nil, or_false] at hh
    obtain rfl | rfl | rfl := hh
    · exact ⟨by decide, by decide, by decide, by decide +kernel⟩
    · exact ⟨by decide, by decide, by decide, by decide +kernel⟩
    · exact ⟨by decide, by decide, by decide, by decide⟩
  announced := .inr (by decide +kernel)
  head_fits := by decide +kernel
  body_fits := fun hplain => absurd hplain (by decide +kernel)
  file_fits := fun _ => by decide +kernel

theorem carries_uploadRequest : Carries uploadRequest (literal "/upload") uploadQuery upload where
  noQuery := by decide
  target := rfl
  contentType := by decide +kernel
  body := rfl
  sendable := by
    refine ⟨⟨by decide, by decide, 102, by decide, by decide⟩, ?_⟩
    intro part hpart
    simp only [uploadParts, List.mem_cons, List.not_mem_nil, or_false] at hpart
    obtain rfl | rfl := hpart
    · refine ⟨by decide, by decide, ?_, by decide, by decide +kernel, ?_⟩
      · rintro _ ⟨⟩
      · rw [← contains_iff]
        decide +kernel
    · refine ⟨by decide, by decide, ?_, by decide +kernel, by decide +kernel, ?_⟩
      · rintro _ ⟨⟩
        decide
      · rw [← contains_iff]
        decide +kernel

theorem collect_uploadRequest :
    ∃ r, (ofLimits 16000 1000000).collect (uploadRequest.text ++ literal "GET /") =
        .ok (r, literal "GET /") ∧ r.status = .complete ∧
      r.request.method = literal "POST" ∧ r.request.path = literal "/upload" ∧
      Assoc.keys r.request.headers = [literal "Content-Length", literal "Content-Type"] ∧
      r.request.parameters = [(literal "path", literal "/home/films"),
        (literal "torrent", literal "films.torrent"), (literal "a&b", literal "1 + 1")] ∧
      r.request.uploadedFiles =
        [(literal "torrent", literal "d4:info" ++ Http.crlf ++ literal "--e")] ∧
      r.cookies = [(literal "sessionid", literal "7")] := by
  obtain ⟨r, hread, hstatus, hrequest, hcookies⟩ :=
    collect_carried readable_uploadRequest carries_uploadRequest (literal "GET /")
  refine ⟨r, hread, hstatus, ?_⟩
  rw [hrequest, hcookies]
  exact ⟨rfl, rfl, by decide +kernel, by decide, by decide, by decide +kernel⟩

end sample

end Reading

end HttpRequest
end CuteTorrent
