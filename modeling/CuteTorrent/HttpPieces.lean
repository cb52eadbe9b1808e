import CuteTorrent.HttpReading

/-! A request comes in pieces, as the network cuts them. -/
namespace CuteTorrent
namespace HttpRequest
namespace Reading

theorem open_ofLimits {maxSize : Int} (hlimit : maxSize < 2 ^ 31 - 1) (hnonneg : 0 ≤ maxSize)
    (maxMultiPartSize : Int) : (ofLimits maxSize maxMultiPartSize).Open := by
  refine ⟨⟨hlimit, le_refl 0, le_refl 0, fun _ => ⟨rfl, rfl, rfl⟩, ?_, ?_⟩, fun _ => hnonneg⟩
  · intro he
    cases he
  · intro he
    cases he

theorem afterRead_of_open {r : Reading} (h : r.Open) (hgoes : r.ended = false) : r.afterRead = r := by
  have hfits := h.fits hgoes
  have hwaits : r.status ≠ .complete := fun he => by simp [ended, he] at hgoes
  rw [afterRead, if_neg (by omega), if_neg hwaits]

theorem not_ended_of_body {r : Reading} (h : r.status = .waitForBody) : r.ended = false := by
  simp [ended, h]

/-- A body is read in blocks, as if in one piece. -/
theorem collect_body {r : Reading} (h : r.Open) (hstatus : r.status = .waitForBody)
    {socket : QByteArray} (hsocket : socket ≠ []) :
    r.collect socket = (r.append (socket.take r.due)).checkBody >>= fun next =>
      .ok (next.afterRead, socket.drop r.due) := by
  have hall : ∀ (n : Nat) (r : Reading) (socket : QByteArray), r.Open → r.status = .waitForBody →
      socket ≠ [] → socket.length < n →
      r.collect socket = (r.append (socket.take r.due)).checkBody >>= fun next =>
        .ok (next.afterRead, socket.drop r.due) := by
    intro n
    induction n with
    | zero =>
      intro r socket _ _ _ hn
      omega
    | succ n ih =>
      intro r socket h hstatus hsocket hn
      rw [collect, Reader.gather_eq shortens h (not_ended_of_body hstatus) hsocket,
        readFromSocket_body hstatus]
      by_cases hlast : r.block = r.due ∨ socket.length ≤ r.block
      · have hle : r.block ≤ r.due := by
          unfold block
          split_ifs <;> omega
        have htake : socket.take r.block = socket.take r.due := by
          rcases hlast with he | hlen
          · rw [he]
          · rw [List.take_of_length_le hlen, List.take_of_length_le (hlen.trans hle)]
        have hdrop : socket.drop r.block = socket.drop r.due := by
          rcases hlast with he | hlen
          · rw [he]
          · rw [List.drop_of_length_le hlen, List.drop_of_length_le (hlen.trans hle)]
        rw [htake, hdrop]
        cases hcheck : (r.append (socket.take r.due)).checkBody with
        | error e => rfl
        | ok next =>
          change Reader.gather ended readFromSocket next.afterRead (socket.drop r.due) = _
          by_cases hrest : socket.length ≤ r.due
          · rw [List.drop_of_length_le hrest]
            rfl
          · refine Reader.gather_of_ended (ended_afterRead (checkBody_full hcheck ?_).1) _
            rw [expectedBodySize_append, kept_append, List.length_append, List.length_take]
            unfold due at hrest ⊢
            omega
      · rw [not_or] at hlast
        have hfile : r.boundary ≠ [] := fun hplain => hlast.1 (if_pos hplain)
        have hblock : r.block = min r.due 65536 := if_neg hfile
        have hdue : 65536 < r.due := by omega
        have hkept : (socket.take r.block).length = 65536 := by
          rw [List.length_take]
          omega
        have hshort : ((r.kept ++ socket.take r.block).length : Int) < r.expectedBodySize := by
          rw [List.length_append, hkept]
          unfold due at hdue
          omega
        have hsound := sound_append h.toSound hstatus hshort
        have hbody : (r.append (socket.take r.block)).status = .waitForBody := by
          rw [status_append, hstatus]
        have hopen : (r.append (socket.take r.block)).Open := by
          refine ⟨hsound, fun _ => ?_⟩
          have hfits := h.fits (not_ended_of_body hstatus)
          rw [append_eq_file hfile]
          exact hfits
        rw [checkBody_append_short h.toSound hstatus hshort]
        change Reader.gather ended readFromSocket (r.append (socket.take r.block)).afterRead
          (socket.drop r.block) = _
        rw [afterRead_of_open hopen (not_ended_of_body hbody)]
        have hrest : socket.drop r.block ≠ [] := by
          rw [ne_eq, List.drop_eq_nil_iff]
          omega
        have hlen : (socket.drop r.block).length < n := by
          rw [List.length_drop]
          omega
        have hsplit : r.due = r.block + (r.due - r.block) := by omega
        have hnext := ih _ _ hopen hbody hrest hlen
        rw [due_append, append_append, hkept, show 65536 = r.block by omega, ← List.take_add,
          List.drop_drop, ← hsplit] at hnext
        exact hnext
  exact hall _ r socket h hstatus hsocket (Nat.lt_succ_self _)

def Unchanged (r r' : Reading) : Prop :=
  r'.bodyData = r.bodyData ∧ r'.tempFile = r.tempFile ∧ r'.maxSize = r.maxSize ∧
    r'.maxMultiPartSize = r.maxMultiPartSize

theorem unchanged_requestLine (r : Reading) (newData : QByteArray) :
    Unchanged r (r.requestLine newData) := by
  unfold requestLine
  dsimp only
  split_ifs
  · exact ⟨rfl, rfl, rfl, rfl⟩
  · split
    · split_ifs <;> exact ⟨rfl, rfl, rfl, rfl⟩
    · exact ⟨rfl, rfl, rfl, rfl⟩

theorem unchanged_headerLine (r : Reading) (newData : QByteArray) :
    Unchanged r (r.headerLine newData) := by
  unfold headerLine
  dsimp only
  split
  · exact ⟨rfl, rfl, rfl, rfl⟩
  · split_ifs
    · exact ⟨rfl, rfl, rfl, rfl⟩
    · exact ⟨rfl, rfl, rfl, rfl⟩
    · unfold endOfHeaders
      dsimp only
      split_ifs <;> exact ⟨rfl, rfl, rfl, rfl⟩

theorem unchanged_afterRead (r : Reading) : Unchanged r r.afterRead := by
  unfold afterRead
  split_ifs <;> exact ⟨rfl, rfl, rfl, rfl⟩

theorem unchanged_nextLine (r : Reading) (newData : QByteArray) :
    Unchanged r (r.nextLine newData) := by
  have hafter := unchanged_afterRead
    (if r.status = .waitForRequest then r.requestLine newData else r.headerLine newData)
  unfold nextLine Unchanged
  rw [hafter.1, hafter.2.1, hafter.2.2.1, hafter.2.2.2]
  split_ifs
  · exact unchanged_requestLine r newData
  · exact unchanged_headerLine r newData

theorem kept_nextLine {r : Reading} (h : r.Open) (hline : r.lineState) (newData : QByteArray) :
    (r.nextLine newData).kept = [] := by
  obtain ⟨hbody, hfile, -⟩ := h.lines hline
  obtain ⟨hbody', hfile', -⟩ := unchanged_nextLine r newData
  unfold kept
  split_ifs
  · rw [hbody', hbody]
  · rw [hfile', hfile]

theorem limits_checkBody {r r' : Reading} (h : r.checkBody = .ok r') :
    r'.maxSize = r.maxSize ∧ r'.maxMultiPartSize = r.maxMultiPartSize := by
  unfold checkBody at h
  split_ifs at h
  · cases h
    exact ⟨rfl, rfl⟩
  · cases h
    exact ⟨rfl, rfl⟩
  · cases h
    exact ⟨rfl, rfl⟩
  · obtain ⟨parsed, hparse, h⟩ := bind_eq_ok h
    obtain ⟨parts, -, hparts⟩ := bind_eq_ok hparse
    cases hparts
    cases h
    exact ⟨rfl, rfl⟩
  · cases h
    exact ⟨rfl, rfl⟩

theorem limits_collect {r r' : Reading} {socket rest : QByteArray} (hopen : r.Open)
    (hread : r.collect socket = .ok (r', rest)) :
    r'.maxSize = r.maxSize ∧ r'.maxMultiPartSize = r.maxMultiPartSize := by
  refine Reader.gather_induction shortens (P := fun r _ r' _ =>
    r'.maxSize = r.maxSize ∧ r'.maxMultiPartSize = r.maxMultiPartSize) ?_ ?_ hopen hread
  · exact fun r socket _ _ => ⟨rfl, rfl⟩
  · rintro r socket t rest r' rest' h hgoes - hstep - - ⟨hmax, hmulti⟩
    rw [hmax, hmulti]
    rcases lineState_or_body hgoes with hline | hstatus
    · rw [readFromSocket_line h hline] at hstep
      cases hstep
      exact (unchanged_nextLine r _).2.2
    · rw [readFromSocket_body hstatus] at hstep
      obtain ⟨next, hcheck, hnext⟩ := bind_eq_ok hstep
      cases hnext
      obtain ⟨hmax', hmulti', -⟩ := append_bounds h.toSound (socket.take r.block)
      obtain ⟨hmaxNext, hmultiNext⟩ := limits_checkBody hcheck
      have hafter := (unchanged_afterRead next).2.2
      exact ⟨hafter.1.trans (hmaxNext.trans hmax'), hafter.2.trans (hmultiNext.trans hmulti')⟩

theorem collect_line {r : Reading} (h : r.Open) (hline : r.lineState) {socket : QByteArray}
    (hsocket : socket ≠ []) :
    r.collect socket =
      (r.nextLine (trimmedBytes (takeLine ((r.maxSize - r.currentSize).toNat + 1) socket).1)).collect
        (takeLine ((r.maxSize - r.currentSize).toNat + 1) socket).2 := by
  have hgoes : r.ended = false := by
    unfold ended
    cases hline with
    | inl he => simp [he]
    | inr he => simp [he]
  rw [collect, Reader.gather_eq shortens h hgoes hsocket, readFromSocket_line h hline]
  rfl

theorem collect_body_open {r r' : Reading} (h : r.Open) (hstatus : r.status = .waitForBody)
    {s rest : QByteArray} (hs : s ≠ []) (hread : r.collect s = .ok (r', rest))
    (hgoes : r'.ended = false) : r' = r.append s ∧ s.length < r.due := by
  rw [collect_body h hstatus hs] at hread
  obtain ⟨next, hcheck, hnext⟩ := bind_eq_ok hread
  cases hnext
  have hshort : ((r.kept ++ s.take r.due).length : Int) < r.expectedBodySize := by
    by_contra hfull
    have hended := (checkBody_full hcheck (by
      rw [expectedBodySize_append, kept_append]
      omega)).1
    rw [ended_afterRead hended] at hgoes
    cases hgoes
  have hlen : s.length < r.due := by
    rw [List.length_append, List.length_take] at hshort
    unfold due at hshort ⊢
    omega
  rw [checkBody_append_short h.toSound hstatus hshort] at hcheck
  cases hcheck
  rw [List.take_of_length_le hlen.le] at hgoes ⊢
  refine ⟨?_, hlen⟩
  have hbody : (r.append s).status = .waitForBody := by rw [status_append, hstatus]
  unfold afterRead at hgoes ⊢
  split_ifs at hgoes ⊢ with hmany hcomplete
  · cases hgoes
  · rw [hbody] at hcomplete
    cases hcomplete
  · rfl

theorem collect_append_of_length_lt {r' : Reading} {rest : QByteArray} (hgoes : r'.ended = false)
    (t : QByteArray) (n : Nat) : ∀ (r : Reading) (s : QByteArray), r.Open → s.length < n →
      r.collect s = .ok (r', rest) → (s = [] ∨ s.getLast? = some 10 ∨ r'.kept ≠ []) →
      r.collect (s ++ t) = r'.collect t := by
  induction n with
  | zero =>
    intro r s _ hn
    omega
  | succ n ih =>
    intro r s h hn hread hcut
    by_cases hs : s = []
    · subst hs
      cases hread
      rfl
    by_cases hend : r.ended = true
    · rw [collect, Reader.gather_of_ended hend] at hread
      cases hread
      rw [hgoes] at hend
      cases hend
    have hst : s ++ t ≠ [] := by simp [hs]
    rcases lineState_or_body (by simpa using hend) with hline | hstatus
    · rw [collect_line h hline hs] at hread
      rw [collect_line h hline hst]
      by_cases hfound : 10 ∈ s ∨ (r.maxSize - r.currentSize).toNat + 1 ≤ s.length
      · rw [takeLine_append hfound]
        have hsuffix := takeLine_suffix ((r.maxSize - r.currentSize).toNat + 1) s
        have hshort : (takeLine ((r.maxSize - r.currentSize).toNat + 1) s).2.length < s.length :=
          length_takeLine_lt hs
        refine ih _ _ (open_nextLine h.toSound hline _) (by omega) hread ?_
        rcases hcut with hnil | hlast | hkept
        · exact absurd hnil hs
        · by_cases hrest : (takeLine ((r.maxSize - r.currentSize).toNat + 1) s).2 = []
          · exact .inl hrest
          · exact .inr (.inl ((getLast?_of_suffix hsuffix hrest).trans hlast))
        · exact .inr (.inr hkept)
      · rw [not_or] at hfound
        rw [takeLine_all hfound.1 (by omega)] at hread
        cases hread
        rcases hcut with hnil | hlast | hkept
        · exact absurd hnil hs
        · exact absurd (List.mem_of_getLast? hlast) hfound.1
        · exact absurd (kept_nextLine h hline _) hkept
    · obtain ⟨rfl, hlen⟩ := collect_body_open h hstatus hs hread hgoes
      have hopen : (r.append s).Open := (Reader.gather_spec shortens h hread).1
      have hbody : (r.append s).status = .waitForBody := by rw [status_append, hstatus]
      by_cases ht : t = []
      · subst ht
        obtain rfl : rest = [] :=
          (Reader.gather_spec shortens h hread).2.2.resolve_right (by simp [hgoes])
        rw [List.append_nil]
        exact hread
      · rw [collect_body h hstatus hst, collect_body hopen hbody ht, append_append, due_append,
          List.take_append, List.drop_append, List.take_of_length_le hlen.le,
          List.drop_of_length_le hlen.le, List.nil_append]

/-- A piece that ends behind a line break, or inside the body, may as well have come
together with the next. -/
theorem collect_append {r r' : Reading} {s rest : QByteArray} (h : r.Open)
    (hread : r.collect s = .ok (r', rest)) (hgoes : r'.ended = false)
    (hcut : s = [] ∨ s.getLast? = some 10 ∨ r'.kept ≠ []) (t : QByteArray) :
    r.collect (s ++ t) = r'.collect t :=
  collect_append_of_length_lt hgoes t (s.length + 1) r s h (Nat.lt_succ_self _) hread hcut

theorem collect_append_request_line : ∃ r',
    (ofLimits 16000 1000000).collect (literal "GET / HTTP/1.1\r\n") = .ok (r', []) ∧
      (ofLimits 16000 1000000).collect (literal "GET / HTTP/1.1\r\n" ++ literal "\r\n") =
        r'.collect (literal "\r\n") :=
  ⟨_, rfl, collect_append (open_ofLimits (by decide) (by decide) _) rfl rfl (.inr (.inl (by decide)))
    (literal "\r\n")⟩

end Reading
end HttpRequest
end CuteTorrent
