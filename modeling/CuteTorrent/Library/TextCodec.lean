import Mathlib.Data.List.Basic

/-! Latin-1 and UTF-8, and which texts and byte strings survive a conversion and
its inverse. -/

def replacementChar : Char := Char.ofNat 0xFFFD

theorem forall_mem_of_check {α : Type*} {P : α → Prop} [DecidablePred P] {l : List α}
    (h : (l.all fun a => decide (P a)) = true) : ∀ a ∈ l, P a :=
  fun a ha => of_decide_eq_true (List.all_eq_true.mp h a ha)

def codeUnits (c : Char) : List Nat :=
  if c.toNat < 0x10000 then [c.toNat]
  else [0xD800 + (c.toNat - 0x10000) / 0x400, 0xDC00 + (c.toNat - 0x10000) % 0x400]

def utf16 (s : List Char) : List Nat := s.flatMap codeUnits

/-- What Latin-1 does not have becomes a question mark. -/
def toLatin1 (s : List Char) : List UInt8 :=
  (utf16 s).map fun n => if n < 256 then UInt8.ofNat n else 63

/-! ### UTF-8 -/

def toUtf8 (s : List Char) : List UInt8 := s.flatMap String.utf8EncodeChar

def isContinuation (b : UInt8) : Bool := decide (128 ≤ b.toNat ∧ b.toNat < 192)

def announced (b : UInt8) : Nat :=
  if b.toNat < 192 then 0
  else if b.toNat < 224 then 1
  else if b.toNat < 240 then 2
  else if b.toNat < 248 then 3
  else 0

/-- The bytes that belong to a first byte: all it announces, or none. -/
def tailLength (b : UInt8) (bs : List UInt8) : Nat :=
  if announced b ≤ bs.length ∧ (bs.take (announced b)).all isContinuation then announced b else 0

/-- The character of a sequence, or U+FFFD where it is not well formed. -/
def sequenceChar (bs : List UInt8) : Char :=
  (ByteArray.utf8DecodeChar? bs.toByteArray 0).getD replacementChar

def decodeUtf8 : Nat → List UInt8 → List Char
  | 0, _ => []
  | _, [] => []
  | fuel + 1, b :: bs =>
    sequenceChar (b :: bs.take (tailLength b bs)) :: decodeUtf8 fuel (bs.drop (tailLength b bs))

def fromUtf8 (bs : List UInt8) : List Char := decodeUtf8 bs.length bs

@[simp] theorem toUtf8_nil : toUtf8 [] = [] := rfl

@[simp] theorem toUtf8_cons (c : Char) (s : List Char) :
    toUtf8 (c :: s) = String.utf8EncodeChar c ++ toUtf8 s := rfl

@[simp] theorem toUtf8_append (s t : List Char) : toUtf8 (s ++ t) = toUtf8 s ++ toUtf8 t := by
  simp [toUtf8]

theorem isContinuation_ofNat (n : Nat) : isContinuation (UInt8.ofNat (n % 64 + 128)) = true := by
  rw [isContinuation, decide_eq_true_eq, UInt8.toNat_ofNat']
  omega

theorem announced_ofNat {n : Nat} (h : n < 256) : announced (UInt8.ofNat n) =
    if n < 192 then 0 else if n < 224 then 1 else if n < 240 then 2 else if n < 248 then 3 else 0 := by
  rw [announced, UInt8.toNat_ofNat', Nat.mod_eq_of_lt h]

theorem utf8EncodeChar_eq_cons (c : Char) :
    ∃ b bs, String.utf8EncodeChar c = b :: bs ∧ announced b = bs.length ∧
      bs.all isContinuation = true := by
  simp only [String.utf8EncodeChar]
  split_ifs
  · refine ⟨_, _, rfl, ?_, rfl⟩
    rw [announced_ofNat (by omega), if_pos (by omega)]
    rfl
  · refine ⟨_, _, rfl, ?_, by
      simp only [List.all_cons, List.all_nil, isContinuation_ofNat, Bool.and_self]⟩
    rw [announced_ofNat (by omega), if_neg (by omega), if_pos (by omega)]
    rfl
  · refine ⟨_, _, rfl, ?_, by
      simp only [List.all_cons, List.all_nil, isContinuation_ofNat, Bool.and_self]⟩
    rw [announced_ofNat (by omega), if_neg (by omega), if_neg (by omega), if_pos (by omega)]
    rfl
  · refine ⟨_, _, rfl, ?_, by
      simp only [List.all_cons, List.all_nil, isContinuation_ofNat, Bool.and_self]⟩
    rw [announced_ofNat (by omega), if_neg (by omega), if_neg (by omega), if_neg (by omega),
      if_pos (by omega)]
    rfl

theorem tailLength_append {b : UInt8} {bs : List UInt8} (h : announced b = bs.length)
    (hall : bs.all isContinuation = true) (rest : List UInt8) :
    tailLength b (bs ++ rest) = bs.length := by
  have htake : (bs ++ rest).take (announced b) = bs := by rw [h, List.take_left]
  rw [tailLength, htake, if_pos ⟨by simp [h], hall⟩, h]

theorem decodeUtf8_toUtf8 (s : List Char) {fuel : Nat} (h : (toUtf8 s).length ≤ fuel) :
    decodeUtf8 fuel (toUtf8 s) = s := by
  induction s generalizing fuel with
  | nil => cases fuel <;> rfl
  | cons c s ih =>
    obtain ⟨b, bs, hc, hlen, hall⟩ := utf8EncodeChar_eq_cons c
    have hchar : sequenceChar (b :: bs) = c := by
      have hdecode : ByteArray.utf8DecodeChar? (String.utf8EncodeChar c).toByteArray 0 = some c := by
        simpa using ByteArray.utf8DecodeChar?_utf8EncodeChar_append (b := ByteArray.empty) (c := c)
      rw [sequenceChar, ← hc, hdecode]
      rfl
    rw [toUtf8_cons, hc] at h ⊢
    cases fuel with
    | zero => simp at h
    | succ fuel =>
      rw [List.cons_append, decodeUtf8, tailLength_append hlen hall, List.take_left, List.drop_left,
        hchar, ih]
      simp at h
      omega

@[simp] theorem fromUtf8_toUtf8 (s : List Char) : fromUtf8 (toUtf8 s) = s :=
  decodeUtf8_toUtf8 s (Nat.le_refl _)

theorem toUtf8_injective {s t : List Char} (h : toUtf8 s = toUtf8 t) : s = t := by
  rw [← fromUtf8_toUtf8 s, h, fromUtf8_toUtf8]

theorem ofNat_ne_zero {n : Nat} (hpos : 0 < n) (hlt : n < 256) : UInt8.ofNat n ≠ 0 := by
  intro h
  have hn := congrArg UInt8.toNat h
  rw [UInt8.toNat_ofNat', UInt8.toNat_zero] at hn
  omega

theorem ne_zero_of_mem_utf8EncodeChar {c : Char} (h : c.toNat ≠ 0) {b : UInt8}
    (hb : b ∈ String.utf8EncodeChar c) : b ≠ 0 := by
  have hv : c.val.toNat ≠ 0 := h
  simp only [String.utf8EncodeChar] at hb
  split_ifs at hb
  · rw [List.mem_singleton.mp hb]
    exact ofNat_ne_zero (by omega) (by omega)
  · simp only [List.mem_cons, List.not_mem_nil, or_false] at hb
    rcases hb with hb | hb
    all_goals
      rw [hb]
      exact ofNat_ne_zero (by omega) (by omega)
  · simp only [List.mem_cons, List.not_mem_nil, or_false] at hb
    rcases hb with hb | hb | hb
    all_goals
      rw [hb]
      exact ofNat_ne_zero (by omega) (by omega)
  · simp only [List.mem_cons, List.not_mem_nil, or_false] at hb
    rcases hb with hb | hb | hb | hb
    all_goals
      rw [hb]
      exact ofNat_ne_zero (by omega) (by omega)

theorem ne_zero_of_mem_toUtf8 {s : List Char} (h : Char.ofNat 0 ∉ s) {b : UInt8}
    (hb : b ∈ toUtf8 s) : b ≠ 0 := by
  obtain ⟨c, hc, hb⟩ := List.mem_flatMap.mp hb
  apply ne_zero_of_mem_utf8EncodeChar _ hb
  intro hzero
  have hchar : c = Char.ofNat 0 := by rw [← Char.ofNat_toNat c, hzero]
  exact h (hchar ▸ hc)

theorem length_le_length_toUtf8 (s : List Char) : s.length ≤ (toUtf8 s).length := by
  induction s with
  | nil => exact Nat.le_refl 0
  | cons c s ih =>
    have := c.utf8Size_pos
    simp
    omega

theorem toUtf8_ascii {s : List Char} (h : ∀ c ∈ s, c.toNat < 128) :
    toUtf8 s = s.map fun c => UInt8.ofNat c.toNat := by
  induction s with
  | nil => rfl
  | cons c s ih =>
    have hc : c.toNat ≤ 127 := by
      have := h c (by simp)
      omega
    have hone : String.utf8EncodeChar c = [UInt8.ofNat c.toNat] := by
      simp only [String.utf8EncodeChar]
      exact if_pos hc
    rw [toUtf8_cons, hone, ih fun d hd => h d (by simp [hd])]
    rfl

theorem fromUtf8_ascii {bs : List UInt8} (h : ∀ b ∈ bs, b.toNat < 128) :
    fromUtf8 bs = bs.map fun b => Char.ofNat b.toNat := by
  have hnat : ∀ n < 128, (Char.ofNat n).toNat = n := by decide
  have hback : toUtf8 (bs.map fun b => Char.ofNat b.toNat) = bs := by
    have hchars : ∀ c ∈ bs.map fun b => Char.ofNat b.toNat, c.toNat < 128 := by
      intro c hc
      obtain ⟨b, hb, rfl⟩ := List.mem_map.mp hc
      rw [hnat _ (h b hb)]
      exact h b hb
    rw [toUtf8_ascii hchars, List.map_map]
    conv_rhs => rw [← List.map_id bs]
    apply List.map_congr_left
    intro b hb
    rw [Function.comp_apply, hnat _ (h b hb), UInt8.ofNat_toNat]
    rfl
  conv_lhs => rw [← hback, fromUtf8_toUtf8]

theorem toUtf8_fromUtf8_iff (bs : List UInt8) : toUtf8 (fromUtf8 bs) = bs ↔ ∃ s, toUtf8 s = bs := by
  constructor
  · intro h
    exact ⟨_, h⟩
  · rintro ⟨s, rfl⟩
    rw [fromUtf8_toUtf8]

/-! ### The number of code units -/

/-- No byte is followed by the continuation bytes it announces. -/
def NoSequence : List UInt8 → Prop
  | [] => True
  | b :: bs => tailLength b bs = 0 ∧ NoSequence bs

instance : ∀ bs, Decidable (NoSequence bs)
  | [] => .isTrue trivial
  | b :: bs =>
    let _ := instDecidableNoSequence bs
    inferInstanceAs (Decidable (tailLength b bs = 0 ∧ NoSequence bs))

theorem tailLength_le_length (b : UInt8) (bs : List UInt8) : tailLength b bs ≤ bs.length := by
  rw [tailLength]
  split_ifs with h
  · exact h.1
  · exact Nat.zero_le _

theorem tailLength_le_three (b : UInt8) (bs : List UInt8) : tailLength b bs ≤ 3 := by
  rw [tailLength, announced]
  split_ifs <;> omega

theorem length_codeUnits_sequenceChar (bs : List UInt8) :
    (codeUnits (sequenceChar bs)).length = 1 ∨
      (codeUnits (sequenceChar bs)).length = 2 ∧ 4 ≤ bs.length := by
  rw [sequenceChar]
  cases hc : ByteArray.utf8DecodeChar? bs.toByteArray 0 with
  | none => exact .inl rfl
  | some c =>
    have hsize := ByteArray.le_size_of_utf8DecodeChar?_eq_some hc
    rw [List.size_toByteArray] at hsize
    rw [Option.getD_some, codeUnits]
    split_ifs with hunit
    · exact .inl rfl
    · refine .inr ⟨rfl, ?_⟩
      have hfour : c.utf8Size = 4 := by
        rw [Char.utf8Size_eq_four_iff, UInt32.lt_iff_toNat_lt]
        exact Nat.not_lt.mp hunit
      omega

theorem length_utf16_decodeUtf8 {fuel : Nat} {bs : List UInt8} (h : bs.length ≤ fuel) :
    (utf16 (decodeUtf8 fuel bs)).length ≤ bs.length ∧
      ((utf16 (decodeUtf8 fuel bs)).length = bs.length ↔ NoSequence bs) := by
  induction fuel generalizing bs with
  | zero =>
    rw [List.length_eq_zero_iff.mp (Nat.le_zero.mp h)]
    exact ⟨Nat.le_refl 0, iff_of_true rfl trivial⟩
  | succ fuel ih =>
    cases bs with
    | nil => exact ⟨Nat.le_refl 0, iff_of_true rfl trivial⟩
    | cons b bs =>
      have htail := tailLength_le_length b bs
      have hunits := length_codeUnits_sequenceChar (b :: bs.take (tailLength b bs))
      have hthree := tailLength_le_three b bs
      have hlength : (bs.drop (tailLength b bs)).length = bs.length - tailLength b bs :=
        List.length_drop
      rw [List.length_cons] at h
      obtain ⟨hle, hiff⟩ := ih (show (bs.drop (tailLength b bs)).length ≤ fuel by omega)
      have hsum : (utf16 (decodeUtf8 (fuel + 1) (b :: bs))).length =
          (codeUnits (sequenceChar (b :: bs.take (tailLength b bs)))).length +
            (utf16 (decodeUtf8 fuel (bs.drop (tailLength b bs)))).length := by
        simp only [decodeUtf8, utf16, List.flatMap_cons, List.length_append]
      rw [List.length_cons, List.length_take, Nat.min_eq_left htail] at hunits
      rw [hsum, List.length_cons, NoSequence]
      refine ⟨by omega, ?_⟩
      by_cases hzero : tailLength b bs = 0
      · rw [hzero] at hunits hiff hle hlength ⊢
        rw [List.drop_zero] at hiff hle ⊢
        rw [← hiff]
        omega
      · exact iff_of_false (by omega) fun hno => hzero hno.1

theorem length_utf16_fromUtf8_eq_iff (bs : List UInt8) :
    (utf16 (fromUtf8 bs)).length = bs.length ↔ NoSequence bs :=
  (length_utf16_decodeUtf8 (Nat.le_refl _)).2
