import CuteTorrent.TorrentFiles

/-! What `initSession` makes of a folder: which files stop a call of
`AddTorrent`, and which keep a later torrent from being loaded. -/
namespace CuteTorrent
namespace TorrentManager
open Naming Bencode

/-! ### Resume data -/

def IsText (i : Entry) : Prop := i = .undefined ∨ ∃ s, i = .string s

/-- Resume data that `AddTorrent` can take its three texts from, if they are
there: it does not end inside a list or a dictionary, and it is nothing at all
or a dictionary without a wrongly typed text. -/
def Readable (buf : QByteArray) : Prop :=
  ∃ e, bdecode buf = .ok e ∧ (e = .undefined ∨ ∃ d, e = .dict d ∧
    ∀ key ∈ [keyTorrentName, keyTorrentGroup, keySavePath], ∀ i, Assoc.find key d = some i → IsText i)

theorem stringValue_ok_iff (i : Entry) : (∃ s, i.stringValue = .ok s) ↔ IsText i := by
  cases i <;> simp [Entry.stringValue, IsText]

section
variable (p : Platform)

theorem textField_ok_iff {e : Entry} {d : List (QByteArray × Entry)} (hd : e.dictionary = .ok d)
    (key : QByteArray) (text : QString) :
    (∃ s, textField p e key text = .ok s) ↔ ∀ i, Assoc.find key d = some i → IsText i := by
  cases hf : Assoc.find key d with
  | none => simp [textField, Entry.findKey, hd, hf, Bind.bind, Except.bind, Pure.pure, Except.pure]
  | some i =>
    have htext := stringValue_ok_iff i
    cases hs : i.stringValue with
    | error f =>
      simp [hs] at htext
      simp [textField, Entry.findKey, hd, hf, hs, Bind.bind, Except.bind, Pure.pure, Except.pure,
        htext]
    | ok s =>
      simp [hs] at htext
      simp [textField, Entry.findKey, hd, hf, hs, Bind.bind, Except.bind, Pure.pure, Except.pure,
        htext]

theorem resumeFields_ok_iff (buf : QByteArray) (given : AddFields) :
    (∃ fields, resumeFields p buf given = .ok fields) ↔ Readable buf := by
  have hdict : ∀ e : Entry, (∃ d, e.dictionary = .ok d) ↔ e = .undefined ∨ ∃ d, e = .dict d := by
    intro e
    cases e <;> simp [Entry.dictionary]
  constructor
  · intro ⟨fields, h⟩
    obtain ⟨e, he, h⟩ := bind_eq_ok h
    obtain ⟨name, hname, h⟩ := bind_eq_ok h
    obtain ⟨group, hgroup, h⟩ := bind_eq_ok h
    obtain ⟨savePath, hpath, -⟩ := bind_eq_ok h
    have hd : ∃ d, e.dictionary = .ok d := by
      obtain ⟨f, hf, -⟩ := bind_eq_ok hname
      obtain ⟨d, hd, -⟩ := bind_eq_ok hf
      exact ⟨d, hd⟩
    refine ⟨e, he, ?_⟩
    rcases (hdict e).mp hd with rfl | ⟨d, rfl⟩
    · exact Or.inl rfl
    · refine Or.inr ⟨d, rfl, ?_⟩
      have hrfl : (Entry.dict d).dictionary = .ok d := rfl
      simp only [List.forall_mem_cons, List.not_mem_nil, false_imp_iff, implies_true, and_true]
      exact ⟨(textField_ok_iff p hrfl _ _).mp ⟨_, hname⟩, (textField_ok_iff p hrfl _ _).mp ⟨_, hgroup⟩,
        (textField_ok_iff p hrfl _ _).mp ⟨_, hpath⟩⟩
  · intro ⟨e, he, h⟩
    have hfields : ∃ d, e.dictionary = .ok d ∧
        ∀ key ∈ [keyTorrentName, keyTorrentGroup, keySavePath],
          ∀ i, Assoc.find key d = some i → IsText i := by
      rcases h with rfl | ⟨d, rfl, h⟩
      · exact ⟨[], rfl, by simp⟩
      · exact ⟨d, rfl, h⟩
    obtain ⟨d, hd, htexts⟩ := hfields
    obtain ⟨name, hname⟩ := (textField_ok_iff p hd _ given.name).mpr
      (htexts keyTorrentName (by simp))
    obtain ⟨group, hgroup⟩ := (textField_ok_iff p hd _ given.group).mpr
      (htexts keyTorrentGroup (by simp))
    obtain ⟨savePath, hpath⟩ := (textField_ok_iff p hd _ given.savePath).mpr
      (htexts keySavePath (by simp))
    refine ⟨⟨name, group, savePath⟩, ?_⟩
    simp only [resumeFields, he, hname, hgroup, hpath, Bind.bind, Except.bind]
    rfl

end

/-! ### One call -/

theorem has_append (session : Session) (s : SessionTorrent) (h : Sha1Hash) :
    Session.Has (session ++ [s]) h ↔ session.Has h ∨ s.infoHash = h := by
  simp [Session.Has, or_and_right, exists_or]

theorem find_eq_none {session : Session} {h : Sha1Hash} :
    session.find h = none ↔ ¬ session.Has h := by
  simp [Session.find, Session.Has]

theorem find_append_of_has {session : Session} {h : Sha1Hash} (hh : session.Has h)
    (s : SessionTorrent) : Session.find (session ++ [s]) h = session.find h := by
  have hsome : (session.find h).isSome := by
    rw [Option.isSome_iff_ne_none, ne_eq, find_eq_none, not_not]
    exact hh
  rw [Session.find, List.find?_append]
  exact Option.or_of_isSome hsome

theorem find_append_self {session : Session} {s : SessionTorrent} (h : ¬ session.Has s.infoHash) :
    Session.find (session ++ [s]) s.infoHash = some s := by
  have hnone := find_eq_none.mpr h
  rw [Session.find] at hnone ⊢
  rw [List.find?_append, hnone]
  simp

section
variable [Libtorrent] (p : Platform)

@[simp] theorem isValid_infoOf_rename (name : QString) (t : TorrentInfo) (buf : QByteArray) :
    (Session.infoOf (rename p name t) buf).isValid = (Session.infoOf t buf).isValid := by
  unfold Session.infoOf
  rw [isValid_rename]
  split_ifs
  · exact isValid_rename p name t
  · cases Libtorrent.resumeInfo buf with
    | none => exact isValid_rename p name t
    | some info => rfl

@[simp] theorem infoHash_infoOf_rename (name : QString) (t : TorrentInfo) (buf : QByteArray) :
    (Session.infoOf (rename p name t) buf).infoHash = (Session.infoOf t buf).infoHash := by
  unfold Session.infoOf
  rw [isValid_rename]
  split_ifs
  · exact infoHash_rename p name t
  · cases Libtorrent.resumeInfo buf with
    | none => exact infoHash_rename p name t
    | some info => rfl

theorem infoOf_of_isValid {t : TorrentInfo} (h : t.isValid = true) (buf : QByteArray) :
    Session.infoOf t buf = t := by
  rw [Session.infoOf, if_pos (Or.inl h)]

theorem addTorrent_eq_some {session : Session} {params : AddTorrentParams} {s : SessionTorrent}
    (h : session.addTorrent params = some s) :
    ¬ (params.ti.isValid = true ∧ params.ti.files = []) ∧
      ¬ session.Has (Session.infoOf params.ti params.resumeData).infoHash ∧
      s = ⟨Session.infoOf params.ti params.resumeData, params⟩ := by
  simp only [Session.addTorrent] at h
  split_ifs at h with hfiles hhas
  exact ⟨hfiles, hhas, (Option.some.inj h).symm⟩

theorem addTorrent_eq_none {session : Session} {params : AddTorrentParams}
    (h : session.addTorrent params = none) :
    (params.ti.isValid = true ∧ params.ti.files = []) ∨
      session.Has (Session.infoOf params.ti params.resumeData).infoHash := by
  simp only [Session.addTorrent] at h
  split_ifs at h with hfiles hhas
  · exact Or.inl hfiles
  · exact Or.inr hhas

end

section
variable [DataFolder] (p : Platform)

theorem prepare_ok_iff (w : World) (c : AddCall) (t : TorrentInfo) :
    (∃ r, prepare p w c t = .ok r) ↔
      ∀ buf, loadFile w.disk (hashFile t.infoHash .resume) = some buf → Readable buf := by
  unfold prepare
  cases hl : loadFile w.disk (hashFile t.infoHash .resume) with
  | none => simp
  | some buf =>
    have hfields := resumeFields_ok_iff p buf c.fields
    constructor
    · intro ⟨r, h⟩ buf' hbuf
      obtain rfl := Option.some.inj hbuf
      obtain ⟨fields, hf, -⟩ := bind_eq_ok h
      exact hfields.mp ⟨fields, hf⟩
    · intro h
      obtain ⟨fields, hf⟩ := hfields.mpr (h buf rfl)
      exact ⟨(addParams p t fields c.filePriorities buf c.sequntial, fields.group), by simp only [hf]; rfl⟩

end

section
variable [DataFolder]

theorem hasTorrent_added (w : World) (s : SessionTorrent) (group : QString) (h : Sha1Hash) :
    (w.storrage.append ⟨⟨true, s.infoHash, .initial, false⟩, group⟩).hasTorrent h.hex = true ↔
      w.storrage.hasTorrent h.hex = true ∨ s.infoHash = h := by
  have hkey : (⟨⟨true, s.infoHash, .initial, false⟩, group⟩ : Torrent).getInfoHash =
      s.infoHash.hex := rfl
  rw [TorrentStorrage.hasTorrent_append, hkey, or_comm]
  apply or_congr_right
  exact ⟨fun he => (Sha1Hash.hex_injective he).symm, fun he => he ▸ rfl⟩

theorem resolve_resume_ne (h k : Sha1Hash) :
    resolve (hashFile k .resume) ≠ resolve (hashFile h .torrent) := by
  rw [DataFolder.resolve_hashFile, DataFolder.resolve_hashFile]
  intro he
  exact absurd (hashFile_injective he).2 (by simp)

end

section
variable [DataFolder] [Libtorrent] (p : Platform)

def Sound (w : World) (c : AddCall) : Prop :=
  ∀ t, torrentInfo w.disk (nativePath (toUtf8 c.path)) = some t →
    (∀ buf, loadFile w.disk (hashFile t.infoHash .resume) = some buf → Readable buf) ∧
    ((Session.infoOf t (resumeData w.disk t)).isValid = true ∨
      w.session.Has (Session.infoOf t (resumeData w.disk t)).infoHash)

/-- The call returns, with true exactly when it brought a torrent into the
session and the store, and otherwise leaves both as they were. -/
def AllOrNothing (w : World) (c : AddCall) : Prop :=
  ∃ b, (AddTorrent p w c).2 = .ok b ∧
    (b = true ↔ ∃ h, ¬ w.session.Has h ∧ (AddTorrent p w c).1.session.Has h ∧
      (AddTorrent p w c).1.storrage.hasTorrent h.hex = true) ∧
    (b = false → (AddTorrent p w c).1.session = w.session ∧
      (AddTorrent p w c).1.storrage = w.storrage)

theorem addTorrent_ok_iff (w : World) (c : AddCall) :
    (∃ b, (AddTorrent p w c).2 = .ok b) ↔ Sound w c := by
  have hout := addTorrent_outcome p w c
  generalize AddTorrent p w c = r at hout
  cases hout with
  | unreadable ht =>
    exact ⟨fun _ t h => absurd (ht.symm.trans h) (by simp), fun _ => ⟨false, rfl⟩⟩
  | @badResume t f ht hp =>
    constructor
    · rintro ⟨b, hb⟩
      exact absurd hb (by simp)
    · intro h
      obtain ⟨r, hr⟩ := (prepare_ok_iff p w c t).mpr (h t ht).1
      exact absurd (hp.symm.trans hr) (by simp)
  | @rejected t params group ht hp hs =>
    obtain ⟨fields, -, rfl⟩ := prepare_ok hp
    refine ⟨fun _ u hu => ?_, fun _ => ⟨false, rfl⟩⟩
    obtain rfl := Option.some.inj (ht.symm.trans hu)
    refine ⟨(prepare_ok_iff p w c t).mp ⟨_, hp⟩, ?_⟩
    rcases addTorrent_eq_none hs with ⟨hv, -⟩ | hhas
    · have hv' : t.isValid = true := by simpa [addParams] using hv
      exact Or.inl (by rw [infoOf_of_isValid hv', hv'])
    · exact Or.inr (by simpa [addParams] using hhas)
  | @noMetadata t params group s ht hp hs hv =>
    obtain ⟨fields, -, rfl⟩ := prepare_ok hp
    obtain ⟨-, hnew, rfl⟩ := addTorrent_eq_some hs
    constructor
    · rintro ⟨b, hb⟩
      exact absurd hb (by simp)
    · intro h
      simp only [addParams, isValid_infoOf_rename, infoHash_infoOf_rename] at hv hnew
      cases (h t ht).2 with
      | inl hc => exact absurd (hv.symm.trans hc) (by simp)
      | inr hc => exact absurd hc hnew
  | @added t params group s ht hp hs hv =>
    obtain ⟨fields, -, rfl⟩ := prepare_ok hp
    obtain ⟨-, hnew, rfl⟩ := addTorrent_eq_some hs
    refine ⟨fun _ u hu => ?_, fun _ => ⟨true, rfl⟩⟩
    obtain rfl := Option.some.inj (ht.symm.trans hu)
    exact ⟨(prepare_ok_iff p w c t).mp ⟨_, hp⟩, Or.inl (by simpa [addParams] using hv)⟩

theorem allOrNothing_iff (w : World) (c : AddCall) : AllOrNothing p w c ↔ Sound w c := by
  rw [← addTorrent_ok_iff p]
  constructor
  · intro ⟨b, hb, _⟩
    exact ⟨b, hb⟩
  · intro ⟨b, hb⟩
    refine ⟨b, hb, ?_⟩
    have hout := addTorrent_outcome p w c
    generalize AddTorrent p w c = r at hb hout
    cases hout with
    | unreadable ht =>
      obtain rfl := Except.ok.inj hb
      exact ⟨⟨by simp, fun ⟨h, hn, hh, _⟩ => absurd hh hn⟩, fun _ => ⟨rfl, rfl⟩⟩
    | badResume ht hp => exact absurd hb (by simp)
    | rejected ht hp hs =>
      obtain rfl := Except.ok.inj hb
      exact ⟨⟨by simp, fun ⟨h, hn, hh, _⟩ => absurd hh hn⟩, fun _ => ⟨rfl, rfl⟩⟩
    | noMetadata ht hp hs hv => exact absurd hb (by simp)
    | @added t params group s ht hp hs hv =>
      obtain rfl := Except.ok.inj hb
      obtain ⟨-, hnew, rfl⟩ := addTorrent_eq_some hs
      refine ⟨⟨fun _ => ⟨_, hnew, ?_, ?_⟩, fun _ => rfl⟩, by simp⟩
      · exact (has_append _ _ _).mpr (Or.inr rfl)
      · exact (hasTorrent_added _ _ _ _).mpr (Or.inr rfl)

/-! ### The files that offer a torrent -/

/-- A call on the file brings this torrent into the session, if it is not there. -/
def Offers (disk : CtData) (entry : QString) (h : Sha1Hash) : Prop :=
  ∃ t, torrentInfo disk (nativePath (toUtf8 entry)) = some t ∧
    ¬ (t.isValid = true ∧ t.files = []) ∧
    (Session.infoOf t (resumeData disk t)).isValid = true ∧
    (Session.infoOf t (resumeData disk t)).infoHash = h

def InStep (w : World) : Prop :=
  ∀ h : Sha1Hash, w.session.Has h ↔ w.storrage.hasTorrent h.hex = true

def withoutNamed (w : World) (c : AddCall) : CtData :=
  match acceptedParams p w c with
  | some params => w.disk.remove (namedFile p params.ti.name)
  | none => w.disk

theorem has_addTorrent {w : World} {c : AddCall} (hs : Sound w c) (h : Sha1Hash) :
    (AddTorrent p w c).1.session.Has h ↔ w.session.Has h ∨ Offers w.disk c.path h := by
  have hout := addTorrent_outcome p w c
  generalize AddTorrent p w c = r at hout
  cases hout with
  | unreadable ht => simp [Offers, ht]
  | @badResume t f ht hp =>
    obtain ⟨r, hr⟩ := (prepare_ok_iff p w c t).mpr (hs t ht).1
    exact absurd (hp.symm.trans hr) (by simp)
  | @rejected t params group ht hp hnone =>
    obtain ⟨fields, -, rfl⟩ := prepare_ok hp
    refine ⟨Or.inl, ?_⟩
    rintro (hh | ⟨u, hu, hfiles, hv, rfl⟩)
    · exact hh
    · obtain rfl := Option.some.inj (ht.symm.trans hu)
      cases addTorrent_eq_none hnone with
      | inl hc => exact absurd (by simpa [addParams] using hc) hfiles
      | inr hhas => simpa [addParams] using hhas
  | @noMetadata t params group s ht hp hsome hv =>
    obtain ⟨fields, -, rfl⟩ := prepare_ok hp
    obtain ⟨-, hnew, rfl⟩ := addTorrent_eq_some hsome
    simp only [addParams, isValid_infoOf_rename, infoHash_infoOf_rename] at hv hnew
    cases (hs t ht).2 with
    | inl hc => exact absurd (hv.symm.trans hc) (by simp)
    | inr hc => exact absurd hc hnew
  | @added t params group s ht hp hsome hv =>
    obtain ⟨fields, -, rfl⟩ := prepare_ok hp
    obtain ⟨hfiles, -, rfl⟩ := addTorrent_eq_some hsome
    simp only [addParams, isValid_infoOf_rename, isValid_rename, files_rename] at hv hfiles
    simp only [has_append]
    apply or_congr_right
    simp only [SessionTorrent.infoHash, addParams, infoHash_infoOf_rename]
    constructor
    · intro he
      exact ⟨t, ht, hfiles, hv, he⟩
    · rintro ⟨u, hu, -, -, he⟩
      obtain rfl := Option.some.inj (ht.symm.trans hu)
      exact he

theorem inStep_addTorrent {w : World} {c : AddCall} (hs : Sound w c) (h : InStep w) :
    InStep (AddTorrent p w c).1 := by
  obtain ⟨b, hb⟩ := (addTorrent_ok_iff p w c).mpr hs
  have hout := addTorrent_outcome p w c
  generalize AddTorrent p w c = r at hb hout
  cases hout with
  | unreadable ht => exact h
  | badResume ht hp => exact h
  | rejected ht hp hs => exact h
  | noMetadata ht hp hs hv => exact absurd hb (by simp)
  | added ht hp hs hv =>
    intro k
    simp only [has_append, hasTorrent_added, h k]

theorem torrentInfo_congr {d d' : CtData} {path : QString} (h : d'.read path = d.read path) :
    torrentInfo d' path = torrentInfo d path := by
  rw [torrentInfo, h, torrentInfo]

/-- An offer needs the .torrent file, and the resume data only where the file
holds no metadata. -/
theorem offers_of_read {d d' : CtData} {entry entry' : QString} {h : Sha1Hash}
    (hentry : d'.read (nativePath (toUtf8 entry')) = d.read (nativePath (toUtf8 entry)))
    (hresume : ∀ k : Sha1Hash, d'.read (hashFile k .resume) = d.read (hashFile k .resume) ∨
      d.read (hashFile k .resume) = none)
    (ho : Offers d entry h) : Offers d' entry' h := by
  obtain ⟨t, ht, hfiles, hv, hh⟩ := ho
  refine ⟨t, ?_, hfiles, ?_⟩
  · rw [← ht, torrentInfo, hentry, torrentInfo]
  · cases hresume t.infoHash with
    | inl hr =>
      have hdata : resumeData d' t = resumeData d t := by
        rw [resumeData, loadFile, hr, resumeData, loadFile]
      rw [hdata]
      exact ⟨hv, hh⟩
    | inr hr =>
      have hdata : resumeData d t = [] := by
        rw [resumeData, loadFile, hr]
        rfl
      have hself : Session.infoOf t [] = t := by
        rw [Session.infoOf, if_pos (Or.inr rfl)]
      rw [hdata, hself] at hv hh
      rw [infoOf_of_isValid hv]
      exact ⟨hv, hh⟩

theorem offers_of_remove {d : CtData} {s entry : QString} {h : Sha1Hash}
    (ho : Offers (d.remove s) entry h) : Offers d entry h := by
  have hgone : ∀ x, (d.remove s).read x = none ∨ d.read x = (d.remove s).read x := by
    intro x
    rw [Disk.read_remove]
    split_ifs
    · exact Or.inl rfl
    · exact Or.inr rfl
  apply offers_of_read _ (fun k => (hgone (hashFile k .resume)).symm) ho
  obtain ⟨t, ht, -⟩ := ho
  cases hgone (nativePath (toUtf8 entry)) with
  | inl hr =>
    rw [torrentInfo, hr] at ht
    exact absurd ht (by simp)
  | inr hr => exact hr

/-- The copy that `AddTorrent` keeps hides no offer and adds none but its own. -/
theorem offers_keepTorrentFile {d : CtData} {path entry : QString} {ti : TorrentInfo} {h : Sha1Hash}
    (hpath : nativePath (toUtf8 path) = path) :
    (Offers (d.remove (namedFile p ti.name)) entry h →
      Offers (keepTorrentFile p d path ti) entry h) ∧
    (Offers (keepTorrentFile p d path ti) entry h →
      Offers (d.remove (namedFile p ti.name)) entry h ∨ Offers d path h) := by
  have hread : ∀ x, (keepTorrentFile p d path ti).read x =
      if resolve x = resolve (namedFile p ti.name) then none
      else (d.copy path (hashFile ti.infoHash .torrent)).read x := by
    intro x
    rw [keepTorrentFile, Disk.read_remove]
  have hresume : ∀ k, (keepTorrentFile p d path ti).read (hashFile k .resume) =
      (d.remove (namedFile p ti.name)).read (hashFile k .resume) := by
    intro k
    rw [hread, Disk.read_remove, Disk.read_copy_of_ne _ (resolve_resume_ne _ k)]
  constructor
  · intro ho
    apply offers_of_read _ (fun k => Or.inl (hresume k)) ho
    obtain ⟨t, ht, -⟩ := ho
    have hsome : ((d.remove (namedFile p ti.name)).read (nativePath (toUtf8 entry))).isSome := by
      rw [Option.isSome_iff_ne_none]
      intro hnone
      rw [torrentInfo, hnone] at ht
      exact absurd ht (by simp)
    rw [hread, Disk.read_remove]
    rw [Disk.read_remove] at hsome
    split_ifs at hsome ⊢ with hname
    · rfl
    · exact d.read_copy_of_isSome _ _ hsome
  · intro ho
    by_cases hname : resolve (nativePath (toUtf8 entry)) = resolve (namedFile p ti.name)
    · obtain ⟨t, ht, -⟩ := ho
      rw [torrentInfo, hread, if_pos hname] at ht
      exact absurd ht (by simp)
    · rcases d.read_copy_cases (nativePath (toUtf8 entry)) path (hashFile ti.infoHash .torrent)
        with hr | ⟨-, -, hr⟩
      · refine Or.inl (offers_of_read ?_ (fun k => Or.inl (hresume k).symm) ho)
        rw [Disk.read_remove, if_neg hname, hread, if_neg hname, hr]
      · refine Or.inr (offers_of_read ?_ ?_ ho)
        · rw [hpath, hread, if_neg hname, hr]
        · intro k
          rw [hresume k, Disk.read_remove]
          split_ifs
          · exact Or.inr rfl
          · exact Or.inl rfl

theorem offers_addTorrent {w : World} {c : AddCall} (hpath : nativePath (toUtf8 c.path) = c.path)
    (entry : QString) (h : Sha1Hash) :
    (Offers (withoutNamed p w c) entry h → Offers (AddTorrent p w c).1.disk entry h) ∧
    (Offers (AddTorrent p w c).1.disk entry h →
      Offers (withoutNamed p w c) entry h ∨ Offers w.disk c.path h) := by
  rcases acceptedParams_outcome p (addTorrent_outcome p w c) with ⟨hp, hd⟩ | ⟨params, -, hp, hd⟩
  · rw [hd, withoutNamed, hp]
    exact ⟨id, Or.inl⟩
  · rw [hd, withoutNamed, hp]
    exact offers_keepTorrentFile p hpath

/-! ### The loop over the files -/

/-- No torrent of `K` that is still missing after the call loses its last file
among the `entries` to the call. -/
def Spares (K : Sha1Hash → Prop) (w : World) (c : AddCall) (entries : List QString) : Prop :=
  ∀ h, K h → ¬ w.session.Has h → ¬ Offers w.disk c.path h →
    ∃ entry ∈ entries, Offers (withoutNamed p w c) entry h

def Kept (K : Sha1Hash → Prop) (w : World) (entries : List QString) : Prop :=
  ∀ h, K h → w.session.Has h ∨ ∃ entry ∈ entries, Offers w.disk entry h

theorem kept_addTorrent_iff (K : Sha1Hash → Prop) {w : World} {c : AddCall} (hs : Sound w c)
    (hpath : nativePath (toUtf8 c.path) = c.path) (entries : List QString) :
    Kept K (AddTorrent p w c).1 entries ↔ Spares p K w c entries := by
  constructor
  · intro hk h hK hnot hnone
    rcases hk h hK with hh | ⟨entry, he, ho⟩
    · cases (has_addTorrent p hs h).mp hh with
      | inl hh => exact absurd hh hnot
      | inr hh => exact absurd hh hnone
    · cases (offers_addTorrent p hpath entry h).2 ho with
      | inl ho => exact ⟨entry, he, ho⟩
      | inr ho => exact absurd ho hnone
  · intro hsp h hK
    by_cases hh : w.session.Has h ∨ Offers w.disk c.path h
    · exact Or.inl ((has_addTorrent p hs h).mpr hh)
    · obtain ⟨hnot, hnone⟩ := not_or.mp hh
      obtain ⟨entry, he, ho⟩ := hsp h hK hnot hnone
      exact Or.inr ⟨entry, he, (offers_addTorrent p hpath entry h).1 ho⟩

variable (saved : List (QString × QString × QString))

def LoadsAlong (K : Sha1Hash → Prop) : World → List QString → Prop
  | _, [] => True
  | w, entry :: entries =>
    Sound w (entryCall p saved w entry) ∧ Spares p K w (entryCall p saved w entry) entries ∧
      LoadsAlong K (AddTorrent p w (entryCall p saved w entry)).1 entries

theorem loadEntries_cons_ok {w : World} {entry : QString} {entries : List QString}
    (hs : Sound w (entryCall p saved w entry)) :
    loadEntries p saved w (entry :: entries) =
      loadEntries p saved (AddTorrent p w (entryCall p saved w entry)).1 entries := by
  obtain ⟨b, hb⟩ := (addTorrent_ok_iff p w _).mpr hs
  rw [loadEntries]
  split
  · next he => rw [he]
  · next he =>
    rw [he] at hb
    exact absurd hb (by simp)

theorem sound_of_loadEntries_ok {w : World} {entry : QString} {entries : List QString}
    (h : (loadEntries p saved w (entry :: entries)).2 = .ok ()) :
    Sound w (entryCall p saved w entry) := by
  rw [loadEntries] at h
  rw [← addTorrent_ok_iff p]
  split at h
  · next he => exact ⟨_, by rw [he]⟩
  · exact absurd h (by simp)

theorem has_loadEntries {w : World} {entries : List QString}
    (hpath : ∀ entry ∈ entries, nativePath (toUtf8 entry) = entry)
    (hok : (loadEntries p saved w entries).2 = .ok ()) {h : Sha1Hash}
    (hh : (loadEntries p saved w entries).1.session.Has h) :
    w.session.Has h ∨ ∃ entry ∈ entries, Offers w.disk entry h := by
  induction entries generalizing w with
  | nil => exact Or.inl hh
  | cons entry entries ih =>
    have hs := sound_of_loadEntries_ok p saved hok
    have hentry : nativePath (toUtf8 (entryCall p saved w entry).path) = entry := hpath entry (by simp)
    rw [loadEntries_cons_ok p saved hs] at hok hh
    rcases ih (fun e he => hpath e (by simp [he])) hok hh with hh | ⟨e, he, ho⟩
    · cases (has_addTorrent p hs h).mp hh with
      | inl hh => exact Or.inl hh
      | inr hh => exact Or.inr ⟨entry, by simp, hh⟩
    · cases (offers_addTorrent p hentry e h).2 ho with
      | inl ho =>
        refine Or.inr ⟨e, by simp [he], ?_⟩
        unfold withoutNamed at ho
        split at ho
        · exact offers_of_remove ho
        · exact ho
      | inr ho => exact Or.inr ⟨entry, by simp, ho⟩

theorem loadEntries_complete_iff (K : Sha1Hash → Prop) {w : World} {entries : List QString}
    (hpath : ∀ entry ∈ entries, nativePath (toUtf8 entry) = entry) (hk : Kept K w entries) :
    ((loadEntries p saved w entries).2 = .ok () ∧
      ∀ h, K h → (loadEntries p saved w entries).1.session.Has h) ↔
      LoadsAlong p saved K w entries := by
  induction entries generalizing w with
  | nil =>
    refine ⟨fun _ => trivial, fun _ => ⟨rfl, fun h hK => ?_⟩⟩
    rcases hk h hK with hh | ⟨entry, he, -⟩
    · exact hh
    · exact absurd he (by simp)
  | cons entry entries ih =>
    have hentry : nativePath (toUtf8 (entryCall p saved w entry).path) = entry := hpath entry (by simp)
    have hpath' : ∀ e ∈ entries, nativePath (toUtf8 e) = e := fun e he => hpath e (by simp [he])
    constructor
    · intro ⟨hok, hall⟩
      have hs := sound_of_loadEntries_ok p saved hok
      rw [loadEntries_cons_ok p saved hs] at hok hall
      have hk' : Kept K (AddTorrent p w (entryCall p saved w entry)).1 entries :=
        fun h hK => has_loadEntries p saved hpath' hok (hall h hK)
      exact ⟨hs, (kept_addTorrent_iff p K hs hentry entries).mp hk', (ih hpath' hk').mp ⟨hok, hall⟩⟩
    · intro ⟨hs, hsp, hrest⟩
      have hk' := (kept_addTorrent_iff p K hs hentry entries).mpr hsp
      rw [loadEntries_cons_ok p saved hs]
      exact (ih hpath' hk').mpr hrest

theorem inStep_loadEntries {w : World} {entries : List QString} (h : InStep w)
    (hok : (loadEntries p saved w entries).2 = .ok ()) :
    InStep (loadEntries p saved w entries).1 := by
  induction entries generalizing w with
  | nil => exact h
  | cons entry entries ih =>
    have hs := sound_of_loadEntries_ok p saved hok
    rw [loadEntries_cons_ok p saved hs] at hok ⊢
    exact ih (inStep_addTorrent p hs h) hok

end

/-! ### The start -/

theorem savedPath_ok_iff (line : QString) : (∃ r, savedPath line = .ok r) ↔ '|' ∈ line := by
  constructor
  · intro ⟨r, hr⟩
    by_contra hno
    rw [savedPath, List.splitOn_eq_singleton hno] at hr
    exact absurd hr (by simp)
  · intro hbar
    unfold savedPath
    split
    · next x hx =>
      have hline : line = x := by
        have hjoin : ['|'].intercalate (line.splitOn '|') = line := List.intercalate_splitOn _
        rw [hx] at hjoin
        simpa using hjoin.symm
      have hmem : x ∈ line.splitOn '|' := by
        rw [hx]
        exact List.mem_singleton.mpr rfl
      exact absurd (hline ▸ hbar) (not_mem_of_mem_splitOn hmem)
    · exact ⟨_, rfl⟩
    · exact ⟨_, rfl⟩
    · exact ⟨_, rfl⟩

theorem savedPaths_ok_iff (lines : List QString) (saved : List (QString × QString × QString)) :
    (∃ r, savedPaths lines saved = .ok r) ↔ ∀ line ∈ lines, '|' ∈ line := by
  induction lines generalizing saved with
  | nil => simp [savedPaths]
  | cons line lines ih =>
    rw [List.forall_mem_cons, ← savedPath_ok_iff]
    cases hl : savedPath line with
    | error f => simp [savedPaths, hl, Bind.bind, Except.bind]
    | ok entry =>
      cases entry with
      | none => simp [savedPaths, hl, Bind.bind, Except.bind, ih]
      | some entry => simp [savedPaths, hl, Bind.bind, Except.bind, ih]

section
variable [DataFolder]

theorem readPathResume_ok_iff (disk : CtData) :
    (∃ r, readPathResume disk = .ok r) ↔
      ∀ buf, disk.read pathResume = some buf → ∀ line ∈ DataFolder.readLines buf, '|' ∈ line := by
  unfold readPathResume
  cases hr : disk.read pathResume with
  | none => simp
  | some buf =>
    have hlines := savedPaths_ok_iff (DataFolder.readLines buf) []
    cases hs : savedPaths (DataFolder.readLines buf) [] with
    | error f => simpa [hs, Bind.bind, Except.bind] using hlines
    | ok saved => simpa [hs, Bind.bind, Except.bind, Pure.pure, Except.pure] using hlines

theorem readPathResume_disk {saved : List (QString × QString × QString)}
    {disk disk' : CtData}
    (h : readPathResume disk = .ok (saved, disk')) :
    disk' = disk ∨ disk' = disk.remove pathResume := by
  unfold readPathResume at h
  cases hr : disk.read pathResume with
  | none =>
    simp only [hr, Except.ok.injEq, Prod.mk.injEq] at h
    exact Or.inl h.2.symm
  | some buf =>
    simp only [hr] at h
    obtain ⟨_, -, h⟩ := bind_eq_ok h
    simp only [Pure.pure, Except.pure, Except.ok.injEq, Prod.mk.injEq] at h
    exact Or.inr h.2.symm

def atStart (disk : CtData) (filterType : FilterType) : World := ⟨disk, [], .initial filterType, []⟩

theorem inStep_atStart (disk : CtData) (filterType : FilterType) :
    InStep (atStart disk filterType) := by
  intro h
  simp [atStart, Session.Has, TorrentStorrage.initial, TorrentStorrage.hasTorrent, Assoc.contains]

theorem mem_entryList (p : Platform) {disk : CtData} {entry : QString}
    (h : entry ∈ entryList p disk) :
    isTorrentFile p entry = true ∧ resolve entry = entry := by
  rw [entryList, (DataFolder.entryOrder_perm _).mem_iff, List.mem_filter, Disk.mem_names_iff] at h
  exact ⟨h.2, h.1.1⟩

theorem nativePath_entry (p : Platform) {disk : CtData} {entry : QString}
    (h : entry ∈ entryList p disk) :
    nativePath (toUtf8 entry) = entry := by
  apply nativePath_toUtf8
  have hfile := (mem_entryList p h).1
  simp only [isTorrentFile, Bool.and_eq_true, Bool.not_eq_true', List.contains_eq_mem,
    decide_eq_false_iff_not] at hfile
  exact hfile.1.2

end

section
variable [DataFolder] [Libtorrent] (p : Platform)

def Valid (w : World) (h : Sha1Hash) : Prop :=
  ∃ entry ∈ entryList p w.disk, ∃ t, torrentInfo w.disk (nativePath (toUtf8 entry)) = some t ∧
    t.isValid = true ∧ t.files ≠ [] ∧ t.infoHash = h

def InitComplete (w : World) : Prop :=
  (initSession p w).2 = .ok () ∧ ∀ h, Valid p w h →
    (initSession p w).1.session.Has h ∧ (initSession p w).1.storrage.hasTorrent h.hex = true

/-- The lines of path.resume have two parts, and the calls are sound and spare
the valid torrents. -/
def InitSound (w : World) : Prop :=
  (∀ buf, w.disk.read pathResume = some buf → ∀ line ∈ DataFolder.readLines buf, '|' ∈ line) ∧
    ∀ saved disk, readPathResume w.disk = .ok (saved, disk) →
      LoadsAlong p saved (Valid p w) { w with disk := disk } (entryList p w.disk)

theorem kept_start {saved : List (QString × QString × QString)} {w : World} {disk : CtData}
    (h : readPathResume w.disk = .ok (saved, disk)) :
    Kept (Valid p w) { w with disk := disk } (entryList p w.disk) := by
  intro k ⟨entry, he, t, ht, hv, hfiles, hk⟩
  have hpath := nativePath_entry p he
  have hread : disk.read entry = w.disk.read entry := by
    cases readPathResume_disk h with
    | inl heq =>
      subst heq
      rfl
    | inr heq =>
      subst heq
      apply Disk.read_remove_of_ne
      rw [(mem_entryList p he).2, DataFolder.resolve_pathResume]
      rintro rfl
      have hfile := (mem_entryList p he).1
      revert hfile
      cases p <;> decide
  refine Or.inr ⟨entry, he, t, ?_, fun hc => hfiles hc.2, ?_⟩
  · rw [hpath] at ht ⊢
    rw [← ht]
    exact torrentInfo_congr hread
  · rw [infoOf_of_isValid hv]
    exact ⟨hv, hk⟩

theorem initComplete_iff {w : World} (h : InStep w) : InitComplete p w ↔ InitSound p w := by
  have hread := readPathResume_ok_iff w.disk
  rw [InitComplete, InitSound, ← hread, initSession]
  cases hr : readPathResume w.disk with
  | error f => simp
  | ok r =>
    obtain ⟨saved, disk⟩ := r
    have hpath : ∀ entry ∈ entryList p w.disk, nativePath (toUtf8 entry) = entry :=
      fun entry he => nativePath_entry p he
    have hstep : InStep { w with disk := disk } := h
    have hload := loadEntries_complete_iff p saved (Valid p w) hpath (kept_start p hr)
    simp only
    constructor
    · intro ⟨hok, hall⟩
      refine ⟨⟨_, rfl⟩, fun saved' disk' he => ?_⟩
      obtain ⟨rfl, rfl⟩ := Prod.mk.inj (Except.ok.inj he)
      exact hload.mp ⟨hok, fun k hk => (hall k hk).1⟩
    · intro ⟨_, hall⟩
      obtain ⟨hok, hhas⟩ := hload.mpr (hall saved disk rfl)
      refine ⟨hok, fun k hk => ⟨hhas k hk, ?_⟩⟩
      exact (inStep_loadEntries p saved hstep hok k).mp (hhas k hk)

/-- A call of `AddTorrent` is all or nothing exactly when neither the resume data
nor missing metadata stops it, and the start loads every valid torrent exactly
when each of its calls is so and none takes the last file of a later torrent. -/
theorem loading_iff :
    (∀ w c, AllOrNothing p w c ↔ Sound w c) ∧
      ∀ disk filterType, InitComplete p (atStart disk filterType) ↔
        InitSound p (atStart disk filterType) :=
  ⟨allOrNothing_iff p, fun disk filterType => initComplete_iff p (inStep_atStart disk filterType)⟩

end

/-- The first torrent's resume data is a number: the exception leaves the call
and ends the loop before the second torrent. -/
theorem wrong_resume_stops_start :
    (¬ ∀ (_ : DataFolder) (_ : Libtorrent) (p : Platform) (w : World) (c : AddCall),
      AllOrNothing p w c) ∧
    ¬ ∀ (_ : DataFolder) (_ : Libtorrent) (p : Platform) (disk : CtData)
      (filterType : FilterType), InitComplete p (atStart disk filterType) := by
  let start := plainWorld [(hashFile torrentB.infoHash .torrent, singleFile "b".toList),
    (hashFile torrentB.infoHash .resume, literal "i0e"),
    (hashFile torrentA.infoHash .torrent, singleFile torrentB.infoHash.hex)]
  constructor
  · intro h
    obtain ⟨b, hb, -⟩ := h plainFolder sampleLibtorrent .unix start
      ⟨hashFile torrentB.infoHash .torrent, [], [], [], [], false⟩
    revert b
    decide +kernel
  · intro h
    have hloaded := (h plainFolder sampleLibtorrent .unix
      (@World.disk plainFolder start) .none).1
    revert hloaded
    decide +kernel

end TorrentManager
end CuteTorrent
