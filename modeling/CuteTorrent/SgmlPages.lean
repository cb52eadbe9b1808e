import CuteTorrent.SgmlMarkup

/-! Pages whose elements are closed, and the trees that `QSgml` makes of them. -/
namespace CuteTorrent
namespace Markup
open QSgml

/-- A tag without content; one that is `void` is written as if it had some. -/
inductive Leaf where
  | void (i : Inner)
  | standalone (i : Inner)
  | comment (text : QString)
  | doctype (text : QString)

def Leaf.tag : Leaf → Tag
  | void i => .start i
  | standalone i => .standalone i
  | comment t => .comment t
  | doctype t => .doctype t

/-- What a page consists of, each part with the text in front of it. -/
inductive Node where
  | leaf (text : QString) (l : Leaf)
  | element (text : QString) (i : Inner) (children : List Node) (closing : QString)

mutual
def Node.page : Node → QString
  | .leaf text l => text ++ l.tag.text
  | .element text i children closing =>
    text ++ ((Tag.start i).text ++ (pages children ++ (closing ++ (Tag.close i.name).text)))
def pages : List Node → QString
  | [] => []
  | n :: ns => n.page ++ pages ns
end

def Leaf.tree (pos : Int) (l : Leaf) : RoseTree SgmlTag :=
  match l with
  | void i => .node (i.tag .eStandalone pos l.tag.text.length) []
  | standalone i => .node (i.tag .eStandalone pos l.tag.text.length) []
  | comment t => .node (.valued (trimmed t) .eComment pos l.tag.text.length) []
  | doctype t => .node (.valued (trimmed t) .eDoctype pos l.tag.text.length) []

def elementTree (i : Inner) (pos : Int) (contents : List (RoseTree SgmlTag)) (contentLength : Int) :
    RoseTree SgmlTag :=
  (OpenTag.mk (i.tag .eStartTag pos (Tag.start i).text.length) contents).closed
    (pos + (Tag.start i).text.length + contentLength) (Tag.close i.name).text.length

mutual
def Node.trees (pos : Int) : Node → List (RoseTree SgmlTag)
  | .leaf text l => cdata pos text ++ [l.tree (pos + text.length)]
  | .element text i children closing =>
    cdata pos text ++ [elementTree i (pos + text.length)
      (forest (pos + text.length + (Tag.start i).text.length) children ++
        cdata (pos + text.length + (Tag.start i).text.length + (pages children).length) closing)
      ((pages children).length + closing.length)]
def forest (pos : Int) : List Node → List (RoseTree SgmlTag)
  | [] => []
  | n :: ns => n.trees pos ++ forest (pos + n.page.length) ns
end

section readable
variable [QtConversions]

/-- A part of a page, inside an element of the name `parent`, that is read as it is written.
A tag that is not closed has another name, and an element whose text is no markup has
nothing but text. -/
inductive Node.Readable : QString → Node → Prop where
  | leaf {parent text : QString} {l : Leaf} (htext : '<' ∉ text) (hleaf : l.tag.Readable)
      (hvoid : ∀ i, l = .void i → i.name ≠ parent ∧ i.name ∉ QSgml.Reading.tagExeption) :
      Readable parent (.leaf text l)
  | element {parent text closing : QString} {i : Inner} {children : List Node} (htext : '<' ∉ text)
      (hi : i.Readable) (hname : i.name ∉ QSgml.Reading.tagExeption)
      (hchildren : ∀ c ∈ children, Readable i.name c) (hclosing : '<' ∉ closing) :
      Readable parent (.element text i children closing)
  | raw {parent text closing : QString} {i : Inner} (htext : '<' ∉ text) (hi : i.Readable)
      (hname : i.name ∈ QSgml.Reading.tagExeption)
      (hclosing : ¬ "</".toList ++ i.name <:+: SgmlTag.toLower closing) (hlast : closing.getLast? ≠ some '<') :
      Readable parent (.element text i [] closing)

end readable

mutual
theorem Node.induct {P : Node → Prop} (hleaf : ∀ text l, P (.leaf text l))
    (helement : ∀ text i children closing, (∀ c ∈ children, P c) → P (.element text i children closing)) :
    (n : Node) → P n
  | .leaf text l => hleaf text l
  | .element text i children closing =>
    helement text i children closing (Node.inductChildren hleaf helement children)
theorem Node.inductChildren {P : Node → Prop} (hleaf : ∀ text l, P (.leaf text l))
    (helement : ∀ text i children closing, (∀ c ∈ children, P c) → P (.element text i children closing)) :
    (ns : List Node) → ∀ n ∈ ns, P n
  | [], _, hn => absurd hn List.not_mem_nil
  | m :: ms, _, hn =>
    (List.mem_cons.mp hn).elim (fun he => he ▸ Node.induct hleaf helement m)
      (Node.inductChildren hleaf helement ms _)
end

/-! ### The open tags -/

/-- The open tags: those that are void, the last first, above the element they are in. -/
structure Stack where
  voids : List OpenTag
  base : OpenTag
  below : List OpenTag

namespace Stack

def last (s : Stack) : OpenTag := s.voids.headD s.base

def ancestors (s : Stack) : List OpenTag :=
  match s.voids with
  | [] => s.below
  | _ :: vs => vs ++ s.base :: s.below

def append (s : Stack) (children : List (RoseTree SgmlTag)) : Stack :=
  match s.voids with
  | [] => { s with base := s.base.append children }
  | v :: vs => { s with voids := v.append children :: vs }

/-- The children of the element as they are once its void tags are known to have no end. -/
def spilled : List OpenTag → List (RoseTree SgmlTag)
  | [] => []
  | v :: vs => spilled vs ++ v.standalone

def total (s : Stack) : List (RoseTree SgmlTag) := s.base.Children ++ spilled s.voids

theorem last_append (s : Stack) (children : List (RoseTree SgmlTag)) :
    (s.append children).last = s.last.append children ∧ (s.append children).ancestors = s.ancestors := by
  obtain ⟨voids, base, below⟩ := s
  cases voids <;> exact ⟨rfl, rfl⟩

theorem total_append (s : Stack) (children : List (RoseTree SgmlTag)) :
    (s.append children).total = s.total ++ children ∧ (s.append children).base.tag = s.base.tag ∧
      (s.append children).below = s.below ∧
      (s.append children).voids.map OpenTag.tag = s.voids.map OpenTag.tag := by
  obtain ⟨voids, base, below⟩ := s
  cases voids with
  | nil => exact ⟨by simp [total, append, spilled, OpenTag.append], rfl, rfl, rfl⟩
  | cons v vs =>
    exact ⟨by simp [total, append, spilled, OpenTag.append, OpenTag.standalone], rfl, rfl, rfl⟩

theorem closeTag_void {v base : OpenTag} {vs below : List OpenTag} {Name : QString} (hv : v.tag.Name ≠ Name)
    (EndTagPos EndTagLength : Int) :
    QSgml.Reading.closeTag Name EndTagPos EndTagLength (Stack.mk (v :: vs) base below).last
        (Stack.mk (v :: vs) base below).ancestors =
      QSgml.Reading.closeTag Name EndTagPos EndTagLength ((Stack.mk vs base below).append v.standalone).last
        ((Stack.mk vs base below).append v.standalone).ancestors := by
  cases vs with
  | nil => exact (QSgml.Reading.closeTag.eq_2 ..).trans (if_neg hv)
  | cons u us => exact (QSgml.Reading.closeTag.eq_2 ..).trans (if_neg hv)

/-- The end tag of the element closes it, past the void tags. -/
theorem closeTag_eq {s : Stack} {parent : OpenTag} {ancestors : List OpenTag}
    (hbelow : s.below = parent :: ancestors) (hvoids : ∀ v ∈ s.voids, v.tag.Name ≠ s.base.tag.Name)
    (EndTagPos EndTagLength : Int) :
    QSgml.Reading.closeTag s.base.tag.Name EndTagPos EndTagLength s.last s.ancestors =
      some (parent.append [(OpenTag.mk s.base.tag s.total).closed EndTagPos EndTagLength], ancestors) := by
  obtain ⟨voids, base, below⟩ := s
  obtain rfl := hbelow
  generalize hn : voids.length = n
  induction n generalizing voids base with
  | zero =>
    obtain rfl := List.length_eq_zero_iff.mp hn
    exact (QSgml.Reading.closeTag.eq_2 ..).trans ((if_pos rfl).trans (by simp [total, spilled, last]))
  | succ n ih =>
    cases voids with
    | nil => simp at hn
    | cons v vs =>
      have hne : v.tag.Name ≠ base.tag.Name := hvoids v List.mem_cons_self
      have hvs : ∀ u ∈ vs.map OpenTag.tag, u.Name ≠ base.tag.Name := by
        intro u hu
        obtain ⟨w, hw, rfl⟩ := List.mem_map.mp hu
        exact hvoids w (List.mem_cons_of_mem v hw)
      have hall : (Stack.mk (v :: vs) base (parent :: ancestors)).total =
          (Stack.mk vs base (parent :: ancestors)).total ++ v.standalone := by
        simp [total, spilled]
      obtain ⟨htotal, hbase, hbelow, htags⟩ :=
        total_append (Stack.mk vs base (parent :: ancestors)) v.standalone
      rw [closeTag_void hne, hall, ← htotal]
      generalize (Stack.mk vs base (parent :: ancestors)).append v.standalone = s at hbase hbelow htags ⊢
      obtain ⟨voids', base', below'⟩ := s
      obtain rfl : below' = parent :: ancestors := hbelow
      have hsame : base'.tag = base.tag := hbase
      have hlength : voids'.length = n := by
        have h := congrArg List.length htags
        simp only [List.length_map, List.length_cons] at h hn
        omega
      have hrest := ih voids' base' (fun u hu => by
        rw [hsame]
        exact hvs u.tag (htags ▸ List.mem_map_of_mem hu)) hlength
      dsimp only at hrest ⊢
      rw [hsame] at hrest
      exact hrest

def push (s : Stack) (tag : SgmlTag) : Stack := { s with voids := ⟨tag, []⟩ :: s.voids }

theorem total_push (s : Stack) (tag : SgmlTag) :
    (s.push tag).total = s.total ++ [.node { tag with tagType := .eStandalone } []] ∧
      (s.push tag).ancestors = s.last :: s.ancestors := by
  obtain ⟨voids, base, below⟩ := s
  refine ⟨by simp [total, push, spilled, OpenTag.standalone], ?_⟩
  cases voids <;> rfl

def reading (s : Stack) (pos : Int) : QSgml.Reading := ⟨s.last, s.ancestors, pos, pos⟩

variable [QtConversions]

/-- The text of the open tags is markup, and only the element itself has its name. -/
structure Sound (parent : QString) (s : Stack) : Prop where
  voids : ∀ v ∈ s.voids.map OpenTag.tag,
    v.Name ≠ parent ∧ SgmlTag.toLower v.Name ∉ QSgml.Reading.tagExeption
  base : SgmlTag.toLower s.base.tag.Name ∉ QSgml.Reading.tagExeption

theorem Sound.last {parent : QString} {s : Stack} (h : s.Sound parent) :
    SgmlTag.toLower s.last.tag.Name ∉ QSgml.Reading.tagExeption := by
  obtain ⟨voids, base, below⟩ := s
  cases voids with
  | nil => exact h.base
  | cons v vs => exact (h.voids v.tag List.mem_cons_self).2

theorem Sound.append {parent : QString} {s : Stack} (h : s.Sound parent) (children : List (RoseTree SgmlTag)) :
    (s.append children).Sound parent := by
  obtain ⟨-, hbase, -, htags⟩ := s.total_append children
  exact ⟨htags ▸ h.voids, hbase ▸ h.base⟩

end Stack

/-! ### Runs over a page -/

theorem Tag.text_eq_concat (tag : Tag) : ∃ body, tag.text = body ++ ['>'] := by
  cases tag with
  | start i => exact ⟨'<' :: i.text, by simp [Tag.text]⟩
  | standalone i => exact ⟨'<' :: (i.text ++ ['/']), by simp [Tag.text]⟩
  | close name => exact ⟨'<' :: '/' :: name, by simp [Tag.text]⟩
  | comment t => exact ⟨"<!--".toList ++ (t ++ "--".toList), by simp [Tag.text]⟩
  | doctype t => exact ⟨'<' :: '!' :: t, by simp [Tag.text]⟩

theorem voids_append {s : Stack} (h : s.voids = []) (children : List (RoseTree SgmlTag)) :
    (s.append children).voids = [] := by
  obtain ⟨voids, base, below⟩ := s
  obtain rfl := h
  rfl

section runs
variable [QtConversions]

def Runs (page : QString) (r r' : QSgml.Reading) : Prop :=
  ∃ rounds, ∀ n, QSgml.Reading.loop page (rounds + n) r = QSgml.Reading.loop page n r'

theorem Runs.refl (page : QString) (r : QSgml.Reading) : Runs page r r :=
  ⟨0, fun n => by rw [Nat.zero_add]⟩

theorem Runs.trans {page : QString} {r r' r'' : QSgml.Reading} (h : Runs page r r') (h' : Runs page r' r'') :
    Runs page r r'' := by
  obtain ⟨m, hm⟩ := h
  obtain ⟨m', hm'⟩ := h'
  exact ⟨m + m', fun n => by rw [Nat.add_assoc, hm, hm']⟩

theorem runs_of_round {page : QString} {r r' : QSgml.Reading} (h : r.round page = .ok r') (hpos : r'.iPos ≠ -1) :
    Runs page r r' := by
  refine ⟨1, fun n => ?_⟩
  rw [Nat.add_comm, QSgml.Reading.loop, h]
  simp only [bind, Except.bind, if_neg hpos]

theorem tag_run {tag : Tag} {text : QString} {s : Stack} {last : OpenTag} {ancestors : List OpenTag}
    (hascii : LowersAscii) (h : tag.Readable) (hbetween : Between s.last.tag.Name tag text) (front : QString)
    (happly : tag.apply (front.length + 1 + text.length) (s.append (cdata (front.length + 1) text)).last
      (s.append (cdata (front.length + 1) text)).ancestors = some (last, ancestors)) :
    ∃ front', front ++ '>' :: (text ++ tag.text) = front' ++ ['>'] ∧
      ∀ rest, Runs (front ++ '>' :: (text ++ (tag.text ++ rest))) (s.reading front.length)
        ⟨last, ancestors, front'.length, front'.length⟩ := by
  obtain ⟨body, hbody⟩ := tag.text_eq_concat
  rw [(s.last_append _).1, (s.last_append _).2] at happly
  have hlength : (front.length + text.length + tag.text.length : Int) =
      (front ++ '>' :: (text ++ body)).length := by
    rw [hbody]
    simp only [List.length_append, List.length_cons, List.length_nil]
    omega
  refine ⟨front ++ '>' :: (text ++ body), by simp [hbody], fun rest => ?_⟩
  have hround := round_tag hascii h hbetween front rest happly
  rw [hlength] at hround
  exact runs_of_round hround (by dsimp only; omega)

/-- A part of a page that is read, behind the tag that `front` ends with: it adds its trees to
the element it is in. -/
structure Advance (parent : QString) (s s' : Stack) (front front' text : QString)
    (trees : List (RoseTree SgmlTag)) : Prop where
  ends : front ++ '>' :: text = front' ++ ['>']
  sound : s'.Sound parent
  base : s'.base.tag = s.base.tag
  below : s'.below = s.below
  total : s'.total = s.total ++ trees
  run : ∀ rest, Runs (front ++ '>' :: (text ++ rest)) (s.reading front.length) (s'.reading front'.length)

theorem Advance.length {parent : QString} {s s' : Stack} {front front' text : QString}
    {trees : List (RoseTree SgmlTag)} (h : Advance parent s s' front front' text trees) :
    (front.length + text.length : Int) = front'.length := by
  have hlength := congrArg List.length h.ends
  simp only [List.length_append, List.length_cons, List.length_nil] at hlength
  omega

theorem Advance.refl {parent : QString} {s : Stack} (hs : s.Sound parent) (front : QString) :
    Advance parent s s front front [] [] :=
  ⟨rfl, hs, rfl, rfl, (List.append_nil _).symm, fun _ => Runs.refl _ _⟩

theorem Advance.trans {parent : QString} {s s' s'' : Stack} {front front' front'' text text' : QString}
    {trees trees' : List (RoseTree SgmlTag)} (h : Advance parent s s' front front' text trees)
    (h' : Advance parent s' s'' front' front'' text' trees') :
    Advance parent s s'' front front'' (text ++ text') (trees ++ trees') := by
  have hpage : ∀ rest, front ++ '>' :: (text ++ rest) = front' ++ '>' :: rest := by
    intro rest
    have h := congrArg (· ++ rest) h.ends
    simpa using h
  refine ⟨(hpage text').trans h'.ends, h'.sound, h'.base.trans h.base, h'.below.trans h.below, ?_, fun rest => ?_⟩
  · rw [h'.total, h.total, List.append_assoc]
  · have hfirst := h.run (text' ++ rest)
    have hsecond := h'.run rest
    rw [← hpage] at hsecond
    rw [List.append_assoc]
    exact hfirst.trans hsecond

def Leaf.isVoid : Leaf → Bool
  | void _ => true
  | _ => false

def Node.isVoid : Node → Bool
  | leaf _ l => l.isVoid
  | element .. => false

def Node.Advances (n : Node) : Prop :=
  ∀ {parent : QString} {s : Stack} (front : QString), n.Readable parent → s.Sound parent →
    ∃ s' front', Advance parent s s' front front' n.page (n.trees (front.length + 1)) ∧
      (n.isVoid = false → s.voids = [] → s'.voids = [])

theorem between_of_sound {parent text : QString} {s : Stack} (hs : s.Sound parent) (htext : '<' ∉ text)
    (tag : Tag) : Between s.last.tag.Name tag text := by
  rw [Between, if_neg hs.last]
  exact htext

theorem leaf_advances (hascii : LowersAscii) (text : QString) (l : Leaf) : (Node.leaf text l).Advances := by
  intro parent s front hn hs
  cases hn with
  | leaf htext hleaf hvoid =>
    obtain ⟨htotal, hbase, hbelow, htags⟩ := s.total_append (cdata (front.length + 1) text)
    have hsound := hs.append (cdata (front.length + 1) text)
    have hvoids := fun h => voids_append (s := s) h (cdata (front.length + 1) text)
    generalize hs₁ : s.append (cdata (front.length + 1) text) = s₁ at htotal hbase hbelow htags hsound hvoids
    have hadd : ∀ (s' : Stack), s'.Sound parent → s'.base.tag = s₁.base.tag → s'.below = s₁.below →
        s'.total = s₁.total ++ [l.tree (front.length + 1 + text.length)] →
        l.tag.apply (front.length + 1 + text.length) s₁.last s₁.ancestors = some (s'.last, s'.ancestors) →
        ∃ front', Advance parent s s' front front' (Node.leaf text l).page
          ((Node.leaf text l).trees (front.length + 1)) := by
      intro s' hs' hbase' hbelow' htotal' happly
      rw [← hs₁] at happly
      obtain ⟨front', hends, hrun⟩ := tag_run hascii hleaf (between_of_sound hs htext _) front happly
      refine ⟨front', by rw [Node.page]; exact hends, hs', hbase'.trans hbase, hbelow'.trans hbelow, ?_, fun rest => ?_⟩
      · rw [htotal', htotal, Node.trees, List.append_assoc]
      · rw [Node.page, List.append_assoc]
        exact hrun rest
    have hleafAppend : l.isVoid = false →
        l.tag.apply (front.length + 1 + text.length) s₁.last s₁.ancestors =
          some (s₁.last.append [l.tree (front.length + 1 + text.length)], s₁.ancestors) →
        ∃ s' front', Advance parent s s' front front' (Node.leaf text l).page
            ((Node.leaf text l).trees (front.length + 1)) ∧
          ((Node.leaf text l).isVoid = false → s.voids = [] → s'.voids = []) := by
      intro hno happly
      obtain ⟨htotal', hbase', hbelow', -⟩ := s₁.total_append [l.tree (front.length + 1 + text.length)]
      obtain ⟨hlast, hancestors⟩ := s₁.last_append [l.tree (front.length + 1 + text.length)]
      obtain ⟨front', hadvance⟩ := hadd (s₁.append [l.tree (front.length + 1 + text.length)])
        (hsound.append _) hbase' hbelow' htotal' (by rw [hlast, hancestors]; exact happly)
      exact ⟨_, front', hadvance, fun _ h => voids_append (hvoids h) _⟩
    cases l with
    | void i =>
      have hi : i.Readable := hleaf
      obtain ⟨hne, hno⟩ := hvoid i rfl
      obtain ⟨htotal', hancestors⟩ := s₁.total_push
        (i.tag .eStartTag (front.length + 1 + text.length) (Tag.start i).text.length)
      obtain ⟨front', hadvance⟩ := hadd
        (s₁.push (i.tag .eStartTag (front.length + 1 + text.length) (Tag.start i).text.length))
        ⟨List.forall_mem_cons.mpr ⟨⟨hne, by rw [Inner.tag, hi.name.toLower]; exact hno⟩, hsound.voids⟩,
          hsound.base⟩ rfl rfl htotal' (by rw [hancestors]; rfl)
      exact ⟨_, front', hadvance, fun h => absurd h (by simp [Node.isVoid, Leaf.isVoid])⟩
    | standalone i => exact hleafAppend rfl rfl
    | comment t => exact hleafAppend rfl rfl
    | doctype t => exact hleafAppend rfl rfl

theorem nodes_advance {ns : List Node} (h : ∀ n ∈ ns, n.Advances) {parent : QString} {s : Stack} (front : QString)
    (hns : ∀ n ∈ ns, n.Readable parent) (hs : s.Sound parent) :
    ∃ s' front', Advance parent s s' front front' (pages ns) (forest (front.length + 1) ns) ∧
      ((∀ n ∈ ns, n.isVoid = false) → s.voids = [] → s'.voids = []) := by
  induction ns generalizing s front with
  | nil => exact ⟨s, front, Advance.refl hs front, fun _ h => h⟩
  | cons n ns ih =>
    obtain ⟨s₁, front₁, hfirst, hvoids₁⟩ := h n List.mem_cons_self front (hns n List.mem_cons_self) hs
    obtain ⟨s₂, front₂, hrest, hvoids₂⟩ := ih (fun m hm => h m (List.mem_cons_of_mem n hm)) front₁
      (fun m hm => hns m (List.mem_cons_of_mem n hm)) hfirst.sound
    have hplace : (front₁.length + 1 : Int) = front.length + 1 + n.page.length := by
      have hlength := hfirst.length
      omega
    rw [hplace] at hrest
    refine ⟨s₂, front₂, ?_, fun hno hnil => ?_⟩
    · rw [pages, forest]
      exact hfirst.trans hrest
    · exact hvoids₂ (fun m hm => hno m (List.mem_cons_of_mem n hm)) (hvoids₁ (hno n List.mem_cons_self) hnil)

structure Content (i : Inner) (children : List Node) (closing : QString) : Prop where
  tag : i.Readable
  parts : ∀ c ∈ children, c.Readable i.name
  text : (i.name ∉ QSgml.Reading.tagExeption ∧ '<' ∉ closing) ∨
    (i.name ∈ QSgml.Reading.tagExeption ∧ children = [] ∧
      ¬ "</".toList ++ i.name <:+: SgmlTag.toLower closing ∧ closing.getLast? ≠ some '<')

theorem contents_run {i : Inner} {children : List Node} {closing : QString}
    (h : Content i children closing) (hchildren : ∀ c ∈ children, c.Advances) (below : List OpenTag)
    (front : QString) (pos : Int) :
    ∃ (s : Stack) (front' : QString), front ++ '>' :: pages children = front' ++ ['>'] ∧
      s.base.tag = i.tag .eStartTag pos (Tag.start i).text.length ∧ s.below = below ∧
      s.total = forest (front.length + 1) children ∧ (∀ v ∈ s.voids.map OpenTag.tag, v.Name ≠ i.name) ∧
      Between s.last.tag.Name (.close i.name) closing ∧
      ∀ rest, Runs (front ++ '>' :: (pages children ++ rest))
        ((Stack.mk [] ⟨i.tag .eStartTag pos (Tag.start i).text.length, []⟩ below).reading front.length)
        (s.reading front'.length) := by
  rcases h.text with ⟨hmarkup, hclosing⟩ | ⟨hraw, rfl, hclosing, hlast⟩
  · have hs : (Stack.mk [] ⟨i.tag .eStartTag pos (Tag.start i).text.length, []⟩ below).Sound i.name :=
      ⟨fun v hv => absurd hv List.not_mem_nil, by rw [Inner.tag, h.tag.name.toLower]; exact hmarkup⟩
    obtain ⟨s, front', hadvance, -⟩ := nodes_advance hchildren front h.parts hs
    exact ⟨s, front', hadvance.ends, hadvance.base, hadvance.below, hadvance.total,
      fun v hv => (hadvance.sound.voids v hv).1, between_of_sound hadvance.sound hclosing _, hadvance.run⟩
  · refine ⟨_, front, rfl, rfl, rfl, rfl, fun v hv => absurd hv List.not_mem_nil, ?_, fun rest => Runs.refl _ _⟩
    have hname : SgmlTag.toLower i.name ∈ QSgml.Reading.tagExeption := by
      rw [h.tag.name.toLower]
      exact hraw
    have hbetween : Between i.name (.close i.name) closing := by
      rw [Between, if_pos hname]
      exact ⟨h.tag.name, rfl, hclosing, hlast⟩
    exact hbetween

theorem inside_run (hascii : LowersAscii) {i : Inner} {children : List Node} {closing : QString}
    (h : Content i children closing) (hchildren : ∀ c ∈ children, c.Advances) (s : Stack) (front : QString)
    {pos : Int} (hpos : pos + (Tag.start i).text.length = front.length + 1) :
    ∃ front', front ++ '>' :: (pages children ++ (closing ++ (Tag.close i.name).text)) = front' ++ ['>'] ∧
      ∀ rest, Runs (front ++ '>' :: (pages children ++ (closing ++ ((Tag.close i.name).text ++ rest))))
        ⟨⟨i.tag .eStartTag pos (Tag.start i).text.length, []⟩, s.last :: s.ancestors, front.length, front.length⟩
        ((s.append [elementTree i pos (forest (front.length + 1) children ++
          cdata (front.length + 1 + (pages children).length) closing)
          ((pages children).length + closing.length)]).reading front'.length) := by
  obtain ⟨s₁, front₁, hends, hbase, hbelow, htotal, hvoids, hbetween, hrun⟩ :=
    contents_run h hchildren (s.last :: s.ancestors) front pos
  have hplace : (front₁.length + 1 : Int) = front.length + 1 + (pages children).length := by
    have hlength := congrArg List.length hends
    simp only [List.length_append, List.length_cons, List.length_nil] at hlength
    omega
  have hpage : ∀ rest, front ++ '>' :: (pages children ++ rest) = front₁ ++ '>' :: rest := by
    intro rest
    have h := congrArg (· ++ rest) hends
    simpa using h
  obtain ⟨htotal', hbase', hbelow', htags⟩ := s₁.total_append (cdata (front₁.length + 1) closing)
  have hclose := Stack.closeTag_eq (s := s₁.append (cdata (front₁.length + 1) closing))
    (hbelow'.trans hbelow) (fun v hv => by
      rw [hbase', hbase]
      exact hvoids v.tag (htags ▸ List.mem_map_of_mem hv))
    (front₁.length + 1 + closing.length) (Tag.close i.name).text.length
  rw [htotal', htotal, hbase', hbase, hplace] at hclose
  obtain ⟨front', hends', hrun'⟩ := tag_run hascii (show (Tag.close i.name).Readable from h.tag.name) hbetween front₁
    (by rw [hplace]; exact hclose)
  refine ⟨front', (hpage _).trans hends', fun rest => ?_⟩
  have hfirst := hrun (closing ++ ((Tag.close i.name).text ++ rest))
  have hsecond := hrun' rest
  rw [← hpage] at hsecond
  have hthen := hfirst.trans hsecond
  obtain ⟨hlast, hancestors⟩ := s.last_append [elementTree i pos (forest (front.length + 1) children ++
    cdata (front.length + 1 + (pages children).length) closing) ((pages children).length + closing.length)]
  have hend : (pos + (Tag.start i).text.length + ((pages children).length + closing.length) : Int) =
      front.length + 1 + (pages children).length + closing.length := by omega
  rw [Stack.reading, hlast, hancestors, elementTree, hend]
  exact hthen

theorem content_of_readable {parent text closing : QString} {i : Inner} {children : List Node}
    (h : (Node.element text i children closing).Readable parent) : '<' ∉ text ∧ Content i children closing := by
  cases h with
  | element htext hi hname hchildren hclosing => exact ⟨htext, hi, hchildren, .inl ⟨hname, hclosing⟩⟩
  | raw htext hi hname hclosing hlast =>
    exact ⟨htext, hi, fun c hc => absurd hc List.not_mem_nil, .inr ⟨hname, rfl, hclosing, hlast⟩⟩

theorem element_advances (hascii : LowersAscii) {text closing : QString} {i : Inner} {children : List Node}
    (hchildren : ∀ c ∈ children, c.Advances) : (Node.element text i children closing).Advances := by
  intro parent s front hn hs
  obtain ⟨htext, hcontent⟩ := content_of_readable hn
  obtain ⟨htotal, hbase, hbelow, htags⟩ := s.total_append (cdata (front.length + 1) text)
  obtain ⟨front₁, hends₁, hrun₁⟩ := tag_run hascii (show (Tag.start i).Readable from hcontent.tag)
    (between_of_sound hs htext _) front rfl
  have hplace : (front.length + 1 + text.length + (Tag.start i).text.length : Int) = front₁.length + 1 := by
    have hlength := congrArg List.length hends₁
    simp only [List.length_append, List.length_cons, List.length_nil] at hlength
    omega
  obtain ⟨front₂, hends₂, hrun₂⟩ := inside_run hascii hcontent hchildren
    (s.append (cdata (front.length + 1) text)) front₁ hplace
  have hpage : ∀ rest, front ++ '>' :: (text ++ ((Tag.start i).text ++ rest)) = front₁ ++ '>' :: rest := by
    intro rest
    have h := congrArg (· ++ rest) hends₁
    simpa using h
  generalize htree : elementTree i (front.length + 1 + text.length) (forest (front₁.length + 1) children ++
    cdata (front₁.length + 1 + (pages children).length) closing)
    ((pages children).length + closing.length) = tree at hrun₂
  refine ⟨(s.append (cdata (front.length + 1) text)).append [tree], front₂,
    ⟨?_, (hs.append _).append _, ?_, ?_, ?_, fun rest => ?_⟩, fun _ hnil => ?_⟩
  · rw [Node.page, hpage, hends₂]
  · exact ((Stack.total_append _ _).2.1).trans hbase
  · exact ((Stack.total_append _ _).2.2.1).trans hbelow
  · rw [(Stack.total_append _ _).1, htotal, Node.trees, hplace, htree, List.append_assoc]
  · have hfirst := hrun₁ (pages children ++ (closing ++ ((Tag.close i.name).text ++ rest)))
    have hsecond := hrun₂ rest
    rw [← hpage] at hsecond
    have hboth := hfirst.trans hsecond
    rw [Node.page]
    simpa only [List.append_assoc] using hboth
  · exact voids_append (voids_append hnil _) _

theorem node_advances (hascii : LowersAscii) (n : Node) : n.Advances :=
  Node.induct (leaf_advances hascii) (fun _ _ _ _ hchildren => element_advances hascii hchildren) n

/-! ### Whole pages -/

def Node.text : Node → QString
  | leaf text _ => text
  | element text .. => text

def docStack (children : List (RoseTree SgmlTag)) : Stack := ⟨[], ⟨docTag, children⟩, []⟩

theorem docStack_sound (hascii : LowersAscii) (parent : QString) (children : List (RoseTree SgmlTag)) :
    (docStack children).Sound parent := by
  have hname : SgmlTag.toLower docTag.Name = "doctag".toList := by
    simp only [docTag, SgmlTag.toLower]
    rw [List.map_congr_left (g := Char.toLower) fun c hc => hascii c ?_]
    · decide
    · have hsmall : ∀ c ∈ "doctag".toList, c.toNat < 128 := List.forall_iff_forall_mem.mp (by decide)
      exact hsmall c hc
  refine ⟨fun v hv => absurd hv List.not_mem_nil, ?_⟩
  show SgmlTag.toLower docTag.Name ∉ _
  rw [hname]
  decide

theorem first_run (hascii : LowersAscii) {parent : QString} {n : Node} (hn : n.Readable parent) (htext : n.text = [])
    (hvoid : n.isVoid = false) (iEnd : Int) :
    ∃ front, n.page = front ++ ['>'] ∧ ∀ rest, Runs (n.page ++ rest) ⟨⟨docTag, []⟩, [], iEnd, 0⟩
      ((docStack (n.trees 0)).reading front.length) := by
  have hdoc : SgmlTag.toLower docTag.Name ∉ QSgml.Reading.tagExeption := (docStack_sound hascii [] []).base
  cases n with
  | leaf text l =>
    obtain rfl : text = [] := htext
    cases hn with
    | leaf _ hleaf _ =>
      obtain ⟨body, hbody⟩ := l.tag.text_eq_concat
      have hlength : (l.tag.text.length - 1 : Int) = body.length := by
        rw [hbody, List.length_append, List.length_singleton]
        omega
      refine ⟨body, by rw [Node.page, hbody]; rfl, fun rest => ?_⟩
      have happly : l.tag.apply 0 ⟨docTag, []⟩ [] = some (⟨docTag, [l.tree 0]⟩, []) := by
        cases l with
        | void i => cases hvoid
        | standalone i => rfl
        | comment t => rfl
        | doctype t => rfl
      have hround := round_first hascii hleaf hdoc iEnd rest happly
      rw [hlength] at hround
      exact runs_of_round hround fun he => absurd (Int.natCast_nonneg body.length) (by
        rw [show (body.length : Int) = -1 from he]
        decide)
  | element text i children closing =>
    obtain rfl : text = [] := htext
    obtain ⟨-, hcontent⟩ := content_of_readable hn
    have hbody : (Tag.start i).text = '<' :: i.text ++ ['>'] := rfl
    have hlength : ((Tag.start i).text.length - 1 : Int) = ('<' :: i.text).length := by
      rw [hbody, List.length_append, List.length_singleton]
      omega
    have hplace : (0 + (Tag.start i).text.length : Int) = ('<' :: i.text).length + 1 := by omega
    obtain ⟨front, hends, hrun⟩ := inside_run hascii hcontent (fun c _ => node_advances hascii c)
      (docStack []) ('<' :: i.text) hplace
    have hpage : ∀ rest, (Node.element [] i children closing).page ++ rest = ('<' :: i.text) ++ '>' ::
        (pages children ++ (closing ++ ((Tag.close i.name).text ++ rest))) := by
      intro rest
      simp [Node.page, hbody]
    refine ⟨front, ?_, fun rest => ?_⟩
    · have h := hpage []
      rw [List.append_nil, List.append_nil] at h
      exact h.trans hends
    · have happly : (Tag.start i).apply 0 ⟨docTag, []⟩ [] =
          some (⟨i.tag .eStartTag 0 (Tag.start i).text.length, []⟩, [⟨docTag, []⟩]) := rfl
      have htag : (Tag.start i).Readable := hcontent.tag
      have hround := round_first hascii htag hdoc iEnd
        (pages children ++ (closing ++ ((Tag.close i.name).text ++ rest))) happly
      have hstart : (Tag.start i).text ++ (pages children ++ (closing ++ ((Tag.close i.name).text ++ rest))) =
          (Node.element [] i children closing).page ++ rest := by
        simp [Node.page]
      rw [hstart, hlength] at hround
      have hfirst := runs_of_round hround fun he => absurd (Int.natCast_nonneg ('<' :: i.text).length) (by
        rw [show (('<' :: i.text).length : Int) = -1 from he]
        decide)
      have hsecond := hrun rest
      rw [← hpage] at hsecond
      have hboth := hfirst.trans hsecond
      have htrees : (Node.element [] i children closing).trees 0 =
          [elementTree i 0 (forest (('<' :: i.text).length + 1) children ++
            cdata (('<' :: i.text).length + 1 + (pages children).length) closing)
            ((pages children).length + closing.length)] := by
        rw [← hplace, Node.trees]
        rfl
      rw [htrees]
      exact hboth

theorem loop_of_runs {page : QString} {r r' : QSgml.Reading} {last : OpenTag} {pos : Int} (h : Runs page r r')
    (hround : r'.round page = .ok ⟨last, r'.ancestors, pos, -1⟩) :
    ∃ needed, ∀ rounds ≥ needed, QSgml.Reading.loop page rounds r =
      .ok (QSgml.Reading.document last r'.ancestors) := by
  obtain ⟨m, hm⟩ := h
  refine ⟨m + 1, fun rounds hrounds => ?_⟩
  obtain ⟨n, rfl⟩ := Nat.exists_eq_add_of_le hrounds
  rw [Nat.add_assoc, hm, Nat.add_comm, QSgml.Reading.loop, hround]
  rfl

theorem document_run (hascii : LowersAscii) {parent : QString} {n : Node} {ns : List Node}
    (h : ∀ m ∈ n :: ns, m.Readable parent ∧ m.isVoid = false) (hfirst : n.text = []) (iEnd : Int) :
    ∃ front, pages (n :: ns) = front ++ ['>'] ∧
      ∀ rest, Runs (pages (n :: ns) ++ rest) ⟨⟨docTag, []⟩, [], iEnd, 0⟩
        ((docStack (forest 0 (n :: ns))).reading front.length) := by
  obtain ⟨front, hends, hrun⟩ := first_run hascii (h n List.mem_cons_self).1 hfirst (h n List.mem_cons_self).2 iEnd
  obtain ⟨s, front', hadvance, hvoids⟩ := nodes_advance (fun m _ => node_advances hascii m) front
    (fun m hm => (h m (List.mem_cons_of_mem n hm)).1) (docStack_sound hascii parent (n.trees 0))
  have hplace : (0 + n.page.length : Int) = front.length + 1 := by
    rw [hends, List.length_append, List.length_singleton]
    omega
  have hpage : ∀ rest, n.page ++ (pages ns ++ rest) = front ++ '>' :: (pages ns ++ rest) := by
    intro rest
    rw [hends]
    simp
  obtain rfl : s = docStack (forest 0 (n :: ns)) := by
    obtain ⟨voids, base, below⟩ := s
    obtain rfl : voids = [] := hvoids (fun m hm => (h m (List.mem_cons_of_mem n hm)).2) rfl
    obtain rfl : below = [] := hadvance.below
    obtain ⟨tag, Children⟩ := base
    obtain rfl : tag = docTag := hadvance.base
    have htotal := hadvance.total
    simp only [Stack.total, Stack.spilled, docStack, List.append_nil] at htotal
    rw [docStack, htotal, forest, hplace]
  refine ⟨front', ?_, fun rest => ?_⟩
  · have hlast := hadvance.ends
    rw [pages, hends]
    simpa using hlast
  · have hfirst := hrun (pages ns ++ rest)
    have hthen := hadvance.run rest
    rw [← hpage] at hthen
    have hboth := hfirst.trans hthen
    rw [pages, List.append_assoc]
    exact hboth

theorem exists_rounds_document (hascii : LowersAscii) {parent text : QString} {n : Node} {ns : List Node}
    (h : ∀ m ∈ n :: ns, m.Readable parent ∧ m.isVoid = false) (hfirst : n.text = []) (htext : '<' ∉ text)
    (iEnd : Int) :
    ∃ needed, ∀ rounds ≥ needed, String2Sgml rounds iEnd (pages (n :: ns) ++ text) =
      .ok (.node docTag (forest 0 (n :: ns) ++ [.node endTag []])) := by
  obtain ⟨front, hends, hrun⟩ := document_run hascii h hfirst iEnd
  have hround := round_end (docStack_sound hascii [] (forest 0 (n :: ns))).base htext front []
  have hpage : front ++ '>' :: text = pages (n :: ns) ++ text := by simp [hends]
  rw [hpage] at hround
  exact loop_of_runs (hrun text) hround

/-- A document is read as its parts, and what stands behind the last tag is in no tag. -/
theorem String2Sgml_pages (hascii : LowersAscii) {parent text : QString} {n : Node} {ns : List Node}
    (h : ∀ m ∈ n :: ns, m.Readable parent ∧ m.isVoid = false) (hfirst : n.text = []) (htext : '<' ∉ text)
    (iEnd : Int) :
    ∃ needed, ∀ rounds ≥ needed, String2Sgml rounds iEnd (pages (n :: ns) ++ text) =
      .ok (.node docTag (forest 0 (n :: ns) ++ [.node endTag []])) :=
  exists_rounds_document hascii h hfirst htext iEnd

/-- The end tag of an element that is not open ends the document, whatever follows. -/
theorem String2Sgml_cut (hascii : LowersAscii) {parent text name : QString} {n : Node} {ns : List Node}
    (h : ∀ m ∈ n :: ns, m.Readable parent ∧ m.isVoid = false) (hfirst : n.text = []) (htext : '<' ∉ text)
    (hname : PlainName name) (iEnd : Int) (rest : QString) :
    ∃ needed, ∀ rounds ≥ needed,
      String2Sgml rounds iEnd (pages (n :: ns) ++ (text ++ ((Tag.close name).text ++ rest))) =
        .ok (.node docTag (forest 0 (n :: ns) ++ cdata (pages (n :: ns)).length text ++ [.node endTag []])) := by
  obtain ⟨front, hends, hrun⟩ := document_run hascii h hfirst iEnd
  have hbetween := between_of_sound (docStack_sound hascii [] (forest 0 (n :: ns))) htext (.close name)
  have happly : (Tag.close name).apply (front.length + 1 + text.length)
      ((docStack (forest 0 (n :: ns))).last.append (cdata (front.length + 1) text)) [] = none := rfl
  obtain ⟨pos, hround⟩ := round_unmatched hascii hname hbetween front rest happly
  have hpage : front ++ '>' :: (text ++ ((Tag.close name).text ++ rest)) =
      pages (n :: ns) ++ (text ++ ((Tag.close name).text ++ rest)) := by simp [hends]
  have hplace : (front.length + 1 : Int) = (pages (n :: ns)).length := by
    rw [hends, List.length_append, List.length_singleton]
    omega
  rw [hpage, hplace] at hround
  exact loop_of_runs (hrun _) hround

end runs

section sample

/-- The lower case of ASCII letters, and no numbers. -/
local instance asciiLetters : QtConversions := ⟨Char.toLower, Unit, fun _ => none, fun _ _ => (), fun _ => 0⟩

def samplePage : List Node :=
  [.leaf [] (.doctype "doctype html".toList),
    .element "\n".toList ⟨"p".toList, [("class".toList, "first > last".toList)]⟩
      [.leaf "x".toList (.void ⟨"br".toList, []⟩)] "y".toList]

theorem samplePage_readable : ∀ m ∈ samplePage, m.Readable "doctag".toList ∧ m.isVoid = false := by
  have hp : PlainName "p".toList := plainName_of_all (by decide) (by decide)
  have hbr : PlainName "br".toList := plainName_of_all (by decide) (by decide)
  have hclass : PlainName "class".toList := plainName_of_all (by decide) (by decide)
  simp only [samplePage, List.forall_mem_cons, List.not_mem_nil, false_imp_iff, implies_true, and_true]
  refine ⟨⟨.leaf (by decide) ⟨?_, by decide⟩ ?_, rfl⟩, .element (by decide) ⟨hp, ?_, ?_⟩ (by decide) ?_ (by decide), rfl⟩
  · exact quiet_of_forall (List.forall_iff_forall_mem.mp (by decide))
  · exact fun i hi => Leaf.noConfusion hi
  · exact List.forall_mem_singleton.mpr hclass
  · exact List.forall_mem_singleton.mpr (by decide)
  · refine List.forall_mem_singleton.mpr (.leaf (by decide) ⟨hbr, ?_, ?_⟩ fun i hi => ?_)
    · exact fun a ha => absurd ha List.not_mem_nil
    · exact fun a ha => absurd ha List.not_mem_nil
    · obtain rfl := Leaf.void.inj hi
      exact ⟨by decide, by decide⟩

theorem String2Sgml_samplePage : ∃ needed, ∀ rounds ≥ needed,
    String2Sgml rounds 7 "<!doctype html>\n<p class=\"first > last\">x<br>y</p> z".toList =
      .ok (.node docTag (forest 0 samplePage ++ [.node endTag []])) :=
  String2Sgml_pages (fun _ _ => rfl) samplePage_readable rfl (show '<' ∉ " z".toList by decide) 7

theorem String2Sgml_samplePage_cut : ∃ needed, ∀ rounds ≥ needed,
    String2Sgml rounds 7 "<!doctype html>\n<p class=\"first > last\">x<br>y</p> z</div><p>".toList =
      .ok (.node docTag (forest 0 samplePage ++ cdata 50 " z".toList ++ [.node endTag []])) := by
  have hname : PlainName "div".toList := plainName_of_all (by decide) (by decide)
  exact String2Sgml_cut (fun _ _ => rfl) samplePage_readable rfl (show '<' ∉ " z".toList by decide) hname 7 "<p>".toList

end sample

end Markup
end CuteTorrent
