import CuteTorrent.Library.Preorder
import CuteTorrent.SgmlPages

/-! The tags that `QSgml` finds in a page, and the texts in them. -/
namespace CuteTorrent
namespace QSgml

/-- The loop of the searches, from the place of a tag; a tag behind which there is none is
the document itself, whose parent is asked for its children. -/
def elements (wanted : SgmlTag → Bool) (doc : RoseTree SgmlTag) :
    Nat → List Nat → Except Unread (List (List Nat))
  | 0, _ => .error .rounds
  | rounds + 1, Tag =>
    match doc.seek Tag with
    | none => .error (.fault .nullPointer)
    | some t =>
      if t.label.tagType = .eVirtualEndTag then .ok []
      else
        match doc.nextPlace Tag with
        | none => .error (.fault .nullPointer)
        | some next => do
          let rest ← elements wanted doc rounds next
          return if wanted t.label then Tag :: rest else rest

def getElementsByAtribute (AtrName AtrValue : QString) (rounds : Nat) (doc : RoseTree SgmlTag) :
    Except Unread (List (List Nat)) :=
  elements (fun tag => tag.checkAttribute AtrName AtrValue) doc rounds []

theorem elements_of_follow {wanted : SgmlTag → Bool} {doc t : RoseTree SgmlTag} {last : List Nat}
    (hlast : doc.seek last = some t) (hend : t.label.tagType = .eVirtualEndTag) {before : List (List Nat)}
    (hbefore : ∀ p ∈ before, ∃ u, doc.seek p = some u ∧ u.label.tagType ≠ .eVirtualEndTag) {Tag : List Nat}
    (hfollow : RoseTree.follow doc.nextPlace (before.length + 1) (some Tag) = before ++ [last]) {rounds : Nat}
    (hrounds : before.length < rounds) :
    elements wanted doc rounds Tag =
      .ok (before.filter fun p => (doc.seek p).any fun u => wanted u.label) := by
  induction before generalizing Tag rounds with
  | nil =>
    obtain rfl : Tag = last := List.head_eq_of_cons_eq hfollow
    obtain ⟨rounds, rfl⟩ := Nat.exists_eq_succ_of_ne_zero (by omega : rounds ≠ 0)
    simp only [elements, hlast, if_pos hend]
    rfl
  | cons p before ih =>
    obtain ⟨rounds, rfl⟩ := Nat.exists_eq_succ_of_ne_zero (by omega : rounds ≠ 0)
    rw [List.length_cons, RoseTree.follow, List.cons_append] at hfollow
    obtain ⟨rfl, hthen⟩ := List.cons_eq_cons.mp hfollow
    obtain ⟨u, hu, hgoes⟩ := hbefore Tag List.mem_cons_self
    cases hnext : doc.nextPlace Tag with
    | none =>
      rw [hnext] at hthen
      simp [RoseTree.follow] at hthen
    | some next =>
      rw [hnext] at hthen
      have hrest := ih (fun q hq => hbefore q (List.mem_cons_of_mem Tag hq)) hthen
        (by simpa using hrounds)
      simp only [elements, hu, if_neg hgoes, hnext, hrest, bind, Except.bind, pure, Except.pure]
      cases hwanted : wanted u.label <;> simp [hu, hwanted]

theorem elements_eq (wanted : SgmlTag → Bool) {doc t : RoseTree SgmlTag} {before : List (RoseTree SgmlTag)}
    (hdoc : doc.preorder = before ++ [t]) (hend : t.label.tagType = .eVirtualEndTag)
    (hbefore : ∀ u ∈ before, u.label.tagType ≠ .eVirtualEndTag) :
    ∃ found, (∀ rounds > before.length, elements wanted doc rounds [] = .ok found) ∧
      found.map doc.seek = (before.filter fun u => wanted u.label).map some := by
  have hplaces := RoseTree.seek_places doc (t := doc) (p := []) rfl
  rw [hdoc, List.map_append, List.map_singleton] at hplaces
  obtain ⟨front, lasts, hsplit, hfront, hlasts⟩ := List.map_eq_append_iff.mp hplaces
  obtain ⟨last, rfl, hlast⟩ := List.map_eq_singleton_iff.mp hlasts
  have hlength : front.length = before.length := by
    have h := congrArg List.length hfront
    simpa using h
  have hfollow := RoseTree.follow_places doc (t := doc) (p := []) rfl 0
  rw [hsplit] at hfollow
  have hrun : RoseTree.follow doc.nextPlace (front.length + 1) (some []) = front ++ [last] := by
    simpa [RoseTree.follow] using hfollow
  refine ⟨_, fun rounds hrounds => elements_of_follow hlast hend (fun p hp => ?_) hrun (hlength ▸ hrounds), ?_⟩
  · have hmem : doc.seek p ∈ before.map some := hfront ▸ List.mem_map_of_mem hp
    obtain ⟨u, hu, hseek⟩ := List.mem_map.mp hmem
    exact ⟨u, hseek.symm, hbefore u hu⟩
  · have h := congrArg (List.filter fun v : Option (RoseTree SgmlTag) => v.any fun u => wanted u.label) hfront
    rw [List.filter_map, List.filter_map] at h
    exact h

end QSgml

namespace Markup
open QSgml

def Node.body : Node → QString
  | leaf _ l => l.tag.text
  | element _ i children closing =>
    (Tag.start i).text ++ (pages children ++ (closing ++ (Tag.close i.name).text))

def Node.tree (pos : Int) : Node → RoseTree SgmlTag
  | leaf _ l => l.tree pos
  | element _ i children closing =>
    elementTree i pos (forest (pos + (Tag.start i).text.length) children ++
      cdata (pos + (Tag.start i).text.length + (pages children).length) closing)
      ((pages children).length + closing.length)

def Leaf.inner : Leaf → Option Inner
  | void i => some i
  | standalone i => some i
  | comment _ => none
  | doctype _ => none

def Node.inner : Node → Option Inner
  | leaf _ l => l.inner
  | element _ i _ _ => some i

def Node.children : Node → List Node
  | leaf .. => []
  | element _ _ children _ => children

/-- What stands between the start tag and the end tag. -/
def Node.content : Node → QString
  | leaf .. => []
  | element _ _ children closing => pages children ++ closing

mutual
def Node.preorder : Node → List Node
  | .leaf text l => [.leaf text l]
  | .element text i children closing => .element text i children closing :: nodes children
def nodes : List Node → List Node
  | [] => []
  | n :: ns => n.preorder ++ nodes ns
end

theorem Node.page_eq (n : Node) : n.page = n.text ++ n.body := by
  cases n <;> rfl

theorem Node.trees_eq (pos : Int) (n : Node) :
    n.trees pos = cdata pos n.text ++ [n.tree (pos + n.text.length)] := by
  cases n <;> rfl

/-- The tree is that of a part of the page, at its place, which is `k` or behind it. -/
def Placed (page : QString) (k : Nat) (u : RoseTree SgmlTag) (n : Node) : Prop :=
  ∃ before after, page = before ++ (n.body ++ after) ∧ k ≤ before.length ∧ u = n.tree before.length

section placed
variable {page : QString}

theorem flatMap_cdata {F : RoseTree SgmlTag → List (RoseTree SgmlTag)}
    (htext : ∀ text pos length, F (.node (.valued text .eCdata pos length) []) = []) (pos : Int) (text : QString) :
    (cdata pos text).flatMap F = [] := by
  unfold cdata
  split_ifs
  · rw [List.flatMap_singleton, htext]
  · rfl

theorem flatMap_forest {k : Nat} {F : RoseTree SgmlTag → List (RoseTree SgmlTag)} {G : Node → List Node}
    (htext : ∀ text pos length, F (.node (.valued text .eCdata pos length) []) = []) {ns : List Node}
    (hns : ∀ n ∈ ns, ∀ u, Placed page k u n → List.Forall₂ (Placed page k) (F u) (G n)) {before after : QString}
    (hpage : page = before ++ (pages ns ++ after)) (hk : k ≤ before.length) :
    List.Forall₂ (Placed page k) ((forest before.length ns).flatMap F) (ns.flatMap G) := by
  induction ns generalizing before with
  | nil => exact .nil
  | cons n ns ih =>
    have hfirst := hns n List.mem_cons_self (n.tree (before ++ n.text).length)
      ⟨before ++ n.text, pages ns ++ after, by rw [hpage, pages, n.page_eq]; simp,
        by rw [List.length_append]; omega, rfl⟩
    have hbehind : page = (before ++ n.page) ++ (pages ns ++ after) := by
      rw [hpage, pages]
      simp
    have hrest := ih (fun m hm => hns m (List.mem_cons_of_mem n hm)) hbehind (by rw [List.length_append]; omega)
    rw [List.length_append, Int.natCast_add] at hfirst hrest
    rw [forest, n.trees_eq, List.flatMap_append, List.flatMap_append, flatMap_cdata htext, List.nil_append,
      List.flatMap_singleton, List.flatMap_cons]
    exact List.rel_append hfirst hrest

theorem Placed.flatMap_children {k l : Nat} {F : RoseTree SgmlTag → List (RoseTree SgmlTag)}
    {G : Node → List Node} (htext : ∀ text pos length, F (.node (.valued text .eCdata pos length) []) = [])
    {u : RoseTree SgmlTag} {n : Node} (h : Placed page k u n) (hl : l ≤ k + 1)
    (hchildren : ∀ c ∈ n.children, ∀ u, Placed page l u c → List.Forall₂ (Placed page l) (F u) (G c)) :
    List.Forall₂ (Placed page l) (u.children.flatMap F) (n.children.flatMap G) := by
  obtain ⟨before, after, hpage, hk, rfl⟩ := h
  cases n with
  | leaf text l =>
    have hnone : (Node.tree before.length (.leaf text l)).children = [] := by cases l <;> rfl
    rw [hnone]
    exact .nil
  | element text i children closing =>
    have hbehind : l ≤ (before ++ (Tag.start i).text).length := by
      rw [List.length_append, Tag.text, List.length_cons]
      omega
    have hinside : page = (before ++ (Tag.start i).text) ++ (pages children ++
        (closing ++ ((Tag.close i.name).text ++ after))) := by
      rw [hpage, Node.body]
      simp
    have hbelow := flatMap_forest htext hchildren hinside hbehind
    rw [List.length_append, Int.natCast_add] at hbelow
    rw [Node.tree, elementTree, OpenTag.closed, RoseTree.children, List.flatMap_append, flatMap_cdata htext,
      List.append_nil]
    exact hbelow

theorem Placed.mono {k l : Nat} {u : RoseTree SgmlTag} {n : Node} (h : Placed page k u n) (hl : l ≤ k) :
    Placed page l u n := by
  obtain ⟨before, after, hpage, hk, rfl⟩ := h
  exact ⟨before, after, hpage, hl.trans hk, rfl⟩

theorem Node.preorder_eq (n : Node) : n.preorder = n :: n.children.flatMap Node.preorder := by
  have hnodes : ∀ ns, nodes ns = ns.flatMap Node.preorder := by
    intro ns
    induction ns with
    | nil => rfl
    | cons m ms ih => rw [nodes, List.flatMap_cons, ih]
  cases n with
  | leaf text l => rfl
  | element text i children closing =>
    rw [Node.preorder, hnodes]
    rfl

/-- A choice of trees, none of them a text, and a choice of parts that agrees with it. -/
structure Choice (page : QString) (f : RoseTree SgmlTag → Bool) (g : Node → Bool) : Prop where
  text : ∀ text pos length, f (.node (.valued text .eCdata pos length) []) = false
  placed : ∀ u n, Placed page 0 u n → f u = g n

namespace Choice
variable {f : RoseTree SgmlTag → Bool} {g : Node → Bool} {k : Nat} {u : RoseTree SgmlTag} {n : Node}

theorem own (h : Choice page f g) (hu : Placed page k u n) :
    List.Forall₂ (Placed page k) ([u].filter f) ([n].filter g) := by
  rw [List.filter_singleton, List.filter_singleton, h.placed u n (hu.mono (Nat.zero_le k))]
  cases g n with
  | false => exact .nil
  | true => exact .cons hu .nil

theorem children (h : Choice page f g) (hu : Placed page k u n) :
    List.Forall₂ (Placed page (k + 1)) (u.children.filter f) (n.children.filter g) := by
  have hchildren := hu.flatMap_children (F := fun u => [u].filter f) (G := fun n => [n].filter g)
    (fun text pos length => by rw [List.filter_singleton, h.text]; rfl) (Nat.le_refl (k + 1))
    (fun c _ u hc => h.own hc)
  rw [← List.filter_flatMap, ← List.filter_flatMap, List.flatMap_singleton', List.flatMap_singleton'] at hchildren
  exact hchildren

theorem text_preorder (h : Choice page f g) (text : QString) (pos length : Int) :
    (RoseTree.node (SgmlTag.valued text .eCdata pos length) []).preorder.filter f = [] := by
  rw [RoseTree.preorder, RoseTree.preorders, List.filter_singleton, h.text]
  rfl

theorem step (h : Choice page f g) (hu : Placed page k u n)
    (hchildren : ∀ c ∈ n.children, ∀ u, Placed page k u c →
      List.Forall₂ (Placed page k) (u.preorder.filter f) (c.preorder.filter g)) :
    List.Forall₂ (Placed page k) (u.preorder.filter f) (n.preorder.filter g) := by
  have hbelow := hu.flatMap_children (F := fun u => u.preorder.filter f) (G := fun n => n.preorder.filter g)
    h.text_preorder (Nat.le_succ k) hchildren
  rw [← List.filter_flatMap, ← List.filter_flatMap] at hbelow
  rw [RoseTree.preorder_eq, n.preorder_eq, ← List.singleton_append, List.filter_append,
    ← List.singleton_append (l := n.children.flatMap Node.preorder), List.filter_append]
  exact List.rel_append (h.own hu) hbelow

theorem preorder (h : Choice page f g) (hu : Placed page k u n) :
    List.Forall₂ (Placed page k) (u.preorder.filter f) (n.preorder.filter g) := by
  induction n using Node.induct generalizing u with
  | hleaf text l => exact h.step hu fun c hc => absurd hc List.not_mem_nil
  | helement text i children closing ih => exact h.step hu fun c hc v hv => ih c hc hv

theorem below (h : Choice page f g) (hu : Placed page k u n) :
    List.Forall₂ (Placed page k) ((u.children.flatMap RoseTree.preorder).filter f)
      ((n.children.flatMap Node.preorder).filter g) := by
  rw [List.filter_flatMap, List.filter_flatMap]
  exact hu.flatMap_children h.text_preorder (Nat.le_succ k) fun c _ v hv => h.preorder hv

theorem document (h : Choice page f g) {ns : List Node} {text : QString} (hpage : page = pages ns ++ text) :
    List.Forall₂ (Placed page 0) (((forest 0 ns).flatMap RoseTree.preorder).filter f)
      ((ns.flatMap Node.preorder).filter g) := by
  rw [List.filter_flatMap, List.filter_flatMap]
  have hfront : page = [] ++ (pages ns ++ text) := hpage
  exact flatMap_forest h.text_preorder (fun n _ u hu => h.preorder hu) hfront (Nat.le_refl 0)

end Choice

theorem Placed.label {k : Nat} {u : RoseTree SgmlTag} {n : Node} (h : Placed page k u n) :
    u.label.Name = (n.inner.map Inner.name).getD [] ∧
      u.label.Attributes = (n.inner.map fun i => stored i.attributes []).getD [] := by
  obtain ⟨before, after, -, -, rfl⟩ := h
  cases n with
  | leaf text l => cases l <;> exact ⟨rfl, rfl⟩
  | element text i children closing => exact ⟨rfl, rfl⟩

/-- The inner text of a tag that the page does not begin with. -/
theorem Placed.innerText {k : Nat} {u : RoseTree SgmlTag} {n : Node} {i : Inner} (h : Placed page k u n) (hi : n.inner = some i)
    (hpos : 0 < u.label.StartTagPos) : (QSgml.mk page).getInnerText u.label.toQSgmlTag = n.content := by
  obtain ⟨before, after, hpage, -, rfl⟩ := h
  cases n with
  | leaf text l =>
    cases l with
    | void i => rfl
    | standalone i => rfl
    | comment t => cases hi
    | doctype t => cases hi
  | element text i children closing =>
    have hstart : (0 : Int) < before.length := hpos
    have htype : (Node.tree before.length (.element text i children closing)).label.tagType ≠ .eStandalone := by
      simp only [Node.tree, elementTree, OpenTag.closed, RoseTree.label, Inner.tag]
      split_ifs <;> decide
    have hinside : page = (before ++ (Tag.start i).text) ++ ((pages children ++ closing) ++
        ((Tag.close i.name).text ++ after)) := by
      rw [hpage, Node.body]
      simp
    have hmid := mid_append (before ++ (Tag.start i).text) (pages children ++ closing)
      ((Tag.close i.name).text ++ after)
    rw [← hinside] at hmid
    have hend : (before.length + (Tag.start i).text.length + ((pages children).length + closing.length) -
        before.length - (Tag.start i).text.length : Int) = (pages children ++ closing).length := by
      rw [List.length_append, Int.natCast_add]
      omega
    rw [QSgml.getInnerText, if_neg htype, if_pos]
    · simp only [Node.tree, elementTree, OpenTag.closed, RoseTree.label, Inner.tag]
      rw [hend, ← Int.natCast_add, ← List.length_append]
      exact hmid
    · refine ⟨hpos, ?_⟩
      simp only [Node.tree, elementTree, OpenTag.closed, RoseTree.label]
      omega

theorem Placed.StartTagPos_ge {k : Nat} {u : RoseTree SgmlTag} {n : Node} (h : Placed page k u n) :
    (k : Int) ≤ u.label.StartTagPos := by
  obtain ⟨before, after, -, hk, rfl⟩ := h
  have hpos : (n.tree before.length).label.StartTagPos = before.length := by
    cases n with
    | leaf text l => cases l <;> rfl
    | element text i children closing => rfl
  omega

theorem Placed.tagType {k : Nat} {u : RoseTree SgmlTag} {n : Node} (h : Placed page k u n) :
    u.label.tagType ≠ .eVirtualEndTag := by
  obtain ⟨before, after, -, -, rfl⟩ := h
  cases n with
  | leaf text l => cases l <;> exact TagType.noConfusion
  | element text i children closing =>
    simp only [Node.tree, elementTree, OpenTag.closed, RoseTree.label, Inner.tag]
    split_ifs <;> decide

/-! ### Searches -/

def documentTree (ns : List Node) : RoseTree SgmlTag := .node docTag (forest 0 ns ++ [.node endTag []])

theorem elements_document {wanted : SgmlTag → Bool} {g : Node → Bool} (h : Choice page (fun u => wanted u.label) g)
    (hdoc : wanted docTag = false) {ns : List Node} {text : QString} (hpage : page = pages ns ++ text) :
    ∃ needed found, (∀ rounds > needed, elements wanted (documentTree ns) rounds [] = .ok found) ∧
      List.Forall₂ (fun p n => ∃ u, (documentTree ns).seek p = some u ∧ Placed page 0 u n) found
        ((ns.flatMap Node.preorder).filter g) := by
  have hpreorder : (documentTree ns).preorder =
      (documentTree ns :: (forest 0 ns).flatMap RoseTree.preorder) ++ [.node endTag []] := by
    rw [RoseTree.preorder_eq, documentTree, RoseTree.children, List.flatMap_append, List.flatMap_singleton,
      RoseTree.preorder, RoseTree.preorders, List.cons_append]
  -- a tag that is no end is one of a part of the page, or a text
  have hends := Choice.document (f := fun u => decide (u.label.tagType = .eVirtualEndTag)) (g := fun _ => false)
    ⟨fun text pos length => rfl, fun u n hu => decide_eq_false hu.tagType⟩ hpage
  rw [List.filter_false, List.forall₂_nil_right_iff, List.filter_eq_nil_iff] at hends
  obtain ⟨found, hfound, hseek⟩ := elements_eq wanted hpreorder rfl (List.forall_mem_cons.mpr
    ⟨TagType.noConfusion, fun u hu he => hends u hu (decide_eq_true he)⟩)
  refine ⟨_, found, hfound, ?_⟩
  have hall := h.document hpage
  have hrelated : List.Forall₂ (fun (o : Option (RoseTree SgmlTag)) n => ∃ u, o = some u ∧ Placed page 0 u n)
      ((((forest 0 ns).flatMap RoseTree.preorder).filter fun u => wanted u.label).map some)
      ((ns.flatMap Node.preorder).filter g) :=
    List.forall₂_map_left_iff.mpr (hall.imp fun u n hu => ⟨u, rfl, hu⟩)
  have hskip : ¬ wanted (documentTree ns).label = true := by
    rw [show (documentTree ns).label = docTag from rfl, hdoc]
    exact Bool.false_ne_true
  rw [List.filter_cons_of_neg (p := fun u : RoseTree SgmlTag => wanted u.label) (a := documentTree ns) hskip]
    at hseek
  rw [← hseek] at hrelated
  exact List.forall₂_map_left_iff.mp hrelated

/-- Whether a part of a page has an attribute of the value; of several of a name the last
one counts. -/
def Node.hasAttribute (AtrName AtrValue : QString) (n : Node) : Bool :=
  n.inner.any fun i => decide (Assoc.find AtrName i.attributes.reverse = some AtrValue)

theorem Placed.checkAttribute {k : Nat} {u : RoseTree SgmlTag} {n : Node} (h : Placed page k u n) (AtrName AtrValue : QString) :
    u.label.checkAttribute AtrName AtrValue = n.hasAttribute AtrName AtrValue := by
  rw [QSgmlTag.checkAttribute, h.label.2, Node.hasAttribute]
  cases n.inner with
  | none => rfl
  | some i =>
    rw [Option.map_some, Option.getD_some, Option.any_some, stored, Assoc.contains, Assoc.find_foldl_insert_nil]
    cases Assoc.find AtrName i.attributes.reverse with
    | none => simp
    | some value => simp

theorem getElementsByAtribute_document (AtrName AtrValue : QString) {ns : List Node} {text : QString}
    (hpage : page = pages ns ++ text) :
    ∃ needed found, (∀ rounds > needed, getElementsByAtribute AtrName AtrValue rounds (documentTree ns) = .ok found) ∧
      List.Forall₂ (fun p n => ∃ u, (documentTree ns).seek p = some u ∧ Placed page 0 u n) found
        ((ns.flatMap Node.preorder).filter (Node.hasAttribute AtrName AtrValue)) :=
  elements_document ⟨fun _ _ _ => rfl, fun _ _ h => h.checkAttribute AtrName AtrValue⟩ rfl hpage

variable [QtConversions]

/-- In a document that is read, the search for an attribute finds the tags that have it, in
the order of the text, and with them what stands between them and their end tags. -/
theorem getElementsByAtribute_pages (hascii : LowersAscii) {parent text : QString} {n : Node} {ns : List Node}
    (h : ∀ m ∈ n :: ns, m.Readable parent ∧ m.isVoid = false) (hfirst : n.text = []) (htext : '<' ∉ text)
    (iEnd : Int) (AtrName AtrValue : QString) :
    ∃ doc found needed, (∀ rounds > needed, String2Sgml rounds iEnd (pages (n :: ns) ++ text) = .ok doc ∧
        getElementsByAtribute AtrName AtrValue rounds doc = .ok found) ∧
      List.Forall₂ (fun p m => ∃ u i, doc.seek p = some u ∧ m.inner = some i ∧ u.label.Name = i.name ∧
          u.label.Attributes = stored i.attributes [] ∧ (0 < u.label.StartTagPos →
            (QSgml.mk (pages (n :: ns) ++ text)).getInnerText u.label.toQSgmlTag = m.content))
        found (((n :: ns).flatMap Node.preorder).filter (Node.hasAttribute AtrName AtrValue)) := by
  obtain ⟨needed, hread⟩ := exists_rounds_document hascii h hfirst htext iEnd
  obtain ⟨needed', found, hfound, hall⟩ := getElementsByAtribute_document AtrName AtrValue
    (Eq.refl (pages (n :: ns) ++ text))
  refine ⟨documentTree (n :: ns), found, max needed needed', fun rounds hrounds => ⟨hread rounds (by omega),
    hfound rounds (by omega)⟩, ?_⟩
  have hinner : ∀ m ∈ ((n :: ns).flatMap Node.preorder).filter (Node.hasAttribute AtrName AtrValue),
      ∃ i, m.inner = some i := by
    intro m hm
    obtain ⟨i, hi, -⟩ := (Option.any_eq_true _ _).mp (List.mem_filter.mp hm).2
    exact ⟨i, hi⟩
  have hboth := (List.forall₂_and_left _ _).mpr ⟨hinner, hall.flip⟩
  refine hboth.flip.imp ?_
  rintro p m ⟨⟨i, hi⟩, u, hseek, hu⟩
  have hlabel := hu.label
  rw [hi, Option.map_some, Option.map_some, Option.getD_some, Option.getD_some] at hlabel
  exact ⟨u, i, hseek, hi, hlabel.1, hlabel.2, hu.innerText hi⟩

end placed

section sample
local instance : QtConversions := asciiLetters

theorem getElementsByAtribute_samplePage : ∃ doc p u needed, (∀ rounds > needed,
      String2Sgml rounds 7 "<!doctype html>\n<p class=\"first > last\">x<br>y</p> z".toList = .ok doc ∧
        getElementsByAtribute "class".toList "first > last".toList rounds doc = .ok [p]) ∧
    doc.seek p = some u ∧ u.label.Name = "p".toList := by
  obtain ⟨doc, found, needed, hfound, hall⟩ := getElementsByAtribute_pages (fun _ _ => rfl) samplePage_readable rfl
    (show '<' ∉ " z".toList by decide) 7 "class".toList "first > last".toList
  obtain ⟨p, ps, ⟨u, i, hseek, hi, hname, -⟩, hrest, rfl⟩ := List.forall₂_cons_right_iff.mp hall
  obtain rfl := List.forall₂_nil_right_iff.mp hrest
  obtain rfl := Option.some.inj hi
  exact ⟨doc, p, u, needed, hfound, hseek, hname⟩

end sample

end Markup
end CuteTorrent
