import Mathlib.Data.List.Nodup
import CuteTorrent.Library.RoseTree

/-! Rose trees whose nodes carry names, addressed by lists of names: the node a path
leads to, the insertion of a path and the list of all nodes with their paths. -/
namespace RoseTree
variable {α ν : Type*} (name : α → ν)

section
variable [DecidableEq ν]

/-- The node a list of names leads to, the first where a name occurs twice. -/
def lookup : RoseTree α → List ν → Option (RoseTree α)
  | t, [] => some t
  | t, n :: ns => (t.children.find? fun c => decide (name c.label = n)).bind fun c => lookup c ns

/-- The nodes of the path are followed as far as there are any, the others are
appended; a new label comes from the one above, the name and the names below. -/
def insertPath (new : α → ν → List ν → α) : List ν → RoseTree α → RoseTree α
  | [], t => t
  | n :: ns, .node a cs =>
    match cs.findIdx? fun c => decide (name c.label = n) with
    | some j => .node a (cs.modify j (insertPath new ns))
    | none => .node a (cs ++ [insertPath new ns (.node (new a n ns) [])])

end

def Distinct (t : RoseTree α) : Prop :=
  Everywhere (fun u => (u.children.map fun c => name c.label).Nodup) t

mutual
def walk : RoseTree α → List (List ν × RoseTree α)
  | .node a cs => ([], .node a cs) :: walkChildren cs
def walkChildren : List (RoseTree α) → List (List ν × RoseTree α)
  | [] => []
  | c :: cs => (walk c).map (fun e => (name c.label :: e.1, e.2)) ++ walkChildren cs
end

variable {name}

theorem mem_walkChildren {cs : List (RoseTree α)} {e : List ν × RoseTree α} :
    e ∈ walkChildren name cs ↔ ∃ c ∈ cs, ∃ f ∈ walk name c, e = (name c.label :: f.1, f.2) := by
  induction cs with
  | nil => simp [walkChildren]
  | cons c cs ih =>
    simp only [walkChildren, List.mem_append, List.mem_map, ih, List.exists_mem_cons_iff, eq_comm]

theorem walk_eq_cons (t : RoseTree α) : walk name t = ([], t) :: walkChildren name t.children := by
  cases t
  rw [walk]
  rfl

theorem everywhere_iff_walk {P : RoseTree α → Prop} {t : RoseTree α} :
    Everywhere P t ↔ ∀ e ∈ walk name t, P e.2 := by
  induction t using RoseTree.induct with
  | h a cs ih =>
    rw [everywhere_node, walk, List.forall_mem_cons]
    refine and_congr_right fun _ => ?_
    constructor
    · intro h e he
      obtain ⟨c, hc, f, hf, rfl⟩ := mem_walkChildren.mp he
      exact (ih c hc).mp (h c hc) f hf
    · intro h c hc
      refine (ih c hc).mpr fun f hf => ?_
      exact h (name c.label :: f.1, f.2) (mem_walkChildren.mpr ⟨c, hc, f, hf, rfl⟩)

theorem nodup_walk {t : RoseTree α} (h : Distinct name t) : ((walk name t).map Prod.fst).Nodup := by
  induction t using RoseTree.induct with
  | h a cs ih =>
    obtain ⟨hnames, hcs⟩ := everywhere_node.mp h
    rw [walk, List.map_cons, List.nodup_cons]
    constructor
    · intro hmem
      obtain ⟨e, he, hnil⟩ := List.mem_map.mp hmem
      obtain ⟨c, -, f, -, rfl⟩ := mem_walkChildren.mp he
      exact absurd hnil (by simp)
    · simp only [children] at hnames
      clear h
      induction cs with
      | nil => exact List.nodup_nil
      | cons c cs ihcs =>
        obtain ⟨hfresh, hrest⟩ := List.nodup_cons.mp hnames
        rw [walkChildren, List.map_append, List.map_map]
        refine List.Nodup.append ?_ ?_ ?_
        · have hcons : (Prod.fst ∘ fun e : List ν × RoseTree α => (name c.label :: e.1, e.2)) =
              List.cons (name c.label) ∘ Prod.fst := rfl
          rw [hcons, ← List.map_map]
          exact (ih c (by simp) (hcs c (by simp))).map fun _ _ => List.tail_eq_of_cons_eq
        · exact ihcs (fun d hd => ih d (by simp [hd])) hrest fun d hd => hcs d (by simp [hd])
        · intro ns hns hns'
          obtain ⟨e, -, rfl⟩ := List.mem_map.mp hns
          obtain ⟨f, hf, hfe⟩ := List.mem_map.mp hns'
          obtain ⟨d, hd, g, -, rfl⟩ := mem_walkChildren.mp hf
          exact hfresh (List.mem_map.mpr ⟨d, hd, (List.cons.inj hfe).1⟩)

theorem exists_concat_isPrefix {ns parts : List ν} (hpre : ns <+: parts) (hne : ns ≠ parts) :
    ∃ n, ns ++ [n] <+: parts := by
  obtain ⟨rest, rfl⟩ := hpre
  cases rest with
  | nil => exact absurd (List.append_nil ns).symm hne
  | cons n rest => exact ⟨n, rest, by simp⟩

variable [DecidableEq ν]

@[simp] theorem lookup_nil (t : RoseTree α) : lookup name t [] = some t := by
  cases t
  rfl

theorem lookup_cons (t : RoseTree α) (n : ν) (ns : List ν) : lookup name t (n :: ns) =
    (t.children.find? fun c => decide (name c.label = n)).bind fun c => lookup name c ns := by
  cases t
  rfl

theorem lookup_append (t : RoseTree α) (ns ms : List ν) :
    lookup name t (ns ++ ms) = (lookup name t ns).bind fun u => lookup name u ms := by
  induction ns generalizing t with
  | nil => rw [List.nil_append, lookup_nil, Option.bind_some]
  | cons n ns ih =>
    rw [List.cons_append, lookup_cons, lookup_cons]
    cases t.children.find? fun c => decide (name c.label = n) with
    | none => rfl
    | some c => exact ih c

theorem lookup_isSome_of_isPrefix {t : RoseTree α} {ns ms : List ν} (hpre : ns <+: ms)
    (h : (lookup name t ms).isSome) : (lookup name t ns).isSome := by
  obtain ⟨rest, rfl⟩ := hpre
  rw [lookup_append] at h
  cases hu : lookup name t ns with
  | none => simp [hu] at h
  | some u => rfl

theorem lookup_of_children_nil {t : RoseTree α} (h : t.children = []) {ns : List ν} (hne : ns ≠ []) :
    lookup name t ns = none := by
  cases ns with
  | nil => exact absurd rfl hne
  | cons n ns => rw [lookup_cons, h, List.find?_nil, Option.bind_none]

theorem children_eq_nil_iff {u : RoseTree α} :
    u.children = [] ↔ ∀ n, lookup name u [n] = none := by
  constructor
  · intro h n
    exact lookup_of_children_nil h (by simp)
  · intro h
    rw [List.eq_nil_iff_forall_not_mem]
    intro c hc
    have hnone := h (name c.label)
    rw [lookup_cons] at hnone
    cases hf : u.children.find? fun d => decide (name d.label = name c.label) with
    | none => exact absurd (List.find?_eq_none.mp hf c hc) (by simp)
    | some d => simp [hf] at hnone

theorem lookup_mem {t u : RoseTree α} {ns : List ν} (h : lookup name t ns = some u) :
    ∃ q, t.get? q = some u := by
  induction ns generalizing t with
  | nil => exact ⟨[], by simpa using h⟩
  | cons n ns ih =>
    rw [lookup_cons] at h
    obtain ⟨c, hc, hu⟩ := Option.bind_eq_some_iff.mp h
    obtain ⟨q, hq⟩ := ih hu
    obtain ⟨i, hi⟩ := List.mem_iff_getElem?.mp (List.mem_of_find?_eq_some hc)
    exact ⟨i :: q, by rw [get?_cons, hi, Option.bind_some, hq]⟩

theorem Everywhere.get? {P : RoseTree α → Prop} {t u : RoseTree α} {p : List Nat}
    (h : Everywhere P t) (hu : t.get? p = some u) : Everywhere P u := by
  intro q v hv
  apply h (p ++ q)
  rw [get?_append, hu]
  exact hv

theorem Distinct.lookup {t u : RoseTree α} {ns : List ν} (h : Distinct name t)
    (hu : lookup name t ns = some u) : Distinct name u := by
  obtain ⟨q, hq⟩ := lookup_mem hu
  exact Everywhere.get? h hq

/-! ### The list of all nodes -/

theorem find?_name {cs : List (RoseTree α)} (hnames : (cs.map fun c => name c.label).Nodup)
    {c : RoseTree α} {n : ν} :
    (cs.find? fun c => decide (name c.label = n)) = some c ↔ c ∈ cs ∧ name c.label = n := by
  constructor
  · intro h
    exact ⟨List.mem_of_find?_eq_some h, by simpa using List.find?_some h⟩
  · rintro ⟨hc, rfl⟩
    cases hf : cs.find? fun d => decide (name d.label = name c.label) with
    | none => exact absurd (List.find?_eq_none.mp hf c hc) (by simp)
    | some d =>
      have hd : name d.label = name c.label := by simpa using List.find?_some hf
      exact congrArg some
        (List.inj_on_of_nodup_map hnames (List.mem_of_find?_eq_some hf) hc hd)

theorem mem_walk {t : RoseTree α} (h : Distinct name t) {ns : List ν} {u : RoseTree α} :
    (ns, u) ∈ walk name t ↔ lookup name t ns = some u := by
  induction t using RoseTree.induct generalizing ns with
  | h a cs ih =>
    obtain ⟨hnames, hcs⟩ := everywhere_node.mp h
    rw [walk, List.mem_cons, mem_walkChildren]
    cases ns with
    | nil =>
      rw [lookup_nil]
      constructor
      · rintro (h | ⟨c, -, f, -, he⟩)
        · exact congrArg some (congrArg Prod.snd h).symm
        · exact absurd (congrArg Prod.fst he) (by simp)
      · intro h
        rw [← Option.some.inj h]
        exact .inl rfl
    | cons n ns =>
      rw [lookup_cons]
      constructor
      · rintro (h | ⟨c, hc, f, hf, he⟩)
        · exact absurd (congrArg Prod.fst h) (by simp)
        · obtain ⟨⟨rfl, rfl⟩, rfl⟩ : (n = name c.label ∧ ns = f.1) ∧ u = f.2 := by simpa using he
          have hfind := (find?_name hnames).mpr ⟨hc, rfl⟩
          rw [hfind, Option.bind_some]
          exact (ih c hc (hcs c hc)).mp hf
      · intro h
        obtain ⟨c, hfind, hu⟩ := Option.bind_eq_some_iff.mp h
        obtain ⟨hc, rfl⟩ : c ∈ cs ∧ name c.label = n := (find?_name hnames).mp hfind
        exact .inr ⟨c, hc, (ns, u), (ih c hc (hcs c hc)).mpr hu, rfl⟩

theorem mem_walkChildren_iff {t : RoseTree α} (h : Distinct name t) {ns : List ν} {u : RoseTree α} :
    (ns, u) ∈ walkChildren name t.children ↔ ns ≠ [] ∧ lookup name t ns = some u := by
  rw [← mem_walk h, walk_eq_cons, List.mem_cons]
  constructor
  · intro hmem
    refine ⟨?_, .inr hmem⟩
    rintro rfl
    obtain ⟨c, -, f, -, he⟩ := mem_walkChildren.mp hmem
    exact absurd (congrArg Prod.fst he) (by simp)
  · rintro ⟨hne, heq | hmem⟩
    · exact absurd (congrArg Prod.fst heq) hne
    · exact hmem

/-! ### Inserting a path -/

section insert
variable {new : α → ν → List ν → α}

@[simp] theorem label_insertPath (parts : List ν) (t : RoseTree α) :
    (insertPath name new parts t).label = t.label := by
  cases parts with
  | nil => rfl
  | cons part parts =>
    obtain ⟨a, cs⟩ := t
    rw [insertPath]
    split <;> rfl

theorem below_insertPath {P : α → Prop} (hnew : ∀ a n ns, P (new a n ns)) (parts : List ν)
    {t : RoseTree α} (h : ∀ c ∈ t.children, Everywhere (fun u => P u.label) c) :
    ∀ c ∈ (insertPath name new parts t).children, Everywhere (fun u => P u.label) c := by
  have everywhere_of_label : ∀ {u : RoseTree α}, P u.label →
      (∀ c ∈ u.children, Everywhere (fun u => P u.label) c) → Everywhere (fun u => P u.label) u := by
    rintro ⟨b, ds⟩ hlabel hbelow
    exact everywhere_node.mpr ⟨hlabel, hbelow⟩
  induction parts generalizing t with
  | nil => exact h
  | cons part parts ih =>
    obtain ⟨a, cs⟩ := t
    rw [insertPath]
    split
    · intro c hc
      rcases mem_modify_children hc with hc | ⟨d, hd, rfl⟩
      · exact h c hc
      · have hold : Everywhere (fun u => P u.label) d := h d hd
        refine everywhere_of_label ?_ (ih ?_)
        · rw [label_insertPath]
          exact hold [] d rfl
        · obtain ⟨b, ds⟩ := d
          exact (everywhere_node.mp hold).2
    · intro c hc
      rcases List.mem_append.mp hc with hc | hc
      · exact h c hc
      · rw [List.mem_singleton.mp hc]
        refine everywhere_of_label ?_ (ih ?_)
        · rw [label_insertPath]
          exact hnew a part parts
        · exact fun d hd => absurd hd List.not_mem_nil

theorem find?_modify_first {cs : List (RoseTree α)} {part : ν} {j : Nat}
    (hj : (cs.findIdx? fun c => decide (name c.label = part)) = some j)
    {f : RoseTree α → RoseTree α} (hf : ∀ c, (f c).label = c.label) (n : ν) :
    ((cs.modify j f).find? fun c => decide (name c.label = n)) =
      if n = part then (cs.find? fun c => decide (name c.label = part)).map f
      else cs.find? fun c => decide (name c.label = n) := by
  induction cs generalizing j with
  | nil => simp at hj
  | cons c cs ih =>
    rw [List.findIdx?_cons] at hj
    by_cases hc : name c.label = part
    · rw [decide_eq_true hc, if_pos rfl] at hj
      obtain rfl := Option.some.inj hj
      by_cases hn : n = part
      · simp [hf, hc, hn]
      · have hcn : ¬ name c.label = n := fun h => hn (h.symm.trans hc)
        simp [hf, hcn, hn]
    · rw [decide_eq_false hc, if_neg Bool.false_ne_true] at hj
      obtain ⟨i, hi, rfl⟩ := Option.map_eq_some_iff.mp hj
      by_cases hcn : name c.label = n
      · have hn : ¬ n = part := fun h => hc (hcn.trans h)
        simp [hcn, hn]
      · by_cases hn : n = part
        · have hrest := ih hi
          rw [if_pos hn] at hrest
          simp [hn, hc, ← hrest]
        · have hrest := ih hi
          rw [if_neg hn] at hrest
          simp [hn, hcn, hrest]

variable (hnew : ∀ a n ns, name (new a n ns) = n)
include hnew

/-- One level of the way down: under the first name the rest of the path is
inserted, under every other name nothing happens. -/
theorem lookup_insertPath_cons (part : ν) (parts : List ν) (a : α) (cs : List (RoseTree α)) (n : ν)
    (ns : List ν) : lookup name (insertPath name new (part :: parts) (.node a cs)) (n :: ns) =
      if n = part then
        lookup name (insertPath name new parts ((cs.find? fun c =>
          decide (name c.label = part)).getD (.node (new a part parts) []))) ns
      else lookup name (.node a cs) (n :: ns) := by
  rw [insertPath]
  cases hj : cs.findIdx? fun c => decide (name c.label = part) with
  | some j =>
    simp only [lookup_cons, children, find?_modify_first hj (label_insertPath parts)]
    by_cases hn : n = part
    · rw [if_pos hn, if_pos hn]
      cases hc : cs.find? fun c => decide (name c.label = part) with
      | none =>
        have hnone : (cs.findIdx? fun c => decide (name c.label = part)) = none := by
          rw [List.findIdx?_eq_none_iff]
          intro c hmem
          simpa using List.find?_eq_none.mp hc c hmem
        rw [hnone] at hj
        exact absurd hj (by simp)
      | some c => rfl
    · rw [if_neg hn, if_neg hn]
  | none =>
    have hc : (cs.find? fun c => decide (name c.label = part)) = none := by
      rw [List.find?_eq_none]
      intro c hmem
      simpa using List.findIdx?_eq_none_iff.mp hj c hmem
    have hname : name (RoseTree.node (new a part parts) []).label = part := hnew a part parts
    simp only [lookup_cons, children, List.find?_append]
    by_cases hn : n = part
    · rw [if_pos hn, hn, hc]
      simp [hname]
    · have hne : ¬ part = n := fun h => hn h.symm
      rw [if_neg hn]
      simp [hname, hne]

theorem lookup_insertPath_away {parts ns : List ν} (h : ¬ ns <+: parts) (t : RoseTree α) :
    lookup name (insertPath name new parts t) ns = lookup name t ns := by
  induction parts generalizing t ns with
  | nil => rfl
  | cons part parts ih =>
    obtain ⟨a, cs⟩ := t
    cases ns with
    | nil => exact absurd List.nil_prefix h
    | cons n ns =>
      rw [lookup_insertPath_cons hnew]
      split_ifs with hn
      · subst hn
        have hns : ¬ ns <+: parts := fun hpre => h (List.cons_prefix_cons.mpr ⟨rfl, hpre⟩)
        rw [ih hns, lookup_cons, children]
        cases cs.find? fun c => decide (name c.label = n) with
        | some c => rfl
        | none =>
          rw [Option.getD_none, Option.bind_none]
          exact lookup_of_children_nil rfl fun hnil => hns (hnil ▸ List.nil_prefix)
      · rfl

theorem lookup_insertPath_of_some {t u : RoseTree α} {ns : List ν} (hu : lookup name t ns = some u)
    (rest : List ν) : lookup name (insertPath name new (ns ++ rest) t) ns =
      some (insertPath name new rest u) := by
  induction ns generalizing t with
  | nil =>
    obtain rfl : t = u := by simpa using hu
    rw [List.nil_append, lookup_nil]
  | cons n ns ih =>
    obtain ⟨a, cs⟩ := t
    rw [lookup_cons] at hu
    obtain ⟨c, hc, hu⟩ := Option.bind_eq_some_iff.mp hu
    have hc' : (cs.find? fun c => decide (name c.label = n)) = some c := hc
    rw [List.cons_append, lookup_insertPath_cons hnew, if_pos rfl, hc', Option.getD_some]
    exact ih hu

theorem lookup_insertPath_of_none {t : RoseTree α} {ns : List ν} {n : ν}
    (hnone : lookup name t (ns ++ [n]) = none) (rest : List ν) :
    ∃ v, lookup name (insertPath name new (ns ++ n :: rest) t) ns = some v ∧
      lookup name (insertPath name new (ns ++ n :: rest) t) (ns ++ [n]) =
        some (insertPath name new rest (.node (new v.label n rest) [])) := by
  induction ns generalizing t with
  | nil =>
    obtain ⟨a, cs⟩ := t
    refine ⟨_, lookup_nil _, ?_⟩
    rw [List.nil_append, lookup_cons] at hnone
    have hc : (cs.find? fun c => decide (name c.label = n)) = none := by
      simpa [children] using hnone
    rw [List.nil_append, List.nil_append, lookup_insertPath_cons hnew, if_pos rfl, hc,
      Option.getD_none, lookup_nil, label_insertPath]
    rfl
  | cons m ns ih =>
    obtain ⟨a, cs⟩ := t
    simp only [List.cons_append, lookup_insertPath_cons hnew, if_true]
    apply ih
    rw [List.cons_append, lookup_cons] at hnone
    cases hc : cs.find? fun c => decide (name c.label = m) with
    | some c =>
      have hc' : (node a cs).children.find? (fun c => decide (name c.label = m)) = some c := hc
      rwa [hc', Option.bind_some] at hnone
    | none => exact lookup_of_children_nil rfl (by simp)

theorem isSome_lookup_insertPath (parts : List ν) (t : RoseTree α) (ns : List ν) :
    (lookup name (insertPath name new parts t) ns).isSome ↔
      (lookup name t ns).isSome ∨ ns <+: parts := by
  by_cases hpre : ns <+: parts
  · simp only [hpre, or_true, iff_true]
    obtain ⟨rest, rfl⟩ := hpre
    cases hu : lookup name t ns with
    | some u =>
      rw [lookup_insertPath_of_some hnew hu]
      rfl
    | none =>
      rcases List.eq_nil_or_concat' ns with rfl | ⟨ms, n, rfl⟩
      · simp at hu
      · obtain ⟨v, -, hv⟩ := lookup_insertPath_of_none hnew hu rest
        rw [List.append_assoc, List.singleton_append, hv]
        rfl
  · rw [lookup_insertPath_away hnew hpre]
    simp [hpre]

theorem distinct_insertPath (parts : List ν) {t : RoseTree α} (h : Distinct name t) :
    Distinct name (insertPath name new parts t) := by
  induction parts generalizing t with
  | nil => exact h
  | cons part parts ih =>
    obtain ⟨a, cs⟩ := t
    obtain ⟨hnames, hcs⟩ := everywhere_node.mp h
    rw [insertPath]
    split
    · next j hj =>
      refine everywhere_node.mpr ⟨?_, ?_⟩
      · have hsame : ((cs.modify j (insertPath name new parts)).map fun c => name c.label) =
            cs.map fun c => name c.label := by
          apply List.ext_getElem?
          intro i
          simp only [List.getElem?_map, List.getElem?_modify]
          cases cs[i]? with
          | none => rfl
          | some c =>
            by_cases hij : j = i
            · simp [hij]
            · simp [hij]
        simp only [children, hsame]
        exact hnames
      · intro c hc
        rcases mem_modify_children hc with hc | ⟨d, hd, rfl⟩
        · exact hcs c hc
        · exact ih (hcs d hd)
    · next hj =>
      refine everywhere_node.mpr ⟨?_, ?_⟩
      · simp only [children, List.map_append, List.map_cons, List.map_nil, label_insertPath]
        apply List.Nodup.append hnames (List.nodup_singleton _)
        intro n hn hn'
        obtain ⟨c, hc, rfl⟩ := List.mem_map.mp hn
        have hpart : name c.label = part := (List.mem_singleton.mp hn').trans (hnew a part parts)
        have hno := List.findIdx?_eq_none_iff.mp hj c hc
        rw [decide_eq_true hpart] at hno
        exact absurd hno (by decide)
      · intro c hc
        cases List.mem_append.mp hc with
        | inl hc => exact hcs c hc
        | inr hc =>
          rw [List.mem_singleton.mp hc]
          exact ih (everywhere_node.mpr ⟨by simp [children], by simp⟩)

end insert

/-! ### Inserting many paths -/

theorem children_eq_nil_iff_of_lookup {t u : RoseTree α} {ns : List ν}
    (hu : lookup name t ns = some u) :
    u.children = [] ↔ ∀ n, lookup name t (ns ++ [n]) = none := by
  have hnext : ∀ n, lookup name t (ns ++ [n]) = lookup name u [n] := by
    intro n
    rw [lookup_append, hu, Option.bind_some]
  rw [forall_congr' fun n => by rw [hnext n]]
  exact children_eq_nil_iff

section insertAll
variable {β : Type*} (new : β → α → ν → List ν → α) (parts : β → List ν)

def insertAll (name : α → ν) (t : RoseTree α) (l : List β) : RoseTree α :=
  l.foldl (fun t b => insertPath name (new b) (parts b) t) t

@[simp] theorem insertAll_nil (t : RoseTree α) : insertAll new parts name t [] = t := rfl

@[simp] theorem insertAll_cons (t : RoseTree α) (b : β) (l : List β) :
    insertAll new parts name t (b :: l) =
      insertAll new parts name (insertPath name (new b) (parts b) t) l := rfl

theorem insertAll_append (t : RoseTree α) (l l' : List β) : insertAll new parts name t (l ++ l') =
    insertAll new parts name (insertAll new parts name t l) l' := List.foldl_append

@[simp] theorem label_insertAll (t : RoseTree α) (l : List β) :
    (insertAll new parts name t l).label = t.label := by
  induction l generalizing t with
  | nil => rfl
  | cons b l ih => rw [insertAll_cons, ih, label_insertPath]

theorem below_insertAll {P : α → Prop} (hnew : ∀ b a n ns, P (new b a n ns)) {t : RoseTree α}
    (h : ∀ c ∈ t.children, Everywhere (fun u => P u.label) c) (l : List β) :
    ∀ c ∈ (insertAll new parts name t l).children, Everywhere (fun u => P u.label) c := by
  induction l generalizing t with
  | nil => exact h
  | cons b l ih => exact ih (below_insertPath (hnew b) (parts b) h)

variable (hnew : ∀ b a n ns, name (new b a n ns) = n)
include hnew

theorem distinct_insertAll {t : RoseTree α} (h : Distinct name t) (l : List β) :
    Distinct name (insertAll new parts name t l) := by
  induction l generalizing t with
  | nil => exact h
  | cons b l ih => exact ih (distinct_insertPath (hnew b) (parts b) h)

theorem isSome_lookup_insertAll (t : RoseTree α) (l : List β) (ns : List ν) :
    (lookup name (insertAll new parts name t l) ns).isSome ↔
      (lookup name t ns).isSome ∨ ∃ b ∈ l, ns <+: parts b := by
  induction l generalizing t with
  | nil => simp
  | cons b l ih =>
    rw [insertAll_cons, ih, isSome_lookup_insertPath (hnew b), List.exists_mem_cons_iff, or_assoc]

/-- The leaves of the tree are the paths that are no proper beginning of another. -/
theorem leaf_insertAll_iff {t : RoseTree α} (ht : t.children = []) {l : List β} (hl : l ≠ [])
    (ns : List ν) :
    (∃ u, lookup name (insertAll new parts name t l) ns = some u ∧ u.children = []) ↔
      ∃ b ∈ l, parts b = ns ∧ ∀ c ∈ l, ns <+: parts c → ns = parts c := by
  have hfound : ∀ ms, (lookup name (insertAll new parts name t l) ms).isSome ↔
      ∃ b ∈ l, ms <+: parts b := by
    intro ms
    rw [isSome_lookup_insertAll new parts hnew]
    refine or_iff_right_of_imp fun hsome => ?_
    have hnil : ms = [] := by
      by_contra hne
      rw [lookup_of_children_nil ht hne] at hsome
      exact absurd hsome (by simp)
    obtain ⟨b, hb⟩ := List.exists_mem_of_ne_nil l hl
    exact ⟨b, hb, hnil ▸ List.nil_prefix⟩
  constructor
  · rintro ⟨u, hu, hleaf⟩
    have hnone := (children_eq_nil_iff_of_lookup hu).mp hleaf
    have hmax : ∀ c ∈ l, ns <+: parts c → ns = parts c := by
      intro c hc hpre
      by_contra hne
      obtain ⟨n, hn⟩ := exists_concat_isPrefix hpre hne
      have hsome := (hfound (ns ++ [n])).mpr ⟨c, hc, hn⟩
      rw [hnone n] at hsome
      exact absurd hsome (by simp)
    obtain ⟨b, hb, hpre⟩ := (hfound ns).mp (by rw [hu]; rfl)
    exact ⟨b, hb, (hmax b hb hpre).symm, hmax⟩
  · rintro ⟨b, hb, rfl, hmax⟩
    obtain ⟨u, hu⟩ := Option.isSome_iff_exists.mp ((hfound (parts b)).mpr ⟨b, hb, List.prefix_refl _⟩)
    refine ⟨u, hu, (children_eq_nil_iff_of_lookup hu).mpr fun n => ?_⟩
    by_contra hne
    obtain ⟨c, hc, hpre⟩ := (hfound (parts b ++ [n])).mp (Option.isSome_iff_ne_none.mpr hne)
    have heq := hmax c hc ((List.prefix_append _ _).trans hpre)
    exact not_concat_isPrefix (heq ▸ hpre)

end insertAll
end RoseTree
